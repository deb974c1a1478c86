import Mathlib.Order.Lattice
import Mathlib.Data.List.Basic

/-!
# A watermark with two publishers

Numbers are taken in increasing order.  Each is written at once, or put off, and then written later
by a second party; whoever has written one publishes it as the mark.

* `Ledger K`              the numbers taken and written, those that wait, the mark;
* `Ledger.debts`          what the second party has still to publish;
* `Ledger.Sound`          the mark has never been lowered, and all taken up to it is written;
* `Ledger.Ok`             the invariant, with one lemma for each operation; `Ok.publish` asks that
                          there are no debts;
* `not_sound_publish_waiting`, `not_sound_publish_held`  with a debt the first party's mark is not
                          sound, or the next one is not.
-/

set_option linter.unusedVariables false

namespace Marks

structure Ledger (K : Type*) where
  taken : List K
  written : List K
  -- written by a party, and not yet published
  mine : Option K
  held : Option K
  waiting : List K
  mark : Option K
  lowered : Bool

section
variable {K : Type*}

/-- the second party has still to publish these, in this order -/
def Ledger.debts (l : Ledger K) : List K := l.held.toList ++ l.waiting

def Ledger.putOff (l : Ledger K) (k : K) : Ledger K :=
  { l with taken := l.taken ++ [k], waiting := l.waiting ++ [k] }

def Ledger.write (l : Ledger K) (k : K) : Ledger K :=
  { l with taken := l.taken ++ [k], written := l.written ++ [k], mine := some k }

/-- the second party writes the first that waits -/
def Ledger.replay (l : Ledger K) (k : K) (rest : List K) : Ledger K :=
  { l with written := l.written ++ [k], held := some k, waiting := rest }

variable {l : Ledger K} {k : K}

theorem mem_debts : k ∈ l.debts ↔ l.held = some k ∨ k ∈ l.waiting := by
  simp [Ledger.debts]

theorem debts_putOff : (l.putOff k).debts = l.debts ++ [k] := by
  simp [Ledger.debts, Ledger.putOff]

variable [LinearOrder K]

/-- the mark becomes `k` -/
def Ledger.setMark (l : Ledger K) (k : K) : Ledger K :=
  { l with mark := some k, lowered := l.lowered || l.mark.any fun m => decide (k < m) }

/-- the first party publishes `k` -/
def Ledger.publish (l : Ledger K) (k : K) : Ledger K := { l.setMark k with mine := none }

def Ledger.publishHeld (l : Ledger K) (k : K) : Ledger K := { l.setMark k with held := none }

structure Ledger.Sound (l : Ledger K) : Prop where
  kept : l.lowered = false
  written : ∀ k ∈ l.taken, ∀ m, l.mark = some m → k ≤ m → k ∈ l.written

/-! ## the invariant -/

structure Ledger.Ok (l : Ledger K) : Prop where
  kept : l.lowered = false
  sorted : l.debts.Pairwise (· < ·)
  debts_taken : ∀ k ∈ l.debts, k ∈ l.taken
  written_taken : ∀ k ∈ l.written, k ∈ l.taken
  unwritten : ∀ k ∈ l.waiting, k ∉ l.written
  rest : ∀ k ∈ l.taken, k ∈ l.written ∨ k ∈ l.waiting
  mine : ∀ k, l.mine = some k → k ∈ l.taken ∧ (∀ j ∈ l.taken, j ≤ k) ∧ ∀ j ∈ l.debts, j < k
  mark : ∀ m, l.mark = some m → m ∈ l.taken ∧ ∀ j ∈ l.debts, m < j

theorem Ledger.Ok.sound (h : l.Ok) : l.Sound := by
  refine ⟨h.kept, ?_⟩
  intro k hk m hm hle
  rcases h.rest k hk with hw | hw
  · exact hw
  · have hlt := (h.mark m hm).2 k (mem_debts.mpr (Or.inr hw))
    exact absurd hle (not_le.mpr hlt)

theorem Ledger.Ok.putOff (h : l.Ok) (hk : ∀ j ∈ l.taken, j < k) (hm : l.mine = none) :
    (l.putOff k).Ok where
  kept := h.kept
  sorted := by
    rw [debts_putOff, List.pairwise_append]
    refine ⟨h.sorted, List.pairwise_singleton _ _, ?_⟩
    intro a ha b hb
    rw [List.mem_singleton.mp hb]
    exact hk a (h.debts_taken a ha)
  debts_taken := by
    intro j hj
    rw [debts_putOff, List.mem_append] at hj
    rcases hj with hj | hj
    · exact List.mem_append_left _ (h.debts_taken j hj)
    · exact List.mem_append_right _ hj
  written_taken := by
    intro j hj
    exact List.mem_append_left _ (h.written_taken j hj)
  unwritten := by
    intro j hj hw
    rcases List.mem_append.mp hj with hj | hj
    · exact h.unwritten j hj hw
    · rw [List.mem_singleton.mp hj] at hw
      exact lt_irrefl k (hk k (h.written_taken k hw))
  rest := by
    intro j hj
    rcases List.mem_append.mp hj with hj | hj
    · exact (h.rest j hj).imp_right (List.mem_append_left _)
    · exact Or.inr (List.mem_append_right _ hj)
  mine := by
    intro j hj
    rw [show (l.putOff k).mine = l.mine from rfl, hm] at hj
    cases hj
  mark := by
    intro m hj
    obtain ⟨hmt, hlt⟩ := h.mark m hj
    refine ⟨List.mem_append_left _ hmt, ?_⟩
    intro j hj
    rw [debts_putOff, List.mem_append] at hj
    rcases hj with hj | hj
    · exact hlt j hj
    · rw [List.mem_singleton.mp hj]
      exact hk m hmt

theorem Ledger.Ok.write (h : l.Ok) (hk : ∀ j ∈ l.taken, j < k) : (l.write k).Ok where
  kept := h.kept
  sorted := h.sorted
  debts_taken := by
    intro j hj
    exact List.mem_append_left _ (h.debts_taken j hj)
  written_taken := by
    intro j hj
    rcases List.mem_append.mp hj with hj | hj
    · exact List.mem_append_left _ (h.written_taken j hj)
    · exact List.mem_append_right _ hj
  unwritten := by
    intro j hj hw
    rcases List.mem_append.mp hw with hw | hw
    · exact h.unwritten j hj hw
    · have hlt := hk j (h.debts_taken j (mem_debts.mpr (Or.inr hj)))
      rw [List.mem_singleton.mp hw] at hlt
      exact lt_irrefl k hlt
  rest := by
    intro j hj
    rcases List.mem_append.mp hj with hj | hj
    · exact (h.rest j hj).imp_left (List.mem_append_left _)
    · exact Or.inl (List.mem_append_right _ hj)
  mine := by
    intro j hj
    obtain rfl := Option.some.inj hj
    refine ⟨List.mem_append_right _ (List.mem_singleton_self _), ?_, ?_⟩
    · intro i hi
      rcases List.mem_append.mp hi with hi | hi
      · exact (hk i hi).le
      · exact (List.mem_singleton.mp hi).le
    · intro i hi
      exact hk i (h.debts_taken i hi)
  mark := by
    intro m hm
    obtain ⟨hmt, hlt⟩ := h.mark m hm
    exact ⟨List.mem_append_left _ hmt, hlt⟩

theorem lowered_setMark (hl : l.lowered = false) (hk : ∀ m, l.mark = some m → m ≤ k) :
    (l.setMark k).lowered = false := by
  unfold Ledger.setMark
  dsimp only
  rw [hl, Bool.false_or]
  cases hm : l.mark with
  | none => rfl
  | some m => exact decide_eq_false (not_lt.mpr (hk m hm))

/-- **The first party publishes** when there are no debts. -/
theorem Ledger.Ok.publish (h : l.Ok) (hk : l.mine = some k) (hd : l.debts = []) :
    (l.publish k).Ok where
  kept := by
    apply lowered_setMark h.kept
    intro m hm
    exact (h.mine k hk).2.1 m (h.mark m hm).1
  sorted := h.sorted
  debts_taken := h.debts_taken
  written_taken := h.written_taken
  unwritten := h.unwritten
  rest := h.rest
  mine := by
    intro j hj
    cases hj
  mark := by
    intro m hm
    obtain rfl := Option.some.inj hm
    refine ⟨(h.mine k hk).1, ?_⟩
    intro j hj
    rw [show (l.publish k).debts = l.debts from rfl, hd] at hj
    cases hj

theorem Ledger.Ok.replay {rest : List K} (h : l.Ok) (hh : l.held = none)
    (hw : l.waiting = k :: rest) : (l.replay k rest).Ok := by
  have hdebts : (l.replay k rest).debts = l.debts := by
    simp [Ledger.debts, Ledger.replay, hh, hw]
  have hkd : k ∈ l.debts := by
    rw [mem_debts, hw]
    exact Or.inr List.mem_cons_self
  have hkr : ∀ j ∈ rest, k < j := by
    have hs := h.sorted
    rw [Ledger.debts, hh, hw] at hs
    exact fun j hj => List.rel_of_pairwise_cons hs hj
  refine ⟨h.kept, hdebts ▸ h.sorted, hdebts ▸ h.debts_taken, ?_, ?_, ?_, ?_, ?_⟩
  · intro j hj
    rcases List.mem_append.mp hj with hj | hj
    · exact h.written_taken j hj
    · rw [List.mem_singleton.mp hj]
      exact h.debts_taken k hkd
  · intro j hj hjw
    rcases List.mem_append.mp hjw with hjw | hjw
    · exact h.unwritten j (hw ▸ List.mem_cons_of_mem k hj) hjw
    · have hlt := hkr j hj
      rw [List.mem_singleton.mp hjw] at hlt
      exact lt_irrefl k hlt
  · intro j hj
    rcases h.rest j hj with hjw | hjw
    · exact Or.inl (List.mem_append_left _ hjw)
    · rw [hw, List.mem_cons] at hjw
      rcases hjw with rfl | hjw
      · exact Or.inl (List.mem_append_right _ (List.mem_singleton_self _))
      · exact Or.inr hjw
  · rw [hdebts]
    exact h.mine
  · rw [hdebts]
    exact h.mark

theorem Ledger.Ok.publishHeld (h : l.Ok) (hh : l.held = some k) : (l.publishHeld k).Ok := by
  have hdebts : l.debts = k :: (l.publishHeld k).debts := by
    simp [Ledger.debts, Ledger.publishHeld, Ledger.setMark, hh]
  have hkd : k ∈ l.debts := mem_debts.mpr (Or.inl hh)
  have hs := h.sorted
  rw [hdebts, List.pairwise_cons] at hs
  have hsub : ∀ j ∈ (l.publishHeld k).debts, j ∈ l.debts := by
    intro j hj
    rw [hdebts]
    exact List.mem_cons_of_mem k hj
  refine ⟨?_, hs.2, ?_, h.written_taken, h.unwritten, h.rest, ?_, ?_⟩
  · apply lowered_setMark h.kept
    intro m hm
    exact ((h.mark m hm).2 k hkd).le
  · intro j hj
    exact h.debts_taken j (hsub j hj)
  · intro j hj
    obtain ⟨ht, hle, hlt⟩ := h.mine j hj
    exact ⟨ht, hle, fun i hi => hlt i (hsub i hi)⟩
  · intro m hm
    obtain rfl := Option.some.inj hm
    exact ⟨h.debts_taken k hkd, hs.1⟩

/-! ## with debts -/

/-- a number that waits is below the new mark, and is not written -/
theorem not_sound_publish_waiting (h : l.Ok) (hk : l.mine = some k) (hw : l.waiting ≠ []) :
    ¬ (l.publish k).Sound := by
  obtain ⟨j, hj⟩ := List.exists_mem_of_ne_nil _ hw
  have hjd : j ∈ l.debts := mem_debts.mpr (Or.inr hj)
  intro hs
  apply h.unwritten j hj
  exact hs.written j (h.debts_taken j hjd) k rfl ((h.mine k hk).2.2 j hjd).le

/-- the number that the second party has written is published after a larger one -/
theorem not_sound_publish_held {j : K} (h : l.Ok) (hk : l.mine = some k) (hj : l.held = some j) :
    ¬ ((l.publish k).publishHeld j).Sound := by
  have hlt : j < k := (h.mine k hk).2.2 j (mem_debts.mpr (Or.inl hj))
  intro hs
  have hl := hs.kept
  simp [Ledger.publishHeld, Ledger.publish, Ledger.setMark, hlt] at hl

end

end Marks
