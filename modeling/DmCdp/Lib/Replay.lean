import Mathlib.Data.List.Basic

/-!
# Replaying patches over an image

An image is a function `α → β` from addresses to values.  A patch gives new values to some
addresses (`α → Option β`).  The net effect of a list of patches at an address is the value of
the last patch that touches it (`net`), and a replay is decided by it (`replay_apply`): this is
the last-writer argument, done once.

* `overlay p img`, `replay ps img`   one patch, a list of patches, oldest first;
* `net ps a`                     what `ps` leaves at `a` (`none`: nothing touches `a`);
* `span off n f`                 the patch of `n` consecutive addresses; `blit` writes it.
-/

set_option linter.unusedVariables false

namespace Img

/-! ## patches and their net effect -/

section
variable {α β : Type*}

def overlay (p : α → Option β) (img : α → β) : α → β := fun a => (p a).getD (img a)

theorem overlay_none {p : α → Option β} {img : α → β} {a : α} (h : p a = none) :
    overlay p img a = img a := by
  unfold overlay
  rw [h]
  rfl

theorem overlay_some {p : α → Option β} {img : α → β} {a : α} {v : β} (h : p a = some v) :
    overlay p img a = v := by
  unfold overlay
  rw [h]
  rfl

theorem overlay_overlay (p q : α → Option β) (img : α → β) :
    overlay q (overlay p img) = overlay (fun a => (q a).or (p a)) img := by
  funext a
  show (q a).getD ((p a).getD (img a)) = ((q a).or (p a)).getD (img a)
  cases q a with
  | none => rfl
  | some v => rfl

def replay (ps : List (α → Option β)) (img : α → β) : α → β :=
  ps.foldl (fun i p => overlay p i) img

/-- the value that the last patch touching `a` gives it -/
def net : List (α → Option β) → α → Option β
  | [], _ => none
  | p :: ps, a => (net ps a).or (p a)

theorem net_nil (a : α) : net ([] : List (α → Option β)) a = none := rfl
theorem net_cons (p : α → Option β) (ps : List (α → Option β)) (a : α) :
    net (p :: ps) a = (net ps a).or (p a) := rfl

theorem net_append (ps qs : List (α → Option β)) (a : α) :
    net (ps ++ qs) a = (net qs a).or (net ps a) := by
  induction ps with
  | nil => simp [net_nil]
  | cons p ps ih => rw [List.cons_append, net_cons, ih, net_cons, Option.or_assoc]

theorem net_snoc (ps : List (α → Option β)) (p : α → Option β) (a : α) :
    net (ps ++ [p]) a = (p a).or (net ps a) := net_append ps [p] a

theorem net_eq_none {ps : List (α → Option β)} {a : α} :
    net ps a = none ↔ ∀ p ∈ ps, p a = none := by
  induction ps with
  | nil => simp [net_nil]
  | cons p ps ih => simp [net_cons, Option.or_eq_none_iff, ih, and_comm]

/-- a patch that touches `a` after which no other does decides the net effect -/
theorem net_of_last {ps : List (α → Option β)} {k : Nat} {p : α → Option β} {a : α} {v : β}
    (hp : ps[k]? = some p) (hv : p a = some v)
    (hl : ∀ (j : Nat) (q : α → Option β), k < j → ps[j]? = some q → q a = none) :
    net ps a = some v := by
  induction ps generalizing k with
  | nil => exact absurd hp (by simp)
  | cons q qs ih =>
    rw [net_cons]
    cases k with
    | zero =>
      obtain rfl := Option.some.inj hp
      have hnone : net qs a = none := by
        refine net_eq_none.mpr fun r hr => ?_
        obtain ⟨j, hj⟩ := List.mem_iff_getElem?.mp hr
        exact hl (j + 1) r (Nat.succ_pos j) hj
      rw [hnone, hv]
      rfl
    | succ k =>
      have h := ih (k:=k) hp fun j r hj hr => hl (j + 1) r (by omega) hr
      rw [h]
      rfl

theorem replay_cons (p : α → Option β) (ps : List (α → Option β)) (img : α → β) :
    replay (p :: ps) img = replay ps (overlay p img) := rfl

theorem replay_append (ps qs : List (α → Option β)) (img : α → β) :
    replay (ps ++ qs) img = replay qs (replay ps img) := List.foldl_append

/-- **Last writer.**  A replay leaves at `a` the value of the last patch that touches `a`, and
the old value if none does. -/
theorem replay_apply (ps : List (α → Option β)) (img : α → β) (a : α) :
    replay ps img a = (net ps a).getD (img a) := by
  induction ps generalizing img with
  | nil => rfl
  | cons p ps ih =>
    rw [replay_cons, ih, net_cons]
    cases net ps a with
    | none => rfl
    | some v => rfl

/-- **A suffix on top of a prefix that reaches it** leaves what the whole list leaves. -/
theorem replay_overlap (ps : List (α → Option β)) (img : α → β) {i p : Nat} (h : i ≤ p) :
    replay (ps.drop i) (replay (ps.take p) img) = replay ps img := by
  funext a
  have hall : net ps a = (net (ps.drop i) a).or (net (ps.take i) a) := by
    rw [← net_append, List.take_append_drop]
  rw [replay_apply, replay_apply, replay_apply, hall]
  cases hn : net (ps.drop i) a with
  | some v => rfl
  | none =>
    -- nothing from `i` on touches `a`, so the prefix leaves there what its first `i` patches do
    have hmid : net ((ps.drop i).take (p - i)) a = none :=
      net_eq_none.mpr fun q hq => net_eq_none.mp hn q (List.mem_of_mem_take hq)
    have hcut : ps.take p = ps.take i ++ (ps.drop i).take (p - i) := by
      rw [← List.take_add, Nat.add_sub_cancel' h]
    rw [hcut, net_append, hmid]
    rfl

/-- what has been replayed may be replayed again from anywhere -/
theorem replay_suffix (ps : List (α → Option β)) (img : α → β) (i : Nat) :
    replay (ps.drop i) (replay ps img) = replay ps img := by
  by_cases h : i ≤ ps.length
  · have h1 := replay_overlap ps img h
    rwa [List.take_length] at h1
  · rw [List.drop_eq_nil_of_le (by omega)]
    rfl

end

/-! ## consecutive addresses -/

section
variable {β : Type*}

/-- `[off, off + n)` gets `f 0 … f (n-1)` -/
def span (off n : Nat) (f : Nat → β) : Nat → Option β :=
  fun a => if off ≤ a ∧ a < off + n then some (f (a - off)) else none

def blit (img : Nat → β) (off n : Nat) (f : Nat → β) : Nat → β := overlay (span off n f) img

theorem span_in {off n a : Nat} (f : Nat → β) (h : off ≤ a ∧ a < off + n) :
    span off n f a = some (f (a - off)) := if_pos h

theorem span_out {off n a : Nat} (f : Nat → β) (h : ¬(off ≤ a ∧ a < off + n)) :
    span off n f a = none := if_neg h

theorem span_eq_none {off n a : Nat} {f : Nat → β} :
    span off n f a = none ↔ ¬(off ≤ a ∧ a < off + n) := by
  unfold span
  split <;> simp_all

theorem span_some {off n a : Nat} {f : Nat → β} {v : β} (h : span off n f a = some v) :
    ∃ i, i < n ∧ a = off + i ∧ v = f i := by
  by_cases ha : off ≤ a ∧ a < off + n
  · rw [span_in f ha] at h
    exact ⟨a - off, by omega, by omega, (Option.some.inj h).symm⟩
  · rw [span_out f ha] at h
    cases h

theorem span_congr {off n : Nat} {f g : Nat → β} (h : ∀ i, i < n → f i = g i) :
    span off n f = span off n g := by
  funext a
  unfold span
  split
  · rw [h _ (by omega)]
  · rfl

theorem span_shift (base off n : Nat) (f : Nat → β) (a : Nat) :
    span off n f a = span (base + off) n f (base + a) := by
  unfold span
  by_cases h : off ≤ a ∧ a < off + n
  · have e : base + a - (base + off) = a - off := by omega
    rw [if_pos h, if_pos (by omega), e]
  · rw [if_neg h, if_neg (by omega)]

theorem blit_in {img : Nat → β} {off n a : Nat} (f : Nat → β) (h : off ≤ a ∧ a < off + n) :
    blit img off n f a = f (a - off) := by
  unfold blit overlay
  rw [span_in f h]
  rfl

theorem blit_out {img : Nat → β} {off n a : Nat} (f : Nat → β) (h : ¬(off ≤ a ∧ a < off + n)) :
    blit img off n f a = img a := by
  unfold blit overlay
  rw [span_out f h]
  rfl

theorem blit_zero (img : Nat → β) (off : Nat) (f : Nat → β) : blit img off 0 f = img := by
  funext a
  exact blit_out f (by omega)

theorem blit_congr {img : Nat → β} {off n : Nat} {f g : Nat → β} (h : ∀ i, i < n → f i = g i) :
    blit img off n f = blit img off n g := by
  unfold blit
  rw [span_congr h]

theorem blit_split (img : Nat → β) {off n k : Nat} (f : Nat → β) (hk : k ≤ n) :
    blit (blit img off k f) (off + k) (n - k) (fun i => f (k + i)) = blit img off n f := by
  funext a
  by_cases h2 : off + k ≤ a ∧ a < off + k + (n - k)
  · rw [blit_in _ h2, blit_in f (by omega)]
    congr 1
    omega
  · rw [blit_out _ h2]
    by_cases h1 : off ≤ a ∧ a < off + k
    · rw [blit_in f h1, blit_in f (by omega)]
    · rw [blit_out f h1, blit_out f (by omega)]

end

end Img
