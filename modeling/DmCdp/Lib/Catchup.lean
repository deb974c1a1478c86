import DmCdp.Lib.Replay

/-!
# Catching up with a source

A copy `img` of a source `dev`, and the writes `ps` that have changed the source and are still
outstanding at the copy, in the order in which the copy will replay them.  Everything is said of
one address `a`.

* `Fresh ps img dev a`   the copy with the outstanding writes replayed holds what the source holds;
* `Newest ps dev a`      the last outstanding write at `a` left what the source holds now;
* `Clear ps p a`         no write of `ps` is at `a`, or `p` is not: `p` may be taken before `ps`.

The rules: a new write (`fresh_write`, `newest_write`), an outstanding write taken before others
(`fresh_take`, `newest_take`), a read of the source (`fresh_of_read`).
-/

set_option linter.unusedVariables false

namespace Img

section
variable {α β : Type*}

def Fresh (ps : List (α → Option β)) (img dev : α → β) (a : α) : Prop :=
  (net ps a).getD (img a) = dev a

def Newest (ps : List (α → Option β)) (dev : α → β) (a : α) : Prop :=
  ∀ v, net ps a = some v → v = dev a

def Clear (ps : List (α → Option β)) (p : α → Option β) (a : α) : Prop :=
  net ps a = none ∨ p a = none

variable {ps qs : List (α → Option β)} {p : α → Option β} {img img' dev : α → β} {a : α}

theorem fresh_nil : Fresh [] img dev a ↔ img a = dev a := Iff.rfl

theorem newest_nil (dev : α → β) (a : α) : Newest [] dev a := by
  intro v h
  cases h

theorem clear_nil (p : α → Option β) (a : α) : Clear [] p a := Or.inl rfl

theorem clear_append : Clear (ps ++ qs) p a ↔ Clear ps p a ∧ Clear qs p a := by
  unfold Clear
  rw [net_append, Option.or_eq_none_iff]
  constructor
  · rintro (⟨h1, h2⟩ | h)
    · exact ⟨Or.inl h2, Or.inl h1⟩
    · exact ⟨Or.inr h, Or.inr h⟩
  · rintro ⟨h1 | h1, h2⟩
    · exact h2.imp_left fun h2 => ⟨h2, h1⟩
    · exact Or.inr h1

/-- the net effect at an address that `p` may overtake `ps` at -/
theorem net_take (h : Clear ps p a) :
    net (ps ++ p :: qs) a = (net (ps ++ qs) a).or (p a) := by
  rw [net_append, net_cons, net_append]
  rcases h with e | e <;> rw [e]
  · rw [Option.or_none, Option.or_none]
  · rw [Option.or_none, Option.or_none]

theorem Fresh.congr (h : Fresh ps img dev a) (e : img' a = img a) : Fresh ps img' dev a := by
  unfold Fresh
  rw [e]
  exact h

/-- the outstanding writes decide where they are, the copy elsewhere -/
theorem fresh_iff : Fresh ps img dev a ↔ Newest ps dev a ∧ (net ps a = none → img a = dev a) := by
  unfold Fresh Newest
  cases hn : net ps a with
  | none => simp
  | some v =>
    constructor
    · intro h
      refine ⟨fun w hw => ?_, fun e => absurd e (by simp)⟩
      rw [← Option.some.inj hw]
      exact h
    · intro h
      exact h.1 v rfl

/-! ## the rules -/

/-- **A new write** reaches the source and queues up for the copy. -/
theorem newest_write (h : Newest ps dev a) : Newest (ps ++ [p]) (overlay p dev) a := by
  intro v hv
  rw [net_snoc] at hv
  cases hp : p a with
  | none =>
    rw [hp] at hv
    rw [overlay_none hp]
    exact h v hv
  | some w =>
    rw [hp] at hv
    rw [overlay_some hp]
    exact (Option.some.inj hv).symm

theorem fresh_write (h : Fresh ps img dev a) : Fresh (ps ++ [p]) img (overlay p dev) a := by
  rw [fresh_iff] at h ⊢
  refine ⟨newest_write h.1, fun hn => ?_⟩
  rw [net_snoc, Option.or_eq_none_iff] at hn
  rw [h.2 hn.2, overlay_none hn.1]

/-- **An outstanding write is taken** before the ones of `ps`, where it may. -/
theorem newest_take (h : Newest (ps ++ p :: qs) dev a) (hc : Clear ps p a) :
    Newest (ps ++ qs) dev a := by
  intro v hv
  refine h v ?_
  rw [net_take hc, hv]
  rfl

theorem fresh_take (h : Fresh (ps ++ p :: qs) img dev a) (hc : Clear ps p a) :
    Fresh (ps ++ qs) (overlay p img) dev a := by
  unfold Fresh at h ⊢
  rw [net_take hc] at h
  cases hn : net (ps ++ qs) a with
  | none =>
    rw [hn] at h
    exact h
  | some v =>
    rw [hn] at h
    exact h

theorem fresh_head (h : Fresh (p :: qs) img dev a) : Fresh qs (overlay p img) dev a :=
  fresh_take (show Fresh ([] ++ p :: qs) img dev a from h) (clear_nil p a)

theorem newest_head (h : Newest (p :: qs) dev a) : Newest qs dev a :=
  newest_take (show Newest ([] ++ p :: qs) dev a from h) (clear_nil p a)

/-- **A read of the source** is a copy at least as new as the outstanding writes. -/
theorem fresh_of_read (h : Newest ps dev a) (e : img a = dev a) : Fresh ps img dev a :=
  fresh_iff.mpr ⟨h, fun _ => e⟩

end

end Img
