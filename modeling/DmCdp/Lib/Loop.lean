import Mathlib.Logic.Relation
import Mathlib.Data.Nat.Basic

/-!
# Loops that may not end

A loop is a function `next : σ → Option σ`: the state of the next iteration, or `none` where the loop
is left.

* `leaves next fuel s`    it is left within `fuel` iterations;
* `Reaches next s t`      it comes from `s` to `t`;
* `leaves_reaches`        it is left from a state exactly if it is left from one that it comes to;
* `leaves_iff_moves`      a loop that moves on or stays where it is: it is left exactly if it never stays.
-/

set_option linter.unusedVariables false

namespace Loop

section
variable {σ : Type*} (next : σ → Option σ)

def leaves : Nat → σ → Bool
  | 0, _ => false
  | fuel + 1, s =>
    match next s with
    | none => true
    | some t => leaves fuel t

def Reaches : σ → σ → Prop := Relation.ReflTransGen fun s t => next s = some t

variable {next} {s t u : σ}

theorem Reaches.refl (s : σ) : Reaches next s s := Relation.ReflTransGen.refl

theorem Reaches.tail (h : Reaches next s t) (hn : next t = some u) : Reaches next s u :=
  Relation.ReflTransGen.tail h hn

theorem leaves_none {fuel : Nat} (hn : next s = none) : leaves next (fuel + 1) s = true := by
  unfold leaves
  rw [hn]

theorem leaves_some {fuel : Nat} (hn : next s = some t) :
    leaves next (fuel + 1) s = leaves next fuel t := by
  rw [leaves.eq_2, hn]

theorem leaves_reaches (h : Reaches next s t) :
    (∃ fuel, leaves next fuel s = true) ↔ ∃ fuel, leaves next fuel t = true := by
  induction h with
  | refl => exact Iff.rfl
  | tail _ hn ih =>
    rw [ih]
    constructor
    · rintro ⟨fuel, h⟩
      cases fuel with
      | zero => cases h
      | succ fuel => exact ⟨fuel, by rwa [leaves_some hn] at h⟩
    · rintro ⟨fuel, h⟩
      exact ⟨fuel + 1, by rwa [leaves_some hn]⟩

/-- an iteration that changes nothing is repeated -/
theorem not_leaves_of_stay (hn : next s = some s) (fuel : Nat) : leaves next fuel s = false := by
  induction fuel with
  | zero => rfl
  | succ fuel ih => rw [leaves_some hn, ih]

theorem leaves_of_moves (m : σ → Nat)
    (hmove : ∀ t u, Reaches next s t → next t = some u → m u < m t) (h : Reaches next s t) :
    leaves next (m t + 1) t = true := by
  have hle : ∀ n t, Reaches next s t → m t ≤ n → leaves next (n + 1) t = true := by
    intro n
    induction n with
    | zero =>
      intro t ht hm
      cases hn : next t with
      | none => exact leaves_none hn
      | some u => exact absurd (hmove t u ht hn) (by omega)
    | succ n ih =>
      intro t ht hm
      cases hn : next t with
      | none => exact leaves_none hn
      | some u =>
        have hlt := hmove t u ht hn
        rw [leaves_some hn]
        exact ih u (ht.tail hn) (by omega)
  exact hle _ t h (Nat.le_refl _)

/-- **A loop that moves on or stays where it is** is left exactly if it never stays. -/
theorem leaves_iff_moves (m : σ → Nat)
    (hmove : ∀ t u, next t = some u → u = t ∨ m u < m t) :
    (∃ fuel, leaves next fuel s = true) ↔ ∀ t, Reaches next s t → next t ≠ some t := by
  constructor
  · rintro h t ht hn
    obtain ⟨fuel, hf⟩ := (leaves_reaches ht).mp h
    rw [not_leaves_of_stay hn] at hf
    cases hf
  · intro h
    refine ⟨_, leaves_of_moves m (fun t u ht hn => ?_) (Reaches.refl s)⟩
    rcases hmove t u hn with rfl | hlt
    · exact absurd hn (h u ht)
    · exact hlt

end

end Loop
