import Mathlib.Logic.Function.Basic
import Mathlib.Data.List.Basic
import DmCdp.Lib.Slots

/-!
# A table of names

Parties in a list, each with at most one name, and a table from names to positions that says who
has which.  One party changes at a time; these are the cases.

* `Index l f tab`   the table is that of the names `f`; so no two parties share one (`unique`);
* `push`, `keep`    a party without a name is added, or one changes and keeps its name;
* `claim`, `drop`   a free name is given, a name is given up.
-/

set_option linter.unusedVariables false

namespace Names
open Slots

section
variable {α κ : Type*} {l : List α} {f : α → Option κ} {tab : κ → Option Nat} {i j : Nat}
  {x y : α} {k : κ}

/-- `tab` says which party has a name -/
def Index (l : List α) (f : α → Option κ) (tab : κ → Option Nat) : Prop :=
  ∀ k i, tab k = some i ↔ ∃ x, l[i]? = some x ∧ f x = some k

theorem index_nil : Index [] f (fun _ => none) := by
  intro k i
  simp

theorem Index.owner (h : Index l f tab) (hx : l[i]? = some x) (hk : f x = some k) :
    tab k = some i := (h k i).mpr ⟨x, hx, hk⟩

theorem Index.not_owner (h : Index l f tab) (hx : l[i]? = some x) (hn : f x = none) (k : κ) :
    tab k ≠ some i := by
  intro hk
  obtain ⟨y, hy, hf⟩ := (h k i).mp hk
  obtain rfl := Option.some.inj (hx.symm.trans hy)
  rw [hn] at hf
  cases hf

theorem Index.unique (h : Index l f tab) (hx : l[i]? = some x) (hy : l[j]? = some y)
    (hi : f x = some k) (hj : f y = some k) : i = j :=
  Option.some.inj ((h.owner hx hi).symm.trans (h.owner hy hj))

theorem Index.empty (h : Index l f tab) (hn : ∀ x ∈ l, f x = none) (k : κ) : tab k = none := by
  cases hk : tab k with
  | none => rfl
  | some i =>
    obtain ⟨x, hx, hfx⟩ := (h k i).mp hk
    rw [hn x (List.mem_of_getElem? hx)] at hfx
    cases hfx

theorem Index.push (h : Index l f tab) (hx : f x = none) : Index (l ++ [x]) f tab := by
  intro k i
  rw [h k i]
  constructor
  · rintro ⟨y, hy, hk⟩
    exact ⟨y, push_old hy, hk⟩
  · rintro ⟨y, hy, hk⟩
    rcases push_at hy with hy | ⟨_, rfl⟩
    · exact ⟨y, hy, hk⟩
    · rw [hx] at hk
      cases hk

theorem set_at (hi : l[i]? = some x) : (l.set i y)[j]? = if j = i then some y else l[j]? := by
  by_cases hji : j = i
  · subst hji
    simp [lt_length hi]
  · rw [if_neg hji, List.getElem?_set_ne fun e => hji e.symm]

theorem Index.keep (h : Index l f tab) (hi : l[i]? = some x) (hf : f y = f x) :
    Index (l.set i y) f tab := by
  intro k j
  rw [h k j, set_at hi]
  by_cases hji : j = i
  · subst hji
    simp [hi, hf]
  · simp [hji]

variable [DecidableEq κ]

theorem Index.claim (h : Index l f tab) (hi : l[i]? = some x) (hx : f x = none)
    (hk : tab k = none) (hy : f y = some k) :
    Index (l.set i y) f (Function.update tab k (some i)) := by
  intro k' j
  rw [set_at hi]
  by_cases hkk : k' = k
  · subst hkk
    rw [Function.update_self]
    by_cases hji : j = i
    · simp [hji, hy]
    · have hno := h k' j
      have hij : ¬i = j := fun e => hji e.symm
      rw [hk] at hno
      simp only [if_neg hji, Option.some.injEq, hij, false_iff]
      exact fun e => Option.some_ne_none j (hno.mpr e).symm
  · rw [Function.update_of_ne hkk, h k' j]
    by_cases hji : j = i
    · subst hji
      simp [hi, hx, hy, Ne.symm hkk]
    · simp [hji]

theorem Index.drop (h : Index l f tab) (hi : l[i]? = some x) (hx : f x = some k)
    (hy : f y = none) : Index (l.set i y) f (Function.update tab k none) := by
  intro k' j
  rw [set_at hi]
  by_cases hkk : k' = k
  · subst hkk
    rw [Function.update_self]
    by_cases hji : j = i
    · simp [hji, hy]
    · have hno := h k' j
      rw [h.owner hi hx] at hno
      simp only [if_neg hji, reduceCtorEq, false_iff]
      exact fun e => hji (Option.some.inj (hno.mpr e)).symm
  · rw [Function.update_of_ne hkk, h k' j]
    by_cases hji : j = i
    · subst hji
      simp [hi, hx, hy, Ne.symm hkk]
    · simp [hji]

end

end Names
