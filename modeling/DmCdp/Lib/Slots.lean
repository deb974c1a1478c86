import Mathlib.Data.List.Basic

/-!
# One slot of a list changes

A system that keeps its parties in a list changes at most one of them in a step, or adds one at
the end.  These lemmas read such a list back, by position and by membership.

* `push_at`     a position of `l ++ [x]` is one of `l`, or the last;
* `modify_at`   a position of `l.modify i u` is the changed one, or has what it had;
* `mem_modify`  the same for members.
-/

set_option linter.unusedVariables false

namespace Slots
variable {α : Type*} {l l' : List α} {i j : Nat} {u : α → α} {x y : α}

theorem lt_length (h : l[j]? = some x) : j < l.length :=
  (List.getElem?_eq_some_iff.mp h).1

theorem of_length (hl : l'.length = l.length) (h : l[j]? = some x) : ∃ y, l'[j]? = some y :=
  ⟨_, List.getElem?_eq_getElem (hl ▸ lt_length h)⟩

/-! ## a new last slot -/

theorem push_at (h : (l ++ [x])[j]? = some y) : l[j]? = some y ∨ j = l.length ∧ y = x := by
  rw [List.getElem?_append] at h
  split at h
  · exact Or.inl h
  · rw [List.getElem?_singleton] at h
    split at h
    · exact Or.inr ⟨by omega, (Option.some.inj h).symm⟩
    · cases h

theorem push_old (h : l[j]? = some y) : (l ++ [x])[j]? = some y := by
  rw [List.getElem?_append_left (lt_length h)]
  exact h

theorem push_last (l : List α) (x : α) : (l ++ [x])[l.length]? = some x := by
  rw [List.getElem?_append_right (Nat.le_refl _), Nat.sub_self]
  rfl

theorem mem_push (h : y ∈ l ++ [x]) : y ∈ l ∨ y = x :=
  (List.mem_append.mp h).imp_right List.mem_singleton.mp

/-! ## a slot that is changed -/

theorem modify_cases (h : (l.modify i u)[j]? = some x) :
    (∃ y, j = i ∧ l[i]? = some y ∧ x = u y) ∨ j ≠ i ∧ l[j]? = some x := by
  by_cases hij : i = j
  · subst hij
    rw [List.getElem?_modify_eq] at h
    obtain ⟨y, hy, rfl⟩ := Option.map_eq_some_iff.mp h
    exact Or.inl ⟨y, rfl, hy, rfl⟩
  · rw [List.getElem?_modify_ne _ _ hij] at h
    exact Or.inr ⟨fun e => hij e.symm, h⟩

theorem modify_at (hx : l[i]? = some x) (h : (l.modify i u)[j]? = some y) :
    j = i ∧ y = u x ∨ j ≠ i ∧ l[j]? = some y := by
  rcases modify_cases h with ⟨z, rfl, hz, rfl⟩ | h
  · obtain rfl := Option.some.inj (hx.symm.trans hz)
    exact Or.inl ⟨rfl, rfl⟩
  · exact Or.inr h

theorem modify_self (hx : l[i]? = some x) : (l.modify i u)[i]? = some (u x) := by
  rw [List.getElem?_modify_eq, hx]
  rfl

theorem modify_other (hij : j ≠ i) (h : l[j]? = some y) : (l.modify i u)[j]? = some y := by
  rw [List.getElem?_modify_ne _ _ (Ne.symm hij)]
  exact h

theorem mem_modify (hx : l[i]? = some x) (h : y ∈ l.modify i u) : y = u x ∨ y ∈ l := by
  obtain ⟨j, hj⟩ := List.mem_iff_getElem?.mp h
  exact (modify_at hx hj).imp And.right fun hy => List.mem_of_getElem? hy.2

end Slots
