import Mathlib.Data.List.Basic
import Mathlib.Order.Nat

/-!
# Maximal runs of set bits

Bits in groups of `cs` units.  `Runs cs bit i l` says that `l` lists the maximal runs of set bits
from bit `i` on, each as its first unit and its number of units.

* `Runs.length_pos`   no run is empty;
* `Runs.apart`        between two runs there is room for a clear bit;
* `Runs.mem_iff`      a unit lies in a run exactly if its bit is set.
-/

set_option linter.unusedVariables false

namespace Bits

def Runs (cs : Nat) (bit : Nat → Prop) : Nat → List (Nat × Nat) → Prop
  | i, [] => ∀ c, i ≤ c → ¬bit c
  | i, e :: l => ∃ a b, (i ≤ a ∧ a < b) ∧ e = (a * cs, (b - a) * cs) ∧
      (∀ c, i ≤ c → c < a → ¬bit c) ∧ (∀ c, a ≤ c → c < b → bit c) ∧ ¬bit b ∧
      Runs cs bit (b + 1) l

variable {cs : Nat} {bit : Nat → Prop}

theorem Runs.skip {i : Nat} {l : List (Nat × Nat)} (h : Runs cs bit (i + 1) l) (hi : ¬bit i) :
    Runs cs bit i l := by
  have hne : ∀ c, i ≤ c → (i + 1 ≤ c → ¬bit c) → ¬bit c := by
    intro c hc hn
    rcases Nat.eq_or_lt_of_le hc with rfl | hlt
    · exact hi
    · exact hn hlt
  cases l with
  | nil => exact fun c hc => hne c hc (h c)
  | cons e l =>
    obtain ⟨a, b, ⟨h1, h2⟩, h3, h4, h5⟩ := h
    exact ⟨a, b, ⟨by omega, h2⟩, h3, fun c hc hlt => hne c hc fun hc' => h4 c hc' hlt, h5⟩

theorem Runs.length_pos (hcs : 0 < cs) {l : List (Nat × Nat)} :
    ∀ {i : Nat}, Runs cs bit i l → ∀ e ∈ l, 0 < e.2 := by
  induction l with
  | nil =>
    intro i _ e he
    cases he
  | cons d l ih =>
    rintro i ⟨a, b, ⟨_, hab⟩, rfl, _, _, _, h⟩ e he
    rcases List.mem_cons.mp he with rfl | he
    · exact Nat.mul_pos (by omega) hcs
    · exact ih h e he

theorem Runs.le_first {l : List (Nat × Nat)} :
    ∀ {i : Nat}, Runs cs bit i l → ∀ e ∈ l, i * cs ≤ e.1 := by
  induction l with
  | nil =>
    intro i _ e he
    cases he
  | cons d l ih =>
    rintro i ⟨a, b, ⟨hia, hab⟩, rfl, _, _, _, h⟩ e he
    rcases List.mem_cons.mp he with rfl | he
    · exact Nat.mul_le_mul_right cs hia
    · exact (Nat.mul_le_mul_right cs (by omega)).trans (ih h e he)

theorem Runs.apart {l : List (Nat × Nat)} :
    ∀ {i : Nat}, Runs cs bit i l → l.Pairwise fun e f => e.1 + e.2 + cs ≤ f.1 := by
  induction l with
  | nil =>
    intro i _
    exact List.Pairwise.nil
  | cons d l ih =>
    rintro i ⟨a, b, ⟨hia, hab⟩, rfl, _, _, _, h⟩
    refine List.Pairwise.cons (fun f hf => ?_) (ih h)
    have hlast : a * cs + (b - a) * cs + cs = (b + 1) * cs := by
      rw [← Nat.add_mul, Nat.add_sub_cancel' hab.le, Nat.succ_mul]
    show a * cs + (b - a) * cs + cs ≤ f.1
    rw [hlast]
    exact h.le_first f hf

theorem Runs.mem_iff (hcs : 0 < cs) {x : Nat} {l : List (Nat × Nat)} :
    ∀ {i : Nat}, Runs cs bit i l → i ≤ x / cs →
      ((∃ e ∈ l, e.1 ≤ x ∧ x < e.1 + e.2) ↔ bit (x / cs)) := by
  induction l with
  | nil =>
    intro i h hi
    exact ⟨fun ⟨e, he, _⟩ => absurd he List.not_mem_nil, fun hb => absurd hb (h _ hi)⟩
  | cons d l ih =>
    rintro i ⟨a, b, ⟨hia, hab⟩, rfl, hlow, hset, hclear, h⟩ hi
    have hrun : (a * cs ≤ x ∧ x < a * cs + (b - a) * cs) ↔ a ≤ x / cs ∧ x / cs < b := by
      rw [Nat.le_div_iff_mul_le hcs, Nat.div_lt_iff_lt_mul hcs, ← Nat.add_mul,
        Nat.add_sub_cancel' hab.le]
    constructor
    · rintro ⟨e, he, hx⟩
      rcases List.mem_cons.mp he with rfl | he
      · obtain ⟨h1, h2⟩ := hrun.mp hx
        exact hset _ h1 h2
      · have hle := (h.le_first e he).trans hx.1
        exact (ih h ((Nat.le_div_iff_mul_le hcs).mpr hle)).mp ⟨e, he, hx⟩
    · intro hbit
      have hge : a ≤ x / cs := by
        by_contra hlt
        exact hlow _ hi (by omega) hbit
      rcases Nat.lt_trichotomy (x / cs) b with hlt | heq | hgt
      · exact ⟨_, List.mem_cons_self, hrun.mpr ⟨hge, hlt⟩⟩
      · exact absurd (heq ▸ hbit) hclear
      · obtain ⟨e, he, hx⟩ := (ih h hgt).mpr hbit
        exact ⟨e, List.mem_cons_of_mem _ he, hx⟩

end Bits
