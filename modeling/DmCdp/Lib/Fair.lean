import DmCdp.Lib.Machine
import Mathlib.Data.Prod.Lex

/-!
# Infinite runs

A run that goes on for ever, and how to show that it arrives: a measure in a well-founded order that
no step raises, and that falls again and again as long as it has not.

* `Trace step`        the states and the actions of an infinite run;
* `Trace.keeps`       what each step preserves holds from then on;
* `Trace.reaches`     the rule for arriving;
* `Trace.lasso`       a finite run with a loop behind it; `lasso_meets`, `lasso_recurs`.
-/

set_option linter.unusedVariables false

namespace Mach

structure Trace {σ α : Type*} (step : σ → α → Option σ) where
  state : Nat → σ
  act : Nat → α
  next : ∀ n, step (state n) (act n) = some (state (n + 1))

section
variable {σ α : Type*} {step : σ → α → Option σ}

theorem Trace.keeps (t : Trace step) {I : σ → Prop} {n : Nat} (h : I (t.state n))
    (hs : ∀ m, n ≤ m → I (t.state m) → I (t.state (m + 1))) (m : Nat) (hm : n ≤ m) :
    I (t.state m) := by
  induction m, hm using Nat.le_induction with
  | base => exact h
  | succ m hm ih => exact hs m hm ih

/-- **Arriving.**  From `b` on the measure `μ` rises nowhere but behind `P`, and from every point on
it falls or `P` holds: then `P` holds again and again. -/
theorem Trace.reaches (t : Trace step) {M : Type*} [Preorder M] [WellFoundedLT M] (μ : σ → M)
    {P : σ → Prop} {b : Nat}
    (hle : ∀ n, b ≤ n → P (t.state n) ∨ μ (t.state (n + 1)) ≤ μ (t.state n))
    (hlt : ∀ n, b ≤ n → ∃ m, n ≤ m ∧ (P (t.state m) ∨ μ (t.state (m + 1)) < μ (t.state m)))
    (n : Nat) (hn : b ≤ n) : ∃ m, n ≤ m ∧ P (t.state m) := by
  have hmono : ∀ n, b ≤ n → ∀ m, n ≤ m →
      (∃ k, n ≤ k ∧ P (t.state k)) ∨ μ (t.state m) ≤ μ (t.state n) := by
    intro n hn m hm
    induction m, hm using Nat.le_induction with
    | base => exact Or.inr le_rfl
    | succ m hm ih =>
      rcases ih with h | h
      · exact Or.inl h
      · rcases hle m (hn.trans hm) with hp | hp
        · exact Or.inl ⟨m, hm, hp⟩
        · exact Or.inr (hp.trans h)
  suffices h : ∀ x n, b ≤ n → μ (t.state n) = x → ∃ m, n ≤ m ∧ P (t.state m) from h _ n hn rfl
  intro x
  induction x using WellFoundedLT.induction with
  | ind x ih =>
    rintro n hn rfl
    obtain ⟨m, hm, hp | hp⟩ := hlt n hn
    · exact ⟨m, hm, hp⟩
    · rcases hmono n hn m hm with h | h
      · exact h
      · obtain ⟨k, hk, hpk⟩ := ih _ (lt_of_lt_of_le hp h) (m + 1) (by omega) rfl
        exact ⟨k, by omega, hpk⟩

/-! ## lassos -/

/-- the states of a run -/
def alongRun (step : σ → α → Option σ) (s : σ) (as : List α) (n : Nat) : σ :=
  (exec step s (as.take n)).getD s

theorem alongRun_zero (s : σ) (as : List α) : alongRun step s as 0 = s := rfl

theorem alongRun_last {s s' : σ} {as : List α} (h : exec step s as = some s') :
    alongRun step s as as.length = s' := by
  simp [alongRun, h]

theorem alongRun_next {s s' : σ} {as : List α} (h : exec step s as = some s') {n : Nat}
    (hn : n < as.length) :
    step (alongRun step s as n) (as.get ⟨n, hn⟩) = some (alongRun step s as (n + 1)) := by
  have hsplit : exec step s (as.take n ++ as.drop n) = some s' := by
    rw [List.take_append_drop]
    exact h
  obtain ⟨u, hu, hrest⟩ := exec_append_some.mp hsplit
  rw [List.drop_eq_getElem_cons hn] at hrest
  obtain ⟨v, hv, _⟩ := exec_cons_some.mp hrest
  have hv' : exec step s (as.take (n + 1)) = some v := by
    rw [List.take_succ_eq_append_getElem hn]
    exact exec_append_some.mpr ⟨u, hu, exec_cons_some.mpr ⟨v, hv, rfl⟩⟩
  unfold alongRun
  rw [hu, hv']
  exact hv

theorem alongRun_meets {good : σ → α → Prop} {s s' : σ} {as : List α}
    (hm : Meets step good s as) (h : exec step s as = some s') {n : Nat} (hn : n < as.length) :
    good (alongRun step s as n) (as.get ⟨n, hn⟩) := by
  induction as generalizing s n with
  | nil => cases hn
  | cons a as ih =>
    obtain ⟨u, hu, hrest⟩ := exec_cons_some.mp h
    cases n with
    | zero => exact hm.1
    | succ n =>
      have hlt : n < as.length := Nat.lt_of_succ_lt_succ hn
      have heq : alongRun step s (a :: as) (n + 1) = alongRun step u as n := by
        have hsome : (exec step u (as.take n)).isSome := by
          have hsplit : exec step u (as.take n ++ as.drop n) = some s' := by
            rw [List.take_append_drop]
            exact hrest
          obtain ⟨v, hv, _⟩ := exec_append_some.mp hsplit
          rw [hv]
          rfl
        obtain ⟨v, hv⟩ := Option.isSome_iff_exists.mp hsome
        unfold alongRun
        rw [List.take_succ_cons, exec_cons, hu, Option.bind_some, hv]
        rfl
      rw [heq]
      exact ih (hm.2 u hu) hrest hlt

/-- `pre`, and then `loop` for ever -/
def Trace.lasso {s s' : σ} {pre loop : List α} (hpre : exec step s pre = some s')
    (hloop : exec step s' loop = some s') (hpos : 0 < loop.length) : Trace step where
  state n := if n < pre.length then alongRun step s pre n
    else alongRun step s' loop ((n - pre.length) % loop.length)
  act n := if h : n < pre.length then pre.get ⟨n, h⟩
    else loop.get ⟨(n - pre.length) % loop.length, Nat.mod_lt _ hpos⟩
  next n := by
    by_cases h : n < pre.length
    · rw [if_pos h, dif_pos h, alongRun_next hpre h]
      by_cases h' : n + 1 < pre.length
      · rw [if_pos h']
      · have he : n + 1 = pre.length := by omega
        rw [if_neg h', he, Nat.sub_self, Nat.zero_mod, alongRun_zero, alongRun_last hpre]
    · rw [if_neg h, dif_neg h, if_neg (by omega), alongRun_next hloop (Nat.mod_lt _ hpos)]
      have hs : n + 1 - pre.length = n - pre.length + 1 := by omega
      rw [hs]
      by_cases h' : (n - pre.length) % loop.length + 1 < loop.length
      · rw [Nat.add_mod, Nat.mod_eq_of_lt (b:=loop.length) (a:=1) (by omega), Nat.mod_eq_of_lt h']
      · have hlt := Nat.mod_lt (n - pre.length) hpos
        have he : (n - pre.length) % loop.length + 1 = loop.length := by omega
        have hz : (n - pre.length + 1) % loop.length = 0 := by
          rw [← Nat.mod_add_mod, he, Nat.mod_self]
        rw [hz, he, alongRun_zero, alongRun_last hloop]

section
variable {s s' : σ} {pre loop : List α} (hpre : exec step s pre = some s')
  (hloop : exec step s' loop = some s') (hpos : 0 < loop.length)

theorem lasso_start : (Trace.lasso hpre hloop hpos).state 0 = s := by
  unfold Trace.lasso
  dsimp only
  split
  · rfl
  · rename_i h
    obtain rfl : pre = [] := List.length_eq_zero_iff.mp (by omega)
    rw [Nat.zero_sub, Nat.zero_mod, alongRun_zero]
    exact (Option.some.inj hpre).symm

theorem lasso_meets {good : σ → α → Prop} (hm : Meets step good s pre)
    (hm' : Meets step good s' loop) (n : Nat) :
    good ((Trace.lasso hpre hloop hpos).state n) ((Trace.lasso hpre hloop hpos).act n) := by
  unfold Trace.lasso
  dsimp only
  by_cases h : n < pre.length
  · rw [if_pos h, dif_pos h]
    exact alongRun_meets hm hpre h
  · rw [if_neg h, dif_neg h]
    exact alongRun_meets hm' hloop (Nat.mod_lt _ hpos)

theorem lasso_recurs (n : Nat) : ∃ m, n ≤ m ∧ (Trace.lasso hpre hloop hpos).state m = s' := by
  refine ⟨pre.length + loop.length * n, ?_, ?_⟩
  · have := Nat.le_mul_of_pos_left n hpos
    omega
  · unfold Trace.lasso
    dsimp only
    rw [if_neg (by omega), Nat.add_sub_cancel_left, Nat.mul_mod_right, alongRun_zero]

end

end

end Mach
