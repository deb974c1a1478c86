import Mathlib.Data.List.Basic

/-!
# Partial machines: runs, invariants, guarded runs

A machine is a step function `step : σ → α → Option σ`; `none` means that the action is not
enabled in that state.  All nondeterminism is in the actions, so a run is a list of actions and
can be evaluated.

* `exec step s as`        the state after the actions `as` (`none` if one is not enabled);
* `Meets step good s as`  every action of the run meets `good` in the state it is taken in;
* `meets_of_meetsB`       the same by evaluation;
* `Guarded step good s as t`  a run that meets `good`, with where it ends; it is composed of parts;
* `exec_invariant`, `exec_invariant_meets`  what one step preserves, a run preserves;
* `Always step P s as`    `P` holds in every state of the run;
* `always_iff_meets`      it does exactly if no step is bad, when every bad step breaks `P` at once;
* `exec_simulates`        a machine whose every step is a guarded run of another one.
-/

set_option linter.unusedVariables false

namespace Mach

section
variable {σ α : Type*} (step : σ → α → Option σ)

/-- the state after a list of actions -/
def exec : σ → List α → Option σ
  | s, [] => some s
  | s, a :: as => (step s a).bind fun t => exec t as

/-- every action of the run meets `good` in the state it is taken in -/
def Meets (good : σ → α → Prop) : σ → List α → Prop
  | _, [] => True
  | s, a :: as => good s a ∧ ∀ t, step s a = some t → Meets good t as

/-- `Meets` for a test that can be evaluated -/
def meetsB (ok : σ → α → Bool) : σ → List α → Bool
  | _, [] => true
  | s, a :: as => ok s a && (step s a).all fun t => meetsB ok t as

theorem exec_nil (s : σ) : exec step s [] = some s := rfl

theorem exec_cons (s : σ) (a : α) (as : List α) :
    exec step s (a :: as) = (step s a).bind fun t => exec step t as := rfl

variable {step}

theorem exec_cons_some {s u : σ} {a : α} {as : List α} :
    exec step s (a :: as) = some u ↔ ∃ t, step s a = some t ∧ exec step t as = some u := by
  rw [exec_cons, Option.bind_eq_some_iff]

theorem exec_append_some {s u : σ} {as bs : List α} :
    exec step s (as ++ bs) = some u ↔ ∃ t, exec step s as = some t ∧ exec step t bs = some u := by
  induction as generalizing s with
  | nil => simp [exec_nil]
  | cons a as ih =>
    rw [List.cons_append, exec_cons_some]
    constructor
    · rintro ⟨t, ht, h⟩
      obtain ⟨v, hv, hu⟩ := ih.mp h
      exact ⟨v, exec_cons_some.mpr ⟨t, ht, hv⟩, hu⟩
    · rintro ⟨v, hv, hu⟩
      obtain ⟨t, ht, h⟩ := exec_cons_some.mp hv
      exact ⟨t, ht, ih.mpr ⟨v, h, hu⟩⟩

theorem meets_append {good : σ → α → Prop} {s : σ} {as bs : List α}
    (h : Meets step good s as) (h' : ∀ t, exec step s as = some t → Meets step good t bs) :
    Meets step good s (as ++ bs) := by
  induction as generalizing s with
  | nil => exact h' s rfl
  | cons a as ih =>
    refine ⟨h.1, fun t ht => ih (h.2 t ht) fun u hu => h' u ?_⟩
    exact exec_cons_some.mpr ⟨t, ht, hu⟩

theorem meets_prefix {good : σ → α → Prop} {s : σ} {as bs : List α}
    (h : Meets step good s (as ++ bs)) : Meets step good s as := by
  induction as generalizing s with
  | nil => trivial
  | cons a as ih => exact ⟨h.1, fun t ht => ih (h.2 t ht)⟩

theorem meets_suffix {good : σ → α → Prop} {s t : σ} {as bs : List α}
    (h : Meets step good s (as ++ bs)) (ht : exec step s as = some t) : Meets step good t bs := by
  induction as generalizing s with
  | nil => exact Option.some.inj ht ▸ h
  | cons a as ih =>
    obtain ⟨u, hu, ht⟩ := exec_cons_some.mp ht
    exact ih (h.2 u hu) ht

theorem Meets.imp {good good' : σ → α → Prop} (h : ∀ s a, good s a → good' s a) {s : σ}
    {as : List α} (hm : Meets step good s as) : Meets step good' s as := by
  induction as generalizing s with
  | nil => trivial
  | cons a as ih => exact ⟨h s a hm.1, fun t ht => ih (hm.2 t ht)⟩

theorem meets_of_forall {good : σ → α → Prop} {s : σ} {as : List α}
    (h : ∀ a ∈ as, ∀ t, good t a) : Meets step good s as := by
  induction as generalizing s with
  | nil => trivial
  | cons a as ih =>
    exact ⟨h a List.mem_cons_self s, fun t _ => ih fun b hb => h b (List.mem_cons_of_mem a hb)⟩

theorem meets_of_meetsB {good : σ → α → Prop} {b : σ → α → Bool}
    (h : ∀ s a, b s a = true → good s a) {s : σ} {as : List α} (hb : meetsB step b s as = true) :
    Meets step good s as := by
  induction as generalizing s with
  | nil => trivial
  | cons a as ih =>
    unfold meetsB at hb
    rw [Bool.and_eq_true] at hb
    refine ⟨h s a hb.1, fun t ht => ih ?_⟩
    have hall := hb.2
    rw [ht] at hall
    exact hall

theorem meets_of_meetsB_inv {I : σ → Prop} {good : σ → α → Prop} {b : σ → α → Bool}
    (hok : ∀ s a, I s → b s a = true → good s a)
    (hstep : ∀ s a t, I s → good s a → step s a = some t → I t)
    {s : σ} {as : List α} (h0 : I s) (hb : meetsB step b s as = true) : Meets step good s as := by
  induction as generalizing s with
  | nil => trivial
  | cons a as ih =>
    unfold meetsB at hb
    rw [Bool.and_eq_true] at hb
    have hg := hok s a h0 hb.1
    refine ⟨hg, fun t ht => ih (hstep s a t h0 hg ht) ?_⟩
    have hall := hb.2
    rw [ht] at hall
    exact hall

variable (step) in
/-- the run `as` from `s` to `t`, all of whose actions meet `good` -/
def Guarded (good : σ → α → Prop) (s : σ) (as : List α) (t : σ) : Prop :=
  exec step s as = some t ∧ Meets step good s as

theorem Guarded.nil {good : σ → α → Prop} (s : σ) : Guarded step good s [] s := ⟨rfl, trivial⟩

theorem Guarded.cons {good : σ → α → Prop} {s t u : σ} {a : α} {as : List α} (hg : good s a)
    (hs : step s a = some t) (h : Guarded step good t as u) : Guarded step good s (a :: as) u := by
  refine ⟨exec_cons_some.mpr ⟨t, hs, h.1⟩, hg, fun v hv => ?_⟩
  obtain rfl := Option.some.inj (hs.symm.trans hv)
  exact h.2

theorem Guarded.append {good : σ → α → Prop} {s t u : σ} {as bs : List α}
    (h : Guarded step good s as t) (h' : Guarded step good t bs u) :
    Guarded step good s (as ++ bs) u := by
  refine ⟨exec_append_some.mpr ⟨t, h.1, h'.1⟩, meets_append h.2 fun v hv => ?_⟩
  obtain rfl := Option.some.inj (h.1.symm.trans hv)
  exact h'.2

/-- **Invariant rule.**  What every step preserves, every run preserves. -/
theorem exec_invariant {P : σ → Prop} (hstep : ∀ s a t, P s → step s a = some t → P t)
    {s u : σ} {as : List α} (h0 : P s) (h : exec step s as = some u) : P u := by
  induction as generalizing s with
  | nil => exact Option.some.inj h ▸ h0
  | cons a as ih =>
    obtain ⟨t, ht, hu⟩ := exec_cons_some.mp h
    exact ih (hstep s a t h0 ht) hu

/-- **Invariant rule for guarded runs.** -/
theorem exec_invariant_meets {P : σ → Prop} {good : σ → α → Prop}
    (hstep : ∀ s a t, P s → good s a → step s a = some t → P t)
    {s u : σ} {as : List α} (h0 : P s) (hg : Meets step good s as)
    (h : exec step s as = some u) : P u := by
  induction as generalizing s with
  | nil => exact Option.some.inj h ▸ h0
  | cons a as ih =>
    obtain ⟨t, ht, hu⟩ := exec_cons_some.mp h
    exact ih (hstep s a t h0 hg.1 ht) (hg.2 t ht) hu

/-! ## exact conditions -/

variable (step) in
/-- `P` holds in every state of the run -/
def Always (P : σ → Prop) (s : σ) (as : List α) : Prop :=
  ∀ bs t, bs <+: as → exec step s bs = some t → P t

theorem always_cons {P : σ → Prop} {s t : σ} {a : α} {as : List α} (h : step s a = some t) :
    Always step P s (a :: as) ↔ P s ∧ Always step P t as := by
  constructor
  · intro ha
    refine ⟨ha [] s List.nil_prefix rfl, fun bs u hb hu => ?_⟩
    exact ha (a :: bs) u ((List.prefix_cons_inj a).mpr hb) (exec_cons_some.mpr ⟨t, h, hu⟩)
  · rintro ⟨h0, ha⟩ bs u hb hu
    cases bs with
    | nil => exact Option.some.inj hu ▸ h0
    | cons b bs =>
      obtain ⟨rfl, hbs⟩ := List.cons_prefix_cons.mp hb
      obtain ⟨v, hv, hu⟩ := exec_cons_some.mp hu
      obtain rfl := Option.some.inj (h.symm.trans hv)
      exact ha bs u hbs hu

/-- **The rule for exact conditions.**  Good steps keep the invariant, a bad one breaks `P`. -/
theorem always_iff_meets {P I : σ → Prop} {good : σ → α → Prop} (hP : ∀ s, I s → P s)
    (hstep : ∀ s a t, I s → good s a → step s a = some t → I t)
    (hbad : ∀ s a t, I s → ¬good s a → step s a = some t → ¬P t)
    {s u : σ} {as : List α} (h0 : I s) (h : exec step s as = some u) :
    Always step P s as ↔ Meets step good s as := by
  induction as generalizing s with
  | nil =>
    refine ⟨fun _ => trivial, fun _ bs t hb ht => ?_⟩
    obtain rfl := List.prefix_nil.mp hb
    exact Option.some.inj ht ▸ hP s h0
  | cons a as ih =>
    obtain ⟨t, ht, hx⟩ := exec_cons_some.mp h
    rw [always_cons ht]
    constructor
    · rintro ⟨_, ha⟩
      have hg : good s a := by
        by_contra hn
        exact hbad s a t h0 hn ht (ha [] t List.nil_prefix rfl)
      refine ⟨hg, fun v hv => ?_⟩
      obtain rfl := Option.some.inj (ht.symm.trans hv)
      exact (ih (hstep s a t h0 hg ht) hx).mp ha
    · rintro ⟨hg, hm⟩
      exact ⟨hP s h0, (ih (hstep s a t h0 hg ht) hx).mpr (hm t ht)⟩

/-! ## simulation -/

/-- **Simulation rule.**  If every guarded step, seen through `f`, is a guarded run of a second
machine, so is every guarded run. -/
theorem exec_simulates {τ γ : Type*} {step' : τ → γ → Option τ} (f : σ → τ) (I : σ → Prop)
    (good : σ → α → Prop) (good' : τ → γ → Prop)
    (hI : ∀ s a t, I s → step s a = some t → I t)
    (hsim : ∀ s a t, I s → good s a → step s a = some t →
      ∃ bs, exec step' (f s) bs = some (f t) ∧ Meets step' good' (f s) bs)
    {s u : σ} {as : List α} (h0 : I s) (hg : Meets step good s as)
    (h : exec step s as = some u) :
    ∃ bs, exec step' (f s) bs = some (f u) ∧ Meets step' good' (f s) bs := by
  induction as generalizing s with
  | nil => exact ⟨[], congrArg (fun x => some (f x)) (Option.some.inj h), trivial⟩
  | cons a as ih =>
    obtain ⟨t, ht, hu⟩ := exec_cons_some.mp h
    obtain ⟨bs, h1, h2⟩ := hsim s a t h0 hg.1 ht
    obtain ⟨cs, h3, h4⟩ := ih (hI s a t h0 ht) (hg.2 t ht) hu
    refine ⟨bs ++ cs, exec_append_some.mpr ⟨f t, h1, h3⟩, meets_append h2 fun x hx => ?_⟩
    obtain rfl := Option.some.inj (h1.symm.trans hx)
    exact h4

end

end Mach
