import Mathlib.Logic.Basic

/-!
# Programs with exceptions and `try … finally`

A program takes a state to a result and a state; it returns or raises, or does not end (`none`).
It is built with `throw`, `get`, `modify`, `tryCatch` and `tryFinally` of the standard library.

* `Prog σ ε α`         the programs: exceptions over a state over `Option`;
* `run_bind`, `run_finally`, `run_tryCatch`  the parts, `finally` and the handler on a state;
* `Ends P m Q`         from a state in `P` every end of `m` is in `Q`;
* `ends_bind`, `ends_ite`, `keeps_bind`  the rules for the parts of a program;
* `ends_tryFinally`    what the finalizer leaves, whatever `m` did; `ends_finally`: and what it
                       raises; `ends_tryCatch`;
* `Halts m`            `m` ends on every state; `halts_bind`, `halts_tryFinally`, `halts_tryCatch`.
-/

set_option linter.unusedVariables false

namespace Exc

universe u

/-- no finalizer runs behind a program that does not end -/
instance optionFinally : MonadFinally Option where
  tryFinally' m f := m.bind fun a => (f (some a)).map fun b => (a, b)

abbrev Prog (σ ε : Type u) := ExceptT ε (StateT σ Option)

section
variable {σ ε α β : Type u}

/-! ## on a state -/

@[simp] theorem run_pure (a : α) (s : σ) : (pure a : Prog σ ε α).run s = some (.ok a, s) := rfl

@[simp] theorem run_throw (e : ε) (s : σ) :
    (throw e : Prog σ ε α).run s = some (.error e, s) := rfl

@[simp] theorem run_modify (g : σ → σ) (s : σ) :
    (modify g : Prog σ ε PUnit).run s = some (.ok ⟨⟩, g s) := rfl

theorem run_bind (m : Prog σ ε α) (f : α → Prog σ ε β) (s : σ) :
    (m >>= f).run s = (m.run s).bind fun p =>
      match p.1 with
      | .ok a => (f a).run p.2
      | .error e => some (.error e, p.2) := by
  show (m.run s).bind _ = _
  congr 1
  funext p
  obtain ⟨a | a, t⟩ := p
  · rfl
  · rfl

theorem run_bind_ok {m : Prog σ ε α} {f : α → Prog σ ε β} {s s' : σ} {a : α}
    (h : m.run s = some (.ok a, s')) : (m >>= f).run s = (f a).run s' := by
  rw [run_bind, h]
  rfl

theorem run_bind_error {m : Prog σ ε α} {f : α → Prog σ ε β} {s s' : σ} {e : ε}
    (h : m.run s = some (.error e, s')) : (m >>= f).run s = some (.error e, s') := by
  rw [run_bind, h]
  rfl

/-- an exception of the finalizer replaces the result -/
theorem run_finally (m : Prog σ ε α) (f : Prog σ ε β) (s : σ) :
    (tryFinally m f).run s = (m.run s).bind fun p =>
      (f.run p.2).map fun q => (q.1.bind fun _ => p.1, q.2) := by
  simp only [tryFinally, tryFinally', Functor.map, ExceptT.map, ExceptT.mk, ExceptT.run, bind,
    StateT.bind, Option.bind_assoc, Option.bind_map]
  congr 1
  funext p
  obtain ⟨a | a, t⟩ := p
  · simp only
    obtain _ | ⟨b | b, v⟩ := f t <;> rfl
  · simp only
    obtain _ | ⟨b | b, v⟩ := f t <;> rfl

/-- an exception of the handler is the result -/
theorem run_tryCatch (m : Prog σ ε α) (h : ε → Prog σ ε α) (s : σ) :
    (tryCatch m h).run s = (m.run s).bind fun p =>
      match p.1 with
      | .ok a => some (.ok a, p.2)
      | .error e => (h e).run p.2 := by
  show (m.run s).bind _ = _
  congr 1
  funext p
  obtain ⟨a | a, t⟩ := p
  · rfl
  · rfl

theorem run_tryFinally {m : Prog σ ε α} {f : Prog σ ε β} {s s' s'' : σ} {r : Except ε α} {b : β}
    (h : m.run s = some (r, s')) (hf : f.run s' = some (.ok b, s'')) :
    (tryFinally m f).run s = some (r, s'') := by
  rw [run_finally, h, Option.bind_some, hf]
  rfl

/-! ## the rules -/

/-- nothing is said where the program does not end -/
structure Ends (P : σ → Prop) (m : Prog σ ε α) (Q : Except ε α → σ → Prop) : Prop where
  post : ∀ s, P s → ∀ r s', m.run s = some (r, s') → Q r s'

/-- `I` holds at every end if it does at the start -/
abbrev Keeps (I : σ → Prop) (m : Prog σ ε α) : Prop := Ends I m fun _ s => I s

variable {P P' : σ → Prop} {Q Q' : Except ε α → σ → Prop} {R : Except ε β → σ → Prop}
  {m : Prog σ ε α}

theorem Ends.weaken (h : Ends P m Q) (hP : ∀ s, P' s → P s) (hQ : ∀ r s, Q r s → Q' r s) :
    Ends P' m Q' := by
  constructor
  intro s hs r s' hr
  apply hQ
  exact h.post s (hP s hs) r s' hr

theorem ends_pure {a : α} (h : ∀ s, P s → Q (.ok a) s) : Ends P (pure a) Q := by
  constructor
  intro s hs r s' hr
  obtain ⟨rfl, rfl⟩ := Prod.mk.inj (Option.some.inj hr)
  exact h s hs

theorem ends_throw {e : ε} (h : ∀ s, P s → Q (.error e) s) : Ends P (throw e) Q := by
  constructor
  intro s hs r s' hr
  obtain ⟨rfl, rfl⟩ := Prod.mk.inj (Option.some.inj hr)
  exact h s hs

theorem ends_get {R : Except ε σ → σ → Prop} (h : ∀ s, P s → R (.ok s) s) : Ends P get R := by
  constructor
  intro s hs r s' hr
  obtain ⟨rfl, rfl⟩ := Prod.mk.inj (Option.some.inj hr)
  exact h s hs

theorem ends_modify {g : σ → σ} {R : Except ε PUnit → σ → Prop}
    (h : ∀ s, P s → R (.ok ⟨⟩) (g s)) : Ends P (modify g) R := by
  constructor
  intro s hs r s' hr
  obtain ⟨rfl, rfl⟩ := Prod.mk.inj (Option.some.inj hr)
  exact h s hs

/-- `Q` holds where the first part ends; an exception of it is the end of the whole -/
theorem ends_bind {f : α → Prog σ ε β} (hm : Ends P m Q)
    (hok : ∀ a, Ends (Q (.ok a)) (f a) R) (herr : ∀ e s, Q (.error e) s → R (.error e) s) :
    Ends P (m >>= f) R := by
  constructor
  intro s hs r s' hr
  rw [run_bind] at hr
  obtain ⟨⟨a | a, t⟩, hms, hr⟩ := Option.bind_eq_some_iff.mp hr
  · obtain ⟨rfl, rfl⟩ := Prod.mk.inj (Option.some.inj hr)
    exact herr a t (hm.post s hs _ t hms)
  · exact (hok a).post t (hm.post s hs _ t hms) r s' hr

theorem keeps_bind {I : σ → Prop} {f : α → Prog σ ε β} (hm : Keeps I m)
    (hf : ∀ a, Keeps I (f a)) : Keeps I (m >>= f) :=
  ends_bind hm hf fun e s hs => hs

theorem ends_ite {c : Prop} [Decidable c] {m m' : Prog σ ε α} (h : c → Ends P m Q)
    (h' : ¬ c → Ends P m' Q) : Ends P (if c then m else m') Q := by
  split
  next hc => exact h hc
  next hc => exact h' hc

/-- **`finally`.** `Q` is what the body leaves, returned or raised; the finalizer takes it to `Q'`,
also where it raises. -/
theorem ends_finally {f : Prog σ ε PUnit} (hm : Ends P m Q)
    (hf : ∀ r, Ends (Q r) f fun u s =>
      (u = .ok ⟨⟩ → Q' r s) ∧ ∀ e, u = .error e → Q' (.error e) s) :
    Ends P (tryFinally m f) Q' := by
  constructor
  intro s hs r s' hr
  rw [run_finally] at hr
  obtain ⟨⟨a, t⟩, hms, hr⟩ := Option.bind_eq_some_iff.mp hr
  obtain ⟨⟨u, v⟩, hft, hr⟩ := Option.map_eq_some_iff.mp hr
  obtain ⟨rfl, rfl⟩ := Prod.mk.inj hr
  obtain ⟨h1, h2⟩ := (hf a).post t (hm.post s hs a t hms) u v hft
  cases u with
  | ok u => exact h1 rfl
  | error e => exact h2 e rfl

/-- **`finally`**, with a finalizer that does not raise. -/
theorem ends_tryFinally {f : Prog σ ε PUnit} (hm : Ends P m Q)
    (hf : ∀ r, Ends (Q r) f fun u s => u = .ok ⟨⟩ ∧ Q' r s) : Ends P (tryFinally m f) Q' := by
  apply ends_finally hm
  intro r
  apply (hf r).weaken (fun s hs => hs)
  rintro u s ⟨rfl, h⟩
  exact ⟨fun _ => h, fun e he => by cases he⟩

theorem ends_tryCatch {h : ε → Prog σ ε α} (hm : Ends P m Q)
    (hok : ∀ a s, Q (.ok a) s → Q' (.ok a) s) (hh : ∀ e, Ends (Q (.error e)) (h e) Q') :
    Ends P (tryCatch m h) Q' := by
  constructor
  intro s hs r s' hr
  rw [run_tryCatch] at hr
  obtain ⟨⟨a | a, t⟩, hms, hr⟩ := Option.bind_eq_some_iff.mp hr
  · exact (hh a).post t (hm.post s hs _ t hms) r s' hr
  · obtain ⟨rfl, rfl⟩ := Prod.mk.inj (Option.some.inj hr)
    exact hok a t (hm.post s hs _ t hms)

/-! ## programs that end -/

/-- whatever the state is, `m` returns or throws -/
def Halts (m : Prog σ ε α) : Prop := ∀ s, ∃ r s', m.run s = some (r, s')

@[simp] theorem halts_pure (a : α) : Halts (pure a : Prog σ ε α) := fun s => ⟨_, _, rfl⟩

@[simp] theorem halts_throw (e : ε) : Halts (throw e : Prog σ ε α) := fun s => ⟨_, _, rfl⟩

@[simp] theorem halts_get : Halts (get : Prog σ ε σ) := fun s => ⟨_, _, rfl⟩

@[simp] theorem halts_modify (g : σ → σ) : Halts (modify g : Prog σ ε PUnit) := fun s => ⟨_, _, rfl⟩

theorem halts_bind {f : α → Prog σ ε β} (hm : Halts m) (hf : ∀ a, Halts (f a)) :
    Halts (m >>= f) := by
  intro s
  obtain ⟨a | a, t, h⟩ := hm s
  · exact ⟨.error a, t, run_bind_error h⟩
  · obtain ⟨r, u, h'⟩ := hf a t
    exact ⟨r, u, (run_bind_ok h).trans h'⟩

theorem halts_ite {c : Prop} [Decidable c] {m m' : Prog σ ε α} (h : Halts m) (h' : Halts m') :
    Halts (if c then m else m') := by
  split
  · exact h
  · exact h'

theorem halts_tryFinally {f : Prog σ ε β} (hm : Halts m) (hf : Halts f) :
    Halts (tryFinally m f) := by
  intro s
  obtain ⟨r, t, h⟩ := hm s
  obtain ⟨u, v, h'⟩ := hf t
  refine ⟨u.bind fun _ => r, v, ?_⟩
  rw [run_finally, h, Option.bind_some, h', Option.map_some]

theorem halts_tryCatch {h : ε → Prog σ ε α} (hm : Halts m) (hh : ∀ e, Halts (h e)) :
    Halts (tryCatch m h) := by
  intro s
  obtain ⟨a | a, t, hr⟩ := hm s
  · obtain ⟨r, u, h'⟩ := hh a t
    refine ⟨r, u, ?_⟩
    rw [run_tryCatch, hr]
    exact h'
  · refine ⟨.ok a, t, ?_⟩
    rw [run_tryCatch, hr]
    rfl

end

end Exc
