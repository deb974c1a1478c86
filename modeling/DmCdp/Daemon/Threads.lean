import DmCdp.Lib.Machine

/-!
# The threads of the daemon: when `base_copy` and `recover` are started and end

`main`, `check_seed` and `start_recovery` start the two copy threads under different conditions;
`base_copy` itself sets and resets `base_progress`, which one of them reads.

* `MainPc`, `BasePhase`, `RecoveryPhase`  where the three threads are;
* `threadStep`     their steps, crashes, reboots and what `rkcdp-seed` does to the manifest;
* `NeverBoth`      `base_copy` and `recover` are not both alive;
* `never_both`     it holds in every run that meets `StartsOk`;
* `both_alive`     a run that does not, from the first start of the daemon on.
-/

set_option linter.unusedVariables false

namespace CDP
open Mach

/-! ## the machine -/

/-- where the main thread is; `ended` is `"base_end_seq" in self.manifest` -/
inductive MainPc where
  | down
  | booted (ended : Bool)
  | resumed (ended : Bool)
  | top
  | consumed
  | checked
  | starting
  | persisted
  | tested
  | leaving
  deriving DecidableEq

/-- `base_copy`: before `base_progress` is set, then until `base_end_seq` is in the manifest, until
`base_progress` is reset, and until the thread has ended -/
inductive BasePhase where
  | fresh
  | copying
  | written
  | leaving
  deriving DecidableEq

/-- `recover`: until it returns, and until the thread has ended -/
inductive RecoveryPhase where
  | running
  | leaving
  deriving DecidableEq

structure ThreadSt where
  boot : Nat
  -- `recovery.json`; `base_end_seq` and the boot of `seeded` in `manifest.json`
  recoveryFile : Bool
  baseEnd : Bool
  seeded : Option Nat
  -- the process
  pc : MainPc
  base : Option BasePhase
  recovery : Option RecoveryPhase
  baseProgress : Bool
  queue : List Int
  seedRequired : Bool
  stop : Bool

/-- before a start of the daemon, with any files -/
def ThreadSt.init (recoveryFile baseEnd : Bool) (seeded : Option Nat) : ThreadSt :=
  ⟨0, recoveryFile, baseEnd, seeded, .down, none, none, false, [], false, false⟩

def ThreadSt.kill (s : ThreadSt) : ThreadSt :=
  { s with pc := .down, base := none, recovery := none }

inductive ThreadAct where
  -- `rkcdp-seed` of this or another boot writes the manifest that it has read, which may lack a
  -- later `base_end_seq`
  | seed (b : Nat) (stale : Bool)
  | reboot
  | crash
  | signal
  -- the main thread: start-up
  | start (required : Bool)
  | resume
  | startBase
  -- an iteration of the loop
  | consume (gaps : List Int)
  | checkSeed
  | gapTest
  | persist
  | launch
  | finish
  -- the end of `main`
  | leave
  | exit
  -- `base_copy`
  | baseEnter
  | baseDone
  | baseReset
  | baseStop
  | baseExit
  -- `recover`
  | unlink
  | recoverStop
  | recoverExit
  deriving DecidableEq

def ThreadSt.checkSeed (s : ThreadSt) : ThreadSt :=
  match s.seeded with
  | none => s
  | some b =>
    if b = s.boot then
      { s with seedRequired := false, queue := s.queue ++ [-1], baseEnd := true }
    else { s with seedRequired := false, base := some .fresh }

/-- the test before `start_recovery` -/
def ThreadSt.gapDue (s : ThreadSt) : Bool :=
  !s.queue.isEmpty && s.recovery.isNone && !s.baseProgress

def threadStep (s : ThreadSt) : ThreadAct → Option ThreadSt
  | .seed b stale => some { s with seeded := some b, baseEnd := s.baseEnd && !stale }
  | .reboot => some { s.kill with boot := s.boot + 1 }
  | .crash => some s.kill
  | .signal => some { s with stop := true }
  | .start required =>
    if s.pc = .down then
      some { s with
        pc := .booted s.baseEnd
        base := none
        recovery := none
        baseProgress := false
        queue := []
        seedRequired := required && !s.baseEnd
        stop := false }
    else none
  | .resume =>
    match s.pc with
    | .booted ended =>
      some { s with
        pc := .resumed ended
        recovery := if s.recoveryFile then some .running else none }
    | _ => none
  | .startBase =>
    match s.pc with
    | .resumed ended =>
      some { s with
        pc := .top
        base := if !ended && !s.seedRequired then some .fresh else none }
    | _ => none
  | .consume gaps =>
    if s.pc = .top ∧ s.stop = false then some { s with pc := .consumed, queue := s.queue ++ gaps }
    else none
  | .checkSeed =>
    if s.pc = .consumed then
      some { (if s.seedRequired then s.checkSeed else s) with pc := .checked }
    else none
  -- nobody else starts a recovery, so the three operands of the test can be read at once
  | .gapTest =>
    if s.pc = .checked then
      some (if s.gapDue then { s with pc := .starting, queue := s.queue.tail }
        else { s with pc := .tested })
    else none
  | .persist =>
    if s.pc = .starting then some { s with pc := .persisted, recoveryFile := true } else none
  | .launch =>
    if s.pc = .persisted then some { s with pc := .tested, recovery := some .running } else none
  | .finish => if s.pc = .tested then some { s with pc := .top } else none
  | .leave => if s.pc = .top ∧ s.stop = true then some { s with pc := .leaving } else none
  -- the threads are no daemon threads: the process waits for them
  | .exit =>
    if s.pc = .leaving ∧ s.base = none ∧ s.recovery = none then some s.kill else none
  | .baseEnter =>
    if s.base = some .fresh then some { s with base := some .copying, baseProgress := true } else none
  | .baseDone =>
    if s.base = some .copying then some { s with base := some .written, baseEnd := true } else none
  | .baseReset =>
    if s.base = some .written then some { s with base := some .leaving, baseProgress := false } else none
  | .baseStop =>
    if s.base = some .copying ∧ s.stop = true then
      some { s with base := some .leaving, baseProgress := false }
    else none
  -- also on an exception, at any point
  | .baseExit => if s.base = none then none else some { s with base := none }
  | .unlink =>
    if s.recovery = some .running then
      some { s with recovery := some .leaving, recoveryFile := false }
    else none
  | .recoverStop =>
    if s.recovery = some .running ∧ s.stop = true then some { s with recovery := some .leaving }
    else none
  | .recoverExit => if s.recovery = none then none else some { s with recovery := none }

/-! ## the property and the condition -/

def NeverBoth (s : ThreadSt) : Prop := ¬(s.base ≠ none ∧ s.recovery ≠ none)

/-- at a start that finds `recovery.json`, the base copy is done or left to `rkcdp-seed`; `check_seed`
falls back to a base copy only while no recovery is alive; and when the test before
`start_recovery` passes, `base_copy` is not between its start and `base_progress = {...}`, nor
between `base_progress = {}` and its end -/
def StartsOk (s : ThreadSt) : ThreadAct → Prop
  | .start required => s.recoveryFile = true → s.baseEnd = true ∨ required = true
  | .checkSeed => s.seedRequired = true → ∀ b, s.seeded = some b → b ≠ s.boot → s.recovery = none
  | .gapTest => s.gapDue = true → s.base ≠ some .fresh ∧ s.base ≠ some .leaving
  | _ => True

/-! ## what the steps keep -/

/-- where the main thread is, no copy thread can be alive -/
def MainPc.Quiet : MainPc → Prop
  | .down | .booted _ | .starting | .persisted => True
  | _ => False

structure ThreadInv (s : ThreadSt) : Prop where
  apart : s.base = none ∨ s.recovery = none
  quiet : s.pc.Quiet → s.base = none ∧ s.recovery = none
  /-- `base_progress` is not empty from `copying` to `written` -/
  progress : s.base = some .copying ∨ s.base = some .written → s.baseProgress = true
  booted : ∀ ended, s.pc = .booted ended →
    s.recoveryFile = true → ended = true ∨ s.seedRequired = true
  resumed : ∀ ended, s.pc = .resumed ended →
    s.base = none ∧ (s.recovery ≠ none → ended = true ∨ s.seedRequired = true)

theorem ThreadInv.neverBoth {s : ThreadSt} (h : ThreadInv s) : NeverBoth s := by
  rintro ⟨h1, h2⟩
  rcases h.apart with e | e
  · exact h1 e
  · exact h2 e

theorem ThreadInv.init (r b : Bool) (seeded : Option Nat) :
    ThreadInv (ThreadSt.init r b seeded) := by
  refine ⟨Or.inl rfl, fun _ => ⟨rfl, rfl⟩, fun h => ?_, fun _ e => ?_, fun _ e => ?_⟩
  · rcases h with h | h <;> cases h
  · cases e
  · cases e

theorem ThreadInv.kill (s : ThreadSt) : ThreadInv s.kill := by
  refine ⟨Or.inl rfl, fun _ => ⟨rfl, rfl⟩, fun h => ?_, fun _ e => ?_, fun _ e => ?_⟩
  · rcases h with h | h <;> cases h
  · cases e
  · cases e

section
variable {s s' : ThreadSt}

theorem ThreadInv.looping (pc : MainPc) (ha : s.base = none ∨ s.recovery = none)
    (hp : s.base = some .copying ∨ s.base = some .written → s.baseProgress = true)
    (hpc : s.pc = pc) (hl : pc = .top ∨ pc = .consumed ∨ pc = .checked ∨ pc = .tested ∨ pc = .leaving) :
    ThreadInv s := by
  subst hpc
  refine ⟨ha, fun hq => ?_, hp, fun _ e => ?_, fun _ e => ?_⟩
  · rcases hl with e | e | e | e | e <;> rw [e] at hq <;> exact hq.elim
  · rcases hl with h | h | h | h | h <;> rw [h] at e <;> cases e
  · rcases hl with h | h | h | h | h <;> rw [h] at e <;> cases e

theorem ThreadInv.baseMoved {p : BasePhase} {next : Option BasePhase} {progress ended : Bool}
    (h : ThreadInv s) (hb : s.base = some p)
    (hp : next = some .copying ∨ next = some .written → progress = true) :
    ThreadInv { s with base := next, baseProgress := progress, baseEnd := ended } := by
  have hne : s.base ≠ none := by
    rw [hb]
    exact Option.some_ne_none p
  refine ⟨Or.inr (h.apart.resolve_left hne), fun hq => ?_, hp, h.booted, fun e he => ?_⟩
  · exact absurd (h.quiet hq).1 hne
  · exact absurd (h.resumed e he).1 hne

/-- `recover` goes on to its next phase, or ends; it deletes `recovery.json` at most -/
theorem ThreadInv.recoveryMoved {p : RecoveryPhase} {next : Option RecoveryPhase} {file : Bool}
    (h : ThreadInv s) (hr : s.recovery = some p) (hf : file = true → s.recoveryFile = true) :
    ThreadInv { s with recovery := next, recoveryFile := file } := by
  have hne : s.recovery ≠ none := by
    rw [hr]
    exact Option.some_ne_none p
  refine ⟨Or.inl (h.apart.resolve_right hne), fun hq => ?_, h.progress,
    fun e he hf' => h.booted e he (hf hf'), fun e he => ?_⟩
  · exact absurd (h.quiet hq).2 hne
  · exact ⟨(h.resumed e he).1, fun _ => (h.resumed e he).2 hne⟩

/-- **`check_seed`**, which starts `base_copy` only if no recovery is alive -/
theorem ThreadInv.checked (h : ThreadInv s) (hpc : s.pc = .consumed)
    (hg : StartsOk s .checkSeed) :
    ThreadInv { (if s.seedRequired then s.checkSeed else s) with pc := .checked } := by
  have hstay : ThreadInv { s with pc := .checked } :=
    ThreadInv.looping .checked h.apart h.progress rfl (by simp)
  split
  · rename_i hr
    unfold ThreadSt.checkSeed
    cases hs : s.seeded with
    | none => exact hstay
    | some b =>
      by_cases hb : b = s.boot
      · simp only [hb, if_true]
        exact ThreadInv.looping .checked h.apart h.progress rfl (by simp)
      · simp only [hb, if_false]
        refine ThreadInv.looping .checked (Or.inr (hg hr b hs hb)) (fun e => ?_) rfl (by simp)
        rcases e with e | e <;> cases e
  · exact hstay

/-- **The test before `start_recovery`** lets it start only once `base_copy` has ended. -/
theorem ThreadInv.gapTested (h : ThreadInv s) (hg : StartsOk s .gapTest) :
    ThreadInv (if s.gapDue then { s with pc := .starting, queue := s.queue.tail }
      else { s with pc := .tested }) := by
  split
  · rename_i hd
    obtain ⟨hf, hl⟩ := hg hd
    unfold ThreadSt.gapDue at hd
    simp only [Bool.and_eq_true, Bool.not_eq_true', Option.isNone_iff_eq_none] at hd
    have hb : s.base = none := by
      cases hb : s.base with
      | none => rfl
      | some p =>
        cases p with
        | fresh => exact absurd hb hf
        | leaving => exact absurd hb hl
        | copying => exact absurd (h.progress (Or.inl hb)) (by rw [hd.2]; decide)
        | written => exact absurd (h.progress (Or.inr hb)) (by rw [hd.2]; decide)
    refine ⟨Or.inl hb, fun _ => ⟨hb, hd.1.2⟩, h.progress, fun _ e => ?_, fun _ e => ?_⟩
    · cases e
    · cases e
  · exact ThreadInv.looping .tested h.apart h.progress rfl (by simp)

theorem ThreadInv.step {a : ThreadAct} (h : ThreadInv s) (hg : StartsOk s a)
    (hs : threadStep s a = some s') : ThreadInv s' := by
  cases a with
  | seed b stale =>
    obtain rfl := Option.some.inj hs
    exact ⟨h.apart, h.quiet, h.progress, h.booted, h.resumed⟩
  | reboot =>
    obtain rfl := Option.some.inj hs
    have hk := ThreadInv.kill s
    exact ⟨hk.apart, hk.quiet, hk.progress, hk.booted, hk.resumed⟩
  | crash => exact Option.some.inj hs ▸ ThreadInv.kill s
  | signal =>
    obtain rfl := Option.some.inj hs
    exact ⟨h.apart, h.quiet, h.progress, h.booted, h.resumed⟩
  | start required =>
    simp only [threadStep] at hs
    split at hs
    · obtain rfl := Option.some.inj hs
      refine ⟨Or.inl rfl, fun _ => ⟨rfl, rfl⟩, fun e => ?_, fun ended e hf => ?_, fun _ e => ?_⟩
      · rcases e with e | e <;> cases e
      · cases e
        rcases hg hf with hb | hr
        · exact Or.inl hb
        · cases hb : s.baseEnd with
          | true => exact Or.inl rfl
          | false => exact Or.inr (by simp [hr])
      · cases e
    · cases hs
  | resume =>
    simp only [threadStep] at hs
    split at hs
    · rename_i ended hpc
      obtain rfl := Option.some.inj hs
      obtain ⟨hb, _⟩ := h.quiet (by rw [hpc]; trivial)
      refine ⟨Or.inl hb, fun hq => hq.elim, h.progress, fun _ e => ?_, fun _ e => ?_⟩
      · cases e
      · cases e
        refine ⟨hb, fun hr => h.booted ended hpc ?_⟩
        by_contra hf
        exact hr (if_neg hf)
    · cases hs
  | startBase =>
    simp only [threadStep] at hs
    split at hs
    · rename_i ended hpc
      obtain rfl := Option.some.inj hs
      obtain ⟨hb, hr⟩ := h.resumed ended hpc
      refine ThreadInv.looping .top ?_ (fun e => ?_) rfl (by simp)
      · cases hrec : s.recovery with
        | none => exact Or.inr rfl
        | some p =>
          left
          rcases hr (by rw [hrec]; exact Option.some_ne_none p) with e | e <;> simp [e]
      · rcases e with e | e <;> (simp only at e; split at e <;> cases e)
    · cases hs
  | consume gaps =>
    simp only [threadStep] at hs
    split at hs
    · obtain rfl := Option.some.inj hs
      exact ThreadInv.looping .consumed h.apart h.progress rfl (by simp)
    · cases hs
  | checkSeed =>
    simp only [threadStep] at hs
    split at hs
    · rename_i hpc
      obtain rfl := Option.some.inj hs
      exact h.checked hpc hg
    · cases hs
  | gapTest =>
    simp only [threadStep] at hs
    split at hs
    · obtain rfl := Option.some.inj hs
      exact h.gapTested hg
    · cases hs
  | persist =>
    simp only [threadStep] at hs
    split at hs
    · rename_i hpc
      obtain rfl := Option.some.inj hs
      have hq := h.quiet (by rw [hpc]; trivial)
      refine ⟨h.apart, fun _ => hq, h.progress, fun _ e => ?_, fun _ e => ?_⟩
      · cases e
      · cases e
    · cases hs
  | launch =>
    simp only [threadStep] at hs
    split at hs
    · rename_i hpc
      obtain rfl := Option.some.inj hs
      have hq := h.quiet (by rw [hpc]; trivial)
      exact ThreadInv.looping .tested (Or.inl hq.1) h.progress rfl (by simp)
    · cases hs
  | finish =>
    simp only [threadStep] at hs
    split at hs
    · obtain rfl := Option.some.inj hs
      exact ThreadInv.looping .top h.apart h.progress rfl (by simp)
    · cases hs
  | leave =>
    simp only [threadStep] at hs
    split at hs
    · obtain rfl := Option.some.inj hs
      exact ThreadInv.looping .leaving h.apart h.progress rfl (by simp)
    · cases hs
  | exit =>
    simp only [threadStep] at hs
    split at hs
    · exact Option.some.inj hs ▸ ThreadInv.kill s
    · cases hs
  | baseEnter =>
    simp only [threadStep] at hs
    split at hs
    · rename_i hb
      obtain rfl := Option.some.inj hs
      exact h.baseMoved hb fun _ => rfl
    · cases hs
  | baseDone =>
    simp only [threadStep] at hs
    split at hs
    · rename_i hb
      obtain rfl := Option.some.inj hs
      exact h.baseMoved hb fun _ => h.progress (Or.inl hb)
    · cases hs
  | baseReset =>
    simp only [threadStep] at hs
    split at hs
    · rename_i hb
      obtain rfl := Option.some.inj hs
      exact h.baseMoved hb fun e => by rcases e with e | e <;> cases e
    · cases hs
  | baseStop =>
    simp only [threadStep] at hs
    split at hs
    · rename_i hb
      obtain rfl := Option.some.inj hs
      exact h.baseMoved hb.1 fun e => by rcases e with e | e <;> cases e
    · cases hs
  | baseExit =>
    simp only [threadStep] at hs
    split at hs
    · cases hs
    · rename_i hb
      obtain rfl := Option.some.inj hs
      obtain ⟨p, hb⟩ := Option.ne_none_iff_exists'.mp hb
      exact h.baseMoved hb fun e => by rcases e with e | e <;> cases e
  | unlink =>
    simp only [threadStep] at hs
    split at hs
    · rename_i hr
      obtain rfl := Option.some.inj hs
      exact h.recoveryMoved hr fun e => by cases e
    · cases hs
  | recoverStop =>
    simp only [threadStep] at hs
    split at hs
    · rename_i hr
      obtain rfl := Option.some.inj hs
      exact h.recoveryMoved hr.1 fun e => e
    · cases hs
  | recoverExit =>
    simp only [threadStep] at hs
    split at hs
    · cases hs
    · rename_i hr
      obtain rfl := Option.some.inj hs
      obtain ⟨p, hr⟩ := Option.ne_none_iff_exists'.mp hr
      exact h.recoveryMoved hr fun e => e

end

/-- **`base_copy` and `recover` are never both alive**, in a run that meets `StartsOk`. -/
theorem never_both (recoveryFile baseEnd : Bool) (seeded : Option Nat) (as : List ThreadAct)
    (s : ThreadSt) (hg : Meets threadStep StartsOk (.init recoveryFile baseEnd seeded) as)
    (h : exec threadStep (.init recoveryFile baseEnd seeded) as = some s) : NeverBoth s :=
  (exec_invariant_meets (P:=ThreadInv) (fun _ _ _ hi hga hs => hi.step hga hs)
    (ThreadInv.init recoveryFile baseEnd seeded) hg h).neverBoth

/-! ## the runs -/

instance (s : ThreadSt) (a : ThreadAct) : Decidable (StartsOk s a) := by
  unfold StartsOk
  exact match a with
    | .start required => inferInstanceAs (Decidable (_ → _))
    | .checkSeed =>
      match hs : s.seeded with
      | none => isTrue fun _ b e => by cases e
      | some b => decidable_of_iff (s.seedRequired = true → b ≠ s.boot → s.recovery = none)
          ⟨fun h hr c e => by cases e; exact h hr, fun h hr => h hr b rfl⟩
    | .gapTest => inferInstanceAs (Decidable (_ → _))
    | .seed _ _ | .reboot | .crash | .signal | .resume | .startBase | .consume _ | .persist
    | .launch | .finish | .leave | .exit | .baseEnter | .baseDone | .baseReset | .baseStop
    | .baseExit | .unlink | .recoverStop | .recoverExit => isTrue trivial

/-- a gap during the base copy: its recovery waits for the end of the copy -/
def gapWaits : List ThreadAct :=
  [.start false, .resume, .startBase, .baseEnter, .consume [7], .checkSeed, .gapTest, .finish,
    .baseDone, .baseReset, .baseExit, .consume [], .checkSeed, .gapTest, .persist, .launch]

theorem never_both_run : ∃ s, exec threadStep (.init false false none) gapWaits = some s ∧
    s.recovery = some .running ∧ NeverBoth s := by
  have h : (exec threadStep (.init false false none) gapWaits).any
      (fun s => s.recovery == some .running) = true := by decide
  obtain ⟨s, hs, hr⟩ := (Option.any_eq_true _ _).mp h
  exact ⟨s, hs, beq_iff_eq.mp hr, never_both false false none gapWaits s
    (meets_of_meetsB (b:=fun s a => decide (StartsOk s a)) (fun _ _ => of_decide_eq_true)
      (by decide)) hs⟩

/-- a gap record is read before `base_copy` has set `base_progress` -/
def gapEarly : List ThreadAct :=
  [.start false, .resume, .startBase, .consume [0], .checkSeed, .gapTest, .persist, .launch,
    .baseEnter]

/-- **The race**: the base copy and a recovery are both under way. -/
theorem both_alive : ∃ s, exec threadStep (.init false false none) gapEarly = some s ∧
    s.base = some .copying ∧ s.recovery = some .running ∧ ¬NeverBoth s := by
  have h : (exec threadStep (.init false false none) gapEarly).any
      (fun s => s.base == some .copying && s.recovery == some .running) = true := by decide
  obtain ⟨s, hs, hp⟩ := (Option.any_eq_true _ _).mp h
  rw [Bool.and_eq_true, beq_iff_eq, beq_iff_eq] at hp
  refine ⟨s, hs, hp.1, hp.2, fun hn => hn ⟨?_, ?_⟩⟩
  · rw [hp.1]
    exact Option.some_ne_none _
  · rw [hp.2]
    exact Option.some_ne_none _

end CDP
