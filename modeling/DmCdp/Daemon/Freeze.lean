import DmCdp.Daemon.Consume
import DmCdp.Lib.Finally

/-!
# The freeze of `mark_consistent`

The function as a program with exceptions: the freeze command with each of its outcomes, the drain
with what each round reads and where it raises, `finally`, the test of `recovery_queue`, the
manifest.

* `FreezeCmd`         how `fsfreeze -f` ends, and whether the file system is frozen then;
* `drain`             the loop under the freeze; `keeps_drain`: it freezes and thaws nothing;
* `markConsistent`    `mark_consistent`;
* `thaws_iff`         it leaves nothing frozen exactly if it returns early, or the command exits
                      with 0, or the command has frozen nothing;
* `frozen_timeout`    the timeout fires when the kernel has frozen the file system.
-/

set_option linter.unusedVariables false

namespace CDP
open Exc

/-! ## what the call meets -/

/-- where the freeze stands when the timeout of `subprocess.run` fires; a child inside the `ioctl`
is waited for -/
inductive FreezeAt where
  | before
  | during (completes : Bool)
  | after
  deriving DecidableEq

def FreezeAt.froze : FreezeAt → Bool
  | .before => false
  | .during completes => completes
  | .after => true

/-- `subprocess.run(["fsfreeze", "-f", "/"], …)` -/
inductive FreezeCmd where
  /-- a child that is killed after the `ioctl` has a status other than 0 -/
  | exited (rc : Int) (froze : Bool)
  | expired (time : FreezeAt)
  /-- no child -/
  | failed
  deriving DecidableEq

def FreezeCmd.rc : FreezeCmd → Option Int
  | .exited rc _ => some rc
  | _ => none

def FreezeCmd.froze : FreezeCmd → Bool
  | .exited _ froze => froze
  | .expired time => time.froze
  | .failed => false

/-- `os.read(self.cdp_fd, READ_SZ)` -/
inductive RingRead where
  | data (l : List UInt8)
  | error (errno : Nat)

/-- `except (BlockingIOError, OSError): data = b""` -/
def RingRead.bytes : RingRead → List UInt8
  | .data l => l
  | .error _ => []

/-- one round of the drain: the read, the lock file as `consume` finds it, and after how many
records `consume` raises an `OSError` -/
structure DrainRound where
  read : RingRead
  park : Bool
  fault : Option Nat

/-- a call of `mark_consistent`; the deadline comes after the rounds -/
structure MarkCall where
  paused : Bool
  recovering : Bool
  copyingBase : Bool
  cmd : FreezeCmd
  rounds : List DrainRound
  fsyncFails : Bool
  -- `recovery_active()` after the thaw
  recoveringThen : Bool
  writeFails : Bool

inductive MarkError where
  | timeoutExpired
  | osError
  | valueError
  deriving DecidableEq

structure FreezeSt where
  -- the file system, by this call
  frozen : Bool
  -- the local `frozen`
  flag : Bool
  d : DaemonSt
  -- `seq` of `manifest["consistent"]`
  consistent : Option (Option Nat)

/-! ## the code -/

/-- the first records that `iter_records` yields -/
def firstRecords (buf : List UInt8) : Nat → Nat → List Item
  | 0, _ => []
  | k + 1, off =>
    if off + RecSize ≤ buf.length then
      let r := itemAt buf off
      if r.hdr.magic ≠ RecMagic then []
      else if off + r.hdr.recLen > buf.length then []
      else r :: firstRecords buf k (off + r.hdr.recLen)
    else []

abbrev MarkProg := Prog FreezeSt MarkError

/-- `self.consume(buf)` -/
def consumeCall (size : Nat) (rd : DrainRound) (buf : List UInt8) :
    MarkProg (List UInt8) := ExceptT.mk fun s =>
  match rd.fault with
  | some k =>
    let a := (firstRecords buf k 0).foldl (consumeStep size rd.park buf) (s.d, 0, [])
    some (.error .osError, { s with d := a.1 })
  | none =>
    match s.d.consume size rd.park buf with
    | none => none
    | some (d, none) => some (.error .valueError, { s with d := d })
    | some (d, some tail) => some (.ok tail, { s with d := d })

/-- `while time.time() < deadline` -/
def drain (size : Nat) : List DrainRound → List UInt8 → MarkProg Unit
  | [], _ => pure ()
  | rd :: more, pending =>
    if rd.read.bytes = [] then pure ()
    else do
      let pending ← consumeCall size rd (pending ++ rd.read.bytes)
      drain size more pending

/-- what `subprocess.run` returns or raises -/
def FreezeCmd.outcome : FreezeCmd → MarkProg Int
  | .exited rc _ => pure rc
  | .expired _ => throw .timeoutExpired
  | .failed => throw .osError

def fsfreeze (cmd : FreezeCmd) : MarkProg Int := do
  modify fun s => { s with frozen := s.frozen || cmd.froze }
  cmd.outcome

/-- the drain, `fsync` and the local `seq` -/
def markRest (size : Nat) (e : MarkCall) : MarkProg (Option (Option Nat)) := do
  drain size e.rounds []
  if e.fsyncFails then throw .osError
  else do
    let s ← get
    pure (some s.d.lastSeq)

/-- the body of `try`; no value where it returns early -/
def markBody (size : Nat) (e : MarkCall) : MarkProg (Option (Option Nat)) := do
  let rc ← fsfreeze e.cmd
  if rc ≠ 0 then pure none
  else do
    modify fun s => { s with flag := true }
    markRest size e

/-- `finally`; a `fsfreeze -u` that is issued succeeds -/
def thaw : MarkProg Unit :=
  modify fun s => if s.flag then { s with frozen := false } else s

/-- the test of the queue, and the manifest -/
def markPoint (e : MarkCall) (seq : Option Nat) : MarkProg Unit := do
  let s ← get
  if !s.d.gaps.queue.isEmpty || e.recoveringThen then pure ()
  else do
    modify fun s => { s with consistent := some seq }
    if e.writeFails then throw .osError else pure ()

def markConsistent (size : Nat) (e : MarkCall) : MarkProg Unit :=
  if e.paused || e.recovering || e.copyingBase then pure ()
  else do
    modify fun s => { s with flag := false }
    let seq ← try markBody size e finally thaw
    match seq with
    | none => pure ()
    | some seq => markPoint e seq

/-- the property: the file system is not frozen when the call returns or raises -/
def LeavesThawed (size : Nat) (e : MarkCall) (s : FreezeSt) : Prop :=
  ∀ r s', (markConsistent size e).run s = some (r, s') → s'.frozen = false

/-! ## the parts -/

/-- what `finally` needs -/
def FreezeSt.Known (s : FreezeSt) : Prop := s.frozen = true → s.flag = true

variable {size : Nat} {e : MarkCall}

theorem keeps_consumeCall {I : FreezeSt → Prop} (hI : ∀ s d, I s → I { s with d := d })
    (rd : DrainRound) (buf : List UInt8) : Keeps I (consumeCall size rd buf) := by
  constructor
  intro s hs r s' h
  unfold consumeCall at h
  dsimp only [ExceptT.run_mk] at h
  split at h
  · obtain ⟨rfl, rfl⟩ := Prod.mk.inj (Option.some.inj h)
    exact hI s _ hs
  · split at h
    · cases h
    · obtain ⟨rfl, rfl⟩ := Prod.mk.inj (Option.some.inj h)
      exact hI s _ hs
    · obtain ⟨rfl, rfl⟩ := Prod.mk.inj (Option.some.inj h)
      exact hI s _ hs

/-- **The drain** changes nothing but the daemon, wherever it stops or raises. -/
theorem keeps_drain {I : FreezeSt → Prop} (hI : ∀ s d, I s → I { s with d := d })
    (rounds : List DrainRound) (pending : List UInt8) : Keeps I (drain size rounds pending) := by
  induction rounds generalizing pending with
  | nil => exact ends_pure fun s hs => hs
  | cons rd more ih =>
    apply ends_ite
    · intro _
      exact ends_pure fun s hs => hs
    · intro _
      apply keeps_bind (keeps_consumeCall hI rd _)
      intro tail
      exact ih tail

theorem ends_outcome {cmd : FreezeCmd} (hcmd : cmd.rc = some 0 ∨ cmd.froze = false) {x : Unit} :
    Ends (fun s => Except.ok (ε := MarkError) x = .ok () ∧ s.frozen = cmd.froze) cmd.outcome
      fun r s => r = .ok 0 ∨ s.frozen = false := by
  cases cmd with
  | exited rc froze =>
    apply ends_pure
    intro s hs
    rcases hcmd with h | h
    · exact Or.inl (congrArg Except.ok (Option.some.inj h))
    · exact Or.inr (hs.2.trans h)
  | expired time =>
    apply ends_throw
    intro s hs
    rcases hcmd with h | h
    · cases h
    · exact Or.inr (hs.2.trans h)
  | failed =>
    apply ends_throw
    intro s hs
    exact Or.inr hs.2

/-- after the command: either the flag is still to be set, or there is nothing to thaw -/
theorem ends_fsfreeze (hcmd : e.cmd.rc = some 0 ∨ e.cmd.froze = false) :
    Ends (fun s => s.frozen = false) (fsfreeze e.cmd)
      fun r s => r = .ok 0 ∨ s.frozen = false := by
  unfold fsfreeze
  apply ends_bind (Q := fun r s => r = .ok () ∧ s.frozen = e.cmd.froze)
  · apply ends_modify
    intro s hs
    simp [hs]
  · intro _
    exact ends_outcome hcmd
  · intro u s hs
    cases hs.1

theorem keeps_markRest {I : FreezeSt → Prop} (hI : ∀ s d, I s → I { s with d := d }) :
    Keeps I (markRest size e) := by
  apply keeps_bind (keeps_drain hI e.rounds [])
  intro _
  apply ends_ite
  · intro _
    exact ends_throw fun s hs => hs
  · intro _
    apply keeps_bind (ends_get fun s hs => hs)
    intro s
    exact ends_pure fun s hs => hs

theorem ends_markBody (hcmd : e.cmd.rc = some 0 ∨ e.cmd.froze = false) :
    Ends (fun s => s.frozen = false) (markBody size e) fun _ s => s.Known := by
  unfold markBody
  apply ends_bind (ends_fsfreeze hcmd)
  · intro rc
    apply ends_ite
    · intro hrc
      apply ends_pure
      intro s hs hf
      rcases hs with h | h
      · exact absurd (Except.ok.inj h) hrc
      · rw [h] at hf
        cases hf
    · intro _
      apply ends_bind (Q := fun _ s => s.flag = true)
      · apply ends_modify
        intro s _
        rfl
      · intro _
        exact (keeps_markRest fun s d hs => hs).weaken (fun s hs => hs) fun r s hs _ => hs
      · intro x s hs _
        exact hs
  · intro x s hs hf
    rcases hs with h | h
    · cases h
    · rw [h] at hf
      cases hf

theorem ends_thaw : Ends FreezeSt.Known thaw fun r s => r = .ok () ∧ s.frozen = false := by
  apply ends_modify
  intro s hs
  split
  next h => exact ⟨rfl, rfl⟩
  next h =>
    refine ⟨rfl, ?_⟩
    cases hf : s.frozen with
    | false => rfl
    | true => exact absurd (hs hf) h

theorem keeps_markPoint (seq : Option Nat) :
    Keeps (fun s => s.frozen = false) (markPoint e seq) := by
  apply keeps_bind (ends_get fun s hs => hs)
  intro s
  apply ends_ite
  · intro _
    exact ends_pure fun s hs => hs
  · intro _
    apply keeps_bind
    · exact ends_modify fun s hs => hs
    · intro _
      apply ends_ite
      · intro _
        exact ends_throw fun s hs => hs
      · intro _
        exact ends_pure fun s hs => hs

theorem markBody_frozen (size : Nat) {s : FreezeSt} (hrc : e.cmd.rc ≠ some 0)
    (hfroze : e.cmd.froze = true) :
    ∃ r, (r = .ok none ∨ ∃ x, r = .error x) ∧
      (markBody size e).run s = some (r, { s with frozen := true }) := by
  have hmod : (modify fun s : FreezeSt => { s with frozen := s.frozen || e.cmd.froze } :
      MarkProg Unit).run s = some (.ok (), { s with frozen := true }) := by
    simp [hfroze]
  have hcmd : (fsfreeze e.cmd).run s = e.cmd.outcome.run { s with frozen := true } :=
    run_bind_ok hmod
  unfold markBody
  cases hc : e.cmd with
  | exited rc froze =>
    rw [hc] at hcmd hrc
    have hne : rc ≠ 0 := by
      intro h
      exact hrc (congrArg some h)
    refine ⟨.ok none, Or.inl rfl, ?_⟩
    rw [run_bind_ok (hcmd.trans (run_pure _ _)), if_pos hne, run_pure]
  | expired time =>
    rw [hc] at hcmd
    refine ⟨.error .timeoutExpired, Or.inr ⟨_, rfl⟩, ?_⟩
    exact run_bind_error (hcmd.trans (run_throw _ _))
  | failed =>
    rw [hc] at hfroze
    cases hfroze

theorem markConsistent_frozen (size : Nat) {s : FreezeSt}
    (hearly : ¬ (e.paused || e.recovering || e.copyingBase) = true) (hrc : e.cmd.rc ≠ some 0)
    (hfroze : e.cmd.froze = true) :
    ∃ r, (markConsistent size e).run s = some (r, { s with frozen := true, flag := false }) := by
  obtain ⟨r, hr, hbody⟩ :=
    markBody_frozen size (s := { s with flag := false }) hrc hfroze
  have htry : (tryFinally (markBody size e) thaw).run { s with flag := false } =
      some (r, { s with frozen := true, flag := false }) := by
    apply run_tryFinally (b := ()) hbody
    simp [thaw]
  unfold markConsistent
  rw [if_neg hearly, run_bind_ok (run_modify _ _)]
  rcases hr with rfl | ⟨x, rfl⟩
  · exact ⟨_, run_bind_ok htry⟩
  · exact ⟨_, run_bind_error htry⟩

theorem keeps_markConsistent (hcmd : e.cmd.rc = some 0 ∨ e.cmd.froze = false) :
    Keeps (fun s => s.frozen = false) (markConsistent size e) := by
  apply ends_ite
  · intro _
    exact ends_pure fun s hs => hs
  · intro _
    apply keeps_bind
    · exact ends_modify fun s hs => hs
    · intro _
      apply keeps_bind
      · exact ends_tryFinally (ends_markBody hcmd) fun r => ends_thaw
      · intro seq
        cases seq with
        | none => exact ends_pure fun s hs => hs
        | some seq => exact keeps_markPoint seq

/-- **The freeze.** From a file system that is not frozen, whatever is read, parked or raised in the
drain: nothing stays frozen exactly if the call returns early, or the command exits with 0, or the
command has frozen nothing. -/
theorem thaws_iff (size : Nat) (e : MarkCall) (d : DaemonSt) (c : Option (Option Nat)) :
    LeavesThawed size e ⟨false, false, d, c⟩ ↔
      (e.paused || e.recovering || e.copyingBase) = true ∨ e.cmd.rc = some 0 ∨
        e.cmd.froze = false := by
  constructor
  · intro h
    by_cases hearly : (e.paused || e.recovering || e.copyingBase) = true
    · exact Or.inl hearly
    by_cases hrc : e.cmd.rc = some 0
    · exact Or.inr (Or.inl hrc)
    cases hfroze : e.cmd.froze with
    | false => exact Or.inr (Or.inr rfl)
    | true =>
      obtain ⟨r, hr⟩ := markConsistent_frozen size hearly hrc hfroze
      cases h r _ hr
  · rintro (hearly | hcmd)
    · intro r s' hr
      rw [markConsistent, if_pos hearly] at hr
      obtain ⟨rfl, rfl⟩ := Prod.mk.inj (Option.some.inj hr)
      rfl
    · exact (keeps_markConsistent hcmd).post _ rfl

/-- the timeout fires after the kernel has frozen the file system: `TimeoutExpired`, and no thaw -/
theorem frozen_timeout : ¬ LeavesThawed 0
    ⟨false, false, false, .expired .after, [], false, false, false⟩
    ⟨false, false, ⟨⟨fun _ => 0, none, true, []⟩, none, [], ⟨none, []⟩, none, 0, 0, []⟩, none⟩ := by
  intro h
  have hfrozen := h (.error .timeoutExpired) _ rfl
  cases hfrozen

end CDP
