import DmCdp.Lib.Counts
import DmCdp.Kernel.Lifetime

/-!
# `cdp_ioctl_status` and `cdp_status` beside everything else

Both read the fields of a report one by one: the bitmap long by long, what `t->lock` protects in a
lock section, `records` and `bytes_logged` on their own; `cdp_ioctl_status` reads these two before it
unlocks, `cdp_status` after that.  `cdp_end_io` is taken apart as well: `records`, `bytes_logged` and
the state store are steps of their own.

* `statusStep`    the machine; `endIo_alone`: without anything between them the steps of `cdp_end_io`
                  are that of the target;
* `StatusCall.finish`  what a call will report if nothing comes between its remaining steps;
                  `start_finish`: for a call that starts this is `cdpIoctlStatus`.
-/

set_option linter.unusedVariables false

namespace CDP
open Img Mach Slots Counts Finset

/-! ## `cdp_end_io` in steps -/

/-- what `cdp_end_io` of the bio of a record has to do next -/
inductive EndPc where
  | count
  | add
  | commit
  deriving DecidableEq

/-- `atomic64_inc(&t->records)` -/
def Target.countRecord (t : Target) : Target := { t with records := u64 (t.records + 1) }

/-- `atomic64_add(rec->len, &t->bytes_logged)` for a WRITE -/
def Target.addBytes (t : Target) (off : Nat) : Target :=
  let r := Rec.load t.ring (off % t.ringSize)
  { t with bytesLogged := if r.type = RecWrite then u64 (t.bytesLogged + r.len) else t.bytesLogged }

/-- the counters of `t` -/
def Target.countersOf (t' t : Target) : Target :=
  { t' with records := t.records, bytesLogged := t.bytesLogged }

/-! ## the calls -/

inductive StatusFn where
  | ioctl
  | info
  deriving DecidableEq

/-- the next statement of a call; `lock` is all that is read under `t->lock` of what it protects -/
inductive ReportPc where
  | weigh
  | lock
  | records
  | bytes
  | unlock
  | dead
  | out
  deriving DecidableEq

def StatusFn.next : StatusFn → ReportPc → ReportPc
  | .ioctl, .weigh => .lock
  | .ioctl, .bytes => .unlock
  | .info, .bytes => .weigh
  | .info, .weigh => .dead
  | _, .lock => .records
  | _, .records => .bytes
  | _, .unlock => .dead
  | _, .dead => .out
  | _, .out => .out

/-- where the lock section begins in `cdp_status` and `bitmap_weight` in `cdp_ioctl_status` -/
def StatusFn.first : StatusFn → ReportPc
  | .ioctl => .weigh
  | .info => .lock

/-- `word` is that of the loop of `bitmap_weight`.  Ghost: the reports returned and the bits set when
the call began. -/
structure StatusCall where
  fn : StatusFn
  pc : ReportPc
  word : Nat
  r : CdpStatus
  before : Nat
  marked : Nat → Bool

/-- ghost `left`: the bits set at the end -/
structure Report where
  fn : StatusFn
  r : CdpStatus
  before : Nat
  marked : Nat → Bool
  left : Nat → Bool

/-- the fields that are read before anything that changes -/
def Target.blank (t : Target) (len minor : Nat) : CdpStatus where
  abiVersion := AbiVersion
  overflowed := false
  dead := false
  devSectors := len
  chunkSectors := t.chunkSectors
  minor := minor
  bitmapBits := t.nbits
  bitmapBytes := 8 * t.nlongs
  bitmapSet := 0
  ringSize := t.ringSize
  ringUsed := 0
  seqNext := 0
  records := 0
  bytesLogged := 0
  overflows := 0

/-- the set bits of long `w` -/
def Target.longWeight (t : Target) (w : Nat) : Nat :=
  ones (fun b => t.bitmap (64 * w + b)) (min 64 (t.nbits - 64 * w))

/-- the fields that are read in the lock section -/
def CdpStatus.underLock (r : CdpStatus) (t : Target) : CdpStatus :=
  { r with
    ringUsed := u64sub t.head t.tail
    seqNext := t.seqNext
    overflows := t.overflows
    overflowed := t.overflowed }

/-! ## the machine -/

structure StatusSt where
  k : KState
  -- by record
  ends : Nat → EndPc
  -- the call that holds `t->lock` between two of its steps
  holder : Option Nat
  calls : Nat → Option StatusCall
  reports : List Report
  -- ghost: a counter has been reset, a bit has been cleared
  reset : Bool
  cleared : Bool

def StatusSt.init (cfg : Config) (dev : Nat → UInt8) : StatusSt where
  k := .init cfg dev
  ends := fun _ => .count
  holder := none
  calls := fun _ => none
  reports := []
  reset := false
  cleared := false

inductive StatusAct where
  -- a step of the target; the `cdp_end_io` of a logged bio is the next three
  | target (a : KAct)
  | count (i : Nat) (error : Bool)
  | add (i : Nat)
  | commit (i : Nat) (error : Bool)
  | ioctl (w : IoctlStore)
  -- `len` is what `t->ti->len` reads; once `cdp_dtr` has begun, anything
  | call (c : Nat) (fn : StatusFn) (len : Nat)
  | load (c : Nat) (ok : Bool)

/-- steps that take `t->lock` -/
def StatusAct.locks : StatusAct → Bool
  | .target (.reserve _ _) | .target (.clearDone _) => true
  | .ioctl .overflowedFalse | .ioctl .overflowsZero => true
  | _ => false

def KAct.clears : KAct → Bool
  | .clearWord => true
  | _ => false

def IoctlStore.clears : IoctlStore → Bool
  | .bitmapZero => true
  | _ => false

def IoctlStore.resets : IoctlStore → Bool
  | .recordsZero | .bytesZero => true
  | _ => false

/-- a submitted bio with its record -/
def KState.logging (s : KState) (i : Nat) : Option (Flight × Nat) :=
  match s.flights[i]? with
  | none => none
  | some f =>
    match f.logged, f.idx with
    | true, some j => if f.stage = .submitted then some (f, j) else none
    | _, _ => none

def StatusSt.setEnd (s : StatusSt) (j : Nat) (pc : EndPc) (t : Target) : StatusSt :=
  { s with k := { s.k with t := t }, ends := Function.update s.ends j pc }

def countStep (s : StatusSt) (i : Nat) (error : Bool) : Option StatusSt :=
  match s.k.logging i with
  | none => none
  | some (f, j) =>
    if s.ends j = .count ∧ (f.landed = true ∨ error = true) then
      some (s.setEnd j .add s.k.t.countRecord)
    else none

def addStep (s : StatusSt) (i : Nat) : Option StatusSt :=
  match s.k.logging i with
  | none => none
  | some (f, j) =>
    if s.ends j = .add then some (s.setEnd j .commit (s.k.t.addBytes f.recOff)) else none

/-- the rest of `cdp_end_io` -/
def commitStep (s : StatusSt) (i : Nat) (error : Bool) : Option StatusSt :=
  match s.k.logging i with
  | none => none
  | some (f, j) =>
    if s.ends j = .commit then
      (endIoStep s.k i error).map fun k => { s with k := { k with t := k.t.countersOf s.k.t } }
    else none

/-- `cdp_end_io` of a bio that is not logged is one step -/
def targetStep (cfg : Config) (s : StatusSt) (a : KAct) : Option StatusSt :=
  let next := (kstep cfg s.k a).map fun k => { s with k := k, cleared := s.cleared || a.clears }
  match a with
  | .endIo i _ => if s.k.logging i = none then next else none
  | _ => next

def callStatus (cfg : Config) (minor : Nat) (s : StatusSt) (c : Nat) (fn : StatusFn) (len : Nat) :
    Option StatusSt :=
  if (s.calls c).isNone ∧ len < 2^64 ∧ (s.k.t.dead = true ∨ len = cfg.len) then
    some { s with
      calls := Function.update s.calls c (some ⟨fn, fn.first, 0, s.k.t.blank len minor,
        s.reports.length, s.k.t.bitmap⟩) }
  else none

def StatusSt.setCall (s : StatusSt) (c : Nat) (p : StatusCall) : StatusSt :=
  { s with calls := Function.update s.calls c (some p) }

def StatusCall.to (p : StatusCall) (r : CdpStatus) : StatusCall :=
  { p with pc := p.fn.next p.pc, r := r }

/-- the next statement of call `c`; `ok`: the report can be copied out -/
def loadAt (s : StatusSt) (c : Nat) (ok : Bool) (p : StatusCall) : ReportPc → Option StatusSt
  | .weigh =>
    if p.word < s.k.t.nlongs then
      some (s.setCall c { p with
        word := p.word + 1
        r := { p.r with bitmapSet := p.r.bitmapSet + s.k.t.longWeight p.word } })
    else some (s.setCall c (p.to p.r))
  | .lock =>
    if s.holder = none then
      some { s.setCall c (p.to (p.r.underLock s.k.t)) with
        holder := if p.fn = .ioctl then some c else none }
    else none
  | .records => some (s.setCall c (p.to { p.r with records := s.k.t.records }))
  | .bytes => some (s.setCall c (p.to { p.r with bytesLogged := s.k.t.bytesLogged }))
  | .unlock => some { s.setCall c (p.to p.r) with holder := none }
  | .dead => some (s.setCall c (p.to { p.r with dead := s.k.t.dead }))
  | .out =>
    some { s with
      calls := Function.update s.calls c none
      reports := if ok then s.reports ++ [⟨p.fn, p.r, p.before, p.marked, s.k.t.bitmap⟩]
        else s.reports }

def statementStep (s : StatusSt) (c : Nat) (ok : Bool) : Option StatusSt :=
  (s.calls c).bind fun p => loadAt s c ok p p.pc

def statusStep (cfg : Config) (minor : Nat) (s : StatusSt) (a : StatusAct) : Option StatusSt :=
  if a.locks = true ∧ s.holder ≠ none then none
  else
    match a with
    | .target a => targetStep cfg s a
    | .count i error => countStep s i error
    | .add i => addStep s i
    | .commit i error => commitStep s i error
    | .ioctl w =>
      some { s with
        k := { s.k with t := ioctlStep s.k.t w }
        reset := s.reset || w.resets
        cleared := s.cleared || w.clears }
    | .call c fn len => callStatus cfg minor s c fn len
    | .load c ok => statementStep s c ok

/-! ## undisturbed calls -/

/-- how far a statement is from the start -/
def StatusFn.rank : StatusFn → ReportPc → Nat
  | .ioctl, .weigh => 0
  | .ioctl, .lock => 1
  | .ioctl, .records => 2
  | .ioctl, .bytes => 3
  | .info, .lock => 0
  | .info, .records => 1
  | .info, .bytes => 2
  | .info, .weigh => 3
  | _, .unlock => 4
  | _, .dead => 5
  | _, .out => 6

def StatusCall.past (p : StatusCall) (l : ReportPc) : Bool := decide (p.fn.rank l < p.fn.rank p.pc)

/-- the report if the target does not change any more -/
def StatusCall.finish (p : StatusCall) (t : Target) : CdpStatus :=
  { p.r with
    bitmapSet := p.r.bitmapSet +
      ones (fun b => t.bitmap (64 * p.word + b)) (if p.past .weigh then 0 else t.nbits - 64 * p.word)
    ringUsed := if p.past .lock then p.r.ringUsed else u64sub t.head t.tail
    seqNext := if p.past .lock then p.r.seqNext else t.seqNext
    overflows := if p.past .lock then p.r.overflows else t.overflows
    overflowed := if p.past .lock then p.r.overflowed else t.overflowed
    records := if p.past .records then p.r.records else t.records
    bytesLogged := if p.past .bytes then p.r.bytesLogged else t.bytesLogged
    dead := if p.past .dead then p.r.dead else t.dead }

theorem past_first (fn : StatusFn) (w before : Nat) (r : CdpStatus) (m : Nat → Bool) (l : ReportPc) :
    (StatusCall.mk fn fn.first w r before m).past l = false := by
  cases fn <;> cases l <;> rfl

/-- **A call that starts** would report what `cdpIoctlStatus` reads in one step. -/
theorem start_finish (t : Target) (len minor before : Nat) (fn : StatusFn) (m : Nat → Bool) :
    cdpIoctlStatus (some ⟨len⟩) t minor
      = some ((StatusCall.mk fn fn.first 0 (t.blank len minor) before m).finish t) := by
  simp [cdpIoctlStatus, StatusCall.finish, past_first, Target.blank, ones]

theorem ones_zero (p : Nat → Bool) : ones p 0 = 0 := rfl

theorem longWeight_add {t : Target} {w : Nat} (h : w < t.nlongs) :
    t.longWeight w + ones (fun b => t.bitmap (64 * (w + 1) + b)) (t.nbits - 64 * (w + 1))
      = ones (fun b => t.bitmap (64 * w + b)) (t.nbits - 64 * w) := by
  unfold Target.nlongs at h
  unfold Target.longWeight
  by_cases h64 : t.nbits - 64 * w ≤ 64
  · have e : t.nbits - 64 * (w + 1) = 0 := by omega
    rw [min_eq_right h64, e, ones_zero, Nat.add_zero]
  · have e : t.nbits - 64 * w = 64 + (t.nbits - 64 * (w + 1)) := by omega
    rw [min_eq_left (by omega), e, ones_add]
    congr 2
    funext b
    congr 1
    omega

section
variable {cfg : Config} {minor : Nat} {s s' : StatusSt}

theorem logging_cases {k : KState} {i j : Nat} {f : Flight} (h : k.logging i = some (f, j)) :
    k.flights[i]? = some f ∧ f.logged = true ∧ f.idx = some j ∧ f.stage = .submitted := by
  unfold KState.logging at h
  cases hf : k.flights[i]? with
  | none =>
    rw [hf] at h
    cases h
  | some g =>
    rw [hf] at h
    dsimp only at h
    split at h
    · rename_i j' hl hi
      split at h
      · rename_i hst
        obtain ⟨rfl, rfl⟩ := Prod.mk.inj (Option.some.inj h)
        exact ⟨rfl, hl, hi, hst⟩
      · cases h
    · cases h

/-- the three steps make up that of `cdpEndIo` -/
theorem counters_endIo (t : Target) (off : Nat) (error : Bool) :
    (cdpEndIo (t.countRecord.addBytes off) off error).countersOf (t.countRecord.addBytes off)
      = cdpEndIo t off error := by
  unfold cdpEndIo Target.countersOf Target.addBytes Target.countRecord
  rfl

/-- **Without anything between them** the steps of `cdp_end_io` are the one of the target. -/
theorem endIo_alone {i j : Nat} {error : Bool} {f : Flight} {k : KState}
    (hlog : s.k.logging i = some (f, j)) (hend : s.ends j = .count)
    (hk : kstep cfg s.k (.endIo i error) = some k) :
    exec (statusStep cfg minor) s [.count i error, .add i, .commit i error]
      = some { s with k := k, ends := Function.update s.ends j .commit } := by
  obtain ⟨hf, hl, hi, hst⟩ := logging_cases hlog
  obtain ⟨f', hf', _, hok, hcase⟩ := endIo_cases hk
  obtain rfl := Option.some.inj (hf.symm.trans hf')
  have hcount : statusStep cfg minor s (.count i error) =
      some (s.setEnd j .add s.k.t.countRecord) := by
    simp [statusStep, StatusAct.locks, countStep, hlog, hend, hok]
  have hadd : statusStep cfg minor (s.setEnd j .add s.k.t.countRecord) (.add i)
      = some { s with
        k := { s.k with t := s.k.t.countRecord.addBytes f.recOff }
        ends := Function.update s.ends j .commit } := by
    have hlog' : (s.setEnd j .add s.k.t.countRecord).k.logging i = some (f, j) := hlog
    have hends : (s.setEnd j .add s.k.t.countRecord).ends j = .add := Function.update_self j _ _
    simp [statusStep, StatusAct.locks, addStep, hlog', hends]
    simp [StatusSt.setEnd]
  rw [exec_cons, hcount, Option.bind_some, exec_cons, hadd, Option.bind_some]
  have hlog' : KState.logging { s.k with t := s.k.t.countRecord.addBytes f.recOff } i = some (f, j) :=
    hlog
  rcases hcase with ⟨j', _, hj', rfl⟩ | ⟨hno, _⟩
  · obtain rfl := Option.some.inj (hi.symm.trans hj')
    have hcommit := counters_endIo s.k.t f.recOff error
    simp [exec_cons, exec_nil, statusStep, StatusAct.locks, commitStep, hlog', endIoStep, hf, hst, hok,
      hl, hi, hcommit]
  · rcases hno with hno | hno
    · simp [hl] at hno
    · simp [hi] at hno

end

end CDP
