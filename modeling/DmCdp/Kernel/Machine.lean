import DmCdp.Lib.Machine
import DmCdp.Kernel.Bio

/-!
# The target as a machine: writers, readers, the bitmap consumer, `cdp_dtr`

Each action is one atomic step of one party; a run is any interleaving of them.

* writers    `map` (`cdp_map` up to `cdp_mark`), `reserve` (`cdp_reserve`), `copy` (the rest of
             `cdp_log`), `land` (the data reaches the device), `endIo` (`cdp_end_io`);
* readers    `call` starts a `cdp_read`, `reader` takes its next step: every iteration of
             `cdp_next`, the state load, the test of `dead`, the copy to user space and the tail
             store are steps of their own;
* consumer   `clearBegin`, `clearWord`, `clearDone` are `DM_CDP_IOC_BITMAP` with
             `DM_CDP_BM_CLEAR`, one word at a time; `reread` re-reads a returned chunk;
* DM         `dtr` is `cdp_dtr`, after every mapped bio has ended.

The ghost fields (`log`, `nread`, `Flight.idx`, `Flight.landed`, `Flight.healed`, `owed`) are
never read by a step that models code.
-/

set_option linter.unusedVariables false

namespace CDP
open Img Mach

/-! ## state -/

/-- where a bio is between `cdp_map` and the end of `cdp_end_io` -/
inductive Stage where
  | marked
  | reserved (off : Nat)
  | submitted
  | ended (error : Bool)
  deriving DecidableEq

def Stage.isEnded : Stage → Bool
  | .ended _ => true
  | _ => false

/-- a bio with its `struct cdp_pb` -/
structure Flight where
  bio : Bio
  stage : Stage
  logged : Bool
  recOff : Nat
  -- ghost: number of its record, data on the device, chunks re-read after that
  idx : Option Nat
  landed : Bool
  healed : Nat → Bool

/-- error returns of `cdp_read`; `zero` is `ret = 0` -/
inductive Ret where
  | zero
  | eagain
  | emsgsize
  | efault
  | erestartsys
  deriving DecidableEq, Repr

/-- where a call of `cdp_read` is -/
inductive Pc where
  | idle
  | entry
  | next (pos : Nat)
  | found (pos : Nat)
  | empty
  | ready (pos : Nat)
  | taken (pos : Nat) (bytes : List UInt8)
  | leave (ret : Ret)
  | asleep
  deriving DecidableEq, Repr

structure Reader where
  pc : Pc
  count : Nat
  nonblock : Bool
  buf : List UInt8

/-- a finished call: the bytes it delivered, and what it returns if there are none -/
structure Call where
  bytes : List UInt8
  ret : Ret
  deriving DecidableEq, Repr

structure KState where
  t : Target
  dev : Nat → UInt8
  flights : List Flight
  lock : Option Nat
  readers : Nat → Reader
  calls : List Call
  word : Option Nat
  tmp : Nat → Bool
  -- ghost: the records reserved so far, how many the tail has passed, chunks handed out
  log : List Entry
  nread : Nat
  owed : Nat → Bool

def KState.init (cfg : Config) (dev : Nat → UInt8) : KState where
  t := cdpCtr cfg
  dev := dev
  flights := []
  lock := none
  readers := fun _ => ⟨.idle, 0, false, []⟩
  calls := []
  word := none
  tmp := fun _ => false
  log := []
  nread := 0
  owed := fun _ => false

/-! ## writers -/

/-- `cdp_map` up to the end of `cdp_mark` -/
def mapStep (cfg : Config) (s : KState) (b : Bio) : Option KState :=
  if b.Ok cfg ∧ s.t.dead = false then
    match cdpMapArgs cfg b with
    | none =>
      some { s with flights := s.flights ++ [⟨b, .submitted, false, 0, none, false, fun _ => false⟩] }
    | some a =>
      some { s with
        t := cdpMark s.t a.sector a.len
        flights := s.flights ++ [⟨b, .marked, false, 0, none, false, fun _ => false⟩] }
  else none

def Flight.drop (f : Flight) : Flight := { f with stage := .submitted }

def Flight.reserve (f : Flight) (off k : Nat) : Flight :=
  { f with stage := .reserved off, idx := some k }

/-- `cdp_reserve`; `ts` is the clock.  The step is there while the offsets stay below `2^64`. -/
def reserveStep (cfg : Config) (s : KState) (i ts : Nat) : Option KState :=
  match s.flights[i]? with
  | none => none
  | some f =>
    match f.stage, cdpMapArgs cfg f.bio with
    | .marked, some a =>
      if ts < 2^64 ∧ (Refused s.t a.payload ∨ NoWrap s.t a.payload) then
        match cdpReserve s.t a.type a.flags a.sector a.len a.payload ts with
        | (none, t) => some { s with t := t, flights := s.flights.modify i Flight.drop }
        | (some off, t) =>
          some { s with
            t := t
            flights := s.flights.modify i fun f => f.reserve off s.log.length
            log := s.log ++
              [s.t.newEntry a.type a.flags a.sector a.len a.payload ts f.bio.data] }
      else none
    | _, _ => none

def Entry.setStage (st : EStage) (e : Entry) : Entry := { e with stage := st }

def Flight.submit (f : Flight) (off : Nat) : Flight :=
  { f with stage := .submitted, logged := true, recOff := off }

/-- payload copy, state DATA, `pb->rec_off`, `pb->logged` -/
def copyStep (cfg : Config) (s : KState) (i : Nat) : Option KState :=
  match s.flights[i]? with
  | none => none
  | some f =>
    match f.stage, f.idx, cdpMapArgs cfg f.bio with
    | .reserved off, some k, some a =>
      some { s with
        t := cdpCopy s.t off a.payload f.bio.data
        flights := s.flights.modify i fun f => f.submit off
        log := s.log.modify k (Entry.setStage .data) }
    | _, _, _ => none

/-- the bio's effect on the device; discarded ranges read zeros -/
def Bio.patch (cfg : Config) (b : Bio) : Nat → Option UInt8 :=
  match b.op with
  | .write => span (b.devSector cfg * 512) b.bytes b.data
  | .discard | .secureErase | .writeZeroes => span (b.devSector cfg * 512) b.bytes fun _ => 0
  | .read | .other => fun _ => none

def landStep (cfg : Config) (s : KState) (i : Nat) : Option KState :=
  match s.flights[i]? with
  | none => none
  | some f =>
    if f.stage = .submitted ∧ f.landed = false then
      some { s with
        dev := overlay (f.bio.patch cfg) s.dev
        flights := s.flights.modify i fun f => { f with landed := true } }
    else none

def Flight.finish (f : Flight) (error : Bool) : Flight := { f with stage := .ended error }

/-- `cdp_end_io`: without an error the data has reached the device before it -/
def endIoStep (s : KState) (i : Nat) (error : Bool) : Option KState :=
  match s.flights[i]? with
  | none => none
  | some f =>
    if f.stage = .submitted ∧ (f.landed = true ∨ error = true) then
      match f.logged, f.idx with
      | true, some k =>
        some { s with
          t := cdpEndIo s.t f.recOff error
          flights := s.flights.modify i fun f => f.finish error
          log := s.log.modify k (Entry.setStage (.ended error)) }
      | _, _ => some { s with flights := s.flights.modify i fun f => f.finish error }
    else none

/-! ## readers -/

def KState.setPc (s : KState) (r : Nat) (pc : Pc) : KState :=
  { s with readers := Function.update s.readers r { s.readers r with pc := pc } }

/-- the call of reader `r` returns -/
def KState.ret (s : KState) (r : Nat) (ret : Ret) : KState :=
  { s with
    readers := Function.update s.readers r ⟨.idle, 0, false, []⟩
    calls := s.calls ++ [⟨(s.readers r).buf, ret⟩] }

/-- `ret` at a `break`: only an empty buffer reports an error -/
def breakRet (buf : List UInt8) (ret : Ret) : Ret := if buf = [] then ret else .zero

def callStep (s : KState) (r count : Nat) (nonblock : Bool) : Option KState :=
  if (s.readers r).pc = .idle then
    some { s with readers := Function.update s.readers r ⟨.entry, count, nonblock, []⟩ }
  else none

/-- the next step of the `cdp_read` of reader `r`, by where it is.  `ok` is the outcome of what
may fail: the interruptible lock and wait, and `copy_to_user`.  A wait may also end on a stale
`cdp_readable`, so the model lets it end at any time. -/
def readerAt (s : KState) (r : Nat) (ok : Bool) : Pc → Option KState
  | .idle => none
  | .entry =>
    if ok then
      if s.lock = none then some ({ s with lock := some r }.setPc r (.next s.t.tail)) else none
    else some (s.ret r .erestartsys)
  | .next pos =>
    match cdpNextStep s.t pos with
    | .null => some (s.setPc r .empty)
    | .skip q => some (s.setPc r (.next q))
    | .found q => some (s.setPc r (.found q))
  | .found pos =>
    if stateAt s.t pos = StCommitted then some (s.setPc r (.ready pos))
    else some (s.setPc r .empty)
  | .empty =>
    if (s.readers r).buf ≠ [] then some (s.setPc r (.leave .zero))
    else if s.t.dead then some (s.setPc r (.leave .zero))
    else if (s.readers r).nonblock then some (s.setPc r (.leave .eagain))
    else some ({ s with lock := none }.setPc r .asleep)
  | .ready pos =>
    let n := (Rec.load s.t.ring (pos % s.t.ringSize)).recLen
    if n > (s.readers r).count - (s.readers r).buf.length then
      some (s.setPc r (.leave (breakRet (s.readers r).buf .emsgsize)))
    else if ok then some (s.setPc r (.taken pos (slice s.t.ring (pos % s.t.ringSize) n)))
    else some (s.setPc r (.leave (breakRet (s.readers r).buf .efault)))
  | .taken pos bytes =>
    let tail := u64 (pos + (Rec.load s.t.ring (pos % s.t.ringSize)).recLen)
    some { s with
      t := { s.t with tail := tail }
      readers := Function.update s.readers r
        { s.readers r with buf := (s.readers r).buf ++ bytes, pc := .next tail }
      nread := s.nread + 1 }
  | .leave ret => some ({ s with lock := none }.ret r ret)
  | .asleep => if ok then some (s.setPc r .entry) else some (s.ret r .erestartsys)

def readerStep (s : KState) (r : Nat) (ok : Bool) : Option KState :=
  readerAt s r ok (s.readers r).pc

/-! ## the bitmap consumer -/

/-- `BITS_TO_LONGS(t->nbits)` -/
def Target.nlongs (t : Target) : Nat := (t.nbits + 63) / 64

def clearBeginStep (s : KState) : Option KState :=
  if s.word = none then some { s with word := some 0, tmp := fun _ => false } else none

/-- `tmp[i] = xchg(&t->bitmap[i], 0UL)` -/
def clearWordStep (s : KState) : Option KState :=
  match s.word with
  | none => none
  | some w =>
    if w < s.t.nlongs then
      some { s with
        t := { s.t with bitmap := fun c => if c / 64 = w then false else s.t.bitmap c }
        tmp := fun c => if c / 64 = w then s.t.bitmap c else s.tmp c
        word := some (w + 1) }
    else none

/-- `overflowed = false` and the copy to user space, which may fail -/
def clearDoneStep (s : KState) (ok : Bool) : Option KState :=
  match s.word with
  | none => none
  | some w =>
    if w < s.t.nlongs then none
    else
      some { s with
        t := { s.t with overflowed := false }
        word := none
        tmp := fun _ => false
        owed := if ok then fun c => s.owed c || s.tmp c else s.owed }

/-- the chunks a logged bio touches -/
def Bio.touches (cfg : Config) (b : Bio) (c : Nat) : Prop :=
  match cdpMapArgs cfg b with
  | some a => Touches cfg.chunkSectors a.sector a.len c
  | none => False

instance (cfg : Config) (b : Bio) (c : Nat) : Decidable (b.touches cfg c) := by
  unfold Bio.touches
  exact match cdpMapArgs cfg b with
    | some a => inferInstanceAs (Decidable (Touches cfg.chunkSectors a.sector a.len c))
    | none => inferInstanceAs (Decidable False)

/-- the consumer re-reads chunk `c` from the device -/
def rereadStep (cfg : Config) (s : KState) (c : Nat) : Option KState :=
  if s.owed c then
    some { s with
      owed := fun x => if x = c then false else s.owed x
      flights := s.flights.map fun f =>
        { f with healed := fun x => f.healed x || (decide (x = c) && f.landed) } }
  else none

/-! ## removal -/

/-- `cdp_dtr`; DM calls it after every mapped bio has ended -/
def dtrStep (s : KState) : Option KState :=
  if s.flights.all (fun f => f.stage.isEnded) ∧ s.t.dead = false then
    some { s with t := { s.t with dead := true } }
  else none

/-! ## the machine -/

inductive KAct where
  | map (b : Bio)
  | reserve (i ts : Nat)
  | copy (i : Nat)
  | land (i : Nat)
  | endIo (i : Nat) (error : Bool)
  | call (r count : Nat) (nonblock : Bool)
  | reader (r : Nat) (ok : Bool)
  | clearBegin
  | clearWord
  | clearDone (ok : Bool)
  | reread (c : Nat)
  | dtr

def kstep (cfg : Config) (s : KState) : KAct → Option KState
  | .map b => mapStep cfg s b
  | .reserve i ts => reserveStep cfg s i ts
  | .copy i => copyStep cfg s i
  | .land i => landStep cfg s i
  | .endIo i error => endIoStep s i error
  | .call r count nonblock => callStep s r count nonblock
  | .reader r ok => readerStep s r ok
  | .clearBegin => clearBeginStep s
  | .clearWord => clearWordStep s
  | .clearDone ok => clearDoneStep s ok
  | .reread c => rereadStep cfg s c
  | .dtr => dtrStep s

/-- the bytes the finished calls returned, in tail order -/
def KState.out (s : KState) : List UInt8 := (s.calls.map Call.bytes).flatten

end CDP
