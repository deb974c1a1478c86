import DmCdp.Daemon.Feed
import DmCdp.Daemon.Extents

/-!
# A node: the target, the files of the journal, the daemon that comes and goes

One boot.  Bios reach the target as single steps (`Feed.write`), so none is in flight beside a step
of the daemon and none overlaps another in flight; the daemon takes the steps of `main`, of
`base_copy` and of `recover` one by one, dies between any two of them and is started again.

* `Files`      what outlives the process, `replica.raw` apart;
* `NodePc`     where the main thread is;
* `Worker`     a copy thread: `base_copy` or `recover`;
* `nstep`      the steps.  A main thread that has died on an exception is one that takes no more
               steps before `crash`; a stop by a signal is `stop` and then `crash` from the top.
-/

set_option linter.unusedVariables false

namespace CDP
open Img Mach

/-! ## state -/

/-- the files of `self.root`; of `manifest.json` what start-up reads, of `recovery.json` the
extents -/
structure Files where
  pending : Option (List Item)
  recovery : Option (List (Nat × Nat))
  baseEnd : Option Nat
  seeded : Option Nat
  lock : Bool

/-- where the main thread is.  `drain` tells the `consume` of `mark_consistent` from the one of the
loop; `clearing` and `cleared` are `start_recovery`. -/
inductive NodePc where
  | down
  | top
  | called (drain : Bool) (batch : List Item)
  | consuming (drain park : Bool) (parked rest : List Item)
  | consumed
  | checked
  | clearing (w : Nat) (snap : Nat → Bool)
  | cleared (extents : List (Nat × Nat))
  | started
  | applying (rest : List Item)
  | settled
  | draining

def NodePc.isDown : NodePc → Bool
  | .down => true
  | _ => false

theorem NodePc.isDown_iff {pc : NodePc} : pc.isDown = true ↔ pc = .down := by
  cases pc <;> simp [NodePc.isDown]

def NodePc.isTop : NodePc → Bool
  | .top => true
  | _ => false

theorem NodePc.isTop_iff {pc : NodePc} : pc.isTop = true ↔ pc = .top := by
  cases pc <;> simp [NodePc.isTop]

inductive Who where
  | base
  | recovery
  deriving DecidableEq

/-- a copy thread: where it is in `copy_chunk`, and `off, remaining` of what it has to copy -/
structure Worker where
  pc : ChunkPc
  left : List (Nat × Nat)

structure NodeSt where
  q : Feed
  -- the boot, and (ghost) whether a bio has been dropped in it
  boot : Nat
  dropped : Bool
  c : Shared
  files : Files
  gaps : Gaps
  pc : NodePc
  worker : Who → Option Worker
  -- `bool(self.base_progress)`, `self.seed_required`, `stop`
  baseProgress : Bool
  seedRequired : Bool
  stop : Bool

/-- the table line, and `conf["seed_required"]` -/
structure NodeConfig where
  target : Config
  seedRequired : Bool

/-- a node before the first start of the daemon: any disk, any `replica.raw` -/
def NodeSt.init (cfg : NodeConfig) (dev img : Nat → UInt8) : NodeSt where
  q := .init cfg.target dev
  boot := 0
  dropped := false
  c := .init img
  files := ⟨none, none, none, none, false⟩
  gaps := ⟨none, []⟩
  pc := .down
  worker := fun _ => none
  baseProgress := false
  seedRequired := false
  stop := false

def NodeSt.setWorker (s : NodeSt) (who : Who) (w : Option Worker) : NodeSt :=
  { s with worker := Function.update s.worker who w }

/-! ## the environment -/

def bioNode (cfg : NodeConfig) (s : NodeSt) (b : Bio) (ts : Nat) : Option NodeSt :=
  if b.Ok cfg.target then
    some { s with
      q := s.q.write cfg.target b ts
      -- `gap_pending` is set by a drop and cleared only by the next record
      dropped := s.dropped || (s.q.write cfg.target b ts).t.gapPending }
  else none

/-- `rkcdp-seed` on the host writes `replica.raw`: while nothing else has made a copy -/
def seedDataNode (s : NodeSt) (img : Nat → UInt8) : Option NodeSt :=
  if s.files.baseEnd = none ∧ s.worker .base = none then some { s with c := { s.c with img := img } }
  else none

/-- `rkcdp-seed` writes `manifest.seeded` -/
def seedMarkNode (s : NodeSt) : Option NodeSt :=
  some { s with files := { s.files with seeded := some s.boot } }

/-! ## start and end of the process -/

/-- `DM_CDP_IOC_RESET_STATS` -/
def Target.resetStats (t : Target) : Target :=
  { t with records := 0, bytesLogged := 0, overflows := 0 }

/-- the process is gone; what else was in its memory `__init__` sets again -/
def NodeSt.crash (s : NodeSt) : NodeSt := { s with pc := .down, worker := fun _ => none }

/-- the base copy and the recovery that `main` starts with -/
def Files.workers (f : Files) (seedRequired : Bool) (size : Nat) : Who → Option Worker
  | .recovery => f.recovery.map fun es => ⟨.idle, byteExtents es⟩
  | .base => if f.baseEnd = none ∧ seedRequired = false then some ⟨.idle, [(0, size)]⟩ else none

/-- `Daemon.__init__` and `main` up to the loop -/
def startNode (cfg : NodeConfig) (s : NodeSt) : Option NodeSt :=
  match s.pc with
  | .down =>
    let seedRequired := cfg.seedRequired && s.files.baseEnd.isNone
    some { s with
      q := { s.q with t := s.q.t.resetStats }
      c := .init s.c.img
      gaps := ⟨none, []⟩
      pc := .top
      worker := s.files.workers seedRequired cfg.target.size
      baseProgress := false
      seedRequired := seedRequired
      stop := false }
  | _ => none

def crashNode (s : NodeSt) : Option NodeSt :=
  match s.pc with
  | .down => none
  | _ => some s.crash

/-! ## the main thread -/

/-- `os.read` of `k` records; `0` also stands for an error -/
def readNode (s : NodeSt) (k : Nat) : Option NodeSt :=
  let batch := (s.q.read k).1
  match s.pc with
  | .top =>
    if s.stop then none
    else some { s with q := (s.q.read k).2, pc := if batch = [] then .consumed else .called false batch }
  | .draining =>
    some { s with q := (s.q.read k).2, pc := if batch = [] then .top else .called true batch }
  | _ => none

/-- `park = self.paused()` -/
def testNode (s : NodeSt) : Option NodeSt :=
  match s.pc with
  | .called drain batch => some { s with pc := .consuming drain s.files.lock [] batch }
  | _ => none

/-- one record in the loop of `consume`, or the write of `parked` after it -/
def consumeNode (s : NodeSt) : Option NodeSt :=
  match s.pc with
  | .consuming drain true parked (r :: rest) =>
    some { s with gaps := s.gaps.note r, pc := .consuming drain true (parked ++ [r]) rest }
  | .consuming drain false parked (r :: rest) =>
    some { s with gaps := s.gaps.note r, c := s.c.applyOne r, pc := .consuming drain false parked rest }
  | .consuming drain park parked [] =>
    some { s with
      files := { s.files with
        pending := if parked = [] then s.files.pending else some (s.files.pending.getD [] ++ parked) }
      pc := if drain then .draining else .consumed }
  | _ => none

/-- `if self.seed_required: self.check_seed()` -/
def checkSeedNode (cfg : NodeConfig) (s : NodeSt) : Option NodeSt :=
  match s.pc with
  | .consumed =>
    match s.seedRequired, s.files.seeded with
    | true, some b =>
      if b = s.boot then
        some { s with
          gaps := { s.gaps with queue := s.gaps.queue ++ [-1] }
          files := { s.files with baseEnd := some 0 }
          pc := .checked
          seedRequired := false }
      else
        some { s.setWorker .base (some ⟨.idle, [(0, cfg.target.size)]⟩) with
          pc := .checked
          seedRequired := false }
    | _, _ => some { s with pc := .checked }
  | _ => none

/-- the test before `start_recovery` -/
def gapTestNode (s : NodeSt) : Option NodeSt :=
  match s.pc with
  | .checked =>
    match s.gaps.queue, s.worker .recovery, s.baseProgress with
    | _ :: queue, none, false =>
      some { s with gaps := { s.gaps with queue := queue }, pc := .clearing 0 fun _ => false }
    | _, _, _ => some { s with pc := .started }
  | _ => none

/-- one word of the bitmap, or the end of the `ioctl` -/
def clearNode (s : NodeSt) : Option NodeSt :=
  match s.pc with
  | .clearing w snap =>
    if w < s.q.t.nlongs then
      some { s with
        q := { s.q with t := { s.q.t with
          bitmap := fun c => if c / 64 = w then false else s.q.t.bitmap c } }
        pc := .clearing (w + 1) fun c => if c / 64 = w then s.q.t.bitmap c else snap c }
    else
      some { s with
        q := { s.q with t := { s.q.t with overflowed := false } }
        pc := .cleared (bitmapExtents snap s.q.t.chunkSectors s.q.t.nbits) }
  | _ => none

/-- `recovery.json` is written, and the recovery thread started -/
def persistNode (s : NodeSt) : Option NodeSt :=
  match s.pc with
  | .cleared es =>
    some { s.setWorker .recovery (some ⟨.idle, byteExtents es⟩) with
      files := { s.files with recovery := some es }
      pc := .started }
  | _ => none

/-- `if not self.paused() and os.path.exists(self.pending_path)` -/
def pendingTestNode (s : NodeSt) : Option NodeSt :=
  match s.pc with
  | .started =>
    match s.files.lock, s.files.pending with
    | false, some l => some { s with pc := .applying l }
    | _, _ => some { s with pc := .settled }
  | _ => none

/-- one record in the loop of `apply_pending`, or the `unlink` after it -/
def applyNode (s : NodeSt) : Option NodeSt :=
  match s.pc with
  | .applying (r :: rest) => some { s with c := s.c.applyOne r, pc := .applying rest }
  | .applying [] => some { s with files := { s.files with pending := none }, pc := .settled }
  | _ => none

/-- the end of the iteration; `mark` when `mark_consistent` is due and the freeze succeeds -/
def finishNode (s : NodeSt) (mark : Bool) : Option NodeSt :=
  match s.pc with
  | .settled =>
    some { s with
      pc := if mark && s.files.baseEnd.isSome && !s.files.lock && (s.worker .recovery).isNone &&
        !s.baseProgress then .draining else .top }
  | _ => none

/-! ## the copy threads -/

/-- the first line of `base_copy` -/
def enterNode (s : NodeSt) : Option NodeSt :=
  match s.worker .base with
  | some _ => some { s with baseProgress := true }
  | none => none

/-- the last lines: of `base_copy` `base_end_seq`, of `recover` the `unlink` -/
def NodeSt.done (s : NodeSt) : Who → NodeSt
  | .base =>
    { s.setWorker .base none with
      files := { s.files with baseEnd := some s.q.t.seqNext }
      baseProgress := false }
  | .recovery => { s.setWorker .recovery none with files := { s.files with recovery := none } }

/-- the return at `if stop` -/
def NodeSt.quit (s : NodeSt) : Who → NodeSt
  | .base => { s.setWorker .base none with baseProgress := false }
  | .recovery => s.setWorker .recovery none

/-- the next step of a copy thread; `m` is the number of bytes that `dev.read` returns -/
def workNode (cfg : NodeConfig) (s : NodeSt) (who : Who) (m : Nat) : Option NodeSt :=
  match s.worker who with
  | none => none
  | some w =>
    match w.pc, w.left with
    | .idle, (off, rem + 1) :: es =>
      if s.stop then some (s.quit who)
      else if who = .base ∧ s.baseProgress = false then none
      else
        some { s.setWorker who (some ⟨.flagged off (min (rem + 1) CopyChunk), w.left⟩) with
          c := s.c.flag off (min (rem + 1) CopyChunk) }
    | .idle, (off, 0) :: es => some (s.setWorker who (some ⟨.idle, es⟩))
    | .idle, [] =>
      if s.stop then some (s.quit who)
      else if who = .base ∧ s.baseProgress = false then none
      else some (s.done who)
    | .replaying n [], _ => some (s.setWorker who (some ⟨.idle, advance n w.left⟩))
    | pc, _ =>
      if pc.ReadOk cfg.target.size m then
        (chunkStep (decide (who = .base)) s.q.dev m s.c pc).map fun r =>
          { s.setWorker who (some ⟨r.2, w.left⟩) with c := r.1 }
      else none

/-! ## the machine -/

inductive NodeAct where
  | bio (b : Bio) (ts : Nat)
  | lock (on : Bool)
  | seedData (img : Nat → UInt8)
  | seedMark
  | start
  | crash
  | stop
  | read (k : Nat)
  | test
  | consume
  | checkSeed
  | gapTest
  | clear
  | persist
  | pendingTest
  | apply
  | finish (mark : Bool)
  | enter
  | work (who : Who) (m : Nat)

def nstep (cfg : NodeConfig) (s : NodeSt) : NodeAct → Option NodeSt
  | .bio b ts => bioNode cfg s b ts
  | .lock on => some { s with files := { s.files with lock := on } }
  | .seedData img => seedDataNode s img
  | .seedMark => seedMarkNode s
  | .start => startNode cfg s
  | .crash => crashNode s
  | .stop => if s.pc.isDown then none else some { s with stop := true }
  | .read k => readNode s k
  | .test => testNode s
  | .consume => consumeNode s
  | .checkSeed => checkSeedNode cfg s
  | .gapTest => gapTestNode s
  | .clear => clearNode s
  | .persist => persistNode s
  | .pendingTest => pendingTestNode s
  | .apply => applyNode s
  | .finish mark => finishNode s mark
  | .enter => if s.pc.isDown then none else enterNode s
  | .work who m => if s.pc.isDown then none else workNode cfg s who m

/-! ## what a step does -/

/-- the steps one by one, each with the place of the main thread that it starts from -/
inductive Stepped (cfg : NodeConfig) (s : NodeSt) : NodeAct → NodeSt → Prop
  | bio (b : Bio) (ts : Nat) : b.Ok cfg.target → Stepped cfg s (.bio b ts)
      { s with
        q := s.q.write cfg.target b ts
        dropped := s.dropped || (s.q.write cfg.target b ts).t.gapPending }
  | lock (on : Bool) : Stepped cfg s (.lock on) { s with files := { s.files with lock := on } }
  | seedData (img : Nat → UInt8) : s.files.baseEnd = none → s.worker .base = none →
      Stepped cfg s (.seedData img) { s with c := { s.c with img := img } }
  | seedMark : Stepped cfg s .seedMark { s with files := { s.files with seeded := some s.boot } }
  | start (s' : NodeSt) : s.pc = .down → startNode cfg s = some s' → Stepped cfg s .start s'
  | crash : s.pc ≠ .down → Stepped cfg s .crash s.crash
  | stop : s.pc ≠ .down → Stepped cfg s .stop { s with stop := true }
  | read (k : Nat) : s.pc = .top → s.stop = false → Stepped cfg s (.read k)
      { s with
        q := (s.q.read k).2
        pc := if (s.q.read k).1 = [] then .consumed else .called false (s.q.read k).1 }
  | drain (k : Nat) : s.pc = .draining → Stepped cfg s (.read k)
      { s with
        q := (s.q.read k).2
        pc := if (s.q.read k).1 = [] then .top else .called true (s.q.read k).1 }
  | test (drain : Bool) (batch : List Item) : s.pc = .called drain batch →
      Stepped cfg s .test { s with pc := .consuming drain s.files.lock [] batch }
  | park (drain : Bool) (parked : List Item) (r : Item) (rest : List Item) :
      s.pc = .consuming drain true parked (r :: rest) → Stepped cfg s .consume
        { s with gaps := s.gaps.note r, pc := .consuming drain true (parked ++ [r]) rest }
  | pass (drain : Bool) (parked : List Item) (r : Item) (rest : List Item) :
      s.pc = .consuming drain false parked (r :: rest) → Stepped cfg s .consume
        { s with
          gaps := s.gaps.note r
          c := s.c.applyOne r
          pc := .consuming drain false parked rest }
  | consumed (drain park : Bool) (parked : List Item) : s.pc = .consuming drain park parked [] →
      Stepped cfg s .consume
        { s with
          files := { s.files with
            pending := if parked = [] then s.files.pending
              else some (s.files.pending.getD [] ++ parked) }
          pc := if drain then .draining else .consumed }
  | adopt : s.pc = .consumed → s.seedRequired = true → s.files.seeded = some s.boot →
      Stepped cfg s .checkSeed
        { s with
          gaps := { s.gaps with queue := s.gaps.queue ++ [-1] }
          files := { s.files with baseEnd := some 0 }
          pc := .checked
          seedRequired := false }
  | fallBack (b : Nat) : s.pc = .consumed → s.seedRequired = true → s.files.seeded = some b →
      b ≠ s.boot → Stepped cfg s .checkSeed
        { s.setWorker .base (some ⟨.idle, [(0, cfg.target.size)]⟩) with
          pc := .checked
          seedRequired := false }
  | noSeed : s.pc = .consumed → Stepped cfg s .checkSeed { s with pc := .checked }
  | gap (g : Int) (queue : List Int) : s.pc = .checked → s.gaps.queue = g :: queue →
      s.worker .recovery = none → s.baseProgress = false → Stepped cfg s .gapTest
        { s with gaps := { s.gaps with queue := queue }, pc := .clearing 0 fun _ => false }
  | noGap : s.pc = .checked → Stepped cfg s .gapTest { s with pc := .started }
  | word (w : Nat) (snap : Nat → Bool) : s.pc = .clearing w snap → w < s.q.t.nlongs →
      Stepped cfg s .clear
        { s with
          q := { s.q with t := { s.q.t with
            bitmap := fun c => if c / 64 = w then false else s.q.t.bitmap c } }
          pc := .clearing (w + 1) fun c => if c / 64 = w then s.q.t.bitmap c else snap c }
  | cleared (w : Nat) (snap : Nat → Bool) : s.pc = .clearing w snap → ¬w < s.q.t.nlongs →
      Stepped cfg s .clear
        { s with
          q := { s.q with t := { s.q.t with overflowed := false } }
          pc := .cleared (bitmapExtents snap s.q.t.chunkSectors s.q.t.nbits) }
  | persist (es : List (Nat × Nat)) : s.pc = .cleared es → Stepped cfg s .persist
      { s.setWorker .recovery (some ⟨.idle, byteExtents es⟩) with
        files := { s.files with recovery := some es }
        pc := .started }
  | unpark (l : List Item) : s.pc = .started → s.files.lock = false → s.files.pending = some l →
      Stepped cfg s .pendingTest { s with pc := .applying l }
  | noPending : s.pc = .started → Stepped cfg s .pendingTest { s with pc := .settled }
  | apply (r : Item) (rest : List Item) : s.pc = .applying (r :: rest) →
      Stepped cfg s .apply { s with c := s.c.applyOne r, pc := .applying rest }
  | applied : s.pc = .applying [] →
      Stepped cfg s .apply { s with files := { s.files with pending := none }, pc := .settled }
  | freeze (mark : Bool) : s.pc = .settled → s.files.baseEnd ≠ none → s.files.lock = false →
      s.worker .recovery = none → s.baseProgress = false →
      Stepped cfg s (.finish mark) { s with pc := .draining }
  | finish (mark : Bool) : s.pc = .settled → Stepped cfg s (.finish mark) { s with pc := .top }
  | enter (w : Worker) : s.pc ≠ .down → s.worker .base = some w →
      Stepped cfg s .enter { s with baseProgress := true }
  | work (who : Who) (m : Nat) (s' : NodeSt) : s.pc ≠ .down → workNode cfg s who m = some s' →
      Stepped cfg s (.work who m) s'

section
variable {cfg : NodeConfig} {s s' : NodeSt}

theorem isDown_ne (h : ¬s.pc.isDown = true) : s.pc ≠ .down := fun e => h (NodePc.isDown_iff.mpr e)

theorem up_of {pc : NodePc} (hpc : s.pc = pc) (hup : pc.isDown = false) : s.pc ≠ .down := fun e => by
  rw [← hpc, e] at hup
  cases hup

theorem step_cases {a : NodeAct} (h : nstep cfg s a = some s') : Stepped cfg s a s' := by
  cases a with
  | bio b ts =>
    change bioNode cfg s b ts = some s' at h
    unfold bioNode at h
    split at h
    · rename_i hok
      exact Option.some.inj h ▸ .bio b ts hok
    · cases h
  | lock on => exact Option.some.inj h ▸ .lock on
  | seedData img =>
    change seedDataNode s img = some s' at h
    unfold seedDataNode at h
    split at h
    · rename_i hc
      exact Option.some.inj h ▸ .seedData img hc.1 hc.2
    · cases h
  | seedMark => exact Option.some.inj h ▸ .seedMark
  | start =>
    refine .start s' ?_ h
    change startNode cfg s = some s' at h
    unfold startNode at h
    split at h
    · assumption
    · cases h
  | crash =>
    change crashNode s = some s' at h
    unfold crashNode at h
    split at h
    · cases h
    · rename_i hpc
      exact Option.some.inj h ▸ .crash hpc
  | stop =>
    change (if s.pc.isDown then none else some { s with stop := true }) = some s' at h
    split at h
    · cases h
    · rename_i hpc
      exact Option.some.inj h ▸ .stop (isDown_ne hpc)
  | read k =>
    change readNode s k = some s' at h
    unfold readNode at h
    dsimp only at h
    split at h
    · rename_i hpc
      split at h
      · cases h
      · rename_i hst
        exact Option.some.inj h ▸ .read k hpc (Bool.not_eq_true _ ▸ hst)
    · rename_i hpc
      exact Option.some.inj h ▸ .drain k hpc
    · cases h
  | test =>
    change testNode s = some s' at h
    unfold testNode at h
    split at h
    · rename_i drain batch hpc
      exact Option.some.inj h ▸ .test drain batch hpc
    · cases h
  | consume =>
    change consumeNode s = some s' at h
    unfold consumeNode at h
    split at h
    · rename_i drain parked r rest hpc
      exact Option.some.inj h ▸ .park drain parked r rest hpc
    · rename_i drain parked r rest hpc
      exact Option.some.inj h ▸ .pass drain parked r rest hpc
    · rename_i drain park parked hpc
      exact Option.some.inj h ▸ .consumed drain park parked hpc
    · cases h
  | checkSeed =>
    change checkSeedNode cfg s = some s' at h
    unfold checkSeedNode at h
    split at h
    · rename_i hpc
      split at h
      · rename_i b hreq hseed
        split at h
        · rename_i hb
          exact Option.some.inj h ▸ .adopt hpc hreq (hb ▸ hseed)
        · rename_i hb
          exact Option.some.inj h ▸ .fallBack b hpc hreq hseed hb
      · exact Option.some.inj h ▸ .noSeed hpc
    · cases h
  | gapTest =>
    change gapTestNode s = some s' at h
    unfold gapTestNode at h
    split at h
    · rename_i hpc
      split at h
      · rename_i g queue hq hw hb
        exact Option.some.inj h ▸ .gap g queue hpc hq hw hb
      · exact Option.some.inj h ▸ .noGap hpc
    · cases h
  | clear =>
    change clearNode s = some s' at h
    unfold clearNode at h
    split at h
    · rename_i w snap hpc
      split at h
      · rename_i hw
        exact Option.some.inj h ▸ .word w snap hpc hw
      · rename_i hw
        exact Option.some.inj h ▸ .cleared w snap hpc hw
    · cases h
  | persist =>
    change persistNode s = some s' at h
    unfold persistNode at h
    split at h
    · rename_i es hpc
      exact Option.some.inj h ▸ .persist es hpc
    · cases h
  | pendingTest =>
    change pendingTestNode s = some s' at h
    unfold pendingTestNode at h
    split at h
    · rename_i hpc
      split at h
      · rename_i l hl hp
        exact Option.some.inj h ▸ .unpark l hpc hl hp
      · exact Option.some.inj h ▸ .noPending hpc
    · cases h
  | apply =>
    change applyNode s = some s' at h
    unfold applyNode at h
    split at h
    · rename_i r rest hpc
      exact Option.some.inj h ▸ .apply r rest hpc
    · rename_i hpc
      exact Option.some.inj h ▸ .applied hpc
    · cases h
  | finish mark =>
    change finishNode s mark = some s' at h
    unfold finishNode at h
    split at h
    · rename_i hpc
      obtain rfl := Option.some.inj h
      by_cases hc : (mark && s.files.baseEnd.isSome && !s.files.lock && (s.worker .recovery).isNone &&
          !s.baseProgress) = true
      · rw [if_pos hc]
        simp only [Bool.and_eq_true, Option.isSome_iff_ne_none, Option.isNone_iff_eq_none,
          Bool.not_eq_true'] at hc
        obtain ⟨⟨⟨⟨_, hb⟩, hl⟩, hr⟩, hp⟩ := hc
        exact .freeze mark hpc hb hl hr hp
      · rw [if_neg hc]
        exact .finish mark hpc
    · cases h
  | enter =>
    change (if s.pc.isDown then none else enterNode s) = some s' at h
    unfold enterNode at h
    split at h
    · cases h
    · rename_i hpc
      split at h
      · rename_i w hw
        exact Option.some.inj h ▸ .enter w (isDown_ne hpc) hw
      · cases h
  | work who m =>
    change (if s.pc.isDown then none else workNode cfg s who m) = some s' at h
    split at h
    · cases h
    · rename_i hpc
      exact .work who m s' (isDown_ne hpc) h

end

end CDP
