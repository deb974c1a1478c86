import DmCdp.Daemon.Reboot

/-!
# Attempts of `rkcdp-seed`, and the adoption of the seed

`main` of `rkcdp-seed` step by step, with the loop of `dd`s that it starts on the host and that may
outlive it, the node that reboots under both, and the daemon that adopts the seed.

* `Script`, `ddStep`   the loop on the host;
* `Resume`             the `resume` of `seed.json`, with (ghost) the boot of its oldest chunk;
* `attemptStep`        the steps of an attempt, of the hosts' scripts, of the node;
* `SeedComplete`       what `check_seed` relies on where it adopts the seed;
* `SeedOk`             what a step must not do;
* `seed_complete`      a run that keeps to it adopts complete seeds; bios are single steps;
* `seed_stale`         the runs with a failed `disk_size`, with a resume from an earlier boot, and
                       with a chunk of zeros that `dd` does not write.
-/

set_option linter.unusedVariables false

namespace CDP
open Img Mach

/-! ## the copy on the host -/

/-- `CH = 64 << 20` -/
def CH : Nat := 67108864

/-- `nchunks = (total + CH - 1) // CH` -/
def nchunksOf (total : Nat) : Nat := (total + CH - 1) / CH

/-- `for i in $(seq start last)`: `next` is `$i`, and `last` is `nchunks`.  Of the `dd` of chunk `next`
what it has read, and how much of that it has written. -/
structure Script where
  next : Nat
  last : Nat
  buf : List UInt8
  put : Nat
  -- ghost: the boot in which `dd` began to read
  boot : Nat

def Script.off (sc : Script) : Nat := sc.next * CH

/-- what `iflag=fullblock` with `count=1` reads of the disk -/
def Script.len (cfg : NodeConfig) (sc : Script) : Nat := min CH (cfg.target.size - sc.off)

inductive DdAct where
  | read (m : Nat)
  | write (m : Nat)
  | echo

/-- the next step of the script; `conv=sparse` does not write a block of zeros -/
def ddStep (cfg : NodeConfig) (n : NodeSt) (sc : Script) : DdAct → Option (NodeSt × Script)
  | .read m =>
    if sc.next < sc.last ∧ sc.buf.length + m ≤ sc.len cfg then
      some (n, { sc with
        buf := sc.buf ++ slice n.q.dev (sc.off + sc.buf.length) m
        boot := if sc.buf = [] then n.boot else sc.boot })
    else none
  | .write m =>
    if sc.next < sc.last ∧ sc.buf.length = sc.len cfg ∧ allZero sc.buf = false ∧
        sc.put + m ≤ sc.buf.length then
      some ({ n with
        c := { n.c with img := pwrite n.c.img ((sc.buf.drop sc.put).take m) (sc.off + sc.put) } },
        { sc with put := sc.put + m })
    else none
  | .echo =>
    if sc.next < sc.last ∧ sc.buf.length = sc.len cfg ∧
        (allZero sc.buf = true ∨ sc.put = sc.buf.length) then
      some (n, { sc with next := sc.next + 1, buf := [], put := 0 })
    else none

/-! ## the attempts -/

/-- the `resume` of `seed.json`, which the running attempt has in memory too -/
structure Resume where
  host : String
  vmid : Nat
  total : Nat
  chunk : Nat
  -- ghost: the boot in which the first of these chunks was copied
  since : Nat

/-- where `main` is; `line` is the next one of `p.stdout`, and `base` the `base_end_seq` that
`load_json` has found -/
inductive AttemptPc where
  | located
  | copying (line : Nat) (sc : Script)
  | copied
  | loaded (base : Option Nat)
  | waiting

structure Attempt where
  host : String
  vmid : Nat
  total : Nat
  -- ghost: as in `Resume`
  since : Nat
  pc : AttemptPc

structure SeedSt where
  n : NodeSt
  resume : Option Resume
  proc : Option Attempt
  -- scripts whose attempt is gone
  orphans : List Script

def SeedSt.init (cfg : NodeConfig) (dev img : Nat → UInt8) : SeedSt := ⟨.init cfg dev img, none, none, []⟩

/-- the `resume` that goes on, if it is of this disk -/
def Attempt.resumes (p : Attempt) (r : Option Resume) : Option Resume :=
  r.filter fun r => r.host == p.host && r.vmid == p.vmid && r.total == p.total

/-- `start`, and the script from there on -/
def popenStep (s : SeedSt) : Option SeedSt :=
  match s.proc with
  | some ⟨host, vmid, total, since, .located⟩ =>
    let p : Attempt := ⟨host, vmid, total, since, .located⟩
    match p.resumes s.resume with
    | some r =>
      some { s with
        proc := some { p with
          since := r.since
          pc := .copying (r.chunk + 1) ⟨r.chunk + 1, nchunksOf total, [], 0, s.n.boot⟩ } }
    | none =>
      some { s with
        proc := some { p with
          since := s.n.boot
          pc := .copying 0 ⟨0, nchunksOf total, [], 0, s.n.boot⟩ } }
  | _ => none

/-- a line of the script is read; not each of them makes a `progress("copy")` -/
def lineStep (s : SeedSt) (report : Bool) : Option SeedSt :=
  match s.proc with
  | some ⟨host, vmid, total, since, .copying line sc⟩ =>
    if line < sc.next then
      some { s with
        proc := some ⟨host, vmid, total, since, .copying (line + 1) sc⟩
        resume := if report then some ⟨host, vmid, total, line, since⟩ else s.resume }
    else none
  | _ => none

/-- `p.wait()` returns 0 -/
def waitStep (s : SeedSt) : Option SeedSt :=
  match s.proc with
  | some ⟨host, vmid, total, since, .copying line sc⟩ =>
    if sc.last ≤ sc.next ∧ line = sc.next then
      some { s with proc := some ⟨host, vmid, total, since, .copied⟩ }
    else none
  | _ => none

/-- `load_json(mp, {}) or {}`; `ok` is false where it takes the default -/
def loadStep (s : SeedSt) (ok : Bool) : Option SeedSt :=
  match s.proc with
  | some ⟨host, vmid, total, since, .copied⟩ =>
    some { s with
      proc := some ⟨host, vmid, total, since, .loaded (if ok then s.n.files.baseEnd else none)⟩ }
  | _ => none

/-- `manifest.json` is written, with `seeded` -/
def seededStep (s : SeedSt) : Option SeedSt :=
  match s.proc with
  | some ⟨host, vmid, total, since, .loaded base⟩ =>
    some { s with
      n := { s.n with files := { s.n.files with seeded := some s.n.boot, baseEnd := base } }
      proc := some ⟨host, vmid, total, since, .waiting⟩ }
  | _ => none

/-- `status.json` says `CDP`: `resume.clear()` -/
def doneStep (s : SeedSt) : Option SeedSt :=
  match s.proc with
  | some ⟨_, _, _, _, .waiting⟩ => some { s with resume := none, proc := none }
  | _ => none

def SeedSt.leave (s : SeedSt) : SeedSt :=
  match s.proc with
  | some ⟨_, _, _, _, .copying _ sc⟩ => { s with proc := none, orphans := sc :: s.orphans }
  | _ => { s with proc := none }

def ownStep (cfg : NodeConfig) (s : SeedSt) (d : DdAct) : Option SeedSt :=
  match s.proc with
  | some ⟨host, vmid, total, since, .copying line sc⟩ =>
    (ddStep cfg s.n sc d).map fun r =>
      { s with n := r.1, proc := some ⟨host, vmid, total, since, .copying line r.2⟩ }
  | _ => none

def orphanStep (cfg : NodeConfig) (s : SeedSt) (k : Nat) (d : DdAct) : Option SeedSt :=
  match s.orphans[k]? with
  | some sc => (ddStep cfg s.n sc d).map fun r => { s with n := r.1, orphans := s.orphans.set k r.2 }
  | none => none

inductive SeedAct where
  | node (a : NodeAct)
  | reboot (dev : Nat → UInt8)
  | attempt (host : String) (vmid total : Nat)
  | popen
  | own (d : DdAct)
  | orphan (k : Nat) (d : DdAct)
  | line (report : Bool)
  | wait
  | load (ok : Bool)
  | mark
  | done
  | interrupt

/-- `total` is what `disk_size` returns.  The steps `seedData` and `seedMark` of the node, which stand
for `rkcdp-seed` there, are not taken here. -/
def attemptStep (cfg : NodeConfig) (s : SeedSt) : SeedAct → Option SeedSt
  | .node (.seedData _) => none
  | .node .seedMark => none
  | .node a => (nstep cfg s.n a).map fun n => { s with n := n }
  | .reboot dev => some { s.leave with n := s.n.reboot cfg dev }
  | .attempt host vmid total =>
    match s.proc with
    | none => some { s with proc := some ⟨host, vmid, total, s.n.boot, .located⟩ }
    | some _ => none
  | .popen => popenStep s
  | .own d => ownStep cfg s d
  | .orphan k d => orphanStep cfg s k d
  | .line report => lineStep s report
  | .wait => waitStep s
  | .load ok => loadStep s ok
  | .mark => seededStep s
  | .done => doneStep s
  | .interrupt => some s.leave

/-! ## the property -/

/-- `check_seed` is about to adopt the seed -/
def NodeSt.Adopts (n : NodeSt) : Prop :=
  n.pc = .consumed ∧ n.seedRequired = true ∧ n.files.seeded = some n.boot

/-- records that are not consumed: read from the ring already, or not -/
def NodeSt.unconsumed (n : NodeSt) : List Item := n.pc.hand ++ n.q.unread

/-- a byte that differs from the disk is marked, or in the range of a record to come -/
def SeedComplete (cfg : NodeConfig) (s : SeedSt) : Prop :=
  s.n.Adopts → ∀ x, x < cfg.target.size → s.n.c.img x ≠ s.n.q.dev x →
    s.n.q.t.bitmap (cfg.target.chunkOf x) = true ∨
      ∃ r ∈ s.n.unconsumed, r.first ≤ x ∧ x < r.stop

/-! ## the condition -/

def Attempt.Copied (p : Attempt) (x : Nat) : Prop :=
  match p.pc with
  | .copying _ sc => x < sc.off + sc.put
  | .copied | .loaded _ => x < nchunksOf p.total * CH
  | .located | .waiting => False

/-- byte `x` has been copied in this boot, by the attempts that the next `seeded` will vouch for -/
inductive SeedSt.Counted (s : SeedSt) (x : Nat) : Prop
  | seeded : s.n.files.seeded = some s.n.boot → Counted s x
  | resume (r : Resume) : s.resume = some r → r.since = s.n.boot → x < (r.chunk + 1) * CH →
      Counted s x
  | attempt (p : Attempt) : s.proc = some p → p.since = s.n.boot → p.Copied x → Counted s x

/-- `v` is what the disk holds at `x`, or the byte is marked -/
def NodeSt.Current (cfg : NodeConfig) (n : NodeSt) (x : Nat) (v : UInt8) : Prop :=
  v = n.q.dev x ∨ n.q.t.bitmap (cfg.target.chunkOf x) = true

def SeedSt.Runs (s : SeedSt) (sc : Script) : Prop :=
  (∃ p line, s.proc = some p ∧ p.pc = .copying line sc) ∨ sc ∈ s.orphans

/-- `v` is the value of byte `x` in the replica where that counts, in the buffer of a `dd` that has
read it in this boot, or in the buffer of a copy thread -/
inductive SeedSt.Held (s : SeedSt) (x : Nat) (v : UInt8) : Prop
  | counted : s.Counted x → v = s.n.c.img x → Held s x v
  | script (sc : Script) : s.Runs sc → sc.boot = s.n.boot → sc.off ≤ x →
      x < sc.off + sc.buf.length → v = sc.buf.getD (x - sc.off) default → Held s x v
  | thread (who : Who) (off k : Nat) (buf : List UInt8) :
      pcOf (s.n.worker who) = .holding off k buf → off ≤ x → x < off + buf.length →
      v = buf.getD (x - off) default → Held s x v

/-- What a step must not do before `base_end_seq` is there.  `applies`: a record that is applied over
what has been copied is marked, or current.  `clear`: no bit is cleared of what has been copied or is
being copied and has changed since.  `echo`: a block of zeros is skipped over zeros.  `write`: a
`dd` of an earlier boot does not write what has been copied in this one.  `mark`: all chunks were
copied in this boot, and they are the whole disk; and no `base_end_seq` is lost. -/
def SeedOk (cfg : NodeConfig) (s : SeedSt) : SeedAct → Prop
  | .node a => s.n.files.baseEnd = none →
      (∀ r, s.n.applies a = some r → ¬s.n.c.Defers r → ∀ x v, x < cfg.target.size → s.Counted x →
        r.patch x = some v → s.n.Current cfg x v) ∧
      (a = .clear → ∀ w snap, s.n.pc = .clearing w snap → ∀ x v, x < cfg.target.size →
        cfg.target.chunkOf x / 64 = w → s.n.q.t.bitmap (cfg.target.chunkOf x) = true → s.Held x v →
        v = s.n.q.dev x)
  | .own .echo => s.n.files.baseEnd = none → ∀ p line sc, s.proc = some p → p.pc = .copying line sc →
      p.since = s.n.boot → allZero sc.buf = true → ∀ x, sc.off ≤ x → x < sc.off + sc.len cfg →
      s.n.c.img x = 0 ∨ s.n.q.t.bitmap (cfg.target.chunkOf x) = true
  | .orphan k (.write m) => s.n.files.baseEnd = none → ∀ sc, s.orphans[k]? = some sc →
      sc.boot = s.n.boot ∨ ∀ x, sc.off + sc.put ≤ x → x < sc.off + sc.put + m → s.Counted x →
        s.n.Current cfg x (sc.buf.getD (x - sc.off) default)
  | .mark => ∀ p base, s.proc = some p → p.pc = .loaded base →
      base = s.n.files.baseEnd ∧
        (base = none → p.since = s.n.boot ∧ cfg.target.size ≤ nchunksOf p.total * CH)
  | _ => True

/-! ## the invariant -/

structure SeedInv (cfg : NodeConfig) (s : SeedSt) : Prop where
  shape : s.n.q.Shape cfg.target
  based : Based s.n
  -- no stamp is of a boot to come
  seeded : ∀ b, s.n.files.seeded = some b → b ≤ s.n.boot
  resume : ∀ r, s.resume = some r → r.since ≤ s.n.boot
  since : ∀ p, s.proc = some p → p.since ≤ s.n.boot
  script : ∀ sc, s.Runs sc → sc.boot ≤ s.n.boot
  -- an attempt does not outlive its boot
  own : ∀ p line sc, s.proc = some p → p.pc = .copying line sc →
    sc.boot = s.n.boot ∧ sc.last = nchunksOf p.total
  held : s.n.files.baseEnd = none → ∀ x v, x < cfg.target.size → s.Held x v → s.n.Current cfg x v

section
variable {cfg : NodeConfig} {s s' : SeedSt} {n' : NodeSt}

theorem counted_node {x : Nat} (hb : n'.boot = s.n.boot)
    (hs : n'.files.seeded = s.n.files.seeded) (h : SeedSt.Counted { s with n := n' } x) :
    s.Counted x := by
  cases h with
  | seeded h1 => exact .seeded (hs.symm.trans (h1.trans (congrArg some hb)))
  | resume r h1 h2 h3 => exact .resume r h1 (h2.trans hb) h3
  | attempt p h1 h2 h3 => exact .attempt p h1 (h2.trans hb) h3

/-- **A step of the node** that keeps the disk and the bits, and gives what counts only values that
are current. -/
theorem SeedInv.keep (h : SeedInv cfg s) (hq : n'.q.Shape cfg.target) (hbase : Based n')
    (hboot : n'.boot = s.n.boot) (hseed : n'.files.seeded = s.n.files.seeded)
    (hnone : n'.files.baseEnd = none → s.n.files.baseEnd = none) (hdev : n'.q.dev = s.n.q.dev)
    (hbits : n'.q.t.bitmap = s.n.q.t.bitmap)
    (himg : s.n.files.baseEnd = none → ∀ x, x < cfg.target.size → s.Counted x →
      s.n.Current cfg x (n'.c.img x))
    (hthread : ∀ who off k buf, pcOf (n'.worker who) = .holding off k buf →
      pcOf (s.n.worker who) = .holding off k buf ∨ ∃ m, buf = slice s.n.q.dev off m) :
    SeedInv cfg { s with n := n' } := by
  refine ⟨hq, hbase, ?_, ?_, ?_, ?_, ?_, fun hn x v hx hv => ?_⟩
  · rw [hboot, hseed]
    exact h.seeded
  · rw [hboot]
    exact h.resume
  · rw [hboot]
    exact h.since
  · rw [hboot]
    exact h.script
  · rw [hboot]
    exact h.own
  · unfold NodeSt.Current
    rw [hdev, hbits]
    have hn := hnone hn
    cases hv with
    | counted hc he => exact he ▸ himg hn x hx (counted_node hboot hseed hc)
    | script sc h1 h2 h3 h4 h5 => exact h.held hn x v hx (.script sc h1 (h2.trans hboot) h3 h4 h5)
    | thread who off k buf h1 h2 h3 h4 =>
      rcases hthread who off k buf h1 with h1 | ⟨m, rfl⟩
      · exact h.held hn x v hx (.thread who off k buf h1 h2 h3 h4)
      · rw [length_slice] at h3
        rw [slice_getD s.n.q.dev (by omega : x - off < m), Nat.add_sub_cancel' h2] at h4
        exact Or.inl h4

theorem SeedInv.still (h : SeedInv cfg s) (hbase : Based n') (hboot : n'.boot = s.n.boot)
    (hseed : n'.files.seeded = s.n.files.seeded)
    (hnone : n'.files.baseEnd = none → s.n.files.baseEnd = none) (hq : n'.q = s.n.q)
    (himg : n'.c.img = s.n.c.img)
    (hthread : ∀ who, n'.worker who = s.n.worker who ∨ pcOf (n'.worker who) = .idle) :
    SeedInv cfg { s with n := n' } := by
  refine h.keep (hq ▸ h.shape) hbase hboot hseed hnone (by rw [hq]) (by rw [hq]) ?_ ?_
  · intro hn x hx hc
    rw [himg]
    exact h.held hn x _ hx (.counted hc rfl)
  · intro who off k buf e
    rcases hthread who with hw | hw
    · exact Or.inl (hw ▸ e)
    · exact absurd (hw.symm.trans e) (by simp)

theorem current_wrote {b : Bio} {q : Feed} {x : Nat} {v : UInt8} (hm : Marked cfg.target b s.n.q q)
    (hq : n'.q = q) (h : s.n.Current cfg x v) : n'.Current cfg x v := by
  unfold NodeSt.Current
  rw [hq]
  by_cases he : b.effect cfg.target x = none
  · refine h.imp (fun e => ?_) fun e => hm.mono _ e
    rw [hm.dev, overlay_none he]
    exact e
  · exact Or.inr (hm.bit x he).1

theorem applied_current {r : Item} {x : Nat} (hx : s.n.Current cfg x (s.n.c.img x))
    (hr : ¬s.n.c.Defers r → ∀ v, r.patch x = some v → s.n.Current cfg x v) :
    s.n.Current cfg x ((s.n.c.applyOne r).img x) := by
  by_cases hd : s.n.c.Defers r
  · rw [applyOne_defers hd]
    exact hx
  · rw [(applyOne_direct hd).1]
    cases hp : r.patch x with
    | none =>
      rw [overlay_none hp]
      exact hx
    | some v =>
      rw [overlay_some hp]
      exact hr hd v hp

theorem SeedInv.applied {r : Item} (h : SeedInv cfg s) (hbase : Based n')
    (hr : s.n.files.baseEnd = none → ¬s.n.c.Defers r → ∀ x v, x < cfg.target.size → s.Counted x →
      r.patch x = some v → s.n.Current cfg x v)
    (hboot : n'.boot = s.n.boot) (hfiles : n'.files = s.n.files) (hq : n'.q = s.n.q)
    (hc : n'.c = s.n.c.applyOne r)
    (hthread : ∀ who off k buf, pcOf (n'.worker who) = .holding off k buf →
      pcOf (s.n.worker who) = .holding off k buf) : SeedInv cfg { s with n := n' } := by
  refine h.keep (hq ▸ h.shape) hbase hboot (by rw [hfiles]) (by rw [hfiles]; exact id) (by rw [hq])
    (by rw [hq]) (fun hn x hx hcount => ?_) fun who off k buf e => Or.inl (hthread who off k buf e)
  rw [hc]
  exact applied_current (h.held hn x _ hx (.counted hcount rfl))
    fun hd v hv => hr hn hd x v hx hcount hv

/-- a step that takes bits away, and no others than those of values that are current -/
theorem SeedInv.cleared (h : SeedInv cfg s) (hq : n'.q.Shape cfg.target) (hbase : Based n')
    (hboot : n'.boot = s.n.boot) (hfiles : n'.files = s.n.files) (hdev : n'.q.dev = s.n.q.dev)
    (himg : n'.c = s.n.c) (hw : n'.worker = s.n.worker)
    (hbits : s.n.files.baseEnd = none → ∀ x v, x < cfg.target.size → s.Held x v →
      s.n.q.t.bitmap (cfg.target.chunkOf x) = true →
      n'.q.t.bitmap (cfg.target.chunkOf x) = true ∨ v = s.n.q.dev x) :
    SeedInv cfg { s with n := n' } := by
  refine ⟨hq, hbase, ?_, ?_, ?_, ?_, ?_, fun hn x v hx hv => ?_⟩
  · rw [hboot, hfiles]
    exact h.seeded
  · rw [hboot]
    exact h.resume
  · rw [hboot]
    exact h.since
  · rw [hboot]
    exact h.script
  · rw [hboot]
    exact h.own
  · change n'.files.baseEnd = none at hn
    rw [hfiles] at hn
    have hold : s.Held x v := by
      cases hv with
      | counted hc he =>
        exact .counted (counted_node hboot (by rw [hfiles]) hc) (he.trans (by rw [himg]))
      | script sc h1 h2 h3 h4 h5 => exact .script sc h1 (h2.trans hboot) h3 h4 h5
      | thread who off k buf h1 h2 h3 h4 => exact .thread who off k buf (hw ▸ h1) h2 h3 h4
    show v = n'.q.dev x ∨ n'.q.t.bitmap (cfg.target.chunkOf x) = true
    rw [hdev]
    rcases h.held hn x v hx hold with e | e
    · exact Or.inl e
    · exact (hbits hn x v hx hold e).symm

theorem setWorker_idle (n : NodeSt) (who v : Who) {o : Option Worker} (ho : pcOf o = .idle) :
    (n.setWorker who o).worker v = n.worker v ∨ pcOf ((n.setWorker who o).worker v) = .idle := by
  show Function.update n.worker who o v = _ ∨ pcOf (Function.update n.worker who o v) = .idle
  by_cases hv : v = who
  · rw [hv, Function.update_self]
    exact Or.inr ho
  · rw [Function.update_of_ne hv]
    exact Or.inl rfl

theorem setWorker_holding {n : NodeSt} {who v : Who} {pc : ChunkPc} {left : List (Nat × Nat)}
    {off k : Nat} {buf : List UInt8} (hpc : ∀ off k buf, pc ≠ .holding off k buf)
    (e : pcOf ((n.setWorker who (some ⟨pc, left⟩)).worker v) = .holding off k buf) :
    pcOf (n.worker v) = .holding off k buf := by
  change pcOf (Function.update n.worker who (some ⟨pc, left⟩) v) = _ at e
  by_cases hv : v = who
  · rw [hv, Function.update_self] at e
    exact absurd e (hpc off k buf)
  · rw [Function.update_of_ne hv] at e
    exact e

theorem SeedInv.chunk {who : Who} {m : Nat} {w : Worker} {c : Shared} {pc : ChunkPc}
    (h : SeedInv cfg s) (hw : s.n.worker who = some w)
    (hbase : Based { s.n.setWorker who (some ⟨pc, w.left⟩) with c := c })
    (hg : SeedOk cfg s (.node (.work who m)))
    (hst : chunkStep (decide (who = .base)) s.n.q.dev m s.n.c w.pc = some (c, pc)) :
    SeedInv cfg { s with n := { s.n.setWorker who (some ⟨pc, w.left⟩) with c := c } } := by
  obtain ⟨wpc, left⟩ := w
  have hpcw : pcOf (s.n.worker who) = wpc := by rw [hw]; rfl
  cases wpc with
  | idle => cases hst
  | flagged off k =>
    change (if m ≤ k then some (s.n.c, ChunkPc.holding off k (slice s.n.q.dev off m)) else none) = _
      at hst
    split at hst
    · obtain ⟨rfl, rfl⟩ := Prod.mk.inj (Option.some.inj hst)
      refine h.keep h.shape hbase rfl rfl id rfl rfl
        (fun hn x hx hc => h.held hn x _ hx (.counted hc rfl)) fun v off' k' buf e => ?_
      change pcOf (Function.update s.n.worker who _ v) = _ at e
      by_cases hv : v = who
      · rw [hv, Function.update_self] at e
        cases e
        exact Or.inr ⟨m, rfl⟩
      · rw [Function.update_of_ne hv] at e
        exact Or.inl e
    · cases hst
  | holding off k buf =>
    obtain ⟨rfl, rfl⟩ := Prod.mk.inj (Option.some.inj hst)
    refine h.keep h.shape hbase rfl rfl id rfl rfl (fun hn x hx hc => ?_)
      fun v off' k' buf' e => Or.inl (setWorker_holding (fun _ _ _ e => by cases e) e)
    show s.n.Current cfg x ((s.n.c.store (decide (who = .base)) off buf).img x)
    unfold Shared.store
    split
    · by_cases hin : off ≤ x ∧ x < off + buf.length
      · obtain ⟨i, rfl⟩ := Nat.exists_eq_add_of_le hin.1
        show s.n.Current cfg _ (putList s.n.c.img off buf (off + i))
        rw [putList_in (by omega)]
        refine h.held hn _ _ hx (.thread who off k buf hpcw hin.1 hin.2 ?_)
        rw [Nat.add_sub_cancel_left]
      · show s.n.Current cfg x (putList s.n.c.img off buf x)
        rw [putList_out hin]
        exact h.held hn x _ hx (.counted hc rfl)
    · exact h.held hn x _ hx (.counted hc rfl)
  | stored off k j =>
    obtain ⟨rfl, rfl⟩ := Prod.mk.inj (Option.some.inj hst)
    exact h.keep h.shape hbase rfl rfl id rfl rfl
      (fun hn x hx hc => h.held hn x _ hx (.counted hc rfl))
      fun v off' k' buf' e => Or.inl (setWorker_holding (fun _ _ _ e => by cases e) e)
  | replaying j late =>
    cases late with
    | nil => cases hst
    | cons r late =>
      obtain ⟨rfl, rfl⟩ := Prod.mk.inj (Option.some.inj hst)
      refine h.applied (r:=r) hbase (fun hn => (hg hn).1 r ?_) rfl rfl rfl rfl
        fun v off' k' buf' e => setWorker_holding (fun _ _ _ e => by cases e) e
      unfold NodeSt.applies
      dsimp only
      rw [hpcw]

theorem SeedInv.work {who : Who} {m : Nat} (h : SeedInv cfg s) (hbase : Based n')
    (hg : SeedOk cfg s (.node (.work who m))) (hs : workNode cfg s.n who m = some n') :
    SeedInv cfg { s with n := n' } := by
  obtain ⟨w, hw, hwk⟩ := work_cases hs
  cases hwk with
  | quit _ _ =>
    cases who with
    | base => exact h.still hbase rfl rfl id rfl rfl fun v => setWorker_idle s.n .base v rfl
    | recovery => exact h.still hbase rfl rfl id rfl rfl fun v => setWorker_idle s.n .recovery v rfl
  | begin off rem es hpc _ _ =>
    exact h.keep h.shape hbase rfl rfl id rfl rfl
      (fun hn x hx hc => h.held hn x _ hx (.counted hc rfl))
      fun v off' k' buf' e => Or.inl (setWorker_holding (fun _ _ _ e => by cases e) e)
  | next off es hpc _ => exact h.still hbase rfl rfl id rfl rfl fun v => setWorker_idle s.n who v rfl
  | done hpc _ _ =>
    cases who with
    | base =>
      refine h.still hbase rfl rfl (fun e => ?_) rfl rfl fun v => setWorker_idle s.n .base v rfl
      cases e
    | recovery => exact h.still hbase rfl rfl id rfl rfl fun v => setWorker_idle s.n .recovery v rfl
  | finish k hpc => exact h.still hbase rfl rfl id rfl rfl fun v => setWorker_idle s.n who v rfl
  | chunk c pc _ hst => exact h.chunk hw hbase hg hst

theorem SeedInv.node {a : NodeAct} (h : SeedInv cfg s) (hg : SeedOk cfg s (.node a))
    (hdata : ∀ img, a ≠ .seedData img) (hmark : a ≠ .seedMark) (hs : nstep cfg s.n a = some n') :
    SeedInv cfg { s with n := n' } := by
  have hb := h.based.step hs
  have himg : s.n.files.baseEnd = none → ∀ x, x < cfg.target.size → s.Counted x →
      s.n.Current cfg x (s.n.c.img x) := fun hn x hx hc => h.held hn x _ hx (.counted hc rfl)
  cases step_cases hs with
  | bio b ts hok =>
    obtain ⟨hm, _⟩ := Feed.write_cases ts h.shape hok
    refine ⟨hm.shape, hb, h.seeded, h.resume, h.since, h.script, h.own, fun hn x v hx hv => ?_⟩
    refine current_wrote (s:=s) hm rfl (h.held hn x v hx ?_)
    cases hv with
    | counted hc he =>
      refine .counted (counted_node (s:=s) ?_ ?_ hc) he
      · rfl
      · rfl
    | script sc h1 h2 h3 h4 h5 => exact .script sc h1 h2 h3 h4 h5
    | thread who off k buf h1 h2 h3 h4 => exact .thread who off k buf h1 h2 h3 h4
  | lock on => exact h.still hb rfl rfl id rfl rfl fun _ => Or.inl rfl
  | seedData img _ _ => exact absurd rfl (hdata img)
  | seedMark => exact absurd rfl hmark
  | start _ _ hst =>
    unfold startNode at hst
    split at hst
    · obtain rfl := Option.some.inj hst
      refine h.keep ⟨h.shape.chunk, h.shape.nbits⟩ hb rfl rfl id rfl rfl himg fun who _ _ _ e => ?_
      exact absurd ((workers_idle _ _ _ who).symm.trans e) (by simp)
    · cases hst
  | crash _ => exact h.still hb rfl rfl id rfl rfl fun _ => Or.inr rfl
  | stop _ => exact h.still hb rfl rfl id rfl rfl fun _ => Or.inl rfl
  | read k _ _ =>
    obtain ⟨_, hdev, tail, ht⟩ := Feed.read_cases k s.n.q
    exact h.keep (h.shape.read k) hb rfl rfl id hdev (by dsimp only; rw [ht]) himg
      fun _ _ _ _ e => Or.inl e
  | drain k _ =>
    obtain ⟨_, hdev, tail, ht⟩ := Feed.read_cases k s.n.q
    exact h.keep (h.shape.read k) hb rfl rfl id hdev (by dsimp only; rw [ht]) himg
      fun _ _ _ _ e => Or.inl e
  | test drain batch _ => exact h.still hb rfl rfl id rfl rfl fun _ => Or.inl rfl
  | park drain parked r rest _ => exact h.still hb rfl rfl id rfl rfl fun _ => Or.inl rfl
  | pass drain parked r rest hpc =>
    refine h.applied (r:=r) hb (fun hn => (hg hn).1 r ?_) rfl rfl rfl rfl fun _ _ _ _ e => e
    unfold NodeSt.applies
    rw [hpc]
  | consumed drain park parked _ => exact h.still hb rfl rfl id rfl rfl fun _ => Or.inl rfl
  | adopt _ _ _ => exact h.still hb rfl rfl (fun e => by cases e) rfl rfl fun _ => Or.inl rfl
  | fallBack b _ _ _ _ => exact h.still hb rfl rfl id rfl rfl fun v => setWorker_idle s.n .base v rfl
  | noSeed _ => exact h.still hb rfl rfl id rfl rfl fun _ => Or.inl rfl
  | gap g queue _ _ _ _ => exact h.still hb rfl rfl id rfl rfl fun _ => Or.inl rfl
  | noGap _ => exact h.still hb rfl rfl id rfl rfl fun _ => Or.inl rfl
  | word w snap hpc _ =>
    refine h.cleared ⟨h.shape.chunk, h.shape.nbits⟩ hb rfl rfl rfl rfl rfl fun hn x v hx hv e => ?_
    show (if cfg.target.chunkOf x / 64 = w then false else s.n.q.t.bitmap (cfg.target.chunkOf x))
      = true ∨ _
    by_cases hw : cfg.target.chunkOf x / 64 = w
    · exact Or.inr ((hg hn).2 rfl w snap hpc x v hx hw e hv)
    · rw [if_neg hw]
      exact Or.inl e
  | cleared w snap _ _ =>
    exact h.keep ⟨h.shape.chunk, h.shape.nbits⟩ hb rfl rfl id rfl rfl himg fun _ _ _ _ e => Or.inl e
  | persist es _ => exact h.still hb rfl rfl id rfl rfl fun v => setWorker_idle s.n .recovery v rfl
  | unpark l _ _ _ => exact h.still hb rfl rfl id rfl rfl fun _ => Or.inl rfl
  | noPending _ => exact h.still hb rfl rfl id rfl rfl fun _ => Or.inl rfl
  | apply r rest hpc =>
    refine h.applied (r:=r) hb (fun hn => (hg hn).1 r ?_) rfl rfl rfl rfl fun _ _ _ _ e => e
    unfold NodeSt.applies
    rw [hpc]
  | applied _ => exact h.still hb rfl rfl id rfl rfl fun _ => Or.inl rfl
  | freeze mark _ _ _ _ _ => exact h.still hb rfl rfl id rfl rfl fun _ => Or.inl rfl
  | finish mark _ => exact h.still hb rfl rfl id rfl rfl fun _ => Or.inl rfl
  | enter w _ _ => exact h.still hb rfl rfl id rfl rfl fun _ => Or.inl rfl
  | work who m _ _ hw => exact h.work hb hg hw

/-! ## the scripts -/

/-- what a script does: to its buffer, and to the replica -/
inductive Did (cfg : NodeConfig) (n : NodeSt) (sc : Script) : DdAct → NodeSt → Script → Prop
  | read (m : Nat) : Did cfg n sc (.read m) n
      { sc with
        buf := sc.buf ++ slice n.q.dev (sc.off + sc.buf.length) m
        boot := if sc.buf = [] then n.boot else sc.boot }
  | write (m : Nat) (img : Nat → UInt8) : sc.buf.length = sc.len cfg →
      sc.put + m ≤ sc.buf.length →
      (∀ x, img x = if sc.off + sc.put ≤ x ∧ x < sc.off + sc.put + m
        then sc.buf.getD (x - sc.off) default else n.c.img x) →
      Did cfg n sc (.write m) { n with c := { n.c with img := img } } { sc with put := sc.put + m }
  | echo : sc.buf.length = sc.len cfg → (allZero sc.buf = true ∨ sc.put = sc.buf.length) →
      Did cfg n sc .echo n { sc with next := sc.next + 1, buf := [], put := 0 }

theorem pwrite_part {img : Nat → UInt8} {buf : List UInt8} {off put m : Nat}
    (h : put + m ≤ buf.length) (x : Nat) :
    pwrite img ((buf.drop put).take m) (off + put) x
      = if off + put ≤ x ∧ x < off + put + m then buf.getD (x - off) default else img x := by
  have hlen : ((buf.drop put).take m).length = m := by
    rw [List.length_take, List.length_drop]
    omega
  unfold pwrite
  by_cases hx : off + put ≤ x ∧ x < off + put + m
  · rw [if_pos hx]
    obtain ⟨i, rfl⟩ := Nat.exists_eq_add_of_le hx.1
    rw [putList_in (by omega), show off + put + i - off = put + i from by omega,
      List.getD_eq_getElem?_getD, List.getD_eq_getElem?_getD, List.getElem?_take,
      if_pos (by omega), List.getElem?_drop]
  · rw [if_neg hx]
    exact putList_out (by rw [hlen]; exact hx)

theorem dd_cases {n : NodeSt} {sc sc' : Script} {d : DdAct}
    (h : ddStep cfg n sc d = some (n', sc')) : Did cfg n sc d n' sc' := by
  cases d with
  | read m =>
    simp only [ddStep] at h
    split at h
    · obtain ⟨rfl, rfl⟩ := Prod.mk.inj (Option.some.inj h)
      exact .read m
    · cases h
  | write m =>
    simp only [ddStep] at h
    split at h
    · rename_i hc
      obtain ⟨rfl, rfl⟩ := Prod.mk.inj (Option.some.inj h)
      exact .write m _ hc.2.1 hc.2.2.2 (pwrite_part hc.2.2.2)
    · cases h
  | echo =>
    simp only [ddStep] at h
    split at h
    · rename_i hc
      obtain ⟨rfl, rfl⟩ := Prod.mk.inj (Option.some.inj h)
      exact .echo hc.2.1 hc.2.2
    · cases h

/-- While nothing else has made a copy, a step of a script is the step `seedData` of the node, or
none. -/
theorem dd_refines {n : NodeSt} {sc sc' : Script} {d : DdAct} (hb : n.files.baseEnd = none)
    (hw : n.worker .base = none) (h : ddStep cfg n sc d = some (n', sc')) :
    n' = n ∨ ∃ img, nstep cfg n (.seedData img) = some n' := by
  cases dd_cases h with
  | read m => exact Or.inl rfl
  | write m img _ _ _ => exact Or.inr ⟨img, if_pos ⟨hb, hw⟩⟩
  | echo _ _ => exact Or.inl rfl

theorem did_boot {n : NodeSt} {sc sc' : Script} {d : DdAct} (h : Did cfg n sc d n' sc') :
    sc'.boot = sc.boot ∨ sc'.boot = n.boot := by
  cases h with
  | read m =>
    dsimp only
    split
    · exact Or.inr rfl
    · exact Or.inl rfl
  | write m img _ _ _ => exact Or.inl rfl
  | echo _ _ => exact Or.inl rfl

theorem did_buf {n : NodeSt} {sc sc' : Script} {d : DdAct} {x : Nat} (h : Did cfg n sc d n' sc')
    (hb : sc'.boot = n.boot) (h1 : sc'.off ≤ x) (h2 : x < sc'.off + sc'.buf.length) :
    (sc.boot = n.boot ∧ sc.off ≤ x ∧ x < sc.off + sc.buf.length ∧
      sc'.buf.getD (x - sc'.off) default = sc.buf.getD (x - sc.off) default) ∨
    sc'.buf.getD (x - sc'.off) default = n.q.dev x := by
  cases h with
  | read m =>
    change sc.off ≤ x at h1
    change x < sc.off + (sc.buf ++ _).length at h2
    rw [List.length_append, length_slice] at h2
    show (_ ∧ _ ∧ _ ∧ (sc.buf ++ _).getD (x - sc.off) default = _) ∨
      (sc.buf ++ _).getD (x - sc.off) default = _
    by_cases hin : x < sc.off + sc.buf.length
    · have hne : sc.buf ≠ [] := by
        rintro e
        rw [e, List.length_nil] at hin
        omega
      dsimp only at hb
      rw [if_neg hne] at hb
      refine Or.inl ⟨hb, h1, hin, ?_⟩
      rw [List.getD_eq_getElem?_getD, List.getD_eq_getElem?_getD, List.getElem?_append_left (by omega)]
    · right
      obtain ⟨i, rfl⟩ := Nat.exists_eq_add_of_le (Nat.not_lt.mp hin)
      rw [List.getD_eq_getElem?_getD, List.getElem?_append_right (by omega), getElem?_slice,
        if_pos (by omega)]
      show n'.q.dev _ = _
      congr 1
      omega
  | write m img _ _ _ => exact Or.inl ⟨hb, h1, h2, rfl⟩
  | echo _ _ =>
    change x < _ + 0 at h2
    change _ ≤ x at h1
    omega

/-- **A step of a script**, of the attempt or of an orphan: the machine goes on with `sc'` in place of
`sc`.  `hw` is what `SeedOk` asks of a write, and `hc` of what counts from now on. -/
theorem SeedInv.dd {sc sc' : Script} {d : DdAct} (h : SeedInv cfg s) (hsc : s.Runs sc)
    (hd : Did cfg s.n sc d n' sc') (hn : s'.n = n') (hres : s'.resume = s.resume)
    (hsince : ∀ p, s'.proc = some p → p.since ≤ s.n.boot)
    (hown : ∀ p line sc, s'.proc = some p → p.pc = .copying line sc →
      sc.boot = s.n.boot ∧ sc.last = nchunksOf p.total)
    (hruns : ∀ sc1, s'.Runs sc1 → sc1 = sc' ∨ s.Runs sc1)
    (hw : ∀ m, d = .write m → s.n.files.baseEnd = none → sc.boot = s.n.boot ∨
      ∀ x, sc.off + sc.put ≤ x → x < sc.off + sc.put + m → s'.Counted x →
        s.n.Current cfg x (sc.buf.getD (x - sc.off) default))
    (hc : s.n.files.baseEnd = none → ∀ x, x < cfg.target.size → s'.Counted x → s.Counted x ∨
      s.n.Current cfg x (n'.c.img x)) : SeedInv cfg s' := by
  have hsame : n'.q = s.n.q ∧ n'.boot = s.n.boot ∧ n'.files = s.n.files ∧ n'.worker = s.n.worker ∧
      n'.seedRequired = s.n.seedRequired := by
    cases hd <;> exact ⟨rfl, rfl, rfl, rfl, rfl⟩
  obtain ⟨hq, hboot, hfiles, hworker, hreq⟩ := hsame
  have hold : s.n.files.baseEnd = none → ∀ x v, x < cfg.target.size → s.Held x v →
      s.n.Current cfg x v := h.held
  refine ⟨?_, ?_, ?_, ?_, ?_, ?_, ?_, fun hbase x v hx hv => ?_⟩
  · rw [hn, hq]
    exact h.shape
  · rw [hn]
    exact h.based.frame (by rw [hworker]) (by rw [hfiles]) hreq
  · rw [hn, hboot, hfiles]
    exact h.seeded
  · rw [hn, hboot, hres]
    exact h.resume
  · rw [hn, hboot]
    exact hsince
  · rw [hn, hboot]
    intro sc1 h1
    rcases hruns sc1 h1 with rfl | h1
    · rcases did_boot hd with e | e
      · exact e ▸ h.script sc hsc
      · exact Nat.le_of_eq e
    · exact h.script sc1 h1
  · rw [hn, hboot]
    exact hown
  · rw [hn, hfiles] at hbase
    unfold NodeSt.Current
    rw [hn, hq]
    cases hv with
    | counted hcount he =>
      rw [he, hn]
      cases hd with
      | read m => exact (hc hbase x hx hcount).elim (fun e => hold hbase x _ hx (.counted e rfl)) id
      | echo _ _ => exact (hc hbase x hx hcount).elim (fun e => hold hbase x _ hx (.counted e rfl)) id
      | write m img hlen hput himg =>
        dsimp only at hc ⊢
        by_cases hin : sc.off + sc.put ≤ x ∧ x < sc.off + sc.put + m
        · rw [himg x, if_pos hin]
          rcases hw m rfl hbase with hb | hb
          · exact hold hbase x _ hx (.script sc hsc hb (by omega) (by omega) rfl)
          · exact hb x hin.1 hin.2 hcount
        · rcases hc hbase x hx hcount with e | e
          · rw [himg x, if_neg hin]
            exact hold hbase x _ hx (.counted e rfl)
          · exact e
    | script sc1 h1 h2 h3 h4 h5 =>
      rw [hn, hboot] at h2
      rcases hruns sc1 h1 with rfl | h1
      · rcases did_buf hd h2 h3 h4 with ⟨e1, e2, e3, e4⟩ | e
        · exact hold hbase x v hx (.script sc hsc e1 e2 e3 (h5.trans e4))
        · exact Or.inl (h5.trans e)
      · exact hold hbase x v hx (.script sc1 h1 h2 h3 h4 h5)
    | thread who off k buf h1 h2 h3 h4 =>
      rw [hn, hworker] at h1
      exact hold hbase x v hx (.thread who off k buf h1 h2 h3 h4)

/-- a byte of the disk before the next chunk ends where `dd` does; `c` is `CH`, which nothing should
compute with -/
theorem in_chunk {x a c size : Nat} (h : x < a + c) (hx : x < size) : x < a + min c (size - a) := by
  omega

theorem own_counted {p : Attempt} {line x : Nat} {sc sc' : Script} {d : DdAct} (h : SeedInv cfg s)
    (hp : s.proc = some p) (hpc : p.pc = .copying line sc) (hg : SeedOk cfg s (.own d))
    (hd : Did cfg s.n sc d n' sc') (hn : s.n.files.baseEnd = none) (hsince : p.since = s.n.boot)
    (hx : x < cfg.target.size) (hlt : x < sc'.off + sc'.put) :
    s.Counted x ∨ s.n.Current cfg x (n'.c.img x) := by
  have hruns : s.Runs sc := Or.inl ⟨p, line, hp, hpc⟩
  have hboot := (h.own p line sc hp hpc).1
  have hbuf : sc.off ≤ x → x < sc.off + sc.buf.length →
      s.n.Current cfg x (sc.buf.getD (x - sc.off) default) :=
    fun h1 h2 => h.held hn x _ hx (.script sc hruns hboot h1 h2 rfl)
  by_cases hin : x < sc.off + sc.put
  · refine Or.inl (.attempt p hp hsince ?_)
    unfold Attempt.Copied
    rw [hpc]
    exact hin
  · cases hd with
    | read m => exact absurd hlt hin
    | write m img hlen hput himg =>
      change x < sc.off + (sc.put + m) at hlt
      right
      show s.n.Current cfg x (img x)
      rw [himg x, if_pos (by omega)]
      exact hbuf (by omega) (by omega)
    | echo hlen hfull =>
      right
      have hx' : x < sc.off + sc.len cfg := by
        simp only [Script.off, Nat.add_zero, Nat.add_one_mul] at hlt
        exact in_chunk hlt hx
      have hz : allZero sc.buf = true := hfull.resolve_right fun e => hin (by omega)
      have h0 : sc.buf.getD (x - sc.off) default = 0 := by
        rw [List.getD_eq_getElem?_getD, List.getElem?_eq_getElem (by omega), Option.getD_some]
        exact beq_iff_eq.mp (List.all_eq_true.mp hz _ (List.getElem_mem _))
      rcases hbuf (by omega) (by omega) with e | e
      · rcases hg hn p line sc hp hpc hsince hz x (by omega) hx' with e' | e'
        · exact Or.inl (e'.trans (h0.symm.trans e))
        · exact Or.inr e'
      · exact Or.inr e

theorem did_last {n : NodeSt} {sc sc' : Script} {d : DdAct} (h : Did cfg n sc d n' sc') :
    sc'.last = sc.last ∧ n'.boot = n.boot ∧ n'.files = n.files := by
  cases h <;> exact ⟨rfl, rfl, rfl⟩

theorem did_own {n : NodeSt} {sc sc' : Script} {d : DdAct} (h : Did cfg n sc d n' sc')
    (hb : sc.boot = n.boot) : sc'.boot = n.boot := (did_boot h).elim (fun e => e.trans hb) id

theorem SeedInv.ownStep {d : DdAct} (h : SeedInv cfg s) (hg : SeedOk cfg s (.own d))
    (hs : CDP.ownStep cfg s d = some s') : SeedInv cfg s' := by
  unfold CDP.ownStep at hs
  split at hs
  · rename_i host vmid total since line sc hp
    obtain ⟨⟨n', sc'⟩, hdd, rfl⟩ := Option.map_eq_some_iff.mp hs
    have hd := dd_cases hdd
    obtain ⟨hlast, hboot, hfiles⟩ := did_last hd
    have hown := h.own _ line sc hp rfl
    refine h.dd (Or.inl ⟨_, line, hp, rfl⟩) hd rfl rfl ?_ ?_ ?_ (fun _ _ _ => Or.inl hown.1) ?_
    · intro p e
      obtain rfl := Option.some.inj e
      exact h.since ⟨host, vmid, total, since, .copying line sc⟩ hp
    · intro p line' sc1 e e1
      obtain rfl := Option.some.inj e
      obtain ⟨rfl, rfl⟩ := AttemptPc.copying.inj e1
      exact ⟨did_own hd hown.1, hlast.trans hown.2⟩
    · rintro sc1 (⟨p, line', e, e1⟩ | e)
      · obtain rfl := Option.some.inj e
        exact Or.inl (AttemptPc.copying.inj e1).2.symm
      · exact Or.inr (Or.inr e)
    · intro hn x hx hc
      cases hc with
      | seeded e => exact Or.inl (.seeded (by rw [← hboot, ← hfiles]; exact e))
      | resume r e1 e2 e3 => exact Or.inl (.resume r e1 (e2.trans hboot) e3)
      | attempt p e1 e2 e3 =>
        obtain rfl := Option.some.inj e1
        exact own_counted h hp rfl hg hd hn (e2.trans hboot) hx e3
  · cases hs

theorem SeedInv.orphanStep {k : Nat} {d : DdAct} (h : SeedInv cfg s)
    (hg : SeedOk cfg s (.orphan k d)) (hs : CDP.orphanStep cfg s k d = some s') :
    SeedInv cfg s' := by
  unfold CDP.orphanStep at hs
  split at hs
  · rename_i sc hsc
    obtain ⟨⟨n', sc'⟩, hdd, rfl⟩ := Option.map_eq_some_iff.mp hs
    have hd := dd_cases hdd
    obtain ⟨_, hboot, hfiles⟩ := did_last hd
    have hcount : ∀ x, SeedSt.Counted { s with n := n', orphans := s.orphans.set k sc' } x →
        s.Counted x := by
      intro x hc
      have hseed : n'.files.seeded = s.n.files.seeded := by rw [hfiles]
      refine counted_node hboot hseed ?_
      cases hc with
      | seeded e => exact .seeded e
      | resume r e1 e2 e3 => exact .resume r e1 e2 e3
      | attempt p e1 e2 e3 => exact .attempt p e1 e2 e3
    refine h.dd (Or.inr (List.mem_of_getElem? hsc)) hd rfl rfl h.since h.own ?_ ?_ ?_
    · rintro sc1 (e | e)
      · exact Or.inr (Or.inl e)
      · exact (List.mem_or_eq_of_mem_set e).symm.imp_right Or.inr
    · rintro m rfl hn
      exact (hg hn sc hsc).imp_right fun hw x h1 h2 hc => hw x h1 h2 (hcount x hc)
    · exact fun _ x _ hc => Or.inl (hcount x hc)
  · cases hs

/-! ## the attempts -/

theorem SeedInv.turn (h : SeedInv cfg s) (hn : s'.n = s.n)
    (hres : ∀ r, s'.resume = some r → r.since ≤ s.n.boot)
    (hsince : ∀ p, s'.proc = some p → p.since ≤ s.n.boot)
    (hown : ∀ p line sc, s'.proc = some p → p.pc = .copying line sc →
      sc.boot = s.n.boot ∧ sc.last = nchunksOf p.total)
    (hruns : ∀ sc, s'.Runs sc → s.Runs sc ∨ (sc.boot = s.n.boot ∧ sc.buf = []))
    (hc : ∀ x, s'.Counted x → s.Counted x) : SeedInv cfg s' := by
  refine ⟨hn ▸ h.shape, hn ▸ h.based, ?_, ?_, ?_, ?_, ?_, ?_⟩
  · rw [hn]
    exact h.seeded
  · rw [hn]
    exact hres
  · rw [hn]
    exact hsince
  · rw [hn]
    exact fun sc e => (hruns sc e).elim (h.script sc) fun e => Nat.le_of_eq e.1
  · rw [hn]
    exact hown
  · rw [hn]
    intro hbase x v hx hv
    refine h.held hbase x v hx ?_
    cases hv with
    | counted e he => exact .counted (hc x e) (hn ▸ he)
    | script sc h1 h2 h3 h4 h5 =>
      rw [hn] at h2
      rcases hruns sc h1 with h1 | ⟨_, h1⟩
      · exact .script sc h1 h2 h3 h4 h5
      · rw [h1, List.length_nil] at h4
        omega
    | thread who off k buf h1 h2 h3 h4 => exact .thread who off k buf (hn ▸ h1) h2 h3 h4

theorem SeedInv.move {p : Attempt} (h : SeedInv cfg s) (hle : p.since ≤ s.n.boot)
    (hpc : ∀ line sc, p.pc = .copying line sc → sc.boot = s.n.boot ∧ sc.last = nchunksOf p.total ∧
      (s.Runs sc ∨ sc.buf = []))
    (hc : p.since = s.n.boot → ∀ x, p.Copied x → s.Counted x) :
    SeedInv cfg { s with proc := some p } := by
  refine h.turn rfl h.resume ?_ ?_ ?_ fun x hx => ?_
  · intro q e
    exact Option.some.inj e ▸ hle
  · intro q line sc e e1
    obtain rfl := Option.some.inj e
    exact ⟨(hpc line sc e1).1, (hpc line sc e1).2.1⟩
  · rintro sc (⟨q, line, e, e1⟩ | e)
    · obtain rfl := Option.some.inj e
      exact (hpc line sc e1).2.2.imp_right fun e2 => ⟨(hpc line sc e1).1, e2⟩
    · exact Or.inl (Or.inr e)
  · cases hx with
    | seeded e => exact .seeded e
    | resume r e1 e2 e3 => exact .resume r e1 e2 e3
    | attempt q e1 e2 e3 =>
      obtain rfl := Option.some.inj e1
      exact hc e2 x e3

/-- the script starts at chunk `start`, below which the chunks counted already -/
theorem SeedInv.launch {p : Attempt} (h : SeedInv cfg s) (start : Nat) (hle : p.since ≤ s.n.boot)
    (hpc : p.pc = .copying start ⟨start, nchunksOf p.total, [], 0, s.n.boot⟩)
    (hc : p.since = s.n.boot → ∀ x, x < start * CH → s.Counted x) :
    SeedInv cfg { s with proc := some p } := by
  refine h.move hle (fun line sc e => ?_) fun e x hx => hc e x ?_
  · obtain ⟨rfl, rfl⟩ := AttemptPc.copying.inj (hpc.symm.trans e)
    exact ⟨rfl, rfl, Or.inr rfl⟩
  · unfold Attempt.Copied at hx
    rw [hpc] at hx
    simp only [Script.off, Nat.add_zero] at hx
    exact hx

theorem SeedInv.popen (h : SeedInv cfg s) (hs : popenStep s = some s') : SeedInv cfg s' := by
  unfold popenStep at hs
  split at hs
  · rename_i host vmid total since hp
    dsimp only at hs
    split at hs
    · rename_i r hr
      obtain rfl := Option.some.inj hs
      have hres : s.resume = some r := (Option.filter_eq_some_iff.mp hr).1
      refine h.launch (r.chunk + 1) (h.resume r hres) rfl fun e x hx => ?_
      exact .resume r hres e hx
    · obtain rfl := Option.some.inj hs
      refine h.launch 0 (Nat.le_refl _) rfl fun _ x hx => ?_
      rw [Nat.zero_mul] at hx
      exact absurd hx (Nat.not_lt_zero x)
  · cases hs

theorem SeedInv.report {r : Resume} (h : SeedInv cfg s) (hle : r.since ≤ s.n.boot)
    (hc : r.since = s.n.boot → ∀ x, x < (r.chunk + 1) * CH → s.Counted x) :
    SeedInv cfg { s with resume := some r } := by
  refine h.turn rfl (fun q e => Option.some.inj e ▸ hle) h.since h.own (fun sc e => Or.inl e)
    fun x hx => ?_
  cases hx with
  | seeded e => exact .seeded e
  | resume q e1 e2 e3 =>
    obtain rfl := Option.some.inj e1
    exact hc e2 x e3
  | attempt p e1 e2 e3 => exact .attempt p e1 e2 e3

theorem chunk_le {i k c : Nat} (h : i < k) : (i + 1) * c ≤ k * c := Nat.mul_le_mul_right c h

theorem SeedInv.line {report : Bool} (h : SeedInv cfg s) (hs : lineStep s report = some s') :
    SeedInv cfg s' := by
  unfold lineStep at hs
  split at hs
  · rename_i host vmid total since line sc hp
    split at hs
    · rename_i hlt
      obtain rfl := Option.some.inj hs
      obtain ⟨p, hp'⟩ : ∃ p : Attempt, p = ⟨host, vmid, total, since, .copying line sc⟩ := ⟨_, rfl⟩
      rw [← hp'] at hp
      have hle : since ≤ s.n.boot := by
        have := h.since p hp
        rw [hp'] at this
        exact this
      have hcop : since = s.n.boot → ∀ x, x < sc.off + sc.put → s.Counted x := by
        intro e x hx
        refine .attempt p hp (by rw [hp']; exact e) ?_
        rw [hp']
        exact hx
      have hown := h.own p line sc hp (by rw [hp'])
      have hruns : s.Runs sc := Or.inl ⟨p, line, hp, by rw [hp']⟩
      have hmove : SeedInv cfg
          { s with proc := some ⟨host, vmid, total, since, .copying (line + 1) sc⟩ } := by
        refine h.move hle (fun line' sc' e => ?_) hcop
        obtain ⟨rfl, rfl⟩ := AttemptPc.copying.inj e
        refine ⟨hown.1, ?_, Or.inl hruns⟩
        rw [hown.2, hp']
      cases report with
      | false => exact hmove
      | true =>
        refine hmove.report (r:=⟨host, vmid, total, line, since⟩) hle fun e x hx => ?_
        have hoff : (line + 1) * CH ≤ sc.off := chunk_le hlt
        have hin : x < sc.off + sc.put := by
          refine lt_of_lt_of_le hx (le_trans hoff ?_)
          exact Nat.le_add_right _ _
        exact .attempt ⟨host, vmid, total, since, .copying (line + 1) sc⟩ rfl e hin
    · cases hs
  · cases hs

theorem SeedInv.wait (h : SeedInv cfg s) (hs : waitStep s = some s') : SeedInv cfg s' := by
  unfold waitStep at hs
  split at hs
  · rename_i host vmid total since line sc hp
    split at hs
    · rename_i hend
      obtain rfl := Option.some.inj hs
      have hle : since ≤ s.n.boot := h.since ⟨host, vmid, total, since, .copying line sc⟩ hp
      have hlast : sc.last = nchunksOf total :=
        (h.own ⟨host, vmid, total, since, .copying line sc⟩ line sc hp rfl).2
      refine h.move hle (fun _ _ e => by cases e) fun e x hx => ?_
      refine .attempt ⟨host, vmid, total, since, .copying line sc⟩ hp e ?_
      have hx' : x < nchunksOf total * CH := hx
      rw [← hlast] at hx'
      have hoff : sc.last * CH ≤ sc.off := Nat.mul_le_mul_right CH hend.1
      have hin : x < sc.off + sc.put := by
        refine lt_of_lt_of_le hx' (le_trans hoff ?_)
        exact Nat.le_add_right _ _
      exact hin
    · cases hs
  · cases hs

theorem SeedInv.load {ok : Bool} (h : SeedInv cfg s) (hs : loadStep s ok = some s') :
    SeedInv cfg s' := by
  unfold loadStep at hs
  split at hs
  · rename_i host vmid total since hp
    obtain rfl := Option.some.inj hs
    have hle : since ≤ s.n.boot := h.since ⟨host, vmid, total, since, .copied⟩ hp
    refine h.move hle (fun _ _ e => by cases e) fun e x hx => ?_
    exact .attempt ⟨host, vmid, total, since, .copied⟩ hp e hx
  · cases hs

theorem SeedInv.gone (h : SeedInv cfg s) (hp : s'.proc = none) (hn : s'.n = s.n)
    (hres : ∀ r, s'.resume = some r → s.resume = some r)
    (hruns : ∀ sc, s'.Runs sc → s.Runs sc) : SeedInv cfg s' := by
  refine h.turn hn (fun r e => h.resume r (hres r e)) (fun p e => ?_) (fun p line sc e _ => ?_)
    (fun sc e => Or.inl (hruns sc e)) fun x hx => ?_
  · rw [hp] at e
    cases e
  · rw [hp] at e
    cases e
  · cases hx with
    | seeded e => exact .seeded (hn ▸ e)
    | resume r e1 e2 e3 => exact .resume r (hres r e1) (hn ▸ e2) e3
    | attempt p e1 _ _ =>
      rw [hp] at e1
      cases e1

theorem leave_same (s : SeedSt) : s.leave.proc = none ∧ s.leave.n = s.n ∧
    s.leave.resume = s.resume ∧ ∀ sc, s.leave.Runs sc → s.Runs sc := by
  unfold SeedSt.leave
  split
  · rename_i host vmid total since line sc hp
    refine ⟨rfl, rfl, rfl, ?_⟩
    rintro sc' (⟨p, line', e, _⟩ | e)
    · cases e
    · rcases List.mem_cons.mp e with rfl | e
      · exact Or.inl ⟨_, line, hp, rfl⟩
      · exact Or.inr e
  · refine ⟨rfl, rfl, rfl, ?_⟩
    rintro sc' (⟨p, line', e, _⟩ | e)
    · cases e
    · exact Or.inr e

theorem SeedInv.leave (h : SeedInv cfg s) : SeedInv cfg s.leave := by
  obtain ⟨h1, h2, h3, h4⟩ := leave_same s
  exact h.gone h1 h2 (fun r e => h3 ▸ e) h4

theorem SeedInv.done (h : SeedInv cfg s) (hs : doneStep s = some s') : SeedInv cfg s' := by
  unfold doneStep at hs
  split at hs
  · rename_i hp
    obtain rfl := Option.some.inj hs
    refine h.gone rfl rfl (fun r e => by cases e) ?_
    rintro sc (⟨p, line, e, _⟩ | e)
    · cases e
    · exact Or.inr e
  · cases hs

theorem SeedInv.mark (h : SeedInv cfg s) (hg : SeedOk cfg s .mark) (hs : seededStep s = some s') :
    SeedInv cfg s' := by
  unfold seededStep at hs
  split at hs
  · rename_i host vmid total since base hp
    obtain rfl := Option.some.inj hs
    obtain ⟨hbase, hall⟩ := hg _ base hp rfl
    have hle : since ≤ s.n.boot := h.since ⟨host, vmid, total, since, .loaded base⟩ hp
    refine ⟨h.shape, h.based.frame rfl hbase rfl, ?_, h.resume, ?_, ?_, ?_, fun hn x v hx hv => ?_⟩
    · intro b e
      exact Nat.le_of_eq (Option.some.inj e).symm
    · intro p e
      exact Option.some.inj e ▸ hle
    · rintro sc (⟨p, line, e, e1⟩ | e)
      · obtain rfl := Option.some.inj e
        cases e1
      · exact h.script sc (Or.inr e)
    · intro p line sc e e1
      obtain rfl := Option.some.inj e
      cases e1
    · have hb : base = none := hn
      obtain ⟨hsince, hsize⟩ := hall hb
      refine h.held (hbase.symm.trans hb) x v hx ?_
      cases hv with
      | counted _ he =>
        refine .counted (.attempt ⟨host, vmid, total, since, .loaded base⟩ hp hsince ?_) he
        exact lt_of_lt_of_le hx hsize
      | script sc h1 h2 h3 h4 h5 =>
        rcases h1 with ⟨p, line, e, e1⟩ | h1
        · obtain rfl := Option.some.inj e
          cases e1
        · exact .script sc (Or.inr h1) h2 h3 h4 h5
      | thread who off k buf h1 h2 h3 h4 => exact .thread who off k buf h1 h2 h3 h4
  · cases hs

/-- Where no `base_end_seq` is lost, the write of `seeded` is the step `seedMark` of the node. -/
theorem mark_refines (hg : SeedOk cfg s .mark) (hs : seededStep s = some s') :
    nstep cfg s.n .seedMark = some s'.n := by
  unfold seededStep at hs
  split at hs
  · rename_i host vmid total since base hp
    obtain rfl := Option.some.inj hs
    obtain ⟨hbase, _⟩ := hg _ base hp rfl
    show some { s.n with files := { s.n.files with seeded := some s.n.boot } } = _
    rw [hbase]
  · cases hs

/-- **A reboot**: nothing counts any more, and nothing is held. -/
theorem SeedInv.reboot (h : SeedInv cfg s) (dev : Nat → UInt8) :
    SeedInv cfg { s.leave with n := s.n.reboot cfg dev } := by
  obtain ⟨hp, _, hres, hruns⟩ := leave_same s
  have hlt : ∀ {b : Nat}, b ≤ s.n.boot → b ≠ s.n.boot + 1 := fun h e => by omega
  refine ⟨⟨rfl, rfl⟩, h.based.crash.frame rfl rfl rfl, ?_, ?_, ?_, ?_, ?_, fun hn x v hx hv => ?_⟩
  · exact fun b e => Nat.le_succ_of_le (h.seeded b e)
  · exact fun r e => Nat.le_succ_of_le (h.resume r (hres ▸ e))
  · intro p e
    change s.leave.proc = some p at e
    rw [hp] at e
    cases e
  · exact fun sc e => Nat.le_succ_of_le (h.script sc (hruns sc e))
  · intro p line sc e
    change s.leave.proc = some p at e
    rw [hp] at e
    cases e
  · exfalso
    cases hv with
    | counted hc _ =>
      cases hc with
      | seeded e => exact hlt (h.seeded _ e) rfl
      | resume r e1 e2 _ => exact hlt (h.resume r (hres ▸ e1)) e2
      | attempt p e _ _ =>
        change s.leave.proc = some p at e
        rw [hp] at e
        cases e
    | script sc h1 h2 _ _ _ => exact hlt (h.script sc (hruns sc h1)) h2
    | thread who off k buf h1 _ _ _ => cases h1

theorem SeedInv.init (cfg : NodeConfig) (dev img : Nat → UInt8) :
    SeedInv cfg (SeedSt.init cfg dev img) := by
  have hbased : Based (NodeSt.init cfg dev img) := ⟨fun e => absurd rfl e, fun e => by cases e⟩
  refine ⟨⟨rfl, rfl⟩, hbased, fun _ e => ?_, fun _ e => ?_, fun _ e => ?_, ?_, fun _ _ _ e => ?_,
    fun hn x v hx hv => ?_⟩
  · cases e
  · cases e
  · cases e
  · rintro sc (⟨p, line, e, _⟩ | e)
    · cases e
    · cases e
  · cases e
  · exfalso
    cases hv with
    | counted hc _ =>
      cases hc with
      | seeded e => cases e
      | resume r e _ _ => cases e
      | attempt p e _ _ => cases e
    | script sc h1 _ _ _ _ =>
      rcases h1 with ⟨p, line, e, _⟩ | e
      · cases e
      · cases e
    | thread who off k buf h1 _ _ _ => cases h1

theorem SeedInv.step {a : SeedAct} (h : SeedInv cfg s) (hg : SeedOk cfg s a)
    (hs : attemptStep cfg s a = some s') : SeedInv cfg s' := by
  cases a with
  | node a =>
    have hnode : (∀ img, a ≠ .seedData img) → a ≠ .seedMark →
        (nstep cfg s.n a).map (fun n => { s with n := n }) = some s' → SeedInv cfg s' := by
      intro h1 h2 e
      obtain ⟨n', hn, rfl⟩ := Option.map_eq_some_iff.mp e
      exact h.node hg h1 h2 hn
    cases a with
    | seedData img => cases hs
    | seedMark => cases hs
    | _ => exact hnode (fun img e => by cases e) (fun e => by cases e) hs
  | reboot dev =>
    obtain rfl := Option.some.inj hs
    exact h.reboot dev
  | attempt host vmid total =>
    change (match s.proc with | none => _ | some _ => none) = _ at hs
    split at hs
    · obtain rfl := Option.some.inj hs
      exact h.move (Nat.le_refl _) (fun _ _ e => by cases e) fun _ x hx => hx.elim
    · cases hs
  | popen => exact h.popen hs
  | own d => exact h.ownStep hg hs
  | orphan k d => exact h.orphanStep hg hs
  | line report => exact h.line hs
  | wait => exact h.wait hs
  | load ok => exact h.load hs
  | mark => exact h.mark hg hs
  | done => exact h.done hs
  | interrupt =>
    obtain rfl := Option.some.inj hs
    exact h.leave

end

/-- **An adopted seed is complete**, in a run that meets `SeedOk`. -/
theorem seed_complete (cfg : NodeConfig) (dev img : Nat → UInt8) (as : List SeedAct) (s : SeedSt)
    (hg : Meets (attemptStep cfg) (SeedOk cfg) (SeedSt.init cfg dev img) as)
    (h : exec (attemptStep cfg) (SeedSt.init cfg dev img) as = some s) : SeedComplete cfg s := by
  have hi := exec_invariant_meets (P:=SeedInv cfg) (fun u a v hu hga hs => hu.step hga hs)
    (SeedInv.init cfg dev img) hg h
  rintro ⟨_, hreq, hseed⟩ x hx hne
  have hbase := (hi.based.seed hreq).1
  exact Or.inl ((hi.held hbase x _ hx (.counted (.seeded hseed) rfl)).resolve_left hne)

/-! ## the runs -/

def seedOkB (cfg : NodeConfig) (s : SeedSt) : SeedAct → Bool
  | .node .clear => false
  | .node a => (s.n.applies a).isNone
  | .own .echo =>
    match s.proc with
    | some ⟨_, _, _, _, .copying _ sc⟩ => !allZero sc.buf
    | _ => true
  | .orphan _ (.write _) => false
  | .mark =>
    match s.proc with
    | some ⟨_, _, total, since, .loaded base⟩ => base == s.n.files.baseEnd && since == s.n.boot &&
      decide (cfg.target.size ≤ nchunksOf total * CH)
    | _ => true
  | _ => true

theorem seedOk_of_test {cfg : NodeConfig} (s : SeedSt) (a : SeedAct)
    (h : seedOkB cfg s a = true) : SeedOk cfg s a := by
  have hnode : ∀ b, (s.n.applies b).isNone = true → b ≠ .clear → SeedOk cfg s (.node b) := by
    intro b hb hc _
    refine ⟨fun r e => ?_, fun e => absurd e hc⟩
    rw [Option.isNone_iff_eq_none.mp hb] at e
    cases e
  cases a with
  | node a =>
    cases a with
    | clear => exact absurd h (by simp [seedOkB])
    | _ => exact hnode _ h fun e => by cases e
  | own d =>
    cases d with
    | echo =>
      intro _ p line sc hp hpc _ hz
      obtain ⟨host, vmid, total, since, pc⟩ := p
      obtain rfl : pc = .copying line sc := hpc
      simp only [seedOkB, hp, hz] at h
      exact absurd h (by decide)
    | _ => trivial
  | orphan k d =>
    cases d with
    | write m => exact absurd h (by simp [seedOkB])
    | _ => trivial
  | mark =>
    intro p base hp hpc
    obtain ⟨host, vmid, total, since, pc⟩ := p
    obtain rfl : pc = .loaded base := hpc
    simp only [seedOkB, hp, Bool.and_eq_true, beq_iff_eq, decide_eq_true_eq] at h
    exact ⟨h.1.1, fun _ => ⟨h.1.2, h.2⟩⟩
  | _ => trivial

def waitingNode : NodeConfig := { tinyNode with seedRequired := true }

/-- the chunk is copied, written and reported; the bio comes in the middle -/
def ddChunk (as : List SeedAct) : List SeedAct :=
  [.attempt "pve" 100 512, .popen, .own (.read 512)] ++ as ++ [.own (.write 512), .own .echo,
    .line true]

/-- the end of an attempt, and an iteration of the daemon up to `check_seed` -/
def markAndCheck : List SeedAct := [.wait, .load true, .mark, .node (.read 0)]

/-- an attempt is interrupted after its chunk, the next one goes on -/
def twoAttempts : List SeedAct :=
  [.node .start] ++ ddChunk [.node (.bio sectorWrite 0)] ++
    [.interrupt, .attempt "pve" 100 512, .popen] ++ markAndCheck

def differsB (s : SeedSt) : Bool :=
  (match s.n.pc with
    | .consumed => true
    | _ => false) && s.n.seedRequired && s.n.files.seeded == some s.n.boot &&
    s.n.c.img 0 != s.n.q.dev 0

theorem adopts_of_test {s : SeedSt} (h : differsB s = true) :
    s.n.Adopts ∧ s.n.c.img 0 ≠ s.n.q.dev 0 := by
  unfold differsB at h
  simp only [Bool.and_eq_true, beq_iff_eq, bne_iff_ne] at h
  obtain ⟨⟨⟨h1, h2⟩, h3⟩, h4⟩ := h
  refine ⟨⟨?_, h2, h3⟩, h4⟩
  split at h1
  · assumption
  · cases h1

theorem seed_complete_run : ∃ s,
    exec (attemptStep waitingNode) (SeedSt.init waitingNode (fun _ => 3) fun _ => 0) twoAttempts = some s ∧
      (s.n.Adopts ∧ s.n.c.img 0 ≠ s.n.q.dev 0) ∧ SeedComplete waitingNode s := by
  have h : (exec (attemptStep waitingNode) (SeedSt.init waitingNode (fun _ => 3) fun _ => 0)
      twoAttempts).any differsB = true := by
    decide +kernel
  obtain ⟨s, hs, hp⟩ := (Option.any_eq_true _ _).mp h
  exact ⟨s, hs, adopts_of_test hp, seed_complete waitingNode (fun _ => 3) (fun _ => 0) twoAttempts s
    (meets_of_meetsB seedOk_of_test (by decide +kernel)) hs⟩

/-- `disk_size` fails: there is nothing to copy -/
def emptySeed : List SeedAct :=
  [.node .start, .attempt "pve" 100 0, .popen] ++ markAndCheck

/-- the node reboots after the chunk has been reported, and the disk changes -/
def resumedSeed : List SeedAct :=
  ddChunk [] ++ [.reboot fun _ => 1, .node .start, .attempt "pve" 100 512, .popen] ++ markAndCheck

/-- a disk of zeros over a `replica.raw` that is there already -/
def sparseSeed : List SeedAct :=
  [.node .start, .attempt "pve" 100 512, .popen, .own (.read 512), .own .echo, .line true] ++
    markAndCheck

def staleB (s : SeedSt) : Bool :=
  differsB s && !s.n.q.t.bitmap (waitingNode.target.chunkOf 0) && s.n.unconsumed.isEmpty

theorem stale_of_test {s : SeedSt} (h : staleB s = true) : ¬SeedComplete waitingNode s := by
  unfold staleB at h
  simp only [Bool.and_eq_true, Bool.not_eq_true', List.isEmpty_iff] at h
  obtain ⟨⟨h1, h2⟩, h3⟩ := h
  obtain ⟨ha, hne⟩ := adopts_of_test h1
  intro hall
  rcases hall ha 0 (by decide) hne with e | ⟨r, hr, _⟩
  · rw [h2] at e
    cases e
  · rw [h3] at hr
    cases hr

/-- **The stale seeds**: of no chunk at all, of a chunk of the boot before, of a chunk that was not
written. -/
theorem seed_stale :
    (∃ s, exec (attemptStep waitingNode) (SeedSt.init waitingNode (fun _ => 3) fun _ => 0) emptySeed
      = some s ∧ ¬SeedComplete waitingNode s) ∧
    (∃ s, exec (attemptStep waitingNode) (SeedSt.init waitingNode (fun _ => 3) fun _ => 0) resumedSeed
      = some s ∧ ¬SeedComplete waitingNode s) ∧
    (∃ s, exec (attemptStep waitingNode) (SeedSt.init waitingNode (fun _ => 0) fun _ => 1) sparseSeed
      = some s ∧ ¬SeedComplete waitingNode s) := by
  have hrun : ∀ {as : List SeedAct} {dev img : Nat → UInt8},
      (exec (attemptStep waitingNode) (SeedSt.init waitingNode dev img) as).any staleB = true →
      ∃ s, exec (attemptStep waitingNode) (SeedSt.init waitingNode dev img) as = some s ∧
        ¬SeedComplete waitingNode s := by
    intro as dev img h
    obtain ⟨s, hs, hp⟩ := (Option.any_eq_true _ _).mp h
    exact ⟨s, hs, stale_of_test hp⟩
  refine ⟨hrun ?_, hrun ?_, hrun ?_⟩
  · decide +kernel
  · decide +kernel
  · decide +kernel

end CDP
