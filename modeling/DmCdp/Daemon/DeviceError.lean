import DmCdp.Daemon.Reboot

/-!
# Bios that the device fails

The node through its boots, with bios that end in an error and leave the device as it was.
`cdp_end_io` sets `F_ERROR` in their records; nothing in the daemon looks at it, so the replica gets
what the device has not.

* `Feed.failed_cases`  what such a bio does;
* `ErrorSt`           the node, with the device as it would be had no bio failed (`want`);
* `over_step`        a step of the daemon is the same on the one device and on the other, where it
                     reads the same from both;
* `ErrorOk`           the steps meet `BootOk` on `want`, and no copy thread reads a byte at which the
                     two differ;
* `failed_sync`      in a run that keeps to it a settled replica is `want`: in sync exactly if the
                     device is; bios are single steps;
* `error_applied`    the run with one failed write.
-/

set_option linter.unusedVariables false

namespace CDP
open Img Mach

/-! ## a failed bio -/

def Feed.over (q : Feed) (dev : Nat → UInt8) : Feed := { q with dev := dev }

section
variable {cfg : Config} {b : Bio} {a : LogArgs} {q : Feed} {t : Target} {ts : Nat}
  {dev : Nat → UInt8}

theorem failed_gap (r : Item) :
    hasFlag r.failed.hdr.flags FGapBefore = hasFlag r.hdr.flags FGapBefore := by
  show hasFlag (r.hdr.flags ||| FError) FGapBefore = _
  unfold hasFlag FError FGapBefore
  rw [Nat.and_or_distrib_right, show 4 &&& 8 = 0 from rfl, Nat.or_zero]

theorem failed_over (q : Feed) (dev : Nat → UInt8) :
    (q.over dev).failed cfg b ts = (q.failed cfg b ts).over dev := by
  unfold Feed.failed Feed.over
  cases cdpMapArgs cfg b with
  | none => rfl
  | some a =>
    dsimp only
    rcases cdpReserve (cdpMark q.t a.sector a.len) a.type a.flags a.sector a.len a.payload ts with
      ⟨_ | off, t⟩
    · rfl
    · rfl

/-- **A failed bio leaves what the same bio leaves that does not fail**, but for the flag of its
record and the device. -/
theorem failed_like (cfg : Config) (q : Feed) (b : Bio) (ts : Nat) :
    ((q.failed cfg b ts).t = (q.write cfg b ts).t ∧ (q.failed cfg b ts).live = q.live ∧
      (q.write cfg b ts).live = q.live) ∨
    ∃ off r ring, (q.failed cfg b ts).t = { (q.write cfg b ts).t with ring := ring } ∧
      (q.failed cfg b ts).live = q.live ++ [(off, r.failed)] ∧
      (q.write cfg b ts).live = q.live ++ [(off, r)] := by
  unfold Feed.failed Feed.write
  cases cdpMapArgs cfg b with
  | none => exact Or.inl ⟨rfl, rfl, rfl⟩
  | some a =>
    dsimp only
    rcases cdpReserve (cdpMark q.t a.sector a.len) a.type a.flags a.sector a.len a.payload ts with
      ⟨_ | off, t⟩
    · exact Or.inl ⟨rfl, rfl, rfl⟩
    · exact Or.inr ⟨off, _, (cdpEndIo (cdpCopy t off a.payload b.data) off true).ring, rfl, rfl, rfl⟩

theorem Feed.failed_cases (ts : Nat) (hq : q.Shape cfg) (hok : b.Ok cfg) :
    Marked cfg b q ((q.failed cfg b ts).over (overlay (b.effect cfg) q.dev)) ∧
      Wrote cfg b q ((q.failed cfg b ts).over (overlay (b.effect cfg) q.dev)) := by
  obtain ⟨hm, hw⟩ := Feed.write_cases ts hq hok
  unfold Feed.over
  rcases failed_like cfg q b ts with ⟨ht, hl, hl'⟩ | ⟨off, r, ring, ht, hl, hl'⟩
  · rw [ht, hl]
    refine ⟨⟨⟨hm.shape.chunk, hm.shape.nbits⟩, hm.mono, hm.bit, rfl⟩, ?_⟩
    cases hw with
    | silent hn ht' _ => exact .silent hn ht' rfl
    | dropped _ hg hs => exact .dropped rfl hg hs
    | logged off r h _ _ _ _ _ =>
      rw [hl'] at h
      exact absurd h.symm (by simp)
  · rw [ht, hl]
    refine ⟨⟨⟨hm.shape.chunk, hm.shape.nbits⟩, hm.mono, hm.bit, rfl⟩, ?_⟩
    cases hw with
    | silent _ _ h =>
      rw [hl'] at h
      exact absurd h (by simp)
    | dropped h _ _ =>
      rw [hl'] at h
      exact absurd h (by simp)
    | logged off' r' h hpatch hrs hflag hg hs =>
      rw [hl'] at h
      obtain ⟨rfl, rfl⟩ := Prod.mk.inj (List.singleton_inj.mp (List.append_cancel_left h))
      exact .logged off r.failed rfl hpatch hrs ((failed_gap r).trans hflag) hg hs

end

/-! ## the machine -/

/-- the node, and (ghost) the device as it would be had no bio failed in this boot -/
structure ErrorSt where
  n : NodeSt
  want : Nat → UInt8

def ErrorSt.init (cfg : NodeConfig) (dev img : Nat → UInt8) : ErrorSt := ⟨.init cfg dev img, dev⟩

inductive ErrorAct where
  | boot (a : BootAct)
  | fail (b : Bio) (ts : Nat)

def ErrorSt.wantAfter (cfg : NodeConfig) (s : ErrorSt) : BootAct → Nat → UInt8
  | .node (.bio b _) => overlay (b.effect cfg.target) s.want
  | .reboot dev => dev
  | _ => s.want

/-- a bio that the device fails -/
def errorBio (cfg : NodeConfig) (s : ErrorSt) (b : Bio) (ts : Nat) : Option ErrorSt :=
  if b.Ok cfg.target then
    some
      { n := { s.n with
          q := s.n.q.failed cfg.target b ts
          dropped := s.n.dropped || (s.n.q.failed cfg.target b ts).t.gapPending }
        want := overlay (b.effect cfg.target) s.want }
  else none

def errorStep (cfg : NodeConfig) (s : ErrorSt) : ErrorAct → Option ErrorSt
  | .boot a => (bootStep cfg s.n a).map fun n => ⟨n, s.wantAfter cfg a⟩
  | .fail b ts => errorBio cfg s b ts

/-! ## the condition -/

def NodeSt.over (n : NodeSt) (dev : Nat → UInt8) : NodeSt := { n with q := n.q.over dev }

/-- what `dev.read` returns to a copy thread is the same on both devices -/
def ReadsSame (n : NodeSt) (dev : Nat → UInt8) : NodeAct → Prop
  | .work who m => ∀ off k left, n.worker who = some ⟨.flagged off k, left⟩ →
      ∀ x, off ≤ x → x < off + m → n.q.dev x = dev x
  | _ => True

def ErrorOk (cfg : NodeConfig) (s : ErrorSt) : ErrorAct → Prop
  | .boot a => BootOk cfg (s.n.over s.want) a ∧
      match a with
      | .node a => ReadsSame s.n s.want a
      | .reboot _ => True
  | .fail _ _ => True

/-- no byte of the device lacks what the last bio over it that has a record was to write -/
def NoneFailed (cfg : NodeConfig) (s : ErrorSt) : Prop :=
  ∀ x, x < cfg.target.size → s.n.q.dev x = s.want x

/-! ## the daemon before either device -/

section
variable {cfg : NodeConfig} {n n' : NodeSt} {dev : Nat → UInt8}

theorem read_over (k : Nat) (q : Feed) (dev : Nat → UInt8) :
    (q.over dev).read k = ((q.read k).1, (q.read k).2.over dev) := by
  induction k generalizing q with
  | zero => rfl
  | succ k ih =>
    obtain ⟨t, live, d⟩ := q
    cases live with
    | nil => rfl
    | cons e live =>
      have hrest := ih ⟨{ t with tail := u64 (e.1 + e.2.hdr.recLen) }, live, d⟩
      exact congrArg (fun out : List Item × Feed => (e.2 :: out.1, out.2)) hrest

/-- a step of `copy_chunk` looks at the device in `dev.read` alone -/
theorem chunkStep_dev {skip : Bool} {d d' : Nat → UInt8} {m : Nat} {c : Shared} {pc : ChunkPc}
    (h : ∀ off k, pc = .flagged off k → slice d off m = slice d' off m) :
    chunkStep skip d m c pc = chunkStep skip d' m c pc := by
  cases pc with
  | flagged off k =>
    show (if m ≤ k then some (c, ChunkPc.holding off k (slice d off m)) else none) = _
    rw [h off k rfl]
    rfl
  | idle => rfl
  | holding off k buf => rfl
  | stored off k m => rfl
  | replaying m late => cases late <;> rfl

theorem slice_same {d d' : Nat → UInt8} {off m : Nat}
    (h : ∀ x, off ≤ x → x < off + m → d x = d' x) : slice d off m = slice d' off m := by
  refine List.ext_getElem? fun i => ?_
  rw [getElem?_slice, getElem?_slice]
  by_cases hi : i < m
  · rw [if_pos hi, if_pos hi, h (off + i) (Nat.le_add_right _ _) (Nat.add_lt_add_left hi off)]
  · rw [if_neg hi, if_neg hi]

/-- a step before the one device and before the other -/
def Along (dev : Nat → UInt8) (o o' : Option NodeSt) : Prop := o' = o.map fun n => n.over dev

theorem Along.none : Along dev none none := rfl

theorem Along.some (n : NodeSt) : Along dev (some n) (some (n.over dev)) := rfl

theorem Along.ite {c : Prop} [Decidable c] {a b a' b' : Option NodeSt} (ha : Along dev a a')
    (hb : Along dev b b') : Along dev (if c then a else b) (if c then a' else b') := by
  by_cases hc : c
  · rw [if_pos hc, if_pos hc]
    exact ha
  · rw [if_neg hc, if_neg hc]
    exact hb

theorem work_over {who : Who} {m : Nat} (h : ReadsSame n dev (.work who m)) :
    Along dev (workNode cfg n who m) (workNode cfg (n.over dev) who m) := by
  unfold workNode
  rw [show (n.over dev).worker who = n.worker who from rfl]
  cases hw : n.worker who with
  | none => exact Along.none
  | some w =>
    obtain ⟨pc, left⟩ := w
    have hchunk : chunkStep (decide (who = .base)) dev m n.c pc
        = chunkStep (decide (who = .base)) n.q.dev m n.c pc := by
      refine chunkStep_dev fun off k e => (slice_same fun x h1 h2 => ?_).symm
      exact h off k left (e ▸ hw) x h1 h2
    have hmap : Along dev
        ((chunkStep (decide (who = .base)) n.q.dev m n.c pc).map fun r =>
          { n.setWorker who (some ⟨r.2, left⟩) with c := r.1 })
        ((chunkStep (decide (who = .base)) dev m n.c pc).map fun r =>
          { (n.over dev).setWorker who (some ⟨r.2, left⟩) with c := r.1 }) := by
      rw [hchunk]
      cases chunkStep (decide (who = .base)) n.q.dev m n.c pc with
      | none => exact Along.none
      | some r => exact Along.some _
    have hquit : Along dev (some (n.quit who)) (some ((n.over dev).quit who)) := by
      cases who <;> exact Along.some _
    have hdone : Along dev (some (n.done who)) (some ((n.over dev).done who)) := by
      cases who <;> exact Along.some _
    cases pc with
    | idle =>
      cases left with
      | nil => exact Along.ite hquit (Along.ite Along.none hdone)
      | cons e left =>
        obtain ⟨off, rem⟩ := e
        cases rem with
        | zero => exact Along.some _
        | succ rem => exact Along.ite hquit (Along.ite Along.none (Along.some _))
    | replaying k late =>
      cases late with
      | nil => exact Along.some _
      | cons r late => exact Along.ite hmap Along.none
    | flagged off k => exact Along.ite hmap Along.none
    | holding off k buf => exact Along.ite hmap Along.none
    | stored off k j => exact Along.ite hmap Along.none

theorem over_pc : (n.over dev).pc = n.pc := rfl

theorem readNode_over (k : Nat) : Along dev (readNode n k) (readNode (n.over dev) k) := by
  unfold readNode
  rw [show (n.over dev).q.read k = _ from read_over k n.q dev]
  rw [over_pc]
  cases n.pc with
  | top => exact Along.ite Along.none (Along.some _)
  | draining => exact Along.some _
  | _ => exact Along.none

theorem consumeNode_over : Along dev (consumeNode n) (consumeNode (n.over dev)) := by
  unfold consumeNode
  rw [over_pc]
  cases n.pc with
  | consuming drain park parked rest =>
    cases rest with
    | nil => cases park <;> exact Along.some _
    | cons r rest => cases park <;> exact Along.some _
  | _ => exact Along.none

theorem checkSeedNode_over : Along dev (checkSeedNode cfg n) (checkSeedNode cfg (n.over dev)) := by
  obtain ⟨q, boot, dropped, c, files, gaps, pc, worker, progress, req, stop⟩ := n
  obtain ⟨pending, recovery, baseEnd, seeded, lock⟩ := files
  cases pc with
  | consumed =>
    cases req with
    | false => exact Along.some _
    | true =>
      cases seeded with
      | none => exact Along.some _
      | some b => exact Along.ite (Along.some _) (Along.some _)
  | _ => exact Along.none

theorem gapTestNode_over : Along dev (gapTestNode n) (gapTestNode (n.over dev)) := by
  obtain ⟨q, boot, dropped, c, files, ⟨seen, queue⟩, pc, worker, progress, req, stop⟩ := n
  cases pc with
  | checked =>
    cases queue with
    | nil => exact Along.some _
    | cons g queue =>
      unfold gapTestNode NodeSt.over
      dsimp only
      cases worker .recovery with
      | some w => exact Along.some _
      | none => cases progress <;> exact Along.some _
  | _ => exact Along.none

theorem clearNode_over : Along dev (clearNode n) (clearNode (n.over dev)) := by
  unfold clearNode
  rw [over_pc]
  cases n.pc with
  | clearing w snap => exact Along.ite (Along.some _) (Along.some _)
  | _ => exact Along.none

theorem pendingTestNode_over : Along dev (pendingTestNode n) (pendingTestNode (n.over dev)) := by
  obtain ⟨q, boot, dropped, c, files, gaps, pc, worker, progress, req, stop⟩ := n
  obtain ⟨pending, recovery, baseEnd, seeded, lock⟩ := files
  cases pc with
  | started => cases lock <;> cases pending <;> exact Along.some _
  | _ => exact Along.none

theorem applyNode_over : Along dev (applyNode n) (applyNode (n.over dev)) := by
  unfold applyNode
  rw [over_pc]
  cases n.pc with
  | applying rest => cases rest <;> exact Along.some _
  | _ => exact Along.none

/-- **A step of the daemon is the same before the other device**, where a copy thread reads the same
from both. -/
theorem over_step {a : NodeAct} (h : ReadsSame n dev a) (hb : ∀ b ts, a ≠ .bio b ts) :
    Along dev (nstep cfg n a) (nstep cfg (n.over dev) a) := by
  cases a with
  | bio b ts => exact absurd rfl (hb b ts)
  | lock on => exact Along.some _
  | seedData img => exact Along.ite (Along.some _) Along.none
  | seedMark => exact Along.some _
  | start =>
    unfold nstep startNode
    rw [over_pc]
    cases n.pc with
    | down => exact Along.some _
    | _ => exact Along.none
  | crash =>
    unfold nstep crashNode
    rw [over_pc]
    cases n.pc with
    | down => exact Along.none
    | _ => exact Along.some _
  | stop => exact Along.ite Along.none (Along.some _)
  | read k => exact readNode_over k
  | test =>
    unfold nstep testNode
    rw [over_pc]
    cases n.pc with
    | called drain batch => exact Along.some _
    | _ => exact Along.none
  | consume => exact consumeNode_over
  | checkSeed => exact checkSeedNode_over
  | gapTest => exact gapTestNode_over
  | clear => exact clearNode_over
  | persist =>
    unfold nstep persistNode
    rw [over_pc]
    cases n.pc with
    | cleared es => exact Along.some _
    | _ => exact Along.none
  | pendingTest => exact pendingTestNode_over
  | apply => exact applyNode_over
  | finish mark =>
    unfold nstep finishNode
    rw [over_pc]
    cases n.pc with
    | settled => exact Along.some _
    | _ => exact Along.none
  | enter =>
    refine Along.ite Along.none ?_
    unfold enterNode
    rw [show (n.over dev).worker = n.worker from rfl]
    cases n.worker .base with
    | none => exact Along.none
    | some w => exact Along.some _
  | work who m => exact Along.ite Along.none (work_over h)

theorem write_over (cfg : Config) (q : Feed) (b : Bio) (ts : Nat) (dev : Nat → UInt8) :
    (q.over dev).write cfg b ts = (q.write cfg b ts).over (overlay (b.effect cfg) dev) := by
  unfold Feed.write Feed.over
  cases cdpMapArgs cfg b with
  | none => rfl
  | some a =>
    dsimp only
    rcases cdpReserve (cdpMark q.t a.sector a.len) a.type a.flags a.sector a.len a.payload ts with
      ⟨_ | off, t⟩
    · rfl
    · rfl

/-- **What one step keeps**: on the device on which no bio has failed, what the node keeps. -/
theorem NodeInv.fail {s s' : ErrorSt} {a : ErrorAct} (h : NodeInv cfg (s.n.over s.want))
    (hg : ErrorOk cfg s a) (hs : errorStep cfg s a = some s') : NodeInv cfg (s'.n.over s'.want) := by
  cases a with
  | fail b ts =>
    change errorBio cfg s b ts = some s' at hs
    unfold errorBio at hs
    split at hs
    · rename_i hok
      obtain rfl := Option.some.inj hs
      obtain ⟨hm, hw⟩ := Feed.failed_cases ts h.shape hok
      have hover : ((s.n.q.over s.want).failed cfg.target b ts).over
            (overlay (b.effect cfg.target) s.want)
          = (s.n.q.failed cfg.target b ts).over (overlay (b.effect cfg.target) s.want) := by
        rw [failed_over]
        rfl
      exact h.wrote (hover ▸ hm) (hover ▸ hw)
    · cases hs
  | boot a =>
    obtain ⟨n', hn, rfl⟩ := Option.map_eq_some_iff.mp hs
    cases a with
    | reboot dev =>
      obtain rfl := Option.some.inj hn
      exact h.boot (a:=.reboot dev) trivial rfl
    | node a =>
      by_cases hb : ∃ b ts, a = .bio b ts
      · obtain ⟨b, ts, rfl⟩ := hb
        refine h.boot hg.1 ?_
        change bioNode cfg s.n b ts = some n' at hn
        show bioNode cfg (s.n.over s.want) b ts = some _
        unfold bioNode at hn ⊢
        split at hn
        · rename_i hok
          obtain rfl := Option.some.inj hn
          rw [if_pos hok, show (s.n.over s.want).q.write cfg.target b ts = _ from write_over ..]
          rfl
        · cases hn
      · have hstep : Along s.want (nstep cfg s.n a) (nstep cfg (s.n.over s.want) a) :=
          over_step hg.2 fun b ts e => hb ⟨b, ts, e⟩
        unfold Along at hstep
        rw [show nstep cfg s.n a = some n' from hn] at hstep
        have hwant : s.wantAfter cfg (.node a) = s.want := by
          cases a with
          | bio b ts => exact absurd ⟨b, ts, rfl⟩ hb
          | _ => rfl
        show NodeInv cfg (n'.over (s.wantAfter cfg (.node a)))
        rw [hwant]
        exact h.boot hg.1 hstep

end

/-- **A failed bio is told from the others nowhere**: in a run that meets `ErrorOk` the replica is in
sync where it settles exactly if no byte of the device has failed. -/
theorem failed_sync (cfg : NodeConfig) (dev img : Nat → UInt8) (as : List ErrorAct) (s : ErrorSt)
    (hg : Meets (errorStep cfg) (ErrorOk cfg) (ErrorSt.init cfg dev img) as)
    (h : exec (errorStep cfg) (ErrorSt.init cfg dev img) as = some s) :
    InSync cfg s.n ↔ (s.n.dropped = false → Settled s.n → NoneFailed cfg s) := by
  have h0 : NodeInv cfg ((ErrorSt.init cfg dev img).n.over (ErrorSt.init cfg dev img).want) :=
    ⟨⟨rfl, rfl⟩, fun _ e => absurd rfl e⟩
  have hi := exec_invariant_meets (P:=fun u : ErrorSt => NodeInv cfg (u.n.over u.want))
    (fun u a v hu hga hs => hu.fail hga hs) h0 hg h
  have hwant : s.n.dropped = false → Settled s.n → ∀ x, x < cfg.target.size →
      s.n.c.img x = s.want x := by
    intro hd hset
    exact hi.inSync hd ⟨hset.up, hset.going, hset.base, hset.drained, hset.hand, hset.parked,
      hset.queue, hset.clearing, hset.idle⟩
  constructor
  · intro hsync hd hset x hx
    rw [← hsync hd hset x hx]
    exact hwant hd hset x hx
  · intro hnone hd hset x hx
    rw [hnone hd hset x hx]
    exact hwant hd hset x hx

/-! ## the runs -/

def errorOkB (cfg : NodeConfig) (s : ErrorSt) : ErrorAct → Bool
  | .fail _ _ => true
  | .boot a => bootOkB cfg (s.n.over s.want) a &&
      match a with
      | .node (.work who m) =>
        match pcOf (s.n.worker who) with
        | .flagged off _ => (List.range m).all fun i => s.n.q.dev (off + i) == s.want (off + i)
        | _ => true
      | _ => true

theorem errorOk_of_test {cfg : NodeConfig} (s : ErrorSt) (a : ErrorAct)
    (h : errorOkB cfg s a = true) : ErrorOk cfg s a := by
  cases a with
  | fail b ts => trivial
  | boot a =>
    obtain ⟨h1, h2⟩ := Bool.and_eq_true_iff.mp h
    refine ⟨bootOk_of_test _ a h1, ?_⟩
    cases a with
    | reboot dev => trivial
    | node a =>
      cases a with
      | work who m =>
        intro off k left hw x hlo hhi
        have hpc : pcOf (s.n.worker who) = .flagged off k := by rw [hw]; rfl
        dsimp only at h2
        rw [hpc] at h2
        have hx := List.all_eq_true.mp h2 (x - off) (List.mem_range.mpr (by omega))
        rw [Nat.add_sub_cancel' hlo] at hx
        exact beq_iff_eq.mp hx
      | _ => trivial

/-- a write of another byte to the same sector -/
def sectorRewrite : Bio := ⟨.write, 0, 512, false, false, fun _ => 2⟩

/-- a write fails, and another one of the same range does not -/
def errorRun : List ErrorAct :=
  (([.start] ++ baseCopy : List NodeAct).map fun a => .boot (.node a)) ++ [.fail sectorWrite 0] ++
    ([.bio sectorRewrite 0] ++ applyOneRecord ++ applyOneRecord : List NodeAct).map
      fun a => .boot (.node a)

theorem failed_sync_run : ∃ s,
    exec (errorStep tinyNode) (ErrorSt.init tinyNode (fun _ => 3) fun _ => 0) errorRun = some s ∧
      (s.n.dropped = false ∧ Settled s.n ∧ s.n.c.img 0 = 2) ∧ InSync tinyNode s.n := by
  have h : (exec (errorStep tinyNode) (ErrorSt.init tinyNode (fun _ => 3) fun _ => 0) errorRun).any
      (fun s => !s.n.dropped && (settledB s.n && (s.n.c.img 0 == 2 &&
        (List.range tinyNode.target.size).all fun x => s.n.q.dev x == s.want x))) = true := by
    decide +kernel
  obtain ⟨s, hs, hp⟩ := (Option.any_eq_true _ _).mp h
  simp only [Bool.and_eq_true, Bool.not_eq_true', beq_iff_eq] at hp
  obtain ⟨h1, h2, h3, h4⟩ := hp
  exact ⟨s, hs, ⟨h1, settled_of_test h2, h3⟩,
    (failed_sync tinyNode (fun _ => 3) (fun _ => 0) errorRun s
      (meets_of_meetsB errorOk_of_test (by decide +kernel)) hs).mpr fun _ _ x hx =>
        beq_iff_eq.mp (List.all_eq_true.mp h4 x (List.mem_range.mpr hx))⟩

/-- the only write fails -/
def errorRace : List ErrorAct :=
  (([.start] ++ baseCopy : List NodeAct).map fun a => .boot (.node a)) ++ [.fail sectorWrite 0] ++
    applyOneRecord.map fun a => .boot (.node a)

/-- **The corruption**: the replica gets what the device has not. -/
theorem error_applied : ∃ s,
    exec (errorStep tinyNode) (ErrorSt.init tinyNode (fun _ => 3) fun _ => 0) errorRace = some s ∧
      s.n.q.dev 0 = 3 ∧ s.n.c.img 0 = 1 ∧ ¬InSync tinyNode s.n := by
  have h : (exec (errorStep tinyNode) (ErrorSt.init tinyNode (fun _ => 3) fun _ => 0) errorRace).any
      (fun s => !s.n.dropped && (settledB s.n && (s.n.q.dev 0 == 3 && s.n.c.img 0 == 1))) = true := by
    decide +kernel
  obtain ⟨s, hs, hp⟩ := (Option.any_eq_true _ _).mp h
  simp only [Bool.and_eq_true, Bool.not_eq_true', beq_iff_eq] at hp
  obtain ⟨h1, h2, h3, h4⟩ := hp
  refine ⟨s, hs, h3, h4, fun hall => ?_⟩
  have hx := hall h1 (settled_of_test h2) 0 (by decide)
  rw [h3, h4] at hx
  exact absurd hx (by decide)

end CDP
