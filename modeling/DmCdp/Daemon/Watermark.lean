import DmCdp.Daemon.Replica
import DmCdp.Lib.Machine
import DmCdp.Lib.Watermark

/-!
# `last_seq` as a watermark

The main thread in `apply_one` and one copy thread in `copy_chunk`.  `apply_one` is two steps: what
it does under the lock, and the fields that it sets after it has released the lock.

* `Shared.enter`       the section under the lock; `enter_count`: the two steps are `apply_one`;
* `seqStep`            the steps of both threads;
* `Watermark`          `last_seq` has never decreased, and what was consumed up to it is written;
* `WatermarkHolds`     and so it is when the copy thread next sets `last_seq`;
* `CountsAlone`        the main thread sets it only when no deferred record is left;
* `last_seq_sound`     `WatermarkHolds` in every state of a run exactly if the run is `CountsAlone`;
* `last_seq_passes`    a record outside of the chunk in flight after one inside of it.
-/

set_option linter.unusedVariables false

namespace CDP
open Img Mach Marks

/-! ## the machine -/

/-- `apply_one` under the lock, with the record that it goes on with -/
def Shared.enter (c : Shared) (r : Item) : Shared × Option Item :=
  if c.Defers r then ({ c with deferred := c.deferred ++ [r] }, none)
  else ({ c with img := replicaWrite c.img r }, some r)

structure SeqSt where
  c : Shared
  -- the record of `apply_one`, between the lock and `self.last_seq = r.seq`
  main : Option Item
  pc : ChunkPc
  -- the same of the copy thread, in the loop over `late`
  copy : Option Item
  -- ghost: the records consumed, those that `Replica.write` has got, and whether `last_seq` has
  -- decreased
  taken : List Nat
  written : List Nat
  lowered : Bool

def SeqSt.init (img : Nat → UInt8) : SeqSt := ⟨.init img, none, .idle, none, [], [], false⟩

inductive SeqAct where
  -- the main thread; the records come in the order of their numbers
  | enter (r : Item)
  | count
  -- the copy thread: `copy_chunk` up to the loop over `late`, with what the device holds and
  -- `dev.read` returns
  | flag (off n : Nat)
  | chunk (skip : Bool) (dev : Nat → UInt8) (m : Nat)
  | lateEnter
  | lateCount
  | leave

def Shared.above (c : Shared) (r : Item) : Bool := c.lastSeq.any fun l => decide (r.hdr.seq < l)

def seqStep (s : SeqSt) : SeqAct → Option SeqSt
  | .enter r =>
    if s.main.isNone ∧ ∀ k ∈ s.taken, k < r.hdr.seq then
      some { s with
        c := (s.c.enter r).1
        main := (s.c.enter r).2
        taken := s.taken ++ [r.hdr.seq]
        written := s.written ++ ((s.c.enter r).2.map fun r => r.hdr.seq).toList }
    else none
  | .count =>
    match s.main with
    | some r =>
      some { s with c := s.c.count r, main := none, lowered := s.lowered || s.c.above r }
    | none => none
  | .flag off n =>
    match s.pc with
    | .idle => some { s with c := s.c.flag off n, pc := .flagged off n }
    | _ => none
  | .chunk skip dev m =>
    match s.pc with
    | .replaying _ _ => none
    | _ => (chunkStep skip dev m s.c s.pc).map fun p => { s with c := p.1, pc := p.2 }
  | .lateEnter =>
    match s.copy, s.pc with
    | none, .replaying m (r :: late) =>
      some { s with
        c := (s.c.enter r).1
        copy := (s.c.enter r).2
        pc := .replaying m late
        written := s.written ++ ((s.c.enter r).2.map fun r => r.hdr.seq).toList }
    | _, _ => none
  | .lateCount =>
    match s.copy with
    | some r =>
      some { s with c := s.c.count r, copy := none, lowered := s.lowered || s.c.above r }
    | none => none
  | .leave =>
    match s.copy, s.pc with
    | none, .replaying _ [] => some { s with pc := .idle }
    | _, _ => none

/-! ## the property -/

/-- the property: `last_seq` has never decreased, and every consumed record up to it is written -/
structure Watermark (s : SeqSt) : Prop where
  kept : s.lowered = false
  written : ∀ k ∈ s.taken, ∀ l, s.c.lastSeq = some l → k ≤ l → k ∈ s.written

/-- also after the next assignment of the copy thread -/
def WatermarkHolds (s : SeqSt) : Prop :=
  Watermark s ∧ ∀ t, seqStep s .lateCount = some t → Watermark t

/-- the records that `apply_one` has put off and that are not counted yet -/
def SeqSt.owed (s : SeqSt) : List Item := s.copy.toList ++ waiting s.c s.pc

/-- the main thread does not set `last_seq` while there are any -/
def CountsAlone (s : SeqSt) : SeqAct → Prop
  | .count => s.owed = []
  | _ => True

/-! ## one step -/

theorem enter_count (c : Shared) (r : Item) :
    c.applyOne r = match c.enter r with
      | (c', some r) => c'.count r
      | (c', none) => c' := by
  unfold Shared.applyOne Shared.enter
  split
  · rfl
  · rfl

abbrev seqs (l : List Item) : List Nat := l.map fun r => r.hdr.seq

def SeqSt.ledger (s : SeqSt) : Ledger Nat where
  taken := s.taken
  written := s.written
  mine := s.main.map fun r => r.hdr.seq
  held := s.copy.map fun r => r.hdr.seq
  waiting := seqs (waiting s.c s.pc)
  mark := s.c.lastSeq
  lowered := s.lowered

theorem watermark_ledger {s : SeqSt} : Watermark s ↔ s.ledger.Sound :=
  ⟨fun h => ⟨h.kept, h.written⟩, fun h => ⟨h.kept, h.written⟩⟩

theorem debts_ledger (s : SeqSt) : s.ledger.debts = seqs s.owed := by
  unfold Ledger.debts SeqSt.ledger SeqSt.owed
  cases s.copy with
  | none => rfl
  | some r => rfl

theorem mine_ledger {s : SeqSt} {r : Item} (h : s.main = some r) :
    s.ledger.mine = some r.hdr.seq := by
  show s.main.map _ = _
  rw [h]
  rfl

theorem held_ledger {s : SeqSt} {r : Item} (h : s.copy = some r) :
    s.ledger.held = some r.hdr.seq := by
  show s.copy.map _ = _
  rw [h]
  rfl

/-- without a chunk in flight nothing is put off -/
def SeqSt.Quiet (s : SeqSt) : Prop :=
  match s.pc with
  | .idle => s.copy = none ∧ s.c.copying = none ∧ s.c.deferred = []
  | .replaying _ _ => s.c.copying = none ∧ s.c.deferred = []
  | _ => s.copy = none

structure SeqInv (s : SeqSt) : Prop where
  quiet : s.Quiet
  ok : s.ledger.Ok

theorem SeqInv.init (img : Nat → UInt8) : SeqInv (SeqSt.init img) where
  quiet := ⟨rfl, rfl, rfl⟩
  ok := by
    constructor <;>
      simp [SeqSt.init, SeqSt.ledger, waiting, ChunkPc.late, Shared.init, Ledger.debts]

theorem enter_defers {c : Shared} {r : Item} (h : c.Defers r) :
    c.enter r = ({ c with deferred := c.deferred ++ [r] }, none) := if_pos h

theorem enter_direct {c : Shared} {r : Item} (h : ¬c.Defers r) :
    c.enter r = ({ c with img := replicaWrite c.img r }, some r) := if_neg h

theorem not_defers {c : Shared} {r : Item} (h : c.copying = none) : ¬c.Defers r := by
  unfold Shared.Defers
  rw [h]
  exact id

section
variable {s t : SeqSt}

theorem SeqInv.enter {r : Item} (hi : SeqInv s) (h : seqStep s (.enter r) = some t) :
    SeqInv t := by
  unfold seqStep at h
  dsimp only at h
  split at h
  next hg =>
    obtain ⟨hmain, hlast⟩ := hg
    obtain rfl := Option.some.inj h
    have hm : s.main = none := Option.isNone_iff_eq_none.mp hmain
    by_cases hd : s.c.Defers r
    · rw [enter_defers hd]
      constructor
      · have hq := hi.quiet
        unfold SeqSt.Quiet at hq ⊢
        dsimp only
        cases hpc : s.pc with
        | idle =>
          rw [hpc] at hq
          exact absurd hd (not_defers hq.2.1)
        | replaying m late =>
          rw [hpc] at hq
          exact absurd hd (not_defers hq.1)
        | flagged off n => rwa [hpc] at hq
        | holding off n buf => rwa [hpc] at hq
        | stored off n m => rwa [hpc] at hq
      · have hl : s.ledger.mine = none := by
          show s.main.map _ = none
          rw [hm]
          rfl
        convert hi.ok.putOff hlast hl using 1
        simp [SeqSt.ledger, Ledger.putOff, waiting, hm]
    · rw [enter_direct hd]
      refine ⟨hi.quiet, ?_⟩
      exact hi.ok.write hlast
  next => cases h

theorem SeqInv.count (hi : SeqInv s) (hg : s.owed = []) (h : seqStep s .count = some t) :
    SeqInv t := by
  unfold seqStep at h
  dsimp only at h
  cases hm : s.main with
  | none =>
    rw [hm] at h
    cases h
  | some r =>
    rw [hm] at h
    obtain rfl := Option.some.inj h
    refine ⟨hi.quiet, ?_⟩
    have hd : s.ledger.debts = [] := by
      rw [debts_ledger, hg]
      rfl
    exact hi.ok.publish (mine_ledger hm) hd

theorem SeqInv.flag {off n : Nat} (hi : SeqInv s) (h : seqStep s (.flag off n) = some t) :
    SeqInv t := by
  unfold seqStep at h
  dsimp only at h
  cases hpc : s.pc with
  | idle =>
    rw [hpc] at h
    obtain rfl := Option.some.inj h
    have hq := hi.quiet
    unfold SeqSt.Quiet at hq
    rw [hpc] at hq
    obtain ⟨hcopy, _, hdef⟩ := hq
    refine ⟨hcopy, ?_⟩
    convert hi.ok using 1
    simp [SeqSt.ledger, Shared.flag, waiting, ChunkPc.late, hpc, hdef]
  | flagged off n => rw [hpc] at h; cases h
  | holding off n buf => rw [hpc] at h; cases h
  | stored off n m => rw [hpc] at h; cases h
  | replaying m late => rw [hpc] at h; cases h

theorem SeqInv.chunk {skip : Bool} {dev : Nat → UInt8} {m : Nat} (hi : SeqInv s)
    (h : seqStep s (.chunk skip dev m) = some t) : SeqInv t := by
  unfold seqStep at h
  dsimp only at h
  have hq := hi.quiet
  unfold SeqSt.Quiet at hq
  cases hpc : s.pc with
  | idle => rw [hpc] at h; cases h
  | replaying m late => rw [hpc] at h; cases h
  | flagged off n =>
    rw [hpc] at h hq
    dsimp only [chunkStep] at h
    split at h
    · obtain rfl := Option.some.inj h
      refine ⟨hq, ?_⟩
      convert hi.ok using 1
      simp [SeqSt.ledger, waiting, ChunkPc.late, hpc]
    · cases h
  | holding off n buf =>
    rw [hpc] at h hq
    obtain rfl := Option.some.inj h
    refine ⟨hq, ?_⟩
    have hs : (s.c.store skip off buf).deferred = s.c.deferred ∧
        (s.c.store skip off buf).lastSeq = s.c.lastSeq := by
      unfold Shared.store
      split <;> exact ⟨rfl, rfl⟩
    convert hi.ok using 1
    simp [SeqSt.ledger, waiting, ChunkPc.late, hpc, hs]
  | stored off n k =>
    rw [hpc] at h hq
    obtain rfl := Option.some.inj h
    refine ⟨⟨rfl, rfl⟩, ?_⟩
    convert hi.ok using 1
    simp [SeqSt.ledger, waiting, ChunkPc.late, Shared.release, hpc]

/-- **One record of `late`**: no chunk is in flight, so it is written. -/
theorem SeqInv.lateEnter (hi : SeqInv s) (h : seqStep s .lateEnter = some t) : SeqInv t := by
  unfold seqStep at h
  dsimp only at h
  have hq := hi.quiet
  unfold SeqSt.Quiet at hq
  split at h
  next m r late hcopy hpc =>
    rw [hpc] at hq
    rw [enter_direct (not_defers hq.1)] at h
    obtain rfl := Option.some.inj h
    refine ⟨hq, ?_⟩
    have hw : s.ledger.waiting = r.hdr.seq :: seqs (late ++ s.c.deferred) := by
      simp [SeqSt.ledger, waiting, ChunkPc.late, hpc]
    have hh : s.ledger.held = none := by
      show s.copy.map _ = none
      rw [hcopy]
      rfl
    exact hi.ok.replay hh hw
  next => cases h

theorem SeqInv.lateCount (hi : SeqInv s) (h : seqStep s .lateCount = some t) : SeqInv t := by
  unfold seqStep at h
  dsimp only at h
  cases hc : s.copy with
  | none =>
    rw [hc] at h
    cases h
  | some r =>
    rw [hc] at h
    obtain rfl := Option.some.inj h
    refine ⟨?_, ?_⟩
    · have hq := hi.quiet
      unfold SeqSt.Quiet at hq ⊢
      dsimp only
      cases hpc : s.pc with
      | replaying m late =>
        rw [hpc] at hq
        exact hq
      | idle =>
        rw [hpc] at hq
        exact ⟨rfl, hq.2⟩
      | flagged off n | holding off n buf | stored off n m => rfl
    · exact hi.ok.publishHeld (held_ledger hc)

theorem SeqInv.leave (hi : SeqInv s) (h : seqStep s .leave = some t) : SeqInv t := by
  unfold seqStep at h
  dsimp only at h
  have hq := hi.quiet
  unfold SeqSt.Quiet at hq
  split at h
  next m hcopy hpc =>
    rw [hpc] at hq
    obtain rfl := Option.some.inj h
    refine ⟨⟨hcopy, hq⟩, ?_⟩
    convert hi.ok using 1
    simp [SeqSt.ledger, waiting, ChunkPc.late, hpc]
  next => cases h

theorem SeqInv.step {a : SeqAct} (hi : SeqInv s) (hg : CountsAlone s a) (h : seqStep s a = some t) :
    SeqInv t := by
  cases a with
  | enter r => exact hi.enter h
  | count => exact hi.count hg h
  | flag off n => exact hi.flag h
  | chunk skip dev m => exact hi.chunk h
  | lateEnter => exact hi.lateEnter h
  | lateCount => exact hi.lateCount h
  | leave => exact hi.leave h

theorem SeqInv.holds (hi : SeqInv s) : WatermarkHolds s := by
  constructor
  · exact watermark_ledger.mpr hi.ok.sound
  · intro t ht
    exact watermark_ledger.mpr (hi.lateCount ht).ok.sound

theorem passes_owed (hi : SeqInv s) (hn : s.owed ≠ []) (h : seqStep s .count = some t) :
    ¬ WatermarkHolds t := by
  unfold seqStep at h
  dsimp only at h
  cases hm : s.main with
  | none =>
    rw [hm] at h
    cases h
  | some r =>
    rw [hm] at h
    obtain rfl := Option.some.inj h
    rintro ⟨hnow, hnext⟩
    have hmine := mine_ledger hm
    cases hc : s.copy with
    | none =>
      apply not_sound_publish_waiting hi.ok hmine
      · intro hw
        apply hn
        rw [SeqSt.owed, hc]
        exact List.map_eq_nil_iff.mp hw
      · exact watermark_ledger.mp hnow
    | some d =>
      apply not_sound_publish_held hi.ok hmine (held_ledger hc)
      have hlast := hnext _ (by unfold seqStep; dsimp only; rw [hc])
      exact watermark_ledger.mp hlast

end

/-! ## runs -/

/-- **The watermark.** In a run in which the main thread never sets `last_seq` while a record that
was put off is not counted yet, `last_seq` is a watermark in every state; and only in such a run is
it one in every state and after the next assignment of the copy thread. -/
theorem last_seq_sound (img : Nat → UInt8) (as : List SeqAct) (s : SeqSt)
    (h : exec seqStep (SeqSt.init img) as = some s) :
    (Meets seqStep CountsAlone (SeqSt.init img) as → Always seqStep Watermark (SeqSt.init img) as) ∧
      (Always seqStep WatermarkHolds (SeqSt.init img) as ↔
        Meets seqStep CountsAlone (SeqSt.init img) as) := by
  have hiff : Always seqStep WatermarkHolds (SeqSt.init img) as ↔
      Meets seqStep CountsAlone (SeqSt.init img) as := by
    apply always_iff_meets (I := SeqInv) (fun s hi => hi.holds)
      (fun s a t hi hg hs => hi.step hg hs) ?_ (SeqInv.init img) h
    intro s a t hi hn hs
    cases a with
    | count => exact passes_owed hi hn hs
    | enter r => exact absurd trivial hn
    | flag off n => exact absurd trivial hn
    | chunk skip dev m => exact absurd trivial hn
    | lateEnter => exact absurd trivial hn
    | lateCount => exact absurd trivial hn
    | leave => exact absurd trivial hn
  refine ⟨?_, hiff⟩
  intro hm bs t hb ht
  exact (hiff.mpr hm bs t hb ht).1

/-! ## the runs -/

/-- a record in the chunk in flight, and one outside of it when the chunk has been replayed -/
def waitingRun : List SeqAct :=
  [.flag 0 512, .enter (writeItem 0 0 1), .chunk false (fun _ => 0) 0, .chunk false (fun _ => 0) 0,
    .chunk false (fun _ => 0) 0, .lateEnter, .lateCount, .leave, .enter (writeItem 1 1 2), .count]

/-- the second record comes before the replay -/
def passingRun : List SeqAct :=
  [.flag 0 512, .enter (writeItem 0 0 1), .enter (writeItem 1 1 2), .count]

def SeqAct.countsAloneB (s : SeqSt) : SeqAct → Bool
  | .count => s.owed.isEmpty
  | _ => true

theorem countsAlone_of_countsAloneB (s : SeqSt) (a : SeqAct) (h : a.countsAloneB s = true) :
    CountsAlone s a := by
  cases a with
  | count => exact List.isEmpty_iff.mp h
  | enter r => trivial
  | flag off n => trivial
  | chunk skip dev m => trivial
  | lateEnter => trivial
  | lateCount => trivial
  | leave => trivial

theorem last_seq_sound_run : ∃ s, exec seqStep (SeqSt.init fun _ => 0) waitingRun = some s ∧
    Always seqStep Watermark (SeqSt.init fun _ => 0) waitingRun := by
  have h : (exec seqStep (SeqSt.init fun _ => 0) waitingRun).isSome = true := by decide +kernel
  obtain ⟨s, hs⟩ := Option.isSome_iff_exists.mp h
  refine ⟨s, hs, (last_seq_sound (fun _ => 0) waitingRun s hs).1 ?_⟩
  apply meets_of_meetsB (b := fun s a => a.countsAloneB s) countsAlone_of_countsAloneB
  decide +kernel

/-- the copy thread goes on -/
def replayRun : List SeqAct :=
  passingRun ++ [.chunk false (fun _ => 0) 0, .chunk false (fun _ => 0) 0,
    .chunk false (fun _ => 0) 0, .lateEnter, .lateCount]

/-- `last_seq` is 1, and record 0 is not in the replica; after the replay `last_seq` is 0 -/
theorem last_seq_passes :
    (∃ s, exec seqStep (SeqSt.init fun _ => 0) passingRun = some s ∧ ¬ Watermark s) ∧
      ∃ s, exec seqStep (SeqSt.init fun _ => 0) replayRun = some s ∧ s.lowered = true := by
  constructor
  · have h : ((exec seqStep (SeqSt.init fun _ => 0) passingRun).map fun s =>
        (s.taken, s.written, s.c.lastSeq)) = some ([0, 1], [1], some 1) := by decide +kernel
    obtain ⟨s, hs, hv⟩ := Option.map_eq_some_iff.mp h
    obtain ⟨htaken, hrest⟩ := Prod.mk.inj hv
    obtain ⟨hwritten, hlast⟩ := Prod.mk.inj hrest
    refine ⟨s, hs, ?_⟩
    intro hw
    have h0 := hw.written 0 (by simp [htaken]) 1 hlast (Nat.zero_le 1)
    simp [hwritten] at h0
  · have h : ((exec seqStep (SeqSt.init fun _ => 0) replayRun).map fun s => s.lowered) =
        some true := by decide +kernel
    exact Option.map_eq_some_iff.mp h

end CDP
