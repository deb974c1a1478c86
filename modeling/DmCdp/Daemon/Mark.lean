import DmCdp.Daemon.Gap
import DmCdp.Daemon.Reboot

/-!
# The consistent point

The node through its boots, with `mark_consistent` taken to its end: the drain under the freeze,
the thaw, the test of `recovery_queue`, the write of `manifest.consistent`.  While the file system
is frozen there are no bios.

* `MarkSt.done`, `MarkSt.lost`  the records applied in this boot, and the bytes of dropped bios
                       that no copy thread has re-read;
* `Consistent`         what the point that is written must be;
* `Told`, `Ready`      a gap that the drain will find; a replica that lacks nothing but the ring;
* `MarkOk`             at the freeze one of the two holds, the drain samples no lock, and it ends
                       with the ring empty, or a gap queued;
* `consistent_point`   in a run that keeps to it every point written is consistent;
* `point_parked`       the run in which a rebuild begins during the freeze.
-/

set_option linter.unusedVariables false

namespace CDP
open Img Mach

/-! ## the machine -/

/-- the file system is frozen -/
def NodePc.drains : NodePc → Bool
  | .called drain _ => drain
  | .consuming drain _ _ _ => drain
  | .draining => true
  | _ => false

/-- ghost: disk, `seq_next` and the bytes lost, at the thaw -/
structure Point where
  disk : Nat → UInt8
  next : Nat
  lost : Nat → Bool

/-- `mark_consistent` after its `finally`, with the local `seq` -/
inductive MarkPhase where
  | outside
  | thawed (seq : Option Nat) (p : Point)
  | written (seq : Option Nat) (p : Point)

structure MarkSt where
  n : NodeSt
  phase : MarkPhase
  -- ghost: the records of this boot that `Replica.write` has got
  done : Nat → Bool
  -- ghost: bytes of dropped bios, until a copy thread has re-read them into the replica
  lost : Nat → Bool
  -- ghost: bytes of the chunk in flight that have been read after the last dropped bio on them
  fetched : Who → Nat → Bool

def MarkSt.init (cfg : NodeConfig) (dev img : Nat → UInt8) : MarkSt :=
  ⟨.init cfg dev img, .outside, fun _ => false, fun _ => false, fun _ _ => false⟩

def MarkSt.doneAfter (s : MarkSt) (a : NodeAct) : Nat → Bool :=
  match s.n.applies a with
  | some r => fun k => s.done k || !decide (s.n.c.Defers r) && r.hdr.seq == k
  | none => s.done

/-- the bytes of a bio that gets no record -/
def NodeSt.drops (cfg : NodeConfig) (n : NodeSt) (b : Bio) (ts : Nat) (x : Nat) : Bool :=
  (n.q.write cfg.target b ts).live.length == n.q.live.length && (b.effect cfg.target x).isSome

def MarkSt.lostAfter (cfg : NodeConfig) (s : MarkSt) (n' : NodeSt) : NodeAct → Nat → Bool
  | .bio b ts => fun x => s.lost x || s.n.drops cfg b ts x
  | .work who _ =>
    match s.n.worker who with
    | some ⟨.holding off _ buf, _⟩ => fun x =>
      -- also where `skip_zero` leaves out what is there already
      s.lost x && !(decide (off ≤ x ∧ x < off + buf.length) && s.fetched who x &&
        n'.c.img x == buf.getD (x - off) 0)
    | _ => s.lost
  | _ => s.lost

def MarkSt.fetchedAfter (cfg : NodeConfig) (s : MarkSt) : NodeAct → Who → Nat → Bool
  | .bio b ts => fun who x => s.fetched who x && !s.n.drops cfg b ts x
  | .work who m =>
    match s.n.worker who with
    | some ⟨.flagged off _, _⟩ =>
      Function.update s.fetched who fun x => decide (off ≤ x ∧ x < off + m)
    | _ => s.fetched
  | _ => s.fetched

/-- the drain has ended, or the process -/
def MarkSt.phaseAfter (s : MarkSt) (n' : NodeSt) : MarkPhase :=
  if n'.pc.isDown then .outside
  else if s.n.pc.drains && n'.pc.isTop then
    .thawed n'.c.lastSeq ⟨n'.q.dev, n'.q.t.seqNext, s.lost⟩
  else s.phase

/-- no bio under the freeze, no record number beyond `2^64`; the main thread is in
`mark_consistent` until that returns -/
def MarkSt.allows (s : MarkSt) : NodeAct → Bool
  | .bio _ _ => !s.n.pc.drains && decide (s.n.q.t.seqNext + 1 < 2^64)
  | .read _ =>
    match s.phase with
    | .outside => true
    | _ => false
  | _ => true

def nodeMark (cfg : NodeConfig) (s : MarkSt) (a : NodeAct) : Option MarkSt :=
  if s.allows a then
    (nstep cfg s.n a).map fun n' =>
      ⟨n', s.phaseAfter n', s.doneAfter a, s.lostAfter cfg n' a, s.fetchedAfter cfg a⟩
  else none

/-- `while time.time() < deadline` fails; `finally` -/
def leaveMark (s : MarkSt) : Option MarkSt :=
  match s.n.pc with
  | .draining =>
    some { s with
      n := { s.n with pc := .top }
      phase := .thawed s.n.c.lastSeq ⟨s.n.q.dev, s.n.q.t.seqNext, s.lost⟩ }
  | _ => none

/-- the test after the thaw, and the write of the manifest -/
def writeMark (s : MarkSt) : Option MarkSt :=
  match s.phase with
  | .thawed seq p =>
    some { s with
      phase := if !s.n.gaps.queue.isEmpty || (s.n.worker .recovery).isSome then .outside
        else .written seq p }
  | _ => none

def returnMark (s : MarkSt) : Option MarkSt :=
  match s.phase with
  | .written _ _ => some { s with phase := .outside }
  | _ => none

inductive MarkAct where
  | node (a : NodeAct)
  | reboot (dev : Nat → UInt8)
  -- an exception ends a copy thread, wherever it is
  | die (who : Who)
  | leave
  | write
  | ret

def markStep (cfg : NodeConfig) (s : MarkSt) : MarkAct → Option MarkSt
  | .node a => nodeMark cfg s a
  | .reboot dev =>
    -- record numbers start again
    some { s with n := s.n.reboot cfg dev, phase := .outside, done := fun _ => false }
  | .die who => some { s with n := s.n.setWorker who none }
  | .leave => leaveMark s
  | .write => writeMark s
  | .ret => returnMark s

/-! ## the property and the condition -/

/-- the number of the last record reserved -/
def lastOf (next : Nat) : Option Nat := if next = 0 then none else some (next - 1)

structure Consistent (cfg : NodeConfig) (s : MarkSt) (seq : Option Nat) (p : Point) : Prop where
  applied : ∀ k, k < p.next → s.done k = true
  parked : s.n.files.pending = none
  deferred : s.n.c.deferred = []
  recovered : ∀ x, x < cfg.target.size → p.lost x = false
  seq : seq = lastOf p.next
  replica : ∀ x, x < cfg.target.size → s.n.c.img x = p.disk x

/-- the property: `mark_consistent` writes no other point -/
def PointOk (cfg : NodeConfig) (s : MarkSt) : Prop :=
  ∀ seq p, s.phase = .written seq p → Consistent cfg s seq p

/-- the records that `consume` has not seen -/
def NodePc.unseen : NodePc → List Item
  | .called _ batch => batch
  | .consuming _ _ _ rest => rest
  | _ => []

def NodeSt.unseen (n : NodeSt) : List Item := n.pc.unseen ++ n.q.unread

/-- a gap is queued, or on a record that the drain will see if it gets that far -/
def Told (n : NodeSt) : Prop :=
  n.gaps.queue ≠ [] ∨ ∃ r ∈ n.unseen, hasFlag r.hdr.flags FGapBefore = true

/-- the replica lacks nothing but the records that `consume` has not seen -/
structure Ready (cfg : NodeConfig) (s : MarkSt) : Prop where
  parked : s.n.files.pending = none
  hand : ∀ drain park parked rest, s.n.pc = .consuming drain park parked rest →
    park = false ∧ parked = []
  deferred : s.n.c.deferred = []
  -- no chunk is left flagged over one of them
  direct : ∀ r ∈ s.n.unseen, ¬s.n.c.Defers r
  applied : ∀ k, k < s.n.q.t.seqNext → s.done k = true ∨ ∃ r ∈ s.n.unseen, r.hdr.seq = k
  recovered : ∀ x, x < cfg.target.size → s.lost x = false
  fresh : ∀ x, x < cfg.target.size → Fresh (patches s.n.unseen) s.n.c.img s.n.q.dev x
  -- without a record to come `last_seq` is right already
  seq : s.n.unseen = [] → s.n.c.lastSeq = lastOf s.n.q.t.seqNext

/-- the drain may end here: a gap is queued, or the ring is empty -/
def DrainOk (n : NodeSt) : Prop := n.pc.drains = true → n.gaps.queue ≠ [] ∨ n.q.live = []

def MarkOk (cfg : NodeConfig) (s : MarkSt) : MarkAct → Prop
  | .node (.finish mark) => ∀ n', finishNode s.n mark = some n' → n'.pc.drains = true →
      Told s.n ∨ Ready cfg s
  | .node .test => s.n.pc.drains = true → Told s.n ∨ s.n.files.lock = false
  | .node (.read k) => (s.n.q.read k).1 = [] → DrainOk s.n
  | .leave => DrainOk s.n
  -- records parked in a boot have been replayed when it ends
  | .reboot _ => s.n.files.pending = none
  | _ => True

/-! ## what every step keeps -/

/-- the numbers of the unseen records -/
structure Numbered (n : NodeSt) : Prop where
  sorted : n.unseen.Pairwise fun r r' => r.hdr.seq < r'.hdr.seq
  below : ∀ r ∈ n.unseen, r.hdr.seq < n.q.t.seqNext
  last : ∀ r, n.unseen.getLast? = some r → r.hdr.seq + 1 = n.q.t.seqNext
  seen : n.pc ≠ .down → ∀ k, n.gaps.seen = some k →
    k < n.q.t.seqNext ∧ ∀ r ∈ n.unseen, k < r.hdr.seq

structure Sound (cfg : NodeConfig) (n : NodeSt) : Prop where
  shape : n.q.Shape cfg.target
  numbered : Numbered n

section
variable {cfg : NodeConfig} {n n' : NodeSt}

theorem getLast?_of_suffix {α : Type*} {l l' : List α} {x : α} (h : l' <:+ l)
    (hx : l'.getLast? = some x) : l.getLast? = some x := by
  obtain ⟨t, rfl⟩ := h
  rw [List.getLast?_append, hx]
  rfl

theorem Numbered.suffix (h : Numbered n) (hu : n'.unseen <:+ n.unseen)
    (hq : n'.q.t.seqNext = n.q.t.seqNext)
    (hg : n'.pc ≠ .down → ∀ k, n'.gaps.seen = some k →
      k < n.q.t.seqNext ∧ ∀ r ∈ n'.unseen, k < r.hdr.seq) :
    Numbered n' := by
  refine ⟨h.sorted.sublist hu.sublist, fun r hr => ?_, fun r hr => ?_, fun hup k hk => ?_⟩
  · rw [hq]
    exact h.below r (hu.subset hr)
  · rw [hq]
    exact h.last r (getLast?_of_suffix hu hr)
  · rw [hq]
    exact hg hup k hk

theorem Numbered.same (h : Numbered n) (hdn : n.pc = .down → n'.pc = .down)
    (hu : n'.unseen = n.unseen) (hq : n'.q.t.seqNext = n.q.t.seqNext)
    (hg : n'.gaps.seen = n.gaps.seen) : Numbered n' := by
  refine h.suffix (hu ▸ List.suffix_refl _) hq fun hup k hk => ?_
  rw [hu]
  exact h.seen (fun e => hup (hdn e)) k (hg ▸ hk)

theorem Sound.frame (h : Sound cfg n) (hsh : n'.q.Shape cfg.target)
    (hdn : n.pc = .down → n'.pc = .down) (hu : n'.unseen = n.unseen)
    (hq : n'.q.t.seqNext = n.q.t.seqNext) (hg : n'.gaps.seen = n.gaps.seen) : Sound cfg n' :=
  ⟨hsh, h.numbered.same hdn hu hq hg⟩

theorem down_of {pc : NodePc} (hpc : n.pc = pc) (hup : pc.isDown = false) :
    n.pc = .down → n'.pc = .down := fun e => absurd e (up_of hpc hup)

theorem Sound.main {pc : NodePc} (h : Sound cfg n) (hpc : n.pc = pc) (hup : pc.isDown = false)
    (hu : pc.unseen = []) (hu' : n'.pc.unseen = []) (hq : n'.q = n.q)
    (hg : n'.gaps.seen = n.gaps.seen) : Sound cfg n' := by
  refine h.frame (hq ▸ h.shape) (down_of hpc hup) ?_ (by rw [hq]) hg
  unfold NodeSt.unseen
  rw [hq, hpc, hu, hu']

theorem Sound.bio {b : Bio} {ts : Nat} (h : Sound cfg n) (hok : b.Ok cfg.target)
    (hlt : n.q.t.seqNext + 1 < 2^64) : Sound cfg { n with
      q := n.q.write cfg.target b ts
      dropped := n.dropped || (n.q.write cfg.target b ts).t.gapPending } := by
  obtain ⟨hm, hw⟩ := Feed.write_cases ts h.shape hok
  cases hw with
  | silent hn ht hl =>
    refine h.frame hm.shape id ?_ (congrArg Target.seqNext ht) rfl
    unfold NodeSt.unseen Feed.unread
    dsimp only
    rw [hl]
  | dropped hl hg hq =>
    refine h.frame hm.shape id ?_ hq rfl
    unfold NodeSt.unseen Feed.unread
    dsimp only
    rw [hl]
  | logged off r hl hpatch hrs hflag hg hq =>
    have hu : NodeSt.unseen { n with
        q := n.q.write cfg.target b ts
        dropped := n.dropped || (n.q.write cfg.target b ts).t.gapPending } = n.unseen ++ [r] := by
      unfold NodeSt.unseen Feed.unread
      dsimp only
      rw [hl, List.map_append, List.append_assoc]
      rfl
    have hnext : (n.q.write cfg.target b ts).t.seqNext = n.q.t.seqNext + 1 :=
      hq.trans (u64_of_lt hlt)
    have hn := h.numbered
    refine ⟨hm.shape, ⟨?_, ?_, ?_, ?_⟩⟩
    · rw [hu]
      refine List.pairwise_append.mpr ⟨hn.sorted, List.pairwise_singleton _ _, fun a ha c hc => ?_⟩
      obtain rfl := List.mem_singleton.mp hc
      rw [hrs]
      exact hn.below a ha
    · intro r' hr'
      rw [hu] at hr'
      show r'.hdr.seq < (n.q.write cfg.target b ts).t.seqNext
      rw [hnext]
      rcases List.mem_append.mp hr' with hr' | hr'
      · exact lt_trans (hn.below r' hr') (Nat.lt_succ_self _)
      · obtain rfl := List.mem_singleton.mp hr'
        rw [hrs]
        exact Nat.lt_succ_self _
    · intro r' hr'
      rw [hu, List.getLast?_concat] at hr'
      obtain rfl := Option.some.inj hr'
      show r.hdr.seq + 1 = (n.q.write cfg.target b ts).t.seqNext
      rw [hnext, hrs]
    · intro hup k hk
      obtain ⟨h1, h2⟩ := hn.seen hup k hk
      rw [hu]
      refine ⟨hnext ▸ lt_trans h1 (Nat.lt_succ_self _), fun r' hr' => ?_⟩
      rcases List.mem_append.mp hr' with hr' | hr'
      · exact h2 r' hr'
      · obtain rfl := List.mem_singleton.mp hr'
        rw [hrs]
        exact h1

theorem Numbered.note {r : Item} {rest : List Item} (h : Numbered n) (hup : n.pc ≠ .down)
    (hu : n.unseen = r :: rest)
    (hu' : n'.unseen = rest) (hq : n'.q.t.seqNext = n.q.t.seqNext)
    (hg : n'.gaps = n.gaps.note r) : Numbered n' := by
  refine h.suffix ?_ hq fun _ k hk => ?_
  · rw [hu, hu']
    exact List.suffix_cons r rest
  · have hsorted := h.sorted
    rw [hu] at hsorted
    have hnote := note_cases (g:=n.gaps) (r:=r) fun k hk =>
      (h.seen hup k hk).2 r (hu ▸ List.mem_cons_self)
    rw [hu']
    rw [hg] at hk
    rcases hnote with ⟨_, hn⟩ | ⟨_, hn⟩
    · rw [hn] at hk
      obtain rfl := Option.some.inj hk
      exact ⟨h.below r (hu ▸ List.mem_cons_self), (List.pairwise_cons.mp hsorted).1⟩
    · rw [hn] at hk
      obtain ⟨h1, h2⟩ := h.seen hup k hk
      exact ⟨h1, fun r' hr' => h2 r' (hu ▸ List.mem_cons_of_mem r hr')⟩

theorem unseen_eq {pc : NodePc} {l : List Item} (hpc : n.pc = pc) (hl : pc.unseen = l) :
    n.unseen = l ++ n.q.unread := by
  unfold NodeSt.unseen
  rw [hpc, hl]

theorem batch_unseen {drain : Bool} {l : List Item} {pc : NodePc} (hpc : pc.unseen = []) :
    (if l = [] then pc else NodePc.called drain l).unseen = l := by
  split
  · rename_i he
    rw [hpc, he]
  · rfl

theorem Sound.handed {k : Nat} {pc : NodePc} (h : Sound cfg n) (hpc : n.pc = pc)
    (hup : pc.isDown = false) (hu : pc.unseen = []) {pc' : NodePc} (hu' : pc'.unseen = (n.q.read k).1) :
    Sound cfg { n with q := (n.q.read k).2, pc := pc' } := by
  obtain ⟨hcat, _, tail, ht⟩ := Feed.read_cases k n.q
  refine h.frame (h.shape.read k) (down_of hpc hup) ?_ ?_ rfl
  · rw [unseen_eq hpc hu]
    show pc'.unseen ++ _ = _
    rw [hu']
    exact hcat
  · show (n.q.read k).2.t.seqNext = _
    rw [ht]

theorem Sound.work {who : Who} {m : Nat} (h : Sound cfg n) (hs : workNode cfg n who m = some n') :
    Sound cfg n' := by
  have ha := apart_of_work hs
  refine h.frame (ha.q ▸ h.shape) ha.pc.trans ?_ (by rw [ha.q]) (by rw [ha.gaps])
  unfold NodeSt.unseen
  rw [ha.pc, ha.q]

theorem Sound.crash (h : Sound cfg n) : Sound cfg n.crash := by
  refine ⟨h.shape, h.numbered.suffix ?_ rfl fun hup => absurd rfl hup⟩
  exact List.suffix_append _ _

theorem Sound.start (h : Sound cfg n) (hs : startNode cfg n = some n') : Sound cfg n' := by
  unfold startNode at hs
  split at hs
  · rename_i hpc
    obtain rfl := Option.some.inj hs
    refine ⟨⟨h.shape.chunk, h.shape.nbits⟩, h.numbered.suffix ?_ rfl fun _ k hk => by cases hk⟩
    rw [unseen_eq hpc (l:=[]) rfl]
    exact List.suffix_refl _
  · cases hs

/-- **What every step of the node keeps.** -/
theorem Sound.step {a : NodeAct} (h : Sound cfg n)
    (hlt : ∀ b ts, a = .bio b ts → n.q.t.seqNext + 1 < 2^64) (hs : nstep cfg n a = some n') :
    Sound cfg n' := by
  cases step_cases hs with
  | bio b ts hok => exact h.bio hok (hlt b ts rfl)
  | lock on => exact h.frame h.shape id rfl rfl rfl
  | seedData img _ _ => exact h.frame h.shape id rfl rfl rfl
  | seedMark => exact h.frame h.shape id rfl rfl rfl
  | start _ _ hst => exact h.start hst
  | crash _ => exact h.crash
  | stop _ => exact h.frame h.shape id rfl rfl rfl
  | read k hpc _ => exact h.handed hpc rfl rfl (batch_unseen rfl)
  | drain k hpc => exact h.handed hpc rfl rfl (batch_unseen rfl)
  | test drain batch hpc => exact h.frame h.shape (down_of hpc rfl) (unseen_eq hpc rfl).symm rfl rfl
  | park drain parked r rest hpc =>
    exact ⟨h.shape, h.numbered.note (up_of hpc rfl) (unseen_eq hpc rfl) rfl rfl rfl⟩
  | pass drain parked r rest hpc =>
    exact ⟨h.shape, h.numbered.note (up_of hpc rfl) (unseen_eq hpc rfl) rfl rfl rfl⟩
  | consumed drain park parked hpc =>
    exact h.main hpc rfl rfl (by cases drain <;> rfl) rfl rfl
  | adopt hpc _ _ => exact h.main hpc rfl rfl rfl rfl rfl
  | fallBack b hpc _ _ _ => exact h.main hpc rfl rfl rfl rfl rfl
  | noSeed hpc => exact h.main hpc rfl rfl rfl rfl rfl
  | gap g queue hpc _ _ _ => exact h.main hpc rfl rfl rfl rfl rfl
  | noGap hpc => exact h.main hpc rfl rfl rfl rfl rfl
  | word w snap hpc _ =>
    exact h.frame ⟨h.shape.chunk, h.shape.nbits⟩ (down_of hpc rfl)
      (unseen_eq hpc rfl).symm rfl rfl
  | cleared w snap hpc _ =>
    exact h.frame ⟨h.shape.chunk, h.shape.nbits⟩ (down_of hpc rfl)
      (unseen_eq hpc rfl).symm rfl rfl
  | persist es hpc => exact h.main hpc rfl rfl rfl rfl rfl
  | unpark l hpc _ _ => exact h.main hpc rfl rfl rfl rfl rfl
  | noPending hpc => exact h.main hpc rfl rfl rfl rfl rfl
  | apply r rest hpc => exact h.main hpc rfl rfl rfl rfl rfl
  | applied hpc => exact h.main hpc rfl rfl rfl rfl rfl
  | freeze mark hpc _ _ _ _ => exact h.main hpc rfl rfl rfl rfl rfl
  | finish mark hpc => exact h.main hpc rfl rfl rfl rfl rfl
  | enter w _ _ => exact h.frame h.shape id rfl rfl rfl
  | work who m _ _ hw => exact h.work hw

end

/-! ## under the freeze -/

/-- no copy thread, and none comes: a base copy has been made -/
structure Alone (n : NodeSt) : Prop where
  worker : ∀ who, n.worker who = none
  base : n.files.baseEnd ≠ none

section
variable {cfg : NodeConfig} {n n' : NodeSt}

/-- **The freeze**: the main thread gets into the drain at the end of an iteration only. -/
theorem drains_of_step {a : NodeAct} (hd : n.pc.drains = false) (hs : nstep cfg n a = some n')
    (hd' : n'.pc.drains = true) : ∃ mark, a = .finish mark ∧ n.pc = .settled ∧
      n.files.baseEnd ≠ none ∧ n.worker .recovery = none ∧ n' = { n with pc := .draining } := by
  have hstay : n'.pc = n.pc → False := fun e => by
    rw [e, hd] at hd'
    cases hd'
  have hmove : ∀ {pc : NodePc}, n'.pc = pc → pc.drains = false → False := fun e hf => by
    rw [e, hf] at hd'
    cases hd'
  cases step_cases hs with
  | freeze mark hpc hb _ hr _ => exact ⟨mark, rfl, hpc, hb, hr, rfl⟩
  | start _ _ hst =>
    refine (hmove (?_ : n'.pc = .top) rfl).elim
    unfold startNode at hst
    split at hst
    · exact (Option.some.inj hst) ▸ rfl
    · cases hst
  | read k _ _ => exact (hmove rfl (by dsimp only; split <;> rfl)).elim
  | drain k hpc => rw [hpc] at hd; cases hd
  | test drain batch hpc => rw [hpc] at hd; exact (hmove rfl hd).elim
  | park drain parked r rest hpc => rw [hpc] at hd; exact (hmove rfl hd).elim
  | pass drain parked r rest hpc => rw [hpc] at hd; exact (hmove rfl hd).elim
  | consumed drain park parked hpc =>
    rw [hpc] at hd
    obtain rfl : drain = false := hd
    exact (hmove rfl rfl).elim
  | work who m _ _ hw => exact (hstay (apart_of_work hw).pc).elim
  | bio _ _ _ => exact (hstay rfl).elim
  | lock _ => exact (hstay rfl).elim
  | seedData _ _ _ => exact (hstay rfl).elim
  | seedMark => exact (hstay rfl).elim
  | stop _ => exact (hstay rfl).elim
  | enter _ _ _ => exact (hstay rfl).elim
  | _ => exact (hmove rfl rfl).elim

/-- **What the phases know.** -/
def Phased (cfg : NodeConfig) (s : MarkSt) : Prop :=
  match s.phase with
  | .outside => s.n.pc.drains = true → Alone s.n ∧ (Told s.n ∨ Ready cfg s)
  | .thawed seq p => s.n.pc = .top ∧ Alone s.n ∧ (s.n.gaps.queue ≠ [] ∨ Consistent cfg s seq p)
  | .written seq p => s.n.pc = .top ∧ Alone s.n ∧ Consistent cfg s seq p

variable {s s' : MarkSt}

/-- a gap on the oldest record goes to the queue when that is consumed -/
theorem Told.note {r : Item} {rest : List Item} (h : Told n) (hn : Numbered n) (hup : n.pc ≠ .down)
    (hu : n.unseen = r :: rest) (hu' : n'.unseen = rest) (hg : n'.gaps = n.gaps.note r) :
    Told n' := by
  unfold Told
  rw [hu', hg]
  rcases h with hq | ⟨r', hr', hf⟩
  · exact Or.inl (note_queue _ r hq)
  · rw [hu] at hr'
    rcases List.mem_cons.mp hr' with rfl | hr'
    · have hnote := note_cases (g:=n.gaps) (r:=r') fun k hk =>
        (hn.seen hup k hk).2 r' (hu ▸ List.mem_cons_self)
      rcases hnote with ⟨_, e⟩ | ⟨e, _⟩
      · rw [e]
        exact Or.inl (List.append_ne_nil_of_right_ne_nil _ (List.cons_ne_nil _ _))
      · cases e.symm.trans hf
    · exact Or.inr ⟨r', hr', hf⟩

/-- **A record that the drain applies** is one less that the replica lacks. -/
theorem Ready.pass {r : Item} {rest : List Item} (h : Ready cfg s) (hn : Numbered s.n)
    (hu : s.n.unseen = r :: rest) (hu' : s'.n.unseen = rest)
    (hc : s'.n.c = s.n.c.applyOne r) (hq : s'.n.q = s.n.q)
    (hf : s'.n.files.pending = s.n.files.pending)
    (hpc : ∀ drain park parked rest, s'.n.pc = .consuming drain park parked rest →
      park = false ∧ parked = [])
    (hd : ∀ k, s'.done k = (s.done k || r.hdr.seq == k)) (hl : s'.lost = s.lost) : Ready cfg s' := by
  have hdirect := h.direct r (hu ▸ List.mem_cons_self)
  obtain ⟨himg, hcop, hdef⟩ := applyOne_direct hdirect
  refine ⟨hf.trans h.parked, hpc, ?_, fun r' hr' => ?_, fun k hk => ?_, fun x hx => ?_,
    fun x hx => ?_, fun he => ?_⟩
  · rw [hc, hdef]
    exact h.deferred
  · have hr := h.direct r' (hu ▸ List.mem_cons_of_mem r (hu' ▸ hr'))
    unfold Shared.Defers at hr ⊢
    rw [hc, hcop]
    exact hr
  · rw [hq] at hk
    rw [hd, hu', Bool.or_eq_true, beq_iff_eq]
    rcases h.applied k hk with hdone | ⟨r', hr', e⟩
    · exact Or.inl (Or.inl hdone)
    · rw [hu] at hr'
      rcases List.mem_cons.mp hr' with rfl | hr'
      · exact Or.inl (Or.inr e)
      · exact Or.inr ⟨r', hr', e⟩
  · rw [hl]
    exact h.recovered x hx
  · have hx := h.fresh x hx
    rw [hu] at hx
    rw [hu', hc, himg, hq]
    exact fresh_head hx
  · rw [hu'] at he
    have hlast := hn.last r (by rw [hu, he]; rfl)
    rw [hc, hq]
    unfold Shared.applyOne lastOf
    rw [if_neg hdirect, if_neg (by omega), ← hlast]
    rfl

/-- **The ring is empty**: the point is consistent. -/
theorem Ready.consistent {seq : Option Nat} {p : Point} (h : Ready cfg s) (he : s.n.unseen = [])
    (hd : s'.done = s.done) (hc : s'.n.c = s.n.c) (hf : s'.n.files.pending = s.n.files.pending)
    (hseq : seq = s.n.c.lastSeq) (hp : p = ⟨s.n.q.dev, s.n.q.t.seqNext, s.lost⟩) :
    Consistent cfg s' seq p := by
  subst hseq hp
  refine ⟨fun k hk => ?_, hf.trans h.parked, ?_, h.recovered, h.seq he, fun x hx => ?_⟩
  · rcases h.applied k hk with hdone | ⟨r, hr, _⟩
    · rw [hd]
      exact hdone
    · rw [he] at hr
      exact absurd hr List.not_mem_nil
  · rw [hc]
    exact h.deferred
  · have hx := h.fresh x hx
    rw [he] at hx
    rw [hc]
    exact fresh_nil.mp hx

theorem thaw_ok (ht : Told s.n ∨ Ready cfg s) (hpc : s.n.pc = .draining) (hok : DrainOk s.n) :
    s.n.gaps.queue ≠ [] ∨ s.n.unseen = [] ∧ Ready cfg s := by
  rcases hok (by rw [hpc]; rfl) with hq | hlive
  · exact Or.inl hq
  · have hu : s.n.unseen = [] := by
      rw [unseen_eq hpc (l:=[]) rfl]
      unfold Feed.unread
      rw [hlive]
      rfl
    rcases ht with (hq | ⟨r, hr, _⟩) | hr
    · exact Or.inl hq
    · rw [hu] at hr
      exact absurd hr List.not_mem_nil
    · exact Or.inr ⟨hu, hr⟩

theorem Ready.same (h : Ready cfg s) (hf : s'.n.files.pending = s.n.files.pending)
    (hpc : ∀ drain park parked rest, s'.n.pc = .consuming drain park parked rest →
      park = false ∧ parked = [])
    (hu : s'.n.unseen = s.n.unseen) (hc : s'.n.c = s.n.c) (hdev : s'.n.q.dev = s.n.q.dev)
    (hq : s'.n.q.t.seqNext = s.n.q.t.seqNext) (hd : s'.done = s.done) (hl : s'.lost = s.lost) :
    Ready cfg s' := by
  refine ⟨hf.trans h.parked, hpc, ?_, ?_, ?_, ?_, ?_, ?_⟩
  · rw [hc]
    exact h.deferred
  · rw [hu, hc]
    exact h.direct
  · rw [hq, hd, hu]
    exact h.applied
  · rw [hl]
    exact h.recovered
  · rw [hu, hc, hdev]
    exact h.fresh
  · rw [hu, hc, hq]
    exact h.seq

theorem Told.same (h : Told n) (hu : n'.unseen = n.unseen) (hg : n'.gaps.queue = n.gaps.queue) :
    Told n' := by
  unfold Told
  rw [hu, hg]
  exact h

theorem phased_outside (hp : s'.phase = .outside)
    (h : s'.n.pc.drains = true → Alone s'.n ∧ (Told s'.n ∨ Ready cfg s')) : Phased cfg s' := by
  unfold Phased
  rw [hp]
  exact h

theorem phaseAfter_stay (hph : s.phase = .outside) (ht : n'.pc.isTop = false) :
    s.phaseAfter n' = .outside := by
  unfold MarkSt.phaseAfter
  rw [ht, Bool.and_false, hph]
  split <;> rfl

theorem phased_stay {done lost : Nat → Bool} {fetched : Who → Nat → Bool} (hph : s.phase = .outside)
    (ht : n'.pc.isTop = false)
    (h : n'.pc.drains = true → Alone n' ∧
      (Told n' ∨ Ready cfg ⟨n', s.phaseAfter n', done, lost, fetched⟩)) :
    Phased cfg ⟨n', s.phaseAfter n', done, lost, fetched⟩ :=
  phased_outside (phaseAfter_stay hph ht) h

theorem Phased.env {a : NodeAct} (hd : s.n.pc.drains = true) (ha : Alone s.n)
    (hph : s.phase = .outside) (ht : Told s.n ∨ Ready cfg s) (hpc : n'.pc = s.n.pc)
    (hq : n'.q = s.n.q) (hc : n'.c = s.n.c) (hg : n'.gaps = s.n.gaps)
    (hw : n'.worker = s.n.worker) (hp : n'.files.pending = s.n.files.pending)
    (hb : n'.files.baseEnd = s.n.files.baseEnd) (hdone : s.doneAfter a = s.done)
    (hlost : s.lostAfter cfg n' a = s.lost) :
    Phased cfg ⟨n', s.phaseAfter n', s.doneAfter a, s.lostAfter cfg n' a, s.fetchedAfter cfg a⟩ := by
  have htop : n'.pc.isTop = false := by
    rw [hpc]
    cases htop : s.n.pc.isTop with
    | false => rfl
    | true =>
      rw [NodePc.isTop_iff.mp htop] at hd
      cases hd
  have hu : n'.unseen = s.n.unseen := by
    unfold NodeSt.unseen
    rw [hpc, hq]
  refine phased_stay hph htop fun _ => ⟨⟨hw ▸ ha.worker, hb ▸ ha.base⟩, ?_⟩
  refine ht.imp (fun h => h.same hu (by rw [hg])) fun h => ?_
  exact h.same hp (hpc ▸ h.hand) hu hc (by rw [hq]) (by rw [hq]) hdone hlost

/-- **The drain**, up to the thaw. -/
theorem Phased.drain {a : NodeAct} (h : Sound cfg s.n) (hd : s.n.pc.drains = true)
    (ha : Alone s.n) (hph : s.phase = .outside) (ht : Told s.n ∨ Ready cfg s)
    (hg : MarkOk cfg s (.node a)) (hal : s.allows a = true) (hs : nstep cfg s.n a = some n') :
    Phased cfg ⟨n', s.phaseAfter n', s.doneAfter a, s.lostAfter cfg n' a, s.fetchedAfter cfg a⟩ := by
  have hno : ∀ {pc : NodePc}, s.n.pc = pc → pc.drains = false → False := fun e hf => by
    rw [e, hf] at hd
    cases hd
  cases step_cases hs with
  | bio b ts _ =>
    unfold MarkSt.allows at hal
    rw [hd] at hal
    cases hal
  | lock on => exact Phased.env hd ha hph ht rfl rfl rfl rfl rfl rfl rfl rfl rfl
  | seedData img hb _ => exact absurd hb ha.base
  | seedMark => exact Phased.env hd ha hph ht rfl rfl rfl rfl rfl rfl rfl rfl rfl
  | start _ hpc _ => exact (hno hpc rfl).elim
  | crash _ => exact phased_stay hph rfl fun e => by cases e
  | stop _ => exact Phased.env hd ha hph ht rfl rfl rfl rfl rfl rfl rfl rfl rfl
  | read k hpc _ => exact (hno hpc rfl).elim
  | drain k hpc =>
    obtain ⟨hcat, hdev, tail, htl⟩ := Feed.read_cases k s.n.q
    by_cases he : (s.n.q.read k).1 = []
    · have hthaw := thaw_ok ht hpc (hg he)
      unfold Phased MarkSt.phaseAfter
      dsimp only
      rw [if_pos he, hd, hdev, htl]
      refine ⟨rfl, ⟨ha.worker, ha.base⟩, hthaw.imp_right fun ⟨hu, hr⟩ => ?_⟩
      exact hr.consistent hu rfl rfl rfl rfl rfl
    · rw [if_neg he]
      have hu : NodeSt.unseen { s.n with q := (s.n.q.read k).2, pc := .called true (s.n.q.read k).1 }
          = s.n.unseen := (hcat.trans (unseen_eq hpc (l:=[]) rfl).symm)
      refine phased_stay hph rfl fun _ => ⟨⟨ha.worker, ha.base⟩, ?_⟩
      refine ht.imp (fun h => h.same hu rfl) fun h => ?_
      exact h.same rfl (fun _ _ _ _ e => by cases e) hu rfl hdev (by rw [htl]) rfl rfl
  | test drain batch hpc =>
    have hu := unseen_eq hpc (l:=batch) rfl
    refine phased_stay hph rfl fun _ => ⟨⟨ha.worker, ha.base⟩, ?_⟩
    rcases ht with ht | hr
    · exact Or.inl (ht.same hu.symm rfl)
    · rcases hg hd with ht | hl
      · exact Or.inl (ht.same hu.symm rfl)
      · refine Or.inr (hr.same rfl (fun _ _ _ _ e => ?_) hu.symm rfl rfl rfl rfl rfl)
        cases e
        exact ⟨hl, rfl⟩
  | park drain parked r rest hpc =>
    refine phased_stay hph rfl fun _ => ⟨⟨ha.worker, ha.base⟩, ?_⟩
    rcases ht with ht | hr
    · exact Or.inl (ht.note h.numbered (up_of hpc rfl) (unseen_eq hpc rfl) rfl rfl)
    · cases (hr.hand _ _ _ _ hpc).1
  | pass drain parked r rest hpc =>
    refine phased_stay hph rfl fun _ => ⟨⟨ha.worker, ha.base⟩, ?_⟩
    rcases ht with ht | hr
    · exact Or.inl (ht.note h.numbered (up_of hpc rfl) (unseen_eq hpc rfl) rfl rfl)
    · obtain rfl := (hr.hand _ _ _ _ hpc).2
      have hu := unseen_eq hpc (l:=r :: rest) rfl
      have hnd : ¬s.n.c.Defers r := hr.direct r (hu ▸ List.mem_cons_self)
      refine Or.inr (hr.pass h.numbered hu rfl rfl rfl rfl (fun _ _ _ _ e => ?_) (fun k => ?_) rfl)
      · cases e
        exact ⟨rfl, rfl⟩
      · show s.doneAfter .consume k = _
        unfold MarkSt.doneAfter NodeSt.applies
        rw [hpc]
        dsimp only
        rw [decide_eq_false hnd]
        rfl
  | consumed drain park parked hpc =>
    have hu := unseen_eq hpc (l:=[]) rfl
    have hdr : drain = true := by
      rw [hpc] at hd
      exact hd
    subst hdr
    refine phased_stay hph rfl fun _ => ⟨⟨ha.worker, ha.base⟩, ?_⟩
    refine ht.imp (fun h => h.same hu.symm rfl) fun hr => ?_
    refine hr.same (if_pos (hr.hand _ _ _ _ hpc).2) (fun _ _ _ _ e => by cases e) hu.symm rfl rfl rfl
      ?_ rfl
    show s.doneAfter .consume = _
    unfold MarkSt.doneAfter NodeSt.applies
    rw [hpc]
    cases park <;> rfl
  | adopt hpc _ _ => exact (hno hpc rfl).elim
  | fallBack b hpc _ _ _ => exact (hno hpc rfl).elim
  | noSeed hpc => exact (hno hpc rfl).elim
  | gap g queue hpc _ _ _ => exact (hno hpc rfl).elim
  | noGap hpc => exact (hno hpc rfl).elim
  | word w snap hpc _ => exact (hno hpc rfl).elim
  | cleared w snap hpc _ => exact (hno hpc rfl).elim
  | persist es hpc => exact (hno hpc rfl).elim
  | unpark l hpc _ _ => exact (hno hpc rfl).elim
  | noPending hpc => exact (hno hpc rfl).elim
  | apply r rest hpc => exact (hno hpc rfl).elim
  | applied hpc => exact (hno hpc rfl).elim
  | freeze mark hpc _ _ _ _ => exact (hno hpc rfl).elim
  | finish mark hpc => exact (hno hpc rfl).elim
  | enter w _ hw => rw [ha.worker] at hw; cases hw
  | work who m _ _ hw =>
    obtain ⟨w, hw, _⟩ := work_cases hw
    rw [ha.worker] at hw
    cases hw

/-! ## after the thaw -/

theorem Consistent.same {seq : Option Nat} {p : Point} (h : Consistent cfg s seq p)
    (hd : ∀ k, s.done k = true → s'.done k = true)
    (hf : s'.n.files.pending = s.n.files.pending) (hc : s'.n.c = s.n.c) :
    Consistent cfg s' seq p := by
  refine ⟨fun k hk => hd k (h.applied k hk), hf.trans h.parked, ?_, h.recovered, h.seq, ?_⟩
  · rw [hc]
    exact h.deferred
  · rw [hc]
    exact h.replica

/-- until `mark_consistent` returns the main thread does nothing else -/
theorem settled_after {a : NodeAct} (hpc : s.n.pc = .top) (ha : Alone s.n)
    (hal : ∀ k, a ≠ .read k) (hs : nstep cfg s.n a = some n') :
    n'.pc = .down ∨ (n'.pc = .top ∧ Alone n' ∧ n'.gaps = s.n.gaps ∧ n'.c = s.n.c ∧
      n'.files.pending = s.n.files.pending ∧ s.doneAfter a = s.done) := by
  have hno : ∀ {pc : NodePc}, s.n.pc = pc → pc.isTop = false → False := fun e hf => by
    rw [← e, hpc] at hf
    cases hf
  cases step_cases hs with
  | bio b ts _ => exact Or.inr ⟨hpc, ⟨ha.worker, ha.base⟩, rfl, rfl, rfl, rfl⟩
  | lock on => exact Or.inr ⟨hpc, ⟨ha.worker, ha.base⟩, rfl, rfl, rfl, rfl⟩
  | seedData img hb _ => exact absurd hb ha.base
  | seedMark => exact Or.inr ⟨hpc, ⟨ha.worker, ha.base⟩, rfl, rfl, rfl, rfl⟩
  | crash _ => exact Or.inl rfl
  | stop _ => exact Or.inr ⟨hpc, ⟨ha.worker, ha.base⟩, rfl, rfl, rfl, rfl⟩
  | read k _ _ => exact absurd rfl (hal k)
  | enter w _ hw => rw [ha.worker] at hw; cases hw
  | work who m _ _ hw =>
    obtain ⟨w, hw, _⟩ := work_cases hw
    rw [ha.worker] at hw
    cases hw
  | start _ hp _ => exact (hno hp rfl).elim
  | drain k hp => exact absurd rfl (hal k)
  | test drain batch hp => exact (hno hp rfl).elim
  | park drain parked r rest hp => exact (hno hp rfl).elim
  | pass drain parked r rest hp => exact (hno hp rfl).elim
  | consumed drain park parked hp => exact (hno hp rfl).elim
  | adopt hp _ _ => exact (hno hp rfl).elim
  | fallBack b hp _ _ _ => exact (hno hp rfl).elim
  | noSeed hp => exact (hno hp rfl).elim
  | gap g queue hp _ _ _ => exact (hno hp rfl).elim
  | noGap hp => exact (hno hp rfl).elim
  | word w snap hp _ => exact (hno hp rfl).elim
  | cleared w snap hp _ => exact (hno hp rfl).elim
  | persist es hp => exact (hno hp rfl).elim
  | unpark l hp _ _ => exact (hno hp rfl).elim
  | noPending hp => exact (hno hp rfl).elim
  | apply r rest hp => exact (hno hp rfl).elim
  | applied hp => exact (hno hp rfl).elim
  | freeze mark hp _ _ _ _ => exact (hno hp rfl).elim
  | finish mark hp => exact (hno hp rfl).elim

theorem Phased.node {a : NodeAct} (h : Sound cfg s.n) (hbased : Based s.n) (hph : Phased cfg s)
    (hg : MarkOk cfg s (.node a)) (hal : s.allows a = true) (hs : nstep cfg s.n a = some n') :
    Phased cfg ⟨n', s.phaseAfter n', s.doneAfter a, s.lostAfter cfg n' a, s.fetchedAfter cfg a⟩ := by
  have hread : s.phase ≠ .outside → ∀ k, a ≠ .read k := by
    rintro hp k rfl
    unfold MarkSt.allows at hal
    cases hphase : s.phase with
    | outside => exact hp hphase
    | thawed seq p => rw [hphase] at hal; cases hal
    | written seq p => rw [hphase] at hal; cases hal
  have hafter : s.n.pc = .top → n'.pc = .top → s.phaseAfter n' = s.phase := fun e e' => by
    unfold MarkSt.phaseAfter
    rw [e, e']
    rfl
  have hdown : n'.pc = .down → Phased cfg
      ⟨n', s.phaseAfter n', s.doneAfter a, s.lostAfter cfg n' a, s.fetchedAfter cfg a⟩ := fun e => by
    refine phased_outside (?_ : s.phaseAfter n' = .outside) fun hd => ?_
    · unfold MarkSt.phaseAfter
      rw [e]
      rfl
    · rw [show n'.pc = .down from e] at hd
      cases hd
  unfold Phased at hph
  cases hphase : s.phase with
  | outside =>
    rw [hphase] at hph
    cases hd : s.n.pc.drains with
    | true => exact Phased.drain h hd (hph hd).1 hphase (hph hd).2 hg hal hs
    | false =>
      have hstay : s.phaseAfter n' = .outside := by
        unfold MarkSt.phaseAfter
        rw [hd, hphase]
        split <;> rfl
      refine phased_outside hstay fun hd' => ?_
      obtain ⟨mark, rfl, hpc, hb, hr, rfl⟩ := drains_of_step hd hs hd'
      have hwork : ∀ who, s.n.worker who = none := fun who => by
        cases who with
        | base =>
          by_contra hw
          exact hb (hbased.base hw)
        | recovery => exact hr
      have hu := unseen_eq hpc (l:=[]) rfl
      refine ⟨⟨hwork, hb⟩, (hg _ hs hd').imp (fun ht => ht.same hu.symm rfl) fun hrd => ?_⟩
      exact hrd.same rfl (fun _ _ _ _ e => by cases e) hu.symm rfl rfl rfl rfl rfl
  | thawed seq p =>
    rw [hphase] at hph
    obtain ⟨hpc, ha, hq⟩ := hph
    rcases settled_after hpc ha (hread (by rw [hphase]; simp)) hs with e | ⟨e, ha', eg, ec, ep, ed⟩
    · exact hdown e
    · unfold Phased
      dsimp only
      rw [hafter hpc e, hphase, eg]
      exact ⟨e, ha', hq.imp_right fun hc => hc.same (fun k hk => (congrFun ed k).trans hk) ep ec⟩
  | written seq p =>
    rw [hphase] at hph
    obtain ⟨hpc, ha, hc⟩ := hph
    rcases settled_after hpc ha (hread (by rw [hphase]; simp)) hs with e | ⟨e, ha', eg, ec, ep, ed⟩
    · exact hdown e
    · unfold Phased
      dsimp only
      rw [hafter hpc e, hphase]
      exact ⟨e, ha', hc.same (fun k hk => (congrFun ed k).trans hk) ep ec⟩

structure MarkInv (cfg : NodeConfig) (s : MarkSt) : Prop where
  sound : Sound cfg s.n
  based : Based s.n
  phased : Phased cfg s

theorem Numbered.fresh (hu : n.unseen = []) (hpc : n.pc = .down) : Numbered n := by
  refine ⟨?_, fun r hr => ?_, fun r hr => ?_, fun hup => absurd hpc hup⟩
  · rw [hu]
    exact List.Pairwise.nil
  · rw [hu] at hr
    exact absurd hr List.not_mem_nil
  · rw [hu] at hr
    cases hr

theorem MarkInv.init (cfg : NodeConfig) (dev img : Nat → UInt8) :
    MarkInv cfg (MarkSt.init cfg dev img) :=
  ⟨⟨⟨rfl, rfl⟩, Numbered.fresh rfl rfl⟩, ⟨fun e => absurd rfl e, fun e => by cases e⟩,
    fun e => by cases e⟩

theorem MarkInv.die {who : Who} (h : MarkInv cfg s) :
    MarkInv cfg { s with n := s.n.setWorker who none } := by
  have halone : Alone s.n → Alone (s.n.setWorker who none) := fun ha =>
    ⟨fun v => setWorker_none (ha.worker v), ha.base⟩
  refine ⟨⟨h.sound.shape, h.sound.numbered.same id rfl rfl rfl⟩, h.based.die, ?_⟩
  have hph := h.phased
  unfold Phased at hph ⊢
  dsimp only
  cases hphase : s.phase with
  | outside =>
    rw [hphase] at hph
    refine fun hd => ⟨halone (hph hd).1, (hph hd).2.imp (fun ht => ht.same rfl rfl) fun hr => ?_⟩
    exact hr.same rfl hr.hand rfl rfl rfl rfl rfl rfl
  | thawed seq p =>
    rw [hphase] at hph
    exact ⟨hph.1, halone hph.2.1, hph.2.2.imp_right fun hc => hc.same (fun _ e => e) rfl rfl⟩
  | written seq p =>
    rw [hphase] at hph
    exact ⟨hph.1, halone hph.2.1, hph.2.2.same (fun _ e => e) rfl rfl⟩

theorem MarkInv.step {a : MarkAct} (h : MarkInv cfg s) (hg : MarkOk cfg s a)
    (hs : markStep cfg s a = some s') : MarkInv cfg s' := by
  cases a with
  | node a =>
    change nodeMark cfg s a = some s' at hs
    unfold nodeMark at hs
    split at hs
    · rename_i hal
      obtain ⟨n', hn, rfl⟩ := Option.map_eq_some_iff.mp hs
      refine ⟨h.sound.step (fun b ts e => ?_) hn, h.based.step hn,
        h.phased.node h.sound h.based hg hal hn⟩
      subst e
      exact of_decide_eq_true (Bool.and_eq_true_iff.mp hal).2
    · cases hs
  | reboot dev =>
    obtain rfl := Option.some.inj hs
    exact ⟨⟨⟨rfl, rfl⟩, Numbered.fresh rfl rfl⟩, ⟨h.based.crash.base, h.based.crash.seed⟩,
      fun e => by cases e⟩
  | die who =>
    obtain rfl := Option.some.inj hs
    exact h.die
  | leave =>
    change leaveMark s = some s' at hs
    unfold leaveMark at hs
    split at hs
    · rename_i hpc
      obtain rfl := Option.some.inj hs
      refine ⟨h.sound.main hpc rfl rfl rfl rfl rfl, ⟨h.based.base, h.based.seed⟩, ?_⟩
      have hph := h.phased
      unfold Phased at hph
      cases hphase : s.phase with
      | outside =>
        rw [hphase] at hph
        obtain ⟨ha, ht⟩ := hph (by rw [hpc]; rfl)
        refine ⟨rfl, ⟨ha.worker, ha.base⟩, (thaw_ok ht hpc hg).imp_right fun ⟨hu, hr⟩ => ?_⟩
        exact hr.consistent hu rfl rfl rfl rfl rfl
      | thawed seq p => rw [hphase] at hph; cases hpc.symm.trans hph.1
      | written seq p => rw [hphase] at hph; cases hpc.symm.trans hph.1
    · cases hs
  | write =>
    change writeMark s = some s' at hs
    unfold writeMark at hs
    split at hs
    · rename_i seq p hphase
      obtain rfl := Option.some.inj hs
      have hph := h.phased
      unfold Phased at hph
      rw [hphase] at hph
      obtain ⟨hpc, ha, hq⟩ := hph
      refine ⟨h.sound, h.based, ?_⟩
      split
      · refine phased_outside rfl fun hd => ?_
        rw [show s.n.pc = .top from hpc] at hd
        cases hd
      · rename_i hcond
        refine ⟨hpc, ha, ?_⟩
        rcases hq with hq | hc
        · refine absurd (Bool.or_eq_true_iff.mpr (Or.inl ?_)) hcond
          cases hqueue : s.n.gaps.queue with
          | nil => exact absurd hqueue hq
          | cons g queue => rfl
        · exact hc.same (fun _ e => e) rfl rfl
    · cases hs
  | ret =>
    change returnMark s = some s' at hs
    unfold returnMark at hs
    split at hs
    · rename_i seq p hphase
      obtain rfl := Option.some.inj hs
      have hph := h.phased
      unfold Phased at hph
      rw [hphase] at hph
      refine ⟨h.sound, h.based, phased_outside rfl fun hd => ?_⟩
      rw [show s.n.pc = .top from hph.1] at hd
      cases hd
    · cases hs

end

/-- **A recorded consistent point is consistent**, in a run that meets `MarkOk`. -/
theorem consistent_point (cfg : NodeConfig) (dev img : Nat → UInt8) (as : List MarkAct) (s : MarkSt)
    (hg : Meets (markStep cfg) (MarkOk cfg) (MarkSt.init cfg dev img) as)
    (h : exec (markStep cfg) (MarkSt.init cfg dev img) as = some s) : PointOk cfg s := by
  have hi := exec_invariant_meets (P:=MarkInv cfg) (fun u a v hu hga hs => hu.step hga hs)
    (MarkInv.init cfg dev img) hg h
  intro seq p hphase
  have hph := hi.phased
  unfold Phased at hph
  rw [hphase] at hph
  exact hph.2.2

/-! ## the runs -/

def MarkPhase.isWritten : MarkPhase → Bool
  | .written _ _ => true
  | _ => false

theorem MarkPhase.isWritten_iff {phase : MarkPhase} :
    phase.isWritten = true ↔ ∃ seq p, phase = .written seq p := by
  cases phase <;> simp [MarkPhase.isWritten]

def readyB (cfg : NodeConfig) (s : MarkSt) : Bool :=
  s.n.files.pending.isNone && s.n.c.deferred.isEmpty && s.n.c.copying.isNone &&
    (match s.n.pc with
    | .consuming _ _ _ _ => false
    | _ => true) &&
    (List.range s.n.q.t.seqNext).all (fun k => s.done k || s.n.unseen.any fun r => r.hdr.seq == k) &&
    (List.range cfg.target.size).all (fun x =>
      !s.lost x && (net (patches s.n.unseen) x).getD (s.n.c.img x) == s.n.q.dev x) &&
    (!s.n.unseen.isEmpty || s.n.c.lastSeq == lastOf s.n.q.t.seqNext)

theorem ready_of_test {cfg : NodeConfig} {s : MarkSt} (h : readyB cfg s = true) : Ready cfg s := by
  simp only [readyB, Bool.and_eq_true, Option.isNone_iff_eq_none, List.isEmpty_iff,
    List.all_eq_true, List.mem_range, Bool.not_eq_true', beq_iff_eq, Bool.or_eq_true,
    List.any_eq_true] at h
  obtain ⟨⟨⟨⟨⟨⟨hp, hd⟩, hc⟩, hpc⟩, hdone⟩, hx⟩, hseq⟩ := h
  refine ⟨hp, fun drain park parked rest e => ?_, hd, fun r _ hdef => ?_, hdone,
    fun x hlt => (hx x hlt).1, fun x hlt => (hx x hlt).2, fun he => ?_⟩
  · rw [e] at hpc
    cases hpc
  · unfold Shared.Defers at hdef
    rw [hc] at hdef
    exact hdef
  · refine hseq.resolve_left fun hne => ?_
    rw [he] at hne
    cases hne

/-- enough for `MarkOk` where no bio is dropped -/
def markOkB (cfg : NodeConfig) (s : MarkSt) : MarkAct → Bool
  | .node (.finish _) => readyB cfg s
  | .node .test => !s.n.files.lock
  | .node (.read k) => !s.n.pc.drains || !(s.n.q.read k).1.isEmpty || s.n.q.live.isEmpty
  | .node _ => true
  | .leave => s.n.q.live.isEmpty
  | .reboot _ => s.n.files.pending.isNone
  | _ => true

theorem markOk_of_test {cfg : NodeConfig} (s : MarkSt) (a : MarkAct) (h : markOkB cfg s a = true) :
    MarkOk cfg s a := by
  unfold MarkOk
  split
  · exact fun _ _ _ => Or.inr (ready_of_test h)
  · exact fun _ => Or.inr ((Bool.not_eq_true' _).mp h)
  · rename_i k
    intro he hd
    change (!s.n.pc.drains || !(s.n.q.read k).1.isEmpty || s.n.q.live.isEmpty) = true at h
    rw [he, hd] at h
    exact Or.inr (List.isEmpty_iff.mp h)
  · exact fun _ => Or.inr (List.isEmpty_iff.mp h)
  · exact Option.isNone_iff_eq_none.mp h
  · trivial

def sectorTrim : Bio := ⟨.discard, 0, 512, false, false, fun _ => 0⟩

/-- an iteration that reads nothing, up to its end -/
def idleLoop : List NodeAct := [.read 0, .checkSeed, .gapTest, .pendingTest]

/-- a base copy has been made; a discard is in the ring at the freeze -/
def freezeRun : List MarkAct :=
  ([.start] ++ baseCopy ++ idleLoop ++ [.bio sectorTrim 0, .finish true] : List NodeAct).map .node

/-- the drain with one batch, the thaw, the write -/
def drainRun : List MarkAct :=
  ([.read 1, .test, .consume, .consume, .read 0] : List NodeAct).map .node ++ [.write]

theorem consistent_point_run : ∃ s,
    exec (markStep tinyNode) (MarkSt.init tinyNode (fun _ => 3) fun _ => 3) (freezeRun ++ drainRun)
      = some s ∧ ((∃ seq p, s.phase = .written seq p) ∧ s.n.c.img 0 = 0) ∧ PointOk tinyNode s := by
  have h : (exec (markStep tinyNode) (MarkSt.init tinyNode (fun _ => 3) fun _ => 3)
      (freezeRun ++ drainRun)).any (fun s => s.phase.isWritten && s.n.c.img 0 == 0) = true := by
    decide +kernel
  obtain ⟨s, hs, hp⟩ := (Option.any_eq_true _ _).mp h
  rw [Bool.and_eq_true, beq_iff_eq] at hp
  exact ⟨s, hs, ⟨MarkPhase.isWritten_iff.mp hp.1, hp.2⟩,
    consistent_point tinyNode (fun _ => 3) (fun _ => 3) (freezeRun ++ drainRun) s
      (meets_of_meetsB markOk_of_test (by decide +kernel)) hs⟩

/-- **A rebuild begins during the freeze**: the drain parks the record, and the point is written. -/
theorem point_parked : ∃ s,
    exec (markStep tinyNode) (MarkSt.init tinyNode (fun _ => 3) fun _ => 3)
      (freezeRun ++ [.node (.lock true)] ++ drainRun) = some s ∧
      s.n.q.dev 0 = 0 ∧ s.n.c.img 0 = 3 ∧ ¬PointOk tinyNode s := by
  have h : (exec (markStep tinyNode) (MarkSt.init tinyNode (fun _ => 3) fun _ => 3)
      (freezeRun ++ [.node (.lock true)] ++ drainRun)).any (fun s => s.phase.isWritten &&
        (s.n.files.pending.isSome && (s.n.q.dev 0 == 0 && s.n.c.img 0 == 3))) = true := by
    decide +kernel
  obtain ⟨s, hs, hp⟩ := (Option.any_eq_true _ _).mp h
  simp only [Bool.and_eq_true, beq_iff_eq] at hp
  obtain ⟨hw, hpend, hdev, himg⟩ := hp
  obtain ⟨seq, p, hphase⟩ := MarkPhase.isWritten_iff.mp hw
  refine ⟨s, hs, hdev, himg, fun hall => ?_⟩
  rw [(hall seq p hphase).parked] at hpend
  cases hpend

end CDP
