import DmCdp.Daemon.NodeInv

/-!
# Crashes of the daemon

The target stays loaded; the daemon dies between any two of its steps and starts again.  `os.read`
has moved the tail of the ring when a batch is in hand, so what a crash takes with it is neither in
the ring nor, before the `pwrite`, in the replica.

* `NodeSt.lost`       the records a crash takes, or has replayed a second time;
* `LossOk`            a crash may come where each of their bytes, and each byte that only a queued
                      recovery would repair, is right already or will be overwritten;
* `crash_keeps_sync`  a run whose crashes come only there is in sync wherever it settles; bios are
                      single steps;
* `crash_loses`       the run in which the daemon dies between `os.read` and `pwrite`.
-/

set_option linter.unusedVariables false

namespace CDP
open Img Mach

/-! ## what a crash takes -/

/-- records that are only in memory, and those of `pending.bin` that will be replayed again -/
def NodeSt.lost (s : NodeSt) : List Item :=
  waiting s.c s.chunk ++ s.pc.hand ++
    match s.pc with
    | .applying _ => s.files.pending.getD []
    | _ => []

/-- a crash may come: with `base_end_seq` set, every byte outside `recovery.json` that a lost
record writes or a queued recovery would copy is right once `pending.bin` and the ring are
replayed -/
def LossOk (cfg : NodeConfig) (s : NodeSt) : Prop :=
  s.files.baseEnd ≠ none → ∀ x, x < cfg.target.size → ¬s.files.Redo x →
    (s.Due cfg x ∨ ∃ r ∈ s.lost, r.patch x ≠ none) →
    Fresh (patches (s.files.pending.getD [] ++ s.q.unread)) s.c.img s.q.dev x

/-- the steps are those of `NodeOk`, with the condition at the crash and not at the start -/
def CrashOk (cfg : NodeConfig) (s : NodeSt) : NodeAct → Prop
  | .crash => s.dropped = false → LossOk cfg s
  | .start => True
  | a => NodeOk cfg s a

/-! ## what one step keeps -/

structure CrashInv (cfg : NodeConfig) (s : NodeSt) : Prop where
  node : NodeInv cfg s
  down : s.dropped = false → s.pc = .down → StartOk cfg s

section
variable {cfg : NodeConfig} {s s' : NodeSt}

theorem net_of_untouched {l : List Item} {x : Nat} (h : ∀ r ∈ l, r.patch x = none) :
    net (patches l) x = none := by
  refine net_eq_none.mpr fun p hp => ?_
  obtain ⟨r, hr, rfl⟩ := List.mem_map.mp hp
  exact h r hr

/-- **The crash.**  Where no lost record is, the records on disk and in the ring make up for it. -/
theorem Core.crash (h : Core cfg s) (hg : LossOk cfg s) : StartOk cfg s.crash := by
  intro hbase x hx
  by_cases hredo : s.files.Redo x
  · exact Or.inl hredo
  · right
    by_cases hlost : s.Due cfg x ∨ ∃ r ∈ s.lost, r.patch x ≠ none
    · exact hg hbase x hx hredo hlost
    · obtain ⟨hdue, hrec⟩ := not_or.mp hlost
      have hnone : ∀ r ∈ s.lost, r.patch x = none := fun r hr => by
        by_contra hp
        exact hrec ⟨r, hr, hp⟩
      have hf := h.chunk.kept x ⟨hx, hdue⟩
      have hwait : net (patches (waiting s.c s.chunk)) x = none :=
        net_of_untouched fun r hr => hnone r (List.mem_append_left _ (List.mem_append_left _ hr))
      have hhand : net (patches s.pc.hand) x = none :=
        net_of_untouched fun r hr => hnone r (List.mem_append_left _ (List.mem_append_right _ hr))
      have hfile : net (patches (s.pc.file s.files.pending)) x
          = net (patches (s.files.pending.getD [])) x := by
        have hok := h.pc
        cases hpc : s.pc with
        | applying rest =>
          rw [hpc] at hok
          obtain ⟨done, hd⟩ := hok
          have hall : ∀ r ∈ s.files.pending.getD [], r.patch x = none := by
            intro r hr
            refine hnone r (List.mem_append_right _ ?_)
            rw [hpc]
            exact hr
          rw [net_of_untouched hall]
          refine net_of_untouched fun r hr => hall r ?_
          rw [hd]
          exact List.mem_append_right _ hr
        | _ => rfl
      have hnet : net (patches (waiting s.c s.chunk) ++ patches s.todo) x
          = net (patches (s.files.pending.getD [] ++ s.q.unread)) x := by
        unfold NodeSt.todo patches
        rw [List.map_append, List.map_append, List.map_append, net_append, net_append, net_append,
          net_append]
        change ((net (patches s.q.unread) x).or ((net (patches s.pc.hand) x).or
          (net (patches (s.pc.file s.files.pending)) x))).or (net (patches (waiting s.c s.chunk)) x)
          = (net (patches s.q.unread) x).or (net (patches (s.files.pending.getD [])) x)
        rw [hwait, hhand, hfile]
        simp
      unfold Fresh at hf ⊢
      rw [hnet] at hf
      exact hf

theorem StartOk.wrote {b : Bio} {q : Feed} (h : StartOk cfg s) (hm : Marked cfg.target b s.q q)
    (hw : Wrote cfg.target b s.q q) (hgap : q.t.gapPending = false) :
    StartOk cfg { s with q := q, dropped := s.dropped || q.t.gapPending } := by
  intro hbase x hx
  refine (h hbase x hx).imp_right fun hf => ?_
  show Fresh (patches (s.files.pending.getD [] ++ q.unread)) s.c.img q.dev x
  rw [hm.dev]
  cases hw with
  | silent hnone ht hl =>
    unfold Feed.unread
    rw [hl]
    exact Eq.trans hf (overlay_none (hnone x)).symm
  | dropped hl hg hq => exact absurd (hgap.symm.trans hg) (by decide)
  | logged off r hl hpatch hrs hflag hg hq =>
    unfold Feed.unread
    rw [hl, List.map_append, ← List.append_assoc, List.map_cons, List.map_nil, patches_snoc, hpatch]
    exact fresh_write hf

/-- the daemon goes down only by a crash; what else happens while it is down leaves the replica, the
journal and the ring alone or logs a bio -/
theorem down_cases {a : NodeAct} (hs : nstep cfg s a = some s') (hd : s'.pc = .down) :
    (a = .crash ∧ s' = s.crash ∧ s.pc ≠ .down) ∨
      (s.pc = .down ∧ ((∃ b ts, a = .bio b ts) ∨ s'.files.baseEnd = none ∨
        (s'.c = s.c ∧ s'.q = s.q ∧ s'.dropped = s.dropped ∧ s'.files.pending = s.files.pending ∧
          s'.files.recovery = s.files.recovery ∧ s'.files.baseEnd = s.files.baseEnd))) := by
  cases step_cases hs with
  | bio b ts _ => exact Or.inr ⟨hd, Or.inl ⟨b, ts, rfl⟩⟩
  | lock on => exact Or.inr ⟨hd, Or.inr (Or.inr ⟨rfl, rfl, rfl, rfl, rfl, rfl⟩)⟩
  | seedData img hb _ => exact Or.inr ⟨hd, Or.inr (Or.inl hb)⟩
  | seedMark => exact Or.inr ⟨hd, Or.inr (Or.inr ⟨rfl, rfl, rfl, rfl, rfl, rfl⟩)⟩
  | start _ _ hst =>
    unfold startNode at hst
    split at hst
    · obtain rfl := Option.some.inj hst
      cases hd
    · cases hst
  | crash hup => exact Or.inl ⟨rfl, rfl, hup⟩
  | stop hup => exact absurd hd hup
  | enter w hup _ => exact absurd hd hup
  | work who m _ hup hw => exact absurd ((apart_of_work hw).pc.symm.trans hd) hup
  | read k _ _ =>
    dsimp only at hd
    split at hd <;> cases hd
  | drain k _ =>
    dsimp only at hd
    split at hd <;> cases hd
  | consumed drain park parked _ => cases drain <;> cases hd
  | _ => cases hd

theorem CrashInv.step {a : NodeAct} (h : CrashInv cfg s) (hg : CrashOk cfg s a)
    (hs : nstep cfg s a = some s') : CrashInv cfg s' := by
  refine ⟨?_, fun hd hdown => ?_⟩
  · cases a with
    | start =>
      cases step_cases hs with
      | start _ hpc hst => exact h.node.start (fun hd => h.down hd hpc) hst
    | crash => exact h.node.step (fun _ => trivial) hs
    | _ => exact h.node.step (by exact hg) hs
  · rcases down_cases hs hdown with ⟨rfl, rfl, hup⟩ | ⟨hdn, henv⟩
    · exact (h.node.core hd hup).crash (hg hd)
    · rcases henv with ⟨b, ts, rfl⟩ | hb | ⟨e1, e2, e3, e4, e5, e6⟩
      · cases step_cases hs with
        | bio _ _ hok =>
          obtain ⟨hm, hw⟩ := Feed.write_cases ts h.node.shape hok
          obtain ⟨hd', hgap⟩ := Bool.or_eq_false_iff.mp hd
          exact (h.down hd' hdn).wrote hm hw hgap
      · exact fun hbase => absurd hb hbase
      · have hok := h.down (e3 ▸ hd) hdn
        unfold StartOk Files.Redo
        rw [e1, e2, e4, e5, e6]
        exact hok

end

/-- **A crash of the daemon loses no write**, in a run that meets `CrashOk`. -/
theorem crash_keeps_sync (cfg : NodeConfig) (dev img : Nat → UInt8) (as : List NodeAct) (s : NodeSt)
    (hg : Meets (nstep cfg) (CrashOk cfg) (NodeSt.init cfg dev img) as)
    (h : exec (nstep cfg) (NodeSt.init cfg dev img) as = some s) : InSync cfg s := by
  have h0 : CrashInv cfg (NodeSt.init cfg dev img) :=
    ⟨⟨⟨rfl, rfl⟩, fun _ e => absurd rfl e⟩, fun _ _ hb => absurd rfl hb⟩
  have hi := exec_invariant_meets (P:=CrashInv cfg) (fun u a v hu hga hs => hu.step hga hs) h0 hg h
  exact hi.node.inSync

/-! ## the runs -/

/-- the condition as a test, for runs without seeds and recoveries -/
def nodeOkB (s : NodeSt) : NodeAct → Bool
  | .consume => s.files.pending.isNone && (waiting s.c s.chunk).isEmpty
  | .work who _ =>
    (match who with
      | .base => (pcOf (s.worker .recovery)).isIdle
      | .recovery => (pcOf (s.worker .base)).isIdle) &&
    s.todo.isEmpty &&
    (match pcOf (s.worker who) with
      | .holding _ _ buf => !allZero buf
      | _ => true)
  | .checkSeed => !s.seedRequired
  | .seedData _ | .start | .persist | .apply => false
  | _ => true

theorem nodeOk_of_test {cfg : NodeConfig} {s : NodeSt} {a : NodeAct} (h : nodeOkB s a = true) :
    NodeOk cfg s a := by
  intro _
  cases a with
  | consume =>
    obtain ⟨h1, h2⟩ := Bool.and_eq_true_iff.mp h
    intro drain parked r rest _
    rw [Option.isNone_iff_eq_none.mp h1]
    refine ⟨fun x => clear_nil _ x, fun _ x _ => ?_⟩
    rw [List.isEmpty_iff.mp h2]
    exact clear_nil _ x
  | work who m =>
    obtain ⟨h12, h3⟩ := Bool.and_eq_true_iff.mp h
    obtain ⟨h1, h2⟩ := Bool.and_eq_true_iff.mp h12
    intro w hw
    refine ⟨fun off rem es _ _ _ => ⟨fun v hv => ?_, fun x _ _ => ?_⟩, fun _ off n buf e hz => ?_⟩
    · cases who with
      | base =>
        cases v with
        | base => exact absurd rfl hv
        | recovery => exact ChunkPc.isIdle_iff.mp h1
      | recovery =>
        cases v with
        | base => exact ChunkPc.isIdle_iff.mp h1
        | recovery => exact absurd rfl hv
    · rw [List.isEmpty_iff.mp h2]
      exact newest_nil _ x
    · have hpc : pcOf (s.worker who) = .holding off n buf := by
        rw [hw]
        exact e
      rw [hpc] at h3
      dsimp only at h3
      rw [hz] at h3
      exact absurd h3 (by decide)
  | seedData img => exact absurd h (by simp [nodeOkB])
  | start => exact absurd h (by simp [nodeOkB])
  | checkSeed =>
    intro _ hreq
    rw [nodeOkB, hreq] at h
    exact absurd h (by decide)
  | persist => exact absurd h (by simp [nodeOkB])
  | apply => exact absurd h (by simp [nodeOkB])
  | _ => trivial

/-- nothing is only in memory -/
def quietB (s : NodeSt) : Bool :=
  s.files.baseEnd.isSome && (s.worker .recovery).isNone && !s.stop && s.gaps.queue.isEmpty &&
    (waiting s.c s.chunk).isEmpty && s.pc.isTop

theorem lossOk_of_quiet {cfg : NodeConfig} {s : NodeSt} (h : quietB s = true) : LossOk cfg s := by
  simp only [quietB, Bool.and_eq_true, Option.isSome_iff_exists, Option.isNone_iff_eq_none,
    Bool.not_eq_true', List.isEmpty_iff] at h
  obtain ⟨⟨⟨⟨⟨⟨k, hbase⟩, hrec⟩, hstop⟩, hqueue⟩, hwait⟩, hpc⟩ := h
  have hclear : s.pc.isClearing = false ∧ s.lost = [] := by
    unfold NodeSt.lost
    rw [hwait, NodePc.isTop_iff.mp hpc]
    exact ⟨rfl, rfl⟩
  rintro _ x _ _ (hdue | ⟨r, hr, _⟩)
  · cases hdue with
    | base h1 _ => rw [hbase] at h1; cases h1
    | recovery w h1 _ => rw [hrec] at h1; cases h1
    | redo es h1 _ _ _ => rw [hstop] at h1; cases h1
    | bit _ h2 => exact absurd hqueue h2
    | clearing w snap h1 _ => have := hclear.1; rw [h1] at this; cases this
    | cleared es h1 _ => have := hclear.1; rw [h1] at this; cases this
  · rw [hclear.2] at hr
    exact absurd hr List.not_mem_nil

def crashOkB (s : NodeSt) : NodeAct → Bool
  | .crash => quietB s
  | .start => true
  | a => nodeOkB s a

theorem crashOk_of_test {cfg : NodeConfig} (s : NodeSt) (a : NodeAct) (h : crashOkB s a = true) :
    CrashOk cfg s a := by
  cases a with
  | crash => exact fun _ => lossOk_of_quiet h
  | start => trivial
  | _ =>
    unfold CrashOk
    exact nodeOk_of_test h

/-- a settled state at the top of the loop -/
def settledB (s : NodeSt) : Bool :=
  !s.stop && s.files.baseEnd.isSome && s.q.live.isEmpty && s.files.pending.isNone &&
    s.gaps.queue.isEmpty && (s.worker .base).isNone && (s.worker .recovery).isNone && s.pc.isTop

theorem settled_of_test {s : NodeSt} (h : settledB s = true) : Settled s := by
  simp only [settledB, Bool.and_eq_true, Option.isSome_iff_exists, Option.isNone_iff_eq_none,
    Bool.not_eq_true', List.isEmpty_iff] at h
  obtain ⟨⟨⟨⟨⟨⟨⟨hstop, k, hbase⟩, hlive⟩, hpend⟩, hqueue⟩, hb⟩, hr⟩, hpc⟩ := h
  have htop := NodePc.isTop_iff.mp hpc
  refine ⟨by simp [htop], hstop, by simp [hbase], hlive, by rw [htop]; rfl, hpend, hqueue,
    by rw [htop]; rfl, fun who => ?_⟩
  cases who with
  | base => exact hb
  | recovery => exact hr

/-- a disk of one sector -/
def tinyNode : NodeConfig where
  target := { smallConfig with
    len := 1
    len_pos := Nat.one_pos
    begin_len := by decide
    start_len := by decide }
  seedRequired := false

def sectorWrite : Bio := ⟨.write, 0, 512, false, false, fun _ => 1⟩

/-- the base copy of a disk of one chunk -/
def baseCopy : List NodeAct := .enter :: List.replicate 7 (.work .base 512)

/-- an iteration of the main loop that applies one record -/
def applyOneRecord : List NodeAct :=
  [.read 1, .test, .consume, .consume, .checkSeed, .gapTest, .pendingTest, .finish false]

/-- the daemon is killed after the `pwrite` of the record -/
def crashRun : List NodeAct :=
  [.start] ++ baseCopy ++ [.bio sectorWrite 0] ++ applyOneRecord ++ [.crash, .start]

theorem crash_keeps_sync_run : ∃ s,
    exec (nstep tinyNode) (NodeSt.init tinyNode (fun _ => 3) fun _ => 0) crashRun = some s ∧
      (s.dropped = false ∧ Settled s ∧ s.c.img 0 = 1) ∧ InSync tinyNode s := by
  have h : (exec (nstep tinyNode) (NodeSt.init tinyNode (fun _ => 3) fun _ => 0) crashRun).any
      (fun s => !s.dropped && (settledB s && s.c.img 0 == 1)) = true := by
    decide +kernel
  obtain ⟨s, hs, hp⟩ := (Option.any_eq_true _ _).mp h
  simp only [Bool.and_eq_true, Bool.not_eq_true', beq_iff_eq] at hp
  exact ⟨s, hs, ⟨hp.1, settled_of_test hp.2.1, hp.2.2⟩,
    crash_keeps_sync tinyNode (fun _ => 3) (fun _ => 0) crashRun s
      (meets_of_meetsB crashOk_of_test (by decide +kernel)) hs⟩

/-- the daemon is killed when it has read the record -/
def crashRace : List NodeAct :=
  [.start] ++ baseCopy ++ [.bio sectorWrite 0, .read 1, .crash, .start]

/-- **The race**: the record is neither in the ring nor in the replica. -/
theorem crash_loses : ∃ s,
    exec (nstep tinyNode) (NodeSt.init tinyNode (fun _ => 3) fun _ => 0) crashRace = some s ∧
      ¬InSync tinyNode s := by
  have h : (exec (nstep tinyNode) (NodeSt.init tinyNode (fun _ => 3) fun _ => 0) crashRace).any
      (fun s => !s.dropped && (settledB s && s.c.img 0 != s.q.dev 0)) = true := by
    decide +kernel
  obtain ⟨s, hs, hp⟩ := (Option.any_eq_true _ _).mp h
  simp only [Bool.and_eq_true, Bool.not_eq_true', bne_iff_ne] at hp
  exact ⟨s, hs, fun hall => hp.2.2 (hall hp.1 (settled_of_test hp.2.1) 0 (by decide))⟩

end CDP
