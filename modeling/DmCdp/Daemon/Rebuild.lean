import DmCdp.Daemon.Reboot

/-!
# Rebuilds: `.rebuild.lock` and `status.json`

Any number of runs of `rkcdp-rebuild` beside the node through its boots.  The lock file is theirs;
the daemon looks at it once a batch, and says `PAUSED` from the lock file alone.

* `RunPc`          where a rebuild is, `copying` with the replica as it was when `PAUSED` ended its
                   wait;
* `reportNext`     `write_status` test by test, in the status thread and at the end of `main`;
* `Unchanged`      the replica is what it was when the copy began;
* `RebuildOk`      when `PAUSED` ends a wait nothing is being written; until the lock is removed no
                   other rebuild removes it, and no recovery starts;
* `copies_quiet`   in a run that keeps to it every such copy is of a quiet replica;
* `lock_stolen`    the run in which another rebuild fails its check.
-/

set_option linter.unusedVariables false

namespace CDP
open Img Mach

/-! ## the machine -/

/-- where a rebuild is; `waiting` with the number of polls that are left.  `copying none` has not
waited for `PAUSED`. -/
inductive RunPc where
  | checking
  | waiting (polls : Nat)
  | copying (window : Option (Nat → UInt8))
  | gone

/-- the tests of `write_status` that have come out false -/
inductive StatusPc where
  | idle
  | seeded
  | based
  | calm
  | unqueued
  | holds (paused : Bool)

/-- the status thread, and `self.write_status()` at the end of `main` -/
inductive Reporter where
  | thread
  | last
  deriving DecidableEq

structure RebuildSt where
  n : NodeSt
  reporter : Reporter → StatusPc
  -- `status.json` says `PAUSED`
  paused : Bool
  runs : List RunPc

def RebuildSt.init (cfg : NodeConfig) (dev img : Nat → UInt8) : RebuildSt :=
  ⟨.init cfg dev img, fun _ => .idle, false, []⟩

/-- the next test of `write_status` -/
def reportNext (n : NodeSt) : StatusPc → StatusPc
  | .idle => if n.seedRequired then .holds false else .seeded
  | .seeded => if n.baseProgress then .holds false else .based
  | .based => if (n.worker .recovery).isSome then .holds false else .calm
  | .calm => if n.gaps.queue.isEmpty then .unqueued else .holds false
  | .unqueued => .holds n.files.lock
  | .holds _ => .idle

/-- a step of `write_status`; the last one writes `status.json` -/
def reportRebuild (s : RebuildSt) (who : Reporter) : Option RebuildSt :=
  if s.n.pc.isDown || who == .last && !(s.n.stop && s.n.pc.isTop) then none
  else
    some { s with
      reporter := Function.update s.reporter who (reportNext s.n (s.reporter who))
      paused := match s.reporter who with
        | .holds paused => paused
        | _ => s.paused }

/-- the checks pass, and the lock file is written -/
def lockRebuild (s : RebuildSt) (i : Nat) : Option RebuildSt :=
  match s.runs[i]? with
  | some .checking =>
    if s.n.files.baseEnd = none then none
    else
      some { s with
        n := { s.n with files := { s.n.files with lock := true } }
        runs := s.runs.set i (.waiting 30) }
  | _ => none

/-- one round of the wait; `old` when `status.json` is missing or older than 30 s -/
def pollRebuild (s : RebuildSt) (i : Nat) (old : Bool) : Option RebuildSt :=
  match s.runs[i]? with
  | some (.waiting (k + 1)) =>
    some { s with
      runs := s.runs.set i (if s.paused then .copying (some s.n.c.img)
        else if old then .copying none else .waiting k) }
  | some (.waiting 0) => some { s with runs := s.runs.set i (.copying none) }
  | _ => none

/-- `os.remove(lock)` -/
def RebuildSt.unlock (s : RebuildSt) (i : Nat) : RebuildSt :=
  { s with
    n := { s.n with files := { s.n.files with lock := false } }
    runs := s.runs.set i .gone }

def finishRebuild (s : RebuildSt) (i : Nat) : Option RebuildSt :=
  match s.runs[i]? with
  | some (.copying _) => some (s.unlock i)
  | _ => none

/-- an exception, from the first check on: `finally` removes the lock file if there is one -/
def failRebuild (s : RebuildSt) (i : Nat) : Option RebuildSt :=
  match s.runs[i]? with
  | some .gone => none
  | some _ => some (s.unlock i)
  | none => none

/-- the lock file is not the environment's, and `rkcdp-seed` does not run -/
def NodeAct.own : NodeAct → Bool
  | .lock _ => false
  | .seedData _ => false
  | _ => true

inductive RebuildAct where
  | node (a : NodeAct)
  | reboot (dev : Nat → UInt8)
  -- an exception ends a copy thread, wherever it is
  | die (who : Who)
  | report (who : Reporter)
  | begin
  | lock (i : Nat)
  | poll (i : Nat) (old : Bool)
  | finish (i : Nat)
  | fail (i : Nat)

def rebuildStep (cfg : NodeConfig) (s : RebuildSt) : RebuildAct → Option RebuildSt
  | .node a =>
    if a.own then
      (nstep cfg s.n a).map fun n =>
        { s with n := n, reporter := if n.pc.isDown then fun _ => .idle else s.reporter }
    else none
  | .reboot dev => some { s with n := s.n.reboot cfg dev, reporter := fun _ => .idle }
  | .die who => some { s with n := s.n.setWorker who none }
  | .report who => reportRebuild s who
  | .begin => some { s with runs := s.runs ++ [.checking] }
  | .lock i => lockRebuild s i
  | .poll i old => pollRebuild s i old
  | .finish i => finishRebuild s i
  | .fail i => failRebuild s i

/-! ## the property and the condition -/

/-- rebuild `i` copies, and `PAUSED` has ended its wait when the replica was `img` -/
def RebuildSt.Copies (s : RebuildSt) (i : Nat) (img : Nat → UInt8) : Prop :=
  s.runs[i]? = some (.copying (some img))

def Unchanged (s : RebuildSt) : Prop := ∀ i img, s.Copies i img → s.n.c.img = img

def RebuildSt.Open (s : RebuildSt) : Prop := ∃ i img, s.Copies i img

/-- the next step of the main thread is an `apply_one` -/
def NodePc.writes : NodePc → Bool
  | .consuming _ false _ (_ :: _) => true
  | .applying (_ :: _) => true
  | _ => false

/-- the lock file is there, no record is about to be applied, no recovery runs -/
structure Quiesced (n : NodeSt) : Prop where
  lock : n.files.lock = true
  still : n.pc.writes = false
  recovery : n.worker .recovery = none

def RebuildOk (s : RebuildSt) : RebuildAct → Prop
  | .poll _ _ => s.paused = true → Quiesced s.n
  | .finish i => ∀ j img, j ≠ i → ¬s.Copies j img
  | .fail i => ∀ j img, j ≠ i → ¬s.Copies j img
  | .node .start => s.Open → s.n.files.recovery = none
  | .node .persist => ¬s.Open
  | _ => True

def RunPc.checked : RunPc → Bool
  | .waiting _ => true
  | .copying _ => true
  | _ => false

structure RebuildInv (s : RebuildSt) : Prop where
  based : Based s.n
  base : ∀ (i : Nat) (r : RunPc), s.runs[i]? = some r → r.checked = true → s.n.files.baseEnd ≠ none
  quiet : s.Open → Quiesced s.n
  same : Unchanged s

/-! ## what one step keeps -/

section
variable {cfg : NodeConfig} {n n' : NodeSt} {s s' : RebuildSt}

theorem baseEnd_kept {a : NodeAct} (h : Based n) (hb : n.files.baseEnd ≠ none)
    (hs : nstep cfg n a = some n') : n'.files.baseEnd ≠ none := by
  cases step_cases hs with
  | start _ _ hst =>
    unfold startNode at hst
    split at hst
    · obtain rfl := Option.some.inj hst
      exact hb
    · cases hst
  | adopt _ _ _ => exact Option.some_ne_none 0
  | work who m _ _ hw =>
    have hnone : n.worker .base = none := by
      by_contra hn
      exact hb (h.base hn)
    rw [((apart_of_work hw).noBase hnone).2]
    exact hb
  | _ => exact hb

/-- **A step of the node under the lock** leaves the replica alone, if it starts no recovery. -/
theorem Quiesced.step {a : NodeAct} (h : Quiesced n) (hbased : Based n)
    (hb : n.files.baseEnd ≠ none) (ha : a.own = true) (hstart : a = .start → n.files.recovery = none)
    (hpersist : a ≠ .persist) (hs : nstep cfg n a = some n') :
    Quiesced n' ∧ n'.c.img = n.c.img := by
  have hnone : n.worker .base = none := by
    by_contra hn
    exact hb (hbased.base hn)
  have hwrites : ∀ {pc : NodePc}, n.pc = pc → pc.writes = true → False := fun e hw => by
    have hstill := h.still
    rw [e, hw] at hstill
    cases hstill
  cases step_cases hs with
  | bio b ts _ => exact ⟨⟨h.lock, h.still, h.recovery⟩, rfl⟩
  | lock on => cases ha
  | seedData img _ _ => cases ha
  | seedMark => exact ⟨⟨h.lock, h.still, h.recovery⟩, rfl⟩
  | start _ _ hst =>
    unfold startNode at hst
    split at hst
    · obtain rfl := Option.some.inj hst
      refine ⟨⟨h.lock, rfl, ?_⟩, rfl⟩
      show n.files.recovery.map _ = none
      rw [hstart rfl]
      rfl
    · cases hst
  | crash _ => exact ⟨⟨h.lock, rfl, rfl⟩, rfl⟩
  | stop _ => exact ⟨⟨h.lock, h.still, h.recovery⟩, rfl⟩
  | read k _ _ => exact ⟨⟨h.lock, by dsimp only; split <;> rfl, h.recovery⟩, rfl⟩
  | drain k _ => exact ⟨⟨h.lock, by dsimp only; split <;> rfl, h.recovery⟩, rfl⟩
  | test drain batch _ =>
    refine ⟨⟨h.lock, ?_, h.recovery⟩, rfl⟩
    dsimp only
    rw [h.lock]
    rfl
  | park drain parked r rest _ => exact ⟨⟨h.lock, rfl, h.recovery⟩, rfl⟩
  | pass drain parked r rest hpc => exact (hwrites hpc rfl).elim
  | consumed drain park parked _ => exact ⟨⟨h.lock, by cases drain <;> rfl, h.recovery⟩, rfl⟩
  | adopt _ hreq _ => exact absurd (hbased.seed hreq).1 hb
  | fallBack b _ hreq _ _ => exact absurd (hbased.seed hreq).1 hb
  | persist es _ => exact absurd rfl hpersist
  | unpark l _ hl _ => cases hl.symm.trans h.lock
  | apply r rest hpc => exact (hwrites hpc rfl).elim
  | enter w _ hw => cases hnone.symm.trans hw
  | work who m _ _ hw =>
    obtain ⟨w, hw, _⟩ := work_cases hw
    cases who with
    | base => cases hnone.symm.trans hw
    | recovery => cases h.recovery.symm.trans hw
  | _ => exact ⟨⟨h.lock, rfl, h.recovery⟩, rfl⟩

theorem set_cases {l : List RunPc} {i j : Nat} {p r : RunPc} (h : (l.set i p)[j]? = some r) :
    j = i ∧ p = r ∨ j ≠ i ∧ l[j]? = some r := by
  rw [List.getElem?_set] at h
  by_cases hij : i = j
  · rw [if_pos hij] at h
    split at h
    · exact Or.inl ⟨hij.symm, Option.some.inj h⟩
    · cases h
  · rw [if_neg hij] at h
    exact Or.inr ⟨fun e => hij e.symm, h⟩

theorem RebuildInv.node {a : NodeAct} {reporter : Reporter → StatusPc} (h : RebuildInv s)
    (hg : RebuildOk s (.node a)) (ha : a.own = true) (hs : nstep cfg s.n a = some n') :
    RebuildInv { s with n := n', reporter := reporter } := by
  refine ⟨h.based.step hs, fun i r hi hr => baseEnd_kept h.based (h.base i r hi hr) hs, ?_, ?_⟩
  all_goals
    have hstep : s.Open → Quiesced n' ∧ n'.c.img = s.n.c.img := by
      rintro ⟨i, img, hi⟩
      refine (h.quiet ⟨i, img, hi⟩).step h.based (h.base i _ hi rfl) ha (fun e => ?_) (fun e => ?_) hs
      · subst e
        exact hg ⟨i, img, hi⟩
      · subst e
        exact hg ⟨i, img, hi⟩
  · exact fun ho => (hstep ho).1
  · exact fun i img hi => (hstep ⟨i, img, hi⟩).2.trans (h.same i img hi)

/-- **The lock is removed**: no other copy is under way. -/
theorem RebuildInv.unlock {i : Nat} (h : RebuildInv s)
    (hg : ∀ j img, j ≠ i → ¬s.Copies j img) : RebuildInv (s.unlock i) := by
  have hshut : ∀ j img, ¬(s.unlock i).Copies j img := by
    intro j img hj
    rcases set_cases hj with ⟨_, e⟩ | ⟨hne, e⟩
    · cases e
    · exact hg j img hne e
  refine ⟨⟨h.based.base, h.based.seed⟩, fun j r hj hr => ?_,
    fun ⟨j, img, hj⟩ => absurd hj (hshut j img),
    fun j img hj => absurd hj (hshut j img)⟩
  rcases set_cases hj with ⟨_, rfl⟩ | ⟨_, e⟩
  · cases hr
  · exact h.base j r e hr

/-- a rebuild moves on, to a copy only where it finds the replica quiet -/
theorem RebuildInv.move {i : Nat} {p p' : RunPc} (h : RebuildInv s) (hi : s.runs[i]? = some p)
    (hp : p.checked = true)
    (hopen : ∀ img, p' = .copying (some img) → Quiesced s.n ∧ s.n.c.img = img) :
    RebuildInv { s with runs := s.runs.set i p' } := by
  refine ⟨h.based, fun j r hj hr => ?_, fun ⟨j, img, hj⟩ => ?_, fun j img hj => ?_⟩
  · rcases set_cases hj with _ | ⟨_, e⟩
    · exact h.base i p hi hp
    · exact h.base j r e hr
  · rcases set_cases hj with ⟨_, e⟩ | ⟨_, e⟩
    · exact (hopen img e).1
    · exact h.quiet ⟨j, img, e⟩
  · rcases set_cases hj with ⟨_, e⟩ | ⟨_, e⟩
    · exact (hopen img e).2
    · exact h.same j img e

theorem RebuildInv.step {a : RebuildAct} (h : RebuildInv s) (hg : RebuildOk s a)
    (hs : rebuildStep cfg s a = some s') : RebuildInv s' := by
  cases a with
  | node a =>
    change (if a.own then _ else none) = some s' at hs
    split at hs
    · rename_i ha
      obtain ⟨n', hn, rfl⟩ := Option.map_eq_some_iff.mp hs
      exact h.node hg ha hn
    · cases hs
  | reboot dev =>
    obtain rfl := Option.some.inj hs
    refine ⟨⟨h.based.crash.base, h.based.crash.seed⟩, h.base, fun ho => ?_, h.same⟩
    exact ⟨(h.quiet ho).lock, rfl, rfl⟩
  | die who =>
    obtain rfl := Option.some.inj hs
    refine ⟨h.based.die, h.base, fun ho => ?_, h.same⟩
    exact ⟨(h.quiet ho).lock, (h.quiet ho).still, setWorker_none (h.quiet ho).recovery⟩
  | report who =>
    change reportRebuild s who = some s' at hs
    unfold reportRebuild at hs
    split at hs
    · cases hs
    · obtain rfl := Option.some.inj hs
      exact ⟨h.based, h.base, h.quiet, h.same⟩
  | begin =>
    obtain rfl := Option.some.inj hs
    have hold : ∀ (i : Nat) (r : RunPc), (s.runs ++ [RunPc.checking])[i]? = some r → r.checked = true →
        s.runs[i]? = some r := by
      intro i r hi hr
      rcases lt_or_ge i s.runs.length with hlt | hge
      · rw [List.getElem?_append_left hlt] at hi
        exact hi
      · rw [List.getElem?_append_right hge] at hi
        obtain rfl := List.mem_singleton.mp (List.mem_of_getElem? hi)
        cases hr
    exact ⟨h.based, fun i r hi hr => h.base i r (hold i r hi hr) hr,
      fun ⟨i, img, hi⟩ => h.quiet ⟨i, img, hold i _ hi rfl⟩,
      fun i img hi => h.same i img (hold i _ hi rfl)⟩
  | lock i =>
    change lockRebuild s i = some s' at hs
    unfold lockRebuild at hs
    split at hs
    · split at hs
      · cases hs
      · rename_i hb
        obtain rfl := Option.some.inj hs
        refine ⟨⟨h.based.base, h.based.seed⟩, fun j r hj hr => hb, fun ⟨j, img, hj⟩ => ?_,
          fun j img hj => ?_⟩
        · rcases set_cases hj with ⟨_, e⟩ | ⟨_, e⟩
          · cases e
          · exact ⟨rfl, (h.quiet ⟨j, img, e⟩).still, (h.quiet ⟨j, img, e⟩).recovery⟩
        · rcases set_cases hj with ⟨_, e⟩ | ⟨_, e⟩
          · cases e
          · exact h.same j img e
    · cases hs
  | poll i old =>
    change pollRebuild s i old = some s' at hs
    unfold pollRebuild at hs
    split at hs
    · rename_i k hi
      obtain rfl := Option.some.inj hs
      refine h.move hi rfl fun img e => ?_
      split at e
      · rename_i hp
        cases e
        exact ⟨hg hp, rfl⟩
      · split at e <;> cases e
    · rename_i hi
      obtain rfl := Option.some.inj hs
      exact h.move hi rfl fun img e => by cases e
    · cases hs
  | finish i =>
    change finishRebuild s i = some s' at hs
    unfold finishRebuild at hs
    split at hs
    · obtain rfl := Option.some.inj hs
      exact h.unlock hg
    · cases hs
  | fail i =>
    change failRebuild s i = some s' at hs
    unfold failRebuild at hs
    split at hs
    · cases hs
    · obtain rfl := Option.some.inj hs
      exact h.unlock hg
    · cases hs

end

/-- **The copy of a rebuild is of a quiet replica**, in a run that meets `RebuildOk`. -/
theorem copies_quiet (cfg : NodeConfig) (dev img : Nat → UInt8) (as : List RebuildAct)
    (s : RebuildSt) (hg : Meets (rebuildStep cfg) RebuildOk (RebuildSt.init cfg dev img) as)
    (h : exec (rebuildStep cfg) (RebuildSt.init cfg dev img) as = some s) : Unchanged s := by
  have h0 : RebuildInv (RebuildSt.init cfg dev img) := by
    refine ⟨⟨fun e => absurd rfl e, fun e => by cases e⟩, fun i r hi => ?_, fun ⟨i, img, hi⟩ => ?_,
      fun i img hi => ?_⟩
    all_goals cases hi
  exact (exec_invariant_meets (P:=RebuildInv) (fun u a v hu hga hs => hu.step hga hs) h0 hg h).same

/-! ## the runs -/

def RunPc.quiet : RunPc → Bool
  | .copying (some _) => true
  | _ => false

theorem copies_of_quiet {s : RebuildSt} {i : Nat} (h : (s.runs[i]?).any RunPc.quiet = true) :
    ∃ img, s.Copies i img := by
  obtain ⟨r, hr, hq⟩ := (Option.any_eq_true _ _).mp h
  cases r with
  | copying window =>
    cases window with
    | none => cases hq
    | some img => exact ⟨img, hr⟩
  | _ => cases hq

/-- the condition as a test, for runs with one rebuild that does not end -/
def rebuildOkB (s : RebuildSt) : RebuildAct → Bool
  | .poll _ _ => s.n.files.lock && !s.n.pc.writes && (s.n.worker .recovery).isNone
  | .finish _ => false
  | .fail _ => false
  | .node .start => s.runs.isEmpty
  | .node .persist => s.runs.isEmpty
  | _ => true

theorem not_open_of_empty {s : RebuildSt} (h : s.runs.isEmpty = true) : ¬s.Open := by
  rintro ⟨i, img, hi⟩
  unfold RebuildSt.Copies at hi
  rw [List.isEmpty_iff.mp h] at hi
  cases hi

theorem rebuildOk_of_test (s : RebuildSt) (a : RebuildAct) (h : rebuildOkB s a = true) :
    RebuildOk s a := by
  unfold RebuildOk
  split
  · simp only [rebuildOkB, Bool.and_eq_true, Bool.not_eq_true', Option.isNone_iff_eq_none] at h
    exact fun _ => ⟨h.1.1, h.1.2, h.2⟩
  · cases h
  · cases h
  · exact fun ho => absurd ho (not_open_of_empty h)
  · exact not_open_of_empty h
  · trivial

/-- a base copy has been made; a rebuild waits, and `status.json` says `PAUSED` -/
def pausedRun : List RebuildAct :=
  ([.start] ++ baseCopy : List NodeAct).map .node ++ [.begin, .lock 0] ++
    List.replicate 6 (.report .thread) ++ [.poll 0 false]

/-- a write, and its batch -/
def batchRun : List RebuildAct :=
  ([.bio sectorWrite 0, .read 1, .test, .consume] : List NodeAct).map .node

theorem copies_quiet_run : ∃ s,
    exec (rebuildStep tinyNode) (RebuildSt.init tinyNode (fun _ => 3) fun _ => 0)
      (pausedRun ++ batchRun) = some s ∧
      ((∃ img, s.Copies 0 img) ∧ s.n.q.dev 0 = 1 ∧ s.n.c.img 0 = 3) ∧ Unchanged s := by
  have h : (exec (rebuildStep tinyNode) (RebuildSt.init tinyNode (fun _ => 3) fun _ => 0)
      (pausedRun ++ batchRun)).any (fun s => (s.runs[0]?).any RunPc.quiet &&
        (s.n.q.dev 0 == 1 && s.n.c.img 0 == 3)) = true := by
    decide +kernel
  obtain ⟨s, hs, hp⟩ := (Option.any_eq_true _ _).mp h
  simp only [Bool.and_eq_true, beq_iff_eq] at hp
  exact ⟨s, hs, ⟨copies_of_quiet hp.1, hp.2⟩,
    copies_quiet tinyNode (fun _ => 3) (fun _ => 0) (pausedRun ++ batchRun) s
      (meets_of_meetsB rebuildOk_of_test (by decide +kernel)) hs⟩

/-- a second rebuild finds the node alive, and its `finally` removes the lock of the first -/
def stolenRun : List RebuildAct := pausedRun ++ [.begin, .fail 1]

/-- byte 0 of the replica is not what it was when rebuild 0 began its copy -/
def RebuildSt.changedB (s : RebuildSt) : Bool :=
  match s.runs with
  | .copying (some img) :: _ => s.n.c.img 0 != img 0
  | _ => false

/-- **The lock is another's**: the record is applied while the first rebuild copies. -/
theorem lock_stolen : ∃ s,
    exec (rebuildStep tinyNode) (RebuildSt.init tinyNode (fun _ => 3) fun _ => 0)
      (stolenRun ++ batchRun) = some s ∧ ¬Unchanged s := by
  have h : (exec (rebuildStep tinyNode) (RebuildSt.init tinyNode (fun _ => 3) fun _ => 0)
      (stolenRun ++ batchRun)).any RebuildSt.changedB = true := by
    decide +kernel
  obtain ⟨s, hs, hp⟩ := (Option.any_eq_true _ _).mp h
  refine ⟨s, hs, fun hall => ?_⟩
  unfold RebuildSt.changedB at hp
  split at hp
  · rename_i img runs hruns
    have hcopies : s.Copies 0 img := by
      unfold RebuildSt.Copies
      rw [hruns]
      rfl
    exact bne_iff_ne.mp hp (congrFun (hall 0 img hcopies) 0)
  · cases hp

end CDP
