import DmCdp.Daemon.Crash
import DmCdp.Lib.Fair

/-!
# The daemon catches up

From some moment on there are no bios, no rebuild and no signals, and no copy thread waits for ever.
The daemon may be anywhere: records in the ring, in hand and in `pending.bin`, recoveries queued,
copy threads in the middle of a chunk, a seed to adopt.

* `NodeSt.load`      what it has still to do, part by part; a part may grow when one before it falls;
* `daemon_step`      each of its steps lowers the load, or is one of an idle main loop (`Idle`);
* `Served`           the runs;
* `settles`          each of them settles, and stays so;
* `catches_up`       then the replica is the disk, if the steps meet `NodeOk`.
-/

set_option linter.unusedVariables false

namespace CDP
open Img Mach

/-! ## the load -/

/-- the records that the main thread has in hand -/
def NodePc.unread : NodePc → Nat
  | .called _ batch => 2 * batch.length + 2
  | .consuming _ _ _ rest => 2 * rest.length + 1
  | _ => 0

/-- those of `pending.bin` -/
def NodePc.parked (pending : Option (List Item)) : NodePc → Nat
  | .applying rest => rest.length + 1
  | _ => match pending with
    | some l => l.length + 2
    | none => 0

/-- a recovery that is about to start -/
def NodePc.starting : NodePc → Nat
  | .clearing _ _ => 1
  | .cleared _ => 1
  | _ => 0

/-- the words that it has still to clear -/
def NodePc.words (nlongs : Nat) : NodePc → Nat
  | .clearing w _ => nlongs - w + 1
  | _ => 0

/-- the extents of a copy thread -/
def Worker.bytes (w : Worker) : Nat := (w.left.map fun e => e.2 + 1).sum + 1

def ChunkPc.rank : ChunkPc → Nat
  | .idle => 5
  | .flagged _ _ => 4
  | .holding _ _ _ => 3
  | .stored _ _ _ => 2
  | .replaying _ _ => 1

/-- over both copy threads -/
def NodeSt.threads (s : NodeSt) (f : Worker → Nat) : Nat :=
  ((s.worker .base).map f).getD 0 + ((s.worker .recovery).map f).getD 0

/-- a base copy that has not begun -/
def NodeSt.unbegun (s : NodeSt) : Nat :=
  if s.baseProgress = false ∧ (s.worker .base).isSome then 1 else 0

/-- what the daemon has still to do, the parts in lexicographic order -/
def NodeSt.load (s : NodeSt) : ℕ ×ₗ ℕ ×ₗ ℕ ×ₗ ℕ ×ₗ ℕ ×ₗ ℕ ×ₗ ℕ ×ₗ ℕ :=
  toLex (if s.seedRequired then 1 else 0,
    toLex (5 * s.q.live.length + s.pc.unread,
    toLex (s.pc.parked s.files.pending,
    toLex (2 * s.gaps.queue.length + s.pc.starting,
    toLex (s.pc.words s.q.t.nlongs,
    toLex (s.threads Worker.bytes + s.unbegun,
    toLex (s.threads fun w => w.pc.rank,
      s.threads fun w => w.pc.late.length)))))))

/-! ## the steps -/

def NodeAct.daemon : NodeAct → Bool
  | .read _ | .test | .consume | .checkSeed | .gapTest | .clear | .persist | .pendingTest | .apply
  | .finish _ | .enter | .work _ _ => true
  | _ => false

/-- a step of the daemon: an `os.read` gets a record if there is one, and `base_copy` is entered
once -/
structure DaemonOk (s : NodeSt) (a : NodeAct) : Prop where
  daemon : a.daemon = true
  read : ∀ k, a = .read k → s.q.live ≠ [] → 0 < k
  enter : a = .enter → s.baseProgress = false

def NodeAct.moves (who : Who) : NodeAct → Bool
  | .work v _ => v == who
  | .enter => who == .base
  | _ => false

/-- the steps of the main loop when it finds nothing to do -/
inductive Idle (s : NodeSt) : NodeAct → NodeSt → Prop
  | read (k : Nat) : s.pc = .top → s.q.live = [] → Idle s (.read k) { s with pc := .consumed }
  | drain (k : Nat) : s.pc = .draining → s.q.live = [] → Idle s (.read k) { s with pc := .top }
  | checkSeed : s.pc = .consumed → (s.seedRequired = true → s.files.seeded = none) →
      Idle s .checkSeed { s with pc := .checked }
  | gapTest : s.pc = .checked →
      (s.worker .recovery = none → s.baseProgress = false → s.gaps.queue = []) →
      Idle s .gapTest { s with pc := .started }
  | pendingTest : s.pc = .started → (s.files.lock = false → s.files.pending = none) →
      Idle s .pendingTest { s with pc := .settled }
  | freeze (mark : Bool) : s.pc = .settled → Idle s (.finish mark) { s with pc := .draining }
  | finish (mark : Bool) : s.pc = .settled → Idle s (.finish mark) { s with pc := .top }

/-- where the threads and the base copy stand -/
structure Busy (s : NodeSt) : Prop where
  left : ∀ who w, s.worker who = some w → w.pc ≠ .idle → ∃ off rem es, w.left = (off, rem + 1) :: es
  begun : s.pc ≠ .down → s.baseProgress = true → s.worker .base ≠ none
  base : s.pc ≠ .down → s.stop = false → s.seedRequired = false → s.files.baseEnd = none →
    s.worker .base ≠ none

section
variable {cfg : NodeConfig} {s s' : NodeSt} {a : NodeAct}

theorem Idle.load (h : Idle s a s') : s'.load = s.load := by
  cases h <;> simp [NodeSt.load, NodeSt.threads, NodeSt.unbegun, *] <;>
    simp [NodePc.unread, NodePc.parked, NodePc.starting, NodePc.words]

theorem Idle.same (h : Idle s a s') : s' = { s with pc := s'.pc } := by
  cases h <;> rfl

theorem Idle.not_moves {who : Who} (h : Idle s a s') : a.moves who = false := by
  cases h <;> rfl

theorem Feed.read_nil {q : Feed} (k : Nat) (h : q.live = []) : q.read k = ([], q) := by
  cases k with
  | zero => rfl
  | succ k =>
    unfold Feed.read
    rw [h]

theorem Feed.read_length (k : Nat) (q : Feed) :
    (q.read k).1.length + (q.read k).2.live.length = q.live.length := by
  have h := congrArg List.length (Feed.read_cases k q).1
  simpa [Feed.unread] using h

theorem Feed.read_some {q : Feed} {k : Nat} (hk : 0 < k) (h : q.live ≠ []) :
    (q.read k).1 ≠ [] := by
  obtain ⟨k, rfl⟩ := Nat.exists_eq_succ_of_ne_zero hk.ne'
  unfold Feed.read
  cases hl : q.live with
  | nil => exact absurd hl h
  | cons x l => exact List.cons_ne_nil _ _

theorem lex_left {α β : Type*} [LT α] [LT β] {a a' : α} {b b' : β} (h : a < a') :
    toLex (a, b) < toLex (a', b') := Prod.Lex.toLex_lt_toLex.mpr (Or.inl h)

theorem lex_right {α β : Type*} [LT α] [LT β] {a a' : α} {b b' : β} (h : a = a') (hb : b < b') :
    toLex (a, b) < toLex (a', b') := Prod.Lex.toLex_lt_toLex.mpr (Or.inr ⟨h, hb⟩)

theorem read_load {k : Nat} {drain : Bool} {pc : NodePc} (hk : 0 < k) (hl : s.q.live ≠ [])
    (hpc : s.pc.unread = 0) :
    NodeSt.load { s with
      q := (s.q.read k).2
      pc := if (s.q.read k).1 = [] then pc else .called drain (s.q.read k).1 } < s.load := by
  have hne := Feed.read_some hk hl
  have hpos := List.length_pos_iff.mpr hne
  have hlen := Feed.read_length k s.q
  apply lex_right rfl
  apply lex_left
  rw [if_neg hne, hpc]
  show 5 * (s.q.read k).2.live.length + (2 * (s.q.read k).1.length + 2) < 5 * s.q.live.length + 0
  omega

theorem checkSeed_step (h : checkSeedNode cfg s = some s') :
    s'.load < s.load ∨ Idle s .checkSeed s' := by
  unfold checkSeedNode at h
  split at h
  · rename_i hpc
    split at h
    · rename_i b hreq hseed
      have hlt : (if (false : Bool) = true then 1 else 0) <
        if s.seedRequired = true then 1 else 0 := by
        simp [hreq]
      left
      split at h
      · obtain rfl := Option.some.inj h
        exact lex_left hlt
      · obtain rfl := Option.some.inj h
        exact lex_left hlt
    · rename_i hno
      obtain rfl := Option.some.inj h
      right
      refine .checkSeed hpc fun hreq => ?_
      cases hs : s.files.seeded with
      | none => rfl
      | some b => exact absurd hs (hno b hreq)
  · cases h

theorem gapTest_step (h : gapTestNode s = some s') : s'.load < s.load ∨ Idle s .gapTest s' := by
  unfold gapTestNode at h
  split at h
  · rename_i hpc
    split at h
    · rename_i g queue hq hw hb
      obtain rfl := Option.some.inj h
      left
      apply lex_right rfl
      apply lex_right
      · rw [hpc]
        rfl
      · apply lex_right
        · rw [hpc]
          rfl
        · apply lex_left
          rw [hq, hpc]
          show 2 * queue.length + 1 < 2 * (queue.length + 1) + 0
          omega
    · rename_i hno
      obtain rfl := Option.some.inj h
      right
      refine .gapTest hpc fun hw hb => ?_
      cases hq : s.gaps.queue with
      | nil => rfl
      | cons g queue => exact (hno g queue hq hw hb).elim
  · cases h

theorem pendingTest_step (h : pendingTestNode s = some s') :
    s'.load < s.load ∨ Idle s .pendingTest s' := by
  unfold pendingTestNode at h
  split at h
  · rename_i hpc
    split at h
    · rename_i l hlock hpend
      obtain rfl := Option.some.inj h
      left
      apply lex_right rfl
      apply lex_right
      · rw [hpc]
        rfl
      · apply lex_left
        rw [hpc, hpend]
        exact Nat.lt_succ_self _
    · rename_i hno
      obtain rfl := Option.some.inj h
      right
      refine .pendingTest hpc fun hlock => ?_
      cases hp : s.files.pending with
      | none => rfl
      | some l => exact (hno l hlock hp).elim
  · cases h

/-! ## the copy threads -/

theorem threads_set {who : Who} {w : Worker} (w' : Worker) (f : Worker → Nat)
    (hw : s.worker who = some w) :
    (s.setWorker who (some w')).threads f + f w = s.threads f + f w' := by
  unfold NodeSt.threads NodeSt.setWorker
  cases who with
  | base =>
    simp [hw]
    omega
  | recovery =>
    simp [hw]
    omega

theorem threads_gone {who : Who} {w : Worker} (f : Worker → Nat) (hw : s.worker who = some w) :
    (s.setWorker who none).threads f + f w = s.threads f := by
  unfold NodeSt.threads NodeSt.setWorker
  cases who with
  | base =>
    simp [hw]
    omega
  | recovery => simp [hw]

theorem unbegun_set {who : Who} {w w' : Worker} (hw : s.worker who = some w) :
    (s.setWorker who (some w')).unbegun = s.unbegun := by
  unfold NodeSt.unbegun NodeSt.setWorker
  cases who with
  | base => simp [hw]
  | recovery => simp

/-- **A chunk** brings a copy thread on, or drops the extent. -/
theorem advance_bytes (n off rem : Nat) (es : List (Nat × Nat)) (pc : ChunkPc) :
    (Worker.mk .idle (advance n ((off, rem + 1) :: es))).bytes
      < (Worker.mk pc ((off, rem + 1) :: es)).bytes := by
  by_cases hn : n = 0
  · simp [Worker.bytes, advance, hn]
  · simp [Worker.bytes, advance, hn]
    omega

theorem chunk_rank {skip : Bool} {dev : Nat → UInt8} {m : Nat} {c c' : Shared} {pc pc' : ChunkPc}
    (h : chunkStep skip dev m c pc = some (c', pc')) :
    pc'.rank < pc.rank ∨ pc'.rank = pc.rank ∧ pc'.late.length < pc.late.length := by
  unfold chunkStep at h
  split at h
  · cases h
  · split at h
    · cases h
      exact Or.inl (Nat.lt_succ_self _)
    · cases h
  · cases h
    exact Or.inl (Nat.lt_succ_self _)
  · cases h
    exact Or.inl (Nat.lt_succ_self _)
  · cases h
    exact Or.inr ⟨rfl, Nat.lt_succ_self _⟩
  · cases h

/-- the parts of the load that a copy thread does not touch -/
structure Beside (s s' : NodeSt) : Prop where
  q : s'.q = s.q
  pc : s'.pc = s.pc
  queue : s'.gaps = s.gaps
  pending : s'.files.pending = s.files.pending
  seed : s'.seedRequired = s.seedRequired

theorem beside_set (who : Who) (o : Option Worker) : Beside s (s.setWorker who o) :=
  ⟨rfl, rfl, rfl, rfl, rfl⟩

theorem Beside.bytes (h : Beside s s')
    (hlt : s'.threads Worker.bytes + s'.unbegun < s.threads Worker.bytes + s.unbegun) :
    s'.load < s.load := by
  unfold NodeSt.load
  rw [h.q, h.pc, h.queue, h.pending, h.seed]
  exact lex_right rfl (lex_right rfl (lex_right rfl (lex_right rfl (lex_right rfl (lex_left hlt)))))

theorem Beside.rank {who : Who} {w : Worker} (w' : Worker) (h : Beside s s')
    (hw : s.worker who = some w)
    (hs : s'.worker = (s.setWorker who (some w')).worker) (hp : s'.baseProgress = s.baseProgress)
    (hl : w'.left = w.left)
    (hlt : w'.pc.rank < w.pc.rank ∨
      w'.pc.rank = w.pc.rank ∧ w'.pc.late.length < w.pc.late.length) : s'.load < s.load := by
  have hthr : ∀ f, s'.threads f + f w = s.threads f + f w' := by
    intro f
    unfold NodeSt.threads
    rw [hs]
    exact threads_set w' f hw
  have hunb : s'.unbegun = s.unbegun := by
    unfold NodeSt.unbegun
    rw [hs, hp]
    exact unbegun_set hw
  have hb : w'.bytes = w.bytes := by
    unfold Worker.bytes
    rw [hl]
  have hbytes := hthr Worker.bytes
  have hrank := hthr fun w => w.pc.rank
  have hlate := hthr fun w => w.pc.late.length
  unfold NodeSt.load
  rw [h.q, h.pc, h.queue, h.pending, h.seed, hunb]
  refine lex_right rfl (lex_right rfl (lex_right rfl (lex_right rfl (lex_right rfl (lex_right ?_ ?_)))))
  · omega
  · rcases hlt with hlt | ⟨he, hlt⟩
    · apply lex_left
      omega
    · apply Prod.Lex.toLex_lt_toLex.mpr
      right
      constructor
      · show s'.threads _ = s.threads _
        omega
      · show s'.threads _ < s.threads _
        omega

theorem gone_load {who : Who} {w : Worker} (h : Beside s s') (hw : s.worker who = some w)
    (hs : s'.worker = (s.setWorker who none).worker)
    (hp : s'.baseProgress = if who = .base then false else s.baseProgress) : s'.load < s.load := by
  apply h.bytes
  have hthr : s'.threads Worker.bytes + w.bytes = s.threads Worker.bytes := by
    unfold NodeSt.threads
    rw [hs]
    exact threads_gone Worker.bytes hw
  have hunb : s'.unbegun ≤ s.unbegun := by
    unfold NodeSt.unbegun
    rw [hs, hp]
    cases who with
    | base => simp [NodeSt.setWorker]
    | recovery => simp [NodeSt.setWorker]
  have hpos : 0 < w.bytes := Nat.succ_pos _
  omega

theorem work_load {who : Who} {m : Nat} (hb : Busy s) (h : workNode cfg s who m = some s') :
    s'.load < s.load := by
  obtain ⟨w, hw, hwork⟩ := work_cases h
  cases hwork with
  | quit hpc hstop =>
    cases who with
    | base => exact gone_load ⟨rfl, rfl, rfl, rfl, rfl⟩ hw rfl rfl
    | recovery => exact gone_load ⟨rfl, rfl, rfl, rfl, rfl⟩ hw rfl rfl
  | done hpc hleft hstop =>
    cases who with
    | base => exact gone_load ⟨rfl, rfl, rfl, rfl, rfl⟩ hw rfl rfl
    | recovery => exact gone_load ⟨rfl, rfl, rfl, rfl, rfl⟩ hw rfl rfl
  | begin off rem es hpc hleft hstop =>
    refine Beside.rank _ ⟨rfl, rfl, rfl, rfl, rfl⟩ hw rfl rfl rfl (Or.inl ?_)
    rw [hpc]
    exact Nat.lt_succ_self _
  | next off es hpc hleft =>
    apply (beside_set who _).bytes
    rw [unbegun_set hw]
    have hthr := threads_set ⟨.idle, es⟩ Worker.bytes hw
    have hlt : (Worker.mk .idle es).bytes < w.bytes := by
      unfold Worker.bytes
      rw [hleft]
      simp
    omega
  | finish n hpc =>
    apply (beside_set who _).bytes
    rw [unbegun_set hw]
    have hthr := threads_set ⟨.idle, advance n w.left⟩ Worker.bytes hw
    obtain ⟨off, rem, es, hleft⟩ := hb.left who w hw (by simp [hpc])
    have hlt : (Worker.mk .idle (advance n w.left)).bytes < w.bytes := by
      rw [hleft]
      obtain ⟨pc, left⟩ := w
      obtain rfl := hleft
      exact advance_bytes n off rem es pc
    omega
  | chunk c pc hok hst =>
    exact Beside.rank ⟨pc, w.left⟩ ⟨rfl, rfl, rfl, rfl, rfl⟩ hw rfl rfl rfl (chunk_rank hst)

/-! ## one step -/

theorem unread_load {pc : NodePc} {c : Shared} {g : Gaps} {f : Files} (h : pc.unread < s.pc.unread) :
    NodeSt.load { s with pc := pc, c := c, gaps := g, files := f } < s.load :=
  lex_right rfl (lex_left (Nat.add_lt_add_left h _))

/-- **A step of the daemon**: there is less to do, or there was nothing to do at this place. -/
theorem daemon_step (hb : Busy s) (ha : DaemonOk s a) (h : nstep cfg s a = some s') :
    s'.load < s.load ∨ Idle s a s' := by
  cases a with
  | bio | lock | seedData | seedMark | start | crash | stop => cases ha.daemon
  | checkSeed => exact checkSeed_step h
  | gapTest => exact gapTest_step h
  | pendingTest => exact pendingTest_step h
  | read k =>
    cases step_cases h with
    | read _ hpc hstop =>
      by_cases hl : s.q.live = []
      · right
        rw [Feed.read_nil k hl, if_pos rfl]
        exact .read k hpc hl
      · exact Or.inl (read_load (ha.read k rfl hl) hl (by rw [hpc]; rfl))
    | drain _ hpc =>
      by_cases hl : s.q.live = []
      · right
        rw [Feed.read_nil k hl, if_pos rfl]
        exact .drain k hpc hl
      · exact Or.inl (read_load (ha.read k rfl hl) hl (by rw [hpc]; rfl))
  | test =>
    cases step_cases h with
    | test drain batch hpc =>
      left
      apply unread_load
      rw [hpc]
      exact Nat.lt_succ_self _
  | consume =>
    left
    cases step_cases h with
    | park drain parked r rest hpc =>
      apply unread_load
      rw [hpc]
      show 2 * rest.length + 1 < 2 * (rest.length + 1) + 1
      omega
    | pass drain parked r rest hpc =>
      apply unread_load
      rw [hpc]
      show 2 * rest.length + 1 < 2 * (rest.length + 1) + 1
      omega
    | consumed drain park parked hpc =>
      apply unread_load
      rw [hpc]
      cases drain <;> exact Nat.one_pos
  | clear =>
    left
    cases step_cases h with
    | word w snap hpc hw =>
      apply lex_right rfl
      apply lex_right (by rw [hpc]; rfl)
      apply lex_right (by rw [hpc]; rfl)
      apply lex_right (by rw [hpc]; rfl)
      apply lex_left
      rw [hpc]
      show s.q.t.nlongs - (w + 1) + 1 < s.q.t.nlongs - w + 1
      omega
    | cleared w snap hpc hw =>
      apply lex_right rfl
      apply lex_right (by rw [hpc]; rfl)
      apply lex_right (by rw [hpc]; rfl)
      apply lex_right (by rw [hpc]; rfl)
      apply lex_left
      rw [hpc]
      exact Nat.succ_pos _
  | persist =>
    left
    cases step_cases h with
    | persist es hpc =>
      apply lex_right rfl
      apply lex_right (by rw [hpc]; rfl)
      apply lex_right (by rw [hpc]; rfl)
      apply lex_left
      rw [hpc]
      exact Nat.lt_succ_self _
  | apply =>
    left
    cases step_cases h with
    | apply r rest hpc =>
      apply lex_right rfl
      apply lex_right (by rw [hpc]; rfl)
      apply lex_left
      rw [hpc]
      exact Nat.lt_succ_self _
    | applied hpc =>
      apply lex_right rfl
      apply lex_right (by rw [hpc]; rfl)
      apply lex_left
      rw [hpc]
      exact Nat.one_pos
  | finish mark =>
    right
    cases step_cases h with
    | freeze _ hpc _ _ _ _ => exact .freeze mark hpc
    | finish _ hpc => exact .finish mark hpc
  | enter =>
    left
    cases step_cases h with
    | enter w hup hw =>
      refine lex_right rfl (lex_right rfl (lex_right rfl (lex_right rfl (lex_right rfl (lex_left ?_)))))
      have hb := ha.enter rfl
      simp [NodeSt.threads, NodeSt.unbegun, hb, hw]
  | work who m =>
    cases step_cases h with
    | work _ _ _ _ hw => exact Or.inl (work_load hb hw)

/-! ## what stays -/

theorem Busy.frame (h : Busy s) (hw : s'.worker = s.worker) (hp : s'.baseProgress = s.baseProgress)
    (hup : s'.pc ≠ .down → s.pc ≠ .down) (hstop : s'.stop = false → s.stop = false)
    (hseed : s'.seedRequired = s.seedRequired)
    (hbase : s'.files.baseEnd = none → s.files.baseEnd = none) : Busy s' := by
  refine ⟨?_, fun h1 h2 => ?_, fun h1 h2 h3 h4 => ?_⟩
  · rw [hw]
    exact h.left
  · rw [hw]
    exact h.begun (hup h1) (hp ▸ h2)
  · rw [hw]
    exact h.base (hup h1) (hstop h2) (hseed ▸ h3) (hbase h4)

theorem Busy.set {who : Who} {w : Worker} (w' : Worker) (h : Busy s) (hw : s.worker who = some w)
    (hl : w'.pc ≠ .idle → ∃ off rem es, w'.left = (off, rem + 1) :: es) :
    Busy (s.setWorker who (some w')) := by
  have hbase : s.worker .base ≠ none → (s.setWorker who (some w')).worker .base ≠ none := by
    intro hb
    cases who with
    | base => exact Option.some_ne_none _
    | recovery => exact hb
  refine ⟨fun v u hu => ?_, fun h1 h2 => hbase (h.begun h1 h2), fun h1 h2 h3 h4 =>
    hbase (h.base h1 h2 h3 h4)⟩
  change Function.update s.worker who (some w') v = some u at hu
  by_cases hv : v = who
  · rw [hv, Function.update_self] at hu
    obtain rfl := Option.some.inj hu
    exact hl
  · rw [Function.update_of_ne hv] at hu
    exact h.left v u hu

theorem Busy.left_gone {who v : Who} {u : Worker} (h : Busy s)
    (hu : (s.setWorker who none).worker v = some u) (hpc : u.pc ≠ .idle) :
    ∃ off rem es, u.left = (off, rem + 1) :: es := by
  change Function.update s.worker who none v = some u at hu
  by_cases hv : v = who
  · rw [hv, Function.update_self] at hu
    cases hu
  · rw [Function.update_of_ne hv] at hu
    exact h.left v u hu hpc

theorem Busy.work {who : Who} {m : Nat} (h : Busy s) (hs : workNode cfg s who m = some s') :
    Busy s' := by
  obtain ⟨w, hw, hwork⟩ := work_cases hs
  cases hwork with
  | quit hpc hstop =>
    have hgo : ∀ {p : Prop}, s.stop = false → p := fun e => by
      rw [hstop] at e
      cases e
    cases who with
    | base => exact ⟨fun v u => h.left_gone, fun _ e => (by cases e), fun _ e _ _ => hgo e⟩
    | recovery => exact ⟨fun v u => h.left_gone, h.begun, fun _ e _ _ => hgo e⟩
  | done hpc hleft hstop =>
    cases who with
    | base =>
      exact ⟨fun v u => h.left_gone, fun _ e => (by cases e), fun _ _ _ e => (by cases e)⟩
    | recovery => exact ⟨fun v u => h.left_gone, h.begun, h.base⟩
  | begin off rem es hpc hleft hstop =>
    have hset := h.set ⟨.flagged off (min (rem + 1) CopyChunk), w.left⟩ hw
      fun _ => ⟨off, rem, es, hleft⟩
    exact ⟨hset.left, hset.begun, hset.base⟩
  | next off es hpc hleft => exact h.set _ hw fun e => absurd rfl e
  | finish n hpc => exact h.set _ hw fun e => absurd rfl e
  | chunk c pc hok hst =>
    have hpc : w.pc ≠ .idle := by
      intro e
      rw [e] at hst
      cases hst
    have hset := h.set ⟨pc, w.left⟩ hw fun _ => h.left who w hw hpc
    exact ⟨hset.left, hset.begun, hset.base⟩

theorem Busy.step (h : Busy s) (hs : nstep cfg s a = some s') : Busy s' := by
  cases step_cases hs with
  | start _ hpc hst =>
    unfold startNode at hst
    rw [hpc] at hst
    obtain rfl := Option.some.inj hst
    refine ⟨fun who w hw hne => ?_, fun _ e => (by cases e), fun _ _ h3 h4 => ?_⟩
    · have hidle := workers_idle s.files (cfg.seedRequired && s.files.baseEnd.isNone)
        cfg.target.size who
      rw [show s.files.workers _ _ who = some w from hw] at hidle
      exact absurd hidle hne
    · show (if _ ∧ _ then _ else _) ≠ _
      rw [if_pos ⟨h4, h3⟩]
      exact Option.some_ne_none _
  | crash hpc => exact ⟨fun _ _ e => (by cases e), fun e => absurd rfl e, fun e => absurd rfl e⟩
  | stop hpc => exact h.frame rfl rfl (fun _ => hpc) (fun e => (by cases e)) rfl id
  | adopt hpc _ _ =>
    exact ⟨h.left, fun _ => h.begun (up_of hpc rfl), fun _ _ _ e => (by cases e)⟩
  | fallBack b hpc hreq _ _ =>
    refine ⟨fun v u hu hne => ?_, fun _ _ => Option.some_ne_none _,
      fun _ _ _ _ => Option.some_ne_none _⟩
    cases v with
    | base =>
      obtain rfl := Option.some.inj hu
      exact absurd rfl hne
    | recovery => exact h.left .recovery u hu hne
  | persist es hpc =>
    have hup := up_of hpc rfl
    refine ⟨fun v u hu hne => ?_, fun _ => h.begun hup, fun _ => h.base hup⟩
    cases v with
    | base => exact h.left .base u hu hne
    | recovery =>
      obtain rfl := Option.some.inj hu
      exact absurd rfl hne
  | enter w hup hw =>
    exact ⟨h.left, fun _ _ => by rw [hw]; exact Option.some_ne_none w, h.base⟩
  | work who m _ _ hw => exact h.work hw
  | bio b ts _ => exact h.frame rfl rfl id id rfl id
  | lock on => exact h.frame rfl rfl id id rfl id
  | seedData img _ _ => exact h.frame rfl rfl id id rfl id
  | seedMark => exact h.frame rfl rfl id id rfl id
  | read k hpc _ => exact h.frame rfl rfl (fun _ => up_of hpc rfl) id rfl id
  | drain k hpc => exact h.frame rfl rfl (fun _ => up_of hpc rfl) id rfl id
  | test _ _ hpc => exact h.frame rfl rfl (fun _ => up_of hpc rfl) id rfl id
  | park _ _ _ _ hpc => exact h.frame rfl rfl (fun _ => up_of hpc rfl) id rfl id
  | pass _ _ _ _ hpc => exact h.frame rfl rfl (fun _ => up_of hpc rfl) id rfl id
  | consumed _ _ _ hpc => exact h.frame rfl rfl (fun _ => up_of hpc rfl) id rfl id
  | noSeed hpc => exact h.frame rfl rfl (fun _ => up_of hpc rfl) id rfl id
  | gap _ _ hpc _ _ _ => exact h.frame rfl rfl (fun _ => up_of hpc rfl) id rfl id
  | noGap hpc => exact h.frame rfl rfl (fun _ => up_of hpc rfl) id rfl id
  | word _ _ hpc _ => exact h.frame rfl rfl (fun _ => up_of hpc rfl) id rfl id
  | cleared _ _ hpc _ => exact h.frame rfl rfl (fun _ => up_of hpc rfl) id rfl id
  | unpark _ hpc _ _ => exact h.frame rfl rfl (fun _ => up_of hpc rfl) id rfl id
  | noPending hpc => exact h.frame rfl rfl (fun _ => up_of hpc rfl) id rfl id
  | apply _ _ hpc => exact h.frame rfl rfl (fun _ => up_of hpc rfl) id rfl id
  | applied hpc => exact h.frame rfl rfl (fun _ => up_of hpc rfl) id rfl id
  | freeze _ hpc _ _ _ _ => exact h.frame rfl rfl (fun _ => up_of hpc rfl) id rfl id
  | finish _ hpc => exact h.frame rfl rfl (fun _ => up_of hpc rfl) id rfl id

theorem busy_init (dev img : Nat → UInt8) : Busy (NodeSt.init cfg dev img) :=
  ⟨fun _ _ e => (by cases e), fun e => absurd rfl e, fun e => absurd rfl e⟩

/-- what the steps of the daemon leave alone: the lock, `manifest.seeded`, the boot and `stop` -/
structure Steady (s s' : NodeSt) : Prop where
  up : s.pc ≠ .down → s'.pc ≠ .down
  stop : s'.stop = s.stop
  lock : s'.files.lock = s.files.lock
  seeded : s'.files.seeded = s.files.seeded
  seed : s'.seedRequired = true → s.seedRequired = true
  dropped : s'.dropped = s.dropped
  dev : s'.q.dev = s.q.dev

theorem work_steady {who : Who} {m : Nat} (h : workNode cfg s who m = some s') : Steady s s' := by
  obtain ⟨w, hw, hwork⟩ := work_cases h
  cases hwork with
  | quit _ _ => cases who <;> exact ⟨id, rfl, rfl, rfl, id, rfl, rfl⟩
  | done _ _ _ => cases who <;> exact ⟨id, rfl, rfl, rfl, id, rfl, rfl⟩
  | _ => exact ⟨id, rfl, rfl, rfl, id, rfl, rfl⟩

theorem daemon_steady (ha : a.daemon = true) (h : nstep cfg s a = some s') : Steady s s' := by
  cases step_cases h with
  | bio | lock | seedData | seedMark | start | crash | stop => cases ha
  | read k hpc _ =>
    refine ⟨fun _ => ?_, rfl, rfl, rfl, id, rfl, (Feed.read_cases k s.q).2.1⟩
    dsimp only
    split <;> simp
  | drain k hpc =>
    refine ⟨fun _ => ?_, rfl, rfl, rfl, id, rfl, (Feed.read_cases k s.q).2.1⟩
    dsimp only
    split <;> simp
  | consumed drain _ _ hpc =>
    refine ⟨fun _ => ?_, rfl, rfl, rfl, id, rfl, rfl⟩
    cases drain <;> simp
  | adopt hpc _ _ => exact ⟨fun _ => by simp, rfl, rfl, rfl, fun e => (by cases e), rfl, rfl⟩
  | fallBack b hpc _ _ _ =>
    exact ⟨fun _ => by simp, rfl, rfl, rfl, fun e => (by cases e), rfl, rfl⟩
  | enter w hup hw => exact ⟨id, rfl, rfl, rfl, id, rfl, rfl⟩
  | work who m _ _ hw => exact work_steady hw
  | _ => exact ⟨fun _ => by simp, rfl, rfl, rfl, id, rfl, rfl⟩

/-! ## an idle main loop -/

/-- how far it is to the top of the loop -/
def NodePc.away : NodePc → Nat
  | .consumed => 5
  | .checked => 4
  | .started => 3
  | .settled => 2
  | .draining => 1
  | _ => 0

theorem Idle.nearer (h : Idle s a s') (ht : s.pc ≠ .top) : s'.pc.away < s.pc.away := by
  cases h <;> simp_all [NodePc.away]

theorem Idle.of_top (h : Idle s a s') (hpc : s.pc = .top) : s.q.live = [] ∧ s'.pc = .consumed := by
  cases h <;> simp_all

theorem Idle.of_consumed (h : Idle s a s') (hpc : s.pc = .consumed) :
    (s.seedRequired = true → s.files.seeded = none) ∧ s'.pc = .checked := by
  cases h <;> simp_all

theorem Idle.of_checked (h : Idle s a s') (hpc : s.pc = .checked) :
    (s.worker .recovery = none → s.baseProgress = false → s.gaps.queue = []) ∧ s'.pc = .started := by
  cases h <;> simp_all

theorem Idle.of_started (h : Idle s a s') (hpc : s.pc = .started) :
    s.files.lock = false → s.files.pending = none := by
  cases h <;> simp_all

/-- the daemon runs, without a rebuild, and if it waits for a seed there is one -/
structure Resumed (s : NodeSt) : Prop where
  up : s.pc ≠ .down
  going : s.stop = false
  unlocked : s.files.lock = false
  seeded : s.seedRequired = true → s.files.seeded ≠ none

theorem Resumed.step (h : Resumed s) (hs : Steady s s') : Resumed s' := by
  refine ⟨hs.up h.up, hs.stop.trans h.going, hs.lock.trans h.unlocked, fun e => ?_⟩
  rw [hs.seeded]
  exact h.seeded (hs.seed e)

theorem settled_step (h : Settled s) (hseed : s.seedRequired = false) (ha : a.daemon = true)
    (hs : nstep cfg s a = some s') : Settled s' := by
  have hst := daemon_steady ha hs
  have hup := hst.up h.up
  have hgo := hst.stop.trans h.going
  have hfalse : ∀ {p : Prop}, s.pc.isClearing = true → p := fun e => by
    rw [h.clearing] at e
    cases e
  have hhand := h.hand
  cases step_cases hs with
  | bio | lock | seedData | seedMark | start | crash | stop => cases ha
  | read k hpc _ =>
    rw [Feed.read_nil k h.drained, if_pos rfl]
    exact ⟨by simp, hgo, h.base, h.drained, rfl, h.parked, h.queue, rfl, h.idle⟩
  | drain k hpc =>
    rw [Feed.read_nil k h.drained, if_pos rfl]
    exact ⟨by simp, hgo, h.base, h.drained, rfl, h.parked, h.queue, rfl, h.idle⟩
  | test drain batch hpc =>
    rw [hpc] at hhand
    exact ⟨by simp, hgo, h.base, h.drained, hhand, h.parked, h.queue, rfl, h.idle⟩
  | park drain parked r rest hpc =>
    rw [hpc] at hhand
    simp [NodePc.hand] at hhand
  | pass drain parked r rest hpc =>
    rw [hpc] at hhand
    simp [NodePc.hand] at hhand
  | consumed drain park parked hpc =>
    rw [hpc] at hhand
    obtain rfl : parked = [] := by simpa [NodePc.hand] using hhand
    refine ⟨hup, hgo, h.base, h.drained, ?_, h.parked, h.queue, ?_, h.idle⟩
    · cases drain <;> rfl
    · cases drain <;> rfl
  | adopt _ hreq _ => exact absurd (hseed.symm.trans hreq) Bool.false_ne_true
  | fallBack _ _ hreq _ _ => exact absurd (hseed.symm.trans hreq) Bool.false_ne_true
  | gap g queue hpc hq _ _ =>
    have := h.queue
    rw [hq] at this
    cases this
  | word w snap hpc _ => exact hfalse (by rw [hpc]; rfl)
  | cleared w snap hpc _ => exact hfalse (by rw [hpc]; rfl)
  | persist es hpc => exact hfalse (by rw [hpc]; rfl)
  | unpark l hpc _ hl =>
    have := h.parked
    rw [hl] at this
    cases this
  | applied hpc => exact ⟨by simp, hgo, h.base, h.drained, rfl, rfl, h.queue, rfl, h.idle⟩
  | enter w _ hw =>
    rw [h.idle] at hw
    cases hw
  | work who m _ _ hw =>
    obtain ⟨w, hw, _⟩ := work_cases hw
    rw [h.idle] at hw
    cases hw
  | _ => exact ⟨by simp, hgo, h.base, h.drained, rfl, h.parked, h.queue, rfl, h.idle⟩

/-! ## runs -/

/-- only the daemon moves, and a copy thread that is there moves at some time -/
structure Served (t : Trace (nstep cfg)) : Prop where
  step : ∀ n, DaemonOk (t.state n) (t.act n)
  thread : ∀ n who, ∃ m, n ≤ m ∧ ((t.state m).worker who = none ∨ (t.act m).moves who = true)

/-- **A main loop that is idle for ever** has nothing to do. -/
theorem idle_settled {t : Trace (nstep cfg)} (ht : Served t) {n : Nat} (hr : Resumed (t.state n))
    (hb : Busy (t.state n))
    (hidle : ∀ m, n ≤ m → Idle (t.state m) (t.act m) (t.state (m + 1))) :
    ∃ m, n ≤ m ∧ Settled (t.state m) ∧ (t.state m).seedRequired = false := by
  have hsame : ∀ m, n ≤ m → t.state m = { t.state n with pc := (t.state m).pc } := by
    refine t.keeps (I:=fun s => s = { t.state n with pc := s.pc }) rfl fun m hm ih => ?_
    rw [(hidle m hm).same, ih]
  have hnone : ∀ who, (t.state n).worker who = none := by
    intro who
    obtain ⟨m, hm, h | h⟩ := ht.thread n who
    · rw [hsame m hm] at h
      exact h
    · rw [(hidle m hm).not_moves] at h
      cases h
  have hprog : (t.state n).baseProgress = false := by
    by_contra h
    exact hb.begun hr.up (Bool.eq_true_of_not_eq_false h) (hnone .base)
  obtain ⟨m, hm, htop⟩ := t.reaches (fun s => s.pc.away) (P:=fun s => s.pc = .top) (b:=n)
    (fun k hk => or_iff_not_imp_left.mpr fun h => ((hidle k hk).nearer h).le)
    (fun k hk => ⟨k, le_rfl, or_iff_not_imp_left.mpr (hidle k hk).nearer⟩) n le_rfl
  obtain ⟨hlive, hpc1⟩ := (hidle m hm).of_top htop
  obtain ⟨hseed, hpc2⟩ := (hidle (m + 1) (by omega)).of_consumed hpc1
  obtain ⟨hqueue, hpc3⟩ := (hidle (m + 2) (by omega)).of_checked hpc2
  have hpend := (hidle (m + 3) (by omega)).of_started hpc3
  rw [hsame m hm] at hlive
  rw [hsame (m + 1) (by omega)] at hseed
  rw [hsame (m + 2) (by omega)] at hqueue
  rw [hsame (m + 3) (by omega)] at hpend
  have hreq : (t.state n).seedRequired = false := by
    by_contra h
    have h := Bool.eq_true_of_not_eq_false h
    exact hr.seeded h (hseed h)
  refine ⟨m, hm, ⟨?_, ?_, ?_, ?_, ?_, ?_, ?_, ?_, ?_⟩, ?_⟩
  · rw [htop]
    simp
  · rw [hsame m hm]
    exact hr.going
  · rw [hsame m hm]
    exact fun h => hb.base hr.up hr.going hreq h (hnone .base)
  · rw [hsame m hm]
    exact hlive
  · rw [htop]
    rfl
  · rw [hsame m hm]
    exact hpend hr.unlocked
  · rw [hsame m hm]
    exact hqueue (hnone .recovery) hprog
  · rw [htop]
    rfl
  · rw [hsame m hm]
    exact hnone
  · rw [hsame m hm]
    exact hreq

theorem nodeInv_init {dev img : Nat → UInt8} : NodeInv cfg (NodeSt.init cfg dev img) :=
  ⟨⟨rfl, rfl⟩, fun _ e => absurd rfl e⟩

end

section
variable (cfg : NodeConfig) (dev img : Nat → UInt8) (as : List NodeAct) (t : Trace (nstep cfg))

/-- one of the states is settled, with no seed to wait for -/
theorem reaches_settled (h : exec (nstep cfg) (NodeSt.init cfg dev img) as = some (t.state 0))
    (h0 : Resumed (t.state 0)) (ht : Served t) :
    ∃ n, Settled (t.state n) ∧ (t.state n).seedRequired = false := by
  have hbusy : ∀ n, Busy (t.state n) := fun n =>
    t.keeps (exec_invariant (fun s a s' hb hs => hb.step hs) (busy_init dev img) h)
      (fun m _ hb => hb.step (t.next m)) n (Nat.zero_le n)
  have hres : ∀ n, Resumed (t.state n) := fun n =>
    t.keeps h0 (fun m _ hr => hr.step (daemon_steady (ht.step m).daemon (t.next m))) n (Nat.zero_le n)
  have hstep : ∀ n, (t.state (n + 1)).load < (t.state n).load ∨
      Idle (t.state n) (t.act n) (t.state (n + 1)) := fun n =>
    daemon_step (hbusy n) (ht.step n) (t.next n)
  have hfall : ∀ n, 0 ≤ n → ∃ m, n ≤ m ∧
      ((Settled (t.state m) ∧ (t.state m).seedRequired = false) ∨
        (t.state (m + 1)).load < (t.state m).load) := by
    intro n _
    by_contra hno
    have hidle : ∀ m, n ≤ m → Idle (t.state m) (t.act m) (t.state (m + 1)) := fun m hm =>
      (hstep m).resolve_left fun hlt => hno ⟨m, hm, Or.inr hlt⟩
    obtain ⟨m, hm, hset⟩ := idle_settled ht (hres n) (hbusy n) hidle
    exact hno ⟨m, hm, Or.inl hset⟩
  obtain ⟨n, -, hset⟩ := t.reaches NodeSt.load
    (P:=fun s => Settled s ∧ s.seedRequired = false) (b:=0)
    (fun n _ => (hstep n).elim (fun h => Or.inr h.le) fun h => Or.inr h.load.le) hfall 0 le_rfl
  exact ⟨n, hset⟩

theorem settled_stays {n : Nat} (ht : Served t) (hset : Settled (t.state n))
    (hseed : (t.state n).seedRequired = false) (m : Nat) (hm : n ≤ m) : Settled (t.state m) := by
  refine (t.keeps (I:=fun s => Settled s ∧ s.seedRequired = false) ⟨hset, hseed⟩ ?_ m hm).1
  intro k _ hk
  refine ⟨settled_step hk.1 hk.2 (ht.step k).daemon (t.next k), ?_⟩
  by_contra hreq
  have hs := (daemon_steady (ht.step k).daemon (t.next k)).seed (Bool.eq_true_of_not_eq_false hreq)
  exact absurd (hk.2.symm.trans hs) Bool.false_ne_true

/-- **The daemon settles**, whatever it has to do, and stays so. -/
theorem settles (h : exec (nstep cfg) (NodeSt.init cfg dev img) as = some (t.state 0))
    (h0 : Resumed (t.state 0)) (ht : Served t) : ∃ n, ∀ m, n ≤ m → Settled (t.state m) := by
  obtain ⟨n, hset, hseed⟩ := reaches_settled cfg dev img as t h h0 ht
  exact ⟨n, settled_stays cfg t ht hset hseed⟩

/-- **The daemon catches up**: in a boot without drops the replica becomes the disk. -/
theorem catches_up (h : exec (nstep cfg) (NodeSt.init cfg dev img) as = some (t.state 0))
    (h0 : Resumed (t.state 0)) (ht : Served t) (hdrop : (t.state 0).dropped = false)
    (hok : Meets (nstep cfg) (NodeOk cfg) (NodeSt.init cfg dev img) as)
    (hok' : ∀ n, NodeOk cfg (t.state n) (t.act n)) :
    ∃ n, ∀ m, n ≤ m → ∀ x, x < cfg.target.size → (t.state m).c.img x = (t.state 0).q.dev x := by
  obtain ⟨n, hset, hseed⟩ := reaches_settled cfg dev img as t h h0 ht
  refine ⟨n, fun m hm x hx => ?_⟩
  have hinv : NodeInv cfg (t.state m) := t.keeps
    (exec_invariant_meets (fun s a s' hi hg hs => hi.step hg hs) nodeInv_init hok h)
    (fun k _ hi => hi.step (hok' k) (t.next k)) m (Nat.zero_le m)
  obtain ⟨hd, hdev⟩ : (t.state m).dropped = false ∧ (t.state m).q.dev = (t.state 0).q.dev := by
    refine t.keeps (I:=fun s => s.dropped = false ∧ s.q.dev = (t.state 0).q.dev) ⟨hdrop, rfl⟩ ?_ m
      (Nat.zero_le m)
    intro k _ hk
    have hs := daemon_steady (ht.step k).daemon (t.next k)
    exact ⟨hs.dropped.trans hk.1, hs.dev.trans hk.2⟩
  rw [← hdev]
  exact hinv.inSync hd (settled_stays cfg t ht hset hseed m hm) x hx

end

/-! ## a run -/

/-- an iteration of the main loop that finds nothing -/
def quietLoop : List NodeAct := [.read 0, .checkSeed, .gapTest, .pendingTest, .finish false]

/-- **A settled daemon idles.** -/
theorem idle_loop (cfg : NodeConfig) {s : NodeSt} (h : Settled s) (hpc : s.pc = .top)
    (hseed : s.seedRequired = false) : exec (nstep cfg) s quietLoop = some s ∧
      Meets (nstep cfg) (fun s a => DaemonOk s a ∧ NodeOk cfg s a) s quietLoop := by
  have h1 : nstep cfg s (.read 0) = some { s with pc := .consumed } := by
    simp [nstep, readNode, hpc, h.going, Feed.read]
  have h2 : nstep cfg { s with pc := .consumed } .checkSeed = some { s with pc := .checked } := by
    simp [nstep, checkSeedNode, hseed]
  have h3 : nstep cfg { s with pc := .checked } .gapTest = some { s with pc := .started } := by
    simp [nstep, gapTestNode, h.queue]
  have h4 : nstep cfg { s with pc := .started } .pendingTest = some { s with pc := .settled } := by
    simp [nstep, pendingTestNode, h.parked]
  have h5 : nstep cfg { s with pc := .settled } (.finish false) = some s := by
    simp [nstep, finishNode, ← hpc]
  refine ⟨?_, ⟨⟨rfl, fun k _ hl => absurd h.drained hl, fun e => (by cases e)⟩, fun _ => trivial⟩,
    fun t ht => ?_⟩
  · simp only [quietLoop, exec, h1, h2, h3, h4, h5, Option.bind_some]
  obtain rfl := Option.some.inj (h1.symm.trans ht)
  refine ⟨⟨⟨rfl, fun k e => (by cases e), fun e => (by cases e)⟩, fun _ _ hreq => ?_⟩, fun t ht => ?_⟩
  · exact absurd (hseed.symm.trans hreq) Bool.false_ne_true
  obtain rfl := Option.some.inj (h2.symm.trans ht)
  refine ⟨⟨⟨rfl, fun k e => (by cases e), fun e => (by cases e)⟩, fun _ => trivial⟩, fun t ht => ?_⟩
  obtain rfl := Option.some.inj (h3.symm.trans ht)
  refine ⟨⟨⟨rfl, fun k e => (by cases e), fun e => (by cases e)⟩, fun _ => trivial⟩, fun t ht => ?_⟩
  obtain rfl := Option.some.inj (h4.symm.trans ht)
  exact ⟨⟨⟨rfl, fun k e => (by cases e), fun e => (by cases e)⟩, fun _ => trivial⟩, fun t ht => trivial⟩

/-- the daemon starts, and a bio comes before the base copy -/
def behindRun : List NodeAct := [.start, .bio sectorWrite 0]

def catchUp : List NodeAct := applyOneRecord ++ baseCopy

/-- tests of `behindRun ++ catchUp` -/
def behindOkB (s : NodeSt) : NodeAct → Bool
  | .start => s.files.baseEnd.isNone
  | a => nodeOkB s a

theorem behindOk_of_test {cfg : NodeConfig} (s : NodeSt) (a : NodeAct) (h : behindOkB s a = true) :
    NodeOk cfg s a := by
  cases a with
  | start => exact fun _ hb => absurd (Option.isNone_iff_eq_none.mp h) hb
  | _ =>
    refine nodeOk_of_test ?_
    exact h

def daemonOkB (s : NodeSt) : NodeAct → Bool
  | .read k => s.q.live.isEmpty || decide (0 < k)
  | .enter => !s.baseProgress
  | a => a.daemon

theorem daemonOk_of_test (s : NodeSt) (a : NodeAct) (h : daemonOkB s a = true) : DaemonOk s a := by
  cases a with
  | read k =>
    refine ⟨rfl, fun j e hl => ?_, fun e => (by cases e)⟩
    cases e
    simpa [daemonOkB, List.isEmpty_iff, hl] using h
  | enter => exact ⟨rfl, fun j e => (by cases e), fun _ => by simpa [daemonOkB] using h⟩
  | _ => exact ⟨h, fun j e => (by cases e), fun e => (by cases e)⟩

theorem behind_lasso : ∃ t : Trace (nstep tinyNode),
    exec (nstep tinyNode) (NodeSt.init tinyNode (fun _ => 3) fun _ => 0) behindRun
      = some (t.state 0) ∧ Resumed (t.state 0) ∧ Served t ∧ (t.state 0).dropped = false ∧
      (∀ n, NodeOk tinyNode (t.state n) (t.act n)) ∧ (t.state 0).q.dev 0 = 1 ∧
      (t.state 0).c.img 0 = 0 := by
  have h0 : (exec (nstep tinyNode) (NodeSt.init tinyNode (fun _ => 3) fun _ => 0) behindRun).any
      (fun s => s.pc.isTop && !s.stop && !s.files.lock && !s.seedRequired && !s.dropped &&
        s.q.dev 0 == 1 && s.c.img 0 == 0 &&
        (exec (nstep tinyNode) s catchUp).any (fun s => settledB s && !s.seedRequired) &&
        meetsB (nstep tinyNode) (fun s a => daemonOkB s a && behindOkB s a) s catchUp) = true := by
    decide +kernel
  obtain ⟨s, hs, hp⟩ := (Option.any_eq_true _ _).mp h0
  simp only [Bool.and_eq_true, Bool.not_eq_true', beq_iff_eq] at hp
  obtain ⟨⟨⟨⟨⟨⟨⟨⟨htop, hstop⟩, hlock⟩, hseed⟩, hdrop⟩, hdev⟩, himg⟩, hend⟩, hmeets⟩ := hp
  obtain ⟨s', hs', hp'⟩ := (Option.any_eq_true _ _).mp hend
  obtain ⟨hset, hseed'⟩ := Bool.and_eq_true_iff.mp hp'
  have hseed' : s'.seedRequired = false := by simpa using hseed'
  have htop' : s'.pc = .top := by
    simp only [settledB, Bool.and_eq_true] at hset
    exact NodePc.isTop_iff.mp hset.2
  have hset := settled_of_test hset
  obtain ⟨hloop, hmeets'⟩ := idle_loop tinyNode hset htop' hseed'
  have hpos : 0 < quietLoop.length := Nat.succ_pos 4
  have hstart := lasso_start hs' hloop hpos
  have hgood : Meets (nstep tinyNode) (fun s a => DaemonOk s a ∧ NodeOk tinyNode s a) s catchUp := by
    refine meets_of_meetsB (fun s a h => ?_) hmeets
    obtain ⟨h1, h2⟩ := Bool.and_eq_true_iff.mp h
    exact ⟨daemonOk_of_test s a h1, behindOk_of_test s a h2⟩
  have hok := lasso_meets hs' hloop hpos hgood hmeets'
  refine ⟨Trace.lasso hs' hloop hpos, ?_, ?_, ⟨fun n => (hok n).1, fun n who => ?_⟩, ?_,
    fun n => (hok n).2, ?_, ?_⟩
  · rw [hstart]
    exact hs
  · rw [hstart]
    refine ⟨?_, hstop, hlock, fun e => absurd (hseed.symm.trans e) Bool.false_ne_true⟩
    rw [NodePc.isTop_iff.mp htop]
    simp
  · obtain ⟨m, hm, he⟩ := lasso_recurs hs' hloop hpos n
    refine ⟨m, hm, Or.inl ?_⟩
    rw [he]
    exact hset.idle who
  · rw [hstart]
    exact hdrop
  · rw [hstart]
    exact hdev
  · rw [hstart]
    exact himg

theorem settles_behind : ∃ t : Trace (nstep tinyNode), (t.state 0).q.dev 0 = 1 ∧
    (t.state 0).c.img 0 = 0 ∧ ∃ n, ∀ m, n ≤ m → Settled (t.state m) := by
  obtain ⟨t, h, h0, ht, _, _, hdev, himg⟩ := behind_lasso
  exact ⟨t, hdev, himg, settles tinyNode _ _ behindRun t h h0 ht⟩

theorem catches_up_behind : ∃ t : Trace (nstep tinyNode), (t.state 0).q.dev 0 = 1 ∧
    (t.state 0).c.img 0 = 0 ∧ 
    ∃ n, ∀ m, n ≤ m → ∀ x, x < 512 → (t.state m).c.img x = (t.state 0).q.dev x := by
  obtain ⟨t, h, h0, ht, hdrop, hok, hdev, himg⟩ := behind_lasso
  refine ⟨t, hdev, himg, catches_up tinyNode _ _ behindRun t h h0 ht hdrop ?_ hok⟩
  exact meets_of_meetsB behindOk_of_test (by decide +kernel)

end CDP
