import DmCdp.Daemon.Node

/-!
# What holds while the daemon is up

In a boot in which no bio has been dropped every byte of the disk is *due*, that is, something
under way will still copy it from the device (`NodeSt.Due`), or it is fresh: the replica holds what
the device holds once the waiting records, `pending.bin`, the batch in hand and the ring are
replayed (`Core`).

* `NodeOk`         what a step must not do;
* `NodeInv.step`   what a step that keeps to it preserves;
* `InSync`         in a settled state the replica is the disk (`NodeInv.inSync`).
-/

set_option linter.unusedVariables false

namespace CDP
open Img Mach

/-! ## outstanding records -/

/-- records in the memory of the main thread -/
def NodePc.hand : NodePc → List Item
  | .called _ batch => batch
  | .consuming _ _ parked rest => parked ++ rest
  | _ => []

/-- what `consume` and `apply_pending` have done of the batch and of `pending.bin` -/
def NodePc.Ok (pending : Option (List Item)) : NodePc → Prop
  | .consuming _ false parked _ => parked = []
  | .applying rest => ∃ done, pending = some (done ++ rest)
  | _ => True

/-- what is still to be replayed of `pending.bin` -/
def NodePc.file (pending : Option (List Item)) : NodePc → List Item
  | .applying rest => rest
  | _ => pending.getD []

/-- the records that `apply_one` has not seen, in the order in which it will -/
def NodeSt.todo (s : NodeSt) : List Item :=
  s.pc.file s.files.pending ++ s.pc.hand ++ s.q.unread

/-! ## copy threads -/

def pcOf : Option Worker → ChunkPc
  | some w => w.pc
  | none => .idle

/-- the `copy_chunk` that is under way -/
def NodeSt.chunk (s : NodeSt) : ChunkPc :=
  if (pcOf (s.worker .base)).isIdle then pcOf (s.worker .recovery) else pcOf (s.worker .base)

/-- the record that `apply_one` gets in this step -/
def NodeSt.applies (n : NodeSt) : NodeAct → Option Item
  | .consume =>
    match n.pc with
    | .consuming _ false _ (r :: _) => some r
    | _ => none
  | .apply =>
    match n.pc with
    | .applying (r :: _) => some r
    | _ => none
  | .work who _ =>
    match pcOf (n.worker who) with
    | .replaying _ (r :: _) => some r
    | _ => none
  | _ => none

/-- what a thread has still to copy; while it replays late records the chunk is done -/
def Worker.rest (w : Worker) : List (Nat × Nat) :=
  match w.pc with
  | .replaying n _ => advance n w.left
  | _ => w.left

/-- the chunk in flight is the first part of what is left -/
def Worker.Ok (size : Nat) (w : Worker) : Prop :=
  match w.pc with
  | .flagged off n => ∃ rem es, w.left = (off, rem) :: es ∧ n = min rem CopyChunk
  | .holding off n buf => (∃ rem es, w.left = (off, rem) :: es ∧ n = min rem CopyChunk) ∧
      ReadLen size off n buf.length
  | .stored off n m => (∃ rem es, w.left = (off, rem) :: es ∧ n = min rem CopyChunk) ∧
      ReadLen size off n m
  | _ => True

/-! ## due -/

def NodePc.isClearing : NodePc → Bool
  | .clearing _ _ => true
  | .cleared _ => true
  | _ => false

/-- byte `x` will be copied from the device -/
inductive NodeSt.Due (cfg : NodeConfig) (s : NodeSt) (x : Nat) : Prop
  /-- by the base copy -/
  | base : s.files.baseEnd = none → (∀ w, s.worker .base = some w → InExtents w.rest x) → Due cfg s x
  /-- by the recovery that runs -/
  | recovery (w : Worker) : s.worker .recovery = some w → InExtents w.rest x → Due cfg s x
  /-- by the recovery that `stop` has interrupted, after the next start -/
  | redo (es : List (Nat × Nat)) : s.stop = true → s.worker .recovery = none →
      s.files.recovery = some es → InExtents (byteExtents es) x → Due cfg s x
  /-- by a recovery in the queue, which will find the bit -/
  | bit : s.q.t.bitmap (cfg.target.chunkOf x) = true → s.gaps.queue ≠ [] → Due cfg s x
  /-- by the recovery whose `ioctl` is under way -/
  | clearing (w : Nat) (snap : Nat → Bool) : s.pc = .clearing w snap →
      ((snap (cfg.target.chunkOf x) = true ∧ cfg.target.chunkOf x / 64 < w) ∨
        (s.q.t.bitmap (cfg.target.chunkOf x) = true ∧ w ≤ cfg.target.chunkOf x / 64)) → Due cfg s x
  /-- by the recovery that is about to start -/
  | cleared (es : List (Nat × Nat)) : s.pc = .cleared es → InExtents (byteExtents es) x → Due cfg s x

def NodeSt.Copied (cfg : NodeConfig) (s : NodeSt) (x : Nat) : Prop :=
  x < cfg.target.size ∧ ¬s.Due cfg x

/-! ## what a step must not do -/

/-- `recovery.json` says that byte `x` is to be copied -/
def Files.Redo (f : Files) (x : Nat) : Prop :=
  ∃ es, f.recovery = some es ∧ InExtents (byteExtents es) x

/-- what startup finds: outside the extents of `recovery.json` the replica with `pending.bin` and
the ring replayed is the disk -/
def StartOk (cfg : NodeConfig) (s : NodeSt) : Prop :=
  s.files.baseEnd ≠ none → ∀ x, x < cfg.target.size →
    s.files.Redo x ∨ Fresh (patches (s.files.pending.getD [] ++ s.q.unread)) s.c.img s.q.dev x

/-- a record applied at once meets no waiting one in what has been copied -/
def PassOk (cfg : NodeConfig) (s : NodeSt) (r : Item) : Prop :=
  ¬s.c.Defers r → ∀ x, s.Copied cfg x → Clear (patches (waiting s.c s.chunk)) r.patch x

/-- a chunk of `n` bytes at `off` is begun by one thread at a time, and no record that is older
than a later write over it is outstanding -/
def BeginOk (s : NodeSt) (who : Who) (off n : Nat) : Prop :=
  (∀ v, v ≠ who → pcOf (s.worker v) = .idle) ∧
    ∀ x, off ≤ x → x < off + n → Newest (patches s.todo) s.q.dev x

/-- the seed that is adopted is complete -/
def AdoptOk (cfg : NodeConfig) (s : NodeSt) : Prop :=
  ∀ x, x < cfg.target.size → s.q.t.bitmap (cfg.target.chunkOf x) = true ∨
    Fresh (patches (waiting s.c s.chunk) ++ patches s.todo) s.c.img s.q.dev x

/-- what a step must not do, in a boot in which no bio has been dropped -/
def NodeOk (cfg : NodeConfig) (s : NodeSt) (a : NodeAct) : Prop :=
  s.dropped = false →
    match a with
    | .seedData _ => ∀ off n m, s.chunk ≠ .stored off n m
    | .start => StartOk cfg s
    | .consume => ∀ drain parked r rest, s.pc = .consuming drain false parked (r :: rest) →
        (∀ x, Clear (patches (s.files.pending.getD [])) r.patch x) ∧ PassOk cfg s r
    | .checkSeed => s.pc = .consumed → s.seedRequired = true → s.files.seeded = some s.boot →
        AdoptOk cfg s
    | .persist => s.stop = true → s.files.recovery = none
    | .apply => ∀ r rest, s.pc = .applying (r :: rest) → PassOk cfg s r
    | .work who _ => ∀ w, s.worker who = some w →
        (∀ off rem es, w.pc = .idle → w.left = (off, rem + 1) :: es → s.stop = false →
          BeginOk s who off (min (rem + 1) CopyChunk)) ∧
        SkipOk (decide (who = .base)) s.c w.pc
    | _ => True

/-! ## the invariant -/

structure Core (cfg : NodeConfig) (s : NodeSt) : Prop where
  chunk : ChunkInv s.q.dev s.c s.chunk (patches s.todo) (s.Copied cfg)
  alone : ∀ who, pcOf (s.worker who) ≠ .idle → ∀ v, v ≠ who → pcOf (s.worker v) = .idle
  worker : ∀ who w, s.worker who = some w → w.Ok cfg.target.size
  noBase : s.seedRequired = true → s.worker .base = none
  -- no recovery runs while the next one starts
  single : s.pc.isClearing = true → s.worker .recovery = none
  -- what a recovery has still to copy is in `recovery.json`
  redo : ∀ w, s.worker .recovery = some w → ∃ es, s.files.recovery = some es ∧
    ∀ x, InExtents w.rest x → InExtents (byteExtents es) x
  pc : s.pc.Ok s.files.pending

structure NodeInv (cfg : NodeConfig) (s : NodeSt) : Prop where
  shape : s.q.Shape cfg.target
  core : s.dropped = false → s.pc ≠ .down → Core cfg s

section
variable {cfg : NodeConfig} {s s' : NodeSt}

/-- bits stay set, the queue does not become empty, the rest stays as it is -/
theorem NodeSt.Due.mono {x : Nat} (hb : ∀ c, s.q.t.bitmap c = true → s'.q.t.bitmap c = true)
    (hq : s.gaps.queue ≠ [] → s'.gaps.queue ≠ []) (hpc : s.pc.isClearing = true → s'.pc = s.pc)
    (hw : s'.worker = s.worker) (hbase : s'.files.baseEnd = s.files.baseEnd)
    (hrec : s'.files.recovery = s.files.recovery) (hstop : s.stop = true → s'.stop = true)
    (h : s.Due cfg x) : s'.Due cfg x := by
  cases h with
  | base h1 h2 => exact .base (hbase.trans h1) (hw ▸ h2)
  | recovery w h1 h2 => exact .recovery w ((congrFun hw _).trans h1) h2
  | redo es h1 h2 h3 h4 =>
    exact .redo es (hstop h1) ((congrFun hw _).trans h2) (hrec.trans h3) h4
  | bit h1 h2 => exact .bit (hb _ h1) (hq h2)
  | clearing w snap h1 h2 =>
    refine .clearing w snap ((hpc (by rw [h1]; rfl)).trans h1) ?_
    exact h2.imp_right fun e => ⟨hb _ e.1, e.2⟩
  | cleared es h1 h2 => exact .cleared es ((hpc (by rw [h1]; rfl)).trans h1) h2

/-- a step that touches neither replica nor records, and no chunk in flight: what was due stays
due -/
theorem Core.same (h : Core cfg s) (hc : s'.c = s.c) (hd : s'.q.dev = s.q.dev)
    (ht : s'.todo = s.todo) (hpcs : ∀ who, pcOf (s'.worker who) = pcOf (s.worker who))
    (hok : ∀ who w, s'.worker who = some w → w.Ok cfg.target.size)
    (hbase : s'.seedRequired = true → s'.worker .base = none)
    (hsingle : s'.pc.isClearing = true → s'.worker .recovery = none)
    (hredo : ∀ w, s'.worker .recovery = some w → ∃ es, s'.files.recovery = some es ∧
      ∀ x, InExtents w.rest x → InExtents (byteExtents es) x)
    (hp : s'.pc.Ok s'.files.pending)
    (hdue : ∀ x, x < cfg.target.size → s.Due cfg x → s'.Due cfg x) : Core cfg s' := by
  refine ⟨?_, fun who e v hv => ?_, hok, hbase, hsingle, hredo, hp⟩
  · have hch : s'.chunk = s.chunk := by
      unfold NodeSt.chunk
      rw [hpcs, hpcs]
    rw [hc, hd, ht, hch]
    exact h.chunk.mono fun x hx => ⟨hx.1, fun e => hx.2 (hdue x hx.1 e)⟩
  · rw [hpcs] at e ⊢
    exact h.alone who e v hv

theorem Core.frame (h : Core cfg s) (hc : s'.c = s.c) (hd : s'.q.dev = s.q.dev)
    (ht : s'.todo = s.todo) (hw : s'.worker = s.worker) (hf : s'.files.recovery = s.files.recovery)
    (hs : s'.seedRequired = true → s.seedRequired = true)
    (hpc : s'.pc.isClearing = true → s.worker .recovery = none)
    (hp : s'.pc.Ok s'.files.pending)
    (hdue : ∀ x, x < cfg.target.size → s.Due cfg x → s'.Due cfg x) : Core cfg s' := by
  refine h.same hc hd ht (fun who => by rw [hw]) ?_ ?_ ?_ ?_ hp hdue
  · rw [hw]
    exact h.worker
  · rw [hw]
    exact fun e => h.noBase (hs e)
  · rw [hw]
    exact hpc
  · rw [hw, hf]
    exact h.redo

/-- nothing is due twice: the main thread moves on outside `start_recovery` -/
theorem Core.move (h : Core cfg s) (pc : NodePc) (ht : { s with pc := pc }.todo = s.todo)
    (hs : s.pc.isClearing = false) (hpc : pc.isClearing = false)
    (hp : pc.Ok s.files.pending) :
    Core cfg { s with pc := pc } := by
  refine h.frame rfl rfl ht rfl rfl id (fun e => ?_) hp fun x _ hx => ?_
  · exact absurd (hpc.symm.trans e) (by decide)
  · refine NodeSt.Due.mono (s:=s) (fun _ e => e) id (fun e => ?_) rfl rfl rfl id hx
    exact absurd (hs.symm.trans e) (by decide)

/-- **A bio**, whatever it writes: its record queues up behind the others. -/
theorem NodeInv.wrote {b : Bio} {q : Feed} (h : NodeInv cfg s) (hm : Marked cfg.target b s.q q)
    (hw : Wrote cfg.target b s.q q) :
    NodeInv cfg { s with q := q, dropped := s.dropped || q.t.gapPending } := by
  refine ⟨hm.shape, fun hd hup => ?_⟩
  obtain ⟨hd, hgap⟩ := Bool.or_eq_false_iff.mp hd
  have hc := h.core hd hup
  have hdue : ∀ x, s.Due cfg x →
      NodeSt.Due cfg { s with q := q, dropped := s.dropped || q.t.gapPending } x :=
    fun x hx => NodeSt.Due.mono (s:=s) hm.mono id (fun _ => rfl) rfl rfl rfl id hx
  cases hw with
  | silent hn ht hl =>
    refine hc.frame rfl ?_ ?_ rfl rfl id hc.single hc.pc fun x _ => hdue x
    · show q.dev = _
      rw [hm.dev]
      funext x
      exact overlay_none (hn x)
    · unfold NodeSt.todo Feed.unread
      dsimp only
      rw [hl]
  | dropped hl hg hq => exact absurd (hgap.symm.trans hg) (by decide)
  | logged off r hl hpatch hrs hflag hg hq =>
    refine ⟨?_, hc.alone, hc.worker, hc.noBase, hc.single, hc.redo, hc.pc⟩
    have htodo : NodeSt.todo { s with q := q, dropped := s.dropped || q.t.gapPending }
        = s.todo ++ [r] := by
      unfold NodeSt.todo Feed.unread
      dsimp only
      rw [hl, List.map_append, ← List.append_assoc]
      rfl
    rw [htodo, patches_snoc, hpatch]
    show ChunkInv q.dev s.c s.chunk _ _
    rw [hm.dev]
    exact (hc.chunk.write _).mono fun x hx => ⟨hx.1, fun e => hx.2 (hdue x e)⟩

theorem NodeInv.seedData {img : Nat → UInt8} (h : NodeInv cfg s) (hg : NodeOk cfg s (.seedData img))
    (hb : s.files.baseEnd = none) (hw : s.worker .base = none) :
    NodeInv cfg { s with c := { s.c with img := img } } := by
  refine ⟨h.shape, fun hd hup => ?_⟩
  have hc := h.core hd hup
  have hstored := hg hd
  have hall : ∀ x, NodeSt.Due cfg { s with c := { s.c with img := img } } x :=
    fun x => .base hb fun w e => by
      change s.worker .base = some w at e
      rw [hw] at e
      cases e
  refine ⟨?_, hc.alone, hc.worker, hc.noBase, hc.single, hc.redo, hc.pc⟩
  exact ⟨hc.chunk.copying, hc.chunk.empty, hc.chunk.flight, hc.chunk.held,
    fun off n m e => absurd e (hstored off n m), fun x hx => absurd (hall x) hx.2⟩

theorem ChunkInv.idle {dev img : Nat → UInt8} {rest : List (Nat → Option UInt8)}
    {kept : Nat → Prop} (h : ∀ x, kept x → Fresh rest img dev x) :
    ChunkInv dev (.init img) .idle rest kept := by
  refine ⟨rfl, fun _ => rfl, ?_, fun _ _ _ e => ?_, fun _ _ _ e => ?_, h⟩
  · rintro x ⟨a, b, e, _⟩
    cases e
  · cases e
  · cases e

theorem chunk_idle (h : ∀ who, pcOf (s.worker who) = .idle) : s.chunk = .idle := by
  unfold NodeSt.chunk
  rw [h .base]
  exact h .recovery

theorem workers_idle (f : Files) (req : Bool) (size : Nat) (who : Who) :
    pcOf (f.workers req size who) = .idle := by
  unfold Files.workers
  cases who with
  | base =>
    dsimp only
    split <;> rfl
  | recovery => cases f.recovery <;> rfl

/-- **The start of the daemon**, on what `StartOk` says. -/
theorem NodeInv.start (h : NodeInv cfg s) (hg : s.dropped = false → StartOk cfg s)
    (hs : startNode cfg s = some s') : NodeInv cfg s' := by
  unfold startNode at hs
  split at hs
  · obtain rfl := Option.some.inj hs
    refine ⟨⟨h.shape.chunk, h.shape.nbits⟩, fun hd _ => ?_⟩
    have hok := hg hd
    have hidle := workers_idle s.files (cfg.seedRequired && s.files.baseEnd.isNone) cfg.target.size
    refine ⟨?_, fun who e => absurd (hidle who) e, fun who w e => ?_, fun e => ?_, fun e => ?_,
      fun w e => ?_, trivial⟩
    · rw [chunk_idle hidle]
      refine ChunkInv.idle fun x hx => ?_
      have hbase : s.files.baseEnd ≠ none := by
        intro hb
        refine hx.2 (.base hb fun w hw => ?_)
        change (if s.files.baseEnd = none ∧ _ then some (Worker.mk .idle [(0, cfg.target.size)])
          else none) = some w at hw
        split at hw
        · obtain rfl := Option.some.inj hw
          exact ⟨_, List.mem_singleton_self _, Nat.zero_le x, (Nat.zero_add _).symm ▸ hx.1⟩
        · cases hw
      rcases hok hbase x hx.1 with ⟨es, he, hin⟩ | hf
      · refine absurd (.recovery ⟨.idle, byteExtents es⟩ ?_ hin) hx.2
        show s.files.recovery.map _ = _
        rw [he]
        rfl
      · show Fresh (patches (_ ++ [] ++ _)) _ _ x
        rw [List.append_nil]
        exact hf
    · have hpc := hidle who
      change s.files.workers _ _ who = some w at e
      rw [e] at hpc
      unfold Worker.Ok
      rw [show w.pc = .idle from hpc]
      trivial
    · change (if _ ∧ _ then _ else none) = none
      rw [if_neg fun he => ?_]
      exact absurd (e.symm.trans he.2) (by decide)
    · cases e
    · change s.files.recovery.map _ = some w at e
      obtain ⟨es, he, rfl⟩ := Option.map_eq_some_iff.mp e
      exact ⟨es, he, fun x hx => hx⟩
  · exact absurd hs (by simp)

/-! ## the main thread -/

theorem todo_of {pc : NodePc} (hpc : s.pc = pc) (hhand : s'.pc.hand = pc.hand)
    (hfile : s'.pc.file s'.files.pending = pc.file s.files.pending) (hl : s'.q.live = s.q.live) :
    s'.todo = s.todo := by
  unfold NodeSt.todo Feed.unread
  rw [hpc, hhand, hfile, hl]

theorem NodeSt.Due.outside {pc : NodePc} {x : Nat} (hpc : s.pc = pc) (hcl : pc.isClearing = false)
    (hb : ∀ c, s.q.t.bitmap c = true → s'.q.t.bitmap c = true)
    (hq : s.gaps.queue ≠ [] → s'.gaps.queue ≠ []) (hw : s'.worker = s.worker)
    (hbase : s'.files.baseEnd = s.files.baseEnd) (hrec : s'.files.recovery = s.files.recovery)
    (hstop : s.stop = true → s'.stop = true) (h : s.Due cfg x) : s'.Due cfg x :=
  h.mono hb hq (fun e => absurd ((hpc ▸ hcl).symm.trans e) (by decide)) hw hbase hrec hstop

/-- **The main thread moves** between two places outside `start_recovery` that are about the same
records. -/
theorem NodeInv.main {pc pc' : NodePc} (h : NodeInv cfg s) (hpc : s.pc = pc)
    (hup : pc.isDown = false) (hcl : pc.isClearing = false) (hcl' : pc'.isClearing = false)
    (hhand : pc'.hand = pc.hand) (hfile : pc'.file s.files.pending = pc.file s.files.pending)
    (hok : pc'.Ok s.files.pending) : NodeInv cfg { s with pc := pc' } :=
  ⟨h.shape, fun hd _ => (h.core hd (up_of hpc hup)).move pc' (todo_of hpc hhand hfile rfl)
    (hpc ▸ hcl) hcl' hok⟩

theorem NodeInv.handed {k : Nat} {pc pc' : NodePc} (h : NodeInv cfg s) (hpc : s.pc = pc)
    (hup : pc.isDown = false) (hcl : pc.isClearing = false) (hcl' : pc'.isClearing = false)
    (he : pc.hand = []) (hhand : pc'.hand = (s.q.read k).1)
    (hfile : pc'.file s.files.pending = pc.file s.files.pending) (hok : pc'.Ok s.files.pending) :
    NodeInv cfg { s with q := (s.q.read k).2, pc := pc' } := by
  obtain ⟨h1, h2, tail, h3⟩ := Feed.read_cases k s.q
  refine ⟨h.shape.read k, fun hd _ => ?_⟩
  refine (h.core hd (up_of hpc hup)).frame rfl h2 ?_ rfl rfl id (fun e => ?_)
    hok fun x _ hx => ?_
  · unfold NodeSt.todo
    dsimp only
    rw [hpc, hfile, hhand, he, List.append_nil, List.append_assoc, h1]
  · exact absurd (hcl'.symm.trans e) (by decide)
  · refine hx.outside hpc hcl (fun c e => ?_) id rfl rfl rfl id
    show (s.q.read k).2.t.bitmap c = true
    rw [h3]
    exact e

theorem NodeInv.read {k : Nat} {drain : Bool} {pc none : NodePc} (h : NodeInv cfg s)
    (hpc : s.pc = pc) (hup : pc.isDown = false) (hcl : pc.isClearing = false) (he : pc.hand = [])
    (hfile : pc.file s.files.pending = s.files.pending.getD []) (hnone : none = .consumed ∨ none = .top) :
    NodeInv cfg { s with
      q := (s.q.read k).2
      pc := if (s.q.read k).1 = [] then none else .called drain (s.q.read k).1 } := by
  split
  · rename_i hb
    refine h.handed hpc hup hcl ?_ he ?_ ?_ ?_
    · rcases hnone with rfl | rfl <;> rfl
    · rw [hb]
      rcases hnone with rfl | rfl <;> rfl
    · rw [hfile]
      rcases hnone with rfl | rfl <;> rfl
    · rcases hnone with rfl | rfl <;> trivial
  · exact h.handed hpc hup hcl rfl he rfl hfile.symm trivial

theorem note_queue (g : Gaps) (r : Item) (h : g.queue ≠ []) : (g.note r).queue ≠ [] := by
  unfold Gaps.note
  split
  · exact List.append_ne_nil_of_right_ne_nil _ (List.cons_ne_nil _ _)
  · exact h

theorem NodeInv.park {drain : Bool} {parked rest : List Item} {r : Item} (h : NodeInv cfg s)
    (hpc : s.pc = .consuming drain true parked (r :: rest)) :
    NodeInv cfg { s with
      gaps := s.gaps.note r
      pc := .consuming drain true (parked ++ [r]) rest } := by
  refine ⟨h.shape, fun hd _ => ?_⟩
  refine (h.core hd (up_of hpc rfl)).frame rfl rfl (todo_of hpc ?_ rfl rfl) rfl rfl id
    (fun e => by cases e) trivial fun x _ hx =>
      hx.outside hpc rfl (fun _ e => e) (note_queue s.gaps r) rfl rfl rfl id
  exact List.append_assoc parked [r] rest

/-- **A record of the batch** goes to the replica, or waits. -/
theorem NodeInv.pass {drain : Bool} {parked rest : List Item} {r : Item} (h : NodeInv cfg s)
    (hg : NodeOk cfg s .consume) (hpc : s.pc = .consuming drain false parked (r :: rest)) :
    NodeInv cfg { s with
      gaps := s.gaps.note r
      c := s.c.applyOne r
      pc := .consuming drain false parked rest } := by
  refine ⟨h.shape, fun hd _ => ?_⟩
  have hc := h.core hd (up_of hpc rfl)
  obtain ⟨hA, hW⟩ := hg hd drain parked r rest hpc
  have hk := hc.chunk
  obtain rfl : parked = [] := by
    have hok := hc.pc
    rw [hpc] at hok
    exact hok
  have htodo : patches s.todo = patches (s.files.pending.getD []) ++ r.patch ::
      (patches rest ++ patches s.q.unread) := by
    unfold NodeSt.todo
    rw [hpc]
    simp [NodePc.file, NodePc.hand, patches]
  rw [htodo] at hk
  refine ⟨?_, hc.alone, hc.worker, hc.noBase, (fun e => by cases e), hc.redo,
    rfl⟩
  have htodo' : patches (NodeSt.todo { s with
      gaps := s.gaps.note r, c := s.c.applyOne r, pc := .consuming drain false [] rest })
      = patches (s.files.pending.getD []) ++ (patches rest ++ patches s.q.unread) := by
    unfold NodeSt.todo
    simp [NodePc.file, NodePc.hand, patches]
  rw [htodo']
  refine (hk.take hA hW).mono fun x hx => ⟨hx.1, fun e => hx.2 ?_⟩
  exact e.outside hpc rfl (fun _ e => e) (note_queue s.gaps r) rfl rfl rfl id

theorem NodeInv.consumed {drain park : Bool} {parked : List Item} (h : NodeInv cfg s)
    (hpc : s.pc = .consuming drain park parked []) :
    NodeInv cfg { s with
      files := { s.files with
        pending := if parked = [] then s.files.pending
          else some (s.files.pending.getD [] ++ parked) }
      pc := if drain then .draining else .consumed } := by
  refine ⟨h.shape, fun hd _ => ?_⟩
  refine (h.core hd (up_of hpc rfl)).frame rfl rfl ?_ rfl rfl id (fun e => ?_)
    (by cases drain <;> trivial)
    fun x _ hx => hx.outside hpc rfl (fun _ e => e) id rfl rfl rfl id
  · unfold NodeSt.todo
    dsimp only
    rw [hpc]
    by_cases hp : parked = []
    · rw [if_pos hp, hp]
      cases drain <;> rfl
    · rw [if_neg hp]
      cases drain <;> simp [NodePc.file, NodePc.hand]
  · cases drain <;> cases e

/-- **A seed is adopted**, on what `AdoptOk` says. -/
theorem NodeInv.adopt (h : NodeInv cfg s) (hg : NodeOk cfg s .checkSeed) (hpc : s.pc = .consumed)
    (hreq : s.seedRequired = true) (hseed : s.files.seeded = some s.boot) :
    NodeInv cfg { s with
      gaps := { s.gaps with queue := s.gaps.queue ++ [-1] }
      files := { s.files with baseEnd := some 0 }
      pc := .checked
      seedRequired := false } := by
  refine ⟨h.shape, fun hd _ => ?_⟩
  have hc := h.core hd (up_of hpc rfl)
  have hok := hg hd hpc hreq hseed
  refine ⟨?_, hc.alone, hc.worker, (fun e => by cases e), (fun e => by cases e), hc.redo,
    trivial⟩
  have htodo : NodeSt.todo { s with
      gaps := { s.gaps with queue := s.gaps.queue ++ [-1] }
      files := { s.files with baseEnd := some 0 }
      pc := .checked
      seedRequired := false } = s.todo := todo_of hpc rfl rfl rfl
  rw [htodo]
  refine ⟨hc.chunk.copying, hc.chunk.empty, hc.chunk.flight, hc.chunk.held,
    hc.chunk.stored, fun x hx => ?_⟩
  rcases hok x hx.1 with hbit | hf
  · exact absurd (.bit hbit (List.append_ne_nil_of_right_ne_nil _ (List.cons_ne_nil _ _))) hx.2
  · exact hf

theorem NodeInv.fallBack (h : NodeInv cfg s) (hpc : s.pc = .consumed)
    (hreq : s.seedRequired = true) :
    NodeInv cfg { s.setWorker .base (some ⟨.idle, [(0, cfg.target.size)]⟩) with
      pc := .checked
      seedRequired := false } := by
  refine ⟨h.shape, fun hd _ => ?_⟩
  have hc := h.core hd (up_of hpc rfl)
  have hbase := hc.noBase hreq
  refine hc.same rfl rfl (todo_of hpc rfl rfl rfl) (fun who => ?_) (fun who w e => ?_)
    (fun e => by cases e) (fun e => by cases e) hc.redo trivial fun x hx hdue => ?_
  · cases who with
    | base =>
      rw [hbase]
      rfl
    | recovery => rfl
  · cases who with
    | base =>
      cases e
      trivial
    | recovery => exact hc.worker .recovery w e
  · cases hdue with
    | base h1 h2 =>
      refine .base h1 fun w e => ?_
      cases e
      exact ⟨_, List.mem_singleton_self _, Nat.zero_le x, (Nat.zero_add _).symm ▸ hx⟩
    | recovery w h1 h2 => exact .recovery w h1 h2
    | redo es h1 h2 h3 h4 => exact .redo es h1 h2 h3 h4
    | bit h1 h2 => exact .bit h1 h2
    | clearing w snap h1 h2 => rw [hpc] at h1; cases h1
    | cleared es h1 h2 => rw [hpc] at h1; cases h1

/-- **`start_recovery` begins**: a bit that was due is ahead of the read-and-clear. -/
theorem NodeInv.gap {queue : List Int} (h : NodeInv cfg s) (hpc : s.pc = .checked)
    (hrec : s.worker .recovery = none) :
    NodeInv cfg { s with
      gaps := { s.gaps with queue := queue }, pc := .clearing 0 fun _ => false } := by
  refine ⟨h.shape, fun hd _ => ?_⟩
  refine (h.core hd (up_of hpc rfl)).frame rfl rfl (todo_of hpc rfl rfl rfl) rfl rfl id
    (fun _ => hrec) trivial fun x _ hx => ?_
  cases hx with
  | base h1 h2 => exact .base h1 h2
  | recovery w h1 h2 => exact .recovery w h1 h2
  | redo es h1 h2 h3 h4 => exact .redo es h1 h2 h3 h4
  | bit h1 h2 => exact .clearing 0 _ rfl (Or.inr ⟨h1, Nat.zero_le _⟩)
  | clearing w snap h1 h2 => rw [hpc] at h1; cases h1
  | cleared es h1 h2 => rw [hpc] at h1; cases h1

/-- **The read-and-clear of a word**: a bit it takes is in the snapshot. -/
theorem NodeInv.word {w : Nat} {snap : Nat → Bool} (h : NodeInv cfg s)
    (hpc : s.pc = .clearing w snap) :
    NodeInv cfg { s with
      q := { s.q with t := { s.q.t with
        bitmap := fun c => if c / 64 = w then false else s.q.t.bitmap c } }
      pc := .clearing (w + 1) fun c => if c / 64 = w then s.q.t.bitmap c else snap c } := by
  refine ⟨⟨h.shape.chunk, h.shape.nbits⟩, fun hd _ => ?_⟩
  have hc := h.core hd (up_of hpc rfl)
  refine hc.frame rfl rfl (todo_of hpc rfl rfl rfl) rfl rfl id
    (fun _ => hc.single (by rw [hpc]; rfl)) trivial fun x _ hx => ?_
  cases hx with
  | base h1 h2 => exact .base h1 h2
  | recovery w h1 h2 => exact .recovery w h1 h2
  | redo es h1 h2 h3 h4 => exact .redo es h1 h2 h3 h4
  | bit h1 h2 =>
    by_cases hcw : cfg.target.chunkOf x / 64 = w
    · exact .clearing _ _ rfl (Or.inl ⟨(if_pos hcw).trans h1, by omega⟩)
    · exact .bit ((if_neg hcw).trans h1) h2
  | clearing w' snap' h1 h2 =>
    rw [hpc] at h1
    cases h1
    refine .clearing _ _ rfl ?_
    rcases h2 with ⟨h3, h4⟩ | ⟨h3, h4⟩
    · exact Or.inl ⟨(if_neg (by omega)).trans h3, by omega⟩
    · by_cases hcw : cfg.target.chunkOf x / 64 = w
      · exact Or.inl ⟨(if_pos hcw).trans h3, by omega⟩
      · exact Or.inr ⟨(if_neg hcw).trans h3, by omega⟩
  | cleared es h1 h2 => rw [hpc] at h1; cases h1

/-- **The end of the read-and-clear**: what the snapshot holds is in the extents. -/
theorem NodeInv.cleared {w : Nat} {snap : Nat → Bool} (h : NodeInv cfg s)
    (hpc : s.pc = .clearing w snap) (hw : ¬w < s.q.t.nlongs) :
    NodeInv cfg { s with
      q := { s.q with t := { s.q.t with overflowed := false } }
      pc := .cleared (bitmapExtents snap s.q.t.chunkSectors s.q.t.nbits) } := by
  refine ⟨⟨h.shape.chunk, h.shape.nbits⟩, fun hd _ => ?_⟩
  have hc := h.core hd (up_of hpc rfl)
  refine hc.frame rfl rfl (todo_of hpc rfl rfl rfl) rfl rfl id
    (fun _ => hc.single (by rw [hpc]; rfl)) trivial fun x hlt hx => ?_
  cases hx with
  | base h1 h2 => exact .base h1 h2
  | recovery w h1 h2 => exact .recovery w h1 h2
  | redo es h1 h2 h3 h4 => exact .redo es h1 h2 h3 h4
  | bit h1 h2 => exact .bit h1 h2
  | clearing w' snap' h1 h2 =>
    rw [hpc] at h1
    cases h1
    have hn : cfg.target.chunkOf x < s.q.t.nbits := h.shape.nbits ▸ Config.chunkOf_lt hlt
    rcases h2 with ⟨h3, _⟩ | ⟨_, h4⟩
    · refine .cleared _ rfl (inExtents_of_covered (h.shape.chunk ▸ cfg.target.chunkSectors_pos) ?_)
      have hcov := bitmapExtents_covers s.q.t.chunkSectors hn h3
      unfold Config.chunkOf at hcov
      rw [← h.shape.chunk] at hcov
      exact hcov
    · unfold Target.nlongs at hw
      omega
  | cleared es h1 h2 => rw [hpc] at h1; cases h1

/-- **`recovery.json` is written**: its extents go to the recovery thread. -/
theorem NodeInv.persist {es : List (Nat × Nat)} (h : NodeInv cfg s) (hg : NodeOk cfg s .persist)
    (hpc : s.pc = .cleared es) :
    NodeInv cfg { s.setWorker .recovery (some ⟨.idle, byteExtents es⟩) with
      files := { s.files with recovery := some es }
      pc := .started } := by
  refine ⟨h.shape, fun hd _ => ?_⟩
  have hc := h.core hd (up_of hpc rfl)
  have hrec := hc.single (by rw [hpc]; rfl)
  refine hc.same rfl rfl (todo_of hpc rfl rfl rfl) (fun who => ?_) (fun who w e => ?_) hc.noBase
    (fun e => by cases e) (fun w e => ?_) trivial fun x _ hdue => ?_
  · cases who with
    | base => rfl
    | recovery =>
      rw [hrec]
      rfl
  · cases who with
    | base => exact hc.worker .base w e
    | recovery =>
      cases e
      trivial
  · cases e
    exact ⟨es, rfl, fun x hx => hx⟩
  · cases hdue with
    | base h1 h2 => exact .base h1 h2
    | recovery w h1 h2 => rw [hrec] at h1; cases h1
    | redo es' h1 h2 h3 h4 => rw [hg hd h1] at h3; cases h3
    | bit h1 h2 => exact .bit h1 h2
    | clearing w snap h1 h2 => rw [hpc] at h1; cases h1
    | cleared es' h1 h2 =>
      rw [hpc] at h1
      cases h1
      exact .recovery ⟨.idle, byteExtents es⟩ rfl h2

/-- **`apply_pending`**: the oldest outstanding record goes to the replica, or waits. -/
theorem NodeInv.apply {r : Item} {rest : List Item} (h : NodeInv cfg s) (hg : NodeOk cfg s .apply)
    (hpc : s.pc = .applying (r :: rest)) :
    NodeInv cfg { s with c := s.c.applyOne r, pc := .applying rest } := by
  refine ⟨h.shape, fun hd _ => ?_⟩
  have hc := h.core hd (up_of hpc rfl)
  have hW := hg hd r rest hpc
  have hk := hc.chunk
  have hok := hc.pc
  rw [hpc] at hok
  obtain ⟨done, hdone⟩ := hok
  have htodo : patches s.todo = [] ++ r.patch :: patches (rest ++ [] ++ s.q.unread) := by
    unfold NodeSt.todo
    rw [hpc]
    rfl
  rw [htodo] at hk
  refine ⟨?_, hc.alone, hc.worker, hc.noBase, (fun e => by cases e), hc.redo,
    ⟨done ++ [r], by rw [List.append_assoc]; exact hdone⟩⟩
  refine (hk.take (fun x => clear_nil _ x) hW).mono fun x hx => ⟨hx.1, fun e => hx.2 ?_⟩
  exact e.outside hpc rfl (fun _ e => e) id rfl rfl rfl id

theorem NodeInv.applied (h : NodeInv cfg s) (hpc : s.pc = .applying []) :
    NodeInv cfg { s with files := { s.files with pending := none }, pc := .settled } := by
  refine ⟨h.shape, fun hd _ => ?_⟩
  exact (h.core hd (up_of hpc rfl)).frame rfl rfl (todo_of hpc rfl rfl rfl) rfl rfl id
    (fun e => by cases e) trivial fun x _ hx =>
      hx.outside hpc rfl (fun _ e => e) id rfl rfl rfl id

/-! ## the copy threads -/

theorem chunk_of (who : Who) (h : ∀ v, v ≠ who → pcOf (s.worker v) = .idle) :
    s.chunk = pcOf (s.worker who) := by
  unfold NodeSt.chunk
  cases who with
  | base =>
    split
    · rename_i hi
      rw [ChunkPc.isIdle_iff.mp hi]
      exact h .recovery (by decide)
    · rfl
  | recovery =>
    rw [h .base (by decide)]
    rfl

inductive Worked (cfg : NodeConfig) (s : NodeSt) (who : Who) (m : Nat) (w : Worker) : NodeSt → Prop
  | quit : w.pc = .idle → s.stop = true → Worked cfg s who m w (s.quit who)
  | begin (off rem : Nat) (es : List (Nat × Nat)) : w.pc = .idle → w.left = (off, rem + 1) :: es →
      s.stop = false → Worked cfg s who m w
        { s.setWorker who (some ⟨.flagged off (min (rem + 1) CopyChunk), w.left⟩) with
          c := s.c.flag off (min (rem + 1) CopyChunk) }
  | next (off : Nat) (es : List (Nat × Nat)) : w.pc = .idle → w.left = (off, 0) :: es →
      Worked cfg s who m w (s.setWorker who (some ⟨.idle, es⟩))
  | done : w.pc = .idle → w.left = [] → s.stop = false → Worked cfg s who m w (s.done who)
  | finish (n : Nat) : w.pc = .replaying n [] →
      Worked cfg s who m w (s.setWorker who (some ⟨.idle, advance n w.left⟩))
  | chunk (c : Shared) (pc : ChunkPc) : w.pc.ReadOk cfg.target.size m →
      chunkStep (decide (who = .base)) s.q.dev m s.c w.pc = some (c, pc) →
      Worked cfg s who m w { s.setWorker who (some ⟨pc, w.left⟩) with c := c }

theorem work_cases {who : Who} {m : Nat} (h : workNode cfg s who m = some s') :
    ∃ w, s.worker who = some w ∧ Worked cfg s who m w s' := by
  unfold workNode at h
  split at h
  · exact absurd h (by simp)
  · rename_i w hw
    refine ⟨w, hw, ?_⟩
    split at h
    · rename_i off rem es hpc hleft
      split at h
      · rename_i hstop
        obtain rfl := Option.some.inj h
        exact .quit hpc hstop
      · rename_i hstop
        split at h
        · exact absurd h (by simp)
        · obtain rfl := Option.some.inj h
          exact .begin off rem es hpc hleft (Bool.not_eq_true _ ▸ hstop)
    · rename_i off es hpc hleft
      obtain rfl := Option.some.inj h
      exact .next off es hpc hleft
    · rename_i hpc hleft
      split at h
      · rename_i hstop
        obtain rfl := Option.some.inj h
        exact .quit hpc hstop
      · rename_i hstop
        split at h
        · exact absurd h (by simp)
        · obtain rfl := Option.some.inj h
          exact .done hpc hleft (Bool.not_eq_true _ ▸ hstop)
    · rename_i n hpc
      obtain rfl := Option.some.inj h
      exact .finish n hpc
    · split at h
      · rename_i hok
        obtain ⟨⟨c, pc⟩, hst, rfl⟩ := Option.map_eq_some_iff.mp h
        exact .chunk c pc hok hst
      · exact absurd h (by simp)

theorem NodeSt.Due.rework {who : Who} {w : Worker} (w' : Worker) (c' : Shared) {x : Nat} {P : Prop}
    (hw : s.worker who = some w) (hrest : InExtents w.rest x → InExtents w'.rest x ∨ P)
    (h : s.Due cfg x) :
    NodeSt.Due cfg { s.setWorker who (some w') with c := c' } x ∨ P := by
  cases h with
  | base h1 h2 =>
    cases who with
    | base =>
      refine (hrest (h2 w hw)).imp_left fun e => .base h1 fun v hv => ?_
      cases hv
      exact e
    | recovery => exact Or.inl (.base h1 h2)
  | recovery v h1 h2 =>
    cases who with
    | base => exact Or.inl (.recovery v h1 h2)
    | recovery =>
      rw [hw] at h1
      cases h1
      exact (hrest h2).imp_left fun e => .recovery w' rfl e
  | redo es h1 h2 h3 h4 =>
    cases who with
    | base => exact Or.inl (.redo es h1 h2 h3 h4)
    | recovery => rw [hw] at h2; cases h2
  | bit h1 h2 => exact Or.inl (.bit h1 h2)
  | clearing v snap h1 h2 => exact Or.inl (.clearing v snap h1 h2)
  | cleared es h1 h2 => exact Or.inl (.cleared es h1 h2)

theorem Core.rework (h : Core cfg s) {who : Who} {w : Worker} (w' : Worker) (c' : Shared)
    (hw : s.worker who = some w) (hothers : ∀ v, v ≠ who → pcOf (s.worker v) = .idle)
    (hok : w'.Ok cfg.target.size) (hrest : ∀ x, InExtents w'.rest x → InExtents w.rest x)
    (hchunk : ChunkInv s.q.dev c' w'.pc (patches s.todo)
      (NodeSt.Copied cfg { s.setWorker who (some w') with c := c' })) :
    Core cfg { s.setWorker who (some w') with c := c' } := by
  have hself : (s.setWorker who (some w')).worker who = some w' := Function.update_self _ _ _
  have hother : ∀ v, v ≠ who → (s.setWorker who (some w')).worker v = s.worker v :=
    fun v hv => Function.update_of_ne hv _ _
  refine ⟨?_, fun u e v hv => ?_, fun u v e => ?_, fun e => ?_, fun e => ?_, fun v e => ?_,
    h.pc⟩
  · have hch : NodeSt.chunk { s.setWorker who (some w') with c := c' } = w'.pc := by
      have := chunk_of who (s:={ s.setWorker who (some w') with c := c' }) fun v hv => by
        show pcOf ((s.setWorker who (some w')).worker v) = _
        rw [hother v hv]
        exact hothers v hv
      rw [this]
      exact congrArg pcOf hself
    rw [hch]
    exact hchunk
  · change pcOf ((s.setWorker who (some w')).worker u) ≠ .idle at e
    show pcOf ((s.setWorker who (some w')).worker v) = .idle
    by_cases hu : u = who
    · rw [hother v (hu ▸ hv)]
      exact hothers v (hu ▸ hv)
    · rw [hother u hu] at e
      exact absurd (hothers u hu) e
  · change (s.setWorker who (some w')).worker u = some v at e
    by_cases hu : u = who
    · rw [hu, hself] at e
      cases e
      exact hok
    · rw [hother u hu] at e
      exact h.worker u v e
  · show (s.setWorker who (some w')).worker .base = none
    have hb := h.noBase e
    rw [hother .base ?_]
    · exact hb
    · rintro rfl
      rw [hw] at hb
      cases hb
  · show (s.setWorker who (some w')).worker .recovery = none
    have hr := h.single e
    rw [hother .recovery ?_]
    · exact hr
    · rintro rfl
      rw [hw] at hr
      cases hr
  · change (s.setWorker who (some w')).worker .recovery = some v at e
    by_cases hu : who = .recovery
    · subst hu
      rw [hself] at e
      cases e
      obtain ⟨es, h1, h2⟩ := h.redo w hw
      exact ⟨es, h1, fun x hx => h2 x (hrest x hx)⟩
    · rw [hother .recovery (Ne.symm hu)] at e
      exact h.redo v e

theorem inExtents_of_advance {n x : Nat} {l : List (Nat × Nat)} (h : InExtents (advance n l) x) :
    InExtents l x := by
  cases l with
  | nil => exact h
  | cons e es =>
    obtain ⟨off, rem⟩ := e
    change InExtents (if n = 0 then es else (off + n, rem - n) :: es) x at h
    split at h
    · obtain ⟨e, he, hx⟩ := h
      exact ⟨e, List.mem_cons_of_mem _ he, hx⟩
    · obtain ⟨e, he, h1, h2⟩ := h
      rcases List.mem_cons.mp he with rfl | he
      · refine ⟨_, List.mem_cons_self, ?_, ?_⟩
        · show off ≤ x
          change off + n ≤ x at h1
          omega
        · show x < off + rem
          change off + n ≤ x at h1
          change x < off + n + (rem - n) at h2
          omega
      · exact ⟨e, List.mem_cons_of_mem _ he, h1, h2⟩

/-- a thread takes a step of `copy_chunk`: what it leaves behind is the chunk that has landed -/
theorem chunk_rest {skip : Bool} {m : Nat} {w : Worker} {c : Shared} {pc : ChunkPc}
    (hok : w.Ok cfg.target.size) (hread : w.pc.ReadOk cfg.target.size m)
    (hs : chunkStep skip s.q.dev m s.c w.pc = some (c, pc)) :
    Worker.Ok cfg.target.size ⟨pc, w.left⟩ ∧
      (∀ x, InExtents (Worker.rest ⟨pc, w.left⟩) x → InExtents w.rest x) ∧
      ∀ x, x < cfg.target.size → InExtents w.rest x →
        InExtents (Worker.rest ⟨pc, w.left⟩) x ∨ w.pc.landed x := by
  obtain ⟨p, left⟩ := w
  cases p with
  | idle => exact absurd hs (by simp [chunkStep])
  | flagged off n =>
    change (if m ≤ n then _ else none) = _ at hs
    split at hs
    · obtain ⟨rfl, rfl⟩ := Prod.mk.inj (Option.some.inj hs)
      refine ⟨⟨hok, ?_⟩, fun x hx => hx, fun x _ hx => Or.inl hx⟩
      rw [length_slice]
      exact hread
    · exact absurd hs (by simp)
  | holding off n buf =>
    obtain ⟨rfl, rfl⟩ := Prod.mk.inj (Option.some.inj hs)
    exact ⟨hok, fun x hx => hx, fun x _ hx => Or.inl hx⟩
  | stored off n k =>
    obtain ⟨rfl, rfl⟩ := Prod.mk.inj (Option.some.inj hs)
    obtain ⟨⟨rem, es, hleft, rfl⟩, hr⟩ := hok
    refine ⟨trivial, fun x hx => inExtents_of_advance hx, fun x hlt hx => ?_⟩
    change InExtents left x at hx
    change left = _ at hleft
    rw [hleft] at hx
    show InExtents (advance k left) x ∨ _
    rw [hleft]
    rcases advance_covers hr hlt hx with h1 | h1
    · exact Or.inr ⟨off, _, k, rfl, h1⟩
    · exact Or.inl h1
  | replaying k late =>
    cases late with
    | nil => exact absurd hs (by simp [chunkStep])
    | cons r late =>
      obtain ⟨rfl, rfl⟩ := Prod.mk.inj (Option.some.inj hs)
      exact ⟨trivial, fun x hx => hx, fun x _ hx => Or.inl hx⟩

theorem Core.rest (h : Core cfg s) {who : Who} {w : Worker} (w' : Option Worker) (files : Files)
    (progress : Bool) (hw : s.worker who = some w) (hpc : w.pc = .idle) (hpc' : pcOf w' = .idle)
    (hpend : files.pending = s.files.pending)
    (hother : who ≠ .recovery → files.recovery = s.files.recovery)
    (hredo : who = .recovery → ∀ v, w' = some v → ∃ es, files.recovery = some es ∧
      ∀ x, InExtents v.rest x → InExtents (byteExtents es) x)
    (hdue : ∀ x, x < cfg.target.size → s.Due cfg x → NodeSt.Due cfg
      { s.setWorker who w' with files := files, baseProgress := progress } x) :
    Core cfg { s.setWorker who w' with files := files, baseProgress := progress } := by
  have hself : (s.setWorker who w').worker who = w' := Function.update_self _ _ _
  have hne : ∀ v, v ≠ who → (s.setWorker who w').worker v = s.worker v :=
    fun v hv => Function.update_of_ne hv _ _
  refine h.same rfl rfl ?_ (fun v => ?_) (fun v u e => ?_) (fun e => ?_) (fun e => ?_)
    (fun v e => ?_) (by show s.pc.Ok files.pending; rw [hpend]; exact h.pc) hdue
  · unfold NodeSt.todo
    show s.pc.file files.pending ++ _ ++ _ = _
    rw [hpend]
    rfl
  · show pcOf ((s.setWorker who w').worker v) = _
    by_cases hv : v = who
    · rw [hv, hself, hpc', hw]
      exact hpc.symm
    · rw [hne v hv]
  · change (s.setWorker who w').worker v = some u at e
    by_cases hv : v = who
    · rw [hv, hself] at e
      rw [e] at hpc'
      unfold Worker.Ok
      rw [show u.pc = .idle from hpc']
      trivial
    · rw [hne v hv] at e
      exact h.worker v u e
  · show (s.setWorker who w').worker .base = none
    have hb := h.noBase e
    rw [hne .base ?_]
    · exact hb
    · rintro rfl
      rw [hw] at hb
      cases hb
  · show (s.setWorker who w').worker .recovery = none
    have hr := h.single e
    rw [hne .recovery ?_]
    · exact hr
    · rintro rfl
      rw [hw] at hr
      cases hr
  · change (s.setWorker who w').worker .recovery = some v at e
    by_cases hv : who = .recovery
    · subst hv
      rw [hself] at e
      exact hredo rfl v e
    · rw [hne .recovery (Ne.symm hv)] at e
      show ∃ es, files.recovery = some es ∧ _
      rw [hother hv]
      exact h.redo v e

/-- `stop` interrupts a thread: what it leaves is due again after the next start -/
theorem Core.quit (h : Core cfg s) {who : Who} {w : Worker} (hw : s.worker who = some w)
    (hpc : w.pc = .idle) (hstop : s.stop = true) : Core cfg (s.quit who) := by
  cases who with
  | base =>
    refine h.rest none s.files false hw hpc rfl rfl (fun _ => rfl)
      (fun e => by cases e) fun x _ hdue => ?_
    cases hdue with
    | base h1 h2 => exact .base h1 fun v e => by cases e
    | recovery v h1 h2 => exact .recovery v h1 h2
    | redo es h1 h2 h3 h4 => exact .redo es h1 h2 h3 h4
    | bit h1 h2 => exact .bit h1 h2
    | clearing v snap h1 h2 => exact .clearing v snap h1 h2
    | cleared es h1 h2 => exact .cleared es h1 h2
  | recovery =>
    refine h.rest none s.files s.baseProgress hw hpc rfl rfl (fun _ => rfl)
      (fun _ v e => by cases e) fun x _ hdue => ?_
    cases hdue with
    | base h1 h2 => exact .base h1 h2
    | recovery v h1 h2 =>
      obtain ⟨es, h3, h4⟩ := h.redo v h1
      exact .redo es hstop rfl h3 (h4 x h2)
    | redo es h1 h2 h3 h4 => exact .redo es h1 rfl h3 h4
    | bit h1 h2 => exact .bit h1 h2
    | clearing v snap h1 h2 => exact .clearing v snap h1 h2
    | cleared es h1 h2 => exact .cleared es h1 h2

theorem Core.done (h : Core cfg s) {who : Who} {w : Worker} (hw : s.worker who = some w)
    (hpc : w.pc = .idle) (hleft : w.left = []) : Core cfg (s.done who) := by
  have hnone : ∀ x, ¬InExtents w.rest x := by
    rintro x ⟨e, he, _⟩
    unfold Worker.rest at he
    rw [hpc, hleft] at he
    exact absurd he List.not_mem_nil
  cases who with
  | base =>
    refine h.rest none { s.files with baseEnd := some s.q.t.seqNext } false hw hpc
      rfl rfl (fun _ => rfl) (fun e => by cases e) fun x _ hdue => ?_
    cases hdue with
    | base h1 h2 => exact absurd (h2 w hw) (hnone x)
    | recovery v h1 h2 => exact .recovery v h1 h2
    | redo es h1 h2 h3 h4 => exact .redo es h1 h2 h3 h4
    | bit h1 h2 => exact .bit h1 h2
    | clearing v snap h1 h2 => exact .clearing v snap h1 h2
    | cleared es h1 h2 => exact .cleared es h1 h2
  | recovery =>
    refine h.rest none { s.files with recovery := none } s.baseProgress hw hpc
      rfl rfl (fun e => absurd rfl e) (fun _ v e => by cases e) fun x _ hdue => ?_
    cases hdue with
    | base h1 h2 => exact .base h1 h2
    | recovery v h1 h2 =>
      rw [hw] at h1
      cases h1
      exact absurd h2 (hnone x)
    | redo es h1 h2 h3 h4 => rw [hw] at h2; cases h2
    | bit h1 h2 => exact .bit h1 h2
    | clearing v snap h1 h2 => exact .clearing v snap h1 h2
    | cleared es h1 h2 => exact .cleared es h1 h2

theorem NodeInv.work {who : Who} {m : Nat} (h : NodeInv cfg s) (hg : NodeOk cfg s (.work who m))
    (hup : s.pc ≠ .down) (hs : workNode cfg s who m = some s') : NodeInv cfg s' := by
  obtain ⟨w, hw, hcase⟩ := work_cases hs
  have hpcw : pcOf (s.worker who) = w.pc := congrArg pcOf hw
  cases hcase with
  | quit hpc hstop =>
    refine ⟨?_, fun hd _ => ?_⟩
    · cases who <;> exact h.shape
    · have hd' : s.dropped = false := by cases who <;> exact hd
      exact (h.core hd' hup).quit hw hpc hstop
  | begin off rem es hpc hleft hstop =>
    refine ⟨h.shape, fun hd _ => ?_⟩
    have hc := h.core hd hup
    obtain ⟨hothers, hnew⟩ := (hg hd w hw).1 off rem es hpc hleft hstop
    have hk := hc.chunk
    rw [chunk_of who hothers, hpcw, hpc] at hk
    have hrest : Worker.rest ⟨.flagged off (min (rem + 1) CopyChunk), w.left⟩ = w.rest := by
      unfold Worker.rest
      rw [hpc]
    refine hc.rework _ _ hw hothers ⟨rem + 1, es, hleft, rfl⟩ (fun x hx => hrest ▸ hx)
      ((hk.flag off _ hnew).mono fun x hx => ⟨hx.1, fun e => hx.2 ?_⟩)
    exact (e.rework _ _ (P:=False) hw fun hx => Or.inl (hrest ▸ hx)).resolve_right id
  | next off es hpc hleft =>
    refine ⟨h.shape, fun hd _ => ?_⟩
    have hc := h.core hd hup
    have hsub : ∀ x, InExtents w.rest x ↔ InExtents es x := by
      intro x
      unfold Worker.rest
      rw [hpc, hleft]
      constructor
      · rintro ⟨e, he, h1, h2⟩
        rcases List.mem_cons.mp he with rfl | he
        · exact absurd (lt_of_le_of_lt h1 h2) (by simp)
        · exact ⟨e, he, h1, h2⟩
      · rintro ⟨e, he, hx⟩
        exact ⟨e, List.mem_cons_of_mem _ he, hx⟩
    refine hc.rest (some ⟨.idle, es⟩) s.files s.baseProgress hw hpc rfl
      rfl (fun _ => rfl) (fun hr v e => ?_) fun x _ hdue => ?_
    · subst hr
      cases e
      obtain ⟨es', h1, h2⟩ := hc.redo w hw
      exact ⟨es', h1, fun x hx => h2 x ((hsub x).mpr hx)⟩
    · exact (hdue.rework ⟨.idle, es⟩ s.c (P:=False) hw
        fun hx => Or.inl ((hsub x).mp hx)).resolve_right id
  | done hpc hleft hstop =>
    refine ⟨?_, fun hd _ => ?_⟩
    · cases who <;> exact h.shape
    · have hd' : s.dropped = false := by cases who <;> exact hd
      exact (h.core hd' hup).done hw hpc hleft
  | finish n hpc =>
    refine ⟨h.shape, fun hd _ => ?_⟩
    have hc := h.core hd hup
    have hothers := hc.alone who (by rw [hpcw, hpc]; exact fun e => by cases e)
    have hk := hc.chunk
    rw [chunk_of who hothers, hpcw, hpc] at hk
    have hrest : Worker.rest ⟨.idle, advance n w.left⟩ = w.rest := by
      unfold Worker.rest
      rw [hpc]
    refine hc.rework ⟨.idle, advance n w.left⟩ s.c hw hothers trivial
      (fun x hx => hrest ▸ hx) (hk.finish.mono fun x hx => ⟨hx.1, fun e => hx.2 ?_⟩)
    exact (e.rework _ _ (P:=False) hw fun hx => Or.inl (hrest ▸ hx)).resolve_right id
  | chunk c pc hread hst =>
    refine ⟨h.shape, fun hd _ => ?_⟩
    have hc := h.core hd hup
    have hothers := hc.alone who (by
      rw [hpcw]
      intro e
      rw [e] at hst
      exact absurd hst (by simp [chunkStep]))
    have hk := hc.chunk
    rw [chunk_of who hothers, hpcw] at hk
    obtain ⟨hok, hrest, hland⟩ := chunk_rest (hc.worker who w hw) hread hst
    refine hc.rework _ _ hw hothers hok hrest
      ((hk.chunk hst (hg hd w hw).2).mono fun x hx => ?_)
    by_cases hl : w.pc.landed x
    · exact Or.inr hl
    · refine Or.inl ⟨hx.1, fun e => hx.2 ?_⟩
      exact (e.rework _ _ hw fun hi => hland x hx.1 hi).resolve_right hl

/-! ## the run -/

theorem NodeInv.keep (h : NodeInv cfg s) (hq : s'.q = s.q) (hdrop : s'.dropped = s.dropped)
    (hc : s'.c = s.c) (hpc : s'.pc = s.pc) (hw : s'.worker = s.worker) (hg : s'.gaps = s.gaps)
    (hf : s'.files.baseEnd = s.files.baseEnd ∧ s'.files.recovery = s.files.recovery ∧
      s'.files.pending = s.files.pending)
    (hs : s'.seedRequired = s.seedRequired) (hst : s.stop = true → s'.stop = true) :
    NodeInv cfg s' := by
  obtain ⟨hb, hr, hp⟩ := hf
  refine ⟨hq ▸ h.shape, fun hd hu => ?_⟩
  have hcore := h.core (hdrop ▸ hd) (hpc ▸ hu)
  refine hcore.frame hc (by rw [hq]) ?_ hw hr (fun e => hs ▸ e) (fun e => hcore.single (hpc ▸ e))
    ?_ fun x _ hx => ?_
  · exact todo_of rfl (by rw [hpc]) (by rw [hpc, hp]) (by rw [hq])
  · rw [hpc, hp]
    exact hcore.pc
  · exact hx.mono (by rw [hq]; exact fun _ e => e) (by rw [hg]; exact id) (fun _ => hpc) hw hb hr hst

theorem NodeInv.step {a : NodeAct} (h : NodeInv cfg s) (hg : NodeOk cfg s a)
    (hs : nstep cfg s a = some s') : NodeInv cfg s' := by
  cases step_cases hs with
  | bio b ts hok =>
    obtain ⟨hm, hw⟩ := Feed.write_cases ts h.shape hok
    exact h.wrote hm hw
  | lock on => exact h.keep rfl rfl rfl rfl rfl rfl ⟨rfl, rfl, rfl⟩ rfl id
  | seedData img hb hw => exact h.seedData hg hb hw
  | seedMark => exact h.keep rfl rfl rfl rfl rfl rfl ⟨rfl, rfl, rfl⟩ rfl id
  | start _ _ hst => exact h.start hg hst
  | crash _ => exact ⟨h.shape, fun _ e => absurd rfl e⟩
  | stop _ => exact h.keep rfl rfl rfl rfl rfl rfl ⟨rfl, rfl, rfl⟩ rfl fun _ => rfl
  | read k hpc _ => exact h.read hpc rfl rfl rfl rfl (Or.inl rfl)
  | drain k hpc => exact h.read hpc rfl rfl rfl rfl (Or.inr rfl)
  | test drain batch hpc =>
    refine h.main hpc rfl rfl rfl rfl rfl ?_
    cases s.files.lock <;> trivial
  | park drain parked r rest hpc => exact h.park hpc
  | pass drain parked r rest hpc => exact h.pass hg hpc
  | consumed drain park parked hpc => exact h.consumed hpc
  | adopt hpc hreq hseed => exact h.adopt hg hpc hreq hseed
  | fallBack b hpc hreq _ _ => exact h.fallBack hpc hreq
  | noSeed hpc => exact h.main hpc rfl rfl rfl rfl rfl trivial
  | gap g queue hpc _ hrec _ => exact h.gap hpc hrec
  | noGap hpc => exact h.main hpc rfl rfl rfl rfl rfl trivial
  | word w snap hpc _ => exact h.word hpc
  | cleared w snap hpc hw => exact h.cleared hpc hw
  | persist es hpc => exact h.persist hg hpc
  | unpark l hpc _ hpend =>
    refine h.main hpc rfl rfl rfl rfl ?_ ⟨[], hpend⟩
    rw [hpend]
    rfl
  | noPending hpc => exact h.main hpc rfl rfl rfl rfl rfl trivial
  | apply r rest hpc => exact h.apply hg hpc
  | applied hpc => exact h.applied hpc
  | freeze mark hpc _ _ _ _ => exact h.main hpc rfl rfl rfl rfl rfl trivial
  | finish mark hpc => exact h.main hpc rfl rfl rfl rfl rfl trivial
  | enter w _ _ => exact h.keep rfl rfl rfl rfl rfl rfl ⟨rfl, rfl, rfl⟩ rfl id
  | work who m _ hup hw => exact h.work hg hup hw

end

/-- up and not stopping, `base_end_seq` set, the ring drained, no record in hand or parked, no
recovery queued, about to start or running, no base copy -/
structure Settled (s : NodeSt) : Prop where
  up : s.pc ≠ .down
  going : s.stop = false
  base : s.files.baseEnd ≠ none
  drained : s.q.live = []
  hand : s.pc.hand = []
  parked : s.files.pending = none
  queue : s.gaps.queue = []
  clearing : s.pc.isClearing = false
  idle : ∀ who, s.worker who = none

/-- in a settled state of a boot without drops the replica is the disk -/
def InSync (cfg : NodeConfig) (s : NodeSt) : Prop :=
  s.dropped = false → Settled s → ∀ x, x < cfg.target.size → s.c.img x = s.q.dev x

theorem NodeInv.inSync {cfg : NodeConfig} {s : NodeSt} (h : NodeInv cfg s) : InSync cfg s := by
  intro hd hset x hx
  have hc := h.core hd hset.up
  have hch : s.chunk = .idle := chunk_idle fun who => by rw [hset.idle who]; rfl
  have hcop : s.Copied cfg x := by
    refine ⟨hx, fun hdue => ?_⟩
    cases hdue with
    | base h1 _ => exact hset.base h1
    | recovery w h1 _ => rw [hset.idle] at h1; cases h1
    | redo es h1 _ _ _ => rw [hset.going] at h1; cases h1
    | bit _ h2 => exact h2 hset.queue
    | clearing w snap h1 _ => have := hset.clearing; rw [h1] at this; cases this
    | cleared es h1 _ => have := hset.clearing; rw [h1] at this; cases this
  have hf := hc.chunk.kept x hcop
  have hdef := hc.chunk.empty
  rw [hch] at hdef hf
  have hfile : s.pc.file none = [] := by
    unfold NodePc.file
    split
    · rename_i rest e
      have hok := hc.pc
      rw [e, hset.parked] at hok
      obtain ⟨done, hd⟩ := hok
      cases hd
    · rfl
  have htodo : s.todo = [] := by
    unfold NodeSt.todo Feed.unread
    rw [hset.parked, hfile, hset.hand, hset.drained]
    rfl
  have hwait : waiting s.c .idle = [] := by
    unfold waiting
    rw [hdef rfl]
    rfl
  rw [htodo, hwait] at hf
  exact fresh_nil.mp hf

/-! ## base copies and `base_end_seq` -/

/-- a base copy runs only while there is no `base_end_seq` -/
structure Based (n : NodeSt) : Prop where
  base : n.worker .base ≠ none → n.files.baseEnd = none
  seed : n.seedRequired = true → n.files.baseEnd = none ∧ n.worker .base = none

section
variable {cfg : NodeConfig} {n n' : NodeSt}

theorem setWorker_none {who v : Who} (h : n.worker v = none) :
    (n.setWorker who none).worker v = none := by
  show Function.update n.worker who none v = none
  by_cases hv : v = who
  · rw [hv, Function.update_self]
  · rw [Function.update_of_ne hv]
    exact h

structure Apart (n n' : NodeSt) : Prop where
  q : n'.q = n.q
  pc : n'.pc = n.pc
  gaps : n'.gaps = n.gaps
  pending : n'.files.pending = n.files.pending
  seedRequired : n'.seedRequired = n.seedRequired
  base : n'.worker .base ≠ none → n.worker .base ≠ none ∧ n'.files.baseEnd = n.files.baseEnd
  noBase : n.worker .base = none → n'.worker .base = none ∧ n'.files.baseEnd = n.files.baseEnd

theorem apart_of_work {who : Who} {m : Nat} (hs : workNode cfg n who m = some n') : Apart n n' := by
  obtain ⟨w, hw, hwk⟩ := work_cases hs
  have hset : ∀ o : Option Worker, (Function.update n.worker who o .base ≠ none →
      n.worker .base ≠ none) ∧
      (n.worker .base = none → Function.update n.worker who o .base = none) := by
    intro o
    cases who with
    | base =>
      rw [hw]
      exact ⟨fun _ e => by (cases e), fun e => by (cases e)⟩
    | recovery => exact ⟨id, id⟩
  cases hwk with
  | quit hpc hstop =>
    cases who with
    | base =>
      exact ⟨rfl, rfl, rfl, rfl, rfl, fun e => ⟨(hset none).1 e, rfl⟩,
        fun e => ⟨(hset none).2 e, rfl⟩⟩
    | recovery => exact ⟨rfl, rfl, rfl, rfl, rfl, fun e => ⟨e, rfl⟩, fun e => ⟨e, rfl⟩⟩
  | done hpc hleft hstop =>
    cases who with
    | base =>
      refine ⟨rfl, rfl, rfl, rfl, rfl, fun e => absurd rfl e, fun e => ?_⟩
      rw [hw] at e
      cases e
    | recovery => exact ⟨rfl, rfl, rfl, rfl, rfl, fun e => ⟨e, rfl⟩, fun e => ⟨e, rfl⟩⟩
  | begin off rem es hpc hleft hstop =>
    exact ⟨rfl, rfl, rfl, rfl, rfl, fun e => ⟨(hset _).1 e, rfl⟩, fun e => ⟨(hset _).2 e, rfl⟩⟩
  | next off es hpc hleft =>
    exact ⟨rfl, rfl, rfl, rfl, rfl, fun e => ⟨(hset _).1 e, rfl⟩, fun e => ⟨(hset _).2 e, rfl⟩⟩
  | finish k hpc =>
    exact ⟨rfl, rfl, rfl, rfl, rfl, fun e => ⟨(hset _).1 e, rfl⟩, fun e => ⟨(hset _).2 e, rfl⟩⟩
  | chunk c pc hok hst =>
    exact ⟨rfl, rfl, rfl, rfl, rfl, fun e => ⟨(hset _).1 e, rfl⟩, fun e => ⟨(hset _).2 e, rfl⟩⟩

theorem Based.frame (h : Based n) (hw : n'.worker .base = n.worker .base)
    (hb : n'.files.baseEnd = n.files.baseEnd) (hs : n'.seedRequired = n.seedRequired) : Based n' := by
  refine ⟨fun e => ?_, fun e => ?_⟩
  · rw [hb]
    exact h.base (hw ▸ e)
  · rw [hb, hw]
    exact h.seed (hs ▸ e)

theorem Based.crash (h : Based n) : Based n.crash :=
  ⟨fun e => absurd rfl e, fun e => ⟨(h.seed e).1, rfl⟩⟩

theorem Based.die {who : Who} (h : Based n) : Based (n.setWorker who none) :=
  ⟨fun e => h.base fun e' => e (setWorker_none e'),
    fun e => ⟨(h.seed e).1, setWorker_none (h.seed e).2⟩⟩

theorem Based.step {a : NodeAct} (h : Based n) (hs : nstep cfg n a = some n') : Based n' := by
  cases step_cases hs with
  | start _ _ hst =>
    unfold startNode at hst
    split at hst
    · obtain rfl := Option.some.inj hst
      refine ⟨fun e => ?_, fun e => ⟨?_, if_neg fun hc => ?_⟩⟩
      · by_contra hb
        exact e (if_neg fun hc => hb hc.1)
      · exact Option.isNone_iff_eq_none.mp (Bool.and_eq_true_iff.mp e).2
      · exact absurd (e.symm.trans hc.2) (by decide)
    · cases hst
  | crash _ => exact h.crash
  | adopt _ hreq _ =>
    have hw := (h.seed hreq).2
    exact ⟨fun e => absurd hw e, fun e => by cases e⟩
  | fallBack b _ hreq _ _ =>
    have hb := (h.seed hreq).1
    exact ⟨fun _ => hb, fun e => by cases e⟩
  | noSeed _ => exact h.frame rfl rfl rfl
  | persist es _ => exact h.frame rfl rfl rfl
  | work who m _ _ hw =>
    have ha := apart_of_work hw
    refine ⟨fun e => ?_, fun e => ?_⟩
    · obtain ⟨h1, h2⟩ := ha.base e
      exact h2.trans (h.base h1)
    · obtain ⟨h1, h2⟩ := h.seed (ha.seedRequired ▸ e)
      obtain ⟨h3, h4⟩ := ha.noBase h2
      exact ⟨h4.trans h1, h3⟩
  | _ => exact h.frame rfl rfl rfl

end

end CDP
