import DmCdp.Daemon.Crash

/-!
# Bits that a read-and-clear has taken

The node with copy threads that may also die on an I/O error.  A chunk is owed from the moment its
bit is taken until a recovery that has re-read all of it has done its `fsync`.

* `DebtSt.owed`    the chunks owed;
* `DebtsListed`    all of them are in `recovery.json`; `DebtsHeld` also allows for the ones that
                   `start_recovery` has in memory and is about to write;
* `debts_listed`   a run keeps `DebtsListed` throughout exactly if its steps meet `DebtOk`, and
                   `DebtsHeld` exactly if they meet `HeldOk`;
* `debt_forgotten` a crash between the `ioctl` and `write_json`.
-/

set_option linter.unusedVariables false

namespace CDP
open Img Mach

/-! ## the machine -/

structure DebtSt where
  n : NodeSt
  -- ghost: the chunks owed, and the bytes that the recovery under way has copied
  owed : Nat → Bool
  seen : Nat → Bool

def DebtSt.init (cfg : NodeConfig) (dev img : Nat → UInt8) : DebtSt :=
  ⟨.init cfg dev img, fun _ => false, fun _ => false⟩

/-- the next step of `recover` is its `fsync`, with the `unlink`.  A crash between the two leaves
what one before both leaves, and less is owed. -/
def DebtSt.ends (s : DebtSt) : Bool :=
  match s.n.worker .recovery with
  | some ⟨.idle, []⟩ => !s.n.stop
  | _ => false

/-- the recovery under way has copied all of chunk `c` -/
def DebtSt.reread (cfg : NodeConfig) (s : DebtSt) (c : Nat) : Bool :=
  decide (∀ x, x < cfg.target.size → cfg.target.chunkOf x = c → s.seen x = true)

def DebtSt.owedAfter (cfg : NodeConfig) (s : DebtSt) : NodeAct → Nat → Bool
  | .clear =>
    match s.n.pc with
    | .clearing w _ =>
      if w < s.n.q.t.nlongs then fun c =>
        s.owed c || decide (c / 64 = w ∧ c < s.n.q.t.nbits) && s.n.q.t.bitmap c
      else s.owed
    | _ => s.owed
  | .work .recovery _ => if s.ends then fun c => s.owed c && !s.reread cfg c else s.owed
  | _ => s.owed

def DebtSt.seenAfter (s : DebtSt) : NodeAct → Nat → Bool
  | .start => fun _ => false
  | .persist => fun _ => false
  | .work .recovery _ =>
    match s.n.worker .recovery with
    | some ⟨.stored off _ m, _⟩ => fun x => s.seen x || decide (off ≤ x ∧ x < off + m)
    | _ => s.seen
  | _ => s.seen

inductive DebtAct where
  | node (a : NodeAct)
  -- an exception ends a copy thread, wherever it is
  | die (who : Who)

def debtStep (cfg : NodeConfig) (s : DebtSt) : DebtAct → Option DebtSt
  | .node a => (nstep cfg s.n a).map fun n => ⟨n, s.owedAfter cfg a, s.seenAfter a⟩
  | .die who => some { s with n := s.n.setWorker who none }

/-! ## the property and the condition -/

/-- chunk `c` is in the extents of `recovery.json` -/
def NodeSt.Listed (cfg : NodeConfig) (s : NodeSt) (c : Nat) : Prop :=
  ∃ es, s.files.recovery = some es ∧ Covered cfg.target.chunkSectors es c

/-- every chunk owed is in `recovery.json` on disk -/
def DebtsListed (cfg : NodeConfig) (s : DebtSt) : Prop := ∀ c, s.owed c = true → s.n.Listed cfg c

/-- no bit is taken whose chunk is not listed already, and `write_json` overwrites no chunk that is
still owed -/
def DebtOk (cfg : NodeConfig) (s : DebtSt) : DebtAct → Prop
  | .node .clear => ∀ w snap, s.n.pc = .clearing w snap → w < s.n.q.t.nlongs → ∀ c, c / 64 = w →
      c < s.n.q.t.nbits → s.n.q.t.bitmap c = true → s.n.Listed cfg c
  | .node .persist => ∀ es, s.n.pc = .cleared es → ∀ c, s.owed c = true →
      Covered cfg.target.chunkSectors es c
  | _ => True

/-- `start_recovery` has chunk `c` in memory -/
def NodeSt.Held (cfg : NodeConfig) (s : NodeSt) (c : Nat) : Prop :=
  (∃ w snap, s.pc = .clearing w snap ∧ snap c = true ∧ c / 64 < w ∧ c < cfg.target.nbits) ∨
    ∃ es, s.pc = .cleared es ∧ Covered cfg.target.chunkSectors es c

/-- every chunk owed is in `recovery.json`, or about to be written there -/
def DebtsHeld (cfg : NodeConfig) (s : DebtSt) : Prop :=
  ∀ c, s.owed c = true → s.n.Listed cfg c ∨ s.n.Held cfg c

/-- no crash between the `ioctl` and `write_json`, and no chunk overwritten that is still owed -/
def HeldOk (cfg : NodeConfig) (s : DebtSt) : DebtAct → Prop
  | .node .crash => DebtsListed cfg s
  | .node .persist => ∀ es, s.n.pc = .cleared es → ∀ c, s.owed c = true →
      Covered cfg.target.chunkSectors es c
  | _ => True

/-! ## what every step keeps -/

structure DebtInv (cfg : NodeConfig) (s : DebtSt) : Prop where
  shape : s.n.q.Shape cfg.target
  -- no recovery runs while the next one starts
  single : s.n.pc.isClearing = true → s.n.worker .recovery = none
  -- what is in `recovery.json` the recovery under way has copied, or has still to copy
  rest : ∀ w, s.n.worker .recovery = some w → w.Ok cfg.target.size ∧ ∃ es,
    s.n.files.recovery = some es ∧ ∀ x, x < cfg.target.size → InExtents (byteExtents es) x →
      s.seen x = true ∨ InExtents w.rest x

theorem DebtInv.init (cfg : NodeConfig) (dev img : Nat → UInt8) :
    DebtInv cfg (DebtSt.init cfg dev img) := by
  refine ⟨⟨rfl, rfl⟩, fun h => ?_, fun w h => ?_⟩ <;> cases h

/-- a step that leaves `recovery.json`, the recovery and `start_recovery` alone -/
structure Aside (cfg : NodeConfig) (n n' : NodeSt) : Prop where
  shape : n'.q.Shape cfg.target
  file : n'.files.recovery = n.files.recovery
  worker : n'.worker .recovery = n.worker .recovery
  begins : n'.pc.isClearing = true → n.pc.isClearing = true ∨ n.worker .recovery = none
  window : n.pc.isClearing = true → n'.pc = n.pc

section
variable {cfg : NodeConfig} {s s' : DebtSt} {n n' : NodeSt}

theorem Aside.listed {c : Nat} (h : Aside cfg n n') (hl : n.Listed cfg c) : n'.Listed cfg c := by
  obtain ⟨es, he, hcov⟩ := hl
  exact ⟨es, h.file.trans he, hcov⟩

theorem Aside.held {c : Nat} (h : Aside cfg n n') (hl : n.Held cfg c) : n'.Held cfg c := by
  rcases hl with ⟨w, snap, hpc, h1, h2, h3⟩ | ⟨es, hpc, hcov⟩
  · exact Or.inl ⟨w, snap, (h.window (by rw [hpc]; rfl)).trans hpc, h1, h2, h3⟩
  · exact Or.inr ⟨es, (h.window (by rw [hpc]; rfl)).trans hpc, hcov⟩

theorem DebtInv.aside (h : DebtInv cfg s) (ha : Aside cfg s.n n') :
    DebtInv cfg ⟨n', s.owed, s.seen⟩ := by
  refine ⟨ha.shape, fun hp => ?_, fun w e => ?_⟩
  · exact ha.worker.trans ((ha.begins hp).elim h.single id)
  · obtain ⟨hok, es, he, hx⟩ := h.rest w (ha.worker ▸ e)
    exact ⟨hok, es, ha.file.trans he, hx⟩

theorem Aside.still (h : n'.q.Shape cfg.target) (hf : n'.files.recovery = n.files.recovery)
    (hw : n'.worker .recovery = n.worker .recovery) (hpc : n'.pc = n.pc) : Aside cfg n n' :=
  ⟨h, hf, hw, fun e => Or.inl (hpc ▸ e), fun _ => hpc⟩

theorem Aside.main {pc : NodePc} (hpc : n.pc = pc) (hcl : pc.isClearing = false)
    (h : n'.q.Shape cfg.target) (hf : n'.files.recovery = n.files.recovery)
    (hw : n'.worker .recovery = n.worker .recovery) (hcl' : n'.pc.isClearing = false) :
    Aside cfg n n' := by
  refine ⟨h, hf, hw, fun e => ?_, fun e => ?_⟩
  · cases hcl'.symm.trans e
  · rw [hpc, hcl] at e
    cases e

theorem aside_of_step {a : NodeAct} (h : n.q.Shape cfg.target) (hs : nstep cfg n a = some n')
    (ha : a ≠ .start ∧ a ≠ .crash ∧ a ≠ .clear ∧ a ≠ .persist ∧ ∀ who m, a ≠ .work who m) :
    Aside cfg n n' := by
  obtain ⟨h1, h2, h3, h4, h5⟩ := ha
  cases step_cases hs with
  | start _ _ _ => exact absurd rfl h1
  | crash _ => exact absurd rfl h2
  | word w snap _ _ => exact absurd rfl h3
  | cleared w snap _ _ => exact absurd rfl h3
  | persist es _ => exact absurd rfl h4
  | work who m _ _ _ => exact absurd rfl (h5 who m)
  | bio b ts hok => exact .still (Feed.write_cases ts h hok).1.shape rfl rfl rfl
  | lock on => exact .still h rfl rfl rfl
  | seedData img _ _ => exact .still h rfl rfl rfl
  | seedMark => exact .still h rfl rfl rfl
  | stop _ => exact .still h rfl rfl rfl
  | enter w _ _ => exact .still h rfl rfl rfl
  | read k hpc _ => exact .main hpc rfl (h.read k) rfl rfl (by dsimp only; split <;> rfl)
  | drain k hpc => exact .main hpc rfl (h.read k) rfl rfl (by dsimp only; split <;> rfl)
  | test drain batch hpc => exact .main hpc rfl h rfl rfl rfl
  | park drain parked r rest hpc => exact .main hpc rfl h rfl rfl rfl
  | pass drain parked r rest hpc => exact .main hpc rfl h rfl rfl rfl
  | consumed drain park parked hpc => exact .main hpc rfl h rfl rfl (by cases drain <;> rfl)
  | adopt hpc _ _ => exact .main hpc rfl h rfl rfl rfl
  | fallBack b hpc _ _ _ => exact .main hpc rfl h rfl rfl rfl
  | noSeed hpc => exact .main hpc rfl h rfl rfl rfl
  | gap g queue hpc _ hw _ =>
    refine ⟨h, rfl, rfl, fun _ => Or.inr hw, fun e => ?_⟩
    rw [hpc] at e
    cases e
  | noGap hpc => exact .main hpc rfl h rfl rfl rfl
  | unpark l hpc _ _ => exact .main hpc rfl h rfl rfl rfl
  | noPending hpc => exact .main hpc rfl h rfl rfl rfl
  | apply r rest hpc => exact .main hpc rfl h rfl rfl rfl
  | applied hpc => exact .main hpc rfl h rfl rfl rfl
  | freeze mark hpc _ _ _ _ => exact .main hpc rfl h rfl rfl rfl
  | finish mark hpc => exact .main hpc rfl h rfl rfl rfl

theorem DebtInv.start (h : DebtInv cfg s) (hs : startNode cfg s.n = some n') :
    DebtInv cfg ⟨n', s.owed, fun _ => false⟩ := by
  unfold startNode at hs
  split at hs
  · obtain rfl := Option.some.inj hs
    refine ⟨⟨h.shape.chunk, h.shape.nbits⟩, fun e => ?_, fun w e => ?_⟩
    · cases e
    · obtain ⟨es, he, rfl⟩ := Option.map_eq_some_iff.mp
        (show s.n.files.recovery.map (fun es => Worker.mk .idle (byteExtents es)) = some w from e)
      exact ⟨trivial, es, he, fun x _ hx => Or.inr hx⟩
  · cases hs

theorem DebtInv.crash (h : DebtInv cfg s) (hs : crashNode s.n = some n') :
    DebtInv cfg ⟨n', s.owed, s.seen⟩ := by
  unfold crashNode at hs
  split at hs
  · cases hs
  · obtain rfl := Option.some.inj hs
    refine ⟨h.shape, fun e => ?_, fun w e => ?_⟩ <;> cases e

theorem DebtInv.clear {owed : Nat → Bool} (h : DebtInv cfg s) (hs : clearNode s.n = some n') :
    DebtInv cfg ⟨n', owed, s.seen⟩ := by
  unfold clearNode at hs
  split at hs
  · rename_i w snap hpc
    have hsingle : s.n.worker .recovery = none := h.single (by rw [hpc]; rfl)
    split at hs
    · obtain rfl := Option.some.inj hs
      exact ⟨⟨h.shape.chunk, h.shape.nbits⟩, fun _ => hsingle, h.rest⟩
    · obtain rfl := Option.some.inj hs
      exact ⟨⟨h.shape.chunk, h.shape.nbits⟩, fun _ => hsingle, h.rest⟩
  · cases hs

theorem DebtInv.persist (h : DebtInv cfg s) (hs : persistNode s.n = some n') :
    DebtInv cfg ⟨n', s.owed, fun _ => false⟩ := by
  unfold persistNode at hs
  split at hs
  · rename_i es hpc
    obtain rfl := Option.some.inj hs
    refine ⟨h.shape, fun e => ?_, fun w e => ?_⟩
    · cases e
    · cases e
      exact ⟨trivial, es, rfl, fun x _ hx => Or.inr hx⟩
  · cases hs

/-! ## the copy threads -/

theorem update_base (f : Who → Option Worker) (w : Option Worker) :
    Function.update f .base w .recovery = f .recovery :=
  Function.update_of_ne (show Who.recovery ≠ Who.base by decide) w f

theorem update_recovery (f : Who → Option Worker) : Function.update f .recovery none .recovery = none :=
  Function.update_self _ _ _

theorem ends_false {w : Worker} (hw : s.n.worker .recovery = some w)
    (h : w.pc ≠ .idle ∨ w.left ≠ [] ∨ s.n.stop = true) : s.ends = false := by
  unfold DebtSt.ends
  rw [hw]
  split
  · rename_i e
    obtain rfl := Option.some.inj e
    rcases h with h | h | h
    · exact absurd rfl h
    · exact absurd rfl h
    · rw [h]
      rfl
  · rfl

theorem ends_true {w : Worker} (hw : s.n.worker .recovery = some w) (hpc : w.pc = .idle)
    (hl : w.left = []) (hstop : s.n.stop = false) : s.ends = true := by
  obtain ⟨pc, left⟩ := w
  cases hpc
  cases hl
  unfold DebtSt.ends
  rw [hw]
  show (!s.n.stop) = true
  rw [hstop]
  rfl

/-- the bytes that the step of the recovery adds are those of the chunk that has landed -/
theorem seenAfter_work {w : Worker} {m : Nat} {x : Nat} (hw : s.n.worker .recovery = some w)
    (h : s.seen x = true ∨ w.pc.landed x) : s.seenAfter (.work .recovery m) x = true := by
  unfold DebtSt.seenAfter
  rw [hw]
  obtain ⟨pc, left⟩ := w
  rcases h with h | ⟨off, n, k, hpc, h1, h2⟩
  · cases pc with
    | stored off n k =>
      show (s.seen x || _) = true
      rw [h, Bool.true_or]
    | idle => exact h
    | flagged off n => exact h
    | holding off n buf => exact h
    | replaying k late => exact h
  · cases hpc
    show (s.seen x || decide (off ≤ x ∧ x < off + k)) = true
    rw [decide_eq_true ⟨h1, h2⟩, Bool.or_true]

/-- what a step of the recovery does to the debts: at its end all that was listed is paid -/
structure Paid (cfg : NodeConfig) (s : DebtSt) (s' : DebtSt) : Prop where
  inv : DebtInv cfg s'
  alive : s.n.worker .recovery ≠ none
  owed : ∀ c, s'.owed c = true →
    s.owed c = true ∧ (s.n.Listed cfg c → s'.n.Listed cfg c)

theorem DebtInv.moved {w : Worker} {m : Nat} (h : DebtInv cfg s) (w' : Worker) (c : Shared)
    (hw : s.n.worker .recovery = some w) (hends : s.ends = false) (hok : w'.Ok cfg.target.size)
    (hrest : ∀ x, x < cfg.target.size → InExtents w.rest x →
      InExtents w'.rest x ∨ w.pc.landed x) :
    Paid cfg s ⟨{ s.n.setWorker .recovery (some w') with c := c },
      s.owedAfter cfg (.work .recovery m), s.seenAfter (.work .recovery m)⟩ := by
  have howed : s.owedAfter cfg (.work .recovery m) = s.owed := by
    simp only [DebtSt.owedAfter, hends]
    rfl
  refine ⟨⟨h.shape, fun e => ?_, fun v e => ?_⟩, by rw [hw]; exact Option.some_ne_none w,
    fun c hc => ⟨howed ▸ hc, fun hl => hl⟩⟩
  · rw [h.single e] at hw
    cases hw
  · cases e
    obtain ⟨_, es, he, hx⟩ := h.rest w hw
    refine ⟨hok, es, he, fun x hlt hin => ?_⟩
    rcases hx x hlt hin with h1 | h1
    · exact Or.inl (seenAfter_work (m:=m) hw (Or.inl h1))
    · rcases hrest x hlt h1 with h2 | h2
      · exact Or.inr h2
      · exact Or.inl (seenAfter_work (m:=m) hw (Or.inr h2))

/-- **The end of `recover`**: all that was listed has been copied. -/
theorem DebtInv.done {w : Worker} {c : Nat} (h : DebtInv cfg s)
    (hw : s.n.worker .recovery = some w) (hpc : w.pc = .idle) (hl : w.left = [])
    (hc : s.n.Listed cfg c) : s.reread cfg c = true := by
  obtain ⟨es, he, hcov⟩ := hc
  obtain ⟨_, es', he', hx⟩ := h.rest w hw
  obtain rfl := Option.some.inj (he.symm.trans he')
  refine decide_eq_true fun x hlt hxc => (hx x hlt ?_).resolve_right ?_
  · apply inExtents_of_covered cfg.target.chunkSectors_pos
    change x / 512 / cfg.target.chunkSectors = c at hxc
    rw [hxc]
    exact hcov
  · rintro ⟨e, hmem, _⟩
    unfold Worker.rest at hmem
    rw [hpc, hl] at hmem
    cases hmem

theorem DebtInv.recovery {m : Nat} (h : DebtInv cfg s)
    (hs : workNode cfg s.n .recovery m = some n') :
    Paid cfg s ⟨n', s.owedAfter cfg (.work .recovery m), s.seenAfter (.work .recovery m)⟩ := by
  obtain ⟨w, hw, hcase⟩ := work_cases hs
  have hok := (h.rest w hw).1
  have halive : s.n.worker .recovery ≠ none := by
    rw [hw]
    exact Option.some_ne_none w
  cases hcase with
  | quit hpc hstop =>
    have howed : s.owedAfter cfg (.work .recovery m) = s.owed := by
      simp only [DebtSt.owedAfter, ends_false hw (Or.inr (Or.inr hstop))]
      rfl
    have hnone : (s.n.quit .recovery).worker .recovery = none := update_recovery s.n.worker
    refine ⟨⟨h.shape, fun _ => hnone, fun v e => ?_⟩, halive, fun c hc => ⟨howed ▸ hc, fun hl => hl⟩⟩
    cases hnone.symm.trans e
  | begin off rem es hpc hleft hstop =>
    refine h.moved _ _ hw (ends_false hw (Or.inr (Or.inl ?_))) ⟨rem + 1, es, hleft, rfl⟩
      fun x _ hx => ?_
    · rw [hleft]
      exact List.cons_ne_nil _ _
    · refine Or.inl ?_
      unfold Worker.rest at hx
      rw [hpc] at hx
      exact hx
  | next off es hpc hleft =>
    refine h.moved ⟨.idle, es⟩ s.n.c hw (ends_false hw (Or.inr (Or.inl ?_))) trivial
      fun x _ hx => ?_
    · rw [hleft]
      exact List.cons_ne_nil _ _
    · obtain ⟨e, he, h1, h2⟩ := hx
      unfold Worker.rest at he
      rw [hpc, hleft] at he
      rcases List.mem_cons.mp he with rfl | he
      · exact absurd (lt_of_le_of_lt h1 h2) (by simp)
      · exact Or.inl ⟨e, he, h1, h2⟩
  | done hpc hleft hstop =>
    have hnone : (s.n.done .recovery).worker .recovery = none := update_recovery s.n.worker
    refine ⟨⟨h.shape, fun _ => hnone, fun v e => ?_⟩, halive, fun c hc => ?_⟩
    · cases hnone.symm.trans e
    · simp only [DebtSt.owedAfter, if_pos (ends_true hw hpc hleft hstop), Bool.and_eq_true,
        Bool.not_eq_true'] at hc
      refine ⟨hc.1, fun hl => ?_⟩
      rw [h.done hw hpc hleft hl] at hc
      cases hc.2
  | finish n hpc =>
    refine h.moved ⟨.idle, advance n w.left⟩ s.n.c hw (ends_false hw (Or.inl ?_)) trivial
      fun x _ hx => ?_
    · rw [hpc]
      exact fun e => by cases e
    · refine Or.inl ?_
      unfold Worker.rest at hx
      rw [hpc] at hx
      exact hx
  | chunk c pc hread hst =>
    obtain ⟨hok', _, hland⟩ := chunk_rest (s:=s.n) hok hread hst
    refine h.moved _ _ hw (ends_false hw (Or.inl ?_)) hok' hland
    intro e
    rw [e] at hst
    cases hst

theorem aside_base {m : Nat} (h : n.q.Shape cfg.target) (hs : workNode cfg n .base m = some n') :
    Aside cfg n n' := by
  have hne := update_base n.worker
  obtain ⟨w, hw, hcase⟩ := work_cases hs
  cases hcase with
  | quit hpc hstop => exact .still h rfl (hne none) rfl
  | begin off rem es hpc hleft hstop =>
    exact .still h rfl (hne (some ⟨.flagged off (min (rem + 1) CopyChunk), w.left⟩)) rfl
  | next off es hpc hleft => exact .still h rfl (hne (some ⟨.idle, es⟩)) rfl
  | done hpc hleft hstop => exact .still h rfl (hne none) rfl
  | finish n hpc => exact .still h rfl (hne (some ⟨.idle, advance n w.left⟩)) rfl
  | chunk c pc hread hst => exact .still h rfl (hne (some ⟨pc, w.left⟩)) rfl

theorem DebtInv.die (h : DebtInv cfg s) (who : Who) :
    DebtInv cfg { s with n := s.n.setWorker who none } := by
  cases who with
  | base => exact h.aside (.still h.shape rfl (update_base s.n.worker none) rfl)
  | recovery =>
    have hnone : (s.n.setWorker .recovery none).worker .recovery = none :=
      update_recovery s.n.worker
    refine ⟨h.shape, fun _ => hnone, fun w e => ?_⟩
    cases hnone.symm.trans e

/-- **What a step does to the debts.** -/
inductive DebtMove (cfg : NodeConfig) (s : DebtSt) : DebtAct → DebtSt → Prop
  | aside (a : DebtAct) (n' : NodeSt) : a ≠ .node .crash → a ≠ .node .clear → a ≠ .node .persist →
      Aside cfg s.n n' → DebtMove cfg s a ⟨n', s.owed, s.seen⟩
  | start (n' : NodeSt) : s.n.pc = .down → n'.files.recovery = s.n.files.recovery →
      DebtMove cfg s (.node .start) ⟨n', s.owed, fun _ => false⟩
  | crash : DebtMove cfg s (.node .crash) ⟨s.n.crash, s.owed, s.seen⟩
  | clear (w : Nat) (snap : Nat → Bool) (n' : NodeSt) : s.n.pc = .clearing w snap →
      clearNode s.n = some n' →
      DebtMove cfg s (.node .clear) ⟨n', s.owedAfter cfg .clear, s.seen⟩
  | persist (es : List (Nat × Nat)) (n' : NodeSt) : s.n.pc = .cleared es →
      n'.files.recovery = some es → n'.pc = .started →
      DebtMove cfg s (.node .persist) ⟨n', s.owed, fun _ => false⟩
  | recovery (m : Nat) (s' : DebtSt) : Paid cfg s s' → DebtMove cfg s (.node (.work .recovery m)) s'
  | die (who : Who) : DebtMove cfg s (.die who) { s with n := s.n.setWorker who none }

theorem debt_cases {a : DebtAct} (h : DebtInv cfg s) (hs : debtStep cfg s a = some s') :
    DebtInv cfg s' ∧ DebtMove cfg s a s' := by
  cases a with
  | die who =>
    obtain rfl := Option.some.inj hs
    exact ⟨h.die who, .die who⟩
  | node a =>
    obtain ⟨n', hn, rfl⟩ := Option.map_eq_some_iff.mp hs
    by_cases ha : a ≠ .start ∧ a ≠ .crash ∧ a ≠ .clear ∧ a ≠ .persist ∧ ∀ who m, a ≠ .work who m
    · have haside := aside_of_step h.shape hn ha
      obtain ⟨h1, h2, h3, h4, h5⟩ := ha
      have ho : s.owedAfter cfg a = s.owed := by
        unfold DebtSt.owedAfter
        split
        · exact absurd rfl h3
        · exact absurd rfl (h5 _ _)
        · rfl
      have hseen : s.seenAfter a = s.seen := by
        unfold DebtSt.seenAfter
        split
        · exact absurd rfl h1
        · exact absurd rfl h4
        · exact absurd rfl (h5 _ _)
        · rfl
      rw [ho, hseen]
      exact ⟨h.aside haside, .aside _ n' (by simp [h2]) (by simp [h3]) (by simp [h4]) haside⟩
    · cases a with
      | start =>
        cases step_cases hn with
        | start _ hpc hst =>
          refine ⟨h.start hn, .start n' hpc ?_⟩
          unfold startNode at hst
          split at hst
          · obtain rfl := Option.some.inj hst
            rfl
          · cases hst
      | crash =>
        cases step_cases hn with
        | crash _ => exact ⟨h.crash hn, .crash⟩
      | clear =>
        cases step_cases hn with
        | word w snap hpc _ => exact ⟨h.clear hn, .clear w snap _ hpc hn⟩
        | cleared w snap hpc _ => exact ⟨h.clear hn, .clear w snap _ hpc hn⟩
      | persist =>
        cases step_cases hn with
        | persist es hpc => exact ⟨h.persist hn, .persist es _ hpc rfl rfl⟩
      | work who m =>
        cases step_cases hn with
        | work _ _ _ _ hw =>
          cases who with
          | base =>
            have haside := aside_base h.shape hw
            exact ⟨h.aside haside, .aside _ n' (by simp) (by simp) (by simp) haside⟩
          | recovery =>
            have hp := h.recovery hw
            exact ⟨hp.inv, .recovery m _ hp⟩
      | _ => exact absurd (by simp) ha

theorem owedAfter_clear (cfg : NodeConfig) {w c : Nat} {snap : Nat → Bool}
    (hpc : s.n.pc = .clearing w snap) :
    s.owedAfter cfg .clear c = true ↔ s.owed c = true ∨ w < s.n.q.t.nlongs ∧ c / 64 = w ∧
      c < s.n.q.t.nbits ∧ s.n.q.t.bitmap c = true := by
  simp only [DebtSt.owedAfter, hpc]
  by_cases hw : w < s.n.q.t.nlongs
  · rw [if_pos hw]
    simp only [Bool.or_eq_true, Bool.and_eq_true, decide_eq_true_eq, hw, true_and, and_assoc]
  · rw [if_neg hw]
    simp only [hw, false_and, or_false]

theorem clearNode_file (hs : clearNode n = some n') : n'.files.recovery = n.files.recovery := by
  unfold clearNode at hs
  split at hs
  · split at hs
    · exact Option.some.inj hs ▸ rfl
    · exact Option.some.inj hs ▸ rfl
  · cases hs

/-- **The debts stay listed** exactly in the steps that meet `DebtOk`. -/
theorem debtsListed_step {a : DebtAct} (h : DebtsListed cfg s) (hm : DebtMove cfg s a s') :
    DebtsListed cfg s' ↔ DebtOk cfg s a := by
  cases hm with
  | aside _ n' h1 h2 h3 ha =>
    refine ⟨fun _ => ?_, fun _ c hc => ha.listed (h c hc)⟩
    unfold DebtOk
    split
    · exact absurd rfl h2
    · exact absurd rfl h3
    · trivial
  | start n' hpc hf =>
    refine ⟨fun _ => trivial, fun _ c hc => ?_⟩
    obtain ⟨es, he, hcov⟩ := h c hc
    exact ⟨es, hf.trans he, hcov⟩
  | crash => exact ⟨fun _ => trivial, fun _ => h⟩
  | clear w snap n' hpc hn =>
    have hf := clearNode_file hn
    have hl : ∀ c, n'.Listed cfg c ↔ s.n.Listed cfg c := by
      intro c
      unfold NodeSt.Listed
      rw [hf]
    constructor
    · intro hall w' snap' hpc' hw c h1 h2 h3
      cases hpc.symm.trans hpc'
      exact (hl c).mp (hall c ((owedAfter_clear cfg hpc).mpr (Or.inr ⟨hw, h1, h2, h3⟩)))
    · intro hg c hc
      rcases (owedAfter_clear cfg hpc).mp hc with hc | ⟨hw, h1, h2, h3⟩
      · exact (hl c).mpr (h c hc)
      · exact (hl c).mpr (hg w snap hpc hw c h1 h2 h3)
  | persist es n' hpc hf hp =>
    constructor
    · intro hall es' hpc' c hc
      cases hpc.symm.trans hpc'
      obtain ⟨es', he, hcov⟩ := hall c hc
      cases hf.symm.trans he
      exact hcov
    · exact fun hg c hc => ⟨es, hf, hg es hpc c hc⟩
  | recovery m _ hp =>
    refine ⟨fun _ => trivial, fun _ c hc => ?_⟩
    obtain ⟨h1, h2⟩ := hp.owed c hc
    exact h2 (h c h1)
  | die who => exact ⟨fun _ => trivial, fun _ => h⟩

/-- the snapshot takes over what the `ioctl` takes from the bitmap, and the extents the snapshot -/
theorem clearNode_held {w c : Nat} {snap : Nat → Bool} (hq : n.q.Shape cfg.target)
    (hpc : n.pc = .clearing w snap) (hs : clearNode n = some n') :
    (n.Held cfg c → n'.Held cfg c) ∧ (w < n.q.t.nlongs → c / 64 = w → c < n.q.t.nbits →
      n.q.t.bitmap c = true → n'.Held cfg c) := by
  have hold : n.Held cfg c → snap c = true ∧ c / 64 < w ∧ c < cfg.target.nbits := by
    rintro (⟨w', snap', hpc', h1, h2, h3⟩ | ⟨es, hpc', _⟩)
    · cases hpc.symm.trans hpc'
      exact ⟨h1, h2, h3⟩
    · cases hpc.symm.trans hpc'
  unfold clearNode at hs
  rw [hpc] at hs
  dsimp only at hs
  split at hs
  · obtain rfl := Option.some.inj hs
    refine ⟨fun hh => ?_, fun _ h1 h2 h3 => ?_⟩
    · obtain ⟨h1, h2, h3⟩ := hold hh
      exact Or.inl ⟨w + 1, _, rfl, (if_neg (by omega)).trans h1, by omega, h3⟩
    · exact Or.inl ⟨w + 1, _, rfl, (if_pos h1).trans h3, by omega, hq.nbits ▸ h2⟩
  · rename_i hw
    obtain rfl := Option.some.inj hs
    refine ⟨fun hh => ?_, fun hlt _ _ _ => absurd hlt hw⟩
    obtain ⟨h1, h2, h3⟩ := hold hh
    refine Or.inr ⟨_, rfl, ?_⟩
    rw [hq.chunk]
    exact bitmapExtents_covers _ (hq.nbits ▸ h3) h1

theorem not_held {c : Nat} (h : n.pc.isClearing = false) : ¬n.Held cfg c := by
  rintro (⟨w, snap, hpc, _⟩ | ⟨es, hpc, _⟩)
  · rw [hpc] at h
    cases h
  · rw [hpc] at h
    cases h

/-- **The debts stay listed or held** exactly in the steps that meet `HeldOk`. -/
theorem debtsHeld_step {a : DebtAct} (hi : DebtInv cfg s) (h : DebtsHeld cfg s)
    (hm : DebtMove cfg s a s') : DebtsHeld cfg s' ↔ HeldOk cfg s a := by
  cases hm with
  | aside _ n' h1 h2 h3 ha =>
    refine ⟨fun _ => ?_, fun _ c hc => (h c hc).imp ha.listed ha.held⟩
    unfold HeldOk
    split
    · exact absurd rfl h1
    · exact absurd rfl h3
    · trivial
  | start n' hpc hf =>
    refine ⟨fun _ => trivial, fun _ c hc => ?_⟩
    obtain ⟨es, he, hcov⟩ := (h c hc).resolve_right (not_held (by rw [hpc]; rfl))
    exact Or.inl ⟨es, hf.trans he, hcov⟩
  | crash =>
    exact ⟨fun hall c hc => (hall c hc).resolve_right (not_held rfl), fun hg c hc => Or.inl (hg c hc)⟩
  | clear w snap n' hpc hn =>
    have hf := clearNode_file hn
    refine ⟨fun _ => trivial, fun _ c hc => ?_⟩
    obtain ⟨hkeep, htake⟩ := clearNode_held (c:=c) hi.shape hpc hn
    rcases (owedAfter_clear cfg hpc).mp hc with hc | ⟨hw, h1, h2, h3⟩
    · rcases h c hc with ⟨es, he, hcov⟩ | hh
      · exact Or.inl ⟨es, hf.trans he, hcov⟩
      · exact Or.inr (hkeep hh)
    · exact Or.inr (htake hw h1 h2 h3)
  | persist es n' hpc hf hp =>
    constructor
    · intro hall es' hpc' c hc
      cases hpc.symm.trans hpc'
      obtain ⟨es', he, hcov⟩ := (hall c hc).resolve_right (not_held (by rw [hp]; rfl))
      cases hf.symm.trans he
      exact hcov
    · exact fun hg c hc => Or.inl ⟨es, hf, hg es hpc c hc⟩
  | recovery m _ hp =>
    refine ⟨fun _ => trivial, fun _ c hc => ?_⟩
    obtain ⟨h1, h2⟩ := hp.owed c hc
    have hcl : s.n.pc.isClearing = false := by
      cases hcl : s.n.pc.isClearing with
      | false => rfl
      | true => exact absurd (hi.single hcl) hp.alive
    exact Or.inl (h2 ((h c h1).resolve_right (not_held hcl)))
  | die who => exact ⟨fun _ => trivial, fun _ => h⟩

end

/-- **Cleared bits are not forgotten**: throughout a run every chunk owed is in `recovery.json`
exactly if the steps meet `DebtOk`; and it is there or in the hands of `start_recovery` exactly if
they meet `HeldOk`. -/
theorem debts_listed (cfg : NodeConfig) (dev img : Nat → UInt8) (as : List DebtAct) (s : DebtSt)
    (h : exec (debtStep cfg) (DebtSt.init cfg dev img) as = some s) :
    (Always (debtStep cfg) (DebtsListed cfg) (DebtSt.init cfg dev img) as ↔
      Meets (debtStep cfg) (DebtOk cfg) (DebtSt.init cfg dev img) as) ∧
    (Always (debtStep cfg) (DebtsHeld cfg) (DebtSt.init cfg dev img) as ↔
      Meets (debtStep cfg) (HeldOk cfg) (DebtSt.init cfg dev img) as) := by
  constructor
  · refine always_iff_meets (I:=fun s => DebtInv cfg s ∧ DebtsListed cfg s) (fun _ hi => hi.2)
      (fun s a t hi hg hs => ?_) (fun s a t hi hn hs => ?_)
      ⟨DebtInv.init cfg dev img, fun c hc => by cases hc⟩ h
    · obtain ⟨hi', hm⟩ := debt_cases hi.1 hs
      exact ⟨hi', (debtsListed_step hi.2 hm).mpr hg⟩
    · exact fun hall => hn ((debtsListed_step hi.2 (debt_cases hi.1 hs).2).mp hall)
  · refine always_iff_meets (I:=fun s => DebtInv cfg s ∧ DebtsHeld cfg s) (fun _ hi => hi.2)
      (fun s a t hi hg hs => ?_) (fun s a t hi hn hs => ?_)
      ⟨DebtInv.init cfg dev img, fun c hc => by cases hc⟩ h
    · obtain ⟨hi', hm⟩ := debt_cases hi.1 hs
      exact ⟨hi', (debtsHeld_step hi.1 hi.2 hm).mpr hg⟩
    · exact fun hall => hn ((debtsHeld_step hi.1 hi.2 (debt_cases hi.1 hs).2).mp hall)

/-! ## the runs -/

def tinySeed : NodeConfig := { tinyNode with seedRequired := true }

/-- a write sets a bit; the seed is adopted; the read-and-clear takes the bit -/
def takeBit : List DebtAct :=
  ([.seedMark, .start, .bio sectorWrite 0, .read 1, .test, .consume, .consume, .checkSeed, .gapTest,
    .clear] : List NodeAct).map .node

/-- `recovery.json` is written, and the recovery runs to its end -/
def payDebt : List DebtAct :=
  takeBit ++ (([.clear, .persist] : List NodeAct) ++ List.replicate 5 (NodeAct.work .recovery 512) ++
    List.replicate 6 (NodeAct.work .recovery 0)).map .node

/-- enough for `HeldOk`: no crash, and nothing to overwrite -/
def heldOkB (s : DebtSt) : DebtAct → Bool
  | .node .crash => false
  | .node .persist => s.n.files.recovery.isNone
  | _ => true

theorem heldOk_of_heldOkB {cfg : NodeConfig} {s : DebtSt} {a : DebtAct} (h : DebtsHeld cfg s)
    (hb : heldOkB s a = true) : HeldOk cfg s a := by
  unfold HeldOk
  split
  · cases hb
  · intro es hpc c hc
    have hnone : s.n.files.recovery = none := Option.isNone_iff_eq_none.mp hb
    rcases h c hc with ⟨es', he, _⟩ | ⟨w, snap, hpc', _⟩ | ⟨es', hpc', hcov⟩
    · cases hnone.symm.trans he
    · cases hpc.symm.trans hpc'
    · cases hpc.symm.trans hpc'
      exact hcov
  · trivial

theorem debts_listed_run : ∃ s,
    exec (debtStep tinySeed) (DebtSt.init tinySeed (fun _ => 3) fun _ => 0) payDebt = some s ∧
      (s.n.files.recovery = none ∧ s.n.c.img 0 = 1) ∧
      Always (debtStep tinySeed) (DebtsHeld tinySeed)
        (DebtSt.init tinySeed (fun _ => 3) fun _ => 0) payDebt := by
  have h : (exec (debtStep tinySeed) (DebtSt.init tinySeed (fun _ => 3) fun _ => 0) payDebt).any
      (fun s => s.n.files.recovery.isNone && s.n.c.img 0 == 1) = true := by
    decide +kernel
  obtain ⟨s, hs, hp⟩ := (Option.any_eq_true _ _).mp h
  rw [Bool.and_eq_true, Option.isNone_iff_eq_none, beq_iff_eq] at hp
  refine ⟨s, hs, hp, (debts_listed tinySeed (fun _ => 3) (fun _ => 0) payDebt s hs).2.mpr ?_⟩
  refine meets_of_meetsB_inv (I:=fun s => DebtInv tinySeed s ∧ DebtsHeld tinySeed s) (b:=heldOkB)
    (fun _ _ hi hb => heldOk_of_heldOkB hi.2 hb) (fun s a t hi hg ht => ?_)
    ⟨DebtInv.init _ _ _, fun c hc => by cases hc⟩ (by decide +kernel)
  obtain ⟨hi', hm⟩ := debt_cases hi.1 ht
  exact ⟨hi', (debtsHeld_step hi.1 hi.2 hm).mpr hg⟩

/-- the daemon is killed between the `ioctl` and `write_json` -/
def dieHolding : List DebtAct := takeBit ++ [.node .crash]

/-- **The crash**: the bit is in the memory of no one, and `recovery.json` does not exist. -/
theorem debt_forgotten : ∃ s,
    exec (debtStep tinySeed) (DebtSt.init tinySeed (fun _ => 3) fun _ => 0) dieHolding = some s ∧
      s.owed 0 = true ∧ s.n.files.recovery = none ∧ ¬DebtsListed tinySeed s := by
  have h : (exec (debtStep tinySeed) (DebtSt.init tinySeed (fun _ => 3) fun _ => 0) dieHolding).any
      (fun s => s.owed 0 && s.n.files.recovery.isNone) = true := by
    decide +kernel
  obtain ⟨s, hs, hp⟩ := (Option.any_eq_true _ _).mp h
  rw [Bool.and_eq_true, Option.isNone_iff_eq_none] at hp
  refine ⟨s, hs, hp.1, hp.2, fun hall => ?_⟩
  obtain ⟨es, he, _⟩ := hall 0 hp.1
  cases hp.2.symm.trans he

end CDP
