import DmCdp.Kernel.Readable

/-!
# The wait of `cdp_read` and the wake-ups

`wait_event_interruptible` step by step, beside the machine of the target: the condition calls
`cdp_readable` without `read_lock`, so another reader may move the tail, and a writer take the room,
between the load of the tail and the load of the state.

* `wstep`            the machine; `endIo` and `dtr` store first and wake later;
* `Lost`                a reader sleeps with something to do and no wake-up on the way;
* `NotBehind`           what is looked at has not been consumed in the meantime;
* `WaitInv`             what a reader that is not woken knows;
* `poll_read_wakeup`    poll and read agree in every state, and no run that keeps to `NotBehind` loses a
                        wake-up; `alone_notBehind`: if nobody comes between, the condition does;
* `wakeup_lost`         the run in which somebody does.
-/

set_option linter.unusedVariables false

namespace CDP
open Img Mach Slots

/-! ## the machine -/

/-- where the entry of a reader is while the condition is evaluated -/
inductive OnQueue where
  /-- before the first `prepare_to_wait_event` -/
  | no
  /-- on `t->wq`; `woken`: a wake-up has come since -/
  | yes (woken : Bool)
  /-- taken off because of a signal -/
  | intr
  deriving DecidableEq

/-- where a reader is in `wait_event_interruptible(t->wq, cdp_readable(t) || READ_ONCE(t->dead))` -/
inductive WaitPc where
  /-- in front of the load of the tail -/
  | load (q : OnQueue)
  /-- in front of an iteration of `cdp_next` -/
  | next (q : OnQueue) (pos : Nat)
  /-- in front of the load of the state -/
  | found (q : OnQueue) (pos : Nat)
  /-- `cdp_readable` was false -/
  | dead (q : OnQueue)
  /-- in front of `prepare_to_wait_event` -/
  | prepare
  /-- in `schedule` -/
  | sleeping (woken : Bool)
  deriving DecidableEq

/-- `wait r` counts while the `cdp_read` of `r` is at `asleep`; `wakes` are the calls of `wake_up` that
are due, of parties between their store and the call -/
structure WaitSt where
  k : KState
  wait : Nat → WaitPc
  wakes : Nat

def WaitSt.init (cfg : Config) (dev : Nat → UInt8) : WaitSt :=
  ⟨.init cfg dev, fun _ => .load .no, 0⟩

def WaitSt.goto (w : WaitSt) (r : Nat) (pc : WaitPc) : WaitSt :=
  { w with wait := Function.update w.wait r pc }

/-- the end of the wait: the condition holds, or a signal ends it -/
def WaitSt.leave (cfg : Config) (w : WaitSt) (r : Nat) (ok : Bool) : Option WaitSt :=
  (kstep cfg w.k (.reader r ok)).map fun k => { w with k := k }

/-- the next step of a wait; `ok`: no signal is pending -/
def waitAt (cfg : Config) (w : WaitSt) (r : Nat) (ok : Bool) : WaitPc → Option WaitSt
  | .load q => some (w.goto r (.next q w.k.t.tail))
  | .next q pos =>
    match cdpNextStep w.k.t pos with
    | .null => some (w.goto r (.dead q))
    | .skip p => some (w.goto r (.next q p))
    | .found p => some (w.goto r (.found q p))
  | .found q pos =>
    if stateAt w.k.t pos = StCommitted then w.leave cfg r true else some (w.goto r (.dead q))
  | .dead q =>
    if w.k.t.dead then w.leave cfg r true
    else
      match q with
      | .no => some (w.goto r .prepare)
      | .yes woken => some (w.goto r (.sleeping woken))
      | .intr => w.leave cfg r false
  | .prepare => some (w.goto r (.load (if ok then .yes false else .intr)))
  | .sleeping woken => if woken then some (w.goto r .prepare) else none

def OnQueue.wake : OnQueue → OnQueue
  | .yes _ => .yes true
  | q => q

/-- `wake_up` takes every entry off the queue -/
def WaitPc.wake : WaitPc → WaitPc
  | .load q => .load q.wake
  | .next q pos => .next q.wake pos
  | .found q pos => .found q.wake pos
  | .dead q => .dead q.wake
  | .prepare => .prepare
  | .sleeping _ => .sleeping true

/-- the wake-ups that an action leaves to be done -/
def dueWakes (s : KState) : KAct → Nat
  | .endIo i _ =>
    match s.flights[i]? with
    | some f => if f.logged then 1 else 0
    | none => 0
  | .dtr => 1
  | _ => 0

inductive WaitAct where
  | kernel (a : KAct)
  | wait (r : Nat) (ok : Bool)
  /-- a signal ends the sleep of `r` -/
  | signal (r : Nat)
  /-- one of the calls of `wake_up` -/
  | wake

/-- a reader at `asleep` leaves it through the wait only -/
def KAct.ofSleeper (s : KState) : KAct → Bool
  | .reader r _ => (s.readers r).pc == .asleep
  | _ => false

/-- a step of `cdp_read` may be the one into the wait -/
def KAct.enters (wait : Nat → WaitPc) : KAct → Nat → WaitPc
  | .reader r _ => Function.update wait r (.load .no)
  | _ => wait

def wstep (cfg : Config) (w : WaitSt) : WaitAct → Option WaitSt
  | .kernel a =>
    if a.ofSleeper w.k then none
    else
      (kstep cfg w.k a).map fun k =>
        { k := k, wait := a.enters w.wait, wakes := w.wakes + dueWakes w.k a }
  | .wait r ok =>
    if (w.k.readers r).pc = .asleep then waitAt cfg w r ok (w.wait r) else none
  | .signal r =>
    match w.wait r with
    | .sleeping _ => some (w.goto r (.sleeping true))
    | _ => none
  | .wake =>
    if w.wakes ≠ 0 then some { w with wait := fun r => (w.wait r).wake, wakes := w.wakes - 1 }
    else none

/-! ## the property and the condition -/

/-- reader `r` sleeps although there is something to read, or nothing will come, and no wake-up is on
the way -/
def WaitSt.Lost (w : WaitSt) (r : Nat) : Prop :=
  (w.k.readers r).pc = .asleep ∧ w.wait r = .sleeping false ∧
    (cdpReadable w.k.t = true ∨ w.k.t.dead = true) ∧ w.wakes = 0

instance (w : WaitSt) (r : Nat) : Decidable (w.Lost r) :=
  inferInstanceAs (Decidable (_ ∧ _ ∧ (_ ∨ _) ∧ _))

/-- the position that a reader on the queue looks at is not behind the tail -/
def NotBehind (w : WaitSt) : WaitAct → Prop
  | .wait r _ =>
    match w.wait r with
    | .next (.yes _) pos => w.k.t.tail ≤ pos
    | .found (.yes _) pos => w.k.t.tail ≤ pos
    | _ => True
  | _ => True

instance (w : WaitSt) (a : WaitAct) : Decidable (NotBehind w a) := by
  unfold NotBehind
  split
  · split <;> infer_instance
  · infer_instance

/-! ## what a step does to the tail -/

/-- a step of the target, for those who look at the tail; `due`: a wake-up is owed for it -/
structure RingStep (s s' : KState) (due : Nat) : Prop where
  tail : (s'.t.tail = s.t.tail ∧ s'.nread = s.nread) ∨
    (TailEnded s ∧ ∀ pos, (pos = s.t.tail ∨ ∃ e, s.NextAt pos e) → pos < s'.t.tail)
  log : LogExt s.log s'.log
  ended : due = 0 → TailEnded s' → TailEnded s
  dead : due = 0 → s'.t.dead = true → s.t.dead = true

section
variable {cfg : Config} {s s' : KState}

theorem RingStep.same {due : Nat} (ht : s'.t.tail = s.t.tail) (hn : s'.nread = s.nread)
    (hl : s'.log = s.log) (hd : s'.t.dead = s.t.dead) : RingStep s s' due := by
  refine ⟨Or.inl ⟨ht, hn⟩, hl ▸ LogExt.refl _, fun _ h => ?_, fun _ h => hd ▸ h⟩
  unfold TailEnded at h ⊢
  rw [hl, hn] at h
  exact h

theorem RingStep.snoc {due : Nat} {e : Entry} (ht : s'.t.tail = s.t.tail) (hn : s'.nread = s.nread)
    (hl : s'.log = s.log ++ [e]) (hle : s.nread ≤ s.log.length) (he : ¬e.Ended)
    (hd : s'.t.dead = s.t.dead) : RingStep s s' due := by
  refine ⟨Or.inl ⟨ht, hn⟩, hl ▸ LogExt.snoc _ _, fun _ ⟨x, hx, hend⟩ => ?_, fun _ h => hd ▸ h⟩
  rw [hl, hn] at hx
  by_cases hlt : s.nread < s.log.length
  · rw [List.getElem?_append_left hlt] at hx
    exact ⟨x, hx, hend⟩
  · have hlen : s.nread = s.log.length := by omega
    rw [hlen, List.getElem?_concat_length] at hx
    exact absurd (Option.some.inj hx ▸ hend) he

/-- the record `k` moves on, to an end only if a wake-up is owed -/
theorem RingStep.stage {due k : Nat} {e : Entry} {st : EStage} (ht : s'.t.tail = s.t.tail)
    (hn : s'.nread = s.nread) (hl : s'.log = s.log.modify k (Entry.setStage st))
    (he : s.log[k]? = some e) (hend : ¬e.Ended) (hd : s'.t.dead = s.t.dead)
    (hst : due = 0 → ∀ error, st ≠ .ended error) : RingStep s s' due := by
  refine ⟨Or.inl ⟨ht, hn⟩, hl ▸ LogExt.modify st he hend, fun h0 ⟨x, hx, herr⟩ => ?_,
    fun _ h => hd ▸ h⟩
  rw [hl, hn] at hx
  by_cases hk : k = s.nread
  · subst hk
    rw [modify_self he] at hx
    obtain ⟨error, herr⟩ := herr
    rw [← Option.some.inj hx] at herr
    exact absurd herr (hst h0 error)
  · rw [List.getElem?_modify_ne _ _ hk] at hx
    exact ⟨x, hx, herr⟩

/-- **Every step of the target**, from the side of those who look at the tail. -/
theorem kstep_ring {a : KAct} (h : KInv cfg s) (hs : kstep cfg s a = some s') :
    RingStep s s' (dueWakes s a) := by
  cases a with
  | map b =>
    obtain ⟨_, _, ⟨_, rfl⟩ | ⟨a, _, rfl⟩⟩ := map_cases hs
    · exact .same rfl rfl rfl rfl
    · obtain ⟨_, _, _, h4, _, h6, _⟩ := cdpMark_same s.t a.sector a.len
      exact .same h4 rfl rfl h6
  | reserve i ts =>
    obtain ⟨f, a, _, _, _, _, ⟨_, rfl⟩ | ⟨_, _, rfl⟩⟩ := reserve_cases h.log hs
    · exact .same rfl rfl rfl rfl
    · exact .snoc rfl rfl rfl h.log.le (fun ⟨error, e⟩ => EStage.noConfusion e) rfl
  | copy i =>
    obtain ⟨f, off, k, a, hf, hst, hk, _, rfl⟩ := copy_cases hs
    obtain ⟨e, he, _, hes, _⟩ := (h.bios.flight i f hf).idx k hk
    refine .stage rfl rfl rfl he ?_ rfl fun _ error e => EStage.noConfusion e
    rintro ⟨error, herr⟩
    rw [hes, hst] at herr
    exact EStage.noConfusion herr
  | land i =>
    obtain ⟨f, _, _, _, rfl⟩ := land_cases hs
    exact .same rfl rfl rfl rfl
  | endIo i error =>
    obtain ⟨f, hf, hst, _, ⟨k, hlog, hk, rfl⟩ | ⟨_, rfl⟩⟩ := endIo_cases hs
    · obtain ⟨e, he, _, hes, _⟩ := (h.bios.flight i f hf).idx k hk
      have hdue : dueWakes s (.endIo i error) = 1 := by
        show (match s.flights[i]? with | some f => if f.logged then 1 else 0 | none => 0) = 1
        rw [hf]
        exact if_pos hlog
      refine .stage rfl rfl rfl he ?_ rfl fun h0 => ?_
      · rintro ⟨err, herr⟩
        rw [hes, hst] at herr
        exact EStage.noConfusion herr
      · rw [hdue] at h0
        cases h0
    · exact .same rfl rfl rfl rfl
  | call r count nonblock =>
    obtain ⟨_, rfl⟩ := call_cases hs
    exact .same rfl rfl rfl rfl
  | reader r ok =>
    cases reader_cases h hs with
    | tail pos e hpc he hend =>
      obtain ⟨h1, rfl⟩ := he
      have hmem := h.log.mem_live ⟨h1, rfl⟩
      have hb := (h.log.ring.mem hmem).2.2.2.1
      have hlo := (h.log.ring.mem hmem).2.2.1
      have hh := h.log.ring.head
      have hneed := recSize_le_need e
      have hR : RecSize = 56 := rfl
      have hnew : u64 (e.off + e.need) = e.off + e.need := u64_of_lt (by omega)
      refine ⟨Or.inr ⟨⟨e, h1, hend⟩, fun pos hpos => ?_⟩, LogExt.refl _, fun _ _ => ⟨e, h1, hend⟩,
        fun _ hd => hd⟩
      show pos < u64 (e.off + e.need)
      rw [hnew]
      rcases hpos with rfl | ⟨e', he', rfl⟩
      · omega
      · rw [h1] at he'
        obtain rfl := Option.some.inj he'
        omega
    | _ => exact .same rfl rfl rfl rfl
  | clearBegin =>
    obtain rfl := clearBegin_cases hs
    exact .same rfl rfl rfl rfl
  | clearWord =>
    obtain ⟨w, _, _, rfl⟩ := clearWord_cases hs
    exact .same rfl rfl rfl rfl
  | clearDone ok =>
    obtain ⟨w, _, _, rfl⟩ := clearDone_cases hs
    exact .same rfl rfl rfl rfl
  | reread c =>
    change rereadStep cfg s c = some s' at hs
    obtain ⟨_, rfl⟩ := reread_cases hs
    exact .same rfl rfl rfl rfl
  | dtr =>
    obtain ⟨_, _, rfl⟩ := dtr_cases hs
    exact ⟨Or.inl ⟨rfl, rfl⟩, LogExt.refl _, fun _ h => h, fun h0 => by cases h0⟩

end

/-! ## the invariant -/

/-- a position that is looked at is the tail, or the record there -/
def LooksAt (k : KState) : WaitPc → Prop
  | .next (.yes _) pos => k.t.tail ≤ pos → pos = k.t.tail ∨ ∃ e, k.NextAt pos e
  | .found (.yes _) pos => k.t.tail ≤ pos → ∃ e, k.NextAt pos e
  | _ => True

/-- what a reader that is not woken has found is still so -/
def NothingToDo (k : KState) : WaitPc → Prop
  | .dead (.yes false) => ¬TailEnded k
  | .sleeping false => ¬TailEnded k ∧ k.t.dead = false
  | _ => True

structure WaitInv (cfg : Config) (w : WaitSt) : Prop where
  k : KInv cfg w.k
  looks : ∀ r, LooksAt w.k (w.wait r)
  settled : w.wakes = 0 → ∀ r, NothingToDo w.k (w.wait r)

section
variable {cfg : Config} {k k' : KState} {w w' : WaitSt} {due r : Nat} {pc : WaitPc} {ok : Bool}

theorem RingStep.nextAt (h : RingStep k k' due) (hn : k'.nread = k.nread) {pos : Nat}
    (he : ∃ e, k.NextAt pos e) : ∃ e, k'.NextAt pos e := by
  obtain ⟨e, h1, h2⟩ := he
  obtain ⟨e', h3, h4, _⟩ := h.log _ e h1
  exact ⟨e', by rw [hn]; exact h3, h4.trans h2⟩

/-- the tail has not moved past a position that is not behind it -/
theorem RingStep.looks (h : RingStep k k' due) (hl : LooksAt k pc) : LooksAt k' pc := by
  have hmove : ∀ pos, (k.t.tail ≤ pos → pos = k.t.tail ∨ ∃ e, k.NextAt pos e) →
      k'.t.tail ≤ pos → k'.t.tail = k.t.tail ∧ k'.nread = k.nread := by
    intro pos hp hle
    refine h.tail.resolve_right fun ⟨_, hpass⟩ => ?_
    have h1 := hpass _ (Or.inl rfl)
    have h2 := hpass pos (hp (by omega))
    omega
  unfold LooksAt at hl ⊢
  split
  · intro hle
    obtain ⟨h1, h2⟩ := hmove _ hl hle
    rw [h1] at hle ⊢
    exact (hl hle).imp_right (h.nextAt h2)
  · intro hle
    obtain ⟨h1, h2⟩ := hmove _ (fun h => Or.inr (hl h)) hle
    rw [h1] at hle
    exact h.nextAt h2 (hl hle)
  · trivial

theorem RingStep.settled (h : RingStep k k' due) (h0 : due = 0) (hs : NothingToDo k pc) :
    NothingToDo k' pc := by
  unfold NothingToDo at hs ⊢
  split
  · exact fun ht => hs (h.ended h0 ht)
  · refine ⟨fun ht => hs.1 (h.ended h0 ht), Bool.eq_false_iff.mpr fun hd => ?_⟩
    rw [h.dead h0 hd] at hs
    exact absurd hs.2 (by decide)
  · trivial

theorem looksAt_wake (h : LooksAt k pc) : LooksAt k pc.wake := by
  cases pc with
  | next q pos => cases q <;> exact h
  | found q pos => cases q <;> exact h
  | _ => trivial

theorem settled_wake : NothingToDo k pc.wake := by
  cases pc with
  | dead q => cases q <;> trivial
  | _ => trivial

theorem WaitInv.goto (h : WaitInv cfg w) (hl : LooksAt w.k pc)
    (hs : w.wakes = 0 → NothingToDo w.k pc) : WaitInv cfg (w.goto r pc) := by
  refine ⟨h.k, fun r' => ?_, fun h0 r' => ?_⟩
  · show LooksAt w.k (Function.update w.wait r pc r')
    by_cases hr : r' = r
    · subst hr
      rw [Function.update_self]
      exact hl
    · rw [Function.update_of_ne hr]
      exact h.looks r'
  · show NothingToDo w.k (Function.update w.wait r pc r')
    by_cases hr : r' = r
    · subst hr
      rw [Function.update_self]
      exact hs h0
    · rw [Function.update_of_ne hr]
      exact h.settled h0 r'

theorem WaitInv.leave (h : WaitInv cfg w) (hs : w.leave cfg r ok = some w') : WaitInv cfg w' := by
  obtain ⟨k, hk, rfl⟩ := Option.map_eq_some_iff.mp hs
  have hring := kstep_ring h.k hk
  exact ⟨h.k.step hk, fun r' => hring.looks (h.looks r'),
    fun h0 r' => hring.settled rfl (h.settled h0 r')⟩

theorem WaitInv.kernel {a : KAct} (h : WaitInv cfg w) (hs : wstep cfg w (.kernel a) = some w') :
    WaitInv cfg w' := by
  obtain ⟨_, hs⟩ := Option.ite_none_left_eq_some.mp hs
  obtain ⟨k, hk, rfl⟩ := Option.map_eq_some_iff.mp hs
  have hring := kstep_ring h.k hk
  have henter : ∀ r, a.enters w.wait r = w.wait r ∨ a.enters w.wait r = .load .no := by
    intro r
    cases a with
    | reader r' ok =>
      show Function.update w.wait r' (.load .no) r = _ ∨ _
      by_cases hr : r = r'
      · subst hr
        exact Or.inr (Function.update_self _ _ _)
      · exact Or.inl (Function.update_of_ne hr _ _)
    | _ => exact Or.inl rfl
  refine ⟨h.k.step hk, fun r => ?_, fun h0 r => ?_⟩
  · show LooksAt k (a.enters w.wait r)
    rcases henter r with e | e
    · rw [e]
      exact hring.looks (h.looks r)
    · rw [e]
      trivial
  · show NothingToDo k (a.enters w.wait r)
    change w.wakes + dueWakes w.k a = 0 at h0
    rcases henter r with e | e
    · rw [e]
      exact hring.settled (by omega) (h.settled (by omega) r)
    · rw [e]
      trivial

theorem WaitInv.wait (h : WaitInv cfg w) (hg : NotBehind w (.wait r ok))
    (hs : waitAt cfg w r ok (w.wait r) = some w') : WaitInv cfg w' := by
  have hl := h.looks r
  have hd := fun h0 => h.settled h0 r
  unfold NotBehind at hg
  dsimp only at hg
  cases hpc : w.wait r with
  | load q =>
    rw [hpc] at hs
    cases hs
    refine h.goto ?_ fun _ => trivial
    cases q with
    | yes b => exact fun _ => Or.inl rfl
    | _ => trivial
  | next q pos =>
    rw [hpc] at hs hl hg
    dsimp only [waitAt] at hs
    cases q with
    | yes b =>
      rcases h.k.log.next (hl hg) with ⟨hnull, hn⟩ | ⟨e, p, he, hp | hp⟩
      · rw [hnull] at hs
        cases hs
        have hno : ¬TailEnded w.k := fun ⟨e, he, _⟩ => by
          rw [hn, List.getElem?_eq_none (Nat.le_refl _)] at he
          cases he
        refine h.goto trivial fun _ => ?_
        cases b with
        | false => exact hno
        | true => trivial
      · rw [hp] at hs
        cases hs
        exact h.goto (fun _ => Or.inr ⟨e, he⟩) fun _ => trivial
      · rw [hp] at hs
        cases hs
        exact h.goto (fun _ => ⟨e, he⟩) fun _ => trivial
    | no => split at hs <;> cases hs <;> exact h.goto trivial fun _ => trivial
    | intr => split at hs <;> cases hs <;> exact h.goto trivial fun _ => trivial
  | found q pos =>
    rw [hpc] at hs hl hg
    dsimp only [waitAt] at hs
    by_cases hst : stateAt w.k.t pos = StCommitted
    · rw [if_pos hst] at hs
      exact h.leave hs
    · rw [if_neg hst] at hs
      cases hs
      refine h.goto trivial fun _ => ?_
      cases q with
      | yes b =>
        obtain ⟨e, he⟩ := hl hg
        cases b with
        | false =>
          rintro ⟨e', he', hend⟩
          rw [he.1] at he'
          exact hst ((h.k.log.stateAt he).mpr (Option.some.inj he' ▸ hend))
        | true => trivial
      | _ => trivial
  | dead q =>
    rw [hpc] at hs hd
    dsimp only [waitAt] at hs
    by_cases hdead : w.k.t.dead = true
    · rw [if_pos hdead] at hs
      exact h.leave hs
    · rw [if_neg hdead] at hs
      cases q with
      | no =>
        cases hs
        exact h.goto trivial fun _ => trivial
      | yes b =>
        cases hs
        refine h.goto trivial fun h0 => ?_
        cases b with
        | false => exact ⟨hd h0, Bool.eq_false_iff.mpr hdead⟩
        | true => trivial
      | intr => exact h.leave hs
  | prepare =>
    rw [hpc] at hs
    cases hs
    exact h.goto trivial fun _ => trivial
  | sleeping b =>
    rw [hpc] at hs
    dsimp only [waitAt] at hs
    obtain ⟨_, hs⟩ := Option.ite_none_right_eq_some.mp hs
    cases hs
    exact h.goto trivial fun _ => trivial

theorem wstep_inv {a : WaitAct} (h : WaitInv cfg w) (hg : NotBehind w a)
    (hs : wstep cfg w a = some w') : WaitInv cfg w' := by
  cases a with
  | kernel a => exact h.kernel hs
  | wait r ok =>
    obtain ⟨_, hs⟩ := Option.ite_none_right_eq_some.mp hs
    exact h.wait hg hs
  | signal r =>
    unfold wstep at hs
    dsimp only at hs
    split at hs
    · cases hs
      exact h.goto trivial fun _ => trivial
    · cases hs
  | wake =>
    obtain ⟨_, hs⟩ := Option.ite_none_right_eq_some.mp hs
    cases hs
    exact ⟨h.k, fun r => looksAt_wake (h.looks r), fun _ r => settled_wake⟩

theorem WaitInv.init (cfg : Config) (dev : Nat → UInt8) : WaitInv cfg (.init cfg dev) :=
  ⟨KInv.init cfg dev, fun _ => trivial, fun _ _ => trivial⟩

/-- **A sleeper that is not woken has nothing to do.** -/
theorem WaitInv.not_lost (h : WaitInv cfg w) (r : Nat) : ¬w.Lost r := by
  rintro ⟨_, hpc, hready, h0⟩
  have hs := h.settled h0 r
  rw [hpc] at hs
  rcases hready with hr | hd
  · exact hs.1 (h.k.log.readable_iff.mp hr)
  · rw [hs.2] at hd
    cases hd

/-! ## runs -/

theorem wstep_kstep {a : WaitAct} (hs : wstep cfg w a = some w') :
    w'.k = w.k ∨ ∃ b, kstep cfg w.k b = some w'.k := by
  have hleave : ∀ r ok, w.leave cfg r ok = some w' → ∃ b, kstep cfg w.k b = some w'.k := by
    intro r ok hl
    obtain ⟨k, hk, rfl⟩ := Option.map_eq_some_iff.mp hl
    exact ⟨_, hk⟩
  cases a with
  | kernel a =>
    obtain ⟨_, hs⟩ := Option.ite_none_left_eq_some.mp hs
    obtain ⟨k, hk, rfl⟩ := Option.map_eq_some_iff.mp hs
    exact Or.inr ⟨a, hk⟩
  | wait r ok =>
    obtain ⟨_, hs⟩ := Option.ite_none_right_eq_some.mp hs
    unfold waitAt at hs
    split at hs
    · cases hs
      exact Or.inl rfl
    · split at hs <;> cases hs <;> exact Or.inl rfl
    · split at hs
      · exact Or.inr (hleave _ _ hs)
      · cases hs
        exact Or.inl rfl
    · split at hs
      · exact Or.inr (hleave _ _ hs)
      · split at hs
        · cases hs
          exact Or.inl rfl
        · cases hs
          exact Or.inl rfl
        · exact Or.inr (hleave _ _ hs)
    · cases hs
      exact Or.inl rfl
    · obtain ⟨_, hs⟩ := Option.ite_none_right_eq_some.mp hs
      cases hs
      exact Or.inl rfl
  | signal r =>
    unfold wstep at hs
    dsimp only at hs
    split at hs
    · cases hs
      exact Or.inl rfl
    · cases hs
  | wake =>
    obtain ⟨_, hs⟩ := Option.ite_none_right_eq_some.mp hs
    cases hs
    exact Or.inl rfl

theorem wstep_kinv {a : WaitAct} (h : KInv cfg w.k) (hs : wstep cfg w a = some w') :
    KInv cfg w'.k := by
  rcases wstep_kstep hs with e | ⟨b, hb⟩
  · rw [e]
    exact h
  · exact h.step hb

/-- the position that is looked at is not behind the tail -/
def AheadOfTail (k : KState) : WaitPc → Prop
  | .next (.yes _) pos => k.t.tail ≤ pos
  | .found (.yes _) pos => k.t.tail ≤ pos
  | _ => True

theorem notBehind_iff : NotBehind w (.wait r ok) ↔ AheadOfTail w.k (w.wait r) := Iff.rfl

theorem notBehind_goto (h : AheadOfTail w.k pc) : NotBehind (w.goto r pc) (.wait r ok) := by
  rw [notBehind_iff, show (w.goto r pc).wait r = pc from Function.update_self _ _ _]
  exact h

theorem notBehind_leave {ok' : Bool} (hpc : (w.k.readers r).pc = .asleep)
    (hg : NotBehind w (.wait r ok)) (hs : w.leave cfg r ok' = some w') :
    NotBehind w' (.wait r ok) := by
  obtain ⟨k, hk, rfl⟩ := Option.map_eq_some_iff.mp hs
  have ht : k.t = w.k.t := by
    change readerAt w.k r ok' (w.k.readers r).pc = some k at hk
    rw [hpc] at hk
    dsimp only [readerAt] at hk
    cases ok' <;> cases hk <;> rfl
  unfold NotBehind at hg ⊢
  dsimp only at hg ⊢
  rw [ht]
  exact hg

/-- **The condition holds while nobody comes between.** -/
theorem WaitInv.wait_notBehind (h : WaitInv cfg w) (hg : NotBehind w (.wait r ok))
    (hs : wstep cfg w (.wait r ok) = some w') : NotBehind w' (.wait r ok) := by
  obtain ⟨hasleep, hs⟩ := Option.ite_none_right_eq_some.mp hs
  have hahead : ∀ {e : Entry} {p : Nat}, w.k.NextAt p e → w.k.t.tail ≤ p := by
    rintro e p ⟨h1, rfl⟩
    exact (h.k.log.ring.mem (h.k.log.mem_live ⟨h1, rfl⟩)).2.2.1
  have hl := h.looks r
  have hpos := notBehind_iff.mp hg
  cases hpc : w.wait r with
  | load q =>
    rw [hpc] at hs
    cases hs
    refine notBehind_goto ?_
    cases q with
    | yes b => exact Nat.le_refl _
    | _ => trivial
  | next q pos =>
    rw [hpc] at hs hl hpos
    dsimp only [waitAt] at hs
    cases q with
    | yes b =>
      rcases h.k.log.next (hl hpos) with ⟨hnull, _⟩ | ⟨e, p, he, hp | hp⟩
      · rw [hnull] at hs
        cases hs
        exact notBehind_goto trivial
      · rw [hp] at hs
        cases hs
        exact notBehind_goto (hahead he)
      · rw [hp] at hs
        cases hs
        exact notBehind_goto (hahead he)
    | _ => split at hs <;> cases hs <;> exact notBehind_goto trivial
  | found q pos =>
    rw [hpc] at hs
    dsimp only [waitAt] at hs
    split at hs
    · exact notBehind_leave hasleep hg hs
    · cases hs
      exact notBehind_goto trivial
  | dead q =>
    rw [hpc] at hs
    dsimp only [waitAt] at hs
    split at hs
    · exact notBehind_leave hasleep hg hs
    · split at hs
      · cases hs
        exact notBehind_goto trivial
      · cases hs
        exact notBehind_goto trivial
      · exact notBehind_leave hasleep hg hs
  | prepare =>
    rw [hpc] at hs
    cases hs
    exact notBehind_goto trivial
  | sleeping b =>
    rw [hpc] at hs
    obtain ⟨_, hs⟩ := Option.ite_none_right_eq_some.mp hs
    cases hs
    exact notBehind_goto trivial

/-- **An evaluation with nobody in between**, from the load of the tail on, meets the condition. -/
theorem alone_notBehind {q : OnQueue} (h : WaitInv cfg w) (hpc : w.wait r = .load q) (n : Nat) :
    Meets (wstep cfg) NotBehind w (List.replicate n (.wait r true)) := by
  have hg : NotBehind w (.wait r true) := by
    unfold NotBehind
    dsimp only
    rw [hpc]
    trivial
  clear hpc
  induction n generalizing w with
  | zero => trivial
  | succ n ih =>
    exact ⟨hg, fun w' hs => ih (wstep_inv h hg hs) (h.wait_notBehind hg hs)⟩

theorem wake_wakes (hs : wstep cfg w .wake = some w') (r : Nat) : w'.wait r ≠ .sleeping false := by
  obtain ⟨_, hs⟩ := Option.ite_none_right_eq_some.mp hs
  cases hs
  show (w.wait r).wake ≠ _
  cases w.wait r <;> exact fun e => by cases e

/-- **Poll and read agree, and no wake-up is lost** in a run in which nothing that a reader on the queue
looks at has been consumed since. -/
theorem poll_read_wakeup (cfg : Config) (dev : Nat → UInt8) (as : List WaitAct) (w : WaitSt)
    (h : exec (wstep cfg) (.init cfg dev) as = some w) :
    (∀ r count, w.k.t.ringSize / MaxRecDiv ≤ count → Agree cfg w.k r count) ∧
      (Meets (wstep cfg) NotBehind (.init cfg dev) as → ∀ r, ¬w.Lost r) := by
  constructor
  · intro r count hcount
    have hk : KInv cfg w.k := exec_invariant (P:=fun w => KInv cfg w.k)
      (fun w a w' hi hs => wstep_kinv hi hs) (KInv.init cfg dev) h
    exact hk.agree hcount
  · intro hg r
    have hi : WaitInv cfg w := exec_invariant_meets
      (fun w a w' hi hg hs => wstep_inv hi hg hs) (.init cfg dev) hg h
    exact hi.not_lost r

end

/-- reader 0 finds the ring empty and goes to sleep; then a flush comes and goes -/
def wokenRun : List WaitAct :=
  (.call 0 4096 false :: List.replicate 3 (.reader 0 true)).map .kernel ++
    List.replicate 7 (.wait 0 true) ++ flushed.map .kernel ++ [.wake]

set_option maxRecDepth 10000 in
theorem poll_read_wakeup_woken : ∃ w, exec (wstep smallConfig) (.init smallConfig fun _ => 0) wokenRun
    = some w ∧ w.wait 0 = .sleeping true ∧ Agree smallConfig w.k 0 262144 ∧ ∀ r, ¬w.Lost r := by
  have h : (exec (wstep smallConfig) (.init smallConfig fun _ => 0) wokenRun).any
      (fun w => w.wait 0 == .sleeping true && w.k.t.ringSize == 1048576) = true := by
    decide +kernel
  obtain ⟨w, hw, hp⟩ := (Option.any_eq_true _ _).mp h
  rw [Bool.and_eq_true, beq_iff_eq, beq_iff_eq] at hp
  obtain ⟨hagree, hlost⟩ := poll_read_wakeup smallConfig (fun _ => 0) wokenRun w hw
  refine ⟨w, hw, hp.1, hagree 0 262144 (by rw [hp.2]; decide), hlost ?_⟩
  have hmeets : meetsB (wstep smallConfig) (fun w a => decide (NotBehind w a))
      (.init smallConfig fun _ => 0) wokenRun = true := by
    decide +kernel
  exact meets_of_meetsB (fun w a hb => of_decide_eq_true hb) hmeets

/-- the ring is full; reader 0 has loaded the tail when reader 1 takes the record there, and a flush
gets its room -/
def overtakenRun : List WaitAct :=
  let big : Bio := ⟨.write, 0, 261632, false, false, fun _ => 0⟩
  let small : Bio := ⟨.write, 0, 512, false, false, fun _ => 0⟩
  let kernel (l : List KAct) : List WaitAct := l.map .kernel
  let reserve (i : Nat) (b : Bio) : List KAct := [.map b, .reserve i 0]
  let reads (r k : Nat) : List KAct := List.replicate k (.reader r true)
  kernel (reserve 0 flushBio ++ reserve 1 big ++ reserve 2 big ++ reserve 3 big ++ reserve 4 big ++
      reserve 5 small ++ reserve 6 small ++ reserve 7 small ++ reserve 8 flushBio ++
      [.copy 1, .land 1, .endIo 1 false]) ++ [.wake] ++
    -- the record at the tail is not committed when the wait begins
    kernel (.call 0 4096 false :: reads 0 4) ++ List.replicate 4 (.wait 0 true) ++
    kernel [.copy 0, .land 0, .endIo 0 false] ++ [.wake] ++ List.replicate 2 (.wait 0 true) ++
    kernel (.call 1 100 true :: reads 1 9) ++ kernel (reserve 9 flushBio) ++
    List.replicate 3 (.wait 0 true)

set_option maxRecDepth 10000 in
/-- **A wake-up is lost.**  Reader 0 has looked at the flush instead of the record behind it, which
was committed before it was on the queue. -/
theorem wakeup_lost : ∃ w, exec (wstep smallConfig) (.init smallConfig fun _ => 0) overtakenRun
    = some w ∧ w.Lost 0 := by
  have h : (exec (wstep smallConfig) (.init smallConfig fun _ => 0) overtakenRun).any
      (fun w => decide (w.Lost 0)) = true := by
    decide +kernel
  obtain ⟨w, hw, hp⟩ := (Option.any_eq_true _ _).mp h
  exact ⟨w, hw, of_decide_eq_true hp⟩

end CDP
