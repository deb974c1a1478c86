import DmCdp.Kernel.RingLayout

/-!
# Sequence numbers, gap flags and counters

The machine with the other `ioctl`s of the device.  The ghost list `outcomes` says of every
finished `cdp_reserve`, in order, whether it reserved a record or dropped the bio.

* `ioctlStep`     the stores of `DM_CDP_IOC_BITMAP_CLEAR` and `DM_CDP_IOC_RESET_STATS`;
* `DroppedBefore` a bio was dropped when exactly `k` records had been reserved;
* `Accounted`     record `k`, in the ring and as it was handed out, has seq `k` and the flag of a
                  drop right before it;
* `accounts`      this holds in every run; without a reset `seq_next + overflows` is the number of
                  bios whose reservation has finished.
-/

set_option linter.unusedVariables false

namespace CDP
open Img Mach Slots

/-! ## the machine -/

/-- the stores of the two `ioctl`s; `bitmap_zero` is one step here, as no step below reads the
bitmap -/
inductive IoctlStore where
  | bitmapZero
  | overflowedFalse
  | recordsZero
  | bytesZero
  | overflowsZero

def ioctlStep (t : Target) : IoctlStore → Target
  | .bitmapZero => { t with bitmap := fun _ => false }
  | .overflowedFalse => { t with overflowed := false }
  | .recordsZero => { t with records := 0 }
  | .bytesZero => { t with bytesLogged := 0 }
  | .overflowsZero => { t with overflows := 0 }

structure TallySt where
  k : KState
  -- ghost: of each finished `cdp_reserve`, whether it has reserved a record
  outcomes : List Bool

def TallySt.init (cfg : Config) (dev : Nat → UInt8) : TallySt := ⟨.init cfg dev, []⟩

inductive TallyAct where
  | target (a : KAct)
  | ioctl (w : IoctlStore)

/-- what a step of the target adds to the outcomes -/
def outcome (log log' : List Entry) : KAct → List Bool
  | .reserve _ _ => [decide (log.length < log'.length)]
  | _ => []

def tallyStep (cfg : Config) (s : TallySt) : TallyAct → Option TallySt
  | .target a =>
    (kstep cfg s.k a).map fun k => ⟨k, s.outcomes ++ outcome s.k.log k.log a⟩
  | .ioctl w => some { s with k := { s.k with t := ioctlStep s.k.t w } }

/-! ## drops between two reservations -/

/-- a drop when exactly `k` records had been reserved -/
def DroppedBefore (outcomes : List Bool) (k : Nat) : Prop :=
  ∃ i, outcomes[i]? = some false ∧ (outcomes.take i).count true = k

theorem droppedBefore_le {o : List Bool} {k : Nat} (h : DroppedBefore o k) : k ≤ o.count true := by
  obtain ⟨i, _, rfl⟩ := h
  exact (List.take_sublist i o).count_le true

theorem droppedBefore_snoc {o : List Bool} {b : Bool} {k : Nat} :
    DroppedBefore (o ++ [b]) k ↔ DroppedBefore o k ∨ b = false ∧ k = o.count true := by
  constructor
  · rintro ⟨i, hi, hk⟩
    by_cases hlt : i < o.length
    · rw [List.getElem?_append_left hlt] at hi
      rw [List.take_append_of_le_length hlt.le] at hk
      exact Or.inl ⟨i, hi, hk⟩
    · have hi' := (List.getElem?_eq_some_iff.mp hi).1
      rw [List.length_append, List.length_singleton] at hi'
      obtain rfl : i = o.length := by omega
      rw [push_last] at hi
      rw [List.take_append_of_le_length le_rfl, List.take_length] at hk
      exact Or.inr ⟨Option.some.inj hi, hk.symm⟩
  · rintro (⟨i, hi, hk⟩ | ⟨rfl, rfl⟩)
    · have hlt := (List.getElem?_eq_some_iff.mp hi).1
      refine ⟨i, ?_, ?_⟩
      · rw [List.getElem?_append_left hlt]
        exact hi
      · rw [List.take_append_of_le_length hlt.le]
        exact hk
    · refine ⟨o.length, ?_, ?_⟩
      · exact push_last _ _
      · rw [List.take_append_of_le_length le_rfl, List.take_length]

/-! ## bios whose reservation has finished -/

/-- a loggable bio that is past `cdp_reserve` -/
def Flight.reserved (cfg : Config) (f : Flight) : Bool :=
  (cdpMapArgs cfg f.bio).isSome && decide (f.stage ≠ .marked)

/-- the number of loggable bios for which `cdp_reserve` has finished -/
def KState.finished (cfg : Config) (s : KState) : Nat := s.flights.countP (Flight.reserved cfg)

theorem countP_modify {α : Type} (p : α → Bool) (l : List α) (i : Nat) (g : α → α) (x : α)
    (h : l[i]? = some x) : (l.modify i g).countP p + (if p x then 1 else 0)
      = l.countP p + if p (g x) then 1 else 0 := by
  induction l generalizing i with
  | nil => cases h
  | cons y l ih =>
    cases i with
    | zero =>
      cases h
      rw [List.modify_zero_cons, List.countP_cons, List.countP_cons]
      omega
    | succ i =>
      rw [List.modify_succ_cons, List.countP_cons, List.countP_cons]
      have := ih i h
      omega

/-! ## the property -/

structure Accounted (cfg : Config) (s : TallySt) : Prop where
  /-- the records carry seq 0, 1, 2, ... -/
  seq : ∀ (k : Nat) (e : Entry), s.k.log[k]? = some e → e.header.seq = k
  /-- record `k` carries the flag iff a bio was dropped right before it -/
  gap : ∀ (k : Nat) (e : Entry), s.k.log[k]? = some e →
    (hasFlag e.header.flags FGapBefore = true ↔ DroppedBefore s.outcomes k)
  /-- the header of a record that has not been taken is what a load of the ring sees -/
  ring : ∀ (k : Nat) (e : Entry), s.k.log[k]? = some e → s.k.nread ≤ k →
    Rec.load s.k.t.ring (e.off % s.k.t.ringSize) = e.header
  /-- the others have been handed out, header and payload -/
  taken : s.k.out ++ s.k.held = blocks (s.k.log.take s.k.nread)
  /-- `gap_pending` says whether one was dropped after the last record -/
  pending : s.k.t.gapPending = true ↔ DroppedBefore s.outcomes s.k.log.length
  /-- each outcome is that of one bio -/
  finished : s.outcomes.length = s.k.finished cfg
  granted : s.outcomes.count true = s.k.log.length
  next : s.k.t.seqNext = s.k.log.length

/-! ## what the steps keep -/

structure TallyInv (cfg : Config) (s : TallySt) : Prop where
  k : KInv cfg s.k
  granted : s.outcomes.count true = s.k.log.length
  gap : ∀ (k : Nat) (e : Entry), s.k.log[k]? = some e →
    (hasFlag e.hdr.flags FGapBefore = true ↔ DroppedBefore s.outcomes k)
  pending : s.k.t.gapPending = true ↔ DroppedBefore s.outcomes s.k.log.length
  finished : s.outcomes.length = s.k.finished cfg

theorem TallyInv.init (cfg : Config) (dev : Nat → UInt8) : TallyInv cfg (TallySt.init cfg dev) := by
  refine ⟨KInv.init cfg dev, rfl, fun k e h => ?_, ?_, rfl⟩
  · cases h
  · constructor
    · intro h
      cases h
    · rintro ⟨i, hi, _⟩
      cases hi

section
variable {cfg : Config} {k k' : KState} {s s' : TallySt}

/-- a step that finishes no reservation -/
structure NoReserve (cfg : Config) (k k' : KState) : Prop where
  gap : k'.t.gapPending = k.t.gapPending
  overflows : k'.t.overflows = k.t.overflows
  hdrs : k'.log.map Entry.hdr = k.log.map Entry.hdr
  finished : k'.finished cfg = k.finished cfg

theorem NoReserve.length (h : NoReserve cfg k k') : k'.log.length = k.log.length := by
  have := congrArg List.length h.hdrs
  rwa [List.length_map, List.length_map] at this

theorem NoReserve.modify {i : Nat} {f : Flight} {g : Flight → Flight} (hf : k.flights[i]? = some f)
    (hfl : k'.flights = k.flights.modify i g) (hb : (g f).bio = f.bio)
    (hst : f.stage ≠ .marked) (hst' : (g f).stage ≠ .marked)
    (ht : k'.t.gapPending = k.t.gapPending ∧ k'.t.overflows = k.t.overflows)
    (hl : k'.log.map Entry.hdr = k.log.map Entry.hdr) : NoReserve cfg k k' := by
  refine ⟨ht.1, ht.2, hl, ?_⟩
  unfold KState.finished
  rw [hfl]
  have hc := countP_modify (Flight.reserved cfg) k.flights i g f hf
  have hr : (g f).reserved cfg = f.reserved cfg := by
    unfold Flight.reserved
    rw [hb, decide_eq_true hst, decide_eq_true hst']
  rw [hr] at hc
  omega

theorem map_hdr_modify (l : List Entry) (j : Nat) (st : EStage) :
    (l.modify j (Entry.setStage st)).map Entry.hdr = l.map Entry.hdr := by
  apply List.ext_getElem?
  intro n
  rw [List.getElem?_map, List.getElem?_map, List.getElem?_modify]
  cases l[n]? with
  | none => rfl
  | some e =>
    by_cases hj : j = n
    · simp only [hj, if_true]
      rfl
    · simp only [hj, if_false]
      rfl

theorem NoReserve.same (hg : k'.t.gapPending = k.t.gapPending) (ho : k'.t.overflows = k.t.overflows)
    (hl : k'.log = k.log) (hf : k'.flights = k.flights) : NoReserve cfg k k' := by
  refine ⟨hg, ho, by rw [hl], ?_⟩
  unfold KState.finished
  rw [hf]

theorem NoReserve.map {b : Bio} (hs : mapStep cfg k b = some k') : NoReserve cfg k k' := by
  have hone : ∀ {f : Flight} {t : Target}, f.reserved cfg = false →
      t.gapPending = k.t.gapPending → t.overflows = k.t.overflows →
      NoReserve cfg k { k with t := t, flights := k.flights ++ [f] } := by
    intro f t hf hg ho
    refine ⟨hg, ho, rfl, ?_⟩
    show (k.flights ++ [f]).countP (Flight.reserved cfg) = k.flights.countP (Flight.reserved cfg)
    rw [List.countP_append, List.countP_singleton, hf]
    rfl
  obtain ⟨_, _, ⟨ha, rfl⟩ | ⟨a, ha, rfl⟩⟩ := map_cases hs
  · refine hone (t:=k.t) ?_ rfl rfl
    show ((cdpMapArgs cfg b).isSome && _) = false
    rw [ha]
    rfl
  · refine hone ?_ ?_ ?_
    · show (_ && decide (Stage.marked ≠ Stage.marked)) = false
      rw [decide_eq_false (fun h => h rfl), Bool.and_false]
    · unfold cdpMark
      split <;> rfl
    · unfold cdpMark
      split <;> rfl

theorem NoReserve.step {a : KAct} (h : KInv cfg k) (hs : kstep cfg k a = some k')
    (ha : ∀ i ts, a ≠ .reserve i ts) : NoReserve cfg k k' := by
  cases a with
  | map b => exact .map hs
  | reserve i ts => exact absurd rfl (ha i ts)
  | copy i =>
    obtain ⟨f, off, j, a, hf, hst, _, _, rfl⟩ := copy_cases hs
    exact .modify hf rfl rfl (by rw [hst]; exact Stage.noConfusion) Stage.noConfusion ⟨rfl, rfl⟩
      (map_hdr_modify _ _ _)
  | land i =>
    obtain ⟨f, hf, hst, _, rfl⟩ := land_cases hs
    have hne : f.stage ≠ .marked := by rw [hst]; exact Stage.noConfusion
    exact .modify hf rfl rfl hne hne ⟨rfl, rfl⟩ rfl
  | endIo i error =>
    obtain ⟨f, hf, hst, _, ⟨j, _, _, rfl⟩ | ⟨_, rfl⟩⟩ := endIo_cases hs
    · exact .modify hf rfl rfl (by rw [hst]; exact Stage.noConfusion) Stage.noConfusion ⟨rfl, rfl⟩
        (map_hdr_modify _ _ _)
    · exact .modify hf rfl rfl (by rw [hst]; exact Stage.noConfusion) Stage.noConfusion ⟨rfl, rfl⟩ rfl
  | call r count nonblock =>
    obtain ⟨_, rfl⟩ := call_cases hs
    exact .same rfl rfl rfl rfl
  | reader r ok => cases reader_cases h hs <;> exact .same rfl rfl rfl rfl
  | clearBegin =>
    obtain rfl := clearBegin_cases hs
    exact .same rfl rfl rfl rfl
  | clearWord =>
    obtain ⟨w, _, _, rfl⟩ := clearWord_cases hs
    exact .same rfl rfl rfl rfl
  | clearDone ok =>
    obtain ⟨w, _, _, rfl⟩ := clearDone_cases hs
    exact .same rfl rfl rfl rfl
  | reread c =>
    change rereadStep cfg k c = some k' at hs
    obtain ⟨_, rfl⟩ := reread_cases hs
    refine ⟨rfl, rfl, rfl, ?_⟩
    show (k.flights.map _).countP _ = k.flights.countP _
    rw [List.countP_map]
    rfl
  | dtr =>
    obtain ⟨_, _, rfl⟩ := dtr_cases hs
    exact .same rfl rfl rfl rfl

theorem TallyInv.quiet (h : TallyInv cfg s) (hk : KInv cfg k') (hn : NoReserve cfg s.k k') :
    TallyInv cfg ⟨k', s.outcomes⟩ := by
  refine ⟨hk, h.granted.trans hn.length.symm, fun j e he => ?_, ?_, h.finished.trans hn.finished.symm⟩
  · have hm : (s.k.log.map Entry.hdr)[j]? = some e.hdr := by
      rw [← hn.hdrs, List.getElem?_map]
      exact congrArg (Option.map Entry.hdr) he
    rw [List.getElem?_map] at hm
    obtain ⟨e', he', hh⟩ := Option.map_eq_some_iff.mp hm
    rw [← hh]
    exact h.gap j e' he'
  · show k'.t.gapPending = true ↔ DroppedBefore s.outcomes k'.log.length
    rw [hn.gap, hn.length]
    exact h.pending

theorem finished_modify {i : Nat} {f : Flight} {a : LogArgs} {g : Flight → Flight} {t : Target}
    {log : List Entry} (hf : k.flights[i]? = some f) (hst : f.stage = .marked)
    (ha : cdpMapArgs cfg f.bio = some a) (hb : (g f).bio = f.bio) (hst' : (g f).stage ≠ .marked) :
    KState.finished cfg { k with t := t, flights := k.flights.modify i g, log := log }
      = k.finished cfg + 1 := by
  have hc := countP_modify (Flight.reserved cfg) k.flights i g f hf
  have h0 : f.reserved cfg = false := by
    unfold Flight.reserved
    rw [hst, decide_eq_false (fun h => h rfl), Bool.and_false]
  have h1 : (g f).reserved cfg = true := by
    unfold Flight.reserved
    rw [hb, ha, decide_eq_true hst']
    rfl
  rw [h0, h1] at hc
  exact hc

theorem TallyInv.dropped {i : Nat} {f : Flight} {a : LogArgs} (h : TallyInv cfg s)
    (hf : s.k.flights[i]? = some f) (hst : f.stage = .marked)
    (ha : cdpMapArgs cfg f.bio = some a)
    (hk : KInv cfg { s.k with t := s.k.t.overflow, flights := s.k.flights.modify i Flight.drop }) :
    TallyInv cfg ⟨{ s.k with t := s.k.t.overflow, flights := s.k.flights.modify i Flight.drop },
      s.outcomes ++ [false]⟩ := by
  refine ⟨hk, ?_, fun j e he => ?_, ?_, ?_⟩
  · show (s.outcomes ++ [false]).count true = s.k.log.length
    rw [List.count_append, h.granted]
    rfl
  · rw [droppedBefore_snoc, h.gap j e he]
    have hj := (List.getElem?_eq_some_iff.mp he).1
    have hg := h.granted
    constructor
    · exact Or.inl
    · rintro (hd | ⟨_, rfl⟩)
      · exact hd
      · change s.outcomes.count true < s.k.log.length at hj
        omega
  · refine ⟨fun _ => ?_, fun _ => rfl⟩
    rw [droppedBefore_snoc]
    exact Or.inr ⟨rfl, h.granted.symm⟩
  · show (s.outcomes ++ [false]).length = _
    rw [List.length_append, h.finished]
    exact (finished_modify hf hst ha rfl Stage.noConfusion).symm

/-- **A reserved record** takes the flag of the drops before it. -/
theorem TallyInv.granting {i ts : Nat} {f : Flight} {a : LogArgs} {g : Flight → Flight}
    (h : TallyInv cfg s) (hf : s.k.flights[i]? = some f) (hst : f.stage = .marked)
    (ha : cdpMapArgs cfg f.bio = some a) (hb : (g f).bio = f.bio) (hst' : (g f).stage ≠ .marked)
    (hs' : k' = { s.k with
      t := s.k.t.grant a.type a.flags a.sector a.len a.payload ts
      flights := s.k.flights.modify i g
      log := s.k.log ++ [s.k.t.newEntry a.type a.flags a.sector a.len a.payload ts f.bio.data] })
    (hk : KInv cfg k') : TallyInv cfg ⟨k', s.outcomes ++ [true]⟩ := by
  have hlen : k'.log.length = s.k.log.length + 1 := by
    rw [hs', List.length_append]
    rfl
  refine ⟨hk, ?_, fun j e he => ?_, ?_, ?_⟩
  · show (s.outcomes ++ [true]).count true = k'.log.length
    rw [List.count_append, h.granted, hlen]
    rfl
  · have hkeep : DroppedBefore (s.outcomes ++ [true]) j ↔ DroppedBefore s.outcomes j := by
      rw [droppedBefore_snoc]
      exact ⟨fun hd => hd.resolve_right fun hd => Bool.noConfusion hd.1, Or.inl⟩
    rw [hkeep]
    change k'.log[j]? = some e at he
    rw [hs'] at he
    rcases push_at he with he | ⟨rfl, rfl⟩
    · exact h.gap j e he
    · rw [← h.pending]
      show hasFlag (if s.k.t.gapPending then a.flags ||| FGapBefore else a.flags) FGapBefore = true ↔ _
      rw [cdpMapArgs_flags ha, hasFlag_gap]
  · constructor
    · intro hg
      rw [hs'] at hg
      cases hg
    · intro hd
      change DroppedBefore (s.outcomes ++ [true]) k'.log.length at hd
      rw [droppedBefore_snoc, hlen] at hd
      rcases hd with hd | ⟨hb, _⟩
      · have := droppedBefore_le hd
        have hg := h.granted
        omega
      · cases hb
  · show (s.outcomes ++ [true]).length = k'.finished cfg
    rw [List.length_append, h.finished, hs']
    exact (finished_modify hf hst ha hb hst').symm

theorem TallyInv.reserve {i ts : Nat} (h : TallyInv cfg s)
    (hs : kstep cfg s.k (.reserve i ts) = some k') :
    TallyInv cfg ⟨k', s.outcomes ++ outcome s.k.log k'.log (.reserve i ts)⟩ ∧
      k'.t.overflows = if s.k.log.length < k'.log.length then s.k.t.overflows
        else u64 (s.k.t.overflows + 1) := by
  have hk := h.k.step hs
  obtain ⟨f, a, hf, hst, ha, _, ⟨_, rfl⟩ | ⟨_, _, he⟩⟩ := reserve_cases h.k.log hs
  · have hn : ¬s.k.log.length < s.k.log.length := lt_irrefl _
    refine ⟨?_, (if_neg hn).symm⟩
    rw [show outcome s.k.log s.k.log (.reserve i ts) = [false] from
      congrArg (· :: []) (decide_eq_false hn)]
    exact h.dropped hf hst ha hk
  · have hlt : s.k.log.length < k'.log.length := by
      rw [he, List.length_append, List.length_singleton]
      exact Nat.lt_succ_self _
    refine ⟨?_, ?_⟩
    · rw [show outcome s.k.log k'.log (.reserve i ts) = [true] from
        congrArg (· :: []) (decide_eq_true hlt)]
      exact h.granting hf hst ha rfl Stage.noConfusion he hk
    · rw [if_pos hlt, he]
      rfl

theorem KInv.ioctl (h : KInv cfg k) (w : IoctlStore) :
    KInv cfg { k with t := ioctlStep k.t w } ∧
      (ioctlStep k.t w).gapPending = k.t.gapPending := by
  have hf : ∀ t : Target, t.ring = k.t.ring → t.ringSize = k.t.ringSize → t.head = k.t.head →
      t.tail = k.t.tail → t.seqNext = k.t.seqNext → t.dead = k.t.dead →
      KInv cfg { k with t := t } := fun t e1 e2 e3 e4 e5 e6 =>
    h.frame (h.bios.of_same rfl rfl e6) e1 e2 e3 e4 e5 rfl rfl rfl rfl rfl
  cases w with
  | bitmapZero => exact ⟨hf _ rfl rfl rfl rfl rfl rfl, rfl⟩
  | overflowedFalse => exact ⟨hf _ rfl rfl rfl rfl rfl rfl, rfl⟩
  | recordsZero => exact ⟨hf _ rfl rfl rfl rfl rfl rfl, rfl⟩
  | bytesZero => exact ⟨hf _ rfl rfl rfl rfl rfl rfl, rfl⟩
  | overflowsZero => exact ⟨hf _ rfl rfl rfl rfl rfl rfl, rfl⟩

theorem outcome_none {l l' : List Entry} {a : KAct} (hno : ∀ i ts, a ≠ .reserve i ts) :
    outcome l l' a = [] := by
  unfold outcome
  split
  · exact absurd rfl (hno _ _)
  · rfl

theorem TallyInv.step {a : TallyAct} (h : TallyInv cfg s) (hs : tallyStep cfg s a = some s') :
    TallyInv cfg s' := by
  cases a with
  | target a =>
    obtain ⟨k', hk, rfl⟩ := Option.map_eq_some_iff.mp hs
    by_cases ha : ∃ i ts, a = .reserve i ts
    · obtain ⟨i, ts, rfl⟩ := ha
      exact (h.reserve hk).1
    · have hno : ∀ i ts, a ≠ .reserve i ts := fun i ts e => ha ⟨i, ts, e⟩
      rw [outcome_none hno, List.append_nil]
      exact h.quiet (h.k.step hk) (.step h.k hk hno)
  | ioctl w =>
    obtain rfl := Option.some.inj hs
    obtain ⟨hk, hg⟩ := h.k.ioctl w
    refine ⟨hk, h.granted, h.gap, ?_, h.finished⟩
    show (ioctlStep s.k.t w).gapPending = true ↔ _
    rw [hg]
    exact h.pending

end

/-! ## the main results -/

section
variable {cfg : Config} {s s' : TallySt}

theorem Entry.header_seq (e : Entry) : e.header.seq = e.hdr.seq := by
  unfold Entry.header
  cases e.stage <;> rfl

/-- the flags in the ring are those of the reservation, and at the end perhaps `F_ERROR` -/
theorem Entry.header_gap (e : Entry) :
    hasFlag e.header.flags FGapBefore = hasFlag e.hdr.flags FGapBefore := by
  unfold Entry.header
  cases e.stage with
  | reserved => rfl
  | data => rfl
  | ended error =>
    cases error with
    | false => rfl
    | true =>
      show hasFlag (e.hdr.flags ||| FError) FGapBefore = _
      unfold hasFlag
      rw [Nat.and_or_distrib_right, show FError &&& FGapBefore = 0 from rfl, Nat.or_zero]

theorem TallyInv.accounted (h : TallyInv cfg s) : Accounted cfg s := by
  refine ⟨fun k e he => ?_, fun k e he => ?_, fun k e he hn => ?_, h.k.read.out, h.pending, h.finished,
    h.granted, h.k.log.seq⟩
  · have hk := (List.getElem?_eq_some_iff.mp he).1
    obtain ⟨i, f, hf, hfk⟩ := h.k.bios.cover k hk
    obtain ⟨e', he', ⟨a, gap, ts, _, hh, _⟩, _⟩ := (h.k.bios.flight i f hf).idx k hfk
    obtain rfl := Option.some.inj (he.symm.trans he')
    rw [e.header_seq, hh]
    rfl
  · rw [e.header_gap]
    exact h.gap k e he
  · refine h.k.log.ring.load (List.mem_iff_getElem?.mpr ⟨k - s.k.nread, ?_⟩)
    rw [List.getElem?_drop, Nat.add_sub_cancel' hn]
    exact he

def NoReset (_ : TallySt) : TallyAct → Prop
  | .ioctl .overflowsZero => False
  | _ => True

/-- without a reset `overflows` counts the drops -/
structure CountInv (cfg : Config) (s : TallySt) : Prop where
  tally : TallyInv cfg s
  counted : s.k.t.overflows = u64 (s.outcomes.count false)

theorem CountInv.step {a : TallyAct} (h : CountInv cfg s) (hg : NoReset s a)
    (hs : tallyStep cfg s a = some s') : CountInv cfg s' := by
  refine ⟨h.tally.step hs, ?_⟩
  cases a with
  | target a =>
    obtain ⟨k', hk, rfl⟩ := Option.map_eq_some_iff.mp hs
    by_cases ha : ∃ i ts, a = .reserve i ts
    · obtain ⟨i, ts, rfl⟩ := ha
      show k'.t.overflows = u64 ((s.outcomes ++ [decide (s.k.log.length < k'.log.length)]).count false)
      rw [(h.tally.reserve hk).2, List.count_append]
      by_cases hlt : s.k.log.length < k'.log.length
      · rw [if_pos hlt, decide_eq_true hlt, h.counted]
        rfl
      · rw [if_neg hlt, decide_eq_false hlt, h.counted]
        unfold u64
        rw [Nat.mod_add_mod]
        rfl
    · have hno : ∀ i ts, a ≠ .reserve i ts := fun i ts e => ha ⟨i, ts, e⟩
      show k'.t.overflows = u64 ((s.outcomes ++ outcome s.k.log k'.log a).count false)
      rw [outcome_none hno, List.append_nil, (NoReserve.step h.tally.k hk hno).overflows]
      exact h.counted
  | ioctl w =>
    obtain rfl := Option.some.inj hs
    cases w with
    | bitmapZero => exact h.counted
    | overflowedFalse => exact h.counted
    | recordsZero => exact h.counted
    | bytesZero => exact h.counted
    | overflowsZero => exact hg.elim

theorem count_outcomes (o : List Bool) : o.count true + o.count false = o.length := by
  induction o with
  | nil => rfl
  | cons b o ih => cases b <;> simp <;> omega

theorem CountInv.total (h : CountInv cfg s) :
    u64 (s.k.t.seqNext + s.k.t.overflows) = u64 (s.k.finished cfg) := by
  have hc := count_outcomes s.outcomes
  rw [h.tally.k.log.seq, h.counted, ← h.tally.finished, ← hc, ← h.tally.granted]
  unfold u64
  rw [Nat.add_mod_mod]

/-- with fewer than 2^64 bios neither counter has wrapped -/
theorem CountInv.exact (h : CountInv cfg s) (hb : s.k.finished cfg < 2^64) :
    s.k.t.seqNext + s.k.t.overflows = s.k.finished cfg := by
  have hc := count_outcomes s.outcomes
  have hf := h.tally.finished
  rw [h.tally.k.log.seq, h.counted, ← hf, ← hc, ← h.tally.granted, u64_of_lt (by omega)]

end

/-- **Sequence numbers and gap flags account for every bio.** -/
theorem accounts (cfg : Config) (dev : Nat → UInt8) (as : List TallyAct) (s : TallySt)
    (h : exec (tallyStep cfg) (TallySt.init cfg dev) as = some s) :
    Accounted cfg s ∧ (Meets (tallyStep cfg) NoReset (TallySt.init cfg dev) as →
      u64 (s.k.t.seqNext + s.k.t.overflows) = u64 (s.k.finished cfg) ∧
      (s.k.finished cfg < 2^64 → s.k.t.seqNext + s.k.t.overflows = s.k.finished cfg)) := by
  refine ⟨?_, fun hg => ?_⟩
  · exact (exec_invariant (P:=TallyInv cfg) (fun _ _ _ hi hs => hi.step hs)
      (TallyInv.init cfg dev) h).accounted
  · have hi := exec_invariant_meets (P:=CountInv cfg) (fun _ _ _ hi hga hs => hi.step hga hs)
      ⟨TallyInv.init cfg dev, rfl⟩ hg h
    exact ⟨hi.total, hi.exact⟩

/-! ## a run -/

/-- a write over a quarter of the ring is dropped; two flushes follow -/
def tallyRun : List TallyAct :=
  [.target (.map bigWrite), .target (.reserve 0 0),
    .target (.map flushBio), .target (.reserve 1 0), .ioctl .bitmapZero, .ioctl .overflowedFalse,
    .target (.map flushBio), .target (.reserve 2 0)]

theorem accounts_run : ∃ s, exec (tallyStep smallConfig) (TallySt.init smallConfig fun _ => 0)
    tallyRun = some s ∧ s.outcomes = [false, true, true] ∧
      hasFlag (Rec.load s.k.t.ring 0).flags FGapBefore = true ∧
      hasFlag (Rec.load s.k.t.ring 56).flags FGapBefore = false ∧ Accounted smallConfig s ∧
      s.k.t.seqNext + s.k.t.overflows = 3 := by
  have h : (exec (tallyStep smallConfig) (TallySt.init smallConfig fun _ => 0) tallyRun).any
      (fun s => s.outcomes == [false, true, true] && (s.k.finished smallConfig == 3 &&
        (hasFlag (Rec.load s.k.t.ring 0).flags FGapBefore &&
          !hasFlag (Rec.load s.k.t.ring 56).flags FGapBefore))) = true := by
    decide
  obtain ⟨s, hs, hp⟩ := (Option.any_eq_true _ _).mp h
  simp only [Bool.and_eq_true, beq_iff_eq, Bool.not_eq_true'] at hp
  obtain ⟨hout, hfin, hgap, hnext⟩ := hp
  obtain ⟨ha, ht⟩ := accounts smallConfig (fun _ => 0) tallyRun s hs
  refine ⟨s, hs, hout, hgap, hnext, ha, ?_⟩
  have hg : Meets (tallyStep smallConfig) NoReset (TallySt.init smallConfig fun _ => 0) tallyRun := by
    refine meets_of_forall fun a ha t => ?_
    simp only [tallyRun, List.mem_cons, List.not_mem_nil, or_false] at ha
    rcases ha with rfl | rfl | rfl | rfl | rfl | rfl | rfl | rfl <;> trivial
  have he := (ht hg).2
  rw [hfin] at he
  exact he (by decide)

end CDP
