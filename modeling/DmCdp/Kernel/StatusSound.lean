import DmCdp.Kernel.Counters

/-!
# Every report of the target is consistent

* `Later`         what every step keeps from one state to the next;
* `NumOk`         the numbers of a report: the records that it has not counted are in the ring that
                  it reports; those of `cdp_ioctl_status` are not more than its `seq_next`;
* `StatusCallOk`  for a call, this of the report it would make now (`StatusCall.finish`), which its
                  own statements do not change;
* `status_sound`  every report, in every run of the bios, the readers, the other `ioctl`s and any
                  number of calls; `status_sound_run` is one in which `cdp_status`, which reads
                  `records` after it has unlocked, reports more records than seqs.
-/

set_option linter.unusedVariables false

namespace CDP
open Img Mach Slots Counts Finset

/-! ## from one state to a later one -/

structure Later (s s' : StatusSt) : Prop where
  len : s.k.log.length ≤ s'.k.log.length
  lens : ∀ j, j < s.k.log.length → lenAt s'.k.log j = lenAt s.k.log j
  dead : s.k.t.dead = true → s'.k.t.dead = true
  counters : s'.reset = false → s.reset = false ∧ s.k.t.records ≤ s'.k.t.records ∧
    s.k.t.bytesLogged ≤ s'.k.t.bytesLogged
  bits : s'.cleared = false → s.cleared = false ∧
    ∀ b, s.k.t.bitmap b = true → s'.k.t.bitmap b = true
  /-- nothing is reserved while the lock is held -/
  held : s.holder ≠ none → s'.k.log.length = s.k.log.length

section
variable {cfg : Config} {minor : Nat} {s s' : StatusSt}

theorem Later.logBytes (h : Later s s') {n : Nat} (hn : n ≤ s.k.log.length) :
    logBytes s'.k.log n = logBytes s.k.log n :=
  logBytes_congr fun j hj => h.lens j (hj.trans_le hn)

theorem Later.of_same (hk : s'.k = s.k) (hr : s'.reset = s.reset) (hc : s'.cleared = s.cleared) :
    Later s s' := by
  refine ⟨?_, fun j _ => ?_, ?_, fun h => ⟨hr ▸ h, ?_, ?_⟩, fun h => ⟨hc ▸ h, ?_⟩, fun _ => ?_⟩
  all_goals rw [hk]
  exact id
  exact fun _ => id

theorem Later.target {a : KAct} {k' : KState} (h : CounterInv cfg s) (hs : kstep cfg s.k a = some k')
    (ha : ∀ i error, a = .endIo i error → s.k.logging i = none)
    (hlock : s.holder ≠ none → ∀ i ts, a ≠ .reserve i ts) :
    Later s { s with k := k', cleared := s.cleared || a.clears } := by
  have hk := TargetKept.step h.k hs ha
  have hlog : s.k.log.length ≤ k'.log.length ∧
      ∀ j, j < s.k.log.length → lenAt k'.log j = lenAt s.k.log j := by
    by_cases hr : ∃ i ts, a = .reserve i ts
    · obtain ⟨i, ts, rfl⟩ := hr
      obtain ⟨f, a, _, _, _, _, ⟨_, rfl⟩ | ⟨_, _, rfl⟩⟩ := reserve_cases h.k.log hs
      · exact ⟨le_rfl, fun j _ => rfl⟩
      · exact ⟨by simp, fun j hj => lenAt_snoc hj⟩
    · have hno := NoReserve.step h.k hs fun i ts e => hr ⟨i, ts, e⟩
      exact ⟨hno.length.ge, fun j _ => lenAt_hdrs hno.hdrs j⟩
  refine ⟨hlog.1, hlog.2, hk.dead, fun hr => ⟨hr, hk.records.ge, hk.bytes.ge⟩, fun hc => ?_,
    fun hh => (NoReserve.step h.k hs (hlock hh)).length⟩
  obtain ⟨hc, ha⟩ := Bool.or_eq_false_iff.mp hc
  exact ⟨hc, hk.bits ha⟩

theorem Later.counting (hs : Counting s s') : Later s s' := by
  cases hs with
  | count i j f hl hg =>
    exact ⟨le_rfl, fun _ _ => rfl, id, fun hr => ⟨hr, Nat.le_succ _, le_rfl⟩,
      fun hc => ⟨hc, fun _ => id⟩, fun _ => rfl⟩
  | add i j f e hl he hg =>
    exact ⟨le_rfl, fun _ _ => rfl, id, fun hr => ⟨hr, le_rfl, Nat.le_add_right _ _⟩,
      fun hc => ⟨hc, fun _ => id⟩, fun _ => rfl⟩

theorem Later.commit {i : Nat} {error : Bool} (h : CounterInv cfg s)
    (hs : commitStep s i error = some s') : Later s s' := by
  obtain ⟨_, hhdr⟩ := h.commit hs
  have hlen : s'.k.log.length = s.k.log.length := by simpa using congrArg List.length hhdr
  unfold commitStep at hs
  split at hs
  · cases hs
  · split at hs
    · obtain ⟨k', hk', rfl⟩ := Option.map_eq_some_iff.mp hs
      obtain ⟨f, _, _, _, ⟨j, _, _, rfl⟩ | ⟨_, rfl⟩⟩ := endIo_cases hk' <;>
        exact ⟨hlen.ge, fun j _ => lenAt_hdrs hhdr j, id, fun hr => ⟨hr, le_rfl, le_rfl⟩,
          fun hc => ⟨hc, fun _ => id⟩, fun _ => hlen⟩
    · cases hs

theorem Later.ioctl (w : IoctlStore) : Later s { s with
    k := { s.k with t := ioctlStep s.k.t w }
    reset := s.reset || w.resets
    cleared := s.cleared || w.clears } := by
  refine ⟨le_rfl, fun _ _ => rfl, ?_, fun hr => ?_, fun hc => ?_, fun _ => rfl⟩
  · cases w <;> exact id
  · obtain ⟨hr, hw⟩ := Bool.or_eq_false_iff.mp hr
    refine ⟨hr, ?_⟩
    cases w <;> first | exact ⟨le_rfl, le_rfl⟩ | cases hw
  · obtain ⟨hc, hw⟩ := Bool.or_eq_false_iff.mp hc
    refine ⟨hc, ?_⟩
    cases w <;> first | exact fun _ => id | cases hw

/-- the calls and the reports stay -/
structure Elsewhere (s s' : StatusSt) : Prop where
  calls : s'.calls = s.calls
  holder : s'.holder = s.holder
  reports : s'.reports = s.reports

def StatusAct.ofCall : StatusAct → Bool
  | .call _ _ _ | .load _ _ => true
  | _ => false

theorem aside_step {a : StatusAct} (h : CounterInv cfg s) (hs : statusStep cfg minor s a = some s')
    (ha : a.ofCall = false) : CounterInv cfg s' ∧ Later s s' ∧ Elsewhere s s' := by
  unfold statusStep at hs
  split at hs
  · cases hs
  · rename_i hlock
    cases a with
    | target a =>
      obtain ⟨k', hk', rfl, hend⟩ := targetStep_cases hs
      refine ⟨(h.target hk' hend).view rfl rfl rfl, .target h hk' hend fun hh i ts e => ?_,
        rfl, rfl, rfl⟩
      subst e
      exact hlock ⟨rfl, hh⟩
    | count i error =>
      have hc := count_cases h hs
      refine ⟨h.counting hc, .counting hc, ?_⟩
      cases hc <;> exact ⟨rfl, rfl, rfl⟩
    | add i =>
      have hc := add_cases h hs
      refine ⟨h.counting hc, .counting hc, ?_⟩
      cases hc <;> exact ⟨rfl, rfl, rfl⟩
    | commit i error =>
      refine ⟨(h.commit hs).1, .commit h hs, ?_⟩
      change commitStep s i error = some s' at hs
      unfold commitStep at hs
      split at hs
      · cases hs
      · split at hs
        · obtain ⟨k', _, rfl⟩ := Option.map_eq_some_iff.mp hs
          exact ⟨rfl, rfl, rfl⟩
        · cases hs
    | ioctl w =>
      obtain rfl := Option.some.inj hs
      exact ⟨h.ioctl w _ rfl rfl rfl, .ioctl w, rfl, rfl, rfl⟩
    | call c fn len => cases ha
    | load c ok => cases ha

end

/-! ## what holds of a report -/

/-- the numbers of a report, or of what a call would report now -/
structure NumOk (cfg : Config) (s : StatusSt) (fn : StatusFn) (r : CdpStatus) : Prop where
  used : r.ringUsed ≤ cfg.ringSize ∧ 8 ∣ r.ringUsed
  seq : r.seqNext ≤ s.k.log.length
  /-- `cdp_ioctl_status` counts under the lock -/
  counted : fn = .ioctl → r.records ≤ r.seqNext ∧ r.bytesLogged ≤ logBytes s.k.log r.seqNext
  /-- every record is counted or in the ring -/
  weighed : s.reset = false → RecSize * r.seqNext + logBytes s.k.log r.seqNext
    ≤ RecSize * r.records + r.bytesLogged + r.ringUsed
  past : s.reset = false → r.records ≤ s.k.t.records ∧ r.bytesLogged ≤ s.k.t.bytesLogged
  dead : r.dead = true → s.k.t.dead = true
  overflows : r.overflows < 2^64
  /-- a call that begins behind the first line of `cdp_dtr` may find `t->ti` released -/
  sectors : r.devSectors < 2^64 ∧ (r.dead = false → r.devSectors = cfg.len)

/-- the fields that do not change -/
structure CdpStatus.Fixed (cfg : Config) (minor : Nat) (r : CdpStatus) : Prop where
  abi : r.abiVersion = AbiVersion
  chunk : r.chunkSectors = cfg.chunkSectors
  minor : r.minor = minor
  bits : r.bitmapBits = cfg.nbits
  bytes : r.bitmapBytes = 8 * ((cfg.nbits + 63) / 64)
  size : r.ringSize = cfg.ringSize

/-- what an earlier report says stays true -/
structure CdpStatus.Before (reset : Bool) (q r : CdpStatus) : Prop where
  seq : q.seqNext ≤ r.seqNext
  dead : q.dead = true → r.dead = true
  counters : reset = false → q.records ≤ r.records ∧ q.bytesLogged ≤ r.bytesLogged

section
variable {cfg : Config} {minor : Nat} {s s' : StatusSt} {fn : StatusFn} {r r' : CdpStatus}

/-- **A drained ring**: everything has been counted. -/
theorem NumOk.drained (h : NumOk cfg s .ioctl r) (hr : s.reset = false) (hu : r.ringUsed = 0) :
    r.records = r.seqNext ∧ r.bytesLogged = logBytes s.k.log r.seqNext := by
  have h1 := h.counted rfl
  have h2 := h.weighed hr
  have e : RecSize = 56 := rfl
  rw [hu, e] at h2
  omega

theorem CounterInv.now (h : CounterInv cfg s) (fn : StatusFn)
    (hu : r.ringUsed = u64sub s.k.t.head s.k.t.tail) (hq : r.seqNext = s.k.t.seqNext)
    (hr : r.records = s.k.t.records) (hb : r.bytesLogged = s.k.t.bytesLogged)
    (hd : r.dead = s.k.t.dead) (ho : r.overflows = s.k.t.overflows)
    (hs : r.devSectors < 2^64 ∧ (s.k.t.dead = false → r.devSectors = cfg.len)) : NumOk cfg s fn r := by
  have hring := h.k.log.ring
  have htail := hring.chain.le
  have hused : r.ringUsed = s.k.t.head - s.k.t.tail := hu.trans (u64sub_of_le htail hring.head)
  have hseq : r.seqNext = s.k.log.length := hq.trans h.k.log.seq
  have hroom := hring.room
  have hcount : s.counted ≤ r.seqNext := (counted_le s).trans_eq hseq.symm
  have hadd : s.added ≤ logBytes s.k.log r.seqNext := by
    rw [hseq]
    exact added_le s
  refine ⟨⟨?_, ?_⟩, hseq.le, fun _ => ⟨?_, ?_⟩, fun hreset => ?_, fun _ => ⟨hr.le, hb.le⟩,
    fun hdead => hd.symm.trans hdead, ho.trans_lt h.overflows, hs.1,
    fun hdead => hs.2 (hd.symm.trans hdead)⟩
  · rw [hused, ← h.size]
    omega
  · rw [hused]
    exact Nat.dvd_sub (hring.chain.dvd hring.align hring.tail) hring.tail
  · rw [hr]
    exact h.records.trans hcount
  · rw [hb]
    exact h.bytes.trans hadd
  · rw [hr, hb, (h.exact hreset).1, (h.exact hreset).2, hused, hseq]
    exact h.covered

/-- A report that has read some fields, as the target goes on: the fields that it has not read follow
the target.  A call of `cdp_ioctl_status` that has not read the counters holds the lock. -/
theorem NumOk.later (h : NumOk cfg s fn r) (hl : Later s s') (hu : r'.ringUsed = r.ringUsed)
    (hq : r'.seqNext = r.seqNext) (h' : CounterInv cfg s')
    (hr : r'.records = r.records ∨ r.records = s.k.t.records ∧ r'.records = s'.k.t.records ∧
      (fn = .ioctl → r.seqNext = s'.k.log.length))
    (hb : r'.bytesLogged = r.bytesLogged ∨ r.bytesLogged = s.k.t.bytesLogged ∧
      r'.bytesLogged = s'.k.t.bytesLogged ∧ (fn = .ioctl → r.seqNext = s'.k.log.length))
    (hd : r'.dead = r.dead ∨ r'.dead = s'.k.t.dead) (ho : r'.overflows = r.overflows)
    (hs : r'.devSectors = r.devSectors) : NumOk cfg s' fn r' := by
  have hlog := hl.logBytes h.seq
  refine ⟨?_, ?_, fun hf => ⟨?_, ?_⟩, fun hreset => ?_, fun hreset => ?_, fun hdead => ?_,
    ho.trans_lt h.overflows, hs.trans_lt h.sectors.1, fun hdead => hs.trans (h.sectors.2 ?_)⟩
  · rw [hu]
    exact h.used
  · rw [hq]
    exact h.seq.trans hl.len
  · rw [hq]
    rcases hr with hr | ⟨_, hr, hlen⟩
    · rw [hr]
      exact (h.counted hf).1
    · rw [hr, hlen hf]
      exact h'.records.trans (counted_le s')
  · rw [hq, hlog]
    rcases hb with hb | ⟨_, hb, hlen⟩
    · rw [hb]
      exact (h.counted hf).2
    · rw [← hlog, hb, hlen hf]
      exact h'.bytes.trans (added_le s')
  · obtain ⟨h0, h1, h2⟩ := hl.counters hreset
    have hw := h.weighed h0
    have hr' : r.records ≤ r'.records := by
      rcases hr with hr | ⟨e1, e2, _⟩
      · exact hr.ge
      · rw [e1, e2]
        exact h1
    have hb' : r.bytesLogged ≤ r'.bytesLogged := by
      rcases hb with hb | ⟨e1, e2, _⟩
      · exact hb.ge
      · rw [e1, e2]
        exact h2
    have e : RecSize = 56 := rfl
    rw [hu, hq, hlog]
    rw [e] at hw ⊢
    omega
  · obtain ⟨h0, h1, h2⟩ := hl.counters hreset
    obtain ⟨h3, h4⟩ := h.past h0
    constructor
    · rcases hr with hr | ⟨_, hr, _⟩
      · exact hr.trans_le (h3.trans h1)
      · exact hr.le
    · rcases hb with hb | ⟨_, hb, _⟩
      · exact hb.trans_le (h4.trans h2)
      · exact hb.le
  · rcases hd with hd | hd
    · exact hl.dead (h.dead (hd.symm.trans hdead))
    · exact hd.symm.trans hdead
  · rcases hd with hd | hd
    · exact hd.symm.trans hdead
    · apply Bool.eq_false_of_not_eq_true
      intro hr
      have hgone := hl.dead (h.dead hr)
      rw [← hd, hdead] at hgone
      cases hgone

/-! ## what holds of a call -/

structure SetOk (cfg : Config) (s : StatusSt) (p : StatusCall) : Prop where
  room : p.r.bitmapSet ≤ min (64 * p.word) cfg.nbits
  marks : s.cleared = false → ones p.marked (min (64 * p.word) cfg.nbits) ≤ p.r.bitmapSet ∧
    p.r.bitmapSet ≤ ones s.k.t.bitmap (min (64 * p.word) cfg.nbits) ∧
    ∀ b, p.marked b = true → s.k.t.bitmap b = true
  done : p.past .weigh = true → cfg.nbits ≤ 64 * p.word

/-- a call of `cdp_ioctl_status` in its lock section -/
def StatusCall.holds (p : StatusCall) : Bool := p.fn = .ioctl ∧ p.past .lock ∧ p.past .unlock = false

structure StatusCallOk (cfg : Config) (minor : Nat) (s : StatusSt) (c : Nat) (p : StatusCall) :
    Prop where
  num : NumOk cfg s p.fn (p.finish s.k.t)
  set : SetOk cfg s p
  held : p.holds = true → s.holder = some c ∧ p.r.seqNext = s.k.log.length
  pc : p.fn = .info → p.pc ≠ .unlock
  fixed : p.r.Fixed cfg minor
  before : p.before ≤ s.reports.length
  order : ∀ (j : Nat) (q : Report), s.reports[j]? = some q → j < p.before →
    q.r.Before s.reset (p.finish s.k.t)

structure ReportOk (cfg : Config) (minor : Nat) (s : StatusSt) (q : Report) : Prop where
  num : NumOk cfg s q.fn q.r
  fixed : q.r.Fixed cfg minor
  set : q.r.bitmapSet ≤ cfg.nbits
  /-- between the bits set at the beginning and at the end of the call -/
  marks : s.cleared = false → ones q.marked cfg.nbits ≤ q.r.bitmapSet ∧
    q.r.bitmapSet ≤ ones q.left cfg.nbits
  before : q.before ≤ s.reports.length
  /-- a report that had been returned when this call began -/
  order : ∀ (j : Nat) (p : Report), s.reports[j]? = some p → j < q.before → p.r.Before s.reset q.r

structure StatusInv (cfg : Config) (minor : Nat) (s : StatusSt) : Prop where
  counter : CounterInv cfg s
  calls : ∀ c p, s.calls c = some p → StatusCallOk cfg minor s c p
  reports : ∀ (i : Nat) (q : Report), s.reports[i]? = some q → ReportOk cfg minor s q

theorem past_lock {p : StatusCall} (h : p.past .lock = false) :
    p.past .records = false ∧ p.past .bytes = false := by
  obtain ⟨fn, pc, w, r, b, m⟩ := p
  cases fn <;> cases pc <;> simp_all [StatusCall.past, StatusFn.rank]

/-- before it has read the counters a call of `cdp_ioctl_status` holds the lock -/
theorem holds_of {p : StatusCall} (hf : p.fn = .ioctl) (h1 : p.past .lock = true)
    (h2 : p.past .bytes = false ∨ p.past .records = false) : p.holds = true := by
  obtain ⟨fn, pc, w, r, b, m⟩ := p
  dsimp only at hf
  subst hf
  cases pc <;> simp_all [StatusCall.holds, StatusCall.past, StatusFn.rank]

theorem StatusCallOk.num_later {c : Nat} {p : StatusCall} (h : StatusCallOk cfg minor s c p)
    (hl : Later s s')
    (h' : CounterInv cfg s') : NumOk cfg s' p.fn (p.finish s'.k.t) := by
  cases hp : p.past .lock with
  | false =>
    obtain ⟨h1, h2⟩ := past_lock hp
    have hd : p.past .dead = false := by
      obtain ⟨fn, pc, w, r, b, m⟩ := p
      cases fn <;> cases pc <;> simp_all [StatusCall.past, StatusFn.rank]
    apply h'.now
    · simp [StatusCall.finish, hp]
    · simp [StatusCall.finish, hp]
    · simp [StatusCall.finish, h1]
    · simp [StatusCall.finish, h2]
    · simp [StatusCall.finish, hd]
    · simp [StatusCall.finish, hp]
    · refine ⟨h.num.sectors.1, fun halive => h.num.sectors.2 ?_⟩
      have hbefore : s.k.t.dead = false := by
        apply Bool.eq_false_of_not_eq_true
        intro hgone
        rw [hl.dead hgone] at halive
        cases halive
      simp [StatusCall.finish, hd, hbefore]
  | true =>
    have hlen : p.past .bytes = false ∨ p.past .records = false → p.fn = .ioctl →
        (p.finish s.k.t).seqNext = s'.k.log.length := by
      intro hor hf
      obtain ⟨hh, hq⟩ := h.held (holds_of hf hp hor)
      have hne : s.holder ≠ none := by simp [hh]
      simp [StatusCall.finish, hp, hq, hl.held hne]
    refine h.num.later hl ?_ ?_ h' ?_ ?_ ?_ ?_ rfl
    · simp [StatusCall.finish, hp]
    · simp [StatusCall.finish, hp]
    · cases hr : p.past .records with
      | true => exact Or.inl (by simp [StatusCall.finish, hr])
      | false =>
        refine Or.inr ⟨?_, ?_, hlen (Or.inr hr)⟩ <;> simp [StatusCall.finish, hr]
    · cases hb : p.past .bytes with
      | true => exact Or.inl (by simp [StatusCall.finish, hb])
      | false =>
        refine Or.inr ⟨?_, ?_, hlen (Or.inl hb)⟩ <;> simp [StatusCall.finish, hb]
    · cases hd : p.past .dead with
      | true => exact Or.inl (by simp [StatusCall.finish, hd])
      | false => exact Or.inr (by simp [StatusCall.finish, hd])
    · simp [StatusCall.finish, hp]

theorem CdpStatus.Before.later {q : CdpStatus} (h : q.Before s.reset r) (hl : Later s s')
    (hr : r.Before s'.reset r') : q.Before s'.reset r' := by
  refine ⟨h.seq.trans hr.seq, fun hd => hr.dead (h.dead hd), fun hreset => ?_⟩
  obtain ⟨h1, h2⟩ := h.counters (hl.counters hreset).1
  obtain ⟨h3, h4⟩ := hr.counters hreset
  exact ⟨h1.trans h3, h2.trans h4⟩

theorem finish_before (p : StatusCall) (h : CounterInv cfg s) (hl : Later s s')
    (h' : CounterInv cfg s') : (p.finish s.k.t).Before s'.reset (p.finish s'.k.t) := by
  have hseq : s.k.t.seqNext ≤ s'.k.t.seqNext := by
    rw [h.k.log.seq, h'.k.log.seq]
    exact hl.len
  refine ⟨?_, ?_, fun hr => ⟨?_, ?_⟩⟩
  · unfold StatusCall.finish
    dsimp only
    split
    · exact le_rfl
    · exact hseq
  · unfold StatusCall.finish
    dsimp only
    split
    · exact id
    · exact hl.dead
  · unfold StatusCall.finish
    dsimp only
    split
    · exact le_rfl
    · exact (hl.counters hr).2.1
  · unfold StatusCall.finish
    dsimp only
    split
    · exact le_rfl
    · exact (hl.counters hr).2.2

theorem SetOk.later {p : StatusCall} (h : SetOk cfg s p) (hl : Later s s') : SetOk cfg s' p := by
  refine ⟨h.room, fun hc => ?_, h.done⟩
  obtain ⟨h0, hb⟩ := hl.bits hc
  obtain ⟨h1, h2, h3⟩ := h.marks h0
  exact ⟨h1, h2.trans (ones_mono fun b _ => hb b), fun b hm => hb b (h3 b hm)⟩

theorem report_old {l m : List Report} {j n : Nat} {q : Report} (h : (l ++ m)[j]? = some q)
    (hj : j < n) (hn : n ≤ l.length) : l[j]? = some q := by
  rwa [List.getElem?_append_left (hj.trans_le hn)] at h

theorem StatusCallOk.later {c : Nat} {p : StatusCall} {m : List Report} (hc : CounterInv cfg s)
    (h : StatusCallOk cfg minor s c p) (hl : Later s s') (h' : CounterInv cfg s')
    (hh : p.holds = true → s'.holder = s.holder) (hr : s'.reports = s.reports ++ m) :
    StatusCallOk cfg minor s' c p := by
  refine ⟨h.num_later hl h', h.set.later hl, fun hp => ?_, h.pc, h.fixed, ?_, fun j q hq hj => ?_⟩
  · obtain ⟨h1, h2⟩ := h.held hp
    have hne : s.holder ≠ none := by simp [h1]
    exact ⟨(hh hp).trans h1, h2.trans (hl.held hne).symm⟩
  · rw [hr, List.length_append]
    exact h.before.trans (Nat.le_add_right _ _)
  · rw [hr] at hq
    exact (h.order j q (report_old hq hj h.before) hj).later hl (finish_before p hc hl h')

theorem ReportOk.later {q : Report} {m : List Report} (h : ReportOk cfg minor s q) (hl : Later s s')
    (h' : CounterInv cfg s') (hr : s'.reports = s.reports ++ m) : ReportOk cfg minor s' q := by
  refine ⟨h.num.later hl rfl rfl h' (Or.inl rfl) (Or.inl rfl) (Or.inl rfl) rfl rfl, h.fixed, h.set,
    fun hc => h.marks (hl.bits hc).1, ?_, fun j p hp hj => ?_⟩
  · rw [hr, List.length_append]
    exact h.before.trans (Nat.le_add_right _ _)
  · rw [hr] at hp
    exact (h.order j p (report_old hp hj h.before) hj).later hl
      ⟨le_rfl, id, fun _ => ⟨le_rfl, le_rfl⟩⟩

/-! ## the steps of a call -/

theorem blank_fixed (h : CounterInv cfg s) (len minor : Nat) :
    (s.k.t.blank len minor).Fixed cfg minor := by
  refine ⟨rfl, h.chunk, rfl, h.nbits, ?_, h.size⟩
  show 8 * ((s.k.t.nbits + 63) / 64) = _
  rw [h.nbits]

theorem StatusCallOk.start {c len : Nat} (fn : StatusFn) (h : CounterInv cfg s)
    (hlen : len < 2^64 ∧ (s.k.t.dead = true ∨ len = cfg.len))
    (hr : ∀ (j : Nat) (q : Report), s.reports[j]? = some q → ReportOk cfg minor s q) :
    StatusCallOk cfg minor s c
      ⟨fn, fn.first, 0, s.k.t.blank len minor, s.reports.length, s.k.t.bitmap⟩ := by
  have hpast := past_first fn 0 s.reports.length (s.k.t.blank len minor) s.k.t.bitmap
  have hti : s.k.t.dead = false → len = cfg.len := by
    intro halive
    rcases hlen.2 with hgone | hlen
    · rw [halive] at hgone
      cases hgone
    · exact hlen
  refine ⟨?_, ⟨Nat.zero_le _, fun _ => ?_, fun hp => ?_⟩, fun hp => ?_, fun hf => ?_,
    blank_fixed h len minor, le_rfl, fun j q hq hj => ?_⟩
  · refine h.now fn ?_ ?_ ?_ ?_ ?_ ?_ ⟨hlen.1, hti⟩ <;> simp [StatusCall.finish, hpast]
  · refine ⟨?_, Nat.zero_le _, fun b => id⟩
    show ones _ (min (64 * 0) _) ≤ 0
    simp [ones]
  · rw [hpast] at hp
    cases hp
  · simp [StatusCall.holds, hpast] at hp
  · subst hf
    exact ReportPc.noConfusion
  · have hn := (hr j q hq).num
    refine ⟨?_, fun hd => ?_, fun hreset => ?_⟩
    · simp [StatusCall.finish, hpast, h.k.log.seq]
      exact hn.seq
    · simp [StatusCall.finish, hpast]
      exact hn.dead hd
    · simp [StatusCall.finish, hpast]
      exact hn.past hreset

theorem StatusInv.move {c : Nat} (h : StatusInv cfg minor s)
    (hk : s'.k = s.k) (he : s'.ends = s.ends) (hr : s'.reset = s.reset) (hc : s'.cleared = s.cleared)
    (hrep : s'.reports = s.reports) (hcalls : ∀ d, d ≠ c → s'.calls d = s.calls d)
    (hhold : ∀ d q, d ≠ c → s.calls d = some q → q.holds = true → s'.holder = s.holder)
    (hown : ∀ q, s'.calls c = some q → StatusCallOk cfg minor s' c q) : StatusInv cfg minor s' := by
  have hcount := h.counter.view hk he hr
  have hl := Later.of_same hk hr hc
  have hrep' : s'.reports = s.reports ++ [] := by rw [hrep, List.append_nil]
  refine ⟨hcount, fun d q hq => ?_, fun i q hq => ?_⟩
  · by_cases hd : d = c
    · subst hd
      exact hown q hq
    · rw [hcalls d hd] at hq
      exact (h.calls d q hq).later h.counter hl hcount (hhold d q hd hq) hrep'
  · rw [hrep] at hq
    exact (h.reports i q hq).later hl hcount hrep'

theorem StatusInv.call {c len : Nat} {fn : StatusFn} (h : StatusInv cfg minor s)
    (hs : callStatus cfg minor s c fn len = some s') : StatusInv cfg minor s' := by
  unfold callStatus at hs
  split at hs
  · rename_i hc
    obtain rfl := Option.some.inj hs
    refine h.move (c:=c) rfl rfl rfl rfl rfl (fun d hd => Function.update_of_ne hd _ _)
      (fun _ _ _ _ _ => rfl) fun q hq => ?_
    obtain rfl := Option.some.inj ((Function.update_self c _ _).symm.trans hq)
    refine StatusCallOk.start fn (h.counter.view rfl rfl rfl) hc.2 fun j q hq => ?_
    exact (h.reports j q hq).later (.of_same rfl rfl rfl) (h.counter.view rfl rfl rfl)
      (List.append_nil _).symm
  · cases hs

theorem StatusCallOk.view {c : Nat} {p p' : StatusCall} (h : StatusCallOk cfg minor s c p)
    (hk : s'.k = s.k)
    (hr : s'.reset = s.reset) (hrep : s'.reports = s.reports)
    (hf : p'.finish s.k.t = p.finish s.k.t) (hfn : p'.fn = p.fn) (hb : p'.before = p.before)
    (hset : SetOk cfg s' p')
    (hheld : p'.holds = true → s'.holder = some c ∧ p'.r.seqNext = s.k.log.length)
    (hpc : p'.fn = .info → p'.pc ≠ .unlock) (hfix : p'.r.Fixed cfg minor) :
    StatusCallOk cfg minor s' c p' := by
  refine ⟨?_, hset, fun hp => ?_, hpc, hfix, ?_, fun j q hq hj => ?_⟩
  · rw [hk, hf, hfn]
    obtain ⟨h1, h2, h3, h4, h5, h6, h7, h8⟩ := h.num
    exact ⟨h1, hk ▸ h2, hk ▸ h3, hr ▸ hk ▸ h4, hr ▸ hk ▸ h5, hk ▸ h6, h7, h8⟩
  · rw [hk]
    exact hheld hp
  · rw [hb, hrep]
    exact h.before
  · rw [hrep] at hq
    rw [hb] at hj
    rw [hk, hf, hr]
    exact h.order j q hq hj

/-! Read now, a field is what it would be at the end. -/

theorem finish_lock {p : StatusCall} (t : Target) (h : p.pc = .lock) :
    (p.to (p.r.underLock t)).finish t = p.finish t := by
  obtain ⟨fn, pc, w, r, b, m⟩ := p
  dsimp only at h
  subst h
  cases fn <;> simp [StatusCall.finish, StatusCall.to, StatusCall.past, StatusFn.rank, StatusFn.next,
    CdpStatus.underLock]

theorem finish_records {p : StatusCall} (t : Target) (h : p.pc = .records) :
    (p.to { p.r with records := t.records }).finish t = p.finish t := by
  obtain ⟨fn, pc, w, r, b, m⟩ := p
  dsimp only at h
  subst h
  cases fn <;> simp [StatusCall.finish, StatusCall.to, StatusCall.past, StatusFn.rank, StatusFn.next]

theorem finish_bytes {p : StatusCall} (t : Target) (h : p.pc = .bytes) :
    (p.to { p.r with bytesLogged := t.bytesLogged }).finish t = p.finish t := by
  obtain ⟨fn, pc, w, r, b, m⟩ := p
  dsimp only at h
  subst h
  cases fn <;> simp [StatusCall.finish, StatusCall.to, StatusCall.past, StatusFn.rank, StatusFn.next]

theorem finish_dead {p : StatusCall} (t : Target) (h : p.pc = .dead) :
    (p.to { p.r with dead := t.dead }).finish t = p.finish t := by
  obtain ⟨fn, pc, w, r, b, m⟩ := p
  dsimp only at h
  subst h
  cases fn <;> simp [StatusCall.finish, StatusCall.to, StatusCall.past, StatusFn.rank, StatusFn.next]

theorem finish_unlock {p : StatusCall} (t : Target) (h : p.pc = .unlock) (hf : p.fn = .ioctl) :
    (p.to p.r).finish t = p.finish t := by
  obtain ⟨fn, pc, w, r, b, m⟩ := p
  dsimp only at h hf
  subst h hf
  simp [StatusCall.finish, StatusCall.to, StatusCall.past, StatusFn.rank, StatusFn.next]

theorem finish_weighed {p : StatusCall} (t : Target) (h : p.pc = .weigh)
    (hw : ¬p.word < t.nlongs) : (p.to p.r).finish t = p.finish t := by
  have h0 : t.nbits - 64 * p.word = 0 := by
    unfold Target.nlongs at hw
    omega
  obtain ⟨fn, pc, w, r, b, m⟩ := p
  dsimp only at h h0
  subst h
  cases fn <;> simp [StatusCall.finish, StatusCall.to, StatusCall.past, StatusFn.rank, StatusFn.next,
    h0]

def StatusCall.weighed (p : StatusCall) (t : Target) : StatusCall :=
  { p with
    word := p.word + 1
    r := { p.r with bitmapSet := p.r.bitmapSet + t.longWeight p.word } }

theorem finish_weigh {p : StatusCall} (t : Target) (h : p.pc = .weigh) (hw : p.word < t.nlongs) :
    (p.weighed t).finish t = p.finish t := by
  have hadd := longWeight_add hw
  obtain ⟨fn, pc, w, r, b, m⟩ := p
  dsimp only at h hadd
  subst h
  cases fn <;> simp [StatusCall.finish, StatusCall.weighed, StatusCall.past, StatusFn.rank,
    Nat.add_assoc, hadd]

theorem ones_long (m : Nat → Bool) {w n : Nat} (h : 64 * w < n) :
    ones m (min (64 * (w + 1)) n)
      = ones m (min (64 * w) n) + ones (fun b => m (64 * w + b)) (min 64 (n - 64 * w)) := by
  rw [min_eq_left h.le, ← ones_add]
  congr 1
  omega

theorem SetOk.weigh {p : StatusCall} (h : SetOk cfg s p) (hn : s.k.t.nbits = cfg.nbits)
    (hpc : p.pc = .weigh) (hw : p.word < s.k.t.nlongs) : SetOk cfg s (p.weighed s.k.t) := by
  have hlt : 64 * p.word < cfg.nbits := by
    unfold Target.nlongs at hw
    omega
  have hlong : s.k.t.longWeight p.word
      = ones (fun b => s.k.t.bitmap (64 * p.word + b)) (min 64 (cfg.nbits - 64 * p.word)) := by
    unfold Target.longWeight
    rw [hn]
  refine ⟨?_, fun hc => ⟨?_, ?_, (h.marks hc).2.2⟩, fun hp => ?_⟩
  · have h1 := h.room
    have h2 := ones_le (fun b => s.k.t.bitmap (64 * p.word + b)) (min 64 (cfg.nbits - 64 * p.word))
    show p.r.bitmapSet + s.k.t.longWeight p.word ≤ min (64 * (p.word + 1)) cfg.nbits
    rw [hlong]
    omega
  · show ones p.marked (min (64 * (p.word + 1)) cfg.nbits) ≤ p.r.bitmapSet + s.k.t.longWeight p.word
    rw [ones_long _ hlt, hlong]
    exact Nat.add_le_add (h.marks hc).1 (ones_mono fun b _ => (h.marks hc).2.2 _)
  · show p.r.bitmapSet + s.k.t.longWeight p.word ≤
      ones s.k.t.bitmap (min (64 * (p.word + 1)) cfg.nbits)
    rw [ones_long _ hlt, hlong]
    exact Nat.add_le_add_right (h.marks hc).2.1 _
  · simp [StatusCall.past, StatusCall.weighed, hpc] at hp

theorem SetOk.to {p : StatusCall} {r : CdpStatus} (h : SetOk cfg s p)
    (hr : r.bitmapSet = p.r.bitmapSet)
    (hd : p.pc = .weigh → cfg.nbits ≤ 64 * p.word) : SetOk cfg s (p.to r) := by
  refine ⟨hr.trans_le h.room, fun hc => ?_, fun hp => ?_⟩
  · obtain ⟨h1, h2, h3⟩ := h.marks hc
    exact ⟨h1.trans hr.ge, hr.trans_le h2, h3⟩
  · by_cases hpc : p.pc = .weigh
    · exact hd hpc
    · apply h.done
      obtain ⟨fn, pc, w, r0, b, m⟩ := p
      cases fn <;> cases pc <;>
        simp_all [StatusCall.past, StatusCall.to, StatusFn.rank, StatusFn.next]

theorem holds_to {p : StatusCall} {r : CdpStatus} (h : (p.to r).holds = true) :
    p.fn = .ioctl ∧ p.pc ≠ .unlock ∧ (p.pc = .lock ∨ p.holds = true) := by
  obtain ⟨fn, pc, w, r0, b, m⟩ := p
  cases fn <;> cases pc <;>
    simp_all [StatusCall.holds, StatusCall.past, StatusCall.to, StatusFn.rank, StatusFn.next]

theorem to_pc (p : StatusCall) (r : CdpStatus) : (p.to r).fn = .info → (p.to r).pc ≠ .unlock := by
  obtain ⟨fn, pc, w, r0, b, m⟩ := p
  cases fn <;> cases pc <;> simp [StatusCall.to, StatusFn.next]

theorem StatusCallOk.to {c : Nat} {p : StatusCall} {r : CdpStatus} (h : StatusCallOk cfg minor s c p)
    (hk : s'.k = s.k) (hr : s'.reset = s.reset) (hc : s'.cleared = s.cleared)
    (hrep : s'.reports = s.reports) (hf : (p.to r).finish s.k.t = p.finish s.k.t)
    (hset : r.bitmapSet = p.r.bitmapSet) (hw : p.pc = .weigh → cfg.nbits ≤ 64 * p.word)
    (hheld : (p.to r).holds = true → s'.holder = some c ∧ r.seqNext = s.k.log.length)
    (hfix : r.Fixed cfg minor) : StatusCallOk cfg minor s' c (p.to r) := by
  refine h.view hk hr hrep hf rfl rfl ?_ hheld (to_pc p r) hfix
  exact (h.set.later (.of_same hk hr hc)).to hset hw

theorem StatusInv.read {c : Nat} {p : StatusCall} {r : CdpStatus} (h : StatusInv cfg minor s)
    (hp : s.calls c = some p) (hf : (p.to r).finish s.k.t = p.finish s.k.t)
    (hset : r.bitmapSet = p.r.bitmapSet) (hw : p.pc = .weigh → cfg.nbits ≤ 64 * p.word)
    (hseq : r.seqNext = p.r.seqNext) (hlock : p.pc ≠ .lock) (hfix : r.Fixed cfg minor) :
    StatusInv cfg minor (s.setCall c (p.to r)) := by
  refine h.move (c:=c) rfl rfl rfl rfl rfl (fun d hd => Function.update_of_ne hd _ _)
    (fun _ _ _ _ _ => rfl) fun q hq => ?_
  obtain rfl := Option.some.inj ((Function.update_self c _ _).symm.trans hq)
  have hown := h.calls c p hp
  refine hown.to rfl rfl rfl rfl hf hset hw (fun hh => ?_) hfix
  obtain ⟨_, _, hpc | hh⟩ := holds_to hh
  · exact absurd hpc hlock
  · rw [hseq]
    exact hown.held hh

theorem finish_out {p : StatusCall} (t : Target) (h : p.pc = .out) : p.finish t = p.r := by
  obtain ⟨fn, pc, w, r, b, m⟩ := p
  dsimp only at h
  subst h
  cases fn <;> simp [StatusCall.finish, StatusCall.past, StatusFn.rank, ones]

theorem StatusCallOk.report {c : Nat} {p : StatusCall} (h : StatusCallOk cfg minor s c p)
    (hpc : p.pc = .out) :
    ReportOk cfg minor s ⟨p.fn, p.r, p.before, p.marked, s.k.t.bitmap⟩ := by
  have hfin := finish_out s.k.t hpc
  have hpast : p.past .weigh = true := by
    obtain ⟨fn, pc, w, r, b, m⟩ := p
    dsimp only at hpc
    subst hpc
    cases fn <;> simp [StatusCall.past, StatusFn.rank]
  have hmin : min (64 * p.word) cfg.nbits = cfg.nbits := min_eq_right (h.set.done hpast)
  have hnum := h.num
  have horder := h.order
  rw [hfin] at hnum
  refine ⟨hnum, h.fixed, ?_, fun hc => ?_, h.before, fun j q hq hj => ?_⟩
  · exact h.set.room.trans hmin.le
  · obtain ⟨h1, h2, _⟩ := h.set.marks hc
    rw [hmin] at h1 h2
    exact ⟨h1, h2⟩
  · exact hfin ▸ horder j q hq hj

theorem StatusInv.out {c : Nat} {ok : Bool} {p : StatusCall} (h : StatusInv cfg minor s)
    (hp : s.calls c = some p) (hpc : p.pc = .out) (hs : loadAt s c ok p .out = some s') :
    StatusInv cfg minor s' := by
  obtain ⟨m, hm, hk, he, hh, hr, hc, hcalls, hrep⟩ : ∃ m : List Report,
      (∀ q ∈ m, q = ⟨p.fn, p.r, p.before, p.marked, s.k.t.bitmap⟩) ∧ s'.k = s.k ∧
      s'.ends = s.ends ∧ s'.holder = s.holder ∧ s'.reset = s.reset ∧ s'.cleared = s.cleared ∧
      s'.calls = Function.update s.calls c none ∧ s'.reports = s.reports ++ m := by
    obtain rfl := Option.some.inj hs
    cases ok with
    | true =>
      refine ⟨_, fun q hq => ?_, rfl, rfl, rfl, rfl, rfl, rfl, rfl⟩
      simpa using hq
    | false =>
      refine ⟨[], fun q hq => ?_, rfl, rfl, rfl, rfl, rfl, rfl, (List.append_nil _).symm⟩
      cases hq
  have hl : Later s s' := .of_same hk hr hc
  have hcount := h.counter.view hk he hr
  refine ⟨hcount, fun d q hq => ?_, fun i q hq => ?_⟩
  · rw [hcalls] at hq
    by_cases hd : d = c
    · subst hd
      rw [Function.update_self] at hq
      cases hq
    · rw [Function.update_of_ne hd] at hq
      exact (h.calls d q hq).later h.counter hl hcount (fun _ => hh) hrep
  · rw [hrep] at hq
    rcases List.mem_append.mp (List.mem_of_getElem? hq) with hq | hq
    · obtain ⟨j, hj⟩ := List.mem_iff_getElem?.mp hq
      exact (h.reports j q hj).later hl hcount hrep
    · rw [hm q hq]
      exact ((h.calls c p hp).report hpc).later hl hcount hrep

theorem StatusInv.lock {c : Nat} {ok : Bool} {p : StatusCall} (h : StatusInv cfg minor s)
    (hp : s.calls c = some p) (hpc : p.pc = .lock) (hs : loadAt s c ok p .lock = some s') :
    StatusInv cfg minor s' := by
  unfold loadAt at hs
  dsimp only at hs
  split at hs
  · rename_i hfree
    obtain rfl := Option.some.inj hs
    have hown := h.calls c p hp
    refine h.move (c:=c) rfl rfl rfl rfl rfl (fun d hd => Function.update_of_ne hd _ _)
      (fun d q hd hq hh => ?_) fun q hq => ?_
    · have hd := ((h.calls d q hq).held hh).1
      rw [hfree] at hd
      cases hd
    · obtain rfl := Option.some.inj ((Function.update_self c _ _).symm.trans hq)
      have hf := hown.fixed
      refine hown.to rfl rfl rfl rfl (finish_lock s.k.t hpc) rfl (fun e => ?_) (fun hh => ?_)
        ⟨hf.abi, hf.chunk, hf.minor, hf.bits, hf.bytes, hf.size⟩
      · rw [hpc] at e
        cases e
      · obtain ⟨hfn, _, _⟩ := holds_to hh
        exact ⟨if_pos hfn, h.counter.k.log.seq⟩
  · cases hs

theorem StatusInv.unlock {c : Nat} {ok : Bool} {p : StatusCall} (h : StatusInv cfg minor s)
    (hp : s.calls c = some p) (hpc : p.pc = .unlock) (hs : loadAt s c ok p .unlock = some s') :
    StatusInv cfg minor s' := by
  obtain rfl := Option.some.inj hs
  have hown := h.calls c p hp
  have hfn : p.fn = .ioctl := by
    cases hfn : p.fn with
    | ioctl => rfl
    | info => exact absurd hpc (hown.pc hfn)
  have hheld : s.holder = some c := by
    apply (hown.held _).1
    simp [StatusCall.holds, StatusCall.past, hfn, hpc, StatusFn.rank]
  refine h.move (c:=c) rfl rfl rfl rfl rfl (fun d hd => Function.update_of_ne hd _ _)
    (fun d q hd hq hh => ?_) fun q hq => ?_
  · have hother := ((h.calls d q hq).held hh).1
    rw [hheld] at hother
    exact absurd (Option.some.inj hother).symm hd
  · obtain rfl := Option.some.inj ((Function.update_self c _ _).symm.trans hq)
    refine hown.to rfl rfl rfl rfl (finish_unlock s.k.t hpc hfn) rfl (fun e => ?_) (fun hh => ?_)
      hown.fixed
    · rw [hpc] at e
      cases e
    · exact absurd hpc (holds_to hh).2.1

theorem StatusInv.load {c : Nat} {ok : Bool} (h : StatusInv cfg minor s)
    (hs : statementStep s c ok = some s') : StatusInv cfg minor s' := by
  obtain ⟨p, hp, hs⟩ := Option.bind_eq_some_iff.mp hs
  have hown := h.calls c p hp
  have hf := hown.fixed
  have hne : ∀ {x}, p.pc = x → x ≠ .weigh → p.pc = .weigh → cfg.nbits ≤ 64 * p.word :=
    fun e1 e2 e3 => absurd (e1.symm.trans e3) e2
  cases hpc : p.pc with
  | weigh =>
    rw [hpc] at hs
    unfold loadAt at hs
    dsimp only at hs
    split at hs
    · rename_i hw
      obtain rfl := Option.some.inj hs
      refine h.move (c:=c) rfl rfl rfl rfl rfl (fun d hd => Function.update_of_ne hd _ _)
        (fun _ _ _ _ _ => rfl) fun q hq => ?_
      obtain rfl := Option.some.inj ((Function.update_self c _ _).symm.trans hq)
      refine hown.view rfl rfl rfl (finish_weigh s.k.t hpc hw) rfl rfl
        ((hown.set.weigh h.counter.nbits hpc hw).later (.of_same rfl rfl rfl)) (fun hh => hown.held hh)
        hown.pc ⟨hf.abi, hf.chunk, hf.minor, hf.bits, hf.bytes, hf.size⟩
    · rename_i hw
      obtain rfl := Option.some.inj hs
      refine h.read hp (finish_weighed s.k.t hpc hw) rfl (fun _ => ?_) rfl (by simp [hpc]) hf
      unfold Target.nlongs at hw
      rw [h.counter.nbits] at hw
      omega
  | lock => exact h.lock hp hpc (hpc ▸ hs)
  | records =>
    rw [hpc] at hs
    obtain rfl := Option.some.inj hs
    exact h.read hp (finish_records s.k.t hpc) rfl (hne hpc ReportPc.noConfusion) rfl (by simp [hpc])
      ⟨hf.abi, hf.chunk, hf.minor, hf.bits, hf.bytes, hf.size⟩
  | bytes =>
    rw [hpc] at hs
    obtain rfl := Option.some.inj hs
    exact h.read hp (finish_bytes s.k.t hpc) rfl (hne hpc ReportPc.noConfusion) rfl (by simp [hpc])
      ⟨hf.abi, hf.chunk, hf.minor, hf.bits, hf.bytes, hf.size⟩
  | unlock => exact h.unlock hp hpc (hpc ▸ hs)
  | dead =>
    rw [hpc] at hs
    obtain rfl := Option.some.inj hs
    exact h.read hp (finish_dead s.k.t hpc) rfl (hne hpc ReportPc.noConfusion) rfl (by simp [hpc])
      ⟨hf.abi, hf.chunk, hf.minor, hf.bits, hf.bytes, hf.size⟩
  | out => exact h.out hp hpc (hpc ▸ hs)

theorem StatusInv.step {a : StatusAct} (h : StatusInv cfg minor s)
    (hs : statusStep cfg minor s a = some s') : StatusInv cfg minor s' := by
  cases ha : a.ofCall with
  | false =>
    obtain ⟨hc, hl, hside⟩ := aside_step h.counter hs ha
    have hrep : s'.reports = s.reports ++ [] := by rw [hside.reports, List.append_nil]
    refine ⟨hc, fun c p hp => ?_, fun i q hq => ?_⟩
    · rw [hside.calls] at hp
      exact (h.calls c p hp).later h.counter hl hc (fun _ => hside.holder) hrep
    · rw [hside.reports] at hq
      exact (h.reports i q hq).later hl hc hrep
  | true =>
    unfold statusStep at hs
    split at hs
    · cases hs
    · cases a with
      | call c fn len => exact h.call hs
      | load c ok => exact h.load hs
      | _ => cases ha

theorem StatusInv.init (cfg : Config) (minor : Nat) (dev : Nat → UInt8) :
    StatusInv cfg minor (StatusSt.init cfg dev) := by
  refine ⟨CounterInv.init cfg dev, fun c p hp => ?_, fun i q hq => ?_⟩
  · cases hp
  · simp [StatusSt.init] at hq

end

/-! ## the main result -/

/-- **Every report of `cdp_ioctl_status` and `cdp_status` is consistent.** -/
theorem status_sound (cfg : Config) (minor : Nat) (dev : Nat → UInt8) (as : List StatusAct)
    (s : StatusSt) (h : exec (statusStep cfg minor) (StatusSt.init cfg dev) as = some s) :
    ∀ (i : Nat) (q : Report), s.reports[i]? = some q → ReportOk cfg minor s q ∧
      (q.fn = .ioctl → s.reset = false → q.r.ringUsed = 0 →
        q.r.records = q.r.seqNext ∧ q.r.bytesLogged = logBytes s.k.log q.r.seqNext) := by
  have hinv := exec_invariant (P:=StatusInv cfg minor) (fun _ _ _ hi hs => hi.step hs)
    (StatusInv.init cfg minor dev) h
  intro i q hq
  have hok := hinv.reports i q hq
  refine ⟨hok, fun hf hr hu => ?_⟩
  have hnum := hok.num
  rw [hf] at hnum
  exact hnum.drained hr hu

/-! ## a run -/

/-- `cdp_status` is past its lock section when a second record is reserved and counted; a call of
`cdp_ioctl_status` reads the counters between the two steps of that `cdp_end_io` -/
def statusRun : List StatusAct :=
  [.target (.map flushBio), .target (.reserve 0 0), .target (.copy 0), .target (.land 0),
    .count 0 false, .add 0, .commit 0 false, .call 0 .info 8192, .load 0 true,
    .target (.map ⟨.write, 0, 512, false, false, fun _ => 1⟩), .target (.reserve 1 0),
    .target (.copy 1), .target (.land 1), .count 1 false,
    .call 1 .ioctl 8192, .load 1 true, .load 1 true, .load 1 true, .load 1 true, .load 1 true,
    .load 1 true, .load 1 true, .load 1 true, .add 1, .commit 1 false,
    .load 0 true, .load 0 true, .load 0 true, .load 0 true, .load 0 true, .load 0 true]

/-- the report of `cdp_status` has more records than seqs -/
theorem status_sound_run : ∃ s, exec (statusStep smallConfig 7)
    (StatusSt.init smallConfig fun _ => 0) statusRun = some s ∧
    ∃ q p : Report, s.reports = [q, p] ∧ ReportOk smallConfig 7 s q ∧ ReportOk smallConfig 7 s p ∧
      (q.fn = .ioctl ∧ q.r.seqNext = 2 ∧ q.r.records = 2 ∧ q.r.bytesLogged = 0) ∧
      p.fn = .info ∧ p.r.seqNext = 1 ∧ p.r.records = 2 := by
  have h : (exec (statusStep smallConfig 7) (StatusSt.init smallConfig fun _ => 0) statusRun).any
      (fun s => s.reports.length == 2 && (s.reports[0]?.any (fun q => q.fn == .ioctl &&
          q.r.seqNext == 2 && q.r.records == 2 && q.r.bytesLogged == 0) &&
        s.reports[1]?.any fun p => p.fn == .info && p.r.seqNext == 1 && p.r.records == 2)) = true := by
    decide +kernel
  obtain ⟨s, hs, hp⟩ := (Option.any_eq_true _ _).mp h
  have hok := status_sound smallConfig 7 (fun _ => 0) statusRun s hs
  simp only [Bool.and_eq_true, beq_iff_eq, Option.any_eq_true] at hp
  obtain ⟨hlen, ⟨q, hq, ⟨⟨h1, h2⟩, h3⟩, h4⟩, p, hp, ⟨h5, h6⟩, h7⟩ := hp
  have hq' := (hok 0 q hq).1
  have hp' := (hok 1 p hp).1
  obtain ⟨a, b, hrep⟩ := List.length_eq_two.mp hlen
  rw [hrep] at hq hp
  obtain rfl : a = q := Option.some.inj hq
  obtain rfl : b = p := Option.some.inj hp
  exact ⟨s, hs, a, b, hrep, hq', hp', ⟨h1, h2, h3, h4⟩, h5, h6, h7⟩

end CDP
