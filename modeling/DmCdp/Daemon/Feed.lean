import DmCdp.Kernel.Reproduce
import DmCdp.Daemon.Replica

/-!
# The target as the daemon sees it

The target with its unread records as `iter_records` will yield them.  A bio is one step here: it
is marked, logged or dropped, reaches the device and completes, all at once.  Left out are runs in
which a bio is in flight beside a step of the daemon, such as the read of a chunk, and runs in
which bios that overlap are in flight together; the target's own machine has them all.

* `Feed.write`        `cdp_map` to `cdp_end_io` of one bio, by the functions of the target;
* `Feed.failed`       the same for a bio that the device fails;
* `Feed.read`         `cdp_read` of so many records;
* `Feed.write_cases`  what a bio does: to the device, the bitmap, `gap_pending`, the records;
* `bio_refines`, `fail_refines`, `reader_refines`  the steps of the target's own machine that make
                    these up.
-/

set_option linter.unusedVariables false

namespace CDP
open Img Mach

/-! ## the feed -/

/-- a record with the payload that `iter_records` cuts out of it -/
def itemOf (hdr : Rec) (payload : Nat) (data : Nat → UInt8) : Item where
  hdr := hdr
  payload := (slice data 0 payload).take (if hdr.type = RecWrite then hdr.len else 0)
  short := by
    refine (List.length_take_le _ _).trans ?_
    split
    · exact Nat.le_refl _
    · exact Nat.zero_le _

structure Feed where
  t : Target
  -- the unread records with their offsets, all committed
  live : List (Nat × Item)
  -- the range of the target: what `/dev/mapper/rkcdp` reads
  dev : Nat → UInt8

def Feed.init (cfg : Config) (dev : Nat → UInt8) : Feed := ⟨cdpCtr cfg, [], dev⟩

def Feed.unread (q : Feed) : List Item := q.live.map Prod.snd

/-- what a bio writes, in the range of the target -/
def Bio.effect (cfg : Config) (b : Bio) (x : Nat) : Option UInt8 := b.patch cfg (cfg.start * 512 + x)

/-- the record of a bio that has completed -/
def LogArgs.item (a : LogArgs) (t : Target) (ts : Nat) (data : Nat → UInt8) : Item :=
  itemOf { t.header a.type a.flags a.sector a.len (recNeed a.payload) ts with state := StCommitted }
    a.payload data

/-- `cdp_map`, the device and `cdp_end_io` of one bio -/
def Feed.write (cfg : Config) (q : Feed) (b : Bio) (ts : Nat) : Feed :=
  let dev := overlay (b.effect cfg) q.dev
  match cdpMapArgs cfg b with
  | none => { q with dev := dev }
  | some a =>
    match cdpReserve (cdpMark q.t a.sector a.len) a.type a.flags a.sector a.len a.payload ts with
    | (none, t) => { q with t := t, dev := dev }
    | (some off, t) =>
      { t := cdpEndIo (cdpCopy t off a.payload b.data) off false
        live := q.live ++ [(off, a.item q.t ts b.data)]
        dev := dev }

/-- the record with the flag that `cdp_end_io` sets -/
def Item.failed (r : Item) : Item :=
  { r with hdr := { r.hdr with flags := r.hdr.flags ||| FError } }

/-- `cdp_map`, an error of the device and `cdp_end_io` of one bio -/
def Feed.failed (cfg : Config) (q : Feed) (b : Bio) (ts : Nat) : Feed :=
  match cdpMapArgs cfg b with
  | none => q
  | some a =>
    match cdpReserve (cdpMark q.t a.sector a.len) a.type a.flags a.sector a.len a.payload ts with
    | (none, t) => { q with t := t }
    | (some off, t) =>
      { q with
        t := cdpEndIo (cdpCopy t off a.payload b.data) off true
        live := q.live ++ [(off, (a.item q.t ts b.data).failed)] }

/-- `cdp_read` of `k` records; fewer if there are not that many -/
def Feed.read : Nat → Feed → List Item × Feed
  | 0, q => ([], q)
  | k + 1, q =>
    match q.live with
    | [] => ([], q)
    | (off, r) :: live =>
      let out := Feed.read k
        { q with t := { q.t with tail := u64 (off + r.hdr.recLen) }, live := live }
      (r :: out.1, out.2)

def Config.size (cfg : Config) : Nat := cfg.len * 512

def Config.chunkOf (cfg : Config) (x : Nat) : Nat := x / 512 / cfg.chunkSectors

theorem Config.chunkOf_lt {cfg : Config} {x : Nat} (hx : x < cfg.size) : cfg.chunkOf x < cfg.nbits := by
  have hpos := cfg.chunkSectors_pos
  have hx' : x < 512 * cfg.len := by
    rw [Nat.mul_comm]
    exact hx
  unfold Config.chunkOf Config.nbits
  rw [Nat.div_lt_iff_lt_mul hpos]
  have h1 : cfg.len ≤ (cfg.len + cfg.chunkSectors - 1) / cfg.chunkSectors * cfg.chunkSectors := by
    have := Nat.lt_div_mul_add (a:=cfg.len + cfg.chunkSectors - 1) hpos
    omega
  omega

/-! ## what a bio does -/

section
variable {cfg : Config} {b : Bio} {a : LogArgs} {q : Feed} {t : Target} {ts x : Nat}

theorem Bio.effect_eq (hok : b.Ok cfg) (n : Nat) (f : Nat → UInt8) (hb : 0 < b.bytes) :
    span (b.devSector cfg * 512) n f (cfg.start * 512 + x) = span (b.rel cfg * 512) n f x := by
  have hsl := cfg.start_len
  have hrel := (Bio.rel_eq hok hb).2
  have hdev : b.devSector cfg = cfg.start + b.rel cfg := u64_of_lt (by omega)
  rw [hdev, Nat.add_mul]
  exact (span_shift _ _ _ _ _).symm

theorem Bio.effect_range (hok : b.Ok cfg) (h : b.effect cfg x ≠ none) :
    0 < b.bytes ∧ b.rel cfg * 512 ≤ x ∧ x < b.rel cfg * 512 + b.bytes := by
  have hspan : ∀ f : Nat → UInt8,
      span (b.devSector cfg * 512) b.bytes f (cfg.start * 512 + x) ≠ none →
      0 < b.bytes ∧ b.rel cfg * 512 ≤ x ∧ x < b.rel cfg * 512 + b.bytes := by
    intro f hf
    by_cases hb : 0 < b.bytes
    · rw [Bio.effect_eq hok b.bytes f hb] at hf
      by_contra hc
      exact hf (span_out _ (by omega))
    · have hn : ¬(b.devSector cfg * 512 ≤ cfg.start * 512 + x ∧
          cfg.start * 512 + x < b.devSector cfg * 512 + b.bytes) := by
        omega
      exact absurd (span_out f hn) hf
  unfold Bio.effect Bio.patch at h
  cases hop : b.op with
  | read => rw [hop] at h; exact absurd rfl h
  | other => rw [hop] at h; exact absurd rfl h
  | write => rw [hop] at h; exact hspan _ h
  | discard => rw [hop] at h; exact hspan _ h
  | secureErase => rw [hop] at h; exact hspan _ h
  | writeZeroes => rw [hop] at h; exact hspan _ h

theorem cdpMapArgs_of_effect (h : b.effect cfg x ≠ none) : ∃ a, cdpMapArgs cfg b = some a := by
  cases ha : cdpMapArgs cfg b with
  | none => exact absurd (Bio.patch_none ha _) h
  | some a => exact ⟨a, rfl⟩

/-- **A bio marks the chunks of the bytes it writes.** -/
theorem Bio.effect_touches (hok : b.Ok cfg) (h : b.effect cfg x ≠ none) :
    b.touches cfg (cfg.chunkOf x) ∧ x < cfg.len * 512 := by
  obtain ⟨hb, h1, h2⟩ := Bio.effect_range hok h
  obtain ⟨a, ha⟩ := cdpMapArgs_of_effect h
  have hend := (Bio.rel_eq hok hb).2
  have hsec : b.bytes ≤ sectors b.bytes * 512 := by
    unfold sectors
    omega
  have hlt : x < cfg.len * 512 := by
    have h3 : x < 512 * cfg.len := by omega
    rw [Nat.mul_comm]
    exact h3
  have hfirst : b.rel cfg ≤ x / 512 := by omega
  have hlast : x / 512 < b.rel cfg + sectors b.bytes := by omega
  have hargs : a.sector = b.rel cfg ∧ a.len = b.bytes := by
    cases cdpMapArgs_cases ha with
    | flush _ h0 => omega
    | write _ _ => exact ⟨rfl, rfl⟩
    | discard _ => exact ⟨rfl, rfl⟩
    | zero _ => exact ⟨rfl, rfl⟩
  have hpos := cfg.chunkSectors_pos
  have h3 : cfg.chunkOf x * cfg.chunkSectors ≤ x / 512 := Nat.div_mul_le_self _ _
  have h4 : x / 512 < (cfg.chunkOf x + 1) * cfg.chunkSectors := by
    have := Nat.lt_div_mul_add (a:=x / 512) hpos
    rw [Nat.add_mul, Nat.one_mul]
    exact this
  refine ⟨?_, hlt⟩
  unfold Bio.touches
  rw [ha]
  show Touches cfg.chunkSectors a.sector a.len (cfg.chunkOf x)
  rw [hargs.1, hargs.2]
  exact ⟨lt_of_le_of_lt h3 hlast, lt_of_le_of_lt hfirst h4, hb⟩

/-- **A record writes to the replica what its bio wrote to the device.** -/
theorem item_patch (hok : b.Ok cfg) (ha : cdpMapArgs cfg b = some a) (x : Nat) :
    (a.item t ts b.data).patch x = b.effect cfg x := by
  have hty : (a.item t ts b.data).hdr.type = a.type := rfl
  have hsec : (a.item t ts b.data).hdr.sector = a.sector := rfl
  have hlen : (a.item t ts b.data).hdr.len = a.len := rfl
  unfold Item.patch Bio.effect Bio.patch
  rw [hty, hsec, hlen]
  cases cdpMapArgs_cases ha with
  | flush hop hb =>
    rw [hop]
    dsimp only
    rw [if_neg (by decide : ¬RecFlush = RecWrite),
      if_neg (by decide : ¬(RecFlush = RecDiscard ∨ RecFlush = RecZero)), hb]
    exact (span_out _ (by omega)).symm
  | write hop hb =>
    rw [hop]
    dsimp only
    have hpay : (LogArgs.item ⟨RecWrite, b.flags, b.rel cfg, b.bytes, true⟩ t ts b.data).payload
        = slice b.data 0 b.bytes := by
      show (slice b.data 0 b.bytes).take b.bytes = _
      exact List.take_of_length_le (by rw [length_slice])
    rw [if_pos rfl, Bio.effect_eq hok b.bytes b.data hb, hpay, length_slice]
    refine congrFun (span_congr fun i hi => ?_) x
    rw [List.getD_eq_getElem?_getD, getElem?_slice, if_pos hi, Nat.zero_add]
    rfl
  | discard hop =>
    dsimp only
    rw [if_neg (by decide : ¬RecDiscard = RecWrite),
      if_pos (by decide : RecDiscard = RecDiscard ∨ RecDiscard = RecZero)]
    by_cases hb : 0 < b.bytes
    · rcases hop with hop | hop <;> (rw [hop]; exact (Bio.effect_eq hok b.bytes _ hb).symm)
    · rcases hop with hop | hop <;>
        (rw [hop]; dsimp only; rw [span_out _ (by omega), span_out _ (by omega)])
  | zero hop =>
    rw [hop]
    dsimp only
    rw [if_neg (by decide : ¬RecZero = RecWrite),
      if_pos (by decide : RecZero = RecDiscard ∨ RecZero = RecZero)]
    by_cases hb : 0 < b.bytes
    · exact (Bio.effect_eq hok b.bytes _ hb).symm
    · rw [span_out _ (by omega), span_out _ (by omega)]

/-! ## the spec of a write -/

theorem Feed.write_refused (ha : cdpMapArgs cfg b = some a)
    (h : cdpReserve (cdpMark q.t a.sector a.len) a.type a.flags a.sector a.len a.payload ts
      = (none, t)) :
    q.write cfg b ts = { q with t := t, dev := overlay (b.effect cfg) q.dev } := by
  unfold Feed.write
  rw [ha]
  dsimp only
  rw [h]

theorem Feed.write_granted {off : Nat} (ha : cdpMapArgs cfg b = some a)
    (h : cdpReserve (cdpMark q.t a.sector a.len) a.type a.flags a.sector a.len a.payload ts
      = (some off, t)) :
    q.write cfg b ts =
      { t := cdpEndIo (cdpCopy t off a.payload b.data) off false
        live := q.live ++ [(off, a.item q.t ts b.data)]
        dev := overlay (b.effect cfg) q.dev } := by
  unfold Feed.write
  rw [ha]
  dsimp only
  rw [h]

theorem cdpReserve_out (ts : Nat) {type flags sector len payload : Nat} :
    cdpReserve t type flags sector len payload ts = (none, t.overflow) ∨
    ∃ off t', cdpReserve t type flags sector len payload ts = (some off, t') ∧
      t'.gapPending = false ∧ t'.seqNext = u64 (t.seqNext + 1) ∧ t'.bitmap = t.bitmap ∧
      t'.chunkSectors = t.chunkSectors ∧ t'.nbits = t.nbits := by
  unfold cdpReserve
  dsimp only
  split
  · exact Or.inl rfl
  · split
    · exact Or.inl rfl
    · exact Or.inr ⟨_, _, rfl, rfl, rfl, rfl, rfl, rfl⟩

structure Feed.Shape (cfg : Config) (q : Feed) : Prop where
  chunk : q.t.chunkSectors = cfg.chunkSectors
  nbits : q.t.nbits = cfg.nbits

/-- what a bio leaves: every bit that was set, and the bit of every byte it writes -/
structure Marked (cfg : Config) (b : Bio) (q q' : Feed) : Prop where
  shape : q'.Shape cfg
  mono : ∀ c, q.t.bitmap c = true → q'.t.bitmap c = true
  bit : ∀ x, b.effect cfg x ≠ none → q'.t.bitmap (cfg.chunkOf x) = true ∧ x < cfg.len * 512
  dev : q'.dev = overlay (b.effect cfg) q.dev

/-- the three things that can happen to a bio -/
inductive Wrote (cfg : Config) (b : Bio) (q q' : Feed) : Prop
  | silent : (∀ x, b.effect cfg x = none) → q'.t = q.t → q'.live = q.live → Wrote cfg b q q'
  | dropped : q'.live = q.live → q'.t.gapPending = true → q'.t.seqNext = q.t.seqNext →
      Wrote cfg b q q'
  | logged (off : Nat) (r : Item) : q'.live = q.live ++ [(off, r)] → r.patch = b.effect cfg →
      r.hdr.seq = q.t.seqNext → hasFlag r.hdr.flags FGapBefore = q.t.gapPending →
      q'.t.gapPending = false → q'.t.seqNext = u64 (q.t.seqNext + 1) → Wrote cfg b q q'

theorem Feed.write_cases (ts : Nat) (hq : q.Shape cfg) (hok : b.Ok cfg) :
    Marked cfg b q (q.write cfg b ts) ∧ Wrote cfg b q (q.write cfg b ts) := by
  cases ha : cdpMapArgs cfg b with
  | none =>
    have hn : ∀ x, b.effect cfg x = none := fun x => Bio.patch_none ha _
    have hw : q.write cfg b ts = { q with dev := overlay (b.effect cfg) q.dev } := by
      unfold Feed.write
      rw [ha]
    rw [hw]
    exact ⟨⟨⟨hq.chunk, hq.nbits⟩, fun c h => h, fun x hx => absurd (hn x) hx, rfl⟩,
      .silent hn rfl rfl⟩
  | some a =>
    obtain ⟨_, _, _, _, eq, _, en, ec⟩ := cdpMark_same q.t a.sector a.len
    have hgap : (cdpMark q.t a.sector a.len).gapPending = q.t.gapPending := by
      unfold cdpMark
      split <;> rfl
    have hbit : ∀ x, b.effect cfg x ≠ none →
        (cdpMark q.t a.sector a.len).bitmap (cfg.chunkOf x) = true ∧ x < cfg.len * 512 := by
      intro x hx
      obtain ⟨ht, hlt⟩ := Bio.effect_touches hok hx
      exact ⟨mark_touches hq.chunk hq.nbits hok ha ht, hlt⟩
    rcases cdpReserve_out (t:=cdpMark q.t a.sector a.len) ts with
      e | ⟨off, t', e, h1, h2, h3, h4, h5⟩
    · rw [Feed.write_refused ha e]
      exact ⟨⟨⟨ec.trans hq.chunk, en.trans hq.nbits⟩,
        fun c h => cdpMark_bitmap_mono q.t a.sector a.len c h, hbit, rfl⟩, .dropped rfl rfl eq⟩
    · rw [Feed.write_granted ha e]
      refine ⟨⟨⟨h4.trans (ec.trans hq.chunk), h5.trans (en.trans hq.nbits)⟩,
        fun c h => ?_, fun x hx => ?_, rfl⟩, ?_⟩
      · show t'.bitmap c = true
        rw [h3]
        exact cdpMark_bitmap_mono q.t a.sector a.len c h
      · show t'.bitmap (cfg.chunkOf x) = true ∧ _
        rw [h3]
        exact hbit x hx
      · refine .logged off _ rfl (funext fun x => item_patch hok ha x) rfl ?_ h1 (h2.trans (by rw [eq]))
        show hasFlag (if q.t.gapPending then a.flags ||| FGapBefore else a.flags) FGapBefore = _
        rw [cdpMapArgs_flags ha]
        exact hasFlag_gap _ b

end

/-- **What a read does**: it hands out the first records and moves the tail. -/
theorem Feed.read_cases (k : Nat) (q : Feed) :
    (q.read k).1 ++ (q.read k).2.unread = q.unread ∧ (q.read k).2.dev = q.dev ∧
      ∃ tail, (q.read k).2.t = { q.t with tail := tail } := by
  induction k generalizing q with
  | zero => exact ⟨rfl, rfl, q.t.tail, rfl⟩
  | succ k ih =>
    unfold Feed.read
    cases hl : q.live with
    | nil => exact ⟨rfl, rfl, q.t.tail, rfl⟩
    | cons e live =>
      obtain ⟨h1, h2, tail, h3⟩ := ih
        { q with t := { q.t with tail := u64 (e.1 + e.2.hdr.recLen) }, live := live }
      refine ⟨?_, h2, tail, h3⟩
      show e.2 :: (_ ++ _) = _
      rw [h1]
      unfold Feed.unread
      rw [hl]
      rfl

theorem Feed.Shape.read {cfg : Config} {q : Feed} (h : q.Shape cfg) (k : Nat) :
    (q.read k).2.Shape cfg := by
  obtain ⟨_, _, tail, ht⟩ := Feed.read_cases k q
  refine ⟨?_, ?_⟩
  · rw [ht]
    exact h.chunk
  · rw [ht]
    exact h.nbits

/-! ## the machine of the target behind it -/

theorem modify_concat {α : Type*} (l : List α) (x : α) (f : α → α) :
    (l ++ [x]).modify l.length f = l ++ [f x] := by
  induction l with
  | nil => rfl
  | cons y l ih =>
    rw [List.cons_append, List.length_cons, List.modify_succ_cons, ih]
    rfl

def KState.feed (cfg : Config) (s : KState) : Feed where
  t := s.t
  live := (s.log.drop s.nread).map fun e => (e.off, itemOf e.header e.payload e.data)
  dev := fun x => s.dev (cfg.start * 512 + x)

/-- the steps of one bio, from `cdp_map` to the end of `cdp_end_io` -/
def bioActs (cfg : Config) (s : KState) (b : Bio) (ts : Nat) : List KAct :=
  let n := s.flights.length
  match cdpMapArgs cfg b with
  | none => [.map b, .land n, .endIo n false]
  | some a =>
    if Refused s.t a.payload then [.map b, .reserve n ts, .land n, .endIo n false]
    else [.map b, .reserve n ts, .copy n, .land n, .endIo n false]

/-- the steps of one bio up to the device -/
def submitActs (cfg : Config) (s : KState) (b : Bio) (ts : Nat) : List KAct :=
  let n := s.flights.length
  match cdpMapArgs cfg b with
  | none => [.map b]
  | some a =>
    if Refused s.t a.payload then [.map b, .reserve n ts] else [.map b, .reserve n ts, .copy n]

theorem bioActs_eq (cfg : Config) (s : KState) (b : Bio) (ts : Nat) :
    bioActs cfg s b ts
      = submitActs cfg s b ts ++ [.land s.flights.length, .endIo s.flights.length false] := by
  unfold bioActs submitActs
  cases cdpMapArgs cfg b with
  | none => rfl
  | some a =>
    dsimp only
    by_cases hr : Refused s.t a.payload
    · rw [if_pos hr, if_pos hr]
      rfl
    · rw [if_neg hr, if_neg hr]
      rfl

section
variable {cfg : Config} {b : Bio} {s s' : KState} {ts : Nat}

/-- a bio that the device has, with its record if it got one -/
inductive Submitted (cfg : Config) (s : KState) (b : Bio) (ts : Nat) : KState → Prop
  | silent : cdpMapArgs cfg b = none →
      Submitted cfg s b ts
        { s with flights := s.flights ++ [⟨b, .submitted, false, 0, none, false, fun _ => false⟩] }
  | refused (a : LogArgs) (t : Target) : cdpMapArgs cfg b = some a →
      cdpReserve (cdpMark s.t a.sector a.len) a.type a.flags a.sector a.len a.payload ts
        = (none, t) →
      Submitted cfg s b ts
        { s with
          t := t
          flights := s.flights ++ [⟨b, .submitted, false, 0, none, false, fun _ => false⟩] }
  | granted (a : LogArgs) (t : Target) (e : Entry) : cdpMapArgs cfg b = some a →
      cdpReserve (cdpMark s.t a.sector a.len) a.type a.flags a.sector a.len a.payload ts
        = (some e.off, t) →
      (∀ error, itemOf (e.setStage (.ended error)).header e.payload e.data
        = if error then (a.item s.t ts b.data).failed else a.item s.t ts b.data) →
      Submitted cfg s b ts
        { s with
          t := cdpCopy t e.off a.payload b.data
          flights := s.flights ++
            [⟨b, .submitted, true, e.off, some s.log.length, false, fun _ => false⟩]
          log := s.log ++ [e.setStage .data] }

/-- **A bio gets to the device** in the steps of `submitActs`. -/
theorem submit_run (hk : KInv cfg s) (hok : b.Ok cfg) (hd : s.t.dead = false) (hts : ts < 2^64)
    (hw : ∀ a, cdpMapArgs cfg b = some a → Refused s.t a.payload ∨ NoWrap s.t a.payload) :
    ∃ s', exec (kstep cfg) s (submitActs cfg s b ts) = some s' ∧ Submitted cfg s b ts s' := by
  have hts' : ts < 18446744073709551616 := hts
  unfold submitActs
  cases ha : cdpMapArgs cfg b with
  | none =>
    refine ⟨_, ?_, .silent ha⟩
    simp [exec, kstep, mapStep, hok, hd, ha]
  | some a =>
    dsimp only
    obtain ⟨t, ht⟩ : ∃ t, cdpMark s.t a.sector a.len = t := ⟨_, rfl⟩
    obtain ⟨e1, e2, e3, e4, e5, e6, _, _⟩ := cdpMark_same s.t a.sector a.len
    have hgap : (cdpMark s.t a.sector a.len).gapPending = s.t.gapPending := by
      unfold cdpMark
      split <;> rfl
    rw [ht] at e1 e2 e3 e4 e5 hgap
    have hR : Refused t a.payload ↔ Refused s.t a.payload := by
      unfold Refused
      rw [e2, e3, e4]
    have hN : NoWrap t a.payload ↔ NoWrap s.t a.payload := by
      unfold NoWrap
      rw [e2, e3]
    have hcases := cdpReserve_cases (hk.log.ring.of_same e1 e2 e3 e4) a.type a.flags a.sector a.len
      a.payload ts
    by_cases hr : Refused s.t a.payload
    · have hres := (hcases.resolve_right fun h => h.1 (hR.mpr hr)).2
      refine ⟨_, ?_, .refused a t.overflow ha (ht ▸ hres)⟩
      rw [if_pos hr]
      simp [exec, kstep, mapStep, hok, hd, ha, ht, reserveStep, hR, hr, hres, hts', modify_concat,
        Flight.drop]
    · have hnw := (hw a ha).resolve_left hr
      have hres := (hcases.resolve_left fun h => hr (hR.mp h.1)).2 (hN.mpr hnw)
      obtain ⟨e, he⟩ : ∃ e, t.newEntry a.type a.flags a.sector a.len a.payload ts b.data = e :=
        ⟨_, rfl⟩
      have hoff : t.head + padLen t.ringSize t.head (recNeed a.payload) = e.off := by
        rw [← he]
        rfl
      rw [hoff] at hres
      refine ⟨_, ?_, .granted a _ e ha (ht ▸ hres) fun error => ?_⟩
      · rw [if_neg hr]
        simp [exec, kstep, mapStep, hok, hd, ha, ht, he, reserveStep, hR, hN, hnw, hres, hts',
          modify_concat, Flight.reserve, copyStep, Flight.submit]
      · rw [← he]
        unfold LogArgs.item Item.failed Entry.header Entry.setStage Target.newEntry Target.header
        cases error with
        | false => simp [hgap, e5]
        | true =>
          simp only [if_true, hgap, e5]
          rfl

/-- **`Feed.write` is a run of the target's machine** in which one bio takes all its steps. -/
theorem bio_refines (hk : KInv cfg s) (hok : b.Ok cfg) (hd : s.t.dead = false) (hts : ts < 2^64)
    (hw : ∀ a, cdpMapArgs cfg b = some a → Refused s.t a.payload ∨ NoWrap s.t a.payload) :
    ∃ s', exec (kstep cfg) s (bioActs cfg s b ts) = some s' ∧
      s'.feed cfg = (s.feed cfg).write cfg b ts := by
  obtain ⟨s1, h1, hs⟩ := submit_run hk hok hd hts hw
  rw [bioActs_eq]
  simp only [exec_append_some, h1, Option.some.injEq, exists_eq_left']
  cases hs with
  | silent ha =>
    refine ⟨_, by simp [exec, kstep, landStep, endIoStep, modify_concat, Flight.finish]; rfl, ?_⟩
    unfold Feed.write
    rw [ha]
    rfl
  | refused a t ha hres =>
    refine ⟨_, by simp [exec, kstep, landStep, endIoStep, modify_concat, Flight.finish]; rfl, ?_⟩
    exact (Feed.write_refused (q:=s.feed cfg) ha hres).symm
  | granted a t e ha hres hitem =>
    refine ⟨_, by simp [exec, kstep, landStep, endIoStep, modify_concat, Flight.finish]; rfl, ?_⟩
    rw [Feed.write_granted (q:=s.feed cfg) ha hres]
    unfold KState.feed
    dsimp only
    rw [List.drop_append_of_le_length hk.log.le, List.map_append, List.map_cons]
    exact congrArg (fun r => Feed.mk _ (_ ++ [(e.off, r)]) _) (hitem false)

/-- **`Feed.failed` is a run of the target's machine** in which the data never reaches the device. -/
theorem fail_refines (hk : KInv cfg s) (hok : b.Ok cfg) (hd : s.t.dead = false) (hts : ts < 2^64)
    (hw : ∀ a, cdpMapArgs cfg b = some a → Refused s.t a.payload ∨ NoWrap s.t a.payload) :
    ∃ s', exec (kstep cfg) s (submitActs cfg s b ts ++ [.endIo s.flights.length true]) = some s' ∧
      s'.feed cfg = (s.feed cfg).failed cfg b ts := by
  obtain ⟨s1, h1, hs⟩ := submit_run hk hok hd hts hw
  simp only [exec_append_some, h1, Option.some.injEq, exists_eq_left']
  cases hs with
  | silent ha =>
    refine ⟨_, by simp [exec, kstep, endIoStep, modify_concat, Flight.finish]; rfl, ?_⟩
    unfold Feed.failed
    rw [ha]
    rfl
  | refused a t ha hres =>
    refine ⟨_, by simp [exec, kstep, endIoStep, modify_concat, Flight.finish]; rfl, ?_⟩
    unfold Feed.failed
    rw [ha]
    dsimp only
    rw [show cdpReserve (cdpMark (s.feed cfg).t a.sector a.len) _ _ _ _ _ ts = _ from hres]
    rfl
  | granted a t e ha hres hitem =>
    refine ⟨_, by simp [exec, kstep, endIoStep, modify_concat, Flight.finish]; rfl, ?_⟩
    unfold Feed.failed
    rw [ha]
    dsimp only
    rw [show cdpReserve (cdpMark (s.feed cfg).t a.sector a.len) _ _ _ _ _ ts = _ from hres]
    unfold KState.feed
    dsimp only
    rw [List.drop_append_of_le_length hk.log.le, List.map_append, List.map_cons]
    exact congrArg (fun r => Feed.mk _ (_ ++ [(e.off, r)]) _) (hitem true)

/-- **A step of a reader takes the first record of the feed, or leaves it alone.** -/
theorem reader_refines {r : Nat} {ok : Bool} (hk : KInv cfg s)
    (h : readerStep s r ok = some s') :
    s'.feed cfg = s.feed cfg ∨ ∃ e, s.log[s.nread]? = some e ∧ e.Ended ∧
      (s.feed cfg).read 1 = ([itemOf e.header e.payload e.data], s'.feed cfg) := by
  cases reader_cases hk h with
  | tail pos e hpc hnext hend =>
    obtain ⟨hlog, rfl⟩ := hnext
    refine Or.inr ⟨e, hlog, hend, ?_⟩
    have hcons := hk.log.live_cons hlog
    have hneed : (itemOf e.header e.payload e.data).hdr.recLen = e.need := by
      show e.header.recLen = _
      rw [Entry.header_recLen]
      exact (hk.log.ok e (List.mem_of_getElem? hlog)).recLen
    unfold KState.feed Feed.read
    dsimp only
    rw [hcons]
    show ([_], Feed.mk { s.t with tail := u64 (e.off + _) } _ _) = _
    rw [hneed]
    rfl
  | _ => exact Or.inl rfl

end

end CDP
