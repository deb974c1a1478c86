import DmCdp.Daemon.Consume

/-!
# Reading in pieces and parking

`consume` and `apply_pending` around any `apply_one`: what they hand to it, in which order, and
what they leave of the buffer and of `pending.bin`.

* `LaidRec`         a record as `pack_rec` and `cdp_reserve` lay it out (`packRec_laid`,
                    `header_laid`);
* `Intake`          what the two functions work on, with `apply_one` as a parameter;
                    `consume_intake`: the `consume` of the daemon is this one;
* `parse_batch`     one buffer in front of the rest of the stream;
* `Halts`           what `iter_records` stops in front of without an error; `pieceLoop_halts`:
                    `apply_pending` on whole records and such bytes behind them;
* `pieces_same`     any cut into batches, parked or not, gives the same calls of `apply_one`.
-/

set_option linter.unusedVariables false

namespace CDP
open Img

/-! ## the layout -/

/-- a record with its payload and the padding to `CDP_REC_ALIGN` -/
structure LaidRec where
  hdr : Rec
  payload : List UInt8
  pad : List UInt8
  fits : hdr.Fits
  magic : hdr.magic = RecMagic
  recLen : hdr.recLen = align8 (RecSize + payload.length)
  padded : RecSize + payload.length + pad.length = hdr.recLen
  write : hdr.type = RecWrite → hdr.len = payload.length
  other : hdr.type ≠ RecWrite → payload = []

def LaidRec.srec (r : LaidRec) : SRec := ⟨r.hdr, r.payload ++ r.pad⟩

def LaidRec.bytes (r : LaidRec) : List UInt8 := r.hdr.bytes ++ r.payload ++ r.pad

/-- the record and its payload, as `apply_one` takes them -/
def LaidRec.item (r : LaidRec) : Item where
  hdr := r.hdr
  payload := r.payload
  short := by
    by_cases hw : r.hdr.type = RecWrite
    · exact (r.write hw).ge
    · rw [r.other hw]
      exact Nat.zero_le _

theorem LaidRec.srec_bytes (r : LaidRec) : r.srec.bytes = r.bytes :=
  (List.append_assoc _ _ _).symm

theorem LaidRec.whole (r : LaidRec) : r.srec.Whole where
  fits := r.fits
  magic := r.magic
  recLen := by
    show r.hdr.recLen = RecSize + (r.payload ++ r.pad).length
    rw [List.length_append, ← r.padded]
    omega
  write := by
    intro hw
    show r.hdr.len ≤ (r.payload ++ r.pad).length
    rw [List.length_append, r.write hw]
    exact Nat.le_add_right _ _

/-- **`iter_records` cuts the padding off.** -/
theorem LaidRec.srec_item (r : LaidRec) : r.srec.item = r.item := by
  unfold SRec.item LaidRec.srec LaidRec.item
  congr 1
  dsimp only
  by_cases hw : r.hdr.type = RecWrite
  · rw [if_pos hw, r.write hw]
    exact List.take_left' rfl
  · rw [if_neg hw, r.other hw]
    rfl

instance (r : Rec) : Decidable r.Fits :=
  decidable_of_iff (r.magic < 2^32 ∧ r.version < 2^16 ∧ r.type < 2^16 ∧ r.flags < 2^32 ∧
      r.state < 2^32 ∧ r.seq < 2^64 ∧ r.sector < 2^64 ∧ r.len < 2^32 ∧ r.recLen < 2^32 ∧
      r.tsNs < 2^64 ∧ r.reserved < 2^64)
    ⟨fun ⟨a, b, c, d, e, f, g, h, i, j, k⟩ => ⟨a, b, c, d, e, f, g, h, i, j, k⟩,
      fun ⟨a, b, c, d, e, f, g, h, i, j, k⟩ => ⟨a, b, c, d, e, f, g, h, i, j, k⟩⟩

/-- the header that `pack_rec` packs -/
def packHeader (rtype flags seq sector length ts payload : Nat) : Rec where
  magic := RecMagic
  version := AbiVersion
  type := rtype
  flags := flags
  state := 2
  seq := seq
  sector := sector
  len := length
  recLen := align8 (RecSize + payload)
  tsNs := ts
  reserved := 0

def packRec (rtype flags seq sector length ts : Nat) (payload : List UInt8) :
    Option (List UInt8) :=
  let hdr := packHeader rtype flags seq sector length ts payload.length
  if hdr.Fits then
    some (hdr.bytes ++ payload ++ List.replicate (hdr.recLen - RecSize - payload.length) 0)
  else none

theorem packRec_laid {rtype flags seq sector length ts : Nat} {payload bs : List UInt8}
    (h : packRec rtype flags seq sector length ts payload = some bs)
    (hwrite : rtype = RecWrite → length = payload.length)
    (hother : rtype ≠ RecWrite → payload = []) :
    ∃ r : LaidRec, r.bytes = bs ∧
      r.hdr = packHeader rtype flags seq sector length ts payload.length ∧
      r.payload = payload := by
  unfold packRec at h
  dsimp only at h
  by_cases hfits : (packHeader rtype flags seq sector length ts payload.length).Fits
  · rw [if_pos hfits] at h
    have hle := le_align8 (RecSize + payload.length)
    refine ⟨⟨_, payload, _, hfits, rfl, rfl, ?_, hwrite, hother⟩, Option.some.inj h, rfl, rfl⟩
    rw [List.length_replicate]
    show RecSize + payload.length + (align8 (RecSize + payload.length) - RecSize - payload.length)
      = align8 (RecSize + payload.length)
    omega
  · rw [if_neg hfits] at h
    cases h

/-- a record of `cdp_reserve`, whatever lies in the ring behind its payload -/
theorem header_laid {t : Target} {type flags sector len state ts : Nat} {payload pad : List UInt8}
    (hfits : { t.header type flags sector len (recNeed payload.length) ts with
      state := state }.Fits)
    (hpad : RecSize + payload.length + pad.length = recNeed payload.length)
    (hwrite : type = RecWrite → len = payload.length) (hother : type ≠ RecWrite → payload = []) :
    ∃ r : LaidRec, r.payload = payload ∧ r.pad = pad ∧
      r.hdr = { t.header type flags sector len (recNeed payload.length) ts with state := state } :=
  ⟨⟨_, payload, pad, hfits, rfl, rfl, hpad, hwrite, hother⟩, rfl, rfl, rfl⟩

/-! ## `consume` and `apply_pending` -/

def ReadSz : Nat := 16 * 2^20

/-- what `consume` and `apply_pending` work on: the state of `apply_one`, the gap test, and
`pending.bin` if it exists -/
structure Intake (σ : Type) where
  st : σ
  gaps : Gaps
  file : Option (List UInt8)

section
variable {σ : Type} (applyOne : σ → Item → σ)

/-- the body of the loop of `consume`, with its `off` and `parked` -/
def intakeStep (park : Bool) (buf : List UInt8) (a : Intake σ × Nat × List UInt8) (r : Item) :
    Intake σ × Nat × List UInt8 :=
  let d := { a.1 with gaps := a.1.gaps.note r }
  if park then (d, a.2.1 + r.hdr.recLen, a.2.2 ++ (buf.drop a.2.1).take r.hdr.recLen)
  else ({ d with st := applyOne d.st r }, a.2.1 + r.hdr.recLen, a.2.2)

/-- `open(pending_path, "ab")` and `write`, if something was parked -/
def appendFile (file : Option (List UInt8)) (parked : List UInt8) : Option (List UInt8) :=
  if parked = [] then file else some (file.getD [] ++ parked)

/-- `Daemon.consume`; `none` when `iter_records` raises or does not end -/
def Intake.consume (park : Bool) (d : Intake σ) (buf : List UInt8) :
    Option (Intake σ × List UInt8) :=
  match iterRecords buf (buf.length + 1) 0 with
  | some (l, false) =>
    match l.foldl (intakeStep applyOne park buf) (d, 0, []) with
    | (d, off, parked) => some ({ d with file := appendFile d.file parked }, buf.drop off)
  | _ => none

/-- the main loop over batches; an empty read is not consumed -/
def Intake.feed (park : Bool) : Intake σ → List UInt8 → List (List UInt8) →
    Option (Intake σ × List UInt8)
  | d, pending, [] => some (d, pending)
  | d, pending, data :: more =>
    if data = [] then Intake.feed park d pending more
    else
      match d.consume applyOne park (pending ++ data) with
      | some (d, pending) => Intake.feed park d pending more
      | none => none

/-- the loop of `apply_pending` over `f.read(READ_SZ)` -/
def pieceLoop : Nat → σ → List UInt8 → List UInt8 → Option σ
  | 0, _, _, _ => none
  | fuel + 1, st, tail, rest =>
    let chunk := rest.take ReadSz
    if chunk = [] then some st
    else
      let buf := tail ++ chunk
      match iterRecords buf (buf.length + 1) 0 with
      | some (l, false) =>
        match l.foldl (fun (a : σ × Nat) r => (applyOne a.1 r, a.2 + r.hdr.recLen)) (st, 0) with
        | (st, off) => pieceLoop fuel st (buf.drop off) (rest.drop ReadSz)
      | _ => none

def Intake.applyPending (d : Intake σ) : Option (Intake σ) :=
  match d.file with
  | none => some d
  | some bs =>
    (pieceLoop applyOne (bs.length + 1) d.st [] bs).map fun st => { d with st := st, file := none }

end

/-! ## the daemon's own `consume` -/

theorem applyOne_gaps (size : Nat) (d : DaemonSt) (g : Gaps) (p : List UInt8) (r : Item) :
    { d with gaps := g, pending := p }.applyOne size r
      = { d.applyOne size r with gaps := g, pending := p } := by
  have hs : { d with gaps := g, pending := p }.shared = d.shared := rfl
  unfold DaemonSt.applyOne
  rw [hs]
  by_cases h : d.shared.Defers r
  · rw [if_pos h, if_pos h]
  · rw [if_neg h, if_neg h]

/-- the daemon that an intake of its states stands for -/
def Intake.daemon (i : Intake DaemonSt) : DaemonSt :=
  { i.st with gaps := i.gaps, pending := i.file.getD [] }

theorem foldl_intake (size : Nat) (park : Bool) (buf : List UInt8) (l : List Item) :
    ∀ (i : Intake DaemonSt) (off : Nat) (parked : List UInt8),
      l.foldl (consumeStep size park buf) (i.daemon, off, parked)
        = let a := l.foldl (intakeStep (fun d r => d.applyOne size r) park buf) (i, off, parked)
          (a.1.daemon, a.2) := by
  induction l with
  | nil => intro i off parked; rfl
  | cons r l ih =>
    intro i off parked
    rw [List.foldl_cons, List.foldl_cons]
    have hstep : consumeStep size park buf (i.daemon, off, parked) r
        = ((intakeStep (fun d r => d.applyOne size r) park buf (i, off, parked) r).1.daemon,
          (intakeStep (fun d r => d.applyOne size r) park buf (i, off, parked) r).2) := by
      unfold consumeStep intakeStep Intake.daemon
      cases park with
      | true => rfl
      | false =>
        dsimp only
        rw [if_neg Bool.false_ne_true, if_neg Bool.false_ne_true]
        exact congrArg (·, off + r.hdr.recLen, parked)
          (applyOne_gaps size i.st (i.gaps.note r) (i.file.getD []) r)
    rw [hstep]
    exact ih _ _ _

/-- **The `consume` of the daemon is this one** at its own `apply_one`. -/
theorem consume_intake {size : Nat} {park : Bool} {i i' : Intake DaemonSt} {buf tail : List UInt8}
    (h : i.consume (fun d r => d.applyOne size r) park buf = some (i', tail)) :
    i.daemon.consume size park buf = some (i'.daemon, some tail) := by
  unfold Intake.consume at h
  unfold DaemonSt.consume
  cases hit : iterRecords buf (buf.length + 1) 0 with
  | none => rw [hit] at h; cases h
  | some p =>
    obtain ⟨l, raised⟩ := p
    rw [hit] at h
    cases raised with
    | true => cases h
    | false =>
      dsimp only at h ⊢
      rw [foldl_intake]
      obtain ⟨rfl, rfl⟩ := Prod.mk.inj (Option.some.inj h)
      dsimp only
      rw [if_neg Bool.false_ne_true]
      congr 2
      unfold Intake.daemon appendFile
      dsimp only
      by_cases hp : (List.foldl (intakeStep (fun d r => d.applyOne size r) park buf) (i, 0, []) l).2.2
          = []
      · rw [if_pos hp, hp, List.append_nil]
      · rw [if_neg hp]
        rfl

/-! ## one buffer -/

def laidBytes (rs : List LaidRec) : List UInt8 := (rs.map LaidRec.bytes).flatten

theorem laidBytes_append (a b : List LaidRec) : laidBytes (a ++ b) = laidBytes a ++ laidBytes b := by
  unfold laidBytes
  rw [List.map_append, List.flatten_append]

theorem laidBytes_stream (rs : List LaidRec) : laidBytes rs = streamBytes (rs.map LaidRec.srec) := by
  induction rs with
  | nil => rfl
  | cons r rs ih =>
    show r.bytes ++ laidBytes rs = streamBytes (r.srec :: rs.map LaidRec.srec)
    rw [streamBytes_cons, ← r.srec_bytes, ih]

theorem LaidRec.length_bytes (r : LaidRec) : r.bytes.length = r.hdr.recLen := by
  rw [← r.srec_bytes, r.srec.length_bytes]
  exact r.whole.recLen.symm

theorem laidBytes_nil {rs : List LaidRec} (h : laidBytes rs = []) : rs = [] := by
  rw [laidBytes_stream] at h
  exact List.map_eq_nil_iff.mp (stream_nil h)

/-- **A buffer in front of the rest of the stream**: `iter_records` yields the records that lie
whole in it, and all of them if nothing follows. -/
theorem parse_batch {rs : List LaidRec} {buf rest : List UInt8} (hb : buf ++ rest = laidBytes rs) :
    ∃ done todo tail, rs = done ++ todo ∧ buf = laidBytes done ++ tail ∧
      tail ++ rest = laidBytes todo ∧ (rest = [] → todo = []) ∧
      iterRecords buf (buf.length + 1) 0 = some (done.map LaidRec.item, false) := by
  rw [laidBytes_stream] at hb
  have hwhole : ∀ r ∈ rs.map LaidRec.srec, r.Whole := by
    intro r hr
    obtain ⟨a, _, rfl⟩ := List.mem_map.mp hr
    exact a.whole
  obtain ⟨k, h1, h2, h3⟩ := iter_stream (rs.map LaidRec.srec) (buf.length + 1) 0 hwhole hb
    (Nat.zero_le _) (by omega)
  rw [← List.map_drop, ← laidBytes_stream] at h2
  have hcut : buf ++ rest = laidBytes (rs.take k) ++ laidBytes (rs.drop k) := by
    rw [hb, ← laidBytes_append, List.take_append_drop, laidBytes_stream]
  have hlen : laidBytes (rs.take k) <+: buf := by
    refine List.prefix_of_prefix_length_le ⟨_, hcut.symm⟩ ⟨rest, rfl⟩ ?_
    have e1 := congrArg List.length hcut
    have e2 := congrArg List.length h2
    simp only [List.length_append, List.length_drop] at e1 e2
    omega
  obtain ⟨tail, htail⟩ := hlen
  refine ⟨rs.take k, rs.drop k, tail, (List.take_append_drop k rs).symm, htail.symm, ?_, ?_, ?_⟩
  · rw [← htail, List.append_assoc] at hcut
    exact List.append_cancel_left hcut
  · intro he
    have hnil := h3 he
    rw [← List.map_drop] at hnil
    exact List.map_eq_nil_iff.mp hnil
  · rw [h1, ← List.map_take, List.map_map]
    congr 2
    exact List.map_congr_left fun r _ => r.srec_item

/-! ## `iter_records` on whole records and what follows them -/

/-- `iter_records` ends in front of these bytes: less than a header, or less than the record -/
def Halts (bs : List UInt8) : Prop :=
  bs.length < RecSize ∨ ((Rec.parse bs).magic = RecMagic ∧ bs.length < (Rec.parse bs).recLen)

theorem iter_shift (pre buf : List UInt8) (fuel : Nat) : ∀ off,
    iterRecords (pre ++ buf) fuel (pre.length + off) = iterRecords buf fuel off := by
  induction fuel with
  | zero => intro off; rfl
  | succ fuel ih =>
    intro off
    have hdrop : ∀ k, (pre ++ buf).drop (pre.length + k) = buf.drop k := by
      intro k
      rw [← List.drop_drop, List.drop_left' rfl]
    have hitem : itemAt (pre ++ buf) (pre.length + off) = itemAt buf off := by
      unfold itemAt
      simp only [Nat.add_assoc, hdrop]
    unfold iterRecords
    dsimp only
    rw [hitem, List.length_append, Nat.add_assoc, Nat.add_assoc, ih]
    simp only [Nat.add_le_add_iff_left, gt_iff_lt, Nat.add_lt_add_iff_left]

theorem iter_cons (r : LaidRec) (buf : List UInt8) (fuel : Nat) :
    iterRecords (r.bytes ++ buf) (fuel + 1) 0
      = (iterRecords buf fuel 0).map fun p => (r.item :: p.1, p.2) := by
  have hlen := r.length_bytes
  have hrec := r.whole.recLen
  have hitem : itemAt (r.bytes ++ buf) 0 = r.item := by
    rw [← r.srec_item]
    apply itemAt_eq r.fits r.whole.write
    rw [List.drop_zero, r.srec_bytes]
  have hshift := iter_shift r.bytes buf fuel 0
  rw [hlen, Nat.add_zero] at hshift
  have hmagic : r.item.hdr.magic = RecMagic := r.magic
  have hrl : r.item.hdr.recLen = r.hdr.recLen := rfl
  have hR : RecSize ≤ r.hdr.recLen := by
    rw [show r.hdr.recLen = RecSize + r.srec.body.length from hrec]
    exact Nat.le_add_right _ _
  rw [iterRecords.eq_2, if_pos (by rw [List.length_append, hlen]; omega), hitem]
  dsimp only
  rw [if_neg (not_not.mpr hmagic), hrl, if_neg (by rw [List.length_append, hlen]; omega),
    Nat.zero_add, hshift]

theorem iter_laid (rs : List LaidRec) (bs : List UInt8) (fuel : Nat) :
    iterRecords (laidBytes rs ++ bs) (rs.length + fuel) 0
      = (iterRecords bs fuel 0).map fun p => (rs.map LaidRec.item ++ p.1, p.2) := by
  induction rs with
  | nil =>
    rw [List.length_nil, Nat.zero_add]
    exact Option.map_id'.symm
  | cons r rs ih =>
    have hbytes : laidBytes (r :: rs) ++ bs = r.bytes ++ (laidBytes rs ++ bs) :=
      List.append_assoc _ _ _
    rw [hbytes, List.length_cons, Nat.succ_add, iter_cons, ih, Option.map_map]
    rfl

theorem length_le_laid (rs : List LaidRec) : rs.length ≤ (laidBytes rs).length := by
  induction rs with
  | nil => exact Nat.le_refl _
  | cons r rs ih =>
    have hlen : (laidBytes (r :: rs)).length = r.bytes.length + (laidBytes rs).length :=
      List.length_append
    have hrec : r.hdr.recLen = RecSize + r.srec.body.length := r.whole.recLen
    have hR : RecSize = 56 := rfl
    rw [List.length_cons, hlen, r.length_bytes]
    omega

theorem iter_laid_call (rs : List LaidRec) (bs : List UInt8) :
    ∃ fuel, bs.length ≤ fuel ∧
      iterRecords (laidBytes rs ++ bs) ((laidBytes rs ++ bs).length + 1) 0
        = (iterRecords bs (fuel + 1) 0).map fun p => (rs.map LaidRec.item ++ p.1, p.2) := by
  have hle := length_le_laid rs
  refine ⟨(laidBytes rs).length - rs.length + bs.length, Nat.le_add_left _ _, ?_⟩
  rw [← iter_laid]
  congr 1
  rw [List.length_append]
  omega

theorem parse_append {bs : List UInt8} (rest : List UInt8) (h : RecSize ≤ bs.length) :
    Rec.parse (bs ++ rest) = Rec.parse bs := by
  have hR : RecSize = 56 := rfl
  have hfield : ∀ k w, k + w ≤ RecSize → field (bs ++ rest) k w = field bs k w := by
    intro k w hkw
    unfold field
    rw [List.drop_append_of_le_length (by omega), List.take_append_of_le_length]
    rw [List.length_drop]
    omega
  unfold Rec.parse
  simp (disch := decide) only [hfield]

/-- how many of the bytes `iter_records` needs to do anything but end in front of them -/
def seen (bs : List UInt8) : Nat :=
  if (Rec.parse bs).magic = RecMagic then max RecSize (Rec.parse bs).recLen else RecSize

theorem seen_le {bs : List UInt8} (h : ¬Halts bs) : seen bs ≤ bs.length := by
  unfold Halts at h
  unfold seen
  push Not at h
  split
  next hm => exact max_le h.1 (h.2 hm)
  next => exact h.1

theorem recSize_le_seen (bs : List UInt8) : RecSize ≤ seen bs := by
  unfold seen
  split
  · exact le_max_left _ _
  · exact Nat.le_refl _

/-- **In front of bytes of which it has seen too little** the generator ends. -/
theorem iter_halts {bs : List UInt8} (rest : List UInt8) (fuel : Nat)
    (h : Halts (bs ++ rest) ∨ bs.length < seen (bs ++ rest)) :
    iterRecords bs (fuel + 1) 0 = some ([], false) := by
  unfold iterRecords
  rw [Nat.zero_add]
  by_cases hlen : RecSize ≤ bs.length
  · have hhdr : (itemAt bs 0).hdr = Rec.parse (bs ++ rest) := (parse_append rest hlen).symm
    have hle : bs.length ≤ (bs ++ rest).length := by
      rw [List.length_append]
      exact Nat.le_add_right _ _
    have hcut : (Rec.parse (bs ++ rest)).magic = RecMagic ∧
        bs.length < (Rec.parse (bs ++ rest)).recLen := by
      rcases h with (h | h) | h
      · omega
      · exact ⟨h.1, by omega⟩
      · unfold seen at h
        split at h
        next hm => exact ⟨hm, (lt_max_iff.mp h).resolve_left (by omega)⟩
        next => omega
    rw [if_pos hlen]
    dsimp only
    rw [hhdr, if_neg (not_not.mpr hcut.1), if_pos (by omega)]
  · rw [if_neg hlen]

/-- otherwise it raises, or yields a record -/
theorem iter_goes {bs : List UInt8} (rest : List UInt8) {fuel : Nat} {l : List Item}
    (h : seen (bs ++ rest) ≤ bs.length) (hit : iterRecords bs (fuel + 1) 0 = some (l, false)) :
    ∃ r l', l = r :: l' := by
  have hR := recSize_le_seen (bs ++ rest)
  have hlen : RecSize ≤ bs.length := hR.trans h
  have hhdr : (itemAt bs 0).hdr = Rec.parse (bs ++ rest) := (parse_append rest hlen).symm
  unfold iterRecords at hit
  rw [Nat.zero_add, if_pos hlen] at hit
  dsimp only at hit
  rw [hhdr] at hit
  unfold seen at h
  split at h
  next hm =>
    have hrec := (le_max_right _ _).trans h
    rw [if_neg (not_not.mpr hm), if_neg (by omega)] at hit
    obtain ⟨p, hp, hpl⟩ := Option.map_eq_some_iff.mp hit
    exact ⟨_, p.1, (congrArg Prod.fst hpl).symm⟩
  next hm =>
    rw [if_pos hm] at hit
    cases hit

/-! ## the loops -/

section
variable {σ : Type} {applyOne : σ → Item → σ}

theorem length_laidBytes (rs : List LaidRec) :
    (laidBytes rs).length = (rs.map fun r => r.hdr.recLen).sum := by
  induction rs with
  | nil => rfl
  | cons r rs ih =>
    show (r.bytes ++ laidBytes rs).length = r.hdr.recLen + (rs.map fun r => r.hdr.recLen).sum
    rw [List.length_append, r.length_bytes, ih]

def Intake.after (applyOne : σ → Item → σ) (park : Bool) (d : Intake σ) (l : List LaidRec) :
    Intake σ where
  st := if park then d.st else (l.map LaidRec.item).foldl applyOne d.st
  gaps := (l.map LaidRec.item).foldl Gaps.note d.gaps
  file := if park then appendFile d.file (laidBytes l) else d.file

theorem appendFile_append (file : Option (List UInt8)) (a b : List UInt8) :
    appendFile (appendFile file a) b = appendFile file (a ++ b) := by
  unfold appendFile
  by_cases ha : a = []
  · rw [if_pos ha, ha, List.nil_append]
  · by_cases hb : b = []
    · rw [if_neg ha, if_pos hb, hb, List.append_nil, if_neg ha]
    · rw [if_neg ha, if_neg hb, if_neg (fun h => ha (List.append_eq_nil_iff.mp h).1)]
      exact congrArg some (List.append_assoc _ _ _)

theorem Intake.after_append (park : Bool) (d : Intake σ) (a b : List LaidRec) :
    (d.after applyOne park a).after applyOne park b = d.after applyOne park (a ++ b) := by
  unfold Intake.after
  cases park with
  | true =>
    simp only [if_true, List.map_append, List.foldl_append, laidBytes_append, appendFile_append]
  | false =>
    simp only [Bool.false_eq_true, if_false, List.map_append, List.foldl_append]

/-- **The loop of `consume`.**  `pre` is what lies before `off`: the offset of the loop and the
one of the generator are the same. -/
theorem foldl_intakeStep (applyOne : σ → Item → σ) (park : Bool) (l : List LaidRec) : ∀ (d : Intake σ)
    (pre parked tail : List UInt8),
    (l.map LaidRec.item).foldl (intakeStep applyOne park (pre ++ (laidBytes l ++ tail)))
        (d, pre.length, parked)
      = ({ d.after applyOne park l with file := d.file }, (pre ++ laidBytes l).length,
          if park then parked ++ laidBytes l else parked) := by
  induction l with
  | nil =>
    intro d pre parked tail
    cases park with
    | true => simp [Intake.after, laidBytes]
    | false => simp [Intake.after, laidBytes]
  | cons r l ih =>
    intro d pre parked tail
    have hbytes : laidBytes (r :: l) = r.bytes ++ laidBytes l := rfl
    have hpre : pre ++ (laidBytes (r :: l) ++ tail) = (pre ++ r.bytes) ++ (laidBytes l ++ tail) := by
      rw [hbytes]
      simp only [List.append_assoc]
    have hoff : pre.length + r.item.hdr.recLen = (pre ++ r.bytes).length := by
      rw [List.length_append, r.length_bytes]
      rfl
    have hcut : ((pre ++ (laidBytes (r :: l) ++ tail)).drop pre.length).take r.item.hdr.recLen
        = r.bytes := by
      rw [List.drop_left' rfl, hbytes, List.append_assoc]
      exact List.take_left' r.length_bytes
    rw [List.map_cons, List.foldl_cons]
    cases park with
    | true =>
      have hstep : intakeStep applyOne true (pre ++ (laidBytes (r :: l) ++ tail))
          (d, pre.length, parked) r.item
          = ({ d with gaps := d.gaps.note r.item }, (pre ++ r.bytes).length, parked ++ r.bytes) := by
        unfold intakeStep
        rw [if_pos rfl, hcut, hoff]
      rw [hstep, hpre, ih]
      simp only [Intake.after, if_true, List.map_cons, List.foldl_cons, hbytes, List.append_assoc]
    | false =>
      have hstep : intakeStep applyOne false (pre ++ (laidBytes (r :: l) ++ tail))
          (d, pre.length, parked) r.item
          = ({ d with st := applyOne d.st r.item, gaps := d.gaps.note r.item },
              (pre ++ r.bytes).length, parked) := by
        unfold intakeStep
        rw [if_neg Bool.false_ne_true, hoff]
      rw [hstep, hpre, ih]
      simp only [Intake.after, Bool.false_eq_true, if_false, List.map_cons, List.foldl_cons, hbytes,
        List.append_assoc]

theorem consume_batch (applyOne : σ → Item → σ) (park : Bool) (d : Intake σ) {rs : List LaidRec}
    {buf rest : List UInt8}
    (hb : buf ++ rest = laidBytes rs) :
    ∃ done todo tail, rs = done ++ todo ∧ tail ++ rest = laidBytes todo ∧
      (rest = [] → todo = []) ∧
      d.consume applyOne park buf = some (d.after applyOne park done, tail) := by
  obtain ⟨done, todo, tail, h1, h2, h3, h4, h5⟩ := parse_batch hb
  refine ⟨done, todo, tail, h1, h3, h4, ?_⟩
  have hfold := foldl_intakeStep applyOne park done d [] [] tail
  unfold Intake.consume
  rw [h5]
  dsimp only
  rw [List.nil_append] at hfold
  rw [← h2, List.length_nil] at hfold
  rw [hfold, List.nil_append, h2, List.drop_left' rfl]
  unfold Intake.after appendFile
  cases park with
  | true => rfl
  | false => rfl

theorem feed_all (park : Bool) (batches : List (List UInt8)) : ∀ (d : Intake σ)
    (pending : List UInt8) (rs : List LaidRec), pending ++ batches.flatten = laidBytes rs →
    (batches.flatten = [] → pending = []) →
    d.feed applyOne park pending batches = some (d.after applyOne park rs, []) := by
  induction batches with
  | nil =>
    intro d pending rs hb hp
    obtain rfl := hp rfl
    obtain rfl := laidBytes_nil hb.symm
    unfold Intake.feed Intake.after appendFile
    cases park with
    | true => rfl
    | false => rfl
  | cons data batches ih =>
    intro d pending rs hb hp
    rw [List.flatten_cons] at hb hp
    unfold Intake.feed
    by_cases hdata : data = []
    · rw [if_pos hdata]
      rw [hdata] at hb hp
      exact ih d pending rs hb hp
    · rw [if_neg hdata]
      obtain ⟨done, todo, tail, rfl, h2, h3, h4⟩ := consume_batch applyOne park d
        ((List.append_assoc pending data batches.flatten).trans hb)
      have htail : batches.flatten = [] → tail = [] := by
        intro he
        rw [h3 he] at h2
        exact (List.append_eq_nil_iff.mp h2).1
      rw [h4]
      dsimp only
      rw [ih _ tail todo h2 htail, Intake.after_append]

theorem foldl_offset (l : List Item) (st : σ) (off : Nat) :
    l.foldl (fun (a : σ × Nat) r => (applyOne a.1 r, a.2 + r.hdr.recLen)) (st, off)
      = (l.foldl applyOne st, off + (l.map fun r => r.hdr.recLen).sum) := by
  induction l generalizing st off with
  | nil => rfl
  | cons r l ih =>
    rw [List.foldl_cons, ih, List.foldl_cons, List.map_cons, List.sum_cons, ← Nat.add_assoc]

/-- one piece of the file, on which the generator ends -/
theorem pieceLoop_some {fuel : Nat} {st st' : σ} {tail rest : List UInt8}
    (hr : rest.take ReadSz ≠ []) (h : pieceLoop applyOne (fuel + 1) st tail rest = some st') :
    ∃ l, iterRecords (tail ++ rest.take ReadSz) ((tail ++ rest.take ReadSz).length + 1) 0
        = some (l, false) ∧
      pieceLoop applyOne fuel (l.foldl applyOne st)
        ((tail ++ rest.take ReadSz).drop (l.map fun r => r.hdr.recLen).sum) (rest.drop ReadSz)
        = some st' := by
  unfold pieceLoop at h
  dsimp only at h
  rw [if_neg hr] at h
  split at h
  next l hit =>
    refine ⟨l, hit, ?_⟩
    rw [foldl_offset, Nat.zero_add] at h
    exact h
  next => cases h

theorem pieceLoop_step {fuel : Nat} {st : σ} {tail rest : List UInt8} {l : List Item}
    (hr : rest.take ReadSz ≠ [])
    (hit : iterRecords (tail ++ rest.take ReadSz) ((tail ++ rest.take ReadSz).length + 1) 0
      = some (l, false)) :
    pieceLoop applyOne (fuel + 1) st tail rest = pieceLoop applyOne fuel (l.foldl applyOne st)
      ((tail ++ rest.take ReadSz).drop (l.map fun r => r.hdr.recLen).sum) (rest.drop ReadSz) := by
  rw [pieceLoop.eq_2]
  dsimp only
  rw [if_neg hr, hit]
  dsimp only
  rw [foldl_offset, Nat.zero_add]

theorem items_sum (rs : List LaidRec) :
    ((rs.map LaidRec.item).map fun r => r.hdr.recLen).sum = (laidBytes rs).length := by
  rw [length_laidBytes, List.map_map]
  rfl

theorem rest_nil {rest : List UInt8} : rest.take ReadSz = [] ↔ rest = [] := by
  rw [List.take_eq_nil_iff]
  exact or_iff_right (by decide)

/-- **A piece of whole records and what follows them**: it ends in the records, or behind them. -/
theorem piece_cases {buf rest bs : List UInt8} {rs : List LaidRec}
    (h : buf ++ rest = laidBytes rs ++ bs) :
    (∃ done todo tail, rs = done ++ todo ∧ buf = laidBytes done ++ tail ∧
      tail ++ rest = laidBytes todo ++ bs ∧ tail.length ≤ (laidBytes todo).length ∧
      (rest = [] → todo = []) ∧
      iterRecords buf (buf.length + 1) 0 = some (done.map LaidRec.item, false)) ∨
    ∃ b, buf = laidBytes rs ++ b ∧ bs = b ++ rest := by
  rcases List.append_eq_append_iff.mp h with ⟨x, hx, hrest⟩ | ⟨b, hb, hbs⟩
  · left
    obtain ⟨done, todo, tail, h1, h2, h3, h4, h5⟩ := parse_batch hx.symm
    refine ⟨done, todo, tail, h1, h2, ?_, ?_, ?_, h5⟩
    · rw [hrest, ← List.append_assoc, h3]
    · rw [← h3, List.length_append]
      exact Nat.le_add_right _ _
    · intro he
      rw [hrest] at he
      exact h4 (List.append_eq_nil_iff.mp he).1
  · exact Or.inr ⟨b, hb, hbs⟩

/-- **Where the generator ends in front of what follows**, `apply_pending` applies the records. -/
theorem pieceLoop_halts {bs : List UInt8} (hbs : Halts bs) (fuel : Nat) :
    ∀ (st : σ) (tail rest : List UInt8) (rs : List LaidRec), tail ++ rest = laidBytes rs ++ bs →
      rest.length < fuel → (rest = [] → rs = []) →
      pieceLoop applyOne fuel st tail rest = some ((rs.map LaidRec.item).foldl applyOne st) := by
  induction fuel with
  | zero => intro st tail rest rs _ hf _; omega
  | succ fuel ih =>
    intro st tail rest rs hb hf hnil
    by_cases hr : rest.take ReadSz = []
    · unfold pieceLoop
      dsimp only
      rw [if_pos hr, hnil (rest_nil.mp hr)]
      rfl
    · have hpos : 0 < rest.length := List.length_pos_iff.mpr fun e => hr (rest_nil.mpr e)
      have hfuel : (rest.drop ReadSz).length < fuel := by
        rw [List.length_drop, ReadSz]
        omega
      have hcut : (tail ++ rest.take ReadSz) ++ rest.drop ReadSz = laidBytes rs ++ bs := by
        rw [List.append_assoc, List.take_append_drop]
        exact hb
      rcases piece_cases hcut with ⟨done, todo, tail', rfl, h2, h3, _, h4, h5⟩ | ⟨b, h2, h3⟩
      · rw [pieceLoop_step hr h5, items_sum, h2, List.drop_left' rfl, ih _ tail' _ todo h3 hfuel h4,
          List.map_append, List.foldl_append]
      · obtain ⟨n, _, hn⟩ := iter_laid_call rs b
        rw [iter_halts (rest.drop ReadSz) n (Or.inl (h3 ▸ hbs)), ← h2] at hn
        rw [pieceLoop_step hr hn]
        dsimp only [Option.map]
        rw [List.append_nil, items_sum, h2, List.drop_left' rfl,
          ih _ b _ [] (by rw [h3]; rfl) hfuel fun _ => rfl]
        rfl

/-- **`apply_pending` reads the whole file**, whatever the records are cut into. -/
theorem pieceLoop_all (fuel : Nat) (st : σ) (tail rest : List UInt8) (rs : List LaidRec)
    (hb : tail ++ rest = laidBytes rs) (hf : rest.length < fuel) (ht : rest = [] → tail = []) :
    pieceLoop applyOne fuel st tail rest = some ((rs.map LaidRec.item).foldl applyOne st) := by
  have hnil : Halts [] := Or.inl (by decide)
  apply pieceLoop_halts hnil fuel st tail rest rs ?_ hf
  · intro he
    rw [he, ht he] at hb
    exact laidBytes_nil hb.symm
  · rw [hb, List.append_nil]

end

/-! ## the gaps -/

def LaidRec.gap (r : LaidRec) : Bool := hasFlag r.hdr.flags FGapBefore

/-- the numbers of the records that stand behind a gap -/
def gapSeqs (rs : List LaidRec) : List Int := (rs.filter LaidRec.gap).map fun r => (r.hdr.seq : Int)

/-- **Every gap is queued once.** -/
theorem foldl_note (rs : List LaidRec) : ∀ (g : Gaps), (rs.map fun r => r.hdr.seq).Nodup →
    (∀ r ∈ rs, g.seen ≠ some r.hdr.seq) →
    ((rs.map LaidRec.item).foldl Gaps.note g).queue = g.queue ++ gapSeqs rs := by
  induction rs with
  | nil =>
    intro g _ _
    exact (List.append_nil _).symm
  | cons r rs ih =>
    intro g hseq hnew
    obtain ⟨hr, hseq⟩ := List.nodup_cons.mp hseq
    rw [List.map_cons, List.foldl_cons]
    by_cases hgap : r.gap = true
    · have hnote : g.note r.item = ⟨some r.hdr.seq, g.queue ++ [(r.hdr.seq : Int)]⟩ :=
        if_pos ⟨hgap, (hnew r List.mem_cons_self).symm⟩
      rw [hnote, ih _ hseq fun x hx e => hr ?_]
      · unfold gapSeqs
        rw [List.filter_cons_of_pos hgap, List.map_cons]
        exact List.append_assoc _ _ _
      · exact List.mem_map.mpr ⟨x, hx, (Option.some.inj e).symm⟩
    · have hnote : g.note r.item = g := if_neg fun h => hgap h.1
      rw [hnote, ih g hseq fun x hx => hnew x (List.mem_cons_of_mem r hx)]
      unfold gapSeqs
      rw [List.filter_cons_of_neg hgap]

/-! ## the result -/

/-- **Reading in pieces and parking change nothing.**  `applyOne` is any function of any state: that
it is called with these records, once each and in order, is what the fold says.  The numbers are
distinct, and the last gap seen before is none of them. -/
theorem pieces_same {σ : Type} (applyOne : σ → Item → σ) (st : σ) (g : Gaps)
    (file : Option (List UInt8)) (rs : List LaidRec) (batches : List (List UInt8))
    (hb : batches.flatten = laidBytes rs) (hseq : (rs.map fun r => r.hdr.seq).Nodup)
    (hnew : ∀ r ∈ rs, g.seen ≠ some r.hdr.seq) :
    (∃ g' : Gaps, g'.queue = g.queue ++ gapSeqs rs ∧
      (⟨st, g, file⟩ : Intake σ).feed applyOne false [] batches
        = some (⟨(rs.map LaidRec.item).foldl applyOne st, g', file⟩, [])) ∧
    ∃ (g' : Gaps) (d : Intake σ), g'.queue = g.queue ++ gapSeqs rs ∧
      (⟨st, g, none⟩ : Intake σ).feed applyOne true [] batches = some (d, []) ∧ d.st = st ∧
      d.applyPending applyOne = some ⟨(rs.map LaidRec.item).foldl applyOne st, g', none⟩ := by
  have hqueue := foldl_note rs g hseq hnew
  refine ⟨⟨_, hqueue, feed_all false batches _ [] rs hb fun _ => rfl⟩,
    _, _, hqueue, feed_all true batches _ [] rs hb fun _ => rfl, rfl, ?_⟩
  unfold Intake.after Intake.applyPending appendFile
  dsimp only
  rw [if_pos rfl, if_pos rfl]
  by_cases hnil : laidBytes rs = []
  · obtain rfl := laidBytes_nil hnil
    rfl
  · rw [if_neg hnil]
    dsimp only [Option.getD]
    rw [List.nil_append, pieceLoop_all _ st [] (laidBytes rs) rs rfl (Nat.lt_succ_self _)
      fun _ => rfl]
    rfl

/-- three bytes at sector 0, with five bytes of padding -/
def oddWrite : LaidRec where
  hdr := packHeader RecWrite 0 4 0 3 0 3
  payload := [1, 2, 3]
  pad := List.replicate 5 0
  fits := by decide
  magic := rfl
  recLen := rfl
  padded := rfl
  write := fun _ => rfl
  other := fun h => absurd rfl h

/-- a flush behind a gap -/
def gapFlush : LaidRec where
  hdr := packHeader RecFlush FGapBefore 5 0 0 0 0
  payload := []
  pad := []
  fits := by decide
  magic := rfl
  recLen := rfl
  padded := rfl
  write := fun h => absurd h (by decide)
  other := fun _ => rfl

/-- the cuts lie in the first header and in the second -/
theorem pieces_same_odd :
    (∃ g' : Gaps, g'.queue = [] ++ gapSeqs [oddWrite, gapFlush] ∧
      (⟨[], ⟨none, []⟩, none⟩ : Intake (List Item)).feed (fun l r => l ++ [r]) false []
          [(laidBytes [oddWrite, gapFlush]).take 20, [],
            ((laidBytes [oddWrite, gapFlush]).drop 20).take 60,
            ((laidBytes [oddWrite, gapFlush]).drop 20).drop 60]
        = some (⟨[oddWrite.item, gapFlush.item], g', none⟩, [])) ∧
    ∃ (g' : Gaps) (d : Intake (List Item)), g'.queue = [] ++ gapSeqs [oddWrite, gapFlush] ∧
      (⟨[], ⟨none, []⟩, none⟩ : Intake (List Item)).feed (fun l r => l ++ [r]) true []
          [(laidBytes [oddWrite, gapFlush]).take 20, [],
            ((laidBytes [oddWrite, gapFlush]).drop 20).take 60,
            ((laidBytes [oddWrite, gapFlush]).drop 20).drop 60]
        = some (d, []) ∧ d.st = [] ∧
      d.applyPending (fun l r => l ++ [r])
        = some ⟨[oddWrite.item, gapFlush.item], g', none⟩ := by
  refine pieces_same (fun l r => l ++ [r]) [] ⟨none, []⟩ none [oddWrite, gapFlush] _ ?_
    (by decide) (fun _ _ => by rintro ⟨⟩)
  show _ ++ ([] ++ (_ ++ (_ ++ []))) = _
  rw [List.nil_append, List.append_nil, List.take_append_drop, List.take_append_drop]

end CDP
