import DmCdp.Tools.Apply
import DmCdp.Daemon.Feed
import DmCdp.Daemon.SeedLayer

/-!
# `consume` on the bytes of the stream, and `cdp-apply`

`Daemon.consume` with the buffer as `cdp_read` filled it: `iter_records` parses it, what is left is
carried over to the next batch.

* `iterRecords`      `dmcdp.iter_records`; `iter_stream`: it yields the whole records of the buffer;
* `applyOne_shared`  `apply_one` here is the one of the copy protocol, with the seed layer beside it;
* `consume_stream`   one batch; `consumeAll_stream`  any split of a stream into batches;
* `same_image`       `cdp-apply` and the daemon leave the same image.
-/

set_option linter.unusedVariables false

namespace CDP
open Img

/-! ## `iter_records` -/

/-- the record at `off` with its payload slice -/
def itemAt (buf : List UInt8) (off : Nat) : Item where
  hdr := Rec.parse (buf.drop off)
  payload := (buf.drop (off + RecSize)).take
    (if (Rec.parse (buf.drop off)).type = RecWrite then (Rec.parse (buf.drop off)).len else 0)
  short := by
    refine (List.length_take_le _ _).trans ?_
    split
    · exact Nat.le_refl _
    · exact Nat.zero_le _

/-- `iter_records` from `off` on: what it yields, and whether it then raises `ValueError` -/
def iterRecords (buf : List UInt8) : Nat → Nat → Option (List Item × Bool)
  | 0, _ => none
  | fuel + 1, off =>
    if off + RecSize ≤ buf.length then
      let r := itemAt buf off
      if r.hdr.magic ≠ RecMagic then some ([], true)
      else if off + r.hdr.recLen > buf.length then some ([], false)
      else (iterRecords buf fuel (off + r.hdr.recLen)).map fun p => (r :: p.1, p.2)
    else some ([], false)

/-! ## the daemon -/

/-- the fields of `Daemon` that `consume` uses; `pending` is the content of `pending.bin` -/
structure DaemonSt where
  rep : Replica
  copying : Option (Nat × Nat)
  deferred : List Item
  gaps : Gaps
  lastSeq : Option Nat
  records : Nat
  bytes : Nat
  pending : List UInt8

/-- the fields that the copy protocol looks at -/
def DaemonSt.shared (d : DaemonSt) : Shared :=
  ⟨d.rep.img, d.copying, d.deferred, d.lastSeq, d.records, d.bytes⟩

def DaemonSt.applyOne (size : Nat) (d : DaemonSt) (r : Item) : DaemonSt :=
  if d.shared.Defers r then { d with deferred := d.deferred ++ [r] }
  else
    { d with
      rep := d.rep.write size r
      lastSeq := some r.hdr.seq
      records := d.records + 1
      bytes := if r.hdr.type = RecWrite then d.bytes + r.hdr.len else d.bytes }

/-- the body of the loop of `consume`, with its `off` and `parked` -/
def consumeStep (size : Nat) (park : Bool) (buf : List UInt8) (a : DaemonSt × Nat × List UInt8)
    (r : Item) : DaemonSt × Nat × List UInt8 :=
  let d := { a.1 with gaps := a.1.gaps.note r }
  if park then (d, a.2.1 + r.hdr.recLen, a.2.2 ++ (buf.drop a.2.1).take r.hdr.recLen)
  else (d.applyOne size r, a.2.1 + r.hdr.recLen, a.2.2)

/-- `Daemon.consume`: the unconsumed tail, or no tail when `iter_records` raises -/
def DaemonSt.consume (size : Nat) (park : Bool) (d : DaemonSt) (buf : List UInt8) :
    Option (DaemonSt × Option (List UInt8)) :=
  match iterRecords buf (buf.length + 1) 0 with
  -- a record with `rec_len` 0: the loop does not end
  | none => none
  | some (l, raised) =>
    match l.foldl (consumeStep size park buf) (d, 0, []) with
    | (d, off, parked) =>
      if raised then some (d, none)
      else some ({ d with pending := d.pending ++ parked }, some (buf.drop off))

/-- the main loop over batches; an empty read is not consumed -/
def consumeAll (size : Nat) : DaemonSt → List UInt8 → List (List UInt8) →
    Option (DaemonSt × List UInt8)
  | d, pending, [] => some (d, pending)
  | d, pending, data :: more =>
    if data = [] then consumeAll size d pending more
    else
      match d.consume size false (pending ++ data) with
      | some (d, some pending) => consumeAll size d pending more
      | _ => none

theorem applyOne_shared (size : Nat) (d : DaemonSt) (r : Item) :
    (d.applyOne size r).shared = d.shared.applyOne r := by
  unfold DaemonSt.applyOne Shared.applyOne
  split
  · rfl
  · unfold DaemonSt.shared Shared.count
    dsimp only
    rw [write_img, replicaWrite_eq]

/-! ## records of the stream -/

/-- a whole record as the target emits it, inside a device of `size` bytes -/
structure SRec.Emitted (size : Nat) (r : SRec) : Prop where
  fits : r.hdr.Fits
  magic : r.hdr.magic = RecMagic
  recLen : r.hdr.recLen = RecSize + r.body.length
  kind : r.hdr.type = RecWrite ∧ r.body.length = r.hdr.len ∨
    r.hdr.type = RecFlush ∧ r.hdr.len = 0 ∧ r.body = [] ∨
    (r.hdr.type = RecZero ∨ r.hdr.type = RecDiscard) ∧ r.body = []
  len : r.hdr.type ≠ RecFlush → 0 < r.hdr.len ∧ 512 ∣ r.hdr.len
  inside : r.hdr.type ≠ RecFlush → r.hdr.sector * 512 + r.hdr.len ≤ size
  gap : hasFlag r.hdr.flags FGapBefore = false
  error : hasFlag r.hdr.flags FError = false

/-- a record whose bytes `iter_records` reads back -/
structure SRec.Whole (r : SRec) : Prop where
  fits : r.hdr.Fits
  magic : r.hdr.magic = RecMagic
  recLen : r.hdr.recLen = RecSize + r.body.length
  write : r.hdr.type = RecWrite → r.hdr.len ≤ r.body.length

theorem SRec.Plain.whole {r : SRec} (h : r.Plain) : r.Whole :=
  ⟨h.fits, h.magic, h.recLen, h.write⟩

/-- what `iter_records` makes of it -/
def SRec.item (r : SRec) : Item where
  hdr := r.hdr
  payload := r.body.take (if r.hdr.type = RecWrite then r.hdr.len else 0)
  short := by
    refine (List.length_take_le _ _).trans ?_
    split
    · exact Nat.le_refl _
    · exact Nat.zero_le _

section
variable {size : Nat} {r : SRec} {rs : List SRec} {buf rest : List UInt8}

theorem SRec.Emitted.plain (h : r.Emitted size) (hsize : size ≤ 2^63) : r.Plain := by
  have hn : r.hdr.type = RecWrite ∨ r.hdr.type = RecZero ∨ r.hdr.type = RecDiscard →
      r.hdr.type ≠ RecFlush := by
    rintro (e | e | e) <;> rw [e] <;> decide
  refine ⟨h.fits, h.magic, h.recLen, h.error, fun e => ?_, fun e => (h.len (hn (Or.inr e))).1,
    fun e => ?_⟩
  · rcases h.kind with ⟨_, hk⟩ | ⟨hk, _⟩ | ⟨hk | hk, _⟩
    · exact hk.ge
    all_goals rw [e] at hk; exact absurd hk (by decide)
  · have h1 := (h.len (hn e)).1
    have h2 := h.inside (hn e)
    omega

/-- **Both read the same patch out of a record.** -/
theorem SRec.Plain.item_patch (h : r.Plain) : r.item.patch = r.patch := by
  unfold Item.patch SRec.patch SRec.item
  dsimp only
  by_cases hw : r.hdr.type = RecWrite
  · have hlen := h.write hw
    rw [if_pos hw, if_pos hw, if_pos hw, List.length_take, Nat.min_eq_left hlen]
    apply span_congr
    intro i hi
    rw [List.getD_eq_getElem?_getD, List.getElem?_take, if_pos hi, List.getD_eq_getElem?_getD]
    rfl
  · rw [if_neg hw]
    conv_rhs => rw [if_neg hw]
    exact if_congr or_comm rfl rfl

/-! ## parsing -/

theorem prefix_of_append {a b c d : List UInt8} (h : a ++ b = c ++ d) (hl : c.length ≤ a.length) :
    ∃ t, a = c ++ t ∧ t ++ b = d := by
  rcases List.append_eq_append_iff.mp h with ⟨t, rfl, e⟩ | ⟨t, rfl, e⟩
  · have ht : t = [] := by
      rw [List.length_append] at hl
      exact List.length_eq_zero_iff.mp (by omega)
    subst ht
    exact ⟨[], by simp, e.symm ▸ rfl⟩
  · exact ⟨t, rfl, e.symm⟩

theorem itemAt_eq {off : Nat} {t : List UInt8} (hr : r.hdr.Fits)
    (hwrite : r.hdr.type = RecWrite → r.hdr.len ≤ r.body.length)
    (hb : buf.drop off = r.bytes ++ t) : itemAt buf off = r.item := by
  have hp : Rec.parse (buf.drop off) = r.hdr := by
    rw [hb]
    exact r.parse_bytes hr t
  have hbody : buf.drop (off + RecSize) = r.body ++ t := by
    rw [← List.drop_drop, hb, SRec.bytes, List.append_assoc]
    exact List.drop_left' r.hdr.length_bytes
  have hpay : (buf.drop (off + RecSize)).take (if r.hdr.type = RecWrite then r.hdr.len else 0)
      = r.body.take (if r.hdr.type = RecWrite then r.hdr.len else 0) := by
    rw [hbody]
    split
    · rename_i hw
      rw [List.take_append_of_le_length (hwrite hw)]
    · rfl
  unfold itemAt SRec.item
  simp only [hp, hpay]

theorem streamBytes_cons (r : SRec) (rs : List SRec) :
    streamBytes (r :: rs) = r.bytes ++ streamBytes rs := rfl

/-- **`iter_records` yields the whole records of the buffer**, and all of them if the buffer ends
with the stream. -/
theorem iter_stream (rs : List SRec) : ∀ (fuel off : Nat), (∀ r ∈ rs, r.Whole) →
    buf.drop off ++ rest = streamBytes rs → off ≤ buf.length → buf.length < off + fuel →
    ∃ k, iterRecords buf fuel off = some ((rs.take k).map SRec.item, false) ∧
      buf.drop (off + ((rs.take k).map fun r => r.hdr.recLen).sum) ++ rest
        = streamBytes (rs.drop k) ∧
      (rest = [] → rs.drop k = []) := by
  have hR : RecSize = 56 := rfl
  induction rs with
  | nil =>
    intro fuel off _ hb ho hf
    have hlen := List.drop_eq_nil_iff.mp (List.append_eq_nil_iff.mp hb).1
    obtain ⟨fuel, rfl⟩ : ∃ m, fuel = m + 1 := ⟨fuel - 1, by omega⟩
    refine ⟨0, ?_, hb, fun _ => rfl⟩
    unfold iterRecords
    exact if_neg (by omega)
  | cons r rs ih =>
    intro fuel off hwhole hb ho hf
    have hr := hwhole r List.mem_cons_self
    have hrl : r.hdr.recLen = r.bytes.length := hr.recLen.trans r.length_bytes.symm
    -- less than one record in the buffer, so the stream goes on behind it
    have hmore : buf.length < off + r.bytes.length → rest ≠ [] := by
      rintro hfew rfl
      have h1 := congrArg List.length hb
      rw [streamBytes_cons, List.append_nil, List.length_append, List.length_drop] at h1
      omega
    obtain ⟨fuel, rfl⟩ : ∃ m, fuel = m + 1 := ⟨fuel - 1, by omega⟩
    unfold iterRecords
    by_cases hfull : off + RecSize ≤ buf.length
    · rw [if_pos hfull]
      have hhdr : (itemAt buf off).hdr = r.hdr := by
        have hb2 : buf.drop off ++ rest = r.hdr.bytes ++ (r.body ++ streamBytes rs) := by
          rw [hb, streamBytes_cons, SRec.bytes, List.append_assoc]
        obtain ⟨t, ht, _⟩ := prefix_of_append hb2
          (by rw [r.hdr.length_bytes, List.length_drop]; omega)
        show Rec.parse (buf.drop off) = r.hdr
        rw [ht]
        exact r.hdr.parse_bytes hr.fits t
      dsimp only
      rw [hhdr, if_neg (not_not.mpr hr.magic)]
      by_cases hend : off + r.hdr.recLen > buf.length
      · rw [if_pos hend]
        exact ⟨0, rfl, hb, fun e => absurd e (hmore (by omega))⟩
      · rw [if_neg hend]
        obtain ⟨t, ht, hnext⟩ := prefix_of_append (hb.trans (streamBytes_cons r rs))
          (by rw [List.length_drop]; omega)
        have hdrop : buf.drop (off + r.hdr.recLen) = t := by
          rw [← List.drop_drop, ht, hrl]
          exact List.drop_left' rfl
        obtain ⟨k, h1, h2, h3⟩ := ih fuel (off + r.hdr.recLen)
          (fun x hx => hwhole x (List.mem_cons_of_mem r hx)) (by rw [hdrop]; exact hnext)
          (by omega) (by rw [r.length_bytes] at hrl; omega)
        refine ⟨k + 1, ?_, ?_, h3⟩
        · rw [h1, itemAt_eq hr.fits hr.write ht]
          rfl
        · rw [List.take_succ_cons, List.map_cons, List.sum_cons, ← Nat.add_assoc]
          exact h2
    · rw [if_neg hfull]
      exact ⟨0, rfl, hb, fun e => absurd e (hmore (by rw [r.length_bytes]; omega))⟩

/-! ## one batch -/

/-- without a chunk in flight and without the lock, the loop applies what it is given -/
theorem foldl_consume (size : Nat) (buf : List UInt8) (l : List Item) :
    ∀ (d : DaemonSt) (off : Nat) (parked : List UInt8),
    d.copying = none → ∃ d', l.foldl (consumeStep size false buf) (d, off, parked)
        = (d', off + (l.map fun r => r.hdr.recLen).sum, parked) ∧
      d'.copying = none ∧ d'.pending = d.pending ∧ d'.rep.img = replay (patches l) d.rep.img := by
  induction l with
  | nil => intro d off parked hc; exact ⟨d, rfl, hc, rfl, rfl⟩
  | cons r l ih =>
    intro d off parked hc
    have hs : ({ d with gaps := d.gaps.note r }.applyOne size r).shared
        = d.shared.applyOne r := applyOne_shared size { d with gaps := d.gaps.note r } r
    obtain ⟨himg, hcopy⟩ := applyOne_alone (c:=d.shared) (r:=r) hc
    rw [← hs] at himg hcopy
    obtain ⟨d', h1, h2, h3, h4⟩ := ih ({ d with gaps := d.gaps.note r }.applyOne size r)
      (off + r.hdr.recLen) parked hcopy
    refine ⟨d', ?_, h2, ?_, ?_⟩
    · rw [List.foldl_cons, List.map_cons, List.sum_cons, ← Nat.add_assoc]
      exact h1
    · rw [h3]
      unfold DaemonSt.applyOne
      split <;> rfl
    · rw [h4]
      exact congrArg (replay (patches l)) himg

/-- **One batch**: the whole records are applied, the rest of the stream stays in front of what
comes next. -/
theorem consume_stream (size : Nat) {d : DaemonSt} (hplain : ∀ r ∈ rs, r.Plain) (hc : d.copying = none)
    (hb : buf ++ rest = streamBytes rs) :
    ∃ k d' tail, d.consume size false buf = some (d', some tail) ∧ d'.copying = none ∧
      tail ++ rest = streamBytes (rs.drop k) ∧ (rest = [] → rs.drop k = []) ∧
      d'.rep.img = replay ((rs.take k).map SRec.patch) d.rep.img := by
  obtain ⟨k, h1, h2, h3⟩ := iter_stream rs (buf.length + 1) 0 (fun r hr => (hplain r hr).whole) hb
    (Nat.zero_le _) (by omega)
  obtain ⟨d', g1, g2, g3, g4⟩ := foldl_consume size buf ((rs.take k).map SRec.item) d 0 [] hc
  have hpatch : patches ((rs.take k).map SRec.item) = (rs.take k).map SRec.patch := by
    rw [patches, List.map_map]
    exact List.map_congr_left fun r hr => (hplain r (List.mem_of_mem_take hr)).item_patch
  have hsum : (((rs.take k).map SRec.item).map fun r => r.hdr.recLen)
      = (rs.take k).map fun r => r.hdr.recLen := by
    rw [List.map_map]
    rfl
  rw [hsum] at g1
  refine ⟨k, { d' with pending := d'.pending ++ [] },
    buf.drop (0 + ((rs.take k).map fun r => r.hdr.recLen).sum), ?_, g2, h2, h3, ?_⟩
  · unfold DaemonSt.consume
    rw [h1]
    dsimp only
    rw [g1]
    rfl
  · rw [← hpatch]
    exact g4

theorem stream_nil (h : streamBytes rs = []) : rs = [] := by
  cases rs with
  | nil => rfl
  | cons r rs =>
    have h1 := congrArg List.length h
    rw [streamBytes_cons, List.length_append, r.length_bytes, List.length_nil] at h1
    have hR : RecSize = 56 := rfl
    omega

/-- **Any split into batches**: everything is applied and nothing is left over. -/
theorem consumeAll_stream (size : Nat) (batches : List (List UInt8)) :
    ∀ (d : DaemonSt) (pending : List UInt8)
    (rs : List SRec), (∀ r ∈ rs, r.Plain) → d.copying = none →
    pending ++ batches.flatten = streamBytes rs → (batches.flatten = [] → pending = []) →
    ∃ d', consumeAll size d pending batches = some (d', []) ∧
      d'.rep.img = replay (rs.map SRec.patch) d.rep.img := by
  induction batches with
  | nil =>
    intro d pending rs hplain hc hb hp
    obtain rfl := hp rfl
    obtain rfl := stream_nil hb.symm
    exact ⟨d, rfl, rfl⟩
  | cons data batches ih =>
    intro d pending rs hplain hc hb hp
    rw [List.flatten_cons] at hb hp
    unfold consumeAll
    by_cases hdata : data = []
    · subst hdata
      rw [if_pos rfl]
      exact ih d pending rs hplain hc hb hp
    · rw [if_neg hdata]
      obtain ⟨k, d1, tail, h1, h2, h3, h4, h5⟩ := consume_stream size hplain hc
        ((List.append_assoc pending data batches.flatten).trans hb)
      have htail : batches.flatten = [] → tail = [] := fun he => by
        rw [h4 he] at h3
        exact (List.append_eq_nil_iff.mp h3).1
      obtain ⟨d2, g1, g2⟩ := ih d1 tail (rs.drop k)
        (fun r hr => hplain r (List.mem_of_mem_drop hr)) h2 h3 htail
      rw [h1]
      refine ⟨d2, g1, ?_⟩
      rw [g2, h5, ← replay_append, ← List.map_append, List.take_append_drop]

end

/-! ## the two replayers -/

/-- **`cdp-apply` and the daemon leave the same image.**  The stream is any run of whole records as
the target emits them; `batches` is any split of its bytes; the daemon starts with any replica,
with or without a seed layer, and any results of `fallocate`. -/
theorem same_image (cfg : Config) (rs : List SRec) (j : Nat) (batches : List (List UInt8))
    (d : DaemonSt) (env : ApplyEnv) (io : List Pwrite) (hem : ∀ r ∈ rs, r.Emitted cfg.size)
    (hseq : SeqFrom j rs) (hlt : j + rs.length ≤ 2^63) (hb : batches.flatten = streamBytes rs)
    (hc : d.copying = none) (henv : env.Ample) (hio : NoError io) :
    ∃ q d', applyLoop env (-1) (-1) (streamBytes rs) (rs.length + 1) (applyInit d.rep.img io)
        = some (0, q) ∧
      consumeAll cfg.size d [] batches = some (d', []) ∧ q.img = d'.rep.img := by
  have hsize : cfg.size ≤ 2^63 := by
    have h1 := cfg.start_len
    unfold Config.size
    omega
  have hplain : ∀ r ∈ rs, r.Plain := fun r hr => (hem r hr).plain hsize
  obtain ⟨q, h1, h2⟩ := apply_all henv hio hplain hseq (fun r hr => (hem r hr).gap) hlt d.rep.img
  obtain ⟨d', g1, g2⟩ := consumeAll_stream cfg.size batches d [] rs hplain hc hb
    fun _ => rfl
  exact ⟨q, d', h1, g1, h2.trans g2.symm⟩

/-- a discard and a write of one sector -/
def shortStream : List SRec :=
  [⟨⟨RecMagic, AbiVersion, RecDiscard, 0, StCommitted, 7, 0, 1024, 56, 0, 0⟩, []⟩,
    ⟨⟨RecMagic, AbiVersion, RecWrite, FFua, StCommitted, 8, 1, 512, 568, 0, 0⟩,
      List.replicate 512 5⟩]

/-- a daemon with a seed layer, on a file system whose holes fail -/
def seededDaemon : DaemonSt where
  rep := ⟨fun _ => 3, some (SeedLayer.init (Sparse.empty 4096) smallConfig.size), true, [false]⟩
  copying := none
  deferred := []
  gaps := ⟨none, []⟩
  lastSeq := none
  records := 0
  bytes := 0
  pending := []

theorem same_image_split : ∃ q d', applyLoop ⟨fun _ => true, fun _ => true, fun _ => 0⟩ (-1) (-1)
      (streamBytes shortStream) (2 + 1) (applyInit (fun _ => 3) [.wrote 100, .eintr])
        = some (0, q) ∧
    consumeAll smallConfig.size seededDaemon []
      [(streamBytes shortStream).take 90, (streamBytes shortStream).drop 90] = some (d', []) ∧
    q.img = d'.rep.img := by
  refine same_image smallConfig shortStream 7 _ seededDaemon _ _ ?_ ?_ (by decide) ?_ rfl
    ⟨fun _ => rfl, fun _ => rfl⟩ (by decide)
  · intro r hr
    rcases List.mem_pair.mp hr with rfl | rfl
    · exact ⟨by constructor <;> decide, rfl, rfl, Or.inr (Or.inr ⟨Or.inr rfl, rfl⟩),
        fun _ => by decide, fun _ => by decide, by decide, by decide⟩
    · have hlen : (List.replicate 512 (5 : UInt8)).length = 512 := List.length_replicate
      exact ⟨by constructor <;> decide, rfl, by rw [hlen]; rfl, Or.inl ⟨rfl, hlen⟩,
        fun _ => by decide, fun _ => by decide, by decide, by decide⟩
  · intro i r hr
    match i with
    | 0 => obtain rfl := Option.some.inj hr; rfl
    | 1 => obtain rfl := Option.some.inj hr; rfl
    | i + 2 =>
      have hnone : ([] : List SRec)[i]? = some r := hr
      exact absurd hnone (by simp)
  · show _ ++ (_ ++ []) = _
    rw [List.append_nil, List.take_append_drop]

end CDP
