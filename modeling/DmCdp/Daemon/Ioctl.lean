import DmCdp.Lib.Struct
import DmCdp.Kernel.Clear
import DmCdp.Kernel.StatusSound
import DmCdp.Tools.Bitmap

/-!
# The structures of the header and the formats of `dmcdp`

The module stores C structures, `dmcdp` unpacks them with format strings and packs the request of
`DM_CDP_IOC_BITMAP`; the numbers of the `ioctl`s stand in both.

* `CdpStatus.bytes`, `BitmapReq.load`  the C side, `cdpIoctl` its switch over the numbers;
* `pyStatus`, `pyReadBitmap`           `status` and `read_bitmap`;
* `rec_unpack`    the format of the record header reads what `Rec.parse` does;
* `read_bitmap_whole`  a report of any run is unpacked field by field, and `read_bitmap` hands out all
                  longs, unless memory fails it.
-/

set_option linter.unusedVariables false

namespace CDP
open Img Mach Struct

/-! ## the structures -/

/-- `struct dm_cdp_rec` -/
def RecWidths : List Nat := [4, 2, 2, 4, 4, 8, 8, 4, 4, 8, 8]

/-- `struct dm_cdp_status`, with `reserved[4]` -/
def StatusWidths : List Nat := [4, 4, 8, 4, 4, 8, 8, 8, 8, 8, 8, 8, 8, 8, 8, 8, 8, 8]

/-- `struct dm_cdp_bitmap` -/
def BitmapWidths : List Nat := [8, 8, 4, 4]

def SOverflowed : Nat := 1
def SDead : Nat := 2
def BmClear : Nat := 1

def Rec.values (r : Rec) : List Nat :=
  [r.magic, r.version, r.type, r.flags, r.state, r.seq, r.sector, r.len, r.recLen, r.tsNs, r.reserved]

def CdpStatus.flags (r : CdpStatus) : Nat :=
  (if r.overflowed then SOverflowed else 0) ||| (if r.dead then SDead else 0)

def CdpStatus.values (r : CdpStatus) : List Nat :=
  [r.abiVersion, r.flags, r.devSectors, r.chunkSectors, r.minor, r.bitmapBits, r.bitmapBytes,
    r.bitmapSet, r.ringSize, r.ringUsed, r.seqNext, r.records, r.bytesLogged, r.overflows, 0, 0, 0, 0]

/-- what `copy_to_user` copies -/
def CdpStatus.bytes (r : CdpStatus) : List UInt8 := cStruct StatusWidths r.values

/-- `struct dm_cdp_bitmap` without `reserved` -/
structure BitmapReq where
  buf : Nat
  len : Nat
  flags : Nat

/-- `copy_from_user(&req, arg, sizeof(req))` -/
def BitmapReq.load (bs : List UInt8) : BitmapReq :=
  let vs := cLoad 0 BitmapWidths bs
  ⟨vs.getD 0 0, vs.getD 1 0, vs.getD 2 0⟩

def BitmapReq.kind (q : BitmapReq) (faults : Bool) : ClearKind :=
  .bitmap q.len (hasFlag q.flags BmClear) faults

/-! ## the numbers -/

/-- `_IOC`, with `DM_CDP_IOC_MAGIC` -/
def ioc (dir nr size : Nat) : Nat := dir <<< 30 ||| size <<< 16 ||| 0xCD <<< 8 ||| nr

inductive IoctlCmd where
  | status
  | bitmap
  | bitmapClear
  | resetStats
  deriving DecidableEq

/-- `_IOR`, `_IOWR` and twice `_IO` -/
def IoctlCmd.number : IoctlCmd → Nat
  | .status => ioc 2 1 (cSize StatusWidths)
  | .bitmap => ioc 3 2 (cSize BitmapWidths)
  | .bitmapClear => ioc 0 3 0
  | .resetStats => ioc 0 4 0

/-- the switch of `cdp_ioctl`; `none` is `-ENOTTY` -/
def cdpIoctl (cmd : Nat) : Option IoctlCmd :=
  if cmd = IoctlCmd.status.number then some .status
  else if cmd = IoctlCmd.bitmap.number then some .bitmap
  else if cmd = IoctlCmd.bitmapClear.number then some .bitmapClear
  else if cmd = IoctlCmd.resetStats.number then some .resetStats
  else none

/-! ## `dmcdp` -/

def RecFmt : String := "<IHHIIQQIIQQ"
def StatusFmt : String := "<IIQIIQQQQQQQQQ4Q"

def StatusFields : List String :=
  ["abi_version", "flags", "dev_sectors", "chunk_sectors", "minor", "bitmap_bits", "bitmap_bytes",
    "bitmap_set", "ring_size", "ring_used", "seq_next", "records", "bytes_logged", "overflows"]

def IocStatus : Nat := 0x8080CD01
def IocBitmap : Nat := 0xC018CD02
def IocBitmapClear : Nat := 0xCD03
def IocResetStats : Nat := 0xCD04

/-- `fcntl.ioctl(fd, cmd, buf, True)`, `r` being the report; `none` is an `OSError` -/
def ioctlStatus (r : CdpStatus) (cmd : Nat) (buf : List UInt8) : Option (List UInt8) :=
  if cdpIoctl cmd = some .status then some (r.bytes ++ buf.drop r.bytes.length) else none

def pyStatus (r : CdpStatus) : Option (List (String × Nat)) := do
  let size ← calcsize StatusFmt
  let buf ← ioctlStatus r IocStatus (List.replicate size 0)
  let vals ← structUnpack StatusFmt buf
  some (StatusFields.zip vals)

/-- what `cdp_ioctl_bitmap` may meet -/
structure BitmapEnv where
  readable : Bool
  alloc : Bool
  faults : Bool

/-- `fcntl.ioctl(fd, cmd, req)`; `snap` is what the loop over the longs has read, `m` the memory of
the process -/
def ioctlBitmap (t : Target) (snap : Nat → Bool) (env : BitmapEnv) (cmd : Nat) (req : List UInt8)
    (m : Nat → UInt8) : Option (Nat → UInt8) :=
  if cdpIoctl cmd = some .bitmap then
    let q := BitmapReq.load req
    match (q.kind env.faults).entered t env.readable env.alloc with
    | .words _ => if env.faults then none else some (putList m q.buf (bitmapBytes snap t.nbits))
    | _ => none
  else none

/-- `read_bitmap(fd, clear)`; `addr` is where the buffer lies -/
def pyReadBitmap (t : Target) (r : CdpStatus) (snap : Nat → Bool) (env : BitmapEnv) (clear : Bool)
    (addr : Nat) (m : Nat → UInt8) : Option (List UInt8 × Nat × Nat) := do
  let st ← pyStatus r
  let nbytes ← st.lookup "bitmap_bytes"
  let m := putList m addr (List.replicate nbytes 0)
  let req ← structPack "<QQII" [addr, nbytes, if clear then BmClear else 0, 0]
  let m ← ioctlBitmap t snap env IocBitmap req m
  let cs ← st.lookup "chunk_sectors"
  let nbits ← st.lookup "bitmap_bits"
  some (slice m addr nbytes, cs, nbits)

/-! ## layouts and formats -/

theorem formats : formatWidths RecFmt = some RecWidths ∧ formatWidths StatusFmt = some StatusWidths ∧
    formatWidths "<QQII" = some BitmapWidths := by decide

theorem tight : Tight (RecWidths.foldr max 1) 0 RecWidths ∧
    Tight (StatusWidths.foldr max 1) 0 StatusWidths ∧
    Tight (BitmapWidths.foldr max 1) 0 BitmapWidths := by decide

/-- the numbers of `dmcdp` select the branches of the switch -/
theorem numbers : cdpIoctl IocStatus = some .status ∧ cdpIoctl IocBitmap = some .bitmap ∧
    cdpIoctl IocBitmapClear = some .bitmapClear ∧ cdpIoctl IocResetStats = some .resetStats := by
  decide +kernel

theorem Rec.Fits.widths {r : Rec} (h : r.Fits) : Struct.Fits RecWidths r.values := by
  obtain ⟨h1, h2, h3, h4, h5, h6, h7, h8, h9, h10, h11⟩ := h
  exact .cons 4 _ _ _ h1 (.cons 2 _ _ _ h2 (.cons 2 _ _ _ h3 (.cons 4 _ _ _ h4 (.cons 4 _ _ _ h5
    (.cons 8 _ _ _ h6 (.cons 8 _ _ _ h7 (.cons 4 _ _ _ h8 (.cons 4 _ _ _ h9 (.cons 8 _ _ _ h10
    (.cons 8 _ _ _ h11 .nil))))))))))

/-- **The C layout of a header** is `Rec.bytes`. -/
theorem rec_layout {r : Rec} (h : r.Fits) : cStruct RecWidths r.values = r.bytes := by
  rw [cStruct_pack tight.1 h.widths]
  simp [pack, RecWidths, Rec.values, Rec.bytes]

/-- **`struct.unpack_from(REC_FMT, ...)`** on any header is `Rec.parse`. -/
theorem rec_unpack {bs : List UInt8} (h : bs.length = RecSize) :
    structUnpack RecFmt bs = some (Rec.parse bs).values := by
  have hfits := Rec.parse_fits bs
  have hbytes : pack RecWidths (Rec.parse bs).values = bs := by
    rw [← cStruct_pack tight.1 hfits.widths, rec_layout hfits]
    exact (Rec.bytes_parse h.ge).trans (List.take_of_length_le h.le)
  unfold structUnpack
  rw [formats.1, Option.bind_some]
  conv_lhs => rw [← hbytes]
  exact unpack_pack hfits.widths

/-- **A report that fits is unpacked field by field.** -/
theorem pyStatus_eq {r : CdpStatus} (h : Fits StatusWidths r.values) :
    pyStatus r = some (StatusFields.zip r.values) := by
  have hbytes : r.bytes = pack StatusWidths r.values := cStruct_pack tight.2.1 h
  have hlen : r.bytes.length = 128 := by
    rw [hbytes, length_pack h]
    rfl
  have hsize : calcsize StatusFmt = some 128 := by
    unfold calcsize
    rw [formats.2.1]
    rfl
  have hioctl : ioctlStatus r IocStatus (List.replicate 128 0) = some r.bytes := by
    simp [ioctlStatus, numbers.1, hlen]
  have hunpack : structUnpack StatusFmt r.bytes = some r.values := by
    unfold structUnpack
    rw [formats.2.1, hbytes]
    exact unpack_pack h
  unfold pyStatus
  rw [hsize, Option.bind_eq_bind, Option.bind_some, hioctl, Option.bind_eq_bind, Option.bind_some,
    hunpack]
  rfl

theorem CdpStatus.hasFlags (r : CdpStatus) : hasFlag r.flags SOverflowed = r.overflowed ∧
    hasFlag r.flags SDead = r.dead ∧ r.flags < 2^32 := by
  unfold CdpStatus.flags
  cases r.overflowed <;> cases r.dead <;> decide

/-! ## a report of any run -/

section
variable {cfg : Config} {minor : Nat} {s : StatusSt} {r : CdpStatus}

theorem Config.nbits_lt (cfg : Config) : cfg.nbits < 2^54 := by
  have h1 := cfg.begin_len
  have h2 := cfg.chunkSectors_pos
  have h3 : cfg.len ≤ cfg.chunkSectors * cfg.len := Nat.le_mul_of_pos_left _ h2
  have h4 : cfg.nbits ≤ cfg.len := by
    unfold Config.nbits
    rw [Nat.div_le_iff_le_mul_add_pred h2]
    omega
  omega

theorem report_fits (hc : CounterInv cfg s) (hq : NumOk cfg s .ioctl r) (hf : r.Fixed cfg minor)
    (hset : r.bitmapSet ≤ cfg.nbits) (hm : minor < 2^32) : Fits StatusWidths r.values := by
  have h1 := cfg.nbits_lt
  have h2 := cfg.begin_len
  have h3 := cfg.chunk_u32
  have h4 := cfg.ring_u32
  have h5 := hc.k.log.length_lt
  have h6 := hq.seq
  have h7 := (hq.counted rfl).1
  have h8 := (hq.counted rfl).2
  have h9 : logBytes s.k.log r.seqNext ≤ logBytes s.k.log s.k.log.length := by
    unfold logBytes
    rw [Counts.sum_split _ h6]
    exact Nat.le_add_right _ _
  have h10 := hc.weight
  have h11 := hc.k.log.ring.head
  have hcs : cfg.chunkSectors = cfg.chunkKb * 2 := rfl
  have hrs : cfg.ringSize = cfg.ringMb * 2^20 := rfl
  have hused := hq.used.1
  have hov := hq.overflows
  have e4 : 256 ^ 4 = 2 ^ 32 := by norm_num
  have e8 : 256 ^ 8 = 2 ^ 64 := by norm_num
  have hsec := hq.sectors.1
  obtain ⟨f1, f3, f4, f5, f6, f7⟩ := hf
  have habi : AbiVersion = 1 := rfl
  refine .cons 4 _ _ _ ?_ (.cons 4 _ _ _ ?_ (.cons 8 _ _ _ ?_ (.cons 4 _ _ _ ?_ (.cons 4 _ _ _ ?_
    (.cons 8 _ _ _ ?_ (.cons 8 _ _ _ ?_ (.cons 8 _ _ _ ?_ (.cons 8 _ _ _ ?_ (.cons 8 _ _ _ ?_
    (.cons 8 _ _ _ ?_ (.cons 8 _ _ _ ?_ (.cons 8 _ _ _ ?_ (.cons 8 _ _ _ ?_
    (.cons 8 0 _ _ (by decide) (.cons 8 0 _ _ (by decide) (.cons 8 0 _ _ (by decide)
    (.cons 8 0 _ _ (by decide) .nil)))))))))))))))))
  all_goals first | rw [e4] | rw [e8]
  · omega
  · exact r.hasFlags.2.2
  · omega
  · omega
  · omega
  · omega
  · omega
  · omega
  · omega
  · omega
  · omega
  · omega
  · omega
  · omega

end

/-! ## `read_bitmap` -/

theorem length_bitmapBytes (bm : Nat → Bool) (nbits : Nat) :
    (bitmapBytes bm nbits).length = 8 * ((nbits + 63) / 64) := by
  simp [bitmapBytes, List.length_flatMap, length_le, Nat.mul_comm]

theorem extentLoop_congr {bm bm' : Nat → Bool} {cs nbits : Nat} (h : ∀ i, i < nbits → bm i = bm' i)
    (k : Nat) : ∀ (i : Nat) (start : Option Nat),
      extentLoop bm cs nbits k i start = extentLoop bm' cs nbits k i start := by
  induction k with
  | zero =>
    intro i start
    rfl
  | succ k ih =>
    intro i start
    have hbit : (decide (i < nbits) && bm i) = (decide (i < nbits) && bm' i) := by
      by_cases hi : i < nbits
      · rw [h i hi]
      · simp [hi]
    unfold extentLoop
    simp only [hbit, ih]

theorem req_load {addr len flags : Nat} (ha : addr < 2^64) (hl : len < 2^64) (hf : flags < 2^32) :
    ∃ req, structPack "<QQII" [addr, len, flags, 0] = some req ∧
      BitmapReq.load req = ⟨addr, len, flags⟩ := by
  have hfits : Fits BitmapWidths [addr, len, flags, 0] :=
    .cons 8 _ _ _ ha (.cons 8 _ _ _ hl (.cons 4 _ _ _ hf (.cons 4 _ _ _ (by decide) .nil)))
  refine ⟨cStruct BitmapWidths [addr, len, flags, 0], ?_, ?_⟩
  · unfold structPack
    rw [formats.2.2, Option.bind_some, packs_eq hfits, cStruct_pack tight.2.2 hfits]
  · have hload := cLoad_cStruct hfits []
    rw [List.append_nil] at hload
    unfold BitmapReq.load
    rw [hload]
    rfl

theorem pyReadBitmap_eq {t : Target} {r : CdpStatus} (h : Fits StatusWidths r.values)
    (hb : r.bitmapBytes = 8 * t.nlongs) (snap : Nat → Bool) (env : BitmapEnv) (clear : Bool)
    {addr : Nat} (ha : addr < 2^64) (m : Nat → UInt8) :
    pyReadBitmap t r snap env clear addr m
      = if env.readable && env.alloc && !env.faults then
          some (bitmapBytes snap t.nbits, r.chunkSectors, r.bitmapBits) else none := by
  have hlen : r.bitmapBytes < 256 ^ 8 := h.lt (i:=6) rfl rfl
  have hflags : (if clear then BmClear else 0) < 2^32 := by
    cases clear <;> decide
  obtain ⟨req, hpack, hload⟩ := req_load ha hlen hflags
  have hbytes : (StatusFields.zip r.values).lookup "bitmap_bytes" = some r.bitmapBytes := rfl
  have hcs : (StatusFields.zip r.values).lookup "chunk_sectors" = some r.chunkSectors := rfl
  have hbits : (StatusFields.zip r.values).lookup "bitmap_bits" = some r.bitmapBits := rfl
  have hroom : ¬r.bitmapBytes < t.nlongs * 8 := by omega
  have hout : ∀ m : Nat → UInt8, slice (putList m addr (bitmapBytes snap t.nbits)) addr r.bitmapBytes
      = bitmapBytes snap t.nbits := by
    intro m
    have hl : r.bitmapBytes = (bitmapBytes snap t.nbits).length := by
      rw [length_bitmapBytes, hb]
      rfl
    rw [hl]
    exact slice_putList m addr _
  obtain ⟨readable, alloc, faults⟩ := env
  unfold pyReadBitmap ioctlBitmap
  simp only [pyStatus_eq h, hbytes, hcs, hbits, hpack, hload, numbers.2.1, Option.bind_eq_bind,
    Option.bind_some, BitmapReq.kind, ClearKind.entered, if_true]
  cases readable <;> cases alloc <;> cases faults <;> simp [hroom, hout]

/-- **`status` and `read_bitmap` on the reports of any run.** -/
theorem read_bitmap_whole (cfg : Config) (minor : Nat) (dev : Nat → UInt8) (as : List StatusAct)
    (s : StatusSt) (h : exec (statusStep cfg minor) (StatusSt.init cfg dev) as = some s)
    (hm : minor < 2^32) (i : Nat) (q : Report) (hq : s.reports[i]? = some q) (hf : q.fn = .ioctl)
    (snap : Nat → Bool) (env : BitmapEnv) (clear : Bool) (addr : Nat) (ha : addr < 2^64)
    (m : Nat → UInt8) :
    (pyStatus q.r = some (StatusFields.zip q.r.values) ∧
      hasFlag q.r.flags SOverflowed = q.r.overflowed ∧ hasFlag q.r.flags SDead = q.r.dead) ∧
    pyReadBitmap s.k.t q.r snap env clear addr m
      = (if env.readable && env.alloc && !env.faults then
          some (bitmapBytes snap cfg.nbits, cfg.chunkSectors, cfg.nbits) else none) ∧
    bitmapExtents (byteBit (bitmapBytes snap cfg.nbits)) cfg.chunkSectors cfg.nbits
      = bitmapExtents snap cfg.chunkSectors cfg.nbits := by
  have hinv := exec_invariant (P:=StatusInv cfg minor) (fun _ _ _ hi hs => hi.step hs)
    (StatusInv.init cfg minor dev) h
  have hok := hinv.reports i q hq
  have hfits := report_fits hinv.counter (hf ▸ hok.num) hok.fixed hok.set hm
  have hbytes : q.r.bitmapBytes = 8 * s.k.t.nlongs := by
    rw [hok.fixed.bytes]
    unfold Target.nlongs
    rw [hinv.counter.nbits]
  refine ⟨⟨pyStatus_eq hfits, q.r.hasFlags.1, q.r.hasFlags.2.1⟩, ?_, ?_⟩
  · rw [pyReadBitmap_eq hfits hbytes snap env clear ha m, hinv.counter.nbits, hok.fixed.chunk,
      hok.fixed.bits]
  · exact extentLoop_congr (fun b hb => byteBit_eq hb) _ _ _

/-- the report of `cdp_ioctl_status` in `statusRun` -/
theorem read_bitmap_whole_run : ∃ s, exec (statusStep smallConfig 7)
    (StatusSt.init smallConfig fun _ => 0) statusRun = some s ∧
    ∃ q : Report, s.reports[0]? = some q ∧
      pyReadBitmap s.k.t q.r s.k.t.bitmap ⟨true, true, false⟩ true 4096 (fun _ => 0)
        = some (bitmapBytes s.k.t.bitmap 64, 128, 64) := by
  have h : (exec (statusStep smallConfig 7) (StatusSt.init smallConfig fun _ => 0) statusRun).any
      (fun s => (s.reports[0]?).any fun q => q.fn == .ioctl) = true := by
    decide +kernel
  obtain ⟨s, hs, hp⟩ := (Option.any_eq_true _ _).mp h
  obtain ⟨q, hq, hfn⟩ := (Option.any_eq_true _ _).mp hp
  have hall := read_bitmap_whole smallConfig 7 (fun _ => 0) statusRun s hs (by decide) 0 q hq
    (beq_iff_eq.mp hfn) s.k.t.bitmap ⟨true, true, false⟩ true 4096 (by decide) fun _ => 0
  exact ⟨s, hs, q, hq, hall.2.1⟩

end CDP
