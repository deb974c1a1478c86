import DmCdp.Lib.Bytes

/-!
# `struct dm_cdp_rec`: the record header of the ring and of the stream

The constants and the 56-byte header of `include/uapi/linux/dm-cdp.h`, as the C structure lies
in memory (`bytes`: little-endian, no padding between the fields) and as `struct.unpack_from`
and the C loads read it (`parse`, `load`).

* `Rec.Fits`          every field fits its C type;
* `parse_bytes`       a header that fits is read back from its bytes;
* `storeFlags`, `storeState`  the two single-field stores of the driver.
-/

set_option linter.unusedVariables false

namespace CDP
open Img

/-! ## constants -/

def RecMagic : Nat := 0x52504443
def AbiVersion : Nat := 1

def RecWrite : Nat := 1
def RecFlush : Nat := 2
def RecDiscard : Nat := 3
def RecZero : Nat := 4
def RecPad : Nat := 5

def FFua : Nat := 1
def FPreflush : Nat := 2
def FError : Nat := 4
def FGapBefore : Nat := 8

def StReserved : Nat := 0
def StData : Nat := 1
def StCommitted : Nat := 2

/-- `sizeof(struct dm_cdp_rec)` -/
def RecSize : Nat := 56

/-- `flags & bit` as a condition -/
def hasFlag (flags bit : Nat) : Bool := flags &&& bit != 0

/-! ## the header -/

structure Rec where
  magic : Nat
  version : Nat
  type : Nat
  flags : Nat
  state : Nat
  seq : Nat
  sector : Nat
  len : Nat
  recLen : Nat
  tsNs : Nat
  reserved : Nat
  deriving DecidableEq, Repr

/-- every field fits its C type -/
structure Rec.Fits (r : Rec) : Prop where
  magic : r.magic < 2^32
  version : r.version < 2^16
  type : r.type < 2^16
  flags : r.flags < 2^32
  state : r.state < 2^32
  seq : r.seq < 2^64
  sector : r.sector < 2^64
  len : r.len < 2^32
  recLen : r.recLen < 2^32
  tsNs : r.tsNs < 2^64
  reserved : r.reserved < 2^64

def Rec.bytes (r : Rec) : List UInt8 :=
  le 4 r.magic ++ le 2 r.version ++ le 2 r.type ++ le 4 r.flags ++ le 4 r.state ++ le 8 r.seq
    ++ le 8 r.sector ++ le 4 r.len ++ le 4 r.recLen ++ le 8 r.tsNs ++ le 8 r.reserved

/-- the little-endian field of `w` bytes at offset `k` -/
def field (bs : List UInt8) (k w : Nat) : Nat := ofLe ((bs.drop k).take w)

def Rec.parse (bs : List UInt8) : Rec where
  magic := field bs 0 4
  version := field bs 4 2
  type := field bs 6 2
  flags := field bs 8 4
  state := field bs 12 4
  seq := field bs 16 8
  sector := field bs 24 8
  len := field bs 32 4
  recLen := field bs 36 4
  tsNs := field bs 40 8
  reserved := field bs 48 8

theorem Rec.length_bytes (r : Rec) : r.bytes.length = RecSize := by
  simp [Rec.bytes, length_le, RecSize]

theorem field_head (w n : Nat) (bs : List UInt8) : field (le w n ++ bs) 0 w = n % 256 ^ w := by
  unfold field
  rw [List.drop_zero, List.take_left' (length_le w n), ofLe_le]

theorem field_skip (w n k v : Nat) (bs : List UInt8) (h : w ≤ k) :
    field (le w n ++ bs) k v = field bs (k - w) v := by
  obtain ⟨d, rfl⟩ := Nat.exists_eq_add_of_le h
  unfold field
  rw [← List.drop_drop, List.drop_left' (length_le w n), Nat.add_sub_cancel_left]

/-- **A header that fits its C types is read back from its bytes**, whatever follows them. -/
theorem Rec.parse_bytes (r : Rec) (h : r.Fits) (rest : List UInt8) :
    Rec.parse (r.bytes ++ rest) = r := by
  obtain ⟨h1, h2, h3, h4, h5, h6, h7, h8, h9, h10, h11⟩ := h
  have e2 : 256 ^ 2 = 2 ^ 16 := by norm_num
  have e4 : 256 ^ 4 = 2 ^ 32 := by norm_num
  have e8 : 256 ^ 8 = 2 ^ 64 := by norm_num
  unfold Rec.parse Rec.bytes
  simp only [List.append_assoc]
  simp (disch := decide) only [field_head, field_skip, Nat.reduceSub]
  rw [e2, e4, e8, Nat.mod_eq_of_lt h1, Nat.mod_eq_of_lt h2, Nat.mod_eq_of_lt h3,
    Nat.mod_eq_of_lt h4, Nat.mod_eq_of_lt h5, Nat.mod_eq_of_lt h6, Nat.mod_eq_of_lt h7,
    Nat.mod_eq_of_lt h8, Nat.mod_eq_of_lt h9, Nat.mod_eq_of_lt h10, Nat.mod_eq_of_lt h11]

theorem field_lt (bs : List UInt8) (k w : Nat) : field bs k w < 256 ^ w := by
  unfold field
  refine lt_of_lt_of_le (ofLe_lt _) (Nat.pow_le_pow_right (by decide) ?_)
  exact List.length_take_le _ _

theorem Rec.parse_fits (bs : List UInt8) : (Rec.parse bs).Fits := by
  have e2 : 2 ^ 16 = 256 ^ 2 := by norm_num
  have e4 : 2 ^ 32 = 256 ^ 4 := by norm_num
  have e8 : 2 ^ 64 = 256 ^ 8 := by norm_num
  constructor <;> first | rw [e2] | rw [e4] | rw [e8]
  all_goals exact field_lt bs _ _

theorem le_field (bs : List UInt8) {k w n : Nat} (h : k + w ≤ bs.length) :
    le w (field bs k w) ++ (bs.drop (k + w)).take n = (bs.drop k).take (w + n) := by
  have hlen : ((bs.drop k).take w).length = w := by
    rw [List.length_take, List.length_drop]
    omega
  have hle : le w (field bs k w) = (bs.drop k).take w := by
    have h1 := le_ofLe ((bs.drop k).take w)
    rwa [hlen] at h1
  rw [hle, ← List.drop_drop, List.take_add]

/-- **A header is written back as the bytes it was read from.** -/
theorem Rec.bytes_parse {bs : List UInt8} (h : RecSize ≤ bs.length) :
    (Rec.parse bs).bytes = bs.take RecSize := by
  have h56 : 56 ≤ bs.length := h
  unfold Rec.bytes Rec.parse
  simp only [List.append_assoc]
  rw [← List.append_nil (le 8 (field bs 48 8)), ← List.take_zero (l:=bs.drop (48 + 8)),
    le_field bs (by omega), le_field bs (by omega), le_field bs (by omega), le_field bs (by omega),
    le_field bs (by omega), le_field bs (by omega), le_field bs (by omega), le_field bs (by omega),
    le_field bs (by omega), le_field bs (by omega), le_field bs (by omega)]
  rfl

/-! ## headers in memory -/

/-- the header at `off` of a memory -/
def Rec.load (m : Nat → UInt8) (off : Nat) : Rec := Rec.parse (slice m off RecSize)

def Rec.store (m : Nat → UInt8) (off : Nat) (r : Rec) : Nat → UInt8 := putList m off r.bytes

/-- `rec->flags = f` -/
def storeFlags (m : Nat → UInt8) (off f : Nat) : Nat → UInt8 := putList m (off + 8) (le 4 f)

/-- `rec->state = s` -/
def storeState (m : Nat → UInt8) (off s : Nat) : Nat → UInt8 := putList m (off + 12) (le 4 s)

theorem Rec.load_of_slice {m : Nat → UInt8} {off : Nat} {r : Rec}
    (h : slice m off RecSize = r.bytes) (hr : r.Fits) : Rec.load m off = r := by
  unfold Rec.load
  rw [h, ← List.append_nil r.bytes]
  exact r.parse_bytes hr []

theorem Rec.slice_store (m : Nat → UInt8) (off : Nat) (r : Rec) :
    slice (r.store m off) off RecSize = r.bytes := by
  have h := slice_putList m off r.bytes
  rw [r.length_bytes] at h
  exact h

theorem bytes_replace (a b c bs : List UInt8) (k : Nat) (hk : a.length = k)
    (hb : b.length = bs.length) :
    (a ++ b ++ c).take k ++ bs ++ (a ++ b ++ c).drop (k + bs.length) = a ++ bs ++ c := by
  have hd : (a ++ b).length = k + bs.length := by rw [List.length_append, hk, hb]
  rw [List.drop_left' hd, List.append_assoc a b c, List.take_left' hk]

theorem slice_storeFlags {m : Nat → UInt8} {off : Nat} {r : Rec} (f : Nat)
    (h : slice m off RecSize = r.bytes) :
    slice (storeFlags m off f) off RecSize = { r with flags := f }.bytes := by
  have e := slice_putList_within m off 8 RecSize (le 4 f) (by rw [length_le]; decide)
  have hr := bytes_replace (le 4 r.magic ++ le 2 r.version ++ le 2 r.type) (le 4 r.flags)
    (le 4 r.state ++ le 8 r.seq ++ le 8 r.sector ++ le 4 r.len ++ le 4 r.recLen ++ le 8 r.tsNs
      ++ le 8 r.reserved) (le 4 f) 8 (by simp [length_le]) (by simp [length_le])
  unfold storeFlags
  rw [e, h]
  simp only [Rec.bytes, List.append_assoc] at hr ⊢
  exact hr

theorem slice_storeState {m : Nat → UInt8} {off : Nat} {r : Rec} (s : Nat)
    (h : slice m off RecSize = r.bytes) :
    slice (storeState m off s) off RecSize = { r with state := s }.bytes := by
  have e := slice_putList_within m off 12 RecSize (le 4 s) (by rw [length_le]; decide)
  have hr := bytes_replace (le 4 r.magic ++ le 2 r.version ++ le 2 r.type ++ le 4 r.flags)
    (le 4 r.state) (le 8 r.seq ++ le 8 r.sector ++ le 4 r.len ++ le 4 r.recLen ++ le 8 r.tsNs
      ++ le 8 r.reserved) (le 4 s) 12 (by simp [length_le]) (by simp [length_le])
  unfold storeState
  rw [e, h]
  simp only [Rec.bytes, List.append_assoc] at hr ⊢
  exact hr

end CDP
