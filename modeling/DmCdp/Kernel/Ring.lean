import DmCdp.Abi.Rec

/-!
# The ring of `struct cdp_target`: producer, commit, consumer

The functions of `drivers/md/dm-cdp.c` that read or write the ring, on its bytes.

* `cdpReserve`   `cdp_reserve`: size and space checks, pad, header, head; or the overflow exits;
* `cdpCopy`      the rest of `cdp_log`: payload copy and the store of state DATA;
* `cdpEndIo`     `cdp_end_io` of a logged bio;
* `cdpNextStep`  one iteration of the loop of `cdp_next`; `cdpReadable` is `cdp_readable`.

`head` and `tail` are monotonic offsets; a position is found in the ring modulo `ringSize`.
The 64-bit sums and differences are written out (`u64`, `u64sub`).
-/

set_option linter.unusedVariables false

namespace CDP
open Img

/-! ## machine arithmetic -/

def u64 (n : Nat) : Nat := n % 2^64

/-- `a - b` on `u64` -/
def u64sub (a b : Nat) : Nat := (a + 2^64 - b) % 2^64

/-- `ALIGN(n, CDP_REC_ALIGN)` -/
def align8 (n : Nat) : Nat := (n + 7) / 8 * 8

theorem u64_of_lt {n : Nat} (h : n < 2^64) : u64 n = n := Nat.mod_eq_of_lt h

theorem u64sub_of_le {a b : Nat} (h : b ≤ a) (ha : a < 2^64) : u64sub a b = a - b := by
  unfold u64sub
  have e : a + 2^64 - b = a - b + 2^64 := by omega
  rw [e, Nat.add_mod_right, Nat.mod_eq_of_lt (by omega)]

theorem align8_dvd (n : Nat) : 8 ∣ align8 n := Nat.dvd_mul_left 8 _

theorem le_align8 (n : Nat) : n ≤ align8 n := by
  unfold align8
  omega

theorem align8_lt (n : Nat) : align8 n < n + 8 := by
  unfold align8
  omega

/-! ## the target -/

/-- one record may not exceed a quarter of the ring -/
def MaxRecDiv : Nat := 4

/-- DM splits bios at this many sectors (4 MiB) -/
def MaxIoSectors : Nat := 8192

/-- `struct cdp_target`: ring, counters, dirty bitmap -/
structure Target where
  ring : Nat → UInt8
  ringSize : Nat
  head : Nat
  tail : Nat
  seqNext : Nat
  overflows : Nat
  records : Nat
  bytesLogged : Nat
  gapPending : Bool
  overflowed : Bool
  bitmap : Nat → Bool
  nbits : Nat
  chunkSectors : Nat
  dead : Bool

/-! ## producer -/

/-- bytes a record of `payload` bytes takes in the ring -/
def recNeed (payload : Nat) : Nat := align8 (RecSize + payload)

/-- bytes from `pos` to the end of the ring when a record of `need` bytes does not fit there -/
def padLen (ringSize pos need : Nat) : Nat :=
  if pos % ringSize + need > ringSize then ringSize - pos % ringSize else 0

/-- the filler record of `cdp_reserve`; the rest of the header is zero -/
def padRec (pad : Nat) : Rec where
  magic := RecMagic
  version := AbiVersion
  type := RecPad
  flags := 0
  state := StCommitted
  seq := 0
  sector := 0
  len := 0
  recLen := pad
  tsNs := 0
  reserved := 0

/-- what both overflow exits of `cdp_reserve` do under the lock -/
def Target.overflow (t : Target) : Target :=
  { t with overflows := u64 (t.overflows + 1), overflowed := true, gapPending := true }

/-- the header `cdp_reserve` initialises -/
def Target.header (t : Target) (type flags sector len need ts : Nat) : Rec where
  magic := RecMagic
  version := AbiVersion
  type := type
  flags := if t.gapPending then flags ||| FGapBefore else flags
  state := StReserved
  seq := t.seqNext
  sector := sector
  len := len
  recLen := need
  tsNs := ts
  reserved := 0

/-- `cdp_reserve`: the offset of the record (`none` for `NULL`) and the target afterwards -/
def cdpReserve (t : Target) (type flags sector len payload ts : Nat) : Option Nat × Target :=
  let need := recNeed payload
  if need > t.ringSize / MaxRecDiv then (none, t.overflow)
  else
    let hpos := t.head % t.ringSize
    let pad := padLen t.ringSize t.head need
    let free := u64sub t.ringSize (u64sub t.head t.tail)
    if need + pad > free then (none, t.overflow)
    else
      -- a pad shorter than a header is left as it is: the consumer skips to the boundary
      let ring := if RecSize ≤ pad then (padRec pad).store t.ring hpos else t.ring
      let head := u64 (t.head + pad)
      let hpos := if pad = 0 then hpos else 0
      (some head,
        { t with
          ring := (t.header type flags sector len need ts).store ring hpos
          gapPending := false
          seqNext := u64 (t.seqNext + 1)
          head := u64 (head + need) })

/-- the rest of `cdp_log`: payload copy, then state DATA -/
def cdpCopy (t : Target) (off payload : Nat) (data : Nat → UInt8) : Target :=
  let p := off % t.ringSize
  { t with ring := storeState (blit t.ring (p + RecSize) payload data) p StData }

/-- `cdp_end_io` of a logged bio -/
def cdpEndIo (t : Target) (off : Nat) (error : Bool) : Target :=
  let p := off % t.ringSize
  let r := Rec.load t.ring p
  let ring := if error then storeFlags t.ring p (r.flags ||| FError) else t.ring
  { t with
    ring := storeState ring p StCommitted
    records := u64 (t.records + 1)
    bytesLogged := if r.type = RecWrite then u64 (t.bytesLogged + r.len) else t.bytesLogged }

/-! ## consumer -/

/-- what one iteration of the loop of `cdp_next` finds at a position -/
inductive NextStep where
  | null
  | skip (pos : Nat)
  | found (pos : Nat)
  deriving DecidableEq

def cdpNextStep (t : Target) (p : Nat) : NextStep :=
  if p ≥ t.head then .null
  else
    let ppos := p % t.ringSize
    if t.ringSize - ppos < RecSize then .skip (u64 (p + (t.ringSize - ppos)))
    else
      let r := Rec.load t.ring ppos
      if r.type = RecPad then .skip (u64 (p + r.recLen)) else .found p

theorem cdpNextStep_eq (t : Target) (p : Nat) :
    cdpNextStep t p = if p ≥ t.head then .null
      else if t.ringSize - p % t.ringSize < RecSize then
        .skip (u64 (p + (t.ringSize - p % t.ringSize)))
      else if (Rec.load t.ring (p % t.ringSize)).type = RecPad then
        .skip (u64 (p + (Rec.load t.ring (p % t.ringSize)).recLen))
      else .found p := rfl

/-- the loop of `cdp_next`, at most `fuel` iterations -/
def cdpNext (t : Target) : Nat → Nat → Option Nat
  | 0, _ => none
  | fuel + 1, p =>
    match cdpNextStep t p with
    | .null => none
    | .skip q => cdpNext t fuel q
    | .found q => some q

/-- `smp_load_acquire(&rec->state)` of the record at `pos` -/
def stateAt (t : Target) (pos : Nat) : Nat := (Rec.load t.ring (pos % t.ringSize)).state

/-- `cdp_readable`; a skip moves at least 8 bytes, so the loop ends before the fuel does -/
def cdpReadable (t : Target) : Bool :=
  match cdpNext t (t.head - t.tail + 1) t.tail with
  | none => false
  | some p => stateAt t p == StCommitted

end CDP
