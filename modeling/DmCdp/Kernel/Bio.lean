import DmCdp.Kernel.RingInv

/-!
# Bios: the table line, `cdp_ctr`, `cdp_mark`, `cdp_map`

* `Config`       the table line and the module parameters that `cdp_ctr` accepts; `cdpCtr` is the
                 target it builds;
* `Bio`          what `cdp_map` reads of a bio; `Bio.Ok` is what DM passes after splitting;
* `cdpMapArgs`   the switch of `cdp_map`: what it hands to `cdp_log`, if anything;
* `cdpMark`      the dirty bitmap; `cdpMark_bit` says which bits it sets.
-/

set_option linter.unusedVariables false

namespace CDP
open Img

/-! ## the table line -/

/-- `<begin> <len> cdp <dev> <start>`, with `ring_mb` and `chunk_kb` -/
structure Config where
  ringMb : Nat
  chunkKb : Nat
  start : Nat
  tiBegin : Nat
  len : Nat
  ring_pos : 0 < ringMb
  ring_u32 : ringMb < 2^32
  chunk_pow : ∃ k, chunkKb = 2^k
  chunk_u32 : chunkKb * 2 < 2^32
  len_pos : 0 < len
  -- block devices end below 2^63 bytes
  begin_len : tiBegin + len < 2^54
  start_len : start + len < 2^54

def Config.ringSize (cfg : Config) : Nat := cfg.ringMb * 2^20
def Config.chunkSectors (cfg : Config) : Nat := cfg.chunkKb * 2

/-- `DIV_ROUND_UP(ti->len, chunk_sectors)` -/
def Config.nbits (cfg : Config) : Nat := (cfg.len + cfg.chunkSectors - 1) / cfg.chunkSectors

/-- the target as `cdp_ctr` leaves it: `kzalloc`, a fresh ring, a zero bitmap -/
def cdpCtr (cfg : Config) : Target where
  ring := fun _ => 0
  ringSize := cfg.ringSize
  head := 0
  tail := 0
  seqNext := 0
  overflows := 0
  records := 0
  bytesLogged := 0
  gapPending := false
  overflowed := false
  bitmap := fun _ => false
  nbits := cfg.nbits
  chunkSectors := cfg.chunkSectors
  dead := false

theorem Config.chunkSectors_pos (cfg : Config) : 0 < cfg.chunkSectors := by
  obtain ⟨k, hk⟩ := cfg.chunk_pow
  unfold Config.chunkSectors
  rw [hk]
  exact Nat.mul_pos (Nat.two_pow_pos k) (by decide)

theorem ringInv_ctr (cfg : Config) : RingInv (cdpCtr cfg) [] := by
  have h1 := cfg.ring_pos
  have h2 := cfg.ring_u32
  refine ⟨?_, ?_, ?_, ?_, ?_, ?_, ?_⟩
  · show 2^20 ≤ cfg.ringMb * 2^20
    omega
  · show 8 ∣ cfg.ringMb * 2^20
    exact Dvd.dvd.mul_left (by decide) _
  · show cfg.ringMb * 2^20 < 2^64
    omega
  · show 0 < 2^64
    decide
  · show 0 ≤ 0 + cfg.ringMb * 2^20
    omega
  · show 8 ∣ 0
    decide
  · rfl

/-! ## bios -/

/-- `bio_op(bio)`; `other` is everything that `cdp_map` passes through beside reads -/
inductive Op where
  | read
  | write
  | discard
  | secureErase
  | writeZeroes
  | other
  deriving DecidableEq, Repr

structure Bio where
  op : Op
  sector : Nat
  bytes : Nat
  fua : Bool
  preflush : Bool
  data : Nat → UInt8

/-- sectors of a range of bytes -/
def sectors (bytes : Nat) : Nat := (bytes + 511) / 512

/-- what DM passes down after splitting at `CDP_MAX_IO_SECTORS`: inside the target, a size whose
round-up to a sector is an `unsigned int` (real sizes are multiples of 512) -/
def Bio.Ok (cfg : Config) (b : Bio) : Prop :=
  b.bytes + 511 < 2^32 ∧ b.sector < 2^64 ∧
    (b.op = .write → b.bytes ≤ MaxIoSectors * 512) ∧
    (0 < b.bytes → cfg.tiBegin ≤ b.sector ∧ b.sector + sectors b.bytes ≤ cfg.tiBegin + cfg.len)

instance (cfg : Config) (b : Bio) : Decidable (b.Ok cfg) :=
  inferInstanceAs (Decidable (_ ∧ _ ∧ (_ → _) ∧ (_ → _ ∧ _)))

/-- `dm_target_offset(ti, bio->bi_iter.bi_sector)` -/
def Bio.rel (cfg : Config) (b : Bio) : Nat := u64sub b.sector cfg.tiBegin

/-- the arguments of `cdp_log` -/
structure LogArgs where
  type : Nat
  flags : Nat
  sector : Nat
  len : Nat
  copy : Bool

def LogArgs.payload (a : LogArgs) : Nat := if a.copy then a.len else 0

/-- `flags` as `cdp_map` collects them -/
def Bio.flags (b : Bio) : Nat :=
  (if b.fua then FFua else 0) ||| (if b.preflush then FPreflush else 0)

/-- the switch of `cdp_map` -/
def cdpMapArgs (cfg : Config) (b : Bio) : Option LogArgs :=
  match b.op with
  | .write =>
    if b.bytes = 0 then
      -- empty flush bio
      if b.preflush then some ⟨RecFlush, b.flags, 0, 0, false⟩ else none
    else some ⟨RecWrite, b.flags, b.rel cfg, b.bytes, true⟩
  | .discard | .secureErase => some ⟨RecDiscard, b.flags, b.rel cfg, b.bytes, false⟩
  | .writeZeroes => some ⟨RecZero, b.flags, b.rel cfg, b.bytes, false⟩
  | .read | .other => none

/-- the mapped bio's first sector on the backing device -/
def Bio.devSector (cfg : Config) (b : Bio) : Nat := u64 (cfg.start + b.rel cfg)

theorem Bio.rel_eq {cfg : Config} {b : Bio} (h : b.Ok cfg) (hb : 0 < b.bytes) :
    b.rel cfg = b.sector - cfg.tiBegin ∧ b.rel cfg + sectors b.bytes ≤ cfg.len := by
  obtain ⟨_, hs, _, hr⟩ := h
  obtain ⟨h1, h2⟩ := hr hb
  have e : b.rel cfg = b.sector - cfg.tiBegin := u64sub_of_le h1 hs
  exact ⟨e, by omega⟩

theorem Bio.flags_lt (b : Bio) : b.flags < 2^32 := by
  unfold Bio.flags
  cases b.fua <;> cases b.preflush <;> decide

/-- what a bio is logged as -/
inductive LoggedAs (cfg : Config) (b : Bio) : LogArgs → Prop
  | flush : b.op = .write → b.bytes = 0 → LoggedAs cfg b ⟨RecFlush, b.flags, 0, 0, false⟩
  | write : b.op = .write → 0 < b.bytes → LoggedAs cfg b ⟨RecWrite, b.flags, b.rel cfg, b.bytes, true⟩
  | discard : b.op = .discard ∨ b.op = .secureErase →
      LoggedAs cfg b ⟨RecDiscard, b.flags, b.rel cfg, b.bytes, false⟩
  | zero : b.op = .writeZeroes → LoggedAs cfg b ⟨RecZero, b.flags, b.rel cfg, b.bytes, false⟩

theorem cdpMapArgs_cases {cfg : Config} {b : Bio} {a : LogArgs} (ha : cdpMapArgs cfg b = some a) :
    LoggedAs cfg b a := by
  unfold cdpMapArgs at ha
  cases hop : b.op with
  | read => rw [hop] at ha; exact absurd ha (by simp)
  | other => rw [hop] at ha; exact absurd ha (by simp)
  | write =>
    rw [hop] at ha
    dsimp only at ha
    split at ha
    · rename_i hb
      split at ha
      · exact Option.some.inj ha ▸ .flush hop hb
      · exact absurd ha (by simp)
    · exact Option.some.inj ha ▸ .write hop (by omega)
  | discard => rw [hop] at ha; exact Option.some.inj ha ▸ .discard (Or.inl hop)
  | secureErase => rw [hop] at ha; exact Option.some.inj ha ▸ .discard (Or.inr hop)
  | writeZeroes => rw [hop] at ha; exact Option.some.inj ha ▸ .zero hop

theorem cdpMapArgs_flags {cfg : Config} {b : Bio} {a : LogArgs} (h : cdpMapArgs cfg b = some a) :
    a.flags = b.flags := by
  cases cdpMapArgs_cases h <;> rfl

theorem hasFlag_gap (gap : Bool) (b : Bio) :
    hasFlag (if gap then b.flags ||| FGapBefore else b.flags) FGapBefore = gap := by
  unfold Bio.flags hasFlag
  cases b.fua <;> cases b.preflush <;> cases gap <;> decide

theorem hasFlag_error (gap error : Bool) (bio : Bio) :
    hasFlag (if error then (if gap then bio.flags ||| FGapBefore else bio.flags) ||| FError
      else if gap then bio.flags ||| FGapBefore else bio.flags) FError = true ↔ error = true := by
  unfold Bio.flags hasFlag
  cases bio.fua <;> cases bio.preflush <;> cases gap <;> cases error <;> decide

theorem cdpMapArgs_fits {cfg : Config} {b : Bio} {a : LogArgs} (h : b.Ok cfg)
    (ha : cdpMapArgs cfg b = some a) :
    a.type < 2^16 ∧ a.type ≠ RecPad ∧ a.flags < 2^32 ∧ a.sector < 2^64 ∧ a.len < 2^32 ∧
      a.payload ≤ MaxIoSectors * 512 := by
  obtain ⟨hlt', hs, hw, _⟩ := h
  have hlt : b.bytes < 2^32 := by omega
  have hrel : b.rel cfg < 2^64 := Nat.mod_lt _ (by norm_num)
  have hfl := b.flags_lt
  cases cdpMapArgs_cases ha with
  | flush _ _ =>
    exact ⟨(by decide : RecFlush < 2^16), (by decide : RecFlush ≠ RecPad), hfl, Nat.two_pow_pos _,
      Nat.two_pow_pos _, Nat.zero_le _⟩
  | write hop _ =>
    exact ⟨(by decide : RecWrite < 2^16), (by decide : RecWrite ≠ RecPad), hfl, hrel, hlt, hw hop⟩
  | discard _ =>
    exact ⟨(by decide : RecDiscard < 2^16), (by decide : RecDiscard ≠ RecPad), hfl, hrel, hlt,
      Nat.zero_le _⟩
  | zero _ =>
    exact ⟨(by decide : RecZero < 2^16), (by decide : RecZero ≠ RecPad), hfl, hrel, hlt,
      Nat.zero_le _⟩

/-! ## the dirty bitmap -/

/-- `last` of `cdp_mark`; `(bytes + 511) >> 9` is computed on `unsigned int` -/
def markLast (t : Target) (sector bytes : Nat) : Nat :=
  let last := u64sub (u64 (sector + (bytes + 511) % 2^32 / 512)) 1 / t.chunkSectors
  if last ≥ t.nbits then t.nbits - 1 else last

def cdpMark (t : Target) (sector bytes : Nat) : Target :=
  if bytes = 0 then t
  else
    { t with
      bitmap := fun b =>
        if sector / t.chunkSectors ≤ b ∧ b ≤ markLast t sector bytes then true else t.bitmap b }

/-- chunk `c` shares a sector with the range -/
def Touches (chunkSectors sector bytes c : Nat) : Prop :=
  c * chunkSectors < sector + sectors bytes ∧ sector < (c + 1) * chunkSectors ∧ 0 < bytes

instance (cs s n c : Nat) : Decidable (Touches cs s n c) :=
  inferInstanceAs (Decidable (_ ∧ _ ∧ _))

theorem cdpMark_bitmap_mono (t : Target) (sector bytes c : Nat) (h : t.bitmap c = true) :
    (cdpMark t sector bytes).bitmap c = true := by
  unfold cdpMark
  split
  · exact h
  · show (if sector / t.chunkSectors ≤ c ∧ c ≤ markLast t sector bytes then true
      else t.bitmap c) = true
    rw [h, ite_self]

/-- **Marking sets the bit of every chunk the range touches.** -/
theorem cdpMark_bit {t : Target} {sector bytes c : Nat} (hcs : 0 < t.chunkSectors)
    (hb : bytes + 511 < 2^32) (hs : sector + sectors bytes < 2^64)
    (hn : c < t.nbits) (h : Touches t.chunkSectors sector bytes c) :
    (cdpMark t sector bytes).bitmap c = true := by
  obtain ⟨h1, h2, h3⟩ := h
  have e1 : (bytes + 511) % 2^32 / 512 = sectors bytes := by rw [Nat.mod_eq_of_lt hb]; rfl
  have hpos : 0 < sectors bytes := Nat.div_pos (by omega) (by decide)
  have e2 : u64sub (u64 (sector + sectors bytes)) 1 = sector + sectors bytes - 1 := by
    rw [u64_of_lt hs, u64sub_of_le (by omega) hs]
  have hfirst : sector / t.chunkSectors ≤ c := by
    have := (Nat.div_lt_iff_lt_mul hcs).mpr h2
    omega
  have hlast : c ≤ (sector + sectors bytes - 1) / t.chunkSectors :=
    (Nat.le_div_iff_mul_le hcs).mpr (by omega)
  have hm : c ≤ markLast t sector bytes := by
    unfold markLast
    rw [e1, e2]
    dsimp only
    split
    · omega
    · exact hlast
  unfold cdpMark
  rw [if_neg (by omega)]
  exact if_pos ⟨hfirst, hm⟩

end CDP
