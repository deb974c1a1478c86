import DmCdp.Kernel.Machine

/-!
# Module parameters

`cdp_ctr` on any `ring_mb`, `chunk_kb` and `ti->len`, in the widths of the source: the chunk size on
`unsigned int`, the number of bits on `u64`, and the size of the bitmap on the `unsigned int` that
`bitmap_zalloc` takes.  What the kernel answers to its calls is a parameter.

* `ctr`            the function from the test of the parameters on; `ctr_config`: on the values of a
                   `Config` it leaves the target `cdpCtr`;
* `CtrSafe`        no division by zero, and bits and longs of the bitmap inside its allocation;
* `accepted_safe`  accepted parameters are safe exactly below `2^31` KiB and up to `2^32 - 1` chunks;
* `accepted_unsafe`  the largest power of two, and a device with more chunks.
-/

set_option linter.unusedVariables false

namespace CDP
open Img

/-! ## `cdp_ctr` -/

def u32 (n : Nat) : Nat := n % 2^32

/-- which of the calls of `cdp_ctr` succeed -/
structure CtrEnv where
  kzalloc : Bool
  getDevice : Bool
  vmalloc : Nat → Bool
  bitmapZalloc : Nat → Bool
  idaAlloc : Bool
  cdevAdd : Bool
  deviceCreate : Bool
  maxIoLen : Bool

def CtrEnv.ample : CtrEnv := ⟨true, true, fun _ => true, fun _ => true, true, true, true, true⟩

/-- `ti->error`, or the division that traps -/
inductive CtrError where
  | text (msg : String)
  | divide
  deriving DecidableEq

/-- what a successful `cdp_ctr` leaves: the target, and how many longs its bitmap has -/
structure Built where
  t : Target
  longs : Nat

/-- the test of the module parameters -/
def ParamsOk (ringMb chunkKb : Nat) : Prop :=
  ¬(ringMb = 0 ∨ chunkKb = 0 ∨ chunkKb &&& (chunkKb - 1) ≠ 0)

instance (ringMb chunkKb : Nat) : Decidable (ParamsOk ringMb chunkKb) :=
  inferInstanceAs (Decidable (¬_))

/-- `DIV_ROUND_UP((u64)ti->len, t->chunk_sectors)` -/
def ctrNbits (len chunkSectors : Nat) : Nat :=
  u64sub (u64 (len + chunkSectors)) 1 / chunkSectors

/-- `BITS_TO_LONGS` of the `unsigned int` that `bitmap_zalloc` gets -/
def zallocLongs (nbits : Nat) : Nat := (u32 nbits + 63) / 64

/-- the errors before the chunk size is computed, and after it -/
def ctrBefore (env : CtrEnv) (ringMb chunkKb : Nat) : Option String :=
  if ¬ParamsOk ringMb chunkKb then some "Invalid module parameters"
  else if env.kzalloc = false then some "Cannot allocate context"
  else if env.getDevice = false then some "Device lookup failed"
  else if env.vmalloc (ringMb * 2^20) = false then some "Cannot allocate ring"
  else none

def ctrAfter (env : CtrEnv) (nbits : Nat) : Option String :=
  if env.bitmapZalloc (zallocLongs nbits) = false then some "Cannot allocate bitmap"
  else if env.idaAlloc = false then some "No free minor"
  else if env.cdevAdd = false then some "cdev_add failed"
  else if env.deviceCreate = false then some "device_create failed"
  else if env.maxIoLen = false then some "dm_set_target_max_io_len failed"
  else none

def ctrTarget (ringMb chunkSectors nbits : Nat) : Target where
  ring := fun _ => 0
  ringSize := ringMb * 2^20
  head := 0
  tail := 0
  seqNext := 0
  overflows := 0
  records := 0
  bytesLogged := 0
  gapPending := false
  overflowed := false
  bitmap := fun _ => false
  nbits := nbits
  chunkSectors := chunkSectors
  dead := false

/-- `cdp_ctr`, after the arguments of the table line have been read -/
def ctr (env : CtrEnv) (ringMb chunkKb len : Nat) : Except CtrError Built :=
  match ctrBefore env ringMb chunkKb with
  | some msg => .error (.text msg)
  | none =>
    if u32 (chunkKb * 2) = 0 then .error .divide
    else
      match ctrAfter env (ctrNbits len (u32 (chunkKb * 2))) with
      | some msg => .error (.text msg)
      | none =>
        .ok ⟨ctrTarget ringMb (u32 (chunkKb * 2)) (ctrNbits len (u32 (chunkKb * 2))),
          zallocLongs (ctrNbits len (u32 (chunkKb * 2)))⟩

/-! ## the property -/

/-- `first` and `last` of `cdp_mark`, also where there is no bit at all -/
def markBounds (t : Target) (sector bytes : Nat) : Nat × Nat :=
  let last := u64sub (u64 (sector + u32 (bytes + 511) / 512)) 1 / t.chunkSectors
  (sector / t.chunkSectors, if last ≥ t.nbits then u64sub t.nbits 1 else last)

/-- `set_bit(b, t->bitmap)` is called -/
def Marks (t : Target) (sector bytes b : Nat) : Prop :=
  bytes ≠ 0 ∧ (markBounds t sector bytes).1 ≤ b ∧ b ≤ (markBounds t sector bytes).2

/-- the bits of the bios in a target of `len` sectors, and the longs that `cdp_ioctl_bitmap` goes
over, are in the allocation -/
structure Built.Safe (b : Built) (len : Nat) : Prop where
  chunk : b.t.chunkSectors ≠ 0
  bits : b.t.nbits ≤ 64 * b.longs
  marks : ∀ sector bytes c, bytes < 2^32 → sector + sectors bytes ≤ len →
    Marks b.t sector bytes c → c < 64 * b.longs
  longs : ∀ i, i < b.t.nlongs → i < b.longs

def CtrSafe (len : Nat) : Except CtrError Built → Prop
  | .error .divide => False
  | .error (.text _) => True
  | .ok b => b.Safe len

/-! ## the widths -/

section
variable {ringMb chunkKb len cs : Nat}

theorem markBounds_eq {t : Target} (h0 : 0 < t.nbits) (h1 : t.nbits < 2^64) (sector bytes : Nat) :
    markBounds t sector bytes = (sector / t.chunkSectors, markLast t sector bytes) := by
  unfold markBounds markLast u32
  rw [u64sub_of_le h0 h1]

theorem ParamsOk.pow (h : ParamsOk ringMb chunkKb) : ∃ k, chunkKb = 2^k := by
  obtain ⟨_, h1, h2⟩ := not_or.mp h |>.imp id not_or.mp
  exact (Nat.and_sub_one_eq_zero_iff_isPowerOfTwo h1).mp (not_not.mp h2)

theorem chunk_top (hp : ParamsOk ringMb chunkKb) (h : chunkKb < 2^32) (hge : 2^31 ≤ chunkKb) :
    chunkKb = 2^31 := by
  obtain ⟨k, rfl⟩ := hp.pow
  have h1 : k < 32 := (Nat.pow_lt_pow_iff_right (by decide)).mp h
  have h2 : 31 ≤ k := (Nat.pow_le_pow_iff_right (by decide)).mp hge
  obtain rfl : k = 31 := by omega
  rfl

theorem ctrNbits_eq (hcs : 0 < cs) (h : len + cs - 1 < 2^64) :
    ctrNbits len cs = (len + cs - 1) / cs := by
  have e : u64sub (u64 (len + cs)) 1 = len + cs - 1 := by
    unfold u64 u64sub
    omega
  unfold ctrNbits
  rw [e]

/-- the sum wraps, and there is no bit -/
theorem ctrNbits_wrap (hl : len < 2^64) (hcs : cs < 2^32) (h : 2^64 ≤ len + cs - 1) :
    ctrNbits len cs = 0 := by
  unfold ctrNbits u64 u64sub
  exact Nat.div_eq_of_lt (by omega)

theorem ctrNbits_le (hcs : 0 < cs) (h32 : cs < 2^32) (h : len ≤ cs * (2^32 - 1)) :
    ctrNbits len cs = (len + cs - 1) / cs ∧ ctrNbits len cs < 2^32 := by
  have h1 : len + cs - 1 < cs * 2^32 := by omega
  have e := ctrNbits_eq hcs (by omega : len + cs - 1 < 2^64)
  refine ⟨e, ?_⟩
  rw [e, Nat.div_lt_iff_lt_mul hcs, Nat.mul_comm]
  exact h1

theorem ctrNbits_ge (hcs : 0 < cs) (hsum : len + cs - 1 < 2^64) (h : cs * (2^32 - 1) < len) :
    2^32 ≤ ctrNbits len cs := by
  rw [ctrNbits_eq hcs hsum, Nat.le_div_iff_mul_le hcs, Nat.mul_comm]
  omega

/-! ## accepted parameters -/

/-- **What `cdp_ctr` comes to.** -/
theorem ctr_cases (env : CtrEnv) (ringMb chunkKb len : Nat) :
    (∃ msg, ctr env ringMb chunkKb len = .error (.text msg)) ∨
    (u32 (chunkKb * 2) = 0 ∧ ctr env ringMb chunkKb len = .error .divide) ∨
    ∃ b, ctr env ringMb chunkKb len = .ok b ∧ b.t.chunkSectors = u32 (chunkKb * 2) ∧
      u32 (chunkKb * 2) ≠ 0 ∧ b.t.nbits = ctrNbits len (u32 (chunkKb * 2)) ∧
      b.longs = zallocLongs b.t.nbits := by
  unfold ctr
  cases ctrBefore env ringMb chunkKb with
  | some msg => exact Or.inl ⟨msg, rfl⟩
  | none =>
    dsimp only
    by_cases h0 : u32 (chunkKb * 2) = 0
    · rw [if_pos h0]
      exact Or.inr (Or.inl ⟨h0, rfl⟩)
    · rw [if_neg h0]
      cases ctrAfter env (ctrNbits len (u32 (chunkKb * 2))) with
      | some msg => exact Or.inl ⟨msg, rfl⟩
      | none => exact Or.inr (Or.inr ⟨_, rfl, rfl, h0, rfl, rfl⟩)

/-- **Where no call fails**, `cdp_ctr` divides, or is through. -/
theorem ctr_ample (hp : ParamsOk ringMb chunkKb) :
    ctr .ample ringMb chunkKb len =
      if u32 (chunkKb * 2) = 0 then .error .divide
      else .ok ⟨ctrTarget ringMb (u32 (chunkKb * 2)) (ctrNbits len (u32 (chunkKb * 2))),
        zallocLongs (ctrNbits len (u32 (chunkKb * 2)))⟩ := by
  have hb : ctrBefore .ample ringMb chunkKb = none := if_neg (not_not.mpr hp)
  unfold ctr
  rw [hb]
  rfl

theorem u32_double (h : chunkKb < 2^31) : u32 (chunkKb * 2) = chunkKb * 2 :=
  Nat.mod_eq_of_lt (by omega)

/-- a bitmap whose number of bits is an `unsigned int` is allocated in full -/
theorem safe_of_fit {b : Built} (hcs : 0 < b.t.chunkSectors)
    (hbits : b.t.nbits = (len + b.t.chunkSectors - 1) / b.t.chunkSectors) (h32 : b.t.nbits < 2^32)
    (hpos : 0 < len) (hlongs : b.longs = zallocLongs b.t.nbits) : b.Safe len := by
  have hl : b.longs = (b.t.nbits + 63) / 64 := by
    rw [hlongs]
    unfold zallocLongs u32
    rw [Nat.mod_eq_of_lt h32]
  have h0 : 0 < b.t.nbits := by
    rw [hbits]
    exact Nat.div_pos (by omega) hcs
  refine ⟨by omega, by omega, fun sector bytes c _ _ hm => ?_, fun i hi => ?_⟩
  · obtain ⟨_, _, hle⟩ := hm
    rw [markBounds_eq h0 (by omega)] at hle
    change c ≤ markLast b.t sector bytes at hle
    unfold markLast at hle
    dsimp only at hle
    split at hle
    · omega
    · omega
  · unfold Target.nlongs at hi
    omega

/-- **Accepted parameters are safe** exactly if the chunk size in sectors is a 32-bit number and so is
the number of chunks. -/
theorem accepted_safe (ringMb chunkKb len : Nat) (hring : ringMb < 2^32) (hchunk : chunkKb < 2^32)
    (hp : ParamsOk ringMb chunkKb) (hpos : 1 ≤ len) (hlen : len < 2^64) :
    (∀ env, CtrSafe len (ctr env ringMb chunkKb len)) ↔
      chunkKb < 2^31 ∧ len ≤ 2 * chunkKb * (2^32 - 1) := by
  have hk0 : chunkKb ≠ 0 := fun e => hp (Or.inr (Or.inl e))
  constructor
  · intro hsafe
    have hall := hsafe .ample
    rw [ctr_ample hp] at hall
    have hlt : chunkKb < 2^31 := by
      by_contra hge
      rw [chunk_top hp hchunk (by omega)] at hall
      exact hall
    have hd : u32 (chunkKb * 2) = chunkKb * 2 := u32_double hlt
    rw [hd, if_neg (by omega)] at hall
    refine ⟨hlt, ?_⟩
    by_contra hgt
    by_cases hsum : len + chunkKb * 2 - 1 < 2^64
    · -- more chunks than 32 bits can count
      have hge := ctrNbits_ge (by omega) hsum (by omega : chunkKb * 2 * (2^32 - 1) < len)
      have hb : ctrNbits len (chunkKb * 2) ≤ 64 * zallocLongs (ctrNbits len (chunkKb * 2)) :=
        hall.bits
      unfold zallocLongs u32 at hb
      omega
    · -- no chunk at all, and the first sector is marked
      have hn : ctrNbits len (chunkKb * 2) = 0 := ctrNbits_wrap hlen (by omega) (by omega)
      rw [hn] at hall
      have hm := hall.marks 0 512 0 (by decide) (by unfold sectors; omega)
        ⟨by decide, Nat.le_of_eq (Nat.zero_div _), Nat.zero_le _⟩
      exact Nat.lt_irrefl 0 hm
  · rintro ⟨hlt, hle⟩ env
    have hle' : len ≤ chunkKb * 2 * (2^32 - 1) := by rw [Nat.mul_comm chunkKb 2]; exact hle
    rcases ctr_cases env ringMb chunkKb len with ⟨msg, h⟩ | ⟨h0, _⟩ | ⟨b, h, h1, h2, h3, h4⟩
    · rw [h]
      trivial
    · rw [u32_double hlt] at h0
      omega
    · rw [h]
      rw [u32_double hlt] at h1 h3
      obtain ⟨e1, e2⟩ := ctrNbits_le (by omega : 0 < chunkKb * 2) (by omega) hle'
      have hcs : 0 < b.t.chunkSectors := by rw [h1]; omega
      have hbits : b.t.nbits = (len + b.t.chunkSectors - 1) / b.t.chunkSectors := by
        rw [h1, h3, e1]
      have h32 : b.t.nbits < 2^32 := by rw [h3]; exact e2
      exact safe_of_fit hcs hbits h32 hpos h4

/-- a disk of 10 TiB with the default parameters -/
theorem accepted_safe_default :
    ParamsOk 256 64 ∧ ∀ env, CtrSafe (10 * 2^31) (ctr env 256 64 (10 * 2^31)) :=
  ⟨by decide, (accepted_safe 256 64 (10 * 2^31) (by decide) (by decide) (by decide) (by decide)
    (by decide)).mpr ⟨by decide, by decide⟩⟩

/-- **Parameters that the test lets through**: a chunk of `2^31` KiB, whose number of sectors is 0, and
a disk of 4 TiB in chunks of 1 KiB, whose bitmap gets no long. -/
theorem accepted_unsafe :
    (ParamsOk 256 (2^31) ∧ ¬CtrSafe 1 (ctr .ample 256 (2^31) 1)) ∧
      (ParamsOk 256 1 ∧ ¬CtrSafe (2^33) (ctr .ample 256 1 (2^33))) := by
  refine ⟨⟨by decide, fun h => h⟩, by decide, fun h => ?_⟩
  have hb : 2^32 ≤ 64 * 0 := h.bits
  exact absurd hb (by decide)

end

/-! ## the target of a `Config` -/

/-- **With the values of a `Config` the target is the one of the model.** -/
theorem ctr_config (cfg : Config) :
    ctr .ample cfg.ringMb cfg.chunkKb cfg.len = .ok ⟨cdpCtr cfg, zallocLongs cfg.nbits⟩ := by
  have h1 := cfg.ring_pos
  have h2 := cfg.chunk_u32
  have h3 := cfg.begin_len
  have hcs := cfg.chunkSectors_pos
  have hdouble : u32 (cfg.chunkKb * 2) = cfg.chunkSectors := Nat.mod_eq_of_lt h2
  have hbits : ctrNbits cfg.len cfg.chunkSectors = cfg.nbits :=
    ctrNbits_eq hcs (by unfold Config.chunkSectors; omega)
  have hp : ParamsOk cfg.ringMb cfg.chunkKb := by
    obtain ⟨k, hk⟩ := cfg.chunk_pow
    have hk0 : cfg.chunkKb ≠ 0 := by
      unfold Config.chunkSectors at hcs
      omega
    rintro (h | h | h)
    · omega
    · exact hk0 h
    · exact h ((Nat.and_sub_one_eq_zero_iff_isPowerOfTwo hk0).mpr ⟨k, hk⟩)
  rw [ctr_ample hp, hdouble, hbits, if_neg (by omega)]
  rfl

end CDP
