import DmCdp.Daemon.Extents
import DmCdp.Kernel.RingLayout
import DmCdp.Lib.Runs

/-!
# The bitmap from `cdp_mark` to the extents

`DM_CDP_IOC_BITMAP` hands out the longs of the bitmap as bytes; `bitmap_extents` tests a bit of a
byte, `do_bitmap` of `cdp-drain` a bit of a long.

* `bitmapBytes`         the bytes that the `ioctl` copies out;
* `byteBit`, `longBit`  the two tests, which agree with the bitmap (`byteBit_eq`, `longBit_eq`);
* `printRuns`           the loop of `do_bitmap`, with `in` and `start` as it has them;
* `extentLoop_runs`     the extents are the maximal runs of set bits;
* `mark_iff`            the bits that one `cdp_mark` inside the device sets, exactly;
* `dirty_extents`       from a list of marks to the extents that both programs list.
-/

set_option linter.unusedVariables false

namespace CDP
open Img Bits

/-! ## longs and bytes -/

/-- long `i` of `t->bitmap` -/
def bitmapLong (bm : Nat → Bool) (i : Nat) : Nat := Nat.ofBits fun j : Fin 64 => bm (i * 64 + j)

/-- `BITS_TO_LONGS(t->nbits)` longs in memory: `cdp_bitmap_bytes` little-endian bytes -/
def bitmapBytes (bm : Nat → Bool) (nbits : Nat) : List UInt8 :=
  (List.range ((nbits + 63) / 64)).flatMap fun i => le 8 (bitmapLong bm i)

/-- `(bm[i >> 3] >> (i & 7)) & 1` of `bitmap_extents` -/
def byteBit (bm : List UInt8) (i : Nat) : Bool := (bm.getD (i / 8) 0).toNat.testBit (i % 8)

/-- `(bm[i / (8 * sizeof(long))] >> (i % (8 * sizeof(long)))) & 1` of `do_bitmap` -/
def longBit (bm : List UInt8) (i : Nat) : Bool :=
  (ofLe ((bm.drop (i / 64 * 8)).take 8)).testBit (i % 64)

theorem le_testBit (w : Nat) : ∀ (n i : Nat), i < 8 * w →
    ((le w n).getD (i / 8) 0).toNat.testBit (i % 8) = n.testBit i := by
  induction w with
  | zero =>
    intro n i hi
    omega
  | succ w ih =>
    intro n i hi
    unfold le
    by_cases h8 : i < 8
    · rw [Nat.div_eq_of_lt h8, Nat.mod_eq_of_lt h8]
      show (UInt8.ofNat n).toNat.testBit i = n.testBit i
      rw [UInt8.toNat_ofNat', Nat.testBit_mod_two_pow, decide_eq_true h8, Bool.true_and]
    · have hd : i / 8 = (i - 8) / 8 + 1 := by omega
      have hm : i % 8 = (i - 8) % 8 := by omega
      rw [hd, hm, List.getD_cons_succ, ih (n / 256) (i - 8) (by omega)]
      rw [show (256 : Nat) = 2^8 from rfl, Nat.testBit_div_two_pow, Nat.sub_add_cancel (by omega)]

theorem flatMap_block {α β : Type*} {f : α → List β} {w : Nat} (hf : ∀ a, (f a).length = w)
    (l : List α) : ∀ (i : Nat) (a : α), l[i]? = some a →
      ((l.flatMap f).drop (i * w)).take w = f a := by
  induction l with
  | nil =>
    intro i a h
    cases h
  | cons b l ih =>
    intro i a h
    rw [List.flatMap_cons]
    cases i with
    | zero =>
      obtain rfl := Option.some.inj h
      rw [Nat.zero_mul, List.drop_zero, ← hf b, List.take_left]
    | succ i =>
      rw [Nat.succ_mul, Nat.add_comm, ← List.drop_drop, ← hf b, List.drop_left, hf b]
      exact ih i a h

section
variable {bm : Nat → Bool} {nbits i : Nat}

theorem bitmapBytes_long (hi : i < (nbits + 63) / 64) :
    ((bitmapBytes bm nbits).drop (i * 8)).take 8 = le 8 (bitmapLong bm i) := by
  refine flatMap_block (fun a => length_le 8 _) _ i i ?_
  rw [List.getElem?_range hi]

theorem bitmapLong_testBit (hi : i < 64) (k : Nat) :
    (bitmapLong bm k).testBit i = bm (k * 64 + i) := Nat.testBit_ofBits_lt _ i hi

theorem longBit_eq (hi : i < nbits) : longBit (bitmapBytes bm nbits) i = bm i := by
  have hlt : bitmapLong bm (i / 64) < 256^8 := Nat.ofBits_lt_two_pow _
  unfold longBit
  rw [bitmapBytes_long (by omega), ofLe_le_of_lt hlt, bitmapLong_testBit (by omega)]
  exact congrArg bm (by omega)

theorem byteBit_eq (hi : i < nbits) : byteBit (bitmapBytes bm nbits) i = bm i := by
  have hget : (bitmapBytes bm nbits).getD (i / 8) 0 =
      (le 8 (bitmapLong bm (i / 64))).getD (i % 64 / 8) 0 := by
    rw [← bitmapBytes_long (by omega : i / 64 < (nbits + 63) / 64), List.getD_eq_getElem?_getD,
      List.getD_eq_getElem?_getD, List.getElem?_take, if_pos (by omega), List.getElem?_drop]
    congr 2
    omega
  unfold byteBit
  rw [hget, show i % 8 = i % 64 % 8 by omega, le_testBit 8 _ _ (by omega),
    bitmapLong_testBit (by omega)]
  exact congrArg bm (by omega)

end

/-! ## the two scanners -/

/-- the variables of the loop of `do_bitmap`, and what it has printed -/
structure Scan where
  inRun : Bool
  start : Nat
  set : Nat
  out : List (Nat × Nat)

def Scan.next (cs i : Nat) (bit : Bool) (q : Scan) : Scan :=
  let q' := if bit && !q.inRun then { q with start := i, inRun := true }
    else if !bit && q.inRun then
      { q with out := q.out ++ [(u64 (q.start * cs), u64 (u64sub i q.start * cs))], inRun := false }
    else q
  { q' with set := q.set + bit.toNat }

/-- `for (i = 0; i <= s.bitmap_bits; i++)` -/
def printRuns (bm : List UInt8) (cs nbits : Nat) : Scan :=
  (List.range (nbits + 1)).foldl
    (fun q i => q.next cs i (decide (i < nbits) && longBit bm i)) ⟨false, 0, 0, []⟩

/-- `start` of `bitmap_extents` -/
def Scan.run (q : Scan) : Option Nat := if q.inRun then some q.start else none

/-- **The loops of `do_bitmap` and `bitmap_extents` run side by side.** -/
theorem printRuns_loop {bm : List UInt8} {bit : Nat → Bool} {cs nbits : Nat}
    (hbit : ∀ i, i < nbits → longBit bm i = bit i) (hcs : nbits * cs < 2^64) (hn : nbits < 2^64) :
    ∀ (k i : Nat) (q : Scan), i + k = nbits + 1 → (q.inRun = true → q.start < i) →
      ((List.range' i k).foldl (fun q i => q.next cs i (decide (i < nbits) && longBit bm i)) q).out =
        q.out ++ extentLoop bit cs nbits k i q.run := by
  intro k
  induction k with
  | zero =>
    intro i q _ _
    exact (List.append_nil _).symm
  | succ k ih =>
    intro i q hik hq
    have hsame : (decide (i < nbits) && longBit bm i) = (decide (i < nbits) && bit i) := by
      by_cases hi : i < nbits
      · rw [hbit i hi]
      · rw [decide_eq_false hi, Bool.false_and, Bool.false_and]
    rw [List.range'_succ, List.foldl_cons, hsame]
    unfold extentLoop
    obtain ⟨inRun, start, set, out⟩ := q
    cases hb : decide (i < nbits) && bit i with
    | true =>
      cases inRun with
      | false => exact ih (i + 1) ⟨true, i, set + 1, out⟩ (by omega) fun _ => Nat.lt_succ_self i
      | true =>
        have hlt : start < i := hq rfl
        exact ih (i + 1) ⟨true, start, set + 1, out⟩ (by omega) fun _ => Nat.lt_succ_of_lt hlt
    | false =>
      cases inRun with
      | false => exact ih (i + 1) ⟨false, start, set, out⟩ (by omega) fun e => Bool.noConfusion e
      | true =>
        have hlt : start < i := hq rfl
        have h1 : start * cs ≤ nbits * cs := Nat.mul_le_mul_right cs (by omega)
        have h2 : (i - start) * cs ≤ nbits * cs := Nat.mul_le_mul_right cs (by omega)
        have h3 := ih (i + 1) ⟨false, start, set, out ++ [(u64 (start * cs),
          u64 (u64sub i start * cs))]⟩ (by omega) fun e => Bool.noConfusion e
        rw [u64sub_of_le (by omega) (by omega), u64_of_lt (by omega), u64_of_lt (by omega),
          List.append_assoc] at h3
        have h4 : Scan.next cs i false ⟨true, start, set, out⟩ = ⟨false, start, set,
            out ++ [(start * cs, (i - start) * cs)]⟩ := by
          unfold Scan.next
          simp only [Bool.false_and, Bool.not_false, Bool.true_and, if_true, Bool.false_eq_true,
            if_false, Bool.toNat_false, Nat.add_zero]
          rw [u64sub_of_le (by omega) (by omega), u64_of_lt (by omega), u64_of_lt (by omega)]
        rw [h4]
        exact h3

/-- chunk `c` is dirty -/
def DirtyBit (bm : Nat → Bool) (nbits c : Nat) : Prop := c < nbits ∧ bm c = true

/-- **The loop of `bitmap_extents` lists the maximal runs.**  With a run open since `a`, its first
extent is the rest of that run. -/
theorem extentLoop_runs {bm : Nat → Bool} {cs nbits : Nat} (k : Nat) :
    ∀ i, i + k = nbits + 1 →
      Runs cs (DirtyBit bm nbits) i (extentLoop bm cs nbits k i none) ∧
      ∀ a, a < i → i ≤ nbits → (∀ c, a ≤ c → c < i → DirtyBit bm nbits c) →
        ∃ b l, extentLoop bm cs nbits k i (some a) = (a * cs, (b - a) * cs) :: l ∧ i ≤ b ∧
          (∀ c, a ≤ c → c < b → DirtyBit bm nbits c) ∧ ¬DirtyBit bm nbits b ∧
          Runs cs (DirtyBit bm nbits) (b + 1) l := by
  induction k with
  | zero =>
    intro i hi
    refine ⟨fun c hc hb => ?_, fun a _ hle => ?_⟩
    · have := hb.1
      omega
    · omega
  | succ k ih =>
    intro i hi
    obtain ⟨hnone, hsome⟩ := ih (i + 1) (by omega)
    unfold extentLoop
    cases hbit : decide (i < nbits) && bm i with
    | true =>
      rw [Bool.and_eq_true, decide_eq_true_eq] at hbit
      -- the bit at `i` goes into the open run, or opens one
      have hext : ∀ a, a ≤ i → (∀ c, a ≤ c → c < i → DirtyBit bm nbits c) →
          ∀ c, a ≤ c → c < i + 1 → DirtyBit bm nbits c := by
        intro a _ hset c h1 h2
        by_cases hc : c = i
        · exact hc ▸ hbit
        · exact hset c h1 (by omega)
      refine ⟨?_, fun a hai _ hset => ?_⟩
      · obtain ⟨b, l, he, hib, hset, hclear, hl⟩ := hsome i (by omega) (by omega)
          (hext i le_rfl fun c h1 h2 => by omega)
        show Runs cs _ i (extentLoop bm cs nbits k (i + 1) (some i))
        rw [he]
        exact ⟨i, b, ⟨le_rfl, by omega⟩, rfl, fun c h1 h2 => by omega, hset, hclear, hl⟩
      · obtain ⟨b, l, he, hib, hset', hclear, hl⟩ := hsome a (by omega) (by omega)
          (hext a hai.le hset)
        exact ⟨b, l, he, by omega, hset', hclear, hl⟩
    | false =>
      have hclear : ¬DirtyBit bm nbits i := by
        rintro ⟨h1, h2⟩
        rw [decide_eq_true h1, h2] at hbit
        cases hbit
      refine ⟨?_, fun a hai _ hset => ?_⟩
      · exact hnone.skip hclear
      · exact ⟨i, _, rfl, le_rfl, hset, hclear, hnone⟩

/-- **The extents of a bitmap** are non-empty, in order, apart, and hold the set bits exactly. -/
theorem bitmapExtents_runs (bm : Nat → Bool) (cs nbits : Nat) :
    Runs cs (DirtyBit bm nbits) 0 (bitmapExtents bm cs nbits) :=
  (extentLoop_runs (nbits + 1) 0 (Nat.zero_add _)).1

/-! ## from the marks to the extents -/

/-- `DIV_ROUND_UP((u64)ti->len, t->chunk_sectors)` on `u64` -/
def bitmapBits (len cs : Nat) : Nat := u64sub (u64 (len + cs)) 1 / cs

/-- a bio of whole sectors inside a device of `len` sectors: first sector and bytes -/
def InDevice (len : Nat) (b : Nat × Nat) : Prop :=
  0 < b.2 ∧ b.2 % 512 = 0 ∧ b.2 < 2^32 ∧ b.1 + b.2 / 512 ≤ len

instance (len : Nat) (b : Nat × Nat) : Decidable (InDevice len b) :=
  inferInstanceAs (Decidable (_ ∧ _ ∧ _ ∧ _))

/-- the calls of `cdp_mark` for a list of bios -/
def markAll (t : Target) (bios : List (Nat × Nat)) : Target :=
  bios.foldl (fun t b => cdpMark t b.1 b.2) t

/-- the chunks cover the device and end below `2^64` -/
theorem bitmapBits_covers {len cs : Nat} (hlen : len < 2^64) (hcs : 0 < cs) (hcs' : cs < 2^32)
    (hpos : 0 < bitmapBits len cs) :
    len ≤ bitmapBits len cs * cs ∧ bitmapBits len cs * cs < 2^64 := by
  have hmul := Nat.div_mul_le_self (u64sub (u64 (len + cs)) 1) cs
  have hlast := Nat.lt_div_mul_add (a:=u64sub (u64 (len + cs)) 1) hcs
  have hge : cs ≤ u64sub (u64 (len + cs)) 1 := (Nat.div_pos_iff.mp hpos).2
  have hsub : u64sub (u64 (len + cs)) 1 < 2^64 := Nat.mod_lt _ (by decide)
  change len ≤ u64sub (u64 (len + cs)) 1 / cs * cs ∧ u64sub (u64 (len + cs)) 1 / cs * cs < 2^64
  -- a sum that wraps would leave less than one chunk
  have hval : u64sub (u64 (len + cs)) 1 = len + cs - 1 := by
    unfold u64sub u64 at hge ⊢
    omega
  omega

section
variable {t : Target} {len c : Nat} {b : Nat × Nat}

/-- **The bits that `cdp_mark` sets**: those of the chunks that the bio touches. -/
theorem mark_iff (hb : InDevice len b) (hcs : 0 < t.chunkSectors)
    (hlen : len ≤ t.nbits * t.chunkSectors) (hn : t.nbits * t.chunkSectors < 2^64) :
    (cdpMark t b.1 b.2).bitmap c = true ↔
      t.bitmap c = true ∨ Touches t.chunkSectors b.1 b.2 c := by
  obtain ⟨h1, h2, h3, h4⟩ := hb
  have hsec : sectors b.2 = b.2 / 512 := by
    unfold sectors
    omega
  have hlt : b.1 + sectors b.2 < 2^64 := by omega
  have hpos : 0 < sectors b.2 := by omega
  constructor
  · unfold cdpMark
    rw [if_neg (by omega)]
    show (if b.1 / t.chunkSectors ≤ c ∧ c ≤ markLast t b.1 b.2 then true else t.bitmap c) = true → _
    intro h
    split at h
    · rename_i hc
      right
      have e1 : (b.2 + 511) % 2^32 / 512 = sectors b.2 := by
        rw [Nat.mod_eq_of_lt (by omega)]
        rfl
      have e2 : u64sub (u64 (b.1 + sectors b.2)) 1 = b.1 + sectors b.2 - 1 := by
        rw [u64_of_lt hlt, u64sub_of_le (by omega) hlt]
      have hlast : markLast t b.1 b.2 ≤ (b.1 + sectors b.2 - 1) / t.chunkSectors := by
        unfold markLast
        rw [e1, e2]
        dsimp only
        split
        · omega
        · exact le_rfl
      have h5 := (Nat.le_div_iff_mul_le hcs).mp (hc.2.trans hlast)
      have h6 := (Nat.div_lt_iff_lt_mul hcs).mp (Nat.lt_succ_of_le hc.1)
      exact ⟨by omega, h6, h1⟩
    · exact Or.inl h
  · rintro (h | h)
    · exact cdpMark_bitmap_mono t b.1 b.2 c h
    · have hc : c < t.nbits := by
        by_contra hge
        have h5 : t.nbits * t.chunkSectors ≤ c * t.chunkSectors :=
          Nat.mul_le_mul_right _ (by omega)
        have h6 := h.1
        omega
      exact cdpMark_bit hcs (by omega) hlt hc h

theorem mark_shape (t : Target) (sector bytes : Nat) :
    (cdpMark t sector bytes).nbits = t.nbits ∧
      (cdpMark t sector bytes).chunkSectors = t.chunkSectors := by
  unfold cdpMark
  split
  · exact ⟨rfl, rfl⟩
  · exact ⟨rfl, rfl⟩

theorem markAll_iff (bios : List (Nat × Nat)) : ∀ {t : Target}, (∀ b ∈ bios, InDevice len b) →
    0 < t.chunkSectors → len ≤ t.nbits * t.chunkSectors → t.nbits * t.chunkSectors < 2^64 →
    ((markAll t bios).bitmap c = true ↔
      t.bitmap c = true ∨ ∃ b ∈ bios, Touches t.chunkSectors b.1 b.2 c) := by
  induction bios with
  | nil =>
    intro t _ _ _ _
    exact ⟨Or.inl, fun h => h.elim id fun ⟨b, hb, _⟩ => absurd hb List.not_mem_nil⟩
  | cons b bios ih =>
    intro t hb hcs hlen hn
    obtain ⟨e1, e2⟩ := mark_shape t b.1 b.2
    have hrest := ih (t:=cdpMark t b.1 b.2) (fun d hd => hb d (List.mem_cons_of_mem b hd))
      (by rw [e2]; exact hcs) (by rw [e1, e2]; exact hlen) (by rw [e1, e2]; exact hn)
    show (markAll (cdpMark t b.1 b.2) bios).bitmap c = true ↔ _
    rw [hrest, mark_iff (hb b List.mem_cons_self) hcs hlen hn, e2, or_assoc,
      List.exists_mem_cons_iff]

end

/-- **Dirty extents cover exactly the touched chunks.**  The bitmap of an empty target, marked for a
list of bios inside the device, handed out as bytes and scanned by `bitmap_extents`: the extents are
not empty, in order with a clean chunk between neighbours, and hold exactly the sectors of the
chunks that some bio touches; `do_bitmap` prints the same list. -/
theorem dirty_extents (t : Target) (len k : Nat) (bios : List (Nat × Nat)) (hlen : len < 2^64)
    (hk : 2^k < 2^32) (hcs : t.chunkSectors = 2^k) (hbits : t.nbits = bitmapBits len (2^k))
    (hpos : 0 < t.nbits) (hlt : t.nbits < 2^32) (hempty : ∀ c, t.bitmap c = false)
    (hin : ∀ b ∈ bios, InDevice len b) :
    let out := bitmapBytes (markAll t bios).bitmap t.nbits
    let extents := bitmapExtents (byteBit out) t.chunkSectors t.nbits
    (∀ e ∈ extents, 0 < e.2) ∧
      extents.Pairwise (fun e f => e.1 + e.2 + t.chunkSectors ≤ f.1) ∧
      (∀ x, (∃ e ∈ extents, e.1 ≤ x ∧ x < e.1 + e.2) ↔
        ∃ b ∈ bios, Touches t.chunkSectors b.1 b.2 (x / t.chunkSectors)) ∧
      (printRuns out t.chunkSectors t.nbits).out = extents := by
  have hcpos : 0 < t.chunkSectors := hcs ▸ Nat.two_pow_pos k
  obtain ⟨h1, h2⟩ := bitmapBits_covers hlen (Nat.two_pow_pos k) hk (hbits ▸ hpos)
  rw [← hbits, ← hcs] at h1 h2
  intro out extents
  have hruns : Runs t.chunkSectors (DirtyBit (byteBit out) t.nbits) 0 extents :=
    bitmapExtents_runs (byteBit out) t.chunkSectors t.nbits
  refine ⟨hruns.length_pos hcpos, hruns.apart, fun x => ?_, ?_⟩
  · rw [hruns.mem_iff hcpos (Nat.zero_le _)]
    have hbm := markAll_iff (c:=x / t.chunkSectors) bios hin hcpos h1 h2
    constructor
    · rintro ⟨hx, hb⟩
      rw [byteBit_eq hx, hbm, hempty] at hb
      exact hb.resolve_left Bool.false_ne_true
    · rintro ⟨b, hb, ht⟩
      have hx : x / t.chunkSectors < t.nbits := by
        obtain ⟨h3, h4, h5, h6⟩ := hin b hb
        have h7 : x / t.chunkSectors * t.chunkSectors < t.nbits * t.chunkSectors := by
          have h8 := ht.1
          unfold sectors at h8
          omega
        exact Nat.lt_of_mul_lt_mul_right h7
      refine ⟨hx, ?_⟩
      rw [byteBit_eq hx, hbm]
      exact Or.inr ⟨b, hb, ht⟩
  · have hsame : ∀ i, i < t.nbits → longBit out i = byteBit out i := by
      intro i hi
      rw [longBit_eq hi, byteBit_eq hi]
    have hloop := printRuns_loop hsame h2 (by omega) (t.nbits + 1) 0 ⟨false, 0, 0, []⟩
      (Nat.zero_add _) fun e => Bool.noConfusion e
    rw [← List.range_eq_range'] at hloop
    exact hloop

/-- a device of 4 MiB in chunks of 64 KiB: a bio across two chunks, and one in a chunk further on -/
theorem dirty_extents_two :
    let out := bitmapBytes (markAll (cdpCtr smallConfig) [(127, 1024), (600, 512)]).bitmap 64
    let extents := bitmapExtents (byteBit out) 128 64
    (∀ e ∈ extents, 0 < e.2) ∧ extents.Pairwise (fun e f => e.1 + e.2 + 128 ≤ f.1) ∧
      (∀ x, (∃ e ∈ extents, e.1 ≤ x ∧ x < e.1 + e.2) ↔
        ∃ b ∈ [(127, 1024), (600, 512)], Touches 128 b.1 b.2 (x / 128)) ∧
      (printRuns out 128 64).out = extents :=
  dirty_extents (cdpCtr smallConfig) 8192 7 [(127, 1024), (600, 512)] (by decide) (by decide) rfl
    (by decide) (by decide) (by decide) (fun _ => rfl) (by decide)

end CDP
