import DmCdp.Daemon.SeedLayer
import DmCdp.Kernel.Ring

/-!
# `Replica.write` and the results of its calls

`os.pwrite` writes at most what it is asked to and says how much; `fallocate` gets its offset through
`c_int64`.  `Replica.write` looks at neither: here both are as the kernel has them, for a record at any
sector.

* `Replica.writeCall`   `Replica.write`, with the return value of `os.pwrite` as a parameter;
                        `writeCall_complete`: it is `Replica.write` where everything is written;
* `Held`                what was not written was there already;
* `write_whole_iff`     the record is applied as a whole, or an exception is raised, exactly then;
* `write_short`         a `ZERO` of more than `0x7ffff000` bytes without holes, and a `WRITE` cut short.
-/

set_option linter.unusedVariables false

namespace CDP
open Img

/-! ## the calls -/

/-- the most that one call of `pwrite` writes -/
def MaxRw : Nat := 0x7ffff000

/-- what a call of `pwrite` for `n` bytes may return -/
def MayReturn (n : Nat) (res : Option Nat) : Prop :=
  ∀ k, res = some k → k ≤ min n MaxRw ∧ (0 < n → 0 < k)

/-- `os.pwrite(self.fd, buf, off)`; `res` is what it returns, `none` that it raises `OSError`.  An offset
past the range of `off_t` raises `OverflowError` -/
def Replica.osPwrite (res : Option Nat) (p : Replica) (buf : List UInt8) (off : Nat) :
    Option Replica :=
  if off ≥ 2^63 then none
  else res.map fun k => { p with img := putList p.img off (buf.take k) }

/-- the call of `fallocate` succeeds: it is not to fail, the length is positive, and `c_int64` has not
made the offset negative -/
def Replica.Punches (p : Replica) (off length : Nat) : Prop :=
  p.falloc.headD true = true ∧ 0 < length ∧ u64 off < 2^63

instance (p : Replica) (off length : Nat) : Decidable (p.Punches off length) :=
  inferInstanceAs (Decidable (_ ∧ _))

def Replica.punchCall (res : Option Nat) (p : Replica) (off length : Nat) : Option Replica :=
  if p.punchOk = true then
    if p.Punches off length then
      some { p with img := blit p.img (u64 off) length fun _ => 0, falloc := p.falloc.tail }
    else
      { p with punchOk := false, falloc := p.falloc.tail }.osPwrite res
        (List.replicate length 0) off
  else p.osPwrite res (List.replicate length 0) off

def Replica.writeCall (size : Nat) (res : Option Nat) (p : Replica) (r : Item) : Option Replica :=
  if r.hdr.type = RecWrite then
    (p.preserve size (r.hdr.sector * 512) r.payload.length).osPwrite res r.payload
      (r.hdr.sector * 512)
  else if r.hdr.type = RecDiscard ∨ r.hdr.type = RecZero then
    (p.preserve size (r.hdr.sector * 512) r.hdr.len).punchCall res (r.hdr.sector * 512) r.hdr.len
  else some p

/-! ## the record as a whole -/

/-- the bytes that the call leaves out already hold what they should -/
def RestHeld (res : Option Nat) (img : Nat → UInt8) (buf : List UInt8) (off : Nat) : Prop :=
  off < 2^63 → ∀ k, res = some k → ∀ i, k ≤ i → i < buf.length → img (off + i) = buf.getD i default

/-- where `fallocate` punches, it does so in the right place, or both places are zero; and where
`os.pwrite` writes, the rest is there -/
def Held (res : Option Nat) (p : Replica) (r : Item) : Prop :=
  if r.hdr.type = RecWrite then RestHeld res p.img r.payload r.first
  else if r.hdr.type = RecDiscard ∨ r.hdr.type = RecZero then
    if p.punchOk = true ∧ p.Punches r.first r.hdr.len then
      ∀ x, (u64 r.first ≤ x ∧ x < u64 r.first + r.hdr.len ↔ r.first ≤ x ∧ x < r.stop) ∨ p.img x = 0
    else RestHeld res p.img (List.replicate r.hdr.len 0) r.first
  else True

section
variable {size : Nat} {res : Option Nat} {p p' : Replica} {r : Item}

/-- a write of the first `k` bytes is a write of all exactly if the others are there -/
theorem putList_take_iff (img : Nat → UInt8) (buf : List UInt8) (off k : Nat) :
    putList img off (buf.take k) = putList img off buf ↔
      ∀ i, k ≤ i → i < buf.length → img (off + i) = buf.getD i default := by
  have htake : ∀ i, i < (buf.take k).length → (buf.take k).getD i default = buf.getD i default := by
    intro i hi
    rw [List.length_take] at hi
    rw [List.getD_eq_getElem?_getD, List.getElem?_take, if_pos (by omega),
      List.getD_eq_getElem?_getD]
  constructor
  · intro h i hk hi
    have hx := congrFun h (off + i)
    rw [putList_in hi, putList_out (by rw [List.length_take]; omega)] at hx
    exact hx
  · intro h
    funext x
    by_cases hx : off ≤ x ∧ x < off + buf.length
    · obtain ⟨i, rfl⟩ := Nat.exists_eq_add_of_le hx.1
      rw [putList_in (show i < buf.length by omega)]
      by_cases hk : i < (buf.take k).length
      · rw [putList_in hk, htake i hk]
      · rw [putList_out fun h : off ≤ off + i ∧ off + i < off + (buf.take k).length => by omega]
        rw [List.length_take] at hk
        exact h i (by omega) (by omega)
    · rw [putList_out hx, putList_out (by rw [List.length_take]; omega)]

theorem osPwrite_iff (buf : List UInt8) (off : Nat) :
    (∀ p', p.osPwrite res buf off = some p' → p'.img = putList p.img off buf) ↔
      RestHeld res p.img buf off := by
  unfold Replica.osPwrite RestHeld
  by_cases hoff : off ≥ 2^63
  · rw [if_pos hoff]
    exact ⟨fun _ h => absurd h (by omega), fun _ p' h => by cases h⟩
  · rw [if_neg hoff]
    cases res with
    | none => exact ⟨fun _ _ k h => (by cases h), fun _ p' h => by cases h⟩
    | some k =>
      have hput := putList_take_iff p.img buf off k
      constructor
      · intro h _ k' hk'
        obtain rfl := Option.some.inj hk'
        exact hput.mp (h _ rfl)
      · intro h p' hp'
        obtain rfl := Option.some.inj hp'
        exact hput.mpr (h (by omega) k rfl)

/-- zeros in one place are zeros in another exactly if what is in one only is zero already -/
theorem blit_zero_iff (img : Nat → UInt8) (a b n : Nat) :
    (blit img a n fun _ => 0) = blit img b n (fun _ => 0) ↔
      ∀ x, (a ≤ x ∧ x < a + n ↔ b ≤ x ∧ x < b + n) ∨ img x = 0 := by
  rw [funext_iff]
  refine forall_congr' fun x => ?_
  by_cases ha : a ≤ x ∧ x < a + n
  · rw [blit_in _ ha]
    by_cases hb : b ≤ x ∧ x < b + n
    · rw [blit_in _ hb]
      exact ⟨fun _ => Or.inl ⟨fun _ => hb, fun _ => ha⟩, fun _ => rfl⟩
    · rw [blit_out _ hb]
      exact ⟨fun h => Or.inr h.symm, fun h => h.elim (fun e => absurd (e.mp ha) hb) Eq.symm⟩
  · rw [blit_out _ ha]
    by_cases hb : b ≤ x ∧ x < b + n
    · rw [blit_in _ hb]
      exact ⟨Or.inr, fun h => h.elim (fun e => absurd (e.mpr hb) ha) id⟩
    · rw [blit_out _ hb]
      exact ⟨fun _ => Or.inl ⟨fun h => absurd h ha, fun h => absurd h hb⟩, fun _ => rfl⟩

theorem punchCall_iff (off length : Nat) :
    (∀ p', p.punchCall res off length = some p' → p'.img = blit p.img off length fun _ => 0) ↔
      if p.punchOk = true ∧ p.Punches off length then
        ∀ x, (u64 off ≤ x ∧ x < u64 off + length ↔ off ≤ x ∧ x < off + length) ∨ p.img x = 0
      else RestHeld res p.img (List.replicate length 0) off := by
  rw [← zeros_eq p.img off length]
  unfold Replica.punchCall
  by_cases hok : p.punchOk = true
  · by_cases hp : p.Punches off length
    · rw [if_pos hok, if_pos hp, if_pos ⟨hok, hp⟩, zeros_eq, ← blit_zero_iff]
      constructor
      · intro h
        exact h _ rfl
      · intro h p' hp'
        obtain rfl := Option.some.inj hp'
        exact h
    · rw [if_pos hok, if_neg hp, if_neg fun h => hp h.2]
      exact osPwrite_iff (p:={ p with punchOk := false, falloc := p.falloc.tail }) _ off
  · rw [if_neg hok, if_neg fun h => hok h.1]
    exact osPwrite_iff _ off

theorem writeCall_write (hw : r.hdr.type = RecWrite) :
    (∀ p', p.writeCall size res r = some p' → p'.img = overlay r.patch p.img) ↔
      RestHeld res p.img r.payload r.first := by
  rw [← replicaWrite_eq]
  unfold Replica.writeCall replicaWrite
  rw [if_pos hw, if_pos hw]
  exact osPwrite_iff (p:=p.preserve size (r.hdr.sector * 512) r.payload.length) _ _

theorem writeCall_zeros (hw : r.hdr.type ≠ RecWrite)
    (hz : r.hdr.type = RecDiscard ∨ r.hdr.type = RecZero) :
    (∀ p', p.writeCall size res r = some p' → p'.img = overlay r.patch p.img) ↔
      if p.punchOk = true ∧ p.Punches r.first r.hdr.len then
        ∀ x, (u64 r.first ≤ x ∧ x < u64 r.first + r.hdr.len ↔ r.first ≤ x ∧ x < r.stop) ∨ p.img x = 0
      else RestHeld res p.img (List.replicate r.hdr.len 0) r.first := by
  rw [← replicaWrite_eq]
  unfold Replica.writeCall replicaWrite
  rw [if_neg hw, if_neg hw, if_pos hz, if_pos hz]
  exact punchCall_iff (p:=p.preserve size (r.hdr.sector * 512) r.hdr.len) _ _

/-- **`Replica.write` applies the whole record, or raises**, exactly if what its call leaves out is
there already. -/
theorem write_whole_iff (size : Nat) (res : Option Nat) (p : Replica) (r : Item) :
    (∀ p', p.writeCall size res r = some p' → p'.img = overlay r.patch p.img) ↔ Held res p r := by
  unfold Held
  by_cases hw : r.hdr.type = RecWrite
  · rw [if_pos hw]
    exact writeCall_write hw
  · rw [if_neg hw]
    by_cases hz : r.hdr.type = RecDiscard ∨ r.hdr.type = RecZero
    · rw [if_pos hz]
      exact writeCall_zeros hw hz
    · rw [if_neg hz, ← replicaWrite_eq]
      unfold Replica.writeCall replicaWrite
      rw [if_neg hw, if_neg hw, if_neg hz, if_neg hz]
      exact ⟨fun _ => trivial, fun _ p' h => by obtain rfl := Option.some.inj h; rfl⟩

theorem osPwrite_complete {k off : Nat} {buf : List UInt8} (hoff : off < 2^63)
    (hk : buf.length ≤ k) :
    p.osPwrite (some k) buf off = some { p with img := putList p.img off buf } := by
  unfold Replica.osPwrite
  rw [if_neg (not_le.mpr hoff), Option.map_some, List.take_of_length_le hk]

theorem punchCall_complete {k off length : Nat} (hoff : off < 2^63) (hlen : 0 < length)
    (hk : length ≤ k) : p.punchCall (some k) off length = some (p.punch off length) := by
  have h64 : u64 off = off := u64_of_lt (by omega)
  have hrep : (List.replicate length (0 : UInt8)).length ≤ k := by rwa [List.length_replicate]
  unfold Replica.punchCall Replica.punch
  by_cases hok : p.punchOk = true
  · rw [if_pos hok, if_pos hok]
    cases hf : p.falloc with
    | nil =>
      have hp : p.Punches off length := ⟨by rw [hf]; rfl, hlen, by rwa [h64]⟩
      rw [if_pos hp, h64]
      rfl
    | cons b falloc =>
      cases b with
      | true =>
        have hp : p.Punches off length := ⟨by rw [hf]; rfl, hlen, by rwa [h64]⟩
        rw [if_pos hp, h64]
        rfl
      | false =>
        have hp : ¬p.Punches off length := fun h => by
          have h1 := h.1
          rw [hf] at h1
          cases h1
        rw [if_neg hp, osPwrite_complete hoff hrep]
        rfl
  · have hok' : p.punchOk = false := Bool.not_eq_true _ ▸ hok
    rw [if_neg hok, if_neg hok, osPwrite_complete hoff hrep]
    unfold Replica.zeroFill
    rw [← hok']

/-- **Where everything is written**, inside the range of `off_t`, this is `Replica.write`. -/
theorem writeCall_complete {k : Nat} (hoff : r.first < 2^63) (hlen : 0 < r.hdr.len)
    (hk : r.hdr.len ≤ k) : p.writeCall size (some k) r = some (p.write size r) := by
  have hs := r.short
  unfold Replica.writeCall Replica.write
  by_cases hw : r.hdr.type = RecWrite
  · rw [if_pos hw, if_pos hw]
    exact osPwrite_complete hoff (by omega)
  · rw [if_neg hw, if_neg hw]
    by_cases hz : r.hdr.type = RecDiscard ∨ r.hdr.type = RecZero
    · rw [if_pos hz, if_pos hz]
      exact punchCall_complete hoff hlen hk
    · rw [if_neg hz, if_neg hz]

end

/-- a replica of ones on a file system without holes -/
def onesReplica : Replica := ⟨fun _ => 1, none, true, [false]⟩

/-- `len` bytes of zeros at the start of the disk -/
def zeroItem (len : Nat) : Item :=
  ⟨⟨RecMagic, AbiVersion, RecZero, 0, StCommitted, 0, 0, len, 56, 0, 0⟩, [], Nat.zero_le _⟩

/-- **Zeros that one call cannot write**: what is left out stays as it was. -/
theorem zero_short {size len : Nat} (hlen : MaxRw < len) :
    ¬∀ p', onesReplica.writeCall size (some MaxRw) (zeroItem len) = some p' →
      p'.img = overlay (zeroItem len).patch onesReplica.img := by
  intro h
  have hw : (zeroItem len).hdr.type ≠ RecWrite := by
    show RecZero ≠ RecWrite
    decide
  have hpunch := (writeCall_zeros hw (Or.inr rfl)).mp h
  have hno : ¬(onesReplica.punchOk = true ∧ onesReplica.Punches (zeroItem len).first
      (zeroItem len).hdr.len) := fun hp => by
    have h1 := hp.2.1
    cases h1
  rw [if_neg hno] at hpunch
  have hfirst : (zeroItem len).first < 2^63 := by
    show 0 * 512 < 2^63
    decide
  have hbyte : (1 : UInt8) = (List.replicate len (0 : UInt8)).getD MaxRw default :=
    hpunch hfirst MaxRw rfl MaxRw (Nat.le_refl _) (by rw [List.length_replicate]; exact hlen)
  rw [List.getD_eq_getElem?_getD, List.getElem?_replicate_of_lt hlen] at hbyte
  exact absurd hbyte (by decide)

/-- **A record applied in part**, without an exception: 2 GiB of zeros where holes cannot be punched,
which is more than one call writes, and a sector of which 100 bytes are written. -/
theorem write_short :
    (MayReturn (2^31) (some MaxRw) ∧
      ¬∀ p', onesReplica.writeCall (2^31) (some MaxRw) (zeroItem (2^31)) = some p' →
        p'.img = overlay (zeroItem (2^31)).patch onesReplica.img) ∧
    MayReturn 512 (some 100) ∧
      ¬∀ p', onesReplica.writeCall (2^31) (some 100) (writeItem 0 0 7) = some p' →
        p'.img = overlay (writeItem 0 0 7).patch onesReplica.img := by
  refine ⟨⟨fun k hk => ?_, zero_short (by decide)⟩, fun k hk => ?_, fun h => ?_⟩
  · obtain rfl := Option.some.inj hk
    decide
  · obtain rfl := Option.some.inj hk
    decide
  · have hrest := (writeCall_write rfl).mp h
    have hlt : 100 < (List.replicate 512 (7 : UInt8)).length := by
      rw [List.length_replicate]
      decide
    have hbyte : (1 : UInt8) = (List.replicate 512 (7 : UInt8)).getD 100 default :=
      hrest (by decide) 100 rfl 100 (Nat.le_refl _) hlt
    rw [List.getD_eq_getElem?_getD, List.getElem?_replicate_of_lt (by decide)] at hbyte
    exact absurd hbyte (by decide)

end CDP
