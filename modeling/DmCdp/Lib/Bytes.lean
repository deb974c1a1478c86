import Mathlib.Tactic.Ring
import DmCdp.Lib.Replay

/-!
# Slices of an image and little-endian fields

* `slice m off n`     the `n` values of an image from `off` on, as a list;
* `putList m off bs`  a list written at `off`; `slice_putList`, `slice_putList_within` read it
                      back, alone or as part of a larger slice;
* `le w n`, `ofLe`    a number as `w` little-endian bytes and back (`ofLe_le`).
-/

set_option linter.unusedVariables false

namespace Img

/-! ## slices -/

section
variable {β : Type*}

def slice (m : Nat → β) (off n : Nat) : List β := (List.range n).map fun i => m (off + i)

theorem length_slice (m : Nat → β) (off n : Nat) : (slice m off n).length = n := by
  simp [slice]

theorem getElem?_slice (m : Nat → β) (off n i : Nat) :
    (slice m off n)[i]? = if i < n then some (m (off + i)) else none := by
  unfold slice
  rw [List.getElem?_map]
  by_cases h : i < n
  · simp [h]
  · simp [h]

theorem slice_congr {m m' : Nat → β} {off off' n : Nat}
    (h : ∀ i, i < n → m (off + i) = m' (off' + i)) : slice m off n = slice m' off' n := by
  unfold slice
  exact List.map_congr_left fun i hi => h i (List.mem_range.mp hi)

theorem slice_append (m : Nat → β) (off a b : Nat) :
    slice m off (a + b) = slice m off a ++ slice m (off + a) b := by
  apply List.ext_getElem?
  intro i
  rw [List.getElem?_append, length_slice, getElem?_slice, getElem?_slice, getElem?_slice]
  by_cases h : i < a
  · rw [if_pos (by omega : i < a + b), if_pos h, if_pos h]
  · rw [if_neg h]
    have e : off + a + (i - a) = off + i := by omega
    by_cases h2 : i < a + b
    · rw [if_pos h2, if_pos (by omega : i - a < b), e]
    · rw [if_neg h2, if_neg (by omega : ¬i - a < b)]

theorem slice_take (m : Nat → β) (off n k : Nat) (h : k ≤ n) :
    (slice m off n).take k = slice m off k := by
  obtain ⟨d, rfl⟩ := Nat.exists_eq_add_of_le h
  rw [slice_append, List.take_left' (length_slice m off k)]

theorem slice_drop (m : Nat → β) (off n k : Nat) (h : k ≤ n) :
    (slice m off n).drop k = slice m (off + k) (n - k) := by
  obtain ⟨d, rfl⟩ := Nat.exists_eq_add_of_le h
  rw [slice_append, List.drop_left' (length_slice m off k), Nat.add_sub_cancel_left]

theorem slice_blit_out (m : Nat → β) {off n a k : Nat} (f : Nat → β)
    (h : off + n ≤ a ∨ a + k ≤ off) : slice (blit m a k f) off n = slice m off n :=
  slice_congr fun i hi => blit_out f (by omega)

theorem slice_blit (m : Nat → β) (off n : Nat) (f : Nat → β) :
    slice (blit m off n f) off n = slice f 0 n := by
  apply slice_congr
  intro i hi
  rw [blit_in f (by omega), Nat.add_sub_cancel_left, Nat.zero_add]

/-- a list written at `off` -/
def putList [Inhabited β] (m : Nat → β) (off : Nat) (bs : List β) : Nat → β :=
  blit m off bs.length fun i => bs.getD i default

variable [Inhabited β]

theorem putList_out {m : Nat → β} {off a : Nat} {bs : List β}
    (h : ¬(off ≤ a ∧ a < off + bs.length)) : putList m off bs a = m a := blit_out _ h

theorem putList_in {m : Nat → β} {off i : Nat} {bs : List β} (h : i < bs.length) :
    putList m off bs (off + i) = bs.getD i default := by
  unfold putList
  rw [blit_in _ (by omega), Nat.add_sub_cancel_left]

theorem slice_putList_within (m : Nat → β) (off k n : Nat) (bs : List β)
    (h : k + bs.length ≤ n) :
    slice (putList m (off + k) bs) off n
      = (slice m off n).take k ++ bs ++ (slice m off n).drop (k + bs.length) := by
  apply List.ext_getElem?
  intro i
  rw [slice_take m off n k (by omega), slice_drop m off n _ h, List.getElem?_append,
    List.getElem?_append, List.length_append, length_slice, getElem?_slice, getElem?_slice,
    getElem?_slice]
  by_cases h1 : i < k
  · rw [if_pos (by omega : i < n), if_pos (by omega : i < k + bs.length), if_pos h1, if_pos h1,
      putList_out (by omega)]
  · by_cases h2 : i < k + bs.length
    · rw [if_pos (by omega : i < n), if_pos h2, if_neg h1]
      have e : off + i = off + k + (i - k) := by omega
      rw [e, putList_in (by omega), List.getD_eq_getElem?_getD,
        List.getElem?_eq_getElem (by omega)]
      rfl
    · rw [if_neg h2]
      by_cases h3 : i < n
      · rw [if_pos h3, if_pos (by omega : i - (k + bs.length) < n - (k + bs.length)),
          putList_out (by omega)]
        congr 2
        omega
      · rw [if_neg h3, if_neg (by omega : ¬i - (k + bs.length) < n - (k + bs.length))]

theorem slice_putList (m : Nat → β) (off : Nat) (bs : List β) :
    slice (putList m off bs) off bs.length = bs := by
  have h := slice_putList_within m off 0 bs.length bs (by omega)
  rw [Nat.add_zero, Nat.zero_add, List.take_zero, List.nil_append,
    List.drop_of_length_le (by rw [length_slice]), List.append_nil] at h
  exact h

end

/-! ## little-endian numbers -/

/-- the `w` little-endian bytes of `n`; higher bits are dropped -/
def le : Nat → Nat → List UInt8
  | 0, _ => []
  | w + 1, n => UInt8.ofNat n :: le w (n / 256)

def ofLe : List UInt8 → Nat
  | [] => 0
  | b :: bs => b.toNat + 256 * ofLe bs

theorem length_le (w n : Nat) : (le w n).length = w := by
  induction w generalizing n with
  | zero => rfl
  | succ w ih => rw [le, List.length_cons, ih]

theorem ofLe_le (w n : Nat) : ofLe (le w n) = n % 256 ^ w := by
  induction w generalizing n with
  | zero => rw [Nat.pow_zero, Nat.mod_one]; rfl
  | succ w ih =>
    have h : (UInt8.ofNat n).toNat = n % 256 := UInt8.toNat_ofNat'
    rw [le, ofLe, ih, h, Nat.pow_succ, Nat.mul_comm (256 ^ w) 256, Nat.mod_mul]

theorem ofLe_lt (bs : List UInt8) : ofLe bs < 256 ^ bs.length := by
  induction bs with
  | nil => exact Nat.one_pos
  | cons b bs ih =>
    have hb : b.toNat < 256 := b.toNat_lt
    rw [ofLe, List.length_cons, Nat.pow_succ]
    omega

theorem le_ofLe (bs : List UInt8) : le bs.length (ofLe bs) = bs := by
  induction bs with
  | nil => rfl
  | cons b bs ih =>
    have hb : b.toNat < 256 := b.toNat_lt
    have hdiv : (b.toNat + 256 * ofLe bs) / 256 = ofLe bs := by omega
    have hmod : UInt8.ofNat (b.toNat + 256 * ofLe bs) = b := by
      apply UInt8.toNat_inj.mp
      rw [UInt8.toNat_ofNat']
      omega
    rw [List.length_cons, ofLe, le, hdiv, hmod, ih]

theorem ofLe_le_of_lt {w n : Nat} (h : n < 256 ^ w) : ofLe (le w n) = n := by
  rw [ofLe_le, Nat.mod_eq_of_lt h]

end Img
