import DmCdp.Lib.Bytes

/-!
# Structures of little-endian fields

A structure is the list of the widths of its fields.  `pack` and `unpack` are those of a format
without alignment, `cStruct` is the layout of a C compiler with natural alignment.

* `unpack_pack`   fields that fit are read back;
* `cLoad_cStruct`  fields that fit are loaded as they were stored;
* `cStruct_pack`  where no field needs padding the C layout is the packed one;
* `formatWidths`  the widths of a format string; `structPack` and `structUnpack` go by it.
-/

set_option linter.unusedVariables false

namespace Struct
open Img

/-! ## packed -/

def pack : List Nat → List Nat → List UInt8
  | w :: ws, v :: vs => le w v ++ pack ws vs
  | _, _ => []

/-- an error (`none`) if there are too few or too many bytes -/
def unpack : List Nat → List UInt8 → Option (List Nat)
  | [], [] => some []
  | [], _ :: _ => none
  | w :: ws, bs =>
    if w ≤ bs.length then (unpack ws (bs.drop w)).map fun vs => ofLe (bs.take w) :: vs else none

/-- one value for each width, and it fits -/
inductive Fits : List Nat → List Nat → Prop
  | nil : Fits [] []
  | cons (w v : Nat) (ws vs : List Nat) : v < 256 ^ w → Fits ws vs → Fits (w :: ws) (v :: vs)

theorem Fits.lt {ws vs : List Nat} (h : Fits ws vs) {i w v : Nat} (hw : ws[i]? = some w)
    (hv : vs[i]? = some v) : v < 256 ^ w := by
  induction h generalizing i with
  | nil => cases hw
  | cons w' v' ws vs hv' h ih =>
    cases i with
    | zero =>
      obtain rfl := Option.some.inj hw
      obtain rfl := Option.some.inj hv
      exact hv'
    | succ i => exact ih hw hv

theorem length_pack {ws vs : List Nat} (h : Fits ws vs) : (pack ws vs).length = ws.sum := by
  induction h with
  | nil => rfl
  | cons w v ws vs hv h ih => simp [pack, length_le, ih]

/-- **What is packed is read back.** -/
theorem unpack_pack {ws vs : List Nat} (h : Fits ws vs) : unpack ws (pack ws vs) = some vs := by
  induction h with
  | nil => rfl
  | cons w v ws vs hv h ih =>
    have hw := length_le w v
    simp [pack, unpack, List.take_left' hw, List.drop_left' hw, ih, ofLe_le_of_lt hv, hw]

/-- an error if a value does not fit or the numbers of values and fields differ -/
def packs : List Nat → List Nat → Option (List UInt8)
  | [], [] => some []
  | w :: ws, v :: vs => if v < 256 ^ w then (packs ws vs).map fun bs => le w v ++ bs else none
  | _, _ => none

theorem packs_eq {ws vs : List Nat} (h : Fits ws vs) : packs ws vs = some (pack ws vs) := by
  induction h with
  | nil => rfl
  | cons w v ws vs hv h ih => simp [packs, pack, hv, ih]

/-! ## the layout of a C compiler -/

/-- bytes in front of a field of `w` bytes at `off` -/
def padTo (off w : Nat) : Nat := (w - off % w) % w

/-- the fields from offset `off` on, each at a multiple of its width, and the padding behind them;
padding is zero -/
def cFields (align : Nat) : Nat → List Nat → List Nat → List UInt8
  | off, w :: ws, v :: vs =>
    List.replicate (padTo off w) 0 ++ le w v ++ cFields align (off + padTo off w + w) ws vs
  | off, _, _ => List.replicate (padTo off align) 0

/-- the alignment is that of the widest field -/
def cStruct (ws vs : List Nat) : List UInt8 := cFields (ws.foldr max 1) 0 ws vs

/-- the fields from `off` on need no padding -/
def Tight (align : Nat) : Nat → List Nat → Prop
  | off, w :: ws => padTo off w = 0 ∧ Tight align (off + w) ws
  | off, [] => padTo off align = 0

instance decidableTight (align : Nat) : (off : Nat) → (ws : List Nat) → Decidable (Tight align off ws)
  | off, w :: ws => @instDecidableAnd _ _ _ (decidableTight align (off + w) ws)
  | off, [] => inferInstanceAs (Decidable (padTo off align = 0))

theorem cFields_pack {align off : Nat} {ws vs : List Nat} (ht : Tight align off ws)
    (hf : Fits ws vs) : cFields align off ws vs = pack ws vs := by
  induction hf generalizing off with
  | nil =>
    have h0 : padTo off align = 0 := ht
    simp [cFields, pack, h0]
  | cons w v ws vs hv h ih =>
    simp [cFields, pack, ht.1, ih ht.2]

/-- **Without padding the C layout is the packed one.** -/
theorem cStruct_pack {ws vs : List Nat} (ht : Tight (ws.foldr max 1) 0 ws) (hf : Fits ws vs) :
    cStruct ws vs = pack ws vs := cFields_pack ht hf

/-- `sizeof` -/
def cSize (ws : List Nat) : Nat := (cStruct ws (ws.map fun _ => 0)).length

/-- the fields from offset `off` on are loaded -/
def cLoad : Nat → List Nat → List UInt8 → List Nat
  | off, w :: ws, bs =>
    ofLe ((bs.drop (off + padTo off w)).take w) :: cLoad (off + padTo off w + w) ws bs
  | _, [], _ => []

theorem cLoad_cFields {align off : Nat} {ws vs : List Nat} (hf : Fits ws vs)
    (front rest : List UInt8) (hlen : front.length = off) :
    cLoad off ws (front ++ cFields align off ws vs ++ rest) = vs := by
  induction hf generalizing off front with
  | nil => rfl
  | cons w v ws vs hv h ih =>
    have hsplit : front ++ cFields align off (w :: ws) (v :: vs) ++ rest
        = (front ++ List.replicate (padTo off w) 0) ++ le w v ++
          cFields align (off + padTo off w + w) ws vs ++ rest := by
      simp [cFields]
    have hfront : (front ++ List.replicate (padTo off w) 0).length = off + padTo off w := by
      simp [hlen]
    have hlen' : (front ++ List.replicate (padTo off w) 0 ++ le w v).length
        = off + padTo off w + w := by
      simp [hlen, length_le, Nat.add_assoc]
    have hnext := ih (front ++ List.replicate (padTo off w) 0 ++ le w v) hlen'
    rw [hsplit]
    unfold cLoad
    rw [hnext]
    congr 1
    rw [List.append_assoc, List.append_assoc, List.drop_left' hfront, List.take_left' (length_le w v),
      ofLe_le_of_lt hv]

/-- **What a C program stores it loads.** -/
theorem cLoad_cStruct {ws vs : List Nat} (hf : Fits ws vs) (rest : List UInt8) :
    cLoad 0 ws (cStruct ws vs ++ rest) = vs := cLoad_cFields hf [] rest rfl

/-! ## format strings -/

def charWidth : Char → Option Nat
  | 'B' => some 1
  | 'H' => some 2
  | 'I' => some 4
  | 'Q' => some 8
  | _ => none

/-- the characters behind `<`; `n` is the count in front of the next one -/
def formatLoop : Option Nat → List Char → Option (List Nat)
  | none, [] => some []
  | some _, [] => none
  | n, c :: cs =>
    if c.isDigit then formatLoop (some (10 * n.getD 0 + (c.toNat - 48))) cs
    else (charWidth c).bind fun w =>
      (formatLoop none cs).map fun ws => List.replicate (n.getD 1) w ++ ws

/-- little-endian, without alignment -/
def formatWidths (fmt : String) : Option (List Nat) :=
  match fmt.toList with
  | '<' :: cs => formatLoop none cs
  | _ => none

def calcsize (fmt : String) : Option Nat := (formatWidths fmt).map List.sum

def structPack (fmt : String) (vs : List Nat) : Option (List UInt8) :=
  (formatWidths fmt).bind fun ws => packs ws vs

def structUnpack (fmt : String) (bs : List UInt8) : Option (List Nat) :=
  (formatWidths fmt).bind fun ws => unpack ws bs

end Struct
