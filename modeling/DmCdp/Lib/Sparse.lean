import DmCdp.Lib.Bytes

/-!
# Sparse files

A sparse file knows of each byte whether it has been written.  `SEEK_DATA` and `SEEK_HOLE` report
exactly that.

* `Sparse`                 the bytes (`none`: a hole) and the length;
* `seekData`, `seekHole`   the first byte, or the first hole, from an offset on;
* `Sparse.regions`         the regions of data, one after the other (`mem_regions`);
* `Sparse.layOver`         every region written over another image (`layOver_eq`).
-/

set_option linter.unusedVariables false

namespace Img

structure Sparse (β : Type*) where
  byte : Nat → Option β
  eof : Nat
  inside : ∀ x, eof ≤ x → byte x = none

section
variable {β : Type*} {f : Sparse β} {off d h x : Nat}

/-- `ftruncate` of a new file -/
def Sparse.empty (n : Nat) : Sparse β := ⟨fun _ => none, n, fun _ _ => rfl⟩

/-- `pwrite`, which makes the file longer if it has to -/
def Sparse.write (f : Sparse β) (off : Nat) (bs : List β) : Sparse β where
  byte := blit f.byte off bs.length fun i => bs[i]?
  eof := if bs = [] then f.eof else max f.eof (off + bs.length)
  inside := by
    intro x hx
    split at hx
    · rename_i e
      rw [e, List.length_nil, blit_zero]
      exact f.inside x hx
    · rw [blit_out _ (by omega)]
      exact f.inside x (by omega)

theorem Sparse.write_out {bs : List β} (hx : ¬(off ≤ x ∧ x < off + bs.length)) :
    (f.write off bs).byte x = f.byte x := blit_out _ hx

theorem Sparse.write_in {bs : List β} (hx : off ≤ x ∧ x < off + bs.length) :
    (f.write off bs).byte x = bs[x - off]? := blit_in _ hx

/-! ## the two searches -/

/-- `lseek(fd, off, SEEK_DATA)` -/
def Sparse.seekData (f : Sparse β) (off : Nat) : Option Nat :=
  (List.range' off (f.eof - off)).find? fun x => (f.byte x).isSome

/-- `lseek(fd, off, SEEK_HOLE)`; the end of the file counts as a hole -/
def Sparse.seekHole (f : Sparse β) (off : Nat) : Nat :=
  ((List.range' off (f.eof - off)).find? fun x => (f.byte x).isNone).getD f.eof

theorem Sparse.lt_eof (hd : f.byte x ≠ none) : x < f.eof := by
  by_contra hc
  exact hd (f.inside x (by omega))

theorem seekData_none (hs : f.seekData off = none) (hx : off ≤ x) : f.byte x = none := by
  by_contra hd
  have hlt := f.lt_eof hd
  have h1 := List.find?_eq_none.mp hs x (List.mem_range'_1.mpr (by omega))
  exact h1 (Option.isSome_iff_ne_none.mpr hd)

theorem seekData_some (hs : f.seekData off = some d) :
    off ≤ d ∧ f.byte d ≠ none ∧ ∀ x, off ≤ x → x < d → f.byte x = none := by
  obtain ⟨h1, h2, h3⟩ := List.find?_range'_eq_some.mp hs
  refine ⟨(List.mem_range'_1.mp h2).1, Option.isSome_iff_ne_none.mp h1, fun x hx hd => ?_⟩
  have h4 := h3 x hx hd
  simpa using h4

theorem seekHole_spec (hd : f.byte d ≠ none) : d < f.seekHole d ∧ f.seekHole d ≤ f.eof ∧
    f.byte (f.seekHole d) = none ∧ ∀ x, d ≤ x → x < f.seekHole d → f.byte x ≠ none := by
  have hlt := f.lt_eof hd
  unfold Sparse.seekHole
  cases hs : (List.range' d (f.eof - d)).find? fun x => (f.byte x).isNone with
  | none =>
    refine ⟨hlt, Nat.le_refl _, f.inside _ (Nat.le_refl _), fun x h1 h2 hx => ?_⟩
    have h2' : x < f.eof := h2
    have h3 := List.find?_eq_none.mp hs x (List.mem_range'_1.mpr (by omega))
    exact h3 (Option.isNone_iff_eq_none.mpr hx)
  | some h =>
    obtain ⟨h1, h2, h3⟩ := List.find?_range'_eq_some.mp hs
    have h4 := List.mem_range'_1.mp h2
    have hnone : f.byte h = none := Option.isNone_iff_eq_none.mp h1
    have hne : h ≠ d := fun e => hd (e ▸ hnone)
    show d < h ∧ h ≤ f.eof ∧ f.byte h = none ∧ ∀ x, d ≤ x → x < h → f.byte x ≠ none
    refine ⟨by omega, by omega, hnone, fun x hx hh e => ?_⟩
    have h5 := h3 x hx hh
    rw [e] at h5
    exact absurd h5 (by simp)

/-! ## the regions of data -/

/-- from `off` on and below `limit`: the search for data, then for the hole behind it -/
def Sparse.regions (f : Sparse β) (limit : Nat) : Nat → Nat → List (Nat × Nat)
  | 0, _ => []
  | fuel + 1, off =>
    if off < limit then
      match f.seekData off with
      | none => []
      | some d =>
        if d ≥ limit then []
        else (d, f.seekHole d - d) :: f.regions limit fuel (f.seekHole d)
    else []

/-- **The regions are the data.** -/
theorem mem_regions {limit : Nat} (hl : ∀ x, f.byte x ≠ none → x < limit) (x : Nat) (fuel : Nat) :
    ∀ off, limit ≤ off + fuel →
      ((∃ p ∈ f.regions limit fuel off, p.1 ≤ x ∧ x < p.1 + p.2) ↔ off ≤ x ∧ f.byte x ≠ none) := by
  induction fuel with
  | zero =>
    intro off hf
    refine ⟨fun ⟨p, hp, _⟩ => absurd hp List.not_mem_nil, fun ⟨h1, h2⟩ => ?_⟩
    have := hl x h2
    omega
  | succ fuel ih =>
    intro off hf
    unfold Sparse.regions
    by_cases ho : off < limit
    · rw [if_pos ho]
      cases hs : f.seekData off with
      | none =>
        refine ⟨fun ⟨p, hp, _⟩ => absurd hp List.not_mem_nil, fun ⟨h1, h2⟩ => ?_⟩
        exact absurd (seekData_none hs h1) h2
      | some d =>
        obtain ⟨hd1, hd2, hd3⟩ := seekData_some hs
        obtain ⟨hh1, hh2, hh3, hh4⟩ := seekHole_spec hd2
        have hdl := hl d hd2
        dsimp only
        rw [if_neg (by omega), List.exists_mem_cons_iff, ih _ (by omega)]
        constructor
        · rintro (⟨h1, h2⟩ | ⟨h1, h2⟩)
          · have h1' : d ≤ x := h1
            have h2' : x < d + (f.seekHole d - d) := h2
            exact ⟨by omega, hh4 x h1' (by omega)⟩
          · exact ⟨by omega, h2⟩
        · rintro ⟨h1, h2⟩
          by_cases hx : x < d
          · exact absurd (hd3 x h1 hx) h2
          · by_cases hx2 : x < f.seekHole d
            · exact Or.inl ⟨by omega, by show x < d + (f.seekHole d - d); omega⟩
            · exact Or.inr ⟨by omega, h2⟩
    · rw [if_neg ho]
      refine ⟨fun ⟨p, hp, _⟩ => absurd hp List.not_mem_nil, fun ⟨h1, h2⟩ => ?_⟩
      have := hl x h2
      omega

end

/-! ## laying the data over an image -/

section
variable {β : Type*} [Inhabited β]

/-- what `read` returns: a hole reads as the default -/
def Sparse.value (f : Sparse β) (x : Nat) : β := (f.byte x).getD default

/-- the bytes from `pos` to `h`, read and written in pieces of at most `step` -/
def Sparse.pieces (f : Sparse β) (step h : Nat) : Nat → Nat → (Nat → β) → Nat → β
  | 0, _, img => img
  | fuel + 1, pos, img =>
    if pos < h then
      let buf := slice f.value pos (min step (h - pos))
      f.pieces step h fuel (pos + buf.length) (putList img pos buf)
    else img

/-- one region after the other -/
def Sparse.layOver (f : Sparse β) (step : Nat) : Nat → Nat → (Nat → β) → Nat → β
  | 0, _, img => img
  | fuel + 1, off, img =>
    if off < f.eof then
      match f.seekData off with
      | none => img
      | some d =>
        if d ≥ f.eof then img
        else f.layOver step fuel (f.seekHole d)
          (f.pieces step (f.seekHole d) (f.seekHole d - d + 1) d img)
    else img

variable {f : Sparse β} {step : Nat}

theorem putList_slice {m : Nat → β} {f : Nat → β} {off n x : Nat} :
    putList m off (slice f off n) x = if off ≤ x ∧ x < off + n then f x else m x := by
  by_cases h : off ≤ x ∧ x < off + n
  · obtain ⟨i, rfl⟩ := Nat.exists_eq_add_of_le h.1
    rw [if_pos h, putList_in (by rw [length_slice]; omega), List.getD_eq_getElem?_getD,
      getElem?_slice, if_pos (by omega)]
    rfl
  · rw [if_neg h, putList_out (by rw [length_slice]; exact h)]

theorem pieces_eq (hstep : 0 < step) {h : Nat} (x : Nat) (fuel : Nat) :
    ∀ (pos : Nat) (img : Nat → β), h ≤ pos + fuel →
      f.pieces step h fuel pos img x = if pos ≤ x ∧ x < h then f.value x else img x := by
  induction fuel with
  | zero => intro pos img hf; exact (if_neg (by omega)).symm
  | succ fuel ih =>
    intro pos img hf
    unfold Sparse.pieces
    by_cases hp : pos < h
    · rw [if_pos hp]
      rw [length_slice, ih _ _ (by omega), putList_slice]
      by_cases h1 : pos ≤ x ∧ x < h
      · rw [if_pos h1]
        by_cases h2 : pos + min step (h - pos) ≤ x
        · rw [if_pos ⟨h2, h1.2⟩]
        · rw [if_neg (by omega), if_pos ⟨h1.1, by omega⟩]
      · rw [if_neg h1, if_neg (by omega), if_neg (by omega)]
    · rw [if_neg hp, if_neg (by omega)]

/-- **All data is laid over the image**, and nothing else. -/
theorem layOver_eq (hstep : 0 < step) (x : Nat) (fuel : Nat) :
    ∀ (off : Nat) (img : Nat → β), f.eof ≤ off + fuel →
      f.layOver step fuel off img x = if off ≤ x then (f.byte x).getD (img x) else img x := by
  induction fuel with
  | zero =>
    intro off img hf
    show img x = _
    split
    · rw [f.inside x (by omega)]
      rfl
    · rfl
  | succ fuel ih =>
    intro off img hf
    unfold Sparse.layOver
    by_cases ho : off < f.eof
    · rw [if_pos ho]
      cases hs : f.seekData off with
      | none =>
        dsimp only
        split
        · rename_i hx
          rw [seekData_none hs hx]
          rfl
        · rfl
      | some d =>
        obtain ⟨hd1, hd2, hd3⟩ := seekData_some hs
        obtain ⟨hh1, hh2, hh3, hh4⟩ := seekHole_spec hd2
        have hde := f.lt_eof hd2
        dsimp only
        rw [if_neg (by omega), ih _ _ (by omega), pieces_eq hstep x _ _ _ (by omega)]
        by_cases hx : off ≤ x
        · rw [if_pos hx]
          by_cases h1 : f.seekHole d ≤ x
          · rw [if_pos h1, if_neg (by omega)]
          · rw [if_neg h1]
            by_cases h2 : d ≤ x
            · rw [if_pos ⟨h2, by omega⟩]
              obtain ⟨v, hv⟩ := Option.ne_none_iff_exists'.mp (hh4 x h2 (by omega))
              unfold Sparse.value
              rw [hv]
              rfl
            · rw [if_neg (by omega), hd3 x hx (by omega)]
              rfl
        · rw [if_neg hx, if_neg (by omega), if_neg (by omega)]
    · rw [if_neg ho]
      split
      · rw [f.inside x (by omega)]
        rfl
      · rfl

end

end Img
