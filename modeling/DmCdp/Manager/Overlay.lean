import DmCdp.Daemon.SeedPoint

/-!
# `overlay_seed` and what comes after it

The function call by call, on a sparse `seed.raw` of any shape: `SEEK_DATA` and `SEEK_HOLE`, reads
that may be short, the writes, and the last line.

* `ShortReads`        how many bytes each `os.pread` returns;
* `overlaySeedCall`   `overlay_seed`; `regions_laid`: its loops lay all data over the copy;
* `afterCopy`         `main` from the end of the copy to step 4;
* `overlay_raises`    on every input the data is laid back, and then the function raises;
* `overlay_fails`     a byte of data.
-/

set_option linter.unusedVariables false

namespace CDP
open Img

/-! ## names -/

/-- what `rkcdp-rebuild.py` imports and defines -/
def rebuildNames : List String :=
  ["argparse", "base64", "json", "os", "subprocess", "sys", "time", "TOTAL", "Progress", "sh",
    "ssh_script", "load_json", "overlay_seed", "mark_standby", "_copy_with_progress", "main"]

/-- the built-in names that it uses -/
def builtinNames : List String :=
  ["Exception", "OSError", "RuntimeError", "int", "iter", "len", "min", "next", "open", "range",
    "round", "str"]

inductive PyError where
  | nameError (name : String)
  deriving DecidableEq

/-- `str(e)` -/
def PyError.text : PyError → String
  | .nameError name => "name \x27" ++ name ++ "\x27 is not defined"

/-- a global name is looked up when it is used -/
def globalName (name : String) : Except PyError Unit :=
  if name ∈ rebuildNames ∨ name ∈ builtinNames then .ok () else .error (.nameError name)

/-! ## `overlay_seed` -/

/-- the `k`-th `os.pread` returns `len k n` of the `n` bytes that are there -/
structure ShortReads where
  len : Nat → Nat → Nat
  pos : ∀ k n, 0 < n → 0 < len k n
  le : ∀ k n, len k n ≤ n

/-- the copy, the counter `n`, and the number of reads so far -/
structure OverlaySt where
  copy : Nat → UInt8
  n : Nat
  calls : Nat

/-- `os.pread(sf.fileno(), min(4 << 20, h - pos), pos)` -/
def overlayRead (seed : Sparse UInt8) (reads : ShortReads) (k h pos : Nat) : List UInt8 :=
  slice seed.value pos (reads.len k (min (min (4 * 2^20) (h - pos)) (seed.eof - pos)))

/-- `while pos < h` -/
def overlayRegion (seed : Sparse UInt8) (reads : ShortReads) (h : Nat) :
    Nat → Nat → OverlaySt → Option OverlaySt
  | 0, _, _ => none
  | fuel + 1, pos, s =>
    if pos < h then
      let buf := overlayRead seed reads s.calls h pos
      if buf = [] then some { s with calls := s.calls + 1 }
      else overlayRegion seed reads h fuel (pos + buf.length)
        ⟨putList s.copy pos buf, s.n + buf.length, s.calls + 1⟩
    else some s

/-- `while off < size` -/
def overlayRegions (seed : Sparse UInt8) (reads : ShortReads) :
    Nat → Nat → OverlaySt → Option OverlaySt
  | 0, _, _ => none
  | fuel + 1, off, s =>
    if off < seed.eof then
      match seed.seekData off with
      | none => some s
      | some d =>
        if d ≥ seed.eof then some s
        else
          (overlayRegion seed reads (seed.seekHole d) (seed.eof + 1) d s).bind
            (overlayRegions seed reads fuel (seed.seekHole d))
    else some s

/-- `overlay_seed`, with the call of `log` at its end -/
def overlaySeedCall (seed : Sparse UInt8) (reads : ShortReads) (copy : Nat → UInt8) :
    Option (Except PyError Unit × OverlaySt) :=
  (overlayRegions seed reads (seed.eof + 1) 0 ⟨copy, 0, 0⟩).map fun s => (globalName "log", s)

/-! ## `main` -/

/-- what step 4 or the handler of `main` finds: the copy, the lock file, `step` and `error` of the
progress file -/
structure RebuildEnd where
  copy : Nat → UInt8
  lock : Bool
  step : Nat
  error : Option String

/-- `main` once `cp` has returned; an exception goes to `pg.fail`, and `finally` removes the lock -/
def afterCopy (fromSeed : Bool) (seed : Sparse UInt8) (reads : ShortReads) (copy : Nat → UInt8) :
    Option RebuildEnd :=
  if fromSeed then
    (overlaySeedCall seed reads copy).map fun p =>
      match p.1 with
      | .ok () => ⟨p.2.copy, false, 4, none⟩
      | .error e => ⟨p.2.copy, false, 3, some e.text⟩
  else some ⟨copy, false, 4, none⟩

/-! ## the property -/

/-- data is laid back, holes are left alone -/
structure LaidBack (seed : Sparse UInt8) (copy copy' : Nat → UInt8) : Prop where
  data : ∀ x v, seed.byte x = some v → copy' x = v
  hole : ∀ x, seed.byte x = none → copy' x = copy x

/-- the function returns, the rebuild goes on to step 4, and the copy is as it should be -/
def OverlayDone (seed : Sparse UInt8) (reads : ShortReads) (copy : Nat → UInt8) : Prop :=
  ∃ s r, overlaySeedCall seed reads copy = some (.ok (), s) ∧
    afterCopy true seed reads copy = some r ∧ r.step = 4 ∧ LaidBack seed copy s.copy

/-! ## the loops -/

section
variable {seed : Sparse UInt8} {reads : ShortReads}

theorem length_overlayRead (reads : ShortReads) (k : Nat) {h pos : Nat} (hp : pos < h)
    (hh : h ≤ seed.eof) : 0 < (overlayRead seed reads k h pos).length ∧
      pos + (overlayRead seed reads k h pos).length ≤ h := by
  have hle := reads.le k (min (min (4 * 2^20) (h - pos)) (seed.eof - pos))
  have hpos := reads.pos k (min (min (4 * 2^20) (h - pos)) (seed.eof - pos)) (by omega)
  unfold overlayRead
  rw [length_slice]
  omega

theorem region_laid (reads : ShortReads) {h : Nat} (hh : h ≤ seed.eof) (fuel : Nat) :
    ∀ (pos : Nat) (s : OverlaySt), pos ≤ h → h < pos + fuel →
      ∃ s', overlayRegion seed reads h fuel pos s = some s' ∧
        ∀ x, s'.copy x = if pos ≤ x ∧ x < h then seed.value x else s.copy x := by
  induction fuel with
  | zero => intro pos s hp hf; omega
  | succ fuel ih =>
    intro pos s hp hf
    unfold overlayRegion
    by_cases hlt : pos < h
    · obtain ⟨h1, h2⟩ := length_overlayRead reads s.calls hlt hh
      have hput : ∀ x, putList s.copy pos (overlayRead seed reads s.calls h pos) x =
          if pos ≤ x ∧ x < pos + (overlayRead seed reads s.calls h pos).length then seed.value x
          else s.copy x := by
        intro x
        unfold overlayRead
        rw [putList_slice, length_slice]
      obtain ⟨s', e, hs'⟩ := ih (pos + (overlayRead seed reads s.calls h pos).length)
        ⟨putList s.copy pos (overlayRead seed reads s.calls h pos),
          s.n + (overlayRead seed reads s.calls h pos).length, s.calls + 1⟩ h2 (by omega)
      rw [if_pos hlt]
      dsimp only
      rw [if_neg (List.length_pos_iff.mp h1)]
      refine ⟨s', e, fun x => ?_⟩
      rw [hs']
      show (if _ then _ else putList s.copy pos _ x) = _
      rw [hput]
      by_cases hx : pos + (overlayRead seed reads s.calls h pos).length ≤ x ∧ x < h
      · rw [if_pos hx, if_pos ⟨by omega, hx.2⟩]
      · rw [if_neg hx]
        exact if_congr (by omega) rfl rfl
    · rw [if_neg hlt]
      exact ⟨s, rfl, fun x => (if_neg (by omega)).symm⟩

theorem regions_laid (seed : Sparse UInt8) (reads : ShortReads) (fuel : Nat) :
    ∀ (off : Nat) (s : OverlaySt), off ≤ seed.eof → seed.eof < off + fuel →
      ∃ s', overlayRegions seed reads fuel off s = some s' ∧
        ∀ x, s'.copy x = if off ≤ x then (seed.byte x).getD (s.copy x) else s.copy x := by
  induction fuel with
  | zero => intro off s ho hf; omega
  | succ fuel ih =>
    intro off s ho hf
    have hrest : (∀ x, off ≤ x → seed.byte x = none) →
        ∀ x, s.copy x = if off ≤ x then (seed.byte x).getD (s.copy x) else s.copy x := by
      intro hnone x
      split
      · rename_i hx
        simp [hnone x hx]
      · rfl
    unfold overlayRegions
    by_cases hlt : off < seed.eof
    · rw [if_pos hlt]
      cases hs : seed.seekData off with
      | none => exact ⟨s, rfl, hrest fun x => seekData_none hs⟩
      | some d =>
        obtain ⟨hd1, hd2, hd3⟩ := seekData_some hs
        obtain ⟨hh1, hh2, hh3, hh4⟩ := seekHole_spec hd2
        have hde := seed.lt_eof hd2
        obtain ⟨s1, e1, hs1⟩ := region_laid reads hh2 (seed.eof + 1) d s hh1.le (by omega)
        obtain ⟨s2, e2, hs2⟩ := ih (seed.seekHole d) s1 hh2 (by omega)
        dsimp only
        rw [if_neg (by omega), e1]
        refine ⟨s2, e2, fun x => ?_⟩
        rw [hs2, hs1]
        by_cases hx : off ≤ x
        · rw [if_pos hx]
          by_cases hx1 : seed.seekHole d ≤ x
          · rw [if_pos hx1, if_neg (by omega)]
          · rw [if_neg hx1]
            by_cases hx2 : d ≤ x
            · obtain ⟨v, hv⟩ := Option.ne_none_iff_exists'.mp (hh4 x hx2 (by omega))
              rw [if_pos ⟨hx2, by omega⟩, Sparse.value, hv]
              rfl
            · simp [hd3 x hx (by omega), hx2]
        · rw [if_neg hx, if_neg (by omega), if_neg (by omega)]
    · rw [if_neg hlt]
      exact ⟨s, rfl, hrest fun x hx => seed.inside x (by omega)⟩

theorem laid_overlaySeed {copy copy' : Nat → UInt8}
    (h : ∀ x, copy' x = (seed.byte x).getD (copy x)) : copy' = overlaySeed seed copy := by
  funext x
  rw [h, overlaySeed_eq]

end

/-! ## the result -/

theorem log_undefined : globalName "log" = .error (.nameError "log") := by decide

/-- **The data is laid back, and then `overlay_seed` raises**, on every input: the rebuild fails in
step 3. -/
theorem overlay_raises (seed : Sparse UInt8) (reads : ShortReads) (copy : Nat → UInt8) :
    ¬OverlayDone seed reads copy ∧
    ∃ s, overlaySeedCall seed reads copy = some (.error (.nameError "log"), s) ∧
      LaidBack seed copy s.copy ∧ s.copy = overlaySeed seed copy ∧
      afterCopy true seed reads copy
        = some ⟨s.copy, false, 3, some "name \x27log\x27 is not defined"⟩ := by
  obtain ⟨s, e, hs⟩ := regions_laid seed reads (seed.eof + 1) 0 ⟨copy, 0, 0⟩
    (Nat.zero_le _) (by omega)
  have hlaid : ∀ x, s.copy x = (seed.byte x).getD (copy x) := fun x =>
    (hs x).trans (if_pos (Nat.zero_le x))
  have hcall : overlaySeedCall seed reads copy = some (.error (.nameError "log"), s) := by
    unfold overlaySeedCall
    rw [e, log_undefined]
    rfl
  refine ⟨?_, s, hcall, ⟨fun x v hv => ?_, fun x hx => ?_⟩, laid_overlaySeed hlaid, ?_⟩
  · rintro ⟨s', r, h, _⟩
    rw [hcall] at h
    cases h
  · rw [hlaid, hv]
    rfl
  · rw [hlaid, hx]
    rfl
  · unfold afterCopy
    rw [if_pos rfl, hcall]
    rfl

def wholeReads : ShortReads := ⟨fun _ n => n, fun _ _ h => h, fun _ n => Nat.le_refl n⟩

/-- **One byte of data**: the function raises. -/
theorem overlay_fails : ¬OverlayDone ((Sparse.empty 2).write 1 [7]) wholeReads fun _ => 0 := by
  rintro ⟨s, r, h, _⟩
  obtain ⟨t, _, ht⟩ := Option.map_eq_some_iff.mp h
  rw [log_undefined] at ht
  cases ht

end CDP
