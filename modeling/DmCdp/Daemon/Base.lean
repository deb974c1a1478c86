import DmCdp.Daemon.Extents

/-!
# The base copy, alone

`base_copy` with nothing running beside it, on a `replica.raw` of any content.

* `baseChunk`    its call of `copy_chunk`, with `skip_zero` (`baseChunk_steps`);
* `baseLoop`     its loop, by the numbers of bytes that `dev.read` returns; a stop is their end;
* `ZeroClean`    where it reads a chunk of zeros, `replica.raw` is zero to begin with;
* `base_copies`  when `base_end_seq` is recorded the replica is the device exactly if it was
                 `ZeroClean`;
* `base_stale`   a replica that was not.
-/

set_option linter.unusedVariables false

namespace CDP
open Img

/-! ## the loop -/

/-- `copy_chunk(dev, off, n, skip_zero=zero)` with nothing in between: `n` bytes at `off` -/
def baseChunk (c : Shared) (dev : Nat → UInt8) (off n : Nat) : Shared :=
  (c.store true off (slice dev off n)).release

theorem baseChunk_steps (c : Shared) (dev : Nat → UInt8) {off len n : Nat} (h : n ≤ len) :
    ((chunkStep true dev n (c.flag off len) (.flagged off len)).bind fun p =>
      (chunkStep true dev 0 p.1 p.2).bind fun p => chunkStep true dev 0 p.1 p.2)
      = some (baseChunk c dev off n, .replaying n []) := by
  have h1 : chunkStep true dev n (c.flag off len) (.flagged off len)
      = some (c.flag off len, .holding off len (slice dev off n)) := if_pos h
  have hstore : ((c.flag off len).store true off (slice dev off n)).release
      = baseChunk c dev off n := by
    unfold baseChunk Shared.store
    split
    · rfl
    · rfl
  have hdef : ((c.flag off len).store true off (slice dev off n)).deferred = [] :=
    (store_same _ true off _).2
  rw [h1]
  show some (((c.flag off len).store true off (slice dev off n)).release,
    ChunkPc.replaying (slice dev off n).length
      ((c.flag off len).store true off (slice dev off n)).deferred) = _
  rw [hstore, hdef, length_slice]

/-- the loop from `off` on.  `some` is the end that records `base_end_seq`; when the reads are at an
end before that, a stop has come. -/
def baseLoop (size : Nat) (dev : Nat → UInt8) : List Nat → Nat → Shared → Option Shared
  | [], off, c => if off < size then none else some c
  | m :: reads, off, c =>
    if off < size then
      if ReadLen size off (min CopyChunk (size - off)) m then
        if m = 0 then some (baseChunk c dev off m)
        else baseLoop size dev reads (off + m) (baseChunk c dev off m)
      else none
    else some c

/-- where a chunk of the reads is all zero on the device, so is `img` -/
def ZeroClean (size : Nat) (dev img : Nat → UInt8) : List Nat → Nat → Prop
  | [], _ => True
  | m :: reads, off => off < size →
    (allZero (slice dev off m) = true → ∀ x, off ≤ x → x < off + m → img x = 0) ∧
      ZeroClean size dev img reads (off + m)

/-! ## what it leaves -/

section
variable {size off n : Nat} {dev img : Nat → UInt8} {c c' : Shared} {reads : List Nat}

theorem baseChunk_img (c : Shared) (dev : Nat → UInt8) (off n x : Nat) :
    (baseChunk c dev off n).img x =
      if off ≤ x ∧ x < off + n ∧ allZero (slice dev off n) = false then dev x else c.img x := by
  unfold baseChunk Shared.store Shared.release
  dsimp only
  cases hz : allZero (slice dev off n) with
  | true =>
    rw [if_neg (fun h => h.2 ⟨rfl, rfl⟩), if_neg (fun h => Bool.noConfusion h.2.2)]
  | false =>
    by_cases hx : off ≤ x ∧ x < off + n
    · have hne : slice dev off n ≠ [] := by
        intro he
        have := congrArg List.length he
        rw [length_slice, List.length_nil] at this
        omega
      rw [if_pos ⟨hne, fun h => Bool.noConfusion h.2⟩, if_pos ⟨hx.1, hx.2, rfl⟩]
      dsimp only
      rw [pwrite_in hx.1 (by rw [length_slice]; exact hx.2), slice_getD dev (by omega),
        Nat.add_sub_cancel' hx.1]
    · have hright : (if off ≤ x ∧ x < off + n ∧ false = false then dev x else c.img x) = c.img x :=
        if_neg fun h => hx ⟨h.1, h.2.1⟩
      rw [hright]
      split
      · exact pwrite_out (by rw [length_slice]; exact hx)
      · rfl

/-- **The loop from `off` on** leaves the device's content behind `off` exactly if the replica is
clean there, and nothing changes before. -/
theorem baseLoop_img (reads : List Nat) : ∀ {off : Nat} {c : Shared},
    baseLoop size dev reads off c = some c' → (∀ x, off ≤ x → c.img x = img x) →
    (∀ x, x < off → c'.img x = c.img x) ∧
      ((∀ x, off ≤ x → x < size → c'.img x = dev x) ↔ ZeroClean size dev img reads off) := by
  induction reads with
  | nil =>
    intro off c h himg
    unfold baseLoop at h
    split at h
    · cases h
    · obtain rfl := Option.some.inj h
      exact ⟨fun _ _ => rfl, fun _ => trivial, fun _ x h1 h2 => by omega⟩
  | cons m reads ih =>
    intro off c h himg
    unfold baseLoop at h
    split at h
    · rename_i hoff
      split at h
      · rename_i hread
        unfold ReadLen at hread
        rw [if_pos hoff] at hread
        rw [if_neg (by omega)] at h
        obtain ⟨hlow, hhigh⟩ := ih h fun x hx => by
          rw [baseChunk_img, if_neg (by omega)]
          exact himg x (by omega)
        have hchunk : ∀ x, off ≤ x → x < off + m → c'.img x =
            if allZero (slice dev off m) = false then dev x else img x := by
          intro x h1 h2
          rw [hlow x (by omega), baseChunk_img, himg x h1]
          exact if_congr (by simp [h1, h2]) rfl rfl
        refine ⟨fun x hx => ?_, fun hall _ => ⟨fun hz x h1 h2 => ?_, ?_⟩, fun hz x h1 h2 => ?_⟩
        · rw [hlow x (by omega), baseChunk_img, if_neg (by omega)]
        · have hx := hall x h1 (by omega)
          rw [hchunk x h1 h2, if_neg (by rw [hz]; exact Bool.noConfusion),
            allZero_slice.mp hz x h1 h2] at hx
          exact hx
        · exact hhigh.mp fun x h1 h2 => hall x (by omega) h2
        · obtain ⟨hzero, hrest⟩ := hz hoff
          by_cases hx : x < off + m
          · rw [hchunk x h1 hx]
            cases ha : allZero (slice dev off m) with
            | true => rw [if_neg Bool.noConfusion, hzero ha x h1 hx, allZero_slice.mp ha x h1 hx]
            | false => rw [if_pos rfl]
          · exact hhigh.mpr hrest x (by omega) h2
      · cases h
    · rename_i hoff
      obtain rfl := Option.some.inj h
      exact ⟨fun _ _ => rfl, fun _ he => absurd he hoff, fun _ x h1 h2 => by omega⟩

end

/-- **Base copy completeness.**  When `base_end_seq` is recorded, `replica.raw` is the device if and
only if it held zeros to begin with wherever a chunk of zeros was read. -/
theorem base_copies (size : Nat) (dev img : Nat → UInt8) (reads : List Nat) (c : Shared)
    (h : baseLoop size dev reads 0 (.init img) = some c) :
    (∀ x, x < size → c.img x = dev x) ↔ ZeroClean size dev img reads 0 := by
  obtain ⟨_, hiff⟩ := baseLoop_img reads h fun x (_ : 0 ≤ x) => (rfl : _ = img x)
  rw [← hiff]
  exact ⟨fun hall x _ hx => hall x hx, fun hall x hx => hall x (Nat.zero_le x) hx⟩

/-- a fresh sparse file, in short reads -/
theorem base_copies_fresh : ∃ c, baseLoop 4 (fun x => if x < 2 then 7 else 0) [1, 1, 2] 0
      (.init fun _ => 0) = some c ∧ ∀ x, x < 4 → c.img x = if x < 2 then 7 else 0 := by
  have hrun : (baseLoop 4 (fun x => if x < 2 then 7 else 0) [1, 1, 2] 0 (.init fun _ => 0)).isSome := by
    decide
  obtain ⟨c, hc⟩ := Option.isSome_iff_exists.mp hrun
  exact ⟨c, hc, (base_copies 4 (fun x => if x < 2 then 7 else 0) (fun _ => 0) [1, 1, 2] c hc).mpr
    fun _ => ⟨fun _ _ _ _ => rfl, fun _ => ⟨fun _ _ _ _ => rfl, fun _ => ⟨fun _ _ _ _ => rfl,
      trivial⟩⟩⟩⟩

/-- **The remains of another boot** stay where the device reads zeros. -/
theorem base_stale : ∃ c, baseLoop 512 (fun _ => 0) [512] 0 (.init fun _ => 1) = some c ∧
    ¬∀ x, x < 512 → c.img x = 0 := by
  have hrun : (baseLoop 512 (fun _ => 0) [512] 0 (.init fun _ => 1)).isSome := by
    decide +kernel
  obtain ⟨c, hc⟩ := Option.isSome_iff_exists.mp hrun
  refine ⟨c, hc, fun hall => ?_⟩
  have hiff := (baseLoop_img [512] hc fun x (_ : 0 ≤ x) => (rfl : _ = (fun _ => (1 : UInt8)) x)).2
  obtain ⟨hzero, _⟩ := hiff.mp (fun x _ hx => hall x hx) (by decide)
  exact absurd (hzero (by decide +kernel) 0 le_rfl (by decide)) (by decide)

end CDP
