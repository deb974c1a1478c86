import DmCdp.Daemon.Copy

/-!
# Dirty extents and the loop of `recover`

* `bitmapExtents`   `bitmap_extents`: the runs of set bits, in sectors;
* `byteExtents`     the offsets and lengths that `recover` computes from them;
* `advance`         the loop of `recover` after a chunk: `n` bytes came back;
* `copyChunk`       `copy_chunk` without another thread in between.
-/

set_option linter.unusedVariables false

namespace CDP
open Img

/-! ## extents -/

/-- the loop of `bitmap_extents`, with `k` iterations left; `start` is its variable -/
def extentLoop (bm : Nat → Bool) (cs nbits : Nat) : Nat → Nat → Option Nat → List (Nat × Nat)
  | 0, _, _ => []
  | k + 1, i, start =>
    match decide (i < nbits) && bm i, start with
    | true, none => extentLoop bm cs nbits k (i + 1) (some i)
    | false, some a => (a * cs, (i - a) * cs) :: extentLoop bm cs nbits k (i + 1) none
    | _, _ => extentLoop bm cs nbits k (i + 1) start

/-- `bitmap_extents(bm, chunk_sectors, nbits)`: sectors and numbers of sectors -/
def bitmapExtents (bm : Nat → Bool) (cs nbits : Nat) : List (Nat × Nat) :=
  extentLoop bm cs nbits (nbits + 1) 0 none

/-- chunk `c` lies in one of the extents -/
def Covered (cs : Nat) (l : List (Nat × Nat)) (c : Nat) : Prop :=
  ∃ e ∈ l, e.1 ≤ c * cs ∧ (c + 1) * cs ≤ e.1 + e.2

theorem Covered.cons {cs c : Nat} {l : List (Nat × Nat)} (e : Nat × Nat) (h : Covered cs l c) :
    Covered cs (e :: l) c := by
  obtain ⟨d, hd, h1⟩ := h
  exact ⟨d, List.mem_cons_of_mem e hd, h1⟩

theorem run_covers {cs a i c : Nat} (h1 : a ≤ c) (h2 : c < i) (l : List (Nat × Nat)) :
    Covered cs ((a * cs, (i - a) * cs) :: l) c := by
  refine ⟨_, List.mem_cons_self, Nat.mul_le_mul_right cs h1, ?_⟩
  show (c + 1) * cs ≤ a * cs + (i - a) * cs
  rw [← Nat.add_mul]
  exact Nat.mul_le_mul_right cs (by omega)

/-- every chunk of the open run, and every set bit still ahead, ends up in an extent -/
theorem extentLoop_covers {bm : Nat → Bool} {cs nbits c : Nat} (hc : c < nbits) :
    ∀ {k i : Nat} {start : Option Nat}, i + k = nbits + 1 →
      (∀ a, start = some a → a < i ∧ i ≤ nbits) →
      ((∃ a, start = some a ∧ a ≤ c ∧ c < i) ∨ (i ≤ c ∧ bm c = true)) →
      Covered cs (extentLoop bm cs nbits k i start) c := by
  intro k
  induction k with
  | zero =>
    rintro i start hk hs (⟨a, ha, _⟩ | ⟨h1, _⟩)
    · have := (hs a ha).2
      omega
    · omega
  | succ k ih =>
    intro i start hk hs h
    unfold extentLoop
    cases hbit : decide (i < nbits) && bm i with
    | true =>
      rw [Bool.and_eq_true, decide_eq_true_eq] at hbit
      cases start with
      | none =>
        refine ih (by omega) (fun a e => ?_) ?_
        · obtain rfl := Option.some.inj e
          omega
        · rcases h with ⟨a, ha, _⟩ | ⟨h1, h2⟩
          · cases ha
          · by_cases hci : c = i
            · exact Or.inl ⟨i, rfl, by omega, by omega⟩
            · exact Or.inr ⟨by omega, h2⟩
      | some a =>
        have ha := hs a rfl
        refine ih (by omega) (fun b e => ?_) ?_
        · obtain rfl := Option.some.inj e
          omega
        · rcases h with ⟨b, hb, h1, h2⟩ | ⟨h1, h2⟩
          · exact Or.inl ⟨b, hb, h1, by omega⟩
          · by_cases hci : c = i
            · exact Or.inl ⟨a, rfl, by omega, by omega⟩
            · exact Or.inr ⟨by omega, h2⟩
    | false =>
      have hne : i ≤ c → bm c = true → i + 1 ≤ c := by
        intro h1 h2
        by_contra hlt
        obtain rfl : c = i := by omega
        rw [decide_eq_true hc, h2] at hbit
        exact absurd hbit (by decide)
      cases start with
      | none =>
        rcases h with ⟨a, ha, _⟩ | ⟨h1, h2⟩
        · cases ha
        · exact ih (by omega) (fun a e => by cases e) (Or.inr ⟨hne h1 h2, h2⟩)
      | some a =>
        rcases h with ⟨b, hb, h1, h2⟩ | ⟨h1, h2⟩
        · obtain rfl := Option.some.inj hb
          exact run_covers h1 h2 _
        · exact Covered.cons _
            (ih (by omega) (fun a e => by cases e) (Or.inr ⟨hne h1 h2, h2⟩))

/-- **Every set bit is in an extent.** -/
theorem bitmapExtents_covers {bm : Nat → Bool} (cs : Nat) {nbits c : Nat} (hc : c < nbits)
    (hb : bm c = true) : Covered cs (bitmapExtents bm cs nbits) c :=
  extentLoop_covers hc (by omega) (fun a e => by cases e) (Or.inr ⟨Nat.zero_le c, hb⟩)

/-! ## the loop of `recover` -/

/-- `off, remaining` of each extent, in bytes -/
def byteExtents (l : List (Nat × Nat)) : List (Nat × Nat) := l.map fun e => (e.1 * 512, e.2 * 512)

/-- byte `x` is still to be copied -/
def InExtents (l : List (Nat × Nat)) (x : Nat) : Prop := ∃ e ∈ l, e.1 ≤ x ∧ x < e.1 + e.2

theorem inExtents_of_covered {cs x : Nat} {l : List (Nat × Nat)} (hcs : 0 < cs)
    (h : Covered cs l (x / 512 / cs)) : InExtents (byteExtents l) x := by
  obtain ⟨e, he, h1, h2⟩ := h
  have h3 : x / 512 / cs * cs ≤ x / 512 := Nat.div_mul_le_self _ _
  have h4 : x / 512 < (x / 512 / cs + 1) * cs := by
    have := Nat.lt_div_mul_add (a:=x / 512) hcs
    rw [Nat.add_mul, Nat.one_mul]
    exact this
  refine ⟨_, List.mem_map_of_mem he, ?_, ?_⟩
  · show e.1 * 512 ≤ x
    omega
  · show x < e.1 * 512 + e.2 * 512
    omega

def CopyChunk : Nat := 4194304

/-- `n` bytes read at `off`, of `len` asked for, on a device of `size` bytes: at least one before
the end, none behind it -/
def ReadLen (size off len n : Nat) : Prop :=
  if off < size then 1 ≤ n ∧ n ≤ len ∧ off + n ≤ size else n = 0

instance (size off len n : Nat) : Decidable (ReadLen size off len n) := by
  unfold ReadLen
  infer_instance

/-- what `dev.read` may return -/
def ChunkPc.ReadOk (size m : Nat) : ChunkPc → Prop
  | .flagged off n => ReadLen size off n m
  | _ => True

instance (size m : Nat) (pc : ChunkPc) : Decidable (pc.ReadOk size m) := by
  unfold ChunkPc.ReadOk
  exact match pc with
    | .flagged off n => inferInstanceAs (Decidable (ReadLen size off n m))
    | .idle | .holding _ _ _ | .stored _ _ _ | .replaying _ _ => inferInstanceAs (Decidable True)

/-- the extents that remain when the call of `copy_chunk` has returned `n` -/
def advance (n : Nat) : List (Nat × Nat) → List (Nat × Nat)
  | (off, rem) :: es => if n = 0 then es else (off + n, rem - n) :: es
  | [] => []

/-- a byte of the device leaves the extents only by being copied -/
theorem advance_covers {size off rem n x : Nat} {es : List (Nat × Nat)}
    (hr : ReadLen size off (min rem CopyChunk) n) (hx : x < size)
    (h : InExtents ((off, rem) :: es) x) :
    (off ≤ x ∧ x < off + n) ∨ InExtents (advance n ((off, rem) :: es)) x := by
  obtain ⟨e, he, h1, h2⟩ := h
  show _ ∨ InExtents (if n = 0 then es else (off + n, rem - n) :: es) x
  rcases List.mem_cons.mp he with rfl | he
  · change off ≤ x at h1
    change x < off + rem at h2
    unfold ReadLen at hr
    rw [if_pos (by omega)] at hr
    by_cases hxn : x < off + n
    · exact Or.inl ⟨h1, hxn⟩
    · right
      rw [if_neg (by omega)]
      refine ⟨_, List.mem_cons_self, ?_, ?_⟩
      · show off + n ≤ x
        omega
      · show x < off + n + (rem - n)
        omega
  · right
    split
    · exact ⟨e, he, h1, h2⟩
    · exact ⟨e, List.mem_cons_of_mem _ he, h1, h2⟩

/-! ## a chunk in one step -/

/-- `copy_chunk` with nothing in between: `n` bytes at `off` -/
def copyChunk (c : Shared) (dev : Nat → UInt8) (off n : Nat) : Shared :=
  { c with img := blit c.img off n fun i => dev (off + i), copying := none, deferred := [] }

/-- **The steps of `copy_chunk`, taken together.** -/
theorem copyChunk_steps (c : Shared) (dev : Nat → UInt8) {off len n : Nat} (h : n ≤ len) :
    ((chunkStep false dev n (c.flag off len) (.flagged off len)).bind fun p =>
      (chunkStep false dev 0 p.1 p.2).bind fun p => chunkStep false dev 0 p.1 p.2)
      = some (copyChunk c dev off n, .replaying n []) := by
  have h1 : chunkStep false dev n (c.flag off len) (.flagged off len)
      = some (c.flag off len, .holding off len (slice dev off n)) := if_pos h
  have himg : (((c.flag off len).store false off (slice dev off n)).release).img
      = (copyChunk c dev off n).img := by
    funext x
    have hskip : SkipOk false (c.flag off len) (.holding off len (slice dev off n)) :=
      fun e => absurd e (by decide)
    have hs := store_img hskip x
    refine hs.trans ?_
    unfold copyChunk
    dsimp only
    rw [length_slice]
    by_cases hx : off ≤ x ∧ x < off + n
    · rw [if_pos hx, blit_in _ hx, slice_getD dev (by omega : x - off < n)]
    · rw [if_neg hx, blit_out _ hx]
      rfl
  have hstore : (c.flag off len).store false off (slice dev off n) =
      { c.flag off len with img := ((c.flag off len).store false off (slice dev off n)).img } := by
    unfold Shared.store
    split <;> rfl
  have hrel : ((c.flag off len).store false off (slice dev off n)).release = copyChunk c dev off n := by
    change ((c.flag off len).store false off (slice dev off n)).img = _ at himg
    rw [hstore]
    unfold Shared.release
    dsimp only
    rw [himg]
    rfl
  have hdef : ((c.flag off len).store false off (slice dev off n)).deferred = [] := by
    rw [hstore]
    rfl
  rw [h1]
  show some (((c.flag off len).store false off (slice dev off n)).release,
    ChunkPc.replaying (slice dev off n).length
      ((c.flag off len).store false off (slice dev off n)).deferred) = _
  rw [hrel, hdef, length_slice]

end CDP
