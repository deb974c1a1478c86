import DmCdp.Daemon.Replica
import DmCdp.Lib.Sparse

/-!
# `SeedLayer` and `Replica`

The replica with its seed layer: `seed.raw` keeps what a chunk held at the seed point, written
before the chunk is first overwritten.  Which calls of `fallocate` succeed is a parameter.

* `SeedLayer.preserve`   the chunks of a range that are not saved yet;
* `Replica.write`        one record; `write_img`: the image gets the record's patch, whatever
                         `fallocate` does and with or without a seed layer;
* `preserve_chunk`       what `preserve` does to one chunk;
* `init_saved`          after a restart a chunk counts as saved if the file has data in it.
-/

set_option linter.unusedVariables false

namespace CDP
open Img

/-! ## the seed layer -/

def SeedChunk : Nat := 65536

theorem seedChunk_pos : 0 < SeedChunk := by decide

structure SeedLayer where
  raw : Sparse UInt8
  saved : Nat → Bool

def seedChunks (size : Nat) : Nat := (size + SeedChunk - 1) / SeedChunk

/-- `range(off // SEED_CHUNK, (off + length + SEED_CHUNK - 1) // SEED_CHUNK)` as its two ends -/
def chunkRange (off length : Nat) : Nat × Nat :=
  (off / SeedChunk, (off + length + SeedChunk - 1) / SeedChunk)

def dataRegions (raw : Sparse UInt8) (size : Nat) : List (Nat × Nat) := raw.regions size size 0

/-- the bits that `__init__` sets for one region -/
def markRange (saved : Nat → Bool) (p : Nat × Nat) : Nat → Bool :=
  fun c => saved c || (decide ((chunkRange p.1 p.2).1 ≤ c) && decide (c < (chunkRange p.1 p.2).2))

def SeedLayer.init (raw : Sparse UInt8) (size : Nat) : SeedLayer :=
  ⟨raw, (dataRegions raw size).foldl markRange fun _ => false⟩

/-- `os.pread(replica_fd, min(SEED_CHUNK, self.size - o), o)` -/
def oldChunk (size : Nat) (img : Nat → UInt8) (c : Nat) : List UInt8 :=
  slice img (c * SeedChunk) (min SeedChunk (size - c * SeedChunk))

/-- the body of the loop of `preserve` -/
def SeedLayer.save (size : Nat) (img : Nat → UInt8) (s : SeedLayer) (c : Nat) : SeedLayer :=
  if s.saved c then s
  else
    let old := oldChunk size img c
    -- a zero chunk is left a hole
    { raw := if allZero old then s.raw else s.raw.write (c * SeedChunk) old
      saved := fun i => i == c || s.saved i }

def SeedLayer.preserve (size : Nat) (img : Nat → UInt8) (s : SeedLayer) (off length : Nat) :
    SeedLayer :=
  match chunkRange off length with
  | (c0, c1) =>
    (List.range' c0 (min c1 (seedChunks size) - c0)).foldl (SeedLayer.save size img) s

/-! ## the replica -/

structure Replica where
  img : Nat → UInt8
  seed : Option SeedLayer
  punchOk : Bool
  -- the results of the calls of `fallocate` to come; once used up, it punches holes
  falloc : List Bool

/-- `Replica.__init__` on the files of another one -/
def Replica.reopen (size : Nat) (p : Replica) (falloc : List Bool) : Replica :=
  ⟨p.img, p.seed.map fun s => SeedLayer.init s.raw size, true, falloc⟩

/-- `if self.seed: self.seed.preserve(self.fd, off, length)` -/
def Replica.preserve (size : Nat) (p : Replica) (off length : Nat) : Replica :=
  { p with seed := p.seed.map fun s => s.preserve size p.img off length }

def Replica.pwrite (size : Nat) (p : Replica) (buf : List UInt8) (off : Nat) : Replica :=
  let p := p.preserve size off buf.length
  { p with img := putList p.img off buf }

/-- the fallback: `os.pwrite(self.fd, bytes(length), off)` -/
def Replica.zeroFill (p : Replica) (off length : Nat) : Replica :=
  { p with img := putList p.img off (List.replicate length 0), punchOk := false }

def Replica.punch (p : Replica) (off length : Nat) : Replica :=
  if p.punchOk then
    match p.falloc with
    | [] => { p with img := blit p.img off length fun _ => 0 }
    | true :: falloc => { p with img := blit p.img off length fun _ => 0, falloc := falloc }
    | false :: falloc => { p with falloc := falloc }.zeroFill off length
  else p.zeroFill off length

def Replica.write (size : Nat) (p : Replica) (r : Item) : Replica :=
  if r.hdr.type = RecWrite then p.pwrite size r.payload (r.hdr.sector * 512)
  else if r.hdr.type = RecDiscard ∨ r.hdr.type = RecZero then
    (p.preserve size (r.hdr.sector * 512) r.hdr.len).punch (r.hdr.sector * 512) r.hdr.len
  else p

theorem zeros_eq (img : Nat → UInt8) (off n : Nat) :
    putList img off (List.replicate n 0) = blit img off n fun _ => 0 := by
  unfold putList blit
  rw [List.length_replicate]
  congr 1
  apply span_congr
  intro i hi
  rw [List.getD_eq_getElem?_getD, List.getElem?_replicate_of_lt hi]
  rfl

section
variable {size off length : Nat} {p : Replica} {r : Item}

/-- a hole and the written zeros read the same -/
theorem punch_img : (p.punch off length).img = punch p.img off length := by
  unfold Replica.punch
  split
  · split
    · rfl
    · rfl
    · exact zeros_eq p.img off length
  · exact zeros_eq p.img off length

theorem punch_seed : (p.punch off length).seed = p.seed := by
  unfold Replica.punch
  split
  · split <;> rfl
  · rfl

/-- **The image gets the record's patch.** -/
theorem write_img : (p.write size r).img = overlay r.patch p.img := by
  rw [← replicaWrite_eq]
  unfold Replica.write replicaWrite
  split
  · rfl
  · split
    · exact punch_img
    · rfl

end

/-! ## one chunk -/

def InChunk (size c x : Nat) : Prop := x < size ∧ x / SeedChunk = c

instance (size c x : Nat) : Decidable (InChunk size c x) := inferInstanceAs (Decidable (_ ∧ _))

/-- a chunk that reads as zeros -/
def ZeroAt (size : Nat) (img : Nat → UInt8) (c : Nat) : Prop := ∀ x, InChunk size c x → img x = 0

theorem inChunk_iff {size c x : Nat} : InChunk size c x ↔
    c * SeedChunk ≤ x ∧ x < c * SeedChunk + min SeedChunk (size - c * SeedChunk) := by
  have hS := seedChunk_pos
  unfold InChunk
  rw [Nat.div_eq_iff hS]
  generalize SeedChunk = S at *
  generalize c * S = o
  omega

theorem allZero_chunk {size c : Nat} {img : Nat → UInt8} :
    allZero (oldChunk size img c) = true ↔ ZeroAt size img c := by
  unfold oldChunk
  rw [allZero_slice]
  constructor
  · intro h x hx
    exact h x (inChunk_iff.mp hx).1 (inChunk_iff.mp hx).2
  · intro h x h1 h2
    exact h x (inChunk_iff.mpr ⟨h1, h2⟩)

section
variable {size c : Nat} {img : Nat → UInt8} {s : SeedLayer}

/-- the bytes that a chunk's `pwrite` covers are the chunk -/
theorem inChunk_old {x : Nat} : InChunk size c x ↔
    c * SeedChunk ≤ x ∧ x < c * SeedChunk + (oldChunk size img c).length := by
  unfold oldChunk
  rw [length_slice]
  exact inChunk_iff

theorem getElem?_old {x : Nat} (hx : InChunk size c x) :
    (oldChunk size img c)[x - c * SeedChunk]? = some (img x) := by
  have h := inChunk_iff.mp hx
  unfold oldChunk
  rw [getElem?_slice, if_pos (by omega)]
  congr 2
  omega

theorem save_saved (c' : Nat) :
    (s.save size img c').saved c = true ↔ c = c' ∨ s.saved c = true := by
  unfold SeedLayer.save
  split
  · rename_i h
    constructor
    · exact Or.inr
    · rintro (rfl | h2)
      · exact h
      · exact h2
  · simp

theorem save_raw (size : Nat) (img : Nat → UInt8) (s : SeedLayer) (c' : Nat) :
    (s.save size img c').raw = s.raw ∨ s.saved c' = false ∧ ¬ZeroAt size img c' ∧
      (s.save size img c').raw = s.raw.write (c' * SeedChunk) (oldChunk size img c') := by
  unfold SeedLayer.save
  split
  · exact Or.inl rfl
  · rename_i hs
    by_cases hz : allZero (oldChunk size img c') = true
    · exact Or.inl (if_pos hz)
    · exact Or.inr ⟨Bool.eq_false_iff.mpr hs, fun h => hz (allZero_chunk.mpr h), if_neg hz⟩

theorem save_other {c' x : Nat} (hc : c' ≠ c) (hx : InChunk size c x) :
    (s.save size img c').raw.byte x = s.raw.byte x := by
  rcases save_raw size img s c' with e | ⟨_, _, e⟩
  · rw [e]
  · rw [e]
    exact Sparse.write_out fun h => hc ((inChunk_old.mpr h).2.symm.trans hx.2)

theorem save_same {x : Nat} (hs : s.saved c = false) (hz : ¬ZeroAt size img c)
    (hx : InChunk size c x) : (s.save size img c).raw.byte x = some (img x) := by
  have e : (s.save size img c).raw = s.raw.write (c * SeedChunk) (oldChunk size img c) := by
    unfold SeedLayer.save
    rw [if_neg (by rw [hs]; exact Bool.false_ne_true)]
    exact if_neg fun ha => hz (allZero_chunk.mp ha)
  rw [e, Sparse.write_in (inChunk_old.mp hx), getElem?_old hx]

theorem save_zero (hz : ZeroAt size img c) : (s.save size img c).raw = s.raw := by
  unfold SeedLayer.save
  split
  · rfl
  · exact if_pos (allZero_chunk.mpr hz)

theorem save_done (hs : s.saved c = true) : s.save size img c = s := if_pos hs

/-- the file has no data behind the disk -/
def SeedLayer.Bounded (size : Nat) (s : SeedLayer) : Prop := ∀ x, s.raw.byte x ≠ none → x < size

theorem save_bounded (hb : s.Bounded size) (c' : Nat) : (s.save size img c').Bounded size := by
  intro x hx
  rcases save_raw size img s c' with e | ⟨_, _, e⟩
  · rw [e] at hx
    exact hb x hx
  · rw [e] at hx
    by_cases h : c' * SeedChunk ≤ x ∧ x < c' * SeedChunk + (oldChunk size img c').length
    · exact (inChunk_old.mpr h).1
    · rw [Sparse.write_out h] at hx
      exact hb x hx

/-- what a call of `preserve` does to chunk `c`; `hit`: the chunk is in its range -/
structure SavedBy (size : Nat) (img : Nat → UInt8) (c : Nat) (hit : Prop) (s s' : SeedLayer) :
    Prop where
  saved : s'.saved c = true ↔ hit ∨ s.saved c = true
  fresh : hit → s.saved c = false → ¬ZeroAt size img c →
    ∀ x, InChunk size c x → s'.raw.byte x = some (img x)
  kept : ¬hit ∨ s.saved c = true ∨ ZeroAt size img c →
    ∀ x, InChunk size c x → s'.raw.byte x = s.raw.byte x

theorem foldl_save (cs : List Nat) : ∀ s : SeedLayer,
    SavedBy size img c (c ∈ cs) s (cs.foldl (SeedLayer.save size img) s) := by
  induction cs with
  | nil =>
    intro s
    exact ⟨by simp, fun h => absurd h List.not_mem_nil, fun _ x hx => rfl⟩
  | cons c' cs ih =>
    intro s
    have h := ih (s.save size img c')
    rw [List.foldl_cons]
    by_cases hc : c' = c
    · subst hc
      refine ⟨?_, fun _ hs hz x hx => ?_, fun hk x hx => ?_⟩
      · rw [h.saved, save_saved, List.mem_cons]
        tauto
      · rw [h.kept (Or.inr (Or.inl (save_saved c' |>.mpr (Or.inl rfl)))) x hx, save_same hs hz hx]
      · rw [h.kept (Or.inr (Or.inl (save_saved c' |>.mpr (Or.inl rfl)))) x hx]
        rcases hk with hk | hk | hk
        · exact absurd List.mem_cons_self hk
        · rw [save_done hk]
        · rw [save_zero hk]
    · have hs' : (s.save size img c').saved c = true ↔ s.saved c = true := by
        rw [save_saved]
        exact or_iff_right (Ne.symm hc)
      have hmem : c ∈ c' :: cs ↔ c ∈ cs := by
        rw [List.mem_cons]
        exact or_iff_right (Ne.symm hc)
      rw [hmem]
      refine ⟨by rw [h.saved, hs'], fun hin hs hz x hx => ?_, fun hk x hx => ?_⟩
      · refine h.fresh hin ?_ hz x hx
        rw [Bool.eq_false_iff, Ne, hs', hs]
        exact Bool.false_ne_true
      · rw [h.kept (by rw [hs']; exact hk) x hx, save_other hc hx]

theorem foldl_bounded (cs : List Nat) : ∀ {s : SeedLayer}, s.Bounded size →
    (cs.foldl (SeedLayer.save size img) s).Bounded size := by
  induction cs with
  | nil => intro s hb; exact hb
  | cons c' cs ih => intro s hb; exact ih (save_bounded hb c')

/-- chunk `c` is in the range that `preserve` goes over -/
def Reaches (off length c : Nat) : Prop :=
  (chunkRange off length).1 ≤ c ∧ c < (chunkRange off length).2

instance (off length c : Nat) : Decidable (Reaches off length c) :=
  inferInstanceAs (Decidable (_ ∧ _))

/-- **`preserve`, chunk by chunk.** -/
theorem preserve_chunk {off length : Nat} (hc : c < seedChunks size) :
    SavedBy size img c (Reaches off length c) s (s.preserve size img off length) := by
  have hmem : c ∈ List.range' (chunkRange off length).1
      (min (chunkRange off length).2 (seedChunks size) - (chunkRange off length).1)
      ↔ Reaches off length c := by
    rw [List.mem_range'_1]
    unfold Reaches
    omega
  rw [← hmem]
  exact foldl_save _ s

theorem preserve_bounded {off length : Nat} (hb : s.Bounded size) :
    (s.preserve size img off length).Bounded size := foldl_bounded _ hb

theorem reaches_of_mem {off length x : Nat} (h1 : off ≤ x) (h2 : x < off + length) :
    Reaches off length (x / SeedChunk) := by
  have hS := seedChunk_pos
  refine ⟨Nat.div_le_div_right h1, ?_⟩
  show x / SeedChunk < (off + length + SeedChunk - 1) / SeedChunk
  generalize SeedChunk = S at *
  rw [Nat.lt_iff_add_one_le, ← Nat.add_div_right _ hS]
  exact Nat.div_le_div_right (by omega)

/-! ## after a restart -/

theorem foldl_mark (l : List (Nat × Nat)) (c : Nat) : ∀ saved : Nat → Bool,
    (l.foldl markRange saved c = true ↔
      saved c = true ∨ ∃ p ∈ l, Reaches p.1 p.2 c) := by
  induction l with
  | nil => intro saved; simp
  | cons p l ih =>
    intro saved
    rw [List.foldl_cons, ih, List.exists_mem_cons_iff, ← or_assoc]
    apply or_congr_left
    unfold markRange Reaches
    simp

theorem regions_pos {f : Sparse UInt8} {limit : Nat} (fuel : Nat) : ∀ (off : Nat) (p : Nat × Nat),
    p ∈ f.regions limit fuel off → 0 < p.2 := by
  induction fuel with
  | zero => intro off p hp; exact absurd hp List.not_mem_nil
  | succ fuel ih =>
    intro off p hp
    unfold Sparse.regions at hp
    split at hp
    · split at hp
      · exact absurd hp List.not_mem_nil
      · rename_i d hd
        split at hp
        · exact absurd hp List.not_mem_nil
        · rcases List.mem_cons.mp hp with rfl | hp
          · have h := (seekHole_spec (seekData_some hd).2.1).1
            exact Nat.sub_pos_of_lt h
          · exact ih _ p hp
    · exact absurd hp List.not_mem_nil

theorem mem_of_reaches {off length c : Nat} (hn : 0 < length) (h : Reaches off length c) :
    ∃ x, off ≤ x ∧ x < off + length ∧ x / SeedChunk = c := by
  have hS := seedChunk_pos
  obtain ⟨h1, h2⟩ : off / SeedChunk ≤ c ∧ c < (off + length + SeedChunk - 1) / SeedChunk := h
  generalize SeedChunk = S at *
  have h3 : off < (c + 1) * S := (Nat.div_lt_iff_lt_mul hS).mp (by omega)
  have h4 : (c + 1) * S ≤ off + length + S - 1 := (Nat.le_div_iff_mul_le hS).mp h2
  rw [Nat.add_mul, Nat.one_mul] at h3 h4
  refine ⟨max off (c * S), by omega, by omega, ?_⟩
  rw [Nat.div_eq_iff hS]
  generalize c * S = o at *
  omega

/-- **After a restart a chunk counts as saved if the file has data in it.** -/
theorem init_saved {raw : Sparse UInt8} (hb : ∀ x, raw.byte x ≠ none → x < size) :
    (SeedLayer.init raw size).saved c = true ↔ ∃ x, InChunk size c x ∧ raw.byte x ≠ none := by
  have hmem := fun x => mem_regions hb x size 0 (by omega)
  unfold SeedLayer.init dataRegions
  dsimp only
  rw [foldl_mark]
  constructor
  · rintro (h | ⟨p, hp, hr⟩)
    · exact absurd h Bool.false_ne_true
    · obtain ⟨x, h1, h2, h3⟩ := mem_of_reaches (regions_pos _ _ p hp) hr
      have hx := ((hmem x).mp ⟨p, hp, h1, h2⟩).2
      exact ⟨x, ⟨hb x hx, h3⟩, hx⟩
  · rintro ⟨x, hx, hne⟩
    obtain ⟨p, hp, h1, h2⟩ := (hmem x).mpr ⟨Nat.zero_le x, hne⟩
    exact Or.inr ⟨p, hp, hx.2 ▸ reaches_of_mem h1 h2⟩

end

end CDP
