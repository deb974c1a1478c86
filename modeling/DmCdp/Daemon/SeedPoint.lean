import DmCdp.Daemon.SeedLayer

/-!
# The seed overlay against the seed point

`rkcdp-rebuild --from seed` copies `replica.raw` and writes every non-hole region of `seed.raw` over the
copy.  The run is one of `Replica.pwrite`, `Replica.write` and restarts, by one thread, from the
moment `seed.raw` is first opened, empty.

* `kept_chunk`      a chunk in the file is laid back, whatever comes later;
* `full_chunk`      so a chunk that was not all zero at the seed point is restored;
* `zero_chunk`      a zero chunk stays a hole: it is restored if it is zero at the end and was zero
                    whenever an operation was the first since a restart to reach it;
* `seed_restores`   the overlay restores the seed point exactly in such runs (`ZeroKept`);
* `zero_not_restored`  a zero chunk that is written once.
-/

set_option linter.unusedVariables false

namespace CDP
open Img

/-! ## the run -/

inductive SeedOp where
  | pwrite (buf : List UInt8) (off : Nat)
  | write (r : Item)
  | restart (falloc : List Bool)

def seedStep (size : Nat) (p : Replica) : SeedOp → Replica
  | .pwrite buf off => p.pwrite size buf off
  | .write r => p.write size r
  | .restart falloc => p.reopen size falloc

/-- the moment `seed.raw` is first opened; `eof` is the size `rkcdp-seed` gave it -/
def Replica.opened (size eof : Nat) (img : Nat → UInt8) (ok : Bool) (falloc : List Bool) : Replica :=
  ⟨img, some (SeedLayer.init (Sparse.empty eof) size), ok, falloc⟩

def seedRun (size : Nat) (p : Replica) (ops : List SeedOp) : Replica := ops.foldl (seedStep size) p

def overlaySeed (seed : Sparse UInt8) (copy : Nat → UInt8) : Nat → UInt8 :=
  seed.layOver (4 * 2^20) seed.eof 0 copy

/-- a copy of `replica.raw` with `seed.raw` laid over it -/
def Replica.rebuilt (p : Replica) : Nat → UInt8 :=
  match p.seed with
  | none => p.img
  | some s => overlaySeed s.raw p.img

/-! ## what an operation reaches -/

/-- the range that is handed to `preserve` -/
def SeedOp.range : SeedOp → Option (Nat × Nat)
  | .pwrite buf off => some (off, buf.length)
  | .write r =>
    if r.hdr.type = RecWrite then some (r.hdr.sector * 512, r.payload.length)
    else if r.hdr.type = RecDiscard ∨ r.hdr.type = RecZero then some (r.hdr.sector * 512, r.hdr.len)
    else none
  | .restart _ => none

def SeedOp.patch : SeedOp → Nat → Option UInt8
  | .pwrite buf off => span off buf.length fun i => buf.getD i default
  | .write r => r.patch
  | .restart _ => fun _ => none

def SeedOp.Hits (op : SeedOp) (c : Nat) : Prop :=
  match op.range with
  | some (off, length) => Reaches off length c
  | none => False

/-- chunk `c` has been reached since the last start -/
def SeedOp.touched (op : SeedOp) (c : Nat) (t : Prop) : Prop :=
  match op with
  | .restart _ => False
  | op => t ∨ op.Hits c

/-- **A zero chunk stays restorable**: it is zero at the end, and whenever an operation is the
first since a start to reach it -/
def ZeroKept (size c : Nat) : Prop → (Nat → UInt8) → List SeedOp → Prop
  | _, img, [] => ZeroAt size img c
  | t, img, op :: ops =>
    (op.Hits c → ¬t → ZeroAt size img c) ∧
      ZeroKept size c (op.touched c t) (overlay op.patch img) ops

section
variable {size c x : Nat} {img v : Nat → UInt8} {p : Replica} {s : SeedLayer} {op : SeedOp}

theorem overlaySeed_eq (seed : Sparse UInt8) (copy : Nat → UInt8) :
    overlaySeed seed copy x = (seed.byte x).getD (copy x) := by
  unfold overlaySeed
  rw [layOver_eq (by decide) x seed.eof 0 copy (by omega), if_pos (Nat.zero_le x)]

theorem rebuilt_eq (hs : p.seed = some s) : p.rebuilt x = (s.raw.byte x).getD (p.img x) := by
  unfold Replica.rebuilt
  rw [hs]
  exact overlaySeed_eq s.raw p.img

theorem seedStep_img (size : Nat) (p : Replica) (op : SeedOp) :
    (seedStep size p op).img = overlay op.patch p.img := by
  cases op with
  | pwrite buf off => rfl
  | write r => exact write_img
  | restart falloc => rfl

theorem seedRun_cons (size : Nat) (p : Replica) (op : SeedOp) (ops : List SeedOp) :
    seedRun size p (op :: ops) = seedRun size (seedStep size p op) ops := rfl

theorem hits_some {a : Nat × Nat} (h : op.range = some a) : op.Hits c ↔ Reaches a.1 a.2 c := by
  unfold SeedOp.Hits
  rw [h]

theorem hits_none (h : op.range = none) : op.Hits c ↔ False := by
  unfold SeedOp.Hits
  rw [h]

theorem span_range {off n : Nat} {f : Nat → UInt8} (h : span off n f x ≠ none) :
    off ≤ x ∧ x < off + n := not_not.mp (mt span_eq_none.mpr h)

theorem patch_range (h : op.patch x ≠ none) :
    ∃ a, op.range = some a ∧ a.1 ≤ x ∧ x < a.1 + a.2 := by
  cases op with
  | pwrite buf off =>
    have h' : span off buf.length (fun i => buf.getD i default) x ≠ none := h
    exact ⟨(off, buf.length), rfl, span_range h'⟩
  | write r =>
    unfold SeedOp.patch Item.patch at h
    unfold SeedOp.range
    dsimp only at h ⊢
    split at h
    · rename_i ht
      exact ⟨_, if_pos ht, span_range h⟩
    · rename_i ht
      rw [if_neg ht]
      split at h
      · rename_i hd
        exact ⟨_, if_pos hd, span_range h⟩
      · exact absurd rfl h
  | restart falloc => exact absurd rfl h

theorem hits_of_patch (h : op.patch x ≠ none) : op.Hits (x / SeedChunk) := by
  obtain ⟨a, ha, h1, h2⟩ := patch_range h
  exact (hits_some ha).mpr (reaches_of_mem h1 h2)

theorem img_of_not_hits (h : ¬op.Hits c) (hx : InChunk size c x) :
    (seedStep size p op).img x = p.img x := by
  have hn : op.patch x = none := by
    by_contra hc
    exact h (hx.2 ▸ hits_of_patch hc)
  rw [seedStep_img, overlay_none hn]

theorem chunk_lt (hx : InChunk size c x) : c < seedChunks size := by
  have hS := seedChunk_pos
  obtain ⟨h1, rfl⟩ := hx
  unfold seedChunks
  generalize SeedChunk = S at *
  rw [Nat.lt_iff_add_one_le, ← Nat.add_div_right _ hS]
  exact Nat.div_le_div_right (by omega)

theorem savedBy_rfl (size : Nat) (img : Nat → UInt8) (c : Nat) (s : SeedLayer) :
    SavedBy size img c False s s :=
  ⟨(or_iff_right id).symm, False.elim, fun _ _ _ => rfl⟩

/-- what becomes of the seed layer, by the range alone -/
theorem seedStep_seed (hs : p.seed = some s) (hr : ∀ l, op ≠ .restart l) :
    (seedStep size p op).seed = some (match op.range with
      | some (off, length) => s.preserve size p.img off length
      | none => s) := by
  have hpre : ∀ off length, (p.preserve size off length).seed
      = some (s.preserve size p.img off length) := fun off length => by
    show p.seed.map _ = _
    rw [hs]
    rfl
  cases op with
  | pwrite buf off => exact hpre off buf.length
  | write r =>
    show (p.write size r).seed = some (match (if _ then _ else _ : Option (Nat × Nat)) with
      | some (off, length) => s.preserve size p.img off length
      | none => s)
    unfold Replica.write
    split
    · exact hpre _ _
    · split
      · exact punch_seed.trans (hpre _ _)
      · exact hs
  | restart falloc => exact absurd rfl (hr falloc)

theorem seedStep_chunk (hs : p.seed = some s) (hb : s.Bounded size) (hc : c < seedChunks size)
    (hr : ∀ l, op ≠ .restart l) : ∃ s', (seedStep size p op).seed = some s' ∧
      s'.Bounded size ∧ SavedBy size p.img c (op.Hits c) s s' := by
  refine ⟨_, seedStep_seed hs hr, ?_⟩
  cases h : op.range with
  | none =>
    rw [hits_none h]
    exact ⟨hb, savedBy_rfl size p.img c s⟩
  | some a =>
    rw [hits_some h]
    exact ⟨preserve_bounded hb, preserve_chunk hc⟩

theorem touched_iff (hr : ∀ l, op ≠ .restart l) (t : Prop) : op.touched c t ↔ t ∨ op.Hits c := by
  cases op with
  | pwrite buf off => exact Iff.rfl
  | write r => exact Iff.rfl
  | restart falloc => exact absurd rfl (hr falloc)

theorem restart_chunk (hs : p.seed = some s) (hb : s.Bounded size) (falloc : List Bool) :
    ∃ s', (seedStep size p (.restart falloc)).seed = some s' ∧ s'.Bounded size ∧ s'.raw = s.raw ∧
      (s'.saved c = true ↔ ∃ x, InChunk size c x ∧ s.raw.byte x ≠ none) := by
  refine ⟨SeedLayer.init s.raw size, ?_, hb, rfl, init_saved hb⟩
  show p.seed.map _ = _
  rw [hs]
  rfl

/-! ## a chunk over a run -/

/-- **A chunk that is in the file is laid back**, whatever comes later. -/
theorem kept_chunk (hx : InChunk size c x) (ops : List SeedOp) : ∀ (p : Replica) (s : SeedLayer),
    p.seed = some s → s.Bounded size → s.saved c = true →
      (∀ y, InChunk size c y → s.raw.byte y = some (v y)) →
      (seedRun size p ops).rebuilt x = v x := by
  induction ops with
  | nil =>
    intro p s hs hb hsv hv
    show p.rebuilt x = v x
    rw [rebuilt_eq hs, hv x hx]
    rfl
  | cons op ops ih =>
    intro p s hs hb hsv hv
    rw [seedRun_cons]
    by_cases hr : ∃ l, op = .restart l
    · obtain ⟨l, rfl⟩ := hr
      obtain ⟨s', h1, h2, h3, h4⟩ := restart_chunk (c:=c) hs hb l
      refine ih _ s' h1 h2 (h4.mpr ⟨x, hx, ?_⟩) fun y hy => by rw [h3]; exact hv y hy
      rw [hv x hx]
      exact Option.some_ne_none _
    · obtain ⟨s', h1, h2, h3⟩ := seedStep_chunk hs hb (chunk_lt hx) fun l e => hr ⟨l, e⟩
      exact ih _ s' h1 h2 (h3.saved.mpr (Or.inr hsv))
        fun y hy => by rw [h3.kept (Or.inr (Or.inl hsv)) y hy]; exact hv y hy

/-- **A chunk that was not all zero is restored.** -/
theorem full_chunk (hx : InChunk size c x) (hz : ¬ZeroAt size v c) (ops : List SeedOp) :
    ∀ (p : Replica) (s : SeedLayer), p.seed = some s → s.Bounded size → s.saved c = false →
      (∀ y, InChunk size c y → s.raw.byte y = none) → (∀ y, InChunk size c y → p.img y = v y) →
      (seedRun size p ops).rebuilt x = v x := by
  induction ops with
  | nil =>
    intro p s hs hb hsv hraw himg
    show p.rebuilt x = v x
    rw [rebuilt_eq hs, hraw x hx]
    exact himg x hx
  | cons op ops ih =>
    intro p s hs hb hsv hraw himg
    have hz' : ¬ZeroAt size p.img c := fun h => hz fun y hy => (himg y hy).symm.trans (h y hy)
    rw [seedRun_cons]
    by_cases hr : ∃ l, op = .restart l
    · obtain ⟨l, rfl⟩ := hr
      obtain ⟨s', h1, h2, h3, h4⟩ := restart_chunk (c:=c) hs hb l
      refine ih _ s' h1 h2 ?_ (fun y hy => by rw [h3]; exact hraw y hy) himg
      rw [Bool.eq_false_iff, Ne, h4]
      rintro ⟨y, hy, hne⟩
      exact hne (hraw y hy)
    · obtain ⟨s', h1, h2, h3⟩ := seedStep_chunk hs hb (chunk_lt hx) fun l e => hr ⟨l, e⟩
      by_cases hit : op.Hits c
      · refine kept_chunk hx ops _ s' h1 h2 (h3.saved.mpr (Or.inl hit)) fun y hy => ?_
        rw [h3.fresh hit hsv hz' y hy, himg y hy]
      · refine ih _ s' h1 h2 ?_ (fun y hy => ?_) fun y hy => ?_
        · rw [Bool.eq_false_iff, Ne, h3.saved]
          rintro (h | h)
          · exact hit h
          · exact Bool.false_ne_true (hsv.symm.trans h)
        · rw [h3.kept (Or.inl hit) y hy, hraw y hy]
        · rw [img_of_not_hits hit hy, himg y hy]

theorem not_zeroAt (h : ¬ZeroAt size img c) : ∃ x, InChunk size c x ∧ img x ≠ 0 := by
  unfold ZeroAt at h
  push Not at h
  exact h

/-- **A zero chunk reads as zeros in the end exactly if it was kept so.** -/
theorem zero_chunk (hc : c < seedChunks size) (ops : List SeedOp) :
    ∀ (t : Prop) (p : Replica) (s : SeedLayer), p.seed = some s → s.Bounded size →
      (s.saved c = true ↔ t) → (∀ y, InChunk size c y → s.raw.byte y = none) →
      ((∀ x, InChunk size c x → (seedRun size p ops).rebuilt x = 0) ↔
        ZeroKept size c t p.img ops) := by
  induction ops with
  | nil =>
    intro t p s hs hb ht hraw
    refine forall_congr' fun x => imp_congr_right fun hx => ?_
    show p.rebuilt x = 0 ↔ p.img x = 0
    rw [rebuilt_eq hs, hraw x hx]
    exact Iff.rfl
  | cons op ops ih =>
    intro t p s hs hb ht hraw
    rw [seedRun_cons]
    unfold ZeroKept
    rw [← seedStep_img size p op]
    by_cases hr : ∃ l, op = .restart l
    · obtain ⟨l, rfl⟩ := hr
      obtain ⟨s', h1, h2, h3, h4⟩ := restart_chunk (c:=c) hs hb l
      have hn : ¬SeedOp.Hits (.restart l) c := id
      rw [and_iff_right fun h => absurd h hn]
      refine ih _ _ s' h1 h2 ?_ fun y hy => by rw [h3]; exact hraw y hy
      rw [h4]
      exact ⟨fun ⟨y, hy, hne⟩ => hne (hraw y hy), False.elim⟩
    · have hr' : ∀ l, op ≠ .restart l := fun l e => hr ⟨l, e⟩
      obtain ⟨s', h1, h2, h3⟩ := seedStep_chunk hs hb hc hr'
      by_cases hgood : op.Hits c → ¬t → ZeroAt size p.img c
      · rw [and_iff_right hgood]
        refine ih _ _ s' h1 h2 ?_ fun y hy => ?_
        · rw [h3.saved, ht, touched_iff hr', or_comm]
        · rw [h3.kept _ y hy, hraw y hy]
          rw [ht]
          tauto
      · -- what is saved now is not what the chunk held at the seed point
        rw [iff_false_right fun h => hgood h.1]
        push Not at hgood
        obtain ⟨hit, hnt, hz⟩ := hgood
        obtain ⟨x, hx, hne⟩ := not_zeroAt hz
        have hsv : s.saved c = false := Bool.eq_false_iff.mpr fun h => hnt (ht.mp h)
        have hlast := kept_chunk hx ops _ s' h1 h2 (h3.saved.mpr (Or.inl hit)) (h3.fresh hit hsv hz)
        exact fun h => hne (hlast.symm.trans (h x hx))

/-! ## the seed point -/

/-- **The overlay restores the seed point** exactly in the runs that keep every zero chunk
restorable. -/
theorem seed_restores (size eof : Nat) (img : Nat → UInt8) (ok : Bool) (falloc : List Bool)
    (ops : List SeedOp) :
    (∀ x, x < size → (seedRun size (Replica.opened size eof img ok falloc) ops).rebuilt x = img x) ↔
      ∀ c, c < seedChunks size → ZeroAt size img c → ZeroKept size c False img ops := by
  have hb : (SeedLayer.init (Sparse.empty eof) size).Bounded size := fun x hx => absurd rfl hx
  have hsv : ∀ c, ¬(SeedLayer.init (Sparse.empty eof) size).saved c = true := fun c h => by
    obtain ⟨x, _, hne⟩ := (init_saved hb).mp h
    exact hne rfl
  have hs : (Replica.opened size eof img ok falloc).seed
      = some (SeedLayer.init (Sparse.empty eof) size) := rfl
  constructor
  · intro h c hc hz
    refine (zero_chunk hc ops False _ _ hs hb (iff_false_intro (hsv c)) fun _ _ => rfl).mp ?_
    intro x hx
    rw [h x hx.1, hz x hx]
  · intro h x hlt
    have hx : InChunk size (x / SeedChunk) x := ⟨hlt, rfl⟩
    by_cases hz : ZeroAt size img (x / SeedChunk)
    · rw [hz x hx]
      exact (zero_chunk (chunk_lt hx) ops False _ _ hs hb (iff_false_intro (hsv _))
        fun _ _ => rfl).mpr (h _ (chunk_lt hx) hz) x hx
    · exact full_chunk hx hz ops _ _ hs hb (Bool.eq_false_iff.mpr (hsv _)) (fun _ _ => rfl)
        fun _ _ => rfl

end

/-- a disk of one sector of zeros, which is written once -/
theorem zero_not_restored :
    (seedRun 512 (Replica.opened 512 512 (fun _ => 0) true []) [.write (writeItem 0 0 1)]).rebuilt 0
      ≠ (fun _ => 0 : Nat → UInt8) 0 := by decide +kernel

-- zero again at the end, but not when it was first written after a restart
example : (seedRun 2 (Replica.opened 2 2 (fun _ => 0) true [])
    [.pwrite [1] 0, .restart [], .pwrite [0] 0]).rebuilt 0 = 1 := by decide +kernel

end CDP
