import DmCdp.Lib.Machine
import DmCdp.Daemon.Replica

/-!
# The copy protocol: one copy thread against the main thread

`ChunkInv dev c pc rest kept` is what holds between any two steps of a copy thread at `pc` and a
main thread that still has the writes `rest` to hand to `apply_one`: every byte of `kept` is fresh
once the waiting records and then `rest` are replayed, and so is what the thread has read or
stored of the chunk in flight.  One lemma for each step says how it is kept.

* `ChunkInv.take`     `apply_one` of a record, which may overtake waiting ones it does not meet;
* `ChunkInv.chunk`    the steps of `copy_chunk`;
* `copied_chunks`     once all is consumed, every copied chunk is the device, in a run in which no
                      record applied directly meets a waiting one in a copied chunk (`CopyOk`);
* `late_replay`       the run in which a late record overwrites a newer one.
-/

set_option linter.unusedVariables false

namespace CDP
open Img Mach

/-! ## the invariant -/

def ChunkPc.range : ChunkPc → Option (Nat × Nat)
  | .flagged off n => some (off, off + n)
  | .holding off n buf => some (off, off + n)
  | .stored off n m => some (off, off + n)
  | _ => none

def ChunkPc.covers (pc : ChunkPc) (x : Nat) : Prop := ∃ a b, pc.range = some (a, b) ∧ a ≤ x ∧ x < b

/-- the bytes that the end of the chunk adds to the copied ones -/
def ChunkPc.landed (pc : ChunkPc) (x : Nat) : Prop :=
  ∃ off n m, pc = .stored off n m ∧ off ≤ x ∧ x < off + m

structure ChunkInv (dev : Nat → UInt8) (c : Shared) (pc : ChunkPc)
    (rest : List (Nat → Option UInt8)) (kept : Nat → Prop) : Prop where
  copying : c.copying = pc.range
  empty : pc.range = none → c.deferred = []
  flight : ∀ x, pc.covers x → Newest (patches c.deferred ++ rest) dev x
  held : ∀ off n buf, pc = .holding off n buf → buf.length ≤ n ∧
    ∀ x, off ≤ x → x < off + buf.length →
      Fresh (patches c.deferred ++ rest) (fun y => buf.getD (y - off) default) dev x
  stored : ∀ off n m, pc = .stored off n m → m ≤ n ∧
    ∀ x, off ≤ x → x < off + m → Fresh (patches c.deferred ++ rest) c.img dev x
  kept : ∀ x, kept x → Fresh (patches (waiting c pc) ++ rest) c.img dev x

section
variable {dev : Nat → UInt8} {c c' : Shared} {pc pc' : ChunkPc}
  {rest A C : List (Nat → Option UInt8)} {kept kept' : Nat → Prop} {r : Item}

theorem ChunkInv.mono (h : ChunkInv dev c pc rest kept) (hk : ∀ x, kept' x → kept x) :
    ChunkInv dev c pc rest kept' :=
  ⟨h.copying, h.empty, h.flight, h.held, h.stored, fun x hx => h.kept x (hk x hx)⟩

theorem ChunkInv.write (h : ChunkInv dev c pc rest kept) (p : Nat → Option UInt8) :
    ChunkInv (overlay p dev) c pc (rest ++ [p]) kept := by
  refine ⟨h.copying, h.empty, fun x hx => ?_, fun off n buf e => ?_, fun off n m e => ?_,
    fun x hx => ?_⟩
  · rw [← List.append_assoc]
    exact newest_write (h.flight x hx)
  · refine ⟨(h.held off n buf e).1, fun x h1 h2 => ?_⟩
    rw [← List.append_assoc]
    exact fresh_write ((h.held off n buf e).2 x h1 h2)
  · refine ⟨(h.stored off n m e).1, fun x h1 h2 => ?_⟩
    rw [← List.append_assoc]
    exact fresh_write ((h.stored off n m e).2 x h1 h2)
  · rw [← List.append_assoc]
    exact fresh_write (h.kept x hx)

theorem not_defers_outside (h : c.copying = pc.range) (hd : ¬c.Defers r) {x : Nat}
    (hx : pc.covers x) : r.patch x = none := by
  obtain ⟨a, b, hr, h1, h2⟩ := hx
  by_contra hp
  obtain ⟨h3, h4⟩ := r.patch_range hp
  apply hd
  unfold Shared.Defers
  rw [h, hr]
  exact ⟨by omega, by omega⟩

/-- moving a record in front of ones it does not meet -/
theorem net_move {B : List (Nat → Option UInt8)} {p : Nat → Option UInt8} {x : Nat}
    (hc : Clear A p x) : net (B ++ [p] ++ (A ++ C)) x = net (B ++ (A ++ p :: C)) x := by
  rw [List.append_assoc, net_append, net_append B, net_take hc]
  rfl

/-- **`apply_one`** of a record from behind `A`.  Put off, it goes before `A`; applied at once, it
also overtakes the waiting records. -/
theorem ChunkInv.take (h : ChunkInv dev c pc (A ++ r.patch :: C) kept)
    (hA : ∀ x, Clear A r.patch x)
    (hW : ¬c.Defers r → ∀ x, kept x → Clear (patches (waiting c pc)) r.patch x) :
    ChunkInv dev (c.applyOne r) pc (A ++ C) kept := by
  by_cases hd : c.Defers r
  · rw [applyOne_defers hd]
    have hnet : ∀ x, net (patches (c.deferred ++ [r]) ++ (A ++ C)) x
        = net (patches c.deferred ++ (A ++ r.patch :: C)) x := by
      intro x
      rw [patches_snoc]
      exact net_move (hA x)
    refine ⟨h.copying, fun e => ?_, fun x hx v hv => ?_, fun off n buf e => ?_,
      fun off n m e => ?_, fun x hx => ?_⟩
    · unfold Shared.Defers at hd
      rw [h.copying, e] at hd
      exact hd.elim
    · exact h.flight x hx v ((hnet x).symm.trans hv)
    · refine ⟨(h.held off n buf e).1, fun x h1 h2 => ?_⟩
      have hx := (h.held off n buf e).2 x h1 h2
      unfold Fresh at hx ⊢
      rw [hnet x]
      exact hx
    · refine ⟨(h.stored off n m e).1, fun x h1 h2 => ?_⟩
      have hx := (h.stored off n m e).2 x h1 h2
      unfold Fresh at hx ⊢
      rw [hnet x]
      exact hx
    · have hx := h.kept x hx
      have hw : waiting { c with deferred := c.deferred ++ [r] } pc = waiting c pc ++ [r] :=
        (List.append_assoc _ _ _).symm
      unfold Fresh at hx ⊢
      rw [hw, patches_snoc, net_move (hA x)]
      exact hx
  · obtain ⟨e1, e2, e3⟩ := applyOne_direct hd
    have hout : ∀ x, pc.covers x → Clear (patches c.deferred ++ A) r.patch x :=
      fun x hx => Or.inr (not_defers_outside h.copying hd hx)
    refine ⟨e2.trans h.copying, fun e => e3.trans (h.empty e), fun x hx => ?_,
      fun off n buf e => ?_, fun off n m e => ?_, fun x hx => ?_⟩
    · have hn := h.flight x hx
      rw [← List.append_assoc] at hn
      rw [e3, ← List.append_assoc]
      exact newest_take hn (hout x hx)
    · refine ⟨(h.held off n buf e).1, fun x h1 h2 => ?_⟩
      have hb := (h.held off n buf e).1
      have hc : pc.covers x := ⟨off, off + n, by rw [e]; rfl, h1, by omega⟩
      have hx := (h.held off n buf e).2 x h1 h2
      rw [← List.append_assoc] at hx
      rw [e3, ← List.append_assoc]
      refine (fresh_take hx (hout x hc)).congr ?_
      show _ = (r.patch x).getD _
      rw [not_defers_outside h.copying hd hc]
      rfl
    · refine ⟨(h.stored off n m e).1, fun x h1 h2 => ?_⟩
      have hm := (h.stored off n m e).1
      have hc : pc.covers x := ⟨off, off + n, by rw [e]; rfl, h1, by omega⟩
      have hx := (h.stored off n m e).2 x h1 h2
      rw [← List.append_assoc] at hx
      rw [e1, e3, ← List.append_assoc]
      exact fresh_take hx (hout x hc)
    · have hw : waiting (c.applyOne r) pc = waiting c pc := by
        unfold waiting
        rw [e3]
      have hx' := h.kept x hx
      rw [← List.append_assoc] at hx'
      rw [e1, hw, ← List.append_assoc]
      exact fresh_take hx' (clear_append.mpr ⟨hW hd x hx, hA x⟩)

theorem ChunkInv.flag (h : ChunkInv dev c .idle rest kept) (off n : Nat)
    (hn : ∀ x, off ≤ x → x < off + n → Newest rest dev x) :
    ChunkInv dev (c.flag off n) (.flagged off n) rest kept := by
  refine ⟨rfl, fun e => rfl, ?_, fun _ _ _ e => ?_, fun _ _ _ e => ?_, fun x hx => ?_⟩
  · rintro x ⟨a, b, e, h1, h2⟩
    cases e
    exact hn x h1 h2
  · cases e
  · cases e
  · have hx := h.kept x hx
    unfold waiting at hx
    rw [h.empty rfl] at hx
    exact hx

theorem pwrite_in {img : Nat → UInt8} {buf : List UInt8} {off x : Nat} (h1 : off ≤ x)
    (h2 : x < off + buf.length) : pwrite img buf off x = buf.getD (x - off) default :=
  blit_in _ ⟨h1, h2⟩

theorem pwrite_out {img : Nat → UInt8} {buf : List UInt8} {off x : Nat}
    (h : ¬(off ≤ x ∧ x < off + buf.length)) : pwrite img buf off x = img x := blit_out _ h

theorem slice_getD (m : Nat → UInt8) {off n i : Nat} (h : i < n) :
    (slice m off n).getD i default = m (off + i) := by
  rw [List.getD_eq_getElem?_getD, getElem?_slice, if_pos h]
  rfl

theorem allZero_getD {buf : List UInt8} (h : allZero buf = true) (i : Nat) :
    buf.getD i default = 0 := by
  rw [List.getD_eq_getElem?_getD]
  cases hi : buf[i]? with
  | none => rfl
  | some b => exact beq_iff_eq.mp (List.all_eq_true.mp h b (List.mem_of_getElem? hi))

/-- what a chunk that is not written, because it is zero, asks of the replica -/
def SkipOk (skip : Bool) (c : Shared) (pc : ChunkPc) : Prop :=
  skip = true → ∀ off n buf, pc = .holding off n buf → allZero buf = true →
    ∀ x, off ≤ x → x < off + buf.length → c.img x = 0

theorem store_img {skip : Bool} {off n : Nat} {buf : List UInt8}
    (hs : SkipOk skip c (.holding off n buf)) (x : Nat) :
    (c.store skip off buf).img x =
      if off ≤ x ∧ x < off + buf.length then buf.getD (x - off) default else c.img x := by
  unfold Shared.store
  by_cases hx : off ≤ x ∧ x < off + buf.length
  · rw [if_pos hx]
    split
    · exact pwrite_in hx.1 hx.2
    · rename_i hc
      have hne : buf ≠ [] := by
        rintro rfl
        rw [List.length_nil] at hx
        omega
      have hz : skip = true ∧ allZero buf = true := by
        by_contra hz
        exact hc ⟨hne, hz⟩
      rw [allZero_getD hz.2]
      exact hs hz.1 off n buf rfl hz.2 x hx.1 hx.2
  · rw [if_neg hx]
    split
    · exact pwrite_out hx
    · rfl

theorem store_same (c : Shared) (skip : Bool) (off : Nat) (buf : List UInt8) :
    (c.store skip off buf).copying = c.copying ∧ (c.store skip off buf).deferred = c.deferred := by
  unfold Shared.store
  split <;> exact ⟨rfl, rfl⟩

/-- **The steps of `copy_chunk`.**  With the end of the chunk its bytes are kept too. -/
theorem ChunkInv.chunk {skip : Bool} {m : Nat} (h : ChunkInv dev c pc rest kept)
    (hs : chunkStep skip dev m c pc = some (c', pc')) (hz : SkipOk skip c pc) :
    ChunkInv dev c' pc' rest (fun x => kept x ∨ pc.landed x) := by
  have hland : (∀ off n m, pc ≠ .stored off n m) → ∀ x, (kept x ∨ pc.landed x) → kept x := by
    rintro hp x (hx | ⟨off, n, m, e, _⟩)
    · exact hx
    · exact absurd e (hp off n m)
  cases pc with
  | idle => exact absurd hs (by simp [chunkStep])
  | flagged off n =>
    change (if m ≤ n then _ else none) = _ at hs
    split at hs
    · rename_i hm
      obtain ⟨rfl, rfl⟩ := Prod.mk.inj (Option.some.inj hs)
      refine ⟨h.copying, h.empty, h.flight, fun off' n' buf e => ?_, fun _ _ _ e => ?_,
        fun x hx => h.kept x (hland (fun _ _ _ e => ?_) x hx)⟩
      · cases e
        rw [length_slice]
        refine ⟨hm, fun x h1 h2 => ?_⟩
        refine fresh_of_read (h.flight x ⟨off, off + n, rfl, h1, by omega⟩) ?_
        rw [slice_getD dev (by omega : x - off < m)]
        congr 1
        omega
      · cases e
      · cases e
    · exact absurd hs (by simp)
  | holding off n buf =>
    obtain ⟨rfl, rfl⟩ := Prod.mk.inj (Option.some.inj hs)
    obtain ⟨hlen, hheld⟩ := h.held off n buf rfl
    obtain ⟨e1, e2⟩ := store_same c skip off buf
    have himg := store_img hz
    refine ⟨e1.trans h.copying, fun e => e2.trans (h.empty e), ?_, fun _ _ _ e => ?_,
      fun _ _ _ e => ?_, fun x hx => ?_⟩
    · rw [e2]
      exact h.flight
    · cases e
    · cases e
      refine ⟨hlen, fun x h1 h2 => ?_⟩
      rw [e2]
      refine (hheld x h1 h2).congr ?_
      rw [himg x, if_pos ⟨h1, h2⟩]
    · have hx := hland (fun _ _ _ e => by cases e) x hx
      have hw : waiting (c.store skip off buf) (.stored off n buf.length)
          = waiting c (.holding off n buf) := by
        unfold waiting
        rw [e2]
        rfl
      rw [hw]
      by_cases hin : off ≤ x ∧ x < off + buf.length
      · refine (hheld x hin.1 hin.2).congr ?_
        rw [himg x, if_pos hin]
      · refine (h.kept x hx).congr ?_
        rw [himg x, if_neg hin]
  | stored off n m' =>
    obtain ⟨rfl, rfl⟩ := Prod.mk.inj (Option.some.inj hs)
    have hw : waiting c.release (.replaying m' c.deferred) = c.deferred := List.append_nil _
    refine ⟨rfl, fun _ => rfl, ?_, fun _ _ _ e => ?_, fun _ _ _ e => ?_, fun x hx => ?_⟩
    · rintro x ⟨a, b, e, _⟩
      cases e
    · cases e
    · cases e
    · rw [hw]
      rcases hx with hx | ⟨off', n', m'', e, h1, h2⟩
      · exact h.kept x hx
      · cases e
        exact (h.stored off n m' rfl).2 x h1 h2
  | replaying m' late =>
    cases late with
    | nil => exact absurd hs (by simp [chunkStep])
    | cons r late =>
      obtain ⟨rfl, rfl⟩ := Prod.mk.inj (Option.some.inj hs)
      have hcop : c.copying = none := h.copying
      have hdef : c.deferred = [] := h.empty rfl
      have hd : ¬c.Defers r := by
        unfold Shared.Defers
        rw [hcop]
        exact id
      obtain ⟨e1, e2, e3⟩ := applyOne_direct hd
      refine ⟨e2.trans hcop, fun _ => e3.trans hdef, ?_, fun _ _ _ e => ?_, fun _ _ _ e => ?_,
        fun x hx => ?_⟩
      · rintro x ⟨a, b, e, _⟩
        cases e
      · cases e
      · cases e
      · have hx := h.kept x (hland (fun _ _ _ e => by cases e) x hx)
        unfold waiting at hx ⊢
        rw [e1, e3]
        exact fresh_head hx

theorem ChunkInv.finish {m : Nat} (h : ChunkInv dev c (.replaying m []) rest kept) :
    ChunkInv dev c .idle rest kept := by
  refine ⟨h.copying, h.empty, ?_, fun _ _ _ e => ?_, fun _ _ _ e => ?_, h.kept⟩
  · rintro x ⟨a, b, e, _⟩
    cases e
  · cases e
  · cases e

end

/-! ## the machine: writes, the main thread, one copy thread -/

structure CopySt where
  dev : Nat → UInt8
  c : Shared
  pc : ChunkPc
  -- records the main thread has not handed to `apply_one`, and the next sequence number
  todo : List Item
  next : Nat
  -- ghost: the ranges copied so far
  copied : List (Nat × Nat)

def CopySt.init (dev img : Nat → UInt8) : CopySt := ⟨dev, .init img, .idle, [], 0, []⟩

inductive CopyAct where
  -- a write reaches the device, and its record the ring
  | write (r : Item)
  -- the main thread: `apply_one` of the next record
  | consume
  -- the copy thread: `copy_chunk(dev, off, n)` begins, goes on, returns
  | begin (off n : Nat)
  | chunk (m : Nat)
  | finish

def copiedBy : ChunkPc → List (Nat × Nat)
  | .stored off n m => [(off, off + m)]
  | _ => []

def ChunkPc.isIdle : ChunkPc → Bool
  | .idle => true
  | _ => false

theorem ChunkPc.isIdle_iff {pc : ChunkPc} : pc.isIdle = true ↔ pc = .idle := by
  cases pc <;> simp [ChunkPc.isIdle]

def cstep (s : CopySt) : CopyAct → Option CopySt
  | .write r =>
    if r.hdr.seq = s.next ∧ hasFlag r.hdr.flags FGapBefore = false then
      some { s with dev := overlay r.patch s.dev, todo := s.todo ++ [r], next := s.next + 1 }
    else none
  | .consume =>
    match s.todo with
    | r :: todo => some { s with c := s.c.applyOne r, todo := todo }
    | [] => none
  | .begin off n =>
    match s.pc with
    | .idle => some { s with c := s.c.flag off n, pc := .flagged off n }
    | _ => none
  | .chunk m =>
    (chunkStep false s.dev m s.c s.pc).map fun r =>
      { s with c := r.1, pc := r.2, copied := s.copied ++ copiedBy s.pc }
  | .finish =>
    match s.pc with
    | .replaying _ [] => some { s with pc := .idle }
    | _ => none

def CopySt.Copied (s : CopySt) (x : Nat) : Prop := ∃ e ∈ s.copied, e.1 ≤ x ∧ x < e.2

/-- a record that the main thread applies at once meets no waiting record in a copied chunk -/
def CopyOk (s : CopySt) : CopyAct → Prop
  | .consume => ∀ r todo, s.todo = r :: todo → ¬s.c.Defers r →
      ∀ x, s.Copied x → Clear (patches (waiting s.c s.pc)) r.patch x
  | _ => True

/-- the property: with all records consumed and the copy thread idle, copied chunks are the device -/
def ChunksRight (s : CopySt) : Prop :=
  s.todo = [] → s.pc = .idle → ∀ x, s.Copied x → s.c.img x = s.dev x

structure CopyInv (s : CopySt) : Prop where
  chunk : ChunkInv s.dev s.c s.pc (patches s.todo) s.Copied
  newest : ∀ x, Newest (patches s.todo) s.dev x

theorem CopyInv.init (dev img : Nat → UInt8) : CopyInv (CopySt.init dev img) := by
  refine ⟨⟨rfl, fun _ => rfl, ?_, fun _ _ _ e => ?_, fun _ _ _ e => ?_, ?_⟩,
    fun x => newest_nil dev x⟩
  · rintro x ⟨a, b, e, _⟩
    cases e
  · cases e
  · cases e
  · rintro x ⟨e, he, _⟩
    exact absurd he List.not_mem_nil

theorem copiedBy_landed {s : CopySt} {x : Nat} (h : ∃ e ∈ s.copied ++ copiedBy s.pc, e.1 ≤ x ∧ x < e.2) :
    s.Copied x ∨ s.pc.landed x := by
  obtain ⟨e, he, h1, h2⟩ := h
  rcases List.mem_append.mp he with he | he
  · exact Or.inl ⟨e, he, h1, h2⟩
  · right
    cases hpc : s.pc with
    | stored off n m =>
      rw [hpc] at he
      obtain rfl := List.mem_singleton.mp he
      exact ⟨off, n, m, rfl, h1, h2⟩
    | idle => rw [hpc] at he; exact absurd he List.not_mem_nil
    | flagged off n => rw [hpc] at he; exact absurd he List.not_mem_nil
    | holding off n buf => rw [hpc] at he; exact absurd he List.not_mem_nil
    | replaying m late => rw [hpc] at he; exact absurd he List.not_mem_nil

theorem CopyInv.step {s s' : CopySt} {a : CopyAct} (h : CopyInv s) (hg : CopyOk s a)
    (hs : cstep s a = some s') : CopyInv s' := by
  cases a with
  | write r =>
    change (if _ then _ else none) = _ at hs
    split at hs
    · obtain rfl := Option.some.inj hs
      refine ⟨?_, fun x => ?_⟩
      · rw [patches_snoc]
        exact h.chunk.write r.patch
      · rw [patches_snoc]
        exact newest_write (h.newest x)
    · exact absurd hs (by simp)
  | consume =>
    unfold cstep at hs
    cases ht : s.todo with
    | nil => rw [ht] at hs; exact absurd hs (by simp)
    | cons r todo =>
      rw [ht] at hs
      obtain rfl := Option.some.inj hs
      have hc := h.chunk
      have hn := h.newest
      rw [ht] at hc hn
      refine ⟨?_, fun x => newest_head (hn x)⟩
      exact ChunkInv.take (A:=[]) hc (fun x => clear_nil _ x) (hg r todo ht)
  | begin off n =>
    unfold cstep at hs
    cases hpc : s.pc with
    | idle =>
      rw [hpc] at hs
      obtain rfl := Option.some.inj hs
      have hc := h.chunk
      rw [hpc] at hc
      exact ⟨hc.flag off n fun x _ _ => h.newest x, h.newest⟩
    | flagged off n => rw [hpc] at hs; exact absurd hs (by simp)
    | holding off n buf => rw [hpc] at hs; exact absurd hs (by simp)
    | stored off n m => rw [hpc] at hs; exact absurd hs (by simp)
    | replaying m late => rw [hpc] at hs; exact absurd hs (by simp)
  | chunk m =>
    obtain ⟨⟨c, pc⟩, hst, rfl⟩ := Option.map_eq_some_iff.mp hs
    exact ⟨(h.chunk.chunk hst (fun e => absurd e (by decide))).mono
      fun x hx => copiedBy_landed hx, h.newest⟩
  | finish =>
    unfold cstep at hs
    cases hpc : s.pc with
    | replaying m late =>
      cases late with
      | nil =>
        rw [hpc] at hs
        obtain rfl := Option.some.inj hs
        have hc := h.chunk
        rw [hpc] at hc
        exact ⟨hc.finish, h.newest⟩
      | cons r late => rw [hpc] at hs; exact absurd hs (by simp)
    | idle => rw [hpc] at hs; exact absurd hs (by simp)
    | flagged off n => rw [hpc] at hs; exact absurd hs (by simp)
    | holding off n buf => rw [hpc] at hs; exact absurd hs (by simp)
    | stored off n m => rw [hpc] at hs; exact absurd hs (by simp)

/-- **Copied chunks are the device**, in a run that meets `CopyOk`. -/
theorem copied_chunks (dev img : Nat → UInt8) (as : List CopyAct) (s : CopySt)
    (hg : Meets cstep CopyOk (CopySt.init dev img) as)
    (h : exec cstep (CopySt.init dev img) as = some s) : ChunksRight s := by
  have hi := exec_invariant_meets (P:=CopyInv) (fun u a v hu hga hs => hu.step hga hs)
    (CopyInv.init dev img) hg h
  intro ht hp x hx
  have hf := hi.chunk.kept x hx
  have hd := hi.chunk.empty
  rw [hp] at hd
  rw [waiting, hp, hd rfl, ht] at hf
  exact fresh_nil.mp hf

/-! ## the runs -/

def CopyAct.isConsume : CopyAct → Bool
  | .consume => true
  | _ => false

/-- a write during the copy is put off and replayed before the next one is applied -/
def copyRun : List CopyAct :=
  [.begin 0 4096, .write (writeItem 0 3 1), .consume, .chunk 4096, .chunk 0, .chunk 0, .chunk 0,
    .finish, .write (writeItem 1 3 2), .consume]

theorem copied_chunks_run : ∃ s, exec cstep (CopySt.init (fun _ => 0) fun _ => 7) copyRun = some s ∧
    (s.todo = [] ∧ s.copied = [(0, 4096)]) ∧ ChunksRight s := by
  have h : (exec cstep (CopySt.init (fun _ => 0) fun _ => 7) copyRun).any
      (fun s => s.todo.isEmpty && s.copied == [(0, 4096)]) = true := by
    decide +kernel
  obtain ⟨s, hs, hp⟩ := (Option.any_eq_true _ _).mp h
  rw [Bool.and_eq_true, List.isEmpty_iff, beq_iff_eq] at hp
  -- nothing is waiting when a record is consumed
  have hg : ∀ (t : CopySt) (a : CopyAct), (waiting t.c t.pc).isEmpty || !a.isConsume → CopyOk t a := by
    intro t a ha
    cases a with
    | consume =>
      intro r todo _ _ x _
      have hw : waiting t.c t.pc = [] := by simpa [CopyAct.isConsume] using ha
      rw [hw]
      exact clear_nil _ x
    | write r => trivial
    | begin off n => trivial
    | chunk m => trivial
    | finish => trivial
  exact ⟨s, hs, hp, copied_chunks (fun _ => 0) (fun _ => 7) copyRun s
    (meets_of_meetsB hg (by decide +kernel)) hs⟩

/-- the first write is put off; the second is applied between the end of the chunk and the replay
of the first -/
def lateRace : List CopyAct :=
  [.begin 0 512, .write (writeItem 0 0 1), .consume, .chunk 512, .chunk 0, .chunk 0,
    .write (writeItem 1 0 2), .consume, .chunk 0, .finish]

/-- **The race**: a late record overwrites a newer one. -/
theorem late_replay : ∃ s, exec cstep (CopySt.init (fun _ => 0) fun _ => 0) lateRace = some s ∧
    ¬ChunksRight s := by
  have h : (exec cstep (CopySt.init (fun _ => 0) fun _ => 0) lateRace).any
      (fun s => s.todo.isEmpty && (s.pc.isIdle && (s.copied == [(0, 512)] &&
        s.c.img 0 != s.dev 0))) = true := by
    decide +kernel
  obtain ⟨s, hs, hp⟩ := (Option.any_eq_true _ _).mp h
  simp only [Bool.and_eq_true, List.isEmpty_iff, beq_iff_eq, bne_iff_ne] at hp
  obtain ⟨ht, hi, hc, hne⟩ := hp
  refine ⟨s, hs, fun hall => hne (hall ht (ChunkPc.isIdle_iff.mp hi) 0 ?_)⟩
  exact ⟨(0, 512), by rw [hc]; exact List.mem_singleton_self _, Nat.le_refl 0, by decide⟩

end CDP
