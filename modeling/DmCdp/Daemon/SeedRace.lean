import DmCdp.Daemon.SeedLayer
import DmCdp.Lib.Machine

/-!
# The seed layer under both threads

The main thread calls `Replica.write` under `self.lock`, `copy_chunk` calls `Replica.pwrite` without it.
Both go through `SeedLayer.preserve`: the test of the saved bit, the read of the chunk, the write to
`seed.raw`, the read and the write-back of a byte of `saved`, and then the write to the replica are
steps of their own, in any order between the two.

* `raceStep`      the machine;
* `Undisturbed`   the steps in which the other thread has not changed what was looked at before;
* `run_alone`     a call by one thread alone takes such steps and is `Replica.pwrite`;
* `race_kept`     a run of such steps keeps the seed point;
* `race_lost`     a run of two writes to different sectors of one chunk that does not.
-/

set_option linter.unusedVariables false

namespace CDP
open Img Mach

/-! ## the machine -/

/-- a write of `buf` at `off`; for `DISCARD` and `ZERO`, of zeros -/
structure WriteOp where
  off : Nat
  buf : List UInt8

/-- the chunks that `preserve` goes over, as its two ends -/
def WriteOp.first (op : WriteOp) : Nat := (chunkRange op.off op.buf.length).1
def WriteOp.last (size : Nat) (op : WriteOp) : Nat :=
  min (chunkRange op.off op.buf.length).2 (seedChunks size)

/-- `copy`: the copy thread without the lock; `main`: whoever holds it -/
inductive RaceThread where
  | main
  | copy
  deriving DecidableEq

inductive WritePc where
  | idle
  /-- in front of `is_saved(c)` -/
  | chunk (op : WriteOp) (c : Nat)
  /-- in front of `os.pread` -/
  | pread (op : WriteOp) (c : Nat)
  /-- in front of the write to `seed.raw` -/
  | store (op : WriteOp) (c : Nat) (old : List UInt8)
  /-- in front of the read of `saved[c >> 3]` -/
  | load (op : WriteOp) (c : Nat)
  /-- in front of the write-back of `saved[c >> 3]`, which was `v` -/
  | back (op : WriteOp) (c v : Nat)
  /-- in front of the write to the replica -/
  | pwrite (op : WriteOp)

structure RaceSt where
  img : Nat → UInt8
  raw : Sparse UInt8
  saved : Nat → Nat
  copying : Option (Nat × Nat)
  pc : RaceThread → WritePc

def RaceSt.isSaved (s : RaceSt) (c : Nat) : Bool := (s.saved (c / 8)).testBit (c % 8)

def RaceSt.goto (s : RaceSt) (w : RaceThread) (pc : WritePc) : RaceSt :=
  { s with pc := Function.update s.pc w pc }

inductive RaceAct where
  /-- `copy_chunk` sets and clears `copying` -/
  | flag (a b : Nat)
  | unflag
  | start (w : RaceThread) (op : WriteOp)
  | step (w : RaceThread)

/-- `saved[c >> 3]` is written back -/
def RaceSt.setSaved (s : RaceSt) (c v : Nat) : RaceSt :=
  { s with saved := Function.update s.saved (c / 8) (v ||| 2^(c % 8)) }

/-- one step of a call -/
def pcStep (size : Nat) (s : RaceSt) (w : RaceThread) : WritePc → Option RaceSt
  | .idle => none
  | .chunk op c =>
    if c < op.last size then
      if s.isSaved c then some (s.goto w (.chunk op (c + 1))) else some (s.goto w (.pread op c))
    else some (s.goto w (.pwrite op))
  | .pread op c => some (s.goto w (.store op c (oldChunk size s.img c)))
  | .store op c old =>
    -- a zero chunk is left a hole
    if allZero old then some (s.goto w (.load op c))
    else some ({ s with raw := s.raw.write (c * SeedChunk) old }.goto w (.load op c))
  | .load op c => some (s.goto w (.back op c (s.saved (c / 8))))
  | .back op c v => some ((s.setSaved c v).goto w (.chunk op (c + 1)))
  | .pwrite op => some ({ s with img := putList s.img op.off op.buf }.goto w .idle)

/-- a call may begin: the lock is free and the range is not the one in flight, or it is the copy
thread's own -/
def MayStart (s : RaceSt) (w : RaceThread) (op : WriteOp) : Prop :=
  match w, s.copying with
  | .main, none => True
  | .main, some (a, b) => ¬(op.off < b ∧ a < op.off + op.buf.length)
  | .copy, none => False
  | .copy, some (a, b) => op.off = a ∧ a + op.buf.length ≤ b

instance (s : RaceSt) (w : RaceThread) (op : WriteOp) : Decidable (MayStart s w op) := by
  unfold MayStart
  split <;> infer_instance

def WritePc.isIdle : WritePc → Bool
  | .idle => true
  | _ => false

def raceStep (size : Nat) (s : RaceSt) : RaceAct → Option RaceSt
  | .flag a b =>
    if (s.pc .main).isIdle ∧ (s.pc .copy).isIdle ∧ s.copying = none then
      some { s with copying := some (a, b) }
    else none
  | .unflag =>
    if (s.pc .main).isIdle ∧ (s.pc .copy).isIdle ∧ s.copying ≠ none then
      some { s with copying := none }
    else none
  | .start w op =>
    if (s.pc w).isIdle ∧ MayStart s w op then some (s.goto w (.chunk op op.first)) else none
  | .step w => pcStep size s w (s.pc w)

/-! ## the saved map -/

section
variable {size : Nat} {s t : RaceSt} {w : RaceThread}

theorem goto_pc (pc : WritePc) : (s.goto w pc).pc w = pc := Function.update_self _ _ _

theorem goto_other {w' : RaceThread} (pc : WritePc) (h : w' ≠ w) : (s.goto w pc).pc w' = s.pc w' :=
  Function.update_of_ne h _ _

/-- a write-back of the byte as it is sets one bit -/
theorem setSaved_iff {c v : Nat} (hv : s.saved (c / 8) = v) (c' : Nat) :
    (s.setSaved c v).isSaved c' = true ↔ c' = c ∨ s.isSaved c' = true := by
  unfold RaceSt.isSaved RaceSt.setSaved
  dsimp only
  by_cases hb : c' / 8 = c / 8
  · rw [hb, Function.update_self, Nat.testBit_or, Nat.testBit_two_pow, Bool.or_eq_true,
      decide_eq_true_iff, hv, or_comm]
    refine or_congr_left ⟨fun h => ?_, fun h => by rw [h]⟩
    have h1 := Nat.div_add_mod c' 8
    have h2 := Nat.div_add_mod c 8
    omega
  · rw [Function.update_of_ne hb]
    exact ⟨Or.inr, fun h => h.resolve_left fun e => hb (by rw [e])⟩

/-! ## what is kept -/

/-- chunk `c` held something at the seed point -/
def Worth (size : Nat) (seed0 : Nat → UInt8) (c : Nat) : Prop :=
  c < seedChunks size ∧ ¬ZeroAt size seed0 c

/-- `seed.raw` has what the chunk held at the seed point -/
def SeedStored (size : Nat) (seed0 : Nat → UInt8) (s : RaceSt) (c : Nat) : Prop :=
  ∀ x, InChunk size c x → s.raw.byte x = some (seed0 x)

/-- the replica still has it -/
def Untouched (size : Nat) (seed0 : Nat → UInt8) (s : RaceSt) (c : Nat) : Prop :=
  ∀ x, InChunk size c x → s.img x = seed0 x

/-- the call and the chunk that a thread is on -/
def WritePc.at : WritePc → Option (WriteOp × Nat)
  | .chunk op c => some (op, c)
  | .pread op c => some (op, c)
  | .store op c _ => some (op, c)
  | .load op c => some (op, c)
  | .back op c _ => some (op, c)
  | _ => none

/-- what a thread has made sure of -/
structure PcInv (size : Nat) (seed0 : Nat → UInt8) (s : RaceSt) (pc : WritePc) : Prop where
  passed : ∀ op c, pc.at = some (op, c) → ∀ c', op.first ≤ c' → c' < c → s.isSaved c' = true
  stored : ∀ op c, (pc = .load op c ∨ ∃ v, pc = .back op c v) → Worth size seed0 c →
    SeedStored size seed0 s c
  length : ∀ op c old, pc = .store op c old → old.length = min SeedChunk (size - c * SeedChunk)
  old : ∀ op c old, pc = .store op c old → Worth size seed0 c → old = oldChunk size seed0 c
  write : ∀ op, pc = .pwrite op → ∀ c', op.first ≤ c' → c' < op.last size → s.isSaved c' = true

structure RaceInv (size : Nat) (seed0 : Nat → UInt8) (s : RaceSt) : Prop where
  saved : ∀ c, Worth size seed0 c → s.isSaved c = true → SeedStored size seed0 s c
  clean : ∀ c, Worth size seed0 c → s.isSaved c = false → Untouched size seed0 s c
  pc : ∀ w, PcInv size seed0 s (s.pc w)

/-- what a thread at `pc` has looked at before is as it was: the chunk that it found unsaved when it
reads it, and the byte of `saved` that it has read when it writes that back -/
def WritePc.Fresh (s : RaceSt) : WritePc → Prop
  | .pread _ c => s.isSaved c = false
  | .back _ c v => s.saved (c / 8) = v
  | _ => True

/-- the other thread has not changed what this one has looked at -/
def Undisturbed (s : RaceSt) : RaceAct → Prop
  | .step w => (s.pc w).Fresh s
  | _ => True

variable {seed0 : Nat → UInt8}

/-- no bit is lost and nothing stored is -/
structure Grows (size : Nat) (seed0 : Nat → UInt8) (s t : RaceSt) : Prop where
  saved : ∀ c, s.isSaved c = true → t.isSaved c = true
  stored : ∀ c, Worth size seed0 c → SeedStored size seed0 s c → SeedStored size seed0 t c

theorem Grows.same (h1 : t.saved = s.saved) (h2 : t.raw = s.raw) : Grows size seed0 s t := by
  refine ⟨fun c h => ?_, fun c _ h => ?_⟩
  · unfold RaceSt.isSaved
    rw [h1]
    exact h
  · unfold SeedStored
    rw [h2]
    exact h

theorem PcInv.grow {pc : WritePc} (h : PcInv size seed0 s pc) (hg : Grows size seed0 s t) :
    PcInv size seed0 t pc :=
  ⟨fun op c e c' h1 h2 => hg.saved c' (h.passed op c e c' h1 h2),
    fun op c e hw => hg.stored c hw (h.stored op c e hw), h.length, h.old,
    fun op e c' h1 h2 => hg.saved c' (h.write op e c' h1 h2)⟩

theorem PcInv.idle : PcInv size seed0 s .idle :=
  ⟨fun op c h => (by cases h), fun op c h => (by rcases h with h | ⟨v, h⟩ <;> cases h),
    fun op c old h => (by cases h), fun op c old h => (by cases h), fun op h => (by cases h)⟩

theorem PcInv.chunk {op : WriteOp} {c : Nat}
    (h : ∀ c', op.first ≤ c' → c' < c → s.isSaved c' = true) : PcInv size seed0 s (.chunk op c) :=
  ⟨fun op' c1 e => (by cases e; exact h), fun op c h => (by rcases h with h | ⟨v, h⟩ <;> cases h),
    fun op c old h => (by cases h), fun op c old h => (by cases h), fun op h => (by cases h)⟩

theorem PcInv.pread {op : WriteOp} {c : Nat}
    (h : ∀ c', op.first ≤ c' → c' < c → s.isSaved c' = true) : PcInv size seed0 s (.pread op c) :=
  ⟨fun op' c1 e => (by cases e; exact h), fun op c h => (by rcases h with h | ⟨v, h⟩ <;> cases h),
    fun op c old h => (by cases h), fun op c old h => (by cases h), fun op h => (by cases h)⟩

theorem PcInv.store {op : WriteOp} {c : Nat} {old : List UInt8}
    (h : ∀ c', op.first ≤ c' → c' < c → s.isSaved c' = true)
    (hlen : old.length = min SeedChunk (size - c * SeedChunk))
    (hold : Worth size seed0 c → old = oldChunk size seed0 c) :
    PcInv size seed0 s (.store op c old) :=
  ⟨fun op' c1 e => (by cases e; exact h), fun op c h => (by rcases h with h | ⟨v, h⟩ <;> cases h),
    fun op c old h => (by cases h; exact hlen), fun op c old h => (by cases h; exact hold),
    fun op h => (by cases h)⟩

theorem PcInv.mark {pc : WritePc} {op : WriteOp} {c : Nat}
    (hpc : pc = .load op c ∨ ∃ v, pc = .back op c v)
    (h : ∀ c', op.first ≤ c' → c' < c → s.isSaved c' = true)
    (hst : Worth size seed0 c → SeedStored size seed0 s c) : PcInv size seed0 s pc := by
  rcases hpc with rfl | ⟨v, rfl⟩ <;>
    exact ⟨fun op' c1 e => (by cases e; exact h), fun op' c1 e => (by
      rcases e with e | ⟨v, e⟩ <;> cases e; exact hst), fun op c old h => (by cases h),
      fun op c old h => (by cases h), fun op h => (by cases h)⟩

theorem PcInv.pwrite {op : WriteOp}
    (h : ∀ c', op.first ≤ c' → c' < op.last size → s.isSaved c' = true) :
    PcInv size seed0 s (.pwrite op) :=
  ⟨fun op c h => (by cases h), fun op c h => (by rcases h with h | ⟨v, h⟩ <;> cases h),
    fun op c old h => (by cases h), fun op c old h => (by cases h),
    fun op' e => (by cases e; exact h)⟩

theorem Grows.goto {pc : WritePc} (h : Grows size seed0 s t) : Grows size seed0 s (t.goto w pc) :=
  ⟨h.saved, h.stored⟩

theorem RaceInv.move {pc : WritePc} (hi : RaceInv size seed0 s) (hg : Grows size seed0 s t)
    (hs : ∀ c, Worth size seed0 c → t.isSaved c = true → SeedStored size seed0 t c)
    (hc : ∀ c, Worth size seed0 c → t.isSaved c = false → Untouched size seed0 t c)
    (hpc : t.pc = s.pc) (hw : PcInv size seed0 t pc) :
    RaceInv size seed0 (t.goto w pc) ∧ Grows size seed0 s (t.goto w pc) := by
  refine ⟨⟨hs, hc, fun w' => ?_⟩, hg.goto⟩
  by_cases e : w' = w
  · subst e
    rw [goto_pc]
    exact hw.grow (Grows.same rfl rfl)
  · rw [goto_other pc e, hpc]
    exact (hi.pc w').grow hg.goto

/-- `saved` does not depend on `seed.raw` -/
theorem isSaved_raw (raw : Sparse UInt8) (c : Nat) :
    ({ s with raw := raw } : RaceSt).isSaved c = s.isSaved c := rfl

theorem RaceInv.store {pc : WritePc} {raw : Sparse UInt8} (hi : RaceInv size seed0 s)
    (hg : Grows size seed0 s { s with raw := raw })
    (hw : PcInv size seed0 { s with raw := raw } pc) :
    RaceInv size seed0 ({ s with raw := raw }.goto w pc) ∧
      Grows size seed0 s ({ s with raw := raw }.goto w pc) :=
  hi.move hg (fun c hw' hs' => hg.stored c hw' (hi.saved c hw' hs')) hi.clean rfl hw

theorem RaceInv.goto {pc : WritePc} (hi : RaceInv size seed0 s) (hw : PcInv size seed0 s pc) :
    RaceInv size seed0 (s.goto w pc) ∧ Grows size seed0 s (s.goto w pc) :=
  hi.move (Grows.same rfl rfl) hi.saved hi.clean rfl hw

/-- **A chunk is written to `seed.raw`.** -/
theorem seedStored_write {c : Nat} {old : List UInt8}
    (hlen : old.length = min SeedChunk (size - c * SeedChunk))
    (hold : old = oldChunk size seed0 c) :
    SeedStored size seed0 { s with raw := s.raw.write (c * SeedChunk) old } c := by
  intro x hx
  have hin : c * SeedChunk ≤ x ∧ x < c * SeedChunk + old.length := by
    rw [hlen]
    exact inChunk_iff.mp hx
  show (s.raw.write (c * SeedChunk) old).byte x = _
  rw [Sparse.write_in hin, hold]
  exact getElem?_old hx

theorem store_grows {c0 : Nat} {old : List UInt8}
    (hlen : old.length = min SeedChunk (size - c0 * SeedChunk))
    (hold : Worth size seed0 c0 → old = oldChunk size seed0 c0) :
    Grows size seed0 s { s with raw := s.raw.write (c0 * SeedChunk) old } := by
  refine ⟨fun c h => (isSaved_raw _ c).trans h, fun c hw h => ?_⟩
  by_cases hc : c = c0
  · subst hc
    exact seedStored_write hlen (hold hw)
  · intro x hx
    show (s.raw.write (c0 * SeedChunk) old).byte x = _
    rw [Sparse.write_out fun hin => hc ?_]
    · exact h x hx
    · rw [hlen] at hin
      exact hx.2.symm.trans (inChunk_iff.mpr hin).2

theorem mem_op {op : WriteOp} {x : Nat} (hx : x < size)
    (h : op.off ≤ x ∧ x < op.off + op.buf.length) :
    op.first ≤ x / SeedChunk ∧ x / SeedChunk < op.last size := by
  obtain ⟨h1, h2⟩ := reaches_of_mem h.1 h.2
  refine ⟨h1, lt_min h2 ?_⟩
  unfold seedChunks
  have hS := seedChunk_pos
  generalize SeedChunk = S at *
  rw [Nat.lt_iff_add_one_le, ← Nat.add_div_right _ hS]
  exact Nat.div_le_div_right (by omega)

theorem chunk_inv {op : WriteOp} {c : Nat} (hi : RaceInv size seed0 s) (hw : s.pc w = .chunk op c)
    (h : pcStep size s w (.chunk op c) = some t) :
    RaceInv size seed0 t ∧ Grows size seed0 s t := by
  have hpc := hi.pc w
  rw [hw] at hpc
  have hpass := hpc.passed op c rfl
  unfold pcStep at h
  dsimp only at h
  by_cases hc : c < op.last size
  · rw [if_pos hc] at h
    by_cases hsv : s.isSaved c = true
    · rw [if_pos hsv] at h
      obtain rfl := Option.some.inj h
      refine hi.goto (.chunk fun c' h1 h2 => ?_)
      rcases Nat.lt_succ_iff_lt_or_eq.mp h2 with h3 | rfl
      · exact hpass c' h1 h3
      · exact hsv
    · rw [if_neg hsv] at h
      obtain rfl := Option.some.inj h
      exact hi.goto (.pread hpass)
  · rw [if_neg hc] at h
    obtain rfl := Option.some.inj h
    exact hi.goto (.pwrite fun c' h1 h2 => hpass c' h1 (by omega))

theorem store_inv {op : WriteOp} {c : Nat} {old : List UInt8} (hi : RaceInv size seed0 s)
    (hw : s.pc w = .store op c old) (h : pcStep size s w (.store op c old) = some t) :
    RaceInv size seed0 t ∧ Grows size seed0 s t := by
  have hpc := hi.pc w
  rw [hw] at hpc
  have hlen := hpc.length op c old rfl
  have hold := hpc.old op c old rfl
  have hpass := hpc.passed op c rfl
  unfold pcStep at h
  dsimp only at h
  by_cases hz : allZero old = true
  · rw [if_pos hz] at h
    obtain rfl := Option.some.inj h
    refine hi.goto (.mark (Or.inl rfl) hpass fun hworth => ?_)
    -- what is worth keeping does not read as zeros
    rw [hold hworth] at hz
    exact absurd (allZero_chunk.mp hz) hworth.2
  · rw [if_neg hz] at h
    obtain rfl := Option.some.inj h
    exact hi.store (store_grows hlen hold) (.mark (Or.inl rfl)
      (fun c' h1 h2 => (isSaved_raw _ c').trans (hpass c' h1 h2))
      fun hworth => seedStored_write hlen (hold hworth))

theorem back_inv {op : WriteOp} {c v : Nat} (hi : RaceInv size seed0 s)
    (hw : s.pc w = .back op c v) (hgood : s.saved (c / 8) = v) :
    RaceInv size seed0 ((s.setSaved c v).goto w (.chunk op (c + 1))) ∧
      Grows size seed0 s ((s.setSaved c v).goto w (.chunk op (c + 1))) := by
  have hpc := hi.pc w
  rw [hw] at hpc
  have hset := fun c' => setSaved_iff (s:=s) hgood c'
  have hg : Grows size seed0 s (s.setSaved c v) :=
    ⟨fun c' h1 => (hset c').mpr (Or.inr h1), fun c' _ h1 => h1⟩
  refine hi.move hg (fun c' hw' hs' => ?_) (fun c' hw' hs' => ?_) rfl (.chunk fun c' h1 h2 => ?_)
  · rcases (hset c').mp hs' with rfl | h1
    · exact hpc.stored op c' (Or.inr ⟨v, rfl⟩) hw'
    · exact hi.saved c' hw' h1
  · refine hi.clean c' hw' (Bool.eq_false_iff.mpr fun h1 => ?_)
    rw [hg.saved c' h1] at hs'
    cases hs'
  · rcases Nat.lt_succ_iff_lt_or_eq.mp h2 with h3 | rfl
    · exact hg.saved c' (hpc.passed op c rfl c' h1 h3)
    · exact (hset c').mpr (Or.inl rfl)

theorem pwrite_inv {op : WriteOp} (hi : RaceInv size seed0 s) (hw : s.pc w = .pwrite op) :
    RaceInv size seed0 ({ s with img := putList s.img op.off op.buf }.goto w .idle) ∧
      Grows size seed0 s ({ s with img := putList s.img op.off op.buf }.goto w .idle) := by
  have hpc := hi.pc w
  rw [hw] at hpc
  have hg : Grows size seed0 s { s with img := putList s.img op.off op.buf } := Grows.same rfl rfl
  refine hi.move hg hi.saved (fun c hw' hs' x hx => ?_) rfl .idle
  change s.isSaved c = false at hs'
  -- the bytes that are written lie in chunks that are saved
  rw [← hi.clean c hw' hs' x hx]
  refine putList_out fun hmem => ?_
  obtain ⟨h1, h2⟩ := mem_op hx.1 hmem
  rw [hx.2] at h1 h2
  have hs1 : s.isSaved c = true := hpc.write op rfl c h1 h2
  rw [hs1] at hs'
  cases hs'

theorem pcStep_inv (hi : RaceInv size seed0 s) (hgood : Undisturbed s (.step w))
    (h : pcStep size s w (s.pc w) = some t) : RaceInv size seed0 t ∧ Grows size seed0 s t := by
  have hpc := hi.pc w
  unfold Undisturbed at hgood
  dsimp only at hgood
  cases hw : s.pc w with
  | idle => rw [hw] at h; cases h
  | chunk op c =>
    rw [hw] at h
    exact chunk_inv hi hw h
  | pread op c =>
    rw [hw] at h hpc hgood
    obtain rfl := Option.some.inj h
    refine hi.goto (.store (hpc.passed op c rfl) (length_slice _ _ _) fun hworth => ?_)
    have hclean := hi.clean c hworth hgood
    exact slice_congr fun i hi' => hclean _ (inChunk_iff.mpr ⟨Nat.le_add_right _ _, by omega⟩)
  | store op c old =>
    rw [hw] at h
    exact store_inv hi hw h
  | load op c =>
    rw [hw] at h hpc
    obtain rfl := Option.some.inj h
    exact hi.goto (.mark (Or.inr ⟨_, rfl⟩) (hpc.passed op c rfl) (hpc.stored op c (Or.inl rfl)))
  | back op c v =>
    rw [hw] at h hgood
    obtain rfl := Option.some.inj h
    exact back_inv hi hw hgood
  | pwrite op =>
    rw [hw] at h
    obtain rfl := Option.some.inj h
    exact pwrite_inv hi hw

theorem raceStep_inv {a : RaceAct} (hi : RaceInv size seed0 s) (hgood : Undisturbed s a)
    (h : raceStep size s a = some t) : RaceInv size seed0 t ∧ Grows size seed0 s t := by
  have hset : ∀ copying, RaceInv size seed0 { s with copying := copying } ∧
      Grows size seed0 s { s with copying := copying } := fun copying =>
    ⟨⟨hi.saved, hi.clean, fun w => (hi.pc w).grow (Grows.same rfl rfl)⟩, Grows.same rfl rfl⟩
  cases a with
  | flag a b =>
    unfold raceStep at h
    dsimp only at h
    split at h
    · obtain rfl := Option.some.inj h
      exact hset _
    · cases h
  | unflag =>
    unfold raceStep at h
    dsimp only at h
    split at h
    · obtain rfl := Option.some.inj h
      exact hset _
    · cases h
  | start w op =>
    unfold raceStep at h
    dsimp only at h
    split at h
    · obtain rfl := Option.some.inj h
      exact hi.goto (.chunk fun c' h1 h2 => absurd h1 (by omega))
    · cases h
  | step w => exact pcStep_inv hi hgood h

/-! ## one thread alone -/

/-- the seed layer with its bits -/
def RaceSt.layer (s : RaceSt) : SeedLayer := ⟨s.raw, s.isSaved⟩

theorem raceStep_step {pc : WritePc} (h : s.pc w = pc) :
    raceStep size s (.step w) = pcStep size s w pc := by
  rw [← h]
  rfl

variable (size) in
theorem step_start (op : WriteOp) (hidle : (s.pc w).isIdle = true) (h : MayStart s w op) :
    raceStep size s (.start w op) = some (s.goto w (.chunk op op.first)) := if_pos ⟨hidle, h⟩

variable (size) in
theorem step_unsaved {op : WriteOp} {c : Nat} (h : s.pc w = .chunk op c) (hc : c < op.last size)
    (hs : ¬s.isSaved c = true) : raceStep size s (.step w) = some (s.goto w (.pread op c)) := by
  rw [raceStep_step h]
  exact (if_pos hc).trans (if_neg hs)

theorem goto_raw (raw : Sparse UInt8) (pc : WritePc) :
    ({ s with raw := raw }.goto w pc).saved = s.saved ∧ ({ s with raw := raw }.goto w pc).img = s.img ∧
      ({ s with raw := raw }.goto w pc).copying = s.copying ∧
      ∀ w', w' ≠ w → ({ s with raw := raw }.goto w pc).pc w' = s.pc w' :=
  ⟨rfl, rfl, rfl, fun w' h => goto_other _ h⟩

variable (size) in
theorem step_store {op : WriteOp} {c : Nat} {old : List UInt8} (h : s.pc w = .store op c old) :
    ∃ t, raceStep size s (.step w) = some t ∧ t.pc w = .load op c ∧
      t.raw = (if allZero old then s.raw else s.raw.write (c * SeedChunk) old) ∧
      t.saved = s.saved ∧ t.img = s.img ∧ t.copying = s.copying ∧
      ∀ w', w' ≠ w → t.pc w' = s.pc w' := by
  rw [raceStep_step h]
  unfold pcStep
  dsimp only
  by_cases hz : allZero old = true
  · rw [if_pos hz, if_pos hz]
    exact ⟨_, rfl, goto_pc _, rfl, rfl, rfl, rfl, fun w' h => goto_other _ h⟩
  · rw [if_neg hz, if_neg hz]
    exact ⟨_, rfl, goto_pc _, rfl, goto_raw _ _⟩

theorem setSaved_layer (c : Nat) :
    (s.setSaved c (s.saved (c / 8))).isSaved = fun i => i == c || s.isSaved i := by
  funext i
  rw [Bool.eq_iff_iff, setSaved_iff rfl _, Bool.or_eq_true, beq_iff_eq]

theorem undisturbed_of {pc : WritePc} (h : s.pc w = pc) (hpc : pc.Fresh s) :
    Undisturbed s (.step w) := by
  show (s.pc w).Fresh s
  rw [h]
  exact hpc

/-- what a thread leaves alone -/
structure Leaves (w : RaceThread) (s t : RaceSt) : Prop where
  copying : t.copying = s.copying
  other : ∀ w', w' ≠ w → t.pc w' = s.pc w'

theorem run_chunk {op : WriteOp} {c : Nat} (hpc : s.pc w = .chunk op c) (hc : c < op.last size) :
    ∃ n t, Guarded (raceStep size) Undisturbed s (List.replicate n (.step w)) t ∧
      t.pc w = .chunk op (c + 1) ∧ t.img = s.img ∧ t.layer = s.layer.save size s.img c ∧
      Leaves w s t := by
  unfold SeedLayer.save
  have hfree : Undisturbed s (.step w) := undisturbed_of hpc trivial
  by_cases hs : s.isSaved c = true
  · refine ⟨1, s.goto w (.chunk op (c + 1)), .cons hfree ?_ (.nil _), goto_pc _, rfl, ?_, rfl,
      fun w' h => goto_other _ h⟩
    · rw [raceStep_step hpc]
      exact (if_pos hc).trans (if_pos hs)
    · exact (if_pos hs).symm
  · have h1 := step_unsaved size hpc hc hs
    have h2 : raceStep size (s.goto w (.pread op c)) (.step w)
        = some ((s.goto w (.pread op c)).goto w (.store op c (oldChunk size s.img c))) :=
      raceStep_step (goto_pc _)
    obtain ⟨u, hu, hupc, huraw, husaved, huimg, hcop, hoth⟩ := step_store size
      (s:=(s.goto w (.pread op c)).goto w (.store op c (oldChunk size s.img c))) (goto_pc _)
    have h4 : raceStep size u (.step w) = some (u.goto w (.back op c (u.saved (c / 8)))) :=
      raceStep_step hupc
    have h5 : raceStep size (u.goto w (.back op c (u.saved (c / 8)))) (.step w)
        = some (((u.goto w (.back op c (u.saved (c / 8)))).setSaved c (u.saved (c / 8))).goto w
          (.chunk op (c + 1))) := raceStep_step (goto_pc _)
    refine ⟨5, _, .cons hfree h1 (.cons (undisturbed_of (goto_pc _) (Bool.eq_false_iff.mpr hs)) h2
      (.cons (undisturbed_of (goto_pc _) trivial) hu (.cons (undisturbed_of hupc trivial) h4
        (.cons (undisturbed_of (goto_pc _) rfl) h5 (.nil _))))), goto_pc _, huimg, ?_, hcop,
      fun w' h => ?_⟩
    · have hbits : (u.setSaved c (u.saved (c / 8))).isSaved = fun i => i == c || s.isSaved i := by
        rw [setSaved_layer]
        funext i
        unfold RaceSt.isSaved
        rw [husaved]
        rfl
      show (⟨u.raw, (u.setSaved c (u.saved (c / 8))).isSaved⟩ : SeedLayer) = _
      rw [hbits, huraw]
      exact (if_neg hs).symm
    · rw [goto_other _ h]
      show (u.goto w _).pc w' = _
      rw [goto_other _ h, hoth w' h, goto_other _ h, goto_other _ h]

variable (size) in
theorem run_chunks {op : WriteOp} (k : Nat) : ∀ {s : RaceSt} {c : Nat}, s.pc w = .chunk op c →
    c + k = op.last size →
    ∃ n t, Guarded (raceStep size) Undisturbed s (List.replicate n (.step w)) t ∧
      t.pc w = .chunk op (op.last size) ∧ t.img = s.img ∧
      t.layer = (List.range' c k).foldl (SeedLayer.save size s.img) s.layer ∧ Leaves w s t := by
  induction k with
  | zero =>
    intro s c hpc hk
    refine ⟨0, s, .nil s, ?_, rfl, rfl, rfl, fun w' _ => rfl⟩
    rw [hpc, ← hk, Nat.add_zero]
  | succ k ih =>
    intro s c hpc hk
    obtain ⟨n1, u, h1, h2, h3, h4, h5⟩ := run_chunk hpc (by omega : c < op.last size)
    obtain ⟨n2, t, g1, g2, g3, g4, g5⟩ := ih h2 (by omega)
    refine ⟨n1 + n2, t, ?_, g2, g3.trans h3, ?_, g5.copying.trans h5.copying, fun w' h =>
      (g5.other w' h).trans (h5.other w' h)⟩
    · rw [← List.replicate_append_replicate]
      exact h1.append g1
    · rw [g4, h4, h3, List.range'_succ, List.foldl_cons]

variable (size) in
theorem run_write {op : WriteOp} {c : Nat} (hpc : s.pc w = .chunk op c) (hc : ¬c < op.last size) :
    ∃ t, Guarded (raceStep size) Undisturbed s [.step w, .step w] t ∧ t.pc w = .idle ∧
      t.img = putList s.img op.off op.buf ∧ t.layer = s.layer ∧ Leaves w s t := by
  have h1 : raceStep size s (.step w) = some (s.goto w (.pwrite op)) := by
    rw [raceStep_step hpc]
    exact if_neg hc
  have h2 : raceStep size (s.goto w (.pwrite op)) (.step w)
      = some ({ s.goto w (.pwrite op) with img := putList s.img op.off op.buf }.goto w .idle) :=
    raceStep_step (goto_pc _)
  refine ⟨_, .cons (undisturbed_of hpc trivial) h1 (.cons (undisturbed_of (goto_pc _) trivial) h2
    (.nil _)), goto_pc _, rfl, rfl, rfl, fun w' h => ?_⟩
  rw [goto_other _ h]
  show (s.goto w _).pc w' = _
  exact goto_other _ h

variable (size) in
/-- **A call by one thread alone** is `Replica.pwrite`. -/
theorem run_alone {op : WriteOp} (hidle : (s.pc w).isIdle = true) (hstart : MayStart s w op) :
    ∃ n t, Guarded (raceStep size) Undisturbed s (.start w op :: List.replicate n (.step w)) t ∧
      t.pc w = .idle ∧ Leaves w s t ∧ ∀ ok falloc,
        (⟨s.img, some s.layer, ok, falloc⟩ : Replica).pwrite size op.buf op.off
          = ⟨t.img, some t.layer, ok, falloc⟩ := by
  have h0 := step_start size op hidle hstart
  -- where the range begins behind the last chunk, no chunk is gone over
  obtain ⟨n, u, h1, ⟨c, hpc, hc⟩, h3, h4, h5⟩ : ∃ n u, Guarded (raceStep size) Undisturbed
      (s.goto w (.chunk op op.first)) (List.replicate n (.step w)) u ∧
      (∃ c, u.pc w = .chunk op c ∧ ¬c < op.last size) ∧ u.img = s.img ∧
      u.layer = s.layer.preserve size s.img op.off op.buf.length ∧ Leaves w s u := by
    by_cases hle : op.first ≤ op.last size
    · obtain ⟨n, u, h1, h2, h3, h4, h5⟩ := run_chunks size (op.last size - op.first)
        (s:=s.goto w (.chunk op op.first)) (goto_pc _) (Nat.add_sub_cancel' hle)
      exact ⟨n, u, h1, ⟨_, h2, Nat.lt_irrefl _⟩, h3, h4, h5.copying, fun w' h =>
        (h5.other w' h).trans (goto_other _ h)⟩
    · refine ⟨0, _, .nil _, ⟨op.first, goto_pc _, fun h => hle h.le⟩, rfl, ?_, rfl,
        fun w' h => goto_other _ h⟩
      have hnone : op.last size - op.first = 0 := by omega
      show s.layer = (List.range' op.first (op.last size - op.first)).foldl _ _
      rw [hnone]
      rfl
  obtain ⟨t, h6, hidle', himg, hlayer, hal⟩ := run_write size hpc hc
  refine ⟨n + 2, t, .cons trivial h0 ?_, hidle',
    ⟨hal.copying.trans h5.copying, fun w' h => (hal.other w' h).trans (h5.other w' h)⟩,
    fun ok falloc => ?_⟩
  · rw [← List.replicate_append_replicate]
    exact h1.append h6
  · unfold Replica.pwrite Replica.preserve
    rw [Option.map_some, himg, hlayer, h4, h3]

/-! ## runs -/

/-- both threads are idle, and what is worth keeping is either marked and stored or in the replica -/
structure RaceReady (size : Nat) (seed0 : Nat → UInt8) (s : RaceSt) : Prop where
  idle : ∀ w, s.pc w = .idle
  saved : ∀ c, Worth size seed0 c → s.isSaved c = true → SeedStored size seed0 s c
  clean : ∀ c, Worth size seed0 c → s.isSaved c = false → Untouched size seed0 s c

theorem RaceReady.inv (h : RaceReady size seed0 s) : RaceInv size seed0 s :=
  ⟨h.saved, h.clean, fun w => by rw [h.idle w]; exact .idle⟩

theorem race_run {as : List RaceAct} (hi : RaceInv size seed0 s)
    (hg : Meets (raceStep size) Undisturbed s as) (h : exec (raceStep size) s as = some t) :
    RaceInv size seed0 t ∧ Grows size seed0 s t := by
  refine exec_invariant_meets (P:=fun u => RaceInv size seed0 u ∧ Grows size seed0 s u)
    (fun u a v hu hgood hstep => ?_) ⟨hi, Grows.same rfl rfl⟩ hg h
  obtain ⟨h1, h2⟩ := raceStep_inv hu.1 hgood hstep
  exact ⟨h1, fun c hc => h2.saved c (hu.2.saved c hc),
    fun c hw hc => h2.stored c hw (hu.2.stored c hw hc)⟩

/-- **Copy on first write, under both threads.**  In a run in which no thread finds changed what it has
looked at, no byte of a chunk that held something changes before the chunk is stored, and what is
stored stays. -/
theorem race_kept (size : Nat) (seed0 : Nat → UInt8) (s0 s s' : RaceSt) (as bs : List RaceAct)
    (h0 : RaceReady size seed0 s0) (hg : Meets (raceStep size) Undisturbed s0 (as ++ bs))
    (h1 : exec (raceStep size) s0 as = some s) (h2 : exec (raceStep size) s bs = some s') :
    ∀ c, Worth size seed0 c → (SeedStored size seed0 s' c ∨ Untouched size seed0 s' c) ∧
      (SeedStored size seed0 s c → SeedStored size seed0 s' c) := by
  intro c hw
  have hfirst := meets_prefix hg
  obtain ⟨hi, _⟩ := race_run h0.inv hfirst h1
  obtain ⟨hi', hgrow⟩ := race_run hi (meets_suffix hg h1) h2
  refine ⟨?_, hgrow.stored c hw⟩
  cases hs : s'.isSaved c with
  | true => exact Or.inl (hi'.saved c hw hs)
  | false => exact Or.inr (hi'.clean c hw hs)

end

/-- a disk at its seed point, all ones -/
def freshRace (size : Nat) : RaceSt :=
  ⟨fun _ => 1, Sparse.empty size, fun _ => 0, none, fun _ => .idle⟩

theorem freshRace_ready (size : Nat) : RaceReady size (fun _ => 1) (freshRace size) :=
  ⟨fun w => rfl, fun c _ h => absurd h (by
    show ¬(0 : Nat).testBit (c % 8) = true
    rw [Nat.zero_testBit]
    exact Bool.false_ne_true), fun c _ _ x _ => rfl⟩

theorem putList_replicate {m : Nat → UInt8} (off : Nat) {n : Nat} (i : Nat) {v : UInt8}
    (h : i < n) : putList m off (List.replicate n v) (off + i) = v := by
  rw [putList_in (by rw [List.length_replicate]; exact h), List.getD_eq_getElem?_getD,
    List.getElem?_replicate_of_lt h]
  rfl

theorem pwrite_parts {size off : Nat} {img img' : Nat → UInt8} {l l' : SeedLayer} {buf : List UInt8}
    (h : ∀ ok falloc, (⟨img, some l, ok, falloc⟩ : Replica).pwrite size buf off
      = ⟨img', some l', ok, falloc⟩) :
    putList img off buf = img' ∧ l.preserve size img off buf.length = l' :=
  ⟨congrArg Replica.img (h true []), Option.some.inj (congrArg Replica.seed (h true []))⟩

/-- on a disk of two chunks: the first sector, and all that is behind it -/
def headOp : WriteOp := ⟨0, List.replicate 512 2⟩
def bothOp : WriteOp := ⟨512, List.replicate 65536 3⟩

theorem headOp_length : headOp.buf.length = 512 := List.length_replicate

theorem headOp_last : headOp.last 66048 = 1 := by
  unfold WriteOp.last
  rw [headOp_length]
  decide

/-- the copy thread has stored chunk 0 and is about to write its sector; the main thread writes the
rest of both chunks, which stores chunk 1; then the copy thread writes -/
theorem race_kept_both : ∃ n m s s', exec (raceStep 66048) (freshRace 66048)
      (.flag 0 512 :: .start .copy headOp :: List.replicate n (.step .copy)) = some s ∧
    exec (raceStep 66048) s (.start .main bothOp :: List.replicate m (.step .main) ++
      [.step .copy, .step .copy]) = some s' ∧
    s'.pc .main = .idle ∧ s'.pc .copy = .idle ∧ s'.img 0 = 2 ∧ s'.img 65536 = 3 ∧
    SeedStored 66048 (fun _ => 1) s 0 ∧ SeedStored 66048 (fun _ => 1) s' 0 ∧
    SeedStored 66048 (fun _ => 1) s' 1 ∧ ∀ c, Worth 66048 (fun _ => 1) c →
      (SeedStored 66048 (fun _ => 1) s' c ∨ Untouched 66048 (fun _ => 1) s' c) ∧
      (SeedStored 66048 (fun _ => 1) s c → SeedStored 66048 (fun _ => 1) s' c) := by
  obtain ⟨u, hu⟩ : ∃ u : RaceSt, u = { freshRace 66048 with copying := some (0, 512) }.goto .copy
      (.chunk headOp 0) := ⟨_, rfl⟩
  have himg : u.img = fun _ => 1 := by rw [hu]; rfl
  have e1 : raceStep 66048 (freshRace 66048) (.flag 0 512)
      = some { freshRace 66048 with copying := some (0, 512) } := rfl
  have e2 : raceStep 66048 { freshRace 66048 with copying := some (0, 512) } (.start .copy headOp)
      = some u := by
    rw [hu]
    exact step_start 66048 headOp rfl ⟨rfl, by rw [headOp_length]⟩
  have hin0 : InChunk 66048 0 0 := by decide
  have hin1 : InChunk 66048 1 65536 := by decide
  have hworth0 : Worth 66048 (fun _ => 1) 0 := ⟨by decide, fun h => absurd (h 0 hin0) (by decide)⟩
  have hworth1 : Worth 66048 (fun _ => 1) 1 :=
    ⟨by decide, fun h => absurd (h 65536 hin1) (by decide)⟩
  have hpc : u.pc .copy = .chunk headOp 0 := by
    rw [hu]
    exact goto_pc _
  obtain ⟨n, s, g1, hcopy, himg1, hlayer, hleaves⟩ := run_chunk hpc
    (by rw [headOp_last]; exact Nat.one_pos : 0 < headOp.last 66048)
  have hstored : SeedStored 66048 (fun _ => 1) s 0 := by
    intro x hx
    have hby : SavedBy 66048 u.img 0 (0 ∈ [0]) u.layer s.layer := by
      rw [hlayer]
      exact foldl_save [0] u.layer
    have h := hby.fresh (List.mem_singleton.mpr rfl) (by rw [hu]; rfl)
      (by rw [himg]; exact hworth0.2) x hx
    rw [himg] at h
    exact h
  have hmain : s.pc .main = .idle := (hleaves.other _ (by decide)).trans (by rw [hu]; rfl)
  have hcop : s.copying = some (0, 512) := hleaves.copying.trans (by rw [hu]; rfl)
  have hmay : MayStart s .main bothOp := by
    unfold MayStart
    rw [hcop]
    exact fun h => Nat.lt_irrefl _ h.1
  obtain ⟨m, v, g2, hidle, hleaves', hpw⟩ := run_alone 66048 (by rw [hmain]; rfl) hmay
  obtain ⟨himg2, _⟩ := pwrite_parts hpw
  obtain ⟨s', g3, hidle', himg3, _, hleaves''⟩ := run_write 66048
    ((hleaves'.other _ (by decide)).trans hcopy) (by rw [headOp_last]; exact Nat.lt_irrefl _)
  have h0 : s'.img 0 = 2 := by
    rw [himg3]
    exact putList_replicate 0 0 (by decide)
  have h1 : s'.img 65536 = 3 := by
    rw [himg3, putList_out fun h => absurd h.2 (by rw [headOp_length]; decide), ← himg2]
    exact putList_replicate 512 65024 (by decide)
  have hfirst : Guarded (raceStep 66048) Undisturbed (freshRace 66048)
      (.flag 0 512 :: .start .copy headOp :: List.replicate n (.step .copy)) s :=
    .cons trivial e1 (.cons trivial e2 g1)
  have hsecond := g2.append g3
  have hkept := race_kept 66048 (fun _ => 1) (freshRace 66048) s s' _ _ (freshRace_ready 66048)
    (hfirst.append hsecond).2 hfirst.1 hsecond.1
  have hstored1 := (hkept 1 hworth1).1.resolve_right fun h =>
    absurd (h1.symm.trans (h 65536 hin1)) (by decide)
  exact ⟨n, m, s, s', hfirst.1, hsecond.1, (hleaves''.other _ (by decide)).trans hidle, hidle', h0, h1,
    hstored, (hkept 0 hworth0).2 hstored, hstored1, hkept⟩

/-! ## overtaken -/

theorem worth_zero : Worth 1024 (fun _ => 1) 0 :=
  ⟨by decide, fun h => absurd (h 0 ⟨by decide, rfl⟩) (by decide)⟩

/-- **A stored chunk is overwritten.**  The copy thread finds chunk 0 unsaved; the main thread writes
the other sector of it, a call that saves the chunk; then the copy thread reads the chunk, with the
new sector in it, and stores that. -/
theorem race_lost : ∃ n s s', exec (raceStep 1024) (freshRace 1024)
      (.flag 0 512 :: .start .copy ⟨0, List.replicate 512 2⟩ :: .step .copy ::
        .start .main ⟨512, List.replicate 512 3⟩ :: List.replicate n (.step .main)) = some s ∧
      exec (raceStep 1024) s [.step .copy, .step .copy] = some s' ∧
      RaceReady 1024 (fun _ => 1) (freshRace 1024) ∧ Worth 1024 (fun _ => 1) 0 ∧
      SeedStored 1024 (fun _ => 1) s 0 ∧ ¬SeedStored 1024 (fun _ => 1) s' 0 := by
  obtain ⟨u, hu⟩ : ∃ u : RaceSt, u = ({ freshRace 1024 with copying := some (0, 512) }.goto .copy
      (.chunk ⟨0, List.replicate 512 2⟩ 0)).goto .copy (.pread ⟨0, List.replicate 512 2⟩ 0) := ⟨_, rfl⟩
  have himg : u.img = fun _ => 1 := by rw [hu]; rfl
  have hsaved : u.layer.saved 0 = false := by rw [hu]; rfl
  have hcopy : u.pc .copy = .pread ⟨0, List.replicate 512 2⟩ 0 := by rw [hu]; exact goto_pc _
  have hmain : (u.pc .main).isIdle = true := by rw [hu]; rfl
  have hmay : MayStart u .main ⟨512, List.replicate 512 3⟩ := by
    rw [hu]
    exact fun h => Nat.lt_irrefl _ h.1
  obtain ⟨n, s, h1, h2, h3, h4⟩ := run_alone 1024 hmain hmay
  obtain ⟨h5, h6⟩ := pwrite_parts h4
  have hby : SavedBy 1024 u.img 0 (Reaches 512 512 0) u.layer s.layer := by
    rw [← h6, List.length_replicate]
    exact preserve_chunk (by decide)
  have hstored : SeedStored 1024 (fun _ => 1) s 0 := by
    intro x hx
    have h := hby.fresh (by decide) hsaved (by rw [himg]; exact worth_zero.2) x hx
    rw [himg] at h
    exact h
  have h512 : s.img 512 = 3 := by
    rw [← h5]
    exact putList_replicate 512 0 (by decide)
  have hin : InChunk 1024 0 512 := ⟨by omega, rfl⟩
  have hz : ¬allZero (oldChunk 1024 s.img 0) = true := fun h => by
    have h := allZero_chunk.mp h 512 hin
    rw [h512] at h
    cases h
  have hpc : s.pc .copy = .pread ⟨0, List.replicate 512 2⟩ 0 := (h3.other _ (by decide)).trans hcopy
  have g1 : raceStep 1024 s (.step .copy) = some (s.goto .copy
      (.store ⟨0, List.replicate 512 2⟩ 0 (oldChunk 1024 s.img 0))) := raceStep_step hpc
  obtain ⟨t, g2, _, g3, _⟩ := step_store 1024 (s:=s.goto .copy
    (.store ⟨0, List.replicate 512 2⟩ 0 (oldChunk 1024 s.img 0))) (goto_pc _)
  rw [if_neg hz] at g3
  have hlen : (List.replicate 512 (2 : UInt8)).length = 512 := List.length_replicate
  have e1 : raceStep 1024 (freshRace 1024) (.flag 0 512)
      = some { freshRace 1024 with copying := some (0, 512) } := rfl
  have e2 := step_start 1024 (s:={ freshRace 1024 with copying := some (0, 512) }) (w:=.copy)
    ⟨0, List.replicate 512 2⟩ rfl ⟨rfl, by rw [hlen]⟩
  have e3 := step_unsaved 1024 (s:={ freshRace 1024 with copying := some (0, 512) }.goto .copy
    (.chunk ⟨0, List.replicate 512 2⟩ 0)) (goto_pc _)
    (by unfold WriteOp.last; rw [hlen]; decide) (by decide)
  refine ⟨n, s, t, exec_cons_some.mpr ⟨_, e1, exec_cons_some.mpr ⟨_, e2, exec_cons_some.mpr
    ⟨_, e3, ?_⟩⟩⟩, exec_cons_some.mpr ⟨_, g1, exec_cons_some.mpr ⟨_, g2, rfl⟩⟩, freshRace_ready 1024,
    worth_zero, hstored, fun h => ?_⟩
  · rw [hu] at h1
    exact h1.1
  · have h := h 512 hin
    rw [g3] at h
    rw [Sparse.write_in (inChunk_old.mp hin), getElem?_old hin, h512] at h
    cases h

end CDP
