import DmCdp.Daemon.Copy

/-!
# Chunk copies that fail

`Daemon.apply_one` of the main thread against one copy thread at a time.  `dev.read` and the
`pwrite`s inside `copy_chunk` may raise, which ends the thread; another one may start later.

* `FailSt.passed`, `FailSt.written`  the records given to `apply_one` and the ones written;
* `CopySafe`       the flag is set only inside `copy_chunk`, outside of it nothing is put off, and
                   without a thread nothing that was passed is missing;
* `raise_unsafe`   a `read` or `pwrite` that raises breaks it at once;
* `copies_safe`    it holds in every state of a run in which nothing raises;
* `copy_fails`     a run in which a `read` does, and a later record waits for ever.
-/

set_option linter.unusedVariables false

namespace CDP
open Img Mach

/-! ## the machine -/

/-- a copy thread; `skip` is `skip_zero is not None` -/
structure Copier where
  skip : Bool
  pc : ChunkPc

structure FailSt where
  c : Shared
  thread : Option Copier
  -- ghost: what `apply_one` has been given, what `replica.write` has written
  passed : List Item
  written : List Item

def FailSt.init (img : Nat → UInt8) : FailSt := ⟨.init img, none, [], []⟩

def FailSt.applyOne (s : FailSt) (r : Item) : FailSt :=
  { s with c := s.c.applyOne r, written := if s.c.Defers r then s.written else s.written ++ [r] }

inductive FailAct where
  -- the main thread
  | apply (r : Item)
  -- a copy thread starts, begins a chunk, goes on, returns from `copy_chunk`, ends
  | spawn (skip : Bool)
  | begin (off n : Nat)
  | chunk (dev : Nat → UInt8) (m : Nat)
  | finish
  | exit
  -- the `read`, the `pwrite` or the `replica.write` of a late record raises
  | raise

def failStep (s : FailSt) : FailAct → Option FailSt
  | .apply r => some { s.applyOne r with passed := s.passed ++ [r] }
  | .spawn skip =>
    match s.thread with
    | none => some { s with thread := some ⟨skip, .idle⟩ }
    | some _ => none
  | .begin off n =>
    match s.thread with
    | some ⟨skip, .idle⟩ =>
      some { s with c := s.c.flag off n, thread := some ⟨skip, .flagged off n⟩ }
    | _ => none
  | .chunk dev m =>
    match s.thread with
    | some ⟨skip, .replaying k (r :: late)⟩ =>
      some { s.applyOne r with thread := some ⟨skip, .replaying k late⟩ }
    | some ⟨skip, pc⟩ =>
      (chunkStep skip dev m s.c pc).map fun r => { s with c := r.1, thread := some ⟨skip, r.2⟩ }
    | none => none
  | .finish =>
    match s.thread with
    | some ⟨skip, .replaying _ []⟩ => some { s with thread := some ⟨skip, .idle⟩ }
    | _ => none
  | .exit =>
    match s.thread with
    | some ⟨_, .idle⟩ => some { s with thread := none }
    | _ => none
  | .raise =>
    match s.thread with
    | some ⟨_, .flagged _ _⟩ => some { s with thread := none }
    | some ⟨skip, .holding _ _ buf⟩ =>
      if buf ≠ [] ∧ ¬(skip = true ∧ allZero buf = true) then some { s with thread := none } else none
    | some ⟨_, .replaying _ (_ :: _)⟩ => some { s with thread := none }
    | _ => none

/-! ## the property -/

def FailSt.pc (s : FailSt) : ChunkPc :=
  match s.thread with
  | some t => t.pc
  | none => .idle

structure CopySafe (s : FailSt) : Prop where
  /-- `self.copying` is set only while a thread is inside `copy_chunk` -/
  flag : s.c.copying ≠ none → s.pc ≠ .idle
  /-- where `copy_chunk` begins, `self.deferred = []` drops nothing -/
  kept : s.pc = .idle → s.c.deferred = []
  /-- with no thread alive every record passed has been written -/
  all : s.thread = none → s.passed.Perm s.written

def NoRaise (_ : FailSt) : FailAct → Prop
  | .raise => False
  | _ => True

/-! ## what the steps keep -/

/-- the flag is that of the chunk in flight, and every record passed is written or waits -/
structure FailInv (s : FailSt) : Prop where
  copying : s.c.copying = s.pc.range
  empty : s.pc.range = none → s.c.deferred = []
  all : s.passed.Perm (s.written ++ waiting s.c s.pc)

theorem FailInv.init (img : Nat → UInt8) : FailInv (FailSt.init img) :=
  ⟨rfl, fun _ => rfl, List.Perm.refl _⟩

section
variable {s s' : FailSt}

theorem FailInv.safe (h : FailInv s) : CopySafe s := by
  refine ⟨fun hc hi => ?_, fun hi => h.empty (by rw [hi]; rfl), fun ht => ?_⟩
  · rw [h.copying, hi] at hc
    exact hc rfl
  · have hpc : s.pc = .idle := by
      unfold FailSt.pc
      rw [ht]
    have hp := h.all
    have hd := h.empty (by rw [hpc]; rfl)
    rw [hpc, waiting, hd] at hp
    rwa [show ChunkPc.late .idle ++ ([] : List Item) = [] from rfl, List.append_nil] at hp

/-- `apply_one` of a record that is nowhere yet: it is written, or waits -/
theorem perm_applied {r : Item} {l late : List Item}
    (h : l.Perm (s.written ++ (late ++ s.c.deferred) ++ [r])) :
    l.Perm ((s.applyOne r).written ++ (late ++ (s.applyOne r).c.deferred)) := by
  change l.Perm ((if s.c.Defers r then s.written else s.written ++ [r])
    ++ (late ++ (s.c.applyOne r).deferred))
  by_cases hd : s.c.Defers r
  · rw [if_pos hd, applyOne_defers hd]
    rwa [← List.append_assoc late, ← List.append_assoc s.written]
  · obtain ⟨_, _, e⟩ := applyOne_direct hd
    rw [if_neg hd, e, List.append_assoc s.written]
    rw [List.append_assoc s.written] at h
    exact h.trans (List.perm_append_comm.append_left s.written)

theorem applyOne_copying (c : Shared) (r : Item) : (c.applyOne r).copying = c.copying := by
  by_cases hd : c.Defers r
  · rw [applyOne_defers hd]
  · exact (applyOne_direct hd).2.1

theorem FailInv.applied (h : FailInv s) (r : Item) :
    FailInv { s.applyOne r with passed := s.passed ++ [r] } := by
  refine ⟨(applyOne_copying s.c r).trans h.copying, fun e => ?_, ?_⟩
  · have hd : ¬s.c.Defers r := by
      unfold Shared.Defers
      rw [h.copying, show s.pc.range = none from e]
      exact id
    exact (applyOne_direct hd).2.2.trans (h.empty e)
  · exact perm_applied (h.all.append_right [r])

theorem FailInv.replayed {skip : Bool} {k : Nat} {r : Item} {late : List Item} (h : FailInv s)
    (ht : s.thread = some ⟨skip, .replaying k (r :: late)⟩) :
    FailInv { s.applyOne r with thread := some ⟨skip, .replaying k late⟩ } := by
  have hpc : s.pc = .replaying k (r :: late) := by
    unfold FailSt.pc
    rw [ht]
  have hc : s.c.copying = none := h.copying.trans (by rw [hpc]; rfl)
  have hd : ¬s.c.Defers r := by
    unfold Shared.Defers
    rw [hc]
    exact id
  refine ⟨(applyOne_copying s.c r).trans hc, fun _ => ?_, ?_⟩
  · exact (applyOne_direct hd).2.2.trans (h.empty (by rw [hpc]; rfl))
  · apply perm_applied
    have ha := h.all
    rw [hpc] at ha
    refine ha.trans ?_
    rw [List.append_assoc s.written]
    exact (List.perm_append_comm : ([r] ++ _).Perm _).append_left s.written

theorem FailInv.moved {skip : Bool} {pc pc' : ChunkPc} {c : Shared} (h : FailInv s)
    (ht : s.thread = some ⟨skip, pc⟩) (hc : c.copying = pc'.range)
    (he : pc'.range = none → c.deferred = []) (hw : waiting c pc' = waiting s.c pc) :
    FailInv { s with c := c, thread := some ⟨skip, pc'⟩ } := by
  have hpc : s.pc = pc := by
    unfold FailSt.pc
    rw [ht]
  refine ⟨hc, he, ?_⟩
  change s.passed.Perm (s.written ++ waiting c pc')
  rw [hw, ← hpc]
  exact h.all

theorem FailInv.step {a : FailAct} (h : FailInv s) (hg : NoRaise s a)
    (hs : failStep s a = some s') : FailInv s' := by
  have hpc : ∀ t, s.thread = some t → s.pc = t.pc := by
    intro t e
    unfold FailSt.pc
    rw [e]
  cases a with
  | apply r =>
    obtain rfl := Option.some.inj hs
    exact h.applied r
  | spawn skip =>
    simp only [failStep] at hs
    cases ht : s.thread with
    | some t => rw [ht] at hs; cases hs
    | none =>
      rw [ht] at hs
      obtain rfl := Option.some.inj hs
      have hi : s.pc = .idle := by
        unfold FailSt.pc
        rw [ht]
      have h1 := h.copying
      have h2 := h.empty
      have h3 := h.all
      rw [hi] at h1 h2 h3
      exact ⟨h1, h2, h3⟩
  | begin off n =>
    simp only [failStep] at hs
    split at hs
    · rename_i skip ht
      obtain rfl := Option.some.inj hs
      refine h.moved ht rfl (fun _ => rfl) ?_
      rw [waiting, waiting, h.empty (by rw [hpc _ ht]; rfl)]
      rfl
    · cases hs
  | chunk dev m =>
    simp only [failStep] at hs
    split at hs
    · rename_i skip k r late ht
      obtain rfl := Option.some.inj hs
      exact h.replayed ht
    · rename_i skip pc hne ht
      obtain ⟨⟨c, pc'⟩, hst, rfl⟩ := Option.map_eq_some_iff.mp hs
      have h1 := h.copying
      have h2 := h.empty
      rw [hpc _ ht] at h1 h2
      cases pc with
      | idle => cases hst
      | flagged off n =>
        change (if m ≤ n then _ else none) = _ at hst
        split at hst
        · obtain ⟨rfl, rfl⟩ := Prod.mk.inj (Option.some.inj hst)
          exact h.moved ht h1 h2 rfl
        · cases hst
      | holding off n buf =>
        obtain ⟨rfl, rfl⟩ := Prod.mk.inj (Option.some.inj hst)
        obtain ⟨e1, e2⟩ := store_same s.c skip off buf
        refine h.moved ht (e1.trans h1) (fun e => e2.trans (h2 e)) ?_
        rw [waiting, waiting, e2]
        rfl
      | stored off n k =>
        obtain ⟨rfl, rfl⟩ := Prod.mk.inj (Option.some.inj hst)
        exact h.moved ht rfl (fun _ => rfl) (List.append_nil _)
      | replaying k late =>
        cases late with
        | nil => cases hst
        | cons r late => exact (hne k r late rfl).elim
    · cases hs
  | finish =>
    simp only [failStep] at hs
    split at hs
    · rename_i skip k ht
      obtain rfl := Option.some.inj hs
      have h1 := h.copying
      have h2 := h.empty
      rw [hpc _ ht] at h1 h2
      exact h.moved ht h1 h2 rfl
    · cases hs
  | exit =>
    simp only [failStep] at hs
    split at hs
    · rename_i skip ht
      obtain rfl := Option.some.inj hs
      have h1 := h.copying
      have h2 := h.empty
      have h3 := h.all
      rw [hpc _ ht] at h1 h2 h3
      exact ⟨h1, h2, h3⟩
    · cases hs
  | raise => exact hg.elim

/-- **A `read` or `pwrite` that raises**: the flag stays set, or late records are lost. -/
theorem raise_unsafe (h : FailInv s) (hs : failStep s .raise = some s') : ¬CopySafe s' := by
  have hpc : ∀ t, s.thread = some t → s.pc = t.pc := by
    intro t e
    unfold FailSt.pc
    rw [e]
  have hset : ∀ off n : Nat, s.c.copying = some (off, off + n) →
      ¬CopySafe { s with thread := none } := by
    intro off n hc hsafe
    refine hsafe.flag ?_ rfl
    show s.c.copying ≠ none
    rw [hc]
    exact Option.some_ne_none _
  simp only [failStep] at hs
  split at hs
  · rename_i skip off n ht
    obtain rfl := Option.some.inj hs
    exact hset off n (h.copying.trans (by rw [hpc _ ht]; rfl))
  · rename_i skip off n buf ht
    split at hs
    · obtain rfl := Option.some.inj hs
      exact hset off n (h.copying.trans (by rw [hpc _ ht]; rfl))
    · cases hs
  · rename_i skip k r late ht
    obtain rfl := Option.some.inj hs
    intro hsafe
    have hl := (hsafe.all rfl).length_eq
    have hr := h.all.length_eq
    rw [hpc _ ht, waiting, List.length_append, List.length_append] at hr
    change s.passed.length = s.written.length at hl
    change s.passed.length = s.written.length + ((r :: late).length + s.c.deferred.length) at hr
    rw [List.length_cons] at hr
    omega
  · cases hs

end

/-- **No record is lost** in a run exactly if nothing raises in it. -/
theorem copies_safe (img : Nat → UInt8) (as : List FailAct) (s : FailSt)
    (h : exec failStep (FailSt.init img) as = some s) :
    Always failStep CopySafe (FailSt.init img) as ↔
      Meets failStep NoRaise (FailSt.init img) as := by
  refine always_iff_meets (I:=FailInv) (fun _ hi => hi.safe) (fun _ _ _ hi hg hs => hi.step hg hs)
    (fun s a t hi hn hs => ?_) (FailInv.init img) h
  cases a with
  | raise => exact raise_unsafe hi hs
  | apply r => exact absurd trivial hn
  | spawn skip => exact absurd trivial hn
  | begin off n => exact absurd trivial hn
  | chunk dev m => exact absurd trivial hn
  | finish => exact absurd trivial hn
  | exit => exact absurd trivial hn

/-! ## the runs -/

/-- a record for the chunk in flight is put off and replayed, one outside of it written at once -/
def quietCopy : List FailAct :=
  [.spawn false, .begin 0 512, .apply (writeItem 0 0 1), .apply (writeItem 1 1 2),
    .chunk (fun _ => 0) 512, .chunk (fun _ => 0) 0, .chunk (fun _ => 0) 0, .chunk (fun _ => 0) 0,
    .finish, .exit]

theorem copies_safe_run : ∃ s, exec failStep (FailSt.init fun _ => 0) quietCopy = some s ∧
    Always failStep CopySafe (FailSt.init fun _ => 0) quietCopy := by
  have h : (exec failStep (FailSt.init fun _ => 0) quietCopy).isSome = true := by decide +kernel
  obtain ⟨s, hs⟩ := Option.isSome_iff_exists.mp h
  refine ⟨s, hs, (copies_safe (fun _ => 0) quietCopy s hs).mpr ?_⟩
  refine meets_of_forall fun a ha t => ?_
  simp only [quietCopy, List.mem_cons, List.not_mem_nil, or_false] at ha
  rcases ha with rfl | rfl | rfl | rfl | rfl | rfl | rfl | rfl | rfl | rfl <;> trivial

/-- the `read` of a recovery's chunk raises; then a record for that chunk arrives -/
def readError : List FailAct :=
  [.spawn false, .begin 0 512, .raise, .apply (writeItem 0 0 1)]

/-- **The failing read**: no thread is alive, the flag is set, and the record is not written. -/
theorem copy_fails : ∃ s, exec failStep (FailSt.init fun _ => 0) readError = some s ∧
    (s.thread.isNone = true ∧ s.passed.length = 1 ∧ s.written.length = 0) ∧ ¬CopySafe s := by
  have h : (exec failStep (FailSt.init fun _ => 0) readError).any
      (fun s => s.thread.isNone && (s.passed.length == 1 && s.written.length == 0)) = true := by
    decide +kernel
  obtain ⟨s, hs, hp⟩ := (Option.any_eq_true _ _).mp h
  simp only [Bool.and_eq_true, beq_iff_eq] at hp
  refine ⟨s, hs, hp, fun hsafe => ?_⟩
  have hl := (hsafe.all (Option.isNone_iff_eq_none.mp hp.1)).length_eq
  omega

end CDP
