import DmCdp.Lib.Machine
import DmCdp.Daemon.Replica

/-!
# Parking: the main loop and `.rebuild.lock`

One action is one step of an iteration of `Daemon.main`, with `consume`, `apply_pending` and the
drain of `mark_consistent` taken apart; the lock file comes and goes between any two of them.
There is no copy thread.

* `ParkSt.out`       the records consumed and not yet in the replica, in the order in which they
                     will be replayed;
* `ParkOk`           a record applied by `consume` meets no record in `pending.bin`;
* `parking_order`    in a run that keeps to it, an iteration that ends without lock and
                     `pending.bin` leaves all consumed records applied in order;
* `parked_late`      the run that does not.
-/

set_option linter.unusedVariables false

namespace CDP
open Img Mach

/-! ## the main loop -/

/-- where the main thread is.  `drain` tells the `consume` of `mark_consistent` from the one of
the loop; `rest` is what `iter_records` has not yielded yet. -/
inductive ParkPc where
  | top
  | called (drain : Bool) (batch : List Item)
  | consuming (drain park : Bool) (parked rest : List Item)
  | consumed
  | applying (rest : List Item)
  | settled
  | draining

def ParkPc.isTop : ParkPc → Bool
  | .top => true
  | _ => false

theorem ParkPc.isTop_iff {pc : ParkPc} : pc.isTop = true ↔ pc = .top := by
  cases pc <;> simp [ParkPc.isTop]

structure ParkSt where
  c : Shared
  gaps : Gaps
  pending : Option (List Item)
  lock : Bool
  pc : ParkPc
  -- ghost: the records consumed so far, and a bound on their numbers
  done : List Item
  next : Nat

def ParkSt.init (img : Nat → UInt8) : ParkSt := ⟨.init img, ⟨none, []⟩, none, false, .top, [], 0⟩

/-- numbers that increase, from `n` on -/
def increasing : Nat → List Item → Bool
  | _, [] => true
  | n, r :: l => n ≤ r.hdr.seq && increasing (r.hdr.seq + 1) l

/-- a batch as `cdp_read` returns it: whole records, no gap -/
def batchOk (n : Nat) (l : List Item) : Bool :=
  increasing n l && l.all fun r => !hasFlag r.hdr.flags FGapBefore

/-- `os.read`; `[]` stands for no data -/
def readPark (s : ParkSt) (batch : List Item) : Option ParkSt :=
  if batchOk s.next batch = true then
    match s.pc with
    | .top =>
      if batch = [] then some { s with pc := .consumed }
      else some { s with pc := .called false batch }
    | .draining =>
      if batch = [] then some { s with pc := .top } else some { s with pc := .called true batch }
    | _ => none
  else none

/-- `park = self.paused()` -/
def testPark (s : ParkSt) : Option ParkSt :=
  match s.pc with
  | .called drain batch => some { s with pc := .consuming drain s.lock [] batch }
  | _ => none

/-- one record in the loop of `consume`, or the write of `parked` after it -/
def consumePark (s : ParkSt) : Option ParkSt :=
  match s.pc with
  | .consuming drain park parked (r :: rest) =>
    some { s with
      gaps := s.gaps.note r
      c := if park then s.c else s.c.applyOne r
      pc := .consuming drain park (if park then parked ++ [r] else parked) rest
      done := s.done ++ [r]
      next := r.hdr.seq + 1 }
  | .consuming drain park parked [] =>
    some { s with
      pending := if parked = [] then s.pending else some (s.pending.getD [] ++ parked)
      pc := if drain then .draining else .consumed }
  | _ => none

/-- `if not self.paused() and os.path.exists(self.pending_path)` -/
def testPending (s : ParkSt) : Option ParkSt :=
  match s.pc with
  | .consumed =>
    match s.lock, s.pending with
    | false, some l => some { s with pc := .applying l }
    | _, _ => some { s with pc := .settled }
  | _ => none

/-- one record in the loop of `apply_pending`, or the `unlink` after it -/
def applyPark (s : ParkSt) : Option ParkSt :=
  match s.pc with
  | .applying (r :: rest) => some { s with c := s.c.applyOne r, pc := .applying rest }
  | .applying [] => some { s with pending := none, pc := .settled }
  | _ => none

/-- the end of the iteration; `mark` when `mark_consistent` is due and the freeze succeeds -/
def endPark (s : ParkSt) (mark : Bool) : Option ParkSt :=
  match s.pc with
  | .settled => some { s with pc := if mark && !s.lock then .draining else .top }
  | _ => none

/-- the daemon is restarted between two iterations -/
def restartPark (s : ParkSt) : Option ParkSt :=
  match s.pc with
  | .top => some { s with c := .init s.c.img, gaps := ⟨none, []⟩ }
  | _ => none

inductive ParkAct where
  | lock (on : Bool)
  | read (batch : List Item)
  | test
  | consume
  | pendingTest
  | apply
  | finish (mark : Bool)
  | restart

def pstep (s : ParkSt) : ParkAct → Option ParkSt
  | .lock on => some { s with lock := on }
  | .read batch => readPark s batch
  | .test => testPark s
  | .consume => consumePark s
  | .pendingTest => testPending s
  | .apply => applyPark s
  | .finish mark => endPark s mark
  | .restart => restartPark s

/-! ## the order of the outstanding records -/

/-- records set aside by the `consume` under way -/
def ParkPc.parked : ParkPc → List Item
  | .consuming _ _ parked _ => parked
  | _ => []

/-- what is still to be replayed of `pending.bin` -/
def ParkPc.left (pending : Option (List Item)) : ParkPc → List Item
  | .applying rest => rest
  | _ => pending.getD []

def ParkSt.out (s : ParkSt) : List Item := s.pc.left s.pending ++ s.pc.parked

/-- a record that `consume` applies meets no record in `pending.bin` -/
def ParkOk (s : ParkSt) : ParkAct → Prop
  | .consume => ∀ drain parked r rest, s.pc = .consuming drain false parked (r :: rest) →
      ∀ x, Clear (patches (s.pending.getD [])) r.patch x
  | _ => True

/-- the property: an iteration has ended, lock and `pending.bin` are absent -/
def InOrder (img : Nat → UInt8) (s : ParkSt) : Prop :=
  s.pc = .top → s.lock = false → s.pending = none → s.c.img = replay (patches s.done) img

structure ParkInv (img : Nat → UInt8) (s : ParkSt) : Prop where
  copying : s.c.copying = none
  parked : ∀ drain parked rest, s.pc = .consuming drain false parked rest → parked = []
  fresh : ∀ x, Fresh (patches s.out) s.c.img (replay (patches s.done) img) x

section
variable {img : Nat → UInt8} {s s' : ParkSt}

theorem ParkInv.same (h : ParkInv img s) (hc : s'.c.copying = none) (hi : s'.c.img = s.c.img)
    (hd : s'.done = s.done) (ho : s'.out = s.out)
    (hp : ∀ drain parked rest, s'.pc = .consuming drain false parked rest → parked = []) :
    ParkInv img s' := by
  refine ⟨hc, hp, fun x => ?_⟩
  rw [ho, hi, hd]
  exact h.fresh x

theorem replay_snoc (l : List Item) (r : Item) (img : Nat → UInt8) :
    replay (patches (l ++ [r])) img = overlay r.patch (replay (patches l) img) := by
  rw [patches_snoc, replay_append]
  rfl

theorem out_of (e : s.pc.left s.pending ++ s.pc.parked = s'.pc.left s'.pending ++ s'.pc.parked) :
    s'.out = s.out := e.symm

theorem ParkInv.read {batch : List Item} (h : ParkInv img s) (hs : readPark s batch = some s') :
    ParkInv img s' := by
  unfold readPark at hs
  split at hs
  · split at hs
    · rename_i hpc
      split at hs
      all_goals
        obtain rfl := Option.some.inj hs
        exact h.same h.copying rfl rfl (out_of (by rw [hpc]; rfl)) (fun _ _ _ e => by cases e)
    · rename_i hpc
      split at hs
      all_goals
        obtain rfl := Option.some.inj hs
        exact h.same h.copying rfl rfl (out_of (by rw [hpc]; rfl)) (fun _ _ _ e => by cases e)
    · exact absurd hs (by simp)
  · exact absurd hs (by simp)

/-- **`consume`**: a parked record queues up last, an applied one overtakes what is parked. -/
theorem ParkInv.consume (h : ParkInv img s) (hg : ParkOk s .consume)
    (hs : consumePark s = some s') : ParkInv img s' := by
  unfold consumePark at hs
  split at hs
  · rename_i drain park parked r rest hpc
    obtain rfl := Option.some.inj hs
    have hout : s.out = s.pending.getD [] ++ parked := by
      unfold ParkSt.out
      rw [hpc]
      rfl
    have hw : ∀ x, Fresh (patches (s.out ++ [r])) s.c.img
        (replay (patches (s.done ++ [r])) img) x := by
      intro x
      rw [patches_snoc, replay_snoc]
      exact fresh_write (h.fresh x)
    cases park with
    | true =>
      refine ⟨h.copying, (fun _ _ _ e => by cases e), fun x => ?_⟩
      have hx := hw x
      rw [hout, List.append_assoc] at hx
      exact hx
    | false =>
      obtain rfl := h.parked drain parked (r :: rest) hpc
      obtain ⟨e1, e2⟩ := applyOne_alone (r:=r) h.copying
      refine ⟨e2, fun _ _ _ e => by cases e; rfl, fun x => ?_⟩
      have hx := hw x
      rw [hout, List.append_nil, patches_snoc] at hx
      have ht := fresh_take (show Fresh (_ ++ r.patch :: []) _ _ x from hx) (hg drain [] r rest hpc x)
      show Fresh (patches (s.pending.getD [] ++ [])) (s.c.applyOne r).img _ x
      rw [e1, List.append_nil]
      rw [List.append_nil] at ht
      exact ht
  · rename_i drain park parked hpc
    obtain rfl := Option.some.inj hs
    refine h.same h.copying rfl rfl (out_of ?_) (fun _ _ _ e => ?_)
    · rw [hpc]
      show s.pending.getD [] ++ parked = _
      by_cases hp : parked = []
      · rw [if_pos hp, hp]
        cases drain <;> rfl
      · rw [if_neg hp]
        cases drain <;> exact (List.append_nil _).symm
    · cases drain <;> cases e
  · exact absurd hs (by simp)

theorem ParkInv.apply (h : ParkInv img s) (hs : applyPark s = some s') : ParkInv img s' := by
  unfold applyPark at hs
  split at hs
  · rename_i r rest hpc
    obtain rfl := Option.some.inj hs
    obtain ⟨e1, e2⟩ := applyOne_alone (r:=r) h.copying
    refine ⟨e2, (fun _ _ _ e => by cases e), fun x => ?_⟩
    have hx := h.fresh x
    unfold ParkSt.out at hx
    rw [hpc] at hx
    show Fresh _ (s.c.applyOne r).img _ x
    rw [e1]
    exact fresh_head hx
  · rename_i hpc
    obtain rfl := Option.some.inj hs
    exact h.same h.copying rfl rfl (out_of (by rw [hpc]; rfl)) (fun _ _ _ e => by cases e)
  · exact absurd hs (by simp)

theorem ParkInv.step {a : ParkAct} (h : ParkInv img s) (hg : ParkOk s a)
    (hs : pstep s a = some s') : ParkInv img s' := by
  cases a with
  | lock on =>
    obtain rfl := Option.some.inj hs
    exact h.same h.copying rfl rfl rfl h.parked
  | read batch => exact h.read hs
  | test =>
    change testPark s = some s' at hs
    unfold testPark at hs
    split at hs
    · rename_i drain batch hpc
      obtain rfl := Option.some.inj hs
      refine h.same h.copying rfl rfl (out_of (by rw [hpc]; rfl)) (fun _ _ _ e => ?_)
      exact (ParkPc.consuming.inj e).2.2.1.symm
    · exact absurd hs (by simp)
  | consume => exact h.consume hg hs
  | pendingTest =>
    change testPending s = some s' at hs
    unfold testPending at hs
    split at hs
    · rename_i hpc
      split at hs
      · rename_i l hl hp
        obtain rfl := Option.some.inj hs
        refine h.same h.copying rfl rfl (out_of ?_) (fun _ _ _ e => by cases e)
        rw [hpc, hp]
        rfl
      · obtain rfl := Option.some.inj hs
        exact h.same h.copying rfl rfl (out_of (by rw [hpc]; rfl)) (fun _ _ _ e => by cases e)
    · exact absurd hs (by simp)
  | apply => exact h.apply hs
  | finish mark =>
    change endPark s mark = some s' at hs
    unfold endPark at hs
    split at hs
    · rename_i hpc
      obtain rfl := Option.some.inj hs
      refine h.same h.copying rfl rfl (out_of ?_) (fun _ _ _ e => ?_)
      · rw [hpc]
        dsimp only
        split <;> rfl
      · dsimp only at e
        split at e <;> cases e
    · exact absurd hs (by simp)
  | restart =>
    change restartPark s = some s' at hs
    unfold restartPark at hs
    split at hs
    · obtain rfl := Option.some.inj hs
      exact h.same rfl rfl rfl rfl h.parked
    · exact absurd hs (by simp)

end

/-- **Parking keeps the order of writes**, in a run that meets `ParkOk`. -/
theorem parking_order (img : Nat → UInt8) (as : List ParkAct) (s : ParkSt)
    (hg : Meets pstep ParkOk (ParkSt.init img) as)
    (h : exec pstep (ParkSt.init img) as = some s) : InOrder img s := by
  have h0 : ParkInv img (ParkSt.init img) :=
    ⟨rfl, (fun _ _ _ e => by cases e), fun x => rfl⟩
  have hi := exec_invariant_meets (P:=ParkInv img) (fun u a v hu hga hs => hu.step hga hs) h0 hg h
  intro hpc hl hp
  funext x
  have hx := hi.fresh x
  unfold ParkSt.out at hx
  rw [hpc, hp] at hx
  exact fresh_nil.mp hx

/-! ## the runs -/

def parkOkB (s : ParkSt) : ParkAct → Bool
  | .consume =>
    match s.pc with
    | .consuming _ false _ (r :: _) => (s.pending.getD []).all (Item.apart r)
    | _ => true
  | _ => true

theorem parkOk_of_test (s : ParkSt) (a : ParkAct) (h : parkOkB s a = true) : ParkOk s a := by
  cases a with
  | consume =>
    intro drain parked r rest hpc x
    unfold parkOkB at h
    rw [hpc] at h
    exact clear_of_apart h x
  | lock on => trivial
  | read batch => trivial
  | test => trivial
  | pendingTest => trivial
  | apply => trivial
  | finish mark => trivial
  | restart => trivial

def iteration (r : Item) : List ParkAct := [.read [r], .test, .consume, .consume, .pendingTest]

/-- a record is parked; after a restart and the removal of the lock one that does not meet it is
applied, then the parked one -/
def parkRun : List ParkAct :=
  [.lock true] ++ iteration (writeItem 0 0 1) ++ [.finish true, .restart, .lock false] ++
    iteration (trimItem 1 8) ++ [.apply, .apply, .finish false]

theorem parking_order_run : ∃ s, exec pstep (ParkSt.init fun _ => 7) parkRun = some s ∧
    (s.done.length = 2 ∧ s.c.img 0 = 1 ∧ s.c.img 4096 = 0) ∧ InOrder (fun _ => 7) s := by
  have h : (exec pstep (ParkSt.init fun _ => 7) parkRun).any
      (fun s => s.done.length == 2 && (s.c.img 0 == 1 && s.c.img 4096 == 0)) = true := by
    decide +kernel
  obtain ⟨s, hs, hp⟩ := (Option.any_eq_true _ _).mp h
  simp only [Bool.and_eq_true, beq_iff_eq] at hp
  exact ⟨s, hs, hp, parking_order (fun _ => 7) parkRun s
    (meets_of_meetsB parkOk_of_test (by decide +kernel)) hs⟩

/-- a record is parked; once the lock is gone, a newer one for the same sector is applied before
it -/
def parkRace : List ParkAct :=
  [.lock true] ++ iteration (writeItem 0 0 1) ++ [.finish false, .lock false] ++
    iteration (trimItem 1 0) ++ [.apply, .apply, .finish false]

/-- **The race**: the parked record overwrites the newer one. -/
theorem parked_late : ∃ s, exec pstep (ParkSt.init fun _ => 0) parkRace = some s ∧
    ¬InOrder (fun _ => 0) s := by
  have h : (exec pstep (ParkSt.init fun _ => 0) parkRace).any
      (fun s => s.pc.isTop && (!s.lock && (s.pending.isNone &&
        s.c.img 0 != replay (patches s.done) (fun _ => 0) 0))) = true := by
    decide +kernel
  obtain ⟨s, hs, hp⟩ := (Option.any_eq_true _ _).mp h
  simp only [Bool.and_eq_true, Bool.not_eq_true', Option.isNone_iff_eq_none, bne_iff_ne] at hp
  obtain ⟨ht, hl, hn, hne⟩ := hp
  exact ⟨s, hs, fun hall => hne (congrFun (hall (ParkPc.isTop_iff.mp ht) hl hn) 0)⟩

end CDP
