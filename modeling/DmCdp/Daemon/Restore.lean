import DmCdp.Daemon.Mark

/-!
# `rkcdp-rebuild --from replica` and the consistent point

The node through its boots with `mark_consistent` in full, and any number of rebuilds, each of
which copies `replica.raw` from its beginning to its end.  None of them looks at
`manifest.consistent`.

* `Stamp`            what `mark_consistent` has recorded, with the replica at that moment;
* `RestoreRun`       a rebuild: where it is, the stamp in the manifest it loaded, its copy;
* `Restored`         every finished copy is the replica of the stamp, and the stamp is good;
* `RestoreOk`        the point is recorded under `MarkOk`; at the check the replica is still that of
                     the stamp, and no byte changes that a rebuild has yet to copy;
* `copies_point`     in a run that keeps to it every copy is of the consistent point;
* `point_overwritten`  the run with one write after the point.
-/

set_option linter.unusedVariables false

namespace CDP
open Img Mach

/-! ## the machine -/

/-- `manifest.consistent`; ghost: the replica, the records applied and the thaw it comes from -/
structure Stamp where
  seq : Option Nat
  img : Nat → UInt8
  done : Nat → Bool
  thaw : Point

/-- where a rebuild is; `copying` with the bytes that `cp` has read -/
inductive RestorePc where
  | checked
  | copying (pos : Nat)
  | ready
  | gone

structure RestoreRun where
  pc : RestorePc
  -- `consistent` in the manifest that it loaded
  stamp : Option Stamp
  img : Nat → UInt8

structure RestoreSt where
  m : MarkSt
  -- `consistent` in `manifest.json`
  stamp : Option Stamp
  runs : List RestoreRun

def RestoreSt.init (cfg : NodeConfig) (dev img : Nat → UInt8) : RestoreSt :=
  ⟨.init cfg dev img, none, []⟩

def stampAfter (s : RestoreSt) (m : MarkSt) : MarkAct → Option Stamp
  | .write =>
    match m.phase with
    | .written seq p => some ⟨seq, m.n.c.img, m.done, p⟩
    | _ => s.stamp
  | _ => s.stamp

/-- the checks of step 1; where `base_end_seq` is not there, `finally` removes the lock file -/
def checkRestore (cfg : NodeConfig) (s : RestoreSt) : Option RestoreSt :=
  if s.m.n.files.baseEnd = none then
    (markStep cfg s.m (.node (.lock false))).map fun m => { s with m := m }
  else some { s with runs := s.runs ++ [⟨.checked, s.stamp, fun _ => 0⟩] }

/-- step 2: the lock file is written; the wait may end at any time -/
def lockRestore (cfg : NodeConfig) (s : RestoreSt) (i : Nat) : Option RestoreSt :=
  match s.runs[i]? with
  | some ⟨.checked, p, img⟩ =>
    (markStep cfg s.m (.node (.lock true))).map fun m =>
      { s with m := m, runs := s.runs.set i ⟨.copying 0, p, img⟩ }
  | _ => none

/-- `cp` reads `k` bytes more -/
def copyRestore (s : RestoreSt) (i k : Nat) : Option RestoreSt :=
  match s.runs[i]? with
  | some ⟨.copying pos, p, img⟩ =>
    some { s with runs := s.runs.set i ⟨.copying (pos + k), p,
      fun x => if pos ≤ x ∧ x < pos + k then s.m.n.c.img x else img x⟩ }
  | _ => none

/-- the copy is complete; `os.remove(lock)` raises if the file is not there -/
def finishRestore (cfg : NodeConfig) (s : RestoreSt) (i : Nat) : Option RestoreSt :=
  match s.runs[i]? with
  | some ⟨.copying pos, p, img⟩ =>
    if cfg.target.size ≤ pos ∧ s.m.n.files.lock = true then
      (markStep cfg s.m (.node (.lock false))).map fun m =>
        { s with m := m, runs := s.runs.set i ⟨.ready, p, img⟩ }
    else none
  | _ => none

/-- an exception before step 4: `finally` removes the lock file if there is one, whoever wrote it -/
def failRestore (cfg : NodeConfig) (s : RestoreSt) (i : Nat) : Option RestoreSt :=
  match s.runs[i]? with
  | some ⟨.checked, p, img⟩ | some ⟨.copying _, p, img⟩ =>
    (markStep cfg s.m (.node (.lock false))).map fun m =>
      { s with m := m, runs := s.runs.set i ⟨.gone, p, img⟩ }
  | _ => none

inductive RestoreAct where
  | mark (a : MarkAct)
  | check
  | lock (i : Nat)
  | copy (i k : Nat)
  | finish (i : Nat)
  | fail (i : Nat)

def restoreStep (cfg : NodeConfig) (s : RestoreSt) : RestoreAct → Option RestoreSt
  | .mark a => (markStep cfg s.m a).map fun m => { s with m := m, stamp := stampAfter s m a }
  | .check => checkRestore cfg s
  | .lock i => lockRestore cfg s i
  | .copy i k => copyRestore s i k
  | .finish i => finishRestore cfg s i
  | .fail i => failRestore cfg s i

/-! ## the property and the condition -/

/-- the replica at the stamp is the disk with the records up to `seq` and no others -/
structure Stamp.Good (cfg : NodeConfig) (p : Stamp) : Prop where
  seq : p.seq = lastOf p.thaw.next
  applied : ∀ k, k < p.thaw.next → p.done k = true
  replica : ∀ x, x < cfg.target.size → p.img x = p.thaw.disk x

def Restored (cfg : NodeConfig) (s : RestoreSt) : Prop :=
  ∀ r ∈ s.runs, r.pc = .ready → ∀ p, r.stamp = some p →
    p.Good cfg ∧ ∀ x, x < cfg.target.size → r.img x = p.img x

def RestoreRun.todo (r : RestoreRun) (x : Nat) : Prop :=
  match r.pc with
  | .checked => True
  | .copying pos => pos ≤ x
  | _ => False

def RestoreOk (cfg : NodeConfig) (s : RestoreSt) : RestoreAct → Prop
  | .mark a => MarkOk cfg s.m a ∧ ∀ m, markStep cfg s.m a = some m →
      ∀ r ∈ s.runs, r.stamp ≠ none → ∀ x, x < cfg.target.size → r.todo x →
        m.n.c.img x = s.m.n.c.img x
  | .check => ∀ p, s.stamp = some p → ∀ x, x < cfg.target.size → s.m.n.c.img x = p.img x
  | _ => True

/-! ## what every step keeps -/

/-- what has been copied is right, and what is to be copied is there -/
structure RestoreRun.Good (cfg : NodeConfig) (now : Nat → UInt8) (r : RestoreRun) : Prop where
  stamp : ∀ p, r.stamp = some p → p.Good cfg
  todo : ∀ p, r.stamp = some p → ∀ x, x < cfg.target.size → r.todo x → now x = p.img x
  copied : ∀ p, r.stamp = some p → r.pc ≠ .gone → ∀ x, x < cfg.target.size → ¬r.todo x →
    r.img x = p.img x

structure RestoreInv (cfg : NodeConfig) (s : RestoreSt) : Prop where
  mark : MarkInv cfg s.m
  stamp : ∀ p, s.stamp = some p → p.Good cfg
  runs : ∀ r ∈ s.runs, r.Good cfg s.m.n.c.img

section
variable {cfg : NodeConfig} {s s' : RestoreSt} {m m' : MarkSt} {r : RestoreRun}
  {now now' : Nat → UInt8}

theorem RestoreRun.Good.same (h : r.Good cfg now)
    (hi : r.stamp ≠ none → ∀ x, x < cfg.target.size → r.todo x → now' x = now x) :
    r.Good cfg now' := by
  refine ⟨h.stamp, fun p hp x hx ht => ?_, h.copied⟩
  rw [hi (by rw [hp]; exact Option.some_ne_none p) x hx ht]
  exact h.todo p hp x hx ht

theorem stamp_good {seq : Option Nat} {p : Point} (h : MarkInv cfg m) (hw : m.phase = .written seq p) :
    (⟨seq, m.n.c.img, m.done, p⟩ : Stamp).Good cfg := by
  have hph := h.phased
  unfold Phased at hph
  rw [hw] at hph
  exact ⟨hph.2.2.seq, hph.2.2.applied, hph.2.2.replica⟩

theorem stampAfter_good {a : MarkAct} (h : RestoreInv cfg s) (hm : MarkInv cfg m) :
    ∀ p, stampAfter s m a = some p → p.Good cfg := by
  intro p hp
  unfold stampAfter at hp
  split at hp
  · split at hp
    · rename_i seq q hw
      obtain rfl := Option.some.inj hp
      exact stamp_good hm hw
    · exact h.stamp p hp
  · exact h.stamp p hp

theorem lock_img {on : Bool} (h : MarkInv cfg m) (hs : markStep cfg m (.node (.lock on)) = some m') :
    MarkInv cfg m' ∧ m'.n.c.img = m.n.c.img := by
  refine ⟨h.step (a:=.node (.lock on)) trivial hs, ?_⟩
  change nodeMark cfg m (.lock on) = some m' at hs
  unfold nodeMark at hs
  split at hs
  · obtain ⟨n', hn, rfl⟩ := Option.map_eq_some_iff.mp hs
    obtain rfl := Option.some.inj hn
    rfl
  · cases hs

theorem RestoreInv.move {i : Nat} {r' : RestoreRun} (h : RestoreInv cfg s) (hm : MarkInv cfg m)
    (hi : m.n.c.img = s.m.n.c.img) (hr : r'.Good cfg s.m.n.c.img) :
    RestoreInv cfg { s with m := m, runs := s.runs.set i r' } := by
  refine ⟨hm, h.stamp, fun r hmem => ?_⟩
  show r.Good cfg m.n.c.img
  rw [hi]
  rcases List.mem_or_eq_of_mem_set hmem with hold | rfl
  · exact h.runs r hold
  · exact hr

/-- **`cp` reads on**: the bytes it reads are still those of the stamp. -/
theorem RestoreRun.Good.copy {pos k : Nat} {p : Option Stamp} {img : Nat → UInt8}
    (h : (⟨.copying pos, p, img⟩ : RestoreRun).Good cfg now) :
    (⟨.copying (pos + k), p, fun x => if pos ≤ x ∧ x < pos + k then now x else img x⟩
      : RestoreRun).Good cfg now := by
  refine ⟨h.stamp, fun q hq x hx ht => ?_, fun q hq _ x hx ht => ?_⟩
  · exact h.todo q hq x hx (le_trans (Nat.le_add_right pos k) ht)
  · show (if pos ≤ x ∧ x < pos + k then now x else img x) = q.img x
    split
    · rename_i hin
      exact h.todo q hq x hx hin.1
    · rename_i hout
      have hlt : x < pos + k := not_le.mp ht
      exact h.copied q hq (by simp) x hx fun hle => hout ⟨hle, hlt⟩

theorem RestoreRun.Good.gone {pc : RestorePc} {p : Option Stamp} {img : Nat → UInt8}
    (h : (⟨pc, p, img⟩ : RestoreRun).Good cfg now) :
    (⟨.gone, p, img⟩ : RestoreRun).Good cfg now :=
  ⟨h.stamp, fun _ _ _ _ ht => ht.elim, fun _ _ hne => absurd rfl hne⟩

theorem RestoreInv.step {a : RestoreAct} (h : RestoreInv cfg s) (hg : RestoreOk cfg s a)
    (hs : restoreStep cfg s a = some s') : RestoreInv cfg s' := by
  cases a with
  | mark a =>
    obtain ⟨m, hm, rfl⟩ := Option.map_eq_some_iff.mp hs
    have hmark := h.mark.step hg.1 hm
    exact ⟨hmark, stampAfter_good h hmark, fun r hr => (h.runs r hr).same (hg.2 m hm r hr)⟩
  | check =>
    change checkRestore cfg s = some s' at hs
    unfold checkRestore at hs
    split at hs
    · obtain ⟨m, hm, rfl⟩ := Option.map_eq_some_iff.mp hs
      obtain ⟨hmark, himg⟩ := lock_img h.mark hm
      exact ⟨hmark, h.stamp, fun r hr => (h.runs r hr).same fun _ x _ _ => congrFun himg x⟩
    · obtain rfl := Option.some.inj hs
      refine ⟨h.mark, h.stamp, fun r hr => ?_⟩
      rcases List.mem_append.mp hr with hr | hr
      · exact h.runs r hr
      · obtain rfl := List.mem_singleton.mp hr
        exact ⟨h.stamp, fun p hp x hx _ => hg p hp x hx, fun _ _ _ _ _ ht => absurd trivial ht⟩
  | lock i =>
    change lockRestore cfg s i = some s' at hs
    unfold lockRestore at hs
    split at hs
    · rename_i p img hi
      obtain ⟨m, hm, rfl⟩ := Option.map_eq_some_iff.mp hs
      obtain ⟨hmark, himg⟩ := lock_img h.mark hm
      have hold := h.runs _ (List.mem_of_getElem? hi)
      exact h.move hmark himg ⟨hold.stamp, fun p hp x hx _ => hold.todo p hp x hx trivial,
        fun _ _ _ x _ ht => absurd (Nat.zero_le x) ht⟩
    · cases hs
  | copy i k =>
    change copyRestore s i k = some s' at hs
    unfold copyRestore at hs
    split at hs
    · rename_i pos p img hi
      obtain rfl := Option.some.inj hs
      exact h.move h.mark rfl (h.runs _ (List.mem_of_getElem? hi)).copy
    · cases hs
  | finish i =>
    change finishRestore cfg s i = some s' at hs
    unfold finishRestore at hs
    split at hs
    · rename_i pos p img hi
      split at hs
      · rename_i hend
        obtain ⟨m, hm, rfl⟩ := Option.map_eq_some_iff.mp hs
        obtain ⟨hmark, himg⟩ := lock_img h.mark hm
        have hold := h.runs _ (List.mem_of_getElem? hi)
        refine h.move hmark himg ⟨hold.stamp, fun _ _ _ _ ht => ht.elim, fun q hq _ x hx _ => ?_⟩
        refine hold.copied q hq (by simp) x hx fun hle => ?_
        exact absurd (lt_of_lt_of_le hx hend.1) (not_lt.mpr hle)
      · cases hs
    · cases hs
  | fail i =>
    have hgone : ∀ {r : RestoreRun}, s.runs[i]? = some r →
        (markStep cfg s.m (.node (.lock false))).map (fun m =>
          { s with m := m, runs := s.runs.set i { r with pc := .gone } }) = some s' →
        RestoreInv cfg s' := by
      intro r hi hmap
      obtain ⟨m, hm, rfl⟩ := Option.map_eq_some_iff.mp hmap
      obtain ⟨hmark, himg⟩ := lock_img h.mark hm
      exact h.move hmark himg (h.runs _ (List.mem_of_getElem? hi)).gone
    change failRestore cfg s i = some s' at hs
    unfold failRestore at hs
    split at hs
    · exact hgone ‹_› hs
    · exact hgone ‹_› hs
    · cases hs

end

/-- **A rebuild copies the consistent point**, in a run that meets `RestoreOk`. -/
theorem copies_point (cfg : NodeConfig) (dev img : Nat → UInt8) (as : List RestoreAct)
    (s : RestoreSt) (hg : Meets (restoreStep cfg) (RestoreOk cfg) (RestoreSt.init cfg dev img) as)
    (h : exec (restoreStep cfg) (RestoreSt.init cfg dev img) as = some s) : Restored cfg s := by
  have h0 : RestoreInv cfg (RestoreSt.init cfg dev img) :=
    ⟨MarkInv.init cfg dev img, fun _ hp => (Option.some_ne_none _ hp.symm).elim,
      fun _ hr => (List.not_mem_nil hr).elim⟩
  have hi := exec_invariant_meets (P:=RestoreInv cfg) (fun u a v hu hga hs => hu.step hga hs) h0 hg h
  intro r hr hready p hp
  have hgood := hi.runs r hr
  refine ⟨hgood.stamp p hp, fun x hx => hgood.copied p hp (by rw [hready]; simp) x hx ?_⟩
  unfold RestoreRun.todo
  rw [hready]
  exact id

/-! ## the runs -/

/-- enough for `RestoreOk` where the node stands still while a rebuild copies -/
def restoreOkB (cfg : NodeConfig) (s : RestoreSt) : RestoreAct → Bool
  | .mark a => markOkB cfg s.m a && s.runs.isEmpty
  | .check => s.stamp.all fun p => (List.range cfg.target.size).all fun x =>
      s.m.n.c.img x == p.img x
  | _ => true

theorem restoreOk_of_test {cfg : NodeConfig} (s : RestoreSt) (a : RestoreAct)
    (h : restoreOkB cfg s a = true) : RestoreOk cfg s a := by
  cases a with
  | mark a =>
    obtain ⟨hm, hr⟩ := Bool.and_eq_true_iff.mp h
    refine ⟨markOk_of_test s.m a hm, fun m _ r hmem => ?_⟩
    rw [List.isEmpty_iff.mp hr] at hmem
    exact absurd hmem List.not_mem_nil
  | check =>
    intro p hp x hx
    change s.stamp.all _ = true at h
    rw [hp] at h
    exact beq_iff_eq.mp (List.all_eq_true.mp h x (List.mem_range.mpr hx))
  | _ => trivial

/-- a consistent point is recorded -/
def pointRun : List RestoreAct := (freezeRun ++ drainRun ++ [MarkAct.ret]).map .mark

def laterWrite : List RestoreAct :=
  ([.bio sectorWrite 0, .read 1, .test, .consume] : List NodeAct).map fun a => .mark (.node a)

/-- a rebuild up to step 4 -/
def restoreRun : List RestoreAct := [.check, .lock 0, .copy 0 512, .finish 0]

/-- rebuild 0 has its copy, and the manifest it loaded has a point -/
def RestoreSt.readyB (s : RestoreSt) (now later : UInt8) : Bool :=
  match s.runs with
  | [⟨.ready, some p, img⟩] => p.img 0 == now && img 0 == later
  | _ => false

theorem restored_of_test {s : RestoreSt} {now later : UInt8} (h : s.readyB now later = true) :
    ∃ r ∈ s.runs, r.pc = .ready ∧ ∃ p, r.stamp = some p ∧ p.img 0 = now ∧ r.img 0 = later := by
  unfold RestoreSt.readyB at h
  split at h
  · rename_i p img hruns
    rw [Bool.and_eq_true, beq_iff_eq, beq_iff_eq] at h
    rw [hruns]
    exact ⟨_, List.mem_singleton_self _, rfl, p, rfl, h⟩
  · cases h

theorem copies_point_run : ∃ s,
    exec (restoreStep tinyNode) (RestoreSt.init tinyNode (fun _ => 3) fun _ => 3)
      (pointRun ++ restoreRun) = some s ∧
      (∃ r ∈ s.runs, r.pc = .ready ∧ ∃ p, r.stamp = some p ∧ p.img 0 = 0 ∧ r.img 0 = 0) ∧
      Restored tinyNode s := by
  have h : (exec (restoreStep tinyNode) (RestoreSt.init tinyNode (fun _ => 3) fun _ => 3)
      (pointRun ++ restoreRun)).any (fun s => s.readyB 0 0) = true := by
    decide +kernel
  obtain ⟨s, hs, hp⟩ := (Option.any_eq_true _ _).mp h
  exact ⟨s, hs, restored_of_test hp,
    copies_point tinyNode (fun _ => 3) (fun _ => 3) (pointRun ++ restoreRun) s
      (meets_of_meetsB restoreOk_of_test (by decide +kernel)) hs⟩

/-- **The replica goes on**: one write after the point, and the copy is not of the point. -/
theorem point_overwritten : ∃ s,
    exec (restoreStep tinyNode) (RestoreSt.init tinyNode (fun _ => 3) fun _ => 3)
      (pointRun ++ laterWrite ++ restoreRun) = some s ∧ ¬Restored tinyNode s := by
  have h : (exec (restoreStep tinyNode) (RestoreSt.init tinyNode (fun _ => 3) fun _ => 3)
      (pointRun ++ laterWrite ++ restoreRun)).any (fun s => s.readyB 0 1) = true := by
    decide +kernel
  obtain ⟨s, hs, hp⟩ := (Option.any_eq_true _ _).mp h
  refine ⟨s, hs, fun hall => ?_⟩
  obtain ⟨r, hr, hready, p, hstamp, hnow, hlater⟩ := restored_of_test hp
  have heq := (hall r hr hready p hstamp).2 0 (by decide)
  rw [hnow, hlater] at heq
  cases heq

end CDP
