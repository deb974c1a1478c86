import DmCdp.Lib.Machine

/-!
# `POST /api/rkcdp/rebuild`

The requests for one node and the `rkcdp-rebuild` processes that they start, on one manager.  A
request loads the progress file, looks the host up and calls `Popen`; the progress file is written
by the processes alone, from `Progress.__init__` on.

* `ApiSt`          the progress file, where every request is, where every process is;
* `OneRebuild`     at most one process is alive;
* `CheckOk`        a check that does not find `running` finds no process alive and no other request
                   between its check and its `Popen`;
* `one_rebuild`    in a run that keeps to it there is one rebuild at a time;
* `two_rebuilds`   the run with two requests at once.
-/

set_option linter.unusedVariables false

namespace CDP
open Mach

/-! ## the machine -/

/-- `state` in the progress file -/
inductive ProgState where
  | running
  | done
  | failed
  deriving DecidableEq

/-- a request: `passed` is past the test of `prog`, before `Popen` -/
inductive ReqPc where
  | posted
  | passed
  | over
  deriving DecidableEq

/-- a process: `started` before its first flush, `ending` after its last -/
inductive ProcPc where
  | started
  | live
  | ending
  | exited
  deriving DecidableEq

def ReqPc.pending (r : ReqPc) : Bool := r == .passed

def ProcPc.alive (p : ProcPc) : Bool := p != .exited

structure ApiSt where
  -- what `_load` of the progress file finds
  prog : Option ProgState
  reqs : List ReqPc
  procs : List ProcPc

/-- `prog` is what earlier rebuilds, all of them over, have left -/
def ApiSt.init (prog : Option ProgState) : ApiSt := ⟨prog, [], []⟩

/-- `if prog and prog.get("state") == "running"`: 409 -/
def checkApi (s : ApiSt) (i : Nat) : Option ApiSt :=
  if s.reqs[i]? = some .posted then
    some { s with reqs := s.reqs.set i (if s.prog = some .running then .over else .passed) }
  else none

/-- an exception behind the check: no such host, no Proxmox, a broken parameter -/
def refuseApi (s : ApiSt) (i : Nat) : Option ApiSt :=
  if s.reqs[i]? = some .passed then some { s with reqs := s.reqs.set i .over } else none

/-- `subprocess.Popen` -/
def popenApi (s : ApiSt) (i : Nat) : Option ApiSt :=
  if s.reqs[i]? = some .passed then
    some { s with reqs := s.reqs.set i .over, procs := s.procs ++ [.started] }
  else none

/-- `Progress.__init__`, and every `step` and `copy` after it: `os.replace` is one step -/
def flushApi (s : ApiSt) (j : Nat) : Option ApiSt :=
  if s.procs[j]? = some .started ∨ s.procs[j]? = some .live then
    some { s with prog := some .running, procs := s.procs.set j .live }
  else none

/-- `Progress.done`, or `Progress.fail` -/
def finishApi (s : ApiSt) (j : Nat) (ok : Bool) : Option ApiSt :=
  if s.procs[j]? = some .live then
    some { s with
      prog := some (if ok then .done else .failed)
      procs := s.procs.set j .ending }
  else none

/-- the process ends, or is killed wherever it is -/
def exitApi (s : ApiSt) (j : Nat) : Option ApiSt :=
  if j < s.procs.length then some { s with procs := s.procs.set j .exited } else none

inductive ApiAct where
  | post
  | check (i : Nat)
  | refuse (i : Nat)
  | popen (i : Nat)
  | flush (j : Nat)
  | finish (j : Nat) (ok : Bool)
  | exit (j : Nat)

def apiStep (s : ApiSt) : ApiAct → Option ApiSt
  | .post => some { s with reqs := s.reqs ++ [.posted] }
  | .check i => checkApi s i
  | .refuse i => refuseApi s i
  | .popen i => popenApi s i
  | .flush j => flushApi s j
  | .finish j ok => finishApi s j ok
  | .exit j => exitApi s j

/-! ## the property and the condition -/

def ApiSt.alive (s : ApiSt) : Nat := s.procs.countP ProcPc.alive

def ApiSt.pending (s : ApiSt) : Nat := s.reqs.countP ReqPc.pending

/-- the property -/
def OneRebuild (s : ApiSt) : Prop := s.alive ≤ 1

def CheckOk (s : ApiSt) : ApiAct → Prop
  | .check _ => s.prog ≠ some .running → s.alive = 0 ∧ s.pending = 0
  | _ => True

instance (s : ApiSt) : (a : ApiAct) → Decidable (CheckOk s a)
  | .check _ => inferInstanceAs (Decidable (s.prog ≠ some .running → s.alive = 0 ∧ s.pending = 0))
  | .post => inferInstanceAs (Decidable True)
  | .refuse _ => inferInstanceAs (Decidable True)
  | .popen _ => inferInstanceAs (Decidable True)
  | .flush _ => inferInstanceAs (Decidable True)
  | .finish _ _ => inferInstanceAs (Decidable True)
  | .exit _ => inferInstanceAs (Decidable True)

/-! ## what every step keeps -/

section
variable {α : Type*} {p : α → Bool} {l : List α} {i : Nat} {a b : α}

theorem countP_set_of_get (h : l[i]? = some b) :
    (l.set i a).countP p + (if p b then 1 else 0) = l.countP p + (if p a then 1 else 0) := by
  obtain ⟨hi, hb⟩ := List.getElem?_eq_some_iff.mp h
  have hpos : p b = true → 0 < l.countP p := fun hpb =>
    List.countP_pos_iff.mpr ⟨b, hb ▸ List.getElem_mem hi, hpb⟩
  rw [List.countP_set hi, hb]
  cases hpb : p b with
  | false => simp
  | true =>
    have := hpos hpb
    simp only [if_true]
    omega

theorem countP_set_le (h : l[i]? = some b) (hp : p a = true → p b = true) :
    (l.set i a).countP p ≤ l.countP p := by
  have hset := countP_set_of_get (p:=p) (a:=a) h
  cases hpa : p a with
  | false =>
    rw [hpa] at hset
    simp only [Bool.false_eq_true, if_false] at hset
    omega
  | true =>
    rw [hpa, hp hpa] at hset
    omega

variable {s s' : ApiSt}

/-- **What one step keeps**: there is one at most, before its `Popen` or behind it. -/
theorem one_step {a : ApiAct} (h : s.pending + s.alive ≤ 1) (hg : CheckOk s a)
    (hs : apiStep s a = some s') : s'.pending + s'.alive ≤ 1 := by
  cases a with
  | post =>
    obtain rfl := Option.some.inj hs
    show (s.reqs ++ [ReqPc.posted]).countP ReqPc.pending + s.alive ≤ 1
    rw [List.countP_append]
    exact h
  | check i =>
    change checkApi s i = some s' at hs
    unfold checkApi at hs
    split at hs
    · rename_i hi
      obtain rfl := Option.some.inj hs
      by_cases hrun : s.prog = some .running
      · have hle : (s.reqs.set i .over).countP ReqPc.pending ≤ s.pending :=
          countP_set_le hi fun e => by cases e
        show (s.reqs.set i (if s.prog = some .running then .over else .passed)).countP _ + s.alive ≤ 1
        rw [if_pos hrun]
        omega
      · obtain ⟨halive, hpending⟩ := hg hrun
        have hset : (s.reqs.set i .passed).countP ReqPc.pending + 0 = s.pending + 1 :=
          countP_set_of_get hi
        show (s.reqs.set i (if s.prog = some .running then .over else .passed)).countP _ + s.alive ≤ 1
        rw [if_neg hrun]
        omega
    · cases hs
  | refuse i =>
    change refuseApi s i = some s' at hs
    unfold refuseApi at hs
    split at hs
    · rename_i hi
      obtain rfl := Option.some.inj hs
      have hle : (s.reqs.set i .over).countP ReqPc.pending ≤ s.pending :=
        countP_set_le hi fun e => by cases e
      show (s.reqs.set i .over).countP ReqPc.pending + s.alive ≤ 1
      omega
    · cases hs
  | popen i =>
    change popenApi s i = some s' at hs
    unfold popenApi at hs
    split at hs
    · rename_i hi
      obtain rfl := Option.some.inj hs
      have hset : (s.reqs.set i .over).countP ReqPc.pending + 1 = s.pending + 0 :=
        countP_set_of_get hi
      have happend : (s.procs ++ [ProcPc.started]).countP ProcPc.alive = s.alive + 1 :=
        List.countP_append
      show (s.reqs.set i .over).countP ReqPc.pending +
        (s.procs ++ [ProcPc.started]).countP ProcPc.alive ≤ 1
      omega
    · cases hs
  | flush j =>
    change flushApi s j = some s' at hs
    unfold flushApi at hs
    split at hs
    · rename_i hj
      obtain rfl := Option.some.inj hs
      have hle : (s.procs.set j .live).countP ProcPc.alive ≤ s.alive :=
        hj.elim (fun hj => countP_set_le hj fun _ => rfl) fun hj => countP_set_le hj fun _ => rfl
      show s.pending + (s.procs.set j .live).countP ProcPc.alive ≤ 1
      omega
    · cases hs
  | finish j ok =>
    change finishApi s j ok = some s' at hs
    unfold finishApi at hs
    split at hs
    · rename_i hj
      obtain rfl := Option.some.inj hs
      have hle : (s.procs.set j .ending).countP ProcPc.alive ≤ s.alive :=
        countP_set_le hj fun _ => rfl
      show s.pending + (s.procs.set j .ending).countP ProcPc.alive ≤ 1
      omega
    · cases hs
  | exit j =>
    change exitApi s j = some s' at hs
    unfold exitApi at hs
    split at hs
    · rename_i hj
      obtain rfl := Option.some.inj hs
      have hle : (s.procs.set j .exited).countP ProcPc.alive ≤ s.alive :=
        countP_set_le (List.getElem?_eq_getElem hj) fun e => by cases e
      show s.pending + (s.procs.set j .exited).countP ProcPc.alive ≤ 1
      omega
    · cases hs

end

/-- **At most one rebuild of the node**, in a run that meets `CheckOk`. -/
theorem one_rebuild (prog : Option ProgState) (as : List ApiAct) (s : ApiSt)
    (hg : Meets apiStep CheckOk (.init prog) as) (h : exec apiStep (.init prog) as = some s) :
    OneRebuild s := by
  have h0 : (ApiSt.init prog).pending + (ApiSt.init prog).alive ≤ 1 := Nat.zero_le 1
  have hi := exec_invariant_meets (P:=fun u : ApiSt => u.pending + u.alive ≤ 1)
    (fun u a v hu hga hs => one_step hu hga hs) h0 hg h
  unfold OneRebuild
  omega

/-! ## the runs -/

/-- a rebuild that fails, and the next request -/
def againRun : List ApiAct :=
  [.post, .post, .check 0, .popen 0, .flush 0, .check 1, .flush 0, .finish 0 false, .exit 0, .post,
    .check 2, .popen 2, .flush 1]

theorem one_rebuild_run : ∃ s, exec apiStep (.init none) againRun = some s ∧
    (s.alive = 1 ∧ s.reqs = [.over, .over, .over]) ∧ OneRebuild s := by
  have h : (exec apiStep (.init none) againRun).any
      (fun s => decide (s.alive = 1 ∧ s.reqs = [.over, .over, .over])) = true := by decide
  obtain ⟨s, hs, hp⟩ := (Option.any_eq_true _ _).mp h
  exact ⟨s, hs, of_decide_eq_true hp, one_rebuild none againRun s
    (meets_of_meetsB (b:=fun s a => decide (CheckOk s a)) (fun _ _ => of_decide_eq_true)
      (by decide)) hs⟩

/-- **Two requests at once**: both look before either process has written. -/
theorem two_rebuilds : ∃ s, exec apiStep (.init none)
    [.post, .post, .check 0, .check 1, .popen 0, .popen 1] = some s ∧ s.alive = 2 ∧
      ¬OneRebuild s := by
  have h : (exec apiStep (.init none) [.post, .post, .check 0, .check 1, .popen 0, .popen 1]).any
      (fun s => s.alive == 2) = true := by decide
  obtain ⟨s, hs, hp⟩ := (Option.any_eq_true _ _).mp h
  have halive := beq_iff_eq.mp hp
  refine ⟨s, hs, halive, fun hone => ?_⟩
  unfold OneRebuild at hone
  omega

end CDP
