import DmCdp.Daemon.Adopt

/-!
# A resumed seed copy skips no chunk

Attempts of `rkcdp-seed`, one after the other, with what the other model of them leaves out: a `dd`
that fails, a session that breaks with lines on the way, a `seed.json` that lags behind the dictionary
in memory, and fields that are free to change from one attempt to the next.

* `HostScript`          the loop on the host, and what it has echoed;
* `retryStep`            the machine; `copied` remembers the `dd`s that succeeded;
* `Known`               what a resume stands for, in memory and in the file;
* `seed_skips_none`     at step 3 every chunk has been copied for the same host, VM and size.
-/

set_option linter.unusedVariables false

namespace CDP
open Mach

/-! ## the machine -/

/-- what a resume has to agree on -/
structure SeedKey where
  host : String
  vmid : Nat
  total : Nat
  deriving DecidableEq

/-- `resume`, unless it is empty -/
structure ResumeDict where
  key : SeedKey
  chunk : Nat

/-- `for i in $(seq start last)`, where `last` is `nchunks`: `$i`, the lines that are not read yet, and
how it ended (`true`: with 0) -/
structure HostScript where
  next : Nat
  last : Nat
  lines : List Nat
  rc : Option Bool

inductive HostAct where
  /-- the next `dd`, which fails or succeeds, and `echo $i` -/
  | dd (ok : Bool)
  /-- there is no chunk left -/
  | exit
  /-- the session breaks: of what is on the way `k` lines arrive, and of the next one a part -/
  | drop (k cut : Nat)

def HostScript.step (sc : HostScript) : HostAct → Option HostScript
  | .dd ok =>
    if sc.rc = none ∧ sc.next < sc.last then
      if ok then some { sc with next := sc.next + 1, lines := sc.lines ++ [sc.next] }
      else some { sc with rc := some false }
    else none
  | .exit => if sc.rc = none ∧ sc.last ≤ sc.next then some { sc with rc := some true } else none
  | .drop k cut =>
    if sc.rc = none then
      some { sc with
        lines := sc.lines.take k ++ ((sc.lines.drop k).take 1).map fun i => i / 10^cut
        rc := some false }
    else none

/-- where `main` is -/
inductive RetryPc where
  | started
  | finding
  | located (key : SeedKey)
  /-- in the loop over `p.stdout`, with `last_pct` and `last_w`; times are in milliseconds -/
  | copying (key : SeedKey) (sc : HostScript) (lastPct lastW : Int)
  /-- `p.wait()` has returned 0 -/
  | waited (key : SeedKey)
  /-- at step 3 or behind it -/
  | seeding (key : SeedKey)
  /-- in front of `progress("failed")` -/
  | failed

structure RetrySt where
  /-- the `resume` of `seed.json` -/
  json : Option ResumeDict
  /-- the attempt with its `resume` -/
  proc : Option (Option ResumeDict × RetryPc)
  /-- scripts whose attempt is gone -/
  orphans : List (SeedKey × HostScript)
  -- ghost: the `dd`s that succeeded
  copied : List (SeedKey × Nat)

def RetrySt.init : RetrySt := ⟨none, none, [], []⟩

/-- `progress`, without a `chunk`: `seed.json` is written, or this raises -/
def RetrySt.progress (s : RetrySt) (resume : Option ResumeDict) (pc : RetryPc) (ok : Bool) : RetrySt :=
  if ok then { s with json := resume, proc := some (resume, pc) }
  else { s with proc := some (resume, .failed) }

/-- the chunk at which the copy goes on -/
def startChunk (key : SeedKey) : Option ResumeDict → Nat
  | some r => if r.key = key then r.chunk + 1 else 0
  | none => 0

/-- a `dd` that succeeds is remembered -/
def RetrySt.note (s : RetrySt) (key : SeedKey) (sc : HostScript) : HostAct → RetrySt
  | .dd true => { s with copied := (key, sc.next) :: s.copied }
  | _ => s

/-- the process is gone; its script may go on -/
def RetrySt.leave (s : RetrySt) : RetrySt :=
  match s.proc with
  | some (_, .copying key sc _ _) => { s with proc := none, orphans := (key, sc) :: s.orphans }
  | _ => { s with proc := none }

inductive RetryAct where
  | begin
  /-- the first `progress("locate")` -/
  | locate (ok : Bool)
  /-- the second one; the host, the VM and its size are found -/
  | found (key : SeedKey) (ok : Bool)
  | popen
  | host (a : HostAct)
  | orphan (k : Nat) (a : HostAct)
  /-- a line is read; `pct` is its percentage -/
  | line (pct now : Int) (ok : Bool)
  /-- the end of `p.stdout`, and `p.wait()` -/
  | wait
  /-- `progress("copy", 100)` -/
  | written (ok : Bool)
  /-- `progress("drain")` -/
  | drain (ok : Bool)
  | done (ok : Bool)
  | raise
  /-- `progress("failed")` and `return 1` -/
  | fail (ok : Bool)
  /-- the process is killed -/
  | kill

/-- an iteration of the loop over `p.stdout` -/
def lineRetry (s : RetrySt) (resume : Option ResumeDict) (key : SeedKey) (sc : HostScript)
    (lastPct lastW pct now : Int) (ok : Bool) : Option RetrySt :=
  match sc.lines with
  | [] => none
  | i :: lines =>
    if pct ≠ lastPct ∨ now - lastW > 5000 then
      some (s.progress (some ⟨key, i⟩) (.copying key { sc with lines := lines } pct now) ok)
    else
      some { s with proc := some (resume, .copying key { sc with lines := lines } lastPct lastW) }

/-- `main` -/
def retryStep (s : RetrySt) : RetryAct → Option RetrySt
  | .begin =>
    match s.proc with
    | none => some { s with proc := some (s.json, .started) }
    | some _ => none
  | .locate ok =>
    match s.proc with
    | some (resume, .started) => some (s.progress resume .finding ok)
    | _ => none
  | .found key ok =>
    match s.proc with
    | some (resume, .finding) => some (s.progress resume (.located key) ok)
    | _ => none
  | .popen =>
    match s.proc with
    | some (resume, .located key) =>
      some { s with
        proc := some (resume,
          .copying key ⟨startChunk key resume, nchunksOf key.total, [], none⟩ (-1) 0) }
    | _ => none
  | .host a =>
    match s.proc with
    | some (resume, .copying key sc lastPct lastW) =>
      (sc.step a).map fun sc' =>
        { s.note key sc a with proc := some (resume, .copying key sc' lastPct lastW) }
    | _ => none
  | .orphan k a =>
    match s.orphans[k]? with
    | some (key, sc) =>
      (sc.step a).map fun sc' => { s.note key sc a with orphans := s.orphans.set k (key, sc') }
    | none => none
  | .line pct now ok =>
    match s.proc with
    | some (resume, .copying key sc lastPct lastW) => lineRetry s resume key sc lastPct lastW pct now ok
    | _ => none
  | .wait =>
    match s.proc with
    | some (resume, .copying key ⟨_, _, [], some rc⟩ _ _) =>
      some { s with proc := some (resume, if rc then .waited key else .failed) }
    | _ => none
  | .written ok =>
    match s.proc with
    | some (resume, .waited key) => some (s.progress resume (.seeding key) ok)
    | _ => none
  | .drain ok =>
    match s.proc with
    | some (resume, .seeding key) => some (s.progress resume (.seeding key) ok)
    | _ => none
  | .done ok =>
    match s.proc with
    | some (_, .seeding _) =>
      -- `resume.clear()`
      some (if ok then { s with json := none, proc := none }
        else { s with proc := some (none, .failed) })
    | _ => none
  | .raise =>
    match s.proc with
    | some (resume, .copying key sc _ _) =>
      some { s with proc := some (resume, .failed), orphans := (key, sc) :: s.orphans }
    | some (resume, _) => some { s with proc := some (resume, .failed) }
    | none => none
  | .fail ok =>
    match s.proc with
    | some (resume, .failed) => some { s with json := if ok then resume else s.json, proc := none }
    | _ => none
  | .kill => some s.leave

/-! ## the invariant -/

/-- the chunks below `n` are copied -/
def CopiedBelow (copied : List (SeedKey × Nat)) (key : SeedKey) (n : Nat) : Prop :=
  ∀ i, i < n → (key, i) ∈ copied

/-- what a resume says has been copied -/
def Known (copied : List (SeedKey × Nat)) (r : Option ResumeDict) : Prop :=
  ∀ q, r = some q → CopiedBelow copied q.key (q.chunk + 1)

/-- the script of an attempt -/
structure ScriptInv (copied : List (SeedKey × Nat)) (key : SeedKey) (sc : HostScript) : Prop where
  last : sc.last = nchunksOf key.total
  below : CopiedBelow copied key sc.next
  -- a line is an index of a finished chunk, or the beginning of one
  lines : ∀ i, i ∈ sc.lines → i < sc.next
  rc : sc.rc = some true → sc.last ≤ sc.next

def RetryPcInv (copied : List (SeedKey × Nat)) : RetryPc → Prop
  | .copying key sc _ _ => ScriptInv copied key sc
  | .waited key | .seeding key => CopiedBelow copied key (nchunksOf key.total)
  | _ => True

structure RetryInv (s : RetrySt) : Prop where
  json : Known s.copied s.json
  resume : ∀ r pc, s.proc = some (r, pc) → Known s.copied r
  pc : ∀ r pc, s.proc = some (r, pc) → RetryPcInv s.copied pc

section
variable {copied copied' : List (SeedKey × Nat)} {key : SeedKey} {sc sc' : HostScript}
  {s t : RetrySt} {r : Option ResumeDict} {pc : RetryPc} {ok : Bool}

theorem CopiedBelow.mono {n : Nat} (hsub : copied ⊆ copied') (h : CopiedBelow copied key n) :
    CopiedBelow copied' key n := fun i hi => hsub (h i hi)

theorem Known.mono (hsub : copied ⊆ copied') (h : Known copied r) : Known copied' r :=
  fun q e => (h q e).mono hsub

theorem ScriptInv.mono (hsub : copied ⊆ copied') (h : ScriptInv copied key sc) :
    ScriptInv copied' key sc := ⟨h.last, h.below.mono hsub, h.lines, h.rc⟩

theorem RetryPcInv.mono (hsub : copied ⊆ copied') (h : RetryPcInv copied pc) :
    RetryPcInv copied' pc := by
  cases pc with
  | started => trivial
  | finding => trivial
  | located key => trivial
  | copying key sc lastPct lastW => exact ScriptInv.mono hsub h
  | waited key => exact CopiedBelow.mono hsub h
  | seeding key => exact CopiedBelow.mono hsub h
  | failed => trivial

theorem note_sub (key : SeedKey) (sc : HostScript) (a : HostAct) :
    s.copied ⊆ (s.note key sc a).copied := by
  unfold RetrySt.note
  split
  · exact List.subset_cons_self _ _
  · exact fun _ h => h

theorem HostScript.step_inv {a : HostAct} (h : ScriptInv s.copied key sc)
    (hs : sc.step a = some sc') : ScriptInv (s.note key sc a).copied key sc' := by
  cases a with
  | dd ok =>
    obtain ⟨hgo, hs⟩ := Option.ite_none_right_eq_some.mp hs
    cases ok with
    | true =>
      cases hs
      refine ⟨h.last, fun i hi => ?_, fun i hi => ?_, fun e => ?_⟩
      · rcases Nat.lt_succ_iff_lt_or_eq.mp hi with h1 | rfl
        · exact List.mem_cons_of_mem _ (h.below i h1)
        · exact List.mem_cons_self
      · rcases List.mem_append.mp hi with h1 | h1
        · exact Nat.lt_succ_of_lt (h.lines i h1)
        · rw [List.mem_singleton.mp h1]
          exact Nat.lt_succ_self _
      · change sc.rc = some true at e
        rw [hgo.1] at e
        cases e
    | false =>
      cases hs
      exact ⟨h.last, h.below, h.lines, fun e => by cases e⟩
  | exit =>
    obtain ⟨hgo, hs⟩ := Option.ite_none_right_eq_some.mp hs
    cases hs
    exact ⟨h.last, h.below, h.lines, fun _ => hgo.2⟩
  | drop k cut =>
    obtain ⟨_, hs⟩ := Option.ite_none_right_eq_some.mp hs
    cases hs
    refine ⟨h.last, h.below, fun i hi => ?_, fun e => by cases e⟩
    rcases List.mem_append.mp hi with h1 | h1
    · exact h.lines i (List.mem_of_mem_take h1)
    · obtain ⟨j, hj, rfl⟩ := List.mem_map.mp h1
      have hj' := h.lines j (List.mem_of_mem_drop (List.mem_of_mem_take hj))
      exact lt_of_le_of_lt (Nat.div_le_self _ _) hj'

theorem startChunk_below (h : Known copied r) : CopiedBelow copied key (startChunk key r) := by
  unfold startChunk
  split
  · rename_i q
    split
    · rename_i e
      exact e ▸ h q rfl
    · exact fun i hi => absurd hi (Nat.not_lt_zero i)
  · exact fun i hi => absurd hi (Nat.not_lt_zero i)

/-! ## one step -/

theorem RetryInv.turn (h : RetryInv s) (hj : t.json = s.json) (hc : s.copied ⊆ t.copied)
    (hp : ∀ r pc, t.proc = some (r, pc) → Known t.copied r ∧ RetryPcInv t.copied pc) :
    RetryInv t :=
  ⟨hj ▸ h.json.mono hc, fun r pc e => (hp r pc e).1, fun r pc e => (hp r pc e).2⟩

theorem RetryInv.goto {pc' : RetryPc} {orphans : List (SeedKey × HostScript)} (h : RetryInv s)
    (hp : s.proc = some (r, pc)) (hpc : RetryPcInv s.copied pc') :
    RetryInv { s with proc := some (r, pc'), orphans := orphans } := by
  refine h.turn rfl (fun _ h => h) fun r' pc'' e => ?_
  cases e
  exact ⟨h.resume r pc hp, hpc⟩

theorem RetryInv.progress (h : RetryInv s) (hr : Known s.copied r) (hpc : RetryPcInv s.copied pc) :
    RetryInv (s.progress r pc ok) := by
  cases ok with
  | true => exact ⟨hr, fun r' pc' e => (by cases e; exact hr), fun r' pc' e => (by cases e; exact hpc)⟩
  | false => exact ⟨h.json, fun r' pc' e => (by cases e; exact hr), fun r' pc' e => (by cases e; trivial)⟩

theorem RetryInv.gone (h : RetryInv s) (hj : t.json = s.json ∨ Known t.copied t.json)
    (hc : t.copied = s.copied) (hp : t.proc = none) : RetryInv t := by
  refine ⟨?_, fun r pc e => ?_, fun r pc e => ?_⟩
  · rcases hj with e | hk
    · rw [e, hc]
      exact h.json
    · exact hk
  · rw [hp] at e
    cases e
  · rw [hp] at e
    cases e

theorem lineRetry_inv {lastPct lastW pct now : Int} (h : RetryInv s)
    (hp : s.proc = some (r, .copying key sc lastPct lastW))
    (hs : lineRetry s r key sc lastPct lastW pct now ok = some t) : RetryInv t := by
  have hsc : ScriptInv s.copied key sc := h.pc _ _ hp
  unfold lineRetry at hs
  split at hs
  · cases hs
  · rename_i i lines e
    have hi : i < sc.next := hsc.lines i (e ▸ List.mem_cons_self)
    have hsc' : ScriptInv s.copied key { sc with lines := lines } :=
      ⟨hsc.last, hsc.below, fun j hj => hsc.lines j (e ▸ List.mem_cons_of_mem _ hj), hsc.rc⟩
    split at hs
    · cases hs
      refine h.progress (fun q e => ?_) hsc'
      cases e
      exact fun j hj => hsc.below j (lt_of_lt_of_le hj hi)
    · cases hs
      exact h.goto hp hsc'

theorem retryStep_inv {a : RetryAct} (h : RetryInv s) (hs : retryStep s a = some t) : RetryInv t := by
  unfold retryStep at hs
  cases a with
  | begin =>
    dsimp only at hs
    split at hs
    · cases hs
      exact ⟨h.json, fun r pc e => (by cases e; exact h.json), fun r pc e => (by cases e; trivial)⟩
    · cases hs
  | locate ok =>
    dsimp only at hs
    split at hs
    · rename_i r hp
      cases hs
      exact h.progress (h.resume _ _ hp) trivial
    · cases hs
  | found key ok =>
    dsimp only at hs
    split at hs
    · rename_i r hp
      cases hs
      exact h.progress (h.resume _ _ hp) trivial
    · cases hs
  | popen =>
    dsimp only at hs
    split at hs
    · rename_i r key hp
      cases hs
      exact h.goto hp ⟨rfl, startChunk_below (h.resume _ _ hp),
        fun i hi => absurd hi List.not_mem_nil, fun e => by cases e⟩
    · cases hs
  | host a =>
    dsimp only at hs
    split at hs
    · rename_i r key sc lastPct lastW hp
      obtain ⟨sc', hsc, rfl⟩ := Option.map_eq_some_iff.mp hs
      refine h.turn ?_ (note_sub key sc a) fun r' pc' e => ?_
      · show (s.note key sc a).json = s.json
        unfold RetrySt.note
        split <;> rfl
      · cases e
        exact ⟨(h.resume _ _ hp).mono (note_sub key sc a), HostScript.step_inv (h.pc _ _ hp) hsc⟩
    · cases hs
  | orphan k a =>
    dsimp only at hs
    split at hs
    · rename_i key sc hk
      obtain ⟨sc', hsc, rfl⟩ := Option.map_eq_some_iff.mp hs
      have hproc : (s.note key sc a).json = s.json ∧ (s.note key sc a).proc = s.proc := by
        unfold RetrySt.note
        split <;> exact ⟨rfl, rfl⟩
      refine h.turn hproc.1 (note_sub key sc a) fun r' pc' e => ?_
      have e' : s.proc = some (r', pc') := hproc.2.symm.trans e
      exact ⟨(h.resume _ _ e').mono (note_sub key sc a), (h.pc _ _ e').mono (note_sub key sc a)⟩
    · cases hs
  | line pct now ok =>
    dsimp only at hs
    split at hs
    · rename_i r key sc lastPct lastW hp
      exact lineRetry_inv h hp hs
    · cases hs
  | wait =>
    dsimp only at hs
    split at hs
    · rename_i r key next last rc lastPct lastW hp
      cases hs
      have hsc : ScriptInv s.copied key ⟨next, last, [], some rc⟩ := h.pc _ _ hp
      cases rc with
      | true =>
        have hlast : nchunksOf key.total ≤ next := hsc.last ▸ hsc.rc rfl
        exact h.goto hp fun i hi => hsc.below i (lt_of_lt_of_le hi hlast)
      | false => exact h.goto hp trivial
    · cases hs
  | written ok =>
    dsimp only at hs
    split at hs
    · rename_i r key hp
      cases hs
      have hall : CopiedBelow s.copied key (nchunksOf key.total) := h.pc _ _ hp
      exact h.progress (h.resume _ _ hp) hall
    · cases hs
  | drain ok =>
    dsimp only at hs
    split at hs
    · rename_i r key hp
      cases hs
      exact h.progress (h.resume _ _ hp) (h.pc _ _ hp)
    · cases hs
  | done ok =>
    dsimp only at hs
    split at hs
    · cases hs
      have hnone : Known s.copied none := fun q e => by cases e
      cases ok with
      | true => exact h.gone (Or.inr hnone) rfl rfl
      | false =>
        exact ⟨h.json, fun r pc e => (by cases e; exact hnone), fun r pc e => (by cases e; trivial)⟩
    · cases hs
  | raise =>
    dsimp only at hs
    split at hs
    · rename_i r key sc lastPct lastW hp
      cases hs
      exact h.goto hp trivial
    · rename_i r pc _ hp
      cases hs
      exact h.goto hp trivial
    · cases hs
  | fail ok =>
    dsimp only at hs
    split at hs
    · rename_i r hp
      cases hs
      cases ok with
      | true => exact h.gone (Or.inr (h.resume _ _ hp)) rfl rfl
      | false => exact h.gone (Or.inl rfl) rfl rfl
    · cases hs
  | kill =>
    cases hs
    unfold RetrySt.leave
    split
    · exact h.gone (Or.inl rfl) rfl rfl
    · exact h.gone (Or.inl rfl) rfl rfl

/-- **A resumed seed copy skips no chunk.**  Whatever has ended the attempts before, and whatever they
were about: an attempt at step 3 finds every chunk copied by a `dd` for its host, its VM and its
size. -/
theorem seed_skips_none (as : List RetryAct) (s : RetrySt) (resume : Option ResumeDict)
    (key : SeedKey) (h : exec retryStep .init as = some s)
    (hp : s.proc = some (resume, .seeding key)) :
    ∀ i, i < nchunksOf key.total → (key, i) ∈ s.copied := by
  have h0 : RetryInv .init :=
    ⟨fun q e => (by cases e), fun r pc e => (by cases e), fun r pc e => (by cases e)⟩
  have hi : RetryInv s := exec_invariant (fun s a t hs hstep => retryStep_inv hs hstep) h0 h
  exact hi.pc _ _ hp

end

/-- the second of two `dd`s fails, after its first line has been read; the next attempt copies the
second chunk -/
def retriedSeed : List RetryAct :=
  let key : SeedKey := ⟨"10.0.0.2", 101, 67108865⟩
  [.begin, .locate true, .found key true, .popen, .host (.dd true), .line 99 1000 true,
    .host (.dd false), .wait, .fail true,
    .begin, .locate true, .found key true, .popen, .host (.dd true), .line 100 2000 true,
    .host .exit, .wait, .written true]

theorem seed_skips_none_retried : ∃ s resume, exec retryStep .init retriedSeed = some s ∧
    s.proc = some (resume, .seeding ⟨"10.0.0.2", 101, 67108865⟩) ∧
    ∀ i, i < 2 → (⟨"10.0.0.2", 101, 67108865⟩, i) ∈ s.copied := by
  obtain ⟨s, hs, hp⟩ : ∃ s, exec retryStep .init retriedSeed = some s ∧
      s.proc = some (some ⟨⟨"10.0.0.2", 101, 67108865⟩, 1⟩,
        .seeding ⟨"10.0.0.2", 101, 67108865⟩) := ⟨_, rfl, rfl⟩
  exact ⟨s, _, hs, hp, seed_skips_none retriedSeed s _ _ hs hp⟩

end CDP
