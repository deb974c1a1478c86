import DmCdp.Kernel.Stream
import DmCdp.Lib.CommitLog

/-!
# The target is a commit log

A state of the target seen as a commit log beside the device range: a bio is a write, a reservation
numbers it or loses it, `cdp_end_io` closes it, and the tail store of `cdp_read` takes the next
record (`KState.commits`, `commitAct`).

* `commits_step`   one step of the target is the step of the commit log that `commitAct` names,
                   or leaves the commit log as it is;
* `target_refines_commit_log`   any run is a run of the commit log, and what `cdp_read` has handed
                   out are the records that have been taken;
* `QuietAct`       the condition on the upper layers and the device under which it is calm.
-/

set_option linter.unusedVariables false

namespace CDP
open Img Mach Slots

/-! ## the view -/

/-- a bio as a write to the device range -/
def Flight.write (cfg : Config) (f : Flight) : CommitLog.Write Nat UInt8 where
  patch := fun x => f.bio.patch cfg (cfg.start * 512 + x)
  num := f.idx
  lost := (cdpMapArgs cfg f.bio).isSome && (f.idx.isNone && decide (f.stage ≠ .marked))
  landed := f.landed
  closed := f.stage.isEnded

def Entry.commit (e : Entry) : CommitLog.Rec Nat UInt8 :=
  ⟨e.srec.patch, hasFlag e.hdr.flags FGapBefore⟩

def KState.commits (cfg : Config) (s : KState) : CommitLog.Log Nat UInt8 where
  writes := s.flights.map (Flight.write cfg)
  recs := s.log.map Entry.commit
  pending := s.t.gapPending
  store := fun x => s.dev (cfg.start * 512 + x)
  taken := s.nread

/-- the tail store of `cdp_read` takes a record -/
def Pc.commit : Pc → List (CommitLog.Act Nat UInt8)
  | .taken _ _ => [.take]
  | _ => []

/-- what a step of the target is to the commit log -/
def commitAct (cfg : Config) (s : KState) : KAct → List (CommitLog.Act Nat UInt8)
  | .map b => [.issue fun x => b.patch cfg (cfg.start * 512 + x)]
  | .reserve i _ =>
    match (s.flights[i]?).bind fun f => cdpMapArgs cfg f.bio with
    | some a => if Refused s.t a.payload then [.lose i] else [.number i]
    | none => []
  | .land i => [.land i]
  | .endIo i _ => [.close i]
  | .reader r _ => (s.readers r).pc.commit
  | _ => []

/-! ## one step -/

theorem map_modify {α β : Type*} {φ : α → β} {l : List α} {i : Nat} {x : α} {u : α → α}
    {v : β → β} (hx : l[i]? = some x) (h : φ (u x) = v (φ x)) :
    (l.modify i u).map φ = (l.map φ).modify i v := by
  refine List.ext_getElem? fun j => ?_
  rw [List.getElem?_map, List.getElem?_modify, List.getElem?_modify, List.getElem?_map]
  by_cases hij : i = j
  · subst hij
    simp [hx, h]
  · simp [hij]

theorem map_modify_same {α β : Type*} {φ : α → β} {l : List α} {i : Nat} {u : α → α}
    (h : ∀ x, l[i]? = some x → φ (u x) = φ x) : (l.modify i u).map φ = l.map φ := by
  refine List.ext_getElem? fun j => ?_
  rw [List.getElem?_map, List.getElem?_modify, List.getElem?_map]
  by_cases hij : i = j
  · subst hij
    cases hx : l[i]? with
    | none => rfl
    | some x => simp [h x hx]
  · simp [hij]

theorem Entry.header_fields (e : Entry) :
    e.header.type = e.hdr.type ∧ e.header.sector = e.hdr.sector ∧ e.header.len = e.hdr.len := by
  unfold Entry.header
  cases e.stage <;> exact ⟨rfl, rfl, rfl⟩

/-- what a record writes does not depend on how far its bio is -/
theorem Entry.commit_setStage (st : EStage) (e : Entry) : (e.setStage st).commit = e.commit := by
  have h : (e.setStage st).srec.patch = e.srec.patch := by
    obtain ⟨h1, h2, h3⟩ := e.header_fields
    obtain ⟨h4, h5, h6⟩ := (e.setStage st).header_fields
    unfold SRec.patch Entry.srec
    rw [h1, h2, h3, h4, h5, h6]
    rfl
  unfold Entry.commit
  rw [h]
  rfl

section
variable {cfg : Config} {s s' : KState}

theorem commits_setStage (k : Nat) (st : EStage) :
    (s.log.modify k (Entry.setStage st)).map Entry.commit = s.log.map Entry.commit :=
  map_modify_same fun e _ => e.commit_setStage st

theorem commits_map {b : Bio} (hs : mapStep cfg s b = some s') :
    exec CommitLog.step (s.commits cfg) (commitAct cfg s (.map b)) = some (s'.commits cfg) := by
  have hnew : ∀ st, st = .submitted ∧ cdpMapArgs cfg b = none ∨ st = .marked →
      (s.flights ++ [b.flight st]).map (Flight.write cfg) = s.flights.map (Flight.write cfg) ++
        [CommitLog.Write.new fun x => b.patch cfg (cfg.start * 512 + x)] := by
    intro st hst
    rw [List.map_append, List.map_singleton]
    rcases hst with ⟨rfl, ha⟩ | rfl
    · simp [Flight.write, CommitLog.Write.new, Bio.flight, ha, Stage.isEnded]
    · simp [Flight.write, CommitLog.Write.new, Bio.flight, Stage.isEnded]
  obtain ⟨_, _, ⟨ha, rfl⟩ | ⟨a, ha, rfl⟩⟩ := map_cases hs
  · unfold KState.commits
    rw [hnew .submitted (Or.inl ⟨rfl, ha⟩)]
    rfl
  · have hgap : (cdpMark s.t a.sector a.len).gapPending = s.t.gapPending := by
      unfold cdpMark
      split <;> rfl
    unfold KState.commits
    rw [hnew .marked (Or.inr rfl), hgap]
    rfl

/-- **A reservation** numbers the bio or loses it. -/
theorem commits_reserve {i ts : Nat} (h : KInv cfg s) (hs : reserveStep cfg s i ts = some s') :
    exec CommitLog.step (s.commits cfg) (commitAct cfg s (.reserve i ts)) =
      some (s'.commits cfg) := by
  have h' : KInv cfg s' := h.step (a:=.reserve i ts) hs
  obtain ⟨f, a, hf, hst, ha, _, hor⟩ := reserve_cases h.log hs
  have hfo := h.bios.flight i f hf
  have hnum : f.idx = none := by
    cases hk : f.idx with
    | none => rfl
    | some k =>
      obtain ⟨_, _, _, _, hne, _⟩ := hfo.idx k hk
      exact absurd hst hne
  have hw : (s.commits cfg).writes[i]? = some (f.write cfg) := by
    show (s.flights.map (Flight.write cfg))[i]? = _
    rw [List.getElem?_map, hf]
    rfl
  have hfresh : (f.write cfg).fresh = true := by
    simp [CommitLog.Write.fresh, Flight.write, hst, hnum, Stage.isEnded]
  have hact : commitAct cfg s (.reserve i ts) =
      if Refused s.t a.payload then [.lose i] else [.number i] := by
    simp only [commitAct, hf, Option.bind_some, ha]
  rw [hact]
  rcases hor with ⟨hr, rfl⟩ | ⟨hr, _, rfl⟩
  · rw [if_pos hr]
    refine exec_cons_some.mpr ⟨_, ?_, rfl⟩
    simp only [CommitLog.step, hw, Option.bind_some, hfresh, if_true]
    have hm : (s.flights.modify i Flight.drop).map (Flight.write cfg) =
        (s.flights.map (Flight.write cfg)).modify i CommitLog.Write.lose :=
      map_modify hf (by simp [Flight.write, Flight.drop, CommitLog.Write.lose, ha, hnum, hst,
        Stage.isEnded])
    unfold KState.commits
    rw [hm]
    rfl
  · rw [if_neg hr]
    refine exec_cons_some.mpr ⟨_, ?_, rfl⟩
    simp only [CommitLog.step, hw, Option.bind_some, hfresh, if_true]
    have hm : (s.flights.modify i fun f => f.reserve
          (s.t.head + padLen s.t.ringSize s.t.head (recNeed a.payload)) s.log.length).map
          (Flight.write cfg) =
        (s.flights.map (Flight.write cfg)).modify i (CommitLog.Write.number s.log.length) :=
      map_modify hf (by simp [Flight.write, Flight.reserve, CommitLog.Write.number, hst, hnum,
        Stage.isEnded])
    have hf' := modify_self (u:=fun f => f.reserve
      (s.t.head + padLen s.t.ringSize s.t.head (recNeed a.payload)) s.log.length) hf
    obtain ⟨e, he, ⟨a', gap, ts', ha', hh, hp, hd⟩, _⟩ := (h'.bios.flight i _ hf').idx _ rfl
    obtain rfl := Option.some.inj (he.symm.trans (push_last _ _))
    have hpatch := funext fun x => Entry.patch_bio hfo.ok ha' hh hp hd x
    have hflag : hasFlag (s.t.newEntry a.type a.flags a.sector a.len a.payload ts
        f.bio.data).hdr.flags FGapBefore = s.t.gapPending := by
      show hasFlag (if s.t.gapPending then a.flags ||| FGapBefore else a.flags) FGapBefore = _
      rw [cdpMapArgs_flags ha, hasFlag_gap]
    unfold KState.commits
    rw [hm, List.map_append, List.map_singleton]
    unfold Entry.commit
    rw [hflag, hpatch, List.length_map]
    rfl

/-- **The tail store** takes the next record. -/
theorem commits_reader {r : Nat} {ok : Bool} (h : KInv cfg s) (hs : readerStep s r ok = some s') :
    exec CommitLog.step (s.commits cfg) (commitAct cfg s (.reader r ok)) =
      some (s'.commits cfg) := by
  have h' : KInv cfg s' := h.step (a:=.reader r ok) hs
  show exec CommitLog.step (s.commits cfg) (s.readers r).pc.commit = _
  cases reader_cases h hs with
  | tail pos e hpc hnext hend =>
    rw [hpc]
    refine exec_cons_some.mpr ⟨_, ?_, rfl⟩
    have hlt : s.nread < (s.log.map Entry.commit).length := by
      rw [List.length_map]
      exact lt_length hnext.1
    have hfree : (s.flights.map (Flight.write cfg)).all (CommitLog.Write.free s.nread) = true := by
      rw [List.all_map, List.all_eq_true]
      intro f hf
      obtain ⟨j, hj⟩ := List.mem_iff_getElem?.mp hf
      show (f.idx != some s.nread || f.stage.isEnded) = true
      by_cases hk : f.idx = some s.nread
      · obtain ⟨e', he', _, hes, _⟩ := (h.bios.flight j f hj).idx _ hk
        obtain rfl := Option.some.inj (he'.symm.trans hnext.1)
        obtain ⟨error, herr⟩ := hend
        rw [stage_of_ended (hes.symm.trans herr)]
        simp [Stage.isEnded]
      · simp [hk]
    exact (if_pos ⟨hlt, hfree⟩).trans rfl
  | lock hpc _ => rw [hpc]; rfl
  | next pos q e hpc _ => rw [hpc]; rfl
  | found pos q e hpc _ => rw [hpc]; rfl
  | drained pos hpc _ => rw [hpc]; rfl
  | early pos e hpc _ _ => rw [hpc]; rfl
  | ready pos e hpc _ _ => rw [hpc]; rfl
  | full hpc _ => rw [hpc]; rfl
  | eof hpc _ _ => rw [hpc]; rfl
  | again hpc _ _ => rw [hpc]; rfl
  | sleep hpc _ _ => rw [hpc]; rfl
  | stop pos ret hpc _ => rw [hpc]; rfl
  | copied pos e hpc _ _ => rw [hpc]; rfl
  | ret ret hpc => rw [hpc]; rfl
  | wake hpc => rw [hpc]; rfl
  | intr hin =>
    cases hpc : (s.readers r).pc with
    | taken pos bytes =>
      rw [hpc] at hin
      cases hin
    | _ => rfl

/-- **One step of the target** is the step of the commit log that `commitAct` names. -/
theorem commits_step {a : KAct} (h : KInv cfg s) (hs : kstep cfg s a = some s') :
    exec CommitLog.step (s.commits cfg) (commitAct cfg s a) = some (s'.commits cfg) := by
  cases a with
  | map b => exact commits_map hs
  | reserve i ts => exact commits_reserve h hs
  | copy i =>
    obtain ⟨f, off, k, a, hf, hst, hk, _, rfl⟩ := copy_cases hs
    have hm : (s.flights.modify i fun f => f.submit off).map (Flight.write cfg) =
        s.flights.map (Flight.write cfg) := map_modify_same fun x hx => by
      obtain rfl := Option.some.inj (hf.symm.trans hx)
      simp [Flight.write, Flight.submit, hst, hk, Stage.isEnded]
    unfold KState.commits
    rw [hm, commits_setStage]
    rfl
  | land i =>
    obtain ⟨f, hf, hst, hl, rfl⟩ := land_cases hs
    refine exec_cons_some.mpr ⟨_, ?_, rfl⟩
    have hw : (s.commits cfg).writes[i]? = some (f.write cfg) := by
      show (s.flights.map (Flight.write cfg))[i]? = _
      rw [List.getElem?_map, hf]
      rfl
    have hopen : (!(f.write cfg).closed && !(f.write cfg).landed) = true := by
      simp [Flight.write, hst, hl, Stage.isEnded]
    have hm : (s.flights.modify i Flight.arrive).map (Flight.write cfg) =
        (s.flights.map (Flight.write cfg)).modify i CommitLog.Write.land := map_modify hf rfl
    simp only [CommitLog.step, hw, Option.bind_some, hopen, if_true]
    unfold KState.commits
    rw [hm]
    rfl
  | endIo i error =>
    obtain ⟨f, hf, hst, _, hor⟩ := endIo_cases hs
    refine exec_cons_some.mpr ⟨_, ?_, rfl⟩
    have hw : (s.commits cfg).writes[i]? = some (f.write cfg) := by
      show (s.flights.map (Flight.write cfg))[i]? = _
      rw [List.getElem?_map, hf]
      rfl
    have hopen : (!(f.write cfg).closed) = true := by simp [Flight.write, hst, Stage.isEnded]
    have hm : (s.flights.modify i fun f => f.finish error).map (Flight.write cfg) =
        (s.flights.map (Flight.write cfg)).modify i CommitLog.Write.close :=
      map_modify hf (by simp [Flight.write, Flight.finish, CommitLog.Write.close, hst,
        Stage.isEnded])
    simp only [CommitLog.step, hw, Option.bind_some, hopen, if_true]
    rcases hor with ⟨k, _, _, rfl⟩ | ⟨_, rfl⟩
    · unfold KState.commits
      rw [hm, commits_setStage]
      rfl
    · unfold KState.commits
      rw [hm]
  | call r count nonblock =>
    obtain ⟨_, rfl⟩ := call_cases hs
    rfl
  | reader r ok => exact commits_reader h hs
  | clearBegin =>
    obtain rfl := clearBegin_cases hs
    rfl
  | clearWord =>
    obtain ⟨w, _, _, rfl⟩ := clearWord_cases hs
    rfl
  | clearDone ok =>
    obtain ⟨w, _, _, rfl⟩ := clearDone_cases hs
    rfl
  | reread c =>
    change rereadStep cfg s c = some s' at hs
    obtain ⟨_, rfl⟩ := reread_cases hs
    unfold KState.commits
    rw [List.map_map]
    rfl
  | dtr =>
    obtain ⟨_, _, rfl⟩ := dtr_cases hs
    rfl

/-! ## whole runs -/

/-- a new bio overlaps none in flight, and the device reports no error -/
def QuietAct (cfg : Config) (s : KState) : KAct → Prop
  | .map b => ∀ f ∈ s.flights, f.stage.isEnded = false → ¬Overlap cfg b f.bio
  | .endIo _ error => error = false
  | _ => True

/-- drops come only where `C` holds of the number of records reserved -/
def DropsAt (cfg : Config) (C : Nat → Prop) (s : KState) : KAct → Prop
  | .reserve i _ => ∀ f a, s.flights[i]? = some f → cdpMapArgs cfg f.bio = some a →
      Refused s.t a.payload → C s.log.length
  | _ => True

/-- **A quiet step is calm.** -/
theorem commits_calm {a : KAct} (hq : QuietAct cfg s a) (hs : kstep cfg s a = some s') :
    Meets CommitLog.step CommitLog.Calm (s.commits cfg) (commitAct cfg s a) := by
  cases a with
  | map b =>
    refine ⟨fun w hw hc => ?_, fun _ _ => trivial⟩
    obtain ⟨f, hf, rfl⟩ := List.mem_map.mp hw
    rintro ⟨x, h1, h2⟩
    exact hq f hf hc ⟨cfg.start * 512 + x, h1, h2⟩
  | reserve i ts =>
    simp only [commitAct]
    split
    · split <;> exact ⟨trivial, fun _ _ => trivial⟩
    · trivial
  | land i => exact ⟨trivial, fun _ _ => trivial⟩
  | endIo i error =>
    obtain ⟨f, hf, _, hl, _⟩ := endIo_cases hs
    refine ⟨fun w hw => ?_, fun _ _ => trivial⟩
    change (s.flights.map (Flight.write cfg))[i]? = some w at hw
    rw [List.getElem?_map, hf] at hw
    obtain rfl := Option.some.inj hw
    refine hl.resolve_right fun e => ?_
    exact Bool.false_ne_true (hq.symm.trans e)
  | reader r ok =>
    show Meets _ _ _ (s.readers r).pc.commit
    cases (s.readers r).pc with
    | taken pos bytes => exact ⟨trivial, fun _ _ => trivial⟩
    | _ => trivial
  | _ => trivial

theorem commits_drops {C : Nat → Prop} {a : KAct} (hq : DropsAt cfg C s a) :
    Meets CommitLog.step (CommitLog.LosesAt C) (s.commits cfg) (commitAct cfg s a) := by
  cases a with
  | reserve i ts =>
    simp only [commitAct]
    split
    · rename_i a ha
      obtain ⟨f, hf, ha⟩ := Option.bind_eq_some_iff.mp ha
      split
      · rename_i hr
        refine ⟨?_, fun _ _ => trivial⟩
        show C (s.log.map Entry.commit).length
        rw [List.length_map]
        exact hq f a hf ha hr
      · exact ⟨trivial, fun _ _ => trivial⟩
    · trivial
  | map b => exact ⟨trivial, fun _ _ => trivial⟩
  | land i => exact ⟨trivial, fun _ _ => trivial⟩
  | endIo i error => exact ⟨trivial, fun _ _ => trivial⟩
  | reader r ok =>
    show Meets _ _ _ (s.readers r).pc.commit
    cases (s.readers r).pc with
    | taken pos bytes => exact ⟨trivial, fun _ _ => trivial⟩
    | _ => trivial
  | _ => trivial

end

/-- **The target refines a commit log.**  Any run from load, whatever its interleaving of writers,
readers, bitmap consumers and removal, is a run of the commit log; and what the calls of `cdp_read`
have returned, with what the one under the lock holds, are the records that have been taken, in
their order, each once. -/
theorem target_refines_commit_log (cfg : Config) (dev0 : Nat → UInt8) (run : List KAct)
    (s : KState) (hs : exec (kstep cfg) (KState.init cfg dev0) run = some s) :
    (∃ acts, exec CommitLog.step (CommitLog.Log.init fun x => dev0 (cfg.start * 512 + x)) acts =
      some (s.commits cfg)) ∧
    s.out ++ s.held = streamBytes ((s.log.take (s.commits cfg).taken).map Entry.srec) := by
  have hk := KInv.reach hs
  refine ⟨?_, ?_⟩
  · obtain ⟨acts, h, _⟩ := exec_simulates (KState.commits cfg) (KInv cfg)
      (fun _ _ => True) (fun _ _ => True) (fun u a v hu hs => hu.step hs)
      (fun u a v hu _ hs => ⟨_, commits_step hu hs, meets_of_forall fun _ _ _ => trivial⟩)
      (KInv.init cfg dev0) (meets_of_forall fun _ _ _ => trivial) hs
    exact ⟨acts, h⟩
  · rw [streamBytes_blocks]
    exact hk.read.out

/-- three records and a dropped write; one record has been returned, a call holds the next one -/
theorem target_refines_commit_log_run : ∃ s, exec (kstep smallConfig)
      (KState.init smallConfig fun _ => 2) (mixedRun ++ (.call 0 4096 false ::
        List.replicate 5 (.reader 0 true))) = some s ∧
    s.log.length = 3 ∧ s.t.overflows = 1 ∧ s.out.length = 56 ∧ s.held.length = 568 ∧
    (s.commits smallConfig).taken = 2 ∧
    (∃ acts, exec CommitLog.step (CommitLog.Log.init fun _ => 2) acts =
      some (s.commits smallConfig)) ∧
    s.out ++ s.held = streamBytes ((s.log.take (s.commits smallConfig).taken).map Entry.srec) := by
  have h : (exec (kstep smallConfig) (KState.init smallConfig fun _ => 2)
      (mixedRun ++ (.call 0 4096 false :: List.replicate 5 (.reader 0 true)))).any (fun s =>
        s.log.length == 3 && (s.t.overflows == 1 && (s.out.length == 56 &&
          (s.held.length == 568 && (s.commits smallConfig).taken == 2)))) := by
    decide +kernel
  obtain ⟨s, hs, hp⟩ := (Option.any_eq_true _ _).mp h
  simp only [Bool.and_eq_true, beq_iff_eq] at hp
  obtain ⟨hlen, hover, hout, hheld, htaken⟩ := hp
  exact ⟨s, hs, hlen, hover, hout, hheld, htaken,
    target_refines_commit_log smallConfig (fun _ => 2) _ s hs⟩

section
variable {cfg : Config} {dev0 : Nat → UInt8} {run : List KAct} {s : KState}

/-- **Device and log under quiet.** -/
theorem commits_ordered
    (hq : Meets (kstep cfg) (QuietAct cfg) (KState.init cfg dev0) run)
    (hs : exec (kstep cfg) (KState.init cfg dev0) run = some s) :
    CommitLog.Ordered (fun x => dev0 (cfg.start * 512 + x)) (s.commits cfg) := by
  obtain ⟨acts, h, hm⟩ := exec_simulates (KState.commits cfg) (KInv cfg)
    (QuietAct cfg) CommitLog.Calm (fun u a v hu hs => hu.step hs)
    (fun u a v hu hg hs => ⟨_, commits_step hu hs, commits_calm hg hs⟩)
    (KInv.init cfg dev0) hq hs
  exact exec_invariant_meets (fun u a v hu hg hs => hu.step hg hs)
    (CommitLog.Ordered.init _) hm h

theorem commits_cut {C : Nat → Prop}
    (hq : Meets (kstep cfg) (DropsAt cfg C) (KState.init cfg dev0) run)
    (hs : exec (kstep cfg) (KState.init cfg dev0) run = some s) :
    CommitLog.Cut C (s.commits cfg) := by
  obtain ⟨acts, h, hm⟩ := exec_simulates (KState.commits cfg) (KInv cfg)
    (DropsAt cfg C) (CommitLog.LosesAt C) (fun u a v hu hs => hu.step hs)
    (fun u a v hu hg hs => ⟨_, commits_step hu hs, commits_drops hg⟩)
    (KInv.init cfg dev0) hq hs
  exact exec_invariant_meets (fun u a v hu hg hs => hu.step hg hs)
    (CommitLog.Cut.init C _) hm h

/-- all records have ended: the commit log is settled -/
theorem commits_settled (hk : KInv cfg s) (hf : Faultless s)
    (hdone : ∀ f ∈ s.flights, f.idx ≠ none → f.stage.isEnded = true) :
    CommitLog.Settled (s.commits cfg) := by
  refine ⟨fun w hw hn => ?_, fun w hw hland hn hl a => ?_⟩
  · obtain ⟨f, hfm, rfl⟩ := List.mem_map.mp hw
    exact hdone f hfm hn
  · obtain ⟨f, hfm, rfl⟩ := List.mem_map.mp hw
    change f.idx = none at hn
    have hne : f.stage ≠ .marked := by
      intro e
      have := (hf.early f hfm e).symm.trans hland
      cases this
    have ha : cdpMapArgs cfg f.bio = none := by simpa [Flight.write, hn, hne] using hl
    exact Bio.patch_none ha _

end

end CDP
