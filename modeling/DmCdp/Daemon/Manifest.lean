import DmCdp.Lib.Machine
import Mathlib.Logic.Function.Basic
import Mathlib.Order.Nat

/-!
# `manifest.json`: two programs, two threads, one temporary name

The updates of the manifest by `rkcdp-seed`, by the main thread of the daemon (`__init__`,
`check_seed`, `mark_consistent`) and by the end of `base_copy`, step by step: load, modify,
`open(tmp, "w")`, `json.dump`, `os.replace`.

* `Text`             a file: the document it holds, if it is one, and its length;
* `ManifestSt`       the files by inode, so that a writer keeps its file when the name moves;
* `Kept`             `manifest.json` is a document, and when nobody writes it has every key;
* `MergeOk`          an update begins only when no other program's is under way, and one from
                     `self.manifest` only when that has every key of the file;
* `updates_kept`     in a run that keeps to it nothing is lost;
* `updates_lost`     the run that loses `seeded`, and the one that leaves a torn file.
-/

set_option linter.unusedVariables false

namespace CDP
open Mach

/-! ## the machine -/

/-- the keys of the updates -/
inductive Key where
  | seeded
  | seedPoint
  | baseEndSeq
  | consistent
  deriving DecidableEq

/-- which keys a document has -/
abbrev Doc := Key → Bool

def Doc.empty : Doc := fun _ => false

def Doc.union (d e : Doc) : Doc := fun k => d k || e k

def Doc.only (key : Key) : Doc := fun k => k == key

/-- the keys that `rkcdp-seed` sets -/
def Doc.seed : Doc := (Doc.only .seeded).union (Doc.only .seedPoint)

/-- a file; `doc` is `none` when it is not one complete document -/
structure Text where
  doc : Option Doc
  length : Nat

/-- a text of `n` bytes written from the beginning: what was longer stays behind it -/
def Text.write (t : Text) (d : Doc) (n : Nat) : Text :=
  if t.length ≤ n then ⟨some d, n⟩ else ⟨none, t.length⟩

/-- `rkcdp-seed`, the main thread of the daemon, its thread in `base_copy` -/
inductive Writer where
  | seed
  | main
  | base
  deriving DecidableEq

/-- where an update is; `new` are the keys it sets, `i` is the open file -/
inductive SavePc where
  | idle
  | loaded (d : Doc)
  | saving (d new : Doc)
  | created (d new : Doc) (i : Nat)
  | dumped (new : Doc) (i : Nat)

structure ManifestSt where
  inodes : Nat → Text
  next : Nat
  file : Option Nat
  tmp : Option Nat
  pc : Writer → SavePc
  -- `self.manifest`
  mem : Doc
  up : Bool
  -- the main loop has been reached
  loop : Bool
  seedRequired : Bool
  baseThread : Bool
  baseProgress : Bool
  -- ghost: the keys of the updates that have ended
  due : Doc

def ManifestSt.init : ManifestSt where
  inodes := fun _ => ⟨none, 0⟩
  next := 0
  file := none
  tmp := none
  pc := fun _ => .idle
  mem := .empty
  up := false
  loop := false
  seedRequired := false
  baseThread := false
  baseProgress := false
  due := .empty

/-- what `load_json` finds: no file, no document, or the document -/
def ManifestSt.load (s : ManifestSt) : Option (Option Doc) := s.file.map fun i => (s.inodes i).doc

def ManifestSt.set (s : ManifestSt) (w : Writer) (p : SavePc) : ManifestSt :=
  { s with pc := Function.update s.pc w p }

def ManifestSt.crash (s : ManifestSt) : ManifestSt :=
  { s with
    pc := Function.update (Function.update s.pc .main .idle) .base .idle
    up := false
    loop := false
    baseThread := false
    baseProgress := false }

/-- `m = load_json(mp, {}) or {}` of `rkcdp-seed`, which takes a broken file for none -/
def seedLoad (s : ManifestSt) : Option ManifestSt :=
  match s.pc .seed with
  | .idle => some (s.set .seed (.loaded ((s.load.bind id).getD .empty)))
  | _ => none

/-- `m["seeded"] = ..`, `m["seed_point"] = ..` -/
def seedSet (s : ManifestSt) : Option ManifestSt :=
  match s.pc .seed with
  | .loaded d => some (s.set .seed (.saving (d.union .seed) .seed))
  | _ => none

/-- `Daemon.__init__`; a broken file raises -/
def startManifest (conf : Bool) (s : ManifestSt) : Option ManifestSt :=
  if s.up then none
  else
    match s.load with
    | some none => some s
    | l =>
      let d := (l.bind id).getD .empty
      some { s.set .main (.saving d .empty) with
        mem := d
        up := true
        seedRequired := conf && !d .baseEndSeq }

/-- `main` up to its loop -/
def launchManifest (s : ManifestSt) : Option ManifestSt :=
  match s.pc .main with
  | .idle =>
    if s.up && !s.loop then
      let base := !s.mem .baseEndSeq && !s.seedRequired
      some { s with loop := true, baseThread := base, baseProgress := base }
    else none
  | _ => none

/-- the main thread is in its loop, between two updates -/
def ManifestSt.atLoop (s : ManifestSt) : Bool :=
  s.up && s.loop && match s.pc .main with
    | .idle => true
    | _ => false

/-- `check_seed`; `same` when the seed is of this boot -/
def checkManifest (s : ManifestSt) (same : Bool) : Option ManifestSt :=
  if s.atLoop && s.seedRequired then
    match s.load with
    | none => some s
    | some none => some s.crash
    | some (some m) =>
      if m .seeded then
        let s := { s with mem := m, seedRequired := false }
        if same then
          let m := m.union (.only .baseEndSeq)
          some { s.set .main (.saving m (.only .baseEndSeq)) with mem := m }
        else some { s with baseThread := true, baseProgress := true }
      else some s
  else none

/-- the end of `mark_consistent` -/
def markManifest (s : ManifestSt) : Option ManifestSt :=
  if s.atLoop && (s.mem .baseEndSeq && !s.baseProgress) then
    let m := s.mem.union (.only .consistent)
    some { s.set .main (.saving m (.only .consistent)) with mem := m }
  else none

/-- the end of `base_copy` -/
def baseManifest (s : ManifestSt) : Option ManifestSt :=
  match s.pc .base with
  | .idle =>
    if s.baseThread then
      let m := s.mem.union (.only .baseEndSeq)
      some { s.set .base (.saving m (.only .baseEndSeq)) with mem := m }
    else none
  | _ => none

/-- `open(tmp, "w")` -/
def createTmp (s : ManifestSt) (w : Writer) : Option ManifestSt :=
  match s.pc w with
  | .saving d new =>
    match s.tmp with
    | some i =>
      some { s.set w (.created d new i) with inodes := Function.update s.inodes i ⟨none, 0⟩ }
    | none =>
      some { s.set w (.created d new s.next) with
        inodes := Function.update s.inodes s.next ⟨none, 0⟩
        tmp := some s.next
        next := s.next + 1 }
  | _ => none

/-- `json.dump`, of `n` bytes -/
def dumpTmp (s : ManifestSt) (w : Writer) (n : Nat) : Option ManifestSt :=
  match s.pc w with
  | .created d new i =>
    some { s.set w (.dumped new i) with
      inodes := Function.update s.inodes i ((s.inodes i).write d n) }
  | _ => none

/-- the writer is done; after an exception the main thread takes the daemon with it -/
def ManifestSt.finish (s : ManifestSt) (w : Writer) (raised : Bool) : ManifestSt :=
  match w with
  | .seed => s.set .seed .idle
  | .main => if raised then s.crash else s.set .main .idle
  | .base => { s.set .base .idle with
      baseThread := false, baseProgress := s.baseProgress && raised }

/-- `os.replace(tmp, path)`; without a file of that name it raises -/
def replaceTmp (s : ManifestSt) (w : Writer) : Option ManifestSt :=
  match s.pc w with
  | .dumped new _ =>
    let s := { s with due := s.due.union new }
    match s.tmp with
    | some i => some ({ s with file := some i, tmp := none }.finish w false)
    | none => some (s.finish w true)
  | _ => none

inductive ManifestAct where
  | seedLoad
  | seedSet
  | start
  | launch
  | checkSeed (same : Bool)
  | mark
  | baseEnd
  | create (w : Writer)
  | dump (w : Writer) (n : Nat)
  | replace (w : Writer)
  | crash
  -- `rkcdp-seed` is interrupted
  | kill

/-- `conf` is `seed_required` of the configuration -/
def manifestStep (conf : Bool) (s : ManifestSt) : ManifestAct → Option ManifestSt
  | .seedLoad => seedLoad s
  | .seedSet => seedSet s
  | .start => startManifest conf s
  | .launch => launchManifest s
  | .checkSeed same => checkManifest s same
  | .mark => markManifest s
  | .baseEnd => baseManifest s
  | .create w => createTmp s w
  | .dump w n => dumpTmp s w n
  | .replace w => replaceTmp s w
  | .crash => some s.crash
  | .kill => some (s.set .seed .idle)

/-! ## the property and the condition -/

def ManifestSt.has (s : ManifestSt) : Doc := (s.load.bind id).getD .empty

def ManifestSt.Complete (s : ManifestSt) : Prop := s.load ≠ some none

structure Kept (s : ManifestSt) : Prop where
  complete : s.Complete
  keys : (∀ w, s.pc w = .idle) → ∀ k, s.due k = true → s.has k = true

/-- `self.manifest` is not older than the file -/
def ManifestSt.Fresh (s : ManifestSt) : Prop := ∀ k, s.has k = true → s.mem k = true

def MergeOk (s : ManifestSt) : ManifestAct → Prop
  | .seedLoad => s.pc .main = .idle ∧ s.pc .base = .idle
  | .start => s.pc .seed = .idle
  | .checkSeed same => same = true → s.has .seeded = true → s.pc .seed = .idle
  | .mark => s.pc .seed = .idle ∧ s.Fresh
  | .baseEnd => s.pc .seed = .idle ∧ s.Fresh
  | _ => True

/-! ## what every step keeps -/

/-- what an update has in hand: nothing of the file is missing -/
def ManifestSt.Sound (s : ManifestSt) : SavePc → Prop
  | .idle => True
  | .loaded d => ∀ k, s.has k = true → d k = true
  | .saving d new => ∀ k, s.has k = true ∨ new k = true → d k = true
  | .created d new i => (∀ k, s.has k = true ∨ new k = true → d k = true) ∧ s.tmp = some i ∧
      s.inodes i = ⟨none, 0⟩
  | .dumped new i => s.tmp = some i ∧ ∃ d, (s.inodes i).doc = some d ∧
      ∀ k, s.has k = true ∨ new k = true → d k = true

/-- the two threads of the daemon keep apart by themselves -/
structure Gates (s : ManifestSt) : Prop where
  main : s.pc .main ≠ .idle → s.baseThread = false
  base : s.pc .base ≠ .idle → s.baseThread = true
  thread : s.baseThread = true → s.baseProgress = true ∧ s.seedRequired = false ∧ s.loop = true
  down : s.up = false → s.pc .main = .idle ∧ s.pc .base = .idle ∧ s.baseThread = false

structure ManifestInv (s : ManifestSt) : Prop where
  alone : ∀ v w, s.pc v ≠ .idle → s.pc w ≠ .idle → v = w
  complete : s.Complete
  below : ∀ i, s.file = some i ∨ s.tmp = some i → i < s.next
  apart : ∀ i, s.file = some i → s.tmp ≠ some i
  due : ∀ k, s.due k = true → s.has k = true
  sound : ∀ w, s.Sound (s.pc w)
  gates : Gates s

section
variable {conf : Bool} {s s' : ManifestSt} {w : Writer} {p : SavePc} {d new : Doc} {i n : Nat}

theorem Doc.union_iff (d e : Doc) (k : Key) : d.union e k = true ↔ d k = true ∨ e k = true :=
  Bool.or_eq_true_iff

theorem load_same (hf : s'.file = s.file) (hi : ∀ i, s.file = some i → s'.inodes i = s.inodes i) :
    s'.load = s.load := by
  unfold ManifestSt.load
  rw [hf]
  cases h : s.file with
  | none => rfl
  | some i => exact congrArg (fun t : Text => some t.doc) (hi i h)

theorem has_same (h : s'.load = s.load) : s'.has = s.has := by
  unfold ManifestSt.has
  rw [h]

theorem sound_same (hf : s'.file = s.file) (hi : s'.inodes = s.inodes) (ht : s'.tmp = s.tmp)
    (h : s.Sound p) : s'.Sound p := by
  have hhas := has_same (load_same hf fun i _ => congrFun hi i)
  cases p <;> simp only [ManifestSt.Sound, hhas, hi, ht] at h ⊢ <;> exact h

theorem has_of_load (hd : s.load = some (some d)) : s.has = d := by
  unfold ManifestSt.has
  rw [hd]
  rfl

theorem ManifestInv.frame (h : ManifestInv s) (hf : s'.file = s.file) (hi : s'.inodes = s.inodes)
    (ht : s'.tmp = s.tmp) (hn : s'.next = s.next) (hdue : s'.due = s.due)
    (hpc : ∀ w, s'.pc w = .idle ∨ s'.pc w = s.pc w) (hg : Gates s') : ManifestInv s' := by
  have hload := load_same hf fun i _ => congrFun hi i
  have hbusy : ∀ w, s'.pc w ≠ .idle → s.pc w ≠ .idle := fun w hw =>
    (hpc w).resolve_left hw ▸ hw
  refine ⟨fun v w hv hw => h.alone v w (hbusy v hv) (hbusy w hw), ?_, ?_, ?_, ?_, fun w => ?_, hg⟩
  · unfold ManifestSt.Complete
    rw [hload]
    exact h.complete
  · rw [hf, ht, hn]
    exact h.below
  · rw [hf, ht]
    exact h.apart
  · rw [hdue, has_same hload]
    exact h.due
  · rcases hpc w with e | e
    · rw [e]
      trivial
    · rw [e]
      exact sound_same hf hi ht (h.sound w)

theorem ManifestInv.turn (hpc : s'.pc = Function.update s.pc w p)
    (hother : ∀ v, v ≠ w → s.pc v = .idle) (hcomplete : s'.Complete)
    (hbelow : ∀ i, s'.file = some i ∨ s'.tmp = some i → i < s'.next)
    (hapart : ∀ i, s'.file = some i → s'.tmp ≠ some i)
    (hdue : ∀ k, s'.due k = true → s'.has k = true) (hp : s'.Sound p) (hg : Gates s') :
    ManifestInv s' := by
  have hidle : ∀ v, v ≠ w → s'.pc v = .idle := fun v hv => by
    rw [hpc, Function.update_of_ne hv]
    exact hother v hv
  refine ⟨fun u v hu hv => ?_, hcomplete, hbelow, hapart, hdue, fun v => ?_, hg⟩
  · have hw : ∀ v, s'.pc v ≠ .idle → v = w := fun v hv => by
      by_contra hne
      exact hv (hidle v hne)
    exact (hw u hu).trans (hw v hv).symm
  · by_cases hv : v = w
    · rw [hv, hpc, Function.update_self]
      exact hp
    · rw [hidle v hv]
      trivial

theorem ManifestInv.others (h : ManifestInv s) (hw : s.pc w ≠ .idle) :
    ∀ v, v ≠ w → s.pc v = .idle := fun v hne => by
  by_contra hv
  exact hne (h.alone v w hv hw)

/-- `manifest.json` stays, whatever becomes of the temporary file -/
theorem ManifestInv.scratch (h : ManifestInv s) (hpc : s'.pc = Function.update s.pc w p)
    (hother : ∀ v, v ≠ w → s.pc v = .idle) (hf : s'.file = s.file)
    (hi : ∀ i, s.file = some i → s'.inodes i = s.inodes i) (hn : s.next ≤ s'.next)
    (hbelow : ∀ i, s'.tmp = some i → i < s'.next) (hapart : ∀ i, s.file = some i → s'.tmp ≠ some i)
    (hdue : s'.due = s.due) (hp : s'.Sound p) (hg : Gates s') : ManifestInv s' := by
  have hload := load_same hf hi
  refine ManifestInv.turn hpc hother ?_ (fun i hfile => ?_) ?_ ?_ hp hg
  · unfold ManifestSt.Complete
    rw [hload]
    exact h.complete
  · rcases hfile with e | e
    · exact lt_of_lt_of_le (h.below i (Or.inl (hf ▸ e))) hn
    · exact hbelow i e
  · rw [hf]
    exact hapart
  · rw [hdue, has_same hload]
    exact h.due

theorem ManifestInv.hold (h : ManifestInv s) (hpc : s'.pc = Function.update s.pc w p)
    (hother : ∀ v, v ≠ w → s.pc v = .idle) (hf : s'.file = s.file) (hi : s'.inodes = s.inodes)
    (ht : s'.tmp = s.tmp) (hn : s'.next = s.next) (hdue : s'.due = s.due) (hp : s.Sound p)
    (hg : Gates s') : ManifestInv s' := by
  refine h.scratch hpc hother hf (fun i _ => congrFun hi i) hn.ge ?_ ?_ hdue
    (sound_same hf hi ht hp) hg
  · rw [ht, hn]
    exact fun i e => h.below i (Or.inr e)
  · rw [ht]
    exact h.apart

theorem Gates.busy (hg : Gates s) (hw : w = .seed ∨ s.pc w ≠ .idle)
    (hpc : s'.pc = Function.update s.pc w p) (hthread : s'.baseThread = s.baseThread)
    (hprogress : s'.baseProgress = s.baseProgress) (hseed : s'.seedRequired = s.seedRequired)
    (hloop : s'.loop = s.loop) (hup : s'.up = s.up) : Gates s' := by
  have hbusy : ∀ v, v ≠ .seed → s'.pc v ≠ .idle → s.pc v ≠ .idle := by
    intro v hv hne
    by_cases hvw : v = w
    · exact hvw ▸ hw.resolve_left (hvw ▸ hv)
    · rw [hpc, Function.update_of_ne hvw] at hne
      exact hne
  refine ⟨fun hm => ?_, fun hb => ?_, fun ht => ?_, fun hdown => ?_⟩
  · rw [hthread]
    exact hg.main (hbusy .main (by decide) hm)
  · rw [hthread]
    exact hg.base (hbusy .base (by decide) hb)
  · rw [hprogress, hseed, hloop]
    exact hg.thread (hthread ▸ ht)
  · obtain ⟨hm, hb, ht⟩ := hg.down (hup ▸ hdown)
    refine ⟨?_, ?_, hthread.trans ht⟩
    · by_contra hne
      exact hbusy .main (by decide) hne hm
    · by_contra hne
      exact hbusy .base (by decide) hne hb

/-- `open(tmp, "w")`: the file that the name stands for is not the manifest -/
theorem ManifestInv.create (h : ManifestInv s) (hs : createTmp s w = some s') : ManifestInv s' := by
  unfold createTmp at hs
  split at hs
  · rename_i d new hw
    have hbusy : s.pc w ≠ .idle := by rw [hw]; simp
    have hsound := h.sound w
    rw [hw] at hsound
    split at hs
    · rename_i i ht
      obtain rfl := Option.some.inj hs
      have hkeep : ∀ j, s.file = some j → Function.update s.inodes i ⟨none, 0⟩ j = s.inodes j :=
        fun j hj => Function.update_of_ne (fun e => h.apart j hj (by rw [e]; exact ht)) _ _
      have hhas : ManifestSt.has { s.set w (.created d new i) with
          inodes := Function.update s.inodes i ⟨none, 0⟩ } = s.has := has_same (load_same rfl hkeep)
      refine h.scratch (p:=.created d new i) rfl (h.others hbusy) rfl hkeep le_rfl
        (fun j hj => h.below j (Or.inr hj)) h.apart rfl ⟨?_, ht, Function.update_self _ _ _⟩
        (h.gates.busy (Or.inr hbusy) rfl rfl rfl rfl rfl rfl)
      rw [hhas]
      exact hsound
    · rename_i ht
      obtain rfl := Option.some.inj hs
      have hne : ∀ j, s.file = some j → j ≠ s.next := fun j hj =>
        ne_of_lt (h.below j (Or.inl hj))
      have hkeep : ∀ j, s.file = some j →
          Function.update s.inodes s.next ⟨none, 0⟩ j = s.inodes j :=
        fun j hj => Function.update_of_ne (hne j hj) _ _
      have hhas : ManifestSt.has { s.set w (.created d new s.next) with
          inodes := Function.update s.inodes s.next ⟨none, 0⟩
          tmp := some s.next
          next := s.next + 1 } = s.has := has_same (load_same rfl hkeep)
      refine h.scratch (p:=.created d new s.next) rfl (h.others hbusy) rfl hkeep
        (Nat.le_succ _) (fun j hj => ?_) (fun j hj e => hne j hj (Option.some.inj e).symm) rfl
        ⟨?_, rfl, Function.update_self _ _ _⟩ (h.gates.busy (Or.inr hbusy) rfl rfl rfl rfl rfl rfl)
      · obtain rfl := Option.some.inj hj
        exact Nat.lt_succ_self _
      · rw [hhas]
        exact hsound
  · cases hs

theorem ManifestInv.dump (h : ManifestInv s) (hs : dumpTmp s w n = some s') : ManifestInv s' := by
  unfold dumpTmp at hs
  split at hs
  · rename_i d new i hw
    have hbusy : s.pc w ≠ .idle := by rw [hw]; simp
    have hsound := h.sound w
    rw [hw] at hsound
    obtain ⟨hd, ht, hempty⟩ := hsound
    obtain rfl := Option.some.inj hs
    have hkeep : ∀ j, s.file = some j →
        Function.update s.inodes i ((s.inodes i).write d n) j = s.inodes j :=
      fun j hj => Function.update_of_ne (fun e => h.apart j hj (by rw [e]; exact ht)) _ _
    have hhas : ManifestSt.has { s.set w (.dumped new i) with
        inodes := Function.update s.inodes i ((s.inodes i).write d n) } = s.has :=
      has_same (load_same rfl hkeep)
    have hwhole : (s.inodes i).write d n = ⟨some d, n⟩ := by
      rw [hempty]
      exact if_pos (Nat.zero_le n)
    refine h.scratch (p:=.dumped new i) rfl (h.others hbusy) rfl hkeep le_rfl
      (fun j hj => h.below j (Or.inr hj)) h.apart rfl ⟨ht, d, ?_, ?_⟩
      (h.gates.busy (Or.inr hbusy) rfl rfl rfl rfl rfl rfl)
    · show (Function.update s.inodes i ((s.inodes i).write d n) i).doc = some d
      rw [Function.update_self, hwhole]
    · rw [hhas]
      exact hd
  · cases hs

theorem finish_pc (s : ManifestSt) (w : Writer) :
    (s.finish w false).pc = Function.update s.pc w .idle := by
  cases w <;> rfl

theorem finish_files (s : ManifestSt) (w : Writer) :
    (s.finish w false).file = s.file ∧ (s.finish w false).tmp = s.tmp ∧
      (s.finish w false).inodes = s.inodes ∧ (s.finish w false).next = s.next ∧
      (s.finish w false).due = s.due := by
  cases w <;> exact ⟨rfl, rfl, rfl, rfl, rfl⟩

theorem Gates.finish (hg : Gates s) (hidle : ∀ v, (s.finish w false).pc v = .idle) :
    Gates (s.finish w false) := by
  refine ⟨fun hm => absurd (hidle .main) hm, fun hb => absurd (hidle .base) hb, fun ht => ?_,
    fun hdown => ⟨hidle .main, hidle .base, ?_⟩⟩
  · cases w with
    | seed => exact hg.thread ht
    | main => exact hg.thread ht
    | base => cases ht
  · cases w with
    | seed => exact (hg.down hdown).2.2
    | main => exact (hg.down hdown).2.2
    | base => rfl

/-- **`os.replace`**: the new document has what the old one had, and the new keys. -/
theorem ManifestInv.replace (h : ManifestInv s) (hs : replaceTmp s w = some s') :
    ManifestInv s' := by
  unfold replaceTmp at hs
  split at hs
  · rename_i new i hw
    have hbusy : s.pc w ≠ .idle := by rw [hw]; simp
    have hsound := h.sound w
    rw [hw] at hsound
    obtain ⟨ht, d, hdoc, hd⟩ := hsound
    dsimp only at hs
    rw [ht] at hs
    obtain rfl := Option.some.inj hs
    have hidle : ∀ v, (({ s with due := s.due.union new, file := some i, tmp := none }
        : ManifestSt).finish w false).pc v = .idle := fun v => by
      rw [finish_pc]
      by_cases hv : v = w
      · rw [hv, Function.update_self]
      · rw [Function.update_of_ne hv]
        exact h.others hbusy v hv
    obtain ⟨hf, htmp, hi, hn, hdue⟩ := finish_files
      { s with due := s.due.union new, file := some i, tmp := none } w
    have hload : (({ s with due := s.due.union new, file := some i, tmp := none }
        : ManifestSt).finish w false).load = some (some d) := by
      unfold ManifestSt.load
      rw [hf, hi]
      exact congrArg some hdoc
    refine ManifestInv.turn (p:=.idle) (finish_pc _ w) (h.others hbusy) ?_ (fun j hj => ?_)
      (fun j _ => ?_) (fun k hk => ?_) trivial (Gates.finish ?_ hidle)
    · unfold ManifestSt.Complete
      rw [hload]
      simp
    · rw [hf, htmp] at hj
      rw [hn]
      rcases hj with e | e
      · obtain rfl := Option.some.inj e
        exact h.below _ (Or.inr ht)
      · cases e
    · rw [htmp]
      simp
    · rw [has_of_load hload]
      rw [hdue] at hk
      exact hd k (((Doc.union_iff _ _ k).mp hk).imp_left (h.due k))
    · exact ⟨h.gates.main, h.gates.base, h.gates.thread, h.gates.down⟩
  · cases hs

theorem atLoop_iff : s.atLoop = true ↔ s.up = true ∧ s.loop = true ∧ s.pc .main = .idle := by
  unfold ManifestSt.atLoop
  cases h : s.pc .main <;> simp

theorem sound_saving (hd : ∀ k, s.has k = true → d k = true) : s.Sound (.saving (d.union new) new) :=
  fun k hk => (Doc.union_iff d new k).mpr (hk.imp_left (hd k))

/-- **The load and the modification of `rkcdp-seed`.** -/
theorem ManifestInv.seedLoad (h : ManifestInv s) (hm : s.pc .main = .idle) (hb : s.pc .base = .idle)
    (hs : CDP.seedLoad s = some s') : ManifestInv s' := by
  unfold CDP.seedLoad at hs
  split at hs
  · obtain rfl := Option.some.inj hs
    refine h.hold (w:=.seed) (p:=.loaded s.has) rfl (fun v hv => ?_) rfl rfl rfl rfl rfl
      (fun k hk => hk) (h.gates.busy (Or.inl rfl) rfl rfl rfl rfl rfl rfl)
    cases v with
    | seed => exact absurd rfl hv
    | main => exact hm
    | base => exact hb
  · cases hs

theorem ManifestInv.seedSet (h : ManifestInv s) (hs : CDP.seedSet s = some s') : ManifestInv s' := by
  unfold CDP.seedSet at hs
  split at hs
  · rename_i d hw
    obtain rfl := Option.some.inj hs
    have hbusy : s.pc .seed ≠ .idle := by rw [hw]; simp
    have hsound := h.sound .seed
    rw [hw] at hsound
    exact h.hold rfl (h.others hbusy) rfl rfl rfl rfl rfl (sound_saving hsound)
      (h.gates.busy (Or.inl rfl) rfl rfl rfl rfl rfl rfl)
  · cases hs

theorem Gates.noBase (hg : Gates s) (ht : s.baseThread = false) : s.pc .base = .idle := by
  by_contra hb
  rw [hg.base hb] at ht
  cases ht

theorem Gates.noMain (hg : Gates s) (ht : s.baseThread = true) : s.pc .main = .idle := by
  by_contra hm
  rw [hg.main hm] at ht
  cases ht

/-- the daemon's own updates begin where the other two are idle -/
theorem others_main (hseed : s.pc .seed = .idle) (hbase : s.pc .base = .idle) :
    ∀ v, v ≠ .main → s.pc v = .idle := by
  intro v hv
  cases v with
  | seed => exact hseed
  | main => exact absurd rfl hv
  | base => exact hbase

theorem crash_pc (s : ManifestSt) (w : Writer) : s.crash.pc w = .idle ∨ s.crash.pc w = s.pc w := by
  cases w with
  | seed => exact Or.inr rfl
  | main => exact Or.inl rfl
  | base => exact Or.inl rfl

theorem ManifestInv.crash (h : ManifestInv s) : ManifestInv s.crash :=
  h.frame rfl rfl rfl rfl rfl (crash_pc s)
    ⟨fun hm => absurd rfl hm, fun hb => absurd rfl hb, fun ht => (Bool.false_ne_true ht).elim,
      fun _ => ⟨rfl, rfl, rfl⟩⟩

theorem ManifestInv.start (h : ManifestInv s) (hseed : s.pc .seed = .idle)
    (hs : startManifest conf s = some s') : ManifestInv s' := by
  unfold startManifest at hs
  split at hs
  · cases hs
  · rename_i hup
    obtain ⟨_, hbase, hthread⟩ := h.gates.down (Bool.eq_false_iff.mpr hup)
    dsimp only at hs
    split at hs
    · obtain rfl := Option.some.inj hs
      exact h
    · obtain rfl := Option.some.inj hs
      refine h.hold (w:=.main) (p:=.saving s.has .empty) rfl (others_main hseed hbase) rfl rfl rfl
        rfl rfl (fun k hk => hk.resolve_right (by simp [Doc.empty])) ⟨fun _ => hthread,
          fun hb => absurd hbase hb, fun ht => ?_, fun hdown => ?_⟩
      · rw [show s.baseThread = true from ht] at hthread
        cases hthread
      · cases hdown

theorem ManifestInv.launch (h : ManifestInv s) (hs : launchManifest s = some s') :
    ManifestInv s' := by
  unfold launchManifest at hs
  split at hs
  · rename_i hmain
    split at hs
    · rename_i hcond
      obtain ⟨hup, hloop⟩ := Bool.and_eq_true_iff.mp hcond
      have hbase : s.pc .base = .idle := by
        refine h.gates.noBase (Bool.eq_false_iff.mpr fun ht => ?_)
        rw [(h.gates.thread ht).2.2] at hloop
        cases hloop
      obtain rfl := Option.some.inj hs
      refine h.frame rfl rfl rfl rfl rfl (fun _ => Or.inr rfl) ⟨fun hm => absurd hmain hm,
        fun hb => absurd hbase hb, fun ht => ⟨ht, ?_, rfl⟩, fun hdown => ?_⟩
      · exact (Bool.not_eq_true' _).mp (Bool.and_eq_true_iff.mp ht).2
      · rw [show s.up = false from hdown] at hup
        cases hup
    · cases hs
  · cases hs

/-- **`check_seed`**: the manifest that it adopts is the file. -/
theorem ManifestInv.checkSeed {same : Bool} (h : ManifestInv s)
    (hseed : same = true → s.has .seeded = true → s.pc .seed = .idle)
    (hs : checkManifest s same = some s') : ManifestInv s' := by
  unfold checkManifest at hs
  split at hs
  · rename_i hcond
    obtain ⟨hat, hreq⟩ := Bool.and_eq_true_iff.mp hcond
    obtain ⟨hup, hloop, hmain⟩ := atLoop_iff.mp hat
    have hthread : s.baseThread = false := Bool.eq_false_iff.mpr fun ht => by
      rw [(h.gates.thread ht).2.1] at hreq
      cases hreq
    have hbase := h.gates.noBase hthread
    split at hs
    · obtain rfl := Option.some.inj hs
      exact h
    · obtain rfl := Option.some.inj hs
      exact h.crash
    · rename_i m hload
      have hhas : s.has = m := has_of_load hload
      split at hs
      · rename_i hm
        dsimp only at hs
        split at hs
        · rename_i hsame
          obtain rfl := Option.some.inj hs
          refine h.hold (w:=.main) rfl (others_main (hseed hsame (hhas ▸ hm)) hbase) rfl rfl rfl
            rfl rfl (sound_saving fun k hk => hhas ▸ hk) ⟨fun _ => hthread,
              fun hb => absurd hbase hb, fun ht => ?_, fun hdown => ?_⟩
          · rw [show s.baseThread = true from ht] at hthread
            cases hthread
          · rw [show s.up = false from hdown] at hup
            cases hup
        · obtain rfl := Option.some.inj hs
          refine h.frame rfl rfl rfl rfl rfl (fun _ => Or.inr rfl) ⟨fun hm => absurd hmain hm,
            fun _ => rfl, fun _ => ⟨rfl, rfl, hloop⟩, fun hdown => ?_⟩
          rw [show s.up = false from hdown] at hup
          cases hup
      · obtain rfl := Option.some.inj hs
        exact h
  · cases hs

/-- **The end of `mark_consistent`**, from a copy that is not older than the file. -/
theorem ManifestInv.mark (h : ManifestInv s) (hseed : s.pc .seed = .idle) (hfresh : s.Fresh)
    (hs : markManifest s = some s') : ManifestInv s' := by
  unfold markManifest at hs
  split at hs
  · rename_i hcond
    obtain ⟨hat, hrest⟩ := Bool.and_eq_true_iff.mp hcond
    obtain ⟨_, hprogress⟩ := Bool.and_eq_true_iff.mp hrest
    obtain ⟨hup, _, _⟩ := atLoop_iff.mp hat
    have hthread : s.baseThread = false := Bool.eq_false_iff.mpr fun ht => by
      rw [(h.gates.thread ht).1] at hprogress
      cases hprogress
    have hbase := h.gates.noBase hthread
    obtain rfl := Option.some.inj hs
    refine h.hold (w:=.main) rfl (others_main hseed hbase) rfl rfl rfl rfl rfl
      (sound_saving hfresh) ⟨fun _ => hthread, fun hb => absurd hbase hb, fun ht => ?_,
        fun hdown => ?_⟩
    · rw [show s.baseThread = true from ht] at hthread
      cases hthread
    · rw [show s.up = false from hdown] at hup
      cases hup
  · cases hs

/-- **The end of `base_copy`**, likewise. -/
theorem ManifestInv.baseEnd (h : ManifestInv s) (hseed : s.pc .seed = .idle) (hfresh : s.Fresh)
    (hs : baseManifest s = some s') : ManifestInv s' := by
  unfold baseManifest at hs
  split at hs
  · split at hs
    · rename_i hthread
      have hmain := h.gates.noMain hthread
      obtain rfl := Option.some.inj hs
      refine h.hold (w:=.base) rfl (fun v hv => ?_) rfl rfl rfl rfl rfl (sound_saving hfresh)
        ⟨fun hm => absurd hmain hm, fun _ => hthread, h.gates.thread, fun hdown => ?_⟩
      · cases v with
        | seed => exact hseed
        | main => exact hmain
        | base => exact absurd rfl hv
      · rw [(h.gates.down hdown).2.2] at hthread
        cases hthread
    · cases hs
  · cases hs

theorem ManifestInv.kill (h : ManifestInv s) : ManifestInv (s.set .seed .idle) := by
  refine h.frame rfl rfl rfl rfl rfl (fun w => ?_)
    ⟨h.gates.main, h.gates.base, h.gates.thread, h.gates.down⟩
  cases w with
  | seed => exact Or.inl rfl
  | main => exact Or.inr rfl
  | base => exact Or.inr rfl

theorem ManifestInv.step {a : ManifestAct} (h : ManifestInv s) (hg : MergeOk s a)
    (hs : manifestStep conf s a = some s') : ManifestInv s' := by
  cases a with
  | seedLoad => exact h.seedLoad hg.1 hg.2 hs
  | seedSet => exact h.seedSet hs
  | start => exact h.start hg hs
  | launch => exact h.launch hs
  | checkSeed same => exact h.checkSeed hg hs
  | mark => exact h.mark hg.1 hg.2 hs
  | baseEnd => exact h.baseEnd hg.1 hg.2 hs
  | create w => exact h.create hs
  | dump w n => exact h.dump hs
  | replace w => exact h.replace hs
  | crash =>
    obtain rfl := Option.some.inj hs
    exact h.crash
  | kill =>
    obtain rfl := Option.some.inj hs
    exact h.kill

end

theorem ManifestInv.init : ManifestInv ManifestSt.init :=
  ⟨fun v w hv => absurd rfl hv, fun e => Option.some_ne_none _ e.symm,
    fun i hi => hi.elim (fun e => (Option.some_ne_none i e.symm).elim)
      fun e => (Option.some_ne_none i e.symm).elim,
    fun i hi => (Option.some_ne_none i hi.symm).elim, fun k hk => (Bool.false_ne_true hk).elim,
    fun _ => trivial, fun hm => absurd rfl hm, fun hb => absurd rfl hb,
    fun ht => (Bool.false_ne_true ht).elim, fun _ => ⟨rfl, rfl, rfl⟩⟩

/-- **No update of the manifest is lost**, and the file is one document at every moment, in a run
that meets `MergeOk`. -/
theorem updates_kept (conf : Bool) (as : List ManifestAct) (s : ManifestSt)
    (hg : Meets (manifestStep conf) MergeOk .init as)
    (h : exec (manifestStep conf) .init as = some s) : Kept s := by
  have hi := exec_invariant_meets (P:=ManifestInv) (fun u a v hu hga hs => hu.step hga hs)
    ManifestInv.init hg h
  exact ⟨hi.complete, fun _ => hi.due⟩

/-! ## the runs -/

def SavePc.isIdle : SavePc → Bool
  | .idle => true
  | _ => false

theorem SavePc.isIdle_iff {p : SavePc} : p.isIdle = true ↔ p = .idle := by
  cases p <;> simp [SavePc.isIdle]

def Doc.within (d e : Doc) : Bool :=
  [Key.seeded, .seedPoint, .baseEndSeq, .consistent].all fun k => !d k || e k

theorem Doc.within_iff {d e : Doc} : d.within e = true ↔ ∀ k, d k = true → e k = true := by
  constructor
  · intro h k hk
    have hall := List.all_eq_true.mp h k (by cases k <;> simp)
    rw [hk] at hall
    exact hall
  · intro h
    refine List.all_eq_true.mpr fun k _ => ?_
    cases hk : d k with
    | false => rfl
    | true => exact h k hk

def ManifestSt.idleB (s : ManifestSt) : Bool :=
  (s.pc .seed).isIdle && ((s.pc .main).isIdle && (s.pc .base).isIdle)

theorem idle_of_test {s : ManifestSt} (h : s.idleB = true) : ∀ w, s.pc w = .idle := by
  simp only [ManifestSt.idleB, Bool.and_eq_true, SavePc.isIdle_iff] at h
  intro w
  cases w with
  | seed => exact h.1
  | main => exact h.2.1
  | base => exact h.2.2

def mergeOkB (s : ManifestSt) : ManifestAct → Bool
  | .seedLoad => (s.pc .main).isIdle && (s.pc .base).isIdle
  | .start => (s.pc .seed).isIdle
  | .checkSeed same => !(same && s.has .seeded) || (s.pc .seed).isIdle
  | .mark => (s.pc .seed).isIdle && s.has.within s.mem
  | .baseEnd => (s.pc .seed).isIdle && s.has.within s.mem
  | _ => true

theorem mergeOk_of_test (s : ManifestSt) (a : ManifestAct) (h : mergeOkB s a = true) :
    MergeOk s a := by
  cases a with
  | seedLoad =>
    have hb := Bool.and_eq_true_iff.mp h
    exact ⟨SavePc.isIdle_iff.mp hb.1, SavePc.isIdle_iff.mp hb.2⟩
  | start => exact SavePc.isIdle_iff.mp h
  | checkSeed same =>
    intro hsame hseeded
    change (!(same && s.has .seeded) || (s.pc .seed).isIdle) = true at h
    rw [hsame, hseeded] at h
    exact SavePc.isIdle_iff.mp h
  | mark =>
    have hb := Bool.and_eq_true_iff.mp h
    exact ⟨SavePc.isIdle_iff.mp hb.1, Doc.within_iff.mp hb.2⟩
  | baseEnd =>
    have hb := Bool.and_eq_true_iff.mp h
    exact ⟨SavePc.isIdle_iff.mp hb.1, Doc.within_iff.mp hb.2⟩
  | _ => trivial

/-- `write_json` of `n` bytes -/
def save (w : Writer) (n : Nat) : List ManifestAct := [.create w, .dump w n, .replace w]

/-- a node that waits for its seed; the daemon polls while `rkcdp-seed` writes -/
def seededRun : List ManifestAct :=
  [.start] ++ save .main 150 ++ [.launch, .seedLoad, .seedSet, .create .seed, .checkSeed true,
    .dump .seed 300, .replace .seed, .checkSeed true] ++ save .main 320 ++ [.mark] ++ save .main 380

theorem updates_kept_run : ∃ s, exec (manifestStep true) .init seededRun = some s ∧
    (s.has .seeded = true ∧ s.has .consistent = true) ∧ Kept s := by
  have h : (exec (manifestStep true) .init seededRun).any
      (fun s => s.has .seeded && s.has .consistent) = true := by decide
  obtain ⟨s, hs, hp⟩ := (Option.any_eq_true _ _).mp h
  exact ⟨s, hs, Bool.and_eq_true_iff.mp hp,
    updates_kept true seededRun s (meets_of_meetsB mergeOk_of_test (by decide)) hs⟩

/-- the base copy ends after `rkcdp-seed` has written -/
def lostRun : List ManifestAct :=
  [.start] ++ save .main 150 ++ [.launch, .seedLoad, .seedSet] ++ save .seed 300 ++ [.baseEnd]
    ++ save .base 200

/-- both have the temporary file open -/
def tornRun : List ManifestAct :=
  [.start] ++ save .main 150 ++ [.launch, .seedLoad, .seedSet, .create .seed, .baseEnd,
    .create .base, .dump .seed 300, .dump .base 200, .replace .seed]

/-- **`seeded` is lost, and the file is torn**: a stale copy in memory, and one temporary name. -/
theorem updates_lost :
    (∃ s, exec (manifestStep false) .init lostRun = some s ∧ (∀ w, s.pc w = .idle) ∧
      s.due .seeded = true ∧ s.has .seeded = false ∧ ¬Kept s) ∧
    ∃ s, exec (manifestStep false) .init tornRun = some s ∧ ¬s.Complete ∧ ¬Kept s := by
  constructor
  · have h : (exec (manifestStep false) .init lostRun).any
        (fun s => s.idleB && (s.due .seeded && !s.has .seeded)) = true := by decide
    obtain ⟨s, hs, hp⟩ := (Option.any_eq_true _ _).mp h
    simp only [Bool.and_eq_true, Bool.not_eq_true'] at hp
    obtain ⟨hidle, hdue, hhas⟩ := hp
    refine ⟨s, hs, idle_of_test hidle, hdue, hhas, fun hk => ?_⟩
    rw [hk.keys (idle_of_test hidle) .seeded hdue] at hhas
    cases hhas
  · have h : (exec (manifestStep false) .init tornRun).any
        (fun s => s.load.any Option.isNone) = true := by decide
    obtain ⟨s, hs, hp⟩ := (Option.any_eq_true _ _).mp h
    obtain ⟨d, hd, hnone⟩ := (Option.any_eq_true _ _).mp hp
    rw [Option.isNone_iff_eq_none.mp hnone] at hd
    exact ⟨s, hs, fun hc => hc hd, fun hk => hk.complete hd⟩

end CDP
