import DmCdp.Daemon.Pieces
import DmCdp.Lib.Machine

/-!
# A torn `pending.bin`

`consume` appends batches to the file while the lock is there; a process that dies leaves a prefix
of its append, and the next one appends behind it.

* `tornStep`           an append, or the prefix of one and a restart;
* `wholeAt`            the records that lie whole in the file, with their places;
* `callOne`            `apply_one` as a list of its calls, each with the place of its record
                       (`applyPending_calls`: any `apply_one` gets these);
* `pieceLoop_breaks`   `apply_pending` on bytes in front of which the generator does not stop;
* `TornOk`             nothing whole follows the first torn record, and the loop halts at it;
* `parked_applied`     exactly then the calls of `apply_pending` are the records that lie whole in
                       the file;
* `torn_raises`        a cut in a payload, and a whole record after it.
-/

set_option linter.unusedVariables false

namespace CDP
open Img Mach

/-! ## the file -/

/-- an append of `consume`, or the first `k` bytes of one, after which the process dies -/
inductive TornAct where
  | park (rs : List LaidRec)
  | die (rs : List LaidRec) (k : Nat)

section
variable {σ : Type}

/-- the lock is there all the time; `boot` is what a restart does to the state of `apply_one` -/
def tornStep (applyOne : σ → Item → σ) (boot : σ → σ) (d : Intake σ) : TornAct → Option (Intake σ)
  | .park rs => (d.consume applyOne true (laidBytes rs)).map fun p => p.1
  | .die rs k =>
    (d.consume applyOne true (laidBytes rs)).map fun p =>
      ⟨boot p.1.st, ⟨none, []⟩, p.1.file.map fun bs => bs.take ((d.file.getD []).length + k)⟩

end

/-- the records that end within the first `k` bytes -/
def wholeOf : List LaidRec → Nat → List LaidRec
  | [], _ => []
  | r :: rs, k => if r.bytes.length ≤ k then r :: wholeOf rs (k - r.bytes.length) else []

/-- the bytes behind them -/
def tornOf (rs : List LaidRec) (k : Nat) : List UInt8 :=
  ((laidBytes rs).take k).drop (laidBytes (wholeOf rs k)).length

/-- the records that lie whole in what the act appends -/
def TornAct.whole : TornAct → List LaidRec
  | .park rs => rs
  | .die rs k => wholeOf rs k

/-- the part of a record behind them -/
def TornAct.torn : TornAct → List UInt8
  | .park _ => []
  | .die rs k => tornOf rs k

def TornAct.bytes (a : TornAct) : List UInt8 := laidBytes a.whole ++ a.torn

def fileBytes (acts : List TornAct) : List UInt8 := acts.flatMap TornAct.bytes

/-- records one after the other from `o` on, with their places -/
def placed : Nat → List LaidRec → List (Nat × Item)
  | _, [] => []
  | o, r :: rs => (o, r.item) :: placed (o + r.hdr.recLen) rs

/-- every record all of whose bytes have reached the file, with its place -/
def wholeAt : Nat → List TornAct → List (Nat × Item)
  | _, [] => []
  | o, a :: acts => placed o a.whole ++ wholeAt (o + a.bytes.length) acts

/-! ## the calls -/

/-- where the next record lies, and the calls so far -/
abbrev Calls := Nat × List (Nat × Item)

def callOne (c : Calls) (r : Item) : Calls := (c.1 + r.hdr.recLen, c.2 ++ [(c.1, r)])

/-- the property: `apply_pending` returns, has removed the file, and has applied every record all of
whose bytes have reached it, once, in order, and no other -/
def ParkedApplied (acts : List TornAct) : Prop :=
  ∃ d d', exec (tornStep callOne id) ⟨(0, []), ⟨none, []⟩, none⟩ acts = some d ∧
    d.applyPending callOne = some d' ∧ d'.file = none ∧ d'.st.2 = wholeAt 0 acts

/-! ## the condition -/

/-- behind the first torn record there is no whole one, and `iter_records` ends in front of it -/
def TornOk : List TornAct → Prop
  | [] => True
  | a :: acts =>
    if a.torn = [] then TornOk acts
    else (∀ b ∈ acts, b.whole = []) ∧ Halts (a.torn ++ fileBytes acts)

/-! ## `apply_pending` -/

section
variable {σ : Type} {applyOne : σ → Item → σ}

theorem pieceLoop_extends (fuel : Nat) : ∀ (st st' : σ) (tail rest : List UInt8),
    pieceLoop applyOne fuel st tail rest = some st' →
      ∃ more : List Item, st' = more.foldl applyOne st := by
  induction fuel with
  | zero => intro st st' tail rest h; cases h
  | succ fuel ih =>
    intro st st' tail rest h
    by_cases hr : rest.take ReadSz = []
    · unfold pieceLoop at h
      dsimp only at h
      rw [if_pos hr] at h
      exact ⟨[], (Option.some.inj h).symm⟩
    · obtain ⟨l, _, hnext⟩ := pieceLoop_some hr h
      obtain ⟨more, rfl⟩ := ih _ _ _ _ hnext
      exact ⟨l ++ more, (List.foldl_append ..).symm⟩

/-- **Where it does not**, `apply_pending` does not return, or it applies one more behind them. -/
theorem pieceLoop_breaks {bs : List UInt8} (hbs : ¬Halts bs) (fuel : Nat) :
    ∀ (st st' : σ) (tail rest : List UInt8) (rs : List LaidRec), tail ++ rest = laidBytes rs ++ bs →
      tail.length < (laidBytes rs).length + seen bs →
      pieceLoop applyOne fuel st tail rest = some st' →
      ∃ r more, st' = (rs.map LaidRec.item ++ r :: more).foldl applyOne st := by
  have hseen := seen_le hbs
  induction fuel with
  | zero => intro st st' tail rest rs _ _ h; cases h
  | succ fuel ih =>
    intro st st' tail rest rs hb ht h
    by_cases hr : rest.take ReadSz = []
    · have hlen := congrArg List.length hb
      rw [rest_nil.mp hr, List.append_nil, List.length_append] at hlen
      omega
    · obtain ⟨l, hit, hnext⟩ := pieceLoop_some hr h
      have hcut : (tail ++ rest.take ReadSz) ++ rest.drop ReadSz = laidBytes rs ++ bs := by
        rw [List.append_assoc, List.take_append_drop]
        exact hb
      rcases piece_cases hcut with ⟨done, todo, tail', rfl, h2, h3, hlen, _, h5⟩ | ⟨b, h2, h3⟩
      · obtain ⟨rfl, _⟩ := Prod.mk.inj (Option.some.inj (hit.symm.trans h5))
        rw [items_sum, h2, List.drop_left' rfl] at hnext
        have hR := recSize_le_seen bs
        have hR' : RecSize = 56 := rfl
        obtain ⟨r, more, rfl⟩ := ih _ _ tail' _ todo h3 (by omega) hnext
        refine ⟨r, more, ?_⟩
        rw [List.map_append, List.append_assoc]
        exact (List.foldl_append ..).symm
      · obtain ⟨n, _, hn⟩ := iter_laid_call rs b
        rw [← h2, hit] at hn
        obtain ⟨p, hp, hpl⟩ := Option.map_eq_some_iff.mp hn.symm
        obtain ⟨rfl, hraise⟩ := Prod.mk.inj hpl
        by_cases hs : b.length < seen bs
        · rw [iter_halts (rest.drop ReadSz) n (Or.inr (h3 ▸ hs))] at hp
          obtain rfl := Option.some.inj hp
          rw [List.append_nil, items_sum, h2, List.drop_left' rfl] at hnext
          obtain ⟨r, more, rfl⟩ := ih _ _ b _ [] (by rw [h3]; rfl) (by
            show b.length < 0 + seen bs
            omega) hnext
          exact ⟨r, more, (List.foldl_append ..).symm⟩
        · have hp' : iterRecords b (n + 1) 0 = some (p.1, false) := by
            rw [hp, ← hraise]
          obtain ⟨r, l', hl⟩ := iter_goes (rest.drop ReadSz) (h3 ▸ not_lt.mp hs) hp'
          obtain ⟨more, rfl⟩ := pieceLoop_extends _ _ _ _ _ hnext
          refine ⟨r, l' ++ more, ?_⟩
          rw [hl, ← List.foldl_append, List.append_assoc, List.cons_append]

theorem applyPending_eq (d : Intake σ) :
    d.applyPending applyOne = (pieceLoop applyOne ((d.file.getD []).length + 1) d.st []
      (d.file.getD [])).map fun st => { d with st := st, file := none } := by
  unfold Intake.applyPending
  cases hf : d.file with
  | none =>
    show some d = some { d with st := d.st, file := none }
    rw [← hf]
  | some bs => rfl

/-! ## the appends -/

theorem laid_prefix (rs : List LaidRec) (k : Nat) :
    laidBytes (wholeOf rs k) <+: (laidBytes rs).take k := by
  induction rs generalizing k with
  | nil => exact List.nil_prefix
  | cons r rs ih =>
    have hbytes : laidBytes (r :: rs) = r.bytes ++ laidBytes rs := rfl
    unfold wholeOf
    split
    next hk =>
      obtain ⟨t, ht⟩ := ih (k - r.bytes.length)
      refine ⟨t, ?_⟩
      rw [hbytes, List.take_append, List.take_of_length_le hk, ← ht, ← List.append_assoc]
      rfl
    next => exact List.nil_prefix

theorem die_bytes (rs : List LaidRec) (k : Nat) :
    (TornAct.die rs k).bytes = (laidBytes rs).take k := by
  obtain ⟨t, ht⟩ := laid_prefix rs k
  show laidBytes (wholeOf rs k) ++ tornOf rs k = _
  unfold tornOf
  rw [← ht, List.drop_left' rfl]

theorem consume_parked (applyOne : σ → Item → σ) (d : Intake σ) (rs : List LaidRec) :
    d.consume applyOne true (laidBytes rs) = some (d.after applyOne true rs, []) := by
  obtain ⟨done, todo, tail, h1, h2, h3, h4⟩ :=
    consume_batch applyOne true d (List.append_nil (laidBytes rs))
  obtain rfl := h3 rfl
  rw [List.append_nil] at h1 h2
  rw [h4, h1, show tail = [] from h2]

theorem getD_appendFile (file : Option (List UInt8)) (bs : List UInt8) :
    (appendFile file bs).getD [] = file.getD [] ++ bs := by
  unfold appendFile
  split
  next h => rw [h, List.append_nil]
  next => rfl

theorem park_step (applyOne : σ → Item → σ) (boot : σ → σ) (d : Intake σ) (a : TornAct) :
    ∃ d', tornStep applyOne boot d a = some d' ∧ d'.file.getD [] = d.file.getD [] ++ a.bytes ∧
      (d'.st = d.st ∨ d'.st = boot d.st) := by
  cases a with
  | park rs =>
    refine ⟨d.after applyOne true rs, ?_, ?_, Or.inl rfl⟩
    · unfold tornStep
      dsimp only
      rw [consume_parked]
      rfl
    · show (appendFile d.file (laidBytes rs)).getD [] = d.file.getD [] ++ (laidBytes rs ++ [])
      rw [getD_appendFile, List.append_nil]
  | die rs k =>
    refine ⟨⟨boot d.st, ⟨none, []⟩, (appendFile d.file (laidBytes rs)).map fun bs =>
      bs.take ((d.file.getD []).length + k)⟩, ?_, ?_, Or.inr rfl⟩
    · unfold tornStep
      dsimp only
      rw [consume_parked]
      rfl
    · have hget : ∀ (f : Option (List UInt8)) n,
          (f.map fun bs => bs.take n).getD [] = (f.getD []).take n := by
        intro f n
        cases f with
        | none => exact List.take_nil.symm
        | some bs => rfl
      dsimp only
      rw [hget, getD_appendFile, die_bytes, List.take_length_add_append]

/-- **The file after the appends**, whatever was in it before. -/
theorem park_run (applyOne : σ → Item → σ) (boot : σ → σ) (acts : List TornAct) : ∀ d : Intake σ,
    ∃ d', exec (tornStep applyOne boot) d acts = some d' ∧
      d'.file.getD [] = d.file.getD [] ++ fileBytes acts ∧
      ((∀ st, boot st = st) → d'.st = d.st) := by
  induction acts with
  | nil =>
    intro d
    exact ⟨d, rfl, (List.append_nil _).symm, fun _ => rfl⟩
  | cons a acts ih =>
    intro d
    obtain ⟨t, ht, hfile, hst⟩ := park_step applyOne boot d a
    obtain ⟨u, hu, hfile', hst'⟩ := ih t
    refine ⟨u, exec_cons_some.mpr ⟨t, ht, hu⟩, ?_, ?_⟩
    · rw [hfile', hfile, List.append_assoc]
      rfl
    · intro hboot
      rw [hst' hboot]
      rcases hst with h | h
      · exact h
      · rw [h, hboot]

theorem pieceLoop_map {τ : Type} (applyOne : σ → Item → σ) (other : τ → Item → τ) (f : τ → σ)
    (hf : ∀ c r, f (other c r) = applyOne (f c) r) (fuel : Nat) :
    ∀ (c : τ) (tail rest : List UInt8),
      pieceLoop applyOne fuel (f c) tail rest = (pieceLoop other fuel c tail rest).map f := by
  have hfold : ∀ (l : List Item) c, l.foldl applyOne (f c) = f (l.foldl other c) := by
    intro l
    induction l with
    | nil => intro c; rfl
    | cons r l ih =>
      intro c
      rw [List.foldl_cons, List.foldl_cons, ← hf, ih]
  induction fuel with
  | zero => intro c tail rest; rfl
  | succ fuel ih =>
    intro c tail rest
    rw [pieceLoop.eq_2, pieceLoop.eq_2]
    dsimp only
    by_cases hr : rest.take ReadSz = []
    · rw [if_pos hr, if_pos hr]
      rfl
    · rw [if_neg hr, if_neg hr]
      split
      · rw [foldl_offset, foldl_offset, hfold, ih]
      · rfl

/-- **Any `apply_one` gets the calls.** -/
theorem applyPending_calls (d : Intake σ) :
    d.applyPending applyOne = ((⟨(0, []), d.gaps, d.file⟩ : Intake Calls).applyPending callOne).map
      fun c => ⟨(c.st.2.map Prod.snd).foldl applyOne d.st, c.gaps, c.file⟩ := by
  rw [applyPending_eq, applyPending_eq, Option.map_map]
  have hmap := pieceLoop_map applyOne callOne
    (fun c => (c.2.map Prod.snd).foldl applyOne d.st)
    (fun c r => by simp [callOne]) ((d.file.getD []).length + 1) (0, []) [] (d.file.getD [])
  have hstart : pieceLoop applyOne ((d.file.getD []).length + 1) d.st [] (d.file.getD [])
      = (pieceLoop callOne ((d.file.getD []).length + 1) (0, []) [] (d.file.getD [])).map
        fun c => (c.2.map Prod.snd).foldl applyOne d.st := hmap
  rw [hstart, Option.map_map]
  rfl

end

/-! ## places -/

theorem foldl_callOne (rs : List LaidRec) (c : Calls) :
    (rs.map LaidRec.item).foldl callOne c
      = (c.1 + (laidBytes rs).length, c.2 ++ placed c.1 rs) := by
  induction rs generalizing c with
  | nil => exact Prod.ext rfl (List.append_nil _).symm
  | cons r rs ih =>
    have hlen : (laidBytes (r :: rs)).length = r.hdr.recLen + (laidBytes rs).length := by
      show (r.bytes ++ laidBytes rs).length = _
      rw [List.length_append, r.length_bytes]
    rw [List.map_cons, List.foldl_cons, ih, hlen, ← Nat.add_assoc]
    show (_, c.2 ++ [(c.1, r.item)] ++ placed (c.1 + r.hdr.recLen) rs) = _
    rw [List.append_assoc]
    rfl

theorem callOne_extends (l : List Item) (c : Calls) :
    ∃ more, (l.foldl callOne c).2 = c.2 ++ more := by
  induction l generalizing c with
  | nil => exact ⟨[], (List.append_nil _).symm⟩
  | cons r l ih =>
    obtain ⟨more, hmore⟩ := ih (callOne c r)
    refine ⟨(c.1, r) :: more, ?_⟩
    rw [List.foldl_cons, hmore]
    exact List.append_assoc _ _ _

theorem placed_append (a b : List LaidRec) (o : Nat) :
    placed o (a ++ b) = placed o a ++ placed (o + (laidBytes a).length) b := by
  have h := foldl_callOne (a ++ b) (o, [])
  rw [List.map_append, List.foldl_append, foldl_callOne a, foldl_callOne b] at h
  exact (congrArg Prod.snd h).symm

theorem le_of_mem_placed {rs : List LaidRec} {o : Nat} {e : Nat × Item} (h : e ∈ placed o rs) :
    o ≤ e.1 := by
  induction rs generalizing o with
  | nil => cases h
  | cons r rs ih =>
    rcases List.mem_cons.mp h with rfl | h
    · exact Nat.le_refl _
    · exact (Nat.le_add_right _ _).trans (ih h)

theorem le_of_mem_wholeAt {acts : List TornAct} {o : Nat} {e : Nat × Item}
    (h : e ∈ wholeAt o acts) : o ≤ e.1 := by
  induction acts generalizing o with
  | nil => cases h
  | cons a acts ih =>
    rcases List.mem_append.mp h with h | h
    · exact le_of_mem_placed h
    · exact (Nat.le_add_right _ _).trans (ih h)

theorem wholeAt_nil {acts : List TornAct} {o : Nat} :
    wholeAt o acts = [] ↔ ∀ a ∈ acts, a.whole = [] := by
  induction acts generalizing o with
  | nil => simp [wholeAt]
  | cons a acts ih =>
    have hplaced : placed o a.whole = [] ↔ a.whole = [] := by
      cases a.whole with
      | nil => simp [placed]
      | cons r rs => simp [placed]
    rw [wholeAt, List.append_eq_nil_iff, ih, hplaced, List.forall_mem_cons]

/-! ## the result -/

/-- the calls of the loop over a file -/
def LoopCalls (bs : List UInt8) (want : List (Nat × Item)) : Prop :=
  ∃ c, pieceLoop callOne (bs.length + 1) (0, []) [] bs = some c ∧ c.2 = want

theorem parkedApplied_iff (acts : List TornAct) :
    ParkedApplied acts ↔ LoopCalls (fileBytes acts) (wholeAt 0 acts) := by
  obtain ⟨d, hd, hfile, hst⟩ := park_run callOne id acts
    ⟨(0, []), ⟨none, []⟩, none⟩
  have hloop : d.applyPending callOne = (pieceLoop callOne ((fileBytes acts).length + 1) (0, []) []
      (fileBytes acts)).map fun st => { d with st := st, file := none } := by
    rw [applyPending_eq, hst fun _ => rfl, hfile]
    rfl
  constructor
  · rintro ⟨e, d', he, hd', _, hcalls⟩
    obtain rfl := Option.some.inj (hd.symm.trans he)
    rw [hloop] at hd'
    obtain ⟨c, hc, rfl⟩ := Option.map_eq_some_iff.mp hd'
    exact ⟨c, hc, hcalls⟩
  · rintro ⟨c, hc, hcalls⟩
    refine ⟨d, { d with st := c, file := none }, hd, ?_, rfl, hcalls⟩
    rw [hloop, hc]
    rfl

/-- whole records, and bytes in front of which the generator ends -/
theorem loop_halts {bs : List UInt8} (hbs : Halts bs) (rs : List LaidRec) :
    pieceLoop callOne ((laidBytes rs ++ bs).length + 1) (0, []) [] (laidBytes rs ++ bs)
      = some (0 + (laidBytes rs).length, [] ++ placed 0 rs) := by
  rw [← foldl_callOne rs (0, [])]
  apply pieceLoop_halts hbs _ (0, []) [] _ rs rfl (Nat.lt_succ_self _)
  intro h
  exact laidBytes_nil (List.append_eq_nil_iff.mp h).1

theorem loopCalls_torn {rs : List LaidRec} {a : TornAct} {acts : List TornAct}
    (ha : a.torn ≠ []) :
    LoopCalls (laidBytes rs ++ (a.torn ++ fileBytes acts))
        (placed 0 rs ++ wholeAt ((laidBytes rs).length + a.torn.length) acts) ↔
      (∀ b ∈ acts, b.whole = []) ∧ Halts (a.torn ++ fileBytes acts) := by
  have hpos : 0 < a.torn.length := List.length_pos_iff.mpr ha
  constructor
  · rintro ⟨c, hc, hcalls⟩
    by_cases hhalt : Halts (a.torn ++ fileBytes acts)
    · rw [loop_halts hhalt] at hc
      obtain rfl := Option.some.inj hc
      exact ⟨wholeAt_nil.mp (List.self_eq_append_right.mp hcalls), hhalt⟩
    · exfalso
      obtain ⟨r, more, rfl⟩ := pieceLoop_breaks hhalt _ (0, []) c [] _ rs rfl
        (by have := recSize_le_seen (a.torn ++ fileBytes acts)
            have hR : RecSize = 56 := rfl
            rw [List.length_nil]
            omega) hc
      rw [List.foldl_append, foldl_callOne, List.foldl_cons] at hcalls
      obtain ⟨l, hl⟩ := callOne_extends more
        (callOne (0 + (laidBytes rs).length, [] ++ placed 0 rs) r)
      rw [hl] at hcalls
      have hmem : ((laidBytes rs).length, r)
          ∈ wholeAt ((laidBytes rs).length + a.torn.length) acts := by
        have hcalls' : placed 0 rs ++ (((laidBytes rs).length, r) :: l) = placed 0 rs ++
            wholeAt ((laidBytes rs).length + a.torn.length) acts := by
          rw [← hcalls]
          simp [callOne]
        rw [← List.append_cancel_left hcalls']
        exact List.mem_cons_self
      have hle := le_of_mem_wholeAt hmem
      dsimp only at hle
      omega
  · rintro ⟨hwhole, hhalt⟩
    refine ⟨_, loop_halts hhalt rs, ?_⟩
    rw [wholeAt_nil.mpr hwhole, List.append_nil]
    rfl

theorem loopCalls_iff (acts : List TornAct) : ∀ rs : List LaidRec,
    LoopCalls (laidBytes rs ++ fileBytes acts)
      (placed 0 rs ++ wholeAt (laidBytes rs).length acts) ↔ TornOk acts := by
  induction acts with
  | nil =>
    intro rs
    have hnil : Halts [] := Or.inl (by decide)
    refine iff_of_true ⟨_, loop_halts hnil rs, ?_⟩ trivial
    exact (List.append_nil _).symm
  | cons a acts ih =>
    intro rs
    have hfile : laidBytes rs ++ fileBytes (a :: acts)
        = laidBytes (rs ++ a.whole) ++ (a.torn ++ fileBytes acts) := by
      rw [laidBytes_append]
      simp [fileBytes, TornAct.bytes]
    have hwant : placed 0 rs ++ wholeAt (laidBytes rs).length (a :: acts)
        = placed 0 (rs ++ a.whole)
          ++ wholeAt ((laidBytes (rs ++ a.whole)).length + a.torn.length) acts := by
      rw [placed_append, laidBytes_append, wholeAt, Nat.zero_add, List.append_assoc]
      simp [TornAct.bytes, Nat.add_assoc]
    rw [hfile, hwant]
    unfold TornOk
    split
    next ht =>
      rw [ht, List.nil_append, List.length_nil, Nat.add_zero]
      exact ih _
    next ht => exact loopCalls_torn ht

/-- **A torn file.** For every sequence of appends and crashes: `apply_pending` returns and has
applied the records that lie whole in the file, exactly if no record is torn, or nothing whole
follows the first torn one and the generator ends in front of it. -/
theorem parked_applied (acts : List TornAct) : ParkedApplied acts ↔ TornOk acts := by
  rw [parkedApplied_iff]
  have h := loopCalls_iff acts []
  rw [show laidBytes [] = [] from rfl] at h
  simpa [placed] using h

/-- a record that is cut behind the first byte of its payload, and a whole one after the restart:
the parser takes the payload from that one, and then raises -/
theorem torn_raises : ¬ ParkedApplied [.die [oddWrite] 57, .park [oddWrite]] := by
  rintro ⟨d, d', hd, hp, _⟩
  have h : ((exec (tornStep callOne id) ⟨(0, []), ⟨none, []⟩, none⟩
      [.die [oddWrite] 57, .park [oddWrite]]).bind fun d => d.applyPending callOne).isNone
        = true := by
    decide +kernel
  rw [hd, Option.bind_some, hp] at h
  cases h

end CDP
