import DmCdp.Tools.Apply

/-!
# `cdp-apply -f` and `-s`

The loop of `tools/cdp-apply.c` on a whole stream without gaps and errors, with any pair of limits.

* `selected f z rs`   the records that get past the tests of `-f` and `-s`;
* `apply_selected`    the run exits 0 and applies these;
* `apply_resume`      stopped anywhere and resumed at or before that point, the target ends as after one
                      run;
* `applyTrace`        the records that the run writes to the target, by the counter of the source;
* `apply_range`       they are those of the range, exactly where the first one is and `long long` holds
                      the numbers;
* `apply_range_missed`   a snapshot before the first record, and a stream that begins after it.
-/

set_option linter.unusedVariables false

namespace CDP
open Img

/-! ## the tests of `-f` and `-s` -/

/-- `seq < from_seq` skips a record; the loop stops behind a record with `seq ≥ stop_seq` -/
def selected (f z : Int) : List SRec → List SRec
  | [] => []
  | r :: rs =>
    if toI64 r.hdr.seq < f then selected f z rs
    else r :: if 0 ≤ z ∧ toI64 r.hdr.seq ≥ z then [] else selected f z rs

/-- whole records, consecutive numbers from `j` on, no gap and no error -/
structure CleanStream (j : Nat) (rs : List SRec) : Prop where
  plain : ∀ r ∈ rs, r.Plain
  gap : ∀ r ∈ rs, hasFlag r.hdr.flags FGapBefore = false
  seq : SeqFrom j rs

theorem CleanStream.tail {j : Nat} {r : SRec} {rs : List SRec} (h : CleanStream j (r :: rs)) :
    CleanStream (j + 1) rs :=
  ⟨fun x hx => h.plain x (List.mem_cons_of_mem r hx),
    fun x hx => h.gap x (List.mem_cons_of_mem r hx), h.seq.tail⟩

theorem toI64_of_ge {n : Nat} (h : 2^63 ≤ n) : toI64 n = (n : Int) - 2^64 :=
  if_neg (Nat.not_lt.mpr h)

/-- the records that the run counts in `applied`, oldest first -/
def applyTrace (env : ApplyEnv) (f z : Int) (s : List UInt8) : Nat → ApplySt → List Rec
  | 0, _ => []
  | fuel + 1, q =>
    match applyStep env f z s q with
    | .exit _ q' => if q.applied < q'.applied then [Rec.parse (s.drop q.pos)] else []
    | .next q' =>
      (if q.applied < q'.applied then [Rec.parse (s.drop q.pos)] else []) ++
        applyTrace env f z s fuel q'

section
variable {env : ApplyEnv} {f z : Int} {s : List UInt8}

/-- where the loop stands before record `j`: the number it expects is `j`, unless what is left is
skipped because `long long` makes it negative -/
structure ApplySt.Before (f : Int) (s rest : List UInt8) (j : Nat) (q : ApplySt) : Prop where
  io : NoError q.io
  here : s.drop q.pos = rest
  expect : q.haveSeq = true → 2^63 ≤ j ∨ q.expect = j ∧ f ≤ j

/-- **The loop on a clean stream** exits 0, and applies what the two tests select. -/
theorem applyLoop_selected (henv : env.Ample) (rs : List SRec) : ∀ {j : Nat} {q : ApplySt},
    CleanStream j rs → (0 ≤ f ∨ j + rs.length ≤ 2^63) → q.Before f s (streamBytes rs) j →
    ∃ q', (∀ fuel, rs.length < fuel → applyLoop env f z s fuel q = some (0, q') ∧
        applyTrace env f z s fuel q =
          ((selected f z rs).filter fun r => r.hdr.Writes).map SRec.hdr) ∧
      q'.img = replay ((selected f z rs).map SRec.patch) q.img := by
  induction rs with
  | nil =>
    intro j q _ _ hq
    have hlen := List.drop_eq_nil_iff.mp hq.here
    have hR : RecSize = 56 := rfl
    have hstep : applyStep env f z s q = .exit 0 q := by
      unfold applyStep
      exact if_pos (by omega)
    refine ⟨q, fun fuel hf => ?_, rfl⟩
    obtain ⟨fuel, rfl⟩ : ∃ m, fuel = m + 1 := ⟨fuel - 1, by omega⟩
    unfold applyLoop applyTrace
    rw [hstep]
    exact ⟨rfl, if_neg (Nat.lt_irrefl _)⟩
  | cons r rs ih =>
    intro j q hcl hj hq
    rw [List.length_cons] at hj
    have hr := hcl.plain r List.mem_cons_self
    have hrj : r.hdr.seq = j := hcl.seq 0 r rfl
    have h64 := hr.fits.seq
    rw [hrj] at h64
    have hfront := hr.front hq.here
    have hdrop : s.drop (q.pos + r.bytes.length) = streamBytes rs := by
      rw [← List.drop_drop, hq.here]
      exact List.drop_left' rfl
    unfold selected
    by_cases hskip : toI64 r.hdr.seq < f
    · -- before the resume point, or past the range of `long long`
      have hstep : applyStep env f z s q = _ := applyStep_skip hr hq.here hskip
      rw [if_pos hskip]
      obtain ⟨q', h1, h2⟩ := ih (q:={ q with pos := q.pos + r.bytes.length }) hcl.tail
        (by omega) ⟨hq.io, hdrop, fun e => by
          rcases hq.expect e with h | ⟨_, h⟩
          · exact Or.inl (by omega)
          · by_cases hbig : 2^63 ≤ j
            · exact Or.inl (by omega)
            · rw [hrj, toI64_of_lt (by omega)] at hskip
              omega⟩
      refine ⟨q', fun fuel hf => ?_, h2⟩
      obtain ⟨fuel, rfl⟩ : ∃ m, fuel = m + 1 := ⟨fuel - 1, by omega⟩
      unfold applyLoop applyTrace
      rw [hstep]
      dsimp only
      rw [if_neg (Nat.lt_irrefl _)]
      exact h1 fuel (by rw [List.length_cons] at hf; omega)
    · rw [if_neg hskip]
      have hlt : j < 2^63 := by
        by_contra hge
        rw [hrj, toI64_of_ge (by omega)] at hskip
        omega
      have hi64 : toI64 r.hdr.seq = (j : Int) := by rw [hrj, toI64_of_lt hlt]
      obtain ⟨q1, h1, h2, h3, h4, h5, h6, h7⟩ := applyStep_plain (f:=f) (z:=z) henv hr hq.io hq.here
        (by omega) (fun e => by
          rcases hq.expect e with h | ⟨h, _⟩
          · omega
          · rw [hrj, h])
        (fun e => by rw [hcl.gap r List.mem_cons_self] at e; cases e)
      have hcount : (if q.applied < q1.applied then [Rec.parse (s.drop q.pos)] else [])
          = ([r].filter fun r => r.hdr.Writes).map SRec.hdr := by
        rw [hfront.2.1, h7]
        by_cases hw : r.hdr.Writes
        · rw [if_pos hw, if_pos (Nat.lt_succ_self _), List.filter_cons_of_pos (by simpa using hw)]
          rfl
        · rw [if_neg hw, Nat.add_zero, if_neg (Nat.lt_irrefl _),
            List.filter_cons_of_neg (by simpa using hw)]
          rfl
      by_cases hstop : 0 ≤ z ∧ toI64 r.hdr.seq ≥ z
      · rw [if_pos hstop] at h1
        rw [if_pos hstop]
        refine ⟨q1, fun fuel hf => ?_, h2⟩
        obtain ⟨fuel, rfl⟩ : ∃ m, fuel = m + 1 := ⟨fuel - 1, by omega⟩
        unfold applyLoop applyTrace
        rw [h1]
        exact ⟨rfl, hcount⟩
      · rw [if_neg hstop] at h1
        rw [if_neg hstop]
        obtain ⟨q', g1, g2⟩ := ih (q:=q1) hcl.tail (by omega) ⟨h6, by rw [h3, hdrop], fun _ => by
          refine Or.inr ⟨?_, by omega⟩
          rw [h5, hrj, u64_of_lt (by omega)]⟩
        refine ⟨q', fun fuel hf => ?_, ?_⟩
        · obtain ⟨fuel, rfl⟩ : ∃ m, fuel = m + 1 := ⟨fuel - 1, by omega⟩
          obtain ⟨g3, g4⟩ := g1 fuel (by rw [List.length_cons] at hf; omega)
          unfold applyLoop applyTrace
          rw [h1]
          refine ⟨g3, ?_⟩
          dsimp only
          rw [hcount, g4, ← List.map_append, ← List.filter_append]
          rfl
        · rw [g2, h2]
          rfl

theorem apply_selected {j : Nat} {rs : List SRec} (henv : env.Ample) (hcl : CleanStream j rs)
    (hf : 0 ≤ f ∨ j + rs.length ≤ 2^63) (img : Nat → UInt8) {io : List Pwrite} (hio : NoError io) :
    ∃ q', (∀ fuel, rs.length < fuel →
        applyLoop env f z (streamBytes rs) fuel (applyInit img io) = some (0, q') ∧
        applyTrace env f z (streamBytes rs) fuel (applyInit img io) =
          ((selected f z rs).filter fun r => r.hdr.Writes).map SRec.hdr) ∧
      q'.img = replay ((selected f z rs).map SRec.patch) img :=
  applyLoop_selected henv rs hcl hf ⟨hio, rfl, fun e => by cases e⟩

end

/-! ## stop and resume -/

/-- two sectors of zeros -/
def zeroStream : List SRec :=
  [⟨⟨RecMagic, AbiVersion, RecZero, 0, StCommitted, 5, 0, 512, 56, 0, 0⟩, []⟩,
    ⟨⟨RecMagic, AbiVersion, RecZero, 0, StCommitted, 6, 1, 512, 56, 0, 0⟩, []⟩]

theorem zeroStream_clean : CleanStream 5 zeroStream := by
  refine ⟨fun r hr => ?_, fun r hr => ?_, fun i r hr => ?_⟩
  · rcases List.mem_pair.mp hr with rfl | rfl
    · exact ⟨by constructor <;> decide, rfl, rfl, rfl, fun h => absurd h (by decide),
        fun _ => by decide, fun _ => by decide⟩
    · exact ⟨by constructor <;> decide, rfl, rfl, rfl, fun h => absurd h (by decide),
        fun _ => by decide, fun _ => by decide⟩
  · rcases List.mem_pair.mp hr with rfl | rfl <;> rfl
  · match i, hr with
    | 0, hr => obtain rfl := Option.some.inj hr; rfl
    | 1, hr => obtain rfl := Option.some.inj hr; rfl

section
variable {j : Nat} {rs : List SRec}

/-- `-s k` alone: up to record `k`, but at least one record -/
theorem selected_stop (k : Nat) (hseq : SeqFrom j rs) (hlt : j + rs.length ≤ 2^63) :
    selected (-1) k rs = rs.take (max 1 (k + 1 - j)) := by
  induction rs generalizing j with
  | nil => rw [List.take_nil]; rfl
  | cons r rs ih =>
    rw [List.length_cons] at hlt
    have hi64 : toI64 r.hdr.seq = (j : Int) := by
      rw [hseq 0 r rfl, Nat.add_zero, toI64_of_lt (by omega)]
    unfold selected
    rw [hi64, if_neg (by omega)]
    by_cases hk : k ≤ j
    · have e : max 1 (k + 1 - j) = 0 + 1 := by omega
      rw [if_pos (by omega), e, List.take_succ_cons, List.take_zero]
    · have e : max 1 (k + 1 - j) = max 1 (k + 1 - (j + 1)) + 1 := by omega
      rw [if_neg (by omega), ih hseq.tail (by omega), e, List.take_succ_cons]

theorem selected_from (i : Nat) (hseq : SeqFrom j rs) (hlt : j + rs.length ≤ 2^63) :
    selected i (-1) rs = rs.drop (i - j) := by
  induction rs generalizing j with
  | nil => rw [List.drop_nil]; rfl
  | cons r rs ih =>
    rw [List.length_cons] at hlt
    have hi64 : toI64 r.hdr.seq = (j : Int) := by
      rw [hseq 0 r rfl, Nat.add_zero, toI64_of_lt (by omega)]
    unfold selected
    rw [hi64]
    by_cases hi : j < i
    · have e : i - j = (i - (j + 1)) + 1 := by omega
      rw [if_pos (by omega), ih hseq.tail (by omega), e, List.drop_succ_cons]
    · have e : i - j = 0 := by omega
      have e' : i - (j + 1) = 0 := by omega
      rw [if_neg (by omega), if_neg (by omega), ih hseq.tail (by omega), e, e', List.drop_zero,
        List.drop_zero]

theorem selected_all (hseq : SeqFrom j rs) (hlt : j + rs.length ≤ 2^63) :
    selected (-1) (-1) rs = rs := by
  induction rs generalizing j with
  | nil => rfl
  | cons r rs ih =>
    rw [List.length_cons] at hlt
    have hi64 : toI64 r.hdr.seq = (j : Int) := by
      rw [hseq 0 r rfl, Nat.add_zero, toI64_of_lt (by omega)]
    unfold selected
    rw [hi64, if_neg (by omega), if_neg (by omega), ih hseq.tail (by omega)]

/-- **Replay can be stopped and resumed anywhere.**  A run with `-s k` and then one with `-f i`, for any
`i ≤ k + 1`, exit 0 and leave what one run without options leaves, the replay of all records; and
`-f i`, for any `i`, changes nothing on a target that has everything. -/
theorem apply_resume (rs : List SRec) (j : Nat) (env env' env'' : ApplyEnv)
    (io io' io'' : List Pwrite) (hcl : CleanStream j rs) (hlt : j + rs.length ≤ 2^63)
    (henv : env.Ample) (henv' : env'.Ample) (henv'' : env''.Ample) (hio : NoError io)
    (hio' : NoError io') (hio'' : NoError io'') (img : Nat → UInt8) :
    ∃ q, applyLoop env (-1) (-1) (streamBytes rs) (rs.length + 1) (applyInit img io) = some (0, q) ∧
      q.img = replay (rs.map SRec.patch) img ∧ (∀ k i : Nat, i ≤ k + 1 → ∃ q' q'',
        applyLoop env' (-1) k (streamBytes rs) (rs.length + 1) (applyInit img io')
          = some (0, q') ∧
        applyLoop env'' i (-1) (streamBytes rs) (rs.length + 1) (applyInit q'.img io'')
          = some (0, q'') ∧ q''.img = q.img) ∧
      ∀ i : Nat, ∃ q'', applyLoop env'' i (-1) (streamBytes rs) (rs.length + 1)
        (applyInit q.img io'') = some (0, q'') ∧ q''.img = q.img := by
  obtain ⟨q, h1, h2⟩ := apply_selected (f:=-1) (z:=-1) henv hcl (Or.inr hlt) img hio
  rw [selected_all hcl.seq hlt] at h2
  refine ⟨q, (h1 _ (Nat.lt_succ_self _)).1, h2, fun k i hik => ?_, fun i => ?_⟩
  · obtain ⟨q', g1, g2⟩ := apply_selected (f:=-1) (z:=k) henv' hcl (Or.inr hlt) img hio'
    obtain ⟨q'', e1, e2⟩ := apply_selected (f:=i) (z:=-1) henv'' hcl (Or.inr hlt) q'.img hio''
    refine ⟨q', q'', (g1 _ (Nat.lt_succ_self _)).1, (e1 _ (Nat.lt_succ_self _)).1, ?_⟩
    rw [e2, g2, h2, selected_stop k hcl.seq hlt, selected_from i hcl.seq hlt, List.map_drop,
      List.map_take]
    exact replay_overlap _ img (by omega)
  · obtain ⟨q'', e1, e2⟩ := apply_selected (f:=i) (z:=-1) henv'' hcl (Or.inr hlt) q.img hio''
    refine ⟨q'', (e1 _ (Nat.lt_succ_self _)).1, ?_⟩
    rw [e2, h2, selected_from i hcl.seq hlt, List.map_drop]
    exact replay_suffix _ img _

/-- two sectors are written; the second of them is zeroed and written again -/
def overlapStream : List SRec :=
  [⟨⟨RecMagic, AbiVersion, RecWrite, 0, StCommitted, 5, 0, 1024, 1080, 0, 0⟩, List.replicate 1024 7⟩,
    ⟨⟨RecMagic, AbiVersion, RecZero, 0, StCommitted, 6, 1, 512, 56, 0, 0⟩, []⟩,
    ⟨⟨RecMagic, AbiVersion, RecWrite, 0, StCommitted, 7, 1, 512, 568, 0, 0⟩, List.replicate 512 9⟩]

theorem overlapStream_clean : CleanStream 5 overlapStream := by
  refine ⟨fun r hr => ?_, fun r hr => ?_, fun i r hr => ?_⟩
  · simp only [overlapStream, List.mem_cons, List.not_mem_nil, or_false] at hr
    rcases hr with rfl | rfl | rfl
    · exact ⟨by constructor <;> decide, rfl, by rw [List.length_replicate]; rfl, rfl,
        fun _ => by rw [List.length_replicate], fun h => absurd h (by decide), fun _ => by decide⟩
    · exact ⟨by constructor <;> decide, rfl, rfl, rfl, fun h => absurd h (by decide),
        fun _ => by decide, fun _ => by decide⟩
    · exact ⟨by constructor <;> decide, rfl, by rw [List.length_replicate]; rfl, rfl,
        fun _ => by rw [List.length_replicate], fun h => absurd h (by decide), fun _ => by decide⟩
  · simp only [overlapStream, List.mem_cons, List.not_mem_nil, or_false] at hr
    rcases hr with rfl | rfl | rfl <;> rfl
  · match i, hr with
    | 0, hr => obtain rfl := Option.some.inj hr; rfl
    | 1, hr => obtain rfl := Option.some.inj hr; rfl
    | 2, hr => obtain rfl := Option.some.inj hr; rfl

theorem span_replicate (off n : Nat) (v d : UInt8) :
    (span off n fun i => (List.replicate n v).getD i d) = span off n fun _ => v := by
  refine span_congr fun i hi => ?_
  rw [List.getD_eq_getElem?_getD, List.getElem?_replicate_of_lt hi, Option.getD_some]

theorem overlapStream_replay (x : Nat) : replay (overlapStream.map SRec.patch) (fun _ => 1) x
    = if x < 512 then 7 else if x < 1024 then 9 else 1 := by
  have h : overlapStream.map SRec.patch
      = [span 0 1024 fun _ => 7, span 512 512 fun _ => 0, span 512 512 fun _ => 9] := by
    rw [← span_replicate 0 1024 7 0, ← span_replicate 512 512 9 0]
    rfl
  rw [h]
  show (span 512 512 (fun _ => 9) x).getD ((span 512 512 (fun _ => 0) x).getD
    ((span 0 1024 (fun _ => 7) x).getD 1)) = _
  unfold span
  split_ifs <;> first | rfl | omega

theorem apply_resume_overlap : ∃ q, applyLoop ⟨fun _ => true, fun _ => true, fun _ => 0⟩ (-1) (-1)
      (streamBytes overlapStream) (3 + 1) (applyInit (fun _ => 1) []) = some (0, q) ∧
    (∀ x, q.img x = if x < 512 then 7 else if x < 1024 then 9 else 1) ∧
    (∀ k i : Nat, i ≤ k + 1 → ∃ q' q'',
      applyLoop ⟨fun _ => true, fun _ => true, fun _ => 0⟩ (-1) k (streamBytes overlapStream) (3 + 1)
        (applyInit (fun _ => 1) [.wrote 100, .eintr]) = some (0, q') ∧
      applyLoop ⟨fun _ => true, fun _ => true, fun _ => 0⟩ i (-1) (streamBytes overlapStream) (3 + 1)
        (applyInit q'.img []) = some (0, q'') ∧ q''.img = q.img) ∧
    ∀ i : Nat, ∃ q'', applyLoop ⟨fun _ => true, fun _ => true, fun _ => 0⟩ i (-1)
      (streamBytes overlapStream) (3 + 1) (applyInit q.img []) = some (0, q'') ∧ q''.img = q.img := by
  obtain ⟨q, hq, himg, hresume, hsuffix⟩ := apply_resume overlapStream 5
    ⟨fun _ => true, fun _ => true, fun _ => 0⟩ ⟨fun _ => true, fun _ => true, fun _ => 0⟩
    ⟨fun _ => true, fun _ => true, fun _ => 0⟩ [] [.wrote 100, .eintr] [] overlapStream_clean
    (by decide) ⟨fun _ => rfl, fun _ => rfl⟩ ⟨fun _ => rfl, fun _ => rfl⟩
    ⟨fun _ => rfl, fun _ => rfl⟩ (by decide) (by decide) (by decide) fun _ => 1
  refine ⟨q, hq, fun x => ?_, hresume, hsuffix⟩
  rw [himg]
  exact overlapStream_replay x

end

/-! ## the range -/

/-- `atoll` on the digits of a number -/
def atoll (n : Int) : Int := max (-2^63) (min n (2^63 - 1))

/-- the records with `F ≤ seq ≤ S` that go to the target -/
def recordsIn (F : Nat) (S : Int) (rs : List SRec) : List Rec :=
  (rs.filter fun r => r.hdr.Writes ∧ F ≤ r.hdr.seq ∧ (r.hdr.seq : Int) ≤ S).map SRec.hdr

/-- with `-s -1` nothing that would be written comes after the skipped records, and else the first
record after them is in the range or only flushes -/
def FirstInRange (F : Nat) (S : Int) (rs : List SRec) : Prop :=
  if S < 0 then ∀ r ∈ rs, atoll F ≤ toI64 r.hdr.seq → ¬r.hdr.Writes
  else ∀ r, rs.find? (fun r => atoll F ≤ toI64 r.hdr.seq) = some r → r.hdr.Writes →
    toI64 r.hdr.seq ≤ S

/-- `F`, `S` and the numbers as `long long`: no number from `2^63` on is in the range, and where both
`atoll`s stop at `2^63 - 1` it is not that of a record -/
structure LongLongOk (F : Nat) (S : Int) (rs : List SRec) : Prop where
  seq : ∀ r ∈ rs, r.hdr.Writes → F ≤ r.hdr.seq → (r.hdr.seq : Int) ≤ S → r.hdr.seq < 2^63
  limits : 2^63 - 1 ≤ S → 2^63 ≤ F → ∀ r ∈ rs, r.hdr.Writes → r.hdr.seq ≠ 2^63 - 1

section
variable {f z : Int} {j : Nat} {rs : List SRec}

theorem CleanStream.seq_lt (hcl : CleanStream j rs) {r : SRec} (hr : r ∈ rs) :
    r.hdr.seq < 2^64 := (hcl.plain r hr).fits.seq

theorem filter_above (hcl : CleanStream j rs) (hf : 0 ≤ f) (hz : z < j) :
    (rs.filter fun r => f ≤ toI64 r.hdr.seq ∧ toI64 r.hdr.seq ≤ z) = [] := by
  refine List.filter_eq_nil_iff.mpr fun r hr h => ?_
  obtain ⟨h1, h2⟩ := of_decide_eq_true h
  obtain ⟨i, hi⟩ := List.mem_iff_getElem?.mp hr
  have hs := hcl.seq i r hi
  have h64 := hcl.seq_lt hr
  unfold toI64 at h1 h2
  split at h1 <;> omega

theorem selected_window (hcl : CleanStream j rs) (hfj : f ≤ j) (hf : 0 ≤ f) (hjz : (j : Int) ≤ z)
    (hz : z < 2^63) :
    selected f z rs = rs.filter fun r => f ≤ toI64 r.hdr.seq ∧ toI64 r.hdr.seq ≤ z := by
  induction rs generalizing j with
  | nil => rfl
  | cons r rs ih =>
    have hi64 : toI64 r.hdr.seq = (j : Int) := by
      rw [hcl.seq 0 r rfl, Nat.add_zero, toI64_of_lt (by omega)]
    unfold selected
    rw [List.filter_cons_of_pos (by rw [hi64]; simpa using ⟨hfj, hjz⟩), hi64, if_neg (by omega)]
    by_cases hlast : z ≤ j
    · rw [if_pos (by omega), filter_above hcl.tail hf (by omega)]
    · rw [if_neg (by omega), ih hcl.tail (by omega) (by omega)]

/-- **The first record after the skipped ones is in the range**: so are all that are applied. -/
theorem selected_inside (hcl : CleanStream j rs) (hf : 0 ≤ f) (hz : z < 2^63)
    (hfirst : ∀ r, rs.find? (fun r => f ≤ toI64 r.hdr.seq) = some r → toI64 r.hdr.seq ≤ z) :
    selected f z rs = rs.filter fun r => f ≤ toI64 r.hdr.seq ∧ toI64 r.hdr.seq ≤ z := by
  induction rs generalizing j with
  | nil => rfl
  | cons r rs ih =>
    by_cases hskip : toI64 r.hdr.seq < f
    · have hd : ¬f ≤ toI64 r.hdr.seq := by omega
      rw [List.find?_cons_of_neg (by simpa using hd)] at hfirst
      rw [List.filter_cons_of_neg (by simpa using fun h => absurd h hd)]
      unfold selected
      rw [if_pos hskip]
      exact ih hcl.tail hfirst
    · have hle := hfirst r (List.find?_cons_of_pos (by simpa using hskip))
      have hrj : r.hdr.seq = j := hcl.seq 0 r rfl
      have hi64 : toI64 r.hdr.seq = (j : Int) := by
        have h64 := hcl.seq_lt List.mem_cons_self
        unfold toI64 at hskip ⊢
        split <;> omega
      exact selected_window hcl (by omega) hf (by omega) hz

/-- **The first record after the skipped ones is past the range**: it is applied, and nothing should
be. -/
theorem selected_outside (hcl : CleanStream j rs) (hf : 0 ≤ f) (hz : 0 ≤ z) {r : SRec}
    (hfirst : rs.find? (fun r => f ≤ toI64 r.hdr.seq) = some r) (hlt : z < toI64 r.hdr.seq) :
    selected f z rs = [r] ∧
      (rs.filter fun r => f ≤ toI64 r.hdr.seq ∧ toI64 r.hdr.seq ≤ z) = [] := by
  induction rs generalizing j with
  | nil => cases hfirst
  | cons x rs ih =>
    by_cases hskip : toI64 x.hdr.seq < f
    · have hd : ¬f ≤ toI64 x.hdr.seq := by omega
      rw [List.find?_cons_of_neg (by simpa using hd)] at hfirst
      rw [List.filter_cons_of_neg (by simpa using fun h => absurd h hd)]
      unfold selected
      rw [if_pos hskip]
      exact ih hcl.tail hfirst
    · rw [List.find?_cons_of_pos (by simpa using hskip)] at hfirst
      obtain rfl := Option.some.inj hfirst
      have hxj : x.hdr.seq = j := hcl.seq 0 x rfl
      have hzj : z < j := by
        unfold toI64 at hlt hskip
        split at hlt <;> omega
      unfold selected
      rw [if_neg hskip, if_pos (by omega)]
      exact ⟨rfl, filter_above hcl hf hzj⟩

theorem selected_unlimited (f : Int) (rs : List SRec) :
    selected f (-1) rs = rs.filter fun r => f ≤ toI64 r.hdr.seq := by
  induction rs with
  | nil => rfl
  | cons r rs ih =>
    unfold selected
    by_cases hskip : toI64 r.hdr.seq < f
    · rw [if_pos hskip, List.filter_cons_of_neg (by simpa using hskip), ih]
    · rw [if_neg hskip, if_neg (by omega), List.filter_cons_of_pos (by simpa using hskip), ih]

theorem inRange_iff {F seq : Nat} {S : Int} (h64 : seq < 2^64) (hS : -1 ≤ S) :
    ((F ≤ seq ∧ (seq : Int) ≤ S) ↔ atoll F ≤ toI64 seq ∧ toI64 seq ≤ atoll S) ↔
      (F ≤ seq → (seq : Int) ≤ S → seq < 2^63) ∧ (2^63 - 1 ≤ S → 2^63 ≤ F → seq ≠ 2^63 - 1) := by
  unfold atoll toI64
  split <;> omega

/-- two ranges select the same headers exactly if they agree on each record that writes -/
theorem writes_filter_iff (p q : Nat → Prop) [DecidablePred p] [DecidablePred q]
    (rs : List SRec) :
    ((rs.filter fun r => r.hdr.Writes ∧ p r.hdr.seq).map SRec.hdr
        = (rs.filter fun r => r.hdr.Writes ∧ q r.hdr.seq).map SRec.hdr) ↔
      ∀ r ∈ rs, r.hdr.Writes → (p r.hdr.seq ↔ q r.hdr.seq) := by
  have hmem : ∀ (p : Nat → Prop) [DecidablePred p], ∀ r ∈ rs, r.hdr.Writes → (p r.hdr.seq ↔
      r.hdr ∈ (rs.filter fun r => r.hdr.Writes ∧ p r.hdr.seq).map SRec.hdr) := by
    intro p _ r hr hw
    rw [List.mem_map]
    constructor
    · intro hp
      exact ⟨r, List.mem_filter.mpr ⟨hr, decide_eq_true ⟨hw, hp⟩⟩, rfl⟩
    · rintro ⟨x, hx, e⟩
      have hp := (of_decide_eq_true (List.mem_filter.mp hx).2).2
      rwa [e] at hp
  constructor
  · intro h r hr hw
    rw [hmem p r hr hw, hmem q r hr hw, h]
  · intro h
    congr 1
    exact List.filter_congr fun r hr => decide_eq_decide.mpr (and_congr_right (h r hr))

/-- the records of a range of `long long` that go to the target -/
def writesIn (f z : Int) (rs : List SRec) : List Rec :=
  (rs.filter fun r => r.hdr.Writes ∧ f ≤ toI64 r.hdr.seq ∧ toI64 r.hdr.seq ≤ z).map SRec.hdr

theorem recordsIn_iff {F : Nat} {S : Int} (hcl : CleanStream j rs) (hS : -1 ≤ S) :
    writesIn (atoll F) (atoll S) rs = recordsIn F S rs ↔ LongLongOk F S rs := by
  unfold writesIn recordsIn
  rw [writes_filter_iff (fun n => atoll F ≤ toI64 n ∧ toI64 n ≤ atoll S)
    fun n => F ≤ n ∧ (n : Int) ≤ S]
  have hiff : ∀ r ∈ rs, _ := fun r hr => inRange_iff (F:=F) (hcl.seq_lt hr) hS
  constructor
  · intro h
    exact ⟨fun r hr hw => ((hiff r hr).mp (h r hr hw).symm).1,
      fun h1 h2 r hr hw => ((hiff r hr).mp (h r hr hw).symm).2 h1 h2⟩
  · intro h r hr hw
    exact ((hiff r hr).mpr ⟨h.seq r hr hw, fun h1 h2 => h.limits h1 h2 r hr hw⟩).symm

theorem writes_selected (f z : Int) (hsel : selected f z rs
      = rs.filter fun r => f ≤ toI64 r.hdr.seq ∧ toI64 r.hdr.seq ≤ z) :
    ((selected f z rs).filter fun r => r.hdr.Writes).map SRec.hdr = writesIn f z rs := by
  unfold writesIn
  rw [hsel, List.filter_filter]
  congr 1
  exact List.filter_congr fun r _ => by rw [← Bool.decide_and]

end

/-- **`-f F -s S` writes the records of the range** exactly if the first record that is not skipped is
one of them, and `long long` holds the numbers. -/
theorem apply_range (F : Nat) (S : Int) (rs : List SRec) (j : Nat) (env : ApplyEnv)
    (io : List Pwrite) (img : Nat → UInt8) (hcl : CleanStream j rs) (henv : env.Ample)
    (hio : NoError io) (hS : -1 ≤ S) :
    applyTrace env (atoll F) (atoll S) (streamBytes rs) (rs.length + 1) (applyInit img io)
        = recordsIn F S rs ↔ FirstInRange F S rs ∧ LongLongOk F S rs := by
  have hf : 0 ≤ atoll F := by unfold atoll; omega
  have htop : atoll S < 2^63 := by unfold atoll; omega
  obtain ⟨q, h1, _⟩ := apply_selected (f:=atoll F) (z:=atoll S) henv hcl (Or.inl hf) img hio
  rw [(h1 _ (Nat.lt_succ_self _)).2]
  have hok := recordsIn_iff (F:=F) hcl hS
  -- a limit below the last `long long` is as it is given
  have hsmall : atoll S < 2^63 - 1 → atoll S = S ∧ LongLongOk F S rs := by
    intro h
    unfold atoll at h ⊢
    exact ⟨by omega, fun r _ _ _ _ => by omega, fun _ => by omega⟩
  unfold FirstInRange
  by_cases hneg : S < 0
  · obtain rfl : S = -1 := by omega
    obtain ⟨hz, hlong⟩ := hsmall (by decide)
    have hnone : recordsIn F (-1) rs = [] := by
      unfold recordsIn
      rw [List.map_eq_nil_iff, List.filter_eq_nil_iff]
      intro r _ h
      have h2 := (of_decide_eq_true h).2.2
      omega
    rw [if_pos hneg, and_iff_left hlong, hz, selected_unlimited, hnone, List.map_eq_nil_iff,
      List.filter_filter, List.filter_eq_nil_iff]
    refine forall_congr' fun r => forall_congr' fun _ => ?_
    simp only [Bool.and_eq_true, decide_eq_true_eq, not_and]
    exact ⟨fun h h2 h3 => h h3 h2, fun h h2 h3 => h h3 h2⟩
  · rw [if_neg hneg]
    have hle : atoll S ≤ S := by unfold atoll; omega
    cases hfind : rs.find? fun r => atoll F ≤ toI64 r.hdr.seq with
    | none =>
      rw [writes_selected _ _ (selected_inside hcl hf htop (by rw [hfind]; intro r h; cases h)), hok]
      exact ⟨fun h => ⟨fun r e => (by cases e), h⟩, And.right⟩
    | some r =>
      by_cases hin : toI64 r.hdr.seq ≤ atoll S
      · rw [writes_selected _ _ (selected_inside hcl hf htop (by
          rw [hfind]
          intro x h
          obtain rfl := Option.some.inj h
          exact hin)), hok]
        exact ⟨fun h => ⟨fun x e _ => Option.some.inj e ▸ hin.trans hle, h⟩, And.right⟩
      · have h64 := hcl.seq_lt (List.mem_of_find?_eq_some hfind)
        have hr : toI64 r.hdr.seq < 2^63 := by
          unfold toI64
          split <;> omega
        obtain ⟨hz, hlong⟩ := hsmall (by omega)
        obtain ⟨h2, h3⟩ := selected_outside (z:=atoll S) hcl hf (by omega) hfind (by omega)
        have hnone : recordsIn F S rs = [] := by
          rw [← hok.mpr hlong]
          unfold writesIn
          rw [List.map_eq_nil_iff, List.filter_eq_nil_iff]
          intro x hx h
          exact List.filter_eq_nil_iff.mp h3 x hx (decide_eq_true (of_decide_eq_true h).2)
        rw [and_iff_left hlong, hnone, h2, List.map_eq_nil_iff, List.filter_eq_nil_iff]
        constructor
        · intro h x hx hw
          obtain rfl := Option.some.inj hx
          exact absurd (by simpa using hw) (h r (List.mem_singleton_self r))
        · intro h x hx hw
          obtain rfl := List.mem_singleton.mp hx
          have := h _ rfl (by simpa using hw)
          omega

theorem apply_range_zero : applyTrace ⟨fun _ => true, fun _ => true, fun _ => 0⟩ (atoll (0 : Nat))
      (atoll 5) (streamBytes zeroStream) (2 + 1) (applyInit (fun _ => 1) [])
    = recordsIn 0 5 zeroStream :=
  (apply_range 0 5 zeroStream 5 _ [] _ zeroStream_clean ⟨fun _ => rfl, fun _ => rfl⟩ (by decide)
    (by decide)).mpr ⟨fun r h _ => by
      obtain rfl := Option.some.inj h
      decide, fun r _ _ _ h => by omega, fun h => absurd h (by decide)⟩

/-- the run on `zeroStream` -/
def zeroTrace (F : Nat) (S : Int) : List Rec :=
  applyTrace ⟨fun _ => true, fun _ => true, fun _ => 0⟩ (atoll F) (atoll S) (streamBytes zeroStream)
    (2 + 1) (applyInit (fun _ => 1) [])

theorem zeroTrace_eq (F : Nat) (S : Int) : zeroTrace F S =
    ((selected (atoll F) (atoll S) zeroStream).filter fun r => r.hdr.Writes).map SRec.hdr := by
  have hf : 0 ≤ atoll F := by unfold atoll; omega
  have henv : ApplyEnv.Ample ⟨fun _ => true, fun _ => true, fun _ => 0⟩ :=
    ⟨fun _ => rfl, fun _ => rfl⟩
  obtain ⟨q, h1, _⟩ := apply_selected (f:=atoll F) (z:=atoll S) henv zeroStream_clean (Or.inl hf)
    (fun _ => 1) (show NoError [] by decide)
  exact (h1 _ (Nat.lt_succ_self _)).2

/-- **Out of the range and written**: all of the stream with `-s -1`, where nothing was logged before
the snapshot; its first record where it begins after `S`; record `F` where `F` is greater than `S`. -/
theorem apply_range_missed : zeroTrace 5 (-1) ≠ recordsIn 5 (-1) zeroStream ∧
    zeroTrace 0 3 ≠ recordsIn 0 3 zeroStream ∧ zeroTrace 6 5 ≠ recordsIn 6 5 zeroStream := by
  rw [zeroTrace_eq, zeroTrace_eq, zeroTrace_eq]
  decide

end CDP
