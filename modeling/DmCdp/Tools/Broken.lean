import DmCdp.Daemon.Consume
import DmCdp.Lib.Loop

/-!
# `cdp-apply` on any bytes

What the loop of `tools/cdp-apply.c` does with a stream that nobody has checked, for any `-f` and `-s`
and any results of the calls it makes.

* `applyStep_cases`   what one iteration can do, said once;
* `Visits`            where the headers lie that it reads where no call fails;
* `applyStep_patch`   what one iteration writes to the target, byte by byte;
* `Rejects`           exit 0 only after whole records, and no byte that is not of the record;
* `rejects_iff`       it does so exactly on a `SoundStream`;
* `rejects_not`       a cut header, a cut record that is skipped, and a `WRITE` longer than its payload.
-/

set_option linter.unusedVariables false

namespace CDP
open Img

/-! ## one iteration -/

/-- the header that is read at `pos` -/
def hdrAt (s : List UInt8) (pos : Nat) : Rec := Rec.parse (s.drop pos)

structure HeaderOk (s : List UInt8) (pos : Nat) : Prop where
  inside : pos + RecSize ≤ s.length
  magic : (hdrAt s pos).magic = RecMagic

/-- what has to hold for the record at `pos` to come to the `switch`; `e` is the number expected -/
structure Admits (F : Int) (s : List UInt8) (pos : Nat) (e : Option Nat) : Prop where
  header : HeaderOk s pos
  from_le : F ≤ toI64 (hdrAt s pos).seq
  seq : ∀ n, e = some n → (hdrAt s pos).seq = n
  gap : hasFlag (hdrAt s pos).flags FGapBefore = true → toI64 (hdrAt s pos).seq = F
  error : hasFlag (hdrAt s pos).flags FError = false
  whole : RecSize ≤ (hdrAt s pos).recLen
  inside : pos + (hdrAt s pos).recLen ≤ s.length

/-- the record at `pos` is skipped -/
structure Skips (F : Int) (s : List UInt8) (pos : Nat) : Prop where
  header : HeaderOk s pos
  before : toI64 (hdrAt s pos).seq < F

/-- `-s` ends the loop behind this record -/
def StopsAt (S : Int) (r : Rec) : Prop := 0 ≤ S ∧ toI64 r.seq ≥ S

/-- there is memory for the payload -/
def Room (env : ApplyEnv) (r : Rec) : Prop :=
  r.recLen = RecSize ∨ env.malloc (r.recLen - RecSize) = true

def ApplySt.expected (q : ApplySt) : Option Nat := if q.haveSeq = true then some q.expect else none

/-- the state in which the `switch` is entered -/
def ApplySt.enter (s : List UInt8) (q : ApplySt) : ApplySt :=
  { q with
    haveSeq := true
    expect := u64 ((hdrAt s q.pos).seq + 1)
    pos := q.pos + (hdrAt s q.pos).recLen }

/-- from the end of the `switch` on -/
def applyFinish (S : Int) (r : Rec) : Bool × ApplySt → ApplyOut
  | (false, st) => .exit 1 st
  | (true, st) => if 0 ≤ S ∧ toI64 r.seq ≥ S then .exit 0 st else .next st

section
variable {env : ApplyEnv} {F S : Int} {s : List UInt8} {q : ApplySt}

theorem hdrAt_fits (s : List UInt8) (pos : Nat) : (hdrAt s pos).Fits := Rec.parse_fits _

/-- `payload`, for any `rec_len` -/
theorem payload_cases {r : Rec} (h : r.Fits) :
    (RecSize ≤ r.recLen ∧ u64sub r.recLen RecSize = r.recLen - RecSize) ∨
    (r.recLen < RecSize ∧ 2^63 ≤ u64sub r.recLen RecSize ∧
      toI64 (u64sub r.recLen RecSize) = (r.recLen : Int) - RecSize) := by
  have h32 := h.recLen
  have hR : RecSize = 56 := rfl
  by_cases hle : RecSize ≤ r.recLen
  · exact Or.inl ⟨hle, u64sub_of_le hle (by omega)⟩
  · have e : u64sub r.recLen RecSize = r.recLen + 2^64 - RecSize := by
      unfold u64sub
      exact Nat.mod_eq_of_lt (by omega)
    refine Or.inr ⟨by omega, by omega, ?_⟩
    unfold toI64
    rw [e, if_neg (by omega)]
    omega

/-- `fseek` goes to `rec_len` behind the header's start, whatever `rec_len` is -/
theorem skip_pos (s : List UInt8) (pos : Nat) :
    (if u64sub (hdrAt s pos).recLen RecSize = 0 then some (pos + RecSize)
      else fseekCur (pos + RecSize) (u64sub (hdrAt s pos).recLen RecSize))
        = some (pos + (hdrAt s pos).recLen) := by
  have h32 := (hdrAt_fits s pos).recLen
  rcases payload_cases (hdrAt_fits s pos) with ⟨h1, h2⟩ | ⟨h1, h2, h3⟩
  · rw [h2]
    by_cases h0 : (hdrAt s pos).recLen - RecSize = 0
    · rw [if_pos h0]
      exact congrArg some (by omega)
    · rw [if_neg h0]
      unfold fseekCur
      rw [toI64_of_lt (by omega), if_pos (by omega)]
      exact congrArg some (by omega)
  · rw [if_neg (by omega)]
    unfold fseekCur
    rw [h3, if_pos (by omega)]
    exact congrArg some (by omega)

/-- **What one iteration can do**: stop in front of what is not a whole header, reject the record,
skip it, or go through the `switch` with it. -/
theorem applyStep_cases (env : ApplyEnv) (F S : Int) (s : List UInt8) (q : ApplySt) :
    (s.length < q.pos + RecSize ∧ applyStep env F S s q = .exit 0 q) ∨
    (∃ rc q', rc ≠ 0 ∧ applyStep env F S s q = .exit rc q' ∧ q'.img = q.img ∧
      ¬Skips F s q.pos ∧ ¬(Admits F s q.pos q.expected ∧ Room env (hdrAt s q.pos))) ∨
    (Skips F s q.pos ∧
      applyStep env F S s q = .next { q with pos := q.pos + (hdrAt s q.pos).recLen }) ∨
    (Admits F s q.pos q.expected ∧ Room env (hdrAt s q.pos) ∧ applyStep env F S s q =
      applyFinish S (hdrAt s q.pos) (applyRec env (hdrAt s q.pos)
        (applyBuf env s (q.pos + RecSize) ((hdrAt s q.pos).recLen - RecSize)) (q.enter s))) := by
  unfold applyStep
  by_cases hlen : s.length < q.pos + RecSize
  · exact Or.inl ⟨hlen, if_pos hlen⟩
  rw [if_neg hlen]
  have hr : Rec.parse (s.drop q.pos) = hdrAt s q.pos := rfl
  dsimp only
  rw [hr]
  by_cases hmagic : (hdrAt s q.pos).magic ≠ RecMagic
  · rw [if_pos hmagic]
    exact Or.inr (Or.inl ⟨1, q, by decide, rfl, rfl, fun h => hmagic h.header.magic,
      fun h => hmagic h.1.header.magic⟩)
  have hhead : HeaderOk s q.pos := ⟨by omega, not_not.mp hmagic⟩
  rw [if_neg hmagic]
  by_cases hskip : toI64 (hdrAt s q.pos).seq < F
  · rw [if_pos hskip, skip_pos]
    exact Or.inr (Or.inr (Or.inl ⟨⟨hhead, hskip⟩, rfl⟩))
  rw [if_neg hskip]
  have hnoskip : ¬Skips F s q.pos := fun h => hskip h.before
  by_cases hseq : q.haveSeq = true ∧ (hdrAt s q.pos).seq ≠ q.expect
  · rw [if_pos hseq]
    exact Or.inr (Or.inl ⟨1, q, by decide, rfl, rfl, hnoskip, fun h =>
      hseq.2 (h.1.seq q.expect (if_pos hseq.1))⟩)
  rw [if_neg hseq]
  by_cases hgap : hasFlag (hdrAt s q.pos).flags FGapBefore = true ∧ toI64 (hdrAt s q.pos).seq ≠ F
  · rw [if_pos hgap]
    exact Or.inr (Or.inl ⟨3, q, by decide, rfl, rfl, hnoskip, fun h => hgap.2 (h.1.gap hgap.1)⟩)
  rw [if_neg hgap]
  by_cases herr : hasFlag (hdrAt s q.pos).flags FError = true
  · rw [if_pos herr]
    exact Or.inr (Or.inl ⟨1, q, by decide, rfl, rfl, hnoskip, fun h => by
      rw [h.1.error] at herr
      cases herr⟩)
  rw [if_neg herr]
  rcases payload_cases (hdrAt_fits s q.pos) with ⟨h1, h2⟩ | ⟨h1, h2, _⟩
  · rw [h2]
    have h32 := (hdrAt_fits s q.pos).recLen
    have hpos : q.pos + RecSize + ((hdrAt s q.pos).recLen - RecSize)
        = q.pos + (hdrAt s q.pos).recLen := by omega
    by_cases hread : (hdrAt s q.pos).recLen - RecSize ≠ 0 ∧
        ((hdrAt s q.pos).recLen - RecSize ≥ 2^63 ∨
          env.malloc ((hdrAt s q.pos).recLen - RecSize) = false ∨
          s.length < q.pos + RecSize + ((hdrAt s q.pos).recLen - RecSize))
    · rw [if_pos hread]
      refine Or.inr (Or.inl ⟨1, _, by decide, rfl, rfl, hnoskip, fun h => ?_⟩)
      have hin := h.1.inside
      rcases hread.2 with h3 | h3 | h3
      · omega
      · rcases h.2 with h4 | h4
        · omega
        · rw [h3] at h4
          cases h4
      · omega
    · rw [if_neg hread, hpos]
      have hroom : Room env (hdrAt s q.pos) := by
        by_cases h0 : (hdrAt s q.pos).recLen = RecSize
        · exact Or.inl h0
        · refine Or.inr ?_
          by_contra hm
          exact hread ⟨by omega, Or.inr (Or.inl (Bool.not_eq_true _ ▸ hm))⟩
      refine Or.inr (Or.inr (Or.inr ⟨⟨hhead, by omega, fun n hn => ?_, fun hg => ?_, ?_, h1, ?_⟩,
        hroom, ?_⟩))
      · unfold ApplySt.expected at hn
        by_cases hh : q.haveSeq = true
        · rw [if_pos hh] at hn
          by_contra hne
          exact hseq ⟨hh, by rwa [Option.some.inj hn]⟩
        · rw [if_neg hh] at hn
          cases hn
      · by_contra hne
        exact hgap ⟨hg, hne⟩
      · exact Bool.not_eq_true _ ▸ herr
      · have hlen' := hhead.inside
        omega
      · unfold applyFinish ApplySt.enter
        rfl
  · -- `malloc` of a negative length
    rw [if_pos ⟨by omega, Or.inl h2⟩]
    exact Or.inr (Or.inl ⟨1, _, by decide, rfl, rfl, hnoskip, fun h => by
      have := h.1.whole
      omega⟩)

theorem applyStep_skips (env : ApplyEnv) (S : Int) (h : Skips F s q.pos) :
    applyStep env F S s q = .next { q with pos := q.pos + (hdrAt s q.pos).recLen } := by
  have hlen := h.header.inside
  have hb := h.before
  rcases applyStep_cases env F S s q with ⟨hl, _⟩ | ⟨_, _, _, _, _, hn, _⟩ | ⟨_, e⟩ | ⟨ha, _, _⟩
  · omega
  · exact absurd h hn
  · exact e
  · have := ha.from_le
    omega

theorem applyStep_admits (S : Int) (ha : Admits F s q.pos q.expected)
    (hroom : Room env (hdrAt s q.pos)) : applyStep env F S s q =
      applyFinish S (hdrAt s q.pos) (applyRec env (hdrAt s q.pos)
        (applyBuf env s (q.pos + RecSize) ((hdrAt s q.pos).recLen - RecSize)) (q.enter s)) := by
  have hlen := ha.header.inside
  have hle := ha.from_le
  rcases applyStep_cases env F S s q with ⟨hl, _⟩ | ⟨_, _, _, _, _, _, hn⟩ | ⟨hs, _⟩ | ⟨_, _, e⟩
  · omega
  · exact absurd ⟨ha, hroom⟩ hn
  · have := hs.before
    omega
  · exact e

/-! ## the writes -/

/-- the `switch` succeeds if no call fails; `z`: the buffer of zeros has been allocated -/
structure Goes (z : Bool) (r : Rec) : Prop where
  write : r.type = RecWrite → r.len ≠ 0 → RecSize < r.recLen ∧ u64 (r.sector * 512) < 2^63
  zero : r.type = RecZero ∨ r.type = RecDiscard → z = true ∨ r.len ≠ 0
  zero_off : r.type = RecZero ∨ r.type = RecDiscard → r.len ≠ 0 → u64 (r.sector * 512) < 2^63

def Rec.zeroes (r : Rec) : Bool := r.type = RecZero ∨ r.type = RecDiscard

/-- what `write_all` comes to does not depend on what the target held -/
theorem writeAll_patch (io : List Pwrite) : ∀ (o n : Nat) (d : Nat → UInt8), ∃ ok io' p,
    (∀ m, writeAll io m o n d = (ok, overlay p m, io')) ∧
      ∀ x v, p x = some v → ∃ i, i < n ∧ x = o + i ∧ v = d i := by
  have hnone : ∀ m : Nat → UInt8, overlay (fun _ => none) m = m := fun m => rfl
  induction io with
  | nil => intro o n d; exact ⟨true, [], span o n d, fun m => rfl, fun x v => span_some⟩
  | cons w io ih =>
    intro o n d
    unfold writeAll
    by_cases hn : n = 0
    · refine ⟨true, w :: io, fun _ => none, fun m => ?_, fun x v h => by cases h⟩
      rw [if_pos hn, hnone]
    · simp only [if_neg hn]
      cases w with
      | eintr => exact ih o n d
      | error => exact ⟨false, io, fun _ => none, fun m => rfl, fun x v h => by cases h⟩
      | wrote k =>
        obtain ⟨ok, io', p, h1, h2⟩ := ih (o + min k n) (n - min k n) fun i => d (min k n + i)
        refine ⟨ok, io', fun a => (p a).or (span o (min k n) d a), fun m => ?_, fun x v h => ?_⟩
        · dsimp only
          rw [h1]
          unfold blit
          rw [overlay_overlay]
        · dsimp only at h
          cases hp : p x with
          | some w =>
            rw [hp] at h
            obtain rfl := Option.some.inj h
            obtain ⟨i, hi, hx, hv⟩ := h2 x _ hp
            exact ⟨min k n + i, by omega, by omega, hv⟩
          | none =>
            rw [hp] at h
            obtain ⟨i, hi, hx, hv⟩ := span_some h
            exact ⟨i, by omega, hx, hv⟩

theorem writeSector_patch (q : ApplySt) (sector n : Nat) (b : Option (Nat → UInt8)) :
    ∃ ok io p, (∀ m, writeSector { q with img := m } sector n b
        = (ok, { q with img := overlay p m, io := io })) ∧
      (ok = true → n ≠ 0 → u64 (sector * 512) < 2^63 ∧ b ≠ none) ∧
      ∀ x v, p x = some v → ∃ d i, b = some d ∧ i < n ∧ u64 (sector * 512) < 2^63 ∧
        x = u64 (sector * 512) + i ∧ v = d i := by
  unfold writeSector
  by_cases hn : n = 0
  · refine ⟨true, q.io, fun _ => none, fun m => ?_, fun _ h => absurd hn h, fun x v h => by cases h⟩
    rw [if_pos hn]
    rfl
  · simp only [if_neg hn]
    by_cases hoff : u64 (sector * 512) ≥ 2^63
    · refine ⟨false, q.io, fun _ => none, fun m => ?_, fun h => (by cases h),
        fun x v h => by cases h⟩
      rw [if_pos hoff]
      rfl
    · simp only [if_neg hoff]
      cases b with
      | none =>
        exact ⟨false, q.io, fun _ => none, fun m => rfl, fun h => (by cases h),
          fun x v h => by cases h⟩
      | some d =>
        obtain ⟨ok, io', p, h1, h2⟩ := writeAll_patch q.io (u64 (sector * 512)) n d
        refine ⟨ok, io', p, fun m => ?_, fun _ _ => ⟨by omega, by simp⟩, fun x v h => ?_⟩
        · dsimp only
          rw [h1]
        · obtain ⟨i, hi, hx, hv⟩ := h2 x v h
          exact ⟨d, i, rfl, hi, by omega, hx, hv⟩

/-- **What the `switch` does**: the fields it leaves alone, when it succeeds, and what it writes. -/
theorem applyRec_patch (env : ApplyEnv) (r : Rec) (b : Option (Nat → UInt8)) (q : ApplySt) :
    ∃ (ok : Bool) (q' : ApplySt) (p : Nat → Option UInt8), (∀ m, applyRec env r b { q with img := m }
        = (ok, { q' with img := overlay p m })) ∧
      q'.pos = q.pos ∧ q'.haveSeq = q.haveSeq ∧ q'.expect = q.expect ∧
      (ok = true → ((b ≠ none → RecSize < r.recLen) → Goes q.zero.isSome r) ∧
        q'.zero.isSome = (q.zero.isSome || r.zeroes)) ∧
      ∀ x v, p x = some v →
        (r.type = RecWrite ∧ ∃ d i, b = some d ∧ i < r.len ∧ u64 (r.sector * 512) < 2^63 ∧
          x = u64 (r.sector * 512) + i ∧ v = d i) ∨ (r.zeroes = true ∧ v = 0) := by
  have hwz : r.type = RecWrite → ¬(r.type = RecZero ∨ r.type = RecDiscard) := by
    intro h
    rw [h]
    decide
  unfold applyRec
  by_cases hw : r.type = RecWrite
  · simp only [if_pos hw]
    obtain ⟨ok, io, p, h1, h2, h3⟩ := writeSector_patch q r.sector r.len b
    refine ⟨ok, { q with io := io, bytes := q.bytes + r.len, applied := q.applied + 1 }, p,
      fun m => ?_, rfl, rfl, rfl, fun hok => ⟨fun hb => ?_, ?_⟩, fun x v h => Or.inl ⟨hw, h3 x v h⟩⟩
    · rw [h1]
    · exact ⟨fun _ hn => ⟨hb (h2 hok hn).2, (h2 hok hn).1⟩, fun h => absurd h (hwz hw),
        fun h => absurd h (hwz hw)⟩
    · have hz : r.zeroes = false := decide_eq_false (hwz hw)
      rw [hz, Bool.or_false]
  · simp only [if_neg hw]
    by_cases hz : r.type = RecZero ∨ r.type = RecDiscard
    · simp only [if_pos hz]
      have hzero : r.zeroes = true := decide_eq_true hz
      generalize hzv : (if r.len > q.zero.getD 0 then (if env.calloc r.len then some r.len else none)
        else q.zero) = zero
      by_cases hnone : zero = none
      · simp only [if_pos hnone]
        exact ⟨false, { q with zero := zero, applied := q.applied + 1 }, fun _ => none,
          fun m => rfl, rfl, rfl, rfl, fun h => (by cases h), fun x v h => by cases h⟩
      · simp only [if_neg hnone]
        obtain ⟨ok, io, p, h1, h2, h3⟩ := writeSector_patch
          { q with zero := zero, applied := q.applied + 1 } r.sector r.len (some fun _ => 0)
        refine ⟨ok, { q with zero := zero, applied := q.applied + 1, io := io }, p, h1, rfl, rfl, rfl,
          fun hok => ⟨fun _ => ⟨fun h => absurd h hw, fun _ => ?_, fun _ hn => (h2 hok hn).1⟩, ?_⟩,
          fun x v h => ?_⟩
        · -- without a buffer of zeros, nothing is longer than it but a record with a length
          by_contra hno
          obtain ⟨hq, hl⟩ := not_or.mp hno
          have hq' : q.zero = none := by simpa using hq
          rw [hq', not_not.mp hl] at hzv
          exact hnone hzv.symm
        · rw [hzero, Bool.or_true]
          exact Option.isSome_iff_ne_none.mpr hnone
        · obtain ⟨d, i, hd, _, _, _, hv⟩ := h3 x v h
          obtain rfl := Option.some.inj hd
          exact Or.inr ⟨hzero, hv⟩
    · simp only [if_neg hz]
      have hzero : r.zeroes = false := decide_eq_false hz
      refine ⟨true, q, fun _ => none, fun m => rfl, rfl, rfl, rfl, fun _ => ⟨fun _ => ?_, ?_⟩,
        fun x v h => by cases h⟩
      · exact ⟨fun h => absurd h hw, fun h => absurd h hz, fun h => absurd h hz⟩
      · rw [hzero, Bool.or_false]

/-! ## the run -/

/-- the record of the `switch` is done with, and what the loop knows then -/
structure ApplySt.Passed (s : List UInt8) (q q' : ApplySt) : Prop where
  pos : q'.pos = q.pos + (hdrAt s q.pos).recLen
  expected : q'.expected = some (u64 ((hdrAt s q.pos).seq + 1))
  zero : q'.zero.isSome = (q.zero.isSome || (hdrAt s q.pos).zeroes)

theorem applyBuf_none {pos payload : Nat} (h : applyBuf env s pos payload ≠ none) : 0 < payload := by
  by_contra h0
  exact h (if_pos (by omega))

theorem applyRec_passed {q' : ApplySt} (h : applyRec env (hdrAt s q.pos)
      (applyBuf env s (q.pos + RecSize) ((hdrAt s q.pos).recLen - RecSize)) (q.enter s)
        = (true, q')) : Goes q.zero.isSome (hdrAt s q.pos) ∧ q.Passed s q' := by
  obtain ⟨ok, q1, p, h1, h2, h3, h4, h5, _⟩ := applyRec_patch env (hdrAt s q.pos)
    (applyBuf env s (q.pos + RecSize) ((hdrAt s q.pos).recLen - RecSize)) (q.enter s)
  obtain ⟨rfl, rfl⟩ := Prod.mk.inj ((h1 q.img).symm.trans h)
  obtain ⟨hg, hz⟩ := h5 rfl
  refine ⟨hg fun hb => ?_, h2, ?_, hz⟩
  · have := applyBuf_none hb
    omega
  · unfold ApplySt.expected
    dsimp only
    rw [h3, h4]
    rfl

theorem applyFinish_true (S : Int) (r : Rec) (q : ApplySt) :
    (StopsAt S r ∧ applyFinish S r (true, q) = .exit 0 q) ∨
      (¬StopsAt S r ∧ applyFinish S r (true, q) = .next q) := by
  by_cases h : StopsAt S r
  · exact Or.inl ⟨h, if_pos h⟩
  · exact Or.inr ⟨h, if_neg h⟩

/-- **An admitted record** fails, or goes through the `switch`. -/
theorem applyFinish_cases (env : ApplyEnv) (S : Int) (s : List UInt8) (q : ApplySt) :
    let out := applyFinish S (hdrAt s q.pos) (applyRec env (hdrAt s q.pos)
      (applyBuf env s (q.pos + RecSize) ((hdrAt s q.pos).recLen - RecSize)) (q.enter s))
    (∃ q', out = .exit 1 q') ∨
    (Goes q.zero.isSome (hdrAt s q.pos) ∧ ∃ q', q.Passed s q' ∧
      (StopsAt S (hdrAt s q.pos) ∧ out = .exit 0 q' ∨ ¬StopsAt S (hdrAt s q.pos) ∧ out = .next q')) := by
  dsimp only
  rcases h : applyRec env (hdrAt s q.pos) (applyBuf env s (q.pos + RecSize)
    ((hdrAt s q.pos).recLen - RecSize)) (q.enter s) with ⟨ok, q'⟩
  cases ok with
  | false => exact Or.inl ⟨q', rfl⟩
  | true =>
    obtain ⟨hg, hp⟩ := applyRec_passed h
    exact Or.inr ⟨hg, q', hp, applyFinish_true S _ q'⟩

theorem applyStep_next {q' : ApplySt} (h : applyStep env F S s q = .next q') :
    (Skips F s q.pos ∧ q' = { q with pos := q.pos + (hdrAt s q.pos).recLen }) ∨
    (Admits F s q.pos q.expected ∧ Goes q.zero.isSome (hdrAt s q.pos) ∧
      ¬StopsAt S (hdrAt s q.pos) ∧ q.Passed s q') := by
  rcases applyStep_cases env F S s q with ⟨_, e⟩ | ⟨rc, q1, _, e, _⟩ | ⟨hs, e⟩ | ⟨ha, _, e⟩
  · rw [e] at h; cases h
  · rw [e] at h; cases h
  · rw [e] at h
    exact Or.inl ⟨hs, (ApplyOut.next.inj h).symm⟩
  · rw [e] at h
    rcases applyFinish_cases env S s q with ⟨q1, e1⟩ | ⟨hg, q1, hp, ⟨_, e1⟩ | ⟨hstop, e1⟩⟩
    · rw [e1] at h; cases h
    · rw [e1] at h; cases h
    · rw [e1] at h
      obtain rfl := ApplyOut.next.inj h
      exact Or.inr ⟨ha, hg, hstop, hp⟩

/-- the loop is left with exit 0 in front of a record that ends it -/
structure Stops (F S : Int) (s : List UInt8) (pos : Nat) (e : Option Nat) (z : Bool) : Prop where
  admits : Admits F s pos e
  goes : Goes z (hdrAt s pos)
  stop : StopsAt S (hdrAt s pos)

theorem applyStep_exit {q' : ApplySt} (h : applyStep env F S s q = .exit 0 q') :
    s.length < q.pos + RecSize ∨ Stops F S s q.pos q.expected q.zero.isSome := by
  rcases applyStep_cases env F S s q with ⟨hlen, _⟩ | ⟨rc, q1, hrc, e, _⟩ | ⟨_, e⟩ | ⟨ha, _, e⟩
  · exact Or.inl hlen
  · rw [e] at h
    exact absurd (ApplyOut.exit.inj h).1 hrc
  · rw [e] at h; cases h
  · rw [e] at h
    rcases applyFinish_cases env S s q with ⟨q1, e1⟩ | ⟨hg, q1, hp, ⟨hstop, e1⟩ | ⟨_, e1⟩⟩
    · rw [e1] at h
      exact absurd (ApplyOut.exit.inj h).1 (by decide)
    · exact Or.inr ⟨ha, hg, hstop⟩
    · rw [e1] at h; cases h

/-! ### where no call fails -/

theorem writeSector_goes {sector n : Nat} {b : Option (Nat → UInt8)} (hio : NoError q.io)
    (h : n ≠ 0 → u64 (sector * 512) < 2^63 ∧ b ≠ none) :
    ∃ q', writeSector q sector n b = (true, q') ∧ NoError q'.io := by
  unfold writeSector
  by_cases hn : n = 0
  · rw [if_pos hn]
    exact ⟨q, rfl, hio⟩
  · obtain ⟨hoff, hb⟩ := h hn
    obtain ⟨d, rfl⟩ := Option.ne_none_iff_exists'.mp hb
    obtain ⟨io', h1, h2⟩ := writeAll_ok (m:=q.img) (o:=u64 (sector * 512)) (n:=n) (d:=d) hio
    rw [if_neg hn, if_neg (by omega)]
    dsimp only
    rw [h2]
    exact ⟨_, rfl, h1⟩

theorem applyRec_goes {r : Rec} {b : Option (Nat → UInt8)} (henv : env.Ample) (hio : NoError q.io)
    (hg : Goes q.zero.isSome r) (hb : RecSize < r.recLen → b ≠ none) :
    ∃ q', applyRec env r b q = (true, q') ∧ NoError q'.io := by
  unfold applyRec
  by_cases hw : r.type = RecWrite
  · obtain ⟨q', h1, h2⟩ := writeSector_goes (b:=b) hio fun hn =>
      ⟨(hg.write hw hn).2, hb (hg.write hw hn).1⟩
    rw [if_pos hw, h1]
    exact ⟨_, rfl, h2⟩
  · rw [if_neg hw]
    by_cases hz : r.type = RecZero ∨ r.type = RecDiscard
    · rw [if_pos hz, henv.calloc, if_pos rfl]
      dsimp only
      have hsome : (if r.len > q.zero.getD 0 then some r.len else q.zero) ≠ none := by
        by_cases hl : r.len > q.zero.getD 0
        · rw [if_pos hl]
          exact Option.some_ne_none _
        · rw [if_neg hl]
          rcases hg.zero hz with h | h
          · exact Option.isSome_iff_ne_none.mp h
          · intro hnone
            rw [hnone] at hl
            exact hl (Nat.pos_of_ne_zero h)
      rw [if_neg hsome]
      exact writeSector_goes (q:={ q with
        zero := if r.len > q.zero.getD 0 then some r.len else q.zero, applied := q.applied + 1 })
        hio fun hn => ⟨hg.zero_off hz hn, Option.some_ne_none _⟩
    · rw [if_neg hz]
      exact ⟨q, rfl, hio⟩

theorem applyStep_goes (henv : env.Ample) (hio : NoError q.io) (ha : Admits F s q.pos q.expected)
    (hg : Goes q.zero.isSome (hdrAt s q.pos)) : ∃ q', q.Passed s q' ∧ NoError q'.io ∧
      (StopsAt S (hdrAt s q.pos) ∧ applyStep env F S s q = .exit 0 q' ∨
        ¬StopsAt S (hdrAt s q.pos) ∧ applyStep env F S s q = .next q') := by
  obtain ⟨q1, h1, h2⟩ := applyRec_goes (q:=q.enter s)
    (b:=applyBuf env s (q.pos + RecSize) ((hdrAt s q.pos).recLen - RecSize)) henv hio hg fun hlt => by
      unfold applyBuf
      rw [if_neg (by omega)]
      exact Option.some_ne_none _
  rw [applyStep_admits S ha (Or.inr (henv.malloc _)), h1]
  exact ⟨q1, (applyRec_passed h1).2, h2, applyFinish_true S _ q1⟩

theorem applyStep_short (env : ApplyEnv) (F S : Int) (h : s.length < q.pos + RecSize) :
    applyStep env F S s q = .exit 0 q := by
  unfold applyStep
  exact if_pos h

/-- the state that an iteration leaves -/
def ApplyOut.st : ApplyOut → ApplySt
  | .next st => st
  | .exit _ st => st

theorem applyFinish_st (S : Int) (r : Rec) (out : Bool × ApplySt) :
    (applyFinish S r out).st = out.2 := by
  rcases out with ⟨ok, q⟩
  cases ok with
  | false => rfl
  | true =>
    rcases applyFinish_true S r q with ⟨_, e⟩ | ⟨_, e⟩
    · rw [e]
      rfl
    · rw [e]
      rfl

/-- byte `x` of the target gets `v`: a byte of the payload of the `WRITE` at `pos`, in its place, or a
zero of a `ZERO` or `DISCARD` -/
def FromRecord (s : List UInt8) (pos x : Nat) (v : UInt8) : Prop :=
  ((hdrAt s pos).type = RecWrite ∧ ∃ i, i < (hdrAt s pos).recLen - RecSize ∧
    x = u64 ((hdrAt s pos).sector * 512) + i ∧ s[pos + RecSize + i]? = some v) ∨
  ((hdrAt s pos).zeroes = true ∧ v = 0)

/-- the `WRITE` at `pos` has the bytes that it wants written -/
def Backed (r : Rec) : Prop :=
  r.type = RecWrite → u64 (r.sector * 512) < 2^63 → RecSize < r.recLen → r.len ≤ r.recLen - RecSize

/-- **What an iteration writes** comes from the record, if its payload is long enough. -/
theorem applyStep_patch (env : ApplyEnv) (F S : Int) (s : List UInt8) (q : ApplySt)
    (hback : Admits F s q.pos q.expected → Backed (hdrAt s q.pos)) :
    ∃ p, (∀ m, (applyStep env F S s { q with img := m }).st.img = overlay p m) ∧
      ∀ x v, p x = some v → FromRecord s q.pos x v := by
  by_cases hin : Admits F s q.pos q.expected ∧ Room env (hdrAt s q.pos)
  · obtain ⟨ha, hroom⟩ := hin
    obtain ⟨ok, q', p, h1, _, _, _, _, h2⟩ := applyRec_patch env (hdrAt s q.pos)
      (applyBuf env s (q.pos + RecSize) ((hdrAt s q.pos).recLen - RecSize)) (q.enter s)
    refine ⟨p, fun m => ?_, fun x v h => ?_⟩
    · have e : (applyStep env F S s { q with img := m }).st
          = (applyRec env (hdrAt s q.pos) (applyBuf env s (q.pos + RecSize)
            ((hdrAt s q.pos).recLen - RecSize)) { q.enter s with img := m }).2 := by
        rw [applyStep_admits (q:={ q with img := m }) S ha hroom, applyFinish_st]
        rfl
      rw [e, h1]
    · rcases h2 x v h with ⟨hw, d, i, hd, hi, hoff, hx, hv⟩ | hz
      · have hpay : 0 < (hdrAt s q.pos).recLen - RecSize :=
          applyBuf_none fun hnone => by rw [hnone] at hd; cases hd
        have hlen := hback ha hw hoff (by omega)
        have hi' : i < (hdrAt s q.pos).recLen - RecSize := by omega
        have hins := ha.inside
        refine Or.inl ⟨hw, i, hi', hx, ?_⟩
        unfold applyBuf at hd
        rw [if_neg (by omega)] at hd
        rw [hv, ← Option.some.inj hd]
        dsimp only
        rw [if_pos hi', List.getD_eq_getElem?_getD, List.getElem?_eq_getElem (by omega)]
        rfl
      · exact Or.inr hz
  · refine ⟨fun _ => none, fun m => ?_, fun x v h => by cases h⟩
    change (applyStep env F S s { q with img := m }).st.img = m
    rcases applyStep_cases env F S s { q with img := m } with
      ⟨_, e⟩ | ⟨rc, q1, _, e, himg, _⟩ | ⟨_, e⟩ | ⟨ha, hroom, _⟩
    · rw [e]
      rfl
    · rw [e]
      exact himg
    · rw [e]
      rfl
    · exact absurd ⟨ha, hroom⟩ hin

/-- **A `WRITE` longer than its payload** goes on with what lies behind it on the heap. -/
theorem applyStep_heap (henv : env.Ample) (hio : NoError q.io) (ha : Admits F s q.pos q.expected)
    (hw : (hdrAt s q.pos).type = RecWrite) (hoff : u64 ((hdrAt s q.pos).sector * 512) < 2^63)
    (hpay : RecSize < (hdrAt s q.pos).recLen)
    (hlong : (hdrAt s q.pos).recLen - RecSize < (hdrAt s q.pos).len) (m : Nat → UInt8) :
    (applyStep env F S s { q with img := m }).st.img
        (u64 ((hdrAt s q.pos).sector * 512) + ((hdrAt s q.pos).recLen - RecSize))
      = env.heap ((hdrAt s q.pos).recLen - RecSize) := by
  have hbuf : applyBuf env s (q.pos + RecSize) ((hdrAt s q.pos).recLen - RecSize)
      = some fun i => if i < (hdrAt s q.pos).recLen - RecSize then s.getD (q.pos + RecSize + i) 0
        else env.heap i := if_neg (by omega)
  obtain ⟨io', _, h2⟩ := writeAll_ok (m:=m) (o:=u64 ((hdrAt s q.pos).sector * 512))
    (n:=(hdrAt s q.pos).len)
    (d:=fun i => if i < (hdrAt s q.pos).recLen - RecSize then s.getD (q.pos + RecSize + i) 0
      else env.heap i) hio
  rw [applyStep_admits (q:={ q with img := m }) S ha (Or.inr (henv.malloc _)), applyFinish_st]
  dsimp only
  rw [hbuf]
  unfold applyRec writeSector
  rw [if_pos hw, if_neg (by omega), if_neg (by omega)]
  dsimp only
  have hq : ApplySt.enter s { q with img := m } = { q.enter s with img := m } := rfl
  rw [hq]
  dsimp only
  have hio' : (q.enter s).io = q.io := rfl
  rw [hio', h2]
  dsimp only
  rw [blit_in _ (by omega), Nat.add_sub_cancel_left, if_neg (Nat.lt_irrefl _)]

/-! ## the whole run -/

/-- the positions the loop comes to where no call fails, with the number it then expects and whether it
has its buffer of zeros -/
inductive Visits (F S : Int) (s : List UInt8) : Nat → Option Nat → Bool → Prop
  | start : Visits F S s 0 none false
  | skip {pos : Nat} {e : Option Nat} {z : Bool} : Visits F S s pos e z → Skips F s pos →
      Visits F S s (pos + (hdrAt s pos).recLen) e z
  | apply {pos : Nat} {e : Option Nat} {z : Bool} : Visits F S s pos e z → Admits F s pos e →
      Goes z (hdrAt s pos) → ¬StopsAt S (hdrAt s pos) →
      Visits F S s (pos + (hdrAt s pos).recLen) (some (u64 ((hdrAt s pos).seq + 1)))
        (z || (hdrAt s pos).zeroes)

def applyNext (env : ApplyEnv) (F S : Int) (s : List UInt8) (q : ApplySt) : Option ApplySt :=
  match applyStep env F S s q with
  | .next q' => some q'
  | .exit _ _ => none

theorem applyNext_some {q' : ApplySt} :
    applyNext env F S s q = some q' ↔ applyStep env F S s q = .next q' := by
  unfold applyNext
  cases applyStep env F S s q with
  | next q1 => exact ⟨fun h => congrArg _ (Option.some.inj h), fun h => by cases h; rfl⟩
  | exit rc q1 => exact ⟨fun h => (by cases h), fun h => by cases h⟩

theorem applyLoop_next {fuel : Nat} {q' : ApplySt} (h : applyStep env F S s q = .next q') :
    applyLoop env F S s (fuel + 1) q = applyLoop env F S s fuel q' := by
  rw [applyLoop.eq_2, h]

theorem applyLoop_exit {fuel rc : Nat} {q' : ApplySt} (h : applyStep env F S s q = .exit rc q') :
    applyLoop env F S s (fuel + 1) q = some (rc, q') := by
  rw [applyLoop.eq_2, h]

theorem applyLoop_some {rc : Nat} {q' : ApplySt} (fuel : Nat) : ∀ {q : ApplySt},
    applyLoop env F S s fuel q = some (rc, q') →
    ∃ q1, Loop.Reaches (applyNext env F S s) q q1 ∧ applyStep env F S s q1 = .exit rc q' := by
  induction fuel with
  | zero => intro q h; cases h
  | succ fuel ih =>
    intro q h
    cases hstep : applyStep env F S s q with
    | exit rc1 q1 =>
      rw [applyLoop_exit hstep] at h
      obtain ⟨rfl, rfl⟩ := Prod.mk.inj (Option.some.inj h)
      exact ⟨q, Loop.Reaches.refl q, hstep⟩
    | next q1 =>
      rw [applyLoop_next hstep] at h
      obtain ⟨q2, h1, h2⟩ := ih h
      exact ⟨q2, Relation.ReflTransGen.head (applyNext_some.mpr hstep) h1, h2⟩

theorem applyLoop_of_reaches {rc : Nat} {q1 q' : ApplySt}
    (h : Loop.Reaches (applyNext env F S s) q q1) (hx : applyStep env F S s q1 = .exit rc q') :
    ∃ fuel, applyLoop env F S s fuel q = some (rc, q') := by
  induction h using Relation.ReflTransGen.head_induction_on with
  | refl => exact ⟨1, applyLoop_exit hx⟩
  | head hn _ ih =>
    obtain ⟨fuel, hf⟩ := ih
    exact ⟨fuel + 1, by rw [applyLoop_next (applyNext_some.mp hn), hf]⟩

/-- **Wherever a run comes, whatever its calls did, the input leads.** -/
theorem visits_of_reaches {img : Nat → UInt8} {io : List Pwrite}
    (h : Loop.Reaches (applyNext env F S s) (applyInit img io) q) :
    Visits F S s q.pos q.expected q.zero.isSome := by
  induction h with
  | refl => exact .start
  | tail _ hn ih =>
    rcases applyStep_next (applyNext_some.mp hn) with ⟨hs, rfl⟩ | ⟨ha, hg, hstop, hp⟩
    · exact .skip ih hs
    · rw [hp.pos, hp.expected, hp.zero]
      exact .apply ih ha hg hstop

/-- **Where no call fails, the run comes wherever the input leads.** -/
theorem reaches_of_visits {pos : Nat} {e : Option Nat} {z : Bool} {io : List Pwrite}
    (img : Nat → UInt8) (henv : env.Ample) (hio : NoError io) (h : Visits F S s pos e z) :
    ∃ q, Loop.Reaches (applyNext env F S s) (applyInit img io) q ∧ q.pos = pos ∧ q.expected = e ∧
      q.zero.isSome = z ∧ NoError q.io := by
  induction h with
  | start => exact ⟨_, Loop.Reaches.refl _, rfl, rfl, rfl, hio⟩
  | skip _ hs ih =>
    obtain ⟨q, h1, rfl, rfl, rfl, h5⟩ := ih
    exact ⟨_, h1.tail (applyNext_some.mpr (applyStep_skips env S hs)), rfl, rfl, rfl, h5⟩
  | apply _ ha hg hstop ih =>
    obtain ⟨q, h1, rfl, rfl, rfl, h5⟩ := ih
    obtain ⟨q', hp, h6, ⟨hs, _⟩ | ⟨_, h7⟩⟩ := applyStep_goes (S:=S) henv h5 ha hg
    · exact absurd hs hstop
    · exact ⟨q', h1.tail (applyNext_some.mpr h7), hp.pos, hp.expected, hp.zero, h6⟩

/-! ## broken streams -/

/-- whole records up to the end of the file, or up to one that ends the loop -/
def WholeUpTo (F S : Int) (s : List UInt8) : Prop :=
  ∃ (rs : List SRec) (rest : List UInt8), s = streamBytes rs ++ rest ∧ (∀ r ∈ rs, r.Whole) ∧
    (rest = [] ∨ ∃ r, rs.getLast? = some r ∧ F ≤ toI64 r.hdr.seq ∧ StopsAt S r.hdr)

/-- what is asked of `cdp-apply`, whatever its calls do -/
structure Rejects (F S : Int) (s : List UInt8) : Prop where
  status : ∀ env img io fuel q, applyLoop env F S s fuel (applyInit img io) = some (0, q) →
    WholeUpTo F S s
  written : ∀ env img io q, Loop.Reaches (applyNext env F S s) (applyInit img io) q →
    ∃ p, (∀ m, (applyStep env F S s { q with img := m }).st.img = overlay p m) ∧
      ∀ x v, p x = some v → FromRecord s q.pos x v

/-- a record that may be skipped -/
structure Sized (r : Rec) : Prop where
  whole : RecSize ≤ r.recLen
  write : r.type = RecWrite → r.len ≤ r.recLen - RecSize

/-- where the loop comes to, the file ends or holds a header; no record comes to the `switch` with less
payload than it writes; and if one that is not sound is skipped, the run does not come to the end -/
structure SoundStream (F S : Int) (s : List UInt8) : Prop where
  header : ∀ pos e z, Visits F S s pos e z → pos = s.length ∨ pos + RecSize ≤ s.length
  backed : ∀ pos e z, Visits F S s pos e z → Admits F s pos e → Backed (hdrAt s pos)
  skipped : ∀ pos e z, Visits F S s pos e z → Skips F s pos → ¬Sized (hdrAt s pos) →
    ∀ pos' e' z', Visits F S s pos' e' z' → pos' ≠ s.length ∧ ¬Stops F S s pos' e' z'

def recAt (s : List UInt8) (pos : Nat) : SRec :=
  ⟨hdrAt s pos, (s.drop (pos + RecSize)).take ((hdrAt s pos).recLen - RecSize)⟩

theorem recAt_whole {pos : Nat} (hh : HeaderOk s pos) (hin : pos + (hdrAt s pos).recLen ≤ s.length)
    (hz : Sized (hdrAt s pos)) : (recAt s pos).Whole ∧
      (recAt s pos).bytes = (s.drop pos).take (hdrAt s pos).recLen := by
  have hlen := hh.inside
  have h56 := hz.whole
  have hbody : ((s.drop (pos + RecSize)).take ((hdrAt s pos).recLen - RecSize)).length
      = (hdrAt s pos).recLen - RecSize := by
    rw [List.length_take, List.length_drop]
    omega
  refine ⟨⟨hdrAt_fits s pos, hh.magic, ?_, fun hw => ?_⟩, ?_⟩
  · show (hdrAt s pos).recLen = RecSize + _
    rw [recAt, hbody]
    omega
  · show (hdrAt s pos).len ≤ _
    rw [recAt, hbody]
    exact hz.write hw
  · have hhdr : (hdrAt s pos).bytes = (s.drop pos).take RecSize :=
      Rec.bytes_parse (by rw [List.length_drop]; omega)
    show (hdrAt s pos).bytes ++ _ = _
    rw [hhdr, recAt, ← List.drop_drop, ← List.take_add, Nat.add_sub_cancel' h56]

theorem streamBytes_snoc (rs : List SRec) (r : SRec) :
    streamBytes (rs ++ [r]) = streamBytes rs ++ r.bytes := by
  rw [streamBytes_append, streamBytes_cons]
  exact congrArg _ (List.append_nil _)

theorem take_recAt {pos : Nat} {rs : List SRec} (hrs : streamBytes rs = s.take pos)
    (hwhole : ∀ r ∈ rs, r.Whole) (hh : HeaderOk s pos)
    (hin : pos + (hdrAt s pos).recLen ≤ s.length) (hz : Sized (hdrAt s pos)) :
    streamBytes (rs ++ [recAt s pos]) = s.take (pos + (hdrAt s pos).recLen) ∧
      ∀ r ∈ rs ++ [recAt s pos], r.Whole := by
  obtain ⟨h1, h2⟩ := recAt_whole hh hin hz
  refine ⟨?_, fun r hr => ?_⟩
  · rw [streamBytes_snoc, hrs, h2, ← List.take_add]
  · rcases List.mem_append.mp hr with h | h
    · exact hwhole r h
    · obtain rfl := List.mem_singleton.mp h
      exact h1

theorem Admits.sized {pos : Nat} {e : Option Nat} {z : Bool} (ha : Admits F s pos e)
    (hg : Goes z (hdrAt s pos)) (hb : Backed (hdrAt s pos)) : Sized (hdrAt s pos) := by
  refine ⟨ha.whole, fun hw => ?_⟩
  by_cases hn : (hdrAt s pos).len = 0
  · omega
  · exact hb hw (hg.write hw hn).2 (hg.write hw hn).1

/-- **What lies before a position of a sound stream** is whole records. -/
theorem whole_before (hs : SoundStream F S s)
    (hskip : ∀ pos e z, Visits F S s pos e z → Skips F s pos → Sized (hdrAt s pos))
    {pos : Nat} {e : Option Nat} {z : Bool} (h : Visits F S s pos e z) :
    ∃ rs, streamBytes rs = s.take pos ∧ ∀ r ∈ rs, r.Whole := by
  induction h with
  | start => exact ⟨[], rfl, fun r hr => by cases hr⟩
  | skip hv hk ih =>
    obtain ⟨rs, h1, h2⟩ := ih
    have hin := hs.header _ _ _ (.skip hv hk)
    exact ⟨_, take_recAt h1 h2 hk.header (by omega) (hskip _ _ _ hv hk)⟩
  | apply hv ha hg _ ih =>
    obtain ⟨rs, h1, h2⟩ := ih
    exact ⟨_, take_recAt h1 h2 ha.header ha.inside (ha.sized hg (hs.backed _ _ _ hv ha))⟩

theorem rejects_of_sound (hs : SoundStream F S s) : Rejects F S s := by
  refine ⟨fun env img io fuel q h => ?_, fun env img io q h => ?_⟩
  · obtain ⟨q1, hr, hx⟩ := applyLoop_some fuel h
    have hv := visits_of_reaches hr
    -- a clean end, so what was skipped was sound
    have hend : q1.pos = s.length ∨ Stops F S s q1.pos q1.expected q1.zero.isSome := by
      have hR : RecSize = 56 := rfl
      rcases applyStep_exit hx with hlt | hstop
      · rcases hs.header _ _ _ hv with h1 | h1
        · exact Or.inl h1
        · omega
      · exact Or.inr hstop
    have hskip : ∀ pos e z, Visits F S s pos e z → Skips F s pos → Sized (hdrAt s pos) := by
      intro pos e z hp hk
      by_contra hbad
      obtain ⟨h1, h2⟩ := hs.skipped pos e z hp hk hbad _ _ _ hv
      exact hend.elim h1 h2
    obtain ⟨rs, h1, h2⟩ := whole_before hs hskip hv
    rcases hend with hend | hstop
    · refine ⟨rs, [], ?_, h2, Or.inl rfl⟩
      rw [h1, hend, List.take_length, List.append_nil]
    · have ha := hstop.admits
      obtain ⟨h3, h4⟩ := take_recAt h1 h2 ha.header ha.inside
        (ha.sized hstop.goes (hs.backed _ _ _ hv ha))
      refine ⟨_, s.drop (q1.pos + (hdrAt s q1.pos).recLen), ?_, h4, Or.inr ⟨recAt s q1.pos, ?_,
        ha.from_le, hstop.stop⟩⟩
      · rw [h3, List.take_append_drop]
      · exact List.getLast?_concat
  · exact applyStep_patch env F S s q (hs.backed _ _ _ (visits_of_reaches h))

/-- **Whole records leave the loop nowhere else** than at their ends. -/
theorem visits_boundary {rs : List SRec} {rest : List UInt8} (hb : s = streamBytes rs ++ rest)
    (hwhole : ∀ r ∈ rs, r.Whole)
    (hend : rest = [] ∨ ∃ r, rs.getLast? = some r ∧ F ≤ toI64 r.hdr.seq ∧ StopsAt S r.hdr)
    {pos : Nat} {e : Option Nat} {z : Bool} (h : Visits F S s pos e z) :
    (pos = s.length ∧ rest = []) ∨ ∃ done r todo, rs = done ++ r :: todo ∧
      pos = (streamBytes done).length ∧ hdrAt s pos = r.hdr := by
  -- the header after `done`
  have hat : ∀ done r todo, rs = done ++ r :: todo →
      hdrAt s (streamBytes done).length = r.hdr := by
    rintro done r todo rfl
    have hr := hwhole r (by simp)
    unfold hdrAt
    rw [hb, streamBytes_append, List.append_assoc, List.drop_left' rfl, streamBytes_cons,
      List.append_assoc]
    exact r.parse_bytes hr.fits _
  -- a record that the loop goes past
  have hpast : ∀ done r todo, rs = done ++ r :: todo →
      ¬(F ≤ toI64 r.hdr.seq ∧ StopsAt S r.hdr) →
      let pos := (streamBytes done).length + r.hdr.recLen
      (pos = s.length ∧ rest = []) ∨ ∃ done r todo, rs = done ++ r :: todo ∧
        pos = (streamBytes done).length ∧ hdrAt s pos = r.hdr := by
    intro done r todo hrs hno
    have hr := hwhole r (by rw [hrs]; simp)
    have hpos : (streamBytes done).length + r.hdr.recLen = (streamBytes (done ++ [r])).length := by
      rw [streamBytes_snoc, List.length_append, r.length_bytes, hr.recLen]
    dsimp only
    rw [hpos]
    cases todo with
    | nil =>
      have hrest : rest = [] := by
        rcases hend with h | ⟨x, hx, hstop⟩
        · exact h
        · rw [hrs, List.getLast?_concat] at hx
          obtain rfl := Option.some.inj hx
          exact absurd hstop hno
      exact Or.inl ⟨by rw [hb, hrs, hrest, List.append_nil], hrest⟩
    | cons x todo =>
      have hcut : rs = (done ++ [r]) ++ x :: todo := by rw [hrs]; simp
      exact Or.inr ⟨_, x, todo, hcut, rfl, hat _ _ _ hcut⟩
  induction h with
  | start =>
    cases hrs : rs with
    | nil =>
      have hrest : rest = [] := by
        rcases hend with h | ⟨x, hx, _⟩
        · exact h
        · rw [hrs] at hx
          cases hx
      exact Or.inl ⟨by rw [hb, hrs, hrest]; rfl, hrest⟩
    | cons r todo => exact Or.inr ⟨[], r, todo, rfl, rfl, hat [] r todo hrs⟩
  | skip hv hk ih =>
    rcases ih with ⟨h1, _⟩ | ⟨done, r, todo, hrs, rfl, hr⟩
    · have := hk.header.inside
      have hR : RecSize = 56 := rfl
      omega
    · have hbefore := hk.before
      rw [hr] at hbefore ⊢
      exact hpast done r todo hrs fun h => by omega
  | apply hv ha hg hstop ih =>
    rcases ih with ⟨h1, _⟩ | ⟨done, r, todo, hrs, rfl, hr⟩
    · have := ha.header.inside
      have hR : RecSize = 56 := rfl
      omega
    · rw [hr] at hstop ⊢
      exact hpast done r todo hrs fun h => hstop h.2

theorem WholeUpTo.header (h : WholeUpTo F S s) {pos : Nat} {e : Option Nat} {z : Bool}
    (hv : Visits F S s pos e z) : (pos = s.length ∨ pos + RecSize ≤ s.length) ∧
      (HeaderOk s pos → Sized (hdrAt s pos)) := by
  obtain ⟨rs, rest, hb, hwhole, hend⟩ := h
  rcases visits_boundary hb hwhole hend hv with ⟨h1, _⟩ | ⟨done, r, todo, hrs, rfl, hr⟩
  · refine ⟨Or.inl h1, fun hh => ?_⟩
    have := hh.inside
    have hR : RecSize = 56 := rfl
    omega
  · have hw := hwhole r (by rw [hrs]; simp)
    have hl := hw.recLen
    refine ⟨Or.inr ?_, fun _ => ?_⟩
    · rw [hb, hrs, streamBytes_append, streamBytes_cons, List.length_append, List.length_append,
        List.length_append, r.length_bytes]
      omega
    · rw [hr]
      exact ⟨by omega, fun h => by have := hw.write h; omega⟩

/-- memory for everything, and the byte `h` behind each allocation -/
def ampleEnv (h : UInt8) : ApplyEnv := ⟨fun _ => true, fun _ => true, fun _ => h⟩

theorem ampleEnv_ample (h : UInt8) : (ampleEnv h).Ample := ⟨fun _ => rfl, fun _ => rfl⟩

theorem sound_of_rejects (hr : Rejects F S s) : SoundStream F S s := by
  have hex : ∀ pos e z, Visits F S s pos e z → s.length < pos + RecSize ∨ Stops F S s pos e z →
      WholeUpTo F S s := by
    intro pos e z hv hend
    obtain ⟨q, h1, rfl, rfl, rfl, h5⟩ := reaches_of_visits (fun _ => 0) (ampleEnv_ample 0)
      (show NoError [] by decide) hv
    rcases hend with hlt | hstop
    · obtain ⟨fuel, hf⟩ := applyLoop_of_reaches h1 (applyStep_short (ampleEnv 0) F S hlt)
      exact hr.status _ _ _ _ _ hf
    · obtain ⟨q', _, _, ⟨_, hx⟩ | ⟨hno, _⟩⟩ := applyStep_goes (S:=S) (ampleEnv_ample 0) h5 hstop.admits
        hstop.goes
      · obtain ⟨fuel, hf⟩ := applyLoop_of_reaches h1 hx
        exact hr.status _ _ _ _ _ hf
      · exact absurd hstop.stop hno
  refine ⟨fun pos e z hv => ?_, fun pos e z hv ha hw hoff hpay => ?_,
    fun pos e z hv hk hbad pos' e' z' hv' => ⟨fun hend => ?_, fun hstop => ?_⟩⟩
  · by_contra hno
    exact hno ((hex pos e z hv (Or.inl (by omega))).header hv).1
  · by_contra hlong
    obtain ⟨q, h1, rfl, rfl, rfl, h5⟩ := reaches_of_visits (fun _ => 0) (ampleEnv_ample 0)
      (show NoError [] by decide) hv
    obtain ⟨p, h2, h3⟩ := hr.written _ _ _ _ h1
    have hheap := applyStep_heap (S:=S) (ampleEnv_ample 0) h5 ha hw hoff hpay (by omega) fun _ => 1
    rw [h2] at hheap
    cases hp : p (u64 ((hdrAt s q.pos).sector * 512) + ((hdrAt s q.pos).recLen - RecSize)) with
    | none =>
      rw [overlay_none hp] at hheap
      have h10 : (1 : UInt8) = 0 := hheap
      exact absurd h10 (by decide)
    | some v =>
      rcases h3 _ v hp with ⟨_, i, hi, hx, _⟩ | ⟨hz, _⟩
      · omega
      · unfold Rec.zeroes at hz
        rw [hw] at hz
        exact absurd hz (by decide)
  · have hR : RecSize = 56 := rfl
    exact hbad (((hex pos' e' z' hv' (Or.inl (by omega))).header hv).2 hk.header)
  · exact hbad (((hex pos' e' z' hv' (Or.inr hstop)).header hv).2 hk.header)

/-- **`cdp-apply` rejects what is broken** exactly on a sound stream. -/
theorem rejects_iff (F S : Int) (s : List UInt8) : Rejects F S s ↔ SoundStream F S s :=
  ⟨sound_of_rejects, rejects_of_sound⟩

end

/-- the header of a `WRITE` -/
def writeHdr (len recLen : Nat) : Rec :=
  ⟨RecMagic, AbiVersion, RecWrite, 0, StCommitted, 0, 0, len, recLen, 0, 0⟩

theorem writeHdr_ok (len recLen : Nat) (h : (writeHdr len recLen).Fits) (rest : List UInt8) :
    hdrAt ((writeHdr len recLen).bytes ++ rest) 0 = writeHdr len recLen ∧
      HeaderOk ((writeHdr len recLen).bytes ++ rest) 0 := by
  have hat : hdrAt ((writeHdr len recLen).bytes ++ rest) 0 = writeHdr len recLen :=
    (writeHdr len recLen).parse_bytes h rest
  refine ⟨hat, ⟨?_, by rw [hat]; rfl⟩⟩
  rw [List.length_append, Rec.length_bytes]
  omega

/-- **Broken streams that are not rejected**: half a header; a skipped record that the file does not
hold; a skipped `WRITE` without its payload; and a `WRITE` of 512 bytes with 8 bytes of payload. -/
theorem rejects_not : ¬Rejects (-1) (-1) [0] ∧ ¬Rejects 1 (-1) (writeHdr 44 100).bytes ∧
    ¬Rejects 1 (-1) (writeHdr 512 56).bytes ∧
    ¬Rejects (-1) (-1) ((writeHdr 512 64).bytes ++ [1, 2, 3, 4, 5, 6, 7, 8]) := by
  refine ⟨fun h => ?_, fun h => ?_, fun h => ?_, fun h => ?_⟩
  · exact absurd ((sound_of_rejects h).header _ _ _ .start) (by decide)
  · obtain ⟨hat, hh⟩ := writeHdr_ok 44 100 (by constructor <;> decide) []
    rw [List.append_nil] at hat hh
    have hv := Visits.skip (F:=1) (S:=-1) .start ⟨hh, by rw [hat]; decide⟩
    have hend := (sound_of_rejects h).header _ _ _ hv
    rw [hat, Rec.length_bytes] at hend
    exact absurd hend (by decide)
  · obtain ⟨hat, hh⟩ := writeHdr_ok 512 56 (by constructor <;> decide) []
    rw [List.append_nil] at hat hh
    have hk : Skips 1 (writeHdr 512 56).bytes 0 := ⟨hh, by rw [hat]; decide⟩
    refine ((sound_of_rejects h).skipped _ _ _ .start hk (fun hz => ?_) _ _ _ (.skip .start hk)).1 ?_
    · rw [hat] at hz
      exact absurd (hz.write rfl) (by decide)
    · rw [hat, Rec.length_bytes]
      rfl
  · obtain ⟨hat, hh⟩ := writeHdr_ok 512 64 (by constructor <;> decide)
      [1, 2, 3, 4, 5, 6, 7, 8]
    have ha : Admits (-1) ((writeHdr 512 64).bytes ++ [1, 2, 3, 4, 5, 6, 7, 8]) 0 none := by
      refine ⟨hh, ?_, fun n hn => (by cases hn), ?_, ?_, ?_, ?_⟩
      · rw [hat]; decide
      · rw [hat]; decide
      · rw [hat]; decide
      · rw [hat]; decide
      · rw [hat, List.length_append, Rec.length_bytes]; decide
    have hb := (sound_of_rejects h).backed _ _ _ .start ha
    rw [hat] at hb
    exact absurd (hb rfl (by decide) (by decide)) (by decide)

end CDP
