import Mathlib.Algebra.Order.Field.Basic
import Mathlib.Algebra.Order.Ring.Rat
import Mathlib.Data.Rat.Cast.Order
import Mathlib.Tactic.Linarith
import Mathlib.Tactic.FieldSimp
import DmCdp.Daemon.Extents

/-!
# `Throttle`

The rate limit of `base_copy` and `recover`, in exact arithmetic over any ordered field.  A run is a
list of calls of `account`; each call says how much time has passed since the last one and how
much longer than asked its sleep takes.

* `Throttle.account`   `Throttle.account`, with the argument of `time.sleep`;
* `keeps_call`         after one call the rate is kept exactly if one second of sleep makes up for
                       what is ahead of it;
* `keeps_rate`         it is kept after every call of every run exactly from 4 MB/s on;
* `keeps_larger`       below that the limit is 4 MB/s;
* `exceeds_rate`       a chunk at 1 MB/s.
-/

set_option linter.unusedVariables false

namespace CDP

/-! ## the code -/

structure Throttle (K : Type*) where
  rate : K
  t0 : K
  done : Nat

/-- one call of `account(n)`: it comes `wait` after the last one has returned, and its sleep takes
`late` longer than asked -/
structure AccountCall (K : Type*) [Zero K] [LE K] where
  n : Nat
  wait : K
  late : K
  chunk : n ≤ CopyChunk
  wait_nonneg : 0 ≤ wait
  late_nonneg : 0 ≤ late

section
variable {K : Type*} [Field K] [LinearOrder K]

/-- `Throttle.__init__`; `mbps or 0` is 0 for `None` -/
def Throttle.init (mbps now : K) : Throttle K := ⟨mbps * 1048576, now, 0⟩

/-- `Throttle.account` at the time `now`, with what it asks `time.sleep` for -/
def Throttle.account (t : Throttle K) (n : Nat) (now : K) : Throttle K × Option K :=
  let t := { t with done := t.done + n }
  if t.rate ≤ 0 then (t, none)
  else
    let ahead := t.done / t.rate - (now - t.t0)
    if ahead > 0 then (t, some (min ahead 1)) else (t, none)

/-- the throttle and the clock when the call has returned -/
def AccountCall.run (s : Throttle K × K) (c : AccountCall K) : Throttle K × K :=
  let (t, asked) := s.1.account c.n (s.2 + c.wait)
  (t, s.2 + c.wait + asked.getD 0 + c.late)

def throttleRun (mbps t0 : K) (calls : List (AccountCall K)) : Throttle K × K :=
  calls.foldl AccountCall.run (Throttle.init mbps t0, t0)

/-- the property: the bytes so far are at most `rate * (now - t0)` -/
def KeepsRate (s : Throttle K × K) : Prop := (s.1.done : K) ≤ s.1.rate * (s.2 - s.1.t0)

/-! ## one call -/

theorem run_same (s : Throttle K × K) (c : AccountCall K) :
    (c.run s).1.rate = s.1.rate ∧ (c.run s).1.t0 = s.1.t0 ∧ (c.run s).1.done = s.1.done + c.n := by
  unfold AccountCall.run Throttle.account
  dsimp only
  split
  · simp
  · split <;> simp

variable [IsStrictOrderedRing K] {s : Throttle K × K}

/-- the seconds that the call asks for: enough to make up for what is ahead, or one -/
theorem asked_cases (hr : 0 < s.1.rate) (c : AccountCall K) :
    ∃ x, (c.run s).2 = s.2 + c.wait + x + c.late ∧ 0 ≤ x ∧ x ≤ 1 ∧
      (((s.1.done + c.n : Nat) : K) / s.1.rate ≤ s.2 + c.wait - s.1.t0 + x ∨ x = 1) := by
  refine ⟨(s.1.account c.n (s.2 + c.wait)).2.getD 0, rfl, ?_⟩
  unfold Throttle.account
  dsimp only
  rw [if_neg (not_le.mpr hr)]
  by_cases hahead : ((s.1.done + c.n : Nat) : K) / s.1.rate - (s.2 + c.wait - s.1.t0) > 0
  · rw [if_pos hahead]
    refine ⟨le_min hahead.le zero_le_one, min_le_right _ _, ?_⟩
    rcases min_choice (((s.1.done + c.n : Nat) : K) / s.1.rate - (s.2 + c.wait - s.1.t0)) 1
      with e | e
    · left
      show _ ≤ s.2 + c.wait - s.1.t0 + min _ 1
      rw [e]
      linarith
    · right
      exact e
  · rw [if_neg hahead]
    refine ⟨le_rfl, zero_le_one, Or.inl ?_⟩
    show _ ≤ s.2 + c.wait - s.1.t0 + 0
    linarith

/-- **One call.**  The rate is kept when it returns exactly if one second, and what the sleep takes
longer than asked, make up for what is ahead. -/
theorem keeps_call (hr : 0 < s.1.rate) (c : AccountCall K) : KeepsRate (c.run s) ↔
    ((s.1.done + c.n : Nat) : K) ≤ s.1.rate * (s.2 + c.wait - s.1.t0 + 1 + c.late) := by
  obtain ⟨e1, e2, e3⟩ := run_same s c
  obtain ⟨x, hx, h0, h1, hcase⟩ := asked_cases hr c
  have ho := c.late_nonneg
  have hle : ∀ y, ((s.1.done + c.n : Nat) : K) ≤ s.1.rate * y ↔
      ((s.1.done + c.n : Nat) : K) / s.1.rate ≤ y := by
    intro y
    rw [div_le_iff₀ hr, mul_comm]
  unfold KeepsRate
  rw [e1, e2, e3, hx, hle, hle]
  constructor
  · intro h
    linarith
  · intro h
    rcases hcase with hcase | rfl
    · linarith
    · linarith

/-! ## every call -/

/-- a chunk is at most one second at a rate of 4 MB/s -/
theorem keeps_next (hr : (CopyChunk : K) ≤ s.1.rate) (h : KeepsRate s) (c : AccountCall K) :
    KeepsRate (c.run s) := by
  have hpos : (0 : K) < s.1.rate := lt_of_lt_of_le (by norm_num [CopyChunk]) hr
  have hn : (c.n : K) ≤ CopyChunk := Nat.cast_le.mpr c.chunk
  have hw := mul_nonneg hpos.le c.wait_nonneg
  have ho := mul_nonneg hpos.le c.late_nonneg
  rw [keeps_call hpos]
  push_cast
  unfold KeepsRate at h
  linarith

theorem keeps_run (calls : List (AccountCall K)) (hr : (CopyChunk : K) ≤ s.1.rate)
    (h : KeepsRate s) : KeepsRate (calls.foldl AccountCall.run s) := by
  induction calls generalizing s with
  | nil => exact h
  | cons c calls ih =>
    apply ih
    · rw [(run_same s c).1]
      exact hr
    · exact keeps_next hr h c

theorem larger_next (hr : 0 < s.1.rate)
    (h : (s.1.done : K) ≤ max s.1.rate CopyChunk * (s.2 - s.1.t0)) (c : AccountCall K) :
    ((c.run s).1.done : K) ≤ max s.1.rate CopyChunk * ((c.run s).2 - (c.run s).1.t0) := by
  obtain ⟨e1, e2, e3⟩ := run_same s c
  obtain ⟨x, hx, h0, h1, hcase⟩ := asked_cases hr c
  have hmax : s.1.rate ≤ max s.1.rate CopyChunk := le_max_left _ _
  have hw := c.wait_nonneg
  have ho := c.late_nonneg
  rw [e2, e3, hx]
  rcases hcase with hcase | rfl
  · rw [div_le_iff₀ hr, mul_comm] at hcase
    have hD : (0 : K) ≤ s.1.rate * (s.2 + c.wait - s.1.t0 + x) := (Nat.cast_nonneg _).trans hcase
    have hpos := nonneg_of_mul_nonneg_right hD hr
    have h2 := mul_le_mul_of_nonneg_right hmax hpos
    have h3 := mul_nonneg (hr.le.trans hmax) ho
    linarith
  · have hn : (c.n : K) ≤ max s.1.rate CopyChunk :=
      (Nat.cast_le.mpr c.chunk).trans (le_max_right _ _)
    have h2 := mul_nonneg (hr.le.trans hmax) hw
    have h3 := mul_nonneg (hr.le.trans hmax) ho
    push_cast
    linarith

theorem larger_run (calls : List (AccountCall K)) (hr : 0 < s.1.rate)
    (h : (s.1.done : K) ≤ max s.1.rate CopyChunk * (s.2 - s.1.t0)) :
    ((calls.foldl AccountCall.run s).1.done : K) ≤
      max s.1.rate CopyChunk * ((calls.foldl AccountCall.run s).2 - s.1.t0) := by
  induction calls generalizing s with
  | nil => exact h
  | cons c calls ih =>
    obtain ⟨e1, e2, _⟩ := run_same s c
    have hnext := larger_next hr h c
    rw [← e1, ← e2]
    rw [← e1] at hr hnext
    exact ih hr hnext

/-- **Below 4 MB/s** the limit is 4: whatever `mbps` is, no run is faster than the larger of the
two. -/
theorem keeps_larger {mbps t0 : K} (h : 0 < mbps) (calls : List (AccountCall K)) :
    ((throttleRun mbps t0 calls).1.done : K) ≤
      max (mbps * 1048576) CopyChunk * ((throttleRun mbps t0 calls).2 - t0) := by
  apply larger_run calls
  · exact mul_pos h (by norm_num)
  · simp [Throttle.init]

omit [IsStrictOrderedRing K] in
theorem keeps_init (mbps t0 : K) : KeepsRate (Throttle.init mbps t0, t0) := by
  simp [KeepsRate, Throttle.init]

/-- **The throttle keeps its rate** after every call of every run, exactly from 4 MB/s on. -/
theorem keeps_rate (mbps t0 : K) (h : 0 < mbps) :
    (∀ calls, KeepsRate (throttleRun mbps t0 calls)) ↔ 4 ≤ mbps := by
  constructor
  · intro hall
    have hrate : (0 : K) < (Throttle.init mbps t0).rate := mul_pos h (by norm_num)
    have hone := (keeps_call hrate ⟨CopyChunk, 0, 0, le_rfl, le_rfl, le_rfl⟩).mp (hall [_])
    norm_num [Throttle.init, CopyChunk] at hone
    linarith
  · intro h4 calls
    apply keeps_run
    · show (CopyChunk : K) ≤ mbps * 1048576
      norm_num [CopyChunk]
      linarith
    · exact keeps_init mbps t0

end

theorem keeps_rate_default : (4 : ℚ) ≤ 15 ∧
    ∀ calls, KeepsRate (throttleRun (15 : ℚ) 0 calls) :=
  ⟨by norm_num, (keeps_rate 15 0 (by norm_num)).mpr (by norm_num)⟩

/-- **4 MB/s at a limit of 1**: the sleep for a chunk is one second. -/
theorem exceeds_rate : ∃ calls, ¬KeepsRate (throttleRun (1 : ℚ) 0 calls) := by
  refine ⟨[⟨CopyChunk, 0, 0, le_rfl, le_rfl, le_rfl⟩], ?_⟩
  norm_num [KeepsRate, throttleRun, AccountCall.run, Throttle.account, Throttle.init, CopyChunk]

end CDP
