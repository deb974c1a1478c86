import DmCdp.Tools.Broken

/-!
# The three loops over a stream

`iter_records`, the record loop of `tools/cdp-drain.c` and the main loop of `tools/cdp-apply.c`: each
moves on by `rec_len`, which it takes from the data.

* `drainLoop`        the loop of `cdp-drain` over what one `read` returned;
* `RecOffset`        the offsets that a loop by `rec_len` comes to;
* `parsers_finish`   each of the three ends exactly if it meets no `rec_len` of 0, or has a limit;
* `parsers_hang`     56 bytes on which none of them ends.
-/

set_option linter.unusedVariables false

namespace CDP
open Img

/-! ## `cdp-drain` -/

/-- the variables of `main` that the record loop changes -/
structure DrainSt where
  off : Nat
  count : Int
  total : Nat
  stop : Bool

inductive DrainOut where
  | next (d : DrainSt)
  | leave (d : DrainSt)

/-- one iteration; `limit` is the argument of `-n`, or -1 -/
def drainStep (limit : Int) (buf : List UInt8) (d : DrainSt) : DrainOut :=
  if d.off + RecSize ≤ buf.length then
    let r := hdrAt buf d.off
    if r.magic ≠ RecMagic then .leave { d with stop := true }
    else
      let d := { d with
        total := if r.type = RecWrite then u64 (d.total + r.len) else d.total
        count := d.count + 1
        off := d.off + r.recLen }
      if 0 ≤ limit ∧ d.count ≥ limit then .leave d else .next d
  else .leave d

def drainLoop (limit : Int) (buf : List UInt8) : Nat → DrainSt → Option DrainSt
  | 0, _ => none
  | fuel + 1, d =>
    match drainStep limit buf d with
    | .leave d => some d
    | .next d => drainLoop limit buf fuel d

/-! ## a loop by `rec_len` -/

/-- the offsets that a loop by `rec_len` comes to -/
inductive RecOffset (s : List UInt8) : Nat → Prop
  | first : RecOffset s 0
  | next {off : Nat} : RecOffset s off → HeaderOk s off → RecOffset s (off + (hdrAt s off).recLen)

/-- no header that the loop comes to has `rec_len` 0 -/
def NoEmpty (s : List UInt8) : Prop :=
  ∀ off, RecOffset s off → HeaderOk s off → (hdrAt s off).recLen ≠ 0

instance (s : List UInt8) (pos : Nat) : Decidable (HeaderOk s pos) :=
  decidable_of_iff (pos + RecSize ≤ s.length ∧ (hdrAt s pos).magic = RecMagic)
    ⟨fun h => ⟨h.1, h.2⟩, fun h => ⟨h.inside, h.magic⟩⟩

/-- the offset of the next iteration; `whole`: the record has to lie in the buffer -/
def offNext (whole : Bool) (s : List UInt8) (off : Nat) : Option Nat :=
  if HeaderOk s off ∧ (whole = true → off + (hdrAt s off).recLen ≤ s.length) then
    some (off + (hdrAt s off).recLen)
  else none

section
variable {s buf : List UInt8} {whole : Bool}

theorem offNext_some {off off' : Nat} : offNext whole s off = some off' ↔
    HeaderOk s off ∧ (whole = true → off + (hdrAt s off).recLen ≤ s.length) ∧
      off + (hdrAt s off).recLen = off' := by
  unfold offNext
  by_cases h : HeaderOk s off ∧ (whole = true → off + (hdrAt s off).recLen ≤ s.length)
  · rw [if_pos h, Option.some_inj]
    exact ⟨fun e => ⟨h.1, h.2, e⟩, fun e => e.2.2⟩
  · rw [if_neg h]
    exact ⟨fun e => (by cases e), fun e => absurd ⟨e.1, e.2.1⟩ h⟩

theorem reaches_offset {off : Nat} (h : RecOffset s off) (hle : off ≤ s.length) :
    Loop.Reaches (offNext whole s) 0 off := by
  induction h with
  | first => exact Loop.Reaches.refl 0
  | next _ hh ih => exact (ih (by omega)).tail (offNext_some.mpr ⟨hh, fun _ => hle, rfl⟩)

theorem offset_reaches {off : Nat} (h : Loop.Reaches (offNext whole s) 0 off) :
    RecOffset s off := by
  induction h with
  | refl => exact .first
  | tail _ hn ih =>
    obtain ⟨hh, _, rfl⟩ := offNext_some.mp hn
    exact .next ih hh

/-- **A loop by `rec_len`** ends exactly if it meets no empty record. -/
theorem offNext_leaves (whole : Bool) (s : List UInt8) :
    (∃ fuel, Loop.leaves (offNext whole s) fuel 0 = true) ↔ NoEmpty s := by
  have hR : RecSize = 56 := rfl
  rw [Loop.leaves_iff_moves (fun off => s.length - off) fun off off' h => by
    obtain ⟨hh, _, rfl⟩ := offNext_some.mp h
    have := hh.inside
    omega]
  constructor
  · intro h off ho hh h0
    have hlen := hh.inside
    refine h off (reaches_offset ho (by omega)) (offNext_some.mpr ⟨hh, fun _ => ?_, ?_⟩)
    · rw [h0]
      omega
    · rw [h0, Nat.add_zero]
  · intro h off hr hn
    obtain ⟨hh, _, e⟩ := offNext_some.mp hn
    exact h off (offset_reaches hr) hh (by omega)

/-! ## the three loops -/

theorem iterRecords_leaves (fuel : Nat) : ∀ off,
    (iterRecords buf fuel off).isSome = Loop.leaves (offNext true buf) fuel off := by
  induction fuel with
  | zero => intro off; rfl
  | succ fuel ih =>
    intro off
    have hdr : (itemAt buf off).hdr = hdrAt buf off := rfl
    by_cases hn : HeaderOk buf off ∧ off + (hdrAt buf off).recLen ≤ buf.length
    · have hrec : iterRecords buf (fuel + 1) off
          = (iterRecords buf fuel (off + (hdrAt buf off).recLen)).map
            fun p => (itemAt buf off :: p.1, p.2) := by
        rw [iterRecords.eq_2, if_pos hn.1.inside]
        dsimp only
        rw [hdr, if_neg (not_not.mpr hn.1.magic), if_neg (by omega)]
      rw [Loop.leaves_some (offNext_some.mpr ⟨hn.1, fun _ => hn.2, rfl⟩), ← ih, hrec,
        Option.isSome_map]
    · have hnone : offNext true buf off = none := if_neg fun h => hn ⟨h.1, h.2 rfl⟩
      rw [Loop.leaves_none hnone]
      unfold iterRecords
      dsimp only
      rw [hdr]
      by_cases hin : off + RecSize ≤ buf.length
      · rw [if_pos hin]
        by_cases hm : (hdrAt buf off).magic ≠ RecMagic
        · rw [if_pos hm]
          rfl
        · rw [if_neg hm, if_pos (by
            by_contra hle
            exact hn ⟨⟨hin, not_not.mp hm⟩, by omega⟩)]
          rfl
      · rw [if_neg hin]
        rfl

theorem drainStep_header (limit : Int) {d : DrainSt} (hh : HeaderOk buf d.off) :
    ∃ d', d'.off = d.off + (hdrAt buf d.off).recLen ∧ d'.count = d.count + 1 ∧
      drainStep limit buf d
        = if 0 ≤ limit ∧ d.count + 1 ≥ limit then .leave d' else .next d' := by
  unfold drainStep
  rw [if_pos hh.inside]
  dsimp only
  rw [if_neg (not_not.mpr hh.magic)]
  exact ⟨_, rfl, rfl, rfl⟩

theorem drainStep_leave (limit : Int) {d : DrainSt} (hh : ¬HeaderOk buf d.off) :
    ∃ d', drainStep limit buf d = .leave d' := by
  unfold drainStep
  dsimp only
  by_cases hin : d.off + RecSize ≤ buf.length
  · rw [if_pos hin, if_pos fun hm => hh ⟨hin, hm⟩]
    exact ⟨_, rfl⟩
  · rw [if_neg hin]
    exact ⟨d, rfl⟩

theorem drainLoop_leave {limit : Int} {d d' : DrainSt} (h : drainStep limit buf d = .leave d')
    (fuel : Nat) : drainLoop limit buf (fuel + 1) d = some d' := by
  rw [drainLoop.eq_2, h]

theorem drainLoop_next {limit : Int} {d d' : DrainSt} (h : drainStep limit buf d = .next d')
    (fuel : Nat) : drainLoop limit buf (fuel + 1) d = drainLoop limit buf fuel d' := by
  rw [drainLoop.eq_2, h]

theorem drainLoop_leaves {limit : Int} (hl : limit < 0) (fuel : Nat) : ∀ d : DrainSt,
    (drainLoop limit buf fuel d).isSome = Loop.leaves (offNext false buf) fuel d.off := by
  induction fuel with
  | zero => intro d; rfl
  | succ fuel ih =>
    intro d
    by_cases hh : HeaderOk buf d.off
    · obtain ⟨d', h1, _, h2⟩ := drainStep_header limit hh
      rw [if_neg (by omega)] at h2
      rw [drainLoop_next h2, ih, h1,
        Loop.leaves_some (offNext_some.mpr ⟨hh, fun h => (by cases h), rfl⟩)]
    · obtain ⟨d', h⟩ := drainStep_leave limit hh
      have hnone : offNext false buf d.off = none := if_neg fun h => hh h.1
      rw [drainLoop_leave h, Loop.leaves_none hnone]
      rfl

theorem drainLoop_limit {limit : Int} (hl : 0 ≤ limit) (fuel : Nat) : ∀ d : DrainSt,
    limit ≤ d.count + fuel + 1 → (drainLoop limit buf (fuel + 1) d).isSome = true := by
  induction fuel with
  | zero =>
    intro d hd
    by_cases hh : HeaderOk buf d.off
    · obtain ⟨d', _, _, h2⟩ := drainStep_header limit hh
      rw [if_pos ⟨hl, by push_cast at hd; omega⟩] at h2
      rw [drainLoop_leave h2]
      rfl
    · obtain ⟨d', h⟩ := drainStep_leave limit hh
      rw [drainLoop_leave h]
      rfl
  | succ fuel ih =>
    intro d hd
    by_cases hh : HeaderOk buf d.off
    · obtain ⟨d', _, h1, h2⟩ := drainStep_header limit hh
      by_cases hlim : 0 ≤ limit ∧ d.count + 1 ≥ limit
      · rw [if_pos hlim] at h2
        rw [drainLoop_leave h2]
        rfl
      · rw [if_neg hlim] at h2
        rw [drainLoop_next h2]
        exact ih d' (by push_cast at hd; omega)
    · obtain ⟨d', h⟩ := drainStep_leave limit hh
      rw [drainLoop_leave h]
      rfl

theorem applyLoop_leaves {env : ApplyEnv} {F S : Int} (fuel : Nat) : ∀ q : ApplySt,
    (applyLoop env F S s fuel q).isSome = Loop.leaves (applyNext env F S s) fuel q := by
  induction fuel with
  | zero => intro q; rfl
  | succ fuel ih =>
    intro q
    cases hstep : applyStep env F S s q with
    | exit rc q' =>
      have hnone : applyNext env F S s q = none := by
        unfold applyNext
        rw [hstep]
      rw [applyLoop_exit hstep, Loop.leaves_none hnone]
      rfl
    | next q' => rw [applyLoop_next hstep, Loop.leaves_some (applyNext_some.mpr hstep), ih]

/-- **The loop of `cdp-apply`** ends, whatever its calls do, exactly if it skips no empty record. -/
theorem applyLoop_finish (F S : Int) (s : List UInt8) :
    (∀ env img io, ∃ fuel, (applyLoop env F S s fuel (applyInit img io)).isSome = true) ↔
      ∀ pos e z, Visits F S s pos e z → Skips F s pos → (hdrAt s pos).recLen ≠ 0 := by
  have hR : RecSize = 56 := rfl
  have hmove : ∀ env q q', applyNext env F S s q = some q' →
      q' = q ∨ s.length - q'.pos < s.length - q.pos := by
    intro env q q' h
    rcases applyStep_next (applyNext_some.mp h) with ⟨hs, rfl⟩ | ⟨ha, _, _, hp⟩
    · have hin := hs.header.inside
      by_cases h0 : (hdrAt s q.pos).recLen = 0
      · exact Or.inl (by rw [h0, Nat.add_zero])
      · exact Or.inr (by dsimp only; omega)
    · have hin := ha.header.inside
      have h56 := ha.whole
      have hpos := hp.pos
      exact Or.inr (by omega)
  simp only [applyLoop_leaves]
  constructor
  · intro h pos e z hv hk h0
    obtain ⟨q, h1, rfl, rfl, rfl, _⟩ := reaches_of_visits (fun _ => 0) (ampleEnv_ample 0)
      (show NoError [] by decide) hv
    refine (Loop.leaves_iff_moves _ (hmove (ampleEnv 0))).mp (h _ _ _) q h1 ?_
    rw [applyNext_some, applyStep_skips _ S hk, h0, Nat.add_zero]
  · intro h env img io
    refine (Loop.leaves_iff_moves _ (hmove env)).mpr fun q hr hn => ?_
    rcases applyStep_next (applyNext_some.mp hn) with ⟨hs, e⟩ | ⟨ha, _, _, hp⟩
    · have hpos := congrArg ApplySt.pos e
      dsimp only at hpos
      exact h _ _ _ (visits_of_reaches hr) hs (by omega)
    · have h56 := ha.whole
      have hpos := hp.pos
      omega

/-- **The three loops end** exactly where no header that they pass has `rec_len` 0: for `cdp-drain`
only without a limit, and for `cdp-apply` only among the records that `-f` skips. -/
theorem parsers_finish (s : List UInt8) :
    ((∃ fuel, (iterRecords s fuel 0).isSome = true) ↔ NoEmpty s) ∧
    (∀ limit count total stop,
      (∃ fuel, (drainLoop limit s fuel ⟨0, count, total, stop⟩).isSome = true) ↔
        0 ≤ limit ∨ NoEmpty s) ∧
    ∀ F S : Int,
      (∀ env img io, ∃ fuel, (applyLoop env F S s fuel (applyInit img io)).isSome = true) ↔
        ∀ pos e z, Visits F S s pos e z → Skips F s pos → (hdrAt s pos).recLen ≠ 0 := by
  refine ⟨?_, fun limit count total stop => ?_, fun F S => applyLoop_finish F S s⟩
  · simp only [iterRecords_leaves]
    exact offNext_leaves true s
  · by_cases hl : 0 ≤ limit
    · refine ⟨fun _ => Or.inl hl, fun _ => ⟨(limit - count).toNat + 1, ?_⟩⟩
      exact drainLoop_limit hl _ _ (by dsimp only; omega)
    · simp only [drainLoop_leaves (not_le.mp hl)]
      rw [offNext_leaves]
      exact ⟨Or.inr, fun h => h.resolve_left hl⟩

/-- the header of an empty record -/
def emptyRecord : List UInt8 := (writeHdr 0 0).bytes

/-- **56 bytes on which none of the three ends.** -/
theorem parsers_hang : (∀ fuel, iterRecords emptyRecord fuel 0 = none) ∧
    (∀ fuel, drainLoop (-1) emptyRecord fuel ⟨0, 0, 0, false⟩ = none) ∧
    ∀ fuel, applyLoop (ampleEnv 0) 1 (-1) emptyRecord fuel (applyInit (fun _ => 0) []) = none := by
  obtain ⟨hat, hh⟩ := writeHdr_ok 0 0 (by constructor <;> decide) []
  rw [List.append_nil] at hat hh
  change hdrAt emptyRecord 0 = _ at hat
  change HeaderOk emptyRecord 0 at hh
  have hstay : ∀ whole, offNext whole emptyRecord 0 = some 0 := fun whole =>
    offNext_some.mpr ⟨hh, fun _ => by rw [hat]; exact Nat.zero_le _, by rw [hat]; rfl⟩
  refine ⟨fun fuel => ?_, fun fuel => ?_, fun fuel => ?_⟩
  · rw [← Option.not_isSome_iff_eq_none, Bool.not_eq_true, iterRecords_leaves, Loop.not_leaves_of_stay (hstay true)]
  · rw [← Option.not_isSome_iff_eq_none, Bool.not_eq_true, drainLoop_leaves (by decide),
      Loop.not_leaves_of_stay (hstay false)]
  · have hk : Skips 1 emptyRecord 0 := ⟨hh, by rw [hat]; decide⟩
    rw [← Option.not_isSome_iff_eq_none, Bool.not_eq_true, applyLoop_leaves]
    refine Loop.not_leaves_of_stay (applyNext_some.mpr ?_) fuel
    rw [applyStep_skips (ampleEnv 0) (-1) hk]
    show ApplyOut.next { applyInit (fun _ => 0) [] with pos := 0 + (hdrAt emptyRecord 0).recLen } = _
    rw [hat]
    rfl

end

end CDP
