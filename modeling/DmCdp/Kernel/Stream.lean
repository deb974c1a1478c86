import DmCdp.Kernel.Dirty
import DmCdp.Tools.Apply

/-!
# The log as a stream for `cdp-apply`

A log entry as the record that `cdp_read` hands out (`Entry.srec`), and what it is to `cdp-apply`.

* `Entry.patch_bio`    what it writes to the image is what its bio writes to the device;
* `Faultless`          no empty discard and no device error, as long as the steps meet
                       `FaultlessAct`;
* `Faultless.record`   then an ended record passes the checks of `cdp-apply`, but for the gap flag.
-/

set_option linter.unusedVariables false

namespace CDP
open Img Mach

/-- two bios write a common byte of the device -/
def Overlap (cfg : Config) (b b' : Bio) : Prop :=
  ∃ x, b.patch cfg x ≠ none ∧ b'.patch cfg x ≠ none

theorem Bio.patch_none {cfg : Config} {b : Bio} (h : cdpMapArgs cfg b = none) (x : Nat) :
    b.patch cfg x = none := by
  unfold cdpMapArgs at h
  unfold Bio.patch
  cases hop : b.op with
  | read => rfl
  | other => rfl
  | write =>
    rw [hop] at h
    dsimp only at h ⊢
    split at h
    · rename_i hb
      rw [hb]
      exact span_out _ (by omega)
    · exact absurd h (by simp)
  | discard => rw [hop] at h; exact absurd h (by simp)
  | secureErase => rw [hop] at h; exact absurd h (by simp)
  | writeZeroes => rw [hop] at h; exact absurd h (by simp)

/-! ## entries as records of the stream -/

/-- a log entry as `cdp_read` hands it out -/
def Entry.srec (e : Entry) : SRec := ⟨e.header, slice e.data 0 e.payload ++ e.slack⟩

theorem Entry.srec_bytes (e : Entry) : e.srec.bytes = e.block := by
  unfold SRec.bytes Entry.block Entry.srec
  rw [List.append_assoc]

theorem streamBytes_blocks (es : List Entry) : streamBytes (es.map Entry.srec) = blocks es := by
  unfold streamBytes blocks
  have h : (es.map Entry.srec).map SRec.bytes = es.map Entry.block := by
    rw [List.map_map]
    exact List.map_congr_left fun e _ => e.srec_bytes
  rw [h]

section
variable {cfg : Config} {dev0 : Nat → UInt8} {s : KState}

theorem KInv.bio_of (hk : KInv cfg s) {k : Nat} {e : Entry} (he : s.log[k]? = some e) :
    ∃ (i : Nat) (f : Flight) (a : LogArgs), s.flights[i]? = some f ∧ f.idx = some k ∧
      cdpMapArgs cfg f.bio = some a ∧ (∃ gap ts, e.hdr = hdrOf k gap ts a) ∧
      e.payload = a.payload ∧ e.data = f.bio.data ∧ e.stage = f.stage.entry ∧ f.bio.Ok cfg := by
  obtain ⟨i, f, hf, hfk⟩ := hk.bios.cover k (List.getElem?_eq_some_iff.mp he).1
  have hfo := hk.bios.flight i f hf
  obtain ⟨e', he', ⟨a, gap, ts, ha, hh, hp, hd⟩, hes, _⟩ := hfo.idx k hfk
  rw [he, Option.some.injEq] at he'
  subst he'
  exact ⟨i, f, a, hf, hfk, ha, ⟨gap, ts, hh⟩, hp, hd, hes, hfo.ok⟩

/-- **A record that ended without an error passes the checks of `cdp-apply`**, but for the gap
flag. -/
theorem Entry.plain (hk : KInv cfg s) (hne : ∀ f ∈ s.flights, (f.bio.op = .discard ∨
      f.bio.op = .secureErase ∨ f.bio.op = .writeZeroes) → 0 < f.bio.bytes) {k : Nat} {e : Entry}
    (he : s.log[k]? = some e) (hend : e.stage = .ended false) :
    e.srec.Plain ∧ e.srec.hdr.sector * 512 < 2^63 ∧ e.srec.hdr.seq = k ∧
      e.srec.hdr.flags = e.hdr.flags := by
  obtain ⟨i, f, a, hf, hfk, ha, ⟨gap, ts, hh⟩, hp, hd, hes, hok⟩ := hk.bio_of he
  have hmem := List.mem_of_getElem? he
  have hfm := List.mem_of_getElem? hf
  have heok := hk.log.ok e hmem
  have hhdr : e.header = { e.hdr with state := StCommitted } := by
    unfold Entry.header
    rw [hend]
    rfl
  have hbody : (slice e.data 0 e.payload ++ e.slack).length = e.payload + slackLen e.payload := by
    rw [List.length_append, length_slice, hk.log.slack e hmem]
  have hargs := cdpMapArgs_cases ha
  have hsector : a.sector < 2^54 ∧ ((a.type = RecZero ∨ a.type = RecDiscard) → 0 < a.len) ∧
      (a.type = RecWrite → a.len = a.payload) := by
    have hbl := cfg.begin_len
    have hrel : 0 < f.bio.bytes → f.bio.rel cfg < 2^54 := by
      intro hb
      have := (Bio.rel_eq hok hb).2
      omega
    have hne := hne f hfm
    cases hargs with
    | flush _ _ =>
      refine ⟨Nat.two_pow_pos _, fun e => ?_, fun e => absurd e (by decide : RecFlush ≠ RecWrite)⟩
      exact absurd e (by decide : ¬(RecFlush = RecZero ∨ RecFlush = RecDiscard))
    | write _ hb =>
      refine ⟨hrel hb, fun _ => hb, fun _ => rfl⟩
    | discard hop =>
      have hb := hne (hop.imp_right Or.inl)
      exact ⟨hrel hb, fun _ => hb, fun e => absurd e (by decide : RecDiscard ≠ RecWrite)⟩
    | zero hop =>
      have hb := hne (Or.inr (Or.inr hop))
      exact ⟨hrel hb, fun _ => hb, fun e => absurd e (by decide : RecZero ≠ RecWrite)⟩
  have hoff : e.srec.hdr.sector * 512 < 2^63 := by
    show e.header.sector * 512 < 2^63
    rw [hhdr, hh]
    show a.sector * 512 < 2^63
    have := hsector.1
    omega
  refine ⟨⟨Entry.header_fits heok, ?_, ?_, ?_, ?_, ?_, fun _ => hoff⟩, hoff, ?_, ?_⟩
  · show e.header.magic = _
    rw [hhdr, hh]
    rfl
  · show e.header.recLen = RecSize + (slice e.data 0 e.payload ++ e.slack).length
    rw [hbody, Entry.header_recLen, heok.recLen, need_eq]
    exact Nat.add_assoc _ _ _
  · show hasFlag e.header.flags FError = false
    rw [hhdr, hh]
    show hasFlag (if gap then a.flags ||| FGapBefore else a.flags) FError = false
    rw [cdpMapArgs_flags ha]
    unfold Bio.flags hasFlag
    cases f.bio.fua <;> cases f.bio.preflush <;> cases gap <;> decide
  · intro hw
    change e.header.type = RecWrite at hw
    show e.header.len ≤ (slice e.data 0 e.payload ++ e.slack).length
    rw [hhdr, hh] at hw ⊢
    rw [hbody, hp]
    have := hsector.2.2 hw
    show a.len ≤ _
    omega
  · intro hz
    change e.header.type = RecZero ∨ e.header.type = RecDiscard at hz
    show 0 < e.header.len
    rw [hhdr, hh] at hz ⊢
    exact hsector.2.1 hz
  · show e.header.seq = k
    rw [hhdr, hh]
    rfl
  · show e.header.flags = e.hdr.flags
    rw [hhdr]

theorem stage_of_ended {f : Flight} {error : Bool} (h : f.stage.entry = .ended error) :
    f.stage = .ended error := by
  cases hst : f.stage with
  | marked => rw [hst] at h; exact EStage.noConfusion h
  | reserved off => rw [hst] at h; exact EStage.noConfusion h
  | submitted => rw [hst] at h; exact EStage.noConfusion h
  | ended err => rw [hst] at h; rw [EStage.ended.inj h]

/-- what a record writes to the image is what its bio writes to the device -/
theorem Entry.patch_bio {b : Bio} {a : LogArgs} {k ts : Nat} {gap : Bool} {e : Entry}
    (hok : b.Ok cfg) (ha : cdpMapArgs cfg b = some a) (hh : e.hdr = hdrOf k gap ts a)
    (hp : e.payload = a.payload) (hd : e.data = b.data) (x : Nat) :
    e.srec.patch x = b.patch cfg (cfg.start * 512 + x) := by
  have hsl := cfg.start_len
  have hty : e.srec.hdr.type = a.type := by
    show e.header.type = _
    rw [Entry.header_type, hh]
    rfl
  have hlen : e.srec.hdr.len = a.len ∧ e.srec.hdr.sector = a.sector := by
    show e.header.len = _ ∧ e.header.sector = _
    unfold Entry.header
    cases e.stage <;> (rw [hh]; exact ⟨rfl, rfl⟩)
  have hdev : 0 < b.bytes → b.devSector cfg = cfg.start + b.rel cfg := by
    intro hb
    have := (Bio.rel_eq hok hb).2
    exact u64_of_lt (by omega)
  have hspan : ∀ (n : Nat) (f g : Nat → UInt8), 0 < b.bytes → (∀ i, i < n → f i = g i) →
      span (b.rel cfg * 512) n f x = span (b.devSector cfg * 512) n g (cfg.start * 512 + x) := by
    intro n f g hb hfg
    rw [hdev hb, Nat.add_mul, span_congr hfg]
    exact span_shift _ _ _ _ _
  unfold SRec.patch Bio.patch
  rw [hty, hlen.1, hlen.2]
  cases cdpMapArgs_cases ha with
  | flush hop hb =>
    rw [hop]
    dsimp only
    rw [if_neg (by decide : ¬RecFlush = RecWrite),
      if_neg (by decide : ¬(RecFlush = RecZero ∨ RecFlush = RecDiscard)), hb]
    exact (span_out _ (by omega)).symm
  | write hop hb =>
    rw [hop]
    dsimp only
    rw [if_pos rfl]
    refine hspan _ _ _ hb fun i hi => ?_
    show (slice e.data 0 e.payload ++ e.slack).getD i 0 = b.data i
    rw [List.getD_eq_getElem?_getD, List.getElem?_append_left (by rw [length_slice, hp]; exact hi),
      getElem?_slice, if_pos (by rw [hp]; exact hi), hd, Nat.zero_add]
    rfl
  | discard hop =>
    dsimp only
    rw [if_neg (by decide : ¬RecDiscard = RecWrite),
      if_pos (by decide : RecDiscard = RecZero ∨ RecDiscard = RecDiscard)]
    by_cases hb : 0 < b.bytes
    · rcases hop with hop | hop <;>
        (rw [hop]; exact hspan b.bytes (fun _ => 0) (fun _ => 0) hb fun _ _ => rfl)
    · rcases hop with hop | hop <;>
        (rw [hop]; dsimp only; rw [span_out _ (by omega), span_out _ (by omega)])
  | zero hop =>
    rw [hop]
    dsimp only
    rw [if_neg (by decide : ¬RecZero = RecWrite),
      if_pos (by decide : RecZero = RecZero ∨ RecZero = RecDiscard)]
    by_cases hb : 0 < b.bytes
    · exact hspan b.bytes (fun _ => 0) (fun _ => 0) hb fun _ _ => rfl
    · rw [span_out _ (by omega), span_out _ (by omega)]

end

theorem log_ended {cfg : Config} {s : KState} (hk : KInv cfg s)
    (hdone : ∀ f ∈ s.flights, f.idx ≠ none → f.stage.isEnded = true) : ∀ e ∈ s.log, e.Ended := by
  intro e he
  obtain ⟨j, hj⟩ := List.mem_iff_getElem?.mp he
  obtain ⟨i, f, a, hf, hfk, _, _, _, _, hes, _⟩ := hk.bio_of hj
  have hst := hdone f (List.mem_of_getElem? hf) (by rw [hfk]; simp)
  cases hfs : f.stage with
  | marked => rw [hfs] at hst; exact absurd hst (by decide)
  | reserved off => rw [hfs] at hst; exact Bool.noConfusion (show false = true from hst)
  | submitted => rw [hfs] at hst; exact absurd hst (by decide)
  | ended error => exact ⟨error, by rw [hes, hfs]; rfl⟩

/-! ## runs without faults -/

/-- no empty discard, and no error of the device -/
def FaultlessAct : KAct → Prop
  | .map b => (b.op = .discard ∨ b.op = .secureErase ∨ b.op = .writeZeroes) → 0 < b.bytes
  | .endIo _ error => error = false
  | _ => True

structure Faultless (s : KState) : Prop where
  nonempty : ∀ f ∈ s.flights, (f.bio.op = .discard ∨ f.bio.op = .secureErase ∨
    f.bio.op = .writeZeroes) → 0 < f.bio.bytes
  noError : ∀ f ∈ s.flights, ∀ error, f.stage = .ended error → error = false
  early : ∀ f ∈ s.flights, f.stage = .marked → f.landed = false

theorem Faultless.init (cfg : Config) (dev : Nat → UInt8) : Faultless (KState.init cfg dev) :=
  ⟨fun f hf => absurd hf List.not_mem_nil, fun f hf => absurd hf List.not_mem_nil,
    fun f hf => absurd hf List.not_mem_nil⟩

section
variable {cfg : Config} {s s' : KState}

theorem Faultless.step {a : KAct} (hk : KInv cfg s) (h : Faultless s) (hg : FaultlessAct a)
    (hs : kstep cfg s a = some s') : Faultless s' := by
  have hcase : ∀ f' ∈ s'.flights, (∃ b st, a = .map b ∧ f' = b.flight st ∧
      ∀ error, st ≠ .ended error) ∨ ∃ j, ∃ f ∈ s.flights, FlightMove s j f a f' := by
    intro f' hf'
    obtain ⟨j, hj⟩ := List.mem_iff_getElem?.mp hf'
    rcases flight_cases hk hs hj with ⟨b, st, rfl, _, rfl, hst⟩ | ⟨f, hf, hm⟩
    · refine Or.inl ⟨b, st, rfl, rfl, fun error => ?_⟩
      rcases hst with rfl | ⟨rfl, _⟩ <;> exact Stage.noConfusion
    · exact Or.inr ⟨j, f, List.mem_of_getElem? hf, hm⟩
  refine ⟨fun f' hf' => ?_, fun f' hf' error herr => ?_, fun f' hf' hst => ?_⟩
  · rcases hcase f' hf' with ⟨b, st, rfl, rfl, _⟩ | ⟨j, f, hf, hm⟩
    · exact hg
    · rw [hm.bio]
      exact h.nonempty f hf
  · rcases hcase f' hf' with ⟨b, st, rfl, rfl, hne⟩ | ⟨j, f, hf, hm⟩
    · exact absurd herr (hne error)
    · cases hm with
      | finish error' _ _ =>
        obtain rfl := Stage.ended.inj herr
        exact hg
      | stay a => exact h.noError _ hf error herr
      | arrive _ => exact h.noError _ hf error herr
      | heal c healed => exact h.noError _ hf error herr
      | drop ts _ => cases herr
      | reserve ts off _ => cases herr
      | submit off _ => cases herr
  · rcases hcase f' hf' with ⟨b, st, rfl, rfl, _⟩ | ⟨j, f, hf, hm⟩
    · rfl
    · cases hm with
      | stay a => exact h.early _ hf hst
      | heal c healed => exact h.early f hf hst
      | arrive hsub =>
        rw [Flight.arrive, hsub] at hst
        cases hst
      | drop ts _ => cases hst
      | reserve ts off _ => cases hst
      | submit off _ => cases hst
      | finish error _ _ => cases hst

theorem Faultless.reach {dev : Nat → UInt8} {run : List KAct}
    (hq : Meets (kstep cfg) (fun _ a => FaultlessAct a) (KState.init cfg dev) run)
    (hs : exec (kstep cfg) (KState.init cfg dev) run = some s) : Faultless s :=
  (exec_invariant_meets (P:=fun s => KInv cfg s ∧ Faultless s)
    (fun u a v hu hg hs => ⟨hu.1.step hs, hu.2.step hu.1 hg hs⟩)
    ⟨KInv.init cfg dev, Faultless.init cfg dev⟩ hq hs).2

theorem Faultless.record (hk : KInv cfg s) (h : Faultless s) {k : Nat} {e : Entry}
    (he : s.log[k]? = some e) (hend : e.Ended) : e.srec.Plain ∧ e.srec.hdr.sector * 512 < 2^63 ∧
      e.srec.hdr.seq = k ∧ e.srec.hdr.flags = e.hdr.flags := by
  obtain ⟨error, herr⟩ := hend
  obtain ⟨i, f, a, hf, _, _, _, _, _, hes, _⟩ := hk.bio_of he
  obtain rfl := h.noError f (List.mem_of_getElem? hf) error (stage_of_ended (hes.symm.trans herr))
  exact Entry.plain hk h.nonempty he herr

end

end CDP
