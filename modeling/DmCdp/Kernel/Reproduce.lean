import DmCdp.Kernel.Commits

/-!
# `cdp-apply` of the stream is the device

A run without drops, device errors and empty discards, in which no two overlapping bios are in
flight together (`CleanAct`), is a calm run of the commit log that loses nothing.  So the replay of
the first `k + 1` records of what `cdp_read` returned is the device at the moment at which these
were all the records and had completed.
-/

set_option linter.unusedVariables false

namespace CDP
open Img Mach

/-! ## clean runs -/

/-- no drop, no device error, no overlap in flight, no empty discard -/
def CleanAct (cfg : Config) (s : KState) : KAct → Prop
  | .map b => (∀ f ∈ s.flights, f.stage.isEnded = false → ¬Overlap cfg b f.bio) ∧
      ((b.op = .discard ∨ b.op = .secureErase ∨ b.op = .writeZeroes) → 0 < b.bytes)
  | .reserve i _ => ∀ f a, s.flights[i]? = some f → cdpMapArgs cfg f.bio = some a →
      ¬Refused s.t a.payload
  | .endIo _ error => error = false
  | _ => True

theorem CleanAct.quiet {cfg : Config} {s : KState} {a : KAct} (h : CleanAct cfg s a) :
    QuietAct cfg s a := by
  cases a with
  | map b => exact h.1
  | endIo i error => exact h
  | _ => trivial

theorem CleanAct.faultless {cfg : Config} {s : KState} {a : KAct} (h : CleanAct cfg s a) :
    FaultlessAct a := by
  cases a with
  | map b => exact h.2
  | endIo i error => exact h
  | _ => trivial

theorem CleanAct.drops {cfg : Config} {s : KState} {a : KAct} (h : CleanAct cfg s a) :
    DropsAt cfg (fun _ => False) s a := by
  cases a with
  | reserve i ts => exact h
  | _ => trivial

/-! ## the log over a run -/

theorem LogExt.trans {l l' l'' : List Entry} (h : LogExt l l') (h' : LogExt l' l'') :
    LogExt l l'' := by
  intro k e he
  obtain ⟨e1, h1, o1, q1, d1⟩ := h k e he
  obtain ⟨e2, h2, o2, q2, d2⟩ := h' k e1 h1
  refine ⟨e2, h2, o2.trans o1, q2.trans q1, fun hend => ?_⟩
  have e3 := d1 hend
  rw [← e3]
  exact d2 (e3 ▸ hend)

section
variable {cfg : Config} {s s' : KState}

theorem kstep_logExt {a : KAct} (h : KInv cfg s) (hs : kstep cfg s a = some s') :
    LogExt s.log s'.log := by
  cases hr : a.isReader with
  | false => exact (kstep_frame h hs hr).2.2.2.2.1
  | true =>
    rcases KAct.reader_of hr with ⟨r, count, nonblock, rfl⟩ | ⟨r, ok, rfl⟩
    · obtain ⟨_, rfl⟩ := call_cases hs
      exact LogExt.refl _
    · cases reader_cases h hs <;> exact LogExt.refl _

theorem exec_logExt {as : List KAct} (h : KInv cfg s) (he : exec (kstep cfg) s as = some s') :
    LogExt s.log s'.log := by
  induction as generalizing s with
  | nil => exact Option.some.inj he ▸ LogExt.refl _
  | cons a as ih =>
    obtain ⟨t, ht, he⟩ := exec_cons_some.mp he
    exact (kstep_logExt h ht).trans (ih (h.step ht) he)

end

/-! ## the main result -/

section
variable {cfg : Config} {dev0 : Nat → UInt8} {run : List KAct} {s : KState}

theorem clean_cut (hc : Meets (kstep cfg) (CleanAct cfg) (KState.init cfg dev0) run)
    (hs : exec (kstep cfg) (KState.init cfg dev0) run = some s) :
    CommitLog.Cut (fun _ => False) (s.commits cfg) :=
  commits_cut (hc.imp fun _ _ => CleanAct.drops) hs

theorem clean_faultless (hc : Meets (kstep cfg) (CleanAct cfg) (KState.init cfg dev0) run)
    (hs : exec (kstep cfg) (KState.init cfg dev0) run = some s) : Faultless s :=
  Faultless.reach (hc.imp fun _ _ => CleanAct.faultless) hs

/-- **An ended record of a clean run passes every check of `cdp-apply`.** -/
theorem clean_record (hc : Meets (kstep cfg) (CleanAct cfg) (KState.init cfg dev0) run)
    (hs : exec (kstep cfg) (KState.init cfg dev0) run = some s) {k : Nat} {e : Entry}
    (he : s.log[k]? = some e) (hend : e.Ended) : e.srec.Clean ∧ e.srec.hdr.seq = k := by
  obtain ⟨h1, h2, h3, h4⟩ := (clean_faultless hc hs).record (KInv.reach hs) he hend
  refine ⟨⟨h1.fits, h1.magic, h1.recLen, ?_, h1.error, h1.write, h1.zero, h2⟩, h3⟩
  have hrec : (s.commits cfg).recs[k]? = some e.commit := by
    show (s.log.map Entry.commit)[k]? = _
    rw [List.getElem?_map, he]
    rfl
  rw [h4, ← Bool.not_eq_true]
  exact (clean_cut hc hs).gap k _ hrec

/-- **The device is the replay of the log**, once every record has completed. -/
theorem clean_replay (hc : Meets (kstep cfg) (CleanAct cfg) (KState.init cfg dev0) run)
    (hs : exec (kstep cfg) (KState.init cfg dev0) run = some s)
    (hdone : ∀ f ∈ s.flights, f.idx ≠ none → f.stage.isEnded = true) (x : Nat) :
    replay (s.log.map fun e => e.srec.patch) (fun y => dev0 (cfg.start * 512 + y)) x
      = s.dev (cfg.start * 512 + x) := by
  have hcut := clean_cut hc hs
  have hord := commits_ordered (hc.imp fun _ _ => CleanAct.quiet) hs
  have hset := commits_settled (KInv.reach hs) (clean_faultless hc hs) hdone
  have hpend : (s.commits cfg).pending = false := by
    rw [← Bool.not_eq_true]
    exact hcut.pending
  have hwhole := hord.whole hset hpend (hord.unlost hcut x)
  rw [show (s.commits cfg).recs = s.log.map Entry.commit from rfl, List.map_map] at hwhole
  rw [replay_apply]
  exact hwhole

end

/-- **The drained stream reproduces the device.**  At a moment `m` of a clean run the records up
to `k` are all there are and have completed.  Whenever record `k` has been returned, `cdp-apply
-s k` of what `cdp_read` has returned so far, onto the initial content of the device range,
exits 0 and leaves the content of the range at `m`. -/
theorem stream_reproduces (cfg : Config) (dev0 : Nat → UInt8) (before after : List KAct)
    (m s : KState) (k n : Nat) (env : ApplyEnv) (io : List Pwrite)
    (hclean : Meets (kstep cfg) (CleanAct cfg) (KState.init cfg dev0) (before ++ after))
    (hm : exec (kstep cfg) (KState.init cfg dev0) before = some m)
    (hs : exec (kstep cfg) m after = some s)
    (hlast : m.log.length = k + 1)
    (hdone : ∀ f ∈ m.flights, f.idx ≠ none → f.stage.isEnded = true)
    (hread : Delivers cfg s n) (hkn : k < n) (henv : env.Ample) (hio : NoError io) :
    ∃ st, applyLoop env (-1) (k : Int) s.out (k + 1)
        (applyInit (fun x => dev0 (cfg.start * 512 + x)) io) = some (0, st) ∧
      ∀ x, st.img x = m.dev (cfg.start * 512 + x) := by
  have hclean1 : Meets (kstep cfg) (CleanAct cfg) (KState.init cfg dev0) before :=
    meets_prefix hclean
  have hexec := exec_append_some.mpr ⟨m, hm, hs⟩
  have hkm := KInv.reach hm
  have hks := KInv.reach hexec
  have hout := hread.blocks
  have hn := hread.le_nread hks
  -- all records of `m` have ended, so they are the first records of `s`
  have hended : ∀ e ∈ m.log, e.Ended := log_ended hkm hdone
  have hlog : s.log.take (k + 1) = m.log := by
    have h1 := (exec_logExt hkm hs).take (n:=k + 1) (by omega)
      fun j e he _ => hended e (List.mem_of_getElem? he)
    rw [h1, ← hlast, List.take_length]
  have hle := hks.log.le
  have hlen := hks.log.length_lt
  have hrec : ∀ (j : Nat) (r : SRec), ((s.log.take n).map Entry.srec)[j]? = some r →
      r.Clean ∧ r.hdr.seq = j := by
    intro j r hr
    rw [List.getElem?_map, Option.map_eq_some_iff] at hr
    obtain ⟨e, he, rfl⟩ := hr
    rw [List.getElem?_take] at he
    split at he
    · exact clean_record hclean hexec he (hks.log.read j e he (by omega))
    · exact absurd he (by simp)
  have hklt : k < 2^63 := by
    have h1 := hks.log.head
    have h2 := hks.log.ring.head
    have hR : RecSize = 56 := rfl
    have h3 : s.log.length * 56 ≤ s.t.head := h1
    omega
  obtain ⟨st, h1, h2⟩ := apply_prefix (l:=(s.log.take n).map Entry.srec) henv
    (fun r hr => by
      obtain ⟨j, hj⟩ := List.mem_iff_getElem?.mp hr
      exact (hrec j r hj).1) hio (fun j r hr => (hrec j r hr).2)
    (by rw [List.length_map, List.length_take]; omega) hklt
    (fun x => dev0 (cfg.start * 512 + x))
  rw [streamBytes_blocks, ← hout] at h1
  refine ⟨st, h1, fun x => ?_⟩
  have htake : ((s.log.take n).map Entry.srec).take (k + 1) = m.log.map Entry.srec := by
    rw [← List.map_take, List.take_take, Nat.min_eq_left (by omega), hlog]
  rw [h2, htake, List.map_map]
  exact clean_replay hclean1 hm hdone x

/-- a target on part of a disk, behind other targets of its device -/
def shiftedConfig : Config :=
  { smallConfig with start := 2048, tiBegin := 64, begin_len := by decide, start_len := by decide }

/-- a bio, from `cdp_map` to the end of `cdp_end_io` -/
def served (i : Nat) (b : Bio) : List KAct :=
  [.map b, .reserve i 5, .copy i, .land i, .endIo i false]

/-- two sectors are written, the second of them and the next one are discarded, and that one is
written again -/
def overlapRun : List KAct :=
  served 0 ⟨.write, 64, 1024, false, false, fun _ => 1⟩ ++
    served 1 ⟨.discard, 65, 1024, false, false, fun _ => 0⟩ ++
    served 2 ⟨.write, 66, 512, true, false, fun _ => 3⟩

/-- the first sector is written once more; then one call of `cdp_read` takes all records -/
def lateRun : List KAct :=
  served 3 ⟨.write, 64, 512, false, false, fun _ => 4⟩ ++
    (.call 0 4096 true :: List.replicate 20 (.reader 0 true))

/-- one call of `cdp_read` -/
def readOnce : List KAct := [.call 0 4096 true] ++ List.replicate 8 (.reader 0 true)

/-- the test of `CleanAct`, one bio at a time -/
def cleanB (cfg : Config) (s : KState) : KAct → Bool
  | .map b => s.flights.all (fun f => f.stage.isEnded) && decide (0 < b.bytes)
  | .reserve i _ => decide (∀ f ∈ s.flights[i]?, ∀ a ∈ cdpMapArgs cfg f.bio, ¬Refused s.t a.payload)
  | .endIo _ error => !error
  | _ => true

theorem alone_apart (cfg : Config) {s : KState} {b : Bio}
    (h : (s.flights.all (fun f => f.stage.isEnded) && decide (0 < b.bytes)) = true) :
    (∀ f ∈ s.flights, f.stage.isEnded = false → ¬Overlap cfg b f.bio) ∧ 0 < b.bytes := by
  obtain ⟨h1, h2⟩ := (Bool.and_eq_true _ _).mp h
  refine ⟨fun f hf he => ?_, of_decide_eq_true h2⟩
  rw [List.all_eq_true.mp h1 f hf] at he
  cases he

theorem cleanAct_of_cleanB {cfg : Config} (s : KState) (a : KAct) (h : cleanB cfg s a = true) :
    CleanAct cfg s a := by
  cases a with
  | map b => exact ⟨(alone_apart cfg h).1, fun _ => (alone_apart cfg h).2⟩
  | reserve i ts => exact fun f a hf ha => of_decide_eq_true h f hf a ha
  | endIo i error =>
    change (!error) = true at h
    exact (Bool.not_eq_true' error).mp h
  | _ => trivial

/-- at the moment `m` the first sector still has its first content -/
theorem stream_reproduces_overlap : ∃ m s st, exec (kstep shiftedConfig)
      (KState.init shiftedConfig fun _ => 2) overlapRun = some m ∧
    exec (kstep shiftedConfig) m lateRun = some s ∧ Delivers shiftedConfig s 4 ∧
    [2048, 2049, 2050, 2051].map (fun i => m.dev (i * 512)) = [1, 0, 3, 2] ∧
    applyLoop ⟨fun _ => true, fun _ => true, fun _ => 0⟩ (-1) ((2 : Nat) : Int) s.out (2 + 1)
      (applyInit (fun _ => 2) [.wrote 100, .eintr]) = some (0, st) ∧
    ∀ x, st.img x = m.dev (2048 * 512 + x) := by
  have h : (exec (kstep shiftedConfig) (KState.init shiftedConfig fun _ => 2) overlapRun).any
      (fun m => m.log.length == 3 && (m.flights.all (fun f => f.stage.isEnded) &&
        ([2048, 2049, 2050, 2051].map (fun i => m.dev (i * 512)) == [1, 0, 3, 2] &&
        (exec (kstep shiftedConfig) m lateRun).any fun s => s.nread == 4 && s.lock == none))) := by
    decide +kernel
  have hclean : meetsB (kstep shiftedConfig) (cleanB shiftedConfig)
      (KState.init shiftedConfig fun _ => 2) (overlapRun ++ lateRun) = true := by
    decide +kernel
  obtain ⟨m, hm, hp⟩ := (Option.any_eq_true _ _).mp h
  simp only [Bool.and_eq_true, beq_iff_eq, List.all_eq_true] at hp
  obtain ⟨hlen, hall, hdev, hp⟩ := hp
  obtain ⟨s, hs, hq⟩ := (Option.any_eq_true _ _).mp hp
  rw [Bool.and_eq_true, beq_iff_eq, beq_iff_eq] at hq
  have hread : Delivers shiftedConfig s 4 :=
    hq.1 ▸ (KInv.reach (exec_append_some.mpr ⟨m, hm, hs⟩)).delivered hq.2
  obtain ⟨st, h1, h2⟩ := stream_reproduces shiftedConfig (fun _ => 2) overlapRun lateRun m s 2 4
    ⟨fun _ => true, fun _ => true, fun _ => 0⟩ [.wrote 100, .eintr]
    (meets_of_meetsB cleanAct_of_cleanB hclean) hm hs hlen (fun f hf _ => hall f hf) hread
    (by decide) ⟨fun _ => rfl, fun _ => rfl⟩ (by decide)
  exact ⟨m, s, st, hm, hs, hread, hdev, h1, h2⟩

end CDP
