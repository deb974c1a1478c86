import DmCdp.Kernel.Reproduce

/-!
# One overflow episode

A run in which every drop comes when exactly `g` records have been reserved (`OverflowAct`), with no
overlap in flight and no device error, is a calm run of the commit log whose losses are marked at
record `g` at most.

* `AllMarked`         every chunk of every bio is marked, or its bit has been taken by a
                      read-and-clear;
* `overflow_content`  once all has completed, the records from `g` on leave the device's content
                      wherever they write; elsewhere a byte that no dropped bio wrote has what the
                      records before `g` leave.
-/

set_option linter.unusedVariables false

namespace CDP
open Img Mach

/-- the drops fall before record `g`; a bit that a read-and-clear takes is not lost, and nothing is
re-read during the run -/
def OverflowAct (cfg : Config) (g : Nat) (s : KState) : KAct → Prop
  | .map b => (∀ f ∈ s.flights, f.stage.isEnded = false → ¬Overlap cfg b f.bio) ∧
      ((b.op = .discard ∨ b.op = .secureErase ∨ b.op = .writeZeroes) → 0 < b.bytes)
  | .reserve i _ => ∀ f a, s.flights[i]? = some f → cdpMapArgs cfg f.bio = some a →
      Refused s.t a.payload → s.log.length = g
  | .endIo _ error => error = false
  | .clearDone ok => ok = true
  | .reread _ => False
  | _ => True

section
variable {cfg : Config} {g : Nat} {s s' : KState} {a : KAct}

theorem OverflowAct.quiet (h : OverflowAct cfg g s a) : QuietAct cfg s a := by
  cases a with
  | map b => exact h.1
  | endIo i error => exact h
  | _ => trivial

theorem OverflowAct.faultless (h : OverflowAct cfg g s a) : FaultlessAct a := by
  cases a with
  | map b => exact h.2
  | endIo i error => exact h
  | _ => trivial

theorem OverflowAct.drops (h : OverflowAct cfg g s a) : DropsAt cfg (fun n => n = g) s a := by
  cases a with
  | reserve i ts => exact h
  | _ => trivial

/-! ## the bitmap -/

/-- every chunk of every bio is dirty, or its bit has been taken by a read-and-clear -/
structure AllMarked (cfg : Config) (s : KState) : Prop where
  chunk : s.t.chunkSectors = cfg.chunkSectors
  nbits : s.t.nbits = cfg.nbits
  tmp : ∀ c, s.tmp c = true → ∃ w, s.word = some w ∧ c / 64 < w
  all : ∀ f ∈ s.flights, ∀ c, f.bio.touches cfg c → Pending s c

theorem AllMarked.step (hk : KInv cfg s) (h : AllMarked cfg s)
    (hg : OverflowAct cfg g s a) (hs : kstep cfg s a = some s') : AllMarked cfg s' := by
  have hb : BitsKept s s' := by
    refine bits_kept hk h.tmp ?_ ?_ hs
    · rintro c rfl
      exact hg
    · rintro rfl
      exact Bool.false_ne_true hg
  refine ⟨hb.chunk.trans h.chunk, hb.nbits.trans h.nbits, hb.tmp, fun f' hf' c hc => ?_⟩
  obtain ⟨j, hj⟩ := List.mem_iff_getElem?.mp hf'
  rcases flight_cases hk hs hj with ⟨b, st, rfl, _, rfl, _⟩ | ⟨f, hf, hm⟩
  · obtain ⟨hok, _, ⟨ha, _⟩ | ⟨a, ha, rfl⟩⟩ := map_cases hs
    · exact absurd hc (not_touches ha)
    · exact Or.inl (mark_touches h.chunk h.nbits hok ha hc)
  · exact hb.pending c (h.all f (List.mem_of_getElem? hf) c (hm.bio ▸ hc))

end

/-! ## when all has completed -/

/-- the records before `g`, and those from `g` on -/
def preGap (g : Nat) (s : KState) : List SRec := (s.log.take g).map Entry.srec
def postGap (g : Nat) (s : KState) : List SRec := (s.log.drop g).map Entry.srec

section
variable {cfg : Config} {dev0 : Nat → UInt8} {g : Nat} {run : List KAct} {s : KState}

theorem overflow_cut (hrun : Meets (kstep cfg) (OverflowAct cfg g) (KState.init cfg dev0) run)
    (hs : exec (kstep cfg) (KState.init cfg dev0) run = some s) :
    CommitLog.Cut (fun n => n = g) (s.commits cfg) :=
  commits_cut (hrun.imp fun _ _ => OverflowAct.drops) hs

theorem overflow_faultless
    (hrun : Meets (kstep cfg) (OverflowAct cfg g) (KState.init cfg dev0) run)
    (hs : exec (kstep cfg) (KState.init cfg dev0) run = some s) : Faultless s :=
  Faultless.reach (hrun.imp fun _ _ => OverflowAct.faultless) hs

theorem commits_patches (l : List Entry) :
    (l.map Entry.srec).map SRec.patch = (l.map Entry.commit).map CommitLog.Rec.patch := by
  rw [List.map_map, List.map_map]
  rfl

/-- **The device after the gap**: where the records from `g` on write, they leave what the device
has; elsewhere a byte that no dropped bio wrote has what the records before `g` leave. -/
theorem overflow_content
    (hrun : Meets (kstep cfg) (OverflowAct cfg g) (KState.init cfg dev0) run)
    (hs : exec (kstep cfg) (KState.init cfg dev0) run = some s) (hg : g < s.log.length)
    (hdone : ∀ f ∈ s.flights, f.stage.isEnded = true) (x : Nat) (y : UInt8)
    (hy : y = s.dev (cfg.start * 512 + x) ∨
      y = replay ((preGap g s).map SRec.patch) (fun y => dev0 (cfg.start * 512 + y)) x ∧
        CommitLog.Unlost (s.commits cfg) x) :
    (net ((postGap g s).map SRec.patch) x).getD y = s.dev (cfg.start * 512 + x) := by
  have hcut := overflow_cut hrun hs
  have hord := commits_ordered (hrun.imp fun _ _ => OverflowAct.quiet) hs
  have hset := commits_settled (KInv.reach hs) (overflow_faultless hrun hs) fun f hf _ => hdone f hf
  have hpend : (s.commits cfg).pending = false := by
    rw [← Bool.not_eq_true]
    intro hp
    have hlen : (s.log.map Entry.commit).length = g := hcut.pending hp
    rw [List.length_map] at hlen
    omega
  have hrecs : (s.commits cfg).recs = s.log.map Entry.commit := rfl
  have hpost : (postGap g s).map SRec.patch
      = ((s.commits cfg).recs.drop g).map CommitLog.Rec.patch := by
    unfold postGap
    rw [commits_patches, hrecs, List.map_drop]
  rcases hy with rfl | ⟨rfl, hu⟩
  · rw [hpost]
    exact hord.content hset hpend (Or.inr fun k r hr hgap => (hcut.gap k r hr hgap).le)
  · have hall : (preGap g s).map SRec.patch ++ (postGap g s).map SRec.patch
        = (s.commits cfg).recs.map CommitLog.Rec.patch := by
      unfold preGap postGap
      rw [commits_patches, commits_patches, ← List.map_append, ← List.map_append,
        List.take_append_drop]
      rfl
    rw [← replay_apply, ← replay_append, replay_apply, hall]
    exact hord.whole hset hpend hu

end

end CDP
