import DmCdp.Daemon.Crash

/-!
# Reboots of the node

Boots follow one another.  A reboot ends the daemon wherever it is, the target comes back with an
empty ring and bitmap, and the disk holds what it holds by then.

* `bootStep`           the steps of a node with reboots;
* `reboot_keeps_sync`  a run in which every start of the daemon finds what `StartOk` says is in
                       sync wherever it settles in a boot without drops; bios are single steps;
* `reboot_stale`       the run in which a record was in the ring when the node went down.
-/

set_option linter.unusedVariables false

namespace CDP
open Img Mach

/-- the node boots, with `dev` on the disk; the journal is on another machine -/
def NodeSt.reboot (cfg : NodeConfig) (s : NodeSt) (dev : Nat → UInt8) : NodeSt :=
  { s.crash with q := .init cfg.target dev, boot := s.boot + 1, dropped := false }

inductive BootAct where
  | node (a : NodeAct)
  | reboot (dev : Nat → UInt8)

def bootStep (cfg : NodeConfig) (s : NodeSt) : BootAct → Option NodeSt
  | .node a => nstep cfg s a
  | .reboot dev => some (s.reboot cfg dev)

/-- nothing is asked of a reboot: the next start will find what it has left -/
def BootOk (cfg : NodeConfig) (s : NodeSt) : BootAct → Prop
  | .node a => NodeOk cfg s a
  | .reboot _ => True

theorem NodeInv.boot {cfg : NodeConfig} {s s' : NodeSt} {a : BootAct} (h : NodeInv cfg s)
    (hg : BootOk cfg s a) (hs : bootStep cfg s a = some s') : NodeInv cfg s' := by
  cases a with
  | node a => exact h.step hg hs
  | reboot dev =>
    obtain rfl := Option.some.inj hs
    exact ⟨⟨rfl, rfl⟩, fun _ e => absurd rfl e⟩

/-- **A reboot does not leave the replica stale**, in a run that meets `BootOk`. -/
theorem reboot_keeps_sync (cfg : NodeConfig) (dev img : Nat → UInt8) (as : List BootAct) (s : NodeSt)
    (hg : Meets (bootStep cfg) (BootOk cfg) (NodeSt.init cfg dev img) as)
    (h : exec (bootStep cfg) (NodeSt.init cfg dev img) as = some s) : InSync cfg s := by
  have h0 : NodeInv cfg (NodeSt.init cfg dev img) := ⟨⟨rfl, rfl⟩, fun _ e => absurd rfl e⟩
  have hi := exec_invariant_meets (P:=NodeInv cfg) (fun u a v hu hga hs => hu.boot hga hs) h0 hg h
  exact hi.inSync

/-! ## the runs -/

/-- nothing is in `pending.bin` or in the ring, and the replica is the disk -/
def startOkB (cfg : NodeConfig) (s : NodeSt) : Bool :=
  s.files.baseEnd.isNone || (s.files.pending.isNone && s.q.live.isEmpty &&
    (List.range cfg.target.size).all fun x => s.c.img x == s.q.dev x)

def bootOkB (cfg : NodeConfig) (s : NodeSt) : BootAct → Bool
  | .node .start => startOkB cfg s
  | .node a => nodeOkB s a
  | .reboot _ => true

theorem bootOk_of_test {cfg : NodeConfig} (s : NodeSt) (a : BootAct)
    (h : bootOkB cfg s a = true) : BootOk cfg s a := by
  cases a with
  | reboot dev => trivial
  | node a =>
    by_cases ha : a = .start
    · subst ha
      intro _ hbase x hx
      right
      rcases Bool.or_eq_true_iff.mp h with h1 | h1
      · exact absurd (Option.isNone_iff_eq_none.mp h1) hbase
      · simp only [Bool.and_eq_true, Option.isNone_iff_eq_none, List.isEmpty_iff] at h1
        obtain ⟨⟨h1, h2⟩, h3⟩ := h1
        unfold Feed.unread
        rw [h1, h2]
        exact fresh_nil.mpr (beq_iff_eq.mp (List.all_eq_true.mp h3 x (List.mem_range.mpr hx)))
    · refine nodeOk_of_test ?_
      cases a with
      | start => exact absurd rfl ha
      | _ => exact h

/-- a write is applied, the daemon stops, the node boots and nothing else has written the disk -/
def rebootRun : List BootAct :=
  ([.start] ++ baseCopy ++ [.bio sectorWrite 0] ++ applyOneRecord ++ [.stop, .crash]
    : List NodeAct).map .node ++ [.reboot fun _ => 1, .node .start]

theorem reboot_keeps_sync_run : ∃ s,
    exec (bootStep tinyNode) (NodeSt.init tinyNode (fun _ => 3) fun _ => 0) rebootRun = some s ∧
      (s.boot = 1 ∧ s.dropped = false ∧ Settled s ∧ s.c.img 0 = 1) ∧ InSync tinyNode s := by
  have h : (exec (bootStep tinyNode) (NodeSt.init tinyNode (fun _ => 3) fun _ => 0) rebootRun).any
      (fun s => s.boot == 1 && (!s.dropped && (settledB s && s.c.img 0 == 1))) = true := by
    decide +kernel
  obtain ⟨s, hs, hp⟩ := (Option.any_eq_true _ _).mp h
  simp only [Bool.and_eq_true, Bool.not_eq_true', beq_iff_eq] at hp
  obtain ⟨h1, h2, h3, h4⟩ := hp
  exact ⟨s, hs, ⟨h1, h2, settled_of_test h3, h4⟩,
    reboot_keeps_sync tinyNode (fun _ => 3) (fun _ => 0) rebootRun s
      (meets_of_meetsB bootOk_of_test (by decide +kernel)) hs⟩

/-- the daemon has stopped; a write reaches disk and ring, and the node boots -/
def rebootRace : List BootAct :=
  ([.start] ++ baseCopy ++ [.stop, .crash, .bio sectorWrite 0] : List NodeAct).map .node ++
    [.reboot fun _ => 1, .node .start]

/-- **The loss**: ring and bitmap are gone, and the start does nothing about it. -/
theorem reboot_stale : ∃ s,
    exec (bootStep tinyNode) (NodeSt.init tinyNode (fun _ => 3) fun _ => 0) rebootRace = some s ∧
      ¬InSync tinyNode s := by
  have h : (exec (bootStep tinyNode) (NodeSt.init tinyNode (fun _ => 3) fun _ => 0) rebootRace).any
      (fun s => !s.dropped && (settledB s && s.c.img 0 != s.q.dev 0)) = true := by
    decide +kernel
  obtain ⟨s, hs, hp⟩ := (Option.any_eq_true _ _).mp h
  simp only [Bool.and_eq_true, Bool.not_eq_true', bne_iff_ne] at hp
  exact ⟨s, hs, fun hall => hp.2.2 (hall hp.1 (settled_of_test hp.2.1) 0 (by decide))⟩

end CDP
