import DmCdp.Kernel.Lifetime
import DmCdp.Lib.Names

/-!
# All targets of the module

Any number of targets, each between `cdp_ctr` and the last `cdp_release`, statement by statement:
the allocations of `cdp_ctr` with the labels that undo them, `cdp_open`, `cdp_release`, `cdp_dtr`
and `cdp_free`, with the minors in `cdp_ida`, the character devices and the device nodes.

* `Reg.ctrNext`      the next statement of a `cdp_ctr`, any of which may fail; `Reg.dtrNext`;
* `CtrPc.level`      how many of the acquisitions of `cdp_ctr` are undone at each label;
* `Tgt.Ok`           what a target holds is what its place in the code says;
* `RegInv`           with it, each minor, device and node is that of one target;
* `RegOk`            no reference to a target that is freed or taken down, and none from outside
                     when `cdp_ctr` fails behind `cdev_add`;
* `registry_sound`   in every such run nothing is released twice, a minor leads to its target, and
                     when all is over nothing is left.
-/

set_option linter.unusedVariables false

namespace CDP
open Mach Names Slots

/-! ## state -/

def MaxMinors : Nat := 64

/-- what a target owns alone; the minor comes from `cdp_ida` -/
inductive Res where
  | context
  | device
  | ring
  | bitmap
  | cdev
  | node
  deriving DecidableEq

/-- the next statement of `cdp_ctr`, or the label it is at -/
inductive CtrPc where
  | args
  | kzalloc
  | getDevice
  | vmalloc
  | bitmapZalloc
  | idaAlloc
  | cdevAdd
  | deviceCreate
  | maxIoLen
  | errDevice
  | errCdev
  | errIda
  | errBitmap
  | errRing
  | errDev
  | errFree
  | failed
  | ready
  deriving DecidableEq

structure Tgt where
  pc : CtrPc
  own : Res → Bool
  minor : Option Nat
  kref : Kref
  dead : Bool
  dtr : DtrPc
  -- opens that have found the device, that have passed the test of `dead`, and descriptors
  looked : Nat
  tested : Nat
  files : Nat

def Tgt.new : Tgt := ⟨.args, fun _ => false, none, .init, false, .attached, 0, 0, 0⟩

structure Reg where
  tgts : List Tgt
  -- `cdp_ida`; ghost: who has the minor
  ida : Nat → Option Nat
  cdevs : Nat → Option Nat
  nodes : Nat → Option Nat
  -- ghost: releases of what is not held and acquisitions of what is, names that existed
  faults : Nat
  clashes : Nat

def Reg.init : Reg := ⟨[], fun _ => none, fun _ => none, fun _ => none, 0, 0⟩

def Reg.put (g : Reg) (i : Nat) (t : Tgt) : Reg := { g with tgts := g.tgts.set i t }

def Tgt.goto (t : Tgt) (pc : CtrPc) : Tgt := { t with pc := pc }

def Tgt.gain (t : Tgt) (r : Res) : Tgt := { t with own := Function.update t.own r true }

def Tgt.lose (t : Tgt) (r : Res) : Tgt := { t with own := Function.update t.own r false }

def Reg.fault (g : Reg) (b : Bool) : Reg := { g with faults := if b then g.faults + 1 else g.faults }

/-! ## `cdp_ctr` -/

/-- `ida_alloc_max(&cdp_ida, CDP_MAX_MINORS - 1, …)`: the smallest free number -/
def Reg.freeMinor (g : Reg) : Option Nat :=
  (List.range MaxMinors).find? fun m => (g.ida m).isNone

/-- an acquisition that may fail -/
def Reg.acquire (g : Reg) (i : Nat) (t : Tgt) (ok : Bool) (r : Res) (next err : CtrPc) : Reg :=
  if ok then (g.put i ((t.gain r).goto next)).fault (t.own r) else g.put i (t.goto err)

def Reg.release (g : Reg) (i : Nat) (t : Tgt) (r : Res) (next : CtrPc) : Reg :=
  (g.put i ((t.lose r).goto next)).fault (!t.own r)

/-- the next statement of the `cdp_ctr` of target `i`; `ok` is whether what it calls succeeds -/
def Reg.ctrNext (g : Reg) (i : Nat) (t : Tgt) (ok : Bool) : Option Reg :=
  match t.pc with
  | .args => some (g.put i (t.goto (if ok then .kzalloc else .failed)))
  | .kzalloc => some (g.acquire i t ok .context .getDevice .failed)
  | .getDevice => some (g.acquire i t ok .device .vmalloc .errFree)
  | .vmalloc => some (g.acquire i t ok .ring .bitmapZalloc .errDev)
  | .bitmapZalloc => some (g.acquire i t ok .bitmap .idaAlloc .errRing)
  | .idaAlloc =>
    match (if ok then g.freeMinor else none) with
    | none => some (g.put i (t.goto .errBitmap))
    | some m => some { g.put i ({ t with minor := some m }.goto .cdevAdd) with
        ida := Function.update g.ida m (some i) }
  | .cdevAdd => t.minor.map fun m =>
    { g.acquire i t ok .cdev .deviceCreate .errIda with
      cdevs := if ok then Function.update g.cdevs m (some i) else g.cdevs }
  | .deviceCreate => t.minor.map fun m =>
    let free := (g.nodes m).isNone
    { g.acquire i t (ok && free) .node .maxIoLen .errCdev with
      nodes := if ok && free then Function.update g.nodes m (some i) else g.nodes
      clashes := if free then g.clashes else g.clashes + 1 }
  | .maxIoLen => some (g.put i (t.goto (if ok then .ready else .errDevice)))
  | .errDevice => t.minor.map fun m =>
    { g.release i t .node .errCdev with nodes := Function.update g.nodes m none }
  | .errCdev => t.minor.map fun m =>
    { g.release i t .cdev .errIda with cdevs := Function.update g.cdevs m none }
  | .errIda => t.minor.map fun m =>
    { (g.put i ({ t with minor := none }.goto .errBitmap)).fault (g.ida m).isNone with
      ida := Function.update g.ida m none }
  | .errBitmap => some (g.release i t .bitmap .errRing)
  | .errRing => some (g.release i t .ring .errDev)
  | .errDev => some (g.release i t .device .errFree)
  | .errFree => some (g.release i t .context .failed)
  | .failed | .ready => none

/-! ## `cdp_dtr`, `cdp_open`, `cdp_release` -/

/-- `kref_put(&t->kref, cdp_free)` -/
def Reg.putRef (g : Reg) (i : Nat) (t : Tgt) : Option Reg :=
  let t' := { t with kref := t.kref.put }
  if t.kref.refs = 1 then
    -- `cdp_free`
    t.minor.map fun m =>
      { (g.put i (((t'.lose .ring).lose .bitmap).lose .context)).fault
          (!(t.own .ring && t.own .bitmap && t.own .context && (g.ida m).isSome)) with
        ida := Function.update g.ida m none }
  else some (g.put i t')

/-- the next statement of `cdp_dtr` -/
def Reg.dtrNext (g : Reg) (i : Nat) (t : Tgt) : Option Reg :=
  match t.dtr with
  | .attached => some (g.put i { t with dead := true, dtr := .dead })
  | .dead => t.minor.map fun m =>
    { (g.put i { t.lose .node with dtr := .deviceDestroyed }).fault (!t.own .node) with
      nodes := Function.update g.nodes m none }
  | .deviceDestroyed => t.minor.map fun m =>
    { (g.put i { t.lose .cdev with dtr := .cdevDeleted }).fault (!t.own .cdev) with
      cdevs := Function.update g.cdevs m none }
  | .cdevDeleted =>
    some ((g.put i { t.lose .device with dtr := .devicePut }).fault (!t.own .device))
  | .devicePut => g.putRef i { t with dtr := .refPut }
  | .refPut => some (g.put i { t with dtr := .returned })
  | .returned => none

inductive RegAct where
  | create
  | ctr (i : Nat) (ok : Bool)
  | dtr (i : Nat)
  -- an open of minor `m`, and its steps in `cdp_open`; `stale` is what lies in `t->dead` once `t`
  -- is freed
  | lookup (m : Nat)
  | test (i : Nat) (stale : Bool)
  | get (i : Nat)
  | release (i : Nat)

def regStep (g : Reg) : RegAct → Option Reg
  | .create => some { g with tgts := g.tgts ++ [Tgt.new] }
  | .ctr i ok => g.tgts[i]?.bind fun t => g.ctrNext i t ok
  | .dtr i => g.tgts[i]?.bind fun t => if t.pc = .ready then g.dtrNext i t else none
  | .lookup m => (g.cdevs m).bind fun i => g.tgts[i]?.bind fun t =>
    some (g.put i { t with looked := t.looked + 1 })
  | .test i stale => g.tgts[i]?.bind fun t =>
    if 0 < t.looked then
      some (g.put i { t with
        looked := t.looked - 1
        tested := if (if t.own .context then t.dead else stale) then t.tested else t.tested + 1 })
    else none
  | .get i => g.tgts[i]?.bind fun t =>
    if 0 < t.tested then
      some (g.put i { t with tested := t.tested - 1, files := t.files + 1, kref := t.kref.get })
    else none
  | .release i => g.tgts[i]?.bind fun t =>
    if 0 < t.files then g.putRef i { t with files := t.files - 1 } else none

/-! ## what a target holds -/

/-- how many of `kzalloc`, `dm_get_device`, `vmalloc`, `bitmap_zalloc`, `ida_alloc_max`, `cdev_add`,
`device_create` are done and not undone -/
def CtrPc.level : CtrPc → Nat
  | .args | .kzalloc | .failed => 0
  | .getDevice | .errFree => 1
  | .vmalloc | .errDev => 2
  | .bitmapZalloc | .errRing => 3
  | .idaAlloc | .errBitmap => 4
  | .cdevAdd | .errIda => 5
  | .deviceCreate | .errCdev => 6
  | .maxIoLen | .errDevice | .ready => 7

def Res.level : Res → Nat
  | .context => 1
  | .device => 2
  | .ring => 3
  | .bitmap => 4
  | .cdev => 6
  | .node => 7

/-- how far `cdp_dtr` is -/
def DtrPc.level : DtrPc → Nat
  | .attached => 0
  | .dead => 1
  | .deviceDestroyed => 2
  | .cdevDeleted => 3
  | .devicePut => 4
  | .refPut => 5
  | .returned => 6

theorem DtrPc.refGone_early {d : DtrPc} (h : d.level < 5) : d.refGone = false := by
  cases d with
  | refPut => exact absurd h (by decide)
  | returned => exact absurd h (by decide)
  | attached | dead | deviceDestroyed | cdevDeleted | devicePut => rfl

/-- what is left of it behind the statements of `cdp_dtr` and `cdp_free` -/
def Tgt.kept (t : Tgt) : Res → Bool
  | .node => decide (t.dtr.level < 2)
  | .cdev => decide (t.dtr.level < 3)
  | .device => decide (t.dtr.level < 4)
  | _ => decide (t.kref.refs ≠ 0)

def Tgt.holds (t : Tgt) (r : Res) : Bool := decide (r.level ≤ t.pc.level) && t.kept r

/-- `cdp_dtr` and the descriptors hold the references -/
def Tgt.refs (t : Tgt) : Nat := t.files + if t.dtr.refGone then 0 else 1

structure Tgt.Ok (t : Tgt) : Prop where
  own : ∀ r, t.own r = t.holds r
  kref : t.kref.Counts t.refs
  minor : t.minor.isSome = decide (5 ≤ t.pc.level)
  small : ∀ m, t.minor = some m → m < MaxMinors
  dtr : t.pc ≠ .ready → t.dtr = .attached
  files : t.pc ≠ .ready → t.pc ≠ .deviceCreate → t.pc ≠ .maxIoLen → t.files = 0

/-- the minor, while it is in `cdp_ida` -/
def Tgt.minorOf (t : Tgt) : Option Nat := if t.kref.refs = 0 then none else t.minor
def Tgt.cdevOf (t : Tgt) : Option Nat := if t.own .cdev then t.minor else none
def Tgt.nodeOf (t : Tgt) : Option Nat := if t.own .node then t.minor else none

structure RegInv (g : Reg) : Prop where
  tgt : ∀ t ∈ g.tgts, t.Ok
  ida : Index g.tgts Tgt.minorOf g.ida
  cdevs : Index g.tgts Tgt.cdevOf g.cdevs
  nodes : Index g.tgts Tgt.nodeOf g.nodes
  faults : g.faults = 0
  clashes : g.clashes = 0

/-! ## one target -/

theorem Tgt.Ok.refs_pos {t : Tgt} (h : t.Ok) (hpc : t.pc ≠ .ready) : t.kref.refs ≠ 0 := by
  rw [h.kref.refs]
  unfold Tgt.refs
  rw [h.dtr hpc]
  exact Nat.succ_ne_zero t.files

theorem Tgt.Ok.own_level {t : Tgt} (h : t.Ok) (hpc : t.pc ≠ .ready) (r : Res) :
    t.own r = decide (r.level ≤ t.pc.level) := by
  have hk : t.kept r = true := by
    unfold Tgt.kept
    rw [h.dtr hpc]
    cases r <;> simp [DtrPc.level, h.refs_pos hpc]
  rw [h.own r]
  unfold Tgt.holds
  rw [hk, Bool.and_true]

theorem Tgt.ok_of_level {t : Tgt} (hd : t.dtr = .attached) (hk : t.kref.Counts (t.files + 1))
    (ho : ∀ r, t.own r = decide (r.level ≤ t.pc.level))
    (hm : t.minor.isSome = decide (5 ≤ t.pc.level)) (hs : ∀ m, t.minor = some m → m < MaxMinors)
    (hf : t.pc ≠ .ready → t.pc ≠ .deviceCreate → t.pc ≠ .maxIoLen → t.files = 0) : t.Ok := by
  have hr : t.kref.refs ≠ 0 := by
    rw [hk.refs]
    exact Nat.succ_ne_zero t.files
  refine ⟨fun r => ?_, ?_, hm, hs, fun _ => hd, hf⟩
  · have hkept : t.kept r = true := by
      unfold Tgt.kept
      rw [hd]
      cases r <;> simp [DtrPc.level, hr]
    unfold Tgt.holds
    rw [hkept, Bool.and_true]
    exact ho r
  · unfold Tgt.refs
    rw [hd]
    exact hk

theorem Tgt.Ok.counts {t : Tgt} (h : t.Ok) (hpc : t.pc ≠ .ready) :
    t.kref.Counts (t.files + 1) := by
  have := h.kref
  unfold Tgt.refs at this
  rw [h.dtr hpc] at this
  exact this

theorem Tgt.Ok.goto {t : Tgt} (h : t.Ok) (hpc : t.pc ≠ .ready) (pc : CtrPc)
    (hl : pc.level = t.pc.level)
    (hf : pc ≠ .ready → pc ≠ .deviceCreate → pc ≠ .maxIoLen → t.files = 0) : (t.goto pc).Ok := by
  refine Tgt.ok_of_level (h.dtr hpc) (h.counts hpc) (fun r => ?_) ?_ h.small hf
  · show t.own r = decide (r.level ≤ pc.level)
    rw [hl]
    exact h.own_level hpc r
  · show t.minor.isSome = decide (5 ≤ pc.level)
    rw [hl]
    exact h.minor

theorem level_le_succ (r r' : Res) {n : Nat} (h : r.level = n + 1) :
    decide (r'.level ≤ n + 1) = (decide (r' = r) || decide (r'.level ≤ n)) := by
  cases r <;> obtain rfl := Nat.succ.inj h <;> cases r' <;> rfl

theorem Tgt.Ok.gain {t : Tgt} (h : t.Ok) (hpc : t.pc ≠ .ready) {r : Res} {p : CtrPc}
    (hr : r.level = t.pc.level + 1) (hl : p.level = t.pc.level + 1)
    (hf : p ≠ .ready → p ≠ .deviceCreate → p ≠ .maxIoLen → t.files = 0) :
    ((t.gain r).goto p).Ok ∧ t.own r = false := by
  have hno : t.own r = false := by
    rw [h.own_level hpc, hr]
    simp
  have hr5 : r.level ≠ 5 := by cases r <;> decide
  refine ⟨Tgt.ok_of_level (h.dtr hpc) (h.counts hpc) (fun r' => ?_) ?_ h.small hf, hno⟩
  · show Function.update t.own r true r' = decide (r'.level ≤ p.level)
    rw [hl, level_le_succ r r' hr]
    by_cases he : r' = r
    · subst he
      simp
    · rw [Function.update_of_ne he, h.own_level hpc]
      simp [he]
  · show t.minor.isSome = decide (5 ≤ p.level)
    rw [h.minor, hl]
    exact decide_eq_decide.mpr (by omega)

theorem Tgt.Ok.lose {t : Tgt} (h : t.Ok) (hpc : t.pc ≠ .ready) {r : Res} {p : CtrPc}
    (hr : r.level = p.level + 1) (hl : t.pc.level = p.level + 1) (hf : t.files = 0) :
    ((t.lose r).goto p).Ok ∧ t.own r = true := by
  have hyes : t.own r = true := by
    rw [h.own_level hpc, hl, hr]
    simp
  have hr5 : r.level ≠ 5 := by cases r <;> decide
  refine ⟨Tgt.ok_of_level (h.dtr hpc) (h.counts hpc) (fun r' => ?_) ?_ h.small fun _ _ _ => hf, hyes⟩
  · show Function.update t.own r false r' = decide (r'.level ≤ p.level)
    by_cases he : r' = r
    · subst he
      simp [hr]
    · rw [Function.update_of_ne he, h.own_level hpc, hl, level_le_succ r r' hr]
      simp [he]
  · show t.minor.isSome = decide (5 ≤ p.level)
    rw [h.minor, hl]
    exact decide_eq_decide.mpr (by omega)

/-! ## the steps -/

section
variable {g g' : Reg} {i : Nat} {t t' : Tgt}

theorem mem_put (h : ∀ t ∈ g.tgts, t.Ok) (ht : t'.Ok) : ∀ x ∈ g.tgts.set i t', x.Ok := by
  intro x hx
  rcases List.mem_or_eq_of_mem_set hx with hx | rfl
  · exact h x hx
  · exact ht

theorem RegInv.put (h : RegInv g) (hi : g.tgts[i]? = some t) (ht : t'.Ok)
    (hm : t'.minorOf = t.minorOf) (hc : t'.cdevOf = t.cdevOf) (hn : t'.nodeOf = t.nodeOf) :
    RegInv (g.put i t') :=
  ⟨mem_put h.tgt ht, h.ida.keep hi hm, h.cdevs.keep hi hc, h.nodes.keep hi hn, h.faults, h.clashes⟩

theorem RegInv.acquire (h : RegInv g) (hi : g.tgts[i]? = some t) {ok : Bool} {r : Res}
    {next err : CtrPc} (hgain : ((t.gain r).goto next).Ok ∧ t.own r = false) (herr : (t.goto err).Ok)
    (hc : r ≠ .cdev) (hn : r ≠ .node) : RegInv (g.acquire i t ok r next err) := by
  unfold Reg.acquire
  cases ok with
  | false => exact h.put hi herr rfl rfl rfl
  | true =>
    rw [hgain.2, if_pos rfl]
    refine h.put hi hgain.1 rfl ?_ ?_
    · simp [Tgt.cdevOf, Tgt.goto, Tgt.gain, Function.update_of_ne (Ne.symm hc)]
    · simp [Tgt.nodeOf, Tgt.goto, Tgt.gain, Function.update_of_ne (Ne.symm hn)]

theorem RegInv.release (h : RegInv g) (hi : g.tgts[i]? = some t) {r : Res} {next : CtrPc}
    (hlose : ((t.lose r).goto next).Ok ∧ t.own r = true) (hc : r ≠ .cdev) (hn : r ≠ .node) :
    RegInv (g.release i t r next) := by
  unfold Reg.release
  rw [hlose.2]
  refine h.put hi hlose.1 rfl ?_ ?_
  · simp [Tgt.cdevOf, Tgt.goto, Tgt.lose, Function.update_of_ne (Ne.symm hc)]
  · simp [Tgt.nodeOf, Tgt.goto, Tgt.lose, Function.update_of_ne (Ne.symm hn)]

theorem freeMinor_spec {m : Nat} (h : g.freeMinor = some m) : g.ida m = none ∧ m < MaxMinors := by
  have h1 := List.find?_some h
  have h2 := List.mem_of_find?_eq_some h
  exact ⟨Option.isNone_iff_eq_none.mp h1, List.mem_range.mp h2⟩

theorem Tgt.Ok.minorOf {m : Nat} (h : t.Ok) (hr : t.kref.refs ≠ 0) (hm : t.minor = some m) :
    t.minorOf = some m := by
  unfold Tgt.minorOf
  rw [if_neg hr, hm]

theorem RegInv.name_free {f : Tgt → Option Nat} {tab : Nat → Option Nat} {m : Nat} (h : RegInv g)
    (hi : g.tgts[i]? = some t) (hr : t.kref.refs ≠ 0) (hm : t.minor = some m)
    (hx : Index g.tgts f tab) (hf : ∀ t : Tgt, t.Ok → ∀ k, f t = some k → t.minorOf = some k)
    (hn : f t = none) : tab m = none := by
  cases hk : tab m with
  | none => rfl
  | some j =>
    obtain ⟨t', ht', hft⟩ := (hx m j).mp hk
    have hok := h.tgt t (List.mem_of_getElem? hi)
    have hm' := hf t' (h.tgt t' (List.mem_of_getElem? ht')) m hft
    obtain rfl := h.ida.unique hi ht' (hok.minorOf hr hm) hm'
    obtain rfl := Option.some.inj (hi.symm.trans ht')
    rw [hn] at hft
    cases hft

theorem Tgt.Ok.early_refs (h : t.Ok) {r : Res} (hr : r = .cdev ∨ r = .node) (ho : t.own r = true) :
    t.kref.refs ≠ 0 := by
  have hh := h.own r
  rw [ho] at hh
  have hk : t.kept r = true := ((Bool.and_eq_true _ _).mp hh.symm).2
  have hlt : t.dtr.level < 5 := by
    rcases hr with rfl | rfl
    · exact Nat.lt_trans (of_decide_eq_true hk) (by decide)
    · exact Nat.lt_trans (of_decide_eq_true hk) (by decide)
  have hd : t.dtr.refGone = false := DtrPc.refGone_early hlt
  rw [h.kref.refs]
  unfold Tgt.refs
  rw [hd]
  exact Nat.succ_ne_zero t.files

theorem Tgt.Ok.cdevOf (h : t.Ok) (k : Nat) (hk : t.cdevOf = some k) : t.minorOf = some k := by
  unfold Tgt.cdevOf at hk
  split at hk
  · exact h.minorOf (h.early_refs (Or.inl rfl) ‹_›) hk
  · cases hk

theorem Tgt.Ok.nodeOf (h : t.Ok) (k : Nat) (hk : t.nodeOf = some k) : t.minorOf = some k := by
  unfold Tgt.nodeOf at hk
  split at hk
  · exact h.minorOf (h.early_refs (Or.inr rfl) ‹_›) hk
  · cases hk

/-- between `cdp_ctr` and its return nobody has opened the target, but at two statements -/
theorem Tgt.Ok.closed (h : t.Ok) {pc : CtrPc} (hpc : t.pc = pc)
    (hn : pc ≠ .ready ∧ pc ≠ .deviceCreate ∧ pc ≠ .maxIoLen) : t.pc ≠ .ready ∧ t.files = 0 := by
  subst hpc
  exact ⟨hn.1, h.files hn.1 hn.2.1 hn.2.2⟩

theorem RegInv.acquires {ok : Bool} {pc next err : CtrPc} {r : Res} (h : RegInv g)
    (hi : g.tgts[i]? = some t) (hpc : t.pc = pc)
    (hn : pc ≠ .ready ∧ pc ≠ .deviceCreate ∧ pc ≠ .maxIoLen) (hr : r.level = pc.level + 1)
    (hnext : next.level = pc.level + 1) (herr : err.level = pc.level) (hc : r ≠ .cdev)
    (hd : r ≠ .node) : RegInv (g.acquire i t ok r next err) := by
  have ht := h.tgt t (List.mem_of_getElem? hi)
  obtain ⟨hne, hf⟩ := ht.closed hpc hn
  subst hpc
  exact h.acquire hi (ht.gain hne hr hnext fun _ _ _ => hf)
    (ht.goto hne err herr fun _ _ _ => hf) hc hd

theorem RegInv.releases {pc next : CtrPc} {r : Res} (h : RegInv g) (hi : g.tgts[i]? = some t)
    (hpc : t.pc = pc) (hn : pc ≠ .ready ∧ pc ≠ .deviceCreate ∧ pc ≠ .maxIoLen)
    (hr : r.level = next.level + 1) (hl : pc.level = next.level + 1) (hc : r ≠ .cdev)
    (hd : r ≠ .node) : RegInv (g.release i t r next) := by
  have ht := h.tgt t (List.mem_of_getElem? hi)
  obtain ⟨hne, hf⟩ := ht.closed hpc hn
  subst hpc
  exact h.release hi (ht.lose hne hr hl hf) hc hd

theorem RegInv.idaAlloc {m : Nat} (h : RegInv g) (hi : g.tgts[i]? = some t) (hpc : t.pc = .idaAlloc)
    (hfm : g.freeMinor = some m) : RegInv { g.put i ({ t with minor := some m }.goto .cdevAdd) with
      ida := Function.update g.ida m (some i) } := by
  have ht := h.tgt t (List.mem_of_getElem? hi)
  obtain ⟨hne, hf⟩ := ht.closed hpc (by decide)
  obtain ⟨hfr, hlt⟩ := freeMinor_spec hfm
  have hown : ∀ r, t.own r = decide (r.level ≤ 4) := fun r => by
    rw [ht.own_level hne r, hpc]
    rfl
  have hno : t.minor = none := by
    have := ht.minor
    rw [hpc] at this
    exact Option.isNone_iff_eq_none.mp (Option.isSome_eq_false_iff.mp this)
  have ht' : ({ t with minor := some m }.goto .cdevAdd).Ok := by
    refine Tgt.ok_of_level (ht.dtr hne) (ht.counts hne) (fun r => (hown r).trans ?_) rfl
      (fun k hk => Option.some.inj hk ▸ hlt) fun _ _ _ => hf
    cases r <;> rfl
  refine ⟨mem_put h.tgt ht', h.ida.claim hi ?_ hfr ?_, h.cdevs.keep hi ?_, h.nodes.keep hi ?_,
    h.faults, h.clashes⟩
  · simp [Tgt.minorOf, hno]
  · simp [Tgt.minorOf, Tgt.goto, ht.refs_pos hne]
  · simp [Tgt.cdevOf, Tgt.goto, hown, Res.level]
  · simp [Tgt.nodeOf, Tgt.goto, hown, Res.level]

theorem RegInv.cdevAdd {m : Nat} (h : RegInv g) (hi : g.tgts[i]? = some t) (hpc : t.pc = .cdevAdd)
    (hm : t.minor = some m) : RegInv { g.acquire i t true .cdev .deviceCreate .errIda with
      cdevs := Function.update g.cdevs m (some i) } := by
  have ht := h.tgt t (List.mem_of_getElem? hi)
  obtain ⟨hne, hf⟩ := ht.closed hpc (by decide)
  obtain ⟨hg, ho⟩ := ht.gain hne (r:=.cdev) (p:=.deviceCreate) (by rw [hpc]; rfl)
    (by rw [hpc]; rfl) fun _ _ _ => hf
  have hn : t.cdevOf = none := by simp [Tgt.cdevOf, ho]
  have hfr := h.name_free hi (ht.refs_pos hne) hm h.cdevs (fun t ht => ht.cdevOf) hn
  unfold Reg.acquire
  rw [ho, if_pos rfl]
  refine ⟨mem_put h.tgt hg, h.ida.keep hi rfl, h.cdevs.claim hi hn hfr ?_, h.nodes.keep hi ?_,
    h.faults, h.clashes⟩
  · simp [Tgt.cdevOf, Tgt.goto, Tgt.gain, hm]
  · simp [Tgt.nodeOf, Tgt.goto, Tgt.gain, Function.update_of_ne]

theorem RegInv.node_free {m : Nat} (h : RegInv g) (hi : g.tgts[i]? = some t)
    (hpc : t.pc = .deviceCreate) (hm : t.minor = some m) : t.nodeOf = none ∧ g.nodes m = none := by
  have ht := h.tgt t (List.mem_of_getElem? hi)
  have hne : t.pc ≠ .ready := by rw [hpc]; decide
  have ho : t.own .node = false := by
    rw [ht.own_level hne, hpc]
    rfl
  have hn : t.nodeOf = none := by simp [Tgt.nodeOf, ho]
  exact ⟨hn, h.name_free hi (ht.refs_pos hne) hm h.nodes (fun t ht => ht.nodeOf) hn⟩

theorem RegInv.deviceCreate {m : Nat} (h : RegInv g) (hi : g.tgts[i]? = some t)
    (hpc : t.pc = .deviceCreate) (hm : t.minor = some m) :
    RegInv { g.acquire i t true .node .maxIoLen .errCdev with
      nodes := Function.update g.nodes m (some i) } := by
  have ht := h.tgt t (List.mem_of_getElem? hi)
  have hne : t.pc ≠ .ready := by rw [hpc]; decide
  obtain ⟨hg, ho⟩ := ht.gain hne (r:=.node) (p:=.maxIoLen) (by rw [hpc]; rfl)
    (by rw [hpc]; rfl) fun _ _ e => absurd rfl e
  obtain ⟨hn, hfr⟩ := h.node_free hi hpc hm
  unfold Reg.acquire
  rw [ho, if_pos rfl]
  refine ⟨mem_put h.tgt hg, h.ida.keep hi rfl, h.cdevs.keep hi ?_, h.nodes.claim hi hn hfr ?_,
    h.faults, h.clashes⟩
  · simp [Tgt.cdevOf, Tgt.goto, Tgt.gain, Function.update_of_ne]
  · simp [Tgt.nodeOf, Tgt.goto, Tgt.gain, hm]

theorem RegInv.errDevice {m : Nat} (h : RegInv g) (hi : g.tgts[i]? = some t)
    (hpc : t.pc = .errDevice) (hm : t.minor = some m) :
    RegInv { g.release i t .node .errCdev with nodes := Function.update g.nodes m none } := by
  have ht := h.tgt t (List.mem_of_getElem? hi)
  obtain ⟨hne, hf⟩ := ht.closed hpc (by decide)
  obtain ⟨hl, ho⟩ := ht.lose hne (r:=.node) (p:=.errCdev) rfl (by rw [hpc]; rfl) hf
  unfold Reg.release
  rw [ho]
  refine ⟨mem_put h.tgt hl, h.ida.keep hi rfl, h.cdevs.keep hi ?_, h.nodes.drop hi ?_ ?_,
    h.faults, h.clashes⟩
  · simp [Tgt.cdevOf, Tgt.goto, Tgt.lose, Function.update_of_ne]
  · simp [Tgt.nodeOf, ho, hm]
  · simp [Tgt.nodeOf, Tgt.goto, Tgt.lose]

theorem RegInv.errCdev {m : Nat} (h : RegInv g) (hi : g.tgts[i]? = some t) (hpc : t.pc = .errCdev)
    (hm : t.minor = some m) :
    RegInv { g.release i t .cdev .errIda with cdevs := Function.update g.cdevs m none } := by
  have ht := h.tgt t (List.mem_of_getElem? hi)
  obtain ⟨hne, hf⟩ := ht.closed hpc (by decide)
  obtain ⟨hl, ho⟩ := ht.lose hne (r:=.cdev) (p:=.errIda) rfl (by rw [hpc]; rfl) hf
  unfold Reg.release
  rw [ho]
  refine ⟨mem_put h.tgt hl, h.ida.keep hi rfl, h.cdevs.drop hi ?_ ?_, h.nodes.keep hi ?_,
    h.faults, h.clashes⟩
  · simp [Tgt.cdevOf, ho, hm]
  · simp [Tgt.cdevOf, Tgt.goto, Tgt.lose]
  · simp [Tgt.nodeOf, Tgt.goto, Tgt.lose, Function.update_of_ne]

theorem RegInv.errIda {m : Nat} (h : RegInv g) (hi : g.tgts[i]? = some t) (hpc : t.pc = .errIda)
    (hm : t.minor = some m) :
    RegInv { (g.put i ({ t with minor := none }.goto .errBitmap)).fault (g.ida m).isNone with
      ida := Function.update g.ida m none } := by
  have ht := h.tgt t (List.mem_of_getElem? hi)
  obtain ⟨hne, hf⟩ := ht.closed hpc (by decide)
  have hmi := ht.minorOf (ht.refs_pos hne) hm
  rw [h.ida.owner hi hmi]
  have hown : ∀ r, t.own r = decide (r.level ≤ 5) := fun r => by
    rw [ht.own_level hne r, hpc]
    rfl
  have ht' : ({ t with minor := none }.goto .errBitmap).Ok := by
    refine Tgt.ok_of_level (ht.dtr hne) (ht.counts hne) (fun r => (hown r).trans ?_) rfl
      (fun k hk => by cases hk) fun _ _ _ => hf
    cases r <;> rfl
  refine ⟨mem_put h.tgt ht', h.ida.drop hi hmi ?_, h.cdevs.keep hi ?_, h.nodes.keep hi ?_,
    h.faults, h.clashes⟩
  · unfold Tgt.minorOf
    split <;> rfl
  · simp [Tgt.cdevOf, Tgt.goto, hown, Res.level]
  · simp [Tgt.nodeOf, Tgt.goto, hown, Res.level]

theorem RegInv.ctr {ok : Bool} (h : RegInv g) (hi : g.tgts[i]? = some t)
    (hok : t.pc = .deviceCreate ∨ t.pc = .maxIoLen → ok = true ∨ t.files = 0)
    (hs : g.ctrNext i t ok = some g') : RegInv g' := by
  have ht := h.tgt t (List.mem_of_getElem? hi)
  unfold Reg.ctrNext at hs
  cases hpc : t.pc with
  | args =>
    obtain ⟨hne, hf⟩ := ht.closed hpc (by decide)
    simp only [hpc, Option.some.injEq] at hs
    subst hs
    refine h.put hi (ht.goto hne _ ?_ fun _ _ _ => hf) rfl rfl rfl
    rw [hpc]
    cases ok <;> rfl
  | kzalloc =>
    simp only [hpc, Option.some.injEq] at hs
    subst hs
    exact h.acquires hi hpc (by decide) rfl rfl rfl (by decide) (by decide)
  | getDevice =>
    simp only [hpc, Option.some.injEq] at hs
    subst hs
    exact h.acquires hi hpc (by decide) rfl rfl rfl (by decide) (by decide)
  | vmalloc =>
    simp only [hpc, Option.some.injEq] at hs
    subst hs
    exact h.acquires hi hpc (by decide) rfl rfl rfl (by decide) (by decide)
  | bitmapZalloc =>
    simp only [hpc, Option.some.injEq] at hs
    subst hs
    exact h.acquires hi hpc (by decide) rfl rfl rfl (by decide) (by decide)
  | idaAlloc =>
    simp only [hpc] at hs
    cases hm : (if ok then g.freeMinor else none) with
    | none =>
      obtain ⟨hne, hf⟩ := ht.closed hpc (by decide)
      rw [hm] at hs
      obtain rfl := Option.some.inj hs
      exact h.put hi (ht.goto hne _ (by rw [hpc]; rfl) fun _ _ _ => hf) rfl rfl rfl
    | some m =>
      rw [hm] at hs
      obtain rfl := Option.some.inj hs
      cases ok with
      | true => exact h.idaAlloc hi hpc hm
      | false => cases hm
  | cdevAdd =>
    simp only [hpc] at hs
    obtain ⟨m, hm, rfl⟩ := Option.map_eq_some_iff.mp hs
    cases ok with
    | true => exact h.cdevAdd hi hpc hm
    | false =>
      obtain ⟨hne, hf⟩ := ht.closed hpc (by decide)
      exact h.put hi (ht.goto hne .errIda (by rw [hpc]; rfl) fun _ _ _ => hf) rfl rfl rfl
  | deviceCreate =>
    simp only [hpc] at hs
    obtain ⟨m, hm, rfl⟩ := Option.map_eq_some_iff.mp hs
    rw [(h.node_free hi hpc hm).2]
    cases ok with
    | true => exact h.deviceCreate hi hpc hm
    | false =>
      have hne : t.pc ≠ .ready := by rw [hpc]; decide
      have hf : t.files = 0 := (hok (Or.inl hpc)).resolve_left Bool.false_ne_true
      exact h.put hi (ht.goto hne .errCdev (by rw [hpc]; rfl) fun _ _ _ => hf) rfl rfl rfl
  | maxIoLen =>
    have hne : t.pc ≠ .ready := by rw [hpc]; decide
    simp only [hpc, Option.some.injEq] at hs
    subst hs
    cases ok with
    | true =>
      exact h.put hi (ht.goto hne .ready (by rw [hpc]; rfl) fun e => absurd rfl e) rfl rfl rfl
    | false =>
      have hf : t.files = 0 := (hok (Or.inr hpc)).resolve_left Bool.false_ne_true
      exact h.put hi (ht.goto hne .errDevice (by rw [hpc]; rfl) fun _ _ _ => hf) rfl rfl rfl
  | errDevice =>
    simp only [hpc] at hs
    obtain ⟨m, hm, rfl⟩ := Option.map_eq_some_iff.mp hs
    exact h.errDevice hi hpc hm
  | errCdev =>
    simp only [hpc] at hs
    obtain ⟨m, hm, rfl⟩ := Option.map_eq_some_iff.mp hs
    exact h.errCdev hi hpc hm
  | errIda =>
    simp only [hpc] at hs
    obtain ⟨m, hm, rfl⟩ := Option.map_eq_some_iff.mp hs
    exact h.errIda hi hpc hm
  | errBitmap =>
    simp only [hpc, Option.some.injEq] at hs
    subst hs
    exact h.releases hi hpc (by decide) rfl rfl (by decide) (by decide)
  | errRing =>
    simp only [hpc, Option.some.injEq] at hs
    subst hs
    exact h.releases hi hpc (by decide) rfl rfl (by decide) (by decide)
  | errDev =>
    simp only [hpc, Option.some.injEq] at hs
    subst hs
    exact h.releases hi hpc (by decide) rfl rfl (by decide) (by decide)
  | errFree =>
    simp only [hpc, Option.some.injEq] at hs
    subst hs
    exact h.releases hi hpc (by decide) rfl rfl (by decide) (by decide)
  | failed =>
    rw [hpc] at hs
    cases hs
  | ready =>
    rw [hpc] at hs
    cases hs

/-! ## `cdp_dtr` and the references -/

theorem Tgt.Ok.own_ready (h : t.Ok) (hpc : t.pc = .ready) (r : Res) : t.own r = t.kept r := by
  rw [h.own r]
  unfold Tgt.holds
  rw [hpc]
  cases r <;> rfl

/-- a reference that is not the last, or is, is given up; `d` and `f` are where `cdp_dtr` is then and
the descriptors that are left -/
theorem RegInv.putRef (h : RegInv g) (hi : g.tgts[i]? = some t) {d : DtrPc} {f : Nat}
    (hc : t.refs = Tgt.refs { t with dtr := d, files := f } + 1)
    (hl : ∀ n, n < 5 → decide (d.level < n) = decide (t.dtr.level < n))
    (hd : t.pc ≠ .ready → d = .attached)
    (hf : t.pc ≠ .ready → t.pc ≠ .deviceCreate → t.pc ≠ .maxIoLen → f = 0)
    (hs : g.putRef i { t with dtr := d, files := f } = some g') : RegInv g' := by
  have ht := h.tgt t (List.mem_of_getElem? hi)
  have hk : t.kref.put.Counts (Tgt.refs { t with dtr := d, files := f }) := (hc ▸ ht.kref).put
  have hpos : t.kref.refs ≠ 0 := by
    rw [ht.kref.refs, hc]
    exact Nat.succ_ne_zero _
  have hone : t.kref.refs = 1 ↔ t.kref.put.refs = 0 := by
    show _ ↔ t.kref.refs - 1 = 0
    omega
  unfold Reg.putRef at hs
  by_cases hlast : t.kref.refs = 1
  · simp only [if_pos hlast] at hs
    obtain ⟨m, hm, rfl⟩ := Option.map_eq_some_iff.mp hs
    have hz : t.kref.put.refs = 0 := hone.mp hlast
    have hready : t.pc = .ready := by
      by_contra hne
      have := hk.refs
      unfold Tgt.refs at this
      simp only [hz, hd hne, DtrPc.refGone] at this
      exact absurd this.symm (Nat.succ_ne_zero f)
    have hown := ht.own_ready hready
    have h1 : t.own .ring = true := by simp [hown, Tgt.kept, hpos]
    have h2 : t.own .bitmap = true := by simp [hown, Tgt.kept, hpos]
    have h3 : t.own .context = true := by simp [hown, Tgt.kept, hpos]
    have hida := h.ida.owner hi (ht.minorOf hpos hm)
    simp only [h1, h2, h3, hida]
    refine ⟨mem_put h.tgt ⟨fun r => ?_, hk, ht.minor, ht.small, hd, hf⟩,
      h.ida.drop hi (ht.minorOf hpos hm) (by simp [Tgt.minorOf, Tgt.lose, hz]),
      h.cdevs.keep hi (by simp [Tgt.cdevOf, Tgt.lose]),
      h.nodes.keep hi (by simp [Tgt.nodeOf, Tgt.lose]), h.faults, h.clashes⟩
    cases r with
    | context | ring | bitmap => simp [Tgt.lose, Tgt.holds, Tgt.kept, hz]
    | device => exact (ht.own .device).trans (congrArg (_ && ·) (hl 4 (by decide)).symm)
    | cdev => exact (ht.own .cdev).trans (congrArg (_ && ·) (hl 3 (by decide)).symm)
    | node => exact (ht.own .node).trans (congrArg (_ && ·) (hl 2 (by decide)).symm)
  · simp only [if_neg hlast] at hs
    obtain rfl := Option.some.inj hs
    have hz : t.kref.put.refs ≠ 0 := fun e => hlast (hone.mpr e)
    refine h.put hi ⟨fun r => (ht.own r).trans ?_, hk, ht.minor, ht.small, hd, hf⟩
      (by simp [Tgt.minorOf, hpos, hz]) rfl rfl
    cases r with
    | context | ring | bitmap => simp [Tgt.holds, Tgt.kept, hpos, hz]
    | device => exact congrArg (_ && ·) (hl 4 (by decide)).symm
    | cdev => exact congrArg (_ && ·) (hl 3 (by decide)).symm
    | node => exact congrArg (_ && ·) (hl 2 (by decide)).symm

theorem Tgt.Ok.dtrLose (h : t.Ok) (hpc : t.pc = .ready) {r : Res} {d : DtrPc}
    (hg : d.refGone = t.dtr.refGone) (hr : Tgt.kept { t with dtr := d } r = false)
    (ho : ∀ r', r' ≠ r → Tgt.kept { t with dtr := d } r' = t.kept r') :
    Tgt.Ok { t.lose r with dtr := d } := by
  refine ⟨fun r' => ?_, ?_, h.minor, h.small, fun hne => absurd hpc hne,
    fun hne => absurd hpc hne⟩
  · show Function.update t.own r false r' = (decide (r'.level ≤ t.pc.level) && _)
    by_cases he : r' = r
    · subst he
      rw [Function.update_self]
      exact (Bool.and_eq_false_imp.mpr fun _ => hr).symm
    · rw [Function.update_of_ne he, h.own r']
      exact congrArg (_ && ·) (ho r' he).symm
  · have hk := h.kref
    unfold Tgt.refs at hk
    rw [← hg] at hk
    exact hk

theorem RegInv.dtr (h : RegInv g) (hi : g.tgts[i]? = some t) (hpc : t.pc = .ready)
    (hs : g.dtrNext i t = some g') : RegInv g' := by
  have ht := h.tgt t (List.mem_of_getElem? hi)
  have hown := ht.own_ready hpc
  have hno : ∀ {p : Prop}, t.pc ≠ .ready → p := fun hne => absurd hpc hne
  unfold Reg.dtrNext at hs
  cases hd : t.dtr with
  | attached =>
    simp only [hd, Option.some.injEq] at hs
    subst hs
    refine h.put hi ⟨fun r => (ht.own r).trans ?_, ?_, ht.minor, ht.small, hno, hno⟩ rfl rfl rfl
    · cases r <;> simp [Tgt.holds, Tgt.kept, hd, DtrPc.level]
    · have hk := ht.kref
      unfold Tgt.refs at hk
      rw [hd] at hk
      exact hk
  | dead =>
    simp only [hd] at hs
    obtain ⟨m, hm, rfl⟩ := Option.map_eq_some_iff.mp hs
    have ho : t.own .node = true := by simp [hown, Tgt.kept, hd, DtrPc.level]
    have hl : Tgt.Ok { t.lose .node with dtr := .deviceDestroyed } := by
      refine ht.dtrLose hpc (by rw [hd]; rfl) rfl fun r' hr => ?_
      cases r' <;> simp [Tgt.kept, hd, DtrPc.level] at hr ⊢
    rw [ho]
    refine ⟨mem_put h.tgt hl, h.ida.keep hi rfl, h.cdevs.keep hi ?_, h.nodes.drop hi ?_ ?_,
      h.faults, h.clashes⟩
    · simp [Tgt.cdevOf, Tgt.lose, Function.update_of_ne]
    · simp [Tgt.nodeOf, ho, hm]
    · simp [Tgt.nodeOf, Tgt.lose]
  | deviceDestroyed =>
    simp only [hd] at hs
    obtain ⟨m, hm, rfl⟩ := Option.map_eq_some_iff.mp hs
    have ho : t.own .cdev = true := by simp [hown, Tgt.kept, hd, DtrPc.level]
    have hl : Tgt.Ok { t.lose .cdev with dtr := .cdevDeleted } := by
      refine ht.dtrLose hpc (by rw [hd]; rfl) rfl fun r' hr => ?_
      cases r' <;> simp [Tgt.kept, hd, DtrPc.level] at hr ⊢
    rw [ho]
    refine ⟨mem_put h.tgt hl, h.ida.keep hi rfl, h.cdevs.drop hi ?_ ?_, h.nodes.keep hi ?_,
      h.faults, h.clashes⟩
    · simp [Tgt.cdevOf, ho, hm]
    · simp [Tgt.cdevOf, Tgt.lose]
    · simp [Tgt.nodeOf, Tgt.lose, Function.update_of_ne]
  | cdevDeleted =>
    simp only [hd, Option.some.injEq] at hs
    subst hs
    have ho : t.own .device = true := by simp [hown, Tgt.kept, hd, DtrPc.level]
    have hl : Tgt.Ok { t.lose .device with dtr := .devicePut } := by
      refine ht.dtrLose hpc (by rw [hd]; rfl) rfl fun r' hr => ?_
      cases r' <;> simp [Tgt.kept, hd, DtrPc.level] at hr ⊢
    rw [ho]
    refine h.put hi hl rfl ?_ ?_
    · simp [Tgt.cdevOf, Tgt.lose, Function.update_of_ne]
    · simp [Tgt.nodeOf, Tgt.lose, Function.update_of_ne]
  | devicePut =>
    simp only [hd] at hs
    refine h.putRef hi (f:=t.files) ?_ (fun n hn => ?_) hno hno hs
    · simp [Tgt.refs, hd, DtrPc.refGone]
    · rw [hd]
      exact decide_eq_decide.mpr (show 5 < n ↔ 4 < n by omega)
  | refPut =>
    simp only [hd, Option.some.injEq] at hs
    subst hs
    refine h.put hi ⟨fun r => (ht.own r).trans ?_, ?_, ht.minor, ht.small, hno, hno⟩ rfl rfl rfl
    · cases r <;> simp [Tgt.holds, Tgt.kept, hd, DtrPc.level]
    · have hk := ht.kref
      unfold Tgt.refs at hk
      rw [hd] at hk
      exact hk
  | returned =>
    rw [hd] at hs
    cases hs

end

/-! ## runs -/

/-- no reference is taken to what is freed or taken down, and none is there when `cdp_ctr` fails
behind `cdev_add` -/
def RegOk (g : Reg) : RegAct → Prop
  | .ctr i ok => ∀ t, g.tgts[i]? = some t → t.pc = .deviceCreate ∨ t.pc = .maxIoLen →
    ok = true ∨ t.files = 0
  | .get i => ∀ t, g.tgts[i]? = some t →
    t.kref.refs ≠ 0 ∧ (t.pc = .ready ∨ t.pc = .deviceCreate ∨ t.pc = .maxIoLen)
  | _ => True

theorem regInv_init : RegInv Reg.init :=
  ⟨fun _ ht => (List.not_mem_nil ht).elim, index_nil, index_nil, index_nil, rfl, rfl⟩

theorem RegInv.create {g : Reg} (h : RegInv g) :
    RegInv { g with tgts := g.tgts ++ [Tgt.new] } := by
  refine ⟨fun t ht => ?_, h.ida.push rfl, h.cdevs.push rfl, h.nodes.push rfl, h.faults, h.clashes⟩
  rcases mem_push ht with ht | rfl
  · exact h.tgt t ht
  · exact Tgt.ok_of_level rfl Kref.counts_init (fun r => by cases r <;> rfl) rfl
      (fun m hm => by cases hm) fun _ _ _ => rfl

theorem RegInv.step {g g' : Reg} {a : RegAct} (h : RegInv g) (hok : RegOk g a)
    (hs : regStep g a = some g') : RegInv g' := by
  cases a with
  | create =>
    obtain rfl := Option.some.inj hs
    exact h.create
  | ctr i ok =>
    obtain ⟨t, hi, hs⟩ := Option.bind_eq_some_iff.mp hs
    exact h.ctr hi (hok t hi) hs
  | dtr i =>
    obtain ⟨t, hi, hs⟩ := Option.bind_eq_some_iff.mp hs
    obtain ⟨hpc, hs⟩ := Option.ite_none_right_eq_some.mp hs
    exact h.dtr hi hpc hs
  | lookup m =>
    obtain ⟨i, hm, hs⟩ := Option.bind_eq_some_iff.mp hs
    obtain ⟨t, hi, hs⟩ := Option.bind_eq_some_iff.mp hs
    obtain rfl := Option.some.inj hs
    have ht := h.tgt t (List.mem_of_getElem? hi)
    exact h.put hi ⟨ht.own, ht.kref, ht.minor, ht.small, ht.dtr, ht.files⟩ rfl rfl rfl
  | test i stale =>
    obtain ⟨t, hi, hs⟩ := Option.bind_eq_some_iff.mp hs
    obtain ⟨hpos, hs⟩ := Option.ite_none_right_eq_some.mp hs
    obtain rfl := Option.some.inj hs
    have ht := h.tgt t (List.mem_of_getElem? hi)
    exact h.put hi ⟨ht.own, ht.kref, ht.minor, ht.small, ht.dtr, ht.files⟩ rfl rfl rfl
  | get i =>
    obtain ⟨t, hi, hs⟩ := Option.bind_eq_some_iff.mp hs
    obtain ⟨hpos, hs⟩ := Option.ite_none_right_eq_some.mp hs
    obtain rfl := Option.some.inj hs
    have ht := h.tgt t (List.mem_of_getElem? hi)
    obtain ⟨hr, hpc⟩ := hok t hi
    have hr' : t.kref.get.refs ≠ 0 := Nat.succ_ne_zero t.kref.refs
    refine h.put hi ⟨fun r => (ht.own r).trans ?_, ?_, ht.minor, ht.small, ht.dtr,
      fun h1 h2 h3 => (hpc.elim h1 (Or.elim · h2 h3)).elim⟩ ?_ rfl rfl
    · cases r <;> simp [Tgt.holds, Tgt.kept, hr, hr']
    · have hk := ht.kref.get (ht.kref.refs ▸ Nat.pos_of_ne_zero hr)
      have e : t.refs + 1 = Tgt.refs { t with files := t.files + 1 } :=
        Nat.add_right_comm t.files _ 1
      exact e ▸ hk
    · simp [Tgt.minorOf, hr, hr']
  | release i =>
    obtain ⟨t, hi, hs⟩ := Option.bind_eq_some_iff.mp hs
    obtain ⟨hpos, hs⟩ := Option.ite_none_right_eq_some.mp hs
    have ht := h.tgt t (List.mem_of_getElem? hi)
    refine h.putRef hi (d:=t.dtr) ?_ (fun _ _ => rfl) ht.dtr (fun h1 h2 h3 => ?_) hs
    · show t.files + (if t.dtr.refGone then 0 else 1) =
        t.files - 1 + (if t.dtr.refGone then 0 else 1) + 1
      omega
    · have := ht.files h1 h2 h3
      omega

/-- `cdp_ctr` has failed, or `cdp_dtr` has returned and all descriptors are closed -/
def Tgt.Ended (t : Tgt) : Prop := t.pc = .failed ∨ t.dtr = .returned ∧ t.files = 0

instance (t : Tgt) : Decidable t.Ended := inferInstanceAs (Decidable (_ ∨ _))

structure Reg.Sound (g : Reg) : Prop where
  -- nothing is released that is not held, nor acquired that is
  faults : g.faults = 0
  -- `device_create` never finds its name taken
  clashes : g.clashes = 0
  -- targets that are not freed have different minors
  minors : ∀ (i j : Nat) (t t' : Tgt) (m : Nat), g.tgts[i]? = some t → g.tgts[j]? = some t' →
    t.kref.refs ≠ 0 → t'.kref.refs ≠ 0 → t.minor = some m → t'.minor = some m → i = j ∧ m < MaxMinors
  -- an open of minor `m` finds the target that has it, in memory
  opens : ∀ m i, g.cdevs m = some i → ∃ t, g.tgts[i]? = some t ∧ t.minor = some m ∧
    t.own .context = true ∧ t.kref.refs ≠ 0
  -- the node `/dev/cdpm` is that of the same target
  node : ∀ m i, g.nodes m = some i → g.cdevs m = some i
  -- what a descriptor is used on is there
  files : ∀ t ∈ g.tgts, 0 < t.files →
    t.own .context = true ∧ t.own .ring = true ∧ t.own .bitmap = true
  -- what has ended holds nothing, and no minor, device or node is its, whoever else is there
  gone : ∀ i t, g.tgts[i]? = some t → t.Ended →
    (∀ r, t.own r = false) ∧ ∀ m, g.ida m ≠ some i ∧ g.cdevs m ≠ some i ∧ g.nodes m ≠ some i
  -- when all is over the module holds nothing
  rest : (∀ t ∈ g.tgts, t.Ended) → ∀ m, g.ida m = none ∧ g.cdevs m = none ∧ g.nodes m = none

/-- in the order of `cdp_ctr` the device comes before the node, in that of `cdp_dtr` it goes
behind -/
theorem Tgt.Ok.cdev_of_node {t : Tgt} (h : t.Ok) (ho : t.own .node = true) :
    t.own .cdev = true := by
  rw [h.own] at ho ⊢
  obtain ⟨hl, hk⟩ := (Bool.and_eq_true _ _).mp ho
  have hl := of_decide_eq_true hl
  have hk := of_decide_eq_true hk
  exact (Bool.and_eq_true _ _).mpr
    ⟨decide_eq_true (Nat.le_of_succ_le hl), decide_eq_true (Nat.lt_succ_of_lt hk)⟩

theorem Tgt.Ok.own_early {t : Tgt} (h : t.Ok) (hr : t.kref.refs ≠ 0) {r : Res}
    (hl : r.level ≤ t.pc.level) (h4 : r = .context ∨ r = .ring ∨ r = .bitmap) :
    t.own r = true := by
  rw [h.own]
  unfold Tgt.holds
  rw [decide_eq_true hl]
  rcases h4 with rfl | rfl | rfl <;> exact decide_eq_true hr

theorem Tgt.Ok.ended {t : Tgt} (h : t.Ok) (hov : t.Ended) :
    (∀ r, t.own r = false) ∧ t.minorOf = none ∧ t.cdevOf = none ∧ t.nodeOf = none := by
  suffices h0 : (∀ r, t.own r = false) ∧ t.minorOf = none by
    refine ⟨h0.1, h0.2, ?_, ?_⟩
    · simp [Tgt.cdevOf, h0.1]
    · simp [Tgt.nodeOf, h0.1]
  rcases hov with hf | ⟨hd, hf⟩
  · have hne : t.pc ≠ .ready := by rw [hf]; decide
    constructor
    · intro r
      rw [h.own_level hne, hf]
      cases r <;> rfl
    · have hm := h.minor
      rw [hf] at hm
      unfold Tgt.minorOf
      rw [Option.isNone_iff_eq_none.mp (Option.isSome_eq_false_iff.mp hm)]
      exact ite_self none
  · have hr : t.kref.refs = 0 := by
      rw [h.kref.refs]
      unfold Tgt.refs
      rw [hd, hf]
      rfl
    constructor
    · intro r
      rw [h.own]
      cases r <;> simp [Tgt.holds, Tgt.kept, hd, hr, DtrPc.level]
    · unfold Tgt.minorOf
      exact if_pos hr

theorem Tgt.Ok.level_of_files {t : Tgt} (h : t.Ok) (hf : 0 < t.files) : 6 ≤ t.pc.level := by
  by_contra hl
  have := h.files (fun e => hl (by rw [e]; decide)) (fun e => hl (by rw [e]; decide))
    (fun e => hl (by rw [e]; decide))
  omega

theorem RegInv.sound {g : Reg} (h : RegInv g) : g.Sound := by
  refine ⟨h.faults, h.clashes, fun i j t t' m hi hj hr hr' hm hm' => ?_, fun m i hc => ?_,
    fun m i hn => ?_, fun t ht hf => ?_, fun i t hi hov => ?_, fun hall m => ?_⟩
  · have ht := h.tgt t (List.mem_of_getElem? hi)
    have ht' := h.tgt t' (List.mem_of_getElem? hj)
    exact ⟨h.ida.unique hi hj (ht.minorOf hr hm) (ht'.minorOf hr' hm'), ht.small m hm⟩
  · obtain ⟨t, hi, hk⟩ := (h.cdevs m i).mp hc
    have ht := h.tgt t (List.mem_of_getElem? hi)
    unfold Tgt.cdevOf at hk
    obtain ⟨ho, hm⟩ := Option.ite_none_right_eq_some.mp hk
    have hr := ht.early_refs (Or.inl rfl) ho
    have hl : 6 ≤ t.pc.level := by
      rw [ht.own] at ho
      exact of_decide_eq_true ((Bool.and_eq_true _ _).mp ho).1
    exact ⟨t, hi, hm, ht.own_early hr (Nat.le_trans (by decide) hl) (Or.inl rfl), hr⟩
  · obtain ⟨t, hi, hk⟩ := (h.nodes m i).mp hn
    have ht := h.tgt t (List.mem_of_getElem? hi)
    unfold Tgt.nodeOf at hk
    obtain ⟨ho, hm⟩ := Option.ite_none_right_eq_some.mp hk
    refine h.cdevs.owner hi ?_
    unfold Tgt.cdevOf
    rw [if_pos (ht.cdev_of_node ho), hm]
  · have hok := h.tgt t ht
    have hl := hok.level_of_files hf
    have hr : t.kref.refs ≠ 0 := by
      rw [hok.kref.refs]
      unfold Tgt.refs
      omega
    exact ⟨hok.own_early hr (Nat.le_trans (by decide) hl) (Or.inl rfl),
      hok.own_early hr (Nat.le_trans (by decide) hl) (Or.inr (Or.inl rfl)),
      hok.own_early hr (Nat.le_trans (by decide) hl) (Or.inr (Or.inr rfl))⟩
  · obtain ⟨hown, hida, hcdev, hnode⟩ := (h.tgt t (List.mem_of_getElem? hi)).ended hov
    exact ⟨hown, fun m => ⟨h.ida.not_owner hi hida m, h.cdevs.not_owner hi hcdev m,
      h.nodes.not_owner hi hnode m⟩⟩
  · have hend := fun t ht => (h.tgt t ht).ended (hall t ht)
    exact ⟨h.ida.empty (fun t ht => (hend t ht).2.1) m, h.cdevs.empty (fun t ht => (hend t ht).2.2.1) m,
      h.nodes.empty (fun t ht => (hend t ht).2.2.2) m⟩

/-- **All targets of the module, whatever fails, and in whatever order the steps are.** -/
theorem registry_sound (as : List RegAct) (g : Reg) (hok : Meets regStep RegOk Reg.init as)
    (h : exec regStep Reg.init as = some g) : g.Sound :=
  (exec_invariant_meets (P:=RegInv) (fun _ _ _ hi hg hs => hi.step hg hs) regInv_init hok h).sound

/-! ## a run

Two targets.  The first is opened before its node is there and closed behind its `cdp_dtr`; the
second finds no bitmap. -/

def twoTargets : List RegAct :=
  [.create] ++ List.replicate 7 (.ctr 0 true) ++
    [.lookup 0, .test 0 false, .get 0, .ctr 0 true, .ctr 0 true, .create] ++
    List.replicate 4 (.ctr 1 true) ++ [.ctr 1 false] ++ List.replicate 3 (.ctr 1 true) ++
    List.replicate 6 (.dtr 0) ++ [.release 0]

def regOkB (g : Reg) : RegAct → Bool
  | .ctr i ok => (g.tgts[i]?).all fun t =>
    !(t.pc == .deviceCreate || t.pc == .maxIoLen) || ok || t.files == 0
  | .get i => (g.tgts[i]?).all fun t =>
    t.kref.refs != 0 && (t.pc == .ready || t.pc == .deviceCreate || t.pc == .maxIoLen)
  | _ => true

theorem regOk_of_regOkB (g : Reg) (a : RegAct) (h : regOkB g a = true) : RegOk g a := by
  cases a with
  | ctr i ok =>
    intro t ht hpc
    simp only [regOkB, ht, Option.all_some] at h
    rcases hpc with hpc | hpc <;> simpa [hpc] using h
  | get i =>
    intro t ht
    simp only [regOkB, ht, Option.all_some] at h
    simpa [or_assoc] using h
  | create => trivial
  | dtr i => trivial
  | lookup m => trivial
  | test i stale => trivial
  | release i => trivial

/-- nothing is left of the two -/
theorem registry_sound_two : ∃ g, exec regStep Reg.init twoTargets = some g ∧ g.Sound ∧
    ∀ m, g.ida m = none ∧ g.cdevs m = none ∧ g.nodes m = none := by
  have hrun : ((exec regStep Reg.init twoTargets).map fun g =>
      decide (∀ t ∈ g.tgts, t.Ended)) = some true := by
    decide +kernel
  obtain ⟨g, hg, hall⟩ := Option.map_eq_some_iff.mp hrun
  have h := registry_sound twoTargets g (meets_of_meetsB regOk_of_regOkB (by decide +kernel)) hg
  exact ⟨g, hg, h, h.rest (of_decide_eq_true hall)⟩

end CDP
