import DmCdp.Kernel.Params
import DmCdp.Kernel.RingLayout
import DmCdp.Kernel.Tally

/-!
# `cdp_ctr`, the character device and `cdp_dtr`

The life of a target: it is made by `cdp_ctr`, opened any number of times, used through the open
descriptors, and removed by `cdp_dtr`, in any order of the steps of these.

* `Kref`              the reference count, with the number of calls of `cdp_free`;
* `cdpIoctlStatus`    `cdp_ioctl_status`, the one file operation that follows `t->ti`; none follows
                      `t->dev`;
* `lifeStep`          the steps of `cdp_ctr`, `cdp_open`, the file operations, `cdp_release` and
                      `cdp_dtr`;
* `Lifetime`          no file operation has followed `t->ti` after `cdp_dtr`, and `cdp_free` has
                      been called once if the last reference is gone, and not before;
* `LifeOk`            no STATUS after `cdp_dtr`, and no reference to a target that has been freed;
* `lifetime_always`   `Lifetime` in every state of a run exactly if its steps keep to that;
* `lifetime_breaks`   a STATUS on an old descriptor; an open beside `cdp_dtr`.
-/

set_option linter.unusedVariables false

namespace CDP
open Img Mach

/-! ## the reference count -/

/-- `struct kref`, and how often `cdp_free` has been called: it frees the ring, the bitmap, the
minor and `t` -/
structure Kref where
  refs : Nat
  freed : Nat

def Kref.init : Kref := ⟨1, 0⟩

def Kref.get (k : Kref) : Kref := { k with refs := k.refs + 1 }

/-- `kref_put(&t->kref, cdp_free)` -/
def Kref.put (k : Kref) : Kref := ⟨k.refs - 1, if k.refs = 1 then k.freed + 1 else k.freed⟩

/-- `n` references are held -/
structure Kref.Counts (k : Kref) (n : Nat) : Prop where
  refs : k.refs = n
  freed : k.freed = if n = 0 then 1 else 0

theorem Kref.counts_init : Kref.init.Counts 1 := ⟨rfl, rfl⟩

theorem Kref.Counts.get {k : Kref} {n : Nat} (h : k.Counts n) (hn : 0 < n) :
    k.get.Counts (n + 1) := by
  refine ⟨congrArg (· + 1) h.refs, ?_⟩
  show k.freed = _
  rw [h.freed, if_neg (by omega), if_neg (by omega)]

theorem Kref.Counts.put {k : Kref} {n : Nat} (h : k.Counts (n + 1)) : k.put.Counts n := by
  have hf := h.freed
  rw [if_neg (by omega)] at hf
  constructor
  · show k.refs - 1 = n
    rw [h.refs]
    exact Nat.add_sub_cancel n 1
  · show (if k.refs = 1 then k.freed + 1 else k.freed) = _
    rw [h.refs, hf]
    by_cases hn : n = 0
    · simp [hn]
    · rw [if_neg (by omega), if_neg hn]

/-! ## the machine -/

/-- `struct dm_target` -/
structure DmTarget where
  len : Nat

/-- `struct dm_cdp_status`; `flags` bit by bit -/
structure CdpStatus where
  abiVersion : Nat
  overflowed : Bool
  dead : Bool
  devSectors : Nat
  chunkSectors : Nat
  minor : Nat
  bitmapBits : Nat
  bitmapBytes : Nat
  bitmapSet : Nat
  ringSize : Nat
  ringUsed : Nat
  seqNext : Nat
  records : Nat
  bytesLogged : Nat
  overflows : Nat

/-- `cdp_ioctl_status`; no result where `t->ti` points to what has been released -/
def cdpIoctlStatus (ti : Option DmTarget) (t : Target) (minor : Nat) : Option CdpStatus :=
  ti.map fun ti =>
    { abiVersion := AbiVersion
      overflowed := t.overflowed
      dead := t.dead
      devSectors := ti.len
      chunkSectors := t.chunkSectors
      minor := minor
      bitmapBits := t.nbits
      bitmapBytes := 8 * t.nlongs
      bitmapSet := (List.range t.nbits).countP t.bitmap
      ringSize := t.ringSize
      ringUsed := u64sub t.head t.tail
      seqNext := t.seqNext
      records := t.records
      bytesLogged := t.bytesLogged
      overflows := t.overflows }

/-- an open: the device has been looked up, `dead` has been tested; then the descriptor -/
inductive FilePc where
  | looked
  | tested
  | opened
  | refused
  | closed
  deriving DecidableEq

/-- what `cdp_dtr` has done -/
inductive DtrPc where
  | attached
  | dead
  | deviceDestroyed
  | cdevDeleted
  | devicePut
  | refPut
  | returned
  deriving DecidableEq

def DtrPc.refGone : DtrPc → Bool
  | .refPut | .returned => true
  | _ => false

structure LifeSt where
  k : KState
  minor : Nat
  -- what `t->ti` points to
  ti : Option DmTarget
  kref : Kref
  -- a lookup of the device number finds `t->cdev`
  cdev : Bool
  dtr : DtrPc
  files : List FilePc
  -- ghost: a file operation has followed `t->ti` to what has been released
  strayed : Bool

/-- what a descriptor is used for; a `read` goes on step by step -/
inductive FileAct where
  | read (count : Nat) (nonblock : Bool)
  | reader (ok : Bool)
  | poll
  | status
  | bitmapBegin
  | bitmapWord
  | bitmapDone (ok : Bool)
  | store (w : IoctlStore)
  | noTty

inductive LifeAct where
  | ctr (env : CtrEnv) (minor : Nat)
  -- a step of a bio
  | bio (a : KAct)
  -- `chrdev_open` and the steps of `cdp_open`; `stale` is what lies in `t->dead` once `t` is freed
  | lookup
  | test (i : Nat) (stale : Bool)
  | get (i : Nat)
  | file (i : Nat) (a : FileAct)
  | release (i : Nat)
  | dtr

def KAct.isBio : KAct → Bool
  | .map _ | .reserve _ _ | .copy _ | .land _ | .endIo _ _ => true
  | _ => false

/-- a file operation on descriptor `i` -/
def LifeSt.file (cfg : Config) (l : LifeSt) (i : Nat) : FileAct → Option LifeSt
  | .read count nonblock => (kstep cfg l.k (.call i count nonblock)).map fun k => { l with k := k }
  | .reader ok => (kstep cfg l.k (.reader i ok)).map fun k => { l with k := k }
  -- the result is `cdpPoll`
  | .poll => some l
  | .status =>
    some { l with strayed := l.strayed || (cdpIoctlStatus l.ti l.k.t l.minor).isNone }
  | .bitmapBegin => (kstep cfg l.k .clearBegin).map fun k => { l with k := k }
  | .bitmapWord => (kstep cfg l.k .clearWord).map fun k => { l with k := k }
  | .bitmapDone ok => (kstep cfg l.k (.clearDone ok)).map fun k => { l with k := k }
  | .store w => some { l with k := { l.k with t := ioctlStep l.k.t w } }
  | .noTty => some l

/-- the next statement of `cdp_dtr`; DM releases `ti` when it has returned -/
def LifeSt.dtrNext (cfg : Config) (l : LifeSt) : DtrPc → Option LifeSt
  | .attached => (kstep cfg l.k .dtr).map fun k => { l with k := k, dtr := .dead }
  | .dead => some { l with dtr := .deviceDestroyed }
  | .deviceDestroyed => some { l with cdev := false, dtr := .cdevDeleted }
  | .cdevDeleted => some { l with dtr := .devicePut }
  | .devicePut => some { l with kref := l.kref.put, dtr := .refPut }
  | .refPut => some { l with ti := none, dtr := .returned }
  | .returned => none

def LifeSt.step (cfg : Config) (l : LifeSt) : LifeAct → Option LifeSt
  | .ctr _ _ => none
  | .bio a =>
    if l.dtr = .attached ∧ a.isBio = true then (kstep cfg l.k a).map fun k => { l with k := k }
    else none
  | .lookup => if l.cdev then some { l with files := l.files ++ [.looked] } else none
  | .test i stale =>
    if l.files[i]? = some .looked then
      let dead := if l.kref.freed = 0 then l.k.t.dead else stale
      some { l with files := l.files.set i (if dead then .refused else .tested) }
    else none
  | .get i =>
    if l.files[i]? = some .tested then
      some { l with kref := l.kref.get, files := l.files.set i .opened }
    else none
  | .file i a => if l.files[i]? = some .opened then l.file cfg i a else none
  | .release i =>
    -- no call is in progress on the descriptor
    if l.files[i]? = some .opened ∧ (l.k.readers i).pc = .idle then
      some { l with kref := l.kref.put, files := l.files.set i .closed }
    else none
  | .dtr => l.dtrNext cfg l.dtr

/-- a successful `cdp_ctr` -/
def LifeSt.attach (cfg : Config) (dev : Nat → UInt8) (b : Built) (minor : Nat) : LifeSt where
  k := { KState.init cfg dev with t := b.t }
  minor := minor
  ti := some ⟨cfg.len⟩
  kref := .init
  cdev := true
  dtr := .attached
  files := []
  strayed := false

/-- there is no target until a `cdp_ctr` succeeds; one that fails leaves nothing -/
def lifeStep (cfg : Config) (dev : Nat → UInt8) : Option LifeSt → LifeAct → Option (Option LifeSt)
  | none, .ctr env minor =>
    match ctr env cfg.ringMb cfg.chunkKb cfg.len with
    | .ok b => some (some (.attach cfg dev b minor))
    | .error _ => some none
  | none, _ => none
  | some l, a => (l.step cfg a).map some

/-! ## the property -/

structure Lifetime (l : LifeSt) : Prop where
  stays : l.strayed = false
  freed : l.kref.freed = if l.dtr.refGone = true ∧ .opened ∉ l.files then 1 else 0

/-- the property, also before there is a target -/
def LifetimeHolds (s : Option LifeSt) : Prop := ∀ l, s = some l → Lifetime l

/-- no STATUS when `cdp_dtr` has returned, and no `kref_get` when `t` has been freed -/
def LifeOk (s : Option LifeSt) : LifeAct → Prop
  | .file _ .status => ∀ l, s = some l → l.dtr ≠ .returned
  | .get _ => ∀ l, s = some l → l.kref.freed = 0
  | _ => True

/-! ## the invariant -/

/-- the references: one of `cdp_ctr`, one of each descriptor -/
def LifeSt.held (l : LifeSt) : Nat := (if l.dtr.refGone then 0 else 1) + l.files.count .opened

structure LifeInv (l : LifeSt) : Prop where
  stays : l.strayed = false
  counts : l.kref.Counts l.held
  gone : l.ti = none ↔ l.dtr = .returned

theorem LifeInv.attach (cfg : Config) (dev : Nat → UInt8) (b : Built) (minor : Nat) :
    LifeInv (.attach cfg dev b minor) where
  stays := rfl
  counts := Kref.counts_init
  gone := by simp [LifeSt.attach]

theorem LifeInv.lifetime {l : LifeSt} (h : LifeInv l) : Lifetime l := by
  refine ⟨h.stays, ?_⟩
  rw [h.counts.freed]
  apply if_congr _ rfl rfl
  unfold LifeSt.held
  rw [Nat.add_eq_zero_iff, List.count_eq_zero]
  apply and_congr _ Iff.rfl
  cases l.dtr.refGone <;> simp

section
variable {l : LifeSt} {i : Nat} {p q : FilePc}

theorem count_opened (hi : l.files[i]? = some p) (q : FilePc) :
    (l.files.set i q).count .opened + (if p = .opened then 1 else 0)
      = l.files.count .opened + if q = .opened then 1 else 0 := by
  obtain ⟨hlt, hget⟩ := List.getElem?_eq_some_iff.mp hi
  have hle : (if p = .opened then 1 else 0) ≤ l.files.count .opened := by
    split
    next hp =>
      rw [List.one_le_count_iff, ← hp, ← hget]
      exact List.getElem_mem hlt
    next => exact Nat.zero_le _
  rw [List.count_set hlt, hget]
  simp only [beq_iff_eq]
  omega

theorem LifeInv.setFile (h : LifeInv l) (hi : l.files[i]? = some p) (hp : p ≠ .opened)
    (hq : q ≠ .opened) : LifeInv { l with files := l.files.set i q } := by
  refine ⟨h.stays, ?_, h.gone⟩
  have hcount := count_opened hi q
  rw [if_neg hp, if_neg hq] at hcount
  have hheld : ({ l with files := l.files.set i q } : LifeSt).held = l.held := by
    unfold LifeSt.held
    dsimp only
    omega
  rw [hheld]
  exact h.counts

theorem LifeInv.get (h : LifeInv l) (hi : l.files[i]? = some .tested) (hfreed : l.kref.freed = 0) :
    LifeInv { l with kref := l.kref.get, files := l.files.set i .opened } := by
  refine ⟨h.stays, ?_, h.gone⟩
  have hcount := count_opened hi .opened
  rw [if_neg (by decide), if_pos rfl] at hcount
  have hheld : ({ l with kref := l.kref.get, files := l.files.set i .opened } : LifeSt).held
      = l.held + 1 := by
    unfold LifeSt.held
    dsimp only
    omega
  have hpos : 0 < l.held := by
    by_contra hz
    have hf := h.counts.freed
    rw [if_pos (by omega), hfreed] at hf
    cases hf
  rw [hheld]
  exact h.counts.get hpos

theorem LifeInv.release (h : LifeInv l) (hi : l.files[i]? = some .opened) :
    LifeInv { l with kref := l.kref.put, files := l.files.set i .closed } := by
  refine ⟨h.stays, ?_, h.gone⟩
  have hcount := count_opened hi .closed
  rw [if_pos rfl, if_neg (by decide)] at hcount
  have hheld : l.held
      = ({ l with kref := l.kref.put, files := l.files.set i .closed } : LifeSt).held + 1 := by
    unfold LifeSt.held
    dsimp only
    omega
  apply Kref.Counts.put
  rw [← hheld]
  exact h.counts

theorem LifeInv.kernel {t : LifeSt} {o : Option KState} (h : LifeInv l)
    (hs : (o.map fun k => { l with k := k }) = some t) : LifeInv t := by
  obtain ⟨k, _, rfl⟩ := Option.map_eq_some_iff.mp hs
  exact ⟨h.stays, h.counts, h.gone⟩

theorem LifeInv.file {cfg : Config} {t : LifeSt} {a : FileAct} (h : LifeInv l)
    (hg : a = .status → l.dtr ≠ .returned) (hs : l.file cfg i a = some t) : LifeInv t := by
  cases a with
  | read count nonblock => exact h.kernel hs
  | reader ok => exact h.kernel hs
  | poll =>
    obtain rfl := Option.some.inj hs
    exact h
  | status =>
    obtain rfl := Option.some.inj hs
    refine ⟨?_, h.counts, h.gone⟩
    have hti : l.ti ≠ none := fun e => hg rfl (h.gone.mp e)
    obtain ⟨ti, hti⟩ := Option.ne_none_iff_exists'.mp hti
    simp [h.stays, cdpIoctlStatus, hti]
  | bitmapBegin => exact h.kernel hs
  | bitmapWord => exact h.kernel hs
  | bitmapDone ok => exact h.kernel hs
  | store w =>
    obtain rfl := Option.some.inj hs
    exact ⟨h.stays, h.counts, h.gone⟩
  | noTty =>
    obtain rfl := Option.some.inj hs
    exact h

theorem LifeInv.goOn {d : DtrPc} (h : LifeInv l) (k : KState) (cdev : Bool) (e : DtrPc)
    (hd : l.dtr = d) (href : e.refGone = d.refGone) (hne : d ≠ .returned) (hne' : e ≠ .returned) :
    LifeInv { l with k := k, cdev := cdev, dtr := e } := by
  refine ⟨h.stays, ?_, ?_⟩
  · have hcounts := h.counts
    unfold LifeSt.held at hcounts
    rw [hd, ← href] at hcounts
    exact hcounts
  · exact iff_of_false (fun hti => hne (hd ▸ h.gone.mp hti)) hne'

theorem LifeInv.dtr {cfg : Config} {t : LifeSt} (h : LifeInv l)
    (hs : l.dtrNext cfg l.dtr = some t) : LifeInv t := by
  cases hd : l.dtr with
  | attached =>
    rw [hd] at hs
    obtain ⟨k, _, rfl⟩ := Option.map_eq_some_iff.mp hs
    exact h.goOn k l.cdev .dead hd rfl (by decide) (by decide)
  | dead =>
    rw [hd] at hs
    obtain rfl := Option.some.inj hs
    exact h.goOn l.k l.cdev .deviceDestroyed hd rfl (by decide) (by decide)
  | deviceDestroyed =>
    rw [hd] at hs
    obtain rfl := Option.some.inj hs
    exact h.goOn l.k false .cdevDeleted hd rfl (by decide) (by decide)
  | cdevDeleted =>
    rw [hd] at hs
    obtain rfl := Option.some.inj hs
    exact h.goOn l.k l.cdev .devicePut hd rfl (by decide) (by decide)
  | devicePut =>
    rw [hd] at hs
    obtain rfl := Option.some.inj hs
    have hsucc : l.kref.Counts (l.files.count .opened + 1) := by
      have hcounts := h.counts
      unfold LifeSt.held at hcounts
      rw [hd, Nat.add_comm] at hcounts
      exact hcounts
    refine ⟨h.stays, ?_, iff_of_false ?_ fun hret => by cases hret⟩
    · show l.kref.put.Counts (0 + l.files.count .opened)
      rw [Nat.zero_add]
      exact hsucc.put
    · intro hti
      have hret := h.gone.mp hti
      rw [hd] at hret
      cases hret
  | refPut =>
    rw [hd] at hs
    obtain rfl := Option.some.inj hs
    have hcounts := h.counts
    unfold LifeSt.held at hcounts
    rw [hd] at hcounts
    exact ⟨h.stays, hcounts, iff_of_true rfl rfl⟩
  | returned =>
    rw [hd] at hs
    cases hs

theorem LifeInv.step {cfg : Config} {t : LifeSt} {a : LifeAct} (h : LifeInv l)
    (hg : LifeOk (some l) a) (hs : l.step cfg a = some t) : LifeInv t := by
  cases a with
  | ctr env minor => cases hs
  | bio a =>
    unfold LifeSt.step at hs
    dsimp only at hs
    split at hs
    · exact h.kernel hs
    · cases hs
  | lookup =>
    unfold LifeSt.step at hs
    dsimp only at hs
    split at hs
    · obtain rfl := Option.some.inj hs
      refine ⟨h.stays, ?_, h.gone⟩
      have hheld : ({ l with files := l.files ++ [.looked] } : LifeSt).held = l.held := by
        simp [LifeSt.held]
      rw [hheld]
      exact h.counts
    · cases hs
  | test i stale =>
    unfold LifeSt.step at hs
    dsimp only at hs
    split at hs
    next hi =>
      obtain rfl := Option.some.inj hs
      have hpc : ∀ dead : Bool, (if dead then FilePc.refused else .tested) ≠ .opened := by decide
      exact h.setFile hi (by decide) (hpc _)
    next => cases hs
  | get i =>
    unfold LifeSt.step at hs
    dsimp only at hs
    split at hs
    next hi =>
      obtain rfl := Option.some.inj hs
      exact h.get hi (hg l rfl)
    next => cases hs
  | file i a =>
    unfold LifeSt.step at hs
    dsimp only at hs
    split at hs
    · apply h.file _ hs
      rintro rfl
      exact hg l rfl
    · cases hs
  | release i =>
    unfold LifeSt.step at hs
    dsimp only at hs
    split at hs
    next hi =>
      obtain rfl := Option.some.inj hs
      exact h.release hi.1
    next => cases hs
  | dtr => exact h.dtr hs

/-- a STATUS when the target has been removed -/
theorem status_breaks {cfg : Config} {t : LifeSt} (h : LifeInv l) (hret : l.dtr = .returned)
    (hs : l.step cfg (.file i .status) = some t) : ¬ Lifetime t := by
  unfold LifeSt.step LifeSt.file at hs
  dsimp only at hs
  split at hs
  · obtain rfl := Option.some.inj hs
    intro hl
    have hstays := hl.stays
    simp [cdpIoctlStatus, h.gone.mpr hret] at hstays
  · cases hs

/-- a reference to what has been freed -/
theorem get_breaks {cfg : Config} {t : LifeSt} (hfreed : l.kref.freed ≠ 0)
    (hs : l.step cfg (.get i) = some t) : ¬ Lifetime t := by
  unfold LifeSt.step at hs
  dsimp only at hs
  split at hs
  next hi =>
    obtain rfl := Option.some.inj hs
    intro hl
    have hmem : FilePc.opened ∈ l.files.set i .opened :=
      List.mem_set (List.getElem?_eq_some_iff.mp hi).1 _
    have hf := hl.freed
    rw [if_neg (fun hn => hn.2 hmem)] at hf
    exact hfreed hf
  next => cases hs

end

/-! ## runs -/

/-- the invariant, also before there is a target -/
def LifeInvAt (s : Option LifeSt) : Prop := ∀ l, s = some l → LifeInv l

theorem LifeInvAt.step {cfg : Config} {dev : Nat → UInt8} {s t : Option LifeSt} {a : LifeAct}
    (h : LifeInvAt s) (hg : LifeOk s a) (hs : lifeStep cfg dev s a = some t) : LifeInvAt t := by
  intro u hu
  subst hu
  cases s with
  | none =>
    cases a with
    | ctr env minor =>
      unfold lifeStep at hs
      dsimp only at hs
      split at hs
      · obtain rfl := Option.some.inj (Option.some.inj hs)
        exact LifeInv.attach cfg dev _ minor
      · cases hs
    | bio a => cases hs
    | lookup => cases hs
    | test i stale => cases hs
    | get i => cases hs
    | file i a => cases hs
    | release i => cases hs
    | dtr => cases hs
  | some l =>
    obtain ⟨t, ht, htu⟩ := Option.map_eq_some_iff.mp
      (show (l.step cfg a).map some = some (some u) from hs)
    obtain rfl := Option.some.inj htu
    exact (h l rfl).step hg ht

/-- **The life of a target.** For every order of `cdp_ctr`, opens, file operations, releases and
one `cdp_dtr`: no file operation follows `t->ti` after `cdp_dtr`, and `t` is freed once, after
`cdp_dtr` and the last release, exactly if no STATUS comes after `cdp_dtr` and no open takes its
reference when `t` has been freed. -/
theorem lifetime_always (cfg : Config) (dev : Nat → UInt8) (as : List LifeAct) (s : Option LifeSt)
    (h : exec (lifeStep cfg dev) none as = some s) :
    Always (lifeStep cfg dev) LifetimeHolds none as ↔ Meets (lifeStep cfg dev) LifeOk none as := by
  apply always_iff_meets (I := LifeInvAt) (fun s hi l hl => (hi l hl).lifetime)
    (fun s a t hi hg hs => hi.step hg hs) ?_ (fun l hl => by cases hl) h
  intro s a t hi hn hs hP
  cases a with
  | file i a =>
    cases a with
    | status =>
      obtain ⟨l, hl⟩ := not_forall.mp hn
      obtain ⟨rfl, hret⟩ := Classical.not_imp.mp hl
      obtain ⟨u, hu, rfl⟩ := Option.map_eq_some_iff.mp
        (show (l.step cfg (.file i .status)).map some = some t from hs)
      exact status_breaks (hi l rfl) (not_not.mp hret) hu (hP u rfl)
    | read count nonblock => exact hn trivial
    | reader ok => exact hn trivial
    | poll => exact hn trivial
    | bitmapBegin => exact hn trivial
    | bitmapWord => exact hn trivial
    | bitmapDone ok => exact hn trivial
    | store w => exact hn trivial
    | noTty => exact hn trivial
  | get i =>
    obtain ⟨l, hl⟩ := not_forall.mp hn
    obtain ⟨rfl, hfreed⟩ := Classical.not_imp.mp hl
    obtain ⟨u, hu, rfl⟩ := Option.map_eq_some_iff.mp
      (show (l.step cfg (.get i)).map some = some t from hs)
    exact get_breaks hfreed hu (hP u rfl)
  | ctr env minor => exact hn trivial
  | bio a => exact hn trivial
  | lookup => exact hn trivial
  | test i stale => exact hn trivial
  | release i => exact hn trivial
  | dtr => exact hn trivial

/-! ## the runs -/

/-- `cdp_dtr` from its first statement to its return -/
def removal : List LifeAct := List.replicate 6 .dtr

/-- an open, a STATUS, the removal, a poll on the old descriptor, and its release -/
def quietLife : List LifeAct :=
  [.ctr .ample 0, .lookup, .test 0 false, .get 0, .file 0 .status] ++ removal ++
    [.file 0 .poll, .release 0]

/-- the STATUS comes after the removal -/
def lateStatus : List LifeAct :=
  [.ctr .ample 0, .lookup, .test 0 false, .get 0] ++ removal ++ [.file 0 .status]

/-- the open has tested `dead` when the removal begins -/
def lateGet : List LifeAct := [.ctr .ample 0, .lookup, .test 0 false] ++ removal ++ [.get 0]

def lifeOkB (s : Option LifeSt) : LifeAct → Bool
  | .file _ .status => s.all fun l => decide (l.dtr ≠ .returned)
  | .get _ => s.all fun l => decide (l.kref.freed = 0)
  | _ => true

theorem lifeOk_of_lifeOkB (s : Option LifeSt) (a : LifeAct) (h : lifeOkB s a = true) :
    LifeOk s a := by
  cases a with
  | file i a =>
    cases a with
    | status =>
      rintro l rfl
      exact of_decide_eq_true h
    | read count nonblock => trivial
    | reader ok => trivial
    | poll => trivial
    | bitmapBegin => trivial
    | bitmapWord => trivial
    | bitmapDone ok => trivial
    | store w => trivial
    | noTty => trivial
  | get i =>
    rintro l rfl
    exact of_decide_eq_true h
  | ctr env minor => trivial
  | bio a => trivial
  | lookup => trivial
  | test i stale => trivial
  | release i => trivial
  | dtr => trivial

theorem lifetime_always_quiet :
    (∃ s, exec (lifeStep smallConfig fun _ => 0) none quietLife = some s) ∧
      Always (lifeStep smallConfig fun _ => 0) LifetimeHolds none quietLife := by
  have h : (exec (lifeStep smallConfig fun _ => 0) none quietLife).isSome = true := by
    decide +kernel
  obtain ⟨s, hs⟩ := Option.isSome_iff_exists.mp h
  refine ⟨⟨s, hs⟩, (lifetime_always smallConfig (fun _ => 0) quietLife s hs).mpr ?_⟩
  apply meets_of_meetsB lifeOk_of_lifeOkB
  decide +kernel

/-- `t->ti` is followed when it has been released; `t` is freed at the end of `cdp_dtr`, and there
is a descriptor -/
theorem lifetime_breaks :
    (∃ l, exec (lifeStep smallConfig fun _ => 0) none lateStatus = some (some l) ∧ ¬ Lifetime l) ∧
      ∃ l, exec (lifeStep smallConfig fun _ => 0) none lateGet = some (some l) ∧ ¬ Lifetime l := by
  constructor
  · have h : ((exec (lifeStep smallConfig fun _ => 0) none lateStatus).map fun s =>
        s.map fun l => l.strayed) = some (some true) := by decide +kernel
    obtain ⟨s, hs, hv⟩ := Option.map_eq_some_iff.mp h
    obtain ⟨l, rfl, hl⟩ := Option.map_eq_some_iff.mp hv
    refine ⟨l, hs, ?_⟩
    intro hlife
    rw [hlife.stays] at hl
    cases hl
  · have h : ((exec (lifeStep smallConfig fun _ => 0) none lateGet).map fun s =>
        s.map fun l => (l.kref.freed, l.files)) = some (some (1, [.opened])) := by decide +kernel
    obtain ⟨s, hs, hv⟩ := Option.map_eq_some_iff.mp h
    obtain ⟨l, rfl, hl⟩ := Option.map_eq_some_iff.mp hv
    obtain ⟨hfreed, hfiles⟩ := Prod.mk.inj hl
    refine ⟨l, hs, ?_⟩
    intro hlife
    have hf := hlife.freed
    simp [hfreed, hfiles] at hf

end CDP
