import DmCdp.Kernel.RingLayout

/-!
# Marking and clearing the bitmap, bit by bit and word by word

Writers run `cdp_mark` one `set_bit` at a time and may then be dropped; any number of calls clear
the bitmap one long at a time, reset `overflowed` under the lock, and copy out what they took.

* `Marker`       a bio in `cdp_mark`, or dropped after it; `marker_runs`: undisturbed, its steps make
                 up `cdpMark`;
* `ClearCall`    `DM_CDP_IOC_BITMAP` (with or without `DM_CDP_BM_CLEAR`), or
                 `DM_CDP_IOC_BITMAP_CLEAR` and the message `clear_bitmap`, which are the same code;
* `bits_held`    no bit is lost between kernel and reader, if no call whose buffer cannot be written
                 finds anything to clear; `bits_lost` is the run in which one does;
* `flag_kept`    `overflowed` is cleared too early exactly if it is reset while a bit is set that a
                 dropped bio has set since; `flag_early` is the run in which it is.
-/

set_option linter.unusedVariables false

namespace CDP
open Mach Slots

/-! ## state -/

/-- a bio that marks the bits from `next` up to `stop`; ghost: its bits not cleared since -/
structure Marker where
  next : Nat
  stop : Nat
  dropped : Bool
  mine : Nat → Bool

/-- who clears.  `len` and `clear` are fields of `struct dm_cdp_bitmap`; `faults`: the buffer cannot
be written. -/
inductive ClearKind where
  | bitmap (len : Nat) (clear faults : Bool)
  | zero
  deriving DecidableEq

def ClearKind.clears : ClearKind → Bool
  | .bitmap _ clear _ => clear
  | .zero => true

def ClearKind.faults : ClearKind → Bool
  | .bitmap _ _ faults => faults
  | .zero => false

inductive Errno where
  | ok
  | efault
  | enospc
  | enomem
  deriving DecidableEq

inductive ClearPc where
  | entry
  | words (w : Nat)
  | reset
  | copyOut
  | returned (ret : Errno)
  deriving DecidableEq

/-- `snap` is `tmp`; ghost: the call has changed the bitmap or `overflowed` -/
structure ClearCall where
  kind : ClearKind
  pc : ClearPc
  snap : Nat → Bool
  changed : Bool

/-- ghost `due`: the bit has been set, and no clearing call that returned 0 since had it -/
structure BitsSt where
  t : Target
  markers : List Marker
  calls : List ClearCall
  due : Nat → Bool

def BitsSt.init (t : Target) : BitsSt := ⟨t, [], [], t.bitmap⟩

/-! ## steps -/

/-- the first lines of `cdp_mark` -/
def Target.marker (t : Target) (sector bytes : Nat) : Marker :=
  if bytes = 0 then ⟨0, 0, false, fun _ => false⟩
  else ⟨sector / t.chunkSectors, markLast t sector bytes + 1, false, fun _ => false⟩

def Marker.set (m : Marker) : Marker :=
  { m with next := m.next + 1, mine := Function.update m.mine m.next true }

/-- `set_bit(b, t->bitmap)` -/
def setBitStep (s : BitsSt) (i : Nat) : Option BitsSt :=
  match s.markers[i]? with
  | none => none
  | some m =>
    if m.next < m.stop then
      some { s with
        t := { s.t with bitmap := Function.update s.t.bitmap m.next true }
        markers := s.markers.modify i Marker.set
        due := Function.update s.due m.next true }
    else none

/-- `cdp_reserve` returns `NULL` -/
def dropStep (s : BitsSt) (i : Nat) : Option BitsSt :=
  match s.markers[i]? with
  | none => none
  | some m =>
    if m.next < m.stop ∨ m.dropped = true then none
    else
      some { s with
        t := s.t.overflow
        markers := s.markers.modify i fun m => { m with dropped := true } }

def ClearCall.to (pc : ClearPc) (c : ClearCall) : ClearCall := { c with pc := pc }

/-- up to the loop: `copy_from_user`, the test of `req.len`, `vmalloc` -/
def ClearKind.entered (k : ClearKind) (t : Target) (readable alloc : Bool) : ClearPc :=
  match k with
  | .zero => .words 0
  | .bitmap len _ _ =>
    if readable = false then .returned .efault
    else if len < t.nlongs * 8 then .returned .enospc
    else if alloc = false then .returned .enomem
    else .words 0

def enterStep (s : BitsSt) (i : Nat) (readable alloc : Bool) : Option BitsSt :=
  match s.calls[i]? with
  | none => none
  | some c =>
    if c.pc = .entry then
      some { s with calls := s.calls.modify i (ClearCall.to (c.kind.entered s.t readable alloc)) }
    else none

def Target.longSet (t : Target) (w : Nat) : Bool := (List.range 64).any fun j => t.bitmap (w * 64 + j)

/-- `xchg`, `READ_ONCE`, or the store of `bitmap_zero` -/
def ClearCall.take (t : Target) (w : Nat) (c : ClearCall) : ClearCall :=
  { c with
    pc := .words (w + 1)
    snap := fun b => if b / 64 = w then t.bitmap b else c.snap b
    changed := c.changed || c.kind.clears && t.longSet w }

def Marker.wipe (w : Nat) (m : Marker) : Marker :=
  { m with mine := fun b => if b / 64 = w then false else m.mine b }

/-- one iteration of the loop over the longs, or its end -/
def wordStep (s : BitsSt) (i : Nat) : Option BitsSt :=
  match s.calls[i]? with
  | none => none
  | some c =>
    match c.pc with
    | .words w =>
      if w < s.t.nlongs then
        if c.kind.clears then
          some { s with
            t := { s.t with bitmap := fun b => if b / 64 = w then false else s.t.bitmap b }
            markers := s.markers.map (Marker.wipe w)
            calls := s.calls.modify i (ClearCall.take s.t w) }
        else some { s with calls := s.calls.modify i (ClearCall.take s.t w) }
      else
        some { s with
          calls := s.calls.modify i (ClearCall.to (if c.kind.clears then .reset else .copyOut)) }
    | _ => none

/-- `t->overflowed = false` under the lock -/
def resetStep (s : BitsSt) (i : Nat) : Option BitsSt :=
  match s.calls[i]? with
  | none => none
  | some c =>
    if c.pc = .reset then
      some { s with
        t := { s.t with overflowed := false }
        calls := s.calls.modify i fun c => { c with
          pc := if c.kind = .zero then .returned .ok else .copyOut
          changed := c.changed || s.t.overflowed } }
    else none

/-- `copy_to_user` and the return -/
def copyOutStep (s : BitsSt) (i : Nat) : Option BitsSt :=
  match s.calls[i]? with
  | none => none
  | some c =>
    if c.pc = .copyOut then
      if c.kind.faults then
        some { s with calls := s.calls.modify i (ClearCall.to (.returned .efault)) }
      else
        some { s with
          calls := s.calls.modify i (ClearCall.to (.returned .ok))
          due := fun b => s.due b && !(c.kind.clears && c.snap b) }
    else none

inductive BitsAct where
  | mark (sector bytes : Nat)
  | setBit (i : Nat)
  | drop (i : Nat)
  | call (k : ClearKind)
  | enter (i : Nat) (readable alloc : Bool)
  | word (i : Nat)
  | reset (i : Nat)
  | copyOut (i : Nat)

def bitsStep (s : BitsSt) : BitsAct → Option BitsSt
  | .mark sector bytes => some { s with markers := s.markers ++ [s.t.marker sector bytes] }
  | .setBit i => setBitStep s i
  | .drop i => dropStep s i
  | .call k => some { s with calls := s.calls ++ [⟨k, .entry, fun _ => false, false⟩] }
  | .enter i readable alloc => enterStep s i readable alloc
  | .word i => wordStep s i
  | .reset i => resetStep s i
  | .copyOut i => copyOutStep s i

/-! ## what a step does -/

inductive BitsMoved (s : BitsSt) : BitsAct → BitsSt → Prop
  | mark (sector bytes : Nat) : BitsMoved s (.mark sector bytes)
      { s with markers := s.markers ++ [s.t.marker sector bytes] }
  | setBit (i : Nat) (m : Marker) : s.markers[i]? = some m → m.next < m.stop →
      BitsMoved s (.setBit i)
        { s with
          t := { s.t with bitmap := Function.update s.t.bitmap m.next true }
          markers := s.markers.modify i Marker.set
          due := Function.update s.due m.next true }
  | drop (i : Nat) (m : Marker) : s.markers[i]? = some m → m.stop ≤ m.next → m.dropped = false →
      BitsMoved s (.drop i)
        { s with
          t := s.t.overflow
          markers := s.markers.modify i fun m => { m with dropped := true } }
  | call (k : ClearKind) : BitsMoved s (.call k)
      { s with calls := s.calls ++ [⟨k, .entry, fun _ => false, false⟩] }
  | enter (i : Nat) (readable alloc : Bool) (c : ClearCall) : s.calls[i]? = some c → c.pc = .entry →
      BitsMoved s (.enter i readable alloc)
        { s with calls := s.calls.modify i (ClearCall.to (c.kind.entered s.t readable alloc)) }
  | take (i w : Nat) (c : ClearCall) : s.calls[i]? = some c → c.pc = .words w → w < s.t.nlongs →
      c.kind.clears = true → BitsMoved s (.word i)
        { s with
          t := { s.t with bitmap := fun b => if b / 64 = w then false else s.t.bitmap b }
          markers := s.markers.map (Marker.wipe w)
          calls := s.calls.modify i (ClearCall.take s.t w) }
  | read (i w : Nat) (c : ClearCall) : s.calls[i]? = some c → c.pc = .words w → w < s.t.nlongs →
      c.kind.clears = false → BitsMoved s (.word i)
        { s with calls := s.calls.modify i (ClearCall.take s.t w) }
  | looped (i w : Nat) (c : ClearCall) : s.calls[i]? = some c → c.pc = .words w → ¬w < s.t.nlongs →
      BitsMoved s (.word i)
        { s with
          calls := s.calls.modify i (ClearCall.to (if c.kind.clears then .reset else .copyOut)) }
  | reset (i : Nat) (c : ClearCall) : s.calls[i]? = some c → c.pc = .reset → BitsMoved s (.reset i)
      { s with
        t := { s.t with overflowed := false }
        calls := s.calls.modify i fun c => { c with
          pc := if c.kind = .zero then .returned .ok else .copyOut
          changed := c.changed || s.t.overflowed } }
  | fault (i : Nat) (c : ClearCall) : s.calls[i]? = some c → c.pc = .copyOut → c.kind.faults = true →
      BitsMoved s (.copyOut i)
        { s with calls := s.calls.modify i (ClearCall.to (.returned .efault)) }
  | copied (i : Nat) (c : ClearCall) : s.calls[i]? = some c → c.pc = .copyOut →
      c.kind.faults = false → BitsMoved s (.copyOut i)
        { s with
          calls := s.calls.modify i (ClearCall.to (.returned .ok))
          due := fun b => s.due b && !(c.kind.clears && c.snap b) }

theorem bits_cases {s s' : BitsSt} {a : BitsAct} (h : bitsStep s a = some s') : BitsMoved s a s' := by
  cases a with
  | mark sector bytes => exact Option.some.inj h ▸ .mark sector bytes
  | setBit i =>
    change setBitStep s i = some s' at h
    unfold setBitStep at h
    split at h
    · cases h
    · rename_i m hm
      split at h
      · rename_i hlt
        exact Option.some.inj h ▸ .setBit i m hm hlt
      · cases h
  | drop i =>
    change dropStep s i = some s' at h
    unfold dropStep at h
    split at h
    · cases h
    · rename_i m hm
      split at h
      · cases h
      · rename_i hn
        rw [not_or, Bool.not_eq_true] at hn
        exact Option.some.inj h ▸ .drop i m hm (by omega) hn.2
  | call k => exact Option.some.inj h ▸ .call k
  | enter i readable alloc =>
    change enterStep s i readable alloc = some s' at h
    unfold enterStep at h
    split at h
    · cases h
    · rename_i c hc
      split at h
      · rename_i hpc
        exact Option.some.inj h ▸ .enter i readable alloc c hc hpc
      · cases h
  | word i =>
    change wordStep s i = some s' at h
    unfold wordStep at h
    split at h
    · cases h
    · rename_i c hc
      split at h
      · rename_i w hpc
        split at h
        · rename_i hw
          split at h
          · rename_i hcl
            exact Option.some.inj h ▸ .take i w c hc hpc hw hcl
          · rename_i hcl
            exact Option.some.inj h ▸ .read i w c hc hpc hw (Bool.eq_false_iff.mpr hcl)
        · rename_i hw
          exact Option.some.inj h ▸ .looped i w c hc hpc hw
      · cases h
  | reset i =>
    change resetStep s i = some s' at h
    unfold resetStep at h
    split at h
    · cases h
    · rename_i c hc
      split at h
      · rename_i hpc
        exact Option.some.inj h ▸ .reset i c hc hpc
      · cases h
  | copyOut i =>
    change copyOutStep s i = some s' at h
    unfold copyOutStep at h
    split at h
    · cases h
    · rename_i c hc
      split at h
      · rename_i hpc
        split at h
        · rename_i hf
          exact Option.some.inj h ▸ .fault i c hc hpc hf
        · rename_i hf
          exact Option.some.inj h ▸ .copied i c hc hpc (Bool.eq_false_iff.mpr hf)
      · cases h

theorem setBits_run {i : Nat} (k : Nat) : ∀ {s : BitsSt} {m : Marker}, s.markers[i]? = some m →
    m.stop - m.next = k → ∃ s', exec bitsStep s (List.replicate k (.setBit i)) = some s' ∧
      s'.t = { s.t with
        bitmap := fun b => if m.next ≤ b ∧ b < m.stop then true else s.t.bitmap b } := by
  induction k with
  | zero =>
    intro s m hm hk
    refine ⟨s, rfl, ?_⟩
    have hnone : (fun b => if m.next ≤ b ∧ b < m.stop then true else s.t.bitmap b) = s.t.bitmap := by
      funext b
      exact if_neg (by omega)
    rw [hnone]
  | succ k ih =>
    intro s m hm hk
    have hlt : m.next < m.stop := by omega
    obtain ⟨u, hu⟩ : ∃ u : BitsSt, u =
      { s with
        t := { s.t with bitmap := Function.update s.t.bitmap m.next true }
        markers := s.markers.modify i Marker.set
        due := Function.update s.due m.next true } := ⟨_, rfl⟩
    have hstep : bitsStep s (.setBit i) = some u := by
      show setBitStep s i = some u
      unfold setBitStep
      rw [hm]
      dsimp only
      rw [if_pos hlt, hu]
    have hmu : u.markers[i]? = some m.set := by
      rw [hu]
      exact modify_self hm
    obtain ⟨s', hs', ht⟩ := ih hmu (by show m.stop - (m.next + 1) = k; omega)
    refine ⟨s', exec_cons_some.mpr ⟨u, hstep, hs'⟩, ht.trans ?_⟩
    have hbits : (fun b => if m.next + 1 ≤ b ∧ b < m.stop then true
        else Function.update s.t.bitmap m.next true b) =
        fun b => if m.next ≤ b ∧ b < m.stop then true else s.t.bitmap b := by
      funext b
      by_cases hb : b = m.next
      · rw [hb, Function.update_self, ite_self, if_pos ⟨le_rfl, hlt⟩]
      · rw [Function.update_of_ne hb]
        exact if_congr (by omega) rfl rfl
    rw [hu]
    show Target.mk _ _ _ _ _ _ _ _ _ _ (fun b => if m.next + 1 ≤ b ∧ b < m.stop then true
      else Function.update s.t.bitmap m.next true b) _ _ _ = _
    rw [hbits]

/-- **The steps of one writer make up `cdpMark`.** -/
theorem marker_runs (s : BitsSt) (sector bytes : Nat) : ∃ s', exec bitsStep s (.mark sector bytes ::
      List.replicate ((s.t.marker sector bytes).stop - (s.t.marker sector bytes).next)
        (.setBit s.markers.length)) = some s' ∧ s'.t = cdpMark s.t sector bytes := by
  obtain ⟨u, hu⟩ : ∃ u : BitsSt, u = { s with markers := s.markers ++ [s.t.marker sector bytes] } :=
    ⟨_, rfl⟩
  have hm : u.markers[s.markers.length]? = some (s.t.marker sector bytes) := by
    rw [hu]
    exact List.getElem?_concat_length
  obtain ⟨s', hs', ht⟩ := setBits_run _ hm rfl
  refine ⟨s', exec_cons_some.mpr ⟨u, by rw [hu]; rfl, hs'⟩, ht.trans ?_⟩
  rw [hu]
  unfold Target.marker cdpMark
  by_cases hb : bytes = 0
  · rw [if_pos hb, if_pos hb]
    simp
  · rw [if_neg hb, if_neg hb]
    simp only [Nat.lt_succ_iff]

/-! ## bits between kernel and reader -/

/-- the call has begun and not returned -/
def ClearCall.Running (c : ClearCall) : Prop := ∀ e, c.pc ≠ .returned e

/-- a bit that has been set is still set, in the snapshot of a clearing call under way, or has been
in that of one that returned 0 since -/
def BitsHeld (s : BitsSt) : Prop := ∀ b, s.due b = true → s.t.bitmap b = true ∨
  ∃ c ∈ s.calls, c.Running ∧ c.kind.clears = true ∧ c.snap b = true

/-- a call that has returned an error has changed nothing -/
def ErrorsQuiet (s : BitsSt) : Prop :=
  ∀ c ∈ s.calls, ∀ e, c.pc = .returned e → e ≠ .ok → c.changed = false

/-- the calls are `DM_CDP_IOC_BITMAP`, and one whose buffer cannot be written finds nothing that it
would clear -/
def ReadableOk (s : BitsSt) : BitsAct → Prop
  | .call k => k ≠ .zero
  | .word i => ∀ c w, s.calls[i]? = some c → c.pc = .words w → c.kind.clears = true →
      c.kind.faults = true → s.t.longSet w = false
  | .reset i => ∀ c, s.calls[i]? = some c → c.kind.faults = true → s.t.overflowed = false
  | _ => True

/-- what holds of a call at any time -/
structure CallOk (c : ClearCall) : Prop where
  kind : c.kind ≠ .zero
  entry : c.pc = .entry → c.changed = false ∧ ∀ b, c.snap b = false
  ahead : ∀ w, c.pc = .words w → ∀ b, c.snap b = true → b / 64 < w
  faulty : c.kind.faults = true → c.changed = false ∧
    (c.kind.clears = true → ∀ b, c.snap b = false)
  quiet : ∀ e, c.pc = .returned e → e ≠ .ok → c.changed = false

theorem longSet_false {t : Target} {w : Nat} (h : t.longSet w = false) {b : Nat} (hb : b / 64 = w) :
    t.bitmap b = false := by
  unfold Target.longSet at h
  rw [List.any_eq_false] at h
  have h1 := h (b % 64) (List.mem_range.mpr (Nat.mod_lt _ (by decide)))
  rw [← hb, Nat.div_add_mod'] at h1
  exact Bool.not_eq_true _ ▸ h1

section
variable {s s' : BitsSt} {a : BitsAct} {i w : Nat} {c : ClearCall} {pc : ClearPc}

theorem CallOk.to (h : CallOk c) (h1 : pc ≠ .entry) (h2 : ∀ w, pc = .words w → c.pc = .entry)
    (h3 : ∀ e, pc = .returned e → e ≠ .ok → c.changed = false) : CallOk (c.to pc) := by
  refine ⟨h.kind, fun e => absurd e h1, fun w e b hb => ?_, h.faulty, h3⟩
  rw [show (c.to pc).snap b = false from (h.entry (h2 w e)).2 b] at hb
  cases hb

theorem CallOk.take (h : CallOk c) (hpc : c.pc = .words w)
    (hok : c.kind.clears = true → c.kind.faults = true → s.t.longSet w = false) :
    CallOk (c.take s.t w) := by
  refine ⟨h.kind, fun e => (ClearPc.noConfusion e : False).elim, fun w' e b hb => ?_, fun hf => ?_,
    fun e he => (ClearPc.noConfusion he : False).elim⟩
  · obtain rfl : w + 1 = w' := ClearPc.words.inj e
    change (if b / 64 = w then s.t.bitmap b else c.snap b) = true at hb
    split at hb
    · omega
    · have := h.ahead w hpc b hb
      omega
  · obtain ⟨h1, h2⟩ := h.faulty hf
    cases hc : c.kind.clears with
    | true =>
      refine ⟨?_, fun _ b => ?_⟩
      · show (c.changed || c.kind.clears && s.t.longSet w) = false
        rw [h1, hc, hok hc hf]
        rfl
      · show (if b / 64 = w then s.t.bitmap b else c.snap b) = false
        split
        · rename_i hb
          exact longSet_false (hok hc hf) hb
        · exact h2 hc b
    | false =>
      refine ⟨?_, fun e => ?_⟩
      · show (c.changed || c.kind.clears && s.t.longSet w) = false
        rw [h1, hc]
        rfl
      · cases hc.symm.trans e

theorem calls_modify {P : ClearCall → Prop} {u : ClearCall → ClearCall} (h : ∀ c ∈ s.calls, P c)
    (hc : s.calls[i]? = some c) (hu : P (u c)) : ∀ d ∈ s.calls.modify i u, P d := by
  intro d hd
  rcases mem_modify hc hd with rfl | hd
  · exact hu
  · exact h d hd

theorem calls_step (h : ∀ c ∈ s.calls, CallOk c) (hg : ReadableOk s a) (hs : BitsMoved s a s') :
    ∀ c ∈ s'.calls, CallOk c := by
  cases hs with
  | mark sector bytes => exact h
  | setBit i m hm hlt => exact h
  | drop i m hm hle hd => exact h
  | call k =>
    intro c hc
    rcases List.mem_append.mp hc with hc | hc
    · exact h c hc
    · obtain rfl := List.mem_singleton.mp hc
      exact ⟨hg, fun _ => ⟨rfl, fun _ => rfl⟩, fun w e => ClearPc.noConfusion e,
        fun _ => ⟨rfl, fun _ _ => rfl⟩, fun e he => ClearPc.noConfusion he⟩
  | enter i readable alloc c hc hpc =>
    have hok := h c (List.mem_of_getElem? hc)
    refine calls_modify h hc (hok.to ?_ (fun _ _ => hpc) fun e _ _ => (hok.entry hpc).1)
    unfold ClearKind.entered
    split
    · exact ClearPc.noConfusion
    · split
      · exact ClearPc.noConfusion
      · split
        · exact ClearPc.noConfusion
        · split
          · exact ClearPc.noConfusion
          · exact ClearPc.noConfusion
  | take i w c hc hpc hw hcl =>
    exact calls_modify h hc
      ((h c (List.mem_of_getElem? hc)).take hpc fun hcl hf => hg c w hc hpc hcl hf)
  | read i w c hc hpc hw hcl =>
    exact calls_modify h hc
      ((h c (List.mem_of_getElem? hc)).take hpc fun hcl hf => hg c w hc hpc hcl hf)
  | looped i w c hc hpc hw =>
    have hok := h c (List.mem_of_getElem? hc)
    refine calls_modify h hc (hok.to ?_ (fun w e => ?_) fun e he => ?_)
    · split <;> exact ClearPc.noConfusion
    · split at e <;> cases e
    · split at he <;> cases he
  | reset i c hc hpc =>
    have hok := h c (List.mem_of_getElem? hc)
    refine calls_modify h hc ⟨hok.kind, fun e => ?_, fun w e => ?_, fun hf => ?_, fun e he => ?_⟩
    · change (if c.kind = .zero then ClearPc.returned .ok else .copyOut) = .entry at e
      split at e <;> cases e
    · change (if c.kind = .zero then ClearPc.returned .ok else .copyOut) = .words w at e
      split at e <;> cases e
    · obtain ⟨h1, h2⟩ := hok.faulty hf
      refine ⟨?_, h2⟩
      show (c.changed || s.t.overflowed) = false
      rw [h1, hg c hc hf]
      rfl
    · change (if c.kind = .zero then ClearPc.returned .ok else .copyOut) = .returned e at he
      rw [if_neg hok.kind] at he
      cases he
  | fault i c hc hpc hf =>
    have hok := h c (List.mem_of_getElem? hc)
    exact calls_modify h hc (hok.to ClearPc.noConfusion (fun w e => ClearPc.noConfusion e)
      fun e _ _ => (hok.faulty hf).1)
  | copied i c hc hpc hf =>
    have hok := h c (List.mem_of_getElem? hc)
    exact calls_modify h hc (hok.to ClearPc.noConfusion (fun w e => ClearPc.noConfusion e)
      fun e he hne => absurd (ClearPc.returned.inj he).symm hne)

/-- call `c` is under way with bit `b` in its snapshot -/
def ClearCall.Has (b : Nat) (c : ClearCall) : Prop :=
  c.Running ∧ c.kind.clears = true ∧ c.snap b = true

theorem has_modify {u : ClearCall → ClearCall} {b : Nat} (hc : s.calls[i]? = some c)
    (hu : c.Has b → (u c).Has b) (h : ∃ d ∈ s.calls, d.Has b) :
    ∃ d ∈ s.calls.modify i u, d.Has b := by
  obtain ⟨d, hd, hb⟩ := h
  obtain ⟨j, hj⟩ := List.mem_iff_getElem?.mp hd
  by_cases hij : j = i
  · obtain rfl := hij
    obtain rfl := Option.some.inj (hc.symm.trans hj)
    exact ⟨u c, List.mem_of_getElem? (modify_self hc), hu hb⟩
  · exact ⟨d, List.mem_of_getElem? (modify_other hij hj), hb⟩

theorem has_self {u : ClearCall → ClearCall} {b : Nat} (hc : s.calls[i]? = some c)
    (hu : (u c).Has b) : ∃ d ∈ s.calls.modify i u, d.Has b :=
  ⟨u c, List.mem_of_getElem? (modify_self hc), hu⟩

theorem ClearCall.Has.to {b : Nat} (h : c.Has b) (hpc : ∀ e, pc ≠ .returned e) : (c.to pc).Has b :=
  ⟨hpc, h.2⟩

/-- **Every step keeps every bit in one of the two places.** -/
theorem BitsHeld.step (hok : ∀ c ∈ s.calls, CallOk c) (h : BitsHeld s) (hg : ReadableOk s a)
    (hs : BitsMoved s a s') : BitsHeld s' := by
  cases hs with
  | mark sector bytes => exact h
  | setBit i m hm hlt =>
    intro b hb
    change Function.update s.due m.next true b = true at hb
    show Function.update s.t.bitmap m.next true b = true ∨ _
    by_cases hbm : b = m.next
    · rw [hbm, Function.update_self]
      exact Or.inl rfl
    · rw [Function.update_of_ne hbm] at hb ⊢
      exact h b hb
  | drop i m hm hle hd => exact h
  | call k =>
    intro b hb
    refine (h b hb).imp_right ?_
    rintro ⟨d, hd, hh⟩
    exact ⟨d, List.mem_append_left _ hd, hh⟩
  | enter i readable alloc c hc hpc =>
    intro b hb
    refine (h b hb).imp_right (has_modify hc fun hh => ?_)
    cases (((hok c (List.mem_of_getElem? hc)).entry hpc).2 b).symm.trans hh.2.2
  | take i w c hc hpc hw hcl =>
    intro b hb
    show (if b / 64 = w then false else s.t.bitmap b) = true ∨ _
    by_cases hbw : b / 64 = w
    · right
      rcases h b hb with hset | hh
      · refine has_self hc ⟨fun e => ClearPc.noConfusion, hcl, ?_⟩
        show (if b / 64 = w then s.t.bitmap b else c.snap b) = true
        rw [if_pos hbw, hset]
      · refine has_modify hc (fun hh => ?_) hh
        have := (hok c (List.mem_of_getElem? hc)).ahead w hpc b hh.2.2
        omega
    · rw [if_neg hbw]
      refine (h b hb).imp_right (has_modify hc fun hh => ⟨fun e => ClearPc.noConfusion, hh.2.1, ?_⟩)
      show (if b / 64 = w then s.t.bitmap b else c.snap b) = true
      rw [if_neg hbw, hh.2.2]
  | read i w c hc hpc hw hcl =>
    intro b hb
    refine (h b hb).imp_right (has_modify hc fun hh => ?_)
    cases hcl.symm.trans hh.2.1
  | looped i w c hc hpc hw =>
    intro b hb
    refine (h b hb).imp_right (has_modify hc fun hh => hh.to fun e => ?_)
    split <;> exact ClearPc.noConfusion
  | reset i c hc hpc =>
    intro b hb
    refine (h b hb).imp_right (has_modify hc fun hh => ⟨fun e he => ?_, hh.2⟩)
    change (if c.kind = .zero then ClearPc.returned .ok else .copyOut) = .returned e at he
    rw [if_neg (hok c (List.mem_of_getElem? hc)).kind] at he
    cases he
  | fault i c hc hpc hf =>
    intro b hb
    refine (h b hb).imp_right (has_modify hc fun hh => ?_)
    cases (((hok c (List.mem_of_getElem? hc)).faulty hf).2 hh.2.1 b).symm.trans hh.2.2
  | copied i c hc hpc hf =>
    intro b hb
    change (s.due b && !(c.kind.clears && c.snap b)) = true at hb
    rw [Bool.and_eq_true, Bool.not_eq_true'] at hb
    refine (h b hb.1).imp_right (has_modify hc fun hh => ?_)
    rw [hh.2.1, hh.2.2] at hb
    cases hb.2

end

/-- **No dirty bit is lost between kernel and reader.**  From any bitmap, in a run in which no call
whose buffer cannot be written finds anything to clear: every bit that has been set is still set or
in the snapshot of a call under way, or has been handed out since by one that returned 0; and a call
that has returned an error has changed neither the bitmap nor `overflowed`. -/
theorem bits_held (t : Target) (run : List BitsAct) (s : BitsSt)
    (hrun : Meets bitsStep ReadableOk (BitsSt.init t) run)
    (hs : exec bitsStep (BitsSt.init t) run = some s) : BitsHeld s ∧ ErrorsQuiet s := by
  obtain ⟨hok, hh⟩ := exec_invariant_meets (P:=fun s => (∀ c ∈ s.calls, CallOk c) ∧ BitsHeld s)
    (fun u a v hu hg hs => ⟨calls_step hu.1 hg (bits_cases hs), hu.2.step hu.1 hg (bits_cases hs)⟩)
    ⟨fun c hc => absurd hc List.not_mem_nil, fun b hb => Or.inl hb⟩ hrun hs
  exact ⟨hh, fun c hc => (hok c hc).quiet⟩

def readableOkB (s : BitsSt) : BitsAct → Bool
  | .call k => decide (k ≠ .zero)
  | .word i => (s.calls[i]?).all fun c =>
    match c.pc with
    | .words w => !(c.kind.clears && c.kind.faults) || !s.t.longSet w
    | _ => true
  | .reset i => (s.calls[i]?).all fun c => !c.kind.faults || !s.t.overflowed
  | _ => true

theorem readableOk_of_readableOkB (s : BitsSt) (a : BitsAct) (h : readableOkB s a = true) :
    ReadableOk s a := by
  cases a with
  | call k =>
    show k ≠ .zero
    exact of_decide_eq_true h
  | word i =>
    intro c w hc hpc hcl hf
    change (s.calls[i]?).all _ = true at h
    rw [hc] at h
    dsimp only [Option.all] at h
    rw [hpc, hcl, hf] at h
    exact (Bool.not_eq_true' _).mp h
  | reset i =>
    intro c hc hf
    change (s.calls[i]?).all _ = true at h
    rw [hc] at h
    dsimp only [Option.all] at h
    rw [hf] at h
    exact (Bool.not_eq_true' _).mp h
  | mark sector bytes => trivial
  | setBit i => trivial
  | drop i => trivial
  | enter i readable alloc => trivial
  | copyOut i => trivial

def oneChunk : Target := { cdpCtr smallConfig with nbits := 1 }

/-- a bit is set and handed out; a call whose buffer cannot be written finds nothing after it -/
def handOut : List BitsAct :=
  [.mark 0 512, .setBit 0, .call (.bitmap 8 true false), .call (.bitmap 8 true true),
    .enter 0 true true, .word 0, .word 0, .reset 0, .copyOut 0,
    .enter 1 true true, .word 1, .word 1, .reset 1, .copyOut 1]

theorem bits_held_run : ∃ s, exec bitsStep (BitsSt.init oneChunk) handOut = some s ∧
    s.due 0 = false ∧ BitsHeld s ∧ ErrorsQuiet s := by
  have h : (exec bitsStep (BitsSt.init oneChunk) handOut).any (fun s => !s.due 0) := by decide
  obtain ⟨s, hs, hp⟩ := (Option.any_eq_true _ _).mp h
  exact ⟨s, hs, (Bool.not_eq_true' _).mp hp, bits_held oneChunk handOut s
    (meets_of_meetsB readableOk_of_readableOkB (by decide)) hs⟩

/-- a bit is set; a call whose buffer cannot be written takes it -/
def badBuffer : List BitsAct :=
  [.mark 0 512, .setBit 0, .call (.bitmap 8 true true), .enter 0 true true, .word 0, .word 0, .reset 0,
    .copyOut 0]

/-- **The failed copy-out**: the bit is in neither place, and the call that returned `-EFAULT` has
cleared it. -/
theorem bits_lost : ∃ s, exec bitsStep (BitsSt.init oneChunk) badBuffer = some s ∧
    s.due 0 = true ∧ s.t.bitmap 0 = false ∧ ¬BitsHeld s ∧ ¬ErrorsQuiet s := by
  have h : (exec bitsStep (BitsSt.init oneChunk) badBuffer).any (fun s => s.due 0 &&
      (!s.t.bitmap 0 && decide (s.calls.map (fun c => (c.pc, c.changed))
        = [(.returned .efault, true)]))) := by
    decide
  obtain ⟨s, hs, hp⟩ := (Option.any_eq_true _ _).mp h
  rw [Bool.and_eq_true, Bool.and_eq_true, Bool.not_eq_true', decide_eq_true_eq] at hp
  obtain ⟨hdue, hclear, hcalls⟩ := hp
  obtain ⟨c, hc, hcc⟩ : ∃ c, s.calls = [c] ∧ (c.pc, c.changed) = (.returned .efault, true) := by
    cases hl : s.calls with
    | nil =>
      rw [hl] at hcalls
      cases hcalls
    | cons c l =>
      rw [hl, List.map_cons, List.cons.injEq, List.map_eq_nil_iff] at hcalls
      exact ⟨c, by rw [hcalls.2], hcalls.1⟩
  rw [Prod.mk.injEq] at hcc
  refine ⟨s, hs, hdue, hclear, fun hh => ?_, fun hq => ?_⟩
  · rcases hh 0 hdue with hb | ⟨d, hd, hrun, _⟩
    · cases hclear.symm.trans hb
    · rw [hc, List.mem_singleton] at hd
      exact hrun .efault (hd ▸ hcc.1)
  · have hquiet := hq c (by rw [hc]; exact List.mem_singleton_self c) .efault hcc.1 (by decide)
    cases hcc.2.symm.trans hquiet

/-! ## the flag -/

/-- with `overflowed` false no bit that a dropped bio has set is still set -/
def FlagKept (s : BitsSt) : Prop := s.t.overflowed = false → ∀ m ∈ s.markers, m.dropped = true →
  ∀ b, m.mine b = true → s.t.bitmap b = false

/-- when the flag is reset, the longs of the bits of every dropped bio have been cleared since it set
them -/
def ResetOk (s : BitsSt) : BitsAct → Prop
  | .reset i => ∀ m ∈ s.markers, m.dropped = true → ∀ b, m.mine b = false
  | _ => True

structure FlagInv (s : BitsSt) : Prop where
  set : ∀ m ∈ s.markers, ∀ b, m.mine b = true → s.t.bitmap b = true
  marked : ∀ m ∈ s.markers, m.dropped = true → m.stop ≤ m.next
  kept : s.t.overflowed = false → ∀ m ∈ s.markers, m.dropped = true → ∀ b, m.mine b = false

section
variable {s s' : BitsSt} {a : BitsAct}

theorem FlagInv.init (t : Target) : FlagInv (BitsSt.init t) :=
  ⟨fun m hm => absurd hm List.not_mem_nil, fun m hm => absurd hm List.not_mem_nil,
    fun _ m hm => absurd hm List.not_mem_nil⟩

theorem FlagInv.flagKept (h : FlagInv s) : FlagKept s := by
  intro ho m hm hd b hb
  cases (h.kept ho m hm hd b).symm.trans hb

theorem marker_clean (t : Target) (sector bytes : Nat) :
    (t.marker sector bytes).dropped = false ∧ ∀ b, (t.marker sector bytes).mine b = false := by
  unfold Target.marker
  split
  · exact ⟨rfl, fun _ => rfl⟩
  · exact ⟨rfl, fun _ => rfl⟩

theorem FlagInv.step (h : FlagInv s) (hg : ResetOk s a) (hs : BitsMoved s a s') : FlagInv s' := by
  cases hs with
  | mark sector bytes =>
    obtain ⟨hd, hm⟩ := marker_clean s.t sector bytes
    refine ⟨fun m hm' b hb => ?_, fun m hm' hd' => ?_, fun ho m hm' hd' b => ?_⟩
    · rcases List.mem_append.mp hm' with hm' | hm'
      · exact h.set m hm' b hb
      · obtain rfl := List.mem_singleton.mp hm'
        cases (hm b).symm.trans hb
    · rcases List.mem_append.mp hm' with hm' | hm'
      · exact h.marked m hm' hd'
      · obtain rfl := List.mem_singleton.mp hm'
        cases hd.symm.trans hd'
    · rcases List.mem_append.mp hm' with hm' | hm'
      · exact h.kept ho m hm' hd' b
      · obtain rfl := List.mem_singleton.mp hm'
        exact hm b
  | setBit i m hi hlt =>
    have hmem := List.mem_of_getElem? hi
    have hlive : m.dropped = false := by
      by_contra hd
      have := h.marked m hmem (Bool.not_eq_false _ ▸ hd)
      omega
    have hmono : ∀ b, s.t.bitmap b = true → Function.update s.t.bitmap m.next true b = true := by
      intro b hb
      by_cases hbm : b = m.next
      · rw [hbm, Function.update_self]
      · rw [Function.update_of_ne hbm, hb]
    refine ⟨fun d hd b hb => ?_, fun d hd hdr => ?_, fun ho d hd hdr b => ?_⟩
    · show Function.update s.t.bitmap m.next true b = true
      rcases mem_modify hi hd with rfl | hd
      · change Function.update m.mine m.next true b = true at hb
        by_cases hbm : b = m.next
        · rw [hbm, Function.update_self]
        · rw [Function.update_of_ne hbm] at hb
          exact hmono b (h.set m hmem b hb)
      · exact hmono b (h.set d hd b hb)
    · rcases mem_modify hi hd with rfl | hd
      · cases hlive.symm.trans hdr
      · exact h.marked d hd hdr
    · rcases mem_modify hi hd with rfl | hd
      · cases hlive.symm.trans hdr
      · exact h.kept ho d hd hdr b
  | drop i m hi hle hd =>
    refine ⟨fun d hd b hb => ?_, fun d hd hdr => ?_, fun ho => ?_⟩
    · rcases mem_modify hi hd with rfl | hd
      · exact h.set m (List.mem_of_getElem? hi) b hb
      · exact h.set d hd b hb
    · rcases mem_modify hi hd with rfl | hd
      · exact hle
      · exact h.marked d hd hdr
    · cases ho
  | call k => exact ⟨h.set, h.marked, h.kept⟩
  | enter i readable alloc c hc hpc => exact ⟨h.set, h.marked, h.kept⟩
  | take i w c hc hpc hw hcl =>
    have hback : ∀ d ∈ s.markers.map (Marker.wipe w), ∃ m ∈ s.markers, d = m.wipe w := by
      intro d hd
      obtain ⟨m, hm, rfl⟩ := List.mem_map.mp hd
      exact ⟨m, hm, rfl⟩
    refine ⟨fun d hd b hb => ?_, fun d hd hdr => ?_, fun ho d hd hdr b => ?_⟩
    · obtain ⟨m, hm, rfl⟩ := hback d hd
      change (if b / 64 = w then false else m.mine b) = true at hb
      show (if b / 64 = w then false else s.t.bitmap b) = true
      split at hb
      · cases hb
      · rename_i hbw
        rw [if_neg hbw, h.set m hm b hb]
    · obtain ⟨m, hm, rfl⟩ := hback d hd
      exact h.marked m hm hdr
    · obtain ⟨m, hm, rfl⟩ := hback d hd
      show (if b / 64 = w then false else m.mine b) = false
      rw [h.kept ho m hm hdr b, ite_self]
  | read i w c hc hpc hw hcl => exact ⟨h.set, h.marked, h.kept⟩
  | looped i w c hc hpc hw => exact ⟨h.set, h.marked, h.kept⟩
  | reset i c hc hpc => exact ⟨h.set, h.marked, fun _ => hg⟩
  | fault i c hc hpc hf => exact ⟨h.set, h.marked, h.kept⟩
  | copied i c hc hpc hf => exact ⟨h.set, h.marked, h.kept⟩

/-- a reset that is not good leaves a bit of a dropped bio behind a cleared flag -/
theorem flag_broken (h : FlagInv s) (hn : ¬ResetOk s a) (hs : BitsMoved s a s') : ¬FlagKept s' := by
  cases hs with
  | reset i c hc hpc =>
    intro hkept
    refine hn fun m hm hd b => ?_
    by_contra hb
    have hset := h.set m hm b (Bool.not_eq_false _ ▸ hb)
    cases (hkept rfl m hm hd b (Bool.not_eq_false _ ▸ hb)).symm.trans hset
  | _ => exact absurd trivial hn

end

/-- **`overflowed` is never cleared too early, exactly if** every reset of the flag finds no bit set
that a dropped bio has set since its long was last cleared. -/
theorem flag_kept (t : Target) (run : List BitsAct) (s : BitsSt)
    (hs : exec bitsStep (BitsSt.init t) run = some s) :
    Always bitsStep FlagKept (BitsSt.init t) run ↔ Meets bitsStep ResetOk (BitsSt.init t) run :=
  always_iff_meets (I:=FlagInv) (fun _ hi => hi.flagKept)
    (fun _ _ _ hi hg hs => hi.step hg (bits_cases hs))
    (fun _ _ _ hi hn hs => flag_broken hi hn (bits_cases hs)) (FlagInv.init t) hs

/-- a bio is marked and dropped between the `xchg` of its long and the reset of the flag -/
def earlyReset : List BitsAct :=
  [.call (.bitmap 8 true false), .enter 0 true true, .word 0, .word 0, .mark 0 512, .setBit 0, .drop 0,
    .reset 0]

theorem flag_early : ∃ s, exec bitsStep (BitsSt.init oneChunk) earlyReset = some s ∧
    s.t.overflowed = false ∧ s.t.bitmap 0 = true ∧ ¬FlagKept s := by
  have h : (exec bitsStep (BitsSt.init oneChunk) earlyReset).any (fun s => !s.t.overflowed &&
      (s.t.bitmap 0 && s.markers.any fun m => m.dropped && m.mine 0)) := by
    decide
  obtain ⟨s, hs, hp⟩ := (Option.any_eq_true _ _).mp h
  rw [Bool.and_eq_true, Bool.and_eq_true, Bool.not_eq_true', List.any_eq_true] at hp
  obtain ⟨ho, hb, m, hm, hmm⟩ := hp
  rw [Bool.and_eq_true] at hmm
  refine ⟨s, hs, ho, hb, fun hk => ?_⟩
  cases (hk ho m hm hmm.1 0 hmm.2).symm.trans hb

/-- the same bio, cleared before the reset -/
def lateReset : List BitsAct :=
  [.mark 0 512, .setBit 0, .drop 0, .call .zero, .enter 0 true true, .word 0, .word 0, .reset 0]

theorem lateReset_ok : Meets bitsStep ResetOk (BitsSt.init oneChunk) lateReset := by
  have hfirst : Meets bitsStep ResetOk (BitsSt.init oneChunk) (lateReset.take 7) :=
    meets_of_forall (by simp [lateReset, ResetOk])
  refine meets_append hfirst fun t ht => ⟨fun m hm _ b => ?_, fun _ _ => trivial⟩
  obtain rfl := Option.some.inj ht
  obtain rfl := List.mem_singleton.mp hm
  show (if b / 64 = 0 then false else Function.update (fun _ => false) 0 true b) = false
  split
  · rfl
  · exact Function.update_of_ne (fun h => by omega) _ _

theorem flag_kept_run : ∃ s, exec bitsStep (BitsSt.init oneChunk) lateReset = some s ∧
    (∃ m ∈ s.markers, m.dropped = true) ∧ s.t.overflowed = false ∧
    Meets bitsStep ResetOk (BitsSt.init oneChunk) lateReset ∧
    Always bitsStep FlagKept (BitsSt.init oneChunk) lateReset := by
  have h : (exec bitsStep (BitsSt.init oneChunk) lateReset).any (fun s =>
      s.markers.any (fun m => m.dropped) && !s.t.overflowed) := by
    decide
  obtain ⟨s, hs, hp⟩ := (Option.any_eq_true _ _).mp h
  rw [Bool.and_eq_true, List.any_eq_true, Bool.not_eq_true'] at hp
  exact ⟨s, hs, hp.1, hp.2, lateReset_ok, (flag_kept oneChunk lateReset s hs).mpr lateReset_ok⟩

end CDP
