import DmCdp.Kernel.MachineInv

/-!
# The invariant of the machine: readers' side

* `ReadInv`       one reader is inside `read_lock`, what it knows of the ring is right, and what
                  the calls have returned is a prefix of the log;
* `ReadInv.ext`   writers do not disturb readers;
* `LogInv.next`   one iteration of `cdp_next` from any position a reader may hold;
* `LogInv.bytes`, `LogInv.taken`  the copy to user space and the store of the tail.
-/

set_option linter.unusedVariables false

namespace CDP
open Img Mach

/-! ## readers -/

/-- between taking and releasing `read_lock` -/
def Pc.inside : Pc → Bool
  | .idle => false
  | .entry => false
  | .asleep => false
  | _ => true

/-- the first undelivered record starts at `pos` -/
def KState.NextAt (s : KState) (pos : Nat) (e : Entry) : Prop :=
  s.log[s.nread]? = some e ∧ e.off = pos

/-- what a reader knows at each point of `cdp_read` -/
def PcOk (s : KState) : Pc → Prop
  | .next pos => pos = s.t.tail ∨ ∃ e, s.NextAt pos e
  | .found pos => ∃ e, s.NextAt pos e
  | .ready pos => ∃ e, s.NextAt pos e ∧ e.Ended
  | .taken pos bytes => ∃ e, s.NextAt pos e ∧ e.Ended ∧ bytes = e.block
  | _ => True

/-- records as they are handed out, one after the other -/
def blocks (es : List Entry) : List UInt8 := (es.map Entry.block).flatten

/-- what the reader inside `read_lock` has copied but not returned yet -/
def KState.held (s : KState) : List UInt8 :=
  match s.lock with
  | none => []
  | some r => (s.readers r).buf

structure ReadInv (s : KState) : Prop where
  inside : ∀ r, s.lock = some r ↔ (s.readers r).pc.inside = true
  outside : ∀ r, (s.readers r).pc.inside = false → (s.readers r).buf = []
  pc : ∀ r, PcOk s (s.readers r).pc
  out : s.out ++ s.held = blocks (s.log.take s.nread)

theorem blocks_snoc (es : List Entry) (e : Entry) : blocks (es ++ [e]) = blocks es ++ e.block := by
  unfold blocks
  rw [List.map_append, List.flatten_append]
  simp

theorem PcOk.outside {s : KState} {pc : Pc} (h : pc.inside = false) : PcOk s pc := by
  cases pc <;> first | exact trivial | exact Bool.noConfusion (show true = false from h)

theorem PcOk.ext {s s' : KState} {pc : Pc} (h : PcOk s pc) (hl : LogExt s.log s'.log)
    (hn : s'.nread = s.nread) (ht : s'.t.tail = s.t.tail) : PcOk s' pc := by
  have hnext : ∀ {pos e}, s.NextAt pos e →
      ∃ e' : Entry, s'.NextAt pos e' ∧ (e.Ended → e' = e) := by
    intro pos e he
    obtain ⟨e', h1, h2, _, h3⟩ := hl _ e he.1
    exact ⟨e', ⟨by rw [hn]; exact h1, h2.trans he.2⟩, h3⟩
  cases pc with
  | next pos =>
    rcases h with h | ⟨e, he⟩
    · exact Or.inl (h.trans ht.symm)
    · obtain ⟨e', he', _⟩ := hnext he
      exact Or.inr ⟨e', he'⟩
  | found pos =>
    obtain ⟨e, he⟩ := h
    obtain ⟨e', he', _⟩ := hnext he
    exact ⟨e', he'⟩
  | ready pos =>
    obtain ⟨e, he, hend⟩ := h
    obtain ⟨e', he', hee⟩ := hnext he
    obtain rfl := hee hend
    exact ⟨e', he', hend⟩
  | taken pos bytes =>
    obtain ⟨e, he, hend, hb⟩ := h
    obtain ⟨e', he', hee⟩ := hnext he
    obtain rfl := hee hend
    exact ⟨e', he', hend, hb⟩
  | idle => exact trivial
  | entry => exact trivial
  | empty => exact trivial
  | leave ret => exact trivial
  | asleep => exact trivial

/-- **Writers do not disturb readers.** -/
theorem ReadInv.ext {s s' : KState} (hL : LogInv s) (h : ReadInv s) (hl : LogExt s.log s'.log)
    (hn : s'.nread = s.nread) (ht : s'.t.tail = s.t.tail) (hr : s'.readers = s.readers)
    (hk : s'.lock = s.lock) (hc : s'.calls = s.calls) : ReadInv s' := by
  refine ⟨?_, ?_, fun r => ?_, ?_⟩
  · rw [hk, hr]
    exact h.inside
  · rw [hr]
    exact h.outside
  · rw [hr]
    exact (h.pc r).ext hl hn ht
  · have e := h.out
    unfold KState.out KState.held at e ⊢
    rw [hc, hk, hr, hn, hl.take hL.le hL.read]
    exact e

section
variable {s : KState} {r : Nat} {pc : Pc}

theorem setPc_self : ((s.setPc r pc).readers r).pc = pc := by
  show (Function.update s.readers r _ r).pc = pc
  rw [Function.update_self]

theorem setPc_ne {r' : Nat} (h : r' ≠ r) : (s.setPc r pc).readers r' = s.readers r' :=
  Function.update_of_ne h _ _

theorem setPc_buf (r' : Nat) : ((s.setPc r pc).readers r').buf = (s.readers r').buf := by
  by_cases h : r' = r
  · subst h
    show (Function.update s.readers r' _ r').buf = _
    rw [Function.update_self]
  · rw [setPc_ne h]

theorem ReadInv.others (h : ReadInv s) (hin : (s.readers r).pc.inside = true) {r' : Nat}
    (hne : r' ≠ r) : (s.readers r').pc.inside = false := by
  cases hp : (s.readers r').pc.inside with
  | false => rfl
  | true =>
    have h1 := (h.inside r).mpr hin
    have h2 := (h.inside r').mpr hp
    rw [h1, Option.some.injEq] at h2
    exact absurd h2.symm hne

theorem ReadInv.move (h : ReadInv s) (hin : pc.inside = (s.readers r).pc.inside)
    (hpc : PcOk s pc) : ReadInv (s.setPc r pc) := by
  refine ⟨fun r' => ?_, fun r' hr' => ?_, fun r' => ?_, ?_⟩
  · show s.lock = some r' ↔ _
    by_cases he : r' = r
    · subst he
      rw [setPc_self, hin]
      exact h.inside r'
    · rw [setPc_ne he]
      exact h.inside r'
  · rw [setPc_buf]
    by_cases he : r' = r
    · subst he
      rw [setPc_self, hin] at hr'
      exact h.outside r' hr'
    · rw [setPc_ne he] at hr'
      exact h.outside r' hr'
  · show PcOk s _
    by_cases he : r' = r
    · subst he
      rw [setPc_self]
      exact hpc
    · rw [setPc_ne he]
      exact h.pc r'
  · have e := h.out
    unfold KState.held at e ⊢
    show s.out ++ (match s.lock with | none => [] | some r' => ((s.setPc r pc).readers r').buf) = _
    cases hk : s.lock with
    | none => rw [hk] at e; exact e
    | some r' =>
      rw [hk] at e
      show s.out ++ ((s.setPc r pc).readers r').buf = _
      rw [setPc_buf]
      exact e

theorem ReadInv.acquire (h : ReadInv s) (hpc : (s.readers r).pc.inside = false)
    (hk : s.lock = none) : ReadInv ({ s with lock := some r }.setPc r (.next s.t.tail)) := by
  have hout : ∀ r', (s.readers r').pc.inside = false := by
    intro r'
    cases hp : (s.readers r').pc.inside with
    | false => rfl
    | true =>
      have := (h.inside r').mpr hp
      rw [hk] at this
      exact absurd this (by simp)
  refine ⟨fun r' => ?_, fun r' hr' => ?_, fun r' => ?_, ?_⟩
  · show some r = some r' ↔ _
    by_cases he : r' = r
    · subst he
      rw [setPc_self]
      exact ⟨fun _ => rfl, fun _ => rfl⟩
    · rw [setPc_ne he]
      show _ ↔ (s.readers r').pc.inside = true
      rw [hout r', Option.some.injEq]
      exact ⟨fun e => absurd e.symm he, fun e => absurd e (by decide)⟩
  · rw [setPc_buf]
    exact h.outside r' (hout r')
  · by_cases he : r' = r
    · subst he
      rw [setPc_self]
      exact Or.inl rfl
    · rw [setPc_ne he]
      exact PcOk.outside (hout r')
  · have e := h.out
    unfold KState.held at e ⊢
    rw [hk] at e
    show s.out ++ (({ s with lock := some r }.setPc r (.next s.t.tail)).readers r).buf = _
    rw [setPc_buf]
    show s.out ++ (s.readers r).buf = _
    rw [h.outside r hpc]
    exact e

/-- a reader releases `read_lock` and goes to sleep with an empty buffer -/
theorem ReadInv.sleep (h : ReadInv s) (hpc : (s.readers r).pc.inside = true)
    (hb : (s.readers r).buf = []) : ReadInv ({ s with lock := none }.setPc r .asleep) := by
  have hk := (h.inside r).mpr hpc
  refine ⟨fun r' => ?_, fun r' hr' => ?_, fun r' => ?_, ?_⟩
  · show none = some r' ↔ _
    by_cases he : r' = r
    · subst he
      rw [setPc_self]
      exact ⟨fun e => absurd e (by simp), fun e => absurd e (by decide)⟩
    · rw [setPc_ne he]
      show _ ↔ (s.readers r').pc.inside = true
      rw [h.others hpc he]
      exact ⟨fun e => absurd e (by simp), fun e => absurd e (by decide)⟩
  · rw [setPc_buf]
    by_cases he : r' = r
    · subst he
      exact hb
    · exact h.outside r' (h.others hpc he)
  · by_cases he : r' = r
    · subst he
      rw [setPc_self]
      exact trivial
    · rw [setPc_ne he]
      exact PcOk.outside (h.others hpc he)
  · have e := h.out
    unfold KState.held at e ⊢
    rw [hk] at e
    dsimp only at e
    rw [hb] at e
    exact e

theorem out_ret (ret : Ret) : (s.ret r ret).out = s.out ++ (s.readers r).buf := by
  unfold KState.out KState.ret
  simp

theorem ret_self (ret : Ret) : (s.ret r ret).readers r = ⟨.idle, 0, false, []⟩ :=
  Function.update_self _ _ _

theorem ret_ne (ret : Ret) {r' : Nat} (h : r' ≠ r) : (s.ret r ret).readers r' = s.readers r' :=
  Function.update_of_ne h _ _

theorem ReadInv.retOutside (h : ReadInv s) (ret : Ret) (hpc : (s.readers r).pc.inside = false) :
    ReadInv (s.ret r ret) := by
  have hne : s.lock ≠ some r := by
    intro hk
    rw [(h.inside r).mp hk] at hpc
    exact absurd hpc (by decide)
  refine ⟨fun r' => ?_, fun r' hr' => ?_, fun r' => ?_, ?_⟩
  · show s.lock = some r' ↔ _
    by_cases he : r' = r
    · subst he
      rw [ret_self]
      exact ⟨fun e => absurd e hne, fun e => absurd e (by decide)⟩
    · rw [ret_ne ret he]
      exact h.inside r'
  · by_cases he : r' = r
    · subst he
      rw [ret_self]
    · rw [ret_ne ret he] at hr' ⊢
      exact h.outside r' hr'
  · show PcOk s _
    by_cases he : r' = r
    · subst he
      rw [ret_self]
      exact trivial
    · rw [ret_ne ret he]
      exact h.pc r'
  · have e := h.out
    rw [out_ret, h.outside r hpc, List.append_nil]
    unfold KState.held at e ⊢
    show s.out ++ (match s.lock with | none => [] | some r' => ((s.ret r ret).readers r').buf) = _
    cases hk : s.lock with
    | none => rw [hk] at e; exact e
    | some r' =>
      rw [hk] at e
      have he : r' ≠ r := fun he => hne (he ▸ hk)
      show s.out ++ ((s.ret r ret).readers r').buf = _
      rw [ret_ne ret he]
      exact e

theorem ReadInv.retInside (h : ReadInv s) (ret : Ret) (hpc : (s.readers r).pc.inside = true) :
    ReadInv ({ s with lock := none }.ret r ret) := by
  have hk := (h.inside r).mpr hpc
  refine ⟨fun r' => ?_, fun r' hr' => ?_, fun r' => ?_, ?_⟩
  · show none = some r' ↔ _
    by_cases he : r' = r
    · subst he
      rw [ret_self]
      exact ⟨fun e => absurd e (by simp), fun e => absurd e (by decide)⟩
    · rw [ret_ne ret he]
      show _ ↔ (s.readers r').pc.inside = true
      rw [h.others hpc he]
      exact ⟨fun e => absurd e (by simp), fun e => absurd e (by decide)⟩
  · by_cases he : r' = r
    · subst he
      rw [ret_self]
    · rw [ret_ne ret he]
      exact h.outside r' (h.others hpc he)
  · by_cases he : r' = r
    · subst he
      rw [ret_self]
      exact trivial
    · rw [ret_ne ret he]
      exact PcOk.outside (h.others hpc he)
  · have e := h.out
    rw [out_ret]
    unfold KState.held at e ⊢
    rw [hk] at e
    show s.out ++ (s.readers r).buf ++ [] = _
    rw [List.append_nil]
    exact e

end

/-! ## the first undelivered record -/

section
variable {s : KState}

theorem LogInv.live_cons (h : LogInv s) {e : Entry} (he : s.log[s.nread]? = some e) :
    s.log.drop s.nread = e :: s.log.drop (s.nread + 1) := by
  obtain ⟨hlt, heq⟩ := List.getElem?_eq_some_iff.mp he
  rw [List.drop_eq_getElem_cons hlt, heq]

theorem LogInv.live_nil (h : LogInv s) (he : s.log[s.nread]? = none) :
    s.log.drop s.nread = [] ∧ s.nread = s.log.length := by
  have h1 := List.getElem?_eq_none_iff.mp he
  have h2 := h.le
  exact ⟨List.drop_of_length_le h1, by omega⟩

/-- **One iteration of `cdp_next`** from where a reader may be: it finds the first undelivered
record, or skips to it, or there is none. -/
theorem LogInv.next (h : LogInv s) {pos : Nat} (hp : pos = s.t.tail ∨ ∃ e, s.NextAt pos e) :
    (cdpNextStep s.t pos = .null ∧ s.nread = s.log.length) ∨
    ∃ e q, s.NextAt q e ∧ (cdpNextStep s.t pos = .skip q ∨ cdpNextStep s.t pos = .found q) := by
  have hring := h.ring
  cases he : s.log[s.nread]? with
  | none =>
    obtain ⟨hnil, hlen⟩ := h.live_nil he
    rcases hp with rfl | ⟨e, hne, _⟩
    · rw [hnil] at hring
      exact Or.inl ⟨hring.next_nil, hlen⟩
    · rw [he] at hne
      exact absurd hne (by simp)
  | some e =>
    rw [h.live_cons he] at hring
    obtain ⟨htail, hoff⟩ := hring.next
    right
    rcases hp with rfl | ⟨e', he', hpos⟩
    · rcases htail with ⟨h1, h2⟩ | h1
      · exact ⟨e, s.t.tail, ⟨he, h2⟩, Or.inr h1⟩
      · exact ⟨e, e.off, ⟨he, rfl⟩, Or.inl h1⟩
    · rw [he, Option.some.injEq] at he'
      subst he'
      subst hpos
      exact ⟨e, e.off, ⟨he, rfl⟩, Or.inr hoff⟩

theorem LogInv.mem_live (h : LogInv s) {e : Entry} {pos : Nat} (he : s.NextAt pos e) :
    e ∈ s.log.drop s.nread := by
  rw [h.live_cons he.1]
  exact List.mem_cons_self

theorem LogInv.stateAt (h : LogInv s) {e : Entry} {pos : Nat} (he : s.NextAt pos e) :
    stateAt s.t pos = StCommitted ↔ e.Ended := by
  obtain ⟨h1, rfl⟩ := he
  exact h.ring.stateAt (h.mem_live ⟨h1, rfl⟩)

theorem LogInv.recLen (h : LogInv s) {e : Entry} {pos : Nat} (he : s.NextAt pos e) :
    (Rec.load s.t.ring (pos % s.t.ringSize)).recLen = e.need := by
  have hmem := h.mem_live he
  obtain ⟨h1, rfl⟩ := he
  rw [h.ring.load hmem, Entry.header_recLen, (h.ring.mem hmem).1.recLen]

theorem LogInv.bytes (h : LogInv s) {e : Entry} {pos : Nat} (he : s.NextAt pos e) (hend : e.Ended) :
    slice s.t.ring (pos % s.t.ringSize) e.need = e.block := by
  have hmem := h.mem_live he
  obtain ⟨h1, rfl⟩ := he
  obtain ⟨_, hst, _⟩ := h.ring.mem hmem
  obtain ⟨error, herr⟩ := hend
  rw [need_eq, slice_append, slice_append, hst.header,
    hst.payload (by rw [herr]; exact EStage.noConfusion), ← Nat.add_assoc, hst.rest]
  rfl

/-- **The tail moves past a delivered record.** -/
theorem LogInv.taken (h : LogInv s) {s' : KState} {e : Entry} {pos : Nat} (he : s.NextAt pos e)
    (hend : e.Ended) (ht : s'.t = { s.t with tail := u64 (pos + e.need) }) (hl : s'.log = s.log)
    (hn : s'.nread = s.nread + 1) : LogInv s' := by
  have hmem := h.mem_live he
  have hring := h.ring
  obtain ⟨h1, rfl⟩ := he
  obtain ⟨hlt, _⟩ := List.getElem?_eq_some_iff.mp h1
  have hb := (h.ring.mem hmem).2.2.2.1
  have hh := h.ring.head
  rw [h.live_cons h1] at hring
  have e1 : u64 (e.off + e.need) = e.off + e.need := u64_of_lt (by omega)
  refine ⟨?_, ?_, ?_, ?_, ?_, ?_, ?_⟩
  · rw [ht, hl, hn, e1]
    exact hring.pop
  · rw [hl, hn]
    omega
  · rw [ht, hl]
    exact h.head
  · rw [ht, hl]
    exact h.seq
  · rw [ht, hl]
    exact h.ok
  · rw [hl]
    exact h.slack
  · intro k x hx hk
    rw [hl] at hx
    rw [hn] at hk
    rcases Nat.lt_succ_iff_lt_or_eq.mp hk with hk | rfl
    · exact h.read k x hx hk
    · rw [h1, Option.some.injEq] at hx
      exact hx ▸ hend

end

end CDP
