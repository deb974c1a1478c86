import DmCdp.Kernel.RingLayout

/-!
# Delivery: what the calls of `cdp_read` return over a run

* `Delivers cfg s n`   the bytes returned so far are the first `n` records, each whole, with the
                       header it was logged with and the payload of its bio, after its `cdp_end_io`;
* `delivers`           holds in every reachable state, for some `n`;
* `EofInv`             a call that returned 0 did so on a dead target with nothing left;
* `delivery`           both, in every run in which `cdp_dtr` never comes between a reader's failed
                       readiness test and its test of `dead` while a record is left (`DtrOk`);
* `eof_race`           the run in which it does.
-/

set_option linter.unusedVariables false

namespace CDP
open Img Mach

/-! ## what a step leaves alone -/

section
variable {cfg : Config} {s s' : KState}

def KAct.isReader : KAct → Bool
  | .call _ _ _ => true
  | .reader _ _ => true
  | _ => false

theorem KAct.reader_of {a : KAct} (h : a.isReader = true) :
    (∃ r count nonblock, a = .call r count nonblock) ∨ ∃ r ok, a = .reader r ok := by
  cases a <;> first
    | exact Or.inl ⟨_, _, _, rfl⟩
    | exact Or.inr ⟨_, _, rfl⟩
    | exact Bool.noConfusion (show false = true from h)

/-- what the other parties' actions leave alone; only `cdp_dtr` sets `dead` -/
theorem kstep_frame {a : KAct} (h : KInv cfg s) (hs : kstep cfg s a = some s')
    (ha : a.isReader = false) : s'.calls = s.calls ∧ s'.nread = s.nread ∧
      s'.readers = s.readers ∧ s'.lock = s.lock ∧ LogExt s.log s'.log ∧
      (s'.t.dead = s.t.dead ∨ a = .dtr) := by
  cases a with
  | map b =>
    obtain ⟨_, _, ⟨_, rfl⟩ | ⟨a, _, rfl⟩⟩ := map_cases hs
    · exact ⟨rfl, rfl, rfl, rfl, LogExt.refl _, Or.inl rfl⟩
    · exact ⟨rfl, rfl, rfl, rfl, LogExt.refl _,
        Or.inl (cdpMark_same s.t a.sector a.len).2.2.2.2.2.1⟩
  | reserve i ts =>
    obtain ⟨f, a, _, _, _, _, ⟨_, rfl⟩ | ⟨_, _, rfl⟩⟩ := reserve_cases h.log hs
    · exact ⟨rfl, rfl, rfl, rfl, LogExt.refl _, Or.inl rfl⟩
    · exact ⟨rfl, rfl, rfl, rfl, LogExt.snoc _ _, Or.inl rfl⟩
  | copy i =>
    obtain ⟨f, off, k, a, hf, hst, hk, _, rfl⟩ := copy_cases hs
    obtain ⟨e, he, _, hes, _⟩ := (h.bios.flight i f hf).idx k hk
    refine ⟨rfl, rfl, rfl, rfl, LogExt.modify _ he ?_, Or.inl rfl⟩
    rintro ⟨error, herr⟩
    rw [hes, hst] at herr
    exact EStage.noConfusion herr
  | land i =>
    obtain ⟨f, _, _, _, rfl⟩ := land_cases hs
    exact ⟨rfl, rfl, rfl, rfl, LogExt.refl _, Or.inl rfl⟩
  | endIo i error =>
    obtain ⟨f, hf, hst, _, ⟨k, _, hk, rfl⟩ | ⟨_, rfl⟩⟩ := endIo_cases hs
    · obtain ⟨e, he, _, hes, _⟩ := (h.bios.flight i f hf).idx k hk
      refine ⟨rfl, rfl, rfl, rfl, LogExt.modify _ he ?_, Or.inl rfl⟩
      rintro ⟨err, herr⟩
      rw [hes, hst] at herr
      exact EStage.noConfusion herr
    · exact ⟨rfl, rfl, rfl, rfl, LogExt.refl _, Or.inl rfl⟩
  | call r count nonblock => exact Bool.noConfusion (show true = false from ha)
  | reader r ok => exact Bool.noConfusion (show true = false from ha)
  | clearBegin =>
    obtain rfl := clearBegin_cases hs
    exact ⟨rfl, rfl, rfl, rfl, LogExt.refl _, Or.inl rfl⟩
  | clearWord =>
    obtain ⟨w, _, _, rfl⟩ := clearWord_cases hs
    exact ⟨rfl, rfl, rfl, rfl, LogExt.refl _, Or.inl rfl⟩
  | clearDone ok =>
    obtain ⟨w, _, _, rfl⟩ := clearDone_cases hs
    exact ⟨rfl, rfl, rfl, rfl, LogExt.refl _, Or.inl rfl⟩
  | reread c =>
    change rereadStep cfg s c = some s' at hs
    obtain ⟨_, rfl⟩ := reread_cases hs
    exact ⟨rfl, rfl, rfl, rfl, LogExt.refl _, Or.inl rfl⟩
  | dtr =>
    obtain ⟨_, _, rfl⟩ := dtr_cases hs
    exact ⟨rfl, rfl, rfl, rfl, LogExt.refl _, Or.inr rfl⟩

theorem kstep_dead {a : KAct} (h : KInv cfg s) (hs : kstep cfg s a = some s')
    (hd : s.t.dead = true) : s'.t.dead = true ∧ s'.log = s.log := by
  have hbusy : ∀ {i : Nat} {f : Flight}, s.flights[i]? = some f → f.stage.isEnded ≠ false := by
    intro i f hf hst
    rw [h.bios.alive hf hst] at hd
    exact absurd hd (by decide)
  cases a with
  | map b =>
    obtain ⟨_, hl, _⟩ := map_cases hs
    rw [hd] at hl
    exact absurd hl (by decide)
  | reserve i ts =>
    obtain ⟨f, a, hf, hst, _⟩ := reserve_cases h.log hs
    exact absurd (by rw [hst]; rfl) (hbusy hf)
  | copy i =>
    obtain ⟨f, off, k, a, hf, hst, _⟩ := copy_cases hs
    exact absurd (by rw [hst]; rfl) (hbusy hf)
  | land i =>
    obtain ⟨f, hf, hst, _⟩ := land_cases hs
    exact absurd (by rw [hst]; rfl) (hbusy hf)
  | endIo i error =>
    obtain ⟨f, hf, hst, _⟩ := endIo_cases hs
    exact absurd (by rw [hst]; rfl) (hbusy hf)
  | call r count nonblock =>
    obtain ⟨_, rfl⟩ := call_cases hs
    exact ⟨hd, rfl⟩
  | reader r ok => cases reader_cases h hs <;> exact ⟨hd, rfl⟩
  | clearBegin =>
    obtain rfl := clearBegin_cases hs
    exact ⟨hd, rfl⟩
  | clearWord =>
    obtain ⟨w, _, _, rfl⟩ := clearWord_cases hs
    exact ⟨hd, rfl⟩
  | clearDone ok =>
    obtain ⟨w, _, _, rfl⟩ := clearDone_cases hs
    exact ⟨hd, rfl⟩
  | reread c =>
    change rereadStep cfg s c = some s' at hs
    obtain ⟨_, rfl⟩ := reread_cases hs
    exact ⟨hd, rfl⟩
  | dtr =>
    obtain ⟨_, hl, rfl⟩ := dtr_cases hs
    exact ⟨rfl, rfl⟩

/-! ## the records returned -/

/-- the returned bytes end at a record -/
def Aligned (s : KState) : Prop := ∃ n, n ≤ s.nread ∧ s.out = blocks (s.log.take n)

theorem Aligned.of_unheld (h : ReadInv s) (hh : s.held = []) : Aligned s := by
  have e := h.out
  rw [hh, List.append_nil] at e
  exact ⟨s.nread, le_rfl, e⟩

theorem Aligned.ext (hL : LogInv s) (h : Aligned s) (hl : LogExt s.log s'.log)
    (hn : s.nread ≤ s'.nread) (ho : s'.out = s.out) : Aligned s' := by
  obtain ⟨n, hle, e⟩ := h
  have hlen := hL.le
  refine ⟨n, hle.trans hn, ?_⟩
  rw [ho, e, hl.take (by omega) fun k x hx hk => hL.read k x hx (by omega)]

theorem Aligned.step {a : KAct} (h : KInv cfg s) (ha : Aligned s)
    (hs : kstep cfg s a = some s') : Aligned s' := by
  have hi' := h.step hs
  have hself : ∀ {t : KState}, t.log = s.log → s.nread ≤ t.nread → t.out = s.out → Aligned t :=
    fun hl hn ho => ha.ext h.log (hl ▸ LogExt.refl _) hn ho
  cases hr : a.isReader with
  | false =>
    obtain ⟨hc, hn, _, _, hl, _⟩ := kstep_frame h hs hr
    refine ha.ext h.log hl hn.ge ?_
    unfold KState.out
    rw [hc]
  | true =>
    rcases KAct.reader_of hr with ⟨r, count, nonblock, rfl⟩ | ⟨r, ok, rfl⟩
    · obtain ⟨_, rfl⟩ := call_cases hs
      exact hself rfl le_rfl rfl
    · cases reader_cases h hs with
      | tail pos e hpc he hend => exact hself rfl (Nat.le_succ _) rfl
      | ret ret hpc => exact Aligned.of_unheld hi'.read rfl
      | intr hin =>
        refine hself rfl le_rfl ?_
        rw [out_ret, h.read.outside r hin, List.append_nil]
      | lock | next | found | drained | early | ready | full | eof | again | sleep | stop
      | copied | wake => exact hself rfl le_rfl rfl

end

/-- the header of a delivered record -/
def doneHdr (k : Nat) (gap error : Bool) (ts : Nat) (a : LogArgs) : Rec :=
  { hdrOf k gap ts a with
    flags := if error then (hdrOf k gap ts a).flags ||| FError else (hdrOf k gap ts a).flags
    state := StCommitted }

/-- record `k` as it is handed out: header, payload, the bytes up to the alignment -/
def recordBytes (k : Nat) (gap error : Bool) (ts : Nat) (a : LogArgs) (data : Nat → UInt8)
    (slack : List UInt8) : List UInt8 :=
  (doneHdr k gap error ts a).bytes ++ slice data 0 a.payload ++ slack

/-- a bio was dropped before this record was reserved -/
def Entry.gap (e : Entry) : Bool := hasFlag e.hdr.flags FGapBefore

/-- `bs` is record `k` as it was logged: the block of entry `k`, header and payload of a bio that has
ended; it is not a pad, and `F_ERROR` says how the bio ended -/
def IsRecord (cfg : Config) (s : KState) (k : Nat) (bs : List UInt8) : Prop :=
  ∃ (e : Entry) (i : Nat) (f : Flight) (a : LogArgs) (error : Bool),
    s.log[k]? = some e ∧ bs = e.block ∧
    s.flights[i]? = some f ∧ f.idx = some k ∧ cdpMapArgs cfg f.bio = some a ∧
    f.stage = .ended error ∧ e.hdr = hdrOf k e.gap e.hdr.tsNs a ∧
    bs = recordBytes k e.gap error e.hdr.tsNs a f.bio.data e.slack ∧
    e.slack.length = slackLen a.payload ∧ (doneHdr k e.gap error e.hdr.tsNs a).type ≠ RecPad ∧
    (hasFlag (doneHdr k e.gap error e.hdr.tsNs a).flags FError = true ↔ error = true)

/-- the calls of `cdp_read` have returned the first `n` records -/
def Delivers (cfg : Config) (s : KState) (n : Nat) : Prop :=
  n ≤ s.log.length ∧ ∃ rs : List (List UInt8), rs.length = n ∧ s.out = rs.flatten ∧
    ∀ k bs, rs[k]? = some bs → IsRecord cfg s k bs

def Eof (s : KState) : Prop := ∃ c ∈ s.calls, c.bytes = [] ∧ c.ret = .zero

section
variable {cfg : Config} {s s' : KState}

theorem KInv.isRecord (h : KInv cfg s) {k : Nat} {e : Entry} (he : s.log[k]? = some e)
    (hend : e.Ended) : IsRecord cfg s k e.block := by
  have hk := (List.getElem?_eq_some_iff.mp he).1
  obtain ⟨i, f, hf, hfk⟩ := h.bios.cover k hk
  have hfo := h.bios.flight i f hf
  obtain ⟨e', he', ⟨a, gap, ts, ha, hh, hp, hd⟩, hes, _⟩ := hfo.idx k hfk
  rw [he, Option.some.injEq] at he'
  subst he'
  obtain ⟨error, herr⟩ := hend
  have hst : f.stage = .ended error := by
    rw [herr] at hes
    cases hst : f.stage with
    | marked => rw [hst] at hes; exact EStage.noConfusion hes
    | reserved off => rw [hst] at hes; exact EStage.noConfusion hes
    | submitted => rw [hst] at hes; exact EStage.noConfusion hes
    | ended err =>
      rw [hst] at hes
      rw [EStage.ended.inj hes]
  obtain ⟨_, htype, _⟩ := cdpMapArgs_fits hfo.ok ha
  have hgap : e.gap = gap := by
    unfold Entry.gap
    rw [hh]
    show hasFlag (if gap then a.flags ||| FGapBefore else a.flags) FGapBefore = gap
    rw [cdpMapArgs_flags ha, hasFlag_gap]
  have hts : e.hdr.tsNs = ts := by
    rw [hh]
    rfl
  refine ⟨e, i, f, a, error, he, rfl, hf, hfk, ha, hst, ?_, ?_, ?_, htype, ?_⟩
  · rw [hgap, hts]
    exact hh
  · rw [hgap, hts]
    unfold Entry.block Entry.header recordBytes doneHdr
    rw [herr, hp, hd]
    dsimp only
    rw [hh]
  · rw [h.log.slack e (List.mem_of_getElem? he), hp]
  · rw [hgap, hts]
    have hfl := cdpMapArgs_flags ha
    show hasFlag (if error then (if gap then a.flags ||| FGapBefore else a.flags) ||| FError
      else if gap then a.flags ||| FGapBefore else a.flags) FError = true ↔ error = true
    rw [hfl]
    exact hasFlag_error gap error f.bio

/-- **What has been returned is a prefix of the records.** -/
theorem KInv.delivers (h : KInv cfg s) {n : Nat} (hn : n ≤ s.nread)
    (ho : s.out = blocks (s.log.take n)) : Delivers cfg s n := by
  have hle := h.log.le
  refine ⟨by omega, (s.log.take n).map Entry.block, ?_, ho, fun k bs hk => ?_⟩
  · rw [List.length_map, List.length_take]
    omega
  · rw [List.getElem?_map, Option.map_eq_some_iff] at hk
    obtain ⟨e, he, rfl⟩ := hk
    rw [List.getElem?_take] at he
    split at he
    · exact h.isRecord he (h.log.read k e he (by omega))
    · exact absurd he (by simp)

/-- between two calls of `cdp_read` all that the tail has passed has been returned -/
theorem KInv.delivered (h : KInv cfg s) (hl : s.lock = none) : Delivers cfg s s.nread := by
  refine h.delivers le_rfl ?_
  have ho := h.read.out
  unfold KState.held at ho
  rw [hl, List.append_nil] at ho
  exact ho

/-- **Exactly-once, in-order delivery.** -/
theorem delivers {dev : Nat → UInt8} {as : List KAct}
    (h : exec (kstep cfg) (KState.init cfg dev) as = some s) : ∃ n, Delivers cfg s n := by
  have hinv : KInv cfg s ∧ Aligned s := by
    refine exec_invariant (P:=fun s => KInv cfg s ∧ Aligned s)
      (fun u a v hu hs => ⟨hu.1.step hs, hu.2.step hu.1 hs⟩)
      ⟨KInv.init cfg dev, 0, le_rfl, rfl⟩ h
  obtain ⟨hk, n, hn, ho⟩ := hinv
  exact ⟨n, hk.delivers hn ho⟩

/-! ## end of file -/

/-- all that `eof_race` needs to be excluded: `cdp_dtr` does not run while a reader with an empty
buffer stands between its failed readiness test and its test of `dead` and a record is left -/
def DtrOk (s : KState) : KAct → Prop
  | .dtr => ∀ r, (s.readers r).pc = .empty → (s.readers r).buf = [] → s.nread = s.log.length
  | _ => True

/-- a reader that is about to report the end of the stream is right -/
def EofPc (s : KState) (d : Reader) : Prop :=
  (d.pc = .empty → d.buf = [] → s.t.dead = true → s.nread = s.log.length) ∧
  (d.pc = .leave .zero → d.buf = [] → s.t.dead = true ∧ s.nread = s.log.length)

structure EofInv (s : KState) : Prop where
  pcs : ∀ r, EofPc s (s.readers r)
  calls : Eof s → s.t.dead = true ∧ s.nread = s.log.length ∧ s.out = blocks s.log

theorem EofPc.other {p : Pc} {d : Reader} (h1 : p ≠ .empty) (h2 : p ≠ .leave .zero)
    (hd : d.pc = p) : EofPc s d :=
  ⟨fun e => absurd (hd.symm.trans e) h1, fun e => absurd (hd.symm.trans e) h2⟩

theorem EofInv.setPc (h : EofInv s) {r : Nat} {pc : Pc}
    (hpc : EofPc s { s.readers r with pc := pc }) : EofInv (s.setPc r pc) := by
  refine ⟨fun r' => ?_, h.calls⟩
  by_cases he : r' = r
  · subst he
    have e : (s.setPc r' pc).readers r' = { s.readers r' with pc := pc } :=
      Function.update_self _ _ _
    rw [e]
    exact hpc
  · rw [setPc_ne he]
    exact h.pcs r'

theorem EofInv.ret (h : EofInv s) {r : Nat} {ret : Ret} (hout : Eof s → (s.readers r).buf = [])
    (hz : (s.readers r).buf = [] → ret = .zero →
      s.t.dead = true ∧ s.nread = s.log.length ∧ s.out = blocks s.log) :
    EofInv (s.ret r ret) := by
  refine ⟨fun r' => ?_, fun hE => ?_⟩
  · by_cases he : r' = r
    · subst he
      rw [ret_self]
      exact EofPc.other (p:=.idle) Pc.noConfusion Pc.noConfusion rfl
    · rw [ret_ne ret he]
      exact h.pcs r'
  · rw [out_ret]
    obtain ⟨c, hc, hb, hret⟩ := hE
    rcases List.mem_append.mp hc with hc | hc
    · have hE : Eof s := ⟨c, hc, hb, hret⟩
      rw [hout hE, List.append_nil]
      exact h.calls hE
    · obtain rfl := List.mem_singleton.mp hc
      change (s.readers r).buf = [] at hb
      rw [hb, List.append_nil]
      exact hz hb hret

/-- all bios of a dead target have ended, and so have its records -/
theorem KInv.dead_ended (h : KInv cfg s) (hd : s.t.dead = true) {k : Nat} {e : Entry}
    (he : s.log[k]? = some e) : e.Ended := by
  have hk := (List.getElem?_eq_some_iff.mp he).1
  obtain ⟨i, f, hf, hfk⟩ := h.bios.cover k hk
  obtain ⟨e', he', _, hes, _⟩ := (h.bios.flight i f hf).idx k hfk
  rw [he, Option.some.injEq] at he'
  subst he'
  have hst := h.bios.dead hd f (List.mem_of_getElem? hf)
  cases hfs : f.stage with
  | marked => rw [hfs] at hst; exact absurd hst (by decide)
  | reserved off => rw [hfs] at hst; exact Bool.noConfusion (show false = true from hst)
  | submitted => rw [hfs] at hst; exact absurd hst (by decide)
  | ended error => exact ⟨error, by rw [hes, hfs]; rfl⟩

theorem Eof.held (h : KInv cfg s) (hE : EofInv s) (he : Eof s) : s.held = [] := by
  obtain ⟨_, hn, ho⟩ := hE.calls he
  have e := h.read.out
  rw [hn, List.take_length, ho] at e
  exact List.append_right_eq_self.mp e

theorem EofInv.reader {r : Nat} (h : KInv cfg s) (hE : EofInv s) (hs : ReaderMove s r s') :
    EofInv s' := by
  have hmove : ∀ pc : Pc, pc ≠ .empty → pc ≠ .leave .zero → EofInv (s.setPc r pc) :=
    fun pc h1 h2 => hE.setPc (EofPc.other (p:=pc) h1 h2 rfl)
  have hlock : ∀ l, EofInv { s with lock := l } := fun l => ⟨hE.pcs, hE.calls⟩
  cases hs with
  | lock hpc hk =>
    exact (hlock (some r)).setPc (EofPc.other (p:=.next s.t.tail) Pc.noConfusion Pc.noConfusion rfl)
  | next pos q e hpc he => exact hmove _ Pc.noConfusion Pc.noConfusion
  | found pos q e hpc he => exact hmove _ Pc.noConfusion Pc.noConfusion
  | drained pos hpc hn => exact hE.setPc ⟨fun _ _ _ => hn, fun e => Pc.noConfusion e⟩
  | early pos e hpc he hend =>
    exact hE.setPc ⟨fun _ _ hd => absurd (h.dead_ended hd he.1) hend, fun e => Pc.noConfusion e⟩
  | ready pos e hpc he hend => exact hmove _ Pc.noConfusion Pc.noConfusion
  | full hpc hb => exact hE.setPc ⟨fun e => Pc.noConfusion e, fun _ e => absurd e hb⟩
  | eof hpc hb hd =>
    exact hE.setPc ⟨fun e => Pc.noConfusion e, fun _ _ => ⟨hd, (hE.pcs r).1 hpc hb hd⟩⟩
  | again hpc hb hd =>
    exact hmove _ Pc.noConfusion fun e => Ret.noConfusion (Pc.leave.inj e)
  | sleep hpc hb hd =>
    exact (hlock none).setPc (EofPc.other (p:=.asleep) Pc.noConfusion Pc.noConfusion rfl)
  | stop pos ret hpc hne =>
    refine hE.setPc ⟨fun e => Pc.noConfusion e, fun e hb => ?_⟩
    have e := Pc.leave.inj e
    unfold breakRet at e
    rw [if_pos hb] at e
    exact absurd e hne
  | copied pos e hpc he hend => exact hmove _ Pc.noConfusion Pc.noConfusion
  | tail pos e hpc he hend =>
    have hin : (s.readers r).pc.inside = true := by rw [hpc]; rfl
    refine ⟨fun r' => ?_, fun hEof => ?_⟩
    · by_cases hr : r' = r
      · subst hr
        have e1 : (s.tailStore r' pos e.block e.need).readers r' = { s.readers r' with
            buf := (s.readers r').buf ++ e.block, pc := .next (u64 (pos + e.need)) } :=
          Function.update_self _ _ _
        rw [e1]
        exact EofPc.other (p:=.next _) Pc.noConfusion Pc.noConfusion rfl
      · have e1 : (s.tailStore r pos e.block e.need).readers r' = s.readers r' :=
          Function.update_of_ne hr _ _
        have hout := h.read.others hin hr
        rw [e1]
        refine ⟨fun e2 => ?_, fun e2 => ?_⟩
        · rw [e2] at hout
          exact absurd hout (by decide)
        · rw [e2] at hout
          exact absurd hout (by decide)
    · obtain ⟨_, hn, _⟩ := hE.calls hEof
      have hlt := (List.getElem?_eq_some_iff.mp he.1).1
      omega
  | ret ret hpc =>
    have hin : (s.readers r).pc.inside = true := by rw [hpc]; rfl
    have hk := (h.read.inside r).mpr hin
    have hheld : s.held = (s.readers r).buf := by
      unfold KState.held
      rw [hk]
    refine (hlock none).ret (fun hEof => ?_) fun hb hz => ?_
    · have := Eof.held h hE hEof
      rw [hheld] at this
      exact this
    · subst hz
      obtain ⟨hd, hn⟩ := (hE.pcs r).2 hpc hb
      have e := h.read.out
      have hb' : (s.readers r).buf = [] := hb
      rw [hheld, hb', List.append_nil, hn, List.take_length] at e
      exact ⟨hd, hn, e⟩
  | wake hpc => exact hmove _ Pc.noConfusion Pc.noConfusion
  | intr hin => exact hE.ret (fun _ => h.read.outside r hin) fun _ e => Ret.noConfusion e

theorem EofInv.step {a : KAct} (h : KInv cfg s) (hE : EofInv s) (hg : DtrOk s a)
    (hs : kstep cfg s a = some s') : EofInv s' := by
  cases hr : a.isReader with
  | true =>
    rcases KAct.reader_of hr with ⟨r, count, nonblock, rfl⟩ | ⟨r, ok, rfl⟩
    · obtain ⟨_, rfl⟩ := call_cases hs
      refine ⟨fun r' => ?_, hE.calls⟩
      by_cases he : r' = r
      · subst he
        show EofPc s (Function.update s.readers r' _ r')
        rw [Function.update_self]
        exact EofPc.other (p:=.entry) Pc.noConfusion Pc.noConfusion rfl
      · show EofPc s (Function.update s.readers r _ r')
        rw [Function.update_of_ne he]
        exact hE.pcs r'
    · exact hE.reader h (reader_cases h hs)
  | false =>
    obtain ⟨hc, hn, hrd, _, _, hdead⟩ := kstep_frame h hs hr
    have hout : s'.out = s.out := by
      unfold KState.out
      rw [hc]
    have hEof : Eof s' → Eof s := by
      unfold Eof
      rw [hc]
      exact fun e => e
    cases hd : s.t.dead with
    | true =>
      obtain ⟨hd', hl⟩ := kstep_dead h hs hd
      refine ⟨fun r => ?_, fun he => ?_⟩
      · obtain ⟨h1, h2⟩ := hE.pcs r
        unfold EofPc
        rw [hrd, hd', hn, hl]
        exact ⟨fun e1 e2 _ => h1 e1 e2 hd, fun e1 e2 => ⟨rfl, (h2 e1 e2).2⟩⟩
      · obtain ⟨_, h2, h3⟩ := hE.calls (hEof he)
        rw [hd', hn, hl, hout]
        exact ⟨rfl, h2, h3⟩
    | false =>
      have hno : ∀ r, (s.readers r).pc = .leave .zero → (s.readers r).buf ≠ [] := by
        intro r e1 e2
        have := ((hE.pcs r).2 e1 e2).1
        rw [hd] at this
        exact absurd this (by decide)
      have hnocall : ¬Eof s := by
        intro he
        have := (hE.calls he).1
        rw [hd] at this
        exact absurd this (by decide)
      refine ⟨fun r => ?_, fun he => absurd (hEof he) hnocall⟩
      rw [hrd]
      refine ⟨fun e1 e2 hd' => ?_, fun e1 e2 => absurd e2 (hno r e1)⟩
      rcases hdead with hdd | rfl
      · exact absurd (hd.symm.trans (hdd.symm.trans hd')) (by decide)
      · obtain ⟨_, _, rfl⟩ := dtr_cases hs
        exact hg r e1 e2

/-- the whole property: delivery, and no end of file before the last record -/
def Delivery (cfg : Config) (s : KState) : Prop :=
  ∃ n, Delivers cfg s n ∧ (Eof s → s.t.dead = true ∧ n = s.log.length)

/-- **Delivery with its end of file**, in every run in which `cdp_dtr` meets `DtrOk`. -/
theorem delivery (cfg : Config) (dev : Nat → UInt8) (as : List KAct) (s : KState)
    (hg : Meets (kstep cfg) DtrOk (KState.init cfg dev) as)
    (h : exec (kstep cfg) (KState.init cfg dev) as = some s) : Delivery cfg s := by
  have h0 : EofInv (KState.init cfg dev) :=
    ⟨fun r => EofPc.other (p:=.idle) Pc.noConfusion Pc.noConfusion rfl,
      fun ⟨c, hc, _⟩ => absurd hc List.not_mem_nil⟩
  obtain ⟨hk, ⟨n, hn, ho⟩, hE⟩ := exec_invariant_meets
    (P:=fun s => KInv cfg s ∧ Aligned s ∧ EofInv s)
    (fun u a v hu hga hs => ⟨hu.1.step hs, hu.2.1.step hu.1 hs, hu.2.2.step hu.1 hga hs⟩)
    ⟨KInv.init cfg dev, ⟨0, le_rfl, rfl⟩, h0⟩ hg h
  by_cases he : Eof s
  · obtain ⟨hd, hnr, hout⟩ := hE.calls he
    refine ⟨s.log.length, hk.delivers (by omega) ?_, fun _ => ⟨hd, rfl⟩⟩
    rw [List.take_length]
    exact hout
  · exact ⟨n, hk.delivers hn ho, fun e => absurd e he⟩

/-! ## the race, and that it is the only one -/

theorem blocks_length (es : List Entry) : (∀ e ∈ es, e.slack.length = slackLen e.payload) →
    (blocks es).length = (es.map Entry.need).sum := by
  induction es with
  | nil => intro _; rfl
  | cons e es ih =>
    intro h
    have h1 := Entry.block_length (h e List.mem_cons_self)
    have h2 := ih fun x hx => h x (List.mem_cons_of_mem e hx)
    unfold blocks at h2 ⊢
    rw [List.map_cons, List.flatten_cons, List.length_append, h1, h2]
    rfl

theorem needs_lt {log : List Entry} {n m : Nat} (h : n < m) (hm : m ≤ log.length) :
    ((log.take n).map Entry.need).sum < ((log.take m).map Entry.need).sum := by
  obtain ⟨d, rfl⟩ := Nat.exists_eq_add_of_lt h
  have hx : n < log.length := by omega
  have h3 : log.take (n + d + 1) = log.take n ++ log[n] :: (log.drop (n + 1)).take d := by
    rw [Nat.add_assoc, List.take_add, List.drop_eq_getElem_cons hx, List.take_succ_cons]
  have hneed := recSize_le_need log[n]
  have hR : RecSize = 56 := rfl
  rw [h3, List.map_append, List.sum_append, List.map_cons, List.sum_cons]
  omega

theorem Delivers.blocks {n : Nat} (hd : Delivers cfg s n) : s.out = blocks (s.log.take n) := by
  obtain ⟨hn, rs, hlen, ho, hrec⟩ := hd
  rw [ho]
  refine congrArg List.flatten (List.ext_getElem? fun k => ?_)
  rw [List.getElem?_map, List.getElem?_take]
  by_cases hk : k < n
  · have hkr : k < rs.length := by omega
    obtain ⟨e, _, _, _, _, he, hb, _⟩ := hrec k _ (List.getElem?_eq_getElem hkr)
    rw [if_pos hk, List.getElem?_eq_getElem hkr, he, hb]
    rfl
  · rw [if_neg hk, List.getElem?_eq_none (by omega)]
    rfl

theorem Delivers.le_nread (h : KInv cfg s) {n : Nat} (hd : Delivers cfg s n) : n ≤ s.nread := by
  have hslack : ∀ (m : Nat) (e : Entry), e ∈ s.log.take m → e.slack.length = slackLen e.payload :=
    fun m e he => h.log.slack e (List.mem_of_mem_take he)
  have h1 := congrArg List.length hd.blocks
  have h2 := congrArg List.length h.read.out
  rw [blocks_length _ (hslack n)] at h1
  rw [List.length_append, blocks_length _ (hslack s.nread)] at h2
  by_contra hlt
  have h3 := needs_lt (not_le.mp hlt) hd.1
  omega

/-- **`DtrOk` is exact**: where `cdp_dtr` breaks it, the reader it overtakes returns 0 with a
record left. -/
theorem dtr_overtakes (h : KInv cfg s) (hs : dtrStep s = some s') (hbad : ¬DtrOk s .dtr) :
    ∃ r u, exec (kstep cfg) s' [.reader r true, .reader r true] = some u ∧ ¬Delivery cfg u := by
  obtain ⟨hall, hd, rfl⟩ := dtr_cases hs
  unfold DtrOk at hbad
  push Not at hbad
  obtain ⟨r, hpc, hb, hn⟩ := hbad
  have hi' : KInv cfg { s with t := { s.t with dead := true } } := h.step (a:=.dtr) hs
  have h1 : kstep cfg { s with t := { s.t with dead := true } } (.reader r true)
      = some (({ s with t := { s.t with dead := true } } : KState).setPc r (.leave .zero)) := by
    show readerAt _ r true (s.readers r).pc = _
    rw [hpc]
    show (if (s.readers r).buf ≠ [] then _ else if true = true then _ else _) = _
    rw [if_neg (not_not.mpr hb), if_pos rfl]
  have hi1 := hi'.step h1
  have h2 : kstep cfg (({ s with t := { s.t with dead := true } } : KState).setPc r (.leave .zero))
      (.reader r true) = some (({ s with t := { s.t with dead := true }, lock := none } :
        KState).setPc r (.leave .zero) |>.ret r .zero) := by
    show readerAt _ r true _ = _
    rw [setPc_self]
    rfl
  have hi2 := hi1.step h2
  refine ⟨r, _, exec_cons_some.mpr ⟨_, h1, exec_cons_some.mpr ⟨_, h2, rfl⟩⟩, ?_⟩
  rintro ⟨n, hdel, heof⟩
  have hle := hdel.le_nread hi2
  have hlen := h.log.le
  have hE : Eof (({ s with t := { s.t with dead := true }, lock := none } :
      KState).setPc r (.leave .zero) |>.ret r .zero) := by
    refine ⟨⟨(s.readers r).buf, .zero⟩, List.mem_append_right _ ?_, hb, rfl⟩
    rw [List.mem_singleton, setPc_buf]
  obtain ⟨_, rfl⟩ := heof hE
  change s.log.length ≤ s.nread at hle
  omega

theorem KInv.dtrOk (h : KInv cfg s) (hl : s.lock = none) : DtrOk s .dtr := by
  intro r hpc _
  have hin := (h.read.inside r).mpr (by rw [hpc]; rfl)
  rw [hl] at hin
  cases hin

end

/-- one flush, from `cdp_map` to the end of `cdp_end_io` -/
def flushed : List KAct := [.map flushBio, .reserve 0 7, .copy 0, .land 0, .endIo 0 false]

/-- a flush and a write are reserved and complete the other way round, the write with an error; a
write over a quarter of the ring is dropped, and a discard follows.  The first call finds nothing
committed, the second has room for one record, in the third `copy_to_user` fails -/
def mixedRun : List KAct := List.flatten
  [[.map (writeAt 4 1), .map flushBio, .reserve 1 7, .reserve 0 8, .copy 0, .land 0, .endIo 0 true,
      .call 0 4096 true], List.replicate 5 (.reader 0 true),
    [.map bigWrite, .reserve 2 9, .land 2, .endIo 2 false, .map trimBio, .reserve 3 9, .copy 1,
      .land 1, .endIo 1 false, .copy 3, .land 3, .endIo 3 false, .call 1 600 false,
      .call 0 4096 false], List.replicate 9 (.reader 1 true), List.replicate 3 (.reader 0 true),
    [.reader 0 false, .reader 0 true]]

/-- one call takes the other two records, the next one sees the end of file -/
def takeRest : List KAct :=
  [.call 0 4096 false] ++ List.replicate 12 (.reader 0 true) ++
    [.call 0 4096 false] ++ List.replicate 4 (.reader 0 true)

theorem delivery_removed : ∃ s, exec (kstep smallConfig) (KState.init smallConfig fun _ => 0)
    (mixedRun ++ ([.dtr] ++ takeRest)) = some s ∧ s.log.map Entry.gap = [false, false, true] ∧
      s.log.map (fun e => hasFlag e.header.flags FError) = [false, true, false] ∧ Eof s ∧
      Delivers smallConfig s 3 := by
  have h : (exec (kstep smallConfig) (KState.init smallConfig fun _ => 0)
      (mixedRun ++ ([.dtr] ++ takeRest))).any (fun s => s.log.map Entry.gap == [false, false, true] &&
        (s.log.map (fun e => hasFlag e.header.flags FError) == [false, true, false] &&
          s.calls.any fun c => c.bytes.isEmpty && c.ret == .zero)) := by
    decide +kernel
  have hfree : (exec (kstep smallConfig) (KState.init smallConfig fun _ => 0) mixedRun).all
      (fun t => t.lock == none) := by
    decide +kernel
  obtain ⟨s, hs, hp⟩ := (Option.any_eq_true _ _).mp h
  rw [Bool.and_eq_true, Bool.and_eq_true, beq_iff_eq, beq_iff_eq, List.any_eq_true] at hp
  obtain ⟨hgap, herr, c, hc, hcc⟩ := hp
  rw [Bool.and_eq_true, List.isEmpty_iff, beq_iff_eq] at hcc
  have heof : Eof s := ⟨c, hc, hcc⟩
  have hmeets : Meets (kstep smallConfig) DtrOk (KState.init smallConfig fun _ => 0)
      (mixedRun ++ ([.dtr] ++ takeRest)) := by
    refine meets_append (meets_of_forall (by simp [mixedRun, DtrOk])) fun t ht => ?_
    rw [ht] at hfree
    refine ⟨(KInv.reach ht).dtrOk (beq_iff_eq.mp hfree), fun u hu => ?_⟩
    exact meets_of_forall (by simp [takeRest, DtrOk])
  obtain ⟨n, hdel, hn⟩ := delivery smallConfig (fun _ => 0) _ s hmeets hs
  have hlen : s.log.length = 3 := by
    rw [← List.length_map, hgap]
    rfl
  rw [(hn heof).2, hlen] at hdel
  exact ⟨s, hs, hgap, herr, heof, hdel⟩

/-- the reader finds the ring empty; before it looks at `dead`, a flush comes and goes and the
target is removed -/
def eofRace : List KAct :=
  [.call 0 4096 false, .reader 0 true, .reader 0 true] ++ flushed ++
    [.dtr, .reader 0 true, .reader 0 true]

/-- **The race**: `cdp_read` returns 0 with a committed record in the ring. -/
theorem eof_race : ∃ s, exec (kstep smallConfig) (KState.init smallConfig fun _ => 0) eofRace
    = some s ∧ ¬Delivery smallConfig s := by
  have h : (exec (kstep smallConfig) (KState.init smallConfig fun _ => 0) eofRace).any
      (fun s => s.nread == 0 && (s.log.length == 1 &&
        s.calls.any fun c => c.bytes.isEmpty && c.ret == .zero)) := by
    decide
  obtain ⟨s, hs, hp⟩ := (Option.any_eq_true _ _).mp h
  rw [Bool.and_eq_true, Bool.and_eq_true, beq_iff_eq, beq_iff_eq, List.any_eq_true] at hp
  obtain ⟨hn, hlen, c, hc, hcc⟩ := hp
  rw [Bool.and_eq_true, List.isEmpty_iff, beq_iff_eq] at hcc
  refine ⟨s, hs, ?_⟩
  rintro ⟨n, hdel, heof⟩
  have h1 := hdel.le_nread (KInv.reach hs)
  have h2 := (heof ⟨c, hc, hcc⟩).2
  omega

end CDP
