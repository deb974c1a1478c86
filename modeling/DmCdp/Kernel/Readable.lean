import DmCdp.Kernel.Deliver

/-!
# `cdp_readable`, `cdp_poll` and `cdp_read` agree

A call of `cdp_read` on the ring as it is, without another party in between, against what
`cdp_readable` says of that ring.

* `TailEnded`        the record at the tail is committed (`readable_iff`);
* `run_look`         a call looks for that record;
* `run_rest`         a call that has copied something returns it;
* `KInv.agree`       in every reachable state: `cdp_poll` reports data exactly if a call with a buffer
                     of a quarter of the ring returns some; else it returns `-EAGAIN`, or sleeps.
-/

set_option linter.unusedVariables false

namespace CDP
open Img Mach

/-! ## poll -/

/-- the bits of `cdp_poll` -/
structure PollMask where
  /-- `EPOLLIN | EPOLLRDNORM` -/
  pollIn : Bool
  /-- `EPOLLHUP` -/
  hup : Bool
  deriving DecidableEq

def cdpPoll (t : Target) : PollMask := ⟨cdpReadable t, t.dead⟩

/-- the first record that is not delivered is committed -/
def TailEnded (s : KState) : Prop := ∃ e, s.log[s.nread]? = some e ∧ e.Ended

section
variable {cfg : Config} {s u v : KState} {r : Nat}

theorem LogInv.found (h : LogInv s) {e : Entry} {q : Nat} (he : s.NextAt q e) :
    cdpNextStep s.t q = .found q := by
  obtain ⟨h1, rfl⟩ := he
  have hring := h.ring
  rw [h.live_cons h1] at hring
  exact hring.next.2

theorem cdpNext_succ (t : Target) (fuel p : Nat) : cdpNext t (fuel + 1) p =
    match cdpNextStep t p with
    | .null => none
    | .skip q => cdpNext t fuel q
    | .found q => some q := rfl

theorem cdpReadable_of {q : Nat} (h : cdpNext s.t (s.t.head - s.t.tail + 1) s.t.tail = some q) :
    cdpReadable s.t = true ↔ stateAt s.t q = StCommitted := by
  unfold cdpReadable
  rw [h]
  exact beq_iff_eq

/-- **`cdp_readable`** is whether the record at the tail is committed. -/
theorem LogInv.readable_iff (h : LogInv s) : cdpReadable s.t = true ↔ TailEnded s := by
  rcases h.next (Or.inl rfl) with ⟨hnull, hn⟩ | ⟨e, q, he, hq⟩
  · have hnone : cdpNext s.t (s.t.head - s.t.tail + 1) s.t.tail = none := by
      rw [cdpNext_succ, hnull]
    unfold cdpReadable
    rw [hnone]
    refine ⟨fun e => (by cases e), fun ⟨e, he, _⟩ => ?_⟩
    rw [hn, List.getElem?_eq_none (Nat.le_refl _)] at he
    cases he
  · -- the record is in the ring, so the loop has the fuel for a skip and for the record
    have hmem := h.ring.mem (h.mem_live he)
    have hsize := recSize_le_need e
    have hR : RecSize = 56 := rfl
    obtain ⟨k, hk⟩ : ∃ k, s.t.head - s.t.tail = k + 1 :=
      Nat.exists_eq_succ_of_ne_zero (by omega)
    have hnext : cdpNext s.t (s.t.head - s.t.tail + 1) s.t.tail = some q := by
      rw [cdpNext_succ]
      rcases hq with hq | hq
      · rw [hq, hk]
        dsimp only
        rw [cdpNext_succ, h.found he]
      · rw [hq]
    rw [cdpReadable_of hnext, h.stateAt he]
    refine ⟨fun hend => ⟨e, he.1, hend⟩, fun ⟨e', he', hend⟩ => ?_⟩
    rw [he.1] at he'
    exact Option.some.inj he' ▸ hend

/-! ## a call without another party -/

/-- `u` is reached from `s` inside the call of reader `r` -/
structure Inside (s u : KState) (r : Nat) (pc : Pc) (buf : List UInt8) : Prop where
  linv : LogInv u
  reader : u.readers r = ⟨pc, (s.readers r).count, (s.readers r).nonblock, buf⟩
  log : u.log = s.log
  dead : u.t.dead = s.t.dead
  calls : u.calls = s.calls

/-- some steps of the reader alone lead from `u` to `v` -/
def RunsTo (cfg : Config) (r : Nat) (u v : KState) : Prop :=
  ∃ n, exec (kstep cfg) u (List.replicate n (.reader r true)) = some v

theorem RunsTo.refl (u : KState) : RunsTo cfg r u u := ⟨0, rfl⟩

theorem RunsTo.head (h : readerAt u r true (u.readers r).pc = some v) {w : KState}
    (hw : RunsTo cfg r v w) : RunsTo cfg r u w := by
  obtain ⟨n, hn⟩ := hw
  exact ⟨n + 1, exec_cons_some.mpr ⟨v, h, hn⟩⟩

theorem RunsTo.one (h : readerAt u r true (u.readers r).pc = some v) : RunsTo cfg r u v :=
  .head h (.refl v)

theorem RunsTo.trans {w : KState} (h1 : RunsTo cfg r u v) (h2 : RunsTo cfg r v w) :
    RunsTo cfg r u w := by
  obtain ⟨n, hn⟩ := h1
  obtain ⟨m, hm⟩ := h2
  refine ⟨n + m, ?_⟩
  rw [← List.replicate_append_replicate]
  exact exec_append_some.mpr ⟨v, hn, hm⟩

theorem Inside.setPc {pc : Pc} {buf : List UInt8} (h : Inside s u r pc buf) (pc' : Pc) :
    Inside s (u.setPc r pc') r pc' buf := by
  refine ⟨h.linv.of_same rfl rfl rfl rfl rfl rfl rfl, ?_, h.log, h.dead, h.calls⟩
  show Function.update u.readers r { u.readers r with pc := pc' } r = _
  rw [Function.update_self, h.reader]

theorem Inside.at {pc : Pc} {buf : List UInt8} (h : Inside s u r pc buf) {ok : Bool} :
    readerAt u r ok (u.readers r).pc = readerAt u r ok pc := by rw [h.reader]

variable (cfg) in
theorem run_look {buf : List UInt8} (h : Inside s u r (.next u.t.tail) buf) :
    ∃ v, RunsTo cfg r u v ∧ v.t = u.t ∧ v.nread = u.nread ∧
      ((¬TailEnded u ∧ Inside s v r .empty buf) ∨
        ∃ e, u.NextAt e.off e ∧ e.Ended ∧ Inside s v r (.ready e.off) buf) := by
  rcases h.linv.next (Or.inl rfl) with ⟨hnull, hn⟩ | ⟨e, q, he, hq⟩
  · refine ⟨u.setPc r .empty, .one ?_, rfl, rfl, Or.inl ⟨fun ⟨e, he, _⟩ => ?_, h.setPc .empty⟩⟩
    · rw [h.at]
      dsimp only [readerAt]
      rw [hnull]
    · rw [hn, List.getElem?_eq_none (Nat.le_refl _)] at he
      cases he
  · obtain ⟨v, hv, hvt, hvn, hvl, hin⟩ : ∃ v, RunsTo cfg r u v ∧ v.t = u.t ∧ v.nread = u.nread ∧
        v.log = u.log ∧ Inside s v r (.found q) buf := by
      rcases hq with hq | hq
      · refine ⟨(u.setPc r (.next q)).setPc r (.found q), .head (v:=u.setPc r (.next q)) ?_ (.one ?_),
          rfl, rfl, rfl, (h.setPc (.next q)).setPc (.found q)⟩
        · rw [h.at]
          dsimp only [readerAt]
          rw [hq]
        · rw [(h.setPc (.next q)).at]
          dsimp only [readerAt]
          have hf : cdpNextStep (u.setPc r (.next q)).t q = .found q := h.linv.found he
          rw [hf]
      · refine ⟨u.setPc r (.found q), .one ?_, rfl, rfl, rfl, h.setPc (.found q)⟩
        rw [h.at]
        dsimp only [readerAt]
        rw [hq]
    have hst : stateAt v.t q = StCommitted ↔ e.Ended := by
      rw [hvt]
      exact h.linv.stateAt he
    by_cases hend : e.Ended
    · refine ⟨_, hv.trans (.one (v:=v.setPc r (.ready q)) ?_), hvt, hvn,
        Or.inr ⟨e, ⟨he.1, rfl⟩, hend, he.2 ▸ hin.setPc (.ready q)⟩⟩
      rw [hin.at]
      exact if_pos (hst.mpr hend)
    · refine ⟨_, hv.trans (.one (v:=v.setPc r .empty) ?_), hvt, hvn,
        Or.inl ⟨fun ⟨e', he', hend'⟩ => ?_, hin.setPc .empty⟩⟩
      · rw [hin.at]
        exact if_neg fun hc => hend (hst.mp hc)
      · rw [he.1] at he'
        exact hend (Option.some.inj he' ▸ hend')

variable (cfg) in
theorem run_take {buf : List UInt8} {e : Entry} (h : Inside s u r (.ready e.off) buf)
    (he : u.NextAt e.off e) (hend : e.Ended) (hfit : e.need ≤ (s.readers r).count - buf.length) :
    ∃ v, RunsTo cfg r u v ∧ v.nread = u.nread + 1 ∧
      Inside s v r (.next v.t.tail) (buf ++ e.block) := by
  have hw := h.setPc (.taken e.off e.block)
  have hew : (u.setPc r (.taken e.off e.block)).NextAt e.off e := he
  refine ⟨(u.setPc r (.taken e.off e.block)).tailStore r e.off e.block e.need,
    .head (v:=u.setPc r (.taken e.off e.block)) ?_ (.one ?_), rfl,
    hw.linv.taken hew hend rfl rfl rfl, ?_, hw.log, hw.dead, hw.calls⟩
  · rw [h.at]
    dsimp only [readerAt]
    rw [h.linv.recLen he, h.linv.bytes he hend, h.reader]
    exact (if_neg (Nat.not_lt.mpr hfit)).trans (if_pos rfl)
  · rw [hw.at]
    dsimp only [readerAt]
    rw [hw.linv.recLen hew]
    rfl
  · show Function.update _ r _ r = _
    rw [Function.update_self, hw.reader]
    rfl

/-- the call has returned `c` -/
def Returned (s v : KState) (r : Nat) (c : Call) : Prop :=
  (v.readers r).pc = .idle ∧ v.calls = s.calls ++ [c]

variable (cfg) in
theorem run_leave {buf : List UInt8} {ret : Ret} (h : Inside s u r (.leave ret) buf) :
    ∃ v, RunsTo cfg r u v ∧ Returned s v r ⟨buf, ret⟩ := by
  refine ⟨({ u with lock := none } : KState).ret r ret, .one ?_, ?_, ?_⟩
  · rw [h.at]
    rfl
  · rw [ret_self]
  · show u.calls ++ [⟨(u.readers r).buf, ret⟩] = _
    rw [h.calls, h.reader]

theorem step_empty (h : Inside s u r .empty []) : readerAt u r true (u.readers r).pc =
    if s.t.dead then some (u.setPc r (.leave .zero))
    else if (s.readers r).nonblock then some (u.setPc r (.leave .eagain))
    else some (({ u with lock := none } : KState).setPc r .asleep) := by
  rw [h.at]
  dsimp only [readerAt]
  rw [h.reader, h.dead]
  exact if_neg fun hne => hne rfl

variable (cfg) in
theorem run_full {buf : List UInt8} (h : Inside s u r .empty buf) (hbuf : buf ≠ []) :
    ∃ v, RunsTo cfg r u v ∧ Returned s v r ⟨buf, .zero⟩ := by
  have hleave : readerAt u r true (u.readers r).pc = some (u.setPc r (.leave .zero)) := by
    rw [h.at]
    dsimp only [readerAt]
    rw [h.reader]
    exact if_pos hbuf
  obtain ⟨v, hv, hret⟩ := run_leave cfg (h.setPc (.leave .zero))
  exact ⟨v, .head hleave hv, hret⟩

variable (cfg) in
/-- **A call that has copied something** goes on as long as there is a record that fits, and returns
what it has. -/
theorem run_rest (k : Nat) : ∀ {u : KState} {buf : List UInt8}, u.log.length - u.nread = k →
    buf ≠ [] → Inside s u r (.next u.t.tail) buf →
    ∃ v c, RunsTo cfg r u v ∧ Returned s v r c ∧ c.bytes ≠ [] := by
  induction k with
  | zero =>
    intro u buf hk hbuf h
    obtain ⟨w, hw, hwt, hwn, ⟨_, hin⟩ | ⟨e, he, _, _⟩⟩ := run_look cfg h
    · obtain ⟨v, hv, hret⟩ := run_full cfg hin hbuf
      exact ⟨v, _, hw.trans hv, hret, hbuf⟩
    · have hlt := (List.getElem?_eq_some_iff.mp he.1).1
      omega
  | succ k ih =>
    intro u buf hk hbuf h
    obtain ⟨w, hw, hwt, hwn, ⟨_, hin⟩ | ⟨e, he, hend, hin⟩⟩ := run_look cfg h
    · obtain ⟨v, hv, hret⟩ := run_full cfg hin hbuf
      exact ⟨v, _, hw.trans hv, hret, hbuf⟩
    · have hew : w.NextAt e.off e := ⟨by rw [hin.log, ← h.log, hwn]; exact he.1, rfl⟩
      by_cases hfit : e.need ≤ (s.readers r).count - buf.length
      · obtain ⟨x, hx, hxn, hinx⟩ := run_take cfg hin hew hend hfit
        have hlen : x.log.length - x.nread = k := by
          rw [hinx.log, ← h.log, hxn, hwn]
          omega
        have hne : buf ++ e.block ≠ [] := fun e => hbuf (List.append_eq_nil_iff.mp e).1
        obtain ⟨v, c, hv, hret, hc⟩ := ih hlen hne hinx
        exact ⟨v, c, (hw.trans hx).trans hv, hret, hc⟩
      · have hstop : readerAt w r true (w.readers r).pc
            = some (w.setPc r (.leave (breakRet buf .emsgsize))) := by
          rw [hin.at]
          dsimp only [readerAt]
          rw [hin.linv.recLen hew, hin.reader]
          exact if_pos (Nat.not_le.mp hfit)
        obtain ⟨v, hv, hret⟩ := run_leave cfg (hin.setPc (.leave (breakRet buf .emsgsize)))
        exact ⟨v, _, hw.trans (.head hstop hv), hret, hbuf⟩

end

/-! ## agreement -/

/-- the ring as it is, with nobody in `cdp_read` -/
def KState.quiet (s : KState) : KState :=
  { s with lock := none, readers := fun _ => ⟨.idle, 0, false, []⟩, calls := [] }

/-- `cdp_read` of reader `r`, alone on the ring of `s`, leads to `u` -/
def ReadsTo (cfg : Config) (s : KState) (r count : Nat) (nonblock : Bool) (u : KState) : Prop :=
  ∃ n, exec (kstep cfg) s.quiet (.call r count nonblock :: List.replicate n (.reader r true))
    = some u

/-- what `cdp_poll` says, and what calls of `cdp_read` do -/
structure Agree (cfg : Config) (s : KState) (r count : Nat) : Prop where
  /-- a non-blocking call returns, and something exactly if there is input -/
  nonblock : ∃ u c, ReadsTo cfg s r count true u ∧ Returned s.quiet u r c ∧
    ((cdpPoll s.t).pollIn = true ↔ c.bytes ≠ []) ∧
    ((cdpPoll s.t).pollIn = false → s.t.dead = false → c.ret = .eagain)
  /-- a blocking call does so if there is input, and else sleeps -/
  block : ∃ u, ReadsTo cfg s r count false u ∧
    ((cdpPoll s.t).pollIn = true → ∃ c, Returned s.quiet u r c ∧ c.bytes ≠ []) ∧
    ((cdpPoll s.t).pollIn = false → s.t.dead = false → (u.readers r).pc = .asleep)

section
variable {cfg : Config} {s : KState} {r count : Nat}

/-- the first step of a call -/
def KState.entered (s : KState) (r count : Nat) (nonblock : Bool) : KState :=
  { s.quiet with readers := Function.update s.quiet.readers r ⟨.entry, count, nonblock, []⟩ }

theorem readsTo_of {nonblock : Bool} {u v : KState}
    (hu : u = ({ s.entered r count nonblock with lock := some r } : KState).setPc r (.next s.t.tail))
    (h : RunsTo cfg r u v) : ReadsTo cfg s r count nonblock v := by
  have hself : ((s.entered r count nonblock).readers r) = ⟨.entry, count, nonblock, []⟩ :=
    Function.update_self _ _ _
  have hstep : readerAt (s.entered r count nonblock) r true
      ((s.entered r count nonblock).readers r).pc = some u := by
    rw [hself, hu]
    rfl
  have hcall : kstep cfg s.quiet (.call r count nonblock) = some (s.entered r count nonblock) := by
    have hidle : (s.quiet.readers r).pc = .idle := rfl
    show callStep s.quiet r count nonblock = _
    unfold callStep
    rw [if_pos hidle]
    rfl
  obtain ⟨n, hn⟩ := RunsTo.head hstep h
  exact ⟨n, exec_cons_some.mpr ⟨_, hcall, hn⟩⟩

/-- **Where a call comes to**: to a record that it will return, or to the end of what there is. -/
theorem readsTo_cases (h : KInv cfg s) (hcount : s.t.ringSize / MaxRecDiv ≤ count)
    (nonblock : Bool) :
    (TailEnded s ∧ ∃ u c, ReadsTo cfg s r count nonblock u ∧ Returned s.quiet u r c ∧
      c.bytes ≠ []) ∨
    (¬TailEnded s ∧ ∃ u, (∀ v, RunsTo cfg r u v → ReadsTo cfg s r count nonblock v) ∧
      Inside (s.entered r count nonblock) u r .empty []) := by
  obtain ⟨u, hu⟩ : ∃ u, u = ({ s.entered r count nonblock with lock := some r } : KState).setPc r
      (.next s.t.tail) := ⟨_, rfl⟩
  have hself : ((s.entered r count nonblock).readers r) = ⟨.entry, count, nonblock, []⟩ :=
    Function.update_self _ _ _
  have hin : Inside (s.entered r count nonblock) u r (.next u.t.tail) [] := by
    refine ⟨h.log.of_same ?_ ?_ ?_ ?_ ?_ ?_ ?_, ?_, ?_, ?_, ?_⟩ <;> rw [hu] <;> try rfl
    show Function.update (s.entered r count nonblock).readers r _ r = _
    rw [Function.update_self, hself]
    rfl
  have htail : TailEnded u ↔ TailEnded s := by
    rw [hu]
    rfl
  obtain ⟨v, hv, hvt, hvn, ⟨hno, hempty⟩ | ⟨e, he, hend, hready⟩⟩ := run_look cfg hin
  · exact Or.inr ⟨fun ht => hno (htail.mpr ht), v, fun w hw => readsTo_of hu (hv.trans hw), hempty⟩
  · left
    refine ⟨htail.mp ⟨e, he.1, hend⟩, ?_⟩
    have hev : v.NextAt e.off e := ⟨by rw [hready.log, ← hin.log, hvn]; exact he.1, rfl⟩
    have hok := (hin.linv.ring.mem (hin.linv.mem_live he)).1
    have hsize : u.t.ringSize = s.t.ringSize := by rw [hu]; rfl
    have hsmall := hok.small
    rw [hsize] at hsmall
    obtain ⟨w, hw, _, hinw⟩ := run_take cfg hready hev hend (by
      rw [hself]
      exact hsmall.trans hcount)
    have hne : [] ++ e.block ≠ [] := by
      intro e0
      have h1 := Entry.block_length (hready.linv.slack e (List.mem_of_getElem? hev.1))
      have h2 := recSize_le_need e
      have hR : RecSize = 56 := rfl
      rw [List.nil_append] at e0
      rw [e0, List.length_nil] at h1
      omega
    obtain ⟨x, c, hx, hret, hc⟩ := run_rest cfg _ rfl hne hinw
    exact ⟨x, c, readsTo_of hu ((hv.trans hw).trans hx), hret, hc⟩

/-- **`cdp_poll` and the two kinds of `cdp_read` agree.** -/
theorem KInv.agree (h : KInv cfg s) (hcount : s.t.ringSize / MaxRecDiv ≤ count) :
    Agree cfg s r count := by
  have hread : (cdpPoll s.t).pollIn = true ↔ TailEnded s := h.log.readable_iff
  constructor
  · rcases readsTo_cases (r:=r) h hcount true with ⟨ht, u, c, hu, hret, hc⟩ | ⟨hno, u, hu, hin⟩
    · refine ⟨u, c, hu, hret, ⟨fun _ => hc, fun _ => hread.mpr ht⟩, fun hf => ?_⟩
      rw [hread.mpr ht] at hf
      cases hf
    · have hself : (s.entered r count true).readers r = ⟨.entry, count, true, []⟩ :=
        Function.update_self _ _ _
      have hstep := step_empty hin
      rw [hself] at hstep
      change _ = if s.t.dead = true then _ else _ at hstep
      obtain ⟨ret, hstep, hret⟩ : ∃ ret, readerAt u r true (u.readers r).pc
          = some (u.setPc r (.leave ret)) ∧ (s.t.dead = false → ret = .eagain) := by
        by_cases hd : s.t.dead = true
        · rw [if_pos hd] at hstep
          exact ⟨_, hstep, fun hf => by rw [hd] at hf; cases hf⟩
        · rw [if_neg hd] at hstep
          exact ⟨_, hstep, fun _ => rfl⟩
      obtain ⟨v, hv, hleave⟩ := run_leave cfg (hin.setPc (.leave ret))
      exact ⟨v, _, hu v (.head hstep hv), hleave,
        ⟨fun hp => absurd (hread.mp hp) hno, fun hb => absurd rfl hb⟩, fun _ hd => hret hd⟩
  · rcases readsTo_cases (r:=r) h hcount false with ⟨ht, u, c, hu, hret, hc⟩ | ⟨hno, u, hu, hin⟩
    · refine ⟨u, hu, fun _ => ⟨c, hret, hc⟩, fun hf => ?_⟩
      rw [hread.mpr ht] at hf
      cases hf
    · have hself : (s.entered r count false).readers r = ⟨.entry, count, false, []⟩ :=
        Function.update_self _ _ _
      have hstep := step_empty hin
      rw [hself] at hstep
      change _ = if s.t.dead = true then _ else _ at hstep
      by_cases hd : s.t.dead = true
      · refine ⟨u, hu u (.refl u), fun hp => absurd (hread.mp hp) hno, fun _ hf => ?_⟩
        rw [hd] at hf
        cases hf
      · rw [if_neg hd] at hstep
        refine ⟨_, hu _ (.one hstep), fun hp => absurd (hread.mp hp) hno, fun _ _ => ?_⟩
        exact setPc_self

end

end CDP
