import DmCdp.Tools.Episodes
import DmCdp.Tools.Parsers

/-!
# `cdp-drain` beside the device

The process that reads the device into the file of `-o`, in one run with the driver and the bios:
any number of processes, one after the other and with the same file, with signals, `-n`, reads that
are interrupted, a buffer that is too small, and writes that come up short.

* `dstep`               the loop of `main`, system call by system call;
* `drainLoop_records`   the record loop over whole records;
* `FileKept`            the file, and what is about to be written, are what `cdp_read` returned;
* `drain_keeps`         this holds in every state exactly if all that is read is written;
* `Drained`             what is listed and counted; `drain_counts`: always;
* `drain_recovers`      the file, the dirty extents and `cdp-apply` give the device, whatever was
                        dropped;
* `drain_complete`      at the end of file it holds every record.
-/

set_option linter.unusedVariables false

namespace CDP
open Img Mach

/-! ## the process -/

/-- where a `cdp-drain` is -/
inductive DrainPc where
  | away
  | top
  | reading
  | returned (c : Call)
  deriving DecidableEq

def DrainBuf : Nat := 16 * 2^20

structure DrainSys where
  k : KState
  pc : DrainPc
  -- arguments and variables of `main`
  out : Bool
  limit : Int
  bufsz : Nat
  stop : Bool
  count : Int
  total : Nat
  file : List UInt8
  -- ghost: the records handled so far, and before this process; a signal has come
  mark : Nat
  base : Nat
  signalled : Bool

def DrainSys.init (cfg : Config) (dev : Nat → UInt8) : DrainSys :=
  ⟨.init cfg dev, .away, false, -1, DrainBuf, false, 0, 0, [], 0, 0, false⟩

/-- what has been read and not written -/
def DrainPc.pending : DrainPc → List UInt8
  | .returned c => c.bytes
  | _ => []

def DrainSys.quit (d : DrainSys) : DrainSys := { d with pc := .away, mark := d.k.nread }

/-- `read` has returned -1 or 0; `ok` is the outcome of `realloc` -/
def DrainSys.noBytes (d : DrainSys) (ret : Ret) (ok : Bool) : DrainSys :=
  match ret with
  | .erestartsys => if d.stop then d.quit else { d with pc := .top, mark := d.k.nread }
  | .emsgsize =>
    if ok then { d with pc := .top, mark := d.k.nread, bufsz := u64 (d.bufsz * 2) } else d.quit
  | .zero | .eagain | .efault => d.quit

/-- `write`, and the record loop; a `write` that is not `ok` writes `short` bytes -/
def DrainSys.gotBytes (d : DrainSys) (buf : List UInt8) (ok : Bool) (short : Nat) :
    Option DrainSys :=
  if d.out && !ok then
    if short < buf.length then some { d.quit with file := d.file ++ buf.take short } else none
  else
    (drainLoop d.limit buf (buf.length + 1) ⟨0, d.count, d.total, d.stop⟩).map fun v =>
      { d with
        pc := .top
        stop := v.stop
        count := v.count
        total := v.total
        file := if d.out then d.file ++ buf else d.file
        mark := d.k.nread }

inductive DrainAct where
  -- a step of another party
  | env (a : KAct)
  | start (out : Bool) (limit : Int)
  -- SIGINT or SIGTERM
  | signal
  | test
  | read (ok : Bool)
  | handle (ok : Bool) (short : Nat)
  | kill

def dstep (cfg : Config) (d : DrainSys) : DrainAct → Option DrainSys
  | .env a => if a.isReader then none else (kstep cfg d.k a).map fun k => { d with k := k }
  | .start out limit =>
    match d.pc with
    | .away => some { d with
        pc := .top
        out := out
        limit := limit
        bufsz := DrainBuf
        stop := false
        count := 0
        total := 0
        base := d.mark
        signalled := false }
    | _ => none
  | .signal => if d.pc = .away then none else some { d with stop := true, signalled := true }
  | .test =>
    match d.pc with
    | .top =>
      if d.stop = false ∧ (d.limit < 0 ∨ d.count < d.limit) then
        (kstep cfg d.k (.call 0 d.bufsz false)).map fun k => { d with k := k, pc := .reading }
      else some d.quit
    | _ => none
  | .read ok =>
    match d.pc with
    | .reading => (kstep cfg d.k (.reader 0 ok)).map fun k =>
      { d with
        k := k
        pc := if (k.readers 0).pc = .idle then .returned ((k.calls.getLast?).getD ⟨[], .zero⟩)
          else .reading }
    | _ => none
  | .handle ok short =>
    match d.pc with
    | .returned c => if c.bytes = [] then some (d.noBytes c.ret ok) else d.gotBytes c.bytes ok short
    | _ => none
  | .kill =>
    match d.pc with
    | .top | .returned _ => some d.quit
    | _ => none

/-! ## the record loop -/

/-- `total` -/
def payloadBytes (rs : List SRec) : Nat :=
  (rs.map fun r => if r.hdr.type = RecWrite then r.hdr.len else 0).sum

theorem payloadBytes_append (rs rs' : List SRec) :
    payloadBytes (rs ++ rs') = payloadBytes rs + payloadBytes rs' := by
  simp [payloadBytes]

theorem hdrAt_front {buf t : List UInt8} {off : Nat} {r : SRec} (hr : r.Whole)
    (hb : buf.drop off = r.bytes ++ t) :
    hdrAt buf off = r.hdr ∧ HeaderOk buf off ∧ buf.drop (off + r.hdr.recLen) = t := by
  have hat : hdrAt buf off = r.hdr := by
    unfold hdrAt
    rw [hb]
    exact r.parse_bytes hr.fits t
  have hrl : r.hdr.recLen = r.bytes.length := hr.recLen.trans r.length_bytes.symm
  have hlen := congrArg List.length hb
  rw [List.length_drop, List.length_append, r.length_bytes] at hlen
  refine ⟨hat, ⟨?_, by rw [hat]; exact hr.magic⟩, ?_⟩
  · have hR : RecSize = 56 := rfl
    omega
  · rw [← List.drop_drop, hb, hrl]
    exact List.drop_left' rfl

/-- **The record loop** lists all records of what was read, or as many as `-n` leaves, and never
finds a bad magic. -/
theorem drainLoop_records {limit : Int} {buf : List UInt8} {rs : List SRec}
    (hw : ∀ r ∈ rs, r.Whole) : ∀ (v : DrainSt) (fuel : Nat), buf.drop v.off = streamBytes rs →
      rs.length < fuel → v.total < 2^64 → (limit < 0 ∨ v.count < limit) →
      ∃ (j : Nat) (v' : DrainSt), drainLoop limit buf fuel v = some v' ∧ v'.stop = v.stop ∧
        j ≤ rs.length ∧ v'.count = v.count + j ∧
        v'.total = u64 (v.total + payloadBytes (rs.take j)) ∧
        (0 ≤ limit → v'.count ≤ limit) ∧ (j = rs.length ∨ 0 ≤ limit ∧ v'.count = limit) := by
  induction rs with
  | nil =>
    intro v fuel hb hf ht hl
    obtain ⟨fuel, rfl⟩ := Nat.exists_eq_add_of_lt hf
    have hend := List.drop_eq_nil_iff.mp (show buf.drop v.off = [] from hb)
    have hstep : drainStep limit buf v = .leave v := by
      unfold drainStep
      have hR : RecSize = 56 := rfl
      rw [if_neg (by omega)]
    refine ⟨0, v, drainLoop_leave hstep _, rfl, Nat.le_refl _, (add_zero _).symm, ?_, ?_,
      Or.inl rfl⟩
    · exact (u64_of_lt ht).symm
    · intro h0
      rcases hl with hl | hl
      · omega
      · omega
  | cons r rs ih =>
    intro v fuel hb hf ht hl
    obtain ⟨fuel, rfl⟩ := Nat.exists_eq_add_of_lt hf
    obtain ⟨hat, hh, hdrop⟩ := hdrAt_front (hw r List.mem_cons_self)
      (hb.trans (streamBytes_cons r rs))
    have hstep : drainStep limit buf v =
        if 0 ≤ limit ∧ v.count + 1 ≥ limit then
          .leave ⟨v.off + r.hdr.recLen, v.count + 1, u64 (v.total + payloadBytes [r]), v.stop⟩
        else
          .next ⟨v.off + r.hdr.recLen, v.count + 1, u64 (v.total + payloadBytes [r]), v.stop⟩ := by
      have htot : (if r.hdr.type = RecWrite then u64 (v.total + r.hdr.len) else v.total) =
          u64 (v.total + payloadBytes [r]) := by
        unfold payloadBytes
        by_cases hwr : r.hdr.type = RecWrite
        · simp [hwr]
        · simp [hwr, u64_of_lt ht]
      unfold drainStep
      rw [if_pos hh.inside]
      dsimp only
      rw [if_neg (not_not.mpr hh.magic), hat, htot]
    by_cases hlim : 0 ≤ limit ∧ v.count + 1 ≥ limit
    · rw [if_pos hlim] at hstep
      refine ⟨1, _, drainLoop_leave hstep _, rfl, Nat.le_add_left 1 _, rfl, rfl, ?_,
        Or.inr ⟨hlim.1, ?_⟩⟩
      · intro _
        show v.count + 1 ≤ limit
        rcases hl with hl | hl
        · omega
        · omega
      · show v.count + 1 = limit
        rcases hl with hl | hl
        · omega
        · omega
    · rw [if_neg hlim] at hstep
      obtain ⟨j, v', h1, h2, h3, h4, h5, h6, h7⟩ := ih
        (fun x hx => hw x (List.mem_cons_of_mem r hx))
        ⟨v.off + r.hdr.recLen, v.count + 1, u64 (v.total + payloadBytes [r]), v.stop⟩
        (rs.length + fuel + 1) hdrop (by omega) (Nat.mod_lt _ (Nat.two_pow_pos 64))
        (by dsimp only; omega)
      refine ⟨j + 1, v', (drainLoop_next hstep _).trans ?_, h2, Nat.succ_le_succ h3, ?_, ?_, h6, ?_⟩
      · rw [← h1, List.length_cons]
        exact congrArg (drainLoop limit buf · _) (by omega)
      · rw [h4]
        push_cast
        omega
      · rw [h5, List.take_succ_cons]
        show u64 (u64 (v.total + payloadBytes [r]) + _) = _
        have hsplit := payloadBytes_append [r] (rs.take j)
        rw [List.singleton_append] at hsplit
        rw [hsplit]
        unfold u64
        omega
      · rw [List.length_cons]
        exact h7.imp_left (congrArg (· + 1))

/-! ## what one step of a read does -/

section
variable {cfg : Config} {s s' : KState} {r : Nat}

theorem ReaderMove.goes (h : ReaderMove s r s') : s'.log = s.log ∧ s.nread ≤ s'.nread ∧
    (∀ r', r' ≠ r → s'.readers r' = s.readers r') ∧
    (s'.calls = s.calls ∧ (s'.readers r).pc ≠ .idle ∧
        (s'.readers r).count = (s.readers r).count ∨
      ∃ c, s'.calls = s.calls ++ [c] ∧ (s'.readers r).pc = .idle ∧ c.bytes = (s.readers r).buf ∧
        ∀ ret, c.ret = ret → ret ≠ .erestartsys → (s.readers r).pc = .leave ret) := by
  have hcount : ∀ (t : KState) (pc : Pc),
      ((t.setPc r pc).readers r).count = (t.readers r).count := by
    intro t pc
    show (Function.update t.readers r _ r).count = _
    rw [Function.update_self]
  cases h with
  | lock | sleep =>
    refine ⟨rfl, Nat.le_refl _, fun r' hr => setPc_ne hr, Or.inl ⟨rfl, ?_, hcount _ _⟩⟩
    rw [setPc_self]
    exact Pc.noConfusion
  | next | found | drained | early | ready | full | eof | again | stop | copied | wake =>
    refine ⟨rfl, Nat.le_refl _, fun r' hr => setPc_ne hr, Or.inl ⟨rfl, ?_, hcount _ _⟩⟩
    rw [setPc_self]
    exact Pc.noConfusion
  | tail pos e hpc he hend =>
    have hself : (s.tailStore r pos e.block e.need).readers r = { s.readers r with
        buf := (s.readers r).buf ++ e.block, pc := .next (u64 (pos + e.need)) } :=
      Function.update_self _ _ _
    refine ⟨rfl, Nat.le_succ _, fun r' hr => Function.update_of_ne hr _ _, Or.inl ⟨rfl, ?_, ?_⟩⟩
    · rw [hself]
      exact Pc.noConfusion
    · rw [hself]
  | ret ret hpc =>
    refine ⟨rfl, Nat.le_refl _, fun r' hr => ret_ne _ hr, Or.inr ⟨_, rfl, ?_, rfl, ?_⟩⟩
    · rw [ret_self]
    · rintro _ rfl _
      exact hpc
  | intr hin =>
    refine ⟨rfl, Nat.le_refl _, fun r' hr => ret_ne _ hr, Or.inr ⟨_, rfl, ?_, rfl, ?_⟩⟩
    · rw [ret_self]
    · rintro _ rfl hne
      exact absurd rfl hne

theorem take_kept (h : KInv cfg s) (hl : LogExt s.log s'.log) {n : Nat} (hn : n ≤ s.nread) :
    s'.log.take n = s.log.take n :=
  hl.take (hn.trans h.log.le) fun k e he hk => h.log.read k e he (by omega)

theorem out_idle (h : KInv cfg s) (hidle : ∀ r, (s.readers r).pc = .idle) :
    s.out = blocks (s.log.take s.nread) := by
  have hk : s.lock = none := by
    cases hk : s.lock with
    | none => rfl
    | some r =>
      have := (h.read.inside r).mp hk
      rw [hidle r] at this
      cases this
  have e := h.read.out
  unfold KState.held at e
  rw [hk, List.append_nil] at e
  exact e

theorem Entry.whole (h : KInv cfg s) {e : Entry} (he : e ∈ s.log) : e.srec.Whole := by
  obtain ⟨k, hk⟩ := List.mem_iff_getElem?.mp he
  obtain ⟨i, f, a, hf, hfk, ha, ⟨gap, ts, hh⟩, hp, hd, hes, hok⟩ := h.bio_of hk
  have heok := h.log.ok e he
  have hbody : (slice e.data 0 e.payload ++ e.slack).length = e.payload + slackLen e.payload := by
    rw [List.length_append, length_slice, h.log.slack e he]
  have hhdr : e.header.magic = RecMagic ∧ e.header.type = a.type ∧ e.header.len = a.len := by
    unfold Entry.header
    rw [hh]
    cases e.stage <;> exact ⟨rfl, rfl, rfl⟩
  refine ⟨Entry.header_fits heok, hhdr.1, ?_, fun hw => ?_⟩
  · show e.header.recLen = RecSize + (slice e.data 0 e.payload ++ e.slack).length
    rw [hbody, Entry.header_recLen, heok.recLen, need_eq]
    exact Nat.add_assoc _ _ _
  · change e.header.type = RecWrite at hw
    show e.header.len ≤ (slice e.data 0 e.payload ++ e.slack).length
    have hlen : a.type = RecWrite → a.len ≤ a.payload := by
      intro hw
      cases cdpMapArgs_cases ha with
      | flush => exact absurd hw (by decide : RecFlush ≠ RecWrite)
      | write => exact Nat.le_refl _
      | discard => exact absurd hw (by decide : RecDiscard ≠ RecWrite)
      | zero => exact absurd hw (by decide : RecZero ≠ RecWrite)
    have := hlen (hhdr.2.1.symm.trans hw)
    rw [hhdr.2.2, hbody, hp]
    omega

/-- a record that has ended is larger than the buffer; a read that is about to return `-EMSGSIZE`
with nothing has found one -/
def TooSmall (s : KState) (size : Nat) : Prop :=
  ∃ (k : Nat) (e : Entry), s.log[k]? = some e ∧ e.Ended ∧ size < e.need

theorem TooSmall.ext {size : Nat} (h : TooSmall s size) (hl : LogExt s.log s'.log) :
    TooSmall s' size := by
  obtain ⟨k, e, he, hend, hlt⟩ := h
  obtain ⟨e', he', _, _, hsame⟩ := hl k e he
  obtain rfl := hsame hend
  exact ⟨k, e', he', hend, hlt⟩

theorem reader_tooSmall {ok : Bool} (h : KInv cfg s) (hs : readerStep s r ok = some s')
    (hpc : (s'.readers r).pc = .leave .emsgsize) (hb : (s'.readers r).buf = []) :
    TooSmall s (s.readers r).count := by
  cases reader_cases h hs with
  | stop pos ret hready hne =>
    have hb' : (s.readers r).buf = [] := (setPc_buf r) ▸ hb
    rw [setPc_self, hb'] at hpc
    obtain ⟨e, he, hend⟩ : ∃ e, s.NextAt pos e ∧ e.Ended := by
      have := h.read.pc r
      rw [hready] at this
      exact this
    refine ⟨s.nread, e, he.1, hend, ?_⟩
    unfold readerStep at hs
    rw [hready] at hs
    dsimp only [readerAt] at hs
    rw [h.log.recLen he, hb'] at hs
    by_contra hle
    rw [if_neg (by simpa using hle)] at hs
    have hres := congrArg (fun t => t.map fun t => (t.readers r).pc) hs
    cases ok with
    | true =>
      simp only [if_true, Option.map_some, setPc_self, Option.some.injEq, hpc] at hres
      cases hres
    | false =>
      simp only [Bool.false_eq_true, if_false, Option.map_some, setPc_self, Option.some.injEq,
        hpc] at hres
      cases hres
  | lock | next | found | drained | early | ready | full | eof | again | sleep | copied | wake =>
    rw [setPc_self] at hpc
    cases hpc
  | tail pos e hpc' he hend =>
    have hself : (s.tailStore r pos e.block e.need).readers r = { s.readers r with
        buf := (s.readers r).buf ++ e.block, pc := .next (u64 (pos + e.need)) } :=
      Function.update_self _ _ _
    rw [hself] at hpc
    cases hpc
  | ret | intr =>
    rw [ret_self] at hpc
    cases hpc

end

/-! ## the invariant -/

/-- the buffer has its first size, or half of it was too small for a record -/
def Grown (s : KState) (size : Nat) : Prop := size = DrainBuf ∨ TooSmall s (size / 2)

structure DrainInv (cfg : Config) (d : DrainSys) : Prop where
  kernel : KInv cfg d.k
  others : ∀ r, r ≠ 0 → (d.k.readers r).pc = .idle
  idle : d.pc = .reading ↔ (d.k.readers 0).pc ≠ .idle
  mark_le : d.mark ≤ d.k.nread
  handled : blocks (d.k.log.take d.mark) ++ d.pc.pending = d.k.out
  settled : d.pc = .away ∨ d.pc = .top → d.mark = d.k.nread
  call : ∀ c, d.pc = .returned c → c ∈ d.k.calls
  size : d.pc = .reading → (d.k.readers 0).count = d.bufsz
  grown : Grown d.k d.bufsz
  small : (d.k.readers 0).pc = .leave .emsgsize → (d.k.readers 0).buf = [] → TooSmall d.k d.bufsz
  refused : ∀ c, d.pc = .returned c → c.bytes = [] → c.ret = .emsgsize → TooSmall d.k d.bufsz

section
variable {cfg : Config} {d d' : DrainSys}

theorem DrainInv.init (cfg : Config) (dev : Nat → UInt8) : DrainInv cfg (.init cfg dev) where
  kernel := KInv.init cfg dev
  others := fun r _ => rfl
  idle := ⟨fun h => DrainPc.noConfusion h, fun h => absurd rfl h⟩
  mark_le := Nat.le_refl 0
  handled := rfl
  settled := fun _ => rfl
  call := fun c h => DrainPc.noConfusion h
  size := fun h => DrainPc.noConfusion h
  grown := Or.inl rfl
  small := fun h => Pc.noConfusion h
  refused := fun c h => DrainPc.noConfusion h

theorem DrainInv.all_idle (h : DrainInv cfg d) (hpc : d.pc ≠ .reading) (r : Nat) :
    (d.k.readers r).pc = .idle := by
  by_cases hr : r = 0
  · subst hr
    by_contra hne
    exact hpc (h.idle.mpr hne)
  · exact h.others r hr

theorem DrainInv.leave (h : DrainInv cfg d) (hr : d.pc ≠ .reading) (hk : d'.k = d.k)
    (hpc : d'.pc = .away ∨ d'.pc = .top) (hm : d'.mark = d.k.nread)
    (hg : Grown d.k d'.bufsz) : DrainInv cfg d' := by
  have hidle := h.all_idle hr
  have hne : d'.pc ≠ .reading ∧ (∀ c, d'.pc ≠ .returned c) ∧ d'.pc.pending = [] := by
    rcases hpc with e | e <;> rw [e] <;>
      exact ⟨DrainPc.noConfusion, fun c => DrainPc.noConfusion, rfl⟩
  refine ⟨hk ▸ h.kernel, fun r _ => hk ▸ hidle r, ⟨fun e => absurd e hne.1, fun e => ?_⟩, ?_, ?_,
    ?_, fun c e => absurd e (hne.2.1 c), fun e => absurd e hne.1, hk ▸ hg, fun e => ?_,
    fun c e => absurd e (hne.2.1 c)⟩
  · rw [hk] at e
    exact absurd (hidle 0) e
  · rw [hm, hk]
  · rw [hk, hm, hne.2.2, List.append_nil]
    exact (out_idle h.kernel hidle).symm
  · intro _
    rw [hm, hk]
  · rw [hk, hidle 0] at e
    cases e

theorem DrainInv.env (h : DrainInv cfg d) {a : KAct} {k : KState} (ha : a.isReader = false)
    (hs : kstep cfg d.k a = some k) : DrainInv cfg { d with k := k } := by
  obtain ⟨hc, hn, hr, _, hl, _⟩ := kstep_frame h.kernel hs ha
  have hout : k.out = d.k.out := by
    unfold KState.out
    rw [hc]
  refine ⟨h.kernel.step hs, fun r hne => ?_, ?_, ?_, ?_, ?_, ?_, ?_, ?_, ?_, ?_⟩
  · show (k.readers r).pc = .idle
    rw [hr]
    exact h.others r hne
  · show d.pc = .reading ↔ (k.readers 0).pc ≠ .idle
    rw [hr]
    exact h.idle
  · show d.mark ≤ k.nread
    rw [hn]
    exact h.mark_le
  · show blocks (k.log.take d.mark) ++ d.pc.pending = k.out
    rw [hout, take_kept h.kernel hl h.mark_le]
    exact h.handled
  · show _ → d.mark = k.nread
    rw [hn]
    exact h.settled
  · show ∀ c, d.pc = .returned c → c ∈ k.calls
    rw [hc]
    exact h.call
  · show d.pc = .reading → (k.readers 0).count = d.bufsz
    rw [hr]
    exact h.size
  · exact h.grown.imp_right fun g => g.ext hl
  · show (k.readers 0).pc = _ → (k.readers 0).buf = [] → TooSmall k d.bufsz
    rw [hr]
    exact fun e1 e2 => (h.small e1 e2).ext hl
  · exact fun c e1 e2 e3 => (h.refused c e1 e2 e3).ext hl

theorem DrainInv.call_read (h : DrainInv cfg d) (hpc : d.pc = .top) {k : KState}
    (hs : kstep cfg d.k (.call 0 d.bufsz false) = some k) :
    DrainInv cfg { d with k := k, pc := .reading } := by
  have hk := h.kernel.step hs
  obtain ⟨_, rfl⟩ := call_cases hs
  have hself : ∀ x : Reader, Function.update d.k.readers 0 x 0 = x :=
    fun x => Function.update_self _ _ _
  refine ⟨hk, fun r hne => ?_, ?_, h.mark_le, ?_, fun e => ?_, fun c e => DrainPc.noConfusion e,
    fun _ => ?_, h.grown, fun e => ?_, fun c e => DrainPc.noConfusion e⟩
  · show (Function.update d.k.readers 0 _ r).pc = .idle
    rw [Function.update_of_ne hne]
    exact h.others r hne
  · show _ ↔ (Function.update d.k.readers 0 _ 0).pc ≠ .idle
    rw [hself]
    exact ⟨fun _ => Pc.noConfusion, fun _ => rfl⟩
  · have e := h.handled
    rw [hpc] at e
    exact e
  · rcases e with e | e
    · cases e
    · cases e
  · exact congrArg Reader.count (hself _)
  · change (Function.update d.k.readers 0 _ 0).pc = _ at e
    rw [hself] at e
    cases e

theorem DrainInv.read (h : DrainInv cfg d) (hpc : d.pc = .reading) {ok : Bool} {k : KState}
    (hs : kstep cfg d.k (.reader 0 ok) = some k) :
    DrainInv cfg { d with
      k := k
      pc := if (k.readers 0).pc = .idle then .returned ((k.calls.getLast?).getD ⟨[], .zero⟩)
        else .reading } := by
  have hk := h.kernel.step hs
  have hmove := reader_cases h.kernel (show readerStep d.k 0 ok = some k from hs)
  obtain ⟨hl, hn, ho, hcalls⟩ := hmove.goes
  have hothers : ∀ r, r ≠ 0 → (k.readers r).pc = .idle := by
    intro r hne
    rw [ho r hne]
    exact h.others r hne
  have hhandled := h.handled
  rw [hpc] at hhandled
  change blocks (d.k.log.take d.mark) ++ [] = d.k.out at hhandled
  rw [List.append_nil, ← hl] at hhandled
  have hsmall : ∀ {z}, TooSmall d.k z → TooSmall k z := fun g => g.ext (hl ▸ LogExt.refl _)
  rcases hcalls with ⟨hc, hidle, hcount⟩ | ⟨c, hc, hidle, hbytes, hret⟩
  · rw [if_neg hidle]
    refine ⟨hk, hothers, ⟨fun _ => hidle, fun _ => rfl⟩, h.mark_le.trans hn, ?_, fun e => ?_,
      fun c e => DrainPc.noConfusion e, fun _ => hcount.trans (h.size hpc),
      h.grown.imp_right hsmall, fun e1 e2 => ?_, fun c e => DrainPc.noConfusion e⟩
    · show blocks (k.log.take d.mark) ++ [] = k.out
      rw [List.append_nil, hhandled]
      unfold KState.out
      rw [hc]
    · rcases e with e | e
      · cases e
      · cases e
    · exact hsmall (h.size hpc ▸ reader_tooSmall h.kernel hs e1 e2)
  · have hlast : (k.calls.getLast?).getD ⟨[], .zero⟩ = c := by
      rw [hc, List.getLast?_append_of_ne_nil _ (List.cons_ne_nil c [])]
      rfl
    rw [if_pos hidle, hlast]
    refine ⟨hk, hothers, ⟨fun e => DrainPc.noConfusion e, fun e => absurd hidle e⟩,
      h.mark_le.trans hn, ?_, fun e => ?_, fun c' e => ?_, fun e => DrainPc.noConfusion e,
      h.grown.imp_right hsmall, fun e => ?_, fun c' e e1 e2 => ?_⟩
    · show blocks (k.log.take d.mark) ++ c.bytes = k.out
      rw [hhandled]
      unfold KState.out
      rw [hc, List.map_append, List.flatten_append]
      simp
    · rcases e with e | e
      · cases e
      · cases e
    · obtain rfl := DrainPc.returned.inj e
      show c ∈ k.calls
      rw [hc]
      exact List.mem_append_right _ List.mem_cons_self
    · change (k.readers 0).pc = _ at e
      rw [hidle] at e
      cases e
    · obtain rfl := DrainPc.returned.inj e
      exact hsmall (h.small (hret .emsgsize e2 Ret.noConfusion) (hbytes ▸ e1))

/-- the records that are handled next -/
def DrainSys.fresh (d : DrainSys) : List SRec :=
  ((d.k.log.take d.k.nread).drop d.mark).map Entry.srec

theorem DrainInv.bytes (h : DrainInv cfg d) {c : Call} (hpc : d.pc = .returned c) :
    c.bytes = streamBytes d.fresh := by
  have hne : d.pc ≠ .reading := by
    rw [hpc]
    exact DrainPc.noConfusion
  have hh := h.handled
  have hsplit : d.k.log.take d.k.nread =
      d.k.log.take d.mark ++ (d.k.log.take d.k.nread).drop d.mark := by
    have e := List.take_append_drop d.mark (d.k.log.take d.k.nread)
    rw [List.take_take, Nat.min_eq_left h.mark_le] at e
    exact e.symm
  have hblocks : ∀ l l' : List Entry, blocks (l ++ l') = blocks l ++ blocks l' := by
    simp [blocks]
  rw [out_idle h.kernel (h.all_idle hne), hsplit, hblocks, hpc] at hh
  unfold DrainSys.fresh
  rw [streamBytes_blocks]
  exact List.append_cancel_left hh

theorem DrainInv.fresh_whole (h : DrainInv cfg d) : ∀ r ∈ d.fresh, r.Whole := by
  intro r hr
  obtain ⟨e, he, rfl⟩ := List.mem_map.mp hr
  exact Entry.whole h.kernel (List.mem_of_mem_take (List.mem_of_mem_drop he))

theorem Grown.double {s : KState} {size : Nat} (h : TooSmall s size) :
    Grown s (u64 (size * 2)) := by
  obtain ⟨k, e, he, hend, hlt⟩ := h
  refine Or.inr ⟨k, e, he, hend, Nat.lt_of_le_of_lt ?_ hlt⟩
  have : u64 (size * 2) ≤ size * 2 := Nat.mod_le _ _
  omega

theorem DrainInv.quit (h : DrainInv cfg d) (hr : d.pc ≠ .reading) : DrainInv cfg d.quit :=
  h.leave hr rfl (Or.inl rfl) rfl h.grown

theorem DrainInv.noBytes (h : DrainInv cfg d) {c : Call} (hpc : d.pc = .returned c)
    (hb : c.bytes = []) (ok : Bool) : DrainInv cfg (d.noBytes c.ret ok) := by
  have hr : d.pc ≠ .reading := by
    rw [hpc]
    exact DrainPc.noConfusion
  unfold DrainSys.noBytes
  cases hret : c.ret with
  | erestartsys =>
    dsimp only
    split
    · exact h.quit hr
    · exact h.leave hr rfl (Or.inr rfl) rfl h.grown
  | emsgsize =>
    dsimp only
    split
    · exact h.leave hr rfl (Or.inr rfl) rfl (Grown.double (h.refused c hpc hb hret))
    · exact h.quit hr
  | zero => exact h.quit hr
  | eagain => exact h.quit hr
  | efault => exact h.quit hr

theorem DrainInv.gotBytes (h : DrainInv cfg d) (hr : d.pc ≠ .reading) {buf : List UInt8} {ok : Bool}
    {short : Nat} (hs : d.gotBytes buf ok short = some d') : DrainInv cfg d' := by
  unfold DrainSys.gotBytes at hs
  split at hs
  · obtain ⟨_, hs⟩ := Option.ite_none_right_eq_some.mp hs
    obtain rfl := Option.some.inj hs
    exact h.leave hr rfl (Or.inl rfl) rfl h.grown
  · obtain ⟨v, _, rfl⟩ := Option.map_eq_some_iff.mp hs
    exact h.leave hr rfl (Or.inr rfl) rfl h.grown

/-- what a step of the process is -/
inductive DrainMove (cfg : Config) (d : DrainSys) : DrainAct → DrainSys → Prop
  | env (a : KAct) (k : KState) : a.isReader = false → kstep cfg d.k a = some k →
      DrainMove cfg d (.env a) { d with k := k }
  | start (out : Bool) (limit : Int) : d.pc = .away → DrainMove cfg d (.start out limit) { d with
      pc := .top, out := out, limit := limit, bufsz := DrainBuf, stop := false, count := 0,
      total := 0, base := d.mark, signalled := false }
  | signal : d.pc ≠ .away → DrainMove cfg d .signal { d with stop := true, signalled := true }
  | call (k : KState) : d.pc = .top → d.stop = false → (d.limit < 0 ∨ d.count < d.limit) →
      kstep cfg d.k (.call 0 d.bufsz false) = some k →
      DrainMove cfg d .test { d with k := k, pc := .reading }
  | leave : d.pc = .top → DrainMove cfg d .test d.quit
  | read (ok : Bool) (k : KState) : d.pc = .reading → kstep cfg d.k (.reader 0 ok) = some k →
      DrainMove cfg d (.read ok) { d with
        k := k
        pc := if (k.readers 0).pc = .idle then .returned ((k.calls.getLast?).getD ⟨[], .zero⟩)
          else .reading }
  | noBytes (c : Call) (ok : Bool) (short : Nat) : d.pc = .returned c → c.bytes = [] →
      DrainMove cfg d (.handle ok short) (d.noBytes c.ret ok)
  | gotBytes (c : Call) (ok : Bool) (short : Nat) (d' : DrainSys) : d.pc = .returned c →
      c.bytes ≠ [] → d.gotBytes c.bytes ok short = some d' →
      DrainMove cfg d (.handle ok short) d'
  | kill : d.pc ≠ .away → d.pc ≠ .reading → DrainMove cfg d .kill d.quit

theorem dstep_cases {a : DrainAct} (hs : dstep cfg d a = some d') : DrainMove cfg d a d' := by
  unfold dstep at hs
  cases a with
  | env a =>
    obtain ⟨ha, hs⟩ := Option.ite_none_left_eq_some.mp hs
    obtain ⟨k, hk, rfl⟩ := Option.map_eq_some_iff.mp hs
    exact .env a k (Bool.eq_false_of_not_eq_true ha) hk
  | start out limit =>
    cases hpc : d.pc <;> simp only [hpc, reduceCtorEq, Option.some.injEq] at hs
    exact hs ▸ .start out limit hpc
  | signal =>
    obtain ⟨hpc, hs⟩ := Option.ite_none_left_eq_some.mp hs
    exact Option.some.inj hs ▸ .signal hpc
  | test =>
    cases hpc : d.pc <;> simp only [hpc, reduceCtorEq] at hs
    split at hs
    next hc =>
      obtain ⟨k, hk, rfl⟩ := Option.map_eq_some_iff.mp hs
      exact .call k hpc hc.1 hc.2 hk
    next => exact Option.some.inj hs ▸ .leave hpc
  | read ok =>
    cases hpc : d.pc <;> simp only [hpc, reduceCtorEq] at hs
    obtain ⟨k, hk, rfl⟩ := Option.map_eq_some_iff.mp hs
    exact .read ok k hpc hk
  | handle ok short =>
    cases hpc : d.pc <;> simp only [hpc, reduceCtorEq] at hs
    split at hs
    next hb => exact Option.some.inj hs ▸ .noBytes _ ok short hpc hb
    next hb => exact .gotBytes _ ok short d' hpc hb hs
  | kill =>
    cases hpc : d.pc <;> simp only [hpc, reduceCtorEq, Option.some.injEq] at hs <;>
      exact hs ▸ .kill (hpc ▸ DrainPc.noConfusion) (hpc ▸ DrainPc.noConfusion)

theorem DrainInv.step {a : DrainAct} (h : DrainInv cfg d) (hs : dstep cfg d a = some d') :
    DrainInv cfg d' := by
  cases dstep_cases hs with
  | env a k ha hk => exact h.env ha hk
  | start out limit hpc =>
    have hr : d.pc ≠ .reading := by
      rw [hpc]
      exact DrainPc.noConfusion
    exact h.leave hr rfl (Or.inr rfl) (h.settled (Or.inl hpc)) (Or.inl rfl)
  | signal hpc =>
    exact ⟨h.kernel, h.others, h.idle, h.mark_le, h.handled, h.settled, h.call, h.size, h.grown,
      h.small, h.refused⟩
  | call k hpc hstop hlim hk => exact h.call_read hpc hk
  | leave hpc => exact h.quit (by rw [hpc]; exact DrainPc.noConfusion)
  | read ok k hpc hk => exact h.read hpc hk
  | noBytes c ok short hpc hb => exact h.noBytes hpc hb ok
  | gotBytes c ok short d' hpc hb hg => exact h.gotBytes (by rw [hpc]; exact DrainPc.noConfusion) hg
  | kill hpc hr => exact h.quit hr

/-! ## what is counted -/

/-- the first `j` records of this process -/
def DrainSys.listed (d : DrainSys) (j : Nat) : List SRec :=
  ((d.k.log.take (d.base + j)).drop d.base).map Entry.srec

structure Drained (d : DrainSys) : Prop where
  -- a bad magic is never found
  stop : d.stop = d.signalled
  -- the records listed are the first ones of those read, and all but for `-n`; when a process is
  -- gone it may have read one more batch
  listed : ∃ j : Nat, d.count = j ∧ d.base + j ≤ d.mark ∧
    d.total = u64 (payloadBytes (d.listed j)) ∧ (0 ≤ d.limit → d.count ≤ d.limit) ∧
    (d.base + j = d.mark ∨ d.pc = .away ∨ d.pc = .top ∧ 0 ≤ d.limit ∧ d.count = d.limit)
  -- nothing is read at the limit
  below : d.pc = .reading ∨ (∃ c, d.pc = .returned c) → d.limit < 0 ∨ d.count < d.limit

theorem Drained.init (cfg : Config) (dev : Nat → UInt8) : Drained (.init cfg dev) := by
  refine ⟨rfl, ⟨0, rfl, Nat.le_refl 0, rfl, fun _ => ?_, Or.inl rfl⟩, ?_⟩
  · show (0 : Int) ≤ -1
    contradiction
  · rintro (e | ⟨c, e⟩)
    · cases e
    · cases e

theorem Drained.whole (h : Drained d) (hpc : d.pc = .reading ∨ ∃ c, d.pc = .returned c) :
    ∃ j : Nat, d.count = j ∧ d.base + j = d.mark ∧ d.total = u64 (payloadBytes (d.listed j)) ∧
      (0 ≤ d.limit → d.count ≤ d.limit) := by
  obtain ⟨j, h1, h2, h3, h4, h5⟩ := h.listed
  refine ⟨j, h1, ?_, h3, h4⟩
  rcases h5 with h5 | h5 | ⟨h5, _⟩
  · exact h5
  · rcases hpc with e | ⟨c, e⟩ <;> rw [h5] at e <;> cases e
  · rcases hpc with e | ⟨c, e⟩ <;> rw [h5] at e <;> cases e

theorem Drained.quit (hc : Drained d) (h : DrainInv cfg d) : Drained d.quit := by
  obtain ⟨j, h1, h2, h3, h4, _⟩ := hc.listed
  refine ⟨hc.stop, ⟨j, h1, h2.trans h.mark_le, h3, h4, Or.inr (Or.inl rfl)⟩, ?_⟩
  rintro (e | ⟨c, e⟩)
  · cases e
  · cases e

theorem DrainInv.fresh_length (h : DrainInv cfg d) : d.fresh.length = d.k.nread - d.mark := by
  have hle := h.kernel.log.le
  unfold DrainSys.fresh
  rw [List.length_map, List.length_drop, List.length_take, Nat.min_eq_left hle]

theorem Drained.again (hc : Drained d) (h : DrainInv cfg d) {c : Call} (hpc : d.pc = .returned c)
    (hb : c.bytes = []) (size : Nat) :
    Drained { d with pc := .top, mark := d.k.nread, bufsz := size } := by
  obtain ⟨j, h1, h2, h3, h4⟩ := hc.whole (Or.inr ⟨c, hpc⟩)
  have hfresh : d.fresh.length ≤ 0 := by
    have e := length_streamBytes d.fresh
    rw [← h.bytes hpc, hb] at e
    exact e
  rw [h.fresh_length] at hfresh
  have hmark : d.mark = d.k.nread := by
    have := h.mark_le
    omega
  refine ⟨hc.stop, ⟨j, h1, ?_, h3, h4, Or.inl (h2.trans hmark)⟩, ?_⟩
  · exact (h2.trans hmark).le
  · rintro (e | ⟨c, e⟩)
    · cases e
    · cases e

theorem Drained.noBytes (hc : Drained d) (h : DrainInv cfg d) {c : Call} (hpc : d.pc = .returned c)
    (hb : c.bytes = []) (ok : Bool) : Drained (d.noBytes c.ret ok) := by
  unfold DrainSys.noBytes
  cases c.ret with
  | erestartsys =>
    dsimp only
    split
    · exact hc.quit h
    · exact hc.again h hpc hb _
  | emsgsize =>
    dsimp only
    split
    · exact hc.again h hpc hb _
    · exact hc.quit h
  | zero => exact hc.quit h
  | eagain => exact hc.quit h
  | efault => exact hc.quit h

theorem DrainInv.listed_add (h : DrainInv cfg d) {j i : Nat} (hj : d.base + j = d.mark)
    (hi : i ≤ d.fresh.length) : d.listed (j + i) = d.listed j ++ d.fresh.take i := by
  have hle := h.kernel.log.le
  have hm := h.mark_le
  rw [h.fresh_length] at hi
  have hnew : ((d.k.log.take d.k.nread).drop d.mark).take i = (d.k.log.drop d.mark).take i := by
    rw [List.drop_take, List.take_take, Nat.min_eq_left hi]
  unfold DrainSys.listed DrainSys.fresh
  rw [← List.map_take, hnew, ← Nat.add_assoc, hj, List.take_add, List.drop_append_of_le_length,
    List.map_append]
  rw [List.length_take]
  omega

/-- **The record loop in its place** ends, and lists the records that were read. -/
theorem Drained.loop (hc : Drained d) (h : DrainInv cfg d) {c : Call} (hpc : d.pc = .returned c) :
    ∃ v, drainLoop d.limit c.bytes (c.bytes.length + 1) ⟨0, d.count, d.total, d.stop⟩ = some v ∧
      ∀ file, Drained { d with
        pc := .top
        stop := v.stop
        count := v.count
        total := v.total
        file := file
        mark := d.k.nread } := by
  obtain ⟨j, h1, h2, h3, h4⟩ := hc.whole (Or.inr ⟨c, hpc⟩)
  have hbytes := h.bytes hpc
  obtain ⟨i, v, g1, g2, g3, g4, g5, g6, g7⟩ := drainLoop_records h.fresh_whole
    ⟨0, d.count, d.total, d.stop⟩ (c.bytes.length + 1) hbytes
    (by have := length_streamBytes d.fresh; rw [hbytes]; omega)
    (by rw [h3]; exact Nat.mod_lt _ (Nat.two_pow_pos 64)) (hc.below (Or.inr ⟨c, hpc⟩))
  refine ⟨v, g1, fun file => ⟨g2.trans hc.stop, ⟨j + i, ?_, ?_, ?_, g6, ?_⟩, ?_⟩⟩
  · show v.count = _
    rw [g4]
    dsimp only
    rw [h1]
    push_cast
    rfl
  · show d.base + (j + i) ≤ d.k.nread
    rw [h.fresh_length] at g3
    have := h.mark_le
    omega
  · show v.total = u64 (payloadBytes (d.listed (j + i)))
    rw [h.listed_add h2 g3, payloadBytes_append, g5]
    dsimp only
    rw [h3]
    unfold u64
    omega
  · rcases g7 with g7 | g7
    · left
      show d.base + (j + i) = d.k.nread
      rw [g7, h.fresh_length]
      have := h.mark_le
      omega
    · exact Or.inr (Or.inr ⟨rfl, g7⟩)
  · rintro (e | ⟨c, e⟩)
    · cases e
    · cases e

theorem Drained.step {a : DrainAct} (hc : Drained d) (h : DrainInv cfg d)
    (hs : dstep cfg d a = some d') : Drained d' := by
  have hdone : ∀ {p : Prop} {pc : DrainPc}, pc = .away ∨ pc = .top →
      (pc = .reading ∨ ∃ c, pc = .returned c) → p := by
    rintro p pc (rfl | rfl) (e | ⟨c, e⟩) <;> cases e
  cases dstep_cases hs with
  | env a k ha hk =>
    obtain ⟨_, _, _, _, hl, _⟩ := kstep_frame h.kernel hk ha
    obtain ⟨j, h1, h2, h3, h4, h5⟩ := hc.listed
    refine ⟨hc.stop, ⟨j, h1, h2, ?_, h4, h5⟩, hc.below⟩
    rw [h3]
    unfold DrainSys.listed
    rw [take_kept h.kernel hl (h2.trans h.mark_le)]
  | start out limit hpc =>
    refine ⟨rfl, ⟨0, rfl, Nat.le_refl _, ?_, fun h0 => h0, Or.inl rfl⟩, hdone (Or.inr rfl)⟩
    have hnil : (d.k.log.take (d.mark + 0)).drop d.mark = [] := by
      rw [List.drop_eq_nil_iff, List.length_take]
      exact Nat.min_le_left _ _
    unfold DrainSys.listed
    rw [hnil]
    rfl
  | signal hpc => exact ⟨rfl, hc.listed, hc.below⟩
  | call k hpc hstop hlim hk =>
    obtain ⟨_, rfl⟩ := call_cases hk
    obtain ⟨j, h1, h2, h3, h4, h5⟩ := hc.listed
    refine ⟨hc.stop, ⟨j, h1, h2, h3, h4, Or.inl ?_⟩, fun _ => hlim⟩
    rcases h5 with h5 | h5 | ⟨_, h5, h6⟩
    · exact h5
    · rw [hpc] at h5
      cases h5
    · rcases hlim with hlim | hlim
      · omega
      · omega
  | leave hpc => exact hc.quit h
  | read ok k hpc hk =>
    have hmove := reader_cases h.kernel (show readerStep d.k 0 ok = some k from hk)
    obtain ⟨hl, hn, _, _⟩ := hmove.goes
    obtain ⟨j, h1, h2, h3, h4⟩ := hc.whole (Or.inl hpc)
    refine ⟨hc.stop, ⟨j, h1, h2.le, ?_, h4, Or.inl h2⟩, fun _ => hc.below (Or.inl hpc)⟩
    rw [h3]
    unfold DrainSys.listed
    rw [hl]
  | noBytes c ok short hpc hb => exact hc.noBytes h hpc hb ok
  | gotBytes c ok short d' hpc hb hg =>
    obtain ⟨v, hv, hnew⟩ := hc.loop h hpc
    unfold DrainSys.gotBytes at hg
    split at hg
    · obtain ⟨_, hg⟩ := Option.ite_none_right_eq_some.mp hg
      obtain rfl := Option.some.inj hg
      have hq := hc.quit h
      exact ⟨hq.stop, hq.listed, hq.below⟩
    · rw [hv] at hg
      obtain rfl := Option.some.inj hg
      exact hnew _
  | kill hpc hr => exact hc.quit h

/-- **What `cdp-drain` counts**, in every run: whatever the other parties do, and however the reads
and writes end.  The record loop always ends, and the buffer is grown for a record that needs it. -/
theorem drain_counts (cfg : Config) (dev : Nat → UInt8) (as : List DrainAct) (d : DrainSys)
    (h : exec (dstep cfg) (.init cfg dev) as = some d) :
    Drained d ∧ Grown d.k d.bufsz ∧
      ∀ c, d.pc = .returned c → ∃ d', dstep cfg d (.handle true 0) = some d' := by
  obtain ⟨hi, hc⟩ := exec_invariant (P:=fun d => DrainInv cfg d ∧ Drained d)
    (fun _ _ _ hi hs => ⟨hi.1.step hs, hi.2.step hi.1 hs⟩)
    ⟨DrainInv.init cfg dev, Drained.init cfg dev⟩ h
  refine ⟨hc, hi.grown, fun c hpc => ?_⟩
  obtain ⟨v, hv, _⟩ := hc.loop hi hpc
  unfold dstep
  simp only [hpc]
  by_cases hb : c.bytes = []
  · rw [if_pos hb]
    exact ⟨_, rfl⟩
  · rw [if_neg hb]
    unfold DrainSys.gotBytes
    rw [Bool.not_true, Bool.and_false, if_neg Bool.false_ne_true, hv]
    exact ⟨_, rfl⟩

/-! ## the file -/

/-- the file, and what is about to be written, are what the reads have returned -/
def FileKept (d : DrainSys) : Prop := d.file ++ d.pc.pending = d.k.out

/-- what is read is written -/
def WriteOk (d : DrainSys) : DrainAct → Prop
  | .handle ok _ => d.pc.pending ≠ [] → d.out = true ∧ ok = true
  | .kill => d.pc.pending = []
  | _ => True

theorem kept_of_file {k : KState} (hk : k.out = d.k.out) (hp : d.pc.pending = [])
    (h : FileKept d) (hf : d'.file = d.file) (hpc : d'.pc.pending = []) (hk' : d'.k = k) :
    FileKept d' := by
  unfold FileKept at h ⊢
  rw [hf, hpc, hk', hk, ← h, hp]

theorem kept_step {a : DrainAct} (h : DrainInv cfg d) (hk : FileKept d) (hok : WriteOk d a)
    (hs : dstep cfg d a = some d') : FileKept d' := by
  cases dstep_cases hs with
  | env a k ha hk' =>
    obtain ⟨hc, _⟩ := kstep_frame h.kernel hk' ha
    show d.file ++ d.pc.pending = k.out
    unfold KState.out
    rw [hc]
    exact hk
  | start out limit hpc => exact kept_of_file rfl (by rw [hpc]; rfl) hk rfl rfl rfl
  | signal hpc => exact hk
  | call k hpc hstop hlim hk' =>
    obtain ⟨_, rfl⟩ := call_cases hk'
    unfold FileKept at hk
    rw [hpc] at hk
    exact hk
  | leave hpc => exact kept_of_file rfl (by rw [hpc]; rfl) hk rfl rfl rfl
  | read ok k hpc hk' =>
    have hp := h.handled
    have hp' := (h.step hs).handled
    obtain ⟨hl, _⟩ := (reader_cases h.kernel (show readerStep d.k 0 ok = some k from hk')).goes
    rw [hpc] at hp
    have hk : d.file ++ [] = d.k.out := by
      have := hk
      unfold FileKept at this
      rw [hpc] at this
      exact this
    have hfile : d.file = blocks (d.k.log.take d.mark) := by
      rw [List.append_nil] at hk
      rw [hk, ← hp]
      exact List.append_nil _
    unfold FileKept
    rw [← hp']
    show d.file ++ _ = blocks (k.log.take d.mark) ++ _
    rw [hfile, hl]
  | noBytes c ok short hpc hb =>
    have hpend : d.pc.pending = [] := by
      rw [hpc]
      exact hb
    have hnew : (d.noBytes c.ret ok).file = d.file ∧ (d.noBytes c.ret ok).pc.pending = [] ∧
        (d.noBytes c.ret ok).k = d.k := by
      unfold DrainSys.noBytes
      cases c.ret with
      | erestartsys =>
        dsimp only
        split <;> exact ⟨rfl, rfl, rfl⟩
      | emsgsize =>
        dsimp only
        split <;> exact ⟨rfl, rfl, rfl⟩
      | zero => exact ⟨rfl, rfl, rfl⟩
      | eagain => exact ⟨rfl, rfl, rfl⟩
      | efault => exact ⟨rfl, rfl, rfl⟩
    exact kept_of_file rfl hpend hk hnew.1 hnew.2.1 hnew.2.2
  | gotBytes c ok short d' hpc hb hg =>
    have hpend : d.pc.pending = c.bytes := by
      rw [hpc]
      rfl
    obtain ⟨ho, rfl⟩ := hok (hpend ▸ hb)
    unfold DrainSys.gotBytes at hg
    rw [ho, Bool.not_true, Bool.and_false, if_neg Bool.false_ne_true] at hg
    obtain ⟨v, _, rfl⟩ := Option.map_eq_some_iff.mp hg
    unfold FileKept at hk
    rw [hpend] at hk
    show d.file ++ c.bytes ++ [] = d.k.out
    rw [List.append_nil]
    exact hk
  | kill hpc hr => exact kept_of_file rfl hok hk rfl rfl rfl

/-- what has been read and is not written is missing for good -/
theorem not_kept_step {a : DrainAct} (hk : FileKept d) (hok : ¬WriteOk d a)
    (hs : dstep cfg d a = some d') : ¬FileKept d' := by
  have hlose : ∀ {l : List UInt8}, l.length < d.pc.pending.length → d'.file = d.file ++ l →
      d'.pc.pending = [] → d'.k = d.k → ¬FileKept d' := by
    intro l hl hf hp hk' hk2
    unfold FileKept at hk hk2
    rw [hp, List.append_nil, hf, hk', ← hk] at hk2
    have := congrArg List.length hk2
    rw [List.length_append, List.length_append] at this
    omega
  cases dstep_cases hs with
  | env | start | signal | call | leave | read => exact absurd trivial hok
  | noBytes c ok short hpc hb =>
    refine absurd (fun hp => ?_) hok
    rw [hpc] at hp
    exact absurd hb hp
  | gotBytes c ok short d' hpc hb hg =>
    have hpend : d.pc.pending = c.bytes := by
      rw [hpc]
      rfl
    unfold DrainSys.gotBytes at hg
    split at hg
    · obtain ⟨hlt, hg⟩ := Option.ite_none_right_eq_some.mp hg
      obtain rfl := Option.some.inj hg
      refine hlose ?_ rfl rfl rfl
      rw [hpend, List.length_take]
      omega
    next hcond =>
      obtain ⟨v, _, rfl⟩ := Option.map_eq_some_iff.mp hg
      have ho : d.out = false := by
        cases ho : d.out with
        | false => rfl
        | true =>
          refine absurd (fun _ => ⟨ho, ?_⟩) hok
          cases ok with
          | true => rfl
          | false =>
            rw [ho] at hcond
            exact absurd rfl hcond
      refine hlose (l:=[]) ?_ ?_ rfl rfl
      · rw [hpend]
        exact List.length_pos_iff.mpr hb
      · show (if d.out then d.file ++ c.bytes else d.file) = d.file ++ []
        rw [ho, List.append_nil]
        rfl
  | kill hpc hr =>
    refine hlose (l:=[]) (List.length_pos_iff.mpr hok) ?_ rfl rfl
    exact (List.append_nil _).symm

/-- **The file of `-o`.**  Over any number of processes, with signals, limits, interrupted reads and
a buffer that grows: it holds what the reads have returned, in every state, exactly if no write
comes up short and no process is killed between a read and its write. -/
theorem drain_keeps (cfg : Config) (dev : Nat → UInt8) (as : List DrainAct) (d : DrainSys)
    (h : exec (dstep cfg) (.init cfg dev) as = some d) :
    Always (dstep cfg) FileKept (.init cfg dev) as ↔ Meets (dstep cfg) WriteOk (.init cfg dev) as :=
  always_iff_meets (I:=fun d => DrainInv cfg d ∧ FileKept d) (fun _ hi => hi.2)
    (fun _ _ _ hi hok hs => ⟨hi.1.step hs, kept_step hi.1 hi.2 hok hs⟩)
    (fun _ _ _ hi hok hs => not_kept_step hi.2 hok hs) ⟨DrainInv.init cfg dev, rfl⟩ h

/-! ## the file as a stream -/

/-- what the other parties do -/
def EnvOk (good : KState → KAct → Prop) (d : DrainSys) : DrainAct → Prop
  | .env a => good d.k a
  | _ => True

theorem drain_step_kernel {good : KState → KAct → Prop}
    (hgood : ∀ s a, KAct.isReader a = true → good s a) {a : DrainAct} (hok : EnvOk good d a)
    (hs : dstep cfg d a = some d') :
    ∃ bs, exec (kstep cfg) d.k bs = some d'.k ∧ Meets (kstep cfg) good d.k bs := by
  have hone : ∀ {b : KAct} {k : KState}, good d.k b → kstep cfg d.k b = some k →
      ∃ bs, exec (kstep cfg) d.k bs = some k ∧ Meets (kstep cfg) good d.k bs := by
    intro b k hb hk
    exact ⟨[b], exec_cons_some.mpr ⟨k, hk, rfl⟩, hb, fun _ _ => trivial⟩
  have hnone : d'.k = d.k → ∃ bs, exec (kstep cfg) d.k bs = some d'.k ∧
      Meets (kstep cfg) good d.k bs := by
    intro e
    exact ⟨[], congrArg some e.symm, trivial⟩
  cases dstep_cases hs with
  | env a k ha hk => exact hone hok hk
  | call k hpc hstop hlim hk => exact hone (hgood _ _ rfl) hk
  | read ok k hpc hk => exact hone (hgood _ _ rfl) hk
  | start | signal | leave | kill => exact hnone rfl
  | noBytes c ok short hpc hb =>
    refine hnone ?_
    unfold DrainSys.noBytes
    cases c.ret with
    | erestartsys =>
      dsimp only
      split <;> rfl
    | emsgsize =>
      dsimp only
      split <;> rfl
    | zero => rfl
    | eagain => rfl
    | efault => rfl
  | gotBytes c ok short d' hpc hb hg =>
    refine hnone ?_
    unfold DrainSys.gotBytes at hg
    split at hg
    · obtain ⟨_, hg⟩ := Option.ite_none_right_eq_some.mp hg
      obtain rfl := Option.some.inj hg
      rfl
    · obtain ⟨v, _, rfl⟩ := Option.map_eq_some_iff.mp hg
      rfl

/-- **A run with `cdp-drain` is a run of the driver.** -/
theorem drain_kernel {good : KState → KAct → Prop}
    (hgood : ∀ s a, KAct.isReader a = true → good s a) {as : List DrainAct}
    (hok : Meets (dstep cfg) (EnvOk good) d as) (h : exec (dstep cfg) d as = some d') :
    ∃ bs, exec (kstep cfg) d.k bs = some d'.k ∧ Meets (kstep cfg) good d.k bs :=
  exec_simulates DrainSys.k (fun _ => True) (EnvOk good) good (fun _ _ _ _ _ => trivial)
    (fun _ _ _ _ hok hs => drain_step_kernel hgood hok hs) trivial hok h

theorem drain_inv {dev : Nat → UInt8} {as : List DrainAct}
    (hok : Meets (dstep cfg) WriteOk (.init cfg dev) as)
    (h : exec (dstep cfg) (.init cfg dev) as = some d) : DrainInv cfg d ∧ FileKept d :=
  exec_invariant_meets (P:=fun d => DrainInv cfg d ∧ FileKept d)
    (fun _ _ _ hi hok hs => ⟨hi.1.step hs, kept_step hi.1 hi.2 hok hs⟩)
    ⟨DrainInv.init cfg dev, rfl⟩ hok h

theorem eof_complete {dev : Nat → UInt8} {as : List KAct} {s : KState}
    (hg : Meets (kstep cfg) DtrOk (KState.init cfg dev) as)
    (h : exec (kstep cfg) (KState.init cfg dev) as = some s) (he : Eof s) :
    s.t.dead = true ∧ s.out = blocks s.log := by
  have h0 : EofInv (KState.init cfg dev) := by
    refine ⟨fun r => .other (p:=.idle) Pc.noConfusion Pc.noConfusion rfl, ?_⟩
    rintro ⟨c, hc, _⟩
    exact absurd hc List.not_mem_nil
  obtain ⟨_, hE⟩ := exec_invariant_meets (P:=fun s => KInv cfg s ∧ EofInv s)
    (fun u a v hu hga hs => ⟨hu.1.step hs, hu.2.step hu.1 hga hs⟩) ⟨KInv.init cfg dev, h0⟩ hg h
  obtain ⟨hdead, _, hout⟩ := hE.calls he
  exact ⟨hdead, hout⟩

end

/-- **From the ring through the file back to the device.**  Bios are dropped anywhere and any number
of times, and `cdp-drain` is stopped and started any number of times; at the end all bios have
completed, a record has been logged after the last drop, and every record has been handled.  The
calls of `cdp-apply` on the file, with the dirty extents copied from the device after each exit 3,
end with the content of the device. -/
theorem drain_recovers (cfg : Config) (dev0 : Nat → UInt8) (run : List DrainAct) (d : DrainSys)
    (env : ApplyEnv) (io : Nat → List Pwrite) (calls : Nat)
    (hrun : Meets (dstep cfg) (EnvOk (EpisodeAct cfg)) (.init cfg dev0) run)
    (hwrite : Meets (dstep cfg) WriteOk (.init cfg dev0) run)
    (h : exec (dstep cfg) (.init cfg dev0) run = some d)
    (hgap : d.k.t.gapPending = false) (hdone : ∀ f ∈ d.k.flights, f.stage.isEnded = true)
    (hall : d.mark = d.k.log.length) (hpc : d.pc.pending = []) (henv : env.Ample)
    (hio : ∀ n, NoError (io n))
    (hcalls : (d.k.log.filter fun e => hasFlag e.hdr.flags FGapBefore).length < calls) :
    ∃ img, recoverAll env
        (ddAll cfg.size (cfg.range d.k.dev) (doBitmap d.k.dirty cfg.chunkSectors cfg.nbits))
        d.file io calls (-1) (cfg.range dev0) = some (0, img) ∧
      ∀ x, img x = d.k.dev (cfg.start * 512 + x) := by
  obtain ⟨hi, hk⟩ := drain_inv hwrite h
  have hgood : ∀ s a, KAct.isReader a = true → EpisodeAct cfg s a := by
    intro s a ha
    rcases KAct.reader_of ha with ⟨r, count, nonblock, rfl⟩ | ⟨r, ok, rfl⟩
    · trivial
    · trivial
  obtain ⟨bs, hbs, hg⟩ := drain_kernel hgood hrun h
  have hfile : d.file = blocks d.k.log := by
    unfold FileKept at hk
    have hh := hi.handled
    rw [hpc, List.append_nil] at hk hh
    rw [hk, ← hh, hall, List.take_length]
  rw [hfile]
  exact stream_recovers hg hbs hgap hdone henv hio hcalls

/-- **At the end of file** the target is gone and the file holds every record there was. -/
theorem drain_complete (cfg : Config) (dev0 : Nat → UInt8) (run : List DrainAct) (d : DrainSys)
    (hrun : Meets (dstep cfg) (EnvOk DtrOk) (.init cfg dev0) run)
    (hwrite : Meets (dstep cfg) WriteOk (.init cfg dev0) run)
    (h : exec (dstep cfg) (.init cfg dev0) run = some d) (hpc : d.pc = .returned ⟨[], .zero⟩) :
    d.k.t.dead = true ∧ d.file = blocks d.k.log := by
  obtain ⟨hi, hk⟩ := drain_inv hwrite h
  have hgood : ∀ s a, KAct.isReader a = true → DtrOk s a := by
    intro s a ha
    rcases KAct.reader_of ha with ⟨r, count, nonblock, rfl⟩ | ⟨r, ok, rfl⟩
    · trivial
    · trivial
  obtain ⟨bs, hbs, hg⟩ := drain_kernel hgood hrun h
  obtain ⟨hdead, hout⟩ := eof_complete hg hbs ⟨_, hi.call _ hpc, rfl, rfl⟩
  refine ⟨hdead, ?_⟩
  unfold FileKept at hk
  rw [hpc] at hk
  exact (List.append_nil _).symm.trans (hk.trans hout)

/-! ## two runs

Between the two overflows the first process gets a signal; the second has `-n 1`.  The other run
ends with the target. -/

def reads (n : Nat) : List DrainAct := List.replicate n (.read true)

def drainedTwice : List DrainAct :=
  [.start true (-1)] ++ (twoEpisodes.take 9).map .env ++ [.test] ++ reads 8 ++
    [.handle true 0, .signal, .test] ++ ((twoEpisodes.drop 9).take 9).map .env ++
    [.start true 1, .test] ++ reads 8 ++ [.handle true 0, .test]

def drainedToEnd : List DrainAct :=
  [.start true (-1)] ++ flushed.map .env ++ [.test] ++ reads 8 ++ [.handle true 0, .test] ++
    reads 3 ++ [.env .dtr] ++ reads 5

def drainOkB (d : DrainSys) : DrainAct → Bool
  | .handle ok _ => d.pc.pending.isEmpty || d.out && ok
  | .kill => d.pc.pending.isEmpty
  | _ => true

theorem drainOk_of_drainOkB (d : DrainSys) (a : DrainAct) (h : drainOkB d a = true) :
    WriteOk d a := by
  cases a with
  | handle ok short =>
    intro hne
    rcases (Bool.or_eq_true _ _).mp h with h | h
    · exact absurd (List.isEmpty_iff.mp h) hne
    · exact (Bool.and_eq_true _ _).mp h
  | kill => exact List.isEmpty_iff.mp h
  | env | start | signal | test | read => trivial

def envOkB (good : KState → KAct → Bool) (d : DrainSys) : DrainAct → Bool
  | .env a => good d.k a
  | _ => true

theorem envOk_of_envOkB {good : KState → KAct → Prop} {b : KState → KAct → Bool}
    (hb : ∀ s a, b s a = true → good s a) (d : DrainSys) (a : DrainAct)
    (h : envOkB b d a = true) : EnvOk good d a := by
  cases a with
  | env a => exact hb d.k a h
  | handle | kill | start | signal | test | read => trivial

theorem drainedTwice_ok : meetsB (dstep smallConfig) drainOkB (.init smallConfig fun _ => 2)
    drainedTwice = true := by
  decide +kernel

theorem drainedTwice_runs : (exec (dstep smallConfig) (.init smallConfig fun _ => 2)
    drainedTwice).isSome = true := by
  decide +kernel

theorem drain_counts_twice : ∃ d, exec (dstep smallConfig) (.init smallConfig fun _ => 2)
      drainedTwice = some d ∧ Drained d ∧ Grown d.k d.bufsz := by
  obtain ⟨d, hd⟩ := Option.isSome_iff_exists.mp drainedTwice_runs
  obtain ⟨h1, h2, _⟩ := drain_counts smallConfig (fun _ => 2) drainedTwice d hd
  exact ⟨d, hd, h1, h2⟩

theorem drain_keeps_twice :
    Always (dstep smallConfig) FileKept (.init smallConfig fun _ => 2) drainedTwice := by
  obtain ⟨d, hd⟩ := Option.isSome_iff_exists.mp drainedTwice_runs
  exact (drain_keeps smallConfig (fun _ => 2) drainedTwice d hd).mpr
    (meets_of_meetsB drainOk_of_drainOkB drainedTwice_ok)

theorem drain_recovers_twice : ∃ d img, exec (dstep smallConfig)
      (.init smallConfig fun _ => 2) drainedTwice = some d ∧ d.count = 1 ∧
    recoverAll ⟨fun _ => true, fun _ => true, fun _ => 0⟩ (ddAll smallConfig.size
      (smallConfig.range d.k.dev) (doBitmap d.k.dirty smallConfig.chunkSectors smallConfig.nbits))
      d.file (fun _ => [.wrote 100, .eintr]) 3 (-1) (smallConfig.range fun _ => 2) =
        some (0, img) ∧
    ∀ x, img x = d.k.dev (smallConfig.start * 512 + x) := by
  have h : (exec (dstep smallConfig) (.init smallConfig fun _ => 2) drainedTwice).any
      (fun d => d.k.log.length == 2 && (d.k.flights.all (fun f => f.stage.isEnded) &&
        (d.mark == 2 && (d.pc.pending.isEmpty && (!d.k.t.gapPending && (d.count == 1 &&
          decide ((d.k.log.filter fun e => hasFlag e.hdr.flags FGapBefore).length < 3))))))) := by
    decide +kernel
  have henv : meetsB (dstep smallConfig) (envOkB oneByOne) (.init smallConfig fun _ => 2)
      drainedTwice = true := by
    decide +kernel
  obtain ⟨d, hd, hp⟩ := (Option.any_eq_true _ _).mp h
  simp only [Bool.and_eq_true, beq_iff_eq, List.all_eq_true, List.isEmpty_iff, Bool.not_eq_true',
    decide_eq_true_eq] at hp
  obtain ⟨hlen, hall, hmark, hpend, hgap, hone, hcount⟩ := hp
  obtain ⟨img, h1, h2⟩ := drain_recovers smallConfig (fun _ => 2) drainedTwice d
    ⟨fun _ => true, fun _ => true, fun _ => 0⟩ (fun _ => [.wrote 100, .eintr]) 3
    (meets_of_meetsB (envOk_of_envOkB (oneByOne_episode smallConfig)) henv)
    (meets_of_meetsB drainOk_of_drainOkB drainedTwice_ok) hd hgap hall (hmark.trans hlen.symm) hpend
    ⟨fun _ => rfl, fun _ => rfl⟩ (fun _ => by decide) hcount
  exact ⟨d, img, hd, hone, h1, h2⟩

/-- `cdp_dtr` when all has been read -/
def readAll (s : KState) : KAct → Bool
  | .dtr => s.nread == s.log.length
  | _ => true

theorem readAll_dtrOk (s : KState) (a : KAct) (h : readAll s a = true) : DtrOk s a := by
  cases a with
  | dtr => exact fun _ _ _ => beq_iff_eq.mp h
  | _ => trivial

theorem drain_complete_flushed : ∃ d, exec (dstep smallConfig) (.init smallConfig fun _ => 0)
      drainedToEnd = some d ∧ d.file ≠ [] ∧ d.k.t.dead = true ∧ d.file = blocks d.k.log := by
  have h : (exec (dstep smallConfig) (.init smallConfig fun _ => 0) drainedToEnd).any
      (fun d => d.pc == .returned ⟨[], .zero⟩ && !d.file.isEmpty) := by
    decide +kernel
  have henv : meetsB (dstep smallConfig) (envOkB readAll) (.init smallConfig fun _ => 0)
      drainedToEnd = true := by
    decide +kernel
  have hwrite : meetsB (dstep smallConfig) drainOkB (.init smallConfig fun _ => 0)
      drainedToEnd = true := by
    decide +kernel
  obtain ⟨d, hd, hp⟩ := (Option.any_eq_true _ _).mp h
  obtain ⟨hpc, hfile⟩ := (Bool.and_eq_true _ _).mp hp
  refine ⟨d, hd, fun e => ?_, drain_complete smallConfig (fun _ => 0) drainedToEnd d
    (meets_of_meetsB (envOk_of_envOkB readAll_dtrOk) henv)
    (meets_of_meetsB drainOk_of_drainOkB hwrite) hd (beq_iff_eq.mp hpc)⟩
  rw [e] at hfile
  cases hfile

end CDP
