import DmCdp.Kernel.Status

/-!
# `records` and `bytes_logged`

The two counters beside the ring, with `cdp_end_io` step by step.

* `TargetKept`    what a step of the target keeps that is not the `cdp_end_io` of a logged bio;
* `logBytes`      what the first records add to `bytes_logged`; `Chain.weight`: the ring holds headers
                  and payload of the unread ones;
* `CounterInv`    the counters count the records that are past the step of `cdp_end_io` that counts
                  them, if they have not been reset, and never more; nothing wraps.
-/

set_option linter.unusedVariables false

namespace CDP
open Img Mach Slots Counts Finset

/-! ## bytes of the log -/

/-- what a record adds to `bytes_logged` -/
def Rec.logged (r : Rec) : Nat := if r.type = RecWrite then r.len else 0

/-- what record `j` adds -/
def lenAt (log : List Entry) (j : Nat) : Nat := (log[j]?.map fun e => e.hdr.logged).getD 0

/-- what the first `n` records add -/
def logBytes (log : List Entry) (n : Nat) : Nat := ∑ j ∈ range n, lenAt log j

theorem lenAt_of {log : List Entry} {j : Nat} {e : Entry} (h : log[j]? = some e) :
    lenAt log j = e.hdr.logged := by
  simp [lenAt, h]

theorem lenAt_hdrs {log log' : List Entry} (h : log'.map Entry.hdr = log.map Entry.hdr) (j : Nat) :
    lenAt log' j = lenAt log j := by
  have hj := congrArg (fun l => (l[j]?.map Rec.logged).getD 0) h
  simpa [lenAt, Function.comp_def] using hj

theorem lenAt_snoc {log : List Entry} {e : Entry} {j : Nat} (h : j < log.length) :
    lenAt (log ++ [e]) j = lenAt log j := by
  simp [lenAt, List.getElem?_append_left h]

theorem logBytes_congr {log log' : List Entry} {n : Nat}
    (h : ∀ j, j < n → lenAt log' j = lenAt log j) : logBytes log' n = logBytes log n :=
  sum_stay h

/-- the ring holds the unread records with their payload -/
theorem Chain.weight {rs : Nat} {m : Nat → UInt8} {es : List Entry}
    (hp : ∀ e ∈ es, e.hdr.logged ≤ e.payload) :
    ∀ {p h : Nat}, Chain rs m p es h → p + RecSize * es.length + logBytes es es.length ≤ h := by
  induction es with
  | nil =>
    intro p h hc
    simp [logBytes]
    exact hc.le
  | cons e es ih =>
    intro p h hc
    have h1 := ih (fun x hx => hp x (List.mem_cons_of_mem e hx)) hc.2
    have h2 := hc.1.off
    have h3 := recSize_le_need e
    have h4 := hp e List.mem_cons_self
    have h5 : logBytes (e :: es) (es.length + 1) = logBytes es es.length + e.hdr.logged := by
      unfold logBytes
      rw [sum_range_succ']
      rfl
    rw [List.length_cons, h5]
    have h6 : RecSize * (es.length + 1) = RecSize * es.length + RecSize := rfl
    omega

section
variable {cfg : Config} {k k' : KState}

theorem cdpMapArgs_logged {b : Bio} {a : LogArgs} (h : cdpMapArgs cfg b = some a) :
    a.payload = if a.type = RecWrite then a.len else 0 := by
  cases cdpMapArgs_cases h <;> rfl

theorem Logs.logged {b : Bio} {j : Nat} {e : Entry} (h : Logs cfg b j e) :
    e.hdr.logged = e.payload := by
  obtain ⟨a, gap, ts, ha, hh, hp, _⟩ := h
  rw [hp, cdpMapArgs_logged ha, hh]
  rfl

theorem KInv.logged (h : KInv cfg k) {e : Entry} (he : e ∈ k.log) : e.hdr.logged = e.payload := by
  obtain ⟨j, hj⟩ := List.mem_iff_getElem?.mp he
  obtain ⟨i, f, hf, hfj⟩ := h.bios.cover j (List.getElem?_eq_some_iff.mp hj).1
  obtain ⟨e', he', hl, _⟩ := (h.bios.flight i f hf).idx j hfj
  obtain rfl := Option.some.inj (hj.symm.trans he')
  exact hl.logged

/-! ## what the steps of the target keep -/

/-- a step that is not the `cdp_end_io` of a logged bio -/
structure TargetKept (a : KAct) (k k' : KState) : Prop where
  records : k'.t.records = k.t.records
  bytes : k'.t.bytesLogged = k.t.bytesLogged
  nbits : k'.t.nbits = k.t.nbits
  chunk : k'.t.chunkSectors = k.t.chunkSectors
  size : k'.t.ringSize = k.t.ringSize
  bits : a.clears = false → ∀ b, k.t.bitmap b = true → k'.t.bitmap b = true
  dead : k.t.dead = true → k'.t.dead = true
  head : (∀ i ts, a ≠ .reserve i ts) → k'.t.head = k.t.head
  overflows : k.t.overflows < 2^64 → k'.t.overflows < 2^64
  /-- a record that has ended had ended before -/
  ended : ∀ (j : Nat) (e : Entry), k'.log[j]? = some e → e.Ended →
    ∃ e0 : Entry, k.log[j]? = some e0 ∧ e0.Ended

theorem TargetKept.same {a : KAct} (h1 : k'.t.records = k.t.records)
    (h2 : k'.t.bytesLogged = k.t.bytesLogged) (h3 : k'.t.nbits = k.t.nbits)
    (h4 : k'.t.chunkSectors = k.t.chunkSectors) (h5 : k'.t.ringSize = k.t.ringSize)
    (h6 : a.clears = false → ∀ b, k.t.bitmap b = true → k'.t.bitmap b = true)
    (h7 : k.t.dead = true → k'.t.dead = true) (h8 : k'.t.head = k.t.head)
    (h9 : k.t.overflows < 2^64 → k'.t.overflows < 2^64) (hl : k'.log = k.log) :
    TargetKept a k k' := by
  refine ⟨h1, h2, h3, h4, h5, h6, h7, fun _ => h8, h9, fun j e he hend => ⟨e, ?_, hend⟩⟩
  rw [← hl]
  exact he

theorem TargetKept.map {b : Bio} (hs : mapStep cfg k b = some k') : TargetKept (.map b) k k' := by
  obtain ⟨_, _, ⟨_, rfl⟩ | ⟨a, _, rfl⟩⟩ := map_cases hs
  · exact .same rfl rfl rfl rfl rfl (fun _ b hb => hb) id rfl id rfl
  · obtain ⟨_, e1, e0, _, _, e2, e3, e4⟩ := cdpMark_same k.t a.sector a.len
    have hc : (cdpMark k.t a.sector a.len).records = k.t.records ∧
        (cdpMark k.t a.sector a.len).bytesLogged = k.t.bytesLogged ∧
        (cdpMark k.t a.sector a.len).overflows = k.t.overflows := by
      unfold cdpMark
      split <;> exact ⟨rfl, rfl, rfl⟩
    exact .same hc.1 hc.2.1 e3 e4 e1 (fun _ b hb => cdpMark_bitmap_mono k.t a.sector a.len b hb)
      (fun hd => e2.trans hd) e0 (fun h => hc.2.2.trans_lt h) rfl

theorem TargetKept.reserve {i ts : Nat} (h : KInv cfg k) (hs : reserveStep cfg k i ts = some k') :
    TargetKept (.reserve i ts) k k' := by
  obtain ⟨f, a, _, _, _, _, ⟨_, rfl⟩ | ⟨_, _, rfl⟩⟩ := reserve_cases h.log hs
  · exact .same rfl rfl rfl rfl rfl (fun _ b hb => hb) id rfl
      (fun _ => Nat.mod_lt _ (Nat.two_pow_pos 64)) rfl
  · refine ⟨rfl, rfl, rfl, rfl, rfl, fun _ b hb => hb, id, fun hno => absurd rfl (hno i ts), id,
      fun j e he hend => ?_⟩
    rcases push_at he with he | ⟨_, rfl⟩
    · exact ⟨e, he, hend⟩
    · obtain ⟨error, herr⟩ := hend
      cases herr

/-- **Every action** but the `cdp_end_io` of a logged bio. -/
theorem TargetKept.step {a : KAct} (h : KInv cfg k) (hs : kstep cfg k a = some k')
    (ha : ∀ i error, a = .endIo i error → k.logging i = none) : TargetKept a k k' := by
  cases a with
  | map b => exact .map hs
  | reserve i ts => exact .reserve h hs
  | copy i =>
    obtain ⟨f, off, j, a, hf, hst, hj, _, rfl⟩ := copy_cases hs
    refine ⟨rfl, rfl, rfl, rfl, rfl, fun _ b hb => hb, id, fun _ => rfl, id, fun n e he hend => ?_⟩
    obtain ⟨e0, he0, _⟩ := (h.bios.flight i f hf).idx j hj
    rcases modify_at he0 he with ⟨rfl, rfl⟩ | ⟨_, he⟩
    · obtain ⟨error, herr⟩ := hend
      cases herr
    · exact ⟨e, he, hend⟩
  | land i =>
    obtain ⟨f, _, _, _, rfl⟩ := land_cases hs
    exact .same rfl rfl rfl rfl rfl (fun _ b hb => hb) id rfl id rfl
  | endIo i error =>
    obtain ⟨f, hf, hst, _, ⟨j, hl, hj, rfl⟩ | ⟨_, rfl⟩⟩ := endIo_cases hs
    · have hno := ha i error rfl
      simp [KState.logging, hf, hl, hj, hst] at hno
    · exact .same rfl rfl rfl rfl rfl (fun _ b hb => hb) id rfl id rfl
  | call r count nonblock =>
    obtain ⟨_, rfl⟩ := call_cases hs
    exact .same rfl rfl rfl rfl rfl (fun _ b hb => hb) id rfl id rfl
  | reader r ok =>
    cases reader_cases h hs <;> exact .same rfl rfl rfl rfl rfl (fun _ b hb => hb) id rfl id rfl
  | clearBegin =>
    obtain rfl := clearBegin_cases hs
    exact .same rfl rfl rfl rfl rfl (fun _ b hb => hb) id rfl id rfl
  | clearWord =>
    obtain ⟨w, _, _, rfl⟩ := clearWord_cases hs
    exact .same rfl rfl rfl rfl rfl (fun e => by cases e) id rfl id rfl
  | clearDone ok =>
    obtain ⟨w, _, _, rfl⟩ := clearDone_cases hs
    exact .same rfl rfl rfl rfl rfl (fun _ b hb => hb) id rfl id rfl
  | reread c =>
    change rereadStep cfg k c = some k' at hs
    obtain ⟨_, rfl⟩ := reread_cases hs
    exact .same rfl rfl rfl rfl rfl (fun _ b hb => hb) id rfl id rfl
  | dtr =>
    obtain ⟨_, _, rfl⟩ := dtr_cases hs
    exact .same rfl rfl rfl rfl rfl (fun _ b hb => hb) (fun _ => rfl) rfl id rfl

end

/-! ## the counters -/

def StatusSt.counted (s : StatusSt) : Nat :=
  ∑ j ∈ range s.k.log.length, if s.ends j = .count then 0 else 1

/-- the bytes that `bytes_logged` has counted -/
def StatusSt.added (s : StatusSt) : Nat :=
  ∑ j ∈ range s.k.log.length, if s.ends j = .commit then lenAt s.k.log j else 0

structure CounterInv (cfg : Config) (s : StatusSt) : Prop where
  k : KInv cfg s.k
  nbits : s.k.t.nbits = cfg.nbits
  chunk : s.k.t.chunkSectors = cfg.chunkSectors
  size : s.k.t.ringSize = cfg.ringSize
  weight : RecSize * s.k.log.length + logBytes s.k.log s.k.log.length ≤ s.k.t.head
  ended : ∀ (j : Nat) (e : Entry), s.k.log[j]? = some e → e.Ended → s.ends j = .commit
  fresh : ∀ j, s.ends j ≠ .count → j < s.k.log.length
  records : s.k.t.records ≤ s.counted
  bytes : s.k.t.bytesLogged ≤ s.added
  exact : s.reset = false → s.k.t.records = s.counted ∧ s.k.t.bytesLogged = s.added
  overflows : s.k.t.overflows < 2^64

section
variable {cfg : Config} {minor : Nat} {s s' : StatusSt}

theorem counted_le (s : StatusSt) : s.counted ≤ s.k.log.length := by
  have h : s.counted ≤ ∑ j ∈ range s.k.log.length, 1 := by
    apply sum_le_sum
    intro j _
    split <;> omega
  simpa using h

theorem added_le (s : StatusSt) : s.added ≤ logBytes s.k.log s.k.log.length := by
  apply sum_le_sum
  intro j _
  split <;> omega

theorem CounterInv.init (cfg : Config) (dev : Nat → UInt8) :
    CounterInv cfg (StatusSt.init cfg dev) := by
  refine ⟨KInv.init cfg dev, rfl, rfl, rfl, Nat.zero_le _, fun j e he => ?_, fun j hj => ?_,
    Nat.zero_le _, Nat.zero_le _, fun _ => ⟨rfl, rfl⟩, Nat.two_pow_pos 64⟩
  · simp [StatusSt.init, KState.init] at he
  · exact absurd rfl hj

theorem counted_same (hl : s'.k.log.map Entry.hdr = s.k.log.map Entry.hdr) (he : s'.ends = s.ends) :
    s'.k.log.length = s.k.log.length ∧ s'.counted = s.counted ∧ s'.added = s.added ∧
      logBytes s'.k.log s.k.log.length = logBytes s.k.log s.k.log.length := by
  have hlen : s'.k.log.length = s.k.log.length := by simpa using congrArg List.length hl
  have hat := lenAt_hdrs hl
  refine ⟨hlen, ?_, ?_, ?_⟩
  · unfold StatusSt.counted
    rw [hlen, he]
  · unfold StatusSt.added
    rw [hlen, he]
    simp only [hat]
  · unfold logBytes
    simp only [hat]

theorem CounterInv.same (h : CounterInv cfg s) (hk : KInv cfg s'.k)
    (hl : s'.k.log.map Entry.hdr = s.k.log.map Entry.hdr) (he : s'.ends = s.ends)
    (hr : s'.reset = s.reset) (h1 : s'.k.t.records = s.k.t.records)
    (h2 : s'.k.t.bytesLogged = s.k.t.bytesLogged) (h3 : s'.k.t.nbits = s.k.t.nbits)
    (h4 : s'.k.t.chunkSectors = s.k.t.chunkSectors) (h5 : s'.k.t.ringSize = s.k.t.ringSize)
    (h6 : s'.k.t.head = s.k.t.head) (h7 : s'.k.t.overflows < 2^64)
    (hend : ∀ (j : Nat) (e : Entry), s'.k.log[j]? = some e → e.Ended → s.ends j = .commit) :
    CounterInv cfg s' := by
  obtain ⟨hlen, hc, ha, hb⟩ := counted_same hl he
  refine ⟨hk, h3.trans h.nbits, h4.trans h.chunk, h5.trans h.size, ?_, ?_, ?_, ?_, ?_, ?_, h7⟩
  · rw [hlen, hb, h6]
    exact h.weight
  · rw [he]
    exact hend
  · rw [he, hlen]
    exact h.fresh
  · rw [h1, hc]
    exact h.records
  · rw [h2, ha]
    exact h.bytes
  · rw [hr, h1, h2, hc, ha]
    exact h.exact

theorem counted_snoc (s' : StatusSt) {e : Entry} (h : CounterInv cfg s)
    (hl : s'.k.log = s.k.log ++ [e])
    (he : s'.ends = s.ends) : s'.counted = s.counted ∧ s'.added = s.added ∧
      logBytes s'.k.log s'.k.log.length
        = logBytes s.k.log s.k.log.length + e.hdr.logged := by
  have hlen : s'.k.log.length = s.k.log.length + 1 := by simp [hl]
  have hcount : s.ends s.k.log.length = .count := by
    by_contra hne
    exact lt_irrefl _ (h.fresh _ hne)
  have hat : ∀ j, j < s.k.log.length → lenAt s'.k.log j = lenAt s.k.log j := by
    intro j hj
    rw [hl]
    exact lenAt_snoc hj
  refine ⟨?_, ?_, ?_⟩
  · unfold StatusSt.counted
    rw [hlen, sum_range_succ, he, hcount]
    rfl
  · unfold StatusSt.added
    rw [hlen, sum_range_succ, he, hcount]
    apply sum_stay
    intro j hj
    rw [hat j hj]
  · have hlast : lenAt s'.k.log s.k.log.length = e.hdr.logged := by
      rw [hl]
      exact lenAt_of (push_last _ _)
    unfold logBytes
    rw [hlen, sum_range_succ, hlast, sum_stay hat]

theorem CounterInv.reserve {i ts : Nat} {k' : KState} (h : CounterInv cfg s)
    (hs : kstep cfg s.k (.reserve i ts) = some k') : CounterInv cfg { s with k := k' } := by
  have hk := h.k.step hs
  obtain ⟨f, a, hf, hst, ha, _, ⟨_, rfl⟩ | ⟨_, _, he⟩⟩ := reserve_cases h.k.log hs
  · exact h.same hk rfl rfl rfl rfl rfl rfl rfl rfl rfl (Nat.mod_lt _ (Nat.two_pow_pos 64)) h.ended
  · have hlog : k'.log = s.k.log
        ++ [s.k.t.newEntry a.type a.flags a.sector a.len a.payload ts f.bio.data] := by rw [he]
    obtain ⟨hc, hadd, hb⟩ := counted_snoc { s with k := k' } h hlog rfl
    have hlen : k'.log.length = s.k.log.length + 1 := by simp [hlog]
    have hnew : (s.k.t.newEntry a.type a.flags a.sector a.len a.payload ts f.bio.data).hdr.logged
        = a.payload := (hk.logged (by simp [hlog])).trans rfl
    have hhead : k'.t.head = s.k.t.head + padLen s.k.t.ringSize s.k.t.head (recNeed a.payload)
        + recNeed a.payload := by
      rw [he]
      rfl
    have hneed : RecSize + a.payload ≤ recNeed a.payload := le_align8 _
    have hw := h.weight
    refine ⟨hk, ?_, ?_, ?_, ?_, fun j e hj hend => ?_, fun j hj => ?_, ?_, ?_, fun hr => ?_,
      (TargetKept.reserve h.k hs).overflows h.overflows⟩
    · show k'.t.nbits = cfg.nbits
      rw [he]
      exact h.nbits
    · show k'.t.chunkSectors = cfg.chunkSectors
      rw [he]
      exact h.chunk
    · show k'.t.ringSize = cfg.ringSize
      rw [he]
      exact h.size
    · show RecSize * k'.log.length + logBytes k'.log k'.log.length ≤ k'.t.head
      rw [show logBytes k'.log k'.log.length = _ from hb, hnew, hlen, hhead, Nat.mul_succ]
      omega
    · obtain ⟨e0, he0, hend0⟩ := (TargetKept.reserve h.k hs).ended j e hj hend
      exact h.ended j e0 he0 hend0
    · show j < k'.log.length
      have hj' := h.fresh j hj
      omega
    · rw [hc]
      show k'.t.records ≤ _
      rw [he]
      exact h.records
    · rw [hadd]
      show k'.t.bytesLogged ≤ _
      rw [he]
      exact h.bytes
    · rw [hc, hadd]
      show k'.t.records = _ ∧ k'.t.bytesLogged = _
      rw [he]
      exact h.exact hr

theorem targetStep_cases {a : KAct} (hs : targetStep cfg s a = some s') :
    ∃ k', kstep cfg s.k a = some k' ∧ s' = { s with k := k', cleared := s.cleared || a.clears } ∧
      ∀ i error, a = .endIo i error → s.k.logging i = none := by
  have hnext : ∀ {o : Option KState}, o = kstep cfg s.k a →
      (o.map fun k => { s with k := k, cleared := s.cleared || a.clears }) = some s' →
      ∃ k', kstep cfg s.k a = some k' ∧ s' = { s with k := k', cleared := s.cleared || a.clears } := by
    intro o ho hm
    obtain ⟨k', hk', rfl⟩ := Option.map_eq_some_iff.mp hm
    exact ⟨k', ho ▸ hk', rfl⟩
  unfold targetStep at hs
  dsimp only at hs
  split at hs
  · rename_i i error
    split at hs
    · rename_i hl
      obtain ⟨k', hk', he⟩ := hnext rfl hs
      exact ⟨k', hk', he, fun i' error' e => (KAct.endIo.inj e).1 ▸ hl⟩
    · cases hs
  · rename_i hne
    obtain ⟨k', hk', he⟩ := hnext rfl hs
    exact ⟨k', hk', he, fun i error e => absurd e (hne i error)⟩

theorem CounterInv.target {a : KAct} {k' : KState} (h : CounterInv cfg s)
    (hs : kstep cfg s.k a = some k')
    (ha : ∀ i error, a = .endIo i error → s.k.logging i = none) :
    CounterInv cfg { s with k := k' } := by
  by_cases hr : ∃ i ts, a = .reserve i ts
  · obtain ⟨i, ts, rfl⟩ := hr
    exact h.reserve hs
  · have hno : ∀ i ts, a ≠ .reserve i ts := fun i ts e => hr ⟨i, ts, e⟩
    have hk := TargetKept.step h.k hs ha
    refine h.same (h.k.step hs) (NoReserve.step h.k hs hno).hdrs rfl rfl hk.records hk.bytes hk.nbits
      hk.chunk hk.size (hk.head hno) (hk.overflows h.overflows) fun j e he hend => ?_
    obtain ⟨e0, he0, hend0⟩ := hk.ended j e he hend
    exact h.ended j e0 he0 hend0

theorem CounterInv.view (h : CounterInv cfg s) (hk : s'.k = s.k) (he : s'.ends = s.ends)
    (hr : s'.reset = s.reset) : CounterInv cfg s' := by
  refine h.same (hk ▸ h.k) ?_ he hr ?_ ?_ ?_ ?_ ?_ ?_ (hk ▸ h.overflows) fun j e hj => ?_
  · rw [hk]
  · rw [hk]
  · rw [hk]
  · rw [hk]
  · rw [hk]
  · rw [hk]
  · rw [hk]
  · rw [hk] at hj
    exact h.ended j e hj

theorem KInv.logging {k : KState} {i j : Nat} {f : Flight} (h : KInv cfg k)
    (hl : k.logging i = some (f, j)) : ∃ e : Entry, k.log[j]? = some e ∧ e.stage = .data ∧
      e.off = f.recOff := by
  obtain ⟨hf, hlog, hi, hst⟩ := logging_cases hl
  obtain ⟨e, he, _, hes, _, _, hoff⟩ := (h.bios.flight i f hf).idx j hi
  rw [hst] at hes
  exact ⟨e, he, hes, hoff hlog⟩

theorem KInv.counters {k : KState} {t : Target} (h : KInv cfg k) (h1 : t.ring = k.t.ring)
    (h2 : t.ringSize = k.t.ringSize) (h3 : t.head = k.t.head) (h4 : t.tail = k.t.tail)
    (h5 : t.seqNext = k.t.seqNext) (h6 : t.dead = k.t.dead) : KInv cfg { k with t := t } :=
  h.frame (h.bios.of_same rfl rfl h6) h1 h2 h3 h4 h5 rfl rfl rfl rfl rfl

def Target.counters (t : Target) (m n : Nat) : Target := { t with records := m, bytesLogged := n }

theorem CounterInv.setEnd {i j m n : Nat} {f : Flight} {pc : EndPc} (h : CounterInv cfg s)
    (hl : s.k.logging i = some (f, j)) (hr : m ≤ (s.setEnd j pc (s.k.t.counters m n)).counted)
    (hb : n ≤ (s.setEnd j pc (s.k.t.counters m n)).added)
    (hx : s.reset = false → m = (s.setEnd j pc (s.k.t.counters m n)).counted ∧
      n = (s.setEnd j pc (s.k.t.counters m n)).added) :
    CounterInv cfg (s.setEnd j pc (s.k.t.counters m n)) := by
  obtain ⟨e, he, hst, _⟩ := h.k.logging hl
  refine ⟨h.k.counters rfl rfl rfl rfl rfl rfl, h.nbits, h.chunk, h.size, h.weight,
    fun l x hx hend => ?_, fun l hn => ?_, hr, hb, hx, h.overflows⟩
  · have hne : l ≠ j := by
      intro e'
      subst e'
      obtain rfl := Option.some.inj (he.symm.trans hx)
      obtain ⟨error, herr⟩ := hend
      rw [hst] at herr
      cases herr
    exact (Function.update_of_ne hne _ _).trans (h.ended l x hx hend)
  · by_cases hlj : l = j
    · rw [hlj]
      exact (List.getElem?_eq_some_iff.mp he).1
    · exact h.fresh l fun e' => hn ((Function.update_of_ne hlj _ _).trans e')

theorem setEnd_count {j : Nat} (t : Target) (hj : j < s.k.log.length) (hg : s.ends j = .count) :
    (s.setEnd j .add t).counted = s.counted + 1 ∧ (s.setEnd j .add t).added = s.added := by
  have hself : Function.update s.ends j EndPc.add j = .add := Function.update_self j _ _
  constructor
  · apply sum_bump hj
    · show (if Function.update s.ends j EndPc.add j = .count then 0 else 1) = _
      rw [hself, hg]
      rfl
    · intro n hn
      show (if Function.update s.ends j EndPc.add n = .count then 0 else 1) = _
      rw [Function.update_of_ne hn]
  · apply sum_stay
    intro n _
    show (if Function.update s.ends j EndPc.add n = .commit then _ else 0) = _
    by_cases hn : n = j
    · rw [hn, hself, hg]
      rfl
    · rw [Function.update_of_ne hn]
      rfl

theorem setEnd_add {j : Nat} {e : Entry} (t : Target) (he : s.k.log[j]? = some e)
    (hg : s.ends j = .add) : (s.setEnd j .commit t).counted = s.counted ∧
      (s.setEnd j .commit t).added = s.added + e.hdr.logged := by
  have hself : Function.update s.ends j EndPc.commit j = .commit := Function.update_self j _ _
  constructor
  · apply sum_stay
    intro n _
    show (if Function.update s.ends j EndPc.commit n = .count then 0 else 1) = _
    by_cases hn : n = j
    · rw [hn, hself, hg]
      rfl
    · rw [Function.update_of_ne hn]
  · apply sum_bump (List.getElem?_eq_some_iff.mp he).1
    · show (if Function.update s.ends j EndPc.commit j = .commit then lenAt s.k.log j else 0) = _
      rw [hself, hg, lenAt_of he]
      simp
    · intro n hn
      show (if Function.update s.ends j EndPc.commit n = .commit then _ else 0) = _
      rw [Function.update_of_ne hn]
      rfl

theorem CounterInv.countRecord {i j : Nat} {f : Flight} (h : CounterInv cfg s)
    (hl : s.k.logging i = some (f, j)) (hg : s.ends j = .count) :
    s.k.t.countRecord = s.k.t.counters (s.k.t.records + 1) s.k.t.bytesLogged := by
  obtain ⟨e, he, _, _⟩ := h.k.logging hl
  have hrec : u64 (s.k.t.records + 1) = s.k.t.records + 1 := by
    apply u64_of_lt
    have h1 := h.records
    have h2 := counted_le (s.setEnd j .add s.k.t)
    rw [(setEnd_count s.k.t (List.getElem?_eq_some_iff.mp he).1 hg).1] at h2
    exact (Nat.succ_le_succ h1).trans_lt (h2.trans_lt h.k.log.length_lt)
  unfold Target.countRecord Target.counters
  rw [hrec]

theorem CounterInv.addBytes {i j : Nat} {f : Flight} {e : Entry} (h : CounterInv cfg s)
    (hl : s.k.logging i = some (f, j)) (he : s.k.log[j]? = some e) (hg : s.ends j = .add) :
    s.k.t.addBytes f.recOff
      = s.k.t.counters s.k.t.records (s.k.t.bytesLogged + e.hdr.logged) := by
  obtain ⟨e', he', hst, hoff⟩ := h.k.logging hl
  obtain rfl := Option.some.inj (he.symm.trans he')
  have hnread : s.k.nread ≤ j := by
    by_contra hlt
    obtain ⟨error, herr⟩ := h.k.log.read j e he (by omega)
    rw [hst] at herr
    cases herr
  have hmem : e ∈ s.k.log.drop s.k.nread := by
    apply List.mem_of_getElem? (i:=j - s.k.nread)
    rw [List.getElem?_drop, Nat.add_sub_cancel' hnread]
    exact he
  have hlt : s.k.t.bytesLogged + e.hdr.logged < 2^64 := by
    have h1 := added_le (s.setEnd j .commit s.k.t)
    rw [(setEnd_add s.k.t he hg).2] at h1
    have h2 : s.added + e.hdr.logged ≤ logBytes s.k.log s.k.log.length := h1
    have h3 := h.bytes
    have h4 := h.weight
    have h5 := h.k.log.ring.head
    omega
  have hh : e.header.type = e.hdr.type ∧ e.header.len = e.hdr.len := by
    unfold Entry.header
    rw [hst]
    exact ⟨rfl, rfl⟩
  have hadd : (if e.hdr.type = RecWrite then u64 (s.k.t.bytesLogged + e.hdr.len)
      else s.k.t.bytesLogged) = s.k.t.bytesLogged + e.hdr.logged := by
    unfold Rec.logged at hlt ⊢
    by_cases hw : e.hdr.type = RecWrite
    · rw [if_pos hw] at hlt
      rw [if_pos hw, if_pos hw, u64_of_lt hlt]
    · rw [if_neg hw, if_neg hw, Nat.add_zero]
  unfold Target.addBytes Target.counters
  rw [← hoff, h.k.log.ring.load hmem]
  dsimp only
  rw [hh.1, hh.2, hadd]

/-- what `count` and `add` do -/
inductive Counting (s : StatusSt) : StatusSt → Prop
  | count (i j : Nat) (f : Flight) : s.k.logging i = some (f, j) → s.ends j = .count →
      Counting s (s.setEnd j .add (s.k.t.counters (s.k.t.records + 1) s.k.t.bytesLogged))
  | add (i j : Nat) (f : Flight) (e : Entry) : s.k.logging i = some (f, j) →
      s.k.log[j]? = some e → s.ends j = .add →
      Counting s (s.setEnd j .commit
        (s.k.t.counters s.k.t.records (s.k.t.bytesLogged + e.hdr.logged)))

theorem count_cases {i : Nat} {error : Bool} (h : CounterInv cfg s)
    (hs : countStep s i error = some s') : Counting s s' := by
  unfold countStep at hs
  split at hs
  · cases hs
  · rename_i f j hl
    split at hs
    · rename_i hg
      obtain rfl := Option.some.inj hs
      rw [h.countRecord hl hg.1]
      exact .count i j f hl hg.1
    · cases hs

theorem add_cases {i : Nat} (h : CounterInv cfg s) (hs : addStep s i = some s') :
    Counting s s' := by
  unfold addStep at hs
  split at hs
  · cases hs
  · rename_i f j hl
    split at hs
    · rename_i hg
      obtain rfl := Option.some.inj hs
      obtain ⟨e, he, _, _⟩ := h.k.logging hl
      rw [h.addBytes hl he hg]
      exact .add i j f e hl he hg
    · cases hs

theorem CounterInv.counting (h : CounterInv cfg s) (hs : Counting s s') : CounterInv cfg s' := by
  cases hs with
  | count i j f hl hg =>
    obtain ⟨e, he, _, _⟩ := h.k.logging hl
    have hsum := fun t => setEnd_count t (List.getElem?_eq_some_iff.mp he).1 hg
    refine h.setEnd hl ?_ ?_ fun hr => ?_
    · rw [(hsum _).1]
      exact Nat.succ_le_succ h.records
    · rw [(hsum _).2]
      exact h.bytes
    · rw [(hsum _).1, (hsum _).2, (h.exact hr).1]
      exact ⟨rfl, (h.exact hr).2⟩
  | add i j f e hl he hg =>
    have hsum := fun t => setEnd_add t he hg
    refine h.setEnd hl ?_ ?_ fun hr => ?_
    · rw [(hsum _).1]
      exact h.records
    · rw [(hsum _).2]
      exact Nat.add_le_add_right h.bytes _
    · rw [(hsum _).1, (hsum _).2, (h.exact hr).2]
      exact ⟨(h.exact hr).1, rfl⟩

theorem CounterInv.commit {i : Nat} {error : Bool} (h : CounterInv cfg s)
    (hs : commitStep s i error = some s') : CounterInv cfg s' ∧
      s'.k.log.map Entry.hdr = s.k.log.map Entry.hdr := by
  unfold commitStep at hs
  split at hs
  · cases hs
  · rename_i f j hl
    split at hs
    · rename_i hg
      obtain ⟨k', hk', rfl⟩ := Option.map_eq_some_iff.mp hs
      obtain ⟨hf, hlog, hi, _⟩ := logging_cases hl
      have hk := (h.k.endIo hk').counters (t:=k'.t.countersOf s.k.t) rfl rfl rfl rfl rfl rfl
      obtain ⟨f', hf', _, _, ⟨j', _, hj', rfl⟩ | ⟨hno, _⟩⟩ := endIo_cases hk'
      · obtain rfl := Option.some.inj (hf.symm.trans hf')
        obtain rfl := Option.some.inj (hi.symm.trans hj')
        have hhdr := map_hdr_modify s.k.log j (.ended error)
        refine ⟨h.same hk hhdr rfl rfl rfl rfl rfl rfl rfl rfl h.overflows fun n x hx hend => ?_, hhdr⟩
        obtain ⟨e, he, _, _⟩ := h.k.logging hl
        rcases modify_at he hx with ⟨rfl, _⟩ | ⟨_, hx⟩
        · exact hg
        · exact h.ended n x hx hend
      · obtain rfl := Option.some.inj (hf.symm.trans hf')
        rcases hno with hno | hno
        · simp [hlog] at hno
        · simp [hi] at hno
    · cases hs

theorem CounterInv.ioctl (h : CounterInv cfg s) (w : IoctlStore) (s' : StatusSt)
    (hk : s'.k = { s.k with t := ioctlStep s.k.t w }) (he : s'.ends = s.ends)
    (hr : s'.reset = (s.reset || w.resets)) : CounterInv cfg s' := by
  have hinv := (h.k.ioctl w).1
  have hfix : (ioctlStep s.k.t w).nbits = s.k.t.nbits ∧
      (ioctlStep s.k.t w).chunkSectors = s.k.t.chunkSectors ∧
      (ioctlStep s.k.t w).ringSize = s.k.t.ringSize ∧ (ioctlStep s.k.t w).head = s.k.t.head := by
    cases w <;> exact ⟨rfl, rfl, rfl, rfl⟩
  have hle : (ioctlStep s.k.t w).records ≤ s.k.t.records ∧
      (ioctlStep s.k.t w).bytesLogged ≤ s.k.t.bytesLogged ∧
      (ioctlStep s.k.t w).overflows ≤ s.k.t.overflows := by
    cases w <;> simp [ioctlStep]
  have hno : w.resets = false → (ioctlStep s.k.t w).records = s.k.t.records ∧
      (ioctlStep s.k.t w).bytesLogged = s.k.t.bytesLogged := by
    cases w <;> simp [ioctlStep, IoctlStore.resets]
  obtain ⟨h1, h2, h3, h4⟩ := hfix
  obtain ⟨_, hc, ha, _⟩ := counted_same (s:=s) (by rw [hk]) he
  refine ⟨hk ▸ hinv, ?_, ?_, ?_, ?_, fun j e hj => ?_, ?_, ?_, ?_, fun hf => ?_, ?_⟩
  · rw [hk]
    exact h1.trans h.nbits
  · rw [hk]
    exact h2.trans h.chunk
  · rw [hk]
    exact h3.trans h.size
  · rw [hk]
    exact h.weight.trans h4.ge
  · rw [hk] at hj
    rw [he]
    exact h.ended j e hj
  · rw [he, hk]
    exact h.fresh
  · rw [hc, hk]
    exact hle.1.trans h.records
  · rw [ha, hk]
    exact hle.2.1.trans h.bytes
  · rw [hr, Bool.or_eq_false_iff] at hf
    rw [hc, ha, hk]
    exact ⟨(hno hf.2).1.trans (h.exact hf.1).1, (hno hf.2).2.trans (h.exact hf.1).2⟩
  · rw [hk]
    exact hle.2.2.trans_lt h.overflows

/-- **Every byte of a record has been counted or is in the ring.** -/
theorem CounterInv.covered (h : CounterInv cfg s) :
    RecSize * s.k.log.length + logBytes s.k.log s.k.log.length
      ≤ RecSize * s.counted + s.added + (s.k.t.head - s.k.t.tail) := by
  have hle := h.k.log.le
  have hlive := h.k.log.ring.chain.weight fun e he => (h.k.logged (List.mem_of_mem_drop he)).le
  have hdrop : logBytes (s.k.log.drop s.k.nread) (s.k.log.drop s.k.nread).length
      = ∑ j ∈ range (s.k.log.length - s.k.nread), lenAt s.k.log (s.k.nread + j) := by
    unfold logBytes
    rw [List.length_drop]
    apply sum_stay
    intro j _
    simp [lenAt, List.getElem?_drop]
  rw [hdrop, List.length_drop] at hlive
  have hread : ∀ j, j < s.k.nread → s.ends j = .commit := by
    intro j hj
    have hlt : j < s.k.log.length := by omega
    have he := List.getElem?_eq_getElem hlt
    exact h.ended j _ he (h.k.log.read j _ he hj)
  have hones : ∑ j ∈ range s.k.nread, (if s.ends j = .count then 0 else 1)
      = ∑ j ∈ range s.k.nread, 1 := sum_stay fun j hj => by
    rw [hread j hj]
    rfl
  have hlens : ∑ j ∈ range s.k.nread, (if s.ends j = .commit then lenAt s.k.log j else 0)
      = ∑ j ∈ range s.k.nread, lenAt s.k.log j := sum_stay fun j hj => by
    rw [hread j hj]
    rfl
  have hc : s.k.nread ≤ s.counted := by
    unfold StatusSt.counted
    rw [sum_split _ hle, hones]
    simp
  have ha : ∑ j ∈ range s.k.nread, lenAt s.k.log j ≤ s.added := by
    unfold StatusSt.added
    rw [sum_split _ hle, hlens]
    exact Nat.le_add_right _ _
  have hlog : logBytes s.k.log s.k.log.length = _ := sum_split (lenAt s.k.log) hle
  have hR : RecSize = 56 := rfl
  rw [hlog]
  rw [hR] at hlive ⊢
  omega

end

end CDP
