import DmCdp.Lib.Slots
import DmCdp.Kernel.Machine

/-!
# The invariant of the machine: writers' side

`LogInv` ties the ring to the ghost log of reservations, `BioInv` ties every mapped bio to its
log entry.  Each writer's action has one lemma for each of them.

* `LogExt`    what any action does to the log: it may grow, and entries that have not ended may
              move on, with the header they were given; this is all a reader needs to know about
              writers;
* `Logs`      the entry is the record of this bio;
* `LogInv.granted`, `LogInv.staged`  a reservation, a later store of one bio.
-/

set_option linter.unusedVariables false

namespace CDP
open Img Mach Slots

/-! ## the log -/

/-- the bio of this record has ended -/
def Entry.Ended (e : Entry) : Prop := ∃ error, e.stage = .ended error

/-- the log may grow, entries that have not ended may move on; headers stay as they were logged -/
def LogExt (log log' : List Entry) : Prop :=
  ∀ (k : Nat) (e : Entry), log[k]? = some e →
    ∃ e' : Entry, log'[k]? = some e' ∧ e'.off = e.off ∧ e'.hdr = e.hdr ∧ (e.Ended → e' = e)

theorem LogExt.refl (log : List Entry) : LogExt log log :=
  fun k e h => ⟨e, h, rfl, rfl, fun _ => rfl⟩

theorem LogExt.snoc (log : List Entry) (e : Entry) : LogExt log (log ++ [e]) := by
  intro k x h
  have hk := (List.getElem?_eq_some_iff.mp h).1
  exact ⟨x, by rw [List.getElem?_append_left hk]; exact h, rfl, rfl, fun _ => rfl⟩

theorem LogExt.modify {log : List Entry} {k : Nat} {e : Entry} (st : EStage)
    (h : log[k]? = some e) (he : ¬e.Ended) : LogExt log (log.modify k (Entry.setStage st)) := by
  intro j x hx
  by_cases hj : k = j
  · subst hj
    rw [h, Option.some.injEq] at hx
    subst hx
    exact ⟨e.setStage st, modify_self h, rfl, rfl, fun hend => absurd hend he⟩
  · exact ⟨x, modify_other (Ne.symm hj) hx, rfl, rfl, fun _ => rfl⟩

theorem LogExt.take {log log' : List Entry} (h : LogExt log log') {n : Nat} (hn : n ≤ log.length)
    (hend : ∀ k e, log[k]? = some e → k < n → e.Ended) : log'.take n = log.take n := by
  apply List.ext_getElem?
  intro k
  rw [List.getElem?_take, List.getElem?_take]
  by_cases hk : k < n
  · rw [if_pos hk, if_pos hk]
    have hkl : k < log.length := by omega
    have hx := List.getElem?_eq_getElem hkl
    obtain ⟨e', he', _, _, heq⟩ := h k _ hx
    rw [he', hx, heq (hend k _ hx hk)]
  · rw [if_neg hk, if_neg hk]

theorem drop_split {log : List Entry} {n k : Nat} {e : Entry} (f : Entry → Entry) (hn : n ≤ k)
    (h : log[k]? = some e) : ∃ as bs, log.drop n = as ++ e :: bs ∧
      (log.modify k f).drop n = as ++ f e :: bs := by
  obtain ⟨hk, he⟩ := List.getElem?_eq_some_iff.mp h
  refine ⟨(log.take k).drop n, log.drop (k + 1), ?_, ?_⟩
  · conv_lhs => rw [← List.take_append_drop k log]
    rw [List.drop_append_of_le_length (by rw [List.length_take]; omega),
      List.drop_eq_getElem_cons hk, he]
  · rw [List.modify_eq_take_cons_drop hk, he,
      List.drop_append_of_le_length (by rw [List.length_take]; omega)]

/-- the bytes `cdp_read` hands out for a record -/
def Entry.block (e : Entry) : List UInt8 :=
  e.header.bytes ++ slice e.data 0 e.payload ++ e.slack

theorem Entry.block_length {e : Entry} (h : e.slack.length = slackLen e.payload) :
    e.block.length = e.need := by
  unfold Entry.block
  rw [List.length_append, List.length_append, Rec.length_bytes, length_slice, h, need_eq]

/-- the header of record `k` as `cdp_reserve` writes it -/
def hdrOf (k : Nat) (gap : Bool) (ts : Nat) (a : LogArgs) : Rec where
  magic := RecMagic
  version := AbiVersion
  type := a.type
  flags := if gap then a.flags ||| FGapBefore else a.flags
  state := StReserved
  seq := k
  sector := a.sector
  len := a.len
  recLen := recNeed a.payload
  tsNs := ts
  reserved := 0

/-- `e` is record `k`, the record of bio `b` -/
def Logs (cfg : Config) (b : Bio) (k : Nat) (e : Entry) : Prop :=
  ∃ a gap ts, cdpMapArgs cfg b = some a ∧ e.hdr = hdrOf k gap ts a ∧ e.payload = a.payload ∧
    e.data = b.data

/-- the ring holds the unread part of the log -/
structure LogInv (s : KState) : Prop where
  ring : RingInv s.t (s.log.drop s.nread)
  le : s.nread ≤ s.log.length
  head : s.log.length * RecSize ≤ s.t.head
  seq : s.t.seqNext = s.log.length
  ok : ∀ e ∈ s.log, e.Ok s.t.ringSize
  slack : ∀ e ∈ s.log, e.slack.length = slackLen e.payload
  read : ∀ (k : Nat) (e : Entry), s.log[k]? = some e → k < s.nread → e.Ended

theorem LogInv.length_lt {s : KState} (h : LogInv s) : s.log.length < 2^64 := by
  have h1 : s.log.length * 56 ≤ s.t.head := h.head
  have h2 := h.ring.head
  omega

/-- the ring part depends on the ring, its offsets and the counter of reservations only -/
theorem RingInv.of_same {t t' : Target} {live : List Entry} (h : RingInv t live)
    (hr : t'.ring = t.ring) (hs : t'.ringSize = t.ringSize) (hh : t'.head = t.head)
    (ht : t'.tail = t.tail) : RingInv t' live := by
  refine ⟨hs ▸ h.size, hs ▸ h.align, hs ▸ h.bound, hh ▸ h.head, ?_, ht ▸ h.tail, ?_⟩
  · rw [hs, hh, ht]
    exact h.room
  · rw [hr, hs, hh, ht]
    exact h.chain

theorem LogInv.of_same {s s' : KState} (h : LogInv s) (hr : s'.t.ring = s.t.ring)
    (hs : s'.t.ringSize = s.t.ringSize) (hh : s'.t.head = s.t.head) (ht : s'.t.tail = s.t.tail)
    (hq : s'.t.seqNext = s.t.seqNext) (hl : s'.log = s.log) (hn : s'.nread = s.nread) :
    LogInv s' := by
  refine ⟨?_, ?_, ?_, ?_, ?_, ?_, ?_⟩
  · rw [hl, hn]
    exact h.ring.of_same hr hs hh ht
  · rw [hl, hn]
    exact h.le
  · rw [hl, hh]
    exact h.head
  · rw [hl, hq]
    exact h.seq
  · rw [hl, hs]
    exact h.ok
  · rw [hl]
    exact h.slack
  · rw [hl, hn]
    exact h.read

section
variable {cfg : Config} {s s' : KState} {b : Bio} {a : LogArgs} {ts : Nat}

theorem logs_newEntry (h : LogInv s) (ha : cdpMapArgs cfg b = some a) :
    Logs cfg b s.log.length
      (s.t.newEntry a.type a.flags a.sector a.len a.payload ts b.data) := by
  refine ⟨a, s.t.gapPending, ts, ha, ?_, rfl, rfl⟩
  unfold Target.newEntry Target.header hdrOf
  dsimp only
  rw [h.seq]

theorem LogInv.granted (h : LogInv s) (hb : b.Ok cfg) (ha : cdpMapArgs cfg b = some a)
    (hts : ts < 2^64) (hr : ¬Refused s.t a.payload) (hw : NoWrap s.t a.payload)
    (ht : s'.t = s.t.grant a.type a.flags a.sector a.len a.payload ts)
    (hl : s'.log = s.log ++ [s.t.newEntry a.type a.flags a.sector a.len a.payload ts b.data])
    (hn : s'.nread = s.nread) : LogInv s' := by
  obtain ⟨h1, h2, h3, h4, h5, hmax⟩ := cdpMapArgs_fits hb ha
  have hneed : recNeed a.payload < RecSize + a.payload + 8 := align8_lt _
  have hmin : RecSize + a.payload ≤ recNeed a.payload := le_align8 _
  have hR : RecSize = 56 := rfl
  have hM : MaxIoSectors = 8192 := rfl
  have hlen := h.length_lt
  have hle := h.le
  have hhead : s.log.length * 56 ≤ s.t.head := h.head
  have hfits : (s.t.header a.type a.flags a.sector a.len (recNeed a.payload) ts).Fits :=
    s.t.header_fits h1 h3 h4 h5 (by omega) hts (by rw [h.seq]; exact hlen)
  have hring : RingInv (s.t.grant a.type a.flags a.sector a.len a.payload ts)
      (s.log.drop s.nread ++
        [s.t.newEntry a.type a.flags a.sector a.len a.payload ts b.data]) :=
    h.ring.grant hr hw hfits h2
  have hdrop : s'.log.drop s'.nread = s.log.drop s.nread
      ++ [s.t.newEntry a.type a.flags a.sector a.len a.payload ts b.data] := by
    rw [hl, hn, List.drop_append_of_le_length hle]
  have hlen' : s'.log.length = s.log.length + 1 := by rw [hl, List.length_append]; rfl
  have hhead' : s'.t.head = s.t.head + padLen s.t.ringSize s.t.head (recNeed a.payload)
      + recNeed a.payload := by rw [ht]; rfl
  have hfin : s'.t.head < 2^64 := by rw [hhead']; exact hw
  refine ⟨?_, ?_, ?_, ?_, ?_, ?_, ?_⟩
  · rw [hdrop, ht]
    exact hring
  · rw [hlen', hn]
    omega
  · rw [hlen', hhead']
    show (s.log.length + 1) * 56 ≤ _
    omega
  · have hq : s'.t.seqNext = u64 (s.t.seqNext + 1) := by rw [ht]; rfl
    rw [hq, hlen', h.seq, u64_of_lt]
    rw [hhead'] at hfin
    omega
  · intro e he
    have hsz : s'.t.ringSize = s.t.ringSize := by rw [ht]; rfl
    rw [hl, List.mem_append, List.mem_singleton] at he
    rw [hsz]
    rcases he with he | rfl
    · exact h.ok e he
    · refine ⟨hfits, rfl, h2, rfl, ?_⟩
      show recNeed a.payload ≤ s.t.ringSize / MaxRecDiv
      unfold Refused at hr
      omega
  · intro e he
    rw [hl, List.mem_append, List.mem_singleton] at he
    rcases he with he | rfl
    · exact h.slack e he
    · exact length_slice _ _ _
  · intro k e hk hlt
    rw [hl, List.getElem?_append_left (by omega)] at hk
    rw [hn] at hlt
    exact h.read k e hk hlt

theorem LogInv.staged {k : Nat} {e : Entry} (h : LogInv s) (hk : s.log[k]? = some e)
    (he : ¬e.Ended) (st : EStage) (hsz : s'.t.ringSize = s.t.ringSize)
    (hh : s'.t.head = s.t.head) (hq : s'.t.seqNext = s.t.seqNext)
    (hl : s'.log = s.log.modify k (Entry.setStage st)) (hn : s'.nread = s.nread)
    (hring : ∀ as bs, s.log.drop s.nread = as ++ e :: bs →
      RingInv s'.t (as ++ e.setStage st :: bs)) : LogInv s' := by
  have hnk : s.nread ≤ k := by
    by_contra hlt
    exact he (h.read k e hk (by omega))
  obtain ⟨as, bs, h1, h2⟩ := drop_split (Entry.setStage st) hnk hk
  have hmod : ∀ x ∈ s'.log, ∃ y ∈ s.log, x = y ∨ x = y.setStage st := by
    intro x hx
    rw [hl] at hx
    rcases mem_modify hk hx with rfl | hx
    · exact ⟨e, List.mem_of_getElem? hk, Or.inr rfl⟩
    · exact ⟨x, hx, Or.inl rfl⟩
  refine ⟨?_, ?_, ?_, ?_, ?_, ?_, ?_⟩
  · rw [hl, hn, h2]
    exact hring as bs h1
  · rw [hl, hn, List.length_modify]
    exact h.le
  · rw [hl, hh, List.length_modify]
    exact h.head
  · rw [hl, hq, List.length_modify]
    exact h.seq
  · intro x hx
    rw [hsz]
    obtain ⟨y, hy, rfl | rfl⟩ := hmod x hx
    · exact h.ok _ hy
    · have hym := h.ok y hy
      exact ⟨hym.fits, hym.recLen, hym.type, hym.reserved, hym.small⟩
  · intro x hx
    obtain ⟨y, hy, rfl | rfl⟩ := hmod x hx
    · exact h.slack _ hy
    · exact h.slack y hy
  · intro j x hx hlt
    rw [hn] at hlt
    rw [hl, List.getElem?_modify_ne _ _ (by omega : k ≠ j)] at hx
    exact h.read j x hx hlt

end

/-! ## what each writer's action does -/

section
variable {cfg : Config} {s s' : KState} {b : Bio} {i ts : Nat} {error : Bool}

/-- a bio as `cdp_map` starts it -/
def Bio.flight (b : Bio) (st : Stage) : Flight := ⟨b, st, false, 0, none, false, fun _ => false⟩

theorem map_cases (h : mapStep cfg s b = some s') : b.Ok cfg ∧ s.t.dead = false ∧
    ((cdpMapArgs cfg b = none ∧ s' = { s with flights := s.flights ++ [b.flight .submitted] }) ∨
     ∃ a, cdpMapArgs cfg b = some a ∧
      s' = { s with
        t := cdpMark s.t a.sector a.len
        flights := s.flights ++ [b.flight .marked] }) := by
  unfold mapStep at h
  split at h
  · rename_i hg
    refine ⟨hg.1, hg.2, ?_⟩
    cases ha : cdpMapArgs cfg b with
    | none =>
      rw [ha, Option.some.injEq] at h
      exact Or.inl ⟨rfl, h.symm⟩
    | some a =>
      rw [ha, Option.some.injEq] at h
      exact Or.inr ⟨a, rfl, h.symm⟩
  · exact absurd h (by simp)

theorem reserve_cases (hl : LogInv s) (h : reserveStep cfg s i ts = some s') :
    ∃ f a, s.flights[i]? = some f ∧ f.stage = .marked ∧ cdpMapArgs cfg f.bio = some a ∧
      ts < 2^64 ∧
      ((Refused s.t a.payload ∧
        s' = { s with t := s.t.overflow, flights := s.flights.modify i Flight.drop }) ∨
       (¬Refused s.t a.payload ∧ NoWrap s.t a.payload ∧
        s' = { s with
          t := s.t.grant a.type a.flags a.sector a.len a.payload ts
          flights := s.flights.modify i fun f =>
            f.reserve (s.t.head + padLen s.t.ringSize s.t.head (recNeed a.payload)) s.log.length
          log := s.log ++
            [s.t.newEntry a.type a.flags a.sector a.len a.payload ts f.bio.data] })) := by
  unfold reserveStep at h
  cases hf : s.flights[i]? with
  | none => rw [hf] at h; exact absurd h (by simp)
  | some f =>
    rw [hf] at h
    dsimp only at h
    split at h
    · rename_i a hst ha
      split at h
      · rename_i hg
        refine ⟨f, a, rfl, hst, ha, hg.1, ?_⟩
        rcases cdpReserve_cases hl.ring a.type a.flags a.sector a.len a.payload ts with
          ⟨hr, he⟩ | ⟨hr, he⟩
        · rw [he, Option.some.injEq] at h
          exact Or.inl ⟨hr, h.symm⟩
        · have hw := hg.2.resolve_left hr
          rw [he hw, Option.some.injEq] at h
          exact Or.inr ⟨hr, hw, h.symm⟩
      · exact absurd h (by simp)
    · exact absurd h (by simp)

theorem copy_cases (h : copyStep cfg s i = some s') :
    ∃ f off k a, s.flights[i]? = some f ∧ f.stage = .reserved off ∧ f.idx = some k ∧
      cdpMapArgs cfg f.bio = some a ∧
      s' = { s with
        t := cdpCopy s.t off a.payload f.bio.data
        flights := s.flights.modify i fun f => f.submit off
        log := s.log.modify k (Entry.setStage .data) } := by
  unfold copyStep at h
  cases hf : s.flights[i]? with
  | none => rw [hf] at h; exact absurd h (by simp)
  | some f =>
    rw [hf] at h
    dsimp only at h
    split at h
    · rename_i off k a hst hk ha
      rw [Option.some.injEq] at h
      exact ⟨f, off, k, a, rfl, hst, hk, ha, h.symm⟩
    · exact absurd h (by simp)

def Flight.arrive (f : Flight) : Flight := { f with landed := true }

theorem land_cases (h : landStep cfg s i = some s') :
    ∃ f, s.flights[i]? = some f ∧ f.stage = .submitted ∧ f.landed = false ∧
      s' = { s with
        dev := overlay (f.bio.patch cfg) s.dev
        flights := s.flights.modify i Flight.arrive } := by
  unfold landStep at h
  cases hf : s.flights[i]? with
  | none => rw [hf] at h; exact absurd h (by simp)
  | some f =>
    rw [hf] at h
    dsimp only at h
    split at h
    · rename_i hg
      rw [Option.some.injEq] at h
      exact ⟨f, rfl, hg.1, hg.2, h.symm⟩
    · exact absurd h (by simp)

theorem endIo_cases (h : endIoStep s i error = some s') :
    ∃ f, s.flights[i]? = some f ∧ f.stage = .submitted ∧ (f.landed = true ∨ error = true) ∧
      ((∃ k, f.logged = true ∧ f.idx = some k ∧
        s' = { s with
          t := cdpEndIo s.t f.recOff error
          flights := s.flights.modify i fun f => f.finish error
          log := s.log.modify k (Entry.setStage (.ended error)) }) ∨
       ((f.logged = false ∨ f.idx = none) ∧
        s' = { s with flights := s.flights.modify i fun f => f.finish error })) := by
  unfold endIoStep at h
  cases hf : s.flights[i]? with
  | none => rw [hf] at h; exact absurd h (by simp)
  | some f =>
    rw [hf] at h
    dsimp only at h
    split at h
    · rename_i hg
      refine ⟨f, rfl, hg.1, hg.2, ?_⟩
      split at h
      · rename_i k hlog hk
        rw [Option.some.injEq] at h
        exact Or.inl ⟨k, hlog, hk, h.symm⟩
      · rename_i hno
        rw [Option.some.injEq] at h
        refine Or.inr ⟨?_, h.symm⟩
        cases hlog : f.logged with
        | false => exact Or.inl rfl
        | true =>
          cases hk : f.idx with
          | none => exact Or.inr rfl
          | some k => exact absurd hk (hno k hlog)
    · exact absurd h (by simp)

end

/-! ## bios and their records -/

/-- the stage of the record of a bio -/
def Stage.entry : Stage → EStage
  | .marked => .reserved
  | .reserved _ => .reserved
  | .submitted => .data
  | .ended error => .ended error

/-- what holds of one bio: its record, if it has one, is as far as the bio is -/
structure FlightOk (cfg : Config) (log : List Entry) (f : Flight) : Prop where
  ok : f.bio.Ok cfg
  idx : ∀ k, f.idx = some k → ∃ e, log[k]? = some e ∧ Logs cfg f.bio k e ∧
    e.stage = f.stage.entry ∧ f.stage ≠ .marked ∧
    (∀ off, f.stage = .reserved off → e.off = off) ∧ (f.logged = true → e.off = f.recOff)
  logged : f.logged = true ↔ f.idx ≠ none ∧ ∀ off, f.stage ≠ .reserved off
  reserved : ∀ off, f.stage = .reserved off → f.idx ≠ none

theorem FlightOk.congr {cfg : Config} {log log' : List Entry} {f : Flight}
    (h : FlightOk cfg log f) (hs : ∀ k, f.idx = some k → log'[k]? = log[k]?) :
    FlightOk cfg log' f := by
  refine ⟨h.ok, fun k hk => ?_, h.logged, h.reserved⟩
  rw [hs k hk]
  exact h.idx k hk

structure BioInv (cfg : Config) (s : KState) : Prop where
  flight : ∀ (i : Nat) (f : Flight), s.flights[i]? = some f → FlightOk cfg s.log f
  inj : ∀ (i j : Nat) (f g : Flight) (k : Nat), s.flights[i]? = some f → s.flights[j]? = some g →
    f.idx = some k →
    g.idx = some k → i = j
  cover : ∀ k, k < s.log.length → ∃ (i : Nat) (f : Flight), s.flights[i]? = some f ∧
    f.idx = some k
  dead : s.t.dead = true → ∀ f ∈ s.flights, f.stage.isEnded = true

theorem BioInv.lt {cfg : Config} {s : KState} (h : BioInv cfg s) {i k : Nat} {f : Flight}
    (hf : s.flights[i]? = some f) (hk : f.idx = some k) : k < s.log.length := by
  obtain ⟨e, he, _⟩ := (h.flight i f hf).idx k hk
  exact (List.getElem?_eq_some_iff.mp he).1

theorem BioInv.alive {cfg : Config} {s : KState} (h : BioInv cfg s) {i : Nat} {f : Flight}
    (hf : s.flights[i]? = some f) (hst : f.stage.isEnded = false) : s.t.dead = false := by
  cases hd : s.t.dead with
  | false => rfl
  | true =>
    have := h.dead hd f (List.mem_of_getElem? hf)
    rw [hst] at this
    exact absurd this (by decide)

section
variable {cfg : Config} {s s' : KState}

theorem BioInv.change (h : BioInv cfg s) (hlen : s'.log.length = s.log.length)
    (hfl : s'.flights.length = s.flights.length)
    (hg : ∀ (j : Nat) (f' : Flight), s'.flights[j]? = some f' →
      ∃ f : Flight, s.flights[j]? = some f ∧ f'.idx = f.idx ∧ FlightOk cfg s'.log f')
    (hdead : s'.t.dead = true → ∀ f ∈ s'.flights, f.stage.isEnded = true) : BioInv cfg s' := by
  refine ⟨fun j f' hf => ?_, fun i j f g k hf hg' hfk hgk => ?_, fun k hk => ?_, hdead⟩
  · obtain ⟨_, _, _, hok⟩ := hg j f' hf
    exact hok
  · obtain ⟨f0, hf0, e0, _⟩ := hg i f hf
    obtain ⟨g0, hg0, e1, _⟩ := hg j g hg'
    exact h.inj i j f0 g0 k hf0 hg0 (e0 ▸ hfk) (e1 ▸ hgk)
  · obtain ⟨i, f, hf, hfk⟩ := h.cover k (hlen ▸ hk)
    have hi := (List.getElem?_eq_some_iff.mp hf).1
    obtain ⟨f0, hf0, e0, _⟩ := hg i _ (List.getElem?_eq_getElem (hfl ▸ hi))
    rw [hf, Option.some.injEq] at hf0
    exact ⟨i, _, List.getElem?_eq_getElem (hfl ▸ hi), by rw [e0, ← hf0]; exact hfk⟩

theorem BioInv.changeOne (h : BioInv cfg s) {i : Nat} {f : Flight} {g : Flight → Flight}
    (hf : s.flights[i]? = some f) (hlen : s'.log.length = s.log.length)
    (hfl : s'.flights = s.flights.modify i g) (hidx : (g f).idx = f.idx)
    (hok : FlightOk cfg s'.log (g f))
    (hlog : ∀ k, f.idx ≠ some k → s'.log[k]? = s.log[k]?) (hdead : s'.t.dead = false) :
    BioInv cfg s' := by
  refine h.change hlen (by rw [hfl, List.length_modify]) (fun j f' hj => ?_) fun hd => ?_
  · rw [hfl] at hj
    rcases modify_at hf hj with ⟨rfl, rfl⟩ | ⟨hne, hj⟩
    · exact ⟨f, hf, hidx, hok⟩
    · refine ⟨f', hj, rfl, (h.flight j f' hj).congr fun k hk => hlog k fun hfk => ?_⟩
      exact hne (h.inj j i f' f k hj hf hk hfk)
  · rw [hdead] at hd
    exact absurd hd (by decide)

theorem BioInv.ghost (h : BioInv cfg s) (hlog : s'.log = s.log) (hd : s'.t.dead = s.t.dead)
    (hfl : s'.flights.length = s.flights.length)
    (hg : ∀ (j : Nat) (f' : Flight), s'.flights[j]? = some f' →
      ∃ f : Flight, s.flights[j]? = some f ∧ f'.bio = f.bio ∧ f'.stage = f.stage ∧
        f'.logged = f.logged ∧ f'.recOff = f.recOff ∧ f'.idx = f.idx) :
    BioInv cfg s' := by
  refine h.change (by rw [hlog]) hfl (fun j f' hj => ?_) fun hdd f' hf' => ?_
  · obtain ⟨f, hf, e1, e2, e3, e4, e5⟩ := hg j f' hj
    obtain ⟨h1, h2, h3, h4⟩ := h.flight j f hf
    refine ⟨f, hf, e5, ⟨?_, ?_, ?_, ?_⟩⟩
    · rw [e1]; exact h1
    · rw [e1, e2, e3, e4, e5, hlog]; exact h2
    · rw [e2, e3, e5]; exact h3
    · rw [e2, e5]; exact h4
  · obtain ⟨j, hj⟩ := List.mem_iff_getElem?.mp hf'
    obtain ⟨f, hf, _, e2, _⟩ := hg j f' hj
    rw [e2]
    exact h.dead (hd ▸ hdd) f (List.mem_of_getElem? hf)

end

end CDP
