import DmCdp.Kernel.ReadInv

/-!
# The invariant of the machine over a run

`KInv` joins `LogInv`, `BioInv` and `ReadInv`.  Every action preserves it (one lemma for each,
`KInv.step`), so every reachable state has it (`KInv.reach`).
-/

set_option linter.unusedVariables false

namespace CDP
open Img Mach Slots

/-! ## the whole invariant -/

structure KInv (cfg : Config) (s : KState) : Prop where
  log : LogInv s
  bios : BioInv cfg s
  read : ReadInv s

theorem KInv.init (cfg : Config) (dev : Nat → UInt8) : KInv cfg (KState.init cfg dev) := by
  refine ⟨⟨ringInv_ctr cfg, le_rfl, Nat.zero_le _, rfl, fun e he => absurd he List.not_mem_nil,
    fun e he => absurd he List.not_mem_nil, fun k e hk => absurd hk (by simp [KState.init])⟩,
    ⟨fun i f hf => ?_, fun i j f g k hf => ?_,
    fun k hk => absurd hk (Nat.not_lt_zero k), fun hd => absurd hd (by simp [KState.init, cdpCtr])⟩,
    ⟨fun r => ?_, fun r _ => rfl, fun r => trivial, rfl⟩⟩
  · exact absurd hf (by simp [KState.init])
  · exact absurd hf (by simp [KState.init])
  · exact ⟨fun h => absurd h (by simp [KState.init]),
      fun h => absurd h (by simp [KState.init, Pc.inside])⟩

theorem BioInv.of_same {cfg : Config} {s s' : KState} (h : BioInv cfg s) (hl : s'.log = s.log)
    (hf : s'.flights = s.flights) (hd : s'.t.dead = s.t.dead) : BioInv cfg s' := by
  refine h.ghost hl hd (by rw [hf]) fun j f' hj => ?_
  rw [hf] at hj
  exact ⟨f', hj, rfl, rfl, rfl, rfl, rfl⟩

section
variable {cfg : Config} {s s' : KState}

theorem KInv.frame (h : KInv cfg s) (hb : BioInv cfg s') (hr : s'.t.ring = s.t.ring)
    (hs : s'.t.ringSize = s.t.ringSize) (hh : s'.t.head = s.t.head) (ht : s'.t.tail = s.t.tail)
    (hq : s'.t.seqNext = s.t.seqNext) (hl : s'.log = s.log) (hn : s'.nread = s.nread)
    (hrd : s'.readers = s.readers) (hk : s'.lock = s.lock) (hc : s'.calls = s.calls) :
    KInv cfg s' :=
  ⟨h.log.of_same hr hs hh ht hq hl hn, hb,
    h.read.ext h.log (hl ▸ LogExt.refl _) hn ht hrd hk hc⟩

theorem BioInv.push (h : BioInv cfg s) {f : Flight} (hl : s'.log = s.log)
    (hf : s'.flights = s.flights ++ [f]) (hok : f.bio.Ok cfg) (hidx : f.idx = none)
    (hlog : f.logged = false) (hres : ∀ off, f.stage ≠ .reserved off) (hd : s'.t.dead = false) :
    BioInv cfg s' := by
  have hcase : ∀ {j : Nat} {g : Flight}, s'.flights[j]? = some g →
      s.flights[j]? = some g ∨ g = f := by
    intro j g hg
    rw [hf] at hg
    exact (push_at hg).imp_right And.right
  refine ⟨fun j g hg => ?_, fun i j f1 g1 k hf1 hg1 hfk hgk => ?_, fun k hk => ?_, fun hdd => ?_⟩
  · rcases hcase hg with h1 | rfl
    · exact (h.flight j g h1).congr fun k _ => by rw [hl]
    · refine ⟨hok, fun k hk => ?_, ?_, fun off hoff => absurd hoff (hres off)⟩
      · rw [hidx] at hk
        exact absurd hk (by simp)
      · rw [hlog, hidx]
        exact ⟨fun e => absurd e (by decide), fun e => absurd rfl e.1⟩
  · rcases hcase hf1 with h1 | rfl
    · rcases hcase hg1 with h2 | rfl
      · exact h.inj i j f1 g1 k h1 h2 hfk hgk
      · rw [hidx] at hgk
        exact absurd hgk (by simp)
    · rw [hidx] at hfk
      exact absurd hfk (by simp)
  · rw [hl] at hk
    obtain ⟨i, g, hg, hgk⟩ := h.cover k hk
    have hi := (List.getElem?_eq_some_iff.mp hg).1
    exact ⟨i, g, by rw [hf, List.getElem?_append_left hi]; exact hg, hgk⟩
  · rw [hd] at hdd
    exact absurd hdd (by decide)

theorem cdpMark_same (t : Target) (sector bytes : Nat) :
    (cdpMark t sector bytes).ring = t.ring ∧ (cdpMark t sector bytes).ringSize = t.ringSize ∧
    (cdpMark t sector bytes).head = t.head ∧ (cdpMark t sector bytes).tail = t.tail ∧
    (cdpMark t sector bytes).seqNext = t.seqNext ∧ (cdpMark t sector bytes).dead = t.dead ∧
    (cdpMark t sector bytes).nbits = t.nbits ∧
    (cdpMark t sector bytes).chunkSectors = t.chunkSectors := by
  unfold cdpMark
  split <;> exact ⟨rfl, rfl, rfl, rfl, rfl, rfl, rfl, rfl⟩

theorem KInv.map {b : Bio} (h : KInv cfg s) (hs : mapStep cfg s b = some s') : KInv cfg s' := by
  obtain ⟨hok, hd, ⟨_, rfl⟩ | ⟨a, _, rfl⟩⟩ := map_cases hs
  · have hb : BioInv cfg { s with flights := s.flights ++ [b.flight .submitted] } :=
      h.bios.push rfl rfl hok rfl rfl (fun off e => Stage.noConfusion e) hd
    exact h.frame hb rfl rfl rfl rfl rfl rfl rfl rfl rfl rfl
  · obtain ⟨e1, e2, e3, e4, e5, e6, _, _⟩ := cdpMark_same s.t a.sector a.len
    have hb : BioInv cfg { s with
        t := cdpMark s.t a.sector a.len
        flights := s.flights ++ [b.flight .marked] } := h.bios.push rfl rfl hok rfl rfl
      (fun off e => Stage.noConfusion e) (e6.trans hd)
    exact h.frame hb e1 e2 e3 e4 e5 rfl rfl rfl rfl rfl

theorem FlightOk.noRecord {f : Flight} {log : List Entry} (h : FlightOk cfg log f)
    (hst : f.stage = .marked) : f.idx = none ∧ f.logged = false := by
  have hidx : f.idx = none := by
    cases hk : f.idx with
    | none => rfl
    | some k =>
      obtain ⟨_, _, _, _, hne, _⟩ := h.idx k hk
      exact absurd hst hne
  refine ⟨hidx, ?_⟩
  cases hl : f.logged with
  | false => rfl
  | true => exact absurd hidx (h.logged.mp hl).1

theorem KInv.reserve {i ts : Nat} (h : KInv cfg s) (hs : reserveStep cfg s i ts = some s') :
    KInv cfg s' := by
  obtain ⟨f, a, hf, hst, ha, hts, ⟨_, rfl⟩ | ⟨hr, hw, rfl⟩⟩ := reserve_cases h.log hs
  · have hok := h.bios.flight i f hf
    obtain ⟨hidx, hlog⟩ := hok.noRecord hst
    have hd := h.bios.alive hf (by rw [hst]; rfl)
    have hfl : FlightOk cfg s.log f.drop := by
      refine ⟨hok.ok, fun k hk => ?_, ?_, fun off e => Stage.noConfusion e⟩
      · rw [show f.drop.idx = f.idx from rfl, hidx] at hk
        exact absurd hk (by simp)
      · show f.logged = true ↔ f.idx ≠ none ∧ _
        rw [hlog, hidx]
        exact ⟨fun e => absurd e (by decide), fun e => absurd rfl e.1⟩
    exact h.frame (h.bios.changeOne hf rfl rfl rfl hfl (fun _ _ => rfl) hd)
      rfl rfl rfl rfl rfl rfl rfl rfl rfl rfl
  · have hok := h.bios.flight i f hf
    obtain ⟨hidx, hlog⟩ := hok.noRecord hst
    have hd := h.bios.alive hf (by rw [hst]; rfl)
    have hext := LogExt.snoc s.log
      (s.t.newEntry a.type a.flags a.sector a.len a.payload ts f.bio.data)
    have hlast : (s.log ++ [s.t.newEntry a.type a.flags a.sector a.len a.payload ts
        f.bio.data])[s.log.length]? =
        some (s.t.newEntry a.type a.flags a.sector a.len a.payload ts f.bio.data) := by
      exact push_last _ _
    refine ⟨h.log.granted hok.ok ha hts hr hw rfl rfl rfl, ?_,
      h.read.ext h.log hext rfl rfl rfl rfl rfl⟩
    have hcase : ∀ {j : Nat} {g : Flight},
        (s.flights.modify i fun f =>
          f.reserve (s.t.head + padLen s.t.ringSize s.t.head (recNeed a.payload))
            s.log.length)[j]? = some g →
        (j = i ∧ g = f.reserve (s.t.head + padLen s.t.ringSize s.t.head (recNeed a.payload))
          s.log.length) ∨ (j ≠ i ∧ s.flights[j]? = some g) := modify_at hf
    refine ⟨fun j g hg => ?_, fun j1 j2 f1 f2 k h1 h2 hk1 hk2 => ?_, fun k hk => ?_, fun hdd => ?_⟩
    · rcases hcase hg with ⟨rfl, rfl⟩ | ⟨hne, hg'⟩
      · refine ⟨hok.ok, fun k hk => ?_, ?_, fun off _ e => ?_⟩
        · obtain rfl : s.log.length = k := Option.some.inj hk
          exact ⟨_, hlast, logs_newEntry h.log ha, rfl, fun e => Stage.noConfusion e,
            fun off e => (Stage.reserved.inj e), fun e => absurd (hlog.symm.trans e) (by decide)⟩
        · show f.logged = true ↔ _
          rw [hlog]
          exact ⟨fun e => absurd e (by decide), fun e => absurd rfl (e.2 _)⟩
        · exact absurd (show some s.log.length = none from e) (by simp)
      · refine (h.bios.flight j g hg').congr fun k hk => ?_
        exact List.getElem?_append_left (h.bios.lt hg' hk)
    · rcases hcase h1 with ⟨rfl, rfl⟩ | ⟨hne1, h1'⟩
      · rcases hcase h2 with ⟨rfl, rfl⟩ | ⟨hne2, h2'⟩
        · rfl
        · obtain rfl : s.log.length = k := Option.some.inj hk1
          exact absurd (h.bios.lt h2' hk2) (lt_irrefl _)
      · rcases hcase h2 with ⟨rfl, rfl⟩ | ⟨hne2, h2'⟩
        · obtain rfl : s.log.length = k := Option.some.inj hk2
          exact absurd (h.bios.lt h1' hk1) (lt_irrefl _)
        · exact h.bios.inj j1 j2 f1 f2 k h1' h2' hk1 hk2
    · rw [List.length_append, List.length_singleton] at hk
      rcases Nat.lt_succ_iff_lt_or_eq.mp hk with hk | rfl
      · obtain ⟨j, g, hg, hgk⟩ := h.bios.cover k hk
        have hne : j ≠ i := by
          rintro rfl
          rw [hf, Option.some.injEq] at hg
          rw [← hg, hidx] at hgk
          exact absurd hgk (by simp)
        exact ⟨j, g, modify_other hne hg, hgk⟩
      · exact ⟨i, _, modify_self hf, rfl⟩
    · exact absurd (hd.symm.trans hdd) (by decide)

theorem KInv.staged {i k : Nat} {f : Flight} {e : Entry} {g : Flight → Flight} {u : EStage}
    (h : KInv cfg s) (hf : s.flights[i]? = some f) (hst : f.stage.isEnded = false)
    (hk : f.idx = some k) (he : s.log[k]? = some e) (hend : ¬e.Ended)
    (hlog : s'.log = s.log.modify k (Entry.setStage u)) (hfl : s'.flights = s.flights.modify i g)
    (hgi : (g f).idx = f.idx) (hok : FlightOk cfg s'.log (g f))
    (hring : ∀ as bs, s.log.drop s.nread = as ++ e :: bs →
      RingInv s'.t (as ++ e.setStage u :: bs))
    (hsz : s'.t.ringSize = s.t.ringSize) (hh : s'.t.head = s.t.head) (ht : s'.t.tail = s.t.tail)
    (hq : s'.t.seqNext = s.t.seqNext) (hdd : s'.t.dead = s.t.dead) (hn : s'.nread = s.nread)
    (hrd : s'.readers = s.readers) (hlk : s'.lock = s.lock) (hc : s'.calls = s.calls) :
    KInv cfg s' := by
  have hext : LogExt s.log s'.log := hlog ▸ LogExt.modify u he hend
  refine ⟨h.log.staged he hend u hsz hh hq hlog hn hring, ?_,
    h.read.ext h.log hext hn ht hrd hlk hc⟩
  refine h.bios.changeOne hf (by rw [hlog, List.length_modify]) hfl hgi hok (fun j hj => ?_)
    (hdd.trans (h.bios.alive hf hst))
  rw [hlog, List.getElem?_modify_ne]
  rintro rfl
  exact hj hk

theorem KInv.copy {i : Nat} (h : KInv cfg s) (hs : copyStep cfg s i = some s') : KInv cfg s' := by
  obtain ⟨f, off, k, a, hf, hst, hk, ha, rfl⟩ := copy_cases hs
  have hfo := h.bios.flight i f hf
  obtain ⟨e, he, hlogs, hes, _, hoff, _⟩ := hfo.idx k hk
  have hoff := hoff off hst
  have hes : e.stage = .reserved := by rw [hes, hst]; rfl
  obtain ⟨a', gap, ts, ha', hh, hp, hd⟩ := hlogs
  rw [ha, Option.some.injEq] at ha'
  subst ha'
  have hend : ¬e.Ended := by
    rintro ⟨error, herr⟩
    rw [hes] at herr
    exact EStage.noConfusion herr
  refine h.staged (u:=.data) hf (by rw [hst]; rfl) hk he hend rfl rfl rfl ?_ (fun as bs hl => ?_)
    rfl rfl rfl rfl rfl rfl rfl rfl rfl
  · refine ⟨hfo.ok, fun j hj => ?_, ?_, fun o e => Stage.noConfusion e⟩
    · obtain rfl : k = j := Option.some.inj (hk.symm.trans hj)
      refine ⟨e.setStage .data, modify_self he, ⟨a, gap, ts, ha, hh, hp, hd⟩, rfl,
        fun e => Stage.noConfusion e,
        fun o e => Stage.noConfusion e, fun _ => hoff⟩
    · show true = true ↔ f.idx ≠ none ∧ _
      rw [hk]
      exact ⟨fun _ => ⟨by simp, fun o e => Stage.noConfusion e⟩, fun _ => rfl⟩
  · have hr := h.log.ring
    rw [hl] at hr
    have e1 : cdpCopy s.t e.off e.payload e.data = cdpCopy s.t off a.payload f.bio.data := by
      rw [hoff, hp, hd]
    exact e1 ▸ hr.copy hes

theorem KInv.endIo {i : Nat} {error : Bool} (h : KInv cfg s)
    (hs : endIoStep s i error = some s') : KInv cfg s' := by
  obtain ⟨f, hf, hst, _, ⟨k, hlog, hk, rfl⟩ | ⟨hno, rfl⟩⟩ := endIo_cases hs
  · have hfo := h.bios.flight i f hf
    obtain ⟨e, he, hlogs, hes, _, _, hoff⟩ := hfo.idx k hk
    have hoff := hoff hlog
    have hes : e.stage = .data := by rw [hes, hst]; rfl
    have hend : ¬e.Ended := by
      rintro ⟨err, herr⟩
      rw [hes] at herr
      exact EStage.noConfusion herr
    refine h.staged (u:=.ended error) hf (by rw [hst]; rfl) hk he hend rfl rfl rfl ?_
      (fun as bs hl => ?_) rfl rfl rfl rfl rfl rfl rfl rfl rfl
    · refine ⟨hfo.ok, fun j hj => ?_, ?_, fun o e => Stage.noConfusion e⟩
      · obtain rfl : k = j := Option.some.inj (hk.symm.trans hj)
        exact ⟨e.setStage (.ended error), modify_self he, hlogs, rfl,
          fun e => Stage.noConfusion e, fun o e => Stage.noConfusion e, fun _ => hoff⟩
      · show f.logged = true ↔ f.idx ≠ none ∧ _
        rw [hlog, hk]
        exact ⟨fun _ => ⟨by simp, fun o e => Stage.noConfusion e⟩, fun _ => rfl⟩
    · have hr := h.log.ring
      rw [hl] at hr
      have e1 : cdpEndIo s.t e.off error = cdpEndIo s.t f.recOff error := by rw [hoff]
      exact e1 ▸ hr.endIo hes error
  · have hfo := h.bios.flight i f hf
    have hd := h.bios.alive hf (by rw [hst]; rfl)
    have hidx : f.idx = none := by
      rcases hno with hno | hno
      · by_contra hne
        have := hfo.logged.mpr ⟨hne, fun off e => by rw [hst] at e; exact Stage.noConfusion e⟩
        rw [hno] at this
        exact absurd this (by decide)
      · exact hno
    have hfl : FlightOk cfg s.log (f.finish error) := by
      refine ⟨hfo.ok, fun k hk => ?_, ?_, fun off e => Stage.noConfusion e⟩
      · exact absurd (hidx.symm.trans hk) (by simp)
      · show f.logged = true ↔ f.idx ≠ none ∧ _
        refine ⟨fun e => ⟨(hfo.logged.mp e).1, fun o e => Stage.noConfusion e⟩, fun e => ?_⟩
        exact absurd hidx e.1
    exact h.frame (h.bios.changeOne hf rfl rfl rfl hfl (fun _ _ => rfl) hd)
      rfl rfl rfl rfl rfl rfl rfl rfl rfl rfl

theorem KInv.land {i : Nat} (h : KInv cfg s) (hs : landStep cfg s i = some s') : KInv cfg s' := by
  obtain ⟨f, hf, hst, _, rfl⟩ := land_cases hs
  refine h.frame (h.bios.ghost rfl rfl (List.length_modify _ _ _) fun j f' hj => ?_)
    rfl rfl rfl rfl rfl rfl rfl rfl rfl rfl
  rcases modify_at hf hj with ⟨rfl, rfl⟩ | ⟨_, hj⟩
  · exact ⟨f, hf, rfl, rfl, rfl, rfl, rfl⟩
  · exact ⟨f', hj, rfl, rfl, rfl, rfl, rfl⟩

end

/-! ## readers, consumer, removal -/

section
variable {cfg : Config} {s s' : KState}

theorem KInv.readOnly (h : KInv cfg s) (hr : ReadInv s') (ht : s'.t = s.t) (hl : s'.log = s.log)
    (hf : s'.flights = s.flights) (hn : s'.nread = s.nread) : KInv cfg s' :=
  ⟨h.log.of_same (by rw [ht]) (by rw [ht]) (by rw [ht]) (by rw [ht]) (by rw [ht]) hl hn,
    h.bios.of_same hl hf (by rw [ht]), hr⟩

theorem call_cases {r count : Nat} {nonblock : Bool} (hs : callStep s r count nonblock = some s') :
    (s.readers r).pc = .idle ∧
      s' = { s with readers := Function.update s.readers r ⟨.entry, count, nonblock, []⟩ } := by
  unfold callStep at hs
  split at hs
  · rename_i hpc
    exact ⟨hpc, (Option.some.inj hs).symm⟩
  · exact absurd hs (by simp)

theorem KInv.call {r count : Nat} {nonblock : Bool} (h : KInv cfg s)
    (hs : callStep s r count nonblock = some s') : KInv cfg s' := by
  obtain ⟨hpc, rfl⟩ := call_cases hs
  have hin : (s.readers r).pc.inside = false := by rw [hpc]; rfl
  have hself : Function.update s.readers r ⟨.entry, count, nonblock, []⟩ r
      = ⟨.entry, count, nonblock, []⟩ := Function.update_self _ _ _
  refine h.readOnly ⟨fun r' => ?_, fun r' hr' => ?_, fun r' => ?_, ?_⟩ rfl rfl rfl rfl
  · by_cases he : r' = r
    · subst he
      show s.lock = some r' ↔ (Function.update s.readers r' _ r').pc.inside = true
      rw [hself, h.read.inside r', hin]
      exact ⟨fun e => absurd e (by decide),
        fun e => Bool.noConfusion (show false = true from e)⟩
    · show s.lock = some r' ↔ (Function.update s.readers r _ r').pc.inside = true
      rw [Function.update_of_ne he]
      exact h.read.inside r'
  · by_cases he : r' = r
    · subst he
      show (Function.update s.readers r' _ r').buf = []
      rw [hself]
    · change (Function.update s.readers r _ r').pc.inside = false at hr'
      show (Function.update s.readers r _ r').buf = []
      rw [Function.update_of_ne he] at hr' ⊢
      exact h.read.outside r' hr'
  · by_cases he : r' = r
    · subst he
      show PcOk s (Function.update s.readers r' _ r').pc
      rw [hself]
      exact trivial
    · show PcOk s (Function.update s.readers r _ r').pc
      rw [Function.update_of_ne he]
      exact h.read.pc r'
  · have e := h.read.out
    unfold KState.held at e ⊢
    dsimp only
    cases hk : s.lock with
    | none => rw [hk] at e; exact e
    | some r' =>
      rw [hk] at e
      have he : r' ≠ r := by
        rintro rfl
        rw [(h.read.inside r').mp hk] at hin
        exact absurd hin (by decide)
      dsimp only
      rw [Function.update_of_ne he]
      exact e

/-- the state after the tail store of a reader -/
def KState.tailStore (s : KState) (r pos : Nat) (bytes : List UInt8) (need : Nat) : KState :=
  { s with
    t := { s.t with tail := u64 (pos + need) }
    readers := Function.update s.readers r
      { s.readers r with buf := (s.readers r).buf ++ bytes, pc := .next (u64 (pos + need)) }
    nread := s.nread + 1 }

/-- everything one step of `cdp_read` can do -/
inductive ReaderMove (s : KState) (r : Nat) : KState → Prop
  | lock : (s.readers r).pc = .entry → s.lock = none →
      ReaderMove s r ({ s with lock := some r }.setPc r (.next s.t.tail))
  | next (pos q : Nat) (e : Entry) : (s.readers r).pc = .next pos → s.NextAt q e →
      ReaderMove s r (s.setPc r (.next q))
  | found (pos q : Nat) (e : Entry) : (s.readers r).pc = .next pos → s.NextAt q e →
      ReaderMove s r (s.setPc r (.found q))
  | drained (pos : Nat) : (s.readers r).pc = .next pos → s.nread = s.log.length →
      ReaderMove s r (s.setPc r .empty)
  | early (pos : Nat) (e : Entry) : (s.readers r).pc = .found pos → s.NextAt pos e → ¬e.Ended →
      ReaderMove s r (s.setPc r .empty)
  | ready (pos : Nat) (e : Entry) : (s.readers r).pc = .found pos → s.NextAt pos e → e.Ended →
      ReaderMove s r (s.setPc r (.ready pos))
  | full : (s.readers r).pc = .empty → (s.readers r).buf ≠ [] →
      ReaderMove s r (s.setPc r (.leave .zero))
  | eof : (s.readers r).pc = .empty → (s.readers r).buf = [] → s.t.dead = true →
      ReaderMove s r (s.setPc r (.leave .zero))
  | again : (s.readers r).pc = .empty → (s.readers r).buf = [] → s.t.dead = false →
      ReaderMove s r (s.setPc r (.leave .eagain))
  | sleep : (s.readers r).pc = .empty → (s.readers r).buf = [] → s.t.dead = false →
      ReaderMove s r ({ s with lock := none }.setPc r .asleep)
  | stop (pos : Nat) (ret : Ret) : (s.readers r).pc = .ready pos → ret ≠ .zero →
      ReaderMove s r (s.setPc r (.leave (breakRet (s.readers r).buf ret)))
  | copied (pos : Nat) (e : Entry) : (s.readers r).pc = .ready pos → s.NextAt pos e → e.Ended →
      ReaderMove s r (s.setPc r (.taken pos e.block))
  | tail (pos : Nat) (e : Entry) : (s.readers r).pc = .taken pos e.block → s.NextAt pos e →
      e.Ended → ReaderMove s r (s.tailStore r pos e.block e.need)
  | ret (ret : Ret) : (s.readers r).pc = .leave ret → ReaderMove s r ({ s with lock := none }.ret r ret)
  | wake : (s.readers r).pc = .asleep → ReaderMove s r (s.setPc r .entry)
  | intr : (s.readers r).pc.inside = false → ReaderMove s r (s.ret r .erestartsys)

theorem reader_cases {r : Nat} {ok : Bool} (h : KInv cfg s) (hs : readerStep s r ok = some s') :
    ReaderMove s r s' := by
  have hp := h.read.pc r
  unfold readerStep at hs
  cases hpc : (s.readers r).pc with
  | idle =>
    rw [hpc] at hs
    exact absurd hs (by simp [readerAt])
  | entry =>
    have hin : (s.readers r).pc.inside = false := by rw [hpc]; rfl
    rw [hpc] at hs
    dsimp only [readerAt] at hs
    cases ok with
    | true =>
      by_cases hk : s.lock = none
      · simp only [if_true, if_pos hk, Option.some.injEq] at hs
        exact hs ▸ .lock hpc hk
      · simp [hk] at hs
    | false =>
      simp only [Bool.false_eq_true, if_false, Option.some.injEq] at hs
      exact hs ▸ .intr hin
  | asleep =>
    have hin : (s.readers r).pc.inside = false := by rw [hpc]; rfl
    rw [hpc] at hs
    dsimp only [readerAt] at hs
    cases ok with
    | true =>
      simp only [if_true, Option.some.injEq] at hs
      exact hs ▸ .wake hpc
    | false =>
      simp only [Bool.false_eq_true, if_false, Option.some.injEq] at hs
      exact hs ▸ .intr hin
  | leave ret =>
    rw [hpc] at hs
    exact Option.some.inj hs ▸ .ret ret hpc
  | next pos =>
    rw [hpc] at hs hp
    dsimp only [readerAt] at hs
    rcases h.log.next hp with ⟨hnull, hn⟩ | ⟨e, q, he, hq | hq⟩
    · rw [hnull, Option.some.injEq] at hs
      exact hs ▸ .drained pos hpc hn
    · rw [hq, Option.some.injEq] at hs
      exact hs ▸ .next pos q e hpc he
    · rw [hq, Option.some.injEq] at hs
      exact hs ▸ .found pos q e hpc he
  | found pos =>
    rw [hpc] at hs hp
    obtain ⟨e, he⟩ := hp
    dsimp only [readerAt] at hs
    split at hs
    · rename_i hst
      rw [Option.some.injEq] at hs
      exact hs ▸ .ready pos e hpc he ((h.log.stateAt he).mp hst)
    · rename_i hst
      rw [Option.some.injEq] at hs
      exact hs ▸ .early pos e hpc he fun hend => hst ((h.log.stateAt he).mpr hend)
  | empty =>
    rw [hpc] at hs
    dsimp only [readerAt] at hs
    split at hs
    · rename_i hb
      rw [Option.some.injEq] at hs
      exact hs ▸ .full hpc hb
    · rename_i hb
      rw [ne_eq, not_not] at hb
      split at hs
      · rename_i hd
        rw [Option.some.injEq] at hs
        exact hs ▸ .eof hpc hb hd
      · rename_i hd
        rw [Bool.not_eq_true] at hd
        split at hs
        · rw [Option.some.injEq] at hs
          exact hs ▸ .again hpc hb hd
        · rw [Option.some.injEq] at hs
          exact hs ▸ .sleep hpc hb hd
  | ready pos =>
    rw [hpc] at hs hp
    obtain ⟨e, he, hend⟩ := hp
    dsimp only [readerAt] at hs
    rw [h.log.recLen he, h.log.bytes he hend] at hs
    split at hs
    · rw [Option.some.injEq] at hs
      exact hs ▸ .stop pos .emsgsize hpc Ret.noConfusion
    · split at hs
      · rw [Option.some.injEq] at hs
        exact hs ▸ .copied pos e hpc he hend
      · rw [Option.some.injEq] at hs
        exact hs ▸ .stop pos .efault hpc Ret.noConfusion
  | taken pos bytes =>
    rw [hpc] at hs hp
    obtain ⟨e, he, hend, rfl⟩ := hp
    dsimp only [readerAt] at hs
    rw [h.log.recLen he, Option.some.injEq] at hs
    exact hs ▸ .tail pos e hpc he hend

/-- **The tail store**, the only step of a reader that changes the target -/
theorem KInv.tail {r pos : Nat} {e : Entry} (h : KInv cfg s)
    (hpc : (s.readers r).pc = .taken pos e.block) (he : s.NextAt pos e) (hend : e.Ended) :
    KInv cfg (s.tailStore r pos e.block e.need) := by
  have hin : (s.readers r).pc.inside = true := by rw [hpc]; rfl
  have hk := (h.read.inside r).mpr hin
  have hself : ((s.tailStore r pos e.block e.need).readers r) = { s.readers r with
      buf := (s.readers r).buf ++ e.block, pc := .next (u64 (pos + e.need)) } :=
    Function.update_self _ _ _
  have hne : ∀ {r'}, r' ≠ r → (s.tailStore r pos e.block e.need).readers r' = s.readers r' :=
    fun hr' => Function.update_of_ne hr' _ _
  have hlk : (s.tailStore r pos e.block e.need).lock = some r := hk
  refine ⟨h.log.taken he hend rfl rfl rfl, h.bios.of_same rfl rfl rfl, fun r' => ?_,
    fun r' hr' => ?_, fun r' => ?_, ?_⟩
  · rw [hlk, ← hk]
    by_cases hrr : r' = r
    · subst hrr
      rw [hself, hk]
      exact ⟨fun _ => rfl, fun _ => rfl⟩
    · rw [hne hrr]
      exact h.read.inside r'
  · by_cases hrr : r' = r
    · subst hrr
      rw [hself] at hr'
      exact Bool.noConfusion (show true = false from hr')
    · rw [hne hrr] at hr' ⊢
      exact h.read.outside r' hr'
  · by_cases hrr : r' = r
    · subst hrr
      rw [hself]
      exact Or.inl rfl
    · rw [hne hrr]
      exact PcOk.outside (h.read.others hin hrr)
  · have eo := h.read.out
    have h1 : (s.tailStore r pos e.block e.need).held = s.held ++ e.block := by
      unfold KState.held
      rw [hlk, hk]
      show ((s.tailStore r pos e.block e.need).readers r).buf = (s.readers r).buf ++ e.block
      rw [hself]
    have h3 : s.log.take (s.nread + 1) = s.log.take s.nread ++ [e] := by
      rw [List.take_add_one, he.1]
      rfl
    show s.out ++ (s.tailStore r pos e.block e.need).held = blocks (s.log.take (s.nread + 1))
    rw [h1, h3, blocks_snoc, ← eo, List.append_assoc]

theorem KInv.reader {r : Nat} (h : KInv cfg s) (hs : ReaderMove s r s') : KInv cfg s' := by
  have hmove : ∀ pc pc' : Pc, (s.readers r).pc = pc → pc'.inside = pc.inside → PcOk s pc' →
      KInv cfg (s.setPc r pc') := fun pc pc' h0 h1 h2 =>
    h.readOnly (h.read.move (h1.trans (by rw [h0])) h2) rfl rfl rfl rfl
  cases hs with
  | lock hpc hk => exact h.readOnly (h.read.acquire (by rw [hpc]; rfl) hk) rfl rfl rfl rfl
  | next pos q e hpc he => exact hmove _ (.next q) hpc rfl (Or.inr ⟨e, he⟩)
  | found pos q e hpc he => exact hmove _ (.found q) hpc rfl ⟨e, he⟩
  | drained pos hpc _ => exact hmove _ .empty hpc rfl trivial
  | early pos e hpc _ _ => exact hmove _ .empty hpc rfl trivial
  | ready pos e hpc he hend => exact hmove _ (.ready pos) hpc rfl ⟨e, he, hend⟩
  | full hpc _ => exact hmove _ (.leave .zero) hpc rfl trivial
  | eof hpc _ _ => exact hmove _ (.leave .zero) hpc rfl trivial
  | again hpc _ _ => exact hmove _ (.leave .eagain) hpc rfl trivial
  | sleep hpc hb _ => exact h.readOnly (h.read.sleep (by rw [hpc]; rfl) hb) rfl rfl rfl rfl
  | stop pos ret hpc _ => exact hmove _ (.leave _) hpc rfl trivial
  | copied pos e hpc he hend => exact hmove _ (.taken pos e.block) hpc rfl ⟨e, he, hend, rfl⟩
  | tail pos e hpc he hend => exact h.tail hpc he hend
  | ret ret hpc => exact h.readOnly (h.read.retInside ret (by rw [hpc]; rfl)) rfl rfl rfl rfl
  | wake hpc => exact hmove _ .entry hpc rfl trivial
  | intr hin => exact h.readOnly (h.read.retOutside _ hin) rfl rfl rfl rfl

theorem clearBegin_cases (hs : clearBeginStep s = some s') :
    s' = { s with word := some 0, tmp := fun _ => false } := by
  unfold clearBeginStep at hs
  split at hs
  · exact (Option.some.inj hs).symm
  · exact absurd hs (by simp)

theorem clearWord_cases (hs : clearWordStep s = some s') : ∃ w, s.word = some w ∧
    w < s.t.nlongs ∧ s' = { s with
      t := { s.t with bitmap := fun c => if c / 64 = w then false else s.t.bitmap c }
      tmp := fun c => if c / 64 = w then s.t.bitmap c else s.tmp c
      word := some (w + 1) } := by
  unfold clearWordStep at hs
  cases hw : s.word with
  | none => rw [hw] at hs; exact absurd hs (by simp)
  | some w =>
    rw [hw] at hs
    dsimp only at hs
    split at hs
    · rename_i hlt
      rw [Option.some.injEq] at hs
      exact ⟨w, rfl, hlt, hs.symm⟩
    · exact absurd hs (by simp)

theorem clearDone_cases {ok : Bool} (hs : clearDoneStep s ok = some s') : ∃ w, s.word = some w ∧
    s.t.nlongs ≤ w ∧ s' = { s with
      t := { s.t with overflowed := false }
      word := none
      tmp := fun _ => false
      owed := if ok then fun c => s.owed c || s.tmp c else s.owed } := by
  unfold clearDoneStep at hs
  cases hw : s.word with
  | none => rw [hw] at hs; exact absurd hs (by simp)
  | some w =>
    rw [hw] at hs
    dsimp only at hs
    split at hs
    · exact absurd hs (by simp)
    · rename_i hlt
      rw [Option.some.injEq] at hs
      exact ⟨w, rfl, by omega, hs.symm⟩

theorem reread_cases {c : Nat} (hs : rereadStep cfg s c = some s') : s.owed c = true ∧
    s' = { s with
      owed := fun x => if x = c then false else s.owed x
      flights := s.flights.map fun f =>
        { f with healed := fun x => f.healed x || (decide (x = c) && f.landed) } } := by
  unfold rereadStep at hs
  split at hs
  · rename_i ho
    rw [Option.some.injEq] at hs
    exact ⟨ho, hs.symm⟩
  · exact absurd hs (by simp)

theorem dtr_cases (hs : dtrStep s = some s') : (∀ f ∈ s.flights, f.stage.isEnded = true) ∧
    s.t.dead = false ∧ s' = { s with t := { s.t with dead := true } } := by
  unfold dtrStep at hs
  split at hs
  · rename_i hg
    rw [Option.some.injEq] at hs
    exact ⟨List.all_eq_true.mp hg.1, hg.2, hs.symm⟩
  · exact absurd hs (by simp)

theorem KInv.step {a : KAct} (h : KInv cfg s) (hs : kstep cfg s a = some s') : KInv cfg s' := by
  cases a with
  | map b => exact h.map hs
  | reserve i ts => exact h.reserve hs
  | copy i => exact h.copy hs
  | land i => exact h.land hs
  | endIo i error => exact h.endIo hs
  | call r count nonblock => exact h.call hs
  | reader r ok => exact h.reader (reader_cases h hs)
  | clearBegin =>
    obtain rfl := clearBegin_cases hs
    exact h.frame (h.bios.of_same rfl rfl rfl) rfl rfl rfl rfl rfl rfl rfl rfl rfl rfl
  | clearWord =>
    obtain ⟨w, _, _, rfl⟩ := clearWord_cases hs
    exact h.frame (h.bios.of_same rfl rfl rfl) rfl rfl rfl rfl rfl rfl rfl rfl rfl rfl
  | clearDone ok =>
    obtain ⟨w, _, _, rfl⟩ := clearDone_cases hs
    exact h.frame (h.bios.of_same rfl rfl rfl) rfl rfl rfl rfl rfl rfl rfl rfl rfl rfl
  | reread c =>
    change rereadStep cfg s c = some s' at hs
    obtain ⟨_, rfl⟩ := reread_cases hs
    refine h.frame (h.bios.ghost rfl rfl (List.length_map _) fun j f' hj => ?_)
      rfl rfl rfl rfl rfl rfl rfl rfl rfl rfl
    rw [List.getElem?_map, Option.map_eq_some_iff] at hj
    obtain ⟨f, hf, rfl⟩ := hj
    exact ⟨f, hf, rfl, rfl, rfl, rfl, rfl⟩
  | dtr =>
    obtain ⟨hall, hd, rfl⟩ := dtr_cases hs
    have hb : BioInv cfg { s with t := { s.t with dead := true } } :=
      ⟨h.bios.flight, h.bios.inj, h.bios.cover, fun _ => hall⟩
    exact h.frame hb rfl rfl rfl rfl rfl rfl rfl rfl rfl rfl

/-- **Every reachable state has the invariant.** -/
theorem KInv.reach {dev : Nat → UInt8} {as : List KAct}
    (h : exec (kstep cfg) (KState.init cfg dev) as = some s) : KInv cfg s :=
  exec_invariant (fun _ _ _ hi hs => hi.step hs) (KInv.init cfg dev) h

/-! ## one bio in one step -/

/-- what a step does to bio `j` -/
inductive FlightMove (s : KState) (j : Nat) (f : Flight) : KAct → Flight → Prop
  | stay (a : KAct) : FlightMove s j f a f
  | drop (ts : Nat) : f.stage = .marked → FlightMove s j f (.reserve j ts) f.drop
  | reserve (ts off : Nat) : f.stage = .marked →
      FlightMove s j f (.reserve j ts) (f.reserve off s.log.length)
  | submit (off : Nat) : f.stage = .reserved off → FlightMove s j f (.copy j) (f.submit off)
  | arrive : f.stage = .submitted → FlightMove s j f (.land j) f.arrive
  | finish (error : Bool) : f.stage = .submitted → f.landed = true ∨ error = true →
      FlightMove s j f (.endIo j error) (f.finish error)
  | heal (c : Nat) (healed : Nat → Bool) :
      FlightMove s j f (.reread c) { f with healed := healed }

theorem FlightMove.bio {a : KAct} {j : Nat} {f f' : Flight} (h : FlightMove s j f a f') :
    f'.bio = f.bio := by
  cases h <;> rfl

/-- **What a step does to the bios**: `cdp_map` adds one, every other step moves at most one on. -/
theorem flight_cases {a : KAct} {j : Nat} {f' : Flight} (h : KInv cfg s)
    (hs : kstep cfg s a = some s') (hj : s'.flights[j]? = some f') :
    (∃ b st, a = .map b ∧ s.flights[j]? = none ∧ f' = b.flight st ∧
      (st = .marked ∨ st = .submitted ∧ cdpMapArgs cfg b = none)) ∨
    ∃ f, s.flights[j]? = some f ∧ FlightMove s j f a f' := by
  have hsame : s'.flights = s.flights →
      ∃ f, s.flights[j]? = some f ∧ FlightMove s j f a f' :=
    fun e => ⟨f', by rw [← e]; exact hj, .stay a⟩
  have hone : ∀ (i : Nat) (f : Flight) (g : Flight → Flight), s.flights[i]? = some f →
      s'.flights = s.flights.modify i g → (j = i → FlightMove s j f a (g f)) →
      ∃ f, s.flights[j]? = some f ∧ FlightMove s j f a f' := by
    intro i f g hf he hm
    rw [he] at hj
    rcases modify_at hf hj with ⟨rfl, rfl⟩ | ⟨hne, hj⟩
    · exact ⟨f, hf, hm rfl⟩
    · exact ⟨f', hj, .stay a⟩
  cases a with
  | map b =>
    have hnew : ∀ st, s'.flights = s.flights ++ [b.flight st] →
        (st = .marked ∨ st = .submitted ∧ cdpMapArgs cfg b = none) →
        (∃ b' st, KAct.map b = .map b' ∧ s.flights[j]? = none ∧ f' = b'.flight st ∧
          (st = .marked ∨ st = .submitted ∧ cdpMapArgs cfg b' = none)) ∨
        ∃ f, s.flights[j]? = some f ∧ FlightMove s j f (.map b) f' := by
      intro st he hst
      rw [he] at hj
      rcases push_at hj with hj | ⟨rfl, rfl⟩
      · exact Or.inr ⟨f', hj, .stay _⟩
      · exact Or.inl ⟨b, st, rfl, List.getElem?_eq_none le_rfl, rfl, hst⟩
    obtain ⟨_, _, ⟨ha, rfl⟩ | ⟨a, _, rfl⟩⟩ := map_cases hs
    · exact hnew .submitted rfl (Or.inr ⟨rfl, ha⟩)
    · exact hnew .marked rfl (Or.inl rfl)
  | reserve i ts =>
    right
    obtain ⟨f, a, hf, hst, _, _, ⟨_, rfl⟩ | ⟨_, _, rfl⟩⟩ := reserve_cases h.log hs
    · exact hone i f _ hf rfl fun e => by subst e; exact .drop ts hst
    · exact hone i f _ hf rfl fun e => by subst e; exact .reserve ts _ hst
  | copy i =>
    right
    obtain ⟨f, off, k, a, hf, hst, _, _, rfl⟩ := copy_cases hs
    exact hone i f _ hf rfl fun e => by subst e; exact .submit off hst
  | land i =>
    right
    obtain ⟨f, hf, hst, _, rfl⟩ := land_cases hs
    exact hone i f _ hf rfl fun e => by subst e; exact .arrive hst
  | endIo i error =>
    right
    obtain ⟨f, hf, hst, hl, ⟨k, _, _, rfl⟩ | ⟨_, rfl⟩⟩ := endIo_cases hs
    · exact hone i f _ hf rfl fun e => by subst e; exact .finish error hst hl
    · exact hone i f _ hf rfl fun e => by subst e; exact .finish error hst hl
  | call r count nonblock =>
    obtain ⟨_, rfl⟩ := call_cases hs
    exact Or.inr (hsame rfl)
  | reader r ok => cases reader_cases h hs <;> exact Or.inr (hsame rfl)
  | clearBegin =>
    obtain rfl := clearBegin_cases hs
    exact Or.inr (hsame rfl)
  | clearWord =>
    obtain ⟨w, _, _, rfl⟩ := clearWord_cases hs
    exact Or.inr (hsame rfl)
  | clearDone ok =>
    obtain ⟨w, _, _, rfl⟩ := clearDone_cases hs
    exact Or.inr (hsame rfl)
  | reread c =>
    right
    change rereadStep cfg s c = some s' at hs
    obtain ⟨_, rfl⟩ := reread_cases hs
    rw [List.getElem?_map, Option.map_eq_some_iff] at hj
    obtain ⟨f, hf, rfl⟩ := hj
    exact ⟨f, hf, .heal c _⟩
  | dtr =>
    obtain ⟨_, _, rfl⟩ := dtr_cases hs
    exact Or.inr (hsame rfl)

end

end CDP
