import DmCdp.Kernel.RingLayout

/-!
# FLUSH records on a device with a volatile cache

The backing device of the machine gets a volatile cache: an empty flush bio makes durable what
had completed when it was submitted.

* `CacheSt.covered`  what had completed when bio `i` was submitted;
* `FlushDurable`     every record before a FLUSH record that `cdp_read` has passed is durable;
* `flush_durable`    this holds in a run in which every record reserved before a FLUSH record has
                     completed when its bio is submitted (`FlushOk`);
* `flush_early`      a run in which a write is still under way then.
-/

set_option linter.unusedVariables false

namespace CDP
open Img Mach

/-! ## the machine -/

/-- an empty flush bio -/
def Bio.isFlush (b : Bio) : Bool := decide (b.op = .write) && decide (b.bytes = 0) && b.preflush

structure CacheSt where
  k : KState
  -- by the number of a bio: what a flush covers, and what is on stable storage
  covered : Nat → Nat → Bool
  durable : Nat → Bool

def CacheSt.init (cfg : Config) (dev : Nat → UInt8) : CacheSt :=
  ⟨.init cfg dev, fun _ _ => false, fun _ => false⟩

/-- bio `j` has completed, without an error -/
def KState.completed (s : KState) (j : Nat) : Bool :=
  match s.flights[j]? with
  | some f => decide (f.stage = .ended false)
  | none => false

def KState.flushAt (s : KState) (i : Nat) : Bool :=
  match s.flights[i]? with
  | some f => f.bio.isFlush
  | none => false

/-- `copy`, or `reserve` for a bio that is dropped, is the last step of `cdp_map`: the bio goes to
the device -/
def CacheSt.submit (s : CacheSt) : KAct → Nat → Nat → Bool
  | .reserve i _ => Function.update s.covered i s.k.completed
  | .copy i => Function.update s.covered i s.k.completed
  | _ => s.covered

/-- the device carries a flush out -/
def CacheSt.flush (s : CacheSt) : KAct → Nat → Bool
  | .land i => if s.k.flushAt i then fun j => s.durable j || s.covered i j else s.durable
  | _ => s.durable

def cacheStep (cfg : Config) (s : CacheSt) (a : KAct) : Option CacheSt :=
  (kstep cfg s.k a).map fun k => ⟨k, s.submit a, s.flush a⟩

/-! ## the property -/

/-- record `k` is a FLUSH record without `F_ERROR` that `cdp_read` has handed out -/
def Flushed (s : KState) (k : Nat) : Prop :=
  k < s.nread ∧ ∃ e, s.log[k]? = some e ∧ e.header.type = RecFlush ∧
    hasFlag e.header.flags FError = false

/-- the bio of record `l` is on stable storage, if it writes anything -/
def CacheSt.Stable (s : CacheSt) (l : Nat) : Prop :=
  ∀ (j : Nat) (g : Flight), s.k.flights[j]? = some g → g.idx = some l →
    g.bio.isFlush = true ∨ s.durable j = true

def FlushDurable (s : CacheSt) : Prop := ∀ k, Flushed s.k k → ∀ l, l < k → s.Stable l

/-- when the bio of a FLUSH record is submitted, those of all earlier records have completed -/
def FlushOk (s : CacheSt) : KAct → Prop
  | .copy i => ∀ f k, s.k.flights[i]? = some f → f.bio.isFlush = true → f.idx = some k →
      ∀ (j : Nat) (g : Flight) (l : Nat), s.k.flights[j]? = some g → g.idx = some l → l < k →
        g.bio.isFlush = true ∨ g.stage = .ended false
  | _ => True

/-! ## what the steps keep -/

def Stage.sent : Stage → Prop
  | .submitted => True
  | .ended _ => True
  | _ => False

structure CacheInv (cfg : Config) (s : CacheSt) : Prop where
  k : KInv cfg s.k
  sent : ∀ (i : Nat) (f : Flight), s.k.flights[i]? = some f → f.landed = true → f.stage.sent
  ended : ∀ (i : Nat) (f : Flight), s.k.flights[i]? = some f → f.stage = .ended false →
    f.landed = true
  covers : ∀ (i j : Nat) (f g : Flight) (k l : Nat), s.k.flights[i]? = some f →
    f.bio.isFlush = true → f.idx = some k → f.stage.sent → s.k.flights[j]? = some g →
    g.idx = some l → l < k → g.bio.isFlush = true ∨ s.covered i j = true
  done : ∀ (i : Nat) (f : Flight), s.k.flights[i]? = some f → f.bio.isFlush = true →
    f.landed = true → ∀ j, s.covered i j = true → s.durable j = true

section
variable {cfg : Config} {s s' : CacheSt} {k' : KState} {a : KAct}

theorem CacheInv.init (cfg : Config) (dev : Nat → UInt8) : CacheInv cfg (CacheSt.init cfg dev) := by
  refine ⟨KInv.init cfg dev, fun i f h => ?_, fun i f h => ?_, fun i j f g k l h => ?_,
    fun i f h => ?_⟩ <;> cases h

theorem FlightMove.idx {k : KState} {j n : Nat} {f f' : Flight} (h : FlightMove k j f a f')
    (hn : f'.idx = some n) : f.idx = some n ∨ n = k.log.length := by
  cases h with
  | stay => exact Or.inl hn
  | drop ts hst => exact Or.inl hn
  | reserve ts off hst => exact Or.inr (Option.some.inj hn).symm
  | submit off hst => exact Or.inl hn
  | arrive hst => exact Or.inl hn
  | finish error hst hl => exact Or.inl hn
  | heal c healed => exact Or.inl hn

theorem flush_mono {j : Nat} (h : s.durable j = true) : s.flush a j = true := by
  unfold CacheSt.flush
  split
  · split
    · show (s.durable j || _) = true
      rw [h, Bool.true_or]
    · exact h
  · exact h

theorem CacheInv.submit_sent {i : Nat} {f : Flight} (h : CacheInv cfg s)
    (hs : kstep cfg s.k a = some k') (hf : s.k.flights[i]? = some f) (hst : f.stage.sent) :
    s.submit a i = s.covered i := by
  have hne : ∀ n (x : Nat → Bool), n ≠ i → Function.update s.covered n x i = s.covered i :=
    fun n x hn => Function.update_of_ne (fun e => hn e.symm) x s.covered
  unfold CacheSt.submit
  cases a with
  | reserve n ts =>
    refine hne n _ ?_
    rintro rfl
    obtain ⟨g, _, hg, hgs, _⟩ := reserve_cases h.k.log hs
    obtain rfl := Option.some.inj (hf.symm.trans hg)
    rw [hgs] at hst
    exact hst
  | copy n =>
    refine hne n _ ?_
    rintro rfl
    obtain ⟨g, off, _, _, hg, hgs, _⟩ := copy_cases hs
    obtain rfl := Option.some.inj (hf.symm.trans hg)
    rw [hgs] at hst
    exact hst
  | map b => rfl
  | land n => rfl
  | endIo n error => rfl
  | call r count nonblock => rfl
  | reader r ok => rfl
  | clearBegin => rfl
  | clearWord => rfl
  | clearDone ok => rfl
  | reread c => rfl
  | dtr => rfl

theorem CacheInv.earlier {i j k l : Nat} {f g' : Flight} (h : CacheInv cfg s)
    (hs : kstep cfg s.k a = some k') (hf : s.k.flights[i]? = some f) (hk : f.idx = some k)
    (hg : k'.flights[j]? = some g') (hl : g'.idx = some l) (hlt : l < k) :
    ∃ g, s.k.flights[j]? = some g ∧ g.idx = some l ∧ FlightMove s.k j g a g' := by
  rcases flight_cases h.k hs hg with ⟨b, st, _, _, rfl, _⟩ | ⟨g, hg0, hm⟩
  · cases hl
  · refine ⟨g, hg0, (hm.idx hl).resolve_right ?_, hm⟩
    rintro rfl
    exact absurd (h.k.bios.lt hf hk) (by omega)

theorem CacheInv.submitted {i j k l : Nat} {f g : Flight} (off : Nat) (h : CacheInv cfg s)
    (hg : FlushOk s (.copy i)) (hf : s.k.flights[i]? = some f) (hb : f.bio.isFlush = true)
    (hk : f.idx = some k) (hj : s.k.flights[j]? = some g) (hl : g.idx = some l) (hlt : l < k) :
    g.bio.isFlush = true ∨ s.submit (.copy i) i j = true := by
  refine (hg f k hf hb hk j g l hj hl hlt).imp_right fun hst => ?_
  show Function.update s.covered i s.k.completed i j = true
  rw [Function.update_self]
  unfold KState.completed
  rw [hj]
  exact decide_eq_true hst

theorem CacheInv.step (h : CacheInv cfg s) (hg : FlushOk s a) (hs : cacheStep cfg s a = some s') :
    CacheInv cfg s' := by
  obtain ⟨k', hn, rfl⟩ := Option.map_eq_some_iff.mp hs
  refine ⟨h.k.step hn, fun i f' hf' hl => ?_, fun i f' hf' he => ?_, ?_, ?_⟩
  · rcases flight_cases h.k hn hf' with ⟨b, st, _, _, rfl, _⟩ | ⟨f, hf, hm⟩
    · cases hl
    · cases hm with
      | stay => exact h.sent i _ hf hl
      | drop ts hst => trivial
      | reserve ts off hst =>
        have := h.sent i f hf hl
        rw [hst] at this
        exact this.elim
      | submit off hst => trivial
      | arrive hst =>
        show f.stage.sent
        rw [hst]
        trivial
      | finish error hst hl' => trivial
      | heal c healed => exact h.sent i f hf hl
  · rcases flight_cases h.k hn hf' with ⟨b, st, _, _, rfl, rfl | ⟨rfl, _⟩⟩ | ⟨f, hf, hm⟩
    · cases he
    · cases he
    · cases hm with
      | stay => exact h.ended i _ hf he
      | drop ts hst => cases he
      | reserve ts off hst => cases he
      | submit off hst => cases he
      | arrive hst => rfl
      | finish error hst hl =>
        cases he
        exact hl.resolve_right Bool.noConfusion
      | heal c healed => exact h.ended i f hf he
  · intro i j f' g' k l hf' hb hk hst hg' hl hlt
    rcases flight_cases h.k hn hf' with ⟨b, st, _, _, rfl, _⟩ | ⟨f, hf, hm⟩
    · cases hk
    · by_cases hsent : f.stage.sent
      · have hkf : f.idx = some k := by
          cases hm with
          | reserve ts off h0 =>
            rw [h0] at hsent
            exact hsent.elim
          | stay => exact hk
          | drop ts h0 => exact hk
          | submit off h0 => exact hk
          | arrive h0 => exact hk
          | finish error h0 hl' => exact hk
          | heal c healed => exact hk
        obtain ⟨g, hg0, hgl, hmg⟩ := h.earlier hn hf hkf hg' hl hlt
        rw [hmg.bio]
        show _ ∨ s.submit a i j = true
        rw [h.submit_sent hn hf hsent]
        exact h.covers i j f g k l hf (hm.bio ▸ hb) hkf hsent hg0 hgl hlt
      · cases hm with
        | stay => exact absurd hst hsent
        | drop ts h0 =>
          have hno := ((h.k.bios.flight i f hf).noRecord h0).1
          rw [show f.drop.idx = f.idx from rfl, hno] at hk
          cases hk
        | reserve ts off h0 => exact hst.elim
        | submit off h0 =>
          obtain ⟨g, hg0, hgl, hmg⟩ := h.earlier hn hf hk hg' hl hlt
          rw [hmg.bio]
          exact h.submitted off hg hf hb hk hg0 hgl hlt
        | arrive h0 =>
          rw [h0] at hsent
          exact absurd trivial hsent
        | finish error h0 hl' =>
          rw [h0] at hsent
          exact absurd trivial hsent
        | heal c healed => exact absurd hst hsent
  · intro i f' hf' hb hl j hc
    show s.flush a j = true
    rcases flight_cases h.k hn hf' with ⟨b, st, _, _, rfl, _⟩ | ⟨f, hf, hm⟩
    · cases hl
    · by_cases hland : f.landed = true
      · apply flush_mono
        change s.submit a i j = true at hc
        rw [h.submit_sent hn hf (h.sent i f hf hland)] at hc
        exact h.done i f hf (hm.bio ▸ hb) hland j hc
      · cases hm with
        | arrive h0 =>
          have hfl : s.k.flushAt i = true := by
            unfold KState.flushAt
            rw [hf]
            exact hb
          show (if s.k.flushAt i then fun j => s.durable j || s.covered i j else s.durable) j = true
          rw [if_pos hfl, show s.covered i j = true from hc, Bool.or_true]
        | stay => exact absurd hl hland
        | drop ts h0 => exact absurd hl hland
        | reserve ts off h0 => exact absurd hl hland
        | submit off h0 => exact absurd hl hland
        | finish error h0 hl' => exact absurd hl hland
        | heal c healed => exact absurd hl hland

theorem cdpMapArgs_flush {b : Bio} {a : LogArgs} (h : cdpMapArgs cfg b = some a)
    (ht : a.type = RecFlush) : b.isFlush = true := by
  unfold cdpMapArgs at h
  unfold Bio.isFlush
  cases hop : b.op with
  | read => rw [hop] at h; cases h
  | other => rw [hop] at h; cases h
  | write =>
    rw [hop] at h
    dsimp only at h
    split at h
    · rename_i hz
      split at h
      · rename_i hp
        rw [hz, hp]
        rfl
      · cases h
    · cases h
      cases ht
  | discard => rw [hop] at h; cases h; cases ht
  | secureErase => rw [hop] at h; cases h; cases ht
  | writeZeroes => rw [hop] at h; cases h; cases ht

/-- without `F_ERROR` in the record the bio has ended without an error -/
theorem CacheInv.flushDurable (h : CacheInv cfg s) : FlushDurable s := by
  rintro k ⟨hk, e, he, ht, herr⟩ l hl j g hj hgl
  have hlen := (List.getElem?_eq_some_iff.mp he).1
  obtain ⟨i, f, hf, hfk⟩ := h.k.bios.cover k hlen
  obtain ⟨e', he', ⟨a, gap, ts, ha, hh, _⟩, hes, _⟩ := (h.k.bios.flight i f hf).idx k hfk
  obtain rfl := Option.some.inj (he.symm.trans he')
  obtain ⟨error, hend⟩ := h.k.log.read k e he hk
  have hb : f.bio.isFlush = true := by
    refine cdpMapArgs_flush ha ?_
    rw [e.header_type, hh] at ht
    exact ht
  have herr' : error = false := by
    unfold Entry.header at herr
    rw [hend, hh] at herr
    change hasFlag (if error then (if gap then a.flags ||| FGapBefore else a.flags) ||| FError
      else if gap then a.flags ||| FGapBefore else a.flags) FError = false at herr
    rw [cdpMapArgs_flags ha] at herr
    cases error with
    | false => rfl
    | true => exact absurd ((hasFlag_error gap true f.bio).mpr rfl) (by rw [herr]; decide)
  have hst : f.stage = .ended false := by
    rw [hend, herr'] at hes
    cases hfs : f.stage with
    | marked => rw [hfs] at hes; cases hes
    | reserved off => rw [hfs] at hes; cases hes
    | submitted => rw [hfs] at hes; cases hes
    | ended error =>
      rw [hfs] at hes
      cases hes
      rfl
  have hsent : f.stage.sent := by
    rw [hst]
    trivial
  exact (h.covers i j f g k l hf hb hfk hsent hj hgl hl).imp_right
    (h.done i f hf hb (h.ended i f hf hst) j)

end

/-- **FLUSH records are durability barriers**, in a run that meets `FlushOk`. -/
theorem flush_durable (cfg : Config) (dev : Nat → UInt8) (as : List KAct) (s : CacheSt)
    (hg : Meets (cacheStep cfg) FlushOk (CacheSt.init cfg dev) as)
    (h : exec (cacheStep cfg) (CacheSt.init cfg dev) as = some s) : FlushDurable s :=
  (exec_invariant_meets (P:=CacheInv cfg) (fun _ _ _ hi hga hs => hi.step hga hs)
    (CacheInv.init cfg dev) hg h).flushDurable

/-! ## the runs -/

def sectorBio : Bio := ⟨.write, 0, 512, false, false, fun _ => 1⟩

def readTwo : List KAct := .call 0 4096 true :: List.replicate 9 (.reader 0 true)

/-- the write has completed when the flush comes -/
def writeThenFlush : List KAct :=
  [.map sectorBio, .reserve 0 0, .copy 0, .land 0, .endIo 0 false, .map flushBio, .reserve 1 0,
    .copy 1, .land 1, .endIo 1 false] ++ readTwo

def flushOkB (s : CacheSt) : KAct → Bool
  | .copy i => !s.k.flushAt i || s.k.flights.all fun g => g.bio.isFlush || decide (g.stage = .ended false)
  | _ => true

theorem flushOk_of_flushOkB {s : CacheSt} {a : KAct} (h : flushOkB s a = true) : FlushOk s a := by
  unfold FlushOk
  split
  · rename_i i
    intro f k hf hb _ j g l hj _ _
    have hfl : s.k.flushAt i = true := by
      unfold KState.flushAt
      rw [hf]
      exact hb
    simp only [flushOkB, hfl, Bool.not_true, Bool.false_or] at h
    have hg := List.all_eq_true.mp h g (List.mem_of_getElem? hj)
    rw [Bool.or_eq_true, decide_eq_true_eq] at hg
    exact hg
  · trivial

theorem flush_durable_run : ∃ s, exec (cacheStep smallConfig) (CacheSt.init smallConfig fun _ => 0)
    writeThenFlush = some s ∧ s.k.nread = 2 ∧ FlushDurable s := by
  have h : (exec (cacheStep smallConfig) (CacheSt.init smallConfig fun _ => 0)
      writeThenFlush).any (fun s => s.k.nread == 2) = true := by
    decide +kernel
  obtain ⟨s, hs, hp⟩ := (Option.any_eq_true _ _).mp h
  exact ⟨s, hs, beq_iff_eq.mp hp, flush_durable smallConfig (fun _ => 0) writeThenFlush s
    (meets_of_meetsB (b:=flushOkB) (fun _ _ => flushOk_of_flushOkB) (by decide +kernel)) hs⟩

/-- the flush is submitted and carried out while the write is still under way -/
def flushOvertakes : List KAct :=
  [.map sectorBio, .reserve 0 0, .copy 0, .map flushBio, .reserve 1 0, .copy 1, .land 1,
    .endIo 1 false, .land 0, .endIo 0 false] ++ readTwo

/-- **The race**: both records are delivered, and the write is only in the cache. -/
theorem flush_early : ∃ s, exec (cacheStep smallConfig) (CacheSt.init smallConfig fun _ => 0)
    flushOvertakes = some s ∧ ¬FlushDurable s := by
  have h : (exec (cacheStep smallConfig) (CacheSt.init smallConfig fun _ => 0)
      flushOvertakes).any (fun s => s.k.nread == 2 && !s.durable 0 &&
        ((s.k.log[1]?).any fun e => e.header.type == RecFlush && !hasFlag e.header.flags FError) &&
        ((s.k.flights[0]?).any fun g => g.idx == some 0 && !g.bio.isFlush)) = true := by
    decide +kernel
  obtain ⟨s, hs, hp⟩ := (Option.any_eq_true _ _).mp h
  simp only [Bool.and_eq_true, Option.any_eq_true, beq_iff_eq, Bool.not_eq_true'] at hp
  obtain ⟨⟨⟨hn, hd⟩, e, he, ht, hf⟩, g, hg, hgi, hgb⟩ := hp
  refine ⟨s, hs, fun hall => ?_⟩
  have hfl : Flushed s.k 1 := ⟨by omega, e, he, ht, hf⟩
  rcases hall 1 hfl 0 Nat.one_pos 0 g hg hgi with h1 | h1
  · rw [hgb] at h1
    cases h1
  · rw [hd] at h1
    cases h1

end CDP
