import DmCdp.Kernel.Deliver

/-!
# The dirty bitmap and the writes the ring dropped

A dropped bio is safe at a chunk while the chunk's bit is set, a read-and-clear has taken it and
the re-read is still to come, or the re-read came after the data reached the device
(`Flight.Safe`).

* `BitmapOk`     what a step must not do: re-read a chunk under a dropped bio that is still in
                 flight, drop a bio whose chunk has been cleared and re-read since its mark, lose
                 a snapshot;
* `dirty_kept`   in a run that keeps to it no dropped write is lost;
* `dirty_lost`   the run that does not.
-/

set_option linter.unusedVariables false

namespace CDP
open Img Mach Slots

/-- `cdp_reserve` has refused the record of this bio -/
def Flight.Dropped (f : Flight) : Prop := f.idx = none ∧ f.stage ≠ .marked

instance (f : Flight) : Decidable f.Dropped := inferInstanceAs (Decidable (_ ∧ _))

/-- the bit is set, taken by the read-and-clear under way, or handed out and not re-read -/
def Pending (s : KState) (c : Nat) : Prop :=
  s.t.bitmap c = true ∨ s.tmp c = true ∨ s.owed c = true

def Flight.Safe (s : KState) (f : Flight) (c : Nat) : Prop :=
  Pending s c ∨ (f.landed = true ∧ f.healed c = true)

/-- the conditions under which no bit of a dropped bio is lost -/
def BitmapOk (cfg : Config) (s : KState) : KAct → Prop
  -- a bio that is dropped: none of its chunks has been cleared and re-read since its mark
  | .reserve i _ => ∀ f a, s.flights[i]? = some f → cdpMapArgs cfg f.bio = some a →
      Refused s.t a.payload → ∀ c, f.bio.touches cfg c → Pending s c
  -- a re-read: every dropped bio on the chunk has landed, or the bit is set again
  | .reread c => ∀ f ∈ s.flights, f.Dropped → f.bio.touches cfg c → f.landed = false →
      s.t.bitmap c = true ∨ s.tmp c = true
  -- a failing copy to user space: no dropped bio needs the snapshot
  | .clearDone false => ∀ f ∈ s.flights, f.Dropped → ∀ c, f.bio.touches cfg c →
      s.tmp c = true → s.t.bitmap c = true ∨ s.owed c = true ∨ (f.landed = true ∧ f.healed c = true)
  | _ => True

/-- the property: a dropped bio whose data has reached the device is safe at every chunk -/
def DirtyKept (cfg : Config) (s : KState) : Prop :=
  ∀ f ∈ s.flights, f.Dropped → f.landed = true → ∀ c, f.bio.touches cfg c → f.Safe s c

structure DirtyInv (cfg : Config) (s : KState) : Prop where
  chunk : s.t.chunkSectors = cfg.chunkSectors
  nbits : s.t.nbits = cfg.nbits
  tmp : ∀ c, s.tmp c = true → ∃ w, s.word = some w ∧ c / 64 < w
  safe : ∀ f ∈ s.flights, f.Dropped → ∀ c, f.bio.touches cfg c → f.Safe s c

section
variable {cfg : Config} {s s' : KState}

/-- **The mark sets the bit of every chunk of the bio.** -/
theorem mark_touches {b : Bio} {a : LogArgs} {t : Target} {c : Nat}
    (hcs : t.chunkSectors = cfg.chunkSectors) (hnb : t.nbits = cfg.nbits) (hok : b.Ok cfg)
    (ha : cdpMapArgs cfg b = some a) (hc : b.touches cfg c) :
    (cdpMark t a.sector a.len).bitmap c = true := by
  unfold Bio.touches at hc
  rw [ha] at hc
  obtain ⟨h1, h2, h3⟩ := hc
  have hpos := cfg.chunkSectors_pos
  have hb : 0 < b.bytes ∧ a.sector = b.rel cfg ∧ a.len = b.bytes := by
    cases cdpMapArgs_cases ha with
    | flush _ _ => exact absurd h3 (Nat.lt_irrefl 0)
    | write _ _ => exact ⟨h3, rfl, rfl⟩
    | discard _ => exact ⟨h3, rfl, rfl⟩
    | zero _ => exact ⟨h3, rfl, rfl⟩
  obtain ⟨hb, hs, hl⟩ := hb
  obtain ⟨_, hend⟩ := Bio.rel_eq hok hb
  have hbl := cfg.begin_len
  rw [hs, hl] at h1
  have hcn : c < cfg.nbits := by
    have hdiv : c < (cfg.len + cfg.chunkSectors - 1) / cfg.chunkSectors :=
      (Nat.le_div_iff_mul_le hpos).mpr (by rw [Nat.succ_mul]; omega)
    exact hdiv
  refine cdpMark_bit (by rw [hcs]; exact hpos) (by rw [hl]; exact hok.1) ?_ (by rw [hnb]; exact hcn)
    ⟨?_, ?_, h3⟩
  · rw [hs, hl]
    omega
  · rw [hs, hl, hcs]
    exact h1
  · rw [hcs]
    exact h2

/-- what a step keeps of the bitmap: a bit stays set, in the snapshot or handed out -/
structure BitsKept (s s' : KState) : Prop where
  chunk : s'.t.chunkSectors = s.t.chunkSectors
  nbits : s'.t.nbits = s.t.nbits
  tmp : ∀ c, s'.tmp c = true → ∃ w, s'.word = some w ∧ c / 64 < w
  pending : ∀ c, Pending s c → Pending s' c

/-- **Bits are lost only** by a re-read or by a failing copy to user space. -/
theorem bits_kept {a : KAct} (hk : KInv cfg s)
    (ht : ∀ c, s.tmp c = true → ∃ w, s.word = some w ∧ c / 64 < w)
    (hr : ∀ c, a ≠ .reread c) (hd : a ≠ .clearDone false) (hs : kstep cfg s a = some s') :
    BitsKept s s' := by
  cases a with
  | map b =>
    obtain ⟨_, _, ⟨_, rfl⟩ | ⟨a, _, rfl⟩⟩ := map_cases hs
    · exact ⟨rfl, rfl, ht, fun c hp => hp⟩
    · obtain ⟨_, _, _, _, _, _, e1, e2⟩ := cdpMark_same s.t a.sector a.len
      exact ⟨e2, e1, ht, fun c hp => hp.imp_left (cdpMark_bitmap_mono s.t a.sector a.len c)⟩
  | reserve i ts =>
    obtain ⟨f, a, _, _, _, _, ⟨_, rfl⟩ | ⟨_, _, rfl⟩⟩ := reserve_cases hk.log hs <;>
      exact ⟨rfl, rfl, ht, fun c hp => hp⟩
  | copy i =>
    obtain ⟨f, off, k, a, _, _, _, _, rfl⟩ := copy_cases hs
    exact ⟨rfl, rfl, ht, fun c hp => hp⟩
  | land i =>
    obtain ⟨f, _, _, _, rfl⟩ := land_cases hs
    exact ⟨rfl, rfl, ht, fun c hp => hp⟩
  | endIo i error =>
    obtain ⟨f, _, _, _, ⟨k, _, _, rfl⟩ | ⟨_, rfl⟩⟩ := endIo_cases hs <;>
      exact ⟨rfl, rfl, ht, fun c hp => hp⟩
  | call r count nonblock =>
    obtain ⟨_, rfl⟩ := call_cases hs
    exact ⟨rfl, rfl, ht, fun c hp => hp⟩
  | reader r ok => cases reader_cases hk hs <;> exact ⟨rfl, rfl, ht, fun c hp => hp⟩
  | clearBegin =>
    have hw : s.word = none := by
      change clearBeginStep s = some s' at hs
      unfold clearBeginStep at hs
      split at hs
      · assumption
      · exact absurd hs (by simp)
    obtain rfl := clearBegin_cases hs
    refine ⟨rfl, rfl, fun c e => absurd e (by simp), fun c hp => ?_⟩
    rcases hp with hp | hp | hp
    · exact Or.inl hp
    · obtain ⟨w, hw', _⟩ := ht c hp
      rw [hw] at hw'
      exact absurd hw' (by simp)
    · exact Or.inr (Or.inr hp)
  | clearWord =>
    obtain ⟨w, hw, _, rfl⟩ := clearWord_cases hs
    refine ⟨rfl, rfl, fun c e => ⟨w + 1, rfl, ?_⟩, fun c hp => ?_⟩
    · by_cases hc : c / 64 = w
      · omega
      · obtain ⟨w', hw', hlt⟩ := ht c (by simpa [hc] using e)
        rw [hw, Option.some.injEq] at hw'
        omega
    unfold Pending
    dsimp only
    by_cases hc : c / 64 = w
    · simp only [if_pos hc]
      rcases hp with hp | hp | hp
      · exact Or.inr (Or.inl hp)
      · obtain ⟨w', hw', hlt⟩ := ht c hp
        rw [hw, Option.some.injEq] at hw'
        omega
      · exact Or.inr (Or.inr hp)
    · simp only [if_neg hc]
      exact hp
  | clearDone ok =>
    obtain rfl : ok = true := by
      by_contra hne
      exact hd (congrArg KAct.clearDone (Bool.eq_false_iff.mpr hne))
    obtain ⟨w, _, _, rfl⟩ := clearDone_cases hs
    refine ⟨rfl, rfl, fun c e => absurd e (by simp), fun c hp => ?_⟩
    unfold Pending
    dsimp only
    rw [if_pos rfl]
    rcases hp with hp | hp | hp
    · exact Or.inl hp
    · exact Or.inr (Or.inr (by rw [hp, Bool.or_true]))
    · exact Or.inr (Or.inr (by rw [hp, Bool.true_or]))
  | reread c => exact absurd rfl (hr c)
  | dtr =>
    obtain ⟨_, _, rfl⟩ := dtr_cases hs
    exact ⟨rfl, rfl, ht, fun c hp => hp⟩

theorem not_touches {b : Bio} {c : Nat} (ha : cdpMapArgs cfg b = none) : ¬b.touches cfg c := by
  unfold Bio.touches
  rw [ha]
  exact id

/-- a step that keeps the bits keeps the dropped bios safe, and a bio is dropped under a set bit -/
theorem DirtyInv.kept {a : KAct} (hk : KInv cfg s) (h : DirtyInv cfg s) (hb : BitsKept s s')
    (hg : BitmapOk cfg s a) (hr : ∀ c, a ≠ .reread c) (hs : kstep cfg s a = some s') :
    DirtyInv cfg s' := by
  refine ⟨hb.chunk.trans h.chunk, hb.nbits.trans h.nbits, hb.tmp, fun f' hf' hd c htc => ?_⟩
  obtain ⟨j, hj⟩ := List.mem_iff_getElem?.mp hf'
  have hsafe : ∀ f, s.flights[j]? = some f → f.Dropped → f.bio = f'.bio →
      (f.landed = true ∧ f.healed c = true → f'.landed = true ∧ f'.healed c = true) →
      f'.Safe s' c := by
    intro f hf hfd hbio hl
    rcases h.safe f (List.mem_of_getElem? hf) hfd c (hbio ▸ htc) with hp | hp
    · exact Or.inl (hb.pending c hp)
    · exact Or.inr (hl hp)
  rcases flight_cases hk hs hj with ⟨b, st, rfl, _, rfl, hst⟩ | ⟨f, hf, hm⟩
  · rcases hst with rfl | ⟨_, ha⟩
    · exact absurd rfl hd.2
    · exact absurd htc (not_touches ha)
  · cases hm with
    | stay => exact hsafe f' hf hd rfl fun e => e
    | drop ts hst =>
      obtain ⟨f0, a, hf0, _, ha, _, ⟨hr, _⟩ | ⟨_, _, rfl⟩⟩ := reserve_cases hk.log hs
      · obtain rfl := Option.some.inj (hf.symm.trans hf0)
        exact Or.inl (hb.pending c (hg f a hf ha hr c htc))
      · rw [modify_self hf0] at hj
        exact absurd (congrArg Flight.idx (Option.some.inj hj)) (by rw [hd.1]; simp [Flight.reserve])
    | reserve ts off hst => exact absurd hd.1 (by simp [Flight.reserve])
    | submit off hst =>
      exact hsafe f hf ⟨hd.1, by rw [hst]; exact Stage.noConfusion⟩ rfl fun e => e
    | arrive hst =>
      exact hsafe f hf ⟨hd.1, by rw [hst]; exact Stage.noConfusion⟩ rfl fun e => ⟨rfl, e.2⟩
    | finish error hst _ =>
      exact hsafe f hf ⟨hd.1, by rw [hst]; exact Stage.noConfusion⟩ rfl fun e => e
    | heal c0 healed => exact absurd rfl (hr c0)

/-- **What the bitmap owes the dropped bios survives every step that meets `BitmapOk`.** -/
theorem DirtyInv.step {a : KAct} (hk : KInv cfg s) (h : DirtyInv cfg s) (hg : BitmapOk cfg s a)
    (hs : kstep cfg s a = some s') : DirtyInv cfg s' := by
  by_cases hr : ∃ c, a = .reread c
  · obtain ⟨c0, rfl⟩ := hr
    change rereadStep cfg s c0 = some s' at hs
    obtain ⟨_, rfl⟩ := reread_cases hs
    refine ⟨h.chunk, h.nbits, h.tmp, fun f' hf' hd c htc => ?_⟩
    obtain ⟨f, hf, rfl⟩ := List.mem_map.mp hf'
    by_cases hc : c = c0
    · subst hc
      by_cases hl : f.landed = true
      · refine Or.inr ⟨hl, ?_⟩
        show (f.healed c || (decide (c = c) && f.landed)) = true
        rw [hl, decide_eq_true rfl, Bool.and_true, Bool.or_true]
      · rcases hg f hf hd htc (Bool.not_eq_true _ ▸ hl) with hp | hp
        · exact Or.inl (Or.inl hp)
        · exact Or.inl (Or.inr (Or.inl hp))
    · rcases h.safe f hf hd c htc with (hp | hp | hp) | hp
      · exact Or.inl (Or.inl hp)
      · exact Or.inl (Or.inr (Or.inl hp))
      · refine Or.inl (Or.inr (Or.inr ?_))
        show (if c = c0 then false else s.owed c) = true
        rw [if_neg hc]
        exact hp
      · refine Or.inr ⟨hp.1, ?_⟩
        show (f.healed c || _) = true
        rw [hp.2, Bool.true_or]
  · have hr' : ∀ c, a ≠ .reread c := fun c e => hr ⟨c, e⟩
    by_cases hd : a = .clearDone false
    · subst hd
      obtain ⟨w, _, _, rfl⟩ := clearDone_cases hs
      refine ⟨h.chunk, h.nbits, fun c e => absurd e (by simp), fun f hf hd c htc => ?_⟩
      have hg' := hg f hf hd c htc
      rcases h.safe f hf hd c htc with (hp | hp | hp) | hp
      · exact Or.inl (Or.inl hp)
      · rcases hg' hp with h1 | h1 | h1
        · exact Or.inl (Or.inl h1)
        · exact Or.inl (Or.inr (Or.inr h1))
        · exact Or.inr h1
      · exact Or.inl (Or.inr (Or.inr hp))
      · exact Or.inr hp
    · exact h.kept hk (bits_kept hk h.tmp hr' hd hs) hg hr' hs

end

/-- **No dropped write is lost** in a run whose steps meet `BitmapOk`. -/
theorem dirty_kept (cfg : Config) (dev : Nat → UInt8) (as : List KAct) (s : KState)
    (hg : Meets (kstep cfg) (BitmapOk cfg) (KState.init cfg dev) as)
    (h : exec (kstep cfg) (KState.init cfg dev) as = some s) : DirtyKept cfg s := by
  have h0 : DirtyInv cfg (KState.init cfg dev) :=
    ⟨rfl, rfl, fun c e => absurd e (by simp [KState.init]), fun f hf => absurd hf List.not_mem_nil⟩
  obtain ⟨_, hd⟩ := exec_invariant_meets (P:=fun s => KInv cfg s ∧ DirtyInv cfg s)
    (fun u a v hu hga hs => ⟨hu.1.step hs, hu.2.step hu.1 hga hs⟩) ⟨KInv.init cfg dev, h0⟩ hg h
  exact fun f hf hdrop _ c hc => hd.safe f hf hdrop c hc

/-- the write is dropped and lands; then the consumer takes the bits and re-reads a chunk -/
def dirtyRun : List KAct :=
  [.map bigWrite, .reserve 0 0] ++ ([.land 0, .endIo 0 false, .clearBegin, .clearWord,
    .clearDone true] ++ [.reread 0])

theorem dirty_kept_run : ∃ s, exec (kstep smallConfig) (KState.init smallConfig fun _ => 0)
    dirtyRun = some s ∧ (∃ f ∈ s.flights, f.Dropped ∧ f.landed = true) ∧
      DirtyKept smallConfig s := by
  have h : (exec (kstep smallConfig) (KState.init smallConfig fun _ => 0) dirtyRun).any
      (fun s => s.flights.any fun f => decide f.Dropped && f.landed) := by
    decide
  have hl : ∀ t, exec (kstep smallConfig) (KState.init smallConfig fun _ => 0)
      ([.map bigWrite, .reserve 0 0] ++ [.land 0, .endIo 0 false, .clearBegin, .clearWord,
        .clearDone true]) = some t → t.flights.all (fun f => f.landed) = true := by
    have h1 : (exec (kstep smallConfig) (KState.init smallConfig fun _ => 0)
      ([.map bigWrite, .reserve 0 0] ++ [.land 0, .endIo 0 false, .clearBegin, .clearWord,
        .clearDone true])).all (fun t => t.flights.all fun f => f.landed) = true := by
      decide
    intro t ht
    rw [ht] at h1
    exact h1
  obtain ⟨s, hs, hp⟩ := (Option.any_eq_true _ _).mp h
  obtain ⟨f, hf, hd⟩ := List.any_eq_true.mp hp
  rw [Bool.and_eq_true, decide_eq_true_eq] at hd
  refine ⟨s, hs, ⟨f, hf, hd⟩, dirty_kept smallConfig (fun _ => 0) dirtyRun s ?_ hs⟩
  refine meets_append ⟨trivial, fun t ht => ⟨?_, fun _ _ => trivial⟩⟩ fun t ht =>
    meets_append (meets_of_forall (by simp [BitmapOk])) fun u hu => ⟨?_, fun _ _ => trivial⟩
  · intro f a hf ha _ c hc
    obtain ⟨hok, _, ⟨hnone, _⟩ | ⟨a', ha', rfl⟩⟩ := map_cases ht
    · exact absurd hnone (by decide)
    · obtain rfl : f = bigWrite.flight .marked := (Option.some.inj hf).symm
      exact Or.inl (mark_touches (t:=cdpCtr smallConfig) rfl rfl hok ha' hc)
  · intro f hf _ _ hland
    have hall := hl u (exec_append_some.mpr ⟨t, ht, hu⟩)
    rw [List.all_eq_true.mp hall f hf] at hland
    exact absurd hland (by decide)

/-- the write is marked and dropped; the consumer takes its bits and re-reads the first chunk;
then the write reaches the device -/
def dirtyRace : List KAct :=
  [.map bigWrite, .reserve 0 0, .clearBegin, .clearWord, .clearDone true, .reread 0, .land 0,
    .endIo 0 false]

/-- **The race**: a dropped write that nothing will ever copy. -/
theorem dirty_lost : ∃ s, exec (kstep smallConfig) (KState.init smallConfig fun _ => 0) dirtyRace
    = some s ∧ ¬DirtyKept smallConfig s := by
  have h : (exec (kstep smallConfig) (KState.init smallConfig fun _ => 0) dirtyRace).any
      (fun s => s.flights.any fun f => decide f.Dropped && (f.landed &&
        (decide (f.bio.touches smallConfig 0) && !(s.t.bitmap 0 || s.tmp 0 || s.owed 0 ||
          f.healed 0)))) := by
    decide
  obtain ⟨s, hs, hp⟩ := (Option.any_eq_true _ _).mp h
  obtain ⟨f, hf, hd⟩ := List.any_eq_true.mp hp
  simp only [Bool.and_eq_true, decide_eq_true_eq, Bool.not_eq_true', Bool.or_eq_false_iff] at hd
  obtain ⟨hdrop, hl, hc, ⟨⟨h1, h2⟩, h3⟩, h4⟩ := hd
  refine ⟨s, hs, fun hall => ?_⟩
  rcases hall f hf hdrop hl 0 hc with (e | e | e) | e
  · exact absurd (h1.symm.trans e) (by decide)
  · exact absurd (h2.symm.trans e) (by decide)
  · exact absurd (h3.symm.trans e) (by decide)
  · exact absurd (h4.symm.trans e.2) (by decide)

end CDP
