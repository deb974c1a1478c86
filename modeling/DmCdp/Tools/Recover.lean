import DmCdp.Daemon.Extents
import DmCdp.Daemon.Feed
import DmCdp.Kernel.Overflow

/-!
# Recovery with the reference tools

The three steps of `tests/overflow.sh` after an overflow: `cdp-apply` of the stream up to the gap,
`dd` of every extent that `cdp-drain -B` prints, `cdp-apply -f` from the gap on.

* `doBitmap`, `dd`       the extents, and the copy of one of them from the device;
* `KState.dirty`         the bits that `cdp-drain -B -c` has returned or will return
                         (`dirty_of_no_clear`: the bitmap, if no call has cleared it before);
* `extents_fix`          an image copied over at the extents is the device wherever a bio was
                         dropped;
* `overflow_recovers`    the recovered image is the device.
-/

set_option linter.unusedVariables false

namespace CDP
open Img Mach

/-! ## the tools -/

/-- `do_bitmap` of `cdp-drain`: `in` and `start` as one option -/
def doBitmap (bm : Nat → Bool) (chunkSectors bits : Nat) : List (Nat × Nat) :=
  bitmapExtents bm chunkSectors bits

/-- `dd bs=512 skip=S seek=S count=L conv=notrunc` from a device of `size` bytes -/
def dd (size : Nat) (dev img : Nat → UInt8) (e : Nat × Nat) : Nat → UInt8 :=
  blit img (e.1 * 512) (min (e.2 * 512) (size - e.1 * 512)) fun i => dev (e.1 * 512 + i)

/-- the loop over `extents.txt` -/
def ddAll (size : Nat) (dev : Nat → UInt8) (l : List (Nat × Nat)) (img : Nat → UInt8) :
    Nat → UInt8 := l.foldl (dd size dev) img

/-- the bits that are set, in a snapshot under way, or returned by a read-and-clear -/
def KState.dirty (s : KState) (c : Nat) : Bool := s.t.bitmap c || s.tmp c || s.owed c

/-- what the target's device is to the image -/
def Config.range (cfg : Config) (dev : Nat → UInt8) : Nat → UInt8 :=
  fun x => dev (cfg.start * 512 + x)

theorem dd_apply (size : Nat) (dev img : Nat → UInt8) (e : Nat × Nat) (x : Nat) :
    dd size dev img e x = dev x ∨
      dd size dev img e x = img x ∧ ¬(x < size ∧ e.1 * 512 ≤ x ∧ x < e.1 * 512 + e.2 * 512) := by
  unfold dd
  by_cases hx : e.1 * 512 ≤ x ∧ x < e.1 * 512 + min (e.2 * 512) (size - e.1 * 512)
  · left
    rw [blit_in _ hx]
    exact congrArg dev (by omega)
  · exact Or.inr ⟨blit_out _ hx, by omega⟩

theorem ddAll_apply (size : Nat) (dev : Nat → UInt8) (x : Nat) (l : List (Nat × Nat)) :
    ∀ img : Nat → UInt8, ddAll size dev l img x = dev x ∨
      ddAll size dev l img x = img x ∧ (x < size → ¬InExtents (byteExtents l) x) := by
  induction l with
  | nil =>
    intro img
    exact Or.inr ⟨rfl, fun _ ⟨e, he, _⟩ => absurd he List.not_mem_nil⟩
  | cons e l ih =>
    intro img
    rcases ih (dd size dev img e) with h | ⟨h1, h2⟩
    · exact Or.inl h
    · rcases dd_apply size dev img e x with h | ⟨h3, h4⟩
      · exact Or.inl (h1.trans h)
      · refine Or.inr ⟨h1.trans h3, fun hx => ?_⟩
        rintro ⟨e', he', h5, h6⟩
        rcases List.mem_cons.mp he' with rfl | he'
        · exact h4 ⟨hx, h5, h6⟩
        · exact h2 hx ⟨e', he', h5, h6⟩

section
variable {cfg : Config} {dev0 : Nat → UInt8} {g : Nat} {s : KState}

theorem dirty_of_pending {c : Nat} (h : Pending s c) : s.dirty c = true := by
  unfold KState.dirty
  rcases h with h | h | h <;> rw [h] <;> simp

/-- no read-and-clear is under way, and none has taken a bit -/
structure Uncleared (s : KState) : Prop where
  word : s.word = none
  tmp : s.tmp = fun _ => false
  owed : s.owed = fun _ => false

theorem Uncleared.step {s' : KState} {a : KAct} (h : Uncleared s) (hk : KInv cfg s)
    (ha : a ≠ .clearBegin) (hs : kstep cfg s a = some s') : Uncleared s' := by
  obtain ⟨h1, h2, h3⟩ := h
  cases a with
  | map b => obtain ⟨_, _, ⟨_, rfl⟩ | ⟨a, _, rfl⟩⟩ := map_cases hs <;> exact ⟨h1, h2, h3⟩
  | reserve i ts =>
    obtain ⟨f, a, _, _, _, _, ⟨_, rfl⟩ | ⟨_, _, rfl⟩⟩ := reserve_cases hk.log hs <;>
      exact ⟨h1, h2, h3⟩
  | copy i =>
    obtain ⟨f, off, k, a, _, _, _, _, rfl⟩ := copy_cases hs
    exact ⟨h1, h2, h3⟩
  | land i =>
    obtain ⟨f, _, _, _, rfl⟩ := land_cases hs
    exact ⟨h1, h2, h3⟩
  | endIo i error =>
    obtain ⟨f, _, _, _, ⟨k, _, _, rfl⟩ | ⟨_, rfl⟩⟩ := endIo_cases hs <;> exact ⟨h1, h2, h3⟩
  | call r count nonblock =>
    obtain ⟨_, rfl⟩ := call_cases hs
    exact ⟨h1, h2, h3⟩
  | reader r ok => cases reader_cases hk hs <;> exact ⟨h1, h2, h3⟩
  | clearBegin => exact absurd rfl ha
  | clearWord =>
    obtain ⟨w, hw, _⟩ := clearWord_cases hs
    exact absurd (hw.symm.trans h1) (Option.some_ne_none w)
  | clearDone ok =>
    obtain ⟨w, hw, _⟩ := clearDone_cases hs
    exact absurd (hw.symm.trans h1) (Option.some_ne_none w)
  | reread c =>
    change rereadStep cfg s c = some s' at hs
    obtain ⟨ho, _⟩ := reread_cases hs
    rw [h3] at ho
    exact absurd ho Bool.false_ne_true
  | dtr =>
    obtain ⟨_, _, rfl⟩ := dtr_cases hs
    exact ⟨h1, h2, h3⟩

theorem dirty_of_no_clear {as : List KAct} (ha : .clearBegin ∉ as)
    (hs : exec (kstep cfg) (KState.init cfg dev0) as = some s) : s.dirty = s.t.bitmap := by
  have hm : Meets (kstep cfg) (fun _ a => a ≠ .clearBegin) (KState.init cfg dev0) as :=
    meets_of_forall fun a h _ => ne_of_mem_of_not_mem h ha
  obtain ⟨_, _, h2, h3⟩ := exec_invariant_meets (P:=fun s => KInv cfg s ∧ Uncleared s)
    (fun u a v hu hne hs => ⟨hu.1.step hs, hu.2.step hu.1 hne hs⟩)
    ⟨KInv.init cfg dev0, rfl, rfl, rfl⟩ hm hs
  funext c
  unfold KState.dirty
  rw [h2, h3, Bool.or_false, Bool.or_false]

/-- **The extents cover every dropped bio.** -/
theorem extents_fix (hk : KInv cfg s) (hm : AllMarked cfg s) (img : Nat → UInt8) (x : Nat) :
    ddAll cfg.size (cfg.range s.dev) (doBitmap s.dirty cfg.chunkSectors cfg.nbits) img x
        = s.dev (cfg.start * 512 + x) ∨
      ddAll cfg.size (cfg.range s.dev) (doBitmap s.dirty cfg.chunkSectors cfg.nbits) img x = img x ∧
        CommitLog.Unlost (s.commits cfg) x := by
  refine (ddAll_apply cfg.size (cfg.range s.dev) x _ img).imp_right fun ⟨h1, h2⟩ => ⟨h1, ?_⟩
  intro w hw _
  obtain ⟨f, hf, rfl⟩ := List.mem_map.mp hw
  by_contra hne
  obtain ⟨j, hj⟩ := List.mem_iff_getElem?.mp hf
  obtain ⟨htc, hx⟩ := Bio.effect_touches (hk.bios.flight j f hj).ok hne
  have hbit := dirty_of_pending (hm.all f hf _ htc)
  exact h2 hx (inExtents_of_covered cfg.chunkSectors_pos
    (bitmapExtents_covers cfg.chunkSectors (Config.chunkOf_lt hx) hbit))

theorem stream_cut (g : Nat) (s : KState) :
    blocks s.log = streamBytes (preGap g s) ++ streamBytes (postGap g s) := by
  unfold preGap postGap
  rw [streamBytes_blocks, streamBytes_blocks]
  unfold blocks
  rw [← List.flatten_append, ← List.map_append, List.take_append_drop]

/-- what is known of the log when a run with one episode has completed -/
structure Episode (g : Nat) (s : KState) : Prop where
  record : ∀ (k : Nat) (e : Entry), s.log[k]? = some e → e.srec.Plain ∧ e.srec.hdr.seq = k ∧
    e.srec.hdr.flags = e.hdr.flags
  gap : ∀ (k : Nat) (e : Entry), s.log[k]? = some e → hasFlag e.hdr.flags FGapBefore = true → k = g

theorem overflow_episode {run : List KAct}
    (hrun : Meets (kstep cfg) (OverflowAct cfg g) (KState.init cfg dev0) run)
    (hs : exec (kstep cfg) (KState.init cfg dev0) run = some s)
    (hdone : ∀ f ∈ s.flights, f.stage.isEnded = true) : Episode g s := by
  have hk := KInv.reach hs
  refine ⟨fun k e he => ?_, fun k e he hgap => ?_⟩
  · have hend := log_ended hk (fun f hf _ => hdone f hf) e (List.mem_of_getElem? he)
    obtain ⟨h1, _, h3, h4⟩ := (overflow_faultless hrun hs).record hk he hend
    exact ⟨h1, h3, h4⟩
  · refine (overflow_cut hrun hs).gap k e.commit ?_ hgap
    show (s.log.map Entry.commit)[k]? = _
    rw [List.getElem?_map, he]
    rfl

/-- `l` is the part of the log from record `a` on -/
def Part (s : KState) (a : Nat) (l : List Entry) : Prop :=
  ∀ (n : Nat) (e : Entry), l[n]? = some e → s.log[a + n]? = some e

theorem part_take (s : KState) (g : Nat) : Part s 0 (s.log.take g) := by
  intro n e he
  rw [List.getElem?_take] at he
  split at he
  · rw [Nat.zero_add]
    exact he
  · cases he

theorem part_drop (s : KState) (g : Nat) : Part s g (s.log.drop g) := by
  intro n e he
  rw [← List.getElem?_drop]
  exact he

theorem mem_part {a : Nat} {l : List Entry} (hl : Part s a l) {r : SRec}
    (hr : r ∈ l.map Entry.srec) : ∃ (n : Nat) (e : Entry), l[n]? = some e ∧
      s.log[a + n]? = some e ∧ r = e.srec := by
  obtain ⟨e, he, rfl⟩ := List.mem_map.mp hr
  obtain ⟨n, hn⟩ := List.mem_iff_getElem?.mp he
  exact ⟨n, e, hn, hl n e hn, rfl⟩

theorem Episode.numbered (h : Episode g s) {a : Nat} {l : List Entry} (hl : Part s a l) :
    SeqFrom a (l.map Entry.srec) := by
  intro i r hr
  rw [List.getElem?_map] at hr
  obtain ⟨e, he, rfl⟩ := Option.map_eq_some_iff.mp hr
  exact (h.record _ e (hl i e he)).2.1

/-- numbers are below `2^63`: every record takes 56 bytes of the ring offset -/
theorem KInv.length_small (hk : KInv cfg s) : s.log.length < 2^63 := by
  have h1 := hk.log.head
  have h2 := hk.log.ring.head
  have hR : RecSize = 56 := rfl
  have h3 : s.log.length * 56 ≤ s.t.head := h1
  omega

theorem Episode.apply_pre (hk : KInv cfg s) (h : Episode g s) {e : Entry} (he : s.log[g]? = some e)
    (hgap : hasFlag e.hdr.flags FGapBefore = true) {env : ApplyEnv} (henv : env.Ample)
    {io : List Pwrite} (hio : NoError io) (img : Nat → UInt8) :
    ∃ q, applyLoop env (-1) (-1) (blocks s.log) (g + 1) (applyInit img io) = some (3, q) ∧
      q.img = replay ((preGap g s).map SRec.patch) img := by
  have hg := (List.getElem?_eq_some_iff.mp he).1
  have hsmall := hk.length_small
  have hlen : (preGap g s).length = g := by
    unfold preGap
    rw [List.length_map, List.length_take]
    omega
  have hpost : postGap g s = e.srec :: (s.log.drop (g + 1)).map Entry.srec := by
    unfold postGap
    rw [List.drop_eq_getElem_cons hg, List.map_cons]
    rw [(List.getElem?_eq_some_iff.mp he).2]
  obtain ⟨hplain, hseq, hflags⟩ := h.record g e he
  have h0 : (applyInit img io).At (blocks s.log)
      (streamBytes (preGap g s) ++ streamBytes (postGap g s)) 0 :=
    ⟨hio, stream_cut g s, fun e => by cases e⟩
  obtain ⟨q, h1, h2, h3⟩ := applyLoop_through (f:=-1) henv (preGap g s) h0
    (fun r hr => by
      obtain ⟨n, e', _, he', rfl⟩ := mem_part (part_take s g) hr
      exact (h.record _ e' he').1)
    (h.numbered (part_take s g))
    (fun r hr hf => by
      obtain ⟨n, e', hn, he', rfl⟩ := mem_part (part_take s g) hr
      have hlt := (List.getElem?_eq_some_iff.mp hn).1
      rw [List.length_take] at hlt
      rw [(h.record _ e' he').2.2] at hf
      have := h.gap _ e' he' hf
      omega)
    (by omega) (by rw [hlen]; omega)
  rw [hlen, Nat.zero_add] at h1
  have h4 : q.At (blocks s.log)
      (e.srec.bytes ++ streamBytes ((s.log.drop (g + 1)).map Entry.srec)) g := by
    rw [hpost] at h1
    exact h1
  refine ⟨q, ?_, h2⟩
  have h5 := h3 1
  rw [hlen] at h5
  rw [h5]
  exact applyLoop_gap hplain h4 hseq (by rw [hflags]; exact hgap)
    (by rw [hseq, toI64_of_lt (by omega)]; omega)

theorem Episode.apply_post (hk : KInv cfg s) (h : Episode g s) (hg : g ≤ s.log.length) {env : ApplyEnv}
    (henv : env.Ample) {io : List Pwrite} (hio : NoError io) (img : Nat → UInt8) :
    ∃ q, applyLoop env g (-1) (blocks s.log) (s.log.length + 1) (applyInit img io) = some (0, q) ∧
      q.img = replay ((postGap g s).map SRec.patch) img := by
  have hsmall := hk.length_small
  have hlen : (preGap g s).length = g ∧ (postGap g s).length = s.log.length - g := by
    unfold preGap postGap
    rw [List.length_map, List.length_map, List.length_take, List.length_drop]
    omega
  have hcut : (blocks s.log).drop (applyInit img io).pos =
      streamBytes (preGap g s) ++ streamBytes (postGap g s) := stream_cut g s
  obtain ⟨pos, h1, h2⟩ := applyLoop_skip env (f:=g) (z:=-1) (preGap g s) hcut fun r hr => by
      obtain ⟨n, e, hn, he, rfl⟩ := mem_part (part_take s g) hr
      have hlt := (List.getElem?_eq_some_iff.mp hn).1
      rw [List.length_take] at hlt
      obtain ⟨h3, h4, _⟩ := h.record _ e he
      refine ⟨h3, ?_⟩
      rw [h4, toI64_of_lt (by omega)]
      omega
  have h0 : ({ applyInit img io with pos := pos } : ApplySt).At (blocks s.log)
      (streamBytes (postGap g s) ++ []) g :=
    ⟨hio, by rw [List.append_nil]; exact h1, fun e => by cases e⟩
  obtain ⟨q, g1, g2, g3⟩ := applyLoop_through (f:=g) henv (postGap g s) h0
    (fun r hr => by
      obtain ⟨n, e, _, he, rfl⟩ := mem_part (part_drop s g) hr
      exact (h.record _ e he).1)
    (h.numbered (part_drop s g))
    (fun r hr hf => by
      obtain ⟨n, e, _, he, rfl⟩ := mem_part (part_drop s g) hr
      obtain ⟨_, h4, h5⟩ := h.record _ e he
      have hlt := (List.getElem?_eq_some_iff.mp he).1
      by_cases hn : g + n = g
      · rw [h4, hn, toI64_of_lt (by omega)]
      · rw [h5] at hf
        exact absurd (h.gap _ e he hf) hn)
    le_rfl (by rw [hlen.2]; omega)
  refine ⟨q, ?_, g2⟩
  have e1 : s.log.length + 1 = (preGap g s).length + ((postGap g s).length + 1) := by
    rw [hlen.1, hlen.2]
    omega
  rw [e1, h2, g3, applyLoop_end g1]

end

/-- **Recovery after one overflow episode is exact.**  In a run from load every drop falls between
the reservations of records `g - 1` and `g`, record `g` carries the gap flag, all bios have
completed and every record has been returned.  `cdp-apply` of the stream onto the initial content
exits 3; once the dirty extents have been copied from the device over what it left, `cdp-apply -f g`
exits 0 and leaves the content of the device. -/
theorem overflow_recovers (cfg : Config) (dev0 : Nat → UInt8) (run : List KAct) (s : KState)
    (g : Nat) (e : Entry) (env : ApplyEnv) (io io' : List Pwrite)
    (hrun : Meets (kstep cfg) (OverflowAct cfg g) (KState.init cfg dev0) run)
    (hs : exec (kstep cfg) (KState.init cfg dev0) run = some s)
    (he : s.log[g]? = some e) (hgap : hasFlag e.hdr.flags FGapBefore = true)
    (hdone : ∀ f ∈ s.flights, f.stage.isEnded = true)
    (hdrained : Delivers cfg s s.log.length) (henv : env.Ample) (hio : NoError io)
    (hio' : NoError io') :
    ∃ q q', applyLoop env (-1) (-1) s.out (g + 1) (applyInit (cfg.range dev0) io) = some (3, q) ∧
      applyLoop env g (-1) s.out (s.log.length + 1)
        (applyInit (ddAll cfg.size (cfg.range s.dev)
          (doBitmap s.dirty cfg.chunkSectors cfg.nbits) q.img) io') = some (0, q') ∧
      ∀ x, q'.img x = s.dev (cfg.start * 512 + x) := by
  have hm0 : AllMarked cfg (KState.init cfg dev0) :=
    ⟨rfl, rfl, fun c e => absurd e (by simp [KState.init]), fun f hf => absurd hf List.not_mem_nil⟩
  obtain ⟨hk, hm⟩ := exec_invariant_meets (P:=fun s => KInv cfg s ∧ AllMarked cfg s)
    (fun u a v hu hga hs => ⟨hu.1.step hs, hu.2.step hu.1 hga hs⟩) ⟨KInv.init cfg dev0, hm0⟩ hrun hs
  have ho := overflow_episode hrun hs hdone
  have hg := (List.getElem?_eq_some_iff.mp he).1
  have hout : s.out = blocks s.log := by
    rw [hdrained.blocks, List.take_length]
  rw [hout]
  obtain ⟨q, h1, h2⟩ := ho.apply_pre hk he hgap henv hio (cfg.range dev0)
  obtain ⟨q', h3, h4⟩ := ho.apply_post hk hg.le henv hio'
    (ddAll cfg.size (cfg.range s.dev) (doBitmap s.dirty cfg.chunkSectors cfg.nbits) q.img)
  refine ⟨q, q', h1, h3, fun x => ?_⟩
  rw [h4, replay_apply]
  refine overflow_content hrun hs hg hdone x _ ?_
  have hx := extents_fix hk hm q.img x
  rw [h2] at hx ⊢
  exact hx

/-- a write of 256 KiB is dropped -/
def dropped : List KAct := [.map bigWrite] ++ ([.reserve 0 5] ++ [.land 0, .endIo 0 false])

/-- then a discard inside it is logged, with the gap flag -/
def dropThenTrim : List KAct :=
  dropped ++ ([.map trimBio] ++ ([.reserve 1 6] ++ [.copy 1, .land 1, .endIo 1 false]))

theorem overflow_recovers_run : ∃ s q q', exec (kstep smallConfig)
      (KState.init smallConfig fun _ => 2) (dropThenTrim ++ readOnce) = some s ∧
    applyLoop ⟨fun _ => true, fun _ => true, fun _ => 0⟩ (-1) (-1) s.out (0 + 1)
      (applyInit (smallConfig.range fun _ => 2) []) = some (3, q) ∧
    applyLoop ⟨fun _ => true, fun _ => true, fun _ => 0⟩ ((0 : Nat) : Int) (-1) s.out
      (s.log.length + 1) (applyInit (ddAll smallConfig.size (smallConfig.range s.dev)
        (doBitmap s.dirty smallConfig.chunkSectors smallConfig.nbits) q.img) []) = some (0, q') ∧
    ∀ x, q'.img x = s.dev (smallConfig.start * 512 + x) := by
  have h : (exec (kstep smallConfig) (KState.init smallConfig fun _ => 2)
      (dropThenTrim ++ readOnce)).any (fun s => s.log.length == 1 && (s.flights.all
        (fun f => f.stage.isEnded) && (s.nread == 1 && (s.lock.isNone && (s.log[0]?).any
          fun e => hasFlag e.hdr.flags FGapBefore)))) := by
    decide
  obtain ⟨s, hs, hp⟩ := (Option.any_eq_true _ _).mp h
  rw [Bool.and_eq_true, Bool.and_eq_true, Bool.and_eq_true, Bool.and_eq_true, beq_iff_eq,
    beq_iff_eq, List.all_eq_true, Option.isNone_iff_eq_none] at hp
  obtain ⟨hlen, hall, hn, hlock, hgap⟩ := hp
  obtain ⟨e, he, hgap⟩ := (Option.any_eq_true _ _).mp hgap
  have hks := KInv.reach hs
  have hread : Delivers smallConfig s s.log.length := by
    rw [hlen, ← hn]
    exact hks.delivered hlock
  have hmeets : Meets (kstep smallConfig) (OverflowAct smallConfig 0)
      (KState.init smallConfig fun _ => 2) (dropThenTrim ++ readOnce) := by
    have h1 : (exec (kstep smallConfig) (KState.init smallConfig fun _ => 2)
        [.map bigWrite]).all (fun t => t.log.length == 0) := by decide
    have h2 : (exec (kstep smallConfig) (KState.init smallConfig fun _ => 2) dropped).all
        (fun t => t.flights.all fun f => f.stage.isEnded) := by decide
    have h3 : (exec (kstep smallConfig) (KState.init smallConfig fun _ => 2)
        (dropped ++ [.map trimBio])).all (fun t => t.log.length == 0) := by decide
    have hmap : Meets (kstep smallConfig) (OverflowAct smallConfig 0)
        (KState.init smallConfig fun _ => 2) [.map bigWrite] :=
      ⟨⟨fun f hf => absurd hf List.not_mem_nil, by decide⟩, fun _ _ => trivial⟩
    have hdrop : Meets (kstep smallConfig) (OverflowAct smallConfig 0)
        (KState.init smallConfig fun _ => 2) dropped := by
      refine meets_append hmap fun t ht => meets_append ⟨fun f a _ _ _ => ?_, fun _ _ => trivial⟩
        fun u hu => meets_of_forall (by simp [OverflowAct])
      rw [ht] at h1
      exact beq_iff_eq.mp h1
    refine meets_append (meets_append hdrop fun t ht => meets_append ⟨⟨fun f hf hal => ?_, ?_⟩,
      fun _ _ => trivial⟩ fun u hu => meets_append ⟨fun f a _ _ _ => ?_, fun _ _ => trivial⟩
        fun v hv => meets_of_forall (by simp [OverflowAct])) fun v hv =>
        meets_of_forall (by simp [readOnce, OverflowAct])
    · rw [ht] at h2
      rw [List.all_eq_true.mp h2 f hf] at hal
      exact absurd hal (by decide)
    · decide
    · rw [exec_append_some.mpr ⟨t, ht, hu⟩] at h3
      exact beq_iff_eq.mp h3
  obtain ⟨q, q', h1, h2, h3⟩ := overflow_recovers smallConfig (fun _ => 2)
    (dropThenTrim ++ readOnce) s 0 e ⟨fun _ => true, fun _ => true, fun _ => 0⟩ [] [] hmeets hs he
    hgap hall hread ⟨fun _ => rfl, fun _ => rfl⟩ (by decide) (by decide)
  exact ⟨s, q, q', hs, h1, h2, h3⟩

end CDP
