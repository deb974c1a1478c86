import DmCdp.Kernel.Commits
import DmCdp.Tools.Recover

/-!
# Recovery from any number of overflows

`cdp-apply` exits 3 at every record with the gap flag.  The dirty extents are then copied from the
device, and `cdp-apply -f` goes on at that record; and so on until it exits 0 (`recoverAll`).  The
extents are the same each time: a list taken with `cdp-drain -B` is kept.

* `recoverAll_resync`   on a stream of plain records this is the replay with repairs;
* `EpisodeAct`          drops are allowed anywhere in the run;
* `episodes_recover`    the recovered image is the device.
-/

set_option linter.unusedVariables false

namespace CDP
open Img Mach CommitLog

/-! ## the calls of `cdp-apply` -/

/-- `cdp-apply`, and after each exit 3 the extents (`fix`) and `cdp-apply -f` from the gap on;
`io n` is what the `pwrite` calls do when `n` more calls are allowed -/
def recoverAll (env : ApplyEnv) (fix : (Nat → UInt8) → Nat → UInt8) (strm : List UInt8)
    (io : Nat → List Pwrite) : Nat → Int → (Nat → UInt8) → Option (Nat × (Nat → UInt8))
  | 0, _, _ => none
  | n + 1, fromSeq, img =>
    match applyLoop env fromSeq (-1) strm (strm.length + 1) (applyInit img (io n)) with
    | some (3, q) => recoverAll env fix strm io n (Rec.parse (strm.drop q.pos)).seq (fix q.img)
    | some (rc, q) => some (rc, q.img)
    | none => none

/-- the record carries the gap flag -/
def SRec.gap (r : SRec) : Bool := hasFlag r.hdr.flags FGapBefore

def SRec.commit (r : SRec) : CommitLog.Rec Nat UInt8 := ⟨r.patch, r.gap⟩

/-! ## one call -/

theorem SeqFrom.drop {j : Nat} {l l' : List SRec} (h : SeqFrom j (l ++ l')) :
    SeqFrom (j + l.length) l' := by
  intro i r hr
  rw [h (l.length + i) r (by rw [List.getElem?_append_right (by omega)]; simpa using hr)]
  omega

theorem SeqFrom.take {j : Nat} {l l' : List SRec} (h : SeqFrom j (l ++ l')) : SeqFrom j l := by
  intro i r hr
  exact h i r (by rw [List.getElem?_append_left (Slots.lt_length hr)]; exact hr)

section
variable {env : ApplyEnv} {fromSeq : Int} {io : List Pwrite}

/-- **One call** skips the records before the resume point and applies those up to the next gap. -/
theorem applyLoop_part (pre mid post : List SRec) (henv : env.Ample) (hio : NoError io)
    (hplain : ∀ r ∈ pre ++ (mid ++ post), r.Plain) (hseq : SeqFrom 0 (pre ++ (mid ++ post)))
    (hlen : (pre ++ (mid ++ post)).length < 2^63)
    (hpre : ∀ i, i < pre.length → (i : Int) < fromSeq) (hfrom : fromSeq ≤ pre.length)
    (hgap : ∀ r ∈ mid, r.gap = true → toI64 r.hdr.seq = fromSeq) (img : Nat → UInt8) :
    ∃ q : ApplySt, q.At (streamBytes (pre ++ (mid ++ post))) (streamBytes post)
        (pre.length + mid.length) ∧
      q.img = replay (mid.map SRec.patch) img ∧ ∃ fuel,
      applyLoop env fromSeq (-1) (streamBytes (pre ++ (mid ++ post)))
        ((streamBytes (pre ++ (mid ++ post))).length + 1) (applyInit img io) =
        applyLoop env fromSeq (-1) (streamBytes (pre ++ (mid ++ post))) (fuel + 1) q := by
  have hs : streamBytes (pre ++ (mid ++ post)) =
      streamBytes pre ++ (streamBytes mid ++ streamBytes post) := by
    rw [streamBytes_append, streamBytes_append]
  rw [List.length_append, List.length_append] at hlen
  have hn : pre.length + (mid.length + post.length) ≤
      (streamBytes (pre ++ (mid ++ post))).length := by
    have h := length_streamBytes (pre ++ (mid ++ post))
    rw [List.length_append, List.length_append] at h
    exact h
  obtain ⟨pos, h1, h2⟩ := applyLoop_skip (f:=fromSeq) (z:=-1) env pre
    (q:=applyInit img io) (s:=streamBytes (pre ++ (mid ++ post))) hs fun r hr => by
      refine ⟨hplain r (List.mem_append_left _ hr), ?_⟩
      obtain ⟨i, hi⟩ := List.mem_iff_getElem?.mp hr
      have hil := Slots.lt_length hi
      rw [hseq.take i r hi, toI64_of_lt (by omega), Nat.zero_add]
      exact hpre i hil
  have h0 : ({ applyInit img io with pos := pos } : ApplySt).At
      (streamBytes (pre ++ (mid ++ post))) (streamBytes mid ++ streamBytes post) pre.length :=
    ⟨hio, h1, fun e => by cases e⟩
  have hseq' : SeqFrom pre.length (mid ++ post) := by
    have := hseq.drop
    rwa [Nat.zero_add] at this
  obtain ⟨q, g1, g2, g3⟩ := applyLoop_through henv mid h0
    (fun r hr => hplain r (List.mem_append_right _ (List.mem_append_left _ hr))) hseq'.take hgap
    hfrom (by omega)
  refine ⟨q, g1, g2, (streamBytes (pre ++ (mid ++ post))).length - (pre.length + mid.length), ?_⟩
  have e : (streamBytes (pre ++ (mid ++ post))).length + 1 = pre.length + (mid.length +
      ((streamBytes (pre ++ (mid ++ post))).length - (pre.length + mid.length) + 1)) := by
    omega
  rw [e, h2, g3]

end

/-! ## all calls -/

theorem split_gap (l : List SRec) : ∃ a b, l = a ++ b ∧ (∀ r ∈ a, r.gap = false) ∧
    (b = [] ∨ ∃ r b', b = r :: b' ∧ r.gap = true) := by
  induction l with
  | nil => exact ⟨[], [], rfl, fun r hr => absurd hr List.not_mem_nil, Or.inl rfl⟩
  | cons r l ih =>
    cases hg : r.gap with
    | true =>
      exact ⟨[], r :: l, rfl, fun r hr => absurd hr List.not_mem_nil, Or.inr ⟨r, l, rfl, hg⟩⟩
    | false =>
      obtain ⟨a, b, rfl, ha, hb⟩ := ih
      refine ⟨r :: a, b, rfl, fun x hx => ?_, hb⟩
      rcases List.mem_cons.mp hx with rfl | hx
      · exact hg
      · exact ha x hx

theorem resync_quiet {fix : (Nat → UInt8) → Nat → UInt8} {l : List SRec}
    (h : ∀ r ∈ l, r.gap = false) (img : Nat → UInt8) :
    resync fix (l.map SRec.commit) img = replay (l.map SRec.patch) img := by
  rw [resync_replay fun r hr => ?_, List.map_map]
  · rfl
  · obtain ⟨x, hx, rfl⟩ := List.mem_map.mp hr
    exact h x hx

/-- **The calls from a resume point on.**  `hd` is the record at the resume point, or nothing in the
first call. -/
theorem recoverAll_from {env : ApplyEnv} {fix : (Nat → UInt8) → Nat → UInt8} {rs : List SRec}
    {io : Nat → List Pwrite} (henv : env.Ample) (hio : ∀ n, NoError (io n))
    (hplain : ∀ r ∈ rs, r.Plain) (hseq : SeqFrom 0 rs) (hlen : rs.length < 2^63) {fuel : Nat} :
    ∀ (pre hd l : List SRec) {fromSeq : Int} {img : Nat → UInt8}, rs = pre ++ (hd ++ l) →
      (l.filter SRec.gap).length < fuel → (∀ i, i < pre.length → (i : Int) < fromSeq) →
      fromSeq ≤ pre.length → fromSeq < pre.length + hd.length →
      (∀ r ∈ hd, toI64 r.hdr.seq = fromSeq) →
      recoverAll env fix (streamBytes rs) io fuel fromSeq img =
        some (0, resync fix (l.map SRec.commit) (replay (hd.map SRec.patch) img)) := by
  induction fuel with
  | zero =>
    intro pre hd l fromSeq img _ hf
    exact absurd hf (Nat.not_lt_zero _)
  | succ fuel ih =>
    intro pre hd l fromSeq img hrs hf hpre hfrom hhi hhd
    obtain ⟨a, b, rfl, ha, hb⟩ := split_gap l
    have hrs' : rs = pre ++ ((hd ++ a) ++ b) := by rw [hrs, List.append_assoc]
    have hgap : ∀ r ∈ hd ++ a, r.gap = true → toI64 r.hdr.seq = fromSeq := by
      intro r hr hg
      rcases List.mem_append.mp hr with hr | hr
      · exact hhd r hr
      · rw [ha r hr] at hg
        cases hg
    obtain ⟨q, h1, h2, n, h3⟩ := applyLoop_part pre (hd ++ a) b henv (hio fuel)
      (hrs' ▸ hplain) (hrs' ▸ hseq) (hrs' ▸ hlen) hpre hfrom hgap img
    rw [← hrs'] at h1 h3
    have himg : q.img = resync fix (a.map SRec.commit) (replay (hd.map SRec.patch) img) := by
      rw [h2, resync_quiet ha, List.map_append, replay_append]
    unfold recoverAll
    rw [h3]
    rcases hb with rfl | ⟨r, b', rfl, hg⟩
    · rw [applyLoop_end h1, List.append_nil]
      show some (0, q.img) = _
      rw [himg]
    · -- the call stops at `r`, and the next one resumes there
      have hr : r ∈ rs := by rw [hrs']; simp
      have hnum : r.hdr.seq = pre.length + (hd ++ a).length := by
        have h := hseq
        rw [hrs', ← List.append_assoc] at h
        have := h.drop 0 r rfl
        rw [List.length_append] at this
        omega
      have hlt : pre.length + (hd ++ a).length < rs.length := by
        rw [hrs']
        simp
      have hi64 : toI64 r.hdr.seq = (pre.length + (hd ++ a).length : Nat) := by
        rw [hnum, toI64_of_lt (by omega)]
      have hstop : fromSeq < toI64 r.hdr.seq := by
        rw [hi64, List.length_append]
        omega
      rw [applyLoop_gap (hplain r hr) h1 hnum hg hstop]
      show recoverAll env fix (streamBytes rs) io fuel
        (Rec.parse ((streamBytes rs).drop q.pos)).seq (fix q.img) = _
      have hparse : (Rec.parse ((streamBytes rs).drop q.pos)).seq = r.hdr.seq := by
        rw [h1.here]
        show (Rec.parse (r.bytes ++ streamBytes b')).seq = _
        rw [r.parse_bytes (hplain r hr).fits]
      rw [hparse, ih (pre ++ (hd ++ a)) [r] b' (by rw [hrs']; simp) ?_ ?_ ?_ ?_ ?_]
      · rw [List.map_append, resync_append, ← himg]
        show _ = some (0, resync fix (b'.map SRec.commit)
          (overlay r.patch (if r.gap then fix q.img else q.img)))
        rw [hg, if_pos rfl]
        rfl
      · rw [List.filter_append, List.length_append, List.filter_cons_of_pos hg,
          List.length_cons] at hf
        omega
      · intro i hi
        rw [List.length_append] at hi
        omega
      · rw [hnum]
        simp
      · rw [hnum]
        simp
      · intro x hx
        obtain rfl := List.mem_singleton.mp hx
        rw [hi64, hnum]

/-- **All calls together replay the stream with repairs.** -/
theorem recoverAll_resync {env : ApplyEnv} {fix : (Nat → UInt8) → Nat → UInt8} {rs : List SRec}
    {io : Nat → List Pwrite} (henv : env.Ample) (hio : ∀ n, NoError (io n))
    (hplain : ∀ r ∈ rs, r.Plain) (hseq : SeqFrom 0 rs) (hlen : rs.length < 2^63) {fuel : Nat}
    (hfuel : (rs.filter SRec.gap).length < fuel) (img : Nat → UInt8) :
    recoverAll env fix (streamBytes rs) io fuel (-1) img =
      some (0, resync fix (rs.map SRec.commit) img) := by
  refine recoverAll_from henv hio hplain hseq hlen [] [] rs rfl hfuel ?_ ?_ ?_ ?_
  · intro i hi
    exact absurd hi (Nat.not_lt_zero i)
  · show (-1 : Int) ≤ (0 : Nat)
    omega
  · show (-1 : Int) < (0 : Nat) + (0 : Nat)
    omega
  · intro r hr
    exact absurd hr List.not_mem_nil

/-! ## the run -/

/-- a new bio overlaps none in flight, discards are not empty, the device reports no error; no
read-and-clear loses its bits, and nothing is re-read during the run -/
def EpisodeAct (cfg : Config) (s : KState) : KAct → Prop
  | .map b => (∀ f ∈ s.flights, f.stage.isEnded = false → ¬Overlap cfg b f.bio) ∧
      ((b.op = .discard ∨ b.op = .secureErase ∨ b.op = .writeZeroes) → 0 < b.bytes)
  | .endIo _ error => error = false
  | .clearDone ok => ok = true
  | .reread _ => False
  | _ => True

section
variable {cfg : Config} {dev0 : Nat → UInt8} {s s' : KState}

theorem EpisodeAct.quiet {a : KAct} (h : EpisodeAct cfg s a) : QuietAct cfg s a := by
  cases a with
  | map b => exact h.1
  | endIo i error => exact h
  | _ => trivial

theorem EpisodeAct.overflow {a : KAct} (h : EpisodeAct cfg s a) :
    OverflowAct cfg s.log.length s a := by
  cases a with
  | reserve i ts => exact fun _ _ _ _ _ => rfl
  | _ => exact h

theorem EpisodeAct.faultless {a : KAct} (h : EpisodeAct cfg s a) : FaultlessAct a :=
  OverflowAct.faultless h.overflow

theorem record_commit (hk : KInv cfg s) (h : Faultless s)
    (hdone : ∀ f ∈ s.flights, f.stage.isEnded = true) {k : Nat} {e : Entry}
    (he : s.log[k]? = some e) : e.srec.Plain ∧ e.srec.hdr.seq = k ∧ e.srec.commit = e.commit := by
  obtain ⟨h1, _, h3, h4⟩ :=
    h.record hk he (log_ended hk (fun f hf _ => hdone f hf) e (List.mem_of_getElem? he))
  refine ⟨h1, h3, ?_⟩
  unfold SRec.commit SRec.gap Entry.commit
  rw [h4]

end

theorem stream_recovers {cfg : Config} {dev0 : Nat → UInt8} {run : List KAct} {s : KState}
    {env : ApplyEnv} {io : Nat → List Pwrite} {calls : Nat}
    (hrun : Meets (kstep cfg) (EpisodeAct cfg) (KState.init cfg dev0) run)
    (hs : exec (kstep cfg) (KState.init cfg dev0) run = some s)
    (hgap : s.t.gapPending = false) (hdone : ∀ f ∈ s.flights, f.stage.isEnded = true)
    (henv : env.Ample) (hio : ∀ n, NoError (io n))
    (hcalls : (s.log.filter fun e => hasFlag e.hdr.flags FGapBefore).length < calls) :
    ∃ img, recoverAll env
        (ddAll cfg.size (cfg.range s.dev) (doBitmap s.dirty cfg.chunkSectors cfg.nbits))
        (blocks s.log) io calls (-1) (cfg.range dev0) = some (0, img) ∧
      ∀ x, img x = s.dev (cfg.start * 512 + x) := by
  have hm0 : AllMarked cfg (KState.init cfg dev0) :=
    ⟨rfl, rfl, fun c e => absurd e (by simp [KState.init]), fun f hf => absurd hf List.not_mem_nil⟩
  obtain ⟨hk, hm⟩ := exec_invariant_meets (P:=fun s => KInv cfg s ∧ AllMarked cfg s)
    (fun u a v hu hg hs => ⟨hu.1.step hs, hu.2.step hu.1 hg.overflow hs⟩)
    ⟨KInv.init cfg dev0, hm0⟩ hrun hs
  have hf : Faultless s := Faultless.reach (hrun.imp fun _ _ => EpisodeAct.faultless) hs
  have hq : Meets (kstep cfg) (QuietAct cfg) (KState.init cfg dev0) run :=
    hrun.imp fun _ _ => EpisodeAct.quiet
  have hord := commits_ordered hq hs
  have hrec : ∀ {k : Nat} {r : SRec}, (s.log.map Entry.srec)[k]? = some r →
      r.Plain ∧ r.hdr.seq = 0 + k := by
    intro k r hr
    rw [List.getElem?_map] at hr
    obtain ⟨e, he, rfl⟩ := Option.map_eq_some_iff.mp hr
    obtain ⟨h1, h2, _⟩ := record_commit hk hf hdone he
    exact ⟨h1, by rw [h2, Nat.zero_add]⟩
  have hcommit : (s.log.map Entry.srec).map SRec.commit = s.log.map Entry.commit := by
    rw [List.map_map]
    refine List.map_congr_left fun e he => ?_
    obtain ⟨k, hk'⟩ := List.mem_iff_getElem?.mp he
    exact (record_commit hk hf hdone hk').2.2
  have hcount : ((s.log.map Entry.srec).filter SRec.gap).length < calls := by
    rw [List.filter_map, List.length_map]
    have e : s.log.filter (SRec.gap ∘ Entry.srec) =
        s.log.filter fun e => hasFlag e.hdr.flags FGapBefore := by
      refine List.filter_congr fun e he => ?_
      obtain ⟨k, hk'⟩ := List.mem_iff_getElem?.mp he
      exact congrArg CommitLog.Rec.gap (record_commit hk hf hdone hk').2.2
    rw [e]
    exact hcalls
  rw [← streamBytes_blocks, recoverAll_resync henv hio
    (fun r hr => (hrec (List.mem_iff_getElem?.mp hr).choose_spec).1) (fun i r hr => (hrec hr).2)
    (by rw [List.length_map]; exact hk.length_small) hcount]
  refine ⟨_, rfl, fun x => ?_⟩
  rw [hcommit]
  exact congrFun (hord.resync (commits_settled hk hf fun f hm _ => hdone f hm) hgap fun img a => extents_fix hk hm img a) x

/-- **Recovery from any number of overflows is exact.**  In a run from load bios are dropped anywhere
and any number of times; at its end all bios have completed, a record has been logged after the last
drop, and every record has been returned.  `cdp-apply` of the stream onto the initial content, the
dirty extents copied from the device and `cdp-apply -f` after each exit 3, ends with exit 0 and the
content of the device, as soon as one call more than there are gap flags is allowed. -/
theorem episodes_recover (cfg : Config) (dev0 : Nat → UInt8) (run : List KAct) (s : KState)
    (env : ApplyEnv) (io : Nat → List Pwrite) (calls : Nat)
    (hrun : Meets (kstep cfg) (EpisodeAct cfg) (KState.init cfg dev0) run)
    (hs : exec (kstep cfg) (KState.init cfg dev0) run = some s)
    (hgap : s.t.gapPending = false) (hdone : ∀ f ∈ s.flights, f.stage.isEnded = true)
    (hdrained : Delivers cfg s s.log.length) (henv : env.Ample) (hio : ∀ n, NoError (io n))
    (hcalls : (s.log.filter fun e => hasFlag e.hdr.flags FGapBefore).length < calls) :
    ∃ img, recoverAll env
        (ddAll cfg.size (cfg.range s.dev) (doBitmap s.dirty cfg.chunkSectors cfg.nbits))
        s.out io calls (-1) (cfg.range dev0) = some (0, img) ∧
      ∀ x, img x = s.dev (cfg.start * 512 + x) := by
  rw [hdrained.blocks, List.take_length]
  exact stream_recovers hrun hs hgap hdone henv hio hcalls

/-- two overflows, each followed by a discard inside the dropped write -/
def twoEpisodes : List KAct :=
  [.map bigWrite, .reserve 0 5, .land 0, .endIo 0 false,
    .map trimBio, .reserve 1 6, .copy 1, .land 1, .endIo 1 false,
    .map bigWrite, .reserve 2 7, .land 2, .endIo 2 false,
    .map trimBio, .reserve 3 8, .copy 3, .land 3, .endIo 3 false] ++
  ([.call 0 4096 true] ++ List.replicate 12 (.reader 0 true))

/-- each new bio comes when all others have ended -/
def oneByOne (s : KState) : KAct → Bool
  | .map b => s.flights.all (fun f => f.stage.isEnded) && decide (0 < b.bytes)
  | .endIo _ error => !error
  | .clearDone ok => ok
  | .reread _ => false
  | _ => true

theorem oneByOne_episode (cfg : Config) (s : KState) (a : KAct) (h : oneByOne s a = true) :
    EpisodeAct cfg s a := by
  cases a with
  | map b => exact ⟨(alone_apart cfg h).1, fun _ => (alone_apart cfg h).2⟩
  | endIo i error => exact (Bool.not_eq_true' error).mp h
  | clearDone ok => exact h
  | reread c => cases h
  | _ => trivial

theorem episodes_recover_two : ∃ s img, exec (kstep smallConfig)
      (KState.init smallConfig fun _ => 2) twoEpisodes = some s ∧
    recoverAll ⟨fun _ => true, fun _ => true, fun _ => 0⟩ (ddAll smallConfig.size
      (smallConfig.range s.dev) (doBitmap s.dirty smallConfig.chunkSectors smallConfig.nbits))
      s.out (fun _ => [.wrote 100, .eintr]) 3 (-1) (smallConfig.range fun _ => 2) = some (0, img) ∧
    ∀ x, img x = s.dev (smallConfig.start * 512 + x) := by
  have h : (exec (kstep smallConfig) (KState.init smallConfig fun _ => 2) twoEpisodes).any
      (fun s => s.log.length == 2 && (s.flights.all (fun f => f.stage.isEnded) &&
        (s.nread == 2 && (s.lock.isNone && (!s.t.gapPending &&
          decide ((s.log.filter fun e => hasFlag e.hdr.flags FGapBefore).length < 3)))))) := by
    decide
  have hmeets : meetsB (kstep smallConfig) oneByOne (KState.init smallConfig fun _ => 2)
      twoEpisodes = true := by
    decide
  obtain ⟨s, hs, hp⟩ := (Option.any_eq_true _ _).mp h
  simp only [Bool.and_eq_true, beq_iff_eq, List.all_eq_true, Option.isNone_iff_eq_none,
    Bool.not_eq_true', decide_eq_true_eq] at hp
  obtain ⟨hlen, hall, hn, hlock, hgap, hcount⟩ := hp
  have hks := KInv.reach hs
  have hread : Delivers smallConfig s s.log.length := by
    rw [hlen, ← hn]
    exact hks.delivered hlock
  obtain ⟨img, h1, h2⟩ := episodes_recover smallConfig (fun _ => 2) twoEpisodes s
    ⟨fun _ => true, fun _ => true, fun _ => 0⟩ (fun _ => [.wrote 100, .eintr]) 3
    (meets_of_meetsB (oneByOne_episode smallConfig) hmeets) hs hgap hall hread
    ⟨fun _ => rfl, fun _ => rfl⟩ (fun _ => by decide) hcount
  exact ⟨s, img, hs, h1, h2⟩

end CDP
