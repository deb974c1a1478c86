import DmCdp.Daemon.Feed
import DmCdp.Daemon.Extents

/-!
# Recovery from an overflow

The target with any number of writers, the main thread and the recovery thread.  A bio is one
step, and so is the copy of a chunk; the bitmap is read and cleared word by word.

* `Owed`          a byte a recovery has still to copy: its bit is set and another read-and-clear
                  is coming, the one under way has it or will take it, or it is in what remains of
                  the extents;
* `GapInv.data`   every byte is fresh or owed;
* `GapOk`         what a chunk copy must not do: leave an unread record that is older than a
                  dropped write over what it copies;
* `converges`     a run that keeps to it converges;
* `gap_stale`     the run that does not.
-/

set_option linter.unusedVariables false

namespace CDP
open Img Mach

/-! ## the machine -/

/-- where the main thread is: between two iterations, in `consume`, in `start_recovery` at word `w`
of the bitmap -/
inductive GapPc where
  | top
  | consuming (rest : List Item)
  | clearing (w : Nat) (snap : Nat → Bool)

structure GapSt where
  q : Feed
  c : Shared
  gaps : Gaps
  pc : GapPc
  -- the extents the recovery thread has still to copy
  recovery : Option (List (Nat × Nat))

/-- replica and device alike, an empty ring -/
def GapSt.init (cfg : Config) (dev : Nat → UInt8) : GapSt :=
  ⟨.init cfg dev, .init dev, ⟨none, []⟩, .top, none⟩

/-- one bio; the step is there while the record numbers stay below `2^64` -/
def bioGap (cfg : Config) (s : GapSt) (b : Bio) (ts : Nat) : Option GapSt :=
  if b.Ok cfg ∧ ts < 2^64 ∧ s.q.t.seqNext + 1 < 2^64 then
    some { s with q := s.q.write cfg b ts }
  else none

def readGap (s : GapSt) (k : Nat) : Option GapSt :=
  match s.pc with
  | .top => some { s with pc := .consuming (s.q.read k).1, q := (s.q.read k).2 }
  | _ => none

/-- one record in the loop of `consume`, or its end -/
def consumeGap (s : GapSt) : Option GapSt :=
  match s.pc with
  | .consuming (r :: rest) =>
    some { s with gaps := s.gaps.note r, c := s.c.applyOne r, pc := .consuming rest }
  | .consuming [] => some { s with pc := .top }
  | _ => none

/-- `start_recovery(self.recovery_queue.pop(0))` begins -/
def startGap (s : GapSt) : Option GapSt :=
  match s.pc, s.gaps.queue, s.recovery with
  | .top, _ :: queue, none =>
    some { s with gaps := { s.gaps with queue := queue }, pc := .clearing 0 fun _ => false }
  | _, _, _ => none

/-- one word of the bitmap; after the last one the extents go to the recovery thread -/
def clearGap (s : GapSt) : Option GapSt :=
  match s.pc with
  | .clearing w snap =>
    if w < s.q.t.nlongs then
      some { s with
        q := { s.q with t := { s.q.t with
          bitmap := fun c => if c / 64 = w then false else s.q.t.bitmap c } }
        pc := .clearing (w + 1) fun c => if c / 64 = w then s.q.t.bitmap c else snap c }
    else
      some { s with
        q := { s.q with t := { s.q.t with overflowed := false } }
        pc := .top
        recovery := some (byteExtents (bitmapExtents snap s.q.t.chunkSectors s.q.t.nbits)) }
  | _ => none

/-- the recovery thread: a chunk of which `n` bytes come back, the end of an extent, the end -/
def recoverGap (cfg : Config) (s : GapSt) (n : Nat) : Option GapSt :=
  match s.recovery with
  | some ((off, 0) :: es) => some { s with recovery := some es }
  | some ((off, rem + 1) :: es) =>
    if ReadLen cfg.size off (min (rem + 1) CopyChunk) n then
      some { s with
        c := copyChunk s.c s.q.dev off n
        recovery := some (advance n ((off, rem + 1) :: es)) }
    else none
  | some [] => some { s with recovery := none }
  | none => none

inductive GapAct where
  | bio (b : Bio) (ts : Nat)
  | read (k : Nat)
  | consume
  | start
  | clear
  | recover (n : Nat)

def gstep (cfg : Config) (s : GapSt) : GapAct → Option GapSt
  | .bio b ts => bioGap cfg s b ts
  | .read k => readGap s k
  | .consume => consumeGap s
  | .start => startGap s
  | .clear => clearGap s
  | .recover n => recoverGap cfg s n

/-! ## fresh or owed -/

def GapPc.rest : GapPc → List Item
  | .consuming rest => rest
  | _ => []

/-- the records that are not in the replica, oldest first -/
def GapSt.unread (s : GapSt) : List Item := s.pc.rest ++ s.q.unread

/-- another read-and-clear will start -/
def Coming (s : GapSt) : Prop :=
  s.q.t.gapPending = true ∨ (∃ r ∈ s.unread, hasFlag r.hdr.flags FGapBefore = true) ∨
    s.gaps.queue ≠ []

/-- the bit of the byte is set, and will be read -/
def BitDue (cfg : Config) (s : GapSt) (x : Nat) : Prop :=
  s.q.t.bitmap (cfg.chunkOf x) = true ∧ Coming s

/-- the read-and-clear under way has the bit, or will get to it -/
def ClearDue (cfg : Config) (s : GapSt) (x : Nat) : Prop :=
  ∃ w snap, s.pc = .clearing w snap ∧
    ((snap (cfg.chunkOf x) = true ∧ cfg.chunkOf x / 64 < w) ∨
      (s.q.t.bitmap (cfg.chunkOf x) = true ∧ w ≤ cfg.chunkOf x / 64))

def Owed (cfg : Config) (s : GapSt) (x : Nat) : Prop :=
  x < cfg.size ∧ (BitDue cfg s x ∨ ClearDue cfg s x ∨ ∃ l, s.recovery = some l ∧ InExtents l x)

/-- a chunk copy: where an unread record is not the newest write, the bit is set again -/
def GapOk (cfg : Config) (s : GapSt) : GapAct → Prop
  | .recover n => ∀ off rem es, s.recovery = some ((off, rem + 1) :: es) →
      ∀ x, off ≤ x → x < off + n → Newest (patches s.unread) s.q.dev x ∨ BitDue cfg s x
  | _ => True

/-- drained, no gap pending, no recovery queued or running -/
def Quiet (s : GapSt) : Prop :=
  s.pc = .top ∧ s.q.live = [] ∧ s.q.t.gapPending = false ∧ s.gaps.queue = [] ∧ s.recovery = none

/-- the replica is the device, byte for byte -/
def Converged (s : GapSt) : Prop := Quiet s → s.c.img = s.q.dev

structure GapInv (cfg : Config) (s : GapSt) : Prop where
  shape : s.q.Shape cfg
  copying : s.c.copying = none
  -- no recovery runs while the bitmap is read and cleared
  alone : ∀ w snap, s.pc = .clearing w snap → s.recovery = none
  -- record numbers increase, and lie between `gap_seen` and `seq_next`
  sorted : s.unread.Pairwise fun r r' => r.hdr.seq < r'.hdr.seq
  below : ∀ r ∈ s.unread, r.hdr.seq < s.q.t.seqNext
  seen : ∀ k, s.gaps.seen = some k → k < s.q.t.seqNext ∧ ∀ r ∈ s.unread, k < r.hdr.seq
  data : ∀ x, Fresh (patches s.unread) s.c.img s.q.dev x ∨ Owed cfg s x

/-! ## what one step keeps -/

section
variable {cfg : Config} {s s' : GapSt}

theorem GapInv.init (cfg : Config) (dev : Nat → UInt8) : GapInv cfg (GapSt.init cfg dev) := by
  refine ⟨⟨rfl, rfl⟩, rfl, fun _ _ _ => rfl, List.Pairwise.nil,
    fun r hr => absurd hr List.not_mem_nil, fun k hk => ?_, fun x => Or.inl rfl⟩
  exact absurd hk (by simp [GapSt.init])

theorem GapInv.same (h : GapInv cfg s) (hsh : s'.q.Shape cfg) (hc : s'.c = s.c)
    (hu : s'.unread = s.unread) (hq : s'.q.t.seqNext = s.q.t.seqNext) (hd : s'.q.dev = s.q.dev)
    (hg : s'.gaps.seen = s.gaps.seen)
    (ha : ∀ w snap, s'.pc = .clearing w snap → s'.recovery = none)
    (ho : ∀ x, Owed cfg s x → Owed cfg s' x) : GapInv cfg s' := by
  refine ⟨hsh, hc ▸ h.copying, ha, ?_, ?_, ?_, fun x => ?_⟩
  · rw [hu]
    exact h.sorted
  · rw [hu, hq]
    exact h.below
  · rw [hu, hq, hg]
    exact h.seen
  · rw [hu, hc, hd]
    exact (h.data x).imp_right (ho x)

theorem Owed.mono {x : Nat} (hb : ∀ c, s.q.t.bitmap c = true → s'.q.t.bitmap c = true)
    (hc : Coming s → Coming s') (hp : ∀ w snap, s.pc = .clearing w snap → s'.pc = .clearing w snap)
    (hr : s'.recovery = s.recovery) (h : Owed cfg s x) : Owed cfg s' x := by
  refine ⟨h.1, ?_⟩
  rcases h.2 with ⟨h1, h2⟩ | ⟨w, snap, h1, h2⟩ | h1
  · exact Or.inl ⟨hb _ h1, hc h2⟩
  · exact Or.inr (Or.inl ⟨w, snap, hp w snap h1, h2.imp_right fun e => ⟨hb _ e.1, e.2⟩⟩)
  · exact Or.inr (Or.inr (hr ▸ h1))

/-- **A bio**: what it writes is queued as a record, or marked with a gap to come. -/
theorem GapInv.bio {b : Bio} {ts : Nat} (h : GapInv cfg s) (hs : bioGap cfg s b ts = some s') :
    GapInv cfg s' := by
  unfold bioGap at hs
  split at hs
  · rename_i hg
    obtain rfl := Option.some.inj hs
    obtain ⟨hok, hts, hseq⟩ := hg
    obtain ⟨hm, hw⟩ := Feed.write_cases ts h.shape hok
    have hout : ∀ x, b.effect cfg x = none → (s.q.write cfg b ts).dev x = s.q.dev x := by
      intro x hx
      rw [hm.dev]
      show (b.effect cfg x).getD _ = _
      rw [hx]
      rfl
    cases hw with
    | silent hn ht hl =>
      have hdev : (s.q.write cfg b ts).dev = s.q.dev := funext fun x => hout x (hn x)
      have hu : GapSt.unread { s with q := s.q.write cfg b ts } = s.unread := by
        unfold GapSt.unread Feed.unread
        rw [hl]
      refine h.same hm.shape rfl hu (congrArg Target.seqNext ht) hdev rfl h.alone fun x hx => ?_
      refine Owed.mono (s:=s) hm.mono (fun hc => ?_) (fun _ _ e => e) rfl hx
      unfold Coming at hc ⊢
      rw [hu]
      show (s.q.write cfg b ts).t.gapPending = true ∨ _
      rw [ht]
      exact hc
    | dropped hl hgap hq =>
      have hu : GapSt.unread { s with q := s.q.write cfg b ts } = s.unread := by
        unfold GapSt.unread Feed.unread
        rw [hl]
      have hcom : Coming { s with q := s.q.write cfg b ts } := Or.inl hgap
      refine ⟨hm.shape, h.copying, h.alone, hu ▸ h.sorted, ?_, ?_, fun x => ?_⟩
      · rw [hu]
        exact hq.symm ▸ h.below
      · rw [hu]
        exact hq.symm ▸ h.seen
      · by_cases hx : b.effect cfg x = none
        · rw [hu]
          show Fresh _ _ (s.q.write cfg b ts).dev x ∨ _
          rcases h.data x with hf | ho
          · left
            unfold Fresh at hf ⊢
            rw [hout x hx]
            exact hf
          · exact Or.inr (Owed.mono (s:=s) hm.mono (fun _ => hcom) (fun _ _ e => e) rfl ho)
        · obtain ⟨h1, h2⟩ := hm.bit x hx
          exact Or.inr ⟨h2, Or.inl ⟨h1, hcom⟩⟩
    | logged off r hl hpatch hrs hflag hgap hq =>
      have hu : GapSt.unread { s with q := s.q.write cfg b ts } = s.unread ++ [r] := by
        unfold GapSt.unread Feed.unread
        rw [hl, List.map_append, ← List.append_assoc]
        rfl
      have hq' : (s.q.write cfg b ts).t.seqNext = s.q.t.seqNext + 1 := hq.trans (u64_of_lt hseq)
      refine ⟨hm.shape, h.copying, h.alone, ?_, fun r' hr' => ?_, fun k hk => ?_, fun x => ?_⟩
      · rw [hu, List.pairwise_append]
        refine ⟨h.sorted, List.pairwise_singleton _ _, fun r1 h1 r2 h2 => ?_⟩
        obtain rfl := List.mem_singleton.mp h2
        rw [hrs]
        exact h.below r1 h1
      · show r'.hdr.seq < (s.q.write cfg b ts).t.seqNext
        rw [hq']
        rw [hu] at hr'
        rcases List.mem_append.mp hr' with hr' | hr'
        · exact (h.below r' hr').trans (Nat.lt_succ_self _)
        · obtain rfl := List.mem_singleton.mp hr'
          omega
      · obtain ⟨h1, h2⟩ := h.seen k hk
        show k < (s.q.write cfg b ts).t.seqNext ∧ _
        rw [hq', hu]
        refine ⟨by omega, fun r' hr' => ?_⟩
        rcases List.mem_append.mp hr' with hr' | hr'
        · exact h2 r' hr'
        · obtain rfl := List.mem_singleton.mp hr'
          omega
      · show Fresh (patches (GapSt.unread { s with q := s.q.write cfg b ts })) s.c.img
          (s.q.write cfg b ts).dev x ∨ _
        rw [hu, patches_snoc, hpatch, hm.dev]
        rcases h.data x with hf | ho
        · exact Or.inl (fresh_write hf)
        · refine Or.inr (Owed.mono (s:=s) hm.mono (fun hc => ?_) (fun _ _ e => e) rfl ho)
          unfold Coming at hc ⊢
          rw [hu]
          rcases hc with hc | ⟨r', hr', hf⟩ | hc
          · exact Or.inr (Or.inl ⟨r, List.mem_append_right _ (List.mem_singleton_self r),
              hflag.trans hc⟩)
          · exact Or.inr (Or.inl ⟨r', List.mem_append_left _ hr', hf⟩)
          · exact Or.inr (Or.inr hc)
  · exact absurd hs (by simp)

theorem GapInv.read {k : Nat} (h : GapInv cfg s) (hs : readGap s k = some s') : GapInv cfg s' := by
  unfold readGap at hs
  split at hs
  · rename_i hpc
    obtain rfl := Option.some.inj hs
    obtain ⟨h1, h2, tail, h3⟩ := Feed.read_cases k s.q
    have hu : GapSt.unread { s with pc := .consuming (s.q.read k).1, q := (s.q.read k).2 }
        = s.unread := by
      unfold GapSt.unread
      rw [hpc]
      exact h1
    refine h.same ⟨?_, ?_⟩ rfl hu (by rw [h3]) h2 rfl (fun _ _ e => by cases e) fun x hx => ?_
    · rw [h3]
      exact h.shape.chunk
    · rw [h3]
      exact h.shape.nbits
    · refine Owed.mono (s:=s) (fun c e => ?_) (fun hc => ?_) (fun w snap e => ?_) rfl hx
      · show (s.q.read k).2.t.bitmap c = true
        rw [h3]
        exact e
      · unfold Coming at hc ⊢
        rw [hu]
        have hp : (s.q.read k).2.t.gapPending = s.q.t.gapPending := by rw [h3]
        exact hc.imp_left hp.trans
      · rw [hpc] at e
        cases e
  · exact absurd hs (by simp)

theorem note_cases {g : Gaps} {r : Item} (h : ∀ k, g.seen = some k → k < r.hdr.seq) :
    (hasFlag r.hdr.flags FGapBefore = true ∧
      g.note r = ⟨some r.hdr.seq, g.queue ++ [(r.hdr.seq : Int)]⟩) ∨
    (hasFlag r.hdr.flags FGapBefore = false ∧ g.note r = g) := by
  unfold Gaps.note
  cases hf : hasFlag r.hdr.flags FGapBefore with
  | true =>
    refine Or.inl ⟨rfl, if_pos ⟨rfl, fun e => ?_⟩⟩
    have := h r.hdr.seq e.symm
    omega
  | false => exact Or.inr ⟨rfl, if_neg fun e => Bool.noConfusion e.1⟩

/-- **`consume`**: the oldest unread record goes to the replica, a gap it carries to the queue. -/
theorem GapInv.consume (h : GapInv cfg s) (hs : consumeGap s = some s') : GapInv cfg s' := by
  unfold consumeGap at hs
  split at hs
  · rename_i r rest hpc
    obtain rfl := Option.some.inj hs
    have hu : s.unread = r :: (rest ++ s.q.unread) := by
      unfold GapSt.unread
      rw [hpc]
      rfl
    have hsorted := h.sorted
    have hbelow := h.below
    have hseen := h.seen
    rw [hu] at hsorted hbelow hseen
    have hnote := note_cases (g:=s.gaps) (r:=r)
      fun k hk => (hseen k hk).2 r List.mem_cons_self
    obtain ⟨e1, e2⟩ := applyOne_alone (r:=r) h.copying
    have htail := (List.pairwise_cons.mp hsorted)
    refine ⟨h.shape, e2, (fun _ _ e => by cases e), htail.2,
      fun r' hr' => hbelow r' (List.mem_cons_of_mem r hr'),
      fun k hk => ?_, fun x => ?_⟩
    · rcases hnote with ⟨_, hn⟩ | ⟨_, hn⟩
      · change (s.gaps.note r).seen = some k at hk
        rw [hn] at hk
        obtain rfl := Option.some.inj hk
        exact ⟨hbelow r List.mem_cons_self, htail.1⟩
      · change (s.gaps.note r).seen = some k at hk
        rw [hn] at hk
        obtain ⟨h1, h2⟩ := hseen k hk
        exact ⟨h1, fun r' hr' => h2 r' (List.mem_cons_of_mem r hr')⟩
    · show Fresh (patches (rest ++ s.q.unread)) (s.c.applyOne r).img s.q.dev x ∨ _
      rcases h.data x with hf | ho
      · left
        rw [hu] at hf
        rw [e1]
        exact fresh_head hf
      · refine Or.inr (Owed.mono (s:=s) (fun _ e => e) (fun hc => ?_) (fun w snap e => ?_) rfl ho)
        · unfold Coming at hc ⊢
          rw [hu] at hc
          show _ ∨ (∃ r' ∈ rest ++ s.q.unread, _) ∨ (s.gaps.note r).queue ≠ []
          rcases hnote with ⟨hf, hn⟩ | ⟨hf, hn⟩
          · rw [hn]
            exact Or.inr (Or.inr (List.append_ne_nil_of_right_ne_nil _ (List.cons_ne_nil _ _)))
          · rw [hn]
            rcases hc with hc | ⟨r', hr', hf'⟩ | hc
            · exact Or.inl hc
            · rcases List.mem_cons.mp hr' with rfl | hr'
              · rw [hf] at hf'
                exact absurd hf' (by decide)
              · exact Or.inr (Or.inl ⟨r', hr', hf'⟩)
            · exact Or.inr (Or.inr hc)
        · rw [hpc] at e
          cases e
  · rename_i hpc
    obtain rfl := Option.some.inj hs
    have hu : GapSt.unread { s with pc := .top } = s.unread := by
      unfold GapSt.unread
      rw [hpc]
      rfl
    refine h.same h.shape rfl hu rfl rfl rfl (fun _ _ e => by cases e) fun x hx => ?_
    refine Owed.mono (s:=s) (fun _ e => e) (fun hc => ?_) (fun w snap e => ?_) rfl hx
    · unfold Coming at hc ⊢
      rw [hu]
      exact hc
    · rw [hpc] at e
      cases e
  · exact absurd hs (by simp)

/-- **`start_recovery` begins**: a bit that was due is ahead of the read-and-clear. -/
theorem GapInv.start (h : GapInv cfg s) (hs : startGap s = some s') : GapInv cfg s' := by
  unfold startGap at hs
  split at hs
  · rename_i g queue hpc hqueue hrec
    obtain rfl := Option.some.inj hs
    refine h.same h.shape rfl ?_ rfl rfl rfl (fun _ _ _ => hrec) fun x hx => ?_
    · unfold GapSt.unread
      rw [hpc]
      rfl
    · refine ⟨hx.1, Or.inr (Or.inl ⟨0, _, rfl, Or.inr ?_⟩)⟩
      rcases hx.2 with ⟨h1, _⟩ | ⟨w, snap, h1, _⟩ | ⟨l, h1, _⟩
      · exact ⟨h1, Nat.zero_le _⟩
      · rw [hpc] at h1
        cases h1
      · rw [hrec] at h1
        cases h1
  · exact absurd hs (by simp)

/-- **The read-and-clear**: a bit it takes is in the snapshot, and what the snapshot holds at the
end is in the extents. -/
theorem GapInv.clear (h : GapInv cfg s) (hs : clearGap s = some s') : GapInv cfg s' := by
  unfold clearGap at hs
  split at hs
  · rename_i w snap hpc
    have hrec := h.alone w snap hpc
    have hu : ∀ t pc rec, pc.rest = [] → GapSt.unread ⟨{ s.q with t := t }, s.c, s.gaps, pc, rec⟩
        = s.unread := by
      intro t pc rec e
      unfold GapSt.unread
      rw [hpc, e]
      rfl
    split at hs
    · rename_i hw
      obtain rfl := Option.some.inj hs
      refine h.same ⟨h.shape.chunk, h.shape.nbits⟩ rfl (hu _ _ _ rfl) rfl rfl rfl
        (fun _ _ _ => hrec) fun x hx => ⟨hx.1, ?_⟩
      rcases hx.2 with ⟨h1, h2⟩ | ⟨w', snap', h1, h2⟩ | ⟨l, h1, _⟩
      · by_cases hc : cfg.chunkOf x / 64 = w
        · exact Or.inr (Or.inl ⟨_, _, rfl, Or.inl ⟨(if_pos hc).trans h1, by omega⟩⟩)
        · refine Or.inl ⟨(if_neg hc).trans h1, ?_⟩
          unfold Coming at h2 ⊢
          rw [hu _ _ _ rfl]
          exact h2
      · rw [hpc] at h1
        cases h1
        refine Or.inr (Or.inl ⟨_, _, rfl, ?_⟩)
        rcases h2 with ⟨h3, h4⟩ | ⟨h3, h4⟩
        · exact Or.inl ⟨(if_neg (by omega)).trans h3, by omega⟩
        · by_cases hc : cfg.chunkOf x / 64 = w
          · exact Or.inl ⟨(if_pos hc).trans h3, by omega⟩
          · exact Or.inr ⟨(if_neg hc).trans h3, by omega⟩
      · rw [hrec] at h1
        cases h1
    · rename_i hw
      obtain rfl := Option.some.inj hs
      refine h.same ⟨h.shape.chunk, h.shape.nbits⟩ rfl (hu _ _ _ rfl) rfl rfl rfl
        (fun _ _ e => by cases e) fun x hx => ⟨hx.1, ?_⟩
      rcases hx.2 with ⟨h1, h2⟩ | ⟨w', snap', h1, h2⟩ | ⟨l, h1, _⟩
      · refine Or.inl ⟨h1, ?_⟩
        unfold Coming at h2 ⊢
        rw [hu _ _ _ rfl]
        exact h2
      · rw [hpc] at h1
        cases h1
        have hlt : cfg.chunkOf x < s.q.t.nbits := h.shape.nbits ▸ Config.chunkOf_lt hx.1
        rcases h2 with ⟨h3, _⟩ | ⟨_, h4⟩
        · refine Or.inr (Or.inr
            ⟨_, rfl, inExtents_of_covered (h.shape.chunk ▸ cfg.chunkSectors_pos) ?_⟩)
          have hcov := bitmapExtents_covers s.q.t.chunkSectors hlt h3
          unfold Config.chunkOf at hcov
          rw [← h.shape.chunk] at hcov
          exact hcov
        · unfold Target.nlongs at hw
          omega
      · rw [hrec] at h1
        cases h1
  · exact absurd hs (by simp)

/-- **A chunk copy**: what it copies is fresh, where no stale record is unread. -/
theorem GapInv.recover {n : Nat} (h : GapInv cfg s) (hg : GapOk cfg s (.recover n))
    (hs : recoverGap cfg s n = some s') : GapInv cfg s' := by
  unfold recoverGap at hs
  have hclear : ∀ {w snap l}, s.recovery = some l → s.pc ≠ .clearing w snap := by
    intro w snap l e hpc
    rw [h.alone w snap hpc] at e
    cases e
  split at hs
  · rename_i off es hrec
    obtain rfl := Option.some.inj hs
    refine h.same h.shape rfl rfl rfl rfl rfl (fun _ _ e => absurd e (hclear hrec))
      fun x hx => ⟨hx.1, hx.2.imp_right fun e => e.imp_right fun ⟨l, h1, e, he, h2, h3⟩ => ?_⟩
    rw [hrec] at h1
    cases h1
    rcases List.mem_cons.mp he with rfl | he
    · exact absurd (lt_of_le_of_lt h2 h3) (by simp)
    · exact ⟨es, rfl, e, he, h2, h3⟩
  · rename_i off rem es hrec
    split at hs
    · rename_i hlen
      obtain rfl := Option.some.inj hs
      refine ⟨h.shape, rfl, fun _ _ e => absurd e (hclear hrec), h.sorted, h.below, h.seen,
        fun x => ?_⟩
      by_cases hx : off ≤ x ∧ x < off + n
      · have himg : (copyChunk s.c s.q.dev off n).img x = s.q.dev x := by
          refine (blit_in _ hx).trans ?_
          rw [Nat.add_sub_cancel' hx.1]
        rcases hg off rem es hrec x hx.1 hx.2 with hn | hb
        · exact Or.inl (fresh_of_read hn himg)
        · refine Or.inr ⟨?_, Or.inl hb⟩
          unfold ReadLen at hlen
          split at hlen <;> omega
      · rcases h.data x with hf | ho
        · exact Or.inl (hf.congr (blit_out _ hx))
        · refine Or.inr ⟨ho.1, ho.2.imp_right fun e => e.imp_right fun ⟨l, h1, h2⟩ => ?_⟩
          rw [hrec] at h1
          cases h1
          exact ⟨_, rfl, (advance_covers hlen ho.1 h2).resolve_left hx⟩
    · exact absurd hs (by simp)
  · rename_i hrec
    obtain rfl := Option.some.inj hs
    refine h.same h.shape rfl rfl rfl rfl rfl (fun _ _ _ => rfl)
      fun x hx => ⟨hx.1, hx.2.imp_right fun e => e.imp_right fun ⟨l, h1, e, he, h2⟩ => ?_⟩
    rw [hrec] at h1
    cases h1
    exact absurd he List.not_mem_nil
  · exact absurd hs (by simp)

theorem GapInv.step {a : GapAct} (h : GapInv cfg s) (hg : GapOk cfg s a)
    (hs : gstep cfg s a = some s') : GapInv cfg s' := by
  cases a with
  | bio b ts => exact h.bio hs
  | read k => exact h.read hs
  | consume => exact h.consume hs
  | start => exact h.start hs
  | clear => exact h.clear hs
  | recover n => exact h.recover hg hs

end

/-- **Convergence after overflow**, in a run that meets `GapOk`. -/
theorem converges (cfg : Config) (dev : Nat → UInt8) (as : List GapAct) (s : GapSt)
    (hg : Meets (gstep cfg) (GapOk cfg) (GapSt.init cfg dev) as)
    (h : exec (gstep cfg) (GapSt.init cfg dev) as = some s) : Converged s := by
  have hi := exec_invariant_meets (P:=GapInv cfg) (fun u a v hu hga hs => hu.step hga hs)
    (GapInv.init cfg dev) hg h
  rintro ⟨hpc, hlive, hgap, hqueue, hrec⟩
  have hu : s.unread = [] := by
    unfold GapSt.unread Feed.unread
    rw [hpc, hlive]
    rfl
  funext x
  rcases hi.data x with hf | ⟨_, ho⟩
  · rw [hu] at hf
    exact fresh_nil.mp hf
  · rcases ho with ⟨_, hc⟩ | ⟨w, snap, h1, _⟩ | ⟨l, h1, _⟩
    · rcases hc with hc | ⟨r, hr, _⟩ | hc
      · rw [hgap] at hc
        exact absurd hc (by decide)
      · rw [hu] at hr
        exact absurd hr List.not_mem_nil
      · exact absurd hqueue hc
    · rw [hpc] at h1
      cases h1
    · rw [hrec] at h1
      cases h1

/-! ## the runs -/

def GapPc.isTop : GapPc → Bool
  | .top => true
  | _ => false

theorem GapPc.isTop_iff {pc : GapPc} : pc.isTop = true ↔ pc = .top := by
  cases pc <;> simp [GapPc.isTop]

def GapAct.isRecover : GapAct → Bool
  | .recover _ => true
  | _ => false

def smallDiscard : Bio := ⟨.discard, 0, 4096, false, false, fun _ => 0⟩

/-- the next record is read and consumed -/
def pull : List GapAct := [.read 1, .consume, .consume]

/-- a write is dropped, the flush behind it carries the gap, the recovery copies four chunks -/
def gapRun : List GapAct :=
  [.bio bigWrite 0, .bio flushBio 0] ++ pull ++ [.start, .clear, .clear, .recover 262144,
    .recover 0, .recover 0]

theorem converges_run : ∃ s, exec (gstep smallConfig) (GapSt.init smallConfig fun _ => 0) gapRun
    = some s ∧ (s.q.t.overflows = 1 ∧ s.q.dev 5 = 1 ∧ Quiet s) ∧ Converged s := by
  have h : (exec (gstep smallConfig) (GapSt.init smallConfig fun _ => 0) gapRun).any
      (fun s => s.q.t.overflows == 1 && (s.q.dev 5 == 1 && (s.pc.isTop && (s.q.live.isEmpty &&
        (!s.q.t.gapPending && (s.gaps.queue.isEmpty && s.recovery.isNone)))))) = true := by
    decide +kernel
  obtain ⟨s, hs, hp⟩ := (Option.any_eq_true _ _).mp h
  simp only [Bool.and_eq_true, Bool.not_eq_true', List.isEmpty_iff, Option.isNone_iff_eq_none,
    beq_iff_eq] at hp
  obtain ⟨h1, h2, h3, h4⟩ := hp
  -- nothing is unread when a chunk is copied
  have hg : ∀ (t : GapSt) (a : GapAct), (t.unread.isEmpty || !a.isRecover) = true →
      GapOk smallConfig t a := by
    intro t a ha
    cases a with
    | recover n =>
      intro off rem es _ x _ _
      have hu : t.unread = [] := by simpa [GapAct.isRecover] using ha
      rw [hu]
      exact Or.inl (newest_nil _ x)
    | bio b ts => trivial
    | read k => trivial
    | consume => trivial
    | start => trivial
    | clear => trivial
  exact ⟨s, hs, ⟨h1, h2, GapPc.isTop_iff.mp h3, h4⟩,
    converges smallConfig (fun _ => 0) gapRun s (meets_of_meetsB hg (by decide +kernel)) hs⟩

/-- the same, but before `start_recovery` a discard is logged and a second write over it dropped;
the recovery copies that write, then the discard is consumed -/
def gapRace : List GapAct :=
  [.bio bigWrite 0, .bio flushBio 0] ++ pull ++ [.bio smallDiscard 0, .bio bigWrite 0, .start,
    .clear, .clear, .recover 262144, .recover 0, .recover 0] ++ pull ++ [.bio flushBio 0] ++
    pull ++ [.start, .clear, .clear, .recover 0]

/-- **The race**: the discard is older than what the recovery copied, and the second gap finds an
empty bitmap. -/
theorem gap_stale : ∃ s, exec (gstep smallConfig) (GapSt.init smallConfig fun _ => 0) gapRace
    = some s ∧ ¬Converged s := by
  have h : (exec (gstep smallConfig) (GapSt.init smallConfig fun _ => 0) gapRace).any
      (fun s => s.pc.isTop && (s.q.live.isEmpty && (!s.q.t.gapPending && (s.gaps.queue.isEmpty &&
        (s.recovery.isNone && s.c.img 0 != s.q.dev 0))))) = true := by
    decide +kernel
  obtain ⟨s, hs, hp⟩ := (Option.any_eq_true _ _).mp h
  simp only [Bool.and_eq_true, Bool.not_eq_true', List.isEmpty_iff, Option.isNone_iff_eq_none,
    bne_iff_ne] at hp
  obtain ⟨h1, h2, h3, h4, h5, hne⟩ := hp
  exact ⟨s, hs, fun hall => hne (congrFun (hall ⟨GapPc.isTop_iff.mp h1, h2, h3, h4, h5⟩) 0)⟩

end CDP
