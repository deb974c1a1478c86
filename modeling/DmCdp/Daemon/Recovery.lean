import DmCdp.Daemon.Extents

/-!
# A recovery is only forgotten when it is complete

`recover` with its two loops, one step after the other: `stop` may be set between any two of them, and
the daemon may end anywhere, after which `main` starts again from `recovery.json`.

* `recoverStep`        the machine; the device does not change;
* `RecoverInv`         what holds between any two steps;
* `recover_complete`   once `recovery.json` is gone the replica is the device on the listed bytes;
                       nothing else of it has changed.
-/

set_option linter.unusedVariables false

namespace CDP
open Img Mach

/-! ## the machine -/

/-- where the thread is in `recover`; the extents are in sectors, `off` and `rem` in bytes -/
inductive RecoverPc where
  /-- in front of the next extent -/
  | extents (es : List (Nat × Nat))
  /-- in front of `while remaining and not stop` -/
  | test (off rem : Nat) (es : List (Nat × Nat))
  /-- in `copy_chunk` -/
  | chunk (pc : ChunkPc) (off rem : Nat) (es : List (Nat × Nat))
  /-- in front of `if stop` -/
  | ended
  /-- in front of `os.unlink` -/
  | synced

structure RecoverSt where
  c : Shared
  /-- the length of `replica.raw` -/
  eof : Nat
  /-- `recovery.json` -/
  file : Option (List (Nat × Nat))
  stop : Bool
  thread : Option RecoverPc

inductive RecoverAct where
  /-- the thread takes a step; a read returns `m` bytes -/
  | go (m : Nat)
  | stop
  /-- an exception ends the thread -/
  | raise
  /-- the process ends, and is started again -/
  | restart

/-- the length of a file after `os.pwrite(fd, buf, off)` -/
def pwriteEof (eof off : Nat) (buf : List UInt8) : Nat :=
  if buf = [] then eof else max eof (off + buf.length)

/-- the length of the replica after a step of `copy_chunk` -/
def ChunkPc.eof (eof : Nat) : ChunkPc → Nat
  | .holding off n buf => pwriteEof eof off buf
  | _ => eof

def recoverChunk (size : Nat) (dev : Nat → UInt8) (s : RecoverSt) (m : Nat) (pc : ChunkPc)
    (off rem : Nat) (es : List (Nat × Nat)) : Option RecoverSt :=
  match pc with
  | .replaying n [] =>
    -- `if not n: break`
    if n = 0 then some { s with thread := some (.extents es) }
    else some { s with thread := some (.test (off + n) (rem - n) es) }
  | pc =>
    if pc.ReadOk size m then
      (chunkStep false dev m s.c pc).map fun p =>
        { s with c := p.1, eof := pc.eof s.eof, thread := some (.chunk p.2 off rem es) }
    else none

def recoverGo (size : Nat) (dev : Nat → UInt8) (s : RecoverSt) (m : Nat) :
    RecoverPc → Option RecoverSt
  | .extents [] => some { s with thread := some .ended }
  | .extents ((sector, nsect) :: es) =>
    some { s with thread := some (.test (sector * 512) (nsect * 512) es) }
  | .test off rem es =>
    if rem ≠ 0 ∧ s.stop = false then
      some { s with
        c := s.c.flag off (min rem CopyChunk)
        thread := some (.chunk (.flagged off (min rem CopyChunk)) off rem es) }
    else some { s with thread := some (.extents es) }
  | .chunk pc off rem es => recoverChunk size dev s m pc off rem es
  | .ended => some { s with thread := if s.stop then none else some .synced }
  | .synced => some { s with file := none, thread := none }

def recoverStep (size : Nat) (dev : Nat → UInt8) (s : RecoverSt) : RecoverAct → Option RecoverSt
  | .go m => s.thread.bind (recoverGo size dev s m)
  | .stop => some { s with stop := true }
  | .raise => some { s with thread := none }
  | .restart =>
    some { s with
      c := .init s.c.img
      stop := false
      thread := s.file.map .extents }

/-- the end of `start_recovery` -/
def RecoverSt.start (size : Nat) (img : Nat → UInt8) (es : List (Nat × Nat)) : RecoverSt :=
  ⟨.init img, size, some es, false, some (.extents es)⟩

/-! ## the invariant -/

/-- what is still to be copied, in bytes -/
def RecoverPc.left : RecoverPc → List (Nat × Nat)
  | .extents es => byteExtents es
  | .test off rem es => (off, rem) :: byteExtents es
  | .chunk _ off rem es => (off, rem) :: byteExtents es
  | .ended => []
  | .synced => []

/-- the `n` bytes at `off` that `copy_chunk` has read are in the replica -/
structure Landed (size : Nat) (dev img : Nat → UInt8) (off len n : Nat) : Prop where
  read : ReadLen size off len n
  eq : ∀ x, off ≤ x → x < off + n → img x = dev x

/-- the chunk in flight is the front of the extent in hand -/
def ChunkOk (size : Nat) (dev img : Nat → UInt8) (off len : Nat) : ChunkPc → Prop
  | .idle => False
  | .flagged o n => o = off ∧ n = len
  | .holding o n buf => o = off ∧ n = len ∧ ReadLen size off len buf.length ∧
      buf = slice dev off buf.length
  | .stored o n m => o = off ∧ n = len ∧ Landed size dev img off len m
  | .replaying m late => late = [] ∧ Landed size dev img off len m

/-- every byte of the extents that the device has is copied or still to be copied -/
def Covers (size : Nat) (dev img : Nat → UInt8) (all left : List (Nat × Nat)) : Prop :=
  ∀ x, x < size → InExtents all x → img x = dev x ∨ InExtents left x

/-- between any two steps of the thread at `pc` -/
structure RecoverThread (size : Nat) (dev img : Nat → UInt8) (all : List (Nat × Nat)) (stop : Bool)
    (pc : RecoverPc) : Prop where
  within : ∀ x, InExtents pc.left x → InExtents all x
  -- a loop that `stop` has ended leaves extents out
  covers : (stop = true → pc = .synced) → Covers size dev img all pc.left
  chunk : ∀ p off rem es, pc = .chunk p off rem es → ChunkOk size dev img off (min rem CopyChunk) p

structure RecoverInv (size : Nat) (dev img : Nat → UInt8) (es : List (Nat × Nat)) (s : RecoverSt) :
    Prop where
  file : s.file = none ∨ s.file = some es
  deferred : s.c.deferred = []
  eof : s.eof = size
  outside : ∀ x, ¬InExtents (byteExtents es) x → s.c.img x = img x
  done : s.file = none → Covers size dev s.c.img (byteExtents es) []
  thread : ∀ pc, s.thread = some pc → RecoverThread size dev s.c.img (byteExtents es) s.stop pc

section
variable {size m off rem : Nat} {dev img : Nat → UInt8} {es all l : List (Nat × Nat)}
  {s t : RecoverSt} {pc : RecoverPc}

theorem inExtents_nil (x : Nat) : ¬InExtents [] x := fun ⟨e, he, _⟩ => absurd he List.not_mem_nil

theorem inExtents_cons {e : Nat × Nat} {x : Nat} :
    InExtents (e :: l) x ↔ (e.1 ≤ x ∧ x < e.1 + e.2) ∨ InExtents l x := by
  unfold InExtents
  rw [List.exists_mem_cons_iff]

theorem inExtents_advance {n x : Nat} (h : InExtents (advance n ((off, rem) :: l)) x) :
    InExtents ((off, rem) :: l) x := by
  change InExtents (if n = 0 then l else (off + n, rem - n) :: l) x at h
  split at h
  · exact inExtents_cons.mpr (Or.inr h)
  · rcases inExtents_cons.mp h with ⟨h1, h2⟩ | h
    · change off + n ≤ x at h1
      change x < off + n + (rem - n) at h2
      exact inExtents_cons.mpr (Or.inl ⟨by show off ≤ x; omega, by show x < off + rem; omega⟩)
    · exact inExtents_cons.mpr (Or.inr h)

theorem Covers.advance {n : Nat} (hr : Landed size dev img off (min rem CopyChunk) n)
    (h : Covers size dev img all ((off, rem) :: l)) :
    Covers size dev img all (advance n ((off, rem) :: l)) := by
  intro x hx hin
  rcases h x hx hin with h | h
  · exact Or.inl h
  · rcases advance_covers hr.read hx h with ⟨h1, h2⟩ | h
    · exact Or.inl (hr.eq x h1 h2)
    · exact Or.inr h

/-- what one step writes of the replica -/
def Writes (dev img img' : Nat → UInt8) (off len : Nat) : Prop :=
  ∀ x, img' x = img x ∨ (off ≤ x ∧ x < off + len ∧ img' x = dev x)

theorem Writes.same (dev img : Nat → UInt8) (off len : Nat) : Writes dev img img off len :=
  fun x => Or.inl rfl

theorem Covers.write {img' : Nat → UInt8} {len : Nat} (hw : Writes dev img img' off len)
    (h : Covers size dev img all l) : Covers size dev img' all l := by
  intro x hx hin
  rcases h x hx hin with h | h
  · rcases hw x with e | ⟨_, _, e⟩
    · exact Or.inl (e.trans h)
    · exact Or.inl e
  · exact Or.inr h

/-! ## one step -/

theorem chunkStep_ok {c c' : Shared} {p p' : ChunkPc} {len : Nat} (hlen : c.deferred = [])
    (hok : ChunkOk size dev c.img off len p) (hr : p.ReadOk size m)
    (h : chunkStep false dev m c p = some (c', p')) :
    ChunkOk size dev c'.img off len p' ∧ c'.deferred = [] ∧ Writes dev c.img c'.img off len ∧
      p.eof size = size := by
  cases p with
  | idle => exact hok.elim
  | flagged o n =>
    obtain ⟨rfl, rfl⟩ := hok
    obtain ⟨hm, e⟩ := Option.ite_none_right_eq_some.mp h
    cases e
    change ReadLen size o n m at hr
    have hbuf := length_slice dev o m
    refine ⟨⟨rfl, rfl, ?_, ?_⟩, hlen, .same _ _ _ _, rfl⟩
    · rw [hbuf]
      exact hr
    · rw [hbuf]
  | holding o n buf =>
    obtain ⟨rfl, rfl, hread, hbuf⟩ := hok
    cases h
    have himg : ∀ x, (c.store false o buf).img x = _ := fun x =>
      store_img (n:=n) (fun e => absurd e (by decide)) x
    have hin : ∀ x, o ≤ x → x < o + buf.length → (c.store false o buf).img x = dev x := by
      intro x h1 h2
      rw [himg, if_pos ⟨h1, h2⟩, hbuf, slice_getD dev (by omega), Nat.add_sub_cancel' h1]
    have hfit : buf.length ≤ n ∧ (buf ≠ [] → o + buf.length ≤ size) := by
      unfold ReadLen at hread
      split at hread
      · exact ⟨hread.2.1, fun _ => hread.2.2⟩
      · exact ⟨by omega, fun hne => absurd (List.eq_nil_of_length_eq_zero hread) hne⟩
    refine ⟨⟨rfl, rfl, hread, hin⟩, ?_, fun x => ?_, ?_⟩
    · unfold Shared.store
      split <;> exact hlen
    · by_cases hx : o ≤ x ∧ x < o + buf.length
      · exact Or.inr ⟨hx.1, by omega, hin x hx.1 hx.2⟩
      · exact Or.inl ((himg x).trans (if_neg hx))
    · show pwriteEof size o buf = size
      unfold pwriteEof
      split
      · rfl
      · rename_i hne
        exact Nat.max_eq_left (hfit.2 hne)
  | stored o n k =>
    obtain ⟨rfl, rfl, hland⟩ := hok
    cases h
    exact ⟨⟨hlen, hland⟩, rfl, .same _ _ _ _, rfl⟩
  | replaying k late =>
    obtain ⟨rfl, _⟩ := hok
    cases h

theorem RecoverInv.move (hi : RecoverInv size dev img es s) (hf : t.file = s.file)
    (hd : t.c.deferred = []) (he : t.eof = size)
    (hw : ∃ off len, Writes dev s.c.img t.c.img off len ∧
      ∀ x, off ≤ x → x < off + len → InExtents (byteExtents es) x)
    (ht : ∀ pc, t.thread = some pc → RecoverThread size dev t.c.img (byteExtents es) t.stop pc) :
    RecoverInv size dev img es t := by
  obtain ⟨off, len, hw, hin⟩ := hw
  refine ⟨hf ▸ hi.file, hd, he, fun x hx => ?_, fun h => (hi.done (hf ▸ h)).write hw, ht⟩
  rcases hw x with e | ⟨h1, h2, _⟩
  · exact e.trans (hi.outside x hx)
  · exact absurd (hin x h1 h2) hx

theorem RecoverInv.stay (hi : RecoverInv size dev img es s) (hf : t.file = s.file)
    (hd : t.c.deferred = []) (he : t.eof = s.eof) (hw : t.c.img = s.c.img)
    (ht : ∀ pc, t.thread = some pc → RecoverThread size dev t.c.img (byteExtents es) t.stop pc) :
    RecoverInv size dev img es t :=
  hi.move hf hd (he.trans hi.eof) ⟨0, 0, hw ▸ .same _ _ _ _, fun x _ h => by omega⟩ ht

theorem RecoverThread.outer {stop : Bool} (hp : ∀ p off rem es, pc ≠ .chunk p off rem es)
    (hin : ∀ x, InExtents pc.left x → InExtents all x)
    (hc : (stop = true → pc = .synced) → Covers size dev img all pc.left) :
    RecoverThread size dev img all stop pc :=
  ⟨hin, hc, fun p off rem es e => absurd e (hp p off rem es)⟩

theorem RecoverInv.turn {pc' : RecoverPc} (hi : RecoverInv size dev img es s)
    (hp : ∀ p off rem l, pc' ≠ .chunk p off rem l)
    (hin : ∀ x, InExtents pc'.left x → InExtents (byteExtents es) x)
    (hc : (s.stop = true → pc' = .synced) → Covers size dev s.c.img (byteExtents es) pc'.left) :
    RecoverInv size dev img es { s with thread := some pc' } := by
  refine hi.stay rfl hi.deferred rfl rfl fun pc e => ?_
  cases e
  exact .outer hp hin hc

theorem recoverChunk_inside {p : ChunkPc} {l : List (Nat × Nat)}
    (hend : ¬∃ n, p = .replaying n []) :
    recoverChunk size dev s m p off rem l = if p.ReadOk size m then
      (chunkStep false dev m s.c p).map fun q =>
        { s with c := q.1, eof := p.eof s.eof, thread := some (.chunk q.2 off rem l) }
      else none := by
  cases p with
  | replaying n late =>
    cases late with
    | nil => exact absurd ⟨n, rfl⟩ hend
    | cons r late => rfl
  | idle => rfl
  | flagged o n => rfl
  | holding o n buf => rfl
  | stored o n k => rfl

theorem recoverChunk_inv {p : ChunkPc} {l : List (Nat × Nat)} (hi : RecoverInv size dev img es s)
    (hpc : s.thread = some (.chunk p off rem l)) (h : recoverChunk size dev s m p off rem l = some t) :
    RecoverInv size dev img es t := by
  have ht := hi.thread _ hpc
  have hok := ht.chunk p off rem l rfl
  by_cases hend : ∃ n, p = .replaying n []
  · obtain ⟨n, rfl⟩ := hend
    obtain ⟨_, hland⟩ := hok
    have hin : ∀ x, InExtents (advance n ((off, rem) :: byteExtents l)) x →
        InExtents (byteExtents es) x := fun x hx => ht.within x (inExtents_advance hx)
    have hcov : (s.stop = true → False) →
        Covers size dev s.c.img (byteExtents es) (advance n ((off, rem) :: byteExtents l)) :=
      fun hs => (ht.covers fun e => (hs e).elim).advance hland
    change (if n = 0 then _ else _) = some t at h
    rw [show advance n ((off, rem) :: byteExtents l) =
      if n = 0 then byteExtents l else (off + n, rem - n) :: byteExtents l from rfl] at hin hcov
    by_cases hn : n = 0
    · rw [if_pos hn] at h hin hcov
      cases h
      exact hi.turn (fun _ _ _ _ e => by cases e) hin fun hs => hcov fun e => by cases hs e
    · rw [if_neg hn] at h hin hcov
      cases h
      exact hi.turn (fun _ _ _ _ e => by cases e) hin fun hs => hcov fun e => by cases hs e
  · rw [recoverChunk_inside hend] at h
    obtain ⟨hread, h'⟩ := Option.ite_none_right_eq_some.mp h
    obtain ⟨⟨c', p'⟩, hstep, rfl⟩ := Option.map_eq_some_iff.mp h'
    obtain ⟨h1, h2, h3, h4⟩ := chunkStep_ok hi.deferred hok hread hstep
    refine hi.move rfl h2 ?_ ⟨_, _, h3, fun x hx1 hx2 => ht.within x ?_⟩ fun pc e => ?_
    · show p.eof s.eof = size
      rw [hi.eof, h4]
    · exact inExtents_cons.mpr (Or.inl ⟨hx1, by show x < off + rem; omega⟩)
    · cases e
      exact ⟨ht.within, fun hs => (ht.covers fun e => (by cases hs e)).write h3,
        fun _ _ _ _ e => (by cases e; exact h1)⟩

theorem recoverGo_inv (hi : RecoverInv size dev img es s) (hpc : s.thread = some pc)
    (h : recoverGo size dev s m pc = some t) : RecoverInv size dev img es t := by
  have ht := hi.thread _ hpc
  cases pc with
  | extents l =>
    cases l with
    | nil =>
      cases h
      exact hi.turn (fun _ _ _ _ e => by cases e) ht.within fun hs =>
        ht.covers fun e => by cases hs e
    | cons e l =>
      cases h
      exact hi.turn (fun _ _ _ _ e => by cases e) ht.within fun hs =>
        ht.covers fun e => by cases hs e
  | test off rem l =>
    change (if rem ≠ 0 ∧ s.stop = false then _ else _) = some t at h
    by_cases hgo : rem ≠ 0 ∧ s.stop = false
    · rw [if_pos hgo] at h
      cases h
      refine hi.stay rfl rfl rfl rfl fun pc e => ?_
      cases e
      exact ⟨ht.within, fun hs => ht.covers fun e => (by cases hs e),
        fun _ _ _ _ e => (by cases e; exact ⟨rfl, rfl⟩)⟩
    · rw [if_neg hgo] at h
      cases h
      refine hi.turn (fun _ _ _ _ e => by cases e)
        (fun x hx => ht.within x (inExtents_cons.mpr (Or.inr hx))) fun hs x hx hin => ?_
      -- `stop` is not set, so the extent is done
      have hstop : ¬s.stop = true := fun e => by cases hs e
      have hrem : rem = 0 := by
        by_contra hne
        exact hgo ⟨hne, Bool.eq_false_iff.mpr hstop⟩
      refine (ht.covers (fun e => absurd e hstop) x hx hin).imp_right fun hl => ?_
      rcases inExtents_cons.mp hl with ⟨h1, h2⟩ | hl
      · change off ≤ x at h1
        change x < off + rem at h2
        omega
      · exact hl
  | chunk p off rem l => exact recoverChunk_inv hi hpc h
  | ended =>
    cases h
    refine hi.stay rfl hi.deferred rfl rfl fun pc e => ?_
    change (if s.stop = true then none else some .synced) = some pc at e
    by_cases hs : s.stop = true
    · rw [if_pos hs] at e
      cases e
    · rw [if_neg hs] at e
      cases e
      exact .outer (fun _ _ _ _ e => by cases e) ht.within fun _ => ht.covers fun e => absurd e hs
  | synced =>
    cases h
    exact ⟨Or.inl rfl, hi.deferred, hi.eof, hi.outside, fun _ => ht.covers fun _ => rfl,
      fun pc e => by cases e⟩

theorem recoverStep_inv {a : RecoverAct} (hi : RecoverInv size dev img es s)
    (h : recoverStep size dev s a = some t) : RecoverInv size dev img es t := by
  cases a with
  | go m =>
    obtain ⟨pc, hpc, h⟩ := Option.bind_eq_some_iff.mp h
    exact recoverGo_inv hi hpc h
  | stop =>
    cases h
    refine hi.stay rfl hi.deferred rfl rfl fun pc e => ?_
    have ht := hi.thread pc e
    exact ⟨ht.within, fun hs => ht.covers fun _ => hs rfl, ht.chunk⟩
  | raise =>
    cases h
    exact hi.stay rfl hi.deferred rfl rfl fun pc e => by cases e
  | restart =>
    cases h
    refine hi.stay rfl rfl rfl rfl fun pc e => ?_
    obtain ⟨l, hl, rfl⟩ := Option.map_eq_some_iff.mp e
    obtain rfl : l = es := by
      rcases hi.file with hf | hf
      · rw [hf] at hl
        cases hl
      · exact Option.some.inj (hl.symm.trans hf)
    exact .outer (fun _ _ _ _ e => by cases e) (fun x hx => hx) fun _ x _ hin => Or.inr hin

/-- **A recovery is only forgotten when it is complete.**  However often it is stopped, fails or dies
and is taken up again: the listed bytes of the device are in the replica once `recovery.json` is
gone, and at any time the rest of the replica is as before. -/
theorem recover_complete (size : Nat) (dev img : Nat → UInt8) (es : List (Nat × Nat))
    (as : List RecoverAct) (s : RecoverSt)
    (h : exec (recoverStep size dev) (.start size img es) as = some s) :
    (s.file = none → ∀ x, x < size → InExtents (byteExtents es) x → s.c.img x = dev x) ∧
      (∀ x, ¬InExtents (byteExtents es) x → s.c.img x = img x) ∧ s.eof = size := by
  have h0 : RecoverInv size dev img es (.start size img es) :=
    ⟨Or.inr rfl, rfl, rfl, fun x _ => rfl, fun e => (by cases e), fun pc e => by
      cases e
      exact .outer (fun _ _ _ _ e => by cases e) (fun x hx => hx) fun _ x _ hin => Or.inr hin⟩
  have hi : RecoverInv size dev img es s :=
    exec_invariant (fun s a t hs hstep => recoverStep_inv hs hstep) h0 h
  refine ⟨fun hf x hx hin => ?_, hi.outside, hi.eof⟩
  exact (hi.done hf x hx hin).resolve_right (inExtents_nil x)

end

set_option maxRecDepth 10000 in
/-- the daemon is stopped after the first chunk and dies; the extent reaches behind the disk -/
theorem recover_complete_run : ∃ s, exec (recoverStep 512 fun _ => 7)
      (.start 512 (fun _ => 0) [(0, 2)]) ([.go 0, .go 0, .go 512, .go 0, .go 0, .stop, .go 0, .go 0,
        .go 0, .go 0, .restart, .go 0, .go 0, .go 512, .go 0, .go 0, .go 0, .go 0, .go 0, .go 0, .go 0,
        .go 0, .go 0, .go 0, .go 0]) = some s ∧
      s.file = none ∧ ∀ x, x < 512 → s.c.img x = 7 := by
  obtain ⟨s, hs, hf⟩ : ∃ s, exec (recoverStep 512 fun _ => 7)
      (.start 512 (fun _ => 0) [(0, 2)]) ([.go 0, .go 0, .go 512, .go 0, .go 0, .stop, .go 0, .go 0,
        .go 0, .go 0, .restart, .go 0, .go 0, .go 512, .go 0, .go 0, .go 0, .go 0, .go 0, .go 0, .go 0,
        .go 0, .go 0, .go 0, .go 0]) = some s ∧ s.file = none := ⟨_, rfl, rfl⟩
  refine ⟨s, hs, hf, fun x hx => ?_⟩
  exact (recover_complete 512 (fun _ => 7) (fun _ => 0) [(0, 2)] _ s hs).1 hf x hx
    ⟨(0, 1024), List.mem_cons_self, Nat.zero_le x, by show x < 0 + 1024; omega⟩

end CDP
