import DmCdp.Kernel.Reach

/-!
# The layout of the ring in every reachable state

`Walk t p ps h`: the memory of the ring, read from `p` on as `cdp_next` reads it, splits into the
pieces `ps` and ends at `h`.  A walk is determined by the memory (`walk_unique`), and the
invariant gives one from tail to head (`walk_of_chain`).  `RingLayout` collects what the ring
looks like; `ring_layout` is the result over runs.
-/

set_option linter.unusedVariables false

namespace CDP
open Img Mach

/-! ## the walk of `cdp_next` -/

inductive PieceKind where
  | record
  | pad
  | slack
  deriving DecidableEq, Repr

structure Piece where
  kind : PieceKind
  pos : Nat
  len : Nat
  deriving DecidableEq, Repr

/-- what the memory holds at position `p` -/
def pieceAt (t : Target) (p : Nat) : Piece :=
  if t.ringSize - p % t.ringSize < RecSize then ⟨.slack, p, t.ringSize - p % t.ringSize⟩
  else
    let r := Rec.load t.ring (p % t.ringSize)
    if r.type = RecPad then ⟨.pad, p, r.recLen⟩ else ⟨.record, p, r.recLen⟩

def Walk (t : Target) : Nat → List Piece → Nat → Prop
  | p, [], h => p = h
  | p, i :: is, h => p < h ∧ i = pieceAt t p ∧ Walk t (p + i.len) is h

/-- a piece is what `cdp_next` finds at its position: a record to return, or bytes to skip -/
theorem cdpNextStep_piece {t : Target} {p : Nat} (hp : p < t.head)
    (hw : p + (pieceAt t p).len < 2^64) : cdpNextStep t p =
      if (pieceAt t p).kind = .record then .found p else .skip (p + (pieceAt t p).len) := by
  rw [cdpNextStep_eq, if_neg (by omega)]
  unfold pieceAt at hw ⊢
  by_cases h1 : t.ringSize - p % t.ringSize < RecSize
  · rw [if_pos h1] at hw ⊢
    rw [if_pos h1, u64_of_lt hw]
    rfl
  · rw [if_neg h1] at hw ⊢
    rw [if_neg h1]
    dsimp only at hw ⊢
    by_cases h2 : (Rec.load t.ring (p % t.ringSize)).type = RecPad
    · rw [if_pos h2] at hw ⊢
      rw [if_pos h2, u64_of_lt hw]
      rfl
    · rw [if_neg h2] at hw ⊢
      rw [if_neg h2]
      rfl

theorem walk_unique {t : Target} {ps qs : List Piece} :
    ∀ {p h : Nat}, Walk t p ps h → Walk t p qs h → ps = qs := by
  induction ps generalizing qs with
  | nil =>
    intro p h h1 h2
    cases qs with
    | nil => rfl
    | cons i is =>
      obtain ⟨hlt, _, _⟩ := h2
      change p = h at h1
      omega
  | cons j js ih =>
    intro p h h1 h2
    obtain ⟨hlt, rfl, hw⟩ := h1
    cases qs with
    | nil =>
      change p = h at h2
      omega
    | cons i is =>
      obtain ⟨_, rfl, hw'⟩ := h2
      rw [ih hw hw']

theorem pieceAt_pos (t : Target) (p : Nat) : (pieceAt t p).pos = p := by
  unfold pieceAt
  split
  · rfl
  · dsimp only
    split <;> rfl

theorem walk_mem {t : Target} {ps : List Piece} :
    ∀ {p h : Nat}, Walk t p ps h → ∀ i ∈ ps, i = pieceAt t i.pos := by
  induction ps with
  | nil => intro p h _ i hi; exact absurd hi List.not_mem_nil
  | cons j js ih =>
    intro p h hw i hi
    obtain ⟨_, hj, hw'⟩ := hw
    rcases List.mem_cons.mp hi with rfl | hi
    · have hpos : i.pos = p := by rw [hj, pieceAt_pos]
      rw [hpos]
      exact hj
    · exact ih hw' i hi

theorem walk_append {t : Target} {ps qs : List Piece} :
    ∀ {p q h : Nat}, Walk t p ps q → Walk t q qs h → Walk t p (ps ++ qs) h := by
  induction ps with
  | nil =>
    intro p q h h1 h2
    obtain rfl : p = q := h1
    exact h2
  | cons i is ih =>
    intro p q h h1 h2
    obtain ⟨hlt, hi, hw⟩ := h1
    have hle : q ≤ h := by
      clear ih hw
      induction qs generalizing q with
      | nil => exact le_of_eq h2
      | cons k ks ihk => exact le_of_lt h2.1
    exact ⟨by omega, hi, ih hw h2⟩

/-! ## the walk over the live records -/

/-- the pieces before and at a live record -/
def Entry.pieces (rs p : Nat) (e : Entry) : List Piece :=
  let pad := padLen rs p e.need
  (if pad = 0 then [] else if pad < RecSize then [⟨.slack, p, pad⟩] else [⟨.pad, p, pad⟩]) ++
    [⟨.record, e.off, e.need⟩]

def chainPieces (rs : Nat) : Nat → List Entry → List Piece
  | _, [] => []
  | p, e :: es => e.pieces rs p ++ chainPieces rs (e.off + e.need) es

theorem pieceAt_record {t : Target} {p : Nat} {e : Entry} (hrs : 0 < t.ringSize)
    (h : Link t.ringSize t.ring p e) : pieceAt t e.off = ⟨.record, e.off, e.need⟩ := by
  have hfit := h.fit hrs
  have hneed := recSize_le_need e
  have hload : Rec.load t.ring (e.off % t.ringSize) = e.header :=
    Rec.load_of_slice h.stored.header (Entry.header_fits h.ok)
  unfold pieceAt
  rw [if_neg (by omega), hload]
  dsimp only
  rw [Entry.header_type, if_neg h.ok.type, Entry.header_recLen, h.ok.recLen]

theorem pieceAt_pad {t : Target} {p : Nat} {e : Entry} (hrs : 0 < t.ringSize)
    (h : Link t.ringSize t.ring p e) (hp : padLen t.ringSize p e.need ≠ 0) :
    pieceAt t p = if padLen t.ringSize p e.need < RecSize
      then ⟨.slack, p, padLen t.ringSize p e.need⟩
      else ⟨.pad, p, padLen t.ringSize p e.need⟩ := by
  obtain ⟨_, hpad⟩ := padLen_boundary hrs hp
  unfold pieceAt
  rw [← hpad]
  by_cases hlt : padLen t.ringSize p e.need < RecSize
  · rw [if_pos hlt, if_pos hlt]
  · have hneed := recSize_le_need e
    have hR : RecSize = 56 := rfl
    have hbound : padLen t.ringSize p e.need < 2^32 := by
      have h1 := padLen_lt (r:=t.ringSize) (p:=p) (by omega : 0 < e.need)
      have h2 := h.ok.fits.recLen
      rw [h.ok.recLen] at h2
      omega
    have hr := Rec.load_of_slice (h.pad (by omega)) (padRec_fits hbound)
    have htype : (padRec (padLen t.ringSize p e.need)).type = RecPad := rfl
    rw [if_neg hlt, if_neg hlt, hr]
    dsimp only
    rw [if_pos htype]
    rfl

theorem walk_link {t : Target} {p : Nat} {e : Entry} (hrs : 0 < t.ringSize)
    (h : Link t.ringSize t.ring p e) : Walk t p (e.pieces t.ringSize p) (e.off + e.need) := by
  have hneed := recSize_le_need e
  have hR : RecSize = 56 := rfl
  have hoff := h.off
  have hrec : Walk t e.off [⟨.record, e.off, e.need⟩] (e.off + e.need) :=
    ⟨by omega, (pieceAt_record hrs h).symm, rfl⟩
  refine walk_append (q:=e.off) ?_ hrec
  by_cases hp : padLen t.ringSize p e.need = 0
  · rw [if_pos hp]
    show p = e.off
    omega
  · have hpc := pieceAt_pad hrs h hp
    rw [if_neg hp]
    by_cases hlt : padLen t.ringSize p e.need < RecSize
    · rw [if_pos hlt] at hpc ⊢
      exact ⟨by omega, hpc.symm, hoff.symm⟩
    · rw [if_neg hlt] at hpc ⊢
      exact ⟨by omega, hpc.symm, hoff.symm⟩

theorem walk_of_chain {t : Target} (hrs : 0 < t.ringSize) {es : List Entry} :
    ∀ {p h : Nat}, Chain t.ringSize t.ring p es h →
      Walk t p (chainPieces t.ringSize p es) h := by
  induction es with
  | nil => intro p h hc; exact hc
  | cons e es ih =>
    intro p h hc
    exact walk_append (walk_link hrs hc.1) (ih hc.2)

theorem chainPieces_mem {t : Target} (hrs : 0 < t.ringSize) {es : List Entry} :
    ∀ {p h : Nat}, Chain t.ringSize t.ring p es h → ∀ i ∈ chainPieces t.ringSize p es,
      p ≤ i.pos ∧ i.pos + i.len ≤ h ∧ 0 < i.len ∧ i.pos % t.ringSize + i.len ≤ t.ringSize ∧
      (i.kind = .slack ↔ i.len < RecSize) := by
  induction es with
  | nil => intro p h _ i hi; exact absurd hi List.not_mem_nil
  | cons e es ih =>
    intro p h hc i hi
    have hle := hc.2.le
    have hoff := hc.1.off
    have hneed := recSize_le_need e
    have hR : RecSize = 56 := rfl
    have hin := padLen_inside (p:=p) (n:=e.need) hrs
    rcases List.mem_append.mp hi with hi | hi
    · rcases List.mem_append.mp hi with hi | hi
      · split at hi
        · exact absurd hi List.not_mem_nil
        · split at hi
          · obtain rfl := List.mem_singleton.mp hi
            refine ⟨le_rfl, ?_, ?_, hin, fun _ => by assumption, fun _ => rfl⟩ <;>
              dsimp only <;> omega
          · obtain rfl := List.mem_singleton.mp hi
            refine ⟨le_rfl, ?_, ?_, hin, fun e => PieceKind.noConfusion e, fun e => ?_⟩ <;>
              dsimp only at * <;> omega
      · obtain rfl := List.mem_singleton.mp hi
        have hfit := hc.1.fit hrs
        refine ⟨?_, ?_, ?_, hfit, fun e => PieceKind.noConfusion e, fun e => ?_⟩ <;>
          dsimp only at * <;> omega
    · obtain ⟨h1, h2⟩ := ih hc.2 i hi
      exact ⟨by omega, h2⟩

theorem chainPieces_sorted {t : Target} (hrs : 0 < t.ringSize) {es : List Entry} :
    ∀ {p h : Nat}, Chain t.ringSize t.ring p es h →
      (chainPieces t.ringSize p es).Pairwise fun i j => i.pos + i.len ≤ j.pos := by
  induction es with
  | nil => intro p h _; exact List.Pairwise.nil
  | cons e es ih =>
    intro p h hc
    have hoff := hc.1.off
    refine List.pairwise_append.mpr ⟨?_, ih hc.2, fun i hi j hj => ?_⟩
    · refine List.pairwise_append.mpr ⟨?_, List.pairwise_singleton _ _, fun i hi j hj => ?_⟩
      · split
        · exact List.Pairwise.nil
        · split <;> exact List.pairwise_singleton _ _
      · obtain rfl := List.mem_singleton.mp hj
        dsimp only at hi ⊢
        split at hi
        · exact absurd hi List.not_mem_nil
        · split at hi <;> (obtain rfl := List.mem_singleton.mp hi; dsimp only; omega)
    · have h1 : i.pos + i.len ≤ e.off + e.need := by
        have hone : Chain t.ringSize t.ring p [e] (e.off + e.need) := ⟨hc.1, rfl⟩
        have hi' : i ∈ chainPieces t.ringSize p [e] := by
          show i ∈ e.pieces t.ringSize p ++ []
          rw [List.append_nil]
          exact hi
        exact (chainPieces_mem hrs hone i hi').2.1
      have h2 := (chainPieces_mem hrs hc.2 j hj).1
      omega

/-! ## the layout -/

/-- the ring as `cdp_next` may walk it in any reachable state -/
structure RingLayout (t : Target) : Prop where
  tail_le : t.tail ≤ t.head
  room : t.head ≤ t.tail + t.ringSize
  head_dvd : 8 ∣ t.head
  tail_dvd : 8 ∣ t.tail
  /-- tail to head splits in exactly one way -/
  split : ∃ ps, Walk t t.tail ps t.head ∧ ∀ qs, Walk t t.tail qs t.head → qs = ps
  /-- the pieces are what `cdp_next` finds, one after the other -/
  next : ∀ ps, Walk t t.tail ps t.head → ∀ i ∈ ps, cdpNextStep t i.pos =
    if i.kind = .record then .found i.pos else .skip (i.pos + i.len)
  /-- only slack is shorter than a header, and no piece crosses the end of the ring -/
  inside : ∀ ps, Walk t t.tail ps t.head → ∀ i ∈ ps,
    (i.kind = .slack ↔ i.len < RecSize) ∧ i.pos % t.ringSize + i.len ≤ t.ringSize
  /-- two pieces share no byte of the ring -/
  disjoint : ∀ ps, Walk t t.tail ps t.head → ps.Pairwise fun i j =>
    ∀ x y, i.pos ≤ x → x < i.pos + i.len → j.pos ≤ y → y < j.pos + j.len →
      x % t.ringSize ≠ y % t.ringSize
  /-- a reservation leaves the bytes of every piece alone -/
  reserve : ∀ type flags sector len payload ts, (Refused t payload ∨ NoWrap t payload) →
    ∀ ps, Walk t t.tail ps t.head → ∀ i ∈ ps, ∀ x, i.pos ≤ x → x < i.pos + i.len →
      (cdpReserve t type flags sector len payload ts).2.ring (x % t.ringSize)
        = t.ring (x % t.ringSize)
  /-- a refused reservation changes neither the offsets, nor the numbering, nor the ring -/
  refused : ∀ type flags sector len payload ts,
    (cdpReserve t type flags sector len payload ts).1 = none →
    (cdpReserve t type flags sector len payload ts).2.head = t.head ∧
    (cdpReserve t type flags sector len payload ts).2.tail = t.tail ∧
    (cdpReserve t type flags sector len payload ts).2.seqNext = t.seqNext ∧
    (cdpReserve t type flags sector len payload ts).2.ring = t.ring

theorem cdpReserve_refused (t : Target) (type flags sector len payload ts : Nat)
    (h : (cdpReserve t type flags sector len payload ts).1 = none) :
    (cdpReserve t type flags sector len payload ts).2 = t.overflow := by
  unfold cdpReserve at h ⊢
  dsimp only at h ⊢
  split at h
  · rename_i h1
    rw [if_pos h1]
  · rename_i h1
    rw [if_neg h1]
    split at h
    · rename_i h2
      rw [if_pos h2]
    · exact absurd h (by simp)

theorem RingInv.layout {t : Target} {live : List Entry} (h : RingInv t live) : RingLayout t := by
  have hrs := h.pos
  have hw := walk_of_chain hrs h.chain
  have hroom := h.room
  have hmem := chainPieces_mem hrs h.chain
  refine ⟨h.chain.le, h.room, h.chain.dvd h.align h.tail, h.tail, ?_, ?_, ?_, ?_, ?_, ?_⟩
  · exact ⟨_, hw, fun qs hq => walk_unique hq hw⟩
  · intro ps hp i hi
    obtain rfl := walk_unique hp hw
    obtain ⟨_, h2, h3, _⟩ := hmem i hi
    have hi' := walk_mem hw i hi
    have hhead := h.head
    have hstep := cdpNextStep_piece (t:=t) (p:=i.pos) (by omega) (by rw [← hi']; omega)
    rw [← hi'] at hstep
    exact hstep
  · intro ps hp i hi
    obtain rfl := walk_unique hp hw
    obtain ⟨_, _, _, h4, h5⟩ := hmem i hi
    exact ⟨h5, h4⟩
  · intro ps hp
    obtain rfl := walk_unique hp hw
    refine (chainPieces_sorted hrs h.chain).imp_of_mem fun {i j} hi hj hij x y hx hx' hy hy' => ?_
    obtain ⟨h1, _⟩ := hmem i hi
    obtain ⟨_, h2, _⟩ := hmem j hj
    exact mod_ne_of_window (by omega) (by omega)
  · intro type flags sector len payload ts hor ps hp i hi x hx hx'
    obtain rfl := walk_unique hp hw
    obtain ⟨h1, h2, _⟩ := hmem i hi
    rcases cdpReserve_cases h type flags sector len payload ts with ⟨_, he⟩ | ⟨hr, he⟩
    · rw [he]
      rfl
    · rw [he (hor.resolve_left hr)]
      exact h.grant_same hr x (by omega) (by omega)
  · intro type flags sector len payload ts hnone
    rw [cdpReserve_refused t type flags sector len payload ts hnone]
    exact ⟨rfl, rfl, rfl, rfl⟩

/-- **The layout of the ring**, in every state that any interleaving of writers, readers, bitmap
reads and the removal of the target can reach. -/
theorem ring_layout (cfg : Config) (dev : Nat → UInt8) (as : List KAct) (s : KState)
    (h : exec (kstep cfg) (KState.init cfg dev) as = some s) : RingLayout s.t :=
  (KInv.reach h).log.ring.layout

/-- a small configuration: a ring of 1 MiB, 64 KiB chunks, a device of 4 MiB -/
def smallConfig : Config where
  ringMb := 1
  chunkKb := 64
  start := 0
  tiBegin := 0
  len := 8192
  ring_pos := by decide
  ring_u32 := by decide
  chunk_pow := ⟨6, rfl⟩
  chunk_u32 := by decide
  len_pos := by decide
  begin_len := by decide
  start_len := by decide

/-- an empty flush bio -/
def flushBio : Bio := ⟨.write, 0, 0, false, true, fun _ => 0⟩

/-- a write of 256 KiB: with its header it is over a quarter of a ring of 1 MiB -/
def bigWrite : Bio := ⟨.write, 0, 262144, false, false, fun _ => 1⟩

/-- a write of `n` sectors -/
def writeAt (sector n : Nat) : Bio := ⟨.write, sector, n * 512, false, false, fun _ => 1⟩

/-- a discard of eight sectors -/
def trimBio : Bio := ⟨.discard, 8, 4096, false, false, fun _ => 0⟩

/-- a record is read; six more, of which one is committed, fill the ring, the last of them behind the
boundary, in the room of the first; a flush is refused -/
def wrappedRun : List KAct := List.flatten
  [[.map (writeAt 0 1), .reserve 0 7, .copy 0, .land 0, .endIo 0 true, .call 0 4096 true],
    List.replicate 5 (.reader 0 true),
    [.map (writeAt 0 511), .map (writeAt 511 511), .map (writeAt 100 511), .map (writeAt 1022 511),
      .map (writeAt 4 2), .map (writeAt 8 1), .reserve 2 8, .reserve 1 9, .copy 2, .reserve 3 9,
      .reserve 4 9, .land 2, .copy 4, .endIo 2 false, .reserve 5 10, .reserve 6 11, .copy 6,
      .map flushBio, .reserve 7 12]]

/-- the pad takes the 176 bytes in front of the boundary -/
theorem ring_layout_wrapped : ∃ s, exec (kstep smallConfig) (KState.init smallConfig fun _ => 0)
    wrappedRun = some s ∧ s.t.tail = 568 ∧ s.t.head = 1048576 + 568 ∧ s.log.length - s.nread = 6 ∧
      s.t.overflows = 1 ∧ cdpNextStep s.t 1048400 = .skip 1048576 ∧
      cdpNextStep s.t 1048576 = .found 1048576 ∧ RingLayout s.t := by
  have h : (exec (kstep smallConfig) (KState.init smallConfig fun _ => 0) wrappedRun).any
      (fun s => s.t.tail == 568 && (s.t.head == 1048576 + 568 && (s.log.length - s.nread == 6 &&
        (s.t.overflows == 1 && (cdpNextStep s.t 1048400 == .skip 1048576 &&
          cdpNextStep s.t 1048576 == .found 1048576))))) := by
    decide
  obtain ⟨s, hs, hp⟩ := (Option.any_eq_true _ _).mp h
  simp only [Bool.and_eq_true, beq_iff_eq] at hp
  obtain ⟨htail, hhead, hlive, hover, hpad, hlast⟩ := hp
  exact ⟨s, hs, htail, hhead, hlive, hover, hpad, hlast,
    ring_layout smallConfig (fun _ => 0) wrappedRun s hs⟩

end CDP
