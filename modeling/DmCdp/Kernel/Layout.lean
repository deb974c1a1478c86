import DmCdp.Kernel.Ring

/-!
# The layout of the ring: live records, pads and slack between tail and head

A ghost list of entries (`Entry`) says which records are live.  `Chain rs m p es h` says that
the memory `m` holds exactly these records between the positions `p` and `h`: each one starts
where the one before ends, or at the ring boundary after a pad, and its header and payload lie
there.

* `blit_window`       a write at one position of a window shorter than the ring changes no other
                      position of it: the only fact about `%` the layout needs;
* `Chain.mem`         each record of a chain lies in it, whole;
* `Chain.snoc`        a record behind the last one;
* `Chain.congr`       memory that is the same between the two positions holds the same chain.
-/

set_option linter.unusedVariables false

namespace CDP
open Img

/-! ## positions modulo the ring size -/

theorem mod_ne_of_window {rs x y : Nat} (h1 : x < y) (h2 : y < x + rs) : x % rs ≠ y % rs := by
  intro h
  have hd : rs ∣ y - x := Nat.dvd_of_mod_eq_zero (Nat.sub_mod_eq_zero_of_mod_eq h.symm)
  have := Nat.le_of_dvd (by omega) hd
  omega

theorem mod_add_of_fit {rs x n i : Nat} (h : x % rs + n ≤ rs) (hi : i < n) :
    (x + i) % rs = x % rs + i := by
  rw [Nat.add_mod, Nat.mod_eq_of_lt (by omega : i < rs), Nat.mod_eq_of_lt (by omega)]

/-- a write at `[y, y + n)` that does not cross the end of the ring leaves every other position
of a window of length `rs` alone -/
theorem blit_window {m : Nat → UInt8} {rs x y n : Nat} (f : Nat → UInt8)
    (hfit : y % rs + n ≤ rs) (hx : x < y ∨ y + n ≤ x) (h1 : x < y + rs) (h2 : y + n ≤ x + rs) :
    blit m (y % rs) n f (x % rs) = m (x % rs) := by
  apply blit_out
  rintro ⟨ha, hb⟩
  have hi : x % rs - y % rs < n := by omega
  have e := mod_add_of_fit hfit hi
  have e' : (y + (x % rs - y % rs)) % rs = x % rs := by omega
  rcases Nat.lt_trichotomy x (y + (x % rs - y % rs)) with h | h | h
  · exact mod_ne_of_window h (by omega) e'.symm
  · omega
  · exact mod_ne_of_window h (by omega) e'

/-- the memory is the same at the positions `[lo, hi)` -/
def SameOn (rs : Nat) (m m' : Nat → UInt8) (lo hi : Nat) : Prop :=
  ∀ x, lo ≤ x → x < hi → m' (x % rs) = m (x % rs)

theorem SameOn.refl (rs : Nat) (m : Nat → UInt8) (lo hi : Nat) : SameOn rs m m lo hi :=
  fun _ _ _ => rfl

theorem SameOn.trans {rs lo hi : Nat} {m m' m'' : Nat → UInt8} (h : SameOn rs m m' lo hi)
    (h' : SameOn rs m' m'' lo hi) : SameOn rs m m'' lo hi :=
  fun x hl hh => (h' x hl hh).trans (h x hl hh)

theorem SameOn.mono {rs lo hi lo' hi' : Nat} {m m' : Nat → UInt8} (h : SameOn rs m m' lo hi)
    (hl : lo ≤ lo') (hh : hi' ≤ hi) : SameOn rs m m' lo' hi' :=
  fun x h1 h2 => h x (hl.trans h1) (h2.trans_le hh)

/-- a write past `hi`, less than one turn after `lo` -/
theorem sameOn_blit_past {rs lo hi y n : Nat} (m : Nat → UInt8) (f : Nat → UInt8)
    (hfit : y % rs + n ≤ rs) (hy : hi ≤ y) (hw : y + n ≤ lo + rs) :
    SameOn rs m (blit m (y % rs) n f) lo hi :=
  fun x h1 h2 => blit_window f hfit (Or.inl (by omega)) (by omega) (by omega)

theorem sameOn_store_past {n a b y : Nat} (m : Nat → UInt8) (r : Rec)
    (hfit : y % n + RecSize ≤ n) (hy : b ≤ y) (hw : y + RecSize ≤ a + n) :
    SameOn n m (r.store m (y % n)) a b := by
  have hl : r.bytes.length = RecSize := r.length_bytes
  exact sameOn_blit_past m _ (by rw [hl]; exact hfit) hy (by rw [hl]; exact hw)

theorem slice_sameOn {rs lo hi y n : Nat} {m m' : Nat → UInt8} (h : SameOn rs m m' lo hi)
    (hfit : y % rs + n ≤ rs) (hy : lo ≤ y) (hn : y + n ≤ hi) :
    slice m' (y % rs) n = slice m (y % rs) n := by
  apply slice_congr
  intro i hi'
  rw [← mod_add_of_fit hfit hi']
  exact h _ (by omega) (by omega)

/-! ## pads -/

theorem padLen_fit {r p n : Nat} (hrs : 0 < r) (hn : n ≤ r) :
    (p + padLen r p n) % r + n ≤ r := by
  have hp := Nat.mod_lt p hrs
  unfold padLen
  split
  · have hd := Nat.div_add_mod p r
    have e : p + (r - p % r) = r * (p / r + 1) := by
      rw [Nat.mul_succ]
      omega
    rw [e, Nat.mul_mod_right]
    omega
  · rw [Nat.add_zero]
    omega

theorem padLen_boundary {r p n : Nat} (hrs : 0 < r) (h : padLen r p n ≠ 0) :
    (p + padLen r p n) % r = 0 ∧ padLen r p n = r - p % r := by
  have hp := Nat.mod_lt p hrs
  unfold padLen at h ⊢
  split at h
  · rename_i hc
    have hd := Nat.div_add_mod p r
    have e : p + (r - p % r) = r * (p / r + 1) := by
      rw [Nat.mul_succ]
      omega
    rw [if_pos hc, e]
    exact ⟨Nat.mul_mod_right r _, rfl⟩
  · exact absurd rfl h

theorem padLen_lt {r p n : Nat} (hn : 0 < n) : padLen r p n < n := by
  unfold padLen
  split <;> omega

theorem padLen_inside {r p n : Nat} (hrs : 0 < r) : p % r + padLen r p n ≤ r := by
  have hp := Nat.mod_lt p hrs
  unfold padLen
  split <;> omega

theorem padLen_dvd {r p n : Nat} (hrs : 8 ∣ r) (hp : 8 ∣ p) : 8 ∣ padLen r p n := by
  have hm : 8 ∣ p % r := (Nat.dvd_mod_iff hrs).mpr hp
  unfold padLen
  split
  · exact Nat.dvd_sub hrs hm
  · exact Nat.dvd_zero 8

theorem padRec_fits {pad : Nat} (h : pad < 2^32) : (padRec pad).Fits := by
  have h0 : 0 < 2^32 := by decide
  have h64 : 0 < 2^64 := by decide
  exact ⟨(by decide : RecMagic < 2^32), (by decide : AbiVersion < 2^16),
    (by decide : RecPad < 2^16), h0, (by decide : StCommitted < 2^32), h64, h64, h0, h, h64, h64⟩

/-! ## entries -/

/-- how far the bio of a record has come -/
inductive EStage where
  | reserved
  | data
  | ended (error : Bool)

/-- one reservation: its offset, the header `cdp_reserve` wrote, the bytes to copy, and the bytes
the alignment leaves behind them -/
structure Entry where
  off : Nat
  hdr : Rec
  payload : Nat
  data : Nat → UInt8
  slack : List UInt8
  stage : EStage

def Entry.need (e : Entry) : Nat := recNeed e.payload

/-- what `ALIGN` adds to header and payload -/
def slackLen (payload : Nat) : Nat := recNeed payload - (RecSize + payload)

/-- the header as it stands in the ring -/
def Entry.header (e : Entry) : Rec :=
  match e.stage with
  | .reserved => e.hdr
  | .data => { e.hdr with state := StData }
  | .ended error =>
    { e.hdr with
      flags := if error then e.hdr.flags ||| FError else e.hdr.flags
      state := StCommitted }

structure Entry.Ok (rs : Nat) (e : Entry) : Prop where
  fits : e.hdr.Fits
  recLen : e.hdr.recLen = e.need
  type : e.hdr.type ≠ RecPad
  reserved : e.hdr.state = StReserved
  small : e.need ≤ rs / MaxRecDiv

theorem recSize_le_need (e : Entry) : RecSize + e.payload ≤ e.need := le_align8 _

theorem need_eq (e : Entry) : e.need = RecSize + e.payload + slackLen e.payload := by
  have h := recSize_le_need e
  unfold slackLen
  unfold Entry.need at h ⊢
  omega

theorem Entry.header_recLen (e : Entry) : e.header.recLen = e.hdr.recLen := by
  unfold Entry.header
  cases e.stage <;> rfl

theorem Entry.header_type (e : Entry) : e.header.type = e.hdr.type := by
  unfold Entry.header
  cases e.stage <;> rfl

theorem Entry.header_fits {rs : Nat} {e : Entry} (h : e.Ok rs) : e.header.Fits := by
  have hf := h.fits
  have hs : StCommitted < 2^32 := by decide
  have hd : StData < 2^32 := by decide
  unfold Entry.header
  cases e.stage with
  | reserved => exact hf
  | data => exact { hf with state := hd }
  | ended error =>
    cases error with
    | false => exact { hf with state := hs }
    | true => exact { hf with state := hs, flags := Nat.or_lt_two_pow hf.flags (by decide) }

theorem Entry.header_state {rs : Nat} {e : Entry} (h : e.Ok rs) :
    e.header.state = StCommitted ↔ ∃ error, e.stage = .ended error := by
  have hr := h.reserved
  unfold Entry.header
  cases e.stage with
  | reserved => simp [hr, StReserved, StCommitted]
  | data => simp [StData, StCommitted]
  | ended error => simp

/-- header and copied payload lie in the ring -/
structure Stored (rs : Nat) (m : Nat → UInt8) (e : Entry) : Prop where
  header : slice m (e.off % rs) RecSize = e.header.bytes
  payload : e.stage ≠ .reserved → slice m (e.off % rs + RecSize) e.payload = slice e.data 0 e.payload
  rest : slice m (e.off % rs + RecSize + e.payload) (slackLen e.payload) = e.slack

/-- a pad long enough for a header holds one -/
def PadStored (rs : Nat) (m : Nat → UInt8) (p pad : Nat) : Prop :=
  RecSize ≤ pad → slice m (p % rs) RecSize = (padRec pad).bytes

/-- `e` is the record that follows the position `p` -/
structure Link (rs : Nat) (m : Nat → UInt8) (p : Nat) (e : Entry) : Prop where
  ok : e.Ok rs
  off : e.off = p + padLen rs p e.need
  pad : PadStored rs m p (padLen rs p e.need)
  stored : Stored rs m e

def Chain (rs : Nat) (m : Nat → UInt8) : Nat → List Entry → Nat → Prop
  | p, [], h => p = h
  | p, e :: es, h => Link rs m p e ∧ Chain rs m (e.off + e.need) es h

theorem Link.fit {rs p : Nat} {m : Nat → UInt8} {e : Entry} (hrs : 0 < rs) (h : Link rs m p e) :
    e.off % rs + e.need ≤ rs := by
  rw [h.off]
  exact padLen_fit hrs (h.ok.small.trans (Nat.div_le_self rs _))

theorem Link.congr {rs p : Nat} {m m' : Nat → UInt8} {e : Entry} (hrs : 0 < rs)
    (h : Link rs m p e) (hs : SameOn rs m m' p (e.off + e.need)) : Link rs m' p e := by
  have hfit := h.fit hrs
  have hneed := recSize_le_need e
  have hoff := h.off
  have hsl := need_eq e
  refine ⟨h.ok, hoff, fun hp => ?_, ⟨?_, fun hst => ?_, ?_⟩⟩
  · have hin := padLen_inside (p:=p) (n:=e.need) hrs
    rw [slice_sameOn hs (by omega) le_rfl (by omega)]
    exact h.pad hp
  · rw [slice_sameOn hs (by omega) (by omega) (by omega)]
    exact h.stored.header
  · rw [← h.stored.payload hst]
    apply slice_congr
    intro i hi
    have e1 := mod_add_of_fit hfit (i:=RecSize + i) (by omega)
    have e2 := hs (e.off + (RecSize + i)) (by omega) (by omega)
    rw [e1, ← Nat.add_assoc] at e2
    exact e2
  · rw [← h.stored.rest]
    apply slice_congr
    intro i hi
    have e1 := mod_add_of_fit hfit (i:=RecSize + e.payload + i) (by omega)
    have e2 := hs (e.off + (RecSize + e.payload + i)) (by omega) (by omega)
    rw [e1, ← Nat.add_assoc, ← Nat.add_assoc] at e2
    exact e2

theorem Chain.le {rs : Nat} {m : Nat → UInt8} {es : List Entry} :
    ∀ {p h : Nat}, Chain rs m p es h → p ≤ h := by
  induction es with
  | nil => intro p h hc; exact le_of_eq hc
  | cons e es ih =>
    intro p h hc
    have h1 := ih hc.2
    have h2 := hc.1.off
    omega

theorem Chain.mem {rs : Nat} {m : Nat → UInt8} {es : List Entry} :
    ∀ {p h : Nat}, Chain rs m p es h → ∀ e ∈ es, ∃ q, p ≤ q ∧ Link rs m q e ∧ e.off + e.need ≤ h := by
  induction es with
  | nil => intro p h _ e he; exact absurd he List.not_mem_nil
  | cons e0 es ih =>
    intro p h hc e he
    have hoff := hc.1.off
    rcases List.mem_cons.mp he with rfl | he'
    · exact ⟨p, le_rfl, hc.1, hc.2.le⟩
    · obtain ⟨q, hq, hl, hh⟩ := ih hc.2 e he'
      exact ⟨q, by omega, hl, hh⟩

theorem Chain.congr {rs : Nat} {m m' : Nat → UInt8} (hrs : 0 < rs) {es : List Entry} :
    ∀ {p h : Nat}, Chain rs m p es h → SameOn rs m m' p h → Chain rs m' p es h := by
  induction es with
  | nil => intro p h hc _; exact hc
  | cons e es ih =>
    intro p h hc hs
    have hle := hc.2.le
    have hoff := hc.1.off
    exact ⟨hc.1.congr hrs (hs.mono le_rfl hle), ih hc.2 (hs.mono (by omega) le_rfl)⟩

theorem Chain.append {rs : Nat} {m : Nat → UInt8} {es fs : List Entry} :
    ∀ {p h : Nat}, Chain rs m p (es ++ fs) h ↔ ∃ q, Chain rs m p es q ∧ Chain rs m q fs h := by
  induction es with
  | nil =>
    intro p h
    constructor
    · intro hc; exact ⟨p, rfl, hc⟩
    · rintro ⟨q, rfl, hc⟩; exact hc
  | cons e es ih =>
    intro p h
    constructor
    · rintro ⟨hl, hc⟩
      obtain ⟨q, h1, h2⟩ := ih.mp hc
      exact ⟨q, ⟨hl, h1⟩, h2⟩
    · rintro ⟨q, ⟨hl, h1⟩, h2⟩
      exact ⟨hl, ih.mpr ⟨q, h1, h2⟩⟩

theorem Chain.snoc {rs p h : Nat} {m : Nat → UInt8} {es : List Entry} {e : Entry}
    (hc : Chain rs m p es h) (hl : Link rs m h e) : Chain rs m p (es ++ [e]) (e.off + e.need) :=
  Chain.append.mpr ⟨h, hc, hl, rfl⟩

theorem Chain.dvd {rs : Nat} {m : Nat → UInt8} (hrs : 8 ∣ rs) {es : List Entry} :
    ∀ {p h : Nat}, Chain rs m p es h → 8 ∣ p → 8 ∣ h := by
  induction es with
  | nil => rintro p h rfl hp; exact hp
  | cons e es ih =>
    intro p h hc hp
    apply ih hc.2
    rw [hc.1.off]
    exact Nat.dvd_add (Nat.dvd_add hp (padLen_dvd hrs hp)) (align8_dvd _)

end CDP
