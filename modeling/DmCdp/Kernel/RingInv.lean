import DmCdp.Kernel.Layout

/-!
# The invariant of the ring and what each operation does to it

`RingInv t live`: the ring between `t.tail` and `t.head` holds exactly the records `live`.

* `cdpReserve_cases`    a call of `cdp_reserve` is refused (`Target.overflow`) or granted
                        (`Target.grant`), and why;
* `RingInv.grant`       a granted reservation appends `newEntry`;
* `RingInv.copy`, `RingInv.endIo`  the later stores of a bio change its own record only;
* `RingInv.pop`         the tail moves past the first record;
* `RingInv.next`        one iteration of `cdp_next` from the tail or from the first record.
-/

set_option linter.unusedVariables false

namespace CDP
open Img

structure RingInv (t : Target) (live : List Entry) : Prop where
  size : 2^20 ≤ t.ringSize
  align : 8 ∣ t.ringSize
  bound : t.ringSize < 2^64
  head : t.head < 2^64
  room : t.head ≤ t.tail + t.ringSize
  tail : 8 ∣ t.tail
  chain : Chain t.ringSize t.ring t.tail live t.head

theorem RingInv.pos {t : Target} {live : List Entry} (h : RingInv t live) : 0 < t.ringSize :=
  lt_of_lt_of_le (by norm_num) h.size

/-! ## reservations -/

/-- the target after a granted reservation -/
def Target.grant (t : Target) (type flags sector len payload ts : Nat) : Target :=
  let need := recNeed payload
  let pad := padLen t.ringSize t.head need
  let ring := if RecSize ≤ pad then (padRec pad).store t.ring (t.head % t.ringSize) else t.ring
  { t with
    ring := (t.header type flags sector len need ts).store ring ((t.head + pad) % t.ringSize)
    gapPending := false
    seqNext := u64 (t.seqNext + 1)
    head := t.head + pad + need }

/-- the ghost entry of a granted reservation -/
def Target.newEntry (t : Target) (type flags sector len payload ts : Nat) (data : Nat → UInt8) :
    Entry where
  off := t.head + padLen t.ringSize t.head (recNeed payload)
  hdr := t.header type flags sector len (recNeed payload) ts
  payload := payload
  data := data
  slack := slice (t.grant type flags sector len payload ts).ring
    ((t.head + padLen t.ringSize t.head (recNeed payload)) % t.ringSize + RecSize + payload)
    (slackLen payload)
  stage := .reserved

/-- too large for a quarter of the ring, or no room between head and tail -/
def Refused (t : Target) (payload : Nat) : Prop :=
  t.ringSize / MaxRecDiv < recNeed payload ∨
    t.tail + t.ringSize < t.head + padLen t.ringSize t.head (recNeed payload) + recNeed payload

instance (t : Target) (payload : Nat) : Decidable (Refused t payload) :=
  inferInstanceAs (Decidable (_ ∨ _))

/-- the ring offsets stay below `2^64` -/
def NoWrap (t : Target) (payload : Nat) : Prop :=
  t.head + padLen t.ringSize t.head (recNeed payload) + recNeed payload < 2^64

instance (t : Target) (payload : Nat) : Decidable (NoWrap t payload) :=
  inferInstanceAs (Decidable (_ < _))

theorem cdpReserve_cases {t : Target} {live : List Entry} (h : RingInv t live)
    (type flags sector len payload ts : Nat) :
    (Refused t payload ∧ cdpReserve t type flags sector len payload ts = (none, t.overflow)) ∨
    (¬Refused t payload ∧ (NoWrap t payload → cdpReserve t type flags sector len payload ts =
      (some (t.head + padLen t.ringSize t.head (recNeed payload)),
        t.grant type flags sector len payload ts))) := by
  have hle := h.chain.le
  have hroom := h.room
  have hbound := h.bound
  have hpos := h.pos
  have hhead := h.head
  have e1 : u64sub t.ringSize (u64sub t.head t.tail) = t.ringSize - (t.head - t.tail) := by
    rw [u64sub_of_le hle h.head, u64sub_of_le (by omega) hbound]
  unfold cdpReserve Refused NoWrap
  by_cases hbig : recNeed payload > t.ringSize / MaxRecDiv
  · left
    refine ⟨Or.inl hbig, ?_⟩
    simp only [if_pos hbig]
  · simp only [if_neg hbig, e1]
    by_cases hfull : recNeed payload + padLen t.ringSize t.head (recNeed payload)
        > t.ringSize - (t.head - t.tail)
    · left
      refine ⟨Or.inr (by omega), ?_⟩
      rw [if_pos hfull]
    · right
      refine ⟨by omega, fun hw => ?_⟩
      rw [if_neg hfull, u64_of_lt (by omega), u64_of_lt (by omega)]
      have ep : (if padLen t.ringSize t.head (recNeed payload) = 0 then t.head % t.ringSize else 0)
          = (t.head + padLen t.ringSize t.head (recNeed payload)) % t.ringSize := by
        by_cases hp : padLen t.ringSize t.head (recNeed payload) = 0
        · rw [if_pos hp, hp, Nat.add_zero]
        · rw [if_neg hp, (padLen_boundary hpos hp).1]
      rw [ep]
      rfl

section
variable {t : Target} {live : List Entry} {type flags sector len payload ts : Nat}
  {data : Nat → UInt8}

theorem RingInv.grant_same (h : RingInv t live) (hr : ¬Refused t payload) :
    SameOn t.ringSize t.ring (t.grant type flags sector len payload ts).ring t.tail t.head := by
  unfold Refused at hr
  have hle := h.chain.le
  have hneed : RecSize + payload ≤ recNeed payload := le_align8 _
  have hin := padLen_inside (p:=t.head) (n:=recNeed payload) h.pos
  have hfit := padLen_fit (p:=t.head) (n:=recNeed payload) h.pos
    (by have := Nat.div_le_self t.ringSize MaxRecDiv; omega)
  have h2 := sameOn_store_past (a:=t.tail) (b:=t.head)
    (if RecSize ≤ padLen t.ringSize t.head (recNeed payload) then
      (padRec (padLen t.ringSize t.head (recNeed payload))).store t.ring (t.head % t.ringSize)
      else t.ring)
    (t.header type flags sector len (recNeed payload) ts) (by omega) (Nat.le_add_right t.head _)
    (by omega : t.head + padLen t.ringSize t.head (recNeed payload) + RecSize
      ≤ t.tail + t.ringSize)
  refine SameOn.trans ?_ h2
  by_cases hp : RecSize ≤ padLen t.ringSize t.head (recNeed payload)
  · rw [if_pos hp]
    exact sameOn_store_past _ _ (by omega) le_rfl (by omega)
  · rw [if_neg hp]
    exact SameOn.refl _ _ _ _

/-- the header `cdp_reserve` writes fits its C types -/
theorem Target.header_fits (ht : type < 2^16) (hf : flags < 2^32) (hs : sector < 2^64)
    (hl : len < 2^32) {need : Nat} (hn : need < 2^32) (hts : ts < 2^64)
    (hq : t.seqNext < 2^64) : (t.header type flags sector len need ts).Fits := by
  refine ⟨(by decide : RecMagic < 2^32), (by decide : AbiVersion < 2^16), ht, ?_,
    (by decide : StReserved < 2^32), hq, hs, hl, hn, hts, (by decide : 0 < 2^64)⟩
  show (if t.gapPending then flags ||| FGapBefore else flags) < 2^32
  split
  · exact Nat.or_lt_two_pow hf (by decide)
  · exact hf

/-- **A granted reservation appends its entry.** -/
theorem RingInv.grant (h : RingInv t live) (hr : ¬Refused t payload) (hw : NoWrap t payload)
    (hfits : (t.header type flags sector len (recNeed payload) ts).Fits) (htype : type ≠ RecPad) :
    RingInv (t.grant type flags sector len payload ts)
      (live ++ [t.newEntry type flags sector len payload ts data]) := by
  have hsame : SameOn t.ringSize t.ring (t.grant type flags sector len payload ts).ring
      t.tail t.head := h.grant_same hr
  unfold Refused at hr
  have hle := h.chain.le
  have hneed : RecSize + payload ≤ recNeed payload := le_align8 _
  have hin := padLen_inside (p:=t.head) (n:=recNeed payload) h.pos
  have hfit := padLen_fit (p:=t.head) (n:=recNeed payload) h.pos
    (by have := Nat.div_le_self t.ringSize MaxRecDiv; omega)
  refine ⟨h.size, h.align, h.bound, hw, ?_, h.tail, ?_⟩
  · show t.head + _ + _ ≤ t.tail + t.ringSize
    omega
  · refine (h.chain.congr h.pos hsame).snoc ⟨⟨hfits, rfl, htype, rfl, ?_⟩, rfl, ?_, ?_, ?_, ?_⟩
    · show recNeed payload ≤ t.ringSize / MaxRecDiv
      omega
    · intro hp
      change RecSize ≤ padLen t.ringSize t.head (recNeed payload) at hp
      have hring : (t.grant type flags sector len payload ts).ring
          = (t.header type flags sector len (recNeed payload) ts).store
            ((padRec (padLen t.ringSize t.head (recNeed payload))).store t.ring
              (t.head % t.ringSize))
            ((t.head + padLen t.ringSize t.head (recNeed payload)) % t.ringSize) := by
        simp only [Target.grant, if_pos hp]
      rw [hring]
      have hs := sameOn_store_past (a:=t.head) (b:=t.head + RecSize)
        ((padRec (padLen t.ringSize t.head (recNeed payload))).store t.ring (t.head % t.ringSize))
        (t.header type flags sector len (recNeed payload) ts) (n:=t.ringSize)
        (y:=t.head + padLen t.ringSize t.head (recNeed payload)) (by omega) (by omega) (by omega)
      exact (slice_sameOn hs (by omega) le_rfl le_rfl).trans (Rec.slice_store _ _ _)
    · exact Rec.slice_store _ _ _
    · intro hst
      exact absurd rfl hst
    · rfl

end

/-! ## stores inside one record -/

/-- same memory at the positions of `[lo, hi)` outside `[a, b)` -/
def SameOut (rs : Nat) (m m' : Nat → UInt8) (lo hi a b : Nat) : Prop :=
  ∀ x, lo ≤ x → x < hi → x < a ∨ b ≤ x → m' (x % rs) = m (x % rs)

theorem SameOut.trans {rs lo hi a b : Nat} {m n p : Nat → UInt8}
    (h : SameOut rs m n lo hi a b) (h' : SameOut rs n p lo hi a b) :
    SameOut rs m p lo hi a b :=
  fun x h1 h2 h3 => (h' x h1 h2 h3).trans (h x h1 h2 h3)

theorem sameOut_blit {rs lo hi off need k n : Nat} (m : Nat → UInt8) (f : Nat → UInt8)
    (hfit : off % rs + need ≤ rs) (hk : k + n ≤ need) (hlo : lo ≤ off) (hhi : off + need ≤ hi)
    (hw : hi ≤ lo + rs) :
    SameOut rs m (blit m (off % rs + k) n f) lo hi off (off + need) := by
  intro x h1 h2 h3
  rcases Nat.eq_zero_or_pos n with rfl | hn
  · rw [blit_zero]
  · rw [← mod_add_of_fit hfit (by omega : k < need)]
    have e := mod_add_of_fit hfit (by omega : k < need)
    exact blit_window f (by omega) (by omega) (by omega) (by omega)

theorem Chain.update {rs p h : Nat} {m m' : Nat → UInt8} (hrs : 0 < rs) {as bs : List Entry}
    {e e' : Entry} (hc : Chain rs m p (as ++ e :: bs) h) (hoff : e'.off = e.off)
    (hpay : e'.payload = e.payload) (hok : e'.Ok rs) (hst : Stored rs m' e')
    (hs : SameOut rs m m' p h e.off (e.off + e.need)) : Chain rs m' p (as ++ e' :: bs) h := by
  have hneed : e'.need = e.need := by rw [Entry.need, hpay, Entry.need]
  obtain ⟨q, h1, hl, h2⟩ := Chain.append.mp hc
  have hq := h1.le
  have hh := h2.le
  have heo := hl.off
  refine Chain.append.mpr ⟨q, h1.congr hrs fun x hx hx' => ?_, ⟨hok, ?_, fun hp => ?_, hst⟩, ?_⟩
  · exact hs x hx (by omega) (Or.inl (by omega))
  · rw [hoff, hneed]
    exact heo
  · rw [hneed] at hp ⊢
    have hin := padLen_inside (p:=q) (n:=e.need) hrs
    have hso : SameOn rs m m' q (q + RecSize) := fun x hx hx' =>
      hs x (by omega) (by omega) (Or.inl (by omega))
    rw [slice_sameOn hso (by omega) le_rfl le_rfl]
    exact hl.pad hp
  · rw [hoff, hneed]
    exact h2.congr hrs fun x hx hx' => hs x (by omega) hx' (Or.inr hx)

theorem RingInv.update {t t' : Target} {as bs : List Entry} {e e' : Entry}
    (h : RingInv t (as ++ e :: bs)) (hsz : t'.ringSize = t.ringSize) (hhd : t'.head = t.head)
    (htl : t'.tail = t.tail) (hoff : e'.off = e.off) (hpay : e'.payload = e.payload)
    (hok : e'.Ok t.ringSize) (hst : Stored t.ringSize t'.ring e')
    (hs : SameOut t.ringSize t.ring t'.ring t.tail t.head e.off (e.off + e.need)) :
    RingInv t' (as ++ e' :: bs) := by
  refine ⟨hsz ▸ h.size, hsz ▸ h.align, hsz ▸ h.bound, hhd ▸ h.head, ?_, htl ▸ h.tail, ?_⟩
  · rw [hsz, hhd, htl]
    exact h.room
  · rw [hsz, hhd, htl]
    exact h.chain.update h.pos hoff hpay hok hst hs

theorem RingInv.mem {t : Target} {live : List Entry} (h : RingInv t live) {e : Entry}
    (he : e ∈ live) : e.Ok t.ringSize ∧ Stored t.ringSize t.ring e ∧ t.tail ≤ e.off ∧
      e.off + e.need ≤ t.head ∧ e.off % t.ringSize + e.need ≤ t.ringSize := by
  obtain ⟨q, hq, hl, hh⟩ := h.chain.mem e he
  have hoff := hl.off
  exact ⟨hl.ok, hl.stored, by omega, hh, hl.fit h.pos⟩

/-- the header of a live record, as any load of it sees it -/
theorem RingInv.load {t : Target} {live : List Entry} (h : RingInv t live) {e : Entry}
    (he : e ∈ live) : Rec.load t.ring (e.off % t.ringSize) = e.header := by
  obtain ⟨hok, hst, _⟩ := h.mem he
  exact Rec.load_of_slice hst.header (Entry.header_fits hok)

theorem RingInv.copy {t : Target} {as bs : List Entry} {e : Entry}
    (h : RingInv t (as ++ e :: bs)) (hstage : e.stage = .reserved) :
    RingInv (cdpCopy t e.off e.payload e.data) (as ++ { e with stage := .data } :: bs) := by
  obtain ⟨hok, hst, hlo, hhi, hfit⟩ := h.mem (List.mem_append_right as List.mem_cons_self)
  have hneed := recSize_le_need e
  have hroom := h.room
  have hR : RecSize = 56 := rfl
  have hl4 : (le 4 StData).length = 4 := length_le 4 _
  refine h.update rfl rfl rfl rfl rfl ⟨hok.fits, hok.recLen, hok.type, hok.reserved, hok.small⟩
    ⟨?_, fun _ => ?_, ?_⟩ (SameOut.trans (n:=blit t.ring (e.off % t.ringSize + RecSize) e.payload e.data)
      (sameOut_blit _ _ hfit (by omega) hlo hhi hroom)
      (sameOut_blit _ _ hfit (k:=12) (by omega) hlo hhi hroom))
  · have h1 : slice (blit t.ring (e.off % t.ringSize + RecSize) e.payload e.data)
        (e.off % t.ringSize) RecSize = e.header.bytes := by
      rw [slice_blit_out _ _ (Or.inl le_rfl)]
      exact hst.header
    have h2 := slice_storeState StData h1
    have h3 : e.header = e.hdr := by unfold Entry.header; rw [hstage]
    rw [h3] at h2
    exact h2
  · show slice (putList _ _ _) (e.off % t.ringSize + RecSize) e.payload = _
    unfold putList
    rw [slice_blit_out _ _ (Or.inr (by omega)), slice_blit]
  · show slice (putList _ _ _) (e.off % t.ringSize + RecSize + e.payload) _ = _
    unfold putList
    rw [slice_blit_out _ _ (Or.inr (by omega)), slice_blit_out _ _ (Or.inr (by omega))]
    exact hst.rest

theorem RingInv.endIo {t : Target} {as bs : List Entry} {e : Entry}
    (h : RingInv t (as ++ e :: bs)) (hstage : e.stage = .data) (error : Bool) :
    RingInv (cdpEndIo t e.off error) (as ++ { e with stage := .ended error } :: bs) := by
  have hmem : e ∈ as ++ e :: bs := List.mem_append_right as List.mem_cons_self
  obtain ⟨hok, hst, hlo, hhi, hfit⟩ := h.mem hmem
  have hload := h.load hmem
  have hneed := recSize_le_need e
  have hroom := h.room
  have hR : RecSize = 56 := rfl
  have hl4 : ∀ n, (le 4 n).length = 4 := length_le 4
  have hhdr : e.header = { e.hdr with state := StData } := by unfold Entry.header; rw [hstage]
  have hflag : ∀ (m : Nat → UInt8) (f k n : Nat),
      slice (storeFlags m (e.off % t.ringSize) f) (e.off % t.ringSize + RecSize + k) n
        = slice m (e.off % t.ringSize + RecSize + k) n := by
    intro m f k n
    unfold storeFlags putList
    exact slice_blit_out _ _ (Or.inr (by rw [hl4]; omega))
  have hstate : ∀ (m : Nat → UInt8) (f k n : Nat),
      slice (storeState m (e.off % t.ringSize) f) (e.off % t.ringSize + RecSize + k) n
        = slice m (e.off % t.ringSize + RecSize + k) n := by
    intro m f k n
    unfold storeState putList
    exact slice_blit_out _ _ (Or.inr (by rw [hl4]; omega))
  have hpay := hst.payload (by rw [hstage]; exact EStage.noConfusion)
  have hflags : (Rec.load t.ring (e.off % t.ringSize)).flags = e.hdr.flags := by
    rw [hload, hhdr]
  cases error with
  | false =>
    have hring : (cdpEndIo t e.off false).ring
        = storeState t.ring (e.off % t.ringSize) StCommitted := rfl
    refine h.update rfl rfl rfl rfl rfl ⟨hok.fits, hok.recLen, hok.type, hok.reserved, hok.small⟩
      ?_ ?_
    · rw [hring]
      refine ⟨?_, fun _ => (hstate _ _ 0 _).trans hpay, (hstate _ _ _ _).trans hst.rest⟩
      have h2 := slice_storeState StCommitted hst.header
      rw [hhdr] at h2
      exact h2
    · rw [hring]
      exact sameOut_blit _ _ hfit (k:=12) (by rw [hl4]; omega) hlo hhi hroom
  | true =>
    have h1 := slice_storeFlags (e.hdr.flags ||| FError) hst.header
    rw [hhdr] at h1
    have hring : (cdpEndIo t e.off true).ring
        = storeState (storeFlags t.ring (e.off % t.ringSize) (e.hdr.flags ||| FError))
          (e.off % t.ringSize) StCommitted := by
      rw [← hflags]
      rfl
    refine h.update rfl rfl rfl rfl rfl ⟨hok.fits, hok.recLen, hok.type, hok.reserved, hok.small⟩
      ?_ ?_
    · rw [hring]
      have hh : { e with stage := .ended true }.header
          = { e.hdr with flags := e.hdr.flags ||| FError, state := StCommitted } := rfl
      have h3 := slice_storeState StCommitted h1
      exact ⟨by rw [hh]; exact h3,
        fun _ => ((hstate _ _ 0 _).trans (hflag _ _ 0 _)).trans hpay,
        ((hstate _ _ _ _).trans (hflag _ _ _ _)).trans hst.rest⟩
    · rw [hring]
      exact SameOut.trans
        (n:=storeFlags t.ring (e.off % t.ringSize) (e.hdr.flags ||| FError))
        (sameOut_blit _ _ hfit (k:=8) (by rw [hl4]; omega) hlo hhi hroom)
        (sameOut_blit _ _ hfit (k:=12) (by rw [hl4]; omega) hlo hhi hroom)

/-! ## the consumer -/

theorem RingInv.pop {t : Target} {e : Entry} {es : List Entry} (h : RingInv t (e :: es)) :
    RingInv { t with tail := e.off + e.need } es := by
  obtain ⟨hl, hc⟩ := h.chain
  have hoff := hl.off
  have hroom := h.room
  refine ⟨h.size, h.align, h.bound, h.head, ?_, ?_, hc⟩
  · show t.head ≤ e.off + e.need + t.ringSize
    omega
  · show 8 ∣ e.off + e.need
    rw [hoff]
    exact Nat.dvd_add (Nat.dvd_add h.tail (padLen_dvd h.align h.tail)) (align8_dvd _)

/-- **One iteration of `cdp_next`.**  From the tail it finds the first live record or skips the
pad before it; from the first record it finds it. -/
theorem RingInv.next {t : Target} {e : Entry} {es : List Entry} (h : RingInv t (e :: es)) :
    (cdpNextStep t t.tail = .found t.tail ∧ e.off = t.tail ∨ cdpNextStep t t.tail = .skip e.off) ∧
      cdpNextStep t e.off = .found e.off := by
  obtain ⟨hl, hc⟩ := h.chain
  obtain ⟨hok, hst, _, hhi, hfit⟩ := h.mem (List.mem_cons_self (l:=es))
  have hload := h.load (List.mem_cons_self (l:=es))
  have hneed := recSize_le_need e
  have hhead := h.head
  have hpos := h.pos
  have hR : RecSize = 56 := rfl
  have hfound : cdpNextStep t e.off = .found e.off := by
    rw [cdpNextStep_eq, if_neg (by omega), if_neg (by omega), hload, Entry.header_type,
      if_neg hok.type]
  refine ⟨?_, hfound⟩
  by_cases hp : padLen t.ringSize t.tail e.need = 0
  · have he : e.off = t.tail := by rw [hl.off, hp, Nat.add_zero]
    left
    rw [← he]
    exact ⟨hfound, rfl⟩
  · right
    obtain ⟨_, hpad⟩ := padLen_boundary hpos hp
    have hoff := hl.off
    rw [cdpNextStep_eq, if_neg (by omega)]
    by_cases hslack : t.ringSize - t.tail % t.ringSize < RecSize
    · rw [if_pos hslack, ← hpad, ← hoff, u64_of_lt (by omega : e.off < 2^64)]
    · have hpl := hl.pad (by omega)
      have hlt : padLen t.ringSize t.tail e.need < 2^32 := by
        have h1 := padLen_lt (r:=t.ringSize) (p:=t.tail) (by omega : 0 < e.need)
        have h2 := hok.fits.recLen
        rw [hok.recLen] at h2
        omega
      have hr := Rec.load_of_slice hpl (padRec_fits hlt)
      have htype : (padRec (padLen t.ringSize t.tail e.need)).type = RecPad := rfl
      rw [if_neg hslack, hr, if_pos htype]
      show NextStep.skip (u64 (t.tail + padLen t.ringSize t.tail e.need)) = _
      rw [← hoff, u64_of_lt (by omega)]

theorem RingInv.next_nil {t : Target} (h : RingInv t []) : cdpNextStep t t.tail = .null := by
  have e : t.tail = t.head := h.chain
  unfold cdpNextStep
  rw [if_pos (by omega)]

theorem RingInv.stateAt {t : Target} {live : List Entry} (h : RingInv t live) {e : Entry}
    (he : e ∈ live) : stateAt t e.off = StCommitted ↔ ∃ error, e.stage = .ended error := by
  unfold CDP.stateAt
  rw [h.load he]
  exact Entry.header_state (h.mem he).1

end CDP
