import DmCdp.Abi.Rec
import DmCdp.Kernel.Ring

/-!
# `cdp-apply`

The main loop of `tools/cdp-apply.c` on the bytes of the stream file and of the target.  What the
C library and the kernel decide is a parameter: `malloc` and `calloc`, the bytes behind a
`malloc`ed buffer, and the results of the `pwrite` calls in their order.

* `applyStep`    one iteration of the loop; `applyLoop` runs it, at most `fuel` times;
* `SRec.Clean`   a record that every check of the loop lets through;
* `applyStep_plain`   a record is written to the target and the loop goes on, or stops at `-s`;
* `applyLoop_through`   the loop over part of a stream, from any record on and with any `-f`;
* `apply_prefix`      a clean stream and `-s k`: exit 0, the first `k + 1` records applied.
-/

set_option linter.unusedVariables false

namespace CDP
open Img

/-! ## the loop -/

/-- what one call of `pwrite` does -/
inductive Pwrite where
  | wrote (n : Nat)
  | eintr
  | error
  deriving DecidableEq, Repr

/-- the rest of the environment -/
structure ApplyEnv where
  malloc : Nat → Bool
  calloc : Nat → Bool
  heap : Nat → UInt8

/-- `write_all` of `n` bytes `d` at `off`; once the list of results is used up, the kernel writes
all it is asked to -/
def writeAll : List Pwrite → (Nat → UInt8) → Nat → Nat → (Nat → UInt8) →
    Bool × (Nat → UInt8) × List Pwrite
  | [], img, off, n, d => (true, blit img off n d, [])
  | w :: io, img, off, n, d =>
    if n = 0 then (true, img, w :: io)
    else
      match w with
      | .eintr => writeAll io img off n d
      | .error => (false, img, io)
      | .wrote k =>
        writeAll io (blit img off (min k n) d) (off + min k n) (n - min k n)
          fun i => d (min k n + i)

structure ApplySt where
  pos : Nat
  img : Nat → UInt8
  zero : Option Nat
  haveSeq : Bool
  expect : Nat
  applied : Nat
  bytes : Nat
  io : List Pwrite

inductive ApplyOut where
  | next (st : ApplySt)
  | exit (rc : Nat) (st : ApplySt)

/-- a `u64` as `long long` -/
def toI64 (n : Nat) : Int := if n < 2^63 then n else n - 2^64

/-- `fseek(in, payload, SEEK_CUR)` -/
def fseekCur (pos payload : Nat) : Option Nat :=
  if 0 ≤ (pos : Int) + toI64 payload then some ((pos : Int) + toI64 payload).toNat else none

/-- `write_all(tfd, p, n, (off_t)sector * 512)`: the product wraps on 64 bits; `pwrite` refuses a
negative offset and a null `p` -/
def writeSector (st : ApplySt) (sector n : Nat) (p : Option (Nat → UInt8)) : Bool × ApplySt :=
  if n = 0 then (true, st)
  else if u64 (sector * 512) ≥ 2^63 then (false, st)
  else
    match p with
    | none => (false, st)
    | some d =>
      match writeAll st.io st.img (u64 (sector * 512)) n d with
      | (ok, img, io) => (ok, { st with img := img, io := io })

/-- the switch over the record type; `buf` is the payload and what lies behind it, or null -/
def applyRec (env : ApplyEnv) (r : Rec) (buf : Option (Nat → UInt8)) (st : ApplySt) :
    Bool × ApplySt :=
  if r.type = RecWrite then
    match writeSector st r.sector r.len buf with
    | (ok, st) => (ok, { st with bytes := st.bytes + r.len, applied := st.applied + 1 })
  else if r.type = RecZero ∨ r.type = RecDiscard then
    let zero := if r.len > st.zero.getD 0 then
      (if env.calloc r.len then some r.len else none) else st.zero
    let st := { st with zero := zero, applied := st.applied + 1 }
    if zero = none then (false, st) else writeSector st r.sector r.len (some fun _ => 0)
  -- FLUSH: nothing to do on replay
  else (true, st)

/-- `buf`: `payload` bytes of the stream at `pos`, and the heap behind them -/
def applyBuf (env : ApplyEnv) (s : List UInt8) (pos payload : Nat) : Option (Nat → UInt8) :=
  if payload = 0 then none
  else some fun i => if i < payload then s.getD (pos + i) 0 else env.heap i

def applyStep (env : ApplyEnv) (fromSeq stopSeq : Int) (s : List UInt8) (st : ApplySt) :
    ApplyOut :=
  if s.length < st.pos + RecSize then .exit 0 st
  else
    let r := Rec.parse (s.drop st.pos)
    let pos := st.pos + RecSize
    let payload := u64sub r.recLen RecSize
    if r.magic ≠ RecMagic then .exit 1 st
    else if toI64 r.seq < fromSeq then
      -- skip records before the resume point
      match (if payload = 0 then some pos else fseekCur pos payload) with
      | none => .exit 1 st
      | some pos => .next { st with pos := pos }
    else if st.haveSeq = true ∧ r.seq ≠ st.expect then .exit 1 st
    else if hasFlag r.flags FGapBefore = true ∧ toI64 r.seq ≠ fromSeq then .exit 3 st
    else if hasFlag r.flags FError = true then .exit 1 st
    else
      let st := { st with haveSeq := true, expect := u64 (r.seq + 1) }
      -- no allocation is larger than `PTRDIFF_MAX`
      if payload ≠ 0 ∧ (payload ≥ 2^63 ∨ env.malloc payload = false ∨ s.length < pos + payload) then
        .exit 1 st
      else
        match applyRec env r (applyBuf env s pos payload) { st with pos := pos + payload } with
        | (false, st) => .exit 1 st
        | (true, st) =>
          if 0 ≤ stopSeq ∧ toI64 r.seq ≥ stopSeq then .exit 0 st else .next st

def applyLoop (env : ApplyEnv) (fromSeq stopSeq : Int) (s : List UInt8) :
    Nat → ApplySt → Option (Nat × ApplySt)
  | 0, _ => none
  | fuel + 1, st =>
    match applyStep env fromSeq stopSeq s st with
    | .exit rc st => some (rc, st)
    | .next st => applyLoop env fromSeq stopSeq s fuel st

/-- where the loop starts -/
def applyInit (img : Nat → UInt8) (io : List Pwrite) : ApplySt := ⟨0, img, none, false, 0, 0, 0, io⟩

/-! ## records the loop lets through -/

/-- a record of the stream -/
structure SRec where
  hdr : Rec
  body : List UInt8

def SRec.bytes (r : SRec) : List UInt8 := r.hdr.bytes ++ r.body

structure SRec.Clean (r : SRec) : Prop where
  fits : r.hdr.Fits
  magic : r.hdr.magic = RecMagic
  recLen : r.hdr.recLen = RecSize + r.body.length
  gap : hasFlag r.hdr.flags FGapBefore = false
  error : hasFlag r.hdr.flags FError = false
  write : r.hdr.type = RecWrite → r.hdr.len ≤ r.body.length
  zero : r.hdr.type = RecZero ∨ r.hdr.type = RecDiscard → 0 < r.hdr.len
  off : r.hdr.sector * 512 < 2^63

/-- a record that the loop applies where a gap flag does not stop it -/
structure SRec.Plain (r : SRec) : Prop where
  fits : r.hdr.Fits
  magic : r.hdr.magic = RecMagic
  recLen : r.hdr.recLen = RecSize + r.body.length
  error : hasFlag r.hdr.flags FError = false
  write : r.hdr.type = RecWrite → r.hdr.len ≤ r.body.length
  zero : r.hdr.type = RecZero ∨ r.hdr.type = RecDiscard → 0 < r.hdr.len
  off : r.hdr.type = RecWrite ∨ r.hdr.type = RecZero ∨ r.hdr.type = RecDiscard →
    r.hdr.sector * 512 < 2^63

theorem SRec.Clean.plain {r : SRec} (h : r.Clean) : r.Plain :=
  ⟨h.fits, h.magic, h.recLen, h.error, h.write, h.zero, fun _ => h.off⟩

/-- what a record writes -/
def SRec.patch (r : SRec) : Nat → Option UInt8 :=
  if r.hdr.type = RecWrite then span (r.hdr.sector * 512) r.hdr.len fun i => r.body.getD i 0
  else if r.hdr.type = RecZero ∨ r.hdr.type = RecDiscard then
    span (r.hdr.sector * 512) r.hdr.len fun _ => 0
  else fun _ => none

/-- a record whose type goes to the target -/
def Rec.Writes (r : Rec) : Prop := r.type = RecWrite ∨ r.type = RecZero ∨ r.type = RecDiscard

instance (r : Rec) : Decidable r.Writes := inferInstanceAs (Decidable (_ ∨ _))

/-- no call of `pwrite` fails -/
def NoError (io : List Pwrite) : Prop := Pwrite.error ∉ io

instance (io : List Pwrite) : Decidable (NoError io) := inferInstanceAs (Decidable (¬_))

/-- memory can be had -/
structure ApplyEnv.Ample (env : ApplyEnv) : Prop where
  malloc : ∀ n, env.malloc n = true
  calloc : ∀ n, env.calloc n = true

/-- short writes and interrupts do not change what is written -/
theorem writeAll_ok {io : List Pwrite} : ∀ {m : Nat → UInt8} {o n : Nat} {d : Nat → UInt8},
    NoError io → ∃ io', NoError io' ∧ writeAll io m o n d = (true, blit m o n d, io') := by
  induction io with
  | nil => intro m o n d h; exact ⟨[], h, rfl⟩
  | cons w io ih =>
    intro m o n d h
    have hio : NoError io := fun he => h (List.mem_cons_of_mem w he)
    unfold writeAll
    by_cases hn : n = 0
    · subst hn
      exact ⟨w :: io, h, by rw [if_pos rfl, blit_zero]⟩
    · rw [if_neg hn]
      cases w with
      | eintr => exact ih hio
      | error => exact absurd List.mem_cons_self h
      | wrote k =>
        obtain ⟨io', h1, h2⟩ := ih (m:=blit m o (min k n) d) (o:=o + min k n)
          (n:=n - min k n) (d:=fun i => d (min k n + i)) hio
        rw [blit_split m d (Nat.min_le_right k n)] at h2
        exact ⟨io', h1, h2⟩

theorem u64_sector {sector : Nat} (h : sector * 512 < 2^63) : u64 (sector * 512) = sector * 512 :=
  u64_of_lt (by omega)

theorem writeSector_ok {s : ApplySt} {sector n : Nat} {p : Option (Nat → UInt8)}
    {d : Nat → UInt8} (h : NoError s.io) (hoff : sector * 512 < 2^63)
    (hp : n ≠ 0 → ∃ b, p = some b ∧ ∀ i, i < n → b i = d i) : ∃ io', NoError io' ∧
      writeSector s sector n p
        = (true, { s with img := blit s.img (sector * 512) n d, io := io' }) := by
  unfold writeSector
  by_cases hn : n = 0
  · subst hn
    exact ⟨s.io, h, by rw [if_pos rfl, blit_zero]⟩
  · obtain ⟨b, rfl, hb⟩ := hp hn
    obtain ⟨io', h1, h2⟩ := writeAll_ok (m:=s.img) (o:=sector * 512) (n:=n) (d:=b) h
    refine ⟨io', h1, ?_⟩
    rw [if_neg hn, u64_sector hoff, if_neg (by omega)]
    dsimp only
    rw [h2, blit_congr hb]

theorem applyRec_ok {env : ApplyEnv} {r : SRec} {p : Option (Nat → UInt8)} {s : ApplySt}
    (henv : env.Ample) (hr : r.Plain) (hio : NoError s.io)
    (hbuf : r.body.length ≠ 0 → ∃ b, p = some b ∧
      ∀ i, i < r.body.length → b i = r.body.getD i 0) :
    ∃ st', applyRec env r.hdr p s = (true, st') ∧ st'.img = overlay r.patch s.img ∧
      st'.pos = s.pos ∧ st'.haveSeq = s.haveSeq ∧ st'.expect = s.expect ∧ NoError st'.io ∧
      st'.applied = s.applied + if r.hdr.Writes then 1 else 0 := by
  unfold applyRec SRec.patch
  by_cases hw : r.hdr.type = RecWrite
  · rw [if_pos hw, if_pos hw]
    have hle := hr.write hw
    obtain ⟨io', h1, h2⟩ := writeSector_ok (n:=r.hdr.len) (p:=p) (d:=fun i => r.body.getD i 0)
      hio (hr.off (Or.inl hw)) fun hn => by
        obtain ⟨b, h3, h4⟩ := hbuf (by omega)
        exact ⟨b, h3, fun i hi => h4 i (lt_of_lt_of_le hi hle)⟩
    have hW : r.hdr.Writes := Or.inl hw
    rw [h2, if_pos hW]
    exact ⟨_, rfl, rfl, rfl, rfl, rfl, h1, rfl⟩
  · rw [if_neg hw, if_neg hw]
    by_cases hz : r.hdr.type = RecZero ∨ r.hdr.type = RecDiscard
    · rw [if_pos hz, if_pos hz]
      have hlen := hr.zero hz
      obtain ⟨z, hzero⟩ : ∃ z, (if r.hdr.len > s.zero.getD 0 then
          (if env.calloc r.hdr.len then some r.hdr.len else none) else s.zero) = some z := by
        rw [henv.calloc, if_pos rfl]
        cases hst : s.zero with
        | none => exact ⟨r.hdr.len, if_pos hlen⟩
        | some n =>
          split
          · exact ⟨_, rfl⟩
          · exact ⟨n, rfl⟩
      dsimp only
      rw [hzero, if_neg (by simp)]
      obtain ⟨io', h1, h2⟩ := writeSector_ok
        (s:={ s with zero := some z, applied := s.applied + 1 }) (n:=r.hdr.len)
        (p:=some fun _ => 0) (d:=fun _ => 0) hio (hr.off (Or.inr hz))
        fun _ => ⟨_, rfl, fun _ _ => rfl⟩
      have hW : r.hdr.Writes := Or.inr hz
      rw [h2, if_pos hW]
      exact ⟨_, rfl, rfl, rfl, rfl, rfl, h1, rfl⟩
    · have hW : ¬r.hdr.Writes := not_or.mpr ⟨hw, hz⟩
      rw [if_neg hz, if_neg hz, if_neg hW]
      exact ⟨s, rfl, rfl, rfl, rfl, rfl, hio, rfl⟩

theorem SRec.length_bytes (r : SRec) : r.bytes.length = RecSize + r.body.length := by
  unfold SRec.bytes
  rw [List.length_append, Rec.length_bytes]

theorem SRec.parse_bytes (r : SRec) (h : r.hdr.Fits) (rest : List UInt8) :
    Rec.parse (r.bytes ++ rest) = r.hdr := by
  rw [SRec.bytes, List.append_assoc]
  exact r.hdr.parse_bytes h _

theorem getD_of_drop {s rest : List UInt8} {pos : Nat} {r : SRec}
    (h : s.drop pos = r.bytes ++ rest) {i : Nat} (hi : i < r.body.length) :
    s.getD (pos + RecSize + i) 0 = r.body.getD i 0 := by
  have e1 : s[pos + RecSize + i]? = (s.drop pos)[RecSize + i]? := by
    rw [List.getElem?_drop, Nat.add_assoc]
  rw [List.getD_eq_getElem?_getD, e1, h, List.getD_eq_getElem?_getD]
  unfold SRec.bytes
  rw [List.append_assoc, List.getElem?_append_right (by rw [Rec.length_bytes]; omega),
    Rec.length_bytes, Nat.add_sub_cancel_left, List.getElem?_append_left hi]

theorem SRec.Plain.front {s rest : List UInt8} {pos : Nat} {r : SRec} (hr : r.Plain)
    (hs : s.drop pos = r.bytes ++ rest) : pos + r.bytes.length ≤ s.length ∧
      Rec.parse (s.drop pos) = r.hdr ∧ u64sub r.hdr.recLen RecSize = r.body.length := by
  refine ⟨?_, ?_, ?_⟩
  · have h1 := congrArg List.length hs
    have h2 := r.length_bytes
    rw [List.length_drop, List.length_append] at h1
    have hR : RecSize = 56 := rfl
    omega
  · rw [hs]
    exact r.parse_bytes hr.fits rest
  · have h1 := hr.recLen
    have h2 := hr.fits.recLen
    rw [u64sub_of_le (by omega) (by omega)]
    omega

/-- **One iteration on a record that passes the checks.** -/
theorem applyStep_plain {env : ApplyEnv} {f z : Int} {s rest : List UInt8}
    {st : ApplySt} {r : SRec} (henv : env.Ample) (hr : r.Plain) (hio : NoError st.io)
    (hs : s.drop st.pos = r.bytes ++ rest) (hfrom : f ≤ toI64 r.hdr.seq)
    (hseq : st.haveSeq = true → r.hdr.seq = st.expect)
    (hgap : hasFlag r.hdr.flags FGapBefore = true → toI64 r.hdr.seq = f) :
    ∃ st', applyStep env f z s st =
        (if 0 ≤ z ∧ toI64 r.hdr.seq ≥ z then .exit 0 st' else .next st') ∧
      st'.img = overlay r.patch st.img ∧ st'.pos = st.pos + r.bytes.length ∧
      st'.haveSeq = true ∧ st'.expect = u64 (r.hdr.seq + 1) ∧ NoError st'.io ∧
      st'.applied = st.applied + if r.hdr.Writes then 1 else 0 := by
  have hblen := r.length_bytes
  obtain ⟨hlen, hparse, hpay⟩ := hr.front hs
  unfold applyStep
  rw [if_neg (by omega), hparse]
  dsimp only
  rw [hpay, if_neg (not_not.mpr hr.magic), if_neg (by omega), if_neg (by
    rintro ⟨h1, h2⟩
    exact h2 (hseq h1)), if_neg (fun h => h.2 (hgap h.1)), if_neg (by rw [hr.error]; simp),
    if_neg (by
      rw [henv.malloc]
      have h32 := hr.fits.recLen
      have hrl := hr.recLen
      rintro ⟨-, h | h | h⟩
      · omega
      · cases h
      · omega)]
  obtain ⟨st', h1, h2, h3, h4, h5, h6, h7⟩ := applyRec_ok (r:=r)
    (p:=applyBuf env s (st.pos + RecSize) r.body.length)
    (s:={ st with
      haveSeq := true, expect := u64 (r.hdr.seq + 1), pos := st.pos + RecSize + r.body.length })
    henv hr hio fun hn => ⟨_, if_neg hn, fun i hi => by rw [if_pos hi, getD_of_drop hs hi]⟩
  rw [h1]
  refine ⟨st', rfl, h2, ?_, h4, h5, h6, h7⟩
  rw [h3, hblen]
  exact Nat.add_assoc _ _ _

/-- the bytes of a stream -/
def streamBytes (rs : List SRec) : List UInt8 := (rs.map SRec.bytes).flatten

theorem streamBytes_append (a b : List SRec) :
    streamBytes (a ++ b) = streamBytes a ++ streamBytes b := by
  unfold streamBytes
  rw [List.map_append, List.flatten_append]

theorem length_streamBytes (l : List SRec) : l.length ≤ (streamBytes l).length := by
  induction l with
  | nil => exact Nat.zero_le _
  | cons r l ih =>
    have hR : RecSize = 56 := rfl
    have h := r.length_bytes
    show (r :: l).length ≤ (r.bytes ++ streamBytes l).length
    rw [List.length_cons, List.length_append]
    omega

theorem toI64_of_lt {n : Nat} (h : n < 2^63) : toI64 n = n := if_pos h

theorem applyLoop_clean {env : ApplyEnv} {s : List UInt8} (henv : env.Ample) {rs : List SRec} :
    ∀ {k j : Nat} {q : ApplySt}, (∀ r ∈ rs, r.Clean) → NoError q.io →
      s.drop q.pos = streamBytes rs →
      (∀ (i : Nat) (r : SRec), rs[i]? = some r → r.hdr.seq = j + i) →
      (q.haveSeq = true → q.expect = j) → k < rs.length → j + k < 2^63 →
      ∃ st', applyLoop env (-1) ((j + k : Nat) : Int) s (k + 1) q = some (0, st') ∧
        st'.img = replay ((rs.take (k + 1)).map SRec.patch) q.img := by
  induction rs with
  | nil => intro k j q _ _ _ _ _ hk; exact absurd hk (Nat.not_lt_zero k)
  | cons r rs ih =>
    intro k j q hclean hio hs hseq hexp hk hlt
    have hr := hclean r List.mem_cons_self
    have hrj : r.hdr.seq = j := hseq 0 r rfl
    have hi64 : toI64 r.hdr.seq = (j : Int) := by rw [hrj, toI64_of_lt (by omega)]
    obtain ⟨st1, h1, h2, h3, h4, h5, h6, _⟩ := applyStep_plain (f:=-1)
      (z:=((j + k : Nat) : Int)) henv hr.plain hio hs (by rw [hi64]; omega)
      (fun e => by rw [hrj, hexp e]) (fun e => by rw [hr.gap] at e; cases e)
    unfold applyLoop
    rw [h1, hi64]
    cases k with
    | zero =>
      rw [if_pos (by omega)]
      exact ⟨st1, rfl, h2⟩
    | succ k =>
      rw [if_neg (by omega)]
      have hdrop : s.drop st1.pos = streamBytes rs := by
        rw [h3, ← List.drop_drop, hs]
        show (r.bytes ++ streamBytes rs).drop r.bytes.length = _
        exact List.drop_left' rfl
      have hj : u64 (r.hdr.seq + 1) = j + 1 := by rw [hrj, u64_of_lt (by omega)]
      obtain ⟨st2, g1, g2⟩ := ih (k:=k) (j:=j + 1) (q:=st1)
        (fun x hx => hclean x (List.mem_cons_of_mem r hx)) h6 hdrop
        (fun i x hx => by rw [hseq (i + 1) x hx]; omega) (fun _ => by rw [h5, hj])
        (by rw [List.length_cons] at hk; omega) (by omega)
      have e : j + 1 + k = j + (k + 1) := by omega
      rw [e] at g1
      refine ⟨st2, g1, ?_⟩
      rw [g2, h2]
      rfl

/-- **`cdp-apply -s k` on a clean stream** exits 0 after the first `k + 1` records. -/
theorem apply_prefix {env : ApplyEnv} {l : List SRec} {k : Nat} {io : List Pwrite}
    (henv : env.Ample) (hclean : ∀ r ∈ l, r.Clean) (hio : NoError io)
    (hseq : ∀ (i : Nat) (r : SRec), l[i]? = some r → r.hdr.seq = i) (hk : k < l.length) (hlt : k < 2^63)
    (img : Nat → UInt8) : ∃ st', applyLoop env (-1) (k : Int) (streamBytes l) (k + 1)
        (applyInit img io) = some (0, st') ∧
      st'.img = replay ((l.take (k + 1)).map SRec.patch) img := by
  have h := applyLoop_clean (s:=streamBytes l) henv (k:=k) (j:=0) (q:=applyInit img io)
    hclean hio rfl (fun i r hr => by rw [hseq i r hr]; omega) (fun e => by cases e) hk (by omega)
  rw [Nat.zero_add] at h
  exact h

/-! ## part of a stream -/

/-- consecutive numbers from `j` on -/
def SeqFrom (j : Nat) (rs : List SRec) : Prop :=
  ∀ (i : Nat) (r : SRec), rs[i]? = some r → r.hdr.seq = j + i

theorem SeqFrom.tail {j : Nat} {r : SRec} {rs : List SRec} (h : SeqFrom j (r :: rs)) :
    SeqFrom (j + 1) rs := by
  intro i x hx
  rw [h (i + 1) x hx]
  omega

/-- the loop stands before `rest`, and record `j` comes next -/
structure ApplySt.At (s rest : List UInt8) (j : Nat) (q : ApplySt) : Prop where
  io : NoError q.io
  here : s.drop q.pos = rest
  expect : q.haveSeq = true → q.expect = j

/-- **The loop goes through a part of the stream** and applies it. -/
theorem applyLoop_through {env : ApplyEnv} {f : Int} {s rest : List UInt8} (henv : env.Ample)
    (rs : List SRec) : ∀ {j : Nat} {q : ApplySt}, q.At s (streamBytes rs ++ rest) j →
      (∀ r ∈ rs, r.Plain) → SeqFrom j rs →
      (∀ r ∈ rs, hasFlag r.hdr.flags FGapBefore = true → toI64 r.hdr.seq = f) → f ≤ j →
      j + rs.length ≤ 2^63 →
      ∃ q', q'.At s rest (j + rs.length) ∧ q'.img = replay (rs.map SRec.patch) q.img ∧
        ∀ fuel, applyLoop env f (-1) s (rs.length + fuel) q = applyLoop env f (-1) s fuel q' := by
  induction rs with
  | nil =>
    intro j q hq _ _ _ _ _
    refine ⟨q, hq, rfl, fun fuel => ?_⟩
    rw [List.length_nil, Nat.zero_add]
  | cons r rs ih =>
    intro j q hq hplain hseq hgap hf hlt
    rw [List.length_cons] at hlt
    have hrj : r.hdr.seq = j := hseq 0 r rfl
    have hi64 : toI64 r.hdr.seq = (j : Int) := by rw [hrj, toI64_of_lt (by omega)]
    have hs : s.drop q.pos = r.bytes ++ (streamBytes rs ++ rest) := by
      rw [hq.here, ← List.append_assoc]
      rfl
    obtain ⟨q1, h1, h2, h3, h4, h5, h6, _⟩ := applyStep_plain (f:=f) (z:=-1) henv
      (hplain r List.mem_cons_self) hq.io hs (by rw [hi64]; exact hf)
      (fun e => by rw [hrj, hq.expect e]) (hgap r List.mem_cons_self)
    have hdrop : s.drop q1.pos = streamBytes rs ++ rest := by
      rw [h3, ← List.drop_drop, hs]
      exact List.drop_left' rfl
    have hj : u64 (r.hdr.seq + 1) = j + 1 := by rw [hrj, u64_of_lt (by omega)]
    obtain ⟨q2, g1, g2, g3⟩ := ih (j:=j + 1) (q:=q1) ⟨h6, hdrop, fun _ => h5.trans hj⟩
      (fun x hx => hplain x (List.mem_cons_of_mem r hx)) hseq.tail
      (fun x hx => hgap x (List.mem_cons_of_mem r hx)) (by omega) (by omega)
    have e : j + 1 + rs.length = j + (r :: rs).length := by rw [List.length_cons]; omega
    rw [e] at g1
    refine ⟨q2, g1, ?_, fun fuel => ?_⟩
    · rw [g2, h2]
      rfl
    · have e2 : (r :: rs).length + fuel = rs.length + fuel + 1 := by
        rw [List.length_cons]
        omega
      rw [e2, ← g3 fuel]
      show (match applyStep env f (-1) s q with
        | .exit rc st => some (rc, st)
        | .next st => applyLoop env f (-1) s (rs.length + fuel) st) = _
      rw [h1, if_neg (by omega)]

theorem applyStep_skip {env : ApplyEnv} {f z : Int} {s rest : List UInt8} {st : ApplySt} {r : SRec}
    (hr : r.Plain) (hs : s.drop st.pos = r.bytes ++ rest) (hfrom : toI64 r.hdr.seq < f) :
    applyStep env f z s st = .next { st with pos := st.pos + r.bytes.length } := by
  have hblen := r.length_bytes
  obtain ⟨hlen, hparse, hpay⟩ := hr.front hs
  have h32 := hr.fits.recLen
  have hrl := hr.recLen
  have hpos : st.pos + RecSize + r.body.length = st.pos + r.bytes.length := by omega
  unfold applyStep
  rw [if_neg (by omega), hparse]
  dsimp only
  rw [hpay, if_neg (not_not.mpr hr.magic), if_pos hfrom]
  by_cases hb : r.body.length = 0
  · rw [if_pos hb]
    dsimp only
    rw [← hpos, hb, Nat.add_zero]
  · have hseek : fseekCur (st.pos + RecSize) r.body.length
        = some (st.pos + RecSize + r.body.length) := by
      unfold fseekCur
      rw [toI64_of_lt (by omega), if_pos (by omega)]
      congr 1
    rw [if_neg hb, hseek]
    dsimp only
    rw [hpos]

/-- **The records before the resume point are skipped.** -/
theorem applyLoop_skip (env : ApplyEnv) {f z : Int} {s rest : List UInt8} (rs : List SRec) :
    ∀ {q : ApplySt}, s.drop q.pos = streamBytes rs ++ rest →
      (∀ r ∈ rs, r.Plain ∧ toI64 r.hdr.seq < f) →
      ∃ pos, s.drop pos = rest ∧ ∀ fuel, applyLoop env f z s (rs.length + fuel) q
        = applyLoop env f z s fuel { q with pos := pos } := by
  induction rs with
  | nil =>
    intro q hs _
    refine ⟨q.pos, hs, fun fuel => ?_⟩
    rw [List.length_nil, Nat.zero_add]
  | cons r rs ih =>
    intro q hs hall
    obtain ⟨hr, hlt⟩ := hall r List.mem_cons_self
    have hs1 : s.drop q.pos = r.bytes ++ (streamBytes rs ++ rest) := by
      rw [hs, ← List.append_assoc]
      rfl
    have hdrop : s.drop (q.pos + r.bytes.length) = streamBytes rs ++ rest := by
      rw [← List.drop_drop, hs1]
      exact List.drop_left' rfl
    obtain ⟨pos, h1, h2⟩ := ih (q:={ q with pos := q.pos + r.bytes.length }) hdrop
      fun x hx => hall x (List.mem_cons_of_mem r hx)
    refine ⟨pos, h1, fun fuel => ?_⟩
    have e : (r :: rs).length + fuel = rs.length + fuel + 1 := by
      rw [List.length_cons]
      omega
    have h3 := h2 fuel
    rw [e]
    show (match applyStep env f z s q with
      | .exit rc st => some (rc, st)
      | .next st => applyLoop env f z s (rs.length + fuel) st) = _
    rw [applyStep_skip hr hs1 hlt]
    exact h3

/-- **A gap that is not the resume point**: exit 3. -/
theorem applyLoop_gap {env : ApplyEnv} {f z : Int} {s rest : List UInt8} {j fuel : Nat}
    {q : ApplySt} {r : SRec} (hr : r.Plain) (hq : q.At s (r.bytes ++ rest) j)
    (hj : r.hdr.seq = j) (hgap : hasFlag r.hdr.flags FGapBefore = true)
    (hfrom : f < toI64 r.hdr.seq) : applyLoop env f z s (fuel + 1) q = some (3, q) := by
  obtain ⟨hlen, hparse, hpay⟩ := hr.front hq.here
  have hblen := r.length_bytes
  show (match applyStep env f z s q with
    | .exit rc st => some (rc, st)
    | .next st => applyLoop env f z s fuel st) = _
  unfold applyStep
  rw [if_neg (by omega), hparse]
  dsimp only
  rw [if_neg (not_not.mpr hr.magic), if_neg (by omega), if_neg (by
    rintro ⟨h1, h2⟩
    exact h2 (hj.trans (hq.expect h1).symm)), if_pos ⟨hgap, by omega⟩]

theorem applyLoop_end {env : ApplyEnv} {f z : Int} {s : List UInt8} {j fuel : Nat} {q : ApplySt}
    (hq : q.At s [] j) : applyLoop env f z s (fuel + 1) q = some (0, q) := by
  have hlen := List.drop_eq_nil_iff.mp hq.here
  have hR : RecSize = 56 := rfl
  show (match applyStep env f z s q with
    | .exit rc st => some (rc, st)
    | .next st => applyLoop env f z s fuel st) = _
  unfold applyStep
  rw [if_pos (by omega)]

/-- **`cdp-apply` on a whole stream** exits 0 and applies every record. -/
theorem apply_all {env : ApplyEnv} {io : List Pwrite} {rs : List SRec} {j : Nat}
    (henv : env.Ample) (hio : NoError io) (hplain : ∀ r ∈ rs, r.Plain) (hseq : SeqFrom j rs)
    (hgap : ∀ r ∈ rs, hasFlag r.hdr.flags FGapBefore = false) (hlt : j + rs.length ≤ 2^63)
    (img : Nat → UInt8) : ∃ q, applyLoop env (-1) (-1) (streamBytes rs) (rs.length + 1)
        (applyInit img io) = some (0, q) ∧ q.img = replay (rs.map SRec.patch) img := by
  have h0 : (applyInit img io).At (streamBytes rs) (streamBytes rs ++ []) j :=
    ⟨hio, (List.append_nil _).symm, fun e => by cases e⟩
  obtain ⟨q, h1, h2, h3⟩ := applyLoop_through (f:=-1) henv rs h0 hplain hseq
    (fun r hr e => by rw [hgap r hr] at e; cases e) (by omega) hlt
  exact ⟨q, by rw [h3 1, applyLoop_end h1], h2⟩

end CDP
