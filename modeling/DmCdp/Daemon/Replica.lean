import DmCdp.Abi.Rec
import DmCdp.Lib.Catchup

/-!
# The replica and the copy protocol of `rkcdpd`

* `Item`             `(r, payload)` as `iter_records` yields it;
* `replicaWrite`     `Replica.write`; `replicaWrite_eq` says that it applies `Item.patch`;
* `Shared`           the replica and the fields of `Daemon` that both threads use under `self.lock`;
* `Shared.applyOne`  `Daemon.apply_one`;
* `chunkStep`        the steps of `Daemon.copy_chunk` after the chunk has been flagged.
-/

set_option linter.unusedVariables false

namespace CDP
open Img

/-! ## records and the replica -/

/-- a record with its payload; `mv[a : a + len]` has at most `len` bytes -/
structure Item where
  hdr : Rec
  payload : List UInt8
  short : payload.length ≤ hdr.len

/-- `start` and `end` of `apply_one` -/
def Item.first (r : Item) : Nat := r.hdr.sector * 512
def Item.stop (r : Item) : Nat := r.hdr.sector * 512 + r.hdr.len

/-- `Replica.pwrite` without the seed layer, which writes another file -/
def pwrite (img : Nat → UInt8) (buf : List UInt8) (off : Nat) : Nat → UInt8 := putList img off buf

/-- `Replica.punch`: the hole and the written zeros read the same -/
def punch (img : Nat → UInt8) (off length : Nat) : Nat → UInt8 := blit img off length fun _ => 0

def replicaWrite (img : Nat → UInt8) (r : Item) : Nat → UInt8 :=
  if r.hdr.type = RecWrite then pwrite img r.payload (r.hdr.sector * 512)
  else if r.hdr.type = RecDiscard ∨ r.hdr.type = RecZero then
    punch img (r.hdr.sector * 512) r.hdr.len
  else img

/-- the bytes a record gives the replica -/
def Item.patch (r : Item) : Nat → Option UInt8 :=
  if r.hdr.type = RecWrite then
    span (r.hdr.sector * 512) r.payload.length fun i => r.payload.getD i default
  else if r.hdr.type = RecDiscard ∨ r.hdr.type = RecZero then
    span (r.hdr.sector * 512) r.hdr.len fun _ => 0
  else fun _ => none

theorem replicaWrite_eq (img : Nat → UInt8) (r : Item) :
    replicaWrite img r = overlay r.patch img := by
  unfold replicaWrite Item.patch
  split
  · rfl
  · split
    · rfl
    · funext x
      rfl

/-- **A record writes inside `[start, end)`.** -/
theorem Item.patch_range {r : Item} {x : Nat} (h : r.patch x ≠ none) :
    r.first ≤ x ∧ x < r.stop := by
  have hs := r.short
  unfold Item.patch at h
  unfold Item.first Item.stop
  split at h
  · by_contra hc
    exact h (span_out _ (by omega))
  · split at h
    · by_contra hc
      exact h (span_out _ (by omega))
    · exact absurd rfl h

/-- a write of one byte value to a sector -/
def writeItem (seq sector : Nat) (v : UInt8) : Item :=
  ⟨⟨RecMagic, AbiVersion, RecWrite, 0, StCommitted, seq, sector, 512, 568, 0, 0⟩,
    List.replicate 512 v, by rw [List.length_replicate]⟩

def trimItem (seq sector : Nat) : Item :=
  ⟨⟨RecMagic, AbiVersion, RecDiscard, 0, StCommitted, seq, sector, 512, 56, 0, 0⟩, [], by simp⟩

def Item.apart (r q : Item) : Bool := decide (r.stop ≤ q.first ∨ q.stop ≤ r.first)

theorem clear_of_apart {l : List Item} {r : Item} (h : l.all (Item.apart r) = true) (x : Nat) :
    Clear (l.map Item.patch) r.patch x := by
  by_cases hp : r.patch x = none
  · exact Or.inr hp
  · left
    refine net_eq_none.mpr fun p hm => ?_
    obtain ⟨q, hq, rfl⟩ := List.mem_map.mp hm
    by_contra hn
    obtain ⟨h1, h2⟩ := r.patch_range hp
    obtain ⟨h3, h4⟩ := q.patch_range hn
    have ha := of_decide_eq_true (List.all_eq_true.mp h q hq)
    omega

/-! ## the shared fields -/

structure Shared where
  img : Nat → UInt8
  copying : Option (Nat × Nat)
  deferred : List Item
  lastSeq : Option Nat
  records : Nat
  bytes : Nat

/-- what `apply_one` does after the lock -/
def Shared.count (c : Shared) (r : Item) : Shared :=
  { c with
    lastSeq := some r.hdr.seq
    records := c.records + 1
    bytes := if r.hdr.type = RecWrite then c.bytes + r.hdr.len else c.bytes }

/-- the test of `apply_one`: the record meets the chunk in flight -/
def Shared.Defers (c : Shared) (r : Item) : Prop :=
  match c.copying with
  | some (a, b) => r.first < b ∧ r.stop > a
  | none => False

instance (c : Shared) (r : Item) : Decidable (c.Defers r) := by
  unfold Shared.Defers
  exact match c.copying with
    | some (a, b) => inferInstanceAs (Decidable (_ ∧ _))
    | none => inferInstanceAs (Decidable False)

def Shared.applyOne (c : Shared) (r : Item) : Shared :=
  if c.Defers r then { c with deferred := c.deferred ++ [r] }
  else { c with img := replicaWrite c.img r }.count r

/-! ## gaps -/

/-- `gap_seen` and `recovery_queue` -/
structure Gaps where
  seen : Option Nat
  queue : List Int
  deriving DecidableEq

/-- the gap test at the top of the loop of `consume` -/
def Gaps.note (g : Gaps) (r : Item) : Gaps :=
  if hasFlag r.hdr.flags FGapBefore = true ∧ some r.hdr.seq ≠ g.seen then
    ⟨some r.hdr.seq, g.queue ++ [(r.hdr.seq : Int)]⟩
  else g

/-! ## `copy_chunk` -/

/-- where a thread is in `copy_chunk(dev, off, n)`; `replaying` is the loop over `late`, with the
number of bytes that the call will return -/
inductive ChunkPc where
  | idle
  | flagged (off n : Nat)
  | holding (off n : Nat) (buf : List UInt8)
  | stored (off n m : Nat)
  | replaying (m : Nat) (late : List Item)

/-- the first section under the lock -/
def Shared.flag (c : Shared) (off n : Nat) : Shared :=
  { c with copying := some (off, off + n), deferred := [] }

def allZero (buf : List UInt8) : Bool := buf.all fun b => b == 0

theorem allZero_slice {img : Nat → UInt8} {o n : Nat} :
    allZero (slice img o n) = true ↔ ∀ x, o ≤ x → x < o + n → img x = 0 := by
  unfold allZero slice
  rw [List.all_eq_true]
  constructor
  · intro h x h1 h2
    have h3 := h (img x) (List.mem_map.mpr
      ⟨x - o, List.mem_range.mpr (by omega), congrArg img (by omega)⟩)
    exact beq_iff_eq.mp h3
  · intro h b hb
    obtain ⟨i, hi, rfl⟩ := List.mem_map.mp hb
    have hi' := List.mem_range.mp hi
    exact beq_iff_eq.mpr (h (o + i) (by omega) (by omega))

/-- the unlocked `pwrite`; `skip` is `skip_zero is not None` -/
def Shared.store (c : Shared) (skip : Bool) (off : Nat) (buf : List UInt8) : Shared :=
  if buf ≠ [] ∧ ¬(skip = true ∧ allZero buf = true) then { c with img := pwrite c.img buf off }
  else c

/-- the second section under the lock, without taking `deferred` over -/
def Shared.release (c : Shared) : Shared := { c with copying := none, deferred := [] }

/-- the next step of `copy_chunk`; `m` is the number of bytes `dev.read(n)` returns -/
def chunkStep (skip : Bool) (dev : Nat → UInt8) (m : Nat) (c : Shared) :
    ChunkPc → Option (Shared × ChunkPc)
  | .idle => none
  | .flagged off n => if m ≤ n then some (c, .holding off n (slice dev off m)) else none
  | .holding off n buf => some (c.store skip off buf, .stored off n buf.length)
  | .stored off n m => some (c.release, .replaying m c.deferred)
  | .replaying m (r :: late) => some (c.applyOne r, .replaying m late)
  | .replaying m [] => none

def ChunkPc.late : ChunkPc → List Item
  | .replaying m late => late
  | _ => []

/-- records that `apply_one` has put off, in the order in which they will be replayed -/
def waiting (c : Shared) (pc : ChunkPc) : List Item := pc.late ++ c.deferred

abbrev patches (l : List Item) : List (Nat → Option UInt8) := l.map Item.patch

theorem patches_snoc (l : List Item) (r : Item) : patches (l ++ [r]) = patches l ++ [r.patch] := by
  rw [patches, List.map_append]
  rfl

def Shared.init (img : Nat → UInt8) : Shared := ⟨img, none, [], none, 0, 0⟩

theorem applyOne_defers {c : Shared} {r : Item} (h : c.Defers r) :
    c.applyOne r = { c with deferred := c.deferred ++ [r] } := if_pos h

theorem applyOne_direct {c : Shared} {r : Item} (h : ¬c.Defers r) :
    (c.applyOne r).img = overlay r.patch c.img ∧ (c.applyOne r).copying = c.copying ∧
      (c.applyOne r).deferred = c.deferred := by
  unfold Shared.applyOne
  rw [if_neg h]
  exact ⟨replicaWrite_eq _ _, rfl, rfl⟩

theorem applyOne_alone {c : Shared} {r : Item} (h : c.copying = none) :
    (c.applyOne r).img = overlay r.patch c.img ∧ (c.applyOne r).copying = none := by
  have hd : ¬c.Defers r := by
    unfold Shared.Defers
    rw [h]
    exact id
  obtain ⟨e1, e2, _⟩ := applyOne_direct hd
  exact ⟨e1, e2.trans h⟩

end CDP
