import DmCdp.Kernel.RingLayout

/-!
# A drained ring

What `cdp_reserve` accepts when every reserved record has been read.  Head and tail are equal, at
any position: the pad at the wrap is shorter than the record, so the room is never short, and what
remains is the limit of a quarter of the ring.

* `reserve_isSome`   the two tests of `cdp_reserve`;
* `drained_accepts`  a drained ring accepts exactly the payloads that fit a quarter of the ring with
                     their header, and all that DM passes exactly from 17 MiB on;
* `drained_refuses`  a ring of 16 MiB refuses a write of 4 MiB.
-/

set_option linter.unusedVariables false

namespace CDP
open Mach

/-- the payload of a write that DM has split at `CDP_MAX_IO_SECTORS` -/
def SplitPayload (n : Nat) : Prop := n % 512 = 0 ∧ n ≤ MaxIoSectors * 512

instance (n : Nat) : Decidable (SplitPayload n) := inferInstanceAs (Decidable (_ ∧ _))

/-- `cdp_reserve` of `payload` bytes does not return `NULL` -/
def Target.Accepts (t : Target) (payload : Nat) : Prop :=
  ∀ type flags sector len ts, (cdpReserve t type flags sector len payload ts).1.isSome = true

/-- all reserved records have been read -/
def Target.Drained (t : Target) : Prop := t.tail = t.head

/-- in every reachable state in which the ring is drained it accepts all that DM passes -/
def DrainedAccepts (cfg : Config) : Prop :=
  ∀ (dev : Nat → UInt8) (run : List KAct) (s : KState),
    exec (kstep cfg) (KState.init cfg dev) run = some s → s.t.Drained →
    ∀ n, SplitPayload n → s.t.Accepts n

theorem reserve_isSome (t : Target) (type flags sector len payload ts : Nat) :
    (cdpReserve t type flags sector len payload ts).1.isSome = true ↔
      recNeed payload ≤ t.ringSize / MaxRecDiv ∧
        recNeed payload + padLen t.ringSize t.head (recNeed payload)
          ≤ u64sub t.ringSize (u64sub t.head t.tail) := by
  unfold cdpReserve
  dsimp only
  split
  · rename_i h
    exact ⟨fun e => Bool.noConfusion e, fun e => by omega⟩
  · split
    · rename_i h
      exact ⟨fun e => Bool.noConfusion e, fun e => by omega⟩
    · exact ⟨fun _ => ⟨by omega, by omega⟩, fun _ => rfl⟩

theorem drained_room {t : Target} (hd : t.Drained) (hr : t.ringSize < 2^64) :
    u64sub t.ringSize (u64sub t.head t.tail) = t.ringSize := by
  have h0 : u64sub t.head t.tail = 0 := by
    unfold u64sub
    rw [hd, Nat.add_sub_cancel_left, Nat.mod_self]
  rw [h0, u64sub_of_le (Nat.zero_le _) hr, Nat.sub_zero]

theorem drained_accepts_iff {t : Target} (hd : t.Drained) (hr : t.ringSize < 2^64) (n : Nat) :
    t.Accepts n ↔ recNeed n ≤ t.ringSize / MaxRecDiv := by
  have hneed : RecSize + n ≤ recNeed n := le_align8 _
  have hR : RecSize = 56 := rfl
  have hD : MaxRecDiv = 4 := rfl
  have hpad := padLen_lt (r:=t.ringSize) (p:=t.head) (by omega : 0 < recNeed n)
  constructor
  · intro h
    exact ((reserve_isSome t 0 0 0 0 n 0).mp (h 0 0 0 0 0)).1
  · intro h type flags sector len ts
    rw [reserve_isSome, drained_room hd hr]
    rw [hD] at h ⊢
    exact ⟨h, by omega⟩

/-- a multiple of 512 stays aligned behind its header -/
theorem recNeed_of_split {n : Nat} (h : n % 512 = 0) : recNeed n = n + RecSize := by
  have hR : RecSize = 56 := rfl
  unfold recNeed align8
  omega

theorem ringSize_step {cfg : Config} {s s' : KState} {a : KAct} (hk : KInv cfg s)
    (hs : kstep cfg s a = some s') : s'.t.ringSize = s.t.ringSize := by
  cases a with
  | map b =>
    obtain ⟨_, _, ⟨_, rfl⟩ | ⟨a, _, rfl⟩⟩ := map_cases hs
    · rfl
    · exact (cdpMark_same s.t a.sector a.len).2.1
  | reserve i ts =>
    obtain ⟨f, a, _, _, _, _, ⟨_, rfl⟩ | ⟨_, _, rfl⟩⟩ := reserve_cases hk.log hs
    · rfl
    · rfl
  | copy i =>
    obtain ⟨f, off, k, a, _, _, _, _, rfl⟩ := copy_cases hs
    rfl
  | land i =>
    obtain ⟨f, _, _, _, rfl⟩ := land_cases hs
    rfl
  | endIo i error =>
    obtain ⟨f, _, _, _, ⟨k, _, _, rfl⟩ | ⟨_, rfl⟩⟩ := endIo_cases hs
    · rfl
    · rfl
  | call r count nonblock =>
    obtain ⟨_, rfl⟩ := call_cases hs
    rfl
  | reader r ok => cases reader_cases hk hs <;> rfl
  | clearBegin =>
    obtain rfl := clearBegin_cases hs
    rfl
  | clearWord =>
    obtain ⟨w, _, _, rfl⟩ := clearWord_cases hs
    rfl
  | clearDone ok =>
    obtain ⟨w, _, _, rfl⟩ := clearDone_cases hs
    rfl
  | reread c =>
    change rereadStep cfg s c = some s' at hs
    obtain ⟨_, rfl⟩ := reread_cases hs
    rfl
  | dtr =>
    obtain ⟨_, _, rfl⟩ := dtr_cases hs
    rfl

theorem ringSize_reach {cfg : Config} {dev : Nat → UInt8} {run : List KAct} {s : KState}
    (hs : exec (kstep cfg) (KState.init cfg dev) run = some s) : s.t.ringSize = cfg.ringSize :=
  (exec_invariant (P:=fun s => KInv cfg s ∧ s.t.ringSize = cfg.ringSize)
    (fun u a v hu hs => ⟨hu.1.step hs, (ringSize_step hu.1 hs).trans hu.2⟩)
    ⟨KInv.init cfg dev, rfl⟩ hs).2

/-- **What a drained ring accepts.** -/
theorem drained_accepts (cfg : Config) :
    (∀ (dev : Nat → UInt8) (run : List KAct) (s : KState),
      exec (kstep cfg) (KState.init cfg dev) run = some s → s.t.Drained →
      ∀ n, SplitPayload n → (s.t.Accepts n ↔ n + RecSize ≤ cfg.ringMb * 2^18)) ∧
    (DrainedAccepts cfg ↔ 17 ≤ cfg.ringMb) := by
  have hR : RecSize = 56 := rfl
  have hD : MaxRecDiv = 4 := rfl
  have hM : MaxIoSectors = 8192 := rfl
  have hu := cfg.ring_u32
  have hone : ∀ (dev : Nat → UInt8) (run : List KAct) (s : KState),
      exec (kstep cfg) (KState.init cfg dev) run = some s → s.t.Drained →
      ∀ n, SplitPayload n → (s.t.Accepts n ↔ n + RecSize ≤ cfg.ringMb * 2^18) := by
    intro dev run s hs hd n hn
    have hrs : s.t.ringSize = cfg.ringMb * 2^20 := ringSize_reach hs
    rw [drained_accepts_iff hd (by omega), recNeed_of_split hn.1, hrs, hD]
    omega
  have h0 : exec (kstep cfg) (KState.init cfg fun _ => 0) [] = some (KState.init cfg fun _ => 0) :=
    exec_nil _ _
  refine ⟨hone, fun h => ?_, fun h dev run s hs hd n hn => (hone dev run s hs hd n hn).mpr ?_⟩
  · have hmax : SplitPayload (8192 * 512) := ⟨by decide, by rw [hM]⟩
    have hacc := h (fun _ => 0) [] _ h0 rfl (8192 * 512) hmax
    have hfit := (hone (fun _ => 0) [] _ h0 rfl (8192 * 512) hmax).mp hacc
    omega
  · have := hn.2
    omega

/-- 16 MiB, the size with which `overflow.sh` loads the module -/
def ring16 : Config := { smallConfig with ringMb := 16, ring_pos := by decide, ring_u32 := by decide }

/-- **An empty ring of 16 MiB refuses a write of 4 MiB.** -/
theorem drained_refuses : SplitPayload (8192 * 512) ∧
    (cdpReserve (KState.init ring16 fun _ => 0).t RecWrite 0 0 (8192 * 512) (8192 * 512) 0).1 = none ∧
    ¬DrainedAccepts ring16 := by
  refine ⟨by decide, rfl, fun h => ?_⟩
  have hacc := h (fun _ => 0) [] _ (exec_nil _ _) rfl (8192 * 512) (by decide)
  exact absurd (hacc RecWrite 0 0 (8192 * 512) 0) (by decide)

end CDP
