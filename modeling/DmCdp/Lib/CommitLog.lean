import DmCdp.Lib.Machine
import DmCdp.Lib.Replay
import DmCdp.Lib.Slots

/-!
# A commit log beside a store

Writes to a store are issued, and while a write is open it may get the next record of a log, or be
lost to the log; it lands in the store, and is closed.  A record keeps its write's patch and
whether anything was lost since the record before it.  A reader takes the records in order, each
once its write is closed.

* `step`              one action; `Calm` is the condition that no two open writes overlap and that
                      what is closed has landed;
* `Ordered`           log and store under that condition: of two writes that overlap, the earlier
                      one lands first and has the smaller number;
* `Cut`               where losses are marked, if they come at certain numbers only;
* `Ordered.content`   what has a record is closed: the records from a cut on, laid over the store's value, leave
                      the store, if all losses came before the cut or missed the address;
* `resync`            a replay that repairs the image at each record that follows a loss;
* `Ordered.resync`    it ends in the store, if a repair is right wherever a write was lost.
-/

set_option linter.unusedVariables false

namespace CommitLog
open Img Mach Slots

section
variable {α β : Type*}

structure Write (α β : Type*) where
  patch : α → Option β
  num : Option Nat
  lost : Bool
  landed : Bool
  closed : Bool

/-- a record: what it writes, and whether something was lost since the record before -/
structure Rec (α β : Type*) where
  patch : α → Option β
  gap : Bool

structure Log (α β : Type*) where
  writes : List (Write α β)
  recs : List (Rec α β)
  pending : Bool
  store : α → β
  taken : Nat

inductive Act (α β : Type*) where
  | issue (p : α → Option β)
  | number (i : Nat)
  | lose (i : Nat)
  | land (i : Nat)
  | close (i : Nat)
  | take

def Log.init (store : α → β) : Log α β := ⟨[], [], false, store, 0⟩

def Write.new (p : α → Option β) : Write α β := ⟨p, none, false, false, false⟩

def Write.number (k : Nat) (w : Write α β) : Write α β := { w with num := some k }
def Write.lose (w : Write α β) : Write α β := { w with lost := true }
def Write.land (w : Write α β) : Write α β := { w with landed := true }
def Write.close (w : Write α β) : Write α β := { w with closed := true }

/-- the write has neither a record nor been lost -/
def Write.fresh (w : Write α β) : Bool := !w.closed && (w.num.isNone && !w.lost)

/-- the write does not hold record `k` back -/
def Write.free (k : Nat) (w : Write α β) : Bool := w.num != some k || w.closed

def step (s : Log α β) : Act α β → Option (Log α β)
  | .issue p => some { s with writes := s.writes ++ [Write.new p] }
  | .number i => s.writes[i]?.bind fun w =>
    if w.fresh then
      some { s with
        writes := s.writes.modify i (Write.number s.recs.length)
        recs := s.recs ++ [⟨w.patch, s.pending⟩]
        pending := false }
    else none
  | .lose i => s.writes[i]?.bind fun w =>
    if w.fresh then
      some { s with writes := s.writes.modify i Write.lose, pending := true }
    else none
  | .land i => s.writes[i]?.bind fun w =>
    if !w.closed && !w.landed then
      some { s with writes := s.writes.modify i Write.land, store := overlay w.patch s.store }
    else none
  | .close i => s.writes[i]?.bind fun w =>
    if !w.closed then some { s with writes := s.writes.modify i Write.close } else none
  | .take =>
    if s.taken < s.recs.length ∧ s.writes.all (Write.free s.taken) then
      some { s with taken := s.taken + 1 }
    else none

/-! ## the steps, one by one -/

theorem number_cases {s s' : Log α β} {i : Nat} (h : step s (.number i) = some s') :
    ∃ w, s.writes[i]? = some w ∧ w.fresh = true ∧
      s' = { s with
        writes := s.writes.modify i (Write.number s.recs.length)
        recs := s.recs ++ [⟨w.patch, s.pending⟩]
        pending := false } := by
  obtain ⟨w, hw, h⟩ := Option.bind_eq_some_iff.mp h
  split at h
  · exact ⟨w, hw, ‹_›, (Option.some.inj h).symm⟩
  · cases h

theorem lose_cases {s s' : Log α β} {i : Nat} (h : step s (.lose i) = some s') :
    ∃ w, s.writes[i]? = some w ∧ w.fresh = true ∧
      s' = { s with writes := s.writes.modify i Write.lose, pending := true } := by
  obtain ⟨w, hw, h⟩ := Option.bind_eq_some_iff.mp h
  split at h
  · exact ⟨w, hw, ‹_›, (Option.some.inj h).symm⟩
  · cases h

theorem land_cases {s s' : Log α β} {i : Nat} (h : step s (.land i) = some s') :
    ∃ w, s.writes[i]? = some w ∧ w.closed = false ∧ w.landed = false ∧
      s' = { s with writes := s.writes.modify i Write.land, store := overlay w.patch s.store } := by
  obtain ⟨w, hw, h⟩ := Option.bind_eq_some_iff.mp h
  split at h
  · rename_i hg
    rw [Bool.and_eq_true, Bool.not_eq_true', Bool.not_eq_true'] at hg
    exact ⟨w, hw, hg.1, hg.2, (Option.some.inj h).symm⟩
  · cases h

theorem close_cases {s s' : Log α β} {i : Nat} (h : step s (.close i) = some s') :
    ∃ w, s.writes[i]? = some w ∧ w.closed = false ∧
      s' = { s with writes := s.writes.modify i Write.close } := by
  obtain ⟨w, hw, h⟩ := Option.bind_eq_some_iff.mp h
  split at h
  · rename_i hg
    rw [Bool.not_eq_true'] at hg
    exact ⟨w, hw, hg, (Option.some.inj h).symm⟩
  · cases h

theorem take_cases {s s' : Log α β} (h : step s .take = some s') :
    s.taken < s.recs.length ∧ (∀ w ∈ s.writes, w.num = some s.taken → w.closed = true) ∧
      s' = { s with taken := s.taken + 1 } := by
  change (if _ then _ else _) = _ at h
  split at h
  · rename_i hg
    refine ⟨hg.1, fun w hw hn => ?_, (Option.some.inj h).symm⟩
    have hf := List.all_eq_true.mp hg.2 w hw
    simp only [Write.free, hn, bne_self_eq_false, Bool.false_or] at hf
    exact hf
  · cases h

theorem Write.fresh_iff {w : Write α β} :
    w.fresh = true ↔ w.closed = false ∧ w.num = none ∧ w.lost = false := by
  simp [Write.fresh]

/-! ## records are taken in order, each once its write is closed -/

/-- numbers and records belong together, and what has been taken is closed -/
structure Numbered (s : Log α β) : Prop where
  rec_of : ∀ (i : Nat) (w : Write α β) (k : Nat), s.writes[i]? = some w → w.num = some k →
    ∃ g, s.recs[k]? = some ⟨w.patch, g⟩
  inj : ∀ (i j : Nat) (v w : Write α β) (k : Nat), s.writes[i]? = some v → s.writes[j]? = some w →
    v.num = some k → w.num = some k → i = j
  cover : ∀ k, k < s.recs.length → ∃ (i : Nat) (w : Write α β), s.writes[i]? = some w ∧
    w.num = some k
  taken : s.taken ≤ s.recs.length ∧ ∀ w ∈ s.writes, ∀ k, w.num = some k → k < s.taken →
    w.closed = true

theorem Numbered.lt {s : Log α β} (h : Numbered s) {i k : Nat} {w : Write α β}
    (hw : s.writes[i]? = some w) (hk : w.num = some k) : k < s.recs.length := by
  obtain ⟨g, hg⟩ := h.rec_of i w k hw hk
  exact lt_length hg

theorem Numbered.write_of {s : Log α β} (h : Numbered s) {k : Nat} {r : Rec α β}
    (hr : s.recs[k]? = some r) :
    ∃ (i : Nat) (w : Write α β), s.writes[i]? = some w ∧ w.num = some k ∧ r.patch = w.patch := by
  obtain ⟨i, w, hw, hk⟩ := h.cover k (lt_length hr)
  obtain ⟨g, hg⟩ := h.rec_of i w k hw hk
  obtain rfl := Option.some.inj (hr.symm.trans hg)
  exact ⟨i, w, hw, hk, rfl⟩

theorem Numbered.init (store : α → β) : Numbered (Log.init store) := by
  refine ⟨?_, ?_, ?_, Nat.le_refl 0, ?_⟩ <;> simp [Log.init]

theorem Numbered.modify {s s' : Log α β} {i : Nat} {w : Write α β} {u : Write α β → Write α β}
    (h : Numbered s) (hw : s.writes[i]? = some w) (hwr : s'.writes = s.writes.modify i u)
    (hr : s'.recs = s.recs) (ht : s'.taken = s.taken) (hp : (u w).patch = w.patch)
    (hn : (u w).num = w.num) (hc : w.closed = true → (u w).closed = true) : Numbered s' := by
  have hback : ∀ {j : Nat} {v' : Write α β}, s'.writes[j]? = some v' → ∃ v, s.writes[j]? = some v ∧
      v'.patch = v.patch ∧ v'.num = v.num ∧ (v.closed = true → v'.closed = true) := by
    intro j v' hv'
    rw [hwr] at hv'
    rcases modify_at hw hv' with ⟨rfl, rfl⟩ | ⟨_, hv⟩
    · exact ⟨w, hw, hp, hn, hc⟩
    · exact ⟨v', hv, rfl, rfl, id⟩
  refine ⟨?_, ?_, ?_, ?_, ?_⟩
  · intro j v' k hv' hk
    obtain ⟨v, hv, e1, e2, _⟩ := hback hv'
    rw [hr, e1]
    exact h.rec_of j v k hv (e2 ▸ hk)
  · intro a b v' x' k hv' hx' hvk hxk
    obtain ⟨v, hv, _, e1, _⟩ := hback hv'
    obtain ⟨x, hx, _, e2, _⟩ := hback hx'
    exact h.inj a b v x k hv hx (e1 ▸ hvk) (e2 ▸ hxk)
  · intro k hk
    rw [hr] at hk
    obtain ⟨j, v, hv, hvk⟩ := h.cover k hk
    have hlen : s'.writes.length = s.writes.length := by rw [hwr, List.length_modify]
    obtain ⟨v', hv'⟩ := of_length hlen hv
    obtain ⟨v0, hv0, _, e, _⟩ := hback hv'
    obtain rfl := Option.some.inj (hv.symm.trans hv0)
    exact ⟨j, v', hv', e.trans hvk⟩
  · rw [ht, hr]
    exact h.taken.1
  · intro v' hv' k hk hlt
    obtain ⟨j, hj⟩ := List.mem_iff_getElem?.mp hv'
    obtain ⟨v, hv, _, e, hcl⟩ := hback hj
    exact hcl (h.taken.2 v (List.mem_of_getElem? hv) k (e ▸ hk) (ht ▸ hlt))

theorem Numbered.step {s s' : Log α β} {a : Act α β} (h : Numbered s)
    (hs : step s a = some s') : Numbered s' := by
  cases a with
  | issue p =>
    obtain rfl := Option.some.inj hs
    have hold : ∀ {j k : Nat} {w : Write α β}, (s.writes ++ [Write.new p])[j]? = some w →
        w.num = some k → s.writes[j]? = some w := by
      intro j k w hw hk
      rcases push_at hw with hw | ⟨_, rfl⟩
      · exact hw
      · cases hk
    refine ⟨fun i w k hw hk => h.rec_of i w k (hold hw hk) hk,
      fun i j v w k hv hw hvk hwk => h.inj i j v w k (hold hv hvk) (hold hw hwk) hvk hwk,
      fun k hk => ?_, h.taken.1, fun w hw k hk hlt => ?_⟩
    · obtain ⟨i, w, hw, hwk⟩ := h.cover k hk
      exact ⟨i, w, push_old hw, hwk⟩
    · rcases mem_push hw with hw | rfl
      · exact h.taken.2 w hw k hk hlt
      · cases hk
  | number i =>
    obtain ⟨w, hw, hf, rfl⟩ := number_cases hs
    obtain ⟨hc, hn, hl⟩ := Write.fresh_iff.mp hf
    have hback : ∀ {j k : Nat} {v : Write α β},
        (s.writes.modify i (Write.number s.recs.length))[j]? = some v → v.num = some k →
        j = i ∧ k = s.recs.length ∧ v = w.number s.recs.length ∨
          k < s.recs.length ∧ s.writes[j]? = some v := by
      intro j k v hv hk
      rcases modify_at hw hv with ⟨rfl, rfl⟩ | ⟨_, hv⟩
      · exact Or.inl ⟨rfl, (Option.some.inj hk).symm, rfl⟩
      · exact Or.inr ⟨h.lt hv hk, hv⟩
    refine ⟨?_, ?_, ?_, ?_, ?_⟩
    · intro j v k hv hk
      show ∃ g, (s.recs ++ [_])[k]? = _
      rcases hback hv hk with ⟨rfl, rfl, rfl⟩ | ⟨_, hv⟩
      · exact ⟨s.pending, push_last _ _⟩
      · obtain ⟨g, hg⟩ := h.rec_of j v k hv hk
        exact ⟨g, push_old hg⟩
    · intro a b v x k hv hx hvk hxk
      rcases hback hv hvk with ⟨rfl, hk, _⟩ | ⟨hlt, hv⟩
      · rcases hback hx hxk with ⟨rfl, _, _⟩ | ⟨hlt, _⟩
        · rfl
        · omega
      · rcases hback hx hxk with ⟨rfl, hk, _⟩ | ⟨_, hx⟩
        · omega
        · exact h.inj a b v x k hv hx hvk hxk
    · intro k hk
      change k < (s.recs ++ [_]).length at hk
      rw [List.length_append, List.length_singleton] at hk
      by_cases hkl : k = s.recs.length
      · exact ⟨i, w.number s.recs.length, modify_self hw, by rw [hkl]; rfl⟩
      · obtain ⟨j, v, hv, hvk⟩ := h.cover k (by omega)
        have hji : j ≠ i := by
          rintro rfl
          obtain rfl := Option.some.inj (hw.symm.trans hv)
          rw [hn] at hvk
          cases hvk
        exact ⟨j, v, modify_other hji hv, hvk⟩
    · show s.taken ≤ (s.recs ++ [_]).length
      rw [List.length_append]
      exact Nat.le_trans h.taken.1 (Nat.le_add_right _ _)
    · intro v hv k hk hlt
      obtain ⟨j, hj⟩ := List.mem_iff_getElem?.mp hv
      rcases hback hj hk with ⟨_, hk, _⟩ | ⟨_, hv⟩
      · have := h.taken.1
        change k < s.taken at hlt
        omega
      · exact h.taken.2 v (List.mem_of_getElem? hv) k hk hlt
  | lose i =>
    obtain ⟨w, hw, _, rfl⟩ := lose_cases hs
    exact h.modify (u:=Write.lose) hw rfl rfl rfl rfl rfl id
  | land i =>
    obtain ⟨w, hw, _, _, rfl⟩ := land_cases hs
    exact h.modify (u:=Write.land) hw rfl rfl rfl rfl rfl id
  | close i =>
    obtain ⟨w, hw, _, rfl⟩ := close_cases hs
    exact h.modify (u:=Write.close) hw rfl rfl rfl rfl rfl fun _ => rfl
  | take =>
    obtain ⟨hlt, hc, rfl⟩ := take_cases hs
    refine ⟨h.rec_of, h.inj, h.cover, hlt, fun w hw k hk hkt => ?_⟩
    change k < s.taken + 1 at hkt
    by_cases hk' : k = s.taken
    · exact hc w hw (hk' ▸ hk)
    · exact h.taken.2 w hw k hk (by omega)

/-! ## calm runs -/

/-- two patches have an address in common -/
def Meet (p q : α → Option β) : Prop := ∃ a, p a ≠ none ∧ q a ≠ none

theorem Meet.symm {p q : α → Option β} (h : Meet p q) : Meet q p := by
  obtain ⟨a, h1, h2⟩ := h
  exact ⟨a, h2, h1⟩

/-- a new write overlaps no open one, and a write has landed when it is closed -/
def Calm (s : Log α β) : Act α β → Prop
  | .issue p => ∀ w ∈ s.writes, w.closed = false → ¬Meet p w.patch
  | .close i => ∀ w, s.writes[i]? = some w → w.landed = true
  | _ => True

/-- what a calm run keeps: of two writes that overlap, the earlier one was closed before the later
one was issued -/
structure Ordered (store0 : α → β) (s : Log α β) : Prop where
  numbered : Numbered s
  landed : ∀ w ∈ s.writes, w.closed = true → w.landed = true
  single : ∀ w ∈ s.writes, w.lost = true → w.num = none
  apart : ∀ (i j : Nat) (v w : Write α β), i < j → s.writes[i]? = some v → s.writes[j]? = some w →
    v.closed = false → ¬Meet v.patch w.patch
  order : ∀ (i j : Nat) (v w : Write α β) (k l : Nat), i < j → s.writes[i]? = some v →
    s.writes[j]? = some w → v.num = some k → w.num = some l → Meet v.patch w.patch → k < l
  later : ∀ (i j : Nat) (v w : Write α β) (k : Nat), i < j → s.writes[i]? = some v →
    s.writes[j]? = some w → v.num = some k → w.lost = true → Meet v.patch w.patch →
    s.pending = true ∨ ∃ (m : Nat) (r : Rec α β), k < m ∧ s.recs[m]? = some r ∧ r.gap = true
  marked : ∀ w ∈ s.writes, w.lost = true → s.pending = true ∨ ∃ r ∈ s.recs, r.gap = true
  store : ∀ a, (s.store a = store0 a ∧ ∀ w ∈ s.writes, w.landed = true → w.patch a = none) ∨
    ∃ (i : Nat) (w : Write α β), s.writes[i]? = some w ∧ w.landed = true ∧
      w.patch a = some (s.store a) ∧ ∀ (j : Nat) (v : Write α β), s.writes[j]? = some v →
        v.landed = true → i < j → v.patch a = none

theorem Ordered.init (store0 : α → β) : Ordered store0 (Log.init store0) := by
  refine ⟨Numbered.init store0, ?_, ?_, ?_, ?_, ?_, ?_, ?_⟩ <;> simp [Log.init]

/-- how one write moves on in a step that leaves the store alone -/
structure Advances (s s' : Log α β) (w w' : Write α β) : Prop where
  patch : w'.patch = w.patch
  landed : w'.landed = w.landed
  alive : w'.closed = false → w.closed = false
  done : w'.closed = true → w.closed = true ∨ w.landed = true
  num : w'.num = w.num ∨ w.closed = false ∧ w.lost = false ∧ w'.num = some s.recs.length
  lost : w'.lost = w.lost ∨ s'.pending = true ∧ w.num = none ∧ w'.num = none

theorem Advances.refl (s s' : Log α β) (w : Write α β) : Advances s s' w w :=
  ⟨rfl, rfl, id, Or.inl, Or.inl rfl, Or.inl rfl⟩

/-- **One write moves on.**  If it gets a number, it is open, so it overlaps no later write. -/
theorem Ordered.move {store0 : α → β} {s s' : Log α β} {i : Nat} {w : Write α β}
    {u : Write α β → Write α β} (h : Ordered store0 s) (hn' : Numbered s')
    (hw : s.writes[i]? = some w) (hu : Advances s s' w (u w))
    (hwr : s'.writes = s.writes.modify i u) (hst : s'.store = s.store)
    (hrecs : ∀ (k : Nat) (r : Rec α β), s.recs[k]? = some r → s'.recs[k]? = some r)
    (hpend : s.pending = true → s'.pending = true ∨
      ∃ r, s'.recs[s.recs.length]? = some r ∧ r.gap = true) : Ordered store0 s' := by
  have hback : ∀ {j : Nat} {v' : Write α β}, s'.writes[j]? = some v' →
      ∃ v, s.writes[j]? = some v ∧ Advances s s' v v' := by
    intro j v' hv'
    rw [hwr] at hv'
    rcases modify_at hw hv' with ⟨rfl, rfl⟩ | ⟨_, hv⟩
    · exact ⟨w, hw, hu⟩
    · exact ⟨v', hv, Advances.refl s s' v'⟩
  have hmem : ∀ {v' : Write α β}, v' ∈ s'.writes → ∃ v ∈ s.writes, Advances s s' v v' := by
    intro v' hv'
    obtain ⟨j, hj⟩ := List.mem_iff_getElem?.mp hv'
    obtain ⟨v, hv, ha⟩ := hback hj
    exact ⟨v, List.mem_of_getElem? hv, ha⟩
  refine ⟨hn', ?_, ?_, ?_, ?_, ?_, ?_, ?_⟩
  · intro v' hv' hc
    obtain ⟨v, hv, ha⟩ := hmem hv'
    rw [ha.landed]
    exact (ha.done hc).elim (h.landed v hv) id
  · intro v' hv' hl
    obtain ⟨v, hv, ha⟩ := hmem hv'
    rcases ha.lost with e | ⟨_, _, e⟩
    · rcases ha.num with en | ⟨_, el, _⟩
      · rw [en]
        exact h.single v hv (e ▸ hl)
      · rw [e, el] at hl
        cases hl
    · exact e
  · intro a b v' x' hab hv' hx' hc
    obtain ⟨v, hv, hva⟩ := hback hv'
    obtain ⟨x, hx, hxa⟩ := hback hx'
    rw [hva.patch, hxa.patch]
    exact h.apart a b v x hab hv hx (hva.alive hc)
  · intro a b v' x' k l hab hv' hx' hk hl hm
    obtain ⟨v, hv, hva⟩ := hback hv'
    obtain ⟨x, hx, hxa⟩ := hback hx'
    rw [hva.patch, hxa.patch] at hm
    rcases hva.num with ev | ⟨hc, _, _⟩
    · rcases hxa.num with ex | ⟨_, _, ex⟩
      · exact h.order a b v x k l hab hv hx (ev ▸ hk) (ex ▸ hl) hm
      · obtain rfl := Option.some.inj (ex.symm.trans hl)
        exact h.numbered.lt hv (ev ▸ hk)
    · exact absurd hm (h.apart a b v x hab hv hx hc)
  · intro a b v' x' k hab hv' hx' hk hl hm
    obtain ⟨v, hv, hva⟩ := hback hv'
    obtain ⟨x, hx, hxa⟩ := hback hx'
    rw [hva.patch, hxa.patch] at hm
    rcases hva.num with ev | ⟨hc, _, _⟩
    · rcases hxa.lost with e | ⟨hp, _, _⟩
      · rcases h.later a b v x k hab hv hx (ev ▸ hk) (e ▸ hl) hm with hp | ⟨m, r, h1, h2, h3⟩
        · exact (hpend hp).imp_right fun ⟨r, h1, h2⟩ =>
            ⟨s.recs.length, r, h.numbered.lt hv (ev ▸ hk), h1, h2⟩
        · exact Or.inr ⟨m, r, h1, hrecs m r h2, h3⟩
      · exact Or.inl hp
    · exact absurd hm (h.apart a b v x hab hv hx hc)
  · intro v' hv' hl
    obtain ⟨v, hv, ha⟩ := hmem hv'
    rcases ha.lost with e | ⟨hp, _, _⟩
    · rcases h.marked v hv (e ▸ hl) with hp | ⟨r, hr, hg⟩
      · exact (hpend hp).imp_right fun ⟨r, h1, h2⟩ => ⟨r, List.mem_of_getElem? h1, h2⟩
      · obtain ⟨k, hk⟩ := List.mem_iff_getElem?.mp hr
        exact Or.inr ⟨r, List.mem_of_getElem? (hrecs k r hk), hg⟩
    · exact Or.inl hp
  · intro a
    rw [hst]
    rcases h.store a with ⟨h1, h2⟩ | ⟨j, v, h1, h2, h3, h4⟩
    · refine Or.inl ⟨h1, fun v' hv' hl => ?_⟩
      obtain ⟨v, hv, ha⟩ := hmem hv'
      rw [ha.patch]
      exact h2 v hv (ha.landed ▸ hl)
    · have hlen : s'.writes.length = s.writes.length := by rw [hwr, List.length_modify]
      obtain ⟨v', hv'⟩ := of_length hlen h1
      obtain ⟨v0, hv0, hva⟩ := hback hv'
      obtain rfl := Option.some.inj (h1.symm.trans hv0)
      refine Or.inr ⟨j, v', hv', hva.landed.trans h2, by rw [hva.patch]; exact h3,
        fun b x' hx' hl hjb => ?_⟩
      obtain ⟨x, hx, hxa⟩ := hback hx'
      rw [hxa.patch]
      exact h4 b x hx (hxa.landed ▸ hl) hjb

/-- **A write lands**: on each of its addresses it is the last one there, since it is open and
overlaps no later one. -/
theorem Ordered.land {store0 : α → β} {s s' : Log α β} {i : Nat} (h : Ordered store0 s)
    (hs : step s (.land i) = some s') : Ordered store0 s' := by
  have hn' := h.numbered.step hs
  obtain ⟨w, hw, hc, hl, rfl⟩ := land_cases hs
  have hback : ∀ {j : Nat} {v' : Write α β}, (s.writes.modify i Write.land)[j]? = some v' →
      ∃ v, s.writes[j]? = some v ∧ v'.patch = v.patch ∧ v'.num = v.num ∧ v'.lost = v.lost ∧
        v'.closed = v.closed ∧ (v'.landed = true → v.landed = true ∨ v = w) ∧
        (v.landed = true → v'.landed = true) := by
    intro j v' hv'
    rcases modify_at hw hv' with ⟨rfl, rfl⟩ | ⟨_, hv⟩
    · exact ⟨w, hw, rfl, rfl, rfl, rfl, fun _ => Or.inr rfl, fun _ => rfl⟩
    · exact ⟨v', hv, rfl, rfl, rfl, rfl, Or.inl, id⟩
  have hmem : ∀ {v' : Write α β}, v' ∈ s.writes.modify i Write.land → ∃ j,
      (s.writes.modify i Write.land)[j]? = some v' := fun hv' => List.mem_iff_getElem?.mp hv'
  refine ⟨hn', ?_, ?_, ?_, ?_, ?_, ?_, ?_⟩
  · intro v' hv' hcl
    obtain ⟨j, hj⟩ := hmem hv'
    obtain ⟨v, hv, _, _, _, e, _, hld⟩ := hback hj
    exact hld (h.landed v (List.mem_of_getElem? hv) (e ▸ hcl))
  · intro v' hv' hlo
    obtain ⟨j, hj⟩ := hmem hv'
    obtain ⟨v, hv, _, en, el, _⟩ := hback hj
    rw [en]
    exact h.single v (List.mem_of_getElem? hv) (el ▸ hlo)
  · intro a b v' x' hab hv' hx' hcl
    obtain ⟨v, hv, ev, _, _, ec, _⟩ := hback hv'
    obtain ⟨x, hx, ex, _⟩ := hback hx'
    rw [ev, ex]
    exact h.apart a b v x hab hv hx (ec ▸ hcl)
  · intro a b v' x' k l hab hv' hx' hk hl' hm
    obtain ⟨v, hv, ev, en, _⟩ := hback hv'
    obtain ⟨x, hx, ex, en', _⟩ := hback hx'
    rw [ev, ex] at hm
    exact h.order a b v x k l hab hv hx (en ▸ hk) (en' ▸ hl') hm
  · intro a b v' x' k hab hv' hx' hk hlo hm
    obtain ⟨v, hv, ev, en, _⟩ := hback hv'
    obtain ⟨x, hx, ex, _, el, _⟩ := hback hx'
    rw [ev, ex] at hm
    exact h.later a b v x k hab hv hx (en ▸ hk) (el ▸ hlo) hm
  · intro v' hv' hlo
    obtain ⟨j, hj⟩ := hmem hv'
    obtain ⟨v, hv, _, _, el, _⟩ := hback hj
    exact h.marked v (List.mem_of_getElem? hv) (el ▸ hlo)
  · intro a
    show (overlay w.patch s.store a = _ ∧ _) ∨ _
    cases hp : w.patch a with
    | some y =>
      refine Or.inr ⟨i, w.land, modify_self hw, rfl, ?_, fun j v' hv' hl' hij => ?_⟩
      · show w.patch a = some (overlay w.patch s.store a)
        rw [hp, overlay_some hp]
      · obtain ⟨v, hv, ev, _⟩ := hback hv'
        rw [ev]
        by_contra hne
        exact h.apart i j w v hij hw hv hc ⟨a, by rw [hp]; exact Option.some_ne_none y, hne⟩
    | none =>
      have hsame : overlay w.patch s.store a = s.store a := overlay_none hp
      rw [hsame]
      have hnew : ∀ {j : Nat} {v' : Write α β}, (s.writes.modify i Write.land)[j]? = some v' →
          v'.landed = true → ∃ v, s.writes[j]? = some v ∧ v'.patch = v.patch ∧
            (v.landed = true ∨ v.patch a = none) := by
        intro j v' hv' hl'
        obtain ⟨v, hv, ev, _, _, _, hor, _⟩ := hback hv'
        exact ⟨v, hv, ev, (hor hl').imp_right fun e => by rw [e]; exact hp⟩
      rcases h.store a with ⟨h1, h2⟩ | ⟨j, v, h1, h2, h3, h4⟩
      · refine Or.inl ⟨h1, fun v' hv' hl' => ?_⟩
        obtain ⟨j, hj⟩ := hmem hv'
        obtain ⟨v, hv, ev, hor⟩ := hnew hj hl'
        rw [ev]
        exact hor.elim (h2 v (List.mem_of_getElem? hv)) id
      · have hji : j ≠ i := by
          rintro rfl
          obtain rfl := Option.some.inj (hw.symm.trans h1)
          rw [hl] at h2
          cases h2
        refine Or.inr ⟨j, v, modify_other hji h1, h2, h3.trans (congrArg some hsame.symm),
          fun b x' hx' hl' hjb => ?_⟩
        obtain ⟨x, hx, ex, hor⟩ := hnew hx' hl'
        rw [ex]
        exact hor.elim (fun e => h4 b x hx e hjb) id

theorem Ordered.issue {store0 : α → β} {s : Log α β} {p : α → Option β} (h : Ordered store0 s)
    (hq : Calm s (.issue p)) : Ordered store0 { s with writes := s.writes ++ [Write.new p] } := by
  have hn' : Numbered { s with writes := s.writes ++ [Write.new p] } :=
    h.numbered.step (a:=.issue p) rfl
  have hpair : ∀ {i j : Nat} {v w : Write α β}, i < j →
      (s.writes ++ [Write.new p])[i]? = some v → (s.writes ++ [Write.new p])[j]? = some w →
      s.writes[i]? = some v ∧ (s.writes[j]? = some w ∨ w = Write.new p) := by
    intro i j v w hij hv hw
    rcases push_at hw with hw | ⟨rfl, rfl⟩
    · rcases push_at hv with hv | ⟨rfl, _⟩
      · exact ⟨hv, Or.inl hw⟩
      · have := lt_length hw
        omega
    · rcases push_at hv with hv | ⟨rfl, _⟩
      · exact ⟨hv, Or.inr rfl⟩
      · omega
  refine ⟨hn', ?_, ?_, ?_, ?_, ?_, ?_, ?_⟩
  · intro w hw hc
    rcases mem_push hw with hw | rfl
    · exact h.landed w hw hc
    · cases hc
  · intro w hw hl
    rcases mem_push hw with hw | rfl
    · exact h.single w hw hl
    · cases hl
  · intro i j v w hij hv hw hc
    obtain ⟨hv, hw | rfl⟩ := hpair hij hv hw
    · exact h.apart i j v w hij hv hw hc
    · exact fun hm => hq v (List.mem_of_getElem? hv) hc hm.symm
  · intro i j v w k l hij hv hw hk hl hm
    obtain ⟨hv, hw | rfl⟩ := hpair hij hv hw
    · exact h.order i j v w k l hij hv hw hk hl hm
    · cases hl
  · intro i j v w k hij hv hw hk hl hm
    obtain ⟨hv, hw | rfl⟩ := hpair hij hv hw
    · exact h.later i j v w k hij hv hw hk hl hm
    · cases hl
  · intro w hw hl
    rcases mem_push hw with hw | rfl
    · exact h.marked w hw hl
    · cases hl
  · intro a
    rcases h.store a with ⟨h1, h2⟩ | ⟨i, w, h1, h2, h3, h4⟩
    · refine Or.inl ⟨h1, fun v hv hl => ?_⟩
      rcases mem_push hv with hv | rfl
      · exact h2 v hv hl
      · cases hl
    · refine Or.inr ⟨i, w, push_old h1, h2, h3, fun j v hv hl hij => ?_⟩
      rcases push_at hv with hv | ⟨_, rfl⟩
      · exact h4 j v hv hl hij
      · cases hl

/-- **Every calm step keeps the order.** -/
theorem Ordered.step {store0 : α → β} {s s' : Log α β} {a : Act α β} (h : Ordered store0 s)
    (hq : Calm s a) (hs : step s a = some s') : Ordered store0 s' := by
  have hn' := h.numbered.step hs
  cases a with
  | issue p =>
    obtain rfl := Option.some.inj hs
    exact h.issue hq
  | number i =>
    obtain ⟨w, hw, hf, rfl⟩ := number_cases hs
    obtain ⟨hc, hn, hl⟩ := Write.fresh_iff.mp hf
    refine h.move (u:=Write.number s.recs.length) hn' hw ?_ rfl rfl (fun k r => push_old)
      fun hp => Or.inr ⟨_, push_last _ _, hp⟩
    exact ⟨rfl, rfl, id, Or.inl, Or.inr ⟨hc, hl, rfl⟩, Or.inl rfl⟩
  | lose i =>
    obtain ⟨w, hw, hf, rfl⟩ := lose_cases hs
    obtain ⟨hc, hn, hl⟩ := Write.fresh_iff.mp hf
    refine h.move (u:=Write.lose) hn' hw ?_ rfl rfl (fun _ _ => id) fun _ => Or.inl rfl
    exact ⟨rfl, rfl, id, Or.inl, Or.inl rfl, Or.inr ⟨rfl, hn, hn⟩⟩
  | land i => exact h.land hs
  | close i =>
    obtain ⟨w, hw, hc, rfl⟩ := close_cases hs
    refine h.move (u:=Write.close) hn' hw ?_ rfl rfl (fun _ _ => id) Or.inl
    exact ⟨rfl, rfl, fun _ => hc, fun _ => Or.inr (hq w hw), Or.inl rfl, Or.inl rfl⟩
  | take =>
    obtain ⟨_, _, rfl⟩ := take_cases hs
    exact ⟨hn', h.landed, h.single, h.apart, h.order, h.later, h.marked, h.store⟩

/-! ## where losses come -/

/-- writes are lost only where `C` holds of the number of records -/
def LosesAt (C : Nat → Prop) (s : Log α β) : Act α β → Prop
  | .lose _ => C s.recs.length
  | _ => True

/-- losses are marked only at records whose number is in `C` -/
structure Cut (C : Nat → Prop) (s : Log α β) : Prop where
  gap : ∀ (k : Nat) (r : Rec α β), s.recs[k]? = some r → r.gap = true → C k
  pending : s.pending = true → C s.recs.length

theorem Cut.init (C : Nat → Prop) (store0 : α → β) : Cut C (Log.init store0) := by
  refine ⟨fun k r hr => ?_, fun hp => ?_⟩
  · simp [Log.init] at hr
  · cases hp

theorem Cut.step {C : Nat → Prop} {s s' : Log α β} {a : Act α β} (h : Cut C s)
    (hq : LosesAt C s a) (hs : step s a = some s') : Cut C s' := by
  cases a with
  | issue p =>
    obtain rfl := Option.some.inj hs
    exact ⟨h.gap, h.pending⟩
  | number i =>
    obtain ⟨w, _, _, rfl⟩ := number_cases hs
    refine ⟨fun k r hr hg => ?_, fun hp => by cases hp⟩
    rcases push_at hr with hr | ⟨rfl, rfl⟩
    · exact h.gap k r hr hg
    · exact h.pending hg
  | lose i =>
    obtain ⟨w, _, _, rfl⟩ := lose_cases hs
    exact ⟨h.gap, fun _ => hq⟩
  | land i =>
    obtain ⟨w, _, _, _, rfl⟩ := land_cases hs
    exact ⟨h.gap, h.pending⟩
  | close i =>
    obtain ⟨w, _, _, rfl⟩ := close_cases hs
    exact ⟨h.gap, h.pending⟩
  | take =>
    obtain ⟨_, _, rfl⟩ := take_cases hs
    exact ⟨h.gap, h.pending⟩

/-! ## when what has a record is closed -/

/-- writes with a record are closed, and one that has landed without a record changes nothing, if it
is not lost -/
structure Settled (s : Log α β) : Prop where
  closed : ∀ w ∈ s.writes, w.num ≠ none → w.closed = true
  rest : ∀ w ∈ s.writes, w.landed = true → w.num = none → w.lost = false → ∀ a, w.patch a = none

/-- no write that was lost changes the address -/
def Unlost (s : Log α β) (a : α) : Prop := ∀ w ∈ s.writes, w.lost = true → w.patch a = none

/-- the last write on an address of the store -/
structure Last (s : Log α β) (a : α) (i : Nat) (w : Write α β) : Prop where
  here : s.writes[i]? = some w
  landed : w.landed = true
  value : w.patch a = some (s.store a)
  last : ∀ (j : Nat) (v : Write α β), s.writes[j]? = some v → v.landed = true → i < j →
    v.patch a = none

section
variable {store0 : α → β} {s : Log α β}

/-- where losses are neither marked nor to be marked, there are none -/
theorem Ordered.unlost (h : Ordered store0 s) (hc : Cut (fun _ => False) s) (a : α) :
    Unlost s a := by
  intro w hw hl
  rcases h.marked w hw hl with hp | ⟨r, hr, hg⟩
  · exact (hc.pending hp).elim
  · obtain ⟨k, hk⟩ := List.mem_iff_getElem?.mp hr
    exact (hc.gap k r hk hg).elim

theorem net_drop_none {m : Nat} {a : α}
    (h : ∀ (l : Nat) (r : Rec α β), m ≤ l → s.recs[l]? = some r → r.patch a = none) :
    net ((s.recs.drop m).map Rec.patch) a = none := by
  refine net_eq_none.mpr fun p hp => ?_
  obtain ⟨r, hr, rfl⟩ := List.mem_map.mp hp
  obtain ⟨l, hl⟩ := List.mem_iff_getElem?.mp hr
  rw [List.getElem?_drop] at hl
  exact h (m + l) r (Nat.le_add_right m l) hl

/-- **A record on the address** is that of the last write, or has a smaller number; and if the last
write was lost, the loss is marked later. -/
theorem Ordered.before (h : Ordered store0 s) (hc : Settled s) (hp : s.pending = false) {a : α}
    {i l : Nat} {w : Write α β} {r : Rec α β} (hw : Last s a i w) (hr : s.recs[l]? = some r)
    (hra : r.patch a ≠ none) : w.num = some l ∨ (∀ k, w.num = some k → l < k) ∧
      (w.lost = true → ∃ (m : Nat) (r : Rec α β), l < m ∧ s.recs[m]? = some r ∧ r.gap = true) := by
  obtain ⟨j, v, hv, hvl, hpv⟩ := h.numbered.write_of hr
  rw [hpv] at hra
  have hm : Meet v.patch w.patch := ⟨a, hra, by rw [hw.value]; exact Option.some_ne_none _⟩
  rcases Nat.lt_trichotomy j i with hlt | rfl | hgt
  · refine Or.inr ⟨fun k hk => h.order j i v w l k hlt hv hw.here hvl hk hm, fun hl => ?_⟩
    refine (h.later j i v w l hlt hv hw.here hvl hl hm).resolve_left ?_
    rw [hp]
    exact Bool.false_ne_true
  · obtain rfl := Option.some.inj (hv.symm.trans hw.here)
    exact Or.inl hvl
  · have hvm := List.mem_of_getElem? hv
    have hland := h.landed v hvm (hc.closed v hvm (by rw [hvl]; exact Option.some_ne_none l))
    exact absurd (hw.last j v hv hland hgt) hra

theorem Ordered.last (h : Ordered store0 s) (hc : Settled s) (a : α) :
    s.store a = store0 a ∧ (∀ r ∈ s.recs, r.patch a = none) ∨ ∃ i w, Last s a i w := by
  rcases h.store a with ⟨h1, h2⟩ | ⟨i, w, h1, h2, h3, h4⟩
  · refine Or.inl ⟨h1, fun r hr => ?_⟩
    obtain ⟨k, hk⟩ := List.mem_iff_getElem?.mp hr
    obtain ⟨j, v, hv, hvk, e⟩ := h.numbered.write_of hk
    have hvm := List.mem_of_getElem? hv
    rw [e]
    exact h2 v hvm (h.landed v hvm (hc.closed v hvm (by rw [hvk]; exact Option.some_ne_none k)))
  · exact Or.inr ⟨i, w, h1, h2, h3, h4⟩

theorem Ordered.net_last (h : Ordered store0 s) (hc : Settled s) (hp : s.pending = false) {a : α}
    {i k m : Nat} {w : Write α β} (hw : Last s a i w) (hk : w.num = some k) (hmk : m ≤ k) :
    net ((s.recs.drop m).map Rec.patch) a = some (s.store a) := by
  obtain ⟨g, hg⟩ := h.numbered.rec_of i w k hw.here hk
  refine net_of_last (k:=k - m) (p:=w.patch) ?_ hw.value fun j q hj hq => ?_
  · rw [List.getElem?_map, List.getElem?_drop, Nat.add_sub_cancel' hmk, hg]
    rfl
  · rw [List.getElem?_map, List.getElem?_drop] at hq
    obtain ⟨r, hr, rfl⟩ := Option.map_eq_some_iff.mp hq
    by_contra hne
    rcases h.before hc hp hw hr hne with e | ⟨hlt, _⟩
    · have := Option.some.inj (hk.symm.trans e)
      omega
    · have := hlt k hk
      omega

theorem Last.lost {a : α} {i : Nat} {w : Write α β} (hw : Last s a i w) (hc : Settled s)
    (hn : w.num = none) : w.lost = true := by
  by_contra hl
  have := hc.rest w (List.mem_of_getElem? hw.here) hw.landed hn (Bool.eq_false_iff.mpr hl) a
  rw [hw.value] at this
  cases this

/-- **The records from a cut on do not harm the store's value**, if the losses are marked by then
or missed the address. -/
theorem Ordered.content (h : Ordered store0 s) (hc : Settled s) (hp : s.pending = false) {m : Nat}
    {a : α} (hm : Unlost s a ∨
      ∀ (k : Nat) (r : Rec α β), s.recs[k]? = some r → r.gap = true → k ≤ m) :
    (net ((s.recs.drop m).map Rec.patch) a).getD (s.store a) = s.store a := by
  rcases h.last hc a with ⟨_, hno⟩ | ⟨i, w, hw⟩
  · rw [net_drop_none fun l r _ hr => hno r (List.mem_of_getElem? hr)]
    rfl
  · cases hn : w.num with
    | some k =>
      by_cases hmk : m ≤ k
      · rw [h.net_last hc hp hw hn hmk]
        rfl
      · rw [net_drop_none fun l r hl hr => ?_]
        · rfl
        · by_contra hne
          rcases h.before hc hp hw hr hne with e | ⟨hlt, _⟩
          · have := Option.some.inj (hn.symm.trans e)
            omega
          · have := hlt k hn
            omega
    | none =>
      have hl := hw.lost hc hn
      rcases hm with hu | hm
      · have := hu w (List.mem_of_getElem? hw.here) hl
        rw [hw.value] at this
        cases this
      · rw [net_drop_none fun l r hlm hr => ?_]
        · rfl
        · by_contra hne
          rcases h.before hc hp hw hr hne with e | ⟨_, hgap⟩
          · rw [hn] at e
            cases e
          · obtain ⟨m', r', hlt, hr', hg⟩ := hgap hl
            have := hm m' r' hr' hg
            omega

/-- **The whole log** rebuilds the store where no write was lost. -/
theorem Ordered.whole (h : Ordered store0 s) (hc : Settled s) (hp : s.pending = false) {a : α}
    (hu : Unlost s a) : (net (s.recs.map Rec.patch) a).getD (store0 a) = s.store a := by
  rcases h.last hc a with ⟨he, hno⟩ | ⟨i, w, hw⟩
  · have hnone : net (s.recs.map Rec.patch) a = none :=
      net_drop_none (m:=0) fun l r _ hr => hno r (List.mem_of_getElem? hr)
    rw [hnone, he]
    rfl
  · cases hn : w.num with
    | some k =>
      have := h.net_last hc hp hw hn (Nat.zero_le k)
      rw [List.drop_zero] at this
      rw [this]
      rfl
    | none =>
      have := hu w (List.mem_of_getElem? hw.here) (hw.lost hc hn)
      rw [hw.value] at this
      cases this

end

/-! ## replay with repairs -/

/-- replay of the records; `fix` repairs the image before each one that follows a loss -/
def resync (fix : (α → β) → α → β) : List (Rec α β) → (α → β) → α → β
  | [], img => img
  | r :: rs, img => resync fix rs (overlay r.patch (if r.gap then fix img else img))

section
variable {fix : (α → β) → α → β}

theorem resync_cons (r : Rec α β) (rs : List (Rec α β)) (img : α → β) :
    resync fix (r :: rs) img = resync fix rs (overlay r.patch (if r.gap then fix img else img)) :=
  rfl

theorem resync_replay {l : List (Rec α β)} (h : ∀ r ∈ l, r.gap = false) (img : α → β) :
    resync fix l img = replay (l.map Rec.patch) img := by
  induction l generalizing img with
  | nil => rfl
  | cons r l ih =>
    rw [resync_cons, h r List.mem_cons_self, ih fun x hx => h x (List.mem_cons_of_mem r hx)]
    rfl

theorem resync_append (l l' : List (Rec α β)) (img : α → β) :
    resync fix (l ++ l') img = resync fix l' (resync fix l img) := by
  induction l generalizing img with
  | nil => rfl
  | cons r l ih => simp only [List.cons_append, resync_cons, ih]

theorem getD_overlay (ps : List (α → Option β)) (p : α → Option β) (img : α → β) (a : α) :
    (net ps a).getD (overlay p img a) = (net (p :: ps) a).getD (img a) := by
  rw [← replay_apply, ← replay_apply]
  rfl

/-- a repair that leaves the address alone or sets it to `v`: the replay starts from the image, or
from `v` at some record -/
theorem resync_apply {a : α} {v : β} (hfix : ∀ img, fix img a = v ∨ fix img a = img a)
    (l : List (Rec α β)) (img : α → β) :
    resync fix l img a = (net (l.map Rec.patch) a).getD (img a) ∨
      ∃ m, resync fix l img a = (net ((l.drop m).map Rec.patch) a).getD v := by
  induction l generalizing img with
  | nil => exact Or.inl rfl
  | cons r l ih =>
    rw [resync_cons]
    rcases ih (overlay r.patch (if r.gap then fix img else img)) with h | ⟨m, h⟩
    · rw [h, getD_overlay, List.map_cons]
      cases hg : r.gap with
      | false => exact Or.inl rfl
      | true =>
        rcases hfix img with e | e
        · refine Or.inr ⟨0, ?_⟩
          show _ = (net (r.patch :: l.map Rec.patch) a).getD v
          rw [← e]
          rfl
        · refine Or.inl ?_
          rw [← e]
          rfl
    · exact Or.inr ⟨m + 1, h⟩

theorem resync_last {a : α} {v : β} (hfix : ∀ img, fix img a = v) (l : List (Rec α β))
    (img : α → β) (hl : ∃ r ∈ l, r.gap = true) :
    ∃ m, (∀ (k : Nat) (r : Rec α β), l[k]? = some r → r.gap = true → k ≤ m) ∧
      resync fix l img a = (net ((l.drop m).map Rec.patch) a).getD v := by
  induction l generalizing img with
  | nil =>
    obtain ⟨r, hr, _⟩ := hl
    cases hr
  | cons r l ih =>
    rw [resync_cons]
    by_cases hl' : ∃ x ∈ l, x.gap = true
    · obtain ⟨m, h1, h2⟩ := ih (overlay r.patch (if r.gap then fix img else img)) hl'
      refine ⟨m + 1, fun k x hx hg => ?_, h2⟩
      cases k with
      | zero => exact Nat.zero_le _
      | succ k => exact Nat.succ_le_succ (h1 k x hx hg)
    · have hno : ∀ x ∈ l, x.gap = false := fun x hx =>
        Bool.eq_false_iff.mpr fun e => hl' ⟨x, hx, e⟩
      have hr : r.gap = true := by
        obtain ⟨x, hx, hg⟩ := hl
        rcases List.mem_cons.mp hx with rfl | hx
        · exact hg
        · rw [hno x hx] at hg
          cases hg
      refine ⟨0, fun k x hx hg => ?_, ?_⟩
      · cases k with
        | zero => exact Nat.le_refl 0
        | succ k =>
          rw [hno x (List.mem_of_getElem? (l:=l) (i:=k) hx)] at hg
          cases hg
      · rw [resync_replay hno, replay_apply, getD_overlay, hr, if_pos rfl, hfix]
        rfl

/-- **Replay with repairs ends in the store**, if each repair sets every address that a lost write
changes to the store's value, and any other one to that or not at all. -/
theorem Ordered.resync {store0 : α → β} {s : Log α β} (h : Ordered store0 s) (hc : Settled s)
    (hp : s.pending = false)
    (hfix : ∀ img a, fix img a = s.store a ∨ fix img a = img a ∧ Unlost s a) :
    CommitLog.resync fix s.recs store0 = s.store := by
  funext a
  by_cases hu : Unlost s a
  · rcases resync_apply (fun img => (hfix img a).imp_right And.left) s.recs store0 with e | ⟨m, e⟩
    · rw [e]
      exact h.whole hc hp hu
    · rw [e]
      exact h.content hc hp (Or.inl hu)
  · have hl : ∃ r ∈ s.recs, r.gap = true := by
      unfold Unlost at hu
      push Not at hu
      obtain ⟨w, hw, hl, _⟩ := hu
      refine (h.marked w hw hl).resolve_left ?_
      rw [hp]
      exact Bool.false_ne_true
    obtain ⟨m, hm, e⟩ := resync_last (fun img => (hfix img a).resolve_right fun e => hu e.2) s.recs
      store0 hl
    rw [e]
    exact h.content hc hp (Or.inr hm)

end

end

end CommitLog
