import Mathlib.Logic.Function.Basic
import Cynosure.Lib.Waker

/-! # The wait queues of the single-threaded primitives

`LocalMutex`, `LocalRwLock` and `LocalSemaphore` keep the same kind of queue: one
entry per registered future, found again by a token and never by its waker.
The three copies of `register` and `deregister` differ only in the request that
the semaphore stores beside the waker, so they are one definition here.

The tokens are the 64-bit counter of the source with its wrap. No result below
assumes that they are distinct.
-/

universe u v w

namespace Cynosure.SiteC

/-- A queue entry `(id, waker)`, with the request `n` for the semaphore. -/
structure Entry (ρ : Type u) (W : Type v) where
  id : UInt64
  req : ρ
  waker : W
  deriving DecidableEq, Repr

abbrev Waiters (ρ : Type u) (W : Type v) := List (Entry ρ W)

namespace Waiters

variable {ρ : Type u} {W : Type v}

/-- The survivors of `take_where(|(qid, ..)| qid == id)`. -/
def without (q : Waiters ρ W) (id : UInt64) : Waiters ρ W := q.filter fun e => e.id != id

theorem mem_without {q : Waiters ρ W} {id : UInt64} {e : Entry ρ W} :
    e ∈ q.without id ↔ e ∈ q ∧ e.id ≠ id := by
  simp [without]

section Register

variable [Waker W]

/-- The read-only decision of `register`: an entry that is still queued under an
equivalent waker is left alone. -/
def stale (q : Waiters ρ W) (slot : Option (Entry ρ W)) (waker : W) : Bool :=
  match slot with
  | some e => if Waker.willWake e.waker waker then !(q.any fun x => x.id == e.id) else true
  | none => true

/-- The token `register` uses: the slot's own, or the next one of the counter. -/
def registerId (nextId : UInt64) (slot : Option (Entry ρ W)) : UInt64 :=
  match slot with
  | some e => e.id
  | none => nextId

/-- `register`: the new queue, the counter and the slot. -/
def register (q : Waiters ρ W) (nextId : UInt64) (slot : Option (Entry ρ W)) (req : ρ)
    (waker : W) : Waiters ρ W × UInt64 × Option (Entry ρ W) :=
  if stale q slot waker then
    let e : Entry ρ W := ⟨registerId nextId slot, req, waker⟩
    (q.without e.id ++ [e], if slot.isSome then nextId else nextId + 1, some e)
  else (q, nextId, slot)

end Register

/-- `deregister`: the slot is emptied by the caller, its entry leaves the queue. -/
def deregister (q : Waiters ρ W) (slot : Option (Entry ρ W)) : Waiters ρ W :=
  match slot with
  | some e => q.without e.id
  | none => q

@[simp] theorem deregister_none (q : Waiters ρ W) : q.deregister none = q := rfl

theorem mem_deregister {q : Waiters ρ W} {slot : Option (Entry ρ W)} {e : Entry ρ W} :
    e ∈ q.deregister slot ↔ e ∈ q ∧ ∀ x, slot = some x → e.id ≠ x.id := by
  cases slot <;> simp [deregister, mem_without]

variable [Waker W]

/-- What `register` leaves behind: a slot that is filled and queued under a waker
of the polling task, and no entry of another token touched. -/
theorem register_spec (q : Waiters ρ W) (nextId : UInt64) (slot : Option (Entry ρ W)) (req : ρ)
    (waker : W) : ∃ e, (q.register nextId slot req waker).2.2 = some e ∧
      Waker.task e.waker = Waker.task waker ∧ (q.register nextId slot req waker).1 ≠ [] ∧
      ((q.register nextId slot req waker).1 = q ∧ slot = some e ∨
        (q.register nextId slot req waker).1 = q.without e.id ++ [e] ∧
          ∀ x, slot = some x → e.id = x.id) := by
  unfold register
  split
  · rename_i h
    refine ⟨⟨registerId nextId slot, req, waker⟩, rfl, rfl, by simp, .inr ⟨rfl, ?_⟩⟩
    rintro x rfl
    rfl
  · rename_i h
    cases slot with
    | none => simp [stale] at h
    | some e =>
      simp only [stale] at h
      split at h
      · rename_i hw
        refine ⟨e, rfl, Waker.task_eq_of_willWake hw, ?_, .inl ⟨rfl, rfl⟩⟩
        rintro rfl
        simp at h
      · simp at h

end Waiters

/-- A future of a primitive as its caller sees it. `registered` is the field of the
source; `polled` is the waker of the last poll, kept while that poll stands as
`Pending`; `woken` records a wake of its task since that poll, and `ready` that it was
`Ready`. -/
structure Fut (κ : Type w) (ρ : Type u) (W : Type v) where
  kind : κ
  registered : Option (Entry ρ W)
  polled : Option W
  woken : Bool
  ready : Bool
  deriving DecidableEq, Repr

namespace Fut

variable {κ : Type w} {ρ : Type u} {W : Type v}

def fresh (kind : κ) : Fut κ ρ W := ⟨kind, none, none, false, false⟩

/-- Never polled. -/
def Unpolled (u : Fut κ ρ W) : Prop := u.polled = none ∧ u.ready = false

/-- Polled to `Pending`, and since then neither completed nor dropped. -/
def Waiting (u : Fut κ ρ W) : Prop := u.polled.isSome = true

/-- Polled to `Ready`, and since then left alone. -/
def Completed (u : Fut κ ρ W) : Prop := u.polled = none ∧ u.ready = true

/-- The future after a poll with `waker`: `slot` is `registered` as the poll left it. -/
def afterPoll (u : Fut κ ρ W) (slot : Option (Entry ρ W)) (ready : Bool) (waker : W) : Fut κ ρ W :=
  { u with registered := slot, polled := if ready then none else some waker, woken := false, ready }

variable [Waker W]

def wake (u : Fut κ ρ W) (ws : List W) : Fut κ ρ W :=
  { u with woken := u.woken || u.polled.any (Waker.wokenBy ws) }

@[simp] theorem wake_kind (u : Fut κ ρ W) (ws : List W) : (u.wake ws).kind = u.kind := rfl
@[simp] theorem wake_registered (u : Fut κ ρ W) (ws : List W) :
    (u.wake ws).registered = u.registered := rfl
@[simp] theorem wake_polled (u : Fut κ ρ W) (ws : List W) : (u.wake ws).polled = u.polled := rfl

theorem wake_woken_of {u : Fut κ ρ W} {ws : List W} (h : u.woken = true) :
    (u.wake ws).woken = true := by
  simp [wake, h]

@[simp] theorem wake_nil (u : Fut κ ρ W) : u.wake [] = u := by
  cases u with
  | mk kind registered polled woken ready => cases polled <;> simp [wake]

/-- The slot and the last poll agree, and the queued waker wakes the polling task. -/
structure Consistent (u : Fut κ ρ W) : Prop where
  slot : ∀ e, u.registered = some e → ∃ p, u.polled = some p ∧ Waker.task p = Waker.task e.waker
  empty : u.registered = none → u.polled = none

theorem consistent_fresh (kind : κ) : (fresh kind : Fut κ ρ W).Consistent :=
  ⟨fun _ h => (by cases h), fun _ => rfl⟩

theorem Consistent.waiting_iff {u : Fut κ ρ W} (h : u.Consistent) :
    u.Waiting ↔ ∃ e, u.registered = some e := by
  constructor
  · intro hw
    cases hr : u.registered with
    | none => simp [Waiting, h.empty hr] at hw
    | some e => exact ⟨e, rfl⟩
  · rintro ⟨e, he⟩
    obtain ⟨p, hp, _⟩ := h.slot e he
    simp [Waiting, hp]

theorem Consistent.wake {u : Fut κ ρ W} (h : u.Consistent) (ws : List W) : (u.wake ws).Consistent :=
  ⟨h.slot, h.empty⟩

/-- A registered future is woken by any wake of its entry's waker. -/
theorem Consistent.woken_of_mem {u : Fut κ ρ W} (h : u.Consistent) {e : Entry ρ W}
    (he : u.registered = some e) {ws : List W} (hw : e.waker ∈ ws) : (u.wake ws).woken = true := by
  obtain ⟨p, hp, ht⟩ := h.slot e he
  have : Waker.wokenBy ws p = true := Waker.wokenBy_eq_true.mpr ⟨e.waker, hw, ht.symm⟩
  simp [Fut.wake, hp, this]

/-- A completed poll leaves an empty slot. -/
theorem consistent_ready (u : Fut κ ρ W) (waker : W) : (u.afterPoll none true waker).Consistent :=
  ⟨fun _ h => (by cases h), fun _ => rfl⟩

theorem consistent_pending (u : Fut κ ρ W) {slot : Option (Entry ρ W)} {e : Entry ρ W} {waker : W}
    (hs : slot = some e) (ht : Waker.task e.waker = Waker.task waker) :
    (u.afterPoll slot false waker).Consistent := by
  subst hs
  refine ⟨?_, fun h => by cases h⟩
  intro x hx
  cases hx
  exact ⟨waker, rfl, ht.symm⟩

end Fut

/-- The futures of one primitive, by a caller-chosen name. -/
abbrev Futs (κ : Type w) (ρ : Type u) (W : Type v) := Nat → Option (Fut κ ρ W)

namespace Futs

variable {κ : Type w} {ρ : Type u} {W : Type v}

def set (futs : Futs κ ρ W) (f : Nat) (u : Option (Fut κ ρ W)) : Futs κ ρ W :=
  Function.update futs f u

@[simp] theorem set_same (futs : Futs κ ρ W) (f : Nat) (u : Option (Fut κ ρ W)) :
    futs.set f u f = u := by simp [set]

theorem set_ne (futs : Futs κ ρ W) {f g : Nat} (h : g ≠ f) (u : Option (Fut κ ρ W)) :
    futs.set f u g = futs g := by simp [set, h]

theorem set_eq_some {futs : Futs κ ρ W} {f g : Nat} {v : Option (Fut κ ρ W)} {u : Fut κ ρ W}
    (h : futs.set f v g = some u) : g = f ∧ v = some u ∨ g ≠ f ∧ futs g = some u := by
  by_cases hgf : g = f
  · subst hgf
    exact .inl ⟨rfl, (set_same ..).symm.trans h⟩
  · exact .inr ⟨hgf, (set_ne futs hgf v).symm.trans h⟩

/-- Every entry of the queue is the slot of a live future of an admitted kind. -/
def Owns (futs : Futs κ ρ W) (P : κ → Prop) (q : Waiters ρ W) : Prop :=
  ∀ e ∈ q, ∃ f u, futs f = some u ∧ P u.kind ∧ u.registered = some e

theorem Owns.subset {futs : Futs κ ρ W} {P : κ → Prop} {q r : Waiters ρ W}
    (h : futs.Owns P q) (hr : ∀ e ∈ r, e ∈ q) : futs.Owns P r :=
  fun e he => h e (hr e he)

/-- Changing a future that owns no entry of the queue. -/
theorem Owns.set_of {futs : Futs κ ρ W} {P : κ → Prop} {q : Waiters ρ W} (h : futs.Owns P q)
    {f : Nat} {v : Option (Fut κ ρ W)}
    (hf : ∀ u, futs f = some u → P u.kind → ∀ e, u.registered = some e → e ∉ q) :
    (futs.set f v).Owns P q := by
  intro e he
  obtain ⟨g, u, hg, hP, hu⟩ := h e he
  have hgf : g ≠ f := by
    rintro rfl
    exact hf u hg hP e hu he
  exact ⟨g, u, by rw [set_ne futs hgf, hg], hP, hu⟩

theorem Owns.deregister {futs : Futs κ ρ W} {P : κ → Prop} {q : Waiters ρ W} (h : futs.Owns P q)
    {f : Nat} {u : Fut κ ρ W} (hf : futs f = some u) (v : Option (Fut κ ρ W)) :
    (futs.set f v).Owns P (q.deregister u.registered) := by
  refine (h.subset fun e he => (Waiters.mem_deregister.mp he).1).set_of ?_
  intro u' hu' _ e he hmem
  rw [hf] at hu'
  cases hu'
  exact (Waiters.mem_deregister.mp hmem).2 e he rfl

variable [Waker W]

def wake (futs : Futs κ ρ W) (ws : List W) : Futs κ ρ W := fun f => (futs f).map (·.wake ws)

theorem wake_eq_some {futs : Futs κ ρ W} {ws : List W} {f : Nat} {v : Fut κ ρ W} :
    futs.wake ws f = some v ↔ ∃ u, futs f = some u ∧ u.wake ws = v := by
  simp [wake, Option.map_eq_some_iff]

@[simp] theorem wake_nil (futs : Futs κ ρ W) : futs.wake [] = futs := by
  funext f
  simp [wake]

def Consistent (futs : Futs κ ρ W) : Prop := ∀ f u, futs f = some u → u.Consistent

theorem Consistent.wake {futs : Futs κ ρ W} (h : futs.Consistent) (ws : List W) :
    (futs.wake ws).Consistent := by
  intro f u hu
  obtain ⟨v, hv, rfl⟩ := wake_eq_some.mp hu
  exact (h f v hv).wake ws

theorem Consistent.set {futs : Futs κ ρ W} (h : futs.Consistent) (f : Nat) {u : Fut κ ρ W}
    (hu : u.Consistent) : (futs.set f (some u)).Consistent := by
  intro g v hv
  rcases set_eq_some hv with ⟨-, hv⟩ | ⟨-, hv⟩
  · cases hv
    exact hu
  · exact h g v hv

theorem Consistent.erase {futs : Futs κ ρ W} (h : futs.Consistent) (f : Nat) :
    (futs.set f none).Consistent := by
  intro g v hv
  rcases set_eq_some hv with ⟨-, hv⟩ | ⟨-, hv⟩
  · cases hv
  · exact h g v hv

/-- The owner of an entry is woken when the entry's waker is. -/
theorem Consistent.woken_owner {futs : Futs κ ρ W} (h : futs.Consistent) {P : κ → Prop}
    {q : Waiters ρ W} (hq : futs.Owns P q) {e : Entry ρ W} (he : e ∈ q) {ws : List W}
    (hw : e.waker ∈ ws) : ∃ f u, futs.wake ws f = some u ∧ P u.kind ∧ u.registered = some e ∧
      u.Waiting ∧ u.woken = true := by
  obtain ⟨f, u, hf, hP, hu⟩ := hq e he
  have hc := h f u hf
  exact ⟨f, u.wake ws, wake_eq_some.mpr ⟨u, hf, rfl⟩, hP, hu, hc.waiting_iff.mpr ⟨e, hu⟩,
    hc.woken_of_mem hu hw⟩

theorem Owns.wake {futs : Futs κ ρ W} {P : κ → Prop} {q : Waiters ρ W} (h : futs.Owns P q)
    (ws : List W) : (futs.wake ws).Owns P q := by
  intro e he
  obtain ⟨f, u, hf, hP, hu⟩ := h e he
  exact ⟨f, u.wake ws, wake_eq_some.mpr ⟨u, hf, rfl⟩, hP, hu⟩

theorem Owns.register {futs : Futs κ ρ W} {P : κ → Prop} {q : Waiters ρ W} (h : futs.Owns P q)
    {f : Nat} {u v : Fut κ ρ W} (hf : futs f = some u) (hP : P v.kind) (nextId : UInt64) (req : ρ)
    (waker : W) (hv : v.registered = (q.register nextId u.registered req waker).2.2) :
    (futs.set f (some v)).Owns P (q.register nextId u.registered req waker).1 := by
  obtain ⟨e, hslot, -, -, hq⟩ := q.register_spec nextId u.registered req waker
  rw [hslot] at hv
  -- The polled future owns exactly the entries that carry its slot's token.
  have hother : ∀ x ∈ q, x.id ≠ e.id → ∃ g u', (futs.set f (some v)) g = some u' ∧ P u'.kind ∧
      u'.registered = some x := by
    intro x hx hne
    obtain ⟨g, u', hg, hP', hu'⟩ := h x hx
    have hgf : g ≠ f := by
      rintro rfl
      rw [hf] at hg
      cases hg
      rcases hq with ⟨-, hs⟩ | ⟨-, hs⟩
      · rw [hu'] at hs
        cases hs
        exact hne rfl
      · exact hne (hs x hu').symm
    exact ⟨g, u', by rw [set_ne futs hgf, hg], hP', hu'⟩
  intro x hx
  rcases hq with ⟨hq, hs⟩ | ⟨hq, -⟩
  · rw [hq] at hx
    obtain ⟨g, u', hg, hP', hu'⟩ := h x hx
    by_cases hgf : g = f
    · subst hgf
      rw [hf] at hg
      cases hg
      exact ⟨g, v, set_same .., hP, by rw [hv, ← hs, hu']⟩
    · exact ⟨g, u', by rw [set_ne futs hgf, hg], hP', hu'⟩
  · rw [hq, List.mem_append, List.mem_singleton] at hx
    rcases hx with hx | rfl
    · exact hother x (Waiters.mem_without.mp hx).1 (Waiters.mem_without.mp hx).2
    · exact ⟨f, v, set_same .., hP, hv⟩

end Futs

end Cynosure.SiteC
