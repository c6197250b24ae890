import Cynosure.SiteC.QueueSpec
import Cynosure.SiteC.Mutex
import Cynosure.SiteC.RwLock
import Cynosure.SiteC.Semaphore

/-! # The wait queues in their storage

The waiters of the three primitives stand in a `Queue` with eight inline slots. A
registration reads it with `iter`, drains and rebuilds it with `take_where` and appends
with `push_back`; none of that faults, and the list that is held changes as in the models
of the primitives. The clone and the drop of a waker come between these accesses.
-/

namespace Cynosure.SiteC

/-- `Queue<(u64, Rc<Waker>), 8>`; the entries of the semaphore also hold the request. -/
abbrev WaitCells (ρ W : Type) := Queue (Entry ρ W) 8

variable {ρ W : Type}

namespace WaitCells

/-- `any(|(qid, ..)| qid == id)`, which stops at the first entry that it finds. -/
def anyFrom (q : WaitCells ρ W) (id : UInt64) (c : Cursor (Entry ρ W)) : Nat → Except Fault Bool
  | 0 => .ok false
  | calls + 1 => do
    let (c, e) ← q.nextItem c
    match e with
    | none => return false
    | some e => if e.id == id then return true else anyFrom q id c calls

/-- `iter().any(..)`: the iterator ends one call behind the last entry. -/
def any (q : WaitCells ρ W) (id : UInt64) : Except Fault Bool := anyFrom q id q.cursor (q.len + 1)

/-- `take_where` and `push_back` under one borrow; the waker of `e` is the clone. -/
def requeue (q : WaitCells ρ W) (e : Entry ρ W) : Except Fault (WaitCells ρ W) := do
  let (q, _) ← q.takeWhere fun _ x => x.id == e.id
  q.pushBack e

def deregister (q : WaitCells ρ W) (slot : Option (Entry ρ W)) : Except Fault (WaitCells ρ W) :=
  match slot with
  | some e => do
    let (q, _) ← q.takeWhere fun _ x => x.id == e.id
    return q
  | none => .ok q

variable [Waker W]

def stale (q : WaitCells ρ W) (slot : Option (Entry ρ W)) (waker : W) : Except Fault Bool :=
  match slot with
  | some e =>
    if Waker.willWake e.waker waker then do
      let queued ← any q e.id
      return !queued
    else return true
  | none => return true

def register (q : WaitCells ρ W) (nextId : UInt64) (slot : Option (Entry ρ W)) (req : ρ)
    (waker : W) : Except Fault (WaitCells ρ W × UInt64 × Option (Entry ρ W)) := do
  if ← stale q slot waker then
    let e : Entry ρ W := ⟨Waiters.registerId nextId slot, req, waker⟩
    let q ← requeue q e
    return (q, if slot.isSome then nextId else nextId + 1, some e)
  else return (q, nextId, slot)

end WaitCells

/-- The cells of a `LocalMutex`. -/
structure MutexCells (W : Type) where
  locked : Bool
  waiters : WaitCells Unit W
  nextId : UInt64

namespace MutexCells

def deregister (c : MutexCells W) (slot : Option (Entry Unit W)) :
    Except Fault (MutexCells W × Option (Entry Unit W)) := do
  let waiters ← WaitCells.deregister c.waiters slot
  return ({ c with waiters }, none)

def register [Waker W] (c : MutexCells W) (slot : Option (Entry Unit W)) (waker : W) :
    Except Fault (MutexCells W × Option (Entry Unit W)) := do
  let (waiters, nextId, slot) ← WaitCells.register c.waiters c.nextId slot () waker
  return ({ c with waiters, nextId }, slot)

end MutexCells

/-- The cells of a `LocalRwLock`. -/
structure RwCells (W : Type) where
  readers : Nat
  writer : Bool
  readWaiters : WaitCells Unit W
  writeWaiters : WaitCells Unit W
  nextId : UInt64

namespace RwCells

/-- `deregister_in` on the queue of the future's kind. -/
def deregisterIn (c : RwCells W) (slot : Option (Entry Unit W)) :
    Access → Except Fault (RwCells W × Option (Entry Unit W))
  | .read => do
    let readWaiters ← WaitCells.deregister c.readWaiters slot
    return ({ c with readWaiters }, none)
  | .write => do
    let writeWaiters ← WaitCells.deregister c.writeWaiters slot
    return ({ c with writeWaiters }, none)

/-- `register_in` on the queue of the future's kind. -/
def registerIn [Waker W] (c : RwCells W) (slot : Option (Entry Unit W)) (waker : W) :
    Access → Except Fault (RwCells W × Option (Entry Unit W))
  | .read => do
    let (readWaiters, nextId, slot) ← WaitCells.register c.readWaiters c.nextId slot () waker
    return ({ c with readWaiters, nextId }, slot)
  | .write => do
    let (writeWaiters, nextId, slot) ← WaitCells.register c.writeWaiters c.nextId slot () waker
    return ({ c with writeWaiters, nextId }, slot)

end RwCells

/-- The cells of a `LocalSemaphore`. -/
structure SemCells (W : Type) where
  permits : Nat
  waiters : WaitCells Nat W
  nextId : UInt64

namespace SemCells

def deregister (c : SemCells W) (slot : Option (Entry Nat W)) :
    Except Fault (SemCells W × Option (Entry Nat W)) := do
  let waiters ← WaitCells.deregister c.waiters slot
  return ({ c with waiters }, none)

def register [Waker W] (c : SemCells W) (slot : Option (Entry Nat W)) (n : Nat) (waker : W) :
    Except Fault (SemCells W × Option (Entry Nat W)) := do
  let (waiters, nextId, slot) ← WaitCells.register c.waiters c.nextId slot n waker
  return ({ c with waiters, nextId }, slot)

end SemCells

namespace Queue

variable {q : WaitCells ρ W} {l : Waiters ρ W}

theorem Holds.anyFrom (h : q.Holds l) {id : UInt64} {k calls : Nat} {c : Cursor (Entry ρ W)}
    (hc : q.At l k c) (hcalls : l.length < k + calls) :
    WaitCells.anyFrom q id c calls = .ok ((l.drop k).any fun e => e.id == id) := by
  induction calls generalizing k c with
  | zero => rw [List.drop_eq_nil_of_le (by omega)]; rfl
  | succ calls ih =>
    obtain ⟨c', hnext, hc'⟩ := h.nextItem hc
    rw [WaitCells.anyFrom, hnext, Except.ok_bind]
    by_cases hk : k < l.length
    · rw [List.getElem?_eq_getElem hk, List.drop_eq_getElem_cons hk, List.any_cons]
      cases hid : l[k].id == id with
      | true => simp [hid, pure, Except.pure]
      | false => simpa [hid] using ih hc' (by omega)
    · rw [List.getElem?_eq_none (by omega), List.drop_eq_nil_of_le (by omega)]
      rfl

theorem Holds.any (h : q.Holds l) (id : UInt64) :
    WaitCells.any q id = .ok (l.any fun e => e.id == id) := by
  rw [WaitCells.any, h.len_eq]
  exact h.anyFrom h.at_cursor (by omega)

theorem Holds.stale [Waker W] (h : q.Holds l) (slot : Option (Entry ρ W)) (waker : W) :
    WaitCells.stale q slot waker = .ok (Waiters.stale l slot waker) := by
  cases slot with
  | none => rfl
  | some e =>
    simp only [WaitCells.stale, Waiters.stale, h.any]
    split <;> rfl

theorem Holds.takeId (h : q.Holds l) (id : UInt64) :
    ∃ q', q.takeWhere (fun _ x => x.id == id) = .ok (q', l.filter fun x => x.id == id) ∧
      q'.Holds (l.without id) := by
  obtain ⟨q', hq', h'⟩ := h.takeWhere fun _ x => x.id == id
  rw [kept_eq_filter] at hq'
  rw [kept_eq_filter fun x : Entry ρ W => !(x.id == id)] at h'
  exact ⟨q', hq', h'⟩

/-- Whatever queue the clone of the waker leaves, its other entries stay where they are. -/
theorem Holds.requeue (h : q.Holds l) (e : Entry ρ W) :
    ∃ q', WaitCells.requeue q e = .ok q' ∧ q'.Holds (l.without e.id ++ [e]) := by
  obtain ⟨q₁, hq₁, h₁⟩ := h.takeId e.id
  obtain ⟨q₂, hq₂, h₂⟩ := h₁.pushBack e
  refine ⟨q₂, ?_, h₂⟩
  rw [WaitCells.requeue, hq₁, Except.ok_bind]
  exact hq₂

theorem Holds.deregister (h : q.Holds l) (slot : Option (Entry ρ W)) :
    ∃ q', WaitCells.deregister q slot = .ok q' ∧ q'.Holds (l.deregister slot) := by
  cases slot with
  | none => exact ⟨q, rfl, h⟩
  | some e =>
    obtain ⟨q', hq', h'⟩ := h.takeId e.id
    exact ⟨q', by rw [WaitCells.deregister, hq']; rfl, h'⟩

theorem Holds.register [Waker W] (h : q.Holds l) (nextId : UInt64) (slot : Option (Entry ρ W))
    (req : ρ) (waker : W) :
    ∃ q', WaitCells.register q nextId slot req waker =
        .ok (q', (l.register nextId slot req waker).2) ∧
      q'.Holds (l.register nextId slot req waker).1 := by
  rw [WaitCells.register, h.stale, Except.ok_bind]
  cases hs : Waiters.stale l slot waker with
  | true =>
    obtain ⟨q', hq', h'⟩ := h.requeue ⟨Waiters.registerId nextId slot, req, waker⟩
    refine ⟨q', ?_, by rwa [Waiters.register, if_pos hs]⟩
    rw [if_pos rfl, Waiters.register, if_pos hs]
    dsimp only
    rw [hq']
    rfl
  | false =>
    rw [if_neg Bool.false_ne_true, Waiters.register, if_neg (by simp [hs])]
    exact ⟨q, rfl, h⟩

end Queue

namespace MutexCells

/-- The mutex that the cells store. -/
structure Stores (c : MutexCells W) (m : LocalMutex W) : Prop where
  locked : c.locked = m.locked
  waiters : c.waiters.Holds m.waiters
  nextId : c.nextId = m.nextId

theorem Stores.deregister {c : MutexCells W} {m : LocalMutex W} (h : c.Stores m)
    (slot : Option (Entry Unit W)) :
    ∃ c', c.deregister slot = .ok (c', none) ∧ c'.Stores (m.deregister slot) := by
  obtain ⟨q, hq, hq'⟩ := h.waiters.deregister slot
  refine ⟨{ c with waiters := q }, ?_, h.locked, hq', h.nextId⟩
  rw [MutexCells.deregister, hq]
  rfl

theorem Stores.register [Waker W] {c : MutexCells W} {m : LocalMutex W} (h : c.Stores m)
    (slot : Option (Entry Unit W)) (waker : W) :
    ∃ c', c.register slot waker = .ok (c', (m.register slot waker).2) ∧
      c'.Stores (m.register slot waker).1 := by
  obtain ⟨q, hq, hq'⟩ := h.waiters.register m.nextId slot () waker
  refine ⟨⟨c.locked, q, (m.register slot waker).1.nextId⟩, ?_, h.locked, hq', rfl⟩
  rw [MutexCells.register, h.nextId, hq]
  rfl

end MutexCells

namespace RwCells

/-- The lock that the cells store. -/
structure Stores (c : RwCells W) (m : LocalRwLock W) : Prop where
  readers : c.readers = m.readers
  writer : c.writer = m.writer
  readWaiters : c.readWaiters.Holds m.readWaiters
  writeWaiters : c.writeWaiters.Holds m.writeWaiters
  nextId : c.nextId = m.nextId

theorem Stores.deregisterIn {c : RwCells W} {m : LocalRwLock W} (h : c.Stores m)
    (slot : Option (Entry Unit W)) (kind : Access) :
    ∃ c', c.deregisterIn slot kind = .ok (c', none) ∧ c'.Stores (m.deregisterIn slot kind) := by
  cases kind with
  | read =>
    obtain ⟨q, hq, hq'⟩ := h.readWaiters.deregister slot
    refine ⟨{ c with readWaiters := q }, ?_, h.readers, h.writer, hq', h.writeWaiters, h.nextId⟩
    rw [RwCells.deregisterIn, hq]
    rfl
  | write =>
    obtain ⟨q, hq, hq'⟩ := h.writeWaiters.deregister slot
    refine ⟨{ c with writeWaiters := q }, ?_, h.readers, h.writer, h.readWaiters, hq', h.nextId⟩
    rw [RwCells.deregisterIn, hq]
    rfl

theorem Stores.registerIn [Waker W] {c : RwCells W} {m : LocalRwLock W} (h : c.Stores m)
    (slot : Option (Entry Unit W)) (waker : W) (kind : Access) :
    ∃ c', c.registerIn slot waker kind = .ok (c', (m.registerIn slot waker kind).2) ∧
      c'.Stores (m.registerIn slot waker kind).1 := by
  cases kind with
  | read =>
    obtain ⟨q, hq, hq'⟩ := h.readWaiters.register m.nextId slot () waker
    refine ⟨⟨c.readers, c.writer, q, c.writeWaiters, (m.registerIn slot waker .read).1.nextId⟩, ?_,
      h.readers, h.writer, hq', h.writeWaiters, rfl⟩
    rw [RwCells.registerIn, h.nextId, hq]
    rfl
  | write =>
    obtain ⟨q, hq, hq'⟩ := h.writeWaiters.register m.nextId slot () waker
    refine ⟨⟨c.readers, c.writer, c.readWaiters, q, (m.registerIn slot waker .write).1.nextId⟩, ?_,
      h.readers, h.writer, h.readWaiters, hq', rfl⟩
    rw [RwCells.registerIn, h.nextId, hq]
    rfl

end RwCells

namespace SemCells

/-- The semaphore that the cells store. -/
structure Stores (c : SemCells W) (s : LocalSemaphore W) : Prop where
  permits : c.permits = s.permits
  waiters : c.waiters.Holds s.waiters
  nextId : c.nextId = s.nextId

theorem Stores.deregister {c : SemCells W} {s : LocalSemaphore W} (h : c.Stores s)
    (slot : Option (Entry Nat W)) :
    ∃ c', c.deregister slot = .ok (c', none) ∧
      c'.Stores { s with waiters := s.waiters.deregister slot } := by
  obtain ⟨q, hq, hq'⟩ := h.waiters.deregister slot
  refine ⟨{ c with waiters := q }, ?_, h.permits, hq', h.nextId⟩
  rw [SemCells.deregister, hq]
  rfl

theorem Stores.register [Waker W] {c : SemCells W} {s : LocalSemaphore W} (h : c.Stores s)
    (slot : Option (Entry Nat W)) (n : Nat) (waker : W) :
    ∃ c', c.register slot n waker = .ok (c', (s.register slot n waker).2) ∧
      c'.Stores (s.register slot n waker).1 := by
  obtain ⟨q, hq, hq'⟩ := h.waiters.register s.nextId slot n waker
  refine ⟨⟨c.permits, q, (s.register slot n waker).1.nextId⟩, ?_, h.permits, hq', rfl⟩
  rw [SemCells.register, h.nextId, hq]
  rfl

end SemCells

end Cynosure.SiteC
