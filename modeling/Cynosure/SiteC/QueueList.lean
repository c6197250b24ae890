import Mathlib.Tactic
import Cynosure.Lib.Simulation
import Cynosure.SiteC.QueueSpec

/-! # `Queue` against a plain list

A program works on any number of queues. The same program on plain lists is its
specification: each call returns the same, sees the same elements and size hints, and
hands out or drops the same elements.
-/

namespace Cynosure.SiteC

/-- What a call returned, and which elements changed hands in it: those that came into a
queue, those that went out to the caller, and those that were dropped. -/
structure Report (T : Type) where
  out : Out T
  entered : List T := []
  moved : List T := []
  dropped : List T := []

/-- The calls on one queue. -/
inductive QueueOp (T : Type) where
  | pushBack (v : T)
  | pushFront (v : T)
  | popFront
  | popBack
  | swap (a b : Nat)
  | makeContiguous
  | retain (keep : Nat → T → Bool)
  | takeWhere (remove : Nat → T → Bool)
  | reserve (additional : Nat)
  | clear
  | intoVec
  | extend (items : List T)
  | iter (calls : Nat)
  /-- Each element that `next` returns is overwritten, and so dropped. -/
  | iterMut (update : Nat → T → T) (calls : Nat)
  | len
  | isEmpty

/-- The statements of a program; a queue is named by its place among those alive. -/
inductive PoolOp (T : Type) where
  | new
  | withCapacity (capacity : Nat)
  /-- `From` and `FromIterator`. -/
  | ofList (items : List T)
  | on (i : Nat) (op : QueueOp T)
  | clone (i : Nat) (copy : T → T)
  | eq (i j : Nat)
  /-- `into_iter`, with the number of calls of `next` before the iterator is dropped. -/
  | intoIter (i calls : Nat)
  | drop (i : Nat)

variable {T : Type} {N : Nat}

/-- The elements that an iteration returned. -/
def seen (steps : List ((Nat × Option Nat) × Option T)) : List T := steps.filterMap Prod.snd

namespace QueueOp

def onQueue (q : Queue T N) : QueueOp T → Except Fault (Queue T N × Report T)
  | .pushBack v => do
    let q ← q.pushBack v
    return (q, { out := .done, entered := [v] })
  | .pushFront v => do
    let q ← q.pushFront v
    return (q, { out := .done, entered := [v] })
  | .popFront => do
    let (q, v) ← q.popFront
    return (q, { out := .item v, moved := v.toList })
  | .popBack => do
    let (q, v) ← q.popBack
    return (q, { out := .item v, moved := v.toList })
  | .swap a b => do
    let (q, out) ← q.swap a b
    return (q, { out })
  | .makeContiguous => do
    let (q, items) ← q.makeContiguous
    return (q, { out := .items items })
  | .retain keep => do
    let (q, dropped) ← q.retain keep
    return (q, { out := .done, dropped })
  | .takeWhere remove => do
    let (q, removed) ← q.takeWhere remove
    return (q, { out := .items removed, moved := removed })
  | .reserve additional => do
    let q ← q.reserve additional
    return (q, { out := .done })
  | .clear => do
    let (q, dropped) ← q.clear
    return (q, { out := .done, dropped })
  | .intoVec => do
    let (q, items) ← q.intoVec
    return (q, { out := .items items, moved := items })
  | .extend items => do
    let q ← q.extend items
    return (q, { out := .done, entered := items })
  | .iter calls => do
    let steps ← q.iter calls
    return (q, { out := .walk steps })
  | .iterMut update calls => do
    let (q, steps) ← q.iterMut update calls
    return (q, { out := .walk steps, entered := (seen steps).mapIdx update, dropped := seen steps })
  | .len => .ok (q, { out := .count q.len })
  | .isEmpty => .ok (q, { out := .bool q.isEmpty })

/-- The same call on a plain list. -/
def onList (l : List T) : QueueOp T → List T × Report T
  | .pushBack v => (l ++ [v], { out := .done, entered := [v] })
  | .pushFront v => (v :: l, { out := .done, entered := [v] })
  | .popFront => (l.tail, { out := .item l.head?, moved := l.head?.toList })
  | .popBack => (l.dropLast, { out := .item l.getLast?, moved := l.getLast?.toList })
  | .swap a b =>
    if a < l.length ∧ b < l.length then (Queue.swapped a b l, { out := .done })
    else
      let i := if a < l.length then b else a
      (l, { out := .panicked (Queue.boundsMessage i l.length) })
  | .makeContiguous => (l, { out := .items l })
  | .retain keep =>
    (Queue.kept keep l 0, { out := .done, dropped := Queue.kept (fun i v => !keep i v) l 0 })
  | .takeWhere remove =>
    (Queue.kept (fun i v => !remove i v) l 0,
      { out := .items (Queue.kept remove l 0), moved := Queue.kept remove l 0 })
  | .reserve _ => (l, { out := .done })
  | .clear => ([], { out := .done, dropped := l })
  | .intoVec => ([], { out := .items l, moved := l })
  | .extend items => (l ++ items, { out := .done, entered := items })
  | .iter calls => (l, { out := .walk (Queue.stepsFrom l 0 calls) })
  | .iterMut update calls =>
    ((l.take calls).mapIdx update ++ l.drop calls,
      { out := .walk (Queue.stepsFrom l 0 calls),
        entered := (l.take calls).mapIdx update, dropped := l.take calls })
  | .len => (l, { out := .count l.length })
  | .isEmpty => (l, { out := .bool l.isEmpty })

end QueueOp

/-- The objects alive, and a report for each statement so far. -/
structure Pool (S T : Type) where
  objects : List S
  reports : List (Report T)

namespace PoolOp

def onQueues [BEq T] (qs : List (Queue T N)) :
    PoolOp T → Except Fault (List (Queue T N) × Report T)
  | .new => .ok (qs ++ [Queue.new], { out := .done })
  | .withCapacity capacity => .ok (qs ++ [Queue.withCapacity capacity], { out := .done })
  | .ofList items => do
    let q ← Queue.ofList items
    return (qs ++ [q], { out := .done, entered := items })
  | .on i op =>
    match qs[i]? with
    | none => .ok (qs, { out := .absent })
    | some q => do
      let (q, report) ← op.onQueue q
      return (qs.set i q, report)
  | .clone i copy =>
    match qs[i]? with
    | none => .ok (qs, { out := .absent })
    | some q => do
      let items ← q.listItems
      let r ← q.clone copy
      return (qs ++ [r], { out := .done, entered := items.map copy })
  | .eq i j =>
    match qs[i]?, qs[j]? with
    | some q, some r => do
      let same ← q.eq r
      return (qs, { out := .bool same })
    | _, _ => .ok (qs, { out := .absent })
  | .intoIter i calls =>
    match qs[i]? with
    | none => .ok (qs, { out := .absent })
    | some q => do
      let (q, items) ← q.intoVec
      let dropped ← q.dropItems
      return (qs.eraseIdx i,
        { out := .walk (Queue.stepsFrom items 0 calls), moved := items.take calls,
          dropped := dropped ++ items.drop calls })
  | .drop i =>
    match qs[i]? with
    | none => .ok (qs, { out := .absent })
    | some q => do
      let dropped ← q.dropItems
      return (qs.eraseIdx i, { out := .done, dropped })

/-- The same statement on plain lists. -/
def onLists [BEq T] (ls : List (List T)) : PoolOp T → List (List T) × Report T
  | .new => (ls ++ [[]], { out := .done })
  | .withCapacity _ => (ls ++ [[]], { out := .done })
  | .ofList items => (ls ++ [items], { out := .done, entered := items })
  | .on i op =>
    match ls[i]? with
    | none => (ls, { out := .absent })
    | some l => (ls.set i (op.onList l).1, (op.onList l).2)
  | .clone i copy =>
    match ls[i]? with
    | none => (ls, { out := .absent })
    | some l => (ls ++ [l.map copy], { out := .done, entered := l.map copy })
  | .eq i j =>
    match ls[i]?, ls[j]? with
    | some l, some m => (ls, { out := .bool (l == m) })
    | _, _ => (ls, { out := .absent })
  | .intoIter i calls =>
    match ls[i]? with
    | none => (ls, { out := .absent })
    | some l =>
      (ls.eraseIdx i,
        { out := .walk (Queue.stepsFrom l 0 calls), moved := l.take calls,
          dropped := l.drop calls })
  | .drop i =>
    match ls[i]? with
    | none => (ls, { out := .absent })
    | some l => (ls.eraseIdx i, { out := .done, dropped := l })

end PoolOp

/-- The program on queues. -/
def runQueues [BEq T] (N : Nat) (ops : List (PoolOp T)) : Except Fault (Pool (Queue T N) T) :=
  ops.foldlM (fun p op => do
    let (objects, report) ← op.onQueues p.objects
    return { objects, reports := p.reports ++ [report] }) { objects := [], reports := [] }

/-- The program on lists. -/
def runLists [BEq T] (ops : List (PoolOp T)) : Pool (List T) T :=
  ops.foldl (fun p op =>
    { objects := (op.onLists p.objects).1, reports := p.reports ++ [(op.onLists p.objects).2] })
    { objects := [], reports := [] }

namespace Queue

variable {q : Queue T N} {l : List T}

theorem seen_stepsFrom (l : List T) (calls : Nat) : seen (stepsFrom l 0 calls) = l.take calls :=
  filterMap_stepsFrom l calls

theorem overwritten_zero (update : Nat → T → T) (calls : Nat) (l : List T) :
    overwritten update 0 calls l = (l.take calls).mapIdx update ++ l.drop calls := by
  refine List.ext_getElem? fun j => ?_
  rw [overwritten, List.getElem?_mapIdx]
  by_cases hj : j < calls
  · by_cases hl : j < l.length
    · rw [List.getElem?_append_left (by simp; omega)]
      simp [hj, hl]
    · have hlen : ((l.take calls).mapIdx update ++ l.drop calls).length ≤ j := by
        simp
        omega
      rw [List.getElem?_eq_none hlen, List.getElem?_eq_none (by omega), Option.map_none]
  · by_cases hl : j < l.length
    · have hfront : ((l.take calls).mapIdx update).length = calls := by
        simp
        omega
      rw [List.getElem?_append_right (by omega), hfront, List.getElem?_drop,
        show calls + (j - calls) = j by omega]
      simp [hj]
    · have hlen : ((l.take calls).mapIdx update ++ l.drop calls).length ≤ j := by
        simp
        omega
      rw [List.getElem?_eq_none hlen, List.getElem?_eq_none (by omega), Option.map_none]

/-- Each call does to the queue what it does to the list that the queue holds. -/
theorem Holds.onQueue (h : q.Holds l) (op : QueueOp T) :
    ∃ q', op.onQueue q = .ok (q', (op.onList l).2) ∧ q'.Holds (op.onList l).1 := by
  cases op with
  | pushBack v =>
    obtain ⟨q', hq', h'⟩ := h.pushBack v
    exact ⟨q', by rw [QueueOp.onQueue, hq']; rfl, h'⟩
  | pushFront v =>
    obtain ⟨q', hq', h'⟩ := h.pushFront v
    exact ⟨q', by rw [QueueOp.onQueue, hq']; rfl, h'⟩
  | popFront =>
    obtain ⟨q', hq', h'⟩ := h.popFront
    exact ⟨q', by rw [QueueOp.onQueue, hq']; rfl, h'⟩
  | popBack =>
    obtain ⟨q', hq', h'⟩ := h.popBack
    exact ⟨q', by rw [QueueOp.onQueue, hq']; rfl, h'⟩
  | swap a b =>
    obtain ⟨q', hq', h'⟩ := h.swap a b
    refine ⟨q', ?_, ?_⟩
    · rw [QueueOp.onQueue, hq', QueueOp.onList]
      by_cases ha : a < l.length <;> by_cases hb : b < l.length <;>
        simp [ha, hb, Except.ok_bind, pure, Except.pure]
    · rw [QueueOp.onList]
      split at h' <;> rename_i hab
      · rwa [if_pos hab]
      · rwa [if_neg hab]
  | makeContiguous =>
    obtain ⟨q', hq', h'⟩ := h.makeContiguous
    exact ⟨q', by rw [QueueOp.onQueue, hq']; rfl, h'⟩
  | retain keep =>
    obtain ⟨q', hq', h'⟩ := h.retain keep
    exact ⟨q', by rw [QueueOp.onQueue, hq']; rfl, h'⟩
  | takeWhere remove =>
    obtain ⟨q', hq', h'⟩ := h.takeWhere remove
    exact ⟨q', by rw [QueueOp.onQueue, hq']; rfl, h'⟩
  | reserve additional =>
    obtain ⟨q', hq', h'⟩ := h.reserve additional
    exact ⟨q', by rw [QueueOp.onQueue, hq']; rfl, h'⟩
  | clear =>
    obtain ⟨q', hq', h'⟩ := h.clear
    exact ⟨q', by rw [QueueOp.onQueue, hq']; rfl, h'⟩
  | intoVec =>
    obtain ⟨q', hq', h'⟩ := h.intoVec
    exact ⟨q', by rw [QueueOp.onQueue, hq']; rfl, h'⟩
  | extend items =>
    obtain ⟨q', hq', h'⟩ := h.extend items
    exact ⟨q', by rw [QueueOp.onQueue, hq']; rfl, h'⟩
  | iter calls => exact ⟨q, by rw [QueueOp.onQueue, h.iter]; rfl, h⟩
  | iterMut update calls =>
    obtain ⟨q', hq', h'⟩ := h.iterMut update calls
    rw [overwritten_zero] at h'
    refine ⟨q', ?_, h'⟩
    rw [QueueOp.onQueue, hq', Except.ok_bind]
    dsimp only
    rw [seen_stepsFrom]
    rfl
  | len => exact ⟨q, by rw [QueueOp.onQueue, h.len_eq]; rfl, h⟩
  | isEmpty => exact ⟨q, by rw [QueueOp.onQueue, h.isEmpty_eq]; rfl, h⟩

end Queue

namespace PoolOp

variable [BEq T] {qs : List (Queue T N)} {ls : List (List T)}

/-- The queues hold the lists, one by one. -/
def Hold (qs : List (Queue T N)) (ls : List (List T)) : Prop :=
  List.Forall₂ (fun q l => q.Holds l) qs ls

theorem onQueues_onLists (h : Hold qs ls) (op : PoolOp T) :
    ∃ qs', op.onQueues qs = .ok (qs', (op.onLists ls).2) ∧ Hold qs' (op.onLists ls).1 := by
  cases op with
  | new => exact ⟨_, rfl, Simulation.forall₂_concat h Queue.holds_new⟩
  | withCapacity capacity =>
    exact ⟨_, rfl, Simulation.forall₂_concat h (Queue.holds_withCapacity capacity)⟩
  | ofList items =>
    obtain ⟨q, hq, hitems⟩ := Queue.holds_ofList (N := N) items
    exact ⟨qs ++ [q], by rw [onQueues, hq]; rfl, Simulation.forall₂_concat h hitems⟩
  | on i op =>
    rcases Simulation.forall₂_getElem? h i with ⟨hq, hl⟩ | ⟨q, l, hq, hl, hh⟩
    · exact ⟨qs, by simp only [onQueues, onLists, hq, hl], by simpa only [onLists, hl] using h⟩
    · obtain ⟨q', hq', h'⟩ := hh.onQueue op
      refine ⟨qs.set i q', ?_, ?_⟩
      · simp only [onQueues, onLists, hq, hl, hq', Except.ok_bind]
        rfl
      · simp only [onLists, hl]
        exact Simulation.forall₂_set h i h'
  | clone i copy =>
    rcases Simulation.forall₂_getElem? h i with ⟨hq, hl⟩ | ⟨q, l, hq, hl, hh⟩
    · exact ⟨qs, by simp only [onQueues, onLists, hq, hl], by simpa only [onLists, hl] using h⟩
    · obtain ⟨r, hr, h'⟩ := hh.clone copy
      refine ⟨qs ++ [r], ?_, ?_⟩
      · simp only [onQueues, onLists, hq, hl, hh.listItems, hr, Except.ok_bind]
        rfl
      · simp only [onLists, hl]
        exact Simulation.forall₂_concat h h'
  | eq i j =>
    refine ⟨qs, ?_, ?_⟩
    · rcases Simulation.forall₂_getElem? h i with ⟨hq, hl⟩ | ⟨q, l, hq, hl, hh⟩
      · simp only [onQueues, onLists, hq, hl]
      · rcases Simulation.forall₂_getElem? h j with ⟨hr, hm⟩ | ⟨r, m, hr, hm, hh'⟩
        · simp only [onQueues, onLists, hq, hl, hr, hm]
        · simp only [onQueues, onLists, hq, hl, hr, hm, hh.eq hh', Except.ok_bind]
          rfl
    · rw [onLists]
      split <;> exact h
  | intoIter i calls =>
    rcases Simulation.forall₂_getElem? h i with ⟨hq, hl⟩ | ⟨q, l, hq, hl, hh⟩
    · exact ⟨qs, by simp only [onQueues, onLists, hq, hl], by simpa only [onLists, hl] using h⟩
    · obtain ⟨q', hq', h'⟩ := hh.intoVec
      refine ⟨qs.eraseIdx i, ?_, ?_⟩
      · simp only [onQueues, onLists, hq, hl, hq', h'.dropItems, Except.ok_bind]
        rfl
      · simp only [onLists, hl]
        exact Simulation.forall₂_eraseIdx h i
  | drop i =>
    rcases Simulation.forall₂_getElem? h i with ⟨hq, hl⟩ | ⟨q, l, hq, hl, hh⟩
    · exact ⟨qs, by simp only [onQueues, onLists, hq, hl], by simpa only [onLists, hl] using h⟩
    · refine ⟨qs.eraseIdx i, ?_, ?_⟩
      · simp only [onQueues, onLists, hq, hl, hh.dropItems, Except.ok_bind]
        rfl
      · simp only [onLists, hl]
        exact Simulation.forall₂_eraseIdx h i

end PoolOp

section Runs

variable [BEq T]

/-- The program on queues never faults, reports what the program on lists reports, and
ends with the same contents. -/
theorem runQueues_runLists (N : Nat) (ops : List (PoolOp T)) :
    ∃ p, runQueues N ops = .ok p ∧ p.reports = (runLists ops).reports ∧
      PoolOp.Hold p.objects (runLists ops).objects := by
  refine Simulation.foldlM_ok
    (R := fun (p : Pool (Queue T N) T) (p' : Pool (List T) T) =>
      p.reports = p'.reports ∧ PoolOp.Hold p.objects p'.objects) ?_ ops ⟨rfl, List.Forall₂.nil⟩
  rintro p p' op ⟨hreports, hhold⟩
  obtain ⟨qs, hqs, h'⟩ := PoolOp.onQueues_onLists hhold op
  refine ⟨{ objects := qs, reports := p'.reports ++ [(op.onLists p'.objects).2] }, ?_, rfl, h'⟩
  rw [hqs, hreports]
  rfl

/-- `Queue` refines a plain list: for every inline capacity and every program, each call
returns what it returns on plain lists, and each queue ends with the elements of its list. -/
theorem queue_refines_list (N : Nat) (ops : List (PoolOp T)) :
    ∃ p, runQueues N ops = .ok p ∧ p.reports = (runLists ops).reports ∧
      List.Forall₂ (fun q l => q.listItems = .ok l ∧ q.len = l.length) p.objects
        (runLists ops).objects := by
  obtain ⟨p, hp, hreports, hhold⟩ := runQueues_runLists N ops
  exact ⟨p, hp, hreports, hhold.imp fun q l h => ⟨h.listItems, h.len_eq⟩⟩

end Runs

end Cynosure.SiteC
