import Mathlib.Tactic
import Cynosure.SiteC.QueueList

/-! # Every element of a `Queue` has one owner

On lists each statement moves elements between the caller, the queues and the dropped
ones without losing or copying any. The refinement carries this to the queues, where
an initialised slot outside the ring would be a leak and a second use of one a fault.
-/

namespace Cynosure.SiteC

variable {T : Type} {N : Nat}

namespace Report

/-- A statement that changed the contents from `l` to `l'` accounts for every element. -/
def Balanced (r : Report T) (l l' : List T) : Prop :=
  (r.entered : Multiset T) + l = r.moved + r.dropped + l'

theorem balanced_of_perm {r : Report T} {l l' : List T}
    (h : (r.entered ++ l).Perm (r.moved ++ r.dropped ++ l')) : r.Balanced l l' := by
  have := Multiset.coe_eq_coe.mpr h
  simpa only [Balanced, ← Multiset.coe_add] using this

/-- A report without elements goes with contents that are only reordered. -/
theorem balanced_of_reordered {out : Out T} {l l' : List T} (h : l.Perm l') :
    ({ out } : Report T).Balanced l l' :=
  balanced_of_perm h

end Report

theorem Queue.kept_perm (keep : Nat → T → Bool) (l : List T) (i : Nat) :
    (kept keep l i ++ kept (fun i v => !keep i v) l i).Perm l := by
  have hsplit := List.filter_append_perm (fun p : T × Nat => keep p.2 p.1) (l.zipIdx i)
  have hmap := hsplit.map Prod.fst
  rwa [List.map_append, List.zipIdx_map_fst] at hmap

theorem Queue.swapped_perm (a b : Nat) (l : List T) : (swapped a b l).Perm l := by
  unfold swapped
  split
  · rename_i va vb hva hvb
    obtain ⟨ha, rfl⟩ := List.getElem?_eq_some_iff.mp hva
    obtain ⟨hb, rfl⟩ := List.getElem?_eq_some_iff.mp hvb
    exact List.set_set_perm ha hb
  · exact .refl l

theorem QueueOp.balanced (l : List T) (op : QueueOp T) :
    (op.onList l).2.Balanced l (op.onList l).1 := by
  cases op with
  | pushBack v => exact Report.balanced_of_perm List.perm_append_comm
  | pushFront v => exact Report.balanced_of_perm (.refl _)
  | popFront => cases l <;> exact Report.balanced_of_perm (.refl _)
  | popBack =>
    rcases l.eq_nil_or_concat' with rfl | ⟨l, v, rfl⟩
    · exact Report.balanced_of_perm (.refl _)
    · exact Report.balanced_of_perm (by simp [QueueOp.onList])
  | swap a b =>
    rw [QueueOp.onList]
    split
    · exact Report.balanced_of_reordered (Queue.swapped_perm a b l).symm
    · exact Report.balanced_of_reordered (.refl l)
  | makeContiguous => exact Report.balanced_of_reordered (.refl l)
  | retain keep =>
    exact Report.balanced_of_perm ((Queue.kept_perm keep l 0).symm.trans List.perm_append_comm)
  | takeWhere remove =>
    refine Report.balanced_of_perm ?_
    simpa [QueueOp.onList] using (Queue.kept_perm remove l 0).symm
  | reserve additional => exact Report.balanced_of_reordered (.refl l)
  | clear => exact Report.balanced_of_perm (by simp [QueueOp.onList])
  | intoVec => exact Report.balanced_of_perm (by simp [QueueOp.onList])
  | extend items => exact Report.balanced_of_perm List.perm_append_comm
  | iter calls => exact Report.balanced_of_reordered (.refl l)
  | iterMut update calls =>
    -- What stood in the first `calls` places leaves, and what was written there takes them.
    refine Report.balanced_of_perm ?_
    have hsplit : ((l.take calls).mapIdx update ++ l).Perm
        ((l.take calls).mapIdx update ++ (l.take calls ++ l.drop calls)) := by
      rw [List.take_append_drop]
    exact hsplit.trans (List.perm_append_comm_assoc _ _ _)
  | len => exact Report.balanced_of_reordered (.refl l)
  | isEmpty => exact Report.balanced_of_reordered (.refl l)

namespace PoolOp

variable [BEq T]

theorem balanced (ls : List (List T)) (op : PoolOp T) :
    (op.onLists ls).2.Balanced ls.flatten (op.onLists ls).1.flatten := by
  cases op with
  | new => exact Report.balanced_of_reordered (by simp [onLists])
  | withCapacity capacity => exact Report.balanced_of_reordered (by simp [onLists])
  | ofList items =>
    refine Report.balanced_of_perm ?_
    simpa [onLists] using List.perm_append_comm
  | on i op =>
    cases hl : ls[i]? with
    | none =>
      simp only [onLists, hl]
      exact Report.balanced_of_reordered (.refl _)
    | some l =>
      simp only [onLists, hl, Report.Balanced, Simulation.flatten_set hl,
        Simulation.flatten_eraseIdx hl, ← add_assoc]
      exact congrArg (· + _) (op.balanced l)
  | clone i copy =>
    cases hl : ls[i]? with
    | none =>
      simp only [onLists, hl]
      exact Report.balanced_of_reordered (.refl _)
    | some l =>
      simp only [onLists, hl]
      refine Report.balanced_of_perm ?_
      simpa using List.perm_append_comm
  | eq i j =>
    rw [onLists]
    split <;> exact Report.balanced_of_reordered (.refl _)
  | intoIter i calls =>
    cases hl : ls[i]? with
    | none =>
      simp only [onLists, hl]
      exact Report.balanced_of_reordered (.refl _)
    | some l =>
      simp only [onLists, hl, Report.Balanced, Simulation.flatten_eraseIdx hl, Multiset.coe_add,
        List.take_append_drop]
      rfl
  | drop i =>
    cases hl : ls[i]? with
    | none =>
      simp only [onLists, hl]
      exact Report.balanced_of_reordered (.refl _)
    | some l =>
      simp only [onLists, hl, Report.Balanced, Simulation.flatten_eraseIdx hl, Multiset.coe_add]
      rfl

end PoolOp

namespace Pool

variable {S : Type}

def entered (p : Pool S T) : List T := p.reports.flatMap Report.entered

def moved (p : Pool S T) : List T := p.reports.flatMap Report.moved

def dropped (p : Pool S T) : List T := p.reports.flatMap Report.dropped

/-- Every element that ever came in went out, was dropped or is still there. -/
def Accounted (p : Pool (List T) T) : Prop :=
  (p.entered : Multiset T) = p.moved + p.dropped + p.objects.flatten

end Pool

theorem runLists_accounted [BEq T] (ops : List (PoolOp T)) : (runLists ops).Accounted := by
  unfold runLists
  have hnone : ({ objects := [], reports := [] } : Pool (List T) T).Accounted := rfl
  generalize ({ objects := [], reports := [] } : Pool (List T) T) = p at hnone ⊢
  induction ops generalizing p with
  | nil => exact hnone
  | cons op ops ih =>
    refine ih _ ?_
    have hstep := op.balanced p.objects
    simp only [Pool.Accounted, Pool.entered, Pool.moved, Pool.dropped, Report.Balanced,
      List.flatMap_append, List.flatMap_singleton, ← Multiset.coe_add] at hnone hstep ⊢
    rw [hnone]
    calc _ = (p.reports.flatMap Report.moved : Multiset T) + (p.reports.flatMap Report.dropped) +
          ((op.onLists p.objects).2.entered + p.objects.flatten) := by abel
      _ = _ := by
        rw [hstep]
        abel

/-- The inline ring is in order: the indices are inside the array, and the slots in use
are exactly the `len` slots from `head` on. -/
def Queue.RingOk : Queue T N → Prop
  | .inline buf head tail len => len ≤ N ∧ (0 < N → head < N ∧ tail < N) ∧
      tail = (head + len) % N ∧
      ∀ i, (buf i).isSome = true ↔ i < N ∧ ∃ k < len, i = (head + k) % N
  | .heap _ => True

theorem Queue.Holds.ringOk {q : Queue T N} {l : List T} (h : q.Holds l) : q.RingOk := by
  cases q with
  | heap items => trivial
  | inline buf head tail len =>
    refine ⟨h.2.1, fun hN => ⟨h.head_lt hN, ?_⟩, h.2.2.2.1, fun i => ?_⟩
    · rw [h.2.2.2.1]
      exact Nat.mod_lt _ hN
    · by_cases hi : i < N
      · have hh := h.head_lt (by omega)
        obtain ⟨rfl, hle, -, -, rfl⟩ := h
        simp only [Ring.layout, hi, if_true, true_and, Option.isSome_iff_ne_none,
          ne_eq, List.getElem?_eq_none_iff, not_le]
        constructor
        · exact fun hlt => ⟨_, hlt, (Ring.slot_offset hh hi).symm⟩
        · rintro ⟨k, hk, rfl⟩
          rwa [Ring.offset_slot hh (by omega)]
      · obtain ⟨rfl, -, -, -, rfl⟩ := h
        simp [Ring.layout, hi]

/-- `Queue` owns each element exactly once: for every inline capacity and every program,
no call leaves the array or uses an uninitialised slot, each inline ring is in order, and
the elements that came in are those that went out, those that were dropped and those still
held. When no queue is left every element went out or was dropped, once. -/
theorem queue_owns_each_element_once [BEq T] (N : Nat) (ops : List (PoolOp T)) :
    ∃ p contents, runQueues N ops = .ok p ∧ (∀ q ∈ p.objects, q.RingOk) ∧
      List.Forall₂ (fun q l => q.listItems = .ok l) p.objects contents ∧
      p.entered.Perm (p.moved ++ p.dropped ++ contents.flatten) ∧
      (p.objects = [] → p.entered.Perm (p.moved ++ p.dropped)) := by
  obtain ⟨p, hp, hreports, hhold⟩ := runQueues_runLists N ops
  have haccount : p.entered.Perm (p.moved ++ p.dropped ++ (runLists ops).objects.flatten) := by
    have := runLists_accounted ops
    simp only [Pool.Accounted, Pool.entered, Pool.moved, Pool.dropped, ← hreports,
      Multiset.coe_add] at this
    exact Multiset.coe_eq_coe.mp this
  refine ⟨p, (runLists ops).objects, hp, ?_, hhold.imp fun q l h => h.listItems, haccount, ?_⟩
  · intro q hq
    obtain ⟨l, hl⟩ := Simulation.forall₂_mem_left hhold hq
    exact hl.ringOk
  · intro hnone
    rw [hnone] at hhold
    rw [List.forall₂_nil_left_iff.mp hhold] at haccount
    simpa using haccount

end Cynosure.SiteC
