import Mathlib.Data.Finset.Insert
import Mathlib.Data.List.Basic
import Cynosure.SiteD.MpscLight

/-! # The wait-list of the light MPSC channel

A parked sender is in `q` until a freed slot selects it, and in `selected` until it polls
again or is dropped. No operation but `park` adds an id, and none but the sender's
own poll and drop, or the close of the channel, takes one away.
-/

namespace Cynosure.SiteD.MpscLight

variable {W : Type}

namespace Waiters

variable {w : Waiters W} {id : Nat} {waker : W}

def Waiting (w : Waiters W) (id : Nat) : Prop := id ∈ w.ids ∨ id ∈ w.selected

structure WellFormed (w : Waiters W) : Prop where
  sorted : w.ids.Pairwise (· < ·)
  disjoint : ∀ id ∈ w.ids, id ∉ w.selected
  below : ∀ id, w.Waiting id → id < w.nextId

theorem mem_insertKey {q : List (Nat × W)} (j : Nat) :
    j ∈ (insertKey id waker q).map Prod.fst ↔ j = id ∨ j ∈ q.map Prod.fst := by
  induction q with
  | nil => simp [insertKey]
  | cons e rest ih =>
    simp only [insertKey]
    split
    · simp
    · split
      · rename_i heq
        simp [heq]
      · simp only [List.map_cons, List.mem_cons, ih]
        grind

/-- The keys grow, so a new one goes to the end. -/
theorem insertKey_eq_append {q : List (Nat × W)} (h : ∀ j ∈ q.map Prod.fst, j < id) :
    insertKey id waker q = q ++ [(id, waker)] := by
  induction q with
  | nil => rfl
  | cons e rest ih =>
    have hlt : e.1 < id := h e.1 (by simp)
    rw [insertKey, if_neg (by omega), if_neg (by omega), ih fun j hj => h j (by simp [hj])]
    rfl

theorem ids_repoll (w : Waiters W) (id : Nat) : (w.repoll id).ids = w.ids.filter (· ≠ id) := by
  simp only [ids, repoll, List.filter_map]
  rfl

theorem waiting_repoll (j : Nat) : (w.repoll id).Waiting j ↔ j ≠ id ∧ w.Waiting j := by
  simp only [Waiting, ids_repoll, List.mem_filter, decide_eq_true_eq]
  simp only [repoll, Finset.mem_erase]
  grind

theorem waiting_selectFirst (j : Nat) : w.selectFirst.Waiting j ↔ w.Waiting j := by
  unfold selectFirst
  cases hq : w.q with
  | nil => rfl
  | cons e rest =>
    simp only [Waiting, ids, hq, List.map_cons, List.mem_cons, Finset.mem_insert]
    grind

theorem waiting_cancel (j : Nat) : (w.cancel id).Waiting j ↔ j ≠ id ∧ w.Waiting j := by
  unfold cancel
  split
  · rw [waiting_selectFirst, waiting_repoll]
  · exact waiting_repoll j

theorem waiting_park (j : Nat) : (w.park waker).Waiting j ↔ j = w.nextId ∨ w.Waiting j := by
  simp only [Waiting, ids, park, mem_insertKey]
  exact or_assoc

theorem not_waiting_clear (j : Nat) : ¬ w.clear.Waiting j := by
  simp [Waiting, ids, clear]

theorem selectFirst_selected (h : w.q ≠ []) : w.selectFirst.selected.Nonempty := by
  unfold selectFirst
  cases hq : w.q with
  | nil => exact absurd hq h
  | cons e rest => exact ⟨e.1, Finset.mem_insert_self _ _⟩

@[simp] theorem selectFirst_nextId : w.selectFirst.nextId = w.nextId := by
  unfold selectFirst
  split <;> rfl

@[simp] theorem cancel_nextId : (w.cancel id).nextId = w.nextId := by
  unfold cancel
  split
  · rw [selectFirst_nextId]
    rfl
  · rfl

theorem selectFirst_of_nil (h : w.q = []) : w.selectFirst = w := by
  unfold selectFirst
  rw [h]

/-- A wake that is owed survives the drop of the sender that owed it. -/
theorem cancel_owed (h : (w.cancel id).q ≠ []) (hs : w.selected.Nonempty) :
    (w.cancel id).selected.Nonempty := by
  unfold cancel at h ⊢
  split at h
  · rename_i hsel
    rw [if_pos hsel]
    apply selectFirst_selected
    intro hq
    rw [selectFirst_of_nil hq] at h
    exact h hq
  · rename_i hsel
    rw [if_neg hsel]
    obtain ⟨j, hj⟩ := hs
    refine ⟨j, Finset.mem_erase.mpr ⟨?_, hj⟩⟩
    rintro rfl
    exact hsel hj

theorem q_of_repoll (h : (w.repoll id).q ≠ []) : w.q ≠ [] := by
  intro hq
  simp [repoll, hq] at h

theorem q_of_selectFirst (h : w.selectFirst.q ≠ []) : w.q ≠ [] := by
  intro hq
  rw [selectFirst_of_nil hq] at h
  exact h hq

theorem q_of_cancel (h : (w.cancel id).q ≠ []) : w.q ≠ [] := by
  unfold cancel at h
  split at h
  · exact q_of_repoll (q_of_selectFirst h)
  · exact q_of_repoll h

namespace WellFormed

theorem empty : (⟨[], 0, ∅⟩ : Waiters W).WellFormed where
  sorted := List.Pairwise.nil
  disjoint := fun _ h => by simp [ids] at h
  below := fun _ h => by simp [Waiting, ids] at h

theorem park (h : w.WellFormed) (waker : W) : (w.park waker).WellFormed := by
  have hlt : ∀ j ∈ w.ids, j < w.nextId := fun j hj => h.below j (.inl hj)
  have hids : (w.park waker).ids = w.ids ++ [w.nextId] := by
    simp [ids, Waiters.park, insertKey_eq_append hlt]
  refine ⟨?_, ?_, ?_⟩
  · rw [hids, List.pairwise_append]
    refine ⟨h.sorted, by simp, fun a ha b hb => ?_⟩
    rw [List.mem_singleton.mp hb]
    exact hlt a ha
  · intro j hj
    rw [hids, List.mem_append, List.mem_singleton] at hj
    rcases hj with hj | rfl
    · exact h.disjoint j hj
    · exact fun hsel => (h.below w.nextId (.inr hsel)).ne rfl
  · intro j hj
    change j < w.nextId + 1
    rw [waiting_park] at hj
    rcases hj with rfl | hj
    · exact Nat.lt_succ_self _
    · exact (h.below j hj).trans (Nat.lt_succ_self _)

theorem repoll (h : w.WellFormed) (id : Nat) : (w.repoll id).WellFormed where
  sorted := by
    rw [ids_repoll]
    exact h.sorted.filter _
  disjoint := fun j hj => by
    rw [ids_repoll] at hj
    exact fun hsel => h.disjoint j (List.mem_of_mem_filter hj) (Finset.mem_of_mem_erase hsel)
  below := fun j hj => h.below j ((waiting_repoll j).mp hj).2

theorem selectFirst (h : w.WellFormed) : w.selectFirst.WellFormed := by
  cases hq : w.q with
  | nil => rwa [selectFirst_of_nil hq]
  | cons e rest =>
    have hids : w.ids = e.1 :: rest.map Prod.fst := by simp [ids, hq]
    have hsorted := h.sorted
    rw [hids, List.pairwise_cons] at hsorted
    have hnew : w.selectFirst = { w with q := rest, selected := insert e.1 w.selected } := by
      simp [Waiters.selectFirst, hq]
    refine ⟨?_, ?_, ?_⟩
    · rw [hnew]
      exact hsorted.2
    · rw [hnew]
      intro j hj
      have hj : j ∈ rest.map Prod.fst := hj
      have hne : j ≠ e.1 := (hsorted.1 j hj).ne'
      rw [Finset.mem_insert]
      rintro (rfl | hsel)
      · exact hne rfl
      · exact h.disjoint j (by rw [hids]; exact List.mem_cons_of_mem _ hj) hsel
    · intro j hj
      rw [selectFirst_nextId]
      exact h.below j ((waiting_selectFirst j).mp hj)

theorem cancel (h : w.WellFormed) (id : Nat) : (w.cancel id).WellFormed := by
  unfold Waiters.cancel
  split
  · exact (h.repoll id).selectFirst
  · exact h.repoll id

theorem clear (w : Waiters W) : w.clear.WellFormed where
  sorted := List.Pairwise.nil
  disjoint := fun _ hj => absurd hj (by simp [ids, Waiters.clear])
  below := fun j hj => absurd hj (not_waiting_clear j)

end WellFormed

end Waiters

end Cynosure.SiteD.MpscLight
