import Mathlib.Data.List.Forall2
import Mathlib.Algebra.Order.Group.Multiset

/-! # Running one list of operations on two levels

A fallible program simulates a total one when each operation succeeds on related
states and leaves them related. Where the states are lists of objects, the operations
replace one object, remove one or add one.
-/

universe u v

namespace Simulation

/-- The rule for a whole run: the program never fails, and ends in a related state. -/
theorem foldlM_ok {ε S O : Type u} {A : Type v} {R : S → A → Prop} {f : S → O → Except ε S}
    {g : A → O → A} (step : ∀ s a o, R s a → ∃ s', f s o = .ok s' ∧ R s' (g a o)) (ops : List O)
    {s : S} {a : A} (h : R s a) : ∃ s', ops.foldlM f s = .ok s' ∧ R s' (ops.foldl g a) := by
  induction ops generalizing s a with
  | nil => exact ⟨s, rfl, h⟩
  | cons o ops ih =>
    obtain ⟨s₁, hs₁, h₁⟩ := step s a o h
    obtain ⟨s₂, hs₂, h₂⟩ := ih h₁
    exact ⟨s₂, by rw [List.foldlM_cons, hs₁]; exact hs₂, h₂⟩

section Objects

variable {α : Type u} {β : Type v} {R : α → β → Prop} {as : List α} {bs : List β}

theorem forall₂_getElem? (h : List.Forall₂ R as bs) (i : Nat) :
    (as[i]? = none ∧ bs[i]? = none) ∨ ∃ a b, as[i]? = some a ∧ bs[i]? = some b ∧ R a b := by
  induction h generalizing i with
  | nil => exact .inl ⟨rfl, rfl⟩
  | @cons a b _ _ hab _ ih =>
    cases i with
    | zero => exact .inr ⟨a, b, rfl, rfl, hab⟩
    | succ i => exact ih i

theorem forall₂_mem_left (h : List.Forall₂ R as bs) {a : α} (ha : a ∈ as) : ∃ b, R a b := by
  obtain ⟨i, hi⟩ := List.mem_iff_getElem?.mp ha
  rcases forall₂_getElem? h i with ⟨hnone, -⟩ | ⟨a', b, ha', -, hab⟩
  · cases hi.symm.trans hnone
  · cases hi.symm.trans ha'
    exact ⟨b, hab⟩

theorem forall₂_set (h : List.Forall₂ R as bs) (i : Nat) {a : α} {b : β} (hab : R a b) :
    List.Forall₂ R (as.set i a) (bs.set i b) := by
  induction h generalizing i with
  | nil => exact .nil
  | cons h₀ h ih =>
    cases i with
    | zero => exact .cons hab h
    | succ i => exact .cons h₀ (ih i)

theorem forall₂_eraseIdx (h : List.Forall₂ R as bs) (i : Nat) :
    List.Forall₂ R (as.eraseIdx i) (bs.eraseIdx i) := by
  induction h generalizing i with
  | nil => exact .nil
  | cons h₀ h ih =>
    cases i with
    | zero => exact h
    | succ i => exact .cons h₀ (ih i)

theorem forall₂_concat (h : List.Forall₂ R as bs) {a : α} {b : β} (hab : R a b) :
    List.Forall₂ R (as ++ [a]) (bs ++ [b]) :=
  List.rel_append h (.cons hab .nil)

end Objects

section Contents

variable {α : Type u} {ls : List (List α)} {l : List α} {i : Nat}

/-- The contents of the objects other than the `i`-th are what its removal leaves. -/
theorem flatten_eraseIdx (h : ls[i]? = some l) :
    (ls.flatten : Multiset α) = l + (ls.eraseIdx i).flatten := by
  induction ls generalizing i with
  | nil => simp at h
  | cons m ls ih =>
    cases i with
    | zero =>
      cases h
      simp
    | succ i =>
      have := ih (by simpa using h)
      simp only [List.flatten_cons, List.eraseIdx_cons_succ, ← Multiset.coe_add, this]
      exact add_left_comm _ _ _

theorem flatten_set (h : ls[i]? = some l) (m : List α) :
    ((ls.set i m).flatten : Multiset α) = m + (ls.eraseIdx i).flatten := by
  have hi : i < ls.length := (List.getElem?_eq_some_iff.mp h).1
  have hm : (ls.set i m)[i]? = some m := by simp [hi]
  have := flatten_eraseIdx hm
  rwa [List.eraseIdx_set_eq] at this

end Contents

end Simulation
