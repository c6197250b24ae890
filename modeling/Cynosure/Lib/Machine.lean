import Mathlib.Data.Option.Basic
import Mathlib.Order.Basic

/-! # Deterministic labelled machines and their runs

A machine answers each action with its next state, or refuses it. Everything
a scheduler or a caller may choose is part of the action, so that a claim about
every interleaving is a claim about every list of actions.
-/

universe u v

structure Machine (σ : Type u) (α : Type v) where
  init : σ
  step : σ → α → Option σ

namespace Machine

variable {σ : Type u} {α : Type v} (M : Machine σ α)

def run : σ → List α → Option σ
  | s, [] => some s
  | s, a :: as => (M.step s a).bind fun t => run t as

@[simp] theorem run_nil (s : σ) : M.run s [] = some s := rfl

theorem run_cons {s t : σ} {a : α} {as : List α} :
    M.run s (a :: as) = some t ↔ ∃ r, M.step s a = some r ∧ M.run r as = some t := by
  simp [run, Option.bind_eq_some_iff]

theorem run_append (s : σ) (as bs : List α) :
    M.run s (as ++ bs) = (M.run s as).bind fun t => M.run t bs := by
  induction as generalizing s with
  | nil => rfl
  | cons a as ih => cases h : M.step s a <;> simp [run, h, ih]

/-- A state is reachable when some list of actions leads to it from the start. -/
def Reachable (s : σ) : Prop := ∃ as, M.run M.init as = some s

/-- The condition holds at every action taken along the run. -/
def Along (ok : σ → α → Prop) : σ → List α → Prop
  | _, [] => True
  | s, a :: as => ok s a ∧ match M.step s a with
    | some t => Along ok t as
    | none => True

variable {M}

theorem Along.tail {ok : σ → α → Prop} {s t : σ} {a : α} {as : List α}
    (h : M.Along ok s (a :: as)) (hs : M.step s a = some t) : M.Along ok t as := by
  have := h.2
  rwa [hs] at this

theorem run_preserves_along {ok : σ → α → Prop} {I : σ → Prop}
    (hstep : ∀ s a t, I s → ok s a → M.step s a = some t → I t) {s t : σ} {as : List α}
    (hI : I s) (hok : M.Along ok s as) (h : M.run s as = some t) : I t := by
  induction as generalizing s with
  | nil => cases h; exact hI
  | cons a as ih =>
    obtain ⟨r, hr, hrest⟩ := (run_cons M).mp h
    exact ih (hstep s a r hI hok.1 hr) (hok.tail hr) hrest

theorem along_congr {ok ok' : σ → α → Prop} (h : ∀ s a, ok s a ↔ ok' s a) (s : σ) (as : List α) :
    M.Along ok s as ↔ M.Along ok' s as := by
  have he : ok = ok' := by
    funext s a
    exact propext (h s a)
  rw [he]

/-- A condition that the actions meet in every state. -/
theorem along_of_forall {ok : σ → α → Prop} {as : List α} (h : ∀ a ∈ as, ∀ s, ok s a) (s : σ) :
    M.Along ok s as := by
  induction as generalizing s with
  | nil => trivial
  | cons a as ih =>
    refine ⟨h a (by simp) s, ?_⟩
    cases M.step s a with
    | none => trivial
    | some t => exact ih (fun b hb => h b (by simp [hb])) t

theorem run_preserves {I : σ → Prop} (hstep : ∀ s a t, I s → M.step s a = some t → I t)
    {s t : σ} {as : List α} (hI : I s) (h : M.run s as = some t) : I t :=
  run_preserves_along (fun s a t hs (_ : True) => hstep s a t hs) hI
    (along_of_forall (fun _ _ _ => trivial) s) h

/-- What holds after `n` steps, as long as the run is not longer than `bound`. -/
theorem run_counts {I : Nat → σ → Prop} {bound : Nat}
    (hstep : ∀ n s a t, n < bound → I n s → M.step s a = some t → I (n + 1) t) {n : Nat} {s t : σ}
    {as : List α} (hI : I n s) (hlen : n + as.length ≤ bound) (h : M.run s as = some t) :
    I (n + as.length) t := by
  induction as generalizing n s with
  | nil => cases h; exact hI
  | cons a as ih =>
    rw [List.length_cons] at hlen ⊢
    obtain ⟨r, hr, hrest⟩ := (run_cons M).mp h
    have := ih (hstep n s a r (by omega) hI hr) (by omega) hrest
    rwa [Nat.add_right_comm] at this

/-- The invariant rule: true at the start and kept by every step. -/
theorem Reachable.invariant {I : σ → Prop} (h0 : I M.init)
    (hstep : ∀ s a t, I s → M.step s a = some t → I t) {s : σ} (h : M.Reachable s) : I s := by
  obtain ⟨as, has⟩ := h
  exact run_preserves hstep h0 has

/-- What holds at the end of one run, found by evaluating a check there. -/
theorem exists_end {P : σ → Prop} {c : σ → Bool} (as : List α)
    (hc : (M.run M.init as).any c = true)
    (h : ∀ s, M.run M.init as = some s → c s = true → P s) :
    ∃ s, M.run M.init as = some s ∧ P s := by
  obtain ⟨s, hrun, hs⟩ := (Option.any_eq_true c _).mp hc
  exact ⟨s, hrun, h s hrun hs⟩

end Machine
