import Mathlib.Order.WellFounded
import Cynosure.Lib.Machine

/-! # What every choice of steps leads to

The steps are chosen by somebody else: an executor, a scheduler, a caller. A state is
inevitable when no choice can avoid it, without any assumption of fairness.
-/

universe u v w

/-- Whatever steps are taken, `P` comes true: none of the choices gets stuck before that, and
none goes on for ever. -/
inductive Inevitable {σ : Type u} (R : σ → σ → Prop) (P : σ → Prop) : σ → Prop where
  | now {s : σ} (h : P s) : Inevitable R P s
  | later {s : σ} (hgo : ∃ t, R s t) (h : ∀ t, R s t → Inevitable R P t) : Inevitable R P s

namespace Inevitable

variable {σ : Type u} {β : Type v} {R : σ → σ → Prop} {P : σ → Prop}

/-- The variant rule: every step keeps the invariant and decreases a measure, and before `P`
there is always a step. -/
theorem of_measure {r : β → β → Prop} (hr : WellFounded r) (measure : σ → β) {I : σ → Prop}
    (hstep : ∀ s t, I s → R s t → I t ∧ r (measure t) (measure s))
    (hgo : ∀ s, I s → ¬ P s → ∃ t, R s t) {s : σ} (h : I s) : Inevitable R P s := by
  induction hm : measure s using hr.induction generalizing s with
  | _ m ih =>
    subst hm
    by_cases hP : P s
    · exact .now hP
    · refine .later (hgo s h hP) fun t ht => ?_
      obtain ⟨hI, hlt⟩ := hstep s t h ht
      exact ih _ hlt hI rfl

end Inevitable

namespace Machine

variable {σ : Type u} {α : Type w}

/-- A step of the machine by an action that the chooser may take. -/
def Chooses (M : Machine σ α) (may : σ → α → Prop) (s t : σ) : Prop :=
  ∃ a, may s a ∧ M.step s a = some t

theorem exists_chooses {M : Machine σ α} {may : σ → α → Prop} {s : σ} {a : α} (hmay : may s a)
    (h : (M.step s a).isSome = true) : ∃ t, M.Chooses may s t := by
  obtain ⟨t, ht⟩ := Option.isSome_iff_exists.mp h
  exact ⟨t, a, hmay, ht⟩

end Machine
