import Mathlib.Data.List.Basic

/-! # Wakers and the tasks they wake

The documented behaviour of a task handle: invoking it wakes one task, and the
comparison of two handles may miss that they wake the same task but never
claims it wrongly.
-/

universe u

class Waker (W : Type u) where
  task : W → Nat
  willWake : W → W → Bool
  task_eq_of_willWake : ∀ {a b : W}, willWake a b = true → task a = task b

namespace Waker

/-- The handles of an executor that gives every task one handle. -/
structure OfTask where
  id : Nat
  deriving DecidableEq, Repr, Inhabited

instance : Waker OfTask where
  task := OfTask.id
  willWake a b := a == b
  task_eq_of_willWake h := by rw [beq_iff_eq.mp h]

variable {W : Type u} [Waker W]

/-- Some waker of the list wakes the task of `w`. -/
def wokenBy (ws : List W) (w : W) : Bool := ws.any fun v => task v == task w

@[simp] theorem wokenBy_nil (w : W) : wokenBy [] w = false := rfl

theorem wokenBy_eq_true {ws : List W} {w : W} :
    wokenBy ws w = true ↔ ∃ v ∈ ws, task v = task w := by
  simp [wokenBy]

end Waker
