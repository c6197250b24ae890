import Mathlib.Algebra.BigOperators.Group.List.Basic
import Mathlib.Algebra.GroupWithZero.Nat
import Cynosure.Lib.Machine

/-! # Calls that run callbacks

A call of a single-threaded object runs up to a callback or to its end. The callback may
call the object again before it returns, so the calls in progress are a stack, and only
the innermost one can go on. What the suspended calls carry is added up along the stack.
-/

universe u v w x

/-- Where a call stopped: in a callback, with what it has still to do, or at its end. -/
inductive Segment (Frame : Type u) (Out : Type v) where
  | callback (frame : Frame)
  | done (out : Out)
  deriving DecidableEq, Repr

namespace Segment

variable {Frame : Type u} {Out : Type v}

/-- The frames that a segment leaves on the stack. -/
def frames : Segment Frame Out → List Frame
  | .callback frame => [frame]
  | .done _ => []

def carried (weight : Frame → Nat) (seg : Segment Frame Out) : Nat := (seg.frames.map weight).sum

@[simp] theorem carried_callback (weight : Frame → Nat) (frame : Frame) :
    (callback frame : Segment Frame Out).carried weight = weight frame := by
  simp [carried, frames]

@[simp] theorem carried_done (weight : Frame → Nat) (out : Out) :
    (done out : Segment Frame Out).carried weight = 0 := rfl

end Segment

/-- An object whose calls run callbacks. -/
structure Reentrant (σ : Type u) (Op : Type v) (Frame : Type w) (Out : Type x) where
  init : σ
  /-- A call up to its first callback, unless its caller cannot make it. -/
  enter : σ → Op → Option (σ × Segment Frame Out)
  /-- A call from the return of its callback on. -/
  resume : σ → Frame → σ × Segment Frame Out

/-- The object, and the calls suspended in callbacks, the innermost first. -/
structure Nested (σ : Type u) (Frame : Type w) where
  obj : σ
  stack : List Frame

inductive Nested.Move (Op : Type v) where
  | call (op : Op)
  /-- The innermost callback returns. -/
  | resume

namespace Reentrant

variable {σ : Type u} {Op : Type v} {Frame : Type w} {Out : Type x}

def step (O : Reentrant σ Op Frame Out) (s : Nested σ Frame) : Nested.Move Op → Option (Nested σ Frame)
  | .call op => (O.enter s.obj op).map fun r => ⟨r.1, r.2.frames ++ s.stack⟩
  | .resume =>
    match s.stack with
    | [] => none
    | frame :: rest => some ⟨(O.resume s.obj frame).1, (O.resume s.obj frame).2.frames ++ rest⟩

/-- Every nesting of calls: whatever the callbacks do, and in whatever order. -/
def machine (O : Reentrant σ Op Frame Out) : Machine (Nested σ Frame) (Nested.Move Op) where
  init := ⟨O.init, []⟩
  step := O.step

/-- The rest of a call whose callbacks call nothing, in at most `fuel` callbacks. -/
def finish (O : Reentrant σ Op Frame Out) : Nat → σ × Segment Frame Out → Option (σ × Out)
  | _, (s, .done out) => some (s, out)
  | 0, (_, .callback _) => none
  | fuel + 1, (s, .callback frame) => O.finish fuel (O.resume s frame)

variable {O : Reentrant σ Op Frame Out}

theorem finish_done (fuel : Nat) (s : σ) (out : Out) : O.finish fuel (s, .done out) = some (s, out) := by
  cases fuel <;> rfl

theorem run_finish {fuel : Nat} {r : σ × Segment Frame Out} {t : σ} {out : Out}
    (h : O.finish fuel r = some (t, out)) (rest : List Frame) :
    ∃ moves, O.machine.run ⟨r.1, r.2.frames ++ rest⟩ moves = some ⟨t, rest⟩ := by
  induction fuel generalizing r with
  | zero =>
    obtain ⟨s, frame | out⟩ := r
    · cases h
    · cases h
      exact ⟨[], rfl⟩
  | succ fuel ih =>
    obtain ⟨s, frame | out⟩ := r
    · obtain ⟨moves, hmoves⟩ := ih h
      exact ⟨.resume :: moves, hmoves⟩
    · cases h
      exact ⟨[], rfl⟩

/-- A call whose callbacks call nothing is a run of its own. -/
theorem reachable_finish {fuel : Nat} {s t : σ} {op : Op} {r : σ × Segment Frame Out} {out : Out}
    (hs : O.machine.Reachable ⟨s, []⟩) (henter : O.enter s op = some r)
    (h : O.finish fuel r = some (t, out)) : O.machine.Reachable ⟨t, []⟩ := by
  obtain ⟨before, hbefore⟩ := hs
  obtain ⟨moves, hmoves⟩ := run_finish h []
  refine ⟨before ++ .call op :: moves, ?_⟩
  rw [Machine.run_append, hbefore]
  refine (Machine.run_cons _).mpr ⟨⟨r.1, r.2.frames ++ []⟩, ?_, hmoves⟩
  simp [machine, step, henter]

/-- The rule for what the suspended calls carry: `I c` holds of the object while `c` is in
flight, a call adds what it leaves in flight, and a resumed one trades what it carried. Every
suspended call is in order by itself. -/
theorem carried_invariant (weight : Frame → Nat) (ok : Frame → Prop) {I : Nat → σ → Prop}
    (hinit : I 0 O.init)
    (henter : ∀ c s op t seg, I c s → O.enter s op = some (t, seg) →
      I (seg.carried weight + c) t ∧ ∀ frame ∈ seg.frames, ok frame)
    (hresume : ∀ c s frame, ok frame → I (weight frame + c) s →
      I ((O.resume s frame).2.carried weight + c) (O.resume s frame).1 ∧
        ∀ frame' ∈ (O.resume s frame).2.frames, ok frame')
    {s : Nested σ Frame} (h : O.machine.Reachable s) :
    I (s.stack.map weight).sum s.obj ∧ ∀ frame ∈ s.stack, ok frame := by
  refine h.invariant (I := fun s => I (s.stack.map weight).sum s.obj ∧ ∀ frame ∈ s.stack, ok frame)
    ⟨hinit, by simp [machine]⟩ ?_
  rintro s move t ⟨hs, hok⟩ hstep
  cases move with
  | call op =>
    obtain ⟨r, hr, rfl⟩ := Option.map_eq_some_iff.mp hstep
    rw [List.map_append, List.sum_append]
    obtain ⟨ht, hframes⟩ := henter _ _ op _ _ hs hr
    exact ⟨ht, List.forall_mem_append.mpr ⟨hframes, hok⟩⟩
  | resume =>
    obtain ⟨obj, stack⟩ := s
    cases stack with
    | nil => cases hstep
    | cons frame rest =>
      cases hstep
      rw [List.map_cons, List.sum_cons] at hs
      rw [List.map_append, List.sum_append]
      obtain ⟨hframe, hrest⟩ := List.forall_mem_cons.mp hok
      obtain ⟨ht, hframes⟩ := hresume _ _ frame hframe hs
      exact ⟨ht, List.forall_mem_append.mpr ⟨hframes, hrest⟩⟩

/-- The rule for an invariant of the object and the stack of suspended calls. `J` is what one
move makes of `I`. -/
theorem step_stack {I J : List Frame → σ → Prop}
    (henter : ∀ stack s op t seg, I stack s → O.enter s op = some (t, seg) →
      J (seg.frames ++ stack) t)
    (hresume : ∀ frame rest s, I (frame :: rest) s →
      J ((O.resume s frame).2.frames ++ rest) (O.resume s frame).1)
    {s t : Nested σ Frame} {move : Nested.Move Op} (hI : I s.stack s.obj)
    (h : O.machine.step s move = some t) : J t.stack t.obj := by
  cases move with
  | call op =>
    obtain ⟨r, hr, rfl⟩ := Option.map_eq_some_iff.mp h
    exact henter _ _ op _ _ hI hr
  | resume =>
    obtain ⟨obj, stack⟩ := s
    cases stack with
    | nil => cases h
    | cons frame rest =>
      cases h
      exact hresume _ _ _ hI

theorem stack_invariant {I : List Frame → σ → Prop} (hinit : I [] O.init)
    (henter : ∀ stack s op t seg, I stack s → O.enter s op = some (t, seg) →
      I (seg.frames ++ stack) t)
    (hresume : ∀ frame rest s, I (frame :: rest) s →
      I ((O.resume s frame).2.frames ++ rest) (O.resume s frame).1)
    {s : Nested σ Frame} (h : O.machine.Reachable s) : I s.stack s.obj :=
  h.invariant (I := fun s => I s.stack s.obj) hinit fun _ _ _ => step_stack henter hresume

end Reentrant
