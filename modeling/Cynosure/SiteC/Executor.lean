import Mathlib.Tactic
import Cynosure.SiteC.WaitIssued

/-! # Futures under an executor

An executor polls every future once and again whenever it was woken, in any order and with
any waker, and the holders of guards drop them. A future that has completed it leaves alone.
Each such step completes a future, drops a guard or uses up a wake or a first poll, so that
only finitely many of them can follow each other.
-/

universe u v w

namespace Cynosure.SiteC

/-- Still to be served. -/
def Fut.Unserved {κ : Type w} {ρ : Type u} {W : Type v} (u : Fut κ ρ W) : Prop :=
  u.Unpolled ∨ u.Waiting

theorem Fut.unserved_or_completed {κ : Type w} {ρ : Type u} {W : Type v} (u : Fut κ ρ W) :
    u.Unserved ∨ u.Completed := by
  cases hp : u.polled with
  | some waker => exact .inl (.inr (by simp [Waiting, hp]))
  | none =>
    cases hr : u.ready with
    | false => exact .inl (.inl ⟨hp, hr⟩)
    | true => exact .inr ⟨hp, hr⟩

namespace Futs

variable {κ : Type w} {ρ : Type u} {W : Type v} {futs futs' : Futs κ ρ W} {f : Nat}
  {u : Fut κ ρ W} {slot : Option (Entry ρ W)} {waker : W}

def unserved (futs : Futs κ ρ W) : Set Nat := {f | ∃ u, futs f = some u ∧ u.Unserved}

/-- Never polled, or waiting and woken since the last poll. -/
def awake (futs : Futs κ ρ W) : Set Nat :=
  {f | ∃ u, futs f = some u ∧ (u.Unpolled ∨ u.Waiting ∧ u.woken = true)}

def ofKind (futs : Futs κ ρ W) (kind : κ) : Set Nat := {f | ∃ u, futs f = some u ∧ u.kind = kind}

theorem ofKind_afterPoll (hf : futs f = some u) (slot : Option (Entry ρ W)) (ready : Bool)
    (waker : W) (kind : κ) :
    (futs.set f (some (u.afterPoll slot ready waker))).ofKind kind = futs.ofKind kind := by
  ext g
  by_cases hgf : g = f
  · subst hgf
    simp [ofKind, hf, Fut.afterPoll]
  · simp [ofKind, set_ne _ hgf]

theorem unserved_subset_live (futs : Futs κ ρ W) : futs.unserved ⊆ futs.live := by
  rintro f ⟨u, hu, -⟩ hnone
  cases hu.symm.trans hnone

theorem awake_subset_unserved (futs : Futs κ ρ W) : futs.awake ⊆ futs.unserved := by
  rintro f ⟨u, hu, hawake⟩
  exact ⟨u, hu, hawake.imp_right And.left⟩

/-- No token is drawn for a future that waits. -/
theorem Consistent.unpolled_of_awake [Waker W] (h : futs.Consistent) (hawake : f ∈ futs.awake)
    (hf : futs f = some u) (hnone : u.registered = none) : u.Unpolled := by
  obtain ⟨v, hv, hfirst | ⟨hwait, -⟩⟩ := hawake
  · cases hf.symm.trans hv
    exact hfirst
  · cases hf.symm.trans hv
    obtain ⟨e, he⟩ := (h f u hf).waiting_iff.mp hwait
    cases hnone.symm.trans he

/-- The futures of `futs` are still there. -/
def Keeps (futs futs' : Futs κ ρ W) : Prop := futs.live ⊆ futs'.live

theorem Keeps.set {v : Fut κ ρ W} (h : futs.Keeps futs') (f : Nat) :
    futs.Keeps (futs'.set f (some v)) := by
  intro g hg
  by_cases hgf : g = f
  · subst hgf
    simp [live]
  · rw [live, Set.mem_ofPred_eq, set_ne _ hgf]
    exact h hg

/-- The futures of `futs` are there, and all of them have completed. -/
def Served (futs futs' : Futs κ ρ W) : Prop :=
  ∀ f u, futs f = some u → ∃ v, futs' f = some v ∧ v.Completed

theorem Keeps.served (h : futs.Keeps futs') (hempty : futs'.unserved = ∅) : futs.Served futs' := by
  intro f u hf
  have hlive : f ∈ futs'.live := h (by simp [live, hf])
  obtain ⟨v, hv⟩ := Option.ne_none_iff_exists'.mp hlive
  rcases v.unserved_or_completed with hun | hdone
  · have hmem : f ∈ futs'.unserved := ⟨v, hv, hun⟩
    rw [hempty] at hmem
    exact hmem.elim
  · exact ⟨v, hv, hdone⟩

theorem Keeps.unserved_nonempty (h : futs.Keeps futs') (hnot : ¬ futs.Served futs') :
    futs'.unserved.Nonempty := by
  by_contra hempty
  exact hnot (h.served (Set.not_nonempty_iff_eq_empty.mp hempty))

/-- A poll that completes. -/
theorem unserved_ready (futs : Futs κ ρ W) (f : Nat) (u : Fut κ ρ W) (slot : Option (Entry ρ W))
    (waker : W) :
    (futs.set f (some (u.afterPoll slot true waker))).unserved = futs.unserved \ {f} := by
  ext g
  by_cases hgf : g = f
  · subst hgf
    simp [unserved, Fut.Unserved, Fut.Unpolled, Fut.Waiting, Fut.afterPoll]
  · simp [unserved, set_ne _ hgf, hgf]

/-- A poll that does not, of a future that is still to be served. -/
theorem unserved_pending (hf : f ∈ futs.unserved) (u : Fut κ ρ W) (slot : Option (Entry ρ W))
    (waker : W) : (futs.set f (some (u.afterPoll slot false waker))).unserved = futs.unserved := by
  ext g
  by_cases hgf : g = f
  · subst hgf
    refine ⟨fun _ => hf, fun _ => ⟨_, set_same .., .inr ?_⟩⟩
    simp [Fut.Waiting, Fut.afterPoll]
  · simp [unserved, set_ne _ hgf]

theorem awake_pending (futs : Futs κ ρ W) (f : Nat) (u : Fut κ ρ W) (slot : Option (Entry ρ W))
    (waker : W) : (futs.set f (some (u.afterPoll slot false waker))).awake = futs.awake \ {f} := by
  ext g
  by_cases hgf : g = f
  · subst hgf
    simp [awake, Fut.Unpolled, Fut.afterPoll]
  · simp [awake, set_ne _ hgf, hgf]

section Wake

variable [Waker W]

theorem unserved_wake (futs : Futs κ ρ W) (ws : List W) :
    (futs.wake ws).unserved = futs.unserved := by
  ext g
  constructor
  · rintro ⟨v, hv, hun⟩
    obtain ⟨u, hu, rfl⟩ := wake_eq_some.mp hv
    exact ⟨u, hu, hun⟩
  · rintro ⟨u, hu, hun⟩
    exact ⟨_, wake_eq_some.mpr ⟨u, hu, rfl⟩, hun⟩

theorem ofKind_wake (futs : Futs κ ρ W) (ws : List W) (kind : κ) :
    (futs.wake ws).ofKind kind = futs.ofKind kind := by
  ext g
  simp [ofKind, wake_eq_some]

theorem Keeps.wake (h : futs.Keeps futs') (ws : List W) : futs.Keeps (futs'.wake ws) := by
  rwa [Keeps, live_wake]

end Wake

/-- What is left to do: futures to complete and guards to drop, and behind that first polls to
make and wakes to use. -/
noncomputable def todo (futs : Futs κ ρ W) (guards : Nat) : ℕ ×ₗ ℕ :=
  toLex (2 * futs.unserved.ncard + guards, futs.awake.ncard)

theorem todo_of_lt {guards guards' : Nat}
    (h : 2 * futs'.unserved.ncard + guards' < 2 * futs.unserved.ncard + guards) :
    futs'.todo guards' < futs.todo guards :=
  Prod.Lex.toLex_lt_toLex.mpr (.inl h)

/-- A future completes and holds a guard. -/
theorem todo_ready (hlive : futs.live.Finite) (hf : f ∈ futs.unserved)
    (hun : futs'.unserved = futs.unserved \ {f}) (guards : Nat) :
    futs'.todo (guards + 1) < futs.todo guards := by
  have hcard := Set.ncard_sdiff_singleton_add_one hf (hlive.subset futs.unserved_subset_live)
  refine todo_of_lt ?_
  rw [hun]
  omega

/-- A future that was woken has to wait again, or one that was never polled has to wait. -/
theorem todo_pending (hlive : futs.live.Finite) (hf : f ∈ futs.awake) (u : Fut κ ρ W)
    (slot : Option (Entry ρ W)) (waker : W) (guards : Nat) :
    (futs.set f (some (u.afterPoll slot false waker))).todo guards < futs.todo guards := by
  have hfinite := hlive.subset (futs.awake_subset_unserved.trans futs.unserved_subset_live)
  refine Prod.Lex.toLex_lt_toLex.mpr (.inr ⟨?_, ?_⟩)
  · rw [unserved_pending (futs.awake_subset_unserved hf)]
  · rw [awake_pending]
    exact Set.ncard_sdiff_singleton_lt_of_mem hf hfinite

/-- A guard is dropped, whoever is woken. -/
theorem todo_drop [Waker W] (futs : Futs κ ρ W) (ws : List W) {guards guards' : Nat}
    (hg : guards' < guards) : (futs.wake ws).todo guards' < futs.todo guards := by
  refine todo_of_lt ?_
  rw [unserved_wake]
  omega

end Futs

end Cynosure.SiteC
