import Mathlib.Data.DFinsupp.WellFounded
import Cynosure.Lib.Machine

/-! # What fair turns lead to

A scheduler gives turns to the parties of a system; the turn of a party that cannot move
passes. When every party gets turns for ever, it is enough that at each moment one party
helps: its step decreases a rank, and the steps of the others decrease the rank too or
leave it alone and keep the helper.
-/

universe u v w

/-- One component goes down, and the others stay as they are. -/
def Moves {ι : Type u} {β : ι → Type v} (r : ∀ i, β i → β i → Prop) (x y : ∀ i, β i) : Prop :=
  ∃ i, r i (x i) (y i) ∧ ∀ j, j ≠ i → x j = y j

theorem Moves.wellFounded {ι : Type u} [Finite ι] {β : ι → Type v} {r : ∀ i, β i → β i → Prop}
    (hr : ∀ i, WellFounded (r i)) : WellFounded (Moves r) := by
  refine Subrelation.wf ?_ (Pi.Lex.wellFounded (WellOrderingRel (α := ι)) hr)
  rintro x y ⟨i, hi, hrest⟩
  refine ⟨i, fun j hj => hrest j ?_, hi⟩
  rintro rfl
  exact irrefl_of WellOrderingRel j hj

namespace Machine

variable {σ : Type u} {ι : Type v} {β : Type w}

section Turns

variable (M : Machine σ ι)

def turn (s : σ) (i : ι) : σ := (M.step s i).getD s

/-- The state after the first turns of an endless sequence of them. -/
def follow : (Nat → ι) → σ → Nat → σ
  | _, s, 0 => s
  | turns, s, n + 1 => follow (fun k => turns (k + 1)) (M.turn s (turns 0)) n

end Turns

/-- Every party gets turns for ever. -/
def Fair (turns : Nat → ι) : Prop := ∀ i n, ∃ m, n ≤ m ∧ turns m = i

variable {M : Machine σ ι} {turns : Nat → ι}

theorem Fair.tail (h : Fair turns) : Fair fun k => turns (k + 1) := by
  intro i n
  obtain ⟨m, hm, rfl⟩ := h i (n + 1)
  refine ⟨m - 1, by omega, ?_⟩
  change turns (m - 1 + 1) = turns m
  congr 1
  omega

theorem turn_cases (s : σ) (i : ι) : M.turn s i = s ∧ M.step s i = none ∨
    M.step s i = some (M.turn s i) := by
  unfold turn
  cases h : M.step s i with
  | none => exact .inl ⟨rfl, rfl⟩
  | some t => exact .inr rfl

/-- A turn is a step or none at all, so what follows is reached by a run. -/
theorem follow_run (turns : Nat → ι) (s : σ) (n : Nat) :
    ∃ as, M.run s as = some (M.follow turns s n) := by
  induction n generalizing turns s with
  | zero => exact ⟨[], rfl⟩
  | succ n ih =>
    obtain ⟨as, has⟩ := ih (fun k => turns (k + 1)) (M.turn s (turns 0))
    obtain ⟨hstay, -⟩ | hstep := M.turn_cases s (turns 0)
    · rw [hstay] at has
      exact ⟨as, by rwa [follow, hstay]⟩
    · exact ⟨turns 0 :: as, (run_cons M).mpr ⟨_, hstep, has⟩⟩

theorem Reachable.follow {s : σ} (h : M.Reachable s) (turns : Nat → ι) (n : Nat) :
    M.Reachable (M.follow turns s n) := by
  obtain ⟨as, has⟩ := h
  obtain ⟨bs, hbs⟩ := M.follow_run turns s n
  exact ⟨as ++ bs, by rw [run_append, has]; exact hbs⟩

section Rank

variable {r : β → β → Prop} {rank : σ → β} {helps : σ → ι → Prop} {I P : σ → Prop}

/-- Until the helper has its turn, the rank goes down or the helper stays the same. -/
theorem eventually_of_helper (hinv : ∀ s i t, I s → M.step s i = some t → I t)
    (hdown : ∀ s i t j, I s → ¬ P s → helps s j → M.step s i = some t →
      r (rank t) (rank s) ∨ rank t = rank s ∧ helps t j ∧ i ≠ j)
    (hgo : ∀ s j, I s → ¬ P s → helps s j → (M.step s j).isSome = true) {b : β}
    (ih : ∀ c, r c b → ∀ s (turns : Nat → ι), Fair turns → I s → rank s = c →
      ∃ n, P (M.follow turns s n)) {m : Nat} {j : ι} {s : σ} (hm : turns m = j)
    (hfair : Fair turns) (hI : I s) (hb : rank s = b) (hj : helps s j) :
    ∃ n, P (M.follow turns s n) := by
  induction m generalizing s turns with
  | zero =>
    by_cases hP : P s
    · exact ⟨0, hP⟩
    subst hm
    obtain ⟨t, ht⟩ := Option.isSome_iff_exists.mp (hgo s _ hI hP hj)
    have hturn : M.turn s (turns 0) = t := by rw [turn, ht, Option.getD_some]
    obtain hlt | ⟨-, -, hne⟩ := hdown s _ t _ hI hP hj ht
    · rw [hb] at hlt
      obtain ⟨n, hn⟩ := ih _ hlt t _ hfair.tail (hinv s _ t hI ht) rfl
      exact ⟨n + 1, by rwa [follow, hturn]⟩
    · exact absurd rfl hne
  | succ m hm' =>
    by_cases hP : P s
    · exact ⟨0, hP⟩
    obtain ⟨hstay, -⟩ | hstep := M.turn_cases s (turns 0)
    · have hnext : ∃ n, P (M.follow (fun k => turns (k + 1)) s n) := hm' hm hfair.tail hI hb hj
      obtain ⟨n, hn⟩ := hnext
      exact ⟨n + 1, by rwa [follow, hstay]⟩
    · have hI' := hinv s _ _ hI hstep
      obtain hlt | ⟨heq, hj', -⟩ := hdown s _ _ j hI hP hj hstep
      · rw [hb] at hlt
        obtain ⟨n, hn⟩ := ih _ hlt _ _ hfair.tail hI' rfl
        exact ⟨n + 1, hn⟩
      · have hnext : ∃ n, P (M.follow (fun k => turns (k + 1)) (M.turn s (turns 0)) n) :=
          hm' hm hfair.tail hI' (heq.trans hb) hj'
        obtain ⟨n, hn⟩ := hnext
        exact ⟨n + 1, hn⟩

/-- The helper rule: under fair turns `P` comes true. -/
theorem Fair.eventually (hr : WellFounded r) (rank : σ → β) (helps : σ → ι → Prop)
    (hinv : ∀ s i t, I s → M.step s i = some t → I t)
    (hdown : ∀ s i t j, I s → ¬ P s → helps s j → M.step s i = some t →
      r (rank t) (rank s) ∨ rank t = rank s ∧ helps t j ∧ i ≠ j)
    (hgo : ∀ s j, I s → ¬ P s → helps s j → (M.step s j).isSome = true)
    (hhelp : ∀ s, I s → ¬ P s → ∃ j, helps s j) (hfair : Fair turns) {s : σ} (hI : I s) :
    ∃ n, P (M.follow turns s n) := by
  suffices h : ∀ b s (turns : Nat → ι), Fair turns → I s → rank s = b →
      ∃ n, P (M.follow turns s n) from h _ s turns hfair hI rfl
  intro b
  induction b using hr.induction with
  | _ b ih =>
    intro s turns hfair hI hb
    by_cases hP : P s
    · exact ⟨0, hP⟩
    obtain ⟨j, hj⟩ := hhelp s hI hP
    obtain ⟨m, -, hm⟩ := hfair j 0
    exact eventually_of_helper hinv hdown hgo ih hm hfair hI hb hj

end Rank

end Machine
