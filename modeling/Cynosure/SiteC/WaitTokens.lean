import Mathlib.Data.List.Nodup
import Cynosure.SiteC.WaitQueue

/-! # Wait queues whose tokens are distinct

A token names one live future as long as the 64-bit counter has not come round to
a token that is still held. What follows assumes that for the poll at hand, and
never the length of the run.
-/

universe u v w

namespace Cynosure.SiteC

variable {κ : Type w} {ρ : Type u} {W : Type v}

namespace Waiters

/-- The tokens of the queue, front first. -/
def ids (q : Waiters ρ W) : List UInt64 := q.map Entry.id

theorem ids_without (q : Waiters ρ W) (id : UInt64) :
    (q.without id).ids = q.ids.filter fun i => i != id := by
  rw [ids, ids, List.filter_map]
  rfl

theorem nodup_without {q : Waiters ρ W} (h : q.ids.Nodup) (id : UInt64) :
    (q.without id).ids.Nodup := by
  rw [ids_without]
  exact h.filter _

theorem deregister_sublist (q : Waiters ρ W) (slot : Option (Entry ρ W)) :
    (q.deregister slot).Sublist q := by
  cases slot with
  | none => exact List.Sublist.refl _
  | some e => exact List.filter_sublist

theorem nodup_deregister {q : Waiters ρ W} (h : q.ids.Nodup) (slot : Option (Entry ρ W)) :
    (q.deregister slot).ids.Nodup :=
  h.sublist ((q.deregister_sublist slot).map Entry.id)

theorem nodup_append {q : Waiters ρ W} (h : q.ids.Nodup) (e : Entry ρ W) :
    (Waiters.ids (q.without e.id ++ [e])).Nodup := by
  have hids : Waiters.ids (q.without e.id ++ [e]) = (q.without e.id).ids ++ [e.id] := by
    simp [ids]
  have hnot : e.id ∉ (q.without e.id).ids := by
    rw [ids_without]
    simp
  rw [hids, List.nodup_append]
  refine ⟨nodup_without h e.id, List.nodup_singleton _, ?_⟩
  intro a ha b hb
  rw [List.mem_singleton] at hb
  rintro rfl
  exact hnot (hb ▸ ha)

theorem nodup_register [Waker W] {q : Waiters ρ W} (h : q.ids.Nodup) (nextId : UInt64)
    (slot : Option (Entry ρ W)) (req : ρ) (waker : W) :
    (q.register nextId slot req waker).1.ids.Nodup := by
  unfold register
  split
  · exact nodup_append h _
  · exact h

end Waiters

namespace Futs

/-- No two live futures are registered under one token. -/
structure Distinct (futs : Futs κ ρ W) : Prop where
  eq : ∀ {f g u v x y}, futs f = some u → futs g = some v → u.registered = some x →
    v.registered = some y → x.id = y.id → f = g

/-- The entry that a live future is registered under. -/
def slot (futs : Futs κ ρ W) (f : Nat) : Option (Entry ρ W) := (futs f).bind Fut.registered

theorem slot_eq_some {futs : Futs κ ρ W} {f : Nat} {e : Entry ρ W} :
    futs.slot f = some e ↔ ∃ u, futs f = some u ∧ u.registered = some e :=
  Option.bind_eq_some_iff

theorem slot_of {futs : Futs κ ρ W} {f : Nat} {u : Fut κ ρ W} (hf : futs f = some u) :
    futs.slot f = u.registered := by
  simp [slot, hf]

@[simp] theorem slot_set_same (futs : Futs κ ρ W) (f : Nat) (v : Option (Fut κ ρ W)) :
    (futs.set f v).slot f = v.bind Fut.registered := by simp [slot]

theorem slot_set_ne (futs : Futs κ ρ W) {f g : Nat} (h : g ≠ f) (v : Option (Fut κ ρ W)) :
    (futs.set f v).slot g = futs.slot g := by simp [slot, set_ne futs h]

theorem Distinct.slot_eq {futs : Futs κ ρ W} (h : futs.Distinct) {f g : Nat} {x y : Entry ρ W}
    (hx : futs.slot f = some x) (hy : futs.slot g = some y) (hid : x.id = y.id) : f = g := by
  obtain ⟨u, hf, hu⟩ := slot_eq_some.mp hx
  obtain ⟨v, hg, hv⟩ := slot_eq_some.mp hy
  exact h.eq hf hg hu hv hid

/-- No slot is filled. -/
theorem Distinct.of_slots {futs futs' : Futs κ ρ W} (h : futs.Distinct)
    (hs : ∀ f e, futs'.slot f = some e → futs.slot f = some e) : futs'.Distinct := by
  refine ⟨fun {f g u v x y} hf hg hx hy hid => ?_⟩
  exact h.slot_eq (hs f x ((slot_of hf).trans hx)) (hs g y ((slot_of hg).trans hy)) hid

theorem slot_of_emptied {futs : Futs κ ρ W} {f : Nat} {v : Option (Fut κ ρ W)}
    (hv : v.bind Fut.registered = none) (g : Nat) (e : Entry ρ W)
    (h : (futs.set f v).slot g = some e) : futs.slot g = some e := by
  by_cases hgf : g = f
  · subst hgf
    rw [slot_set_same, hv] at h
    cases h
  · rwa [slot_set_ne futs hgf] at h

theorem Distinct.emptied {futs : Futs κ ρ W} (h : futs.Distinct) {f : Nat}
    {v : Option (Fut κ ρ W)} (hv : v.bind Fut.registered = none) : (futs.set f v).Distinct :=
  h.of_slots (slot_of_emptied hv)

/-- Some live future is registered under the token. -/
def Holds (futs : Futs κ ρ W) (id : UInt64) : Prop :=
  ∃ f u e, futs f = some u ∧ u.registered = some e ∧ e.id = id

/-- What the slot of `f` may become: empty, or a token that no other future holds. -/
theorem Distinct.set {futs : Futs κ ρ W} (h : futs.Distinct) {f : Nat} {v : Option (Fut κ ρ W)}
    (hv : ∀ u e, v = some u → u.registered = some e →
      ∀ g u' x, g ≠ f → futs g = some u' → u'.registered = some x → x.id ≠ e.id) :
    (futs.set f v).Distinct := by
  refine ⟨fun {a b ua ub x y} ha hb hx hy hid => ?_⟩
  rcases set_eq_some ha with ⟨haf, hva⟩ | ⟨haf, hua⟩ <;>
    rcases set_eq_some hb with ⟨hbf, hvb⟩ | ⟨hbf, hub⟩
  · rw [haf, hbf]
  · exact absurd hid.symm (hv ua x hva hx b ub y hbf hub hy)
  · exact absurd hid (hv ub y hvb hy a ua x haf hua hx)
  · exact h.eq hua hub hx hy hid

theorem Distinct.erase {futs : Futs κ ρ W} (h : futs.Distinct) (f : Nat) :
    (futs.set f none).Distinct :=
  h.emptied rfl

theorem Distinct.mem_deregister {futs : Futs κ ρ W} (h : futs.Distinct) {f g : Nat}
    {u v : Fut κ ρ W} (hf : futs f = some u) (hg : futs g = some v) (hgf : g ≠ f) {x : Entry ρ W}
    (hx : v.registered = some x) {q : Waiters ρ W} (hq : x ∈ q) :
    x ∈ q.deregister u.registered :=
  Waiters.mem_deregister.mpr ⟨hq, fun _ he hid => hgf (h.eq hg hf hx he hid)⟩

variable [Waker W]

@[simp] theorem slot_wake (futs : Futs κ ρ W) (ws : List W) (f : Nat) :
    (futs.wake ws).slot f = futs.slot f := by
  cases hf : futs f <;> simp [slot, wake, hf]

theorem Distinct.wake {futs : Futs κ ρ W} (h : futs.Distinct) (ws : List W) :
    (futs.wake ws).Distinct :=
  h.of_slots fun f e he => by rwa [slot_wake] at he

/-- The token that `register` leaves in the slot is the old one, or the counter's. -/
theorem register_id (q : Waiters ρ W) (nextId : UInt64) (slot : Option (Entry ρ W)) (req : ρ)
    (waker : W) {e : Entry ρ W} (he : (q.register nextId slot req waker).2.2 = some e) :
    (∃ x, slot = some x ∧ e.id = x.id) ∨ slot = none ∧ e.id = nextId := by
  cases slot with
  | none =>
    have hstale : q.stale none waker = true := rfl
    simp only [Waiters.register, hstale, if_true, Option.some.injEq] at he
    exact .inr ⟨rfl, by rw [← he]; rfl⟩
  | some x =>
    simp only [Waiters.register] at he
    split at he
    · cases he
      exact .inl ⟨x, rfl, rfl⟩
    · cases he
      exact .inl ⟨_, rfl, rfl⟩

section Register

variable {futs : Futs κ ρ W} {f : Nat} {u : Fut κ ρ W} {nextId : UInt64} {q : Waiters ρ W} {req : ρ}
  {waker : W}

/-- No other future holds the token that `register` leaves in the slot. -/
theorem Distinct.register_ne (h : futs.Distinct) (hf : futs f = some u)
    (hfresh : u.registered = none → ¬ futs.Holds nextId) {e : Entry ρ W}
    (he : (q.register nextId u.registered req waker).2.2 = some e) {g : Nat} {v : Fut κ ρ W}
    {x : Entry ρ W} (hgf : g ≠ f) (hg : futs g = some v) (hx : v.registered = some x) :
    x.id ≠ e.id := by
  rintro hid
  rcases register_id q nextId u.registered req waker he with ⟨y, hy, hey⟩ | ⟨hnone, hnext⟩
  · exact hgf (h.eq hg hf hx hy (hid.trans hey))
  · exact hfresh hnone ⟨g, v, x, hg, hx, hid.trans hnext⟩

theorem Distinct.register (h : futs.Distinct) (hf : futs f = some u)
    (hfresh : u.registered = none → ¬ futs.Holds nextId) {v : Fut κ ρ W}
    (hv : v.registered = (q.register nextId u.registered req waker).2.2) :
    (futs.set f (some v)).Distinct := by
  refine h.set ?_
  intro v' e hv' he g u' x hgf hg hx
  cases hv'
  exact h.register_ne hf hfresh (hv ▸ he) hgf hg hx

/-- A queued entry of another future is still queued after `register`. -/
theorem Distinct.mem_register (h : futs.Distinct) (hf : futs f = some u)
    (hfresh : u.registered = none → ¬ futs.Holds nextId) {g : Nat} {v : Fut κ ρ W}
    {x : Entry ρ W} (hgf : g ≠ f) (hg : futs g = some v) (hx : v.registered = some x)
    (hq : x ∈ q) : x ∈ (q.register nextId u.registered req waker).1 := by
  obtain ⟨e, hslot, -, -, hreg⟩ := q.register_spec nextId u.registered req waker
  rcases hreg with ⟨hreg, -⟩ | ⟨hreg, -⟩
  · rwa [hreg]
  · rw [hreg, List.mem_append]
    exact .inl (Waiters.mem_without.mpr ⟨hq, h.register_ne hf hfresh hslot hgf hg hx⟩)

/-- The entry of the polled future is queued after `register`. -/
theorem Distinct.mem_register_self (h : futs.Distinct) (howns : futs.Owns (fun _ => True) q)
    (hf : futs f = some u) {e : Entry ρ W}
    (he : (q.register nextId u.registered req waker).2.2 = some e) :
    e ∈ (q.register nextId u.registered req waker).1 := by
  unfold Waiters.register at he ⊢
  split at he
  · cases he
    rw [if_pos ‹_›]
    exact List.mem_append_right _ (List.mem_singleton_self _)
  · -- The slot was left alone because its token is queued, and only this future owns that.
    rename_i hstale
    rw [if_neg hstale]
    change u.registered = some e at he
    have hany : q.any (fun x => x.id == e.id) = true := by
      simp only [Waiters.stale, he] at hstale
      split at hstale
      · simpa using hstale
      · simp at hstale
    obtain ⟨x, hx, hid⟩ := List.any_eq_true.mp hany
    obtain ⟨g, v, hg, -, hv⟩ := howns x hx
    have hgf : g = f := h.eq hg hf hv he (beq_iff_eq.mp hid)
    subst hgf
    rw [hf] at hg
    cases hg
    rw [he] at hv
    cases hv
    exact hx

end Register

end Futs

end Cynosure.SiteC
