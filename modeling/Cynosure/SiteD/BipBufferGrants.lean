import Cynosure.SiteD.BipBufferStream

/-! # Grants of the bip buffer never overlap

The grants that are still to be handed back lie inside the buffer, at most one on each
side, and the region that may be written is apart from everything that may still be
read. The in-progress flag of each side belongs to one grant from the step that hands
it out to the step that gives it back, whatever runs in between.
-/

namespace Cynosure.SiteD

variable {w : Nat} {W : Type} {cap : Nat}

namespace BipState

/-- Position `i` of the buffer holds a committed byte that was not released. -/
def Unread (s : BipState w W) (i : Nat) : Prop :=
  if s.epoch &&& 1 = 1 then False
  else if s.write < s.read then (s.read ≤ i ∧ i < s.last) ∨ i < s.write
  else s.read ≤ i ∧ i < s.write

end BipState

def WriteGrant.Owns (e : WriteGrant) (i : Nat) : Prop := e.start ≤ i ∧ i < e.start + e.len

def ReadGrant.Owns (e : ReadGrant) (i : Nat) : Prop := e.start ≤ i ∧ i < e.start + e.len

namespace BipInv

variable {s : BipState w W}

theorem one_write (hI : BipInv cap s) {g g' : Nat} {e e' : WriteGrant}
    (h : s.writeGrants g = some e) (h' : s.writeGrants g' = some e') : g = g' :=
  Option.some.inj ((hI.writeGrant g e h).1.symm.trans (hI.writeGrant g' e' h').1)

theorem one_read (hI : BipInv cap s) {g g' : Nat} {e e' : ReadGrant}
    (h : s.readGrants g = some e) (h' : s.readGrants g' = some e') : g = g' :=
  Option.some.inj ((hI.readGrant g e h).1.symm.trans (hI.readGrant g' e' h').1)

/-- The free region of a write grant holds no unread byte, wrapped or not. -/
theorem owns_not_unread (hI : BipInv cap s) {g i : Nat} {e : WriteGrant}
    (h : s.writeGrants g = some e) (hi : e.Owns i) : ¬ s.Unread i := by
  have hplace := (hI.writeGrant g e h).2.place
  unfold WriteGrant.Owns at hi
  unfold BipState.Unread
  split
  · exact id
  · split
    · rintro (⟨hlo, -⟩ | hlo) <;> omega
    · rintro ⟨hlo, hhi⟩
      omega

theorem read_owns_unread (hw : 0 < w) (hI : BipInv cap s) {g i : Nat} {e : ReadGrant}
    (h : s.readGrants g = some e) (hi : e.Owns i) : s.Unread i := by
  obtain ⟨-, hfits⟩ := hI.readGrant g e h
  have hstart := hfits.start
  have hplace := hfits.place
  have heven : ¬ s.epoch &&& 1 = 1 := by
    rw [hI.epoch, Word.and_one_eq_one hw]
    intro hodd
    have := (hI.resetting hodd).2.2 g
    simp [h] at this
  unfold ReadGrant.Owns at hi
  unfold BipState.Unread
  rw [if_neg heven]
  split at hplace
  · rename_i hinv
    rw [if_pos hinv]
    exact .inl ⟨by omega, by omega⟩
  · rename_i hplain
    rw [if_neg hplain]
    exact ⟨by omega, by omega⟩

theorem read_bound (hI : BipInv cap s) {g : Nat} {e : ReadGrant} (h : s.readGrants g = some e) :
    e.start + e.len ≤ cap := by
  obtain ⟨-, hfits⟩ := hI.readGrant g e h
  have hstart := hfits.start
  have hplace := hfits.place
  have hbounds := hI.bounds
  split at hplace <;> omega

end BipInv

/-- In every interleaving at most one grant is live on each side, both lie inside the buffer,
the writable region is apart from the readable one and from every unread byte, the cursors
stay inside the buffer, and no computation of a position leaves it. -/
theorem bipbuffer_grants_never_overlap (w : Nat) (hw : 2 ≤ w) (cap : Nat) (W : Type) [Waker W]
    (s : ThreadState (BipState w W) BipParty (BipNext W))
    (h : (bipThreads cap).machine.Reachable s) :
    (∀ g g' e e', s.mem.writeGrants g = some e → s.mem.writeGrants g' = some e' → g = g') ∧
    (∀ g g' e e', s.mem.readGrants g = some e → s.mem.readGrants g' = some e' → g = g') ∧
    (∀ g e, s.mem.writeGrants g = some e → e.start + e.len ≤ cap ∧
      (∀ i, e.Owns i → ¬ s.mem.Unread i) ∧
      ∀ g' e', s.mem.readGrants g' = some e' → ∀ i, ¬ (e.Owns i ∧ e'.Owns i)) ∧
    (∀ g e, s.mem.readGrants g = some e → e.start + e.len ≤ cap ∧ ∀ i, e.Owns i → s.mem.Unread i) ∧
    (s.mem.write ≤ cap ∧ s.mem.read ≤ cap ∧ s.mem.last ≤ cap) ∧
    s.mem.faulted = false := by
  have hI : BipInv cap s.mem := ((bipOutline_sound hw).reachable h).1
  refine ⟨fun g g' e e' => hI.one_write, fun g g' e e' => hI.one_read, fun g e he => ?_,
    fun g e he => ?_, hI.bounds, hI.faulted⟩
  · refine ⟨(hI.writeGrant g e he).2.bound, fun i => hI.owns_not_unread he, ?_⟩
    rintro g' e' he' i ⟨hi, hi'⟩
    exact hI.owns_not_unread he hi (hI.read_owns_unread (by omega) he' hi')
  · exact ⟨hI.read_bound he, fun i => hI.read_owns_unread (by omega) he⟩

/-- A write grant in the tail and a read grant of the two bytes before it. -/
theorem bipbuffer_two_grants_apart :
    ∃ s : ThreadState (BipState 8 Waker.OfTask) BipParty (BipNext Waker.OfTask),
      (bipThreads 4).machine.run (bipThreads 4).machine.init
        (.call .producer (.tryReserve 2) :: List.replicate 7 (.step .producer) ++
          .call (.write 0) (.commit 2) :: List.replicate 7 (.step (.write 0)) ++
          .call .producer (.tryReserve 2) :: List.replicate 7 (.step .producer) ++
          .call .consumer .tryRead :: List.replicate 8 (.step .consumer)) = some s ∧
      s.mem.writeGrants 1 = some ⟨2, 2, false, [0, 0]⟩ ∧ s.mem.readGrants 2 = some ⟨0, 2, false⟩ ∧
      ∀ i, ¬ ((⟨2, 2, false, [0, 0]⟩ : WriteGrant).Owns i ∧ (⟨0, 2, false⟩ : ReadGrant).Owns i) := by
  refine Machine.exists_end (c := fun s => decide (s.mem.writeGrants 1 = some ⟨2, 2, false, [0, 0]⟩ ∧
    s.mem.readGrants 2 = some ⟨0, 2, false⟩)) _ (by decide +kernel) ?_
  intro s hrun hs
  obtain ⟨hwrite, hread⟩ := of_decide_eq_true hs
  have hgrants := bipbuffer_grants_never_overlap 8 (by decide) 4 Waker.OfTask s ⟨_, hrun⟩
  exact ⟨hwrite, hread, (hgrants.2.2.1 1 _ hwrite).2.2 2 _ hread⟩

end Cynosure.SiteD
