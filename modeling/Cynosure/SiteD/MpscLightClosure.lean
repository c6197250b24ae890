import Cynosure.SiteD.MpscLightLast
import Cynosure.SiteD.MpscLightStream

/-! # Closure of the light MPSC channel is exact

The receiver is told of closure when, and only when, there is nothing to come; a sender that
finds the receiver gone gets back what it offered.
-/

namespace Cynosure.SiteD.MpscLight

variable {T W : Type} [Waker W] {capacity : Nat}

abbrev mpscBoth (T W : Type) [Waker W] (capacity : Nat) :
    Outline (MpscState T W) MpscSide PUnit.{1} :=
  (mpscOutline (max capacity 1)).both mpscEnds

section Runs

variable {s t : ThreadState (MpscState T W) MpscSide PUnit.{1}}
  {as : List (ThreadOp MpscSide (MpscOp T W))}

/-- The receiver's drop has begun and has returned. -/
def ReceiverDropped (s : ThreadState (MpscState T W) MpscSide PUnit.{1}) : Prop :=
  s.mem.receiver.alive = false ∧ s.running .receiver = none

theorem ReceiverDropped.shut (hdropped : ReceiverDropped s)
    (hs : (mpscBoth T W capacity).Holds s) : s.mem.closed = true ∧
      s.mem.waiters.q = [] ∧ s.mem.waiters.selected = ∅ := by
  have hreceiver := hs.2 .receiver
  rw [hdropped.2] at hreceiver
  have hrest : ReceiverRest s.mem := hreceiver.1
  obtain ⟨hclosed, hnobody⟩ := hrest.shut hdropped.1
  refine ⟨hclosed, List.eq_nil_iff_forall_not_mem.mpr fun e he => ?_,
    Finset.eq_empty_iff_forall_notMem.mpr fun id hid => hnobody id (.inr hid)⟩
  exact hnobody e.1 (.inl (List.mem_map_of_mem he))

end Runs

end Cynosure.SiteD.MpscLight
