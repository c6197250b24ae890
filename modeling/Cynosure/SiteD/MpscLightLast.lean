import Cynosure.SiteD.MpscLightEnds

/-! # The last items of the light MPSC channel

On each of the receive paths the count of senders is read before the look that decides. A
count of zero is final, and so is then what the look finds; a look before it may have
missed an item of a sender that pushed and left.
-/

namespace Cynosure.SiteD.MpscLight

open Prog

variable {T W : Type}

/-- What a step of the receiver inside a call leaves as it is. -/
structure RecvStep (s t : MpscState T W) : Prop where
  recvOut : t.recvOut = s.recvOut
  returned : t.returned = s.returned
  sendOut : t.sendOut = s.sendOut
  senders : t.senders = s.senders
  accepted : t.accepted = s.accepted

theorem RecvStep.refl (s : MpscState T W) : RecvStep s s := ⟨rfl, rfl, rfl, rfl, rfl⟩

theorem RecvStep.inv {s t : MpscState T W} (h : RecvStep s t) (hI : EndInv s) : EndInv t := by
  unfold EndInv
  rw [h.recvOut, h.returned, h.senders, h.accepted]
  exact hI

/-- If `D`, the last sender is gone. -/
def Gone (D : Prop) (s : MpscState T W) : Prop := D → s.senders = 0

variable [Waker W] {cap : Nat}

theorem recvEnds_guar {s t : MpscState T W} (hout : t.sendOut = s.sendOut)
    (hsenders : t.senders = s.senders) : (recvLayer cap).extra.guar s t := by
  intro j hj
  cases j with
  | sender n => exact ⟨by rw [hout], fun h => hsenders.trans h⟩
  | receiver => exact absurd rfl hj

theorem RecvStep.guar {s t : MpscState T W} (h : RecvStep s t) : (recvLayer cap).extra.guar s t :=
  recvEnds_guar h.sendOut h.senders

section Stable

variable {C D : Prop}

end Stable

section Staging

variable {D : Prop} {P : MpscState T W → Prop}

end Staging

section Calls

variable {C D : Prop} {u : Phase W × Option W} {got : List (Item T)}

theorem receiving_stable :
    (recvLayer cap).Stable (Receiving u got : MpscState T W → Prop) :=
  .of_base Receiving.stable

end Calls

section Start

variable {s t : MpscState T W} {p : Prog (MpscState T W) PUnit} {op : MpscOp T W}

end Start

end Cynosure.SiteD.MpscLight
