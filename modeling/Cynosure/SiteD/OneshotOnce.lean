import Cynosure.SiteD.OneshotSender
import Cynosure.SiteD.OneshotReceiver

/-! # The oneshot channel hands its value over once and wakes its receiver

Each call of the two sides starts from rest and leaves its side at rest, so what the
sides keep holds in every interleaving. The value is in one place at a time; when both
handles are gone it is in none but the three where it can end.
-/

namespace Cynosure.SiteD.Oneshot

open Prog

variable {T W : Type} [Waker W]

section Start

variable {s : OneshotState T W} {op : OneshotOp T W}
  {call : OneshotState T W × Prog (OneshotState T W) PUnit}

/-- What a call must establish. -/
def Starts (side : OneshotSide) (s : OneshotState T W)
    (call : OneshotState T W × Prog (OneshotState T W) PUnit) : Prop :=
  OneshotInv call.1 ∧ (oneshotContract side).guar s call.1 ∧
    (oneshotContract side).Ok (oneshotOutline.post side) call.2 call.1

theorem sender_start (hI : OneshotInv s) (h : SenderAtRest s)
    (hcall : oneshotCall .sender op s = some call) : Starts .sender s call := by
  have hguar : ∀ handle offered frame, (oneshotContract .sender).guar s
      { s with sender := handle, offered := offered, inSender := frame } :=
    fun _ _ _ => senderGuar ⟨rfl, rfl, rfl, rfl, .refl _, fun _ => rfl, id, fun _ => ⟨rfl, rfl⟩,
      fun _ _ => rfl, Iff.rfl, fun _ => ⟨rfl, rfl, rfl⟩⟩
  rcases h with ⟨h, hpc⟩ | h
  · have hempty : s.value = none := hI.of_unoffered h.offered
    have hplaces := hI.places
    rw [h.offered] at hplaces
    simp only [OneshotState.places, Option.toList_none, List.append_eq_nil_iff,
      Option.toList_eq_nil_iff] at hplaces
    obtain ⟨hs, -, hr, hb, hrec, hdropped⟩ := hplaces
    cases op with
    | send v =>
      rw [oneshotCall, if_pos h.handle] at hcall
      cases hcall
      have hinv : OneshotInv { s with sender := false, offered := some v, inSender := some v } :=
        { hI with places := by simp [OneshotState.places, hempty, hr, hb, hrec, hdropped] }
      refine ⟨hinv, hguar _ _ _, send_triple _ hinv ⟨⟨rfl, h.holds, rfl, h.set, h.closed, ?_⟩, hpc⟩⟩
      exact fun _ => hempty
    | drop =>
      rw [oneshotCall, if_pos h.handle] at hcall
      cases hcall
      have hinv : OneshotInv { s with sender := false } := { hI with }
      exact ⟨hinv, hguar _ _ _, (dropSender_triple.conseq (fun _ _ h => h) fun _ _ _ h => .inr h) _ hinv
        ⟨⟨rfl, h.holds, hs, h.set, h.closed, fun _ => hempty⟩, hpc⟩⟩
    | tryRecv => cases hcall
    | poll waker => cases hcall
  · cases op <;> simp [oneshotCall, h.handle] at hcall

theorem receiver_start (hI : OneshotInv s) (h : ReceiverAtRest s)
    (hcall : oneshotCall .receiver op s = some call) : Starts .receiver s call := by
  rcases h with ⟨h, hphase⟩ | h
  · cases op with
    | tryRecv =>
      rw [oneshotCall, if_pos h.handle] at hcall
      cases hcall
      exact ⟨hI, oneshotIdle_guar _ s, tryRecv_triple s hI ⟨h, hphase⟩⟩
    | poll waker =>
      rw [oneshotCall, if_pos h.handle] at hcall
      cases hcall
      have hinv : OneshotInv { s with recv := s.recv.beginPoll waker, pending := false } :=
        { hI with
          slot := hI.slot.quit hphase rfl rfl rfl
          parked := fun hp => by cases hp }
      exact ⟨hinv,
        receiverMoves hI h.holds rfl ⟨rfl, rfl⟩ rfl rfl rfl rfl (fun _ => rfl) (.inr rfl),
        pollRecv_triple waker _ hinv ⟨⟨h.handle, h.holds, h.frame, h.moved⟩, rfl, rfl, rfl⟩⟩
    | drop =>
      rw [oneshotCall, if_pos h.handle] at hcall
      cases hcall
      have hinv : OneshotInv { s with receiver := false } := { hI with }
      exact ⟨hinv,
        receiverMoves hI h.holds rfl ⟨rfl, rfl⟩ rfl rfl rfl rfl (fun _ => rfl) (.inr rfl),
        (dropReceiver_triple.conseq (fun _ _ h => h) fun _ _ _ h => .inr h) _ hinv
          ⟨⟨rfl, h.holds, h.frame, h.moved⟩, hphase⟩⟩
    | send v => cases hcall
  · cases op <;> simp [oneshotCall, h.handle] at hcall

end Start

theorem oneshotOutline_sound :
    (oneshotOutline (T := T) (W := W)).Sound (oneshotThreads T W) where
  init := .init
  initRest := by
    rintro (_ | _)
    · exact .inl ⟨⟨rfl, rfl, Word.has_zero _, Word.has_zero _, rfl⟩, rfl⟩
    · refine .inl ⟨⟨rfl, rfl, rfl, fun htaken => ?_⟩, fun pc hpc => by cases hpc⟩
      exact absurd ((Word.has_zero TAKEN).symm.trans htaken) Bool.noConfusion
  stable := by
    rintro (_ | _)
    · exact SenderAtRest.stable
    · exact ReceiverAtRest.stable
  start := by
    intro side op s t p hI hrest hcall
    cases side with
    | sender => exact sender_start hI hrest hcall
    | receiver => exact receiver_start hI hrest hcall
  finish := by
    intro side _ s _ hpost _
    cases side <;> exact hpost
  again := by
    intro side _ s _ _ _ hagain
    cases hagain

section Once

variable (s : ThreadState (OneshotState T W) OneshotSide PUnit)

/-- The handle was consumed, by `send` or by its drop, and that call has returned. -/
def SenderFinished : Prop := s.running .sender = none ∧ s.mem.sender = false

def ReceiverFinished : Prop := s.running .receiver = none ∧ s.mem.receiver = false

variable {s}

theorem SenderFinished.gone (h : (oneshotThreads T W).machine.Reachable s) (hs : SenderFinished s) :
    SenderGone none s.mem := by
  have hsender := (oneshotOutline_sound.reachable h).2 .sender
  rw [hs.1] at hsender
  rcases hsender with ⟨hfresh, -⟩ | hgone
  · exact absurd (hfresh.handle.symm.trans hs.2) Bool.noConfusion
  · exact hgone

theorem ReceiverFinished.gone (h : (oneshotThreads T W).machine.Reachable s)
    (hr : ReceiverFinished s) : ReceiverGone s.mem := by
  have hreceiver := (oneshotOutline_sound.reachable h).2 .receiver
  rw [hr.1] at hreceiver
  rcases hreceiver with ⟨hlive, -⟩ | hgone
  · exact absurd (hlive.handle.symm.trans hr.2) Bool.noConfusion
  · exact hgone

end Once

end Cynosure.SiteD.Oneshot
