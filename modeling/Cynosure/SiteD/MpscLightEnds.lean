import Cynosure.Lib.Layer
import Cynosure.SiteD.MpscLightReceiver
import Cynosure.SiteD.MpscLightSend

/-! # The two ends of the light MPSC channel

A layer over the stream: the receiver hears of closure only when no sender is left and
everything was handed out, and without a sender nothing moves in the queue any more.
A sender that starts after the receiver is gone reads the flag before it touches the
queue, so it gets back what it brought.
-/

namespace Cynosure.SiteD.MpscLight

open Prog

variable {T W : Type}

/-- `Closed` of `try_recv`, and the `None` of a `recv`. -/
def SaysClosed (out : Option (RecvOut T)) : Prop := out = some .closed ∨ out = some (.ready none)

def EndInv (s : MpscState T W) : Prop :=
  SaysClosed s.recvOut → s.senders = 0 ∧ s.returned = s.accepted

structure SenderEnds (n : Nat) (s t : MpscState T W) : Prop where
  out : t.sendOut n = s.sendOut n
  gone : s.senders = 0 → t.senders = 0

/-- A queue without senders is left to the receiver. -/
structure ReceiverEnds (s t : MpscState T W) : Prop where
  out : t.recvOut = s.recvOut
  gone : s.senders = 0 → t.senders = 0 ∧ t.accepted = s.accepted ∧ t.queue = s.queue

def mpscEnds : Outline (MpscState T W) MpscSide PUnit.{1} where
  inv := EndInv
  rely
    | .sender n => SenderEnds n
    | .receiver => ReceiverEnds
  refl
    | .sender _, _ => ⟨rfl, id⟩
    | .receiver, _ => ⟨rfl, fun h => ⟨h, rfl, rfl⟩⟩
  trans := by
    intro i r s t hrs hst
    cases i with
    | sender n => exact ⟨hst.out.trans hrs.out, fun h => hst.gone (hrs.gone h)⟩
    | receiver =>
      refine ⟨hst.out.trans hrs.out, fun h => ?_⟩
      obtain ⟨hs, haccepted, hqueue⟩ := hrs.gone h
      obtain ⟨ht, haccepted', hqueue'⟩ := hst.gone hs
      exact ⟨ht, haccepted'.trans haccepted, hqueue'.trans hqueue⟩
  rest _ _ := True
  post _ _ _ := True

/-- What a step of sender `n` leaves to the others. -/
structure SendStep (n : Nat) (s t : MpscState T W) : Prop where
  recvOut : t.recvOut = s.recvOut
  returned : t.returned = s.returned
  sendOut : ∀ m, m ≠ n → t.sendOut m = s.sendOut m
  gone : s.senders = 0 → t.senders = 0 ∧ t.accepted = s.accepted ∧ t.queue = s.queue

theorem SendStep.refl (n : Nat) (s : MpscState T W) : SendStep n s s :=
  ⟨rfl, rfl, fun _ _ => rfl, fun hs => ⟨hs, rfl, rfl⟩⟩

theorem SendStep.recv (n : Nat) (s : MpscState T W) (x : SlotUse W Nat) :
    SendStep n s { s with recv := x } :=
  ⟨rfl, rfl, fun _ _ => rfl, fun hs => ⟨hs, rfl, rfl⟩⟩

theorem SendStep.inv {n : Nat} {s t : MpscState T W} (h : SendStep n s t) (hI : EndInv s) :
    EndInv t := by
  unfold EndInv at hI ⊢
  rw [h.recvOut, h.returned]
  intro hclosed
  obtain ⟨hsenders, hreturned⟩ := hI hclosed
  obtain ⟨hgone, haccepted, -⟩ := h.gone hsenders
  exact ⟨hgone, by rw [haccepted, hreturned]⟩

variable [Waker W] {cap n : Nat}

abbrev sendLayer (cap n : Nat) : Layer (MpscState T W) :=
  (mpscOutline cap).layer mpscEnds (.sender n)

abbrev recvLayer (cap : Nat) : Layer (MpscState T W) :=
  (mpscOutline cap).layer mpscEnds .receiver

theorem SendStep.guar {s t : MpscState T W} (h : SendStep n s t) :
    (sendLayer cap n).extra.guar s t := by
  intro j hj
  cases j with
  | sender m => exact ⟨h.sendOut m fun hm => hj (by rw [hm]), fun hs => (h.gone hs).1⟩
  | receiver => exact ⟨h.recvOut, h.gone⟩

section Assertions

variable {C : Prop} {had : List (Item T)} {out : SendOut T}

/-- The party is in a call; if `C`, then of a channel that is closed, and of its items no others
than before are accepted. -/
def InUse (n : Nat) (C : Prop) (had : List (Item T)) (s : MpscState T W) : Prop :=
  n ∈ s.borrowers ∧ (C → s.closed = true ∧ ∀ x, x.owner = n → x ∈ s.accepted → x ∈ had)

theorem inUse_stable : (sendLayer cap n).Stable (InUse n C had : MpscState T W → Prop) := by
  intro s t _ hst h
  have hbase : SenderRely n s t := hst.1
  refine ⟨hbase.borrow.mpr h.1, fun hC => ⟨hbase.closed (h.2 hC).1, fun x hx hmem => ?_⟩⟩
  exact (h.2 hC).2 x hx (hbase.own x hx hmem)

end Assertions

section Sends

variable {C : Prop} {had items : List (Item T)} {x : Item T} {P : MpscState T W → Prop}

/-- A party that borrows a `Sender` may put items into the queue. -/
theorem push_layer {α : Type} {read : MpscState T W → α} {f : MpscState T W → MpscState T W}
    (hf : ∀ s, SendStep n s (f s) ∨ ∃ items, f s = s.push n items)
    (hborrow : ∀ s, (f s).borrowers = s.borrowers) : (sendLayer cap n).Triple
      (InUse n False had) (exchange read f) fun _ => InUse n False had := by
  refine .exchange inUse_stable (fun _ => inUse_stable) ?_
  rintro s hI ⟨huse, -⟩ - -
  have halive : 0 < s.senders := hI.1.alive ⟨n, huse⟩
  have hstep : SendStep n s (f s) := by
    rcases hf s with h | ⟨items, h⟩
    · exact h
    · rw [h]
      exact ⟨rfl, rfl, fun _ _ => rfl, fun hs => absurd hs (by omega)⟩
  exact ⟨hstep.inv hI.2, hstep.guar, by rw [hborrow]; exact huse, fun hf => hf.elim⟩

theorem tryPush_layer : (sendLayer cap n).Triple (InUse n False had : MpscState T W → Prop)
    (tryPush cap n x) fun _ => InUse n False had := by
  refine push_layer (fun s => ?_) fun s => ?_
  · unfold MpscState.tryPush
    split
    · exact .inr ⟨_, rfl⟩
    · exact .inl (.refl n s)
  · unfold MpscState.tryPush
    split <;> rfl

end Sends

section Start

variable {s t : MpscState T W} {p : Prog (MpscState T W) PUnit} {op : MpscOp T W}

end Start

end Cynosure.SiteD.MpscLight
