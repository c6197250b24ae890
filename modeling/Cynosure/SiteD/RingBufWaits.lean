import Cynosure.SiteD.RingBufFifo

/-! # What a parked side of the ring buffer knows

A layer over the FIFO: each side's slot keeps its invariant, and as long as no signal on
it has begun since it was armed, the other side has not moved its index. A side that
parks has looked at the other's index after arming.
-/

namespace Cynosure.SiteD.Ring

open Prog

variable {w : Nat} {T W : Type}

/-- A slice future that is pending has items left. -/
def PushFuture.Unfinished : PushFuture T → Prop
  | .slicing items pushedSoFar => pushedSoFar < items.length
  | _ => True

def PopFuture.Unfinished : PopFuture T → Prop
  | .slicing items poppedSoFar => poppedSoFar < items.length
  | _ => True

/-- The last poll of the future returned `Pending`. -/
def PushFuture.polled : PushFuture T → Bool
  | .pushing _ => true
  | .slicing _ _ => true
  | _ => false

def PopFuture.polled : PopFuture T → Bool
  | .popping => true
  | .slicing _ _ => true
  | _ => false

structure WaitInv [Waker W] (s : RingState w T W) : Prop where
  producer : SlotInv s.producerSlot
  consumer : SlotInv s.consumerSlot

/-- Room is made only together with a signal to the producer. -/
structure PushRely (s t : RingState w T W) : Prop where
  future : t.pushFuture = s.pushFuture
  slot : s.producerSlot.WaiterSees t.producerSlot
  signals : t.consumerSlot.signals = s.consumerSlot.signals
  taken : t.producerSlot.published = false → t.taken.length = s.taken.length

/-- Items appear only together with a signal to the consumer. -/
structure PopRely (s t : RingState w T W) : Prop where
  future : t.popFuture = s.popFuture
  slot : s.consumerSlot.WaiterSees t.consumerSlot
  signals : t.producerSlot.signals = s.producerSlot.signals
  accepted : t.consumerSlot.published = false → t.accepted.length = s.accepted.length

/-- Where the producer is between its calls. -/
structure PushRest (r : RingBuf w) (s : RingState w T W) : Prop where
  quiet : s.consumerSlot.signals () = none
  unfinished : ∀ future, s.pushFuture = some future → PushFuture.Unfinished future
  slot : s.producerSlot.phase = .out ∧ s.pushFuture.any PushFuture.polled = false ∨
    s.producerSlot.phase = .armed ∧ s.pushFuture ≠ none ∧
      (s.producerSlot.published = false → s.accepted.length = s.taken.length + r.capacity.toNat)

structure PopRest (s : RingState w T W) : Prop where
  quiet : s.producerSlot.signals () = none
  unfinished : ∀ future, s.popFuture = some future → PopFuture.Unfinished future
  slot : s.consumerSlot.phase = .out ∧ s.popFuture.any PopFuture.polled = false ∨
    s.consumerSlot.phase = .armed ∧ s.popFuture ≠ none ∧
      (s.consumerSlot.published = false → s.accepted.length = s.taken.length)

def ringWaits [Waker W] (r : RingBuf w) : Outline (RingState w T W) RingSide PUnit.{1} where
  inv := WaitInv
  rely
    | .producer => PushRely
    | .consumer => PopRely
  refl
    | .producer, _ => ⟨rfl, .refl _, rfl, fun _ => rfl⟩
    | .consumer, _ => ⟨rfl, .refl _, rfl, fun _ => rfl⟩
  trans := by
    intro i a b c hab hbc
    cases i with
    | producer =>
      exact ⟨hbc.future.trans hab.future, hab.slot.trans hbc.slot, hbc.signals.trans hab.signals,
        fun hp => (hbc.taken hp).trans (hab.taken (hbc.slot.published hp))⟩
    | consumer =>
      exact ⟨hbc.future.trans hab.future, hab.slot.trans hbc.slot, hbc.signals.trans hab.signals,
        fun hp => (hbc.accepted hp).trans (hab.accepted (hbc.slot.published hp))⟩
  rest
    | .producer => PushRest r
    | .consumer => PopRest
  post
    | .producer, _ => PushRest r
    | .consumer, _ => PopRest

variable [Waker W] {r : RingBuf w}

abbrev pushLayer (r : RingBuf w) : Layer (RingState w T W) :=
  (ringOutline r).layer (ringWaits r) .producer

abbrev popLayer (r : RingBuf w) : Layer (RingState w T W) :=
  (ringOutline r).layer (ringWaits r) .consumer

omit [Waker W] in
/-- The index arithmetic of the source, counted without wrapping. -/
theorem span_eq {n c : Nat} {write read : BitVec w} (hw : write = BitVec.ofNat w n)
    (hr : read = BitVec.ofNat w c) (hle : c ≤ n) (hbound : n ≤ c + r.capacity.toNat) :
    (write - read).toNat = n - c := by
  have hlt := RingInv.capacity_lt r
  rw [hw, hr, Word.toNat_sub hle (by omega)]

section Guarantee

variable {s t : RingState w T W}

theorem pushGuar (h : PopRely s t) : (pushLayer r).extra.guar s t := by
  intro j hj
  cases j with
  | producer => exact absurd rfl hj
  | consumer => exact h

theorem popGuar (h : PushRely s t) : (popLayer r).extra.guar s t := by
  intro j hj
  cases j with
  | producer => exact h
  | consumer => exact absurd rfl hj

theorem pushGuar_refl (s : RingState w T W) : (pushLayer r).extra.guar s s :=
  fun j _ => (ringWaits r).refl j s

theorem popGuar_refl (s : RingState w T W) : (popLayer r).extra.guar s s :=
  fun j _ => (ringWaits r).refl j s

end Guarantee

/-- The steps on the buffer, the caches, the counters and the results. -/
structure SameSlots (s t : RingState w T W) : Prop where
  producerSlot : t.producerSlot = s.producerSlot
  consumerSlot : t.consumerSlot = s.consumerSlot
  pushFuture : t.pushFuture = s.pushFuture
  popFuture : t.popFuture = s.popFuture
  accepted : t.accepted = s.accepted
  taken : t.taken = s.taken

namespace SameSlots

variable {s t : RingState w T W}

theorem inv (h : SameSlots s t) (hI : WaitInv s) : WaitInv t :=
  ⟨by rw [h.producerSlot]; exact hI.producer, by rw [h.consumerSlot]; exact hI.consumer⟩

omit [Waker W] in
theorem pushRely (h : SameSlots s t) : PushRely s t :=
  ⟨h.pushFuture, by rw [h.producerSlot]; exact .refl _, by rw [h.consumerSlot], fun _ => by rw [h.taken]⟩

omit [Waker W] in
theorem popRely (h : SameSlots s t) : PopRely s t :=
  ⟨h.popFuture, by rw [h.consumerSlot]; exact .refl _, by rw [h.producerSlot],
    fun _ => by rw [h.accepted]⟩

end SameSlots

section Rules

variable {P : RingState w T W → Prop}

/-- A store of the producer that changes nothing its assertion reads. -/
theorem pushSame_layer {f : RingState w T W → RingState w T W} {Q : RingState w T W → Prop}
    (hP : (pushLayer r).Stable P) (hQ : (pushLayer r).Stable Q) (hf : ∀ s, SameSlots s (f s))
    (h : ∀ s, P s → Q (f s)) : (pushLayer r).Triple P (store f) fun _ => Q :=
  .store hP (fun _ => hQ) fun s hI hs _ _ => ⟨(hf s).inv hI.2, pushGuar (hf s).popRely, h s hs⟩

theorem popSame_layer {f : RingState w T W → RingState w T W} {Q : RingState w T W → Prop}
    (hP : (popLayer r).Stable P) (hQ : (popLayer r).Stable Q) (hf : ∀ s, SameSlots s (f s))
    (h : ∀ s, P s → Q (f s)) : (popLayer r).Triple P (store f) fun _ => Q :=
  .store hP (fun _ => hQ) fun s hI hs _ _ => ⟨(hf s).inv hI.2, popGuar (hf s).pushRely, h s hs⟩

/-- The signals of the producer go to the consumer's slot. -/
theorem signalConsumer_layer
    (hP : ∀ pc, (pushLayer r).Stable fun s => P s ∧ s.consumerSlot.signals () = pc)
    (h : ∀ s x, P s → P { s with consumerSlot := x }) :
    (pushLayer r).Triple (fun s => P s ∧ s.consumerSlot.signals () = some .load) signalConsumer
      fun _ s => P s ∧ s.consumerSlot.signals () = none := by
  refine signal_layer (fun _ _ => rfl) hP fun s pc hI hs hpc _ _ => ?_
  exact ⟨⟨hI.2.producer, hI.2.consumer.signalStep hpc⟩,
    pushGuar ⟨rfl, SlotUse.sees_signalStep _ _ _, rfl, fun _ => rfl⟩, h s _ hs⟩

theorem signalProducer_layer
    (hP : ∀ pc, (popLayer r).Stable fun s => P s ∧ s.producerSlot.signals () = pc)
    (h : ∀ s x, P s → P { s with producerSlot := x }) :
    (popLayer r).Triple (fun s => P s ∧ s.producerSlot.signals () = some .load) signalProducer
      fun _ s => P s ∧ s.producerSlot.signals () = none := by
  refine signal_layer (fun _ _ => rfl) hP fun s pc hI hs hpc _ _ => ?_
  exact ⟨⟨hI.2.producer.signalStep hpc, hI.2.consumer⟩,
    popGuar ⟨rfl, SlotUse.sees_signalStep _ _ _, rfl, fun _ => rfl⟩, h s _ hs⟩

end Rules

end Cynosure.SiteD.Ring
