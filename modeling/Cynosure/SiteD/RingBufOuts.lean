import Cynosure.SiteD.RingBufFifo

/-! # What a call of the ring buffer returned stays with its caller

Each side has a future, a counter and the result of its last call to itself: no action
of the other side changes them. Beside the outline of the ring this is all that is
needed to say what holds when one call has returned.
-/

namespace Cynosure.SiteD.Ring

open Prog

variable {w : Nat} {T W : Type}

structure ProducerOwn (s t : RingState w T W) : Prop where
  future : t.pushFuture = s.pushFuture
  pushed : t.pushed = s.pushed
  out : t.producerOut = s.producerOut

structure ConsumerOwn (s t : RingState w T W) : Prop where
  future : t.popFuture = s.popFuture
  popped : t.popped = s.popped
  out : t.consumerOut = s.consumerOut

theorem ProducerOwn.refl (s : RingState w T W) : ProducerOwn s s := ⟨rfl, rfl, rfl⟩

theorem ConsumerOwn.refl (s : RingState w T W) : ConsumerOwn s s := ⟨rfl, rfl, rfl⟩

def ringOwn : Outline (RingState w T W) RingSide PUnit.{1} where
  inv _ := True
  rely
    | .producer => ProducerOwn
    | .consumer => ConsumerOwn
  refl
    | .producer, s => .refl s
    | .consumer, s => .refl s
  trans := by
    intro i a b c hab hbc
    cases i with
    | producer =>
      exact ⟨hbc.future.trans hab.future, hbc.pushed.trans hab.pushed, hbc.out.trans hab.out⟩
    | consumer =>
      exact ⟨hbc.future.trans hab.future, hbc.popped.trans hab.popped, hbc.out.trans hab.out⟩
  rest _ _ := True
  post _ _ _ := True

section Producer

variable [Waker W] (r : RingBuf w)

theorem signalConsumer_own : (signalConsumer (w := w) (T := T) (W := W)).Always ConsumerOwn :=
  always_zoom (fun _ _ => ⟨rfl, rfl, rfl⟩) _

theorem armProducer_own (waker : W) :
    (armProducer (w := w) (T := T) waker).Always ConsumerOwn :=
  always_zoom (fun _ _ => ⟨rfl, rfl, rfl⟩) _

omit [Waker W] in
theorem loadReadIndex_own : (loadReadIndex (w := w) (T := T) (W := W)).Always ConsumerOwn :=
  always_exchange fun _ => ⟨rfl, rfl, rfl⟩

omit [Waker W] in
theorem appearsFull_own (p : RingHandle w) :
    (appearsFull (T := T) (W := W) r p).Always ConsumerOwn := by
  unfold appearsFull
  split
  · exact always_bind loadReadIndex_own fun _ => always_pure _
  · exact always_pure _

omit [Waker W] in
theorem availableSpace_own (p : RingHandle w) :
    (availableSpace (T := T) (W := W) r p).Always ConsumerOwn := by
  unfold availableSpace
  split
  · exact always_bind loadReadIndex_own fun _ => always_pure _
  · exact always_pure _

omit [Waker W] in
theorem copyIn_own (i : Nat) (xs : List T) : (copyIn (W := W) r i xs).Always ConsumerOwn := by
  induction xs generalizing i with
  | nil => exact always_pure _
  | cons x xs ih => exact always_bind (always_store fun _ => ⟨rfl, rfl, rfl⟩) fun _ => ih (i + 1)

omit [Waker W] in
theorem copyItemsIn_own (i : Nat) (items : List T) :
    (copyItemsIn (W := W) r i items).Always ConsumerOwn := by
  apply always_bind (copyIn_own r i _)
  intro _
  split
  · exact copyIn_own r 0 _
  · exact always_pure _

theorem tryPush_own (value : T) : (tryPush (W := W) r value).Always ConsumerOwn := by
  apply always_bind (always_load _ .refl)
  intro p
  apply always_bind (appearsFull_own r p)
  rintro (_ | _)
  · refine always_bind (always_store fun _ => ⟨rfl, rfl, rfl⟩) fun _ => ?_
    refine always_bind (always_store fun _ => ⟨rfl, rfl, rfl⟩) fun _ => ?_
    refine always_bind (always_store fun _ => ⟨rfl, rfl, rfl⟩) fun _ => ?_
    exact always_bind signalConsumer_own fun _ => always_pure _
  · exact always_pure _

theorem pushItems_own (write : BitVec w) (items : List T) :
    (pushItems (W := W) r write items).Always ConsumerOwn := by
  refine always_bind (copyItemsIn_own r _ items) fun _ => ?_
  refine always_bind (always_store fun _ => ⟨rfl, rfl, rfl⟩) fun _ => ?_
  refine always_bind (always_store fun _ => ⟨rfl, rfl, rfl⟩) fun _ => ?_
  exact always_bind signalConsumer_own fun _ => always_pure _

theorem tryPushSlice_own (items : List T) : (tryPushSlice (W := W) r items).Always ConsumerOwn := by
  unfold tryPushSlice
  split
  · exact always_pure _
  · apply always_bind (always_load _ .refl)
    intro p
    apply always_bind (availableSpace_own r p)
    intro available
    split
    · exact always_pure _
    · exact pushItems_own r _ _

omit [Waker W] in
theorem freeCount_own : (freeCount (T := T) (W := W) r).Always ConsumerOwn :=
  always_bind loadReadIndex_own fun _ => always_bind (always_load _ .refl) fun _ => always_pure _

omit [Waker W] in
theorem producerReturns_own (out : RingOut T) :
    (producerReturns (w := w) (W := W) out).Always ConsumerOwn :=
  always_store fun _ => ⟨rfl, rfl, rfl⟩

omit [Waker W] in
theorem pushReady_own : (pushReady (w := w) (T := T) (W := W)).Always ConsumerOwn :=
  always_store fun _ => ⟨rfl, rfl, rfl⟩

omit [Waker W] in
theorem disarmProducer_own : (disarmProducer (w := w) (T := T) (W := W)).Always ConsumerOwn :=
  always_store fun _ => ⟨rfl, rfl, rfl⟩

theorem pollPushFuture_own (waker : W) (value : T) :
    (pollPushFuture r waker value).Always ConsumerOwn := by
  apply always_bind (tryPush_own r value)
  rintro (value | _)
  · apply always_bind (armProducer_own waker)
    intro _
    apply always_bind (tryPush_own r value)
    rintro (value | _)
    · exact always_store fun _ => ⟨rfl, rfl, rfl⟩
    · exact always_bind disarmProducer_own fun _ => pushReady_own
  · exact pushReady_own

theorem pollPushSliceFuture_own (waker : W) (items : List T) (pushedSoFar : Nat) :
    (pollPushSliceFuture r waker items pushedSoFar).Always ConsumerOwn := by
  apply always_bind (tryPushSlice_own r _)
  intro pushed
  split
  · exact pushReady_own
  · refine always_bind (always_store fun _ => ⟨rfl, rfl, rfl⟩) fun _ => ?_
    apply always_bind (armProducer_own waker)
    intro _
    apply always_bind (tryPushSlice_own r _)
    intro again
    split
    · exact always_bind disarmProducer_own fun _ => pushReady_own
    · exact always_bind (always_store fun _ => ⟨rfl, rfl, rfl⟩) fun _ =>
        always_store fun _ => ⟨rfl, rfl, rfl⟩

theorem pollPush_own (waker : W) (future : PushFuture T) :
    (pollPush r waker future).Always ConsumerOwn := by
  cases future with
  | push value =>
    apply always_bind (tryPush_own r value)
    rintro (value | _)
    · exact pollPushFuture_own r waker value
    · exact pushReady_own
  | pushing value => exact pollPushFuture_own r waker value
  | pushSlice items =>
    rw [pollPush]
    split
    · exact always_bind (always_store fun _ => ⟨rfl, rfl, rfl⟩) fun _ => pushReady_own
    · apply always_bind (tryPushSlice_own r items)
      intro n
      refine always_bind (always_store fun _ => ⟨rfl, rfl, rfl⟩) fun _ => ?_
      split
      · exact pushReady_own
      · exact pollPushSliceFuture_own r waker items n
  | slicing items pushedSoFar => exact pollPushSliceFuture_own r waker items pushedSoFar

theorem producerCall_own {s t : RingState w T W} {op : RingOp T W}
    {p : Prog (RingState w T W) PUnit} (h : producerCall r s op = some (t, p)) :
    ConsumerOwn s t ∧ p.Always ConsumerOwn := by
  cases op with
  | tryPush value =>
    cases h
    refine ⟨.refl _, always_bind (tryPush_own r value) ?_⟩
    rintro (value | _) <;> exact producerReturns_own _
  | tryPushSlice items =>
    cases h
    exact ⟨.refl _, always_bind (tryPushSlice_own r items) fun _ => producerReturns_own _⟩
  | freeCount =>
    cases h
    exact ⟨.refl _, always_bind (freeCount_own r) fun _ => producerReturns_own _⟩
  | producerIsEmpty =>
    cases h
    exact ⟨.refl _, always_bind loadReadIndex_own fun _ =>
      always_bind (always_load _ .refl) fun _ => producerReturns_own _⟩
  | producerIsFull =>
    cases h
    exact ⟨.refl _, always_bind (freeCount_own r) fun _ => producerReturns_own _⟩
  | push | pushSlice | dropProducer =>
    cases h
    exact ⟨⟨rfl, rfl, rfl⟩, always_pure _⟩
  | _ => cases h

theorem producer_own {s t : RingState w T W} {op : RingOp T W}
    {p : Prog (RingState w T W) PUnit} (h : ringCall r .producer op s = some (t, p)) :
    ConsumerOwn s t ∧ p.Always ConsumerOwn := by
  simp only [ringCall] at h
  split at h
  · split at h
    · exact producerCall_own r h
    · cases h
      exact ⟨⟨rfl, rfl, rfl⟩, pollPush_own r _ _⟩
    · cases h
      exact ⟨⟨rfl, rfl, rfl⟩, always_pure _⟩
    · cases h
  · cases h

end Producer

section Consumer

variable [Waker W] (r : RingBuf w)

theorem signalProducer_own : (signalProducer (w := w) (T := T) (W := W)).Always ProducerOwn :=
  always_zoom (fun _ _ => ⟨rfl, rfl, rfl⟩) _

theorem whenSignal_own (signal : Bool) :
    (whenSignal (w := w) (T := T) (W := W) signal).Always ProducerOwn := by
  cases signal with
  | true => exact signalProducer_own
  | false => exact always_pure _

theorem armConsumer_own (waker : W) :
    (armConsumer (w := w) (T := T) waker).Always ProducerOwn :=
  always_zoom (fun _ _ => ⟨rfl, rfl, rfl⟩) _

omit [Waker W] in
theorem loadWriteIndex_own : (loadWriteIndex (w := w) (T := T) (W := W)).Always ProducerOwn :=
  always_exchange fun _ => ⟨rfl, rfl, rfl⟩

omit [Waker W] in
theorem appearsEmpty_own (c : RingHandle w) :
    (appearsEmpty (T := T) (W := W) c).Always ProducerOwn := by
  unfold appearsEmpty
  split
  · exact always_bind loadWriteIndex_own fun _ => always_pure _
  · exact always_pure _

omit [Waker W] in
theorem availableItems_own (c : RingHandle w) :
    (availableItems (T := T) (W := W) c).Always ProducerOwn := by
  unfold availableItems
  split
  · exact always_bind loadWriteIndex_own fun _ => always_pure _
  · exact always_pure _

omit [Waker W] in
theorem copyOut_own (i n : Nat) : (copyOut (T := T) (W := W) r i n).Always ProducerOwn := by
  induction n generalizing i with
  | zero => exact always_pure _
  | succ n ih =>
    refine always_bind (always_exchange fun _ => ⟨rfl, rfl, rfl⟩) fun _ => ?_
    exact always_bind (ih (i + 1)) fun _ => always_pure _

omit [Waker W] in
theorem copyItemsOut_own (i n : Nat) :
    (copyItemsOut (T := T) (W := W) r i n).Always ProducerOwn := by
  apply always_bind (copyOut_own r i _)
  intro _
  split
  · exact always_bind (copyOut_own r 0 _) fun _ => always_pure _
  · exact always_pure _

theorem tryPop_own : (tryPop (T := T) (W := W) r).Always ProducerOwn := by
  apply always_bind (always_load _ .refl)
  intro c
  apply always_bind (appearsEmpty_own c)
  rintro (_ | _)
  · refine always_bind (always_exchange fun _ => ⟨rfl, rfl, rfl⟩) fun _ => ?_
    refine always_bind (always_store fun _ => ⟨rfl, rfl, rfl⟩) fun _ => ?_
    refine always_bind (always_store fun _ => ⟨rfl, rfl, rfl⟩) fun _ => ?_
    exact always_bind (whenSignal_own true) fun _ => always_pure _
  · exact always_pure _

theorem tryPopSlice_own (items : List (Option T)) :
    (tryPopSlice (W := W) r items).Always ProducerOwn := by
  unfold tryPopSlice
  split
  · exact always_pure _
  · apply always_bind (always_load _ .refl)
    intro c
    apply always_bind (availableItems_own c)
    intro available
    split
    · exact always_pure _
    · refine always_bind ?_ fun _ => always_pure _
      refine always_bind (copyItemsOut_own r _ _) fun _ => ?_
      refine always_bind (always_store fun _ => ⟨rfl, rfl, rfl⟩) fun _ => ?_
      refine always_bind (always_store fun _ => ⟨rfl, rfl, rfl⟩) fun _ => ?_
      exact always_bind signalProducer_own fun _ => always_pure _

omit [Waker W] in
theorem availableCount_own : (availableCount (w := w) (T := T) (W := W)).Always ProducerOwn :=
  always_bind loadWriteIndex_own fun _ => always_bind (always_load _ .refl) fun _ => always_pure _

omit [Waker W] in
theorem consumerReturns_own (out : RingOut T) :
    (consumerReturns (w := w) (W := W) out).Always ProducerOwn :=
  always_store fun _ => ⟨rfl, rfl, rfl⟩

omit [Waker W] in
theorem popReady_own (out : RingOut T) : (popReady (w := w) (W := W) out).Always ProducerOwn :=
  always_store fun _ => ⟨rfl, rfl, rfl⟩

omit [Waker W] in
theorem disarmConsumer_own : (disarmConsumer (w := w) (T := T) (W := W)).Always ProducerOwn :=
  always_store fun _ => ⟨rfl, rfl, rfl⟩

theorem pollPopFuture_own (waker : W) : (pollPopFuture (T := T) r waker).Always ProducerOwn := by
  apply always_bind (tryPop_own r)
  rintro (_ | value)
  · apply always_bind (armConsumer_own waker)
    intro _
    apply always_bind (tryPop_own r)
    rintro (_ | value)
    · exact always_store fun _ => ⟨rfl, rfl, rfl⟩
    · exact always_bind disarmConsumer_own fun _ => popReady_own _
  · exact popReady_own _

theorem pollPopSliceFuture_own (waker : W) (items : List (Option T)) (poppedSoFar : Nat) :
    (pollPopSliceFuture r waker items poppedSoFar).Always ProducerOwn := by
  apply always_bind (tryPopSlice_own r _)
  rintro ⟨popped, rest⟩
  dsimp only
  split
  · exact popReady_own _
  · refine always_bind (always_store fun _ => ⟨rfl, rfl, rfl⟩) fun _ => ?_
    apply always_bind (armConsumer_own waker)
    intro _
    apply always_bind (tryPopSlice_own r _)
    rintro ⟨again, rest⟩
    dsimp only
    split
    · exact always_bind disarmConsumer_own fun _ => popReady_own _
    · exact always_bind (always_store fun _ => ⟨rfl, rfl, rfl⟩) fun _ =>
        always_store fun _ => ⟨rfl, rfl, rfl⟩

theorem pollPop_own (waker : W) (future : PopFuture T) :
    (pollPop r waker future).Always ProducerOwn := by
  cases future with
  | pop =>
    apply always_bind (tryPop_own r)
    rintro (_ | value)
    · exact pollPopFuture_own r waker
    · exact popReady_own _
  | popping => exact pollPopFuture_own r waker
  | popSlice items =>
    rw [pollPop]
    split
    · exact always_bind (always_store fun _ => ⟨rfl, rfl, rfl⟩) fun _ => popReady_own _
    · apply always_bind (tryPopSlice_own r items)
      rintro ⟨n, filled⟩
      refine always_bind (always_store fun _ => ⟨rfl, rfl, rfl⟩) fun _ => ?_
      split
      · exact popReady_own _
      · exact pollPopSliceFuture_own r waker filled n
  | slicing items poppedSoFar => exact pollPopSliceFuture_own r waker items poppedSoFar

theorem consumerCall_own {s t : RingState w T W} {op : RingOp T W}
    {p : Prog (RingState w T W) PUnit} (h : consumerCall r s op = some (t, p)) :
    ProducerOwn s t ∧ p.Always ProducerOwn := by
  cases op with
  | tryPop =>
    cases h
    exact ⟨.refl _, always_bind (tryPop_own r) fun _ => consumerReturns_own _⟩
  | tryPopSlice items =>
    cases h
    exact ⟨.refl _, always_bind (tryPopSlice_own r _) fun _ => consumerReturns_own _⟩
  | availableCount | consumerIsEmpty | consumerIsFull =>
    cases h
    exact ⟨.refl _, always_bind availableCount_own fun _ => consumerReturns_own _⟩
  | pop | popSlice | dropConsumer =>
    cases h
    exact ⟨⟨rfl, rfl, rfl⟩, always_pure _⟩
  | _ => cases h

theorem consumer_own {s t : RingState w T W} {op : RingOp T W}
    {p : Prog (RingState w T W) PUnit} (h : ringCall r .consumer op s = some (t, p)) :
    ProducerOwn s t ∧ p.Always ProducerOwn := by
  simp only [ringCall] at h
  split at h
  · split at h
    · exact consumerCall_own r h
    · cases h
      exact ⟨⟨rfl, rfl, rfl⟩, pollPop_own r _ _⟩
    · cases h
      exact ⟨⟨rfl, rfl, rfl⟩, always_pure _⟩
    · cases h
  · cases h

end Consumer

section Calls

/-- The outline of the ring, with each side's own fields. -/
abbrev ringCalls (r : RingBuf w) : Outline (RingState w T W) RingSide PUnit.{1} :=
  (ringOutline r).both ringOwn

theorem ringOwn_producer {s t : RingState w T W} (h : ConsumerOwn s t) :
    (ringOwn.contract .producer).guar s t := by
  intro j hj
  cases j with
  | producer => exact absurd rfl hj
  | consumer => exact h

theorem ringOwn_consumer {s t : RingState w T W} (h : ProducerOwn s t) :
    (ringOwn.contract .consumer).guar s t := by
  intro j hj
  cases j with
  | producer => exact h
  | consumer => exact absurd rfl hj

variable [Waker W]

theorem ringCalls_sound (r : RingBuf w) :
    (ringCalls r).Sound (ringThreads (T := T) (W := W) r) := by
  refine Outline.SoundOver.both ?_ (ringOutline_sound r)
  exact {
    init := trivial
    initRest := fun _ => trivial
    stable := fun _ _ _ _ _ _ _ => trivial
    start := by
      intro i op s t p _ _ _ hcall _ _
      cases i with
      | producer =>
        obtain ⟨hown, hp⟩ := producer_own r hcall
        exact ⟨trivial, ringOwn_producer hown,
          .of_always (fun _ => trivial) (hp.mono ringOwn_producer) t⟩
      | consumer =>
        obtain ⟨hown, hp⟩ := consumer_own r hcall
        exact ⟨trivial, ringOwn_consumer hown,
          .of_always (fun _ => trivial) (hp.mono ringOwn_consumer) t⟩
    finish := fun _ _ _ _ => trivial
    again := fun _ _ _ hres => by cases hres }

end Calls

end Cynosure.SiteD.Ring
