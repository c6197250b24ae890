import Cynosure.SiteD.RingBufAsleep
import Cynosure.SiteD.SlotMoves

/-! # What single actions of the ring buffer do to the wait slots

A side signals the other one only in the action that moves its index over some items,
and between its calls it is signalling nobody.
-/

namespace Cynosure.SiteD.Ring

open Prog

variable {w : Nat} {T W : Type} [Waker W]

abbrev ringBoth (r : RingBuf w) : Outline (RingState w T W) RingSide PUnit.{1} :=
  (ringOutline r).both (ringWaits r)

theorem ringBoth_sound (r : RingBuf w) : (ringBoth r).Sound (ringThreads (T := T) (W := W) r) :=
  (ringWaits_soundOver r).both (ringOutline_sound r)

/-- What the calls of the producer's side and of the consumer's side do to their own slots. -/
def onOwnSlot (op : RingOp T W) (x : SlotUse W Unit) : SlotUse W Unit :=
  match op with
  | .pollPush waker => x.beginPoll waker
  | .pollPop waker => x.beginPoll waker
  | .cancelPush => x.leave
  | .cancelPop => x.leave
  | _ => x

def SameLives (s t : RingState w T W) : Prop :=
  t.producerAlive = s.producerAlive ∧ t.consumerAlive = s.consumerAlive

structure PushCalled (op : RingOp T W) (s t : RingState w T W) : Prop where
  own : t.producerSlot = onOwnSlot op s.producerSlot
  other : t.consumerSlot = s.consumerSlot
  alive : op ≠ .dropProducer → SameLives s t

structure PopCalled (op : RingOp T W) (s t : RingState w T W) : Prop where
  own : t.consumerSlot = onOwnSlot op s.consumerSlot
  other : t.producerSlot = s.producerSlot
  alive : op ≠ .dropConsumer → SameLives s t

structure PushDoes (s t : RingState w T W) : Prop where
  own : s.producerSlot.WaiterMoves t.producerSlot
  other : s.consumerSlot.SignalMoves () t.consumerSlot
  news : s.consumerSlot.signals () = none → t.consumerSlot.signals () ≠ none →
    s.accepted.length < t.accepted.length
  alive : SameLives s t

structure PopDoes (s t : RingState w T W) : Prop where
  own : s.consumerSlot.WaiterMoves t.consumerSlot
  other : s.producerSlot.SignalMoves () t.producerSlot
  news : s.producerSlot.signals () = none → t.producerSlot.signals () ≠ none →
    s.taken.length < t.taken.length
  alive : SameLives s t

def RingDoes : ThreadOp RingSide (RingOp T W) → RingState w T W → RingState w T W → Prop
  | .call .producer op => PushCalled op
  | .call .consumer op => PopCalled op
  | .step .producer => PushDoes
  | .step .consumer => PopDoes

abbrev pushDoing (r : RingBuf w) : Layer (RingState w T W) :=
  ((ringBoth r).contract .producer).doing PushDoes

abbrev popDoing (r : RingBuf w) : Layer (RingState w T W) :=
  ((ringBoth r).contract .consumer).doing PopDoes

structure KeepsSlots (s t : RingState w T W) : Prop where
  producerSlot : t.producerSlot = s.producerSlot
  consumerSlot : t.consumerSlot = s.consumerSlot
  producerAlive : t.producerAlive = s.producerAlive
  consumerAlive : t.consumerAlive = s.consumerAlive

section Kept

variable {r : RingBuf w}

omit [Waker W] in
theorem look_keeps {α : Type} {read : RingState w T W → α} {f : RingState w T W → RingState w T W}
    (h : ∀ s, KeepsSlots s (f s)) : (exchange read f).Always KeepsSlots :=
  always_exchange h

omit [Waker W] in
theorem store_keeps {f : RingState w T W → RingState w T W} (h : ∀ s, KeepsSlots s (f s)) :
    (store f).Always KeepsSlots :=
  always_store h

omit [Waker W] in
theorem copyIn_keeps (items : List T) (i : Nat) :
    (copyIn r i items : Prog (RingState w T W) PUnit).Always KeepsSlots := by
  induction items generalizing i with
  | nil => exact always_pure _
  | cons x xs ih => exact always_bind (store_keeps fun _ => ⟨rfl, rfl, rfl, rfl⟩) fun _ => ih _

omit [Waker W] in
theorem copyItemsIn_keeps (i : Nat) (items : List T) :
    (copyItemsIn r i items : Prog (RingState w T W) PUnit).Always KeepsSlots := by
  refine always_bind (copyIn_keeps _ _) fun _ => ?_
  split
  · exact copyIn_keeps _ _
  · exact always_pure _

omit [Waker W] in
theorem appearsFull_keeps (p : RingHandle w) :
    (appearsFull r p : Prog (RingState w T W) Bool).Always KeepsSlots := by
  unfold appearsFull
  split
  · exact always_bind (look_keeps fun _ => ⟨rfl, rfl, rfl, rfl⟩) fun _ => always_pure _
  · exact always_pure _

omit [Waker W] in
theorem availableSpace_keeps (p : RingHandle w) :
    (availableSpace r p : Prog (RingState w T W) Nat).Always KeepsSlots := by
  unfold availableSpace
  split
  · exact always_bind (look_keeps fun _ => ⟨rfl, rfl, rfl, rfl⟩) fun _ => always_pure _
  · exact always_pure _

omit [Waker W] in
theorem appearsEmpty_keeps (c : RingHandle w) :
    (appearsEmpty c : Prog (RingState w T W) Bool).Always KeepsSlots := by
  unfold appearsEmpty
  split
  · exact always_bind (look_keeps fun _ => ⟨rfl, rfl, rfl, rfl⟩) fun _ => always_pure _
  · exact always_pure _

omit [Waker W] in
theorem availableItems_keeps (c : RingHandle w) :
    (availableItems c : Prog (RingState w T W) Nat).Always KeepsSlots := by
  unfold availableItems
  split
  · exact always_bind (look_keeps fun _ => ⟨rfl, rfl, rfl, rfl⟩) fun _ => always_pure _
  · exact always_pure _

omit [Waker W] in
theorem freeCount_keeps : (freeCount r : Prog (RingState w T W) (BitVec w)).Always KeepsSlots :=
  always_bind (look_keeps fun _ => ⟨rfl, rfl, rfl, rfl⟩) fun _ =>
    always_bind (look_keeps fun _ => ⟨rfl, rfl, rfl, rfl⟩) fun _ => always_pure _

omit [Waker W] in
theorem availableCount_keeps :
    (availableCount : Prog (RingState w T W) (BitVec w)).Always KeepsSlots :=
  always_bind (look_keeps fun _ => ⟨rfl, rfl, rfl, rfl⟩) fun _ =>
    always_bind (look_keeps fun _ => ⟨rfl, rfl, rfl, rfl⟩) fun _ => always_pure _

end Kept

section Push

variable {r : RingBuf w} {phase : Phase W}

/-- The producer signals nobody, and this is where its own slot is. -/
def PushAt (phase : Phase W) (s : RingState w T W) : Prop :=
  s.consumerSlot.signals () = none ∧ s.producerSlot.phase = phase

theorem pushSlots_stable (phase : Phase W) (pc : Option (SignalPc W)) :
    ((ringBoth r).contract .producer).Stable fun s : RingState w T W =>
      s.producerSlot.phase = phase ∧ s.consumerSlot.signals () = pc := by
  rintro s t - hst ⟨hphase, hpc⟩
  have hwait : PushRely s t := hst.2
  exact ⟨hwait.slot.phase.trans hphase, by rw [hwait.signals, hpc]⟩

theorem pushAt_stable (phase : Phase W) :
    ((ringBoth r).contract .producer).Stable (PushAt phase : RingState w T W → Prop) :=
  fun s t ht hst h => (pushSlots_stable phase none s t ht hst h.symm).symm

theorem pushKeeps {α : Type} {p : Prog (RingState w T W) α} (hp : p.Always KeepsSlots) :
    (pushDoing r).Triple (PushAt phase) p fun _ => PushAt phase := by
  have hdoes : ∀ {s t : RingState w T W}, KeepsSlots s t → PushDoes s t := by
    intro s t h
    refine ⟨by rw [h.producerSlot]; exact .same _, by rw [h.consumerSlot]; exact .same _,
      fun hquiet hsome => ?_, h.producerAlive, h.consumerAlive⟩
    rw [h.consumerSlot] at hsome
    exact absurd hquiet hsome
  refine Contract.doing_always (pushAt_stable phase) hdoes (fun _ h hs => ?_) hp
  exact ⟨by rw [h.consumerSlot]; exact hs.1, by rw [h.producerSlot]; exact hs.2⟩

theorem publishWrite_does {items : List T} (hne : items ≠ []) : (pushDoing r).Triple (PushAt phase)
    (store (RingState.publishWrite items)) fun _ (s : RingState w T W) =>
      s.producerSlot.phase = phase ∧ s.consumerSlot.signals () = some .load := by
  refine .store (pushAt_stable phase).doing (fun _ => (pushSlots_stable phase _).doing) fun s _ hs => ?_
  refine Contract.doing_keeps ⟨.same _, .begin _ hs.1, fun _ _ => ?_, rfl, rfl⟩
    fun _ => ⟨hs.2, SlotUse.beginSignal_signals_self _ _⟩
  have := List.length_pos_iff.mpr hne
  simp only [RingState.publishWrite, List.length_append]
  omega

theorem signalConsumer_does : (pushDoing r).Triple (fun s : RingState w T W =>
      s.producerSlot.phase = phase ∧ s.consumerSlot.signals () = some .load)
    signalConsumer fun _ => PushAt phase := by
  have hsignal : (pushDoing r).Triple (fun s : RingState w T W =>
      s.producerSlot.phase = phase ∧ s.consumerSlot.signals () = some .load) signalConsumer
      fun _ s => s.producerSlot.phase = phase ∧ s.consumerSlot.signals () = none := by
    refine signal_layer (P := fun s : RingState w T W => s.producerSlot.phase = phase)
      (fun _ _ => rfl) (fun pc => (pushSlots_stable phase pc).doing) fun s pc _ hs hpc => ?_
    refine Contract.doing_keeps ⟨.same _, .step _ pc hpc, fun hquiet => ?_, rfl, rfl⟩ fun _ => hs
    rw [hquiet] at hpc
    cases hpc
  exact hsignal.conseq (fun _ _ h => h) fun _ _ _ h => ⟨h.2, h.1⟩

theorem publishAndSignal_does (items : List T) (hne : items ≠ []) {α : Type} (a : α) :
    (pushDoing (W := W) r).Triple (PushAt phase) (do
      store (RingState.publishWrite items)
      signalConsumer
      pure a) fun _ => PushAt phase :=
  Layer.Triple.bind (publishWrite_does hne) fun _ =>
    Layer.Triple.bind signalConsumer_does fun _ => pushKeeps (always_pure a)

theorem tryPush_does (value : T) :
    (pushDoing (W := W) r).Triple (PushAt phase) (tryPush r value) fun _ => PushAt phase := by
  refine Layer.Triple.bind (pushKeeps (look_keeps fun _ => ⟨rfl, rfl, rfl, rfl⟩)) fun p => ?_
  refine Layer.Triple.bind (pushKeeps (appearsFull_keeps p)) fun full => ?_
  split
  · exact pushKeeps (always_pure _)
  · refine Layer.Triple.bind (pushKeeps (store_keeps fun _ => ⟨rfl, rfl, rfl, rfl⟩)) fun _ => ?_
    refine Layer.Triple.bind (pushKeeps (store_keeps fun _ => ⟨rfl, rfl, rfl, rfl⟩)) fun _ => ?_
    exact publishAndSignal_does [value] (by simp) _

theorem tryPushSlice_does (items : List T) :
    (pushDoing (W := W) r).Triple (PushAt phase) (tryPushSlice r items) fun _ => PushAt phase := by
  unfold tryPushSlice
  split
  · exact pushKeeps (always_pure _)
  rename_i hne
  refine Layer.Triple.bind (pushKeeps (look_keeps fun _ => ⟨rfl, rfl, rfl, rfl⟩)) fun p => ?_
  refine Layer.Triple.bind (pushKeeps (availableSpace_keeps p)) fun available => ?_
  split
  · exact pushKeeps (always_pure _)
  rename_i hsome
  have hpos : 0 < items.length := List.length_pos_iff.mpr fun h => hne (by rw [h]; rfl)
  refine Layer.Triple.bind (pushKeeps (copyItemsIn_keeps _ _)) fun _ => ?_
  refine Layer.Triple.bind (pushKeeps (store_keeps fun _ => ⟨rfl, rfl, rfl, rfl⟩)) fun _ => ?_
  refine publishAndSignal_does (items.take (min items.length available)) (fun h => ?_) _
  have hlen := congrArg List.length h
  rw [List.length_take, List.length_nil] at hlen
  omega

theorem armProducer_does (waker : W) : (pushDoing (T := T) r).Triple (PushAt .out)
    (armProducer waker) fun _ => PushAt .armed := by
  refine arm_layer (P := fun s : RingState w T W => s.consumerSlot.signals () = none)
    (fun _ _ => rfl) (fun s (hs : (pushDoing r).inv s) => hs.1.2.producer)
    (fun phase => (pushAt_stable phase).doing) ?_ ?_
  · intro s pc _ hs hphase
    refine Contract.doing_keeps ⟨.armStep _ _ hphase, .same _, fun hquiet hsome => ?_, rfl, rfl⟩
      fun _ => hs
    exact absurd hquiet hsome
  · intro s _ hs hout
    refine Contract.doing_keeps ⟨.beginArm _ _ hout, .same _, fun hquiet hsome => ?_, rfl, rfl⟩
      fun _ => hs
    exact absurd hquiet hsome

theorem disarmProducer_does : (pushDoing r).Triple (PushAt phase)
    (disarmProducer : Prog (RingState w T W) PUnit) fun _ => PushAt .out := by
  refine .store (pushAt_stable phase).doing (fun _ => (pushAt_stable _).doing) fun s _ hs => ?_
  refine Contract.doing_keeps ⟨.disarm _, .same _, fun hquiet hsome => ?_, rfl, rfl⟩
    fun _ => ⟨hs.1, rfl⟩
  exact absurd hquiet hsome

/-- The poll has returned, and the producer signals nobody. -/
def PushQuiet (s : RingState w T W) : Prop := s.consumerSlot.signals () = none

theorem pushEnds {α : Type} {p : Prog (RingState w T W) α} (hp : p.Always KeepsSlots) :
    (pushDoing r).Triple (PushAt phase) p fun _ => PushQuiet :=
  (pushKeeps hp).conseq (fun _ _ h => h) fun _ _ _ h => h.1

theorem pollPushFuture_does (waker : W) (value : T) :
    (pushDoing r).Triple (PushAt .out) (pollPushFuture r waker value) fun _ => PushQuiet := by
  refine Layer.Triple.bind (tryPush_does value) fun out => ?_
  split
  · exact pushEnds (store_keeps fun _ => ⟨rfl, rfl, rfl, rfl⟩)
  · refine Layer.Triple.bind (armProducer_does waker) fun _ => ?_
    refine Layer.Triple.bind (tryPush_does _) fun again => ?_
    split
    · exact Layer.Triple.bind disarmProducer_does fun _ => pushEnds (store_keeps fun _ => ⟨rfl, rfl, rfl, rfl⟩)
    · exact pushEnds (store_keeps fun _ => ⟨rfl, rfl, rfl, rfl⟩)

theorem pollPushSliceFuture_does (waker : W) (items : List T) (pushedSoFar : Nat) :
    (pushDoing r).Triple (PushAt .out) (pollPushSliceFuture r waker items pushedSoFar)
      fun _ => PushQuiet := by
  refine Layer.Triple.bind (tryPushSlice_does _) fun pushed => ?_
  split
  · exact pushEnds (store_keeps fun _ => ⟨rfl, rfl, rfl, rfl⟩)
  · refine Layer.Triple.bind (pushKeeps (store_keeps fun _ => ⟨rfl, rfl, rfl, rfl⟩)) fun _ => ?_
    refine Layer.Triple.bind (armProducer_does waker) fun _ => ?_
    refine Layer.Triple.bind (tryPushSlice_does _) fun again => ?_
    split
    · exact Layer.Triple.bind disarmProducer_does fun _ => pushEnds (store_keeps fun _ => ⟨rfl, rfl, rfl, rfl⟩)
    · refine Layer.Triple.bind (pushKeeps (store_keeps fun _ => ⟨rfl, rfl, rfl, rfl⟩)) fun _ => ?_
      exact pushEnds (store_keeps fun _ => ⟨rfl, rfl, rfl, rfl⟩)

theorem pollPush_does (waker : W) (future : PushFuture T) :
    (pushDoing r).Triple (PushAt .out) (pollPush r waker future) fun _ => PushQuiet := by
  cases future with
  | push value =>
    refine Layer.Triple.bind (tryPush_does value) fun out => ?_
    split
    · exact pushEnds (store_keeps fun _ => ⟨rfl, rfl, rfl, rfl⟩)
    · exact pollPushFuture_does waker _
  | pushing value => exact pollPushFuture_does waker value
  | pushSlice items =>
    rw [pollPush]
    split
    · refine Layer.Triple.bind (pushKeeps (store_keeps fun _ => ⟨rfl, rfl, rfl, rfl⟩)) fun _ => ?_
      exact pushEnds (store_keeps fun _ => ⟨rfl, rfl, rfl, rfl⟩)
    · refine Layer.Triple.bind (tryPushSlice_does items) fun n => ?_
      refine Layer.Triple.bind (pushKeeps (store_keeps fun _ => ⟨rfl, rfl, rfl, rfl⟩)) fun _ => ?_
      split
      · exact pushEnds (store_keeps fun _ => ⟨rfl, rfl, rfl, rfl⟩)
      · exact pollPushSliceFuture_does waker items n
  | slicing items pushedSoFar => exact pollPushSliceFuture_does waker items pushedSoFar

theorem pushOk {p : Prog (RingState w T W) PUnit} {Q : PUnit → RingState w T W → Prop}
    {t : RingState w T W} (hp : (pushDoing r).Triple (PushAt phase) p Q)
    (hI : (ringBoth r).inv t) (ht : PushAt phase t) : (pushDoing r).Ok (fun _ _ => True) p t :=
  (hp t (Contract.doing_inv hI) ht).mono fun _ _ _ _ => trivial

theorem producerCall_does {s t : RingState w T W} {op : RingOp T W} {p : Prog (RingState w T W) PUnit}
    (hs : PushAt phase s) (hcall : producerCall r s op = some (t, p)) (hI : (ringBoth r).inv t) :
    PushCalled op s t ∧ (pushDoing r).Ok (fun _ _ => True) p t := by
  cases op <;> simp only [producerCall, Option.some.injEq, reduceCtorEq, Prod.mk.injEq] at hcall <;>
    obtain ⟨rfl, rfl⟩ := hcall
  case tryPush value =>
    refine ⟨⟨rfl, rfl, fun _ => ⟨rfl, rfl⟩⟩, pushOk (Q := fun _ => PushAt phase)
      (Layer.Triple.bind (tryPush_does value) fun out => ?_) hI hs⟩
    cases out <;> exact pushKeeps (store_keeps fun _ => ⟨rfl, rfl, rfl, rfl⟩)
  case tryPushSlice items =>
    refine ⟨⟨rfl, rfl, fun _ => ⟨rfl, rfl⟩⟩, pushOk (Q := fun _ => PushAt phase)
      (Layer.Triple.bind (tryPushSlice_does items) fun n => ?_) hI hs⟩
    exact pushKeeps (store_keeps fun _ => ⟨rfl, rfl, rfl, rfl⟩)
  case freeCount =>
    refine ⟨⟨rfl, rfl, fun _ => ⟨rfl, rfl⟩⟩, pushOk (pushKeeps ?_) hI hs⟩
    exact always_bind (freeCount_keeps) fun _ => store_keeps fun _ => ⟨rfl, rfl, rfl, rfl⟩
  case producerIsEmpty =>
    refine ⟨⟨rfl, rfl, fun _ => ⟨rfl, rfl⟩⟩, pushOk (pushKeeps ?_) hI hs⟩
    exact always_bind (look_keeps fun _ => ⟨rfl, rfl, rfl, rfl⟩) fun _ =>
      always_bind (look_keeps fun _ => ⟨rfl, rfl, rfl, rfl⟩) fun _ => store_keeps fun _ => ⟨rfl, rfl, rfl, rfl⟩
  case producerIsFull =>
    refine ⟨⟨rfl, rfl, fun _ => ⟨rfl, rfl⟩⟩, pushOk (pushKeeps ?_) hI hs⟩
    exact always_bind (freeCount_keeps) fun _ => store_keeps fun _ => ⟨rfl, rfl, rfl, rfl⟩
  case push value => exact ⟨⟨rfl, rfl, fun _ => ⟨rfl, rfl⟩⟩, pushOk (pushKeeps (always_pure _)) hI hs⟩
  case pushSlice items => exact ⟨⟨rfl, rfl, fun _ => ⟨rfl, rfl⟩⟩, pushOk (pushKeeps (always_pure _)) hI hs⟩
  case dropProducer => exact ⟨⟨rfl, rfl, fun h => absurd rfl h⟩, pushOk (pushKeeps (always_pure _)) hI hs⟩

theorem producer_does {s t : RingState w T W} {op : RingOp T W} {p : Prog (RingState w T W) PUnit}
    (hrest : PushRest r s) (hcall : ringCall r .producer op s = some (t, p))
    (hI : (ringBoth r).inv t) : PushCalled op s t ∧ (pushDoing r).Ok (fun _ _ => True) p t := by
  simp only [ringCall] at hcall
  split at hcall
  · split at hcall
    · exact producerCall_does ⟨hrest.quiet, rfl⟩ hcall hI
    · cases hcall
      exact ⟨⟨rfl, rfl, fun _ => ⟨rfl, rfl⟩⟩, pushOk (pollPush_does _ _) hI ⟨hrest.quiet, rfl⟩⟩
    · cases hcall
      exact ⟨⟨rfl, rfl, fun _ => ⟨rfl, rfl⟩⟩, pushOk (pushKeeps (always_pure _)) hI ⟨hrest.quiet, rfl⟩⟩
    · cases hcall
  · cases hcall

end Push

section Pop

variable {r : RingBuf w} {phase : Phase W}

def PopAt (phase : Phase W) (s : RingState w T W) : Prop :=
  s.producerSlot.signals () = none ∧ s.consumerSlot.phase = phase

theorem popSlots_stable (phase : Phase W) (pc : Option (SignalPc W)) :
    ((ringBoth r).contract .consumer).Stable fun s : RingState w T W =>
      s.consumerSlot.phase = phase ∧ s.producerSlot.signals () = pc := by
  rintro s t - hst ⟨hphase, hpc⟩
  have hwait : PopRely s t := hst.2
  exact ⟨hwait.slot.phase.trans hphase, by rw [hwait.signals, hpc]⟩

theorem popAt_stable (phase : Phase W) :
    ((ringBoth r).contract .consumer).Stable (PopAt phase : RingState w T W → Prop) :=
  fun s t ht hst h => (popSlots_stable phase none s t ht hst h.symm).symm

theorem popKeeps {α : Type} {p : Prog (RingState w T W) α} (hp : p.Always KeepsSlots) :
    (popDoing r).Triple (PopAt phase) p fun _ => PopAt phase := by
  have hdoes : ∀ {s t : RingState w T W}, KeepsSlots s t → PopDoes s t := by
    intro s t h
    refine ⟨by rw [h.consumerSlot]; exact .same _, by rw [h.producerSlot]; exact .same _,
      fun hquiet hsome => ?_, h.producerAlive, h.consumerAlive⟩
    rw [h.producerSlot] at hsome
    exact absurd hquiet hsome
  refine Contract.doing_always (popAt_stable phase) hdoes (fun _ h hs => ?_) hp
  exact ⟨by rw [h.producerSlot]; exact hs.1, by rw [h.consumerSlot]; exact hs.2⟩

theorem publishRead_does {items : List (Option T)} (hne : items ≠ []) :
    (popDoing r).Triple (PopAt phase) (store (RingState.publishRead items true))
      fun _ (s : RingState w T W) =>
        s.consumerSlot.phase = phase ∧ s.producerSlot.signals () = some .load := by
  refine .store (popAt_stable phase).doing (fun _ => (popSlots_stable phase _).doing) fun s _ hs => ?_
  refine Contract.doing_keeps ⟨.same _, .begin _ hs.1, fun _ _ => ?_, rfl, rfl⟩
    fun _ => ⟨hs.2, SlotUse.beginSignal_signals_self _ _⟩
  have := List.length_pos_iff.mpr hne
  simp only [RingState.publishRead, List.length_append]
  omega

theorem signalProducer_does : (popDoing r).Triple (fun s : RingState w T W =>
      s.consumerSlot.phase = phase ∧ s.producerSlot.signals () = some .load)
    signalProducer fun _ => PopAt phase := by
  have hsignal : (popDoing r).Triple (fun s : RingState w T W =>
      s.consumerSlot.phase = phase ∧ s.producerSlot.signals () = some .load) signalProducer
      fun _ s => s.consumerSlot.phase = phase ∧ s.producerSlot.signals () = none := by
    refine signal_layer (P := fun s : RingState w T W => s.consumerSlot.phase = phase)
      (fun _ _ => rfl) (fun pc => (popSlots_stable phase pc).doing) fun s pc _ hs hpc => ?_
    refine Contract.doing_keeps ⟨.same _, .step _ pc hpc, fun hquiet => ?_, rfl, rfl⟩ fun _ => hs
    rw [hquiet] at hpc
    cases hpc
  exact hsignal.conseq (fun _ _ h => h) fun _ _ _ h => ⟨h.2, h.1⟩

theorem publishAndSignalProducer_does (items : List (Option T)) (hne : items ≠ []) {α : Type} (a : α) :
    (popDoing (W := W) r).Triple (PopAt phase) (do
      store (RingState.publishRead items true)
      signalProducer
      pure a) fun _ => PopAt phase :=
  Layer.Triple.bind (publishRead_does hne) fun _ =>
    Layer.Triple.bind signalProducer_does fun _ => popKeeps (always_pure a)

theorem tryPop_does :
    (popDoing (W := W) r).Triple (PopAt phase) (tryPop (T := T) r) fun _ => PopAt phase := by
  refine Layer.Triple.bind (popKeeps (look_keeps fun _ => ⟨rfl, rfl, rfl, rfl⟩)) fun c => ?_
  refine Layer.Triple.bind (popKeeps (appearsEmpty_keeps c)) fun empty => ?_
  split
  · exact popKeeps (always_pure _)
  · refine Layer.Triple.bind (popKeeps (look_keeps fun _ => ⟨rfl, rfl, rfl, rfl⟩)) fun value => ?_
    refine Layer.Triple.bind (popKeeps (store_keeps fun _ => ⟨rfl, rfl, rfl, rfl⟩)) fun _ => ?_
    exact publishAndSignalProducer_does [value] (by simp) _

theorem copyOut_does (i n : Nat) : (popDoing (W := W) r).Triple (PopAt phase) (copyOut (T := T) r i n)
    fun xs s => xs.length = n ∧ PopAt phase s := by
  induction n generalizing i with
  | zero => exact .ret (popAt_stable phase).doing fun _ _ h => ⟨rfl, h⟩
  | succ n ih =>
    refine Layer.Triple.bind (popKeeps (look_keeps fun _ => ⟨rfl, rfl, rfl, rfl⟩)) fun x => ?_
    refine Layer.Triple.bind (ih (i + 1)) fun xs => ?_
    rintro s hs ⟨hlen, h⟩
    exact Layer.Triple.ret (popAt_stable phase).doing
      (fun _ _ h => ⟨by rw [List.length_cons, hlen], h⟩) s hs h

theorem copyItemsOut_does (i toPop : Nat) :
    (popDoing (W := W) r).Triple (PopAt phase) (copyItemsOut (T := T) r i toPop)
      fun xs s => xs.length = toPop ∧ PopAt phase s := by
  refine Layer.Triple.bind (copyOut_does i _) fun first => ?_
  rintro s hs ⟨hfirst, h⟩
  split
  · refine (copyOut_does 0 _ s hs h).bind fun second => ?_
    rintro s hs ⟨hsecond, h⟩
    refine Layer.Triple.ret (popAt_stable phase).doing (fun _ _ h => ⟨?_, h⟩) s hs h
    rw [List.length_append, hfirst, hsecond]
    omega
  · exact Layer.Triple.ret (popAt_stable phase).doing (fun _ _ h => ⟨by omega, h⟩) s hs h

theorem popItems_does (read : BitVec w) {toPop : Nat} (hpos : 0 < toPop) :
    (popDoing (W := W) r).Triple (PopAt phase) (popItems (T := T) r read toPop)
      fun _ => PopAt phase := by
  refine Layer.Triple.bind (copyItemsOut_does _ _) fun items => ?_
  rintro s hs ⟨hlen, h⟩
  have hset : (popDoing r).Triple (PopAt phase)
      (setCachedRead (read + BitVec.ofNat w toPop) : Prog (RingState w T W) PUnit)
      fun _ => PopAt phase := popKeeps (store_keeps fun _ => ⟨rfl, rfl, rfl, rfl⟩)
  refine hset.bind (fun _ => ?_) s hs h
  exact publishAndSignalProducer_does items (List.length_pos_iff.mp (by omega)) _

theorem tryPopSlice_does (items : List (Option T)) :
    (popDoing (W := W) r).Triple (PopAt phase) (tryPopSlice r items) fun _ => PopAt phase := by
  unfold tryPopSlice
  split
  · exact popKeeps (always_pure _)
  rename_i hne
  have hpos : 0 < items.length := List.length_pos_iff.mpr fun h => hne (by rw [h]; rfl)
  refine Layer.Triple.bind (popKeeps (look_keeps fun _ => ⟨rfl, rfl, rfl, rfl⟩)) fun c => ?_
  refine Layer.Triple.bind (popKeeps (availableItems_keeps c)) fun available => ?_
  split
  · exact popKeeps (always_pure _)
  exact Layer.Triple.bind (popItems_does _ (by omega)) fun _ => popKeeps (always_pure _)

theorem armConsumer_does (waker : W) : (popDoing (T := T) r).Triple (PopAt .out)
    (armConsumer waker) fun _ => PopAt .armed := by
  refine arm_layer (P := fun s : RingState w T W => s.producerSlot.signals () = none)
    (fun _ _ => rfl) (fun s (hs : (popDoing r).inv s) => hs.1.2.consumer)
    (fun phase => (popAt_stable phase).doing) ?_ ?_
  · intro s pc _ hs hphase
    refine Contract.doing_keeps ⟨.armStep _ _ hphase, .same _, fun hquiet hsome => ?_, rfl, rfl⟩
      fun _ => hs
    exact absurd hquiet hsome
  · intro s _ hs hout
    refine Contract.doing_keeps ⟨.beginArm _ _ hout, .same _, fun hquiet hsome => ?_, rfl, rfl⟩
      fun _ => hs
    exact absurd hquiet hsome

theorem disarmConsumer_does : (popDoing r).Triple (PopAt phase)
    (disarmConsumer : Prog (RingState w T W) PUnit) fun _ => PopAt .out := by
  refine .store (popAt_stable phase).doing (fun _ => (popAt_stable _).doing) fun s _ hs => ?_
  refine Contract.doing_keeps ⟨.disarm _, .same _, fun hquiet hsome => ?_, rfl, rfl⟩
    fun _ => ⟨hs.1, rfl⟩
  exact absurd hquiet hsome

/-- The poll has returned, and the consumer signals nobody. -/
def PopQuiet (s : RingState w T W) : Prop := s.producerSlot.signals () = none

theorem popEnds {α : Type} {p : Prog (RingState w T W) α} (hp : p.Always KeepsSlots) :
    (popDoing r).Triple (PopAt phase) p fun _ => PopQuiet :=
  (popKeeps hp).conseq (fun _ _ h => h) fun _ _ _ h => h.1

theorem pollPopFuture_does (waker : W) :
    (popDoing (T := T) r).Triple (PopAt .out) (pollPopFuture r waker) fun _ => PopQuiet := by
  refine Layer.Triple.bind tryPop_does fun out => ?_
  split
  · exact popEnds (store_keeps fun _ => ⟨rfl, rfl, rfl, rfl⟩)
  · refine Layer.Triple.bind (armConsumer_does waker) fun _ => ?_
    refine Layer.Triple.bind tryPop_does fun again => ?_
    split
    · exact Layer.Triple.bind disarmConsumer_does fun _ => popEnds (store_keeps fun _ => ⟨rfl, rfl, rfl, rfl⟩)
    · exact popEnds (store_keeps fun _ => ⟨rfl, rfl, rfl, rfl⟩)

theorem pollPopSliceFuture_does (waker : W) (items : List (Option T)) (poppedSoFar : Nat) :
    (popDoing r).Triple (PopAt .out) (pollPopSliceFuture r waker items poppedSoFar)
      fun _ => PopQuiet := by
  refine Layer.Triple.bind (tryPopSlice_does _) fun first => ?_
  obtain ⟨popped, rest⟩ := first
  dsimp only
  split
  · exact popEnds (store_keeps fun _ => ⟨rfl, rfl, rfl, rfl⟩)
  · refine Layer.Triple.bind (popKeeps (store_keeps fun _ => ⟨rfl, rfl, rfl, rfl⟩)) fun _ => ?_
    refine Layer.Triple.bind (armConsumer_does waker) fun _ => ?_
    refine Layer.Triple.bind (tryPopSlice_does _) fun second => ?_
    obtain ⟨again, rest⟩ := second
    dsimp only
    split
    · exact Layer.Triple.bind disarmConsumer_does fun _ => popEnds (store_keeps fun _ => ⟨rfl, rfl, rfl, rfl⟩)
    · refine Layer.Triple.bind (popKeeps (store_keeps fun _ => ⟨rfl, rfl, rfl, rfl⟩)) fun _ => ?_
      exact popEnds (store_keeps fun _ => ⟨rfl, rfl, rfl, rfl⟩)

theorem pollPop_does (waker : W) (future : PopFuture T) :
    (popDoing r).Triple (PopAt .out) (pollPop r waker future) fun _ => PopQuiet := by
  cases future with
  | pop =>
    refine Layer.Triple.bind tryPop_does fun out => ?_
    split
    · exact popEnds (store_keeps fun _ => ⟨rfl, rfl, rfl, rfl⟩)
    · exact pollPopFuture_does waker
  | popping => exact pollPopFuture_does waker
  | popSlice items =>
    rw [pollPop]
    split
    · refine Layer.Triple.bind (popKeeps (store_keeps fun _ => ⟨rfl, rfl, rfl, rfl⟩)) fun _ => ?_
      exact popEnds (store_keeps fun _ => ⟨rfl, rfl, rfl, rfl⟩)
    · refine Layer.Triple.bind (tryPopSlice_does items) fun front => ?_
      refine Layer.Triple.bind (popKeeps (store_keeps fun _ => ⟨rfl, rfl, rfl, rfl⟩)) fun _ => ?_
      split
      · exact popEnds (store_keeps fun _ => ⟨rfl, rfl, rfl, rfl⟩)
      · exact pollPopSliceFuture_does waker _ _
  | slicing items poppedSoFar => exact pollPopSliceFuture_does waker items poppedSoFar

theorem popOk {p : Prog (RingState w T W) PUnit} {Q : PUnit → RingState w T W → Prop}
    {t : RingState w T W} (hp : (popDoing r).Triple (PopAt phase) p Q)
    (hI : (ringBoth r).inv t) (ht : PopAt phase t) : (popDoing r).Ok (fun _ _ => True) p t :=
  (hp t (Contract.doing_inv hI) ht).mono fun _ _ _ _ => trivial

theorem consumerCall_does {s t : RingState w T W} {op : RingOp T W} {p : Prog (RingState w T W) PUnit}
    (hs : PopAt phase s) (hcall : consumerCall r s op = some (t, p)) (hI : (ringBoth r).inv t) :
    PopCalled op s t ∧ (popDoing r).Ok (fun _ _ => True) p t := by
  cases op <;> simp only [consumerCall, Option.some.injEq, reduceCtorEq, Prod.mk.injEq] at hcall <;>
    obtain ⟨rfl, rfl⟩ := hcall
  case tryPop =>
    refine ⟨⟨rfl, rfl, fun _ => ⟨rfl, rfl⟩⟩, popOk (Q := fun _ => PopAt phase)
      (Layer.Triple.bind tryPop_does fun out => ?_) hI hs⟩
    exact popKeeps (store_keeps fun _ => ⟨rfl, rfl, rfl, rfl⟩)
  case tryPopSlice items =>
    refine ⟨⟨rfl, rfl, fun _ => ⟨rfl, rfl⟩⟩, popOk (Q := fun _ => PopAt phase)
      (Layer.Triple.bind (tryPopSlice_does _) fun n => ?_) hI hs⟩
    exact popKeeps (store_keeps fun _ => ⟨rfl, rfl, rfl, rfl⟩)
  case availableCount =>
    refine ⟨⟨rfl, rfl, fun _ => ⟨rfl, rfl⟩⟩, popOk (popKeeps ?_) hI hs⟩
    exact always_bind availableCount_keeps fun _ => store_keeps fun _ => ⟨rfl, rfl, rfl, rfl⟩
  case consumerIsEmpty =>
    refine ⟨⟨rfl, rfl, fun _ => ⟨rfl, rfl⟩⟩, popOk (popKeeps ?_) hI hs⟩
    exact always_bind availableCount_keeps fun _ => store_keeps fun _ => ⟨rfl, rfl, rfl, rfl⟩
  case consumerIsFull =>
    refine ⟨⟨rfl, rfl, fun _ => ⟨rfl, rfl⟩⟩, popOk (popKeeps ?_) hI hs⟩
    exact always_bind availableCount_keeps fun _ => store_keeps fun _ => ⟨rfl, rfl, rfl, rfl⟩
  case pop => exact ⟨⟨rfl, rfl, fun _ => ⟨rfl, rfl⟩⟩, popOk (popKeeps (always_pure _)) hI hs⟩
  case popSlice items => exact ⟨⟨rfl, rfl, fun _ => ⟨rfl, rfl⟩⟩, popOk (popKeeps (always_pure _)) hI hs⟩
  case dropConsumer => exact ⟨⟨rfl, rfl, fun h => absurd rfl h⟩, popOk (popKeeps (always_pure _)) hI hs⟩

theorem consumer_does {s t : RingState w T W} {op : RingOp T W} {p : Prog (RingState w T W) PUnit}
    (hrest : PopRest s) (hcall : ringCall r .consumer op s = some (t, p))
    (hI : (ringBoth r).inv t) : PopCalled op s t ∧ (popDoing r).Ok (fun _ _ => True) p t := by
  simp only [ringCall] at hcall
  split at hcall
  · split at hcall
    · exact consumerCall_does ⟨hrest.quiet, rfl⟩ hcall hI
    · cases hcall
      exact ⟨⟨rfl, rfl, fun _ => ⟨rfl, rfl⟩⟩, popOk (pollPop_does _ _) hI ⟨hrest.quiet, rfl⟩⟩
    · cases hcall
      exact ⟨⟨rfl, rfl, fun _ => ⟨rfl, rfl⟩⟩, popOk (popKeeps (always_pure _)) hI ⟨hrest.quiet, rfl⟩⟩
    · cases hcall
  · cases hcall

end Pop

/-- Every step in every run is one of these. -/
theorem ring_does (r : RingBuf w) :
    (ringBoth r).Does (ringThreads (T := T) (W := W) r) RingDoes where
  refl := by
    intro i s
    cases i with
    | producer => exact ⟨.same _, .same _, fun h hsome => absurd h hsome, rfl, rfl⟩
    | consumer => exact ⟨.same _, .same _, fun h hsome => absurd h hsome, rfl, rfl⟩
  start := by
    intro i op s t p _ hrest hstart hI
    cases i with
    | producer => exact producer_does hrest.2 hstart hI
    | consumer => exact consumer_does hrest.2 hstart hI

end Cynosure.SiteD.Ring
