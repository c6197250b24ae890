import Cynosure.SiteD.RingBufWaits

/-! # The producer parks only on a full ring buffer

A push that fails, and a transfer that is cut short, leave nothing of the room that the
cached read index promised. The next attempt therefore loads the index again, and when
that attempt is the one after arming, the load tells of every take that no signal
announces.
-/

namespace Cynosure.SiteD.Ring

open Prog

variable {w : Nat} {T W : Type} [Waker W] {r : RingBuf w}

/-- What the producer knows of its slot and its future. -/
def PushOwn (A : Phase W → Option W → Option (PushFuture T) → Prop) (s : RingState w T W) : Prop :=
  A s.producerSlot.phase s.producerSlot.current s.pushFuture ∧ s.consumerSlot.signals () = none

/-- The cached read index is the count `c`; when `fresh` it was loaded since the slot was armed,
and only a signal can tell of a later one. -/
structure SeenRead (fresh : Prop) (c : Nat) (s : RingState w T W) : Prop where
  cached : s.producer.cachedRead = BitVec.ofNat w c
  le : c ≤ s.taken.length
  fresh : fresh → s.producerSlot.published = false → s.taken.length = c

/-- As far as the cached index tells, the ring is full. -/
def SeenFull (r : RingBuf w) (fresh : Prop) (s : RingState w T W) : Prop :=
  ∃ c, SeenRead fresh c s ∧ s.accepted.length = c + r.capacity.toNat

section Stable

variable {A : Phase W → Option W → Option (PushFuture T) → Prop} {fresh : Prop} {c n : Nat}

theorem pushOwn_stable : (pushLayer r).Stable (PushOwn (w := w) A) := by
  intro s t _ hst h
  have hwait : PushRely s t := hst.2
  rw [PushOwn, hwait.slot.phase, hwait.slot.current, hwait.future, hwait.signals]
  exact h

theorem seenRead_stable :
    (pushLayer r).Stable (SeenRead fresh c : RingState w T W → Prop) := by
  intro s t _ hst h
  have hbase : ProducerRely s t := hst.1
  have hwait : PushRely s t := hst.2
  refine ⟨by rw [hbase.handle, h.cached], h.le.trans hbase.taken, fun hf hp => ?_⟩
  rw [hwait.taken hp]
  exact h.fresh hf (hwait.slot.published hp)

theorem accepted_stable :
    (pushLayer r).Stable fun s : RingState w T W => s.accepted.length = n := by
  intro s t _ hst h
  have hbase : ProducerRely s t := hst.1
  rw [hbase.accepted, h]

theorem seenFull_stable : (pushLayer r).Stable (SeenFull r fresh : RingState w T W → Prop) := by
  rintro s t hI hst ⟨c, h, hlen⟩
  exact ⟨c, seenRead_stable s t hI hst h, accepted_stable s t hI hst hlen⟩

omit [Waker W] in
theorem SeenRead.weaken {s : RingState w T W} {fresh' : Prop} (h : SeenRead fresh c s)
    (hf : fresh' → fresh) : SeenRead fresh' c s :=
  ⟨h.cached, h.le, fun hf' => h.fresh (hf hf')⟩

theorem handleIs_stable (p : RingHandle w) :
    (pushLayer r).Stable (HandleIs (r := r) p : RingState w T W → Prop) :=
  .of_base (HandleIs.stable p)

end Stable

section Transfer

variable {A : Phase W → Option W → Option (PushFuture T) → Prop} {fresh : Prop} {c n : Nat}

/-- The producer is transferring items, with `n` published so far. -/
structure Transferring (A : Phase W → Option W → Option (PushFuture T) → Prop) (fresh : Prop)
    (c n : Nat) (s : RingState w T W) : Prop where
  own : A s.producerSlot.phase s.producerSlot.current s.pushFuture
  seen : SeenRead fresh c s
  accepted : s.accepted.length = n

theorem transferring_stable (pc : Option (SignalPc W)) : (pushLayer r).Stable
    fun s : RingState w T W => Transferring A fresh c n s ∧ s.consumerSlot.signals () = pc := by
  intro s t hI hst ⟨h, hpc⟩
  have hwait : PushRely s t := hst.2
  refine ⟨⟨?_, seenRead_stable s t hI hst h.seen, accepted_stable s t hI hst h.accepted⟩,
    by rw [hwait.signals, hpc]⟩
  rw [hwait.slot.phase, hwait.slot.current, hwait.future]
  exact h.own

/-- The writes of slots and of the producer's own index. -/
theorem transferStep_layer {f : RingState w T W → RingState w T W} (hf : ∀ s, SameSlots s (f s))
    (hcache : ∀ s, (f s).producer.cachedRead = s.producer.cachedRead) : (pushLayer r).Triple
      (fun s => Transferring A fresh c n s ∧ s.consumerSlot.signals () = none) (store f)
      fun _ s => Transferring A fresh c n s ∧ s.consumerSlot.signals () = none := by
  refine pushSame_layer (transferring_stable none) (transferring_stable none) hf ?_
  rintro s ⟨h, hquiet⟩
  have hs := hf s
  refine ⟨⟨?_, ⟨by rw [hcache, h.seen.cached], by rw [hs.taken]; exact h.seen.le, ?_⟩,
    by rw [hs.accepted, h.accepted]⟩, by rw [hs.consumerSlot, hquiet]⟩
  · rw [hs.producerSlot, hs.pushFuture]
    exact h.own
  · rw [hs.producerSlot, hs.taken]
    exact h.seen.fresh

theorem copyIn_layer (items : List T) (i : Nat) : (pushLayer r).Triple
    (fun s : RingState w T W => Transferring A fresh c n s ∧ s.consumerSlot.signals () = none)
    (copyIn r i items)
    fun _ s => Transferring A fresh c n s ∧ s.consumerSlot.signals () = none := by
  induction items generalizing i with
  | nil => exact .ret (transferring_stable none) fun _ _ h => h
  | cons x xs ih =>
    refine Layer.Triple.bind (transferStep_layer (fun _ => by constructor <;> rfl) fun _ => rfl) ?_
    exact fun _ => ih (i + 1)

theorem publishWrite_layer (items : List T) : (pushLayer r).Triple
    (fun s : RingState w T W => Transferring A fresh c n s ∧ s.consumerSlot.signals () = none)
    (store (RingState.publishWrite items))
    fun _ s => Transferring A fresh c (n + items.length) s ∧
      s.consumerSlot.signals () = some .load := by
  refine .store (transferring_stable none) (fun _ => transferring_stable (some .load)) ?_
  rintro s hI ⟨h, hquiet⟩ - -
  refine ⟨⟨hI.2.producer, hI.2.consumer.beginSignal hquiet⟩,
    pushGuar ⟨rfl, SlotUse.sees_beginSignal _ _, rfl, fun hp => by cases hp⟩,
    ⟨h.own, ⟨h.seen.cached, h.seen.le, h.seen.fresh⟩, ?_⟩, SlotUse.beginSignal_signals_self _ _⟩
  simp [RingState.publishWrite, h.accepted]

theorem signalTransfer_layer : (pushLayer r).Triple
    (fun s : RingState w T W => Transferring A fresh c n s ∧ s.consumerSlot.signals () = some .load)
    signalConsumer
    fun _ s => Transferring A fresh c n s ∧ s.consumerSlot.signals () = none :=
  signalConsumer_layer transferring_stable fun _ _ h =>
    ⟨h.own, ⟨h.seen.cached, h.seen.le, h.seen.fresh⟩, h.accepted⟩

theorem pushItems_layer (write : BitVec w) (items : List T) : (pushLayer r).Triple
    (fun s : RingState w T W => Transferring A fresh c n s ∧ s.consumerSlot.signals () = none)
    (pushItems r write items)
    fun pushed s => pushed = items.length ∧ Transferring A fresh c (n + items.length) s ∧
      s.consumerSlot.signals () = none := by
  unfold pushItems copyItemsIn
  refine Layer.Triple.bind (R := fun _ s => Transferring A fresh c n s ∧
    s.consumerSlot.signals () = none) ?_ fun _ => ?_
  · apply (copyIn_layer _ _).bind
    intro _
    split
    · exact copyIn_layer _ _
    · exact .ret (transferring_stable none) fun _ _ h => h
  refine Layer.Triple.bind (transferStep_layer (fun _ => by constructor <;> rfl) fun _ => rfl)
    fun _ => ?_
  apply (publishWrite_layer items).bind
  intro _
  apply signalTransfer_layer.bind
  exact fun _ => .ret (transferring_stable none) fun _ _ h => ⟨rfl, h⟩

theorem pushOne_layer (write : BitVec w) (value : T) : (pushLayer r).Triple
    (fun s : RingState w T W => Transferring A fresh c n s ∧ s.consumerSlot.signals () = none)
    (do
      store (RingState.writeSlot r (write &&& r.mask).toNat value)
      setCachedWrite (write + 1)
      store (RingState.publishWrite [value])
      signalConsumer
      pure (Except.ok () : Except T Unit))
    fun out s => out = .ok () ∧ PushOwn A s := by
  refine Layer.Triple.bind (transferStep_layer (fun _ => by constructor <;> rfl) fun _ => rfl)
    fun _ => ?_
  refine Layer.Triple.bind (transferStep_layer (fun _ => by constructor <;> rfl) fun _ => rfl)
    fun _ => ?_
  apply (publishWrite_layer [value]).bind
  intro _
  apply signalTransfer_layer.bind
  exact fun _ => .ret (transferring_stable none) fun _ _ h => ⟨rfl, h.1.own, h.2⟩

end Transfer

section Attempt

variable {A : Phase W → Option W → Option (PushFuture T) → Prop} {fresh : Prop} {c n : Nat}
  {p : RingHandle w}

/-- What a load of the read index has shown. -/
def ReadLoaded (r : RingBuf w) (s : RingState w T W) : Prop :=
  ∃ c, SeenRead True c s ∧ c ≤ s.accepted.length ∧ s.accepted.length ≤ c + r.capacity.toNat

theorem readLoaded_stable : (pushLayer r).Stable (ReadLoaded r : RingState w T W → Prop) := by
  rintro s t hI hst ⟨c, hseen, hle, hbound⟩
  have hbase : ProducerRely s t := hst.1
  refine ⟨c, seenRead_stable s t hI hst hseen, ?_⟩
  rw [hbase.accepted]
  exact ⟨hle, hbound⟩

/-- What a producer in a call knows of its handle, its slot and the ring. -/
def PushLooks (p : RingHandle w) (A : Phase W → Option W → Option (PushFuture T) → Prop)
    (s : RingState w T W) : Prop :=
  HandleIs (r := r) p s ∧ PushOwn A s

theorem pushLooks_stable : (pushLayer r).Stable (PushLooks (r := r) p A : RingState w T W → Prop) :=
  .and (handleIs_stable p) pushOwn_stable

theorem loadReadIndex_layer : (pushLayer r).Triple
    (PushLooks (r := r) p A : RingState w T W → Prop) loadReadIndex
    fun read s => PushLooks (r := r) { p with cachedRead := read } A s ∧ ReadLoaded r s := by
  have hload : (pushLayer r).Triple (PushLooks (r := r) p A : RingState w T W → Prop) loadReadIndex
      fun _ s => PushOwn A s ∧ ReadLoaded r s := by
    refine .exchange pushLooks_stable (fun _ => .and pushOwn_stable readLoaded_stable) ?_
    rintro s hI ⟨-, hown⟩ - -
    exact ⟨⟨hI.2.producer, hI.2.consumer⟩, pushGuar ⟨rfl, .refl _, rfl, fun _ => rfl⟩, hown,
      s.taken.length, ⟨hI.1.read, le_rfl, fun _ _ => rfl⟩, hI.1.le, hI.1.bound⟩
  exact (Layer.Triple.and_base (loadReadIndex_triple p) hload).conseq (fun _ _ h => ⟨h.1, h⟩)
    fun _ _ _ h => ⟨⟨h.1, h.2.1⟩, h.2.2⟩

theorem usedUp_stable :
    (pushLayer r).Stable fun s : RingState w T W => fresh → SeenFull r False s :=
  fun s t hI hst h hf => seenFull_stable s t hI hst (h hf)

theorem loadProducer_layer : (pushLayer r).Triple
    (fun s : RingState w T W => (Filling r 0 0 ([] : List T) s ∧ PushOwn A s) ∧
      (fresh → SeenFull r False s))
    (load RingState.producer)
    fun p s => PushLooks (r := r) p A s ∧ (fresh → SeenFull r False s) := by
  have hown : (pushLayer r).Stable fun s : RingState w T W =>
      PushOwn A s ∧ (fresh → SeenFull r False s) := .and pushOwn_stable usedUp_stable
  refine Layer.Triple.conseq (Layer.Triple.and_base loadProducer_triple
    (.load hown (fun _ => hown) pushGuar_refl fun _ _ h => h)) (fun _ _ h => ⟨h.1.1, h.1.2, h.2⟩) ?_
  exact fun _ _ _ h => ⟨⟨h.1, h.2.1⟩, h.2.2⟩

/-- An attempt that finds the ring full has loaded the read index. -/
theorem appearsFull_layer : (pushLayer r).Triple
    (PushLooks (r := r) p A : RingState w T W → Prop) (appearsFull r p)
    fun full s => (∃ q : RingHandle w, PushLooks (r := r) q A s) ∧
      (full = true → SeenFull r True s) := by
  unfold appearsFull
  split
  · apply loadReadIndex_layer.bind
    intro read
    refine .ret (.and pushLooks_stable readLoaded_stable) ?_
    rintro s hI ⟨hlooks, c, hseen, hle, hbound⟩
    refine ⟨⟨_, hlooks⟩, fun hfull => ⟨c, hseen, ?_⟩⟩
    obtain ⟨hp, hfill⟩ := hlooks.1
    have hwrite : p.cachedWrite = BitVec.ofNat w s.accepted.length := by
      have := hfill.write
      rw [hp, Nat.add_zero] at this
      exact this
    have hread : read = BitVec.ofNat w c := by
      have := hseen.cached
      rw [hp] at this
      exact this
    rw [decide_eq_true_eq, BitVec.le_def, span_eq hwrite hread hle hbound] at hfull
    omega
  · exact .ret pushLooks_stable fun _ _ h => ⟨⟨_, h⟩, fun hfull => by cases hfull⟩

omit [Waker W] in
/-- A handle in use has some count cached. -/
theorem PushLooks.transferring {s : RingState w T W} (h : PushLooks (r := r) p A s) :
    ∃ c, Transferring A False c s.accepted.length s := by
  obtain ⟨⟨hp, hfill⟩, hown⟩ := h
  obtain ⟨c, hc, hle, -⟩ := hfill.cached
  exact ⟨c, hown.1, ⟨hc, hle, fun hf => hf.elim⟩, rfl⟩

theorem tryPush_layer (value : T) : (pushLayer r).Triple
    (fun s : RingState w T W => Filling r 0 0 ([] : List T) s ∧ PushOwn A s) (tryPush r value)
    fun out s => Filling r 0 0 ([] : List T) s ∧ PushOwn A s ∧
      (∀ v, out = .error v → SeenFull r True s) := by
  have htry : (pushLayer r).Triple
      (fun s : RingState w T W => Filling r 0 0 ([] : List T) s ∧ PushOwn A s) (tryPush r value)
      fun out s => PushOwn A s ∧ ∀ v, out = .error v → SeenFull r True s := by
    refine Layer.Triple.bind ((@loadProducer_layer w T W _ r A False).conseq
      (fun _ _ h => ⟨h, fun hf => hf.elim⟩) fun _ _ _ h => h.1) fun p => ?_
    apply appearsFull_layer.bind
    intro full
    cases full with
    | true =>
      refine .ret (fun s t hI hst h => ?_) fun _ _ ⟨⟨_, hq⟩, hfull⟩ => ⟨hq.2, fun _ _ => hfull rfl⟩
      obtain ⟨⟨q, hq⟩, hfull⟩ := h
      exact ⟨⟨q, pushLooks_stable s t hI hst hq⟩, fun htrue => seenFull_stable s t hI hst (hfull htrue)⟩
    | false =>
      rintro s hI ⟨⟨q, hlooks⟩, -⟩
      obtain ⟨c, htransfer⟩ := hlooks.transferring
      refine Layer.Ok.mono (pushOne_layer p.cachedWrite value s hI ⟨htransfer, hlooks.2.2⟩) ?_
      rintro out t - ⟨rfl, hown⟩
      exact ⟨hown, fun _ hv => by cases hv⟩
  exact (Layer.Triple.and_base (tryPush_keeps value) htry).conseq (fun _ _ h => ⟨h.1, h⟩)
    fun _ _ _ h => h

/-- The room that is computed from a count loaded now, or from the cached one if that leaves any. -/
theorem availableSpace_layer : (pushLayer r).Triple
    (fun s : RingState w T W => PushLooks (r := r) p A s ∧ (fresh → SeenFull r False s))
    (availableSpace r p)
    fun room s => (∃ c, Transferring A fresh c (c + r.capacity.toNat - room) s ∧
      room ≤ c + r.capacity.toNat) ∧ s.consumerSlot.signals () = none := by
  have hroom : ∀ {q : RingHandle w} {c : Nat} {s : RingState w T W},
      PushLooks (r := r) q A s → SeenRead fresh c s → c ≤ s.accepted.length →
      s.accepted.length ≤ c + r.capacity.toNat →
      (∃ c, Transferring A fresh c
        (c + r.capacity.toNat - (r.capacity.toNat - (q.cachedWrite - q.cachedRead).toNat)) s ∧
        r.capacity.toNat - (q.cachedWrite - q.cachedRead).toNat ≤ c + r.capacity.toNat) ∧
        s.consumerSlot.signals () = none := by
    rintro q c s ⟨⟨rfl, hfill⟩, hown⟩ hseen hle hbound
    have hspace := span_eq hfill.write hseen.cached (by simpa using hle) (by simpa using hbound)
    refine ⟨⟨c, ⟨hown.1, hseen, ?_⟩, by omega⟩, hown.2⟩
    omega
  unfold availableSpace
  split
  · apply (loadReadIndex_layer.conseq (fun _ _ h => h.1) fun _ _ _ h => h).bind
    intro read
    refine .ret (.and pushLooks_stable readLoaded_stable) ?_
    rintro s hI ⟨hlooks, c, hseen, hle, hbound⟩
    exact hroom hlooks (hseen.weaken fun _ => trivial) hle hbound
  · rename_i hsome
    refine .ret (.and pushLooks_stable usedUp_stable) ?_
    rintro s hI ⟨hlooks, hfull⟩
    obtain ⟨c, hc, hle, hbound⟩ := hlooks.1.2.cached
    refine hroom hlooks ⟨hc, hle, fun hf => ?_⟩ (hle.trans hI.1.le) (by simpa using hbound)
    -- a cache that is used up would have been loaded again
    exfalso
    obtain ⟨d, hseen, hlen⟩ := hfull hf
    obtain ⟨⟨rfl, hfill⟩, -⟩ := hlooks
    have hspace := span_eq (r := r) hfill.write hseen.cached (by omega) (by omega)
    omega

/-- A transfer that is cut short uses up the room it knew of. -/
theorem tryPushSlice_layer (items : List T) (hne : items ≠ []) : (pushLayer r).Triple
    (fun s : RingState w T W => (Filling r 0 0 ([] : List T) s ∧ PushOwn A s) ∧
      (fresh → SeenFull r False s))
    (tryPushSlice r items)
    fun pushed s => (Filling r 0 0 ([] : List T) s ∧ PushOwn A s) ∧ pushed ≤ items.length ∧
      (pushed < items.length → SeenFull r fresh s) := by
  have htry : (pushLayer r).Triple
      (fun s : RingState w T W => (Filling r 0 0 ([] : List T) s ∧ PushOwn A s) ∧
        (fresh → SeenFull r False s))
      (tryPushSlice r items)
      fun pushed s => PushOwn A s ∧ pushed ≤ items.length ∧
        (pushed < items.length → SeenFull r fresh s) := by
    unfold tryPushSlice
    rw [if_neg (by simpa using hne)]
    apply loadProducer_layer.bind
    intro p
    apply availableSpace_layer.bind
    intro room
    rintro s hI ⟨⟨c, htransfer, hroom⟩, hquiet⟩
    split
    · rename_i hzero
      refine Layer.Triple.ret (transferring_stable none) ?_ s hI ⟨htransfer, hquiet⟩
      rintro t - ⟨h, hquiet⟩
      refine ⟨⟨h.own, hquiet⟩, Nat.zero_le _, fun _ => ⟨c, h.seen, ?_⟩⟩
      rw [h.accepted, hzero]
      rfl
    · refine Layer.Ok.mono (pushItems_layer p.cachedWrite (items.take (min items.length room)) s hI
        ⟨htransfer, hquiet⟩) ?_
      rintro pushed t - ⟨rfl, h, hquiet⟩
      have hlen : (items.take (min items.length room)).length = min items.length room := by simp
      refine ⟨⟨h.own, hquiet⟩, by omega, fun hshort => ⟨c, h.seen, ?_⟩⟩
      rw [h.accepted]
      omega
  exact (Layer.Triple.and_base (tryPushSlice_keeps items) htry).conseq (fun _ _ h => ⟨h.1.1, h⟩)
    fun _ _ _ h => ⟨⟨h.1, h.2.1⟩, h.2.2⟩

end Attempt

section Polls

variable {fresh : Prop} {waker : W}

/-- A poll of a producer's future with this waker. -/
def pushPolling (waker : W) (here phase : Phase W) (current : Option W)
    (future : Option (PushFuture T)) : Prop :=
  phase = here ∧ current = some waker ∧ future ≠ none

/-- The producer in a poll: at rest in the ring, and inside its slot. -/
def PushPoll (r : RingBuf w) (waker : W) (here : Phase W) (s : RingState w T W) : Prop :=
  Filling r 0 0 ([] : List T) s ∧ PushOwn (pushPolling waker here) s

theorem pushPoll_stable {here : Phase W} :
    (pushLayer r).Stable (PushPoll r waker here : RingState w T W → Prop) :=
  .and (.of_base Filling.stable) pushOwn_stable

theorem armProducer_layer : (pushLayer r).Triple
    (fun s : RingState w T W => PushPoll r waker .out s ∧ (fresh → SeenFull r False s))
    (armProducer waker)
    fun _ s => PushPoll r waker .armed s ∧ (fresh → SeenFull r False s) := by
  have hkeep : ∀ (s : RingState w T W) (x : SlotUse W Unit), (fresh → SeenFull r False s) →
      fresh → SeenFull r False { s with producerSlot := x } := by
    intro s x h hf
    obtain ⟨c, hseen, hlen⟩ := h hf
    exact ⟨c, ⟨hseen.cached, hseen.le, fun hfalse => hfalse.elim⟩, hlen⟩
  have harm : (pushLayer r).Triple
      (fun s : RingState w T W => ((s.producerSlot.current = some waker ∧ s.pushFuture ≠ none ∧
        s.consumerSlot.signals () = none) ∧ (fresh → SeenFull r False s)) ∧
        s.producerSlot.phase = .out)
      (armProducer waker)
      fun _ s => ((s.producerSlot.current = some waker ∧ s.pushFuture ≠ none ∧
        s.consumerSlot.signals () = none) ∧ (fresh → SeenFull r False s)) ∧
        s.producerSlot.phase = .armed := by
    refine arm_layer (L := pushLayer r) (fun _ _ => rfl) (fun s hI => hI.2.producer) ?_ ?_ ?_
    · intro phase s t hI hst h
      have hwait : PushRely s t := hst.2
      rw [hwait.slot.current, hwait.slot.phase, hwait.future, hwait.signals]
      exact ⟨⟨h.1.1, usedUp_stable s t hI hst h.1.2⟩, h.2⟩
    · intro s pc hI h hpc _ _
      exact ⟨⟨hI.2.producer.armStep hpc, hI.2.consumer⟩, pushGuar ⟨rfl, .refl _, rfl, fun _ => rfl⟩,
        h.1, hkeep s _ h.2⟩
    · intro s hI h hout _ _
      exact ⟨⟨hI.2.producer.beginArm hout h.1.1, hI.2.consumer⟩,
        pushGuar ⟨rfl, .refl _, rfl, fun _ => rfl⟩, h.1, hkeep s _ h.2⟩
  refine (Layer.Triple.and_base (armProducer_keeps waker) harm).conseq ?_ ?_
  · rintro s - ⟨⟨hfill, ⟨hphase, hcurrent, hfuture⟩, hquiet⟩, hfull⟩
    exact ⟨hfill, ⟨⟨hcurrent, hfuture, hquiet⟩, hfull⟩, hphase⟩
  · rintro _ s - ⟨hfill, ⟨⟨hcurrent, hfuture, hquiet⟩, hfull⟩, hphase⟩
    exact ⟨⟨hfill, ⟨hphase, hcurrent, hfuture⟩, hquiet⟩, hfull⟩

theorem pushRest_stable : (pushLayer r).Stable (PushRest r : RingState w T W → Prop) := by
  intro s t _ hst h
  have hbase : ProducerRely s t := hst.1
  have hwait : PushRely s t := hst.2
  refine ⟨by rw [hwait.signals, h.quiet], by rw [hwait.future]; exact h.unfinished, ?_⟩
  rw [hwait.slot.phase, hwait.future, hbase.accepted]
  refine h.slot.imp id fun ⟨harmed, hsome, hfull⟩ => ⟨harmed, hsome, fun hp => ?_⟩
  rw [hwait.taken hp]
  exact hfull (hwait.slot.published hp)

/-- A future that is done leaves no registration behind. -/
theorem pushReady_layer : (pushLayer r).Triple (PushPoll r waker .out : RingState w T W → Prop)
    pushReady fun _ => PushRest r := by
  refine .store pushPoll_stable (fun _ => pushRest_stable) ?_
  rintro s hI ⟨-, ⟨hphase, -⟩, hquiet⟩ - -
  exact ⟨⟨hI.2.producer, hI.2.consumer⟩, pushGuar ⟨rfl, .refl _, rfl, fun _ => rfl⟩,
    hquiet, fun _ hf => (by cases hf), .inl ⟨hphase, rfl⟩⟩

theorem disarmProducer_layer : (pushLayer r).Triple
    (PushPoll r waker .armed : RingState w T W → Prop) disarmProducer
    fun _ => PushPoll r waker .out := by
  have hdisarm : (pushLayer r).Triple (PushPoll r waker .armed : RingState w T W → Prop)
      disarmProducer fun _ => PushOwn (pushPolling waker .out) := by
    refine .store pushPoll_stable (fun _ => pushOwn_stable) ?_
    rintro s hI ⟨-, ⟨hphase, hcurrent, hfuture⟩, hquiet⟩ - -
    exact ⟨⟨hI.2.producer.quit (by simp [hphase]) rfl rfl rfl, hI.2.consumer⟩,
      pushGuar ⟨rfl, .refl _, rfl, fun _ => rfl⟩, ⟨rfl, hcurrent, hfuture⟩, hquiet⟩
  exact (Layer.Triple.and_base disarmProducer_keeps hdisarm).conseq (fun _ _ h => ⟨h.1, h⟩)
    fun _ _ _ h => h

/-- The future parks: the ring is full as far as no signal says otherwise. -/
theorem pushPending_layer {future : PushFuture T} (hfuture : PushFuture.Unfinished future) :
    (pushLayer r).Triple
      (fun s : RingState w T W => PushPoll r waker .armed s ∧ SeenFull r True s)
      (pushPending future) fun _ => PushRest r := by
  refine .store (.and pushPoll_stable seenFull_stable) (fun _ => pushRest_stable) ?_
  rintro s hI ⟨⟨-, ⟨hphase, -⟩, hquiet⟩, c, hseen, hlen⟩ - -
  refine ⟨⟨hI.2.producer, hI.2.consumer⟩, pushGuar ⟨rfl, .refl _, rfl, fun _ => rfl⟩,
    hquiet, fun _ hf => ?_, .inr ⟨hphase, by simp, fun hp => ?_⟩⟩
  · cases hf
    exact hfuture
  · rw [hseen.fresh trivial hp]
    exact hlen

theorem setPushed_layer {here : Phase W} {P F : Prop} (n : Nat) : (pushLayer r).Triple
    (fun s : RingState w T W => PushPoll r waker here s ∧ (P → SeenFull r F s)) (setPushed n)
    fun _ s => PushPoll r waker here s ∧ (P → SeenFull r F s) := by
  have hfull : (pushLayer r).Stable fun s : RingState w T W => P → SeenFull r F s :=
    fun s t hI hst h hp => seenFull_stable s t hI hst (h hp)
  have hset : (pushLayer r).Triple
      (fun s : RingState w T W => PushOwn (pushPolling waker here) s ∧ (P → SeenFull r F s))
      (setPushed n)
      fun _ s => PushOwn (pushPolling waker here) s ∧ (P → SeenFull r F s) := by
    refine pushSame_layer (.and pushOwn_stable hfull) (.and pushOwn_stable hfull)
      (fun _ => by constructor <;> rfl) fun s h => ⟨h.1, fun hp => ?_⟩
    obtain ⟨c, hseen, hlen⟩ := h.2 hp
    exact ⟨c, ⟨hseen.cached, hseen.le, hseen.fresh⟩, hlen⟩
  exact (Layer.Triple.and_base (setPushed_keeps n) hset).conseq (fun _ _ h => ⟨h.1.1, h.1.2, h.2⟩)
    fun _ _ _ h => ⟨⟨h.1, h.2.1⟩, h.2.2⟩

theorem pollPushFuture_layer (value : T) : (pushLayer r).Triple
    (PushPoll r waker .out : RingState w T W → Prop) (pollPushFuture r waker value)
    fun _ => PushRest r := by
  apply (tryPush_layer value).bind
  rintro (value | _)
  · refine Layer.Triple.bind ((@armProducer_layer w T W _ r False waker).conseq
      (fun _ _ h => ⟨⟨h.1, h.2.1⟩, fun hf => hf.elim⟩) fun _ _ _ h => h.1) fun _ => ?_
    apply (tryPush_layer value).bind
    rintro (value | _)
    · have hpending : PushFuture.Unfinished (.pushing value) := trivial
      exact (pushPending_layer hpending).conseq (fun _ _ h => ⟨⟨h.1, h.2.1⟩, h.2.2 value rfl⟩)
        fun _ _ _ h => h
    · refine Layer.Triple.bind (disarmProducer_layer.conseq (fun _ _ h => ⟨h.1, h.2.1⟩)
        fun _ _ _ h => h) fun _ => ?_
      exact pushReady_layer
  · exact pushReady_layer.conseq (fun _ _ h => ⟨h.1, h.2.1⟩) fun _ _ _ h => h

/-- Every attempt of a slice future is made with items left. -/
theorem attempt_layer {here : Phase W} {items : List T} {k : Nat} (hk : k < items.length) :
    (pushLayer r).Triple
      (fun s : RingState w T W => PushPoll r waker here s ∧ (fresh → SeenFull r False s))
      (tryPushSlice r (items.drop k))
      fun pushed s => PushPoll r waker here s ∧ k + pushed ≤ items.length ∧
        (k + pushed < items.length → SeenFull r fresh s) := by
  have hlen : (items.drop k).length = items.length - k := List.length_drop
  have hne : items.drop k ≠ [] := by
    rw [Ne, List.drop_eq_nil_iff]
    omega
  refine (tryPushSlice_layer (items.drop k) hne).conseq (fun _ _ h => h) fun pushed s _ h => ?_
  rw [hlen] at h
  exact ⟨h.1, by omega, fun hshort => h.2.2 (by omega)⟩

theorem pollPushSliceFuture_layer (items : List T) {pushedSoFar : Nat}
    (hlt : pushedSoFar < items.length) : (pushLayer r).Triple
      (PushPoll r waker .out : RingState w T W → Prop)
      (pollPushSliceFuture r waker items pushedSoFar) fun _ => PushRest r := by
  refine Layer.Triple.bind ((@attempt_layer w T W _ r False waker .out items _ hlt).conseq
    (fun _ _ h => ⟨h, fun hf => hf.elim⟩) fun _ _ _ h => h) fun pushed => ?_
  split
  · exact pushReady_layer.conseq (fun _ _ h => h.1) fun _ _ _ h => h
  · rename_i hmore
    rintro s hI ⟨hpoll, hle, hfull⟩
    have hlt' : pushedSoFar + pushed < items.length := by omega
    have hrest : (pushLayer r).Triple
        (fun s : RingState w T W => PushPoll r waker .out s ∧ (True → SeenFull r False s))
        (do
          setPushed (pushedSoFar + pushed)
          armProducer waker
          let again ← tryPushSlice r (items.drop (pushedSoFar + pushed))
          if 0 < again ∧ pushedSoFar + pushed + again = items.length then do
            disarmProducer
            pushReady
          else do
            setPushed (pushedSoFar + pushed + again)
            pushPending (.slicing items (pushedSoFar + pushed + again)))
        fun _ => PushRest r := by
      apply (setPushed_layer _).bind
      intro _
      apply armProducer_layer.bind
      intro _
      apply (attempt_layer hlt').bind
      intro again
      split
      · refine Layer.Triple.bind (disarmProducer_layer.conseq (fun _ _ h => h.1) fun _ _ _ h => h)
          fun _ => ?_
        exact pushReady_layer
      · rintro s hI ⟨hpoll, hle, hfull⟩
        have hlt : pushedSoFar + pushed + again < items.length := by omega
        have hpending : PushFuture.Unfinished (.slicing items (pushedSoFar + pushed + again)) := hlt
        refine Layer.Triple.bind (setPushed_layer _) (fun _ => ?_) s hI
          ⟨hpoll, fun _ : True => hfull hlt⟩
        exact (pushPending_layer hpending).conseq (fun _ _ h => ⟨h.1, h.2 trivial⟩) fun _ _ _ h => h
    exact hrest s hI ⟨hpoll, fun _ => hfull hlt'⟩

theorem pollPush_layer {future : PushFuture T} (hfuture : PushFuture.Unfinished future) :
    (pushLayer r).Triple (PushPoll r waker .out : RingState w T W → Prop)
      (pollPush r waker future) fun _ => PushRest r := by
  cases future with
  | push value =>
    apply (tryPush_layer value).bind
    rintro (value | _)
    · exact (pollPushFuture_layer value).conseq (fun _ _ h => ⟨h.1, h.2.1⟩) fun _ _ _ h => h
    · exact pushReady_layer.conseq (fun _ _ h => ⟨h.1, h.2.1⟩) fun _ _ _ h => h
  | pushing value => exact pollPushFuture_layer value
  | pushSlice items =>
    have hset : ∀ n, (pushLayer r).Triple (PushPoll r waker .out : RingState w T W → Prop)
        (setPushed n) fun _ => PushPoll r waker .out := fun n =>
      (@setPushed_layer w T W _ r waker .out False False n).conseq
        (fun _ _ h => ⟨h, fun hf => hf.elim⟩) fun _ _ _ h => h.1
    rw [pollPush]
    split
    · exact (hset 0).bind fun _ => pushReady_layer
    · rename_i hne
      refine Layer.Triple.bind ((@tryPushSlice_layer w T W _ r _ False items (by simpa using hne)).conseq
        (fun _ _ h => ⟨h, fun hf => hf.elim⟩) fun _ _ _ h => h) fun n => ?_
      rintro s hI ⟨hpoll, hle, -⟩
      refine Layer.Triple.bind (hset n) (fun _ => ?_) s hI hpoll
      split
      · exact pushReady_layer
      · exact pollPushSliceFuture_layer items (by omega)
  | slicing items pushedSoFar => exact pollPushSliceFuture_layer items hfuture

end Polls

section Calls

/-- The producer without a future. -/
def pushIdle (phase : Phase W) (_ : Option W) (future : Option (PushFuture T)) : Prop :=
  phase = .out ∧ future = none

omit [Waker W] in
theorem PushOwn.rest {s : RingState w T W} (h : PushOwn pushIdle s) : PushRest r s := by
  obtain ⟨⟨hphase, hfuture⟩, hquiet⟩ := h
  exact ⟨hquiet, fun future hf => by simp [hfuture] at hf, .inl ⟨hphase, by simp [hfuture]⟩⟩

theorem producerReturns_layer (out : RingOut T) : (pushLayer r).Triple
    (PushOwn pushIdle : RingState w T W → Prop) (producerReturns out) fun _ => PushRest r :=
  pushSame_layer pushOwn_stable pushRest_stable (fun _ => by constructor <;> rfl)
    fun s h => PushOwn.rest (s := { s with producerOut := some out }) h

theorem pushSomeOf_layer (items : List T) : (pushLayer r).Triple
    (fun s : RingState w T W => Filling r 0 0 ([] : List T) s ∧ PushOwn pushIdle s)
    (tryPushSlice r items) fun _ => PushOwn pushIdle := by
  by_cases hne : items = []
  · unfold tryPushSlice
    rw [if_pos (by simpa using hne)]
    exact .ret (.and (.of_base Filling.stable) pushOwn_stable) fun _ _ h => h.2
  · exact (@tryPushSlice_layer w T W _ r _ False items hne).conseq
      (fun _ _ h => ⟨h, fun hf => hf.elim⟩) fun _ _ _ h => h.1.2

/-- The counts of a producer load the read index. -/
theorem freeCount_layer : (pushLayer r).Triple
    (fun s : RingState w T W => Filling r 0 0 ([] : List T) s ∧ PushOwn pushIdle s) (freeCount r)
    fun _ => PushOwn pushIdle := by
  rintro s hI ⟨hfill, hown⟩
  refine Layer.Ok.bind (loadReadIndex_layer s hI ⟨⟨rfl, hfill⟩, hown⟩) fun read => ?_
  have hload : (pushLayer r).Triple (PushOwn pushIdle : RingState w T W → Prop)
      (do
        let p ← load RingState.producer
        pure (r.capacity - (p.cachedWrite - read)))
      fun _ => PushOwn pushIdle := by
    refine Layer.Triple.bind (.load pushOwn_stable (fun _ => pushOwn_stable) pushGuar_refl
      fun _ _ h => h) fun p => ?_
    exact .ret pushOwn_stable fun _ _ h => h
  exact hload.conseq (fun _ _ h => h.1.2) fun _ _ _ h => h

theorem producerIsEmpty_layer : (pushLayer r).Triple
    (fun s : RingState w T W => Filling r 0 0 ([] : List T) s ∧ PushOwn pushIdle s)
    (do
      let read ← loadReadIndex
      let p ← load (·.producer)
      producerReturns (.answer (decide (p.cachedWrite = read))))
    fun _ => PushRest r := by
  rintro s hI ⟨hfill, hown⟩
  refine Layer.Ok.bind (loadReadIndex_layer s hI ⟨⟨rfl, hfill⟩, hown⟩) fun read => ?_
  have hload : (pushLayer r).Triple (PushOwn pushIdle : RingState w T W → Prop)
      (do
        let p ← load RingState.producer
        producerReturns (.answer (decide (p.cachedWrite = read))))
      fun _ => PushRest r := by
    refine Layer.Triple.bind (.load pushOwn_stable (fun _ => pushOwn_stable) pushGuar_refl
      fun _ _ h => h) fun p => ?_
    exact producerReturns_layer _
  exact hload.conseq (fun _ _ h => h.1.2) fun _ _ _ h => h

/-- What a call of the producer must establish in the layer. -/
def PushStarts (r : RingBuf w) (s : RingState w T W)
    (call : RingState w T W × Prog (RingState w T W) PUnit.{1}) : Prop :=
  WaitInv call.1 ∧ PopRely s call.1 ∧
    (RingInv r call.1 → (pushLayer r).Ok (fun _ => PushRest r) call.2 call.1)

/-- A call that runs `p` at once. -/
theorem pushStarts_of_triple {s : RingState w T W} {p : Prog (RingState w T W) PUnit.{1}}
    (hI : WaitInv s) (hfill : Filling r 0 0 ([] : List T) s) (hown : PushOwn pushIdle s)
    (hp : (pushLayer r).Triple
      (fun s => Filling r 0 0 ([] : List T) s ∧ PushOwn pushIdle s) p fun _ => PushRest r) :
    PushStarts r s (s, p) :=
  ⟨hI, ⟨rfl, .refl _, rfl, fun _ => rfl⟩, fun hB => hp s ⟨hB, hI⟩ ⟨hfill, hown⟩⟩

/-- A call that only changes the handle or its future. -/
theorem pushStarts_of_rest {s t : RingState w T W} (hI : WaitInv t) (hrely : PopRely s t)
    (h : PushRest r t) : PushStarts r s (t, pure ⟨⟩) :=
  ⟨hI, hrely, fun hB => Layer.Triple.ret pushRest_stable (fun _ _ h => h) t ⟨hB, hI⟩ h⟩

theorem producerCall_waits {s : RingState w T W} {op : RingOp T W}
    {call : RingState w T W × Prog (RingState w T W) PUnit.{1}} (hI : WaitInv s)
    (hfill : Filling r 0 0 ([] : List T) s) (hown : PushOwn pushIdle s)
    (hcall : producerCall r s op = some call) : PushStarts r s call := by
  cases op <;> simp only [producerCall, Option.some.injEq, reduceCtorEq] at hcall <;> subst hcall
  case tryPush value =>
    refine pushStarts_of_triple hI hfill hown ?_
    apply (tryPush_layer value).bind
    rintro (value | _)
    · exact (producerReturns_layer _).conseq (fun _ _ h => h.2.1) fun _ _ _ h => h
    · exact (producerReturns_layer _).conseq (fun _ _ h => h.2.1) fun _ _ _ h => h
  case tryPushSlice items =>
    refine pushStarts_of_triple hI hfill hown ?_
    exact (pushSomeOf_layer items).bind fun _ => producerReturns_layer _
  case freeCount =>
    refine pushStarts_of_triple hI hfill hown ?_
    exact freeCount_layer.bind fun _ => producerReturns_layer _
  case producerIsEmpty => exact pushStarts_of_triple hI hfill hown producerIsEmpty_layer
  case producerIsFull =>
    refine pushStarts_of_triple hI hfill hown ?_
    exact freeCount_layer.bind fun _ => producerReturns_layer _
  case push value =>
    refine pushStarts_of_rest ⟨hI.producer, hI.consumer⟩ ⟨rfl, .refl _, rfl, fun _ => rfl⟩
      ⟨hown.2, fun future hf => ?_, .inl ⟨hown.1.1, rfl⟩⟩
    cases hf
    trivial
  case pushSlice items =>
    refine pushStarts_of_rest ⟨hI.producer, hI.consumer⟩ ⟨rfl, .refl _, rfl, fun _ => rfl⟩
      ⟨hown.2, fun future hf => ?_, .inl ⟨hown.1.1, rfl⟩⟩
    cases hf
    trivial
  case dropProducer =>
    exact pushStarts_of_rest ⟨hI.producer, hI.consumer⟩ ⟨rfl, .refl _, rfl, fun _ => rfl⟩
      (PushOwn.rest hown)

theorem producer_waits {s : RingState w T W} {op : RingOp T W}
    {call : RingState w T W × Prog (RingState w T W) PUnit.{1}} (hI : WaitInv s)
    (hfill : s.producerAlive = true → Filling r 0 0 ([] : List T) s) (hrest : PushRest r s)
    (hcall : ringCall r .producer op s = some call) : PushStarts r s call := by
  have hnot : ∀ pc, s.producerSlot.phase ≠ .arming pc := by
    intro pc hpc
    rcases hrest.slot with ⟨h, -⟩ | ⟨h, -⟩ <;> simp [h] at hpc
  simp only [ringCall] at hcall
  split at hcall
  · rename_i halive
    specialize hfill halive
    split at hcall
    · rename_i hnone
      have hout : s.producerSlot.phase = .out :=
        (hrest.slot.resolve_right fun h => h.2.1 hnone).1
      exact producerCall_waits hI hfill ⟨⟨hout, hnone⟩, hrest.quiet⟩ hcall
    · rename_i future waker hsome
      cases hcall
      have hI' : WaitInv { s with producerSlot := s.producerSlot.beginPoll waker } :=
        ⟨hI.producer.quit hnot rfl rfl rfl, hI.consumer⟩
      refine ⟨hI', ⟨rfl, .refl _, rfl, fun _ => rfl⟩, fun hB' => ?_⟩
      refine pollPush_layer (hrest.unfinished future hsome) _ ⟨hB', hI'⟩
        ⟨Filling.stable s _ hB' ⟨rfl, rfl, rfl, le_rfl, rfl⟩ hfill, ⟨rfl, rfl, ?_⟩, hrest.quiet⟩
      simp [hsome]
    · cases hcall
      exact pushStarts_of_rest ⟨hI.producer.quit hnot rfl rfl rfl, hI.consumer⟩
        ⟨rfl, .refl _, rfl, fun _ => rfl⟩ ⟨hrest.quiet, fun _ hf => (by cases hf), .inl ⟨rfl, rfl⟩⟩
    · cases hcall
  · cases hcall

end Calls

end Cynosure.SiteD.Ring
