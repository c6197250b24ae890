import Cynosure.SiteD.RingBufWaits

/-! # The consumer parks only on an empty ring buffer

As on the producer's side: a transfer that is cut short has taken every item that the
cached write index told of, so the attempt after arming loads the index again.
-/

namespace Cynosure.SiteD.Ring

open Prog

variable {w : Nat} {T W : Type} [Waker W] {r : RingBuf w}

/-- What the consumer knows of its slot and its future. -/
def PopOwn (A : Phase W → Option W → Option (PopFuture T) → Prop) (s : RingState w T W) : Prop :=
  A s.consumerSlot.phase s.consumerSlot.current s.popFuture ∧ s.producerSlot.signals () = none

/-- The cached write index is the count `d`; when `fresh` it was loaded since the slot was armed,
and only a signal can tell of a later one. -/
structure SeenWrite (fresh : Prop) (d : Nat) (s : RingState w T W) : Prop where
  cached : s.consumer.cachedWrite = BitVec.ofNat w d
  le : d ≤ s.accepted.length
  fresh : fresh → s.consumerSlot.published = false → s.accepted.length = d

/-- As far as the cached index tells, the ring is empty. -/
def SeenEmpty (fresh : Prop) (s : RingState w T W) : Prop :=
  ∃ d, SeenWrite fresh d s ∧ s.taken.length = d

section Stable

variable {A : Phase W → Option W → Option (PopFuture T) → Prop} {fresh : Prop} {d n : Nat}

theorem popOwn_stable : (popLayer r).Stable (PopOwn (w := w) A) := by
  intro s t _ hst h
  have hwait : PopRely s t := hst.2
  rw [PopOwn, hwait.slot.phase, hwait.slot.current, hwait.future, hwait.signals]
  exact h

theorem seenWrite_stable :
    (popLayer r).Stable (SeenWrite fresh d : RingState w T W → Prop) := by
  intro s t _ hst h
  have hbase : ConsumerRely s t := hst.1
  have hwait : PopRely s t := hst.2
  refine ⟨by rw [hbase.handle, h.cached], h.le.trans hbase.accepted.length_le, fun hf hp => ?_⟩
  rw [hwait.accepted hp]
  exact h.fresh hf (hwait.slot.published hp)

theorem taken_stable :
    (popLayer r).Stable fun s : RingState w T W => s.taken.length = n := by
  intro s t _ hst h
  have hbase : ConsumerRely s t := hst.1
  rw [hbase.taken, h]

theorem seenEmpty_stable : (popLayer r).Stable (SeenEmpty fresh : RingState w T W → Prop) := by
  rintro s t hI hst ⟨d, h, hlen⟩
  exact ⟨d, seenWrite_stable s t hI hst h, taken_stable s t hI hst hlen⟩

omit [Waker W] in
theorem SeenWrite.weaken {s : RingState w T W} {fresh' : Prop} (h : SeenWrite fresh d s)
    (hf : fresh' → fresh) : SeenWrite fresh' d s :=
  ⟨h.cached, h.le, fun hf' => h.fresh (hf hf')⟩

theorem consumerIs_stable (c : RingHandle w) :
    (popLayer r).Stable (ConsumerIs c : RingState w T W → Prop) :=
  .of_base (ConsumerIs.stable c)

end Stable

section Transfer

variable {A : Phase W → Option W → Option (PopFuture T) → Prop} {fresh : Prop} {d n : Nat}

/-- The consumer is reading items out, with `n` taken so far. -/
structure Receiving (A : Phase W → Option W → Option (PopFuture T) → Prop) (fresh : Prop)
    (d n : Nat) (s : RingState w T W) : Prop where
  own : A s.consumerSlot.phase s.consumerSlot.current s.popFuture
  seen : SeenWrite fresh d s
  taken : s.taken.length = n

theorem receiving_stable (pc : Option (SignalPc W)) : (popLayer r).Stable
    fun s : RingState w T W => Receiving A fresh d n s ∧ s.producerSlot.signals () = pc := by
  intro s t hI hst ⟨h, hpc⟩
  have hwait : PopRely s t := hst.2
  refine ⟨⟨?_, seenWrite_stable s t hI hst h.seen, taken_stable s t hI hst h.taken⟩,
    by rw [hwait.signals, hpc]⟩
  rw [hwait.slot.phase, hwait.slot.current, hwait.future]
  exact h.own

/-- The reads of slots and the writes of the consumer's own index. -/
theorem receiveStep_layer {α : Type} (read : RingState w T W → α)
    {f : RingState w T W → RingState w T W} (hf : ∀ s, SameSlots s (f s))
    (hcache : ∀ s, (f s).consumer.cachedWrite = s.consumer.cachedWrite) : (popLayer r).Triple
      (fun s => Receiving A fresh d n s ∧ s.producerSlot.signals () = none) (exchange read f)
      fun _ s => Receiving A fresh d n s ∧ s.producerSlot.signals () = none := by
  refine .exchange (receiving_stable none) (fun _ => receiving_stable none) ?_
  rintro s hI ⟨h, hquiet⟩ - -
  have hs := hf s
  refine ⟨hs.inv hI.2, popGuar hs.pushRely, ⟨?_, ⟨by rw [hcache, h.seen.cached],
    by rw [hs.accepted]; exact h.seen.le, ?_⟩, by rw [hs.taken, h.taken]⟩,
    by rw [hs.producerSlot, hquiet]⟩
  · rw [hs.consumerSlot, hs.popFuture]
    exact h.own
  · rw [hs.consumerSlot, hs.accepted]
    exact h.seen.fresh

theorem setCachedRead_layer (index : BitVec w) : (popLayer r).Triple
    (fun s : RingState w T W => Receiving A fresh d n s ∧ s.producerSlot.signals () = none)
    (setCachedRead index)
    fun _ s => Receiving A fresh d n s ∧ s.producerSlot.signals () = none :=
  receiveStep_layer (fun _ => PUnit.unit) (fun _ => by constructor <;> rfl) fun _ => rfl

theorem readSlot_layer (i : Nat) : (popLayer r).Triple
    (fun s : RingState w T W => Receiving A fresh d n s ∧ s.producerSlot.signals () = none)
    (readSlot r i)
    fun _ s => Receiving A fresh d n s ∧ s.producerSlot.signals () = none :=
  receiveStep_layer _ (fun _ => by constructor <;> rfl) fun _ => rfl

theorem copyOut_layer (m i : Nat) : (popLayer r).Triple
    (fun s : RingState w T W => Receiving A fresh d n s ∧ s.producerSlot.signals () = none)
    (copyOut r i m)
    fun xs s => xs.length = m ∧ Receiving A fresh d n s ∧ s.producerSlot.signals () = none := by
  induction m generalizing i with
  | zero => exact .ret (receiving_stable none) fun _ _ h => ⟨rfl, h⟩
  | succ m ih =>
    apply (readSlot_layer i).bind
    intro x
    apply (ih (i + 1)).bind
    intro xs
    rintro s hI ⟨hlen, h⟩
    exact Layer.Triple.ret (receiving_stable none) (fun _ _ h => ⟨by simp [hlen], h⟩) s hI h

theorem publishRead_layer (items : List (Option T)) : (popLayer r).Triple
    (fun s : RingState w T W => Receiving A fresh d n s ∧ s.producerSlot.signals () = none)
    (store (RingState.publishRead items true))
    fun _ s => Receiving A fresh d (n + items.length) s ∧
      s.producerSlot.signals () = some .load := by
  refine .store (receiving_stable none) (fun _ => receiving_stable (some .load)) ?_
  rintro s hI ⟨h, hquiet⟩ - -
  refine ⟨⟨hI.2.producer.beginSignal hquiet, hI.2.consumer⟩,
    popGuar ⟨rfl, SlotUse.sees_beginSignal _ _, rfl, fun hp => by cases hp⟩,
    ⟨h.own, ⟨h.seen.cached, h.seen.le, h.seen.fresh⟩, ?_⟩, SlotUse.beginSignal_signals_self _ _⟩
  simp [RingState.publishRead, h.taken]

theorem signalReceive_layer : (popLayer r).Triple
    (fun s : RingState w T W => Receiving A fresh d n s ∧ s.producerSlot.signals () = some .load)
    signalProducer
    fun _ s => Receiving A fresh d n s ∧ s.producerSlot.signals () = none :=
  signalProducer_layer receiving_stable fun _ _ h =>
    ⟨h.own, ⟨h.seen.cached, h.seen.le, h.seen.fresh⟩, h.taken⟩

theorem copyItemsOut_layer (readIdx toPop : Nat) : (popLayer r).Triple
    (fun s : RingState w T W => Receiving A fresh d n s ∧ s.producerSlot.signals () = none)
    (copyItemsOut r readIdx toPop)
    fun xs s => xs.length = toPop ∧ Receiving A fresh d n s ∧
      s.producerSlot.signals () = none := by
  unfold copyItemsOut
  apply (copyOut_layer _ _).bind
  rintro first s hI ⟨hfirst, h⟩
  split
  · rename_i hlt
    refine Layer.Ok.bind (copyOut_layer _ 0 s hI h) fun second => ?_
    rintro t hI' ⟨hsecond, h'⟩
    refine Layer.Triple.ret (receiving_stable none) (fun _ _ h => ⟨?_, h⟩) t hI' h'
    rw [List.length_append, hfirst, hsecond]
    omega
  · rename_i hge
    exact Layer.Triple.ret (receiving_stable none) (fun _ _ h => ⟨by omega, h⟩) s hI h

theorem popItems_layer (read : BitVec w) (toPop : Nat) : (popLayer r).Triple
    (fun s : RingState w T W => Receiving A fresh d n s ∧ s.producerSlot.signals () = none)
    (popItems r read toPop)
    fun xs s => xs.length = toPop ∧ Receiving A fresh d (n + toPop) s ∧
      s.producerSlot.signals () = none := by
  unfold popItems
  apply (copyItemsOut_layer _ _).bind
  rintro items s hI ⟨hlen, h⟩
  rw [← hlen]
  refine Layer.Triple.bind (setCachedRead_layer _) (fun _ => ?_) s hI h
  apply (publishRead_layer items).bind
  intro _
  apply signalReceive_layer.bind
  exact fun _ => .ret (receiving_stable none) fun _ _ h => ⟨rfl, h⟩

theorem popOne_layer (read : BitVec w) : (popLayer r).Triple
    (fun s : RingState w T W => Receiving A fresh d n s ∧ s.producerSlot.signals () = none)
    (do
      let value ← readSlot r (read &&& r.mask).toNat
      setCachedRead (read + 1)
      store (RingState.publishRead [value] true)
      whenSignal true
      pure (some value))
    fun out s => out ≠ none ∧ PopOwn A s := by
  apply (readSlot_layer _).bind
  intro value
  apply (setCachedRead_layer _).bind
  intro _
  apply (publishRead_layer [value]).bind
  intro _
  apply signalReceive_layer.bind
  exact fun _ => .ret (receiving_stable none) fun _ _ h => ⟨by simp, h.1.own, h.2⟩

end Transfer

section Attempt

variable {A : Phase W → Option W → Option (PopFuture T) → Prop} {fresh : Prop} {d n : Nat}
  {c : RingHandle w}

/-- What a consumer in a call knows of its handle, its slot and the ring. -/
def PopLooks (c : RingHandle w) (A : Phase W → Option W → Option (PopFuture T) → Prop)
    (s : RingState w T W) : Prop :=
  ConsumerIs c s ∧ PopOwn A s

theorem popLooks_stable : (popLayer r).Stable (PopLooks c A : RingState w T W → Prop) :=
  .and (consumerIs_stable c) popOwn_stable

/-- What a load of the write index has shown. -/
def WriteLoaded (s : RingState w T W) : Prop := ∃ d, SeenWrite True d s ∧ s.taken.length ≤ d

theorem writeLoaded_stable : (popLayer r).Stable (WriteLoaded : RingState w T W → Prop) := by
  rintro s t hI hst ⟨d, hseen, hle⟩
  have hbase : ConsumerRely s t := hst.1
  refine ⟨d, seenWrite_stable s t hI hst hseen, ?_⟩
  rw [hbase.taken]
  exact hle

/-- What the consumer knows once it has loaded the write index. -/
def Loaded (A : Phase W → Option W → Option (PopFuture T) → Prop) (c : RingHandle w)
    (s : RingState w T W) : Prop :=
  PopLooks c A s ∧ ∃ d, SeenWrite True d s ∧ s.taken.length ≤ d

theorem loaded_stable : (popLayer r).Stable (Loaded A c : RingState w T W → Prop) :=
  .and popLooks_stable writeLoaded_stable

theorem loadWriteIndex_layer : (popLayer r).Triple
    (PopLooks c A : RingState w T W → Prop) loadWriteIndex
    fun write => Loaded A { c with cachedWrite := write } := by
  have hload : (popLayer r).Triple (PopLooks c A : RingState w T W → Prop) loadWriteIndex
      fun _ s => PopOwn A s ∧ WriteLoaded s := by
    refine .exchange popLooks_stable (fun _ => .and popOwn_stable writeLoaded_stable) ?_
    rintro s hI ⟨-, hown⟩ - -
    exact ⟨⟨hI.2.producer, hI.2.consumer⟩, popGuar ⟨rfl, .refl _, rfl, fun _ => rfl⟩, hown,
      s.accepted.length, ⟨hI.1.write, le_rfl, fun _ _ => rfl⟩, hI.1.le⟩
  exact (Layer.Triple.and_base (loadWriteIndex_triple c) hload).conseq (fun _ _ h => ⟨h.1, h⟩)
    fun _ _ _ h => ⟨⟨h.1, h.2.1⟩, h.2.2⟩

theorem takenUp_stable :
    (popLayer r).Stable fun s : RingState w T W => fresh → SeenEmpty False s :=
  fun s t hI hst h hf => seenEmpty_stable s t hI hst (h hf)

theorem loadConsumer_layer : (popLayer r).Triple
    (fun s : RingState w T W => (Taking 0 0 [] s ∧ PopOwn A s) ∧ (fresh → SeenEmpty False s))
    (load RingState.consumer)
    fun c s => PopLooks c A s ∧ (fresh → SeenEmpty False s) := by
  have hown : (popLayer r).Stable fun s : RingState w T W =>
      PopOwn A s ∧ (fresh → SeenEmpty False s) := .and popOwn_stable takenUp_stable
  refine Layer.Triple.conseq (Layer.Triple.and_base loadConsumer_triple
    (.load hown (fun _ => hown) popGuar_refl fun _ _ h => h)) (fun _ _ h => ⟨h.1.1, h.1.2, h.2⟩) ?_
  exact fun _ _ _ h => ⟨⟨h.1, h.2.1⟩, h.2.2⟩

omit [Waker W] in
/-- The items that a consumer counts, from a write index that it knows to be `d`. -/
theorem PopLooks.span {s : RingState w T W} (h : PopLooks c A s) (hI : RingInv r s)
    (hseen : SeenWrite fresh d s) (hle : s.taken.length ≤ d) :
    (c.cachedWrite - c.cachedRead).toNat = d - s.taken.length := by
  obtain ⟨⟨rfl, htake⟩, -⟩ := h
  have hread : s.consumer.cachedRead = BitVec.ofNat w s.taken.length := htake.read
  have hbound := hI.bound
  have hd := hseen.le
  exact span_eq (r := r) hseen.cached hread hle (by omega)

/-- An attempt that finds the ring empty has loaded the write index. -/
theorem appearsEmpty_layer : (popLayer r).Triple
    (PopLooks c A : RingState w T W → Prop) (appearsEmpty c)
    fun empty s => (∃ q : RingHandle w, PopLooks q A s) ∧ (empty = true → SeenEmpty True s) := by
  unfold appearsEmpty
  split
  · apply loadWriteIndex_layer.bind
    intro write
    refine .ret loaded_stable ?_
    rintro s hI ⟨hlooks, d, hseen, hle⟩
    refine ⟨⟨_, hlooks⟩, fun hempty => ⟨d, hseen, ?_⟩⟩
    have hspan : (write - c.cachedRead).toNat = d - s.taken.length := hlooks.span hI.1 hseen hle
    have hnone : (write - c.cachedRead).toNat = 0 := by simp [of_decide_eq_true hempty]
    omega
  · exact .ret popLooks_stable fun _ _ h => ⟨⟨_, h⟩, fun hempty => by cases hempty⟩

omit [Waker W] in
theorem PopLooks.receiving {s : RingState w T W} (h : PopLooks c A s) :
    ∃ d, Receiving A False d s.taken.length s := by
  obtain ⟨⟨-, htake⟩, hown⟩ := h
  obtain ⟨d, hd, hle, -⟩ := htake.cached
  exact ⟨d, hown.1, ⟨hd, hle, fun hf => hf.elim⟩, rfl⟩

theorem tryPop_layer : (popLayer r).Triple
    (fun s : RingState w T W => Taking 0 0 [] s ∧ PopOwn A s) (tryPop r)
    fun out s => Taking 0 0 [] s ∧ PopOwn A s ∧ (out = none → SeenEmpty True s) := by
  have htry : (popLayer r).Triple
      (fun s : RingState w T W => Taking 0 0 [] s ∧ PopOwn A s) (tryPop r)
      fun out s => PopOwn A s ∧ (out = none → SeenEmpty True s) := by
    refine Layer.Triple.bind ((@loadConsumer_layer w T W _ r A False).conseq
      (fun _ _ h => ⟨h, fun hf => hf.elim⟩) fun _ _ _ h => h.1) fun c => ?_
    apply appearsEmpty_layer.bind
    intro empty
    cases empty with
    | true =>
      refine .ret (fun s t hI hst h => ?_) fun _ _ ⟨⟨_, hq⟩, hempty⟩ => ⟨hq.2, fun _ => hempty rfl⟩
      obtain ⟨⟨q, hq⟩, hempty⟩ := h
      exact ⟨⟨q, popLooks_stable s t hI hst hq⟩, fun htrue => seenEmpty_stable s t hI hst (hempty htrue)⟩
    | false =>
      rintro s hI ⟨⟨q, hlooks⟩, -⟩
      obtain ⟨d, hreceive⟩ := hlooks.receiving
      refine Layer.Ok.mono (popOne_layer c.cachedRead s hI ⟨hreceive, hlooks.2.2⟩) ?_
      rintro out t - ⟨hsome, hown⟩
      exact ⟨hown, fun hnone => absurd hnone hsome⟩
  exact (Layer.Triple.and_base tryPop_keeps htry).conseq (fun _ _ h => ⟨h.1, h⟩) fun _ _ _ h => h

/-- The items counted from an index loaded now, or from the cached one if that tells of any. -/
theorem availableItems_layer : (popLayer r).Triple
    (fun s : RingState w T W => PopLooks c A s ∧ (fresh → SeenEmpty False s)) (availableItems c)
    fun available s => (∃ d, Receiving A fresh d (d - available) s ∧ available ≤ d) ∧
      s.producerSlot.signals () = none := by
  have hcount : ∀ {q : RingHandle w} {d : Nat} {s : RingState w T W}, (popLayer r).inv s →
      PopLooks q A s → SeenWrite fresh d s → s.taken.length ≤ d →
      (∃ d, Receiving A fresh d (d - (q.cachedWrite - q.cachedRead).toNat) s ∧
        (q.cachedWrite - q.cachedRead).toNat ≤ d) ∧ s.producerSlot.signals () = none := by
    intro q d s hI hlooks hseen hle
    rw [hlooks.span hI.1 hseen hle]
    exact ⟨⟨d, ⟨hlooks.2.1, hseen, by omega⟩, by omega⟩, hlooks.2.2⟩
  unfold availableItems
  split
  · apply (loadWriteIndex_layer.conseq (fun _ _ h => h.1) fun _ _ _ h => h).bind
    intro write
    refine .ret loaded_stable ?_
    rintro s hI ⟨hlooks, d, hseen, hle⟩
    exact hcount hI hlooks (hseen.weaken fun _ => trivial) hle
  · rename_i hsome
    refine .ret (.and popLooks_stable takenUp_stable) ?_
    rintro s hI ⟨hlooks, hempty⟩
    obtain ⟨d, hd, hle, hroom⟩ := hlooks.1.2.cached
    refine hcount hI hlooks ⟨by rw [hd], hle, fun hf => ?_⟩ hroom
    -- a cache that is used up would have been loaded again
    exfalso
    obtain ⟨e, hseen, hlen⟩ := hempty hf
    rw [hlooks.span hI.1 hseen hlen.le] at hsome
    omega

/-- A transfer that is cut short has taken all it knew of. -/
theorem tryPopSlice_layer (items : List (Option T)) (hne : items ≠ []) : (popLayer r).Triple
    (fun s : RingState w T W => (Taking 0 0 [] s ∧ PopOwn A s) ∧ (fresh → SeenEmpty False s))
    (tryPopSlice r items)
    fun out s => (Taking 0 0 [] s ∧ PopOwn A s) ∧
      (out.1 ≤ items.length ∧ out.2.length = items.length) ∧
      (out.1 < items.length → SeenEmpty fresh s) := by
  have htry : (popLayer r).Triple
      (fun s : RingState w T W => (Taking 0 0 [] s ∧ PopOwn A s) ∧ (fresh → SeenEmpty False s))
      (tryPopSlice r items)
      fun out s => PopOwn A s ∧ (out.1 ≤ items.length ∧ out.2.length = items.length) ∧
        (out.1 < items.length → SeenEmpty fresh s) := by
    unfold tryPopSlice
    rw [if_neg (by simpa using hne)]
    apply loadConsumer_layer.bind
    intro c
    apply availableItems_layer.bind
    intro available
    rintro s hI ⟨⟨d, hreceive, havailable⟩, hquiet⟩
    split
    · rename_i hzero
      refine Layer.Triple.ret (receiving_stable none) ?_ s hI ⟨hreceive, hquiet⟩
      rintro t - ⟨h, hquiet⟩
      refine ⟨⟨h.own, hquiet⟩, ⟨Nat.zero_le _, rfl⟩, fun _ => ⟨d, h.seen, ?_⟩⟩
      rw [h.taken, hzero]
      rfl
    · refine Layer.Ok.bind (popItems_layer c.cachedRead (min items.length available) s hI
        ⟨hreceive, hquiet⟩) fun front => ?_
      rintro t hI' ⟨hfront, h⟩
      refine Layer.Triple.ret (receiving_stable none) ?_ t hI' h
      rintro t - ⟨h, hquiet⟩
      refine ⟨⟨h.own, hquiet⟩, ⟨by simp, ?_⟩, fun hshort => ⟨d, h.seen, ?_⟩⟩
      · rw [List.length_append, hfront, List.length_drop]
        omega
      · rw [h.taken]
        omega
  exact (Layer.Triple.and_base (tryPopSlice_keeps items) htry).conseq (fun _ _ h => ⟨h.1.1, h⟩)
    fun _ _ _ h => ⟨⟨h.1, h.2.1⟩, h.2.2⟩

end Attempt

section Polls

variable {fresh : Prop} {waker : W}

/-- A poll of a consumer's future with this waker. -/
def popPolling (waker : W) (here phase : Phase W) (current : Option W)
    (future : Option (PopFuture T)) : Prop :=
  phase = here ∧ current = some waker ∧ future ≠ none

/-- The consumer in a poll: at rest in the ring, and inside its slot. -/
def PopPoll (waker : W) (here : Phase W) (s : RingState w T W) : Prop :=
  Taking 0 0 [] s ∧ PopOwn (popPolling waker here) s

theorem popPoll_stable {here : Phase W} :
    (popLayer r).Stable (PopPoll waker here : RingState w T W → Prop) :=
  .and (.of_base Taking.stable) popOwn_stable

theorem armConsumer_layer : (popLayer r).Triple
    (fun s : RingState w T W => PopPoll waker .out s ∧ (fresh → SeenEmpty False s))
    (armConsumer waker)
    fun _ s => PopPoll waker .armed s ∧ (fresh → SeenEmpty False s) := by
  have hkeep : ∀ (s : RingState w T W) (x : SlotUse W Unit), (fresh → SeenEmpty False s) →
      fresh → SeenEmpty False { s with consumerSlot := x } := by
    intro s x h hf
    obtain ⟨d, hseen, hlen⟩ := h hf
    exact ⟨d, ⟨hseen.cached, hseen.le, fun hfalse => hfalse.elim⟩, hlen⟩
  have harm : (popLayer r).Triple
      (fun s : RingState w T W => ((s.consumerSlot.current = some waker ∧ s.popFuture ≠ none ∧
        s.producerSlot.signals () = none) ∧ (fresh → SeenEmpty False s)) ∧
        s.consumerSlot.phase = .out)
      (armConsumer waker)
      fun _ s => ((s.consumerSlot.current = some waker ∧ s.popFuture ≠ none ∧
        s.producerSlot.signals () = none) ∧ (fresh → SeenEmpty False s)) ∧
        s.consumerSlot.phase = .armed := by
    refine arm_layer (L := popLayer r) (fun _ _ => rfl) (fun s hI => hI.2.consumer) ?_ ?_ ?_
    · intro phase s t hI hst h
      have hwait : PopRely s t := hst.2
      rw [hwait.slot.current, hwait.slot.phase, hwait.future, hwait.signals]
      exact ⟨⟨h.1.1, takenUp_stable s t hI hst h.1.2⟩, h.2⟩
    · intro s pc hI h hpc _ _
      exact ⟨⟨hI.2.producer, hI.2.consumer.armStep hpc⟩, popGuar ⟨rfl, .refl _, rfl, fun _ => rfl⟩,
        h.1, hkeep s _ h.2⟩
    · intro s hI h hout _ _
      exact ⟨⟨hI.2.producer, hI.2.consumer.beginArm hout h.1.1⟩,
        popGuar ⟨rfl, .refl _, rfl, fun _ => rfl⟩, h.1, hkeep s _ h.2⟩
  refine (Layer.Triple.and_base (armConsumer_keeps waker) harm).conseq ?_ ?_
  · rintro s - ⟨⟨htake, ⟨hphase, hcurrent, hfuture⟩, hquiet⟩, hempty⟩
    exact ⟨htake, ⟨⟨hcurrent, hfuture, hquiet⟩, hempty⟩, hphase⟩
  · rintro _ s - ⟨htake, ⟨⟨hcurrent, hfuture, hquiet⟩, hempty⟩, hphase⟩
    exact ⟨⟨htake, ⟨hphase, hcurrent, hfuture⟩, hquiet⟩, hempty⟩

theorem popRest_stable : (popLayer r).Stable (PopRest : RingState w T W → Prop) := by
  intro s t _ hst h
  have hbase : ConsumerRely s t := hst.1
  have hwait : PopRely s t := hst.2
  refine ⟨by rw [hwait.signals, h.quiet], by rw [hwait.future]; exact h.unfinished, ?_⟩
  rw [hwait.slot.phase, hwait.future, hbase.taken]
  refine h.slot.imp id fun ⟨harmed, hsome, hempty⟩ => ⟨harmed, hsome, fun hp => ?_⟩
  rw [hwait.accepted hp]
  exact hempty (hwait.slot.published hp)

theorem popReady_layer (out : RingOut T) : (popLayer r).Triple
    (PopPoll waker .out : RingState w T W → Prop) (popReady out) fun _ => PopRest := by
  refine .store popPoll_stable (fun _ => popRest_stable) ?_
  rintro s hI ⟨-, ⟨hphase, -⟩, hquiet⟩ - -
  exact ⟨⟨hI.2.producer, hI.2.consumer⟩, popGuar ⟨rfl, .refl _, rfl, fun _ => rfl⟩,
    hquiet, fun _ hf => (by cases hf), .inl ⟨hphase, rfl⟩⟩

theorem disarmConsumer_layer : (popLayer r).Triple
    (PopPoll waker .armed : RingState w T W → Prop) disarmConsumer fun _ => PopPoll waker .out := by
  have hdisarm : (popLayer r).Triple (PopPoll waker .armed : RingState w T W → Prop)
      disarmConsumer fun _ => PopOwn (popPolling waker .out) := by
    refine .store popPoll_stable (fun _ => popOwn_stable) ?_
    rintro s hI ⟨-, ⟨hphase, hcurrent, hfuture⟩, hquiet⟩ - -
    exact ⟨⟨hI.2.producer, hI.2.consumer.quit (by simp [hphase]) rfl rfl rfl⟩,
      popGuar ⟨rfl, .refl _, rfl, fun _ => rfl⟩, ⟨rfl, hcurrent, hfuture⟩, hquiet⟩
  exact (Layer.Triple.and_base disarmConsumer_keeps hdisarm).conseq (fun _ _ h => ⟨h.1, h⟩)
    fun _ _ _ h => h

/-- The future parks: the ring is empty as far as no signal says otherwise. -/
theorem popPending_layer {future : PopFuture T} (hfuture : PopFuture.Unfinished future) :
    (popLayer r).Triple (fun s : RingState w T W => PopPoll waker .armed s ∧ SeenEmpty True s)
      (popPending future) fun _ => PopRest := by
  refine .store (.and popPoll_stable seenEmpty_stable) (fun _ => popRest_stable) ?_
  rintro s hI ⟨⟨-, ⟨hphase, -⟩, hquiet⟩, d, hseen, hlen⟩ - -
  refine ⟨⟨hI.2.producer, hI.2.consumer⟩, popGuar ⟨rfl, .refl _, rfl, fun _ => rfl⟩,
    hquiet, fun _ hf => ?_, .inr ⟨hphase, by simp, fun hp => ?_⟩⟩
  · cases hf
    exact hfuture
  · exact (hseen.fresh trivial hp).trans hlen.symm

theorem setPopped_layer {here : Phase W} {P F : Prop} (n : Nat) : (popLayer r).Triple
    (fun s : RingState w T W => PopPoll waker here s ∧ (P → SeenEmpty F s)) (setPopped n)
    fun _ s => PopPoll waker here s ∧ (P → SeenEmpty F s) := by
  have hempty : (popLayer r).Stable fun s : RingState w T W => P → SeenEmpty F s :=
    fun s t hI hst h hp => seenEmpty_stable s t hI hst (h hp)
  have hset : (popLayer r).Triple
      (fun s : RingState w T W => PopOwn (popPolling waker here) s ∧ (P → SeenEmpty F s))
      (setPopped n)
      fun _ s => PopOwn (popPolling waker here) s ∧ (P → SeenEmpty F s) := by
    refine popSame_layer (.and popOwn_stable hempty) (.and popOwn_stable hempty)
      (fun _ => by constructor <;> rfl) fun s h => ⟨h.1, fun hp => ?_⟩
    obtain ⟨d, hseen, hlen⟩ := h.2 hp
    exact ⟨d, ⟨hseen.cached, hseen.le, hseen.fresh⟩, hlen⟩
  exact (Layer.Triple.and_base (setPopped_keeps n) hset).conseq (fun _ _ h => ⟨h.1.1, h.1.2, h.2⟩)
    fun _ _ _ h => ⟨⟨h.1, h.2.1⟩, h.2.2⟩

theorem pollPopFuture_layer : (popLayer r).Triple
    (PopPoll waker .out : RingState w T W → Prop) (pollPopFuture r waker) fun _ => PopRest := by
  apply tryPop_layer.bind
  rintro (_ | value)
  · refine Layer.Triple.bind ((@armConsumer_layer w T W _ r False waker).conseq
      (fun _ _ h => ⟨⟨h.1, h.2.1⟩, fun hf => hf.elim⟩) fun _ _ _ h => h.1) fun _ => ?_
    apply tryPop_layer.bind
    rintro (_ | value)
    · have hpending : PopFuture.Unfinished (T := T) .popping := trivial
      exact (popPending_layer hpending).conseq (fun _ _ h => ⟨⟨h.1, h.2.1⟩, h.2.2 rfl⟩)
        fun _ _ _ h => h
    · refine Layer.Triple.bind (disarmConsumer_layer.conseq (fun _ _ h => ⟨h.1, h.2.1⟩)
        fun _ _ _ h => h) fun _ => ?_
      exact popReady_layer _
  · exact (popReady_layer _).conseq (fun _ _ h => ⟨h.1, h.2.1⟩) fun _ _ _ h => h

/-- Every attempt of a slice future is made with room left in the slice, and keeps its length. -/
theorem popAttempt_layer {here : Phase W} {items : List (Option T)} {k : Nat}
    (hk : k < items.length) : (popLayer r).Triple
      (fun s : RingState w T W => PopPoll waker here s ∧ (fresh → SeenEmpty False s))
      (tryPopSlice r (items.drop k))
      fun out s => PopPoll waker here s ∧ (k + out.1 ≤ items.length ∧
        (items.take k ++ out.2).length = items.length) ∧
        (k + out.1 < items.length → SeenEmpty fresh s) := by
  have hlen : (items.drop k).length = items.length - k := List.length_drop
  have hne : items.drop k ≠ [] := by
    rw [Ne, List.drop_eq_nil_iff]
    omega
  refine (tryPopSlice_layer (items.drop k) hne).conseq (fun _ _ h => h) fun out s _ h => ?_
  rw [hlen] at h
  refine ⟨h.1, ⟨by omega, ?_⟩, fun hshort => h.2.2 (by omega)⟩
  rw [List.length_append, h.2.1.2, List.length_take]
  omega

theorem pollPopSliceFuture_layer (items : List (Option T)) {poppedSoFar : Nat}
    (hlt : poppedSoFar < items.length) : (popLayer r).Triple
      (PopPoll waker .out : RingState w T W → Prop)
      (pollPopSliceFuture r waker items poppedSoFar) fun _ => PopRest := by
  refine Layer.Triple.bind ((@popAttempt_layer w T W _ r False waker .out items _ hlt).conseq
    (fun _ _ h => ⟨h, fun hf => hf.elim⟩) fun _ _ _ h => h) ?_
  rintro ⟨popped, rest⟩
  dsimp only
  split
  · exact (popReady_layer _).conseq (fun _ _ h => h.1) fun _ _ _ h => h
  · rename_i hmore
    rintro s hI ⟨hpoll, ⟨hle, hfilled⟩, hempty⟩
    have hlt' : poppedSoFar + popped < items.length := by omega
    generalize hf : items.take poppedSoFar ++ rest = filled at hfilled ⊢
    have hrest : (popLayer r).Triple
        (fun s : RingState w T W => PopPoll waker .out s ∧ (True → SeenEmpty False s))
        (do
          setPopped (poppedSoFar + popped)
          armConsumer waker
          let out ← tryPopSlice r (filled.drop (poppedSoFar + popped))
          if 0 < out.1 ∧ poppedSoFar + popped + out.1 = items.length then do
            disarmConsumer
            popReady (.slice (filled.take (poppedSoFar + popped) ++ out.2)
              (poppedSoFar + popped + out.1))
          else do
            setPopped (poppedSoFar + popped + out.1)
            popPending (.slicing (filled.take (poppedSoFar + popped) ++ out.2)
              (poppedSoFar + popped + out.1)))
        fun _ => PopRest := by
      apply (setPopped_layer _).bind
      intro _
      apply armConsumer_layer.bind
      intro _
      apply (popAttempt_layer (hfilled.symm ▸ hlt')).bind
      rintro ⟨again, rest⟩
      split
      · refine Layer.Triple.bind (disarmConsumer_layer.conseq (fun _ _ h => h.1) fun _ _ _ h => h)
          fun _ => ?_
        exact popReady_layer _
      · rintro s hI ⟨hpoll, ⟨hle, hfull⟩, hempty⟩
        have hlt : poppedSoFar + popped + again < filled.length := by omega
        have hpending : PopFuture.Unfinished (.slicing (filled.take (poppedSoFar + popped) ++ rest)
            (poppedSoFar + popped + again)) := by
          rw [← hfull] at hlt
          exact hlt
        refine Layer.Triple.bind (setPopped_layer _) (fun _ => ?_) s hI
          ⟨hpoll, fun _ : True => hempty hlt⟩
        exact (popPending_layer hpending).conseq (fun _ _ h => ⟨h.1, h.2 trivial⟩) fun _ _ _ h => h
    exact hrest s hI ⟨hpoll, fun _ => hempty hlt'⟩

theorem pollPop_layer {future : PopFuture T} (hfuture : PopFuture.Unfinished future) :
    (popLayer r).Triple (PopPoll waker .out : RingState w T W → Prop) (pollPop r waker future)
      fun _ => PopRest := by
  cases future with
  | pop =>
    apply tryPop_layer.bind
    rintro (_ | value)
    · exact pollPopFuture_layer.conseq (fun _ _ h => ⟨h.1, h.2.1⟩) fun _ _ _ h => h
    · exact (popReady_layer _).conseq (fun _ _ h => ⟨h.1, h.2.1⟩) fun _ _ _ h => h
  | popping => exact pollPopFuture_layer
  | popSlice items =>
    have hset : ∀ n, (popLayer r).Triple (PopPoll waker .out : RingState w T W → Prop)
        (setPopped n) fun _ => PopPoll waker .out := fun n =>
      (@setPopped_layer w T W _ r waker .out False False n).conseq
        (fun _ _ h => ⟨h, fun hf => hf.elim⟩) fun _ _ _ h => h.1
    rw [pollPop]
    split
    · exact (hset 0).bind fun _ => popReady_layer _
    · rename_i hne
      refine Layer.Triple.bind ((@tryPopSlice_layer w T W _ r _ False items (by simpa using hne)).conseq
        (fun _ _ h => ⟨h, fun hf => hf.elim⟩) fun _ _ _ h => h) ?_
      rintro ⟨n, filled⟩ s hI ⟨hpoll, ⟨hle, hfilled⟩, -⟩
      dsimp only at hle hfilled
      refine Layer.Triple.bind (hset n) (fun _ => ?_) s hI hpoll
      split
      · exact popReady_layer _
      · exact pollPopSliceFuture_layer filled (by omega)
  | slicing items poppedSoFar => exact pollPopSliceFuture_layer items hfuture

end Polls

section Calls

/-- The consumer without a future. -/
def popIdle (phase : Phase W) (_ : Option W) (future : Option (PopFuture T)) : Prop :=
  phase = .out ∧ future = none

omit [Waker W] in
theorem PopOwn.rest {s : RingState w T W} (h : PopOwn popIdle s) : PopRest s := by
  obtain ⟨⟨hphase, hfuture⟩, hquiet⟩ := h
  exact ⟨hquiet, fun future hf => by simp [hfuture] at hf, .inl ⟨hphase, by simp [hfuture]⟩⟩

theorem consumerReturns_layer (out : RingOut T) : (popLayer r).Triple
    (PopOwn popIdle : RingState w T W → Prop) (consumerReturns out) fun _ => PopRest :=
  popSame_layer popOwn_stable popRest_stable (fun _ => by constructor <;> rfl)
    fun s h => PopOwn.rest (s := { s with consumerOut := some out }) h

theorem popSomeOf_layer (items : List (Option T)) : (popLayer r).Triple
    (fun s : RingState w T W => Taking 0 0 [] s ∧ PopOwn popIdle s) (tryPopSlice r items)
    fun _ => PopOwn popIdle := by
  by_cases hne : items = []
  · unfold tryPopSlice
    rw [if_pos (by simpa using hne)]
    exact .ret (.and (.of_base Taking.stable) popOwn_stable) fun _ _ h => h.2
  · exact (@tryPopSlice_layer w T W _ r _ False items hne).conseq
      (fun _ _ h => ⟨h, fun hf => hf.elim⟩) fun _ _ _ h => h.1.2

theorem availableCount_layer : (popLayer r).Triple
    (fun s : RingState w T W => Taking 0 0 [] s ∧ PopOwn popIdle s) availableCount
    fun _ => PopOwn popIdle := by
  rintro s hI ⟨htake, hown⟩
  refine Layer.Ok.bind (loadWriteIndex_layer s hI ⟨⟨rfl, htake⟩, hown⟩) fun write => ?_
  have hload : (popLayer r).Triple (PopOwn popIdle : RingState w T W → Prop)
      (do
        let c ← load RingState.consumer
        pure (write - c.cachedRead))
      fun _ => PopOwn popIdle := by
    refine Layer.Triple.bind (.load popOwn_stable (fun _ => popOwn_stable) popGuar_refl
      fun _ _ h => h) fun c => ?_
    exact .ret popOwn_stable fun _ _ h => h
  exact hload.conseq (fun _ _ h => h.1.2) fun _ _ _ h => h

/-- What a call of the consumer must establish in the layer. -/
def PopStarts (r : RingBuf w) (s : RingState w T W)
    (call : RingState w T W × Prog (RingState w T W) PUnit.{1}) : Prop :=
  WaitInv call.1 ∧ PushRely s call.1 ∧
    (RingInv r call.1 → (popLayer r).Ok (fun _ => PopRest) call.2 call.1)

theorem popStarts_of_triple {s : RingState w T W} {p : Prog (RingState w T W) PUnit.{1}}
    (hI : WaitInv s) (htake : Taking 0 0 [] s) (hown : PopOwn popIdle s)
    (hp : (popLayer r).Triple (fun s => Taking 0 0 [] s ∧ PopOwn popIdle s) p fun _ => PopRest) :
    PopStarts r s (s, p) :=
  ⟨hI, ⟨rfl, .refl _, rfl, fun _ => rfl⟩, fun hB => hp s ⟨hB, hI⟩ ⟨htake, hown⟩⟩

theorem popStarts_of_rest {s t : RingState w T W} (hI : WaitInv t) (hrely : PushRely s t)
    (h : PopRest t) : PopStarts r s (t, pure ⟨⟩) :=
  ⟨hI, hrely, fun hB => Layer.Triple.ret popRest_stable (fun _ _ h => h) t ⟨hB, hI⟩ h⟩

theorem consumerCall_waits {s : RingState w T W} {op : RingOp T W}
    {call : RingState w T W × Prog (RingState w T W) PUnit.{1}} (hI : WaitInv s)
    (htake : Taking 0 0 [] s) (hown : PopOwn popIdle s)
    (hcall : consumerCall r s op = some call) : PopStarts r s call := by
  cases op <;> simp only [consumerCall, Option.some.injEq, reduceCtorEq] at hcall <;> subst hcall
  case tryPop =>
    refine popStarts_of_triple hI htake hown ?_
    apply tryPop_layer.bind
    intro item
    exact (consumerReturns_layer _).conseq (fun _ _ h => h.2.1) fun _ _ _ h => h
  case tryPopSlice items =>
    refine popStarts_of_triple hI htake hown ?_
    exact (popSomeOf_layer _).bind fun _ => consumerReturns_layer _
  case availableCount =>
    refine popStarts_of_triple hI htake hown ?_
    exact availableCount_layer.bind fun _ => consumerReturns_layer _
  case consumerIsEmpty =>
    refine popStarts_of_triple hI htake hown ?_
    exact availableCount_layer.bind fun _ => consumerReturns_layer _
  case consumerIsFull =>
    refine popStarts_of_triple hI htake hown ?_
    exact availableCount_layer.bind fun _ => consumerReturns_layer _
  case pop =>
    refine popStarts_of_rest ⟨hI.producer, hI.consumer⟩ ⟨rfl, .refl _, rfl, fun _ => rfl⟩
      ⟨hown.2, fun future hf => ?_, .inl ⟨hown.1.1, rfl⟩⟩
    cases hf
    trivial
  case popSlice items =>
    refine popStarts_of_rest ⟨hI.producer, hI.consumer⟩ ⟨rfl, .refl _, rfl, fun _ => rfl⟩
      ⟨hown.2, fun future hf => ?_, .inl ⟨hown.1.1, rfl⟩⟩
    cases hf
    trivial
  case dropConsumer =>
    exact popStarts_of_rest ⟨hI.producer, hI.consumer⟩ ⟨rfl, .refl _, rfl, fun _ => rfl⟩
      (PopOwn.rest hown)

theorem consumer_waits {s : RingState w T W} {op : RingOp T W}
    {call : RingState w T W × Prog (RingState w T W) PUnit.{1}} (hI : WaitInv s)
    (htake : s.consumerAlive = true → Taking 0 0 [] s) (hrest : PopRest s)
    (hcall : ringCall r .consumer op s = some call) : PopStarts r s call := by
  have hnot : ∀ pc, s.consumerSlot.phase ≠ .arming pc := by
    intro pc hpc
    rcases hrest.slot with ⟨h, -⟩ | ⟨h, -⟩ <;> simp [h] at hpc
  simp only [ringCall] at hcall
  split at hcall
  · rename_i halive
    specialize htake halive
    split at hcall
    · rename_i hnone
      have hout : s.consumerSlot.phase = .out :=
        (hrest.slot.resolve_right fun h => h.2.1 hnone).1
      exact consumerCall_waits hI htake ⟨⟨hout, hnone⟩, hrest.quiet⟩ hcall
    · rename_i future waker hsome
      cases hcall
      have hI' : WaitInv { s with consumerSlot := s.consumerSlot.beginPoll waker } :=
        ⟨hI.producer, hI.consumer.quit hnot rfl rfl rfl⟩
      refine ⟨hI', ⟨rfl, .refl _, rfl, fun _ => rfl⟩, fun hB' => ?_⟩
      refine pollPop_layer (hrest.unfinished future hsome) _ ⟨hB', hI'⟩
        ⟨Taking.stable (r := r) s _ hB' ⟨rfl, rfl, List.prefix_rfl, rfl⟩ htake, ⟨rfl, rfl, ?_⟩,
          hrest.quiet⟩
      simp [hsome]
    · cases hcall
      exact popStarts_of_rest ⟨hI.producer, hI.consumer.quit hnot rfl rfl rfl⟩
        ⟨rfl, .refl _, rfl, fun _ => rfl⟩ ⟨hrest.quiet, fun _ hf => (by cases hf), .inl ⟨rfl, rfl⟩⟩
    · cases hcall
  · cases hcall

end Calls

end Cynosure.SiteD.Ring
