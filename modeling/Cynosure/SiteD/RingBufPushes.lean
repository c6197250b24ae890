import Cynosure.SiteD.RingBufOuts

/-! # What a try of the producer does, to the item

The room that the producer sees in its cached read index is known exactly. A try uses it
as long as it is not zero, and looks at the shared index only then; the consumer may have
taken any number of items by that time, but not fewer than before.
-/

namespace Cynosure.SiteD.Ring

open Prog

variable {w : Nat} {T W : Type} {r : RingBuf w}

/-- The calls of the producer, whose contract is met. -/
abbrev producerKnown (r : RingBuf w) : Layer (RingState w T W) :=
  ((ringCalls r).contract .producer).known

/-- `A` is published, at least `n` items are taken, the cached indices show room for `k` items,
and the producer's own index is `ahead` of the shared one; `o` are the producer's future and its
counter, which a try leaves alone. -/
structure Pushing (r : RingBuf w) (o : Option (PushFuture T) × Nat) (A : List T) (n k ahead : Nat)
    (s : RingState w T W) : Prop where
  alive : s.producerAlive = true
  own : (s.pushFuture, s.pushed) = o
  accepted : s.accepted = A
  taken : n ≤ s.taken.length
  write : s.producer.cachedWrite = BitVec.ofNat w (A.length + ahead)
  cached : ∃ c, s.producer.cachedRead = BitVec.ofNat w c ∧ c ≤ A.length ∧
    A.length + k = c + r.capacity.toNat

structure SamePush (s t : RingState w T W) : Prop where
  alive : t.producerAlive = s.producerAlive
  own : (t.pushFuture, t.pushed) = (s.pushFuture, s.pushed)
  accepted : t.accepted = s.accepted
  taken : t.taken = s.taken
  producer : t.producer = s.producer

/-- How many items the producer has room for, and how many it knows to be taken, once it has
looked: at the shared index only if it saw no room. -/
def Looked (r : RingBuf w) (A : List T) (n k n' k' : Nat) : Prop :=
  if k = 0 then n ≤ n' ∧ A.length + k' = n' + r.capacity.toNat else n' = n ∧ k' = k

namespace Pushing

variable {o : Option (PushFuture T) × Nat} {A : List T} {n k ahead : Nat} {s : RingState w T W}

theorem stable : (producerKnown (W := W) r).Stable (Pushing r o A n k ahead) := by
  rintro s t - ⟨⟨hst, hown⟩, -⟩ h
  have hst : ProducerRely s t := hst
  have hown : ProducerOwn s t := hown
  obtain ⟨c, hc, hle, hk⟩ := h.cached
  exact ⟨by rw [hst.alive, h.alive], by rw [hown.future, hown.pushed, h.own],
    by rw [hst.accepted, h.accepted], h.taken.trans hst.taken, by rw [hst.handle, h.write], c,
    by rw [hst.handle, hc], hle, hk⟩

/-- What `capacity - (write - read)` is. -/
theorem space (h : Pushing r o A n k 0 s) :
    r.capacity.toNat - (s.producer.cachedWrite - s.producer.cachedRead).toNat = k := by
  obtain ⟨c, hc, hle, hk⟩ := h.cached
  have hlt := RingInv.capacity_lt r
  rw [h.write, hc, Nat.add_zero, Word.toNat_sub hle (by omega)]
  omega

theorem used_le (h : Pushing r o A n k 0 s) :
    (s.producer.cachedWrite - s.producer.cachedRead).toNat ≤ r.capacity.toNat := by
  obtain ⟨c, hc, hle, hk⟩ := h.cached
  have hlt := RingInv.capacity_lt r
  rw [h.write, hc, Nat.add_zero, Word.toNat_sub hle (by omega)]
  omega

/-- `free_count` does not underflow. -/
theorem free (h : Pushing r o A n k 0 s) :
    (r.capacity - (s.producer.cachedWrite - s.producer.cachedRead)).toNat = k := by
  rw [BitVec.toNat_sub_of_le (by rw [BitVec.le_def]; exact h.used_le), h.space]

theorem le_capacity (h : Pushing r o A n k ahead s) : k ≤ r.capacity.toNat := by
  obtain ⟨c, -, hle, hk⟩ := h.cached
  omega

theorem full_iff (h : Pushing r o A n k 0 s) :
    r.capacity ≤ s.producer.cachedWrite - s.producer.cachedRead ↔ k = 0 := by
  have hspace := h.space
  have := h.le_capacity
  rw [BitVec.le_def]
  omega

theorem congr {t : RingState w T W} (h : Pushing r o A n k ahead s) (hst : SamePush s t) :
    Pushing r o A n k ahead t := by
  obtain ⟨c, hc, hle, hk⟩ := h.cached
  exact ⟨by rw [hst.alive, h.alive], by rw [hst.own, h.own], by rw [hst.accepted, h.accepted],
    by rw [hst.taken]; exact h.taken, by rw [hst.producer, h.write], c, by rw [hst.producer, hc], hle, hk⟩

/-- A call starts: it may touch the future and the counter, but not the ring. -/
theorem start {t : RingState w T W} (h : Pushing r o A n k ahead s) (hst : SameRing s t) :
    Pushing r (t.pushFuture, t.pushed) A n k ahead t := by
  obtain ⟨c, hc, hle, hk⟩ := h.cached
  exact ⟨by rw [hst.producerAlive, h.alive], rfl, by rw [hst.accepted, h.accepted],
    by rw [hst.taken]; exact h.taken, by rw [hst.producer, h.write], c, by rw [hst.producer, hc], hle, hk⟩

theorem reload (h : Pushing r o A n k 0 s) (hI : RingInv r s) : ∃ k',
    n ≤ s.taken.length ∧ A.length + k' = s.taken.length + r.capacity.toNat ∧
      Pushing r o A s.taken.length k' 0
        { s with producer := { s.producer with cachedRead := s.readIndex } } := by
  have hle := hI.le
  have hbound := hI.bound
  rw [h.accepted] at hle hbound
  refine ⟨s.taken.length + r.capacity.toNat - A.length, h.taken, by omega, h.alive, h.own,
    h.accepted, le_rfl, h.write, s.taken.length, hI.read, hle, by omega⟩

theorem publish {items : List T} (h : Pushing r o A n k items.length s) (hle : items.length ≤ k) :
    Pushing r o (A ++ items) n (k - items.length) 0 (s.publishWrite items) := by
  obtain ⟨c, hc, hcA, hk⟩ := h.cached
  refine ⟨h.alive, h.own, by rw [← h.accepted]; rfl, h.taken, ?_, c, hc, ?_, ?_⟩
  · rw [List.length_append, Nat.add_zero]
    exact h.write
  · rw [List.length_append]
    omega
  · rw [List.length_append]
    omega

/-- Between calls: the cached room of the producer is some number. -/
theorem of_rest (h : Filling r 0 0 ([] : List T) s) (hI : RingInv r s) :
    Pushing r (s.pushFuture, s.pushed) s.accepted s.taken.length
      (r.capacity.toNat - (s.producer.cachedWrite - s.producer.cachedRead).toNat) 0 s := by
  obtain ⟨c, hc, hle, hroom⟩ := h.cached
  have hca := hle.trans hI.le
  have hlt := RingInv.capacity_lt r
  refine ⟨h.alive, rfl, rfl, le_rfl, h.write, c, hc, hca, ?_⟩
  rw [h.write, hc, Nat.add_zero, Word.toNat_sub hca (by omega)]
  omega

end Pushing

section Tries

variable {o : Option (PushFuture T) × Nat} {A : List T} {n k : Nat}

/-- An action that changes none of the fields of which the count speaks. -/
theorem pushSame_triple {ahead : Nat} {f : RingState w T W → RingState w T W}
    (hf : ∀ s, SamePush s (f s)) :
    (producerKnown r).Triple (Pushing r o A n k ahead) (store f) fun _ => Pushing r o A n k ahead := by
  refine .store Pushing.stable (fun _ => Pushing.stable) fun s _ h => ?_
  exact Contract.known_keeps fun _ => h.congr (hf s)

theorem pushZoom_triple {X α : Type} {ahead : Nat} {get : RingState w T W → X}
    {set : RingState w T W → X → RingState w T W}
    (hset : ∀ s x, SamePush s (set s x)) (p : Prog X α) :
    (producerKnown r).Triple (Pushing r o A n k ahead) (p.zoom get set)
      fun _ => Pushing r o A n k ahead := by
  refine .zoom Pushing.stable (fun s x _ h => ?_) p
  exact Contract.known_keeps fun _ => h.congr (hset s x)

/-- The handle is `p`, with the count that belongs to it. -/
def PushesFrom (r : RingBuf w) (o : Option (PushFuture T) × Nat) (A : List T) (n k : Nat)
    (p : RingHandle w) (s : RingState w T W) : Prop :=
  s.producer = p ∧ Pushing r o A n k 0 s

theorem PushesFrom.stable (p : RingHandle w) :
    (producerKnown (W := W) r).Stable (PushesFrom r o A n k p) := by
  intro s t ht hst h
  exact ⟨(show ProducerRely s t from hst.1.1).handle.trans h.1, Pushing.stable s t ht hst h.2⟩

theorem loadProducer_pushes : (producerKnown (W := W) r).Triple (Pushing r o A n k 0)
    (load RingState.producer) (PushesFrom r o A n k) :=
  .load Pushing.stable PushesFrom.stable (fun _ => trivial) fun _ _ h => ⟨rfl, h⟩

/-- The room after a look, for a producer that keeps its own index. -/
def LooksFrom (r : RingBuf w) (o : Option (PushFuture T) × Nat) (A : List T) (n k : Nat)
    (write : BitVec w) (k' : Nat) (s : RingState w T W) : Prop :=
  ∃ n', Looked r A n k n' k' ∧ s.producer.cachedWrite = write ∧ Pushing r o A n' k' 0 s

theorem LooksFrom.stable (write : BitVec w) (k' : Nat) :
    (producerKnown (W := W) r).Stable (LooksFrom r o A n k write k') := by
  rintro s t ht hst ⟨n', hlook, hwrite, h⟩
  exact ⟨n', hlook, by rw [(show ProducerRely s t from hst.1.1).handle, hwrite],
    Pushing.stable s t ht hst h⟩

theorem loadReadIndex_pushes (p : RingHandle w) (hk : k = 0) : (producerKnown (W := W) r).Triple
    (PushesFrom r o A n k p) loadReadIndex fun read s =>
      LooksFrom r o A n k p.cachedWrite (r.capacity.toNat - (p.cachedWrite - read).toNat) s := by
  refine .exchange (PushesFrom.stable p) (fun read => LooksFrom.stable _ _) ?_
  rintro s hI ⟨rfl, h⟩
  refine Contract.known_keeps fun _ => ?_
  obtain ⟨k', hn, hk', h'⟩ := h.reload hI.1.1
  have hspace := h'.space
  simp only at hspace
  refine ⟨s.taken.length, ?_, rfl, by rwa [hspace]⟩
  rw [hspace, Looked, if_pos hk]
  exact ⟨hn, hk'⟩

theorem looked_cached (hpos : k ≠ 0) : Looked r A n k n k := by
  rw [Looked, if_neg hpos]
  exact ⟨rfl, rfl⟩

theorem availableSpace_pushes (p : RingHandle w) : (producerKnown (W := W) r).Triple
    (PushesFrom r o A n k p) (availableSpace r p) (LooksFrom r o A n k p.cachedWrite) := by
  rintro s hs ⟨rfl, h⟩
  have hspace := h.space
  unfold availableSpace
  split
  · rename_i hzero
    refine (loadReadIndex_pushes s.producer (by omega) s hs ⟨rfl, h⟩).bind fun read => ?_
    exact .ret (LooksFrom.stable _ _) fun _ _ h => h
  · rename_i hpos
    rw [hspace] at hpos ⊢
    refine Layer.Triple.ret (PushesFrom.stable s.producer) (fun t _ ht => ?_) s hs ⟨rfl, h⟩
    exact ⟨n, looked_cached hpos, by rw [ht.1], ht.2⟩

theorem appearsFull_pushes (p : RingHandle w) : (producerKnown (W := W) r).Triple
    (PushesFrom r o A n k p) (appearsFull r p) fun full s =>
      ∃ k', (full = true ↔ k' = 0) ∧ LooksFrom r o A n k p.cachedWrite k' s := by
  rintro s hs ⟨rfl, h⟩
  have hlt := RingInv.capacity_lt r
  unfold appearsFull
  split
  · rename_i hfull
    refine (loadReadIndex_pushes s.producer (h.full_iff.mp hfull) s hs ⟨rfl, h⟩).bind fun read => ?_
    refine .ret (LooksFrom.stable _ _) fun t _ ht => ⟨_, ?_, ht⟩
    rw [decide_eq_true_iff, BitVec.le_def]
    omega
  · rename_i hroom
    rw [h.full_iff] at hroom
    refine Layer.Triple.ret (PushesFrom.stable s.producer) (fun t _ ht => ?_) s hs ⟨rfl, h⟩
    exact ⟨k, by simp [hroom], n, looked_cached hroom, by rw [ht.1], ht.2⟩

theorem copyIn_pushes (i : Nat) (xs : List T) : (producerKnown (W := W) r).Triple
    (Pushing r o A n k 0) (copyIn r i xs) fun _ => Pushing r o A n k 0 := by
  induction xs generalizing i with
  | nil => exact .ret Pushing.stable fun _ _ h => h
  | cons x xs ih =>
    apply (pushSame_triple fun _ => ⟨by rfl, by rfl, by rfl, by rfl, by rfl⟩).bind
    exact fun _ => ih (i + 1)

theorem copyItemsIn_pushes (i : Nat) (items : List T) : (producerKnown (W := W) r).Triple
    (Pushing r o A n k 0) (copyItemsIn r i items) fun _ => Pushing r o A n k 0 := by
  apply (copyIn_pushes i _).bind
  intro _
  split
  · exact copyIn_pushes 0 _
  · exact .ret Pushing.stable fun _ _ h => h

theorem setCachedWrite_pushes {write : BitVec w} {ahead : Nat}
    (hw : write = BitVec.ofNat w (A.length + ahead)) : (producerKnown (W := W) r).Triple
      (Pushing r o A n k 0) (setCachedWrite write) fun _ => Pushing r o A n k ahead := by
  refine .store Pushing.stable (fun _ => Pushing.stable) fun s _ h => ?_
  exact Contract.known_keeps fun _ => ⟨h.alive, h.own, h.accepted, h.taken, hw, h.cached⟩

theorem publishWrite_pushes {items : List T} (hle : items.length ≤ k) :
    (producerKnown (W := W) r).Triple (Pushing r o A n k items.length)
      (store (RingState.publishWrite items))
      fun _ => Pushing r o (A ++ items) n (k - items.length) 0 := by
  refine .store Pushing.stable (fun _ => Pushing.stable) fun s _ h => ?_
  exact Contract.known_keeps fun _ => h.publish hle

variable [Waker W]

theorem signalConsumer_pushes : (producerKnown (W := W) r).Triple (Pushing r o A n k 0)
    signalConsumer fun _ => Pushing r o A n k 0 :=
  pushZoom_triple (fun _ _ => ⟨by rfl, by rfl, by rfl, by rfl, by rfl⟩) _

/-- `try_push`: the value is accepted as soon as there is room behind a look. -/
def TryPushed (r : RingBuf w) (o : Option (PushFuture T) × Nat) (A : List T) (n k : Nat) (value : T)
    (res : Except T Unit) (s : RingState w T W) : Prop :=
  ∃ n' k', Looked r A n k n' k' ∧
    match res with
    | .ok _ => 0 < k' ∧ Pushing r o (A ++ [value]) n' (k' - 1) 0 s
    | .error v => v = value ∧ k' = 0 ∧ Pushing r o A n' 0 0 s

theorem tryPush_pushes (value : T) : (producerKnown (W := W) r).Triple (Pushing r o A n k 0)
    (tryPush r value) (TryPushed r o A n k value) := by
  apply loadProducer_pushes.bind
  intro p
  apply (appearsFull_pushes p).bind
  rintro full s hs ⟨k', hfull, n', hlook, hwrite, h⟩
  cases full with
  | true =>
    have hk' : k' = 0 := hfull.mp rfl
    subst hk'
    refine Layer.Triple.ret Pushing.stable (fun t _ ht => ?_) s hs h
    exact ⟨n', 0, hlook, rfl, rfl, ht⟩
  | false =>
    have hpos : 0 < k' := Nat.pos_of_ne_zero fun h0 => by cases hfull.mpr h0
    have hw : p.cachedWrite + 1 = BitVec.ofNat w (A.length + [value].length) := by
      rw [← hwrite, h.write]
      exact Word.ofNat_add_one _
    have hrun : (producerKnown (W := W) r).Triple (Pushing r o A n' k' 0)
        (do
          store (RingState.writeSlot r (p.cachedWrite &&& r.mask).toNat value)
          setCachedWrite (p.cachedWrite + 1)
          store (RingState.publishWrite [value])
          signalConsumer
          pure (Except.ok () : Except T Unit)) (TryPushed r o A n k value) := by
      apply (pushSame_triple fun _ => ⟨by rfl, by rfl, by rfl, by rfl, by rfl⟩).bind
      intro _
      apply (setCachedWrite_pushes hw).bind
      intro _
      apply (publishWrite_pushes hpos).bind
      intro _
      apply signalConsumer_pushes.bind
      intro _
      exact .ret Pushing.stable fun t _ ht => ⟨n', k', hlook, hpos, ht⟩
    exact hrun s hs h

/-- `try_push_slice`: as many of the items as there is room behind a look. -/
def TryPushedSlice (r : RingBuf w) (o : Option (PushFuture T) × Nat) (A : List T) (n k : Nat)
    (items : List T) (count : Nat) (s : RingState w T W) : Prop :=
  if items = [] then count = 0 ∧ Pushing r o A n k 0 s
  else ∃ n' k', Looked r A n k n' k' ∧ count = min items.length k' ∧
    Pushing r o (A ++ items.take count) n' (k' - count) 0 s

theorem pushItems_pushes {write : BitVec w} (items : List T) (hle : items.length ≤ k)
    (hw : write = BitVec.ofNat w A.length) : (producerKnown (W := W) r).Triple (Pushing r o A n k 0)
      (pushItems r write items) fun count s => count = items.length ∧
        Pushing r o (A ++ items) n (k - items.length) 0 s := by
  apply (copyItemsIn_pushes _ items).bind
  intro _
  apply (setCachedWrite_pushes (by rw [hw, BitVec.ofNat_add])).bind
  intro _
  apply (publishWrite_pushes hle).bind
  intro _
  apply signalConsumer_pushes.bind
  intro _
  exact .ret Pushing.stable fun t _ ht => ⟨rfl, ht⟩

theorem tryPushSlice_pushes (items : List T) : (producerKnown (W := W) r).Triple
    (Pushing r o A n k 0) (tryPushSlice r items) (TryPushedSlice r o A n k items) := by
  unfold tryPushSlice
  split
  · rename_i hempty
    refine .ret Pushing.stable fun t _ ht => ?_
    rw [TryPushedSlice, if_pos (List.isEmpty_iff.mp hempty)]
    exact ⟨rfl, ht⟩
  · rename_i hne
    have hne : ¬ items = [] := fun h => hne (List.isEmpty_iff.mpr h)
    apply loadProducer_pushes.bind
    intro p
    apply (availableSpace_pushes p).bind
    rintro k' s hs ⟨n', hlook, hwrite, h⟩
    split
    · rename_i hzero
      subst hzero
      refine Layer.Triple.ret Pushing.stable (fun t _ ht => ?_) s hs h
      rw [TryPushedSlice, if_neg hne]
      exact ⟨n', 0, hlook, by simp, by simpa using ht⟩
    · have hw : p.cachedWrite = BitVec.ofNat w A.length := by rw [← hwrite, h.write, Nat.add_zero]
      have hpush := pushItems_pushes (W := W) (r := r) (o := o) (A := A) (n := n') (k := k')
        (items.take (min items.length k')) (by simp) hw
      refine (hpush s hs h).mono fun count t _ ht => ?_
      have hlen : (items.take (min items.length k')).length = min items.length k' := by simp
      rw [hlen] at ht
      rw [TryPushedSlice, if_neg hne]
      obtain ⟨rfl, ht⟩ := ht
      exact ⟨n', k', hlook, rfl, ht⟩

omit [Waker W] in
/-- `free_count` looks at the shared index, and then sees the room that it returns. -/
theorem freeCount_pushes : (producerKnown (W := W) r).Triple (Pushing r o A n k 0) (freeCount r)
    fun count s => ∃ n', n ≤ n' ∧ A.length + count.toNat = n' + r.capacity.toNat ∧
      Pushing r o A n' count.toNat 0 s := by
  have hlook : (producerKnown (W := W) r).Triple (Pushing r o A n k 0) loadReadIndex
      fun read s => ∃ n' k' p, p.cachedRead = read ∧ n ≤ n' ∧
        A.length + k' = n' + r.capacity.toNat ∧ PushesFrom r o A n' k' p s := by
    refine .exchange Pushing.stable (fun read => ?_) fun s hI h => ?_
    · rintro s t ht hst ⟨n', k', p, hread, hn, hk', h⟩
      exact ⟨n', k', p, hread, hn, hk', PushesFrom.stable p s t ht hst h⟩
    · obtain ⟨k', hn, hk', h'⟩ := h.reload hI.1.1
      exact Contract.known_keeps fun _ => ⟨_, k', _, rfl, hn, hk', rfl, h'⟩
  apply hlook.bind
  rintro read s hs ⟨n', k', p, rfl, hn, hk', h⟩
  have hload : (producerKnown (W := W) r).Triple (PushesFrom r o A n' k' p) (load RingState.producer)
      fun q s => q = p ∧ PushesFrom r o A n' k' p s :=
    .load (PushesFrom.stable p) (fun q => fun s t ht hst h => ⟨h.1, PushesFrom.stable p s t ht hst h.2⟩)
      (fun _ => trivial) fun s _ h => ⟨h.1, h⟩
  refine (hload s hs h).bind fun q => ?_
  rintro s hs ⟨rfl, h⟩
  refine Layer.Triple.ret (PushesFrom.stable q) (fun t _ ht => ?_) s hs h
  obtain ⟨rfl, ht⟩ := ht
  rw [ht.free]
  exact ⟨n', hn, hk', ht⟩

end Tries

end Cynosure.SiteD.Ring
