import Cynosure.SiteD.RingBufOuts

/-! # What a try of the consumer does, to the item

The mirror image of the producer: the items that the consumer sees in its cached write index
are known exactly, it looks at the shared index only when it sees none, and the producer may
by then have published any number of further items.
-/

namespace Cynosure.SiteD.Ring

open Prog

variable {w : Nat} {T W : Type} {r : RingBuf w}

/-- The calls of the consumer, whose contract is met. -/
abbrev consumerKnown (r : RingBuf w) : Layer (RingState w T W) :=
  ((ringCalls r).contract .consumer).known

/-- `B` is taken, at least `n` items are published, the cached indices show `k` items, and the
consumer's own index is `ahead` of the shared one; `o` are the consumer's future and its counter. -/
structure Popping (r : RingBuf w) (o : Option (PopFuture T) × Nat) (B : List (Option T))
    (n k ahead : Nat) (s : RingState w T W) : Prop where
  alive : s.consumerAlive = true
  own : (s.popFuture, s.popped) = o
  taken : s.taken = B
  accepted : n ≤ s.accepted.length
  read : s.consumer.cachedRead = BitVec.ofNat w (B.length + ahead)
  cached : s.consumer.cachedWrite = BitVec.ofNat w (B.length + k)
  le_capacity : k ≤ r.capacity.toNat

structure SamePop (s t : RingState w T W) : Prop where
  alive : t.consumerAlive = s.consumerAlive
  own : (t.popFuture, t.popped) = (s.popFuture, s.popped)
  accepted : t.accepted = s.accepted
  taken : t.taken = s.taken
  consumer : t.consumer = s.consumer

/-- What the consumer has taken beyond `B` are the items published there. -/
theorem taken_front {B front : List (Option T)} {s : RingState w T W} (h : RingInv r s)
    (htaken : s.taken = B ++ front) :
    front = ((s.accepted.drop B.length).take front.length).map some := by
  have hfifo := congrArg (List.drop B.length) h.fifo
  rwa [htaken, List.drop_left, ← List.map_drop, List.drop_take, List.length_append,
    Nat.add_sub_cancel_left] at hfifo

/-- How many items the consumer knows of, and how many it knows to be published, once it has
looked: at the shared index only if it saw none. -/
def Saw (B : List (Option T)) (n k n' k' : Nat) : Prop :=
  if k = 0 then n ≤ n' ∧ B.length + k' = n' else n' = n ∧ k' = k

namespace Popping

variable {o : Option (PopFuture T) × Nat} {B : List (Option T)} {n k ahead : Nat}
  {s : RingState w T W}

theorem stable : (consumerKnown (W := W) r).Stable (Popping r o B n k ahead) := by
  rintro s t - ⟨⟨hst, hown⟩, -⟩ h
  have hst : ConsumerRely s t := hst
  have hown : ConsumerOwn s t := hown
  exact ⟨by rw [hst.alive, h.alive], by rw [hown.future, hown.popped, h.own],
    by rw [hst.taken, h.taken], h.accepted.trans hst.accepted.length_le,
    by rw [hst.handle, h.read], by rw [hst.handle, h.cached], h.le_capacity⟩

theorem available (h : Popping r o B n k 0 s) :
    (s.consumer.cachedWrite - s.consumer.cachedRead).toNat = k := by
  have hlt := RingInv.capacity_lt r
  have hle := h.le_capacity
  rw [h.cached, h.read, Word.toNat_sub (by omega) (by omega)]
  omega

theorem empty_iff (h : Popping r o B n k 0 s) :
    s.consumer.cachedRead = s.consumer.cachedWrite ↔ k = 0 := by
  have havail := h.available
  constructor
  · intro heq
    rw [heq, BitVec.sub_self] at havail
    simpa using havail.symm
  · rintro rfl
    rw [h.read, h.cached]

theorem congr {t : RingState w T W} (h : Popping r o B n k ahead s) (hst : SamePop s t) :
    Popping r o B n k ahead t :=
  ⟨by rw [hst.alive, h.alive], by rw [hst.own, h.own], by rw [hst.taken, h.taken],
    by rw [hst.accepted]; exact h.accepted, by rw [hst.consumer, h.read],
    by rw [hst.consumer, h.cached], h.le_capacity⟩

theorem start {t : RingState w T W} (h : Popping r o B n k ahead s) (hst : SameRing s t) :
    Popping r (t.popFuture, t.popped) B n k ahead t :=
  ⟨by rw [hst.consumerAlive, h.alive], rfl, by rw [hst.taken, h.taken],
    by rw [hst.accepted]; exact h.accepted, by rw [hst.consumer, h.read],
    by rw [hst.consumer, h.cached], h.le_capacity⟩

theorem reload (h : Popping r o B n k 0 s) (hI : RingInv r s) : ∃ k',
    n ≤ s.accepted.length ∧ B.length + k' = s.accepted.length ∧
      Popping r o B s.accepted.length k' 0
        { s with consumer := { s.consumer with cachedWrite := s.writeIndex } } := by
  have hle := hI.le
  have hbound := hI.bound
  rw [h.taken] at hle hbound
  have hsum : B.length + (s.accepted.length - B.length) = s.accepted.length := by omega
  exact ⟨s.accepted.length - B.length, h.accepted, hsum, h.alive, h.own, h.taken, le_rfl,
    h.read,
    by rw [hsum]; exact hI.write, by omega⟩

theorem publish {items : List (Option T)} (h : Popping r o B n k items.length s)
    (hle : items.length ≤ k) (signal : Bool) :
    Popping r o (B ++ items) n (k - items.length) 0 (s.publishRead items signal) := by
  have hcap := h.le_capacity
  refine ⟨h.alive, h.own, by rw [← h.taken]; rfl, h.accepted, ?_, ?_, by omega⟩
  · rw [List.length_append, Nat.add_zero]
    exact h.read
  · rw [List.length_append, show B.length + items.length + (k - items.length) = B.length + k by omega]
    exact h.cached

theorem of_rest (h : Taking 0 0 ([] : List (Option T)) s) (hI : RingInv r s) :
    Popping r (s.popFuture, s.popped) s.taken s.accepted.length
      (s.consumer.cachedWrite - s.consumer.cachedRead).toNat 0 s := by
  obtain ⟨d, hd, hle, hroom⟩ := h.cached
  have hlt := RingInv.capacity_lt r
  have hbound := hI.bound
  have hk : (s.consumer.cachedWrite - s.consumer.cachedRead).toNat = d - s.taken.length := by
    rw [hd, h.read, Nat.add_zero, Word.toNat_sub (by omega) (by omega)]
  rw [hk]
  exact ⟨h.alive, rfl, rfl, le_rfl, h.read, by rw [hd]; congr 1; omega, by omega⟩

end Popping

section Tries

variable {o : Option (PopFuture T) × Nat} {B : List (Option T)} {n k : Nat}

theorem popSame_triple {ahead : Nat} {f : RingState w T W → RingState w T W}
    (hf : ∀ s, SamePop s (f s)) :
    (consumerKnown r).Triple (Popping r o B n k ahead) (store f) fun _ => Popping r o B n k ahead := by
  refine .store Popping.stable (fun _ => Popping.stable) fun s _ h => ?_
  exact Contract.known_keeps fun _ => h.congr (hf s)

theorem popZoom_triple {X α : Type} {ahead : Nat} {get : RingState w T W → X}
    {set : RingState w T W → X → RingState w T W}
    (hset : ∀ s x, SamePop s (set s x)) (p : Prog X α) :
    (consumerKnown r).Triple (Popping r o B n k ahead) (p.zoom get set)
      fun _ => Popping r o B n k ahead := by
  refine .zoom Popping.stable (fun s x _ h => ?_) p
  exact Contract.known_keeps fun _ => h.congr (hset s x)

def PopsFrom (r : RingBuf w) (o : Option (PopFuture T) × Nat) (B : List (Option T))
    (n k : Nat) (c : RingHandle w) (s : RingState w T W) : Prop :=
  s.consumer = c ∧ Popping r o B n k 0 s

theorem PopsFrom.stable (c : RingHandle w) :
    (consumerKnown (W := W) r).Stable (PopsFrom r o B n k c) := by
  intro s t ht hst h
  exact ⟨(show ConsumerRely s t from hst.1.1).handle.trans h.1, Popping.stable s t ht hst h.2⟩

theorem loadConsumer_pops : (consumerKnown (W := W) r).Triple (Popping r o B n k 0)
    (load RingState.consumer) (PopsFrom r o B n k) :=
  .load Popping.stable PopsFrom.stable (fun _ => trivial) fun _ _ h => ⟨rfl, h⟩

/-- The items after a look, for a consumer that keeps its own index. -/
def SeesFrom (r : RingBuf w) (o : Option (PopFuture T) × Nat) (B : List (Option T))
    (n k : Nat) (read : BitVec w) (k' : Nat) (s : RingState w T W) : Prop :=
  ∃ n', Saw B n k n' k' ∧ s.consumer.cachedRead = read ∧ Popping r o B n' k' 0 s

theorem SeesFrom.stable (read : BitVec w) (k' : Nat) :
    (consumerKnown (W := W) r).Stable (SeesFrom r o B n k read k') := by
  rintro s t ht hst ⟨n', hsaw, hread, h⟩
  exact ⟨n', hsaw, by rw [(show ConsumerRely s t from hst.1.1).handle, hread],
    Popping.stable s t ht hst h⟩

theorem loadWriteIndex_pops (c : RingHandle w) (hk : k = 0) : (consumerKnown (W := W) r).Triple
    (PopsFrom r o B n k c) loadWriteIndex fun write s =>
      SeesFrom r o B n k c.cachedRead (write - c.cachedRead).toNat s ∧ s.consumer.cachedWrite = write := by
  refine .exchange (PopsFrom.stable c) (fun write => ?_) ?_
  · intro s t ht hst h
    exact ⟨SeesFrom.stable _ _ s t ht hst h.1,
      by rw [(show ConsumerRely s t from hst.1.1).handle, h.2]⟩
  · rintro s hI ⟨rfl, h⟩
    refine Contract.known_keeps fun _ => ?_
    obtain ⟨k', hn, hk', h'⟩ := h.reload hI.1.1
    have havail := h'.available
    simp only at havail
    refine ⟨⟨s.accepted.length, ?_, rfl, by rwa [havail]⟩, rfl⟩
    rw [havail, Saw, if_pos hk]
    exact ⟨hn, hk'⟩

theorem saw_cached (hpos : k ≠ 0) : Saw B n k n k := by
  rw [Saw, if_neg hpos]
  exact ⟨rfl, rfl⟩

theorem availableItems_pops (c : RingHandle w) : (consumerKnown (W := W) r).Triple
    (PopsFrom r o B n k c) (availableItems c) (SeesFrom r o B n k c.cachedRead) := by
  rintro s hs ⟨rfl, h⟩
  have havail := h.available
  unfold availableItems
  split
  · refine (loadWriteIndex_pops s.consumer (by omega) s hs ⟨rfl, h⟩).bind fun write => ?_
    exact .ret (fun s t ht hst h => ⟨SeesFrom.stable _ _ s t ht hst h.1,
      by rw [(show ConsumerRely s t from hst.1.1).handle, h.2]⟩) fun _ _ h => h.1
  · rename_i hpos
    rw [havail] at hpos ⊢
    refine Layer.Triple.ret (PopsFrom.stable s.consumer) (fun t _ ht => ?_) s hs ⟨rfl, h⟩
    exact ⟨n, saw_cached hpos, by rw [ht.1], ht.2⟩

theorem appearsEmpty_pops (c : RingHandle w) : (consumerKnown (W := W) r).Triple
    (PopsFrom r o B n k c) (appearsEmpty c) fun empty s =>
      ∃ k', (empty = true ↔ k' = 0) ∧ SeesFrom r o B n k c.cachedRead k' s := by
  rintro s hs ⟨rfl, h⟩
  unfold appearsEmpty
  split
  · rename_i hempty
    refine (loadWriteIndex_pops s.consumer (h.empty_iff.mp hempty) s hs ⟨rfl, h⟩).bind fun write => ?_
    refine .ret (fun s t ht hst h => ⟨SeesFrom.stable _ _ s t ht hst h.1,
      by rw [(show ConsumerRely s t from hst.1.1).handle, h.2]⟩) fun t _ ht => ⟨_, ?_, ht.1⟩
    obtain ⟨⟨n', -, hread, ht⟩, hwrite⟩ := ht
    rw [decide_eq_true_iff, ← hread, ← hwrite, ht.empty_iff, ht.available]
  · rename_i hitems
    rw [h.empty_iff] at hitems
    refine Layer.Triple.ret (PopsFrom.stable s.consumer) (fun t _ ht => ?_) s hs ⟨rfl, h⟩
    exact ⟨k, by simp [hitems], n, saw_cached hitems, by rw [ht.1], ht.2⟩

theorem readSlot_pops (i : Nat) : (consumerKnown (W := W) r).Triple (Popping r o B n k 0)
    (readSlot r i) fun _ => Popping r o B n k 0 := by
  refine .exchange Popping.stable (fun _ => Popping.stable) fun s _ h => ?_
  exact Contract.known_keeps fun _ => h.congr ⟨rfl, rfl, rfl, rfl, rfl⟩

theorem copyOut_pops (i m : Nat) : (consumerKnown (W := W) r).Triple (Popping r o B n k 0)
    (copyOut r i m) fun xs s => xs.length = m ∧ Popping r o B n k 0 s := by
  induction m generalizing i with
  | zero => exact .ret Popping.stable fun _ _ h => ⟨rfl, h⟩
  | succ m ih =>
    apply (readSlot_pops i).bind
    intro x
    apply (ih (i + 1)).bind
    rintro xs s hs ⟨hlen, h⟩
    exact Layer.Triple.ret Popping.stable (fun _ _ h => ⟨by rw [List.length_cons, hlen], h⟩) s hs h

theorem copyItemsOut_pops (i toPop : Nat) : (consumerKnown (W := W) r).Triple (Popping r o B n k 0)
    (copyItemsOut r i toPop) fun xs s => xs.length = toPop ∧ Popping r o B n k 0 s := by
  apply (copyOut_pops i _).bind
  rintro first s hs ⟨hfirst, h⟩
  split
  · refine (copyOut_pops 0 _ s hs h).bind fun second => ?_
    rintro s hs ⟨hsecond, h⟩
    refine Layer.Triple.ret Popping.stable (fun _ _ h => ⟨?_, h⟩) s hs h
    rw [List.length_append, hfirst, hsecond]
    omega
  · exact Layer.Triple.ret Popping.stable (fun _ _ h => ⟨by omega, h⟩) s hs h

theorem setCachedRead_pops {read : BitVec w} {ahead : Nat}
    (hr : read = BitVec.ofNat w (B.length + ahead)) : (consumerKnown (W := W) r).Triple
      (Popping r o B n k 0) (setCachedRead read) fun _ => Popping r o B n k ahead := by
  refine .store Popping.stable (fun _ => Popping.stable) fun s _ h => ?_
  exact Contract.known_keeps fun _ => ⟨h.alive, h.own, h.taken, h.accepted, hr, h.cached,
    h.le_capacity⟩

theorem publishRead_pops (items : List (Option T)) (hle : items.length ≤ k) (signal : Bool) :
    (consumerKnown (W := W) r).Triple (Popping r o B n k items.length)
      (store (RingState.publishRead items signal))
      fun _ => Popping r o (B ++ items) n (k - items.length) 0 := by
  refine .store Popping.stable (fun _ => Popping.stable) fun s _ h => ?_
  exact Contract.known_keeps fun _ => h.publish hle signal

variable [Waker W]

theorem signalProducer_pops : (consumerKnown (W := W) r).Triple (Popping r o B n k 0)
    signalProducer fun _ => Popping r o B n k 0 :=
  popZoom_triple (fun _ _ => ⟨by rfl, by rfl, by rfl, by rfl, by rfl⟩) _

/-- `try_pop`: an item comes as soon as one is published behind a look. -/
def TryPopped (r : RingBuf w) (o : Option (PopFuture T) × Nat) (B : List (Option T))
    (n k : Nat) (res : Option (Option T)) (s : RingState w T W) : Prop :=
  ∃ n' k', Saw B n k n' k' ∧
    match res with
    | some v => 0 < k' ∧ Popping r o (B ++ [v]) n' (k' - 1) 0 s
    | none => k' = 0 ∧ Popping r o B n' 0 0 s

theorem tryPop_pops : (consumerKnown (W := W) r).Triple (Popping r o B n k 0) (tryPop r)
    (TryPopped r o B n k) := by
  apply loadConsumer_pops.bind
  intro c
  apply (appearsEmpty_pops c).bind
  rintro empty s hs ⟨k', hempty, n', hsaw, hread, h⟩
  cases empty with
  | true =>
    have hk' : k' = 0 := hempty.mp rfl
    subst hk'
    refine Layer.Triple.ret Popping.stable (fun t _ ht => ?_) s hs h
    exact ⟨n', 0, hsaw, rfl, ht⟩
  | false =>
    have hpos : 0 < k' := Nat.pos_of_ne_zero fun h0 => by cases hempty.mpr h0
    have hr : c.cachedRead + 1 = BitVec.ofNat w (B.length + 1) := by
      rw [← hread, h.read]
      exact Word.ofNat_add_one _
    refine (readSlot_pops (c.cachedRead &&& r.mask).toNat s hs h).bind fun value => ?_
    apply (setCachedRead_pops hr).bind
    intro _
    apply (publishRead_pops [value] hpos true).bind
    intro _
    apply signalProducer_pops.bind
    intro _
    exact .ret Popping.stable fun t _ ht => ⟨n', k', hsaw, hpos, ht⟩

/-- `try_pop_slice`: as many items as are published behind a look, in front of what the slice
held. -/
def TryPoppedSlice (r : RingBuf w) (o : Option (PopFuture T) × Nat) (B : List (Option T))
    (n k : Nat) (items : List (Option T)) (res : Nat × List (Option T)) (s : RingState w T W) : Prop :=
  if items = [] then res = (0, items) ∧ Popping r o B n k 0 s
  else ∃ n' k' front, Saw B n k n' k' ∧ res.1 = min items.length k' ∧ front.length = res.1 ∧
    res.2 = front ++ items.drop res.1 ∧ Popping r o (B ++ front) n' (k' - res.1) 0 s

theorem popItems_pops {read : BitVec w} {toPop : Nat} (hle : toPop ≤ k)
    (hr : read = BitVec.ofNat w B.length) : (consumerKnown (W := W) r).Triple (Popping r o B n k 0)
      (popItems r read toPop) fun front s => front.length = toPop ∧
        Popping r o (B ++ front) n (k - toPop) 0 s := by
  apply (copyItemsOut_pops _ toPop).bind
  rintro front s hs ⟨rfl, h⟩
  refine (setCachedRead_pops (by rw [hr, BitVec.ofNat_add]) s hs h).bind fun _ => ?_
  apply (publishRead_pops front hle true).bind
  intro _
  apply signalProducer_pops.bind
  intro _
  exact .ret Popping.stable fun t _ ht => ⟨rfl, ht⟩

theorem tryPopSlice_pops (items : List (Option T)) : (consumerKnown (W := W) r).Triple
    (Popping r o B n k 0) (tryPopSlice r items) (TryPoppedSlice r o B n k items) := by
  unfold tryPopSlice
  split
  · rename_i hempty
    refine .ret Popping.stable fun t _ ht => ?_
    rw [TryPoppedSlice, if_pos (List.isEmpty_iff.mp hempty)]
    exact ⟨rfl, ht⟩
  · rename_i hne
    have hne : ¬ items = [] := fun h => hne (List.isEmpty_iff.mpr h)
    apply loadConsumer_pops.bind
    intro c
    apply (availableItems_pops c).bind
    rintro k' s hs ⟨n', hsaw, hread, h⟩
    split
    · rename_i hzero
      subst hzero
      refine Layer.Triple.ret Popping.stable (fun t _ ht => ?_) s hs h
      rw [TryPoppedSlice, if_neg hne]
      exact ⟨n', 0, [], hsaw, by simp, rfl, by simp, by simpa using ht⟩
    · have hr : c.cachedRead = BitVec.ofNat w B.length := by rw [← hread, h.read, Nat.add_zero]
      refine (popItems_pops (min_le_right items.length k') hr s hs h).bind fun front => ?_
      rintro s hs ⟨hlen, h⟩
      refine Layer.Triple.ret Popping.stable (fun t _ ht => ?_) s hs h
      rw [TryPoppedSlice, if_neg hne]
      exact ⟨n', k', front, hsaw, rfl, hlen, rfl, ht⟩

omit [Waker W] in
/-- `available_count` looks at the shared index, and then sees the items that it returns. -/
theorem availableCount_pops : (consumerKnown (W := W) r).Triple (Popping r o B n k 0) availableCount
    fun count s => ∃ n', n ≤ n' ∧ B.length + count.toNat = n' ∧ Popping r o B n' count.toNat 0 s := by
  have hlook : (consumerKnown (W := W) r).Triple (Popping r o B n k 0) loadWriteIndex
      fun write s => ∃ n' k' c, c.cachedWrite = write ∧ n ≤ n' ∧ B.length + k' = n' ∧
        PopsFrom r o B n' k' c s := by
    refine .exchange Popping.stable (fun write => ?_) fun s hI h => ?_
    · rintro s t ht hst ⟨n', k', c, hwrite, hn, hk', h⟩
      exact ⟨n', k', c, hwrite, hn, hk', PopsFrom.stable c s t ht hst h⟩
    · obtain ⟨k', hn, hk', h'⟩ := h.reload hI.1.1
      exact Contract.known_keeps fun _ => ⟨_, k', _, rfl, hn, hk', rfl, h'⟩
  apply hlook.bind
  rintro write s hs ⟨n', k', c, rfl, hn, hk', h⟩
  have hload : (consumerKnown (W := W) r).Triple (PopsFrom r o B n' k' c) (load RingState.consumer)
      fun d s => d = c ∧ PopsFrom r o B n' k' c s :=
    .load (PopsFrom.stable c) (fun d => fun s t ht hst h => ⟨h.1, PopsFrom.stable c s t ht hst h.2⟩)
      (fun _ => trivial) fun s _ h => ⟨h.1, h⟩
  refine (hload s hs h).bind fun d => ?_
  rintro s hs ⟨rfl, h⟩
  refine Layer.Triple.ret (PopsFrom.stable d) (fun t _ ht => ?_) s hs h
  obtain ⟨rfl, ht⟩ := ht
  rw [ht.available]
  exact ⟨n', hn, hk', ht⟩

end Tries

end Cynosure.SiteD.Ring
