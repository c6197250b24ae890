import Cynosure.SiteD.RingBufInvariant

/-! # The producer of the ring buffer

Every call of the producer starts and ends with its index at the published count. In
between it writes slots that its cached read index shows to be free, and the
consumer can only free more of them.
-/

namespace Cynosure.SiteD

variable {w : Nat} {T W : Type} {r : RingBuf w}

namespace Filling

variable {s : RingState w T W} {ahead room : Nat} {items : List T}

theorem stable : (producerContract (W := W) r).Stable (Filling r ahead room items) := by
  intro s t _ (hst : ProducerRely s t) h
  obtain ⟨c, hc, hle, hroom⟩ := h.cached
  have ha := hst.accepted
  exact {
    alive := hst.alive.trans h.alive
    cached := ⟨c, by rw [hst.handle, hc], hle.trans hst.taken, by rw [ha]; exact hroom⟩
    write := by rw [hst.handle, ha, h.write]
    fits := h.fits
    slots := by rw [hst.buffer, ha]; exact h.slots }

theorem bound (h : Filling r ahead room items s) :
    s.accepted.length + room ≤ s.taken.length + r.capacity.toNat := by
  obtain ⟨c, -, hle, hroom⟩ := h.cached
  omega

/-- The index arithmetic of the source gives the room left by the cached read index. -/
theorem room_cached (h : Filling r 0 0 ([] : List T) s) (hI : RingInv r s) :
    Filling r 0 (r.capacity.toNat - (s.producer.cachedWrite - s.producer.cachedRead).toNat)
      [] s := by
  obtain ⟨c, hc, hle, hroom⟩ := h.cached
  have hca := hle.trans hI.le
  have hlt := RingInv.capacity_lt r
  refine ⟨h.alive, ⟨c, hc, hle, ?_⟩, h.write, Nat.zero_le _, h.slots⟩
  rw [h.write, hc, Nat.add_zero, Word.toNat_sub hca (by omega)]
  omega

theorem shrink (h : Filling r 0 room ([] : List T) s) {room' : Nat} (hle : room' ≤ room) :
    Filling r 0 room' [] s := by
  obtain ⟨c, hc, hct, hroom⟩ := h.cached
  exact ⟨h.alive, ⟨c, hc, hct, by omega⟩, h.write, Nat.zero_le _, h.slots⟩

/-- A slot beyond the published items holds none of them, and none written before. -/
theorem writeSlot (h : Filling r 0 room items s) (hI : RingInv r s) (hlt : items.length < room)
    (x : T) : RingInv r (s.writeSlot r ((s.accepted.length + items.length) % r.capacity.toNat) x) ∧
    Filling r 0 room (items ++ [x])
      (s.writeSlot r ((s.accepted.length + items.length) % r.capacity.toNat) x) := by
  have hbound := h.bound
  have hfree : ∀ i, s.taken.length ≤ i → i < s.accepted.length + items.length →
      i % r.capacity.toNat ≠ (s.accepted.length + items.length) % r.capacity.toNat :=
    fun i hlo hhi => Word.mod_ne_mod hhi (by omega)
  have hle := hI.le
  constructor
  · refine { hI with
      slots := fun i hlo hhi => ?_
      sound := ⟨?_, hI.sound.2⟩ }
    · have hhi : i < s.accepted.length := hhi
      change Function.update s.buffer _ _ _ = _
      rw [Function.update_of_ne (hfree i hlo (by omega))]
      exact hI.slots i hlo hhi
    · simp only [RingState.writeSlot, hI.sound.1, Bool.false_or, decide_eq_false_iff_not,
        hI.mem_live]
      rintro ⟨i, hlo, hhi, hi⟩
      exact hfree i hlo (by omega) hi.symm
  · refine { h with
      fits := by simpa using hlt
      slots := fun i y hi => ?_ }
    change Function.update s.buffer _ _ ((s.accepted.length + i) % r.capacity.toNat) = _
    by_cases hlen : i < items.length
    · rw [Function.update_of_ne (hfree _ (by omega) (by omega))]
      exact h.slots i y (by rwa [List.getElem?_append_left hlen] at hi)
    · obtain rfl : i = items.length := by
        have := (List.getElem?_eq_some_iff.mp hi).1
        simp at this
        omega
      simpa using hi

theorem advance (h : Filling r 0 room items s) :
    Filling r items.length room items { s with producer := { s.producer with
      cachedWrite := BitVec.ofNat w (s.accepted.length + items.length) } } :=
  { h with write := rfl }

theorem publishWrite (h : Filling r items.length room items s) (hI : RingInv r s) :
    RingInv r (s.publishWrite items) ∧ Filling r 0 (room - items.length) [] (s.publishWrite items) := by
  have hbound := h.bound
  have hfits := h.fits
  have hlen : (s.publishWrite items).accepted.length = s.accepted.length + items.length := by
    simp [RingState.publishWrite]
  obtain ⟨c, hc, hct, hroom⟩ := h.cached
  have hle := hI.le
  constructor
  · exact {
      write := by rw [hlen, ← h.write]; rfl
      read := hI.read
      le := by rw [hlen]; change s.taken.length ≤ _; omega
      bound := by rw [hlen]; change _ ≤ s.taken.length + _; omega
      fifo := by
        change s.taken = ((s.accepted ++ items).take s.taken.length).map some
        rw [List.take_append_of_le_length hle]
        exact hI.fifo
      slots := fun i hlo hhi => by
        rw [hlen] at hhi
        change s.buffer _ = (s.accepted ++ items)[i]?
        by_cases hi : i < s.accepted.length
        · rw [List.getElem?_append_left hi]
          exact hI.slots i hlo hi
        · rw [List.getElem?_append_right (by omega)]
          have hget := List.getElem?_eq_getElem (l := items) (i := i - s.accepted.length) (by omega)
          rw [hget, ← h.slots _ _ hget]
          congr 2
          omega
      sound := hI.sound
      freed := fun l hl => by
        have := hI.not_dropped_of_producer h.alive
        simp [RingState.publishWrite, this] at hl
      frees := hI.frees }
  · exact {
      alive := h.alive
      cached := ⟨c, hc, hct, by rw [hlen]; omega⟩
      write := by rw [hlen]; exact h.write
      fits := Nat.zero_le _
      slots := fun i x hi => by simp at hi }

end Filling

section Producer

open Prog

theorem producerSame_triple {n : Nat} {f : RingState w T W → RingState w T W}
    (hf : ∀ s, SameRing s (f s)) :
    (producerContract r).Triple (Filling r 0 n ([] : List T)) (store f)
      fun _ => Filling r 0 n [] := by
  refine .store Filling.stable (fun _ => Filling.stable) fun s hI h => ?_
  have hI' := (hf s).inv hI
  exact ⟨hI', producerGuar (hf s).consumerRely, Filling.stable s _ hI' (hf s).producerRely h⟩

theorem producerZoom_triple {X α : Type} {n : Nat} {get : RingState w T W → X}
    {set : RingState w T W → X → RingState w T W} (hset : ∀ s x, SameRing s (set s x))
    (p : Prog X α) :
    (producerContract r).Triple (Filling r 0 n ([] : List T)) (p.zoom get set)
      fun _ => Filling r 0 n [] := by
  refine Contract.Triple.zoom Filling.stable (fun s x hI h => ?_) p
  have hI' := (hset s x).inv hI
  exact ⟨hI', producerGuar (hset s x).consumerRely,
    Filling.stable s _ hI' (hset s x).producerRely h⟩

/-- Between its calls, and between the calls inside a poll, the producer is at rest. -/
abbrev ProducerKeeps {α : Type} (r : RingBuf w) (p : Prog (RingState w T W) α) : Prop :=
  (producerContract r).Triple (Filling r 0 0 ([] : List T)) p fun _ => Filling r 0 0 []

/-- The handle as the producer sees it, which nobody else writes. -/
def HandleIs (p : RingHandle w) (s : RingState w T W) : Prop :=
  s.producer = p ∧ Filling r 0 0 ([] : List T) s

theorem HandleIs.stable (p : RingHandle w) :
    (producerContract r).Stable (HandleIs (r := r) p : RingState w T W → Prop) := by
  intro s t hI hst h
  exact ⟨hst.handle.trans h.1, Filling.stable s t hI hst h.2⟩

theorem loadProducer_triple :
    (producerContract r).Triple (Filling r 0 0 ([] : List T)) (load RingState.producer)
      (HandleIs (r := r) (T := T) (W := W)) :=
  .load Filling.stable HandleIs.stable (fun s _ _ => producerGuar ((ringOutline r).refl .consumer s))
    fun _ _ h => ⟨rfl, h⟩

theorem loadReadIndex_triple (p : RingHandle w) :
    (producerContract r).Triple (HandleIs (r := r) (T := T) (W := W) p) loadReadIndex
      fun read => HandleIs (r := r) { p with cachedRead := read } := by
  refine .exchange (HandleIs.stable p) (fun _ => HandleIs.stable _) ?_
  rintro s hI ⟨rfl, h⟩
  refine ⟨hI.frame rfl rfl rfl rfl rfl rfl rfl rfl rfl rfl, producerGuar ⟨rfl, rfl, List.prefix_rfl, rfl⟩,
    rfl, { h with cached := ⟨s.taken.length, hI.read, le_rfl, hI.bound⟩ }⟩

/-- The producer's index is known and it has room for as many items as it computed. -/
def Room (write : BitVec w) (n : Nat) (s : RingState w T W) : Prop :=
  s.producer.cachedWrite = write ∧ Filling r 0 n ([] : List T) s

theorem HandleIs.room {p : RingHandle w} {s : RingState w T W} (h : HandleIs (r := r) p s)
    (hI : RingInv r s) :
    Room (r := r) p.cachedWrite (r.capacity.toNat - (p.cachedWrite - p.cachedRead).toNat) s := by
  obtain ⟨rfl, h⟩ := h
  exact ⟨rfl, h.room_cached hI⟩

theorem Room.stable (write : BitVec w) (n : Nat) :
    (producerContract r).Stable (Room (r := r) write n : RingState w T W → Prop) := by
  intro s t hI hst h
  exact ⟨(congrArg RingHandle.cachedWrite hst.handle).trans h.1, Filling.stable s t hI hst h.2⟩

theorem availableSpace_triple (p : RingHandle w) :
    (producerContract r).Triple (HandleIs (r := r) (T := T) (W := W) p) (availableSpace r p)
      (Room (r := r) p.cachedWrite) := by
  unfold availableSpace
  split
  · apply (loadReadIndex_triple p).bind
    intro read
    exact .ret (HandleIs.stable _) fun s hI h => h.room hI
  · exact .ret (HandleIs.stable p) fun s hI h => h.room hI

theorem appearsFull_triple (p : RingHandle w) :
    (producerContract r).Triple (HandleIs (r := r) (T := T) (W := W) p) (appearsFull r p)
      fun full => Room (r := r) p.cachedWrite (if full then 0 else 1) := by
  have hroom : ∀ {q : RingHandle w} {s : RingState w T W}, HandleIs (r := r) q s → RingInv r s →
      Room (r := r) q.cachedWrite
        (if decide (r.capacity ≤ q.cachedWrite - q.cachedRead) then 0 else 1) s := by
    intro q s h hI
    refine ⟨(h.room hI).1, (h.room hI).2.shrink ?_⟩
    split
    · exact Nat.zero_le _
    · rename_i hlt
      simp only [decide_eq_true_eq, BitVec.le_def, not_le] at hlt
      omega
  unfold appearsFull
  split
  · apply (loadReadIndex_triple p).bind
    intro read
    exact .ret (HandleIs.stable _) fun s hI h => hroom h hI
  · rename_i hlt
    refine .ret (HandleIs.stable p) fun s hI h => ?_
    have := hroom h hI
    simpa [hlt] using this

/-- The producer is writing behind the `A` items published so far. -/
def Writing (A n : Nat) (items : List T) (s : RingState w T W) : Prop :=
  s.accepted.length = A ∧ Filling r 0 n items s

theorem Writing.stable (A n : Nat) (items : List T) :
    (producerContract r).Stable (Writing (r := r) A n items : RingState w T W → Prop) := by
  intro s t hI hst h
  exact ⟨by rw [hst.accepted, h.1], Filling.stable s t hI hst h.2⟩

theorem writeSlot_triple {A n i : Nat} {items : List T} (x : T) (hlt : items.length < n)
    (hi : i = (A + items.length) % r.capacity.toNat) :
    (producerContract r).Triple (Writing (r := r) (W := W) A n items)
      (store (RingState.writeSlot r i x)) fun _ => Writing (r := r) A n (items ++ [x]) := by
  refine .store (Writing.stable A n items) (fun _ => Writing.stable A n _) ?_
  rintro s hI ⟨rfl, h⟩
  rw [hi]
  obtain ⟨hinv, hfill⟩ := h.writeSlot hI hlt x
  exact ⟨hinv, producerGuar ⟨rfl, rfl, List.prefix_rfl, rfl⟩, rfl, hfill⟩

theorem copyIn_triple {A n : Nat} (xs : List T) (i : Nat) (items : List T)
    (hle : items.length + xs.length ≤ n)
    (hpos : ∀ k < xs.length, i + k = (A + items.length + k) % r.capacity.toNat) :
    (producerContract r).Triple (Writing (r := r) (W := W) A n items) (copyIn r i xs)
      fun _ => Writing (r := r) A n (items ++ xs) := by
  induction xs generalizing i items with
  | nil => exact .ret (Writing.stable A n items) fun _ _ h => by rwa [List.append_nil]
  | cons x xs ih =>
    rw [List.length_cons] at hle hpos
    apply (writeSlot_triple x (by omega) (by simpa using hpos 0 (by omega))).bind
    intro _
    rw [show items ++ x :: xs = (items ++ [x]) ++ xs by simp]
    refine ih (i + 1) (items ++ [x]) (by simp; omega) fun k hk => ?_
    have := hpos (k + 1) (by omega)
    rw [List.length_append, List.length_singleton,
      show A + (items.length + 1) + k = A + items.length + (k + 1) by omega, ← this]
    omega

theorem copyItemsIn_triple {A n : Nat} (items : List T) (hle : items.length ≤ n)
    (hn : n ≤ r.capacity.toNat) :
    (producerContract r).Triple (Writing (r := r) (W := W) A n [])
      (copyItemsIn r (A % r.capacity.toNat) items) fun _ => Writing (r := r) A n items := by
  unfold copyItemsIn
  apply (copyIn_triple _ _ [] (by simp; omega) (fun k hk => ?_)).bind
  · intro _
    split
    · rename_i hlt
      -- the first copy reached the end of the buffer, and the rest starts over at slot 0
      have hmin : min (r.capacity.toNat - A % r.capacity.toNat) items.length =
          r.capacity.toNat - A % r.capacity.toNat := by omega
      rw [hmin] at hlt ⊢
      have hcopy := copyIn_triple (r := r) (W := W) (A := A) (n := n)
        (items.drop (r.capacity.toNat - A % r.capacity.toNat)) 0
        (items.take (r.capacity.toNat - A % r.capacity.toNat)) (by simp; omega) (fun k hk => ?_)
      · simpa using hcopy
      · rw [List.length_drop] at hk
        rw [List.length_take, min_eq_left hlt.le]
        rw [Nat.zero_add, Word.mod_add_wrapped (by omega)]
    · rename_i hge
      have hall : items.take (min (r.capacity.toNat - A % r.capacity.toNat) items.length) = items :=
        List.take_of_length_le (by omega)
      rw [hall]
      exact .ret (Writing.stable A n _) fun _ _ h => h
  · rw [List.length_take] at hk
    rw [List.length_nil, Nat.add_zero, Word.mod_add_of_lt (by omega)]

theorem setCachedWrite_triple {A n : Nat} {items : List T} {write : BitVec w}
    (hw : write = BitVec.ofNat w (A + items.length)) :
    (producerContract r).Triple (Writing (r := r) (W := W) A n items) (setCachedWrite write)
      fun _ => Filling r items.length n items := by
  refine .store (Writing.stable A n items) (fun _ => Filling.stable) ?_
  rintro s hI ⟨rfl, h⟩
  rw [hw]
  exact ⟨hI.frame rfl rfl rfl rfl rfl rfl rfl rfl rfl rfl,
    producerGuar ⟨rfl, rfl, List.prefix_rfl, rfl⟩, h.advance⟩

theorem publishWrite_triple {n : Nat} {items : List T} :
    (producerContract r).Triple (Filling r (W := W) items.length n items)
      (store (RingState.publishWrite items)) fun _ => Filling r 0 (n - items.length) [] := by
  refine .store Filling.stable (fun _ => Filling.stable) ?_
  intro s hI h
  obtain ⟨hinv, hfill⟩ := h.publishWrite hI
  exact ⟨hinv, producerGuar ⟨rfl, rfl, List.prefix_append _ _, rfl⟩, hfill⟩

theorem freeCount_keeps : ProducerKeeps (T := T) (W := W) r (freeCount r) := by
  intro s hI h
  refine Contract.Ok.bind (loadReadIndex_triple s.producer s hI ⟨rfl, h⟩) fun read => ?_
  apply ((loadProducer_triple).conseq (fun _ _ h => h.2) fun _ _ _ h => h).bind
  exact fun p => .ret (HandleIs.stable p) fun _ _ h => h.2

theorem pushReady_keeps : ProducerKeeps (T := T) (W := W) r pushReady :=
  producerSame_triple fun _ => by constructor <;> rfl

theorem pushPending_keeps (future : PushFuture T) :
    ProducerKeeps (W := W) r (pushPending future) :=
  producerSame_triple fun _ => by constructor <;> rfl

theorem setPushed_keeps (n : Nat) : ProducerKeeps (T := T) (W := W) r (setPushed n) :=
  producerSame_triple fun _ => by constructor <;> rfl

theorem disarmProducer_keeps : ProducerKeeps (T := T) (W := W) r disarmProducer :=
  producerSame_triple fun _ => by constructor <;> rfl

theorem producerReturns_keeps (out : RingOut T) :
    ProducerKeeps (W := W) r (producerReturns out) :=
  producerSame_triple fun _ => by constructor <;> rfl

theorem producerIsEmpty_keeps : ProducerKeeps (T := T) (W := W) r (do
    let read ← loadReadIndex
    let p ← load (·.producer)
    producerReturns (.answer (decide (p.cachedWrite = read)))) := by
  intro s hI h
  refine Contract.Ok.bind (loadReadIndex_triple s.producer s hI ⟨rfl, h⟩) fun read => ?_
  apply ((loadProducer_triple).conseq (fun _ _ h => h.2) fun _ _ _ h => h.2).bind
  exact fun p => producerReturns_keeps _

variable [Waker W]

theorem pushItems_triple {write : BitVec w} {n : Nat} (items : List T) (hle : items.length ≤ n) :
    (producerContract r).Triple (Room (r := r) (W := W) write n) (pushItems r write items)
      fun _ => Filling r 0 (n - items.length) [] := by
  rintro s hI ⟨hwrite, h⟩
  have hn : n ≤ r.capacity.toNat := by
    have := h.bound
    have := hI.le
    omega
  have hw : write = BitVec.ofNat w s.accepted.length := by rw [← hwrite, h.write, Nat.add_zero]
  have hpos : (write &&& r.mask).toNat = s.accepted.length % r.capacity.toNat := by
    rw [hw, RingBuf.mask, Word.toNat_mask r.isPowerOfTwo]
  have hrun : (producerContract r).Triple (Writing (r := r) (W := W) s.accepted.length n [])
      (pushItems r write items) fun _ => Filling r 0 (n - items.length) [] := by
    unfold pushItems
    rw [hpos]
    apply (copyItemsIn_triple items hle hn).bind
    intro _
    apply (setCachedWrite_triple (by rw [hw, BitVec.ofNat_add])).bind
    intro _
    apply publishWrite_triple.bind
    intro _
    apply (producerZoom_triple (fun _ _ => by constructor <;> rfl) _).bind
    exact fun _ => .ret Filling.stable fun _ _ h => h
  exact hrun s hI ⟨rfl, h⟩

theorem pushOne_triple {write : BitVec w} (value : T) :
    (producerContract r).Triple (Room (r := r) (W := W) write 1)
      (do
        store (RingState.writeSlot r (write &&& r.mask).toNat value)
        setCachedWrite (write + 1)
        store (RingState.publishWrite [value])
        signalConsumer
        pure (Except.ok () : Except T Unit))
      fun _ => Filling r 0 0 [] := by
  rintro s hI ⟨hwrite, h⟩
  have hw : write = BitVec.ofNat w s.accepted.length := by rw [← hwrite, h.write, Nat.add_zero]
  have hpos : (write &&& r.mask).toNat = (s.accepted.length + ([] : List T).length) % r.capacity.toNat := by
    rw [hw, RingBuf.mask, Word.toNat_mask r.isPowerOfTwo]
    rfl
  refine Contract.Ok.bind (writeSlot_triple value Nat.one_pos hpos s hI ⟨rfl, h⟩) fun _ => ?_
  apply (setCachedWrite_triple (by rw [hw]; exact Word.ofNat_add_one _)).bind
  intro _
  apply publishWrite_triple.bind
  intro _
  apply (producerZoom_triple (fun _ _ => by constructor <;> rfl) _).bind
  exact fun _ => .ret Filling.stable fun _ _ h => h

theorem tryPush_keeps (value : T) : ProducerKeeps (W := W) r (tryPush r value) := by
  apply loadProducer_triple.bind
  intro p
  apply (appearsFull_triple p).bind
  intro full
  cases full with
  | true => exact .ret (Room.stable _ _) fun _ _ h => h.2
  | false => exact pushOne_triple value

theorem tryPushSlice_keeps (items : List T) : ProducerKeeps (W := W) r (tryPushSlice r items) := by
  unfold tryPushSlice
  split
  · exact .ret Filling.stable fun _ _ h => h
  · apply loadProducer_triple.bind
    intro p
    apply (availableSpace_triple p).bind
    intro n
    split
    · exact .ret (Room.stable _ _) fun _ _ h => h.2.shrink (Nat.zero_le _)
    · exact (pushItems_triple _ (by simp)).conseq (fun _ _ h => h)
        fun _ _ _ h => h.shrink (Nat.zero_le _)

theorem armProducer_keeps (waker : W) : ProducerKeeps (T := T) r (armProducer waker) :=
  producerZoom_triple (fun _ _ => by constructor <;> rfl) _

theorem pollPushFuture_keeps (waker : W) (value : T) :
    ProducerKeeps r (pollPushFuture r waker value) := by
  apply (tryPush_keeps value).bind
  rintro (value | _)
  · apply (armProducer_keeps waker).bind
    intro _
    apply (tryPush_keeps value).bind
    rintro (value | _)
    · exact pushPending_keeps _
    · exact disarmProducer_keeps.bind fun _ => pushReady_keeps
  · exact pushReady_keeps

theorem pollPushSliceFuture_keeps (waker : W) (items : List T) (pushedSoFar : Nat) :
    ProducerKeeps r (pollPushSliceFuture r waker items pushedSoFar) := by
  apply (tryPushSlice_keeps _).bind
  intro pushed
  split
  · exact pushReady_keeps
  · apply (setPushed_keeps _).bind
    intro _
    apply (armProducer_keeps waker).bind
    intro _
    apply (tryPushSlice_keeps _).bind
    intro again
    split
    · exact disarmProducer_keeps.bind fun _ => pushReady_keeps
    · exact (setPushed_keeps _).bind fun _ => pushPending_keeps _

theorem pollPush_keeps (waker : W) (future : PushFuture T) :
    ProducerKeeps r (pollPush r waker future) := by
  cases future with
  | push value =>
    apply (tryPush_keeps value).bind
    rintro (value | _)
    · exact pollPushFuture_keeps waker value
    · exact pushReady_keeps
  | pushing value => exact pollPushFuture_keeps waker value
  | pushSlice items =>
    rw [pollPush]
    split
    · exact (setPushed_keeps _).bind fun _ => pushReady_keeps
    · apply (tryPushSlice_keeps items).bind
      intro n
      apply (setPushed_keeps n).bind
      intro _
      split
      · exact pushReady_keeps
      · exact pollPushSliceFuture_keeps waker items n
  | slicing items pushedSoFar => exact pollPushSliceFuture_keeps waker items pushedSoFar

end Producer

end Cynosure.SiteD
