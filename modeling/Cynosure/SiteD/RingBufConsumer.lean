import Cynosure.SiteD.RingBufInvariant

/-! # The consumer of the ring buffer

The mirror image of the producer: it reads slots that its cached write index shows to
be published, and the producer can only publish more of them.
-/

namespace Cynosure.SiteD

variable {w : Nat} {T W : Type} {r : RingBuf w}

namespace Taking

variable {s : RingState w T W} {ahead room : Nat} {items : List (Option T)}

theorem available (h : Taking ahead room items s) :
    s.taken.length + room ≤ s.accepted.length := by
  obtain ⟨d, -, hle, hroom⟩ := h.cached
  omega

theorem stable :
    (consumerContract r).Stable (Taking ahead room items : RingState w T W → Prop) := by
  intro s t _ (hst : ConsumerRely s t) h
  obtain ⟨d, hd, hle, hroom⟩ := h.cached
  have hlen := hst.accepted.length_le
  have ht := hst.taken
  obtain ⟨more, hmore⟩ := hst.accepted
  have hfits := h.fits
  exact {
    alive := hst.alive.trans h.alive
    cached := ⟨d, by rw [hst.handle, hd], hle.trans hlen, by rw [ht]; exact hroom⟩
    read := by rw [hst.handle, ht, h.read]
    fits := hfits
    items := by
      rw [ht, ← hmore, List.drop_append_of_le_length (by omega),
        List.take_append_of_le_length (by rw [List.length_drop]; omega)]
      exact h.items }

theorem room_cached (h : Taking 0 0 ([] : List (Option T)) s) (hI : RingInv r s) :
    Taking 0 (s.consumer.cachedWrite - s.consumer.cachedRead).toNat [] s := by
  obtain ⟨d, hd, hle, hroom⟩ := h.cached
  have hlt := RingInv.capacity_lt r
  have hbound := hI.bound
  refine ⟨h.alive, ⟨d, hd, hle, ?_⟩, h.read, Nat.zero_le _, rfl⟩
  rw [h.read, hd, Nat.add_zero, Word.toNat_sub (by omega) (by omega)]
  omega

theorem shrink (h : Taking 0 room ([] : List (Option T)) s) {room' : Nat} (hle : room' ≤ room) :
    Taking 0 room' [] s := by
  obtain ⟨d, hd, hda, hroom⟩ := h.cached
  exact ⟨h.alive, ⟨d, hd, hda, by omega⟩, h.read, Nat.zero_le _, rfl⟩

theorem readSlot (h : Taking 0 room items s) (hI : RingInv r s) (hlt : items.length < room) :
    RingInv r (s.readSlot r ((s.taken.length + items.length) % r.capacity.toNat)) ∧
    Taking 0 room (items ++ [s.buffer ((s.taken.length + items.length) % r.capacity.toNat)])
      (s.readSlot r ((s.taken.length + items.length) % r.capacity.toNat)) := by
  have havail := h.available
  have hslot := hI.slots (s.taken.length + items.length) (by omega) (by omega)
  constructor
  · refine { hI with sound := ⟨hI.sound.1, ?_⟩ }
    simp only [RingState.readSlot, hI.sound.2, Bool.false_or, decide_eq_false_iff_not, not_not,
      hI.mem_live]
    exact ⟨_, by omega, by omega, rfl⟩
  · refine { h with
      fits := by simpa using hlt
      items := ?_ }
    change _ = ((s.accepted.drop s.taken.length).take _).map some
    rw [List.length_append, List.length_singleton, List.take_add_one, List.map_append, ← h.items,
      List.getElem?_drop, ← hslot]
    congr 1
    rw [hslot, List.getElem?_eq_getElem (by omega)]
    rfl

theorem advance (h : Taking 0 room items s) :
    Taking items.length room items { s with consumer := { s.consumer with
      cachedRead := BitVec.ofNat w (s.taken.length + items.length) } } :=
  { h with read := rfl }

theorem publishRead (h : Taking items.length room items s) (hI : RingInv r s) (signal : Bool) :
    RingInv r (s.publishRead items signal) ∧
      Taking 0 (room - items.length) [] (s.publishRead items signal) := by
  have havail := h.available
  have hfits := h.fits
  have hlen : (s.publishRead items signal).taken.length = s.taken.length + items.length := by
    simp [RingState.publishRead]
  obtain ⟨d, hd, hda, hroom⟩ := h.cached
  have hbound := hI.bound
  constructor
  · exact {
      write := hI.write
      read := by rw [hlen, ← h.read]; rfl
      le := by rw [hlen]; change _ ≤ s.accepted.length; omega
      bound := by rw [hlen]; change s.accepted.length ≤ _; omega
      fifo := by
        rw [hlen]
        change s.taken ++ items = (s.accepted.take _).map some
        rw [List.take_add, List.map_append, ← hI.fifo, ← h.items]
      slots := fun i hlo hhi => by
        rw [hlen] at hlo
        exact hI.slots i (by omega) hhi
      sound := hI.sound
      freed := fun l hl => by
        have := hI.not_dropped_of_consumer h.alive
        simp [RingState.publishRead, this] at hl
      frees := hI.frees }
  · exact {
      alive := h.alive
      cached := ⟨d, hd, hda, by rw [hlen]; omega⟩
      read := by rw [hlen]; exact h.read
      fits := Nat.zero_le _
      items := rfl }

end Taking

section Consumer

open Prog

theorem consumerSame_triple {n : Nat} {f : RingState w T W → RingState w T W}
    (hf : ∀ s, SameRing s (f s)) :
    (consumerContract r).Triple (Taking 0 n []) (store f) fun _ => Taking 0 n [] := by
  refine .store Taking.stable (fun _ => Taking.stable) fun s hI h => ?_
  have hI' := (hf s).inv hI
  exact ⟨hI', consumerGuar (hf s).producerRely,
    Taking.stable (r := r) s _ hI' (hf s).consumerRely h⟩

theorem consumerZoom_triple {X α : Type} {n : Nat} {get : RingState w T W → X}
    {set : RingState w T W → X → RingState w T W} (hset : ∀ s x, SameRing s (set s x))
    (p : Prog X α) :
    (consumerContract r).Triple (Taking 0 n []) (p.zoom get set) fun _ => Taking 0 n [] := by
  refine Contract.Triple.zoom Taking.stable (fun s x hI h => ?_) p
  have hI' := (hset s x).inv hI
  exact ⟨hI', consumerGuar (hset s x).producerRely,
    Taking.stable (r := r) s _ hI' (hset s x).consumerRely h⟩

abbrev ConsumerKeeps {α : Type} (r : RingBuf w) (p : Prog (RingState w T W) α) : Prop :=
  (consumerContract r).Triple (Taking 0 0 []) p fun _ => Taking 0 0 []

def ConsumerIs (c : RingHandle w) (s : RingState w T W) : Prop :=
  s.consumer = c ∧ Taking 0 0 [] s

theorem ConsumerIs.stable (c : RingHandle w) :
    (consumerContract r).Stable (ConsumerIs c : RingState w T W → Prop) := by
  intro s t hI hst h
  exact ⟨hst.handle.trans h.1, Taking.stable s t hI hst h.2⟩

theorem loadConsumer_triple :
    (consumerContract r).Triple (Taking 0 0 []) (load RingState.consumer)
      (ConsumerIs (T := T) (W := W)) :=
  .load Taking.stable ConsumerIs.stable
    (fun s _ _ => consumerGuar ((ringOutline r).refl .producer s)) fun _ _ h => ⟨rfl, h⟩

theorem loadWriteIndex_triple (c : RingHandle w) :
    (consumerContract r).Triple (ConsumerIs (T := T) (W := W) c) loadWriteIndex
      fun write => ConsumerIs { c with cachedWrite := write } := by
  refine .exchange (ConsumerIs.stable c) (fun _ => ConsumerIs.stable _) ?_
  rintro s hI ⟨rfl, h⟩
  exact ⟨hI.frame rfl rfl rfl rfl rfl rfl rfl rfl rfl rfl, consumerGuar ⟨rfl, rfl, rfl, le_rfl, rfl⟩,
    rfl, { h with cached := ⟨s.accepted.length, hI.write, le_rfl, hI.le⟩ }⟩

/-- The consumer's index is known and it has computed how many items it may take. -/
def Ready (read : BitVec w) (n : Nat) (s : RingState w T W) : Prop :=
  s.consumer.cachedRead = read ∧ Taking 0 n [] s

theorem ConsumerIs.ready {c : RingHandle w} {s : RingState w T W} (h : ConsumerIs c s)
    (hI : RingInv r s) : Ready c.cachedRead (c.cachedWrite - c.cachedRead).toNat s := by
  obtain ⟨rfl, h⟩ := h
  exact ⟨rfl, h.room_cached hI⟩

theorem Ready.stable (read : BitVec w) (n : Nat) :
    (consumerContract r).Stable (Ready read n : RingState w T W → Prop) := by
  intro s t hI hst h
  exact ⟨(congrArg RingHandle.cachedRead hst.handle).trans h.1, Taking.stable s t hI hst h.2⟩

theorem availableItems_triple (c : RingHandle w) :
    (consumerContract r).Triple (ConsumerIs (T := T) (W := W) c) (availableItems c)
      (Ready c.cachedRead) := by
  unfold availableItems
  split
  · apply (loadWriteIndex_triple c).bind
    intro write
    exact .ret (ConsumerIs.stable _) fun s hI h => h.ready hI
  · exact .ret (ConsumerIs.stable c) fun s hI h => h.ready hI

theorem appearsEmpty_triple (c : RingHandle w) :
    (consumerContract r).Triple (ConsumerIs (T := T) (W := W) c) (appearsEmpty c)
      fun empty => Ready c.cachedRead (if empty then 0 else 1) := by
  have hready : ∀ {q : RingHandle w} {s : RingState w T W}, ConsumerIs q s → RingInv r s →
      Ready q.cachedRead (if decide (q.cachedRead = q.cachedWrite) then 0 else 1) s := by
    intro q s h hI
    refine ⟨(h.ready hI).1, (h.ready hI).2.shrink ?_⟩
    split
    · exact Nat.zero_le _
    · rename_i hne
      rw [decide_eq_true_eq] at hne
      refine Nat.pos_of_ne_zero fun h0 => hne ?_
      have : q.cachedWrite - q.cachedRead = 0 := BitVec.eq_of_toNat_eq (by simpa using h0)
      exact (sub_eq_zero.mp this).symm
  unfold appearsEmpty
  split
  · apply (loadWriteIndex_triple c).bind
    intro write
    exact .ret (ConsumerIs.stable _) fun s hI h => hready h hI
  · rename_i hne
    refine .ret (ConsumerIs.stable c) fun s hI h => ?_
    have := hready h hI
    simpa [hne] using this

/-- The consumer is reading behind the `B` items taken so far. -/
def Reading (B n : Nat) (items : List (Option T)) (s : RingState w T W) : Prop :=
  s.taken.length = B ∧ Taking 0 n items s

theorem Reading.stable (B n : Nat) (items : List (Option T)) :
    (consumerContract r).Stable (Reading B n items : RingState w T W → Prop) := by
  intro s t hI hst h
  exact ⟨by rw [hst.taken, h.1], Taking.stable s t hI hst h.2⟩

theorem readSlot_triple {B n i : Nat} {items : List (Option T)} (hlt : items.length < n)
    (hi : i = (B + items.length) % r.capacity.toNat) :
    (consumerContract r).Triple (Reading (W := W) B n items) (readSlot r i)
      fun x => Reading B n (items ++ [x]) := by
  refine .exchange (Reading.stable B n items) (fun _ => Reading.stable B n _) ?_
  rintro s hI ⟨rfl, h⟩
  rw [hi]
  obtain ⟨hinv, htake⟩ := h.readSlot hI hlt
  exact ⟨hinv, consumerGuar ⟨rfl, rfl, rfl, le_rfl, rfl⟩, rfl, htake⟩

theorem copyOut_triple {B n : Nat} (m i : Nat) (items : List (Option T))
    (hle : items.length + m ≤ n)
    (hpos : ∀ k < m, i + k = (B + items.length + k) % r.capacity.toNat) :
    (consumerContract r).Triple (Reading (W := W) B n items) (copyOut r i m)
      fun xs s => xs.length = m ∧ Reading B n (items ++ xs) s := by
  induction m generalizing i items with
  | zero =>
    exact .ret (Reading.stable B n items) fun _ _ h => ⟨rfl, by rwa [List.append_nil]⟩
  | succ m ih =>
    apply (readSlot_triple (by omega) (by simpa using hpos 0 (by omega))).bind
    intro x
    refine (ih (i + 1) (items ++ [x]) (by simp; omega) fun k hk => ?_).bind fun xs => ?_
    · have := hpos (k + 1) (by omega)
      rw [List.length_append, List.length_singleton,
        show B + (items.length + 1) + k = B + items.length + (k + 1) by omega, ← this]
      omega
    · refine .ret ?_ fun s _ h => ⟨by simp [h.1], ?_⟩
      · intro s t hI hst h
        exact ⟨h.1, Reading.stable B n _ s t hI hst h.2⟩
      · simpa using h.2

theorem copyItemsOut_triple {B n : Nat} (toPop : Nat) (hle : toPop ≤ n)
    (hn : n ≤ r.capacity.toNat) :
    (consumerContract r).Triple (Reading (T := T) (W := W) B n [])
      (copyItemsOut r (B % r.capacity.toNat) toPop)
      fun xs s => xs.length = toPop ∧ Reading B n xs s := by
  have hst : ∀ (P : Prop) (xs : List (Option T)), (consumerContract r).Stable
      fun s : RingState w T W => P ∧ Reading B n xs s :=
    fun _ xs s t hI hst h => ⟨h.1, Reading.stable B n xs s t hI hst h.2⟩
  unfold copyItemsOut
  apply (copyOut_triple _ _ [] (by simp; omega) (fun k hk => ?_)).bind
  · intro first
    rw [List.nil_append]
    split
    · rename_i hlt
      have hmin : min (r.capacity.toNat - B % r.capacity.toNat) toPop =
          r.capacity.toNat - B % r.capacity.toNat := by omega
      rw [hmin] at hlt ⊢
      rintro s hI ⟨hfirst, hread⟩
      refine Contract.Ok.bind (copyOut_triple (r := r) (toPop - (r.capacity.toNat - B % r.capacity.toNat))
        0 first (by omega) (fun k hk => ?_) s hI hread) fun second => ?_
      · rw [hfirst, Nat.zero_add, Word.mod_add_wrapped (by omega)]
      · exact .ret (hst _ _) fun _ _ h => ⟨by simp [h.1, hfirst]; omega, h.2⟩
    · rename_i hge
      exact .ret (hst _ _) fun _ _ h => ⟨by rw [h.1]; omega, h.2⟩
  · rw [List.length_nil, Nat.add_zero, Word.mod_add_of_lt (by omega)]

theorem setCachedRead_triple {B n : Nat} {items : List (Option T)} {read : BitVec w}
    (hr : read = BitVec.ofNat w (B + items.length)) :
    (consumerContract r).Triple (Reading (W := W) B n items) (setCachedRead read)
      fun _ => Taking items.length n items := by
  refine .store (Reading.stable B n items) (fun _ => Taking.stable) ?_
  rintro s hI ⟨rfl, h⟩
  rw [hr]
  exact ⟨hI.frame rfl rfl rfl rfl rfl rfl rfl rfl rfl rfl, consumerGuar ⟨rfl, rfl, rfl, le_rfl, rfl⟩,
    h.advance⟩

theorem publishRead_triple {n : Nat} {items : List (Option T)} (signal : Bool) :
    (consumerContract r).Triple (Taking (w := w) (W := W) items.length n items)
      (store (RingState.publishRead items signal)) fun _ => Taking 0 (n - items.length) [] := by
  refine .store Taking.stable (fun _ => Taking.stable) ?_
  intro s hI h
  obtain ⟨hinv, htake⟩ := h.publishRead hI signal
  exact ⟨hinv, consumerGuar ⟨rfl, rfl, rfl, by simp [RingState.publishRead], rfl⟩, htake⟩

theorem availableCount_keeps : ConsumerKeeps (T := T) (W := W) r availableCount := by
  intro s hI h
  refine Contract.Ok.bind (loadWriteIndex_triple s.consumer s hI ⟨rfl, h⟩) fun write => ?_
  apply ((loadConsumer_triple).conseq (fun _ _ h => h.2) fun _ _ _ h => h).bind
  exact fun c => .ret (ConsumerIs.stable c) fun _ _ h => h.2

theorem popReady_keeps (out : RingOut T) : ConsumerKeeps (W := W) r (popReady out) :=
  consumerSame_triple fun _ => by constructor <;> rfl

theorem popPending_keeps (future : PopFuture T) : ConsumerKeeps (W := W) r (popPending future) :=
  consumerSame_triple fun _ => by constructor <;> rfl

theorem setPopped_keeps (n : Nat) : ConsumerKeeps (T := T) (W := W) r (setPopped n) :=
  consumerSame_triple fun _ => by constructor <;> rfl

theorem disarmConsumer_keeps : ConsumerKeeps (T := T) (W := W) r disarmConsumer :=
  consumerSame_triple fun _ => by constructor <;> rfl

theorem consumerReturns_keeps (out : RingOut T) :
    ConsumerKeeps (W := W) r (consumerReturns out) :=
  consumerSame_triple fun _ => by constructor <;> rfl

variable [Waker W]

theorem signalProducer_triple {n : Nat} :
    (consumerContract r).Triple (Taking (T := T) (W := W) 0 n []) signalProducer
      fun _ => Taking 0 n [] :=
  consumerZoom_triple (fun _ _ => by constructor <;> rfl) _

theorem armConsumer_keeps (waker : W) : ConsumerKeeps (T := T) r (armConsumer waker) :=
  consumerZoom_triple (fun _ _ => by constructor <;> rfl) _

theorem popItems_triple {read : BitVec w} {n : Nat} (toPop : Nat) (hle : toPop ≤ n) :
    (consumerContract r).Triple (Ready (T := T) (W := W) read n) (popItems r read toPop)
      fun _ => Taking 0 0 [] := by
  rintro s hI ⟨hread, h⟩
  have hn : n ≤ r.capacity.toNat := by
    have := h.available
    have := hI.bound
    omega
  have hr : read = BitVec.ofNat w s.taken.length := by rw [← hread, h.read, Nat.add_zero]
  have hpos : (read &&& r.mask).toNat = s.taken.length % r.capacity.toNat := by
    rw [hr, RingBuf.mask, Word.toNat_mask r.isPowerOfTwo]
  unfold popItems
  rw [hpos]
  refine Contract.Ok.bind (copyItemsOut_triple toPop hle hn s hI ⟨rfl, h⟩) fun items => ?_
  rintro t hI' ⟨hlen, hitems⟩
  refine Contract.Ok.bind (setCachedRead_triple (r := r)
    (by rw [hr, hlen, BitVec.ofNat_add]) t hI' hitems) fun _ => ?_
  apply (publishRead_triple true).bind
  intro _
  apply signalProducer_triple.bind
  exact fun _ => .ret Taking.stable fun _ _ h => h.shrink (Nat.zero_le _)

theorem popOne_triple {read : BitVec w} (signal : Bool) :
    (consumerContract r).Triple (Ready (T := T) (W := W) read 1)
      (do
        let value ← readSlot r (read &&& r.mask).toNat
        setCachedRead (read + 1)
        store (RingState.publishRead [value] signal)
        whenSignal signal
        pure (some value))
      fun _ => Taking 0 0 [] := by
  rintro s hI ⟨hread, h⟩
  have hr : read = BitVec.ofNat w s.taken.length := by rw [← hread, h.read, Nat.add_zero]
  have hpos : (read &&& r.mask).toNat =
      (s.taken.length + ([] : List (Option T)).length) % r.capacity.toNat := by
    rw [hr, RingBuf.mask, Word.toNat_mask r.isPowerOfTwo]
    rfl
  refine Contract.Ok.bind (readSlot_triple Nat.one_pos hpos s hI ⟨rfl, h⟩) fun value => ?_
  apply (setCachedRead_triple (by rw [hr]; exact Word.ofNat_add_one _)).bind
  intro _
  apply (publishRead_triple signal).bind
  intro _
  cases signal with
  | true => exact signalProducer_triple.bind fun _ => .ret Taking.stable fun _ _ h => h
  | false => exact .ret Taking.stable fun _ _ h => h

theorem tryPop_keeps : ConsumerKeeps (T := T) (W := W) r (tryPop r) := by
  apply loadConsumer_triple.bind
  intro c
  apply (appearsEmpty_triple c).bind
  intro empty
  cases empty with
  | true => exact .ret (Ready.stable _ _) fun _ _ h => h.2
  | false => exact popOne_triple true

theorem tryPopSlice_keeps (items : List (Option T)) :
    ConsumerKeeps (W := W) r (tryPopSlice r items) := by
  unfold tryPopSlice
  split
  · exact .ret Taking.stable fun _ _ h => h
  · apply loadConsumer_triple.bind
    intro c
    apply (availableItems_triple c).bind
    intro n
    split
    · exact .ret (Ready.stable _ _) fun _ _ h => h.2.shrink (Nat.zero_le _)
    · apply (popItems_triple _ (by simp)).bind
      exact fun _ => .ret Taking.stable fun _ _ h => h

theorem pollPopFuture_keeps (waker : W) : ConsumerKeeps (T := T) r (pollPopFuture r waker) := by
  apply tryPop_keeps.bind
  rintro (_ | value)
  · apply (armConsumer_keeps waker).bind
    intro _
    apply tryPop_keeps.bind
    rintro (_ | value)
    · exact popPending_keeps _
    · exact disarmConsumer_keeps.bind fun _ => popReady_keeps _
  · exact popReady_keeps _

theorem pollPopSliceFuture_keeps (waker : W) (items : List (Option T)) (poppedSoFar : Nat) :
    ConsumerKeeps r (pollPopSliceFuture r waker items poppedSoFar) := by
  apply (tryPopSlice_keeps _).bind
  rintro ⟨popped, rest⟩
  dsimp only
  split
  · exact popReady_keeps _
  · apply (setPopped_keeps _).bind
    intro _
    apply (armConsumer_keeps waker).bind
    intro _
    apply (tryPopSlice_keeps _).bind
    rintro ⟨again, rest⟩
    dsimp only
    split
    · exact disarmConsumer_keeps.bind fun _ => popReady_keeps _
    · exact (setPopped_keeps _).bind fun _ => popPending_keeps _

theorem pollPop_keeps (waker : W) (future : PopFuture T) :
    ConsumerKeeps r (pollPop r waker future) := by
  cases future with
  | pop =>
    apply tryPop_keeps.bind
    rintro (_ | value)
    · exact pollPopFuture_keeps waker
    · exact popReady_keeps _
  | popping => exact pollPopFuture_keeps waker
  | popSlice items =>
    rw [pollPop]
    split
    · exact (setPopped_keeps _).bind fun _ => popReady_keeps _
    · apply (tryPopSlice_keeps items).bind
      rintro ⟨n, filled⟩
      apply (setPopped_keeps n).bind
      intro _
      split
      · exact popReady_keeps _
      · exact pollPopSliceFuture_keeps waker filled n
  | slicing items poppedSoFar => exact pollPopSliceFuture_keeps waker items poppedSoFar

end Consumer

end Cynosure.SiteD
