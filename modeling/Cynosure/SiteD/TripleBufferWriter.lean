import Cynosure.SiteD.TripleBufferInvariant

/-! # The writer of the triple buffer

A publish starts with the middle free. From the first `swap` to the store of the new
generation the writer alone moves the slots; after that store the reader may rotate,
and the writer still has to fetch its next buffer from the slot it has made its own.
-/

namespace Cynosure.SiteD

open Prog TripleState

variable {w : Nat} {T W : Type}

/-- The writer is in a call that was given `buf`. -/
structure Offering (buf : AlignedBuffer) (s : TripleState w T W) : Prop extends WriterHas buf s where
  hand : s.writer.hand = none
  held : s.writer.held = none
  offer : s.offer = (s.heap buf.ptr, buf.len)
  confirmed : s.confirmed = s.published

/-- Everything is read, and the writer knows the indices. -/
structure MiddleFree (buf : AlignedBuffer) (s : TripleState w T W) : Prop extends Offering buf s where
  read : s.published.length = s.taken.length

/-- The writer moves `buf` from its slot `i` to the middle and will have the slot `m`. -/
structure Rotating (i m : Fin 3) (buf : AlignedBuffer) (s : TripleState w T W) : Prop where
  busy : s.publishing = true
  read : s.published.length = s.taken.length
  put : s.buffers i = some buf.ptr
  next : (s.buffers m).isSome = true
  distinct : i ≠ m
  reader : s.readerIdx ≠ i ∧ s.readerIdx ≠ m
  owns : s.writerOwns = []
  hand : s.writer.hand = none
  held : s.writer.held = none
  offer : s.offer = (s.heap buf.ptr, buf.len)
  confirmed : s.confirmed = s.published

/-- The writer's next buffer waits in its slot. -/
structure Fetching (m : Fin 3) (s : TripleState w T W) : Prop where
  busy : s.publishing = false
  idx : s.writerIdx = m
  next : (s.buffers m).isSome = true
  owns : s.writerOwns = []
  hand : s.writer.hand = none
  held : s.writer.held = none
  confirmed : s.published = s.confirmed ++ [s.offer]

section Stable

variable {buf : AlignedBuffer} {i m : Fin 3}

theorem WriterHas.stable {s t : TripleState w T W} (hst : WriterRely s t) (h : WriterHas buf s) :
    WriterHas buf t where
  busy := hst.busy.trans h.busy
  slot := by rw [hst.idx, hst.slot, h.slot]
  owns := hst.owns.trans h.owns

theorem WriterHas.heap {s t : TripleState w T W} (hst : WriterRely s t) (h : WriterHas buf s) :
    t.heap buf.ptr = s.heap buf.ptr :=
  hst.heap _ (by rw [h.owns]; exact List.mem_singleton_self _)

theorem Offering.stable : writerContract.Stable (Offering buf : TripleState w T W → Prop) := by
  intro s t _ (hst : WriterRely s t) h
  exact {
    toWriterHas := h.toWriterHas.stable hst
    hand := by rw [hst.handle, h.hand]
    held := by rw [hst.handle, h.held]
    offer := by rw [hst.offer, h.offer, h.toWriterHas.heap hst]
    confirmed := by rw [hst.confirmed, hst.published, h.confirmed] }

theorem MiddleFree.stable : writerContract.Stable (MiddleFree buf : TripleState w T W → Prop) := by
  intro s t hI (hst : WriterRely s t) h
  obtain ⟨-, -, -, -, htaken, -⟩ := hst.quiet h.read
  exact {
    toOffering := Offering.stable s t hI hst h.toOffering
    read := by rw [hst.published, htaken, h.read] }

theorem Rotating.stable : writerContract.Stable (Rotating i m buf : TripleState w T W → Prop) := by
  intro s t _ (hst : WriterRely s t) h
  obtain ⟨hbuf, -, -, hreader, htaken, hheap⟩ := hst.quiet h.read
  exact {
    busy := hst.busy.trans h.busy
    read := by rw [hst.published, htaken, h.read]
    put := by rw [hbuf, h.put]
    next := by rw [hbuf, h.next]
    distinct := h.distinct
    reader := by rw [hreader]; exact h.reader
    owns := hst.owns.trans h.owns
    hand := by rw [hst.handle, h.hand]
    held := by rw [hst.handle, h.held]
    offer := by rw [hst.offer, h.offer, hheap i _ h.put]
    confirmed := by rw [hst.confirmed, hst.published, h.confirmed] }

theorem Fetching.stable : writerContract.Stable (Fetching m : TripleState w T W → Prop) := by
  intro s t _ (hst : WriterRely s t) h
  exact {
    busy := hst.busy.trans h.busy
    idx := hst.idx.trans h.idx
    next := by
      have hslot := hst.slot
      rw [h.idx] at hslot
      rw [hslot, h.next]
    owns := hst.owns.trans h.owns
    hand := by rw [hst.handle, h.hand]
    held := by rw [hst.handle, h.held]
    confirmed := by rw [hst.confirmed, hst.published, hst.offer, h.confirmed] }

theorem WriterRest.stable : writerContract.Stable (WriterRest : TripleState w T W → Prop) := by
  rintro s t - hst ⟨buf, h, hconfirmed, hbuf⟩
  have hst : WriterRely s t := hst
  refine ⟨buf, h.stable hst, by rw [hst.confirmed, hst.published, hconfirmed], ?_⟩
  rw [hst.handle, hst.offer, h.heap hst]
  exact hbuf

/-- The indices as the writer knows them in the middle of its rotation. -/
def WriterIndices (wi mi : Fin 3) (s : TripleState w T W) : Prop :=
  s.writerIdx = wi ∧ s.middleIdx = mi

theorem WriterIndices.of_rely {wi mi : Fin 3} {s t : TripleState w T W} (hst : WriterRely s t)
    (hread : s.published.length = s.taken.length) (h : WriterIndices wi mi s) : WriterIndices wi mi t := by
  obtain ⟨-, -, hmiddle, -⟩ := hst.quiet hread
  exact ⟨hst.idx.trans h.1, hmiddle.trans h.2⟩

theorem MiddleFree.stable_sees {wi mi : Fin 3} : writerContract.Stable
    (fun s : TripleState w T W => MiddleFree buf s ∧ WriterIndices wi mi s) :=
  fun s t hI hst h => ⟨MiddleFree.stable s t hI hst h.1, h.2.of_rely hst h.1.read⟩

theorem Rotating.stable_sees {wi mi : Fin 3} : writerContract.Stable
    (fun s : TripleState w T W => Rotating i m buf s ∧ WriterIndices wi mi s) :=
  fun s t hI hst h => ⟨Rotating.stable s t hI hst h.1, h.2.of_rely hst h.1.read⟩

/-- The length of `buf` is stored beside it. -/
def Measured (i m wi mi : Fin 3) (buf : AlignedBuffer) (s : TripleState w T W) : Prop :=
  Rotating i m buf s ∧ WriterIndices wi mi s ∧ s.lens i = buf.len

theorem Measured.stable {wi mi : Fin 3} :
    writerContract.Stable (Measured i m wi mi buf : TripleState w T W → Prop) := by
  intro s t hI (hst : WriterRely s t) h
  obtain ⟨-, hlens, -⟩ := hst.quiet h.1.read
  exact ⟨Rotating.stable s t hI hst h.1, h.2.1.of_rely hst h.1.read, by rw [hlens, h.2.2]⟩

end Stable

section Steps

variable {buf : AlignedBuffer} {i m : Fin 3} {s : TripleState w T W}

theorem MiddleFree.ready (h : MiddleFree buf s) (hI : TripleInv s) : MiddleReady s := by
  apply hI.middle h.busy
  by_contra htaking
  have := hI.taking (by simpa using htaking)
  have := h.read
  omega

theorem MiddleFree.putWriter (h : MiddleFree buf s) (hI : TripleInv s) :
    TripleInv (s.putWriter s.writerIdx buf.ptr) ∧
      ReaderRely s (s.putWriter s.writerIdx buf.ptr) ∧
      Rotating s.writerIdx s.middleIdx buf (s.putWriter s.writerIdx buf.ptr) := by
  obtain ⟨hwm, hrm, p, hp, -⟩ := h.ready hI
  have hother : ∀ j, j ≠ s.writerIdx →
      (s.putWriter s.writerIdx buf.ptr).buffers j = s.buffers j :=
    fun j hj => Function.update_of_ne hj _ _
  refine ⟨?_, ?_, ?_⟩
  · exact { hI with
      publishing := fun _ => h.read
      middle := fun hbusy _ => Bool.noConfusion hbusy
      owned := fun q => by
        have howned := hI.owned q
        have hslots := slotCount_update s.buffers s.writerIdx (some buf.ptr) q
        simp only [owners, h.owns, h.slot, TripleState.putWriter, reduceCtorEq, if_false,
          Option.some.injEq, List.erase_cons_head, List.count_cons, List.count_nil,
          beq_iff_eq] at howned hslots ⊢
        omega
      sound := ⟨hI.sound.1, by simp [TripleState.putWriter, h.slot, hI.sound.2]⟩ }
  · refine ⟨rfl, rfl, hother _ hI.apart.symm, rfl, rfl, fun _ _ => rfl, rfl, rfl, rfl,
      fun hunread => ?_⟩
    have := h.read
    omega
  · exact {
      busy := rfl
      read := h.read
      put := Function.update_self _ _ _
      next := by rw [hother _ hwm.symm, hp]; rfl
      distinct := hwm
      reader := ⟨hI.apart.symm, hrm⟩
      owns := by simp [TripleState.putWriter, h.owns]
      hand := h.hand
      held := h.held
      offer := h.offer
      confirmed := h.confirmed }

/-- While the writer is rotating, its stores to the indices and lengths concern nobody else. -/
theorem Rotating.readerRely {t : TripleState w T W} (h : Rotating i m buf s)
    (hr : t.reader = s.reader) (hidx : t.readerIdx = s.readerIdx) (hb : t.buffers = s.buffers)
    (htaking : t.taking = s.taking) (ho : t.readerOwns = s.readerOwns) (hh : t.heap = s.heap)
    (ht : t.taken = s.taken) (hd : t.delivered = s.delivered) (hout : t.readerOut = s.readerOut) :
    ReaderRely s t := by
  refine ⟨hr, hidx, by rw [hb], htaking, ho, fun _ _ => by rw [hh], ht, hd, hout,
    fun hunread => ?_⟩
  have := h.read
  omega

theorem Measured.publish (h : Measured i m m i buf s) (hI : TripleInv s) :
    TripleInv (s.publish (BitVec.ofNat w s.published.length + 1)) ∧
      ReaderRely s (s.publish (BitVec.ofNat w s.published.length + 1)) ∧
      Fetching m (s.publish (BitVec.ofNat w s.published.length + 1)) := by
  obtain ⟨hrot, ⟨hwi, hmi⟩, hlen⟩ := h
  have hread := hrot.read
  have htaking : s.taking = false := by
    by_contra htaking
    have := hI.taking (by simpa using htaking)
    omega
  refine ⟨?_, hrot.readerRely rfl rfl rfl rfl rfl rfl rfl rfl rfl, ?_⟩
  · exact {
      generation := by
        change BitVec.ofNat w s.published.length + 1 = BitVec.ofNat w (s.published ++ [s.offer]).length
        rw [Word.ofNat_add_one, List.length_append, List.length_singleton]
      lastRead := hI.lastRead
      le := by
        change s.taken.length ≤ (s.published ++ [s.offer]).length
        rw [List.length_append]
        omega
      bound := by
        change (s.published ++ [s.offer]).length ≤ s.taken.length + 1
        rw [List.length_append, List.length_singleton]
        omega
      fifo := by
        change s.taken = (s.published ++ [s.offer]).take s.taken.length
        rw [List.take_append_of_le_length hI.le]
        exact hI.fifo
      confirmed := hI.confirmed.trans (List.prefix_append _ _)
      returned := hI.returned
      publishing := fun hbusy => Bool.noConfusion hbusy
      taking := fun hbusy => by
        change s.taking = true at hbusy
        rw [htaking] at hbusy
        exact Bool.noConfusion hbusy
      apart := hI.apart
      middle := fun _ _ => {
        writer := by
          change s.writerIdx ≠ s.middleIdx
          rw [hwi, hmi]
          exact hrot.distinct.symm
        reader := by
          change s.readerIdx ≠ s.middleIdx
          rw [hmi]
          exact hrot.reader.1
        holds := by
          refine ⟨buf.ptr, ?_, fun _ => ?_⟩
          · change s.buffers s.middleIdx = _
            rw [hmi, hrot.put]
          · change (s.published ++ [s.offer])[s.taken.length]? =
              some (s.heap buf.ptr, s.lens s.middleIdx)
            rw [← hread, List.getElem?_concat_length, hrot.offer, hmi, hlen] }
      owned := hI.owned
      fresh := hI.fresh
      sound := hI.sound }
  · refine ⟨rfl, hwi, hrot.next, hrot.owns, hrot.hand, hrot.held, ?_⟩
    change s.published ++ [s.offer] = s.confirmed ++ [s.offer]
    rw [hrot.confirmed]

/-- A take that runs at the same time works on the two other slots. -/
theorem Fetching.takeWriter (h : Fetching m s) (hI : TripleInv s) :
    ∃ ptr, s.buffers m = some ptr ∧ TripleInv (s.takeWriter m) ∧ ReaderRely s (s.takeWriter m) ∧
      WriterHas ⟨ptr, 0⟩ (s.takeWriter m) ∧ (s.takeWriter m).writer = s.writer := by
  obtain ⟨ptr, hptr⟩ := Option.isSome_iff_exists.mp h.next
  have hother : ∀ j, j ≠ m → (s.takeWriter m).buffers j = s.buffers j :=
    fun j hj => Function.update_of_ne hj _ _
  have hreader : s.readerIdx ≠ m := by
    rw [← h.idx]
    exact hI.apart.symm
  refine ⟨ptr, hptr, ?_, ?_, ?_, rfl⟩
  · exact { hI with
      middle := fun hbusy htaking => by
        obtain ⟨hwm, hrm, hmiddle⟩ := hI.middle hbusy htaking
        rw [h.idx] at hwm
        refine ⟨by simpa [TripleState.takeWriter, h.idx] using hwm, hrm, ?_⟩
        change ∃ p, (s.takeWriter m).buffers s.middleIdx = some p ∧ _
        rw [hother _ hwm.symm]
        exact hmiddle
      owned := fun q => by
        have howned := hI.owned q
        have hslots := slotCount_update s.buffers m none q
        simp only [owners, h.owns, hptr, TripleState.takeWriter, reduceCtorEq, if_false,
          Option.some.injEq, Option.toList_some, List.append_nil, List.count_cons, List.count_nil,
          beq_iff_eq] at howned hslots ⊢
        omega
      sound := ⟨by simp [TripleState.takeWriter, hptr, hI.sound.1], hI.sound.2⟩ }
  · refine ⟨rfl, rfl, hother _ hreader, rfl, rfl, fun _ _ => rfl, rfl, rfl, rfl,
      fun _ => ⟨rfl, rfl, rfl, rfl, fun j hj => ⟨hother j ?_, fun _ _ => rfl⟩⟩⟩
    rwa [h.idx] at hj
  · exact {
      busy := h.busy
      slot := by
        change Function.update s.buffers m none s.writerIdx = none
        rw [h.idx, Function.update_self]
      owns := by simp [TripleState.takeWriter, hptr, h.owns] }

end Steps

section Calls

variable {buf : AlignedBuffer} {i m : Fin 3}

theorem writerIdle_guar (s : TripleState w T W) : writerContract.guar s s :=
  writerGuar (tripleOutline.refl .reader s)

theorem putWriter_triple : writerContract.Triple
    (fun s : TripleState w T W => MiddleFree buf s ∧ WriterIndices i m s)
    (store (TripleState.putWriter i buf.ptr))
    fun _ s => Rotating i m buf s ∧ WriterIndices i m s := by
  refine .store MiddleFree.stable_sees (fun _ => Rotating.stable_sees) ?_
  rintro s hI ⟨h, rfl, rfl⟩
  obtain ⟨hinv, hrely, hrot⟩ := h.putWriter hI
  exact ⟨hinv, writerGuar hrely, hrot, rfl, rfl⟩

theorem storeLen_triple : writerContract.Triple
    (fun s : TripleState w T W => Rotating i m buf s ∧ WriterIndices i m s)
    (store fun s => { s with lens := Function.update s.lens i buf.len })
    fun _ => Measured i m i m buf := by
  refine .store Rotating.stable_sees (fun _ => Measured.stable) ?_
  rintro s hI ⟨h, hsees⟩
  refine ⟨{ hI with middle := fun hbusy => ?_ },
    writerGuar (h.readerRely rfl rfl rfl rfl rfl rfl rfl rfl rfl),
    { h with }, hsees, Function.update_self _ _ _⟩
  exact absurd (h.busy.symm.trans hbusy) Bool.noConfusion

theorem storeWriterIdx_triple : writerContract.Triple (Measured (w := w) (T := T) (W := W) i m i m buf)
    (store fun s => { s with writerIdx := m }) fun _ => Measured i m m m buf := by
  refine .store Measured.stable (fun _ => Measured.stable) ?_
  rintro s hI ⟨h, hsees, hlen⟩
  refine ⟨{ hI with apart := h.reader.2.symm, middle := fun hbusy => ?_ },
    writerGuar (h.readerRely rfl rfl rfl rfl rfl rfl rfl rfl rfl), { h with }, ⟨rfl, hsees.2⟩, hlen⟩
  exact absurd (h.busy.symm.trans hbusy) Bool.noConfusion

theorem storeMiddleIdx_triple : writerContract.Triple
    (Measured (w := w) (T := T) (W := W) i m m m buf)
    (store fun s => { s with middleIdx := i }) fun _ => Measured i m m i buf := by
  refine .store Measured.stable (fun _ => Measured.stable) ?_
  rintro s hI ⟨h, hsees, hlen⟩
  refine ⟨{ hI with middle := fun hbusy => ?_ },
    writerGuar (h.readerRely rfl rfl rfl rfl rfl rfl rfl rfl rfl), { h with }, ⟨hsees.1, rfl⟩, hlen⟩
  exact absurd (h.busy.symm.trans hbusy) Bool.noConfusion

/-- Only the writer stores the generation, so what it loads is still there when it stores. -/
theorem bumpGeneration_triple : writerContract.Triple
    (Measured (w := w) (T := T) (W := W) i m m i buf)
    (do
      let generation ← load (·.generation)
      store (TripleState.publish (generation + 1)))
    fun _ => Fetching m := by
  have hstable : ∀ g : BitVec w, writerContract.Stable fun s : TripleState w T W =>
      g = BitVec.ofNat w s.published.length ∧ Measured i m m i buf s := by
    intro g s t hI (hst : WriterRely s t) h
    exact ⟨by rw [hst.published, h.1], Measured.stable s t hI hst h.2⟩
  apply Contract.Triple.bind
  · exact .load Measured.stable hstable (fun s _ _ => writerIdle_guar s) fun s hI h =>
      ⟨hI.generation, h⟩
  · intro g
    refine .store (hstable g) (fun _ => Fetching.stable) ?_
    rintro s hI ⟨rfl, h⟩
    obtain ⟨hinv, hrely, hfetch⟩ := h.publish hI
    exact ⟨hinv, writerGuar hrely, hfetch⟩

/-- The writer's buffer of the next round; its handle is still empty. -/
structure Fetched (next : AlignedBuffer) (s : TripleState w T W) : Prop extends WriterHas next s where
  hand : s.writer.hand = none
  held : s.writer.held = none
  len : next.len = 0
  confirmed : s.published = s.confirmed ++ [s.offer]

theorem Fetched.stable {next : AlignedBuffer} :
    writerContract.Stable (Fetched next : TripleState w T W → Prop) := by
  intro s t _ (hst : WriterRely s t) h
  exact ⟨h.toWriterHas.stable hst, by rw [hst.handle, h.hand], by rw [hst.handle, h.held], h.len,
    by rw [hst.confirmed, hst.published, hst.offer, h.confirmed]⟩

/-- The outcome of a publish: no panic, and an empty buffer. -/
def PublishPost : Option AlignedBuffer → TripleState w T W → Prop
  | none, _ => False
  | some next, s => Fetched next s

theorem PublishPost.stable (next : Option AlignedBuffer) :
    writerContract.Stable (PublishPost next : TripleState w T W → Prop) := by
  cases next with
  | none => exact fun _ _ _ _ h => h
  | some next => exact Fetched.stable

theorem publishReturns_triple (next : Option AlignedBuffer) : writerContract.Triple
    (PublishPost (w := w) (T := T) (W := W) next) (publishReturns next) fun _ => WriterRest := by
  cases next with
  | none => exact fun _ _ h => h.elim
  | some next =>
    refine .store Fetched.stable (fun _ => WriterRest.stable) fun s hI h => ?_
    have hsame : SameTriple s { s with
        writer := { s.writer with hand := some next, future := false }
        writerOut := some (.published next)
        confirmed := s.confirmed ++ [s.offer] } := by
      constructor <;> simp [h.len, h.confirmed]
    exact ⟨hsame.inv hI, writerGuar (hsame.readerRely rfl rfl rfl),
      next, ⟨h.busy, h.slot, h.owns⟩, h.confirmed.symm, .inl ⟨rfl, h.held⟩⟩

/-- Refused, the buffer goes back to the caller or into the handle. -/
theorem writerKeeps_triple {f : TripleState w T W → TripleState w T W}
    (hf : ∀ s, SameTriple s (f s))
    (hoffer : ∀ s, (f s).offer = s.offer ∧ (f s).confirmed = s.confirmed)
    (hr : ∀ s, (f s).reader = s.reader ∧ (f s).delivered = s.delivered ∧
      (f s).readerOut = s.readerOut)
    (hput : ∀ s, s.writer.hand = none → s.writer.held = none →
      (f s).writer.hand = some buf ∧ (f s).writer.held = none ∨
        (f s).writer.hand = none ∧ (f s).writer.held = some buf) :
    writerContract.Triple (Offering buf) (store f) fun _ => WriterRest := by
  refine .store Offering.stable (fun _ => WriterRest.stable) fun s hI h => ?_
  have hs := hf s
  refine ⟨hs.inv hI, writerGuar (hs.readerRely (hr s).1 (hr s).2.1 (hr s).2.2), buf, ?_, ?_, ?_⟩
  · exact ⟨by rw [hs.publishing, h.busy], by rw [hs.writerIdx, hs.buffers, h.slot],
      by rw [hs.writerOwns, h.owns]⟩
  · rw [(hoffer s).2, hs.published, h.confirmed]
  · rcases hput s h.hand h.held with hhand | ⟨hhand, hheld⟩
    · exact .inl hhand
    · exact .inr ⟨hhand, hheld, by rw [(hoffer s).1, hs.heap, h.offer]⟩

/-- The reader can only bring its generation up to the writer's. -/
theorem middleFree_triple (hw : 0 < w) : writerContract.Triple
    (Offering (w := w) (T := T) (W := W) buf) middleFree
    fun free s => Offering buf s ∧ (free = true → MiddleFree buf s) := by
  have hfirst : ∀ g : BitVec w, writerContract.Stable fun s : TripleState w T W =>
      g = BitVec.ofNat w s.published.length ∧ Offering buf s := by
    intro g s t hI (hst : WriterRely s t) h
    exact ⟨by rw [hst.published, h.1], Offering.stable s t hI hst h.2⟩
  have hpost : ∀ P : Prop, writerContract.Stable fun s : TripleState w T W =>
      Offering buf s ∧ (P → MiddleFree buf s) := fun P s t hI hst h =>
    ⟨Offering.stable s t hI hst h.1, fun hP => MiddleFree.stable s t hI hst (h.2 hP)⟩
  have hload : writerContract.Triple (Offering (w := w) (T := T) (W := W) buf) loadGenerations
      fun g s => Offering buf s ∧ (g.1 = g.2 → MiddleFree buf s) := by
    apply Contract.Triple.bind
    · exact .load Offering.stable hfirst (fun s _ _ => writerIdle_guar s)
        fun s hI h => ⟨hI.generation, h⟩
    intro g
    apply Contract.Triple.bind
    · exact .load (hfirst g) (fun r => hpost (g = r)) (fun s _ _ => writerIdle_guar s)
        fun s hI h => ⟨h.2, fun heq => ⟨h.2, hI.eq_of_generation hw (by rw [← h.1, heq])⟩⟩
    exact fun r => .ret (hpost (g = r)) fun _ _ h => h
  apply hload.bind
  exact fun g => .ret (hpost (g.1 = g.2)) fun _ _ h => ⟨h.1, fun hfree => h.2 (by simpa using hfree)⟩

theorem disarmWriter_triple {P : TripleState w T W → Prop} (hP : writerContract.Stable P) :
    writerContract.Triple P (store fun s => { s with writerSlot := s.writerSlot.disarm })
      fun _ => P :=
  .store hP (fun _ => hP) fun s hI h => (slotsOnly_slots s _ _).keeps_writer hP hI h

variable [Waker W]

theorem wakeReader_triple {P : TripleState w T W → Prop} (hP : writerContract.Stable P) :
    writerContract.Triple P wakeReader fun _ => P :=
  Contract.Triple.zoom hP (fun s _ hI h => (slotsOnly_slots s _ _).keeps_writer hP hI h) _

theorem armWriter_triple {P : TripleState w T W → Prop} (hP : writerContract.Stable P) (waker : W) :
    writerContract.Triple P (armWriter waker) fun _ => P :=
  Contract.Triple.zoom hP (fun s _ hI h => (slotsOnly_slots s _ _).keeps_writer hP hI h) _

theorem writerTakesNext_triple : writerContract.Triple
    (Fetching (w := w) (T := T) (W := W) m) (writerTakesNext m) PublishPost := by
  have hpost : ∀ ptr : Option Nat, writerContract.Stable fun s : TripleState w T W =>
      PublishPost (ptr.map fun p => ⟨p, 0⟩) s := fun ptr => PublishPost.stable _
  apply Contract.Triple.bind
  · refine .exchange Fetching.stable hpost fun s hI h => ?_
    obtain ⟨ptr, hptr, hinv, hrely, hhas, hwriter⟩ := h.takeWriter hI
    refine ⟨hinv, writerGuar hrely, ?_⟩
    rw [hptr]
    exact ⟨hhas, by rw [hwriter, h.hand], by rw [hwriter, h.held], rfl, h.confirmed⟩
  · rintro (_ | p)
    · exact .ret (hpost none) fun _ _ h => h
    · apply (wakeReader_triple Fetched.stable).bind
      exact fun _ => .ret Fetched.stable fun _ _ h => h

theorem writerPublishNow_triple : writerContract.Triple
    (MiddleFree (w := w) (T := T) (W := W) buf) (writerPublishNow buf) PublishPost := by
  have hstable : ∀ wi : Fin 3, writerContract.Stable fun s : TripleState w T W =>
      MiddleFree buf s ∧ s.writerIdx = wi :=
    fun wi s t hI hst h => ⟨MiddleFree.stable s t hI hst h.1, hst.idx.trans h.2⟩
  apply Contract.Triple.bind
  · exact .load MiddleFree.stable hstable (fun s _ _ => writerIdle_guar s) fun _ _ h => ⟨h, rfl⟩
  intro i
  apply Contract.Triple.bind (R := fun m s => MiddleFree buf s ∧ WriterIndices i m s)
  · exact .load (hstable i) (fun _ => MiddleFree.stable_sees) (fun s _ _ => writerIdle_guar s)
      fun _ _ h => ⟨h.1, h.2, rfl⟩
  intro m
  apply putWriter_triple.bind
  intro _
  apply storeLen_triple.bind
  intro _
  apply storeWriterIdx_triple.bind
  intro _
  apply storeMiddleIdx_triple.bind
  intro _
  exact bumpGeneration_triple.bind fun _ => writerTakesNext_triple

/-- Refused, the call has the buffer it was given. -/
def TryPublishPost (buf : AlignedBuffer) : Option (Option AlignedBuffer) → TripleState w T W → Prop
  | none, s => Offering buf s
  | some next, s => PublishPost next s

theorem tryPublishNow_triple (hw : 0 < w) : writerContract.Triple
    (Offering (w := w) (T := T) (W := W) buf) (tryPublishNow buf) (TryPublishPost buf) := by
  apply (middleFree_triple hw).bind
  rintro (_ | _)
  · exact .ret (fun s t hI hst h => ⟨Offering.stable s t hI hst h.1, fun h => Bool.noConfusion h⟩)
      fun _ _ h => h.1
  · have hrun : writerContract.Triple (MiddleFree (w := w) (T := T) (W := W) buf)
        (writerPublishNow buf >>= fun next => pure (some next)) (TryPublishPost buf) := by
      apply writerPublishNow_triple.bind
      rintro (_ | next)
      · exact .ret (fun _ _ _ _ h => h) fun _ _ h => h
      · exact .ret Fetched.stable fun _ _ h => h
    exact hrun.conseq (fun _ _ h => h.2 rfl) fun _ _ _ h => h

theorem tryPublish_triple (hw : 0 < w) : writerContract.Triple
    (Offering (w := w) (T := T) (W := W) buf) (tryPublish buf) fun _ => WriterRest := by
  apply (tryPublishNow_triple hw).bind
  rintro (_ | next)
  · exact writerKeeps_triple (fun _ => by constructor <;> simp) (fun _ => ⟨rfl, rfl⟩)
      (fun _ => ⟨rfl, rfl, rfl⟩) fun _ _ hheld => .inl ⟨rfl, hheld⟩
  · exact publishReturns_triple next

theorem pollPublish_triple (hw : 0 < w) (waker : W) : writerContract.Triple
    (Offering (w := w) (T := T) (W := W) buf) (pollPublish waker buf) fun _ => WriterRest := by
  apply (tryPublishNow_triple hw).bind
  rintro (_ | next)
  · apply (armWriter_triple Offering.stable waker).bind
    intro _
    apply (tryPublishNow_triple hw).bind
    rintro (_ | _ | next)
    · exact writerKeeps_triple (fun _ => by constructor <;> simp) (fun _ => ⟨rfl, rfl⟩)
        (fun _ => ⟨rfl, rfl, rfl⟩) fun _ hhand _ => .inr ⟨hhand, rfl⟩
    · exact publishReturns_triple none
    · apply (disarmWriter_triple (PublishPost.stable (some next))).bind
      exact fun _ => publishReturns_triple (some next)
  · exact publishReturns_triple next

end Calls

end Cynosure.SiteD
