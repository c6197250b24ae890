import Cynosure.SiteD.TripleBufferInvariant

/-! # The reader of the triple buffer

A take starts with a buffer unread in the middle. Until it has stored the generation it
read, the writer can only fetch its next buffer from its own slot, so the reader has
the two other slots to itself.
-/

namespace Cynosure.SiteD

open Prog TripleState

variable {w : Nat} {T W : Type}

/-- The reader is in a call that was given `previous`. -/
structure Asking (previous : Option AlignedBuffer) (future : Bool) (s : TripleState w T W) : Prop
    extends ReaderHas previous s where
  handle : s.reader = ⟨none, none, future⟩
  delivered : s.delivered = s.taken

structure Unread (previous : Option AlignedBuffer) (future : Bool) (s : TripleState w T W) : Prop
    extends Asking previous future s where
  unread : s.published.length = s.taken.length + 1

/-- What the writer cannot change while the reader moves the slots `r` and `m`. -/
structure Swapping (g : BitVec w) (r m : Fin 3) (s : TripleState w T W) : Prop where
  unread : s.published.length = s.taken.length + 1
  generation : g = BitVec.ofNat w s.published.length
  back : (s.buffers r).isSome = true
  distinct : r ≠ m
  writer : s.writerIdx ≠ r ∧ s.writerIdx ≠ m
  delivered : s.delivered = s.taken
  held : s.reader.held = none

/-- The reader's own slot has a buffer again, and the unread one is still in the middle. -/
structure Returned (g : BitVec w) (r m : Fin 3) (s : TripleState w T W) : Prop
    extends Swapping g r m s where
  middle : ∃ p, s.buffers m = some p ∧
    s.published[s.taken.length]? = some (s.heap p, s.lens m)
  owns : s.readerOwns = []

/-- The unread buffer `p` is out of its slot. -/
structure Removed (g : BitVec w) (r m : Fin 3) (p : Nat) (s : TripleState w T W) : Prop
    extends Swapping g r m s where
  busy : s.taking = true
  idx : s.readerIdx = m ∧ s.middleIdx = r
  slot : s.buffers m = none
  contents : s.published[s.taken.length]? = some (s.heap p, s.lens m)
  owns : s.readerOwns = [p]

/-- The take is committed and `buf` not yet returned. -/
structure Took (buf : AlignedBuffer) (s : TripleState w T W) : Prop extends ReaderHas (some buf) s where
  delivered : s.taken = s.delivered ++ [(s.heap buf.ptr, buf.len)]
  held : s.reader.held = none

def ReaderIndices (ri mi : Fin 3) (s : TripleState w T W) : Prop :=
  s.readerIdx = ri ∧ s.middleIdx = mi

section Stable

variable {previous : Option AlignedBuffer} {future : Bool} {buf : AlignedBuffer} {g : BitVec w}
  {r m ri mi : Fin 3} {p : Nat}

theorem ReaderHas.stable {s t : TripleState w T W} (hst : ReaderRely s t)
    (h : ReaderHas previous s) : ReaderHas previous t where
  busy := hst.busy.trans h.busy
  slot := by rw [hst.idx, hst.slot, h.slot]
  owns := hst.owns.trans h.owns

theorem Asking.stable :
    readerContract.Stable (Asking previous future : TripleState w T W → Prop) := by
  intro s t _ (hst : ReaderRely s t) h
  exact ⟨h.toReaderHas.stable hst, hst.handle.trans h.handle,
    by rw [hst.delivered, hst.taken, h.delivered]⟩

theorem Unread.stable :
    readerContract.Stable (Unread previous future : TripleState w T W → Prop) := by
  intro s t hI (hst : ReaderRely s t) h
  obtain ⟨hpub, -⟩ := hst.quiet h.unread
  exact ⟨Asking.stable s t hI hst h.toAsking, by rw [hpub, hst.taken, h.unread]⟩

theorem Swapping.of_rely {s t : TripleState w T W} (hst : ReaderRely s t) (h : Swapping g r m s) :
    Swapping g r m t := by
  obtain ⟨hpub, -, -, hwriter, hslots⟩ := hst.quiet h.unread
  exact {
    unread := by rw [hpub, hst.taken, h.unread]
    generation := by rw [hpub, h.generation]
    back := by rw [(hslots r h.writer.1.symm).1, h.back]
    distinct := h.distinct
    writer := by rw [hwriter]; exact h.writer
    delivered := by rw [hst.delivered, hst.taken, h.delivered]
    held := by rw [hst.handle, h.held] }

theorem ReaderIndices.of_rely {s t : TripleState w T W} (hst : ReaderRely s t)
    (hunread : s.published.length = s.taken.length + 1) (h : ReaderIndices ri mi s) :
    ReaderIndices ri mi t := by
  obtain ⟨-, -, hmiddle, -⟩ := hst.quiet hunread
  exact ⟨hst.idx.trans h.1, hmiddle.trans h.2⟩

theorem Unread.stable_sees : readerContract.Stable fun s : TripleState w T W =>
    Unread previous future s ∧ g = BitVec.ofNat w s.published.length ∧ ReaderIndices ri mi s := by
  intro s t hI (hst : ReaderRely s t) h
  obtain ⟨hpub, -⟩ := hst.quiet h.1.unread
  exact ⟨Unread.stable s t hI hst h.1, by rw [hpub, h.2.1], h.2.2.of_rely hst h.1.unread⟩

theorem Returned.stable (busy : Bool → Prop) : readerContract.Stable fun s : TripleState w T W =>
    Returned g r m s ∧ ReaderIndices ri mi s ∧ busy s.taking := by
  intro s t _ (hst : ReaderRely s t) ⟨h, hsees, hbusy⟩
  obtain ⟨hpub, hlens, -, -, hslots⟩ := hst.quiet h.unread
  obtain ⟨p, hp, hcontents⟩ := h.middle
  obtain ⟨hslot, hheap⟩ := hslots m h.writer.2.symm
  refine ⟨⟨h.toSwapping.of_rely hst, ⟨p, by rw [hslot, hp], ?_⟩, hst.owns.trans h.owns⟩,
    hsees.of_rely hst h.unread, by rwa [hst.busy]⟩
  rw [hpub, hst.taken, hheap p hp, hlens, hcontents]

theorem Removed.stable : readerContract.Stable (Removed g r m p : TripleState w T W → Prop) := by
  intro s t _ (hst : ReaderRely s t) h
  obtain ⟨hpub, hlens, -, -, hslots⟩ := hst.quiet h.unread
  exact {
    toSwapping := h.toSwapping.of_rely hst
    busy := hst.busy.trans h.busy
    idx := ReaderIndices.of_rely hst h.unread h.idx
    slot := by rw [(hslots m h.writer.2.symm).1, h.slot]
    contents := by
      rw [hpub, hst.taken, hlens, hst.heap p (by rw [h.owns]; exact List.mem_singleton_self p),
        h.contents]
    owns := hst.owns.trans h.owns }

theorem Removed.stable_len {len : Nat} : readerContract.Stable fun s : TripleState w T W =>
    Removed g r m p s ∧ s.lens m = len := by
  intro s t hI (hst : ReaderRely s t) h
  obtain ⟨-, hlens, -⟩ := hst.quiet h.1.unread
  exact ⟨Removed.stable s t hI hst h.1, by rw [hlens, h.2]⟩

theorem ReaderHas.heap {s t : TripleState w T W} (hst : ReaderRely s t)
    (h : ReaderHas (some buf) s) : t.heap buf.ptr = s.heap buf.ptr :=
  hst.heap _ (by rw [h.owns]; exact List.mem_singleton_self _)

theorem Took.stable : readerContract.Stable (Took buf : TripleState w T W → Prop) := by
  intro s t _ (hst : ReaderRely s t) h
  exact ⟨h.toReaderHas.stable hst,
    by rw [hst.taken, hst.delivered, h.toReaderHas.heap hst, h.delivered], by rw [hst.handle, h.held]⟩

theorem ReaderRest.stable : readerContract.Stable (ReaderRest : TripleState w T W → Prop) := by
  rintro s t - hst ⟨previous, h, hdelivered, hhandle⟩
  have hst : ReaderRely s t := hst
  refine ⟨previous, h.stable hst, by rw [hst.delivered, hst.taken, hdelivered], ?_⟩
  rw [hst.handle]
  exact hhandle

end Stable

section Steps

variable {previous : Option AlignedBuffer} {future : Bool} {buf : AlignedBuffer} {g : BitVec w}
  {r m : Fin 3} {p : Nat} {s : TripleState w T W}

theorem Unread.ready (h : Unread previous future s) (hI : TripleInv s) : MiddleReady s := by
  refine hI.middle ?_ h.busy
  by_contra hpublishing
  have := hI.publishing (by simpa using hpublishing)
  have := h.unread
  omega

/-- Until the take is committed, nothing the reader does can disturb the writer's call. -/
theorem readerMoves {t : TripleState w T W} (hunread : s.published.length = s.taken.length + 1)
    (hw : t.writer = s.writer) (hidx : t.writerIdx = s.writerIdx)
    (hslot : t.buffers s.writerIdx = s.buffers s.writerIdx) (hbusy : t.publishing = s.publishing)
    (howns : t.writerOwns = s.writerOwns) (hheap : t.heap = s.heap) (hoffer : t.offer = s.offer)
    (hpub : t.published = s.published) (hconfirmed : t.confirmed = s.confirmed)
    (hout : t.writerOut = s.writerOut) : readerContract.guar s t := by
  refine readerGuar ⟨hw, hidx, hslot, hbusy, howns, fun _ _ => by rw [hheap], hoffer, hpub,
    hconfirmed, hout, ?_⟩
  intro hread
  omega

/-- A reader that has taken nothing yet has nothing to return. -/
theorem Unread.returned_none (h : Unread none future s) (hI : TripleInv s) :
    Returned (BitVec.ofNat w s.published.length) s.readerIdx s.middleIdx s := by
  obtain ⟨hwm, hrm, p, hp, hcontents⟩ := h.ready hI
  exact {
    unread := h.unread
    generation := rfl
    back := by simpa using h.slot
    distinct := hrm
    writer := ⟨hI.apart, hwm⟩
    delivered := h.delivered
    held := by rw [h.handle]
    middle := ⟨p, hp, hcontents h.unread⟩
    owns := h.owns }

theorem Unread.putReader (h : Unread (some buf) future s) (hI : TripleInv s) :
    TripleInv (s.putReader s.readerIdx buf.ptr) ∧
      Returned (BitVec.ofNat w s.published.length) s.readerIdx s.middleIdx
        (s.putReader s.readerIdx buf.ptr) := by
  obtain ⟨hwm, hrm, p, hp, hcontents⟩ := h.ready hI
  have hslot : s.buffers s.readerIdx = none := by simpa using h.slot
  have howns : s.readerOwns = [buf.ptr] := h.owns
  constructor
  · exact { hI with
      taking := fun _ => h.unread
      middle := fun _ hbusy => Bool.noConfusion hbusy
      owned := fun q => by
        have howned := hI.owned q
        have hslots := slotCount_update s.buffers s.readerIdx (some buf.ptr) q
        simp only [owners, howns, hslot, TripleState.putReader, reduceCtorEq, if_false,
          Option.some.injEq, List.erase_cons_head, List.count_cons, List.count_nil,
          beq_iff_eq] at howned hslots ⊢
        omega
      sound := ⟨hI.sound.1, by simp [TripleState.putReader, hslot, hI.sound.2]⟩ }
  · exact {
      unread := h.unread
      generation := rfl
      back := by simp [TripleState.putReader]
      distinct := hrm
      writer := ⟨hI.apart, hwm⟩
      delivered := h.delivered
      held := congrArg TripleHandle.held h.handle
      middle := ⟨p, by simpa [TripleState.putReader, Function.update_of_ne hrm.symm] using hp,
        hcontents h.unread⟩
      owns := by simp [TripleState.putReader, howns] }

theorem Returned.takeReader (h : Returned g r m s) (hsees : ReaderIndices m r s)
    (hbusy : s.taking = true) (hI : TripleInv s) :
    ∃ p, s.buffers m = some p ∧ TripleInv (s.takeReader m) ∧ Removed g r m p (s.takeReader m) := by
  obtain ⟨p, hp, hcontents⟩ := h.middle
  refine ⟨p, hp, ?_, ?_⟩
  · exact { hI with
      middle := fun _ hidle => absurd (hbusy.symm.trans hidle) Bool.noConfusion
      owned := fun q => by
        have howned := hI.owned q
        have hslots := slotCount_update s.buffers m none q
        simp only [owners, h.owns, hp, TripleState.takeReader, reduceCtorEq, if_false,
          Option.some.injEq, Option.toList_some, List.append_nil, List.count_cons, List.count_nil,
          beq_iff_eq] at howned hslots ⊢
        omega
      sound := ⟨by simp [TripleState.takeReader, hp, hI.sound.1], hI.sound.2⟩ }
  · exact {
      unread := h.unread
      generation := h.generation
      back := by simpa [TripleState.takeReader, Function.update_of_ne h.distinct] using h.back
      distinct := h.distinct
      writer := h.writer
      delivered := h.delivered
      held := h.held
      busy := hbusy
      idx := hsees
      slot := Function.update_self _ _ _
      contents := hcontents
      owns := by simp [TripleState.takeReader, hp, h.owns] }

/-- The store of `last_read_gen` gives the turn back to the writer. -/
theorem Removed.commitRead (h : Removed g r m p s) (hI : TripleInv s) :
    TripleInv (s.commitRead g ⟨p, s.lens m⟩) ∧ Took ⟨p, s.lens m⟩ (s.commitRead g ⟨p, s.lens m⟩) := by
  have hunread := h.unread
  have hlen : (s.commitRead g ⟨p, s.lens m⟩).taken.length = s.taken.length + 1 := by
    simp [TripleState.commitRead]
  constructor
  · exact {
      generation := hI.generation
      lastRead := by
        rw [hlen, ← hunread, ← h.generation]
        rfl
      le := by rw [hlen]; exact hunread.ge
      bound := by
        rw [hlen]
        change s.published.length ≤ _
        omega
      fifo := by
        rw [hlen]
        change s.taken ++ [(s.heap p, s.lens m)] = s.published.take (s.taken.length + 1)
        rw [List.take_add_one, h.contents, ← hI.fifo]
        rfl
      confirmed := hI.confirmed
      returned := hI.returned.trans (List.prefix_append _ _)
      publishing := fun hbusy => by
        have := hI.publishing hbusy
        omega
      taking := fun hbusy => Bool.noConfusion hbusy
      apart := hI.apart
      middle := fun _ _ => {
        writer := by
          change s.writerIdx ≠ s.middleIdx
          rw [h.idx.2]
          exact h.writer.1
        reader := by
          change s.readerIdx ≠ s.middleIdx
          rw [h.idx.1, h.idx.2]
          exact h.distinct.symm
        holds := by
          obtain ⟨q, hq⟩ := Option.isSome_iff_exists.mp h.back
          refine ⟨q, by rw [← hq, ← h.idx.2]; rfl, fun hstill => ?_⟩
          rw [hlen] at hstill
          change s.published.length = _ at hstill
          omega }
      owned := hI.owned
      fresh := hI.fresh
      sound := hI.sound }
  · exact {
      busy := rfl
      slot := by
        change (s.buffers s.readerIdx).isNone = true
        rw [h.idx.1, h.slot]
        rfl
      owns := h.owns
      delivered := by rw [TripleState.commitRead, h.delivered]
      held := h.held }

end Steps

section Calls

variable {previous : Option AlignedBuffer} {future : Bool} {g : BitVec w} {r m : Fin 3}

theorem readerIdle_guar (s : TripleState w T W) : readerContract.guar s s :=
  readerGuar (tripleOutline.refl .writer s)

/-- The loads of a take: no publish can overtake an unread buffer. -/
def TakeLoaded (previous : Option AlignedBuffer) (future : Bool) (g : BitVec w) (r m : Fin 3)
    (s : TripleState w T W) : Prop :=
  Unread previous future s ∧ g = BitVec.ofNat w s.published.length ∧ ReaderIndices r m s

def TakeReturned (g : BitVec w) (r m : Fin 3) (s : TripleState w T W) : Prop :=
  Returned g r m s ∧ ReaderIndices r m s ∧ True

def TakeMoving (g : BitVec w) (r m ri mi : Fin 3) (s : TripleState w T W) : Prop :=
  Returned g r m s ∧ ReaderIndices ri mi s ∧ s.taking = true

theorem TakeReturned.stable :
    readerContract.Stable (TakeReturned g r m : TripleState w T W → Prop) :=
  Returned.stable fun _ => True

theorem TakeMoving.stable {ri mi : Fin 3} :
    readerContract.Stable (TakeMoving g r m ri mi : TripleState w T W → Prop) :=
  Returned.stable fun taking => taking = true

theorem returnPrevious_triple : readerContract.Triple
    (TakeLoaded (T := T) (W := W) previous future g r m) (returnPrevious r previous)
    fun _ => TakeReturned g r m := by
  cases previous with
  | none =>
    refine .ret Unread.stable_sees ?_
    rintro s hI ⟨h, rfl, rfl, rfl⟩
    exact ⟨h.returned_none hI, ⟨rfl, rfl⟩, trivial⟩
  | some buf =>
    apply Contract.Triple.bind (R := fun _ => TakeMoving g r m r m)
    · refine .store Unread.stable_sees (fun _ => TakeMoving.stable) ?_
      rintro s hI ⟨h, rfl, rfl, rfl⟩
      obtain ⟨hinv, hreturned⟩ := h.putReader hI
      refine ⟨hinv, readerMoves h.unread rfl rfl ?_ rfl rfl rfl rfl rfl rfl rfl,
        hreturned, ⟨rfl, rfl⟩, rfl⟩
      exact Function.update_of_ne hI.apart _ _
    · intro _
      refine .store TakeMoving.stable (fun _ => TakeReturned.stable) ?_
      rintro s hI ⟨h, hidx, hbusy⟩
      obtain ⟨p, hp, hcontents⟩ := h.middle
      refine ⟨{ hI with middle := fun _ hidle => ?_ },
        readerMoves h.unread rfl rfl rfl rfl rfl rfl rfl rfl rfl rfl,
        { h with middle := ⟨p, hp, ?_⟩ }, hidx, trivial⟩
      · exact absurd (hbusy.symm.trans hidle) Bool.noConfusion
      · simpa [Function.update_of_ne h.distinct.symm] using hcontents

theorem storeReaderIdx_triple : readerContract.Triple (TakeReturned (T := T) (W := W) g r m)
    (store fun s => { s with readerIdx := m, taking := true })
    fun _ => TakeMoving g r m m m := by
  refine .store TakeReturned.stable (fun _ => TakeMoving.stable) ?_
  rintro s hI ⟨h, hidx, -⟩
  exact ⟨{ hI with
      taking := fun _ => h.unread
      apart := h.writer.2
      middle := fun _ hidle => Bool.noConfusion hidle },
    readerMoves h.unread rfl rfl rfl rfl rfl rfl rfl rfl rfl rfl, { h with }, ⟨rfl, hidx.2⟩, rfl⟩

theorem storeMiddleIdx_reader_triple : readerContract.Triple
    (TakeMoving (T := T) (W := W) g r m m m) (store fun s => { s with middleIdx := r })
    fun _ => TakeMoving g r m m r := by
  refine .store TakeMoving.stable (fun _ => TakeMoving.stable) ?_
  rintro s hI ⟨h, hidx, hbusy⟩
  refine ⟨{ hI with middle := fun _ hidle => ?_ },
    readerMoves h.unread rfl rfl rfl rfl rfl rfl rfl rfl rfl rfl, { h with }, ⟨hidx.1, rfl⟩, hbusy⟩
  exact absurd (hbusy.symm.trans hidle) Bool.noConfusion

def TakePost : Option AlignedBuffer → TripleState w T W → Prop
  | none, _ => False
  | some buf, s => Took buf s

theorem TakePost.stable (buf : Option AlignedBuffer) :
    readerContract.Stable (TakePost buf : TripleState w T W → Prop) := by
  cases buf with
  | none => exact fun _ _ _ _ h => h
  | some buf => exact Took.stable

theorem commitRead_triple {p len : Nat} : readerContract.Triple
    (fun s : TripleState w T W => Removed g r m p s ∧ s.lens m = len)
    (store (TripleState.commitRead g ⟨p, len⟩)) fun _ => Took ⟨p, len⟩ := by
  refine .store Removed.stable_len (fun _ => Took.stable) ?_
  rintro s hI ⟨h, rfl⟩
  obtain ⟨hinv, htook⟩ := h.commitRead hI
  exact ⟨hinv, readerMoves h.unread rfl rfl rfl rfl rfl rfl rfl rfl rfl rfl, htook⟩

theorem takeReturns_triple (buf : Option AlignedBuffer) : readerContract.Triple
    (TakePost (w := w) (T := T) (W := W) buf) (takeReturns buf) fun _ => ReaderRest := by
  cases buf with
  | none => exact fun _ _ h => h.elim
  | some buf =>
    refine .store Took.stable (fun _ => ReaderRest.stable) fun s hI h => ?_
    have hsame : SameTriple s { s with
        reader := { s.reader with hand := some buf, future := false }
        readerOut := some (.taken buf)
        delivered := s.delivered ++ [(s.heap buf.ptr, buf.len)] } := by
      constructor <;> first | rfl | exact id | exact fun _ => Or.inl | exact fun _ => h.delivered ▸ List.prefix_rfl
    exact ⟨hsame.inv hI, readerGuar (hsame.writerRely rfl rfl rfl rfl), some buf,
      ⟨h.busy, h.slot, h.owns⟩, h.delivered.symm, .inl ⟨rfl, h.held, fun h => Bool.noConfusion h⟩⟩

/-- Refused, `previous` goes back to the caller or into the handle. -/
theorem readerKeeps_triple {f : TripleState w T W → TripleState w T W}
    (hf : ∀ s, SameTriple s (f s)) (hd : ∀ s, (f s).delivered = s.delivered)
    (hw : ∀ s, (f s).writer = s.writer ∧ (f s).offer = s.offer ∧
      (f s).confirmed = s.confirmed ∧ (f s).writerOut = s.writerOut)
    (hput : ∀ s, s.reader = ⟨none, none, future⟩ →
      (f s).reader = ⟨previous, none, false⟩ ∨
        (f s).reader.hand = none ∧ (f s).reader.held = previous) :
    readerContract.Triple (Asking previous future) (store f) fun _ => ReaderRest := by
  refine .store Asking.stable (fun _ => ReaderRest.stable) fun s hI h => ?_
  have hs := hf s
  refine ⟨hs.inv hI, readerGuar (hs.writerRely (hw s).1 (hw s).2.1 (hw s).2.2.1 (hw s).2.2.2), previous, ?_, ?_, ?_⟩
  · exact ⟨by rw [hs.taking, h.busy], by rw [hs.readerIdx, hs.buffers, h.slot],
      by rw [hs.readerOwns, h.owns]⟩
  · rw [hd, hs.taken, h.delivered]
  · rcases hput s h.handle with hhand | hheld
    · rw [hhand]
      exact .inl ⟨rfl, rfl, fun h => Bool.noConfusion h⟩
    · exact .inr hheld

/-- A generation that differs from the reader's own is an unread buffer, and stays one. -/
theorem hasUnread_triple : readerContract.Triple
    (Asking (w := w) (T := T) (W := W) previous future) hasUnread
    fun unread s => Asking previous future s ∧ (unread = true → Unread previous future s) := by
  have hfirst : ∀ g : BitVec w, readerContract.Stable fun s : TripleState w T W =>
      (g ≠ BitVec.ofNat w s.taken.length → Unread previous future s) ∧ Asking previous future s := by
    intro g s t hI (hst : ReaderRely s t) h
    refine ⟨fun hne => ?_, Asking.stable s t hI hst h.2⟩
    rw [hst.taken] at hne
    exact Unread.stable s t hI hst (h.1 hne)
  have hpost : ∀ P : Prop, readerContract.Stable fun s : TripleState w T W =>
      Asking previous future s ∧ (P → Unread previous future s) := fun P s t hI hst h =>
    ⟨Asking.stable s t hI hst h.1, fun hP => Unread.stable s t hI hst (h.2 hP)⟩
  have hload : readerContract.Triple (Asking (w := w) (T := T) (W := W) previous future)
      loadGenerations fun g s => Asking previous future s ∧ (g.1 ≠ g.2 → Unread previous future s) := by
    apply Contract.Triple.bind
    · refine .load Asking.stable hfirst (fun s _ _ => readerIdle_guar s)
        fun s hI h => ⟨fun hne => ⟨h, ?_⟩, h⟩
      rw [hI.generation] at hne
      have hlen : s.published.length ≠ s.taken.length := fun heq => hne (by rw [heq])
      have := hI.le
      have := hI.bound
      omega
    intro g
    apply Contract.Triple.bind
    · exact .load (hfirst g) (fun l => hpost (g ≠ l)) (fun s _ _ => readerIdle_guar s)
        fun s hI h => ⟨h.2, fun hne => h.1 (by rwa [← hI.lastRead])⟩
    exact fun l => .ret (hpost (g ≠ l)) fun _ _ h => h
  apply hload.bind
  exact fun g => .ret (hpost (g.1 ≠ g.2)) fun _ _ h => ⟨h.1, fun hne => h.2 (by simpa using hne)⟩

theorem disarmReader_triple {P : TripleState w T W → Prop} (hP : readerContract.Stable P) :
    readerContract.Triple P (store fun s => { s with readerSlot := s.readerSlot.disarm })
      fun _ => P :=
  .store hP (fun _ => hP) fun s hI h => (slotsOnly_slots s _ _).keeps_reader hP hI h

variable [Waker W]

theorem wakeWriter_triple {P : TripleState w T W → Prop} (hP : readerContract.Stable P) :
    readerContract.Triple P wakeWriter fun _ => P :=
  Contract.Triple.zoom hP (fun s _ hI h => (slotsOnly_slots s _ _).keeps_reader hP hI h) _

theorem armReader_triple {P : TripleState w T W → Prop} (hP : readerContract.Stable P) (waker : W) :
    readerContract.Triple P (armReader waker) fun _ => P :=
  Contract.Triple.zoom hP (fun s _ hI h => (slotsOnly_slots s _ _).keeps_reader hP hI h) _

theorem readerTakesMiddle_triple : readerContract.Triple (TakeMoving (T := T) (W := W) g r m m r)
    (readerTakesMiddle g m) TakePost := by
  have hpost : ∀ ptr : Option Nat, readerContract.Stable fun s : TripleState w T W =>
      ∃ p, ptr = some p ∧ Removed g r m p s :=
    fun ptr s t hI hst ⟨p, hp, h⟩ => ⟨p, hp, Removed.stable s t hI hst h⟩
  apply Contract.Triple.bind
  · refine .exchange TakeMoving.stable hpost ?_
    rintro s hI ⟨h, hidx, hbusy⟩
    obtain ⟨p, hp, hinv, hremoved⟩ := h.takeReader hidx hbusy hI
    refine ⟨hinv, readerMoves h.unread rfl rfl ?_ rfl rfl rfl rfl rfl rfl rfl, p, hp, hremoved⟩
    exact Function.update_of_ne h.writer.2 _ _
  rintro (_ | p)
  · rintro s - ⟨p, hp, -⟩
    exact absurd hp (by simp)
  apply Contract.Triple.bind (R := fun len s => Removed g r m p s ∧ s.lens m = len)
  · refine .load (hpost (some p)) (fun _ => Removed.stable_len) (fun s _ _ => readerIdle_guar s) ?_
    rintro s - ⟨q, hq, h⟩
    cases hq
    exact ⟨h, rfl⟩
  intro len
  apply commitRead_triple.bind
  intro _
  apply (wakeWriter_triple Took.stable).bind
  exact fun _ => .ret Took.stable fun _ _ h => h

theorem readerTakeNow_triple : readerContract.Triple
    (Unread (w := w) (T := T) (W := W) previous future) (readerTakeNow previous) TakePost := by
  have hgen : ∀ g : BitVec w, readerContract.Stable fun s : TripleState w T W =>
      Unread previous future s ∧ g = BitVec.ofNat w s.published.length := by
    intro g s t hI (hst : ReaderRely s t) h
    obtain ⟨hpub, -⟩ := hst.quiet h.1.unread
    exact ⟨Unread.stable s t hI hst h.1, by rw [hpub, h.2]⟩
  have hidx : ∀ (g : BitVec w) (r : Fin 3), readerContract.Stable fun s : TripleState w T W =>
      (Unread previous future s ∧ g = BitVec.ofNat w s.published.length) ∧ s.readerIdx = r :=
    fun g r s t hI hst h => ⟨hgen g s t hI hst h.1, hst.idx.trans h.2⟩
  apply Contract.Triple.bind
  · exact .load Unread.stable hgen (fun s _ _ => readerIdle_guar s) fun s hI h => ⟨h, hI.generation⟩
  intro g
  apply Contract.Triple.bind
  · exact .load (hgen g) (hidx g) (fun s _ _ => readerIdle_guar s) fun _ _ h => ⟨h, rfl⟩
  intro r
  apply Contract.Triple.bind (R := TakeLoaded previous future g r)
  · exact .load (hidx g r) (fun _ => Unread.stable_sees) (fun s _ _ => readerIdle_guar s)
      fun _ _ h => ⟨h.1.1, h.1.2, h.2, rfl⟩
  intro m
  apply returnPrevious_triple.bind
  intro _
  apply storeReaderIdx_triple.bind
  intro _
  exact storeMiddleIdx_reader_triple.bind fun _ => readerTakesMiddle_triple

def TryTakePost (previous : Option AlignedBuffer) (future : Bool) :
    Option (Option AlignedBuffer) → TripleState w T W → Prop
  | none, s => Asking previous future s
  | some buf, s => TakePost buf s

theorem tryTakeNow_triple : readerContract.Triple
    (Asking (w := w) (T := T) (W := W) previous future) (tryTakeNow previous)
    (TryTakePost previous future) := by
  apply hasUnread_triple.bind
  rintro (_ | _)
  · exact .ret (fun s t hI hst h => ⟨Asking.stable s t hI hst h.1, fun h => Bool.noConfusion h⟩)
      fun _ _ h => h.1
  · have hrun : readerContract.Triple (Unread (w := w) (T := T) (W := W) previous future)
        (readerTakeNow previous >>= fun buf => pure (some buf)) (TryTakePost previous future) := by
      apply readerTakeNow_triple.bind
      exact fun buf => .ret (TakePost.stable buf) fun _ _ h => h
    exact hrun.conseq (fun _ _ h => h.2 rfl) fun _ _ _ h => h

theorem tryNext_triple : readerContract.Triple
    (Asking (w := w) (T := T) (W := W) previous false) (tryNext previous) fun _ => ReaderRest := by
  apply tryTakeNow_triple.bind
  rintro (_ | buf)
  · refine readerKeeps_triple (fun _ => ?_) (fun _ => rfl) (fun _ => ⟨rfl, rfl, rfl, rfl⟩) fun s hs => .inl ?_
    · constructor <;> first | rfl | exact id | exact fun _ => Or.inl
    · simp [hs]
  · exact takeReturns_triple buf

theorem pollNext_triple (future : Bool) (waker : W) : readerContract.Triple
    (Asking (w := w) (T := T) (W := W) previous future) (pollNext waker previous)
    fun _ => ReaderRest := by
  apply tryTakeNow_triple.bind
  rintro (_ | buf)
  · apply (armReader_triple Asking.stable waker).bind
    intro _
    apply tryTakeNow_triple.bind
    rintro (_ | _ | buf)
    · refine readerKeeps_triple (fun _ => ?_) (fun _ => rfl) (fun _ => ⟨rfl, rfl, rfl, rfl⟩) fun s hs => .inr ?_
      · constructor <;> first | rfl | exact id | exact fun _ => Or.inl
      · simp [hs]
    · exact takeReturns_triple none
    · apply (disarmReader_triple (TakePost.stable (some buf))).bind
      exact fun _ => takeReturns_triple (some buf)
  · exact takeReturns_triple buf

end Calls

end Cynosure.SiteD
