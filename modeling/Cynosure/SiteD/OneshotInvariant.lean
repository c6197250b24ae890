import Cynosure.SiteD.Oneshot

/-! # What the two sides of the oneshot channel keep

The value is in one place at a time. The sender's plain store may lose the receiver's
bit, and the receiver's plain store could lose the sender's, but neither bit is read
again: once the value is set the sender writes no more, and the bit of a receiver that
is gone only spares the sender a send.
-/

namespace Cynosure.SiteD.Oneshot

variable {T W : Type}

namespace OneshotState

def isSet (s : OneshotState T W) : Bool := Word.has s.state VALUE_SET

def isClosed (s : OneshotState T W) : Bool := Word.has s.state SENDER_DROPPED

def isTaken (s : OneshotState T W) : Bool := Word.has s.state TAKEN

/-- Where the value can be: the frame of a call, the cell, or where a call or the last reference
left it. -/
def places (s : OneshotState T W) : List T :=
  s.inSender.toList ++ (s.value.toList ++ (s.inReceiver.toList ++
    (s.handedBack ++ (s.received ++ s.dropped))))

end OneshotState

structure OneshotInv [Waker W] (s : OneshotState T W) : Prop where
  places : s.places = s.offered.toList
  slot : SlotInv s.recv
  taken : s.isTaken = true → s.isSet = true
  full : s.isSet = true → s.isTaken = false → s.value.isSome = true ∨ s.dropped ≠ []
  written : s.value.isSome = true → s.isSet = true ∨ s.senderHolds = true
  unread : s.value.isSome = true → s.isTaken = false ∨ s.receiverHolds = true
  refs : s.refs = s.senderHolds.toNat + s.receiverHolds.toNat
  last : s.last.isNone = (s.senderHolds || s.receiverHolds)
  kept : s.last = none → s.dropped = []
  parked : s.pending = true → s.recv.phase = .armed ∧
    (s.recv.published = false → s.isSet = false ∧ s.isClosed = false)
  sound : s.faulted = false

/-- What the sender relies on: the receiver leaves its two bits, and the cell until it is set. -/
structure SenderRely (s t : OneshotState T W) : Prop where
  handle : t.sender = s.sender
  frame : t.inSender = s.inSender
  offered : t.offered = s.offered
  holds : t.senderHolds = s.senderHolds
  signals : t.recv.signals = s.recv.signals
  set : t.isSet = s.isSet
  closed : t.isClosed = s.isClosed
  value : s.isSet = false → t.value = s.value
  last : t.last = some .sender ↔ s.last = some .sender
  free : s.last = some .sender → t.state = s.state ∧ t.value = s.value ∧ t.dropped = s.dropped

/-- What the receiver relies on: a set value is the sender's last word, and the bits it waits for
rise only with a signal. -/
structure ReceiverRely (s t : OneshotState T W) : Prop where
  handle : t.receiver = s.receiver
  pending : t.pending = s.pending
  frame : t.inReceiver = s.inReceiver
  holds : t.receiverHolds = s.receiverHolds
  slot : s.recv.WaiterSees t.recv
  fixed : s.isSet = true → t.state = s.state
  untaken : s.isTaken = false → t.isTaken = false
  quiet : t.recv.published = false → t.isSet = s.isSet ∧ t.isClosed = s.isClosed
  value : s.isSet = true → s.receiverHolds = true → t.value = s.value
  last : t.last = some .receiver ↔ s.last = some .receiver
  free : s.last = some .receiver → t.state = s.state ∧ t.value = s.value ∧ t.dropped = s.dropped

theorem SenderRely.trans {r s t : OneshotState T W} (h : SenderRely r s)
    (h' : SenderRely s t) : SenderRely r t where
  handle := h'.handle.trans h.handle
  frame := h'.frame.trans h.frame
  offered := h'.offered.trans h.offered
  holds := h'.holds.trans h.holds
  signals := h'.signals.trans h.signals
  set := h'.set.trans h.set
  closed := h'.closed.trans h.closed
  value := fun hset => (h'.value (h.set.trans hset)).trans (h.value hset)
  last := h'.last.trans h.last
  free := fun hlast => by
    obtain ⟨hstate, hvalue, hdropped⟩ := h.free hlast
    obtain ⟨hstate', hvalue', hdropped'⟩ := h'.free (h.last.mpr hlast)
    exact ⟨hstate'.trans hstate, hvalue'.trans hvalue, hdropped'.trans hdropped⟩

theorem ReceiverRely.trans {r s t : OneshotState T W} (h : ReceiverRely r s)
    (h' : ReceiverRely s t) : ReceiverRely r t where
  handle := h'.handle.trans h.handle
  pending := h'.pending.trans h.pending
  frame := h'.frame.trans h.frame
  holds := h'.holds.trans h.holds
  slot := h.slot.trans h'.slot
  fixed := fun hset => by
    have hset' : s.isSet = true := by rw [OneshotState.isSet, h.fixed hset]; exact hset
    exact (h'.fixed hset').trans (h.fixed hset)
  untaken := fun htaken => h'.untaken (h.untaken htaken)
  quiet := fun hp => by
    obtain ⟨hset, hclosed⟩ := h.quiet (h'.slot.published hp)
    obtain ⟨hset', hclosed'⟩ := h'.quiet hp
    exact ⟨hset'.trans hset, hclosed'.trans hclosed⟩
  value := fun hset hholds => by
    have hset' : s.isSet = true := by rw [OneshotState.isSet, h.fixed hset]; exact hset
    exact (h'.value hset' (h.holds.trans hholds)).trans (h.value hset hholds)
  last := h'.last.trans h.last
  free := fun hlast => by
    obtain ⟨hstate, hvalue, hdropped⟩ := h.free hlast
    obtain ⟨hstate', hvalue', hdropped'⟩ := h'.free (h.last.mpr hlast)
    exact ⟨hstate'.trans hstate, hvalue'.trans hvalue, hdropped'.trans hdropped⟩

/-- Where the sender is between its calls: it has not begun, or it is done. -/
structure SenderFresh (s : OneshotState T W) : Prop where
  handle : s.sender = true
  holds : s.senderHolds = true
  set : s.isSet = false
  closed : s.isClosed = false
  offered : s.offered = none

/-- A side that is done has no reference left, and the last one has emptied the cell. -/
structure SenderGone (frame : Option T) (s : OneshotState T W) : Prop where
  handle : s.sender = false
  holds : s.senderHolds = false
  ended : s.isSet = true ∨ s.isClosed = true
  frame : s.inSender = frame
  signals : s.recv.signals () = none
  freed : s.last = some .sender → s.value = none

structure ReceiverGone (s : OneshotState T W) : Prop where
  handle : s.receiver = false
  holds : s.receiverHolds = false
  frame : s.inReceiver = none
  freed : s.last = some .receiver → s.value = none

/-- The receiver has the value `frame` in hand, and a value that was taken is out of the cell. -/
structure Receiving (live : Bool) (frame : Option T) (s : OneshotState T W) : Prop where
  handle : s.receiver = live
  holds : s.receiverHolds = true
  frame : s.inReceiver = frame
  moved : s.isTaken = true → s.isSet = true ∧ s.value = none

def SenderAtRest (s : OneshotState T W) : Prop :=
  SenderFresh s ∧ s.recv.signals () = none ∨ SenderGone none s

def ReceiverAtRest (s : OneshotState T W) : Prop :=
  Receiving true none s ∧ (∀ pc, s.recv.phase ≠ .arming pc) ∨ ReceiverGone s

def oneshotOutline [Waker W] : Outline (OneshotState T W) OneshotSide PUnit.{1} where
  inv := OneshotInv
  rely
    | .sender => SenderRely
    | .receiver => ReceiverRely
  refl
    | .sender, _ => ⟨rfl, rfl, rfl, rfl, rfl, rfl, rfl, fun _ => rfl, Iff.rfl,
        fun _ => ⟨rfl, rfl, rfl⟩⟩
    | .receiver, _ => ⟨rfl, rfl, rfl, rfl, .refl _, fun _ => rfl, id, fun _ => ⟨rfl, rfl⟩,
        fun _ _ => rfl, Iff.rfl, fun _ => ⟨rfl, rfl, rfl⟩⟩
  trans := by
    intro i r s t h h'
    cases i with
    | sender => exact SenderRely.trans h h'
    | receiver => exact ReceiverRely.trans h h'
  rest
    | .sender => SenderAtRest
    | .receiver => ReceiverAtRest
  post
    | .sender, _ => SenderAtRest
    | .receiver, _ => ReceiverAtRest

section Contracts

variable [Waker W] {s t : OneshotState T W}

abbrev oneshotContract (side : OneshotSide) : Contract (OneshotState T W) :=
  oneshotOutline.contract side

theorem senderGuar (h : ReceiverRely s t) :
    (oneshotContract .sender).guar s t := by
  intro j hj
  cases j with
  | sender => exact absurd rfl hj
  | receiver => exact h

theorem receiverGuar (h : SenderRely s t) :
    (oneshotContract .receiver).guar s t := by
  intro j hj
  cases j with
  | sender => exact h
  | receiver => exact absurd rfl hj

end Contracts

namespace OneshotInv

variable [Waker W] {s : OneshotState T W}

/-- Nobody has freed the state while a handle is there. -/
theorem last_eq_none (h : OneshotInv s) (hholds : s.senderHolds = true ∨ s.receiverHolds = true) :
    s.last = none := by
  rw [← Option.isNone_iff_eq_none, h.last]
  rcases hholds with hholds | hholds <;> simp [hholds]

theorem not_holds_of_last (h : OneshotInv s) {side : OneshotSide} (hlast : s.last = some side) :
    s.senderHolds = false ∧ s.receiverHolds = false := by
  have hnone := h.last
  simp only [hlast, Option.isNone_some] at hnone
  simpa using hnone.symm

theorem not_taken (h : OneshotInv s) (hset : s.isSet = false) : s.isTaken = false := by
  rw [← Bool.not_eq_true]
  intro htaken
  have := h.taken htaken
  simp [hset] at this

/-- A value in one place is in no other. -/
theorem of_inSender (h : OneshotInv s) {v : T} (hv : s.inSender = some v) :
    s.offered = some v ∧ s.value = none ∧ s.inReceiver = none ∧ s.handedBack = [] ∧
      s.received = [] ∧ s.dropped = [] := by
  have hplaces := h.places
  cases ho : s.offered <;> simp_all [OneshotState.places]

theorem of_value (h : OneshotInv s) {v : T} (hv : s.value = some v) :
    s.offered = some v ∧ s.inSender = none ∧ s.inReceiver = none ∧ s.handedBack = [] ∧
      s.received = [] ∧ s.dropped = [] := by
  have hplaces := h.places
  cases ho : s.offered <;> cases hs : s.inSender <;> simp_all [OneshotState.places]

theorem of_inReceiver (h : OneshotInv s) {v : T} (hv : s.inReceiver = some v) :
    s.offered = some v ∧ s.inSender = none ∧ s.value = none ∧ s.handedBack = [] ∧
      s.received = [] ∧ s.dropped = [] := by
  have hplaces := h.places
  cases ho : s.offered <;> cases hs : s.inSender <;> cases hc : s.value <;>
    simp_all [OneshotState.places]

theorem of_unoffered (h : OneshotInv s) (ho : s.offered = none) : s.value = none := by
  have hplaces := h.places
  cases hc : s.value <;> simp_all [OneshotState.places]

theorem init : OneshotInv (OneshotState.init : OneshotState T W) where
  places := rfl
  slot := .new
  taken := fun h => by simp [OneshotState.isTaken, OneshotState.init] at h
  full := fun h => by simp [OneshotState.isSet, OneshotState.init] at h
  written := fun h => by cases h
  unread := fun h => by cases h
  refs := rfl
  last := rfl
  kept := fun _ => rfl
  parked := fun h => by cases h
  sound := rfl

theorem releaseSender (h : OneshotInv s) (hholds : s.senderHolds = true)
    (hcell : s.isSet = true ∨ s.value = none) : OneshotInv (s.release .sender) :=
  { h with
    written := fun hsome => .inl (hcell.resolve_right fun hnone => by
      change s.value.isSome = true at hsome
      simp [hnone] at hsome)
    unread := fun hsome => (h.unread hsome).imp id fun hr => by simpa [OneshotState.release] using hr
    refs := by
      have hrefs := h.refs
      simp only [hholds, Bool.toNat_true] at hrefs
      simp [OneshotState.release, hrefs]
    last := by
      have hrefs := h.refs
      cases hr : s.receiverHolds <;>
        simp_all [OneshotState.release, h.last_eq_none (.inl hholds)]
    kept := fun _ => h.kept (h.last_eq_none (.inl hholds)) }

theorem releaseReceiver (h : OneshotInv s) (hholds : s.receiverHolds = true)
    (hcell : s.isTaken = true → s.value = none) : OneshotInv (s.release .receiver) :=
  { h with
    written := fun hsome => (h.written hsome).imp id fun hs => by simpa [OneshotState.release] using hs
    unread := fun hsome => by
      change s.value.isSome = true at hsome
      refine .inl ?_
      change s.isTaken = false
      rw [← Bool.not_eq_true]
      intro htaken
      simp [hcell htaken] at hsome
    refs := by
      have hrefs := h.refs
      simp only [hholds, Bool.toNat_true] at hrefs
      simp [OneshotState.release, hrefs]
    last := by
      have hrefs := h.refs
      cases hs : s.senderHolds <;>
        simp_all [OneshotState.release, h.last_eq_none (.inr hholds)]
    kept := fun _ => h.kept (h.last_eq_none (.inr hholds)) }

/-- The last reference finds a value that was set and not taken, and only such a one. -/
theorem value_of_last (h : OneshotInv s) {side : OneshotSide} (hlast : s.last = some side)
    (hdropped : s.dropped = []) : s.value.isSome = (s.isSet && !s.isTaken) := by
  obtain ⟨hs, hr⟩ := h.not_holds_of_last hlast
  have hfull := h.full
  have hwritten := h.written
  have hunread := h.unread
  cases hv : s.value <;> cases hset : s.isSet <;> cases htaken : s.isTaken <;> simp_all

theorem dropCell (h : OneshotInv s) {side : OneshotSide} (hlast : s.last = some side)
    (hsome : s.value.isSome = true) : OneshotInv s.dropCell := by
  obtain ⟨v, hv⟩ := Option.isSome_iff_exists.mp hsome
  obtain ⟨ho, hs, hr, hb, hrec, hdropped⟩ := h.of_value hv
  exact { h with
    places := by simp [OneshotState.places, OneshotState.dropCell, hv, ho, hs, hr, hb, hrec, hdropped]
    full := fun _ _ => .inr (by simp [OneshotState.dropCell, hv])
    written := fun hnone => by cases hnone
    unread := fun hnone => by cases hnone
    kept := fun hnone => by
      change s.last = none at hnone
      simp [hlast] at hnone
    sound := by simp [OneshotState.dropCell, hv, h.sound] }

/-- The slot may change as long as a parked receiver keeps what it knows. -/
theorem setRecv (h : OneshotInv s) {x : SlotUse W Unit} (hslot : SlotInv x)
    (hparked : s.pending = true → x.phase = s.recv.phase ∧
      (x.published = false → s.recv.published = false)) : OneshotInv { s with recv := x } :=
  { h with
    slot := hslot
    parked := fun hp => by
      obtain ⟨hphase, hquiet⟩ := h.parked hp
      obtain ⟨hphase', hpub⟩ := hparked hp
      exact ⟨hphase'.trans hphase, fun hx => hquiet (hpub hx)⟩ }

end OneshotInv

section Freeing

variable [Waker W] {side : OneshotSide} {P Last Gone : OneshotState T W → Prop}

theorem oneshotIdle_guar (side : OneshotSide) (s : OneshotState T W) :
    (oneshotContract side).guar s s :=
  fun j _ => oneshotOutline.refl j s

/-- `Inner::drop` on either side: the cell is empty after it. -/
theorem dropInner_triple (hlast : ∀ s, Last s → s.last = some side ∧ s.dropped = [])
    (hstable : ∀ st, (oneshotContract side).Stable fun s => Last s ∧ s.state = st)
    (hgone : (oneshotContract side).Stable Gone)
    (hdrop : ∀ s, OneshotInv s → Last s → (oneshotContract side).guar s s.dropCell ∧ Gone s.dropCell)
    (hempty : ∀ s, OneshotInv s → Last s → s.value = none → Gone s) :
    (oneshotContract side).Triple Last dropInner fun _ => Gone := by
  have hself : (oneshotContract side).Stable Last :=
    fun s t hI hst h => (hstable s.state s t hI hst ⟨h, rfl⟩).1
  apply Contract.Triple.bind
  · exact .load hself hstable (fun s _ _ => oneshotIdle_guar side s) fun _ _ h => ⟨h, rfl⟩
  intro st
  split
  · rename_i hst
    refine .store (hstable st) (fun _ => hgone) ?_
    rintro s hI ⟨h, rfl⟩
    obtain ⟨hl, hdropped⟩ := hlast s h
    have hsome : s.value.isSome = true := by
      rw [OneshotInv.value_of_last hI hl hdropped]
      exact hst
    exact ⟨OneshotInv.dropCell hI hl hsome, hdrop s hI h⟩
  · rename_i hst
    refine .ret (hstable st) ?_
    rintro s hI ⟨h, rfl⟩
    obtain ⟨hl, hdropped⟩ := hlast s h
    refine hempty s hI h ?_
    rw [Bool.not_eq_true] at hst
    rw [← Option.not_isSome_iff_eq_none, OneshotInv.value_of_last hI hl hdropped]
    exact (Bool.not_eq_true _).mpr hst

theorem releaseInner_triple (hP : (oneshotContract side).Stable P)
    (hlast : (oneshotContract side).Stable Last) (hgone : (oneshotContract side).Stable Gone)
    (hrelease : ∀ s, OneshotInv s → P s → OneshotInv (s.release side) ∧
      (oneshotContract side).guar s (s.release side) ∧
      (s.refs = 1 → Last (s.release side)) ∧ (s.refs ≠ 1 → Gone (s.release side)))
    (hdrop : (oneshotContract side).Triple Last dropInner fun _ => Gone) :
    (oneshotContract side).Triple P (releaseInner side) fun _ => Gone := by
  apply Contract.Triple.bind (R := fun refs s => (refs = 1 → Last s) ∧ (refs ≠ 1 → Gone s))
  · refine .exchange hP ?_ hrelease
    exact fun refs s t hI hst h =>
      ⟨fun hone => hlast s t hI hst (h.1 hone), fun hne => hgone s t hI hst (h.2 hne)⟩
  · intro refs
    split
    · rename_i hone
      exact hdrop.conseq (fun _ _ h => h.1 hone) fun _ _ _ h => h
    · rename_i hne
      exact .ret (fun s t hI hst h => ⟨fun hone => absurd hone hne,
        fun _ => hgone s t hI hst (h.2 hne)⟩) fun _ _ h => h.2 hne

end Freeing

end Cynosure.SiteD.Oneshot
