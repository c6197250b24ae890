import Cynosure.SiteD.MpscLightWaiters

/-! # What the parties of the light MPSC channel keep

Items enter the queue under the lock and leave it in one steal, so what was received, what
is staged and what is queued is what was accepted. A parked sender is owed a wake
whenever the queue is empty: somebody is selected, or has taken its wake back and is
on the way to the queue. The receiver parks on a `WaiterSlot`, and whatever makes it
worth its while to look again comes with a call of `signal`.
-/

namespace Cynosure.SiteD.MpscLight

variable {T W : Type}

/-- What a finished call of a sender says about the items it was given. -/
def OutOk (s : MpscState T W) : SendOut T → Prop
  | .sent x => x ∈ s.accepted
  | .full x => x ∈ s.withdrawn
  | .closed x => x ∈ s.withdrawn
  | .sendError x => x ∈ s.withdrawn
  | .many items k left => left = items.drop k ∧ items.take k <:+: s.accepted ∧
      ∀ x ∈ left, x ∈ s.withdrawn
  | .pending => True
  | .done => True

structure MpscInv [Waker W] (cap : Nat) (s : MpscState T W) : Prop where
  stream : s.received ++ s.discarded ++ s.staging ++ s.queue = s.accepted
  queueLe : s.queue.length ≤ cap
  stagingLe : s.staging.length ≤ cap
  kept : s.receiver.alive = true → s.discarded = []
  returned : s.returned <+: s.received
  offered : ∀ x, x ∈ s.accepted ∨ x ∈ s.withdrawn → x.seq < s.seqs x.owner
  apart : ∀ x ∈ s.withdrawn, x ∉ s.accepted
  once : s.accepted.Nodup
  outs : ∀ n out, s.sendOut n = some out → OutOk s out
  hint : s.nonempty = if s.queue = [] then 0 else 1
  mirror : s.waitersLen = s.waiters.q.length
  waiters : s.waiters.WellFormed
  owed : s.closed = false → s.waiters.q ≠ [] →
    s.queue ≠ [] ∨ s.waiters.selected.Nonempty ∨ ∃ n, s.credit n = true
  alive : s.borrowers.Nonempty → 0 < s.senders
  slot : SlotInv s.recv

/-- What sender `n` relies on. -/
structure SenderRely (n : Nat) (s t : MpscState T W) : Prop where
  future : t.futures n = s.futures n
  seq : t.seqs n = s.seqs n
  accepted : s.accepted <+: t.accepted
  own : ∀ x, x.owner = n → x ∈ t.accepted → x ∈ s.accepted
  withdrawn : ∀ x, x.owner = n → x ∈ t.withdrawn → x ∈ s.withdrawn
  signal : t.recv.signals n = s.recv.signals n
  credit : t.credit n = s.credit n
  closed : s.closed = true → t.closed = true
  borrow : n ∈ t.borrowers ↔ n ∈ s.borrowers
  nextId : s.waiters.nextId ≤ t.waiters.nextId
  parkedBy : ∀ id < s.waiters.nextId, t.parkedBy id = s.parkedBy id
  parks : ∀ id, s.waiters.nextId ≤ id → id < t.waiters.nextId → t.parkedBy id ≠ n
  gone : ∀ id < s.waiters.nextId, s.parkedBy id = n → t.waiters.Waiting id → s.waiters.Waiting id
  stays : ∀ id < s.waiters.nextId, s.parkedBy id = n → t.closed = false →
    s.waiters.Waiting id → t.waiters.Waiting id

/-- What the receiver relies on. While nothing was published, the queue stays empty and a sender
alive. -/
structure ReceiverRely (s t : MpscState T W) : Prop where
  receiver : t.receiver = s.receiver
  staging : t.staging = s.staging
  received : t.received = s.received
  returned : t.returned = s.returned
  discarded : t.discarded = s.discarded
  closed : t.closed = s.closed
  phase : t.recv.phase = s.recv.phase
  current : t.recv.current = s.recv.current
  quiet : t.recv.published = false → s.recv.published = false ∧
    (s.queue = [] → t.queue = []) ∧ (0 < s.senders → 0 < t.senders)
  shut : s.closed = true → ∀ id, t.waiters.Waiting id → s.waiters.Waiting id

theorem SenderRely.refl (n : Nat) (s : MpscState T W) : SenderRely n s s where
  future := rfl
  seq := rfl
  accepted := List.prefix_rfl
  own := fun _ _ h => h
  withdrawn := fun _ _ h => h
  signal := rfl
  credit := rfl
  closed := id
  borrow := Iff.rfl
  nextId := le_rfl
  parkedBy := fun _ _ => rfl
  parks := fun _ hle hlt => by omega
  gone := fun _ _ _ h => h
  stays := fun _ _ _ _ h => h

theorem SenderRely.trans {n : Nat} {r s t : MpscState T W} (hrs : SenderRely n r s)
    (hst : SenderRely n s t) : SenderRely n r t where
  future := hst.future.trans hrs.future
  seq := hst.seq.trans hrs.seq
  accepted := hrs.accepted.trans hst.accepted
  own := fun x hx h => hrs.own x hx (hst.own x hx h)
  withdrawn := fun x hx h => hrs.withdrawn x hx (hst.withdrawn x hx h)
  signal := hst.signal.trans hrs.signal
  credit := hst.credit.trans hrs.credit
  closed := fun h => hst.closed (hrs.closed h)
  borrow := hst.borrow.trans hrs.borrow
  nextId := hrs.nextId.trans hst.nextId
  parkedBy := fun id hid =>
    (hst.parkedBy id (hid.trans_le hrs.nextId)).trans (hrs.parkedBy id hid)
  parks := fun id hle hlt => by
    by_cases hid : id < s.waiters.nextId
    · rw [hst.parkedBy id hid]
      exact hrs.parks id hle hid
    · exact hst.parks id (by omega) hlt
  gone := fun id hid hn h => by
    have hn' : s.parkedBy id = n := (hrs.parkedBy id hid).trans hn
    exact hrs.gone id hid hn (hst.gone id (hid.trans_le hrs.nextId) hn' h)
  stays := fun id hid hn hopen h => by
    have hn' : s.parkedBy id = n := (hrs.parkedBy id hid).trans hn
    have hopen' : s.closed = false := by
      by_contra hc
      have := hst.closed (by simpa using hc)
      simp [hopen] at this
    exact hst.stays id (hid.trans_le hrs.nextId) hn' hopen (hrs.stays id hid hn hopen' h)

theorem ReceiverRely.refl (s : MpscState T W) : ReceiverRely s s :=
  ⟨rfl, rfl, rfl, rfl, rfl, rfl, rfl, rfl, fun h => ⟨h, id, id⟩, fun _ _ h => h⟩

theorem ReceiverRely.trans {r s t : MpscState T W} (hrs : ReceiverRely r s)
    (hst : ReceiverRely s t) : ReceiverRely r t where
  receiver := hst.receiver.trans hrs.receiver
  staging := hst.staging.trans hrs.staging
  received := hst.received.trans hrs.received
  returned := hst.returned.trans hrs.returned
  discarded := hst.discarded.trans hrs.discarded
  closed := hst.closed.trans hrs.closed
  phase := hst.phase.trans hrs.phase
  current := hst.current.trans hrs.current
  quiet := fun h => by
    obtain ⟨hp, hq, hn⟩ := hst.quiet h
    obtain ⟨hp', hq', hn'⟩ := hrs.quiet hp
    exact ⟨hp', fun h => hq (hq' h), fun h => hn (hn' h)⟩
  shut := fun h id hid => hrs.shut h id (hst.shut (by rw [hrs.closed, h]) id hid)

/-- The items are the party's own and neither sent nor given up. -/
structure Owns (n : Nat) (items : List (Item T)) (s : MpscState T W) : Prop where
  nodup : items.Nodup
  owner : ∀ x ∈ items, x.owner = n
  offered : ∀ x ∈ items, x.seq < s.seqs n
  notAccepted : ∀ x ∈ items, x ∉ s.accepted
  notWithdrawn : ∀ x ∈ items, x ∉ s.withdrawn

/-- `parkedId` is the one id under which the party may be waiting. -/
structure ParkedAs (n : Nat) (parkedId : Option Nat) (s : MpscState T W) : Prop where
  only : ∀ id, s.waiters.Waiting id → s.parkedBy id = n → parkedId = some id
  own : ∀ id, parkedId = some id → id < s.waiters.nextId ∧ s.parkedBy id = n
  waits : ∀ id, parkedId = some id → s.closed = false → s.waiters.Waiting id

structure SenderRest (n : Nat) (s : MpscState T W) : Prop where
  signal : s.recv.signals n = none
  credit : s.credit n = false
  owns : ∀ f, s.futures n = some f → n ∈ s.borrowers ∧ Owns n f.val.toList s
  spent : ∀ f, s.futures n = some f → f.val = none → f.parkedId = none
  parked : ParkedAs n ((s.futures n).bind SendFuture.parkedId) s

/-- The receiver's last look found nothing, and anything new since then was signalled. -/
structure Parked (s : MpscState T W) : Prop where
  armed : s.recv.phase = .armed
  staging : s.staging = []
  nothing : s.recv.published = false → s.queue = [] ∧ 0 < s.senders

structure ReceiverRest (s : MpscState T W) : Prop where
  returned : s.returned = s.received
  between : ∀ pc, s.recv.phase ≠ .arming pc
  opened : s.receiver.alive = true → s.closed = false
  pending : s.receiver.pending = true → s.receiver.future.isSome = true → Parked s
  shut : s.receiver.alive = false → s.closed = true ∧ ∀ id, ¬ s.waiters.Waiting id

def mpscOutline [Waker W] (cap : Nat) : Outline (MpscState T W) MpscSide PUnit.{1} where
  inv := MpscInv cap
  rely
    | .sender n => SenderRely n
    | .receiver => ReceiverRely
  refl
    | .sender n, s => SenderRely.refl n s
    | .receiver, s => ReceiverRely.refl s
  trans := by
    intro i r s t hrs hst
    cases i with
    | sender n => exact SenderRely.trans hrs hst
    | receiver => exact ReceiverRely.trans hrs hst
  rest
    | .sender n => SenderRest n
    | .receiver => ReceiverRest
  post
    | .sender n, _ => SenderRest n
    | .receiver, _ => ReceiverRest

section Contracts

variable [Waker W] {cap : Nat}

abbrev senderContract (cap n : Nat) : Contract (MpscState T W) :=
  (mpscOutline cap).contract (.sender n)

abbrev receiverContract (cap : Nat) : Contract (MpscState T W) :=
  (mpscOutline cap).contract .receiver

theorem senderGuar {n : Nat} {s t : MpscState T W} (h : ∀ m, m ≠ n → SenderRely m s t)
    (hr : ReceiverRely s t) : (senderContract cap n).guar s t := by
  intro j hj
  cases j with
  | sender m => exact h m fun hm => hj (by rw [hm])
  | receiver => exact hr

theorem receiverGuar {s t : MpscState T W} (h : ∀ n, SenderRely n s t) :
    (receiverContract cap).guar s t := by
  intro j hj
  cases j with
  | sender n => exact h n
  | receiver => exact absurd rfl hj

end Contracts

section Stable

variable {n : Nat} {items : List (Item T)} {parkedId : Option Nat} {s t : MpscState T W}

theorem Owns.of_rely (hst : SenderRely n s t) (h : Owns n items s) : Owns n items t where
  nodup := h.nodup
  owner := h.owner
  offered := fun x hx => by
    rw [hst.seq]
    exact h.offered x hx
  notAccepted := fun x hx hmem => h.notAccepted x hx (hst.own x (h.owner x hx) hmem)
  notWithdrawn := fun x hx hmem => h.notWithdrawn x hx (hst.withdrawn x (h.owner x hx) hmem)

theorem ParkedAs.of_rely [Waker W] {cap : Nat} (ht : MpscInv cap t) (hst : SenderRely n s t)
    (h : ParkedAs n parkedId s) : ParkedAs n parkedId t where
  only := fun id hid hn => by
    by_cases hlt : id < s.waiters.nextId
    · rw [hst.parkedBy id hlt] at hn
      exact h.only id (hst.gone id hlt hn hid) hn
    · exact absurd hn (hst.parks id (by omega) (ht.waiters.below id hid))
  own := fun id hid => by
    obtain ⟨hlt, hn⟩ := h.own id hid
    exact ⟨hlt.trans_le hst.nextId, (hst.parkedBy id hlt).trans hn⟩
  waits := fun id hid hopen => by
    obtain ⟨hlt, hn⟩ := h.own id hid
    have hopen' : s.closed = false := by
      by_contra hc
      have := hst.closed (by simpa using hc)
      simp [hopen] at this
    exact hst.stays id hlt hn hopen (h.waits id hid hopen')

theorem SenderRest.stable [Waker W] {cap : Nat} (n : Nat) :
    (senderContract cap n).Stable (SenderRest n : MpscState T W → Prop) := by
  intro s t ht (hst : SenderRely n s t) h
  exact {
    signal := by rw [hst.signal, h.signal]
    credit := by rw [hst.credit, h.credit]
    owns := fun f hf => by
      rw [hst.future] at hf
      exact ⟨hst.borrow.mpr (h.owns f hf).1, (h.owns f hf).2.of_rely hst⟩
    spent := by
      rw [hst.future]
      exact h.spent
    parked := by
      rw [hst.future]
      exact h.parked.of_rely ht hst }

theorem Parked.of_rely (hst : ReceiverRely s t) (h : Parked s) : Parked t where
  armed := hst.phase.trans h.armed
  staging := hst.staging.trans h.staging
  nothing := fun hp => by
    obtain ⟨hp', hq, hn⟩ := hst.quiet hp
    exact ⟨hq (h.nothing hp').1, hn (h.nothing hp').2⟩

theorem ReceiverRest.stable [Waker W] {cap : Nat} :
    (receiverContract cap).Stable (ReceiverRest : MpscState T W → Prop) := by
  intro s t _ (hst : ReceiverRely s t) h
  exact {
    returned := by rw [hst.returned, hst.received, h.returned]
    between := by
      rw [hst.phase]
      exact h.between
    opened := by
      rw [hst.receiver, hst.closed]
      exact h.opened
    pending := by
      rw [hst.receiver]
      exact fun hp hf => (h.pending hp hf).of_rely hst
    shut := by
      rw [hst.receiver, hst.closed]
      intro hdead
      obtain ⟨hc, hw⟩ := h.shut hdead
      exact ⟨hc, fun id hid => hw id (hst.shut hc id hid)⟩ }

end Stable

end Cynosure.SiteD.MpscLight
