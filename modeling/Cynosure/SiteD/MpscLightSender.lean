import Cynosure.SiteD.MpscLightInvariant

/-! # The senders of the light MPSC channel

A call has items that are nobody else's. The locked sections move them into the queue, or
park the sender while the queue is full; what is left goes back to the caller.
-/

namespace Cynosure.SiteD.MpscLight

open Prog

variable {T W : Type} {n : Nat} {s t : MpscState T W}

/-- What a step of sender `n` may change, as the other parties see it. -/
structure SenderStep (n : Nat) (s t : MpscState T W) : Prop where
  futures : ∀ m, m ≠ n → t.futures m = s.futures m
  seqs : ∀ m, m ≠ n → t.seqs m = s.seqs m
  accepted : ∃ new, t.accepted = s.accepted ++ new ∧ ∀ x ∈ new, x.owner = n
  withdrawn : ∃ new, t.withdrawn = s.withdrawn ++ new ∧ ∀ x ∈ new, x.owner = n
  signals : ∀ m, m ≠ n → t.recv.signals m = s.recv.signals m
  credit : ∀ m, m ≠ n → t.credit m = s.credit m
  borrow : ∀ m, m ≠ n → (m ∈ t.borrowers ↔ m ∈ s.borrowers)
  nextId : s.waiters.nextId ≤ t.waiters.nextId
  parkedBy : ∀ id < s.waiters.nextId, t.parkedBy id = s.parkedBy id
  parks : ∀ id, s.waiters.nextId ≤ id → id < t.waiters.nextId → t.parkedBy id = n
  waiting : ∀ id < s.waiters.nextId, s.parkedBy id ≠ n →
    (t.waiters.Waiting id ↔ s.waiters.Waiting id)
  receiver : ReceiverRely s t

theorem SenderStep.refl (n : Nat) (s : MpscState T W) : SenderStep n s s where
  futures := fun _ _ => rfl
  seqs := fun _ _ => rfl
  accepted := ⟨[], (List.append_nil _).symm, fun _ h => absurd h List.not_mem_nil⟩
  withdrawn := ⟨[], (List.append_nil _).symm, fun _ h => absurd h List.not_mem_nil⟩
  signals := fun _ _ => rfl
  credit := fun _ _ => rfl
  borrow := fun _ _ => Iff.rfl
  nextId := le_rfl
  parkedBy := fun _ _ => rfl
  parks := fun _ hle hlt => absurd hlt (not_lt.mpr hle)
  waiting := fun _ _ _ => Iff.rfl
  receiver := .refl s

theorem SenderStep.rely (h : SenderStep n s t) {m : Nat} (hm : m ≠ n) : SenderRely m s t where
  future := h.futures m hm
  seq := h.seqs m hm
  accepted := by
    obtain ⟨new, hnew, -⟩ := h.accepted
    exact ⟨new, hnew.symm⟩
  own := fun x hx hmem => by
    obtain ⟨new, hnew, hown⟩ := h.accepted
    rw [hnew, List.mem_append] at hmem
    exact hmem.resolve_right fun hmem => hm (hx.symm.trans (hown x hmem))
  withdrawn := fun x hx hmem => by
    obtain ⟨new, hnew, hown⟩ := h.withdrawn
    rw [hnew, List.mem_append] at hmem
    exact hmem.resolve_right fun hmem => hm (hx.symm.trans (hown x hmem))
  signal := h.signals m hm
  credit := h.credit m hm
  closed := fun hc => h.receiver.closed.trans hc
  borrow := h.borrow m hm
  nextId := h.nextId
  parkedBy := h.parkedBy
  parks := fun id hle hlt hid => hm (hid.symm.trans (h.parks id hle hlt))
  gone := fun id hlt hid => (h.waiting id hlt fun hn => hm (hid.symm.trans hn)).mp
  stays := fun id hlt hid _ => (h.waiting id hlt fun hn => hm (hid.symm.trans hn)).mpr

theorem SenderStep.guar [Waker W] {cap : Nat} (h : SenderStep n s t) :
    (senderContract cap n).guar s t :=
  senderGuar (fun _ hm => h.rely hm) h.receiver

/-- The sender is in a call: `sent` went into the queue in one piece, and `left` is still to go. -/
structure InCall (n : Nat) (sent left : List (Item T)) (parkedId : Option Nat)
    (s : MpscState T W) : Prop where
  borrow : n ∈ s.borrowers
  sent : sent <:+: s.accepted
  owns : Owns n left s
  parked : ParkedAs n parkedId s
  future : s.futures n = none ∨ s.futures n = some ⟨none, none⟩

theorem InCall.spent {sent left : List (Item T)} {parkedId : Option Nat} {f : SendFuture T}
    (h : InCall n sent left parkedId s) (hf : s.futures n = some f) : f = ⟨none, none⟩ := by
  rcases h.future with hnone | hsome
  · simp [hnone] at hf
  · rw [hsome, Option.some.injEq] at hf
    exact hf.symm

/-- The sender has no wake of another's left to use. -/
def Settled (n : Nat) (s : MpscState T W) : Prop := s.closed = true ∨ s.credit n = false

section Stable

variable [Waker W] {cap : Nat} {sent left : List (Item T)} {parkedId : Option Nat}

theorem InCall.of_rely (ht : MpscInv cap t) (hst : SenderRely n s t)
    (h : InCall n sent left parkedId s) : InCall n sent left parkedId t where
  borrow := hst.borrow.mpr h.borrow
  sent := h.sent.trans hst.accepted.isInfix
  owns := h.owns.of_rely hst
  parked := h.parked.of_rely ht hst
  future := by
    rw [hst.future]
    exact h.future

omit [Waker W] in
theorem Settled.of_rely (hst : SenderRely n s t) (h : Settled n s) : Settled n t := by
  rcases h with h | h
  · exact .inl (hst.closed h)
  · exact .inr (hst.credit.trans h)

/-- Between two actions of a call that is not inside `signal`. -/
def Calling (n : Nat) (sent left : List (Item T)) (parkedId : Option Nat) (s : MpscState T W) :
    Prop :=
  InCall n sent left parkedId s ∧ s.recv.signals n = none

/-- The same, with nothing owed. -/
def Closing (n : Nat) (sent left : List (Item T)) (parkedId : Option Nat)
    (pc : Option (SignalPc W)) (s : MpscState T W) : Prop :=
  (InCall n sent left parkedId s ∧ Settled n s) ∧ s.recv.signals n = pc

theorem Calling.stable :
    (senderContract cap n).Stable (Calling n sent left parkedId : MpscState T W → Prop) :=
  fun _ _ ht hst h => ⟨h.1.of_rely ht hst, hst.signal.trans h.2⟩

theorem Closing.stable (pc : Option (SignalPc W)) :
    (senderContract cap n).Stable (Closing n sent left parkedId pc : MpscState T W → Prop) :=
  fun _ _ ht hst h => ⟨⟨h.1.1.of_rely ht hst, h.1.2.of_rely hst⟩, hst.signal.trans h.2⟩

end Stable

theorem OutOk.mono {out : SendOut T} (h : OutOk s out) (ha : s.accepted <+: t.accepted)
    (hw : s.withdrawn ⊆ t.withdrawn) : OutOk t out := by
  cases out with
  | sent x => exact ha.subset h
  | full x => exact hw h
  | closed x => exact hw h
  | sendError x => exact hw h
  | many items k left => exact ⟨h.1, h.2.1.trans ha.isInfix, fun x hx => hw (h.2.2 x hx)⟩
  | pending => trivial
  | done => trivial

section Steps

variable [Waker W] {cap : Nat} {items left : List (Item T)} {parkedId : Option Nat}

omit [Waker W] in
theorem Owns.tail (h : Owns n (items ++ left) s) : Owns n left s where
  nodup := (List.nodup_append.mp h.nodup).2.1
  owner := fun x hx => h.owner x (List.mem_append_right _ hx)
  offered := fun x hx => h.offered x (List.mem_append_right _ hx)
  notAccepted := fun x hx => h.notAccepted x (List.mem_append_right _ hx)
  notWithdrawn := fun x hx => h.notWithdrawn x (List.mem_append_right _ hx)

theorem MpscInv.push (hI : MpscInv cap s) (h : Owns n (items ++ left) s)
    (hsig : s.recv.signals n = none) (hfit : s.queue.length + items.length ≤ cap)
    (hne : items ≠ []) : MpscInv cap (s.push n items) where
  stream := by
    change s.received ++ s.discarded ++ s.staging ++ (s.queue ++ items) = s.accepted ++ items
    rw [← List.append_assoc, hI.stream]
  queueLe := by
    change (s.queue ++ items).length ≤ cap
    rwa [List.length_append]
  stagingLe := hI.stagingLe
  kept := hI.kept
  returned := hI.returned
  offered := fun x hx => by
    change x ∈ s.accepted ++ items ∨ x ∈ s.withdrawn at hx
    rw [List.mem_append, or_right_comm] at hx
    rcases hx with hx | hx
    · exact hI.offered x hx
    · have hmem := List.mem_append_left left hx
      change x.seq < s.seqs x.owner
      rw [h.owner x hmem]
      exact h.offered x hmem
  apart := fun x hx hmem => by
    rcases List.mem_append.mp hmem with hmem | hmem
    · exact hI.apart x hx hmem
    · exact h.notWithdrawn x (List.mem_append_left left hmem) hx
  once := by
    refine List.nodup_append.mpr ⟨hI.once, (List.nodup_append.mp h.nodup).1, ?_⟩
    rintro x hx y hy rfl
    exact h.notAccepted x (List.mem_append_left left hy) hx
  outs := fun m out hout =>
    (hI.outs m out hout).mono (List.prefix_append _ _) (List.Subset.refl _)
  hint := by
    change (if s.queue = [] then 1 else s.nonempty) = if s.queue ++ items = [] then 0 else 1
    have hhint := hI.hint
    by_cases hq : s.queue = []
    · simp [hq, hne]
    · simpa [hq, hne] using hhint
  mirror := hI.mirror
  waiters := hI.waiters
  owed := fun _ _ => .inl (by simp [MpscState.push, hne])
  alive := hI.alive
  slot := hI.slot.beginSignal hsig

omit [Waker W] in
theorem senderStep_push (h : ∀ x ∈ items, x.owner = n) : SenderStep n s (s.push n items) :=
  { SenderStep.refl n s with
    accepted := ⟨items, rfl, h⟩
    signals := fun _ hm => Function.update_of_ne hm _ _
    credit := fun _ hm => Function.update_of_ne hm _ _
    receiver := { ReceiverRely.refl s with quiet := fun hp => Bool.noConfusion hp } }

omit [Waker W] in
theorem InCall.push (h : InCall n [] (items ++ left) parkedId s) :
    Closing n items left parkedId (some .load) (s.push n items) := by
  refine ⟨⟨{ h with sent := ?_, owns := ?_, parked := { h.parked with } }, .inr ?_⟩, ?_⟩
  · exact (List.suffix_append s.accepted items).isInfix
  · exact { h.owns.tail with
      notAccepted := fun x hx hmem => by
        rcases List.mem_append.mp hmem with hmem | hmem
        · exact h.owns.tail.notAccepted x hx hmem
        · exact (List.nodup_append.mp h.owns.nodup).2.2 x hmem x hx rfl }
  · exact Function.update_self _ _ _
  · exact Function.update_self _ _ _

/-- The locked part of every push. -/
theorem push_step (items left : List (Item T)) (hI : MpscInv cap s)
    (h : Calling n [] (items ++ left) parkedId s)
    (hfit : s.queue.length + items.length ≤ cap) (hne : items ≠ []) :
    MpscInv cap (s.push n items) ∧ (senderContract cap n).guar s (s.push n items) ∧
      Closing n items left parkedId (some .load) (s.push n items) := by
  refine ⟨hI.push h.1.owns h.2 hfit hne, (senderStep_push ?_).guar, h.1.push⟩
  exact fun x hx => h.1.owns.owner x (List.mem_append_left left hx)

/-- The next poll takes back the wake it was sent, if any. -/
theorem repoll_step {id : Nat} (hI : MpscInv cap s) (h : Calling n [] left (some id) s) :
    MpscInv cap (s.repollWaiter n id) ∧ (senderContract cap n).guar s (s.repollWaiter n id) ∧
      Calling n [] left none (s.repollWaiter n id) := by
  obtain ⟨-, hown⟩ := h.1.parked.own id rfl
  have hwait : ∀ j, (s.repollWaiter n id).waiters.Waiting j ↔ j ≠ id ∧ s.waiters.Waiting j :=
    fun j => Waiters.waiting_repoll j
  refine ⟨?_, SenderStep.guar ?_, ?_⟩
  · exact { hI with
      mirror := rfl
      waiters := hI.waiters.repoll id
      owed := fun _ _ => .inr (.inr ⟨n, Function.update_self _ _ _⟩) }
  · exact { SenderStep.refl n s with
      credit := fun m hm => Function.update_of_ne hm _ _
      waiting := fun j _ hj => by
        rw [hwait]
        refine and_iff_right ?_
        rintro rfl
        exact hj hown
      receiver := { ReceiverRely.refl s with shut := fun _ j hj => ((hwait j).mp hj).2 } }
  · refine ⟨{ h.1 with owns := { h.1.owns with }, parked := ?_ }, h.2⟩
    exact {
      only := fun j hj hn => by
        obtain ⟨hne, hj⟩ := (hwait j).mp hj
        have := h.1.parked.only j hj hn
        rw [Option.some.injEq] at this
        exact absurd this.symm hne
      own := fun _ hj => by cases hj
      waits := fun _ hj => by cases hj }

/-- A sender parks only behind a full queue. -/
theorem park_step {x : Item T} {waker : W} (hcap : 0 < cap) (hI : MpscInv cap s)
    (h : Calling n [] [x] none s) (hopen : s.closed = false) (hfull : ¬ s.queue.length < cap) :
    MpscInv cap { s.setWaiters (s.waiters.park waker) with
        credit := Function.update s.credit n false
        parkedBy := Function.update s.parkedBy s.waiters.nextId n } ∧
      (senderContract cap n).guar s { s.setWaiters (s.waiters.park waker) with
        credit := Function.update s.credit n false
        parkedBy := Function.update s.parkedBy s.waiters.nextId n } ∧
      Closing n [] [x] (some s.waiters.nextId) none { s.setWaiters (s.waiters.park waker) with
        credit := Function.update s.credit n false
        parkedBy := Function.update s.parkedBy s.waiters.nextId n } := by
  refine ⟨?_, SenderStep.guar ?_, ?_⟩
  · exact { hI with
      mirror := rfl
      waiters := hI.waiters.park waker
      owed := fun _ _ => .inl fun hq => hfull (by
        change s.queue = [] at hq
        simpa [hq] using hcap) }
  · exact { SenderStep.refl n s with
      credit := fun m hm => Function.update_of_ne hm _ _
      nextId := Nat.le_succ _
      parkedBy := fun j hj => Function.update_of_ne hj.ne _ _
      parks := fun j hle hlt => by
        have : j = s.waiters.nextId := Nat.le_antisymm (Nat.lt_succ_iff.mp hlt) hle
        rw [this]
        exact Function.update_self _ _ _
      waiting := fun j hj _ => by
        change (s.waiters.park waker).Waiting j ↔ _
        rw [Waiters.waiting_park]
        exact or_iff_right hj.ne
      receiver := { ReceiverRely.refl s with shut := fun hc => by simp [hopen] at hc } }
  · refine ⟨⟨{ h.1 with owns := { h.1.owns with }, parked := ?_ }, .inr ?_⟩, h.2⟩
    · exact {
        only := fun j hj hn => by
          rcases (Waiters.waiting_park j).mp hj with rfl | hj
          · rfl
          · have hne : j ≠ s.waiters.nextId := (hI.waiters.below j hj).ne
            change Function.update s.parkedBy s.waiters.nextId n j = n at hn
            rw [Function.update_of_ne hne] at hn
            exact absurd (h.1.parked.only j hj hn) (by simp)
        own := fun j hj => by
          cases hj
          exact ⟨Nat.lt_succ_self _, Function.update_self _ _ _⟩
        waits := fun j hj _ => by
          cases hj
          exact (Waiters.waiting_park _).mpr (.inl rfl) }
    · exact Function.update_self _ _ _

/-- The drop of a future that is out of the table already. -/
structure Dropping (n : Nat) (parkedId : Option Nat) (s : MpscState T W) : Prop where
  signal : s.recv.signals n = none
  credit : s.credit n = false
  future : s.futures n = none
  parked : ParkedAs n parkedId s

theorem Dropping.stable :
    (senderContract cap n).Stable (Dropping n parkedId : MpscState T W → Prop) := by
  intro s t ht (hst : SenderRely n s t) h
  exact ⟨hst.signal.trans h.signal, hst.credit.trans h.credit, hst.future.trans h.future,
    h.parked.of_rely ht hst⟩

/-- A dropped future passes its wake on. -/
theorem cancel_step {id : Nat} (hI : MpscInv cap s) (h : Dropping n (some id) s) :
    MpscInv cap (s.cancelWaiter id) ∧ (senderContract cap n).guar s (s.cancelWaiter id) ∧
      Dropping n none (s.cancelWaiter id) := by
  obtain ⟨-, hown⟩ := h.parked.own id rfl
  have hwait : ∀ j, (s.cancelWaiter id).waiters.Waiting j ↔ j ≠ id ∧ s.waiters.Waiting j :=
    fun j => Waiters.waiting_cancel j
  refine ⟨?_, SenderStep.guar ?_, ?_⟩
  · exact { hI with
      mirror := rfl
      waiters := hI.waiters.cancel id
      owed := fun hopen hq => by
        rcases hI.owed hopen (Waiters.q_of_cancel hq) with hqueue | hsel | hcredit
        · exact .inl hqueue
        · exact .inr (.inl (Waiters.cancel_owed hq hsel))
        · exact .inr (.inr hcredit) }
  · exact { SenderStep.refl n s with
      nextId := (Waiters.cancel_nextId (w := s.waiters)).ge
      parks := fun j hle hlt => by
        change j < (s.waiters.cancel id).nextId at hlt
        rw [Waiters.cancel_nextId] at hlt
        omega
      waiting := fun j _ hj => by
        rw [hwait]
        refine and_iff_right ?_
        rintro rfl
        exact hj hown
      receiver := { ReceiverRely.refl s with shut := fun _ j hj => ((hwait j).mp hj).2 } }
  · refine ⟨h.signal, h.credit, h.future, ?_⟩
    exact {
      only := fun j hj hn => by
        obtain ⟨hne, hj⟩ := (hwait j).mp hj
        have := h.parked.only j hj hn
        rw [Option.some.injEq] at this
        exact absurd this.symm hne
      own := fun _ hj => by cases hj
      waits := fun _ hj => by cases hj }

end Steps

end Cynosure.SiteD.MpscLight
