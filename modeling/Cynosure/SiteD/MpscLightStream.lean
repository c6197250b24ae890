import Cynosure.SiteD.MpscLightReceiver
import Cynosure.SiteD.MpscLightSend

/-! # The light MPSC channel is one bounded queue that strands nobody

The calls of all parties start at rest and end at rest, so the outline holds of any number
of senders in any interleaving.
-/

namespace Cynosure.SiteD.MpscLight

variable {T W : Type} [Waker W]

theorem MpscInv.init (cap : Nat) : MpscInv cap (MpscState.init : MpscState T W) where
  stream := rfl
  queueLe := Nat.zero_le _
  stagingLe := Nat.zero_le _
  kept := fun _ => rfl
  returned := List.prefix_rfl
  offered := fun _ h => by simp [MpscState.init] at h
  apart := fun _ h => by simp [MpscState.init] at h
  once := List.nodup_nil
  outs := fun _ _ h => by simp [MpscState.init] at h
  hint := rfl
  mirror := rfl
  waiters := .empty
  owed := fun _ h => absurd rfl h
  alive := fun h => by simp [MpscState.init] at h
  slot := .new

theorem mpscOutline_sound (capacity : Nat) :
    (mpscOutline (T := T) (W := W) (max capacity 1)).Sound (mpscThreads capacity) where
  init := .init _
  initRest
    | .sender n => {
        signal := rfl
        credit := rfl
        owns := fun _ hf => by cases hf
        spent := fun _ hf => by cases hf
        parked := {
          only := fun id hid => by simp [mpscThreads, MpscState.init, Waiters.Waiting, Waiters.ids] at hid
          own := fun _ hid => by cases hid
          waits := fun _ hid => by cases hid } }
    | .receiver => {
        returned := rfl
        between := fun _ hp => by cases hp
        opened := fun _ => rfl
        pending := fun hp => by cases hp
        shut := fun hdead => by cases hdead }
  stable
    | .sender n => SenderRest.stable n
    | .receiver => ReceiverRest.stable
  start := by
    intro i op s t p hI hrest hcall
    cases i with
    | sender n => exact sender_start (by omega) hI hrest hcall
    | receiver => exact receiver_start hI hrest hcall
  finish := by
    intro i b s _ hpost _
    cases i <;> exact hpost
  again := by
    intro i b s p _ _ hres
    cases hres

/-- With nobody inside a call: senders wait behind a queue with items in it, unless one of them has
been woken; and a receiver that has not been woken since it parked has nothing to take, has a
sender alive, and leaves no sender waiting that is not behind a woken one. -/
theorem mpsc_strands_nobody (capacity : Nat) (T W : Type) [Waker W]
    (s : ThreadState (MpscState T W) MpscSide PUnit.{1})
    (h : (mpscThreads capacity).machine.Reachable s) (halive : s.mem.receiver.alive = true)
    (hidle : ∀ i, s.running i = none) :
    (s.mem.waiters.q ≠ [] → s.mem.waiters.selected = ∅ → s.mem.queue ≠ []) ∧
    (s.mem.receiver.future.isSome = true → s.mem.receiver.pending = true →
      s.mem.recv.woken = false →
      s.mem.staging = [] ∧ s.mem.queue = [] ∧ 0 < s.mem.senders ∧
        (s.mem.waiters.q ≠ [] → s.mem.waiters.selected ≠ ∅)) := by
  obtain ⟨hI, hsides⟩ := (mpscOutline_sound capacity).reachable h
  have hsender : ∀ n, SenderRest n s.mem := fun n => by
    have hn := hsides (.sender n)
    rwa [hidle] at hn
  have hreceiver : ReceiverRest s.mem := by
    have hr := hsides .receiver
    rwa [hidle] at hr
  have howed : s.mem.waiters.q ≠ [] → s.mem.queue ≠ [] ∨ s.mem.waiters.selected.Nonempty := by
    intro hq
    rcases hI.owed (hreceiver.opened halive) hq with hqueue | hsel | ⟨n, hn⟩
    · exact .inl hqueue
    · exact .inr hsel
    · simp [(hsender n).credit] at hn
  constructor
  · intro hq hsel
    exact (howed hq).resolve_right (by simp [hsel])
  · intro hfuture hpending hwoken
    have hparked := hreceiver.pending hpending hfuture
    have hpub := hI.slot.not_published hparked.armed hwoken fun n => (hsender n).signal
    obtain ⟨hqueue, hsenders⟩ := hparked.nothing hpub
    refine ⟨hparked.staging, hqueue, hsenders, fun hq => ?_⟩
    exact ((howed hq).resolve_left fun hne => hne hqueue).ne_empty

/-- A sender parks behind the one item that the channel holds. -/
theorem mpsc_parks_behind_an_item :
    ∃ s : ThreadState (MpscState Nat Waker.OfTask) MpscSide PUnit.{1},
      (mpscThreads 1).machine.Reachable s ∧ s.mem.waiters.ids = [0] ∧
      s.mem.waiters.selected = ∅ ∧ s.mem.queue ≠ [] := by
  have hrun : (mpscThreads (T := Nat) (W := Waker.OfTask) 1).machine.Reachable _ :=
    ⟨.call (.sender 0) (.trySend 5) :: List.replicate 5 (.step (.sender 0)) ++
      .call (.sender 1) (.send 6) :: .step (.sender 1) ::
      .call (.sender 1) (.pollSend ⟨3⟩) :: List.replicate 5 (.step (.sender 1)), rfl⟩
  have hidle := (mpsc_strands_nobody 1 Nat Waker.OfTask _ hrun rfl ?_).1
  · exact ⟨_, hrun, rfl, rfl, hidle (List.ne_nil_of_length_pos Nat.one_pos) rfl⟩
  · rintro ((_ | _ | n) | _) <;> rfl

/-- The hint, the mirror and the ids are right whenever the lock is free. With nobody inside a call
the waiting ids are those of the parked futures, one each. -/
theorem mpsc_waiters_are_the_parked_futures (capacity : Nat) (T W : Type) [Waker W]
    (s : ThreadState (MpscState T W) MpscSide PUnit.{1})
    (h : (mpscThreads capacity).machine.Reachable s) :
    (s.mem.nonempty = 1 ↔ s.mem.queue ≠ []) ∧
    s.mem.waitersLen = s.mem.waiters.q.length ∧
    (∀ id ∈ s.mem.waiters.ids, id ∉ s.mem.waiters.selected) ∧
    (∀ id, s.mem.waiters.Waiting id → id < s.mem.waiters.nextId) ∧
    ((∀ i, s.running i = none) →
      (∀ id, s.mem.waiters.Waiting id →
        ∃! n, ∃ f, s.mem.futures n = some f ∧ f.parkedId = some id) ∧
      (s.mem.receiver.alive = true →
        ∀ n f id, s.mem.futures n = some f → f.parkedId = some id →
          Xor (id ∈ s.mem.waiters.ids) (id ∈ s.mem.waiters.selected))) := by
  obtain ⟨hI, hsides⟩ := (mpscOutline_sound capacity).reachable h
  refine ⟨?_, hI.mirror, hI.waiters.disjoint, hI.waiters.below, fun hidle => ?_⟩
  · rw [hI.hint]
    split <;> simp_all
  · have hsender : ∀ n, ParkedAs n ((s.mem.futures n).bind SendFuture.parkedId) s.mem := fun n => by
      have hn := hsides (.sender n)
      rw [hidle] at hn
      exact hn.parked
    have hreceiver : ReceiverRest s.mem := by
      have hr := hsides .receiver
      rwa [hidle] at hr
    have hparked : ∀ {n f id}, s.mem.futures n = some f → f.parkedId = some id →
        (s.mem.futures n).bind SendFuture.parkedId = some id := by
      intro n f id hf hid
      rw [hf]
      exact hid
    constructor
    · intro id hid
      obtain ⟨f, hf, hfid⟩ := Option.bind_eq_some_iff.mp ((hsender (s.mem.parkedBy id)).only id hid rfl)
      refine ⟨s.mem.parkedBy id, ⟨f, hf, hfid⟩, ?_⟩
      rintro m ⟨g, hg, hgid⟩
      exact ((hsender m).own id (hparked hg hgid)).2.symm
    · intro halive n f id hf hid
      rcases (hsender n).waits id (hparked hf hid) (hreceiver.opened halive) with hq | hsel
      · exact .inl ⟨hq, hI.waiters.disjoint id hq⟩
      · exact .inr ⟨hsel, fun hq => hI.waiters.disjoint id hq hsel⟩

/-- Of two parked senders the first is selected when the receiver takes the only item. -/
theorem mpsc_waiters_after_a_steal :
    ∃ s : ThreadState (MpscState Nat Waker.OfTask) MpscSide PUnit.{1},
      (mpscThreads 1).machine.Reachable s ∧ s.mem.waiters.ids = [1] ∧ s.mem.waiters.selected = {0} ∧
      (∃! n, ∃ f, s.mem.futures n = some f ∧ f.parkedId = some 0) ∧
      (∃! n, ∃ f, s.mem.futures n = some f ∧ f.parkedId = some 1) := by
  have hrun : (mpscThreads (T := Nat) (W := Waker.OfTask) 1).machine.Reachable _ :=
    ⟨.call (.sender 0) (.trySend 5) :: List.replicate 5 (.step (.sender 0)) ++
      .call (.sender 1) (.send 6) :: .step (.sender 1) ::
      .call (.sender 1) (.pollSend ⟨3⟩) :: List.replicate 5 (.step (.sender 1)) ++
      .call (.sender 2) (.send 7) :: .step (.sender 2) ::
      .call (.sender 2) (.pollSend ⟨4⟩) :: List.replicate 5 (.step (.sender 2)) ++
      .call .receiver .tryRecv :: List.replicate 6 (.step .receiver), rfl⟩
  have hidle := (mpsc_waiters_are_the_parked_futures 1 Nat Waker.OfTask _ hrun).2.2.2.2 ?_
  · exact ⟨_, hrun, rfl, rfl, hidle.1 0 (.inr (by decide)), hidle.1 1 (.inl (by decide))⟩
  · rintro ((_ | _ | _ | n) | _) <;> rfl

end Cynosure.SiteD.MpscLight
