import Cynosure.SiteD.RingBufAsleep
import Cynosure.SiteD.RingBufJobs

/-! # The ring buffer is a bounded FIFO

What a call returns tells what it has moved: a producer is told of just the items that
are in the ring when its call returns, and a consumer gets just those that have left it.
With the invariant this makes the ring a bounded queue for its callers.
-/

namespace Cynosure.SiteD

open Prog

variable {w : Nat} {T W : Type}

namespace Ring

/-- The items of the producer's future that are not in the ring yet. -/
def PushFuture.left : PushFuture T → List T
  | .push value => [value]
  | .pushing value => [value]
  | .pushSlice items => items
  | .slicing items pushedSoFar => items.drop pushedSoFar

/-- The items that the consumer's future has taken so far. -/
def PopFuture.got : PopFuture T → List (Option T)
  | .slicing items poppedSoFar => items.take poppedSoFar
  | _ => []

/-- The result of the future hands out `items`. -/
def PopFuture.Hands (out : RingOut T) (items : List (Option T)) : PopFuture T → Prop
  | .pop => ∃ value, items = [value] ∧ out = .item (some value)
  | .popping => ∃ value, items = [value] ∧ out = .item (some value)
  | .popSlice slice => items.length = slice.length ∧ out = .slice items items.length
  | .slicing slice _ => items.length = slice.length ∧ out = .slice items items.length

/-- A poll of the producer is over and has pushed all that was left, or it has pushed a part. -/
def PollPushReports (future : PushFuture T) (s t : RingState w T W) : Prop :=
  t.producerOut = some .done ∧ t.pushFuture = none ∧ t.accepted = s.accepted ++ PushFuture.left future ∨
    ∃ next pushed, t.producerOut = some .pending ∧ t.pushFuture = some next ∧
      PushFuture.left future = pushed ++ PushFuture.left next ∧ t.accepted = s.accepted ++ pushed

def PollPopReports (future : PopFuture T) (s t : RingState w T W) : Prop :=
  ∃ popped, t.taken = s.taken ++ popped ∧
    ((∃ out, t.consumerOut = some out ∧ t.popFuture = none ∧
      PopFuture.Hands out (PopFuture.got future ++ popped) future) ∨
    ∃ next, t.consumerOut = some .pending ∧ t.popFuture = some next ∧
      PopFuture.got next = PopFuture.got future ++ popped)

/-- What a call of the producer that began in `s` has pushed when it returns in `t`. -/
def ProducerReports (s t : RingState w T W) : RingOp T W → Prop
  | .tryPush value => t.producerOut = some .done ∧ t.accepted = s.accepted ++ [value] ∨
      t.producerOut = some (.rejected value) ∧ t.accepted = s.accepted
  | .tryPushSlice items => ∃ n ≤ items.length, t.producerOut = some (.count n) ∧
      t.accepted = s.accepted ++ items.take n
  | .push value => t.pushFuture = some (.push value) ∧ t.accepted = s.accepted
  | .pushSlice items => t.pushFuture = some (.pushSlice items) ∧ t.accepted = s.accepted
  | .pollPush _ => ∃ future, s.pushFuture = some future ∧ PollPushReports future s t
  | _ => t.accepted = s.accepted

/-- What a call of the consumer that began in `s` has taken when it returns in `t`. -/
def ConsumerReports (s t : RingState w T W) : RingOp T W → Prop
  | .tryPop => (∃ value, t.consumerOut = some (.item (some value)) ∧ t.taken = s.taken ++ [value]) ∨
      t.consumerOut = some (.item none) ∧ t.taken = s.taken
  | .tryPopSlice items => ∃ filled, ∃ n ≤ items.length, t.consumerOut = some (.slice filled n) ∧
      filled.length = items.length ∧ t.taken = s.taken ++ filled.take n
  | .pop => t.popFuture = some .pop ∧ t.taken = s.taken
  | .popSlice items => t.popFuture = some (.popSlice (items.map some)) ∧ t.taken = s.taken
  | .pollPop _ => ∃ future, s.popFuture = some future ∧ PollPopReports future s t
  | _ => t.taken = s.taken

section Producer

variable {r : RingBuf w}

structure SameAccepted (s t : RingState w T W) : Prop where
  accepted : t.accepted = s.accepted

theorem freeCount_accepted : (freeCount (T := T) (W := W) r).Always SameAccepted :=
  always_bind (always_exchange fun _ => ⟨rfl⟩) fun _ =>
    always_bind (always_load _ fun _ => ⟨rfl⟩) fun _ => always_pure _

theorem producerReturns_accepted (out : RingOut T) :
    (producerReturns (w := w) (W := W) out).Always SameAccepted :=
  always_store fun _ => ⟨rfl⟩

theorem PushingLeft.reports {s t : RingState w T W} {value : T} {future : PushFuture T}
    (h : PushingLeft r value s.accepted t) (hleft : PushFuture.left future = [value]) :
    PollPushReports future s t := by
  rw [PollPushReports, hleft]
  obtain ⟨o, n', k', hnone, hout, h⟩ | ⟨o, n', hsome, hout, h⟩ := h
  · exact .inl ⟨hout, (Prod.ext_iff.mp h.own).1.trans hnone, h.accepted⟩
  · refine .inr ⟨.pushing value, [], hout, (Prod.ext_iff.mp h.own).1.trans hsome, rfl, ?_⟩
    rw [h.accepted, List.append_nil]

theorem SlicedLeft.reports {s t : RingState w T W} {items : List T} {j c n : Nat}
    {future : PushFuture T} (h : SlicedLeft r items j c s.accepted n t)
    (hleft : PushFuture.left future = items.drop j) : PollPushReports future s t := by
  rw [PollPushReports, hleft]
  obtain ⟨m, n', -, -, -, hout, h⟩ | ⟨c', n', k', -, hout, h⟩ := h
  · refine .inr ⟨.slicing items (j + m), (items.drop j).take m, hout, (Prod.ext_iff.mp h.own).1, ?_,
      h.accepted⟩
    rw [PushFuture.left, ← List.drop_drop, List.take_append_drop]
  · exact .inl ⟨hout, (Prod.ext_iff.mp h.own).1, h.accepted⟩

theorem SliceLeft.reports {s t : RingState w T W} {items : List T} {n k : Nat}
    (h : SliceLeft r items s.accepted n k t) : PollPushReports (.pushSlice items) s t := by
  obtain ⟨n', k', -, hout, h⟩ | ⟨-, ⟨j, n', -, -, -, hout, h⟩ | ⟨j, n', k', -, hout, h⟩⟩ := h
  · exact .inl ⟨hout, (Prod.ext_iff.mp h.own).1, h.accepted⟩
  · exact .inr ⟨.slicing items j, items.take j, hout, (Prod.ext_iff.mp h.own).1,
      (List.take_append_drop j items).symm, h.accepted⟩
  · exact .inl ⟨hout, (Prod.ext_iff.mp h.own).1, h.accepted⟩

variable [Waker W] {s t : ThreadState (RingState w T W) RingSide PUnit}

/-- The calls that push nothing. -/
theorem producerCall_accepted {s t : RingState w T W} {op : RingOp T W}
    {p : Prog (RingState w T W) PUnit} (h : producerCall r s op = some (t, p))
    (hone : ∀ value, op ≠ .tryPush value) (hslice : ∀ items, op ≠ .tryPushSlice items) :
    SameAccepted s t ∧ p.Always SameAccepted := by
  cases op with
  | tryPush value => exact absurd rfl (hone value)
  | tryPushSlice items => exact absurd rfl (hslice items)
  | freeCount | producerIsFull =>
    cases h
    exact ⟨⟨rfl⟩, always_bind freeCount_accepted fun _ => producerReturns_accepted _⟩
  | producerIsEmpty =>
    cases h
    exact ⟨⟨rfl⟩, always_bind (always_exchange fun _ => ⟨rfl⟩) fun _ =>
      always_bind (always_load _ fun _ => ⟨rfl⟩) fun _ => producerReturns_accepted _⟩
  | push | pushSlice | dropProducer =>
    cases h
    exact ⟨⟨rfl⟩, always_pure _⟩
  | _ => cases h

theorem ringCall_accepted {s t : RingState w T W} {op : RingOp T W}
    {p : Prog (RingState w T W) PUnit} (h : ringCall r .producer op s = some (t, p))
    (hone : ∀ value, op ≠ .tryPush value) (hslice : ∀ items, op ≠ .tryPushSlice items)
    (hpoll : ∀ waker, op ≠ .pollPush waker) : SameAccepted s t ∧ p.Always SameAccepted := by
  simp only [ringCall] at h
  split at h
  · split at h
    · exact producerCall_accepted h hone hslice
    · exact absurd rfl (hpoll _)
    · cases h
      exact ⟨⟨rfl⟩, always_pure _⟩
    · cases h
  · cases h

theorem producer_leaves (hs : (ringCalls r).Holds s) {op : RingOp T W}
    (h : (ringThreads r).CallEnds .producer op s t) (hone : ∀ value, op ≠ .tryPush value)
    (hslice : ∀ items, op ≠ .tryPushSlice items) (hpoll : ∀ waker, op ≠ .pollPush waker) :
    t.mem.accepted = s.mem.accepted := by
  have hstable : ((ringCalls r).contract .producer).Stable fun u : RingState w T W =>
      u.accepted = s.mem.accepted :=
    fun u v _ huv hu => (show ProducerRely u v from huv.1).accepted.trans hu
  have hruns : ∀ m p, (ringThreads r).start .producer op s.mem = some (m, p) →
      (ringCalls r).rest .producer s.mem →
      (producerKnown r).Ok (fun _ u => u.accepted = s.mem.accepted) p m := by
    intro m p hstart hrest
    obtain ⟨hsame, hp⟩ := ringCall_accepted hstart hone hslice hpoll
    obtain ⟨hinv, -⟩ := (ringCalls_sound r).start hs.1 hrest hstart
    exact Contract.known_always hstable (fun huv hu => huv.accepted.trans hu) hp m ⟨hinv, trivial⟩
      hsame.accepted
  obtain ⟨-, hends⟩ :=
    (ringCalls_sound r).callEnds_known (fun _ => rfl) (fun _ => hstable) hs hruns h
  exact hends

theorem pollPush_reports (hs : (ringThreads r).machine.Reachable s) {waker : W}
    (h : (ringThreads r).CallEnds .producer (.pollPush waker) s t) :
    ∃ future, s.mem.pushFuture = some future ∧ PollPushReports future s.mem t.mem := by
  have hholds := (ringCalls_sound r).reachable hs
  cases hf : s.mem.pushFuture with
  | none =>
    obtain ⟨c, hc⟩ := h.start
    change ringCall r .producer _ s.mem = some c at hc
    simp only [ringCall, hf, producerCall] at hc
    split at hc <;> cases hc
  | some future =>
    refine ⟨future, rfl, ?_⟩
    cases future with
    | push value =>
      exact (pollPush_left hholds hf PushingLeft.stable (pollPushOne_counts waker) h).reports rfl
    | pushing value =>
      exact (pollPush_left hholds hf PushingLeft.stable (pollPushFuture_counts waker) h).reports rfl
    | pushSlice items =>
      exact (pollPush_left hholds hf SliceLeft.stable (pollPushSlice_counts waker items) h).reports
    | slicing items j =>
      have hj := ((reachable_waits hs).2.1 h.was_idle).unfinished _ hf
      exact (pollPush_left hholds hf SlicedLeft.stable (pollPushSliceFuture_left waker hj) h).reports rfl

theorem producer_reports (hs : (ringThreads r).machine.Reachable s) {op : RingOp T W}
    (h : (ringThreads r).CallEnds .producer op s t) : ProducerReports s.mem t.mem op := by
  have hholds := (ringCalls_sound r).reachable hs
  cases op with
  | tryPush value =>
    obtain ⟨n', k', -, ⟨-, hend⟩ | ⟨-, hend⟩⟩ := tryPush_ends hholds h
    · exact .inl ⟨hend.1, hend.accepted⟩
    · exact .inr ⟨hend.1, hend.accepted⟩
  | tryPushSlice items =>
    by_cases hne : items = []
    · subst hne
      have hend := tryPushSlice_nil_ends hholds h
      exact ⟨0, le_rfl, hend.1, by rw [hend.accepted, List.take_nil, List.append_nil]⟩
    · obtain ⟨n', k', -, hend⟩ := tryPushSlice_ends hholds hne h
      exact ⟨_, Nat.min_le_left _ _, hend.1, hend.accepted⟩
  | push value => exact push_created (.push value) hholds h
  | pushSlice items => exact push_created (.pushSlice items) hholds h
  | pollPush waker => exact pollPush_reports hs h
  | _ => exact producer_leaves hholds h (by simp) (by simp) (by simp)

end Producer

section Consumer

variable {r : RingBuf w}

structure SameTaken (s t : RingState w T W) : Prop where
  taken : t.taken = s.taken

theorem availableCount_taken : (availableCount (w := w) (T := T) (W := W)).Always SameTaken :=
  always_bind (always_exchange fun _ => ⟨rfl⟩) fun _ =>
    always_bind (always_load _ fun _ => ⟨rfl⟩) fun _ => always_pure _

theorem consumerReturns_taken (out : RingOut T) :
    (consumerReturns (w := w) (W := W) out).Always SameTaken :=
  always_store fun _ => ⟨rfl⟩

theorem PoppingLeft.reports {s t : RingState w T W} {future : PopFuture T}
    (h : PoppingLeft r s.taken t) (hf : future = .pop ∨ future = .popping) :
    PollPopReports future s t := by
  have hgot : PopFuture.got future = [] := by rcases hf with rfl | rfl <;> rfl
  have hhands : ∀ value, PopFuture.Hands (.item (some value)) [value] future := by
    intro value
    rcases hf with rfl | rfl <;> exact ⟨value, rfl, rfl⟩
  rw [PollPopReports, hgot]
  obtain ⟨o, n', k', value, hnone, hout, h⟩ | ⟨o, n', hsome, hout, h⟩ := h
  · exact ⟨[value], h.taken, .inl ⟨_, hout, (Prod.ext_iff.mp h.own).1.trans hnone, hhands value⟩⟩
  · exact ⟨[], by rw [h.taken, List.append_nil], .inr ⟨.popping, hout,
      (Prod.ext_iff.mp h.own).1.trans hsome, rfl⟩⟩

theorem FilledLeft.reports {s t : RingState w T W} {items : List (Option T)} {j c n : Nat}
    (h : FilledLeft r items j c s.taken n t) : PollPopReports (.slicing items j) s t := by
  obtain ⟨full, m, n', hlen, hkept, -, -, -, hout, h⟩ | ⟨full, c', n', k', hlen, hkept, -, hout, h⟩ := h
  · refine ⟨(full.drop j).take m, h.taken, .inr ⟨.slicing full (j + m), hout,
      (Prod.ext_iff.mp h.own).1, ?_⟩⟩
    rw [PopFuture.got, PopFuture.got, ← hkept, List.take_add]
  · refine ⟨full.drop j, h.taken, .inl ⟨_, hout, (Prod.ext_iff.mp h.own).1, ?_⟩⟩
    rw [PopFuture.got, ← hkept, List.take_append_drop, PopFuture.Hands, hlen]
    exact ⟨rfl, rfl⟩

theorem FillLeft.reports {s t : RingState w T W} {items : List (Option T)} {n k : Nat}
    (h : FillLeft r items.length s.taken n k t) : PollPopReports (.popSlice items) s t := by
  obtain ⟨full, n', k', hlen, -, hout, h⟩ | ⟨-, ⟨full, j, n', -, -, -, -, hout, h⟩ |
    ⟨full, j, n', k', hlen, -, hout, h⟩⟩ := h
  · exact ⟨full, h.taken, .inl ⟨_, hout, (Prod.ext_iff.mp h.own).1, hlen, by rw [← hlen]; rfl⟩⟩
  · exact ⟨full.take j, h.taken, .inr ⟨.slicing full j, hout, (Prod.ext_iff.mp h.own).1, rfl⟩⟩
  · exact ⟨full, h.taken, .inl ⟨_, hout, (Prod.ext_iff.mp h.own).1, hlen, by rw [← hlen]; rfl⟩⟩

variable [Waker W] {s t : ThreadState (RingState w T W) RingSide PUnit}

/-- The calls that take nothing. -/
theorem consumerCall_taken {s t : RingState w T W} {op : RingOp T W}
    {p : Prog (RingState w T W) PUnit} (h : consumerCall r s op = some (t, p))
    (hone : op ≠ .tryPop) (hslice : ∀ items, op ≠ .tryPopSlice items) :
    SameTaken s t ∧ p.Always SameTaken := by
  cases op with
  | tryPop => exact absurd rfl hone
  | tryPopSlice items => exact absurd rfl (hslice items)
  | availableCount | consumerIsEmpty | consumerIsFull =>
    cases h
    exact ⟨⟨rfl⟩, always_bind availableCount_taken fun _ => consumerReturns_taken _⟩
  | pop | popSlice | dropConsumer =>
    cases h
    exact ⟨⟨rfl⟩, always_pure _⟩
  | _ => cases h

theorem ringCall_taken {s t : RingState w T W} {op : RingOp T W}
    {p : Prog (RingState w T W) PUnit} (h : ringCall r .consumer op s = some (t, p))
    (hone : op ≠ .tryPop) (hslice : ∀ items, op ≠ .tryPopSlice items)
    (hpoll : ∀ waker, op ≠ .pollPop waker) : SameTaken s t ∧ p.Always SameTaken := by
  simp only [ringCall] at h
  split at h
  · split at h
    · exact consumerCall_taken h hone hslice
    · exact absurd rfl (hpoll _)
    · cases h
      exact ⟨⟨rfl⟩, always_pure _⟩
    · cases h
  · cases h

theorem consumer_leaves (hs : (ringCalls r).Holds s) {op : RingOp T W}
    (h : (ringThreads r).CallEnds .consumer op s t) (hone : op ≠ .tryPop)
    (hslice : ∀ items, op ≠ .tryPopSlice items) (hpoll : ∀ waker, op ≠ .pollPop waker) :
    t.mem.taken = s.mem.taken := by
  have hstable : ((ringCalls r).contract .consumer).Stable fun u : RingState w T W =>
      u.taken = s.mem.taken :=
    fun u v _ huv hu => (show ConsumerRely u v from huv.1).taken.trans hu
  have hruns : ∀ m p, (ringThreads r).start .consumer op s.mem = some (m, p) →
      (ringCalls r).rest .consumer s.mem →
      (consumerKnown r).Ok (fun _ u => u.taken = s.mem.taken) p m := by
    intro m p hstart hrest
    obtain ⟨hsame, hp⟩ := ringCall_taken hstart hone hslice hpoll
    obtain ⟨hinv, -⟩ := (ringCalls_sound r).start hs.1 hrest hstart
    exact Contract.known_always hstable (fun huv hu => huv.taken.trans hu) hp m ⟨hinv, trivial⟩
      hsame.taken
  obtain ⟨-, hends⟩ :=
    (ringCalls_sound r).callEnds_known (fun _ => rfl) (fun _ => hstable) hs hruns h
  exact hends

theorem pollPop_reports (hs : (ringThreads r).machine.Reachable s) {waker : W}
    (h : (ringThreads r).CallEnds .consumer (.pollPop waker) s t) :
    ∃ future, s.mem.popFuture = some future ∧ PollPopReports future s.mem t.mem := by
  have hholds := (ringCalls_sound r).reachable hs
  cases hf : s.mem.popFuture with
  | none =>
    obtain ⟨c, hc⟩ := h.start
    change ringCall r .consumer _ s.mem = some c at hc
    simp only [ringCall, hf, consumerCall] at hc
    split at hc <;> cases hc
  | some future =>
    refine ⟨future, rfl, ?_⟩
    cases future with
    | pop =>
      exact (pollPop_left hholds hf PoppingLeft.stable (pollPopOne_counts waker) h).reports (.inl rfl)
    | popping =>
      exact (pollPop_left hholds hf PoppingLeft.stable (pollPopFuture_counts waker) h).reports (.inr rfl)
    | popSlice items =>
      exact (pollPop_left hholds hf FillLeft.stable (pollPopSlice_counts waker items) h).reports
    | slicing items j =>
      have hj := ((reachable_waits hs).2.2 h.was_idle).unfinished _ hf
      exact (pollPop_left hholds hf FilledLeft.stable (pollPopSliceFuture_left waker hj) h).reports

theorem consumer_reports (hs : (ringThreads r).machine.Reachable s) {op : RingOp T W}
    (h : (ringThreads r).CallEnds .consumer op s t) : ConsumerReports s.mem t.mem op := by
  have hholds := (ringCalls_sound r).reachable hs
  cases op with
  | tryPop =>
    obtain ⟨n', k', -, ⟨value, -, hend⟩ | ⟨-, hend⟩⟩ := tryPop_ends hholds h
    · exact .inl ⟨value, hend.1, hend.taken⟩
    · exact .inr ⟨hend.1, hend.taken⟩
  | tryPopSlice items =>
    by_cases hne : items = []
    · subst hne
      have hend := tryPopSlice_nil_ends hholds h
      exact ⟨[], 0, le_rfl, hend.1, rfl, by rw [hend.taken, List.take_nil, List.append_nil]⟩
    · obtain ⟨n', k', front, -, hlen, hend⟩ := tryPopSlice_ends hholds hne h
      have hle : front.length ≤ items.length := hlen.trans_le (Nat.min_le_left _ _)
      refine ⟨_, front.length, hle, hend.1, ?_, by rw [hend.taken, List.take_left]⟩
      rw [List.length_append, List.length_drop, List.length_map]
      omega
  | pop => exact pop_created .pop hholds h
  | popSlice items => exact pop_created (.popSlice items) hholds h
  | pollPop waker => exact pollPop_reports hs h
  | _ => exact consumer_leaves hholds h (by simp) (by simp) (by simp)

end Consumer

end Ring

open Cynosure.SiteD.Ring

/-- In every interleaving, wraps of the indices included: first in, first out, within the
capacity, without touching a slot of the other side, and the destructor drops what is left. Each
call returns what it has pushed or popped. -/
theorem ringbuf_is_bounded_fifo (w : Nat) (r : RingBuf w) (T W : Type) [Waker W]
    (s : ThreadState (RingState w T W) RingSide PUnit.{1})
    (h : (ringThreads r).machine.Reachable s) :
    s.mem.taken ++ s.mem.stored r = s.mem.accepted.map some ∧
    (s.mem.stored r).length ≤ r.capacity.toNat ∧
    s.mem.clobbered = false ∧ s.mem.misread = false ∧
    (∀ items, s.mem.dropped = some items →
      items = s.mem.stored r ∧ s.mem.taken ++ items = s.mem.accepted.map some) ∧
    (s.mem.producerAlive = false → s.mem.consumerAlive = false →
      s.mem.dropped = some (s.mem.stored r)) ∧
    (∀ op t, (ringThreads r).CallEnds .producer op s t → ProducerReports s.mem t.mem op) ∧
    ∀ op t, (ringThreads r).CallEnds .consumer op s t → ConsumerReports s.mem t.mem op := by
  have hI : RingInv r s.mem := ((ringOutline_sound r).reachable h).1
  have hfifo : s.mem.taken ++ s.mem.stored r = s.mem.accepted.map some := by
    rw [hI.stored_eq, hI.fifo, List.length_map, List.length_take, min_eq_left hI.le,
      ← List.map_append, List.take_append_drop]
  have hdropped : ∀ items, s.mem.dropped = some items → items = s.mem.stored r := by
    intro items hd
    rw [(hI.freed items hd).2.2, hI.stored_eq]
  refine ⟨hfifo, ?_, hI.sound.1, hI.sound.2, fun items hd => ?_, fun hp hc => ?_,
    fun _ _ hcall => producer_reports h hcall, fun _ _ hcall => consumer_reports h hcall⟩
  · have := hI.bound
    rw [hI.stored_eq, List.length_map, List.length_drop]
    omega
  · have hitems := hdropped items hd
    exact ⟨hitems, hitems ▸ hfifo⟩
  · obtain ⟨items, hd⟩ := Option.ne_none_iff_exists'.mp (hI.frees hp hc)
    rw [hd, hdropped items hd]

/-- Two items go in, one comes out, and the other is still stored. -/
theorem ringbuf_fifo_after_two_pushes :
    ∃ s : ThreadState (RingState 8 Nat Waker.OfTask) RingSide PUnit.{1},
      (ringThreads ⟨2, 1, rfl⟩).machine.run (ringThreads ⟨2, 1, rfl⟩).machine.init
        (.call .producer (.tryPush 7) :: List.replicate 7 (.step .producer) ++
          .call .producer (.tryPush 9) :: List.replicate 7 (.step .producer) ++
          .call .consumer .tryPop :: List.replicate 8 (.step .consumer)) = some s ∧
      s.mem.taken = [some 7] ∧ [some 7] ++ s.mem.stored ⟨2, 1, rfl⟩ = [7, 9].map some := by
  refine Machine.exists_end (c := fun s => decide
    (s.mem.taken = [some 7] ∧ s.mem.accepted = [7, 9])) _ (by decide +kernel) ?_
  intro s hrun hs
  obtain ⟨htaken, haccepted⟩ := of_decide_eq_true hs
  have hfifo := (ringbuf_is_bounded_fifo 8 ⟨2, 1, rfl⟩ Nat Waker.OfTask s ⟨_, hrun⟩).1
  rw [htaken, haccepted] at hfifo
  exact ⟨htaken, hfifo⟩

end Cynosure.SiteD
