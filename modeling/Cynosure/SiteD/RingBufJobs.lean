import Cynosure.SiteD.RingBufCounted
import Cynosure.SiteD.RingBufWaits

/-! # The blocking calls of the ring buffer and what they move

`push_blocking`, `push_slice_blocking`, `pop_blocking` and `pop_slice_blocking` create a
future and poll it to its end. However often one is polled, it moves its own items, in
order, and is over when it has moved them all.
-/

namespace Cynosure.SiteD.Ring

open Prog

/-- `push_blocking` and `push_slice_blocking`. -/
inductive PushJob (T : Type) where
  | push (value : T)
  | pushSlice (items : List T)
  deriving DecidableEq, Repr

/-- `pop_blocking` and `pop_slice_blocking`. -/
inductive PopJob (T : Type) where
  | pop
  | popSlice (items : List T)
  deriving DecidableEq, Repr

variable {w : Nat} {T W : Type}

def PushJob.op : PushJob T → RingOp T W
  | .push value => .push value
  | .pushSlice items => .pushSlice items

def PopJob.op : PopJob T → RingOp T W
  | .pop => .pop
  | .popSlice items => .popSlice items

/-- The future that the call creates. -/
def PushJob.future : PushJob T → PushFuture T
  | .push value => .push value
  | .pushSlice items => .pushSlice items

def PopJob.future : PopJob T → PopFuture T
  | .pop => .pop
  | .popSlice items => .popSlice (items.map some)

def PushJob.items : PushJob T → List T
  | .push value => [value]
  | .pushSlice items => items

def PopJob.count : PopJob T → Nat
  | .pop => 1
  | .popSlice items => items.length

/-- The items that a call of the consumer hands out. -/
def outItems : Option (RingOut T) → List (Option T)
  | some (.item (some value)) => [value]
  | some (.slice items _) => items
  | _ => []

variable [Waker W] {r : RingBuf w} {s t : ThreadState (RingState w T W) RingSide PUnit}

section Push

variable {f : Option (PushFuture T)} {A : List T} {n k j : Nat} {value : T}

/-- How a poll of `PushFuture` leaves things. -/
def PushingLeft (r : RingBuf w) (value : T) (A : List T) (s : RingState w T W) : Prop :=
  (∃ o n' k', o.1 = none ∧ PushLeft r o (A ++ [value]) n' k' .done s) ∨
    ∃ o n', o.1 = some (.pushing value) ∧ PushLeft r o A n' 0 .pending s

omit [Waker W] in
theorem PushingLeft.stable :
    ((ringCalls r).contract .producer).Stable (PushingLeft (W := W) r value A) :=
  .or (.ex fun _ => .ex fun _ => .ex fun _ => .and (.const _) (PushLeft.stable _))
    (.ex fun _ => .ex fun _ => .and (.const _) (PushLeft.stable _))

theorem pollPushFuture_counts (waker : W) : (producerKnown r).Triple (Pushing r (f, j) A n k 0)
    (pollPushFuture r waker value) fun _ => PushingLeft r value A := by
  apply (tryPush_pushes value).bind
  rintro out s hs ⟨n₁, k₁, -, h⟩
  cases out with
  | ok =>
    refine (pushReady_pushes s hs h.2).mono fun _ _ _ h => ?_
    exact .inl ⟨_, n₁, _, rfl, h⟩
  | error v =>
    obtain ⟨rfl, rfl, h⟩ := h
    refine (pushZoom_triple (fun _ _ => ⟨by rfl, by rfl, by rfl, by rfl, by rfl⟩) _ s hs h).bind
      fun _ => ?_
    apply (tryPush_pushes v).bind
    rintro again s hs ⟨n₂, k₂, -, h⟩
    cases again with
    | ok =>
      refine (pushSame_triple (fun _ => ⟨by rfl, by rfl, by rfl, by rfl, by rfl⟩) s hs h.2).bind
        fun _ => ?_
      refine pushReady_pushes.conseq (fun _ _ h => h) fun _ _ _ h => ?_
      exact .inl ⟨_, n₂, _, rfl, h⟩
    | error v' =>
      obtain ⟨rfl, rfl, h⟩ := h
      refine (pushPending_pushes _ s hs h).mono fun _ _ _ h => ?_
      exact .inr ⟨_, n₂, rfl, h⟩

theorem pollPushOne_counts (waker : W) : (producerKnown r).Triple (Pushing r (f, j) A n k 0)
    (pollPush r waker (.push value)) fun _ => PushingLeft r value A := by
  apply (tryPush_pushes value).bind
  rintro out s hs ⟨n₁, k₁, -, h⟩
  cases out with
  | ok =>
    refine (pushReady_pushes s hs h.2).mono fun _ _ _ h => ?_
    exact .inl ⟨_, n₁, _, rfl, h⟩
  | error v =>
    obtain ⟨rfl, rfl, h⟩ := h
    exact pollPushFuture_counts waker s hs h

/-- A blocking call of the producer between its polls: `A` was in the ring when it began. -/
inductive PushHeld (A : List T) (s : RingState w T W) : PushJob T → Prop
  | single {value : T} (hf : s.pushFuture = some (.push value) ∨ s.pushFuture = some (.pushing value))
      (ha : s.accepted = A) : PushHeld A s (.push value)
  | slice {items} (h : SliceHeld items A s) (hf : s.pushFuture ≠ none) :
      PushHeld A s (.pushSlice items)
  | done {job : PushJob T} (hf : s.pushFuture = none) (ha : s.accepted = A ++ job.items) :
      PushHeld A s job

variable {job : PushJob T}

omit [Waker W] in
theorem PushHeld.le {s : RingState w T W} (h : PushHeld A s job) :
    s.accepted.length ≤ A.length + job.items.length := by
  cases h with
  | single hf ha =>
    rw [ha]
    exact Nat.le_add_right _ _
  | slice h hf =>
    cases h with
    | fresh _ ha =>
      rw [ha]
      exact Nat.le_add_right _ _
    | pending hj _ _ ha =>
      rw [ha, List.length_append, List.length_take, min_eq_left hj.le]
      exact Nat.add_le_add_left hj.le _
    | finished hnone => exact absurd hnone hf
  | done hf ha => rw [ha, List.length_append]

omit [Waker W] in
theorem PushHeld.over {s : RingState w T W} (h : PushHeld A s job) (hf : s.pushFuture = none) :
    s.accepted = A ++ job.items := by
  cases h with
  | single hsome => rcases hsome with hsome | hsome <;> simp [hsome] at hf
  | slice _ hsome => exact absurd hf hsome
  | done _ ha => exact ha

/-- It has been polled, and is over or pending. -/
structure PushPolled (A : List T) (s : RingState w T W) (job : PushJob T) : Prop where
  held : PushHeld A s job
  polled : s.pushFuture ≠ none → s.pushFuture.any PushFuture.polled = true

omit [Waker W] in
theorem PushPolled.of_done {s : RingState w T W} (hf : s.pushFuture = none)
    (ha : s.accepted = A ++ job.items) : PushPolled A s job :=
  ⟨.done hf ha, fun h => absurd hf h⟩

omit [Waker W] in
theorem PushingLeft.polled {s : RingState w T W} (h : PushingLeft r value A s) :
    PushPolled A s (.push value) := by
  obtain ⟨o, n', k', hnone, -, h⟩ | ⟨o, n', hsome, -, h⟩ := h
  · exact .of_done ((Prod.ext_iff.mp h.own).1.trans hnone) h.accepted
  · have hf : s.pushFuture = some (.pushing value) := (Prod.ext_iff.mp h.own).1.trans hsome
    exact ⟨.single (.inr hf) h.accepted, fun _ => by rw [hf]; rfl⟩

omit [Waker W] in
theorem SlicingLeft.polled {items : List T} {s : RingState w T W}
    (h : SlicingLeft r items A n s) : PushPolled A s (.pushSlice items) := by
  have hheld := h.held
  obtain ⟨j, n', -, -, -, -, hpush⟩ | ⟨j, n', k', -, -, hpush⟩ := h
  · have hf : s.pushFuture = some (.slicing items j) := (Prod.ext_iff.mp hpush.own).1
    exact ⟨.slice hheld (by simp [hf]), fun _ => by rw [hf]; rfl⟩
  · exact .of_done (Prod.ext_iff.mp hpush.own).1 hpush.accepted

theorem push_created (job : PushJob T) (hs : (ringCalls r).Holds s)
    (h : (ringThreads r).CallEnds .producer job.op s t) :
    t.mem.pushFuture = some job.future ∧ t.mem.accepted = s.mem.accepted := by
  refine pushFuture_created hs h (fun m => ?_) fun m f hf => ?_
  · cases job <;> rfl
  · cases job <;> simp [ringCall, hf, PushJob.op]

theorem push_creates (hs : (ringCalls r).Holds s)
    (h : (ringThreads r).CallEnds .producer job.op s t) :
    PushHeld s.mem.accepted t.mem job ∧ t.mem.pushFuture ≠ none := by
  obtain ⟨hf, ha⟩ := push_created job hs h
  cases job with
  | push value => exact ⟨.single (.inl hf) ha, by simp [hf]⟩
  | pushSlice items => exact ⟨.slice (.fresh hf ha) (by simp [hf]), by simp [hf]⟩

theorem push_polls (hs : (ringCalls r).Holds s) (hheld : PushHeld A s.mem job) {waker : W}
    (h : (ringThreads r).CallEnds .producer (.pollPush waker) s t) : PushPolled A t.mem job := by
  cases hheld with
  | single hf ha =>
    subst ha
    obtain hf | hf := hf
    · exact (pollPush_left hs hf PushingLeft.stable (pollPushOne_counts waker) h).polled
    · exact (pollPush_left hs hf PushingLeft.stable (pollPushFuture_counts waker) h).polled
  | slice hheld =>
    obtain ⟨-, -, ⟨n', k', -, -, hpush⟩ | hleft⟩ | ⟨-, hleft⟩ := pollPush_held hs hheld h
    · exact .of_done (Prod.ext_iff.mp hpush.own).1 hpush.accepted
    · exact hleft.2.polled
    · exact hleft.polled
  | done hf =>
    obtain ⟨c, hc⟩ := h.start
    change ringCall r .producer _ s.mem = some c at hc
    simp only [ringCall, hf, producerCall] at hc
    split at hc <;> cases hc

end Push

section Pop

variable {f : Option (PopFuture T)} {B : List (Option T)} {n k j : Nat}

/-- How a poll of `PopFuture` leaves things. -/
def PoppingLeft (r : RingBuf w) (B : List (Option T)) (s : RingState w T W) : Prop :=
  (∃ o n' k' value, o.1 = none ∧ PopLeft r o (B ++ [value]) n' k' (.item (some value)) s) ∨
    ∃ o n', o.1 = some .popping ∧ PopLeft r o B n' 0 .pending s

omit [Waker W] in
theorem PoppingLeft.stable :
    ((ringCalls r).contract .consumer).Stable (PoppingLeft (W := W) (T := T) r B) :=
  .or (.ex fun _ => .ex fun _ => .ex fun _ => .ex fun _ => .and (.const _) (PopLeft.stable _))
    (.ex fun _ => .ex fun _ => .and (.const _) (PopLeft.stable _))

theorem pollPopFuture_counts (waker : W) : (consumerKnown r).Triple (Popping r (f, j) B n k 0)
    (pollPopFuture r waker) fun _ => PoppingLeft r B := by
  apply tryPop_pops.bind
  rintro out s hs ⟨n₁, k₁, -, h⟩
  cases out with
  | some value =>
    refine (popReady_pops _ s hs h.2).mono fun _ _ _ h => ?_
    exact .inl ⟨_, n₁, _, value, rfl, h⟩
  | none =>
    obtain ⟨rfl, h⟩ := h
    refine (popZoom_triple (fun _ _ => ⟨by rfl, by rfl, by rfl, by rfl, by rfl⟩) _ s hs h).bind
      fun _ => ?_
    apply tryPop_pops.bind
    rintro again s hs ⟨n₂, k₂, -, h⟩
    cases again with
    | some value =>
      refine (popSame_triple (fun _ => ⟨by rfl, by rfl, by rfl, by rfl, by rfl⟩) s hs h.2).bind
        fun _ => ?_
      refine (popReady_pops _).conseq (fun _ _ h => h) fun _ _ _ h => ?_
      exact .inl ⟨_, n₂, _, value, rfl, h⟩
    | none =>
      obtain ⟨rfl, h⟩ := h
      refine (popPending_pops _ s hs h).mono fun _ _ _ h => ?_
      exact .inr ⟨_, n₂, rfl, h⟩

theorem pollPopOne_counts (waker : W) : (consumerKnown r).Triple (Popping r (f, j) B n k 0)
    (pollPop r waker .pop) fun _ => PoppingLeft r B := by
  apply tryPop_pops.bind
  rintro out s hs ⟨n₁, k₁, -, h⟩
  cases out with
  | some value =>
    refine (popReady_pops _ s hs h.2).mono fun _ _ _ h => ?_
    exact .inl ⟨_, n₁, _, value, rfl, h⟩
  | none =>
    obtain ⟨rfl, h⟩ := h
    exact pollPopFuture_counts waker s hs h

/-- A blocking call of the consumer between its polls: `B` was taken when it began. -/
inductive PopHeld (B : List (Option T)) (s : RingState w T W) : PopJob T → Prop
  | single (hf : s.popFuture = some .pop ∨ s.popFuture = some .popping) (ht : s.taken = B) :
      PopHeld B s .pop
  | slice {items} (h : FillHeld items.length B s) (hf : s.popFuture ≠ none) :
      PopHeld B s (.popSlice items)
  | done {job : PopJob T} (hf : s.popFuture = none) (hlen : (outItems s.consumerOut).length = job.count)
      (ht : s.taken = B ++ outItems s.consumerOut) : PopHeld B s job

variable {job : PopJob T}

omit [Waker W] in
theorem PopHeld.le {s : RingState w T W} (h : PopHeld B s job) :
    s.taken.length ≤ B.length + job.count := by
  cases h with
  | single hf ht =>
    rw [ht]
    exact Nat.le_add_right _ _
  | slice h hf =>
    cases h with
    | fresh _ _ ht =>
      rw [ht]
      exact Nat.le_add_right _ _
    | pending hlen hm _ _ ht =>
      rw [ht, List.length_append, List.length_take, hlen, min_eq_left hm.le]
      exact Nat.add_le_add_left hm.le _
    | finished hnone => exact absurd hnone hf
  | done hf hlen ht => rw [ht, List.length_append, hlen]

omit [Waker W] in
theorem PopHeld.over {s : RingState w T W} (h : PopHeld B s job) (hf : s.popFuture = none) :
    (outItems s.consumerOut).length = job.count ∧ s.taken = B ++ outItems s.consumerOut := by
  cases h with
  | single hsome => rcases hsome with hsome | hsome <;> simp [hsome] at hf
  | slice _ hsome => exact absurd hf hsome
  | done _ hlen ht => exact ⟨hlen, ht⟩

structure PopPolled (B : List (Option T)) (s : RingState w T W) (job : PopJob T) : Prop where
  held : PopHeld B s job
  polled : s.popFuture ≠ none → s.popFuture.any PopFuture.polled = true

omit [Waker W] in
theorem PopPolled.of_done {s : RingState w T W} {out : RingOut T} (hf : s.popFuture = none)
    (hout : s.consumerOut = some out) (hlen : (outItems (some out)).length = job.count)
    (ht : s.taken = B ++ outItems (some out)) : PopPolled B s job :=
  ⟨.done hf (by rw [hout, hlen]) (by rw [hout, ht]), fun h => absurd hf h⟩

omit [Waker W] in
theorem PoppingLeft.polled {s : RingState w T W} (h : PoppingLeft r B s) : PopPolled B s .pop := by
  obtain ⟨o, n', k', value, hnone, hout, h⟩ | ⟨o, n', hsome, -, h⟩ := h
  · exact .of_done ((Prod.ext_iff.mp h.own).1.trans hnone) hout rfl h.taken
  · have hf : s.popFuture = some .popping := (Prod.ext_iff.mp h.own).1.trans hsome
    exact ⟨.single (.inr hf) h.taken, fun _ => by rw [hf]; rfl⟩

omit [Waker W] in
theorem FillingLeft.polled {items : List T} {s : RingState w T W}
    (h : FillingLeft r items.length B n s) : PopPolled B s (.popSlice items) := by
  have hheld := h.held
  obtain ⟨slice, j, n', -, -, -, -, -, hpop⟩ | ⟨slice, j, n', k', hlen, -, hout, hpop⟩ := h
  · have hf : s.popFuture = some (.slicing slice j) := (Prod.ext_iff.mp hpop.own).1
    exact ⟨.slice hheld (by simp [hf]), fun _ => by rw [hf]; rfl⟩
  · exact .of_done (Prod.ext_iff.mp hpop.own).1 hout hlen hpop.taken

theorem pop_created (job : PopJob T) (hs : (ringCalls r).Holds s)
    (h : (ringThreads r).CallEnds .consumer job.op s t) :
    t.mem.popFuture = some job.future ∧ t.mem.taken = s.mem.taken := by
  refine popFuture_created hs h (fun m => ?_) fun m f hf => ?_
  · cases job <;> rfl
  · cases job <;> simp [ringCall, hf, PopJob.op]

theorem pop_creates (hs : (ringCalls r).Holds s)
    (h : (ringThreads r).CallEnds .consumer job.op s t) :
    PopHeld s.mem.taken t.mem job ∧ t.mem.popFuture ≠ none := by
  obtain ⟨hf, ht⟩ := pop_created job hs h
  cases job with
  | pop => exact ⟨.single (.inl hf) ht, by simp [hf]⟩
  | popSlice items => exact ⟨.slice (.fresh (List.length_map _) hf ht) (by simp [hf]), by simp [hf]⟩

theorem pop_polls (hs : (ringCalls r).Holds s) (hheld : PopHeld B s.mem job) {waker : W}
    (h : (ringThreads r).CallEnds .consumer (.pollPop waker) s t) : PopPolled B t.mem job := by
  cases hheld with
  | single hf ht =>
    subst ht
    obtain hf | hf := hf
    · exact (pollPop_left hs hf PoppingLeft.stable (pollPopOne_counts waker) h).polled
    · exact (pollPop_left hs hf PoppingLeft.stable (pollPopFuture_counts waker) h).polled
  | slice hheld =>
    obtain ⟨-, -, ⟨slice, n', k', hlen, -, hout, hpop⟩ | hleft⟩ | ⟨-, hleft⟩ :=
      pollPop_held hs hheld h
    · exact .of_done (Prod.ext_iff.mp hpop.own).1 hout hlen hpop.taken
    · exact hleft.2.polled
    · exact hleft.polled
  | done hf =>
    obtain ⟨c, hc⟩ := h.start
    change ringCall r .consumer _ s.mem = some c at hc
    simp only [ringCall, hf, consumerCall] at hc
    split at hc <;> cases hc

end Pop

end Cynosure.SiteD.Ring
