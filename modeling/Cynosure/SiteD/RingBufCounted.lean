import Cynosure.SiteD.RingBufCounts

/-! # The counters of `push_slice_counted` and `pop_slice_counted`

A poll that leaves its future pending has written the counter on its way out. A poll that
finishes inside `PushSliceFuture` or `PopSliceFuture` returns before it does: the counter
then still holds what an earlier step wrote. Only a transfer that its very first try
completes is counted in full.
-/

namespace Cynosure.SiteD.Ring

open Prog

variable {w : Nat} {T W : Type} [Waker W] {r : RingBuf w}

section Push

variable {o : Option (PushFuture T) × Nat} {f : Option (PushFuture T)} {A : List T} {n k j : Nat}
  {items : List T}

/-- A poll of the producer returned `out`, with the future and the counter `o`. -/
def PushLeft (r : RingBuf w) (o : Option (PushFuture T) × Nat) (A : List T) (n k : Nat)
    (out : RingOut T) (s : RingState w T W) : Prop :=
  s.producerOut = some out ∧ Pushing r o A n k 0 s

omit [Waker W] in
theorem PushLeft.stable (out : RingOut T) :
    ((ringCalls r).contract .producer).Stable (PushLeft (W := W) r o A n k out) := by
  rintro s t ht hst ⟨hout, h⟩
  exact ⟨(show ProducerOwn s t from hst.2).out.trans hout,
    Contract.Stable.of_known Pushing.stable s t ht hst h⟩

omit [Waker W] in
theorem setPushed_pushes (m : Nat) : (producerKnown (W := W) r).Triple (Pushing r (f, j) A n k 0)
    (setPushed m) fun _ => Pushing r (f, m) A n k 0 := by
  refine .store Pushing.stable (fun _ => Pushing.stable) fun s _ h => ?_
  exact Contract.known_keeps fun _ => ⟨h.alive, congrArg (fun o => (o.1, m)) h.own, h.accepted,
    h.taken, h.write, h.cached⟩

omit [Waker W] in
theorem pushReady_pushes : (producerKnown (W := W) r).Triple (Pushing r (f, j) A n k 0) pushReady
    fun _ => PushLeft r (none, j) A n k .done := by
  refine .store Pushing.stable (fun _ => .of_base (PushLeft.stable _)) fun s _ h => ?_
  exact Contract.known_keeps fun _ => ⟨rfl, h.alive, congrArg (fun o => (none, o.2)) h.own,
    h.accepted, h.taken, h.write, h.cached⟩

omit [Waker W] in
theorem pushPending_pushes (future : PushFuture T) : (producerKnown (W := W) r).Triple
    (Pushing r (f, j) A n k 0) (pushPending future)
      fun _ => PushLeft r (some future, j) A n k .pending := by
  refine .store Pushing.stable (fun _ => .of_base (PushLeft.stable _)) fun s _ h => ?_
  exact Contract.known_keeps fun _ => ⟨rfl, h.alive, congrArg (fun o => (some future, o.2)) h.own,
    h.accepted, h.taken, h.write, h.cached⟩

omit [Waker W] in
theorem tryPushedSlice_drop {m : Nat} {s : RingState w T W} (hj : j < items.length)
    (h : TryPushedSlice r o A n k (items.drop j) m s) :
    ∃ n' k', Looked r A n k n' k' ∧ m = min (items.length - j) k' ∧
      Pushing r o (A ++ (items.drop j).take m) n' (k' - m) 0 s := by
  have hne : items.drop j ≠ [] := by simpa using hj
  rw [TryPushedSlice, if_neg hne, List.length_drop] at h
  exact h

/-- How a poll of `PushSliceFuture` leaves things that began with `A` in the ring, the counter at
`c` and `j` items of the slice behind it: pending behind a full ring with the counter right, or
finished with a counter that stayed behind. -/
def SlicedLeft (r : RingBuf w) (items : List T) (j c : Nat) (A : List T) (n : Nat)
    (s : RingState w T W) : Prop :=
  (∃ m n', j + m < items.length ∧ n ≤ n' ∧ A.length + m = n' + r.capacity.toNat ∧
    PushLeft r (some (.slicing items (j + m)), j + m) (A ++ (items.drop j).take m) n' 0 .pending s) ∨
  ∃ c' n' k, (c' = c ∨ c' < items.length) ∧ PushLeft r (none, c') (A ++ items.drop j) n' k .done s

omit [Waker W] in
theorem SlicedLeft.stable {c : Nat} :
    ((ringCalls r).contract .producer).Stable (SlicedLeft (W := W) r items j c A n) :=
  .or (.ex fun _ => .ex fun _ => .and (.const _) (.and (.const _) (.and (.const _) (PushLeft.stable _))))
    (.ex fun _ => .ex fun _ => .ex fun _ => .and (.const _) (PushLeft.stable _))

theorem pollPushSliceFuture_left {c : Nat} (waker : W) (hj : j < items.length) :
    (producerKnown r).Triple (Pushing r (f, c) A n k 0)
      (pollPushSliceFuture r waker items j) fun _ => SlicedLeft r items j c A n := by
  apply (tryPushSlice_pushes (items.drop j)).bind
  intro pushed s hs hfirst
  obtain ⟨n₁, k₁, hlook₁, hpushed, h₁⟩ := tryPushedSlice_drop hj hfirst
  have hn₁ : n ≤ n₁ := by
    rw [Looked] at hlook₁
    split at hlook₁ <;> omega
  split
  · rename_i hdone
    rw [List.take_of_length_le (by rw [List.length_drop]; omega)] at h₁
    refine (pushReady_pushes s hs h₁).mono fun _ _ _ h => ?_
    exact .inr ⟨c, n₁, _, .inl rfl, h⟩
  · -- the first try has used up the room, so the second one looks
    have hlt : j + pushed < items.length := by omega
    have hroom : k₁ - pushed = 0 := by omega
    rw [hroom] at h₁
    refine (setPushed_pushes (j + pushed) s hs h₁).bind fun _ => ?_
    apply (pushZoom_triple (fun _ _ => ⟨by rfl, by rfl, by rfl, by rfl, by rfl⟩) _).bind
    intro _
    apply (tryPushSlice_pushes (items.drop (j + pushed))).bind
    intro again s hs hsecond
    obtain ⟨n₂, k₂, hlook₂, hagain, h₂⟩ := tryPushedSlice_drop hlt hsecond
    have hlen : ((items.drop j).take pushed).length = pushed := by
      rw [List.length_take, List.length_drop]
      omega
    rw [Looked, if_pos rfl, List.length_append, hlen] at hlook₂
    rw [List.append_assoc, ← List.drop_drop, ← List.take_add] at h₂
    split
    · rename_i hdone
      rw [List.take_of_length_le (by rw [List.length_drop]; omega)] at h₂
      refine (pushSame_triple (fun _ => ⟨by rfl, by rfl, by rfl, by rfl, by rfl⟩) s hs h₂).bind
        fun _ => ?_
      refine pushReady_pushes.conseq (fun _ _ h => h) fun _ _ _ h => ?_
      exact .inr ⟨j + pushed, n₂, _, .inr hlt, h⟩
    · have hroom : k₂ - again = 0 := by omega
      rw [hroom] at h₂
      refine (setPushed_pushes (j + pushed + again) s hs h₂).bind fun _ => ?_
      refine (pushPending_pushes _).conseq (fun _ _ h => h) fun _ _ _ h => ?_
      rw [Nat.add_assoc] at h
      exact .inl ⟨pushed + again, n₂, by omega, by omega, by omega, h⟩

/-- The same of a transfer that began with `A` in the ring. -/
def SlicingLeft (r : RingBuf w) (items A : List T) (n : Nat) (s : RingState w T W) : Prop :=
  (∃ j n', j < items.length ∧ n ≤ n' ∧ A.length + j = n' + r.capacity.toNat ∧
    PushLeft r (some (.slicing items j), j) (A ++ items.take j) n' 0 .pending s) ∨
  ∃ j n' k, j < items.length ∧ PushLeft r (none, j) (A ++ items) n' k .done s

omit [Waker W] in
theorem SlicingLeft.stable :
    ((ringCalls r).contract .producer).Stable (SlicingLeft (W := W) r items A n) :=
  .or (.ex fun _ => .ex fun _ => .and (.const _) (.and (.const _) (.and (.const _) (PushLeft.stable _))))
    (.ex fun _ => .ex fun _ => .ex fun _ => .and (.const _) (PushLeft.stable _))

theorem pollPushSliceFuture_counts (waker : W) (hj : j < items.length) :
    (producerKnown r).Triple (Pushing r (f, j) (A ++ items.take j) n k 0)
      (pollPushSliceFuture r waker items j) fun _ => SlicingLeft r items A n := by
  refine (pollPushSliceFuture_left waker hj).conseq (fun _ _ h => h) fun _ s _ h => ?_
  obtain ⟨m, n', hlt, hn', hfull, hleft⟩ | ⟨c', n', k', hc', hleft⟩ := h
  · rw [List.append_assoc, ← List.take_add] at hleft
    rw [List.length_append, List.length_take, min_eq_left hj.le] at hfull
    exact .inl ⟨j + m, n', hlt, hn', by omega, hleft⟩
  · rw [List.append_assoc, List.take_append_drop] at hleft
    exact .inr ⟨c', n', k', by omega, hleft⟩

/-- The first poll may also finish at once, and then the counter is right. -/
def SliceLeft (r : RingBuf w) (items A : List T) (n k : Nat) (s : RingState w T W) : Prop :=
  (∃ n' k', (items = [] ∨ Looked r A n k n' k' ∧ items.length ≤ k') ∧
    PushLeft r (none, items.length) (A ++ items) n' (k' - items.length) .done s) ∨
  (∃ n' k', Looked r A n k n' k' ∧ k' < items.length) ∧ SlicingLeft r items A n s

omit [Waker W] in
theorem SliceLeft.stable :
    ((ringCalls r).contract .producer).Stable (SliceLeft (W := W) r items A n k) :=
  .or (.ex fun _ => .ex fun _ => .and (.const _) (PushLeft.stable _))
    (.and (.const _) SlicingLeft.stable)

theorem pollPushSlice_counts (waker : W) (items : List T) :
    (producerKnown r).Triple (Pushing r (f, j) A n k 0) (pollPush r waker (.pushSlice items))
      fun _ => SliceLeft r items A n k := by
  rw [pollPush]
  split
  · rename_i hempty
    obtain rfl := List.isEmpty_iff.mp hempty
    apply (setPushed_pushes 0).bind
    intro _
    refine pushReady_pushes.conseq (fun _ _ h => h) fun _ _ _ h => ?_
    exact .inl ⟨n, k, .inl rfl, by simpa using h⟩
  · rename_i hne
    apply (tryPushSlice_pushes items).bind
    intro m s hs hfirst
    rw [TryPushedSlice, if_neg fun h => hne (List.isEmpty_iff.mpr h)] at hfirst
    obtain ⟨n', k', hlook, hm, h⟩ := hfirst
    refine (setPushed_pushes m s hs h).bind fun _ => ?_
    split
    · rename_i hdone
      subst hdone
      refine pushReady_pushes.conseq (fun _ _ h => h) fun _ _ _ h => ?_
      rw [List.take_length] at h
      exact .inl ⟨n', k', .inr ⟨hlook, by omega⟩, h⟩
    · have hn' : n ≤ n' := by
        rw [Looked] at hlook
        split at hlook <;> omega
      refine (pollPushSliceFuture_counts waker (by omega)).conseq (fun _ _ h => h) fun _ _ _ h => ?_
      refine .inr ⟨⟨n', k', hlook, by omega⟩, h.imp ?_ id⟩
      rintro ⟨j, n'', hj, hn'', hfull, hleft⟩
      exact ⟨j, n'', hj, hn'.trans hn'', hfull, hleft⟩

omit [Waker W] in
theorem SliceLeft.pushSlice_or {s : RingState w T W} (h : SliceLeft r items A n k s) :
    (s.pushFuture = none ∧ s.pushed = items.length ∧ s.accepted = A ++ items ∧
      ∃ n' k', (items = [] ∨ Looked r A n k n' k' ∧ items.length ≤ k') ∧ n' ≤ s.taken.length) ∨
    (∃ n' k', Looked r A n k n' k' ∧ k' < items.length) ∧ SlicingLeft r items A n s := by
  refine h.imp_left ?_
  rintro ⟨n', k', hlook, hout, hpush⟩
  obtain ⟨hf, hp⟩ := Prod.ext_iff.mp hpush.own
  exact ⟨hf, hp, hpush.accepted, n', k', hlook, hpush.taken⟩

/-- The room that the first try of a poll sees, unless the consumer makes more. -/
def firstRoom (r : RingBuf w) (s : RingState w T W) : Nat :=
  if cachedRoom r s = 0 then r.capacity.toNat - (s.producer.cachedWrite - s.readIndex).toNat
  else cachedRoom r s

/-- The room freed by the end of a poll from `s` to `t` is too small for the `rest` of the slice. -/
def NoRoomFor (r : RingBuf w) (rest : Nat) (s t : RingState w T W) : Prop :=
  t.taken.length + r.capacity.toNat < s.accepted.length + rest

/-- The poll does not finish inside `PushSliceFuture`: the first try of the first poll has room for
the whole slice, or there is not enough to the end. -/
def PushCounted (r : RingBuf w) (s t : RingState w T W) : Prop :=
  match s.pushFuture with
  | some (.pushSlice items) => items.length ≤ firstRoom r s ∨ NoRoomFor r items.length s t
  | some (.slicing items pushedSoFar) => NoRoomFor r (items.length - pushedSoFar) s t
  | _ => True

/-- The counter tells what is in the ring of a transfer that began with `A` in it. -/
structure PushReported (items A : List T) (t : RingState w T W) : Prop where
  le : t.pushed ≤ items.length
  accepted : t.accepted = A ++ items.take t.pushed
  done : t.pushFuture = none → t.pushed = items.length

/-- The future of `push_slice_counted` between its polls. -/
inductive SliceHeld (items A : List T) (s : RingState w T W) : Prop
  | fresh (hf : s.pushFuture = some (.pushSlice items)) (ha : s.accepted = A)
  | pending {j : Nat} (hj : j < items.length) (hf : s.pushFuture = some (.slicing items j))
      (hp : s.pushed = j) (ha : s.accepted = A ++ items.take j)
  | finished (hf : s.pushFuture = none)

omit [Waker W] in
theorem SlicingLeft.held {s : RingState w T W} (h : SlicingLeft r items A n s) : SliceHeld items A s := by
  obtain ⟨j, n', hj, -, -, hout, hpush⟩ | ⟨j, n', k', hj, hout, hpush⟩ := h
  · obtain ⟨hf, hp⟩ := Prod.ext_iff.mp hpush.own
    exact .pending hj hf hp hpush.accepted
  · exact .finished (Prod.ext_iff.mp hpush.own).1

omit [Waker W] in
theorem SliceLeft.held {s : RingState w T W} (h : SliceLeft r items A n k s) : SliceHeld items A s := by
  obtain ⟨n', k', -, -, hpush⟩ | h := h
  · exact .finished (Prod.ext_iff.mp hpush.own).1
  · exact h.2.held

omit [Waker W] in
theorem SlicingLeft.reported {s : RingState w T W} (h : SlicingLeft r items A n s) (hI : RingInv r s)
    (hroom : s.taken.length + r.capacity.toNat < A.length + items.length) :
    PushReported items A s := by
  obtain ⟨j, n', hj, -, -, hout, hpush⟩ | ⟨j, n', k', hj, hout, hpush⟩ := h
  · obtain ⟨hf, hp⟩ : s.pushFuture = some (.slicing items j) ∧ s.pushed = j := Prod.ext_iff.mp hpush.own
    refine ⟨by omega, by rw [hp]; exact hpush.accepted, fun hdone => ?_⟩
    rw [hf] at hdone
    cases hdone
  · have hbound := hI.bound
    rw [hpush.accepted, List.length_append] at hbound
    omega

omit [Waker W] in
theorem SlicingLeft.noRoom {s : RingState w T W} (h : SlicingLeft r items A n s)
    (hstill : s.taken.length ≤ n) (hrep : PushReported items A s) :
    s.taken.length + r.capacity.toNat < A.length + items.length := by
  obtain ⟨j, n', hj, hn', hfull, -, -⟩ | ⟨j, n', k', hj, hout, hpush⟩ := h
  · omega
  · obtain ⟨hf, hp⟩ : s.pushFuture = none ∧ s.pushed = j := Prod.ext_iff.mp hpush.own
    have := hrep.done hf
    omega

variable {s t : ThreadState (RingState w T W) RingSide PUnit}

theorem pushing_at_call (hs : (ringCalls r).Holds s) {op : RingOp T W}
    (h : (ringThreads r).CallEnds .producer op s t) :
    Pushing r (s.mem.pushFuture, s.mem.pushed) s.mem.accepted s.mem.taken.length (cachedRoom r s.mem) 0
      s.mem := by
  obtain ⟨c, hc⟩ := h.start
  change ringCall r .producer op s.mem = some c at hc
  have hrest := hs.2 .producer
  rw [h.was_idle] at hrest
  simp only [ringCall] at hc
  split at hc
  · rename_i halive
    exact Pushing.of_rest (hrest.1 halive) hs.1.1
  · cases hc

omit [Waker W] in
theorem looked_firstRoom {s : RingState w T W}
    (h : Pushing r o s.accepted s.taken.length (cachedRoom r s) 0 s) (hI : RingInv r s) {n' k' : Nat}
    (hlook : Looked r s.accepted s.taken.length (cachedRoom r s) n' k') :
    firstRoom r s ≤ k' ∧ (n' ≤ s.taken.length → k' ≤ firstRoom r s) := by
  rw [Looked] at hlook
  rw [firstRoom]
  split
  · rename_i hzero
    rw [if_pos hzero] at hlook
    obtain ⟨k'', -, hk'', h''⟩ := h.reload hI
    have hspace : r.capacity.toNat - (s.producer.cachedWrite - s.readIndex).toNat = k'' := h''.space
    omega
  · rename_i hpos
    rw [if_neg hpos] at hlook
    omega

theorem pollPush_left (hs : (ringCalls r).Holds s) {waker : W} {future : PushFuture T}
    (hf : s.mem.pushFuture = some future) {Q : RingState w T W → Prop}
    (hQ : ((ringCalls r).contract .producer).Stable Q)
    (hp : (producerKnown r).Triple (Pushing r (some future, s.mem.pushed) s.mem.accepted
      s.mem.taken.length (cachedRoom r s.mem) 0) (pollPush r waker future) fun _ => Q)
    (h : (ringThreads r).CallEnds .producer (.pollPush waker) s t) : Q t.mem := by
  refine producer_starts_returns
    (m := { s.mem with producerSlot := s.mem.producerSlot.beginPoll waker })
    (p := pollPush r waker future) hs (fun c hc => ?_) (by constructor <;> rfl) hQ ?_ h
  · simp only [ringCall, hf] at hc
    split at hc
    · rw [← Option.some.inj hc]
      simp only [hf]
    · cases hc
  · rw [hf]
    exact hp

theorem pollPush_held (hs : (ringCalls r).Holds s) (hheld : SliceHeld items A s.mem) {waker : W}
    (h : (ringThreads r).CallEnds .producer (.pollPush waker) s t) :
    s.mem.pushFuture = some (.pushSlice items) ∧ s.mem.accepted = A ∧
      SliceLeft r items A s.mem.taken.length (cachedRoom r s.mem) t.mem ∨
    (∃ j < items.length, s.mem.pushFuture = some (.slicing items j) ∧
      s.mem.accepted = A ++ items.take j) ∧ SlicingLeft r items A s.mem.taken.length t.mem := by
  cases hheld with
  | fresh hf ha =>
    subst ha
    exact .inl ⟨hf, rfl, pollPush_left hs hf SliceLeft.stable (pollPushSlice_counts waker items) h⟩
  | pending hj hf hp ha =>
    refine .inr ⟨⟨_, hj, hf, ha⟩, pollPush_left hs hf SlicingLeft.stable ?_ h⟩
    rw [ha, hp]
    exact pollPushSliceFuture_counts waker hj
  | finished hf =>
    obtain ⟨c, hc⟩ := h.start
    change ringCall r .producer _ s.mem = some c at hc
    simp only [ringCall, hf, producerCall] at hc
    split at hc <;> cases hc

/-- A call that only makes a future, if none is there. -/
theorem pushFuture_created {op : RingOp T W} {future : PushFuture T} (hs : (ringCalls r).Holds s)
    (h : (ringThreads r).CallEnds .producer op s t)
    (hop : ∀ m, producerCall r m op = some ({ m with pushFuture := some future }, pure ⟨⟩))
    (hbusy : ∀ m f, m.pushFuture = some f → ringCall r .producer op m = none) :
    t.mem.pushFuture = some future ∧ t.mem.accepted = s.mem.accepted := by
  have hpush := producer_future_returns (m := { s.mem with pushFuture := some future }) hs
    (fun c hc => ?_) (by constructor <;> rfl) h
  · exact ⟨(Prod.ext_iff.mp hpush.own).1, hpush.accepted⟩
  · cases hf : s.mem.pushFuture with
    | none =>
      simp only [ringCall, hf, hop] at hc
      split at hc
      · exact (Option.some.inj hc).symm
      · cases hc
    | some f => cases (hbusy _ f hf).symm.trans hc

/-- The whole life of a future of `push_slice_counted`, from the call on. -/
inductive PushSliceRun (r : RingBuf w) (items : List T) (s : ThreadState (RingState w T W) RingSide PUnit) :
    ThreadState (RingState w T W) RingSide PUnit → Prop
  | create {u} (h : (ringThreads r).CallEnds .producer (.pushSlice items) s u) : PushSliceRun r items s u
  | poll {u v waker} (h : PushSliceRun r items s u)
      (h' : (ringThreads r).CallEnds .producer (.pollPush waker) u v) : PushSliceRun r items s v

theorem PushSliceRun.held (hs : (ringCalls r).Holds s) (h : PushSliceRun r items s t) :
    (ringCalls r).Holds t ∧ SliceHeld items s.mem.accepted t.mem := by
  induction h with
  | create h =>
    obtain ⟨hf, ha⟩ := pushFuture_created hs h (fun _ => rfl) fun m f hf => by simp [ringCall, hf]
    exact ⟨(ringCalls_sound r).callEnds_holds hs h, .fresh hf ha⟩
  | poll h h' ih =>
    obtain ⟨ht, hheld⟩ := ih
    refine ⟨(ringCalls_sound r).callEnds_holds ht h', ?_⟩
    obtain ⟨-, -, hleft⟩ | ⟨-, hleft⟩ := pollPush_held ht hheld h'
    · exact hleft.held
    · exact hleft.held

theorem pushSlice_reports (hs : (ringCalls r).Holds s) (hheld : SliceHeld items A s.mem) {waker : W}
    (h : (ringThreads r).CallEnds .producer (.pollPush waker) s t)
    (hcounted : PushCounted r s.mem t.mem) : PushReported items A t.mem := by
  have ht := (ringCalls_sound r).callEnds_holds hs h
  obtain ⟨hf, rfl, hleft⟩ | ⟨⟨j, hj, hf, ha⟩, hleft⟩ := pollPush_held hs hheld h
  · simp only [PushCounted, hf] at hcounted
    obtain ⟨-, hp, hacc, -⟩ | ⟨⟨n', k', hlook, hlt⟩, hslicing⟩ := hleft.pushSlice_or
    · exact ⟨hp.le, by rw [hp, List.take_length]; exact hacc, fun _ => hp⟩
    · obtain hfirst | hroom := hcounted
      · have := (looked_firstRoom (pushing_at_call hs h) hs.1.1 hlook).1
        omega
      · exact hslicing.reported ht.1.1 hroom
  · simp only [PushCounted, hf, NoRoomFor] at hcounted
    refine hleft.reported ht.1.1 ?_
    rw [ha, List.length_append, List.length_take, min_eq_left hj.le] at hcounted
    omega

theorem pushCounted_of_reports (hs : (ringCalls r).Holds s) (hheld : SliceHeld items A s.mem)
    {waker : W} (h : (ringThreads r).CallEnds .producer (.pollPush waker) s t)
    (hstill : t.mem.taken.length = s.mem.taken.length) (hrep : PushReported items A t.mem) :
    PushCounted r s.mem t.mem := by
  obtain ⟨hf, rfl, hleft⟩ | ⟨⟨j, hj, hf, ha⟩, hleft⟩ := pollPush_held hs hheld h
  · simp only [PushCounted, hf]
    obtain ⟨-, -, -, n', k', hnil | ⟨hlook, hle⟩, hn'⟩ | ⟨-, hslicing⟩ := hleft.pushSlice_or
    · exact .inl (by simp [hnil])
    · have := (looked_firstRoom (pushing_at_call hs h) hs.1.1 hlook).2 (by omega)
      exact .inl (by omega)
    · exact .inr (hslicing.noRoom hstill.le hrep)
  · simp only [PushCounted, hf, NoRoomFor]
    have := hleft.noRoom hstill.le hrep
    rw [ha, List.length_append, List.length_take, min_eq_left hj.le]
    omega

theorem cancelPush_keeps_count (hs : (ringCalls r).Holds s)
    (h : (ringThreads r).CallEnds .producer .cancelPush s t) :
    t.mem.pushed = s.mem.pushed ∧ t.mem.accepted = s.mem.accepted := by
  have hpush := producer_future_returns
    (m := { s.mem with pushFuture := none, producerSlot := s.mem.producerSlot.leave }) hs
    (fun c hc => ?_) (by constructor <;> rfl) h
  · exact ⟨(Prod.ext_iff.mp hpush.own).2, hpush.accepted⟩
  · cases hf : s.mem.pushFuture with
    | none => simp [ringCall, hf, producerCall] at hc
    | some future =>
      simp only [ringCall, hf] at hc
      split at hc
      · exact (Option.some.inj hc).symm
      · cases hc

end Push

section Pop

variable {o : Option (PopFuture T) × Nat} {f : Option (PopFuture T)} {B : List (Option T)}
  {n k j : Nat} {items : List (Option T)}

def PopLeft (r : RingBuf w) (o : Option (PopFuture T) × Nat) (B : List (Option T)) (n k : Nat)
    (out : RingOut T) (s : RingState w T W) : Prop :=
  s.consumerOut = some out ∧ Popping r o B n k 0 s

omit [Waker W] in
theorem PopLeft.stable (out : RingOut T) :
    ((ringCalls r).contract .consumer).Stable (PopLeft (W := W) r o B n k out) := by
  rintro s t ht hst ⟨hout, h⟩
  exact ⟨(show ConsumerOwn s t from hst.2).out.trans hout,
    Contract.Stable.of_known Popping.stable s t ht hst h⟩

omit [Waker W] in
theorem setPopped_pops (m : Nat) : (consumerKnown (W := W) r).Triple (Popping r (f, j) B n k 0)
    (setPopped m) fun _ => Popping r (f, m) B n k 0 := by
  refine .store Popping.stable (fun _ => Popping.stable) fun s _ h => ?_
  exact Contract.known_keeps fun _ => ⟨h.alive, congrArg (fun o => (o.1, m)) h.own, h.taken,
    h.accepted, h.read, h.cached, h.le_capacity⟩

omit [Waker W] in
theorem popReady_pops (out : RingOut T) : (consumerKnown (W := W) r).Triple
    (Popping r (f, j) B n k 0) (popReady out) fun _ => PopLeft r (none, j) B n k out := by
  refine .store Popping.stable (fun _ => .of_base (PopLeft.stable _)) fun s _ h => ?_
  exact Contract.known_keeps fun _ => ⟨rfl, h.alive, congrArg (fun o => (none, o.2)) h.own,
    h.taken, h.accepted, h.read, h.cached, h.le_capacity⟩

omit [Waker W] in
theorem popPending_pops (future : PopFuture T) : (consumerKnown (W := W) r).Triple
    (Popping r (f, j) B n k 0) (popPending future)
      fun _ => PopLeft r (some future, j) B n k .pending := by
  refine .store Popping.stable (fun _ => .of_base (PopLeft.stable _)) fun s _ h => ?_
  exact Contract.known_keeps fun _ => ⟨rfl, h.alive, congrArg (fun o => (some future, o.2)) h.own,
    h.taken, h.accepted, h.read, h.cached, h.le_capacity⟩

omit [Waker W] in
theorem tryPoppedSlice_drop {m : Nat} {rest : List (Option T)} {s : RingState w T W}
    (hj : j < items.length) (h : TryPoppedSlice r o B n k (items.drop j) (m, rest) s) :
    ∃ n' k', Saw B n k n' k' ∧ m = min (items.length - j) k' ∧
      (items.take j ++ rest).length = items.length ∧
      (items.take j ++ rest).take j = items.take j ∧
      Popping r o (B ++ ((items.take j ++ rest).drop j).take m) n' (k' - m) 0 s := by
  have hne : items.drop j ≠ [] := by simpa using hj
  rw [TryPoppedSlice, if_neg hne, List.length_drop] at h
  obtain ⟨n', k', front, hsaw, hm, hlen, hrest, h⟩ := h
  dsimp only at hm hlen hrest h
  have htake : (items.take j).length = j := by rw [List.length_take, min_eq_left hj.le]
  refine ⟨n', k', hsaw, hm, ?_, List.take_left' htake, ?_⟩
  · rw [hrest, List.length_append, htake, List.length_append, List.length_drop, List.length_drop]
    omega
  · rw [List.drop_left' htake, hrest, List.take_left' hlen]
    exact h

/-- How a poll of `PopSliceFuture` leaves things that began with `B` taken, the counter at `c` and
the first `j` places of the slice filled. -/
def FilledLeft (r : RingBuf w) (items : List (Option T)) (j c : Nat) (B : List (Option T)) (n : Nat)
    (s : RingState w T W) : Prop :=
  (∃ full m n', full.length = items.length ∧ full.take j = items.take j ∧ j + m < items.length ∧
    n ≤ n' ∧ B.length + m = n' ∧
    PopLeft r (some (.slicing full (j + m)), j + m) (B ++ (full.drop j).take m) n' 0 .pending s) ∨
  ∃ full c' n' k, full.length = items.length ∧ full.take j = items.take j ∧
    (c' = c ∨ c' < items.length) ∧
    PopLeft r (none, c') (B ++ full.drop j) n' k (.slice full items.length) s

omit [Waker W] in
theorem FilledLeft.stable {c : Nat} :
    ((ringCalls r).contract .consumer).Stable (FilledLeft (W := W) r items j c B n) :=
  .or (.ex fun _ => .ex fun _ => .ex fun _ => .and (.const _) (.and (.const _) (.and (.const _)
      (.and (.const _) (.and (.const _) (PopLeft.stable _))))))
    (.ex fun _ => .ex fun _ => .ex fun _ => .ex fun _ =>
      .and (.const _) (.and (.const _) (.and (.const _) (PopLeft.stable _))))

theorem pollPopSliceFuture_left {c : Nat} (waker : W) (hj : j < items.length) :
    (consumerKnown r).Triple (Popping r (f, c) B n k 0)
      (pollPopSliceFuture r waker items j) fun _ => FilledLeft r items j c B n := by
  apply (tryPopSlice_pops (items.drop j)).bind
  rintro ⟨popped, rest⟩ s hs hfirst
  obtain ⟨n₁, k₁, hsaw₁, hpopped, hlen₁, hkept₁, h₁⟩ := tryPoppedSlice_drop hj hfirst
  have hn₁ : n ≤ n₁ := by
    rw [Saw] at hsaw₁
    split at hsaw₁ <;> omega
  dsimp only
  generalize items.take j ++ rest = filled at hlen₁ hkept₁ h₁ ⊢
  split
  · rename_i hdone
    rw [List.take_of_length_le (by rw [List.length_drop]; omega)] at h₁
    refine (popReady_pops _ s hs h₁).mono fun _ _ _ h => ?_
    rw [hdone.2] at h
    exact .inr ⟨filled, c, n₁, _, hlen₁, hkept₁, .inl rfl, h⟩
  · have hlt : j + popped < filled.length := by omega
    have hitems : k₁ - popped = 0 := by omega
    rw [hitems] at h₁
    refine (setPopped_pops (j + popped) s hs h₁).bind fun _ => ?_
    apply (popZoom_triple (fun _ _ => ⟨by rfl, by rfl, by rfl, by rfl, by rfl⟩) _).bind
    intro _
    apply (tryPopSlice_pops (filled.drop (j + popped))).bind
    rintro ⟨again, rest⟩ s hs hsecond
    obtain ⟨n₂, k₂, hsaw₂, hagain, hlen₂, hkept₂, h₂⟩ := tryPoppedSlice_drop hlt hsecond
    have hlen : ((filled.drop j).take popped).length = popped := by
      rw [List.length_take, List.length_drop]
      omega
    rw [Saw, if_pos rfl, List.length_append, hlen] at hsaw₂
    dsimp only
    generalize filled.take (j + popped) ++ rest = full at hlen₂ hkept₂ h₂ ⊢
    -- what the first try filled in is still there
    have hkept : full.take j = items.take j := by
      have := congrArg (List.take j) hkept₂
      rwa [List.take_take, List.take_take, min_eq_left (Nat.le_add_right _ _), hkept₁] at this
    have hfront : (filled.drop j).take popped = (full.drop j).take popped := by
      rw [List.take_drop, List.take_drop, hkept₂]
    rw [hfront, List.append_assoc, ← List.drop_drop, ← List.take_add] at h₂
    split
    · rename_i hdone
      rw [List.take_of_length_le (by rw [List.length_drop]; omega)] at h₂
      refine (popSame_triple (fun _ => ⟨by rfl, by rfl, by rfl, by rfl, by rfl⟩) s hs h₂).bind
        fun _ => ?_
      refine (popReady_pops _).conseq (fun _ _ h => h) fun _ _ _ h => ?_
      rw [hdone.2] at h
      exact .inr ⟨full, j + popped, n₂, _, hlen₂.trans hlen₁, hkept, .inr (by omega), h⟩
    · have hitems : k₂ - again = 0 := by omega
      rw [hitems] at h₂
      refine (setPopped_pops (j + popped + again) s hs h₂).bind fun _ => ?_
      refine (popPending_pops _).conseq (fun _ _ h => h) fun _ _ _ h => ?_
      rw [Nat.add_assoc] at h
      exact .inl ⟨full, popped + again, n₂, hlen₂.trans hlen₁, hkept, by omega, by omega, by omega, h⟩

/-- The same of a slice of `len` places and a transfer that began with `B` taken. -/
def FillingLeft (r : RingBuf w) (len : Nat) (B : List (Option T)) (n : Nat) (s : RingState w T W) :
    Prop :=
  (∃ items j n', items.length = len ∧ j < len ∧ n ≤ n' ∧ B.length + j = n' ∧
    PopLeft r (some (.slicing items j), j) (B ++ items.take j) n' 0 .pending s) ∨
  ∃ items j n' k, items.length = len ∧ j < len ∧
    PopLeft r (none, j) (B ++ items) n' k (.slice items len) s

omit [Waker W] in
theorem FillingLeft.stable {len : Nat} :
    ((ringCalls r).contract .consumer).Stable (FillingLeft (W := W) r len B n) :=
  .or (.ex fun _ => .ex fun _ => .ex fun _ =>
      .and (.const _) (.and (.const _) (.and (.const _) (.and (.const _) (PopLeft.stable _)))))
    (.ex fun _ => .ex fun _ => .ex fun _ => .ex fun _ =>
      .and (.const _) (.and (.const _) (PopLeft.stable _)))

theorem pollPopSliceFuture_counts (waker : W) (hj : j < items.length) :
    (consumerKnown r).Triple (Popping r (f, j) (B ++ items.take j) n k 0)
      (pollPopSliceFuture r waker items j) fun _ => FillingLeft r items.length B n := by
  refine (pollPopSliceFuture_left waker hj).conseq (fun _ _ h => h) fun _ s _ h => ?_
  obtain ⟨full, m, n', hlen, hkept, hlt, hn', hall, hleft⟩ |
    ⟨full, c', n', k', hlen, hkept, hc', hleft⟩ := h
  · rw [← hkept, List.append_assoc, ← List.take_add] at hleft
    rw [List.length_append, List.length_take, min_eq_left hj.le] at hall
    exact .inl ⟨full, j + m, n', hlen, hlt, hn', by omega, hleft⟩
  · rw [← hkept, List.append_assoc, List.take_append_drop] at hleft
    exact .inr ⟨full, c', n', k', hlen, by omega, hleft⟩

def FillLeft (r : RingBuf w) (len : Nat) (B : List (Option T)) (n k : Nat) (s : RingState w T W) :
    Prop :=
  (∃ items n' k', items.length = len ∧ (len = 0 ∨ Saw B n k n' k' ∧ len ≤ k') ∧
    PopLeft r (none, len) (B ++ items) n' (k' - len) (.slice items len) s) ∨
  (∃ n' k', Saw B n k n' k' ∧ k' < len) ∧ FillingLeft r len B n s

omit [Waker W] in
theorem FillLeft.stable {len : Nat} :
    ((ringCalls r).contract .consumer).Stable (FillLeft (W := W) r len B n k) :=
  .or (.ex fun _ => .ex fun _ => .ex fun _ =>
    .and (.const _) (.and (.const _) (PopLeft.stable _))) (.and (.const _) FillingLeft.stable)

theorem pollPopSlice_counts (waker : W) (items : List (Option T)) :
    (consumerKnown r).Triple (Popping r (f, j) B n k 0) (pollPop r waker (.popSlice items))
      fun _ => FillLeft r items.length B n k := by
  rw [pollPop]
  split
  · rename_i hempty
    obtain rfl := List.isEmpty_iff.mp hempty
    apply (setPopped_pops 0).bind
    intro _
    refine (popReady_pops _).conseq (fun _ _ h => h) fun _ _ _ h => ?_
    exact .inl ⟨[], n, k, rfl, .inl rfl, by simpa using h⟩
  · rename_i hne
    have hne : items ≠ [] := fun h => hne (List.isEmpty_iff.mpr h)
    apply (tryPopSlice_pops items).bind
    rintro ⟨m, filled⟩ s hs hfirst
    rw [show items = items.drop 0 from rfl] at hfirst
    obtain ⟨n', k', hsaw, hm, hlen, -, h⟩ := tryPoppedSlice_drop (List.length_pos_iff.mpr hne) hfirst
    simp only [List.take_zero, List.drop_zero, List.nil_append, Nat.sub_zero] at hm hlen h
    refine (setPopped_pops m s hs h).bind fun _ => ?_
    split
    · rename_i hdone
      rw [hdone, ← hlen, List.take_length] at h ⊢
      refine (popReady_pops _).conseq (fun _ _ h => h) fun _ _ _ h => ?_
      rw [hlen] at h ⊢
      exact .inl ⟨filled, n', k', hlen, .inr ⟨hsaw, by omega⟩, h⟩
    · have hn' : n ≤ n' := by
        rw [Saw] at hsaw
        split at hsaw <;> omega
      have hlt : k' < items.length := by omega
      rw [← hlen] at hlt ⊢
      refine (pollPopSliceFuture_counts waker (by omega)).conseq (fun _ _ h => h) fun _ _ _ h => ?_
      refine .inr ⟨⟨n', k', hsaw, hlt⟩, h.imp ?_ id⟩
      rintro ⟨slice, j, n'', hslice, hj, hn'', hall, hleft⟩
      exact ⟨slice, j, n'', hslice, hj, hn'.trans hn'', hall, hleft⟩

/-- The caller's slice after a poll. -/
def heldSlice (s : RingState w T W) : List (Option T) :=
  match s.popFuture, s.consumerOut with
  | some (.popSlice items), _ => items
  | some (.slicing items _), _ => items
  | _, some (.slice items _) => items
  | _, _ => []

/-- The items that the first try of a poll sees, unless the producer publishes more. -/
def firstItems (s : RingState w T W) : Nat :=
  if cachedItems s = 0 then (s.writeIndex - s.consumer.cachedRead).toNat else cachedItems s

/-- The items published by the end of a poll from `s` to `t` are too few for the `rest` of the
slice. -/
def NoItemsFor (rest : Nat) (s t : RingState w T W) : Prop :=
  t.accepted.length < s.taken.length + rest

/-- The poll does not finish inside `PopSliceFuture`. -/
def PopCounted (s t : RingState w T W) : Prop :=
  match s.popFuture with
  | some (.popSlice items) => items.length ≤ firstItems s ∨ NoItemsFor items.length s t
  | some (.slicing items poppedSoFar) => NoItemsFor (items.length - poppedSoFar) s t
  | _ => True

/-- The counter tells how much of the slice holds what was taken since `B`. -/
structure PopReported (len : Nat) (B : List (Option T)) (t : RingState w T W) : Prop where
  le : t.popped ≤ len
  length : (heldSlice t).length = len
  taken : t.taken = B ++ (heldSlice t).take t.popped
  done : t.popFuture = none → t.popped = len

inductive FillHeld (len : Nat) (B : List (Option T)) (s : RingState w T W) : Prop
  | fresh {slice} (hlen : slice.length = len) (hf : s.popFuture = some (.popSlice slice))
      (ht : s.taken = B)
  | pending {slice m} (hlen : slice.length = len) (hm : m < len)
      (hf : s.popFuture = some (.slicing slice m)) (hp : s.popped = m)
      (ht : s.taken = B ++ slice.take m)
  | finished (hf : s.popFuture = none)

variable {len : Nat}

omit [Waker W] in
theorem FillingLeft.held {s : RingState w T W} (h : FillingLeft r len B n s) : FillHeld len B s := by
  obtain ⟨items, j, n', hlen, hj, -, -, hout, hpop⟩ | ⟨items, j, n', k', hlen, hj, hout, hpop⟩ := h
  · obtain ⟨hf, hp⟩ := Prod.ext_iff.mp hpop.own
    exact .pending hlen hj hf hp hpop.taken
  · exact .finished (Prod.ext_iff.mp hpop.own).1

omit [Waker W] in
theorem FillLeft.held {s : RingState w T W} (h : FillLeft r len B n k s) : FillHeld len B s := by
  obtain ⟨items, n', k', -, -, -, hpop⟩ | h := h
  · exact .finished (Prod.ext_iff.mp hpop.own).1
  · exact h.2.held

omit [Waker W] in
theorem FillLeft.popSlice_or {s : RingState w T W} (h : FillLeft r len B n k s) :
    (PopReported len B s ∧ ∃ n' k', (len = 0 ∨ Saw B n k n' k' ∧ len ≤ k') ∧ n' ≤ s.accepted.length) ∨
    (∃ n' k', Saw B n k n' k' ∧ k' < len) ∧ FillingLeft r len B n s := by
  refine h.imp_left ?_
  rintro ⟨items, n', k', hlen, hsaw, hout, hpop⟩
  obtain ⟨hf, hp⟩ : s.popFuture = none ∧ s.popped = len := Prod.ext_iff.mp hpop.own
  have hslice : heldSlice s = items := by rw [heldSlice, hf, hout]
  refine ⟨⟨hp.le, by rw [hslice, hlen], ?_, fun _ => hp⟩, n', k', hsaw, hpop.accepted⟩
  rw [hslice, hp, ← hlen, List.take_length]
  exact hpop.taken

omit [Waker W] in
theorem FillingLeft.reported {s : RingState w T W} (h : FillingLeft r len B n s) (hI : RingInv r s)
    (hitems : s.accepted.length < B.length + len) : PopReported len B s := by
  obtain ⟨items, j, n', hlen, hj, -, -, hout, hpop⟩ | ⟨items, j, n', k', hlen, hj, hout, hpop⟩ := h
  · obtain ⟨hf, hp⟩ : s.popFuture = some (.slicing items j) ∧ s.popped = j := Prod.ext_iff.mp hpop.own
    have hslice : heldSlice s = items := by rw [heldSlice, hf]
    refine ⟨by omega, by rw [hslice, hlen], by rw [hslice, hp]; exact hpop.taken, fun hdone => ?_⟩
    rw [hf] at hdone
    cases hdone
  · have hle := hI.le
    rw [hpop.taken, List.length_append] at hle
    omega

omit [Waker W] in
theorem FillingLeft.noItems {s : RingState w T W} (h : FillingLeft r len B n s)
    (hstill : s.accepted.length ≤ n) (hrep : PopReported len B s) :
    s.accepted.length < B.length + len := by
  obtain ⟨items, j, n', -, hj, hn', hall, -, -⟩ | ⟨items, j, n', k', hlen, hj, hout, hpop⟩ := h
  · omega
  · obtain ⟨hf, hp⟩ : s.popFuture = none ∧ s.popped = j := Prod.ext_iff.mp hpop.own
    have := hrep.done hf
    omega

variable {s t : ThreadState (RingState w T W) RingSide PUnit}

theorem popping_at_call (hs : (ringCalls r).Holds s) {op : RingOp T W}
    (h : (ringThreads r).CallEnds .consumer op s t) :
    Popping r (s.mem.popFuture, s.mem.popped) s.mem.taken s.mem.accepted.length (cachedItems s.mem) 0
      s.mem := by
  obtain ⟨c, hc⟩ := h.start
  change ringCall r .consumer op s.mem = some c at hc
  have hrest := hs.2 .consumer
  rw [h.was_idle] at hrest
  simp only [ringCall] at hc
  split at hc
  · rename_i halive
    exact Popping.of_rest (hrest.1 halive) hs.1.1
  · cases hc

omit [Waker W] in
theorem saw_firstItems {s : RingState w T W}
    (h : Popping r o s.taken s.accepted.length (cachedItems s) 0 s) (hI : RingInv r s) {n' k' : Nat}
    (hsaw : Saw s.taken s.accepted.length (cachedItems s) n' k') :
    firstItems s ≤ k' ∧ (n' ≤ s.accepted.length → k' ≤ firstItems s) := by
  rw [Saw] at hsaw
  rw [firstItems]
  split
  · rename_i hzero
    rw [if_pos hzero] at hsaw
    obtain ⟨k'', -, hk'', h''⟩ := h.reload hI
    have havail : (s.writeIndex - s.consumer.cachedRead).toNat = k'' := h''.available
    omega
  · rename_i hpos
    rw [if_neg hpos] at hsaw
    omega

theorem pollPop_left (hs : (ringCalls r).Holds s) {waker : W} {future : PopFuture T}
    (hf : s.mem.popFuture = some future) {Q : RingState w T W → Prop}
    (hQ : ((ringCalls r).contract .consumer).Stable Q)
    (hp : (consumerKnown r).Triple (Popping r (some future, s.mem.popped) s.mem.taken
      s.mem.accepted.length (cachedItems s.mem) 0) (pollPop r waker future) fun _ => Q)
    (h : (ringThreads r).CallEnds .consumer (.pollPop waker) s t) : Q t.mem := by
  refine consumer_starts_returns
    (m := { s.mem with consumerSlot := s.mem.consumerSlot.beginPoll waker })
    (p := pollPop r waker future) hs (fun c hc => ?_) (by constructor <;> rfl) hQ ?_ h
  · simp only [ringCall, hf] at hc
    split at hc
    · rw [← Option.some.inj hc]
      simp only [hf]
    · cases hc
  · rw [hf]
    exact hp

theorem pollPop_held (hs : (ringCalls r).Holds s) (hheld : FillHeld len B s.mem) {waker : W}
    (h : (ringThreads r).CallEnds .consumer (.pollPop waker) s t) :
    (∃ slice, slice.length = len ∧ s.mem.popFuture = some (.popSlice slice)) ∧ s.mem.taken = B ∧
      FillLeft r len B s.mem.accepted.length (cachedItems s.mem) t.mem ∨
    (∃ slice m, slice.length = len ∧ m < len ∧ s.mem.popFuture = some (.slicing slice m) ∧
      s.mem.taken = B ++ slice.take m) ∧ FillingLeft r len B s.mem.accepted.length t.mem := by
  cases hheld with
  | fresh hlen hf ht =>
    subst hlen ht
    exact .inl ⟨⟨_, rfl, hf⟩, rfl, pollPop_left hs hf FillLeft.stable (pollPopSlice_counts waker _) h⟩
  | pending hlen hm hf hp ht =>
    refine .inr ⟨⟨_, _, hlen, hm, hf, ht⟩, pollPop_left hs hf FillingLeft.stable ?_ h⟩
    subst hlen
    rw [ht, hp]
    exact pollPopSliceFuture_counts waker hm
  | finished hf =>
    obtain ⟨c, hc⟩ := h.start
    change ringCall r .consumer _ s.mem = some c at hc
    simp only [ringCall, hf, consumerCall] at hc
    split at hc <;> cases hc

/-- The whole life of a future of `pop_slice_counted`, from the call on. -/
inductive PopSliceRun (r : RingBuf w) (slice : List T) (s : ThreadState (RingState w T W) RingSide PUnit) :
    ThreadState (RingState w T W) RingSide PUnit → Prop
  | create {u} (h : (ringThreads r).CallEnds .consumer (.popSlice slice) s u) : PopSliceRun r slice s u
  | poll {u v waker} (h : PopSliceRun r slice s u)
      (h' : (ringThreads r).CallEnds .consumer (.pollPop waker) u v) : PopSliceRun r slice s v

theorem popFuture_created {op : RingOp T W} {future : PopFuture T} (hs : (ringCalls r).Holds s)
    (h : (ringThreads r).CallEnds .consumer op s t)
    (hop : ∀ m, consumerCall r m op = some ({ m with popFuture := some future }, pure ⟨⟩))
    (hbusy : ∀ m f, m.popFuture = some f → ringCall r .consumer op m = none) :
    t.mem.popFuture = some future ∧ t.mem.taken = s.mem.taken := by
  have hpop := consumer_future_returns (m := { s.mem with popFuture := some future }) hs
    (fun c hc => ?_) (by constructor <;> rfl) h
  · exact ⟨(Prod.ext_iff.mp hpop.own).1, hpop.taken⟩
  · cases hf : s.mem.popFuture with
    | none =>
      simp only [ringCall, hf, hop] at hc
      split at hc
      · exact (Option.some.inj hc).symm
      · cases hc
    | some f => cases (hbusy _ f hf).symm.trans hc

theorem PopSliceRun.held (hs : (ringCalls r).Holds s) {slice : List T} (h : PopSliceRun r slice s t) :
    (ringCalls r).Holds t ∧ FillHeld slice.length s.mem.taken t.mem := by
  induction h with
  | create h =>
    obtain ⟨hf, ht⟩ := popFuture_created hs h (fun _ => rfl) fun m f hf => by simp [ringCall, hf]
    exact ⟨(ringCalls_sound r).callEnds_holds hs h, .fresh (List.length_map _) hf ht⟩
  | poll h h' ih =>
    obtain ⟨ht, hheld⟩ := ih
    refine ⟨(ringCalls_sound r).callEnds_holds ht h', ?_⟩
    obtain ⟨-, -, hleft⟩ | ⟨-, hleft⟩ := pollPop_held ht hheld h'
    · exact hleft.held
    · exact hleft.held

theorem popSlice_reports (hs : (ringCalls r).Holds s) (hheld : FillHeld len B s.mem) {waker : W}
    (h : (ringThreads r).CallEnds .consumer (.pollPop waker) s t)
    (hcounted : PopCounted s.mem t.mem) : PopReported len B t.mem := by
  have ht := (ringCalls_sound r).callEnds_holds hs h
  obtain ⟨⟨slice, hlen, hf⟩, rfl, hleft⟩ | ⟨⟨slice, m, hlen, hm, hf, htaken⟩, hleft⟩ :=
    pollPop_held hs hheld h
  · simp only [PopCounted, hf, hlen] at hcounted
    obtain ⟨hrep, -⟩ | ⟨⟨n', k', hsaw, hlt⟩, hfilling⟩ := hleft.popSlice_or
    · exact hrep
    · obtain hfirst | hitems := hcounted
      · have := (saw_firstItems (popping_at_call hs h) hs.1.1 hsaw).1
        omega
      · exact hfilling.reported ht.1.1 hitems
  · simp only [PopCounted, hf, NoItemsFor, hlen] at hcounted
    refine hleft.reported ht.1.1 ?_
    rw [htaken, List.length_append, List.length_take, hlen, min_eq_left hm.le] at hcounted
    omega

theorem popCounted_of_reports (hs : (ringCalls r).Holds s) (hheld : FillHeld len B s.mem) {waker : W}
    (h : (ringThreads r).CallEnds .consumer (.pollPop waker) s t)
    (hstill : t.mem.accepted.length = s.mem.accepted.length) (hrep : PopReported len B t.mem) :
    PopCounted s.mem t.mem := by
  obtain ⟨⟨slice, hlen, hf⟩, rfl, hleft⟩ | ⟨⟨slice, m, hlen, hm, hf, htaken⟩, hleft⟩ :=
    pollPop_held hs hheld h
  · simp only [PopCounted, hf, hlen]
    obtain ⟨-, n', k', hnil | ⟨hsaw, hle⟩, hn'⟩ | ⟨-, hfilling⟩ := hleft.popSlice_or
    · exact .inl (by omega)
    · have := (saw_firstItems (popping_at_call hs h) hs.1.1 hsaw).2 (by omega)
      exact .inl (by omega)
    · exact .inr (hfilling.noItems hstill.le hrep)
  · simp only [PopCounted, hf, NoItemsFor]
    have := hleft.noItems hstill.le hrep
    rw [htaken, List.length_append, List.length_take, hlen, min_eq_left hm.le]
    omega

theorem cancelPop_keeps_count (hs : (ringCalls r).Holds s)
    (h : (ringThreads r).CallEnds .consumer .cancelPop s t) :
    t.mem.popped = s.mem.popped ∧ t.mem.taken = s.mem.taken := by
  have hpop := consumer_future_returns
    (m := { s.mem with popFuture := none, consumerSlot := s.mem.consumerSlot.leave }) hs
    (fun c hc => ?_) (by constructor <;> rfl) h
  · exact ⟨(Prod.ext_iff.mp hpop.own).2, hpop.taken⟩
  · cases hf : s.mem.popFuture with
    | none => simp [ringCall, hf, consumerCall] at hc
    | some future =>
      simp only [ringCall, hf] at hc
      split at hc
      · exact (Option.some.inj hc).symm
      · cases hc

end Pop

/-- Every poll of a counted transfer reports what it did, unless it finishes inside its future; and
an undisturbed poll that does finish there does not. Dropping the future changes no counter. -/
theorem counted_slices_report (w : Nat) (r : RingBuf w) (T W : Type) [Waker W] (items : List T)
    (s₀ s t : ThreadState (RingState w T W) RingSide PUnit)
    (hs₀ : (ringThreads r).machine.Reachable s₀) (waker : W) :
    (PushSliceRun r items s₀ s → (ringThreads r).CallEnds .producer (.pollPush waker) s t →
      (PushCounted r s.mem t.mem → PushReported items s₀.mem.accepted t.mem) ∧
      (t.mem.taken.length = s.mem.taken.length → PushReported items s₀.mem.accepted t.mem →
        PushCounted r s.mem t.mem) ∧
      ∀ u, (ringThreads r).CallEnds .producer .cancelPush t u →
        u.mem.pushed = t.mem.pushed ∧ u.mem.accepted = t.mem.accepted) ∧
    (PopSliceRun r items s₀ s → (ringThreads r).CallEnds .consumer (.pollPop waker) s t →
      (PopCounted s.mem t.mem → PopReported items.length s₀.mem.taken t.mem) ∧
      (t.mem.accepted.length = s.mem.accepted.length → PopReported items.length s₀.mem.taken t.mem →
        PopCounted s.mem t.mem) ∧
      ∀ u, (ringThreads r).CallEnds .consumer .cancelPop t u →
        u.mem.popped = t.mem.popped ∧ u.mem.taken = t.mem.taken) := by
  have hs₀ := (ringCalls_sound r).reachable hs₀
  constructor
  · intro hrun h
    obtain ⟨hs, hheld⟩ := hrun.held hs₀
    have ht := (ringCalls_sound r).callEnds_holds hs h
    exact ⟨pushSlice_reports hs hheld h, pushCounted_of_reports hs hheld h,
      fun u => cancelPush_keeps_count ht⟩
  · intro hrun h
    obtain ⟨hs, hheld⟩ := hrun.held hs₀
    have ht := (ringCalls_sound r).callEnds_holds hs h
    exact ⟨popSlice_reports hs hheld h, popCounted_of_reports hs hheld h,
      fun u => cancelPop_keeps_count ht⟩

/-- Two of three items fit into a ring of two, and the pending poll says so. -/
theorem counted_push_reports_two :
    ∃ s₀ s t : ThreadState (RingState 8 Nat Waker.OfTask) RingSide PUnit,
      (ringThreads ⟨2, 1, rfl⟩).machine.Reachable s₀ ∧ PushSliceRun ⟨2, 1, rfl⟩ [1, 2, 3] s₀ s ∧
      (ringThreads ⟨2, 1, rfl⟩).CallEnds .producer (.pollPush ⟨0⟩) s t ∧
      PushReported [1, 2, 3] s₀.mem.accepted t.mem ∧ t.mem.pushed = 2 := by
  obtain ⟨t, hrun, hidle, htaken, hpushed⟩ := Machine.exists_end
    (M := (ringThreads (w := 8) (T := Nat) (W := Waker.OfTask) ⟨2, 1, rfl⟩).machine)
    (P := fun t => t.running .producer = none ∧ t.mem.taken = [] ∧ t.mem.pushed = 2)
    (c := fun t => decide ((t.running .producer).isNone ∧ t.mem.taken = [] ∧ t.mem.pushed = 2))
    (([] ++ .call .producer (.pushSlice [1, 2, 3]) :: [.step .producer]) ++
      .call .producer (.pollPush ⟨0⟩) :: List.replicate 21 (.step .producer))
    (by decide +kernel) fun t _ ht => by simpa using of_decide_eq_true ht
  obtain ⟨s, hs, hpoll⟩ := Threads.CallEnds.of_run hrun (by simp) hidle
  have hstart : s.mem.pushFuture = some (.pushSlice [1, 2, 3]) ∧ s.mem.accepted = [] := by
    cases hs
    exact ⟨rfl, rfl⟩
  obtain ⟨s₀, hs₀, hcreate⟩ := Threads.CallEnds.of_run hs (by simp) hpoll.was_idle
  have hcounted : PushCounted ⟨2, 1, rfl⟩ s.mem t.mem := by
    simp only [PushCounted, hstart, NoRoomFor, htaken]
    exact .inr (by decide)
  exact ⟨s₀, s, t, ⟨_, hs₀⟩, .create hcreate, hpoll,
    ((counted_slices_report 8 _ Nat Waker.OfTask [1, 2, 3] s₀ s t ⟨_, hs₀⟩ ⟨0⟩).1 (.create hcreate)
      hpoll).1 hcounted, hpushed⟩

/-- The consumer takes one item, the next poll places the third one and is done, and the counter
still says two. -/
theorem counted_push_stays_behind :
    ∃ s₀ s t : ThreadState (RingState 8 Nat Waker.OfTask) RingSide PUnit,
      (ringThreads ⟨2, 1, rfl⟩).machine.Reachable s₀ ∧ PushSliceRun ⟨2, 1, rfl⟩ [1, 2, 3] s₀ s ∧
      (ringThreads ⟨2, 1, rfl⟩).CallEnds .producer (.pollPush ⟨0⟩) s t ∧ t.mem.pushFuture = none ∧
      t.mem.accepted = s₀.mem.accepted ++ [1, 2, 3] ∧ t.mem.pushed = 2 ∧
      ¬ PushReported [1, 2, 3] s₀.mem.accepted t.mem := by
  obtain ⟨t, hrun, hidle, hdone, haccepted, hpushed⟩ := Machine.exists_end
    (M := (ringThreads (w := 8) (T := Nat) (W := Waker.OfTask) ⟨2, 1, rfl⟩).machine)
    (P := fun t => t.running .producer = none ∧ t.mem.pushFuture = none ∧
      t.mem.accepted = [1, 2, 3] ∧ t.mem.pushed = 2)
    (c := fun t => decide ((t.running .producer).isNone ∧ t.mem.pushFuture.isNone ∧
      t.mem.accepted = [1, 2, 3] ∧ t.mem.pushed = 2))
    ((([] ++ .call .producer (.pushSlice [1, 2, 3]) :: [.step .producer]) ++
      .call .producer (.pollPush ⟨0⟩) :: (List.replicate 21 (.step .producer) ++
        .call .consumer .tryPop :: List.replicate 13 (.step .consumer))) ++
      .call .producer (.pollPush ⟨0⟩) :: List.replicate 8 (.step .producer))
    (by decide +kernel) fun t _ ht => by simpa using of_decide_eq_true ht
  obtain ⟨s, hs, hlast⟩ := Threads.CallEnds.of_run hrun (by simp) hidle
  obtain ⟨u, hu, hpoll⟩ := Threads.CallEnds.of_run hs (by simp) hlast.was_idle
  obtain ⟨s₀, hs₀, hcreate⟩ := Threads.CallEnds.of_run hu (by simp) hpoll.was_idle
  have hempty : s₀.mem.accepted = [] := by
    cases hs₀
    rfl
  refine ⟨s₀, s, t, ⟨_, hs₀⟩, .poll (.create hcreate) hpoll, hlast, hdone,
    by rw [hempty, haccepted]; rfl, hpushed, fun hrep => ?_⟩
  have hall := hrep.done hdone
  rw [hpushed] at hall
  cases hall

end Cynosure.SiteD.Ring
