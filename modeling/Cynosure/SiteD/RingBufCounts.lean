import Cynosure.SiteD.RingBufPushes
import Cynosure.SiteD.RingBufPops

/-! # The counts of the ring buffer are guarantees

What a side was told about its room or its items stays good for its next calls, whatever
the other side does in between: the cached indices show it, and only the side itself uses
them up.
-/

namespace Cynosure.SiteD.Ring

open Prog

variable {w : Nat} {T W : Type} [Waker W] {r : RingBuf w}

/-- The room that the producer sees in its cached indices. -/
def cachedRoom (r : RingBuf w) (s : RingState w T W) : Nat :=
  r.capacity.toNat - (s.producer.cachedWrite - s.producer.cachedRead).toNat

/-- The items that the consumer sees in its cached indices. -/
def cachedItems (s : RingState w T W) : Nat :=
  (s.consumer.cachedWrite - s.consumer.cachedRead).toNat

section Returns

variable {s t : ThreadState (RingState w T W) RingSide PUnit} {op : RingOp T W}
  {Q : RingState w T W → Prop}

/-- What a call of the producer establishes, from what it can know when it starts: starting it
touches nothing but the future, the counters and the wait slots. -/
theorem producer_starts_returns {m : RingState w T W} {p : Prog (RingState w T W) PUnit}
    (hs : (ringCalls r).Holds s)
    (hcall : ∀ c, ringCall r .producer op s.mem = some c → c = (m, p)) (hsame : SameRing s.mem m)
    (hQ : ((ringCalls r).contract .producer).Stable Q)
    (hp : (producerKnown r).Triple (Pushing r (m.pushFuture, m.pushed) s.mem.accepted s.mem.taken.length
      (cachedRoom r s.mem) 0) p fun _ => Q)
    (h : (ringThreads r).CallEnds .producer op s t) : Q t.mem := by
  have hok : ∀ m' q, (ringThreads r).start .producer op s.mem = some (m', q) →
      (ringCalls r).rest .producer s.mem → (producerKnown r).Ok (fun _ => Q) q m' := by
    intro m' q hstart hrest
    change ringCall r .producer op s.mem = some (m', q) at hstart
    cases hcall _ hstart
    have halive : s.mem.producerAlive = true := by
      simp only [ringCall] at hstart
      split at hstart
      · assumption
      · cases hstart
    have hpush := Pushing.of_rest (hrest.1 halive) hs.1.1
    refine hp m ⟨⟨hsame.inv hs.1.1, trivial⟩, trivial⟩ ?_
    exact hpush.start hsame
  obtain ⟨-, ht⟩ := (ringCalls_sound r).callEnds_known (fun _ => rfl) (fun _ => hQ) hs hok h
  exact ht

theorem producer_future_returns {m : RingState w T W} (hs : (ringCalls r).Holds s)
    (hcall : ∀ c, ringCall r .producer op s.mem = some c → c = (m, pure ⟨⟩))
    (hsame : SameRing s.mem m) (h : (ringThreads r).CallEnds .producer op s t) :
    Pushing r (m.pushFuture, m.pushed) s.mem.accepted s.mem.taken.length (cachedRoom r s.mem) 0 t.mem :=
  producer_starts_returns hs hcall hsame (Contract.Stable.of_known Pushing.stable)
    (.ret Pushing.stable fun _ _ h => h) h

theorem producer_returns {p : Prog (RingState w T W) PUnit} (hs : (ringCalls r).Holds s)
    (hcall : producerCall r s.mem op = some (s.mem, p))
    (hQ : ((ringCalls r).contract .producer).Stable Q)
    (hp : (producerKnown r).Triple (Pushing r (none, s.mem.pushed) s.mem.accepted s.mem.taken.length
      (cachedRoom r s.mem) 0) p fun _ => Q)
    (h : (ringThreads r).CallEnds .producer op s t) : Q t.mem := by
  have hfuture : s.mem.pushFuture = none := by
    obtain ⟨c, hc⟩ := h.start
    change ringCall r .producer op s.mem = some c at hc
    simp only [ringCall] at hc
    split at hc
    · split at hc
      · assumption
      · cases hcall
      · cases hcall
      · cases hc
    · cases hc
  refine producer_starts_returns hs (fun c hc => ?_) (SameRing.refl _) hQ (by rwa [hfuture]) h
  simp only [ringCall, hfuture, hcall] at hc
  split at hc
  · exact (Option.some.inj hc).symm
  · cases hc

theorem consumer_starts_returns {m : RingState w T W} {p : Prog (RingState w T W) PUnit}
    (hs : (ringCalls r).Holds s)
    (hcall : ∀ c, ringCall r .consumer op s.mem = some c → c = (m, p)) (hsame : SameRing s.mem m)
    (hQ : ((ringCalls r).contract .consumer).Stable Q)
    (hp : (consumerKnown r).Triple (Popping r (m.popFuture, m.popped) s.mem.taken s.mem.accepted.length
      (cachedItems s.mem) 0) p fun _ => Q)
    (h : (ringThreads r).CallEnds .consumer op s t) : Q t.mem := by
  have hok : ∀ m' q, (ringThreads r).start .consumer op s.mem = some (m', q) →
      (ringCalls r).rest .consumer s.mem → (consumerKnown r).Ok (fun _ => Q) q m' := by
    intro m' q hstart hrest
    change ringCall r .consumer op s.mem = some (m', q) at hstart
    cases hcall _ hstart
    have halive : s.mem.consumerAlive = true := by
      simp only [ringCall] at hstart
      split at hstart
      · assumption
      · cases hstart
    have hpop := Popping.of_rest (hrest.1 halive) hs.1.1
    refine hp m ⟨⟨hsame.inv hs.1.1, trivial⟩, trivial⟩ ?_
    exact hpop.start hsame
  obtain ⟨-, ht⟩ := (ringCalls_sound r).callEnds_known (fun _ => rfl) (fun _ => hQ) hs hok h
  exact ht

theorem consumer_future_returns {m : RingState w T W} (hs : (ringCalls r).Holds s)
    (hcall : ∀ c, ringCall r .consumer op s.mem = some c → c = (m, pure ⟨⟩))
    (hsame : SameRing s.mem m) (h : (ringThreads r).CallEnds .consumer op s t) :
    Popping r (m.popFuture, m.popped) s.mem.taken s.mem.accepted.length (cachedItems s.mem) 0 t.mem :=
  consumer_starts_returns hs hcall hsame (Contract.Stable.of_known Popping.stable)
    (.ret Popping.stable fun _ _ h => h) h

theorem consumer_returns {p : Prog (RingState w T W) PUnit} (hs : (ringCalls r).Holds s)
    (hcall : consumerCall r s.mem op = some (s.mem, p))
    (hQ : ((ringCalls r).contract .consumer).Stable Q)
    (hp : (consumerKnown r).Triple (Popping r (none, s.mem.popped) s.mem.taken s.mem.accepted.length
      (cachedItems s.mem) 0) p fun _ => Q)
    (h : (ringThreads r).CallEnds .consumer op s t) : Q t.mem := by
  have hfuture : s.mem.popFuture = none := by
    obtain ⟨c, hc⟩ := h.start
    change ringCall r .consumer op s.mem = some c at hc
    simp only [ringCall] at hc
    split at hc
    · split at hc
      · assumption
      · cases hcall
      · cases hcall
      · cases hc
    · cases hc
  refine consumer_starts_returns hs (fun c hc => ?_) (SameRing.refl _) hQ (by rwa [hfuture]) h
  simp only [ringCall, hfuture, hcall] at hc
  split at hc
  · exact (Option.some.inj hc).symm
  · cases hc

end Returns

section Push

variable {A : List T} {n k : Nat}

/-- The producer's call returned `out`, and the count stands as given. -/
def PushEnds (r : RingBuf w) (A : List T) (n k : Nat) (out : RingOut T) (s : RingState w T W) : Prop :=
  s.producerOut = some out ∧ ∃ j, Pushing r (none, j) A n k 0 s

omit [Waker W] in
theorem PushEnds.stable (out : RingOut T) :
    ((ringCalls r).contract .producer).Stable (PushEnds (W := W) r A n k out) := by
  rintro s t ht hst ⟨hout, j, h⟩
  exact ⟨(show ProducerOwn s t from hst.2).out.trans hout, j,
    Contract.Stable.of_known Pushing.stable s t ht hst h⟩

omit [Waker W] in
theorem producerReturns_pushes (out : RingOut T) {j : Nat} : (producerKnown (W := W) r).Triple
    (Pushing r (none, j) A n k 0) (producerReturns out) fun _ => PushEnds r A n k out := by
  refine .store Pushing.stable (fun _ => .of_base (PushEnds.stable out)) fun s _ h => ?_
  exact Contract.known_keeps fun _ => ⟨rfl, j, h.congr ⟨rfl, rfl, rfl, rfl, rfl⟩⟩

variable {s t : ThreadState (RingState w T W) RingSide PUnit}

theorem tryPush_ends (hs : (ringCalls r).Holds s) {value : T}
    (h : (ringThreads r).CallEnds .producer (.tryPush value) s t) :
    ∃ n' k', Looked r s.mem.accepted s.mem.taken.length (cachedRoom r s.mem) n' k' ∧
      (0 < k' ∧ PushEnds r (s.mem.accepted ++ [value]) n' (k' - 1) .done t.mem ∨
        k' = 0 ∧ PushEnds r s.mem.accepted n' 0 (.rejected value) t.mem) := by
  refine producer_returns (Q := fun u => ∃ n' k',
    Looked r s.mem.accepted s.mem.taken.length (cachedRoom r s.mem) n' k' ∧
      (0 < k' ∧ PushEnds r (s.mem.accepted ++ [value]) n' (k' - 1) .done u ∨
        k' = 0 ∧ PushEnds r s.mem.accepted n' 0 (.rejected value) u)) hs rfl ?_ ?_ h
  · exact .ex fun _ => .ex fun _ => .and (.const _)
      (.or (.and (.const _) (PushEnds.stable _)) (.and (.const _) (PushEnds.stable _)))
  · apply (tryPush_pushes value).bind
    rintro (v | ⟨⟩) u hu ⟨n', k', hlook, hres⟩
    · obtain ⟨rfl, hk', hpush⟩ := hres
      exact (producerReturns_pushes _ u hu hpush).mono fun _ _ _ hend => ⟨n', k', hlook, .inr ⟨hk', hend⟩⟩
    · exact (producerReturns_pushes _ u hu hres.2).mono
        fun _ _ _ hend => ⟨n', k', hlook, .inl ⟨hres.1, hend⟩⟩

theorem tryPushSlice_ends (hs : (ringCalls r).Holds s) {items : List T} (hne : items ≠ [])
    (h : (ringThreads r).CallEnds .producer (.tryPushSlice items) s t) :
    ∃ n' k', Looked r s.mem.accepted s.mem.taken.length (cachedRoom r s.mem) n' k' ∧
      PushEnds r (s.mem.accepted ++ items.take (min items.length k')) n'
        (k' - min items.length k') (.count (min items.length k')) t.mem := by
  refine producer_returns (Q := fun u => ∃ n' k',
    Looked r s.mem.accepted s.mem.taken.length (cachedRoom r s.mem) n' k' ∧
      PushEnds r (s.mem.accepted ++ items.take (min items.length k')) n'
        (k' - min items.length k') (.count (min items.length k')) u) hs rfl ?_ ?_ h
  · exact .ex fun _ => .ex fun _ => .and (.const _) (PushEnds.stable _)
  · apply (tryPushSlice_pushes items).bind
    intro count u hu hres
    rw [TryPushedSlice, if_neg hne] at hres
    obtain ⟨n', k', hlook, rfl, hpush⟩ := hres
    exact (producerReturns_pushes _ u hu hpush).mono fun _ _ _ hend => ⟨n', k', hlook, hend⟩

theorem tryPushSlice_nil_ends (hs : (ringCalls r).Holds s)
    (h : (ringThreads r).CallEnds .producer (.tryPushSlice []) s t) :
    PushEnds r s.mem.accepted s.mem.taken.length (cachedRoom r s.mem) (.count 0) t.mem := by
  refine producer_returns hs rfl (PushEnds.stable _) ?_ h
  apply (tryPushSlice_pushes []).bind
  rintro count u hu ⟨rfl, hpush⟩
  exact producerReturns_pushes _ u hu hpush

omit [Waker W] in
theorem PushEnds.cachedRoom_eq {out : RingOut T} {u : RingState w T W}
    (h : PushEnds r A n k out u) : cachedRoom r u = k := by
  obtain ⟨-, j, h⟩ := h
  exact h.space

omit [Waker W] in
theorem PushEnds.accepted {out : RingOut T} {u : RingState w T W} (h : PushEnds r A n k out u) :
    u.accepted = A := by
  obtain ⟨-, j, h⟩ := h
  exact h.accepted

theorem freeCount_ends (hs : (ringCalls r).Holds s)
    (h : (ringThreads r).CallEnds .producer .freeCount s t) :
    ∃ n' k, PushEnds r s.mem.accepted n' k (.count k) t.mem := by
  refine producer_returns (Q := fun u => ∃ n' k, PushEnds r s.mem.accepted n' k (.count k) u) hs rfl
    (.ex fun _ => .ex fun _ => PushEnds.stable _) ?_ h
  apply freeCount_pushes.bind
  rintro count u hu ⟨n', -, -, hpush⟩
  exact (producerReturns_pushes _ u hu hpush).mono fun _ _ _ hend => ⟨n', count.toNat, hend⟩

/-- As long as the producer sees room, its tries succeed and use it up one by one. -/
theorem tryPushes_end {out : RingOut T} (hs : (ringCalls r).Holds s)
    (hidle : s.running .producer = none) (hend : PushEnds r A n k out s.mem) {values : List T}
    (hle : values.length ≤ k) {outs : List (Option (RingOut T))}
    (h : (ringThreads r).Calls .producer (·.producerOut) s (values.map .tryPush) outs t) :
    (ringCalls r).Holds t ∧ t.running .producer = none ∧
      outs = List.replicate values.length (some .done) ∧
      ∃ n' out', PushEnds r (A ++ values) n' (k - values.length) out' t.mem := by
  induction values generalizing s A n k out outs with
  | nil =>
    cases h
    exact ⟨hs, hidle, rfl, n, out, by simpa using hend⟩
  | cons value values ih =>
    rw [List.length_cons] at hle
    rw [List.map_cons] at h
    cases h with
    | cons hcall hrest =>
      obtain ⟨n', k', hlook, hnext⟩ := tryPush_ends hs hcall
      rw [hend.cachedRoom_eq, Looked, if_neg (by omega)] at hlook
      obtain ⟨-, rfl⟩ := hlook
      obtain ⟨-, hnext⟩ | ⟨h0, -⟩ := hnext
      · have hu := (ringCalls_sound r).callEnds_holds hs hcall
        obtain ⟨ht, htidle, houts, n'', out', htend⟩ := ih hu hcall.idle hnext (by omega) hrest
        refine ⟨ht, htidle, ?_, n'', out', ?_⟩
        · rw [houts, hnext.1, List.length_cons, List.replicate_succ]
        · rw [hend.accepted, List.append_assoc, List.singleton_append, Nat.sub_sub, Nat.add_comm] at htend
          exact htend
      · omega

theorem PushEnds.callEnds {out : RingOut T} (h : PushEnds r A n k out s.mem)
    (hidle : s.running .producer = none) (op : RingOp T W)
    {c : RingState w T W × Prog (RingState w T W) PUnit} (hop : producerCall r s.mem op = some c) :
    ∃ u, (ringThreads r).CallEnds .producer op s u := by
  obtain ⟨-, j, hpush⟩ := h
  have hfuture : s.mem.pushFuture = none := congrArg Prod.fst hpush.own
  apply Threads.exists_callEnds (fun _ => rfl)
  simp [Threads.exec, hidle, ringThreads, ringCall, hpush.alive, hfuture, hop]
  rfl

theorem tryPushes_return {out : RingOut T} (hs : (ringCalls r).Holds s)
    (hend : PushEnds r A n k out s.mem) (hidle : s.running .producer = none) (values : List T) :
    ∃ outs u, (ringThreads r).Calls .producer (·.producerOut) s (values.map .tryPush) outs u := by
  induction values generalizing s A n k out with
  | nil => exact ⟨[], s, .nil s⟩
  | cons value values ih =>
    obtain ⟨v, hv⟩ := hend.callEnds hidle (.tryPush value) rfl
    have hvs := (ringCalls_sound r).callEnds_holds hs hv
    obtain ⟨_, _, -, hend⟩ := tryPush_ends hs hv
    have hnext : ∃ outs u,
        (ringThreads r).Calls .producer (·.producerOut) v (values.map .tryPush) outs u := by
      obtain ⟨-, hend⟩ | ⟨-, hend⟩ := hend
      · exact ih hvs hend hv.idle
      · exact ih hvs hend hv.idle
    obtain ⟨outs, u, hu⟩ := hnext
    exact ⟨_, u, .cons hv hu⟩

end Push

section Pop

variable {B : List (Option T)} {n k : Nat}

def PopEnds (r : RingBuf w) (B : List (Option T)) (n k : Nat) (out : RingOut T)
    (s : RingState w T W) : Prop :=
  s.consumerOut = some out ∧ ∃ j, Popping r (none, j) B n k 0 s

omit [Waker W] in
theorem PopEnds.stable (out : RingOut T) :
    ((ringCalls r).contract .consumer).Stable (PopEnds (W := W) r B n k out) := by
  rintro s t ht hst ⟨hout, j, h⟩
  exact ⟨(show ConsumerOwn s t from hst.2).out.trans hout, j,
    Contract.Stable.of_known Popping.stable s t ht hst h⟩

omit [Waker W] in
theorem consumerReturns_pops (out : RingOut T) {j : Nat} : (consumerKnown (W := W) r).Triple
    (Popping r (none, j) B n k 0) (consumerReturns out) fun _ => PopEnds r B n k out := by
  refine .store Popping.stable (fun _ => .of_base (PopEnds.stable out)) fun s _ h => ?_
  exact Contract.known_keeps fun _ => ⟨rfl, j, h.congr ⟨rfl, rfl, rfl, rfl, rfl⟩⟩

omit [Waker W] in
theorem PopEnds.cachedItems_eq {out : RingOut T} {u : RingState w T W}
    (h : PopEnds r B n k out u) : cachedItems u = k := by
  obtain ⟨-, j, h⟩ := h
  exact h.available

omit [Waker W] in
theorem PopEnds.taken {out : RingOut T} {u : RingState w T W} (h : PopEnds r B n k out u) :
    u.taken = B := by
  obtain ⟨-, j, h⟩ := h
  exact h.taken

variable {s t : ThreadState (RingState w T W) RingSide PUnit}

theorem tryPop_ends (hs : (ringCalls r).Holds s)
    (h : (ringThreads r).CallEnds .consumer .tryPop s t) :
    ∃ n' k', Saw s.mem.taken s.mem.accepted.length (cachedItems s.mem) n' k' ∧
      ((∃ v, 0 < k' ∧ PopEnds r (s.mem.taken ++ [v]) n' (k' - 1) (.item (some v)) t.mem) ∨
        k' = 0 ∧ PopEnds r s.mem.taken n' 0 (.item none) t.mem) := by
  refine consumer_returns (Q := fun u => ∃ n' k',
    Saw s.mem.taken s.mem.accepted.length (cachedItems s.mem) n' k' ∧
      ((∃ v, 0 < k' ∧ PopEnds r (s.mem.taken ++ [v]) n' (k' - 1) (.item (some v)) u) ∨
        k' = 0 ∧ PopEnds r s.mem.taken n' 0 (.item none) u)) hs rfl ?_ ?_ h
  · exact .ex fun _ => .ex fun _ => .and (.const _)
      (.or (.ex fun _ => .and (.const _) (PopEnds.stable _)) (.and (.const _) (PopEnds.stable _)))
  · apply tryPop_pops.bind
    rintro (_ | v) u hu ⟨n', k', hsaw, hres⟩
    · exact (consumerReturns_pops _ u hu hres.2).mono
        fun _ _ _ hend => ⟨n', k', hsaw, .inr ⟨hres.1, hend⟩⟩
    · exact (consumerReturns_pops _ u hu hres.2).mono
        fun _ _ _ hend => ⟨n', k', hsaw, .inl ⟨v, hres.1, hend⟩⟩

theorem tryPopSlice_ends (hs : (ringCalls r).Holds s) {items : List T} (hne : items ≠ [])
    (h : (ringThreads r).CallEnds .consumer (.tryPopSlice items) s t) :
    ∃ n' k' front, Saw s.mem.taken s.mem.accepted.length (cachedItems s.mem) n' k' ∧
      front.length = min items.length k' ∧
      PopEnds r (s.mem.taken ++ front) n' (k' - front.length)
        (.slice (front ++ (items.map some).drop front.length) front.length) t.mem := by
  refine consumer_returns (Q := fun u => ∃ n' k' front,
    Saw s.mem.taken s.mem.accepted.length (cachedItems s.mem) n' k' ∧
      front.length = min items.length k' ∧
      PopEnds r (s.mem.taken ++ front) n' (k' - front.length)
        (.slice (front ++ (items.map some).drop front.length) front.length) u) hs rfl ?_ ?_ h
  · exact .ex fun _ => .ex fun _ => .ex fun _ => .and (.const _) (.and (.const _) (PopEnds.stable _))
  · apply (tryPopSlice_pops (items.map some)).bind
    rintro ⟨count, filled⟩ u hu hres
    rw [TryPoppedSlice, if_neg (by simpa using hne), List.length_map] at hres
    obtain ⟨n', k', front, hsaw, hcount, hlen, hfilled, hpop⟩ := hres
    dsimp only at hcount hlen hfilled hpop
    subst hlen hfilled
    exact (consumerReturns_pops _ u hu hpop).mono fun _ _ _ hend => ⟨n', k', front, hsaw, hcount, hend⟩

theorem tryPopSlice_nil_ends (hs : (ringCalls r).Holds s)
    (h : (ringThreads r).CallEnds .consumer (.tryPopSlice []) s t) :
    PopEnds r s.mem.taken s.mem.accepted.length (cachedItems s.mem) (.slice [] 0) t.mem := by
  refine consumer_returns hs rfl (PopEnds.stable _) ?_ h
  apply (tryPopSlice_pops []).bind
  rintro _ u hu ⟨rfl, hpop⟩
  exact consumerReturns_pops _ u hu hpop

theorem availableCount_ends (hs : (ringCalls r).Holds s)
    (h : (ringThreads r).CallEnds .consumer .availableCount s t) :
    ∃ n' k, PopEnds r s.mem.taken n' k (.count k) t.mem := by
  refine consumer_returns (Q := fun u => ∃ n' k, PopEnds r s.mem.taken n' k (.count k) u) hs rfl
    (.ex fun _ => .ex fun _ => PopEnds.stable _) ?_ h
  apply availableCount_pops.bind
  rintro count u hu ⟨n', -, -, hpop⟩
  exact (consumerReturns_pops _ u hu hpop).mono fun _ _ _ hend => ⟨n', count.toNat, hend⟩

/-- As long as the consumer sees items, its tries return them one by one. -/
theorem tryPops_end {out : RingOut T} (hs : (ringCalls r).Holds s)
    (hidle : s.running .consumer = none) (hend : PopEnds r B n k out s.mem) {m : Nat} (hle : m ≤ k)
    {outs : List (Option (RingOut T))}
    (h : (ringThreads r).Calls .consumer (·.consumerOut) s (List.replicate m .tryPop) outs t) :
    (ringCalls r).Holds t ∧ t.running .consumer = none ∧ ∃ front, front.length = m ∧
      (outs = front.map fun v => some (.item (some v))) ∧
      ∃ n' out', PopEnds r (B ++ front) n' (k - m) out' t.mem := by
  induction m generalizing s B n k out outs with
  | zero =>
    cases h
    exact ⟨hs, hidle, [], rfl, rfl, n, out, by simpa using hend⟩
  | succ m ih =>
    rw [List.replicate_succ] at h
    cases h with
    | cons hcall hrest =>
      obtain ⟨n', k', hsaw, hnext⟩ := tryPop_ends hs hcall
      rw [hend.cachedItems_eq, Saw, if_neg (by omega)] at hsaw
      obtain ⟨-, rfl⟩ := hsaw
      obtain ⟨v, -, hnext⟩ | ⟨h0, -⟩ := hnext
      · have hu := (ringCalls_sound r).callEnds_holds hs hcall
        obtain ⟨ht, htidle, front, hlen, houts, n'', out', htend⟩ :=
          ih hu hcall.idle hnext (by omega) hrest
        refine ⟨ht, htidle, v :: front, by rw [List.length_cons, hlen], ?_, n'', out', ?_⟩
        · rw [houts, hnext.1, List.map_cons]
        · rw [hend.taken, List.append_assoc, List.singleton_append, Nat.sub_sub, Nat.add_comm] at htend
          exact htend
      · omega

theorem PopEnds.callEnds {out : RingOut T} (h : PopEnds r B n k out s.mem)
    (hidle : s.running .consumer = none) (op : RingOp T W)
    {c : RingState w T W × Prog (RingState w T W) PUnit} (hop : consumerCall r s.mem op = some c) :
    ∃ u, (ringThreads r).CallEnds .consumer op s u := by
  obtain ⟨-, j, hpop⟩ := h
  have hfuture : s.mem.popFuture = none := congrArg Prod.fst hpop.own
  apply Threads.exists_callEnds (fun _ => rfl)
  simp [Threads.exec, hidle, ringThreads, ringCall, hpop.alive, hfuture, hop]
  rfl

theorem tryPops_return {out : RingOut T} (hs : (ringCalls r).Holds s)
    (hend : PopEnds r B n k out s.mem) (hidle : s.running .consumer = none) (m : Nat) :
    ∃ outs u, (ringThreads r).Calls .consumer (·.consumerOut) s (List.replicate m .tryPop) outs u := by
  induction m generalizing s B n k out with
  | zero => exact ⟨[], s, .nil s⟩
  | succ m ih =>
    obtain ⟨v, hv⟩ := hend.callEnds hidle .tryPop rfl
    have hvs := (ringCalls_sound r).callEnds_holds hs hv
    obtain ⟨_, _, -, hend⟩ := tryPop_ends hs hv
    have hnext : ∃ outs u,
        (ringThreads r).Calls .consumer (·.consumerOut) v (List.replicate m .tryPop) outs u := by
      obtain ⟨_, -, hend⟩ | ⟨-, hend⟩ := hend
      · exact ih hvs hend hv.idle
      · exact ih hvs hend hv.idle
    obtain ⟨outs, u, hu⟩ := hnext
    exact ⟨_, u, .cons hv hu⟩

end Pop

section Guarantees

variable {s t : ThreadState (RingState w T W) RingSide PUnit}

/-- The producer's next `k` tries succeed, and a slice finds the room that they have left. -/
def KeepsRoom (r : RingBuf w) (k : Nat) (t : ThreadState (RingState w T W) RingSide PUnit) : Prop :=
  ∀ values : List T, values.length ≤ k →
    (∃ outs u, (ringThreads r).Calls .producer (·.producerOut) t (values.map .tryPush) outs u) ∧
    ∀ outs u, (ringThreads r).Calls .producer (·.producerOut) t (values.map .tryPush) outs u →
      outs = List.replicate values.length (some .done) ∧
      u.mem.accepted = t.mem.accepted ++ values ∧
      ∀ items, (∃ v, (ringThreads r).CallEnds .producer (.tryPushSlice items) u v) ∧
        ∀ v, (ringThreads r).CallEnds .producer (.tryPushSlice items) u v →
          ∃ c, v.mem.producerOut = some (.count c) ∧ min items.length (k - values.length) ≤ c ∧
            v.mem.accepted = u.mem.accepted ++ items.take c

def KeepsItems (r : RingBuf w) (k : Nat) (t : ThreadState (RingState w T W) RingSide PUnit) : Prop :=
  ∀ m ≤ k,
    (∃ outs u, (ringThreads r).Calls .consumer (·.consumerOut) t (List.replicate m .tryPop) outs u) ∧
    ∀ outs u, (ringThreads r).Calls .consumer (·.consumerOut) t (List.replicate m .tryPop) outs u →
      ∃ values : List T, values.length = m ∧
        (outs = values.map fun v => some (.item (some (some v)))) ∧
        u.mem.taken = t.mem.taken ++ values.map some ∧
        ∀ items, (∃ v, (ringThreads r).CallEnds .consumer (.tryPopSlice items) u v) ∧
          ∀ v, (ringThreads r).CallEnds .consumer (.tryPopSlice items) u v →
            ∃ c filled, v.mem.consumerOut = some (.slice filled c) ∧ min items.length (k - m) ≤ c ∧
              v.mem.taken = u.mem.taken ++ filled.take c

theorem PushEnds.slice_room {A : List T} {n k : Nat} {out : RingOut T} (hs : (ringCalls r).Holds s)
    (hend : PushEnds r A n k out s.mem) {items : List T}
    (h : (ringThreads r).CallEnds .producer (.tryPushSlice items) s t) :
    ∃ c, t.mem.producerOut = some (.count c) ∧ min items.length k ≤ c ∧
      t.mem.accepted = s.mem.accepted ++ items.take c := by
  by_cases hne : items = []
  · subst hne
    have hnil := tryPushSlice_nil_ends hs h
    exact ⟨0, hnil.1, by simp, by simpa using hnil.accepted⟩
  · obtain ⟨n', k', hlook, hslice⟩ := tryPushSlice_ends hs hne h
    refine ⟨_, hslice.1, ?_, hslice.accepted⟩
    rw [hend.cachedRoom_eq, Looked] at hlook
    split at hlook <;> omega

theorem PopEnds.slice_items {B : List (Option T)} {n k : Nat} {out : RingOut T}
    (hs : (ringCalls r).Holds s) (hend : PopEnds r B n k out s.mem) {items : List T}
    (h : (ringThreads r).CallEnds .consumer (.tryPopSlice items) s t) :
    ∃ c filled, t.mem.consumerOut = some (.slice filled c) ∧ min items.length k ≤ c ∧
      t.mem.taken = s.mem.taken ++ filled.take c := by
  by_cases hne : items = []
  · subst hne
    have hnil := tryPopSlice_nil_ends hs h
    exact ⟨0, [], hnil.1, by simp, by simpa using hnil.taken⟩
  · obtain ⟨n', k', front, hsaw, hlen, hslice⟩ := tryPopSlice_ends hs hne h
    refine ⟨_, _, hslice.1, ?_, by rw [List.take_left]; exact hslice.taken⟩
    rw [hend.cachedItems_eq, Saw] at hsaw
    split at hsaw <;> omega

theorem PushEnds.keepsRoom {A : List T} {n k : Nat} {out : RingOut T} (ht : (ringCalls r).Holds t)
    (hidle : t.running .producer = none) (hend : PushEnds r A n k out t.mem) : KeepsRoom r k t := by
  intro values hle
  refine ⟨tryPushes_return ht hend hidle values, fun outs u hcalls => ?_⟩
  obtain ⟨hu, huidle, houts, n', out', huend⟩ := tryPushes_end ht hidle hend hle hcalls
  refine ⟨houts, by rw [huend.accepted, hend.accepted], fun items => ⟨?_, fun v hslice => ?_⟩⟩
  · exact huend.callEnds huidle _ rfl
  · exact huend.slice_room hu hslice

theorem PopEnds.keepsItems {B : List (Option T)} {n k : Nat} {out : RingOut T}
    (ht : (ringCalls r).Holds t) (hidle : t.running .consumer = none)
    (hend : PopEnds r B n k out t.mem) : KeepsItems r k t := by
  intro m hle
  refine ⟨tryPops_return ht hend hidle m, fun outs u hcalls => ?_⟩
  obtain ⟨hu, huidle, front, hlen, houts, n', out', huend⟩ := tryPops_end ht hidle hend hle hcalls
  -- every item that was ever published is one that a push has written
  have hfront := taken_front hu.1.1 huend.taken
  have hvalues : front.length = ((u.mem.accepted.drop B.length).take front.length).length := by
    have := congrArg List.length hfront
    rwa [List.length_map] at this
  refine ⟨(u.mem.accepted.drop B.length).take front.length, by omega, ?_, ?_,
    fun items => ⟨?_, fun v hslice => ?_⟩⟩
  · rw [houts]
    nth_rewrite 1 [hfront]
    rw [List.map_map]
    rfl
  · rw [← hfront, huend.taken, hend.taken]
  · exact huend.callEnds huidle _ rfl
  · exact huend.slice_items hu hslice

/-- Neither count underflows, and each is a promise for the calls that follow it. -/
theorem counts_are_guarantees (w : Nat) (r : RingBuf w) (T W : Type) [Waker W]
    (s t : ThreadState (RingState w T W) RingSide PUnit) (hs : (ringThreads r).machine.Reachable s) :
    ((ringThreads r).CallEnds .producer .freeCount s t → ∃ k,
      t.mem.producerOut = some (.count k) ∧
      k + (t.mem.producer.cachedWrite - t.mem.producer.cachedRead).toNat = r.capacity.toNat ∧
      KeepsRoom r k t) ∧
    ((ringThreads r).CallEnds .consumer .availableCount s t → ∃ k,
      t.mem.consumerOut = some (.count k) ∧
      k = (t.mem.consumer.cachedWrite - t.mem.consumer.cachedRead).toNat ∧
      k ≤ r.capacity.toNat ∧ KeepsItems r k t) := by
  have hs := (ringCalls_sound r).reachable hs
  constructor
  · intro h
    obtain ⟨n, k, hend⟩ := freeCount_ends hs h
    have ht := (ringCalls_sound r).callEnds_holds hs h
    refine ⟨k, hend.1, ?_, hend.keepsRoom ht h.idle⟩
    obtain ⟨-, j, hpush⟩ := hend
    have hused := hpush.used_le
    have hspace := hpush.space
    omega
  · intro h
    obtain ⟨n, k, hend⟩ := availableCount_ends hs h
    have ht := (ringCalls_sound r).callEnds_holds hs h
    refine ⟨k, hend.1, hend.cachedItems_eq.symm, ?_, hend.keepsItems ht h.idle⟩
    obtain ⟨-, j, hpop⟩ := hend
    exact hpop.le_capacity

/-- One item in a ring of two: room for one more, and one to take. -/
theorem counts_of_one_item :
    ∃ t : ThreadState (RingState 8 Nat Waker.OfTask) RingSide PUnit,
      (ringThreads ⟨2, 1, rfl⟩).machine.Reachable t ∧
      t.mem.producerOut = some (.count 1) ∧ KeepsRoom ⟨2, 1, rfl⟩ 1 t ∧
      t.mem.consumerOut = some (.count 1) ∧ KeepsItems ⟨2, 1, rfl⟩ 1 t := by
  obtain ⟨t, hrun, hproducer, hconsumer, hused, hcount⟩ := Machine.exists_end
    (M := (ringThreads (w := 8) (T := Nat) (W := Waker.OfTask) ⟨2, 1, rfl⟩).machine)
    (P := fun t => t.running .producer = none ∧ t.running .consumer = none ∧
      (t.mem.producer.cachedWrite - t.mem.producer.cachedRead).toNat = 1 ∧
      (t.mem.consumer.cachedWrite - t.mem.consumer.cachedRead).toNat = 1)
    (c := fun t => decide ((t.running .producer).isNone ∧ (t.running .consumer).isNone ∧
      (t.mem.producer.cachedWrite - t.mem.producer.cachedRead).toNat = 1 ∧
      (t.mem.consumer.cachedWrite - t.mem.consumer.cachedRead).toNat = 1))
    ((.call .producer (.tryPush 7) :: List.replicate 7 (.step .producer)) ++
      .call .consumer .availableCount :: (List.replicate 4 (.step .consumer) ++
        .call .producer .freeCount :: List.replicate 4 (.step .producer)))
    (by decide +kernel) (fun t _ ht => by
      obtain ⟨hproducer, hconsumer, hcached⟩ := of_decide_eq_true ht
      exact ⟨by simpa using hproducer, by simpa using hconsumer, hcached⟩)
  obtain ⟨s, hs, hitems⟩ := Threads.CallEnds.of_run hrun (by simp) hconsumer
  obtain ⟨k, hk, hcached, -, hkeeps⟩ := (counts_are_guarantees 8 _ Nat Waker.OfTask s t ⟨_, hs⟩).2 hitems
  rw [← List.cons_append, ← List.append_assoc] at hrun
  obtain ⟨s', hs', hroom⟩ := Threads.CallEnds.of_run hrun (by simp) hproducer
  obtain ⟨k', hk', hsum, hkeeps'⟩ :=
    (counts_are_guarantees 8 _ Nat Waker.OfTask s' t ⟨_, hs'⟩).1 hroom
  have hk'1 : k' = 1 := by
    rw [hused] at hsum
    exact Nat.add_right_cancel (hsum.trans (rfl : (2 : Nat) = 1 + 1))
  have hk1 : k = 1 := hcached.trans hcount
  subst hk'1 hk1
  exact ⟨t, ⟨_, hrun⟩, hk', hkeeps', hk, hkeeps⟩

end Guarantees

end Cynosure.SiteD.Ring
