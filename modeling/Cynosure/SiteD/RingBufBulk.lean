import Cynosure.SiteD.RingBufCounts

/-! # Bulk operations of the ring buffer against single ones

`try_push_slice` and `try_pop_slice` take one look at the other side's index and copy in two
blocks around the end of the buffer; as many calls of `try_push` and `try_pop` look and mask
once for every item. Both leave the same ring.
-/

namespace Cynosure.SiteD.Ring

open Prog

variable {w : Nat} {T W : Type} [Waker W] {r : RingBuf w}

/-- One `try_push` after the other until one fails, and how many succeeded. -/
def tryPushEach (r : RingBuf w) : List T → Prog (RingState w T W) Nat
  | [] => pure 0
  | x :: xs => do
    match ← tryPush r x with
    | .ok _ => do
      let n ← tryPushEach r xs
      pure (n + 1)
    | .error _ => pure 0

/-- One `try_pop` after the other until one fails, and what they returned. -/
def tryPopEach (r : RingBuf w) : Nat → Prog (RingState w T W) (List (Option T))
  | 0 => pure []
  | n + 1 => do
    match ← tryPop r with
    | some v => do
      let vs ← tryPopEach r n
      pure (v :: vs)
    | none => pure []

section Push

variable {o : Option (PushFuture T) × Nat} {A : List T} {n k : Nat}

theorem tryPushEach_keeps (xs : List T) : ProducerKeeps (W := W) r (tryPushEach r xs) := by
  induction xs with
  | nil => exact .ret Filling.stable fun _ _ h => h
  | cons x xs ih =>
    apply (tryPush_keeps x).bind
    rintro (v | ⟨⟩)
    · exact .ret Filling.stable fun _ _ h => h
    · exact ih.bind fun _ => .ret Filling.stable fun _ _ h => h

theorem tryPushEach_own (xs : List T) : (tryPushEach (W := W) r xs).Always ConsumerOwn := by
  induction xs with
  | nil => exact always_pure _
  | cons x xs ih =>
    apply always_bind (tryPush_own r x)
    rintro (v | ⟨⟩)
    · exact always_pure _
    · exact always_bind ih fun _ => always_pure _

/-- Behind the first look there is room for all of them, so none looks again. -/
theorem tryPushEach_pushes (xs : List T) (hfits : ∀ n' k', Looked r A n k n' k' → xs.length ≤ k') :
    (producerKnown (W := W) r).Triple (Pushing r o A n k 0) (tryPushEach r xs)
      fun count s => count = xs.length ∧ s.accepted = A ++ xs := by
  induction xs generalizing A n k with
  | nil => exact .ret Pushing.stable fun s _ h => ⟨rfl, by rw [h.accepted, List.append_nil]⟩
  | cons x xs ih =>
    apply (tryPush_pushes x).bind
    rintro (v | ⟨⟩) s hs ⟨n', k', hlook, hres⟩
    · have hle := hfits n' k' hlook
      rw [List.length_cons] at hle
      omega
    · obtain ⟨hpos, h⟩ := hres
      have hle := hfits n' k' hlook
      rw [List.length_cons] at hle
      have hnext : ∀ n'' k'', Looked r (A ++ [x]) n' (k' - 1) n'' k'' → xs.length ≤ k'' := by
        intro n'' k'' hlook'
        rw [Looked] at hlook'
        split at hlook' <;> omega
      refine (ih hnext s hs h).bind fun count => ?_
      rintro t ht ⟨rfl, hacc⟩
      intro u hu htu
      refine ⟨rfl, ?_⟩
      rw [(show ProducerRely t u from htu.1.1).accepted, hacc, List.append_assoc,
        List.singleton_append]

omit [Waker W] in
theorem producer_evals {α : Type} {p : Prog (RingState w T W) α} {Q : α → RingState w T W → Prop}
    {m : RingState w T W} (hkeeps : ProducerKeeps r p) (hown : p.Always ConsumerOwn)
    (hI : RingInv r m) (hrest : Filling r 0 0 ([] : List T) m)
    (hp : (producerKnown r).Triple (Pushing r (m.pushFuture, m.pushed) m.accepted m.taken.length
      (cachedRoom r m) 0) p Q) :
    RingInv r (p.eval m).2 ∧ (p.eval m).2.taken = m.taken ∧ Q (p.eval m).1 (p.eval m).2 := by
  have hbase : ((ringCalls r).contract .producer).Ok (fun _ => Filling r 0 0 []) p m :=
    Outline.both_triple hkeeps (fun _ => trivial) (hown.mono ringOwn_producer) m ⟨hI, trivial⟩ hrest
  have hknown := hp m ⟨⟨hI, trivial⟩, trivial⟩ (Pushing.of_rest hrest hI)
  obtain ⟨hinv, hQ, hrely⟩ := (hbase.with_known hknown).eval (R := ConsumerRely) ⟨hI, trivial⟩
    (fun _ => ⟨rfl, rfl, List.prefix_rfl, rfl⟩)
    (fun hab hbc => ⟨hbc.handle.trans hab.handle, hbc.taken.trans hab.taken,
      hab.accepted.trans hbc.accepted, hbc.alive.trans hab.alive⟩)
    fun hguar => (hguar .consumer (by decide)).1
  exact ⟨hinv.1, hrely.taken, hQ.2⟩

omit [Waker W] in
/-- No room behind a look: the ring was full already, and nothing has been taken since. -/
theorem looked_full {s : RingState w T W} (hI : RingInv r s) {n' : Nat}
    (h : Looked r s.accepted s.taken.length k n' 0) :
    n' = s.taken.length ∧ (s.stored r).length = r.capacity.toNat := by
  have hle := hI.le
  have hbound := hI.bound
  rw [Looked] at h
  split at h
  · rw [hI.stored_eq, List.length_map, List.length_drop]
    omega
  · omega

/-- Alone, `try_push_slice` does what as many calls of `try_push` do. -/
def PushSliceAgrees (r : RingBuf w) (items : List T) (s : RingState w T W) : Prop :=
  ∃ k, ((tryPushSlice r items).eval s).1 = k ∧ k ≤ items.length ∧
    ((tryPushEach r (items.take k)).eval s).1 = k ∧
    ((tryPushSlice r items).eval s).2.stored r = ((tryPushEach r (items.take k)).eval s).2.stored r ∧
    ((tryPushSlice r items).eval s).2.writeIndex =
      ((tryPushEach r (items.take k)).eval s).2.writeIndex ∧
    (items ≠ [] → k = 0 → (s.stored r).length = r.capacity.toNat)

theorem tryPushSlice_count (items : List T) {s : RingState w T W} (hI : RingInv r s)
    (hrest : Filling r 0 0 ([] : List T) s) :
    ∃ count, ((tryPushSlice r items).eval s).1 = count ∧ count ≤ items.length ∧
      RingInv r ((tryPushSlice r items).eval s).2 ∧
      ((tryPushSlice r items).eval s).2.taken = s.taken ∧
      ((tryPushSlice r items).eval s).2.accepted = s.accepted ++ items.take count ∧
      (∀ n' k', Looked r s.accepted s.taken.length (cachedRoom r s) n' k' → count ≤ k') ∧
      (items ≠ [] → count = 0 → (s.stored r).length = r.capacity.toNat) := by
  obtain ⟨hinv, htaken, hslice⟩ := producer_evals (tryPushSlice_keeps items)
    (tryPushSlice_own r items) hI hrest (tryPushSlice_pushes items)
  refine ⟨_, rfl, ?_⟩
  rw [TryPushedSlice] at hslice
  split at hslice
  · rename_i hnil
    obtain ⟨hcount, h⟩ := hslice
    rw [hcount]
    exact ⟨Nat.zero_le _, hinv, htaken, by rw [h.accepted]; simp, fun _ _ _ => Nat.zero_le _,
      fun hne => absurd hnil hne⟩
  · obtain ⟨n', k', hlook, hcount, h⟩ := hslice
    have hn' := h.taken
    rw [htaken] at hn'
    refine ⟨by omega, hinv, htaken, h.accepted, fun n'' k'' hlook' => ?_, fun hne h0 => ?_⟩
    · rw [Looked] at hlook hlook'
      split at hlook
      · rename_i hzero
        rw [if_pos hzero] at hlook'
        omega
      · rename_i hpos
        rw [if_neg hpos] at hlook'
        omega
    · have hk' : k' = 0 := by
        have := List.length_pos_iff.mpr hne
        omega
      rw [hk'] at hlook
      exact (looked_full hI hlook).2

theorem pushSlice_agrees (items : List T) {s : RingState w T W} (hI : RingInv r s)
    (hrest : Filling r 0 0 ([] : List T) s) : PushSliceAgrees r items s := by
  obtain ⟨k, hk, hle, hinv, htaken, hacc, hfits, hfull⟩ := tryPushSlice_count items hI hrest
  have hlen : (items.take k).length = k := by rw [List.length_take, min_eq_left hle]
  obtain ⟨hinv', htaken', hcount, hacc'⟩ := producer_evals (tryPushEach_keeps (items.take k))
    (tryPushEach_own (items.take k)) hI hrest
    (tryPushEach_pushes (items.take k) fun n' k' h => hlen.trans_le (hfits n' k' h))
  refine ⟨k, hk, hle, hcount.trans hlen, ?_, ?_, hfull⟩
  · rw [hinv.stored_eq, hinv'.stored_eq, hacc, hacc', htaken, htaken']
  · rw [hinv.write, hinv'.write, hacc, hacc']

end Push

section Pop

variable {o : Option (PopFuture T) × Nat} {B : List (Option T)} {n k : Nat}

theorem tryPopEach_keeps (m : Nat) : ConsumerKeeps (T := T) (W := W) r (tryPopEach r m) := by
  induction m with
  | zero => exact .ret Taking.stable fun _ _ h => h
  | succ m ih =>
    apply tryPop_keeps.bind
    rintro (_ | v)
    · exact .ret Taking.stable fun _ _ h => h
    · exact ih.bind fun _ => .ret Taking.stable fun _ _ h => h

theorem tryPopEach_own (m : Nat) : (tryPopEach (T := T) (W := W) r m).Always ProducerOwn := by
  induction m with
  | zero => exact always_pure _
  | succ m ih =>
    apply always_bind (tryPop_own r)
    rintro (_ | v)
    · exact always_pure _
    · exact always_bind ih fun _ => always_pure _

theorem tryPopEach_pops (m : Nat) (hfits : ∀ n' k', Saw B n k n' k' → m ≤ k') :
    (consumerKnown (W := W) r).Triple (Popping r o B n k 0) (tryPopEach r m)
      fun vs s => vs.length = m ∧ s.taken = B ++ vs := by
  induction m generalizing B n k with
  | zero => exact .ret Popping.stable fun s _ h => ⟨rfl, by rw [h.taken, List.append_nil]⟩
  | succ m ih =>
    apply tryPop_pops.bind
    rintro (_ | v) s hs ⟨n', k', hsaw, hres⟩
    · have hle := hfits n' k' hsaw
      omega
    · obtain ⟨hpos, h⟩ := hres
      have hle := hfits n' k' hsaw
      have hnext : ∀ n'' k'', Saw (B ++ [v]) n' (k' - 1) n'' k'' → m ≤ k'' := by
        intro n'' k'' hsaw'
        rw [Saw] at hsaw'
        split at hsaw' <;> omega
      refine (ih hnext s hs h).bind fun vs => ?_
      rintro t ht ⟨rfl, htaken⟩
      intro u hu htu
      refine ⟨rfl, ?_⟩
      rw [(show ConsumerRely t u from htu.1.1).taken, htaken, List.append_assoc, List.singleton_append]

omit [Waker W] in
theorem consumer_evals {α : Type} {p : Prog (RingState w T W) α} {Q : α → RingState w T W → Prop}
    {m : RingState w T W} (hkeeps : ConsumerKeeps r p) (hown : p.Always ProducerOwn)
    (hI : RingInv r m) (hrest : Taking 0 0 ([] : List (Option T)) m)
    (hp : (consumerKnown r).Triple (Popping r (m.popFuture, m.popped) m.taken m.accepted.length
      (cachedItems m) 0) p Q) :
    RingInv r (p.eval m).2 ∧ (p.eval m).2.accepted = m.accepted ∧ Q (p.eval m).1 (p.eval m).2 := by
  have hbase : ((ringCalls r).contract .consumer).Ok (fun _ => Taking 0 0 []) p m :=
    Outline.both_triple hkeeps (fun _ => trivial) (hown.mono ringOwn_consumer) m ⟨hI, trivial⟩ hrest
  have hknown := hp m ⟨⟨hI, trivial⟩, trivial⟩ (Popping.of_rest hrest hI)
  obtain ⟨hinv, hQ, hrely⟩ := (hbase.with_known hknown).eval (R := ProducerRely) ⟨hI, trivial⟩
    (fun _ => ⟨rfl, rfl, rfl, le_rfl, rfl⟩)
    (fun hab hbc => ⟨hbc.buffer.trans hab.buffer, hbc.handle.trans hab.handle,
      hbc.accepted.trans hab.accepted, hab.taken.trans hbc.taken, hbc.alive.trans hab.alive⟩)
    fun hguar => (hguar .producer (by decide)).1
  exact ⟨hinv.1, hrely.accepted, hQ.2⟩

omit [Waker W] in
/-- No items behind a look: the ring was empty already, and nothing has been published since. -/
theorem saw_empty {s : RingState w T W} (hI : RingInv r s) {n' : Nat}
    (h : Saw s.taken s.accepted.length k n' 0) :
    n' = s.accepted.length ∧ s.stored r = [] := by
  have hle := hI.le
  rw [Saw] at h
  split at h
  · rw [hI.stored_eq, List.map_eq_nil_iff, List.drop_eq_nil_iff]
    omega
  · omega

/-- Alone, `try_pop_slice` does what as many calls of `try_pop` do. -/
def PopSliceAgrees (r : RingBuf w) (items : List (Option T)) (s : RingState w T W) : Prop :=
  ∃ k filled, ((tryPopSlice r items).eval s).1 = (k, filled) ∧ k ≤ items.length ∧
    filled = ((tryPopEach r k).eval s).1 ++ items.drop k ∧ ((tryPopEach r k).eval s).1.length = k ∧
    ((tryPopSlice r items).eval s).2.stored r = ((tryPopEach r k).eval s).2.stored r ∧
    ((tryPopSlice r items).eval s).2.readIndex = ((tryPopEach r k).eval s).2.readIndex ∧
    (items ≠ [] → k = 0 → s.stored r = [])

theorem tryPopSlice_count (items : List (Option T)) {s : RingState w T W} (hI : RingInv r s)
    (hrest : Taking 0 0 ([] : List (Option T)) s) :
    ∃ front, ((tryPopSlice r items).eval s).1 = (front.length, front ++ items.drop front.length) ∧
      front.length ≤ items.length ∧ RingInv r ((tryPopSlice r items).eval s).2 ∧
      ((tryPopSlice r items).eval s).2.accepted = s.accepted ∧
      ((tryPopSlice r items).eval s).2.taken = s.taken ++ front ∧
      (∀ n' k', Saw s.taken s.accepted.length (cachedItems s) n' k' → front.length ≤ k') ∧
      (items ≠ [] → front.length = 0 → s.stored r = []) := by
  obtain ⟨hinv, hacc, hslice⟩ := consumer_evals (tryPopSlice_keeps items)
    (tryPopSlice_own r items) hI hrest (tryPopSlice_pops items)
  rw [TryPoppedSlice] at hslice
  split at hslice
  · rename_i hnil
    obtain ⟨hres, h⟩ := hslice
    refine ⟨[], ?_, Nat.zero_le _, hinv, hacc, by rw [h.taken]; simp, fun _ _ _ => Nat.zero_le _,
      fun hne => absurd hnil hne⟩
    rw [hres]
    simp
  · obtain ⟨n', k', front, hsaw, hcount, hlen, hfilled, h⟩ := hslice
    have hn' := h.accepted
    rw [hacc] at hn'
    refine ⟨front, ?_, by omega, hinv, hacc, h.taken, fun n'' k'' hsaw' => ?_, fun hne h0 => ?_⟩
    · rw [hlen]
      exact Prod.ext rfl hfilled
    · rw [Saw] at hsaw hsaw'
      split at hsaw
      · rename_i hzero
        rw [if_pos hzero] at hsaw'
        omega
      · rename_i hpos
        rw [if_neg hpos] at hsaw'
        omega
    · have hk' : k' = 0 := by
        have := List.length_pos_iff.mpr hne
        omega
      rw [hk'] at hsaw
      exact (saw_empty hI hsaw).2

theorem popSlice_agrees (items : List (Option T)) {s : RingState w T W} (hI : RingInv r s)
    (hrest : Taking 0 0 ([] : List (Option T)) s) : PopSliceAgrees r items s := by
  obtain ⟨front, hres, hle, hinv, hacc, htaken, hfits, hempty⟩ :=
    tryPopSlice_count items hI hrest
  obtain ⟨hinv', hacc', hlen, htaken'⟩ := consumer_evals (tryPopEach_keeps front.length)
    (tryPopEach_own front.length) hI hrest (tryPopEach_pops front.length hfits)
  -- both fronts are the oldest items of the ring
  have hfront : ((tryPopEach r front.length).eval s).1 = front := by
    have hslice := taken_front hinv htaken
    have heach := taken_front hinv' htaken'
    rw [hacc] at hslice
    rw [hacc', hlen] at heach
    exact heach.trans hslice.symm
  refine ⟨front.length, _, hres, hle, by rw [hfront], hlen, ?_, ?_, hempty⟩
  · rw [hinv.stored_eq, hinv'.stored_eq, hacc, hacc', htaken, htaken', hfront]
  · rw [hinv.read, hinv'.read, htaken, htaken', hfront]

end Pop

section Interleaved

variable {s t : ThreadState (RingState w T W) RingSide PUnit}

theorem tryPushes_done (hs : (ringCalls r).Holds s) {xs : List T} {outs : List (Option (RingOut T))}
    (hdone : ∀ out ∈ outs, out = some .done)
    (h : (ringThreads r).Calls .producer (·.producerOut) s (xs.map .tryPush) outs t) :
    (ringCalls r).Holds t ∧ t.mem.accepted = s.mem.accepted ++ xs := by
  induction xs generalizing s outs with
  | nil =>
    cases h
    exact ⟨hs, by simp⟩
  | cons x xs ih =>
    rw [List.map_cons] at h
    cases h with
    | cons hcall hrest =>
      have hout := hdone _ List.mem_cons_self
      have hu := (ringCalls_sound r).callEnds_holds hs hcall
      obtain ⟨ht, hacc⟩ := ih hu (fun out hmem => hdone out (List.mem_cons_of_mem _ hmem)) hrest
      obtain ⟨n', k', -, ⟨-, hend⟩ | ⟨-, hend⟩⟩ := tryPush_ends hs hcall
      · refine ⟨ht, ?_⟩
        rw [hacc, hend.accepted, List.append_assoc, List.singleton_append]
      · rw [hend.1] at hout
        cases hout

theorem tryPops_some (hs : (ringCalls r).Holds s) {m : Nat} {outs : List (Option (RingOut T))}
    (hsome : ∀ out ∈ outs, out ≠ some (.item none))
    (h : (ringThreads r).Calls .consumer (·.consumerOut) s (List.replicate m .tryPop) outs t) :
    (ringCalls r).Holds t ∧ ∃ front, front.length = m ∧ t.mem.taken = s.mem.taken ++ front ∧
      outs = front.map fun v => some (.item (some v)) := by
  induction m generalizing s outs with
  | zero =>
    cases h
    exact ⟨hs, [], rfl, by simp, rfl⟩
  | succ m ih =>
    rw [List.replicate_succ] at h
    cases h with
    | cons hcall hrest =>
      have hout := hsome _ List.mem_cons_self
      have hu := (ringCalls_sound r).callEnds_holds hs hcall
      obtain ⟨ht, front, hlen, htaken, houts⟩ :=
        ih hu (fun out hmem => hsome out (List.mem_cons_of_mem _ hmem)) hrest
      obtain ⟨n', k', -, ⟨v, -, hend⟩ | ⟨-, hend⟩⟩ := tryPop_ends hs hcall
      · refine ⟨ht, v :: front, by rw [List.length_cons, hlen], ?_, ?_⟩
        · rw [htaken, hend.taken, List.append_assoc, List.singleton_append]
        · rw [houts, hend.1, List.map_cons]
      · exact absurd hend.1 hout

/-- What a call of `try_push_slice` that has returned shares with as many calls of `try_push` that
succeeded, whatever the consumer did during either. -/
structure PushSliceEnds (r : RingBuf w) (items : List T) (k : Nat)
    (s t : ThreadState (RingState w T W) RingSide PUnit) : Prop where
  out : t.mem.producerOut = some (.count k)
  le : k ≤ items.length
  accepted : t.mem.accepted = s.mem.accepted ++ items.take k
  single : ∀ outs u, (∀ out ∈ outs, out = some .done) →
    (ringThreads r).Calls .producer (·.producerOut) s ((items.take k).map .tryPush) outs u →
    u.mem.writeIndex = t.mem.writeIndex ∧
      (u.mem.taken = t.mem.taken → u.mem.stored r = t.mem.stored r)
  full : items ≠ [] → k = 0 →
    (s.mem.stored r).length = r.capacity.toNat ∧ t.mem.producer.cachedRead = s.mem.readIndex

structure PopSliceEnds (r : RingBuf w) (items : List T) (k : Nat) (filled : List (Option T))
    (s t : ThreadState (RingState w T W) RingSide PUnit) : Prop where
  out : t.mem.consumerOut = some (.slice filled k)
  le : k ≤ items.length
  unchanged : filled.drop k = (items.map some).drop k
  taken : t.mem.taken = s.mem.taken ++ filled.take k
  single : ∀ outs u, (∀ out ∈ outs, out ≠ some (.item none)) →
    (ringThreads r).Calls .consumer (·.consumerOut) s (List.replicate k .tryPop) outs u →
    u.mem.readIndex = t.mem.readIndex ∧ (u.mem.accepted = t.mem.accepted →
      (outs = (filled.take k).map fun v => some (.item (some v))) ∧
        u.mem.stored r = t.mem.stored r)
  empty : items ≠ [] → k = 0 → s.mem.stored r = [] ∧ t.mem.consumer.cachedWrite = s.mem.writeIndex

theorem pushSlice_ends (hs : (ringCalls r).Holds s) {items : List T}
    (h : (ringThreads r).CallEnds .producer (.tryPushSlice items) s t) :
    ∃ k, PushSliceEnds r items k s t := by
  have ht := (ringCalls_sound r).callEnds_holds hs h
  have hsingle : ∀ k, t.mem.accepted = s.mem.accepted ++ items.take k →
      ∀ outs u, (∀ out ∈ outs, out = some .done) →
      (ringThreads r).Calls .producer (·.producerOut) s ((items.take k).map .tryPush) outs u →
      u.mem.writeIndex = t.mem.writeIndex ∧
        (u.mem.taken = t.mem.taken → u.mem.stored r = t.mem.stored r) := by
    intro k hk outs u hdone hcalls
    obtain ⟨hu, hacc⟩ := tryPushes_done hs hdone hcalls
    rw [hu.1.1.write, ht.1.1.write, hu.1.1.stored_eq, ht.1.1.stored_eq, hacc, hk]
    exact ⟨rfl, fun htaken => by rw [htaken]⟩
  by_cases hne : items = []
  · subst hne
    have hend := tryPushSlice_nil_ends hs h
    have hacc : t.mem.accepted = s.mem.accepted ++ [].take 0 := by simpa using hend.accepted
    exact ⟨0, hend.1, le_rfl, hacc, hsingle 0 hacc, fun hne => absurd rfl hne⟩
  · obtain ⟨n', k', hlook, hend⟩ := tryPushSlice_ends hs hne h
    refine ⟨_, hend.1, min_le_left _ _, hend.accepted, hsingle _ hend.accepted, fun _ h0 => ?_⟩
    have hk' : k' = 0 := by
      have := List.length_pos_iff.mpr hne
      omega
    subst hk'
    obtain ⟨hn', hfull⟩ := looked_full hs.1.1 hlook
    refine ⟨hfull, ?_⟩
    -- the cached index shows no room, so it is where the shared one was
    obtain ⟨-, j, hpush⟩ := hend
    obtain ⟨c, hc, -, hroom⟩ := hpush.cached
    rw [hs.1.1.stored_eq, List.length_map, List.length_drop] at hfull
    rw [hc, hs.1.1.read]
    congr 1
    simp only [Nat.min_zero, List.take_zero, List.append_nil, Nat.sub_zero] at hroom
    have := hs.1.1.le
    omega

theorem popSlice_ends (hs : (ringCalls r).Holds s) {items : List T}
    (h : (ringThreads r).CallEnds .consumer (.tryPopSlice items) s t) :
    ∃ k filled, PopSliceEnds r items k filled s t := by
  have ht := (ringCalls_sound r).callEnds_holds hs h
  have hsingle : ∀ front, t.mem.taken = s.mem.taken ++ front →
      ∀ outs u, (∀ out ∈ outs, out ≠ some (.item none)) →
      (ringThreads r).Calls .consumer (·.consumerOut) s (List.replicate front.length .tryPop) outs u →
      u.mem.readIndex = t.mem.readIndex ∧ (u.mem.accepted = t.mem.accepted →
        (outs = front.map fun v => some (.item (some v))) ∧ u.mem.stored r = t.mem.stored r) := by
    intro front hfront outs u hsome hcalls
    obtain ⟨hu, front', hlen, htaken, houts⟩ := tryPops_some hs hsome hcalls
    refine ⟨?_, fun hacc => ?_⟩
    · rw [hu.1.1.read, ht.1.1.read, htaken, hfront, List.length_append, List.length_append, hlen]
    · have hsame : front' = front := by
        have h' := taken_front hu.1.1 htaken
        have h := taken_front ht.1.1 hfront
        rw [hlen, hacc] at h'
        exact h'.trans h.symm
      rw [houts, hu.1.1.stored_eq, ht.1.1.stored_eq, htaken, hfront, hacc, hsame]
      exact ⟨rfl, rfl⟩
  by_cases hne : items = []
  · subst hne
    have hend := tryPopSlice_nil_ends hs h
    have htaken : t.mem.taken = s.mem.taken ++ [] := by simpa using hend.taken
    exact ⟨0, [], hend.1, le_rfl, rfl, htaken, hsingle [] htaken, fun hne => absurd rfl hne⟩
  · obtain ⟨n', k', front, hsaw, hlen, hend⟩ := tryPopSlice_ends hs hne h
    refine ⟨front.length, _, hend.1, by omega, by rw [List.drop_left], ?_, ?_, fun _ h0 => ?_⟩
    · rw [List.take_left]
      exact hend.taken
    · rw [List.take_left]
      exact hsingle front hend.taken
    · have hk' : k' = 0 := by
        have := List.length_pos_iff.mpr hne
        omega
      subst hk'
      obtain ⟨-, hempty⟩ := saw_empty hs.1.1 hsaw
      refine ⟨hempty, ?_⟩
      obtain rfl := List.eq_nil_of_length_eq_zero h0
      obtain ⟨-, j, hpop⟩ := hend
      rw [hs.1.1.stored_eq, List.map_eq_nil_iff, List.drop_eq_nil_iff] at hempty
      rw [hpop.cached, hs.1.1.write, List.append_nil, List.length_nil]
      congr 1
      have := hs.1.1.le
      omega

/-- The bulk operations agree with the single ones: alone, from every state in which the side is
idle, and in every interleaving. -/
theorem bulk_agrees_with_single (w : Nat) (r : RingBuf w) (T W : Type) [Waker W]
    (s : ThreadState (RingState w T W) RingSide PUnit) (hs : (ringThreads r).machine.Reachable s) :
    (s.running .producer = none → s.mem.producerAlive = true →
      ∀ items, PushSliceAgrees r items s.mem) ∧
    (∀ items t, (ringThreads r).CallEnds .producer (.tryPushSlice items) s t →
      ∃ k, PushSliceEnds r items k s t) ∧
    (s.running .consumer = none → s.mem.consumerAlive = true →
      ∀ items, PopSliceAgrees r items s.mem) ∧
    (∀ items t, (ringThreads r).CallEnds .consumer (.tryPopSlice items) s t →
      ∃ k filled, PopSliceEnds r items k filled s t) := by
  have hs := (ringCalls_sound r).reachable hs
  refine ⟨fun hidle halive items => ?_, fun items t => pushSlice_ends hs,
    fun hidle halive items => ?_, fun items t => popSlice_ends hs⟩
  · have hrest := hs.2 .producer
    rw [hidle] at hrest
    exact pushSlice_agrees items hs.1.1 (hrest.1 halive)
  · have hrest := hs.2 .consumer
    rw [hidle] at hrest
    exact popSlice_agrees items hs.1.1 (hrest.1 halive)

/-- Two of three items go into an empty ring of two, around its end. -/
theorem bulk_push_around_the_end :
    ∃ s : ThreadState (RingState 8 Nat Waker.OfTask) RingSide PUnit,
      (ringThreads ⟨2, 1, rfl⟩).machine.Reachable s ∧ s.mem.writeIndex = 1 ∧
      ((tryPushSlice ⟨2, 1, rfl⟩ [8, 9, 10]).eval s.mem).1 = 2 ∧
      PushSliceAgrees ⟨2, 1, rfl⟩ [8, 9, 10] s.mem ∧ PopSliceAgrees ⟨2, 1, rfl⟩ [some 0] s.mem := by
  obtain ⟨s, hrun, hproducer, hconsumer, hp, hc, hwrite, hcount⟩ := Machine.exists_end
    (M := (ringThreads (w := 8) (T := Nat) (W := Waker.OfTask) ⟨2, 1, rfl⟩).machine)
    (P := fun s => s.running .producer = none ∧ s.running .consumer = none ∧
      s.mem.producerAlive = true ∧ s.mem.consumerAlive = true ∧ s.mem.writeIndex = 1 ∧
      ((tryPushSlice ⟨2, 1, rfl⟩ [8, 9, 10]).eval s.mem).1 = 2)
    (c := fun s => decide ((s.running .producer).isNone ∧ (s.running .consumer).isNone ∧
      s.mem.producerAlive = true ∧ s.mem.consumerAlive = true ∧ s.mem.writeIndex = 1 ∧
      ((tryPushSlice ⟨2, 1, rfl⟩ [8, 9, 10]).eval s.mem).1 = 2))
    (.call .producer (.tryPush 7) :: List.replicate 7 (.step .producer) ++
      .call .consumer .tryPop :: List.replicate 8 (.step .consumer) ++
      .call .producer .freeCount :: List.replicate 4 (.step .producer))
    (by decide +kernel) fun s _ hs => by
      obtain ⟨hproducer, hconsumer, hrest⟩ := of_decide_eq_true hs
      exact ⟨by simpa using hproducer, by simpa using hconsumer, hrest⟩
  obtain ⟨hpush, -, hpop, -⟩ := bulk_agrees_with_single 8 ⟨2, 1, rfl⟩ Nat Waker.OfTask s ⟨_, hrun⟩
  exact ⟨s, ⟨_, hrun⟩, hwrite, hcount, hpush hproducer hp _, hpop hconsumer hc _⟩

end Interleaved

end Cynosure.SiteD.Ring
