import Cynosure.SiteD.RingBufProducer
import Cynosure.SiteD.RingBufConsumer

/-! # The ring buffer keeps its invariant

Every call of either side keeps its part of the invariant, so it holds in every
reachable state of the two threads.
-/

namespace Cynosure.SiteD

variable {w : Nat} {T W : Type} {r : RingBuf w}

theorem RingInv.init : RingInv r (RingState.init : RingState w T W) where
  write := rfl
  read := rfl
  le := le_rfl
  bound := Nat.zero_le _
  fifo := rfl
  slots := fun i _ hi => by simp [RingState.init] at hi
  sound := ⟨rfl, rfl⟩
  freed := fun _ h => by cases h
  frees := fun h => Bool.noConfusion h

theorem dropLoop_count (buffer : Nat → Option T) (n i : Nat) (hn : n < 2 ^ w) :
    RingState.dropLoop r buffer (BitVec.ofNat w (i + n)) (BitVec.ofNat w i) =
      (List.range n).map fun k => buffer ((i + k) % r.capacity.toNat) := by
  induction n generalizing i with
  | zero =>
    rw [RingState.dropLoop]
    simp
  | succ n ih =>
    have hne : BitVec.ofNat w i ≠ BitVec.ofNat w (i + (n + 1)) :=
      (Word.ofNat_add_ne (by omega) hn).symm
    have hnext := ih (i + 1) (by omega)
    rw [show i + 1 + n = i + (n + 1) by omega, ← Word.ofNat_add_one] at hnext
    rw [RingState.dropLoop, if_neg hne, hnext, RingBuf.mask, Word.toNat_mask r.isPowerOfTwo,
      List.range_succ_eq_map, List.map_cons, List.map_map, Nat.add_zero]
    congr 1
    apply List.map_congr_left
    intro k _
    simp only [Function.comp_apply, Nat.succ_eq_add_one]
    congr 2
    omega

/-- The loop of the destructor meets each stored item once. -/
theorem dropLoop_eq {s : RingState w T W} (h : RingInv r s) :
    RingState.dropLoop r s.buffer s.writeIndex s.readIndex =
      (s.accepted.drop s.taken.length).map some := by
  have hle := h.le
  have hbound := h.bound
  have hlt := RingInv.capacity_lt r
  rw [← h.stored_eq, RingState.stored, h.live_eq, h.write, h.read, List.map_map,
    show s.accepted.length = s.taken.length + (s.accepted.length - s.taken.length) by omega,
    dropLoop_count _ _ _ (by omega)]
  simp [Function.comp_def]

/-- A call that starts by dropping the handle. -/
theorem RingInv.dropProducer {s : RingState w T W} (h : RingInv r s) :
    RingInv r { s with
      producerAlive := false
      dropped := if s.consumerAlive then s.dropped
        else some (RingState.dropLoop r s.buffer s.writeIndex s.readIndex) } := by
  refine { h with freed := fun items hd => ?_, frees := fun _ hc => ?_ }
  swap
  · simp [show s.consumerAlive = false from hc]
  cases hc : s.consumerAlive with
  | true =>
    have := h.not_dropped_of_consumer hc
    simp [hc, this] at hd
  | false =>
    simp only [hc, Bool.false_eq_true, if_false, Option.some.injEq] at hd
    exact ⟨rfl, rfl, by rw [← hd, dropLoop_eq h]⟩

theorem RingInv.dropConsumer {s : RingState w T W} (h : RingInv r s) :
    RingInv r { s with
      consumerAlive := false
      dropped := if s.producerAlive then s.dropped
        else some (RingState.dropLoop r s.buffer s.writeIndex s.readIndex) } := by
  refine { h with freed := fun items hd => ?_, frees := fun hp _ => ?_ }
  swap
  · simp [show s.producerAlive = false from hp]
  cases hp : s.producerAlive with
  | true =>
    have := h.not_dropped_of_producer hp
    simp [hp, this] at hd
  | false =>
    simp only [hp, Bool.false_eq_true, if_false, Option.some.injEq] at hd
    exact ⟨rfl, rfl, by rw [← hd, dropLoop_eq h]⟩

/-- A call of a side: the state it starts in, and the specification of its program. -/
def ProducerStarts (r : RingBuf w) (s : RingState w T W)
    (call : RingState w T W × Prog (RingState w T W) PUnit.{1}) : Prop :=
  RingInv r call.1 ∧ ConsumerRely s call.1 ∧
    (producerContract r).Ok (fun _ t => t.producerAlive = true → Filling r 0 0 [] t) call.2 call.1

def ConsumerStarts (r : RingBuf w) (s : RingState w T W)
    (call : RingState w T W × Prog (RingState w T W) PUnit.{1}) : Prop :=
  RingInv r call.1 ∧ ProducerRely s call.1 ∧
    (consumerContract r).Ok (fun _ t => t.consumerAlive = true → Taking 0 0 [] t) call.2 call.1

theorem ProducerKeeps.starts {s t : RingState w T W} {p : Prog (RingState w T W) PUnit.{1}}
    (hp : ProducerKeeps r p) (hst : SameRing s t) (hI : RingInv r s)
    (h : Filling r 0 0 ([] : List T) s) : ProducerStarts r s (t, p) := by
  have hI' := hst.inv hI
  refine ⟨hI', hst.consumerRely, ?_⟩
  exact (hp t hI' (Filling.stable s t hI' hst.producerRely h)).mono fun _ _ _ hf _ => hf

theorem ConsumerKeeps.starts {s t : RingState w T W} {p : Prog (RingState w T W) PUnit.{1}}
    (hp : ConsumerKeeps r p) (hst : SameRing s t) (hI : RingInv r s) (h : Taking 0 0 [] s) :
    ConsumerStarts r s (t, p) := by
  have hI' := hst.inv hI
  refine ⟨hI', hst.producerRely, ?_⟩
  exact (hp t hI' (Taking.stable (r := r) s t hI' hst.consumerRely h)).mono fun _ _ _ hf _ => hf

theorem SameRing.refl (s : RingState w T W) : SameRing s s := by constructor <;> rfl

theorem pure_producerKeeps : ProducerKeeps (T := T) (W := W) r (pure PUnit.unit) :=
  .ret Filling.stable fun _ _ h => h

theorem pure_consumerKeeps : ConsumerKeeps (T := T) (W := W) r (pure PUnit.unit) :=
  .ret Taking.stable fun _ _ h => h

variable [Waker W]

theorem producerCall_starts {s : RingState w T W} {op : RingOp T W}
    {call : RingState w T W × Prog (RingState w T W) PUnit.{1}} (hI : RingInv r s)
    (h : Filling r 0 0 ([] : List T) s) (hcall : producerCall r s op = some call) :
    ProducerStarts r s call := by
  cases op <;> simp only [producerCall, Option.some.injEq, reduceCtorEq] at hcall <;> subst hcall
  case tryPush value =>
    refine ProducerKeeps.starts ?_ (.refl s) hI h
    apply (tryPush_keeps value).bind
    rintro (value | _) <;> exact producerReturns_keeps _
  case tryPushSlice items =>
    refine ProducerKeeps.starts ?_ (.refl s) hI h
    exact (tryPushSlice_keeps items).bind fun _ => producerReturns_keeps _
  case freeCount =>
    refine ProducerKeeps.starts ?_ (.refl s) hI h
    exact freeCount_keeps.bind fun _ => producerReturns_keeps _
  case producerIsEmpty =>
    refine ProducerKeeps.starts ?_ (.refl s) hI h
    exact producerIsEmpty_keeps
  case producerIsFull =>
    refine ProducerKeeps.starts ?_ (.refl s) hI h
    exact freeCount_keeps.bind fun _ => producerReturns_keeps _
  case push value => exact pure_producerKeeps.starts (by constructor <;> rfl) hI h
  case pushSlice items => exact pure_producerKeeps.starts (by constructor <;> rfl) hI h
  case dropProducer =>
    exact ⟨hI.dropProducer, ⟨rfl, rfl, List.prefix_rfl, rfl⟩, fun t _ ht ha => by
      have := ht.alive
      simp [ha] at this⟩

theorem consumerCall_starts {s : RingState w T W} {op : RingOp T W}
    {call : RingState w T W × Prog (RingState w T W) PUnit.{1}} (hI : RingInv r s)
    (h : Taking 0 0 [] s) (hcall : consumerCall r s op = some call) : ConsumerStarts r s call := by
  cases op <;> simp only [consumerCall, Option.some.injEq, reduceCtorEq] at hcall <;> subst hcall
  case tryPop =>
    refine ConsumerKeeps.starts ?_ (.refl s) hI h
    exact tryPop_keeps.bind fun _ => consumerReturns_keeps _
  case tryPopSlice items =>
    refine ConsumerKeeps.starts ?_ (.refl s) hI h
    exact (tryPopSlice_keeps _).bind fun _ => consumerReturns_keeps _
  case availableCount =>
    refine ConsumerKeeps.starts ?_ (.refl s) hI h
    exact availableCount_keeps.bind fun _ => consumerReturns_keeps _
  case consumerIsEmpty =>
    refine ConsumerKeeps.starts ?_ (.refl s) hI h
    exact availableCount_keeps.bind fun _ => consumerReturns_keeps _
  case consumerIsFull =>
    refine ConsumerKeeps.starts ?_ (.refl s) hI h
    exact availableCount_keeps.bind fun _ => consumerReturns_keeps _
  case pop => exact pure_consumerKeeps.starts (by constructor <;> rfl) hI h
  case popSlice items => exact pure_consumerKeeps.starts (by constructor <;> rfl) hI h
  case dropConsumer =>
    exact ⟨hI.dropConsumer, ⟨rfl, rfl, rfl, le_rfl, rfl⟩, fun t _ ht ha => by
      have := ht.alive
      simp [ha] at this⟩

theorem producer_starts {s : RingState w T W} {op : RingOp T W}
    {call : RingState w T W × Prog (RingState w T W) PUnit.{1}} (hI : RingInv r s)
    (h : s.producerAlive = true → Filling r 0 0 ([] : List T) s)
    (hcall : ringCall r .producer op s = some call) : ProducerStarts r s call := by
  simp only [ringCall] at hcall
  split at hcall
  · rename_i halive
    specialize h halive
    split at hcall
    · exact producerCall_starts hI h hcall
    · cases hcall
      exact (pollPush_keeps _ _).starts (by constructor <;> rfl) hI h
    · cases hcall
      exact pure_producerKeeps.starts (by constructor <;> rfl) hI h
    · cases hcall
  · cases hcall

theorem consumer_starts {s : RingState w T W} {op : RingOp T W}
    {call : RingState w T W × Prog (RingState w T W) PUnit.{1}} (hI : RingInv r s)
    (h : s.consumerAlive = true → Taking 0 0 [] s)
    (hcall : ringCall r .consumer op s = some call) : ConsumerStarts r s call := by
  simp only [ringCall] at hcall
  split at hcall
  · rename_i halive
    specialize h halive
    split at hcall
    · exact consumerCall_starts hI h hcall
    · cases hcall
      exact (pollPop_keeps _ _).starts (by constructor <;> rfl) hI h
    · cases hcall
      exact pure_consumerKeeps.starts (by constructor <;> rfl) hI h
    · cases hcall
  · cases hcall

theorem ringOutline_sound (r : RingBuf w) :
    (ringOutline r).Sound (ringThreads (T := T) (W := W) r) where
  init := .init
  initRest
    | .producer => fun _ => ⟨rfl, ⟨0, rfl, le_rfl, Nat.zero_le _⟩, rfl, le_rfl, fun _ _ h => by simp at h⟩
    | .consumer => fun _ => ⟨rfl, ⟨0, rfl, le_rfl, le_rfl⟩, rfl, le_rfl, rfl⟩
  stable
    | .producer => fun s t hI hst h ha => Filling.stable s t hI hst (h (hst.alive ▸ ha))
    | .consumer => fun s t hI hst h ha => Taking.stable (r := r) s t hI hst (h (hst.alive ▸ ha))
  start := by
    intro i op s t p hI hrest hcall
    cases i with
    | producer =>
      obtain ⟨hinv, hrely, hok⟩ := producer_starts hI hrest hcall
      exact ⟨hinv, producerGuar hrely, hok⟩
    | consumer =>
      obtain ⟨hinv, hrely, hok⟩ := consumer_starts hI hrest hcall
      exact ⟨hinv, consumerGuar hrely, hok⟩
  finish := by
    intro i b s hI hpost _
    cases i <;> exact hpost
  again := by
    intro i b s p _ _ hres
    cases hres

end Cynosure.SiteD
