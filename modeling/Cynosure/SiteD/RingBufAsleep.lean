import Cynosure.SiteD.RingBufFull
import Cynosure.SiteD.RingBufEmpty

/-! # No wakeup of the ring buffer is missed

A side that is parked and has not been woken knows the other side's index as it is, once
the other side is not inside a call: the producer is parked on a full ring, the consumer
on an empty one, and the capacity keeps the two apart.
-/

namespace Cynosure.SiteD.Ring

variable {w : Nat} {T W : Type} [Waker W] {r : RingBuf w}

theorem ringWaits_soundOver (r : RingBuf w) :
    (ringWaits r).SoundOver (ringOutline r) (ringThreads (T := T) (W := W) r) where
  init := ⟨.new, .new⟩
  initRest
    | .producer => ⟨rfl, fun _ hf => (by cases hf), .inl ⟨rfl, rfl⟩⟩
    | .consumer => ⟨rfl, fun _ hf => (by cases hf), .inl ⟨rfl, rfl⟩⟩
  stable
    | .producer => fun s t hI hst _ h => pushRest_stable s t hI hst h
    | .consumer => fun s t hI hst _ h => popRest_stable s t hI hst h
  start := by
    intro i op s t p hI hbase hrest hcall hB _
    cases i with
    | producer =>
      obtain ⟨hinv, hrely, hok⟩ := producer_waits hI.2 hbase hrest hcall
      exact ⟨hinv, pushGuar (r := r) hrely, hok hB⟩
    | consumer =>
      obtain ⟨hinv, hrely, hok⟩ := consumer_waits hI.2 hbase hrest hcall
      exact ⟨hinv, popGuar (r := r) hrely, hok hB⟩
  finish := by
    intro i b s _ _ hpost _
    cases i <;> exact hpost
  again := by
    intro i b s p _ _ _ hres
    cases hres

section Parked

variable (s : ThreadState (RingState w T W) RingSide PUnit.{1})

/-- A future of `push` or `push_slice` is alive and its last poll returned `Pending`. -/
def PushParked : Prop :=
  s.running .producer = none ∧ s.mem.pushFuture.any PushFuture.polled = true

def PopParked : Prop :=
  s.running .consumer = none ∧ s.mem.popFuture.any PopFuture.polled = true

variable {s}

theorem reachable_waits (h : (ringThreads r).machine.Reachable s) :
    (RingInv r s.mem ∧ WaitInv s.mem) ∧
      (s.running .producer = none → PushRest r s.mem) ∧
      (s.running .consumer = none → PopRest s.mem) := by
  obtain ⟨hinv, hparties⟩ := ((ringWaits_soundOver r).both (ringOutline_sound r)).reachable h
  refine ⟨hinv, fun hidle => ?_, fun hidle => ?_⟩
  · have hproducer := hparties .producer
    rw [hidle] at hproducer
    exact hproducer.2
  · have hconsumer := hparties .consumer
    rw [hidle] at hconsumer
    exact hconsumer.2

theorem PushParked.full (hparked : PushParked s) (h : (ringThreads r).machine.Reachable s)
    (hwoken : s.mem.producerSlot.woken = false) (hidle : s.running .consumer = none) :
    (s.mem.stored r).length = r.capacity.toNat := by
  obtain ⟨⟨hring, hwait⟩, hpush, hpop⟩ := reachable_waits h
  obtain ⟨-, hpolled⟩ | ⟨hphase, -, hfull⟩ := (hpush hparked.1).slot
  · simp [hparked.2] at hpolled
  · have hquiet : ∀ i, s.mem.producerSlot.signals i = none := fun _ => (hpop hidle).quiet
    have hlen := hfull (hwait.producer.not_published hphase hwoken hquiet)
    rw [hring.stored_eq, List.length_map, List.length_drop]
    omega

theorem PopParked.empty (hparked : PopParked s) (h : (ringThreads r).machine.Reachable s)
    (hwoken : s.mem.consumerSlot.woken = false) (hidle : s.running .producer = none) :
    s.mem.stored r = [] := by
  obtain ⟨⟨hring, hwait⟩, hpush, hpop⟩ := reachable_waits h
  obtain ⟨-, hpolled⟩ | ⟨hphase, -, hempty⟩ := (hpop hparked.1).slot
  · simp [hparked.2] at hpolled
  · have hquiet : ∀ i, s.mem.consumerSlot.signals i = none := fun _ => (hpush hidle).quiet
    have hlen := hempty (hwait.consumer.not_published hphase hwoken hquiet)
    rw [hring.stored_eq, List.map_eq_nil_iff, List.drop_eq_nil_iff]
    omega

end Parked

/-- A parked side that was not woken is right to wait, and the two never wait on each other. -/
theorem ringbuf_parks_only_full_or_empty (w : Nat) (r : RingBuf w) (T W : Type) [Waker W]
    (s : ThreadState (RingState w T W) RingSide PUnit.{1})
    (h : (ringThreads r).machine.Reachable s) :
    (PushParked s → s.mem.producerSlot.woken = false → s.running .consumer = none →
      (s.mem.stored r).length = r.capacity.toNat) ∧
    (PopParked s → s.mem.consumerSlot.woken = false → s.running .producer = none →
      s.mem.stored r = []) ∧
    ¬ (PushParked s ∧ s.mem.producerSlot.woken = false ∧
      PopParked s ∧ s.mem.consumerSlot.woken = false) := by
  refine ⟨fun hparked => hparked.full h, fun hparked => hparked.empty h, ?_⟩
  rintro ⟨hpush, hpushWoken, hpop, hpopWoken⟩
  have hfull := hpush.full h hpushWoken hpop.1
  have hempty := hpop.empty h hpopWoken hpush.1
  obtain ⟨k, hk⟩ := r.isPowerOfTwo
  have hpos : 0 < 2 ^ k := Nat.two_pow_pos k
  rw [hempty, List.length_nil, hk] at hfull
  omega

/-- Two of three items fit, and the future parks with the third. -/
theorem ringbuf_slice_parks_full :
    ∃ s : ThreadState (RingState 8 Nat Waker.OfTask) RingSide PUnit.{1},
      (ringThreads ⟨2, 1, rfl⟩).machine.run (ringThreads ⟨2, 1, rfl⟩).machine.init
        (.call .producer (.pushSlice [1, 2, 3]) :: .step .producer ::
          .call .producer (.pollPush ⟨0⟩) :: List.replicate 21 (.step .producer)) = some s ∧
      PushParked s ∧ s.mem.producerSlot.woken = false ∧ s.running .consumer = none ∧
      (s.mem.stored ⟨2, 1, rfl⟩).length = 2 := by
  refine Machine.exists_end (c := fun s => decide ((s.running .producer).isNone ∧
    s.mem.pushFuture.any PushFuture.polled = true ∧ s.mem.producerSlot.woken = false)) _
    (by decide +kernel) ?_
  intro s hrun hs
  obtain ⟨hproducer, hpolled, hwoken⟩ := of_decide_eq_true hs
  have hparked : PushParked s := ⟨by simpa using hproducer, hpolled⟩
  have hidle : s.running .consumer = none := Threads.run_running hrun (by simp [ThreadOp.party])
  have hfull := (ringbuf_parks_only_full_or_empty 8 ⟨2, 1, rfl⟩ Nat Waker.OfTask s ⟨_, hrun⟩).1
  exact ⟨hparked, hwoken, hidle, hfull hparked hwoken hidle⟩

end Cynosure.SiteD.Ring
