import Cynosure.SiteD.TripleBufferHandoff

/-! # Cancelled futures and the pool of the triple buffer

A cancelled future leaves its buffer in the handle. `publish` refuses to go on before it
is taken back and `next(None)` goes on with it, but `try_next(None)` does not look at
the handle: its take returns nothing to the reader's slot, which becomes the middle.
-/

namespace Cynosure.SiteD

open Prog TripleState

variable {w : Nat} {T W : Type} {s : TripleState w T W}

/-- The writer may publish, and there is nothing in the middle for it to take. -/
structure EmptyMiddle (s : TripleState w T W) : Prop where
  free : s.generation = s.lastReadGen
  middle : s.buffers s.middleIdx = none
  writer : s.writerIdx ≠ s.middleIdx

section Drain

variable [Waker W]

theorem eval_wakeWriter (s : TripleState w T W) :
    wakeWriter.eval s = (⟨⟩, { s with writerSlot := ((SlotUse.signal ()).eval s.writerSlot).2 }) := by
  apply eval_zoom <;> intros <;> rfl

/-- A take that returns nothing to an empty slot makes it the middle. -/
theorem tryNext_empties_middle (hunread : s.generation ≠ s.lastReadGen)
    (hslot : s.buffers s.readerIdx = none) (hready : MiddleReady s)
    (hapart : s.writerIdx ≠ s.readerIdx) : EmptyMiddle ((tryNext none).eval s).2 := by
  obtain ⟨-, hne, p, hp, -⟩ := hready
  have hstill : Function.update s.buffers s.middleIdx none s.readerIdx = none := by
    rw [Function.update_of_ne hne, hslot]
  simp only [tryNext, tryTakeNow, hasUnread, loadGenerations, readerTakeNow, returnPrevious,
    readerTakesMiddle, takeReturns, eval_bind, eval_load, eval_store, eval_exchange, eval_pure,
    eval_wakeWriter, ne_eq, hunread, not_false_eq_true, decide_true, if_true, hp]
  exact ⟨rfl, hstill, hapart⟩

theorem EmptyMiddle.tryPublish_panics (h : EmptyMiddle s) (buf : AlignedBuffer) :
    ((tryPublish buf).eval s).2.nullMiddle = true ∧
      ((tryPublish buf).eval s).2.writerOut = some .panicked := by
  have hstill : Function.update s.buffers s.writerIdx (some buf.ptr) s.middleIdx = none := by
    rw [Function.update_of_ne h.writer.symm, h.middle]
  simp [tryPublish, tryPublishNow, middleFree, loadGenerations, writerPublishNow, writerTakesNext,
    publishReturns, h.free, TripleState.putWriter, TripleState.publish, TripleState.takeWriter,
    hstill]

end Drain

theorem TripleInv.unread (hI : TripleInv s) (h : s.generation ≠ s.lastReadGen) :
    s.published.length = s.taken.length + 1 := by
  have hle := hI.le
  have hbound := hI.bound
  have hne : s.published.length ≠ s.taken.length := by
    intro heq
    rw [hI.generation, hI.lastRead, heq] at h
    exact h rfl
  omega

/-- A reader at rest with a buffer in its handle and one unread: `try_next(None)` leaves nothing
for the next publish. -/
theorem ReaderRest.drains [Waker W] (h : ReaderRest s) (hI : TripleInv s)
    (hheld : s.reader.held ≠ none) (hunread : s.generation ≠ s.lastReadGen) :
    EmptyMiddle ((tryNext none).eval s).2 := by
  obtain ⟨previous, hhas, -, ⟨-, hnone, -⟩ | ⟨-, hprevious⟩⟩ := h
  · exact absurd hnone hheld
  have hslot : s.buffers s.readerIdx = none := by
    have hsome : previous.isSome = true := by
      rw [← hprevious]
      exact Option.isSome_iff_ne_none.mpr hheld
    simpa [hsome] using hhas.slot
  have hlen := hI.unread hunread
  have hidle : s.publishing = false := by
    rw [← Bool.not_eq_true]
    intro hbusy
    have := hI.publishing hbusy
    omega
  exact tryNext_empties_middle hunread hslot (hI.middle hidle hhas.busy) hI.apart

/-- While `try_next` is called only with nothing held, no rotation finds a null pointer, each
buffer has one owner and a take leaves nothing in the handle. With a buffer held and one
unread, `try_next(None)` makes the next publish panic. -/
theorem triplebuffer_survives_cancellation (w : Nat) (hw : 0 < w) (cap : Nat) (T W : Type)
    [Waker W] [Inhabited T] (s : ThreadState (TripleState w T W) TripleSide PUnit)
    (h : (tripleThreads cap sparesHeld).machine.Reachable s) :
    s.mem.nullMiddle = false ∧ (∀ p < 3, s.mem.owners p = 1) ∧
      (s.running .reader = none → s.mem.reader.hand ≠ none → s.mem.reader.held = none) ∧
      (s.running .reader = none → s.mem.reader.held ≠ none →
        s.mem.generation ≠ s.mem.lastReadGen → ∀ buf,
        ((tryPublish buf).eval ((tryNext none).eval s.mem).2).2.nullMiddle = true) := by
  obtain ⟨hI, hsides⟩ := (tripleOutline_sound hw fun _ _ => id).reachable h
  have hreader := hsides .reader
  refine ⟨hI.sound.1, fun p hp => ?_, fun hidle hhand => ?_, fun hidle hheld hunread buf => ?_⟩
  · rw [hI.owned p, if_pos hp]
  · rw [hidle] at hreader
    obtain ⟨_, _, _, ⟨_, hheld, _⟩ | ⟨hnone, _⟩⟩ := hreader
    · exact hheld
    · exact absurd hnone hhand
  · rw [hidle] at hreader
    have hempty := ReaderRest.drains hreader hI hheld hunread
    exact (hempty.tryPublish_panics buf).1

/-- `next(None)` goes on with the buffer of a cancelled `next`, and two more publishes succeed. -/
theorem triplebuffer_next_resumes_held :
    ∃ s : ThreadState (TripleState 8 Nat Waker.OfTask) TripleSide PUnit,
      (tripleThreads 1 sparesHeld).machine.Reachable s ∧ s.mem.published.length = 3 ∧
      s.mem.reader.held = none ∧ s.mem.nullMiddle = false := by
  obtain ⟨s, hrun, hpublished, hheld⟩ := Machine.exists_end
    (M := (tripleThreads (w := 8) (T := Nat) (W := Waker.OfTask) 1 sparesHeld).machine)
    (P := fun s => s.mem.published.length = 3 ∧ s.mem.reader.held = none)
    (c := fun s => decide (s.mem.published.length = 3 ∧ s.mem.reader.held = none))
    (List.flatten
      [.call .writer .tryPublish :: List.replicate 14 (.step .writer),
      .call .reader (.tryNext false) :: List.replicate 13 (.step .reader),
      .call .reader (.next true) :: .step .reader ::
        .call .reader (.pollNext ⟨0⟩) :: List.replicate 12 (.step .reader),
      .call .reader .cancel :: [.step .reader],
      .call .writer .tryPublish :: List.replicate 19 (.step .writer),
      .call .reader (.next false) :: .step .reader ::
        .call .reader (.pollNext ⟨0⟩) :: List.replicate 15 (.step .reader),
      .call .writer .tryPublish :: List.replicate 14 (.step .writer)])
    (by decide +kernel) fun s _ hs => of_decide_eq_true hs
  have hsafe := triplebuffer_survives_cancellation 8 (by decide) 1 Nat Waker.OfTask s ⟨_, hrun⟩
  exact ⟨s, ⟨_, hrun⟩, hpublished, hheld, hsafe.1⟩

/-- The same run with `try_next(None)` after the cancelled `next`: the writer panics. -/
theorem triplebuffer_try_next_drains_pool :
    ∃ s : ThreadState (TripleState 8 Nat Waker.OfTask) TripleSide PUnit,
      (tripleThreads 1 passesHand).machine.Reachable s ∧ s.mem.nullMiddle = true ∧
      s.mem.writerOut = some .panicked := by
  obtain ⟨s, hrun, hnull, hpanicked⟩ := Machine.exists_end
    (M := (tripleThreads (w := 8) (T := Nat) (W := Waker.OfTask) 1 passesHand).machine)
    (P := fun s => s.mem.nullMiddle = true ∧ s.mem.writerOut = some .panicked)
    (c := fun s => decide (s.mem.nullMiddle = true ∧ s.mem.writerOut = some .panicked))
    (List.flatten
      [.call .writer .tryPublish :: List.replicate 14 (.step .writer),
      .call .reader (.tryNext false) :: List.replicate 13 (.step .reader),
      .call .reader (.next true) :: .step .reader ::
        .call .reader (.pollNext ⟨0⟩) :: List.replicate 12 (.step .reader),
      .call .reader .cancel :: [.step .reader],
      .call .writer .tryPublish :: List.replicate 19 (.step .writer),
      .call .reader (.tryNext false) :: List.replicate 13 (.step .reader),
      .call .writer .tryPublish :: List.replicate 13 (.step .writer)])
    (by decide +kernel) fun s _ hs => of_decide_eq_true hs
  exact ⟨s, ⟨_, hrun⟩, hnull, hpanicked⟩

end Cynosure.SiteD
