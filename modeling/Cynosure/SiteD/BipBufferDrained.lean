import Cynosure.SiteD.BipBufferAsleep

/-! # What a drained bip buffer can still reserve

When nothing is unread, the cursors have met, or the producer has wrapped to the head with an
empty commit and the consumer stands at the watermark and has not looked since. The reset of
`try_reserve` recognises the first case only. In the second one the free space still counts
as the gap in front of the read cursor.
-/

namespace Cynosure.SiteD

open Prog

variable {w : Nat} {W : Type} {cap : Nat}

/-- No call is under way, no grant is out, and every committed byte has been released. -/
structure Emptied (s : ThreadState (BipState w W) BipParty (BipNext W)) : Prop where
  idle : AllIdle s
  noGrant : ¬ Outstanding s
  drained : s.mem.released = s.mem.committed

/-- `try_reserve(n)`, run alone, returns a grant of length `n`. -/
def Reserves (cap n : Nat) (s : BipState w W) : Prop :=
  ∃ g e, ((tryReserve cap n).eval s).1 = some g ∧
    ((tryReserve cap n).eval s).2.writeGrants g = some e ∧ e.len = n

section Alone

variable {s : BipState w W}

theorem BipInv.drained_cursors (hI : BipInv cap s) (heven : s.ticks % 2 = 0)
    (hdrained : s.released = s.committed) :
    s.read = s.write ∨ s.write = 0 ∧ s.read = s.last ∧ 0 < s.read := by
  have hspan : s.span = [] := by
    have hstream := hI.stream heven
    rw [hdrained] at hstream
    exact List.append_right_eq_self.mp hstream
  have hlen := congrArg List.length hspan
  rw [BipState.span] at hlen
  split at hlen
  · rename_i hinverted
    have hmark := hI.mark heven hinverted
    rw [List.length_append, length_region, length_region, List.length_nil] at hlen
    exact .inr ⟨by omega, by omega, by omega⟩
  · rw [length_region, List.length_nil] at hlen
    exact .inl (by omega)

theorem takeWip_grants (start n : Nat) : ∃ g e, ((takeWip start n).eval s).1 = some g ∧
    ((takeWip start n).eval s).2.writeGrants g = some e ∧ e.len = n := by
  refine ⟨s.nextGrant, ⟨start, n, false, region s.buf start n⟩, rfl, ?_, rfl⟩
  simp [takeWip, BipState.grantWrite]

theorem place_grants {n read write start : Nat} (h : placement cap n read write = some start) :
    ∃ g e, ((place cap n (read, write)).eval s).1 = some g ∧
      ((place cap n (read, write)).eval s).2.writeGrants g = some e ∧ e.len = n := by
  unfold place
  simp only [eval_bind, h]
  exact takeWip_grants start n

theorem reserves_of_met {n : Nat} (hn : n ≤ cap) (hwip : s.wip = false) (hmet : s.read = s.write) :
    Reserves cap n s := by
  have hplace : placement cap n 0 0 = some 0 := by simp [placement, hn]
  unfold Reserves tryReserve
  by_cases hzero : s.write = 0
  · simp only [eval_bind, eval_load, hwip, canonicalize, hmet, hzero, not_lt.mpr hn, if_false,
      Bool.false_eq_true, ne_eq, not_true_eq_false, and_false, eval_pure]
    exact place_grants hplace
  · simp only [eval_bind, eval_load, hwip, canonicalize, hmet, hzero, not_lt.mpr hn, if_false,
      Bool.false_eq_true, ne_eq, not_false_eq_true, and_self, if_true, eval_pure]
    exact place_grants hplace

/-- In front of the read cursor, which the producer may not reach. -/
theorem reserves_behind_iff {n : Nat} (hn : n ≤ cap) (hwip : s.wip = false) (hwrite : s.write = 0)
    (hread : 0 < s.read) : Reserves cap n s ↔ n < s.read := by
  have hplace : placement cap n s.read s.write = if n < s.read then some 0 else none := by
    simp [placement, hwrite, hread]
  have hcursors : ¬ (s.read = s.write ∧ s.write ≠ 0) := by simp [hwrite]
  constructor
  · intro h
    by_contra hlt
    have hroom : s.NoRoom cap n := .inr ⟨hcursors, by rw [hplace, if_neg hlt]⟩
    obtain ⟨g, e, hg, -⟩ := h
    rw [hroom.tryReserve_eq_none] at hg
    cases hg
  · intro hlt
    rw [if_pos hlt] at hplace
    unfold Reserves tryReserve
    simp only [eval_bind, eval_load, hwip, canonicalize, hcursors, not_lt.mpr hn, if_false,
      Bool.false_eq_true, eval_pure]
    exact place_grants hplace

end Alone

/-- A run after which the parties that moved are idle again and both flags are down. -/
theorem emptied_of_run [Waker W] (hw : 2 ≤ w) {s : ThreadState (BipState w W) BipParty (BipNext W)}
    {moves : List (ThreadOp BipParty (BipOp W))}
    (hrun : (bipThreads cap).machine.run (bipThreads cap).machine.init moves = some s)
    (hidle : ∀ i ∈ moves.map ThreadOp.party, s.running i = none) (hwriter : s.mem.writer = none)
    (hreader : s.mem.reader = none) (hdrained : s.mem.released = s.mem.committed) : Emptied s := by
  have hI : BipInv cap s.mem := ((bipOutline_sound hw).reachable ⟨moves, hrun⟩).1
  have hall : AllIdle s := by
    intro i
    by_cases hi : i ∈ moves.map ThreadOp.party
    · exact hidle i hi
    · refine Threads.run_running hrun fun a ha heq => hi ?_
      rw [heq]
      exact List.mem_map_of_mem ha
  refine ⟨hall, ?_, hdrained⟩
  rintro ⟨g, hg | hg | hg | hg⟩
  · obtain ⟨e, he⟩ := Option.ne_none_iff_exists'.mp hg
    have := (hI.writeGrant g e he).1
    simp [hwriter] at this
  · exact hg (hall _)
  · obtain ⟨e, he⟩ := Option.ne_none_iff_exists'.mp hg
    have := (hI.readGrant g e he).1
    simp [hreader] at this
  · exact hg (hall _)

/-- A drained buffer accepts what fits, except from a read cursor that was left at the watermark:
there it accepts what fits in front of it. -/
theorem bipbuffer_drained_reserves (w : Nat) (hw : 2 ≤ w) (cap : Nat) (W : Type) [Waker W]
    (s : ThreadState (BipState w W) BipParty (BipNext W))
    (h : (bipThreads cap).machine.Reachable s) (hs : Emptied s) :
    (∀ n ≤ cap, Reserves cap n s.mem ↔ s.mem.read ≤ s.mem.write ∨ n < s.mem.read) ∧
    ((∀ n ≤ cap, Reserves cap n s.mem) ↔ s.mem.read ≤ s.mem.write) := by
  have hsettled := hs.idle.settled hw h
  have hwip := (hsettled.flags_clear hs.noGrant).1
  have hiff : ∀ n ≤ cap, Reserves cap n s.mem ↔ s.mem.read ≤ s.mem.write ∨ n < s.mem.read := by
    intro n hn
    obtain hmet | ⟨hwrite, -, hread⟩ := hsettled.base.drained_cursors hsettled.even hs.drained
    · exact iff_of_true (reserves_of_met hn hwip hmet) (.inl hmet.le)
    · rw [reserves_behind_iff hn hwip hwrite hread]
      exact ⟨.inr, fun h => h.resolve_left (by omega)⟩
  refine ⟨hiff, fun hall => ?_, fun hle n hn => (hiff n hn).mpr (.inl hle)⟩
  have hbound := hsettled.base.bounds.2.1
  exact ((hiff cap le_rfl).mp (hall cap le_rfl)).resolve_right (by omega)

/-- The cursors of a buffer of eight bytes have met at five. -/
theorem bipbuffer_drained_at_five :
    ∃ s : ThreadState (BipState 8 Waker.OfTask) BipParty (BipNext Waker.OfTask),
      (bipThreads 8).machine.Reachable s ∧ Emptied s ∧ s.mem.read = 5 ∧ s.mem.write = 5 ∧
      ∀ n ≤ 8, Reserves 8 n s.mem := by
  obtain ⟨s, hrun, hidle, hwriter, hreader, hdrained, hread, hwrite⟩ := Machine.exists_end
    (M := (bipThreads (w := 8) (W := Waker.OfTask) 8).machine)
    (P := fun s => (∀ i ∈ [BipParty.producer, .write 0, .consumer, .read 1], s.running i = none) ∧
      s.mem.writer = none ∧ s.mem.reader = none ∧ s.mem.released = s.mem.committed ∧
      s.mem.read = 5 ∧ s.mem.write = 5)
    (c := fun s => decide
      ((∀ i ∈ [BipParty.producer, .write 0, .consumer, .read 1], (s.running i).isNone) ∧
      s.mem.writer = none ∧ s.mem.reader = none ∧ s.mem.released = s.mem.committed ∧
      s.mem.read = 5 ∧ s.mem.write = 5))
    (List.flatten
      [.call .producer (.tryReserve 5) :: List.replicate 7 (.step .producer),
      .call (.write 0) (.commit 5) :: List.replicate 7 (.step (.write 0)),
      .call .consumer .tryRead :: List.replicate 10 (.step .consumer),
      .call (.read 1) (.release 5) :: List.replicate 7 (.step (.read 1))])
    (by decide +kernel) fun s _ hs => by simpa using of_decide_eq_true hs
  have hs : Emptied s := by
    refine emptied_of_run (by decide) hrun (fun i hi => hidle i ?_) hwriter hreader hdrained
    simpa [ThreadOp.party] using hi
  have hall := (bipbuffer_drained_reserves 8 (by decide) 8 Waker.OfTask s ⟨_, hrun⟩ hs).2
  exact ⟨s, ⟨_, hrun⟩, hs, hread, hwrite, hall.mpr (by rw [hread, hwrite])⟩

/-- Three bytes go in, two come out, an empty commit wraps to the head, and the last byte comes
out. Nothing is unread, and three bytes cannot be reserved. -/
theorem bipbuffer_drained_refuses :
    ∃ s : ThreadState (BipState 8 Waker.OfTask) BipParty (BipNext Waker.OfTask),
      (bipThreads 3).machine.Reachable s ∧ Emptied s ∧ ¬ Reserves 3 3 s.mem := by
  obtain ⟨s, hrun, hidle, hwriter, hreader, hdrained, hnone⟩ := Machine.exists_end
    (M := (bipThreads (w := 8) (W := Waker.OfTask) 3).machine)
    (P := fun s => (∀ i ∈ [BipParty.producer, .write 0, .consumer, .read 1, .write 2, .read 3],
        s.running i = none) ∧
      s.mem.writer = none ∧ s.mem.reader = none ∧ s.mem.released = s.mem.committed ∧
      ((tryReserve 3 3).eval s.mem).1 = none)
    (c := fun s => decide
      ((∀ i ∈ [BipParty.producer, .write 0, .consumer, .read 1, .write 2, .read 3],
        (s.running i).isNone) ∧
      s.mem.writer = none ∧ s.mem.reader = none ∧ s.mem.released = s.mem.committed ∧
      ((tryReserve 3 3).eval s.mem).1 = none))
    (List.flatten
      [.call .producer (.tryReserve 3) :: List.replicate 7 (.step .producer),
      .call (.write 0) (.commit 3) :: List.replicate 7 (.step (.write 0)),
      .call .consumer .tryRead :: List.replicate 10 (.step .consumer),
      .call (.read 1) (.release 2) :: List.replicate 7 (.step (.read 1)),
      .call .producer (.tryReserve 1) :: List.replicate 7 (.step .producer),
      .call (.write 2) (.commit 0) :: List.replicate 8 (.step (.write 2)),
      .call .consumer .tryRead :: List.replicate 10 (.step .consumer),
      .call (.read 3) (.release 1) :: List.replicate 7 (.step (.read 3))])
    (by decide +kernel) fun s _ hs => by simpa using of_decide_eq_true hs
  refine ⟨s, ⟨_, hrun⟩, ?_, ?_⟩
  · refine emptied_of_run (by decide) hrun (fun i hi => hidle i ?_) hwriter hreader hdrained
    simp [ThreadOp.party] at hi ⊢
    tauto
  · rintro ⟨g, e, hg, -⟩
    rw [hnone] at hg
    cases hg

end Cynosure.SiteD
