import Cynosure.SiteD.BipBufferReserve
import Cynosure.SiteD.BipBufferRead

/-! # Nobody sleeps beside a bip buffer that could serve it

Every call of every party keeps the layer of the waiters. In a state in which no call is
under way every signal has returned, so a waiter that was not woken still knows why
it parked.
-/

namespace Cynosure.SiteD

open Prog

variable {w : Nat} {W : Type} [Waker W] {cap : Nat}

/-- What a call must establish in the layer. -/
def WaitStarts (cap : Nat) (i : BipParty) (s : BipState w W)
    (call : BipState w W × Prog (BipState w W) (BipNext W)) : Prop :=
  BipWaitInv cap call.1 ∧ (bipLayer cap i).extra.guar s call.1 ∧
    (BipInv cap call.1 → (bipLayer cap i).Ok ((bipWaits cap).post i) call.2 call.1)

theorem producer_waitCall {s : BipState w W} {op : BipOp W}
    {call : BipState w W × Prog (BipState w W) (BipNext W)} (hI : BipWaitInv cap s)
    (heven : s.ticks % 2 = 0) (hrest : ReserveRest cap s) (hquiet : s.Quiet .producer)
    (hcall : bipCall cap .producer op s = some call) : WaitStarts cap .producer s call := by
  have hdone : (bipLayer cap .producer).Triple
      (fun s : BipState w W => ReserveRest cap s ∧ s.Quiet .producer) (pure .done)
      ((bipWaits cap).post .producer) :=
    .ret reserveRest_stable fun _ _ h => h
  have hnot : ∀ pc, s.space.phase ≠ .arming pc := by
    intro pc hpc
    rcases hrest with h | ⟨h, -⟩ <;> simp [h] at hpc
  have hguar : ∀ {t : BipState w W}, SameGrants s t → t.data = s.data → t.reading = s.reading →
      t.space.signals = s.space.signals → (bipLayer cap .producer).extra.guar s t :=
    fun hst hdata hreading hsig => hst.guar
      (fun j _ => ⟨by rw [hdata], congrFun hsig j⟩) (fun h => absurd rfl h)
      fun _ => ⟨hreading, by rw [hdata]; exact .refl _⟩
  simp only [bipCall] at hcall
  split at hcall
  · rename_i n hnone
    cases hcall
    have hout : s.space.phase = .out := by
      rcases hrest with h | ⟨-, n, hn, -⟩
      · exact h
      · simp [hnone] at hn
    refine ⟨hI, waits_guar_refl s, fun hB => ?_⟩
    refine Layer.Triple.bind (tryReserve_layer n) (fun out => ?_) s ⟨hB, hI⟩
      ⟨⟨rfl, hout, rfl, hquiet⟩, heven⟩
    exact (thenDone_layer reserveReturns_layer reserveRest_stable).conseq (fun _ _ h => h.1.1)
      fun _ _ _ h => h.2
  · split at hcall <;> cases hcall
    rename_i n hnone hn
    have hout : s.space.phase = .out := by
      rcases hrest with h | ⟨-, n, hn, -⟩
      · exact h
      · simp [hnone] at hn
    refine ⟨⟨hI.data, hI.space, fun m hm => ?_⟩, hguar (by constructor <;> rfl) rfl rfl rfl,
      fun hB => hdone _ ⟨hB, ⟨hI.data, hI.space, fun m hm => ?_⟩⟩ ⟨.inl hout, hquiet⟩⟩
    all_goals
      cases hm
      exact hn
  · rename_i n waker hsome
    cases hcall
    have hslot : SlotInv (s.space.beginPoll waker) := hI.space.quit hnot rfl rfl rfl
    refine ⟨⟨hI.data, hslot, hI.asked⟩, hguar (by constructor <;> rfl) rfl rfl rfl, fun hB => ?_⟩
    refine (thenDone_layer (pollReserve_layer (hI.asked n hsome)) reserveRest_stable).conseq
      (fun _ _ h => h) (fun _ _ _ h => h.2) _ ⟨hB, ⟨hI.data, hslot, hI.asked⟩⟩ ?_
    exact ⟨⟨hsome, rfl, rfl, hquiet⟩, heven⟩
  · cases hcall
    have hslot : SlotInv s.space.leave := hI.space.quit hnot rfl rfl rfl
    refine ⟨⟨hI.data, hslot, fun _ h => (by cases h)⟩, hguar (by constructor <;> rfl) rfl rfl rfl,
      fun hB => hdone _ ⟨hB, ⟨hI.data, hslot, fun _ h => by cases h⟩⟩ ⟨.inl rfl, hquiet⟩⟩
  · cases hcall

theorem consumer_waitCall (hw : 2 ≤ w) {s : BipState w W} {op : BipOp W}
    {call : BipState w W × Prog (BipState w W) (BipNext W)} (hI : BipWaitInv cap s)
    (hrest : ReadRest s) (hquiet : s.Quiet .consumer)
    (hcall : bipCall cap .consumer op s = some call) : WaitStarts cap .consumer s call := by
  have hdone : (bipLayer cap .consumer).Triple
      (fun s : BipState w W => ReadRest s ∧ s.Quiet .consumer) (pure .done)
      ((bipWaits cap).post .consumer) :=
    .ret readRest_stable fun _ _ h => h
  have hnot : ∀ pc, s.data.phase ≠ .arming pc := by
    intro pc hpc
    rcases hrest with h | ⟨h, -⟩ <;> simp [h] at hpc
  have hout : s.reading = false → s.data.phase = .out := by
    intro hreading
    rcases hrest with h | ⟨-, h, -⟩
    · exact h
    · simp [hreading] at h
  simp only [bipCall] at hcall
  split at hcall
  · rename_i hreading
    cases hcall
    exact ⟨hI, waits_guar_refl s,
      fun hB => tryRead_layer hw .tryRead s ⟨hB, hI⟩ ⟨hout hreading, hquiet⟩⟩
  · rename_i hreading
    cases hcall
    have hI' : BipWaitInv cap { s with reading := true } := ⟨hI.data, hI.space, hI.asked⟩
    exact ⟨hI', consumer_guar (by constructor <;> rfl) rfl rfl rfl,
      fun hB => hdone _ ⟨hB, hI'⟩ ⟨.inl (hout hreading), hquiet⟩⟩
  · rename_i waker hreading
    cases hcall
    have hI' : BipWaitInv cap { s with data := s.data.beginPoll waker } :=
      ⟨hI.data.quit hnot rfl rfl rfl, hI.space, hI.asked⟩
    exact ⟨hI', consumer_guar (by constructor <;> rfl) rfl rfl rfl,
      fun hB => tryRead_layer hw (.poll waker) _ ⟨hB, hI'⟩ ⟨⟨rfl, rfl, hreading⟩, hquiet⟩⟩
  · cases hcall
    have hI' : BipWaitInv cap { s with reading := false, data := s.data.leave } :=
      ⟨hI.data.quit hnot rfl rfl rfl, hI.space, hI.asked⟩
    exact ⟨hI', consumer_guar (by constructor <;> rfl) rfl rfl rfl,
      fun hB => hdone _ ⟨hB, hI'⟩ ⟨.inl rfl, hquiet⟩⟩
  · cases hcall

theorem write_waitCall {s : BipState w W} {g : Nat} {op : BipOp W}
    {call : BipState w W × Prog (BipState w W) (BipNext W)} (hB : BipInv cap s)
    (hI : BipWaitInv cap s) (hquiet : s.Quiet (.write g))
    (hcall : bipCall cap (.write g) op s = some call) : WaitStarts cap (.write g) s call := by
  simp only [bipCall] at hcall
  cases he : s.writeGrants g with
  | none => simp [he] at hcall
  | some e =>
    have hwriter := (hB.writeGrant g e he).1
    -- no party but the owner looks at the entry of a grant that is out
    have hguar : ∀ {t : BipState w W}, SameWaits s t → t.wip = s.wip → t.read = s.read →
        t.rip = s.rip → t.ticks = s.ticks → t.write = s.write → t.writer = s.writer →
        t.reader = s.reader → t.readGrants = s.readGrants →
        (bipLayer cap (.write g)).extra.guar s t := by
      intro t hst hwip hread hrip hticks hwrite hwriter' hreader hgrants
      refine writer_guar (fun j _ => hst.signals j) (hst.producer (fun h => hwip.trans h) hread)
        ⟨hst.reading, by rw [hst.data]; exact .refl _, hticks.ge, fun _ h => hrip.trans h,
          fun _ _ _ => hwrite, fun _ h => ?_⟩ (.inl (hwriter'.trans hwriter)) hreader hgrants
      unfold BipState.Drained
      rw [hticks, hread, hwrite]
      exact h
    have hback (bytes : List UInt8) : BipWaitInv cap (s.handBackWrite g e bytes) :=
      ⟨hI.data, hI.space, hI.asked⟩
    have hcommitting (bytes : List UInt8) : Committing g e (s.handBackWrite g e bytes) :=
      ⟨hwriter, by simp [BipState.handBackWrite]⟩
    have hknown : (bipLayer cap (.write g)).Stable
        fun s : BipState w W => s.WriterKnown g ∧ s.Quiet (.write g) :=
      .and writerKnown_stable (signals_stable _ _)
    simp only [he] at hcall
    split at hcall
    · cases hcall
    · split at hcall
      · split at hcall
        · cases hcall
          have hI' : ∀ i b, BipWaitInv cap (s.writeByte g i b e) :=
            fun _ _ => ⟨hI.data, hI.space, hI.asked⟩
          refine ⟨hI' _ _, hguar (by constructor <;> rfl) rfl rfl rfl rfl rfl rfl rfl rfl,
            fun hB' => ?_⟩
          refine Layer.Triple.ret hknown (fun _ _ h => h) _ ⟨hB', hI' _ _⟩ ⟨fun _ => ?_, hquiet⟩
          simp [BipState.writeByte]
        · cases hcall
      · cases hcall
        refine ⟨hback _, hguar (by constructor <;> rfl) rfl rfl rfl rfl rfl rfl rfl rfl, fun hB' => ?_⟩
        exact (thenDone_layer (commit_layer e _) hknown).conseq (fun _ _ h => h)
          (fun _ _ _ h => h.2) _ ⟨hB', hback _⟩ ⟨hcommitting _, hquiet⟩
      · cases hcall
        refine ⟨hback _, hguar (by constructor <;> rfl) rfl rfl rfl rfl rfl rfl rfl rfl, fun hB' => ?_⟩
        exact (thenDone_layer (dropWrite_layer e) hknown).conseq (fun _ _ h => h)
          (fun _ _ _ h => h.2) _ ⟨hB', hback _⟩ ⟨hcommitting _, hquiet⟩
      · cases hcall

theorem read_waitCall {s : BipState w W} {g : Nat} {op : BipOp W}
    {call : BipState w W × Prog (BipState w W) (BipNext W)} (hB : BipInv cap s)
    (hI : BipWaitInv cap s) (hquiet : s.Quiet (.read g))
    (hcall : bipCall cap (.read g) op s = some call) : WaitStarts cap (.read g) s call := by
  simp only [bipCall] at hcall
  cases he : s.readGrants g with
  | none => simp [he] at hcall
  | some e =>
    have hreader := (hB.readGrant g e he).1
    have hback (bytes : List UInt8) : BipWaitInv cap (s.handBackRead g e bytes) :=
      ⟨hI.data, hI.space, hI.asked⟩
    have hguar (bytes : List UInt8) :
        (bipLayer cap (.read g)).extra.guar s (s.handBackRead g e bytes) :=
      reader_guar (fun _ _ => ⟨rfl, rfl⟩) ⟨rfl, .refl _, fun _ h => h, fun _ => rfl⟩
        ⟨rfl, .refl _, le_rfl, fun _ h => h, fun _ _ _ => rfl, fun _ h => h⟩ (.inl hreader) rfl rfl
    have hreleasing (bytes : List UInt8) : Releasing g e (s.handBackRead g e bytes) :=
      ⟨hreader, by simp [BipState.handBackRead]⟩
    have hknown : (bipLayer cap (.read g)).Stable
        fun s : BipState w W => s.ReaderKnown g ∧ s.Quiet (.read g) :=
      .and readerKnown_stable (signals_stable _ _)
    simp only [he] at hcall
    split at hcall
    · cases hcall
    · split at hcall
      · cases hcall
        refine ⟨hback _, hguar _, fun hB' => ?_⟩
        exact (thenDone_layer (release_layer e _) hknown).conseq (fun _ _ h => h)
          (fun _ _ _ h => h.2) _ ⟨hB', hback _⟩ ⟨hreleasing _, hquiet⟩
      · cases hcall
        refine ⟨hback _, hguar _, fun hB' => ?_⟩
        exact (thenDone_layer (dropRead_layer e) hknown).conseq (fun _ _ h => h)
          (fun _ _ _ h => h.2) _ ⟨hB', hback _⟩ ⟨hreleasing _, hquiet⟩
      · cases hcall

theorem bipWaits_soundOver (hw : 2 ≤ w) :
    (bipWaits cap).SoundOver (bipOutline cap) (bipThreads (w := w) (W := W) cap) where
  init := ⟨.new, .new, fun _ h => by cases h⟩
  initRest i := by
    cases i with
    | producer => exact ⟨.inl rfl, rfl, rfl⟩
    | consumer => exact ⟨.inl rfl, rfl, rfl⟩
    | write g => exact ⟨fun h => (by cases h), rfl, rfl⟩
    | read g => exact ⟨fun h => (by cases h), rfl, rfl⟩
  stable i s t hI hst _ h := by
    cases i with
    | producer => exact reserveRest_stable s t hI hst h
    | consumer => exact readRest_stable s t hI hst h
    | write g => exact ⟨writerKnown_stable s t hI hst h.1, signals_stable _ _ s t hI hst h.2⟩
    | read g => exact ⟨readerKnown_stable s t hI hst h.1, signals_stable _ _ s t hI hst h.2⟩
  start := by
    intro i op s t p hI hbase hrest hcall hB _
    have hstarts : WaitStarts cap i s (t, p) := by
      cases i with
      | producer => exact producer_waitCall hI.2 hbase hrest.1 hrest.2 hcall
      | consumer => exact consumer_waitCall hw hI.2 hrest.1 hrest.2 hcall
      | write g => exact write_waitCall hI.1 hI.2 hrest.2 hcall
      | read g => exact read_waitCall hI.1 hI.2 hrest.2 hcall
    exact ⟨hstarts.1, hstarts.2.1, hstarts.2.2 hB⟩
  finish := by
    intro i b s hI hbase hpost hres
    cases i with
    | producer => exact hpost
    | consumer =>
      cases b with
      | done => exact hpost
      | enter ctx => cases hres
      | retry ctx => cases hres
    | write g => exact hpost
    | read g => exact hpost
  again := by
    intro i b s p hI hbase hpost hres
    cases i with
    | producer =>
      obtain ⟨rfl, -⟩ := hbase
      cases hres
    | consumer =>
      cases b with
      | done => cases hres
      | enter ctx =>
        cases hres
        exact tryRead_layer hw ctx s hI hpost
      | retry ctx =>
        cases hres
        exact readLoop_layer hw ctx s hI ⟨hbase, hpost⟩
    | write g =>
      cases hbase
      cases hres
    | read g =>
      cases hbase
      cases hres

section Alone

variable {s : BipState w W}

omit [Waker W] in
/-- `try_reserve`, run alone, fails for the reason that the waiter knows. -/
theorem BipState.NoRoom.tryReserve_eq_none {n : Nat} (h : s.NoRoom cap n) :
    ((tryReserve cap n).eval s).1 = none := by
  unfold tryReserve
  cases hwip : s.wip with
  | true => simp [hwip]
  | false =>
    obtain ⟨hcursors, hplace⟩ := h.resolve_left (by simp [hwip])
    by_cases hn : cap < n
    · simp [hwip, hn]
    · simp [hwip, hn, canonicalize, hcursors, place, check, hplace]

omit [Waker W] in
/-- A drained buffer has room for every request that it can hold at all. -/
theorem BipState.NoRoom.not_drained {n : Nat} (h : s.NoRoom cap n) (hn : n ≤ cap)
    (hwip : s.wip = false) : s.read ≠ s.write := by
  obtain ⟨hcursors, hplace⟩ := h.resolve_left (by simp [hwip])
  intro heq
  have hw : s.write = 0 := by
    by_contra hne
    exact hcursors ⟨heq, hne⟩
  rw [heq, hw] at hplace
  simp [placement, hn] at hplace

theorem tryRead_returns_none (hw : 0 < w) (hB : BipInv cap s) (heven : s.ticks % 2 = 0)
    (h : s.rip = true ∨ s.Drained) : ((tryRead .tryRead).eval s).1 = .done ∧
      ((tryRead .tryRead).eval s).2.taken = some none := by
  have hepoch : ¬ s.epoch &&& 1#w = 1#w := by
    intro hodd
    have hticks : s.ticks % 2 = 1 := by
      rw [hB.epoch] at hodd
      exact (Word.and_one_eq_one hw _).mp hodd
    omega
  unfold tryRead
  cases hrip : s.rip with
  | true => simp [hrip, afterRead, readReturns]
  | false =>
    have heq : s.read = s.write := by
      rcases h with h | h | h
      · simp [hrip] at h
      · omega
      · exact h
    simp [hrip, readLoop, snapshot, hepoch, finishRead, wrapRead, heq, claimRead, check, availEnd,
      afterRead, readReturns]

end Alone

section Parked

variable (s : ThreadState (BipState w W) BipParty (BipNext W))

/-- The `reserve(n)` future is alive and its last poll returned `Pending`: a poll that is ready
ends the future, and any other leaves the slot armed. -/
def ReserveParked (n : Nat) : Prop :=
  s.running .producer = none ∧ s.mem.reserving = some n ∧ s.mem.space.phase = .armed

def ReadParked : Prop :=
  s.running .consumer = none ∧ s.mem.reading = true ∧ s.mem.data.phase = .armed

/-- A grant is outstanding until the call that hands it back has returned. -/
def Outstanding : Prop :=
  ∃ g, s.mem.writeGrants g ≠ none ∨ s.running (.write g) ≠ none ∨
    s.mem.readGrants g ≠ none ∨ s.running (.read g) ≠ none

def AllIdle : Prop := ∀ i, s.running i = none

/-- What a state without a call under way looks like to the waiters. -/
structure Settled (cap : Nat) (s : ThreadState (BipState w W) BipParty (BipNext W)) : Prop where
  base : BipInv cap s.mem
  waits : BipWaitInv cap s.mem
  even : s.mem.ticks % 2 = 0
  reserve : ReserveRest cap s.mem
  read : ReadRest s.mem
  writers : ∀ g, s.mem.WriterKnown g
  readers : ∀ g, s.mem.ReaderKnown g
  quiet : ∀ i, s.mem.Quiet i

variable {s}

theorem AllIdle.settled (hw : 2 ≤ w) (h : (bipThreads cap).machine.Reachable s)
    (hidle : AllIdle s) : Settled cap s := by
  obtain ⟨⟨hbase, hwaits⟩, hparties⟩ := ((bipWaits_soundOver hw).both (bipOutline_sound hw)).reachable h
  have hrest : ∀ i, (bipOutline cap).rest i s.mem ∧ (bipWaits cap).rest i s.mem := by
    intro i
    have hi := hparties i
    rw [hidle i] at hi
    exact hi
  refine ⟨hbase, hwaits, (hrest .producer).1, (hrest .producer).2.1, (hrest .consumer).2.1,
    fun g => (hrest (.write g)).2.1, fun g => (hrest (.read g)).2.1, fun i => ?_⟩
  cases i with
  | producer => exact (hrest .producer).2.2
  | consumer => exact (hrest .consumer).2.2
  | write g => exact (hrest (.write g)).2.2
  | read g => exact (hrest (.read g)).2.2

theorem Settled.noRoom (hs : Settled cap s) {n : Nat} (hparked : ReserveParked s n)
    (hwoken : s.mem.space.woken = false) : s.mem.NoRoom cap n := by
  obtain ⟨-, hn, hphase⟩ := hparked
  have hpub := hs.waits.space.not_published hphase hwoken fun i => (hs.quiet i).2
  rcases hs.reserve with hout | ⟨-, m, hm, hroom⟩
  · simp [hout] at hphase
  · rw [hn] at hm
    cases hm
    exact hroom hpub

theorem Settled.noData (hs : Settled cap s) (hparked : ReadParked s)
    (hwoken : s.mem.data.woken = false) : s.mem.rip = true ∨ s.mem.Drained := by
  obtain ⟨-, -, hphase⟩ := hparked
  have hpub := hs.waits.data.not_published hphase hwoken fun i => (hs.quiet i).1
  rcases hs.read with hout | ⟨-, -, hdata⟩
  · simp [hout] at hphase
  · exact hdata hpub

/-- Both flags are held by grants, so without a grant both are clear. -/
theorem Settled.flags_clear (hs : Settled cap s) (hout : ¬ Outstanding s) :
    s.mem.wip = false ∧ s.mem.rip = false := by
  constructor
  · rw [hs.base.wip]
    cases hwriter : s.mem.writer with
    | none => rfl
    | some g => exact absurd ⟨g, .inl (hs.writers g hwriter)⟩ hout
  · rw [hs.base.rip]
    cases hreader : s.mem.reader with
    | none => rfl
    | some g => exact absurd ⟨g, .inr (.inr (.inl (hs.readers g hreader)))⟩ hout

omit [Waker W] in
/-- Two parked futures leave only the grants to be inside a call. -/
theorem AllIdle.of_parked {n : Nat} (hreserve : ReserveParked s n) (hread : ReadParked s)
    (hout : ¬ Outstanding s) : AllIdle s := by
  intro i
  cases i with
  | producer => exact hreserve.1
  | consumer => exact hread.1
  | write g => exact by_contra fun hne => hout ⟨g, .inr (.inl hne)⟩
  | read g => exact by_contra fun hne => hout ⟨g, .inr (.inr (.inr hne))⟩

end Parked

/-- A waiter that is not woken while nothing moves is parked for a reason that still stands,
and the two sides are never parked on each other. -/
theorem bipbuffer_leaves_no_waiter_asleep (w : Nat) (hw : 2 ≤ w) (cap : Nat) (W : Type) [Waker W]
    (s : ThreadState (BipState w W) BipParty (BipNext W))
    (h : (bipThreads cap).machine.Reachable s) :
    (∀ n, ReserveParked s n → s.mem.space.woken = false → AllIdle s →
      ((tryReserve cap n).eval s.mem).1 = none) ∧
    (ReadParked s → s.mem.data.woken = false → AllIdle s →
      ((tryRead .tryRead).eval s.mem).1 = .done ∧
        ((tryRead .tryRead).eval s.mem).2.taken = some none) ∧
    ¬ ∃ n, ReserveParked s n ∧ ReadParked s ∧ s.mem.space.woken = false ∧
      s.mem.data.woken = false ∧ ¬ Outstanding s := by
  refine ⟨fun n hparked hwoken hidle => ?_, fun hparked hwoken hidle => ?_, ?_⟩
  · exact ((hidle.settled hw h).noRoom hparked hwoken).tryReserve_eq_none
  · have hs := hidle.settled hw h
    exact tryRead_returns_none (by omega) hs.base hs.even (hs.noData hparked hwoken)
  · rintro ⟨n, hreserve, hread, hspace, hdata, hout⟩
    have hs := (AllIdle.of_parked hreserve hread hout).settled hw h
    obtain ⟨hwip, hrip⟩ := hs.flags_clear hout
    have hroom := hs.noRoom hreserve hspace
    have hn := hs.waits.asked n hreserve.2.1
    have hdrained : s.mem.read = s.mem.write := by
      have heven := hs.even
      rcases hs.noData hread hdata with hr | hodd | heq
      · simp [hrip] at hr
      · omega
      · exact heq
    exact hroom.not_drained hn hwip hdrained

/-- Three of four bytes are granted when `reserve(2)` is polled. -/
theorem bipbuffer_parks_behind_a_grant :
    ∃ s : ThreadState (BipState 8 Waker.OfTask) BipParty (BipNext Waker.OfTask),
      (bipThreads 4).machine.run (bipThreads 4).machine.init
        (.call .producer (.tryReserve 3) :: List.replicate 7 (.step .producer) ++
          .call .producer (.reserve 2) :: .step .producer ::
          .call .producer (.pollReserve ⟨0⟩) :: List.replicate 10 (.step .producer)) = some s ∧
      ReserveParked s 2 ∧ s.mem.space.woken = false ∧ AllIdle s ∧
      ((tryReserve 4 2).eval s.mem).1 = none := by
  refine Machine.exists_end (c := fun s => decide ((s.running .producer).isNone ∧
    s.mem.reserving = some 2 ∧ s.mem.space.phase = .armed ∧ s.mem.space.woken = false)) _
    (by decide +kernel) ?_
  intro s hrun hs
  obtain ⟨hproducer, hn, hphase, hwoken⟩ := of_decide_eq_true hs
  have hnone : s.running .producer = none := by simpa using hproducer
  have hidle : AllIdle s := by
    intro i
    by_cases hi : i = .producer
    · rw [hi, hnone]
    · exact Threads.run_running hrun (by simp [ThreadOp.party, hi])
  have hwaits := bipbuffer_leaves_no_waiter_asleep 8 (by decide) 4 Waker.OfTask s ⟨_, hrun⟩
  exact ⟨⟨hnone, hn, hphase⟩, hwoken, hidle, hwaits.1 2 ⟨hnone, hn, hphase⟩ hwoken hidle⟩

end Cynosure.SiteD
