import Mathlib.Algebra.Order.BigOperators.Group.Finset
import Cynosure.BlockingJobs

/-! # Blocking threads settle

A thread that has no news for another one in hand only runs towards its own next
`park`, and a token can only come from news that some thread has still to deliver. A
thread in the middle of delivering may keep others spinning, but only until it has its
turns. So under fair turns the threads come to rest, each done or parked.
-/

namespace Cynosure

namespace Script

variable {J γ ρ : Type}

inductive Next : Script J γ ρ → Script J γ ρ → Prop
  | returns (j : J) (k : γ → Script J γ ρ) (x : γ) : Next (k x) (.job j k)

theorem next_wf : WellFounded (Next (J := J) (γ := γ) (ρ := ρ)) := by
  refine ⟨fun c => ?_⟩
  induction c with
  | done a =>
    refine ⟨_, fun d hd => ?_⟩
    cases hd
  | job j k ih =>
    refine ⟨_, fun d hd => ?_⟩
    cases hd with
    | returns _ _ x => exact ih x

end Script

namespace Stage

/-- How far a thread is in the course of one poll. -/
def rank : Stage → Nat
  | .free => 4
  | .calling => 3
  | .awake => 2
  | .polling => 1
  | .parked => 0

end Stage

variable {S ι Op β γ ρ : Type} {Job : ι → Type} [DecidableEq ι]

namespace Blocking

variable {B : Blocking S ι Op β γ Job} {s t : BlockState S ι β γ ρ Job} {i : ι}

/-- What is counted: how much each thread has moved, how much a job may move, which threads have
news for another one in hand, and how many wakes the threads can still give themselves. -/
structure Progress (B : Blocking S ι Op β γ Job) where
  moved : ι → S → Nat
  size : ∀ {i}, Job i → Nat
  busy : ι → S → Prop
  restless : S → Nat

namespace Progress

/-- A thread gets news only by moving something, delivers it before its call ends, and wakes
nobody else without it. -/
structure Sound [Fintype ι] (P : Progress B) : Prop where
  resume : ∀ i b, B.threads.resume i b = none
  own : B.PendingIsOwn
  frame : ∀ {s t : ThreadState S ι β} {a} {j : ι}, B.threads.machine.Reachable s →
    B.threads.exec s a = some t → j ≠ a.party →
    P.moved j t.mem = P.moved j s.mem ∧ (P.busy j t.mem ↔ P.busy j s.mem)
  mono : ∀ {s t : ThreadState S ι β} {a}, B.threads.machine.Reachable s →
    B.threads.exec s a = some t → P.moved a.party s.mem ≤ P.moved a.party t.mem
  starts : ∀ {s t : ThreadState S ι β} {a}, B.threads.machine.Reachable s →
    B.threads.exec s a = some t → P.busy a.party t.mem →
    P.busy a.party s.mem ∨ P.moved a.party s.mem < P.moved a.party t.mem
  idle : ∀ {s : ThreadState S ι β} {i : ι}, B.threads.machine.Reachable s →
    s.running i = none → ¬ P.busy i s.mem
  rests : ∀ {s t : ThreadState S ι β} {a}, B.threads.machine.Reachable s →
    B.threads.exec s a = some t → (∀ j, ¬ P.busy j s.mem) → (∀ j, ¬ P.busy j t.mem) →
    P.restless t.mem + ∑ j, (B.unparks s.mem t.mem j).toNat ≤ P.restless s.mem
  job : ∀ {s t : ThreadState S ι β} {i} {j : Job i}, B.threads.machine.Reachable s →
    B.JobRun i j s t → P.moved i t.mem ≤ P.moved i s.mem + P.size j

variable (P : Progress B)

/-- What the current job of a thread may still move. -/
def left (s : BlockState S ι β γ ρ Job) (i : ι) : WithTop Nat :=
  match s.stage i, s.script i with
  | .free, _ => ⊤
  | _, .job j _ => WithTop.some (P.moved i (s.began i) + P.size j - P.moved i s.base.mem)
  | _, .done _ => ⊤

open Classical in
/-- The program of a thread that has news to deliver. -/
noncomputable def duty (s : BlockState S ι β γ ρ Job) (i : ι) : Option (Prog S β) :=
  if P.busy i s.base.mem then s.base.running i else none

/-- The job to do, how much of it is left, and the program that delivers news. -/
abbrev Work (S β γ ρ : Type) (Job : ι → Type) (i : ι) : Type :=
  Script (Job i) γ ρ × WithTop Nat × Option (Prog S β)

/-- The wakes that may still come, and where each thread is in its poll. -/
abbrev Course (S ι β : Type) : Type := Nat × (ι → Nat × Option (Prog S β))

noncomputable def work (s : BlockState S ι β γ ρ Job) (i : ι) : Work S β γ ρ Job i :=
  (s.script i, P.left s i, P.duty s i)

def wakes [Fintype ι] (s : BlockState S ι β γ ρ Job) : Nat :=
  P.restless s.base.mem + ∑ i, (s.token i).toNat

def course (s : BlockState S ι β γ ρ Job) (i : ι) : Nat × Option (Prog S β) :=
  ((s.stage i).rank, s.base.running i)

open Classical in
/-- While somebody has news to deliver, only the work counts. -/
noncomputable def rank [Fintype ι] (s : BlockState S ι β γ ρ Job) :
    (∀ i, Work S β γ ρ Job i) × Course S ι β :=
  (P.work s, if ∃ i, P.busy i s.base.mem then (0, fun _ => (0, none)) else (P.wakes s, course s))

def WorkDown (i : ι) : Work S β γ ρ Job i → Work S β γ ρ Job i → Prop :=
  Prod.Lex Script.Next (Prod.Lex (· < ·) Threads.RunNext)

def CourseDown : Course S ι β → Course S ι β → Prop :=
  Prod.Lex (· < ·) (Moves fun _ => Prod.Lex (· < ·) Threads.RunNext)

def RankDown : (∀ i, Work S β γ ρ Job i) × Course S ι β →
    (∀ i, Work S β γ ρ Job i) × Course S ι β → Prop :=
  Prod.Lex (Moves WorkDown) CourseDown

omit [DecidableEq ι] in
theorem rankDown_wf [Finite ι] :
    WellFounded (RankDown : (∀ i, Work S β γ ρ Job i) × Course S ι β → _ → Prop) :=
  (Moves.wellFounded fun _ =>
    Script.next_wf.prod_lex ((wellFounded_lt (α := WithTop Nat)).prod_lex Threads.runNext_wf)).prod_lex
    (wellFounded_lt.prod_lex (Moves.wellFounded fun _ => wellFounded_lt.prod_lex Threads.runNext_wf))

section Step

variable {P : Progress B} {scripts : ∀ i, Script (Job i) γ ρ}

omit [DecidableEq ι] in
theorem duty_congr {j : ι} (hrun : t.base.running j = s.base.running j)
    (h : P.busy j t.base.mem ↔ P.busy j s.base.mem) : P.duty t j = P.duty s j := by
  by_cases hb : P.busy j s.base.mem
  · rw [duty, duty, if_pos hb, if_pos (h.mpr hb), hrun]
  · rw [duty, duty, if_neg hb, if_neg fun ht => hb (h.mp ht)]

omit [DecidableEq ι] in
theorem workDown_of_returns {j : Job i} {k : γ → Script (Job i) γ ρ} {x : γ}
    (hs : s.script i = .job j k) (ht : t.script i = k x) : WorkDown i (P.work t i) (P.work s i) := by
  rw [work, work, hs, ht]
  exact .left _ _ (.returns _ _ _)

omit [DecidableEq ι] in
theorem workDown_of_call {j : Job i} {k : γ → Script (Job i) γ ρ} (hs : s.script i = .job j k)
    (hscript : t.script i = s.script i) (hfree : s.stage i = .free) (hcalling : t.stage i = .calling) :
    WorkDown i (P.work t i) (P.work s i) := by
  rw [work, work, hscript]
  refine .right _ (.left _ _ ?_)
  rw [left, left]
  simp only [hscript, hfree, hcalling, hs]
  exact WithTop.coe_lt_top _

variable [Fintype ι]

theorem Sound.moved_run (hP : P.Sound) {u v : ThreadState S ι β} (hu : B.threads.machine.Reachable u)
    {as : List (ThreadOp ι Op)} (hrun : B.threads.machine.run u as = some v) (i : ι) :
    P.moved i u.mem ≤ P.moved i v.mem := by
  refine (Machine.run_preserves (I := fun v => B.threads.machine.Reachable v ∧
    P.moved i u.mem ≤ P.moved i v.mem) ?_ ⟨hu, le_rfl⟩ hrun).2
  rintro s a t ⟨⟨bs, hbs⟩, hle⟩ hexec
  refine ⟨⟨bs ++ [a], ?_⟩, hle.trans ?_⟩
  · rw [Machine.run_append, hbs]
    exact (Machine.run_cons _).mpr ⟨t, hexec, rfl⟩
  · obtain rfl | hi := eq_or_ne i a.party
    · exact hP.mono ⟨bs, hbs⟩ hexec
    · exact (hP.frame ⟨bs, hbs⟩ hexec hi).1.ge

/-- At no moment has a job moved more than it may: the call it is in would come to an end. -/
theorem Sound.bound (hP : P.Sound) (hs : (B.machine scripts).Reachable s) {j : Job i}
    {k : γ → Script (Job i) γ ρ} (hfree : s.stage i ≠ .free) (hjob : s.script i = .job j k) :
    P.moved i s.base.mem ≤ P.moved i (s.began i) + P.size j := by
  obtain ⟨s₀, hr, hmem, hat⟩ := machine_history hP.own hs i j k hfree hjob
  have hbase := machine_base hs
  rw [← hmem]
  cases hstage : s.stage i with
  | free => exact absurd hstage hfree
  | calling =>
    rw [hstage] at hat
    obtain ⟨as, v, hrun, hends⟩ := Threads.Inside.exists_end hat hP.resume
    exact (hP.moved_run hbase hrun i).trans (hP.job hr (.call hends))
  | awake =>
    rw [hstage] at hat
    exact hP.job hr hat.2
  | polling =>
    rw [hstage] at hat
    obtain ⟨hblocks, w, hjr, hin⟩ := hat
    obtain ⟨as, v, hrun, hends⟩ := hin.exists_end hP.resume
    exact (hP.moved_run hbase hrun i).trans (hP.job hr (.poll hblocks hjr hends))
  | parked =>
    rw [hstage] at hat
    obtain ⟨w, hblocks, hjr, hends, -⟩ := hat
    exact hP.job hr (.poll hblocks hjr hends)

theorem Sound.others (hP : P.Sound) (hs : (B.machine scripts).Reachable s)
    (h : B.Steps s i t) {j : ι} (hj : j ≠ i) :
    P.work t j = P.work s j ∧ (P.busy j t.base.mem ↔ P.busy j s.base.mem) := by
  have hsame := h.untouched hj
  have hframe : P.moved j t.base.mem = P.moved j s.base.mem ∧
      (P.busy j t.base.mem ↔ P.busy j s.base.mem) := by
    obtain heq | ⟨a, rfl, hexec⟩ := h.base
    · rw [heq]
      exact ⟨rfl, .rfl⟩
    · exact hP.frame (machine_base hs) hexec hj
  refine ⟨?_, hframe.2⟩
  rw [work, work, duty_congr hsame.running hframe.2, left, left, hsame.script, hsame.stage,
    hsame.began, hframe.1]

/-- A thread that goes on with its job has less to do, or it has no news. -/
theorem Sound.same_job (hP : P.Sound) (ht : (B.machine scripts).Reachable t)
    (hst : s.Coherent) (hscript : t.script i = s.script i) (hbegan : t.began i = s.began i)
    (hs : s.stage i ≠ .free) (htfree : t.stage i ≠ .free)
    (hmono : P.moved i s.base.mem ≤ P.moved i t.base.mem)
    (hstarts : P.busy i t.base.mem →
      P.busy i s.base.mem ∨ P.moved i s.base.mem < P.moved i t.base.mem)
    (hrun : P.busy i s.base.mem → Threads.RunNext (t.base.running i) (s.base.running i)) :
    WorkDown i (P.work t i) (P.work s i) ∨
      P.work t i = P.work s i ∧ ¬ P.busy i s.base.mem ∧ ¬ P.busy i t.base.mem := by
  obtain ⟨j, k, hjob⟩ := hst.job i hs
  have hbound := hP.bound ht htfree (hscript.trans hjob)
  have hleft : ∀ {u : BlockState S ι β γ ρ Job}, u.stage i ≠ .free → u.script i = .job j k →
      P.left u i = WithTop.some (P.moved i (u.began i) + P.size j - P.moved i u.base.mem) := by
    intro u hfree hu
    unfold left
    split
    · exact absurd ‹_› hfree
    · rw [hu] at *
      simp_all
    · simp_all
  have hlefts := hleft hs hjob
  have hleftt := hleft htfree (hscript.trans hjob)
  rw [hbegan] at hbound hleftt
  obtain hlt | hle := hmono.lt_or_eq
  · left
    rw [work, work, hscript]
    refine .right _ (.left _ _ ?_)
    rw [hlefts, hleftt, WithTop.coe_lt_coe]
    omega
  · have heq : P.left t i = P.left s i := by rw [hlefts, hleftt, hle]
    have hbusy : P.busy i t.base.mem → P.busy i s.base.mem := fun h => by
      obtain h | h := hstarts h
      · exact h
      · omega
    by_cases hsb : P.busy i s.base.mem
    · left
      rw [work, work, hscript, heq]
      refine .right _ (.right _ ?_)
      have hrun := hrun hsb
      by_cases htb : P.busy i t.base.mem
      · rwa [duty, duty, if_pos hsb, if_pos htb]
      · rw [duty, duty, if_pos hsb, if_neg htb]
        exact hrun.stop
    · right
      have htb := fun h => hsb (hbusy h)
      refine ⟨?_, hsb, htb⟩
      rw [work, work, hscript, heq, duty, duty, if_neg hsb, if_neg htb]

/-- What a step does to the work of its thread. -/
theorem Sound.work_step (hP : P.Sound) (hs : (B.machine scripts).Reachable s)
    (ht : (B.machine scripts).Reachable t) (h : B.Steps s i t) :
    WorkDown i (P.work t i) (P.work s i) ∨
      P.work t i = P.work s i ∧ ¬ P.busy i s.base.mem ∧ ¬ P.busy i t.base.mem := by
  have hcoh := machine_coherent hs
  have hbase := machine_base hs
  cases h with
  | act hexec hp =>
    obtain ⟨p, hp', hnext⟩ := Threads.exec_act hP.resume hexec hp
    have hstage : s.stage i ≠ .free := by
      obtain hst | hst := (hcoh.running i).mp (by rw [hp']; rfl) <;> simp [hst]
    refine hP.same_job ht hcoh rfl rfl hstage hstage (hP.mono hbase hexec) (hP.starts hbase hexec) ?_
    intro _
    rw [hp', hp]
    exact .act hnext
  | create hexec hidle hstage hjob hblocks =>
    obtain ⟨-, p, hp⟩ := Threads.exec_over hexec hidle
    refine hP.same_job ht hcoh rfl rfl (by simp [hstage]) (by simp) (hP.mono hbase hexec)
      (hP.starts hbase hexec) fun _ => ?_
    rw [hp, hidle]
    exact .ends p
  | park hexec hidle hstage =>
    obtain ⟨-, p, hp⟩ := Threads.exec_over hexec hidle
    refine hP.same_job ht hcoh rfl rfl (by simp [hstage]) (by simp) (hP.mono hbase hexec)
      (hP.starts hbase hexec) fun _ => ?_
    rw [hp, hidle]
    exact .ends p
  | finish hexec hidle hjob =>
    exact .inl (workDown_of_returns hjob (Function.update_self _ _ _))
  | call hstage hjob hexec =>
    exact .inl (workDown_of_call hjob rfl hstage (Function.update_self _ _ _))
  | poll hstage hexec =>
    refine hP.same_job ht hcoh rfl rfl (by simp [hstage]) (by simp) (hP.mono hbase hexec)
      (hP.starts hbase hexec) fun hbusy => ?_
    exact absurd hbusy (hP.idle hbase (Threads.exec_call hexec).1)
  | unpark hstage =>
    refine hP.same_job ht hcoh rfl rfl (by simp [hstage]) (by simp) le_rfl .inl fun hbusy => ?_
    have hidle : s.base.running i = none := by simpa [hstage] using hcoh.running i
    exact absurd hbusy (hP.idle hbase hidle)

omit [DecidableEq ι] in
/-- The wakes still to come do not get more, and the thread comes nearer to its next `park`. -/
theorem courseDown_of_le (hwakes : P.wakes t ≤ P.wakes s)
    (hcourse : Prod.Lex (· < ·) Threads.RunNext (course t i) (course s i))
    (hothers : ∀ j, j ≠ i → Untouched s t j) :
    CourseDown (P.wakes t, course t) (P.wakes s, course s) := by
  obtain hlt | heq := hwakes.lt_or_eq
  · exact .left _ _ hlt
  · rw [heq]
    refine .right _ ⟨i, hcourse, fun j hj => ?_⟩
    rw [course, course, (hothers j hj).stage, (hothers j hj).running]

/-- When nobody has news to deliver, every step leads nearer to the end. -/
theorem Sound.course_step (hP : P.Sound) (hs : (B.machine scripts).Reachable s)
    (h : B.Steps s i t) (hwork : ¬ WorkDown i (P.work t i) (P.work s i))
    (hsb : ∀ j, ¬ P.busy j s.base.mem) (htb : ∀ j, ¬ P.busy j t.base.mem) :
    CourseDown (P.wakes t, course t) (P.wakes s, course s) := by
  have hcoh := machine_coherent hs
  have hbase := machine_base hs
  have hothers := fun j => h.untouched (j := j)
  have htokens : ∀ {a u}, B.threads.exec s.base a = some u → (∀ j, ¬ P.busy j u.mem) →
      P.restless u.mem + ∑ j, (B.tokens s u j).toNat ≤
        P.restless s.base.mem + ∑ j, (s.token j).toNat := by
    intro a u hexec hub
    have hrest := hP.rests hbase hexec hsb hub
    have hsum : ∑ j, (B.tokens s u j).toNat ≤
        ∑ j, ((s.token j).toNat + (B.unparks s.base.mem u.mem j).toNat) := by
      refine Finset.sum_le_sum fun j _ => ?_
      unfold tokens
      cases s.token j <;> cases B.unparks s.base.mem u.mem j <;> simp
    rw [Finset.sum_add_distrib] at hsum
    omega
  cases h with
  | act hexec hp =>
    obtain ⟨p, hp', hnext⟩ := Threads.exec_act hP.resume hexec hp
    refine courseDown_of_le (htokens hexec htb) ?_ hothers
    rw [course, course, hp, hp']
    exact .right _ (.act hnext)
  | create hexec hidle hstage =>
    refine courseDown_of_le (htokens hexec htb) (.left _ _ ?_) hothers
    simp [hstage, Stage.rank]
  | park hexec hidle hstage =>
    refine courseDown_of_le (htokens hexec htb) (.left _ _ ?_) hothers
    simp [hstage, Stage.rank]
  | finish _ _ hjob => exact (hwork (workDown_of_returns hjob (Function.update_self _ _ _))).elim
  | call hstage hjob =>
    exact (hwork (workDown_of_call hjob rfl hstage (Function.update_self _ _ _))).elim
  | poll hstage hexec =>
    refine courseDown_of_le ?_ (.left _ _ ?_) hothers
    · have := hP.rests hbase hexec hsb htb
      dsimp only [wakes]
      omega
    · simp [hstage, Stage.rank]
  | unpark hstage htoken =>
    refine .left _ _ (Nat.add_lt_add_left (Finset.sum_lt_sum (fun j _ => ?_)
      ⟨i, Finset.mem_univ i, by simp [htoken]⟩) _)
    obtain rfl | hj := eq_or_ne j i
    · simp
    · simp [hj]

end Step

/-- Under fair turns the threads come to rest, whatever their scripts. -/
theorem Sound.settles [Fintype ι] {P : Progress B} {scripts : ∀ i, Script (Job i) γ ρ}
    (hP : P.Sound) (hs : (B.machine scripts).Reachable s) {turns : Nat → ι}
    (hfair : Machine.Fair turns) :
    ∃ n, ∀ i, B.step ((B.machine scripts).follow turns s n) i = none := by
  refine hfair.eventually (M := B.machine scripts) (I := (B.machine scripts).Reachable)
    (P := fun s => ∀ i, B.step s i = none) rankDown_wf P.rank
    (fun s j => P.busy j s.base.mem ∨ (∀ i, ¬ P.busy i s.base.mem) ∧ (B.step s j).isSome = true)
    (fun s i t hs hstep => machine_step_reachable hs hstep) ?_ ?_ ?_ hs
  · rintro s i t j hs - hj hstep
    have ht := machine_step_reachable hs hstep
    have h := machine_steps hs hstep
    obtain hdown | ⟨hwork, hsb, htb⟩ := hP.work_step hs ht h
    · exact .inl (.left _ _ ⟨i, hdown, fun k hk => (hP.others hs h hk).1⟩)
    have hsame : P.work t = P.work s := by
      funext k
      obtain rfl | hk := eq_or_ne k i
      · exact hwork
      · exact (hP.others hs h hk).1
    have hbusy : ∀ k, P.busy k t.base.mem ↔ P.busy k s.base.mem := by
      intro k
      obtain rfl | hk := eq_or_ne k i
      · exact iff_of_false htb hsb
      · exact (hP.others hs h hk).2
    by_cases hany : ∃ k, P.busy k s.base.mem
    · -- somebody still has news: nothing changes for the one who helps
      have hjb : P.busy j s.base.mem := hj.resolve_right fun hquiet => hquiet.1 _ hany.choose_spec
      refine .inr ⟨?_, .inl ((hbusy j).mpr hjb), fun hij => hsb (hij ▸ hjb)⟩
      rw [rank, rank, hsame, if_pos hany, if_pos (hany.imp fun k => (hbusy k).mpr)]
    · have hquiet : ∀ k, ¬ P.busy k s.base.mem := fun k hk => hany ⟨k, hk⟩
      have hquiet' : ∀ k, ¬ P.busy k t.base.mem := fun k hk => hquiet k ((hbusy k).mp hk)
      left
      rw [rank, rank, hsame, if_neg hany, if_neg fun h => hquiet' _ h.choose_spec]
      refine .right _ (hP.course_step hs h ?_ hquiet hquiet')
      rw [hwork]
      exact (WellFounded.irrefl (Script.next_wf.prod_lex
        ((wellFounded_lt (α := WithTop Nat)).prod_lex Threads.runNext_wf))).irrefl _
  · rintro s j hs - (hbusy | hmoves)
    · cases hrun : s.base.running j with
      | none => exact absurd hbusy (hP.idle (machine_base hs) hrun)
      | some p =>
        change (B.step s j).isSome = true
        unfold step
        simp only [hrun, Option.isSome_map]
        exact Threads.exec_isSome hrun
    · exact hmoves.2
  · intro s hs hrest
    by_cases hany : ∃ k, P.busy k s.base.mem
    · exact hany.imp fun k => .inl
    · obtain ⟨j, hj⟩ := not_forall.mp hrest
      exact ⟨j, .inr ⟨fun k hk => hany ⟨k, hk⟩, Option.isSome_iff_ne_none.mpr hj⟩⟩

end Progress

end Blocking

end Cynosure
