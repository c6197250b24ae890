import Cynosure.Lib.Machine
import Cynosure.Lib.Prog

/-! # Threads that call programs

Each party of the system is idle or inside a call. A call starts in one step, then
takes the actions of its program one by one, interleaved with those of the others
in any order; when the program returns, the party is idle again or goes on with
another program (a loop of the source that retries).
-/

universe u v w x

/-- `start` may refuse a call: the handle it needs is borrowed, moved away or dropped. -/
structure Threads (S : Type u) (ι : Type v) (Op : Type w) (β : Type x) where
  init : S
  start : ι → Op → S → Option (S × Prog S β)
  resume : ι → β → Option (Prog S β)

structure ThreadState (S : Type u) (ι : Type v) (β : Type x) where
  mem : S
  running : ι → Option (Prog S β)

inductive ThreadOp (ι : Type v) (Op : Type w) where
  | call (i : ι) (op : Op)
  | step (i : ι)

/-- The party that moves. -/
def ThreadOp.party {ι : Type v} {Op : Type w} : ThreadOp ι Op → ι
  | .call i _ => i
  | .step i => i

namespace Threads

variable {S : Type u} {ι : Type v} {Op : Type w} {β : Type x} [DecidableEq ι]

def exec (T : Threads S ι Op β) (s : ThreadState S ι β) : ThreadOp ι Op → Option (ThreadState S ι β)
  | .call i op =>
    match s.running i with
    | some _ => none
    | none => (T.start i op s.mem).map fun r => ⟨r.1, Function.update s.running i (some r.2)⟩
  | .step i =>
    match s.running i with
    | none => none
    | some (.ret b) => some ⟨s.mem, Function.update s.running i (T.resume i b)⟩
    | some (.act f k) => some ⟨f s.mem, Function.update s.running i (some (k s.mem))⟩

def machine (T : Threads S ι Op β) : Machine (ThreadState S ι β) (ThreadOp ι Op) where
  init := ⟨T.init, fun _ => none⟩
  step := T.exec

theorem exec_running {T : Threads S ι Op β} {s t : ThreadState S ι β} {a : ThreadOp ι Op} {i : ι}
    (h : T.exec s a = some t) (hi : i ≠ a.party) : t.running i = s.running i := by
  cases a with
  | call j op =>
    simp only [exec] at h
    split at h
    · cases h
    · obtain ⟨r, -, rfl⟩ := Option.map_eq_some_iff.mp h
      exact Function.update_of_ne hi _ _
  | step j =>
    simp only [exec] at h
    split at h
    · cases h
    · cases h
      exact Function.update_of_ne hi _ _
    · cases h
      exact Function.update_of_ne hi _ _

/-- A party that does not move in a run is where it was. -/
theorem run_running {T : Threads S ι Op β} {s t : ThreadState S ι β} {as : List (ThreadOp ι Op)}
    {i : ι} (h : T.machine.run s as = some t) (hi : ∀ a ∈ as, i ≠ a.party) :
    t.running i = s.running i := by
  induction as generalizing s with
  | nil =>
    cases h
    rfl
  | cons a as ih =>
    obtain ⟨r, hr, hrest⟩ := (Machine.run_cons T.machine).mp h
    rw [ih hrest fun b hb => hi b (by simp [hb])]
    exact exec_running hr (hi a (by simp))

/-- A program goes on, or is over. -/
inductive RunNext : Option (Prog S β) → Option (Prog S β) → Prop
  | ends (p : Prog S β) : RunNext none (some p)
  | act {p q : Prog S β} (h : Prog.Next q p) : RunNext (some q) (some p)

theorem RunNext.stop {p q : Option (Prog S β)} (h : RunNext q p) : RunNext none p := by
  cases h <;> exact .ends _

theorem runNext_wf : WellFounded (RunNext : Option (Prog S β) → Option (Prog S β) → Prop) := by
  have hnone : Acc RunNext (none : Option (Prog S β)) := by
    refine ⟨_, fun q hq => ?_⟩
    cases hq
  refine ⟨fun p => ?_⟩
  cases p with
  | none => exact hnone
  | some p =>
    induction p using Prog.next_wf.induction with
    | _ p ih =>
      refine ⟨_, fun q hq => ?_⟩
      cases hq with
      | ends => exact hnone
      | act h => exact ih _ h

section Exec

variable {T : Threads S ι Op β} {s u : ThreadState S ι β} {i : ι}

theorem exec_act {q : Prog S β} (hres : ∀ i b, T.resume i b = none)
    (h : T.exec s (.step i) = some u) (hq : u.running i = some q) :
    ∃ p, s.running i = some p ∧ Prog.Next q p := by
  simp only [exec] at h
  split at h
  · cases h
  · cases h
    simp [hres] at hq
  · rename_i f k hp
    cases h
    obtain rfl : k s.mem = q := by simpa using hq
    exact ⟨_, hp, .act f k s.mem⟩

theorem exec_over (h : T.exec s (.step i) = some u) (hidle : u.running i = none) :
    u.mem = s.mem ∧ ∃ p, s.running i = some p := by
  simp only [exec] at h
  split at h
  · cases h
  · rename_i b hp
    cases h
    exact ⟨rfl, _, hp⟩
  · cases h
    simp at hidle

theorem exec_call {op : Op} (h : T.exec s (.call i op) = some u) :
    s.running i = none ∧ ∃ p, u.running i = some p := by
  simp only [exec] at h
  split at h
  · cases h
  · rename_i hidle
    obtain ⟨c, -, rfl⟩ := Option.map_eq_some_iff.mp h
    exact ⟨hidle, c.2, Function.update_self _ _ _⟩

theorem exec_running_isSome (h : T.exec s (.step i) = some u) : (s.running i).isSome = true := by
  simp only [exec] at h
  split at h
  · cases h
  · simp [*]
  · simp [*]

theorem exec_isSome {p : Prog S β} (h : s.running i = some p) :
    (T.exec s (.step i)).isSome = true := by
  cases p <;> simp [exec, h]

end Exec

/-- In `t` the call that party `i` makes in `s` has returned, and `i` has made no other. -/
def CallEnds (T : Threads S ι Op β) (i : ι) (op : Op) (s t : ThreadState S ι β) : Prop :=
  ∃ r as, T.exec s (.call i op) = some r ∧ (∀ a ∈ as, ∀ op, a ≠ .call i op) ∧
    T.machine.run r as = some t ∧ t.running i = none

theorem CallEnds.idle {T : Threads S ι Op β} {i : ι} {op : Op} {s t : ThreadState S ι β}
    (h : T.CallEnds i op s t) : t.running i = none := by
  obtain ⟨-, -, -, -, -, hidle⟩ := h
  exact hidle

theorem CallEnds.was_idle {T : Threads S ι Op β} {i : ι} {op : Op} {s t : ThreadState S ι β}
    (h : T.CallEnds i op s t) : s.running i = none := by
  obtain ⟨_, _, hexec, -⟩ := h
  simp only [exec] at hexec
  split at hexec
  · cases hexec
  · assumption

theorem CallEnds.start {T : Threads S ι Op β} {i : ι} {op : Op} {s t : ThreadState S ι β}
    (h : T.CallEnds i op s t) : ∃ call, T.start i op s.mem = some call := by
  obtain ⟨_, _, hexec, -⟩ := h
  simp only [exec] at hexec
  split at hexec
  · cases hexec
  · obtain ⟨call, hcall, -⟩ := Option.map_eq_some_iff.mp hexec
    exact ⟨call, hcall⟩

/-- One call of party `i` after the other, with what is seen of each when it has returned. -/
inductive Calls {γ : Type*} (T : Threads S ι Op β) (i : ι) (out : S → γ) :
    ThreadState S ι β → List Op → List γ → ThreadState S ι β → Prop
  | nil (s) : Calls T i out s [] [] s
  | cons {s t u op ops outs} (h : T.CallEnds i op s t) (h' : Calls T i out t ops outs u) :
      Calls T i out s (op :: ops) (out t.mem :: outs) u

/-- The last call of a party in a run. -/
theorem CallEnds.of_run {T : Threads S ι Op β} {i : ι} {op : Op} {s t : ThreadState S ι β}
    {before after : List (ThreadOp ι Op)}
    (h : T.machine.run s (before ++ .call i op :: after) = some t)
    (hafter : ∀ a ∈ after, ∀ op, a ≠ .call i op) (hidle : t.running i = none) :
    ∃ r, T.machine.run s before = some r ∧ T.CallEnds i op r t := by
  rw [Machine.run_append, Option.bind_eq_some_iff] at h
  obtain ⟨r, hr, hrest⟩ := h
  obtain ⟨u, hu, hrest⟩ := (Machine.run_cons T.machine).mp hrest
  exact ⟨r, hr, u, after, hu, hafter, hrest, hidle⟩

/-- Programs are finite: a party that is given enough steps comes to the end of its call. -/
theorem exists_return {T : Threads S ι Op β} {i : ι} (hres : ∀ b, T.resume i b = none)
    {p : Prog S β} {s : ThreadState S ι β} (hp : s.running i = some p) :
    ∃ n t, T.machine.run s (List.replicate n (.step i)) = some t ∧ t.running i = none := by
  induction p generalizing s with
  | ret b =>
    refine ⟨1, ⟨s.mem, Function.update s.running i none⟩, ?_, Function.update_self _ _ _⟩
    simp [Machine.run, machine, exec, hp, hres]
  | act f k ih =>
    obtain ⟨n, t, hrun, ht⟩ := ih s.mem (s := ⟨f s.mem, Function.update s.running i (some (k s.mem))⟩)
      (Function.update_self _ _ _)
    refine ⟨n + 1, t, ?_, ht⟩
    rw [List.replicate_succ, Machine.run_cons]
    exact ⟨_, by simp [machine, exec, hp], hrun⟩

theorem exists_callEnds {T : Threads S ι Op β} {i : ι} {op : Op} {s r : ThreadState S ι β}
    (hres : ∀ b, T.resume i b = none) (hcall : T.exec s (.call i op) = some r) :
    ∃ t, T.CallEnds i op s t := by
  have hp : ∃ p, r.running i = some p := by
    simp only [exec] at hcall
    split at hcall
    · cases hcall
    · obtain ⟨q, -, rfl⟩ := Option.map_eq_some_iff.mp hcall
      exact ⟨q.2, Function.update_self _ _ _⟩
  obtain ⟨p, hp⟩ := hp
  obtain ⟨n, t, hrun, ht⟩ := exists_return hres hp
  refine ⟨t, r, _, hcall, fun a ha op => ?_, hrun, ht⟩
  rw [List.eq_of_mem_replicate ha]
  simp

/-- In `u` party `i` is inside the call that it makes in `s`, or has returned from it. -/
def Inside (T : Threads S ι Op β) (i : ι) (op : Op) (s u : ThreadState S ι β) : Prop :=
  ∃ r as, T.exec s (.call i op) = some r ∧ (∀ a ∈ as, ∀ op, a ≠ .call i op) ∧
    T.machine.run r as = some u

section Inside

variable {T : Threads S ι Op β} {i : ι} {op : Op} {s u v : ThreadState S ι β}

theorem Inside.run (h : T.Inside i op s u) {as : List (ThreadOp ι Op)}
    (has : ∀ a ∈ as, ∀ op, a ≠ .call i op) (hrun : T.machine.run u as = some v) :
    T.Inside i op s v := by
  obtain ⟨r, bs, hcall, hbs, hr⟩ := h
  refine ⟨r, bs ++ as, hcall, fun a ha => ?_, ?_⟩
  · obtain ha | ha := List.mem_append.mp ha
    · exact hbs a ha
    · exact has a ha
  · rw [Machine.run_append, hr]
    exact hrun

theorem Inside.exec (h : T.Inside i op s u) {a : ThreadOp ι Op} (ha : ∀ op, a ≠ .call i op)
    (hexec : T.exec u a = some v) : T.Inside i op s v := by
  have hrun : T.machine.run u [a] = some v := (Machine.run_cons _).mpr ⟨v, hexec, rfl⟩
  exact h.run (by simpa using ha) hrun

theorem Inside.ends (h : T.Inside i op s u) (hidle : u.running i = none) : T.CallEnds i op s u := by
  obtain ⟨r, as, hcall, has, hrun⟩ := h
  exact ⟨r, as, hcall, has, hrun, hidle⟩

theorem CallEnds.inside (h : T.CallEnds i op s u) : T.Inside i op s u := by
  obtain ⟨r, as, hcall, has, hrun, -⟩ := h
  exact ⟨r, as, hcall, has, hrun⟩

/-- What others do after a call has returned does not undo that. -/
theorem CallEnds.others (h : T.CallEnds i op s u) {a : ThreadOp ι Op} (ha : a.party ≠ i)
    (hexec : T.exec u a = some v) : T.CallEnds i op s v := by
  refine (h.inside.exec (fun op => ?_) hexec).ends ?_
  · rintro rfl
    exact ha rfl
  · rw [exec_running hexec ha.symm]
    exact h.idle

/-- Left alone, a party comes to the end of its call. -/
theorem Inside.exists_end (h : T.Inside i op s u) (hres : ∀ i b, T.resume i b = none) :
    ∃ as v, T.machine.run u as = some v ∧ T.CallEnds i op s v := by
  cases hp : u.running i with
  | none => exact ⟨[], u, rfl, h.ends hp⟩
  | some p =>
    obtain ⟨n, v, hrun, hidle⟩ := exists_return (hres i) hp
    refine ⟨_, v, hrun, (h.run ?_ hrun).ends hidle⟩
    rintro a ha op rfl
    exact nomatch List.eq_of_mem_replicate ha

theorem Reachable.callEnds (hs : T.machine.Reachable s) (h : T.CallEnds i op s u) :
    T.machine.Reachable u := by
  obtain ⟨as, has⟩ := hs
  obtain ⟨r, bs, hcall, -, hrun, -⟩ := h
  refine ⟨as ++ .call i op :: bs, ?_⟩
  rw [Machine.run_append, has]
  exact (Machine.run_cons _).mpr ⟨r, hcall, hrun⟩

end Inside

end Threads

/-- A proof outline: one invariant, and for each party what it relies on, what holds of it
between calls and what holds when a program of it returns. -/
structure Outline (S : Type u) (ι : Type v) (β : Type x) where
  inv : S → Prop
  rely : ι → S → S → Prop
  refl : ∀ i s, rely i s s
  trans : ∀ {i r s t}, rely i r s → rely i s t → rely i r t
  rest : ι → S → Prop
  post : ι → β → S → Prop

namespace Outline

variable {S : Type u} {ι : Type v} {Op : Type w} {β : Type x}

def contract (O : Outline S ι β) (i : ι) : Contract S where
  inv := O.inv
  rely := O.rely i
  guar s t := ∀ j, j ≠ i → O.rely j s t
  refl := O.refl i
  trans := O.trans

structure Sound (O : Outline S ι β) (T : Threads S ι Op β) : Prop where
  init : O.inv T.init
  initRest : ∀ i, O.rest i T.init
  stable : ∀ i, (O.contract i).Stable (O.rest i)
  start : ∀ {i op s t p}, O.inv s → O.rest i s → T.start i op s = some (t, p) →
    O.inv t ∧ (O.contract i).guar s t ∧ (O.contract i).Ok (O.post i) p t
  finish : ∀ {i b s}, O.inv s → O.post i b s → T.resume i b = none → O.rest i s
  again : ∀ {i b s p}, O.inv s → O.post i b s → T.resume i b = some p →
    (O.contract i).Ok (O.post i) p s

def Holds (O : Outline S ι β) (s : ThreadState S ι β) : Prop :=
  O.inv s.mem ∧ ∀ i, match s.running i with
    | none => O.rest i s.mem
    | some p => (O.contract i).Ok (O.post i) p s.mem

variable {O : Outline S ι β} {T : Threads S ι Op β} [DecidableEq ι]

/-- One party moves; what the others were promised survives. -/
theorem Holds.move {s : ThreadState S ι β} (hs : O.Holds s) (hO : O.Sound T) {i : ι} {t : S}
    (hinv : O.inv t) (hguar : (O.contract i).guar s.mem t) {r : Option (Prog S β)}
    (hr : match r with
      | none => O.rest i t
      | some p => (O.contract i).Ok (O.post i) p t) :
    O.Holds ⟨t, Function.update s.running i r⟩ := by
  refine ⟨hinv, fun j => ?_⟩
  by_cases hj : j = i
  · subst hj
    simpa using hr
  · have hrely := hguar j hj
    have hold := hs.2 j
    simp only [Function.update_of_ne hj]
    cases hp : s.running j with
    | none =>
      rw [hp] at hold
      exact hO.stable j _ _ hinv hrely hold
    | some p =>
      rw [hp] at hold
      exact hold.stable hrely

theorem Sound.exec_guar (hO : O.Sound T) {s t : ThreadState S ι β} {a : ThreadOp ι Op}
    (hs : O.Holds s) (ht : T.exec s a = some t) :
    O.Holds t ∧ (O.contract a.party).guar s.mem t.mem := by
  cases a with
  | call i op =>
    have hi := hs.2 i
    cases hp : s.running i with
    | some p => simp [Threads.exec, hp] at ht
    | none =>
      rw [hp] at hi
      simp only [Threads.exec, hp, Option.map_eq_some_iff] at ht
      obtain ⟨⟨m, p⟩, hstart, rfl⟩ := ht
      obtain ⟨hinv, hguar, hok⟩ := hO.start hs.1 hi hstart
      exact ⟨hs.move hO hinv hguar hok, hguar⟩
  | step i =>
    have hi := hs.2 i
    cases hp : s.running i with
    | none => simp [Threads.exec, hp] at ht
    | some p =>
      rw [hp] at hi
      cases p with
      | ret b =>
        simp only [Threads.exec, hp, Option.some.injEq] at ht
        subst ht
        have hpost : O.post i b s.mem := hi s.mem hs.1 (O.refl i _)
        refine ⟨hs.move hO hs.1 (fun j _ => O.refl j _) ?_, fun j _ => O.refl j _⟩
        cases hres : T.resume i b with
        | none => exact hO.finish hs.1 hpost hres
        | some q => exact hO.again hs.1 hpost hres
      | act f k =>
        simp only [Threads.exec, hp, Option.some.injEq] at ht
        subst ht
        obtain ⟨hinv, hguar, hok⟩ := hi s.mem hs.1 (O.refl i _)
        exact ⟨hs.move hO hinv hguar hok, hguar⟩

theorem Sound.exec (hO : O.Sound T) {s t : ThreadState S ι β} {a : ThreadOp ι Op}
    (hs : O.Holds s) (ht : T.exec s a = some t) : O.Holds t :=
  (hO.exec_guar hs ht).1

theorem Sound.run (hO : O.Sound T) {s t : ThreadState S ι β} {as : List (ThreadOp ι Op)}
    (hs : O.Holds s) (ht : T.machine.run s as = some t) : O.Holds t :=
  Machine.run_preserves (fun _ _ _ => hO.exec) hs ht

/-- The rule for a whole system: what the outline says holds in every reachable state. -/
theorem Sound.reachable (hO : O.Sound T) {s : ThreadState S ι β} (h : T.machine.Reachable s) :
    O.Holds s :=
  h.invariant ⟨hO.init, hO.initRest⟩ fun _ _ _ => hO.exec

section Calls

variable {i : ι} {Q : β → S → Prop}

/-- The call that `i` is in ends with `Q`, or has ended so. -/
def Answers (O : Outline S ι β) (i : ι) (Q : β → S → Prop) (s : ThreadState S ι β) : Prop :=
  match s.running i with
  | none => ∃ b, Q b s.mem
  | some p => (O.contract i).Ok Q p s.mem

theorem Sound.exec_answers (hO : O.Sound T) (hres : ∀ b s, Q b s → T.resume i b = none)
    (hQ : ∀ b, (O.contract i).Stable (Q b)) {s t : ThreadState S ι β} {a : ThreadOp ι Op}
    (hs : O.Holds s) (h : O.Answers i Q s) (ha : ∀ op, a ≠ .call i op)
    (ht : T.exec s a = some t) : O.Answers i Q t := by
  obtain ⟨hinv, hguar⟩ := hO.exec_guar hs ht
  unfold Answers at h ⊢
  by_cases hi : i = a.party
  · cases a with
    | call j op => exact absurd (congrArg (ThreadOp.call · op) hi.symm) (ha op)
    | step j =>
      obtain rfl : i = j := hi
      cases hp : s.running i with
      | none => simp [Threads.exec, hp] at ht
      | some p =>
        rw [hp] at h
        cases p with
        | ret b =>
          simp only [Threads.exec, hp, Option.some.injEq] at ht
          subst ht
          have hb := h s.mem hs.1 (O.refl i _)
          simp only [Function.update_self, hres b _ hb]
          exact ⟨b, hb⟩
        | act f k =>
          simp only [Threads.exec, hp, Option.some.injEq] at ht
          subst ht
          simp only [Function.update_self]
          exact (h s.mem hs.1 (O.refl i _)).2.2
  · rw [Threads.exec_running ht hi]
    have hrely := hguar i hi
    cases hp : s.running i with
    | none =>
      rw [hp] at h
      obtain ⟨b, hb⟩ := h
      exact ⟨b, hQ b _ _ hinv.1 hrely hb⟩
    | some p =>
      rw [hp] at h
      exact h.stable hrely

theorem Sound.run_answers (hO : O.Sound T) (hres : ∀ b s, Q b s → T.resume i b = none)
    (hQ : ∀ b, (O.contract i).Stable (Q b)) {s t : ThreadState S ι β} {as : List (ThreadOp ι Op)}
    (hs : O.Holds s) (h : O.Answers i Q s) (has : ∀ a ∈ as, ∀ op, a ≠ .call i op)
    (ht : T.machine.run s as = some t) : O.Answers i Q t := by
  induction as generalizing s with
  | nil =>
    cases ht
    exact h
  | cons a as ih =>
    obtain ⟨r, hr, hrest⟩ := (Machine.run_cons T.machine).mp ht
    refine ih (hO.exec hs hr) ?_ (fun b hb => has b (List.mem_cons_of_mem _ hb)) hrest
    exact hO.exec_answers hres hQ hs h (has a List.mem_cons_self) hr

/-- The rule for one call: what its program establishes holds when it has returned, whatever the
others did in the meantime. -/
theorem Sound.callEnds (hO : O.Sound T) (hres : ∀ b s, Q b s → T.resume i b = none)
    (hQ : ∀ b, (O.contract i).Stable (Q b)) {op : Op} {s t : ThreadState S ι β} (hs : O.Holds s)
    (hok : ∀ m p, T.start i op s.mem = some (m, p) → O.rest i s.mem → (O.contract i).Ok Q p m)
    (h : T.CallEnds i op s t) : ∃ b, Q b t.mem := by
  obtain ⟨r, as, hcall, has, hrun, hidle⟩ := h
  have hr : O.Answers i Q r := by
    have hrest := hs.2 i
    cases hp : s.running i with
    | some p => simp [Threads.exec, hp] at hcall
    | none =>
      rw [hp] at hrest
      simp only [Threads.exec, hp, Option.map_eq_some_iff] at hcall
      obtain ⟨⟨m, p⟩, hstart, rfl⟩ := hcall
      simp only [Answers, Function.update_self]
      exact hok m p hstart hrest
  have ht := hO.run_answers hres hQ (hO.exec hs hcall) hr has hrun
  rwa [Answers, hidle] at ht

end Calls

end Outline
