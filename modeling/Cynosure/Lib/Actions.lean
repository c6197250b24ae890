import Cynosure.Lib.Layer

/-! # What single actions do

A relation between the states before and after one action need be neither reflexive
nor transitive, so it is no guarantee that others could rely on. It is shown of every
action of a program over an outline that is sound already.
-/

universe u v w x

namespace Contract

variable {S : Type u}

/-- The contract is known to be met, and every action is to be one of `R`. -/
def doing (C : Contract S) (R : S → S → Prop) : Layer S where
  base := C
  extra := ⟨fun _ => True, fun _ _ => True, R, fun _ => trivial, fun _ _ => trivial⟩

variable {C : Contract S} {R : S → S → Prop}

theorem doing_inv {s : S} (h : C.inv s) : (C.doing R).inv s := ⟨h, trivial⟩

theorem doing_rely {s t : S} (h : C.rely s t) : (C.doing R).rely s t := ⟨h, trivial⟩

theorem doing_keeps {P : S → Prop} {s t : S} (hR : R s t) (h : C.inv t → P t) :
    (C.doing R).Keeps P s t :=
  fun hinv _ => ⟨trivial, hR, h hinv⟩

theorem Stable.doing {P : S → Prop} (h : C.Stable P) : (C.doing R).Stable P := .of_base h

/-- A program whose actions all leave alone what the assertion reads. -/
theorem doing_always {α : Type v} {P : S → Prop} {K : S → S → Prop} (hP : C.Stable P)
    (hR : ∀ {s t}, K s t → R s t) (hK : ∀ {s t}, C.inv t → K s t → P s → P t) {p : Prog S α}
    (hp : p.Always K) : (C.doing R).Triple P p fun _ => P :=
  .always hP.doing (fun _ _ _ hk hs => doing_keeps (hR hk) fun ht => hK ht hk hs) hp

end Contract

namespace Outline

variable {S : Type u} {ι : Type v} {Op : Type w} {β : Type x}

/-- Every call and every action of a party is one of those in `R`. -/
structure Does (O : Outline S ι β) (T : Threads S ι Op β) (R : ThreadOp ι Op → S → S → Prop) :
    Prop where
  refl : ∀ i s, R (.step i) s s
  start : ∀ {i op s t p}, O.inv s → O.rest i s → T.start i op s = some (t, p) → O.inv t →
    R (.call i op) s t ∧ ((O.contract i).doing (R (.step i))).Ok (fun _ _ => True) p t

variable {O : Outline S ι β} {T : Threads S ι Op β} {R : ThreadOp ι Op → S → S → Prop}
  [DecidableEq ι]

/-- The programs under way take only such actions. -/
def Doing (O : Outline S ι β) (R : ThreadOp ι Op → S → S → Prop) (s : ThreadState S ι β) : Prop :=
  ∀ i p, s.running i = some p → ((O.contract i).doing (R (.step i))).Ok (fun _ _ => True) p s.mem

theorem Does.exec (hR : O.Does T R) (hO : O.Sound T) (hres : ∀ i b, T.resume i b = none)
    {s t : ThreadState S ι β} {a : ThreadOp ι Op} (hs : O.Holds s) (hdo : O.Doing R s)
    (h : T.exec s a = some t) : R a s.mem t.mem ∧ O.Doing R t := by
  obtain ⟨ht, hguar⟩ := hO.exec_guar hs h
  have hothers : ∀ j, j ≠ a.party → ∀ p, t.running j = some p →
      ((O.contract j).doing (R (.step j))).Ok (fun _ _ => True) p t.mem := by
    intro j hj p hp
    rw [Threads.exec_running h hj] at hp
    exact (hdo j p hp).stable (Contract.doing_rely (hguar j hj))
  cases a with
  | call i op =>
    cases hp : s.running i with
    | some p => simp [Threads.exec, hp] at h
    | none =>
      simp only [Threads.exec, hp, Option.map_eq_some_iff] at h
      obtain ⟨⟨m, p⟩, hstart, rfl⟩ := h
      have hrest := hs.2 i
      rw [hp] at hrest
      obtain ⟨hdoes, hok⟩ := hR.start hs.1 hrest hstart ht.1
      refine ⟨hdoes, fun j q hq => ?_⟩
      obtain rfl | hj := eq_or_ne j i
      · obtain rfl : p = q := by simpa using hq
        exact hok
      · exact hothers j hj q hq
  | step i =>
    cases hp : s.running i with
    | none => simp [Threads.exec, hp] at h
    | some p =>
      cases p with
      | ret b =>
        simp only [Threads.exec, hp, Option.some.injEq] at h
        subst h
        refine ⟨hR.refl i _, fun j q hq => ?_⟩
        obtain rfl | hj := eq_or_ne j i
        · simp [hres] at hq
        · exact hothers j hj q hq
      | act f k =>
        simp only [Threads.exec, hp, Option.some.injEq] at h
        subst h
        obtain ⟨-, hdoes, hk⟩ := hdo i _ hp s.mem ⟨hs.1, trivial⟩ ⟨O.refl i _, trivial⟩ ht.1 hguar
        refine ⟨hdoes, fun j q hq => ?_⟩
        obtain rfl | hj := eq_or_ne j i
        · obtain rfl : k s.mem = q := by simpa using hq
          exact hk
        · exact hothers j hj q hq

/-- The rule for a whole system: every step in every run is one that its party may take. -/
theorem Does.reachable (hR : O.Does T R) (hO : O.Sound T) (hres : ∀ i b, T.resume i b = none)
    {s t : ThreadState S ι β} {a : ThreadOp ι Op} (hs : T.machine.Reachable s)
    (h : T.exec s a = some t) : R a s.mem t.mem := by
  have hdo : O.Holds s ∧ O.Doing R s := by
    refine hs.invariant (M := T.machine) (I := fun s => O.Holds s ∧ O.Doing R s)
      ⟨⟨hO.init, hO.initRest⟩, fun i p hp => by cases hp⟩ ?_
    rintro s b t ⟨hs, hdo⟩ h
    exact ⟨hO.exec hs h, (hR.exec hO hres hs hdo h).2⟩
  exact (hR.exec hO hres hdo.1 hdo.2 h).1

end Outline
