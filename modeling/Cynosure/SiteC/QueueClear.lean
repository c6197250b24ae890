import Mathlib.Tactic
import Cynosure.SiteC.QueueOwner

/-! # `Queue::clear` when a destructor panics

A call that drops elements is given the answer of every destructor: `panics i v` for the
`i`-th destructor of the call, that of `v`. On the inline ring the first destructor that
unwinds ends `clear` and `Drop`, on the heap the drop glue goes on with the rest. The life
of a queue is any sequence of calls, with every one of them free to unwind in a destructor.
-/

namespace Cynosure.SiteC

/-- How a call that runs destructors ends; a second panic during an unwind aborts. -/
inductive Ending where
  | returned
  | unwound
  | aborted
  deriving DecidableEq, Repr

/-- The calls on one queue; those that drop elements come with the answers of the
destructors. A write through `iter_mut` that unwinds is an `iterMut` of fewer calls. -/
inductive LifeOp (T : Type) where
  | on (op : QueueOp T)
  | clear (panics : Nat → T → Bool)
  | retain (keep panics : Nat → T → Bool)
  | drop (panics : Nat → T → Bool)

/-- A queue and what became of the elements; no queue is left once it is dropped. -/
structure Life (T : Type) (N : Nat) where
  queue : Option (Queue T N)
  entered : List T := []
  moved : List T := []
  dropped : List T := []
  ending : Ending := .returned

variable {T : Type} {N : Nat}

/-- The drop glue of a slice, for `VecDeque` and the rest of a `Vec`: it goes on behind an
element that unwinds. -/
def dropSlice (panics : Nat → T → Bool) (i : Nat) (unwinding : Bool) : List T → List T × Ending
  | [] => ([], if unwinding then .unwound else .returned)
  | v :: vs =>
    if panics i v then
      if unwinding then ([v], .aborted)
      else (v :: (dropSlice panics (i + 1) true vs).1, (dropSlice panics (i + 1) true vs).2)
    else
      (v :: (dropSlice panics (i + 1) unwinding vs).1, (dropSlice panics (i + 1) unwinding vs).2)

namespace Queue

/-- The loop of `clear`: `head` and `len` are past the element when its destructor runs, and
`tail` is only reset behind the loop. -/
def clearLoop (panics : Nat → T → Bool) (tail i : Nat) (buf : Slots T) (head : Nat) :
    Nat → Except Fault (Queue T N × List T × Ending)
  | 0 => .ok (.inline buf 0 0 0, [], .returned)
  | len + 1 => do
    let (v, buf) ← buf.read N head
    if panics i v then return (.inline buf (Ring.next N head) tail len, [v], .unwound)
    else do
      let (q, dropped, ending) ← clearLoop panics tail (i + 1) buf (Ring.next N head) len
      return (q, v :: dropped, ending)

/-- `clear`, with the elements that it dropped and its end. -/
def clearWith (panics : Nat → T → Bool) : Queue T N → Except Fault (Queue T N × List T × Ending)
  | .inline buf head tail len => clearLoop panics tail 0 buf head len
  | .heap items => .ok (.heap [], dropSlice panics 0 false items)

/-- `clear` called again until it returns; `panics` counts the destructors of all the calls. -/
def clearUntilReturned (panics : Nat → T → Bool) (q : Queue T N) (i : Nat) :
    (fuel : Nat) → Except Fault (Queue T N × List T × Ending)
  | 0 => .ok (q, [], .unwound)
  | fuel + 1 => do
    let (q, dropped, ending) ← q.clearWith fun k => panics (i + k)
    match ending with
    | .unwound =>
      let (q, more, ending) ← q.clearUntilReturned panics (i + dropped.length) fuel
      return (q, dropped ++ more, ending)
    | ending => return (q, dropped, ending)

/-- The loop of `Drop`. -/
def dropLoop (panics : Nat → T → Bool) (i : Nat) (buf : Slots T) (idx : Nat) :
    Nat → Except Fault (List T × Ending)
  | 0 => .ok ([], .returned)
  | count + 1 => do
    let (v, buf) ← buf.read N idx
    if panics i v then return ([v], .unwound)
    else do
      let (vs, ending) ← dropLoop panics (i + 1) buf (Ring.next N idx) count
      return (v :: vs, ending)

/-- `Drop`: the ring is dropped by its loop, and nothing else drops a slot. -/
def dropWith (panics : Nat → T → Bool) : Queue T N → Except Fault (List T × Ending)
  | .inline buf head _ len => dropLoop (N := N) panics 0 buf head len
  | .heap items => .ok (dropSlice panics 0 false items)

/-- The loop of `retain`: an element that is not kept is dropped, and what is left of the
`Vec` is dropped when that unwinds. `j` counts the destructors. -/
def retainLoopWith (keep panics : Nat → T → Bool) (q : Queue T N) (i j : Nat) :
    List T → Except Fault (Queue T N × List T × Ending)
  | [] => .ok (q, [], .returned)
  | v :: vs =>
    if keep i v then do
      let q ← q.pushBack v
      q.retainLoopWith keep panics (i + 1) j vs
    else if panics j v then
      .ok (q, v :: (dropSlice panics (j + 1) true vs).1, (dropSlice panics (j + 1) true vs).2)
    else do
      let (q, dropped, ending) ← q.retainLoopWith keep panics (i + 1) (j + 1) vs
      return (q, v :: dropped, ending)

def retainWith (keep panics : Nat → T → Bool) (q : Queue T N) :
    Except Fault (Queue T N × List T × Ending) := do
  let (q, items) ← q.intoVec
  q.retainLoopWith keep panics 0 0 items

end Queue

namespace Life

/-- The queue after a call that dropped elements; an abort ends the process. -/
def afterDrops (s : Life T N) (q : Option (Queue T N)) (dropped : List T) (ending : Ending) :
    Life T N :=
  { s with
    queue := if ending = .aborted then none else q
    dropped := s.dropped ++ dropped
    ending }

def call (s : Life T N) (op : LifeOp T) : Except Fault (Life T N) :=
  match s.queue with
  | none => .ok s
  | some q =>
    match op with
    | .on op => do
      let (q, report) ← op.onQueue q
      return { queue := some q, entered := s.entered ++ report.entered,
               moved := s.moved ++ report.moved, dropped := s.dropped ++ report.dropped }
    | .clear panics => do
      let (q, dropped, ending) ← q.clearWith panics
      return s.afterDrops (some q) dropped ending
    | .retain keep panics => do
      let (q, dropped, ending) ← q.retainWith keep panics
      return s.afterDrops (some q) dropped ending
    | .drop panics => do
      let (dropped, ending) ← q.dropWith panics
      return s.afterDrops none dropped ending

end Life

/-- No destructor of these elements panics, counted from the `i`-th on. -/
def Quiet (panics : Nat → T → Bool) (i : Nat) (l : List T) : Prop :=
  ∀ k v, l[k]? = some v → panics (i + k) v = false

section Quiet

variable {panics : Nat → T → Bool} {i : Nat} {v : T} {l : List T}

theorem Quiet.cons (hv : panics i v = false) (h : Quiet panics (i + 1) l) :
    Quiet panics i (v :: l) := by
  intro k u hu
  cases k with
  | zero =>
    cases hu
    exact hv
  | succ k =>
    have := h k u hu
    rwa [show i + 1 + k = i + (k + 1) by omega] at this

theorem Quiet.head (h : Quiet panics i (v :: l)) : panics i v = false := h 0 v rfl

theorem Quiet.tail (h : Quiet panics i (v :: l)) : Quiet panics (i + 1) l := by
  intro k u hu
  have := h (k + 1) u hu
  rwa [show i + (k + 1) = i + 1 + k by omega] at this

theorem quiet_or_first (panics : Nat → T → Bool) (i : Nat) (l : List T) : Quiet panics i l ∨
    ∃ front v rest, l = front ++ v :: rest ∧ Quiet panics i front ∧
      panics (i + front.length) v = true := by
  induction l generalizing i with
  | nil =>
    left
    intro k v hv
    simp at hv
  | cons u l ih =>
    cases hu : panics i u with
    | true =>
      right
      refine ⟨[], u, l, rfl, ?_, hu⟩
      intro k v hv
      simp at hv
    | false =>
      rcases ih (i + 1) with hquiet | ⟨front, v, rest, rfl, hfront, hv⟩
      · exact .inl (hquiet.cons hu)
      · right
        refine ⟨u :: front, v, rest, rfl, hfront.cons hu, ?_⟩
        rwa [List.length_cons, show i + (front.length + 1) = i + 1 + front.length by omega]

theorem dropSlice_prefix (panics : Nat → T → Bool) (i : Nat) (unwinding : Bool) (l : List T) :
    ∃ lost, l = (dropSlice panics i unwinding l).1 ++ lost ∧
      ((dropSlice panics i unwinding l).2 ≠ .aborted → lost = []) := by
  induction l generalizing i unwinding with
  | nil => exact ⟨[], rfl, fun _ => rfl⟩
  | cons v l ih =>
    rw [dropSlice]
    split
    · split
      · exact ⟨l, rfl, fun h => absurd rfl h⟩
      · obtain ⟨lost, hl, hlost⟩ := ih (i + 1) true
        exact ⟨lost, congrArg (v :: ·) hl, hlost⟩
    · obtain ⟨lost, hl, hlost⟩ := ih (i + 1) unwinding
      exact ⟨lost, congrArg (v :: ·) hl, hlost⟩

end Quiet

namespace Queue

section Loops

variable {panics : Nat → T → Bool} {head tail i : Nat} {front rest l : List T} {v : T}

theorem clearLoop_quiet (hhead : head < N ∨ l = []) (hl : l.length ≤ N) (h : Quiet panics i l) :
    clearLoop (N := N) panics tail i (Ring.layout N head l) head l.length =
      .ok (.inline (fun _ => none) 0 0 0, l, .returned) := by
  induction l generalizing head i with
  | nil => simp [clearLoop]
  | cons v l ih =>
    have hh : head < N := hhead.resolve_right (by simp)
    rw [List.length_cons] at hl
    rw [List.length_cons, clearLoop, Slots.read_of hh (Ring.layout_head hh), Except.ok_bind,
      Ring.layout_tail hh (by omega)]
    dsimp only
    rw [h.head, ih (.inl (Ring.next_lt hh)) (by omega) h.tail]
    rfl

/-- `clear` unwinds behind the first element whose destructor does: the ring starts at the
next one. -/
theorem clearLoop_unwinds (hhead : head < N) (hl : (front ++ v :: rest).length ≤ N)
    (hfront : Quiet panics i front) (hv : panics (i + front.length) v = true) :
    clearLoop (N := N) panics tail i (Ring.layout N head (front ++ v :: rest)) head
        (front ++ v :: rest).length =
      .ok (.inline (Ring.layout N ((head + (front.length + 1)) % N) rest)
        ((head + (front.length + 1)) % N) tail rest.length, front ++ [v], .unwound) := by
  induction front generalizing head i with
  | nil =>
    simp only [List.nil_append, List.length_nil, List.length_cons, Nat.add_zero, Nat.zero_add] at hl hv ⊢
    rw [clearLoop, Slots.read_of hhead (Ring.layout_head hhead), Except.ok_bind,
      Ring.layout_tail hhead (by omega)]
    dsimp only
    rw [hv, ← Ring.next_eq hhead]
    rfl
  | cons u front ih =>
    simp only [List.cons_append, List.length_cons] at hl hv ⊢
    rw [clearLoop, Slots.read_of hhead (Ring.layout_head hhead), Except.ok_bind,
      Ring.layout_tail hhead (by omega)]
    dsimp only
    rw [hfront.head, ih (Ring.next_lt hhead) (by omega) hfront.tail
      (by rwa [show i + 1 + front.length = i + (front.length + 1) by omega]), Ring.slot_next hhead]
    rfl

/-- The loop of `Drop` is that of `clear`, less the queue that is left. -/
theorem dropLoop_eq (panics : Nat → T → Bool) (tail i : Nat) (buf : Slots T) (idx count : Nat) :
    dropLoop (N := N) panics i buf idx count =
      (clearLoop (N := N) panics tail i buf idx count).map Prod.snd := by
  induction count generalizing i buf idx with
  | zero => rfl
  | succ count ih =>
    rw [dropLoop, clearLoop]
    cases hread : buf.read N idx with
    | error fault => rfl
    | ok r =>
      rw [Except.ok_bind, Except.ok_bind]
      dsimp only
      cases panics i r.1 with
      | true => rfl
      | false =>
        rw [ih]
        cases clearLoop (N := N) panics tail (i + 1) r.2 (Ring.next N idx) count <;> rfl

end Loops

section Clear

variable {panics : Nat → T → Bool} {buf : Slots T} {head tail len i : Nat} {front rest l : List T}
  {v : T}

theorem Holds.clearLoop_quiet (h : (Queue.inline buf head tail len : Queue T N).Holds l)
    (hl : Quiet panics i l) : clearLoop (N := N) panics tail i buf head len =
      .ok (.inline (fun _ => none) 0 0 0, l, .returned) := by
  obtain ⟨rfl, hle, hhead, -, rfl⟩ := h
  apply Queue.clearLoop_quiet ?_ hle hl
  rcases hhead with hhead | ⟨hN, -⟩
  · exact .inl hhead
  · exact .inr (List.length_eq_zero_iff.mp (by omega))

/-- What the unwinding `clear` leaves holds the elements behind the one that unwound. -/
theorem Holds.clearLoop_unwinds
    (h : (Queue.inline buf head tail len : Queue T N).Holds (front ++ v :: rest))
    (hfront : Quiet panics i front) (hv : panics (i + front.length) v = true) :
    ∃ buf' head', clearLoop (N := N) panics tail i buf head len =
        .ok (.inline buf' head' tail rest.length, front ++ [v], .unwound) ∧
      (Queue.inline buf' head' tail rest.length : Queue T N).Holds rest := by
  obtain ⟨rfl, hle, hhead, rfl, rfl⟩ := h
  have hlen : (front ++ v :: rest).length = front.length + 1 + rest.length := by
    simp
    omega
  have hh : head < N := hhead.resolve_right fun h => by omega
  refine ⟨_, _, Queue.clearLoop_unwinds hh hle hfront hv, rfl, by omega,
    .inl (Nat.mod_lt _ (by omega)), ?_, rfl⟩
  rw [Nat.mod_add_mod, hlen, ← Nat.add_assoc]

end Clear

variable {q : Queue T N} {l : List T}

/-- Every end of `clear`: what was dropped stood in front of what the queue still holds, and
nothing is lost unless the process aborts. -/
theorem Holds.clearWith (h : q.Holds l) (panics : Nat → T → Bool) :
    ∃ q' dropped ending left lost, q.clearWith panics = .ok (q', dropped, ending) ∧
      q'.Holds left ∧ l = dropped ++ left ++ lost ∧ (ending ≠ .aborted → lost = []) := by
  cases q with
  | heap items =>
    cases h
    obtain ⟨lost, hl, hlost⟩ := dropSlice_prefix panics 0 false l
    exact ⟨_, _, _, [], lost, rfl, rfl, by rwa [List.append_nil], hlost⟩
  | inline buf head tail len =>
    rcases quiet_or_first panics 0 l with hquiet | ⟨front, v, rest, rfl, hfront, hv⟩
    · exact ⟨_, _, _, [], [], h.clearLoop_quiet hquiet, holds_new, by simp, fun _ => rfl⟩
    · obtain ⟨buf', head', hclear, h'⟩ := h.clearLoop_unwinds hfront hv
      exact ⟨_, _, _, rest, [], hclear, h', by simp, fun _ => rfl⟩

/-- The elements that `Drop` does not drop stand behind one whose destructor unwound. -/
theorem Holds.dropWith (h : q.Holds l) (panics : Nat → T → Bool) :
    ∃ dropped ending lost, q.dropWith panics = .ok (dropped, ending) ∧ l = dropped ++ lost ∧
      (ending = .returned → lost = []) := by
  cases q with
  | heap items =>
    cases h
    obtain ⟨lost, hl, hlost⟩ := dropSlice_prefix panics 0 false l
    exact ⟨_, _, lost, rfl, hl, fun he => hlost fun ha => by cases he.symm.trans ha⟩
  | inline buf head tail len =>
    rw [Queue.dropWith, dropLoop_eq panics tail]
    rcases quiet_or_first panics 0 l with hquiet | ⟨front, v, rest, rfl, hfront, hv⟩
    · rw [h.clearLoop_quiet hquiet]
      exact ⟨l, .returned, [], rfl, by simp, fun _ => rfl⟩
    · obtain ⟨buf', head', hclear, -⟩ := h.clearLoop_unwinds hfront hv
      rw [hclear]
      exact ⟨front ++ [v], .unwound, rest, rfl, by simp, fun he => by cases he⟩

theorem Holds.retainLoopWith (h : q.Holds l) (keep panics : Nat → T → Bool) (i j : Nat)
    (items : List T) : ∃ q' dropped ending left lost,
      q.retainLoopWith keep panics i j items = .ok (q', dropped, ending) ∧ q'.Holds left ∧
        (l ++ items).Perm (dropped ++ left ++ lost) ∧ (ending ≠ .aborted → lost = []) := by
  induction items generalizing q l i j with
  | nil => exact ⟨q, [], .returned, l, [], rfl, h, by simp, fun _ => rfl⟩
  | cons v items ih =>
    rw [Queue.retainLoopWith]
    split
    · obtain ⟨q₁, hq₁, h₁⟩ := h.pushBack v
      obtain ⟨q', dropped, ending, left, lost, hrest, h', hperm, hlost⟩ := ih h₁ (i + 1) j
      refine ⟨q', dropped, ending, left, lost, ?_, h', by simpa using hperm, hlost⟩
      rw [hq₁, Except.ok_bind, hrest]
    · split
      · obtain ⟨lost, hitems, hlost⟩ := dropSlice_prefix panics (j + 1) true items
        refine ⟨q, _, _, l, lost, rfl, h, ?_, hlost⟩
        -- The kept elements stand in front, and the dropped ones come out first.
        calc (l ++ v :: items).Perm (v :: items ++ l) := List.perm_append_comm
          _ = v :: ((dropSlice panics (j + 1) true items).1 ++ lost) ++ l := by rw [← hitems]
          _ = v :: (dropSlice panics (j + 1) true items).1 ++ (lost ++ l) := by simp
          _ |>.Perm (v :: (dropSlice panics (j + 1) true items).1 ++ (l ++ lost)) :=
            List.perm_append_comm.append_left _
          _ = _ := (List.append_assoc _ _ _).symm
      · obtain ⟨q', dropped, ending, left, lost, hrest, h', hperm, hlost⟩ := ih h (i + 1) (j + 1)
        refine ⟨q', v :: dropped, ending, left, lost, ?_, h', ?_, hlost⟩
        · rw [hrest]
          rfl
        · exact List.perm_middle.trans (hperm.cons v)

theorem Holds.retainWith (h : q.Holds l) (keep panics : Nat → T → Bool) :
    ∃ q' dropped ending left lost, q.retainWith keep panics = .ok (q', dropped, ending) ∧
      q'.Holds left ∧ l.Perm (dropped ++ left ++ lost) ∧ (ending ≠ .aborted → lost = []) := by
  obtain ⟨q₁, hq₁, h₁⟩ := h.intoVec
  obtain ⟨q', dropped, ending, left, lost, hloop, h'⟩ := h₁.retainLoopWith keep panics 0 0 l
  refine ⟨q', dropped, ending, left, lost, ?_, h'⟩
  rw [Queue.retainWith, hq₁, Except.ok_bind]
  exact hloop

/-- Each call of `clear` that unwinds drops at least one element, so that it returns once
more calls than elements were made; the calls together drop every element, in order. -/
theorem Holds.clearUntilReturned {buf : Slots T} {head tail len : Nat}
    (h : (Queue.inline buf head tail len : Queue T N).Holds l) (panics : Nat → T → Bool) (i : Nat)
    {fuel : Nat} (hfuel : l.length < fuel) :
    (Queue.inline buf head tail len : Queue T N).clearUntilReturned panics i fuel =
      .ok (.inline (fun _ => none) 0 0 0, l, .returned) := by
  induction fuel generalizing l buf head tail len i with
  | zero => omega
  | succ fuel ih =>
    rw [Queue.clearUntilReturned, Queue.clearWith]
    rcases quiet_or_first (fun k => panics (i + k)) 0 l with
      hquiet | ⟨front, v, rest, rfl, hfront, hv⟩
    · rw [h.clearLoop_quiet hquiet]
      rfl
    · obtain ⟨buf', head', hclear, h'⟩ := h.clearLoop_unwinds hfront hv
      rw [List.length_append, List.length_cons] at hfuel
      rw [hclear, Except.ok_bind]
      dsimp only
      rw [ih h' (i + (front ++ [v]).length) (by omega)]
      simp [Except.ok_bind, pure, Except.pure]

end Queue

namespace Life

/-- The elements that were there at the start and those that came in went out, were dropped,
are still held, or were lost: by a `Drop` that unwound, or by an abort. -/
def Accounts (l : List T) (s : Life T N) : Prop :=
  ∃ held lost : List T, (l ++ s.entered).Perm (s.moved ++ s.dropped ++ held ++ lost) ∧
    (∀ q ∈ s.queue, q.Holds held ∧ lost = []) ∧ (s.queue = none → held = []) ∧
    (s.ending = .returned → lost = [])

variable {l held dropped left lost : List T} {s : Life T N} {ending : Ending}

theorem accounts_start {q : Queue T N} (h : q.Holds l) : Accounts l { queue := some q } := by
  refine ⟨l, [], by simp, fun q' hq' => ?_, fun hnone => (by cases hnone), fun _ => rfl⟩
  cases hq'
  exact ⟨h, rfl⟩

theorem drops_perm (hs : (l ++ s.entered).Perm (s.moved ++ s.dropped ++ held))
    (hheld : held.Perm (dropped ++ left ++ lost)) :
    (l ++ s.entered).Perm (s.moved ++ (s.dropped ++ dropped) ++ left ++ lost) := by
  have := hs.trans (hheld.append_left _)
  simpa only [List.append_assoc] using this

theorem accounts_gone (hs : (l ++ s.entered).Perm (s.moved ++ s.dropped ++ held))
    (hheld : held.Perm (dropped ++ lost)) (hlost : ending = .returned → lost = []) :
    Accounts l (s.afterDrops none dropped ending) := by
  refine ⟨[], lost, drops_perm hs (by simpa using hheld), ?_, fun _ => rfl, hlost⟩
  intro q hq
  simp [afterDrops] at hq

/-- `clear` and `retain` leave a queue, unless the process aborts. -/
theorem accounts_kept {q : Queue T N}
    (hs : (l ++ s.entered).Perm (s.moved ++ s.dropped ++ held))
    (hheld : held.Perm (dropped ++ left ++ lost)) (hq : q.Holds left)
    (hlost : ending ≠ .aborted → lost = []) :
    Accounts l (s.afterDrops (some q) dropped ending) := by
  cases ending with
  | aborted =>
    have hgone : Accounts l (s.afterDrops none dropped .aborted) :=
      accounts_gone hs (by simpa using hheld) fun h => (by cases h)
    exact hgone
  | returned | unwound =>
    refine ⟨left, lost, drops_perm hs hheld, ?_, fun hnone => (by cases hnone),
      fun _ => hlost (by simp)⟩
    intro q' hq'
    cases hq'
    exact ⟨hq, hlost (by simp)⟩

theorem call_accounts (h : Accounts l s) (op : LifeOp T) :
    ∃ s', s.call op = .ok s' ∧ Accounts l s' := by
  unfold call
  cases hqueue : s.queue with
  | none => exact ⟨s, rfl, h⟩
  | some q =>
    obtain ⟨held, lost, hperm, hholds, -, -⟩ := h
    obtain ⟨hq, rfl⟩ := hholds q (by rw [hqueue]; rfl)
    rw [List.append_nil] at hperm
    cases op with
    | on op =>
      obtain ⟨q', hq', h'⟩ := hq.onQueue op
      refine ⟨_, by dsimp only; rw [hq']; rfl, (op.onList held).1, [], ?_, ?_,
        fun hnone => (by cases hnone), fun _ => rfl⟩
      · have hstep : ((op.onList held).2.entered ++ held).Perm
            ((op.onList held).2.moved ++ (op.onList held).2.dropped ++ (op.onList held).1) := by
          have := op.balanced held
          simpa only [Report.Balanced, Multiset.coe_add, Multiset.coe_eq_coe] using this
        rw [← Multiset.coe_eq_coe] at hperm hstep ⊢
        simp only [← Multiset.coe_add] at hperm hstep ⊢
        calc (l : Multiset T) + (s.entered + (op.onList held).2.entered)
            = l + s.entered + (op.onList held).2.entered := (add_assoc _ _ _).symm
          _ = s.moved + s.dropped + ((op.onList held).2.entered + held) := by
              rw [hperm]
              abel
          _ = _ := by
              rw [hstep, Multiset.coe_nil]
              abel
      · intro q'' hq''
        cases hq''
        exact ⟨h', rfl⟩
    | clear panics =>
      obtain ⟨q', dropped, ending, left, lost, hclear, h', rfl, hlost⟩ := hq.clearWith panics
      exact ⟨_, by dsimp only; rw [hclear]; rfl, accounts_kept hperm (.refl _) h' hlost⟩
    | retain keep panics =>
      obtain ⟨q', dropped, ending, left, lost, hretain, h', hheld, hlost⟩ :=
        hq.retainWith keep panics
      exact ⟨_, by dsimp only; rw [hretain]; rfl, accounts_kept hperm hheld h' hlost⟩
    | drop panics =>
      obtain ⟨dropped, ending, lost, hdrop, rfl, hlost⟩ := hq.dropWith panics
      exact ⟨_, by dsimp only; rw [hdrop]; rfl, accounts_gone hperm (.refl _) hlost⟩

theorem run_accounts (h : Accounts l s) (ops : List (LifeOp T)) :
    ∃ s', ops.foldlM call s = .ok s' ∧ Accounts l s' := by
  induction ops generalizing s with
  | nil => exact ⟨s, rfl, h⟩
  | cons op ops ih =>
    obtain ⟨s₁, hs₁, h₁⟩ := call_accounts h op
    obtain ⟨s₂, hs₂, h₂⟩ := ih h₁
    exact ⟨s₂, by rw [List.foldlM_cons, hs₁]; exact hs₂, h₂⟩

end Life

namespace Queue

/-- `clear` is panic-safe on the inline ring, whichever destructors panic. When it unwinds at
the element at place `i` it has dropped the elements up to that one, and leaves a ring in
order with the elements behind it. Called again until it returns, it drops every element
once. Any other calls after it never fault, and every element that was there or came in
went out, was dropped or is still held, once; elements are lost only with the queue itself,
when its `Drop` unwinds or the process aborts. -/
theorem clear_unwinds_in_order (panics : Nat → T → Bool) {buf : Slots T} {head tail len : Nat}
    {l : List T} (h : (Queue.inline buf head tail len : Queue T N).Holds l) :
    (Quiet panics 0 l → (Queue.inline buf head tail len : Queue T N).clearWith panics =
        .ok (.inline (fun _ => none) 0 0 0, l, .returned)) ∧
      (∀ i v, l[i]? = some v → panics i v = true → Quiet panics 0 (l.take i) →
        ∃ buf' head' len', (Queue.inline buf head tail len : Queue T N).clearWith panics =
            .ok (.inline buf' head' tail len', l.take (i + 1), .unwound) ∧
          (Queue.inline buf' head' tail len' : Queue T N).RingOk ∧
          (Queue.inline buf' head' tail len' : Queue T N).listItems = .ok (l.drop (i + 1))) ∧
      (Queue.inline buf head tail len : Queue T N).clearUntilReturned panics 0 (l.length + 1) =
        .ok (.inline (fun _ => none) 0 0 0, l, .returned) ∧
      ∀ ops : List (LifeOp T), ∃ s, ops.foldlM Life.call
          { queue := some (Queue.inline buf head tail len : Queue T N) } = .ok s ∧
        (∀ q ∈ s.queue, q.RingOk) ∧
        ∃ held lost, (∀ q ∈ s.queue, q.listItems = .ok held) ∧ (s.queue = none → held = []) ∧
          (l ++ s.entered).Perm (s.moved ++ s.dropped ++ held ++ lost) ∧
          (s.queue.isSome ∨ s.ending = .returned → lost = []) := by
  refine ⟨fun hquiet => h.clearLoop_quiet hquiet, fun i v hi hv hquiet => ?_,
    h.clearUntilReturned panics 0 (Nat.lt_succ_self _), fun ops => ?_⟩
  · obtain ⟨hlt, rfl⟩ := List.getElem?_eq_some_iff.mp hi
    have hlen : (l.take i).length = i := by simp; omega
    have hsplit : l.take i ++ l[i] :: l.drop (i + 1) = l := by simp
    rw [← hsplit] at h
    obtain ⟨buf', head', hclear, h'⟩ := h.clearLoop_unwinds hquiet (by rwa [Nat.zero_add, hlen])
    rw [← List.take_concat_get' l i hlt]
    exact ⟨buf', head', _, hclear, h'.ringOk, h'.listItems⟩
  · obtain ⟨s, hs, held, lost, hperm, hq, hnone, hlost⟩ := Life.run_accounts (Life.accounts_start h) ops
    refine ⟨s, hs, fun q hmem => (hq q hmem).1.ringOk, held, lost,
      fun q hmem => (hq q hmem).1.listItems, hnone, hperm, ?_⟩
    rintro (hsome | hret)
    · obtain ⟨q, hmem⟩ := Option.isSome_iff_exists.mp hsome
      exact (hq q hmem).2
    · exact hlost hret

/-- A ring of four slots that wraps, with two elements whose destructors panic. -/
theorem clear_unwinds_twice_wrapped :
    (Queue.inline (Ring.layout 4 3 [1, 2, 3]) 3 2 3 : Queue Nat 4).clearUntilReturned
        (fun _ v => v != 3) 0 4 = .ok (.inline (fun _ => none) 0 0 0, [1, 2, 3], .returned) :=
  (clear_unwinds_in_order (fun _ v => v != 3)
    (show (Queue.inline (Ring.layout 4 3 [1, 2, 3]) 3 2 3 : Queue Nat 4).Holds [1, 2, 3] from
      ⟨rfl, by decide, .inl (by decide), rfl, rfl⟩)).2.2.1

/-- `Drop` behind a `clear` that unwound: a second destructor that panics ends its loop, and the
third element is never dropped. -/
theorem drop_after_unwound_clear_loses :
    (Queue.inline (Ring.layout 4 0 [1, 2, 3]) 0 3 3 : Queue Nat 4).Holds [1, 2, 3] ∧
      ∃ s, [LifeOp.clear fun _ v => v != 3, .drop fun _ v => v != 3].foldlM Life.call
          { queue := some (Queue.inline (Ring.layout 4 0 [1, 2, 3]) 0 3 3 : Queue Nat 4) } = .ok s ∧
        s.queue.isNone = true ∧ s.moved = [] ∧ s.dropped = [1, 2] ∧ ¬ s.dropped.Perm [1, 2, 3] :=
  ⟨⟨rfl, by decide, .inl (by decide), rfl, rfl⟩, _, rfl, rfl, rfl, rfl, by decide⟩

end Queue

end Cynosure.SiteC
