import Mathlib.Tactic
import Cynosure.SiteC.Queue

/-! # What each operation of `Queue` does to the list it holds

The inline representation is determined by the list and the head: every slot holds the
element that the layout puts there, and nothing otherwise. One lemma for each
operation says that it does not fault, what it returns and which list is held after it.
-/

namespace Cynosure.SiteC

variable {T : Type} {N : Nat}

theorem Except.ok_bind {ε α β : Type} (a : α) (f : α → Except ε β) :
    (Except.ok a >>= f) = f a := rfl

namespace Slots

variable {head : Nat} {l : List T}

theorem peek_of {buf : Slots T} {i : Nat} {v : T} (hi : i < N) (hv : buf i = some v) :
    buf.peek N i = .ok v := by
  simp [peek, hi, hv]

theorem read_of {buf : Slots T} {i : Nat} {v : T} (hi : i < N) (hv : buf i = some v) :
    buf.read N i = .ok (v, Function.update buf i none) := by
  simp only [read, peek_of hi hv]
  rfl

theorem write_of {buf : Slots T} {i : Nat} (hi : i < N) (v : T) :
    buf.write N i v = .ok (Function.update buf i (some v)) :=
  if_pos hi

/-- The loops that move everything out: in order, and leaving nothing behind. -/
theorem drain_layout (hhead : head < N ∨ l = []) (hl : l.length ≤ N) :
    drain N (Ring.layout N head l) head l.length = .ok (l, fun _ => none) := by
  induction l generalizing head with
  | nil => simp [drain]
  | cons v l ih =>
    have hh : head < N := hhead.resolve_right (by simp)
    rw [List.length_cons] at hl
    rw [List.length_cons, drain, read_of hh (Ring.layout_head hh), Except.ok_bind,
      Ring.layout_tail hh (by omega)]
    dsimp only
    rw [ih (.inl (Ring.next_lt hh)) (by omega)]
    rfl

theorem slice_of {buf : Slots T} {start : Nat} (hl : start + l.length ≤ N)
    (h : ∀ k, k < l.length → buf (start + k) = l[k]?) : slice N buf start l.length = .ok l := by
  induction l generalizing start with
  | nil => rfl
  | cons v l ih =>
    rw [List.length_cons] at hl
    have h0 : buf start = some v := by simpa using h 0 (by simp)
    rw [List.length_cons, slice, peek_of (by omega) h0, Except.ok_bind, ih (by omega)]
    · rfl
    · intro k hk
      have := h (k + 1) (by simpa using hk)
      rwa [List.getElem?_cons_succ, show start + (k + 1) = start + 1 + k by omega] at this

theorem refill_layout (done : List T) (hl : done.length + l.length ≤ N) :
    refill N (Ring.layout N 0 done) done.length l = .ok (Ring.layout N 0 (done ++ l)) := by
  induction l generalizing done with
  | nil => simp [refill]
  | cons v l ih =>
    rw [List.length_cons] at hl
    have hN : 0 < N := by omega
    have happend := Ring.layout_append (l := done) (v := v) hN (by omega)
    rw [Nat.zero_add, Nat.mod_eq_of_lt (by omega)] at happend
    rw [refill, write_of (by omega), Except.ok_bind, happend]
    have := ih (done ++ [v]) (by simp; omega)
    simpa using this

end Slots

namespace Queue

/-- The queue holds the elements of `l`, in order, and nothing else. -/
def Holds (l : List T) : Queue T N → Prop
  | .inline buf head tail len => len = l.length ∧ len ≤ N ∧ (head < N ∨ N = 0 ∧ head = 0) ∧
      tail = (head + len) % N ∧ buf = Ring.layout N head l
  | .heap items => items = l

variable {q : Queue T N} {l : List T}

theorem holds_new : (new : Queue T N).Holds [] := by
  refine ⟨rfl, Nat.zero_le _, ?_, (Nat.zero_mod N).symm, (Ring.layout_nil N 0).symm⟩
  rcases Nat.eq_zero_or_pos N with hN | hN
  · exact .inr ⟨hN, rfl⟩
  · exact .inl hN

theorem holds_withCapacity (capacity : Nat) : (withCapacity capacity : Queue T N).Holds [] := by
  unfold withCapacity
  split
  · exact holds_new
  · rfl

theorem Holds.len_eq (h : q.Holds l) : q.len = l.length := by
  cases q with
  | inline buf head tail len => exact h.1
  | heap items => exact congrArg List.length h

theorem Holds.isEmpty_eq (h : q.Holds l) : q.isEmpty = l.isEmpty := by
  rw [isEmpty, h.len_eq]
  cases l <;> rfl

section Inline

variable {buf : Slots T} {head tail len : Nat}

theorem Holds.drain (h : (Queue.inline buf head tail len : Queue T N).Holds l) :
    buf.drain N head len = .ok (l, fun _ => none) := by
  obtain ⟨rfl, hle, hhead, -, rfl⟩ := h
  refine Slots.drain_layout ?_ hle
  rcases hhead with hhead | ⟨hN, -⟩
  · exact .inl hhead
  · exact .inr (List.length_eq_zero_iff.mp (by omega))

/-- A ring with an element in it has a head inside the array. -/
theorem Holds.head_lt (h : (Queue.inline buf head tail len : Queue T N).Holds l) (hN : 0 < N) :
    head < N :=
  h.2.2.1.resolve_right fun h0 => by omega

end Inline

theorem Holds.pushBack (h : q.Holds l) (v : T) :
    ∃ q', q.pushBack v = .ok q' ∧ q'.Holds (l ++ [v]) := by
  cases q with
  | heap items =>
    cases h
    exact ⟨_, rfl, rfl⟩
  | inline buf head tail len =>
    by_cases hlt : len < N
    · have hh := h.head_lt (by omega)
      obtain ⟨rfl, -, -, rfl, rfl⟩ := h
      have hN : 0 < N := by omega
      refine ⟨_, by rw [Queue.pushBack, if_pos hlt, Slots.write_of (Nat.mod_lt _ hN)]; rfl, ?_⟩
      refine ⟨by simp, by omega, .inl hh, ?_, ?_⟩
      · rw [Ring.next_slot hN]
      · exact Ring.layout_append hh hlt
    · exact ⟨.heap (l ++ [v]), by rw [Queue.pushBack, if_neg hlt, h.drain]; rfl, rfl⟩

theorem Holds.pushFront (h : q.Holds l) (v : T) :
    ∃ q', q.pushFront v = .ok q' ∧ q'.Holds (v :: l) := by
  cases q with
  | heap items =>
    cases h
    exact ⟨_, rfl, rfl⟩
  | inline buf head tail len =>
    by_cases hlt : len < N
    · have hh := h.head_lt (by omega)
      obtain ⟨rfl, -, -, rfl, rfl⟩ := h
      have hprev := Ring.prev_lt (by omega) hh
      refine ⟨_, by rw [Queue.pushFront, if_pos hlt, Slots.write_of hprev]; rfl, ?_⟩
      refine ⟨by simp, by omega, .inl hprev, ?_, Ring.layout_cons hh hlt⟩
      rw [← Ring.slot_next hprev, Ring.next_prev hh]
    · exact ⟨.heap (v :: l), by rw [Queue.pushFront, if_neg hlt, h.drain]; rfl, rfl⟩

theorem Holds.popFront (h : q.Holds l) :
    ∃ q', q.popFront = .ok (q', l.head?) ∧ q'.Holds l.tail := by
  cases q with
  | heap items =>
    cases h
    exact ⟨_, rfl, rfl⟩
  | inline buf head tail len =>
    cases l with
    | nil =>
      have h0 : len = 0 := h.1
      exact ⟨_, if_pos h0, h⟩
    | cons v l =>
      have h0 : len ≠ 0 := by simp [h.1]
      have hle := h.2.1
      have hh := h.head_lt (by omega)
      obtain ⟨rfl, -, -, rfl, rfl⟩ := h
      rw [List.length_cons] at hle
      refine ⟨_, by rw [Queue.popFront, if_neg h0, Slots.read_of hh (Ring.layout_head hh)]; rfl, ?_⟩
      refine ⟨by simp, by simp; omega, .inl (Ring.next_lt hh), ?_, Ring.layout_tail hh (by omega)⟩
      rw [Ring.slot_next hh]
      rfl

theorem Holds.popBack (h : q.Holds l) :
    ∃ q', q.popBack = .ok (q', l.getLast?) ∧ q'.Holds l.dropLast := by
  cases q with
  | heap items =>
    cases h
    exact ⟨_, rfl, rfl⟩
  | inline buf head tail len =>
    rcases l.eq_nil_or_concat' with rfl | ⟨l, v, rfl⟩
    · have h0 : len = 0 := h.1
      exact ⟨_, if_pos h0, h⟩
    · have h0 : len ≠ 0 := by simp [h.1]
      have hle := h.2.1
      have hh := h.head_lt (by omega)
      obtain ⟨rfl, -, -, rfl, rfl⟩ := h
      rw [List.length_append, List.length_singleton] at hle
      have hN : 0 < N := by omega
      have hprev : Ring.prev N ((head + (l ++ [v]).length) % N) = (head + l.length) % N := by
        rw [List.length_append, List.length_singleton, ← Ring.next_slot hN, Ring.prev_next]
      have hv : Ring.layout N head (l ++ [v]) ((head + l.length) % N) = some v := by
        rw [Ring.layout_slot hh (by omega)]
        simp
      rw [List.dropLast_concat, List.getLast?_concat]
      refine ⟨_, by rw [Queue.popBack, if_neg h0, hprev, Slots.read_of (Nat.mod_lt _ hN) hv]; rfl, ?_⟩
      exact ⟨by simp, by simp; omega, .inl hh, by simp, Ring.layout_dropLast hh (by omega)⟩

theorem Holds.intoVec (h : q.Holds l) : ∃ q', q.intoVec = .ok (q', l) ∧ q'.Holds [] := by
  cases q with
  | heap items =>
    cases h
    exact ⟨.heap [], rfl, rfl⟩
  | inline buf head tail len =>
    exact ⟨.inline (fun _ => none) 0 0 0, by rw [Queue.intoVec, h.drain]; rfl, holds_new⟩

theorem Holds.clear (h : q.Holds l) : ∃ q', q.clear = .ok (q', l) ∧ q'.Holds [] := by
  cases q with
  | heap items =>
    cases h
    exact ⟨.heap [], rfl, rfl⟩
  | inline buf head tail len =>
    exact ⟨.inline (fun _ => none) 0 0 0, by rw [Queue.clear, h.drain]; rfl, holds_new⟩

theorem Holds.dropItems (h : q.Holds l) : q.dropItems = .ok l := by
  cases q with
  | heap items => exact congrArg Except.ok h
  | inline buf head tail len =>
    rw [Queue.dropItems, h.drain]
    rfl

theorem Holds.extend (h : q.Holds l) (vs : List T) :
    ∃ q', q.extend vs = .ok q' ∧ q'.Holds (l ++ vs) := by
  induction vs generalizing q l with
  | nil => exact ⟨q, rfl, by rwa [List.append_nil]⟩
  | cons v vs ih =>
    obtain ⟨q', hq', h'⟩ := h.pushBack v
    obtain ⟨q'', hq'', h''⟩ := ih h'
    refine ⟨q'', ?_, by simpa using h''⟩
    rw [Queue.extend, hq', Except.ok_bind, hq'']

theorem holds_ofList (items : List T) :
    ∃ q', (ofList items : Except Fault (Queue T N)) = .ok q' ∧ q'.Holds items :=
  holds_new.extend items

theorem Holds.reserve (h : q.Holds l) (additional : Nat) :
    ∃ q', q.reserve additional = .ok q' ∧ q'.Holds l := by
  cases q with
  | heap items => exact ⟨_, rfl, h⟩
  | inline buf head tail len =>
    by_cases hfull : ((Queue.inline buf head tail len : Queue T N).len + additional) % 2 ^ 64 > N
    · exact ⟨.heap l, by rw [Queue.reserve, if_pos hfull, h.drain]; rfl, rfl⟩
    · exact ⟨_, if_neg hfull, h⟩

/-- In a ring that does not wrap the elements stand in a row. -/
theorem Holds.slice_of_lt {buf : Slots T} {head tail len : Nat}
    (h : (Queue.inline buf head tail len : Queue T N).Holds l) (hlt : head < tail) :
    buf.slice N head len = .ok l := by
  have hN : 0 < N := by
    rcases h.2.2.1 with hh | ⟨hN, -⟩
    · omega
    · have := h.2.2.2.1
      have := h.2.1
      subst hN
      simp at this
      omega
  have hh := h.head_lt hN
  obtain ⟨rfl, hle, -, rfl, rfl⟩ := h
  have hrow : head + l.length < N := by
    by_contra hge
    have hmod : (head + l.length) % N = head + l.length - N := by
      rw [Nat.mod_eq_sub_mod (by omega), Nat.mod_eq_of_lt (by omega)]
    omega
  refine Slots.slice_of (by omega) fun k hk => ?_
  have := Ring.layout_slot (l := l) hh (k := k) (by omega)
  rwa [Nat.mod_eq_of_lt (by omega)] at this

theorem Holds.makeContiguous (h : q.Holds l) :
    ∃ q', q.makeContiguous = .ok (q', l) ∧ q'.Holds l := by
  cases q with
  | heap items =>
    cases h
    exact ⟨_, rfl, rfl⟩
  | inline buf head tail len =>
    by_cases h0 : len = 0
    · have hnil : l = [] := List.length_eq_zero_iff.mp (h.1.symm.trans h0)
      subst hnil
      exact ⟨_, by rw [Queue.makeContiguous, if_pos h0], h⟩
    · by_cases hrow : head < tail ∨ (head = tail ∧ len = 0)
      · have hlt : head < tail := hrow.resolve_right fun hempty => h0 hempty.2
        refine ⟨_, by rw [Queue.makeContiguous, if_neg h0, if_pos hrow, h.slice_of_lt hlt]; rfl, h⟩
      · have hle := h.2.1
        have hlen := h.1
        have hN : 0 < N := by omega
        have hrefill : Slots.refill N (fun _ => none) 0 l = .ok (Ring.layout N 0 l) := by
          have := Slots.refill_layout (l := l) (N := N) [] (by simp; omega)
          simpa using this
        have hslice : Slots.slice N (Ring.layout N 0 l) 0 len = .ok l := by
          rw [hlen]
          refine Slots.slice_of (by omega) fun k hk => ?_
          have := Ring.layout_slot (l := l) hN (k := k) (by omega)
          rwa [Nat.mod_eq_of_lt (by omega)] at this
        refine ⟨.inline (Ring.layout N 0 l) 0 (if len = N then 0 else len) len, ?_, ?_⟩
        · rw [Queue.makeContiguous, if_neg h0, if_neg hrow, h.drain, Except.ok_bind]
          dsimp only
          rw [hrefill, Except.ok_bind, hslice]
          rfl
        · refine ⟨hlen, hle, .inl hN, ?_, rfl⟩
          rw [Nat.zero_add]
          split
          · rename_i hfull
            rw [hfull, Nat.mod_self]
          · rw [Nat.mod_eq_of_lt (by omega)]

/-- The elements of `l` that `keep` admits, where `keep i` judges the one at place `i`. -/
def kept (keep : Nat → T → Bool) (l : List T) (i : Nat) : List T :=
  ((l.zipIdx i).filter fun p => keep p.2 p.1).map Prod.fst

theorem kept_eq_filter (p : T → Bool) (l : List T) (i : Nat) :
    kept (fun _ v => p v) l i = l.filter p := by
  induction l generalizing i with
  | nil => rfl
  | cons v l ih =>
    have htail := ih (i + 1)
    unfold kept at htail ⊢
    cases hv : p v <;> simp [List.zipIdx_cons, hv, htail]

theorem Holds.retainLoop (h : q.Holds l) (keep : Nat → T → Bool) (i : Nat) (vs : List T) :
    ∃ q', q.retainLoop keep i vs = .ok (q', kept (fun i v => !keep i v) vs i) ∧
      q'.Holds (l ++ kept keep vs i) := by
  induction vs generalizing q l i with
  | nil => exact ⟨q, rfl, by simpa [kept] using h⟩
  | cons v vs ih =>
    cases hk : keep i v with
    | true =>
      obtain ⟨q₁, hq₁, h₁⟩ := h.pushBack v
      obtain ⟨q₂, hq₂, h₂⟩ := ih h₁ (i + 1)
      refine ⟨q₂, ?_, ?_⟩
      · rw [Queue.retainLoop, if_pos hk, hq₁, Except.ok_bind, hq₂]
        simp [kept, List.zipIdx_cons, hk]
      · simpa [kept, List.zipIdx_cons, hk] using h₂
    | false =>
      obtain ⟨q₁, hq₁, h₁⟩ := ih h (i + 1)
      refine ⟨q₁, ?_, ?_⟩
      · rw [Queue.retainLoop, if_neg (by simp [hk]), hq₁, Except.ok_bind]
        simp [kept, List.zipIdx_cons, hk, pure, Except.pure]
      · simpa [kept, List.zipIdx_cons, hk] using h₁

theorem Holds.retain (h : q.Holds l) (keep : Nat → T → Bool) :
    ∃ q', q.retain keep = .ok (q', kept (fun i v => !keep i v) l 0) ∧ q'.Holds (kept keep l 0) := by
  obtain ⟨q₁, hq₁, h₁⟩ := h.intoVec
  obtain ⟨q₂, hq₂, h₂⟩ := h₁.retainLoop keep 0 l
  refine ⟨q₂, ?_, h₂⟩
  rw [Queue.retain, hq₁, Except.ok_bind]
  exact hq₂

theorem Holds.takeWhere (h : q.Holds l) (remove : Nat → T → Bool) :
    ∃ q', q.takeWhere remove = .ok (q', kept remove l 0) ∧
      q'.Holds (kept (fun i v => !remove i v) l 0) := by
  obtain ⟨q₁, hq₁, h₁⟩ := h.intoVec
  obtain ⟨q₂, hq₂, h₂⟩ := h₁.retainLoop (fun i v => !remove i v) 0 l
  refine ⟨q₂, ?_, h₂⟩
  rw [Queue.takeWhere, hq₁, Except.ok_bind]
  simpa only [Bool.not_not] using hq₂

/-- The list after `swap(a, b)`, for indices in range. -/
def swapped (a b : Nat) (l : List T) : List T :=
  match l[a]?, l[b]? with
  | some va, some vb => (l.set a vb).set b va
  | _, _ => l

theorem Holds.swapItems (h : q.Holds l) {a b : Nat} (ha : a < l.length) (hb : b < l.length) :
    ∃ q', q.swapItems a b = .ok q' ∧ q'.Holds (swapped a b l) := by
  have hva : l[a]? = some l[a] := List.getElem?_eq_getElem ha
  have hvb : l[b]? = some l[b] := List.getElem?_eq_getElem hb
  have hswap : swapped a b l = (l.set a l[b]).set b l[a] := by
    simp only [swapped, hva, hvb]
  rw [hswap]
  cases q with
  | heap items =>
    cases h
    exact ⟨.heap ((l.set a l[b]).set b l[a]), by simp only [Queue.swapItems, hva, hvb], rfl⟩
  | inline buf head tail len =>
    have hle := h.2.1
    have hN : 0 < N := by
      have := h.1
      omega
    have hh := h.head_lt hN
    obtain ⟨rfl, -, -, rfl, rfl⟩ := h
    have hpa := Ring.layout_slot (l := l) hh (k := a) (by omega)
    have hpb := Ring.layout_slot (l := l) hh (k := b) (by omega)
    rw [hva] at hpa
    rw [hvb] at hpb
    refine ⟨.inline (Ring.layout N head ((l.set a l[b]).set b l[a])) head
      ((head + l.length) % N) l.length, ?_, by simp, hle, .inl hh, rfl, rfl⟩
    rw [Queue.swapItems, Slots.peek_of (Nat.mod_lt _ hN) hpa, Except.ok_bind,
      Slots.peek_of (Nat.mod_lt _ hN) hpb, Except.ok_bind, Slots.write_of (Nat.mod_lt _ hN),
      Except.ok_bind, Ring.layout_set hh ha hle, Slots.write_of (Nat.mod_lt _ hN), Except.ok_bind,
      Ring.layout_set hh (by simpa using hb) (by simpa using hle)]
    rfl

theorem Holds.swap (h : q.Holds l) (a b : Nat) :
    ∃ q', q.swap a b = .ok (q',
      if ¬ a < l.length then .panicked (boundsMessage a l.length)
      else if ¬ b < l.length then .panicked (boundsMessage b l.length) else .done) ∧
    q'.Holds (if a < l.length ∧ b < l.length then swapped a b l else l) := by
  rw [Queue.swap, h.len_eq]
  by_cases ha : a < l.length
  · by_cases hb : b < l.length
    · simp only [ha, hb, not_true_eq_false, if_false, and_self, if_true]
      by_cases hab : a = b
      · subst hab
        have hva : l[a]? = some l[a] := List.getElem?_eq_getElem ha
        have hsame : swapped a a l = l := by simp [swapped, hva]
        exact ⟨q, if_pos rfl, by rwa [hsame]⟩
      · obtain ⟨q', hq', h'⟩ := h.swapItems ha hb
        exact ⟨q', by rw [if_neg hab, hq']; rfl, h'⟩
    · simp only [ha, hb, not_true_eq_false, not_false_eq_true, if_false, and_false, if_true]
      exact ⟨q, rfl, h⟩
  · simp only [ha, not_false_eq_true, if_false, false_and, if_true]
    exact ⟨q, rfl, h⟩

section Iteration

variable {k : Nat} {c : Cursor T}

/-- The cursor of an iteration over `q` after `k` calls of `next`. -/
def At (l : List T) (k : Nat) (c : Cursor T) : Queue T N → Prop
  | .inline _ head _ _ => c = .inline ((head + min k l.length) % N) (l.length - k)
  | .heap _ => c = .heap (l.drop k)

/-- What the calls from the `k`-th on see: the exact size hint, and the next element if any. -/
def stepsFrom (l : List T) (k calls : Nat) : List ((Nat × Option Nat) × Option T) :=
  (List.range' k calls).map fun j => ((l.length - j, some (l.length - j)), l[j]?)

theorem Holds.at_cursor (h : q.Holds l) : q.At l 0 q.cursor := by
  cases q with
  | heap items =>
    cases h
    rfl
  | inline buf head tail len =>
    obtain ⟨rfl, -, hhead, -, -⟩ := h
    have hmod : head % N = head := by
      rcases hhead with hh | ⟨-, rfl⟩
      · exact Nat.mod_eq_of_lt hh
      · exact Nat.zero_mod N
    simp [At, Queue.cursor, hmod]

theorem Holds.sizeHint (h : q.Holds l) (hc : q.At l k c) :
    sizeHint c = (l.length - k, some (l.length - k)) := by
  cases q with
  | heap items =>
    cases h
    cases hc
    simp [Queue.sizeHint]
  | inline buf head tail len =>
    cases hc
    rfl

/-- One call of `next`. -/
theorem Holds.nextItem (h : q.Holds l) (hc : q.At l k c) :
    ∃ c', q.nextItem c = .ok (c', l[k]?) ∧ q.At l (k + 1) c' := by
  cases q with
  | heap items =>
    cases h
    cases hc
    refine ⟨.heap (l.drop k).tail, ?_, by simp [At, List.tail_drop]⟩
    simp [Queue.nextItem, List.head?_drop]
  | inline buf head tail len =>
    cases hc
    by_cases hk : k < l.length
    · have hN : 0 < N := by
        have := h.1
        have := h.2.1
        omega
      have hh := h.head_lt hN
      obtain ⟨rfl, hle, -, rfl, rfl⟩ := h
      have hv := Ring.layout_slot (l := l) hh (k := k) (by omega)
      rw [List.getElem?_eq_getElem hk] at hv
      have hmin : min k l.length = k := by omega
      refine ⟨.inline (Ring.next N ((head + k) % N)) (l.length - k - 1), ?_, ?_⟩
      · rw [hmin, Queue.nextItem, if_neg (by omega), Slots.peek_of (Nat.mod_lt _ hN) hv,
          Except.ok_bind, List.getElem?_eq_getElem hk]
        rfl
      · rw [Ring.next_slot hN]
        have hmin' : min (k + 1) l.length = k + 1 := by omega
        simp [At, hmin', Nat.sub_sub]
    · have hmin : min (k + 1) l.length = min k l.length := by omega
      refine ⟨_, by rw [Queue.nextItem, if_pos (by omega), List.getElem?_eq_none (by omega)], ?_⟩
      have hsub : l.length - k = l.length - (k + 1) := by omega
      rw [At, hmin, hsub]

theorem Holds.walk (h : q.Holds l) (hc : q.At l k c) (calls : Nat) :
    q.walk c calls = .ok (stepsFrom l k calls) := by
  induction calls generalizing k c with
  | zero => rfl
  | succ calls ih =>
    obtain ⟨c', hnext, hc'⟩ := h.nextItem hc
    rw [Queue.walk, hnext, Except.ok_bind]
    dsimp only
    rw [ih hc', Except.ok_bind, h.sizeHint hc]
    rfl

theorem Holds.iter (h : q.Holds l) (calls : Nat) : q.iter calls = .ok (stepsFrom l 0 calls) :=
  h.walk h.at_cursor calls

/-- The write through the reference that the `k`-th call returned. -/
theorem Holds.writeItem (h : q.Holds l) (hc : q.At l k c) (hk : k < l.length) (v : T) :
    ∃ q', q.writeItem k v c = .ok q' ∧ q'.Holds (l.set k v) ∧
      ∀ c', q.At l (k + 1) c' → q'.At (l.set k v) (k + 1) c' := by
  cases q with
  | heap items =>
    cases h
    cases hc
    refine ⟨.heap (l.set k v), by simp [Queue.writeItem, hk], rfl, fun c' hc' => ?_⟩
    cases hc'
    rw [At, List.drop_set_of_lt (by omega)]
  | inline buf head tail len =>
    cases hc
    have hN : 0 < N := by
      have := h.1
      have := h.2.1
      omega
    have hh := h.head_lt hN
    obtain ⟨rfl, hle, -, rfl, rfl⟩ := h
    have hmin : min k l.length = k := by omega
    refine ⟨.inline (Ring.layout N head (l.set k v)) head ((head + l.length) % N) l.length, ?_, ?_, ?_⟩
    · rw [hmin, Queue.writeItem, Slots.write_of (Nat.mod_lt _ hN), Except.ok_bind,
        Ring.layout_set hh hk hle]
      rfl
    · exact ⟨by simp, hle, .inl hh, rfl, rfl⟩
    · intro c' hc'
      simpa [At] using hc'

/-- The list after the `calls` calls of `iter_mut().next()` from the `k`-th on. -/
def overwritten (update : Nat → T → T) (k calls : Nat) (l : List T) : List T :=
  l.mapIdx fun j v => if k ≤ j ∧ j < k + calls then update j v else v

theorem stepsFrom_set (v : T) (calls : Nat) :
    stepsFrom (l.set k v) (k + 1) calls = stepsFrom l (k + 1) calls := by
  refine List.map_congr_left fun j hj => ?_
  have hjk : k ≠ j := by
    have := (List.mem_range'_1.mp hj).1
    omega
  rw [List.length_set, List.getElem?_set_ne hjk]

theorem overwritten_set {update : Nat → T → T} {v : T} {calls : Nat} (hv : l[k]? = some v) :
    overwritten update (k + 1) calls (l.set k (update k v)) =
      overwritten update k (calls + 1) l := by
  refine List.ext_getElem? fun j => ?_
  rw [overwritten, overwritten, List.getElem?_mapIdx, List.getElem?_mapIdx]
  by_cases hj : k = j
  · subst hj
    obtain ⟨hk, rfl⟩ := List.getElem?_eq_some_iff.mp hv
    simp [hk]
  · rw [List.getElem?_set_ne hj]
    have hiff : (k + 1 ≤ j ∧ j < k + 1 + calls) ↔ (k ≤ j ∧ j < k + (calls + 1)) := by omega
    simp only [hiff]

theorem overwritten_eq_self {update : Nat → T → T} {calls : Nat}
    (hout : ∀ j, j < l.length → ¬ (k ≤ j ∧ j < k + calls)) : overwritten update k calls l = l := by
  refine List.ext_getElem? fun j => ?_
  rw [overwritten, List.getElem?_mapIdx]
  by_cases hj : j < l.length
  · rw [List.getElem?_eq_getElem hj, Option.map_some, if_neg (hout j hj)]
  · rw [List.getElem?_eq_none (by omega), Option.map_none]

theorem Holds.walkMut (h : q.Holds l) (hc : q.At l k c) (update : Nat → T → T) (calls : Nat) :
    ∃ q', q.walkMut update c (min k l.length) calls = .ok (q', stepsFrom l k calls) ∧
      q'.Holds (overwritten update k calls l) := by
  -- Each call advances the cursor; a call that returns an element also changes the list there.
  induction calls generalizing q l k c with
  | zero =>
    exact ⟨q, rfl, by rwa [overwritten_eq_self (by omega)]⟩
  | succ calls ih =>
    obtain ⟨c', hnext, hc'⟩ := h.nextItem hc
    by_cases hk : k < l.length
    · have hv : l[k]? = some l[k] := List.getElem?_eq_getElem hk
      obtain ⟨q₁, hwrite, h₁, hat⟩ := h.writeItem hc hk (update k l[k])
      obtain ⟨q₂, hwalk, h₂⟩ := ih h₁ (hat c' hc')
      have hmin : min (k + 1) (l.set k (update k l[k])).length = min k l.length + 1 := by
        rw [List.length_set]
        omega
      have hmin' : min k l.length = k := by omega
      rw [hmin, hmin', stepsFrom_set] at hwalk
      refine ⟨q₂, ?_, by rwa [overwritten_set hv] at h₂⟩
      rw [Queue.walkMut, hnext, Except.ok_bind, hv, hmin']
      dsimp only
      rw [hwrite, Except.ok_bind, hwalk, Except.ok_bind, h.sizeHint hc, ← hv]
      rfl
    · have hv : l[k]? = none := List.getElem?_eq_none (by omega)
      obtain ⟨q₁, hwalk, h₁⟩ := ih h hc'
      have hmin : min (k + 1) l.length = min k l.length := by omega
      rw [hmin] at hwalk
      rw [overwritten_eq_self (by omega)] at h₁
      refine ⟨q₁, ?_, by rwa [overwritten_eq_self (by omega)]⟩
      rw [Queue.walkMut, hnext, Except.ok_bind, hv]
      dsimp only
      rw [hwalk, Except.ok_bind, h.sizeHint hc, ← hv]
      rfl

theorem Holds.iterMut (h : q.Holds l) (update : Nat → T → T) (calls : Nat) :
    ∃ q', q.iterMut update calls = .ok (q', stepsFrom l 0 calls) ∧
      q'.Holds (overwritten update 0 calls l) := by
  have := h.walkMut h.at_cursor update calls
  rwa [Nat.zero_min] at this

theorem filterMap_stepsFrom (l : List T) (calls : Nat) :
    (stepsFrom l 0 calls).filterMap Prod.snd = l.take calls := by
  rw [stepsFrom, List.filterMap_map, ← List.range_eq_range']
  induction calls with
  | zero => rfl
  | succ calls ih =>
    rw [List.range_succ, List.filterMap_append, ih, List.take_add_one]
    cases hv : l[calls]? <;> simp [hv]

theorem Holds.listItems (h : q.Holds l) : q.listItems = .ok l := by
  rw [Queue.listItems, h.iter, h.len_eq, Except.ok_bind, filterMap_stepsFrom,
    List.take_of_length_le (Nat.le_succ _)]
  rfl

theorem Holds.clone (h : q.Holds l) (copy : T → T) :
    ∃ q', q.clone copy = .ok q' ∧ q'.Holds (l.map copy) := by
  obtain ⟨q', hq', h'⟩ := holds_ofList (N := N) (l.map copy)
  exact ⟨q', by rw [Queue.clone, h.listItems, Except.ok_bind, hq'], h'⟩

theorem Holds.eq [BEq T] {r : Queue T N} {m : List T} (h : q.Holds l) (hr : r.Holds m) :
    q.eq r = .ok (l == m) := by
  have hbeq : ∀ xs ys : List T,
      (xs == ys) = (decide (xs.length = ys.length) && (xs.zip ys).all fun p => p.1 == p.2) := by
    intro xs
    induction xs with
    | nil => intro ys; cases ys <;> simp
    | cons x xs ih =>
      intro ys
      cases ys with
      | nil => simp
      | cons y ys =>
        rw [List.cons_beq_cons, ih ys, List.zip_cons_cons, List.all_cons, List.length_cons,
          List.length_cons]
        cases x == y <;> simp
  rw [Queue.eq, h.len_eq, hr.len_eq, hbeq]
  by_cases hlen : l.length = m.length
  · rw [if_neg (not_not_intro hlen), h.listItems, Except.ok_bind, hr.listItems, Except.ok_bind]
    simp [hlen, pure, Except.pure]
  · rw [if_pos hlen]
    simp [hlen]

end Iteration

end Queue

end Cynosure.SiteC
