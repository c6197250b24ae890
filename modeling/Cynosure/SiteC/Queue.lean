import Mathlib.Algebra.Group.Nat.Defs
import Mathlib.Logic.Function.Basic
import Cynosure.Lib.Ring

/-! # `Queue<T, N>`: an inline ring that spills to the heap

A slot of the inline array is `some` when it is initialised. Moving an element out
leaves the slot uninitialised, writing one forgets what the slot held, as for
`MaybeUninit`; an index outside the array and the use of an uninitialised slot are
faults. The heap representation is a `VecDeque`, taken to be a list.
-/

namespace Cynosure.SiteC

/-- What the code must never do: index past the array, or use a slot that holds nothing. -/
inductive Fault where
  | outOfBounds
  | uninitialised
  deriving DecidableEq, Repr

/-- The slots of `[MaybeUninit<T>; N]`. -/
abbrev Slots (T : Type) := Nat → Option T

namespace Slots

variable {T : Type} (N : Nat)

/-- `assume_init_ref`. -/
def peek (buf : Slots T) (i : Nat) : Except Fault T :=
  if i < N then
    match buf i with
    | some v => .ok v
    | none => .error .uninitialised
  else .error .outOfBounds

/-- `assume_init_read` and `assume_init_drop`: the element leaves the slot. -/
def read (buf : Slots T) (i : Nat) : Except Fault (T × Slots T) := do
  let v ← buf.peek N i
  return (v, Function.update buf i none)

/-- `buf[i] = MaybeUninit::new(v)`. -/
def write (buf : Slots T) (i : Nat) (v : T) : Except Fault (Slots T) :=
  if i < N then .ok (Function.update buf i (some v)) else .error .outOfBounds

/-- The loop that moves `count` elements out, from the slot `idx` on. -/
def drain (buf : Slots T) (idx : Nat) : Nat → Except Fault (List T × Slots T)
  | 0 => .ok ([], buf)
  | count + 1 => do
    let (v, buf) ← buf.read N idx
    let (vs, buf) ← drain buf (Ring.next N idx) count
    return (v :: vs, buf)

/-- `from_raw_parts_mut(ptr.add(start), count)`: the slots in a row, without a wrap. -/
def slice (buf : Slots T) (start : Nat) : Nat → Except Fault (List T)
  | 0 => .ok []
  | count + 1 => do
    let v ← buf.peek N start
    let vs ← slice buf (start + 1) count
    return v :: vs

/-- `for (i, val) in temp.into_iter().enumerate() { buf[i] = MaybeUninit::new(val) }`, from `i` on. -/
def refill (buf : Slots T) (i : Nat) : List T → Except Fault (Slots T)
  | [] => .ok buf
  | v :: vs => do
    let buf ← buf.write N i v
    refill buf (i + 1) vs

end Slots

inductive Queue (T : Type) (N : Nat) where
  | inline (buf : Slots T) (head tail len : Nat)
  | heap (items : List T)

/-- What a call hands back, by reference or by value. -/
inductive Out (T : Type) where
  | done
  | item (v : Option T)
  | items (vs : List T)
  | count (n : Nat)
  | bool (b : Bool)
  /-- The calls of `next` on an iterator, each with the `size_hint` before it. -/
  | walk (steps : List ((Nat × Option Nat) × Option T))
  | panicked (msg : String)
  /-- The operation named a queue that is not there. -/
  | absent
  deriving DecidableEq, Repr

/-- `Iter` and `IterMut`: the cursor of an iteration. -/
inductive Cursor (T : Type) where
  | inline (head remaining : Nat)
  | heap (items : List T)

namespace Queue

variable {T : Type} {N : Nat}

def new : Queue T N := .inline (fun _ => none) 0 0 0

def withCapacity (capacity : Nat) : Queue T N := if capacity ≤ N then new else .heap []

def len : Queue T N → Nat
  | .inline _ _ _ len => len
  | .heap items => items.length

def isEmpty (q : Queue T N) : Bool := q.len == 0

def pushBack (v : T) : Queue T N → Except Fault (Queue T N)
  | .inline buf head tail len =>
    if len < N then do
      let buf ← buf.write N tail v
      return .inline buf head (Ring.next N tail) (len + 1)
    else do
      let (items, _) ← buf.drain N head len
      return .heap (items ++ [v])
  | .heap items => .ok (.heap (items ++ [v]))

/-- `tail` is not touched: the ring grows at its head. -/
def pushFront (v : T) : Queue T N → Except Fault (Queue T N)
  | .inline buf head tail len =>
    if len < N then do
      let buf ← buf.write N (Ring.prev N head) v
      return .inline buf (Ring.prev N head) tail (len + 1)
    else do
      let (items, _) ← buf.drain N head len
      return .heap ([v] ++ items)
  | .heap items => .ok (.heap (v :: items))

def popFront : Queue T N → Except Fault (Queue T N × Option T)
  | .inline buf head tail len =>
    if len = 0 then .ok (.inline buf head tail len, none)
    else do
      let (v, buf) ← buf.read N head
      return (.inline buf (Ring.next N head) tail (len - 1), some v)
  | .heap items => .ok (.heap items.tail, items.head?)

def popBack : Queue T N → Except Fault (Queue T N × Option T)
  | .inline buf head tail len =>
    if len = 0 then .ok (.inline buf head tail len, none)
    else do
      let (v, buf) ← buf.read N (Ring.prev N tail)
      return (.inline buf head (Ring.prev N tail) (len - 1), some v)
  | .heap items => .ok (.heap items.dropLast, items.getLast?)

/-- Empties the queue into a list. -/
def intoVec : Queue T N → Except Fault (Queue T N × List T)
  | .inline buf head _ len => do
    let (items, buf) ← buf.drain N head len
    return (.inline buf 0 0 0, items)
  | .heap items => .ok (.heap [], items)

/-- The elements that `Drop` drops. -/
def dropItems : Queue T N → Except Fault (List T)
  | .inline buf head _ len => do
    let (items, _) ← buf.drain N head len
    return items
  | .heap items => .ok items

/-- `clear`, with the elements that it drops. -/
def clear : Queue T N → Except Fault (Queue T N × List T)
  | .inline buf head _ len => do
    let (items, buf) ← buf.drain N head len
    return (.inline buf 0 0 0, items)
  | .heap items => .ok (.heap [], items)

/-- `Extend`, and through it `From` and `FromIterator`. -/
def extend (q : Queue T N) : List T → Except Fault (Queue T N)
  | [] => .ok q
  | v :: vs => do
    let q ← q.pushBack v
    q.extend vs

def ofList (items : List T) : Except Fault (Queue T N) := (new : Queue T N).extend items

/-- The required capacity wraps, as a `usize` does without overflow checks. -/
def reserve (additional : Nat) (q : Queue T N) : Except Fault (Queue T N) :=
  match q with
  | .inline buf head _ len =>
    if (q.len + additional) % 2 ^ 64 > N then do
      let (items, _) ← buf.drain N head len
      return .heap items
    else .ok q
  | .heap _ => .ok q

def makeContiguous : Queue T N → Except Fault (Queue T N × List T)
  | .inline buf head tail len =>
    if len = 0 then .ok (.inline buf head tail len, [])
    else if head < tail ∨ (head = tail ∧ len = 0) then do
      let items ← buf.slice N head len
      return (.inline buf head tail len, items)
    else do
      let (temp, buf) ← buf.drain N head len
      let buf ← buf.refill N 0 temp
      let items ← buf.slice N 0 len
      return (.inline buf 0 (if len = N then 0 else len) len, items)
  | .heap items => .ok (.heap items, items)

/-- The loop of `retain`: `keep` answers its `i`-th call. -/
def retainLoop (keep : Nat → T → Bool) (q : Queue T N) (i : Nat) :
    List T → Except Fault (Queue T N × List T)
  | [] => .ok (q, [])
  | v :: vs =>
    if keep i v then do
      let q ← q.pushBack v
      q.retainLoop keep (i + 1) vs
    else do
      let (q, dropped) ← q.retainLoop keep (i + 1) vs
      return (q, v :: dropped)

def retain (keep : Nat → T → Bool) (q : Queue T N) : Except Fault (Queue T N × List T) := do
  let (q, items) ← q.intoVec
  q.retainLoop keep 0 items

/-- `take_where` is the loop of `retain` with the answers reversed, and hands out what
`retain` drops. -/
def takeWhere (remove : Nat → T → Bool) (q : Queue T N) : Except Fault (Queue T N × List T) := do
  let (q, items) ← q.intoVec
  q.retainLoop (fun i v => !remove i v) 0 items

/-- `swap`, for indices that passed the assertions. -/
def swapItems (a b : Nat) : Queue T N → Except Fault (Queue T N)
  | .inline buf head tail len => do
    let va ← buf.peek N ((head + a) % N)
    let vb ← buf.peek N ((head + b) % N)
    let buf ← buf.write N ((head + a) % N) vb
    let buf ← buf.write N ((head + b) % N) va
    return .inline buf head tail len
  | .heap items =>
    match items[a]?, items[b]? with
    | some va, some vb => .ok (.heap ((items.set a vb).set b va))
    | _, _ => .error .outOfBounds

def boundsMessage (i len : Nat) : String :=
  "index " ++ toString i ++ " out of bounds (len: " ++ toString len ++ ")"

def swap (a b : Nat) (q : Queue T N) : Except Fault (Queue T N × Out T) :=
  if ¬ a < q.len then .ok (q, .panicked (boundsMessage a q.len))
  else if ¬ b < q.len then .ok (q, .panicked (boundsMessage b q.len))
  else if a = b then .ok (q, .done)
  else do
    let q ← q.swapItems a b
    return (q, .done)

def cursor : Queue T N → Cursor T
  | .inline _ head _ len => .inline head len
  | .heap items => .heap items

def sizeHint : Cursor T → Nat × Option Nat
  | .inline _ remaining => (remaining, some remaining)
  | .heap items => (items.length, some items.length)

/-- `next` of `Iter` and `IterMut` on the slots of the queue. -/
def nextItem (q : Queue T N) : Cursor T → Except Fault (Cursor T × Option T)
  | .inline head remaining =>
    if remaining = 0 then .ok (.inline head remaining, none)
    else
      match q with
      | .inline buf _ _ _ => do
        let v ← buf.peek N head
        return (.inline (Ring.next N head) (remaining - 1), some v)
      | .heap _ => .error .uninitialised
  | .heap items => .ok (.heap items.tail, items.head?)

/-- `calls` calls of `next` on `iter()`, each with the hint before it. -/
def walk (q : Queue T N) (c : Cursor T) :
    Nat → Except Fault (List ((Nat × Option Nat) × Option T))
  | 0 => .ok []
  | calls + 1 => do
    let (c', v) ← q.nextItem c
    let rest ← q.walk c' calls
    return (sizeHint c, v) :: rest

def iter (calls : Nat) (q : Queue T N) : Except Fault (List ((Nat × Option Nat) × Option T)) :=
  q.walk q.cursor calls

/-- The write through the reference that `next` of `iter_mut()` returned, for the `i`-th element. -/
def writeItem (q : Queue T N) (i : Nat) (v : T) : Cursor T → Except Fault (Queue T N)
  | .inline at_ _ =>
    match q with
    | .inline buf head tail len => do
      let buf ← buf.write N at_ v
      return .inline buf head tail len
    | .heap _ => .error .uninitialised
  | .heap _ =>
    match q with
    | .inline .. => .error .uninitialised
    | .heap items => if i < items.length then .ok (.heap (items.set i v)) else .error .outOfBounds

/-- `calls` calls of `next` on `iter_mut()`; the caller stores `update i v` over the `i`-th
element `v`. Returns what it saw, and the values stored. -/
def walkMut (update : Nat → T → T) (q : Queue T N) (c : Cursor T) (i : Nat) :
    Nat → Except Fault (Queue T N × List ((Nat × Option Nat) × Option T))
  | 0 => .ok (q, [])
  | calls + 1 => do
    let (c', v) ← q.nextItem c
    match v with
    | none =>
      let (q, rest) ← q.walkMut update c' i calls
      return (q, (sizeHint c, none) :: rest)
    | some v =>
      let q ← q.writeItem i (update i v) c
      let (q, rest) ← q.walkMut update c' (i + 1) calls
      return (q, (sizeHint c, some v) :: rest)

def iterMut (update : Nat → T → T) (calls : Nat) (q : Queue T N) :
    Except Fault (Queue T N × List ((Nat × Option Nat) × Option T)) :=
  q.walkMut update q.cursor 0 calls

/-- The elements of a `for` loop over `iter()`, which ends with the first `None`. -/
def listItems (q : Queue T N) : Except Fault (List T) := do
  let steps ← q.iter (q.len + 1)
  return steps.filterMap Prod.snd

/-- `Clone`, where `copy` is the clone of an element. -/
def clone (copy : T → T) (q : Queue T N) : Except Fault (Queue T N) := do
  let items ← q.listItems
  ofList (items.map copy)

/-- `PartialEq`. -/
def eq [BEq T] (q r : Queue T N) : Except Fault Bool :=
  if q.len ≠ r.len then .ok false
  else do
    let xs ← q.listItems
    let ys ← r.listItems
    return (xs.zip ys).all fun p => p.1 == p.2

end Queue

end Cynosure.SiteC
