import Cynosure.Lib.Threads
import Cynosure.Lib.Word
import Cynosure.SiteD.SlotProg

/-! # The ring buffer

Producer and consumer are the two threads of the system. Their calls are programs
whose actions are the loads and stores of the shared indices, the accesses to
single slots, and the steps of the two wait slots; indices are words of `w` bits.
A slot of the buffer is `none` until it is first written, and reading it leaves it
as it is. The fields below the handles record what happened and are read by no
program.
-/

namespace Cynosure.SiteD

open Prog

/-- What `RingBuf::new` asserts of the capacity. -/
structure RingBuf (w : Nat) where
  capacity : BitVec w
  isPowerOfTwo : ∃ k, capacity.toNat = 2 ^ k

def RingBuf.mask {w : Nat} (r : RingBuf w) : BitVec w := r.capacity - 1

structure RingHandle (w : Nat) where
  cachedRead : BitVec w
  cachedWrite : BitVec w
  deriving DecidableEq, Repr

/-- The futures of `push` and `push_slice_counted`: not yet polled, or pending inside
`PushFuture` and `PushSliceFuture`. -/
inductive PushFuture (T : Type) where
  | push (value : T)
  | pushing (value : T)
  | pushSlice (items : List T)
  | slicing (items : List T) (pushedSoFar : Nat)

/-- The slice that `pop_slice_counted` fills is `items`. -/
inductive PopFuture (T : Type) where
  | pop
  | popping
  | popSlice (items : List (Option T))
  | slicing (items : List (Option T)) (poppedSoFar : Nat)

inductive RingOut (T : Type) where
  | done
  | rejected (value : T)
  | item (value : Option (Option T))
  | slice (items : List (Option T)) (count : Nat)
  | count (n : Nat)
  | answer (b : Bool)
  | pending

structure RingState (w : Nat) (T W : Type) where
  buffer : Nat → Option T
  writeIndex : BitVec w
  readIndex : BitVec w
  producerSlot : SlotUse W Unit
  consumerSlot : SlotUse W Unit
  producer : RingHandle w
  consumer : RingHandle w
  producerAlive : Bool
  consumerAlive : Bool
  pushFuture : Option (PushFuture T)
  popFuture : Option (PopFuture T)
  /-- the caller's `pushed` and `popped` counters -/
  pushed : Nat
  popped : Nat
  producerOut : Option (RingOut T)
  consumerOut : Option (RingOut T)
  accepted : List T
  taken : List (Option T)
  clobbered : Bool
  misread : Bool
  dropped : Option (List (Option T))

namespace RingState

variable {w : Nat} {T W : Type}

def init : RingState w T W where
  buffer := fun _ => none
  writeIndex := 0
  readIndex := 0
  producerSlot := .new
  consumerSlot := .new
  producer := ⟨0, 0⟩
  consumer := ⟨0, 0⟩
  producerAlive := true
  consumerAlive := true
  pushFuture := none
  popFuture := none
  pushed := 0
  popped := 0
  producerOut := none
  consumerOut := none
  accepted := []
  taken := []
  clobbered := false
  misread := false
  dropped := none

/-- The slots from `read_index` to `write_index`, in that order. -/
def live (r : RingBuf w) (s : RingState w T W) : List Nat :=
  (List.range (s.writeIndex - s.readIndex).toNat).map
    fun i => ((s.readIndex + BitVec.ofNat w i) &&& r.mask).toNat

def stored (r : RingBuf w) (s : RingState w T W) : List (Option T) := (s.live r).map s.buffer

def writeSlot (r : RingBuf w) (i : Nat) (value : T) (s : RingState w T W) : RingState w T W :=
  { s with
    buffer := Function.update s.buffer i (some value)
    clobbered := s.clobbered || decide (i ∈ s.live r) }

def readSlot (r : RingBuf w) (i : Nat) (s : RingState w T W) : RingState w T W :=
  { s with misread := s.misread || decide (i ∉ s.live r) }

def publishWrite (items : List T) (s : RingState w T W) : RingState w T W :=
  { s with
    writeIndex := s.producer.cachedWrite
    consumerSlot := s.consumerSlot.beginSignal ()
    accepted := s.accepted ++ items }

def publishRead (items : List (Option T)) (signal : Bool) (s : RingState w T W) :
    RingState w T W :=
  { s with
    readIndex := s.consumer.cachedRead
    producerSlot := if signal then s.producerSlot.beginSignal () else s.producerSlot
    taken := s.taken ++ items }

/-- The loop of `RingBufferShared::drop`. -/
def dropLoop (r : RingBuf w) (buffer : Nat → Option T) (write current : BitVec w) :
    List (Option T) :=
  if current = write then []
  else buffer (current &&& r.mask).toNat :: dropLoop r buffer write (current + 1)
termination_by (write - current).toNat
decreasing_by
  rename_i h
  have hne : write - current ≠ 0 := fun h0 => h (sub_eq_zero.mp h0).symm
  have hpos : 0 < (write - current).toNat :=
    Nat.pos_of_ne_zero fun h0 => hne (BitVec.eq_of_toNat_eq (by simpa using h0))
  rw [show write - (current + 1) = write - current - 1 by ring, Word.toNat_sub_one hne]
  omega

end RingState

section Programs

variable {w : Nat} {T W : Type} [Waker W] (r : RingBuf w)

def signalConsumer : Prog (RingState w T W) PUnit :=
  (SlotUse.signal ()).zoom (·.consumerSlot) fun s x => { s with consumerSlot := x }

def signalProducer : Prog (RingState w T W) PUnit :=
  (SlotUse.signal ()).zoom (·.producerSlot) fun s x => { s with producerSlot := x }

def whenSignal (signal : Bool) : Prog (RingState w T W) PUnit :=
  if signal then signalProducer else pure ⟨⟩

def armProducer (waker : W) : Prog (RingState w T W) PUnit :=
  (SlotUse.arm waker).zoom (·.producerSlot) fun s x => { s with producerSlot := x }

def armConsumer (waker : W) : Prog (RingState w T W) PUnit :=
  (SlotUse.arm waker).zoom (·.consumerSlot) fun s x => { s with consumerSlot := x }

/-- `self.cached_read = read_index.load()` -/
def loadReadIndex : Prog (RingState w T W) (BitVec w) :=
  exchange (·.readIndex) fun s => { s with producer := { s.producer with cachedRead := s.readIndex } }

/-- `self.cached_write = write_index.load()` -/
def loadWriteIndex : Prog (RingState w T W) (BitVec w) :=
  exchange (·.writeIndex) fun s =>
    { s with consumer := { s.consumer with cachedWrite := s.writeIndex } }

def setCachedWrite (index : BitVec w) : Prog (RingState w T W) PUnit :=
  store fun s => { s with producer := { s.producer with cachedWrite := index } }

def setCachedRead (index : BitVec w) : Prog (RingState w T W) PUnit :=
  store fun s => { s with consumer := { s.consumer with cachedRead := index } }

def copyIn : Nat → List T → Prog (RingState w T W) PUnit
  | _, [] => pure ⟨⟩
  | i, x :: xs => do
    store (RingState.writeSlot r i x)
    copyIn (i + 1) xs

def readSlot (i : Nat) : Prog (RingState w T W) (Option T) :=
  exchange (·.buffer i) (RingState.readSlot r i)

def copyOut : Nat → Nat → Prog (RingState w T W) (List (Option T))
  | _, 0 => pure []
  | i, n + 1 => do
    let x ← readSlot r i
    let xs ← copyOut (i + 1) n
    pure (x :: xs)

/-- The producer's test for a full buffer, with one look at the shared index. -/
def appearsFull (p : RingHandle w) : Prog (RingState w T W) Bool :=
  if r.capacity ≤ p.cachedWrite - p.cachedRead then do
    let read ← loadReadIndex
    pure (decide (r.capacity ≤ p.cachedWrite - read))
  else pure false

def tryPush (value : T) : Prog (RingState w T W) (Except T Unit) := do
  let p ← load (·.producer)
  let full ← appearsFull r p
  if full then pure (.error value)
  else do
    store (RingState.writeSlot r (p.cachedWrite &&& r.mask).toNat value)
    setCachedWrite (p.cachedWrite + 1)
    store (RingState.publishWrite [value])
    signalConsumer
    pure (.ok ())

def availableSpace (p : RingHandle w) : Prog (RingState w T W) Nat :=
  if r.capacity.toNat - (p.cachedWrite - p.cachedRead).toNat = 0 then do
    let read ← loadReadIndex
    pure (r.capacity.toNat - (p.cachedWrite - read).toNat)
  else pure (r.capacity.toNat - (p.cachedWrite - p.cachedRead).toNat)

/-- The two bulk copies of `try_push_slice`: up to the end of the buffer, and the rest. -/
def copyItemsIn (writeIdx : Nat) (items : List T) : Prog (RingState w T W) PUnit := do
  copyIn r writeIdx (items.take (min (r.capacity.toNat - writeIdx) items.length))
  if min (r.capacity.toNat - writeIdx) items.length < items.length then
    copyIn r 0 (items.drop (min (r.capacity.toNat - writeIdx) items.length))
  else pure ⟨⟩

def pushItems (write : BitVec w) (items : List T) : Prog (RingState w T W) Nat := do
  copyItemsIn r (write &&& r.mask).toNat items
  setCachedWrite (write + BitVec.ofNat w items.length)
  store (RingState.publishWrite items)
  signalConsumer
  pure items.length

def tryPushSlice (items : List T) : Prog (RingState w T W) Nat :=
  if items.isEmpty then pure 0
  else do
    let p ← load (·.producer)
    let available ← availableSpace r p
    if available = 0 then pure 0
    else pushItems r p.cachedWrite (items.take (min items.length available))

def freeCount : Prog (RingState w T W) (BitVec w) := do
  let read ← loadReadIndex
  let p ← load (·.producer)
  pure (r.capacity - (p.cachedWrite - read))

def appearsEmpty (c : RingHandle w) : Prog (RingState w T W) Bool :=
  if c.cachedRead = c.cachedWrite then do
    let write ← loadWriteIndex
    pure (decide (c.cachedRead = write))
  else pure false

def tryPopInner (signal : Bool) : Prog (RingState w T W) (Option (Option T)) := do
  let c ← load (·.consumer)
  let empty ← appearsEmpty c
  if empty then pure none
  else do
    let value ← readSlot r (c.cachedRead &&& r.mask).toNat
    setCachedRead (c.cachedRead + 1)
    store (RingState.publishRead [value] signal)
    whenSignal signal
    pure (some value)

def tryPop : Prog (RingState w T W) (Option (Option T)) := tryPopInner r true

def availableItems (c : RingHandle w) : Prog (RingState w T W) Nat :=
  if (c.cachedWrite - c.cachedRead).toNat = 0 then do
    let write ← loadWriteIndex
    pure (write - c.cachedRead).toNat
  else pure (c.cachedWrite - c.cachedRead).toNat

/-- The two bulk copies of `try_pop_slice`. -/
def copyItemsOut (readIdx toPop : Nat) : Prog (RingState w T W) (List (Option T)) := do
  let first ← copyOut r readIdx (min (r.capacity.toNat - readIdx) toPop)
  if min (r.capacity.toNat - readIdx) toPop < toPop then do
    let second ← copyOut r 0 (toPop - min (r.capacity.toNat - readIdx) toPop)
    pure (first ++ second)
  else pure first

def popItems (read : BitVec w) (toPop : Nat) : Prog (RingState w T W) (List (Option T)) := do
  let items ← copyItemsOut r (read &&& r.mask).toNat toPop
  setCachedRead (read + BitVec.ofNat w toPop)
  store (RingState.publishRead items true)
  signalProducer
  pure items

/-- The count, and the slice `items` after the call. -/
def tryPopSlice (items : List (Option T)) : Prog (RingState w T W) (Nat × List (Option T)) :=
  if items.isEmpty then pure (0, items)
  else do
    let c ← load (·.consumer)
    let available ← availableItems c
    if available = 0 then pure (0, items)
    else do
      let front ← popItems r c.cachedRead (min items.length available)
      pure (min items.length available, front ++ items.drop (min items.length available))

def availableCount : Prog (RingState w T W) (BitVec w) := do
  let write ← loadWriteIndex
  let c ← load (·.consumer)
  pure (write - c.cachedRead)

def producerReturns (out : RingOut T) : Prog (RingState w T W) PUnit :=
  store fun s => { s with producerOut := some out }

def consumerReturns (out : RingOut T) : Prog (RingState w T W) PUnit :=
  store fun s => { s with consumerOut := some out }

/-- The producer's future is complete. -/
def pushReady : Prog (RingState w T W) PUnit :=
  store fun s => { s with pushFuture := none, producerOut := some .done }

def pushPending (future : PushFuture T) : Prog (RingState w T W) PUnit :=
  store fun s => { s with pushFuture := some future, producerOut := some .pending }

def popReady (out : RingOut T) : Prog (RingState w T W) PUnit :=
  store fun s => { s with popFuture := none, consumerOut := some out }

def popPending (future : PopFuture T) : Prog (RingState w T W) PUnit :=
  store fun s => { s with popFuture := some future, consumerOut := some .pending }

def disarmProducer : Prog (RingState w T W) PUnit :=
  store fun s => { s with producerSlot := s.producerSlot.disarm }

def disarmConsumer : Prog (RingState w T W) PUnit :=
  store fun s => { s with consumerSlot := s.consumerSlot.disarm }

/-- `PushFuture::poll` -/
def pollPushFuture (waker : W) (value : T) : Prog (RingState w T W) PUnit := do
  match ← tryPush r value with
  | .ok _ => pushReady
  | .error value => do
    armProducer waker
    match ← tryPush r value with
    | .ok _ => do
      disarmProducer
      pushReady
    | .error value => pushPending (.pushing value)

def setPushed (n : Nat) : Prog (RingState w T W) PUnit := store fun s => { s with pushed := n }

def setPopped (n : Nat) : Prog (RingState w T W) PUnit := store fun s => { s with popped := n }

/-- `PushSliceFuture::poll` -/
def pollPushSliceFuture (waker : W) (items : List T) (pushedSoFar : Nat) :
    Prog (RingState w T W) PUnit := do
  let pushed ← tryPushSlice r (items.drop pushedSoFar)
  if 0 < pushed ∧ pushedSoFar + pushed = items.length then pushReady
  else do
    setPushed (pushedSoFar + pushed)
    armProducer waker
    let again ← tryPushSlice r (items.drop (pushedSoFar + pushed))
    if 0 < again ∧ pushedSoFar + pushed + again = items.length then do
      disarmProducer
      pushReady
    else do
      setPushed (pushedSoFar + pushed + again)
      pushPending (.slicing items (pushedSoFar + pushed + again))

def pollPush (waker : W) : PushFuture T → Prog (RingState w T W) PUnit
  | .push value => do
    match ← tryPush r value with
    | .ok _ => pushReady
    | .error value => pollPushFuture r waker value
  | .pushing value => pollPushFuture r waker value
  | .pushSlice items =>
    if items.isEmpty then do
      setPushed 0
      pushReady
    else do
      let n ← tryPushSlice r items
      setPushed n
      if n = items.length then pushReady else pollPushSliceFuture r waker items n
  | .slicing items pushedSoFar => pollPushSliceFuture r waker items pushedSoFar

/-- `PopFuture::poll` -/
def pollPopFuture (waker : W) : Prog (RingState w T W) PUnit := do
  match ← tryPop r with
  | some value => popReady (.item (some value))
  | none => do
    armConsumer waker
    match ← tryPop r with
    | some value => do
      disarmConsumer
      popReady (.item (some value))
    | none => popPending .popping

/-- `PopSliceFuture::poll` -/
def pollPopSliceFuture (waker : W) (items : List (Option T)) (poppedSoFar : Nat) :
    Prog (RingState w T W) PUnit := do
  let (popped, rest) ← tryPopSlice r (items.drop poppedSoFar)
  let filled := items.take poppedSoFar ++ rest
  if 0 < popped ∧ poppedSoFar + popped = items.length then
    popReady (.slice filled (poppedSoFar + popped))
  else do
    setPopped (poppedSoFar + popped)
    armConsumer waker
    let (again, rest) ← tryPopSlice r (filled.drop (poppedSoFar + popped))
    let full := filled.take (poppedSoFar + popped) ++ rest
    if 0 < again ∧ poppedSoFar + popped + again = items.length then do
      disarmConsumer
      popReady (.slice full (poppedSoFar + popped + again))
    else do
      setPopped (poppedSoFar + popped + again)
      popPending (.slicing full (poppedSoFar + popped + again))

def pollPop (waker : W) : PopFuture T → Prog (RingState w T W) PUnit
  | .pop => do
    match ← tryPop r with
    | some value => popReady (.item (some value))
    | none => pollPopFuture r waker
  | .popping => pollPopFuture r waker
  | .popSlice items =>
    if items.isEmpty then do
      setPopped 0
      popReady (.slice items 0)
    else do
      let (n, filled) ← tryPopSlice r items
      setPopped n
      if n = items.length then popReady (.slice filled n)
      else pollPopSliceFuture r waker filled n
  | .slicing items poppedSoFar => pollPopSliceFuture r waker items poppedSoFar

end Programs

inductive RingSide where
  | producer
  | consumer
  deriving DecidableEq, Repr

inductive RingOp (T W : Type) where
  | tryPush (value : T)
  | tryPushSlice (items : List T)
  | freeCount
  | producerIsEmpty
  | producerIsFull
  | push (value : T)
  | pushSlice (items : List T)
  | pollPush (waker : W)
  | cancelPush
  | dropProducer
  | tryPop
  | tryPopSlice (items : List T)
  | availableCount
  | consumerIsEmpty
  | consumerIsFull
  | pop
  | popSlice (items : List T)
  | pollPop (waker : W)
  | cancelPop
  | dropConsumer

section Calls

variable {w : Nat} {T W : Type} [Waker W] (r : RingBuf w)

/-- The calls of an idle, unborrowed `Producer`. -/
def producerCall (s : RingState w T W) :
    RingOp T W → Option (RingState w T W × Prog (RingState w T W) PUnit)
  | .tryPush value => some (s, do
      match ← tryPush r value with
      | .ok _ => producerReturns .done
      | .error value => producerReturns (.rejected value))
  | .tryPushSlice items => some (s, do
      let n ← tryPushSlice r items
      producerReturns (.count n))
  | .freeCount => some (s, do
      let n ← freeCount r
      producerReturns (.count n.toNat))
  | .producerIsEmpty => some (s, do
      let read ← loadReadIndex
      let p ← load (·.producer)
      producerReturns (.answer (decide (p.cachedWrite = read))))
  | .producerIsFull => some (s, do
      let n ← freeCount r
      producerReturns (.answer (decide (n = 0))))
  | .push value => some ({ s with pushFuture := some (.push value) }, pure ⟨⟩)
  | .pushSlice items => some ({ s with pushFuture := some (.pushSlice items) }, pure ⟨⟩)
  | .dropProducer => some ({ s with
      producerAlive := false
      dropped := if s.consumerAlive then s.dropped
        else some (RingState.dropLoop r s.buffer s.writeIndex s.readIndex) }, pure ⟨⟩)
  | _ => none

def consumerCall (s : RingState w T W) :
    RingOp T W → Option (RingState w T W × Prog (RingState w T W) PUnit)
  | .tryPop => some (s, do
      let item ← tryPop r
      consumerReturns (.item item))
  | .tryPopSlice items => some (s, do
      let (n, items) ← tryPopSlice r (items.map some)
      consumerReturns (.slice items n))
  | .availableCount => some (s, do
      let n ← availableCount
      consumerReturns (.count n.toNat))
  | .consumerIsEmpty => some (s, do
      let n ← availableCount
      consumerReturns (.answer (decide (n = 0))))
  | .consumerIsFull => some (s, do
      let n ← availableCount
      consumerReturns (.answer (decide (r.capacity ≤ n))))
  | .pop => some ({ s with popFuture := some .pop }, pure ⟨⟩)
  | .popSlice items => some ({ s with popFuture := some (.popSlice (items.map some)) }, pure ⟨⟩)
  | .dropConsumer => some ({ s with
      consumerAlive := false
      dropped := if s.producerAlive then s.dropped
        else some (RingState.dropLoop r s.buffer s.writeIndex s.readIndex) }, pure ⟨⟩)
  | _ => none

/-- A live future borrows its handle: until it is finished or dropped it is all one can poll. -/
def ringCall (side : RingSide) (op : RingOp T W) (s : RingState w T W) :
    Option (RingState w T W × Prog (RingState w T W) PUnit) :=
  match side with
  | .producer =>
    if s.producerAlive then
      match s.pushFuture, op with
      | none, op => producerCall r s op
      | some future, .pollPush waker =>
        some ({ s with producerSlot := s.producerSlot.beginPoll waker }, pollPush r waker future)
      | some _, .cancelPush =>
        some ({ s with pushFuture := none, producerSlot := s.producerSlot.leave }, pure ⟨⟩)
      | some _, _ => none
    else none
  | .consumer =>
    if s.consumerAlive then
      match s.popFuture, op with
      | none, op => consumerCall r s op
      | some future, .pollPop waker =>
        some ({ s with consumerSlot := s.consumerSlot.beginPoll waker }, pollPop r waker future)
      | some _, .cancelPop =>
        some ({ s with popFuture := none, consumerSlot := s.consumerSlot.leave }, pure ⟨⟩)
      | some _, _ => none
    else none

def ringThreads : Threads (RingState w T W) RingSide (RingOp T W) PUnit where
  init := .init
  start := ringCall r
  resume _ _ := none

end Calls

end Cynosure.SiteD
