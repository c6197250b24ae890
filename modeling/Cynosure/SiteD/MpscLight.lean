import Mathlib.Data.Finset.Basic
import Cynosure.Lib.Threads
import Cynosure.SiteD.SlotProg

/-! # The light MPSC channel

The queue and the wait-list are read and written only under a spinlock, so each locked
section is one action here. A sender party is one call at a time of some task that
has a `Sender`, or one `Send_` future and its polls; there may be any number of them.
Items carry the party that offered them and a number, which no program looks at. The
fields from `wakes` on record what happened or, for `borrowers`, what the borrow
checker knows: while one is alive, so is a `Sender`.
-/

namespace Cynosure.SiteD.MpscLight

open Prog

structure Item (T : Type) where
  owner : Nat
  seq : Nat
  val : T
  deriving DecidableEq, Repr

/-- `q` is a `BTreeMap`, in the order of its keys. -/
structure Waiters (W : Type) where
  q : List (Nat × W)
  nextId : Nat
  selected : Finset Nat

structure SendFuture (T : Type) where
  val : Option (Item T)
  parkedId : Option Nat
  deriving DecidableEq, Repr

/-- `done` is the `Ok(())` of a future that is polled after it has finished. -/
inductive SendOut (T : Type) where
  | sent (x : Item T)
  | full (x : Item T)
  | closed (x : Item T)
  | sendError (x : Item T)
  | many (items : List (Item T)) (sent : Nat) (left : List (Item T))
  | pending
  | done
  deriving DecidableEq, Repr

inductive RecvOut (T : Type) where
  | item (x : Item T)
  | empty
  | closed
  | batch (items : List (Item T))
  | ready (x : Option (Item T))
  | pending
  deriving DecidableEq, Repr

def RecvOut.isPending {T : Type} : RecvOut T → Bool
  | .pending => true
  | _ => false

/-- `future` is the `spin` of the live `Recv`, and `pending` tells what its last poll returned. -/
structure ReceiverHandle where
  alive : Bool
  future : Option Bool
  pending : Bool
  deriving DecidableEq, Repr

structure MpscState (T W : Type) where
  queue : List (Item T)
  nonempty : Nat
  waiters : Waiters W
  waitersLen : Nat
  recv : SlotUse W Nat
  senders : Nat
  closed : Bool
  staging : List (Item T)
  receiver : ReceiverHandle
  futures : Nat → Option (SendFuture T)
  sendOut : Nat → Option (SendOut T)
  recvOut : Option (RecvOut T)
  wakes : List W
  borrowers : Finset Nat
  /-- how many items the party has offered -/
  seqs : Nat → Nat
  /-- the party took back a wake that it has yet to use -/
  credit : Nat → Bool
  parkedBy : Nat → Nat
  accepted : List (Item T)
  /-- handed back to the caller, or dropped with a future -/
  withdrawn : List (Item T)
  received : List (Item T)
  /-- what the receiver's calls have returned -/
  returned : List (Item T)
  /-- dropped with the receiver -/
  discarded : List (Item T)

namespace Waiters

variable {W : Type}

def ids (w : Waiters W) : List Nat := w.q.map Prod.fst

/-- `BTreeMap::insert` -/
def insertKey (id : Nat) (waker : W) : List (Nat × W) → List (Nat × W)
  | [] => [(id, waker)]
  | (k, v) :: rest =>
    if id < k then (id, waker) :: (k, v) :: rest
    else if id = k then (id, waker) :: rest
    else (k, v) :: insertKey id waker rest

def park (w : Waiters W) (waker : W) : Waiters W :=
  { w with q := insertKey w.nextId waker w.q, nextId := w.nextId + 1 }

/-- `q.remove(&id)` and `selected.remove(&id)` -/
def repoll (w : Waiters W) (id : Nat) : Waiters W :=
  { w with q := w.q.filter (·.1 ≠ id), selected := w.selected.erase id }

def first (w : Waiters W) : Option W := w.q.head?.map Prod.snd

/-- `q.pop_first()`, which moves into `selected` -/
def selectFirst (w : Waiters W) : Waiters W :=
  match w.q with
  | [] => w
  | (id, _) :: rest => { w with q := rest, selected := insert id w.selected }

def cancel (w : Waiters W) (id : Nat) : Waiters W :=
  if id ∈ w.selected then (w.repoll id).selectFirst else w.repoll id

/-- The waker that the wake of `id` passes to. -/
def cancelNext (w : Waiters W) (id : Nat) : Option W :=
  if id ∈ w.selected then (w.repoll id).first else none

def clear (w : Waiters W) : Waiters W := { w with q := [], selected := ∅ }

end Waiters

/-- What `push_or_park` decides under its second lock. -/
inductive ParkOut where
  | pushed
  | closed
  | parked (id : Nat)
  deriving DecidableEq, Repr

namespace MpscState

variable {T W : Type}

def init : MpscState T W where
  queue := []
  nonempty := 0
  waiters := ⟨[], 0, ∅⟩
  waitersLen := 0
  recv := .new
  senders := 1
  closed := false
  staging := []
  receiver := ⟨true, none, false⟩
  futures := fun _ => none
  sendOut := fun _ => none
  recvOut := none
  wakes := []
  borrowers := ∅
  seqs := fun _ => 0
  credit := fun _ => false
  parkedBy := fun _ => 0
  accepted := []
  withdrawn := []
  received := []
  returned := []
  discarded := []

/-- The wait-list after a locked section, with its mirror. -/
def setWaiters (w : Waiters W) (s : MpscState T W) : MpscState T W :=
  { s with waiters := w, waitersLen := w.q.length }

/-- `items` go into the queue, and a call of `signal` follows. -/
def push (n : Nat) (items : List (Item T)) (s : MpscState T W) : MpscState T W :=
  { s with
    queue := s.queue ++ items
    nonempty := if s.queue = [] then 1 else s.nonempty
    recv := s.recv.beginSignal n
    credit := Function.update s.credit n false
    accepted := s.accepted ++ items }

def tryPush (cap n : Nat) (x : Item T) (s : MpscState T W) : MpscState T W :=
  if s.queue.length < cap then s.push n [x] else s

/-- How many of the items fit. -/
def room (cap : Nat) (items : List (Item T)) (s : MpscState T W) : Nat :=
  min (cap - s.queue.length) items.length

def tryPushMany (cap n : Nat) (items : List (Item T)) (s : MpscState T W) : MpscState T W :=
  if 0 < s.room cap items then s.push n (items.take (s.room cap items)) else s

def parkOut (cap : Nat) (s : MpscState T W) : ParkOut :=
  if s.closed then .closed
  else if s.queue.length < cap then .pushed
  else .parked s.waiters.nextId

def pushOrPark (cap n : Nat) (x : Item T) (waker : W) (s : MpscState T W) : MpscState T W :=
  match s.parkOut cap with
  | .closed => s
  | .pushed => s.push n [x]
  | .parked id => { s.setWaiters (s.waiters.park waker) with
      credit := Function.update s.credit n false
      parkedBy := Function.update s.parkedBy id n }

def repollWaiter (n id : Nat) (s : MpscState T W) : MpscState T W :=
  { s.setWaiters (s.waiters.repoll id) with credit := Function.update s.credit n true }

def cancelWaiter (id : Nat) (s : MpscState T W) : MpscState T W :=
  s.setWaiters (s.waiters.cancel id)

def wakeOneWaiter (s : MpscState T W) : MpscState T W := s.setWaiters s.waiters.selectFirst

def wakeAllWaiters (s : MpscState T W) : MpscState T W := s.setWaiters s.waiters.clear

/-- `staging.pop_front()` -/
def popStaged (s : MpscState T W) : MpscState T W :=
  { s with
    staging := s.staging.tail
    received := s.received ++ s.staging.head?.toList }

def stealInto (s : MpscState T W) : MpscState T W :=
  if s.queue = [] then s
  else { s.wakeOneWaiter with queue := s.staging, staging := s.queue, nonempty := 0 }

/-- The party's call returns. -/
def sendReturns (n : Nat) (out : SendOut T) (back : List (Item T)) (s : MpscState T W) :
    MpscState T W :=
  { s with
    sendOut := Function.update s.sendOut n (some out)
    withdrawn := s.withdrawn ++ back
    borrowers := if (s.futures n).isSome then s.borrowers else s.borrowers.erase n
    credit := Function.update s.credit n false }

def recvReturns (out : RecvOut T) (items : List (Item T)) (s : MpscState T W) : MpscState T W :=
  { s with
    recvOut := some out
    returned := s.returned ++ items
    receiver := { s.receiver with pending := out.isPending } }

end MpscState

section SenderPrograms

variable {T W : Type}

/-- `wake_by_ref` outside the lock, if a waker was taken out. -/
def wakeByRef : Option W → Prog (MpscState T W) PUnit
  | none => pure ⟨⟩
  | some waker => store fun s => { s with wakes := s.wakes ++ [waker] }

def sendReturns (n : Nat) (out : SendOut T) (back : List (Item T)) :
    Prog (MpscState T W) PUnit :=
  store (MpscState.sendReturns n out back)

def tryPush (cap n : Nat) (x : Item T) : Prog (MpscState T W) Bool :=
  exchange (fun s => decide (s.queue.length < cap)) (MpscState.tryPush cap n x)

def tryPushMany (cap n : Nat) (items : List (Item T)) : Prog (MpscState T W) Nat :=
  if items = [] then pure 0
  else exchange (fun s => s.room cap items) (MpscState.tryPushMany cap n items)

def refuse (n : Nat) (x : Item T) : Prog (MpscState T W) PUnit := do
  let closed ← load (·.closed)
  if closed then sendReturns n (.closed x) [x] else sendReturns n (.full x) [x]

variable [Waker W]

def signalRecv (n : Nat) : Prog (MpscState T W) PUnit :=
  (SlotUse.signal n).zoom (·.recv) fun s x => { s with recv := x }

def trySend (cap n : Nat) (x : Item T) : Prog (MpscState T W) PUnit := do
  let closed ← load (·.closed)
  if closed then sendReturns n (.closed x) [x]
  else do
    let pushed ← tryPush cap n x
    if pushed then do
      signalRecv n
      sendReturns n (.sent x) []
    else refuse n x

def signalIf (n k : Nat) : Prog (MpscState T W) PUnit :=
  if 0 < k then signalRecv n else pure ⟨⟩

def trySendMany (cap n : Nat) (items : List (Item T)) : Prog (MpscState T W) PUnit := do
  let closed ← load (·.closed)
  if closed then sendReturns n (.many items 0 items) items
  else do
    let k ← tryPushMany cap n items
    signalIf n k
    sendReturns n (.many items k (items.drop k)) (items.drop k)

def repollWaiter (n : Nat) : Option Nat → Prog (MpscState T W) PUnit
  | none => pure ⟨⟩
  | some id => store (MpscState.repollWaiter n id)

/-- The two stages of `push_or_park`: a push without a waker, then a push or a parking. -/
def pushOrPark (cap n : Nat) (x : Item T) (waker : W) : Prog (MpscState T W) ParkOut := do
  let closed ← load (·.closed)
  if closed then pure .closed
  else do
    let pushed ← tryPush cap n x
    if pushed then pure .pushed
    else exchange (·.parkOut cap) (MpscState.pushOrPark cap n x waker)

def sendPending (n : Nat) (x : Item T) (id : Nat) : Prog (MpscState T W) PUnit :=
  store fun s => { s with
    sendOut := Function.update s.sendOut n (some .pending)
    futures := Function.update s.futures n (some ⟨some x, some id⟩)
    credit := Function.update s.credit n false }

/-- `Send_::poll` with the value and the id taken out of the future -/
def pollSend (cap n : Nat) (x : Item T) (parkedId : Option Nat) (waker : W) :
    Prog (MpscState T W) PUnit := do
  repollWaiter n parkedId
  match ← pushOrPark cap n x waker with
  | .pushed => do
    signalRecv n
    sendReturns n (.sent x) []
  | .closed => sendReturns n (.sendError x) [x]
  | .parked id => sendPending n x id

/-- `Send_::drop` -/
def dropSend (n : Nat) : Option Nat → Prog (MpscState T W) PUnit
  | none => store fun s => { s with borrowers := s.borrowers.erase n }
  | some id => do
    let next ← exchange (·.waiters.cancelNext id) (MpscState.cancelWaiter id)
    wakeByRef next
    store fun s => { s with borrowers := s.borrowers.erase n }

end SenderPrograms

section ReceiverPrograms

variable {T W : Type}

def recvReturns (out : RecvOut T) (items : List (Item T)) : Prog (MpscState T W) PUnit :=
  store (MpscState.recvReturns out items)

def wakeOneWaiter : Prog (MpscState T W) PUnit := do
  let waker ← exchange (·.waiters.first) MpscState.wakeOneWaiter
  wakeByRef waker

/-- `if waiters_len > 0 { wake_one_waiter() }` -/
def wakeIfWaiting : Prog (MpscState T W) PUnit := do
  let len ← load (·.waitersLen)
  if 0 < len then wakeOneWaiter else pure ⟨⟩

def popStaged : Prog (MpscState T W) (Option (Item T)) :=
  exchange (·.staging.head?) MpscState.popStaged

/-- The number of items stolen, and the waker of a sender that may refill the queue. -/
def stealInto : Prog (MpscState T W) Nat := do
  let r ← exchange (fun s => (s.queue.length, s.waiters.first)) MpscState.stealInto
  if r.1 = 0 then pure 0
  else do
    wakeByRef r.2
    pure r.1

def nextStaged : Prog (MpscState T W) (Option (Item T)) := do
  match ← popStaged with
  | some x => do
    wakeIfWaiting
    pure (some x)
  | none => do
    let stolen ← stealInto
    if 0 < stolen then popStaged else pure none

def tryRecv : Prog (MpscState T W) PUnit := do
  match ← nextStaged with
  | some x => recvReturns (.item x) [x]
  | none => do
    let senders ← load (·.senders)
    if senders = 0 then do
      match ← nextStaged with
      | some x => recvReturns (.item x) [x]
      | none => recvReturns .closed []
    else recvReturns .empty []

def recvUpTo : Nat → Prog (MpscState T W) (List (Item T))
  | 0 => pure []
  | n + 1 => do
    match ← nextStaged with
    | none => pure []
    | some x => do
      let rest ← recvUpTo n
      pure (x :: rest)

def recvMany (max : Nat) : Prog (MpscState T W) PUnit := do
  let out ← recvUpTo max
  recvReturns (.batch out) out

def recvReady (x : Option (Item T)) : Prog (MpscState T W) PUnit := recvReturns (.ready x) x.toList

def RECV_SPIN : Nat := 192

/-- One look of the spin loop at the queue. -/
def spinLook : Prog (MpscState T W) (Option (Item T)) := do
  let nonempty ← load (·.nonempty)
  if 0 < nonempty then nextStaged else pure none

/-- The result is `none` when the loop runs out. -/
def spinRecv : Nat → Prog (MpscState T W) (Option (Option (Item T)))
  | 0 => pure none
  | n + 1 => do
    match ← spinLook with
    | some x => pure (some (some x))
    | none => do
      let senders ← load (·.senders)
      if senders = 0 then do
        let last ← nextStaged
        pure (some last)
      else spinRecv n

def disarmRecv : Prog (MpscState T W) PUnit := store fun s => { s with recv := s.recv.disarm }

variable [Waker W]

def armRecv (waker : W) : Prog (MpscState T W) PUnit :=
  (SlotUse.arm waker).zoom (·.recv) fun s x => { s with recv := x }

/-- The end of `Recv::poll`: park, then check again. -/
def parkRecv (waker : W) : Prog (MpscState T W) PUnit := do
  armRecv waker
  match ← nextStaged with
  | some x => do
    disarmRecv
    recvReady (some x)
  | none => do
    let senders ← load (·.senders)
    if senders = 0 then do
      disarmRecv
      let last ← nextStaged
      recvReady last
    else do
      wakeIfWaiting
      recvReturns .pending []

def pollRecv (spin : Bool) (waker : W) : Prog (MpscState T W) PUnit := do
  match ← nextStaged with
  | some x => recvReady (some x)
  | none => do
    let senders ← load (·.senders)
    if senders = 0 then do
      let last ← nextStaged
      recvReady last
    else do
      match ← spinRecv (if spin then RECV_SPIN else 0) with
      | some last => recvReady last
      | none => parkRecv waker

def wakeAll : List W → Prog (MpscState T W) PUnit
  | [] => pure ⟨⟩
  | waker :: rest => do
    wakeByRef (some waker)
    wakeAll rest

/-- `Receiver::drop`, and then the drop of its fields -/
def dropReceiver : Prog (MpscState T W) PUnit := do
  store fun s => { s with closed := true }
  let wakers ← exchange (fun s => s.waiters.q.map Prod.snd) MpscState.wakeAllWaiters
  wakeAll wakers
  store fun s => { s with staging := [], discarded := s.staging }

end ReceiverPrograms

inductive MpscSide where
  | sender (n : Nat)
  | receiver
  deriving DecidableEq, Repr

inductive MpscOp (T W : Type) where
  | clone
  | dropSender
  | trySend (val : T)
  | trySendMany (vals : List T)
  | send (val : T)
  | pollSend (waker : W)
  | dropSend
  | tryRecv
  | recvMany (max : Nat)
  | recv (spin : Bool)
  | pollRecv (waker : W)
  | dropRecv
  | dropReceiver

section Calls

variable {T W : Type} [Waker W] (cap : Nat)

/-- The items of a call, numbered on from those the party offered before. -/
def offer (n : Nat) (vals : List T) (s : MpscState T W) : List (Item T) :=
  vals.zipIdx.map fun v => ⟨n, s.seqs n + v.2, v.1⟩

/-- The party borrows a `Sender` and has `items` to send. -/
def MpscState.offering (n : Nat) (items : List (Item T)) (s : MpscState T W) : MpscState T W :=
  { s with
    borrowers := insert n s.borrowers
    seqs := Function.update s.seqs n (s.seqs n + items.length) }

/-- A party with a live future only polls or drops it; other calls of the same task are other
parties. The last `Sender` is not dropped while a call or a future borrows it. -/
def senderCall (n : Nat) (op : MpscOp T W) (s : MpscState T W) :
    Option (MpscState T W × Prog (MpscState T W) PUnit) :=
  match s.futures n, op with
  | none, .clone =>
    if 0 < s.senders then some ({ s with senders := s.senders + 1 }, pure ⟨⟩) else none
  | none, .dropSender =>
    if 1 < s.senders then some ({ s with senders := s.senders - 1 }, pure ⟨⟩)
    else if s.senders = 1 ∧ s.borrowers = ∅ then
      some ({ s with senders := 0, recv := s.recv.beginSignal n }, signalRecv n)
    else none
  | none, .trySend val =>
    if 0 < s.senders then
      let x : Item T := ⟨n, s.seqs n, val⟩
      some (s.offering n [x], trySend cap n x)
    else none
  | none, .trySendMany vals =>
    if 0 < s.senders then
      some (s.offering n (offer n vals s), trySendMany cap n (offer n vals s))
    else none
  | none, .send val =>
    if 0 < s.senders then
      let x : Item T := ⟨n, s.seqs n, val⟩
      some ({ s.offering n [x] with
        futures := Function.update s.futures n (some ⟨some x, none⟩) }, pure ⟨⟩)
    else none
  | some future, .pollSend waker =>
    match future.val with
    | none => some (s, sendReturns n .done [])
    | some x => some ({ s with futures := Function.update s.futures n (some ⟨none, none⟩) },
        pollSend cap n x future.parkedId waker)
  | some future, .dropSend => some ({ s with
      futures := Function.update s.futures n none
      withdrawn := s.withdrawn ++ future.val.toList }, dropSend n future.parkedId)
  | _, _ => none

def receiverCall (op : MpscOp T W) (s : MpscState T W) :
    Option (MpscState T W × Prog (MpscState T W) PUnit) :=
  if s.receiver.alive then
    match s.receiver.future, op with
    | none, .tryRecv => some (s, tryRecv)
    | none, .recvMany max => some (s, recvMany max)
    | none, .recv spin => some ({ s with receiver := ⟨true, some spin, false⟩ }, pure ⟨⟩)
    | some spin, .pollRecv waker => some ({ s with
        receiver := ⟨true, some spin, false⟩
        recv := s.recv.beginPoll waker }, pollRecv spin waker)
    | some _, .dropRecv => some ({ s with
        receiver := ⟨true, none, false⟩
        recv := s.recv.disarm }, pure ⟨⟩)
    | none, .dropReceiver => some ({ s with receiver := ⟨false, none, false⟩ }, dropReceiver)
    | _, _ => none
  else none

/-- `bounded(capacity)` -/
def mpscThreads (capacity : Nat) :
    Threads (MpscState T W) MpscSide (MpscOp T W) PUnit where
  init := .init
  start
    | .sender n, op, s => senderCall (max capacity 1) n op s
    | .receiver, op, s => receiverCall op s
  resume _ _ := none

end Calls

end Cynosure.SiteD.MpscLight
