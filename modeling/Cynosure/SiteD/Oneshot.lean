import Cynosure.Lib.Word
import Cynosure.SiteD.SlotProg

/-! # The oneshot channel

The cell holds `some v` while it is initialised and its value not yet moved out; a read
or a drop that finds `none`, and a write that finds `some`, are faults. The two handles
share the state through a reference count, and the last one to go frees it. Fields
from `offered` on record where the value is and are read by no program.
-/

namespace Cynosure.SiteD.Oneshot

open Prog

def VALUE_SET : BitVec 8 := 1 <<< 0

def SENDER_DROPPED : BitVec 8 := 1 <<< 1

def RECEIVER_DROPPED : BitVec 8 := 1 <<< 2

def TAKEN : BitVec 8 := 1 <<< 3

inductive OneshotSide where
  | sender
  | receiver
  deriving DecidableEq, Repr

/-- What a call of the receiver returned: `empty` is `Ok(None)`, `closed` is `Err(RecvError)`. -/
inductive RecvOut (T : Type) where
  | value (v : T)
  | empty
  | closed
  | pending
  deriving DecidableEq, Repr

inductive SendOut (T : Type) where
  | sent
  | refused (v : T)
  deriving DecidableEq, Repr

structure OneshotState (T W : Type) where
  value : Option T
  state : BitVec 8
  recv : SlotUse W Unit
  refs : Nat
  /-- the handles that their owners still have -/
  sender : Bool
  receiver : Bool
  senderOut : Option (SendOut T)
  receiverOut : Option (RecvOut T)
  offered : Option T
  inSender : Option T
  inReceiver : Option T
  handedBack : List T
  received : List T
  dropped : List T
  senderHolds : Bool
  receiverHolds : Bool
  last : Option OneshotSide
  /-- the last poll returned `Pending` -/
  pending : Bool
  faulted : Bool

namespace OneshotState

variable {T W : Type}

def init : OneshotState T W where
  value := none
  state := 0
  recv := .new
  refs := 2
  sender := true
  receiver := true
  senderOut := none
  receiverOut := none
  offered := none
  inSender := none
  inReceiver := none
  handedBack := []
  received := []
  dropped := []
  senderHolds := true
  receiverHolds := true
  last := none
  pending := false
  faulted := false

/-- `MaybeUninit::write` -/
def writeCell (v : T) (s : OneshotState T W) : OneshotState T W :=
  { s with value := some v, inSender := none, faulted := s.faulted || s.value.isSome }

/-- `assume_init_read` -/
def readCell (s : OneshotState T W) : OneshotState T W :=
  { s with value := none, inReceiver := s.value, faulted := s.faulted || s.value.isNone }

/-- `assume_init_drop` -/
def dropCell (s : OneshotState T W) : OneshotState T W :=
  { s with
    value := none
    dropped := s.dropped ++ s.value.toList
    faulted := s.faulted || s.value.isNone }

/-- The publishing store of `send`, with the bits it loaded before. -/
def publishValue (st : BitVec 8) (s : OneshotState T W) : OneshotState T W :=
  { s with state := st ||| VALUE_SET, recv := s.recv.beginSignal () }

def closeSender (s : OneshotState T W) : OneshotState T W :=
  { s with state := s.state ||| SENDER_DROPPED, recv := s.recv.beginSignal () }

/-- The decrement of the reference count when a handle goes. -/
def release (side : OneshotSide) (s : OneshotState T W) : OneshotState T W :=
  { s with
    refs := s.refs - 1
    senderHolds := s.senderHolds && side ≠ .sender
    receiverHolds := s.receiverHolds && side ≠ .receiver
    last := if s.refs = 1 then some side else s.last }

end OneshotState

section Programs

variable {T W : Type} [Waker W]

/-- `Inner::drop`, by the side that held the last reference -/
def dropInner : Prog (OneshotState T W) PUnit := do
  let st ← load (·.state)
  if Word.has st VALUE_SET && !Word.has st TAKEN then
    store OneshotState.dropCell
  else pure ⟨⟩

def releaseInner (side : OneshotSide) : Prog (OneshotState T W) PUnit := do
  let refs ← exchange (·.refs) (OneshotState.release side)
  if refs = 1 then dropInner else pure ⟨⟩

def signalRecv : Prog (OneshotState T W) PUnit :=
  (SlotUse.signal ()).zoom (·.recv) fun s x => { s with recv := x }

def armRecv (waker : W) : Prog (OneshotState T W) PUnit :=
  (SlotUse.arm waker).zoom (·.recv) fun s x => { s with recv := x }

/-- `Sender::drop` -/
def dropSender : Prog (OneshotState T W) PUnit := do
  let st ← load (·.state)
  if Word.has st VALUE_SET then releaseInner .sender
  else do
    store OneshotState.closeSender
    signalRecv
    releaseInner .sender

def send (v : T) : Prog (OneshotState T W) PUnit := do
  let st ← load (·.state)
  if Word.has st RECEIVER_DROPPED then do
    dropSender
    store fun s => { s with
      senderOut := some (.refused v)
      inSender := none
      handedBack := s.handedBack ++ [v] }
  else do
    store (OneshotState.writeCell v)
    store (OneshotState.publishValue st)
    signalRecv
    dropSender
    store fun s => { s with senderOut := some .sent }

def takeValue (st : BitVec 8) : Prog (OneshotState T W) (Option T) :=
  if Word.has st TAKEN then pure none
  else do
    store fun s => { s with state := st ||| TAKEN }
    exchange (·.value) OneshotState.readCell

/-- The outcome of a receiving call, and the value that it moves out to the caller. -/
def recvReturns (out : Option T → RecvOut T) (v : Option T) : Prog (OneshotState T W) PUnit :=
  store fun s => { s with
    receiverOut := some (out v)
    inReceiver := none
    received := s.received ++ v.toList }

def tryRecv : Prog (OneshotState T W) PUnit := do
  let st ← load (·.state)
  if Word.has st VALUE_SET then do
    let v ← takeValue st
    recvReturns (fun v => v.elim .empty .value) v
  else if Word.has st SENDER_DROPPED then
    store fun s => { s with receiverOut := some .closed }
  else
    store fun s => { s with receiverOut := some .empty }

/-- `Some(Err(RecvError))` is `some none`. -/
def resolve : Prog (OneshotState T W) (Option (Option T)) := do
  let st ← load (·.state)
  if Word.has st VALUE_SET then do
    let v ← takeValue st
    pure (some v)
  else if Word.has st SENDER_DROPPED then pure (some none)
  else pure none

/-- `Receiver::poll` -/
def pollRecv (waker : W) : Prog (OneshotState T W) PUnit := do
  match ← resolve with
  | some v => recvReturns (fun v => v.elim .closed .value) v
  | none => do
    armRecv waker
    match ← resolve with
    | some v => do
      store fun s => { s with recv := s.recv.disarm }
      recvReturns (fun v => v.elim .closed .value) v
    | none => store fun s => { s with receiverOut := some .pending, pending := true }

/-- `Receiver::drop` -/
def dropReceiver : Prog (OneshotState T W) PUnit := do
  store fun s => { s with state := s.state ||| RECEIVER_DROPPED }
  releaseInner .receiver

end Programs

/-- `drop` is the end of either handle's scope. -/
inductive OneshotOp (T W : Type) where
  | send (v : T)
  | tryRecv
  | poll (waker : W)
  | drop

section Calls

variable {T W : Type} [Waker W]

def oneshotCall : OneshotSide → OneshotOp T W → OneshotState T W →
    Option (OneshotState T W × Prog (OneshotState T W) PUnit)
  | .sender, .send v, s =>
    if s.sender then some ({ s with sender := false, offered := some v, inSender := some v }, send v)
    else none
  | .sender, .drop, s => if s.sender then some ({ s with sender := false }, dropSender) else none
  | .receiver, .tryRecv, s => if s.receiver then some (s, tryRecv) else none
  | .receiver, .poll waker, s =>
    if s.receiver then some ({ s with recv := s.recv.beginPoll waker, pending := false }, pollRecv waker)
    else none
  | .receiver, .drop, s => if s.receiver then some ({ s with receiver := false }, dropReceiver) else none
  | _, _, _ => none

def oneshotThreads (T W : Type) [Waker W] :
    Threads (OneshotState T W) OneshotSide (OneshotOp T W) PUnit where
  init := .init
  start := oneshotCall
  resume _ _ := none

end Calls

end Cynosure.SiteD.Oneshot
