import Mathlib.Data.BitVec
import Cynosure.Lib.Threads
import Cynosure.SiteD.SlotProg

/-! # The triple buffer

Three buffers circulate by pointer between three slots, the writer and the reader. A
buffer is named by its address, and `heap` holds its contents. The handles keep the
buffer of a pending or cancelled future in `held`; `hand` is the buffer the caller has.
Fields from `publishing` on record what happened and are read by no program.
-/

namespace Cynosure.SiteD

open Prog

structure AlignedBuffer where
  ptr : Nat
  len : Nat
  deriving DecidableEq, Repr

/-- One side's handle and what its caller has in hand; `future` tells of a live future. -/
structure TripleHandle where
  hand : Option AlignedBuffer
  held : Option AlignedBuffer
  future : Bool
  deriving DecidableEq, Repr

inductive TripleOut where
  | published (next : AlignedBuffer)
  | taken (buf : AlignedBuffer)
  | refused
  | pending
  | panicked
  deriving DecidableEq, Repr

structure TripleState (w : Nat) (T W : Type) where
  buffers : Fin 3 → Option Nat
  lens : Fin 3 → Nat
  writerIdx : Fin 3
  readerIdx : Fin 3
  middleIdx : Fin 3
  generation : BitVec w
  lastReadGen : BitVec w
  readerSlot : SlotUse W Unit
  writerSlot : SlotUse W Unit
  heap : Nat → List T
  writer : TripleHandle
  reader : TripleHandle
  writerOut : Option TripleOut
  readerOut : Option TripleOut
  /-- a rotation of the writer, or of the reader, is under way -/
  publishing : Bool
  taking : Bool
  writerOwns : List Nat
  readerOwns : List Nat
  /-- contents and length of the buffer that the publish under way was called with -/
  offer : List T × Nat
  published : List (List T × Nat)
  taken : List (List T × Nat)
  /-- what the calls of the writer reported as published, and those of the reader returned -/
  confirmed : List (List T × Nat)
  delivered : List (List T × Nat)
  /-- the panic on a null middle pointer, and a slot that was not empty -/
  nullMiddle : Bool
  displaced : Bool

inductive TripleSide where
  | writer
  | reader
  deriving DecidableEq, Repr

namespace TripleState

variable {w : Nat} {T W : Type}

def init [Inhabited T] (cap : Nat) : TripleState w T W where
  buffers := ![none, some 1, some 2]
  lens := fun _ => 0
  writerIdx := 0
  readerIdx := 1
  middleIdx := 2
  generation := 0
  lastReadGen := 0
  readerSlot := .new
  writerSlot := .new
  heap := fun _ => List.replicate cap default
  writer := ⟨some ⟨0, 0⟩, none, false⟩
  reader := ⟨none, none, false⟩
  writerOut := none
  readerOut := none
  publishing := false
  taking := false
  writerOwns := [0]
  readerOwns := []
  offer := ([], 0)
  published := []
  taken := []
  confirmed := []
  delivered := []
  nullMiddle := false
  displaced := false

/-- The writer's `swap` into its slot, which must be empty. -/
def putWriter (i : Fin 3) (ptr : Nat) (s : TripleState w T W) : TripleState w T W :=
  { s with
    buffers := Function.update s.buffers i (some ptr)
    publishing := true
    writerOwns := s.writerOwns.erase ptr
    displaced := s.displaced || (s.buffers i).isSome }

def putReader (i : Fin 3) (ptr : Nat) (s : TripleState w T W) : TripleState w T W :=
  { s with
    buffers := Function.update s.buffers i (some ptr)
    taking := true
    readerOwns := s.readerOwns.erase ptr
    displaced := s.displaced || (s.buffers i).isSome }

/-- The `swap` with null that takes a buffer out of the old middle slot. -/
def takeWriter (i : Fin 3) (s : TripleState w T W) : TripleState w T W :=
  { s with
    buffers := Function.update s.buffers i none
    writerOwns := (s.buffers i).toList ++ s.writerOwns
    nullMiddle := s.nullMiddle || (s.buffers i).isNone }

def takeReader (i : Fin 3) (s : TripleState w T W) : TripleState w T W :=
  { s with
    buffers := Function.update s.buffers i none
    readerOwns := (s.buffers i).toList ++ s.readerOwns
    nullMiddle := s.nullMiddle || (s.buffers i).isNone }

/-- `generation.store(next)` -/
def publish (next : BitVec w) (s : TripleState w T W) : TripleState w T W :=
  { s with
    generation := next
    readerSlot := s.readerSlot.beginSignal ()
    publishing := false
    published := s.published ++ [s.offer] }

/-- `last_read_gen.store(generation)` with `buf` taken out of the middle -/
def commitRead (generation : BitVec w) (buf : AlignedBuffer) (s : TripleState w T W) :
    TripleState w T W :=
  { s with
    lastReadGen := generation
    writerSlot := s.writerSlot.beginSignal ()
    taking := false
    taken := s.taken ++ [(s.heap buf.ptr, buf.len)] }

end TripleState

section Programs

variable {w : Nat} {T W : Type} [Waker W]

def wakeReader : Prog (TripleState w T W) PUnit :=
  (SlotUse.signal ()).zoom (·.readerSlot) fun s x => { s with readerSlot := x }

def wakeWriter : Prog (TripleState w T W) PUnit :=
  (SlotUse.signal ()).zoom (·.writerSlot) fun s x => { s with writerSlot := x }

/-- The generation and the last one read, as `has_unread` and `middle_free` load them. -/
def loadGenerations : Prog (TripleState w T W) (BitVec w × BitVec w) := do
  let generation ← load (·.generation)
  let lastRead ← load (·.lastReadGen)
  pure (generation, lastRead)

def hasUnread : Prog (TripleState w T W) Bool := do
  let g ← loadGenerations
  pure (decide (g.1 ≠ g.2))

def middleFree : Prog (TripleState w T W) Bool := do
  let g ← loadGenerations
  pure (decide (g.1 = g.2))

/-- The result is `none` when the call panics. -/
def writerTakesNext (middleIdx : Fin 3) : Prog (TripleState w T W) (Option AlignedBuffer) := do
  let ptr ← exchange (·.buffers middleIdx) (TripleState.takeWriter middleIdx)
  match ptr with
  | none => pure none
  | some ptr => do
    wakeReader
    pure (some ⟨ptr, 0⟩)

def writerPublishNow (completed : AlignedBuffer) :
    Prog (TripleState w T W) (Option AlignedBuffer) := do
  let writerIdx ← load (·.writerIdx)
  let middleIdx ← load (·.middleIdx)
  store (TripleState.putWriter writerIdx completed.ptr)
  store fun s => { s with lens := Function.update s.lens writerIdx completed.len }
  store fun s => { s with writerIdx := middleIdx }
  store fun s => { s with middleIdx := writerIdx }
  let generation ← load (·.generation)
  store (TripleState.publish (generation + 1))
  writerTakesNext middleIdx

def returnPrevious (readerIdx : Fin 3) : Option AlignedBuffer → Prog (TripleState w T W) PUnit
  | none => pure ⟨⟩
  | some previous => do
    store (TripleState.putReader readerIdx previous.ptr)
    store fun s => { s with lens := Function.update s.lens readerIdx 0 }

def readerTakesMiddle (generation : BitVec w) (middleIdx : Fin 3) :
    Prog (TripleState w T W) (Option AlignedBuffer) := do
  let ptr ← exchange (·.buffers middleIdx) (TripleState.takeReader middleIdx)
  match ptr with
  | none => pure none
  | some ptr => do
    let len ← load (·.lens middleIdx)
    store (TripleState.commitRead generation ⟨ptr, len⟩)
    wakeWriter
    pure (some ⟨ptr, len⟩)

def readerTakeNow (previous : Option AlignedBuffer) :
    Prog (TripleState w T W) (Option AlignedBuffer) := do
  let generation ← load (·.generation)
  let readerIdx ← load (·.readerIdx)
  let middleIdx ← load (·.middleIdx)
  returnPrevious readerIdx previous
  store fun s => { s with readerIdx := middleIdx, taking := true }
  store fun s => { s with middleIdx := readerIdx }
  readerTakesMiddle generation middleIdx

/-- `Err(completed)` is `none`. -/
def tryPublishNow (completed : AlignedBuffer) :
    Prog (TripleState w T W) (Option (Option AlignedBuffer)) := do
  let free ← middleFree
  if free then do
    let next ← writerPublishNow completed
    pure (some next)
  else pure none

def tryTakeNow (previous : Option AlignedBuffer) :
    Prog (TripleState w T W) (Option (Option AlignedBuffer)) := do
  let unread ← hasUnread
  if unread then do
    let buf ← readerTakeNow previous
    pure (some buf)
  else pure none

/-- `Ok(next)`, unless the call panicked: the caller has the next buffer. -/
def publishReturns : Option AlignedBuffer → Prog (TripleState w T W) PUnit
  | none => store fun s => { s with writerOut := some .panicked }
  | some next => store fun s => { s with
      writer := { s.writer with hand := some next, future := false }
      writerOut := some (.published next)
      confirmed := s.confirmed ++ [s.offer] }

def takeReturns : Option AlignedBuffer → Prog (TripleState w T W) PUnit
  | none => store fun s => { s with readerOut := some .panicked }
  | some buf => store fun s => { s with
      reader := { s.reader with hand := some buf, future := false }
      readerOut := some (.taken buf)
      delivered := s.delivered ++ [(s.heap buf.ptr, buf.len)] }

def tryPublish (buf : AlignedBuffer) : Prog (TripleState w T W) PUnit := do
  match ← tryPublishNow buf with
  | some next => publishReturns next
  | none => store fun s => { s with
      writer := { s.writer with hand := some buf }
      writerOut := some .refused }

def tryNext (previous : Option AlignedBuffer) : Prog (TripleState w T W) PUnit := do
  match ← tryTakeNow previous with
  | some buf => takeReturns buf
  | none => store fun s => { s with
      reader := { s.reader with hand := previous }
      readerOut := some .refused }

def armWriter (waker : W) : Prog (TripleState w T W) PUnit :=
  (SlotUse.arm waker).zoom (·.writerSlot) fun s x => { s with writerSlot := x }

def armReader (waker : W) : Prog (TripleState w T W) PUnit :=
  (SlotUse.arm waker).zoom (·.readerSlot) fun s x => { s with readerSlot := x }

/-- `WriterPublish::poll`, with the buffer taken from the handle -/
def pollPublish (waker : W) (buf : AlignedBuffer) : Prog (TripleState w T W) PUnit := do
  match ← tryPublishNow buf with
  | some next => publishReturns next
  | none => do
    armWriter waker
    match ← tryPublishNow buf with
    | some none => publishReturns none
    | some (some next) => do
      store fun s => { s with writerSlot := s.writerSlot.disarm }
      publishReturns (some next)
    | none => store fun s => { s with
        writer := { s.writer with held := some buf }
        writerOut := some .pending }

/-- `ReaderNext::poll` -/
def pollNext (waker : W) (previous : Option AlignedBuffer) : Prog (TripleState w T W) PUnit := do
  match ← tryTakeNow previous with
  | some buf => takeReturns buf
  | none => do
    armReader waker
    match ← tryTakeNow previous with
    | some none => takeReturns none
    | some (some buf) => do
      store fun s => { s with readerSlot := s.readerSlot.disarm }
      takeReturns (some buf)
    | none => store fun s => { s with
        reader := { s.reader with held := previous }
        readerOut := some .pending }

end Programs

inductive TripleOp (T W : Type) where
  | fill (contents : List T) (len : Nat)
  | tryPublish
  | publish
  | pollPublish (waker : W)
  /-- `give` tells whether the caller passes the buffer in its hand, or `None` -/
  | tryNext (give : Bool)
  | next (give : Bool)
  | pollNext (waker : W)
  | cancel
  | takeHeldBuffer

section Calls

variable {w : Nat} {T W : Type} [Waker W] (cap : Nat)

/-- The owner of a buffer writes it at will. -/
def fillHand (hand : Option AlignedBuffer) (contents : List T) (len : Nat)
    (s : TripleState w T W) : Option (TripleState w T W × AlignedBuffer) :=
  match hand with
  | none => none
  | some buf =>
    if contents.length = cap ∧ len ≤ cap then
      some ({ s with heap := Function.update s.heap buf.ptr contents }, { buf with len := len })
    else none

def writerCall (op : TripleOp T W) (s : TripleState w T W) :
    Option (TripleState w T W × Prog (TripleState w T W) PUnit) :=
  match s.writer.future, op with
  | true, .pollPublish waker =>
    match s.writer.held with
    | none => none
    | some buf => some ({ s with
        writer := { s.writer with held := none }
        writerSlot := s.writerSlot.beginPoll waker }, pollPublish waker buf)
  | true, .cancel => some ({ s with
      writer := { s.writer with future := false }
      writerSlot := s.writerSlot.leave }, pure ⟨⟩)
  | false, .fill contents len =>
    (fillHand cap s.writer.hand contents len s).map fun r =>
      ({ r.1 with writer := { s.writer with hand := some r.2 } }, pure ⟨⟩)
  | false, .tryPublish =>
    s.writer.hand.map fun buf =>
      ({ s with
        writer := { s.writer with hand := none }
        offer := (s.heap buf.ptr, buf.len) }, tryPublish buf)
  | false, .publish =>
    match s.writer.hand, s.writer.held with
    | some buf, none => some ({ s with
        writer := ⟨none, some buf, true⟩
        offer := (s.heap buf.ptr, buf.len) }, pure ⟨⟩)
    | _, _ => none
  | false, .takeHeldBuffer =>
    match s.writer.hand with
    | none => some ({ s with writer := ⟨s.writer.held, none, false⟩ }, pure ⟨⟩)
    | some _ => none
  | _, _ => none

/-- `previous` as the caller passes it, and what stays in its hand. -/
def passed (give : Bool) (hand : Option AlignedBuffer) :
    Option AlignedBuffer × Option AlignedBuffer :=
  if give then (hand, none) else (none, hand)

def readerCall (op : TripleOp T W) (s : TripleState w T W) :
    Option (TripleState w T W × Prog (TripleState w T W) PUnit) :=
  match s.reader.future, op with
  | true, .pollNext waker => some ({ s with
      reader := { s.reader with held := none }
      readerSlot := s.readerSlot.beginPoll waker }, pollNext waker s.reader.held)
  | true, .cancel => some ({ s with
      reader := { s.reader with future := false }
      readerSlot := s.readerSlot.leave }, pure ⟨⟩)
  | false, .fill contents len =>
    (fillHand cap s.reader.hand contents len s).map fun r =>
      ({ r.1 with reader := { s.reader with hand := some r.2 } }, pure ⟨⟩)
  | false, .tryNext give =>
    some ({ s with reader := { s.reader with hand := (passed give s.reader.hand).2 } },
      tryNext (passed give s.reader.hand).1)
  | false, .next give =>
    match (passed give s.reader.hand).1, s.reader.held with
    | none, held => some ({ s with reader := ⟨(passed give s.reader.hand).2, held, true⟩ }, pure ⟨⟩)
    | some buf, none =>
      some ({ s with reader := ⟨(passed give s.reader.hand).2, some buf, true⟩ }, pure ⟨⟩)
    | some _, some _ => none
  | false, .takeHeldBuffer =>
    match s.reader.hand with
    | none => some ({ s with reader := ⟨s.reader.held, none, false⟩ }, pure ⟨⟩)
    | some _ => none
  | _, _ => none

/-- The caller's contract: it passes back the buffer it last received, `None` only while it has
received none, and it recovers the buffer of a cancelled future before its next call. -/
def passesBack (s : TripleState w T W) : TripleSide → TripleOp T W → Bool
  | .reader, .tryNext give => s.reader.held.isNone && give == s.reader.hand.isSome
  | .reader, .next give => s.reader.held.isNone && give == s.reader.hand.isSome
  | _, _ => true

/-- The caller passes back the buffer it has in hand, whatever its handle holds. -/
def passesHand (s : TripleState w T W) : TripleSide → TripleOp T W → Bool
  | .reader, .tryNext give => give == s.reader.hand.isSome
  | .reader, .next give => give == s.reader.hand.isSome
  | _, _ => true

/-- It also calls `try_next` only while the handle holds no buffer of a cancelled future. -/
def sparesHeld (s : TripleState w T W) : TripleSide → TripleOp T W → Bool
  | .reader, .tryNext give => s.reader.held.isNone && give == s.reader.hand.isSome
  | side, op => passesHand s side op

def tripleCall (contract : TripleState w T W → TripleSide → TripleOp T W → Bool) (side : TripleSide)
    (op : TripleOp T W) (s : TripleState w T W) :
    Option (TripleState w T W × Prog (TripleState w T W) PUnit) :=
  if contract s side op then
    match side with
    | .writer => writerCall cap op s
    | .reader => readerCall cap op s
  else none

def tripleThreads [Inhabited T] (contract : TripleState w T W → TripleSide → TripleOp T W → Bool) :
    Threads (TripleState w T W) TripleSide (TripleOp T W) PUnit where
  init := .init cap
  start := tripleCall cap contract
  resume _ _ := none

end Calls

end Cynosure.SiteD
