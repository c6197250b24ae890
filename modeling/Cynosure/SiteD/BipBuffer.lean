import Mathlib.Data.BitVec
import Cynosure.Lib.Threads
import Cynosure.SiteD.SlotProg

/-! # The bip buffer

The two handles are threads of the system, and so is every grant, since a grant may be
committed or released on another thread while the handle that gave it out goes on.
Cursors are positions in the buffer; the epoch is a word of `w` bits. Fields from
`ticks` on record what happened and are read by no program, except that `bytes` of a
write grant is the slice its owner writes through.
-/

namespace Cynosure.SiteD

open Prog

inductive BipParty where
  | producer
  | consumer
  | write (g : Nat)
  | read (g : Nat)
  deriving DecidableEq, Repr

structure WriteGrant where
  start : Nat
  len : Nat
  handedBack : Bool
  bytes : List UInt8
  deriving DecidableEq, Repr

structure ReadGrant where
  start : Nat
  len : Nat
  handedBack : Bool
  deriving DecidableEq, Repr

structure BipState (w : Nat) (W : Type) where
  buf : Nat → UInt8
  write : Nat
  read : Nat
  last : Nat
  epoch : BitVec w
  wip : Bool
  rip : Bool
  data : SlotUse W BipParty
  space : SlotUse W BipParty
  writeGrants : Nat → Option WriteGrant
  readGrants : Nat → Option ReadGrant
  nextGrant : Nat
  /-- the live `Reserve` and `Read` futures -/
  reserving : Option Nat
  reading : Bool
  /-- the grant that the last `try_reserve` or `try_read` returned -/
  reserved : Option (Option Nat)
  taken : Option (Option Nat)
  ticks : Nat
  writer : Option Nat
  reader : Option Nat
  committed : List UInt8
  released : List UInt8
  /-- what the calls of `commit` and of `release` were given to hand over -/
  commitLog : List UInt8
  releaseLog : List UInt8
  faulted : Bool

def region (buf : Nat → UInt8) (start len : Nat) : List UInt8 :=
  (List.range len).map fun i => buf (start + i)

namespace BipState

variable {w : Nat} {W : Type}

def init (cap : Nat) : BipState w W where
  buf := fun _ => 0
  write := 0
  read := 0
  last := cap
  epoch := 0
  wip := false
  rip := false
  data := .new
  space := .new
  writeGrants := fun _ => none
  readGrants := fun _ => none
  nextGrant := 0
  reserving := none
  reading := false
  reserved := none
  taken := none
  ticks := 0
  writer := none
  reader := none
  committed := []
  released := []
  commitLog := []
  releaseLog := []
  faulted := false

/-- The bytes the cursors delimit. While the epoch is odd they delimit nothing: the producer
is moving the cursors of a drained buffer. -/
def unread (s : BipState w W) : List UInt8 :=
  if s.epoch &&& 1 = 1 then []
  else if s.write < s.read then region s.buf s.read (s.last - s.read) ++ region s.buf 0 s.write
  else region s.buf s.read (s.write - s.read)

def bumpEpoch (s : BipState w W) : BipState w W :=
  { s with epoch := s.epoch + 1, ticks := s.ticks + 1 }

def grantWrite (start len : Nat) (s : BipState w W) : BipState w W :=
  { s with
    wip := true
    writer := some s.nextGrant
    writeGrants := Function.update s.writeGrants s.nextGrant
      (some ⟨start, len, false, region s.buf start len⟩)
    nextGrant := s.nextGrant + 1 }

def grantRead (start len : Nat) (s : BipState w W) : BipState w W :=
  { s with
    rip := true
    reader := some s.nextGrant
    readGrants := Function.update s.readGrants s.nextGrant (some ⟨start, len, false⟩)
    nextGrant := s.nextGrant + 1 }

/-- `as_mut_slice()[i] = b` -/
def writeByte (g i : Nat) (b : UInt8) (e : WriteGrant) (s : BipState w W) : BipState w W :=
  { s with
    buf := Function.update s.buf (e.start + i) b
    writeGrants := Function.update s.writeGrants g (some { e with bytes := e.bytes.set i b }) }

/-- A call that consumes grant `g`, which nobody can name any more, to commit `bytes`. -/
def handBackWrite (g : Nat) (e : WriteGrant) (bytes : List UInt8) (s : BipState w W) :
    BipState w W :=
  { s with
    writeGrants := Function.update s.writeGrants g (some { e with handedBack := true })
    commitLog := s.commitLog ++ bytes }

def handBackRead (g : Nat) (e : ReadGrant) (bytes : List UInt8) (s : BipState w W) : BipState w W :=
  { s with
    readGrants := Function.update s.readGrants g (some { e with handedBack := true })
    releaseLog := s.releaseLog ++ bytes }

/-- `write.store(start + used)` of the commit of grant `g`, which ends its region -/
def publishCommit (g : Nat) (e : WriteGrant) (used : Nat) (s : BipState w W) : BipState w W :=
  { s with
    write := e.start + used
    data := s.data.beginSignal (.write g)
    writeGrants := Function.update s.writeGrants g none
    committed := s.committed ++ e.bytes.take used }

/-- `wip.store(false)` of the commit of grant `g` -/
def clearWip (g : Nat) (s : BipState w W) : BipState w W :=
  { s with
    wip := false
    space := s.space.beginSignal (.write g)
    writer := none }

/-- `wip.swap(false)` of the drop of grant `g`, which signals only if the flag was set -/
def swapWip (g : Nat) (s : BipState w W) : BipState w W :=
  { s with
    wip := false
    space := if s.wip then s.space.beginSignal (.write g) else s.space
    writer := none
    writeGrants := Function.update s.writeGrants g none }

def publishRelease (g : Nat) (e : ReadGrant) (read used : Nat) (s : BipState w W) : BipState w W :=
  { s with
    read := read + used
    space := s.space.beginSignal (.read g)
    readGrants := Function.update s.readGrants g none
    released := s.released ++ region s.buf e.start used }

def clearRip (g : Nat) (s : BipState w W) : BipState w W :=
  { s with
    rip := false
    data := s.data.beginSignal (.read g)
    reader := none
    readGrants := Function.update s.readGrants g none }

end BipState

/-- Where a call of `try_read` came from. -/
inductive ReadCtx (W : Type) where
  | tryRead
  | poll (waker : W)
  | recheck

/-- How a program of the consumer goes on: it is done, or it enters `try_read`, or it stays in
the loop that loads the cursors. -/
inductive BipNext (W : Type) where
  | done
  | enter (ctx : ReadCtx W)
  | retry (ctx : ReadCtx W)

section Programs

variable {w : Nat} {W : Type} [Waker W] (cap : Nat)

/-- An index computation that must stay in range. -/
def check (ok : Bool) : Prog (BipState w W) PUnit :=
  store fun s => { s with faulted := s.faulted || !ok }

def signalSpace (party : BipParty) : Prog (BipState w W) PUnit :=
  (SlotUse.signal party).zoom (·.space) fun s x => { s with space := x }

def signalData (party : BipParty) : Prog (BipState w W) PUnit :=
  (SlotUse.signal party).zoom (·.data) fun s x => { s with data := x }

/-- The reset of a drained buffer, between two odd-even steps of the epoch. -/
def canonicalize (read write : Nat) : Prog (BipState w W) (Nat × Nat) :=
  if read = write ∧ write ≠ 0 then do
    store BipState.bumpEpoch
    store fun s => { s with read := 0 }
    store fun s => { s with write := 0 }
    store fun s => { s with last := cap }
    store BipState.bumpEpoch
    pure (0, 0)
  else pure (read, write)

def placement (n read write : Nat) : Option Nat :=
  if write < read then
    if n < read - write then some write else none
  else if n ≤ cap - write then some write
  else if n < read then some 0
  else none

def takeWip (start n : Nat) : Prog (BipState w W) (Option Nat) := do
  let g ← exchange (·.nextGrant) (BipState.grantWrite start n)
  pure (some g)

def place (n : Nat) (cursors : Nat × Nat) : Prog (BipState w W) (Option Nat) := do
  check (decide (cursors.2 ≤ cap))
  match placement cap n cursors.1 cursors.2 with
  | none => pure none
  | some start => takeWip start n

/-- The identity of the grant, whose entry in the state holds `start` and `len`. -/
def tryReserve (n : Nat) : Prog (BipState w W) (Option Nat) := do
  let wip ← load (·.wip)
  if wip then pure none
  else if cap < n then pure none
  else do
    let read ← load (·.read)
    let write ← load (·.write)
    let cursors ← canonicalize cap read write
    place cap n cursors

/-- The watermark of a wrapped commit. -/
def storeLast (start write : Nat) : Prog (BipState w W) PUnit :=
  if start = 0 ∧ write ≠ 0 then store fun s => { s with last := write } else pure ⟨⟩

def commit (g : Nat) (e : WriteGrant) (used : Nat) : Prog (BipState w W) PUnit := do
  let write ← load (·.write)
  storeLast e.start write
  check (decide (e.start + min used e.len ≤ cap))
  store (BipState.publishCommit g e (min used e.len))
  store (BipState.clearWip g)
  signalSpace (.write g)
  signalData (.write g)

def dropWrite (g : Nat) : Prog (BipState w W) PUnit := do
  let wip ← exchange (·.wip) (BipState.swapWip g)
  if wip then signalSpace (.write g) else pure ⟨⟩

/-- One round of the loop that loads the cursors. -/
def snapshot : Prog (BipState w W) (Option (Nat × Nat × Nat)) := do
  let e1 ← load (·.epoch)
  if e1 &&& 1 = 1 then pure none
  else do
    let write ← load (·.write)
    let read ← load (·.read)
    let last ← load (·.last)
    let e2 ← load (·.epoch)
    if e2 = e1 then pure (some (write, read, last)) else pure none

def wrapRead (write read last : Nat) : Prog (BipState w W) Nat :=
  if write < read ∧ read = last then do
    store fun s => { s with read := 0, space := s.space.beginSignal .consumer }
    signalSpace .consumer
    pure 0
  else pure read

def takeRip (start len : Nat) : Prog (BipState w W) (Option Nat) := do
  let g ← exchange (·.nextGrant) (BipState.grantRead start len)
  pure (some g)

def availEnd (write read last : Nat) : Nat := if write < read then last else write

def claimRead (write read last : Nat) : Prog (BipState w W) (Option Nat) := do
  check (decide (read ≤ availEnd write read last))
  if availEnd write read last - read = 0 then pure none
  else takeRip read (availEnd write read last - read)

def release (g : Nat) (e : ReadGrant) (used : Nat) : Prog (BipState w W) PUnit := do
  let read ← load (·.read)
  check (decide (read + min used e.len ≤ cap))
  store (BipState.publishRelease g e read (min used e.len))
  store (BipState.clearRip g)
  signalData (.read g)
  signalSpace (.read g)

def dropRead (g : Nat) : Prog (BipState w W) PUnit := do
  store (BipState.clearRip g)
  signalData (.read g)

def reserveReturns (out : Option Nat) : Prog (BipState w W) PUnit :=
  store fun s => { s with reserved := some out }

def reserveReady (out : Option Nat) : Prog (BipState w W) PUnit :=
  store fun s => { s with reserved := some out, reserving := none }

def readReturns (out : Option Nat) : Prog (BipState w W) PUnit :=
  store fun s => { s with taken := some out }

def readReady (out : Option Nat) : Prog (BipState w W) PUnit :=
  store fun s => { s with taken := some out, reading := false }

def armSpace (waker : W) : Prog (BipState w W) PUnit :=
  (SlotUse.arm waker).zoom (·.space) fun s x => { s with space := x }

def armData (waker : W) : Prog (BipState w W) PUnit :=
  (SlotUse.arm waker).zoom (·.data) fun s x => { s with data := x }

def disarmSpace : Prog (BipState w W) PUnit := store fun s => { s with space := s.space.disarm }

def disarmData : Prog (BipState w W) PUnit := store fun s => { s with data := s.data.disarm }

/-- `Reserve::poll` -/
def pollReserve (n : Nat) (waker : W) : Prog (BipState w W) PUnit := do
  match ← tryReserve cap n with
  | some g => reserveReady (some g)
  | none => do
    armSpace waker
    match ← tryReserve cap n with
    | some g => do
      disarmSpace
      reserveReady (some g)
    | none => reserveReturns none

/-- What follows `try_read` in `Consumer::try_read` and in the two places of `Read::poll`. -/
def afterRead : ReadCtx W → Option Nat → Prog (BipState w W) (BipNext W)
  | .tryRead, out => do
    readReturns out
    pure .done
  | .poll _, some g => do
    readReady (some g)
    pure .done
  | .poll waker, none => do
    armData waker
    pure (.enter .recheck)
  | .recheck, some g => do
    disarmData
    readReady (some g)
    pure .done
  | .recheck, none => do
    readReturns none
    pure .done

def finishRead (ctx : ReadCtx W) (write read last : Nat) : Prog (BipState w W) (BipNext W) := do
  let read ← wrapRead write read last
  let out ← claimRead write read last
  afterRead ctx out

def readLoop (ctx : ReadCtx W) : Prog (BipState w W) (BipNext W) := do
  match ← snapshot with
  | none => pure (.retry ctx)
  | some (write, read, last) => finishRead ctx write read last

def tryRead (ctx : ReadCtx W) : Prog (BipState w W) (BipNext W) := do
  let rip ← load (·.rip)
  if rip then afterRead ctx none else readLoop ctx

def thenDone (p : Prog (BipState w W) PUnit) : Prog (BipState w W) (BipNext W) := do
  p
  pure .done

end Programs

inductive BipOp (W : Type) where
  | tryReserve (n : Nat)
  | reserve (n : Nat)
  | pollReserve (waker : W)
  | cancelReserve
  | tryRead
  | read
  | pollRead (waker : W)
  | cancelRead
  | writeByte (i : Nat) (b : UInt8)
  | commit (used : Nat)
  | dropWrite
  | release (used : Nat)
  | dropRead

section Calls

variable {w : Nat} {W : Type} [Waker W] (cap : Nat)

/-- Each party's calls. A future borrows its handle, and a grant that was handed back can no
longer be named. `reserve` of more than the capacity panics. -/
def bipCall (party : BipParty) (op : BipOp W) (s : BipState w W) :
    Option (BipState w W × Prog (BipState w W) (BipNext W)) :=
  match party with
  | .producer =>
    match s.reserving, op with
    | none, .tryReserve n => some (s, do
        let out ← tryReserve cap n
        thenDone (reserveReturns out))
    | none, .reserve n =>
      if n ≤ cap then some ({ s with reserving := some n }, pure .done) else none
    | some n, .pollReserve waker =>
      some ({ s with space := s.space.beginPoll waker }, thenDone (pollReserve cap n waker))
    | some _, .cancelReserve =>
      some ({ s with reserving := none, space := s.space.leave }, pure .done)
    | _, _ => none
  | .consumer =>
    match s.reading, op with
    | false, .tryRead => some (s, tryRead .tryRead)
    | false, .read => some ({ s with reading := true }, pure .done)
    | true, .pollRead waker =>
      some ({ s with data := s.data.beginPoll waker }, tryRead (.poll waker))
    | true, .cancelRead => some ({ s with reading := false, data := s.data.leave }, pure .done)
    | _, _ => none
  | .write g =>
    match s.writeGrants g with
    | none => none
    | some e =>
      if e.handedBack then none
      else match op with
        | .writeByte i b => if i < e.len then some (s.writeByte g i b e, pure .done) else none
        | .commit used => some (s.handBackWrite g e ((region s.buf e.start e.len).take used),
            thenDone (commit cap g e used))
        | .dropWrite => some (s.handBackWrite g e [], thenDone (dropWrite g))
        | _ => none
  | .read g =>
    match s.readGrants g with
    | none => none
    | some e =>
      if e.handedBack then none
      else match op with
        | .release used => some (s.handBackRead g e ((region s.buf e.start e.len).take used),
            thenDone (release cap g e used))
        | .dropRead => some (s.handBackRead g e [], thenDone (dropRead g))
        | _ => none

def bipThreads : Threads (BipState w W) BipParty (BipOp W) (BipNext W) where
  init := .init cap
  start := bipCall cap
  resume _
    | .done => none
    | .enter ctx => some (tryRead ctx)
    | .retry ctx => some (readLoop ctx)

end Calls

end Cynosure.SiteD
