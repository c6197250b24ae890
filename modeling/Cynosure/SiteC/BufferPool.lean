import Mathlib.Tactic
import Cynosure.SiteC.SemaphoreCalls

/-! # The buffer pool `LocalBufferPool`

The pool is a semaphore whose permits are buffers. A checkout takes a permit, forgets it
and pops a free buffer; the drop of a `PooledBuffer` pushes the buffer and then adds a
permit. A poll of `acquire` that was granted its permit runs callbacks before it pops, and
whatever these do with the pool, a free buffer is left for it.
-/

universe u v

namespace Cynosure.SiteC

/-- An `AlignedBuffer<T>`: its allocation, all the elements of its capacity, and its length. -/
structure PoolBuffer (T : Type u) where
  ptr : Nat
  cells : List T
  len : Nat
  deriving DecidableEq, Repr

/-- The pool, the futures of `acquire` and the live `PooledBuffer`s. A poll borrows its
future until it ends. -/
structure LocalBufferPool (T : Type u) (W : Type v) where
  free : List (PoolBuffer T)
  sem : LocalSemaphore W
  clearOnCheckout : Bool
  futs : Nat → Option (Option (Entry Nat W))
  polling : List Nat
  pooled : List (PoolBuffer T)
  /-- An `expect` of the pool or of its semaphore failed. -/
  broken : Bool

inductive BufferOp (T : Type u) (W : Type v) where
  | tryAcquire
  /-- `acquire()`: a future under an unused name. -/
  | acquire (f : Nat)
  | poll (f : Nat) (waker : W)
  | dropFuture (f : Nat)
  /-- Through `capacity_mut` of the `i`-th `PooledBuffer`. -/
  | write (i : Nat) (cells : List T)
  | setLen (i newLen : Nat)
  | dropBuffer (i : Nat)

inductive BufferOut (T : Type u) where
  | buffer (buf : PoolBuffer T)
  | exhausted
  | pending
  | done
  | panicked (msg : String)
  deriving DecidableEq, Repr

namespace LocalBufferPool

variable {T : Type u} {W : Type v}

def build [Zero T] (count bufSize : Nat) (clearOnCheckout : Bool) : LocalBufferPool T W where
  free := (List.range count).map fun ptr => ⟨ptr, List.replicate bufSize 0, 0⟩
  sem := .new count
  clearOnCheckout := clearOnCheckout
  futs := fun _ => none
  polling := []
  pooled := []
  broken := false

def setLen (buf : PoolBuffer T) (newLen : Nat) : Except String (PoolBuffer T) :=
  if newLen ≤ buf.cells.length then .ok { buf with len := newLen }
  else .error ("len " ++ toString newLen ++ " exceeds capacity " ++ toString buf.cells.length)

/-- What `check_out` does with the buffer that it popped. -/
def cleaned [Zero T] (clearOnCheckout : Bool) (buf : PoolBuffer T) : PoolBuffer T :=
  { buf with
    len := 0
    cells := if clearOnCheckout then List.replicate buf.cells.length 0 else buf.cells }

/-- A `Vec` pushes and pops at its end. -/
def checkOut [Zero T] (s : LocalBufferPool T W) : LocalBufferPool T W × BufferOut T :=
  match s.free.getLast? with
  | none => ({ s with broken := true }, .panicked "permit implies a free buffer")
  | some buf =>
    ({ s with free := s.free.dropLast, pooled := s.pooled ++ [cleaned s.clearOnCheckout buf] },
      .buffer (cleaned s.clearOnCheckout buf))

/-- A call ends without another callback. -/
def ends (r : LocalBufferPool T W × BufferOut T) :
    LocalBufferPool T W × Segment (SemFrame W) (BufferOut T) := (r.1, .done r.2)

def tryAcquire [Zero T] (s : LocalBufferPool T W) : LocalBufferPool T W × BufferOut T :=
  match s.sem.tryAcquireMany 1 with
  | none => (s, .exhausted)
  | some sem => checkOut { s with sem := sem }

/-- The poll of the semaphore's future stopped in a callback or ended. When it is `Ready` the
permit is forgotten and a buffer checked out. -/
def pollStopped [Zero T] (s : LocalBufferPool T W) (f : Nat) (waker : W) :
    Segment (PollFrame W) (PollEnd W) → LocalBufferPool T W × Segment (SemFrame W) (BufferOut T)
  | .callback at_ => (s, .callback (.poll f waker at_))
  | .done (.ready _) =>
    ends (checkOut { s with futs := Function.update s.futs f none, polling := s.polling.erase f })
  | .done (.pending slot) =>
    ({ s with futs := Function.update s.futs f (some slot), polling := s.polling.erase f },
      .done .pending)
  | .done .underflow => ({ s with broken := true }, .done (.panicked "subtract with overflow"))

def wakeLast (s : LocalBufferPool T W) (ws : List W) :
    LocalBufferPool T W × Segment (SemFrame W) (BufferOut T) :=
  (s, if ws.isEmpty then .done .done else .callback .waking)

/-- `Drop` of a `PooledBuffer`: the buffer first, then the permit. -/
def dropBuffer (width : Nat) (s : LocalBufferPool T W) (i : Nat) (buf : PoolBuffer T) :
    LocalBufferPool T W × Segment (SemFrame W) (BufferOut T) :=
  let s := { s with free := s.free ++ [buf], pooled := s.pooled.eraseIdx i }
  match s.sem.addPermits width 1 with
  | .error msg => ({ s with broken := true }, .done (.panicked msg))
  | .ok (sem, ws) => wakeLast { s with sem := sem } ws

/-- A use of the `i`-th `PooledBuffer`. -/
def useBuffer (s : LocalBufferPool T W) (i : Nat) (buf : PoolBuffer T) (out : BufferOut T) :
    LocalBufferPool T W × Segment (SemFrame W) (BufferOut T) :=
  ({ s with pooled := s.pooled.set i buf }, .done out)

variable [Waker W] [Zero T]

def enter (width : Nat) (s : LocalBufferPool T W) :
    BufferOp T W → Option (LocalBufferPool T W × Segment (SemFrame W) (BufferOut T))
  | .tryAcquire => some (ends s.tryAcquire)
  | .acquire f =>
    match s.futs f with
    | some _ => none
    | none => some ({ s with futs := Function.update s.futs f (some none) }, .done .done)
  | .poll f waker =>
    if f ∈ s.polling then none
    else (s.futs f).map fun slot =>
      pollStopped { s with sem := (s.sem.pollEnter 1 slot waker).1, polling := f :: s.polling } f waker
        (s.sem.pollEnter 1 slot waker).2
  | .dropFuture f =>
    if f ∈ s.polling then none
    else (s.futs f).map fun slot =>
      let s := { s with futs := Function.update s.futs f none }
      if slot.isSome then
        ({ s with sem := { s.sem with waiters := s.sem.waiters.deregister slot } },
          .callback .cancelling)
      else (s, .done .done)
  | .write i cells =>
    match s.pooled[i]? with
    | none => none
    | some buf =>
      if cells.length = buf.cells.length then some (s.useBuffer i { buf with cells := cells } .done)
      else none
  | .setLen i newLen =>
    (s.pooled[i]?).map fun buf =>
      match setLen buf newLen with
      | .error msg => s.useBuffer i buf (.panicked msg)
      | .ok buf => s.useBuffer i buf .done
  | .dropBuffer i => (s.pooled[i]?).map fun buf => s.dropBuffer width i buf

def resume (s : LocalBufferPool T W) :
    SemFrame W → LocalBufferPool T W × Segment (SemFrame W) (BufferOut T)
  | .poll f waker at_ =>
    pollStopped { s with sem := (s.sem.pollResume at_).1 } f waker (s.sem.pollResume at_).2.2
  | .cancelling => s.wakeLast s.sem.wakeNext
  | .waking => (s, .done .done)

end LocalBufferPool

/-- Every nesting of calls on one pool. -/
def poolCalls (T : Type u) (W : Type v) [Waker W] [Zero T] (width count bufSize : Nat)
    (clearOnCheckout : Bool) :
    Reentrant (LocalBufferPool T W) (BufferOp T W) (SemFrame W) (BufferOut T) where
  init := .build count bufSize clearOnCheckout
  enter s op := s.enter width op
  resume s frame := s.resume frame

namespace LocalBufferPool

variable {T : Type u} {W : Type v} {s : LocalBufferPool T W} {count bufSize c : Nat} {clear : Bool}

/-- With `c` permits granted to polls that have not checked out yet, there are as many more
free buffers than permits. Every buffer is free or in one `PooledBuffer`, and only once. -/
structure Sound (count bufSize : Nat) (clear : Bool) (c : Nat) (s : LocalBufferPool T W) : Prop where
  free_eq : s.free.length = s.sem.permits + c
  once : ((s.free ++ s.pooled).map PoolBuffer.ptr).Perm (List.range count)
  size : ∀ buf ∈ s.free ++ s.pooled, buf.cells.length = bufSize
  clears : s.clearOnCheckout = clear
  whole : s.broken = false

theorem sound_build [Zero T] (count bufSize : Nat) (clear : Bool) :
    Sound count bufSize clear 0 (build count bufSize clear : LocalBufferPool T W) where
  free_eq := by simp [build, LocalSemaphore.new]
  once := by simp [build, Function.comp_def]
  size := by simp [build]
  clears := rfl
  whole := rfl

/-- Only the semaphore and the futures change, with the permits. -/
theorem Sound.of_permits {t : LocalBufferPool T W} {d : Nat} (h : Sound count bufSize clear c s)
    (hfree : t.free = s.free) (hpooled : t.pooled = s.pooled)
    (hclear : t.clearOnCheckout = s.clearOnCheckout) (hbroken : t.broken = s.broken)
    (hpermits : t.sem.permits + d = s.sem.permits + c) : Sound count bufSize clear d t where
  free_eq := by rw [hfree, h.free_eq, hpermits]
  once := by rw [hfree, hpooled]; exact h.once
  size := by rw [hfree, hpooled]; exact h.size
  clears := by rw [hclear, h.clears]
  whole := by rw [hbroken, h.whole]

/-- How a buffer is handed out. -/
def Clean [Zero T] (bufSize : Nat) (clear : Bool) (buf : PoolBuffer T) : Prop :=
  buf.len = 0 ∧ buf.cells.length = bufSize ∧ (clear = true → buf.cells = List.replicate bufSize 0)

theorem cleaned_clean [Zero T] {buf : PoolBuffer T} (h : buf.cells.length = bufSize) :
    Clean bufSize clear (cleaned clear buf) := by
  refine ⟨rfl, ?_, fun hc => ?_⟩
  · cases clear <;> simp [cleaned, h]
  · simp [cleaned, hc, h]

/-- A granted permit finds a free buffer, and the buffer moves into a `PooledBuffer`. -/
theorem Sound.checkOut [Zero T] (h : Sound count bufSize clear (1 + c) s) :
    ∃ buf, s.checkOut.2 = .buffer buf ∧ Clean bufSize clear buf ∧
      Sound count bufSize clear c s.checkOut.1 := by
  have hlen := h.free_eq
  rcases s.free.eq_nil_or_concat' with hnil | ⟨front, buf, hfree⟩
  · rw [hnil, List.length_nil] at hlen
    omega
  · have hcheck : s.checkOut = ({ s with free := front, pooled := s.pooled ++ [cleaned clear buf] },
        .buffer (cleaned clear buf)) := by
      simp [LocalBufferPool.checkOut, hfree, h.clears]
    have hclean : Clean bufSize clear (cleaned clear buf) :=
      cleaned_clean (h.size buf (by simp [hfree]))
    rw [hcheck]
    refine ⟨_, rfl, hclean, ?_, ?_, ?_, h.clears, h.whole⟩
    · rw [hfree, List.length_append, List.length_singleton] at hlen
      simp only
      omega
    · -- The buffer leaves the end of the free list and comes behind the pooled ones.
      have hmove : ((front ++ [buf] ++ s.pooled).map PoolBuffer.ptr).Perm
          ((front ++ (s.pooled ++ [cleaned clear buf])).map PoolBuffer.ptr) := by
        simp only [List.map_append, List.map_cons, List.map_nil, List.append_assoc]
        exact List.perm_append_comm.append_left _
      have honce := h.once
      rw [hfree] at honce
      exact hmove.symm.trans honce
    · intro b hb
      simp only [List.mem_append, List.mem_singleton] at hb
      rcases hb with hb | hb | rfl
      · exact h.size b (by simp [hfree, hb])
      · exact h.size b (by simp [hb])
      · exact hclean.2.1

/-- The polls of `acquire` ask for one permit each. -/
def AsksOne : SemFrame W → Prop
  | .poll _ _ at_ => at_.request = 1
  | .cancelling => True
  | .waking => True

/-- Where a part of a call leads: the pool is sound with what the part left in flight, and a
buffer that it hands out is clean. -/
structure Lands [Zero T] (count bufSize : Nat) (clear : Bool) (c : Nat)
    (r : LocalBufferPool T W × Segment (SemFrame W) (BufferOut T)) : Prop where
  sound : Sound count bufSize clear (r.2.carried SemFrame.permits + c) r.1
  frames : ∀ frame ∈ r.2.frames, AsksOne frame
  clean : ∀ buf, r.2 = .done (.buffer buf) → Clean bufSize clear buf

variable [Zero T]

theorem lands_done {out : BufferOut T} (h : Sound count bufSize clear c s)
    (hout : ∀ buf, out = .buffer buf → Clean bufSize clear buf) :
    Lands count bufSize clear c (s, .done out) where
  sound := by rwa [Segment.carried_done, Nat.zero_add]
  frames := by simp [Segment.frames]
  clean buf heq := by
    cases heq
    exact hout buf rfl

theorem lands_callback {frame : SemFrame W} (hframe : AsksOne frame)
    (h : Sound count bufSize clear (frame.permits + c) s) :
    Lands count bufSize clear c (s, .callback frame) where
  sound := by rwa [Segment.carried_callback]
  frames := by simpa [Segment.frames] using hframe
  clean buf heq := by cases heq

theorem lands_checkOut (h : Sound count bufSize clear (1 + c) s) :
    Lands count bufSize clear c (ends s.checkOut) := by
  obtain ⟨buf, hout, hclean, hsound⟩ := h.checkOut
  refine lands_done hsound fun buf' heq => ?_
  cases hout.symm.trans heq
  exact hclean

theorem lands_wakeLast (h : Sound count bufSize clear c s) (ws : List W) :
    Lands count bufSize clear c (s.wakeLast ws) := by
  unfold wakeLast
  split
  · exact lands_done h fun buf heq => (by cases heq)
  · exact lands_callback trivial (by rwa [SemFrame.permits, Nat.zero_add])

theorem lands_pollStopped {f available : Nat} {waker : W}
    {r : LocalSemaphore W × Segment (PollFrame W) (PollEnd W)}
    (htrade : LocalSemaphore.Trades 1 available r) (hsem : s.sem = r.1)
    (h : ∀ d, s.sem.permits + d = available + c → Sound count bufSize clear d s) :
    Lands count bufSize clear c (s.pollStopped f waker r.2) := by
  obtain ⟨sem, stopped⟩ := r
  cases stopped with
  | callback at_ =>
    obtain ⟨hone, hsum⟩ := htrade.callback at_ rfl
    refine lands_callback hone (h _ ?_)
    simp only [SemFrame.permits, hsem] at hsum ⊢
    omega
  | done ended =>
    have hsum := htrade.done ended rfl
    cases ended with
    | ready n =>
      cases htrade.ready n rfl
      refine lands_checkOut ((h (1 + c) ?_).of_permits rfl rfl rfl rfl rfl)
      simp only [PollEnd.permits, hsem] at hsum ⊢
      omega
    | pending slot =>
      refine lands_done ((h c ?_).of_permits rfl rfl rfl rfl rfl) fun buf heq => (by cases heq)
      simp only [PollEnd.permits, hsem] at hsum ⊢
      omega
    | underflow => exact absurd rfl htrade.no_underflow

/-- The permit that comes back fits: the pool never had more than `count` of them. -/
theorem lands_dropBuffer {width i : Nat} {buf : PoolBuffer T} (hcount : count < 2 ^ width)
    (h : Sound count bufSize clear c s) (hi : s.pooled[i]? = some buf) :
    Lands count bufSize clear c (s.dropBuffer width i buf) := by
  obtain ⟨hlt, rfl⟩ := List.getElem?_eq_some_iff.mp hi
  have hperm := List.getElem_cons_eraseIdx_perm hlt
  have hfits : s.sem.permits + 1 < 2 ^ width := by
    have hfree := h.free_eq
    have hlen := h.once.length_eq
    simp only [List.length_map, List.length_append, List.length_range] at hlen
    omega
  have hadd : s.sem.addPermits width 1 = .ok ({ s.sem with permits := s.sem.permits + 1 },
      if s.sem.waiters.isEmpty then [] else
        ({ s.sem with permits := s.sem.permits + 1 } : LocalSemaphore W).wakeNext) := by
    simp only [LocalSemaphore.addPermits, LocalSemaphore.bumpPermits, if_pos hfits]
    rfl
  simp only [dropBuffer, hadd]
  apply lands_wakeLast
  refine ⟨?_, ?_, ?_, h.clears, h.whole⟩
  · have := h.free_eq
    simp only [List.length_append, List.length_singleton]
    omega
  · refine List.Perm.trans (List.Perm.map _ ?_) h.once
    rw [List.append_assoc]
    exact hperm.append_left _
  · intro b hb
    rw [List.append_assoc] at hb
    exact h.size b ((hperm.append_left _).mem_iff.mp hb)

theorem lands_useBuffer {i : Nat} {buf buf' : PoolBuffer T} {out : BufferOut T}
    (h : Sound count bufSize clear c s) (hi : s.pooled[i]? = some buf) (hptr : buf'.ptr = buf.ptr)
    (hsize : buf'.cells.length = buf.cells.length) (hout : ∀ b, out ≠ .buffer b) :
    Lands count bufSize clear c (s.useBuffer i buf' out) := by
  obtain ⟨hlt, rfl⟩ := List.getElem?_eq_some_iff.mp hi
  refine lands_done ⟨h.free_eq, ?_, ?_, h.clears, h.whole⟩ fun b heq => absurd heq (hout b)
  · have hsame : (s.pooled.set i buf').map PoolBuffer.ptr = s.pooled.map PoolBuffer.ptr := by
      rw [List.map_set, hptr, ← List.getElem_map PoolBuffer.ptr (h := by simpa using hlt),
        List.set_getElem_self]
    rw [List.map_append, hsame, ← List.map_append]
    exact h.once
  · intro b hb
    rcases List.mem_append.mp hb with hb | hb
    · exact h.size b (List.mem_append_left _ hb)
    · rcases List.mem_or_eq_of_mem_set hb with hb | rfl
      · exact h.size b (List.mem_append_right _ hb)
      · rw [hsize]
        exact h.size _ (List.mem_append_right _ (List.getElem_mem hlt))

theorem Sound.resume {frame : SemFrame W} (hframe : AsksOne frame)
    (h : Sound count bufSize clear (frame.permits + c) s) :
    Lands count bufSize clear c (s.resume frame) := by
  cases frame with
  | poll f waker at_ =>
    have htrade := s.sem.pollResume_trades at_
    rw [show at_.request = 1 from hframe] at htrade
    refine lands_pollStopped htrade rfl fun d hd => h.of_permits rfl rfl rfl rfl ?_
    simp only [SemFrame.permits] at hd ⊢
    omega
  | cancelling =>
    rw [SemFrame.permits, Nat.zero_add] at h
    exact lands_wakeLast h _
  | waking =>
    rw [SemFrame.permits, Nat.zero_add] at h
    exact lands_done h fun buf heq => (by cases heq)

variable [Waker W]

theorem Sound.enter {width : Nat} {op : BufferOp T W} (hcount : count < 2 ^ width)
    {r : LocalBufferPool T W × Segment (SemFrame W) (BufferOut T)}
    (h : Sound count bufSize clear c s) (henter : s.enter width op = some r) :
    Lands count bufSize clear c r := by
  cases op with
  | tryAcquire =>
    cases henter
    unfold tryAcquire LocalSemaphore.tryAcquireMany
    split_ifs with hone
    · refine lands_checkOut (h.of_permits rfl rfl rfl rfl ?_)
      simp only
      omega
    · exact lands_done h fun buf heq => (by cases heq)
  | acquire f =>
    simp only [LocalBufferPool.enter] at henter
    split at henter
    · cases henter
    · cases henter
      exact lands_done (h.of_permits rfl rfl rfl rfl rfl) fun buf heq => (by cases heq)
  | poll f waker =>
    simp only [LocalBufferPool.enter] at henter
    split at henter
    · cases henter
    · obtain ⟨slot, -, rfl⟩ := Option.map_eq_some_iff.mp henter
      exact lands_pollStopped (s.sem.pollEnter_trades 1 slot waker) rfl fun d hd =>
        h.of_permits rfl rfl rfl rfl hd
  | dropFuture f =>
    simp only [LocalBufferPool.enter] at henter
    split at henter
    · cases henter
    · obtain ⟨slot, -, rfl⟩ := Option.map_eq_some_iff.mp henter
      split
      · apply lands_callback (show AsksOne (SemFrame.cancelling : SemFrame W) from trivial)
        rw [SemFrame.permits, Nat.zero_add]
        exact h.of_permits rfl rfl rfl rfl rfl
      · exact lands_done (h.of_permits rfl rfl rfl rfl rfl) fun buf heq => (by cases heq)
  | write i cells =>
    simp only [LocalBufferPool.enter] at henter
    split at henter
    · cases henter
    · rename_i buf hi
      split at henter
      · rename_i hsize
        cases henter
        exact lands_useBuffer h hi rfl hsize fun b heq => (by cases heq)
      · cases henter
  | setLen i newLen =>
    simp only [LocalBufferPool.enter] at henter
    obtain ⟨buf, hi, rfl⟩ := Option.map_eq_some_iff.mp henter
    unfold LocalBufferPool.setLen
    split_ifs
    · exact lands_useBuffer h hi rfl rfl fun b heq => (by cases heq)
    · exact lands_useBuffer h hi rfl rfl fun b heq => (by cases heq)
  | dropBuffer i =>
    simp only [LocalBufferPool.enter] at henter
    obtain ⟨buf, hi, rfl⟩ := Option.map_eq_some_iff.mp henter
    exact lands_dropBuffer hcount h hi

end LocalBufferPool

variable {T : Type u} {W : Type v} [Waker W] [Zero T]

/-- `LocalBufferPool` conserves its buffers, whatever its callbacks do: there are as many free
buffers as permits and granted permits not yet checked out, so no `expect` ever fails; each of
the `count` buffers is free once or in exactly one `PooledBuffer`; and every buffer is handed
out empty and, if the pool clears, zeroed over its whole capacity. -/
theorem pool_conserves_buffers {width count : Nat} (hcount : count < 2 ^ width) (bufSize : Nat)
    (clear : Bool) {s : Nested (LocalBufferPool T W) (SemFrame W)}
    (h : (poolCalls T W width count bufSize clear).machine.Reachable s) :
    s.obj.free.length = s.obj.sem.permits + (s.stack.map SemFrame.permits).sum ∧
      s.obj.broken = false ∧
      ((s.obj.free ++ s.obj.pooled).map PoolBuffer.ptr).Perm (List.range count) ∧
      (∀ op t buf, s.obj.enter width op = some (t, .done (.buffer buf)) →
        LocalBufferPool.Clean bufSize clear buf) ∧
      ∀ frame rest buf, s.stack = frame :: rest → (s.obj.resume frame).2 = .done (.buffer buf) →
        LocalBufferPool.Clean bufSize clear buf := by
  obtain ⟨hsound, hframes⟩ := Reentrant.carried_invariant SemFrame.permits LocalBufferPool.AsksOne
    (I := fun c s => LocalBufferPool.Sound count bufSize clear c s)
    (LocalBufferPool.sound_build count bufSize clear)
    (fun c s op t seg hc henter => ⟨(hc.enter hcount henter).sound, (hc.enter hcount henter).frames⟩)
    (fun c s frame hok hc => ⟨(hc.resume hok).sound, (hc.resume hok).frames⟩) h
  refine ⟨hsound.free_eq, hsound.whole, hsound.once, fun op t buf henter => ?_,
    fun frame rest buf hstack hout => ?_⟩
  · exact (hsound.enter hcount henter).clean buf rfl
  · rw [hstack, List.map_cons, List.sum_cons] at hsound
    exact (hsound.resume (hframes frame (by simp [hstack]))).clean buf hout

/-- A buffer that was written to is dropped; in the wake of its permit the waiter is polled, and
is granted the permit. The pool is asked again before the waiter checks out. -/
def wakePolls : List (Nested.Move (BufferOp Nat Waker.OfTask)) :=
  [.call .tryAcquire, .call (.write 0 [7, 7]), .call (.setLen 0 2), .call (.acquire 0),
    .call (.poll 0 ⟨1⟩), .resume, .resume, .call (.dropBuffer 0), .call (.poll 0 ⟨1⟩), .resume,
    .call .tryAcquire]

theorem pool_conserves_in_a_wake : ∃ s,
    (poolCalls Nat Waker.OfTask 64 1 2 true).machine.run ⟨.build 1 2 true, []⟩ wakePolls = some s ∧
      (s.obj.free.length = 1 ∧ s.obj.sem.permits = 0 ∧ s.stack.length = 2) ∧
      s.obj.free.length = s.obj.sem.permits + (s.stack.map SemFrame.permits).sum ∧
      ∀ frame rest buf, s.stack = frame :: rest → (s.obj.resume frame).2 = .done (.buffer buf) →
        LocalBufferPool.Clean 2 true buf := by
  refine Machine.exists_end (M := (poolCalls Nat Waker.OfTask 64 1 2 true).machine)
    (c := fun s => decide (s.obj.free.length = 1 ∧ s.obj.sem.permits = 0 ∧ s.stack.length = 2))
    wakePolls (by decide +kernel) fun s hrun hs => ?_
  obtain ⟨hfree, -, -, -, hclean⟩ := pool_conserves_buffers (by decide) 2 true ⟨wakePolls, hrun⟩
  exact ⟨of_decide_eq_true hs, hfree, hclean⟩

end Cynosure.SiteC
