import UnixOs.Ipc.Pipe
import UnixOs.Lib.Ring
import UnixOs.Lib.Run

/-!
# The buffer of a pipe (pipe.c)

`pipe_buffer_t` keeps its bytes in a circular buffer. `pipe_read_buffer` and
`pipe_write_buffer` give up the lock where they sleep, so a call is a sequence of
sections: the first one from the entry on, and one more each time it is woken and
has the lock again. A section either returns or sleeps.

- `PipeBuffer.toPipe`: the pipe with its bytes as a list, which the sections
  refine (`pipe_refines_queue`);
- `PipeTrace`: the buffer together with what was accepted and returned so far, as the
  values that the calls return say it;
- `pipe_fifo`: nothing is lost, doubled or reordered, whatever sections run.
-/

namespace UnixOs

open List Machine Errno

open BlockDevice

/-- `pipe_buffer_t`. -/
structure PipeBuffer where
  ring : Ring (BitVec 8)
  readers : Nat
  writers : Nat
  nonblock : Bool

/-- What a section has come to, with the bytes it has copied. -/
abbrev SectionOutcome := PipeBuffer × PipeResult × List (BitVec 8)

namespace PipeBuffer

/-- `pipe_create_buffer` (pipe.c:75) in the memory `mem`. -/
def create (mem : Image (BitVec 8)) (size : Nat) : PipeBuffer where
  ring :=
    { cells := mem
      size := if pipeMaxSize < size then pipeMaxSize else if size < pipeBuf then pipeBuf else size
      readPos := 0
      writePos := 0
      count := 0 }
  readers := 0
  writers := 0
  nonblock := false

variable (p : PipeBuffer)

/-! ## Reading -/

/-- The copy of `pipe_read_buffer` (pipe.c:113). -/
def readCopy (n : Nat) : SectionOutcome :=
  let toRead := if n < p.ring.count then n else p.ring.count
  ({ p with ring := p.ring.take toRead }, .ret toRead, p.ring.front toRead)

/-- The loop of `pipe_read_buffer` (pipe.c:113) with the lock held. -/
def readLoop (n : Nat) (signal : Bool) : SectionOutcome :=
  if p.ring.count = 0 then
    if p.writers = 0 then (p, .ret 0, [])
    else if p.nonblock then (p, .ret (-EAGAIN), [])
    else if signal then (p, .ret (-EINTR), [])
    else (p, .sleep, [])
  else p.readCopy n

/-- A section of `pipe_read_buffer` (pipe.c:113). `woken` tells that the call slept
and looks again at what `wait_event_locked` waits for. -/
def readSection (woken : Bool) (n : Nat) (signal : Bool) : SectionOutcome :=
  if woken then
    if p.ring.count > 0 ∨ p.writers = 0 then p.readLoop n signal else (p, .sleep, [])
  else if p.writers = 0 ∧ p.ring.count = 0 then (p, .ret 0, [])
  else p.readLoop n signal

/-! ## Writing -/

/-- The copy of `pipe_write_buffer` (pipe.c:155). -/
def writeCopy (bytes : List (BitVec 8)) : SectionOutcome :=
  let available := p.ring.size - p.ring.count
  let toWrite := if bytes.length < available then bytes.length else available
  ({ p with ring := p.ring.put (bytes.take toWrite) }, .ret toWrite, bytes.take toWrite)

/-- The loop of `pipe_write_buffer` (pipe.c:155) with the lock held. -/
def writeLoop (bytes : List (BitVec 8)) (signal : Bool) : SectionOutcome :=
  if p.ring.count = p.ring.size then
    if p.readers = 0 then (p, .ret (-EPIPE), [])
    else if p.nonblock then (p, .ret (-EAGAIN), [])
    else if signal then (p, .ret (-EINTR), [])
    else (p, .sleep, [])
  else p.writeCopy bytes

/-- A section of `pipe_write_buffer` (pipe.c:155), with the bytes it has accepted. -/
def writeSection (woken : Bool) (bytes : List (BitVec 8)) (signal : Bool) : SectionOutcome :=
  if woken then
    if p.ring.count < p.ring.size ∨ p.readers = 0 then p.writeLoop bytes signal
    else (p, .sleep, [])
  else if p.readers = 0 then (p, .ret (-EPIPE), [])
  else p.writeLoop bytes signal

/-- The locked section of `pipe_close_by_id` (pipe.c:357). -/
def dropEnd (isWriteEnd : Bool) : PipeBuffer :=
  if isWriteEnd then { p with writers := (p.writers + (2 ^ 32 - 1)) % 2 ^ 32 }
  else { p with readers := (p.readers + (2 ^ 32 - 1)) % 2 ^ 32 }

/-! ## The queue of bytes -/

/-- The pipe with its bytes as a list. -/
@[simps]
def toPipe : Pipe where
  data := p.ring.contents
  size := p.ring.size
  readers := p.readers
  writers := p.writers
  nonblock := p.nonblock
  freed := false

variable {p : PipeBuffer} {n : Nat} {signal woken : Bool} {bytes : List (BitVec 8)}

theorem contents_eq_nil_iff : p.ring.contents = [] ↔ p.ring.count = 0 := by
  rw [← length_eq_zero_iff, Ring.length_contents]

/-- The copy of a read takes the front of the queue. -/
theorem readCopy_eq (h : p.ring.Wf) : (p.readCopy n).1.ring.Wf ∧
    (p.readCopy n).2.2 = p.ring.contents.take n ∧
    (p.readCopy n).1.ring.contents = p.ring.contents.drop n := by
  have hle : (if n < p.ring.count then n else p.ring.count) ≤ p.ring.count := by split <;> omega
  have hmin : ∀ {xs : List (BitVec 8)}, xs.length = p.ring.count →
      xs.take (if n < p.ring.count then n else p.ring.count) = xs.take n ∧
      xs.drop (if n < p.ring.count then n else p.ring.count) = xs.drop n := by
    intro xs hxs
    split
    · exact ⟨rfl, rfl⟩
    · rw [← hxs, take_length, drop_length, take_of_length_le (by omega),
        drop_eq_nil_of_le (by omega)]
      exact ⟨rfl, rfl⟩
  refine ⟨h.take hle, ?_, ?_⟩
  · rw [readCopy, Ring.front_eq_take h hle]
    exact (hmin Ring.length_contents).1
  · rw [readCopy, Ring.contents_take]
    exact (hmin Ring.length_contents).2

/-- The copy of a write goes to the back of the queue. -/
theorem writeCopy_eq (h : p.ring.Wf) (bytes : List (BitVec 8)) : (p.writeCopy bytes).1.ring.Wf ∧
    (p.writeCopy bytes).1.ring.contents = p.ring.contents ++ (p.writeCopy bytes).2.2 := by
  have hfit : p.ring.count + (bytes.take (if bytes.length < p.ring.size - p.ring.count
      then bytes.length else p.ring.size - p.ring.count)).length ≤ p.ring.size := by
    have := h.count_le
    rw [length_take]
    split <;> omega
  exact ⟨h.put hfit, Ring.contents_put h hfit⟩

/-- A section of a read leaves the pipe as it is, and sleeps only if it has nothing to return,
or it copies. -/
theorem readSection_cases (p : PipeBuffer) (woken : Bool) (n : Nat) (signal : Bool) :
    (∃ r, p.readSection woken n signal = (p, r, []) ∧ (∀ v, r = .ret v → v ≤ 0) ∧
      (r = .sleep → ¬ (p.ring.count > 0 ∨ p.writers = 0))) ∨
    p.ring.count ≠ 0 ∧ p.readSection woken n signal = p.readCopy n := by
  have hret (v : Int) (hv : v ≤ 0) : (∀ w, PipeResult.ret v = .ret w → w ≤ 0) ∧
      (PipeResult.ret v = .sleep → ¬ (p.ring.count > 0 ∨ p.writers = 0)) :=
    ⟨fun _ hw => PipeResult.ret.inj hw ▸ hv, nofun⟩
  have hloop : (∃ r, p.readLoop n signal = (p, r, []) ∧ (∀ v, r = .ret v → v ≤ 0) ∧
      (r = .sleep → ¬ (p.ring.count > 0 ∨ p.writers = 0))) ∨
      p.ring.count ≠ 0 ∧ p.readLoop n signal = p.readCopy n := by
    rw [readLoop]
    split
    · refine .inl ?_
      split
      · exact ⟨_, rfl, hret _ (by decide)⟩
      split
      · exact ⟨_, rfl, hret _ (by decide)⟩
      split
      · exact ⟨_, rfl, hret _ (by decide)⟩
      · exact ⟨_, rfl, nofun, fun _ => by omega⟩
    · next hne => exact .inr ⟨hne, rfl⟩
  rw [readSection]
  split
  · split
    · exact hloop
    · next hno => exact .inl ⟨_, rfl, nofun, fun _ => hno⟩
  split
  · exact .inl ⟨_, rfl, hret _ (by decide)⟩
  · exact hloop

/-- How many bytes a section says it has moved. -/
def moved : PipeResult → Nat
  | .ret v => v.toNat
  | .sleep => 0

theorem moved_eq_zero {r : PipeResult} (h : ∀ v, r = .ret v → v ≤ 0) : moved r = 0 := by
  cases r with
  | ret v => exact Int.toNat_eq_zero.2 (h v rfl)
  | sleep => rfl

/-- A section of a write leaves the pipe as it is and moves nothing, or it copies. -/
theorem writeSection_cases (p : PipeBuffer) (woken : Bool) (bytes : List (BitVec 8))
    (signal : Bool) :
    (∃ r, p.writeSection woken bytes signal = (p, r, []) ∧ moved r = 0) ∨
      p.writeSection woken bytes signal = p.writeCopy bytes := by
  have hloop : (∃ r, p.writeLoop bytes signal = (p, r, []) ∧ moved r = 0) ∨
      p.writeLoop bytes signal = p.writeCopy bytes := by
    rw [writeLoop]
    split
    · refine .inl ?_
      repeat' split
      all_goals exact ⟨_, rfl, rfl⟩
    · exact .inr rfl
  rw [writeSection]
  split
  · split
    · exact hloop
    · exact .inl ⟨_, rfl, rfl⟩
  split
  · exact .inl ⟨_, rfl, rfl⟩
  · exact hloop

/-- The reader's buffer holds as many bytes as the call returns. -/
theorem length_readSection (h : p.ring.Wf) (woken : Bool) (n : Nat) (signal : Bool) :
    (p.readSection woken n signal).2.2.length = moved (p.readSection woken n signal).2.1 := by
  obtain ⟨r, hidle, hle, -⟩ | ⟨-, hcopy⟩ := p.readSection_cases woken n signal
  · rw [hidle]
    exact (moved_eq_zero hle).symm
  · rw [hcopy, (readCopy_eq h).2.1, length_take, Ring.length_contents, Nat.min_def]
    show _ = if n < p.ring.count then n else p.ring.count
    split <;> split <;> omega

/-! ## Refinement of the queue -/

/-- The queue after a section, and its result. -/
def queue (out : SectionOutcome) : Pipe × PipeResult := (out.1.toPipe, out.2.1)

theorem ite_lt_eq_min (a b : Nat) : (if a < b then a else b) = min a b := by
  split <;> omega

/-- The first section of a read does to the queue what `Pipe.readBuffer` does. -/
theorem readSection_refines (h : p.ring.Wf) :
    queue (p.readSection false n signal) = p.toPipe.readBuffer n signal := by
  have hcopy : queue (p.readCopy n) = ({ p.toPipe with data := p.ring.contents.drop n },
      .ret (min n p.ring.contents.length : Nat)) := by
    rw [← (readCopy_eq h).2.2, Ring.length_contents, ← ite_lt_eq_min]
    rfl
  rw [drop_eq_drop_min] at hcopy
  -- Now the two sides have the same branches.
  simp only [readSection, readLoop, apply_ite queue, hcopy, Pipe.readBuffer, toPipe_data,
    contents_eq_nil_iff]
  rfl

/-- The first section of a write does to the queue what `Pipe.writeBuffer` does. -/
theorem writeSection_refines (h : p.ring.Wf) :
    queue (p.writeSection false bytes signal) = p.toPipe.writeBuffer bytes signal := by
  have hcopy : queue (p.writeCopy bytes) = ({ p.toPipe with
      data := p.ring.contents ++ bytes.take (min bytes.length (p.ring.size - p.ring.count)) },
      .ret (min bytes.length (p.ring.size - p.ring.count) : Nat)) := by
    rw [← ite_lt_eq_min]
    exact congrArg (fun d => (({ p.toPipe with data := d } : Pipe), _)) (writeCopy_eq h bytes).2
  simp only [writeSection, writeLoop, apply_ite queue, hcopy, Pipe.writeBuffer, toPipe_data,
    Ring.length_contents]
  rfl

theorem dropEnd_refines (p : PipeBuffer) (isWriteEnd : Bool) :
    (p.dropEnd isWriteEnd).toPipe = p.toPipe.dropEnd isWriteEnd := by
  rw [dropEnd, Pipe.dropEnd]
  split <;> rfl

end PipeBuffer

/-! ## Any interleaving of sections -/

/-- The buffer with all bytes that reads have handed to their callers and writes have
said to have accepted. -/
structure PipeTrace where
  buffer : PipeBuffer
  returned : List (BitVec 8)
  accepted : List (BitVec 8)

/-- What happens to a pipe under its lock. -/
inductive PipeEvent where
  | read (woken : Bool) (n : Nat) (signal : Bool)
  | write (woken : Bool) (bytes : List (BitVec 8)) (signal : Bool)
  | close (isWriteEnd : Bool)

namespace PipeTrace

/-- A read hands over what is in the reader's buffer. A write that returns `v` has accepted
the first `v` bytes it was given. -/
def step (t : PipeTrace) : PipeEvent → PipeTrace
  | .read woken n signal =>
    let out := t.buffer.readSection woken n signal
    { t with buffer := out.1, returned := t.returned ++ out.2.2 }
  | .write woken bytes signal =>
    let out := t.buffer.writeSection woken bytes signal
    { t with buffer := out.1, accepted := t.accepted ++ bytes.take (PipeBuffer.moved out.2.1) }
  | .close isWriteEnd => { t with buffer := t.buffer.dropEnd isWriteEnd }

/-- A new pipe with some readers and writers. -/
def init (mem : Image (BitVec 8)) (size readers writers : Nat) : PipeTrace where
  buffer := { PipeBuffer.create mem size with readers, writers }
  returned := []
  accepted := []

/-- The positions of the buffer fit, and what was returned and what is still in it
is what was accepted. -/
structure Fifo (t : PipeTrace) : Prop where
  wf : t.buffer.ring.Wf
  order : t.returned ++ t.buffer.ring.contents = t.accepted

variable {t : PipeTrace} {woken signal : Bool} {n : Nat} {bytes : List (BitVec 8)}

section

variable (h : Fifo t)
include h

/-- A write appends and a read takes from the front. -/
theorem Fifo.step (ev : PipeEvent) : Fifo (t.step ev) := by
  cases ev with
  | read woken n signal =>
    show Fifo { t with
      buffer := (t.buffer.readSection woken n signal).1
      returned := t.returned ++ (t.buffer.readSection woken n signal).2.2 }
    obtain ⟨r, hidle, -⟩ | ⟨-, hcopy⟩ := t.buffer.readSection_cases woken n signal
    · rw [hidle, append_nil]
      exact h
    · obtain ⟨hwf, hout, hrest⟩ := PipeBuffer.readCopy_eq h.wf
      rw [hcopy]
      refine ⟨hwf, ?_⟩
      rw [hout, hrest, append_assoc, take_append_drop]
      exact h.order
  | write woken bytes signal =>
    show Fifo { t with
      buffer := (t.buffer.writeSection woken bytes signal).1
      accepted := t.accepted ++
        bytes.take (PipeBuffer.moved (t.buffer.writeSection woken bytes signal).2.1) }
    obtain ⟨r, hidle, hr⟩ | hcopy := t.buffer.writeSection_cases woken bytes signal
    · rw [hidle, hr, take_zero, append_nil]
      exact h
    · -- The value returned is the number of bytes that went to the ring.
      obtain ⟨hwf, hput⟩ := PipeBuffer.writeCopy_eq h.wf bytes
      rw [hcopy]
      refine ⟨hwf, ?_⟩
      rw [hput, ← append_assoc, h.order]
      rfl
  | close isWriteEnd =>
    have hring : (t.buffer.dropEnd isWriteEnd).ring = t.buffer.ring := by
      rw [PipeBuffer.dropEnd]
      split <;> rfl
    constructor
    · show (t.buffer.dropEnd isWriteEnd).ring.Wf
      rw [hring]
      exact h.wf
    · show t.returned ++ (t.buffer.dropEnd isWriteEnd).ring.contents = t.accepted
      rw [hring]
      exact h.order

end

/-- At first nothing was accepted. -/
theorem fifo_init (mem : Image (BitVec 8)) (size readers writers : Nat) :
    Fifo (init mem size readers writers) where
  wf :=
    { readPos_lt := by
        show 0 < if pipeMaxSize < size then pipeMaxSize else if size < pipeBuf then pipeBuf
          else size
        have hbuf : 0 < pipeBuf := by decide
        have hmax : 0 < pipeMaxSize := by decide
        generalize pipeBuf = small at hbuf ⊢
        generalize pipeMaxSize = large at hmax ⊢
        repeat' split
        all_goals omega
      count_le := Nat.zero_le _
      writePos_eq := (Nat.zero_mod _).symm }
  order := rfl

/-- A pipe is a queue of bytes: along every interleaving of sections of reads,
writes and closes its positions fit together, and the bytes returned followed by
the bytes in the buffer are the bytes accepted. The next read hands over as many bytes as it
returns. -/
theorem pipe_fifo (mem : Image (BitVec 8)) (size readers writers : Nat) (es : List PipeEvent) :
    let t := run step (init mem size readers writers) es
    t.buffer.ring.count ≤ t.buffer.ring.size ∧
      t.buffer.ring.writePos = (t.buffer.ring.readPos + t.buffer.ring.count) % t.buffer.ring.size ∧
      t.returned ++ t.buffer.ring.contents = t.accepted ∧
      ∀ woken n signal, (t.buffer.readSection woken n signal).2.2.length =
        PipeBuffer.moved (t.buffer.readSection woken n signal).2.1 := by
  have hrun : Fifo (run step (init mem size readers writers) es) :=
    run_always (fun _ ev h => h.step ev) (fifo_init mem size readers writers) es
  exact ⟨hrun.wf.count_le, hrun.wf.writePos_eq, hrun.order,
    PipeBuffer.length_readSection hrun.wf⟩

/-- A reader sleeps on an empty pipe and is woken by a write of three bytes; a second writer
comes between two reads. -/
def sleeperRun : List PipeEvent :=
  [.read false 2 false, .write false [1, 2, 3] false, .read true 2 false,
    .write false [4] false, .read false 9 false, .write false [5, 6] false]

theorem pipe_fifo_sleeperRun :
    let t := run step (init (fun _ => 0) 0 1 2) sleeperRun
    t.returned = [1, 2, 3, 4] ∧ t.buffer.ring.contents = [5, 6] ∧
      t.accepted = [1, 2, 3, 4, 5, 6] ∧
      t.returned ++ t.buffer.ring.contents = t.accepted :=
  ⟨by decide, by decide, by decide, (pipe_fifo (fun _ => 0) 0 1 2 sleeperRun).2.2.1⟩

/-- Whatever sections ran before, a call that starts does to the queue of bytes what it does
to a `Pipe`, and so does a close. -/
theorem pipe_refines_queue (mem : Image (BitVec 8)) (size readers writers : Nat)
    (es : List PipeEvent) (n : Nat) (bytes : List (BitVec 8)) (signal isWriteEnd : Bool) :
    let p := (run step (init mem size readers writers) es).buffer
    PipeBuffer.queue (p.readSection false n signal) = p.toPipe.readBuffer n signal ∧
      PipeBuffer.queue (p.writeSection false bytes signal) = p.toPipe.writeBuffer bytes signal ∧
      (p.dropEnd isWriteEnd).toPipe = p.toPipe.dropEnd isWriteEnd := by
  have hrun : Fifo (run step (init mem size readers writers) es) :=
    run_always (fun _ ev h => h.step ev) (fifo_init mem size readers writers) es
  exact ⟨PipeBuffer.readSection_refines hrun.wf, PipeBuffer.writeSection_refines hrun.wf,
    PipeBuffer.dropEnd_refines ..⟩

end PipeTrace

end UnixOs
