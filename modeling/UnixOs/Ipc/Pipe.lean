import Mathlib.Algebra.Order.Group.Nat
import UnixOs.Core.Kernel

/-!
# Pipes (pipe.c)

A pipe is a ring of bytes with the numbers of its readers and writers; the ring is
the list of the bytes in it. The registry maps the identifiers of pipes to them.
A reader that finds the pipe empty, or a writer that finds it full, sleeps and
looks again when it is woken.
-/

namespace UnixOs

open Function Errno

/-- `PIPE_BUF`. -/
def pipeBuf : Nat := 4096

/-- `PIPE_MAX_SIZE`. -/
def pipeMaxSize : Nat := 65536

/-- `pipe_buffer_t`. `freed` tells that the memory was given back. -/
structure Pipe where
  data : List (BitVec 8)
  size : Nat
  readers : Nat
  writers : Nat
  nonblock : Bool
  freed : Bool

/-- What a read or a write of a pipe comes to. -/
inductive PipeResult where
  | ret (v : Int)
  | sleep
  deriving DecidableEq

namespace Pipe

/-- `pipe_create_buffer` (pipe.c:75). -/
def createBuffer (size : Nat) : Pipe where
  data := []
  size := if pipeMaxSize < size then pipeMaxSize else if size < pipeBuf then pipeBuf else size
  readers := 0
  writers := 0
  nonblock := false
  freed := false

variable (p : Pipe)

/-- `pipe_read_buffer` (pipe.c:113), up to the point where it returns or sleeps. -/
def readBuffer (count : Nat) (signal : Bool) : Pipe × PipeResult :=
  if p.writers = 0 ∧ p.data = [] then (p, .ret 0)
  else if p.data = [] then
    if p.writers = 0 then (p, .ret 0)
    else if p.nonblock then (p, .ret (-EAGAIN))
    else if signal then (p, .ret (-EINTR))
    else (p, .sleep)
  else
    let toRead := min count p.data.length
    ({ p with data := p.data.drop toRead }, .ret toRead)

/-- `pipe_write_buffer` (pipe.c:155), up to the point where it returns or sleeps. -/
def writeBuffer (bytes : List (BitVec 8)) (signal : Bool) : Pipe × PipeResult :=
  if p.readers = 0 then (p, .ret (-EPIPE))
  else if p.data.length = p.size then
    if p.readers = 0 then (p, .ret (-EPIPE))
    else if p.nonblock then (p, .ret (-EAGAIN))
    else if signal then (p, .ret (-EINTR))
    else (p, .sleep)
  else
    let toWrite := min bytes.length (p.size - p.data.length)
    ({ p with data := p.data ++ bytes.take toWrite }, .ret toWrite)

/-- The counter of an end. -/
def ends (write : Bool) : Nat := if write then p.writers else p.readers

/-- An end is counted down; the counters are unsigned. -/
def dropEnd (write : Bool) : Pipe :=
  if write then { p with writers := (p.writers + (2 ^ 32 - 1)) % 2 ^ 32 }
  else { p with readers := (p.readers + (2 ^ 32 - 1)) % 2 ^ 32 }

end Pipe

/-- `pipe_registry_t`. -/
structure PipeRegistry where
  pipes : Nat → Option Pipe
  nextPipeId : Nat

namespace PipeRegistry

variable (r : PipeRegistry)

/-- `pipe_allocate_id` (pipe.c:211); the result is an `int`. -/
def allocateId (p : Pipe) : PipeRegistry × Int :=
  let id := r.nextPipeId
  let r := { r with nextPipeId := (id + 1) % 2 ^ 32 }
  if (r.pipes id).isSome then (r, -1)
  else ({ r with pipes := update r.pipes id (some p) }, (BitVec.ofNat 32 id).toInt)

/-- `pipe_registry_remove` (pipe.c:225). -/
def remove (id : Nat) : PipeRegistry :=
  { r with pipes := update r.pipes id none }

def set (id : Nat) (p : Pipe) : PipeRegistry :=
  { r with pipes := update r.pipes id (some p) }

/-- `pipe_close_by_id` (pipe.c:357). -/
def closeById (id : Nat) (isWriteEnd : Bool) : PipeRegistry × Int :=
  match r.pipes id with
  | none => (r, -EBADF)
  | some p =>
    let p := p.dropEnd isWriteEnd
    if p.readers = 0 ∧ p.writers = 0 then (r.remove id, 0) else (r.set id p, 0)

/-- `pipe_read_by_id` (pipe.c:313) after its copy to the kernel: `kmalloc` of no
bytes gives none. -/
def readById (id count : Nat) (bufOk signal : Bool) : PipeRegistry × PipeResult :=
  match r.pipes id with
  | none => (r, .ret (-EBADF))
  | some p =>
    if count = 0 ∨ bufOk = false then (r, .ret (-ENOMEM))
    else
      match p.readBuffer count signal with
      | (p, res) => (r.set id p, res)

/-- `pipe_write_by_id` (pipe.c:336); `copied` is what `copy_from_user` returns. -/
def writeById (id : Nat) (bytes : List (BitVec 8)) (bufOk : Bool) (copied : Int)
    (signal : Bool) : PipeRegistry × PipeResult :=
  match r.pipes id with
  | none => (r, .ret (-EBADF))
  | some p =>
    if bytes = [] ∨ bufOk = false then (r, .ret (-ENOMEM))
    else if copied < 0 then (r, .ret copied)
    else
      match p.writeBuffer bytes signal with
      | (p, res) => (r.set id p, res)

/-- The counter of an end of a pipe; a pipe that is not registered has none. -/
def endCount (id : Nat) (write : Bool) : Nat :=
  match r.pipes id with
  | none => 0
  | some p => p.ends write

end PipeRegistry

namespace Pipe

variable {p : Pipe} {bytes : List (BitVec 8)} {count : Nat} {signal : Bool}

/-- A read gives the end of the file exactly if the pipe is empty and has no
writer. -/
theorem readBuffer_eof_iff (hcount : 0 < count) :
    (p.readBuffer count signal).2 = .ret 0 ↔ p.data = [] ∧ p.writers = 0 := by
  simp only [readBuffer]
  split
  · next h => exact ⟨fun _ => ⟨h.2, h.1⟩, fun _ => rfl⟩
  next hopen =>
  split
  · next hempty =>
    have hw : p.writers ≠ 0 := fun h => hopen ⟨h, hempty⟩
    have hno : ∀ {r : PipeResult}, r ≠ .ret 0 → (r = .ret 0 ↔ p.data = [] ∧ p.writers = 0) :=
      fun hr => ⟨fun h => absurd h hr, fun h => absurd h.2 hw⟩
    rw [if_neg hw]
    split
    · exact hno (r := .ret (-EAGAIN)) (by decide)
    split
    · exact hno (r := .ret (-EINTR)) (by decide)
    · exact hno (r := .sleep) (by decide)
  · next hdata =>
    have hpos : 0 < p.data.length := List.length_pos_iff.2 hdata
    refine ⟨fun h => ?_, fun h => absurd h.1 hdata⟩
    have := PipeResult.ret.inj h
    omega

/-- A write gives `EPIPE` exactly if the pipe has no reader. -/
theorem writeBuffer_epipe_iff : (p.writeBuffer bytes signal).2 = .ret (-EPIPE) ↔ p.readers = 0 := by
  simp only [writeBuffer]
  split
  · next h => exact ⟨fun _ => h, fun _ => rfl⟩
  next hr =>
  have hno : ∀ {r : PipeResult}, r ≠ .ret (-EPIPE) →
      (r = .ret (-EPIPE) ↔ p.readers = 0) :=
    fun h => ⟨fun he => absurd he h, fun he => absurd he hr⟩
  split
  · split
    · exact hno (r := .ret (-EAGAIN)) (by decide)
    split
    · exact hno (r := .ret (-EINTR)) (by decide)
    · exact hno (r := .sleep) (by decide)
  · refine hno fun h => ?_
    have hv := PipeResult.ret.inj h
    have hneg : -EPIPE < 0 := by decide
    omega

theorem ends_dropEnd (w : Bool) : (p.dropEnd w).ends w = (p.ends w + (2 ^ 32 - 1)) % 2 ^ 32 := by
  cases w <;> simp [dropEnd, ends]

theorem ends_dropEnd_of_ne {w w' : Bool} (h : w' ≠ w) : (p.dropEnd w).ends w' = p.ends w' := by
  cases w <;> cases w' <;> simp_all [dropEnd, ends]

theorem freed_dropEnd (w : Bool) : (p.dropEnd w).freed = p.freed := by cases w <;> simp [dropEnd]

theorem ends_eq_zero (h : p.readers = 0 ∧ p.writers = 0) (w : Bool) : p.ends w = 0 := by
  cases w with
  | true => exact h.2
  | false => exact h.1

theorem ends_readBuffer (write : Bool) :
    (p.readBuffer count signal).1.ends write = p.ends write := by
  simp only [readBuffer]
  repeat' split
  all_goals rfl

theorem ends_writeBuffer (write : Bool) :
    (p.writeBuffer bytes signal).1.ends write = p.ends write := by
  simp only [writeBuffer]
  repeat' split
  all_goals rfl

theorem freed_readBuffer : (p.readBuffer count signal).1.freed = p.freed := by
  simp only [readBuffer]
  repeat' split
  all_goals rfl

theorem freed_writeBuffer : (p.writeBuffer bytes signal).1.freed = p.freed := by
  simp only [writeBuffer]
  repeat' split
  all_goals rfl

end Pipe

namespace PipeRegistry

variable {r : PipeRegistry} {id : Nat} {p : Pipe} {w : Bool}

/-- The identifier that `pipe_allocate_id` returns is an `int`. -/
theorem allocateId_lt : (r.allocateId p).2.toNat < 2 ^ 31 := by
  rw [allocateId]
  split
  · show (-1 : Int).toNat < 2 ^ 31
    decide
  · have := BitVec.toInt_lt (x := BitVec.ofNat 32 r.nextPipeId)
    omega

theorem endCount_of_some (h : r.pipes id = some p) : r.endCount id w = p.ends w := by
  rw [endCount, h]

theorem endCount_congr {r' : PipeRegistry} (h : r'.pipes id = r.pipes id) :
    r'.endCount id w = r.endCount id w := by
  rw [endCount, endCount, h]

theorem endCount_set (id' : Nat) :
    (r.set id p).endCount id' w = if id' = id then p.ends w else r.endCount id' w := by
  by_cases h : id' = id
  · subst h
    rw [if_pos rfl]
    exact endCount_of_some (update_self ..)
  · rw [if_neg h]
    exact endCount_congr (update_of_ne h ..)

theorem endCount_remove (id' : Nat) :
    (r.remove id).endCount id' w = if id' = id then 0 else r.endCount id' w := by
  by_cases h : id' = id
  · subst h
    rw [if_pos rfl, endCount, remove]
    simp only [update_self]
  · rw [if_neg h]
    exact endCount_congr (update_of_ne h ..)

/-- The registry after a change that keeps the counters and the memory of a
pipe. -/
def SameEnds (r r' : PipeRegistry) : Prop :=
  r'.nextPipeId = r.nextPipeId ∧ ∀ id, Option.Rel
    (fun p p' => (∀ w, p'.ends w = p.ends w) ∧ p'.freed = p.freed) (r.pipes id) (r'.pipes id)

theorem SameEnds.refl (r : PipeRegistry) : SameEnds r r := by
  refine ⟨rfl, fun id => ?_⟩
  cases r.pipes id with
  | none => exact .none
  | some p => exact .some ⟨fun _ => rfl, rfl⟩

theorem SameEnds.set (h : r.pipes id = some p) {p' : Pipe} (he : ∀ w, p'.ends w = p.ends w)
    (hf : p'.freed = p.freed) : SameEnds r (r.set id p') := by
  refine ⟨rfl, fun id' => ?_⟩
  obtain rfl | hid := eq_or_ne id' id
  · rw [h, PipeRegistry.set]
    simp only [update_self]
    exact .some ⟨he, hf⟩
  · rw [PipeRegistry.set]
    simp only [update_of_ne hid]
    exact (refl r).2 id'

theorem SameEnds.endCount {r' : PipeRegistry} (h : SameEnds r r') :
    r'.endCount id w = r.endCount id w := by
  rw [PipeRegistry.endCount, PipeRegistry.endCount]
  have hid := h.2 id
  generalize r.pipes id = x at hid
  generalize r'.pipes id = y at hid
  cases hid with
  | none => rfl
  | some hp => exact hp.1 w

theorem sameEnds_readById {count : Nat} {bufOk signal : Bool} :
    SameEnds r (r.readById id count bufOk signal).1 := by
  rw [readById]
  split
  · exact .refl r
  · next p hp =>
    split
    · exact .refl r
    · exact .set hp Pipe.ends_readBuffer Pipe.freed_readBuffer

theorem sameEnds_writeById {bytes : List (BitVec 8)} {bufOk signal : Bool} {copied : Int} :
    SameEnds r (r.writeById id bytes bufOk copied signal).1 := by
  rw [writeById]
  split
  · exact .refl r
  · next p hp =>
    split
    · exact .refl r
    split
    · exact .refl r
    · exact .set hp Pipe.ends_writeBuffer Pipe.freed_writeBuffer

/-- The counters after a close, also if the pipe goes. -/
theorem endCount_closeById_of_some (h : r.pipes id = some p) (id' : Nat) (w' : Bool) :
    (r.closeById id w).1.endCount id' w'
      = if id' = id then (p.dropEnd w).ends w' else r.endCount id' w' := by
  simp only [closeById, h]
  split
  · next hz => rw [endCount_remove, Pipe.ends_eq_zero hz]
  · exact endCount_set id'

theorem closeById_of_none (h : r.pipes id = none) : (r.closeById id w).1 = r := by rw [closeById, h]

/-- A close does not change the counter of any other end. -/
theorem endCount_closeById_of_ne {id' : Nat} {w' : Bool} (hne : ¬ (id' = id ∧ w' = w)) :
    (r.closeById id w).1.endCount id' w' = r.endCount id' w' := by
  cases hp : r.pipes id with
  | none => rw [closeById_of_none hp]
  | some p =>
    rw [endCount_closeById_of_some hp]
    split
    · next hid =>
      subst hid
      rw [Pipe.ends_dropEnd_of_ne fun hw => hne ⟨rfl, hw⟩, endCount_of_some hp]
    · rfl

/-- A close of an end that is counted counts it down. -/
theorem endCount_closeById (hpos : 0 < r.endCount id w) (hlt : r.endCount id w < 2 ^ 32) :
    (r.closeById id w).1.endCount id w = r.endCount id w - 1 := by
  cases hp : r.pipes id with
  | none =>
    rw [endCount, hp] at hpos
    cases hpos
  | some p =>
    rw [endCount_of_some hp] at hpos hlt ⊢
    rw [endCount_closeById_of_some hp, if_pos rfl, Pipe.ends_dropEnd]
    omega

theorem endCount_closeById_lt (id' : Nat) (w' : Bool) :
    (r.closeById id w).1.endCount id' w' < 2 ^ 32 ∨
      (r.closeById id w).1.endCount id' w' = r.endCount id' w' := by
  by_cases hne : id' = id ∧ w' = w
  · obtain ⟨rfl, rfl⟩ := hne
    cases hp : r.pipes id' with
    | none => exact .inr (by rw [closeById_of_none hp])
    | some p =>
      rw [endCount_closeById_of_some hp, if_pos rfl, Pipe.ends_dropEnd]
      exact .inl (Nat.mod_lt _ (by decide))
  · exact .inr (endCount_closeById_of_ne hne)

/-- What is kept of the registry: an identifier that is registered was given out,
and the pipe has an end. -/
structure Ids (r : PipeRegistry) : Prop where
  lt : ∀ {id p}, r.pipes id = some p → id < r.nextPipeId
  kept : ∀ {id p}, r.pipes id = some p → p.freed = false ∧ ∃ w, 0 < p.ends w

namespace Ids

theorem none_next (h : Ids r) : r.pipes r.nextPipeId = none := by
  cases hn : r.pipes r.nextPipeId with
  | none => rfl
  | some p => exact absurd (h.lt hn) (lt_irrefl _)

theorem endCount_next (h : Ids r) (w : Bool) : r.endCount r.nextPipeId w = 0 := by
  rw [endCount, h.none_next]

theorem congr {r' : PipeRegistry} (h : Ids r) (hpipes : r'.pipes = r.pipes)
    (hnext : r.nextPipeId ≤ r'.nextPipeId) : Ids r' := by
  constructor
  · intro id p hp
    rw [hpipes] at hp
    exact lt_of_lt_of_le (h.lt hp) hnext
  · rw [hpipes]
    exact h.kept

/-- One entry of the registry changes. -/
theorem update (h : Ids r) {x : Option Pipe} {next : Nat} (hnext : r.nextPipeId ≤ next)
    (hid : id < next) (hx : ∀ p, x = some p → p.freed = false ∧ ∃ w, 0 < p.ends w) :
    Ids ⟨update r.pipes id x, next⟩ := by
  constructor
  · intro id' p hp
    by_cases he : id' = id
    · exact he ▸ hid
    · simp only [update_of_ne he] at hp
      exact lt_of_lt_of_le (h.lt hp) hnext
  · intro id' p hp
    obtain rfl | he := eq_or_ne id' id
    · simp only [update_self] at hp
      exact hx p hp
    · simp only [update_of_ne he] at hp
      exact h.kept hp

/-- Closing an end keeps the identifiers. -/
theorem closeById (h : Ids r) : Ids (r.closeById id w).1 := by
  cases hreg : r.pipes id with
  | none =>
    rw [closeById_of_none hreg]
    exact h
  | some p =>
    simp only [PipeRegistry.closeById, hreg]
    split
    · refine h.update (le_refl _) (h.lt hreg) ?_
      rintro p' ⟨⟩
    · next hends =>
      refine h.update (le_refl _) (h.lt hreg) ?_
      rintro p' ⟨⟩
      refine ⟨(Pipe.freed_dropEnd w).trans (h.kept hreg).1, ?_⟩
      by_cases hr : (p.dropEnd w).readers = 0
      · exact ⟨true, Nat.pos_of_ne_zero fun hw => hends ⟨hr, hw⟩⟩
      · exact ⟨false, Nat.pos_of_ne_zero hr⟩

/-- What keeps the ends keeps the identifiers. -/
theorem sameEnds {r' : PipeRegistry} (h : Ids r) (hs : SameEnds r r') : Ids r' := by
  have hback : ∀ {id p'}, r'.pipes id = some p' → ∃ p, r.pipes id = some p ∧
      (∀ w, p'.ends w = p.ends w) ∧ p'.freed = p.freed := by
    intro id p' hp'
    have hrel := hs.2 id
    rw [hp'] at hrel
    generalize r.pipes id = x at hrel
    cases hrel with
    | some hp => exact ⟨_, rfl, hp⟩
  constructor
  · intro id p' hp'
    obtain ⟨p, hp, -⟩ := hback hp'
    rw [hs.1]
    exact h.lt hp
  · intro id p' hp'
    obtain ⟨p, hp, hends, hfreed⟩ := hback hp'
    obtain ⟨hf, w, hw⟩ := h.kept hp
    exact ⟨hfreed.trans hf, w, by rwa [hends]⟩

end Ids

end PipeRegistry

end UnixOs
