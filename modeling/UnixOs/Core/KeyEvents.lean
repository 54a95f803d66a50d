import UnixOs.Lib.Run
import Mathlib.Logic.Function.Basic

/-!
# Key events in a byte ring (keyboard.c, ringbuf.h)

`kb_event_push` puts the two bytes of an event into a ring one after the other and does not
ask whether both fit. The ring holds 255 bytes, so with 127 events in it the scancode fits
and the flags do not, and later events are read across their borders.
-/

namespace UnixOs

open Function List Machine

/-- `ringbuf_t` (ringbuf.h:7). -/
structure Ringbuf where
  (head tail mask : Nat)
  data : Nat → UInt8

namespace Ringbuf

/-- `ringbuf_init` (ringbuf.h:18) over the memory `data`. -/
def init (data : Nat → UInt8) (size : Nat) : Ringbuf := ⟨0, 0, size - 1, data⟩

variable (r : Ringbuf)

/-- `ringbuf_push` (ringbuf.h:41). -/
def push (c : UInt8) : Ringbuf × Int :=
  let next := (r.head + 1) &&& r.mask
  if next = r.tail then (r, -1) else ({ r with data := update r.data r.head c, head := next }, 0)

/-- `ringbuf_pop` (ringbuf.h:54); `none` is the result -1. -/
def pop : Ringbuf × Option UInt8 :=
  if r.tail = r.head then (r, none)
  else ({ r with tail := (r.tail + 1) &&& r.mask }, some (r.data r.tail))

/-- The bytes between `tail` and `head` on a ring of 256 cells. -/
def contents : List UInt8 :=
  (range ((r.head + 256 - r.tail) % 256)).map fun i => r.data ((r.tail + i) % 256)

structure Holds (xs : List UInt8) : Prop where
  mask : r.mask = 255
  head : r.head < 256
  tail : r.tail < 256
  contents : r.contents = xs

variable {r} {xs : List UInt8} {c : UInt8}

/-- With one byte of room a push appends. -/
theorem Holds.push (h : r.Holds xs) (hroom : xs.length < 255) : (r.push c).1.Holds (xs ++ [c]) := by
  obtain ⟨hmask, hhead, htail, rfl⟩ := h
  rw [Ringbuf.contents, length_map, length_range] at hroom
  have hnext : (r.head + 1) &&& 255 = (r.head + 1) % 256 := Nat.and_two_pow_sub_one_eq_mod _ 8
  have hne : ¬ (r.head + 1) &&& 255 = r.tail := by omega
  rw [Ringbuf.push, hmask, if_neg hne]
  refine ⟨rfl, by dsimp only; omega, htail, ?_⟩
  simp only [Ringbuf.contents]
  have hlen : (((r.head + 1) &&& 255) + 256 - r.tail) % 256 =
      (r.head + 256 - r.tail) % 256 + 1 := by
    omega
  rw [hlen, range_succ, map_append, map_singleton]
  congr 1
  · refine map_congr_left fun i hi => update_of_ne ?_ _ _
    have := mem_range.1 hi
    omega
  · have hlast : (r.tail + (r.head + 256 - r.tail) % 256) % 256 = r.head := by omega
    rw [hlast, update_self]

theorem Holds.pop_nil (h : r.Holds []) : r.pop = (r, none) := by
  obtain ⟨-, hhead, htail, hnil⟩ := h
  have hlen := congrArg length hnil
  rw [Ringbuf.contents, length_map, length_range, length_nil] at hlen
  exact if_pos (by omega)

/-- A pop takes the oldest byte. -/
theorem Holds.pop_cons (h : r.Holds (c :: xs)) : ∃ r', r.pop = (r', some c) ∧ r'.Holds xs := by
  obtain ⟨hmask, hhead, htail, hcons⟩ := h
  have hnext : (r.tail + 1) &&& 255 = (r.tail + 1) % 256 := Nat.and_two_pow_sub_one_eq_mod _ 8
  have hlen := congrArg length hcons
  rw [Ringbuf.contents, length_map, length_range, length_cons] at hlen
  have hne : ¬ r.tail = r.head := by omega
  rw [Ringbuf.contents, hlen, range_succ_eq_map, map_cons, map_map, Nat.add_zero,
    Nat.mod_eq_of_lt htail] at hcons
  obtain ⟨hc, hxs⟩ := List.cons.inj hcons
  rw [Ringbuf.pop, if_neg hne, hmask, hc]
  refine ⟨_, rfl, rfl, hhead, by dsimp only; omega, ?_⟩
  have hrest : (r.head + 256 - ((r.tail + 1) &&& 255)) % 256 = xs.length := by omega
  simp only [Ringbuf.contents, hrest]
  rw [← hxs, length_map, length_range]
  refine map_congr_left fun i _ => congrArg r.data ?_
  omega

end Ringbuf

/-! ## Events -/

/-- `kb_event_push` (keyboard.c:53). -/
def kbEventPush (r : Ringbuf) (scancode flags : UInt8) : Ringbuf :=
  ((r.push scancode).1.push flags).1

/-- `kb_event_pop` (keyboard.c:58); `none` is the result 0. -/
def kbEventPop (r : Ringbuf) : Ringbuf × Option (UInt8 × UInt8) :=
  match r.pop with
  | (_, none) => (r, none)
  | (r, some scancode) =>
    match r.pop with
    | (r, none) => (r, none)
    | (r, some flags) => (r, some (scancode, flags))

inductive KbOp where
  | push (scancode flags : UInt8)
  | pop

/-- The ring with the events that were given to it and those that came out. -/
structure KbEvents where
  ring : Ringbuf
  (given returned : List (UInt8 × UInt8))

namespace KbEvents

def init (data : Nat → UInt8) : KbEvents := ⟨.init data 256, [], []⟩

def step (s : KbEvents) : KbOp → KbEvents
  | .push scancode flags =>
    { s with ring := kbEventPush s.ring scancode flags, given := s.given ++ [(scancode, flags)] }
  | .pop =>
    let out := kbEventPop s.ring
    { s with ring := out.1, returned := s.returned ++ out.2.toList }

/-- The ring has not just one cell free when an event comes. -/
def Room (s : KbEvents) : KbOp → Prop
  | .push .. => s.ring.contents.length ≠ 254
  | .pop => True

/-- The ring holds whole events, and with those that came out they are all that were given. -/
def Framed (s : KbEvents) : Prop :=
  ∃ evs : List (UInt8 × UInt8), s.ring.Holds (evs.flatMap fun e => [e.1, e.2]) ∧
    s.returned ++ evs = s.given

variable {s : KbEvents}

/-- Room for both bytes, or none, keeps the events apart. -/
theorem Framed.step (h : s.Framed) {op : KbOp} (hroom : s.Room op) : (s.step op).Framed := by
  obtain ⟨evs, hold, hgiven⟩ := h
  cases op with
  | push scancode flags =>
    -- The number of bytes is even, so there are two cells.
    have heven : (evs.flatMap fun e => [e.1, e.2]).length = 2 * evs.length := by
      simp [length_flatMap, Nat.mul_comm]
    have hle : s.ring.contents.length < 256 := by
      rw [Ringbuf.contents, length_map, length_range]
      exact Nat.mod_lt _ (by decide)
    rw [Room, hold.contents] at hroom
    rw [hold.contents] at hle
    have hboth := (hold.push (c := scancode) (by omega)).push (c := flags) (by simp; omega)
    refine ⟨evs ++ [(scancode, flags)], ?_, ?_⟩
    · rw [flatMap_append]
      rwa [append_assoc] at hboth
    · rw [← append_assoc]
      exact congrArg (· ++ _) hgiven
  | pop =>
    show Framed { s with
      ring := (kbEventPop s.ring).1, returned := _ ++ (kbEventPop s.ring).2.toList }
    rw [kbEventPop]
    cases evs with
    | nil =>
      rw [hold.pop_nil]
      exact ⟨[], hold, by simpa using hgiven⟩
    | cons e evs =>
      obtain ⟨r1, hpop1, hold1⟩ := hold.pop_cons
      obtain ⟨r2, hpop2, hold2⟩ := hold1.pop_cons
      simp only [hpop1, hpop2]
      exact ⟨evs, hold2, by simpa using hgiven⟩

/-- If no event comes when one cell is free, events come out as they were given, in order, and
none is lost. -/
theorem framed_run (data : Nat → UInt8) (ops : List KbOp)
    (hroom : Along step Room (init data) ops) : let s := run step (init data) ops
    s.returned.Sublist s.given ∧ s.Framed := by
  have hnil : (init data).ring.contents = [] := by simp [init, Ringbuf.init, Ringbuf.contents]
  have hinit : (init data).Framed := ⟨[], ⟨rfl, Nat.succ_pos _, Nat.succ_pos _, hnil⟩, rfl⟩
  have hstep (s : KbEvents) (op : KbOp) (h : s.Framed) : s.Room op → (s.step op).Framed := h.step
  have hframed := run_invariant hstep hinit hroom
  obtain ⟨evs, -, hgiven⟩ := id hframed
  exact ⟨hgiven ▸ sublist_append_left .., hframed⟩

instance (s : KbEvents) (op : KbOp) : Decidable (s.Room op) := by
  unfold Room
  split <;> infer_instance

/-- Three events and two taken out, 50 times, and the rest taken out: the 300 bytes go round the
ring. -/
def threeTwo : List KbOp :=
  (replicate 50 [.push 1 2, .push 3 4, .push 5 6, .pop, .pop]).flatten ++ replicate 50 .pop

theorem framed_threeTwo : (run step (init fun _ => 0) threeTwo).returned.Sublist
    (run step (init fun _ => 0) threeTwo).given ∧
      (run step (init fun _ => 0) threeTwo).returned.length = 150 :=
  ⟨(framed_run (fun _ => 0) threeTwo (by decide +kernel)).1, by decide +kernel⟩

/-- 128 events with scancode 1 and flags 2, one taken out, one more, and the rest taken out. -/
def burst : List KbOp := replicate 128 (.push 1 2) ++ [.pop, .push 1 2] ++ replicate 127 .pop

theorem burst_unframed : ¬ (run step (init fun _ => 0) burst).returned.Sublist
    (run step (init fun _ => 0) burst).given := by
  have hmem : (1, 1) ∈ (run step (init fun _ => 0) burst).returned := by decide +kernel
  have hnot : (1, 1) ∉ (run step (init fun _ => 0) burst).given := by decide +kernel
  exact fun h => hnot (h.subset hmem)

end KbEvents

end UnixOs
