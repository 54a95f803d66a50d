import UnixOs.Ipc.PipeRing

/-!
# Reads of a pipe that fail (pipe.c)

`pipe_read_by_id` takes the bytes off the pipe before it copies them to the user. If the
copy fails, they have left the pipe and no reader has them.
-/

namespace UnixOs.PipeBuffer

open List

section

variable (p : PipeBuffer)

/-- A section of `pipe_read_by_id` (pipe.c:313) on a registered pipe, with the bytes that
reach the reader. `copied` is what `copy_to_user` returns. -/
def readById (woken : Bool) (count : Nat) (bufOk signal : Bool) (copied : Int) : SectionOutcome :=
  if woken = false ∧ (count = 0 ∨ bufOk = false) then (p, .ret (-Errno.ENOMEM), [])
  else
    match p.readSection woken count signal with
    | (p, .ret n, bytes) => if 0 < n ∧ copied < 0 then (p, .ret copied, []) else (p, .ret n, bytes)
    | out => out

/-- An error leaves the contents as they were, and what has left the pipe has reached the
reader. -/
def Delivers (out : SectionOutcome) : Prop :=
  (∀ v < 0, out.2.1 = .ret v → out.1.ring.contents = p.ring.contents) ∧
    p.ring.contents = out.2.2 ++ out.1.ring.contents

end

variable {p : PipeBuffer} {woken bufOk signal : Bool} {n : Nat} {copied : Int}

theorem delivers_self (r : PipeResult) : p.Delivers (p, r, []) := ⟨fun _ _ _ => rfl, rfl⟩

/-- Bytes are delivered or kept exactly if the copy does not fail when there are some. -/
theorem delivers_iff_bytes (h : p.ring.Wf) (woken : Bool) (n : Nat) (bufOk signal : Bool)
    (copied : Int) : p.Delivers (p.readById woken n bufOk signal copied) ↔
      (copied < 0 → (p.readById woken n bufOk signal 0).2.2 = []) := by
  rw [readById, readById]
  split
  · exact iff_of_true (delivers_self _) fun _ => rfl
  obtain ⟨r, hidle, hle, -⟩ | ⟨-, hcopy⟩ := p.readSection_cases woken n signal
  · rw [hidle]
    cases r with
    | sleep => exact iff_of_true (delivers_self _) fun _ => rfl
    | ret v =>
      have hv : ¬ 0 < v := not_lt.2 (hle v rfl)
      dsimp only
      rw [if_neg fun hc => hv hc.1, if_neg fun hc => hv hc.1]
      exact iff_of_true (delivers_self _) fun _ => rfl
  · obtain ⟨-, hbytes, hrest⟩ := readCopy_eq (n := n) h
    have hret : (p.readCopy n).2.1 = .ret (p.readCopy n).2.2.length := by
      rw [hbytes, length_take, Ring.length_contents, readCopy, Nat.min_def]
      grind
    have hall : p.ring.contents = (p.readCopy n).2.2 ++ (p.readCopy n).1.ring.contents := by
      rw [hbytes, hrest, take_append_drop]
    rw [hcopy]
    generalize p.readCopy n = out at hret hall
    obtain ⟨p', r, bytes⟩ := out
    obtain rfl : r = .ret bytes.length := hret
    have hzero : ¬ (0 < (bytes.length : Int) ∧ (0 : Int) < 0) := fun hc => absurd hc.2 (by decide)
    dsimp only
    rw [if_neg hzero]
    split
    · next hfail =>
      -- The bytes that were taken are neither in the pipe nor with the reader.
      have hsome : bytes ≠ [] := length_pos_iff.1 (Int.natCast_pos.1 hfail.1)
      refine iff_of_false (fun hd => hsome ?_) fun hc => hsome (hc hfail.2)
      exact self_eq_append_left.1 (hd.2.symm.trans hall)
    · next hok =>
      refine iff_of_true ⟨fun v hv hr => ?_, hall⟩ fun hc => ?_
      · cases hr
        omega
      · by_contra hsome
        exact hok ⟨Int.natCast_pos.2 (length_pos_iff.2 hsome), hc⟩

/-- A call takes bytes exactly if there are some, it asks for some and has its buffer. -/
theorem bytes_readById (h : p.ring.Wf) : (p.readById woken n bufOk signal 0).2.2 = [] ↔
    p.ring.count = 0 ∨ n = 0 ∨ woken = false ∧ bufOk = false := by
  rw [readById]
  split
  · next hnone => exact iff_of_true rfl (by tauto)
  next hsome =>
  have hsection : p.readSection woken n signal =
      if p.ring.count = 0 then p.readSection woken n signal else p.readCopy n := by
    split
    · rfl
    · next hc => cases woken <;> simp [readSection, readLoop, hc, Nat.pos_of_ne_zero hc]
  by_cases hc : p.ring.count = 0
  · refine iff_of_true ?_ (.inl hc)
    obtain ⟨r, hidle, -⟩ | ⟨hne, -⟩ := p.readSection_cases woken n signal
    · rw [hidle]
      cases r with
      | sleep => rfl
      | ret v =>
        dsimp only
        split <;> rfl
    · exact absurd hc hne
  · rw [hsection, if_neg hc]
    have hbytes : (p.readCopy n).2.2 = [] ↔ n = 0 := by
      rw [(readCopy_eq h).2.1, take_eq_nil_iff, contents_eq_nil_iff]
      exact or_iff_left hc
    generalize p.readCopy n = out at hbytes
    obtain ⟨p', r, bytes⟩ := out
    cases r with
    | sleep => exact hbytes.trans (by tauto)
    | ret v =>
      dsimp only
      rw [if_neg fun hf => absurd hf.2 (by decide)]
      exact hbytes.trans (by tauto)

/-- **Bytes are delivered or kept** exactly if the copy to the user does not fail, or the pipe
is empty, or no byte is asked for, or the kernel buffer cannot be had. -/
theorem readById_delivers_iff (h : p.ring.Wf) (woken : Bool) (n : Nat) (bufOk signal : Bool)
    (copied : Int) : p.Delivers (p.readById woken n bufOk signal copied) ↔
      (copied < 0 → p.ring.count = 0 ∨ n = 0 ∨ woken = false ∧ bufOk = false) :=
  (delivers_iff_bytes h woken n bufOk signal copied).trans
    (imp_congr_right fun _ => bytes_readById h)

/-- A pipe with the byte 7 in it. -/
def oneByte : PipeBuffer := ⟨⟨fun _ => 7, 4096, 0, 1, 1⟩, 1, 1, false⟩

theorem oneByte_lost : ¬ oneByte.Delivers (oneByte.readById false 1 true false (-14)) :=
  fun h => absurd h.2 (by decide)

theorem oneByte_delivered : oneByte.Delivers (oneByte.readById false 1 true false 0) :=
  (readById_delivers_iff ⟨by decide, by decide, rfl⟩ false 1 true false 0).2 nofun

end UnixOs.PipeBuffer
