import UnixOs.Fs.Ramfs
import UnixOs.Lib.Run

/-!
# The data of a ramfs file (ramfs.c)

A file has a buffer of `capacity` bytes, of which the first `size` are the file.
The buffer is replaced by a larger one when a write or a truncation needs it, and
never by a smaller one: what a truncation cuts off stays in the buffer.

`ByteFile` is what the operations are for, an array of bytes that grows by
zeros. The file and the array are run side by side, and `alongCall_iff` says which
runs keep them together.
-/

namespace UnixOs

open Machine Option Errno

/-- `RAMFS_BLOCK_SIZE`. -/
def ramfsBlockSize : Nat := 4096

/-- `RAMFS_MAX_FILE_SIZE`. -/
def ramfsMaxFileSize : Nat := 16 * 1024 * 1024

/-- The data of a `ramfs_inode_t`: a null pointer, or a buffer of `capacity`
bytes. -/
structure RamfsData where
  size : Nat
  capacity : Nat
  data : Option (Nat → UInt8)

namespace RamfsData

/-- The data of a new inode. -/
def empty : RamfsData := ⟨0, 0, none⟩

variable (f : RamfsData)

/-- `ramfs_read_data` (ramfs.c:111): the result, and the buffer of the caller. -/
def readData (type : InodeType) (buf : Nat → UInt8) (count offset : Nat) : Int × (Nat → UInt8) :=
  if type ≠ .file then (-EISDIR, buf)
  else if f.size ≤ offset then (0, buf)
  else
    let toRead := min count (f.size - offset)
    if toRead = 0 then (0, buf)
    else
      match f.data with
      | none => (toRead, buf)
      | some d => (toRead, fun i => if i < toRead then d (offset + i) else buf i)

/-- `(n + RAMFS_BLOCK_SIZE - 1) & ~(RAMFS_BLOCK_SIZE - 1)`. -/
def blocksUp (n : Nat) : Nat := (n + ramfsBlockSize - 1) / ramfsBlockSize * ramfsBlockSize

/-- A new buffer: zeros, then the first `copy` bytes of the old one, unless the
file is empty. -/
def renew (cap copy : Nat) : RamfsData :=
  { f with
    capacity := cap
    data := some fun i =>
      match f.data with
      | none => 0
      | some d => if 0 < f.size ∧ i < copy then d i else 0 }

/-- The end of `ramfs_write_data`: the bytes go into the buffer. -/
def put (buf : Nat → UInt8) (count offset : Nat) : RamfsData :=
  { f with
    data := f.data.map fun d i =>
      if offset ≤ i ∧ i < offset + count then buf (i - offset) else d i
    size := if f.size < offset + count then offset + count else f.size }

/-- `ramfs_write_data` (ramfs.c:133); `room` is what `kmalloc` answers. -/
def writeData (type : InodeType) (room : Bool) (buf : Nat → UInt8) (count offset : Nat) :
    RamfsData × Int :=
  if type = .dir then (f, -EISDIR)
  else if 2 ^ 32 - 1 - offset < count then (f, -EFBIG)
  else
    let endPos := offset + count
    if ramfsMaxFileSize < endPos then (f, -EFBIG)
    else if f.capacity < endPos then
      if room = false then (f, -ENOSPC)
      else
        let newCap := min (blocksUp endPos) ramfsMaxFileSize
        ((f.renew newCap f.size).put buf count offset, count)
    else (f.put buf count offset, count)

/-- `ramfs_truncate_inode` (ramfs.c:171). -/
def truncateInode (type : InodeType) (room : Bool) (length : Nat) : RamfsData × Int :=
  if type ≠ .file then (f, -EISDIR)
  else if ramfsMaxFileSize < length then (f, -EFBIG)
  else if f.capacity < length then
    if room = false then (f, -ENOSPC)
    else ({ f.renew (blocksUp length) (min f.size length) with size := length }, 0)
  else ({ f with size := length }, 0)

/-- The byte of the buffer at an index. -/
def byteAt (x : Nat) : UInt8 := (f.data.map fun d => d x).getD 0

/-- The file lies in its buffer. -/
structure Wf : Prop where
  size_le : f.size ≤ f.capacity
  capacity_le : f.capacity ≤ ramfsMaxFileSize
  buffer : f.data = none → f.capacity = 0

end RamfsData

/-! ## The byte array -/

/-- What a file is: bytes below a size. -/
structure ByteFile where
  size : Nat
  byte : Nat → UInt8

/-- A call on the data of a file. -/
inductive DataCall where
  | read (buf : Nat → UInt8) (count offset : Nat)
  | write (room : Bool) (buf : Nat → UInt8) (count offset : Nat)
  | truncate (room : Bool) (length : Nat)

namespace ByteFile

variable (b : ByteFile)

/-- The bytes from an offset on, as far as there are any. -/
def read (buf : Nat → UInt8) (count offset : Nat) : Int × (Nat → UInt8) :=
  let n := min count (b.size - offset)
  (n, fun i => if i < n then b.byte (offset + i) else buf i)

/-- A successful call: a byte that is written has its new value, one over which
the file grows is zero, and the others stay. -/
def apply : DataCall → ByteFile
  | .read _ _ _ => b
  | .write _ buf count offset =>
    { size := max b.size (offset + count)
      byte x := if offset ≤ x ∧ x < offset + count then buf (x - offset)
        else if b.size ≤ x then 0 else b.byte x }
  | .truncate _ length =>
    { size := length
      byte x := if b.size ≤ x then 0 else b.byte x }

/-- Two arrays from which the same is read have the same bytes. -/
theorem byte_eq_of_read {b b' : ByteFile} (hsize : b.size = b'.size)
    (h : ∀ buf count offset, b.read buf count offset = b'.read buf count offset) {x : Nat}
    (hx : x < b.size) : b.byte x = b'.byte x := by
  have hone := congrFun (congrArg Prod.snd (h (fun _ => 0) 1 x)) 0
  simp only [read] at hone
  rwa [if_pos (by omega), if_pos (by omega)] at hone

theorem read_congr {b b' : ByteFile} (hsize : b.size = b'.size)
    (h : ∀ x < b.size, b.byte x = b'.byte x) (buf : Nat → UInt8) (count offset : Nat) :
    b.read buf count offset = b'.read buf count offset := by
  rw [read, read, ← hsize]
  refine Prod.ext rfl (funext fun i => ?_)
  dsimp only
  by_cases hi : i < min count (b.size - offset)
  · rw [if_pos hi, if_pos hi, h (offset + i) (by omega)]
  · rw [if_neg hi, if_neg hi]

end ByteFile

namespace RamfsData

/-! ## Calls -/

/-- A call on a regular file: the data after it, and what it returns. -/
def call (f : RamfsData) : DataCall → RamfsData × Int
  | .read buf count offset => (f, (f.readData .file buf count offset).1)
  | .write room buf count offset => f.writeData .file room buf count offset
  | .truncate room length => f.truncateInode .file room length

/-- The file as an array. -/
def bytes (f : RamfsData) : ByteFile := ⟨f.size, f.byteAt⟩

/-- How far a call reaches into the buffer. -/
def reach : DataCall → Nat
  | .read _ _ _ => 0
  | .write _ _ count offset => offset + count
  | .truncate _ length => length

/-- The end of what a call adds to the file without writing it. -/
def gapEnd : DataCall → Nat
  | .read _ _ _ => 0
  | .write _ _ _ offset => offset
  | .truncate _ length => length

/-- A call that extends the file in the buffer it has finds zeros there. -/
def ZeroGap (f : RamfsData) (c : DataCall) : Prop :=
  reach c ≤ f.capacity → ∀ x, f.size ≤ x → x < gapEnd c → f.byteAt x = 0

variable {f : RamfsData}

theorem wf_empty : Wf empty := ⟨le_refl 0, Nat.zero_le _, fun _ => rfl⟩

theorem blocksUp_le {n : Nat} (h : n ≤ ramfsMaxFileSize) : blocksUp n ≤ ramfsMaxFileSize := by
  unfold blocksUp ramfsMaxFileSize ramfsBlockSize at *
  omega

theorem le_blocksUp (n : Nat) : n ≤ blocksUp n := by
  unfold blocksUp ramfsBlockSize
  omega

/-- A file in its buffer is read as an array. -/
theorem Wf.readData_eq (h : Wf f) (buf : Nat → UInt8) (count offset : Nat) :
    f.readData .file buf count offset = f.bytes.read buf count offset := by
  have hle := h.size_le
  rw [readData, if_neg (not_not.2 rfl), ByteFile.read, bytes]
  by_cases hoff : f.size ≤ offset
  · have hn : min count (f.size - offset) = 0 := by omega
    rw [if_pos hoff, hn]
    simp
  rw [if_neg hoff]
  by_cases hn : min count (f.size - offset) = 0
  · rw [if_pos hn, hn]
    simp
  rw [if_neg hn]
  cases hd : f.data with
  | none =>
    have := h.buffer hd
    omega
  | some d =>
    have hbyte : f.byteAt = d := by
      funext x
      rw [byteAt, hd]
      rfl
    rw [hbyte]

theorem byteAt_put {buf : Nat → UInt8} {count offset x : Nat} (hd : f.data ≠ none) :
    (f.put buf count offset).byteAt x =
      if offset ≤ x ∧ x < offset + count then buf (x - offset) else f.byteAt x := by
  obtain ⟨d, hd⟩ := ne_none_iff_exists'.1 hd
  simp only [byteAt, put, hd, map_some, getD_some]

theorem byteAt_renew (cap copy x : Nat) :
    (f.renew cap copy).byteAt x = if 0 < f.size ∧ x < copy then f.byteAt x else 0 := by
  simp only [byteAt, renew, map_some, getD_some]
  cases f.data with
  | none => simp
  | some d => rfl

theorem put_size (buf : Nat → UInt8) (count offset : Nat) :
    (f.put buf count offset).size = max f.size (offset + count) := by
  show (if f.size < offset + count then offset + count else f.size) = _
  split <;> omega

/-- A write that does not fail: a byte behind the old size that is not written is
the one the buffer has there, or zero if the buffer is new. -/
theorem writeData_cases (h : Wf f) (room : Bool) (buf : Nat → UInt8) (count offset : Nat) :
    (f.capacity < offset + count ∧ (f.writeData .file room buf count offset).1 = f ∧
      (f.writeData .file room buf count offset).2 < 0) ∨
    ((f.writeData .file room buf count offset).2 = count ∧
      Wf (f.writeData .file room buf count offset).1 ∧
      (f.writeData .file room buf count offset).1.size = max f.size (offset + count) ∧
      ∀ x < max f.size (offset + count), (f.writeData .file room buf count offset).1.byteAt x =
        if offset ≤ x ∧ x < offset + count then buf (x - offset)
        else if x < f.size ∨ offset + count ≤ f.capacity then f.byteAt x else 0) := by
  have hle := h.size_le
  have hmax := h.capacity_le
  have h16 : ramfsMaxFileSize = 16777216 := rfl
  rw [writeData, if_neg (by decide)]
  split
  · exact .inl ⟨by omega, rfl, (by decide : -EFBIG < 0)⟩
  dsimp only
  split
  · exact .inl ⟨by omega, rfl, (by decide : -EFBIG < 0)⟩
  next hbig =>
  by_cases hcap : f.capacity < offset + count
  · rw [if_pos hcap]
    split
    · exact .inl ⟨hcap, rfl, (by decide : -ENOSPC < 0)⟩
    -- a new buffer, with what the file had
    have hup := le_blocksUp (offset + count)
    refine .inr ⟨rfl, ⟨?_, min_le_right _ _, ?_⟩, put_size _ _ _, fun x hx => ?_⟩
    · rw [put_size]
      show max f.size _ ≤ min _ _
      omega
    · rintro ⟨⟩
    · rw [byteAt_put (some_ne_none _), byteAt_renew]
      refine if_congr Iff.rfl rfl (if_congr ?_ rfl rfl)
      omega
  · rw [if_neg hcap]
    refine .inr ⟨rfl, ⟨?_, h.capacity_le, fun hd => ?_⟩, put_size _ _ _, fun x hx => ?_⟩
    · rw [put_size]
      show max f.size _ ≤ f.capacity
      omega
    · exact h.buffer (map_eq_none_iff.1 hd)
    · rw [byteAt_put fun hd => by have := h.buffer hd; omega,
        if_pos (by omega : x < f.size ∨ offset + count ≤ f.capacity)]

/-- A truncation that does not fail, likewise. -/
theorem truncateInode_cases (h : Wf f) (room : Bool) (length : Nat) :
    (f.capacity < length ∧ (f.truncateInode .file room length).1 = f ∧
      (f.truncateInode .file room length).2 < 0) ∨
    ((f.truncateInode .file room length).2 = 0 ∧ Wf (f.truncateInode .file room length).1 ∧
      (f.truncateInode .file room length).1.size = length ∧
      ∀ x < length, (f.truncateInode .file room length).1.byteAt x =
        if x < f.size ∨ length ≤ f.capacity then f.byteAt x else 0) := by
  have hmax := h.capacity_le
  rw [truncateInode, if_neg (not_not.2 rfl)]
  split
  · exact .inl ⟨by omega, rfl, (by decide : -EFBIG < 0)⟩
  next hbig =>
  by_cases hcap : f.capacity < length
  · rw [if_pos hcap]
    split
    · exact .inl ⟨hcap, rfl, (by decide : -ENOSPC < 0)⟩
    refine .inr ⟨rfl, ⟨le_blocksUp length, blocksUp_le (by omega), ?_⟩, rfl, fun x hx => ?_⟩
    · rintro ⟨⟩
    · show (f.renew (blocksUp length) (min f.size length)).byteAt x = _
      rw [byteAt_renew]
      refine if_congr ?_ rfl rfl
      omega
  · rw [if_neg hcap]
    refine .inr ⟨rfl, ⟨?_, h.capacity_le, h.buffer⟩, rfl, fun x hx => ?_⟩
    · show length ≤ f.capacity
      omega
    · show f.byteAt x = _
      rw [if_pos (by omega)]

end RamfsData

/-! ## Side by side -/

/-- A file, and the array that gets the calls that do not fail. -/
structure TracedFile where
  file : RamfsData
  spec : ByteFile

namespace TracedFile

open RamfsData

variable {t : TracedFile}

/-- A new file. -/
def start : TracedFile := ⟨.empty, ⟨0, fun _ => 0⟩⟩

def step (t : TracedFile) (c : DataCall) : TracedFile :=
  ⟨(t.file.call c).1, if (t.file.call c).2 < 0 then t.spec else t.spec.apply c⟩

/-- Every read returns the bytes of the array. -/
def Agree (t : TracedFile) : Prop :=
  t.file.size = t.spec.size ∧
    ∀ buf count offset, t.file.readData .file buf count offset = t.spec.read buf count offset

/-- After a call the file agrees with the array, and a call that fails changes
nothing. -/
def CallOk (t : TracedFile) (c : DataCall) : Prop :=
  Agree (t.step c) ∧ ((t.file.call c).2 < 0 → (t.file.call c).1 = t.file)

/-- What a run keeps. -/
structure Inv (t : TracedFile) : Prop where
  wf : Wf t.file
  size : t.file.size = t.spec.size
  byte : ∀ x < t.file.size, t.file.byteAt x = t.spec.byte x

theorem inv_start : Inv start := by
  refine ⟨wf_empty, rfl, fun x hx => ?_⟩
  cases hx

/-- Agreement is agreement of the bytes below the size. -/
theorem agree_iff (hwf : Wf t.file) (hsize : t.file.size = t.spec.size) :
    Agree t ↔ ∀ x < t.file.size, t.file.byteAt x = t.spec.byte x := by
  constructor
  · rintro ⟨-, hread⟩ x hx
    refine ByteFile.byte_eq_of_read (b := t.file.bytes) hsize (fun buf count offset => ?_) hx
    rw [← hwf.readData_eq]
    exact hread buf count offset
  · intro h
    refine ⟨hsize, fun buf count offset => ?_⟩
    rw [hwf.readData_eq]
    exact ByteFile.read_congr hsize h buf count offset

theorem Inv.agree (h : Inv t) : Agree t := (agree_iff h.wf h.size).2 h.byte

/-- The file fits the array after a call, byte by byte exactly if the call finds zeros where it
extends the file. -/
structure Follows (t : TracedFile) (c : DataCall) : Prop where
  wf : Wf (t.step c).file
  size : (t.step c).file.size = (t.step c).spec.size
  byte : (∀ x < (t.step c).file.size, (t.step c).file.byteAt x = (t.step c).spec.byte x) ↔
    ZeroGap t.file c

/-- A call that does not change the file and does not extend it. -/
theorem Inv.idle (h : Inv t) {c : DataCall} (hsame : t.step c = t)
    (hgap : reach c ≤ t.file.capacity → gapEnd c ≤ t.file.size) : Follows t c := by
  refine ⟨by rw [hsame]; exact h.wf, by rw [hsame]; exact h.size, ?_⟩
  rw [hsame]
  refine iff_of_true h.byte fun hreach x hx hx' => ?_
  omega

/-- A byte of the file after a call that extends it: in the gap it is the byte of
the buffer, elsewhere that of the array. -/
theorem Follows.of_gap {c : DataCall} (hwf : Wf (t.step c).file)
    (hsize : (t.step c).file.size = (t.step c).spec.size)
    (hgap : ∀ x, t.file.size ≤ x → x < gapEnd c → x < (t.step c).file.size)
    (hbyte : ∀ x < (t.step c).file.size,
      t.file.size ≤ x ∧ x < gapEnd c ∧ reach c ≤ t.file.capacity ∧
          (t.step c).file.byteAt x = t.file.byteAt x ∧ (t.step c).spec.byte x = 0 ∨
        ¬ (t.file.size ≤ x ∧ x < gapEnd c ∧ reach c ≤ t.file.capacity) ∧
          (t.step c).file.byteAt x = (t.step c).spec.byte x) : Follows t c := by
  refine ⟨hwf, hsize, fun hall hreach x hx hx' => ?_, fun hzero x hx => ?_⟩
  · have hlt := hgap x hx hx'
    obtain ⟨-, -, -, hold, hnew⟩ | ⟨hnot, -⟩ := hbyte x hlt
    · rw [← hold, hall x hlt, hnew]
    · exact absurd ⟨hx, hx', hreach⟩ hnot
  · obtain ⟨hle, hlt, hreach, hold, hnew⟩ | ⟨-, heq⟩ := hbyte x hx
    · rw [hold, hnew]
      exact hzero hreach x hle hlt
    · exact heq

theorem step_of_fails {c : DataCall} (hsame : (t.file.call c).1 = t.file)
    (hrc : (t.file.call c).2 < 0) : t.step c = t := by
  rw [step, hsame, if_pos hrc]

/-- One case for each call. -/
theorem Inv.step_iff (h : Inv t) (c : DataCall) : Follows t c := by
  have hsize := h.size
  cases c with
  | read buf count offset =>
    refine h.idle ?_ fun _ => Nat.zero_le _
    exact congrArg (TracedFile.mk t.file) (ite_self t.spec)
  | write room buf count offset =>
    obtain ⟨hcap, hsame, hrc⟩ | ⟨hrc, hwf, hsz, hbyte⟩ := writeData_cases h.wf room buf count offset
    · refine h.idle (step_of_fails hsame hrc) fun hreach => ?_
      replace hreach : offset + count ≤ t.file.capacity := hreach
      omega
    set out := t.file.writeData .file room buf count offset
    have hstep : (t.step (.write room buf count offset)).spec
        = t.spec.apply (.write room buf count offset) := by
      refine if_neg ?_
      show ¬ out.2 < 0
      omega
    refine Follows.of_gap hwf ?_ (fun x _ hx => ?_) fun x hx => ?_
    · rw [hstep]
      show out.1.size = max t.spec.size (offset + count)
      rw [hsz, hsize]
    · replace hx : x < offset := hx
      show x < out.1.size
      omega
    · replace hx : x < out.1.size := hx
      rw [hstep]
      show _ ∧ x < offset ∧ offset + count ≤ _ ∧
          out.1.byteAt x = _ ∧
          (if offset ≤ x ∧ x < offset + count then buf (x - offset)
            else if t.spec.size ≤ x then 0 else t.spec.byte x) = 0 ∨
        ¬ (_ ∧ x < offset ∧ offset + count ≤ _) ∧
          out.1.byteAt x
            = if offset ≤ x ∧ x < offset + count then buf (x - offset)
              else if t.spec.size ≤ x then 0 else t.spec.byte x
      rw [hbyte x (hsz ▸ hx), ← hsize]
      -- a byte that is written
      by_cases hin : offset ≤ x ∧ x < offset + count
      · rw [if_pos hin, if_pos hin]
        exact .inr ⟨by omega, rfl⟩
      rw [if_neg hin, if_neg hin]
      -- a byte of the old file
      by_cases hold : x < t.file.size
      · rw [if_pos (.inl hold), if_neg (by omega)]
        exact .inr ⟨by omega, h.byte x hold⟩
      rw [if_pos (by omega : t.file.size ≤ x)]
      -- in the gap: the old buffer shows what it held, a new one is cleared
      by_cases hcap : offset + count ≤ t.file.capacity
      · rw [if_pos (.inr hcap)]
        exact .inl ⟨by omega, by omega, hcap, rfl, rfl⟩
      · rw [if_neg (by omega)]
        exact .inr ⟨by omega, rfl⟩
  | truncate room length =>
    obtain ⟨hcap, hsame, hrc⟩ | ⟨hrc, hwf, hsz, hbyte⟩ := truncateInode_cases h.wf room length
    · refine h.idle (step_of_fails hsame hrc) fun hreach => ?_
      replace hreach : length ≤ t.file.capacity := hreach
      omega
    set out := t.file.truncateInode .file room length
    have hstep : (t.step (.truncate room length)).spec = t.spec.apply (.truncate room length) := by
      refine if_neg ?_
      show ¬ out.2 < 0
      omega
    refine Follows.of_gap hwf ?_ (fun x _ hx => ?_) fun x hx => ?_
    · rw [hstep]
      exact hsz
    · show x < out.1.size
      rw [hsz]
      exact hx
    · replace hx : x < out.1.size := hx
      rw [hsz] at hx
      rw [hstep]
      show _ ∧ x < length ∧ length ≤ _ ∧
          out.1.byteAt x = _ ∧
          (if t.spec.size ≤ x then 0 else t.spec.byte x) = 0 ∨
        ¬ (_ ∧ x < length ∧ length ≤ _) ∧
          out.1.byteAt x = if t.spec.size ≤ x then 0 else t.spec.byte x
      rw [hbyte x hx, ← hsize]
      by_cases hold : x < t.file.size
      · rw [if_pos (.inl hold), if_neg (by omega)]
        exact .inr ⟨by omega, h.byte x hold⟩
      rw [if_pos (by omega : t.file.size ≤ x)]
      -- the same gap
      by_cases hcap : length ≤ t.file.capacity
      · rw [if_pos (.inr hcap)]
        exact .inl ⟨by omega, hx, hcap, rfl, rfl⟩
      · rw [if_neg (by omega)]
        exact .inr ⟨by omega, rfl⟩

/-- A call that fails changes nothing. -/
theorem Inv.fails (h : Inv t) (c : DataCall) (hrc : (t.file.call c).2 < 0) :
    (t.file.call c).1 = t.file := by
  cases c with
  | read buf count offset => rfl
  | write room buf count offset =>
    obtain ⟨-, hsame, -⟩ | ⟨hok, -⟩ := writeData_cases h.wf room buf count offset
    · exact hsame
    · replace hrc : (t.file.writeData .file room buf count offset).2 < 0 := hrc
      omega
  | truncate room length =>
    obtain ⟨-, hsame, -⟩ | ⟨hok, -⟩ := truncateInode_cases h.wf room length
    · exact hsame
    · replace hrc : (t.file.truncateInode .file room length).2 < 0 := hrc
      omega

/-- **A file is the array of its bytes** in a run exactly if no call extends it
over bytes that are left in the buffer. -/
theorem alongCall_iff (cs : List DataCall) :
    Along step CallOk start cs ↔ Along step (fun t c => ZeroGap t.file c) start cs := by
  refine along_congr (fun t c h => ?_) (fun t c h hzero => ?_) inv_start
  · obtain ⟨hwf, hsize, hiff⟩ := h.step_iff c
    rw [CallOk, agree_iff hwf hsize, hiff]
    exact and_iff_left (h.fails c)
  · obtain ⟨hwf, hsize, hiff⟩ := h.step_iff c
    exact ⟨hwf, hsize, hiff.2 hzero⟩

/-- A byte is written, cut off and uncovered again. -/
theorem alongCall_uncover : ¬ Along step CallOk start
    [.write true (fun _ => 0x41) 1 0, .truncate true 0, .truncate true 1] := by
  rintro ⟨-, -, ⟨⟨-, hread⟩, -⟩, -⟩
  have h := congrFun (congrArg Prod.snd (hread (fun _ => 0) 1 0)) 0
  revert h
  decide

end TracedFile

end UnixOs
