import UnixOs.Fs.Ext2Dir
import UnixOs.Fs.RamfsOpen
import UnixOs.Lib.Bytes
import UnixOs.Lib.Chunks

/-!
# Listing a directory (sys_fs.c, vfs_fd.c, ramfs_ops.c, ext2.c)

`sys_getdents` reads records of the file system into a buffer of at most 256 bytes
and writes them anew into a second one of that size, with a type behind the name:
a record can become four bytes longer. The cursor of the open file has by then
passed everything that was read.

- `DirReader`: `readdir` of a file system on one directory that does not change;
- `listing`: the calls until one returns 0;
- `listing_eq_iff`: which directories are listed in full.
-/

namespace UnixOs

open List Option

open Bytes Chunks

/-- `BUF_SIZE_CONST`. -/
def bufSize : Nat := 256

/-- `struct linux_dirent`. -/
structure Dirent where
  ino : UInt32
  off : UInt32
  name : FileName
  deriving DecidableEq

open Dirent

namespace Dirent

variable (e : Dirent)

/-- A name as directories hold it. -/
structure Legal : Prop where
  nul : (0 : UInt8) ∉ e.name
  short : e.name.length ≤ 255

/-- The length of a record of `readdir`. -/
def reclen : Nat := Ramfs.reclen e.name

/-- `new_reclen` (sys_fs.c:404), with room for the type. -/
def userReclen : Nat := (10 + e.name.length + 1 + 1 + 3) / 4 * 4

/-- The record in the buffer of the kernel; behind the name stands what was in the
buffer before. -/
def bytes (junk : Nat → UInt8) : List UInt8 :=
  le32 e.ino ++ (le32 e.off ++ (bytesOf 2 e.reclen ++
    (e.name ++ 0 :: (range (e.reclen - 11 - e.name.length)).map junk)))

/-- The record for the user, with the type in its last byte. -/
def userBytes (dtype : UInt32 → UInt8) : List UInt8 :=
  le32 e.ino ++ (le32 e.off ++ (bytesOf 2 e.userReclen ++
    (e.name ++ (replicate (e.userReclen - 11 - e.name.length) 0 ++ [dtype e.ino]))))

end Dirent

/-- The records in the buffer of the kernel, from `pos` on; `junk` is what was in the
buffer before. -/
def kernelBytes (junk : Nat → UInt8) : Nat → List Dirent → List UInt8
  | _, [] => []
  | pos, e :: es =>
    e.bytes (fun j => junk (pos + 11 + e.name.length + j)) ++ kernelBytes junk (pos + e.reclen) es

/-- The loop of `sys_getdents` (sys_fs.c:368) over what is left in the buffer, with
`outPos` bytes written. -/
def convert (dtype : UInt32 → UInt8) (cap : Nat) : Nat → Nat → List UInt8 → List UInt8
  | 0, _, _ => []
  | n + 1, outPos, kbuf =>
    if kbuf.length < 10 then []
    else
      let ino := UInt32.ofNat (valueOf (kbuf.take 4))
      let off := UInt32.ofNat (valueOf ((kbuf.drop 4).take 4))
      let inReclen := valueOf ((kbuf.drop 8).take 2)
      if inReclen < 11 ∨ kbuf.length < inReclen then []
      else
        let name := ((kbuf.drop 10).take (inReclen - 10)).takeWhile (· ≠ 0)
        if name.length = inReclen - 10 then []
        else
          let e : Dirent := ⟨ino, off, name⟩
          if cap < outPos + e.userReclen then []
          else e.userBytes dtype ++ convert dtype cap n (outPos + e.userReclen) (kbuf.drop inReclen)

/-- `readdir` on one directory: from the cursor on it writes the records that fit, and
moves the cursor behind them. `rest` are the entries from a cursor on, `Valid` the
cursors it returns, and `type` is the type of an inode on this file system. -/
structure DirReader where
  readdir : Nat → Nat → List Dirent × Nat
  type : UInt32 → UInt8
  rest : Nat → List Dirent
  Valid : Nat → Prop
  start : Valid 0
  legal : ∀ {pos}, ∀ e ∈ rest pos, e.Legal
  chunk : ∀ {size pos}, Valid pos →
    (readdir size pos).1 = fitting reclen size 0 (rest pos)
  valid : ∀ {size pos}, Valid pos → Valid (readdir size pos).2
  advance : ∀ {size pos}, Valid pos →
    rest (readdir size pos).2 = (rest pos).drop (readdir size pos).1.length

namespace DirReader

variable (R : DirReader) (dtype : UInt32 → UInt8)

/-- `sys_getdents` (sys_fs.c:368), over `vfs_readdir_fd` (vfs_fd.c:472): the bytes for
the user, and the cursor of the open file. -/
def getdents (junk : Nat → UInt8) (size pos : Nat) : Except Int (List UInt8) × Nat :=
  if size = 0 then (.error (-Errno.EINVAL), pos)
  else
    let ksz := min size bufSize
    let (recs, pos) := R.readdir ksz pos
    let kbuf := kernelBytes junk 0 recs
    if kbuf = [] then (.ok [], pos) else (.ok (convert dtype ksz kbuf.length 0 kbuf), pos)

/-- Calls until one returns 0, or none if there are more than `n` or one fails;
together what they wrote. -/
def listing (junk : Nat → Nat → UInt8) (size : Nat) : Nat → Nat → Option (List UInt8)
  | 0, _ => none
  | n + 1, pos =>
    match R.getdents dtype (junk n) size pos with
    | (.error _, _) => none
    | (.ok out, pos) => if out = [] then some [] else (listing junk size n pos).map (out ++ ·)

end DirReader

/-! ## The records -/

namespace Dirent

variable {e : Dirent} {dtype dtype' : UInt32 → UInt8}

theorem le_reclen : 11 + e.name.length ≤ e.reclen := by
  unfold reclen Ramfs.reclen
  omega

theorem reclen_le (h : e.Legal) : e.reclen ≤ 268 := by
  have := h.short
  unfold reclen Ramfs.reclen
  omega

theorem le_userReclen : 12 + e.name.length ≤ e.userReclen := by
  unfold userReclen
  omega

theorem length_bytes (junk : Nat → UInt8) : (e.bytes junk).length = e.reclen := by
  have := e.le_reclen
  simp only [bytes, length_append, length_le32, length_bytesOf, length_cons,
    length_map, length_range]
  omega

theorem length_userBytes : (e.userBytes dtype).length = e.userReclen := by
  have := e.le_userReclen
  simp only [userBytes, length_append, length_le32, length_bytesOf, length_replicate,
    length_singleton]
  omega

/-- The type can be read off. -/
theorem userBytes_inj (h : e.userBytes dtype = e.userBytes dtype') :
    dtype e.ino = dtype' e.ino := by
  have hlast := congrArg getLast? h
  simp only [userBytes, ← append_assoc, getLast?_concat] at hlast
  exact Option.some.inj hlast

end Dirent

variable {dtype : UInt32 → UInt8} {recs : List Dirent}

/-- A round of the loop on a record of `readdir`: it is read back as it was. -/
theorem convert_bytes {cap n outPos : Nat} {e : Dirent} (he : e.Legal)
    (junk : Nat → UInt8) (rest : List UInt8) :
    convert dtype cap (n + 1) outPos (e.bytes junk ++ rest) =
      if cap < outPos + e.userReclen then []
      else e.userBytes dtype ++ convert dtype cap n (outPos + e.userReclen) rest := by
  have hle := e.le_reclen
  have hmax := reclen_le he
  have hlen : (e.bytes junk ++ rest).length = e.reclen + rest.length := by
    rw [length_append, length_bytes]
  have hdrop : (e.bytes junk ++ rest).drop e.reclen = rest := by rw [← length_bytes junk, drop_left]
  generalize hb : (range (e.reclen - 11 - e.name.length)).map junk = pad at *
  have hpad : pad.length = e.reclen - 11 - e.name.length := by rw [← hb, length_map, length_range]
  have hbytes : e.bytes junk ++ rest = le32 e.ino ++ (le32 e.off ++ (bytesOf 2 e.reclen ++
      ((e.name ++ 0 :: pad) ++ rest))) := by
    rw [bytes, hb]
    simp only [append_assoc]
  -- the fields
  have hino : UInt32.ofNat (valueOf ((e.bytes junk ++ rest).take 4)) = e.ino := by
    rw [hbytes, take_left' (length_le32 _), valueOf_le32]
    exact UInt32.ofNat_toNat
  have h4 : (e.bytes junk ++ rest).drop 4 = le32 e.off ++ (bytesOf 2 e.reclen ++
      ((e.name ++ 0 :: pad) ++ rest)) := by
    rw [hbytes, drop_left' (length_le32 _)]
  have hoff : UInt32.ofNat (valueOf (((e.bytes junk ++ rest).drop 4).take 4)) = e.off := by
    rw [h4, take_left' (length_le32 _), valueOf_le32]
    exact UInt32.ofNat_toNat
  have h8 : (e.bytes junk ++ rest).drop 8 = bytesOf 2 e.reclen ++
      ((e.name ++ 0 :: pad) ++ rest) := by
    rw [← drop_drop (i := 4), h4, drop_left' (length_le32 _)]
  have hreclen : valueOf (((e.bytes junk ++ rest).drop 8).take 2) = e.reclen := by
    rw [h8, take_left' (length_bytesOf _ _), valueOf_bytesOf]
    exact Nat.mod_eq_of_lt (by omega)
  have h10 : (e.bytes junk ++ rest).drop 10 = (e.name ++ 0 :: pad) ++ rest := by
    rw [← drop_drop (i := 2), h8, drop_left' (length_bytesOf _ _)]
  have hname : (((e.bytes junk ++ rest).drop 10).take (e.reclen - 10)).takeWhile (· ≠ 0) =
      e.name := by
    have hfield : (e.name ++ 0 :: pad).length = e.reclen - 10 := by
      rw [length_append, length_cons, hpad]
      omega
    have hall : ∀ c ∈ e.name, decide (c ≠ 0) = true := by
      intro c hc
      refine decide_eq_true fun h0 => he.nul ?_
      rw [← h0]
      exact hc
    rw [h10, take_left' hfield, takeWhile_append_of_pos hall,
      takeWhile_cons_of_neg (by decide), append_nil]
  rw [convert, if_neg (by omega)]
  rw [hreclen, if_neg (by omega), hname, hino, hoff, if_neg (by omega), hdrop]

theorem length_le_kernelBytes (junk : Nat → UInt8) (pos : Nat) (recs : List Dirent) :
    recs.length ≤ (kernelBytes junk pos recs).length := by
  induction recs generalizing pos with
  | nil => exact Nat.zero_le _
  | cons e es ih =>
    have hrest := ih (pos + e.reclen)
    have hle := e.le_reclen
    rw [kernelBytes, length_append, length_bytes, length_cons]
    omega

/-- The loop passes on the records that fit the second buffer. -/
theorem convert_kernelBytes {cap n outPos : Nat}
    (hlegal : ∀ e ∈ recs, e.Legal) (hn : recs.length ≤ n) (junk : Nat → UInt8) (pos : Nat) :
    convert dtype cap n outPos (kernelBytes junk pos recs) =
      (fitting userReclen cap outPos recs).flatMap (·.userBytes dtype) := by
  induction recs generalizing n outPos pos with
  | nil =>
    cases n with
    | zero => rfl
    | succ n => rw [kernelBytes, convert, if_pos (by decide), fitting, flatMap_nil]
  | cons e es ih =>
    cases n with
    | zero => exact absurd hn (Nat.not_succ_le_zero _)
    | succ n =>
      rw [kernelBytes, convert_bytes (hlegal e mem_cons_self), fitting]
      split
      · rfl
      · rw [flatMap_cons, ih (fun x hx => hlegal x (.tail e hx))
          (Nat.le_of_succ_le_succ hn)]

theorem userBytes_ne_nil {e : Dirent} : e.userBytes dtype ≠ [] := by
  intro h
  have hlen := congrArg length h
  have hle := e.le_userReclen
  rw [length_userBytes, length_nil] at hlen
  omega

theorem flatMap_userBytes_eq_nil : recs.flatMap (·.userBytes dtype) = [] ↔ recs = [] := by
  cases recs with
  | nil => exact iff_of_true rfl rfl
  | cons e es =>
    refine iff_of_false (fun h => ?_) (cons_ne_nil e es)
    rw [flatMap_cons] at h
    exact userBytes_ne_nil (append_eq_nil_iff.1 h).1

/-- Two listings are equal if they list the same entries with the same types. -/
theorem flatMap_userBytes_inj {dtype dtype' : UInt32 → UInt8} :
    recs.flatMap (·.userBytes dtype) = recs.flatMap (·.userBytes dtype') ↔
      ∀ e ∈ recs, dtype e.ino = dtype' e.ino := by
  induction recs with
  | nil => exact iff_of_true rfl fun e he => absurd he not_mem_nil
  | cons e es ih =>
    rw [flatMap_cons, flatMap_cons, forall_mem_cons, ← ih]
    constructor
    · intro h
      obtain ⟨hfirst, hrest⟩ := append_inj h (length_userBytes.trans length_userBytes.symm)
      exact ⟨userBytes_inj hfirst, hrest⟩
    · rintro ⟨hfirst, hrest⟩
      rw [hrest, userBytes, userBytes, hfirst]

theorem length_flatMap_userBytes (recs : List Dirent) :
    (recs.flatMap (·.userBytes dtype)).length = (recs.map userReclen).sum := by
  induction recs with
  | nil => rfl
  | cons e es ih => rw [flatMap_cons, length_append, length_userBytes, ih, map_cons, sum_cons]

/-! ## The calls -/

namespace DirReader

variable {R : DirReader} {dtype : UInt32 → UInt8} {size pos n : Nat}

/-- One call. -/
theorem getdents_eq (hsize : size ≠ 0) (hpos : R.Valid pos) (junk : Nat → UInt8) :
    R.getdents dtype junk size pos = (.ok ((fitting userReclen (min size bufSize) 0
        (fitting reclen (min size bufSize) 0 (R.rest pos))).flatMap (·.userBytes dtype)),
       (R.readdir (min size bufSize) pos).2) := by
  have hlegal : ∀ e ∈ fitting reclen (min size bufSize) 0 (R.rest pos), e.Legal :=
    fun e he => R.legal e ((isPrefix_fitting 0 _).subset he)
  rw [getdents, if_neg hsize]
  dsimp only
  rw [R.chunk hpos]
  split
  · next hnil =>
    have hle := length_le_kernelBytes junk 0 (fitting reclen (min size bufSize) 0 (R.rest pos))
    rw [hnil] at hle
    rw [eq_nil_of_length_eq_zero (Nat.le_zero.1 hle)]
    rfl
  · rw [convert_kernelBytes hlegal (length_le_kernelBytes _ _ _)]

/-- All calls: what the relay lets through. -/
theorem listing_eq (hsize : size ≠ 0) (junk : Nat → Nat → UInt8) (hpos : R.Valid pos)
    (hn : (R.rest pos).length < n) :
    R.listing dtype junk size n pos =
      some ((relay reclen userReclen (min size bufSize) n (R.rest pos)).flatMap
        (·.userBytes dtype)) := by
  induction n generalizing pos with
  | zero => exact absurd hn (Nat.not_lt_zero _)
  | succ n ih =>
    rw [listing, getdents_eq hsize hpos]
    dsimp only
    rw [relay]
    by_cases hout : fitting userReclen (min size bufSize) 0
        (fitting reclen (min size bufSize) 0 (R.rest pos)) = []
    · rw [if_pos hout, if_pos (flatMap_userBytes_eq_nil.2 hout)]
      rfl
    rw [if_neg hout, if_neg fun h => hout (flatMap_userBytes_eq_nil.1 h)]
    have hc : fitting reclen (min size bufSize) 0 (R.rest pos) ≠ [] := by
      intro hnil
      rw [hnil] at hout
      exact hout rfl
    have hrest : R.rest (R.readdir (min size bufSize) pos).2 =
        (R.rest pos).drop (fitting reclen (min size bufSize) 0 (R.rest pos)).length := by
      rw [R.advance hpos, R.chunk hpos]
    have hshort : (R.rest (R.readdir (min size bufSize) pos).2).length < n := by
      have hpos := length_pos_iff.2 hc
      have hle : (fitting reclen (min size bufSize) 0 (R.rest pos)).length
          ≤ (R.rest pos).length := (isPrefix_fitting 0 _).length_le
      rw [hrest, length_drop]
      omega
    rw [ih (R.valid hpos) hshort, hrest, map_some, flatMap_append]

/-- **Completeness of a listing**: calls with a buffer of `size` bytes list every entry
once, in order, with its inode, name and type, if and only if no chunk of records that
fits the buffer outgrows it with the types, and `vfs_inode_dtype` answers for this file
system. -/
theorem listing_eq_iff (R : DirReader) (dtype : UInt32 → UInt8) (junk : Nat → Nat → UInt8)
    (size : Nat) {n : Nat} (hn : (R.rest 0).length < n) :
    R.listing dtype junk size n 0 = some ((R.rest 0).flatMap (·.userBytes R.type)) ↔
      size ≠ 0 ∧ Whole reclen userReclen (min size bufSize) (R.rest 0) ∧
        ∀ e ∈ R.rest 0, dtype e.ino = R.type e.ino := by
  by_cases hsize : size = 0
  · refine iff_of_false ?_ fun h => h.1 hsize
    obtain ⟨n, rfl⟩ : ∃ m, n = m + 1 := ⟨n - 1, by omega⟩
    rw [listing, getdents, if_pos hsize]
    rintro ⟨⟩
  rw [listing_eq hsize junk R.start hn, ← relay_eq_iff hn, some_inj]
  constructor
  · intro h
    have hsum := congrArg length h
    rw [length_flatMap_userBytes, length_flatMap_userBytes] at hsum
    have hall : relay reclen userReclen (min size bufSize) n (R.rest 0) = R.rest 0 := by
      refine eq_of_sublist_of_sum (relay_sublist n _) (fun e _ => ?_) hsum.ge
      have := e.le_userReclen
      omega
    rw [hall] at h
    exact ⟨hsize, hall, flatMap_userBytes_inj.1 h⟩
  · rintro ⟨-, hall, htype⟩
    rw [hall]
    exact flatMap_userBytes_inj.2 htype

end DirReader

end UnixOs
