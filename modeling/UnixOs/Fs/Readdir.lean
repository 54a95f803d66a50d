import UnixOs.Fs.Getdents

/-!
# `readdir` of ramfs and ext2 (ramfs_ops.c, ext2.c)

Both are a `DirReader`: the cursor of ramfs is the index of the next child, the one of
ext2 the offset of the next record. `vfs_inode_dtype` asks ramfs, whatever the file
system.
-/

namespace UnixOs

open List DirRec

open Chunks

/-! ## ramfs -/

namespace Ramfs

variable (k : Ramfs)

/-- `ramfs_inode_dtype` (ramfs.c:284). -/
def inodeDtype (i : Nat) : UInt8 :=
  match k.type i with
  | .dir => 4
  | .file => 8
  | .free => 0

/-- The record of the child at index `i`. -/
def dirent (i c : Nat) : Dirent := ⟨.ofNat c, .ofNat (i + 1), k.name c⟩

/-- The loop of `ramfs_op_readdir` (ramfs_ops.c:58) from index `i` on. -/
def readdirLoop (size : Nat) : Nat → Nat → List Nat → List Dirent × Nat
  | _, i, [] => ([], i)
  | written, i, c :: cs =>
    let e := k.dirent i c
    if size < written + e.reclen then ([], i)
    else
      let (recs, pos) := readdirLoop size (written + e.reclen) (i + 1) cs
      (e :: recs, pos)

/-- `ramfs_op_readdir` (ramfs_ops.c:58) of a directory. -/
def opReaddir (d size pos : Nat) : List Dirent × Nat :=
  k.readdirLoop size 0 pos ((k.children d).drop pos)

/-- The entries from index `i` on. -/
def direntsFrom (i : Nat) : List Nat → List Dirent
  | [] => []
  | c :: cs => k.dirent i c :: direntsFrom (i + 1) cs

variable {k} {i : Nat}

theorem readdirLoop_eq (size w i : Nat) (cs : List Nat) :
    (k.readdirLoop size w i cs).1 = fitting Dirent.reclen size w (k.direntsFrom i cs) ∧
      (k.readdirLoop size w i cs).2 = i + (k.readdirLoop size w i cs).1.length := by
  induction cs generalizing w i with
  | nil => exact ⟨rfl, rfl⟩
  | cons c cs ih =>
    rw [readdirLoop, direntsFrom, fitting]
    split
    · exact ⟨rfl, rfl⟩
    · obtain ⟨hrecs, hpos⟩ := ih (w + (k.dirent i c).reclen) (i + 1)
      refine ⟨congrArg _ hrecs, ?_⟩
      rw [hpos, length_cons]
      omega

theorem direntsFrom_drop (n : Nat) (cs : List Nat) :
    k.direntsFrom (i + n) (cs.drop n) = (k.direntsFrom i cs).drop n := by
  induction n generalizing i cs with
  | zero => rfl
  | succ n ih =>
    cases cs with
    | nil => rfl
    | cons c cs =>
      rw [drop_succ_cons, direntsFrom, drop_succ_cons, ← ih, (by omega : i + (n + 1) = i + 1 + n)]

theorem mem_direntsFrom {e : Dirent} {cs : List Nat} (h : e ∈ k.direntsFrom i cs) :
    ∃ c ∈ cs, e.ino = .ofNat c ∧ e.name = k.name c := by
  induction cs generalizing i with
  | nil => cases h
  | cons c cs ih =>
    obtain rfl | h := mem_cons.1 h
    · exact ⟨c, mem_cons_self, rfl, rfl⟩
    · obtain ⟨c', hc', hname⟩ := ih h
      exact ⟨c', mem_cons_of_mem c hc', hname⟩

/-- A directory of ramfs, whose names are C strings. -/
def dirReader (k : Ramfs) (d : Nat)
    (hnames : ∀ c ∈ k.children d, (0 : UInt8) ∉ k.name c ∧ (k.name c).length ≤ 63) : DirReader where
  readdir := k.opReaddir d
  type ino := k.inodeDtype ino.toNat
  rest pos := k.direntsFrom pos ((k.children d).drop pos)
  Valid _ := True
  start := trivial
  legal e he := by
    obtain ⟨c, hc, -, hname⟩ := mem_direntsFrom he
    obtain ⟨hnul, hlen⟩ := hnames c (mem_of_mem_drop hc)
    refine ⟨?_, ?_⟩
    · rw [hname]
      exact hnul
    · rw [hname]
      omega
  chunk _ := (readdirLoop_eq _ _ _ _).1
  valid _ := trivial
  advance {size pos} _ := by
    have hpos := (readdirLoop_eq (k := k) size 0 pos ((k.children d).drop pos)).2
    rw [opReaddir, hpos, ← drop_drop, direntsFrom_drop]

end Ramfs

/-! ## ext2 -/

namespace Ext2Dir

/-- Whether the record is listed: a live one, and neither `.` nor `..`. -/
def emits (r : DirRec) : Bool :=
  decide (r.inode ≠ 0 ∧ r.name ≠ [] ∧ r.name ≠ [dot] ∧ r.name ≠ [dot, dot])

/-- The entry of the record at `cursor`. -/
def dirent (cursor : Nat) (r : DirRec) : Dirent :=
  ⟨.ofNat r.inode, .ofNat (cursor + r.recLen), r.name⟩

/-- The records from an offset on. -/
def recsFrom : Nat → List DirRec → List DirRec
  | _, [] => []
  | pos, r :: rs => if pos = 0 then r :: rs else recsFrom (pos - r.recLen) rs

/-- The loops of `ext2_readdir_chunk` (ext2.c:958) over the records of all blocks. -/
def chunkLoop (size : Nat) : Nat → Nat → List DirRec → List Dirent × Nat
  | _, cursor, [] => ([], cursor)
  | written, cursor, r :: rs =>
    if emits r then
      let e := dirent cursor r
      if size < written + e.reclen then ([], cursor)
      else
        let (recs, pos) := chunkLoop size (written + e.reclen) (cursor + r.recLen) rs
        (e :: recs, pos)
    else chunkLoop size written (cursor + r.recLen) rs

/-- `ext2_readdir_chunk` (ext2.c:958) of a directory that can be read. -/
def readdirChunk (recs : List DirRec) (size pos : Nat) : List Dirent × Nat :=
  chunkLoop size 0 pos (recsFrom pos recs)

/-- The entries from the record at `cursor` on. -/
def direntsFrom : Nat → List DirRec → List Dirent
  | _, [] => []
  | cursor, r :: rs =>
    if emits r then dirent cursor r :: direntsFrom (cursor + r.recLen) rs
    else direntsFrom (cursor + r.recLen) rs

variable {size cursor pos : Nat} {recs : List DirRec}

theorem recsFrom_zero (recs : List DirRec) : recsFrom 0 recs = recs := by
  cases recs with
  | nil => rfl
  | cons r rs => exact if_pos rfl

/-- Between two records the offset finds the second. -/
theorem recsFrom_append (front back : List DirRec) (hpos : ∀ r ∈ front, 0 < r.recLen) :
    recsFrom (front.map recLen).sum (front ++ back) = back := by
  induction front with
  | nil => exact recsFrom_zero back
  | cons r front ih =>
    have hr := hpos r mem_cons_self
    rw [map_cons, sum_cons, cons_append, recsFrom, if_neg (by omega), Nat.add_sub_cancel_left]
    exact ih fun x hx => hpos x (mem_cons_of_mem r hx)

theorem mem_of_mem_recsFrom {r : DirRec} (h : r ∈ recsFrom pos recs) : r ∈ recs := by
  induction recs generalizing pos with
  | nil => exact h
  | cons x xs ih =>
    rw [recsFrom] at h
    split at h
    · exact h
    · exact mem_cons_of_mem x (ih h)

/-- Every name in the listing is one of a record. -/
theorem mem_direntsFrom {e : Dirent} (h : e ∈ direntsFrom cursor recs) :
    ∃ r ∈ recs, e.name = r.name := by
  induction recs generalizing cursor with
  | nil => cases h
  | cons r rs ih =>
    have hrest (h : e ∈ direntsFrom (cursor + r.recLen) rs) : ∃ r' ∈ r :: rs, e.name = r'.name := by
      obtain ⟨r', hr', hname⟩ := ih h
      exact ⟨r', mem_cons_of_mem r hr', hname⟩
    rw [direntsFrom] at h
    split at h
    · obtain rfl | h := mem_cons.1 h
      · exact ⟨r, mem_cons_self, rfl⟩
      · exact hrest h
    · exact hrest h

/-- The loop stops in front of a record, behind the entries it has written. -/
theorem chunkLoop_eq (size w cursor : Nat) (recs : List DirRec) :
    ∃ front back, recs = front ++ back ∧
      (chunkLoop size w cursor recs).1 = fitting Dirent.reclen size w (direntsFrom cursor recs) ∧
      (chunkLoop size w cursor recs).2 = cursor + (front.map recLen).sum ∧
      direntsFrom (chunkLoop size w cursor recs).2 back
        = (direntsFrom cursor recs).drop (chunkLoop size w cursor recs).1.length := by
  induction recs generalizing w cursor with
  | nil => exact ⟨[], [], rfl, rfl, rfl, rfl⟩
  | cons r rs ih =>
    rw [chunkLoop, direntsFrom]
    by_cases hr : emits r
    · rw [if_pos hr, if_pos hr, fitting]
      dsimp only
      split
      · refine ⟨[], r :: rs, rfl, rfl, rfl, ?_⟩
        rw [direntsFrom, if_pos hr]
        rfl
      · obtain ⟨front, back, hsplit, hrecs, hpos, hrest⟩ :=
          ih (w + (dirent cursor r).reclen) (cursor + r.recLen)
        refine ⟨r :: front, back, by rw [hsplit]; rfl, congrArg _ hrecs, ?_, hrest⟩
        rw [hpos, map_cons, sum_cons, add_assoc]
    · rw [if_neg hr, if_neg hr]
      obtain ⟨front, back, hsplit, hrecs, hpos, hrest⟩ := ih w (cursor + r.recLen)
      refine ⟨r :: front, back, by rw [hsplit]; rfl, hrecs, ?_, hrest⟩
      rw [hpos, map_cons, sum_cons, add_assoc]

/-- From the offset of a record the call ends at the offset of a record. -/
theorem readdirChunk_eq (size : Nat) {front back : List DirRec}
    (hpos : ∀ r ∈ front ++ back, 0 < r.recLen) :
    ∃ front' back', front ++ back = front' ++ back' ∧
      (readdirChunk (front ++ back) size (front.map recLen).sum).2
        = (front'.map recLen).sum ∧
      direntsFrom (front'.map recLen).sum back' = (direntsFrom (front.map recLen).sum back).drop
          (readdirChunk (front ++ back) size (front.map recLen).sum).1.length := by
  have hback : recsFrom (front.map recLen).sum (front ++ back) = back :=
    recsFrom_append front back fun r hr => hpos r (mem_append_left _ hr)
  rw [readdirChunk, hback]
  obtain ⟨mid, back', rfl, -, hend, hrest⟩ := chunkLoop_eq size 0 (front.map recLen).sum back
  have hsum : ((front ++ mid).map recLen).sum
      = (front.map recLen).sum + (mid.map recLen).sum := by
    rw [map_append, sum_append]
  refine ⟨front ++ mid, back', (append_assoc ..).symm, hend.trans hsum.symm, ?_⟩
  rw [hsum, ← hend]
  exact hrest

/-- A directory of ext2: its records, none of them empty, with names that are C
strings. -/
def dirReader (recs : List DirRec) (type : UInt32 → UInt8)
    (hrecs : ∀ r ∈ recs, 0 < r.recLen ∧ (0 : UInt8) ∉ r.name ∧ r.name.length ≤ 255) :
    DirReader where
  readdir := readdirChunk recs
  type := type
  rest pos := direntsFrom pos (recsFrom pos recs)
  Valid pos := ∃ front back, recs = front ++ back ∧ pos = (front.map recLen).sum
  start := ⟨[], recs, rfl, rfl⟩
  legal e he := by
    obtain ⟨r, hr, hname⟩ := mem_direntsFrom he
    obtain ⟨-, hnul, hlen⟩ := hrecs r (mem_of_mem_recsFrom hr)
    refine ⟨?_, ?_⟩
    · rw [hname]
      exact hnul
    · rw [hname]
      exact hlen
  chunk _ := by
    obtain ⟨-, -, -, hchunk, -⟩ := chunkLoop_eq _ 0 _ (recsFrom _ recs)
    exact hchunk
  valid {size pos} hv := by
    obtain ⟨front, back, rfl, rfl⟩ := hv
    obtain ⟨front', back', hsplit, hend, -⟩ := readdirChunk_eq size fun r hr => (hrecs r hr).1
    exact ⟨front', back', hsplit, hend⟩
  advance {size pos} hv := by
    obtain ⟨front, back, rfl, rfl⟩ := hv
    have hpos (r : DirRec) (hr : r ∈ front ++ back) : 0 < r.recLen := (hrecs r hr).1
    have hback : recsFrom (front.map recLen).sum (front ++ back) = back :=
      recsFrom_append front back fun r hr => hpos r (mem_append_left _ hr)
    obtain ⟨front', back', hsplit, hend, hrest⟩ := readdirChunk_eq size hpos
    have hback' : recsFrom (front'.map recLen).sum (front ++ back) = back' := by
      rw [hsplit]
      refine recsFrom_append front' back' fun r hr => hpos r ?_
      rw [hsplit]
      exact mem_append_left _ hr
    rw [hend, hback', hback]
    exact hrest

end Ext2Dir

/-! ## Types -/

/-- `vfs_inode_dtype` (vfs_core.c:73) reads the table of ramfs; `beyond` is the memory
behind it. -/
def vfsInodeDtype (k : Ramfs) (beyond : Nat → UInt8) (ino : UInt32) : UInt8 :=
  if ino.toNat < ramfsMaxInodes then k.inodeDtype ino.toNat else beyond ino.toNat

/-! Two files in the root of a ramfs, listed with buffers of 20 and of 24 bytes. -/

/-- The files `a` and `b`. -/
def twoFiles : Ramfs :=
  ((Ramfs.init.createFile ramfsRootIno [0x61]).1.createFile ramfsRootIno [0x62]).1

def twoFilesReader : DirReader := twoFiles.dirReader ramfsRootIno (by decide)

/-- A buffer of 20 bytes takes one record in each call. -/
theorem listing_twoCalls :
    twoFilesReader.listing (vfsInodeDtype twoFiles fun _ => 0) (fun _ _ => 0) 20 3 0
      = some ((twoFilesReader.rest 0).flatMap (·.userBytes twoFilesReader.type)) := by
  refine (twoFilesReader.listing_eq_iff _ _ 20 (by decide)).2 ⟨by decide, ?_, by decide⟩
  have hrest : twoFilesReader.rest 0 = [⟨2, 1, [0x61]⟩] ++ ([⟨3, 2, [0x62]⟩] ++ []) := by decide
  rw [hrest]
  exact .chunk (by decide) (by decide) (by decide)
    (.chunk (by decide) (by decide) (by decide) .nil)

/-- Two records of 12 bytes are read; written anew they take 16 each, and the second is
lost. -/
theorem listing_twoFiles :
    (∀ e ∈ twoFilesReader.rest 0, e.userReclen ≤ 24) ∧
    twoFilesReader.listing (vfsInodeDtype twoFiles fun _ => 0) (fun _ _ => 0) 24 3 0
      ≠ some ((twoFilesReader.rest 0).flatMap (·.userBytes twoFilesReader.type)) := by
  decide +kernel

end UnixOs
