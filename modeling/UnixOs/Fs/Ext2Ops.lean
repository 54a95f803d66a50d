import UnixOs.Fs.Ext2
import UnixOs.Fs.Ext2Dir
import UnixOs.Lib.Spans

/-!
# Files and directories of ext2 on the device (ext2.c, ext2_ops.c)

Reading and writing the data of a file, and adding and removing an entry of a
directory, as requests for blocks. A directory block is its bytes here: a record is
read at its offset, and the loops over the records end where `rec_len` is zero or
the block ends.

An operation of ext2_ops.c takes the time once.
-/

namespace UnixOs

open BlockDevice Bytes ErrState Spans Errno

namespace Ext2

/-! ## Data -/

/-- The pointers of an index block. -/
def ptrsPerBlock (s : Ext2) : Nat := s.blockSize / 4

/-- `read_block` for a pointer: a block that cannot be read, or is none, has no
pointers (ext2.c:235). -/
def readPointer (blk i : Nat) : Ext2M Nat := do
  if blk = 0 then pure 0
  else
    match ← attempt (readBlock blk) with
    | none => pure 0
    | some buf => pure (word buf (4 * i)).toNat

/-- `inode_block_phys` (ext2.c:225). -/
def inodeBlockPhys (n : Ext2Inode) (logical : Nat) : Ext2M Nat := do
  let s ← get
  let ppb := s.ptrsPerBlock
  if logical < ext2NdirBlocks then pure (n.block logical).toNat
  else
    let logical := logical - ext2NdirBlocks
    if logical < ppb then readPointer (n.block ext2IndBlock).toNat logical
    else
      let logical := logical - ppb
      if logical < ppb * ppb then
        let mid ← readPointer (n.block ext2DindBlock).toNat (logical / ppb)
        readPointer mid (logical % ppb)
      else pure 0

/-- One round of `read_inode_data`. -/
def readSpan (n : Ext2Inode) (sp : Span) : Ext2M (List UInt8) := do
  let s ← get
  let phys ← inodeBlockPhys n (sp.block s.blockSize)
  if phys = 0 then pure (List.replicate sp.len 0)
  else
    let buf ← readBlock phys
    pure (Image.load buf (sp.inoff s.blockSize) sp.len)

/-- `read_inode_data` (ext2.c:301): the bytes that are copied. The sum of offset and
length is one of `uint32_t`. -/
def readInodeData (n : Ext2Inode) (len offset : Nat) : Ext2M (List UInt8) := do
  let s ← get
  let size := n.size.toNat
  if size ≤ offset then pure []
  else
    let toRead := if size < (offset + len) % 2 ^ 32 then size - offset else len
    (spans s.blockSize offset toRead).foldlM (fun out sp => do
      let bytes ← readSpan n sp
      pure (out ++ bytes)) []

/-- `ext2_read_inode` (ext2.c:331). -/
def readFile (ino len offset : Nat) : Ext2M (List UInt8) := do
  match ← attempt (readInode ino) with
  | none => throw (-Errno.EIO)
  | some n => if n.isReg then readInodeData n len offset else throw (-EISDIR)

/-- `splice_and_journal_locked` (ext2.c:490). -/
def spliceAndJournal (phys inoff : Nat) (src : List UInt8) (zeroFirst : Bool) : Ext2M Unit := do
  let buf ← if zeroFirst then pure fun _ => 0 else readBlock phys
  journaledWrite phys (Image.store buf ⟨inoff, src⟩)

/-- The block of a hole, and the inode with it (ext2.c:540). -/
def fillHole (n : Ext2Inode) (logical : Nat) : Ext2M Ext2Inode := do
  let s ← get
  let blk ← allocBlock
  let n := n.setBlock logical (UInt32.ofNat blk)
  pure (n.setBlocks (n.blocks + UInt32.ofNat (s.blockSize / 512)))

/-- One round of `ext2_inode_write_data`, with the inode in memory. -/
def writeSpan (data : List UInt8) (offset : Nat) (n : Ext2Inode) (sp : Span) :
    Ext2M Ext2Inode := do
  let s ← get
  let logical := sp.block s.blockSize
  let hole := decide (n.block logical = 0)
  let n ← if hole then fillHole n logical else pure n
  let src := (data.drop (sp.pos - offset)).take sp.len
  spliceAndJournal (n.block logical).toNat (sp.inoff s.blockSize) src hole
  pure n

/-- `ext2_inode_write_data` (ext2.c:506): how many bytes were written. -/
def inodeWriteData (ino : Nat) (data : List UInt8) (offset : Nat) (now : UInt32) : Ext2M Nat := do
  let s ← get
  if data = [] then pure 0
  else if ext2NdirBlocks * s.blockSize < offset + data.length then throw (-EFBIG)
  else
    match ← attempt (readInode ino) with
    | none => throw (-Errno.EIO)
    | some n =>
      if n.isReg = false then throw (-EISDIR)
      else
        let n ← (spans s.blockSize offset data.length).foldlM (writeSpan data offset) n
        let stop := UInt32.ofNat (offset + data.length)
        let n := if n.size < stop then n.setSize stop else n
        writeInode ino (n.touch now)
        syncLocked
        pure data.length

/-! ## Directory blocks -/

section Records

variable (buf : Image UInt8) (off : Nat)

def recInode : UInt32 := word buf off
def recLen : UInt16 := half buf (off + 4)
def recNameLen : Nat := (buf (off + 6)).toNat

/-- A live record with this name. -/
def recNamed (name : FileName) : Bool :=
  decide (recInode buf off ≠ 0) && decide (recNameLen buf off = name.length) &&
    decide (Image.load buf (off + 8) name.length = name)

/-- `slack`, in `uint32_t`. -/
def recSlack : UInt32 :=
  UInt32.ofNat (recLen buf off).toNat - UInt32.ofNat (dirEntrySize (recNameLen buf off))

/-- A free record that is long enough, or one with as much slack. -/
def recFits (need : Nat) : Bool :=
  if recInode buf off = 0 then decide (need ≤ (recLen buf off).toNat)
  else decide (need ≤ (recSlack buf off).toNat)

/-- An entry is put at an offset; `rec_len` stays. -/
def putRec (name : FileName) (child : Nat) (fileType : UInt8) : Image UInt8 :=
  Image.store (putWord buf off (UInt32.ofNat child))
    ⟨off + 6, UInt8.ofNat name.length :: fileType :: name⟩

/-- An entry takes over a free record, or the slack behind one (ext2.c:706). -/
def placeRec (name : FileName) (child : Nat) (fileType : UInt8) : Image UInt8 :=
  if recInode buf off = 0 then putRec buf off name child fileType
  else
    let actual := dirEntrySize (recNameLen buf off)
    let buf' := putHalf buf (off + 4) (UInt16.ofNat actual)
    let buf' := putHalf buf' (off + actual + 4) (recLen buf off - UInt16.ofNat actual)
    putRec buf' (off + actual) name child fileType

end Records

/-- The search for a name from a record on: the record, and the one in front of it. -/
def findName (bs : Nat) (buf : Image UInt8) (name : FileName) :
    Nat → Option Nat → Nat → Option (Option Nat × Nat)
  | 0, _, _ => none
  | fuel + 1, prev, off =>
    if bs ≤ off ∨ recLen buf off = 0 then none
    else if recNamed buf off name then some (prev, off)
    else findName bs buf name fuel (some off) (off + (recLen buf off).toNat)

/-- The search for room from a record on. -/
def findRoom (bs : Nat) (buf : Image UInt8) (need : Nat) : Nat → Nat → Option Nat
  | 0, _ => none
  | fuel + 1, off =>
    if bs ≤ off ∨ recLen buf off = 0 then none
    else if recFits buf off need then some off
    else findRoom bs buf need fuel (off + (recLen buf off).toNat)

/-- The block of a new directory block: one record (ext2.c:772). -/
def newDirBlock (bs : Nat) (name : FileName) (child : Nat) (fileType : UInt8) : Image UInt8 :=
  putRec (putHalf (fun _ => 0) 4 (UInt16.ofNat bs)) 0 name child fileType

/-- A record leaves its block (ext2.c:842): it is joined to the one in front of it, or
made free. -/
def dropRec (buf : Image UInt8) (prev : Option Nat) (off : Nat) : Image UInt8 :=
  match prev with
  | none => putWord buf off 0
  | some p => putHalf buf (p + 4) (recLen buf p + recLen buf off)

/-! ## Directories -/

/-- The loop of `ext2_dir_add_entry` over the blocks of a directory: whether the
entry was placed. -/
def addInBlocks (dir : Ext2Inode) (name : FileName) (child : Nat) (fileType : UInt8) :
    List Nat → Ext2M Bool
  | [] => pure false
  | l :: ls => do
    let s ← get
    let phys := (dir.block l).toNat
    if phys = 0 then pure false
    else
      let buf ← readBlock phys
      if (findName s.blockSize buf name s.blockSize none 0).isSome then throw (-EEXIST)
      else
        match findRoom s.blockSize buf (dirEntrySize name.length) s.blockSize 0 with
        | none => addInBlocks dir name child fileType ls
        | some off =>
          match ← attempt (journaledWrite phys (placeRec buf off name child fileType)) with
          | none => throw (-Errno.EIO)
          | some _ =>
            syncLocked
            pure true

/-- The search of `ext2_dir_add_entry` for a block (ext2.c:760): other than that of
`ext2_inode_write_data` it ends with an I/O error. -/
def allocDirBlockFrom : List Nat → Ext2M Nat
  | [] => throw (-ENOSPC)
  | g :: gs => fun s =>
    match (allocBlockInGroup g).run s with
    | .ok blk s => .ok blk s
    | .error rc s => if rc = -Errno.EIO then .error rc s else (allocDirBlockFrom gs).run s

/-- A new block for the entry (ext2.c:746). -/
def addBlock (parent : Nat) (dir : Ext2Inode) (name : FileName) (child : Nat) (fileType : UInt8)
    (now : UInt32) : Ext2M Unit := do
  let s ← get
  match (List.range ext2NdirBlocks).find? fun i => dir.block i = 0 with
  | none => throw (-EFBIG)
  | some slot =>
    let blk ← allocDirBlockFrom (List.range s.groups)
    match ← attempt (journaledWrite blk (newDirBlock s.blockSize name child fileType)) with
    | none => throw (-Errno.EIO)
    | some _ =>
      let dir := dir.setBlock slot (UInt32.ofNat blk)
      let dir := dir.setBlocks (dir.blocks + UInt32.ofNat (s.blockSize / 512))
      let dir := dir.setSize (dir.size + UInt32.ofNat s.blockSize)
      writeInode parent (dir.touch now)
      syncLocked

/-- `ext2_dir_add_entry` (ext2.c:645). -/
def dirAddEntry (parent : Nat) (name : FileName) (child : Nat) (fileType : UInt8)
    (now : UInt32) : Ext2M Unit := do
  if name = [] ∨ child = 0 then throw (-EINVAL)
  else if 255 < name.length then throw (-ENAMETOOLONG)
  else
    match ← attempt (readInode parent) with
    | none => throw (-Errno.EIO)
    | some dir =>
      if dir.isDir = false then throw (-ENOTDIR)
      else
        let placed ← addInBlocks dir name child fileType (List.range ext2NdirBlocks)
        if placed then pure () else addBlock parent dir name child fileType now

/-- The loop of `ext2_dir_remove_entry` over the blocks of a directory. -/
def removeInBlocks (parent : Nat) (dir : Ext2Inode) (name : FileName) (now : UInt32) :
    List Nat → Ext2M Unit
  | [] => throw (-ENOENT)
  | l :: ls => do
    let s ← get
    let phys := (dir.block l).toNat
    if phys = 0 then throw (-ENOENT)
    else
      let buf ← readBlock phys
      match findName s.blockSize buf name s.blockSize none 0 with
      | none => removeInBlocks parent dir name now ls
      | some (prev, off) =>
        match ← attempt (journaledWrite phys (dropRec buf prev off)) with
        | none => throw (-Errno.EIO)
        | some _ =>
          writeInode parent (dir.touch now)
          syncLocked

/-- `ext2_dir_remove_entry` (ext2.c:800). -/
def dirRemoveEntry (parent : Nat) (name : FileName) (now : UInt32) : Ext2M Unit := do
  if name = [] then throw (-EINVAL)
  else
    match ← attempt (readInode parent) with
    | none => throw (-Errno.EIO)
    | some dir =>
      if dir.isDir = false then throw (-ENOTDIR)
      else removeInBlocks parent dir name now (List.range ext2NdirBlocks)

/-- `ext2_inode_adjust_links` (ext2.c:870) with `delta` 1, the only one it is called
with. -/
def adjustLinks (ino : Nat) (now : UInt32) : Ext2M Unit := do
  match ← attempt (readInode ino) with
  | none => throw (-Errno.EIO)
  | some n =>
    let links := UInt16.ofNat (min (n.linksCount.toNat + 1) 0xFFFF)
    writeInode ino ((n.setLinksCount links).setCtime now)
    syncLocked

/-! ## The operations (ext2_ops.c) -/

/-- `EXT2_FT_REG_FILE`. -/
def ext2FtRegFile : UInt8 := 1

/-- `EXT2_FT_DIR`. -/
def ext2FtDir : UInt8 := 2

/-- `ext2_op_mkdir`. -/
def opMkdir (parent : Nat) (name : FileName) (mode : UInt16) (now : UInt32) : Ext2M Nat := do
  let ino ← allocInode (mode &&& 0xFFF ||| ext2SIfdir) now
  dirAddEntry ino [0x2E] ino ext2FtDir now
  dirAddEntry ino [0x2E, 0x2E] parent ext2FtDir now
  dirAddEntry parent name ino ext2FtDir now
  let _ ← attempt (adjustLinks ino now)
  let _ ← attempt (adjustLinks parent now)
  pure ino

/-- `ext2_op_create`. -/
def opCreate (parent : Nat) (name : FileName) (mode : UInt16) (now : UInt32) : Ext2M Nat := do
  let ino ← allocInode (mode &&& 0xFFF ||| ext2SIfreg) now
  dirAddEntry parent name ino ext2FtRegFile now
  pure ino

/-- `ext2_op_unlink`: only the entry goes. -/
def opUnlink (parent : Nat) (name : FileName) (now : UInt32) : Ext2M Unit :=
  dirRemoveEntry parent name now

end Ext2

end UnixOs
