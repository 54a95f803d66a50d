import UnixOs.Core.Kernel
import UnixOs.Lib.Bytes
import UnixOs.Lib.BlockDevice

/-!
# The write-ahead journal (journal.c)

The journal has one transaction slot: a superblock, a header block and eight
data blocks. `journal_commit` writes the data and a *pending* header, flushes,
writes the *committed* header, flushes, writes the targets, flushes, and then
clears the header without a flush. `journal_replay` redoes the slot when its
header is committed and carries the right CRC.

A `uint32_t` block number is multiplied out to a byte offset on the device.
The lock is left out (one transaction is in flight at a time), and so is the
text `kprintf` prints.
-/

namespace UnixOs

open List Errno

open BlockDevice Bytes

/-! ## Layout (journal.h) -/

def journalMagic : UInt32 := 0x4A4F5552
def journalVersion : UInt32 := 1
def journalBlockSize : Nat := 4096
def journalDefaultBlocks : Nat := 32
def journalMaxPerTxn : Nat := 8

/-- `JOURNAL_SLOT_HDR` (journal.c:39). -/
def journalSlotHdr : Nat := 1

/-- `JOURNAL_SLOT_DATA0` (journal.c:40). -/
def journalSlotData0 : Nat := journalSlotHdr + 1

/-- A buffer of `JOURNAL_BLOCK_SIZE` bytes. -/
structure Block where
  bytes : List UInt8
  length_eq : bytes.length = journalBlockSize

/-- `zero_block` (journal.c:52). -/
def zeroBlock : Block :=
  ⟨replicate journalBlockSize 0, length_replicate⟩

/-- A block that starts with some 32-bit words and is zero behind them. -/
def Block.ofWords (ws : List UInt32) (h : ws.length ≤ 1024) : Block :=
  ⟨encodeWords ws ++ replicate (journalBlockSize - 4 * ws.length) 0, by
    rw [length_append, length_encodeWords, length_replicate,
      journalBlockSize]
    omega⟩

theorem Block.wordAt_ofWords {ws : List UInt32} (h : ws.length ≤ 1024) {i : Nat}
    (hi : i < ws.length) : wordAt (Block.ofWords ws h).bytes i = ws[i] :=
  wordAt_encodeWords ws _ hi

/-- `journal_superblock_t`. The padding is written back as it was read. -/
structure JournalSuperblock where
  magic : UInt32
  version : UInt32
  numBlocks : UInt32
  txnIdNext : UInt32
  pad : Fin 4080 → UInt8

/-- The bytes of a superblock. -/
def JournalSuperblock.toBlock (sb : JournalSuperblock) : Block :=
  ⟨encodeWords [sb.magic, sb.version, sb.numBlocks, sb.txnIdNext]
      ++ ofFn sb.pad, by
    rw [length_append, length_encodeWords, length_ofFn]; rfl⟩

/-- The superblock a block holds. -/
def JournalSuperblock.ofBlock (b : List UInt8) : JournalSuperblock where
  magic := wordAt b 0
  version := wordAt b 1
  numBlocks := wordAt b 2
  txnIdNext := wordAt b 3
  pad := fun i => b.getD (16 + i) 0

/-- `journal_txn_header_t`; nothing reads its padding. -/
@[ext]
structure JournalTxnHeader where
  magic : UInt32
  txnId : UInt32
  numBlocks : UInt32
  committed : UInt32
  targetBlocks : Fin journalMaxPerTxn → UInt32
  crc : UInt32

namespace JournalTxnHeader

/-- The fields in front of `crc`. -/
def words (h : JournalTxnHeader) : List UInt32 :=
  [h.magic, h.txnId, h.numBlocks, h.committed] ++ ofFn h.targetBlocks

@[simp] theorem length_words (h : JournalTxnHeader) : h.words.length = 12 := by
  rw [words, length_append, length_ofFn]
  rfl

/-- The bytes of a header, with zero padding. -/
def toBlock (h : JournalTxnHeader) : Block :=
  Block.ofWords (h.words ++ [h.crc]) (by simp)

/-- The header a block holds. -/
def ofBlock (b : List UInt8) : JournalTxnHeader where
  magic := wordAt b 0
  txnId := wordAt b 1
  numBlocks := wordAt b 2
  committed := wordAt b 3
  targetBlocks := fun i => wordAt b (4 + i)
  crc := wordAt b 12

theorem ofBlock_toBlock (h : JournalTxnHeader) : ofBlock h.toBlock.bytes = h := by
  have hword : ∀ i (hi : i < 13),
      wordAt h.toBlock.bytes i = (h.words ++ [h.crc]).get ⟨i, by simpa using hi⟩ :=
    fun i hi => Block.wordAt_ofWords _ (by simpa using hi)
  ext1
  case targetBlocks =>
    funext i
    have hi : i.val < 8 := i.isLt
    show wordAt h.toBlock.bytes (4 + i) = _
    rw [hword _ (by omega)]
    simp [words, add_comm 4]
  all_goals exact (hword _ (by decide)).trans rfl

end JournalTxnHeader

/-- One byte of the reflected CRC-32 (journal.c:59). -/
def crcByte (crc : UInt32) (byte : UInt8) : UInt32 :=
  (range 8).foldl
    (fun crc _ => (crc >>> 1) ^^^ (0xEDB88320 &&& (0 - (crc &&& 1))))
    (crc ^^^ byte.toUInt32)

/-- `journal_crc` (journal.c:54): the CRC of the bytes in front of `crc`. -/
def journalCrc (h : JournalTxnHeader) : UInt32 :=
  ~~~ (encodeWords h.words).foldl crcByte 0xFFFFFFFF

/-! ## State -/

/-- Where the journal lies and how large its targets are: `g_journal_start`
and `g_target_sectors`. A target is written from a journal buffer, so it is
no longer than one. -/
structure JournalGeometry where
  start : UInt32
  targetSectors : UInt32
  sectors_pos : 0 < targetSectors.toNat
  sectors_le : targetSectors.toNat ≤ 8

/-- One logged block: `target_blocks[i]` and `data_buffers[i]`. -/
structure LogBlock where
  target : UInt32
  data : Block

/-- `struct journal_txn` (journal.c:42). -/
structure JournalTxn where
  inUse : Bool := false
  txnId : UInt32 := 0
  blocks : List LogBlock := []

/-- The globals of journal.c. -/
structure Journal where
  geom : JournalGeometry
  sb : JournalSuperblock
  initialized : Bool
  txn : JournalTxn

namespace JournalGeometry

variable (g : JournalGeometry)

/-- The byte offset of journal block `idx` (journal.c:69); the sum of the two
block numbers is a `uint32_t`. -/
def slotOff (idx : Nat) : Nat :=
  (g.start + UInt32.ofNat idx).toNat * journalBlockSize

/-- The write of a whole journal block. -/
def slotWrite (idx : Nat) (b : Block) : Write UInt8 := ⟨g.slotOff idx, b.bytes⟩

/-- The write of a target block from a journal buffer. -/
def targetWrite (target : UInt32) (data : List UInt8) : Write UInt8 :=
  ⟨target.toNat * g.targetSectors.toNat * 512,
    data.take (g.targetSectors.toNat * 512)⟩

end JournalGeometry

/-- `journal_write_block` (journal.c:68). -/
def journalWriteBlock (g : JournalGeometry) (idx : Nat) (b : Block) :
    DevM UInt8 Int :=
  blkWrite (g.slotWrite idx b)

/-! ## Initialisation and replay -/

/-- The loop of `journal_format_fresh`: zero the blocks from `i` on. -/
def formatSlots (g : JournalGeometry) : List Nat → DevM UInt8 Int
  | [] => pure 0
  | i :: is => do
    let rc ← journalWriteBlock g i zeroBlock
    if rc < 0 then pure rc else formatSlots g is

/-- The superblock `journal_format_fresh` writes. -/
def freshSuperblock (numBlocks : UInt32) : JournalSuperblock where
  magic := journalMagic
  version := journalVersion
  numBlocks := numBlocks
  txnIdNext := 1
  pad := fun _ => 0

/-- `journal_format_fresh` (journal.c:73), with the superblock it leaves in
`g_sb`. -/
def journalFormatFresh (g : JournalGeometry) (sb : JournalSuperblock)
    (numBlocks : Nat) : DevM UInt8 (Int × JournalSuperblock) := do
  let rc ← formatSlots g ((range numBlocks).drop 1)
  if rc < 0 then pure (rc, sb)
  else
    let sb := freshSuperblock (UInt32.ofNat numBlocks)
    let rc ← journalWriteBlock g 0 sb.toBlock
    pure (rc, sb)

/-- `journal_init` (journal.c:90) on a device that exists. -/
def journalInit (j : Journal) (start : UInt32) : DevM UInt8 (Int × Journal) := do
  let j := { j with geom := { j.geom with start := start } }
  match ← blkRead (j.geom.slotOff 0) journalBlockSize with
  | .error rc => pure (rc, j)
  | .ok bytes =>
    let sb := JournalSuperblock.ofBlock bytes
    let (rc, sb) ←
      if sb.magic = journalMagic ∧ sb.version = journalVersion then
        pure (0, sb)
      else journalFormatFresh j.geom sb journalDefaultBlocks
    if rc < 0 then pure (rc, { j with sb := sb })
    else pure (0, { j with sb := sb, initialized := true, txn := {} })

/-- The loop of `journal_replay` (journal.c:129). -/
def replayBlocks (g : JournalGeometry) (hdr : JournalTxnHeader) :
    List (Fin journalMaxPerTxn) → DevM UInt8 Int
  | [] => pure 0
  | i :: is => do
    match ← blkRead (g.slotOff (journalSlotData0 + i)) journalBlockSize with
    | .error rc => pure rc
    | .ok data =>
      let rc ← blkWrite (g.targetWrite (hdr.targetBlocks i) data)
      if rc < 0 then pure rc else replayBlocks g hdr is

/-- The indices below `num_blocks`, which `journal_replay` has checked against
`JOURNAL_MAX_PER_TXN`. -/
def JournalTxnHeader.indices (hdr : JournalTxnHeader) :
    List (Fin journalMaxPerTxn) :=
  (finRange journalMaxPerTxn).take hdr.numBlocks.toNat

/-- `discard_slot` (journal.c:125). -/
def discardSlot (g : JournalGeometry) : DevM UInt8 Int :=
  journalWriteBlock g journalSlotHdr zeroBlock

/-- `journal_replay` once it has read the header (journal.c:143). -/
def replaySlot (g : JournalGeometry) (hdr : JournalTxnHeader) :
    DevM UInt8 Int :=
  if hdr.magic ≠ journalMagic ∨ hdr.committed ≠ 1 then pure 0
  else if journalCrc { hdr with crc := 0 } ≠ hdr.crc then discardSlot g
  else if hdr.numBlocks = 0 ∨ journalMaxPerTxn < hdr.numBlocks.toNat then
    discardSlot g
  else do
    let rc ← replayBlocks g hdr hdr.indices
    if rc < 0 then pure rc
    else do
      let _ ← journalWriteBlock g journalSlotHdr zeroBlock
      pure 0

/-- `journal_replay` (journal.c:129). -/
def journalReplay (j : Journal) : DevM UInt8 Int :=
  if !j.initialized then pure (-EINVAL)
  else do
    match ← blkRead (j.geom.slotOff journalSlotHdr) journalBlockSize with
    | .error rc => pure rc
    | .ok bytes => replaySlot j.geom (JournalTxnHeader.ofBlock bytes)

/-! ## Transactions -/

namespace Journal

variable (j : Journal)

/-- `journal_begin` (journal.c:181). A caller that finds the transaction in use
spins, so nothing happens until it is free. -/
def begin : Journal :=
  if !j.initialized ∨ j.txn.inUse then j
  else
    { j with
      sb := { j.sb with txnIdNext := j.sb.txnIdNext + 1 }
      txn := { inUse := true, txnId := j.sb.txnIdNext, blocks := [] } }

/-- `journal_log_block` (journal.c:199); `bufOk` is the outcome of `kmalloc`. -/
def logBlock (target : UInt32) (data : Block) (bufOk : Bool) : Int × Journal :=
  if journalMaxPerTxn ≤ j.txn.blocks.length then (-ENOMEM, j)
  else if !bufOk then (-ENOMEM, j)
  else
    (0, { j with txn := { j.txn with
      blocks := j.txn.blocks ++ [⟨target, data⟩] } })

/-- `journal_abort` (journal.c:300). -/
def abort : Journal :=
  { j with txn := { j.txn with inUse := false, blocks := [] } }

/-- The update of `g_sb.txn_id_next` after a commit (journal.c:284). -/
def advanceTxnId : Journal :=
  if j.sb.txnIdNext < j.txn.txnId + 1 then
    { j with sb := { j.sb with txnIdNext := j.txn.txnId + 1 } }
  else j

/-- The header of the transaction, without its CRC. -/
def bareHeader (committed : UInt32) : JournalTxnHeader where
  magic := journalMagic
  txnId := j.txn.txnId
  numBlocks := UInt32.ofNat j.txn.blocks.length
  committed := committed
  targetBlocks := fun i => (j.txn.blocks.map LogBlock.target).getD i 0
  crc := 0

/-- The header `journal_commit` writes (journal.c:245, journal.c:255). -/
def header (committed : UInt32) : JournalTxnHeader :=
  { j.bareHeader committed with crc := journalCrc (j.bareHeader committed) }

end Journal

/-- The data blocks of `journal_commit` (journal.c:218), from slot `i` on. -/
def writeData (g : JournalGeometry) : Nat → List LogBlock → DevM UInt8 Int
  | _, [] => pure 0
  | i, b :: bs => do
    let rc ← journalWriteBlock g (journalSlotData0 + i) b.data
    if rc < 0 then pure rc else writeData g (i + 1) bs

/-- The target blocks of `journal_commit` (journal.c:218). A failure there
panics. -/
def applyTargets (g : JournalGeometry) : List LogBlock → DevM UInt8 Unit
  | [] => pure ()
  | b :: bs => do
    let rc ← blkWrite (g.targetWrite b.target b.data.bytes)
    if rc < 0 then halt else applyTargets g bs

/-- `journal_commit` behind the flush of the committed header
(journal.c:266). -/
def commitApply (j : Journal) : DevM UInt8 (Int × Journal) := do
  applyTargets j.geom j.txn.blocks
  blkFlush
  let _ ← journalWriteBlock j.geom journalSlotHdr zeroBlock
  let j := j.advanceTxnId
  let _ ← journalWriteBlock j.geom 0 j.sb.toBlock
  pure (0, j.abort)

/-- `journal_commit` (journal.c:218). -/
def journalCommit (j : Journal) : DevM UInt8 (Int × Journal) :=
  if !j.txn.inUse then pure (-EINVAL, j)
  else if journalMaxPerTxn < j.txn.blocks.length then pure (-EINVAL, j)
  else do
    let rc ← writeData j.geom 0 j.txn.blocks
    if rc < 0 then pure (rc, j.abort)
    else do
      let rc ← journalWriteBlock j.geom journalSlotHdr (j.header 0).toBlock
      if rc < 0 then pure (rc, j.abort)
      else do
        blkFlush
        let rc ← journalWriteBlock j.geom journalSlotHdr (j.header 1).toBlock
        if rc < 0 then pure (rc, j.abort)
        else do
          blkFlush
          commitApply j

end UnixOs
