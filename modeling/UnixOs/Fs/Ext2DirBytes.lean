import UnixOs.Fs.Ext2Dir
import UnixOs.Fs.Ext2Ops

/-!
# The bytes of a directory block (ext2.c)

`records` reads a block as the loops of ext2.c do, record by record. `Tiled` is the same
as a relation: the bytes from an offset on are these records, one behind the other. The
name of a free record is left open: its length byte may be anything.

`Walk` is what a loop over the records needs at an offset; `Walk.next` goes on to the next
record.
-/

namespace UnixOs

open List DirBlock

open BlockDevice Bytes

/-! ## Records -/

/-- The bytes of some records. -/
def DirBlock.span (b : DirBlock) : Nat := (b.map DirRec.recLen).sum

@[simp] theorem DirBlock.span_nil : span [] = 0 := rfl

@[simp] theorem DirBlock.span_cons (r : DirRec) (b : DirBlock) :
    span (r :: b) = r.recLen + span b := sum_cons

@[simp] theorem DirBlock.span_append (b c : DirBlock) : span (b ++ c) = span b + span c := by
  rw [span, map_append, sum_append]
  rfl

namespace Ext2

/-- The record at an offset. -/
def readRec (buf : Image UInt8) (off : Nat) : DirRec where
  inode := (recInode buf off).toNat
  recLen := (recLen buf off).toNat
  name := if recInode buf off = 0 then [] else Image.load buf (off + 8) (recNameLen buf off)
  fileType := buf (off + 7)

/-- The records from an offset on, as the loops over a block go through them. -/
def records (bs : Nat) (buf : Image UInt8) : Nat → Nat → DirBlock
  | 0, _ => []
  | fuel + 1, off =>
    if bs ≤ off ∨ recLen buf off = 0 then []
    else readRec buf off :: records bs buf fuel (off + (recLen buf off).toNat)

def blockRecords (bs : Nat) (buf : Image UInt8) : DirBlock := records bs buf bs 0

/-- The bytes at `off` are the record `r`. -/
structure Reads (buf : Image UInt8) (off : Nat) (r : DirRec) : Prop where
  inode : (recInode buf off).toNat = r.inode
  len : (recLen buf off).toNat = r.recLen
  fileType : buf (off + 7) = r.fileType
  name : r.inode ≠ 0 →
    recNameLen buf off = r.name.length ∧ Image.load buf (off + 8) r.name.length = r.name

/-- The bytes from `off` on are these records. -/
def Tiled (buf : Image UInt8) : Nat → DirBlock → Prop
  | _, [] => True
  | off, r :: rs => Reads buf off r ∧ Tiled buf (off + r.recLen) rs

variable {buf : Image UInt8} {off bs fuel : Nat} {r : DirRec} {recs pre post : DirBlock}

theorem reads_readRec : Reads buf off (readRec buf off) where
  inode := rfl
  len := rfl
  fileType := rfl
  name h0 := by
    have hne : recInode buf off ≠ 0 := fun h => h0 (congrArg UInt32.toNat h)
    have hname : (readRec buf off).name = Image.load buf (off + 8) (recNameLen buf off) :=
      if_neg hne
    rw [hname, Image.length_load]
    exact ⟨rfl, rfl⟩

theorem Reads.inode_eq_zero_iff (h : Reads buf off r) : recInode buf off = 0 ↔ r.inode = 0 := by
  rw [← h.inode]
  exact UInt32.toNat_inj.symm

/-! ## Blocks -/

theorem tiled_append : Tiled buf off (pre ++ post) ↔
    Tiled buf off pre ∧ Tiled buf (off + span pre) post := by
  induction pre generalizing off with
  | nil => simp [Tiled]
  | cons r pre ih => rw [cons_append, Tiled, Tiled, ih, span_cons, add_assoc, and_assoc]

theorem tiled_records : Tiled buf off (records bs buf fuel off) := by
  induction fuel generalizing off with
  | zero => trivial
  | succ fuel ih =>
    rw [records]
    split
    · trivial
    · exact ⟨reads_readRec, ih⟩

/-- What is needed to go through the records from `off` to the end of the block. -/
structure Walk (bs : Nat) (buf : Image UInt8) (fuel off : Nat) (recs : DirBlock) : Prop where
  tiled : Tiled buf off recs
  laid : ∀ r ∈ recs, r.Laid
  fill : off + span recs = bs
  fuel : bs ≤ off + fuel

namespace Walk

theorem stop (h : Walk bs buf fuel off []) : bs ≤ off := by
  have := h.fill
  rw [span_nil] at this
  omega

/-- There is a record at `off`, and the walk goes on behind it. -/
theorem next (h : Walk bs buf fuel off (r :: recs)) :
    ∃ fuel', fuel = fuel' + 1 ∧ ¬ (bs ≤ off ∨ recLen buf off = 0) ∧
      Walk bs buf fuel' (off + (recLen buf off).toNat) recs := by
  have hr := h.laid r mem_cons_self
  have h8 := hr.header
  have hlen := h.tiled.1.len
  have hfill := h.fill
  have hfuel := h.fuel
  rw [span_cons] at hfill
  refine ⟨fuel - 1, by omega, ?_, ?_⟩
  · rintro (hle | h0)
    · omega
    · rw [h0] at hlen
      change 0 = r.recLen at hlen
      omega
  · refine ⟨?_, fun x hx => h.laid x (mem_cons_of_mem r hx), ?_, ?_⟩
    · rw [hlen]
      exact h.tiled.2
    · omega
    · omega

end Walk

/-- The records of a block fill it. -/
theorem walk_blockRecords (h : DirBlock.Laid bs (blockRecords bs buf)) :
    Walk bs buf bs 0 (blockRecords bs buf) :=
  ⟨tiled_records, h.recs, by rw [zero_add]; exact h.fill, by omega⟩

end Ext2

end UnixOs
