import UnixOs.Core.Kernel
import Mathlib.Data.BitVec

/-!
# Physical memory and the frame allocator (frame_alloc.c)

Physical memory is addressed by frame number and word index, so a page
directory, a page table and a user page are all frames of 1024 words, and a
pointer into the identity map is a frame number. The state `Mm` is that memory
with the allocator's bitmap, counts and per-CPU magazines, and the live
`page_directory_t` objects, each known by its `physical_addr`.

Every function runs to its end on one CPU, whose number is a parameter where
the magazine matters.
-/

namespace UnixOs

open Function BitVec

/-! ## Layout (memory_layout.h, frame_alloc.c) -/

/-- A physical frame number: the upper 20 bits of a physical address. -/
abbrev Frame := Fin (2 ^ 20)

/-- An index into a page directory, a page table or a frame of words. -/
abbrev Idx := Fin (2 ^ 10)

instance neZero_frames : NeZero (2 ^ 20) := ⟨by decide⟩

instance neZero_entries : NeZero (2 ^ 10) := ⟨by decide⟩

instance neZero_lanes : NeZero 4 := ⟨by decide⟩

instance lawfulBEq_frame : LawfulBEq Frame := inferInstance

/-- `KERNEL_HEAP_END / PAGE_SIZE_CONST`. -/
def heapEndFrame : Nat := 2816

/-- `IDENTITY_MAP_END / PAGE_SIZE_CONST`. -/
def identityEndFrame : Nat := 8192

/-- `FRAME_COUNT`. -/
def frameCount : Nat := 16384

/-- `FRAME_ALLOC_FIRST_BITMAP_IDX`. -/
def firstBitmapIdx : Nat := heapEndFrame / 32

/-- `FRAME_MAGAZINE_SIZE`. -/
def frameMagazineSize : Nat := 16

/-- `NUM_KERNEL_PAGE_TABLES`, which is also `USER_PDE_FIRST`. -/
def numKernelPageTables : Nat := 8

/-- `USER_PDE_LAST`. -/
def userPdeLast : Nat := 768

/-- The frames the allocator hands out. -/
def Frame.Pool (f : Frame) : Prop :=
  heapEndFrame ≤ f.val ∧ f.val < identityEndFrame

instance (f : Frame) : Decidable f.Pool := inferInstanceAs (Decidable (_ ∧ _))

/-! ## Words

A directory or table entry is a frame number with twelve flag bits below it. -/

/-- A 32-bit word. -/
abbrev Word := BitVec 32

/-- The flag bits of an entry, `PAGE_MASK`. -/
abbrev Flags := BitVec 12

def pagePresent : Flags := 0x001
def pageWritable : Flags := 0x002
def pageUser : Flags := 0x004
def pageCowBit : Flags := 0x200

namespace Flags

def present (fl : Flags) : Bool := fl.getLsbD 0
def writable (fl : Flags) : Bool := fl.getLsbD 1
def user (fl : Flags) : Bool := fl.getLsbD 2
def cow (fl : Flags) : Bool := fl.getLsbD 9

end Flags

namespace Word

/-- `entry & PAGE_FRAME_MASK`, as a frame number. -/
def frame (w : Word) : Frame := ⟨w.toNat / 4096, by omega⟩

/-- `entry & PAGE_MASK`. -/
def flags (w : Word) : Flags := BitVec.ofNat 12 w.toNat

/-- `frame | flags`. -/
def entry (f : Frame) (fl : Flags) : Word :=
  BitVec.ofNat 32 (f.val * 4096 + fl.toNat)

def present (w : Word) : Bool := w.flags.present
def writable (w : Word) : Bool := w.flags.writable
def user (w : Word) : Bool := w.flags.user
def cow (w : Word) : Bool := w.flags.cow

@[simp] theorem frame_entry (f : Frame) (fl : Flags) : (entry f fl).frame = f := by
  refine Fin.ext ?_
  simp only [frame, entry, toNat_ofNat]
  omega

@[simp] theorem flags_entry (f : Frame) (fl : Flags) : (entry f fl).flags = fl := by
  refine eq_of_toNat_eq ?_
  simp only [flags, entry, toNat_ofNat]
  omega

theorem entry_frame_flags (w : Word) : entry w.frame w.flags = w := by
  refine eq_of_toNat_eq ?_
  simp only [frame, flags, entry, toNat_ofNat]
  omega

end Word

/-! ## State -/

/-- Where the static page tables of the kernel lie: below the heap. -/
structure KernelLayout where
  pageTable : Fin numKernelPageTables → Frame
  below : ∀ t, (pageTable t).val < heapEndFrame
  injective : Function.Injective pageTable

/-- Physical memory, the allocator and the live page directories. -/
structure Mm where
  mem : Frame → Idx → Word
  used : Frame → Bool
  nextFree : Nat
  refcount : Frame → Nat
  magazine : Nat → List Frame
  dirs : List Frame
  kernel : KernelLayout

namespace Mm

variable (S : Mm)

/-- `((uint32_t *)f)[i] = w`. -/
def setWord (f : Frame) (i : Idx) (w : Word) : Mm :=
  { S with mem := update S.mem f (update (S.mem f) i w) }

theorem mem_setWord_self (f : Frame) (i : Idx) (w : Word) : (S.setWord f i w).mem f i = w := by
  simp only [setWord, update_self]

theorem mem_setWord_of_frame_ne {f f' : Frame} (i : Idx) (w : Word) (hne : f' ≠ f) :
    (S.setWord f i w).mem f' = S.mem f' :=
  update_of_ne hne _ _

/-- All words of a frame are stored. -/
def setFrame (f : Frame) (ws : Idx → Word) : Mm :=
  { S with mem := update S.mem f ws }

/-- `frame_refcount[f] = n`, for a frame the table has. -/
def setRef (f : Frame) (n : Nat) : Mm :=
  if f.val < frameCount then
    { S with refcount := update S.refcount f n }
  else S

/-- The magazine of CPU `c`, topmost frame first. -/
def setMagazine (c : Nat) (fs : List Frame) : Mm :=
  { S with magazine := update S.magazine c fs }

/-! ## Allocation -/

/-- The frames the bitmap scan visits from bitmap word `start` on. -/
def scanFrom (start : Nat) : List Frame :=
  (List.range' (start * 32) (identityEndFrame - start * 32)).map
    (Fin.ofNat (2 ^ 20))

/-- The bitmap word `alloc_frames_locked` starts at. -/
def scanStart : Nat :=
  if S.nextFree < firstBitmapIdx then firstBitmapIdx else S.nextFree

/-- The first `want` frames of the scan whose bit is clear. -/
def clearFrames (want : Nat) : List Frame :=
  ((scanFrom S.scanStart).filter fun f => !S.used f).take want

/-- `alloc_frames_locked` (frame_alloc.c:61): each frame found is marked used
and given a count of one, and `next_free` is left at the word of the last. -/
def allocFramesLocked (want : Nat) : Mm × List Frame :=
  let out := S.clearFrames want
  ({ S with
      used := fun f => S.used f || decide (f ∈ out)
      nextFree := match out.getLast? with
        | some f => f.val / 32
        | none => S.nextFree
      refcount := fun f => if f ∈ out then 1 else S.refcount f }, out)

/-- `allocate_frame` (frame_alloc.c:90) on CPU `c`. -/
def allocateFrame (c : Nat) : Mm × Option Frame :=
  match S.magazine c with
  | f :: rest => ((S.setMagazine c rest).setRef f 1, some f)
  | [] =>
    match S.allocFramesLocked frameMagazineSize with
    | (S, []) => (S, none)
    | (S, f :: rest) => (S.setMagazine c rest.reverse, some f)

/-! ## Release -/

/-- `frame_clear` and the update of `next_free` that follows it
(frame_alloc.c:128). -/
def clearFrame (f : Frame) : Mm :=
  let i := f.val / 32
  { S with
    used := update S.used f false
    nextFree := if i < S.nextFree ∧ firstBitmapIdx ≤ i then i else S.nextFree }

/-- `release_frame_to_pool` (frame_alloc.c:117) on CPU `c`: a full magazine is
emptied by half. -/
def releaseFrameToPool (c : Nat) (f : Frame) : Mm :=
  if (S.magazine c).length < frameMagazineSize then
    S.setMagazine c (f :: S.magazine c)
  else
    let out := (S.magazine c).take (frameMagazineSize / 2)
    let rest := (S.magazine c).drop (frameMagazineSize / 2)
    ((out.foldl clearFrame S).setMagazine c rest).clearFrame f

/-- `frame_decref` (frame_alloc.c:172). -/
def frameDecref (c : Nat) (f : Frame) : Mm :=
  if frameCount ≤ f.val then S
  else if f.val < heapEndFrame then S
  else if S.refcount f = 0 then S
  else if 1 < S.refcount f then S.setRef f (S.refcount f - 1)
  else (S.setRef f 0).releaseFrameToPool c f

/-- `free_frame` (frame_alloc.c:141). -/
def freeFrame (c : Nat) (f : Frame) : Mm :=
  if f.val < heapEndFrame then S else S.frameDecref c f

/-- `frame_incref` (frame_alloc.c:149). -/
def frameIncref (f : Frame) : Mm :=
  if frameCount ≤ f.val then S
  else if S.refcount f < 0xFFFF then S.setRef f (S.refcount f + 1)
  else S

/-- `frame_getref` (frame_alloc.c:162). -/
def frameGetref (f : Frame) : Nat :=
  if frameCount ≤ f.val then 0 else S.refcount f

/-- `temp_unmap_frame` (cow_temp.c:57) clears the last entry of the identity
map, which served as the temporary mapping. -/
def tempUnmapFrame : Mm := 
  S.setWord (S.kernel.pageTable ⟨7, by decide⟩) 1023 0

/-- `zero_frame` (cow_temp.c:69): a frame above the identity map is reached
through the temporary mapping. -/
def zeroFrame (f : Frame) : Mm :=
  let S := S.setFrame f fun _ => 0
  if f.val < identityEndFrame then S else S.tempUnmapFrame

end Mm

end UnixOs
