import UnixOs.Mm.Protect
import UnixOs.Mm.UserPointers

/-!
# Process memories: heap, mappings, demand paging (sys_mem.c, mmap_file.c)

A `process_memory_t` is known by the frame of its page directory. Its other
fields and the table of file mappings are kept beside the memory manager. The
calls get the directory of the current process, if it has a memory.
-/

namespace UnixOs

open Errno

/-- `mmap_region_t`. -/
structure MmapRegion where
  addr : Word
  len : Word
  prot : Word
  flags : Word
  inUse : Bool

/-- `process_memory_t` without its directory and the fixed `stack_base`. -/
structure ProcMem where
  brk : Word
  mmapNext : Word
  regions : List MmapRegion

/-- `mmap_file_region_t`. -/
structure FileRegion where
  inUse : Bool
  pd : Frame
  start : Word
  stop : Word
  fd : Int
  offset : Word
  prot : Word

/-- The memory manager, the process memories and `mmap_file_table`. -/
structure Vm where
  mm : Mm
  proc : Frame → ProcMem
  files : List FileRegion

/-- `HEAP_START`. -/
def heapStart : Word := userCodeBase

/-- `MAX_HEAP_SIZE`. -/
def maxHeapSize : Word := 0x10000000

/-- `USER_HEAP_BASE`, which is also `MMAP_BASE`. -/
def userHeapBase : Word := 0x40000000

/-- `MAX_MMAP_REGIONS`. -/
def maxMmapRegions : Nat := 64

/-- `MMAP_FILE_MAX_REGIONS`. -/
def mmapFileMaxRegions : Nat := 128

def mapFixed : Word := 0x10
def mapAnon : Word := 0x20

/-- `VGA_FRAMEBUFFER_ADDR`. -/
def vgaFramebufferAddr : Word := 0xA0000

/-- `VGA_FRAMEBUFFER_SIZE`. -/
def vgaFramebufferSize : Word := 0x10000

/-- `(a + PAGE_SIZE_CONST - 1) & PAGE_ADDR_MASK`. -/
def pageUp (a : Word) : Word := (a + 4096 - 1) &&& pageAddrMask

/-- The addresses of a loop from `a` up to `b` in steps of a page. -/
def pagesFromTo (a b : Word) : List Word :=
  (List.range ((b.toNat - a.toNat + 4095) / 4096)).map fun k => a + BitVec.ofNat 32 (4096 * k)

namespace Mm

/-- The words of a frame with bytes stored from `off` on. -/
def overlay (ws : Idx → Word) (off : Nat) (bytes : List (BitVec 8)) : Idx → Word :=
  bytes.zipIdx.foldl (fun ws x =>
    storeByte ws (Fin.ofNat (2 ^ 10) ((off + x.2) / 4)) (Fin.ofNat 4 (off + x.2)) x.1) ws

section

variable (S : Mm)

/-- `copy_to_frame` (cow_temp.c:85). -/
def copyToFrame (f : Frame) (off : Nat) (bytes : List (BitVec 8)) : Mm :=
  let S := S.setFrame f (overlay (S.mem f) off bytes)
  if f.val < identityEndFrame then S else S.tempUnmapFrame

/-- `unmap_range` (sys_mem.c:36) over its pages. -/
def unmapRange (c : Nat) (d : Frame) (as : List Word) : Mm :=
  as.foldl (fun S a => S.unmapUserPage c d a.vpage) S

end

/-- The loops of `sys_brk` (sys_mem.c:46) and of an anonymous `sys_mmap`
(sys_mem.c:108): when a page cannot be mapped, those that were are unmapped. -/
def mapRange (c : Nat) (d : Frame) (writable zero : Bool) :
    List Word → Mm → List Word → Mm × Bool
  | _, S, [] => (S, true)
  | mapped, S, a :: as =>
    match S.mapUserPage c d a.vpage writable zero with
    | (S, false) => (S.unmapRange c d mapped, false)
    | (S, true) => mapRange c d writable zero (mapped ++ [a]) S as

end Mm

namespace Vm

variable (S : Vm)

def setProc (d : Frame) (p : ProcMem) : Vm :=
  { S with proc := Function.update S.proc d p }

/-! ## Life cycle (process_mm.c) -/

/-- The fields of a new `process_memory_t` (process_mm.c:47). -/
def newProcMem : ProcMem where
  brk := userCodeBase
  mmapNext := userHeapBase
  regions := List.replicate maxMmapRegions ⟨0, 0, 0, 0, false⟩

/-- `create_process_memory` (process_mm.c:36). -/
def createProcessMemory (c : Nat) (memOk dirOk : Bool) : Vm × Option Frame :=
  match S.mm.createProcessMemory c memOk dirOk with
  | (mm, none) => ({ S with mm }, none)
  | (mm, some d) => (({ S with mm } : Vm).setProc d newProcMem, some d)

/-- `clone_process_memory` (process_mm.c:125). -/
def cloneProcessMemory (c : Nat) (src : Frame) (memOk dirOk : Bool) : Vm × Option Frame :=
  match S.mm.cloneProcessMemory c src memOk dirOk with
  | (mm, none) => ({ S with mm }, none)
  | (mm, some d) => (({ S with mm } : Vm).setProc d (S.proc src), some d)

/-- `mmap_file_clear_pd` (mmap_file.c:100). -/
def mmapFileClearPd (d : Frame) : Vm :=
  { S with files := S.files.map fun r =>
      if r.inUse && decide (r.pd = d) then { r with inUse := false } else r }

/-- `destroy_process_memory` (process_mm.c:154). -/
def destroyProcessMemory (c : Nat) (d : Frame) : Vm :=
  let S := S.mmapFileClearPd d
  { S with mm := S.mm.destroyProcessMemory c d }

/-! ## `sys_brk` -/

/-- `sys_brk` (sys_mem.c:46). -/
def sysBrk (c : Nat) (memory : Option Frame) (addr : Word) : Vm × Int :=
  match memory with
  | none => (S, -ENOMEM)
  | some d =>
    let old := (S.proc d).brk
    if addr = 0 then (S, old.toInt)
    else if addr < heapStart then (S, -EINVAL)
    else if heapStart + maxHeapSize < addr then (S, -ENOMEM)
    else if old < addr then
      match Mm.mapRange c d true false [] S.mm (pagesFromTo (pageUp old) (pageUp addr)) with
      | (mm, false) => ({ S with mm }, -ENOMEM)
      | (mm, true) => (({ S with mm } : Vm).setProc d { S.proc d with brk := addr }, addr.toInt)
    else
      let mm := if addr < old then
          S.mm.unmapRange c d (pagesFromTo (pageUp addr) (pageUp old))
        else S.mm
      (({ S with mm } : Vm).setProc d { S.proc d with brk := addr }, addr.toInt)

/-! ## File mappings (mmap_file.c) -/

/-- The first unused slot is taken. -/
def takeSlot (r : FileRegion) : List FileRegion → Option (List FileRegion)
  | [] => none
  | s :: rest =>
    if !s.inUse then some (r :: rest) else (takeSlot r rest).map (s :: ·)

/-- `mmap_file_register` (mmap_file.c:55). -/
def mmapFileRegister (d : Frame) (start stop : Word) (fd : Int) (offset prot : Word) :
    Option Vm :=
  if stop ≤ start ∨ fd < 0 then none
  else if start &&& ~~~ pageAddrMask ≠ 0 ∨ stop &&& ~~~ pageAddrMask ≠ 0 then none
  else
    (takeSlot ⟨true, d, start, stop, fd, offset, prot⟩ S.files).map fun files =>
      { S with files }

/-- The first slot of the range is given back. -/
def dropSlot (d : Frame) (start stop : Word) : List FileRegion → List FileRegion
  | [] => []
  | s :: rest =>
    if s.inUse && decide (s.pd = d ∧ s.start = start ∧ s.stop = stop) then
      { s with inUse := false } :: rest
    else s :: dropSlot d start stop rest

/-- `mmap_file_unregister` (mmap_file.c:84). -/
def mmapFileUnregister (d : Frame) (start stop : Word) : Vm :=
  { S with files := dropSlot d start stop S.files }

/-- `mmap_file_lookup` (mmap_file.c:110). -/
def mmapFileLookup (d : Frame) (addr : Word) : Option FileRegion :=
  S.files.find? fun r => r.inUse && decide (r.pd = d ∧ r.start ≤ addr ∧ addr < r.stop)

/-- The flags of a page of a file mapping (mmap_file.c:170). -/
def fileFlags (prot : Word) : Flags :=
  Mm.userFlags (decide (prot &&& 2 ≠ 0))

/-- `handle_demand_fault` (mmap_file.c:120). `pread` is what `vfs_pread` delivers
of at most a page. -/
def handleDemandFault (c : Nat) (memory : Option Frame) (faultAddr : Word)
    (pread : Int → Word → List (BitVec 8)) : Vm × Int :=
  match memory with
  | none => (S, -1)
  | some d =>
    match S.mmapFileLookup d faultAddr with
    | none => (S, -1)
    | some r =>
      let pageVa := faultAddr &&& pageAddrMask
      let fileOff := r.offset + (pageVa - r.start)
      if (S.mm.getPhysicalFrame d pageVa.vpage).isSome then (S, 0)
      else
        match S.mm.allocateFrame c with
        | (mm, none) => ({ S with mm }, -1)
        | (mm, some f) =>
          let mm := (mm.zeroFrame f).copyToFrame f 0 ((pread r.fd fileOff).take 4096)
          if (mm.getPhysicalFrame d pageVa.vpage).isSome then
            ({ S with mm := mm.freeFrame c f }, 0)
          else
            match mm.mapPage c d pageVa.vpage f (fileFlags r.prot) with
            | (mm, false) => ({ S with mm := mm.freeFrame c f }, -1)
            | (mm, true) => ({ S with mm }, 0)

/-! ## `sys_mmap` and `sys_munmap` -/

/-- The first unused region (sys_mem.c:133). -/
def freeRegion : List MmapRegion → Option Nat :=
  List.findIdx? fun r => !r.inUse

/-- The address a mapping gets (sys_mem.c:143), with the new `mmap_next_addr`. -/
def placeMapping (p : ProcMem) (addr len flags : Word) : Except Int (Word × ProcMem) :=
  if flags &&& mapFixed ≠ 0 ∧ addr ≠ 0 then
    let mapAddr := addr &&& pageAddrMask
    if mapAddr < userCodeBase ∨ userSpaceEnd ≤ mapAddr ∨ userSpaceEnd - mapAddr < len then
      .error (-EINVAL)
    else .ok (mapAddr, p)
  else
    let mapAddr := if p.mmapNext = 0 then userHeapBase else p.mmapNext
    if mapAddr < userCodeBase ∨ userSpaceEnd ≤ mapAddr ∨ userSpaceEnd - mapAddr < len then
      .error (-ENOMEM)
    else .ok (mapAddr, { p with mmapNext := mapAddr + len })

/-- The framebuffer is meant (sys_mem.c:121); `isFb` is `is_fb_device`. -/
def MeansFramebuffer (addr flags fd : Word) (isFb : Bool) : Prop :=
  (flags &&& mapFixed ≠ 0 ∧ addr = vgaFramebufferAddr) ∨ (0 ≤ fd.toInt ∧ isFb = true)

instance (addr flags fd : Word) (isFb : Bool) :
    Decidable (MeansFramebuffer addr flags fd isFb) :=
  inferInstanceAs (Decidable (_ ∨ _))

/-- The part of `sys_mmap` (sys_mem.c:108) that follows the choice of an address. -/
def finishMmap (c : Nat) (d : Frame) (slot : Nat) (mapAddr len prot flags fd : Word) :
    Vm × Int :=
  let p := S.proc d
  let region : MmapRegion := ⟨mapAddr, len, prot, flags, true⟩
  let record (S : Vm) : Vm := S.setProc d { p with regions := p.regions.set slot region }
  if flags &&& mapAnon = 0 ∧ 0 ≤ fd.toInt then
    match S.mmapFileRegister d mapAddr (mapAddr + len) fd.toInt 0 prot with
    | none => (S, -ENOMEM)
    | some S => (record S, mapAddr.toInt)
  else
    match Mm.mapRange c d (decide (prot &&& protWrite ≠ 0)) true [] S.mm
        (pagesFromTo mapAddr (mapAddr + len)) with
    | (mm, false) => ({ S with mm }, -ENOMEM)
    | (mm, true) => (record { S with mm }, mapAddr.toInt)

/-- `sys_mmap` (sys_mem.c:108). -/
def sysMmap (c : Nat) (memory : Option Frame) (addr len prot flags fd : Word)
    (isFb : Bool) : Vm × Int :=
  if len = 0 then (S, -EINVAL)
  else if 256 * 1024 * 1024 < len then (S, -ENOMEM)
  else
    match memory with
    | none => (S, -ENOMEM)
    | some d =>
      let len := pageUp len
      if MeansFramebuffer addr flags fd isFb then
        let mm := (pagesFromTo 0 (if len < vgaFramebufferSize then len else
            vgaFramebufferSize)).foldl
          (fun mm off => mm.mapFramebufferPage c d (vgaFramebufferAddr + off).vpage.2) S.mm
        ({ S with mm }, vgaFramebufferAddr.toInt)
      else
        match freeRegion (S.proc d).regions with
        | none => (S, -ENOMEM)
        | some slot =>
          match placeMapping (S.proc d) addr len flags with
          | .error e => (S, e)
          | .ok (mapAddr, p) => (S.setProc d p).finishMmap c d slot mapAddr len prot flags fd

/-- `sys_munmap` (sys_mem.c:195). -/
def sysMunmap (c : Nat) (memory : Option Frame) (addr len : Word) : Vm × Int :=
  if addr = 0 ∨ len = 0 then (S, -EINVAL)
  else
    match memory with
    | none => (S, -ESRCH)
    | some d =>
      let p := S.proc d
      match p.regions.findIdx? fun r => r.inUse && decide (r.addr = addr) with
      | none => (S, -EINVAL)
      | some i =>
        match p.regions[i]? with
        | none => (S, -EINVAL)
        | some r =>
          let S := S.mmapFileUnregister d r.addr (r.addr + r.len)
          let mm := S.mm.unmapRange c d (pagesFromTo r.addr (r.addr + r.len))
          (({ S with mm } : Vm).setProc d
            { p with regions := p.regions.set i { r with inUse := false } }, 0)

end Vm

end UnixOs
