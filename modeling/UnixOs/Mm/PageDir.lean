import UnixOs.Mm.Frames

/-!
# Page directories and address spaces (page_dir.c, process_mm.c, cow_temp.c)

`create_process_memory`, `clone_process_memory` and `destroy_process_memory`
with the page-table primitives below them, and the copy-on-write fault. A
`process_memory_t` is known by its directory. Its other fields (`brk`, the
`mmap` regions) and `dir->tables_physical`, which nothing reads, are left out.
-/

namespace UnixOs

/-- A virtual page: directory index and table index. -/
abbrev VPage := Idx × Idx

/-- The directory indices below `hi`, from `lo` on. -/
def idxRange (lo hi : Nat) : List Idx :=
  (List.finRange (2 ^ 10)).filter fun i => lo ≤ i.val ∧ i.val < hi

/-- All indices of a table. -/
def allIdx : List Idx := List.finRange (2 ^ 10)

/-- The directory indices of user space. -/
def userIdx : List Idx := idxRange numKernelPageTables userPdeLast

namespace Mm

variable (S : Mm)

/-! ## The kernel's own directory -/

/-- The identity-mapping entry `p` of kernel table `t` (page_dir.c:77). -/
def kernelPte (t : Fin numKernelPageTables) (p : Idx) : Word :=
  .entry (Fin.ofNat (2 ^ 20) (t.val * 1024 + p.val)) (pagePresent ||| pageWritable)

/-- `kernel_page_directory[i]` (page_dir.c:82). -/
def kernelPde (L : KernelLayout) (i : Idx) : Word :=
  if h : i.val < numKernelPageTables then
    .entry (L.pageTable ⟨i.val, h⟩) (pagePresent ||| pageWritable)
  else 0

/-- The state after `paging_init` (page_dir.c:59), on memory of any content. -/
def pagingInit (L : KernelLayout) (mem : Frame → Idx → Word) : Mm where
  mem := fun f p =>
    match (List.finRange numKernelPageTables).find? fun t => L.pageTable t = f with
    | some t => kernelPte t p
    | none => mem f p
  used := fun f => f.val < heapEndFrame
  nextFree := 0
  refcount := fun _ => 0
  magazine := fun _ => []
  dirs := []
  kernel := L

/-! ## page_dir.c -/

/-- A `page_directory_t` for the frame comes into being. -/
def addDir (d : Frame) : Mm := { S with dirs := d :: S.dirs }

/-- The `page_directory_t` of the frame is given back to `kfree`. -/
def removeDir (d : Frame) : Mm := { S with dirs := S.dirs.erase d }

/-- `create_page_directory` (page_dir.c:132) on CPU `c`; `dirOk` is the outcome
of `kmalloc`. -/
def createPageDirectory (c : Nat) (dirOk : Bool) : Mm × Option Frame :=
  if !dirOk then (S, none)
  else
    match S.allocateFrame c with
    | (S, none) => (S, none)
    | (S, some pd) =>
      if identityEndFrame ≤ pd.val then (S.freeFrame c pd, none)
      else
        let S := S.setFrame pd fun i =>
          if i.val < numKernelPageTables then kernelPde S.kernel i
          else if (kernelPde S.kernel i).present then kernelPde S.kernel i
          else 0
        (S.addDir pd, some pd)

/-- One table of the loop of `destroy_page_directory` (page_dir.c:168). -/
def dropTable (c : Nat) (pt : Frame) : Mm :=
  let S := allIdx.foldl (fun S j =>
    let entry := S.mem pt j
    if entry.present then S.frameDecref c entry.frame else S) S
  S.freeFrame c pt

/-- One directory entry of the loop of `destroy_page_directory`
(page_dir.c:168). -/
def dropPde (c : Nat) (d : Frame) (i : Idx) : Mm :=
  let pde := S.mem d i
  if !pde.present then S
  else if identityEndFrame ≤ pde.frame.val then S
  else S.dropTable c pde.frame

/-- `destroy_page_directory` (page_dir.c:168). The loop starts at entry 4. -/
def destroyPageDirectory (c : Nat) (d : Frame) : Mm :=
  let S := (idxRange 4 userPdeLast).foldl (fun S i => S.dropPde c d i) S
  (S.freeFrame c d).removeDir d

/-- `map_page` up to the page table (page_dir.c:207): a table is allocated
where the directory has none. -/
def ensureTable (c : Nat) (d : Frame) (i : Idx) (flags : Flags) : Mm × Bool :=
  if (S.mem d i).present then (S, true)
  else
    match S.allocateFrame c with
    | (S, none) => (S, false)
    | (S, some pt) =>
      ((S.zeroFrame pt).setWord d i
        (.entry pt (pagePresent ||| pageWritable ||| (flags &&& pageUser))), true)

/-- The promotion of `PAGE_USER` into the directory entry (page_dir.c:217). -/
def promoteUser (d : Frame) (i : Idx) (flags : Flags) : Mm :=
  if flags.user then
    let pde := S.mem d i
    S.setWord d i (.entry pde.frame (pde.flags ||| pageUser))
  else S

/-- `map_page` (page_dir.c:200). -/
def mapPage (c : Nat) (d : Frame) (v : VPage) (phys : Frame) (flags : Flags) :
    Mm × Bool :=
  match S.ensureTable c d v.1 flags with
  | (S, false) => (S, false)
  | (S, true) =>
    let S := S.promoteUser d v.1 flags
    (S.setWord (S.mem d v.1).frame v.2 (.entry phys flags), true)

/-- `unmap_page` (page_dir.c:230). -/
def unmapPage (d : Frame) (v : VPage) : Mm :=
  if !(S.mem d v.1).present then S
  else S.setWord (S.mem d v.1).frame v.2 0

/-- The entry `get_physical_addr` reads (page_dir.c:243), if both levels are
present. -/
def lookup (d : Frame) (v : VPage) : Option Word :=
  let pde := S.mem d v.1
  if !pde.present then none
  else
    let pte := S.mem pde.frame v.2
    if !pte.present then none else some pte

/-- `get_physical_addr` of a page-aligned address, as a frame: the caller takes
the address 0 for "not mapped". -/
def getPhysicalFrame (d : Frame) (v : VPage) : Option Frame :=
  match S.lookup d v with
  | none => none
  | some pte => if pte.frame = 0 then none else some pte.frame

/-! ## process_mm.c -/

/-- `map_user_pages` (process_mm.c:164) over the pages `vs`. -/
def mapUserPages (c : Nat) (d : Frame) (flags : Flags) :
    Mm → List VPage → Mm × Bool
  | S, [] => (S, true)
  | S, v :: vs =>
    match S.allocateFrame c with
    | (S, none) => (S, false)
    | (S, some f) =>
      match (S.zeroFrame f).mapPage c d v f flags with
      | (S, false) => (S.freeFrame c f, false)
      | (S, true) => mapUserPages c d flags S vs

/-- The flags of a user page. -/
def userFlags (writable : Bool) : Flags :=
  pagePresent ||| pageUser ||| (if writable then pageWritable else 0)

/-- The 32 pages below `USER_STACK_BASE` (process_mm.c:55). -/
def stackPages : List VPage := (idxRange 992 1024).map fun j => (511, j)

/-- `create_process_memory` (process_mm.c:36); `memOk` and `dirOk` are the
outcomes of the two `kmalloc`s. -/
def createProcessMemory (c : Nat) (memOk dirOk : Bool) : Mm × Option Frame :=
  if !memOk then (S, none)
  else
    match S.createPageDirectory c dirOk with
    | (S, none) => (S, none)
    | (S, some d) =>
      match mapUserPages c d (userFlags true) S stackPages with
      | (S, true) => (S, some d)
      | (S, false) => (S.destroyPageDirectory c d, none)

/-- One entry of `purge_dst_user_pages` (process_mm.c:67). -/
def purgeEntry (c : Nat) (pt : Frame) (j : Idx) : Mm :=
  let entry := S.mem pt j
  if entry.present then (S.frameDecref c entry.frame).setWord pt j 0 else S

/-- One table of `purge_dst_user_pages` (process_mm.c:67). -/
def purgeTable (c : Nat) (d : Frame) (i : Idx) : Mm :=
  let pde := S.mem d i
  if !pde.present then S
  else if identityEndFrame ≤ pde.frame.val then S
  else
    let S := allIdx.foldl (fun S j => S.purgeEntry c pde.frame j) S
    (S.freeFrame c pde.frame).setWord d i 0

/-- `purge_dst_user_pages` (process_mm.c:67). -/
def purgeDstUserPages (c : Nat) (d : Frame) : Mm :=
  userIdx.foldl (fun S i => S.purgeTable c d i) S

/-- The flags both sides of a fork get (process_mm.c:110). -/
def shareFlags (flags : Flags) : Flags :=
  if flags.writable then (flags &&& ~~~ pageWritable) ||| pageCowBit else flags

/-- One entry of `cow_share_user_pages` (process_mm.c:88). -/
def shareEntry (c : Nat) (srcPt dst : Frame) (v : VPage) : Mm × Bool :=
  let entry := S.mem srcPt v.2
  if !entry.present then (S, true)
  else
    let flags := shareFlags entry.flags
    let S := if entry.flags.writable then
        S.setWord srcPt v.2 (.entry entry.frame flags)
      else S
    match S.mapPage c dst v entry.frame flags with
    | (S, false) => (S, false)
    | (S, true) => (S.frameIncref entry.frame, true)

/-- One table of `cow_share_user_pages` (process_mm.c:88). -/
def shareTable (c : Nat) (srcPt dst : Frame) (i : Idx) :
    Mm → List Idx → Mm × Bool
  | S, [] => (S, true)
  | S, j :: js =>
    match S.shareEntry c srcPt dst (i, j) with
    | (S, false) => (S, false)
    | (S, true) => shareTable c srcPt dst i S js

/-- One directory entry of `cow_share_user_pages` (process_mm.c:88). -/
def sharePde (c : Nat) (src dst : Frame) (i : Idx) : Mm × Bool :=
  let pde := S.mem src i
  if !pde.present then (S, true)
  else if identityEndFrame ≤ pde.frame.val then (S, true)
  else shareTable c pde.frame dst i S allIdx

/-- The loop of `cow_share_user_pages` over the directory indices `is`. -/
def shareTables (c : Nat) (src dst : Frame) : Mm → List Idx → Mm × Bool
  | S, [] => (S, true)
  | S, i :: is =>
    match S.sharePde c src dst i with
    | (S, false) => (S, false)
    | (S, true) => shareTables c src dst S is

/-- `cow_share_user_pages` (process_mm.c:88). -/
def cowShareUserPages (c : Nat) (src dst : Frame) : Mm × Bool :=
  shareTables c src dst S userIdx

/-- `destroy_process_memory` (process_mm.c:154). -/
def destroyProcessMemory (c : Nat) (d : Frame) : Mm := S.destroyPageDirectory c d

/-- The end of `clone_process_memory` (process_mm.c:125): a copy that could not
be finished is destroyed. -/
def finishClone (c : Nat) (dst : Frame) : Mm × Bool → Mm × Option Frame
  | (S, false) => (S.destroyProcessMemory c dst, none)
  | (S, true) => (S, some dst)

/-- `clone_process_memory` (process_mm.c:125). -/
def cloneProcessMemory (c : Nat) (src : Frame) (memOk dirOk : Bool) :
    Mm × Option Frame :=
  match S.createProcessMemory c memOk dirOk with
  | (S, none) => (S, none)
  | (S, some dst) => finishClone c dst ((S.purgeDstUserPages c dst).cowShareUserPages c src dst)

/-! ## cow_temp.c -/

/-- The flags after a resolved fault (cow_temp.c:143). -/
def unshareFlags (flags : Flags) : Flags :=
  (flags &&& ~~~ pageCowBit) ||| pageWritable

/-- The copy of a frame (cow_temp.c:158); frames above the identity map go
through the temporary mapping. -/
def copyFrame (old new : Frame) : Mm :=
  let S := S.setFrame new (S.mem old)
  if old.val < identityEndFrame ∧ new.val < identityEndFrame then S
  else S.tempUnmapFrame

/-- `handle_cow_fault` (cow_temp.c:109): true where it returns 0. The second
look at the entry under the lock sees what the first saw. -/
def handleCowFault (c : Nat) (d : Frame) (v : VPage) : Mm × Bool :=
  let pde := S.mem d v.1
  if !pde.present then (S, false)
  else if identityEndFrame ≤ pde.frame.val then (S, false)
  else
    let entry := S.mem pde.frame v.2
    if !entry.present then (S, false)
    else if !entry.cow then (S, false)
    else
      let flags := unshareFlags entry.flags
      if S.frameGetref entry.frame ≤ 1 then
        (S.setWord pde.frame v.2 (.entry entry.frame flags), true)
      else
        match S.allocateFrame c with
        | (S, none) => (S, false)
        | (S, some new) =>
          let S := S.copyFrame entry.frame new
          let S := S.setWord pde.frame v.2 (.entry new flags)
          (S.frameDecref c entry.frame, true)

/-! ## One page of `brk`, `mmap` and `munmap` (sys_mem.c) -/

/-- One page of `sys_brk` (sys_mem.c:46) or of an anonymous `sys_mmap`
(sys_mem.c:108), which also clears it. -/
def mapUserPage (c : Nat) (d : Frame) (v : VPage) (writable zero : Bool) :
    Mm × Bool :=
  match S.allocateFrame c with
  | (S, none) => (S, false)
  | (S, some f) =>
    match S.mapPage c d v f (userFlags writable) with
    | (S, false) => (S.freeFrame c f, false)
    | (S, true) => (if zero then S.zeroFrame f else S, true)

/-- One page of `unmap_range` (sys_mem.c:36). -/
def unmapUserPage (c : Nat) (d : Frame) (v : VPage) : Mm :=
  match S.getPhysicalFrame d v with
  | none => S
  | some f => (S.unmapPage d v).freeFrame c f

end Mm

end UnixOs
