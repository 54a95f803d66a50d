import UnixOs.Mm.Vm

/-!
# Loading a program (elf_loader.c, exec.c)

`sys_execve` creates a process memory, loads the segments of the program and of
its interpreter into it, writes the arguments to the stack, and destroys the old
memory. The file system is a list of bytes for each file; what `vfs_lseek` and
the checks of the headers return is part of the input.
-/

namespace UnixOs

open Errno
open BitVec (ofNat)

/-- `Elf32_Phdr`, the fields the loader reads. -/
structure Phdr where
  pType : Word
  pOffset : Word
  pVaddr : Word
  pFilesz : Word
  pMemsz : Word
  pFlags : Word

def ptLoad : Word := 1
def pfW : Word := 2

/-- `ELF_INTERP_RESERVE`. -/
def elfInterpReserve : Nat := 0x400000

/-- A file, its program headers with whether `vfs_lseek` to each segment works, and
`e_entry`. That the headers are those in the file is for the user of the model to say. -/
structure ElfFile where
  file : List (BitVec 8)
  phdrs : List (Phdr × Bool)
  entry : Word

/-- What `load_elf_process` gets from the file system: the result of
`open_and_read_phdrs`, the program and its base address, and for an interpreter
the result of the check of its path and of `open_and_read_phdrs`. The results are
arbitrary; `Ehdr.validate` is the part of `open_and_read_phdrs` that checks the header. -/
structure ElfInput where
  openRc : Int
  exe : ElfFile
  base : Word
  interp : Option (Int × Int × ElfFile)

/-- `MAX_ARG_LEN`. -/
def maxArgLen : Nat := 4096

/-- `MAX_EXEC_ARGS`. -/
def maxExecArgs : Nat := 64

/-- `MAX_EXEC_ENVS`. -/
def maxExecEnvs : Nat := 32

/-- `USER_STACK_BASE`. -/
def userStackBase : Word := 0x80000000

/-- The arguments of `setup_exec_user_stack` as `copy_exec_args` (exec.c:80)
leaves them, the strings without their terminators, and the auxiliary vector of a
program with an interpreter. -/
structure ExecArgs where
  argv : List (List (BitVec 8))
  envp : List (List (BitVec 8))
  auxv : Option (List Word)
  argc_le : argv.length ≤ maxExecArgs
  envc_le : envp.length ≤ maxExecEnvs
  short : ∀ s ∈ argv ++ envp, s.length < maxArgLen
  auxv_length : ∀ x ∈ auxv, x.length = 14

namespace ExecArgs

/-- The bytes of strings with their terminators. -/
def stringsSize (strs : List (List (BitVec 8))) : Nat :=
  (strs.map fun s => s.length + 1).sum

def wordBytes (w : Word) : List (BitVec 8) := [w.byte 0, w.byte 1, w.byte 2, w.byte 3]

/-- The strings are written from `ptr` on, their addresses and a zero to the
table `tbl` (exec.c:146, exec.c:161). -/
def tableWrites : Word → Word → List (List (BitVec 8)) → List (Word × List (BitVec 8))
  | tbl, _, [] => [(tbl, wordBytes 0)]
  | tbl, ptr, s :: strs =>
    (ptr, s ++ [0]) :: (tbl, wordBytes ptr) ::
      tableWrites (tbl + 4) (ptr + ofNat 32 (s.length + 1)) strs

variable (a : ExecArgs)

def auxvCount : Nat := if a.auxv.isSome then 14 else 0

/-- `argc_addr` (exec.c:133). -/
def argcAddr : Word :=
  let stackTop := userStackBase - 4096
  let stringsAddr := (stackTop - ofNat 32 (stringsSize (a.argv ++ a.envp))) &&& ~~~ 3
  let auxvAddr := stringsAddr - ofNat 32 (4 * a.auxvCount)
  let envpStart := auxvAddr - ofNat 32 (4 * (a.envp.length + 1))
  let argvStart := envpStart - ofNat 32 (4 * (a.argv.length + 1))
  (argvStart - 4) &&& ~~~ 0xF

def argvStart : Word := a.argcAddr + 4
def envpStart : Word := a.argvStart + ofNat 32 (4 * (a.argv.length + 1))
def auxvAddr : Word := a.envpStart + ofNat 32 (4 * (a.envp.length + 1))
def stringsAddr : Word := a.auxvAddr + ofNat 32 (4 * a.auxvCount)

/-- The frame of a program without an interpreter (exec.c:197). -/
def frameBase : Word := (a.argcAddr - 16) &&& ~~~ 0xF

/-- The calls of `copy_to_user_phys` of `setup_exec_user_stack` (exec.c:110), in
their order. -/
def stackWrites : List (Word × List (BitVec 8)) :=
  (a.argcAddr, wordBytes (ofNat 32 a.argv.length)) ::
    tableWrites a.argvStart a.stringsAddr a.argv ++
    tableWrites a.envpStart (a.stringsAddr + ofNat 32 (stringsSize a.argv)) a.envp ++
    match a.auxv with
    | some ws => [(a.auxvAddr, ws.flatMap wordBytes)]
    | none =>
      [(a.frameBase, wordBytes 0),
        (a.frameBase + 4, wordBytes (ofNat 32 a.argv.length)),
        (a.frameBase + 8, wordBytes a.argvStart),
        (a.frameBase + 12, wordBytes a.envpStart)]

end ExecArgs

namespace Mm

/-- The loop of `map_segment_streaming` (elf_loader.c:103): the first page is
filled from `off`, `pos` is the position in the file, and `rem` bytes are still
to be read. The reads of a page stop at the end of the file. -/
def segmentPages (c : Nat) (d : Frame) (flags : Flags) (file : List (BitVec 8)) :
    Mm → List Word → Nat → Nat → Nat → Mm × Int
  | S, [], _, _, _ => (S, 0)
  | S, a :: as, off, pos, rem =>
    match S.allocateFrame c with
    | (S, none) => (S, -ENOMEM)
    | (S, some f) =>
      if f = 0 then (S, -ENOMEM)
      else
        let bytes := (file.drop pos).take (min rem (4096 - off))
        let S := (S.zeroFrame f).copyToFrame f off bytes
        match S.mapPage c d a.vpage f flags with
        | (S, false) => (S.freeFrame c f, -Errno.EIO)
        | (S, true) => segmentPages c d flags file S as 0 (pos + bytes.length) (rem - bytes.length)

/-- The pages of a segment (elf_loader.c:121). -/
def segmentRange (va memsz : Word) : List Word :=
  let vaddrEnd := ofNat 32 (va.toNat + memsz.toNat + 4095) &&& pageAddrMask
  pagesFromTo (va &&& pageAddrMask) vaddrEnd

/-- `map_segment_streaming` (elf_loader.c:103). -/
def mapSegmentStreaming (S : Mm) (c : Nat) (d : Frame) (ph : Phdr) (seekOk : Bool)
    (file : List (BitVec 8)) (base : Word) : Mm × Int :=
  if ph.pType ≠ ptLoad ∨ ph.pMemsz = 0 then (S, 0)
  else
    let va := ph.pVaddr + base
    if va < userCodeBase ∨ userSpaceEnd ≤ va then (S, -EFAULT)
    else if 0xFFFFFFFF < va.toNat + ph.pMemsz.toNat + 4095 then (S, -EOVERFLOW)
    else if !seekOk then (S, -Errno.EIO)
    else
      segmentPages c d (userFlags (decide (ph.pFlags &&& pfW ≠ 0))) file S
        (segmentRange va ph.pMemsz) (va &&& ~~~ pageAddrMask).toNat ph.pOffset.toNat
        ph.pFilesz.toNat

/-- The end of a segment for the heap (elf_loader.c:226). -/
def segmentBrk (ph : Phdr) (base brkEnd : Word) : Word :=
  let segEnd := ph.pVaddr.toNat + base.toNat + ph.pMemsz.toNat + 4095
  if ph.pType = ptLoad ∧ segEnd ≤ 0xFFFFFFFF then
    let segEnd := ofNat 32 segEnd &&& pageAddrMask
    if brkEnd < segEnd then segEnd else brkEnd
  else brkEnd

/-- `elf_load_segments` (elf_loader.c:217), with the end of the heap so far. -/
def elfLoadSegments (c : Nat) (d : Frame) (file : List (BitVec 8)) (base : Word) :
    Mm → List (Phdr × Bool) → Word → Mm × Int × Word
  | S, [], brkEnd => (S, 0, brkEnd)
  | S, (ph, seekOk) :: phs, brkEnd =>
    match S.mapSegmentStreaming c d ph seekOk file base with
    | (S, rc) =>
      if rc < 0 then (S, rc, 0)
      else elfLoadSegments c d file base S phs (segmentBrk ph base brkEnd)

/-- `copy_to_user_phys` (exec.c:44), page by page; the fuel is the length, as
every round copies something. -/
def copyToUserPhys (d : Frame) : Nat → Mm → Word → List (BitVec 8) → Mm × Int
  | 0, S, _, _ => (S, 0)
  | fuel + 1, S, addr, bytes =>
    if bytes = [] then (S, 0)
    else
      match S.lookup d addr.vpage with
      | none => (S, -EFAULT)
      | some pte =>
        let off := addr.toNat % 4096
        if pte.frame = 0 ∧ off = 0 then (S, -EFAULT)
        else
          let chunk := min (4096 - off) bytes.length
          copyToUserPhys d fuel (S.copyToFrame pte.frame off (bytes.take chunk))
            (addr + ofNat 32 chunk) (bytes.drop chunk)

/-- Calls of `copy_to_user_phys` until one fails. -/
def writeStack (d : Frame) : Mm → List (Word × List (BitVec 8)) → Mm × Int
  | S, [] => (S, 0)
  | S, (addr, bytes) :: rest =>
    match copyToUserPhys d bytes.length S addr bytes with
    | (S, rc) => if rc < 0 then (S, -EFAULT) else writeStack d S rest

end Mm

namespace Vm

/-- What `load_elf_process` makes of the result of `load_interpreter_at`: the entry point
comes back as an `int32_t`, so that one above 2^31 is taken for an error. -/
def interpRc (rc : Int) (entry : Word) : Int :=
  if rc < 0 then rc else min entry.toInt 0

/-- `load_interpreter_at` (elf_loader.c:267) as called by `load_elf_process`
(elf_loader.c:346). -/
def loadInterpreter (S : Vm) (c : Nat) (d : Frame) (pathRc openRc : Int)
    (img : ElfFile) : Vm × Int :=
  if pathRc < 0 then (S, -EINVAL)
  else
    let base := (S.proc d).mmapNext
    if userSpaceEnd.toNat < base.toNat + elfInterpReserve then (S, -ENOMEM)
    else
      let S := S.setProc d { S.proc d with
        mmapNext := base + ofNat 32 elfInterpReserve }
      if openRc < 0 then (S, openRc)
      else
        match Mm.elfLoadSegments c d img.file base S.mm img.phdrs 0 with
        | (mm, rc, _) => ({ S with mm }, interpRc rc (img.entry + base))

/-- `load_elf_process` (elf_loader.c:299) into the memory of directory `d`. -/
def loadElfProcess (S : Vm) (c : Nat) (d : Frame) (inp : ElfInput) : Vm × Int :=
  if inp.openRc < 0 then (S, inp.openRc)
  else
    match Mm.elfLoadSegments c d inp.exe.file inp.base S.mm inp.exe.phdrs 0 with
    | (mm, rc, brkEnd) =>
      let S : Vm := { S with mm }
      if rc < 0 then (S, rc)
      else
        let S := if 0 < brkEnd then S.setProc d { S.proc d with brk := brkEnd } else S
        match inp.interp with
        | none => (S, 0)
        | some (pathRc, openRc, img) => S.loadInterpreter c d pathRc openRc img

/-- `setup_exec_user_stack` (exec.c:110). -/
def setupExecUserStack (S : Vm) (d : Frame) (args : ExecArgs) : Vm × Int :=
  match Mm.writeStack d S.mm args.stackWrites with
  | (mm, rc) => ({ S with mm }, rc)

end Vm

end UnixOs
