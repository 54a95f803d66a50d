import UnixOs.Mm.User

/-!
# Copies between the kernel and a process (uaccess.c)

`copy_from_user`, `copy_to_user` and `copy_str_from_user`, called in the address
space of directory `d`. The kernel runs with `CR0.WP` clear (page_dir.c:90), so
its own accesses look at the present bits of both levels only. `kmemcpy` goes
byte by byte; each byte goes through the tables as they are then.

A kernel buffer is known by its address, which is compared with 0, and by its
content.
-/

namespace UnixOs

open Errno

/-- The directory index and the table index of a page number. -/
def vpageOf (p : Frame) : VPage :=
  (⟨p.val / 1024, by omega⟩, ⟨p.val % 1024, by omega⟩)

namespace Word

/-- The page of a virtual address. -/
def vpage (a : Word) : VPage := vpageOf a.frame

/-- The word of the page an address lies in. -/
def wordIdx (a : Word) : Idx := ⟨a.toNat / 4 % 1024, by omega⟩

/-- The byte of the word. -/
def lane (a : Word) : Fin 4 := ⟨a.toNat % 4, by omega⟩

end Word

/-- `KERNEL_BASE`. -/
def kernelBase : Word := 0xC0000000

/-- `USER_MIN_VA`. -/
def userMinVa : Word := 4096

/-- `IDENTITY_MAP_END`. -/
def identityMapEnd : Word := 0x2000000

/-- `access_ok` (uaccess.c:29). -/
def accessOk (a size : Word) : Bool :=
  if a = 0 then false
  else if kernelBase ≤ a then false
  else if a + size < a then false
  else if kernelBase < a + size then false
  else if a < userMinVa then false
  else true

/-- The page numbers a loop from `p` to `q` visits. -/
def pagesBetween (p q : Frame) : List Frame :=
  (List.range ((q - p).val + 1)).map fun k => p + Fin.ofNat (2 ^ 20) k

/-- The bytes from `a` on. -/
def addrRange (a : Word) (n : Nat) : List Word :=
  (List.range n).map fun k => a + BitVec.ofNat 32 k

namespace Mm

variable (S : Mm)

/-- `user_addr_resident` (uaccess.c:60) of an address on page `p`. -/
def userAddrResident (d : Frame) (p : Frame) : Bool :=
  (S.getPhysicalFrame d (vpageOf p)).isSome

/-- `user_range_resident` (uaccess.c:46). -/
def userRangeResident (d : Frame) (addr size : Word) : Bool :=
  if size = 0 then true
  else (pagesBetween addr.frame (addr + size - 1).frame).all (S.userAddrResident d)

/-- The kernel loads the byte at a virtual address. -/
def kernelLoad (d : Frame) (a : Word) : BitVec 8 :=
  match S.lookup d a.vpage with
  | some pte => (S.mem pte.frame a.wordIdx).byte a.lane
  | none => 0

/-- The kernel stores a byte at a virtual address. -/
def kernelStore (d : Frame) (a : Word) (x : BitVec 8) : Mm :=
  match S.lookup d a.vpage with
  | some pte => S.setByte pte.frame a.wordIdx a.lane x
  | none => S

/-- `copy_from_user` (uaccess.c:64), with the bytes it gets. -/
def copyFromUser (d : Frame) (dst src n : Word) : Int × List (BitVec 8) :=
  if dst = 0 ∨ src = 0 then (-EINVAL, [])
  else if n = 0 then (0, [])
  else if !accessOk src n then (-EFAULT, [])
  else if !S.userRangeResident d src n then (-EFAULT, [])
  else (0, (addrRange src n.toNat).map (S.kernelLoad d))

/-- The `kmemcpy` of `copy_to_user`. -/
def storeBytes (d : Frame) : Mm → List (Word × BitVec 8) → Mm
  | S, [] => S
  | S, (a, x) :: rest => storeBytes d (S.kernelStore d a x) rest

/-- `copy_to_user` (uaccess.c:77) of the `n` bytes at `src`. -/
def copyToUser (d : Frame) (dst src n : Word) (content : Nat → BitVec 8) : Mm × Int :=
  if dst = 0 ∨ src = 0 then (S, -EINVAL)
  else if n = 0 then (S, 0)
  else if !accessOk dst n then (S, -EFAULT)
  else if !S.userRangeResident d dst n then (S, -EFAULT)
  else
    (storeBytes d S ((List.range n.toNat).map fun k => (dst + BitVec.ofNat 32 k, content k)), 0)

/-- The loop of `copy_str_from_user` (uaccess.c:90): `room` characters may still
be read, the next is number `i`, and `cur` is the page last found resident. -/
def copyStrLoop (d : Frame) (src : Word) : Nat → Nat → Frame → List (BitVec 8) →
    Int × List (BitVec 8)
  | 0, _, _, acc => (-EOVERFLOW, acc ++ [0])
  | room + 1, i, cur, acc =>
    let addr := src + BitVec.ofNat 32 i
    if addr.frame ≠ cur ∧ !S.userAddrResident d addr.frame then (-EFAULT, acc)
    else
      let c := S.kernelLoad d addr
      if c = 0 then ((BitVec.ofNat 32 i).toInt, acc ++ [c])
      else copyStrLoop d src room (i + 1) addr.frame (acc ++ [c])

/-- `copy_str_from_user` (uaccess.c:90), with the characters it stores. -/
def copyStrFromUser (d : Frame) (dst src max : Word) : Int × List (BitVec 8) :=
  if dst = 0 ∨ src = 0 ∨ max = 0 then (-EINVAL, [])
  else if !accessOk src max then (-EFAULT, [])
  else if !S.userAddrResident d src.frame then (-EFAULT, [])
  else S.copyStrLoop d src (max.toNat - 1) 0 src.frame []

end Mm

end UnixOs
