import UnixOs.Mm.FreshMemory

/-!
# The user heap (libc/malloc/malloc.c)

`malloc` keeps its blocks in one list: a block is reused whole, or the break is moved up
for a new one. The break is the kernel's, and user space caches it twice: `heap_current`
in malloc.c and `_brk_current` behind the public `sbrk` of unistd_full.c. All sizes are
32-bit words, and the rounding, the header and the product of `calloc` wrap.

- `UserHeap`: one process, with its break, the two caches, the blocks and its bytes. Two
  ghost fields record what the program was promised: the blocks it holds, with the sizes
  it asked for, and the memory it got from the public `sbrk`.
- `Placed`: what the program may rely on; `Served`: what one call owes it.
- `Sound`: a condition on the state before a call under which the call keeps its promise.
  It says where the sizes may not wrap and what may lie above a cached break.

The header of a block is an element of `freeList`; its words are stored in the bytes
too, so that a header written over a block shows in the block. The program is taken to
write to its own memory only, so nothing else changes a header.
-/

namespace UnixOs

open Function BitVec Errno
open BitVec (ofNat ofInt)

/-- `block_header_t` at `addr`. `next` is the order of the list, and `magic` is what
makes a pointer one into the list. -/
structure HeapBlock where
  addr : Word
  size : Word
  free : Bool
  deriving DecidableEq

/-- `HEADER_SIZE`. -/
def headerSize : Word := 16

/-- `BLOCK_MAGIC`. -/
def blockMagic : Word := 0xDEADBEEF

/-- `ALIGN`. -/
def align (x : Word) : Word := (x + 7) &&& ~~~ 7

namespace HeapBlock

/-- The first address after the block. -/
def stop (b : HeapBlock) : Nat := b.addr.toNat + 16 + b.size.toNat

/-- The bytes the program gets. -/
def Data (b : HeapBlock) (x : Word) : Prop := b.addr.toNat + 16 ≤ x.toNat ∧ x.toNat < b.stop

def Apart (b c : HeapBlock) : Prop := b.stop ≤ c.addr.toNat ∨ c.stop ≤ b.addr.toNat

instance : Std.Symm Apart := ⟨fun _ _ => Or.symm⟩

/-- The block with its `free` field stored, if it is the one at `a`. -/
def mark (a : Word) (v : Bool) (b : HeapBlock) : HeapBlock :=
  if b.addr = a then { b with free := v } else b

@[simp] theorem addr_mark (a : Word) (v : Bool) (b : HeapBlock) : (b.mark a v).addr = b.addr := by
  rw [mark]
  split <;> rfl

@[simp] theorem stop_mark (a : Word) (v : Bool) (b : HeapBlock) : (b.mark a v).stop = b.stop := by
  rw [mark]
  split <;> rfl

theorem mark_of_ne {a : Word} {b : HeapBlock} (h : b.addr ≠ a) (v : Bool) : b.mark a v = b :=
  if_neg h

theorem mark_self (b : HeapBlock) (v : Bool) : b.mark b.addr v = { b with free := v } := if_pos rfl

end HeapBlock

/-- The bytes of a process. -/
abbrev Bytes32 := Word → BitVec 8

namespace Bytes32

/-- A word is stored at `a`. -/
def storeWord (mem : Bytes32) (a w : Word) : Bytes32 := fun x =>
  if h : (x - a).toNat < 4 then w.byte ⟨(x - a).toNat, h⟩ else mem x

/-- The loop that stores byte `i` of the result at `dst + i`, for the first `n` of them. -/
def storeLoop (dst : Word) (v : Bytes32 → Word → BitVec 8) : Nat → Bytes32 → Bytes32
  | 0, mem => mem
  | n + 1, mem =>
    let mem := storeLoop dst v n mem
    update mem (dst + ofNat 32 n) (v mem (ofNat 32 n))

end Bytes32

/-- A process as its heap sees it. `live` has the blocks the program holds with the
sizes it asked for, `taken` the ranges the public `sbrk` gave it. -/
structure UserHeap where
  brk : Word
  heapStart : Word
  heapCurrent : Word
  brkCurrent : Word
  freeList : List HeapBlock
  mem : Bytes32
  live : List (Word × Nat)
  taken : List (Nat × Nat)

namespace UserHeap

variable (S : UserHeap)

/-- What the kernel has for a growing heap: the bytes of the frames it maps, or no frame. -/
abbrev Frames := Option Bytes32

/-- `sys_brk` (sys_mem.c:46) as the process sees it. -/
def sysBrk (fr : Frames) (addr : Word) : UserHeap × Word :=
  if addr = 0 then (S, S.brk)
  else if addr < UnixOs.heapStart then (S, ofInt 32 (-EINVAL))
  else if UnixOs.heapStart + maxHeapSize < addr then (S, ofInt 32 (-ENOMEM))
  else if pageUp S.brk < pageUp addr ∧ S.brk < addr then
    match fr with
    | none => (S, ofInt 32 (-ENOMEM))
    | some fresh =>
      ({ S with
          brk := addr
          mem := fun x => if pageUp S.brk ≤ x ∧ x < pageUp addr then fresh x else S.mem x },
        addr)
  else ({ S with brk := addr }, addr)

/-- The first call of `sbrk` reads the break. -/
def opened : UserHeap :=
  if S.heapStart = 0 then { S with heapStart := S.brk, heapCurrent := S.brk } else S

/-- `sbrk` of malloc.c. -/
def sbrk (fr : Frames) (increment : Word) : UserHeap × Word :=
  let S := S.opened
  let old := S.heapCurrent
  if increment = 0 then (S, old)
  else
    match S.sysBrk fr (old + increment) with
    | (S, r) =>
      if r ≠ old + increment then (S, -1)
      else ({ S with heapCurrent := old + increment }, old)

/-- The break the allocator believes in. -/
def cached : Word := S.opened.heapCurrent

/-- The break the public `sbrk` believes in: `_brk_current`, which its first call reads. -/
def publicCached : Word := if S.brkCurrent = 0 then S.brk else S.brkCurrent

/-- `sbrk` of unistd_full.c. -/
def publicSbrk (fr : Frames) (increment : Word) : UserHeap × Word :=
  let old := S.publicCached
  let S := { S with brkCurrent := old }
  if increment = 0 then (S, old)
  else
    match S.sysBrk fr (old + increment) with
    | (S, r) =>
      if r ≠ old + increment then (S, -1)
      else ({ S with brkCurrent := old + increment }, old)

/-- The `free` field of the header at `a`. -/
def setFree (a : Word) (v : Bool) : UserHeap :=
  { S with
    freeList := S.freeList.map (HeapBlock.mark a v)
    mem := S.mem.storeWord (a + 12) (if v then 1 else 0) }

/-- The first free block of at least `size` bytes. -/
def firstFit (size : Word) : Option HeapBlock :=
  S.freeList.find? fun b => b.free && decide (size ≤ b.size)

/-- A header is written at `a`, and the last block of the list leads to it. -/
def addBlock (a size : Word) : UserHeap :=
  let mem := (((S.mem.storeWord a size).storeWord (a + 4) blockMagic).storeWord (a + 8) 0).storeWord
    (a + 12) 0
  { S with
    freeList := S.freeList ++ [⟨a, size, false⟩]
    mem := match S.freeList.getLast? with
      | some prev => mem.storeWord (prev.addr + 8) a
      | none => mem }

/-- `malloc` (malloc.c:59). -/
def malloc (fr : Frames) (size : Word) : UserHeap × Word :=
  if size = 0 then (S, 0)
  else
    match S.firstFit (align size) with
    | some curr => (S.setFree curr.addr false, curr.addr + headerSize)
    | none =>
      match S.sbrk fr (align size + headerSize) with
      | (S, block) =>
        if block = -1 then (S, 0)
        else (S.addBlock block (align size), block + headerSize)

/-- `calloc` (malloc.c:96). -/
def calloc (fr : Frames) (nmemb size : Word) : UserHeap × Word :=
  match S.malloc fr (nmemb * size) with
  | (S, ptr) =>
    if ptr = 0 then (S, 0)
    else ({ S with mem := .storeLoop ptr (fun _ _ => 0) (nmemb * size).toNat S.mem }, ptr)

/-- The header before `ptr`, if its magic is right. -/
def header (ptr : Word) : Option HeapBlock :=
  S.freeList.find? fun b => decide (b.addr = ptr - headerSize)

/-- `free` (malloc.c:133). -/
def free (ptr : Word) : UserHeap :=
  if ptr = 0 then S
  else
    match S.header ptr with
    | none => S
    | some b => S.setFree b.addr true

/-- `realloc` (malloc.c:107). -/
def realloc (fr : Frames) (ptr size : Word) : UserHeap × Word :=
  if ptr = 0 then S.malloc fr size
  else if size = 0 then (S.free ptr, 0)
  else
    match S.header ptr with
    | none => (S, 0)
    | some b =>
      if size ≤ b.size then (S, ptr)
      else
        match S.malloc fr size with
        | (S, new) =>
          if new = 0 then (S, 0)
          else
            let mem := .storeLoop new (fun mem i => mem (ptr + i)) b.size.toNat S.mem
            (({ S with mem } : UserHeap).free ptr, new)

end UserHeap

/-! ## Runs -/

/-- A call of the program, or a byte it writes. -/
inductive HeapOp where
  | malloc (fr : UserHeap.Frames) (size : Word)
  | calloc (fr : UserHeap.Frames) (nmemb size : Word)
  | realloc (fr : UserHeap.Frames) (ptr size : Word)
  | free (ptr : Word)
  | sbrk (fr : UserHeap.Frames) (increment : Word)
  | write (a : Word) (v : BitVec 8)

namespace UserHeap

variable (S : UserHeap)

/-- The program holds the block at `p`, of which it asked for `n` bytes. -/
def grant (p : Word) (n : Nat) : UserHeap :=
  if p = 0 then S else { S with live := (p, n) :: S.live }

/-- The program no longer holds the block at `p`. -/
def forgo (p : Word) : UserHeap := { S with live := S.live.filter fun l => l.1 ≠ p }

/-- The program got the memory `sbrk` moved the break over, or gave it back. -/
def took (old increment : Word) : UserHeap :=
  if 0 < increment.toInt then
    { S with taken := (old.toNat, old.toNat + increment.toNat) :: S.taken }
  else if increment.toInt < 0 then
    { S with taken := S.taken.map fun r => (r.1, min r.2 (old + increment).toNat) }
  else S

def step (S : UserHeap) : HeapOp → UserHeap
  | .malloc fr size => (S.malloc fr size).1.grant (S.malloc fr size).2 size.toNat
  | .calloc fr nmemb size =>
    (S.calloc fr nmemb size).1.grant (S.calloc fr nmemb size).2 (nmemb.toNat * size.toNat)
  | .realloc fr ptr size =>
    let r := S.realloc fr ptr size
    if r.2 = 0 ∧ size ≠ 0 then r.1 else (r.1.forgo ptr).grant r.2 size.toNat
  | .free ptr => (S.free ptr).forgo ptr
  | .sbrk fr increment =>
    let r := S.publicSbrk fr increment
    if r.2 = -1 then r.1 else r.1.took r.2 increment
  | .write a v => { S with mem := update S.mem a v }

/-- What a program may do: only what it holds is freed, resized or written. -/
def Legal (S : UserHeap) : HeapOp → Prop
  | .realloc _ ptr _ | .free ptr => ptr = 0 ∨ ∃ n, (ptr, n) ∈ S.live
  | .write a _ =>
    (∃ l ∈ S.live, l.1.toNat ≤ a.toNat ∧ a.toNat < l.1.toNat + l.2) ∨
      ∃ r ∈ S.taken, r.1 ≤ a.toNat ∧ a.toNat < r.2
  | _ => True

/-- What the program may rely on. -/
structure Placed : Prop where
  apart : S.live.Pairwise fun k l =>
    k.1.toNat + k.2 ≤ l.1.toNat ∨ l.1.toNat + l.2 ≤ k.1.toNat
  clear : ∀ l ∈ S.live, ∀ r ∈ S.taken, l.1.toNat + l.2 ≤ r.1 ∨ r.2 ≤ l.1.toNat
  inside : ∀ l ∈ S.live, l.1.toNat + l.2 ≤ S.brk.toNat
  large : ∀ l ∈ S.live, ∃ b ∈ S.freeList, b.addr + headerSize = l.1 ∧ l.2 ≤ b.size.toNat

/-- The blocks other than the one at `p` are still held, with their bytes. -/
def Intact (S S' : UserHeap) (p : Word) : Prop :=
  ∀ l ∈ S.live, l.1 ≠ p → l ∈ S'.live ∧
    ∀ i < l.2, S'.mem (l.1 + ofNat 32 i) = S.mem (l.1 + ofNat 32 i)

/-- What a call owes the program. The null pointer is never held, so `Intact S S' 0` is
about all blocks. -/
def Served (S : UserHeap) (op : HeapOp) : Prop :=
  (S.step op).Placed ∧
  match op with
  | .malloc fr size =>
    S.Intact (S.step op) 0 ∧
      ((S.malloc fr size).2 ≠ 0 → ((S.malloc fr size).2, size.toNat) ∈ (S.step op).live)
  | .calloc fr nmemb size =>
    S.Intact (S.step op) 0 ∧
      ((S.calloc fr nmemb size).2 ≠ 0 →
        ((S.calloc fr nmemb size).2, nmemb.toNat * size.toNat) ∈ (S.step op).live)
  | .realloc fr ptr size =>
    S.Intact (S.step op) ptr ∧
      (size ≠ 0 → (S.realloc fr ptr size).2 = 0 → S.Intact (S.step op) 0) ∧
      ((S.realloc fr ptr size).2 ≠ 0 →
        ((S.realloc fr ptr size).2, size.toNat) ∈ (S.step op).live ∧
        ∀ n, (ptr, n) ∈ S.live → ∀ i < min n size.toNat,
          (S.step op).mem ((S.realloc fr ptr size).2 + ofNat 32 i)
            = S.mem (ptr + ofNat 32 i))
  | .free ptr => S.Intact (S.step op) ptr
  | .sbrk _ _ => S.Intact (S.step op) 0
  | .write _ _ => True

/-- Nothing of the heap, and nothing the program got from `sbrk`, lies above `a`. -/
def ClearAbove (a : Word) : Prop :=
  (∀ b ∈ S.freeList, b.stop ≤ a.toNat) ∧ ∀ r ∈ S.taken, r.2 ≤ a.toNat

/-- No block is free for the request, and the kernel does not move the break. -/
def Refused (fr : Frames) (size : Word) : Prop :=
  S.firstFit (align size) = none ∧ align size + headerSize ≠ 0 ∧
    (S.sysBrk fr (S.cached + (align size + headerSize))).2 ≠ S.cached + (align size + headerSize)

/-- A request for `n` bytes that reaches `malloc` as `size` is refused, or no step of its
arithmetic wraps and a new block ends in the heap and has nothing above it. That the end
is in the heap is more than that the kernel was not seen to refuse: at `(uint32_t)-ENOMEM`
the error is the address asked for. -/
def Fits (fr : Frames) (n : Nat) (size : Word) : Prop :=
  size = 0 ∨ S.Refused fr size ∨
    (n = size.toNat ∧ size.toNat + 7 < 2 ^ 32 ∧
      ((S.firstFit (align size)).isSome ∨
        (S.cached.toNat + (align size).toNat + 16 ≤ (UnixOs.heapStart + maxHeapSize).toNat ∧
          S.ClearAbove S.cached)))

/-- The public `sbrk` is refused, or no block lies above its cached break or the new one. -/
def Moves (fr : Frames) (increment : Word) : Prop :=
  increment = 0 ∨
    (S.sysBrk fr (S.publicCached + increment)).2 ≠ S.publicCached + increment ∨
    ∀ b ∈ S.freeList, b.stop ≤ S.publicCached.toNat ∧ b.stop ≤ (S.publicCached + increment).toNat

/-- The condition on the state before a call. -/
def Sound (S : UserHeap) : HeapOp → Prop
  | .malloc fr size => S.Fits fr size.toNat size
  | .calloc fr nmemb size => S.Fits fr (nmemb.toNat * size.toNat) (nmemb * size)
  | .realloc fr ptr size =>
    (∃ b, ptr ≠ 0 ∧ S.header ptr = some b ∧ size ≤ b.size) ∨ S.Fits fr size.toNat size
  | .free _ | .write _ _ => True
  | .sbrk fr increment => S.Moves fr increment

/-! ## Bytes -/

theorem toNat_align {x : Word} (h : x.toNat + 7 < 2 ^ 32) :
    (align x).toNat = (x.toNat + 7) / 8 * 8 := by
  have hadd : (x + 7).toNat = x.toNat + 7 := by
    rw [toNat_add]
    exact Nat.mod_eq_of_lt h
  have hround := (x + 7).toNat_and_not 3
  rw [hadd] at hround
  exact hround

/-- A word stored in the header of a block changes no byte outside the header. -/
theorem storeWord_of_ne {a w x : Word} {k : Nat} (mem : Bytes32) (hk : k + 4 ≤ 16)
    (ha : a.toNat + 16 ≤ 2 ^ 32) (hx : x.toNat < a.toNat ∨ a.toNat + 16 ≤ x.toNat) :
    mem.storeWord (a + ofNat 32 k) w x = mem x := by
  rw [Bytes32.storeWord, dif_neg]
  rw [toNat_sub, toNat_add_ofNat (by omega)]
  omega

variable {dst : Word} {v : Bytes32 → Word → BitVec 8} {mem : Bytes32}

theorem storeLoop_of_ne {n : Nat} {x : Word} (hdst : dst.toNat + n ≤ 2 ^ 32)
    (hx : x.toNat < dst.toNat ∨ dst.toNat + n ≤ x.toNat) :
    Bytes32.storeLoop dst v n mem x = mem x := by
  induction n with
  | zero => rfl
  | succ n ih =>
    have hne : x ≠ dst + ofNat 32 n := by
      rintro rfl
      rw [toNat_add_ofNat (by omega)] at hx
      omega
    rw [Bytes32.storeLoop, update_of_ne hne]
    exact ih (by omega) (by omega)

/-- A copy from a range that the destination does not meet. -/
theorem copy_get {src : Word} {n i : Nat} (hdst : dst.toNat + n ≤ 2 ^ 32)
    (hsrc : src.toNat + n ≤ 2 ^ 32)
    (hapart : src.toNat + n ≤ dst.toNat ∨ dst.toNat + n ≤ src.toNat) (hi : i < n) :
    Bytes32.storeLoop dst (fun mem i => mem (src + i)) n mem (dst + ofNat 32 i)
      = mem (src + ofNat 32 i) := by
  induction n with
  | zero => omega
  | succ n ih =>
    rw [Bytes32.storeLoop]
    obtain rfl | hin := eq_or_ne i n
    · rw [update_self]
      refine storeLoop_of_ne (by omega) ?_
      rw [toNat_add_ofNat (by omega)]
      omega
    · have hne : dst + ofNat 32 i ≠ dst + ofNat 32 n := by
        intro heq
        have := congrArg BitVec.toNat heq
        rw [toNat_add_ofNat (by omega), toNat_add_ofNat (by omega)] at this
        omega
      rw [update_of_ne hne]
      exact ih (by omega) (by omega) (by omega) (by omega)

/-! ## The break -/

/-- The kernel moves the break as asked and leaves what lies below the old one alone, or
changes nothing. -/
theorem sysBrk_cases (fr : Frames) (addr : Word) :
    (∃ mem, S.sysBrk fr addr = ({ S with brk := addr, mem }, addr) ∧
      ∀ x : Word, x.toNat < S.brk.toNat → mem x = S.mem x) ∨
    ((S.sysBrk fr addr).1 = S ∧
      ((S.sysBrk fr addr).2 = addr → (UnixOs.heapStart + maxHeapSize).toNat < addr.toNat)) := by
  have htop : (UnixOs.heapStart + maxHeapSize).toNat = 0x18048000 := rfl
  have hinval : (ofInt 32 (-EINVAL)).toNat = 4294967274 := rfl
  have hnomem : (ofInt 32 (-ENOMEM)).toNat = 4294967284 := rfl
  unfold sysBrk
  split
  · next hzero =>
    subst hzero
    by_cases hbrk : S.brk = 0
    · refine .inl ⟨S.mem, ?_, fun _ _ => rfl⟩
      rw [← hbrk]
    · exact .inr ⟨rfl, fun h => absurd h hbrk⟩
  split
  · refine .inr ⟨rfl, fun heq => ?_⟩
    have := congrArg BitVec.toNat heq
    simp only [] at this
    omega
  split
  · next hhigh => exact .inr ⟨rfl, fun _ => lt_def.1 hhigh⟩
  next hhigh =>
  rw [lt_def, not_lt, htop] at hhigh
  split
  · next hgrow =>
    split
    · refine .inr ⟨rfl, fun heq => ?_⟩
      have := congrArg BitVec.toNat heq
      simp only [] at this
      omega
    · -- the pages that are mapped start above the old break
      refine .inl ⟨_, rfl, fun x hx => if_neg fun h => ?_⟩
      have hlt := lt_def.1 hgrow.2
      have hle := le_def.1 h.1
      rw [Vm.toNat_pageUp (by omega)] at hle
      omega
  · exact .inl ⟨S.mem, rfl, fun _ _ => rfl⟩

/-- The kernel's side: `sys_brk` on the process memory answers and moves the break like
this, with frames or without. -/
theorem sysBrk_refines (vm : Vm) (c : Nat) (d : Frame) (addr : Word) : ∃ fr,
    let out := ({ S with brk := (vm.proc d).brk } : UserHeap).sysBrk fr addr
    out.1.brk = ((vm.sysBrk c (some d) addr).1.proc d).brk ∧
      out.2 = ofInt 32 (vm.sysBrk c (some d) addr).2 := by
  obtain ⟨mm, ok, hmap⟩ : ∃ mm ok, Mm.mapRange c d true false [] vm.mm
    (pagesFromTo (pageUp (vm.proc d).brk) (pageUp addr)) = (mm, ok) := ⟨_, _, rfl⟩
  -- A loop without a page does not fail.
  have hpages : ok = false → pageUp (vm.proc d).brk < pageUp addr := by
    rintro rfl
    by_contra hno
    rw [Vm.pagesFromTo_eq_nil hno] at hmap
    cases hmap
  refine ⟨if ok then some S.mem else none, ?_⟩
  simp only [sysBrk, Vm.sysBrk, hmap]
  cases ok <;> split_ifs <;> simp_all [Vm.setProc]

end UserHeap

end UnixOs
