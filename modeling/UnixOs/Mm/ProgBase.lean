import UnixOs.Mm.ElfLayout
import UnixOs.Mm.StartStack

/-!
# Where the dynamic linker takes the program to be

`load_elf_process` puts a program with a fixed address where it was linked and a
position-independent one at a random base. It does not hand the base on: `_start_c` of the
dynamic linker gets the entry point and the address of the program headers, and guesses.

- `elfBase`: the base the kernel has chosen;
- `progBase`: the base that `_start_c` computes;
- `progBase_eq_iff`: when the two are the same.
-/

namespace UnixOs

open Errno

/-- `Elf32_Ehdr`, the fields the loader reads. -/
structure Ehdr where
  eIdent : List (BitVec 8)
  eType : BitVec 16
  eMachine : BitVec 16
  eEntry : Word
  ePhoff : Word
  ePhentsize : BitVec 16
  ePhnum : BitVec 16
  eShnum : BitVec 16

def etExec : BitVec 16 := 2
def etDyn : BitVec 16 := 3

namespace Ehdr

variable (h : Ehdr)

/-- The entry of a program with a fixed address lies in user space. -/
def checkType : Except Int Bool :=
  if h.eType = etDyn then .ok true
  else if h.eType = etExec then
    if h.eEntry < userCodeBase ∨ userSpaceEnd ≤ h.eEntry then .error (-EINVAL) else .ok false
  else .error (-EINVAL)

/-- `validate_elf_header` (elf_loader.c:67): whether the program is position-independent. -/
def validate : Except Int Bool :=
  if h.eIdent.take 6 ≠ [0x7F, 0x45, 0x4C, 0x46, 1, 1] ∨ h.eMachine ≠ 3 then
    .error (-EINVAL)
  else
    match h.checkType with
    | .error e => .error e
    | .ok isPie =>
      if h.ePhentsize ≠ 32 ∨ 32 < h.ePhnum ∨ 1024 < h.eShnum then .error (-EINVAL)
      else .ok isPie

/-- The header at the beginning of a file. -/
def read (file : List (BitVec 8)) : Ehdr :=
  let half (off : Nat) : BitVec 16 := file.getD (off + 1) 0 ++ file.getD off 0
  ⟨file.take 16, half 16, half 18, Vm.fileWord file 24, Vm.fileWord file 28, half 42, half 44,
    half 48⟩

/-- The header of the file with two segments is one that `validate_elf_header` accepts, and its
program headers are where they were read. -/
theorem validate_twoHeader : (read Vm.twoHeader).validate = .ok false ∧
    (read Vm.twoHeader).ePhoff = 52 ∧ (read Vm.twoHeader).ePhnum = 2 := by
  decide

/-- The address the first bytes of the file were linked at (elf_loader.c:352). -/
def linkBase (phs : List Phdr) : Word :=
  match phs.find? fun ph => decide (ph.pType = ptLoad ∧ ph.pOffset = 0) with
  | some ph => ph.pVaddr
  | none => 0

/-- The auxiliary vector of a program with an interpreter, from what `load_elf_process`
stores (elf_loader.c:360). -/
def auxv (phs : List Phdr) (base interpBase : Word) : List (Word × Word) :=
  auxvPairs (linkBase phs + base + h.ePhoff) (h.ePhnum.setWidth 32) interpBase (h.eEntry + base)

end Ehdr

/-- `ELF_PIE_BASE_MIN`. -/
def elfPieBaseMin : Word := 0x10000000

/-- `ELF_PIE_BASE_RANGE`. -/
def elfPieBaseRange : Word := 0x30000000

/-- `generate_pie_base` (elf_loader.c:49) with the random word. -/
def generatePieBase (rnd : Word) : Word :=
  (elfPieBaseMin + rnd % (elfPieBaseRange / 4096) * 4096) &&& pageAddrMask

/-- `base_addr` of `load_elf_process`. -/
def elfBase (isPie : Bool) (rnd : Word) : Word := if isPie then generatePieBase rnd else 0

/-! ## The dynamic linker -/

/-- What the loop of `_start_c` over `auxv` looks for. -/
structure AuxSeen where
  entry : Word
  phdr : Word
  phnum : Word

/-- The loop over `auxv` (rtld.c:638). -/
def scanAuxv : List (Word × Word) → AuxSeen → AuxSeen
  | [], s => s
  | (t, v) :: rest, s =>
    if t = atNull then s
    else
      scanAuxv rest
        (if t = 9 then { s with entry := v }
        else if t = 3 then { s with phdr := v }
        else if t = 5 then { s with phnum := v }
        else s)

/-- `prog_base` of `_start_c` (rtld.c:622); without an entry point it exits. -/
def progBase (pairs : List (Word × Word)) : Option Word :=
  let s := scanAuxv pairs ⟨0, 0, 0⟩
  if s.entry = 0 then none
  else some (if s.entry < 0x08000000 then s.phdr - 0x34 else 0)

theorem progBase_auxvPairs (phdr phnum interpBase entry : Word) :
    progBase (auxvPairs phdr phnum interpBase entry)
      = if entry = 0 then none else some (if entry < 0x08000000 then phdr - 0x34 else 0) := rfl

/-! ## The two bases -/

/-- No base is 0. -/
theorem generatePieBase_ne_zero (rnd : Word) : generatePieBase rnd ≠ 0 := by
  intro h
  have hnat : (generatePieBase rnd).toNat = 0 := by rw [h]; rfl
  rw [generatePieBase, toNat_pageAddrMask] at hnat
  have hsum : (elfPieBaseMin + rnd % (elfPieBaseRange / 4096) * 4096).toNat
      = 0x10000000 + rnd.toNat % 0x30000 * 4096 := by
    have hmod : (rnd % (elfPieBaseRange / 4096)).toNat = rnd.toNat % 0x30000 := by
      rw [BitVec.toNat_umod]
      rfl
    rw [BitVec.toNat_add, BitVec.toNat_mul, hmod]
    show (0x10000000 + rnd.toNat % 0x30000 * 4096 % 2 ^ 32) % 2 ^ 32 = _
    omega
  rw [hsum] at hnat
  omega

/-- A header that is accepted without being position-independent has its entry in user
space. -/
theorem Ehdr.userCodeBase_le_of_validate {h : Ehdr} (hv : h.validate = .ok false) :
    userCodeBase ≤ h.eEntry := by
  have htype : h.checkType = .ok false := by
    rw [validate] at hv
    split at hv
    · cases hv
    split at hv
    · cases hv
    · next isPie hok =>
      split at hv
      · cases hv
      · rw [hok, hv]
  rw [checkType] at htype
  split at htype
  · cases htype
  split at htype
  · split at htype
    · cases htype
    · next hrange => exact BitVec.not_lt.1 fun hlt => hrange (.inl hlt)
  · cases htype

/-- The linker's base is the kernel's for every program with a fixed address, and for a
position-independent one only if its entry point wraps around below `0x08000000`. -/
theorem progBase_eq_iff {h : Ehdr} {isPie : Bool} (hv : h.validate = .ok isPie) (rnd : Word)
    (phs : List Phdr) (interpBase : Word) :
    progBase (h.auxv phs (elfBase isPie rnd) interpBase) = some (elfBase isPie rnd) ↔
      isPie = false ∨ h.eEntry + elfBase isPie rnd ≠ 0 ∧
        h.eEntry + elfBase isPie rnd < 0x08000000 ∧ Ehdr.linkBase phs + h.ePhoff = 0x34 := by
  rw [Ehdr.auxv, progBase_auxvPairs]
  cases isPie with
  | false =>
    have hentry := Ehdr.userCodeBase_le_of_validate hv
    have hadd : h.eEntry + elfBase false rnd = h.eEntry := BitVec.add_zero _
    rw [hadd, if_neg, if_neg]
    · exact iff_of_true rfl (.inl rfl)
    · exact BitVec.not_lt.2 (BitVec.le_trans (by decide) hentry)
    · intro h0
      rw [h0] at hentry
      exact absurd hentry (by decide)
  | true =>
    rw [or_iff_right (show ¬ true = false by decide)]
    have hbase : elfBase true rnd ≠ 0 := generatePieBase_ne_zero rnd
    generalize elfBase true rnd = b at hbase
    by_cases h0 : h.eEntry + b = 0
    · rw [if_pos h0]
      exact iff_of_false nofun fun hc => hc.1 h0
    rw [if_neg h0, Option.some.injEq]
    by_cases hlow : h.eEntry + b < 0x08000000
    · rw [if_pos hlow]
      have hcancel : Ehdr.linkBase phs + b + h.ePhoff - 0x34 = b ↔
          Ehdr.linkBase phs + h.ePhoff = 0x34 := by
        constructor <;> intro he <;> bv_omega
      rw [hcancel]
      exact ⟨fun hc => ⟨h0, hlow, hc⟩, fun hc => hc.2.2⟩
    · rw [if_neg hlow]
      exact iff_of_false (fun hb => hbase hb.symm) fun hc => hlow hc.2.1

namespace Vm

variable {S : Vm} {d : Frame} {a : ExecArgs}

/-- What the dynamic linker computes on a stack that the kernel has written. -/
theorem linkerBase_iff (hinv : Mm.Inv (· ≤ ·) S.mm Mm.noneHeld) (hd : d ∈ S.mm.dirs) {h : Ehdr}
    {isPie : Bool} (hv : h.validate = .ok isPie) (rnd : Word) (phs : List Phdr) (interpBase : Word)
    (haux : a.auxv = some ((h.auxv phs (elfBase isPie rnd) interpBase).flatMap fun p => [p.1, p.2]))
    (hstr : ∀ s ∈ a.argv ++ a.envp, 0 ∉ s) (hok : ¬ (S.setupExecUserStack d a).2 < 0)
    {fuel : Nat} (hfuel : maxExecEnvs < fuel) :
    ((startC ((S.setupExecUserStack d a).1.mm.userByte d) maxArgLen fuel a.esp).bind
        fun x => progBase x.auxv) = some (elfBase isPie rnd) ↔
      isPie = false ∨ h.eEntry + elfBase isPie rnd ≠ 0 ∧
        h.eEntry + elfBase isPie rnd < 0x08000000 ∧ Ehdr.linkBase phs + h.ePhoff = 0x34 := by
  rw [(startC_setupExecUserStack hinv hd haux hstr hok hfuel).1]
  exact progBase_eq_iff hv rnd phs interpBase

/-- The arguments of a program without a command line, with its auxiliary vector. -/
def bareArgs (pairs : List (Word × Word)) (hlen : pairs.length = 7) : ExecArgs where
  argv := []
  envp := []
  auxv := some (pairs.flatMap fun p => [p.1, p.2])
  argc_le := by decide
  envc_le := by decide
  short := by decide
  auxv_length := by
    rintro x ⟨⟩
    simp [List.length_flatMap, hlen]

/-- A header of 52 bytes with one program header behind it. -/
def oneHeader (type : BitVec 16) (entry : Word) : Ehdr where
  eIdent := [0x7F, 0x45, 0x4C, 0x46, 1, 1, 1, 0, 0, 0, 0, 0, 0, 0, 0, 0]
  eType := type
  eMachine := 3
  eEntry := entry
  ePhoff := 0x34
  ePhentsize := 32
  ePhnum := 1
  eShnum := 0

/-- A program linked to `USER_CODE_BASE`. -/
theorem linkerBase_fixed :
    let h := oneHeader etExec 0x08048100
    let a := bareArgs (h.auxv [⟨ptLoad, 0, userCodeBase, 0, 4096, 0⟩] 0 userHeapBase) rfl
    h.validate = .ok false ∧ (firstVm.setupExecUserStack 2816 a).2 = 0 ∧
      ((startC ((firstVm.setupExecUserStack 2816 a).1.mm.userByte 2816) maxArgLen 33 a.esp).bind
        fun x => progBase x.auxv) = some (elfBase false 0) := by
  have hv : (oneHeader etExec 0x08048100).validate = .ok false := by decide
  have hok := firstVm_setupExecUserStack (a := bareArgs ((oneHeader etExec 0x08048100).auxv
    [⟨ptLoad, 0, userCodeBase, 0, 4096, 0⟩] 0 userHeapBase) rfl) rfl (by decide)
  refine ⟨hv, hok, (linkerBase_iff firstVm_inv.1 firstVm_inv.2 hv 0 _ _ rfl (by decide)
    (by rw [hok]; decide) (by decide)).2 (.inl rfl)⟩

/-- A position-independent program at the lowest base: it is loaded, and the linker takes
it to be at 0. -/
theorem linkerBase_pie_zero :
    let h := oneHeader etDyn 0x1000
    let phs : List Phdr := [⟨ptLoad, 0, 0, 0, 4096, 0⟩]
    let a := bareArgs (h.auxv phs (elfBase true 0) userHeapBase) rfl
    h.validate = .ok true ∧ elfBase true 0 = 0x10000000 ∧
      (firstVm.loadElfProcess 0 2816
        ⟨0, .readable [] phs 0x1000, elfBase true 0,
          some (0, 0, .readable [] phs 0x1000)⟩).2 = 0 ∧
      (firstVm.setupExecUserStack 2816 a).2 = 0 ∧
      ((startC ((firstVm.setupExecUserStack 2816 a).1.mm.userByte 2816) maxArgLen 33 a.esp).bind
        fun x => progBase x.auxv) = some 0 := by
  have hok := firstVm_setupExecUserStack (a := bareArgs ((oneHeader etDyn 0x1000).auxv
    [⟨ptLoad, 0, 0, 0, 4096, 0⟩] (elfBase true 0) userHeapBase) rfl) rfl (by decide)
  refine ⟨by decide, by decide,
    (firstVm_loads _ _ _ (by decide) (by decide) (by decide) (by decide)).2, hok, ?_⟩
  rw [(startC_setupExecUserStack firstVm_inv.1 firstVm_inv.2 rfl (by decide)
    (by rw [hok]; decide) (by decide)).1]
  rfl

end Vm

end UnixOs
