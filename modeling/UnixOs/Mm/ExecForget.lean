import UnixOs.Mm.ProgBase

/-!
# What a process keeps of its old program (exec.c, elf_loader.c)

`sys_execve` makes a new memory, but the loader writes into the record of the live process,
and `setup_exec_user_stack` reads the record. `load_elf_process` stores the fields of the
interpreter only if the program has one. So a program without one starts with those of the
program before (`sysExecve_forgets_iff`).
-/

namespace UnixOs

/-- `process_context_t` (process.h:38). `general` are `eax`, `ebx`, `ecx`, `edx`, `esi`, `edi`
and `eflags`, which no part of `sys_execve` stores to. -/
structure ProcessContext where
  general : List Word
  (ebp esp eip : Word)
  (cs ds es fs gs ss : BitVec 16)

/-- The fields of `process_t` that tell of the program. -/
structure ExecProc where
  context : ProcessContext
  (elfEntry elfPhdr elfPhnum interpBase userStackBase : Word)

/-- The program: its headers, its base, and `e_entry` of its interpreter, if it has one. -/
structure ExecImage where
  ehdr : Ehdr
  phdrs : List Phdr
  base : Word
  interp : Option Word

namespace ExecProc

variable (p : ExecProc) (x : ExecImage) (a : ExecArgs)

/-- `elf_setup_context` (elf_loader.c:256). -/
def elfSetupContext (entry : Word) : ExecProc :=
  { p with context := { p.context with
      eip := entry, cs := 0x1B, ds := 0x23, es := 0x23, fs := 0x23, gs := 0x23, ss := 0x23
      esp := p.userStackBase - 4 } }

/-- What a successful `load_elf_process` (elf_loader.c:299) stores; the interpreter goes to
`mmap_next_addr` of the new memory. -/
def loadElfProcess : ExecProc :=
  match x.interp with
  | none => p.elfSetupContext (x.ehdr.eEntry + x.base)
  | some entry =>
    let interpBase := Vm.newProcMem.mmapNext
    ({ p with
      elfEntry := x.ehdr.eEntry + x.base
      elfPhdr := Ehdr.linkBase x.phdrs + x.base + x.ehdr.ePhoff
      elfPhnum := x.ehdr.ePhnum.setWidth 32
      interpBase } : ExecProc).elfSetupContext (entry + interpBase)

/-- The auxiliary vector of `setup_exec_user_stack` (exec.c:110). -/
def auxv : Option (List Word) :=
  if p.interpBase = 0 then none
  else some ((auxvPairs p.elfPhdr p.elfPhnum p.interpBase p.elfEntry).flatMap fun w => [w.1, w.2])

/-- The arguments with the auxiliary vector of the process. -/
def args : ExecArgs :=
  { a with
    auxv := p.auxv
    auxv_length := fun ws hws => by
      rw [auxv] at hws
      split at hws
      · cases hws
      · obtain rfl := Option.some.inj hws
        rfl }

/-- A `sys_execve` (exec.c:220) that succeeds: the registers, what is written to the new
stack, and the auxiliary vector. -/
def sysExecve (stackBase : Word) :
    ProcessContext × List (Word × List (BitVec 8)) × Option (List Word) :=
  let p := { p.loadElfProcess x with userStackBase := stackBase }
  let b := p.args a
  ({ p.context with esp := b.esp, ebp := b.esp }, b.stackWrites, b.auxv)

variable {p q : ExecProc} {x : ExecImage}

/-! ## The memory of the program

The record agrees with what `Vm.loadElfProcess` and `Vm.setupExecUserStack` do to the new
memory. -/

section

variable {S : Vm} {c : Nat} {d : Frame} {inp : ElfInput} {pathRc openRc : Int} {img : ElfFile}

/-- The program starts at the entry point of its interpreter, in the memory into which the
interpreter has been loaded at `interp_base`. -/
theorem eip_loadElfProcess (hnew : S.proc d = Vm.newProcMem)
    (hinterp : inp.interp = some (pathRc, openRc, img)) (hx : x.interp = some img.entry)
    (hload : 0 ≤ (S.loadElfProcess c d inp).2) :
    (p.loadElfProcess x).context.eip = img.entry + (p.loadElfProcess x).interpBase ∧
      ∃ m, (S.loadElfProcess c d inp).1.mm = (Mm.elfLoadSegments c d img.file
        (p.loadElfProcess x).interpBase m img.phdrs 0).1 := by
  have hbase : (p.loadElfProcess x).interpBase = Vm.newProcMem.mmapNext := by
    rw [loadElfProcess, hx]
    rfl
  rw [hbase]
  refine ⟨by rw [loadElfProcess, hx]; rfl, ?_⟩
  obtain ⟨-, S2, -, hnext, heq⟩ := Vm.loadElfProcess_ok (not_lt.2 hload)
  rw [heq, hinterp] at hload ⊢
  rw [(Vm.loadInterpreter_ok (not_lt.2 hload)).1, hnext, hnew]
  exact ⟨S2.mm, rfl⟩

theorem sysExecve_stack (stackBase : Word) :
    (S.setupExecUserStack d (({ p.loadElfProcess x with userStackBase := stackBase } :
      ExecProc).args a)).1.mm = (Mm.writeStack d S.mm (p.sysExecve x a stackBase).2.1).1 := rfl

end

/-! ## What is left of the old program -/

theorem args_congr (h : p.auxv = q.auxv) : p.args a = q.args a := by
  unfold args
  congr 1

/-- The registers do not depend on the old program, so all depends on the record that the
loader leaves. -/
theorem sysExecve_eq_iff (h : p.context.general = q.context.general) (stackBase : Word) :
    p.sysExecve x a stackBase = q.sysExecve x a stackBase ↔
      (p.loadElfProcess x).auxv = (q.loadElfProcess x).auxv := by
  refine ⟨fun he => congrArg (·.2.2) he, fun he => ?_⟩
  have hargs : ({ p.loadElfProcess x with userStackBase := stackBase } : ExecProc).args a
      = ({ q.loadElfProcess x with userStackBase := stackBase } : ExecProc).args a :=
    args_congr a he
  have hregs (sp : Word) : { (p.loadElfProcess x).context with esp := sp, ebp := sp }
      = { (q.loadElfProcess x).context with esp := sp, ebp := sp } := by
    obtain ⟨_, _, _, interp⟩ := x
    cases interp <;> simp [loadElfProcess, elfSetupContext, h]
  dsimp only [sysExecve]
  rw [hargs]
  exact Prod.ext (hregs _) rfl

theorem auxv_eq_iff : p.auxv = q.auxv ↔ p.interpBase = 0 ∧ q.interpBase = 0 ∨
    p.interpBase ≠ 0 ∧ p.interpBase = q.interpBase ∧ p.elfEntry = q.elfEntry ∧
      p.elfPhdr = q.elfPhdr ∧ p.elfPhnum = q.elfPhnum := by
  by_cases hp : p.interpBase = 0 <;> by_cases hq : q.interpBase = 0
  · simp [auxv, hp, hq]
  · simp [auxv, hp]
  · simp only [auxv, hp, hq, if_true, if_false]
    exact iff_of_false (fun h => by cases h) (by simp)
  · simp only [auxv, hp, hq, if_false, auxvPairs]
    grind

/-- Two processes with different programs behind them start the same one alike, exactly if
it has an interpreter, or both old programs had none, or they had the same four fields. -/
theorem sysExecve_forgets_iff (h : p.context.general = q.context.general) (stackBase : Word) :
    p.sysExecve x a stackBase = q.sysExecve x a stackBase ↔
      x.interp.isSome ∨ p.interpBase = 0 ∧ q.interpBase = 0 ∨
        p.interpBase ≠ 0 ∧ p.interpBase = q.interpBase ∧ p.elfEntry = q.elfEntry ∧
          p.elfPhdr = q.elfPhdr ∧ p.elfPhnum = q.elfPhnum := by
  rw [sysExecve_eq_iff a h, ← auxv_eq_iff]
  dsimp only [loadElfProcess]
  cases x.interp with
  | none => exact ⟨.inr, fun he => he.resolve_left nofun⟩
  | some entry => exact iff_of_true rfl (.inl rfl)

/-- A program starts after one that had its interpreter at `interpBase`. -/
def startedAfter (interpBase : Word) (interp : Option Word) :=
  (ExecProc.mk ⟨[1, 2, 3, 4, 5, 6, 0x202], 0, 0, 0, 0, 0, 0, 0, 0, 0⟩ 0x08048100 0x08048034 4 interpBase 0).sysExecve
    ⟨Vm.oneHeader etExec 0x08048100, [], 0, interp⟩ Vm.shellArgs 0

/-- A program without an interpreter gets the vector of the one before. -/
theorem startedAfter_remembers :
    (startedAfter 0 none).2.2 = none ∧ (startedAfter Vm.newProcMem.mmapNext none).2.2.isSome ∧
      (startedAfter 0 none).1.esp ≠ (startedAfter Vm.newProcMem.mmapNext none).1.esp := by
  decide

theorem startedAfter_forgets :
    startedAfter 0 (some 0) = startedAfter Vm.newProcMem.mmapNext (some 0) :=
  (sysExecve_forgets_iff Vm.shellArgs rfl 0).2 (.inl rfl)

end ExecProc

end UnixOs
