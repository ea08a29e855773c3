import Xv6.Sys.File

/-!
# `Sys.Exec` — replacing a process's program (`kernel/exec.c`)

`exec` reads the program through the inode layer and builds the new image through the operations of
`kernel/vm.c`. Those are a parameter, `Uvm`, over a state of their own: what `exec` does to the file system is
the same whatever memory answers, and a model of page tables is one instance.

An `Option` result stands for the jump to `bad` where it is `none`.
-/

namespace Xv6

open Bytes Hoare

@[simp] abbrev PGSIZE : Nat := 4096
@[simp] abbrev MAXARG : Nat := 32
@[simp] abbrev ELF_MAGIC : Nat := 0x464C457F
@[simp] abbrev ELF_PROG_LOAD : Nat := 1

/-! ## What `exec` uses of the memory code -/

/-- The panics of the memory code; at a page fault in the kernel, what is printed before it. -/
inductive VmPanic where
  | kfree
  | remap
  | freevm
  | addrAligned
  | addressExists
  | switchuvm
  | pteExists
  | notPresent
  | pageFault
  deriving DecidableEq

def VmPanic.msg : VmPanic → String
  | .kfree => "kfree"
  | .remap => "remap"
  | .freevm => "freevm: no pgdir"
  | .addrAligned => "loaduvm: addr must be page aligned"
  | .addressExists => "loaduvm: address should exist"
  | .switchuvm => "switchuvm: no pgdir"
  | .pteExists => "copyuvm: pte should exist"
  | .notPresent => "copyuvm: page not present"
  | .pageFault => "unexpected trap 14"

/-- Operations on page tables, over a state `V`; a page directory is named by its address. -/
structure Uvm (V : Type) where
  /-- A page table with the kernel part only; `none` when out of memory. -/
  setupkvm : Prog V VmPanic (Option Nat)
  /-- Grow the user part from `oldsz` to `newsz`; 0 on error. -/
  allocuvm : (pgdir oldsz newsz : Nat) → Prog V VmPanic Nat
  /-- `PTE_ADDR(*walkpgdir(pgdir, va, 0))`; `none` where `walkpgdir` returns 0. -/
  walkpgdir : (pgdir va : Nat) → Prog V VmPanic (Option Nat)
  /-- The stores of a `readi` to address `pa`. -/
  store : (pa : Nat) → (bytes : List UInt8) → Prog V VmPanic Unit
  /-- Copy bytes to user address `va` of `pgdir`. -/
  copyout : (pgdir va : Nat) → (bytes : List UInt8) → Prog V VmPanic Int
  /-- `proc->pgdir = pgdir; switchuvm(proc)`, returning the old page table. -/
  swap : Pid → (pgdir : Nat) → Prog V VmPanic Nat
  freevm : (pgdir : Nat) → Prog V VmPanic Unit

/-- Code that uses both. -/
abbrev ExecM (V : Type) := Prog (Kern × V) Stop

variable {V : Type}

def onKern {α : Type} (m : KM α) : ExecM V α := zoom Prod.fst (fun k s => (k, s.2)) m

def onVm {α : Type} (m : Prog V VmPanic α) : ExecM V α :=
  zoomMap Prod.snd (fun v s => (s.1, v)) (fun e => .panic e.msg) m

/-! ## The file's headers -/

/-- The fields of `struct elfhdr` that `exec` uses, 52 bytes in all. -/
structure ElfHdr where
  magic : Nat
  entry : Nat
  phoff : Nat
  phnum : Nat

def elfHdr (d : Arr) : ElfHdr := ⟨u32 d 0, u32 d 24, u32 d 28, u16 d 44⟩

/-- The fields of `struct proghdr` that `exec` uses, 32 bytes in all. -/
structure ProgHdr where
  type : Nat
  offset : Nat
  va : Nat
  filesz : Nat
  memsz : Nat

def progHdr (d : Arr) : ProgHdr := ⟨u32 d 0, u32 d 4, u32 d 8, u32 d 16, u32 d 20⟩

/-- `PGROUNDUP` on a `uint`. -/
def pgRoundUp (sz : Nat) : Nat := (sz + (PGSIZE - 1)) % 4294967296 / PGSIZE * PGSIZE

/-! ## Loading -/

/-- The loop of `loaduvm` from byte `i` of the segment. When `sz` is above the last page boundary the counter
    wraps around and the loop starts over: it never ends. -/
def loadPages (mem : Uvm V) (pgdir addr : Nat) (ip : Slot) (offset sz : Nat) : Nat → Nat → ExecM V Bool
  | 0, i => if i % 4294967296 < sz then throw .sleep else return true
  | fuel + 1, i => do
    if i < sz then
      match ← onVm (mem.walkpgdir pgdir ((addr + i) % 4294967296)) with
      | none => throw (.panic VmPanic.addressExists.msg)
      | some pa =>
        let n := if sz - i < PGSIZE then sz - i else PGSIZE
        let (r, bytes) ← onKern (onFs (readi ip .kernel ((offset + i) % 4294967296) n))
        onVm (mem.store pa bytes)
        if toUint r ≠ n then return false
        else loadPages mem pgdir addr ip offset sz fuel (i + PGSIZE)
    else return true

/-- Load a program segment into `pgdir`; `false` on a short read. -/
def loaduvm (mem : Uvm V) (pgdir addr : Nat) (ip : Slot) (offset sz : Nat) : ExecM V Bool := do
  if addr % PGSIZE ≠ 0 then throw (.panic VmPanic.addrAligned.msg)
  else loadPages mem pgdir addr ip offset sz ((sz + PGSIZE - 1) / PGSIZE) 0

/-- The loop of `exec` over the program headers still to read, at file offset `off`, with `sz` allocated. -/
def loadSegs (mem : Uvm V) (pgdir : Nat) (ip : Slot) : Nat → Nat → Nat → ExecM V (Option Nat)
  | 0, _, sz => return some sz
  | left + 1, off, sz => do
    let (r, bytes) ← onKern (onFs (readi ip .kernel off 32))
    let ph := progHdr (localBytes bytes)
    if toUint r ≠ 32 then return none
    else if ph.type ≠ ELF_PROG_LOAD then loadSegs mem pgdir ip left ((off + 32) % 4294967296) sz
    else if ph.memsz < ph.filesz then return none
    else
      let sz ← onVm (mem.allocuvm pgdir sz ((ph.va + ph.memsz) % 4294967296))
      if sz = 0 then return none
      else if ← loaduvm mem pgdir ph.va ip ph.offset ph.filesz then
        loadSegs mem pgdir ip left ((off + 32) % 4294967296) sz
      else return none

/-! ## The stack -/

/-- The loop over the arguments: the stack pointer and the addresses of the strings pushed. -/
def pushArgs (mem : Uvm V) (pgdir : Nat) : List (List UInt8) → Nat → List Nat → ExecM V (Option (Nat × List Nat))
  | [], sp, ustack => return some (sp, ustack)
  | arg :: argv, sp, ustack => do
    if MAXARG ≤ ustack.length then return none
    else
      let sp := usub sp (arg.length + 1) / 4 * 4
      if (← onVm (mem.copyout pgdir sp (arg ++ [0]))) < 0 then return none
      else pushArgs mem pgdir argv sp (ustack ++ [sp])

/-- `ustack`, as it is copied out: a fake return address, `argc`, `argv`, the pointers and a null. -/
def ustackBytes (sp : Nat) (ustack : List Nat) : List UInt8 :=
  ([4294967295, ustack.length, usub sp ((ustack.length + 1) * 4)] ++ ustack ++ [0]).flatMap fun w =>
    [byteOf w 0, byteOf w 1, byteOf w 2, byteOf w 3]

/-- The label `bad`. -/
def execBad (mem : Uvm V) (pgdir : Option Nat) (ip : Option Slot) : ExecM V Int := do
  match pgdir with
  | some d => onVm (mem.freevm d)
  | none => pure ()
  match ip with
  | some ip => onKern (onFs (iunlockput ip))
  | none => pure ()
  return -1

/-- The loop over `path`: what comes after its last slash. -/
def baseName (path : List UInt8) : List UInt8 := path.foldl (fun last c => if c = slash then [] else last ++ [c]) []

/-- Save the program's name and commit to the user image. -/
def execCommit (mem : Uvm V) (p : Pid) (path : List UInt8) (entry pgdir sz sp : Nat) : ExecM V Int := do
  onKern (modProc p fun x => { x with sz := sz, esp := sp, eip := entry, name := safestrcpy (baseName path) 16 })
  let oldpgdir ← onVm (mem.swap p pgdir)
  onVm (mem.freevm oldpgdir)
  return 0

/-- Push the argument strings, then the rest of the stack. -/
def execArgs (mem : Uvm V) (p : Pid) (path : List UInt8) (entry pgdir sz : Nat) (argv : List (List UInt8)) :
    ExecM V Int := do
  match ← pushArgs mem pgdir argv sz [] with
  | none => execBad mem (some pgdir) none
  | some (sp, ustack) =>
    let sp' := usub sp ((3 + ustack.length + 1) * 4)
    if (← onVm (mem.copyout pgdir sp' (ustackBytes sp ustack))) < 0 then execBad mem (some pgdir) none
    else execCommit mem p path entry pgdir sz sp'

/-- The part of `exec` after the program is loaded and its inode put. -/
def execStack (mem : Uvm V) (p : Pid) (path : List UInt8) (entry pgdir sz : Nat) (argv : List (List UInt8)) :
    ExecM V Int := do
  -- a one-page stack at the next page boundary
  let top ← onVm (mem.allocuvm pgdir (pgRoundUp sz) ((pgRoundUp sz + PGSIZE) % 4294967296))
  if top = 0 then execBad mem (some pgdir) none
  else execArgs mem p path entry pgdir top argv

/-- `exec(path, argv)` by process `p`; `stack` is what the local variable `elf` holds before it is read. -/
def sysExec (mem : Uvm V) (stack : Arr) (p : Pid) (path : List UInt8) (argv : List (List UInt8)) :
    ExecM V Int := do
  let cwd ← onKern (curdir p)
  match ← onKern (onFs (namei cwd path)) with
  | none => return -1
  | some ip =>
    onKern (onFs (ilock ip))
    let (r, bytes) ← onKern (onFs (readi ip .kernel 0 52))
    let elf := elfHdr fun i => bytes.getD i (stack i)
    -- the comparison with `sizeof` is unsigned, so a failed `readi` passes it
    if toUint r < 52 then execBad mem none (some ip)
    else if elf.magic ≠ ELF_MAGIC then execBad mem none (some ip)
    else
      match ← onVm mem.setupkvm with
      | none => execBad mem none (some ip)
      | some pgdir =>
        match ← loadSegs mem pgdir ip elf.phnum elf.phoff 0 with
        | none => execBad mem (some pgdir) (some ip)
        | some sz =>
          onKern (onFs (iunlockput ip))
          execStack mem p path elf.entry pgdir sz argv

end Xv6
