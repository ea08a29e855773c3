import Xv6.Sys.Exec

/-!
# `Mm.Vm` — physical pages and page tables (`kernel/kalloc.c`, `kernel/vm.c`)

Physical memory is one byte array; the kernel's own addresses are physical ones, so a page, a page table and a
page-table entry are named by where they are. The list of free pages is a `List`, newest first; the link that
`kfree` stores in the page is stored here too, but nothing reads it back.
-/

namespace Xv6

open Bytes Hoare

@[simp] abbrev USERTOP : Nat := 0xA0000
@[simp] abbrev PHYSTOP : Nat := 0x1000000
@[simp] abbrev NPDENTRIES : Nat := 1024

@[simp] abbrev PTE_P : Nat := 1
@[simp] abbrev PTE_W : Nat := 2
@[simp] abbrev PTE_U : Nat := 4

/-- Where the linker put the kernel: `data`, the start of its data, and `end`, the first address after it. -/
structure Symbols where
  data : Nat
  kend : Nat
  /-- The kernel is linked at 1 MB. -/
  data_ge : 0x100000 ≤ data
  data_le : data ≤ kend
  kend_le : kend ≤ PHYSTOP

/-- Physical memory and `kmem.freelist`. -/
structure Phys where
  ram : Arr
  freelist : List Nat

abbrev VmM := Prog Phys VmPanic

/-! ## Pages -/

/-- What `kfree` accepts: a page boundary between the kernel and the end of memory. -/
def IsPage (K : Symbols) (v : Nat) : Prop := v % PGSIZE = 0 ∧ K.kend ≤ v ∧ v < PHYSTOP

instance (K : Symbols) (v : Nat) : Decidable (IsPage K v) := inferInstanceAs (Decidable (_ ∧ _))

/-- Free the page at `v`: filled with junk, it becomes the head of the list. -/
def kfree (K : Symbols) (v : Nat) : VmM Unit := do
  if v % PGSIZE ≠ 0 ∨ v < K.kend ∨ PHYSTOP ≤ v then throw .kfree
  else modify fun m =>
    { ram := put32 (fill m.ram v PGSIZE 1) v (m.freelist.headD 0), freelist := v :: m.freelist }

/-- Allocate one page; `none` if the memory cannot be allocated. -/
def kalloc : VmM (Option Nat) := do
  match (← get).freelist with
  | [] => return none
  | r :: next => do
    modify fun m => { m with freelist := next }
    return some r

/-- The loop of `kinit`: `n` pages from `p` on. -/
def freeRange (K : Symbols) : Nat → Nat → VmM Unit
  | 0, _ => return ()
  | n + 1, p => do
    kfree K p
    freeRange K n (p + PGSIZE)

/-- Initialize the free list: every whole page from `end` to `PHYSTOP`. -/
def kinit (K : Symbols) : VmM Unit :=
  freeRange K ((PHYSTOP - pgRoundUp K.kend) / PGSIZE) (pgRoundUp K.kend)

def memset (dst : Nat) (c : UInt8) (n : Nat) : VmM Unit := modify fun m => { m with ram := fill m.ram dst n c }

def load32 (p : Nat) : VmM Nat := return u32 (← get).ram p

def store32 (p x : Nat) : VmM Unit := modify fun m => { m with ram := put32 m.ram p x }

/-! ## Entries -/

/-- `PTE_ADDR(w)`: the page an entry names. -/
def pteAddr (w : Nat) : Nat := w / PGSIZE * PGSIZE

/-- `PDX(va)` and `PTX(va)`: the two indices in a linear address. -/
def pdx (va : Nat) : Nat := va / 4194304 % 1024

def ptx (va : Nat) : Nat := va / 4096 % 1024

/-- `PGROUNDDOWN`. -/
def pgRoundDown (a : Nat) : Nat := a / PGSIZE * PGSIZE

/-- The present bit of an entry. -/
def Present (w : Nat) : Prop := w &&& PTE_P ≠ 0

instance (w : Nat) : Decidable (Present w) := inferInstanceAs (Decidable (_ ≠ _))

/-! ## Page tables -/

/-- The address of the entry of `va` in `pgdir`; with `create`, a missing page table is allocated. -/
def walkpgdir (pgdir va : Nat) (create : Bool) : VmM (Option Nat) := do
  let pde ← load32 (pgdir + 4 * pdx va)
  if Present pde then return some (pteAddr pde + 4 * ptx va)
  else if !create then return none
  else
    match ← kalloc with
    | none => return none
    | some pgtab => do
      memset pgtab 0 PGSIZE
      store32 (pgdir + 4 * pdx va) (pgtab ||| PTE_P ||| PTE_W ||| PTE_U)
      return some (pgtab + 4 * ptx va)

/-- The loop of `mappages` at `a`, with `n` pages to map after this one; `false` for the result -1. -/
def mapFrom (pgdir perm : Nat) : Nat → Nat → Nat → VmM Bool
  | n, a, pa => do
    match ← walkpgdir pgdir a true with
    | none => return false
    | some pte =>
      if Present (← load32 pte) then throw .remap
      else do
        store32 pte (pa ||| perm ||| PTE_P)
        match n with
        | 0 => return true
        | n + 1 => mapFrom pgdir perm n ((a + PGSIZE) % 4294967296) ((pa + PGSIZE) % 4294967296)

/-- Create entries for the linear addresses from `la` on, naming the physical ones from `pa` on. The loop runs
    to the page of the last byte, whichever way around the address space that is. -/
def mappages (pgdir la size pa perm : Nat) : VmM Bool :=
  let a := pgRoundDown la
  let last := pgRoundDown (usub ((la + size) % 4294967296) 1)
  mapFrom pgdir perm (usub last a / PGSIZE) a pa

/-- The regions of `kmap`: start, end and permission. The end of the last one, 0, is the end of the address
    space. -/
def kmap (K : Symbols) : List (Nat × Nat × Nat) :=
  [(USERTOP, 0x100000, PTE_W), (0x100000, K.data, 0), (K.data, PHYSTOP, PTE_W), (0xFE000000, 0, PTE_W)]

def mapRegions (pgdir : Nat) : List (Nat × Nat × Nat) → VmM Bool
  | [] => return true
  | (p, e, perm) :: rest => do
    if ← mappages pgdir p (usub e p) p perm then mapRegions pgdir rest else return false

/-- Set up the kernel part of a page table. When a region cannot be mapped, what was allocated is not freed. -/
def setupkvm (K : Symbols) : VmM (Option Nat) := do
  match ← kalloc with
  | none => return none
  | some pgdir => do
    memset pgdir 0 PGSIZE
    if ← mapRegions pgdir (kmap K) then return some pgdir else return none

/-- The loop of `deallocuvm`: `n` pages from `a` on. -/
def freePages (K : Symbols) (pgdir : Nat) : Nat → Nat → VmM Unit
  | 0, _ => return ()
  | n + 1, a => do
    match ← walkpgdir pgdir a false with
    | none => pure ()
    | some pte => do
      let w ← load32 pte
      if Present w then
        if pteAddr w = 0 then throw .kfree
        else do
          kfree K (pteAddr w)
          store32 pte 0
      else pure ()
    freePages K pgdir n (a + PGSIZE)

/-- Deallocate user pages to bring the size from `oldsz` to `newsz`; returns the new size. No caller has `oldsz`
    above `USERTOP`, so the loop counter does not wrap. -/
def deallocuvm (K : Symbols) (pgdir oldsz newsz : Nat) : VmM Nat := do
  if oldsz ≤ newsz then return oldsz
  else do
    let a := pgRoundUp newsz
    freePages K pgdir ((oldsz - a + (PGSIZE - 1)) / PGSIZE) a
    return newsz

/-- The loop of `allocuvm`: `n` pages from `a` on. Whether a page could be entered in the table is not looked
    at. -/
def allocPages (K : Symbols) (pgdir oldsz newsz : Nat) : Nat → Nat → VmM Nat
  | 0, _ => return newsz
  | n + 1, a => do
    match ← kalloc with
    | none => do
      let _ ← deallocuvm K pgdir newsz oldsz
      return 0
    | some mem => do
      memset mem 0 PGSIZE
      let _ ← mappages pgdir a PGSIZE mem (PTE_W ||| PTE_U)
      allocPages K pgdir oldsz newsz n (a + PGSIZE)

/-- Grow the user part from `oldsz` to `newsz`; returns the new size, or 0 on error. -/
def allocuvm (K : Symbols) (pgdir oldsz newsz : Nat) : VmM Nat := do
  if USERTOP < newsz then return 0
  else if newsz < oldsz then return oldsz
  else
    let a := pgRoundUp oldsz
    allocPages K pgdir oldsz newsz ((newsz - a + (PGSIZE - 1)) / PGSIZE) a

/-- The loop of `freevm` over the directory entries: `n` of them from `i` on. -/
def freeTables (K : Symbols) (pgdir : Nat) : Nat → Nat → VmM Unit
  | 0, _ => return ()
  | n + 1, i => do
    let w ← load32 (pgdir + 4 * i)
    if Present w then kfree K (pteAddr w)
    freeTables K pgdir n (i + 1)

/-- Free a page table and all the pages of its user part. -/
def freevm (K : Symbols) (pgdir : Nat) : VmM Unit := do
  if pgdir = 0 then throw .freevm
  else do
    let _ ← deallocuvm K pgdir USERTOP 0
    freeTables K pgdir NPDENTRIES 0
    kfree K pgdir

def memmove (dst src n : Nat) : VmM Unit :=
  modify fun m => { m with ram := blit m.ram dst n fun k => m.ram (src + k) }

/-- A trip of `copyuvm` up to where the page is entered in the new table: a copy of the page of `pgdir` at `i`,
    `none` when there is no memory for it. -/
def copyPage (pgdir i : Nat) : VmM (Option Nat) := do
  match ← walkpgdir pgdir i false with
  | none => throw .pteExists
  | some pte => do
    let w ← load32 pte
    if Present w then
      match ← kalloc with
      | none => return none
      | some mem => do
        memmove mem (pteAddr w) PGSIZE
        return some mem
    else throw .notPresent

/-- The loop of `copyuvm`: `n` pages from `i` on; `false` for the jump to `bad`. -/
def copyPages (pgdir d : Nat) : Nat → Nat → VmM Bool
  | 0, _ => return true
  | n + 1, i => do
    match ← copyPage pgdir i with
    | none => return false
    | some mem => do
      if ← mappages d i PGSIZE mem (PTE_W ||| PTE_U) then copyPages pgdir d n (i + PGSIZE) else return false

/-- Given a parent process's page table, create a copy of it for a child. No caller has `sz` above `USERTOP`, so
    the loop counter does not wrap. -/
def copyuvm (K : Symbols) (pgdir sz : Nat) : VmM (Option Nat) := do
  match ← setupkvm K with
  | none => return none
  | some d => do
    if ← copyPages pgdir d ((sz + (PGSIZE - 1)) / PGSIZE) 0 then return some d
    else do
      freevm K d
      return none

/-- What the hardware makes of address `va`: the entry it uses, `none` for a page fault. -/
def translate (ram : Arr) (pgdir va : Nat) : Option Nat :=
  let pde := u32 ram (pgdir + 4 * pdx va)
  if Present pde then
    let pte := u32 ram (pteAddr pde + 4 * ptx va)
    if Present pte then some pte else none
  else none

/-! ## A process's memory -/

/-- Physical memory with the current process's `pgdir` and `sz`. -/
structure UserProc where
  phys : Phys
  pgdir : Nat
  sz : Nat

def onPhys {α : Type} (m : VmM α) : Prog UserProc VmPanic α := zoom UserProc.phys (fun v s => { s with phys := v }) m

/-- `switchuvm(proc)`: only its check has an effect here. -/
def switchuvm : Prog UserProc VmPanic Unit := do
  if (← get).pgdir = 0 then throw .switchuvm else return ()

/-- `sz + n` on a `uint`. -/
def addInt (sz : Nat) (n : Int) : Nat := ((sz + n) % 4294967296).toNat

/-- Grow the current process's memory by `n` bytes: 0 on success, -1 on failure. -/
def growproc (K : Symbols) (n : Int) : Prog UserProc VmPanic Int := do
  let p ← get
  let sz ←
    if 0 < n then onPhys (allocuvm K p.pgdir p.sz (addInt p.sz n))
    else if n < 0 then onPhys (deallocuvm K p.pgdir p.sz (addInt p.sz n))
    else pure p.sz
  -- with `n` zero the size is not looked at
  if n ≠ 0 ∧ sz = 0 then return -1
  else do
    modify fun p => { p with sz := sz }
    switchuvm
    return 0

/-! ## Memory as `exec` sees it -/

/-- Physical memory, the page tables of the processes, and the user addresses that `copyout` has stored to, oldest
    first; nothing reads the last. -/
structure Mem where
  phys : Phys
  pgdir : Pid → Nat
  stored : List Nat

abbrev MemM := Prog Mem VmPanic

def onMem {α : Type} (m : VmM α) : MemM α := zoom Mem.phys (fun v s => { s with phys := v }) m

/-- What the kernel reaches with pointer `a` while page table `cur` is loaded: above the user part the mappings are
    one-to-one, below it is the running process's memory. -/
def kernelAddr (ram : Arr) (cur a : Nat) : Option Nat :=
  if a < USERTOP then (translate ram cur a).map fun w => pteAddr w + a % PGSIZE
  else if a < PHYSTOP ∨ 0xFE000000 ≤ a then some a
  else none

/-- The bytes of `buf` stored from `a` on. -/
def withBytes (ram : Arr) (a : Nat) (buf : List UInt8) : Arr := blit ram a buf.length fun k => buf.getD k 0

/-- A store of `buf`, within a page, with pointer `a`. -/
def kernelStore (cur a : Nat) (buf : List UInt8) : VmM Unit := do
  if buf = [] then return ()
  else
    match kernelAddr (← get).ram cur a with
    | none => throw .pageFault
    | some pa => modify fun m => { m with ram := withBytes m.ram pa buf }

/-- Map user virtual address to kernel physical address; 0 for an address that is not the user's. Where there is no
    page table, the entry looked at is what the running process has at address 0. -/
def uva2ka (cur pgdir uva : Nat) : VmM Nat := do
  let pte ← walkpgdir pgdir uva false
  let m ← get
  match pte.or (kernelAddr m.ram cur 0) with
  | none => throw .pageFault
  | some a => do
    let w ← load32 a
    if ¬ Present w then return 0
    else if w &&& PTE_U = 0 then return 0
    else return pteAddr w

/-- The loop of `copyout`, with `buf` still to copy to `va`. The bytes go straight to the frame: `memmove` stores them
    through the loaded page table, where every page that `kalloc` hands out is mapped to itself. The source is taken by
    value, so it must not overlap what is written. -/
def copyoutFrom (cur pgdir : Nat) : Nat → Nat → List UInt8 → MemM Int
  | 0, _, _ => return 0
  | fuel + 1, va, buf => do
    if buf = [] then return 0
    else
      let va0 := pgRoundDown va
      let pa0 ← onMem (uva2ka cur pgdir va0)
      if pa0 = 0 then return -1
      else
        let n := min (PGSIZE - (va - va0)) buf.length
        modify fun s =>
          { s with
            phys := { s.phys with ram := withBytes s.phys.ram (pa0 + (va - va0)) (buf.take n) }
            stored := s.stored ++ (List.range n).map (va + ·) }
        copyoutFrom cur pgdir fuel ((va0 + PGSIZE) % 4294967296) (buf.drop n)

/-- Copy `buf` to user address `va` in page table `pgdir`; each trip copies at least a byte. -/
def copyout (cur pgdir va : Nat) (buf : List UInt8) : MemM Int := copyoutFrom cur pgdir buf.length va buf

/-- **The memory that `exec` by process `p` runs on.** -/
def uvm (K : Symbols) (p : Pid) : Uvm Mem where
  setupkvm := onMem (setupkvm K)
  allocuvm pgdir oldsz newsz := onMem (allocuvm K pgdir oldsz newsz)
  walkpgdir pgdir va := onMem do
    match ← walkpgdir pgdir va false with
    | none => return none
    | some pte => return some (pteAddr (← load32 pte))
  store pa buf := do
    let s ← get
    onMem (kernelStore (s.pgdir p) pa buf)
  copyout pgdir va buf := do
    let s ← get
    copyout (s.pgdir p) pgdir va buf
  swap q pgdir := do
    let s ← get
    modify fun s => { s with pgdir := Function.update s.pgdir q pgdir }
    if pgdir = 0 then throw .switchuvm else return s.pgdir q
  freevm pgdir := onMem (freevm K pgdir)

end Xv6
