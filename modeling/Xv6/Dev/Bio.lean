import Xv6.Lib.Machine
import Mathlib.Data.List.FinRange
import Mathlib.Logic.Function.Basic

/-!
# `Dev.Bio` — the buffer cache and the disk queue (`kernel/bio.c`, `kernel/ide.c`)

Any number of processes call `bread`, `bwrite` and `brelse`. A step is a section of code under `bcache.lock` or
`idelock`, a line of code between them, or an interrupt: the disk has completed the command at the head of
`idequeue`. A process that sleeps in `bget` or `iderw` may try again at any time, since both loop around `sleep`
and test again.

The disk knows two drives and 28 bits of sector number: that is all `idestart` tells it.
-/

namespace Xv6

open Machine

/-! ## The state -/

@[simp] abbrev NBUF : Nat := 10

/-- A buffer of `bcache.buf`. -/
abbrev BufId := Fin NBUF

instance lawfulBufId : LawfulBEq BufId := inferInstance

/-- A drive and a sector on it. -/
abbrev DiskAddr := UInt32 × UInt32

/-- Whether `iderw` was called by `bread` or by `bwrite`. -/
inductive RwKind where
  | read
  | write
  deriving DecidableEq

/-- Where a process is. -/
inductive BufPc where
  | idle
  /-- In `bget`, before the loop. -/
  | getting (dev sector : UInt32)
  /-- In `bread`, `bget` has returned. -/
  | got (b : BufId)
  /-- About to call `iderw`. -/
  | calling (b : BufId) (k : RwKind)
  /-- In the loop of `iderw`. -/
  | waiting (b : BufId) (k : RwKind)
  deriving DecidableEq

/-- What `idestart` tells the disk: the address, and the bytes to write if it is to write. -/
structure IdeCmd (D : Type) where
  addr : DiskAddr
  data : Option D

/-- What the history of a run records: which bytes `bread` and `bwrite` returned with. -/
inductive BufLog (D : Type) where
  | bread (dev sector : UInt32) (data : D)
  | bwrite (dev sector : UInt32) (data : D)
  deriving DecidableEq

/-- The cache, the disk and the processes; `D` is what a sector holds. `held p` are the buffers that `p` got and has
    not released. The last two fields are history: whether the holder changed the data since the last `bread` or
    `bwrite`, and what calls returned, latest first. -/
structure BufSys (P D : Type) where
  busy : BufId → Bool
  valid : BufId → Bool
  dirty : BufId → Bool
  dev : BufId → UInt32
  sector : BufId → UInt32
  data : BufId → D
  lru : List BufId
  idequeue : List BufId
  cmd : Option (IdeCmd D)
  disk : DiskAddr → D
  pc : P → BufPc
  held : P → List BufId
  changed : BufId → Bool
  log : List (BufLog D)

namespace BufSys

variable {P D : Type} [DecidableEq P]

/-! ## Sections -/

/-- The part of the address that `idestart` sends. -/
def diskAddr (dev sector : UInt32) : DiskAddr := (dev &&& 1, sector &&& 0x0fffffff)

/-- `idestart(b)`. -/
def idestart (s : BufSys P D) (b : BufId) : IdeCmd D where
  addr := diskAddr (s.dev b) (s.sector b)
  data := if s.dirty b then some (s.data b) else none

/-- `bget` by process `p`: one round of its loop. A process that has to sleep stays where it is. -/
def bget (s : BufSys P D) (p : P) (dev sector : UInt32) : Option (BufSys P D) :=
  match s.lru.find? fun b => s.dev b = dev ∧ s.sector b = sector with
  | some b =>
    if s.busy b then some s
    else some
      { s with
        busy := Function.update s.busy b true
        held := Function.update s.held p (b :: s.held p)
        pc := Function.update s.pc p (.got b) }
  | none =>
    match s.lru.reverse.find? fun b => s.busy b = false with
    | some b => some
      { s with
        dev := Function.update s.dev b dev
        sector := Function.update s.sector b sector
        busy := Function.update s.busy b true
        valid := Function.update s.valid b false
        dirty := Function.update s.dirty b false
        held := Function.update s.held p (b :: s.held p)
        pc := Function.update s.pc p (.got b) }
    -- `panic("bget: no buffers")`
    | none => none

/-- `iderw(b)` up to its loop; `none` is a panic. -/
def iderw (s : BufSys P D) (havedisk1 : Bool) (p : P) (b : BufId) (k : RwKind) : Option (BufSys P D) :=
  if s.busy b = false then none
  else if s.valid b = true ∧ s.dirty b = false then none
  else if s.dev b ≠ 0 ∧ havedisk1 = false then none
  else some
    { s with
      idequeue := s.idequeue ++ [b]
      cmd := if s.idequeue = [] then some (s.idestart b) else s.cmd
      pc := Function.update s.pc p (.waiting b k) }

/-- A call that returns with buffer `b`. -/
def ret (s : BufSys P D) (p : P) (b : BufId) (k : RwKind) : BufSys P D :=
  { s with
    pc := Function.update s.pc p .idle
    log := (match k with
      | .read => .bread (s.dev b) (s.sector b) (s.data b)
      | .write => .bwrite (s.dev b) (s.sector b) (s.data b)) :: s.log }

/-- The disk completes the command `c`, and `ideintr` takes the buffer `b` off the queue. -/
def ideintr (s : BufSys P D) (c : IdeCmd D) (b : BufId) (rest : List BufId) : BufSys P D :=
  let disk := match c.data with
    | some d => Function.update s.disk c.addr d
    | none => s.disk
  let s := { s with
    disk := disk
    idequeue := rest
    data := if s.dirty b then s.data else Function.update s.data b (disk c.addr)
    valid := Function.update s.valid b true
    dirty := Function.update s.dirty b false }
  { s with cmd := rest.head?.map s.idestart }

/-- `brelse(b)`. -/
def brelse (s : BufSys P D) (p : P) (b : BufId) : BufSys P D :=
  { s with
    lru := b :: s.lru.erase b
    busy := Function.update s.busy b false
    held := Function.update s.held p ((s.held p).erase b) }

end BufSys

/-- What happens next, and who does it. -/
inductive BufEvent (P D : Type) where
  | bread (p : P) (dev sector : UInt32)
  | bget (p : P)
  | check (p : P)
  | bwrite (p : P) (b : BufId)
  | iderw (p : P)
  | wait (p : P)
  | modify (p : P) (b : BufId) (d : D)
  | brelse (p : P) (b : BufId)
  | intr

variable {P D : Type} [DecidableEq P]

/-- One step of the machine. A process uses only buffers that it holds and that a call has returned to it. -/
def bufStep (havedisk1 : Bool) (s : BufSys P D) : BufEvent P D → Option (BufSys P D)
  | .bread p dev sector =>
    if s.pc p = .idle then some { s with pc := Function.update s.pc p (.getting dev sector) } else none
  | .bget p =>
    match s.pc p with
    | .getting dev sector => s.bget p dev sector
    | _ => none
  -- `if(!(b->flags & B_VALID)) iderw(b); return b;`
  | .check p =>
    match s.pc p with
    | .got b =>
      if s.valid b then some (s.ret p b .read)
      else some { s with pc := Function.update s.pc p (.calling b .read) }
    | _ => none
  | .bwrite p b =>
    if s.pc p = .idle ∧ b ∈ s.held p ∧ s.busy b = true then some
      { s with
        dirty := Function.update s.dirty b true
        changed := Function.update s.changed b false
        pc := Function.update s.pc p (.calling b .write) }
    else none
  | .iderw p =>
    match s.pc p with
    | .calling b k => s.iderw havedisk1 p b k
    | _ => none
  -- `while((b->flags & (B_VALID|B_DIRTY)) != B_VALID) sleep(b, &idelock);`
  | .wait p =>
    match s.pc p with
    | .waiting b k => if s.valid b = true ∧ s.dirty b = false then some (s.ret p b k) else some s
    | _ => none
  | .modify p b d =>
    if s.pc p = .idle ∧ b ∈ s.held p then some
      { s with data := Function.update s.data b d, changed := Function.update s.changed b true }
    else none
  | .brelse p b =>
    if s.pc p = .idle ∧ b ∈ s.held p ∧ s.busy b = true then some (s.brelse p b) else none
  | .intr =>
    match s.cmd, s.idequeue with
    | some c, b :: rest => some (s.ideintr c b rest)
    | _, _ => none

/-- After `binit`, with the disk `disk₀`; the buffers hold `d₀`. -/
def BufSys.init (disk₀ : DiskAddr → D) (d₀ : D) : BufSys P D where
  busy _ := false
  valid _ := false
  dirty _ := false
  dev _ := 0xffffffff
  sector _ := 0
  data _ := d₀
  lru := (List.finRange NBUF).reverse
  idequeue := []
  cmd := none
  disk := disk₀
  pc _ := .idle
  held _ := []
  changed _ := false
  log := []

/-! ## What a step can do -/

/-- **What a step can do** on event `e`. -/
inductive BufMove (e : BufEvent P D) (s : BufSys P D) : BufSys P D → Prop
  | bread (p : P) (dev sector : UInt32) (he : e = .bread p dev sector) (hp : s.pc p = .idle) :
    BufMove e s { s with pc := Function.update s.pc p (.getting dev sector) }
  | hit (p : P) (b : BufId) (hp : s.pc p = .getting (s.dev b) (s.sector b)) (hb : s.busy b = false) :
    BufMove e s
      { s with
        busy := Function.update s.busy b true
        held := Function.update s.held p (b :: s.held p)
        pc := Function.update s.pc p (.got b) }
  | recycle (p : P) (dev sector : UInt32) (b : BufId) (hp : s.pc p = .getting dev sector)
    (hnone : ∀ b' ∈ s.lru, s.dev b' = dev → s.sector b' ≠ sector) (hb : s.busy b = false) :
    BufMove e s
      { s with
        dev := Function.update s.dev b dev
        sector := Function.update s.sector b sector
        busy := Function.update s.busy b true
        valid := Function.update s.valid b false
        dirty := Function.update s.dirty b false
        held := Function.update s.held p (b :: s.held p)
        pc := Function.update s.pc p (.got b) }
  | miss (p : P) (b : BufId) (hp : s.pc p = .got b) (hv : s.valid b = false) :
    BufMove e s { s with pc := Function.update s.pc p (.calling b .read) }
  | ret (p : P) (b : BufId) (k : RwKind) (hp : s.pc p = .got b ∧ k = .read ∨ s.pc p = .waiting b k ∧ s.dirty b = false)
    (hv : s.valid b = true) : BufMove e s (s.ret p b k)
  | bwrite (p : P) (b : BufId) (hp : s.pc p = .idle) (hb : b ∈ s.held p) :
    BufMove e s
      { s with
        dirty := Function.update s.dirty b true
        changed := Function.update s.changed b false
        pc := Function.update s.pc p (.calling b .write) }
  | iderw (p : P) (b : BufId) (k : RwKind) (hp : s.pc p = .calling b k) :
    BufMove e s
      { s with
        idequeue := s.idequeue ++ [b]
        cmd := if s.idequeue = [] then some (s.idestart b) else s.cmd
        pc := Function.update s.pc p (.waiting b k) }
  | modify (p : P) (b : BufId) (d : D) (hp : s.pc p = .idle) (hb : b ∈ s.held p) :
    BufMove e s
      { s with data := Function.update s.data b d, changed := Function.update s.changed b true }
  | brelse (p : P) (b : BufId) (he : e = .brelse p b) (hp : s.pc p = .idle) (hb : b ∈ s.held p) :
    BufMove e s (s.brelse p b)
  | intr (c : IdeCmd D) (b : BufId) (rest : List BufId) (hc : s.cmd = some c) (hq : s.idequeue = b :: rest) :
    BufMove e s (s.ideintr c b rest)

theorem bget_move {e : BufEvent P D} {s s' : BufSys P D} {p : P} {dev sector : UInt32}
    (hp : s.pc p = .getting dev sector) (h : s.bget p dev sector = some s') : s' = s ∨ BufMove e s s' := by
  rw [BufSys.bget] at h
  split at h
  · rename_i b hb
    have hb := List.find?_some hb
    obtain ⟨rfl, rfl⟩ := of_decide_eq_true hb
    split_ifs at h with hbusy <;> cases h
    · exact .inl rfl
    · exact .inr (.hit p b hp (Bool.eq_false_iff.mpr hbusy))
  · rename_i hnone
    have hnone : ∀ b' ∈ s.lru, s.dev b' = dev → s.sector b' ≠ sector := by
      simpa using hnone
    split at h
    · rename_i b hb
      have hb := List.find?_some hb
      cases h
      exact .inr (.recycle p dev sector b hp hnone (of_decide_eq_true hb))
    · cases h

/-- **Every step is one of the moves**, or a process goes back to sleep and nothing changes. -/
theorem bufStep_move {havedisk1 : Bool} {s s' : BufSys P D} {e : BufEvent P D}
    (h : bufStep havedisk1 s e = some s') : s' = s ∨ BufMove e s s' := by
  cases e with
  | bread p dev sector =>
    simp only [bufStep, Option.ite_none_right_eq_some, Option.some.injEq] at h
    obtain ⟨hp, rfl⟩ := h
    exact .inr (.bread p dev sector rfl hp)
  | bget p =>
    simp only [bufStep] at h
    split at h
    · rename_i hp
      exact bget_move hp h
    · cases h
  | check p =>
    simp only [bufStep] at h
    split at h
    · rename_i b hp
      split_ifs at h with hv <;> cases h
      · exact .inr (.ret p b .read (.inl ⟨hp, rfl⟩) hv)
      · exact .inr (.miss p b hp (Bool.eq_false_iff.mpr hv))
    · cases h
  | bwrite p b =>
    simp only [bufStep, Option.ite_none_right_eq_some, Option.some.injEq] at h
    obtain ⟨⟨hp, hb, -⟩, rfl⟩ := h
    exact .inr (.bwrite p b hp hb)
  | iderw p =>
    simp only [bufStep] at h
    split at h
    · rename_i b k hp
      simp only [BufSys.iderw, Option.ite_none_left_eq_some, Option.some.injEq] at h
      obtain ⟨-, -, -, rfl⟩ := h
      exact .inr (.iderw p b k hp)
    · cases h
  | wait p =>
    simp only [bufStep] at h
    split at h
    · rename_i b k hp
      split_ifs at h with hdone <;> cases h
      · exact .inr (.ret p b k (.inr ⟨hp, hdone.2⟩) hdone.1)
      · exact .inl rfl
    · cases h
  | modify p b d =>
    simp only [bufStep, Option.ite_none_right_eq_some, Option.some.injEq] at h
    obtain ⟨⟨hp, hb⟩, rfl⟩ := h
    exact .inr (.modify p b d hp hb)
  | brelse p b =>
    simp only [bufStep, Option.ite_none_right_eq_some, Option.some.injEq] at h
    obtain ⟨⟨hp, hb, -⟩, rfl⟩ := h
    exact .inr (.brelse p b rfl hp hb)
  | intr =>
    simp only [bufStep] at h
    split at h
    · rename_i c b rest hc hq
      cases h
      exact .inr (.intr c b rest hc hq)
    · cases h

end Xv6
