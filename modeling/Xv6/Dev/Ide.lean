import Xv6.Dev.Bio
import Xv6.Lib.Segment

/-!
# `Dev.Ide` — the disk driver with its queue, its sleepers and its errors (`kernel/ide.c`, `kernel/bio.c`)

`Dev.Bio` has a list for `idequeue`, lets a sleeping process try again at any time and has a disk that does not fail.
Here the queue is what the links say: `idequeue` points to a buffer and `qnext` from one to the next. A process sleeps on
the buffer it waits for, in `bget` or in `iderw`, until a `wakeup` of that buffer or until it is killed. And the disk may
complete a command with an error.

Each request for the disk has a number: its place in `asked`.
-/

namespace Xv6

open Machine Segment

/-! ## The state -/

/-- Where a process is. -/
inductive IdePc where
  | idle
  /-- In `bget`, before the loop. -/
  | getting (dev sector : UInt32)
  /-- Asleep in `bget`, on the channel `b`. -/
  | getSleep (b : BufId) (dev sector : UInt32)
  /-- In `bread`, `bget` has returned. -/
  | got (b : BufId)
  /-- About to call `iderw`. -/
  | calling (b : BufId) (k : RwKind)
  /-- In the loop of `iderw` for request `n`, before the test. -/
  | testing (b : BufId) (k : RwKind) (n : Nat)
  /-- Asleep in that loop, on the channel `b`. -/
  | rwSleep (b : BufId) (k : RwKind) (n : Nat)
deriving DecidableEq

/-- The cache, the disk and the processes; `D` is what a sector holds. The last three fields are history: the buffers of
    the requests made, of those told to the disk, and of those whose interrupt has been handled, oldest first. -/
structure IdeSys (P D : Type) where
  busy : BufId → Bool
  valid : BufId → Bool
  dirty : BufId → Bool
  dev : BufId → UInt32
  sector : BufId → UInt32
  data : BufId → D
  qnext : BufId → Option BufId
  lru : List BufId
  idequeue : Option BufId
  cmd : Option (IdeCmd D)
  disk : DiskAddr → D
  pc : P → IdePc
  held : P → List BufId
  asked : List BufId
  started : List BufId
  finished : List BufId

/-- `wakeup(b)`, or `kill` of the process: a sleeper goes back to its loop. -/
def IdePc.awake : IdePc → IdePc
  | .getSleep _ dev sector => .getting dev sector
  | .rwSleep b k n => .testing b k n
  | pc => pc

/-- The channel that a process sleeps on. -/
def IdePc.chan : IdePc → Option BufId
  | .getSleep b _ _ | .rwSleep b _ _ => some b
  | _ => none

/-- The pointer `*pp` where the loop of `iderw` ends: the buffer with no next one, from `c` on. -/
def lastFrom (qnext : BufId → Option BufId) : Nat → BufId → Option BufId
  | 0, _ => none
  | fuel + 1, c =>
    match qnext c with
    | none => some c
    | some d => lastFrom qnext fuel d

namespace IdeSys

variable {P D : Type} [DecidableEq P]

/-! ## Sections -/

def wakeup (pc : P → IdePc) (b : BufId) (q : P) : IdePc := if (pc q).chan = some b then (pc q).awake else pc q

/-- `idestart(b)`. -/
def idestart (s : IdeSys P D) (b : BufId) : IdeCmd D where
  addr := BufSys.diskAddr (s.dev b) (s.sector b)
  data := if s.dirty b then some (s.data b) else none

/-- `bget` by process `p`: one round of its loop. -/
def bget (s : IdeSys P D) (p : P) (dev sector : UInt32) : Option (IdeSys P D) :=
  match s.lru.find? fun b => s.dev b = dev ∧ s.sector b = sector with
  | some b =>
    if s.busy b then some { s with pc := Function.update s.pc p (.getSleep b dev sector) }
    else some
      { s with
        busy := Function.update s.busy b true
        held := Function.update s.held p (b :: s.held p)
        pc := Function.update s.pc p (.got b) }
  | none =>
    match s.lru.reverse.find? fun b => s.busy b = false with
    | some b => some
      { s with
        dev := Function.update s.dev b dev
        sector := Function.update s.sector b sector
        busy := Function.update s.busy b true
        valid := Function.update s.valid b false
        dirty := Function.update s.dirty b false
        held := Function.update s.held p (b :: s.held p)
        pc := Function.update s.pc p (.got b) }
    -- `panic("bget: no buffers")`
    | none => none

/-- `b` is appended to the queue: `*pp = b` at the end of the links. `none`: there is no end. -/
def append (s : IdeSys P D) (b : BufId) : Option (Option BufId × (BufId → Option BufId)) :=
  let qnext := Function.update s.qnext b none
  match s.idequeue with
  | none => some (some b, qnext)
  | some c => (lastFrom qnext NBUF c).map fun last => (some c, Function.update qnext last (some b))

/-- `iderw(b)` up to its loop; `none` is a panic, or a walk without end. -/
def iderw (s : IdeSys P D) (havedisk1 : Bool) (p : P) (b : BufId) (k : RwKind) : Option (IdeSys P D) :=
  if s.busy b = false then none
  else if s.valid b = true ∧ s.dirty b = false then none
  else if s.dev b ≠ 0 ∧ havedisk1 = false then none
  else (s.append b).map fun (idequeue, qnext) =>
    { s with
      idequeue := idequeue
      qnext := qnext
      cmd := if idequeue = some b then some (s.idestart b) else s.cmd
      pc := Function.update s.pc p (.testing b k s.asked.length)
      asked := s.asked ++ [b]
      started := if idequeue = some b then s.started ++ [b] else s.started }

/-- The disk completes the command `c`, without or with an error, and `ideintr` takes the buffer `b` off the queue. The
    status is looked at for a read only; a write that failed has not changed the disk. -/
def ideintr (s : IdeSys P D) (ok : Bool) (c : IdeCmd D) (b : BufId) : IdeSys P D :=
  let disk := match c.data with
    | some d => if ok then Function.update s.disk c.addr d else s.disk
    | none => s.disk
  let s := { s with
    disk := disk
    idequeue := s.qnext b
    data := if s.dirty b = false ∧ ok = true then Function.update s.data b (disk c.addr) else s.data
    valid := Function.update s.valid b true
    dirty := Function.update s.dirty b false
    pc := wakeup s.pc b
    finished := s.finished ++ [b] }
  { s with cmd := s.idequeue.map s.idestart, started := s.started ++ s.idequeue.toList }

/-- `brelse(b)`. -/
def brelse (s : IdeSys P D) (p : P) (b : BufId) : IdeSys P D :=
  { s with
    lru := b :: s.lru.erase b
    busy := Function.update s.busy b false
    held := Function.update s.held p ((s.held p).erase b)
    pc := wakeup s.pc b }

end IdeSys

/-- What happens next, and who does it. -/
inductive IdeEvent (P D : Type) where
  | bread (p : P) (dev sector : UInt32)
  | bget (p : P)
  | check (p : P)
  | bwrite (p : P) (b : BufId)
  | iderw (p : P)
  | wait (p : P)
  | modify (p : P) (b : BufId) (d : D)
  | brelse (p : P) (b : BufId)
  | kill (p : P)
  | intr (ok : Bool)

variable {P D : Type} [DecidableEq P]

/-- One step of the machine. A process uses only buffers that it holds and that a call has returned to it. The disk
    raises an interrupt only for a command it was given. -/
def ideStep (havedisk1 : Bool) (s : IdeSys P D) : IdeEvent P D → Option (IdeSys P D)
  | .bread p dev sector =>
    if s.pc p = .idle then some { s with pc := Function.update s.pc p (.getting dev sector) } else none
  | .bget p =>
    match s.pc p with
    | .getting dev sector => s.bget p dev sector
    | _ => none
  -- `if(!(b->flags & B_VALID)) iderw(b); return b;`
  | .check p =>
    match s.pc p with
    | .got b =>
      if s.valid b then some { s with pc := Function.update s.pc p .idle }
      else some { s with pc := Function.update s.pc p (.calling b .read) }
    | _ => none
  | .bwrite p b =>
    if s.pc p = .idle ∧ b ∈ s.held p ∧ s.busy b = true then some
      { s with dirty := Function.update s.dirty b true, pc := Function.update s.pc p (.calling b .write) }
    else none
  | .iderw p =>
    match s.pc p with
    | .calling b k => s.iderw havedisk1 p b k
    | _ => none
  -- `while((b->flags & (B_VALID|B_DIRTY)) != B_VALID) sleep(b, &idelock);`
  | .wait p =>
    match s.pc p with
    | .testing b k n =>
      if s.valid b = true ∧ s.dirty b = false then some { s with pc := Function.update s.pc p .idle }
      else some { s with pc := Function.update s.pc p (.rwSleep b k n) }
    | _ => none
  | .modify p b d =>
    if s.pc p = .idle ∧ b ∈ s.held p then some { s with data := Function.update s.data b d } else none
  | .brelse p b =>
    if s.pc p = .idle ∧ b ∈ s.held p ∧ s.busy b = true then some (s.brelse p b) else none
  | .kill p => some { s with pc := Function.update s.pc p (s.pc p).awake }
  | .intr ok =>
    match s.cmd, s.idequeue with
    | some c, some b => some (s.ideintr ok c b)
    | _, _ => none

/-- After `binit`, with the disk `disk₀`; the buffers hold `d₀`. -/
def IdeSys.init (disk₀ : DiskAddr → D) (d₀ : D) : IdeSys P D where
  busy _ := false
  valid _ := false
  dirty _ := false
  dev _ := 0xffffffff
  sector _ := 0
  data _ := d₀
  qnext _ := none
  lru := (List.finRange NBUF).reverse
  idequeue := none
  cmd := none
  disk := disk₀
  pc _ := .idle
  held _ := []
  asked := []
  started := []
  finished := []

/-! ## What a step can do -/

/-- What a process uses: nothing that a call has not returned yet, a buffer, or the disk for it. Whether it sleeps does
    not matter. -/
inductive IdeUse where
  | none
  | got (b : BufId)
  | call (b : BufId) (k : RwKind)
  | req (b : BufId) (k : RwKind) (n : Nat)
deriving DecidableEq

def IdePc.use : IdePc → IdeUse
  | .idle | .getting _ _ | .getSleep _ _ _ => .none
  | .got b => .got b
  | .calling b k => .call b k
  | .testing b k n | .rwSleep b k n => .req b k n

section Use

variable {b : BufId} {k : RwKind} {n : Nat}

@[simp, grind =] theorem use_idle : IdePc.idle.use = .none := rfl

@[simp, grind =] theorem use_got : (IdePc.got b).use = .got b := rfl

@[simp, grind =] theorem use_calling : (IdePc.calling b k).use = .call b k := rfl

@[simp, grind =] theorem use_testing : (IdePc.testing b k n).use = .req b k n := rfl

@[simp] theorem use_update {pc : P → IdePc} {p q : P} {x : IdePc} :
    (Function.update pc p x q).use = if q = p then x.use else (pc q).use := by
  rw [Function.update_apply, apply_ite IdePc.use]

end Use

@[simp] theorem IdePc.use_awake (pc : IdePc) : pc.awake.use = pc.use := by cases pc <;> rfl

omit [DecidableEq P] in
@[simp] theorem use_wakeup (pc : P → IdePc) (b : BufId) (q : P) : (IdeSys.wakeup pc b q).use = (pc q).use := by
  rw [IdeSys.wakeup]
  split
  · exact IdePc.use_awake _
  · rfl

/-- **What a step can do** on event `e`. -/
inductive IdeMove (e : IdeEvent P D) (s : IdeSys P D) : IdeSys P D → Prop
  /-- A process goes on, falls asleep or wakes up. -/
  | quiet (pc : P → IdePc) (hpc : ∀ q, (pc q).use = (s.pc q).use) : IdeMove e s { s with pc := pc }
  | hit (p : P) (b : BufId) (hp : (s.pc p).use = .none) (hb : s.busy b = false) :
    IdeMove e s
      { s with
        busy := Function.update s.busy b true
        held := Function.update s.held p (b :: s.held p)
        pc := Function.update s.pc p (.got b) }
  | recycle (p : P) (dev sector : UInt32) (b : BufId) (hp : (s.pc p).use = .none) (hb : s.busy b = false) :
    IdeMove e s
      { s with
        dev := Function.update s.dev b dev
        sector := Function.update s.sector b sector
        busy := Function.update s.busy b true
        valid := Function.update s.valid b false
        dirty := Function.update s.dirty b false
        held := Function.update s.held p (b :: s.held p)
        pc := Function.update s.pc p (.got b) }
  | ret (p : P) (hp : ∀ b k n, (s.pc p).use = .req b k n → s.valid b = true ∧ s.dirty b = false) :
    IdeMove e s { s with pc := Function.update s.pc p .idle }
  | miss (p : P) (b : BufId) (hp : s.pc p = .got b) (hv : s.valid b = false) :
    IdeMove e s { s with pc := Function.update s.pc p (.calling b .read) }
  | bwrite (p : P) (b : BufId) (hp : s.pc p = .idle) (hb : b ∈ s.held p) :
    IdeMove e s { s with dirty := Function.update s.dirty b true, pc := Function.update s.pc p (.calling b .write) }
  | iderw (p : P) (b : BufId) (k : RwKind) (idequeue : Option BufId) (qnext : BufId → Option BufId)
    (hp : s.pc p = .calling b k) (happ : s.append b = some (idequeue, qnext)) :
    IdeMove e s
      { s with
        idequeue := idequeue
        qnext := qnext
        cmd := if idequeue = some b then some (s.idestart b) else s.cmd
        pc := Function.update s.pc p (.testing b k s.asked.length)
        asked := s.asked ++ [b]
        started := if idequeue = some b then s.started ++ [b] else s.started }
  | modify (p : P) (b : BufId) (d : D) (hp : s.pc p = .idle) (hb : b ∈ s.held p) :
    IdeMove e s { s with data := Function.update s.data b d }
  | brelse (p : P) (b : BufId) (hp : s.pc p = .idle) (hb : b ∈ s.held p) : IdeMove e s (s.brelse p b)
  | intr (ok : Bool) (c : IdeCmd D) (b : BufId) (he : e = .intr ok) (hc : s.cmd = some c) (hq : s.idequeue = some b) :
    IdeMove e s (s.ideintr ok c b)

/-- One process goes on without a change of what it uses. -/
theorem IdeMove.step_quiet {e : IdeEvent P D} {s : IdeSys P D} {p : P} {pc : IdePc} (h : pc.use = (s.pc p).use) :
    IdeMove e s { s with pc := Function.update s.pc p pc } := by
  refine .quiet _ fun q => ?_
  by_cases hq : q = p
  · rw [use_update, if_pos hq, h, hq]
  · rw [use_update, if_neg hq]

theorem IdeSys.bget_move {e : IdeEvent P D} {s s' : IdeSys P D} {p : P} {dev sector : UInt32} (hp : s.pc p = .getting dev sector)
    (hs : s.bget p dev sector = some s') : IdeMove e s s' := by
  have huse : (s.pc p).use = .none := by rw [hp]; rfl
  rw [IdeSys.bget] at hs
  cases hfind : s.lru.find? fun b => s.dev b = dev ∧ s.sector b = sector with
  | some b =>
    rw [hfind] at hs
    dsimp only at hs
    cases hb : s.busy b with
    | true =>
      rw [hb, if_pos rfl] at hs
      cases hs
      exact .step_quiet huse.symm
    | false =>
      rw [hb, if_neg Bool.false_ne_true] at hs
      cases hs
      exact .hit p b huse hb
  | none =>
    rw [hfind] at hs
    dsimp only at hs
    cases hfree : s.lru.reverse.find? fun b => s.busy b = false with
    | some b =>
      rw [hfree] at hs
      cases hs
      exact .recycle p dev sector b huse (by simpa using List.find?_some hfree)
    | none =>
      rw [hfree] at hs
      cases hs

theorem ideStep_move {havedisk1 : Bool} {s s' : IdeSys P D} {e : IdeEvent P D} (hs : ideStep havedisk1 s e = some s') :
    IdeMove e s s' := by
  cases e with
  | bread p dev sector =>
    obtain ⟨hp, hs⟩ := Option.ite_none_right_eq_some.1 hs
    cases hs
    exact .step_quiet (by rw [hp]; rfl)
  | bget p =>
    rw [ideStep] at hs
    cases hp : s.pc p with
    | getting dev sector =>
      rw [hp] at hs
      exact IdeSys.bget_move hp hs
    | _ => rw [hp] at hs; cases hs
  | check p =>
    rw [ideStep] at hs
    cases hp : s.pc p with
    | got b =>
      rw [hp] at hs
      dsimp only at hs
      cases hv : s.valid b with
      | true =>
        rw [hv, if_pos rfl] at hs
        cases hs
        exact .ret p fun b k n huse => by rw [hp] at huse; cases huse
      | false =>
        rw [hv, if_neg Bool.false_ne_true] at hs
        cases hs
        exact .miss p b hp hv
    | _ => rw [hp] at hs; cases hs
  | bwrite p b =>
    obtain ⟨⟨hp, hb, -⟩, hs⟩ := Option.ite_none_right_eq_some.1 hs
    cases hs
    exact .bwrite p b hp hb
  | iderw p =>
    rw [ideStep] at hs
    cases hp : s.pc p with
    | calling b k =>
      rw [hp] at hs
      dsimp only at hs
      rw [IdeSys.iderw] at hs
      obtain ⟨-, hs⟩ := Option.ite_none_left_eq_some.1 hs
      obtain ⟨-, hs⟩ := Option.ite_none_left_eq_some.1 hs
      obtain ⟨-, hs⟩ := Option.ite_none_left_eq_some.1 hs
      obtain ⟨⟨idequeue, qnext⟩, happ, hs⟩ := Option.map_eq_some_iff.1 hs
      cases hs
      exact .iderw p b k idequeue qnext hp happ
    | _ => rw [hp] at hs; cases hs
  | wait p =>
    rw [ideStep] at hs
    cases hp : s.pc p with
    | testing b k n =>
      rw [hp] at hs
      dsimp only at hs
      by_cases hdone : s.valid b = true ∧ s.dirty b = false
      · rw [if_pos hdone] at hs
        cases hs
        refine .ret p fun b' k' n' huse => ?_
        rw [hp] at huse
        cases huse
        exact hdone
      · rw [if_neg hdone] at hs
        cases hs
        exact .step_quiet (by rw [hp]; rfl)
    | _ => rw [hp] at hs; cases hs
  | modify p b d =>
    obtain ⟨⟨hp, hb⟩, hs⟩ := Option.ite_none_right_eq_some.1 hs
    cases hs
    exact .modify p b d hp hb
  | brelse p b =>
    obtain ⟨⟨hp, hb, -⟩, hs⟩ := Option.ite_none_right_eq_some.1 hs
    cases hs
    exact .brelse p b hp hb
  | kill p =>
    cases hs
    exact .step_quiet (IdePc.use_awake _)
  | intr ok =>
    rw [ideStep] at hs
    cases hc : s.cmd with
    | none => rw [hc] at hs; cases hs
    | some c =>
      cases hq : s.idequeue with
      | none => rw [hc, hq] at hs; cases hs
      | some b =>
        rw [hc, hq] at hs
        cases hs
        exact .intr ok c b rfl hc hq

end Xv6
