import Xv6.Lib.Machine
import Xv6.Sys.File
import Mathlib.Data.List.Infix

/-!
# `Proc.Pipe` — readers and writers of one pipe (`kernel/pipe.c`)

Any number of processes are inside `pipewrite` and `piperead` of one pipe at a time. A step is one stretch of
one of them between taking the pipe lock and giving it up, whether it returns or sleeps; `pipeclose` and
`kill` are steps too. A woken process takes the lock again and tests its loop condition once more.

The state carries two histories: the bytes stored and the bytes delivered, each in the order it happened.
-/

namespace Xv6

open Bytes Machine

/-! ## The ring -/

/-- `p->nwrite == p->nread + PIPESIZE`. -/
def Pipe.Full (q : Pipe) : Prop := q.nwrite = (q.nread + PIPESIZE) % 4294967296

instance (q : Pipe) : Decidable q.Full := by unfold Pipe.Full; infer_instance

/-- `p->data[p->nwrite++ % PIPESIZE] = b`. -/
def Pipe.put (q : Pipe) (b : UInt8) : Pipe :=
  { q with data := Function.update q.data (q.nwrite % PIPESIZE) b, nwrite := (q.nwrite + 1) % 4294967296 }

/-- `p->data[p->nread++ % PIPESIZE]`. -/
def Pipe.take (q : Pipe) : UInt8 × Pipe :=
  (q.data (q.nread % PIPESIZE), { q with nread := (q.nread + 1) % 4294967296 })

/-- `nwrite - nread` as a `uint`. -/
def Pipe.count (q : Pipe) : Nat := (q.nwrite + 4294967296 - q.nread) % 4294967296

/-- What the ring holds, oldest byte first. -/
def Pipe.pending (q : Pipe) : List UInt8 :=
  (List.range q.count).map fun k => q.data ((q.nread + k) % 4294967296 % PIPESIZE)

/-- The counters of a pipe in use. -/
structure Pipe.Ok (q : Pipe) : Prop where
  nread : q.nread < 4294967296
  nwrite : q.nwrite < 4294967296
  count : q.count ≤ PIPESIZE

variable {q : Pipe} {b : UInt8}

theorem Pipe.Ok.full_iff (h : q.Ok) : q.Full ↔ q.count = PIPESIZE := by
  have h1 := h.nread
  have h2 := h.nwrite
  have h3 := h.count
  simp only [Pipe.Full, Pipe.count, PIPESIZE] at *
  omega

theorem Pipe.Ok.empty_iff (h : q.Ok) : q.nread = q.nwrite ↔ q.count = 0 := by
  have h1 := h.nread
  have h2 := h.nwrite
  simp only [Pipe.count]
  omega

theorem Pipe.count_put (h : q.Ok) : (q.put b).count = q.count + 1 := by
  have h1 := h.nread
  have h2 := h.nwrite
  have h3 := h.count
  simp only [Pipe.count, Pipe.put, PIPESIZE] at *
  omega

theorem Pipe.Ok.put (h : q.Ok) (hf : ¬ q.Full) (b : UInt8) : (q.put b).Ok := by
  have hne : q.count ≠ PIPESIZE := fun hc => hf (h.full_iff.mpr hc)
  have hle := h.count
  refine ⟨h.nread, Nat.mod_lt _ (by decide), ?_⟩
  rw [Pipe.count_put h]
  omega

/-- **Storing a byte** appends it. -/
theorem Pipe.pending_put (h : q.Ok) (hf : ¬ q.Full) : (q.put b).pending = q.pending ++ [b] := by
  have h1 := h.nread
  have h2 := h.nwrite
  have h3 := h.count
  have hne : q.count ≠ PIPESIZE := fun hc => hf (h.full_iff.mpr hc)
  unfold Pipe.pending
  rw [Pipe.count_put h, List.range_succ, List.map_append]
  refine congrArg₂ (· ++ ·) (List.map_congr_left fun k hk => ?_) (congrArg (fun x => [x]) ?_)
  · -- a byte already there is not the one overwritten: the ring is longer than what it holds
    have hk' := List.mem_range.mp hk
    refine Function.update_of_ne ?_ ..
    simp only [Pipe.count, Pipe.put, PIPESIZE] at *
    omega
  · have hix : (q.nread + q.count) % 4294967296 % PIPESIZE = q.nwrite % PIPESIZE := by
      simp only [Pipe.count, PIPESIZE] at *
      omega
    show Function.update q.data (q.nwrite % PIPESIZE) b ((q.nread + q.count) % 4294967296 % PIPESIZE) = b
    rw [hix, Function.update_self]

theorem Pipe.count_take (h : q.Ok) (hne : q.nread ≠ q.nwrite) : q.count = q.take.2.count + 1 := by
  have h1 := h.nread
  have h2 := h.nwrite
  simp only [Pipe.count, Pipe.take]
  omega

theorem Pipe.Ok.take (h : q.Ok) (hne : q.nread ≠ q.nwrite) : q.take.2.Ok := by
  have hle := h.count
  rw [Pipe.count_take h hne] at hle
  exact ⟨Nat.mod_lt _ (by decide), h.nwrite, by omega⟩

/-- **Delivering a byte** takes the oldest. -/
theorem Pipe.pending_take (h : q.Ok) (hne : q.nread ≠ q.nwrite) : q.pending = q.take.1 :: q.take.2.pending := by
  have h1 := h.nread
  unfold Pipe.pending
  rw [Pipe.count_take h hne, List.range_succ_eq_map, List.map_cons, List.map_map]
  refine congrArg₂ List.cons ?_ (List.map_congr_left fun k _ => ?_)
  · show q.data ((q.nread + 0) % 4294967296 % PIPESIZE) = q.data (q.nread % PIPESIZE)
    rw [Nat.add_zero, Nat.mod_eq_of_lt h1]
  · show q.data ((q.nread + (k + 1)) % 4294967296 % PIPESIZE) =
      q.data (((q.nread + 1) % 4294967296 + k) % 4294967296 % PIPESIZE)
    congr 2
    omega

/-! ## The machine -/

/-- What a process sleeps on: `&p->nread` or `&p->nwrite`. -/
inductive PipeChan where
  | nread
  | nwrite
  deriving DecidableEq

/-- What a process is doing with the pipe: nothing, in `pipewrite` with these bytes still to store, or in
    `piperead` for up to `n` bytes. -/
inductive PipeTask where
  | idle
  | writing (left : List UInt8)
  | reading (n : Nat)
  deriving DecidableEq

/-- The pipe, its users, and the two histories. -/
structure PipeSys (P : Type) where
  pipe : Pipe
  task : P → PipeTask
  asleep : P → Option PipeChan
  killed : P → Bool
  stored : List UInt8
  delivered : List UInt8

/-- How a stretch of `pipewrite` ends: `return n`, `return -1`, or asleep with bytes left. -/
inductive WriteEnd where
  | done
  | fail
  | sleep (left : List UInt8)

/-- The loop of `pipewrite` until it gives up the lock: the pipe, the bytes it stored, and how it ends. -/
def pipewriteLoop (killed : Bool) : Pipe → List UInt8 → Pipe × List UInt8 × WriteEnd
  | q, [] => (q, [], .done)
  | q, b :: left =>
    if q.Full then
      if q.readopen = false ∨ killed then (q, [], .fail) else (q, [], .sleep (b :: left))
    else
      let r := pipewriteLoop killed (q.put b) left
      (r.1, b :: r.2.1, r.2.2)

/-- The copy loop of `piperead`. -/
def pipereadLoop : Nat → Pipe → Pipe × List UInt8
  | 0, q => (q, [])
  | n + 1, q =>
    if q.nread = q.nwrite then (q, [])
    else
      let r := pipereadLoop n q.take.2
      (r.1, q.take.1 :: r.2)

section Machine
variable {P : Type} [DecidableEq P]

/-- `wakeup(c)`. -/
def wakeAll (c : PipeChan) (asleep : P → Option PipeChan) : P → Option PipeChan := fun p =>
  if asleep p = some c then none else asleep p

/-- A stretch of `pipewrite` by `p`. -/
def PipeSys.write (s : PipeSys P) (p : P) (bytes : List UInt8) : PipeSys P :=
  let r := pipewriteLoop (s.killed p) s.pipe bytes
  let s := { s with pipe := r.1, stored := s.stored ++ r.2.1 }
  match r.2.2 with
  | .done => { s with task := Function.update s.task p .idle, asleep := wakeAll .nread s.asleep }
  | .fail => { s with task := Function.update s.task p .idle }
  | .sleep left => { s with
      task := Function.update s.task p (.writing left)
      asleep := Function.update (wakeAll .nread s.asleep) p (some .nwrite) }

/-- A stretch of `piperead` by `p`. -/
def PipeSys.read (s : PipeSys P) (p : P) (n : Nat) : PipeSys P :=
  if s.pipe.nread = s.pipe.nwrite ∧ s.pipe.writeopen then
    if s.killed p then { s with task := Function.update s.task p .idle }
    else { s with
      task := Function.update s.task p (.reading n)
      asleep := Function.update s.asleep p (some .nread) }
  else
    let r := pipereadLoop n s.pipe
    { s with
      pipe := r.1
      delivered := s.delivered ++ r.2
      task := Function.update s.task p .idle
      asleep := wakeAll .nwrite s.asleep }

/-- `pipeclose`. -/
def PipeSys.close (s : PipeSys P) (writable : Bool) : PipeSys P :=
  if writable then { s with pipe := { s.pipe with writeopen := false }, asleep := wakeAll .nread s.asleep }
  else { s with pipe := { s.pipe with readopen := false }, asleep := wakeAll .nwrite s.asleep }

/-- What happens next: a call, a woken process going on in its call, a close, or a kill. -/
inductive PipeEvent (P : Type) where
  | write (p : P) (bytes : List UInt8)
  | read (p : P) (n : Nat)
  | resume (p : P)
  | close (writable : Bool)
  | kill (p : P)

/-- One step. A pipe closed at both ends has been freed: nobody uses it any more. -/
def pipeStep (s : PipeSys P) : PipeEvent P → Option (PipeSys P)
  | .kill p => some { s with killed := Function.update s.killed p true, asleep := Function.update s.asleep p none }
  | e =>
    if s.pipe.readopen = false ∧ s.pipe.writeopen = false then none
    else match e with
      | .write p bytes => if s.task p = .idle ∧ s.asleep p = none then some (s.write p bytes) else none
      | .read p n => if s.task p = .idle ∧ s.asleep p = none then some (s.read p n) else none
      | .resume p =>
        if s.asleep p = none then
          match s.task p with
          | .idle => none
          | .writing left => some (s.write p left)
          | .reading n => some (s.read p n)
        else none
      | .close writable => some (s.close writable)
      | .kill _ => none

/-- A pipe as `pipealloc` leaves it, with whatever the page held. -/
def newPipe (data : Arr) : Pipe := { data, nread := 0, nwrite := 0, readopen := true, writeopen := true }

/-- A new pipe and nobody using it. -/
def PipeSys.init (data : Arr) : PipeSys P where
  pipe := newPipe data
  task _ := .idle
  asleep _ := none
  killed _ := false
  stored := []
  delivered := []

/-- **What a step does**: a kill, a stretch of a writer, a stretch of a reader, or a close. -/
theorem pipeStep_cases {s s' : PipeSys P} {e : PipeEvent P} (h : pipeStep s e = some s') :
    (∃ p, e = .kill p ∧
      s' = { s with killed := Function.update s.killed p true, asleep := Function.update s.asleep p none }) ∨
    (∃ p bytes, (e = .write p bytes ∨ e = .resume p ∧ s.task p = .writing bytes) ∧ s' = s.write p bytes) ∨
    (∃ p n, (e = .read p n ∨ e = .resume p ∧ s.task p = .reading n) ∧ s' = s.read p n) ∨
    ∃ w, e = .close w ∧ s' = s.close w := by
  cases e with
  | kill p => exact .inl ⟨p, rfl, by simpa [pipeStep] using h.symm⟩
  | write p bytes =>
    simp only [pipeStep, Option.ite_none_left_eq_some, Option.ite_none_right_eq_some, Option.some.injEq] at h
    exact .inr (.inl ⟨p, bytes, .inl rfl, h.2.2.symm⟩)
  | read p n =>
    simp only [pipeStep, Option.ite_none_left_eq_some, Option.ite_none_right_eq_some, Option.some.injEq] at h
    exact .inr (.inr (.inl ⟨p, n, .inl rfl, h.2.2.symm⟩))
  | close w =>
    simp only [pipeStep, Option.ite_none_left_eq_some, Option.some.injEq] at h
    exact .inr (.inr (.inr ⟨w, rfl, h.2.symm⟩))
  | resume p =>
    simp only [pipeStep, Option.ite_none_left_eq_some, Option.ite_none_right_eq_some] at h
    obtain ⟨-, -, h⟩ := h
    cases ht : s.task p with
    | idle => rw [ht] at h; cases h
    | writing left =>
      rw [ht] at h
      exact .inr (.inl ⟨p, left, .inr ⟨rfl, ht⟩, (Option.some.inj h).symm⟩)
    | reading n =>
      rw [ht] at h
      exact .inr (.inr (.inl ⟨p, n, .inr ⟨rfl, ht⟩, (Option.some.inj h).symm⟩))

/-! ## First in, first out -/

omit [DecidableEq P] in
/-- What a stretch of `pipewrite` stores is appended to the ring. -/
theorem pipewriteLoop_pending (killed : Bool) (bytes : List UInt8) : ∀ {q : Pipe}, q.Ok →
    (pipewriteLoop killed q bytes).1.Ok ∧
    (pipewriteLoop killed q bytes).1.pending = q.pending ++ (pipewriteLoop killed q bytes).2.1 := by
  induction bytes with
  | nil =>
    intro q h
    exact ⟨h, (List.append_nil _).symm⟩
  | cons b left ih =>
    intro q h
    unfold pipewriteLoop
    by_cases hf : q.Full
    · rw [if_pos hf]
      split
      · exact ⟨h, (List.append_nil _).symm⟩
      · exact ⟨h, (List.append_nil _).symm⟩
    · rw [if_neg hf]
      obtain ⟨hok, hp⟩ := ih (h.put hf b)
      refine ⟨hok, ?_⟩
      rw [hp, Pipe.pending_put h hf, List.append_assoc, List.singleton_append]

omit [DecidableEq P] in
/-- What a stretch of `piperead` delivers is taken from the front of the ring. -/
theorem pipereadLoop_pending (n : Nat) : ∀ {q : Pipe}, q.Ok →
    (pipereadLoop n q).1.Ok ∧ q.pending = (pipereadLoop n q).2 ++ (pipereadLoop n q).1.pending := by
  induction n with
  | zero =>
    intro q h
    exact ⟨h, (List.nil_append _).symm⟩
  | succ n ih =>
    intro q h
    unfold pipereadLoop
    by_cases he : q.nread = q.nwrite
    · rw [if_pos he]
      exact ⟨h, (List.nil_append _).symm⟩
    · rw [if_neg he]
      obtain ⟨hok, hp⟩ := ih (h.take he)
      refine ⟨hok, ?_⟩
      rw [Pipe.pending_take h he, hp, List.cons_append]

/-- Every byte stored was delivered or is in the ring. -/
structure PipeSys.Fifo (s : PipeSys P) : Prop where
  ok : s.pipe.Ok
  bytes : s.stored = s.delivered ++ s.pipe.pending

omit [DecidableEq P] in
theorem PipeSys.Fifo.init (data : Arr) : (PipeSys.init data : PipeSys P).Fifo := by
  have hcount : (newPipe data).count = 0 := by simp only [Pipe.count, newPipe]
  refine ⟨⟨Nat.zero_lt_succ _, Nat.zero_lt_succ _, ?_⟩, ?_⟩
  · show (newPipe data).count ≤ PIPESIZE
    omega
  · show [] = [] ++ (newPipe data).pending
    rw [Pipe.pending, hcount]
    rfl

theorem PipeSys.Fifo.write {s : PipeSys P} (h : s.Fifo) (p : P) (bytes : List UInt8) : (s.write p bytes).Fifo := by
  obtain ⟨hok, hp⟩ := pipewriteLoop_pending (s.killed p) bytes h.ok
  have hbytes : s.stored ++ (pipewriteLoop (s.killed p) s.pipe bytes).2.1 =
      s.delivered ++ (pipewriteLoop (s.killed p) s.pipe bytes).1.pending := by
    rw [hp, h.bytes, List.append_assoc]
  unfold PipeSys.write
  dsimp only
  split <;> exact ⟨hok, hbytes⟩

theorem PipeSys.Fifo.read {s : PipeSys P} (h : s.Fifo) (p : P) (n : Nat) : (s.read p n).Fifo := by
  obtain ⟨hok, hp⟩ := pipereadLoop_pending n h.ok
  unfold PipeSys.read
  split
  · split <;> exact ⟨h.ok, h.bytes⟩
  · refine ⟨hok, ?_⟩
    show s.stored = s.delivered ++ (pipereadLoop n s.pipe).2 ++ (pipereadLoop n s.pipe).1.pending
    rw [List.append_assoc, ← hp]
    exact h.bytes

/-- **One step** keeps the order of the bytes. -/
theorem PipeSys.Fifo.step {s s' : PipeSys P} {e : PipeEvent P} (h : s.Fifo) (he : pipeStep s e = some s') : s'.Fifo := by
  rcases pipeStep_cases he with ⟨p, -, rfl⟩ | ⟨p, bytes, -, rfl⟩ | ⟨p, n, -, rfl⟩ | ⟨w, -, rfl⟩
  · exact ⟨h.ok, h.bytes⟩
  · exact h.write p bytes
  · exact h.read p n
  · unfold PipeSys.close
    cases w
    · exact ⟨⟨h.ok.nread, h.ok.nwrite, h.ok.count⟩, h.bytes⟩
    · exact ⟨⟨h.ok.nread, h.ok.nwrite, h.ok.count⟩, h.bytes⟩

/-- **First in, first out.** After any run of readers and writers, closes and kills, the bytes delivered are a
    prefix of the bytes stored, and what is missing is what the ring holds, `nwrite - nread` bytes, at most
    `PIPESIZE`. -/
theorem pipe_fifo {data : Arr} {events : List (PipeEvent P)} {s : PipeSys P}
    (h : run pipeStep (PipeSys.init data) events = some s) :
    s.delivered <+: s.stored ∧ s.stored.drop s.delivered.length = s.pipe.pending ∧
    s.pipe.pending.length = (s.pipe.nwrite + 4294967296 - s.pipe.nread) % 4294967296 ∧
    s.pipe.pending.length ≤ PIPESIZE := by
  have hi : s.Fifo := run_invariant (PipeSys.Fifo.init data) (fun _ _ _ hi hs => hi.step hs) h
  have hlen : s.pipe.pending.length = s.pipe.count := by
    rw [Pipe.pending, List.length_map, List.length_range]
  refine ⟨⟨s.pipe.pending, hi.bytes.symm⟩, ?_, hlen, ?_⟩
  · rw [hi.bytes, List.drop_left]
  · rw [hlen]
    exact hi.ok.count

/-- A writer and a reader of two processes. -/
theorem pipe_fifo_two : ∃ s : PipeSys (Fin 2),
    run pipeStep (PipeSys.init fun _ => 0) [.write 0 [7, 8, 9], .read 1 2] = some s ∧
    s.delivered = [7, 8] ∧ s.delivered <+: s.stored := by
  obtain ⟨s, hs⟩ := Option.isSome_iff_exists.mp (show (run pipeStep (PipeSys.init fun _ => 0 : PipeSys (Fin 2))
    [.write 0 [7, 8, 9], .read 1 2]).isSome by decide +kernel)
  refine ⟨s, hs, ?_, (pipe_fifo hs).1⟩
  have hd : (run pipeStep (PipeSys.init fun _ => 0 : PipeSys (Fin 2)) [.write 0 [7, 8, 9], .read 1 2]).map
      PipeSys.delivered = some [7, 8] := by decide +kernel
  rw [hs] at hd
  exact Option.some.inj hd

/-! ## Sleepers -/

/-- **Nobody sleeps who could go on**: a reader asleep finds the pipe empty and open for writing, a writer asleep
    finds it full and open for reading. -/
def PipeSys.Attended (s : PipeSys P) : Prop :=
  ∀ p, (s.asleep p = some .nread → s.pipe.nread = s.pipe.nwrite ∧ s.pipe.writeopen = true) ∧
    (s.asleep p = some .nwrite → s.pipe.Full ∧ s.pipe.readopen = true)

/-- A stretch of `pipewrite` that strands a reader: with one asleep, it stores the whole ring, has bytes left and
    returns -1 from the inner loop, where no `wakeup` follows. -/
def PipeSys.Strands (s : PipeSys P) (p : P) (bytes : List UInt8) : Prop :=
  (∃ r, s.asleep r = some .nread) ∧ PIPESIZE < bytes.length ∧ (s.pipe.readopen = false ∨ s.killed p = true)

/-- Steps that strand nobody. -/
def PipeSys.Wakes (s : PipeSys P) : PipeEvent P → Prop
  | .write p bytes => ¬ s.Strands p bytes
  | .resume p => ∀ left, s.task p = .writing left → ¬ s.Strands p left
  | _ => True

omit [DecidableEq P] in
theorem wakeAll_eq_some {c c' : PipeChan} {asleep : P → Option PipeChan} {p : P} :
    wakeAll c asleep p = some c' ↔ asleep p = some c' ∧ c' ≠ c := by
  unfold wakeAll
  by_cases h : asleep p = some c
  · rw [if_pos h, h]
    constructor
    · intro hc; cases hc
    · rintro ⟨hc, hne⟩
      exact absurd (Option.some.inj hc).symm hne
  · rw [if_neg h]
    constructor
    · intro hc
      exact ⟨hc, fun he => h (he ▸ hc)⟩
    · exact And.left

omit [DecidableEq P] in
/-- A full pipe is left as it is. -/
theorem pipewriteLoop_full {killed : Bool} {bytes : List UInt8} (hf : q.Full) :
    (pipewriteLoop killed q bytes).1 = q := by
  cases bytes with
  | nil => rfl
  | cons b left =>
    unfold pipewriteLoop
    rw [if_pos hf]
    by_cases hq : q.readopen = false ∨ killed = true
    · rw [if_pos hq]
    · rw [if_neg hq]

omit [DecidableEq P] in
/-- **How a stretch of `pipewrite` ends**: it returns when all bytes fit, otherwise it fills the ring. -/
theorem pipewriteLoop_end (killed : Bool) (bytes : List UInt8) : ∀ {q : Pipe}, q.Ok →
    (pipewriteLoop killed q bytes).1.readopen = q.readopen ∧
    match (pipewriteLoop killed q bytes).2.2 with
    | .done => q.count + bytes.length ≤ PIPESIZE
    | .fail => PIPESIZE < q.count + bytes.length ∧ (q.readopen = false ∨ killed = true) ∧
        (pipewriteLoop killed q bytes).1.Full
    | .sleep _ => PIPESIZE < q.count + bytes.length ∧ q.readopen = true ∧ killed = false ∧
        (pipewriteLoop killed q bytes).1.Full := by
  induction bytes with
  | nil =>
    intro q h
    refine ⟨rfl, ?_⟩
    show q.count + ([] : List UInt8).length ≤ PIPESIZE
    rw [List.length_nil, Nat.add_zero]
    exact h.count
  | cons b left ih =>
    intro q h
    unfold pipewriteLoop
    by_cases hf : q.Full
    · have hc := h.full_iff.mp hf
      have hlen : PIPESIZE < q.count + (b :: left).length := by rw [List.length_cons]; omega
      rw [if_pos hf]
      by_cases hq : q.readopen = false ∨ killed = true
      · rw [if_pos hq]
        exact ⟨rfl, hlen, hq, hf⟩
      · rw [if_neg hq]
        exact ⟨rfl, hlen, Bool.eq_true_of_not_eq_false fun hc => hq (.inl hc),
          Bool.eq_false_of_not_eq_true fun hc => hq (.inr hc), hf⟩
    · rw [if_neg hf]
      have hlen : (q.put b).count + left.length = q.count + (b :: left).length := by
        rw [Pipe.count_put h, List.length_cons]; omega
      have hrest := ih (h.put hf b)
      rw [hlen] at hrest
      exact hrest

/-- **A writer's stretch** strands somebody exactly when `Strands` says so. -/
theorem PipeSys.Attended.write {s : PipeSys P} (h : s.Attended) (hok : s.pipe.Ok) (p : P) (bytes : List UInt8) :
    (s.write p bytes).Attended ↔ ¬ s.Strands p bytes := by
  obtain ⟨hro, hend⟩ := pipewriteLoop_end (s.killed p) bytes hok
  -- writers asleep: the pipe was full, so this stretch did not change it
  have hwriters : ∀ r, s.asleep r = some .nwrite → (pipewriteLoop (s.killed p) s.pipe bytes).1.Full ∧
      (pipewriteLoop (s.killed p) s.pipe bytes).1.readopen = true := by
    intro r hr
    obtain ⟨hf, ho⟩ := (h r).2 hr
    rw [pipewriteLoop_full hf]
    exact ⟨hf, ho⟩
  -- readers asleep: the pipe was empty
  have hreaders : ∀ r, s.asleep r = some .nread → s.pipe.count = 0 := fun r hr => hok.empty_iff.mp ((h r).1 hr).1
  unfold PipeSys.write
  dsimp only
  split
  · rename_i he
    rw [he] at hend
    have hend : s.pipe.count + bytes.length ≤ PIPESIZE := hend
    constructor
    · rintro - ⟨⟨r, hr⟩, hlen, -⟩
      have := hreaders r hr
      omega
    · intro _ r
      refine ⟨fun hr => absurd rfl (wakeAll_eq_some.mp hr).2, fun hr => hwriters r (wakeAll_eq_some.mp hr).1⟩
  · rename_i he
    rw [he] at hend
    obtain ⟨hlen, hquit, hfull⟩ := hend
    have hok' := (pipewriteLoop_pending (s.killed p) bytes hok).1
    constructor
    · rintro hat ⟨⟨r, hr⟩, -, -⟩
      have hempty := hok'.empty_iff.mp ((hat r).1 hr).1
      have hcount := hok'.full_iff.mp hfull
      simp only [PIPESIZE] at hcount
      omega
    · intro hns r
      refine ⟨fun hr => ?_, fun hr => hwriters r hr⟩
      have := hreaders r hr
      exact absurd ⟨⟨r, hr⟩, by omega, hquit⟩ hns
  · rename_i left he
    rw [he] at hend
    obtain ⟨hlen, hopen, hlive, hfull⟩ := hend
    constructor
    · rintro - ⟨-, -, hc | hc⟩
      · rw [hopen] at hc; cases hc
      · rw [hlive] at hc; cases hc
    · intro _ r
      dsimp only
      by_cases hrp : r = p
      · subst hrp
        rw [Function.update_self]
        exact ⟨nofun, fun _ => ⟨hfull, hro.trans hopen⟩⟩
      · rw [Function.update_of_ne hrp]
        exact ⟨fun hr => absurd rfl (wakeAll_eq_some.mp hr).2, fun hr => hwriters r (wakeAll_eq_some.mp hr).1⟩

/-- **A reader's stretch** strands nobody. -/
theorem PipeSys.Attended.read {s : PipeSys P} (h : s.Attended) (p : P) (n : Nat) : (s.read p n).Attended := by
  unfold PipeSys.read
  by_cases he : s.pipe.nread = s.pipe.nwrite ∧ s.pipe.writeopen = true
  · rw [if_pos he]
    split
    · exact h
    · intro r
      dsimp only
      by_cases hrp : r = p
      · subst hrp
        rw [Function.update_self]
        exact ⟨fun _ => he, nofun⟩
      · rw [Function.update_of_ne hrp]
        exact h r
  · -- it got past the test, so no reader is asleep, and the writers are woken
    rw [if_neg he]
    intro r
    refine ⟨fun hr => ?_, fun hr => absurd rfl (wakeAll_eq_some.mp hr).2⟩
    exact absurd ((h r).1 (wakeAll_eq_some.mp hr).1) he

/-- **One step** from an attended state leads to one exactly when it wakes whom it must. -/
theorem PipeSys.Attended.step {s s' : PipeSys P} {e : PipeEvent P} (h : s.Attended) (hok : s.pipe.Ok)
    (he : pipeStep s e = some s') : s'.Attended ↔ s.Wakes e := by
  rcases pipeStep_cases he with ⟨p, rfl, rfl⟩ | ⟨p, bytes, hev, rfl⟩ | ⟨p, n, hev, rfl⟩ | ⟨w, rfl, rfl⟩
  · refine iff_of_true (fun r => ?_) trivial
    dsimp only
    by_cases hrp : r = p
    · subst hrp
      rw [Function.update_self]
      exact ⟨nofun, nofun⟩
    · rw [Function.update_of_ne hrp]
      exact h r
  · rw [h.write hok p bytes]
    rcases hev with rfl | ⟨rfl, ht⟩
    · exact Iff.rfl
    · constructor
      · intro hn left hl
        rw [ht] at hl
        cases hl
        exact hn
      · intro hw
        exact hw bytes ht
  · refine iff_of_true (h.read p n) ?_
    rcases hev with rfl | ⟨rfl, ht⟩
    · trivial
    · intro left hl
      rw [ht] at hl
      cases hl
  · refine iff_of_true (fun r => ?_) trivial
    unfold PipeSys.close
    cases w
    · refine ⟨fun hr => (h r).1 (wakeAll_eq_some.mp hr).1, fun hr => absurd rfl (wakeAll_eq_some.mp hr).2⟩
    · refine ⟨fun hr => absurd rfl (wakeAll_eq_some.mp hr).2, fun hr => (h r).2 (wakeAll_eq_some.mp hr).1⟩

/-- **No stranded sleeper**, in every run none of whose steps is a write that strands a reader; and in a state
    some run reaches with nobody stranded, a step strands somebody exactly when it is such a write. -/
theorem pipe_attended {data : Arr} {events : List (PipeEvent P)} {s : PipeSys P}
    (h : run pipeStep (PipeSys.init data) events = some s) :
    (Along pipeStep PipeSys.Wakes (PipeSys.init data) events → s.Attended) ∧
    ∀ e s', s.Attended → pipeStep s e = some s' → (s'.Attended ↔ s.Wakes e) := by
  have hf : s.Fifo := run_invariant (PipeSys.Fifo.init data) (fun _ _ _ hi hs => hi.step hs) h
  refine ⟨fun hg => ?_, fun e s' ha hs => ha.step hf.ok hs⟩
  have hinit : (PipeSys.init data : PipeSys P).Fifo ∧ (PipeSys.init data : PipeSys P).Attended :=
    ⟨PipeSys.Fifo.init data, fun p => ⟨nofun, nofun⟩⟩
  refine (run_induct_along (I := fun _ s => s.Fifo ∧ s.Attended) hinit ?_ hg h).2
  rintro _ t e u ⟨hft, hat⟩ hw hs
  exact ⟨hft.step hs, (hat.step hft.ok hs).mpr hw⟩

/-- A reader asleep, woken by a writer that is not killed. -/
theorem pipe_attended_two : ∃ s : PipeSys (Fin 2),
    run pipeStep (PipeSys.init fun _ => 0) [.read 0 1, .write 1 [7]] = some s ∧ s.Attended := by
  obtain ⟨s, hs⟩ := Option.isSome_iff_exists.mp (show (run pipeStep (PipeSys.init fun _ => 0 : PipeSys (Fin 2))
    [.read 0 1, .write 1 [7]]).isSome by decide +kernel)
  refine ⟨s, hs, (pipe_attended hs).1 ?_⟩
  intro before e after t hl _
  have hmem : e ∈ ([.read 0 1, .write 1 [7]] : List (PipeEvent (Fin 2))) := by
    rw [hl]; exact List.mem_append_right _ List.mem_cons_self
  rcases List.mem_cons.mp hmem with rfl | hmem
  · trivial
  · rw [List.mem_singleton.mp hmem]
    rintro ⟨-, hlen, -⟩
    exact absurd hlen (by decide)

/-- **A reader stranded.** The writer fills the pipe and sleeps; the reader drains it and sleeps; the writer is
    killed, goes on, fills the pipe again and returns -1. The reader sleeps in front of a full pipe. -/
theorem pipewrite_strands_reader : ∃ s : PipeSys (Fin 2),
    run pipeStep (PipeSys.init fun _ => 0)
      [.write 1 (List.replicate 1025 7), .read 0 512, .read 0 1, .kill 1, .resume 1] = some s ∧
    s.asleep 0 = some .nread ∧ s.pipe.nread ≠ s.pipe.nwrite ∧ ¬ s.Attended := by
  have hend : (run pipeStep (PipeSys.init fun _ => 0 : PipeSys (Fin 2))
      [.write 1 (List.replicate 1025 7), .read 0 512, .read 0 1, .kill 1, .resume 1]).map
      (fun s => (s.asleep 0, s.pipe.nread, s.pipe.nwrite)) = some (some .nread, 512, 1024) := by decide +kernel
  obtain ⟨s, hs, heq⟩ := Option.map_eq_some_iff.mp hend
  rw [Prod.mk.injEq, Prod.mk.injEq] at heq
  obtain ⟨h1, h2, h3⟩ := heq
  have hne : s.pipe.nread ≠ s.pipe.nwrite := by omega
  exact ⟨s, hs, h1, hne, fun hat => hne ((hat 0).1 h1).1⟩

end Machine

end Xv6
