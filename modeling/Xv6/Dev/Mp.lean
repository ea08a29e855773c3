import Xv6.Lib.Bytes

/-!
# `Dev.Mp` — the MP configuration table (`kernel/mp.c`)

At boot `mpinit` looks for the table that the firmware describes the machine with, checks it and goes through its entries.
All it reads is physical memory, so the model is a function of that. Its loop need not come to an end, and it has no
check of the number of processors: the loop takes a number of steps, and a store past the end of `cpus` is an outcome.
-/

namespace Xv6

open Bytes

/-! ## The code -/

@[simp] abbrev NCPU : Nat := 8

/-- Memory by 32-bit addresses. -/
def phys (mem : Arr) : Arr := fun a => mem (a % 4294967296)

/-- The bytes `sig` at `p`. -/
def hasSig (mem : Arr) (p : Nat) (sig : List UInt8) : Bool := (List.range sig.length).map (fun i => mem (p + i)) == sig

/-- `sum(addr, len)`: as a `uchar`. -/
def mpSum (mem : Arr) (addr : Nat) : Nat → UInt8
  | 0 => 0
  | n + 1 => mpSum mem addr n + mem (addr + n)

/-- `mpsearch1(addr, len)`: a floating pointer structure, every 16 bytes. -/
def mpsearch1 (mem : Arr) (addr len : Nat) : Option Nat :=
  ((List.range (len / 16)).map fun i => addr + 16 * i).find? fun p =>
    decide (p < (addr + len) % 4294967296) && hasSig mem p [95, 77, 80, 95] && decide (mpSum mem p 16 = 0)

/-- `mpsearch()`: in the extended BIOS data area or the last KB of base memory, and in the BIOS ROM. -/
def mpsearch (mem : Arr) : Option Nat :=
  let p := u16 mem 0x40E * 16
  let first := if p ≠ 0 then mpsearch1 mem p 1024 else mpsearch1 mem (usub (u16 mem 0x413 * 1024) 1024) 1024
  first.or (mpsearch1 mem 0xF0000 0x10000)

/-- `mpconfig()`: the address of a table with the right signature, version and checksum. -/
def mpconfig (mem : Arr) : Option Nat :=
  match mpsearch mem with
  | none => none
  | some mp =>
    let conf := u32 mem (mp + 4)
    if conf = 0 then none
    else if hasSig mem conf [80, 67, 77, 80] = false then none
    else if mem (conf + 6) ≠ 1 ∧ mem (conf + 6) ≠ 4 then none
    else if mpSum mem conf (u16 mem (conf + 4)) ≠ 0 then none
    else some conf

/-- The variables of `mpinit`: `bcpu` is an index into `cpus`, `ids` are the indices at which `cpus[].id` was set. -/
structure MpState where
  ismp : Bool
  ncpu : Nat
  lapic : Nat
  ioapicid : UInt8
  bcpu : Nat
  ids : List Nat
deriving Repr, DecidableEq

/-- How far the loop has come: at an end, at a store to `cpus[i]` that has no such element, or still going. -/
inductive MpEnd where
  | done (st : MpState)
  | wild (i : Nat)
  | running
deriving Repr, DecidableEq

/-- After the loop: fall back to no MP when something was not liked. -/
def MpState.finish (st : MpState) : MpState :=
  if st.ismp then st else { st with ncpu := 1, lapic := 0, ioapicid := 0 }

/-- A processor entry up to the store to `cpus[ncpu]`. -/
def MpState.seeProc (st : MpState) (apicid flags : UInt8) : MpState :=
  { st with
    ismp := st.ismp && decide (st.ncpu = apicid.toNat)
    bcpu := if flags &&& 2 ≠ 0 then st.ncpu else st.bcpu }

/-- The processor gets the next element of `cpus`. -/
def MpState.addProc (st : MpState) : MpState := { st with ids := st.ids ++ [st.ncpu], ncpu := st.ncpu + 1 }

/-- The loop of `mpinit`, up to the end `e` of the table. -/
def mpLoop (mem : Arr) (e : Nat) : Nat → Nat → MpState → MpEnd
  | 0, _, _ => .running
  | fuel + 1, p, st =>
    if p < e then
      -- MPPROC
      if mem p = 0 then
        let st := st.seeProc (mem (p + 1)) (mem (p + 3))
        if st.ncpu < NCPU then mpLoop mem e fuel ((p + 20) % 4294967296) st.addProc else .wild st.ncpu
      -- MPIOAPIC
      else if mem p = 2 then mpLoop mem e fuel ((p + 8) % 4294967296) { st with ioapicid := mem (p + 1) }
      -- MPBUS, MPIOINTR, MPLINTR
      else if mem p = 1 ∨ mem p = 3 ∨ mem p = 4 then mpLoop mem e fuel ((p + 8) % 4294967296) st
      -- an unknown type: the loop goes on where it is
      else mpLoop mem e fuel p { st with ismp := false }
    else .done st.finish

/-- The addresses of the first entry and of the end of the table at `conf`. -/
def mpFirst (conf : Nat) : Nat := (conf + 44) % 4294967296

def mpEnd (mem : Arr) (conf : Nat) : Nat := (conf + u16 mem (conf + 4)) % 4294967296

/-- `mpinit()`, for that many trips of its loop. -/
def mpinit (ram : Arr) (fuel : Nat) : MpEnd :=
  let mem := phys ram
  match mpconfig mem with
  | none => .done ⟨false, 0, 0, 0, 0, []⟩
  | some conf => mpLoop mem (mpEnd mem conf) fuel (mpFirst conf) ⟨true, 0, u32 mem (conf + 36), 0, 0, []⟩

/-! ## Tables -/

/-- An entry of a known type, with what `mpinit` reads of it. -/
inductive MpEntry where
  | proc (apicid flags : UInt8)
  | ioapic (apicno : UInt8)
  | other
deriving Repr, DecidableEq

def MpEntry.size : MpEntry → Nat
  | .proc _ _ => 20
  | _ => 8

/-- The entry at `p`; `none` if its type is unknown. -/
def mpEntryAt (mem : Arr) (p : Nat) : Option MpEntry :=
  if mem p = 0 then some (.proc (mem (p + 1)) (mem (p + 3)))
  else if mem p = 2 then some (.ioapic (mem (p + 1)))
  else if mem p = 1 ∨ mem p = 3 ∨ mem p = 4 then some .other
  else none

/-- From `p` on the table consists of these entries, up to its end `e`. -/
inductive MpEntries (mem : Arr) (e : Nat) : Nat → List MpEntry → Prop
  | stop {p : Nat} (hp : ¬p < e) : MpEntries mem e p []
  | next {p : Nat} {x : MpEntry} {rest : List MpEntry} (hp : p < e) (hx : mpEntryAt mem p = some x)
    (hrest : MpEntries mem e ((p + x.size) % 4294967296) rest) : MpEntries mem e p (x :: rest)

/-- How many processors. -/
def procs : List MpEntry → Nat
  | [] => 0
  | .proc _ _ :: rest => procs rest + 1
  | _ :: rest => procs rest

/-- The APIC ids of the processors count up from `n`. -/
def inOrder : Nat → List MpEntry → Bool
  | _, [] => true
  | n, .proc apicid _ :: rest => decide (n = apicid.toNat) && inOrder (n + 1) rest
  | n, _ :: rest => inOrder n rest

/-- What the loop does with an entry. -/
def MpState.see (st : MpState) : MpEntry → MpState
  | .proc apicid flags => (st.seeProc apicid flags).addProc
  | .ioapic apicno => { st with ioapicid := apicno }
  | .other => st

/-! ## The loop -/

variable {mem : Arr} {e p fuel : Nat} {st st' : MpState} {x : MpEntry} {entries : List MpEntry}

/-- A trip of the loop at an entry of a known type. -/
theorem mpLoop_next (hn : st.ncpu ≤ NCPU) (hp : p < e) (hx : mpEntryAt mem p = some x) :
    mpLoop mem e (fuel + 1) p st = if st.ncpu + procs [x] ≤ NCPU then
      mpLoop mem e fuel ((p + x.size) % 4294967296) (st.see x) else .wild st.ncpu := by
  rw [mpLoop, if_pos hp]
  rw [mpEntryAt] at hx
  by_cases h0 : mem p = 0
  · rw [if_pos h0] at hx ⊢
    cases hx
    rfl
  rw [if_neg h0] at hx ⊢
  by_cases h2 : mem p = 2
  · rw [if_pos h2] at hx ⊢
    cases hx
    rw [if_pos (show st.ncpu + procs [.ioapic _] ≤ NCPU from hn)]
    rfl
  rw [if_neg h2] at hx ⊢
  obtain ⟨hother, hx⟩ := Option.ite_none_right_eq_some.1 hx
  cases hx
  rw [if_pos hother, if_pos (show st.ncpu + procs [.other] ≤ NCPU from hn)]
  rfl

/-- At an entry of an unknown type the loop stays for ever. -/
theorem mpLoop_unknown (hp : p < e) (hx : mpEntryAt mem p = none) : mpLoop mem e fuel p st = .running := by
  have h0 : ¬mem p = 0 := fun h => by rw [mpEntryAt, if_pos h] at hx; cases hx
  have h2 : ¬mem p = 2 := fun h => by rw [mpEntryAt, if_neg h0, if_pos h] at hx; cases hx
  have hother : ¬(mem p = 1 ∨ mem p = 3 ∨ mem p = 4) := fun h => by
    rw [mpEntryAt, if_neg h0, if_neg h2, if_pos h] at hx
    cases hx
  induction fuel generalizing st with
  | zero => rfl
  | succ fuel ih => rw [mpLoop, if_pos hp, if_neg h0, if_neg h2, if_neg hother, ih]

theorem see_ncpu : (st.see x).ncpu = st.ncpu + procs [x] := by cases x <;> rfl

theorem procs_cons : procs (x :: entries) = procs [x] + procs entries := by
  cases x with
  | proc apicid flags => exact Nat.add_comm _ _
  | ioapic apicno => exact (Nat.zero_add _).symm
  | other => exact (Nat.zero_add _).symm

theorem see_ismp : (st.see x).ismp = (st.ismp && inOrder st.ncpu [x]) := by
  cases x with
  | proc apicid flags => simp [MpState.see, MpState.seeProc, MpState.addProc, inOrder]
  | ioapic apicno => simp [MpState.see, inOrder]
  | other => simp [MpState.see, inOrder]

theorem inOrder_cons {n : Nat} : inOrder n (x :: entries) = (inOrder n [x] && inOrder (n + procs [x]) entries) := by
  cases x with
  | proc apicid flags => simp [inOrder, procs]
  | ioapic apicno => rfl
  | other => rfl

theorem see_ids (hn : st.ncpu + procs [x] ≤ NCPU) (hids : ∀ i ∈ st.ids, i < NCPU) :
    ∀ i ∈ (st.see x).ids, i < NCPU := by
  cases x with
  | proc apicid flags =>
    intro i hi
    rcases List.mem_append.1 hi with hi | hi
    · exact hids i hi
    · rw [List.mem_singleton.1 hi]
      exact hn
  | ioapic apicno => exact hids
  | other => exact hids

/-- **The loop along a table** with a place for every processor: it ends, it stores to elements of `cpus` only, and it likes
    the table if the processors are in order. -/
theorem mpLoop_entries (h : MpEntries mem e p entries) (hn : st.ncpu + procs entries ≤ NCPU)
    (hids : ∀ i ∈ st.ids, i < NCPU) : ∃ st' : MpState, mpLoop mem e (entries.length + 1) p st = .done st'.finish ∧
      st'.ismp = (st.ismp && inOrder st.ncpu entries) ∧ ∀ i ∈ st'.ids, i < NCPU := by
  induction h generalizing st with
  | stop hp =>
    refine ⟨st, ?_, (Bool.and_true _).symm, hids⟩
    rw [mpLoop, if_neg hp]
  | @next p x rest hp hx hrest ih =>
    rw [procs_cons] at hn
    have hsee : (st.see x).ncpu = st.ncpu + procs [x] := see_ncpu
    obtain ⟨st', hloop, hismp, hids'⟩ := @ih (st.see x) (by omega) (see_ids (by omega) hids)
    refine ⟨st', ?_, ?_, hids'⟩
    · rw [List.length_cons, mpLoop_next (by omega) hp hx, if_pos (by omega), hloop]
    · rw [hismp, see_ismp, hsee, Bool.and_assoc, ← inOrder_cons]

/-- **A run of the loop that ends** has gone along a table with a place for every processor. -/
theorem mpLoop_done (hn : st.ncpu ≤ NCPU) (hloop : mpLoop mem e fuel p st = .done st') :
    ∃ entries, MpEntries mem e p entries ∧ st.ncpu + procs entries ≤ NCPU := by
  induction fuel generalizing p st with
  | zero => cases hloop
  | succ fuel ih =>
    by_cases hp : p < e
    · cases hx : mpEntryAt mem p with
      | none =>
        rw [mpLoop_unknown hp hx] at hloop
        cases hloop
      | some x =>
        rw [mpLoop_next hn hp hx] at hloop
        by_cases hroom : st.ncpu + procs [x] ≤ NCPU
        · rw [if_pos hroom] at hloop
          have hsee : (st.see x).ncpu = st.ncpu + procs [x] := see_ncpu
          obtain ⟨entries, hentries, hprocs⟩ := ih (by omega) hloop
          refine ⟨x :: entries, .next hp hx hentries, ?_⟩
          rw [procs_cons]
          omega
        · rw [if_neg hroom] at hloop
          cases hloop
    · exact ⟨[], .stop hp, hn⟩

/-! ## Every table -/

/-- A table that can be handled: entries of known types, and at most `NCPU` processors with their ids in order. -/
def MpHandled (mem : Arr) (conf : Nat) : Prop :=
  ∃ entries, MpEntries mem (mpEnd mem conf) (mpFirst conf) entries ∧ procs entries ≤ NCPU ∧ inOrder 0 entries = true

/-- **`mpinit` copes with the table**: it ends, having set elements of `cpus` only, and falls back to a single CPU if the
    table cannot be handled. -/
def MpRobust (ram : Arr) (conf : Nat) : Prop :=
  ∃ fuel st, mpinit ram fuel = .done st ∧ (∀ i ∈ st.ids, i < NCPU) ∧
    (¬MpHandled (phys ram) conf → st.ismp = false ∧ st.ncpu = 1 ∧ st.lapic = 0 ∧ st.ioapicid = 0)

theorem finish_ids : st.finish.ids = st.ids := by
  rw [MpState.finish]
  split <;> rfl

variable {ram : Arr} {conf : Nat}

/-- **`mpinit` copes with a table that passes the tests** exactly when all its entries are of known types and at most `NCPU`
    of them are processors. -/
theorem mpinit_robust_iff (hconf : mpconfig (phys ram) = some conf) :
    MpRobust ram conf ↔
      ∃ entries, MpEntries (phys ram) (mpEnd (phys ram) conf) (mpFirst conf) entries ∧ procs entries ≤ NCPU := by
  constructor
  · rintro ⟨fuel, st, hrun, -, -⟩
    rw [mpinit, hconf] at hrun
    obtain ⟨entries, hentries, hprocs⟩ := mpLoop_done (Nat.zero_le _) hrun
    exact ⟨entries, hentries, by rwa [Nat.zero_add] at hprocs⟩
  · rintro ⟨entries, hentries, hprocs⟩
    have hstart : 0 + procs entries ≤ NCPU := by rwa [Nat.zero_add]
    obtain ⟨st, hloop, hismp, hids⟩ := @mpLoop_entries _ _ _ ⟨true, 0, u32 (phys ram) (conf + 36), 0, 0, []⟩ _
      hentries hstart fun i hi => absurd hi List.not_mem_nil
    refine ⟨entries.length + 1, st.finish, ?_, by rwa [finish_ids], fun hnot => ?_⟩
    · rw [mpinit, hconf]
      exact hloop
    · have hout : inOrder 0 entries = false := Bool.eq_false_iff.2 fun hin => hnot ⟨entries, hentries, hprocs, hin⟩
      rw [hout, Bool.and_false] at hismp
      rw [MpState.finish, hismp, if_neg Bool.false_ne_true]
      exact ⟨rfl, rfl, rfl, rfl⟩

/-- Memory with a floating pointer structure in the BIOS ROM that points to a table at `0x9000`. -/
def tableMem (table : List UInt8) : Arr := fun a =>
  if 0xF0000 ≤ a then [95, 77, 80, 95, 0, 0x90, 0, 0, 1, 4, 16].getD (a - 0xF0000) 0
  else if 0x9000 ≤ a then table.getD (a - 0x9000) 0
  else 0

/-- A table that checks, of that length and with these entries. -/
def mpTable (length checksum : UInt8) (entries : List UInt8) : List UInt8 :=
  [80, 67, 77, 80, length, 0, 4, checksum] ++ List.replicate 36 0 ++ entries

/-- One processor. -/
def oneCpu : Arr := tableMem (mpTable 64 138 [0, 0, 0, 2])

theorem mpinit_robust_iff_one : mpconfig (phys oneCpu) = some 0x9000 ∧ MpRobust oneCpu 0x9000 := by
  have hconf : mpconfig (phys oneCpu) = some 0x9000 := by decide +kernel
  refine ⟨hconf, (mpinit_robust_iff hconf).2 ⟨[.proc 0 2], .next ?_ ?_ (.stop ?_), by decide⟩⟩
  · decide +kernel
  · decide +kernel
  · decide +kernel

/-- One entry, of type 5. -/
def unknownType : Arr := tableMem (mpTable 45 154 [5])

/-- Nine processors, with their ids in order. -/
def nineCpus : Arr :=
  tableMem (mpTable 224 200 ((List.range 9).flatMap fun i => [0, UInt8.ofNat i] ++ List.replicate 18 0))

/-- At an entry of an unknown type `mpinit` goes on for ever, and the ninth processor is stored past the end of `cpus`. -/
theorem mpinit_not_robust :
    (mpconfig (phys unknownType) = some 0x9000 ∧ ¬MpRobust unknownType 0x9000 ∧
      ∀ fuel, mpinit unknownType fuel = .running) ∧
      mpconfig (phys nineCpus) = some 0x9000 ∧ mpinit nineCpus 9 = .wild 8 := by
  have hconf : mpconfig (phys unknownType) = some 0x9000 := by decide +kernel
  have hforever : ∀ fuel, mpinit unknownType fuel = .running := fun fuel => by
    rw [mpinit, hconf]
    exact mpLoop_unknown (by decide +kernel) (by decide +kernel)
  refine ⟨⟨hconf, ?_, hforever⟩, by decide +kernel, by decide +kernel⟩
  rintro ⟨fuel, st, hrun, -, -⟩
  rw [hforever] at hrun
  cases hrun

end Xv6
