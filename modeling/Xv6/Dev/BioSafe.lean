import Xv6.Dev.Bio

/-!
# `Dev.BioSafe` — the buffer cache is a plain disk

Callers see a disk: `bread` returns what the last `bwrite` wrote there. The reason is a chain of small facts. A busy
buffer has one holder; a request in the disk queue has a process that waits for it and does nothing else; the
command the disk works on is the one at the head of the queue, with the bytes the buffer still has. So a buffer
that is valid and not about to be written holds what is on the disk, unless its holder has changed it.
-/

namespace Xv6

open Machine

/-! ## Conditions -/

/-- A drive that exists and a sector number that the disk understands. -/
def InDisk (dev sector : UInt32) : Prop := dev ≤ 1 ∧ sector < 0x10000000

instance (dev sector : UInt32) : Decidable (InDisk dev sector) := inferInstanceAs (Decidable (_ ∧ _))

theorem InDisk.diskAddr {dev sector : UInt32} (h : InDisk dev sector) :
    BufSys.diskAddr dev sector = (dev, sector) := by
  obtain ⟨hdev, hsec⟩ := h
  have h1 : dev &&& 1 = dev := by
    apply UInt32.toNat_inj.mp
    rw [UInt32.toNat_and]
    have : dev.toNat ≤ 1 := hdev
    show dev.toNat &&& (2 ^ 1 - 1) = dev.toNat
    rw [Nat.and_two_pow_sub_one_eq_mod]
    omega
  have h2 : sector &&& 0x0fffffff = sector := by
    apply UInt32.toNat_inj.mp
    rw [UInt32.toNat_and]
    have : sector.toNat < 2 ^ 28 := hsec
    show sector.toNat &&& (2 ^ 28 - 1) = sector.toNat
    rw [Nat.and_two_pow_sub_one_eq_mod]
    omega
  rw [BufSys.diskAddr, h1, h2]

variable {P D : Type}

/-- **What is asked of callers**: to read from the disk, and to `bwrite` a buffer they changed before they release
    it. -/
def BioGood (s : BufSys P D) : BufEvent P D → Prop
  | .bread _ dev sector => InDisk dev sector
  | .brelse _ b => s.changed b = false
  | _ => True

instance (s : BufSys P D) (e : BufEvent P D) : Decidable (BioGood s e) := by
  cases e <;> unfold BioGood <;> infer_instance

/-- A plain disk: what is where after the calls of the log. -/
def plainDisk (disk₀ : DiskAddr → D) : List (BufLog D) → DiskAddr → D
  | [], a => disk₀ a
  | .bread _ _ _ :: l, a => plainDisk disk₀ l a
  | .bwrite dev sector d :: l, a => if a = (dev, sector) then d else plainDisk disk₀ l a

/-- Every `bread` of the log returned what was there. -/
def ReadsOk (disk₀ : DiskAddr → D) : List (BufLog D) → Prop
  | [] => True
  | .bread dev sector d :: l => ReadsOk disk₀ l ∧ d = plainDisk disk₀ l (dev, sector)
  | .bwrite _ _ _ :: l => ReadsOk disk₀ l

theorem ReadsOk.bread {disk₀ : DiskAddr → D} {post pre : List (BufLog D)} {dev sector : UInt32} {d : D}
    (h : ReadsOk disk₀ (post ++ .bread dev sector d :: pre)) : d = plainDisk disk₀ pre (dev, sector) := by
  induction post with
  | nil => exact h.2
  | cons x post ih =>
    cases x with
    | bread dev' sector' d' => exact ih h.1
    | bwrite dev' sector' d' => exact ih h

/-! ## The invariant -/

/-- The buffer that a call in progress is about. -/
def BufPc.buf : BufPc → Option BufId
  | .got b | .calling b _ | .waiting b _ => some b
  | _ => none

/-- A request for `b` that the disk has not completed. -/
def BufSys.Pending (s : BufSys P D) (b : BufId) : RwKind → Prop
  | .read => s.valid b = false
  | .write => s.dirty b = true

/-- **The invariant of the cache.** -/
structure BufSys.Inv (disk₀ : DiskAddr → D) (s : BufSys P D) : Prop where
  listed : ∀ b, b ∈ s.lru
  asked : ∀ p dev sector, s.pc p = .getting dev sector → InDisk dev sector
  fresh : ∀ b, ¬ InDisk (s.dev b) (s.sector b) → s.busy b = false ∧ s.valid b = false
  unique : ∀ b b', InDisk (s.dev b) (s.sector b) → s.dev b = s.dev b' → s.sector b = s.sector b' → b = b'
  held : ∀ p b, b ∈ s.held p → s.busy b = true
  owner : ∀ b, s.busy b = true → ∃ p, b ∈ s.held p
  oneOwner : ∀ p q b, b ∈ s.held p → b ∈ s.held q → p = q
  nodup : ∀ p, (s.held p).Nodup
  pcHeld : ∀ p b, (s.pc p).buf = some b → b ∈ s.held p
  changed : ∀ b, s.changed b = true → s.busy b = true
  unchanged : ∀ p b, (s.pc p).buf = some b → s.changed b = false
  dirty : ∀ b, s.dirty b = true → ∃ p, s.pc p = .calling b .write ∨ s.pc p = .waiting b .write
  calling : ∀ p b, s.pc p = .calling b .write → s.dirty b = true
  missing : ∀ p b, s.pc p = .calling b .read → s.valid b = false
  queued : ∀ b, b ∈ s.idequeue → ∃ p k, s.pc p = .waiting b k ∧ s.Pending b k
  queue : s.idequeue.Nodup
  cmd : s.cmd = s.idequeue.head?.map s.idestart
  coherent : ∀ b, s.valid b = true → s.dirty b = false → s.changed b = false →
    s.data b = s.disk (s.dev b, s.sector b)
  written : ∀ dev sector, InDisk dev sector → plainDisk disk₀ s.log (dev, sector) = s.disk (dev, sector) ∨
    ∃ p b, s.pc p = .waiting b .write ∧ s.dirty b = false ∧ s.dev b = dev ∧ s.sector b = sector
  reads : ReadsOk disk₀ s.log

namespace BufSys.Inv

variable [DecidableEq P] {disk₀ : DiskAddr → D} {e : BufEvent P D} {s s' : BufSys P D}

attribute [local simp] BufSys.ret BufSys.ideintr BufSys.brelse Function.update_apply

theorem listed_move (h : s.Inv disk₀) (hm : BufMove e s s') (b : BufId) : b ∈ s'.lru := by
  have hl := h.listed
  cases hm with
  | brelse p b' he hp hb =>
    show b ∈ b' :: s.lru.erase b'
    by_cases hbb : b = b'
    · rw [hbb]
      exact List.mem_cons_self
    · exact List.mem_cons_of_mem _ ((List.mem_erase_of_ne hbb).mpr (hl b))
  | _ => exact hl b

theorem asked_move (h : s.Inv disk₀) (hg : BioGood s e) (hm : BufMove e s s') (p : P) (dev sector : UInt32)
    (hp : s'.pc p = .getting dev sector) : InDisk dev sector := by
  have ha := h.asked
  cases hm <;> simp at hp <;> grind [BioGood]

omit [DecidableEq P] in
theorem pc_busy (h : s.Inv disk₀) {p : P} {b : BufId} (hp : (s.pc p).buf = some b) : s.busy b = true :=
  h.held p b (h.pcHeld p b hp)

omit [DecidableEq P] in
/-- At most one call in progress is about a buffer. -/
theorem pc_unique (h : s.Inv disk₀) {p q : P} {b : BufId} (hp : (s.pc p).buf = some b)
    (hq : (s.pc q).buf = some b) : p = q :=
  h.oneOwner p q b (h.pcHeld p b hp) (h.pcHeld q b hq)

omit [DecidableEq P] in
/-- A queued buffer has a holder, who waits for it. -/
theorem queued_busy (h : s.Inv disk₀) {b : BufId} (hb : b ∈ s.idequeue) : s.busy b = true := by
  obtain ⟨p, k, hp, -⟩ := h.queued b hb
  exact h.pc_busy (p := p) (by simp [hp, BufPc.buf])

omit [DecidableEq P] in
theorem inDisk_of_busy (h : s.Inv disk₀) {b : BufId} (hb : s.busy b = true) : InDisk (s.dev b) (s.sector b) := by
  by_contra hout
  simp [(h.fresh b hout).1] at hb

theorem fresh_move (h : s.Inv disk₀) (hm : BufMove e s s') (b : BufId) (hb : ¬ InDisk (s'.dev b) (s'.sector b)) :
    s'.busy b = false ∧ s'.valid b = false := by
  have ha := h.asked
  have hf := h.fresh
  cases hm with
  | intr c b' rest hc hq =>
    have hbusy := h.queued_busy (b := b') (by simp [hq])
    simp at hb ⊢
    grind
  | _ => simp at hb ⊢; grind

theorem unique_move (h : s.Inv disk₀) (hm : BufMove e s s') (b b' : BufId)
    (hb : InDisk (s'.dev b) (s'.sector b)) (hd : s'.dev b = s'.dev b') (hs : s'.sector b = s'.sector b') :
    b = b' := by
  have hu := h.unique
  -- a label is given to a buffer only when no buffer in the list has it
  have hl := h.listed
  cases hm <;> simp at hb hd hs ⊢ <;> grind

/-! ### Holders -/

theorem held_move (h : s.Inv disk₀) (hm : BufMove e s s') (p : P) (b : BufId) (hb : b ∈ s'.held p) :
    s'.busy b = true := by
  have hh := h.held
  cases hm with
  | brelse q b' he hq hb' =>
    have hone := h.oneOwner
    have hnd := h.nodup q
    simp at hb ⊢
    grind [List.Nodup.mem_erase_iff]
  | _ => simp at hb ⊢; grind

/-- Who takes one more buffer still holds the others. -/
theorem exists_held_cons (held : P → List BufId) (q : P) {b b' : BufId} (h : b = b' ∨ ∃ p, b ∈ held p) :
    ∃ p, b ∈ Function.update held q (b' :: held q) p := by
  rcases h with rfl | ⟨p, hp⟩
  · exact ⟨q, by simp⟩
  · by_cases hpq : p = q
    · exact ⟨q, by simp [hpq ▸ hp]⟩
    · exact ⟨p, by simpa [hpq] using hp⟩

theorem owner_move (h : s.Inv disk₀) (hm : BufMove e s s') (b : BufId) (hb : s'.busy b = true) :
    ∃ p, b ∈ s'.held p := by
  have ho := h.owner
  cases hm with
  | hit q b' | recycle q dev sector b' =>
    refine exists_held_cons s.held q ?_
    by_cases hbb : b = b'
    · exact .inl hbb
    · exact .inr (ho b (by simpa [hbb] using hb))
  | brelse q b' =>
    simp at hb ⊢
    grind
  | _ => exact ho b hb

theorem oneOwner_move (h : s.Inv disk₀) (hm : BufMove e s s') (p q : P) (b : BufId) (hp : b ∈ s'.held p)
    (hq : b ∈ s'.held q) : p = q := by
  have hone := h.oneOwner
  have hh := h.held
  cases hm <;> simp at hp hq ⊢ <;> grind [List.mem_of_mem_erase]

theorem nodup_move (h : s.Inv disk₀) (hm : BufMove e s s') (p : P) : (s'.held p).Nodup := by
  have hnd := h.nodup
  have hh := h.held
  cases hm <;> simp <;> grind [List.Nodup.erase]

theorem pcHeld_move (h : s.Inv disk₀) (hm : BufMove e s s') (p : P) (b : BufId)
    (hb : (s'.pc p).buf = some b) : b ∈ s'.held p := by
  have hph := h.pcHeld
  cases hm <;> simp at hb ⊢ <;> grind [BufPc.buf]

/-! ### Changes and requests -/

theorem changed_move (h : s.Inv disk₀) (hg : BioGood s e) (hm : BufMove e s s') (b : BufId)
    (hb : s'.changed b = true) : s'.busy b = true := by
  have hc := h.changed
  have hh := h.held
  cases hm with
  | brelse q b' he hq hb' =>
    -- this is where a holder must have written back what it changed
    subst he
    simp only [BioGood] at hg
    simp at hb ⊢
    grind
  | _ => simp at hb ⊢; grind

theorem unchanged_move (h : s.Inv disk₀) (hm : BufMove e s s') (p : P) (b : BufId)
    (hb : (s'.pc p).buf = some b) : s'.changed b = false := by
  have hu := h.unchanged
  have hc := h.changed
  have hone := h.oneOwner
  have hph := h.pcHeld
  cases hm <;> simp at hb ⊢ <;> grind [BufPc.buf]

theorem dirty_move (h : s.Inv disk₀) (hm : BufMove e s s') (b : BufId) (hb : s'.dirty b = true) :
    ∃ p, s'.pc p = .calling b .write ∨ s'.pc p = .waiting b .write := by
  have hd := h.dirty
  cases hm <;> simp at hb ⊢ <;> grind

omit [DecidableEq P] in
/-- A buffer about which `iderw` is still to be called is not in the queue. -/
theorem calling_notMem (h : s.Inv disk₀) {p : P} {b : BufId} {k : RwKind} (hp : s.pc p = .calling b k) :
    b ∉ s.idequeue := by
  intro hb
  obtain ⟨r, k', hr, -⟩ := h.queued b hb
  obtain rfl := h.pc_unique (p := p) (q := r) (b := b) (by simp [hp, BufPc.buf]) (by simp [hr, BufPc.buf])
  simp [hp] at hr

theorem calling_move (h : s.Inv disk₀) (hm : BufMove e s s') (p : P) (b : BufId)
    (hp : s'.pc p = .calling b .write) : s'.dirty b = true := by
  have hc := h.calling
  have hbusy := fun q b' (hq : s.pc q = .calling b' .write) =>
    h.pc_busy (p := q) (b := b') (by simp [hq, BufPc.buf])
  cases hm with
  | intr c b' rest hcmd hq =>
    have hp : s.pc p = .calling b .write := hp
    have hnot := h.calling_notMem hp
    have hne : b ≠ b' := by
      rintro rfl
      simp [hq] at hnot
    simp [hne, hc p b hp]
  | _ => simp at hp ⊢; grind

theorem missing_move (h : s.Inv disk₀) (hm : BufMove e s s') (p : P) (b : BufId)
    (hp : s'.pc p = .calling b .read) : s'.valid b = false := by
  have hmiss := h.missing
  cases hm with
  | intr c b' rest hcmd hq =>
    have hp : s.pc p = .calling b .read := hp
    have hnot := h.calling_notMem hp
    have hne : b ≠ b' := by
      rintro rfl
      simp [hq] at hnot
    simp [hne, hmiss p b hp]
  | _ => simp at hp ⊢; grind

theorem queued_move (h : s.Inv disk₀) (hm : BufMove e s s') (b : BufId) (hb : b ∈ s'.idequeue) :
    ∃ p k, s'.pc p = .waiting b k ∧ s'.Pending b k := by
  have hq := h.queued
  cases hm with
  | iderw p b' k hp =>
    rcases List.mem_append.mp hb with hb | hb
    · obtain ⟨r, k', hr, hd⟩ := hq b hb
      have hne : r ≠ p := by
        rintro rfl
        simp [hr] at hp
      exact ⟨r, k', by simpa [hne] using hr, hd⟩
    · obtain rfl := List.mem_singleton.mp hb
      refine ⟨p, k, by simp, ?_⟩
      cases k with
      | read => exact h.missing p b hp
      | write => exact h.calling p b hp
  | intr c b' rest hcmd hqueue =>
    have hnd := h.queue
    rw [hqueue, List.nodup_cons] at hnd
    obtain ⟨r, k, hr, hd⟩ := hq b (by rw [hqueue]; exact List.mem_cons_of_mem _ hb)
    have hne : b ≠ b' := fun heq => hnd.1 (heq ▸ hb)
    refine ⟨r, k, hr, ?_⟩
    cases k <;> simpa [BufSys.Pending, hne] using hd
  | _ =>
    -- no other move touches a buffer in the queue or the process that waits for it
    obtain ⟨r, k, hr, hd⟩ := hq b hb
    have hbusy := h.queued_busy hb
    refine ⟨r, k, ?_⟩
    cases k <;> simp [BufSys.Pending] at hd ⊢ <;> grind

theorem queue_move (h : s.Inv disk₀) (hm : BufMove e s s') : s'.idequeue.Nodup := by
  have hnd := h.queue
  cases hm with
  | iderw p b k hp =>
    show (s.idequeue ++ [b]).Nodup
    exact hnd.append (List.nodup_singleton b) (by simpa using h.calling_notMem hp)
  | intr c b rest hcmd hq =>
    rw [hq] at hnd
    exact hnd.of_cons
  | _ => exact hnd

/-! ### The command the disk works on -/

omit [DecidableEq P] in
/-- A buffer that its holder can use is not in the queue. -/
theorem idle_notMem (h : s.Inv disk₀) {p : P} {b : BufId} (hp : s.pc p = .idle) (hb : b ∈ s.held p) :
    b ∉ s.idequeue := by
  intro hq
  obtain ⟨r, k, hr, -⟩ := h.queued b hq
  obtain rfl := h.oneOwner p r b hb (h.pcHeld r b (by simp [hr, BufPc.buf]))
  simp [hp] at hr

omit [DecidableEq P] in
theorem cmd_of (h : s.Inv disk₀) (hc : s'.cmd = s.cmd) (hq : s'.idequeue = s.idequeue)
    (hsame : ∀ b ∈ s.idequeue, s'.idestart b = s.idestart b) : s'.cmd = s'.idequeue.head?.map s'.idestart := by
  rw [hc, hq, h.cmd]
  cases hqueue : s.idequeue with
  | nil => rfl
  | cons b rest =>
    rw [List.head?_cons, Option.map_some, Option.map_some, hsame b (by simp [hqueue])]

theorem cmd_move (h : s.Inv disk₀) (hm : BufMove e s s') : s'.cmd = s'.idequeue.head?.map s'.idestart := by
  cases hm with
  | iderw p b k hp =>
    show (if s.idequeue = [] then some (s.idestart b) else s.cmd) = (s.idequeue ++ [b]).head?.map s.idestart
    cases hq : s.idequeue with
    | nil => rfl
    | cons b' rest => simp [h.cmd, hq]
  | intr c b rest hcmd hq => rfl
  | recycle p dev sector b hp hnone hb =>
    refine h.cmd_of rfl rfl fun b' hb' => ?_
    have hne : b' ≠ b := by
      rintro rfl
      simp [h.queued_busy hb'] at hb
    simp [BufSys.idestart, hne]
  | bwrite p b hp hb | modify p b d hp hb =>
    refine h.cmd_of rfl rfl fun b' hb' => ?_
    have hne : b' ≠ b := fun heq => h.idle_notMem hp hb (heq ▸ hb')
    simp [BufSys.idestart, hne]
  | _ => exact h.cmd_of rfl rfl fun _ _ => rfl

/-! ### What the buffers hold -/

omit [DecidableEq P] in
/-- The command for the buffer at the head of the queue. -/
theorem cmd_head (h : s.Inv disk₀) {c : IdeCmd D} {b : BufId} {rest : List BufId} (hc : s.cmd = some c)
    (hq : s.idequeue = b :: rest) :
    c.addr = (s.dev b, s.sector b) ∧ c.data = if s.dirty b then some (s.data b) else none := by
  have hcmd := h.cmd
  rw [hc, hq, List.head?_cons, Option.map_some] at hcmd
  cases hcmd
  have hin := h.inDisk_of_busy (h.queued_busy (b := b) (by simp [hq]))
  exact ⟨hin.diskAddr, rfl⟩

omit [DecidableEq P] in
/-- The disk and the data after an interrupt. -/
theorem ideintr_disk (h : s.Inv disk₀) {c : IdeCmd D} {b : BufId} {rest : List BufId} (hc : s.cmd = some c)
    (hq : s.idequeue = b :: rest) (a : DiskAddr) : (s.ideintr c b rest).disk a =
      if s.dirty b = true ∧ a = (s.dev b, s.sector b) then s.data b else s.disk a := by
  obtain ⟨haddr, hdata⟩ := h.cmd_head hc hq
  cases hd : s.dirty b <;> simp [hdata, haddr, hd]

omit [DecidableEq P] in
theorem ideintr_data (h : s.Inv disk₀) {c : IdeCmd D} {b : BufId} {rest : List BufId} (hc : s.cmd = some c)
    (hq : s.idequeue = b :: rest) (b' : BufId) : (s.ideintr c b rest).data b' =
      if s.dirty b = false ∧ b' = b then s.disk (s.dev b, s.sector b) else s.data b' := by
  obtain ⟨haddr, hdata⟩ := h.cmd_head hc hq
  cases hd : s.dirty b <;> simp [hdata, haddr, hd]

theorem coherent_move (h : s.Inv disk₀) (hm : BufMove e s s') (b : BufId) (hv : s'.valid b = true)
    (hd : s'.dirty b = false) (hc : s'.changed b = false) : s'.data b = s'.disk (s'.dev b, s'.sector b) := by
  have hco := h.coherent
  cases hm with
  | intr c b' rest hcmd hq =>
    rw [h.ideintr_data hcmd hq, h.ideintr_disk hcmd hq]
    by_cases hbb : b = b'
    · subst hbb
      cases hdirty : s.dirty b <;> simp
    · -- another buffer has another address
      have hin := h.inDisk_of_busy (h.queued_busy (b := b') (by simp [hq]))
      have haddr : (s.dev b, s.sector b) ≠ (s.dev b', s.sector b') := by
        intro heq
        obtain ⟨h1, h2⟩ := Prod.mk.inj heq
        exact hbb (h.unique b' b hin h1.symm h2.symm).symm
      have hold := hco b (by simpa [hbb] using hv) (by simpa [hbb] using hd) hc
      simpa [hbb, haddr] using hold
  | _ => simp at hv hd hc ⊢; grind

omit [DecidableEq P] in
/-- A move that changes neither the log nor the disk at an address, nor a `bwrite` that is complete on disk. -/
theorem written_of (h : s.Inv disk₀) {dev sector : UInt32} (hin : InDisk dev sector)
    (hlog : plainDisk disk₀ s'.log (dev, sector) = plainDisk disk₀ s.log (dev, sector))
    (hdisk : s'.disk (dev, sector) = s.disk (dev, sector))
    (hkeep : ∀ q b, s.pc q = .waiting b .write → s.dirty b = false → s.dev b = dev → s.sector b = sector →
      s'.pc q = .waiting b .write ∧ s'.dirty b = false ∧ s'.dev b = dev ∧ s'.sector b = sector) :
    plainDisk disk₀ s'.log (dev, sector) = s'.disk (dev, sector) ∨
      ∃ p b, s'.pc p = .waiting b .write ∧ s'.dirty b = false ∧ s'.dev b = dev ∧ s'.sector b = sector := by
  rw [hlog, hdisk]
  rcases h.written dev sector hin with hold | ⟨q, b, hq, hd, hdev, hsec⟩
  · exact .inl hold
  · exact .inr ⟨q, b, hkeep q b hq hd hdev hsec⟩

theorem written_move (h : s.Inv disk₀) (hm : BufMove e s s') (dev sector : UInt32) (hin : InDisk dev sector) :
    plainDisk disk₀ s'.log (dev, sector) = s'.disk (dev, sector) ∨
      ∃ p b, s'.pc p = .waiting b .write ∧ s'.dirty b = false ∧ s'.dev b = dev ∧ s'.sector b = sector := by
  have hbusy := fun q b (hq : s.pc q = .waiting b .write) =>
    h.pc_busy (p := q) (b := b) (by simp [hq, BufPc.buf])
  have hheld := fun q b (hq : s.pc q = .waiting b .write) => h.pcHeld q b (by simp [hq, BufPc.buf])
  have hone := h.oneOwner
  cases hm with
  | ret p b k hp hv =>
    cases k with
    | read =>
      refine h.written_of hin rfl rfl fun q b' hq hd hdev hsec => ?_
      simp
      grind
    | write =>
      obtain ⟨hp, hd⟩ : s.pc p = .waiting b .write ∧ s.dirty b = false := by simpa using hp
      by_cases haddr : (dev, sector) = (s.dev b, s.sector b)
      · -- what `bwrite` has just written
        have hun := h.unchanged p b (by simp [hp, BufPc.buf])
        left
        show (if (dev, sector) = (s.dev b, s.sector b) then s.data b else plainDisk disk₀ s.log (dev, sector)) =
          s.disk (dev, sector)
        rw [if_pos haddr, haddr, h.coherent b hv hd hun]
      · refine h.written_of hin (if_neg haddr) rfl fun q b' hq hd' hdev hsec => ?_
        have hne : q ≠ p := by
          rintro rfl
          rw [hp] at hq
          cases hq
          exact haddr (by rw [hdev, hsec])
        exact ⟨by simpa [hne] using hq, hd', hdev, hsec⟩
  | intr c b rest hcmd hq =>
    by_cases hw : s.dirty b = true ∧ (dev, sector) = (s.dev b, s.sector b)
    · -- on disk now, and `bwrite` has yet to return
      obtain ⟨hd, haddr⟩ := hw
      obtain ⟨hdev, hsec⟩ := Prod.mk.inj haddr
      obtain ⟨p, hp | hp⟩ := h.dirty b hd
      · exact absurd (by simp [hq]) (h.calling_notMem hp)
      · exact .inr ⟨p, b, hp, by simp, hdev.symm, hsec.symm⟩
    · refine h.written_of hin rfl ?_ fun q b' hq' hd hdev hsec => ⟨hq', ?_, hdev, hsec⟩
      · rw [h.ideintr_disk hcmd hq, if_neg hw]
      · simp [hd]
  | _ =>
    refine h.written_of hin rfl rfl fun q b' hq hd hdev hsec => ?_
    simp
    grind

theorem reads_move (h : s.Inv disk₀) (hm : BufMove e s s') : ReadsOk disk₀ s'.log := by
  cases hm with
  | ret p b k hp hv =>
    cases k with
    | write => exact h.reads
    | read =>
      refine ⟨h.reads, ?_⟩
      have hbuf : (s.pc p).buf = some b := by rcases hp with ⟨hp, -⟩ | ⟨hp, -⟩ <;> simp [hp, BufPc.buf]
      -- nobody else writes to the buffer that `p` holds
      have hmine : ∀ q, s.pc q = .waiting b .write → False := by
        intro q hq
        obtain rfl := h.pc_unique hbuf (q := q) (by simp [hq, BufPc.buf])
        simp [hq] at hp
      have hd : s.dirty b = false := by
        by_contra hd
        obtain ⟨q, hq | hq⟩ := h.dirty b (by simpa using hd)
        · obtain rfl := h.pc_unique hbuf (q := q) (by simp [hq, BufPc.buf])
          simp [hq] at hp
        · exact hmine q hq
      have hin := h.inDisk_of_busy (h.pc_busy hbuf)
      rw [h.coherent b hv hd (h.unchanged p b hbuf)]
      rcases h.written _ _ hin with hw | ⟨q, b', hq, -, hdev, hsec⟩
      · exact hw.symm
      · obtain rfl := h.unique b b' hin hdev.symm hsec.symm
        exact (hmine q hq).elim
  | _ => exact h.reads

/-- Every step that meets the condition keeps the invariant. -/
theorem step {havedisk1 : Bool} (h : s.Inv disk₀) (hg : BioGood s e) (hs : bufStep havedisk1 s e = some s') :
    s'.Inv disk₀ := by
  rcases bufStep_move hs with rfl | hm
  · exact h
  · exact {
      listed := h.listed_move hm
      asked := h.asked_move hg hm
      fresh := h.fresh_move hm
      unique := h.unique_move hm
      held := h.held_move hm
      owner := h.owner_move hm
      oneOwner := h.oneOwner_move hm
      nodup := h.nodup_move hm
      pcHeld := h.pcHeld_move hm
      changed := h.changed_move hg hm
      unchanged := h.unchanged_move hm
      dirty := h.dirty_move hm
      calling := h.calling_move hm
      missing := h.missing_move hm
      queued := h.queued_move hm
      queue := h.queue_move hm
      cmd := h.cmd_move hm
      coherent := h.coherent_move hm
      written := h.written_move hm
      reads := h.reads_move hm }

omit [DecidableEq P] in
theorem init (disk₀ : DiskAddr → D) (d₀ : D) : (BufSys.init disk₀ d₀ : BufSys P D).Inv disk₀ := by
  have hout : ¬ InDisk 0xffffffff 0 := by decide
  constructor <;> simp [BufSys.init, hout, BufPc.buf, plainDisk, ReadsOk]

end BufSys.Inv

/-! ## The result -/

/-- **The buffer cache is a plain disk** for any number of processes, any interleaving with the disk and any
    evictions, if callers meet the condition: at most one buffer stands for a sector; at most one process holds a
    buffer, and it is busy; a buffer that is valid and not busy holds the bytes on disk and is not dirty; and every
    `bread` returned the bytes of the last `bwrite` before it, or what the disk held at first. -/
theorem bio_refines_disk [DecidableEq P] {havedisk1 : Bool} {disk₀ : DiskAddr → D} {d₀ : D}
    {es : List (BufEvent P D)} {s : BufSys P D}
    (h : run (bufStep havedisk1) (BufSys.init disk₀ d₀) es = some s)
    (hg : Along (bufStep havedisk1) BioGood (BufSys.init disk₀ d₀) es) :
    (∀ b b', InDisk (s.dev b) (s.sector b) → s.dev b = s.dev b' → s.sector b = s.sector b' → b = b') ∧
      (∀ p q b, b ∈ s.held p → s.busy b = true ∧ (b ∈ s.held q → p = q)) ∧
      (∀ b, s.busy b = false → s.valid b = true →
        s.data b = s.disk (BufSys.diskAddr (s.dev b) (s.sector b)) ∧ s.dirty b = false) ∧
      ∀ post dev sector d pre, s.log = post ++ .bread dev sector d :: pre →
        d = plainDisk disk₀ pre (dev, sector) := by
  have hinv : s.Inv disk₀ :=
    run_induct_along (I := fun _ s => s.Inv disk₀) (.init disk₀ d₀) (fun _ _ _ _ hi hgood hs => hi.step hgood hs) hg h
  refine ⟨hinv.unique, fun p q b hb => ⟨hinv.held p b hb, hinv.oneOwner p q b hb⟩, fun b hbusy hv => ?_,
    fun post dev sector d pre hlog => ?_⟩
  · -- nobody holds it, so nobody has changed it or is writing it
    have hd : s.dirty b = false := by
      by_contra hd
      obtain ⟨p, hp⟩ := hinv.dirty b (by simpa using hd)
      have hb := hinv.pc_busy (p := p) (b := b) (by rcases hp with hp | hp <;> simp [hp, BufPc.buf])
      simp [hbusy] at hb
    have hc : s.changed b = false := by
      by_contra hc
      simp [hinv.changed b (by simpa using hc)] at hbusy
    have hin : InDisk (s.dev b) (s.sector b) := by
      by_contra hout
      simp [(hinv.fresh b hout).2] at hv
    rw [hin.diskAddr]
    exact ⟨hinv.coherent b hv hd hc, hd⟩
  · have hreads := hinv.reads
    rw [hlog] at hreads
    exact hreads.bread

/-- The steps of a process that reads a sector nobody has cached, with no other process around. -/
def readMiss (dev sector : UInt32) : List (BufEvent (Fin 1) Nat) :=
  [.bread 0 dev sector, .bget 0, .check 0, .iderw 0, .intr, .wait 0]

/-- The steps of a process that changes a buffer it holds, writes it and releases it. -/
def changeWrite (b : BufId) (d : Nat) : List (BufEvent (Fin 1) Nat) :=
  [.modify 0 b d, .bwrite 0 b, .iderw 0, .intr, .wait 0, .brelse 0 b]

theorem bio_refines_disk_reread : ∃ s : BufSys (Fin 1) Nat,
    run (bufStep false) (BufSys.init (fun _ => 0) 0)
      (readMiss 0 3 ++ changeWrite 0 7 ++ [.bread 0 0 3, .bget 0, .check 0]) = some s ∧
    s.log = [.bread 0 3 7, .bwrite 0 3 7, .bread 0 3 0] ∧
    7 = plainDisk (fun _ => 0) [.bwrite 0 3 7, .bread 0 3 0] (0, 3) := by
  have hrun : (run (bufStep false) (BufSys.init (fun _ => 0) 0)
      (readMiss 0 3 ++ changeWrite 0 7 ++ [.bread 0 0 3, .bget 0, .check 0])).map BufSys.log =
      some [.bread 0 3 7, .bwrite 0 3 7, .bread 0 3 0] := by decide +kernel
  obtain ⟨s, hs, hlog⟩ := Option.map_eq_some_iff.mp hrun
  have hgood : Along (bufStep false) BioGood (BufSys.init (fun _ => 0) 0)
      (readMiss 0 3 ++ changeWrite 0 7 ++ [.bread 0 0 3, .bget 0, .check 0]) := .of_check (by decide +kernel)
  exact ⟨s, hs, hlog, (bio_refines_disk hs hgood).2.2.2 [] 0 3 7 _ hlog⟩

/-- **The conditions are needed.** A holder that changes a buffer and releases it without `bwrite` leaves a valid
    buffer that is not what is on disk. Drive 2 is drive 0 to the disk, and sector 2²⁸ is sector 0: what is written
    there comes back from a `bread` of a sector to which nobody wrote. -/
theorem bio_needs_conditions :
    (∃ s : BufSys (Fin 1) Nat, run (bufStep false) (BufSys.init (fun _ => 0) 0)
        (readMiss 0 0 ++ [.modify 0 0 7, .brelse 0 0]) = some s ∧
      s.busy 0 = false ∧ s.valid 0 = true ∧ s.data 0 ≠ s.disk (BufSys.diskAddr (s.dev 0) (s.sector 0))) ∧
    (∃ s : BufSys (Fin 1) Nat, run (bufStep true) (BufSys.init (fun _ => 0) 0)
        (readMiss 2 0 ++ changeWrite 0 7 ++ readMiss 0 0) = some s ∧
      s.log = [.bread 0 0 7, .bwrite 2 0 7, .bread 2 0 0]) ∧
    ∃ s : BufSys (Fin 1) Nat, run (bufStep false) (BufSys.init (fun _ => 0) 0)
        (readMiss 0 0x10000000 ++ changeWrite 0 7 ++ readMiss 0 0) = some s ∧
      s.log = [.bread 0 0 7, .bwrite 0 0x10000000 7, .bread 0 0x10000000 0] := by
  refine ⟨?_, ?_, ?_⟩
  · have hrun : (run (bufStep false) (BufSys.init (fun _ => 0) 0 : BufSys (Fin 1) Nat)
        (readMiss 0 0 ++ [.modify 0 0 7, .brelse 0 0])).map
        (fun s => (s.busy 0, s.valid 0, s.data 0, s.disk (BufSys.diskAddr (s.dev 0) (s.sector 0)))) =
        some (false, true, 7, 0) := by decide +kernel
    obtain ⟨s, hs, hend⟩ := Option.map_eq_some_iff.mp hrun
    simp only [Prod.mk.injEq] at hend
    obtain ⟨hbusy, hvalid, hdata, hdisk⟩ := hend
    exact ⟨s, hs, hbusy, hvalid, by rw [hdata, hdisk]; decide⟩
  · exact Option.map_eq_some_iff.mp (by decide +kernel)
  · exact Option.map_eq_some_iff.mp (by decide +kernel)

end Xv6
