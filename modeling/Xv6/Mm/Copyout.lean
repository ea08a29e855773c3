import Xv6.Mm.Args

/-!
# `Mm.Copyout` — `copyout` over any page table

`copyout` goes through the pages of a range one by one. `uva2ka` refuses a page that is absent or not the user's, but
it does not look at what `walkpgdir` returns: where there is no page table it dereferences the null pointer. Here the
loop is run with a log of the pages where that happens. `copyout` does what it is for exactly when every page it comes
to has a page table (`copyout_ok_iff`).
-/

namespace Xv6

open Bytes Hoare

variable {K : Symbols} {d cur va v : Nat} {m m' : Phys} {s : Mem} {buf : List UInt8}

/-! ## The log -/

/-- The loop of `copyout`, with the pages at which `uva2ka` dereferences a null pointer. As in `copyoutFrom`, the
    bytes go straight to the frame, not through the loaded page table as the stores of `memmove` do, and `buf` is the
    source by value. -/
def copyoutLog (cur pgdir : Nat) : Nat → Nat → List UInt8 → MemM (Int × List Nat)
  | 0, _, _ => return (0, [])
  | fuel + 1, va, buf => do
    if buf = [] then return (0, [])
    else
      let va0 := pgRoundDown va
      let pte ← onMem (walkpgdir pgdir va0 false)
      let null := if pte = none then [va0] else []
      let pa0 ← onMem (uva2ka cur pgdir va0)
      if pa0 = 0 then return (-1, null)
      else
        let n := min (PGSIZE - (va - va0)) buf.length
        modify fun s =>
          { s with
            phys := { s.phys with ram := withBytes s.phys.ram (pa0 + (va - va0)) (buf.take n) }
            stored := s.stored ++ (List.range n).map (va + ·) }
        let (r, nulls) ← copyoutLog cur pgdir fuel ((va0 + PGSIZE) % 4294967296) (buf.drop n)
        return (r, null ++ nulls)

/-- Looking a page up changes nothing. -/
theorem wp_walkpgdir_look {Q : Option Nat → Phys → Prop} {E : VmPanic → Phys → Prop} :
    wp (walkpgdir d va false) Q E m ↔
      Q (if Present (pdeOf d m (pdx va)) then some (pteAddr (pdeOf d m (pdx va)) + 4 * ptx va) else none) m := by
  rw [walkpgdir, wp_bind, wp_load32, ← pdeOf]
  by_cases h : Present (pdeOf d m (pdx va))
  · rw [if_pos h, if_pos h, wp_pure]
  · rw [if_neg h, if_neg h]
    exact wp_pure

/-- **Without the log it is `copyout`.** -/
theorem copyoutLog_erase (fuel : Nat) {Q : Int → Mem → Prop} {E : VmPanic → Mem → Prop} :
    wp (copyoutLog cur d fuel va buf) (fun x => Q x.1) E s ↔ wp (copyoutFrom cur d fuel va buf) Q E s := by
  induction fuel generalizing va buf s Q with
  | zero => exact Iff.rfl
  | succ fuel ih =>
    rw [copyoutLog, copyoutFrom]
    by_cases hb : buf = []
    · rw [if_pos hb, if_pos hb]
      exact Iff.rfl
    · rw [if_neg hb, if_neg hb, wp_bind, wp_onMem, wp_walkpgdir_look, wp_bind, wp_bind]
      refine wp_congr fun pa0 s' => ?_
      by_cases h0 : pa0 = 0
      · rw [if_pos h0, if_pos h0]
        exact Iff.rfl
      · rw [if_neg h0, if_neg h0, wp_bind, wp_modify, wp_bind, wp_bind, wp_modify]
        exact ih

/-! ## Frames -/

/-- Page `v` is present and the user's. -/
def UserEntry (d : Nat) (m : Phys) (v : Nat) : Prop := Present (pteOf d m v) ∧ pteOf d m v &&& PTE_U ≠ 0

instance (d : Nat) (m : Phys) (v : Nat) : Decidable (UserEntry d m v) := inferInstanceAs (Decidable (_ ∧ _))

/-- **The pages of the user** in a page table: they are pages of memory, no two the same and none of them a table.
    Any of the directory's entries may be absent. -/
structure UserFrames (K : Symbols) (d : Nat) (m : Phys) : Prop where
  dir : d % PGSIZE = 0
  frame : ∀ v < VPAGES, UserEntry d m v → IsPage K (pteAddr (pteOf d m v)) ∧ ¬ IsTable d m (pteAddr (pteOf d m v))
  inj : ∀ u < VPAGES, ∀ v < VPAGES, UserEntry d m u → UserEntry d m v →
    pteAddr (pteOf d m u) = pteAddr (pteOf d m v) → u = v

/-- Where user address `va` is in memory. -/
def frameOf (d : Nat) (m : Phys) (va : Nat) : Nat := pteAddr (pteOf d m (va / PGSIZE)) + va % PGSIZE

theorem frameOf_page (d : Nat) (m : Phys) (va : Nat) : pgRoundDown (frameOf d m va) = pteAddr (pteOf d m (va / PGSIZE)) :=
  pgRoundDown_of (pteAddr_aligned _) (Nat.le_add_right _ _)
    (Nat.add_lt_add_left (Nat.mod_lt _ (by decide)) _)

/-- Stores to user pages leave the page table as it is. -/
theorem UserFrames.kept (h : UserFrames K d m) (m' : Phys)
    (hram : SameOff (fun q => ∃ v < VPAGES, UserEntry d m v ∧ pteAddr (pteOf d m v) = q) m m') :
    (∀ i < 1024, pdeOf d m' i = pdeOf d m i) ∧ (∀ v < VPAGES, pteOf d m' v = pteOf d m v) ∧ UserFrames K d m' := by
  have hS : ∀ q, IsTable d m q → ¬ ∃ v < VPAGES, UserEntry d m v ∧ pteAddr (pteOf d m v) = q := by
    rintro q ht ⟨v, hv, hu, rfl⟩
    exact (h.frame v hv hu).2 ht
  have hpte : ∀ v < VPAGES, pteOf d m' v = pteOf d m v := fun v hv => hram.pte h.dir hS hv
  refine ⟨fun i hi => hram.pde h.dir hS hi, hpte, h.dir, fun v hv hu => ?_, fun u hu v hv h1 h2 heq => ?_⟩
  · rw [UserEntry, hpte v hv] at hu
    rw [hpte v hv, hram.isTable h.dir hS]
    exact h.frame v hv hu
  · rw [UserEntry, hpte u hu] at h1
    rw [UserEntry, hpte v hv] at h2
    rw [hpte u hu, hpte v hv] at heq
    exact h.inj u hu v hv h1 h2 heq

/-- In an address space, the user's pages are those below its size. -/
theorem UserImage.userEntry_iff {sz : Nat} (h : UserImage K d sz m) (hv : v < VPAGES) : UserEntry d m v ↔ v < pages sz := by
  have hpg := pages_le h.top
  by_cases hU : v < UPAGES
  · rw [UserEntry, pteOf_user h.space.first (Nat.lt_trans hU (by decide)), h.user v hU, user_iff]
    refine ⟨And.left, fun hlt => ⟨hlt, ?_⟩⟩
    have hflags := h.flags v hU ((h.user v hU).mpr hlt)
    simp only [PGSIZE] at hflags
    omega
  · rw [UserEntry, h.kernel v hv (Nat.le_of_not_lt hU)]
    exact ⟨fun hu => absurd hu.2 kernelPte_not_user, fun hlt => absurd (Nat.lt_of_lt_of_le hlt hpg) hU⟩

/-- **Address spaces** that `setupkvm` makes and `allocuvm` grows have their user pages in order. -/
theorem UserImage.userFrames {sz : Nat} (h : UserImage K d sz m) : UserFrames K d m := by
  -- a user page is one of the first, whose entry is in the first table
  have hlow : ∀ v < VPAGES, UserEntry d m v → v < UPAGES ∧ pteOf d m v = userPte d m v ∧ Present (userPte d m v) := by
    intro v hv hu
    have hU := Nat.lt_of_lt_of_le ((h.userEntry_iff hv).mp hu) (pages_le h.top)
    have heq := pteOf_user h.space.first (Nat.lt_trans hU (by decide))
    exact ⟨hU, heq, heq ▸ hu.1⟩
  refine ⟨h.dir.page.1, fun v hv hu => ?_, fun u hu v hv h1 h2 heq => ?_⟩
  · obtain ⟨hU, hpte, hpr⟩ := hlow v hv hu
    obtain ⟨hpage, -, htab⟩ := h.space.user v hU hpr
    rw [hpte]
    exact ⟨hpage, htab⟩
  · obtain ⟨hU, hpte, hpr⟩ := hlow u hu h1
    obtain ⟨hU', hpte', hpr'⟩ := hlow v hv h2
    rw [hpte, hpte'] at heq
    exact h.space.inj u hU v hU' hpr hpr' heq

/-! ## One page -/

theorem UserEntry.table (h : UserEntry d m v) : Present (pdeOf d m (v / 1024)) := by
  by_contra hc
  rw [UserEntry, pteOf_absent hc] at h
  exact not_present_zero h.1

/-- A trip of the loop at a page that has a page table. -/
theorem copyoutLog_step (h : UserFrames K d s.phys) (hva : va < 4294967296) (hne : buf ≠ [])
    (htab : Present (pdeOf d s.phys (va / PGSIZE / 1024))) {fuel : Nat} {Q : Int × List Nat → Mem → Prop}
    {E : VmPanic → Mem → Prop} :
    wp (copyoutLog cur d (fuel + 1) va buf) Q E s ↔
      if UserEntry d s.phys (va / PGSIZE) then
        wp (copyoutLog cur d fuel ((PGSIZE * (va / PGSIZE) + PGSIZE) % 4294967296) (buf.drop (inPage va buf.length))) Q E
          (s.put (frameOf d s.phys va) va (buf.take (inPage va buf.length)))
      else Q (-1, []) s := by
  have hv : va / PGSIZE < VPAGES := by simp only [PGSIZE, VPAGES]; omega
  have hdown : pgRoundDown va = PGSIZE * (va / PGSIZE) := Nat.mul_comm _ _
  have hoff : va - PGSIZE * (va / PGSIZE) = va % PGSIZE := by simp only [PGSIZE]; omega
  have hlen : (buf.take (inPage va buf.length)).length = inPage va buf.length := by
    rw [List.length_take]
    exact Nat.min_eq_left (Nat.min_le_right _ _)
  rw [copyoutLog, if_neg hne, wp_bind, wp_onMem, hdown, wp_walkpgdir_found hv htab, wp_bind, wp_onMem,
    wp_uva2ka hv htab]
  simp only [← UserEntry.eq_1]
  by_cases hu : UserEntry d s.phys (va / PGSIZE)
  · have hpos : pteAddr (pteOf d s.phys (va / PGSIZE)) ≠ 0 := (h.frame _ hv hu).1.pos
    rw [if_pos hu, if_pos hu, if_neg hpos, wp_bind, wp_modify, wp_bind, hoff, ← inPage, Mem.put, hlen]
    exact Iff.rfl
  · rw [if_neg hu, if_neg hu, if_pos rfl, wp_pure, if_neg (Option.some_ne_none _)]

/-- A trip at a page that has none is logged. -/
theorem copyoutLog_null (hva : va < 4294967296) (hne : buf ≠ [])
    (htab : ¬ Present (pdeOf d s.phys (va / PGSIZE / 1024))) (fuel : Nat) :
    wp (copyoutLog cur d (fuel + 1) va buf) (fun x _ => x.2 ≠ []) (fun _ _ => True) s := by
  have hpdx : pdx (pgRoundDown va) = va / PGSIZE / 1024 := by simp only [pdx, pgRoundDown, PGSIZE]; omega
  rw [copyoutLog, if_neg hne, wp_bind, wp_onMem, wp_walkpgdir_look, hpdx, if_neg htab, if_pos rfl, wp_bind]
  refine wp_mono (wp_any _ _) (fun pa0 s' _ => ?_) fun _ _ _ => trivial
  by_cases h0 : pa0 = 0
  · rw [if_pos h0, wp_pure]
    exact List.cons_ne_nil _ _
  · rw [if_neg h0, wp_bind, wp_modify, wp_bind]
    refine wp_mono (wp_any _ _) (fun x s'' _ => ?_) fun _ _ _ => trivial
    exact List.cons_ne_nil _ _

/-! ## The range -/

/-- Every page that holds one of the `n` bytes from `va` on is the user's. -/
def AllUser (d : Nat) (m : Phys) (va n : Nat) : Prop := ∀ k < n, UserEntry d m ((va + k) / PGSIZE)

/-- Every page of the range that comes after pages of the user only has a page table. -/
def TablesFound (d : Nat) (m : Phys) (va n : Nat) : Prop :=
  ∀ k < n, AllUser d m va k → Present (pdeOf d m ((va + k) / PGSIZE / 1024))

theorem allUser_add {a b : Nat} : AllUser d m va (a + b) ↔ AllUser d m va a ∧ AllUser d m (va + a) b := by
  refine ⟨fun h => ⟨fun k hk => h k (by omega), fun k hk => ?_⟩, fun h k hk => ?_⟩
  · rw [Nat.add_assoc]
    exact h (a + k) (by omega)
  · by_cases hlt : k < a
    · exact h.1 k hlt
    · have := h.2 (k - a) (by omega)
      rwa [Nat.add_assoc, Nat.add_sub_cancel' (Nat.le_of_not_lt hlt)] at this

theorem tablesFound_add {a b : Nat} (h : AllUser d m va a) : TablesFound d m va (a + b) ↔ TablesFound d m (va + a) b := by
  refine ⟨fun ht k hk hall => ?_, fun ht k hk hall => ?_⟩
  · rw [Nat.add_assoc]
    exact ht (a + k) (by omega) (allUser_add.mpr ⟨h, hall⟩)
  · by_cases hlt : k < a
    · exact (h k hlt).table
    · have hk' : a + (k - a) = k := by omega
      rw [← hk'] at hall
      have := ht (k - a) (by omega) (allUser_add.mp hall).2
      rwa [Nat.add_assoc, hk'] at this

/-- Both only look at the page table. -/
theorem allUser_congr {n : Nat} (hpte : ∀ u < VPAGES, pteOf d m' u = pteOf d m u) (hn : va + n ≤ 4294967296) :
    AllUser d m' va n ↔ AllUser d m va n := by
  refine forall_congr' fun k => forall_congr' fun hk => ?_
  rw [UserEntry, UserEntry, hpte _ (by simp only [PGSIZE, VPAGES]; omega)]

theorem tablesFound_congr {n : Nat} (hpde : ∀ i < 1024, pdeOf d m' i = pdeOf d m i)
    (hpte : ∀ u < VPAGES, pteOf d m' u = pteOf d m u) (hn : va + n ≤ 4294967296) :
    TablesFound d m' va n ↔ TablesFound d m va n := by
  refine forall_congr' fun k => forall_congr' fun hk => imp_congr (allUser_congr hpte (by omega)) ?_
  rw [hpde _ (by simp only [PGSIZE]; omega)]

/-- **`buf` has been copied to `va`**, and nothing else has changed. -/
structure CopiedOut (d : Nat) (m : Phys) (va : Nat) (buf : List UInt8) (m' : Phys) : Prop where
  bytes : ∀ k < buf.length, m'.ram (frameOf d m (va + k)) = buf.getD k 0
  rest : ∀ a, (∀ k < buf.length, a ≠ frameOf d m (va + k)) → m'.ram a = m.ram a
  free : m'.freelist = m.freelist

theorem CopiedOut.nil (d : Nat) (m : Phys) (va : Nat) : CopiedOut d m va [] m :=
  ⟨fun k hk => absurd hk (Nat.not_lt_zero k), fun _ _ => rfl, rfl⟩

/-- Addresses within a page follow one another in memory. -/
theorem frameOf_add {k : Nat} (hk : va % PGSIZE + k < PGSIZE) : frameOf d m (va + k) = frameOf d m va + k := by
  have hdiv : (va + k) / PGSIZE = va / PGSIZE := by simp only [PGSIZE] at *; omega
  have hmod : (va + k) % PGSIZE = va % PGSIZE + k := by simp only [PGSIZE] at *; omega
  rw [frameOf, frameOf, hdiv, hmod, Nat.add_assoc]

theorem frameOf_congr (hpte : ∀ u < VPAGES, pteOf d m' u = pteOf d m u) (hva : va < 4294967296) :
    frameOf d m' va = frameOf d m va := by
  rw [frameOf, frameOf, hpte _ (by simp only [PGSIZE, VPAGES]; omega)]

/-- **A page and what follows it.** -/
theorem CopiedOut.append {m1 m2 : Phys} {c r : List UInt8} (h : UserFrames K d m)
    (hpte : ∀ u < VPAGES, pteOf d m1 u = pteOf d m u)
    (hm1 : m1 = { m with ram := withBytes m.ram (frameOf d m va) c }) (hall : AllUser d m va (c.length + r.length))
    (hlen : va + (c.length + r.length) ≤ 4294967296) (hfit : va % PGSIZE + c.length ≤ PGSIZE)
    (hedge : r ≠ [] → va % PGSIZE + c.length = PGSIZE) (hr : CopiedOut d m1 (va + c.length) r m2) :
    CopiedOut d m va (c ++ r) m2 := by
  have hram : ∀ a, m1.ram a = withBytes m.ram (frameOf d m va) c a := fun a => by rw [hm1]
  -- where the bytes of `c` and of `r` go
  have hc : ∀ k < c.length, frameOf d m (va + k) = frameOf d m va + k := fun k hk => frameOf_add (by omega)
  have hr' : ∀ j < r.length, frameOf d m1 (va + c.length + j) = frameOf d m (va + (c.length + j)) := fun j hj => by
    rw [frameOf_congr hpte (by omega), Nat.add_assoc]
  have hapart : ∀ k < c.length, ∀ j < r.length, frameOf d m (va + k) ≠ frameOf d m1 (va + c.length + j) := by
    intro k hk j hj heq
    have hne := hedge (List.ne_nil_of_length_pos (Nat.zero_lt_of_lt hj))
    have hpage := congrArg pgRoundDown heq
    rw [hr' j hj, frameOf_page, frameOf_page] at hpage
    have hsame := h.inj _ (by simp only [PGSIZE, VPAGES]; omega) _ (by simp only [PGSIZE, VPAGES]; omega)
      (hall k (by omega)) (hall (c.length + j) (by omega)) hpage
    simp only [PGSIZE] at *
    omega
  refine ⟨fun k hk => ?_, fun a ha => ?_, by rw [hr.free, hm1]⟩
  · rw [List.length_append] at hk
    by_cases hlt : k < c.length
    · rw [hr.rest _ (hapart k hlt), hram, hc k hlt, withBytes_in (Nat.le_add_right _ _) (Nat.add_lt_add_left hlt _),
        Nat.add_sub_cancel_left, List.getD_append _ _ _ _ hlt]
    · obtain ⟨j, rfl⟩ := Nat.exists_eq_add_of_le (Nat.le_of_not_lt hlt)
      have hj : j < r.length := by omega
      rw [← hr' j hj, hr.bytes j hj, List.getD_append_right _ _ _ _ (Nat.le_add_right _ _), Nat.add_sub_cancel_left]
  · rw [List.length_append] at ha
    rw [hr.rest a fun j hj => by rw [hr' j hj]; exact ha _ (by omega), hram]
    refine withBytes_out ?_
    by_contra hin
    have hk : a - frameOf d m va < c.length := by omega
    exact ha (a - frameOf d m va) (by omega) (by rw [hc _ hk]; omega)

/-- What `copyout` is for: `buf` copied and 0, or -1 when not all of the range is the user's. -/
def CopyoutResult (d va : Nat) (buf : List UInt8) (s : Mem) (r : Int) (s' : Mem) : Prop :=
  (AllUser d s.phys va buf.length ∧ r = 0 ∧ CopiedOut d s.phys va buf s'.phys ∧ s'.pgdir = s.pgdir) ∨
    (¬ AllUser d s.phys va buf.length ∧ r = -1)

/-- How much of `buf` goes to the first page. -/
theorem inPage_bounds (va n : Nat) (hn : 0 < n) : 0 < inPage va n ∧ inPage va n ≤ n ∧ va % PGSIZE + inPage va n ≤ PGSIZE ∧
    (inPage va n < n → va % PGSIZE + inPage va n = PGSIZE) := by
  simp only [inPage, PGSIZE]
  omega

/-- A trip that stores leaves the rest of the range as it was, and completes what the rest of the loop does. -/
theorem copyoutLog_page {s1 : Mem} {next : Nat} (h : UserFrames K d s.phys) (hu : UserEntry d s.phys (va / PGSIZE))
    (hne : buf ≠ []) (hend : va + buf.length ≤ 4294967296)
    (hs1 : s1 = s.put (frameOf d s.phys va) va (buf.take (inPage va buf.length)))
    (hnext : next = (PGSIZE * (va / PGSIZE) + PGSIZE) % 4294967296) :
    (TablesFound d s1.phys next (buf.drop (inPage va buf.length)).length ↔ TablesFound d s.phys va buf.length) ∧
    (∀ r s', CopyoutResult d next (buf.drop (inPage va buf.length)) s1 r s' → CopyoutResult d va buf s r s') ∧
    UserFrames K d s1.phys ∧
    (buf.drop (inPage va buf.length) = [] ∨ next + (buf.drop (inPage va buf.length)).length ≤ 4294967296) := by
  obtain ⟨hn0, hn, hfit, hedge⟩ := inPage_bounds va buf.length (List.length_pos_iff.mpr hne)
  have hv : va / PGSIZE < VPAGES := by simp only [PGSIZE, VPAGES]; omega
  have hsplit := List.take_append_drop (inPage va buf.length) buf
  have htake : (buf.take (inPage va buf.length)).length = inPage va buf.length := by
    rw [List.length_take]
    exact Nat.min_eq_left hn
  have hdrop : inPage va buf.length + (buf.drop (inPage va buf.length)).length = buf.length := by
    rw [List.length_drop]
    omega
  generalize inPage va buf.length = n at *
  generalize hc : buf.take n = c at *
  generalize hr : buf.drop n = r at *
  have hphys : s1.phys = { s.phys with ram := withBytes s.phys.ram (frameOf d s.phys va) c } := by rw [hs1, Mem.put]
  obtain ⟨hpde, hpte, hF⟩ := h.kept s1.phys fun a ha => by
    rw [hphys]
    exact withBytes_page (pteAddr_aligned _) (by omega) fun he => ha ⟨_, hv, hu, he.symm⟩
  have hfirst : AllUser d s.phys va n := fun k hk => by
    rw [show (va + k) / PGSIZE = va / PGSIZE by simp only [PGSIZE] at *; omega]
    exact hu
  have hva' : r ≠ [] → next = va + n := fun hrne => by
    have := hedge (by have := List.length_pos_iff.mpr hrne; omega)
    have := List.length_pos_iff.mpr hrne
    rw [hnext]
    simp only [PGSIZE] at *
    omega
  refine ⟨?_, fun res s' hres => ?_, hF, ?_⟩
  · rw [← hdrop, tablesFound_add hfirst]
    by_cases hrne : r = []
    · rw [hrne]
      exact iff_of_true (fun k hk => absurd hk (Nat.not_lt_zero k)) fun k hk => absurd hk (Nat.not_lt_zero k)
    · rw [hva' hrne]
      exact tablesFound_congr hpde hpte (by omega)
  · have hiff : AllUser d s1.phys next r.length ↔ AllUser d s.phys va buf.length := by
      rw [← hdrop, allUser_add]
      by_cases hrne : r = []
      · rw [hrne]
        exact iff_of_true (fun k hk => absurd hk (Nat.not_lt_zero k))
          ⟨hfirst, fun k hk => absurd hk (Nat.not_lt_zero k)⟩
      · rw [hva' hrne, allUser_congr hpte (by omega)]
        exact ⟨fun hall => ⟨hfirst, hall⟩, And.right⟩
    rcases hres with ⟨hall, hres, hcopied, hpg⟩ | ⟨hall, hres⟩
    · have hall' := hiff.mp hall
      have hcopied' : CopiedOut d s1.phys (va + c.length) r s'.phys := by
        rw [htake]
        by_cases hrne : r = []
        · rw [hrne] at hcopied ⊢
          exact ⟨fun k hk => absurd hk (Nat.not_lt_zero k), fun a _ => hcopied.rest a fun k hk =>
            absurd hk (Nat.not_lt_zero k), hcopied.free⟩
        · rwa [hva' hrne] at hcopied
      refine .inl ⟨hall', hres, ?_, by rw [hpg, hs1, Mem.put]⟩
      rw [← hsplit]
      rw [← hdrop, ← htake] at hall'
      exact CopiedOut.append h hpte hphys hall' (by omega) (by omega)
        (fun hrne => by have := List.length_pos_iff.mpr hrne; omega) hcopied'
    · exact .inr ⟨hiff.not.mp hall, hres⟩
  · by_cases hrne : r = []
    · exact .inl hrne
    · exact .inr (by rw [hva' hrne]; omega)

/-- **The loop**: nothing is logged and the result is right if every page it comes to has a page table, and something
    is logged otherwise. -/
theorem copyoutLog_spec (cur fuel : Nat) (h : UserFrames K d s.phys) (hfuel : buf.length ≤ fuel)
    (hlen : buf = [] ∨ va + buf.length ≤ 4294967296) :
    (TablesFound d s.phys va buf.length → wp (copyoutLog cur d fuel va buf)
      (fun x s' => x.2 = [] ∧ CopyoutResult d va buf s x.1 s') (fun _ _ => False) s) ∧
    (¬ TablesFound d s.phys va buf.length → wp (copyoutLog cur d fuel va buf) (fun x _ => x.2 ≠ []) (fun _ _ => True) s) := by
  induction fuel generalizing va buf s with
  | zero =>
    obtain rfl : buf = [] := List.length_eq_zero_iff.mp (Nat.le_zero.mp hfuel)
    refine ⟨fun _ => ⟨rfl, .inl ⟨fun k hk => absurd hk (Nat.not_lt_zero k), rfl, .nil d _ va, rfl⟩⟩, fun hno => ?_⟩
    exact absurd (fun k hk => absurd hk (Nat.not_lt_zero k)) hno
  | succ fuel ih =>
    by_cases hne : buf = []
    · subst hne
      rw [copyoutLog, if_pos rfl]
      refine ⟨fun _ => ⟨rfl, .inl ⟨fun k hk => absurd hk (Nat.not_lt_zero k), rfl, .nil d _ va, rfl⟩⟩, fun hno => ?_⟩
      exact absurd (fun k hk => absurd hk (Nat.not_lt_zero k)) hno
    have hend := hlen.resolve_left hne
    have hpos := List.length_pos_iff.mpr hne
    have hva : va < 4294967296 := by omega
    have hv : va / PGSIZE < VPAGES := by simp only [PGSIZE, VPAGES]; omega
    by_cases htab : Present (pdeOf d s.phys (va / PGSIZE / 1024))
    · rw [copyoutLog_step h hva hne htab, copyoutLog_step h hva hne htab]
      by_cases hu : UserEntry d s.phys (va / PGSIZE)
      · rw [if_pos hu, if_pos hu]
        obtain ⟨hT, hR, hF, hlen'⟩ := copyoutLog_page h hu hne hend rfl rfl
        obtain ⟨hyes, hno⟩ := ih hF (by rw [List.length_drop]; have := (inPage_bounds va _ hpos).1; omega) hlen'
        refine ⟨fun ht => ?_, fun ht => hno (hT.not.mpr ht)⟩
        exact wp_post (hyes (hT.mpr ht)) fun x s' hx => ⟨hx.1, hR _ _ hx.2⟩
      · -- the page is refused: no later page is come to
        rw [if_neg hu, if_neg hu]
        refine ⟨fun _ => ⟨rfl, .inr ⟨fun hall => hu (hall 0 hpos), rfl⟩⟩, fun hno => absurd (fun k hk hall => ?_) hno⟩
        rcases Nat.eq_zero_or_pos k with rfl | hk0
        · exact htab
        · exact absurd (hall 0 hk0) hu
    · refine ⟨fun ht => absurd (ht 0 hpos fun j hj => absurd hj (Nat.not_lt_zero j)) htab, fun _ => ?_⟩
      exact copyoutLog_null hva hne htab fuel

/-- **`copyout` succeeds exactly on user-mapped ranges**, and does not dereference a missing page table: the `buf.length`
    bytes from `va` on read as `buf` through the page table and nothing else has changed, or the result is -1. -/
def CopyoutOk (cur d va : Nat) (buf : List UInt8) (s : Mem) : Prop :=
  ∃ r s', exec (copyout cur d va buf) s = (.ok r, s') ∧ exec (copyoutLog cur d buf.length va buf) s = (.ok (r, []), s') ∧
    ((AllUser d s.phys va buf.length ∧ r = 0 ∧
      (∀ k < buf.length, byteAt s'.phys.ram d (va + k) = some (buf.getD k 0)) ∧
      (∀ a, (∀ k < buf.length, a ≠ frameOf d s.phys (va + k)) → s'.phys.ram a = s.phys.ram a) ∧
      s'.phys.freelist = s.phys.freelist ∧ s'.pgdir = s.pgdir) ∨
    (¬ AllUser d s.phys va buf.length ∧ r = -1))

/-- What has been copied is read back. -/
theorem CopiedOut.byteAt (h : UserFrames K d m) (hlen : va + buf.length ≤ 4294967296) (hall : AllUser d m va buf.length)
    (hc : CopiedOut d m va buf m') {k : Nat} (hk : k < buf.length) : byteAt m'.ram d (va + k) = some (buf.getD k 0) := by
  obtain ⟨-, hpte, -⟩ := h.kept m' fun a ha => hc.rest a fun j hj he => ha ⟨(va + j) / PGSIZE,
    by simp only [PGSIZE, VPAGES]; omega, hall j hj, by rw [he, frameOf_page]⟩
  have hv : (va + k) / PGSIZE < VPAGES := by simp only [PGSIZE, VPAGES]; omega
  rw [Xv6.byteAt, translate_eq (by omega), hpte _ hv, if_pos (hall k hk).1, Option.map_some, ← hc.bytes k hk]
  rfl

/-- A range with a page that the loop comes to and that has no page table. -/
theorem not_copyoutOk (h : UserFrames K d s.phys) (hlen : va + buf.length ≤ 4294967296)
    (hno : ¬ TablesFound d s.phys va buf.length) : ¬ CopyoutOk cur d va buf s := by
  rintro ⟨r, s', -, hrun, -⟩
  exact wp_ok ((copyoutLog_spec cur buf.length h (Nat.le_refl _) (.inr hlen)).2 hno) hrun rfl

/-- **`copyout` does what it is for** exactly when each page of the range that comes after pages of the user only has
    a page table. -/
theorem copyout_ok_iff (h : UserFrames K d s.phys) (hlen : va + buf.length ≤ 4294967296) :
    CopyoutOk cur d va buf s ↔ TablesFound d s.phys va buf.length := by
  refine ⟨fun hok => ?_, fun ht => ?_⟩
  · by_contra hno
    exact not_copyoutOk h hlen hno hok
  · obtain ⟨⟨r, l⟩, s', hrun, rfl, hres⟩ :=
      wp_total ((copyoutLog_spec cur buf.length h (Nat.le_refl _) (.inr hlen)).1 ht)
    have hsame : wp (copyout cur d va buf) (fun r' t => r' = r ∧ t = s') (fun _ _ => False) s :=
      (copyoutLog_erase buf.length).mp (wp_of_exec hrun ⟨rfl, rfl⟩)
    obtain ⟨r', t, hrun', rfl, rfl⟩ := wp_total hsame
    refine ⟨r', t, hrun', hrun, hres.imp_left fun ⟨hall, hr, hc, hpg⟩ => ⟨hall, hr, fun k hk => ?_, hc.rest, hc.free, hpg⟩⟩
    exact hc.byteAt h hlen hall hk

/-- The process of three pages, running. -/
def threePagesMem : Mem := ⟨threePages, fun _ => 0x300000, []⟩

def tenBytes : List UInt8 := [0, 1, 2, 3, 4, 5, 6, 7, 8, 9]

/-- Ten bytes, across the end of a page. -/
theorem copyout_ok_threePages : ∃ s', exec (copyout 0x300000 0x300000 4090 tenBytes) threePagesMem = (.ok 0, s') ∧
    ∀ k < 10, byteAt s'.phys.ram 0x300000 (4090 + k) = some (tenBytes.getD k 0) := by
  have h := threePages_grown.2.2
  have hall : AllUser 0x300000 threePagesMem.phys 4090 10 := fun k hk => by
    refine (h.userEntry_iff ?_).mpr ?_
    · simp only [PGSIZE, VPAGES]
      omega
    · simp only [pages, PGSIZE]
      omega
  have hok : CopyoutOk 0x300000 0x300000 4090 tenBytes threePagesMem :=
    (copyout_ok_iff h.userFrames (by decide)).mpr fun k hk _ => (hall k hk).table
  obtain ⟨r, s', hrun, -, ⟨-, rfl, hbytes, -⟩ | ⟨hno, -⟩⟩ := hok
  · exact ⟨s', hrun, hbytes⟩
  · exact absurd hall hno

/-- One byte to 32 MB, for which `setupkvm` makes no page table. -/
theorem copyout_noTable : UserImage oneMegabyte 0x300000 8193 threePagesMem.phys ∧
    ¬ CopyoutOk 0x300000 0x300000 0x2000000 [1] threePagesMem := by
  obtain ⟨-, he, hi⟩ := threePages_grown
  have hb := kernelOnly_built.2
  have habsent : ¬ Present (pdeOf 0x300000 threePages 8) := by
    rw [show pdeOf 0x300000 threePages 8 = pdeOf 0x300000 kernelOnly 8 from he.frame.pde hb.image.space (by decide)]
    exact hb.absent (by decide) (by decide)
  refine ⟨hi, not_copyoutOk hi.userFrames (by decide) fun ht => habsent ?_⟩
  exact ht 0 (by decide) fun j hj => absurd hj (Nat.not_lt_zero j)

end Xv6
