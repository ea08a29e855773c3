import Xv6.Mm.UserPages

/-!
# `Mm.Tables` — page tables as maps from pages to entries

The two levels of a page table, read as one array of entries (`pteOf`): a missing second-level table is a table of
zeroes. On a directory whose tables are pages of their own (`Dir`), a step of `mappages` changes one entry of the
array; what it allocates becomes a table, and it writes nowhere else (`Extends`).

## Contents
- **Entries.** `pteOf`, and `translate_eq`: the hardware reads the array.
- **Directories.** `Dir`, `Extends`, `Maps`; `walkpgdir_spec`, `mapOne_spec`.
- **Mapping.** `mapFrom_spec`, `mappages_spec`.
- **The kernel part.** `kernelPte`, `setupkvm_spec`.
-/

namespace Xv6

open Bytes Hoare

/-! ## Entries -/

/-- The number of pages of the address space. -/
@[simp] abbrev VPAGES : Nat := 1048576

/-- Entry `i` of directory `d`. -/
def pdeOf (d : Nat) (m : Phys) (i : Nat) : Nat := u32 m.ram (d + 4 * i)

/-- The entry of page `v`; 0 where there is no page table for it. -/
def pteOf (d : Nat) (m : Phys) (v : Nat) : Nat :=
  if Present (pdeOf d m (v / 1024)) then u32 m.ram (pteAddr (pdeOf d m (v / 1024)) + 4 * (v % 1024)) else 0

variable {K : Symbols} {d v p : Nat} {m m' m'' : Phys}

theorem not_present_zero : ¬ Present 0 := by decide

theorem pteOf_present (h : Present (pdeOf d m (v / 1024))) :
    pteOf d m v = u32 m.ram (pteAddr (pdeOf d m (v / 1024)) + 4 * (v % 1024)) := if_pos h

theorem pteOf_absent (h : ¬ Present (pdeOf d m (v / 1024))) : pteOf d m v = 0 := if_neg h

/-- The hardware reads the array. -/
theorem translate_eq {va : Nat} (hva : va < 4294967296) :
    translate m.ram d va = if Present (pteOf d m (va / PGSIZE)) then some (pteOf d m (va / PGSIZE)) else none := by
  have hd : pdx va = va / PGSIZE / 1024 := by simp only [pdx, PGSIZE]; omega
  have ht : ptx va = va / PGSIZE % 1024 := by simp only [ptx, PGSIZE]
  by_cases h : Present (pdeOf d m (va / PGSIZE / 1024))
  · rw [pteOf_present h]
    simp only [translate, hd, ht]
    exact if_pos h
  · rw [pteOf_absent h, if_neg not_present_zero]
    simp only [translate, hd, ht]
    exact if_neg h

/-! ## Pages of memory -/

/-- The words of a page that was cleared. -/
theorem cleared_word (ram : Arr) (p : Nat) {k : Nat} (hk : k < 1024) : u32 (fill ram p PGSIZE 0) (p + 4 * k) = 0 := by
  have hbyte : ∀ a, p ≤ a → a < p + PGSIZE → fill ram p PGSIZE 0 a = 0 := fun a h1 h2 => fill_in h1 h2
  simp only [PGSIZE] at hbyte
  simp only [u32, u16]
  rw [hbyte _ (by omega) (by omega), hbyte _ (by omega) (by omega), hbyte _ (by omega) (by omega),
    hbyte _ (by omega) (by omega)]
  rfl

/-! ## Directories -/

/-- **A directory in order.** It, its tables and the free pages are pages apart. -/
structure Dir (K : Symbols) (d : Nat) (m : Phys) : Prop where
  page : IsPage K d
  table : ∀ i < 1024, Present (pdeOf d m i) → IsPage K (pteAddr (pdeOf d m i)) ∧ pteAddr (pdeOf d m i) ≠ d
  inj : ∀ i < 1024, ∀ j < 1024, Present (pdeOf d m i) → Present (pdeOf d m j) →
    pteAddr (pdeOf d m i) = pteAddr (pdeOf d m j) → i = j
  nodup : m.freelist.Nodup
  free : ∀ q ∈ m.freelist, IsPage K q ∧ ¬ IsTable d m q

theorem isTable_iff {q : Nat} : IsTable d m q ↔ q = d ∨ ∃ i < 1024, Present (pdeOf d m i) ∧ pteAddr (pdeOf d m i) = q :=
  Iff.rfl

/-- Entry `i` of the first table, in the words of the user part. -/
theorem pteOf_user (h : Present (u32 m.ram d)) {i : Nat} (hi : i < 1024) : pteOf d m i = userPte d m i := by
  have h0 : i / 1024 = 0 := Nat.div_eq_of_lt hi
  have hpr : Present (pdeOf d m (i / 1024)) := by rw [h0]; exact h
  rw [pteOf_present hpr, h0, Nat.mod_eq_of_lt hi]
  rfl

/-! A directory whose pages are left alone reads the same. -/

section Untouched

variable {S : Nat → Prop} (hd : d % PGSIZE = 0) (hs : SameOff S m m') (hS : ∀ q, IsTable d m q → ¬ S q)
include hd hs hS

theorem SameOff.pde {i : Nat} (hi : i < 1024) : pdeOf d m' i = pdeOf d m i := hs.word hd hi (hS d (.inl rfl))

theorem SameOff.isTable (q : Nat) : IsTable d m' q ↔ IsTable d m q := by
  rw [isTable_iff, isTable_iff]
  refine or_congr Iff.rfl (exists_congr fun i => and_congr_right fun hi => ?_)
  rw [hs.pde hd hS hi]

theorem SameOff.pte (hv : v < VPAGES) : pteOf d m' v = pteOf d m v := by
  have hv1 : v / 1024 < 1024 := by simp only [VPAGES] at hv; omega
  have hpde := hs.pde hd hS hv1
  by_cases hpr : Present (pdeOf d m (v / 1024))
  · rw [pteOf_present hpr, pteOf_present (by rw [hpde]; exact hpr), hpde]
    exact hs.word (pteAddr_aligned _) (Nat.mod_lt _ (by decide)) (hS _ (.inr ⟨_, hv1, hpr, rfl⟩))
  · rw [pteOf_absent hpr, pteOf_absent (by rw [hpde]; exact hpr)]

end Untouched

/-- **What mapping can do to memory**: turn free pages into tables, and write to tables. -/
structure Extends (K : Symbols) (d : Nat) (m m' : Phys) : Prop where
  dir : Dir K d m'
  pages : ∀ q, (q ∈ m'.freelist ∨ IsTable d m' q) ↔ (q ∈ m.freelist ∨ IsTable d m q)
  tables : ∀ q, IsTable d m q → IsTable d m' q
  frame : SameOff (fun q => q ∈ m.freelist ∨ IsTable d m q) m m'

theorem Extends.refl (h : Dir K d m) : Extends K d m m := ⟨h, fun _ => Iff.rfl, fun _ hq => hq, fun _ _ => rfl⟩

theorem Extends.trans (h : Extends K d m m') (h' : Extends K d m' m'') : Extends K d m m'' :=
  ⟨h'.dir, fun q => (h'.pages q).trans (h.pages q), fun q hq => h'.tables q (h.tables q hq),
    h.frame.trans h'.frame fun q hq => (h.pages q).mp hq⟩

/-- Every table has an entry in use. -/
def NoEmptyTable (d : Nat) (m : Phys) : Prop :=
  ∀ i < 1024, Present (pdeOf d m i) → ∃ u < VPAGES, u / 1024 = i ∧ Present (pteOf d m u)

/-- **What mapping whole pages can do**: a table is made only to put an entry in it. -/
structure Maps (K : Symbols) (d : Nat) (m m' : Phys) : Prop extends Extends K d m m' where
  full : NoEmptyTable d m → NoEmptyTable d m'

theorem Maps.refl (h : Dir K d m) : Maps K d m m := ⟨.refl h, id⟩

theorem Maps.trans (h : Maps K d m m') (h' : Maps K d m' m'') : Maps K d m m'' :=
  ⟨h.toExtends.trans h'.toExtends, h'.full ∘ h.full⟩

/-! ## One entry -/

/-- A new table for the pages of directory entry `i`. -/
def addTable (d : Nat) (m : Phys) (i p : Nat) (next : List Nat) : Phys :=
  ⟨put32 (fill m.ram p PGSIZE 0) (d + 4 * i) (p + 7), next⟩

section AddTable

variable {i : Nat} {next : List Nat}

theorem addTable_pde_self (hp : IsPage K p) : pdeOf d (addTable d m i p next) i = p + 7 := by
  have := hp.2.2
  rw [pdeOf, addTable, u32_put32]
  simp only [PHYSTOP] at this
  omega

theorem addTable_pde (h : Dir K d m) (hfree : m.freelist = p :: next) {j : Nat} (hj : j < 1024) (hne : j ≠ i) :
    pdeOf d (addTable d m i p next) j = pdeOf d m j := by
  obtain ⟨hp, hpt⟩ := h.free p (by rw [hfree]; exact List.mem_cons_self)
  rw [pdeOf, addTable, u32_put32_out (by omega)]
  exact word_other hp.1 h.page.1 (fun hc => hpt (.inl hc.symm)) hj fun a ha => fill_out ha

theorem addTable_table (h : Dir K d m) (hfree : m.freelist = p :: next) (hi : i < 1024)
    (hnot : ¬ Present (pdeOf d m i)) (q : Nat) :
    IsTable d (addTable d m i p next) q ↔ IsTable d m q ∨ q = p := by
  obtain ⟨hp, hpt⟩ := h.free p (by rw [hfree]; exact List.mem_cons_self)
  have hself : pdeOf d (addTable d m i p next) i = p + 7 := addTable_pde_self hp
  rw [isTable_iff, isTable_iff]
  constructor
  · rintro (rfl | ⟨j, hj, hpr, rfl⟩)
    · exact .inl (.inl rfl)
    · by_cases hji : j = i
      · right
        rw [hji, hself, pteAddr_userEntry hp.1]
      · rw [addTable_pde h hfree hj hji] at hpr ⊢
        exact .inl (.inr ⟨j, hj, hpr, rfl⟩)
  · rintro ((rfl | ⟨j, hj, hpr, rfl⟩) | rfl)
    · exact .inl rfl
    · have hji : j ≠ i := fun hc => hnot (hc ▸ hpr)
      exact .inr ⟨j, hj, by rw [addTable_pde h hfree hj hji]; exact hpr, by rw [addTable_pde h hfree hj hji]⟩
    · exact .inr ⟨i, hi, by rw [hself]; exact present_userEntry hp.1, by rw [hself, pteAddr_userEntry hp.1]⟩

/-- **A new table** changes no entry. -/
theorem addTable_pte (h : Dir K d m) (hfree : m.freelist = p :: next) (hi : i < 1024)
    (hnot : ¬ Present (pdeOf d m i)) (hv : v < VPAGES) : pteOf d (addTable d m i p next) v = pteOf d m v := by
  obtain ⟨hp, hpt⟩ := h.free p (by rw [hfree]; exact List.mem_cons_self)
  have hself : pdeOf d (addTable d m i p next) i = p + 7 := addTable_pde_self hp
  have hdp : d ≠ p := fun hc => hpt (.inl hc.symm)
  have hv1 : v / 1024 < 1024 := by simp only [VPAGES] at hv; omega
  have hv2 : v % 1024 < 1024 := Nat.mod_lt _ (by decide)
  by_cases hvi : v / 1024 = i
  · rw [pteOf_present (by rw [hvi, hself]; exact present_userEntry hp.1), pteOf_absent (by rw [hvi]; exact hnot), hvi, hself,
      pteAddr_userEntry hp.1]
    -- the table was cleared, and the directory is another page
    have hdir := h.page.1
    have hpp := hp.1
    rw [addTable, u32_put32_out, cleared_word m.ram p hv2]
    simp only [PGSIZE] at hdir hpp
    omega
  · by_cases hpr : Present (pdeOf d m (v / 1024))
    · obtain ⟨htp, htd⟩ := h.table _ hv1 hpr
      have hpde := addTable_pde (i := i) h hfree hv1 hvi
      rw [pteOf_present (by rw [hpde]; exact hpr), pteOf_present hpr, hpde]
      have htab : IsTable d m (pteAddr (pdeOf d m (v / 1024))) := .inr ⟨_, hv1, hpr, rfl⟩
      have h1 := h.page.1
      have h2 := htp.1
      rw [addTable, u32_put32_out]
      · exact word_other hp.1 htp.1 (fun hc => hpt (hc ▸ htab)) hv2 fun a ha => fill_out ha
      · simp only [PGSIZE] at h1 h2
        omega
    · rw [pteOf_absent hpr, pteOf_absent (by rw [addTable_pde h hfree hv1 hvi]; exact hpr)]

theorem addTable_extends (h : Dir K d m) (hfree : m.freelist = p :: next) (hi : i < 1024)
    (hnot : ¬ Present (pdeOf d m i)) : Extends K d m (addTable d m i p next) := by
  obtain ⟨hp, hpt⟩ := h.free p (by rw [hfree]; exact List.mem_cons_self)
  have hself : pdeOf d (addTable d m i p next) i = p + 7 := addTable_pde_self hp
  have hnd := h.nodup
  rw [hfree, List.nodup_cons] at hnd
  have htab := addTable_table h hfree hi hnot
  -- the table of any other entry is an old one
  have hold : ∀ j < 1024, j ≠ i → Present (pdeOf d m j) → pteAddr (pdeOf d m j) ≠ p := fun j hj _ hpr hc =>
    hpt (.inr ⟨j, hj, hpr, hc⟩)
  refine ⟨⟨h.page, ?_, ?_, hnd.2, ?_⟩, ?_, fun q hq => (htab q).mpr (.inl hq), ?_⟩
  · intro j hj hpr
    by_cases hji : j = i
    · rw [hji, hself, pteAddr_userEntry hp.1]
      exact ⟨hp, fun hc => hpt (.inl hc)⟩
    · rw [addTable_pde h hfree hj hji] at hpr ⊢
      exact h.table j hj hpr
  · intro j hj k hk hpj hpk heq
    by_cases hji : j = i <;> by_cases hki : k = i
    · omega
    · rw [hji, hself, pteAddr_userEntry hp.1, addTable_pde h hfree hk hki] at heq
      rw [addTable_pde h hfree hk hki] at hpk
      exact absurd heq.symm (hold k hk hki hpk)
    · rw [hki, hself, pteAddr_userEntry hp.1, addTable_pde h hfree hj hji] at heq
      rw [addTable_pde h hfree hj hji] at hpj
      exact absurd heq (hold j hj hji hpj)
    · rw [addTable_pde h hfree hj hji] at hpj heq
      rw [addTable_pde h hfree hk hki] at hpk heq
      exact h.inj j hj k hk hpj hpk heq
  · intro q hq
    obtain ⟨h1, h2⟩ := h.free q (by rw [hfree]; exact List.mem_cons_of_mem _ hq)
    refine ⟨h1, fun hc => ?_⟩
    rcases (htab q).mp hc with hc | rfl
    · exact h2 hc
    · exact hnd.1 hq
  · intro q
    rw [htab, hfree, List.mem_cons]
    show q ∈ next ∨ _ ↔ _
    tauto
  · intro a ha
    dsimp only at ha
    rw [hfree, List.mem_cons, not_or, not_or] at ha
    exact (put32_page _ _ h.page.1 hi fun hc => ha.2 (.inl hc)).trans (fill_page _ _ hp.1 ha.1.1)

end AddTable

/-- Entry `v`, in a table that exists, now holds `w`. -/
def setPte (d : Nat) (m : Phys) (v w : Nat) : Phys :=
  ⟨put32 m.ram (pteAddr (pdeOf d m (v / 1024)) + 4 * (v % 1024)) w, m.freelist⟩

theorem setPte_user {i : Nat} (hi : i < 1024) (w : Nat) :
    setPte d m i w = ⟨put32 m.ram (tableOf d m + 4 * i) w, m.freelist⟩ := by
  rw [setPte, Nat.div_eq_of_lt hi, Nat.mod_eq_of_lt hi]
  rfl

section SetPte

variable {w : Nat} (h : Dir K d m) (hv : v < VPAGES) (hpr : Present (pdeOf d m (v / 1024)))
include h hv hpr

theorem setPte_pde {j : Nat} (hj : j < 1024) : pdeOf d (setPte d m v w) j = pdeOf d m j := by
  have hv1 : v / 1024 < 1024 := by simp only [VPAGES] at hv; omega
  obtain ⟨htp, htd⟩ := h.table _ hv1 hpr
  have h1 := h.page.1
  have h2 := htp.1
  rw [pdeOf, setPte, u32_put32_out]
  · rfl
  · simp only [PGSIZE] at h1 h2
    omega

theorem setPte_table (q : Nat) : IsTable d (setPte d m v w) q ↔ IsTable d m q := by
  rw [isTable_iff, isTable_iff]
  refine or_congr Iff.rfl (exists_congr fun j => and_congr_right fun hj => ?_)
  rw [setPte_pde h hv hpr hj]

/-- **Storing an entry** changes that entry. -/
theorem setPte_pte (hw : w < 4294967296) {u : Nat} (hu : u < VPAGES) :
    pteOf d (setPte d m v w) u = if u = v then w else pteOf d m u := by
  have hv1 : v / 1024 < 1024 := by simp only [VPAGES] at hv; omega
  have hu1 : u / 1024 < 1024 := by simp only [VPAGES] at hu; omega
  have hpde := setPte_pde (w := w) h hv hpr hu1
  by_cases huv : u = v
  · rw [if_pos huv, huv, pteOf_present (by rw [setPte_pde h hv hpr hv1]; exact hpr), setPte_pde h hv hpr hv1, setPte,
      u32_put32]
    exact Nat.mod_eq_of_lt hw
  rw [if_neg huv]
  by_cases hpu : Present (pdeOf d m (u / 1024))
  · rw [pteOf_present (by rw [hpde]; exact hpu), pteOf_present hpu, hpde, setPte, u32_put32_out]
    have h1 := (h.table _ hv1 hpr).1.1
    have h2 := (h.table _ hu1 hpu).1.1
    by_cases ht : pteAddr (pdeOf d m (u / 1024)) = pteAddr (pdeOf d m (v / 1024))
    · have hi := h.inj _ hu1 _ hv1 hpu hpr ht
      rw [ht]
      omega
    · simp only [PGSIZE] at h1 h2
      omega
  · rw [pteOf_absent hpu, pteOf_absent (by rw [hpde]; exact hpu)]

theorem setPte_extends : Extends K d m (setPte d m v w) := by
  have hv1 : v / 1024 < 1024 := by simp only [VPAGES] at hv; omega
  have htab := setPte_table (w := w) h hv hpr
  refine ⟨⟨h.page, fun j hj => ?_, fun j hj k hk => ?_, h.nodup, fun q hq => ?_⟩, fun q => ?_, fun q => (htab q).mpr, ?_⟩
  · rw [setPte_pde h hv hpr hj]
    exact h.table j hj
  · rw [setPte_pde h hv hpr hj, setPte_pde h hv hpr hk]
    exact h.inj j hj k hk
  · rw [htab]
    exact h.free q hq
  · rw [htab]
    rfl
  · intro a ha
    exact put32_page _ _ (h.table _ hv1 hpr).1.1 (Nat.mod_lt _ (by decide)) fun hc =>
      ha (.inr (.inr ⟨_, hv1, hpr, hc.symm⟩))

end SetPte

/-! ## `walkpgdir` and `mappages` -/

theorem wp_store32 {Q : Unit → Phys → Prop} {E : VmPanic → Phys → Prop} {a w : Nat} :
    wp (store32 a w) Q E m ↔ Q () ⟨put32 m.ram a w, m.freelist⟩ := Iff.rfl

theorem wp_load32 {Q : Nat → Phys → Prop} {E : VmPanic → Phys → Prop} {a : Nat} :
    wp (load32 a) Q E m ↔ Q (u32 m.ram a) m := Iff.rfl

/-- A table entry as `walkpgdir` stores it. -/
theorem tableEntry (hp : p % PGSIZE = 0) : p ||| PTE_P ||| PTE_W ||| PTE_U = p + 7 := by
  rw [Nat.or_assoc, Nat.or_assoc, show PTE_P ||| (PTE_W ||| PTE_U) = 7 from rfl]
  exact or_flags hp (by decide)

/-- **`walkpgdir`** finds the place of an entry, and makes a table for it if it has to and can. -/
theorem walkpgdir_spec (h : Dir K d m) (hv : v < VPAGES) :
    wp (walkpgdir d (PGSIZE * v) true)
      (fun r m' => match r with
        | none => m' = m ∧ m.freelist = []
        | some a => Extends K d m m' ∧ (∀ u < VPAGES, pteOf d m' u = pteOf d m u) ∧
            (∀ i < 1024, i ≠ v / 1024 → pdeOf d m' i = pdeOf d m i) ∧ Present (pdeOf d m' (v / 1024)) ∧
            a = pteAddr (pdeOf d m' (v / 1024)) + 4 * (v % 1024))
      (fun _ _ => False) m := by
  have hd : pdx (PGSIZE * v) = v / 1024 := by simp only [pdx, PGSIZE, VPAGES] at *; omega
  have ht : ptx (PGSIZE * v) = v % 1024 := by simp only [ptx, PGSIZE]; omega
  have hi : v / 1024 < 1024 := by simp only [VPAGES] at hv; omega
  rw [walkpgdir, hd, ht, wp_bind, wp_load32]
  by_cases hpr : Present (pdeOf d m (v / 1024))
  · rw [if_pos (show Present (u32 m.ram (d + 4 * (v / 1024))) from hpr), wp_pure]
    exact ⟨.refl h, fun _ _ => rfl, fun _ _ _ => rfl, hpr, rfl⟩
  rw [if_neg (show ¬ Present (u32 m.ram (d + 4 * (v / 1024))) from hpr), if_neg (by decide), wp_bind]
  rcases hfree : m.freelist with _ | ⟨p, next⟩
  · rw [wp_kalloc_nil hfree]
    exact ⟨rfl, rfl⟩
  · obtain ⟨hp, -⟩ := h.free p (by rw [hfree]; exact List.mem_cons_self)
    have hself : pdeOf d (addTable d m (v / 1024) p next) (v / 1024) = p + 7 := addTable_pde_self hp
    have hpte : ∀ u < VPAGES, pteOf d (addTable d m (v / 1024) p next) u = pteOf d m u := fun u hu =>
      addTable_pte h hfree hi hpr hu
    have hpres : Present (pdeOf d (addTable d m (v / 1024) p next) (v / 1024)) := by
      rw [hself]
      exact present_userEntry hp.1
    have haddr : p + 4 * (v % 1024) = pteAddr (pdeOf d (addTable d m (v / 1024) p next) (v / 1024)) + 4 * (v % 1024) := by
      rw [hself, pteAddr_userEntry hp.1]
    rw [wp_kalloc_cons hfree, wp_bind, wp_memset, wp_bind, tableEntry hp.1, wp_store32, wp_pure]
    exact ⟨addTable_extends h hfree hi hpr, hpte, fun j hj hne => addTable_pde h hfree hj hne, hpres, haddr⟩

/-- A table that is made for an entry, and the entry in it. -/
theorem noEmptyTable_set {w : Nat} (hw : Present w) (hv : v < VPAGES)
    (hpde : ∀ i < 1024, i ≠ v / 1024 → pdeOf d m' i = pdeOf d m i)
    (hpte : ∀ u < VPAGES, pteOf d m' u = if u = v then w else pteOf d m u) (h : NoEmptyTable d m) : NoEmptyTable d m' := by
  intro i hi hpr
  by_cases hiv : i = v / 1024
  · refine ⟨v, hv, hiv.symm, ?_⟩
    rw [hpte v hv, if_pos rfl]
    exact hw
  · rw [hpde i hi hiv] at hpr
    obtain ⟨u, hu, rfl, hpu⟩ := h i hi hpr
    refine ⟨u, hu, rfl, ?_⟩
    rw [hpte u hu, if_neg fun huv => hiv (by rw [huv])]
    exact hpu

/-- One trip of the loop of `mappages`, with `rest` what comes after it. -/
theorem mapOne_spec {w : Nat} {rest : VmM Bool} {Q : Bool → Phys → Prop} {E : VmPanic → Phys → Prop} (h : Dir K d m)
    (hv : v < VPAGES) (hw : w < 4294967296) (hpw : Present w) (hnone : m.freelist = [] → Q false m)
    (hremap : Present (pteOf d m v) → ∀ m', E .remap m')
    (hrest : ∀ m', ¬ Present (pteOf d m v) → Maps K d m m' →
      (∀ u < VPAGES, pteOf d m' u = if u = v then w else pteOf d m u) → wp rest Q E m') :
    wp (do
      match ← walkpgdir d (PGSIZE * v) true with
      | none => return false
      | some pte =>
        if Present (← load32 pte) then throw .remap
        else do
          store32 pte w
          rest) Q E m := by
  rw [wp_bind]
  refine wp_mono (walkpgdir_spec h hv) ?_ fun _ _ hf => hf.elim
  rintro (_ | a) m' hr
  · obtain ⟨rfl, hfree⟩ := hr
    exact hnone hfree
  · obtain ⟨he, hsame, hpde, hpr, rfl⟩ := hr
    dsimp only
    rw [wp_bind, wp_load32, ← pteOf_present hpr, hsame v hv]
    by_cases hp : Present (pteOf d m v)
    · rw [if_pos hp, wp_throw]
      exact hremap hp m'
    · rw [if_neg hp, wp_bind, wp_store32]
      have hset : ∀ u < VPAGES, pteOf d (setPte d m' v w) u = if u = v then w else pteOf d m u := fun u hu => by
        rw [setPte_pte he.dir hv hpr hw hu, hsame u hu]
      refine hrest (setPte d m' v w) hp ⟨he.trans (setPte_extends he.dir hv hpr), ?_⟩ hset
      refine noEmptyTable_set hpw hv (fun i hi hne => ?_) hset
      rw [setPte_pde he.dir hv hpr hi, hpde i hi hne]

theorem present_or (w : Nat) : Present (w ||| PTE_P) := by
  rw [present_iff, Nat.or_mod_two_eq_one]
  exact .inr rfl

/-- The word that `mappages` stores. -/
theorem mappedEntry {pa perm : Nat} (hpa : pa % PGSIZE = 0) (hperm : perm < PGSIZE) :
    pa ||| perm ||| PTE_P = pa + (perm ||| PTE_P) ∧ perm ||| PTE_P < PGSIZE ∧ Present (pa + (perm ||| PTE_P)) := by
  have hlt : perm ||| PTE_P < PGSIZE := Nat.or_lt_two_pow (n := 12) hperm (by decide)
  have heq : pa ||| perm ||| PTE_P = pa + (perm ||| PTE_P) := by
    rw [Nat.or_assoc]
    exact or_flags hpa hlt
  exact ⟨heq, hlt, heq ▸ present_or _⟩

/-- How many pages after `v` page `u` comes, around the address space. -/
def pagesTo (v u : Nat) : Nat := (u + (VPAGES - v)) % VPAGES

theorem pagesTo_of_le {v u : Nat} (hvu : v ≤ u) (hu : u < VPAGES) : pagesTo v u = u - v := by
  simp only [pagesTo, VPAGES] at *
  omega

theorem pagesTo_succ {v u : Nat} (hv : v < VPAGES) (hu : u < VPAGES) (hne : u ≠ v) :
    pagesTo v u = pagesTo ((v + 1) % VPAGES) u + 1 := by
  simp only [pagesTo, VPAGES] at *
  omega

/-- **The loop of `mappages`** maps `n + 1` pages from `v` on, around the address space if it has to, or runs out
    of memory; it stops only at a page that is mapped already. -/
theorem mapFrom_spec {perm : Nat} (hperm : perm < PGSIZE) (n : Nat) : ∀ {v pa : Nat} {m : Phys}, Dir K d m →
    v < VPAGES → n < VPAGES → pa % PGSIZE = 0 → pa < 4294967296 →
    wp (mapFrom d perm n (PGSIZE * v) pa)
      (fun ok m' => Maps K d m m' ∧
        (ok = true → ∀ u < VPAGES, pteOf d m' u =
          if pagesTo v u ≤ n then (pa + PGSIZE * pagesTo v u) % 4294967296 + (perm ||| PTE_P) else pteOf d m u) ∧
        (ok = true → ∀ u < VPAGES, pagesTo v u ≤ n → ¬ Present (pteOf d m u)) ∧
        (ok = false → m'.freelist = []))
      (fun e _ => e = .remap ∧ ∃ u < VPAGES, pagesTo v u ≤ n ∧ Present (pteOf d m u)) m := by
  induction n with
  | zero =>
    intro v pa m h hv _ hpa hlt
    obtain ⟨hword, hflags, hpres⟩ := mappedEntry hpa hperm
    have hself : pagesTo v v = 0 := by rw [pagesTo_of_le (Nat.le_refl v) hv, Nat.sub_self]
    have hzero : ∀ u < VPAGES, pagesTo v u ≤ 0 → u = v := fun u hu hle => by
      by_contra hne
      rw [pagesTo_succ hv hu hne] at hle
      omega
    rw [mapFrom, hword]
    refine mapOne_spec h hv (by simp only [PGSIZE] at *; omega) hpres
      (fun hf => ⟨.refl h, fun hok => Bool.noConfusion hok, fun hok => Bool.noConfusion hok, fun _ => hf⟩)
      (fun hp _ => ⟨rfl, v, hv, by rw [hself], hp⟩) fun m' hfresh he hm' => ?_
    refine ⟨he, fun _ u hu => ?_, fun _ u hu hle => ?_, fun hok => Bool.noConfusion hok⟩
    · rw [hm' u hu]
      by_cases huv : u = v
      · rw [if_pos huv, huv, hself, if_pos (Nat.le_refl 0), Nat.mul_zero, Nat.add_zero, Nat.mod_eq_of_lt hlt]
      · rw [if_neg huv, if_neg fun hle => huv (hzero u hu hle)]
    · rw [hzero u hu hle]
      exact hfresh
  | succ n ih =>
    intro v pa m h hv hn hpa hlt
    obtain ⟨hword, hflags, hpres⟩ := mappedEntry hpa hperm
    have hself : pagesTo v v = 0 := by rw [pagesTo_of_le (Nat.le_refl v) hv, Nat.sub_self]
    have hva : (PGSIZE * v + PGSIZE) % 4294967296 = PGSIZE * ((v + 1) % VPAGES) := by
      simp only [PGSIZE, VPAGES] at *
      omega
    -- the pages of the trips after this one are the others of the range
    have hback : ∀ u < VPAGES, pagesTo ((v + 1) % VPAGES) u ≤ n → u ≠ v := by
      rintro u hu hle rfl
      simp only [pagesTo, VPAGES] at *
      omega
    rw [mapFrom, hword, hva]
    refine mapOne_spec h hv (by simp only [PGSIZE] at *; omega) hpres
      (fun hf => ⟨.refl h, fun hok => Bool.noConfusion hok, fun hok => Bool.noConfusion hok, fun _ => hf⟩)
      (fun hp _ => ⟨rfl, v, hv, by rw [hself]; exact Nat.zero_le _, hp⟩) fun m1 hfresh he hm1 => ?_
    refine wp_mono (ih he.dir (Nat.mod_lt _ (by decide)) (by omega) (by simp only [PGSIZE] at *; omega)
      (Nat.mod_lt _ (by decide))) ?_ ?_
    · rintro ok m' ⟨he', hmap, hall, hfail⟩
      refine ⟨he.trans he', fun hok u hu => ?_, fun hok u hu hle => ?_, hfail⟩
      · rw [hmap hok u hu, hm1 u hu]
        by_cases huv : u = v
        · rw [if_neg fun hle => hback u hu hle huv, if_pos huv, huv, hself, if_pos (Nat.zero_le _), Nat.mul_zero,
            Nat.add_zero, Nat.mod_eq_of_lt hlt]
        · rw [if_neg huv, pagesTo_succ hv hu huv, Nat.mul_succ]
          by_cases hle : pagesTo ((v + 1) % VPAGES) u ≤ n
          · rw [if_pos hle, if_pos (by omega), Nat.mod_add_mod, Nat.add_assoc pa, Nat.add_comm PGSIZE]
          · rw [if_neg hle, if_neg (by omega)]
      · by_cases huv : u = v
        · rw [huv]
          exact hfresh
        · rw [pagesTo_succ hv hu huv] at hle
          have := hall hok u hu (by omega)
          rwa [hm1 u hu, if_neg huv] at this
    · rintro e _ ⟨rfl, u, hu, hle, hp⟩
      have huv := hback u hu hle
      rw [hm1 u hu, if_neg huv] at hp
      refine ⟨rfl, u, hu, ?_, hp⟩
      rw [pagesTo_succ hv hu huv]
      omega

/-- Where the loop of `mappages` starts and how many more pages it has, for a range that does not wrap around. -/
theorem mappages_eq {la size pa perm : Nat} (hsize : 0 < size) (hend : la + size ≤ 4294967296) :
    mappages d la size pa perm =
      mapFrom d perm ((la + size - 1) / PGSIZE - la / PGSIZE) (PGSIZE * (la / PGSIZE)) pa := by
  have hlast : usub ((la + size) % 4294967296) 1 = la + size - 1 := by
    have := usub_one (r := la) (k := size - 1)
    rw [Nat.sub_add_cancel hsize, Nat.mod_eq_of_lt (by omega : la + (size - 1) < 4294967296)] at this
    omega
  have hdown : ∀ a, pgRoundDown a = PGSIZE * (a / PGSIZE) := fun a => Nat.mul_comm _ _
  have hmono : la / PGSIZE ≤ (la + size - 1) / PGSIZE := Nat.div_le_div_right (by omega)
  rw [mappages, hlast, hdown, hdown, usub_of_le (Nat.mul_le_mul_left _ hmono) (by simp only [PGSIZE]; omega),
    ← Nat.mul_sub, Nat.mul_div_cancel_left _ (by decide)]

/-- A range of no bytes is taken for the whole address space. -/
theorem mappages_empty {la pa perm : Nat} (hla : la % PGSIZE = 0) (hpos : 0 < la) (hlt : la < 4294967296) :
    mappages d la 0 pa perm = mapFrom d perm (VPAGES - 1) (PGSIZE * (la / PGSIZE)) pa := by
  have hlast : usub (la % 4294967296) 1 = la - 1 := by rw [Nat.mod_eq_of_lt hlt, usub_of_le hpos hlt]
  have hdown : pgRoundDown (la - 1) = la - PGSIZE := by simp only [pgRoundDown, PGSIZE] at *; omega
  have hself : pgRoundDown la = PGSIZE * (la / PGSIZE) := Nat.mul_comm _ _
  have hn : usub (la - PGSIZE) (PGSIZE * (la / PGSIZE)) = PGSIZE * (VPAGES - 1) := by
    have hmul : PGSIZE * (la / PGSIZE) = la := by simp only [PGSIZE] at *; omega
    rw [hmul, usub, Nat.mod_eq_of_lt hlt]
    simp only [PGSIZE, VPAGES] at *
    omega
  rw [mappages, Nat.add_zero, hlast, hdown, hself, hn, Nat.mul_div_cancel_left _ (by decide)]

/-- **`mappages`** maps the pages of the range to the pages from `pa` on, or runs out of memory; it stops only at a
    page that is mapped already. -/
theorem mappages_spec {la size pa perm : Nat} (h : Dir K d m) (hperm : perm < PGSIZE) (hsize : 0 < size)
    (hend : la + size ≤ 4294967296) (hpa : pa % PGSIZE = 0) (hlt : pa < 4294967296) :
    wp (mappages d la size pa perm)
      (fun ok m' => Maps K d m m' ∧
        (ok = true → ∀ u < VPAGES, pteOf d m' u =
          if la / PGSIZE ≤ u ∧ u ≤ (la + size - 1) / PGSIZE then
            (pa + PGSIZE * (u - la / PGSIZE)) % 4294967296 + (perm ||| PTE_P)
          else pteOf d m u) ∧
        (ok = false → m'.freelist = []))
      (fun e _ => e = .remap ∧ ∃ u, la / PGSIZE ≤ u ∧ u ≤ (la + size - 1) / PGSIZE ∧ Present (pteOf d m u)) m := by
  have hlast : (la + size - 1) / PGSIZE < VPAGES := by simp only [PGSIZE, VPAGES]; omega
  have hmono : la / PGSIZE ≤ (la + size - 1) / PGSIZE := Nat.div_le_div_right (by omega)
  have hin : ∀ u < VPAGES, pagesTo (la / PGSIZE) u ≤ (la + size - 1) / PGSIZE - la / PGSIZE ↔
      la / PGSIZE ≤ u ∧ u ≤ (la + size - 1) / PGSIZE := by
    intro u hu
    generalize la / PGSIZE = a, (la + size - 1) / PGSIZE = b at *
    by_cases hau : a ≤ u
    · rw [pagesTo_of_le hau hu]
      omega
    · simp only [pagesTo, VPAGES] at *
      omega
  rw [mappages_eq hsize hend]
  refine wp_mono (mapFrom_spec hperm _ h (Nat.lt_of_le_of_lt hmono hlast) (Nat.lt_of_le_of_lt (Nat.sub_le _ _) hlast)
    hpa hlt) ?_ ?_
  · rintro ok m' ⟨he, hmap, -, hfail⟩
    refine ⟨he, fun hok u hu => ?_, hfail⟩
    rw [hmap hok u hu]
    by_cases hc : la / PGSIZE ≤ u ∧ u ≤ (la + size - 1) / PGSIZE
    · rw [if_pos hc, if_pos ((hin u hu).mpr hc), pagesTo_of_le hc.1 hu]
    · rw [if_neg hc, if_neg fun hle => hc ((hin u hu).mp hle)]
  · rintro e _ ⟨rfl, u, hu, hle, hp⟩
    obtain ⟨h1, h2⟩ := (hin u hu).mp hle
    exact ⟨rfl, u, h1, h2, hp⟩

/-- A range that holds a mapped page where the loop starts, or is empty, is never mapped. -/
theorem mappages_taken {la size pa perm u : Nat} (h : Dir K d m) (hperm : perm < PGSIZE) (hla : la < 4294967296)
    (hpa : pa < 4294967296) (hu : u < VPAGES) (hp : Present (pteOf d m u))
    (hcase : (u = la / PGSIZE ∧ 0 < size ∧ la + size ≤ 4294967296) ∨ (size = 0 ∧ 0 < la ∧ la % PGSIZE = 0 ∧ pa % PGSIZE = 0)) :
    wp (mappages d la size pa perm) (fun ok _ => ok = false) (fun _ _ => True) m := by
  rcases hcase with ⟨rfl, hsize, hend⟩ | ⟨rfl, hpos, hal, hpal⟩
  · rw [mappages_eq hsize hend, mapFrom.eq_def]
    have hword : pa ||| perm ||| PTE_P < 2 ^ 32 :=
      Nat.or_lt_two_pow (Nat.or_lt_two_pow hpa (Nat.lt_trans hperm (by decide))) (by decide)
    exact mapOne_spec h hu hword (present_or _) (fun _ => rfl) (fun _ _ => trivial) fun _ hfresh => absurd hp hfresh
  · rw [mappages_empty hal hpos hla]
    have hlv : la / PGSIZE < VPAGES := by simp only [PGSIZE, VPAGES]; omega
    refine wp_mono (mapFrom_spec hperm _ h hlv (by decide) hpal hpa) ?_ fun _ _ _ => trivial
    rintro (_ | _) m' ⟨-, -, hfresh, -⟩
    · rfl
    · refine absurd hp (hfresh rfl u hu ?_)
      have : pagesTo (la / PGSIZE) u < VPAGES := Nat.mod_lt _ (by decide)
      exact Nat.le_sub_one_of_lt this

/-! ## The kernel part -/

/-- The linker's data segment starts on a page after the kernel's text and before the end of memory. -/
def Symbols.Linked (K : Symbols) : Prop := K.data % PGSIZE = 0 ∧ 0x100000 < K.data ∧ K.data < PHYSTOP

instance (K : Symbols) : Decidable K.Linked := inferInstanceAs (Decidable (_ ∧ _))

/-- The entry of page `v` in the kernel part: from `USERTOP` to `PHYSTOP` and from `0xFE000000` on, each page is
    mapped to itself, the kernel's text read-only. -/
def kernelPte (K : Symbols) (v : Nat) : Nat :=
  if v < UPAGES then 0
  else if v < 256 then PGSIZE * v + (PTE_W ||| PTE_P)
  else if v < K.data / PGSIZE then PGSIZE * v + PTE_P
  else if v < 4096 then PGSIZE * v + (PTE_W ||| PTE_P)
  else if v < 1040384 then 0
  else PGSIZE * v + (PTE_W ||| PTE_P)

theorem kernelPte_user {v : Nat} (h : v < UPAGES) : kernelPte K v = 0 := if_pos h

theorem user_iff {w : Nat} : w &&& PTE_U ≠ 0 ↔ w / 4 % 2 = 1 := by
  rw [show PTE_U = 2 ^ 2 from rfl, Nat.and_two_pow, Nat.testBit_eq_decide_div_mod_eq]
  by_cases h : w / 2 ^ 2 % 2 = 1 <;> simp_all

/-- No entry of the kernel part is the user's. -/
theorem kernelPte_not_user {v : Nat} : ¬ kernelPte K v &&& PTE_U ≠ 0 := by
  rw [user_iff]
  simp only [kernelPte, show PTE_W ||| PTE_P = 3 from rfl, PGSIZE, PTE_P]
  split_ifs <;> first | decide | omega

/-- A region of `kmap`: each of its pages is mapped to itself. -/
theorem region_spec {s e perm : Nat} (h : Dir K d m) (hperm : perm < PGSIZE) (hs : s % PGSIZE = 0) (he : e % PGSIZE = 0)
    (hse : s < e) (hend : e ≤ 4294967296) (hfresh : ∀ u, s / PGSIZE ≤ u → u < e / PGSIZE → ¬ Present (pteOf d m u)) :
    wp (mappages d s (e - s) s perm)
      (fun ok m' => Maps K d m m' ∧
        (ok = true → ∀ u < VPAGES, pteOf d m' u =
          if s / PGSIZE ≤ u ∧ u < e / PGSIZE then PGSIZE * u + (perm ||| PTE_P) else pteOf d m u) ∧
        (ok = false → m'.freelist = []))
      (fun _ _ => False) m := by
  have hlast : ∀ u, u ≤ (s + (e - s) - 1) / PGSIZE ↔ u < e / PGSIZE := by
    intro u
    simp only [PGSIZE] at *
    omega
  refine wp_mono (mappages_spec h hperm (by omega) (by omega) hs (by omega)) ?_ ?_
  · rintro ok m' ⟨hx, hmap, hfail⟩
    refine ⟨hx, fun hok u hu => ?_, hfail⟩
    rw [hmap hok u hu]
    by_cases hc : s / PGSIZE ≤ u ∧ u < e / PGSIZE
    · have hpa : (s + PGSIZE * (u - s / PGSIZE)) % 4294967296 = PGSIZE * u := by
        simp only [PGSIZE, VPAGES] at *
        omega
      rw [if_pos hc, if_pos ⟨hc.1, (hlast u).mpr hc.2⟩, hpa]
    · rw [if_neg hc, if_neg fun hle => hc ⟨hle.1, (hlast u).mp hle.2⟩]
  · rintro _ _ ⟨-, u, h1, h2, hp⟩
    exact hfresh u h1 ((hlast u).mp h2) hp

/-- The first of some regions, and what comes after it. -/
theorem mapRegions_cons {s e e' perm : Nat} {rest : List (Nat × Nat × Nat)} {Q : Bool → Phys → Prop}
    {E : VmPanic → Phys → Prop} (h : Dir K d m) (hsize : usub e' s = e - s) (hperm : perm < PGSIZE)
    (hs : s % PGSIZE = 0) (he : e % PGSIZE = 0) (hse : s < e) (hend : e ≤ 4294967296)
    (hfresh : ∀ u, s / PGSIZE ≤ u → u < e / PGSIZE → ¬ Present (pteOf d m u))
    (hnone : ∀ m', Maps K d m m' → m'.freelist = [] → Q false m')
    (hrest : ∀ m', Maps K d m m' → (∀ u < VPAGES, pteOf d m' u =
      if s / PGSIZE ≤ u ∧ u < e / PGSIZE then PGSIZE * u + (perm ||| PTE_P) else pteOf d m u) →
      wp (mapRegions d rest) Q E m') : wp (mapRegions d ((s, e', perm) :: rest)) Q E m := by
  rw [mapRegions, hsize, wp_bind]
  refine wp_mono (region_spec h hperm hs he hse hend hfresh) ?_ fun _ _ hf => hf.elim
  rintro (_ | _) m' ⟨hx, hmap, hfail⟩
  · exact hnone m' hx (hfail rfl)
  · exact hrest m' hx (hmap rfl)

/-- The four regions, the last entered first, in the order of their addresses. -/
theorem kmap_regions {k u w r : Nat} (hk : 256 < k ∧ k < 4096) (hu : u < 1048576) :
    (if 1040384 ≤ u ∧ u < 1048576 then w else if k ≤ u ∧ u < 4096 then w else if 256 ≤ u ∧ u < k then r
      else if 160 ≤ u ∧ u < 256 then w else 0) =
    if u < 160 then 0 else if u < 256 then w else if u < k then r else if u < 4096 then w
      else if u < 1040384 then 0 else w := by
  by_cases h1 : u < 160
  · rw [if_neg (by omega), if_neg (by omega), if_neg (by omega), if_neg (by omega), if_pos h1]
  by_cases h2 : u < 256
  · rw [if_neg (by omega), if_neg (by omega), if_neg (by omega), if_pos (by omega), if_neg h1, if_pos h2]
  rw [if_neg h1, if_neg h2]
  by_cases h3 : u < k
  · rw [if_neg (by omega), if_neg (by omega), if_pos (by omega), if_pos h3]
  rw [if_neg h3]
  by_cases h4 : u < 4096
  · rw [if_neg (by omega), if_pos (by omega), if_pos h4]
  rw [if_neg h4]
  by_cases h5 : u < 1040384
  · rw [if_neg (by omega), if_neg (by omega), if_neg (by omega), if_neg (by omega), if_pos h5]
  · rw [if_pos (by omega), if_neg h5]

/-- The regions of `kmap`, entered in an empty directory. -/
theorem mapRegions_linked (hl : K.Linked) (h : Dir K d m) (hz : ∀ u < VPAGES, pteOf d m u = 0) :
    wp (mapRegions d (kmap K))
      (fun ok m' => Maps K d m m' ∧ (ok = true → ∀ v < VPAGES, pteOf d m' v = kernelPte K v) ∧
        (ok = false → m'.freelist = []))
      (fun _ _ => False) m := by
  obtain ⟨hal, hlo, hhi⟩ := hl
  have hdata : 256 < K.data / PGSIZE ∧ K.data / PGSIZE < 4096 := by simp only [PGSIZE, PHYSTOP] at *; omega
  refine mapRegions_cons h (e := 0x100000) (usub_of_le (by decide) (by decide)) (by decide) (by decide) (by decide)
    (by decide) (by decide) (fun u h1 h2 => ?_) (fun m' hx hf => ⟨hx, nofun, fun _ => hf⟩) fun m1 x1 p1 => ?_
  · rw [hz u (by simp only [PGSIZE, VPAGES] at *; omega)]
    exact not_present_zero
  refine mapRegions_cons x1.dir (e := K.data) (usub_of_le (by omega) (by simp only [PHYSTOP] at *; omega)) (by decide)
    (by decide) hal hlo (by simp only [PHYSTOP] at *; omega) (fun u h1 h2 => ?_)
    (fun m' hx hf => ⟨x1.trans hx, nofun, fun _ => hf⟩) fun m2 x2 p2 => ?_
  · have hu : u < VPAGES := by simp only [PGSIZE, VPAGES] at *; omega
    rw [p1 u hu, if_neg (by simp only [PGSIZE, USERTOP] at *; omega), hz u hu]
    exact not_present_zero
  refine mapRegions_cons x2.dir (e := PHYSTOP) (usub_of_le (by omega) (by decide)) (by decide) hal (by decide) hhi
    (by decide) (fun u h1 h2 => ?_) (fun m' hx hf => ⟨x1.trans (x2.trans hx), nofun, fun _ => hf⟩) fun m3 x3 p3 => ?_
  · have hu : u < VPAGES := by simp only [PGSIZE, VPAGES, PHYSTOP] at *; omega
    rw [p2 u hu, if_neg (by omega), p1 u hu, if_neg (by simp only [PGSIZE, USERTOP] at *; omega), hz u hu]
    exact not_present_zero
  refine mapRegions_cons x3.dir (e := 4294967296) (by decide) (by decide) (by decide) (by decide) (by decide) (by decide)
    (fun u h1 h2 => ?_) (fun m' hx hf => ⟨x1.trans (x2.trans (x3.trans hx)), nofun, fun _ => hf⟩) fun m4 x4 p4 => ?_
  · have hu : u < VPAGES := by simp only [PGSIZE, VPAGES] at *; omega
    have hout : 4096 ≤ u := by simp only [PGSIZE] at *; omega
    rw [p3 u hu, if_neg (by simp only [PGSIZE, PHYSTOP] at *; omega), p2 u hu, if_neg (by omega), p1 u hu,
      if_neg (by simp only [PGSIZE, USERTOP] at *; omega), hz u hu]
    exact not_present_zero
  rw [mapRegions, wp_pure]
  refine ⟨x1.trans (x2.trans (x3.trans x4)), fun _ u hu => ?_, nofun⟩
  rw [p4 u hu, p3 u hu, p2 u hu, p1 u hu, hz u hu, kernelPte]
  have hc : (0xFE000000 / PGSIZE, 4294967296 / PGSIZE, PHYSTOP / PGSIZE, 0x100000 / PGSIZE, USERTOP / PGSIZE) =
    (1040384, 1048576, 4096, 256, 160) := by decide
  simp only [Prod.mk.injEq] at hc
  obtain ⟨c1, c2, c3, c4, c5⟩ := hc
  rw [c1, c2, c3, c4, c5, Nat.zero_or]
  exact kmap_regions hdata hu

/-- A region that is never entered. -/
theorem mapRegions_taken {s e perm : Nat} {rest : List (Nat × Nat × Nat)}
    (h : wp (mappages d s (usub e s) s perm) (fun ok _ => ok = false) (fun _ _ => True) m) :
    wp (mapRegions d ((s, e, perm) :: rest)) (fun ok _ => ok = false) (fun _ _ => True) m := by
  rw [mapRegions, wp_bind]
  refine wp_mono h ?_ fun _ _ _ => trivial
  rintro _ m' rfl
  rfl

/-- With the data segment elsewhere the regions of `kmap` overlap, or one of them is empty, and they are never all
    entered. -/
theorem mapRegions_unlinked (hl : ¬ K.Linked) (h : Dir K d m) (hz : ∀ u < VPAGES, pteOf d m u = 0) :
    wp (mapRegions d (kmap K)) (fun ok _ => ok = false) (fun _ _ => True) m := by
  have hlo := K.data_ge
  have hhi : K.data ≤ PHYSTOP := Nat.le_trans K.data_le K.kend_le
  have hdlt : K.data < 4294967296 := by simp only [PHYSTOP] at *; omega
  refine mapRegions_cons h (e := 0x100000) (usub_of_le (by decide) (by decide)) (by decide) (by decide) (by decide)
    (by decide) (by decide) (fun u h1 h2 => ?_) (fun m' _ _ => rfl) fun m1 x1 p1 => ?_
  · rw [hz u (by simp only [PGSIZE, VPAGES] at *; omega)]
    exact not_present_zero
  have hfirst : Present (pteOf d m1 160) := by
    rw [p1 160 (by decide), if_pos (by decide)]
    decide
  by_cases hd : K.data = 0x100000
  · -- no text: the second region goes around to the first
    refine mapRegions_taken ?_
    rw [hd, show usub 0x100000 0x100000 = 0 from rfl]
    exact mappages_taken x1.dir (by decide) (by decide) (by decide) (u := 160) (by decide) hfirst
      (.inr ⟨rfl, by decide, by decide, by decide⟩)
  rw [mapRegions, usub_of_le hlo hdlt, wp_bind]
  refine wp_mono (mappages_spec x1.dir (by decide) (by omega) (by omega) (by decide) (by decide)) ?_
    fun _ _ _ => trivial
  rintro (_ | _) m2 ⟨x2, p2, -⟩
  · rfl
  rw [if_pos rfl]
  refine mapRegions_taken ?_
  by_cases htop : K.data = PHYSTOP
  · -- no data: the third region goes around to the first
    rw [htop, show usub PHYSTOP PHYSTOP = 0 from rfl]
    refine mappages_taken x2.dir (by decide) (by decide) (by decide) (u := 160) (by decide) ?_
      (.inr ⟨rfl, by decide, by decide, by decide⟩)
    rw [p2 rfl 160 (by decide), if_neg fun hc => absurd hc.1 (by decide)]
    exact hfirst
  · -- the third region starts in the last page of the second
    have hal : K.data % PGSIZE ≠ 0 := fun hc => hl ⟨hc, by omega, by omega⟩
    have hv : K.data / PGSIZE < VPAGES := by simp only [PGSIZE, VPAGES]; omega
    rw [usub_of_le hhi (by decide)]
    refine mappages_taken x2.dir (by decide) hdlt hdlt hv ?_
      (.inl ⟨rfl, by omega, by simp only [PHYSTOP] at *; omega⟩)
    rw [p2 rfl _ hv, if_pos (by simp only [PGSIZE] at *; omega), present_iff, show 0 ||| PTE_P = 1 from rfl]
    simp only [PGSIZE]
    omega

/-- The free list as `kinit` and `kfree` keep it. -/
structure FreePages (K : Symbols) (m : Phys) : Prop where
  nodup : m.freelist.Nodup
  page : ∀ q ∈ m.freelist, IsPage K q

/-- **What `setupkvm` leaves** when it makes directory `d`: the kernel part, in pages that were free. -/
structure Built (K : Symbols) (d : Nat) (m m' : Phys) : Prop where
  linked : K.Linked
  dir : Dir K d m'
  entries : ∀ v < VPAGES, pteOf d m' v = kernelPte K v
  pages : ∀ q, (q ∈ m'.freelist ∨ IsTable d m' q) ↔ q ∈ m.freelist
  frame : SameOff (· ∈ m.freelist) m m'
  full : NoEmptyTable d m'

/-- Between `PHYSTOP` and the devices no table is made. -/
theorem Built.absent {i : Nat} (h : Built K d m m') (hlo : 4 ≤ i) (hhi : i < 1016) : ¬ Present (pdeOf d m' i) := by
  intro hpr
  obtain ⟨u, hu, rfl, hpu⟩ := h.full i (by omega) hpr
  have hdata : K.data / PGSIZE < 4096 := by
    have := h.linked.2.2
    simp only [PGSIZE, PHYSTOP] at *
    omega
  rw [h.entries u hu, kernelPte, if_neg (by simp only [UPAGES]; omega), if_neg (by omega), if_neg (by omega),
    if_neg (by omega), if_pos (by omega)] at hpu
  exact not_present_zero hpu

/-- The first page of the I/O hole is mapped, so the page table of the first 4 MB is there. -/
theorem Built.first (h : Built K d m m') : Present (u32 m'.ram d) := by
  by_contra hc
  have hhole : pteOf d m' 160 = kernelPte K 160 := h.entries 160 (by decide)
  rw [pteOf_absent (v := 160) hc, kernelPte, if_neg (by decide), if_pos (by decide)] at hhole
  exact absurd hhole (by decide)

/-- A cleared page is an empty directory. -/
theorem emptyDir {next : List Nat} (hf : FreePages K m) (hfree : m.freelist = p :: next) :
    Dir K p ⟨fill m.ram p PGSIZE 0, next⟩ ∧ (∀ q, IsTable p ⟨fill m.ram p PGSIZE 0, next⟩ q ↔ q = p) ∧
      (∀ u < VPAGES, pteOf p ⟨fill m.ram p PGSIZE 0, next⟩ u = 0) ∧ NoEmptyTable p ⟨fill m.ram p PGSIZE 0, next⟩ := by
  have hpde : ∀ i < 1024, ¬ Present (pdeOf p ⟨fill m.ram p PGSIZE 0, next⟩ i) := fun i hi => by
    rw [pdeOf, cleared_word _ _ hi]
    exact not_present_zero
  have htab : ∀ q, IsTable p ⟨fill m.ram p PGSIZE 0, next⟩ q ↔ q = p := by
    intro q
    rw [isTable_iff]
    constructor
    · rintro (rfl | ⟨i, hi, hpr, -⟩)
      · rfl
      · exact absurd hpr (hpde i hi)
    · exact .inl
  have hnd : (p :: next).Nodup := hfree ▸ hf.nodup
  refine ⟨⟨hf.page p (by rw [hfree]; exact List.mem_cons_self), fun i hi hpr => absurd hpr (hpde i hi),
    fun i hi _ _ hpr => absurd hpr (hpde i hi), (List.nodup_cons.mp hnd).2, fun q hq => ⟨?_, ?_⟩⟩, htab, fun u hu => ?_,
    fun i hi hpr => absurd hpr (hpde i hi)⟩
  · exact hf.page q (by rw [hfree]; exact List.mem_cons_of_mem _ hq)
  · rw [htab]
    rintro rfl
    exact (List.nodup_cons.mp hnd).1 hq
  · exact pteOf_absent (hpde _ (by simp only [VPAGES] at hu; omega))

/-- A directory has at most 1024 tables. -/
theorem tables_length {l : List Nat} (hnd : l.Nodup) (h : ∀ q ∈ l, IsTable d m q) : l.length ≤ 1025 := by
  have hsub : l ⊆ d :: (List.range 1024).map fun i => pteAddr (pdeOf d m i) := by
    intro q hq
    rcases h q hq with rfl | ⟨i, hi, -, rfl⟩
    · exact List.mem_cons_self
    · exact List.mem_cons_of_mem _ (List.mem_map.mpr ⟨i, List.mem_range.mpr hi, rfl⟩)
  refine (List.subperm_of_subset hnd hsub).length_le.trans (Nat.le_of_eq ?_)
  rw [List.length_cons, List.length_map, List.length_range]

/-- **`setupkvm`** makes a directory with the kernel part, or finds too little memory; it stops only where the
    linker's symbols make regions overlap. -/
theorem setupkvm_spec (hf : FreePages K m) :
    wp (setupkvm K)
      (fun r m' => match r with
        | some d => m.freelist.head? = some d ∧ Built K d m m'
        | none => K.Linked → m'.freelist = [] ∧ m.freelist.length ≤ 1025)
      (fun _ _ => ¬ K.Linked) m := by
  rw [setupkvm, wp_bind]
  rcases hfree : m.freelist with _ | ⟨p, next⟩
  · rw [wp_kalloc_nil hfree]
    exact fun _ => ⟨hfree, Nat.zero_le _⟩
  rw [wp_kalloc_cons hfree]
  dsimp only
  rw [wp_bind, wp_memset, wp_bind]
  obtain ⟨hdir, htab, hz, hnone⟩ := emptyDir hf hfree
  by_cases hl : K.Linked
  · refine wp_mono (mapRegions_linked hl hdir hz) ?_ fun _ _ h => h.elim
    rintro (_ | _) m' ⟨hx, hmap, hfail⟩
    · refine fun _ => ⟨hfail rfl, ?_⟩
      rw [← hfree]
      refine tables_length (d := p) (m := m') hf.nodup fun q hq => ?_
      have hq' := (hx.pages q).mpr (by rw [htab, or_comm, ← List.mem_cons, ← hfree]; exact hq)
      rw [hfail rfl] at hq'
      exact hq'.resolve_left List.not_mem_nil
    · refine ⟨rfl, hl, hx.dir, hmap rfl, fun q => ?_, ?_, hx.full hnone⟩
      · rw [hx.pages q, htab, hfree, List.mem_cons]
        exact Or.comm
      · intro a ha
        have hap : pgRoundDown a ≠ p := fun hc => ha (by rw [hc, hfree]; exact List.mem_cons_self)
        refine (hx.frame a ?_).trans (fill_page m.ram 0 hdir.page.1 hap)
        rintro (hin | hin)
        · exact ha (by rw [hfree]; exact List.mem_cons_of_mem _ hin)
        · exact hap ((htab _).mp hin)
  · refine wp_mono (mapRegions_unlinked hl hdir hz) ?_ fun _ _ _ => hl
    rintro _ m' rfl
    exact fun h => absurd h hl

end Xv6
