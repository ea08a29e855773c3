import Xv6.Mm.Tables

/-!
# `Mm.Image` — an address space from `setupkvm` to `freevm`

An address space that `setupkvm` made and `allocuvm` has grown to `sz` bytes (`UserImage`): the kernel part is there,
the user pages are those of `[0, PGROUNDUP(sz))`, and directory, tables and user pages are pages apart. Growing it
keeps it one, and `freevm` returns exactly its pages.
-/

namespace Xv6

open Bytes Hoare

variable {K : Symbols} {d sz : Nat} {m m' m'' : Phys}

/-! ## Images -/

/-- The tables of a space are no free pages. -/
theorem Space.table_kept (h : Space K d m) : ∀ q, IsTable d m q → ¬ q ∈ m.freelist :=
  fun q hq hf => (h.free q hf).2 hq

/-- **An address space of `sz` bytes.** -/
structure UserImage (K : Symbols) (d sz : Nat) (m : Phys) : Prop where
  space : Space K d m
  dir : Dir K d m
  user : ∀ i < UPAGES, Present (userPte d m i) ↔ i < pages sz
  flags : ∀ i < UPAGES, Present (userPte d m i) → userPte d m i % PGSIZE = 7
  kernel : ∀ v < VPAGES, UPAGES ≤ v → pteOf d m v = kernelPte K v
  top : sz ≤ USERTOP

theorem UserImage.mapped (h : UserImage K d sz m) : UserMapped ⟨m, d, sz⟩ := (userMapped_iff h.space.first h.top).mpr h.user

/-- A directory that reads the same and is apart from the free pages is in order. -/
theorem Dir.of_pde (h : Dir K d m) (hpde : ∀ i < 1024, pdeOf d m' i = pdeOf d m i) (hnd : m'.freelist.Nodup)
    (hfree : ∀ q ∈ m'.freelist, IsPage K q ∧ ¬ IsTable d m' q) : Dir K d m' where
  page := h.page
  table := fun i hi => by rw [hpde i hi]; exact h.table i hi
  inj := fun i hi j hj => by rw [hpde i hi, hpde j hj]; exact h.inj i hi j hj
  nodup := hnd
  free := hfree

/-- The user pages of a directory. -/
def UserPage (d : Nat) (m : Phys) (q : Nat) : Prop := ∃ i < UPAGES, Present (userPte d m i) ∧ pteAddr (userPte d m i) = q

/-- The pages that an address space consists of. -/
def Part (d : Nat) (m : Phys) (q : Nat) : Prop := IsTable d m q ∨ UserPage d m q

theorem own_iff {q : Nat} : Own d m q ↔ q ∈ m.freelist ∨ Part d m q := by
  rw [Own, Owned, Part, UserPage, or_assoc]
  exact or_congr Iff.rfl Or.comm

theorem UserImage.part_not_free (h : UserImage K d sz m) {q : Nat} (hq : Part d m q) : q ∉ m.freelist := by
  rcases hq with ht | ⟨i, hi, hpr, rfl⟩
  · exact h.space.table_kept q ht
  · exact (h.space.user i hi hpr).2.1

section Kept

variable {S : Nat → Prop} (h : UserImage K d sz m) (hs : SameOff S m m') (hS : ∀ q, IsTable d m q → ¬ S q)
include h hs hS

theorem UserImage.userPte_kept {i : Nat} (hi : i < 1024) : userPte d m' i = userPte d m i := by
  have h0 := hs.pde h.dir.page.1 hS (i := 0) (by decide)
  simp only [pdeOf, Nat.mul_zero, Nat.add_zero] at h0
  rw [← pteOf_user h.space.first hi, ← pteOf_user (by rw [h0]; exact h.space.first) hi]
  exact hs.pte h.dir.page.1 hS (Nat.lt_trans hi (by decide))

theorem UserImage.part_kept (q : Nat) : Part d m' q ↔ Part d m q := by
  refine or_congr (hs.isTable h.dir.page.1 hS q) (exists_congr fun i => and_congr_right fun hi => ?_)
  rw [h.userPte_kept hs hS (Nat.lt_trans hi (by decide))]

/-- **Elsewhere.** What happens outside the tables of an image, with its pages kept off the free list, leaves it an
    image. -/
theorem UserImage.kept (hnd : m'.freelist.Nodup) (hfree : ∀ q ∈ m'.freelist, IsPage K q ∧ ¬ Part d m q) :
    UserImage K d sz m' := by
  have hd := h.dir.page.1
  have htab := hs.isTable hd hS
  have h0 := hs.pde hd hS (i := 0) (by decide)
  simp only [pdeOf, Nat.mul_zero, Nat.add_zero] at h0
  have hu : ∀ i < UPAGES, userPte d m' i = userPte d m i := fun i hi =>
    h.userPte_kept hs hS (Nat.lt_trans hi (by decide))
  have hfree' : ∀ q ∈ m'.freelist, IsPage K q ∧ ¬ IsTable d m' q := fun q hq => by
    rw [htab]
    exact ⟨(hfree q hq).1, fun ht => (hfree q hq).2 (.inl ht)⟩
  refine ⟨⟨h.space.dir, by rw [h0]; exact h.space.first, fun i hi => ?_, hnd, hfree', fun i hi => ?_,
    fun i hi j hj => ?_⟩, h.dir.of_pde (fun i hi => hs.pde hd hS hi) hnd hfree', fun i hi => ?_, fun i hi => ?_,
    fun v hv hout => ?_, h.top⟩
  · have hp : u32 m'.ram (d + 4 * i) = u32 m.ram (d + 4 * i) := hs.pde hd hS hi
    rw [hp]
    exact h.space.apart i hi
  · rw [hu i hi, htab]
    intro hpr
    obtain ⟨h1, -, h3⟩ := h.space.user i hi hpr
    exact ⟨h1, fun hq => (hfree _ hq).2 (.inr ⟨i, hi, hpr, rfl⟩), h3⟩
  · rw [hu i hi, hu j hj]
    exact h.space.inj i hi j hj
  · rw [hu i hi]
    exact h.user i hi
  · rw [hu i hi]
    exact h.flags i hi
  · rw [hs.pte hd hS hv]
    exact h.kernel v hv hout

end Kept

/-- What `setupkvm` makes is an address space of no bytes. -/
theorem Built.image (h : Built K d m m') : UserImage K d 0 m' := by
  have huser : ∀ i < UPAGES, ¬ Present (userPte d m' i) := fun i hi => by
    rw [← pteOf_user h.first (Nat.lt_trans hi (by decide)), h.entries i (Nat.lt_trans hi (by decide)), kernelPte_user hi]
    exact not_present_zero
  refine ⟨⟨h.dir.page, h.first, fun i hi hpr => (h.dir.table i hi hpr).2, h.dir.nodup, h.dir.free,
    fun i hi hpr => absurd hpr (huser i hi), fun i hi _ _ hpr => absurd hpr (huser i hi)⟩, h.dir, fun i hi => ?_,
    fun i hi hpr => absurd hpr (huser i hi), fun v hv _ => h.entries v hv, by decide⟩
  exact ⟨fun hpr => absurd hpr (huser i hi), fun hlt => absurd hlt (Nat.not_lt_zero i)⟩

/-- Entries outside the user part are kept by growing and shrinking. -/
theorem Frame.pte {lo hi v : Nat} (hf : Frame d lo hi m m') (h : Dir K d m) (hs : Space K d m) (hhi : hi ≤ UPAGES)
    (hv : v < VPAGES) (hout : UPAGES ≤ v) : pteOf d m' v = pteOf d m v := by
  have hv1 : v / 1024 < 1024 := by simp only [VPAGES] at hv; omega
  have hpde : pdeOf d m' (v / 1024) = pdeOf d m (v / 1024) := hf.pde hs hv1
  by_cases hpr : Present (pdeOf d m (v / 1024))
  · rw [pteOf_present hpr, pteOf_present (by rw [hpde]; exact hpr), hpde]
    refine hf _ (.inr ⟨_, hv1, hpr, rfl⟩) _ (Nat.mod_lt _ (by decide)) fun he => .inr ?_
    -- the first table serves the first 4 MB only
    have h0 := h.inj _ hv1 0 (by decide) hpr hs.first he
    simp only [UPAGES] at hhi hout
    omega
  · rw [pteOf_absent hpr, pteOf_absent (by rw [hpde]; exact hpr)]

/-- Growing and shrinking keep an image one, of the size that the user entries show. -/
theorem UserImage.evolves {lo hi sz' : Nat} (h : UserImage K d sz m) (he : Evolves K d lo hi m m') (hhi : hi ≤ UPAGES)
    (htop : sz' ≤ USERTOP) (huser : ∀ i < UPAGES, Present (userPte d m' i) ↔ i < pages sz') : UserImage K d sz' m' := by
  refine ⟨he.space, h.dir.of_pde (fun i hi => he.frame.pde h.space hi) he.space.nodup he.space.free, huser,
    fun i hi hpr => ?_, fun v hv hout => ?_, htop⟩
  · rcases he.entry i hi hpr with heq | hnew
    · rw [heq] at hpr ⊢
      exact h.flags i hi hpr
    · exact hnew
  · rw [he.frame.pte h.dir h.space hhi hv hout]
    exact h.kernel v hv hout

/-- **`allocuvm`** grows an image, or leaves one of the same size because there are not enough free pages. -/
theorem UserImage.alloc (h : UserImage K d sz m) (newsz : Nat) :
    wp (allocuvm K d sz newsz)
      (fun r m' => Evolves K d 0 UPAGES m m' ∧
        ((r = 0 ∧ UserImage K d sz m' ∧ (newsz ≤ USERTOP → m.freelist.length < pages newsz - pages sz)) ∨
          (r = max sz newsz ∧ UserImage K d r m' ∧ pages newsz - pages sz ≤ m.freelist.length)))
      (fun _ _ => False) m := by
  simp only [allocuvm, wp_ite, wp_pure]
  refine ⟨fun hgt => ⟨.refl h.space, .inl ⟨trivial, h, fun hle => absurd hle (Nat.not_le_of_lt hgt)⟩⟩,
    fun hle => ⟨fun hlt => ?_, fun hge => ?_⟩⟩
  · have hmono := pages_mono (Nat.le_of_lt hlt)
    exact ⟨.refl h.space, .inr ⟨(Nat.max_eq_left (Nat.le_of_lt hlt)).symm, h, by omega⟩⟩
  have htop : newsz ≤ USERTOP := Nat.le_of_not_lt hle
  have hpg := pages_le htop
  have hmono := pages_mono (Nat.le_of_not_lt hge)
  rw [pages_between (Nat.le_of_not_lt hge) htop, Nat.max_eq_right (Nat.le_of_not_lt hge)]
  rcases Nat.lt_or_eq_of_le (Nat.le_of_not_lt hge) with hlt | rfl
  · rw [pgRoundUp_pages h.top]
    have hnone : ∀ j, pages sz ≤ j → j < pages newsz → ¬ Present (userPte d m j) := fun j h1 h2 hpr =>
      absurd ((h.user j (by omega)).mp hpr) (by omega)
    refine wp_post (allocPages_spec hlt htop _ h.space (Nat.le_refl _) (by omega) hnone) fun r m' hr => ?_
    -- the entries below the old size and above the new one are as they were
    have hsame : Evolves K d (pages sz) (pages newsz) m m' → ∀ i < UPAGES, i < pages sz ∨ pages newsz ≤ i →
        userPte d m' i = userPte d m i := fun he i hi hout =>
      he.frame.userPte_eq h.space (Nat.lt_trans hi (by decide)) hout
    rcases hr with ⟨rfl, hlen, he, hall, -, -⟩ | ⟨rfl, hlen, he, hall⟩
    · refine ⟨he.mono (Nat.zero_le _) hpg, .inr ⟨rfl, h.evolves he hpg htop fun i hi => ?_, hlen⟩⟩
      by_cases hin : pages sz ≤ i ∧ i < pages r
      · exact ⟨fun _ => hin.2, fun _ => hall i hin.1 hin.2⟩
      · rw [hsame he i hi (by omega), h.user i hi]
        omega
    · refine ⟨he.mono (Nat.zero_le _) hpg, .inl ⟨rfl, h.evolves he hpg h.top fun i hi => ?_, fun _ => hlen⟩⟩
      by_cases hin : pages sz ≤ i ∧ i < pages newsz
      · exact ⟨fun hpr => absurd hpr (hall i hin.1 hin.2), fun hlt => absurd hlt (by omega)⟩
      · rw [hsame he i hi (by omega), h.user i hi]
  · rw [Nat.sub_self, allocPages, wp_pure]
    exact ⟨.refl h.space, .inr ⟨rfl, h, Nat.zero_le _⟩⟩

/-! ## `kinit` and `freevm` -/

/-- **`kfree`** of a page. -/
theorem wp_kfree {v : Nat} {Q : Unit → Phys → Prop} {E : VmPanic → Phys → Prop} (h : IsPage K v) :
    wp (kfree K v) Q E m ↔ Q () ⟨put32 (fill m.ram v PGSIZE 1) v (m.freelist.headD 0), v :: m.freelist⟩ := by
  have hc : ¬ (v % PGSIZE ≠ 0 ∨ v < K.kend ∨ PHYSTOP ≤ v) := by
    have h1 := h.1
    have h2 := h.2.1
    have h3 := h.2.2
    omega
  rw [kfree, if_neg hc, wp_modify]

/-- The loop of `kinit` frees pages above those that are free already. -/
theorem freeRange_spec (n : Nat) : ∀ {p : Nat} {m : Phys}, p % PGSIZE = 0 → K.kend ≤ p → p + PGSIZE * n ≤ PHYSTOP →
    FreePages K m → (∀ q ∈ m.freelist, q < p) →
    wp (freeRange K n p)
      (fun _ m' => FreePages K m' ∧
        ∀ q, q ∈ m'.freelist ↔ q ∈ m.freelist ∨ (q % PGSIZE = 0 ∧ p ≤ q ∧ q < p + PGSIZE * n))
      (fun _ _ => False) m := by
  induction n with
  | zero =>
    intro p m _ _ _ hf _
    refine ⟨hf, fun q => ⟨.inl, fun hq => hq.elim id fun h => absurd h.2.2 ?_⟩⟩
    exact Nat.not_lt_of_le h.2.1
  | succ n ih =>
    intro p m hal hend hstop hf hbelow
    rw [Nat.mul_succ] at hstop
    have hpage : IsPage K p := ⟨hal, hend, by simp only [PGSIZE] at *; omega⟩
    rw [freeRange, wp_bind, wp_kfree hpage]
    refine wp_post (ih (by simp only [PGSIZE] at *; omega) (by omega) (by omega) ⟨?_, ?_⟩ ?_) fun _ m' h => ⟨h.1, fun q => ?_⟩
    · exact List.nodup_cons.mpr ⟨fun hp => Nat.lt_irrefl p (hbelow p hp), hf.nodup⟩
    · exact List.forall_mem_cons.mpr ⟨hpage, hf.page⟩
    · refine List.forall_mem_cons.mpr ⟨by simp only [PGSIZE]; omega, fun q hq => ?_⟩
      exact Nat.lt_of_lt_of_le (hbelow q hq) (Nat.le_add_right _ _)
    · rw [h.2 q, List.mem_cons, or_comm (a := q = p), or_assoc]
      refine or_congr_right ?_
      simp only [PGSIZE] at *
      omega

/-- **`kinit`** frees every page between the kernel and `PHYSTOP`, each once. -/
theorem kinit_spec (hm : m.freelist = []) :
    wp (kinit K) (fun _ m' => FreePages K m' ∧ ∀ q, q ∈ m'.freelist ↔ IsPage K q) (fun _ _ => False) m := by
  have hend := K.kend_le
  have hup : pgRoundUp K.kend = PGSIZE * ((K.kend + 4095) / PGSIZE) := by
    simp only [pgRoundUp, PGSIZE, PHYSTOP] at *
    omega
  rw [kinit, hup]
  refine wp_post (freeRange_spec _ (Nat.mul_mod_right _ _) ?_ ?_ ?_ ?_) fun _ m' h => ⟨h.1, fun q => ?_⟩
  · simp only [PGSIZE]
    omega
  · simp only [PGSIZE, PHYSTOP] at *
    omega
  · refine ⟨by rw [hm]; exact List.nodup_nil, fun q hq => ?_⟩
    exact absurd (hm ▸ hq) List.not_mem_nil
  · exact fun q hq => absurd (hm ▸ hq) List.not_mem_nil
  · rw [h.2 q, hm, IsPage]
    simp only [PGSIZE, PHYSTOP, List.not_mem_nil, false_or] at *
    omega

/-- A freed page is all that changes. -/
theorem kfree_ram {v : Nat} (h : v % PGSIZE = 0) :
    SameOff (· = v) m ⟨put32 (fill m.ram v PGSIZE 1) v (m.freelist.headD 0), v :: m.freelist⟩ := fun a ha =>
  (put32_page _ _ (k := 0) h (by decide) ha).trans (fill_page _ _ h ha)

/-- **The loop of `freevm`**, with the entries before `i` done: `m` is memory before it. -/
structure Freeing (d : Nat) (m : Phys) (i : Nat) (m' : Phys) : Prop where
  pde : ∀ j < 1024, pdeOf d m' j = pdeOf d m j
  free : ∀ q, q ∈ m'.freelist ↔ q ∈ m.freelist ∨ ∃ j < i, Present (pdeOf d m j) ∧ pteAddr (pdeOf d m j) = q
  nodup : m'.freelist.Nodup
  ram : SameOff (IsTable d m) m m'

/-- A table is freed. -/
theorem Freeing.table {i : Nat} (h : Dir K d m) (hf : Freeing d m i m') (hi : i < 1024) (hpr : Present (pdeOf d m i)) :
    Freeing d m (i + 1) ⟨put32 (fill m'.ram (pteAddr (pdeOf d m i)) PGSIZE 1) (pteAddr (pdeOf d m i))
      (m'.freelist.headD 0), pteAddr (pdeOf d m i) :: m'.freelist⟩ := by
  obtain ⟨hpg, hne⟩ := h.table i hi hpr
  have htab : IsTable d m (pteAddr (pdeOf d m i)) := .inr ⟨i, hi, hpr, rfl⟩
  have hnot : pteAddr (pdeOf d m i) ∉ m'.freelist := by
    rw [hf.free]
    rintro (hq | ⟨j, hj, hpj, he⟩)
    · exact (h.free _ hq).2 htab
    · have := h.inj j (by omega) i hi hpj hpr he
      omega
  have hram := kfree_ram (m := m') hpg.1
  refine ⟨fun j hj => ?_, fun q => ?_, List.nodup_cons.mpr ⟨hnot, hf.nodup⟩, ?_⟩
  · exact (hram.word h.page.1 hj hne.symm).trans (hf.pde j hj)
  · rw [List.mem_cons, hf.free]
    constructor
    · rintro (rfl | hq | ⟨j, hj, hpj, he⟩)
      · exact .inr ⟨i, Nat.lt_succ_self i, hpr, rfl⟩
      · exact .inl hq
      · exact .inr ⟨j, Nat.lt_succ_of_lt hj, hpj, he⟩
    · rintro (hq | ⟨j, hj, hpj, he⟩)
      · exact .inr (.inl hq)
      · rcases Nat.lt_succ_iff_lt_or_eq.mp hj with hj | rfl
        · exact .inr (.inr ⟨j, hj, hpj, he⟩)
        · exact .inl he.symm
  · exact hf.ram.trans hram fun q hq => hq ▸ htab

/-- There is no table to free. -/
theorem Freeing.skip {i : Nat} (hf : Freeing d m i m') (hpr : ¬ Present (pdeOf d m i)) : Freeing d m (i + 1) m' := by
  refine ⟨hf.pde, fun q => ?_, hf.nodup, hf.ram⟩
  rw [hf.free]
  refine or_congr Iff.rfl ⟨fun ⟨j, hj, hj'⟩ => ⟨j, Nat.lt_succ_of_lt hj, hj'⟩, fun ⟨j, hj, hpj, he⟩ => ⟨j, ?_, hpj, he⟩⟩
  rcases Nat.lt_succ_iff_lt_or_eq.mp hj with hj | rfl
  · exact hj
  · exact absurd hpj hpr

theorem freeTables_spec (h : Dir K d m) (n : Nat) : ∀ {i : Nat} {m' : Phys}, i + n = 1024 → Freeing d m i m' →
    wp (freeTables K d n i) (fun _ m'' => Freeing d m 1024 m'') (fun _ _ => False) m' := by
  induction n with
  | zero =>
    intro i m' hi hf
    rw [freeTables, wp_pure]
    rwa [← hi]
  | succ n ih =>
    intro i m' hi hf
    have hw : u32 m'.ram (d + 4 * i) = pdeOf d m i := hf.pde i (by omega)
    rw [freeTables, wp_bind, wp_load32, hw]
    dsimp only
    by_cases hpr : Present (pdeOf d m i)
    · rw [if_pos hpr, wp_bind, wp_kfree (h.table i (by omega) hpr).1]
      exact ih (by omega) (hf.table h (by omega) hpr)
    · rw [if_neg hpr]
      exact ih (by omega) (hf.skip hpr)

/-- **`freevm`** returns the pages of the image, and no others. -/
theorem UserImage.freevm (h : UserImage K d sz m) :
    wp (freevm K d)
      (fun _ m' => (∀ q, q ∈ m'.freelist ↔ Own d m q) ∧ m'.freelist.Nodup ∧ SameOff (Own d m) m m')
      (fun _ _ => False) m := by
  rw [Xv6.freevm, if_neg h.space.dir.pos, wp_bind]
  refine wp_post (deallocuvm_spec h.space (by decide : 0 < USERTOP) (Nat.le_refl _)) ?_
  rintro _ m1 ⟨-, he, hall⟩
  have h1 : UserImage K d 0 m1 := h.evolves he (by decide) (by decide) fun i hi =>
    ⟨fun hpr => absurd hpr (hall i (Nat.zero_le _) hi), fun hlt => absurd hlt (Nat.not_lt_zero i)⟩
  rw [wp_bind]
  refine wp_post (freeTables_spec h1.dir NPDENTRIES (i := 0) rfl ⟨fun _ _ => rfl, fun q => ?_, h1.dir.nodup, fun _ _ => rfl⟩) ?_
  · exact ⟨.inl, fun hor => hor.elim id fun ⟨j, hj, _⟩ => absurd hj (Nat.not_lt_zero j)⟩
  intro _ m2 hf
  have hnot : d ∉ m2.freelist := by
    rw [hf.free]
    rintro (hq | ⟨j, hj, hpj, hd⟩)
    · exact (h1.dir.free d hq).2 (.inl rfl)
    · exact (h1.dir.table j hj hpj).2 hd
  rw [wp_kfree h.space.dir]
  refine ⟨fun q => ?_, List.nodup_cons.mpr ⟨hnot, hf.nodup⟩, ?_⟩
  · rw [List.mem_cons, hf.free, ← he.own h.space]
    -- no user page is left, so the pages owned are the free ones
    have howned : Owned d m1 q ↔ q ∈ m1.freelist :=
      ⟨fun hor => hor.elim id fun ⟨i, hi, hpr, _⟩ => absurd hpr (hall i (Nat.zero_le _) hi), .inl⟩
    rw [Own, howned, isTable_iff]
    tauto
  · refine (he.ram.trans hf.ram fun q hq => ?_).trans (kfree_ram h.space.dir.1) fun q hq => ?_
    · exact .inr ((he.frame.isTable_iff h.space q).mp hq)
    · exact .inr (.inl hq)

/-! ## Enough memory -/

theorem Built.freePages (h : Built K d m m') : FreePages K m' := ⟨h.dir.nodup, fun q hq => (h.dir.free q hq).1⟩

/-- A directory has at most 1025 table pages and 160 user pages. -/
theorem own_length {l : List Nat} (hnd : l.Nodup) (h : ∀ q ∈ l, Own d m q) : l.length ≤ m.freelist.length + 1185 := by
  have hsub : l ⊆ m.freelist ++ (d :: ((List.range 1024).map (fun i => pteAddr (pdeOf d m i)) ++
      (List.range UPAGES).map fun i => pteAddr (userPte d m i))) := by
    intro q hq
    rw [List.mem_append, List.mem_cons, List.mem_append, List.mem_map, List.mem_map]
    rcases own_iff.mp (h q hq) with hfree | (rfl | ⟨i, hi, -, rfl⟩) | ⟨i, hi, -, rfl⟩
    · exact .inl hfree
    · exact .inr (.inl rfl)
    · exact .inr (.inr (.inl ⟨i, List.mem_range.mpr hi, rfl⟩))
    · exact .inr (.inr (.inr ⟨i, List.mem_range.mpr hi, rfl⟩))
  refine (List.subperm_of_subset hnd hsub).length_le.trans (Nat.le_of_eq ?_)
  rw [List.length_append, List.length_cons, List.length_append, List.length_map, List.length_map, List.length_range,
    List.length_range, UPAGES]

theorem Built.length_le (h : Built K d m m') (hf : FreePages K m) : m.freelist.length ≤ m'.freelist.length + 1185 :=
  own_length hf.nodup fun q hq => own_iff.mpr (((h.pages q).mpr hq).imp_right .inl)

/-- With more pages than a directory takes, `setupkvm` succeeds. -/
theorem setupkvm_succeeds (hf : FreePages K m) (hl : K.Linked) (hlen : 1025 < m.freelist.length) :
    ∃ d m', exec (setupkvm K) m = (.ok (some d), m') ∧ m.freelist.head? = some d ∧ Built K d m m' := by
  have hspec := setupkvm_spec hf
  have htotal : wp (setupkvm K) (fun r m' => ∃ d, r = some d ∧ m.freelist.head? = some d ∧ Built K d m m')
      (fun _ _ => False) m := by
    refine wp_mono hspec ?_ fun _ _ hn => hn hl
    rintro (_ | d) m' hr
    · exact absurd (hr hl).2 (by omega)
    · exact ⟨d, rfl, hr⟩
  obtain ⟨r, m', hrun, d, rfl, hd⟩ := wp_total htotal
  exact ⟨d, m', hrun, hd⟩

/-- With as many pages as the new size takes, `allocuvm` succeeds. -/
theorem UserImage.alloc_succeeds (h : UserImage K d sz m) (newsz : Nat) (hle : sz ≤ newsz) (htop : newsz ≤ USERTOP)
    (hlen : pages newsz - pages sz ≤ m.freelist.length) :
    ∃ m', exec (allocuvm K d sz newsz) m = (.ok newsz, m') ∧ Evolves K d 0 UPAGES m m' ∧ UserImage K d newsz m' := by
  obtain ⟨r, m', hrun, he, ⟨-, -, hshort⟩ | ⟨hr, hi, -⟩⟩ := wp_total (h.alloc newsz)
  · exact absurd (hshort htop) (Nat.not_lt_of_le hlen)
  · obtain rfl : r = newsz := hr.trans (Nat.max_eq_right hle)
    exact ⟨m', hrun, he, hi⟩

/-- The first `n` pages above three megabytes. -/
def pagesAbove (n : Nat) : List Nat := (List.range n).map fun i => 0x300000 + PGSIZE * i

theorem pagesAbove_nodup (n : Nat) : (pagesAbove n).Nodup := by
  have hinj : Function.Injective fun i : Nat => 0x300000 + PGSIZE * i := fun i j h =>
    Nat.eq_of_mul_eq_mul_left (by decide : 0 < PGSIZE) (Nat.add_left_cancel h)
  exact List.nodup_range.map hinj

theorem mem_pagesAbove {n q : Nat} (hq : q ∈ pagesAbove n) : ∃ i < n, q = 0x300000 + PGSIZE * i := by
  obtain ⟨i, hi, rfl⟩ := List.mem_map.mp hq
  exact ⟨i, List.mem_range.mp hi, rfl⟩

/-- Memory with thirty-three hundred free pages. -/
def manyPages : Phys := ⟨fun _ => 0, pagesAbove 3300⟩

theorem manyPages_free : FreePages oneMegabyte manyPages := by
  have hlist : manyPages.freelist = pagesAbove 3300 := by rw [manyPages]
  refine ⟨by rw [hlist]; exact pagesAbove_nodup 3300, fun q hq => ?_⟩
  rw [hlist] at hq
  obtain ⟨i, hi, rfl⟩ := mem_pagesAbove hq
  refine ⟨?_, ?_, ?_⟩
  · simp only [PGSIZE]
    omega
  · show 0x200000 ≤ _
    omega
  · simp only [PGSIZE, PHYSTOP]
    omega

theorem manyPages_length : manyPages.freelist.length = 3300 := by
  rw [manyPages, pagesAbove, List.length_map, List.length_range]

/-- What a call leaves in memory; not to be evaluated where the call is long. -/
@[irreducible] def memAfter {α : Type} (x : VmM α) (m : Phys) : Phys := (exec x m).2

theorem memAfter_eq {α : Type} {x : VmM α} {r : Except VmPanic α} (h : exec x m = (r, m')) : memAfter x m = m' := by
  rw [memAfter, h]

/-- Memory after a `setupkvm`, whose directory is the first of the pages. -/
def kernelOnly : Phys := memAfter (setupkvm oneMegabyte) manyPages

theorem kernelOnly_built : exec (setupkvm oneMegabyte) manyPages = (.ok (some 0x300000), kernelOnly) ∧
    Built oneMegabyte 0x300000 manyPages kernelOnly := by
  obtain ⟨d, m', hrun, hd, hb⟩ := setupkvm_succeeds manyPages_free (by decide) (by rw [manyPages_length]; decide)
  have hm : kernelOnly = m' := memAfter_eq hrun
  have hhead : manyPages.freelist.head? = some 0x300000 := by
    rw [manyPages, pagesAbove, List.head?_map, List.head?_range]
    rfl
  obtain rfl : 0x300000 = d := Option.some.inj (hhead.symm.trans hd)
  rw [hm]
  exact ⟨hrun, hb⟩

/-- A process of three pages, the last of which it uses for one byte. -/
def threePages : Phys := memAfter (allocuvm oneMegabyte 0x300000 0 8193) kernelOnly

theorem threePages_grown : exec (allocuvm oneMegabyte 0x300000 0 8193) kernelOnly = (.ok 8193, threePages) ∧
    Evolves oneMegabyte 0x300000 0 UPAGES kernelOnly threePages ∧ UserImage oneMegabyte 0x300000 8193 threePages := by
  have hb := kernelOnly_built.2
  have hlen := hb.length_le manyPages_free
  rw [manyPages_length] at hlen
  have hthree : pages 8193 - pages 0 = 3 := by decide
  obtain ⟨m', hrun, he, hi⟩ := hb.image.alloc_succeeds 8193 (by decide) (by decide) (by omega)
  have hm : threePages = m' := memAfter_eq hrun
  rw [hm]
  exact ⟨hrun, he, hi⟩

theorem threePages_free : FreePages oneMegabyte threePages ∧ 2115 ≤ threePages.freelist.length := by
  obtain ⟨-, he, hi⟩ := threePages_grown
  have hb := kernelOnly_built.2
  have hlen := own_length (d := 0x300000) (m := threePages) manyPages_free.nodup fun q hq =>
    (he.own hb.image.space q).mpr (own_iff.mpr (((hb.pages q).mpr hq).imp_right .inl))
  rw [manyPages_length] at hlen
  exact ⟨⟨hi.dir.nodup, fun q hq => (hi.dir.free q hq).1⟩, by omega⟩

end Xv6
