import Xv6.Mm.Image

/-!
# `Mm.KernelMap` — what `mappages` and `setupkvm` map

`mappages_spec` and `setupkvm_spec` speak of entries and page numbers. Here the same is said of addresses, through the
eyes of the hardware: after `mappages` every address of the range is translated to the page it was given, and every
other one as before (`Mapped`); a page table that `setupkvm` returns maps the kernel's two ranges to themselves
(`KernelMap`).
-/

namespace Xv6

open Bytes Hoare

variable {K : Symbols} {d : Nat} {m m' : Phys}

/-- The addresses of the pages that `mappages` touches for `size` bytes from `la` on. -/
def InPages (la size va : Nat) : Prop := pgRoundDown la ≤ va ∧ va < pgRoundDown (la + size - 1) + PGSIZE

instance (la size va : Nat) : Decidable (InPages la size va) := inferInstanceAs (Decidable (_ ∧ _))

theorem inPages_iff {la size va : Nat} :
    InPages la size va ↔ la / PGSIZE ≤ va / PGSIZE ∧ va / PGSIZE ≤ (la + size - 1) / PGSIZE := by
  simp only [InPages, pgRoundDown, PGSIZE]
  omega

/-- **Exactly the range is mapped**, to consecutive pages from `pa` on with permissions `perm`. -/
def Mapped (d la size pa perm : Nat) (m m' : Phys) : Prop :=
  ∀ va < 4294967296, translate m'.ram d va =
    if InPages la size va then some ((pa + (pgRoundDown va - pgRoundDown la)) % 4294967296 + (perm ||| PTE_P))
    else translate m.ram d va

/-- An entry that `mappages` writes is present. -/
theorem present_mapped {pa perm : Nat} (hpa : pa % PGSIZE = 0) : Present (pa % 4294967296 + (perm ||| PTE_P)) := by
  have hodd : (perm ||| PTE_P) % 2 = 1 := present_iff.mp (present_or perm)
  rw [present_iff]
  simp only [PGSIZE] at hpa
  omega

/-- **`mappages`** on a range of which no page is mapped maps exactly the range, unless `kalloc` fails. -/
theorem mappages_maps {la size pa perm : Nat} (h : Dir K d m) (hperm : perm < PGSIZE) (hsize : 0 < size)
    (hend : la + size ≤ 4294967296) (hpa : pa % PGSIZE = 0) (hlt : pa < 4294967296)
    (hfresh : ∀ va < 4294967296, InPages la size va → translate m.ram d va = none) :
    wp (mappages d la size pa perm)
      (fun ok m' => (ok = true → Mapped d la size pa perm m m') ∧ (ok = false → m'.freelist = []))
      (fun _ _ => False) m := by
  refine wp_mono (mappages_spec h hperm hsize hend hpa hlt) ?_ ?_
  · rintro ok m' ⟨-, hmap, hfail⟩
    refine ⟨fun hok va hva => ?_, hfail⟩
    have hv : va / PGSIZE < VPAGES := by simp only [PGSIZE, VPAGES]; omega
    rw [translate_eq hva, hmap hok _ hv]
    by_cases hin : InPages la size va
    · have hpages := inPages_iff.mp hin
      have hoff : pgRoundDown va - pgRoundDown la = PGSIZE * (va / PGSIZE - la / PGSIZE) := by
        rw [pgRoundDown, pgRoundDown, ← Nat.sub_mul, Nat.mul_comm]
      rw [if_pos hin, if_pos hpages, hoff]
      exact if_pos (present_mapped (by simp only [PGSIZE] at *; omega))
    · rw [if_neg hin, if_neg (inPages_iff.not.mp hin), translate_eq hva]
  · rintro e _ ⟨-, u, h1, h2, hpr⟩
    have hu : PGSIZE * u < 4294967296 := by simp only [PGSIZE] at *; omega
    have hdiv : PGSIZE * u / PGSIZE = u := Nat.mul_div_cancel_left u (by decide)
    have hnone := hfresh (PGSIZE * u) hu (inPages_iff.mpr (by rw [hdiv]; exact ⟨h1, h2⟩))
    rw [translate_eq hu, hdiv, if_pos hpr] at hnone
    cases hnone

/-! ## The kernel's part -/

/-- **The kernel's part of a page table**: `USERTOP` to `PHYSTOP` and `0xFE000000` to the end are mapped to
    themselves, nothing else is mapped, no entry is the user's, and the kernel's text is read-only. -/
structure KernelMap (K : Symbols) (d : Nat) (m : Phys) : Prop where
  maps : ∀ va < 4294967296, (translate m.ram d va).isSome ↔ (USERTOP ≤ va ∧ va < PHYSTOP) ∨ 0xFE000000 ≤ va
  self : ∀ va < 4294967296, ∀ w, translate m.ram d va = some w → pteAddr w + va % PGSIZE = va
  user : ∀ va < 4294967296, ∀ w, translate m.ram d va = some w → w &&& PTE_U = 0
  text : ∀ va, 0x100000 ≤ va → va < K.data → ∀ w, translate m.ram d va = some w → w &&& PTE_W = 0

/-- The write bit is the second. -/
theorem writable_iff {w : Nat} : w &&& PTE_W = 0 ↔ w / 2 % 2 = 0 := by
  rw [show PTE_W = 2 ^ 1 from rfl, Nat.and_two_pow, Nat.testBit_eq_decide_div_mod_eq]
  by_cases h : w / 2 ^ 1 % 2 = 1 <;> simp_all

/-- An entry of the kernel part that is present has the page itself, and flags. -/
theorem kernelPte_addr {v : Nat} (h : Present (kernelPte K v)) : pteAddr (kernelPte K v) = PGSIZE * v := by
  rw [present_iff] at h
  simp only [kernelPte, show PTE_W ||| PTE_P = 3 from rfl, PGSIZE, PTE_P, UPAGES, pteAddr] at h ⊢
  split_ifs at h ⊢ <;> omega

/-- The entries of the kernel part that are present. -/
theorem kernelPte_present (hl : K.Linked) {v : Nat} : Present (kernelPte K v) ↔ (UPAGES ≤ v ∧ v < 4096) ∨ 1040384 ≤ v := by
  obtain ⟨hal, hlo, hhi⟩ := hl
  rw [present_iff]
  simp only [kernelPte, show PTE_W ||| PTE_P = 3 from rfl, PGSIZE, PTE_P, UPAGES, PHYSTOP] at *
  split_ifs <;> first | omega | (rw [false_iff]; omega)

/-- **What `setupkvm` returns.** -/
theorem Built.kernelMap (h : Built K d m m') : KernelMap K d m' := by
  have hl := h.linked
  have hv : ∀ va < 4294967296, va / PGSIZE < VPAGES := fun va hva => by simp only [PGSIZE, VPAGES]; omega
  have htr : ∀ va < 4294967296, translate m'.ram d va =
      if Present (kernelPte K (va / PGSIZE)) then some (kernelPte K (va / PGSIZE)) else none := fun va hva => by
    rw [translate_eq hva, h.entries _ (hv va hva)]
  have hsome : ∀ va < 4294967296, ∀ w, translate m'.ram d va = some w →
      Present (kernelPte K (va / PGSIZE)) ∧ w = kernelPte K (va / PGSIZE) := by
    intro va hva w hw
    rw [htr va hva] at hw
    by_cases hpr : Present (kernelPte K (va / PGSIZE))
    · rw [if_pos hpr] at hw
      exact ⟨hpr, (Option.some.inj hw).symm⟩
    · rw [if_neg hpr] at hw
      exact nomatch hw
  refine ⟨fun va hva => ?_, fun va hva w hw => ?_, fun va hva w hw => ?_, fun va h1 h2 w hw => ?_⟩
  · rw [htr va hva]
    have hpages : (UPAGES ≤ va / PGSIZE ∧ va / PGSIZE < 4096) ∨ 1040384 ≤ va / PGSIZE ↔
        (USERTOP ≤ va ∧ va < PHYSTOP) ∨ 0xFE000000 ≤ va := by
      simp only [UPAGES, PGSIZE, USERTOP, PHYSTOP]
      omega
    by_cases hpr : Present (kernelPte K (va / PGSIZE))
    · rw [if_pos hpr]
      exact ⟨fun _ => hpages.mp ((kernelPte_present hl).mp hpr), fun _ => rfl⟩
    · rw [if_neg hpr]
      exact ⟨fun hc => absurd hc (by decide), fun hr => absurd ((kernelPte_present hl).mpr (hpages.mpr hr)) hpr⟩
  · obtain ⟨hpr, rfl⟩ := hsome va hva w hw
    rw [kernelPte_addr hpr]
    simp only [PGSIZE]
    omega
  · obtain ⟨-, rfl⟩ := hsome va hva w hw
    exact not_not.mp kernelPte_not_user
  · have hlt : va < 4294967296 := Nat.lt_trans h2 (Nat.lt_trans hl.2.2 (by decide))
    obtain ⟨-, rfl⟩ := hsome va hlt w hw
    obtain ⟨hal, -, -⟩ := hl
    rw [writable_iff]
    simp only [kernelPte, show PTE_W ||| PTE_P = 3 from rfl, PGSIZE, PTE_P, UPAGES] at *
    split_ifs <;> omega

/-- **`mappages` maps exactly its range, and `setupkvm` exactly the kernel's part.** `mappages` fails only when there
    is no page left for a table. -/
theorem kernel_mapping (K : Symbols) :
    (∀ d m, Dir K d m → ∀ la size pa perm, 0 < size → la + size ≤ 4294967296 → pa % PGSIZE = 0 → pa < 4294967296 →
      perm < PGSIZE → (∀ va < 4294967296, InPages la size va → translate m.ram d va = none) →
      ∃ ok m', exec (mappages d la size pa perm) m = (.ok ok, m') ∧
        (ok = true → Mapped d la size pa perm m m') ∧ (ok = false → m'.freelist = [])) ∧
    ∀ m, FreePages K m → ∀ d m', exec (setupkvm K) m = (.ok (some d), m') → KernelMap K d m' := by
  constructor
  · intro d m h la size pa perm hsize hend hpa hlt hperm hfresh
    obtain ⟨ok, m', hrun, hok⟩ := wp_total (mappages_maps h hperm hsize hend hpa hlt hfresh)
    exact ⟨ok, m', hrun, hok⟩
  · intro m hf d m' hrun
    exact (wp_ok (setupkvm_spec hf) hrun).2.kernelMap

/-- In fresh memory: `setupkvm` returns a directory with the kernel's part, and `mappages` maps the first two pages of
    user memory in it. -/
theorem kernel_mapping_manyPages : exec (setupkvm oneMegabyte) manyPages = (.ok (some 0x300000), kernelOnly) ∧
    KernelMap oneMegabyte 0x300000 kernelOnly ∧
    ∃ m2, exec (mappages 0x300000 4095 2 0x300000 (PTE_W ||| PTE_U)) kernelOnly = (.ok true, m2) ∧
      Mapped 0x300000 4095 2 0x300000 (PTE_W ||| PTE_U) kernelOnly m2 := by
  obtain ⟨hrun, hb⟩ := kernelOnly_built
  have hmap := (kernel_mapping oneMegabyte).2 manyPages manyPages_free _ _ hrun
  -- user memory is not mapped by `setupkvm`
  have hfresh : ∀ va < 4294967296, InPages 4095 2 va → translate kernelOnly.ram 0x300000 va = none := by
    intro va hva hin
    have hlow : va < USERTOP := Nat.lt_of_lt_of_le hin.2 (by decide)
    have hnone := (hmap.maps va hva).not.mpr (by simp only [USERTOP] at *; omega)
    simpa using hnone
  obtain ⟨ok, m2, hrun2, hok, hfail⟩ := (kernel_mapping oneMegabyte).1 _ _ hb.dir 4095 2 0x300000 (PTE_W ||| PTE_U)
    (by decide) (by decide) (by decide) (by decide) (by decide) hfresh
  refine ⟨hrun, hmap, m2, ?_⟩
  cases ok with
  | true => exact ⟨hrun2, hok rfl⟩
  | false =>
    -- the pages left by `setupkvm` are too many to be tables
    have hx := (wp_ok (mappages_spec hb.dir (by decide) (by decide) (by decide) (by decide) (by decide)) hrun2).1
    have htables := tables_length (d := 0x300000) (m := m2) hb.dir.nodup fun q hq => by
      have hq' := (hx.pages q).mpr (.inl hq)
      rw [hfail rfl] at hq'
      exact hq'.resolve_left List.not_mem_nil
    have hlen := hb.length_le manyPages_free
    rw [manyPages_length] at hlen
    omega

end Xv6
