import Xv6.Mm.Image

/-!
# `Mm.Resize` — `allocuvm` and `deallocuvm` are exact and inverse

Growing an address space maps the pages up to the new size, zeroed and taken from the free list, or changes nothing;
shrinking it back undoes the growth. Everything is said of addresses and of the set of free pages, over the entries
that `Mm.UserPages` follows through the loops.
-/

namespace Xv6

open Bytes Hoare

variable {K : Symbols} {d oldsz newsz : Nat} {m m' : Phys}

/-- Every address is translated as before, and the same pages are free. -/
def Unchanged (d : Nat) (m m' : Phys) : Prop :=
  (∀ va, translate m'.ram d va = translate m.ram d va) ∧ ∀ q, q ∈ m'.freelist ↔ q ∈ m.freelist

/-- **A successful growth**: exactly the pages below the new size are mapped, the new ones are zeroed pages that were
    free, and no other address is translated otherwise. -/
structure AllocOk (d oldsz newsz : Nat) (m m' : Phys) : Prop where
  mapped : ∀ va < USERTOP, (translate m'.ram d va).isSome ↔ va < pgRoundUp newsz
  added : ∀ va, pgRoundUp oldsz ≤ va → va < pgRoundUp newsz → ∃ w, translate m'.ram d va = some w ∧
    pteAddr w ∈ m.freelist ∧ m'.ram (pteAddr w + va % PGSIZE) = 0
  others : ∀ va < 4294967296, va < pgRoundUp oldsz ∨ pgRoundUp newsz ≤ va →
    translate m'.ram d va = translate m.ram d va

/-- The addresses of the first pages. -/
theorem lt_pgRoundUp {sz va : Nat} (h : sz ≤ USERTOP) : va < pgRoundUp sz ↔ va / PGSIZE < pages sz := by
  rw [pgRoundUp_pages h, Nat.div_lt_iff_lt_mul (by decide), Nat.mul_comm]

/-- A page entered by the growth was free. -/
theorem GrownPages.fresh {lo hi : Nat} (hg : GrownPages K d lo hi m m') (h : Space K d m) (hhi : hi ≤ UPAGES)
    (hnone : ∀ j, lo ≤ j → j < hi → ¬ Present (userPte d m j)) {i : Nat} (h1 : lo ≤ i) (h2 : i < hi) :
    pteAddr (userPte d m' i) ∈ m.freelist := by
  have hiU : i < UPAGES := Nat.lt_of_lt_of_le h2 hhi
  have hpr := hg.present i h1 h2
  rcases (hg.evolves.owned _).mp (.inr ⟨i, hiU, hpr, rfl⟩) with hf | ⟨j, hj, hprj, heq⟩
  · exact hf
  · -- the pages of the user that were there before have kept their entries
    have hout : j < lo ∨ hi ≤ j := by
      by_contra hc
      exact hnone j (by omega) (by omega) hprj
    have hsame := hg.evolves.frame.userPte_eq h (Nat.lt_trans hj (by decide)) hout
    rw [← hsame] at hprj heq
    have := hg.evolves.space.inj j hj i hiU hprj hpr heq
    omega

/-- What growing the entries from the old size to the new one says of addresses. -/
theorem GrownPages.allocOk (h : UserImage K d oldsz m) (htop : newsz ≤ USERTOP) (hle : oldsz ≤ newsz)
    (hg : GrownPages K d (pages oldsz) (pages newsz) m m') : AllocOk d oldsz newsz m m' := by
  have hpg := pages_le htop
  have hmono := pages_mono hle
  have hsp := hg.evolves.space
  have hnone : ∀ j, pages oldsz ≤ j → j < pages newsz → ¬ Present (userPte d m j) := fun j h1 h2 hpr =>
    absurd ((h.user j (by omega)).mp hpr) (by omega)
  have hsame : ∀ i < UPAGES, i < pages oldsz ∨ pages newsz ≤ i → userPte d m' i = userPte d m i := fun i hi hout =>
    hg.evolves.frame.userPte_eq h.space (Nat.lt_trans hi (by decide)) hout
  refine ⟨fun va hva => ?_, fun va h1 h2 => ?_, fun va hva hout => ?_⟩
  · have hi : va / PGSIZE < UPAGES := by simp only [PGSIZE, USERTOP, UPAGES] at *; omega
    rw [translate_user hsp.first hva, lt_pgRoundUp htop]
    by_cases hin : pages oldsz ≤ va / PGSIZE ∧ va / PGSIZE < pages newsz
    · exact iff_of_true (hg.present _ hin.1 hin.2) hin.2
    · rw [hsame _ hi (by omega), h.user _ hi]
      omega
  · have h1' : pages oldsz ≤ va / PGSIZE := Nat.le_of_not_lt ((lt_pgRoundUp h.top).not.mp (Nat.not_lt.mpr h1))
    have h2' := (lt_pgRoundUp htop).mp h2
    have hva : va < 4294967296 := by simp only [PGSIZE, UPAGES] at *; omega
    have hpte : pteOf d m' (va / PGSIZE) = userPte d m' (va / PGSIZE) :=
      pteOf_user hsp.first (by simp only [UPAGES] at hpg; omega)
    refine ⟨userPte d m' (va / PGSIZE), ?_, hg.fresh h.space hpg hnone h1' h2', ?_⟩
    · rw [translate_eq hva, hpte, if_pos (hg.present _ h1' h2')]
    · exact hg.zero _ h1' h2' _ (Nat.mod_lt _ (by decide))
  · rw [lt_pgRoundUp h.top, ← Nat.not_lt, lt_pgRoundUp htop, Nat.not_lt] at hout
    rw [translate_eq hva, translate_eq hva]
    by_cases hi : va / PGSIZE < UPAGES
    · rw [pteOf_user hsp.first (Nat.lt_trans hi (by decide)), pteOf_user h.space.first (Nat.lt_trans hi (by decide)),
        hsame _ hi hout]
    · rw [hg.evolves.frame.pte h.dir h.space hpg (by simp only [PGSIZE, VPAGES]; omega) (Nat.le_of_not_lt hi)]

/-- **`allocuvm` and `deallocuvm`** are exact and inverse; `allocuvm` fails only when there are fewer free pages than
    it is to add. -/
theorem allocuvm_deallocuvm_exact (h : UserImage K d oldsz m) (hle : oldsz ≤ newsz) (htop : newsz ≤ USERTOP) :
    ∃ r m', exec (allocuvm K d oldsz newsz) m = (.ok r, m') ∧
      ((r = newsz ∧ pages newsz - pages oldsz ≤ m.freelist.length ∧ AllocOk d oldsz newsz m m' ∧
        ∃ m'', exec (deallocuvm K d newsz oldsz) m' = (.ok oldsz, m'') ∧ Unchanged d m m'') ∨
      (r = 0 ∧ 0 < newsz ∧ m.freelist.length < pages newsz - pages oldsz ∧ Unchanged d m m')) := by
  have hpg := pages_le htop
  have hmono := pages_mono hle
  have hnone : ∀ j, pages oldsz ≤ j → j < pages newsz → ¬ Present (userPte d m j) := fun j h1 h2 hpr =>
    absurd ((h.user j (by omega)).mp hpr) (by omega)
  have halloc : allocuvm K d oldsz newsz = allocPages K d oldsz newsz (pages newsz - pages oldsz) (PGSIZE * pages oldsz) := by
    rw [allocuvm, if_neg (by omega), if_neg (by omega)]
    dsimp only
    rw [pages_between hle htop, pgRoundUp_pages h.top]
  rw [halloc]
  rcases Nat.lt_or_eq_of_le hle with hlt | rfl
  · obtain ⟨r, m', hrun, hr⟩ := wp_total (allocPages_spec hlt htop _ h.space (Nat.le_refl _)
      (Nat.add_sub_cancel' hmono) hnone)
    refine ⟨r, m', hrun, ?_⟩
    rcases hr with ⟨rfl, hlen, hg⟩ | ⟨rfl, hlen, he, hall⟩
    · obtain ⟨r', m'', hrun', rfl, he, hall⟩ := wp_total (deallocuvm_spec hg.evolves.space hlt htop)
      exact .inl ⟨rfl, hlen, hg.allocOk h htop hle, m'', hrun',
        (hg.evolves.trans h.space he).restored h.space hnone hall⟩
    · exact .inr ⟨rfl, Nat.zero_lt_of_lt hlt, hlen, he.restored h.space hnone hall⟩
  · -- nothing to do either way
    have hg : GrownPages K d (pages oldsz) (pages oldsz) m m := ⟨.refl h.space, fun j h1 h2 => absurd h2 (by omega),
      fun j h1 h2 => absurd h2 (by omega), fun _ _ => rfl⟩
    rw [Nat.sub_self]
    refine ⟨oldsz, m, rfl, .inl ⟨rfl, Nat.zero_le _, hg.allocOk h htop hle, m, ?_, fun _ => rfl, fun _ => Iff.rfl⟩⟩
    rw [deallocuvm, if_pos (Nat.le_refl _)]
    rfl

/-- In a directory fresh from `setupkvm`: two pages and a byte, and back. -/
theorem allocuvm_deallocuvm_exact_manyPages :
    exec (allocuvm oneMegabyte 0x300000 0 8193) kernelOnly = (.ok 8193, threePages) ∧
    AllocOk 0x300000 0 8193 kernelOnly threePages ∧
    ∃ m'', exec (deallocuvm oneMegabyte 0x300000 8193 0) threePages = (.ok 0, m'') ∧ Unchanged 0x300000 kernelOnly m'' := by
  obtain ⟨r, m', hrun, hr⟩ := allocuvm_deallocuvm_exact kernelOnly_built.2.image (Nat.zero_le 8193) (by decide)
  obtain ⟨hres, rfl⟩ := Prod.ext_iff.mp (hrun.symm.trans threePages_grown.1)
  obtain rfl : r = 8193 := Except.ok.inj hres
  rcases hr with ⟨-, -, hok, hback⟩ | ⟨hzero, -⟩
  · exact ⟨hrun, hok, hback⟩
  · exact absurd hzero (by decide)

end Xv6
