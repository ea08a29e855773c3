import Xv6.Mm.Vm

/-!
# `Mm.UserPages` — the user part of an address space, and growing it

All user addresses lie below 4 MB, so the user part of an address space is the first 160 entries of one page
table. `Space` is the state in which that table, the pages it names and the free list do not overlap; a call
that grows or shrinks the user part writes entries of it and moves pages between it and the free list
(`Evolves`), whatever happens on the way.

## Contents
- **Words.** Stored entries read back, and a store to one page leaves the words of another.
- **The state.** `Space`, `Writes` (one user entry written), `Evolves` (user entries of a range written, pages
  conserved).
- **The loops.** `freePages_spec`, `allocPages_spec`.
- **`growproc`.** Exact and atomic for every `n` above `-sz`, and for no other.
-/

namespace Xv6

open Bytes Hoare

/-! ## Words -/

theorem present_iff {w : Nat} : Present w ↔ w % 2 = 1 := by
  rw [Present, PTE_P, Nat.and_one_is_mod]
  omega

theorem or_flags {p x : Nat} (hp : p % PGSIZE = 0) (hx : x < PGSIZE) : p ||| x = p + x := by
  have h : p = 2 ^ 12 * (p / PGSIZE) := by simp only [PGSIZE] at hp ⊢; omega
  rw [h, Nat.two_pow_add_eq_or_of_lt (by simpa using hx)]

/-- The entry `allocuvm` stores for a page. -/
theorem userEntry {p : Nat} (hp : p % PGSIZE = 0) : p ||| (PTE_W ||| PTE_U) ||| PTE_P = p + 7 := by
  rw [Nat.or_assoc, show PTE_W ||| PTE_U ||| PTE_P = 7 from rfl]
  exact or_flags hp (by decide)

theorem pteAddr_userEntry {p : Nat} (hp : p % PGSIZE = 0) : pteAddr (p + 7) = p := by
  simp only [pteAddr, PGSIZE] at hp ⊢
  omega

theorem present_userEntry {p : Nat} (hp : p % PGSIZE = 0) : Present (p + 7) := by
  rw [present_iff]
  simp only [PGSIZE] at hp
  omega

theorem pteAddr_aligned (w : Nat) : pteAddr w % PGSIZE = 0 := Nat.mul_mod_left _ _

/-- A word of the page `q` outlives any change of memory confined to another page. -/
theorem word_other {ram ram' : Arr} {p q k : Nat} (hp : p % PGSIZE = 0) (hq : q % PGSIZE = 0) (hne : q ≠ p)
    (hk : k < 1024) (h : ∀ i, i < p ∨ p + PGSIZE ≤ i → ram' i = ram i) :
    u32 ram' (q + 4 * k) = u32 ram (q + 4 * k) := by
  refine u32_congr fun i h1 h2 => h i ?_
  simp only [PGSIZE] at *
  omega

/-! ## Pages of memory -/

/-- Memory is the same outside the pages of `S`. -/
def SameOff (S : Nat → Prop) (m m' : Phys) : Prop := ∀ a, ¬ S (pgRoundDown a) → m'.ram a = m.ram a

theorem pgRoundDown_of {p a : Nat} (hp : p % PGSIZE = 0) (h1 : p ≤ a) (h2 : a < p + PGSIZE) : pgRoundDown a = p := by
  simp only [pgRoundDown, PGSIZE] at *
  omega

/-- A page is the set of addresses that round down to it. -/
theorem pgRoundDown_ne {p a : Nat} (hp : p % PGSIZE = 0) (h : pgRoundDown a ≠ p) : a < p ∨ p + PGSIZE ≤ a := by
  by_contra hc
  exact h (pgRoundDown_of hp (by omega) (by omega))

theorem fill_page (ram : Arr) (c : UInt8) {p a : Nat} (hp : p % PGSIZE = 0) (h : pgRoundDown a ≠ p) :
    fill ram p PGSIZE c a = ram a := fill_out (pgRoundDown_ne hp h)

theorem put32_page (ram : Arr) (w : Nat) {p a k : Nat} (hp : p % PGSIZE = 0) (hk : k < 1024) (h : pgRoundDown a ≠ p) :
    put32 ram (p + 4 * k) w a = ram a := by
  have := pgRoundDown_ne hp h
  refine blit_out ?_
  simp only [PGSIZE] at *
  omega

/-- The words of a page that is left alone. -/
theorem SameOff.word {S : Nat → Prop} {m m' : Phys} (h : SameOff S m m') {q k : Nat} (hq : q % PGSIZE = 0)
    (hk : k < 1024) (hS : ¬ S q) : u32 m'.ram (q + 4 * k) = u32 m.ram (q + 4 * k) := by
  refine u32_congr fun i h1 h2 => h i ?_
  rw [pgRoundDown_of hq (by omega) (by simp only [PGSIZE]; omega)]
  exact hS

theorem SameOff.trans {S T : Nat → Prop} {m m' m'' : Phys} (h : SameOff S m m') (h' : SameOff T m' m'')
    (hT : ∀ q, T q → S q) : SameOff S m m'' := fun a ha => (h' a fun hc => ha (hT _ hc)).trans (h a ha)

/-! ## The state -/

/-- The pages below `USERTOP`. -/
@[simp] abbrev UPAGES : Nat := 160

/-- The page table of the first 4 MB. -/
def tableOf (pgdir : Nat) (m : Phys) : Nat := pteAddr (u32 m.ram pgdir)

/-- The entry of user page `i`. -/
def userPte (pgdir : Nat) (m : Phys) (i : Nat) : Nat := u32 m.ram (tableOf pgdir m + 4 * i)

/-- The pages the hardware walks: the directory and the tables it names. -/
def IsTable (pgdir : Nat) (m : Phys) (q : Nat) : Prop :=
  q = pgdir ∨ ∃ d < 1024, Present (u32 m.ram (pgdir + 4 * d)) ∧ pteAddr (u32 m.ram (pgdir + 4 * d)) = q

/-- **An address space in order.** Free pages, user pages and page tables are pages apart. -/
structure Space (K : Symbols) (pgdir : Nat) (m : Phys) : Prop where
  dir : IsPage K pgdir
  /-- The kernel's part of the first 4 MB needs its page table, so it is always there. -/
  first : Present (u32 m.ram pgdir)
  apart : ∀ d < 1024, Present (u32 m.ram (pgdir + 4 * d)) → pteAddr (u32 m.ram (pgdir + 4 * d)) ≠ pgdir
  nodup : m.freelist.Nodup
  free : ∀ p ∈ m.freelist, IsPage K p ∧ ¬ IsTable pgdir m p
  user : ∀ i < UPAGES, Present (userPte pgdir m i) → IsPage K (pteAddr (userPte pgdir m i)) ∧
    pteAddr (userPte pgdir m i) ∉ m.freelist ∧ ¬ IsTable pgdir m (pteAddr (userPte pgdir m i))
  inj : ∀ i < UPAGES, ∀ j < UPAGES, Present (userPte pgdir m i) → Present (userPte pgdir m j) →
    pteAddr (userPte pgdir m i) = pteAddr (userPte pgdir m j) → i = j

variable {K : Symbols} {pgdir : Nat} {m m' m'' : Phys}

theorem IsPage.pos {p : Nat} (h : IsPage K p) : p ≠ 0 := by
  have h1 := K.data_ge
  have h2 := K.data_le
  have h3 := h.2.1
  omega

theorem Space.isTable_tableOf (h : Space K pgdir m) : IsTable pgdir m (tableOf pgdir m) :=
  .inr ⟨0, by decide, h.first, rfl⟩

theorem Space.tableOf_ne (h : Space K pgdir m) : tableOf pgdir m ≠ pgdir := h.apart 0 (by decide) h.first

theorem Space.table_aligned (h : Space K pgdir m) {q : Nat} (hq : IsTable pgdir m q) : q % PGSIZE = 0 := by
  rcases hq with rfl | ⟨d, -, -, rfl⟩
  · exact h.dir.1
  · exact pteAddr_aligned _

/-- `m'` differs from `m`, in the words of the page tables, at most in the user entries `lo .. hi`. -/
def Frame (pgdir lo hi : Nat) (m m' : Phys) : Prop :=
  ∀ q, IsTable pgdir m q → ∀ k < 1024, (q = tableOf pgdir m → k < lo ∨ hi ≤ k) →
    u32 m'.ram (q + 4 * k) = u32 m.ram (q + 4 * k)

namespace Frame

variable {lo hi : Nat}

theorem pde (hf : Frame pgdir lo hi m m') (h : Space K pgdir m) {d : Nat} (hd : d < 1024) :
    u32 m'.ram (pgdir + 4 * d) = u32 m.ram (pgdir + 4 * d) :=
  hf pgdir (.inl rfl) d hd fun hq => absurd hq.symm h.tableOf_ne

theorem tableOf_eq (hf : Frame pgdir lo hi m m') (h : Space K pgdir m) : tableOf pgdir m' = tableOf pgdir m := by
  rw [tableOf, tableOf]
  exact congrArg pteAddr (hf.pde h (by decide : (0 : Nat) < 1024))

theorem first (hf : Frame pgdir lo hi m m') (h : Space K pgdir m) : Present (u32 m'.ram pgdir) := by
  have hpde : u32 m'.ram pgdir = u32 m.ram pgdir := hf.pde h (by decide : (0 : Nat) < 1024)
  rw [hpde]
  exact h.first

theorem apart (hf : Frame pgdir lo hi m m') (h : Space K pgdir m) :
    ∀ d < 1024, Present (u32 m'.ram (pgdir + 4 * d)) → pteAddr (u32 m'.ram (pgdir + 4 * d)) ≠ pgdir := by
  intro d hd
  rw [hf.pde h hd]
  exact h.apart d hd

theorem isTable_iff (hf : Frame pgdir lo hi m m') (h : Space K pgdir m) (q : Nat) :
    IsTable pgdir m' q ↔ IsTable pgdir m q := by
  refine or_congr Iff.rfl (exists_congr fun d => and_congr_right fun hd => ?_)
  rw [hf.pde h hd]

theorem userPte_eq (hf : Frame pgdir lo hi m m') (h : Space K pgdir m) {i : Nat} (hi' : i < 1024)
    (hout : i < lo ∨ hi ≤ i) : userPte pgdir m' i = userPte pgdir m i := by
  rw [userPte, hf.tableOf_eq h]
  exact hf _ h.isTable_tableOf i hi' fun _ => hout

theorem mono (hf : Frame pgdir lo hi m m') {lo' hi' : Nat} (hlo : lo' ≤ lo) (hhi : hi ≤ hi') :
    Frame pgdir lo' hi' m m' :=
  fun q hq k hk hout => hf q hq k hk fun he => by rcases hout he with h | h <;> omega

theorem trans (hf : Frame pgdir lo hi m m') (h : Space K pgdir m) (hg : Frame pgdir lo hi m' m'') :
    Frame pgdir lo hi m m'' := by
  intro q hq k hk hout
  rw [hg q ((hf.isTable_iff h q).mpr hq) k hk fun he => hout (he.trans (hf.tableOf_eq h))]
  exact hf q hq k hk hout

end Frame

/-- The pages of the allocator and of the user part together. -/
def Owned (pgdir : Nat) (m : Phys) (p : Nat) : Prop :=
  p ∈ m.freelist ∨ ∃ i < UPAGES, Present (userPte pgdir m i) ∧ pteAddr (userPte pgdir m i) = p

/-- The pages that growing and shrinking may write to. -/
def Own (pgdir : Nat) (m : Phys) (p : Nat) : Prop := Owned pgdir m p ∨ IsTable pgdir m p

/-- **What growing and shrinking can do:** write the user entries `lo .. hi`, with pages moving between them and
    the free list. -/
structure Evolves (K : Symbols) (pgdir lo hi : Nat) (m m' : Phys) : Prop where
  space : Space K pgdir m'
  frame : Frame pgdir lo hi m m'
  owned : ∀ p, Owned pgdir m' p ↔ Owned pgdir m p
  /-- An entry that is new is the user's. -/
  entry : ∀ i < UPAGES, Present (userPte pgdir m' i) →
    userPte pgdir m' i = userPte pgdir m i ∨ userPte pgdir m' i % PGSIZE = 7
  ram : SameOff (Own pgdir m) m m'

namespace Evolves

variable {lo hi : Nat}

theorem refl (h : Space K pgdir m) : Evolves K pgdir lo hi m m :=
  ⟨h, fun _ _ _ _ _ => rfl, fun _ => Iff.rfl, fun _ _ _ => .inl rfl, fun _ _ => rfl⟩

theorem mono (he : Evolves K pgdir lo hi m m') {lo' hi' : Nat} (hlo : lo' ≤ lo) (hhi : hi ≤ hi') :
    Evolves K pgdir lo' hi' m m' :=
  ⟨he.space, he.frame.mono hlo hhi, he.owned, he.entry, he.ram⟩

theorem own (he : Evolves K pgdir lo hi m m') (h : Space K pgdir m) (p : Nat) : Own pgdir m' p ↔ Own pgdir m p :=
  or_congr (he.owned p) (he.frame.isTable_iff h p)

theorem trans (he : Evolves K pgdir lo hi m m') (h : Space K pgdir m) (hg : Evolves K pgdir lo hi m' m'') :
    Evolves K pgdir lo hi m m'' := by
  refine ⟨hg.space, he.frame.trans h hg.frame, fun p => (hg.owned p).trans (he.owned p), fun i hi hpr => ?_,
    he.ram.trans hg.ram fun q => (he.own h q).mp⟩
  rcases hg.entry i hi hpr with heq | hnew
  · rw [heq] at hpr ⊢
    exact he.entry i hi hpr
  · exact .inr hnew

/-- A free page is one that no user entry names. -/
theorem mem_free (he : Evolves K pgdir lo hi m m') (h : Space K pgdir m)
    (hsame : ∀ i < UPAGES, (Present (userPte pgdir m' i) ↔ Present (userPte pgdir m i)) ∧
      (Present (userPte pgdir m i) → userPte pgdir m' i = userPte pgdir m i)) (p : Nat) :
    p ∈ m'.freelist ↔ p ∈ m.freelist := by
  constructor
  · intro hp
    rcases (he.owned p).mp (.inl hp) with hf | ⟨i, hi, hpr, rfl⟩
    · exact hf
    · have hw := (hsame i hi).2 hpr
      have hu := (he.space.user i hi ((hsame i hi).1.mpr hpr)).2.1
      rw [hw] at hu
      exact absurd hp hu
  · intro hp
    rcases (he.owned p).mpr (.inl hp) with hf | ⟨i, hi, hpr, rfl⟩
    · exact hf
    · have hpr' := (hsame i hi).1.mp hpr
      have hw := (hsame i hi).2 hpr'
      rw [hw] at hp
      exact absurd hp (h.user i hi hpr').2.1

end Evolves

/-! ## Writing one entry -/

/-- User entry `i` now holds `w`, and no other word of a page table has changed. -/
structure Writes (pgdir i w : Nat) (m m' : Phys) : Prop where
  frame : Frame pgdir i (i + 1) m m'
  entry : u32 m'.ram (tableOf pgdir m + 4 * i) = w
  ram : SameOff (Own pgdir m) m m'

namespace Writes

variable {i w : Nat}

theorem userPte_self (hw : Writes pgdir i w m m') (h : Space K pgdir m) : userPte pgdir m' i = w := by
  rw [userPte, hw.frame.tableOf_eq h]
  exact hw.entry

theorem userPte_other (hw : Writes pgdir i w m m') (h : Space K pgdir m) {j : Nat} (hj : j < UPAGES) (hne : j ≠ i) :
    userPte pgdir m' j = userPte pgdir m j :=
  hw.frame.userPte_eq h (by simp only [UPAGES] at hj; omega) (by omega)

/-- A store of `w` to entry `i`, after a change confined to a page that is no page table. -/
theorem of_put (h : Space K pgdir m) {ram : Arr} {p : Nat} (hi : i < UPAGES) (hw : w < 4294967296)
    (hp : p % PGSIZE = 0) (hpt : ¬ IsTable pgdir m p) (hown : Owned pgdir m p)
    (hram : ∀ k, k < p ∨ p + PGSIZE ≤ k → ram k = m.ram k)
    (hm' : m'.ram = put32 ram (tableOf pgdir m + 4 * i) w) : Writes pgdir i w m m' := by
  have ht := h.table_aligned h.isTable_tableOf
  refine ⟨fun q hq k hk hout => ?_, ?_, fun a ha => ?_⟩
  · have hq' := h.table_aligned hq
    have hne : q ≠ p := fun he => hpt (he ▸ hq)
    rw [hm', u32_put32_out, word_other hp hq' hne hk hram]
    by_cases he : q = tableOf pgdir m
    · have := hout he
      omega
    · simp only [PGSIZE, UPAGES] at *
      omega
  · rw [hm', u32_put32]
    exact Nat.mod_eq_of_lt hw
  · rw [hm', put32_page ram w ht (by simp only [UPAGES] at hi; omega) fun he => ha (.inr (he ▸ h.isTable_tableOf))]
    exact hram a (pgRoundDown_ne hp fun he => ha (.inl (he ▸ hown)))

/-- A present entry that is not the old one is the one written. -/
theorem present (hw : Writes pgdir i w m m') (h : Space K pgdir m) (hflags : Present w → w % PGSIZE = 7) :
    ∀ j < UPAGES, Present (userPte pgdir m' j) →
      userPte pgdir m' j = userPte pgdir m j ∨ userPte pgdir m' j % PGSIZE = 7 := by
  intro j hj hpr
  by_cases hji : j = i
  · subst hji
    rw [hw.userPte_self h] at hpr ⊢
    exact .inr (hflags hpr)
  · exact .inl (hw.userPte_other h hj hji)

end Writes

/-- The head of the free list becomes user page `i`. -/
theorem Evolves.map {i p : Nat} (h : Space K pgdir m) (hi : i < UPAGES) (hold : ¬ Present (userPte pgdir m i))
    (hfree : m.freelist = p :: m'.freelist) (hw : Writes pgdir i (p + 7) m m') :
    Evolves K pgdir i (i + 1) m m' := by
  have hp := h.free p (by rw [hfree]; exact List.mem_cons_self)
  have hnd := h.nodup
  rw [hfree, List.nodup_cons] at hnd
  have hself : userPte pgdir m' i = p + 7 := hw.userPte_self h
  have haddr : pteAddr (userPte pgdir m' i) = p := by rw [hself]; exact pteAddr_userEntry hp.1.1
  -- the page was free, so no entry named it
  have hnew : ∀ j < UPAGES, Present (userPte pgdir m j) → pteAddr (userPte pgdir m j) ≠ p := by
    intro j hj hpr he
    refine (h.user j hj hpr).2.1 ?_
    rw [he, hfree]
    exact List.mem_cons_self
  have hflags : Present (p + 7) → (p + 7) % PGSIZE = 7 := fun _ => by
    have := hp.1.1
    simp only [PGSIZE] at *
    omega
  refine ⟨⟨h.dir, hw.frame.first h, hw.frame.apart h, hnd.2, ?_, ?_, ?_⟩, hw.frame, ?_, hw.present h hflags, hw.ram⟩
  · intro q hq
    have := h.free q (by rw [hfree]; exact List.mem_cons_of_mem _ hq)
    rw [hw.frame.isTable_iff h]
    exact this
  · intro j hj hpr
    rw [hw.frame.isTable_iff h]
    by_cases hji : j = i
    · subst hji
      rw [haddr]
      exact ⟨hp.1, hnd.1, hp.2⟩
    · rw [hw.userPte_other h hj hji] at hpr ⊢
      obtain ⟨h1, h2, h3⟩ := h.user j hj hpr
      rw [hfree, List.mem_cons, not_or] at h2
      exact ⟨h1, h2.2, h3⟩
  · intro j hj k hk hpj hpk heq
    by_cases hji : j = i <;> by_cases hki : k = i
    · omega
    · subst hji
      rw [haddr, hw.userPte_other h hk hki] at heq
      rw [hw.userPte_other h hk hki] at hpk
      exact absurd heq.symm (hnew k hk hpk)
    · subst hki
      rw [haddr, hw.userPte_other h hj hji] at heq
      rw [hw.userPte_other h hj hji] at hpj
      exact absurd heq (hnew j hj hpj)
    · rw [hw.userPte_other h hj hji] at hpj heq
      rw [hw.userPte_other h hk hki] at hpk heq
      exact h.inj j hj k hk hpj hpk heq
  · intro q
    constructor
    · rintro (hq | ⟨j, hj, hpr, rfl⟩)
      · exact .inl (by rw [hfree]; exact List.mem_cons_of_mem _ hq)
      · by_cases hji : j = i
        · subst hji
          rw [haddr]
          exact .inl (by rw [hfree]; exact List.mem_cons_self)
        · rw [hw.userPte_other h hj hji] at hpr ⊢
          exact .inr ⟨j, hj, hpr, rfl⟩
    · rintro (hq | ⟨j, hj, hpr, rfl⟩)
      · rw [hfree, List.mem_cons] at hq
        rcases hq with rfl | hq
        · exact .inr ⟨i, hi, by rw [hself]; exact present_userEntry hp.1.1, haddr⟩
        · exact .inl hq
      · have hji : j ≠ i := fun he => hold (he ▸ hpr)
        exact .inr ⟨j, hj, by rw [hw.userPte_other h hj hji]; exact hpr, by rw [hw.userPte_other h hj hji]⟩

/-- User page `i` becomes the head of the free list. -/
theorem Evolves.unmap {i : Nat} (h : Space K pgdir m) (hi : i < UPAGES) (hold : Present (userPte pgdir m i))
    (hfree : m'.freelist = pteAddr (userPte pgdir m i) :: m.freelist) (hw : Writes pgdir i 0 m m') :
    Evolves K pgdir i (i + 1) m m' := by
  obtain ⟨hp1, hp2, hp3⟩ := h.user i hi hold
  have hself : ¬ Present (userPte pgdir m' i) := by
    rw [hw.userPte_self h]
    decide
  have hother : ∀ j < UPAGES, Present (userPte pgdir m' j) → j ≠ i ∧ userPte pgdir m' j = userPte pgdir m j := by
    intro j hj hpr
    have hji : j ≠ i := fun he => hself (he ▸ hpr)
    exact ⟨hji, hw.userPte_other h hj hji⟩
  have hflags : Present 0 → 0 % PGSIZE = 7 := fun hc => absurd hc (by decide)
  refine ⟨⟨h.dir, hw.frame.first h, hw.frame.apart h, ?_, ?_, ?_, ?_⟩, hw.frame, ?_, hw.present h hflags, hw.ram⟩
  · rw [hfree]
    exact List.nodup_cons.mpr ⟨hp2, h.nodup⟩
  · intro q hq
    rw [hw.frame.isTable_iff h]
    rw [hfree, List.mem_cons] at hq
    rcases hq with rfl | hq
    · exact ⟨hp1, hp3⟩
    · exact h.free q hq
  · intro j hj hpr
    obtain ⟨hji, he⟩ := hother j hj hpr
    rw [he] at hpr ⊢
    obtain ⟨h1, h2, h3⟩ := h.user j hj hpr
    rw [hw.frame.isTable_iff h, hfree, List.mem_cons, not_or]
    exact ⟨h1, ⟨fun hs => hji (h.inj j hj i hi hpr hold hs), h2⟩, h3⟩
  · intro j hj k hk hpj hpk heq
    have hej := (hother j hj hpj).2
    have hek := (hother k hk hpk).2
    rw [hej] at hpj heq
    rw [hek] at hpk heq
    exact h.inj j hj k hk hpj hpk heq
  · intro q
    constructor
    · rintro (hq | ⟨j, hj, hpr, rfl⟩)
      · rw [hfree, List.mem_cons] at hq
        rcases hq with rfl | hq
        · exact .inr ⟨i, hi, hold, rfl⟩
        · exact .inl hq
      · have he := (hother j hj hpr).2
        rw [he] at hpr ⊢
        exact .inr ⟨j, hj, hpr, rfl⟩
    · rintro (hq | ⟨j, hj, hpr, rfl⟩)
      · exact .inl (by rw [hfree]; exact List.mem_cons_of_mem _ hq)
      · by_cases hji : j = i
        · subst hji
          exact .inl (by rw [hfree]; exact List.mem_cons_self)
        · have he := hw.userPte_other h hj hji
          exact .inr ⟨j, hj, by rw [he]; exact hpr, by rw [he]⟩

/-! ## The loops -/

/-- The number of pages that `sz` bytes take. -/
def pages (sz : Nat) : Nat := (sz + (PGSIZE - 1)) / PGSIZE

theorem pgRoundUp_pages {sz : Nat} (h : sz ≤ USERTOP) : pgRoundUp sz = PGSIZE * pages sz := by
  simp only [pgRoundUp, pages, PGSIZE, USERTOP] at *
  omega

theorem pages_le {sz : Nat} (h : sz ≤ USERTOP) : pages sz ≤ UPAGES := by
  simp only [pages, PGSIZE, USERTOP, UPAGES] at *
  omega

theorem pages_mono {sz sz' : Nat} (h : sz ≤ sz') : pages sz ≤ pages sz' := by
  simp only [pages, PGSIZE]
  omega

/-- The trips of the loops of `allocuvm` and `deallocuvm`. -/
theorem pages_between {lo hi : Nat} (hlo : lo ≤ hi) (hhi : hi ≤ USERTOP) :
    (hi - pgRoundUp lo + (PGSIZE - 1)) / PGSIZE = pages hi - pages lo := by
  rw [pgRoundUp_pages (by omega)]
  simp only [pages, PGSIZE] at *
  omega

theorem wp_kalloc_nil {Q : Option Nat → Phys → Prop} {E : VmPanic → Phys → Prop} (h : m.freelist = []) :
    wp kalloc Q E m ↔ Q none m := by
  simp only [kalloc, wp_bind, wp_get, h, wp_pure]

theorem wp_kalloc_cons {Q : Option Nat → Phys → Prop} {E : VmPanic → Phys → Prop} {p : Nat} {next : List Nat}
    (h : m.freelist = p :: next) : wp kalloc Q E m ↔ Q (some p) ⟨m.ram, next⟩ := by
  simp only [kalloc, wp_bind, wp_get, h, wp_modify, wp_pure]

theorem wp_memset {Q : Unit → Phys → Prop} {E : VmPanic → Phys → Prop} {dst n : Nat} {c : UInt8} :
    wp (memset dst c n) Q E m ↔ Q () ⟨fill m.ram dst n c, m.freelist⟩ := Iff.rfl

/-- Below 4 MB `walkpgdir` finds the entry in the first page table and changes nothing. -/
theorem wp_walkpgdir_user (h : Present (u32 m.ram pgdir)) {i : Nat} (hi : i < UPAGES) {create : Bool}
    {Q : Option Nat → Phys → Prop} {E : VmPanic → Phys → Prop} :
    wp (walkpgdir pgdir (PGSIZE * i) create) Q E m ↔ Q (some (tableOf pgdir m + 4 * i)) m := by
  have hd : pdx (PGSIZE * i) = 0 := by simp only [pdx, PGSIZE, UPAGES] at *; omega
  have ht : ptx (PGSIZE * i) = i := by simp only [ptx, PGSIZE, UPAGES] at *; omega
  simp only [walkpgdir, load32, hd, ht, Nat.mul_zero, Nat.add_zero, wp_bind, wp_get, wp_pure, wp_ite, h,
    tableOf, not_true_eq_false, false_imp_iff, true_imp_iff, and_true]

/-- The change `kfree` and the store after it make, seen from the page tables. -/
theorem writes_unmap (h : Space K pgdir m) {i : Nat} (hi : i < UPAGES) (hold : Present (userPte pgdir m i)) :
    Writes pgdir i 0 m
      ⟨put32 (put32 (fill m.ram (pteAddr (userPte pgdir m i)) PGSIZE 1) (pteAddr (userPte pgdir m i))
        (m.freelist.headD 0)) (tableOf pgdir m + 4 * i) 0, pteAddr (userPte pgdir m i) :: m.freelist⟩ := by
  refine .of_put h hi (by decide) (pteAddr_aligned _) (h.user i hi hold).2.2 (.inr ⟨i, hi, hold, rfl⟩) (fun k hk => ?_) rfl
  rw [put32, blit_out (by simp only [PGSIZE] at hk; omega), fill_out hk]

theorem freePages_spec (n : Nat) : ∀ {i : Nat} {m : Phys}, Space K pgdir m → i + n ≤ UPAGES →
    wp (freePages K pgdir n (PGSIZE * i)) (fun _ m' => Evolves K pgdir i (i + n) m m' ∧
      ∀ j, i ≤ j → j < i + n → ¬ Present (userPte pgdir m' j)) (fun _ _ => False) m := by
  induction n with
  | zero => exact fun h _ => ⟨.refl h, fun j h1 h2 => absurd h2 (by omega)⟩
  | succ n ih =>
    intro i m h hn
    have hi : i < UPAGES := by omega
    -- one trip leaves entry `i` not present, and the others do not touch it
    suffices hstep : ∀ m₁, Evolves K pgdir i (i + 1) m m₁ → ¬ Present (userPte pgdir m₁ i) →
        wp (freePages K pgdir n (PGSIZE * i + PGSIZE)) (fun _ m' => Evolves K pgdir i (i + (n + 1)) m m' ∧
          ∀ j, i ≤ j → j < i + (n + 1) → ¬ Present (userPte pgdir m' j)) (fun _ _ => False) m₁ by
      simp only [freePages, wp_bind]
      rw [wp_walkpgdir_user h.first hi]
      simp only [load32, wp_bind, wp_get, wp_pure, wp_ite]
      rw [show u32 m.ram (tableOf pgdir m + 4 * i) = userPte pgdir m i from rfl]
      refine ⟨fun hpr => ?_, fun hpr => hstep m (.refl h) hpr⟩
      have hpg := (h.user i hi hpr).1
      refine ⟨fun h0 => hpg.pos h0, fun _ => ?_⟩
      simp only [kfree, store32, wp_ite, wp_throw, wp_modify]
      refine ⟨fun hbad => ?_, fun _ => ?_⟩
      · have := hpg.1
        have := hpg.2.1
        have := hpg.2.2
        omega
      · have hw := writes_unmap h hi hpr
        refine hstep _ (.unmap h hi hpr rfl hw) ?_
        rw [hw.userPte_self h]
        decide
    intro m₁ he hnp
    rw [← Nat.mul_succ]
    refine wp_post (ih he.space (by omega)) fun _ m' hrest => ?_
    obtain ⟨he', hall⟩ := hrest
    refine ⟨(he.mono (by omega) (by omega)).trans h (he'.mono (by omega) (by omega)), fun j h1 h2 => ?_⟩
    by_cases hj : j = i
    · subst hj
      rw [he'.frame.userPte_eq he.space (by simp only [UPAGES] at hi; omega) (.inl (by omega))]
      exact hnp
    · exact hall j (by omega) (by omega)

theorem deallocuvm_spec (h : Space K pgdir m) {oldsz newsz : Nat} (hlt : newsz < oldsz) (hold : oldsz ≤ USERTOP) :
    wp (deallocuvm K pgdir oldsz newsz) (fun r m' => r = newsz ∧ Evolves K pgdir (pages newsz) (pages oldsz) m m' ∧
      ∀ j, pages newsz ≤ j → j < pages oldsz → ¬ Present (userPte pgdir m' j)) (fun _ _ => False) m := by
  have hmono := pages_mono (Nat.le_of_lt hlt)
  have htop := pages_le hold
  simp only [deallocuvm, wp_ite, wp_bind, wp_pure]
  refine ⟨fun hge => absurd hge (by omega), fun _ => ?_⟩
  rw [pages_between (Nat.le_of_lt hlt) hold, pgRoundUp_pages (by omega)]
  refine wp_post (freePages_spec (pages oldsz - pages newsz) h (by omega)) fun _ m' hfreed => ?_
  obtain ⟨he, hall⟩ := hfreed
  rw [Nat.add_sub_cancel' hmono] at he hall
  exact ⟨trivial, he, hall⟩

/-- `mappages` of one user page whose entry is free. -/
theorem wp_mappages_user (h : Present (u32 m.ram pgdir)) {i pa : Nat} (hi : i < UPAGES)
    (hold : ¬ Present (userPte pgdir m i)) {Q : Bool → Phys → Prop} {E : VmPanic → Phys → Prop} {perm : Nat} :
    wp (mappages pgdir (PGSIZE * i) PGSIZE pa perm) Q E m ↔
      Q true ⟨put32 m.ram (tableOf pgdir m + 4 * i) (pa ||| perm ||| PTE_P), m.freelist⟩ := by
  have hdown : pgRoundDown (PGSIZE * i) = PGSIZE * i := by simp only [pgRoundDown, PGSIZE]; omega
  have hlt : PGSIZE * i + PGSIZE < 4294967296 := by simp only [PGSIZE, UPAGES] at *; omega
  have hlast : pgRoundDown (usub ((PGSIZE * i + PGSIZE) % 4294967296) 1) = PGSIZE * i := by
    rw [Nat.mod_eq_of_lt hlt, usub_of_le (by simp only [PGSIZE]; omega) hlt]
    simp only [pgRoundDown, PGSIZE]
    omega
  have hone : usub (PGSIZE * i) (PGSIZE * i) / PGSIZE = 0 := by
    rw [usub_of_le (Nat.le_refl _) (by omega), Nat.sub_self, Nat.zero_div]
  rw [mappages, hdown, hlast, hone]
  simp only [mapFrom, wp_bind]
  rw [wp_walkpgdir_user h hi]
  simp only [load32, wp_bind, wp_get, wp_pure, wp_ite]
  rw [show u32 m.ram (tableOf pgdir m + 4 * i) = userPte pgdir m i from rfl]
  simp only [hold, store32, wp_modify, false_imp_iff, not_false_eq_true, true_imp_iff, true_and]

/-- The change an allocated, cleared and mapped page makes, seen from the page tables. -/
theorem writes_map (h : Space K pgdir m) {i p : Nat} {next : List Nat} (hi : i < UPAGES)
    (hfree : m.freelist = p :: next) :
    Writes pgdir i (p + 7) m ⟨put32 (fill m.ram p PGSIZE 0) (tableOf pgdir m + 4 * i) (p + 7), next⟩ := by
  have hmem : p ∈ m.freelist := by rw [hfree]; exact List.mem_cons_self
  obtain ⟨hp, hpt⟩ := h.free p hmem
  refine .of_put h hi ?_ hp.1 hpt (.inl hmem) (fun k hk => fill_out hk) rfl
  have := hp.2.2
  simp only [PHYSTOP] at this
  omega

/-- **What growing does**: the entries `lo .. hi` get pages that were free, filled with zeroes. -/
structure GrownPages (K : Symbols) (pgdir lo hi : Nat) (m m' : Phys) : Prop where
  evolves : Evolves K pgdir lo hi m m'
  present : ∀ j, lo ≤ j → j < hi → Present (userPte pgdir m' j)
  zero : ∀ j, lo ≤ j → j < hi → ∀ o < PGSIZE, m'.ram (pteAddr (userPte pgdir m' j) + o) = 0
  ram : SameOff (fun q => q ∈ m.freelist ∨ IsTable pgdir m q) m m'

/-- One page, and the rest of them. -/
theorem GrownPages.cons {m₁ : Phys} {i hi p : Nat} {next : List Nat} (h : Space K pgdir m) (hi' : i < UPAGES) (hhi : i < hi)
    (hfree : m.freelist = p :: next) (hold : ¬ Present (userPte pgdir m i))
    (hm₁ : m₁ = ⟨put32 (fill m.ram p PGSIZE 0) (tableOf pgdir m + 4 * i) (p + 7), next⟩)
    (hg : GrownPages K pgdir (i + 1) hi m₁ m') : GrownPages K pgdir i hi m m' := by
  have hmem : p ∈ m.freelist := by rw [hfree]; exact List.mem_cons_self
  obtain ⟨hp, hpt⟩ := h.free p hmem
  have hw : Writes pgdir i (p + 7) m m₁ := hm₁ ▸ writes_map h hi' hfree
  have he := Evolves.map h hi' hold (by rw [hfree, hm₁]) hw
  have hself : userPte pgdir m' i = p + 7 := by
    rw [hg.evolves.frame.userPte_eq he.space (by simp only [UPAGES] at hi'; omega) (.inl (Nat.lt_succ_self i)),
      hw.userPte_self h]
  have htab := h.table_aligned h.isTable_tableOf
  have hstep : SameOff (fun q => q ∈ m.freelist ∨ IsTable pgdir m q) m m₁ := fun a ha => by
    rw [hm₁]
    show put32 (fill m.ram p PGSIZE 0) _ _ a = m.ram a
    rw [put32_page _ _ htab (by simp only [UPAGES] at hi'; omega) fun hc => ha (.inr (hc ▸ h.isTable_tableOf)),
      fill_page _ _ hp.1 fun hc => ha (.inl (hc ▸ hmem))]
  refine ⟨(he.mono (Nat.le_refl _) (by omega)).trans h (hg.evolves.mono (by omega) (Nat.le_refl _)), fun j h1 h2 => ?_,
    fun j h1 h2 o ho => ?_, hstep.trans hg.ram fun q hq => ?_⟩
  · by_cases hj : j = i
    · rw [hj, hself]
      exact present_userEntry hp.1
    · exact hg.present j (by omega) h2
  · by_cases hj : j = i
    · -- the later trips do not write to the page
      rw [hj, hself, pteAddr_userEntry hp.1]
      have hpage : pgRoundDown (p + o) = p := pgRoundDown_of hp.1 (Nat.le_add_right _ _) (Nat.add_lt_add_left ho _)
      rw [hg.ram (p + o), hm₁]
      · show put32 (fill m.ram p PGSIZE 0) _ _ (p + o) = 0
        rw [put32_page _ _ htab (by simp only [UPAGES] at hi'; omega), fill_in (Nat.le_add_right _ _)
          (Nat.add_lt_add_left ho _)]
        exact fun hc => hpt (hpage ▸ hc ▸ h.isTable_tableOf)
      · have hnd : (p :: next).Nodup := hfree ▸ h.nodup
        rw [hpage]
        beta_reduce
        rw [hw.frame.isTable_iff h, hm₁]
        exact fun hc => hc.elim (List.nodup_cons.mp hnd).1 hpt
    · exact hg.zero j (by omega) h2 o ho
  · rw [hw.frame.isTable_iff h, hm₁] at hq
    exact hq.imp_left fun hin => by rw [hfree]; exact List.mem_cons_of_mem _ hin

/-- **`allocuvm`'s loop**, entered with the pages `lo .. i` allocated and `i .. hi` not: either all of them
    get a page, or too few pages are free and none of the pages from `lo` on is left. -/
theorem allocPages_spec {oldsz newsz : Nat} (hlt : oldsz < newsz) (htop : newsz ≤ USERTOP) (n : Nat) :
    ∀ {i : Nat} {m : Phys}, Space K pgdir m → pages oldsz ≤ i → i + n = pages newsz →
    (∀ j, i ≤ j → j < pages newsz → ¬ Present (userPte pgdir m j)) →
    wp (allocPages K pgdir oldsz newsz n (PGSIZE * i)) (fun r m' =>
      (r = newsz ∧ n ≤ m.freelist.length ∧ GrownPages K pgdir i (pages newsz) m m') ∨
      (r = 0 ∧ m.freelist.length < n ∧ Evolves K pgdir (pages oldsz) (pages newsz) m m' ∧
        ∀ j, pages oldsz ≤ j → j < pages newsz → ¬ Present (userPte pgdir m' j))) (fun _ _ => False) m := by
  have hpg := pages_le htop
  induction n with
  | zero =>
    intro i m h _ hn _
    rw [allocPages, wp_pure]
    exact .inl ⟨rfl, Nat.zero_le _, .refl h, fun j h1 h2 => absurd h2 (by omega), fun j h1 h2 => absurd h2 (by omega),
      fun _ _ => rfl⟩
  | succ n ih =>
    intro i m h hlo hn hnone
    have hi : i < UPAGES := by omega
    have hold := hnone i (Nat.le_refl i) (by omega)
    rw [allocPages, wp_bind]
    rcases hfree : m.freelist with _ | ⟨p, next⟩
    · -- out of memory: `deallocuvm` takes back what earlier trips mapped
      rw [wp_kalloc_nil hfree, wp_bind]
      refine wp_post (deallocuvm_spec h hlt htop) fun _ m' ⟨_, he, hall⟩ => ?_
      exact .inr ⟨rfl, Nat.zero_lt_succ n, he, hall⟩
    · obtain ⟨hp, hpt⟩ := h.free p (by rw [hfree]; exact List.mem_cons_self)
      rw [wp_kalloc_cons hfree, wp_bind, wp_memset, wp_bind]
      -- clearing the page leaves the page tables, so the entry is still the one `h` describes
      have hclear : ∀ q, IsTable pgdir m q → ∀ k < 1024,
          u32 (fill m.ram p PGSIZE 0) (q + 4 * k) = u32 m.ram (q + 4 * k) := fun q hq k hk =>
        word_other hp.1 (h.table_aligned hq) (fun hqp => hpt (hqp ▸ hq)) hk fun _ hj => fill_out hj
      have hdir : u32 (fill m.ram p PGSIZE 0) pgdir = u32 m.ram pgdir := hclear pgdir (.inl rfl) 0 (by decide)
      have htab : tableOf pgdir ⟨fill m.ram p PGSIZE 0, next⟩ = tableOf pgdir m := congrArg pteAddr hdir
      have hpte : userPte pgdir ⟨fill m.ram p PGSIZE 0, next⟩ i = userPte pgdir m i := by
        rw [userPte, htab]
        exact hclear _ h.isTable_tableOf i (by simp only [UPAGES] at hi; omega)
      rw [wp_mappages_user (by rw [hdir]; exact h.first) hi (by rw [hpte]; exact hold), htab, userEntry hp.1,
        ← Nat.mul_succ]
      have hw := writes_map h hi hfree
      have he := Evolves.map h hi hold hfree hw
      refine wp_post (ih he.space (by omega) (by omega) fun j h1 h2 => ?_) fun r m' hr => ?_
      · rw [he.frame.userPte_eq h (by simp only [UPAGES] at hpg; omega) (.inr (by omega))]
        exact hnone j (by omega) h2
      · rw [List.length_cons]
        rcases hr with ⟨rfl, hlen, hg⟩ | ⟨rfl, hlen, he', hall⟩
        · exact .inl ⟨rfl, Nat.succ_le_succ hlen, hg.cons h hi (by omega) hfree hold rfl⟩
        · exact .inr ⟨rfl, Nat.succ_lt_succ hlen, (he.mono (by omega) (by omega)).trans h he', hall⟩

/-! ## `growproc` -/

/-- The mapped user pages are those of `[0, PGROUNDUP(sz))`. -/
def UserMapped (p : UserProc) : Prop :=
  ∀ va < USERTOP, (translate p.phys.ram p.pgdir va).isSome ↔ va < pgRoundUp p.sz

/-- **Exact and atomic:** either the size is `sz + n` and the pages mapped are those of the new size, or -1 is
    returned and nothing has changed. -/
def GrowOk (p : UserProc) (n r : Int) (p' : UserProc) : Prop :=
  p'.pgdir = p.pgdir ∧
    ((r = 0 ∧ (p'.sz : Int) = p.sz + n ∧ UserMapped p') ∨
      (r = -1 ∧ p'.sz = p.sz ∧ (∀ va, translate p'.phys.ram p.pgdir va = translate p.phys.ram p.pgdir va) ∧
        ∀ q, q ∈ p'.phys.freelist ↔ q ∈ p.phys.freelist))

theorem translate_user (h : Present (u32 m.ram pgdir)) {va : Nat} (hva : va < USERTOP) :
    (translate m.ram pgdir va).isSome ↔ Present (userPte pgdir m (va / PGSIZE)) := by
  have hd : pdx va = 0 := by simp only [pdx, USERTOP] at *; omega
  have ht : ptx va = va / PGSIZE := by simp only [ptx, PGSIZE, USERTOP] at *; omega
  simp only [translate, hd, ht, Nat.mul_zero, Nat.add_zero, if_pos h, userPte, tableOf]
  split <;> simp_all

/-- The pages of a process in terms of entries. -/
theorem userMapped_iff {p : UserProc} (h : Present (u32 p.phys.ram p.pgdir)) (htop : p.sz ≤ USERTOP) :
    UserMapped p ↔ ∀ i < UPAGES, Present (userPte p.pgdir p.phys i) ↔ i < pages p.sz := by
  constructor
  · intro hm i hi
    have hva : PGSIZE * i < USERTOP := by simp only [PGSIZE, USERTOP, UPAGES] at *; omega
    have := hm _ hva
    rw [translate_user h hva, pgRoundUp_pages htop, Nat.mul_div_cancel_left i (by decide : 0 < PGSIZE)] at this
    rw [this]
    exact Nat.mul_lt_mul_left (by decide : 0 < PGSIZE)
  · intro hm va hva
    rw [translate_user h hva, hm _ (by simp only [PGSIZE, USERTOP, UPAGES] at *; omega), pgRoundUp_pages htop]
    simp only [PGSIZE]
    omega

/-- Entries that were not present and are not present again are no change to the hardware. -/
theorem Frame.translate_eq {lo hi : Nat} (hf : Frame pgdir lo hi m m') (h : Space K pgdir m)
    (hnone : ∀ j, lo ≤ j → j < hi → ¬ Present (userPte pgdir m j) ∧ ¬ Present (userPte pgdir m' j)) (va : Nat) :
    translate m'.ram pgdir va = translate m.ram pgdir va := by
  have hd : pdx va < 1024 := Nat.mod_lt _ (by decide)
  have ht : ptx va < 1024 := Nat.mod_lt _ (by decide)
  simp only [translate, hf.pde h hd]
  by_cases hpd : Present (u32 m.ram (pgdir + 4 * pdx va))
  · rw [if_pos hpd, if_pos hpd]
    have hq : IsTable pgdir m (pteAddr (u32 m.ram (pgdir + 4 * pdx va))) := .inr ⟨_, hd, hpd, rfl⟩
    by_cases hin : pteAddr (u32 m.ram (pgdir + 4 * pdx va)) = tableOf pgdir m ∧ lo ≤ ptx va ∧ ptx va < hi
    · obtain ⟨he, h1, h2⟩ := hin
      obtain ⟨hn, hn'⟩ := hnone _ h1 h2
      rw [userPte] at hn hn'
      rw [hf.tableOf_eq h] at hn'
      rw [he, if_neg hn, if_neg hn']
    · rw [hf _ hq _ ht fun he => by omega]
  · rw [if_neg hpd, if_neg hpd]

/-- What `growproc` does with the size that `allocuvm` or `deallocuvm` returns. -/
def GrowEnd (p : UserProc) (Q : Int → UserProc → Prop) (sz : Nat) (m' : Phys) : Prop :=
  (sz = 0 → Q (-1) { p with phys := m' }) ∧ (sz ≠ 0 → Q 0 { p with phys := m', sz := sz })

section Cases

variable {p : UserProc} {n : Int} {Q : Int → UserProc → Prop} (hdir : p.pgdir ≠ 0)
include hdir

theorem wp_growproc_pos (hn : 0 < n)
    (h : wp (allocuvm K p.pgdir p.sz (addInt p.sz n)) (GrowEnd p Q) (fun _ _ => False) p.phys) :
    wp (growproc K n) Q (fun _ _ => False) p := by
  have hne : n ≠ 0 := by omega
  simp only [growproc, wp_bind, wp_get, if_pos hn, onPhys, wp_zoom]
  refine wp_post h fun sz m' hsz => ?_
  obtain ⟨h0, h1⟩ := hsz
  simp only [wp_ite, wp_pure, wp_bind, wp_modify, switchuvm, wp_get, wp_throw]
  exact ⟨fun hc => h0 hc.2, fun hc => ⟨hdir, fun _ => h1 fun hz => hc ⟨hne, hz⟩⟩⟩

theorem wp_growproc_neg (hn : n < 0)
    (h : wp (deallocuvm K p.pgdir p.sz (addInt p.sz n)) (GrowEnd p Q) (fun _ _ => False) p.phys) :
    wp (growproc K n) Q (fun _ _ => False) p := by
  have hne : n ≠ 0 := by omega
  have hpos : ¬ 0 < n := by omega
  simp only [growproc, wp_bind, wp_get, if_neg hpos, if_pos hn, onPhys, wp_zoom]
  refine wp_post h fun sz m' hsz => ?_
  obtain ⟨h0, h1⟩ := hsz
  simp only [wp_ite, wp_pure, wp_bind, wp_modify, switchuvm, wp_get, wp_throw]
  exact ⟨fun hc => h0 hc.2, fun hc => ⟨hdir, fun _ => h1 fun hz => hc ⟨hne, hz⟩⟩⟩

theorem wp_growproc_zero (h : Q 0 p) : wp (growproc K 0) Q (fun _ _ => False) p := by
  simp only [growproc, wp_bind, wp_get, if_neg (Int.lt_irrefl 0), wp_pure, wp_ite, wp_modify, switchuvm, wp_throw]
  exact ⟨fun hc => absurd rfl hc.1, fun _ => ⟨hdir, fun _ => h⟩⟩

end Cases

/-- Where the entries `lo .. hi` are absent before and after, nothing has changed. -/
theorem Evolves.restored {lo hi : Nat} (he : Evolves K pgdir lo hi m m') (h : Space K pgdir m)
    (hnone : ∀ j, lo ≤ j → j < hi → ¬ Present (userPte pgdir m j))
    (hnone' : ∀ j, lo ≤ j → j < hi → ¬ Present (userPte pgdir m' j)) :
    (∀ va, translate m'.ram pgdir va = translate m.ram pgdir va) ∧ ∀ q, q ∈ m'.freelist ↔ q ∈ m.freelist := by
  refine ⟨he.frame.translate_eq h fun j h1 h2 => ⟨hnone j h1 h2, hnone' j h1 h2⟩, he.mem_free h fun i hi' => ?_⟩
  by_cases hin : lo ≤ i ∧ i < hi
  · have h1 := hnone' i hin.1 hin.2
    have h2 := hnone i hin.1 hin.2
    exact ⟨iff_of_false h1 h2, fun hp => absurd hp h2⟩
  · have heq := he.frame.userPte_eq h (by simp only [UPAGES] at hi'; omega : i < 1024) (by omega)
    rw [heq]
    exact ⟨Iff.rfl, fun _ => rfl⟩

/-- Growing leaves an address space in order, whether there was memory or not. -/
theorem growproc_grow {p : UserProc} {n : Int} (hsp : Space K p.pgdir p.phys) (htop : p.sz ≤ USERTOP)
    (hm : UserMapped p) (hn : 0 < n) (hmax : n < 2147483648) :
    wp (growproc K n) (fun r p' => GrowOk p n r p' ∧ Space K p'.pgdir p'.phys ∧ p'.sz ≤ USERTOP) (fun _ _ => False) p := by
  have hadd : (addInt p.sz n : Int) = p.sz + n := by
    simp only [addInt, USERTOP] at *
    omega
  have hlt : p.sz < addInt p.sz n := by omega
  rw [userMapped_iff hsp.first htop] at hm
  refine wp_growproc_pos hsp.dir.pos hn ?_
  simp only [allocuvm, wp_ite, wp_pure]
  refine ⟨fun _ => ?_, fun hnew => ⟨fun hlt' => absurd hlt' (by omega), fun _ => ?_⟩⟩
  · exact ⟨fun _ => ⟨⟨rfl, .inr ⟨rfl, rfl, fun _ => rfl, fun _ => Iff.rfl⟩⟩, hsp, htop⟩, fun hc => absurd rfl hc⟩
  have hnew : addInt p.sz n ≤ USERTOP := by omega
  have hpg := pages_le hnew
  have hle := pages_mono (Nat.le_of_lt hlt)
  rw [pages_between (Nat.le_of_lt hlt) hnew, pgRoundUp_pages htop]
  have hnone : ∀ j, pages p.sz ≤ j → j < pages (addInt p.sz n) → ¬ Present (userPte p.pgdir p.phys j) := by
    intro j h1 h2 hpr
    have := (hm j (by omega)).mp hpr
    omega
  refine wp_post (allocPages_spec hlt hnew _ hsp (Nat.le_refl _) (Nat.add_sub_cancel' hle) hnone) ?_
  rintro r m' (⟨rfl, -, he, hall, -, -⟩ | ⟨rfl, -, he, hall⟩)
  · refine ⟨fun hc => absurd hc (by omega), fun _ => ⟨⟨rfl, .inl ⟨rfl, hadd, ?_⟩⟩, he.space, hnew⟩⟩
    rw [userMapped_iff he.space.first hnew]
    intro i hi
    by_cases hin : pages p.sz ≤ i ∧ i < pages (addInt p.sz n)
    · exact iff_of_true (hall i hin.1 hin.2) hin.2
    · dsimp only
      rw [he.frame.userPte_eq hsp (by simp only [UPAGES] at hi; omega) (by omega), hm i hi]
      omega
  · refine ⟨fun _ => ⟨⟨rfl, .inr ⟨rfl, rfl, ?_, ?_⟩⟩, he.space, htop⟩, fun hc => absurd rfl hc⟩
    · exact (he.restored hsp hnone hall).1
    · exact (he.restored hsp hnone hall).2

theorem growproc_shrink {p : UserProc} {n : Int} (hsp : Space K p.pgdir p.phys) (htop : p.sz ≤ USERTOP)
    (hm : UserMapped p) (hn : n < 0) (hmin : -(p.sz : Int) < n) :
    wp (growproc K n) (fun r p' => r = 0 ∧ p'.pgdir = p.pgdir ∧ (p'.sz : Int) = p.sz + n ∧ UserMapped p')
      (fun _ _ => False) p := by
  have hadd : (addInt p.sz n : Int) = p.sz + n := by
    simp only [addInt, USERTOP] at *
    omega
  have hlt : addInt p.sz n < p.sz := by omega
  have hnew : addInt p.sz n ≤ USERTOP := by omega
  have hle := pages_mono (Nat.le_of_lt hlt)
  rw [userMapped_iff hsp.first htop] at hm
  refine wp_growproc_neg hsp.dir.pos hn ?_
  refine wp_post (deallocuvm_spec hsp hlt htop) ?_
  rintro r m' ⟨rfl, he, hall⟩
  refine ⟨fun hc => absurd hc (by omega), fun _ => ⟨rfl, rfl, hadd, ?_⟩⟩
  rw [userMapped_iff he.space.first hnew]
  intro i hi
  by_cases hin : pages (addInt p.sz n) ≤ i ∧ i < pages p.sz
  · exact iff_of_false (hall i hin.1 hin.2) (by dsimp only; omega)
  · dsimp only
    rw [he.frame.userPte_eq hsp (by simp only [UPAGES] at hi; omega) (by omega), hm i hi]
    omega

/-- Taking all of the memory away frees every page and then reports an error. -/
theorem growproc_all {p : UserProc} (hsp : Space K p.pgdir p.phys) (h0 : 0 < p.sz) (htop : p.sz ≤ USERTOP)
    (hm : UserMapped p) :
    wp (growproc K (-p.sz)) (fun r p' => ¬ GrowOk p (-p.sz) r p') (fun _ _ => False) p := by
  have hadd : addInt p.sz (-p.sz) = 0 := by simp [addInt]
  refine wp_growproc_neg hsp.dir.pos (by omega) ?_
  rw [hadd]
  refine wp_post (deallocuvm_spec hsp h0 htop) ?_
  rintro r m' ⟨rfl, he, hall⟩
  refine ⟨fun _ hok => ?_, fun hc => absurd rfl hc⟩
  obtain ⟨-, ⟨hr, -⟩ | ⟨-, -, htr, -⟩⟩ := hok
  · exact absurd hr (by decide)
  · -- address 0 was mapped and no longer is
    have hfirst : (translate p.phys.ram p.pgdir 0).isSome := by
      refine (hm 0 (by decide)).mpr ?_
      rw [pgRoundUp_pages htop]
      simp only [pages, PGSIZE]
      omega
    rw [← htr 0, translate_user he.space.first (by decide)] at hfirst
    exact hall 0 (by decide) (by simp only [pages, PGSIZE]; omega) hfirst

/-- Taking more than all of it away wraps around: nothing happens and 0 is returned. -/
theorem growproc_more {p : UserProc} {n : Int} (hsp : Space K p.pgdir p.phys) (h0 : 0 < p.sz) (htop : p.sz ≤ USERTOP)
    (hmin : -2147483648 ≤ n) (hn : n < -(p.sz : Int)) :
    wp (growproc K n) (fun r p' => r = 0 ∧ p' = p) (fun _ _ => False) p := by
  have hge : p.sz ≤ addInt p.sz n := by
    simp only [addInt, USERTOP] at *
    omega
  refine wp_growproc_neg hsp.dir.pos (by omega) ?_
  simp only [deallocuvm, wp_ite, wp_pure]
  exact ⟨fun _ => ⟨fun hc => absurd hc (by omega), fun _ => ⟨rfl, rfl⟩⟩, fun hc => absurd hge hc⟩

/-- Reporting success with nothing done is not exact. -/
theorem not_growOk {p : UserProc} {n : Int} (hn : n ≠ 0) : ¬ GrowOk p n 0 p := by
  rintro ⟨-, ⟨-, hsz, -⟩ | ⟨hr, -⟩⟩
  · omega
  · exact absurd hr (by decide)

/-- A process of two pages, with one page free. -/
def twoPages : UserProc where
  phys :=
    { ram := put32 (put32 (put32 (fun _ => 0) 0x300000 0x301007) 0x301000 0x302007) 0x301004 0x303007
      freelist := [0x304000] }
  pgdir := 0x300000
  sz := 5000

/-- The kernel it runs under. -/
def oneMegabyte : Symbols := ⟨0x180000, 0x200000, by decide, by decide, by decide⟩

theorem twoPages_pde : ∀ d < 1024, Present (u32 twoPages.phys.ram (twoPages.pgdir + 4 * d)) → d = 0 := by
  decide +kernel

theorem twoPages_pte : ∀ i < UPAGES, Present (userPte twoPages.pgdir twoPages.phys i) → i = 0 ∨ i = 1 := by
  decide +kernel

theorem twoPages_table {q : Nat} (h : IsTable twoPages.pgdir twoPages.phys q) : q = 0x300000 ∨ q = 0x301000 := by
  rcases h with rfl | ⟨d, hd, hpr, rfl⟩
  · exact .inl rfl
  · rw [twoPages_pde d hd hpr]
    exact .inr (by decide +kernel)

theorem twoPages_space : Space oneMegabyte twoPages.pgdir twoPages.phys where
  dir := by decide
  first := by decide +kernel
  apart := by
    intro d hd hpr
    rw [twoPages_pde d hd hpr]
    decide +kernel
  nodup := by decide
  free := by
    intro p hp
    obtain rfl : p = 0x304000 := by simpa [twoPages] using hp
    exact ⟨by decide, fun ht => absurd (twoPages_table ht) (by decide)⟩
  user := by
    intro i hi hpr
    rcases twoPages_pte i hi hpr with rfl | rfl
    · exact ⟨by decide +kernel, by decide +kernel, fun ht => absurd (twoPages_table ht) (by decide +kernel)⟩
    · exact ⟨by decide +kernel, by decide +kernel, fun ht => absurd (twoPages_table ht) (by decide +kernel)⟩
  inj := by
    intro i hi j hj hpi hpj heq
    rcases twoPages_pte i hi hpi with rfl | rfl <;> rcases twoPages_pte j hj hpj with rfl | rfl
    · rfl
    · exact absurd heq (by decide +kernel)
    · exact absurd heq (by decide +kernel)
    · rfl

theorem twoPages_mapped : UserMapped twoPages := by
  rw [userMapped_iff twoPages_space.first (by decide)]
  decide +kernel

/-- **`growproc` is exact and atomic for every `n` above `-sz`, and for no other.** -/
theorem growproc_atomic_iff {p : UserProc} {n : Int} (hsp : Space K p.pgdir p.phys) (h0 : 0 < p.sz)
    (htop : p.sz ≤ USERTOP) (hm : UserMapped p) (hmin : -2147483648 ≤ n) (hmax : n < 2147483648) :
    wp (growproc K n) (GrowOk p n) (fun _ _ => False) p ↔ -(p.sz : Int) < n := by
  constructor
  · intro hok
    by_contra hle
    have hbad : wp (growproc K n) (fun r p' => ¬ GrowOk p n r p') (fun _ _ => False) p := by
      rcases Int.lt_or_eq_of_le (Int.not_lt.mp hle) with hlt | rfl
      · refine wp_post (growproc_more hsp h0 htop hmin hlt) fun r p' hr => ?_
        obtain ⟨rfl, rfl⟩ := hr
        exact not_growOk (by omega)
      · exact growproc_all hsp h0 htop hm
    obtain ⟨r, p', hrun, hr⟩ := wp_total hok
    exact wp_ok hbad hrun hr
  · intro hlt
    rcases Int.lt_trichotomy n 0 with hneg | rfl | hpos
    · exact wp_post (growproc_shrink hsp htop hm hneg hlt) fun r p' ⟨hr, hdir, hsz, hm'⟩ => ⟨hdir, .inl ⟨hr, hsz, hm'⟩⟩
    · refine wp_growproc_zero hsp.dir.pos ⟨rfl, .inl ⟨rfl, by omega, hm⟩⟩
    · exact wp_post (growproc_grow hsp htop hm hpos hmax) fun r p' hr => hr.1

/-- Giving back 1000 of the 5000 bytes. -/
theorem growproc_atomic_iff_twoPages :
    wp (growproc oneMegabyte (-1000)) (GrowOk twoPages (-1000)) (fun _ _ => False) twoPages :=
  (growproc_atomic_iff twoPages_space (by decide) (by decide) twoPages_mapped (by decide) (by decide)).mpr (by decide)

/-- Giving back all of them, or more, is neither. -/
theorem growproc_not_atomic :
    ¬ wp (growproc oneMegabyte (-5000)) (GrowOk twoPages (-5000)) (fun _ _ => False) twoPages ∧
    ¬ wp (growproc oneMegabyte (-6000)) (GrowOk twoPages (-6000)) (fun _ _ => False) twoPages := by
  constructor
  · intro hok
    obtain ⟨r, p', hrun, hr⟩ := wp_total hok
    exact wp_ok (growproc_all twoPages_space (by decide) (by decide) twoPages_mapped) hrun hr
  · intro hok
    obtain ⟨r, p', hrun, hr⟩ := wp_total hok
    obtain ⟨rfl, rfl⟩ := wp_ok (growproc_more twoPages_space (by decide) (by decide) (by decide) (by decide)) hrun
    exact not_growOk (by decide) hr

end Xv6
