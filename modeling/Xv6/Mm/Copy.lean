import Xv6.Mm.Image

/-!
# `Mm.Copy` — the memory of a child (`copyuvm`)

`copyuvm` copies the user pages of a page table, one by one, into pages of a new one. The loop invariant
(`Copying`) says that the pages before `k` have been copied into pages that were free, that the entries from `k` on
are those of `setupkvm`, and that nothing but free pages has been written. The page table of the first 4 MB is
there from the start, because the I/O hole needs it; so entering a page allocates nothing and cannot fail.
-/

namespace Xv6

open Bytes Hoare

variable {K : Symbols} {pgdir d sz k : Nat} {m m' m1 m2 : Phys}

/-! ## The invariant -/

/-- **The first `k` pages are copied.** `m` is memory before the call. -/
structure Copying (K : Symbols) (pgdir d : Nat) (m : Phys) (k : Nat) (m' : Phys) : Prop where
  dir : Dir K d m'
  first : Present (u32 m'.ram d)
  entries : ∀ v < VPAGES, k ≤ v → pteOf d m' v = kernelPte K v
  copied : ∀ v < k, ∃ q, pteOf d m' v = q + 7 ∧ q ∈ m.freelist ∧ q ∉ m'.freelist ∧ ¬ IsTable d m' q ∧
    ∀ o < PGSIZE, m'.ram (q + o) = m.ram (pteAddr (pteOf pgdir m v) + o)
  inj : ∀ u < k, ∀ v < k, pteOf d m' u = pteOf d m' v → u = v
  free : ∀ q ∈ m'.freelist, q ∈ m.freelist
  tables : ∀ q, IsTable d m' q → q ∈ m.freelist
  frame : SameOff (· ∈ m.freelist) m m'

theorem Built.copying (h : Built K d m m') : Copying K pgdir d m 0 m' where
  dir := h.dir
  first := h.first
  entries := fun v hv _ => h.entries v hv
  copied := fun v hv => absurd hv (Nat.not_lt_zero v)
  inj := fun u hu => absurd hu (Nat.not_lt_zero u)
  free := fun q hq => (h.pages q).mp (.inl hq)
  tables := fun q hq => (h.pages q).mp (.inr hq)
  frame := h.frame

/-! ## One trip -/

/-- Memory with the page at `src` copied to the free page `mem`. -/
def withCopy (m : Phys) (mem src : Nat) (next : List Nat) : Phys :=
  ⟨blit m.ram mem PGSIZE fun o => m.ram (src + o), next⟩

theorem withCopy_sameOff {mem : Nat} (src : Nat) (next : List Nat) (hp : mem % PGSIZE = 0) :
    SameOff (· = mem) m (withCopy m mem src next) := fun a ha => by
  show blit m.ram mem PGSIZE (fun o => m.ram (src + o)) a = m.ram a
  exact blit_out (pgRoundDown_ne hp ha)

theorem withCopy_in {mem src o : Nat} {next : List Nat} (ho : o < PGSIZE) :
    (withCopy m mem src next).ram (mem + o) = m.ram (src + o) := by
  have h : blit m.ram mem PGSIZE (fun o => m.ram (src + o)) (mem + o) = m.ram (src + (mem + o - mem)) :=
    blit_in (Nat.le_add_right mem o) (Nat.add_lt_add_left ho mem)
  rwa [Nat.add_sub_cancel_left] at h

/-- The first part of a trip copies the page, or finds no memory. -/
theorem copyPage_spec (hsp : Space K pgdir m) (hc : Copying K pgdir d m k m1) (hk : k < UPAGES)
    (hpr : Present (pteOf pgdir m k)) :
    wp (copyPage pgdir (PGSIZE * k))
      (fun r m2 => match r with
        | none => m1.freelist = []
        | some mem => ∃ next, m1.freelist = mem :: next ∧ m2 = withCopy m1 mem (pteAddr (pteOf pgdir m k)) next)
      (fun _ _ => False) m1 := by
  have hlt : k < 1024 := Nat.lt_trans hk (by decide)
  have hfirst : Present (u32 m1.ram pgdir) := by
    have := hc.frame.pde hsp.dir.1 hsp.table_kept (i := 0) (by decide)
    simp only [pdeOf, Nat.mul_zero, Nat.add_zero] at this
    rw [this]
    exact hsp.first
  have hpte : userPte pgdir m1 k = pteOf pgdir m k := by
    rw [← pteOf_user hfirst hlt]
    exact hc.frame.pte hsp.dir.1 hsp.table_kept (Nat.lt_trans hk (by decide))
  rw [copyPage, wp_bind, wp_walkpgdir_user hfirst hk]
  dsimp only
  rw [wp_bind, wp_load32, ← userPte, hpte, if_pos hpr, wp_bind]
  rcases hfree : m1.freelist with _ | ⟨mem, next⟩
  · rw [wp_kalloc_nil hfree]
    rfl
  · rw [wp_kalloc_cons hfree]
    exact ⟨next, rfl, rfl⟩

/-- A page that keeps its bytes. -/
theorem SameOff.byte {S : Nat → Prop} (h : SameOff S m m') {q o : Nat} (hq : q % PGSIZE = 0) (ho : o < PGSIZE)
    (hS : ¬ S q) : m'.ram (q + o) = m.ram (q + o) := by
  refine h _ ?_
  rw [pgRoundDown_of hq (Nat.le_add_right q o) (Nat.add_lt_add_left ho q)]
  exact hS

section Enter

variable {mem : Nat} {next : List Nat} (hc : Copying K pgdir d m k m1) (hfree : m1.freelist = mem :: next)
include hc hfree

/-- The new directory after the page is copied: what it was, with one free page less. -/
theorem Copying.taken : Dir K d (withCopy m1 mem (pteAddr (pteOf pgdir m k)) next) ∧
    (∀ v < VPAGES, pteOf d (withCopy m1 mem (pteAddr (pteOf pgdir m k)) next) v = pteOf d m1 v) ∧
    (∀ q, IsTable d (withCopy m1 mem (pteAddr (pteOf pgdir m k)) next) q ↔ IsTable d m1 q) ∧
    Present (u32 (withCopy m1 mem (pteAddr (pteOf pgdir m k)) next).ram d) := by
  obtain ⟨hp, hpt⟩ := hc.dir.free mem (by rw [hfree]; exact List.mem_cons_self)
  have hs := withCopy_sameOff (m := m1) (pteAddr (pteOf pgdir m k)) next hp.1
  have hS : ∀ q, IsTable d m1 q → ¬ q = mem := fun q hq he => hpt (he ▸ hq)
  have hd := hc.dir.page.1
  have htab := hs.isTable hd hS
  have hnd : (mem :: next).Nodup := hfree ▸ hc.dir.nodup
  refine ⟨⟨hc.dir.page, fun i hi => ?_, fun i hi j hj => ?_, (List.nodup_cons.mp hnd).2, fun q hq => ?_⟩,
    fun v hv => hs.pte hd hS hv, htab, ?_⟩
  · rw [hs.pde hd hS hi]
    exact hc.dir.table i hi
  · rw [hs.pde hd hS hi, hs.pde hd hS hj]
    exact hc.dir.inj i hi j hj
  · rw [htab]
    exact hc.dir.free q (by rw [hfree]; exact List.mem_cons_of_mem _ hq)
  · have h0 := hs.pde hd hS (i := 0) (by decide)
    simp only [pdeOf, Nat.mul_zero, Nat.add_zero] at h0
    rw [h0]
    exact hc.first

/-- **Entering the page** needs no memory and finds the entry free. -/
theorem Copying.wp_enter (hk : k < UPAGES) {Q : Bool → Phys → Prop} {E : VmPanic → Phys → Prop} :
    wp (mappages d (PGSIZE * k) PGSIZE mem (PTE_W ||| PTE_U)) Q E (withCopy m1 mem (pteAddr (pteOf pgdir m k)) next) ↔
      Q true (setPte d (withCopy m1 mem (pteAddr (pteOf pgdir m k)) next) k (mem + 7)) := by
  obtain ⟨-, hpte, -, hfirst⟩ := hc.taken hfree
  have hlt : k < 1024 := Nat.lt_trans hk (by decide)
  have hv : k < VPAGES := Nat.lt_trans hk (by decide)
  have hold : ¬ Present (userPte d (withCopy m1 mem (pteAddr (pteOf pgdir m k)) next) k) := by
    rw [← pteOf_user hfirst hlt, hpte k hv, hc.entries k hv (Nat.le_refl k), kernelPte_user hk]
    exact not_present_zero
  have hp := (hc.dir.free mem (by rw [hfree]; exact List.mem_cons_self)).1.1
  rw [wp_mappages_user hfirst hk hold, userEntry hp, setPte_user hlt]

/-- **One more page is copied.** -/
theorem Copying.enter (hsp : Space K pgdir m) (hk : k < UPAGES) (hpr : Present (pteOf pgdir m k)) :
    Copying K pgdir d m (k + 1) (setPte d (withCopy m1 mem (pteAddr (pteOf pgdir m k)) next) k (mem + 7)) := by
  obtain ⟨hdir, hpte, htab, hfirst⟩ := hc.taken hfree
  have hmem : mem ∈ m1.freelist := by rw [hfree]; exact List.mem_cons_self
  have hsub : ∀ q ∈ next, q ∈ m1.freelist := fun q hq => by rw [hfree]; exact List.mem_cons_of_mem _ hq
  obtain ⟨hp, hpt⟩ := hc.dir.free mem hmem
  have hnext : mem ∉ next := (List.nodup_cons.mp (hfree ▸ hc.dir.nodup)).1
  have hs := withCopy_sameOff (m := m1) (pteAddr (pteOf pgdir m k)) next hp.1
  have hlt : k < 1024 := Nat.lt_trans hk (by decide)
  have hv : k < VPAGES := Nat.lt_trans hk (by decide)
  have hsrc : pteAddr (pteOf pgdir m k) ∉ m.freelist := by
    rw [pteOf_user hsp.first hlt] at hpr ⊢
    exact (hsp.user k hk hpr).2.1
  generalize hm2 : withCopy m1 mem (pteAddr (pteOf pgdir m k)) next = m2 at *
  have hfree2 : m2.freelist = next := by rw [← hm2]; rfl
  have hpr2 : Present (pdeOf d m2 (k / 1024)) := by rw [Nat.div_eq_of_lt hlt]; exact hfirst
  have hx := setPte_extends (w := mem + 7) hdir hv hpr2
  have htab' : ∀ q, IsTable d (setPte d m2 k (mem + 7)) q ↔ IsTable d m1 q := fun q =>
    (setPte_table hdir hv hpr2 q).trans (htab q)
  have hw : mem + 7 < 4294967296 := by have := hp.2.2; simp only [PHYSTOP] at this; omega
  have hent : ∀ v < VPAGES, pteOf d (setPte d m2 k (mem + 7)) v = if v = k then mem + 7 else pteOf d m1 v := by
    intro v hv'
    rw [setPte_pte hdir hv hpr2 hw hv', hpte v hv']
  have hkeep : ∀ q o, o < PGSIZE → q % PGSIZE = 0 → q ∉ m1.freelist → ¬ IsTable d m1 q →
      (setPte d m2 k (mem + 7)).ram (q + o) = m1.ram (q + o) := by
    intro q o ho hq hqf hqt
    refine (hx.frame.byte hq ho ?_).trans (hs.byte hq ho fun he => hqf (he ▸ hmem))
    rw [hfree2, htab]
    exact fun hor => hor.elim (fun hn => hqf (hsub q hn)) hqt
  refine ⟨hx.dir, ?_, fun v hv' hkv => ?_, fun v hvk => ?_, fun u hu v hvk => ?_, fun q hq => ?_, fun q hq => ?_, ?_⟩
  · have h0 := setPte_pde (w := mem + 7) hdir hv hpr2 (j := 0) (by decide)
    simp only [pdeOf, Nat.mul_zero, Nat.add_zero] at h0
    rw [h0]
    exact hfirst
  · rw [hent v hv', if_neg (by omega), hc.entries v hv' (by omega)]
  · rcases Nat.lt_succ_iff_lt_or_eq.mp hvk with hvk | rfl
    · obtain ⟨q, he, hqm, hqf, hqt, hb⟩ := hc.copied v hvk
      refine ⟨q, ?_, hqm, fun hn => hqf (hsub q (hfree2 ▸ hn)), fun hn => hqt ((htab' q).mp hn), fun o ho => ?_⟩
      · rw [hent v (by omega), if_neg (by omega), he]
      · exact (hkeep q o ho (hsp.free q hqm).1.1 hqf hqt).trans (hb o ho)
    · -- the new page holds what was copied to it
      refine ⟨mem, by rw [hent v hv, if_pos rfl], hc.free mem hmem, fun hn => hnext (hfree2 ▸ hn),
        fun hn => hpt ((htab' mem).mp hn), fun o ho => ?_⟩
      have hin : m2.ram (mem + o) = m1.ram (pteAddr (pteOf pgdir m v) + o) := by rw [← hm2]; exact withCopy_in ho
      refine (hx.frame.byte hp.1 ho ?_).trans (hin.trans (hc.frame.byte (pteAddr_aligned _) ho hsrc))
      rw [hfree2, htab]
      exact fun hor => hor.elim hnext hpt
  · -- a page copied earlier is not on the list that `mem` was taken from
    have hother : ∀ u < k, pteOf d m1 u ≠ mem + 7 := by
      intro u hu he
      obtain ⟨q, hq, -, hqf, -⟩ := hc.copied u hu
      exact hqf (by rwa [show q = mem by omega])
    rw [hent u (by omega), hent v (by omega)]
    intro he
    by_cases huk : u = k <;> by_cases hvk' : v = k
    · omega
    · rw [if_pos huk, if_neg hvk'] at he
      exact absurd he.symm (hother v (by omega))
    · rw [if_neg huk, if_pos hvk'] at he
      exact absurd he (hother u (by omega))
    · rw [if_neg huk, if_neg hvk'] at he
      exact hc.inj u (by omega) v (by omega) he
  · exact hc.free q (hsub q (hfree2 ▸ hq))
  · exact hc.tables q ((htab' q).mp hq)
  · intro a ha
    refine (hx.frame a ?_).trans ((hs a fun he => ha ?_).trans (hc.frame a ha))
    · beta_reduce
      rw [hfree2, htab]
      exact fun hor => ha (hor.elim (fun hn => hc.free _ (hsub _ hn)) (hc.tables _))
    · rw [he]
      exact hc.free mem hmem

end Enter

/-- **The loop of `copyuvm`** copies the pages, unless fewer are free; it never stops. -/
theorem copyPages_spec (hsp : Space K pgdir m) (n : Nat) : ∀ {k : Nat} {m1 : Phys}, Copying K pgdir d m k m1 →
    k + n ≤ UPAGES → (∀ v < k + n, Present (pteOf pgdir m v)) →
    wp (copyPages pgdir d n (PGSIZE * k))
      (fun ok m' => (ok = true → Copying K pgdir d m (k + n) m') ∧ (ok = false → m1.freelist.length < n))
      (fun _ _ => False) m1 := by
  induction n with
  | zero =>
    intro k m1 hc _ _
    exact ⟨fun _ => hc, nofun⟩
  | succ n ih =>
    intro k m1 hc htop hpr
    have hk : k < UPAGES := by omega
    have hprk := hpr k (by omega)
    rw [copyPages, wp_bind]
    refine wp_mono (copyPage_spec hsp hc hk hprk) ?_ fun _ _ hf => hf.elim
    rintro (_ | mem) m2 hr
    · refine ⟨nofun, fun _ => ?_⟩
      rw [show m1.freelist = [] from hr]
      exact Nat.zero_lt_succ n
    · obtain ⟨next, hfree, rfl⟩ := hr
      dsimp only
      rw [wp_bind, hc.wp_enter hfree hk, if_pos rfl, ← Nat.mul_succ]
      refine wp_post (ih (hc.enter hfree hsp hk hprk) (by omega) fun v hv => hpr v (by omega)) fun ok m' hok => ?_
      rw [Nat.succ_add] at hok
      refine ⟨hok.1, fun hfail => ?_⟩
      rw [hfree, List.length_cons]
      exact Nat.succ_lt_succ (hok.2 hfail)

/-! ## The copy -/

/-- The byte at address `va` through a page table; `none` for a page fault. -/
def byteAt (ram : Arr) (pgdir va : Nat) : Option UInt8 :=
  (translate ram pgdir va).map fun w => ram (pteAddr w + va % PGSIZE)

/-- The pages that `pgdir` consists of: its tables and its user pages. -/
def PartOf (pgdir : Nat) (m : Phys) (q : Nat) : Prop :=
  IsTable pgdir m q ∨ ∃ va < USERTOP, ∃ w, translate m.ram pgdir va = some w ∧ pteAddr w = q

/-- **`d` is a copy of the user part of `pgdir`**, for a process of size `sz`. -/
structure CopyOk (pgdir sz d : Nat) (m m' : Phys) : Prop where
  /-- The bytes are the same. -/
  bytes : ∀ va < pgRoundUp sz, ∃ b, byteAt m.ram pgdir va = some b ∧ byteAt m'.ram d va = some b
  /-- The pages were free. -/
  fresh : ∀ va < pgRoundUp sz, ∃ w, translate m'.ram d va = some w ∧ pteAddr w ∈ m.freelist
  distinct : ∀ va < pgRoundUp sz, ∀ va' < pgRoundUp sz, ∀ w w', translate m'.ram d va = some w →
    translate m'.ram d va' = some w' → pteAddr w = pteAddr w' → va / PGSIZE = va' / PGSIZE
  /-- The user can reach nothing else. -/
  user : ∀ va < 4294967296, (∃ w, translate m'.ram d va = some w ∧ w &&& PTE_U ≠ 0) ↔ va < pgRoundUp sz
  /-- The parent's page table and its pages are what they were. -/
  parent : ∀ q, PartOf pgdir m q → ∀ o < PGSIZE, m'.ram (q + o) = m.ram (q + o)
  /-- Only pages that were free are written. -/
  rest : ∀ a, pgRoundDown a ∉ m.freelist → m'.ram a = m.ram a

/-- The pages of the parent are not free. -/
theorem Space.part_kept (hsp : Space K pgdir m) {q : Nat} (hq : PartOf pgdir m q) : q ∉ m.freelist ∧ q % PGSIZE = 0 := by
  rcases hq with ht | ⟨va, hva, w, hw, rfl⟩
  · exact ⟨hsp.table_kept q ht, hsp.table_aligned ht⟩
  · have hi : va / PGSIZE < UPAGES := by simp only [PGSIZE, UPAGES, USERTOP] at *; omega
    rw [translate_eq (Nat.lt_trans hva (by decide)), pteOf_user hsp.first (Nat.lt_trans hi (by decide))] at hw
    split at hw
    · next hpr =>
      rw [← Option.some.inj hw]
      exact ⟨(hsp.user _ hi hpr).2.1, pteAddr_aligned _⟩
    · exact nomatch hw

theorem Copying.ok (hsp : Space K pgdir m) (htop : sz ≤ USERTOP) (hpr : ∀ v < pages sz, Present (pteOf pgdir m v))
    (hc : Copying K pgdir d m (pages sz) m') : CopyOk pgdir sz d m m' := by
  have hup := pgRoundUp_pages htop
  have hle := pages_le htop
  have hin : ∀ va, va < pgRoundUp sz ↔ va / PGSIZE < pages sz := by
    intro va
    rw [hup, Nat.div_lt_iff_lt_mul (by decide), Nat.mul_comm]
  have hv : ∀ va < pgRoundUp sz, va < 4294967296 := by
    intro va hva
    rw [hup] at hva
    simp only [PGSIZE, UPAGES] at *
    omega
  have htr : ∀ va < pgRoundUp sz, ∃ q, translate m'.ram d va = some (q + 7) ∧ q ∈ m.freelist ∧ pteAddr (q + 7) = q ∧
      ∀ o < PGSIZE, m'.ram (q + o) = m.ram (pteAddr (pteOf pgdir m (va / PGSIZE)) + o) := by
    intro va hva
    obtain ⟨q, he, hq, -, -, hb⟩ := hc.copied _ ((hin va).mp hva)
    have hal := (hsp.free q hq).1.1
    refine ⟨q, ?_, hq, pteAddr_userEntry hal, hb⟩
    rw [translate_eq (hv va hva), he, if_pos (present_userEntry hal)]
  refine ⟨fun va hva => ?_, fun va hva => ?_, fun va hva va' hva' w w' hw hw' he => ?_, fun va hva => ?_, fun q hq o ho => ?_,
    hc.frame⟩
  · obtain ⟨q, ht, -, hq, hb⟩ := htr va hva
    refine ⟨m.ram (pteAddr (pteOf pgdir m (va / PGSIZE)) + va % PGSIZE), ?_, ?_⟩
    · rw [byteAt, translate_eq (hv va hva), if_pos (hpr _ ((hin va).mp hva)), Option.map_some]
    · rw [byteAt, ht, Option.map_some, hq, hb _ (Nat.mod_lt _ (by decide))]
  · obtain ⟨q, ht, hf, hq, -⟩ := htr va hva
    exact ⟨_, ht, by rw [hq]; exact hf⟩
  · obtain ⟨q, ht, -, hq, -⟩ := htr va hva
    obtain ⟨q', ht', -, hq', -⟩ := htr va' hva'
    rw [← Option.some.inj (ht.symm.trans hw), ← Option.some.inj (ht'.symm.trans hw'), hq, hq'] at he
    refine hc.inj _ ((hin va).mp hva) _ ((hin va').mp hva') ?_
    rw [translate_eq (hv va hva)] at ht
    rw [translate_eq (hv va' hva')] at ht'
    split at ht
    · split at ht'
      · rw [Option.some.inj ht, Option.some.inj ht', he]
      · exact nomatch ht'
    · exact nomatch ht
  · constructor
    · rintro ⟨w, hw, hu⟩
      by_contra hout
      rw [translate_eq hva] at hw
      split at hw
      · rw [← Option.some.inj hw, hc.entries _ (by simp only [PGSIZE, VPAGES]; omega)
          (Nat.le_of_not_lt fun hlt => hout ((hin va).mpr hlt))] at hu
        exact kernelPte_not_user hu
      · exact nomatch hw
    · intro hlt
      obtain ⟨q, ht, hf, -⟩ := htr va hlt
      have hal := (hsp.free q hf).1.1
      refine ⟨_, ht, user_iff.mpr ?_⟩
      simp only [PGSIZE] at hal
      omega
  · obtain ⟨hf, hal⟩ := hsp.part_kept hq
    exact hc.frame.byte hal ho hf

/-- The pages that the loop of `copyuvm` looks up are there. -/
theorem Space.present (hsp : Space K pgdir m) (htop : sz ≤ USERTOP) (hmap : UserMapped ⟨m, pgdir, sz⟩) {v : Nat}
    (hv : v < pages sz) : Present (pteOf pgdir m v) := by
  have hv' : v < UPAGES := Nat.lt_of_lt_of_le hv (pages_le htop)
  rw [pteOf_user hsp.first (Nat.lt_trans hv' (by decide))]
  exact ((userMapped_iff hsp.first htop).mp hmap v hv').mpr hv

/-- **`copyuvm` copies memory faithfully**, and in its loop `mappages` always succeeds. -/
theorem copyuvm_faithful (hsp : Space K pgdir m) (htop : sz ≤ USERTOP) (hmap : UserMapped ⟨m, pgdir, sz⟩) :
    (∀ d m', exec (copyuvm K pgdir sz) m = (.ok (some d), m') → CopyOk pgdir sz d m m') ∧
    ∀ d m1, exec (setupkvm K) m = (.ok (some d), m1) → ∀ k < pages sz, ∀ m2 mem m3,
      exec (copyPages pgdir d k 0) m1 = (.ok true, m2) →
      exec (copyPage pgdir (PGSIZE * k)) m2 = (.ok (some mem), m3) →
      ∃ m4, exec (mappages d (PGSIZE * k) PGSIZE mem (PTE_W ||| PTE_U)) m3 = (.ok true, m4) := by
  have hfp : FreePages K m := ⟨hsp.nodup, fun q hq => (hsp.free q hq).1⟩
  have hle := pages_le htop
  have hpr : ∀ v < pages sz, Present (pteOf pgdir m v) := fun v hv => hsp.present htop hmap hv
  have hzero : PGSIZE * 0 = 0 := rfl
  constructor
  · have hcopy : wp (copyuvm K pgdir sz) (fun r m' => ∀ d, r = some d → CopyOk pgdir sz d m m') (fun _ _ => True) m := by
      rw [copyuvm, wp_bind]
      refine wp_mono (setupkvm_spec hfp) ?_ fun _ _ _ => trivial
      rintro (_ | d) m1 hb
      · exact nofun
      · obtain ⟨-, hb⟩ := hb
        dsimp only
        rw [wp_bind, ← pages, ← hzero]
        refine wp_mono (copyPages_spec hsp (pages sz) hb.copying (by omega) fun v hv => hpr v (by omega)) ?_
          fun _ _ hf => hf.elim
        rintro (_ | _) m2 ⟨hok, -⟩
        · rw [if_neg (by decide)]
          exact wp_after (fun _ _ => by rw [wp_pure]; exact nofun) m2
        · rw [if_pos rfl, wp_pure]
          intro d' he
          rw [Nat.zero_add] at hok
          rw [← Option.some.inj he]
          exact (hok rfl).ok hsp htop hpr
    exact fun d m' he => wp_ok hcopy he d rfl
  · intro d m1 h1 k hk m2 mem m3 h2 h3
    have hkU : k < UPAGES := Nat.lt_of_lt_of_le hk hle
    obtain ⟨-, hb⟩ := wp_ok (setupkvm_spec hfp) h1
    have hc := (wp_ok (copyPages_spec hsp k hb.copying (by omega) fun v hv => hpr v (by omega)) h2).1 rfl
    rw [Nat.zero_add] at hc
    obtain ⟨next, hfree, rfl⟩ := wp_ok (copyPage_spec hsp hc hkU (hpr k hk)) h3
    obtain ⟨ok, m4, hrun, rfl⟩ := wp_total ((hc.wp_enter hfree hkU (Q := fun ok _ => ok = true)).mpr rfl)
    exact ⟨m4, hrun⟩

/-- With enough free pages `copyuvm` returns a page table. -/
theorem UserImage.copyuvm_returns (h : UserImage K pgdir sz m) (hl : K.Linked) (hlen : pages sz + 1185 ≤ m.freelist.length) :
    ∃ d m', exec (copyuvm K pgdir sz) m = (.ok (some d), m') := by
  have hfp : FreePages K m := ⟨h.dir.nodup, fun q hq => (h.dir.free q hq).1⟩
  have hle := pages_le h.top
  obtain ⟨d, m1, hrun, -, hb⟩ := setupkvm_succeeds hfp hl (by omega)
  have hlen1 := hb.length_le hfp
  have hzero : PGSIZE * 0 = 0 := rfl
  have hcopy : wp (copyuvm K pgdir sz) (fun r _ => ∃ d, r = some d) (fun _ _ => False) m := by
    rw [copyuvm, wp_bind]
    refine wp_of_exec hrun ?_
    dsimp only
    rw [wp_bind, ← pages, ← hzero]
    refine wp_mono (copyPages_spec h.space (pages sz) hb.copying (by omega) fun v hv => ?_) ?_ fun _ _ hf => hf.elim
    · exact h.space.present h.top h.mapped (by omega)
    rintro (_ | _) m2 ⟨-, hfail⟩
    · exact absurd (hfail rfl) (by omega)
    · rw [if_pos rfl, wp_pure]
      exact ⟨d, rfl⟩
  obtain ⟨r, m', hrun', d', rfl⟩ := wp_total hcopy
  exact ⟨d', m', hrun'⟩

/-- A process of three pages is copied. -/
theorem copyuvm_faithful_threePages : ∃ d m',
    exec (copyuvm oneMegabyte 0x300000 8193) threePages = (.ok (some d), m') ∧ CopyOk 0x300000 8193 d threePages m' := by
  have h := threePages_grown.2.2
  have hthree : pages 8193 = 3 := by decide
  have hlen := threePages_free.2
  obtain ⟨d, m', hrun⟩ := h.copyuvm_returns (by decide) (by omega)
  exact ⟨d, m', hrun, (copyuvm_faithful h.space h.top h.mapped).1 d m' hrun⟩

end Xv6
