import Xv6.Mm.Argv
import Xv6.Mm.Copy
import Xv6.Sys.Runs

/-!
# `Mm.Args` — `exec` copies the arguments

The part of `exec` after the program is loaded, on page tables. `copyout` within a user page stores where the page
is (`wp_copyout_page`); at the addresses a stack pointer below zero wraps around to, it stores nothing
(`wp_copyout_top`); anywhere between it stores, whatever is there (`copyoutFrom_user`).
-/

namespace Xv6

open Bytes Hoare

variable {K : Symbols} {p : Pid} {cur d sz va i : Nat} {m m' : Phys} {s s' s'' : Mem} {buf : List UInt8}

theorem wp_onMem {α : Type} {x : VmM α} {Q : α → Mem → Prop} {E : VmPanic → Mem → Prop} :
    wp (onMem x) Q E s ↔ wp x (fun a v => Q a { s with phys := v }) (fun e v => E e { s with phys := v }) s.phys :=
  wp_zoom

theorem wp_onVm_iff {V α : Type} {x : Prog V VmPanic α} {Q : α → Kern × V → Prop} {E : Stop → Kern × V → Prop}
    {t : Kern × V} : wp (onVm x) Q E t ↔
      wp x (fun a v => Q a (t.1, v)) (fun e v => E (.panic e.msg) (t.1, v)) t.2 := wp_zoomMap

section Uvm

variable {t : Kern × Mem} {E : Stop → Kern × Mem → Prop}

theorem wp_uvm_allocuvm {oldsz newsz : Nat} {Q : Nat → Kern × Mem → Prop} :
    wp (onVm ((uvm K p).allocuvm d oldsz newsz)) Q E t ↔
      wp (allocuvm K d oldsz newsz) (fun r m => Q r (t.1, { t.2 with phys := m }))
        (fun e m => E (.panic e.msg) (t.1, { t.2 with phys := m })) t.2.phys := by
  rw [wp_onVm_iff, uvm, wp_onMem]

theorem wp_uvm_freevm {Q : Unit → Kern × Mem → Prop} :
    wp (onVm ((uvm K p).freevm d)) Q E t ↔
      wp (freevm K d) (fun r m => Q r (t.1, { t.2 with phys := m }))
        (fun e m => E (.panic e.msg) (t.1, { t.2 with phys := m })) t.2.phys := by
  rw [wp_onVm_iff, uvm, wp_onMem]

theorem wp_uvm_copyout {Q : Int → Kern × Mem → Prop} :
    wp (onVm ((uvm K p).copyout d va buf)) Q E t ↔
      wp (copyout (t.2.pgdir p) d va buf) (fun r s => Q r (t.1, s)) (fun e s => E (.panic e.msg) (t.1, s)) t.2 := by
  rw [wp_onVm_iff, uvm, wp_bind, wp_get]

theorem wp_uvm_swap {q : Pid} (hd : d ≠ 0) {Q : Nat → Kern × Mem → Prop} :
    wp (onVm ((uvm K p).swap q d)) Q E t ↔
      Q (t.2.pgdir q) (t.1, { t.2 with pgdir := Function.update t.2.pgdir q d }) := by
  rw [wp_onVm_iff]
  simp only [uvm, wp_bind, wp_get, wp_modify, if_neg hd, wp_pure]

end Uvm

/-! ## `uva2ka` -/

/-- Where there is a page table, `walkpgdir` finds the entry. -/
theorem wp_walkpgdir_found {v : Nat} (hv : v < VPAGES) (hpr : Present (pdeOf d m (v / 1024))) {create : Bool}
    {Q : Option Nat → Phys → Prop} {E : VmPanic → Phys → Prop} :
    wp (walkpgdir d (PGSIZE * v) create) Q E m ↔ Q (some (pteAddr (pdeOf d m (v / 1024)) + 4 * (v % 1024))) m := by
  have hd : pdx (PGSIZE * v) = v / 1024 := by simp only [pdx, PGSIZE, VPAGES] at *; omega
  have ht : ptx (PGSIZE * v) = v % 1024 := by simp only [ptx, PGSIZE] at *; omega
  rw [walkpgdir, wp_bind, wp_load32, hd, ht, ← pdeOf, if_pos hpr, wp_pure]

/-- `uva2ka` where there is a page table. -/
theorem wp_uva2ka {v : Nat} (hv : v < VPAGES) (hpr : Present (pdeOf d m (v / 1024))) {Q : Nat → Phys → Prop}
    {E : VmPanic → Phys → Prop} : wp (uva2ka cur d (PGSIZE * v)) Q E m ↔
      Q (if Present (pteOf d m v) ∧ pteOf d m v &&& PTE_U ≠ 0 then pteAddr (pteOf d m v) else 0) m := by
  rw [uva2ka, wp_bind, wp_walkpgdir_found hv hpr, wp_bind, wp_get, Option.some_or]
  dsimp only
  rw [wp_bind, wp_load32, ← pteOf_present hpr]
  by_cases h1 : Present (pteOf d m v)
  · rw [if_neg (not_not.mpr h1)]
    by_cases h2 : pteOf d m v &&& PTE_U = 0
    · rw [if_pos h2, wp_pure, if_neg fun hc => hc.2 h2]
    · rw [if_neg h2, wp_pure, if_pos ⟨h1, h2⟩]
  · rw [if_pos h1, wp_pure, if_neg fun hc => h1 hc.1]

/-- On a user page: the page. -/
theorem UserImage.wp_uva2ka (h : UserImage K d sz m) (hi : i < pages sz) {Q : Nat → Phys → Prop} {E : VmPanic → Phys → Prop} :
    wp (uva2ka cur d (PGSIZE * i)) Q E m ↔ Q (pteAddr (userPte d m i)) m := by
  have hU : i < UPAGES := Nat.lt_of_lt_of_le hi (pages_le h.top)
  have hlt : i < 1024 := Nat.lt_trans hU (by decide)
  have hpr := (h.user i hU).mpr hi
  have hflags := h.flags i hU hpr
  have hpde : Present (pdeOf d m (i / 1024)) := by rw [Nat.div_eq_of_lt hlt]; exact h.space.first
  have huser : userPte d m i &&& PTE_U ≠ 0 := by
    rw [user_iff]
    simp only [PGSIZE] at hflags
    omega
  rw [Xv6.wp_uva2ka (Nat.lt_trans hU (by decide)) hpde, pteOf_user h.space.first hlt, if_pos ⟨hpr, huser⟩]

/-- On a page of the device mappings: 0. -/
theorem UserImage.wp_uva2ka_top (h : UserImage K d sz m) {v : Nat} (h1 : 1040384 ≤ v) (hv : v < VPAGES) {Q : Nat → Phys → Prop}
    {E : VmPanic → Phys → Prop} : wp (uva2ka cur d (PGSIZE * v)) Q E m ↔ Q 0 m := by
  have hpte := h.kernel v hv (Nat.le_trans (by decide) h1)
  have hpde : Present (pdeOf d m (v / 1024)) := by
    by_contra hc
    have hk : kernelPte K v ≠ 0 := by
      have hdata := Nat.le_trans K.data_le K.kend_le
      rw [kernelPte, if_neg (by simp only [UPAGES]; omega), if_neg (by omega),
        if_neg (by simp only [PHYSTOP, PGSIZE] at *; omega), if_neg (by omega), if_neg (by omega)]
      simp only [PGSIZE]
      omega
    rw [pteOf_absent hc] at hpte
    exact hk hpte.symm
  rw [Xv6.wp_uva2ka hv hpde, if_neg fun hc => kernelPte_not_user (hpte ▸ hc.2)]

/-! ## `copyout` -/

/-- `buf` is stored at `pa`, where user address `va` is. -/
def Mem.put (s : Mem) (pa va : Nat) (buf : List UInt8) : Mem :=
  { s with
    phys := { s.phys with ram := withBytes s.phys.ram pa buf }
    stored := s.stored ++ (List.range buf.length).map (va + ·) }

/-- How much of `n` bytes goes to the page of `va`. -/
def inPage (va n : Nat) : Nat := min (PGSIZE - va % PGSIZE) n

/-- A trip of the loop at a user page stores what fits there. -/
theorem UserImage.wp_copyoutFrom (h : UserImage K d sz s.phys) (hi : va / PGSIZE < pages sz) (hne : buf ≠ []) {fuel : Nat}
    {Q : Int → Mem → Prop} {E : VmPanic → Mem → Prop} :
    wp (copyoutFrom cur d (fuel + 1) va buf) Q E s ↔
      wp (copyoutFrom cur d fuel ((PGSIZE * (va / PGSIZE) + PGSIZE) % 4294967296) (buf.drop (inPage va buf.length))) Q E
        (s.put (pteAddr (userPte d s.phys (va / PGSIZE)) + va % PGSIZE) va (buf.take (inPage va buf.length))) := by
  have hU : va / PGSIZE < UPAGES := Nat.lt_of_lt_of_le hi (pages_le h.top)
  have hpos := (h.space.user _ hU ((h.user _ hU).mpr hi)).1.pos
  have hdown : pgRoundDown va = PGSIZE * (va / PGSIZE) := Nat.mul_comm _ _
  have hoff : va - PGSIZE * (va / PGSIZE) = va % PGSIZE := by simp only [PGSIZE]; omega
  have hlen : (buf.take (inPage va buf.length)).length = inPage va buf.length := by
    rw [List.length_take]
    exact Nat.min_eq_left (Nat.min_le_right _ _)
  rw [copyoutFrom, if_neg hne, wp_bind, wp_onMem, hdown, h.wp_uva2ka hi, if_neg hpos, wp_bind, wp_modify, hoff, ← inPage,
    Mem.put, hlen]

/-- A trip at the device mappings ends the loop. -/
theorem UserImage.wp_copyout_top (h : UserImage K d sz s.phys) (h1 : 1040384 ≤ va / PGSIZE) (hva : va < 4294967296)
    (hne : buf ≠ []) {Q : Int → Mem → Prop} {E : VmPanic → Mem → Prop} :
    wp (copyout cur d va buf) Q E s ↔ Q (-1) s := by
  obtain ⟨n, hn⟩ : ∃ n, buf.length = n + 1 := ⟨buf.length - 1, by have := List.length_pos_iff.mpr hne; omega⟩
  have hdown : pgRoundDown va = PGSIZE * (va / PGSIZE) := Nat.mul_comm _ _
  rw [copyout, hn, copyoutFrom, if_neg hne, wp_bind, wp_onMem, hdown,
    h.wp_uva2ka_top h1 (by simp only [PGSIZE, VPAGES]; omega), if_pos rfl, wp_pure]

/-- Nothing is left to copy. -/
theorem copyoutFrom_nil (fuel : Nat) : copyoutFrom cur d fuel va [] = pure 0 := by
  cases fuel with
  | zero => rfl
  | succ n => exact if_pos rfl

/-- **`copyout` within a user page.** -/
theorem UserImage.wp_copyout_page (h : UserImage K d sz s.phys) (hi : va / PGSIZE < pages sz) (hne : buf ≠ [])
    (hfit : va % PGSIZE + buf.length ≤ PGSIZE) {Q : Int → Mem → Prop} {E : VmPanic → Mem → Prop} :
    wp (copyout cur d va buf) Q E s ↔ Q 0 (s.put (pteAddr (userPte d s.phys (va / PGSIZE)) + va % PGSIZE) va buf) := by
  obtain ⟨n, hn⟩ : ∃ n, buf.length = n + 1 := ⟨buf.length - 1, by have := List.length_pos_iff.mpr hne; omega⟩
  have hall : inPage va buf.length = buf.length := Nat.min_eq_right (by omega)
  rw [copyout]
  conv_lhs => rw [hn]
  rw [h.wp_copyoutFrom hi hne, hall, List.drop_length, List.take_length, copyoutFrom_nil, wp_pure]

/-- `s'` is `s` after stores to user pages of `d`. -/
structure UserStored (d : Nat) (s s' : Mem) : Prop where
  ram : SameOff (UserPage d s.phys) s.phys s'.phys
  free : s'.phys.freelist = s.phys.freelist
  pgdir : s'.pgdir = s.pgdir
  log : ∀ a ∈ s.stored, a ∈ s'.stored

theorem UserStored.refl (d : Nat) (s : Mem) : UserStored d s s := ⟨fun _ _ => rfl, rfl, rfl, fun _ h => h⟩

/-- User pages are no tables. -/
theorem UserImage.user_not_table (h : UserImage K d sz m) : ∀ q, IsTable d m q → ¬ UserPage d m q := by
  rintro q ht ⟨i, hi, hpr, rfl⟩
  exact (h.space.user i hi hpr).2.2 ht

theorem UserStored.image (hs : UserStored d s s') (h : UserImage K d sz s.phys) : UserImage K d sz s'.phys := by
  refine h.kept hs.ram h.user_not_table (by rw [hs.free]; exact h.space.nodup) fun q hq => ?_
  rw [hs.free] at hq
  exact ⟨(h.space.free q hq).1, fun hp => h.part_not_free hp hq⟩

theorem UserStored.userPte (hs : UserStored d s s') (h : UserImage K d sz s.phys) (hi : i < 1024) :
    userPte d s'.phys i = userPte d s.phys i := h.userPte_kept hs.ram h.user_not_table hi

theorem UserStored.userPage (hs : UserStored d s s') (h : UserImage K d sz s.phys) (q : Nat) :
    UserPage d s'.phys q ↔ UserPage d s.phys q := by
  refine exists_congr fun i => and_congr_right fun hi => ?_
  rw [hs.userPte h (Nat.lt_trans hi (by decide))]

theorem UserStored.trans (hs : UserStored d s s') (h : UserImage K d sz s.phys) (hs' : UserStored d s' s'') : UserStored d s s'' :=
  ⟨hs.ram.trans hs'.ram fun q => (hs.userPage h q).mp, hs'.free.trans hs.free, hs'.pgdir.trans hs.pgdir,
    fun a ha => hs'.log a (hs.log a ha)⟩

theorem withBytes_page {ram : Arr} {q o : Nat} (hq : q % PGSIZE = 0) (hfit : o + buf.length ≤ PGSIZE) {a : Nat}
    (ha : pgRoundDown a ≠ q) : withBytes ram (q + o) buf a = ram a := by
  have := pgRoundDown_ne hq ha
  exact withBytes_out (by omega)

/-- A store within a user page. -/
theorem UserImage.put_stored (h : UserImage K d sz s.phys) (va : Nat) (hi : i < pages sz) {o : Nat} (hfit : o + buf.length ≤ PGSIZE) :
    UserStored d s (s.put (pteAddr (userPte d s.phys i) + o) va buf) := by
  have hU : i < UPAGES := Nat.lt_of_lt_of_le hi (pages_le h.top)
  refine ⟨fun a ha => ?_, rfl, rfl, fun a ha => List.mem_append_left _ ha⟩
  exact withBytes_page (pteAddr_aligned _) hfit fun he => ha ⟨i, hU, (h.user i hU).mpr hi, he.symm⟩

/-- **`copyout` to user pages** stores, and stores first at `va`. -/
theorem copyoutFrom_user (fuel : Nat) : ∀ {va : Nat} {buf : List UInt8} {s : Mem}, UserImage K d sz s.phys →
    buf.length ≤ fuel → va + buf.length ≤ PGSIZE * pages sz →
    wp (copyoutFrom cur d fuel va buf) (fun r s' => r = 0 ∧ UserStored d s s' ∧ (buf ≠ [] → va ∈ s'.stored))
      (fun _ _ => False) s := by
  induction fuel with
  | zero =>
    intro va buf s _ hlen _
    exact ⟨rfl, .refl d s, fun hne => absurd (List.eq_nil_of_length_eq_zero (Nat.le_zero.mp hlen)) hne⟩
  | succ fuel ih =>
    intro va buf s h hlen hend
    by_cases hne : buf = []
    · rw [hne, copyoutFrom_nil, wp_pure]
      exact ⟨rfl, .refl d s, fun hc => absurd rfl hc⟩
    have hpos := List.length_pos_iff.mpr hne
    have hpg := pages_le h.top
    have hi : va / PGSIZE < pages sz := by
      rw [Nat.div_lt_iff_lt_mul (by decide), Nat.mul_comm]
      omega
    have hn1 : 1 ≤ inPage va buf.length := by simp only [inPage, PGSIZE]; omega
    have hn2 : inPage va buf.length ≤ buf.length := Nat.min_le_right _ _
    have hn3 : va % PGSIZE + inPage va buf.length ≤ PGSIZE := by simp only [inPage, PGSIZE]; omega
    have htake : (buf.take (inPage va buf.length)).length = inPage va buf.length := by
      rw [List.length_take]
      exact Nat.min_eq_left hn2
    rw [h.wp_copyoutFrom hi hne]
    have hst := h.put_stored va hi (by rw [htake]; exact hn3)
    refine wp_post (ih (hst.image h) (by rw [List.length_drop]; omega) ?_) ?_
    · rw [List.length_drop]
      simp only [inPage, PGSIZE, UPAGES] at *
      omega
    · rintro r s' ⟨rfl, hs', -⟩
      refine ⟨rfl, hst.trans h hs', fun _ => hs'.log va (List.mem_append_right _ ?_)⟩
      exact List.mem_map.mpr ⟨0, List.mem_range.mpr (by rw [htake]; exact hn1), Nat.add_zero va⟩

/-! ## The stack page -/

/-- The page at `pa` holds what `u` has from `base` on. -/
def OnPage (base pa : Nat) (m : Phys) (u : Arr) : Prop := ∀ o < PGSIZE, m.ram (pa + o) = u (base + o)

/-- Only the user page at `pa` is written, at addresses from `base` on, and it holds what `u'` has. -/
structure Copied (d base pa : Nat) (s : Mem) (u : Arr) (s' : Mem) (u' : Arr) : Prop where
  stored : UserStored d s s'
  page : OnPage base pa s.phys u → OnPage base pa s'.phys u'
  log : ∀ a ∈ s'.stored, a ∈ s.stored ∨ (base ≤ a ∧ a < base + PGSIZE)

theorem Copied.refl (d base pa : Nat) (s : Mem) (u : Arr) : Copied d base pa s u s u :=
  ⟨.refl d s, id, fun _ ha => .inl ha⟩

theorem Copied.trans {base pa : Nat} {u u' u'' : Arr} (hc : Copied d base pa s u s' u') (h : UserImage K d sz s.phys)
    (hc' : Copied d base pa s' u' s'' u'') : Copied d base pa s u s'' u'' :=
  ⟨hc.stored.trans h hc'.stored, hc'.page ∘ hc.page, fun a ha => (hc'.log a ha).elim (hc.log a) .inr⟩

/-- **`copyout` to the stack page.** -/
theorem UserImage.copyout_stack {v : Nat} (h : UserImage K d (PGSIZE * v + PGSIZE) s.phys) (hne : buf ≠ []) (hlo : PGSIZE * v ≤ va)
    (hhi : va + buf.length ≤ PGSIZE * v + PGSIZE) (u : Arr) :
    wp (copyout cur d va buf)
      (fun r s' => r = 0 ∧ Copied d (PGSIZE * v) (pteAddr (userPte d s.phys v)) s u s' (withBytes u va buf))
      (fun _ _ => False) s := by
  have hpos := List.length_pos_iff.mpr hne
  have hdiv : va / PGSIZE = v := by simp only [PGSIZE] at *; omega
  have hmod : va % PGSIZE = va - PGSIZE * v := by simp only [PGSIZE] at *; omega
  have hi : v < pages (PGSIZE * v + PGSIZE) := by simp only [pages, PGSIZE]; omega
  rw [h.wp_copyout_page (by rw [hdiv]; exact hi) hne (by omega), hdiv, hmod]
  refine ⟨rfl, h.put_stored _ hi (by omega), fun hpage o ho => ?_, fun a ha => ?_⟩
  · show withBytes _ _ _ _ = _
    by_cases hin : va ≤ PGSIZE * v + o ∧ PGSIZE * v + o < va + buf.length
    · rw [withBytes_in (by omega) (by omega), withBytes_in hin.1 hin.2]
      congr 1
      omega
    · rw [withBytes_out (by omega), withBytes_out (by omega)]
      exact hpage o ho
  · rcases List.mem_append.mp ha with ha | ha
    · exact .inl ha
    · obtain ⟨k, hk, rfl⟩ := List.mem_map.mp ha
      have := List.mem_range.mp hk
      exact .inr ⟨by omega, by omega⟩

/-! ## Pushing the strings -/

/-- Strings that `exec` gets from `sys_exec`: they end within the caller's memory. -/
abbrev ShortArgs (argv : List (List UInt8)) : Prop := ∀ a ∈ argv, a.length < USERTOP

variable {v sp : Nat} {a : List UInt8} {argv : List (List UInt8)} {ustack : List Nat} {u : Arr} {t : Kern × Mem}

theorem argBuf (a : List UInt8) : a ++ [0] ≠ [] ∧ (a ++ [0]).length = a.length + 1 :=
  ⟨List.append_ne_nil_of_right_ne_nil a (List.cons_ne_nil 0 []), by rw [List.length_append, List.length_singleton]⟩

theorem pages_stack (v : Nat) : PGSIZE * pages (PGSIZE * v + PGSIZE) = PGSIZE * v + PGSIZE := by
  simp only [pages, PGSIZE]
  omega

/-- A string for which there is no room above address 0 ends the loop. -/
theorem wp_pushArgs_wraps (h : UserImage K d sz t.2.phys) (hsp : sp < argSize a) (h4 : sp % 4 = 0)
    (hroom : ustack.length < MAXARG) (hlen : a.length < USERTOP) {Q : Option (Nat × List Nat) → Kern × Mem → Prop}
    {E : Stop → Kern × Mem → Prop} : wp (pushArgs (uvm K p) d (a :: argv) sp ustack) Q E t ↔ Q none t := by
  obtain ⟨hva, htop⟩ := push_wraps (by simp only [argSize] at hsp; omega : sp < a.length + 1) hlen
  rw [pushArgs, if_neg (by omega), wp_bind, wp_uvm_copyout, h.wp_copyout_top htop hva (argBuf a).1, if_pos (by decide),
    wp_pure]

/-- Any other string is copied out. -/
theorem wp_pushArgs_cons (hle : argSize a ≤ sp) (h4 : sp % 4 = 0) (hlt : sp < 4294967296) (hroom : ustack.length < MAXARG)
    {Q : Option (Nat × List Nat) → Kern × Mem → Prop} {E : Stop → Kern × Mem → Prop} :
    wp (pushArgs (uvm K p) d (a :: argv) sp ustack) Q E t ↔
      wp (copyout (t.2.pgdir p) d (sp - argSize a) (a ++ [0]))
        (fun r s => wp (if r < 0 then pure none else pushArgs (uvm K p) d argv (sp - argSize a) (ustack ++ [sp - argSize a]))
          Q E (t.1, s))
        (fun e s => E (.panic e.msg) (t.1, s)) t.2 := by
  rw [pushArgs, if_neg (by omega), wp_bind, wp_uvm_copyout, push_sp h4 hlt hle]

/-- **Pushing strings that stay in the page**: all of them are there, or the pointer has wrapped around. -/
theorem pushArgs_stays (argv : List (List UInt8)) : ∀ {sp : Nat} {ustack : List Nat} {t : Kern × Mem} {u : Arr},
    UserImage K d (PGSIZE * v + PGSIZE) t.2.phys → StaysInPage (PGSIZE * v) sp ustack.length argv → sp % 4 = 0 →
    sp ≤ PGSIZE * v + PGSIZE → ustack.length + argv.length ≤ MAXARG → ShortArgs argv →
    wp (pushArgs (uvm K p) d argv sp ustack)
      (fun r t' => t'.1 = t.1 ∧ ∃ u', Copied d (PGSIZE * v) (pteAddr (userPte d t.2.phys v)) t.2 u t'.2 u' ∧
        ((r = none ∧ sp < argsSize argv) ∨ (r = some (sp - argsSize argv, ustack ++ argPtrs sp argv) ∧
          u' = argBytes u sp argv ∧ argsSize argv ≤ sp ∧
          StaysInPage (PGSIZE * v) (sp - argsSize argv) (ustack.length + argv.length) [])))
      (fun _ _ => False) t := by
  induction argv with
  | nil =>
    intro sp ustack t u _ hst _ _ _ _
    rw [pushArgs, wp_pure]
    refine ⟨rfl, u, .refl .., .inr ⟨?_, rfl, Nat.zero_le _, hst⟩⟩
    rw [argPtrs, List.append_nil]
    rfl
  | cons a argv ih =>
    intro sp ustack t u h hst h4 hsp hlen hshort
    have hsz := argSize_ge a
    have htop := h.top
    obtain ⟨hne, hlen1⟩ := argBuf a
    rw [List.length_cons] at hlen
    rw [argsSize_cons]
    rcases hst with hwrap | ⟨hfit, hrest⟩
    · rw [wp_pushArgs_wraps h hwrap h4 (by omega) (hshort a List.mem_cons_self)]
      exact ⟨rfl, u, .refl .., .inl ⟨rfl, by omega⟩⟩
    · rw [wp_pushArgs_cons (by omega) h4 (by simp only [USERTOP] at htop; omega) (by omega)]
      refine wp_post (h.copyout_stack hne (by omega) (by rw [hlen1]; omega) u) ?_
      rintro r s1 ⟨rfl, hc⟩
      rw [if_neg (by decide)]
      have h1 := hc.stored.image h
      have hpte := hc.stored.userPte h (i := v) (by
        have := pages_le htop
        simp only [pages, PGSIZE, UPAGES] at this
        omega)
      have hlen' : (ustack ++ [sp - argSize a]).length = ustack.length + 1 := by
        rw [List.length_append, List.length_singleton]
      refine wp_post (ih (t := (t.1, s1)) (u := withBytes u (sp - argSize a) (a ++ [0])) h1 (by rw [hlen']; exact hrest)
        (by omega) (by omega) (by rw [hlen']; omega) fun b hb => hshort b (List.mem_cons_of_mem a hb)) ?_
      rintro r t' ⟨hk, u', hc', hout⟩
      rw [hpte] at hc'
      refine ⟨hk, u', hc.trans h hc', hout.imp (fun hno => ⟨hno.1, by have := hno.2; omega⟩) fun hall => ?_⟩
      obtain ⟨hr, hu, hle, hs⟩ := hall
      refine ⟨?_, hu, by omega, ?_⟩
      · rw [hr, argPtrs, Nat.sub_sub, List.append_assoc, List.singleton_append]
      · rwa [hlen', Nat.sub_sub, Nat.add_assoc, Nat.add_comm 1] at hs

/-- Pushing strings, wherever they go, stores to user pages only. -/
theorem pushArgs_any (argv : List (List UInt8)) : ∀ {sp : Nat} {ustack : List Nat} {t : Kern × Mem},
    UserImage K d (PGSIZE * v + PGSIZE) t.2.phys → sp % 4 = 0 → sp ≤ PGSIZE * v + PGSIZE →
    ustack.length + argv.length ≤ MAXARG → ShortArgs argv →
    wp (pushArgs (uvm K p) d argv sp ustack)
      (fun r t' => t'.1 = t.1 ∧ UserStored d t.2 t'.2 ∧
        ∀ sp' us, r = some (sp', us) → sp' ≤ sp ∧ us.length = ustack.length + argv.length)
      (fun _ _ => False) t := by
  induction argv with
  | nil =>
    intro sp ustack t _ _ _ _ _
    rw [pushArgs, wp_pure]
    refine ⟨rfl, .refl .., fun sp' us he => ?_⟩
    obtain ⟨rfl, rfl⟩ := Prod.mk.inj (Option.some.inj he)
    exact ⟨Nat.le_refl _, rfl⟩
  | cons a argv ih =>
    intro sp ustack t h h4 hsp hlen hshort
    have hsz := argSize_ge a
    have htop := h.top
    rw [List.length_cons] at hlen ⊢
    by_cases hwrap : sp < argSize a
    · rw [wp_pushArgs_wraps h hwrap h4 (by omega) (hshort a List.mem_cons_self)]
      exact ⟨rfl, .refl .., nofun⟩
    · rw [wp_pushArgs_cons (by omega) h4 (by simp only [USERTOP] at htop; omega) (by omega)]
      refine wp_post (copyoutFrom_user _ h (Nat.le_refl _) (by rw [(argBuf a).2, pages_stack]; omega)) ?_
      rintro r s1 ⟨rfl, hs, -⟩
      rw [if_neg (by decide)]
      have hlen' : (ustack ++ [sp - argSize a]).length = ustack.length + 1 := by
        rw [List.length_append, List.length_singleton]
      refine wp_post (ih (t := (t.1, s1)) (hs.image h) (by omega) (by omega) (by rw [hlen']; omega)
        fun b hb => hshort b (List.mem_cons_of_mem a hb)) ?_
      rintro r t' ⟨hk, hs', hout⟩
      refine ⟨hk, hs.trans h hs', fun sp' us he => ?_⟩
      have := hout sp' us he
      rw [hlen'] at this
      omega

/-- **Pushing strings that do not stay in the page** stores below it, or leaves the frame no room in it. -/
theorem pushArgs_misses (argv : List (List UInt8)) : ∀ {sp : Nat} {ustack : List Nat} {t : Kern × Mem},
    UserImage K d (PGSIZE * v + PGSIZE) t.2.phys → ¬ StaysInPage (PGSIZE * v) sp ustack.length argv → sp % 4 = 0 →
    sp ≤ PGSIZE * v + PGSIZE → ustack.length + argv.length ≤ MAXARG → ShortArgs argv →
    wp (pushArgs (uvm K p) d argv sp ustack)
      (fun r t' => t'.1 = t.1 ∧ UserStored d t.2 t'.2 ∧
        (∀ sp' us, r = some (sp', us) → sp' ≤ sp ∧ us.length = ustack.length + argv.length) ∧
        ((∃ a ∈ t'.2.stored, a < PGSIZE * v) ∨
          ∃ sp' us, r = some (sp', us) ∧ ¬ StaysInPage (PGSIZE * v) sp' us.length []))
      (fun _ _ => False) t := by
  induction argv with
  | nil =>
    intro sp ustack t _ hst _ _ _ _
    rw [pushArgs, wp_pure]
    refine ⟨rfl, .refl .., fun sp' us he => ?_, .inr ⟨sp, ustack, rfl, hst⟩⟩
    obtain ⟨rfl, rfl⟩ := Prod.mk.inj (Option.some.inj he)
    exact ⟨Nat.le_refl _, rfl⟩
  | cons a argv ih =>
    intro sp ustack t h hst h4 hsp hlen hshort
    have hsz := argSize_ge a
    have htop := h.top
    obtain ⟨hle, hrest⟩ := not_or.mp hst
    rw [List.length_cons] at hlen ⊢
    rw [wp_pushArgs_cons (by omega) h4 (by simp only [USERTOP] at htop; omega) (by omega)]
    refine wp_post (copyoutFrom_user _ h (Nat.le_refl _) (by rw [(argBuf a).2, pages_stack]; omega)) ?_
    rintro r s1 ⟨rfl, hs, hmem⟩
    rw [if_neg (by decide)]
    have hlen' : (ustack ++ [sp - argSize a]).length = ustack.length + 1 := by
      rw [List.length_append, List.length_singleton]
    have hshort' : ShortArgs argv := fun b hb => hshort b (List.mem_cons_of_mem a hb)
    by_cases hfit : PGSIZE * v + argSize a ≤ sp
    · refine wp_post (ih (t := (t.1, s1)) (hs.image h) (by rw [hlen']; exact fun hc => hrest ⟨hfit, hc⟩) (by omega) (by omega)
        (by rw [hlen']; omega) hshort') ?_
      rintro r t' ⟨hk, hs', hout, hmiss⟩
      refine ⟨hk, hs.trans h hs', fun sp' us he => ?_, hmiss⟩
      have := hout sp' us he
      rw [hlen'] at this
      omega
    · -- this string starts below the page, and what comes later does not undo that
      refine wp_post (pushArgs_any argv (t := (t.1, s1)) (hs.image h) (by omega) (by omega) (by rw [hlen']; omega) hshort') ?_
      rintro r t' ⟨hk, hs', hout⟩
      refine ⟨hk, hs.trans h hs', fun sp' us he => ?_, .inl ⟨sp - argSize a, hs'.log _ (hmem (argBuf a).1), by omega⟩⟩
      have := hout sp' us he
      rw [hlen'] at this
      omega

end Xv6
