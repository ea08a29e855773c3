import Xv6.Mm.Args

/-!
# `Mm.ExecArgs` — the stack of a new program

The end of `exec`: a page for the stack, the arguments, and the commit to the new image. The arguments are read back
as they were given when they fit in the page (`execStack_args`). When they do not, they are written below it, over
the program, unless the pointer has wrapped around by then (`execStack_inPage_iff`).
-/

namespace Xv6

open Bytes Hoare

variable {K : Symbols} {p : Pid} {d sz : Nat} {m m' : Phys} {s s' : Mem} {t : Kern × Mem}

/-! ## Two address spaces -/

/-- **The new program is loaded**: its address space and the caller's have no page in common. -/
structure NewImage (K : Symbols) (p : Pid) (d sz : Nat) (s : Mem) : Prop where
  image : UserImage K d sz s.phys
  old : ∃ osz, UserImage K (s.pgdir p) osz s.phys
  apart : ∀ q, Part d s.phys q → ¬ Part (s.pgdir p) s.phys q

/-- What the new address space may write to is no page of the caller's. -/
theorem NewImage.own_apart (h : NewImage K p d sz s) {q : Nat} (hq : Part (s.pgdir p) s.phys q) : ¬ Own d s.phys q := by
  obtain ⟨osz, ho⟩ := h.old
  rw [own_iff]
  rintro (hf | hd)
  · exact ho.part_not_free hq hf
  · exact h.apart q hd hq

/-- A step within the new address space keeps the two apart. -/
theorem NewImage.step {sz' : Nat} (h : NewImage K p d sz s) (hi : UserImage K d sz' s'.phys)
    (hram : SameOff (Own d s.phys) s.phys s'.phys) (hown : ∀ q, Own d s'.phys q → Own d s.phys q)
    (hp : s'.pgdir = s.pgdir) : NewImage K p d sz' s' := by
  obtain ⟨osz, ho⟩ := h.old
  have hS : ∀ q, IsTable (s.pgdir p) s.phys q → ¬ Own d s.phys q := fun q ht => h.own_apart (.inl ht)
  refine ⟨hi, ⟨osz, ?_⟩, fun q hq => ?_⟩
  · rw [hp]
    refine ho.kept hram hS hi.space.nodup fun q hq => ⟨(hi.space.free q hq).1, fun hpart => ?_⟩
    exact h.own_apart hpart (hown q (own_iff.mpr (.inl hq)))
  · rw [hp, ho.part_kept hram hS]
    exact fun hpart => h.own_apart hpart (hown q (own_iff.mpr (.inr hq)))

theorem NewImage.stored (h : NewImage K p d sz s) (hs : UserStored d s s') : NewImage K p d sz s' := by
  have hpart := h.image.part_kept hs.ram h.image.user_not_table
  refine h.step (hs.image h.image) (fun a ha => hs.ram a fun hu => ha (own_iff.mpr (.inr (.inr hu)))) (fun q hq => ?_) hs.pgdir
  rw [own_iff, hs.free, hpart] at hq
  exact own_iff.mpr hq

theorem NewImage.evolves {sz' lo hi : Nat} (h : NewImage K p d sz s) (he : Evolves K d lo hi s.phys m') (hi' : UserImage K d sz' m') :
    NewImage K p d sz' { s with phys := m' } :=
  h.step hi' he.ram (fun q => (he.own h.image.space q).mp) rfl

/-- **`setupkvm`** makes an address space apart from the caller's. -/
theorem Built.loaded {osz : Nat} (hb : Built K d s.phys m') (ho : UserImage K (s.pgdir p) osz s.phys) :
    NewImage K p d 0 { s with phys := m' } := by
  have hS : ∀ q, IsTable (s.pgdir p) s.phys q → ¬ q ∈ s.phys.freelist := ho.space.table_kept
  have hi := hb.image
  have hpart : ∀ q, Part d m' q → q ∈ s.phys.freelist := by
    rintro q (ht | ⟨i, hi', hpr, -⟩)
    · exact (hb.pages q).mp (.inr ht)
    · exact absurd ((hi.user i hi').mp hpr) (Nat.not_lt_zero i)
  refine ⟨hi, ⟨osz, ho.kept hb.frame hS hb.dir.nodup fun q hq => ⟨(hb.dir.free q hq).1, fun hp => ?_⟩⟩, fun q hq => ?_⟩
  · exact ho.part_not_free hp ((hb.pages q).mp (.inl hq))
  · show ¬ Part (s.pgdir p) m' q
    rw [ho.part_kept hb.frame hS]
    exact fun hp => ho.part_not_free hp (hpart q hq)

/-! ## The ends of `exec` -/

/-- **The label `bad`**, with no inode held: the pages of the new address space are free again. -/
theorem execBad_spec (h : UserImage K d sz t.2.phys) :
    wp (execBad (uvm K p) (some d) none)
      (fun r t' => r = -1 ∧ t'.1 = t.1 ∧ t'.2.pgdir = t.2.pgdir ∧ t'.2.stored = t.2.stored ∧
        ∀ q, q ∈ t'.2.phys.freelist ↔ Own d t.2.phys q)
      (fun _ _ => False) t := by
  rw [execBad, wp_bind, wp_uvm_freevm]
  refine wp_mono h.freevm ?_ fun _ _ hf => hf.elim
  rintro _ m' ⟨hfree, -, -⟩
  exact ⟨rfl, rfl, rfl, rfl, hfree⟩

/-- What the process is after the commit. -/
def committed (x : Proc) (path : List UInt8) (entry top sp : Nat) : Proc :=
  { x with sz := top, esp := sp, eip := entry, name := safestrcpy (baseName path) 16 }

/-- **The commit**: the caller's address space is freed, and nothing else changes in memory. -/
theorem execCommit_spec {path : List UInt8} {entry top sp : Nat} (h : NewImage K p d sz t.2) :
    wp (execCommit (uvm K p) p path entry d top sp)
      (fun r t' => r = 0 ∧ t'.1 = t.1.setProc p (committed (t.1.procs p) path entry top sp) ∧
        t'.2.pgdir = Function.update t.2.pgdir p d ∧ t'.2.stored = t.2.stored ∧
        SameOff (Own (t.2.pgdir p) t.2.phys) t.2.phys t'.2.phys)
      (fun _ _ => False) t := by
  obtain ⟨osz, ho⟩ := h.old
  rw [execCommit, wp_bind, wp_onKern, wp_modProc, wp_bind, wp_uvm_swap h.image.space.dir.pos, wp_bind, wp_uvm_freevm]
  refine wp_mono ho.freevm ?_ fun _ _ hf => hf.elim
  rintro _ m' ⟨-, -, hram⟩
  exact ⟨rfl, rfl, rfl, rfl, hram⟩

/-! ## The stack page -/

theorem UserImage.roundUp (h : UserImage K d sz m) : UserImage K d (PGSIZE * pages sz) m := by
  have hpg := pages_le h.top
  have heq : pages (PGSIZE * pages sz) = pages sz := by
    generalize pages sz = n
    simp only [pages, PGSIZE]
    omega
  refine ⟨h.space, h.dir, fun i hi => ?_, h.flags, h.kernel, ?_⟩
  · rw [heq]
    exact h.user i hi
  · simp only [PGSIZE, UPAGES, USERTOP] at *
    omega

/-- There is no page for the stack. -/
def NoStack (sz : Nat) (m : Phys) : Prop := m.freelist = [] ∨ USERTOP < pgRoundUp sz + PGSIZE

instance (sz : Nat) (m : Phys) : Decidable (NoStack sz m) := inferInstanceAs (Decidable (_ ∨ _))

/-- **The stack page** is allocated at the next page boundary. -/
theorem NewImage.stack_alloc (h : NewImage K p d sz s) {top : Nat} (htop : top = PGSIZE * pages sz + PGSIZE) :
    wp (allocuvm K d (pgRoundUp sz) top)
      (fun r m' => if NoStack sz s.phys then r = 0 ∧ NewImage K p d (PGSIZE * pages sz) { s with phys := m' }
        else r = top ∧ NewImage K p d top { s with phys := m' })
      (fun _ _ => False) s.phys := by
  have hup := pgRoundUp_pages h.image.top
  have hno : NoStack sz s.phys ↔ s.phys.freelist = [] ∨ USERTOP < top := by rw [NoStack, hup, ← htop]
  rw [hup]
  by_cases hbig : USERTOP < top
  · rw [allocuvm, if_pos hbig, wp_pure, if_pos (hno.mpr (.inr hbig))]
    exact ⟨rfl, h.step h.image.roundUp (fun _ _ => rfl) (fun _ hq => hq) rfl⟩
  have hone : pages top - pages (PGSIZE * pages sz) = 1 := by
    rw [htop]
    simp only [pages, PGSIZE]
    omega
  refine wp_post (h.image.roundUp.alloc top) ?_
  rw [hone]
  rintro r m' ⟨he, ⟨rfl, hi, hlen⟩ | ⟨hmax, hi, hlen⟩⟩
  · have hnil : s.phys.freelist = [] := List.length_eq_zero_iff.mp (Nat.lt_one_iff.mp (hlen (Nat.le_of_not_lt hbig)))
    rw [if_pos (hno.mpr (.inl hnil))]
    exact ⟨rfl, h.evolves he hi⟩
  · have hne : s.phys.freelist ≠ [] := List.ne_nil_of_length_pos hlen
    obtain rfl : r = top := hmax.trans (Nat.max_eq_right (by rw [htop]; exact Nat.le_add_right _ _))
    rw [if_neg fun hc => (hno.mp hc).elim hne hbig]
    exact ⟨rfl, h.evolves he hi⟩

/-! ## The arguments -/

variable {top entry : Nat} {path : List UInt8} {argv : List (List UInt8)}

/-- A frame for which there is no room above address 0 wraps around to the device mappings. -/
theorem frame_wraps {sp n : Nat} (h : sp < n) (hn : n ≤ PGSIZE) :
    usub sp n < 4294967296 ∧ 1040384 ≤ usub sp n / PGSIZE := by
  simp only [PGSIZE] at hn
  have hw : usub sp n = sp + (4294967296 - n) := by
    rw [usub, Nat.mod_eq_of_lt (by omega : n < 4294967296)]
    exact Nat.mod_eq_of_lt (by omega)
  rw [hw]
  simp only [PGSIZE]
  omega

theorem ustackBytes_length (sp : Nat) (ustack : List Nat) : (ustackBytes sp ustack).length = 4 * (4 + ustack.length) := by
  refine (leBytes_length _).trans ?_
  simp only [List.length_append, List.length_cons, List.length_nil]
  omega

/-- **The program is started** by process `p`, with its arguments on the stack below `top`. -/
structure Started (p : Pid) (d top : Nat) (argv : List (List UInt8)) (t : Kern × Mem) : Prop where
  sz : (t.1.procs p).sz = top
  esp : (t.1.procs p).esp = argEsp top argv
  pgdir : t.2.pgdir p = d
  stack : ∃ u, ∀ va, top ≤ va + PGSIZE → va < top → byteAt t.2.phys.ram d va = some (argStack u top argv va)

/-- The pages of the new address space are not those that the commit frees. -/
theorem NewImage.kept_apart (h : NewImage K p d sz s) {q : Nat} (hq : Part d s.phys q) : ¬ Own (s.pgdir p) s.phys q := by
  rw [own_iff]
  exact fun hor => hor.elim (h.image.part_not_free hq) (h.apart q hq)

/-- The bytes of the stack page after the commit. -/
theorem NewImage.byteAt {v va : Nat} {u : Arr} (h : NewImage K p d (PGSIZE * v + PGSIZE) s)
    (hram : SameOff (Own (s.pgdir p) s.phys) s.phys m') (hpage : OnPage (PGSIZE * v) (pteAddr (userPte d s.phys v)) s.phys u)
    (hlo : PGSIZE * v ≤ va) (hhi : va < PGSIZE * v + PGSIZE) : byteAt m'.ram d va = some (u va) := by
  have hdiv : va / PGSIZE = v := by simp only [PGSIZE] at *; omega
  have hmod : va % PGSIZE = va - PGSIZE * v := by simp only [PGSIZE] at *; omega
  have htop := h.image.top
  have hv : v < UPAGES := by simp only [PGSIZE, UPAGES, USERTOP] at *; omega
  have hpr := (h.image.user v hv).mpr (by simp only [pages, PGSIZE]; omega)
  have hpte : pteOf d m' v = userPte d s.phys v := by
    rw [hram.pte h.image.dir.page.1 (fun q ht => h.kept_apart (.inl ht)) (Nat.lt_trans hv (by decide))]
    exact pteOf_user h.image.space.first (Nat.lt_trans hv (by decide))
  rw [Xv6.byteAt, translate_eq (by simp only [USERTOP] at htop; omega), hdiv, hpte, if_pos hpr, Option.map_some,
    hram.byte (pteAddr_aligned _) (Nat.mod_lt _ (by decide)) (h.kept_apart (.inr ⟨v, hv, hpr, rfl⟩)),
    hpage _ (Nat.mod_lt _ (by decide)), hmod, Nat.add_sub_cancel' hlo]

/-- The arguments and the frame fit in one page. -/
def FitsPage (argv : List (List UInt8)) : Prop := argsSize argv + 4 * (4 + argv.length) ≤ PGSIZE

instance (argv : List (List UInt8)) : Decidable (FitsPage argv) := inferInstanceAs (Decidable (_ ≤ _))

/-- Copying out the frame after strings that stayed in the page. -/
theorem frame_stays {v sp : Nat} {ustack : List Nat} {u : Arr} {cur : Nat} (h : UserImage K d (PGSIZE * v + PGSIZE) s.phys)
    (hst : StaysInPage (PGSIZE * v) sp ustack.length []) (hsp : sp ≤ PGSIZE * v + PGSIZE) (hlen : ustack.length ≤ MAXARG) :
    wp (copyout cur d (usub sp ((3 + ustack.length + 1) * 4)) (ustackBytes sp ustack))
      (fun r s' => ∃ u', Copied d (PGSIZE * v) (pteAddr (userPte d s.phys v)) s u s' u' ∧
        ((r = -1 ∧ sp < 4 * (4 + ustack.length)) ∨ (r = 0 ∧ PGSIZE * v + 4 * (4 + ustack.length) ≤ sp ∧
          u' = withBytes u (sp - 4 * (4 + ustack.length)) (ustackBytes sp ustack))))
      (fun _ _ => False) s := by
  have hn : (3 + ustack.length + 1) * 4 = 4 * (4 + ustack.length) := by omega
  have hlenb := ustackBytes_length sp ustack
  have hne : ustackBytes sp ustack ≠ [] := List.ne_nil_of_length_pos (by omega)
  have htop := h.top
  rw [hn]
  rcases hst with hwrap | hfit
  · obtain ⟨h1, h2⟩ := frame_wraps hwrap (by simp only [PGSIZE, MAXARG] at *; omega)
    rw [h.wp_copyout_top h2 h1 hne]
    exact ⟨u, .refl .., .inl ⟨rfl, hwrap⟩⟩
  · rw [usub_of_le (by omega) (by simp only [USERTOP] at htop; omega)]
    refine wp_post (h.copyout_stack hne (by omega) (by omega) u) ?_
    rintro r s' ⟨rfl, hc⟩
    exact ⟨_, hc, .inr ⟨rfl, hfit, rfl⟩⟩

theorem onPage_self (base pa : Nat) (m : Phys) : OnPage base pa m fun va => m.ram (pa + (va - base)) := fun o _ => by
  beta_reduce
  rw [Nat.add_sub_cancel_left]

/-- What `exec` says of arguments that stay in the page. -/
def InPage (p : Pid) (d base : Nat) (argv : List (List UInt8)) (t : Kern × Mem) (r : Int) (t' : Kern × Mem) : Prop :=
  (∀ a ∈ t'.2.stored, a ∈ t.2.stored ∨ (base ≤ a ∧ a < base + PGSIZE)) ∧
    ((r = -1 ∧ ¬ FitsPage argv) ∨ (r = 0 ∧ FitsPage argv ∧ Started p d (base + PGSIZE) argv t'))

/-- **Arguments that stay in the page**: they fit and the program is started, or -1 is returned. -/
theorem execArgs_stays {v : Nat} (h : NewImage K p d (PGSIZE * v + PGSIZE) t.2)
    (hst : StaysInPage (PGSIZE * v) (PGSIZE * v + PGSIZE) 0 argv) (hlen : argv.length ≤ MAXARG) (hshort : ShortArgs argv) :
    wp (execArgs (uvm K p) p path entry d (PGSIZE * v + PGSIZE) argv) (InPage p d (PGSIZE * v) argv t)
      (fun _ _ => False) t := by
  have hbad : ∀ t' : Kern × Mem, NewImage K p d (PGSIZE * v + PGSIZE) t'.2 →
      (∀ a ∈ t'.2.stored, a ∈ t.2.stored ∨ (PGSIZE * v ≤ a ∧ a < PGSIZE * v + PGSIZE)) → ¬ FitsPage argv →
      wp (execBad (uvm K p) (some d) none) (InPage p d (PGSIZE * v) argv t) (fun _ _ => False) t' := by
    intro t' h' hlog hfit
    refine wp_post (execBad_spec h'.image) ?_
    rintro r t'' ⟨rfl, -, -, hlog', -⟩
    refine ⟨?_, .inl ⟨rfl, hfit⟩⟩
    rw [hlog']
    exact hlog
  obtain ⟨u, hpage⟩ : ∃ u, OnPage (PGSIZE * v) (pteAddr (userPte d t.2.phys v)) t.2.phys u := ⟨_, onPage_self _ _ _⟩
  rw [execArgs, wp_bind]
  refine wp_mono (pushArgs_stays (u := u) argv h.image hst (by simp only [PGSIZE]; omega) (Nat.le_refl _)
    (by rw [List.length_nil]; omega) hshort) ?_ fun _ _ hf => hf.elim
  rintro r' t2 ⟨hk, u', hc, hout⟩
  have h2 := h.stored hc.stored
  rcases hout with ⟨rfl, hlt⟩ | ⟨rfl, hu, hle, hst2⟩
  · refine hbad t2 h2 hc.log fun hfit => ?_
    rw [FitsPage] at hfit
    omega
  · dsimp only
    rw [List.nil_append, wp_bind, wp_uvm_copyout]
    rw [List.length_nil, Nat.zero_add, ← argPtrs_length (PGSIZE * v + PGSIZE)] at hst2
    have hplen := argPtrs_length (PGSIZE * v + PGSIZE) argv
    refine wp_mono (frame_stays (u := u') h2.image hst2 (by omega) (by omega)) ?_ fun _ _ hf => hf.elim
    rintro r s3 ⟨u3, hc3, hout⟩
    have hv : v < 1024 := by
      have := h.image.top
      simp only [PGSIZE, USERTOP] at this
      omega
    rw [hc.stored.userPte h.image hv] at hc3
    have hc' := hc.trans h.image hc3
    have h3 := h.stored hc'.stored
    rcases hout with ⟨rfl, hlt⟩ | ⟨rfl, hfit, hu3⟩
    · rw [if_pos (by decide)]
      refine hbad (t2.1, s3) h3 hc'.log fun hfit => ?_
      rw [FitsPage] at hfit
      omega
    · rw [if_neg (by decide)]
      have hfits : FitsPage argv := by
        rw [FitsPage]
        omega
      refine wp_post (execCommit_spec (t := (t2.1, s3)) h3) ?_
      rintro r t4 ⟨rfl, hk4, hp4, hlog4, hram4⟩
      refine ⟨by rw [hlog4]; exact hc'.log, .inr ⟨rfl, hfits, ?_, ?_, ?_, u, fun va h1 h2 => ?_⟩⟩
      · rw [hk4, setProc_self]
        rfl
      · rw [hk4, setProc_self]
        show usub _ _ = _
        have := h.image.top
        rw [hplen, usub_of_le (by omega) (by simp only [USERTOP] at this; omega), argEsp]
        omega
      · rw [hp4]
        exact Function.update_self ..
      · have hargs : argStack u (PGSIZE * v + PGSIZE) argv = u3 := by
          rw [hu3, hu, hplen]
          rfl
        rw [hargs]
        have hpte : userPte d s3.phys v = userPte d t.2.phys v := hc'.stored.userPte h.image hv
        have hpage3 := hc'.page hpage
        rw [← hpte] at hpage3
        exact h3.byteAt hram4 hpage3 (by omega) h2

/-- **Arguments that do not stay in the page** are stored below it. -/
theorem execArgs_misses {v : Nat} (h : NewImage K p d (PGSIZE * v + PGSIZE) t.2)
    (hst : ¬ StaysInPage (PGSIZE * v) (PGSIZE * v + PGSIZE) 0 argv) (hlen : argv.length ≤ MAXARG) (hshort : ShortArgs argv) :
    wp (execArgs (uvm K p) p path entry d (PGSIZE * v + PGSIZE) argv) (fun _ t' => ∃ a ∈ t'.2.stored, a < PGSIZE * v)
      (fun _ _ => False) t := by
  have hbad : ∀ t' : Kern × Mem, NewImage K p d (PGSIZE * v + PGSIZE) t'.2 → (∃ a ∈ t'.2.stored, a < PGSIZE * v) →
      wp (execBad (uvm K p) (some d) none) (fun _ t'' => ∃ a ∈ t''.2.stored, a < PGSIZE * v) (fun _ _ => False) t' := by
    intro t' h' hlog
    refine wp_post (execBad_spec h'.image) ?_
    rintro r t'' ⟨-, -, -, hlog', -⟩
    rw [hlog']
    exact hlog
  have htop := h.image.top
  rw [execArgs, wp_bind]
  refine wp_mono (pushArgs_misses argv h.image hst (by simp only [PGSIZE]; omega) (Nat.le_refl _)
    (by rw [List.length_nil]; omega) hshort) ?_ fun _ _ hf => hf.elim
  rintro r t2 ⟨hk, hs, hout, hmiss⟩
  have h2 := h.stored hs
  cases r with
  | none =>
    refine hbad t2 h2 (hmiss.resolve_right ?_)
    rintro ⟨sp, us, he, -⟩
    exact nomatch he
  | some r =>
    obtain ⟨sp, us⟩ := r
    obtain ⟨hsp, hus⟩ := hout sp us rfl
    rw [List.length_nil, Nat.zero_add] at hus
    have hn : (3 + us.length + 1) * 4 = 4 * (4 + us.length) := by omega
    have hlenb := ustackBytes_length sp us
    have hne : ustackBytes sp us ≠ [] := List.ne_nil_of_length_pos (by omega)
    dsimp only
    rw [wp_bind, wp_uvm_copyout, hn]
    by_cases hwrap : sp < 4 * (4 + us.length)
    · -- the frame wraps around; a string was below the page
      obtain ⟨h3, h4⟩ := frame_wraps hwrap (by simp only [PGSIZE, MAXARG] at *; omega)
      rw [h2.image.wp_copyout_top h4 h3 hne, if_pos (by decide)]
      refine hbad t2 h2 (hmiss.resolve_right ?_)
      rintro ⟨sp', us', he, hno⟩
      obtain ⟨rfl, rfl⟩ := Prod.mk.inj (Option.some.inj he)
      exact hno (.inl hwrap)
    · rw [usub_of_le (by omega) (by simp only [USERTOP] at htop; omega)]
      refine wp_post (copyoutFrom_user _ h2.image (Nat.le_refl _) (by rw [pages_stack]; omega)) ?_
      rintro r s3 ⟨rfl, hs3, hmem⟩
      rw [if_neg (by decide)]
      refine wp_post (execCommit_spec (t := (t2.1, s3)) (h2.stored hs3)) ?_
      rintro r t4 ⟨-, -, -, hlog, -⟩
      rw [hlog]
      rcases hmiss with ⟨a, ha, hlt⟩ | ⟨sp', us', he, hno⟩
      · exact ⟨a, hs3.log a ha, hlt⟩
      · obtain ⟨rfl, rfl⟩ := Prod.mk.inj (Option.some.inj he)
        exact ⟨_, hmem hne, by have := not_or.mp hno; omega⟩

/-! ## `execStack` -/

/-- The whole of it: no page for the stack, or the arguments are pushed. -/
theorem wp_execStack (h : NewImage K p d sz t.2) (htop : top = PGSIZE * pages sz + PGSIZE) {Q : Int → Kern × Mem → Prop}
    (hno : NoStack sz t.2.phys → ∀ t', t'.2.stored = t.2.stored → Q (-1) t')
    (hargs : ¬ NoStack sz t.2.phys → ∀ m, NewImage K p d top { t.2 with phys := m } →
      wp (execArgs (uvm K p) p path entry d top argv) Q (fun _ _ => False) (t.1, { t.2 with phys := m })) :
    wp (execStack (uvm K p) p path entry d sz argv) Q (fun _ _ => False) t := by
  have hup := pgRoundUp_pages h.image.top
  have hroom := h.image.roundUp.top
  have hmod : (pgRoundUp sz + PGSIZE) % 4294967296 = top := by
    rw [hup, ← htop]
    exact Nat.mod_eq_of_lt (by simp only [USERTOP, PGSIZE] at *; omega)
  rw [execStack, wp_bind, wp_uvm_allocuvm, hmod]
  refine wp_mono (h.stack_alloc htop) ?_ fun _ _ hf => hf.elim
  intro r m1 hr
  by_cases hn : NoStack sz t.2.phys
  · rw [if_pos hn] at hr
    rw [if_pos hr.1]
    refine wp_post (execBad_spec hr.2.image) ?_
    rintro r' t' ⟨rfl, -, -, hlog, -⟩
    exact hno hn t' hlog
  · rw [if_neg hn] at hr
    rw [hr.1, if_neg (by rw [htop]; exact Nat.succ_ne_zero _)]
    exact hargs hn m1 hr.2

/-! ## What `exec` promises of its arguments -/

/-- Arguments that fit stay in the page. -/
theorem staysInPage_of_fits (argv : List (List UInt8)) {base sp argc : Nat}
    (h : base + argsSize argv + 4 * (4 + argc + argv.length) ≤ sp) : StaysInPage base sp argc argv := by
  induction argv generalizing sp argc with
  | nil =>
    rw [List.length_nil] at h
    exact .inr (by omega)
  | cons a argv ih =>
    rw [argsSize_cons, List.length_cons] at h
    exact .inr ⟨by omega, ih (by omega)⟩

theorem FitsPage.short (h : FitsPage argv) : ShortArgs argv := by
  intro a ha
  have hle : argSize a ≤ argsSize argv := argSize_le_sum ha
  have := argSize_ge a
  simp only [FitsPage, PGSIZE, USERTOP] at *
  omega

-- The programs below are only used through their specifications: unfolding `wp` would run them.
attribute [local irreducible] wp

/-- **Arguments that stay in the page** are refused or decode back. -/
theorem execStack_stays (path : List UInt8) (entry : Nat) (h : NewImage K p d sz t.2) (htop : top = PGSIZE * pages sz + PGSIZE)
    (hst : NoStack sz t.2.phys ∨ StaysInPage (PGSIZE * pages sz) top 0 argv) (hlen : argv.length ≤ MAXARG)
    (hshort : ShortArgs argv) :
    wp (execStack (uvm K p) p path entry d sz argv)
      (fun r t' => (∀ a ∈ t'.2.stored, a ∈ t.2.stored ∨ (PGSIZE * pages sz ≤ a ∧ a < top)) ∧
        ((r = -1 ∧ (NoStack sz t.2.phys ∨ ¬ FitsPage argv)) ∨ (r = 0 ∧ FitsPage argv ∧ Started p d top argv t')))
      (fun _ _ => False) t := by
  refine wp_execStack h htop (fun hno t' hlog => ⟨?_, .inl ⟨rfl, .inl hno⟩⟩) fun hno m hl => ?_
  · rw [hlog]
    exact fun a ha => .inl ha
  · have hst' := hst.resolve_left hno
    subst htop
    refine wp_post (execArgs_stays (v := pages sz) (t := (t.1, { t.2 with phys := m })) hl hst' hlen hshort) ?_
    exact fun r t' hr => ⟨hr.1, hr.2.imp (fun hb => ⟨hb.1, .inr hb.2⟩) id⟩

/-- Arguments that do not. -/
theorem execStack_misses (path : List UInt8) (entry : Nat) (h : NewImage K p d sz t.2) (htop : top = PGSIZE * pages sz + PGSIZE) (hno : ¬ NoStack sz t.2.phys)
    (hst : ¬ StaysInPage (PGSIZE * pages sz) top 0 argv) (hlen : argv.length ≤ MAXARG) (hshort : ShortArgs argv) :
    wp (execStack (uvm K p) p path entry d sz argv) (fun _ t' => ∃ a ∈ t'.2.stored, a < PGSIZE * pages sz)
      (fun _ _ => False) t := by
  refine wp_execStack h htop (fun hn => absurd hn hno) fun _ m hl => ?_
  subst htop
  exact execArgs_misses (v := pages sz) (t := (t.1, { t.2 with phys := m })) hl hst hlen hshort

/-! ## A program to run -/

/-- The directory of a new program: the first page that is free after the caller's `setupkvm`. -/
def loadDir : Nat := kernelOnly.freelist.headD 0

/-- **A program of one page**, next to a caller's empty address space. -/
def loaded : Mem where
  phys := memAfter (allocuvm oneMegabyte loadDir 0 PGSIZE) (memAfter (setupkvm oneMegabyte) kernelOnly)
  pgdir := fun _ => 0x300000
  stored := []

/-- There is memory for both, and for a stack. -/
theorem loaded_newImage (p : Pid) : NewImage oneMegabyte p loadDir PGSIZE loaded ∧ ¬ NoStack PGSIZE loaded.phys := by
  obtain ⟨-, hb1⟩ := kernelOnly_built
  have hlen1 := hb1.length_le manyPages_free
  rw [manyPages_length] at hlen1
  have hf1 := hb1.freePages
  obtain ⟨d, m2, hrun2, hd, hb2⟩ := setupkvm_succeeds hf1 (by decide) (by omega)
  have hlen2 := hb2.length_le hf1
  obtain rfl : loadDir = d := by
    rw [loadDir, List.headD_eq_head?_getD, hd]
    rfl
  have h2 : NewImage oneMegabyte p loadDir 0 { loaded with phys := m2 } :=
    Built.loaded (s := { loaded with phys := kernelOnly }) hb2 hb1.image
  have hone : pages PGSIZE - pages 0 = 1 := by decide
  obtain ⟨m3, hrun3, he, hi⟩ := h2.image.alloc_succeeds PGSIZE (by decide) (by decide) (by dsimp only; omega)
  have hphys : loaded = { loaded with phys := m3 } := by
    unfold loaded
    rw [memAfter_eq hrun2, memAfter_eq hrun3]
  rw [hphys]
  refine ⟨h2.evolves he hi, ?_⟩
  -- the pages the second `setupkvm` found are still accounted for
  have hlen3 := own_length (d := loadDir) (m := m3) hf1.nodup fun q hq =>
    (he.own h2.image.space q).mpr (own_iff.mpr (((hb2.pages q).mpr hq).imp_right .inl))
  rintro (hno | hno)
  · exact List.ne_nil_of_length_pos (by omega : 0 < m3.freelist.length) hno
  · exact absurd hno (by decide)

/-- A kernel to run on: only the process is written to. -/
def blankKern : Kern := Kern.zero (fun _ _ _ => 0) (fun _ => 0) fun _ => none

/-- `echo hi`. -/
def echoArgs : List (List UInt8) := [[101, 99, 104, 111], [104, 105]]

/-- A successful `exec` of `echo hi`. -/
theorem exists_echo (p : Pid) : ∃ k' s',
    exec (execStack (uvm oneMegabyte p) p echoArgs.head! 0 loadDir PGSIZE echoArgs) (blankKern, loaded) =
      (.ok 0, (k', s')) := by
  obtain ⟨h, hno⟩ := loaded_newImage p
  have hst : StaysInPage (PGSIZE * pages PGSIZE) (PGSIZE * pages PGSIZE + PGSIZE) 0 echoArgs := by decide
  obtain ⟨r, ⟨k', s'⟩, hrun, -, ⟨-, hbad⟩ | ⟨rfl, -⟩⟩ := wp_total (execStack_stays echoArgs.head! 0 (t := (blankKern, loaded)) h
    rfl (.inr hst) (by decide) (by decide))
  · exact absurd hbad (not_or.mpr ⟨hno, not_not.mpr (by decide)⟩)
  · exact ⟨k', s', hrun⟩

/-! ## The argument block -/

/-- **The argument block decodes back to the arguments.** -/
theorem execStack_args {k k' : Kern} (h : NewImage K p d sz s) (hlen : argv.length ≤ 31) (hfit : FitsPage argv)
    (hrun : exec (execStack (uvm K p) p path entry d sz argv) (k, s) = (.ok 0, (k', s'))) :
    s'.pgdir p = d ∧ ∃ u arr ptr,
      (∀ va, (k'.procs p).sz ≤ va + PGSIZE → va < (k'.procs p).sz → byteAt s'.phys.ram d va = some (u va)) ∧
      ArgBlock u (k'.procs p).esp (k'.procs p).sz argv arr ptr := by
  have hroom := h.image.roundUp.top
  obtain ⟨top, htop⟩ : ∃ top, top = PGSIZE * pages sz + PGSIZE := ⟨_, rfl⟩
  have hst : StaysInPage (PGSIZE * pages sz) top 0 argv := staysInPage_of_fits argv (by
    rw [FitsPage] at hfit
    omega)
  have hspec := wp_ok (execStack_stays path entry (t := (k, s)) h htop (.inr hst) (by simp only [MAXARG]; omega) hfit.short) hrun
  have hs : Started p d top argv (k', s') := by
    rcases hspec.2 with ⟨hc, -⟩ | ⟨-, -, hs⟩
    · exact absurd hc (by decide)
    · exact hs
  obtain ⟨u, hu⟩ := hs.stack
  refine ⟨hs.pgdir, argStack u top argv, argEsp top argv + 12, fun i => (argPtrs top argv).getD i 0, ?_, ?_⟩
  · rw [hs.sz]
    exact hu
  · rw [hs.sz, hs.esp]
    exact argBlock (by rw [htop]; simp only [PGSIZE]; omega) (by simp only [PGSIZE, USERTOP] at *; omega) hfit
      (by rw [htop]; exact Nat.le_add_left _ _)

theorem execStack_args_echo : ∃ (k' : Kern) (s' : Mem),
    exec (execStack (uvm oneMegabyte 0) 0 echoArgs.head! 0 loadDir PGSIZE echoArgs) (blankKern, loaded) =
      (.ok 0, (k', s')) ∧ s'.pgdir 0 = loadDir ∧ ∃ u arr ptr,
    (∀ va, (k'.procs 0).sz ≤ va + PGSIZE → va < (k'.procs 0).sz → byteAt s'.phys.ram loadDir va = some (u va)) ∧
    ArgBlock u (k'.procs 0).esp (k'.procs 0).sz echoArgs arr ptr := by
  obtain ⟨k', s', hrun⟩ := exists_echo 0
  exact ⟨k', s', hrun, execStack_args (loaded_newImage 0).1 (by decide) (by decide) hrun⟩

/-! ## Arguments stay in the stack page -/

/-- **Oversized arguments are refused**: whatever the run returns, the bytes it stored are in the stack page, and it
    returned -1 if the arguments do not fit there. -/
def ArgsInPage (K : Symbols) (p : Pid) (path : List UInt8) (entry d sz : Nat) (argv : List (List UInt8)) (k : Kern)
    (s : Mem) : Prop :=
  ∀ r k' s', exec (execStack (uvm K p) p path entry d sz argv) (k, { s with stored := [] }) = (.ok r, (k', s')) →
    (∀ a ∈ s'.stored, pgRoundUp sz ≤ a ∧ a < pgRoundUp sz + PGSIZE) ∧ (¬ FitsPage argv → r = -1)

/-- The log of stores is not looked at. -/
theorem NewImage.unlogged (h : NewImage K p d sz s) : NewImage K p d sz { s with stored := [] } := ⟨h.image, h.old, h.apart⟩

/-- Arguments of which a piece is pushed below the page. -/
theorem not_argsInPage {k : Kern} (h : NewImage K p d sz s) (hno : ¬ NoStack sz s.phys)
    (hst : ¬ StaysInPage (pgRoundUp sz) (pgRoundUp sz + PGSIZE) 0 argv) (hlen : argv.length < MAXARG)
    (hshort : ShortArgs argv) : ¬ ArgsInPage K p path entry d sz argv k s := by
  have hup := pgRoundUp_pages h.image.top
  rw [hup] at hst
  intro hin
  obtain ⟨r, ⟨k', s'⟩, hrun, a, ha, hlt⟩ := wp_total (execStack_misses path entry
    (t := (k, { s with stored := [] })) h.unlogged rfl hno hst (Nat.le_of_lt hlen) hshort)
  have hge := ((hin r k' s' hrun).1 a ha).1
  rw [hup] at hge
  omega

/-- **`exec` keeps its arguments to the stack page** where there is no stack page at all, or no piece of the
    argument block starts below that page and at or above address 0. -/
theorem execStack_inPage_iff {k : Kern} (h : NewImage K p d sz s) (hlen : argv.length < MAXARG) (hshort : ShortArgs argv) :
    ArgsInPage K p path entry d sz argv k s ↔
      NoStack sz s.phys ∨ StaysInPage (pgRoundUp sz) (pgRoundUp sz + PGSIZE) 0 argv := by
  have hup := pgRoundUp_pages h.image.top
  refine ⟨fun hin => ?_, fun hst r k' s' hrun => ?_⟩
  · by_contra hnot
    obtain ⟨hno, hst⟩ := not_or.mp hnot
    exact not_argsInPage h hno hst hlen hshort hin
  · rw [hup] at hst ⊢
    obtain ⟨hin, hr⟩ := wp_ok (execStack_stays path entry (t := (k, { s with stored := [] })) h.unlogged rfl hst
      (Nat.le_of_lt hlen) hshort) hrun
    refine ⟨fun a ha => (hin a ha).resolve_left List.not_mem_nil, fun hfit => ?_⟩
    rcases hr with ⟨rfl, -⟩ | ⟨-, hf, -⟩
    · rfl
    · exact absurd hf hfit

/-- `echo hi` keeps to it. -/
theorem execStack_inPage_echo : ArgsInPage oneMegabyte 0 echoArgs.head! 0 loadDir PGSIZE echoArgs blankKern loaded ∧
    ¬ NoStack PGSIZE loaded.phys := by
  obtain ⟨h, hno⟩ := loaded_newImage 0
  have hst : StaysInPage (pgRoundUp PGSIZE) (pgRoundUp PGSIZE + PGSIZE) 0 echoArgs := by decide
  exact ⟨(execStack_inPage_iff h (by decide) (by decide)).mpr (.inr hst), hno⟩

/-- One argument of five thousand bytes. -/
def longArg : List (List UInt8) := [List.replicate 5000 97]

/-- For a program whose one page is below the stack page, it is copied over that page. -/
theorem execStack_longArg : NewImage oneMegabyte 0 loadDir PGSIZE loaded ∧ longArg.length < MAXARG ∧ ShortArgs longArg ∧
    ¬ ArgsInPage oneMegabyte 0 [97] 0 loadDir PGSIZE longArg blankKern loaded := by
  obtain ⟨h, hno⟩ := loaded_newImage 0
  have hshort : ShortArgs longArg := by
    intro a ha
    rw [List.mem_singleton.mp ha, List.length_replicate]
    decide
  refine ⟨h, by decide, hshort, not_argsInPage h hno ?_ (by decide) hshort⟩
  have hsize : argSize (List.replicate 5000 97) = 5004 := by rw [argSize, List.length_replicate]
  rw [longArg, StaysInPage, hsize]
  decide

end Xv6
