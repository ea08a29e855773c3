import Mathlib.Computability.Language

/-!
# `User.Grep` — the regular expressions of `grep` (`user/grep.c`)

The matcher after Kernighan and Pike, over NUL-terminated strings as lists of bytes: `matchhere` and `matchstar` call
each other, going on in the pattern or in the text. A pattern is read as a list of items, each with its language, and
the matcher finds a text exactly when one of its parts is in their product (`grepMatch_iff`).
-/

namespace Xv6

open Computability

/-! ## The matcher -/

mutual

/-- Search for `re` at the beginning of `text`. -/
def matchhere (re text : List UInt8) : Bool :=
  match re with
  | [] => true
  | c :: re =>
    -- `re[1] == '*'`
    match re with
    | 42 :: re => matchstar c re text
    | re =>
      if c = 36 ∧ re = [] then text.isEmpty
      else
        match text with
        | [] => false
        | t :: text => if c = 46 ∨ c = t then matchhere re text else false
termination_by (re.length, text.length, 0)

/-- Search for `c*re` at the beginning of `text`. -/
def matchstar (c : UInt8) (re text : List UInt8) : Bool :=
  if matchhere re text then true
  else
    match text with
    | [] => false
    | t :: text => if t = c ∨ c = 46 then matchstar c re text else false
termination_by (re.length, text.length, 1)

end

/-- The loop of `match`: `matchhere` at every suffix of the text, the empty one included. -/
def matchAny (re : List UInt8) : List UInt8 → Bool
  | [] => matchhere re []
  | t :: text => if matchhere re (t :: text) then true else matchAny re text

/-- `match` -/
def grepMatch (re text : List UInt8) : Bool :=
  match re with
  | 94 :: re => matchhere re text
  | re => matchAny re text

/-! ## Patterns -/

/-- An item of a pattern; the character `.` stands for any. -/
inductive Item where
  | star (c : UInt8)
  | one (c : UInt8)
deriving Repr, DecidableEq

/-- A pattern: does it start with `^`, its items, does it end with `$`. -/
structure Pattern where
  anchored : Bool
  items : List Item
  toEnd : Bool
deriving Repr, DecidableEq

/-- The items from left to right, and whether a `$` follows. -/
def parseItems : List UInt8 → List Item × Bool
  | [] => ([], false)
  | c :: 42 :: re => (.star c :: (parseItems re).1, (parseItems re).2)
  | [36] => ([], true)
  | c :: re => (.one c :: (parseItems re).1, (parseItems re).2)

def Pattern.parse : List UInt8 → Pattern
  | 94 :: re => ⟨true, (parseItems re).1, (parseItems re).2⟩
  | re => ⟨false, (parseItems re).1, (parseItems re).2⟩

/-- The one-letter words that character `c` of a pattern stands for. -/
def byteLang (c : UInt8) : Language UInt8 := fun w => ∃ x, w = [x] ∧ (c = 46 ∨ c = x)

def Item.lang : Item → Language UInt8
  | .star c => (byteLang c)∗
  | .one c => byteLang c

/-- The language of a list of items. -/
def itemsLang (items : List Item) : Language UInt8 := (items.map Item.lang).prod

/-- **Some part of the text is in the language of the items**: a prefix of it if the pattern is anchored, and a suffix
    if it ends with `$`. -/
def Pattern.Found (P : Pattern) (text : List UInt8) : Prop :=
  ∃ pre w post, text = pre ++ w ++ post ∧ (P.anchored → pre = []) ∧ w ∈ itemsLang P.items ∧ (P.toEnd → post = [])

/-! ## Correctness -/

variable {c t : UInt8} {re text w : List UInt8}

theorem mem_itemsLang_nil : w ∈ itemsLang [] ↔ w = [] := by
  rw [itemsLang, List.map_nil, List.prod_nil, Language.mem_one]

theorem mem_itemsLang_cons {i : Item} {items : List Item} :
    w ∈ itemsLang (i :: items) ↔ ∃ u ∈ i.lang, ∃ v ∈ itemsLang items, u ++ v = w := by
  rw [itemsLang, List.map_cons, List.prod_cons]
  exact Language.mem_mul

/-- Words of `c*`: every letter is one that `c` stands for. -/
theorem mem_star : w ∈ (Item.star c).lang ↔ ∀ x ∈ w, c = 46 ∨ c = x := by
  rw [Item.lang, Language.mem_kstar]
  constructor
  · rintro ⟨L, rfl, hL⟩ x hx
    obtain ⟨y, hy, hxy⟩ := List.mem_flatten.mp hx
    obtain ⟨z, rfl, hz⟩ := hL y hy
    rwa [List.mem_singleton.mp hxy]
  · intro h
    refine ⟨w.map fun x => [x], ?_, fun y hy => ?_⟩
    · rw [← List.flatMap_def, List.flatMap_singleton']
    · obtain ⟨x, hx, rfl⟩ := List.mem_map.mp hy
      exact ⟨x, rfl, h x hx⟩

/-- `matchstar` skips some letters that `c` stands for. -/
theorem matchstar_iff : matchstar c re text = true ↔
    ∃ u v, text = u ++ v ∧ (∀ x ∈ u, c = 46 ∨ c = x) ∧ matchhere re v = true := by
  induction text with
  | nil =>
    rw [matchstar]
    constructor
    · intro h
      by_cases hm : matchhere re [] = true
      · exact ⟨[], [], rfl, fun x hx => absurd hx List.not_mem_nil, hm⟩
      · rw [if_neg hm] at h
        exact absurd h Bool.false_ne_true
    · rintro ⟨u, v, huv, -, hm⟩
      obtain ⟨rfl, rfl⟩ := List.append_eq_nil_iff.mp huv.symm
      rw [if_pos hm]
  | cons t text ih =>
    rw [matchstar]
    by_cases hm : matchhere re (t :: text) = true
    · rw [if_pos hm]
      exact iff_of_true rfl ⟨[], t :: text, rfl, fun x hx => absurd hx List.not_mem_nil, hm⟩
    rw [if_neg hm]
    by_cases hc : t = c ∨ c = 46
    · rw [if_pos hc, ih]
      have hc' : c = 46 ∨ c = t := hc.symm.imp_right Eq.symm
      constructor
      · rintro ⟨u, v, rfl, hu, hv⟩
        refine ⟨t :: u, v, rfl, fun x hx => ?_, hv⟩
        rcases List.mem_cons.mp hx with rfl | hx
        · exact hc'
        · exact hu x hx
      · rintro ⟨u, v, huv, hu, hv⟩
        cases u with
        | nil => exact absurd (huv ▸ hv) hm
        | cons x u =>
          obtain ⟨rfl, rfl⟩ := List.cons.inj huv
          exact ⟨u, v, rfl, fun y hy => hu y (List.mem_cons_of_mem _ hy), hv⟩
    · rw [if_neg hc]
      refine iff_of_false Bool.false_ne_true ?_
      rintro ⟨u, v, huv, hu, hv⟩
      cases u with
      | nil => exact hm (huv ▸ hv)
      | cons x u =>
        obtain ⟨rfl, rfl⟩ := List.cons.inj huv
        exact hc ((hu t List.mem_cons_self).symm.imp_left Eq.symm)

/-- A pattern without `^` found at the beginning of the text. -/
def FoundHere (re text : List UInt8) : Prop :=
  ∃ w post, text = w ++ post ∧ w ∈ itemsLang (parseItems re).1 ∧ ((parseItems re).2 → post = [])

/-- A character that is not repeated and is not the final `$`. -/
theorem matchhere_one (h1 : ∀ re', re = 42 :: re' → False) (h2 : c = 36 → re = [] → False) :
    matchhere (c :: re) text = match text with
      | [] => false
      | t :: text => if c = 46 ∨ c = t then matchhere re text else false := by
  rw [matchhere.eq_def]
  dsimp only
  split
  · next re' => exact absurd rfl (h1 re')
  · rw [if_neg fun hc => h2 hc.1 hc.2]

/-- **`matchhere`** finds the items at the beginning of the text. -/
theorem matchhere_iff : ∀ re text : List UInt8, matchhere re text = true ↔ FoundHere re text := by
  intro re
  induction re using parseItems.induct with
  | case1 =>
    intro text
    rw [matchhere, FoundHere, parseItems]
    exact iff_of_true rfl ⟨[], text, rfl, mem_itemsLang_nil.mpr rfl, fun h => absurd h Bool.false_ne_true⟩
  | case2 c re ih =>
    intro text
    rw [matchhere, matchstar_iff, FoundHere, parseItems]
    constructor
    · rintro ⟨u, v, rfl, hu, hv⟩
      obtain ⟨w, post, rfl, hw, hend⟩ := (ih v).mp hv
      refine ⟨u ++ w, post, (List.append_assoc ..).symm, ?_, hend⟩
      exact mem_itemsLang_cons.mpr ⟨u, mem_star.mpr hu, w, hw, rfl⟩
    · rintro ⟨w, post, rfl, hw, hend⟩
      obtain ⟨u, hu, v, hv, rfl⟩ := mem_itemsLang_cons.mp hw
      exact ⟨u, v ++ post, List.append_assoc .., mem_star.mp hu, (ih _).mpr ⟨v, post, rfl, hv, hend⟩⟩
  | case3 =>
    intro text
    have hhere : matchhere [36] text = text.isEmpty := by rw [matchhere.eq_def]; rfl
    rw [hhere, FoundHere, parseItems, List.isEmpty_iff]
    constructor
    · rintro rfl
      exact ⟨[], [], rfl, mem_itemsLang_nil.mpr rfl, fun _ => rfl⟩
    · rintro ⟨w, post, rfl, hw, hend⟩
      rw [mem_itemsLang_nil.mp hw, hend rfl]
      rfl
  | case4 c re h1 h2 ih =>
    intro text
    rw [matchhere_one h1 h2, FoundHere, parseItems.eq_4 c re h1 h2]
    cases text with
    | nil =>
      refine iff_of_false Bool.false_ne_true ?_
      rintro ⟨w, post, hw0, hw, -⟩
      obtain ⟨u, ⟨x, rfl, -⟩, v, -, rfl⟩ := mem_itemsLang_cons.mp hw
      exact absurd hw0 (List.cons_ne_nil x _).symm
    | cons t text =>
      dsimp only
      by_cases hc : c = 46 ∨ c = t
      · rw [if_pos hc, ih]
        constructor
        · rintro ⟨w, post, rfl, hw, hend⟩
          exact ⟨t :: w, post, rfl, mem_itemsLang_cons.mpr ⟨[t], ⟨t, rfl, hc⟩, w, hw, rfl⟩, hend⟩
        · rintro ⟨w, post, htext, hw, hend⟩
          obtain ⟨u, ⟨x, rfl, -⟩, v, hv, rfl⟩ := mem_itemsLang_cons.mp hw
          exact ⟨v, post, (List.cons.inj htext).2, hv, hend⟩
      · rw [if_neg hc]
        refine iff_of_false Bool.false_ne_true ?_
        rintro ⟨w, post, htext, hw, -⟩
        obtain ⟨u, ⟨x, rfl, hx⟩, v, -, rfl⟩ := mem_itemsLang_cons.mp hw
        rw [(List.cons.inj htext).1] at hc
        exact hc hx

/-- The loop tries every suffix. -/
theorem matchAny_iff : matchAny re text = true ↔ ∃ pre suf, text = pre ++ suf ∧ matchhere re suf = true := by
  induction text with
  | nil =>
    rw [matchAny]
    refine ⟨fun h => ⟨[], [], rfl, h⟩, ?_⟩
    rintro ⟨pre, suf, hps, h⟩
    obtain ⟨-, rfl⟩ := List.append_eq_nil_iff.mp hps.symm
    exact h
  | cons t text ih =>
    rw [matchAny]
    by_cases hm : matchhere re (t :: text) = true
    · rw [if_pos hm]
      exact iff_of_true rfl ⟨[], t :: text, rfl, hm⟩
    rw [if_neg hm, ih]
    constructor
    · rintro ⟨pre, suf, rfl, h⟩
      exact ⟨t :: pre, suf, rfl, h⟩
    · rintro ⟨pre, suf, hps, h⟩
      cases pre with
      | nil => exact absurd (hps ▸ h) hm
      | cons x pre => exact ⟨pre, suf, (List.cons.inj hps).2, h⟩

/-- **The matcher is correct**: `match` returns 1 exactly when the pattern is found in the text. -/
theorem grepMatch_iff (re text : List UInt8) : grepMatch re text = true ↔ (Pattern.parse re).Found text := by
  rw [grepMatch.eq_def, Pattern.parse.eq_def]
  split
  · next re =>
    rw [matchhere_iff]
    constructor
    · rintro ⟨w, post, rfl, hw, hend⟩
      exact ⟨[], w, post, rfl, fun _ => rfl, hw, hend⟩
    · rintro ⟨pre, w, post, rfl, hpre, hw, hend⟩
      rw [hpre rfl]
      exact ⟨w, post, rfl, hw, hend⟩
  · rw [matchAny_iff]
    constructor
    · rintro ⟨pre, suf, rfl, h⟩
      obtain ⟨w, post, rfl, hw, hend⟩ := (matchhere_iff _ _).mp h
      exact ⟨pre, w, post, (List.append_assoc ..).symm, fun hc => absurd hc Bool.false_ne_true, hw, hend⟩
    · rintro ⟨pre, w, post, rfl, -, hw, hend⟩
      exact ⟨pre, w ++ post, List.append_assoc .., (matchhere_iff _ _).mpr ⟨w, post, rfl, hw, hend⟩⟩

end Xv6
