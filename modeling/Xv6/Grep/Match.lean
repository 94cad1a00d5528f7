import Mathlib.Computability.Language
import Xv6.Param

/-!
# The matcher of `grep`

`match`, `matchhere` and `matchstar` of `user/grep.c`, and the language of the patterns they are
for. A pattern is an optional `^`, a sequence of items, and an optional `$`; an item is a character
that is to be there once, or any number of times if a `*` follows it, and `.` stands for every
character (`Pattern`). The meaning of a pattern is given by the languages of its items.
-/

namespace Xv6.Grep

open List

@[match_pattern] abbrev star : Byte := 0x2a#8

abbrev caret : Byte := 0x5e#8

abbrev dot : Byte := 0x2e#8

abbrev dollar : Byte := 0x24#8

/-! ### The matcher -/

/-- `matchstar(c, re, text)`, where `here` is `matchhere` at `re`. -/
def matchstar (here : Text → Bool) (c : Byte) : Text → Bool
  | [] => here []
  | t :: text => here (t :: text) || ((t = c ∨ c = dot) && matchstar here c text)

/-- `matchhere(re, text)`. -/
def matchhere : Text → Text → Bool
  | [], _ => true
  | c :: star :: re, text => matchstar (matchhere re) c text
  | c :: re, text =>
    if c = dollar ∧ re = [] then text = []
    else
      match text with
      | [] => false
      | t :: text => (c = dot ∨ c = t) && matchhere re text

/-- The loop of `match`. -/
def matchFrom (re : Text) : Text → Bool
  | [] => matchhere re []
  | t :: text => matchhere re (t :: text) || matchFrom re text

/-- `match(re, text)`. -/
def matchText : Text → Text → Bool
  | [], text => matchFrom [] text
  | c :: re, text => if c = caret then matchhere re text else matchFrom (c :: re) text

/-! ### Patterns -/

/-- A character of a pattern. -/
inductive Item
  | one (c : Byte)
  | many (c : Byte)
  deriving DecidableEq, Repr

/-- The strings of one character that a character of the pattern stands for. -/
def charLang (c : Byte) : Language Byte := {w | ∃ t, (c = dot ∨ c = t) ∧ w = [t]}

/-- The strings that an item stands for. -/
def Item.lang : Item → Language Byte
  | .one c => charLang c
  | .many c => KStar.kstar (charLang c)

/-- A sequence of items, from left to right. -/
def items : Text → List Item
  | [] => []
  | c :: star :: re => .many c :: items re
  | c :: re => .one c :: items re

/-- A `$` that ends the pattern. -/
def endsInDollar (its : List Item) : Bool := its.getLast? = some (.one dollar)

/-- A pattern: whether it is for the beginning of the text, its items, and whether it is for the end
of the text. -/
structure Pattern where
  anchored : Bool
  items : List Item
  toEnd : Bool
  deriving DecidableEq, Repr

/-- The pattern for a sequence of items. -/
def Pattern.ofItems (anchored : Bool) (its : List Item) : Pattern :=
  ⟨anchored, if endsInDollar its then its.dropLast else its, endsInDollar its⟩

/-- How a string is read as a pattern. -/
def Pattern.decode : Text → Pattern
  | [] => .ofItems false []
  | c :: re => if c = caret then .ofItems true (Grep.items re) else .ofItems false
      (Grep.items (c :: re))

/-- Something in the text is as the pattern says. -/
def Pattern.Accepts (p : Pattern) (text : Text) : Prop :=
  ∃ before found after, text = before ++ (found ++ after) ∧ (p.anchored = true → before = []) ∧
    found ∈ (p.items.map Item.lang).prod ∧ (p.toEnd = true → after = [])

example : Pattern.decode [caret, 0x61, star, dollar, star, dot, dollar] =
    ⟨true, [.many 0x61, .many dollar, .one dot], true⟩ := by decide

/-! ### Correctness -/

variable {c : Byte} {re text : Text} {its : List Item} {anchored : Bool}

theorem mem_kstar_charLang {w : Text} :
    w ∈ KStar.kstar (charLang c) ↔ ∀ t ∈ w, t = c ∨ c = dot := by
  rw [Language.mem_kstar]
  constructor
  · rintro ⟨L, rfl, hL⟩ t ht
    obtain ⟨v, hv, htv⟩ := mem_flatten.1 ht
    obtain ⟨t', h, rfl⟩ := hL v hv
    rw [mem_singleton.1 htv]
    exact h.symm.imp_left Eq.symm
  · intro h
    refine ⟨w.map fun t ↦ [t], ?_, fun v hv ↦ ?_⟩
    · induction w with
      | nil => rfl
      | cons t w ih =>
        rw [map_cons, flatten_cons, ← ih fun t' ht' ↦ h t' (mem_cons_of_mem _ ht')]
        rfl
    · obtain ⟨t, ht, rfl⟩ := mem_map.1 hv
      exact ⟨t, (h t ht).symm.imp_right Eq.symm, rfl⟩

/-- The loop of `matchstar` tries all that the item can stand for. -/
theorem matchstar_iff {here : Text → Bool} : matchstar here c text = true ↔
    ∃ found after, text = found ++ after ∧ (∀ t ∈ found, t = c ∨ c = dot) ∧ here after = true := by
  induction text with
  | nil =>
    rw [matchstar]
    refine ⟨fun h ↦ ⟨[], [], rfl, nofun, h⟩, ?_⟩
    rintro ⟨found, after, heq, -, h⟩
    rwa [(append_eq_nil_iff.1 heq.symm).2] at h
  | cons t text ih =>
    rw [matchstar, Bool.or_eq_true, Bool.and_eq_true, decide_eq_true_eq, ih]
    constructor
    · rintro (h | ⟨ht, found, after, rfl, hfound, h⟩)
      · exact ⟨[], t :: text, rfl, nofun, h⟩
      · exact ⟨t :: found, after, rfl, forall_mem_cons.2 ⟨ht, hfound⟩, h⟩
    · rintro ⟨found, after, heq, hfound, h⟩
      cases found with
      | nil =>
        left
        rwa [heq]
      | cons t' found =>
        obtain ⟨rfl, rfl⟩ := List.cons.inj heq
        obtain ⟨ht, hfound⟩ := forall_mem_cons.1 hfound
        exact .inr ⟨ht, found, after, rfl, hfound, h⟩

/-- The items of a pattern, at the beginning of the text. -/
def Here (its : List Item) (text : Text) : Prop := (Pattern.ofItems true its).Accepts text

theorem here_iff : Here its text ↔ ∃ found after, text = found ++ after ∧
    found ∈ (((Pattern.ofItems true its).items).map Item.lang).prod ∧
    (endsInDollar its = true → after = []) := by
  constructor
  · rintro ⟨before, found, after, heq, hbefore, h⟩
    rw [hbefore rfl] at heq
    exact ⟨found, after, heq, h⟩
  · rintro ⟨found, after, heq, h⟩
    exact ⟨[], found, after, heq, fun _ ↦ rfl, h⟩

theorem here_nil (text : Text) : Here [] text :=
  here_iff.2 ⟨[], text, rfl, (Language.mem_one _).2 rfl, nofun⟩

theorem here_dollar : Here [.one dollar] text ↔ text = [] := by
  rw [here_iff]
  constructor
  · rintro ⟨found, after, rfl, hfound, hafter⟩
    rw [hafter rfl, append_nil]
    exact (Language.mem_one _).1 hfound
  · rintro rfl
    exact ⟨[], [], rfl, (Language.mem_one _).2 rfl, fun _ ↦ rfl⟩

/-- An item, unless it is a `$` at the end of the pattern. -/
theorem here_cons {i : Item} (h : ¬(i = .one dollar ∧ its = [])) :
    Here (i :: its) text ↔ ∃ found after,
      text = found ++ after ∧ found ∈ i.lang ∧ Here its after := by
  have hends : endsInDollar (i :: its) = endsInDollar its := by
    rw [endsInDollar, endsInDollar]
    cases its with
    | nil => simpa using h
    | cons j its => rw [List.getLast?_cons_cons]
  have hitems : (Pattern.ofItems true (i :: its)).items =
      i :: (Pattern.ofItems true its).items := by
    rw [Pattern.ofItems, Pattern.ofItems, hends]
    dsimp only
    split_ifs with hd
    · cases its with
      | nil => exact nomatch hd
      | cons j its => rw [dropLast_cons_cons]
    · rfl
  rw [here_iff, hends, hitems, map_cons, prod_cons]
  constructor
  · rintro ⟨found, after, rfl, hfound, hafter⟩
    obtain ⟨a, ha, b, hb, rfl⟩ := Language.mem_mul.1 hfound
    exact ⟨a, b ++ after, append_assoc _ _ _, ha, here_iff.2 ⟨b, after, rfl, hb, hafter⟩⟩
  · rintro ⟨a, rest, rfl, ha, hrest⟩
    obtain ⟨b, after, rfl, hb, hafter⟩ := here_iff.1 hrest
    exact ⟨a ++ b, after, (append_assoc _ _ _).symm, Language.mem_mul.2 ⟨a, ha, b, hb, rfl⟩, hafter⟩

theorem items_eq_nil_iff : items re = [] ↔ re = [] := by
  rw [items.eq_def]
  split <;> simp

/-- The branches of `matchhere` for a character without a `*`. -/
theorem matchhere_cons (h : ∀ re', re = star :: re' → False) : matchhere (c :: re) text =
    if c = dollar ∧ re = [] then decide (text = []) else
      match text with
      | [] => false
      | t :: text => decide (c = dot ∨ c = t) && matchhere re text := by
  conv_lhs => unfold matchhere
  split
  · rename_i heq
    exact nomatch heq
  · rename_i heq
    exact absurd (List.cons.inj heq).2 (h _)
  · rename_i heq
    obtain ⟨rfl, rfl⟩ := List.cons.inj heq
    rfl

/-- `matchhere` is for the beginning of the text. -/
theorem matchhere_iff (re text : Text) : matchhere re text = true ↔ Here (items re) text := by
  fun_induction items re generalizing text with
  | case1 => simp only [matchhere, here_nil]
  | case2 c re ih =>
    rw [matchhere, matchstar_iff, here_cons (by simp)]
    simp only [Item.lang, mem_kstar_charLang, ih]
  | case3 c re hstar ih =>
    rw [matchhere_cons hstar]
    split_ifs with hend
    · rw [hend.1, items_eq_nil_iff.2 hend.2, here_dollar, decide_eq_true_eq]
    · have hitem : ¬(Item.one c = .one dollar ∧ items re = []) := by
        rwa [Item.one.injEq, items_eq_nil_iff]
      rw [here_cons hitem]
      cases text with
      | nil =>
        refine ⟨nofun, ?_⟩
        rintro ⟨found, after, heq, ⟨t, -, rfl⟩, -⟩
        exact nomatch heq
      | cons t text =>
        rw [Bool.and_eq_true, decide_eq_true_eq, ih]
        constructor
        · rintro ⟨ht, hrest⟩
          exact ⟨[t], text, rfl, ⟨t, ht, rfl⟩, hrest⟩
        · rintro ⟨found, after, heq, ⟨t', ht, rfl⟩, hrest⟩
          obtain ⟨rfl, rfl⟩ := List.cons.inj heq
          exact ⟨ht, hrest⟩

/-- The loop of `match` tries every suffix of the text. -/
theorem matchFrom_iff : matchFrom re text = true ↔
    ∃ before rest, text = before ++ rest ∧ matchhere re rest = true := by
  induction text with
  | nil =>
    rw [matchFrom]
    refine ⟨fun h ↦ ⟨[], [], rfl, h⟩, ?_⟩
    rintro ⟨before, rest, heq, h⟩
    rwa [(append_eq_nil_iff.1 heq.symm).2] at h
  | cons t text ih =>
    rw [matchFrom, Bool.or_eq_true, ih]
    constructor
    · rintro (h | ⟨before, rest, rfl, h⟩)
      · exact ⟨[], t :: text, rfl, h⟩
      · exact ⟨t :: before, rest, rfl, h⟩
    · rintro ⟨before, rest, heq, h⟩
      cases before with
      | nil =>
        left
        rwa [heq]
      | cons t' before =>
        obtain ⟨rfl, rfl⟩ := List.cons.inj heq
        exact .inr ⟨before, rest, rfl, h⟩

/-- Without `^` the items may be anywhere. -/
theorem accepts_iff_here : (Pattern.ofItems false its).Accepts text ↔
    ∃ before rest, text = before ++ rest ∧ Here its rest := by
  constructor
  · rintro ⟨before, found, after, heq, -, h⟩
    exact ⟨before, found ++ after, heq, here_iff.2 ⟨found, after, rfl, h⟩⟩
  · rintro ⟨before, rest, rfl, h⟩
    obtain ⟨found, after, rfl, hfound⟩ := here_iff.1 h
    exact ⟨before, found, after, rfl, nofun, hfound⟩

/-- **The matcher implements its patterns.** `match` returns `1` exactly if a part of the text, from
its beginning on if the pattern begins with `^` and up to its end if it ends in `$`, is in the
language of the items of the pattern. -/
theorem matchText_iff_accepts (re text : Text) :
    matchText re text = true ↔ (Pattern.decode re).Accepts text := by
  cases re with
  | nil =>
    rw [matchText, matchFrom_iff, Pattern.decode, accepts_iff_here]
    simp only [matchhere_iff, items]
  | cons c re =>
    rw [matchText, Pattern.decode]
    split_ifs with hc
    · exact matchhere_iff re text
    · rw [matchFrom_iff, accepts_iff_here]
      simp only [matchhere_iff]

end Xv6.Grep
