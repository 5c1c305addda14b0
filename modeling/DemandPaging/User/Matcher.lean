/-
The matcher of `grep.c` and the language of its patterns: `match` finds a substring of the text that
is in the language of the pattern.
-/
import Mathlib.Computability.Language
import DemandPaging.User.Ulib

namespace DemandPaging.User

open Computability

/-! ## The matcher -/

/-- The loop of `matchstar`, where `here` is `matchhere` of the rest of the pattern. -/
def starLoop (here : List UInt8 → Bool) (c : UInt8) : List UInt8 → Bool
  | [] => here []
  | x :: text => here (x :: text) || (x ≠ 0 && (x = c || c = '.'.toUInt8) && starLoop here c text)

/-- The last branch of `matchhere`: one character of the pattern against one of the text, then the rest of both. -/
def matchOne (here : List UInt8 → Bool) (c : UInt8) : List UInt8 → Bool
  | [] => false
  | x :: text => x ≠ 0 && (c = '.'.toUInt8 || c = x) && here text

/-- `matchhere`: the pattern at the beginning of the text. -/
def matchhere : List UInt8 → List UInt8 → Bool
  | [], _ => true
  | [c], text =>
    if c = 0 then true
    else if c = '$'.toUInt8 then chr text = 0
    else matchOne (matchhere []) c text
  | c :: d :: re, text =>
    if c = 0 then true
    else if d = '*'.toUInt8 then starLoop (matchhere re) c text
    else if c = '$'.toUInt8 ∧ d = 0 then chr text = 0
    else matchOne (matchhere (d :: re)) c text

/-- `matchstar`. -/
def matchstar (c : UInt8) (re text : List UInt8) : Bool := starLoop (matchhere re) c text

/-- The loop of `match`: the pattern at every place of the text, the end included. -/
def searchLoop (re : List UInt8) : List UInt8 → Bool
  | [] => matchhere re []
  | x :: text => matchhere re (x :: text) || (x ≠ 0 && searchLoop re text)

/-- `match`. -/
def matchRe (re text : List UInt8) : Bool :=
  if chr re = '^'.toUInt8 then matchhere re.tail text else searchLoop re text

/-! ## The language of a pattern -/

/-- The characters that a character of a pattern stands for. -/
def charClass (c : UInt8) : Set UInt8 := {x | c = '.'.toUInt8 ∨ x = c}

inductive Item
  /-- A character. -/
  | one (c : UInt8)
  /-- A character followed by a star. -/
  | star (c : UInt8)

/-- The words of one character of a class. -/
def singles (S : Set UInt8) : Language UInt8 := {w | ∃ x ∈ S, w = [x]}

def Item.lang : Item → Language UInt8
  | .one c => singles (charClass c)
  | .star c => (singles (charClass c))∗

/-- A pattern as it is read. -/
structure Pattern where
  /-- It starts with `^`. -/
  start : Bool
  items : List Item
  /-- It ends with a `$`. -/
  stop : Bool

/-- The items of a pattern, and whether a `$` ends it. -/
def readItems : List UInt8 → List Item × Bool
  | [] => ([], false)
  | [c] => if c = '$'.toUInt8 then ([], true) else ([.one c], false)
  | c :: d :: re =>
    if d = '*'.toUInt8 then (.star c :: (readItems re).1, (readItems re).2)
    else (.one c :: (readItems (d :: re)).1, (readItems (d :: re)).2)

def readPattern (re : List UInt8) : Pattern :=
  if re.head? = some '^'.toUInt8 then ⟨true, (readItems re.tail).1, (readItems re.tail).2⟩
  else ⟨false, (readItems re).1, (readItems re).2⟩

/-- The language of a list of items. -/
def itemsLang (items : List Item) : Language UInt8 := (items.map Item.lang).prod

/-- The text has a substring in the language of the pattern, where the pattern wants it. -/
def Pattern.Finds (p : Pattern) (text : List UInt8) : Prop :=
  ∃ before word after, text = before ++ word ++ after ∧ word ∈ itemsLang p.items ∧
    (p.start = true → before = []) ∧ (p.stop = true → after = [])

/-- The text starts with a word of the items, and is that word if the pattern ends with a `$`. -/
def Begins (items : List Item × Bool) (text : List UInt8) : Prop :=
  ∃ word after, text = word ++ after ∧ word ∈ itemsLang items.1 ∧ (items.2 = true → after = [])

/-! ## Words of a language -/

theorem mem_singles_star {S : Set UInt8} {w : List UInt8} : w ∈ (singles S)∗ ↔ ∀ x ∈ w, x ∈ S := by
  rw [Language.mem_kstar]
  constructor
  · rintro ⟨L, rfl, hL⟩ x hx
    obtain ⟨l, hl, hxl⟩ := List.mem_flatten.1 hx
    obtain ⟨y, hy, rfl⟩ := hL l hl
    rwa [List.mem_singleton.1 hxl]
  · intro h
    refine ⟨w.map fun x => [x], ?_, ?_⟩
    · rw [← List.flatMap_def, List.flatMap_singleton']
    · intro l hl
      obtain ⟨x, hx, rfl⟩ := List.mem_map.1 hl
      exact ⟨x, h x hx, rfl⟩

theorem begins_nil (text : List UInt8) : Begins ([], false) text :=
  ⟨[], text, rfl, rfl, fun h => by cases h⟩

theorem begins_stop {text : List UInt8} : Begins ([], true) text ↔ text = [] := by
  constructor
  · rintro ⟨w, after, rfl, hw, hafter⟩
    rw [hafter rfl, List.append_nil]
    exact hw
  · rintro rfl
    exact ⟨[], [], rfl, rfl, fun _ => rfl⟩

/-- An item takes a word off the text. -/
theorem begins_cons {i : Item} {items : List Item} {stop : Bool} {text : List UInt8} :
    Begins (i :: items, stop) text ↔ ∃ w rest, text = w ++ rest ∧ w ∈ i.lang ∧ Begins (items, stop) rest := by
  constructor
  · rintro ⟨word, after, rfl, hword, hafter⟩
    obtain ⟨w, hw, v, hv, rfl⟩ := Language.mem_mul.1 hword
    exact ⟨w, v ++ after, List.append_assoc _ _ _, hw, v, after, rfl, hv, hafter⟩
  · rintro ⟨w, rest, rfl, hw, v, after, rfl, hv, hafter⟩
    exact ⟨w ++ v, after, (List.append_assoc _ _ _).symm, Language.mem_mul.2 ⟨w, hw, v, hv, rfl⟩, hafter⟩

theorem begins_one {c : UInt8} {items : List Item} {stop : Bool} {text : List UInt8} :
    Begins (.one c :: items, stop) text ↔ ∃ x rest, text = x :: rest ∧ x ∈ charClass c ∧ Begins (items, stop) rest := by
  rw [begins_cons]
  constructor
  · rintro ⟨w, rest, rfl, ⟨x, hx, rfl⟩, h⟩
    exact ⟨x, rest, rfl, hx, h⟩
  · rintro ⟨x, rest, rfl, hx, h⟩
    exact ⟨[x], rest, rfl, ⟨x, hx, rfl⟩, h⟩

theorem begins_star {c : UInt8} {items : List Item} {stop : Bool} {text : List UInt8} :
    Begins (.star c :: items, stop) text ↔
      ∃ n ≤ text.length, (∀ x ∈ text.take n, x ∈ charClass c) ∧ Begins (items, stop) (text.drop n) := by
  rw [begins_cons]
  constructor
  · rintro ⟨w, rest, rfl, hw, h⟩
    refine ⟨w.length, by rw [List.length_append]; exact Nat.le_add_right _ _, ?_, ?_⟩
    · rw [List.take_left]
      exact mem_singles_star.1 hw
    · rwa [List.drop_left]
  · rintro ⟨n, -, hw, h⟩
    exact ⟨text.take n, text.drop n, (List.take_append_drop n text).symm, mem_singles_star.2 hw, h⟩

/-! ## What the functions find -/

section Find

variable {re text : List UInt8} {c : UInt8}

/-- The search of `matchstar`, which stops at the first character that does not repeat, tries every number of repetitions. -/
theorem starLoop_iff {here : List UInt8 → Bool} : ∀ {text : List UInt8}, 0 ∉ text → (starLoop here c text = true ↔
    ∃ n ≤ text.length, (∀ x ∈ text.take n, x ∈ charClass c) ∧ here (text.drop n) = true)
  | [], _ => by simp [starLoop]
  | x :: text, h => by
    rw [List.mem_cons, not_or] at h
    have hx : x ≠ 0 := Ne.symm h.1
    have hclass : (x = c ∨ c = '.'.toUInt8) ↔ x ∈ charClass c := or_comm
    rw [starLoop, Bool.or_eq_true, Bool.and_eq_true, Bool.and_eq_true, starLoop_iff h.2]
    simp only [decide_eq_true_eq, Bool.or_eq_true, hclass, ne_eq, hx, not_false_eq_true, true_and]
    constructor
    · rintro (hhere | ⟨hmem, n, hn, htake, hdrop⟩)
      · exact ⟨0, Nat.zero_le _, by simp, hhere⟩
      · refine ⟨n + 1, Nat.succ_le_succ hn, ?_, hdrop⟩
        rw [List.take_succ_cons]
        exact List.forall_mem_cons.2 ⟨hmem, htake⟩
    · rintro ⟨n, hn, htake, hdrop⟩
      cases n with
      | zero => exact .inl hdrop
      | succ n =>
        rw [List.take_succ_cons] at htake
        obtain ⟨hmem, htake⟩ := List.forall_mem_cons.1 htake
        exact .inr ⟨hmem, n, Nat.le_of_succ_le_succ hn, htake, hdrop⟩

theorem chr_eq_zero (h : 0 ∉ text) : chr text = 0 ↔ text = [] := by
  cases text with
  | nil => exact iff_of_true rfl rfl
  | cons x text =>
    rw [List.mem_cons, not_or] at h
    exact iff_of_false (Ne.symm h.1) (List.cons_ne_nil _ _)

theorem matchOne_iff (h : 0 ∉ text) {here : List UInt8 → Bool} :
    matchOne here c text = true ↔ ∃ x rest, text = x :: rest ∧ x ∈ charClass c ∧ here rest = true := by
  cases text with
  | nil => simp [matchOne]
  | cons x text =>
    rw [List.mem_cons, not_or] at h
    have hx : x ≠ 0 := Ne.symm h.1
    have hclass : (c = '.'.toUInt8 ∨ c = x) ↔ x ∈ charClass c := or_congr_right eq_comm
    simp only [matchOne, Bool.and_eq_true, Bool.or_eq_true, decide_eq_true_eq, ne_eq, hx, not_false_eq_true, true_and, hclass]
    constructor
    · rintro ⟨hmem, hhere⟩
      exact ⟨x, text, rfl, hmem, hhere⟩
    · rintro ⟨y, rest, heq, hmem, hhere⟩
      cases heq
      exact ⟨hmem, hhere⟩

/-- `matchhere` is right about every pattern at the beginning of every text. -/
theorem matchhere_iff : ∀ (re : List UInt8) {text : List UInt8}, 0 ∉ re → 0 ∉ text →
    (matchhere re text = true ↔ Begins (readItems re) text)
  | [], text, _, _ => by
    rw [matchhere, readItems]
    exact iff_of_true rfl (begins_nil text)
  | [c], text, hre, ht => by
    have hc : c ≠ 0 := fun h => hre (by rw [h]; exact List.mem_singleton_self _)
    rw [matchhere, if_neg hc, readItems]
    split
    · rw [decide_eq_true_eq, chr_eq_zero ht, begins_stop]
    · rw [matchOne_iff ht, begins_one]
      refine exists_congr fun x => exists_congr fun rest => and_congr_right fun _ => and_congr_right fun _ => ?_
      exact iff_of_true (by rw [matchhere]) (begins_nil rest)
  | c :: d :: re, text, hre, ht => by
    simp only [List.mem_cons, not_or] at hre
    obtain ⟨hc, hd, hre⟩ := hre
    rw [matchhere, if_neg (Ne.symm hc), readItems]
    by_cases hstar : d = '*'.toUInt8
    · rw [if_pos hstar, if_pos hstar, starLoop_iff ht, begins_star]
      refine exists_congr fun n => and_congr_right fun _ => and_congr_right fun _ => ?_
      exact matchhere_iff re hre fun h0 => ht (List.mem_of_mem_drop h0)
    · rw [if_neg hstar, if_neg hstar, if_neg fun h => hd h.2.symm, matchOne_iff ht, begins_one]
      refine exists_congr fun x => exists_congr fun rest => and_congr_right fun heq => and_congr_right fun _ => ?_
      have hrest : 0 ∉ rest := fun h0 => ht (by rw [heq]; exact List.mem_cons_of_mem x h0)
      exact matchhere_iff (d :: re) (by simp [hd, hre]) hrest

/-- The loop of `match` tries every suffix of the text. -/
theorem searchLoop_iff : ∀ {text : List UInt8}, 0 ∉ text →
    (searchLoop re text = true ↔ ∃ before rest, text = before ++ rest ∧ matchhere re rest = true)
  | [], _ => by
    rw [searchLoop]
    constructor
    · exact fun h => ⟨[], [], rfl, h⟩
    · rintro ⟨before, rest, heq, h⟩
      rwa [← (List.append_eq_nil_iff.1 heq.symm).2]
  | x :: text, h => by
    rw [List.mem_cons, not_or] at h
    have hx : x ≠ 0 := Ne.symm h.1
    rw [searchLoop, Bool.or_eq_true, Bool.and_eq_true, searchLoop_iff h.2, decide_eq_true_eq]
    constructor
    · rintro (hhere | ⟨-, before, rest, rfl, hrest⟩)
      · exact ⟨[], x :: text, rfl, hhere⟩
      · exact ⟨x :: before, rest, rfl, hrest⟩
    · rintro ⟨before, rest, heq, hrest⟩
      cases before with
      | nil => exact .inl (by rw [heq]; exact hrest)
      | cons y before =>
        obtain ⟨rfl, rfl⟩ := List.cons.inj heq
        exact .inr ⟨hx, before, rest, rfl, hrest⟩

theorem matchRe_finds (hre : 0 ∉ re) (ht : 0 ∉ text) : matchRe re text = true ↔ (readPattern re).Finds text := by
  have hhead : chr re = '^'.toUInt8 ↔ re.head? = some '^'.toUInt8 := by
    cases re with
    | nil => exact iff_of_false (by decide) (by simp)
    | cons c re => simp [chr]
  unfold matchRe readPattern Pattern.Finds
  by_cases hstart : re.head? = some '^'.toUInt8
  · rw [if_pos hstart, if_pos (hhead.2 hstart), matchhere_iff _ (fun h0 => hre (List.mem_of_mem_tail h0)) ht]
    constructor
    · rintro ⟨word, after, rfl, hword, hafter⟩
      exact ⟨[], word, after, rfl, hword, fun _ => rfl, hafter⟩
    · rintro ⟨before, word, after, rfl, hword, hbefore, hafter⟩
      exact ⟨word, after, by rw [hbefore rfl, List.nil_append], hword, hafter⟩
  · rw [if_neg hstart, if_neg fun h => hstart (hhead.1 h), searchLoop_iff ht]
    constructor
    · rintro ⟨before, rest, rfl, hrest⟩
      have h0 : 0 ∉ rest := fun h0 => ht (List.mem_append_right before h0)
      obtain ⟨word, after, rfl, hword, hafter⟩ := (matchhere_iff re hre h0).1 hrest
      exact ⟨before, word, after, (List.append_assoc _ _ _).symm, hword, fun h => (by cases h), hafter⟩
    · rintro ⟨before, word, after, rfl, hword, -, hafter⟩
      rw [List.append_assoc] at ht ⊢
      have h0 : 0 ∉ word ++ after := fun h0 => ht (List.mem_append_right before h0)
      exact ⟨before, word ++ after, rfl, (matchhere_iff re hre h0).2 ⟨word, after, rfl, hword, hafter⟩⟩

/-- `match` returns 1 for a text iff a substring of it is in the language of the pattern, and `matchstar` is right about every
number of repetitions. -/
theorem match_language (hre : 0 ∉ re) (ht : 0 ∉ text) :
    (matchRe re text = true ↔ (readPattern re).Finds text) ∧
    ∀ c, matchstar c re text = true ↔
      ∃ n ≤ text.length, (∀ x ∈ text.take n, x ∈ charClass c) ∧ matchhere re (text.drop n) = true :=
  ⟨matchRe_finds hre ht, fun _ => starLoop_iff ht⟩

/-- The pattern `^a*.$` and the text `aab`. -/
theorem match_language_aab : (readPattern ("^a*.$".toList.map Char.toUInt8)).Finds ("aab".toList.map Char.toUInt8) :=
  (match_language (by decide) (by decide)).1.1 (by decide)

end Find

/-! ## The end of the text -/

section Nul

variable {re text : List UInt8} (rest : List UInt8)

theorem starLoop_nul {here : List UInt8 → Bool} {c : UInt8} : ∀ {text : List UInt8},
    (∀ n, here (text.drop n ++ 0 :: rest) = here (text.drop n)) → starLoop here c (text ++ 0 :: rest) = starLoop here c text
  | [], hh => by
    have h0 := hh 0
    rw [List.drop_zero, List.nil_append] at h0
    rw [List.nil_append, starLoop, starLoop, h0]
    simp
  | x :: text, hh => by
    rw [List.cons_append, starLoop, starLoop, starLoop_nul fun n => hh (n + 1), ← List.cons_append]
    rw [show here (x :: text ++ 0 :: rest) = here (x :: text) from hh 0]

theorem matchOne_nul {here : List UInt8 → Bool} {c : UInt8} (text : List UInt8)
    (hh : ∀ text, here (text ++ 0 :: rest) = here text) : matchOne here c (text ++ 0 :: rest) = matchOne here c text := by
  cases text with
  | nil => simp [matchOne]
  | cons x text => rw [List.cons_append, matchOne, matchOne, hh]

theorem chr_nul (text : List UInt8) : chr (text ++ 0 :: rest) = chr text := by
  cases text <;> rfl

/-- What stands after the NUL of a text does not count. -/
theorem matchhere_nul : ∀ (re text : List UInt8), matchhere re (text ++ 0 :: rest) = matchhere re text
  | [], _ => by rw [matchhere, matchhere]
  | [c], text => by
    rw [matchhere, matchhere, chr_nul, matchOne_nul rest text (matchhere_nul [])]
  | c :: d :: re, text => by
    rw [matchhere, matchhere, chr_nul, starLoop_nul rest fun n => matchhere_nul re _,
      matchOne_nul rest text (matchhere_nul (d :: re))]

theorem searchLoop_nul (re : List UInt8) : ∀ text : List UInt8, searchLoop re (text ++ 0 :: rest) = searchLoop re text
  | [] => by
    have h := matchhere_nul rest re []
    rw [List.nil_append] at h
    rw [List.nil_append, searchLoop, searchLoop, h]
    simp
  | x :: text => by
    rw [List.cons_append, searchLoop, searchLoop, searchLoop_nul re text, ← List.cons_append, matchhere_nul]

theorem matchRe_nul (re text : List UInt8) : matchRe re (text ++ 0 :: rest) = matchRe re text := by
  rw [matchRe, matchRe, matchhere_nul, searchLoop_nul]

end Nul

end DemandPaging.User
