import ClassicAsp.Lexeme.Source
import ClassicAsp.Proofs.Text
import Mathlib

/-! Letter case of characters and texts. The classes of characters that scripts are read by do not
tell the two cases of a letter apart, so that stretches and trimming commute with lowering. -/
namespace ClassicAsp

namespace Text

@[simp] theorem lower_nil : lower [] = [] := rfl

@[simp] theorem lower_cons (c : Char) (s : Text) : lower (c :: s) = c.toLower :: lower s := rfl

@[simp] theorem lower_append (s t : Text) : lower (s ++ t) = lower s ++ lower t :=
  List.map_append

@[simp] theorem length_lower (s : Text) : (lower s).length = s.length := List.length_map _

@[simp] theorem lower_eq_nil {s : Text} : lower s = [] ↔ s = [] := List.map_eq_nil_iff

theorem lower_cons_congr (c : Char) {s t : Text} (h : lower s = lower t) :
    lower (c :: s) = lower (c :: t) := by
  simp [h]

theorem lower_append_congr {s t u v : Text} (h : lower s = lower t) (h' : lower u = lower v) :
    lower (s ++ u) = lower (t ++ v) := by
  simp [h, h']

@[simp] theorem lower_reverse (s : Text) : lower s.reverse = (lower s).reverse := List.map_reverse

@[simp] theorem lower_take (n : ℕ) (s : Text) : lower (s.take n) = (lower s).take n := List.map_take

@[simp] theorem lower_drop (n : ℕ) (s : Text) : lower (s.drop n) = (lower s).drop n := List.map_drop

theorem lower_flatMap {f : Text → Text} (h : ∀ s, lower (f (lower s)) = lower (f s))
    (list : List Text) : lower ((list.map lower).flatMap f) = lower (list.flatMap f) := by
  induction list with
  | nil => rfl
  | cons s list ih => exact lower_append_congr (h s) ih

def capitals : Text := "ABCDEFGHIJKLMNOPQRSTUVWXYZ".toList

theorem mem_capitals {c : Char} (h : c.isUpper = true) : c ∈ capitals := by
  have hall : ∀ n ∈ List.range 26, Char.ofNat (65 + n) ∈ capitals := by decide
  have hc := isUpper_iff.1 h
  have hmem := hall (c.toNat - 65) (List.mem_range.2 (by omega))
  rw [show 65 + (c.toNat - 65) = c.toNat by omega, Char.ofNat_toNat] at hmem
  exact hmem

@[simp] theorem lower_lower (s : Text) : lower (lower s) = lower s := by
  simp [lower, Function.comp_def]

theorem toLower_eq_iff {c k : Char} (hk : k.isAlpha = false) : c.toLower = k ↔ c = k := by
  obtain ⟨hupper, hlower⟩ : k.isUpper = false ∧ k.isLower = false := Bool.or_eq_false_iff.1 hk
  constructor
  · exact eq_of_toLower hlower
  · rintro rfl
    exact Char.toLower_eq_of_not_isUpper (by simp [hupper])

theorem toLower_ne {c k : Char} (hk : k.isAlpha = false) (h : c ≠ k) : c.toLower ≠ k := by
  rw [ne_eq, toLower_eq_iff hk]
  exact h

theorem head?_lower_eq_iff {k : Char} (hk : k.isAlpha = false) (s : Text) :
    (lower s).head? = some k ↔ s.head? = some k := by
  cases s with
  | nil => exact Iff.rfl
  | cons c s => simp [toLower_eq_iff hk]

theorem head?_lower_ne {a b c : Char} {s : Text} (ha : a.isAlpha = false) (hb : b.isAlpha = false)
    (h : ∀ t, c = a → s = b :: t → False) : c.toLower = a → (lower s).head? ≠ some b := by
  rw [toLower_eq_iff ha, ne_eq, head?_lower_eq_iff hb]
  intro hc hs
  exact h s.tail hc (List.eq_cons_of_mem_head? hs)

theorem toLower_eq_or_iff {k l : Char}
    (h : capitals.all fun c => (c.toLower = k ∨ c.toLower = l ↔ c = k ∨ c = l)) (c : Char) :
    c.toLower = k ∨ c.toLower = l ↔ c = k ∨ c = l := by
  cases hu : c.isUpper with
  | true => exact of_decide_eq_true (List.all_eq_true.1 h c (mem_capitals hu))
  | false => rw [Char.toLower_eq_of_not_isUpper (by simp [hu])]

def CaseBlind (p : Char → Bool) : Prop := ∀ c, p c.toLower = p c

theorem caseBlind_of_capitals {p : Char → Bool} (h : capitals.all fun c => p c.toLower == p c) :
    CaseBlind p := by
  intro c
  cases hu : c.isUpper with
  | true => exact beq_iff_eq.1 (List.all_eq_true.1 h c (mem_capitals hu))
  | false => rw [Char.toLower_eq_of_not_isUpper (by simp [hu])]

section Classes

variable {p : Char → Bool}

theorem CaseBlind.takeWhile_lower (h : CaseBlind p) (s : Text) :
    (lower s).takeWhile p = lower (s.takeWhile p) := by
  have hp : p ∘ Char.toLower = p := funext h
  rw [lower, List.takeWhile_map, hp]
  rfl

theorem CaseBlind.dropWhile_lower (h : CaseBlind p) (s : Text) :
    (lower s).dropWhile p = lower (s.dropWhile p) := by
  have hp : p ∘ Char.toLower = p := funext h
  rw [lower, List.dropWhile_map, hp]
  rfl

theorem CaseBlind.any_head?_lower (h : CaseBlind p) (s : Text) :
    (lower s).head?.any p = s.head?.any p := by
  cases s with
  | nil => rfl
  | cons c s => exact h c

theorem CaseBlind.all_lower (h : CaseBlind p) (s : Text) : (lower s).all p = s.all p := by
  have hp : p ∘ Char.toLower = p := funext h
  rw [lower, List.all_map, hp]

theorem CaseBlind.filter_lower (h : CaseBlind p) (s : Text) :
    (lower s).filter p = lower (s.filter p) := by
  have hp : p ∘ Char.toLower = p := funext h
  rw [lower, List.filter_map, hp]
  rfl

end Classes

theorem caseBlind_isAlphabetic : CaseBlind isAlphabetic := caseBlind_of_capitals (by decide)

theorem caseBlind_isDigit : CaseBlind Char.isDigit := caseBlind_of_capitals (by decide)

theorem caseBlind_isNameChar : CaseBlind Lexeme.isNameChar := caseBlind_of_capitals (by decide)

theorem caseBlind_isHexDigit : CaseBlind Lexeme.isHexDigit := caseBlind_of_capitals (by decide)

theorem caseBlind_isDateChar : CaseBlind Lexeme.isDateChar := caseBlind_of_capitals (by decide)

theorem caseBlind_isSpace : CaseBlind isSpace := caseBlind_of_capitals (by decide)

theorem caseBlind_isSeparator : CaseBlind Source.isSeparator := caseBlind_of_capitals (by decide)

theorem caseBlind_isAsciiBlank : CaseBlind isAsciiBlank := caseBlind_of_capitals (by decide)

theorem caseBlind_ne {k : Char} (hk : k.isAlpha = false) : CaseBlind (· != k) := by
  intro c
  rw [Bool.eq_iff_iff, bne_iff_ne, bne_iff_ne, ne_eq, toLower_eq_iff hk]

@[simp] theorem trimStart_lower (s : Text) : trimStart (lower s) = lower (trimStart s) :=
  caseBlind_isSpace.dropWhile_lower s

@[simp] theorem trim_lower (s : Text) : trim (lower s) = lower (trim s) := by
  simp [trim, ← lower_reverse]

@[simp] theorem newlines_lower (s : Text) : newlines (lower s) = newlines s := by
  induction s with
  | nil => rfl
  | cons c s ih =>
    have hn := toLower_eq_iff (c := c) (k := '\n') (by decide)
    rw [newlines, newlines] at ih ⊢
    rw [lower_cons, List.count_cons, List.count_cons, ih]
    simp only [beq_iff_eq, hn]

@[simp] theorem sameWord_lower (w s : Text) : sameWord w (lower s) = sameWord w s := by
  rw [Bool.eq_iff_iff, sameWord_iff, sameWord_iff, lower_lower]

@[simp] theorem expect_lower (w s : Text) : expect w (lower s) = (expect w s).map lower := by
  induction w generalizing s with
  | nil => rfl
  | cons a w ih =>
    cases s with
    | nil => rfl
    | cons c s =>
      rw [lower_cons, expect, expect, Char.toLower_toLower_eq_toLower]
      split
      · exact ih s
      · rfl

@[simp]
theorem doubleQuotes_lower (s : Text) : doubleQuotes (lower s) = lower (doubleQuotes s) := by
  induction s with
  | nil => rfl
  | cons c s ih =>
    have hc := toLower_eq_iff (c := c) (k := '"') (by decide)
    rw [lower_cons, doubleQuotes_cons, doubleQuotes_cons, ih, lower_append]
    simp only [hc]
    split <;> rfl

@[simp] theorem quote_lower (s : Text) : quote (lower s) = lower (quote s) := by
  simp [quote]

theorem piecesFrom_lower {k : Char} (hk : k.isAlpha = false) (piece s : Text) :
    piecesFrom k (lower piece) (lower s) = (piecesFrom k piece s).map lower := by
  induction s generalizing piece with
  | nil => simp [piecesFrom]
  | cons c s ih =>
    rw [lower_cons, piecesFrom, piecesFrom]
    simp only [toLower_eq_iff hk]
    split
    · rw [List.map_cons, lower_reverse]
      exact congrArg _ (ih [])
    · exact ih (c :: piece)

@[simp] theorem lines_lower (s : Text) : lines (lower s) = (lines s).map lower :=
  piecesFrom_lower (by decide) [] s

end Text

end ClassicAsp
