import ClassicAsp.Number
import ClassicAsp.DateLiteral
import ClassicAsp.Proofs.LetterCase.Character
import ClassicAsp.Proofs.Number.Integer

/-! Letter case of literals. The markers of numbers, the names of months and the halves of the day
are read in any case, so that a literal has one value however its letters are written. -/
namespace ClassicAsp

open Text (lower_cons lower_lower toLower_eq_iff toLower_ne caseBlind_isDigit)

theorem Text.lower_takeWhile_isDigit (s : Text) :
    lower (s.takeWhile Char.isDigit) = s.takeWhile Char.isDigit :=
  Integer.lower_of_isDigits fun _ hc => List.all_eq_true.1 List.all_takeWhile _ hc

theorem Integer.read?_lower (s : Text) : read? (Text.lower s) = read? s := by
  rw [read?, read?, lower_lower]

namespace Decimal

theorem sign_cons {c : Char} (hm : c ≠ '-') (hp : c ≠ '+') (s : Text) :
    sign (c :: s) = (false, c :: s) := by
  unfold sign
  split
  · next e => exact absurd (List.cons.inj e).1 hm
  · next e => exact absurd (List.cons.inj e).1 hp
  · rfl

theorem sign_lower (s : Text) : sign (Text.lower s) = ((sign s).1, Text.lower (sign s).2) := by
  cases s with
  | nil => rfl
  | cons c s =>
    by_cases hm : c = '-'
    · rw [hm]
      rfl
    by_cases hp : c = '+'
    · rw [hp]
      rfl
    have hm' : c.toLower ≠ '-' := toLower_ne (by decide) hm
    have hp' : c.toLower ≠ '+' := toLower_ne (by decide) hp
    rw [lower_cons, sign_cons hm' hp', sign_cons hm hp]
    rfl

theorem readExponent?_lower (s : Text) : readExponent? (Text.lower s) = readExponent? s := by
  cases s with
  | nil => rfl
  | cons c s =>
    have hc := Text.toLower_eq_or_iff (k := 'e') (l := 'E') (by decide) c
    rw [lower_cons, readExponent?, readExponent?, sign_lower]
    simp only [hc, ne_eq, Text.lower_eq_nil, caseBlind_isDigit.all_lower]
    split
    · split
      · next hdigits =>
        rw [Integer.lower_of_isDigits (List.all_eq_true.1 hdigits.2)]
      · rfl
    · rfl

theorem read?_lower (s : Text) : read? (Text.lower s) = read? s := by
  have hdrop (t : Text) := caseBlind_isDigit.dropWhile_lower t
  have htake (t : Text) : (Text.lower t).takeWhile Char.isDigit = t.takeWhile Char.isDigit := by
    rw [caseBlind_isDigit.takeWhile_lower, Text.lower_takeWhile_isDigit]
  unfold read?
  rw [hdrop, htake]
  cases s.dropWhile Char.isDigit with
  | nil => rfl
  | cons c t =>
    by_cases hc : c = '.'
    · subst hc
      have hpoint : Text.lower ('.' :: t) = '.' :: Text.lower t := rfl
      simp only [hpoint, hdrop, htake, readExponent?_lower]
    · have hc' : c.toLower ≠ '.' := toLower_ne (by decide) hc
      have hrest := readExponent?_lower (c :: t)
      rw [lower_cons] at hrest ⊢
      simp [hc, hc', hrest]

end Decimal

theorem Binary64.read?_lower (s : Text) : read? (Text.lower s) = read? s := by
  unfold read?
  rw [Decimal.sign_lower]
  dsimp only
  rw [Decimal.read?_lower]

namespace DateLiteral

def lower : DateLiteral → DateLiteral
  | text s => text (Text.lower s)
  | d => d

def Piece.anyCase : Piece → Bool
  | mark c => !c.isAlpha
  | _ => true

theorem leadingDigits_lower (s : Text) :
    leadingDigits (Text.lower s) = (leadingDigits s).map (Prod.map id Text.lower) := by
  unfold leadingDigits
  rw [caseBlind_isDigit.takeWhile_lower, Text.lower_takeWhile_isDigit,
    caseBlind_isDigit.dropWhile_lower]
  dsimp only
  split <;> rfl

theorem number?_lower (w : ℕ) (s : Text) :
    number? w (Text.lower s) = (number? w s).map (Prod.map id Text.lower) := by
  unfold number?
  rw [← Text.lower_take, leadingDigits_lower, ← Text.lower_drop, Option.map_map, Option.map_map]
  congr 1
  funext p
  simp

theorem year?_cons {c : Char} (hm : c ≠ '-') (hp : c ≠ '+') (s : Text) :
    year? (c :: s) = (number? 4 (c :: s)).map fun (n, s) => ((n : ℤ), s) := by
  unfold year?
  split
  · next e => exact absurd (List.cons.inj e).1 hm
  · next e => exact absurd (List.cons.inj e).1 hp
  · rfl

theorem year?_lower (s : Text) :
    year? (Text.lower s) = (year? s).map (Prod.map id Text.lower) := by
  cases s with
  | nil => rfl
  | cons c s =>
    by_cases hm : c = '-'
    · subst hm
      change (leadingDigits (Text.lower s)).map _ = ((leadingDigits s).map _).map _
      rw [leadingDigits_lower, Option.map_map, Option.map_map]
      rfl
    by_cases hp : c = '+'
    · subst hp
      change (leadingDigits (Text.lower s)).map _ = ((leadingDigits s).map _).map _
      rw [leadingDigits_lower, Option.map_map, Option.map_map]
      rfl
    have hm' : c.toLower ≠ '-' := toLower_ne (by decide) hm
    have hp' : c.toLower ≠ '+' := toLower_ne (by decide) hp
    rw [lower_cons, year?_cons hm' hp', year?_cons hm hp, ← lower_cons, number?_lower,
      Option.map_map, Option.map_map]
    rfl

theorem monthName?_lower (s : Text) :
    monthName? (Text.lower s) = (monthName? s).map (Prod.map id Text.lower) := by
  unfold monthName?
  rw [← Text.lower_take, lower_lower, ← Text.lower_drop]
  dsimp only
  split <;> rfl

theorem Piece.read_lower {p : Piece} (hp : p.anyCase = true) (n : Numbers) (s : Text) :
    p.read n (Text.lower s) = (p.read n s).map (Prod.map id Text.lower) := by
  have hnumber (f : ℕ → Numbers) :
      ((number? 2 (Text.trimStart (Text.lower s))).map fun (v, s) => (f v, s)) =
        ((number? 2 (Text.trimStart s)).map fun (v, s) => (f v, s)).map
          (Prod.map id Text.lower) := by
    simp [number?_lower]
    rfl
  cases p with
  | year =>
    simp only [Piece.read, Text.trimStart_lower, year?_lower, Option.map_map]
    rfl
  | monthName =>
    simp only [Piece.read, monthName?_lower, Option.map_map]
    rfl
  | hourOfHalf =>
    simp only [Piece.read, Text.trimStart_lower, number?_lower, Option.bind_map, Option.map_bind]
    congr 1
    funext q
    simp only [Function.comp_apply, Prod.map, id_eq]
    split <;> rfl
  | half =>
    simp only [Piece.read, ← Text.lower_take, lower_lower, ← Text.lower_drop]
    split <;> rfl
  | mark c =>
    cases s with
    | nil => rfl
    | cons a s =>
      have ha := toLower_eq_iff (c := a) (by simpa [Piece.anyCase] using hp : c.isAlpha = false)
      simp only [Piece.read, lower_cons, ha]
      split <;> rfl
  | blank =>
    simp only [Piece.read, Text.trimStart_lower]
    rfl
  | month => exact hnumber fun v => { n with month := v }
  | day => exact hnumber fun v => { n with day := v }
  | hour => exact hnumber fun v => { n with hour := v }
  | minute => exact hnumber fun v => { n with minute := v }
  | second => exact hnumber fun v => { n with second := v }

theorem readPieces_lower {layout : List Piece} (hl : layout.all Piece.anyCase = true) (n : Numbers)
    (s : Text) : readPieces n (Text.lower s) layout = readPieces n s layout := by
  induction layout generalizing n s with
  | nil => simp only [readPieces, Text.lower_eq_nil]
  | cons p ps ih =>
    rw [List.all_cons, Bool.and_eq_true] at hl
    rw [readPieces, readPieces, Piece.read_lower hl.1, Option.bind_map]
    congr 1
    funext q
    exact ih hl.2 q.1 q.2

section Readers

variable {layout : List Piece} (hl : layout.all Piece.anyCase = true) (s : Text)
include hl

theorem readDateTime?_lower :
    readDateTime? layout (Text.lower s) = (readDateTime? layout s).map lower := by
  unfold readDateTime?
  rw [readPieces_lower hl]
  cases readPieces {} s layout with
  | none => rfl
  | some n =>
    simp only [Option.bind_some]
    cases n.date? with
    | none => rfl
    | some d => cases n.time? <;> rfl

theorem readDate?_lower : readDate? layout (Text.lower s) = (readDate? layout s).map lower := by
  unfold readDate?
  rw [readPieces_lower hl]
  cases readPieces {} s layout with
  | none => rfl
  | some n =>
    simp only [Option.bind_some]
    cases n.date? <;> rfl

theorem readTime?_lower : readTime? layout (Text.lower s) = (readTime? layout s).map lower := by
  unfold readTime?
  rw [readPieces_lower hl]
  cases readPieces {} s layout with
  | none => rfl
  | some n =>
    simp only [Option.bind_some]
    cases n.time? <;> rfl

end Readers

theorem readers_lower (s : Text) :
    (readers.findSome? fun r => r (Text.lower s)) = (readers.findSome? fun r => r s).map lower := by
  rw [List.map_findSome?]
  simp (disch := decide) only [readers, List.findSome?_cons, List.findSome?_nil,
    readDateTime?_lower, readDate?_lower, readTime?_lower, Function.comp_apply]

theorem read_lower (s : Text) : read (Text.lower s) = (read s).lower := by
  rw [read, read, Text.trim_lower, readers_lower]
  exact Option.getD_map lower (.text s) _

end DateLiteral
end ClassicAsp
