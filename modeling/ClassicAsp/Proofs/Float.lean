import ClassicAsp.Proofs.Number.Rounding
import ClassicAsp.Proofs.Lexeme.Slice
import ClassicAsp.Proofs.Numeral

/-! Floats from their spelling to their value and back. What is read as a float has a fraction or an
exponent; its value is rounded correctly or is out of range; and the number is printed so that it
is read back as one, or as an integer where it is whole and short enough to show no exponent. -/
namespace ClassicAsp

open Decimal (IsDigits IsFraction WritesExponent Curtails shown)
open Lexeme (BeginsExponent readFraction readExponent readNumber)

/-- A float as it is written: digits, then a fraction or an exponent or both. The exponent comes
with its value. -/
structure Lexeme.IsFloat (w f e : Text) (n : ℤ) : Prop where
  digits : IsDigits w
  nonempty : w ≠ []
  fraction : IsFraction f
  exponent : WritesExponent e n
  marked : ¬ (f = [] ∧ e = [])

namespace Lexeme

theorem isFraction_readFraction (s : Text) : IsFraction (readFraction s).1 := by
  unfold readFraction
  split
  · exact .inr ⟨_, fun c hc => List.all_eq_true.1 List.all_takeWhile c hc, rfl⟩
  · exact .inl rfl

theorem writesExponent_readExponent (s : Text) : ∃ n, WritesExponent (readExponent s).1 n := by
  cases s with
  | nil => exact ⟨0, .none⟩
  | cons c s =>
    simp only [readExponent]
    split
    · next h =>
      obtain ⟨sign, hsign, hs⟩ := readSign_cases s
      have hread : (readSign s).1 = sign :=
        List.append_cancel_right ((readSign_split s).symm.trans hs)
      have hne : (readSign s).2.takeWhile Char.isDigit ≠ [] := by
        cases hd : (readSign s).2 with
        | nil =>
          rw [hd] at h
          cases h.2
        | cons d t =>
          rw [hd] at h
          have hdigit : d.isDigit = true := h.2
          simp [hdigit]
      rw [hread, List.cons_append]
      exact ⟨_, .some h.1 hsign hne fun a ha => List.all_eq_true.1 List.all_takeWhile a ha⟩
    · exact ⟨0, .none⟩

theorem readNumber_float {c : Char} {s v rest : Text} (hc : c.isDigit = true)
    (h : readNumber c s = (.float v, rest)) :
    ∃ w f e n, IsFloat w f e n ∧ v = w ++ (f ++ e) := by
  have hdigits : IsDigits (c :: s.takeWhile Char.isDigit) := by
    intro a ha
    rcases List.mem_cons.1 ha with rfl | ha
    · exact hc
    · exact List.all_eq_true.1 List.all_takeWhile a ha
  obtain ⟨n, hn⟩ := writesExponent_readExponent (readFraction (s.dropWhile Char.isDigit)).2
  have hl := congrArg Prod.fst h
  unfold readNumber at hl
  dsimp only at hl
  split at hl
  · cases hl
  · next hmarked =>
    cases hl
    exact ⟨_, _, _, n, ⟨hdigits, by simp, isFraction_readFraction _, hn, hmarked⟩,
      List.append_assoc _ _ _⟩

end Lexeme

namespace Source

theorem lexeme_float {c : Char} {s v rest : Text} (h : lexeme c s = (.ok (.float v), rest)) :
    ∃ w f e n, Lexeme.IsFloat w f e n ∧ v = w ++ (f ++ e) := by
  cases Form.of_eq h with
  | name hf hr =>
    obtain ⟨_, -, -, hv⟩ := Lexeme.readName_spec hf
    rw [hr] at hv
    rcases hv with ⟨-, hv⟩ | ⟨o, -, hv⟩
    · cases hv
    · cases hv
  | number hd hr => exact Lexeme.readNumber_float hd hr
  | radix hr =>
    obtain ⟨_, _, _, -, he⟩ := Lexeme.readRadix?_spec hr
    cases he

theorem float_of_next {s u : Source} {v : Text} (h : s.next = (.ok (.float v), u)) :
    ∃ w f e n, Lexeme.IsFloat w f e n ∧ v = w ++ (f ++ e) := by
  obtain ⟨c, t, rest, -, hlex, -⟩ := lexeme_of_next h rfl (by simp)
  exact lexeme_float hlex

end Source

namespace Lexeme.IsFloat

variable {w f e : Text} {n : ℤ}

theorem head (h : IsFloat w f e n) (s : Text) :
    ∃ c, (w ++ s).head? = some c ∧ c.isDigit = true := by
  obtain ⟨c, w, rfl⟩ := List.exists_cons_of_ne_nil h.nonempty
  exact ⟨c, rfl, h.digits c (by simp)⟩

theorem isDigits_tail (h : IsFloat w f e n) : IsDigits (w ++ f.tail) := by
  refine h.digits.append ?_
  rcases h.fraction with rfl | ⟨t, ht, rfl⟩
  · simp [IsDigits]
  · exact ht

/-- What is written is read and rounded, with the exponent as far as it is read. -/
theorem read? (h : IsFloat w f e n) : ∃ m, Curtails n m ∧
    Binary64.read? (w ++ (f ++ e)) = Binary64.ofDecimal? false (shown w f m) := by
  obtain ⟨c, hhead, hc⟩ := h.head (f ++ e)
  obtain ⟨m, hm, hcurtails⟩ := Decimal.readExponent?_written h.exponent
  refine ⟨m, hcurtails, ?_⟩
  rw [Binary64.read?_of_isDigit hhead hc,
    Decimal.read?_form h.digits h.nonempty h.fraction h.exponent.head, hm]
  rfl

theorem rounds_curtailed (h : IsFloat w f e n) : ∃ m, Curtails n m ∧
    Binary64.Rounds (shown w f m).value (Binary64.read? (w ++ (f ++ e))) := by
  obtain ⟨m, hcurtails, hread⟩ := h.read?
  exact ⟨m, hcurtails, hread ▸ Binary64.rounds_ofDecimal? _⟩

/-- Rounding is correct unless both the exponent and the text are of a size that does not
occur. -/
theorem rounds (h : IsFloat w f e n)
    (hsize : n.natAbs < 0x10000 ∨ (w ++ (f ++ e)).length ≤ 65000) :
    Binary64.Rounds (shown w f n).value (Binary64.read? (w ++ (f ++ e))) := by
  obtain ⟨m, hcurtails, hread⟩ := h.read?
  have hdigits : n.natAbs < 0x10000 ∨ (w ++ f.tail).length ≤ 65000 := by
    refine hsize.imp_right fun hlength => ?_
    simp only [List.length_append, List.length_tail] at hlength ⊢
    omega
  have hposition := Binary64.positionOf_curtailed h.isDigits_tail hcurtails hdigits
  rw [hread, Binary64.ofDecimal?_congr hposition]
  exact Binary64.rounds_ofDecimal? _

theorem negative (h : IsFloat w f e n) {x : Binary64}
    (hx : Binary64.read? (w ++ (f ++ e)) = some x) : x.negative = false := by
  obtain ⟨c, hhead, hc⟩ := h.head (f ++ e)
  exact Binary64.negative_of_read? hhead hc hx

end Lexeme.IsFloat

namespace TokenStream

theorem next_float {s u : Source} {v : Text} (h : s.next = (.ok (.float v), u)) (line : ℕ) :
    (⟨s, [], line⟩ : TokenStream).next =
      (match Binary64.read? v with
        | some x => .ok ⟨.float x, v⟩
        | none => .error ⟨.invalidFloat v, line⟩, ⟨u, [], line⟩) := by
  rw [next_script h rfl, convert, Lexeme.token, float?]
  cases Binary64.read? v with
  | none => rfl
  | some x => rfl

end TokenStream

structure ReadsAs (text rest : Text) (l : Lexeme) (t : Token) : Prop where
  lexeme : (Source.ofText .code (text ++ rest)).next = (.ok l, .ofText .code rest)
  token : ∀ line, (⟨.ofText .code (text ++ rest), [], line⟩ : TokenStream).next =
    (.ok ⟨t, text⟩, ⟨.ofText .code rest, [], line⟩)

/-- The printed form of a float is read as an integer if it is whole and below `10 ^ 15`, and as
the same float otherwise. -/
structure ReadsBack (x : Binary64) (text rest : Text) : Prop where
  whole : ∀ k : ℕ, x.value = k → k < 10 ^ 15 → ReadsAs text rest (.integer text) (.integer k)
  fraction : (¬ ∃ k : ℕ, x.value = k ∧ k < 10 ^ 15) →
    ReadsAs text rest (.float text) (.float x)

theorem readsBack_printed {x : Binary64} (hx : x.negative = false) {rest : Text}
    (hrest : ∀ c ∈ rest.head?, c.isDigit = false ∧ c ≠ '.') (he : ¬ BeginsExponent rest) :
    ReadsBack x (Token.float x).printed rest where
  whole := by
    intro k hk hlt
    have hw : x.IsWhole := (Binary64.isWhole_iff hx).2 ⟨k, hk, hlt⟩
    obtain rfl : k = x.whole := by exact_mod_cast hk.symm.trans (hw.value_eq hx)
    have hnext := Source.next_ofNat x.whole hrest he
    have hinteger : integer? (Text.ofNat x.whole) = .ok (x.whole : ℤ) := by
      rw [integer?, Text.ofNat, Integer.read?_toDigits (by omega)]
    rw [Token.printed_whole hx hw]
    refine ⟨hnext, fun line => ?_⟩
    change TokenStream.next ⟨.ofText .code (Text.ofNat x.whole ++ rest), [], line⟩ = _
    rw [TokenStream.next_integer hnext, hinteger]
    rfl
  fraction := by
    intro hnot
    have hw : ¬ x.IsWhole := fun hw => hnot ((Binary64.isWhole_iff hx).1 hw)
    obtain ⟨hnext, hback⟩ := Token.next_fraction hx hw (fun c hc => (hrest c hc).1) he
    refine ⟨hnext, fun line => ?_⟩
    rw [TokenStream.next_float hnext, hback]

/-- A float `v` read in front of `u`: its form, its value, when it is refused, and its printed
form. -/
structure KeepsFloat (s u : Source) (v w f e : Text) (n : ℤ) : Prop where
  form : Lexeme.IsFloat w f e n
  parts : v = w ++ (f ++ e)
  next : ∀ line, (⟨s, [], line⟩ : TokenStream).next =
    (match Binary64.read? v with
      | some x => .ok ⟨.float x, v⟩
      | none => .error ⟨.invalidFloat v, line⟩, ⟨u, [], line⟩)
  curtailed : ∃ m, Curtails n m ∧ Binary64.Rounds (shown w f m).value (Binary64.read? v)
  rounds : n.natAbs < 0x10000 ∨ v.length ≤ 65000 →
    Binary64.Rounds (shown w f n).value (Binary64.read? v)
  refused_iff : Binary64.Rounds (shown w f n).value (Binary64.read? v) →
    (Binary64.read? v = none ↔ 2 ^ 1024 - 2 ^ 970 ≤ (shown w f n).value)
  printed : ∀ x, Binary64.read? v = some x → ∀ (o : Options) (layout : Layout) (text rest : Text),
    layout.body o (.float x) = text → (∀ c ∈ rest.head?, c.isDigit = false ∧ c ≠ '.') →
    ¬ BeginsExponent rest → ReadsBack x text rest

/-- Floats keep their values. Each is rounded correctly or refused, and its printed form is read
back with the same value. -/
theorem floats_keep_values {s u : Source} {v : Text} (h : s.next = (.ok (.float v), u)) :
    ∃ w f e n, KeepsFloat s u v w f e n := by
  obtain ⟨w, f, e, n, hfloat, rfl⟩ := Source.float_of_next h
  refine ⟨w, f, e, n, hfloat, rfl, TokenStream.next_float h, hfloat.rounds_curtailed, hfloat.rounds,
    Binary64.Rounds.eq_none_iff, ?_⟩
  rintro x hread o layout _ rest rfl hrest he
  exact readsBack_printed (hfloat.negative hread) hrest he

/-- A float that is printed as an integer, one that is printed with an exponent, and one that is out
of range. -/
theorem floats_keep_values_large :
    (⟨.ofText .code "12500x".toList, [], 1⟩ : TokenStream).next =
        (.ok ⟨.integer (12500 : ℕ), "12500".toList⟩, ⟨.ofText .code ['x'], [], 1⟩) ∧
      (⟨.ofText .code "2.5E15e+".toList, [], 1⟩ : TokenStream).next =
        (.ok ⟨.float ⟨false, 0x4321c37937e08000, by decide⟩, "2.5E15".toList⟩,
          ⟨.ofText .code ['e', '+'], [], 1⟩) ∧
      (⟨.ofText .code "1.8e308".toList, [], 1⟩ : TokenStream).next =
        (.error ⟨.invalidFloat "1.8e308".toList, 1⟩, ⟨.ofText .code [], [], 1⟩) ∧
      ∃ w f e n, Lexeme.IsFloat w f e n ∧ "1.8e308".toList = w ++ (f ++ e) ∧
        2 ^ 1024 - 2 ^ 970 ≤ (shown w f n).value := by
  refine ⟨?_, ?_, ?_⟩
  · let x : Binary64 := ⟨false, 0x40c86a0000000000, by decide⟩
    have hscan : (Source.ofText .code "12.50E+3;".toList).next =
        (.ok (.float "12.50E+3".toList), .ofText .code [';']) := by decide +kernel
    have hread : Binary64.read? "12.50E+3".toList = some x := by decide +kernel
    have hprint : ({} : Layout).body {} (.float x) = "12500".toList := by decide +kernel
    have hw : x.IsWhole := by decide +kernel
    have hwhole : x.whole = 12500 := by decide +kernel
    have hvalue : x.value = (12500 : ℕ) := (hw.value_eq rfl).trans (congrArg Nat.cast hwhole)
    obtain ⟨_, _, _, _, hkeeps⟩ := floats_keep_values hscan
    have hletter : ¬ BeginsExponent ['x'] := Lexeme.not_beginsExponent (by simp)
    have hback := hkeeps.printed x hread _ _ _ ['x'] hprint (by simp) hletter
    exact (hback.whole 12500 hvalue (by decide)).token 1
  · let y : Binary64 := ⟨false, 0x4321c37937e08000, by decide⟩
    have hscan : (Source.ofText .code "25e14".toList).next =
        (.ok (.float "25e14".toList), .ofText .code []) := by decide +kernel
    have hread : Binary64.read? "25e14".toList = some y := by decide +kernel
    have hprint : ({} : Layout).body {} (.float y) = "2.5E15".toList := by decide +kernel
    have hw : ¬ y.IsWhole := by decide +kernel
    obtain ⟨_, _, _, _, hkeeps⟩ := floats_keep_values hscan
    have hexponent : ¬ BeginsExponent ['e', '+'] :=
      Lexeme.not_beginsExponent_sign (by decide) (by simp)
    have hback := hkeeps.printed y hread _ _ _ ['e', '+'] hprint (by simp) hexponent
    exact (hback.fraction fun hk => hw ((Binary64.isWhole_iff rfl).2 hk)).token 1
  · have hscan : (Source.ofText .code "1.8e308".toList).next =
        (.ok (.float "1.8e308".toList), .ofText .code []) := by decide +kernel
    have hread : Binary64.read? "1.8e308".toList = none := by decide +kernel
    obtain ⟨w, f, e, n, hkeeps⟩ := floats_keep_values hscan
    have hrefused := (hkeeps.refused_iff (hkeeps.rounds (.inr (by decide)))).1 hread
    refine ⟨?_, w, f, e, n, hkeeps.form, hkeeps.parts, hrefused⟩
    rw [hkeeps.next 1, hread]

end ClassicAsp
