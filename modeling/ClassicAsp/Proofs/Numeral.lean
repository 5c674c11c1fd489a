import ClassicAsp.Proofs.Page

/-! Integers from their spelling to their value. What is read as an integer is a numeral of one of
three bases; its value is exact or it is refused with its spelling; and the decimal form of a value
is read as that value, up to its end. -/
namespace ClassicAsp

open Integer (digitValue positional hexDigits)
open Lexeme (IsNumeral BeginsExponent)

theorem Lexeme.toLower_mem_hexDigits {c : Char} (h : isHexDigit c = true) :
    c.toLower ∈ hexDigits := by
  have hlt : c.toNat < 103 := by
    simp only [isHexDigit, Bool.or_eq_true, Bool.and_eq_true, decide_eq_true_eq,
      Decimal.isDigit_iff] at h
    rcases h with (h | ⟨-, h⟩) | ⟨-, h⟩
    · omega
    · have hle : c.toNat ≤ 102 := h
      omega
    · have hle : c.toNat ≤ 70 := h
      omega
  have hall : ∀ c : Char, c.toNat < 103 → isHexDigit c = true → c.toLower ∈ hexDigits :=
    Text.forall_char_lt (by decide)
  exact hall c hlt h

namespace Integer

theorem read?_numeral {base : ℕ} {d w : Text} (h : IsNumeral base d w) :
    read? w = signed? base (Text.lower d) := by
  cases h with
  | decimal hne hd => exact read?_isDigits hd hne
  | hex hm | octal hm => rcases hm with rfl | rfl <;> rfl

/-- A numeral has its positional value if its digits are all of its base and the value is in range.
-/
theorem integer?_numeral {base : ℕ} {d w : Text} (h : IsNumeral base d w) :
    integer? w = if (d.all fun c => digitValue c < base) ∧ positional base d < 2 ^ 63 then
      .ok (positional base d : ℤ) else .error (.invalidInteger w) := by
  have hdigits : ∀ c ∈ d, c.toLower ∈ hexDigits :=
    fun c hc => Lexeme.toLower_mem_hexDigits (h.isHexDigit c hc)
  rw [integer?, read?_numeral h, signed?_lower h.digits_ne_nil hdigits]
  by_cases hv : (d.all fun c => digitValue c < base) ∧ positional base d < 2 ^ 63
  · rw [if_pos hv, if_pos hv]
  · rw [if_neg hv, if_neg hv]

end Integer

namespace Source

theorem lexeme_integer {c : Char} {s w rest : Text} (h : lexeme c s = (.ok (.integer w), rest)) :
    ∃ base d, IsNumeral base d w := by
  cases Form.of_eq h with
  | name hf hr =>
    obtain ⟨v, -, -, hv⟩ := Lexeme.readName_spec hf
    rw [hr] at hv
    rcases hv with ⟨-, hv⟩ | ⟨o, -, hv⟩
    · cases hv
    · cases hv
  | number hd hr =>
    have hv := Lexeme.readNumber_spec (s := s) hd
    rw [hr] at hv
    rcases hv with ⟨v, hv, he⟩ | ⟨v, -, he⟩
    · cases he
      exact ⟨10, _, hv⟩
    · cases he
  | radix hr =>
    obtain ⟨base, d, v, hv, he⟩ := Lexeme.readRadix?_spec hr
    cases he
    exact ⟨base, d, hv⟩

theorem numeral_of_next {s u : Source} {w : Text} (h : s.next = (.ok (.integer w), u)) :
    ∃ base d, IsNumeral base d w := by
  obtain ⟨c, t, v, -, hlex, -⟩ := lexeme_of_next h rfl (by simp)
  exact lexeme_integer hlex

theorem next_ofNat (v : ℕ) {rest : Text} (hrest : ∀ c ∈ rest.head?, c.isDigit = false ∧ c ≠ '.')
    (he : ¬ BeginsExponent rest) : (ofText .code (Text.ofNat v ++ rest)).next =
      (.ok (.integer (Text.ofNat v)), ofText .code rest) := by
  have hpoint : rest.head? ≠ some '.' := fun h => (hrest '.' h).2 rfl
  have hnext := Token.next_number (Decimal.isDigits_toDigits v) Nat.toDigits_ne_nil (Or.inl rfl)
    (Or.inl rfl) (fun c hc => (hrest c hc).1) (fun _ _ => hpoint) (fun _ => he)
  rw [if_pos ⟨rfl, rfl⟩, List.append_nil, List.append_nil] at hnext
  exact hnext

end Source

namespace TokenStream

theorem next_integer {s u : Source} {w : Text} (h : s.next = (.ok (.integer w), u)) (line : ℕ) :
    (⟨s, [], line⟩ : TokenStream).next =
      (match integer? w with
        | .ok i => .ok ⟨.integer i, w⟩
        | .error f => .error ⟨f, line⟩, ⟨u, [], line⟩) := by
  rw [next_script h rfl, convert, Lexeme.token]
  cases integer? w with
  | error f => rfl
  | ok i => rfl

end TokenStream

/-- Integers are converted exactly or refused: a numeral has its positional value if that fits in 64
bits, and decimal forms are read back. -/
theorem integers_exact :
    (∀ (s u : Source) (w : Text), s.next = (.ok (.integer w), u) →
      ∃ base d, IsNumeral base d w ∧ ∀ line, (⟨s, [], line⟩ : TokenStream).next =
        (if (d.all fun c => digitValue c < base) ∧ positional base d < 2 ^ 63 then
          .ok ⟨.integer (positional base d), w⟩ else .error ⟨.invalidInteger w, line⟩,
        ⟨u, [], line⟩)) ∧
    (∀ i : ℤ, -2 ^ 63 ≤ i → i < 2 ^ 63 → integer? (Text.ofInt i) = .ok i) ∧
    ∀ (v : ℕ) (rest : Text), v < 2 ^ 63 →
      (∀ c ∈ rest.head?, c.isDigit = false ∧ c ≠ '.') → ¬ BeginsExponent rest →
      (Source.ofText .code (Text.ofNat v ++ rest)).next =
          (.ok (.integer (Text.ofNat v)), .ofText .code rest) ∧
        ∀ line, (⟨.ofText .code (Text.ofNat v ++ rest), [], line⟩ : TokenStream).next =
          (.ok ⟨.integer v, Text.ofNat v⟩, ⟨.ofText .code rest, [], line⟩) := by
  refine ⟨?_, ?_, ?_⟩
  · intro s u w h
    obtain ⟨base, d, hw⟩ := Source.numeral_of_next h
    refine ⟨base, d, hw, fun line => ?_⟩
    rw [TokenStream.next_integer h, Integer.integer?_numeral hw]
    by_cases hv : (d.all fun c => digitValue c < base) ∧ positional base d < 2 ^ 63
    · rw [if_pos hv, if_pos hv]
    · rw [if_neg hv, if_neg hv]
  · intro i hl hu
    rw [integer?, Integer.read?_ofInt hl hu]
  · intro v rest hv hrest he
    have hnext := Source.next_ofNat v hrest he
    refine ⟨hnext, fun line => ?_⟩
    have hread : integer? (Text.ofNat v) = .ok (v : ℤ) := by
      rw [integer?, Text.ofNat, Integer.read?_toDigits hv]
    rw [TokenStream.next_integer hnext, hread]

/-- An octal number with a digit beyond its base is refused, and a letter that begins no exponent
ends a number. -/
theorem integers_exact_octal :
    (⟨.ofText .code ['&', 'O', '1', '8', ' '], [], 1⟩ : TokenStream).next =
        (.error ⟨.invalidInteger ['&', 'O', '1', '8'], 1⟩, ⟨.ofText .code [' '], [], 1⟩) ∧
      integer? (Text.ofInt (-2 ^ 63)) = .ok (-2 ^ 63) ∧
      (⟨.ofText .code (Text.ofNat (2 ^ 63 - 1) ++ ['e', '+', 'x']), [], 1⟩ : TokenStream).next =
        (.ok ⟨.integer (2 ^ 63 - 1 : ℕ), Text.ofNat (2 ^ 63 - 1)⟩,
          ⟨.ofText .code ['e', '+', 'x'], [], 1⟩) := by
  refine ⟨?_, ?_, ?_⟩
  · obtain ⟨base, d, hw, hnext⟩ := integers_exact.1 (.ofText .code ['&', 'O', '1', '8', ' '])
      (.ofText .code [' ']) ['&', 'O', '1', '8'] rfl
    cases hw with
    | decimal _ hd => exact absurd (hd '&' (by simp)) (by decide)
    | hex hm => exact absurd hm (by decide)
    | octal =>
      rw [hnext 1, if_neg]
      intro h
      exact absurd h.1 (by decide)
  · exact integers_exact.2.1 _ (by omega) (by omega)
  · have hexponent : ¬ Lexeme.BeginsExponent ['e', '+', 'x'] :=
      Lexeme.not_beginsExponent_sign (by decide) (by simp)
    exact (integers_exact.2.2 _ _ (by omega) (by simp) hexponent).2 1

end ClassicAsp
