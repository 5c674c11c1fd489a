import ClassicAsp.Number
import ClassicAsp.Proofs.Text
import Mathlib.Algebra.Order.Field.Power
import Mathlib.Algebra.Order.Field.Rat
import Mathlib.Data.Nat.Cast.Order.Field
import Mathlib.Tactic.FieldSimp
import Mathlib.Tactic.Linarith
import Mathlib.Tactic.Ring

/-! Decimals as rational numbers. Both written forms are read back as a decimal of the same value,
which need not be the same decimal: trailing zeros move between coefficient and exponent. -/
namespace ClassicAsp.Decimal

def value (d : Decimal) : ℚ := d.coefficient * 10 ^ d.exponent

theorem value_nonneg (d : Decimal) : 0 ≤ d.value := by
  unfold value
  positivity

@[simp] theorem value_eq_zero_iff (d : Decimal) : d.value = 0 ↔ d.coefficient = 0 := by
  have h : (10 : ℚ) ^ d.exponent ≠ 0 := by positivity
  simp [value, h]

theorem isDigit_iff (c : Char) : c.isDigit = true ↔ 48 ≤ c.toNat ∧ c.toNat ≤ 57 := by
  simp only [Char.isDigit, Bool.and_eq_true, decide_eq_true_eq, ge_iff_le,
    UInt32.le_iff_toNat_le]
  rfl

def digitsValue (s : Text) : ℕ := Nat.ofDigitChars 10 s 0

def IsDigits (s : Text) : Prop := ∀ c ∈ s, c.isDigit = true

theorem IsDigits.append {s t : Text} (hs : IsDigits s) (ht : IsDigits t) : IsDigits (s ++ t) := by
  intro c hc
  rcases List.mem_append.1 hc with h | h
  · exact hs c h
  · exact ht c h

theorem isDigits_toDigits (n : ℕ) : IsDigits (Nat.toDigits 10 n) := by
  intro c hc
  exact Nat.isDigit_of_mem_toDigits (by decide) (by decide) hc

theorem isDigits_zeros (n : ℕ) : IsDigits (zeros n) := by
  intro c hc
  rw [List.eq_of_mem_replicate hc]
  rfl

@[simp] theorem digitsValue_append (s t : Text) :
    digitsValue (s ++ t) = 10 ^ t.length * digitsValue s + digitsValue t := by
  unfold digitsValue
  rw [Nat.ofDigitChars_append, Nat.ofDigitChars_eq_ofDigitChars_zero]

theorem digitsValue_lt {s : Text} (h : IsDigits s) : digitsValue s < 10 ^ s.length := by
  induction s with
  | nil => decide
  | cons c s ih =>
    have hs := ih (fun x hx => h x (by simp [hx]))
    have hc := (isDigit_iff c).1 (h c (by simp))
    have hv : digitsValue [c] = c.toNat - 48 := by simp [digitsValue, Nat.ofDigitChars_cons]
    have hle : 10 ^ s.length * (c.toNat - 48) ≤ 10 ^ s.length * 9 :=
      Nat.mul_le_mul_left _ (by omega)
    have happ := digitsValue_append [c] s
    rw [List.singleton_append, hv] at happ
    rw [happ, List.length_cons, pow_succ]
    omega

@[simp] theorem digitsValue_zeros (n : ℕ) : digitsValue (zeros n) = 0 := by
  simp [digitsValue, zeros]

@[simp] theorem digitsValue_digits (d : Decimal) : digitsValue d.digits = d.coefficient :=
  Nat.ofDigitChars_ten_toDigits

theorem digits_eq_significant (d : Decimal) : ∃ n, d.digits = d.significant ++ zeros n := by
  have h := List.takeWhile_append_dropWhile (p := (· == '0')) (l := d.digits.reverse)
  have hz : d.digits.reverse.takeWhile (· == '0') =
      zeros (d.digits.reverse.takeWhile (· == '0')).length := by
    apply List.eq_replicate_of_mem
    intro c hc
    simpa using List.all_eq_true.1 List.all_takeWhile c hc
  rw [hz] at h
  refine ⟨(d.digits.reverse.takeWhile (· == '0')).length, ?_⟩
  have hr := congrArg List.reverse h
  rw [List.reverse_append, List.reverse_reverse] at hr
  refine hr.symm.trans ?_
  simp [significant, zeros]

theorem isDigits_significant (d : Decimal) : IsDigits d.significant := by
  obtain ⟨n, h⟩ := d.digits_eq_significant
  intro c hc
  apply isDigits_toDigits d.coefficient
  change c ∈ d.digits
  rw [h]
  exact List.mem_append_left _ hc

theorem value_eq_significant (d : Decimal) :
    d.value = digitsValue d.significant * 10 ^ (d.point - d.significant.length) := by
  obtain ⟨n, h⟩ := d.digits_eq_significant
  have hc : d.coefficient = 10 ^ n * digitsValue d.significant := by
    rw [← digitsValue_digits, h, digitsValue_append, digitsValue_zeros]
    simp [zeros]
  have hp : d.point - d.significant.length = n + d.exponent := by
    unfold point
    rw [h]
    simp only [List.length_append, zeros, List.length_replicate]
    push_cast
    ring
  rw [hp, value, hc, zpow_add₀ (by norm_num), zpow_natCast]
  push_cast
  ring

@[simp] theorem significant_eq_nil_iff (d : Decimal) : d.significant = [] ↔ d.coefficient = 0 := by
  constructor
  · intro h
    have hv := d.value_eq_significant
    rw [h] at hv
    rw [← value_eq_zero_iff, hv]
    simp [digitsValue]
  · intro h
    rw [significant, digits, h, Nat.toDigits_zero]
    rfl

theorem significant_getLast (d : Decimal) : ∀ c ∈ d.significant.getLast?, c ≠ '0' := by
  intro c hc
  rw [significant, List.getLast?_reverse] at hc
  have h := List.head?_dropWhile_not (· == '0') d.digits.reverse
  rw [Option.mem_def.1 hc] at h
  simpa using h

theorem toDigits_mul_ten {m : ℕ} (hm : 0 < m) (k : ℕ) :
    Nat.toDigits 10 (m * 10 ^ k) = Nat.toDigits 10 m ++ zeros k := by
  induction k with
  | zero => simp [zeros]
  | succ k ih =>
    have hp : 0 < m * 10 ^ k := by positivity
    have h := Nat.toDigits_append_toDigits (b := 10) (by decide) hp (d := 0) (by decide)
    rw [show m * 10 ^ (k + 1) = 10 * (m * 10 ^ k) + 0 by ring, ← h, ih, Nat.toDigits_zero,
      List.append_assoc]
    congr 1
    simp [zeros, List.replicate_succ']

theorem significant_spec (d : Decimal) (hd : d.coefficient ≠ 0) :
    d.significant = Nat.toDigits 10 (digitsValue d.significant) ∧
      digitsValue d.significant % 10 ≠ 0 := by
  obtain ⟨n, h⟩ := d.digits_eq_significant
  have hc : d.coefficient = digitsValue d.significant * 10 ^ n := by
    rw [← digitsValue_digits, h, digitsValue_append, digitsValue_zeros]
    simp only [zeros, List.length_replicate]
    ring
  have hpos : 0 < digitsValue d.significant := by
    rcases Nat.eq_zero_or_pos (digitsValue d.significant) with h0 | h0
    · rw [h0, Nat.zero_mul] at hc
      exact absurd hc hd
    · exact h0
  constructor
  · have ht := toDigits_mul_ten hpos n
    rw [← hc] at ht
    exact List.append_cancel_right (h.symm.trans ht)
  · rcases List.eq_nil_or_concat d.significant with hs | ⟨s, c, hs⟩
    · exact absurd (d.significant_eq_nil_iff.1 hs) hd
    · have hne := d.significant_getLast c (by simp [hs])
      have hdig := d.isDigits_significant c (by simp [hs])
      rw [hs, List.concat_eq_append, digitsValue_append]
      have hv : digitsValue [c] = c.toNat - 48 := by simp [digitsValue, Nat.ofDigitChars_cons]
      have hb := (isDigit_iff c).1 hdig
      have h48 : c.toNat ≠ 48 := by
        intro h48
        exact hne (Char.toNat_inj.1 h48)
      simp only [List.length_singleton, pow_one, hv]
      omega

/-! The written forms: whole digits, then a fraction, then an exponent. -/

def IsFraction (s : Text) : Prop := s = [] ∨ ∃ t, IsDigits t ∧ s = '.' :: t

def IsExponent (s : Text) : Prop :=
  s = [] ∨ ∃ sign t, (sign = [] ∨ sign = ['-']) ∧ t ≠ [] ∧ IsDigits t ∧ s = 'E' :: (sign ++ t)

@[simp] theorem not_isDigit_point : Char.isDigit '.' = false := rfl

@[simp] theorem not_isDigit_exponent : Char.isDigit 'E' = false := rfl

theorem IsExponent.head {s : Text} (h : IsExponent s) :
    ∀ c ∈ s.head?, c.isDigit = false ∧ c ≠ '.' := by
  rcases h with rfl | ⟨sign, t, -, -, -, rfl⟩
  · simp
  · simp

theorem IsFraction.head_not_digit {f e : Text} (hf : IsFraction f)
    (he : ∀ c ∈ e.head?, c.isDigit = false) : ∀ c ∈ (f ++ e).head?, c.isDigit = false := by
  rcases hf with rfl | ⟨t, -, rfl⟩
  · exact he
  · simp

/-- The digits before and after the point count together, and the places after it lower the
exponent. -/
def shown (w f : Text) (n : ℤ) : Decimal := ⟨digitsValue (w ++ f.tail), n - f.tail.length⟩

theorem read?_form {w f e : Text} (hw : IsDigits w) (hne : w ≠ []) (hf : IsFraction f)
    (he : ∀ c ∈ e.head?, c.isDigit = false ∧ c ≠ '.') :
    read? (w ++ (f ++ e)) = (readExponent? e).map (shown w f) := by
  have hdigit : ∀ c ∈ e.head?, c.isDigit = false := fun c hc => (he c hc).1
  have ht := Text.takeWhile_append hw (hf.head_not_digit hdigit)
  have hd := Text.dropWhile_append hw (hf.head_not_digit hdigit)
  unfold read?
  rw [ht, hd]
  rcases hf with rfl | ⟨t, hdt, rfl⟩
  · have hwhole : shown w [] = fun n => ⟨digitsValue w, n⟩ := by
      funext n
      simp [shown]
    rw [hwhole]
    cases e with
    | nil => simp [hne, digitsValue]
    | cons c e =>
      have hc : c ≠ '.' := (he c rfl).2
      simp [hne, hc, digitsValue]
  · have hplaces : shown w ('.' :: t) = fun n => ⟨digitsValue (w ++ t), n - t.length⟩ := rfl
    simp only [List.cons_append, Text.takeWhile_append hdt hdigit,
      Text.dropWhile_append hdt hdigit]
    simp [hne, hplaces, digitsValue]

theorem le_digitsFold (s : Text) (n : ℕ) : n ≤ Nat.ofDigitChars 10 s n := by
  rw [Nat.ofDigitChars_eq_ofDigitChars_zero]
  have : 1 * n ≤ 10 ^ s.length * n := Nat.mul_le_mul_right n (Nat.one_le_pow _ _ (by decide))
  omega

/-- An exponent that is not read in full is past the limit, and read as no larger than it is. -/
theorem exponentFold_cases (s : Text) (n : ℕ) {m : ℕ}
    (h : s.foldl (fun n c => if n < 0x10000 then 10 * n + (c.toNat - '0'.toNat) else n) n = m) :
    m = Nat.ofDigitChars 10 s n ∨ (0x10000 ≤ m ∧ m ≤ Nat.ofDigitChars 10 s n) := by
  induction s generalizing n with
  | nil => simp [← h]
  | cons c s ih =>
    rw [List.foldl_cons] at h
    by_cases hn : n < 0x10000
    · rw [if_pos hn] at h
      rw [Nat.ofDigitChars_cons]
      exact ih _ h
    · rw [if_neg hn] at h
      have hstop : m = n := by
        refine h.symm.trans ?_
        clear h ih
        induction s with
        | nil => rfl
        | cons a s ih => rw [List.foldl_cons, if_neg hn, ih]
      rw [hstop]
      exact .inr ⟨not_lt.1 hn, le_digitsFold (c :: s) n⟩

theorem head_toDigits {n : ℕ} : ∃ c s, Nat.toDigits 10 n = c :: s ∧ c.isDigit = true := by
  cases h : Nat.toDigits 10 n with
  | nil => exact absurd h Nat.toDigits_ne_nil
  | cons c s => exact ⟨c, s, rfl, isDigits_toDigits n c (by simp [h])⟩

theorem isExponent_ofInt (i : ℤ) : IsExponent ('E' :: Text.ofInt i) := by
  refine Or.inr ?_
  unfold Text.ofInt
  split
  · exact ⟨['-'], _, Or.inr rfl, Nat.toDigits_ne_nil, isDigits_toDigits _, rfl⟩
  · exact ⟨[], _, Or.inl rfl, Nat.toDigits_ne_nil, isDigits_toDigits _, rfl⟩

theorem sign_of_isDigit {c : Char} (hc : c.isDigit = true) (s : Text) :
    sign (c :: s) = (false, c :: s) := by
  unfold sign
  split
  · next h => cases h; simp at hc
  · next h => cases h; simp at hc
  · rfl

inductive WritesExponent : Text → ℤ → Prop where
  | none : WritesExponent [] 0
  | some {mark : Char} {sign d : Text} (hmark : mark = 'e' ∨ mark = 'E')
      (hsign : sign = [] ∨ sign = ['+'] ∨ sign = ['-']) (hne : d ≠ []) (hd : IsDigits d) :
      WritesExponent (mark :: (sign ++ d))
        (if sign = ['-'] then -(digitsValue d : ℤ) else digitsValue d)

theorem WritesExponent.head {s : Text} {n : ℤ} (h : WritesExponent s n) :
    ∀ c ∈ s.head?, c.isDigit = false ∧ c ≠ '.' := by
  cases h with
  | none => simp
  | some hmark => rcases hmark with rfl | rfl <;> simp [Char.isDigit]

theorem writesExponent_ofInt (i : ℤ) : WritesExponent ('E' :: Text.ofInt i) i := by
  have hd := isDigits_toDigits i.natAbs
  have hv : digitsValue (Nat.toDigits 10 i.natAbs) = i.natAbs := Nat.ofDigitChars_ten_toDigits
  by_cases hi : i < 0
  · have h := @WritesExponent.some 'E' ['-'] _ (.inr rfl) (.inr (.inr rfl)) Nat.toDigits_ne_nil hd
    rw [if_pos rfl, hv, show -(i.natAbs : ℤ) = i by omega] at h
    rwa [Text.ofInt, if_pos hi]
  · have h := @WritesExponent.some 'E' [] _ (.inr rfl) (.inl rfl) Nat.toDigits_ne_nil hd
    rw [if_neg (by simp), hv, show (i.natAbs : ℤ) = i by omega] at h
    rwa [Text.ofInt, if_neg hi]

/-- What an exponent is read as, which is the same unless it is past the limit on either side. -/
def Curtails (n m : ℤ) : Prop := m = n ∨ (0x10000 ≤ m ∧ m ≤ n) ∨ (m ≤ -0x10000 ∧ n ≤ m)

theorem Curtails.eq {n m : ℤ} (h : Curtails n m) (hn : n.natAbs < 0x10000) : m = n := by
  rcases h with h | h | h <;> omega

theorem sign_append {s d : Text} (hs : s = [] ∨ s = ['+'] ∨ s = ['-']) (hne : d ≠ [])
    (hd : IsDigits d) : sign (s ++ d) = (decide (s = ['-']), d) := by
  obtain ⟨c, d, rfl⟩ := List.exists_cons_of_ne_nil hne
  rcases hs with rfl | rfl | rfl
  · exact sign_of_isDigit (hd c (by simp)) d
  · rfl
  · rfl

theorem readExponent?_written {s : Text} {n : ℤ} (h : WritesExponent s n) :
    ∃ m, readExponent? s = some m ∧ Curtails n m := by
  cases h with
  | none => exact ⟨0, rfl, .inl rfl⟩
  | @some mark s d hmark hsign hne hd =>
    have hdigits : d ≠ [] ∧ d.all Char.isDigit = true := ⟨hne, List.all_eq_true.2 hd⟩
    have hread : readExponent? (mark :: (s ++ d)) =
        some (if s = ['-'] then -(exponentOf d : ℤ) else exponentOf d) := by
      rw [readExponent?, if_pos hmark, sign_append hsign hne hd]
      dsimp only
      rw [if_pos hdigits]
      simp
    refine ⟨_, hread, ?_⟩
    have hcases := exponentFold_cases d 0 (m := exponentOf d) rfl
    change exponentOf d = digitsValue d ∨ (_ ∧ exponentOf d ≤ digitsValue d) at hcases
    unfold Curtails
    split <;> omega

theorem readExponent?_ofInt {i : ℤ} (h : i.natAbs < 0x10000) :
    readExponent? ('E' :: Text.ofInt i) = some i := by
  obtain ⟨m, hm, hcurtails⟩ := readExponent?_written (writesExponent_ofInt i)
  rw [hm, hcurtails.eq h]

/-- The positional form, together with the value it shows. -/
theorem positional_form (d : Decimal) :
    ∃ w f, IsDigits w ∧ w ≠ [] ∧ IsFraction f ∧ d.positional = w ++ f ∧
      (digitsValue (w ++ f.tail) : ℚ) * 10 ^ (-(f.tail.length : ℤ)) = d.value := by
  have hs := d.isDigits_significant
  have hv := d.value_eq_significant
  have h0 : IsDigits ['0'] := isDigits_zeros 1
  unfold positional
  dsimp only
  -- no digits, and then the point before all digits, behind them or among them
  split_ifs with hnil hpoint hlen
  · refine ⟨['0'], [], h0, by simp, Or.inl rfl, rfl, ?_⟩
    rw [hv, hnil]
    simp [digitsValue, Nat.ofDigitChars_cons]
  · refine ⟨['0'], _, h0, by simp, Or.inr ⟨_, (isDigits_zeros _).append hs, rfl⟩, rfl, ?_⟩
    have hz : digitsValue (['0'] ++ (zeros (-d.point).toNat ++ d.significant)) =
        digitsValue d.significant := by
      rw [← List.append_assoc, digitsValue_append]
      have := digitsValue_zeros ((-d.point).toNat + 1)
      rw [zeros, List.replicate_succ] at this
      simp only [zeros, List.singleton_append, this, Nat.mul_zero, Nat.zero_add]
    rw [hv, List.tail_cons, hz]
    congr 2
    simp only [zeros, List.length_append, List.length_replicate]
    omega
  · refine ⟨_, [], hs.append (isDigits_zeros _), by simp [hnil], Or.inl rfl,
      (List.append_nil _).symm, ?_⟩
    obtain ⟨k, hk⟩ : ∃ k : ℕ, d.point - d.significant.length = k :=
      ⟨(d.point - d.significant.length).toNat, by omega⟩
    have hlen : (zeros k).length = k := List.length_replicate
    rw [hv, hk, zpow_natCast, Int.toNat_natCast, List.tail_nil, List.append_nil,
      digitsValue_append, digitsValue_zeros, hlen]
    push_cast
    simp [mul_comm]
  · refine ⟨_, _, fun c hc => hs c (List.mem_of_mem_take hc), ?_,
      Or.inr ⟨_, fun c hc => hs c (List.mem_of_mem_drop hc), rfl⟩, rfl, ?_⟩
    · intro h
      rcases List.take_eq_nil_iff.1 h with h | h
      · omega
      · exact hnil h
    · rw [List.tail_cons, List.take_append_drop, hv]
      congr 2
      simp only [List.length_drop]
      omega

theorem positional_of_value {d : Decimal} {n : ℕ} (h : d.value = n) :
    d.positional = Nat.toDigits 10 n := by
  have hv := d.value_eq_significant
  unfold positional
  dsimp only
  by_cases hc : d.coefficient = 0
  · have hn : n = 0 := by
      have := (value_eq_zero_iff d).2 hc
      rw [h] at this
      exact_mod_cast this
    rw [(significant_eq_nil_iff d).2 hc, if_pos rfl, hn, Nat.toDigits_zero]
  · obtain ⟨hs, hmod⟩ := d.significant_spec hc
    have hnil : d.significant ≠ [] := fun h => hc (d.significant_eq_nil_iff.1 h)
    -- a point among the significant digits or before them would make the last of them a zero
    have hlen : (d.significant.length : ℤ) ≤ d.point := by
      by_contra hlt
      obtain ⟨k, hk⟩ : ∃ k : ℕ, (d.significant.length : ℤ) - d.point = k + 1 :=
        ⟨(d.significant.length - d.point - 1).toNat, by omega⟩
      have hp : d.point - d.significant.length = -((k + 1 : ℕ) : ℤ) := by push_cast; omega
      rw [h, hp, zpow_neg, zpow_natCast] at hv
      have hq : (n : ℚ) * 10 ^ (k + 1) = digitsValue d.significant := by
        rw [hv]
        field_simp
      have hn : n * 10 ^ (k + 1) = digitsValue d.significant := by exact_mod_cast hq
      rw [← hn, pow_succ, ← mul_assoc] at hmod
      exact hmod (Nat.mul_mod_left _ _)
    have hpos : 0 < digitsValue d.significant := by omega
    have hpl : 0 < d.significant.length := List.length_pos_iff.2 hnil
    obtain ⟨k, hk⟩ : ∃ k : ℕ, d.point - d.significant.length = k :=
      ⟨(d.point - d.significant.length).toNat, by omega⟩
    rw [if_neg hnil, if_neg (by omega), if_pos hlen]
    rw [h, hk, zpow_natCast] at hv
    have hn : n = digitsValue d.significant * 10 ^ k := by exact_mod_cast hv
    rw [hn, toDigits_mul_ten hpos, ← hs, hk, Int.toNat_natCast]

theorem read?_positional (d : Decimal) :
    ∃ e, read? d.positional = some e ∧ e.value = d.value := by
  obtain ⟨w, f, hw, hne, hf, ht, hv⟩ := d.positional_form
  have h := read?_form hw hne hf (e := []) (by simp)
  rw [List.append_nil, ← ht] at h
  exact ⟨_, h, by simpa [value, shown] using hv⟩

theorem scientific_form {d : Decimal} (hd : d.coefficient ≠ 0) :
    ∃ c f, c.isDigit = true ∧ IsFraction f ∧
      d.scientific = [c] ++ (f ++ 'E' :: Text.ofInt (d.point - 1)) ∧
      (digitsValue ([c] ++ f.tail) : ℚ) * 10 ^ (d.point - 1 - f.tail.length) = d.value := by
  have hs := d.isDigits_significant
  have hv := d.value_eq_significant
  unfold scientific
  split
  · next h => exact absurd (d.significant_eq_nil_iff.1 h) hd
  · next c h =>
    rw [h] at hs hv
    exact ⟨c, [], hs c (by simp), Or.inl rfl, rfl, by simpa using hv.symm⟩
  · next c s hs' h =>
    rw [h] at hs hv
    refine ⟨c, '.' :: s, hs c (by simp), Or.inr ⟨s, fun x hx => hs x (by simp [hx]), rfl⟩,
      by simp, ?_⟩
    rw [hv]
    simp only [List.tail_cons, List.singleton_append, List.length_cons]
    congr 2
    push_cast
    ring

theorem read?_scientific {d : Decimal} (hd : d.coefficient ≠ 0)
    (hp : (d.point - 1).natAbs < 0x10000) :
    ∃ e, read? d.scientific = some e ∧ e.value = d.value := by
  obtain ⟨c, f, hc, hf, ht, hv⟩ := scientific_form hd
  have hw : IsDigits [c] := by
    intro x hx
    rw [List.mem_singleton.1 hx]
    exact hc
  have h := read?_form hw (by simp) hf (isExponent_ofInt (d.point - 1)).head
  rw [← ht, readExponent?_ofInt hp] at h
  exact ⟨_, h, hv⟩

end ClassicAsp.Decimal
