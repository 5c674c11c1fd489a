import ClassicAsp.Number
import ClassicAsp.Proofs.Number.Decimal
import Mathlib.Tactic.LinearCombination
import Mathlib.Tactic.NormNum

/-! Rounding decimals to binary numbers. The position depends on the value of a decimal alone, a
magnitude is nearest to itself, and what is printed is read back as the same number. A whole
number below `10 ^ 15` is printed with its digits alone. -/
namespace ClassicAsp.Binary64

open Decimal (value)

theorem roundDiv_scale (num den : ℕ) {k : ℕ} (hk : 0 < k) :
    roundDiv (num * k) (den * k) = roundDiv num den := by
  have hq : num * k / (den * k) = num / den := Nat.mul_div_mul_right _ _ hk
  have hr : num * k % (den * k) = num % den * k := Nat.mul_mod_mul_right _ _ _
  have h1 : 2 * (num % den * k) < den * k ↔ 2 * (num % den) < den := by
    rw [← mul_assoc]
    exact Nat.mul_lt_mul_right hk
  have h2 : 2 * (num % den * k) = den * k ↔ 2 * (num % den) = den := by
    rw [← mul_assoc]
    exact Nat.mul_left_inj (by omega)
  simp only [roundDiv, hq, hr, h1, h2]

theorem nearestPosition_scale (num den : ℕ) {k : ℕ} (hk : 0 < k) :
    nearestPosition (num * k) (den * k) = nearestPosition num den := by
  unfold nearestPosition
  simp only [Nat.mul_div_mul_right _ _ hk, mul_right_comm den k, roundDiv_scale _ _ hk]

theorem nearestPosition_congr {a b c d : ℕ} (hb : 0 < b) (hd : 0 < d) (h : a * d = c * b) :
    nearestPosition a b = nearestPosition c d := by
  rw [← nearestPosition_scale a b hd, h, mul_comm b d, nearestPosition_scale c d hb]

theorem ten_pow_toNat (e : ℤ) : (10 : ℚ) ^ e * 10 ^ (-e).toNat = 10 ^ e.toNat := by
  rw [← zpow_natCast, ← zpow_natCast, ← zpow_add₀ (by norm_num)]
  congr 1
  omega

theorem point_le_iff {d : Decimal} (hd : d.coefficient ≠ 0) (p : ℤ) :
    d.point ≤ p ↔ d.value < 10 ^ p := by
  have hl : 0 < d.digits.length := Nat.length_toDigits_pos
  have hc : (1 : ℚ) ≤ d.coefficient := by exact_mod_cast Nat.one_le_iff_ne_zero.2 hd
  have he : (0 : ℚ) < 10 ^ d.exponent := by positivity
  have hp : (10 : ℚ) ^ p = 10 ^ (p - d.exponent) * 10 ^ d.exponent := by
    rw [← zpow_add₀ (by norm_num)]
    congr 1
    omega
  rw [value, hp, mul_lt_mul_iff_left₀ he, Decimal.point]
  rcases le_or_gt p d.exponent with h | h
  · have h1 : (10 : ℚ) ^ (p - d.exponent) ≤ 1 := zpow_le_one_of_nonpos₀ (by norm_num) (by omega)
    constructor
    · intro
      omega
    · intro
      linarith
  · obtain ⟨k, hk⟩ : ∃ k : ℕ, p - d.exponent = k := ⟨(p - d.exponent).toNat, by omega⟩
    have hlen := Nat.length_toDigits_le_iff (b := 10) (n := d.coefficient) (k := k) (by decide)
      (by omega)
    rw [hk, zpow_natCast]
    constructor
    · intro hle
      have : d.digits.length ≤ k := by omega
      exact_mod_cast hlen.1 this
    · intro hlt
      have : d.digits.length ≤ k := hlen.2 (by exact_mod_cast hlt)
      omega

theorem point_congr {d e : Decimal} (hd : d.coefficient ≠ 0) (h : d.value = e.value) :
    d.point = e.point := by
  have he : e.coefficient ≠ 0 := by
    rw [ne_eq, ← Decimal.value_eq_zero_iff, ← h, Decimal.value_eq_zero_iff]
    exact hd
  apply le_antisymm
  · rw [point_le_iff hd, h, ← point_le_iff he]
  · rw [point_le_iff he, ← h, ← point_le_iff hd]

theorem positionOf_congr {d e : Decimal} (h : d.value = e.value) : positionOf d = positionOf e := by
  by_cases hd : d.coefficient = 0
  · have he : e.coefficient = 0 := by
      rw [← Decimal.value_eq_zero_iff, ← h, Decimal.value_eq_zero_iff]
      exact hd
    simp [positionOf, hd, he]
  · have he : e.coefficient ≠ 0 := by
      rw [ne_eq, ← Decimal.value_eq_zero_iff, ← h, Decimal.value_eq_zero_iff]
      exact hd
    unfold positionOf
    simp only [hd, he, false_or, point_congr hd h]
    split_ifs
    · rfl
    · rfl
    · simp only [Nat.pow_eq]
      apply nearestPosition_congr (by positivity) (by positivity)
      have h1 := ten_pow_toNat d.exponent
      have h2 := ten_pow_toNat e.exponent
      have hq : (d.coefficient : ℚ) * 10 ^ d.exponent.toNat * 10 ^ (-e.exponent).toNat =
          e.coefficient * 10 ^ e.exponent.toNat * 10 ^ (-d.exponent).toNat := by
        unfold value at h
        rw [← h1, ← h2]
        linear_combination (10 : ℚ) ^ (-d.exponent).toNat * 10 ^ (-e.exponent).toNat * h
      have hn : d.coefficient * 10 ^ d.exponent.toNat * 10 ^ (-e.exponent).toNat =
          e.coefficient * 10 ^ e.exponent.toNat * 10 ^ (-d.exponent).toNat := by exact_mod_cast hq
      linear_combination 2 ^ unitBits * hn

theorem binade_pos : 0 < binade := by decide

/-- The place of a magnitude within its binade and the binade determine its units. -/
theorem units_eq (x : Binary64) :
    (x.position < 2 * binade ∧ x.units = x.position) ∨
      ∃ s m, 1 ≤ s ∧ binade ≤ m ∧ m < 2 * binade ∧ x.position = s * binade + m ∧
        x.units = m * 2 ^ s := by
  have hb := binade_pos
  by_cases h : x.position < 2 * binade
  · left
    have hq : x.position / binade - 1 = 0 := by
      have := (Nat.div_lt_iff_lt_mul hb).2 h
      omega
    refine ⟨h, ?_⟩
    simp [units, hq]
  · right
    have hm := Nat.div_add_mod x.position binade
    have hlt := Nat.mod_lt x.position hb
    have hq : 2 ≤ x.position / binade := (Nat.le_div_iff_mul_le hb).2 (by omega)
    obtain ⟨s, hs⟩ : ∃ s, x.position / binade = s + 1 := ⟨x.position / binade - 1, by omega⟩
    have hp : x.position = s * binade + (binade + x.position % binade) := by
      rw [hs] at hm
      linarith
    refine ⟨s, binade + x.position % binade, by omega, by omega, by omega, hp, ?_⟩
    unfold units
    dsimp only
    rw [hs, Nat.add_sub_cancel, Nat.pow_eq]
    congr 1
    omega

theorem roundDiv_exact (m den : ℕ) (hd : 0 < den) : roundDiv (m * den) den = m := by
  simp [roundDiv, Nat.mul_div_cancel _ hd, hd]

/-- A magnitude is its own nearest. -/
theorem nearestPosition_units (x : Binary64) (den : ℕ) (hd : 0 < den) :
    nearestPosition (x.units * den) den = x.position := by
  have hs := nearestPosition_scale x.units 1 hd
  rw [Nat.one_mul] at hs
  rw [hs]
  unfold nearestPosition
  simp only [Nat.div_one, Nat.pow_eq, Nat.one_mul]
  rcases x.units_eq with ⟨hlt, hu⟩ | ⟨s, m, -, hm, hm2, hp, hu⟩
  · have hl : Nat.log2 x.units - 52 = 0 := by
      rcases Nat.eq_zero_or_pos x.position with h0 | h0
      · rw [hu, h0]
        rfl
      · have : Nat.log2 x.units < 53 := by
          rw [Nat.log2_lt (by omega), hu]
          exact hlt
        omega
    have := roundDiv_exact x.position 1 (by decide)
    rw [hl, hu]
    simpa using this
  · have hl : Nat.log2 x.units - 52 = s := by
      have h2 : 0 < 2 ^ s := by positivity
      have hne : x.units ≠ 0 := by
        rw [hu]
        exact Nat.mul_ne_zero (by have := binade_pos; omega) (by omega)
      have h1 : 52 + s ≤ Nat.log2 x.units := by
        rw [Nat.le_log2 hne, hu, pow_add]
        exact Nat.mul_le_mul_right _ hm
      have h3 : Nat.log2 x.units < 53 + s := by
        rw [Nat.log2_lt hne, hu, pow_add]
        exact Nat.mul_lt_mul_of_pos_right hm2 h2
      omega
    rw [hl, hu, roundDiv_exact m _ (by positivity), hp]

theorem exists_units_eq {w : ℕ} (hw : w < 2 ^ 53) :
    ∃ x : Binary64, x.negative = false ∧ x.units = w * 2 ^ unitBits := by
  rcases Nat.eq_zero_or_pos w with rfl | hpos
  · refine ⟨⟨false, 0, by decide⟩, rfl, ?_⟩
    simp [units]
  · have hl := Nat.log2_self_le (show w ≠ 0 by omega)
    have hu := Nat.lt_log2_self (n := w)
    have hk : Nat.log2 w ≤ 52 := by
      have := (Nat.log2_lt (show w ≠ 0 by omega)).2 hw
      omega
    obtain ⟨k, hk'⟩ : ∃ k, k + Nat.log2 w = 52 := ⟨52 - Nat.log2 w, by omega⟩
    have hlow : binade ≤ w * 2 ^ k := by
      calc binade = 2 ^ Nat.log2 w * 2 ^ k := by rw [← pow_add, Nat.add_comm, hk']; rfl
        _ ≤ w * 2 ^ k := Nat.mul_le_mul_right _ hl
    have hhigh : w * 2 ^ k < 2 * binade := by
      calc w * 2 ^ k < 2 ^ (Nat.log2 w + 1) * 2 ^ k :=
            Nat.mul_lt_mul_of_pos_right hu (by positivity)
        _ = 2 * binade := by
          rw [← pow_add, show Nat.log2 w + 1 + k = 53 by omega]
          rfl
    have hb := binade_pos
    have hs : (Nat.log2 w + 1022) * binade ≤ 1074 * binade := Nat.mul_le_mul_right _ (by omega)
    have hlim : limit = 2047 * binade := rfl
    refine ⟨⟨false, (Nat.log2 w + 1022) * binade + w * 2 ^ k, by omega⟩, rfl, ?_⟩
    have hq : ((Nat.log2 w + 1022) * binade + w * 2 ^ k) / binade = Nat.log2 w + 1022 + 1 := by
      rw [Nat.mul_comm, Nat.mul_add_div hb]
      congr 1
      exact Nat.div_eq_of_lt_le (by omega) (by omega)
    unfold units
    simp only [hq, Nat.add_sub_cancel, Nat.add_sub_cancel_left, Nat.pow_eq]
    have hbits : k + (Nat.log2 w + 1022) = unitBits := by
      unfold unitBits
      omega
    rw [mul_assoc, ← pow_add, hbits]

theorem units_congr {x y : Binary64} (h : x.position = y.position) : x.units = y.units := by
  unfold units
  rw [h]

/-- Within the range of the points, rounding is a matter of the quotient. -/
theorem positionOf_eq_nearest {d : Decimal} (hd : d.coefficient ≠ 0) (hl : -330 ≤ d.point)
    (hu : d.point ≤ 310) {num den : ℕ} (hden : 0 < den)
    (hv : d.value * 2 ^ unitBits * den = num) : positionOf d = nearestPosition num den := by
  rw [positionOf, if_neg (by omega), if_neg (by omega)]
  simp only [Nat.pow_eq]
  apply nearestPosition_congr (by positivity) hden
  have ht := ten_pow_toNat d.exponent
  rw [← Nat.cast_inj (R := ℚ)]
  push_cast
  rw [← hv, ← ht, value]
  ring

theorem positionOf_natCast {d : Decimal} {w : ℕ} (hv : d.value = w) (hw : w < 2 ^ 53) :
    ∃ x : Binary64, positionOf d = x.position ∧ x.units = w * 2 ^ unitBits := by
  obtain ⟨x, -, hx⟩ := exists_units_eq hw
  refine ⟨x, ?_, hx⟩
  by_cases hd : d.coefficient = 0
  · have hw0 : w = 0 := by
      have := (Decimal.value_eq_zero_iff d).2 hd
      rw [hv] at this
      exact_mod_cast this
    have hp := nearestPosition_units x 1 (by decide)
    rw [hx, hw0, Nat.zero_mul, Nat.zero_mul] at hp
    rw [positionOf, if_pos (Or.inl hd), ← hp]
    rfl
  · have hw0 : 1 ≤ w := by
      rw [← Decimal.value_eq_zero_iff, hv] at hd
      exact Nat.one_le_iff_ne_zero.2 (by exact_mod_cast hd)
    have hl : ¬ d.point ≤ 0 := by
      rw [point_le_iff hd, hv, zpow_zero, not_lt]
      exact_mod_cast hw0
    have hu : d.point ≤ 16 := by
      rw [point_le_iff hd, hv]
      have : w < 10 ^ 16 := lt_trans hw (by norm_num)
      exact_mod_cast this
    have hn := nearestPosition_units x 1 (by decide)
    rw [hx] at hn
    rw [← hn]
    apply positionOf_eq_nearest hd (by omega) (by omega) (by decide)
    rw [hv]
    push_cast
    ring

theorem two_pow_unitBits_pos : (0 : ℚ) < 2 ^ unitBits := by positivity

theorem exact_value (x : Binary64) : x.exact.value = x.units / 2 ^ unitBits := by
  have h : (10 : ℚ) ^ unitBits = 5 ^ unitBits * 2 ^ unitBits := by
    rw [← mul_pow]
    norm_num
  unfold value exact
  simp only [Nat.pow_eq]
  rw [zpow_neg, zpow_natCast, h]
  push_cast
  field_simp

theorem units_lt (x : Binary64) : ∃ s, s ≤ 2046 ∧ x.units < 2 ^ (53 + s) := by
  have hf := x.finite
  have hlim : limit = 2047 * binade := rfl
  have hb : 2 * binade = 2 ^ 53 := rfl
  rcases x.units_eq with ⟨hlt, hu⟩ | ⟨s, m, -, -, hm, hp, hu⟩
  · exact ⟨0, by decide, by omega⟩
  · refine ⟨s, ?_, ?_⟩
    · by_contra hlt
      have : 2047 * binade ≤ s * binade := Nat.mul_le_mul_right _ (by omega)
      omega
    · rw [hu, pow_add]
      exact Nat.mul_lt_mul_of_pos_right (by omega) (by positivity)

theorem exact_point {x : Binary64} (h : x.units ≠ 0) :
    x.exact.coefficient ≠ 0 ∧ -330 ≤ x.exact.point ∧ x.exact.point ≤ 310 := by
  have hpos : (1 : ℚ) ≤ x.units := by exact_mod_cast Nat.one_le_iff_ne_zero.2 h
  have hv := x.exact_value
  have hc : x.exact.coefficient ≠ 0 := by
    rw [ne_eq, ← Decimal.value_eq_zero_iff, hv]
    positivity
  refine ⟨hc, ?_, ?_⟩
  · have hnot : ¬ x.exact.point ≤ -331 := by
      rw [point_le_iff hc, hv, not_lt, zpow_neg, le_div_iff₀ two_pow_unitBits_pos]
      have hb : 2 ^ unitBits ≤ 10 ^ 331 := by decide +kernel
      have hq : (2 : ℚ) ^ unitBits ≤ (10 : ℚ) ^ (331 : ℤ) := by exact_mod_cast hb
      calc ((10 : ℚ) ^ (331 : ℤ))⁻¹ * 2 ^ unitBits ≤ 1 := by
            rw [inv_mul_le_iff₀ (by positivity), mul_one]
            exact hq
        _ ≤ x.units := hpos
    omega
  · obtain ⟨s, hs, hlt⟩ := x.units_lt
    rw [point_le_iff hc, hv, div_lt_iff₀ two_pow_unitBits_pos]
    obtain ⟨n, hn⟩ : ∃ n, n = 53 + 2046 := ⟨_, rfl⟩
    have hb : 2 ^ n ≤ 10 ^ 310 * 2 ^ unitBits := by
      rw [hn]
      decide +kernel
    have hn : x.units < 10 ^ 310 * 2 ^ unitBits :=
      calc x.units < 2 ^ (53 + s) := hlt
        _ ≤ 2 ^ n := Nat.pow_le_pow_right (by decide) (by omega)
        _ ≤ 10 ^ 310 * 2 ^ unitBits := hb
    exact_mod_cast hn

@[simp] theorem positionOf_exact (x : Binary64) : positionOf x.exact = x.position := by
  by_cases h : x.units = 0
  · have hp := nearestPosition_units x 1 (by decide)
    rw [h, Nat.zero_mul] at hp
    have hc : x.exact.coefficient = 0 := by
      rw [← Decimal.value_eq_zero_iff, exact_value, h]
      simp
    rw [positionOf, if_pos (Or.inl hc), ← hp]
    rfl
  · obtain ⟨hc, hl, hu⟩ := exact_point h
    rw [← nearestPosition_units x 1 (by decide)]
    apply positionOf_eq_nearest hc hl hu (by decide)
    rw [exact_value]
    have := two_pow_unitBits_pos
    field_simp
    push_cast
    ring

@[simp] theorem readsBack_iff (x : Binary64) (d : Decimal) :
    x.readsBack d = true ↔ positionOf d = x.position := by
  simp [readsBack]

theorem cutUnit_pos (d : Decimal) (n : ℕ) : 0 < d.cutUnit n := by
  exact Nat.pow_pos (by decide)

theorem value_cut {d : Decimal} {n : ℕ} (h : d.cutUnit n ∣ d.coefficient) :
    (d.cut n).value = d.value := by
  obtain ⟨k, hk⟩ := h
  unfold value Decimal.cut
  rw [hk, Nat.mul_div_cancel_left _ (cutUnit_pos d n), zpow_add₀ (by norm_num), zpow_natCast]
  unfold Decimal.cutUnit
  rw [Nat.pow_eq]
  push_cast
  ring

/-- A candidate reads back, and is the cut or the next decimal after it; where the cut is exact it
is the cut. -/
theorem candidate?_spec {x : Binary64} {n : ℕ} {d : Decimal} (h : x.candidate? n = some d) :
    positionOf d = x.position ∧ (d = x.exact.cut n ∨ d = (x.exact.cut n).succ) ∧
      (x.exact.cutUnit n ∣ x.exact.coefficient → d.value = x.exact.value) := by
  rw [candidate?] at h
  refine ⟨(readsBack_iff x d).1 (List.find?_some h), ?_, ?_⟩
  · have hmem := List.mem_of_find?_eq_some h
    unfold Decimal.neighbours at hmem
    split_ifs at hmem
    · simpa [or_comm] using hmem
    · simpa using hmem
  · intro hdvd
    have hpos := cutUnit_pos x.exact n
    have hback : x.readsBack (x.exact.cut n) = true := by
      rw [readsBack_iff, ← positionOf_exact x, positionOf_congr (value_cut hdvd)]
    rw [Decimal.neighbours, Nat.mod_eq_zero_of_dvd hdvd, if_neg (by omega),
      List.find?_cons_of_pos hback] at h
    rw [← Option.some.inj h]
    exact value_cut hdvd

theorem shortest_cases (x : Binary64) :
    (∃ n, 1 ≤ n ∧ x.candidate? n = some x.shortest) ∨ x.shortest = x.exact := by
  unfold shortest
  cases h : (List.range 17).findSome? fun n => x.candidate? (n + 1) with
  | none => exact Or.inr rfl
  | some d =>
    obtain ⟨n, -, hn⟩ := List.exists_of_findSome?_eq_some h
    exact Or.inl ⟨n + 1, by omega, hn⟩

@[simp] theorem positionOf_shortest (x : Binary64) : positionOf x.shortest = x.position := by
  rcases x.shortest_cases with ⟨n, -, h⟩ | h
  · exact (candidate?_spec h).1
  · simp [h]

theorem value_succ_cut_le (d : Decimal) (n : ℕ) : ((d.cut n).succ).value ≤ 10 ^ d.point := by
  obtain ⟨k, hk⟩ : ∃ k, k = d.digits.length - n := ⟨_, rfl⟩
  have hlt : d.coefficient < 10 ^ d.digits.length :=
    (Nat.length_toDigits_le_iff (b := 10) (by decide) Nat.length_toDigits_pos).1 le_rfl
  have hq : d.coefficient / 10 ^ k + 1 ≤ 10 ^ (d.digits.length - k) := by
    apply Nat.div_lt_of_lt_mul
    rw [← pow_add, show k + (d.digits.length - k) = d.digits.length by omega]
    exact hlt
  have hn : (d.coefficient / 10 ^ k + 1) * 10 ^ k ≤ 10 ^ d.digits.length := by
    calc (d.coefficient / 10 ^ k + 1) * 10 ^ k ≤ 10 ^ (d.digits.length - k) * 10 ^ k :=
          Nat.mul_le_mul_right _ hq
      _ = 10 ^ (d.digits.length - k + k) := (pow_add _ _ _).symm
      _ = 10 ^ d.digits.length := by congr 1; omega
  have hc : (((d.coefficient / 10 ^ k + 1 : ℕ) : ℚ)) * 10 ^ k ≤ 10 ^ d.digits.length := by
    exact_mod_cast hn
  unfold value Decimal.succ Decimal.cut Decimal.cutUnit Decimal.point
  rw [← hk, Nat.pow_eq, zpow_add₀ (by norm_num), zpow_add₀ (by norm_num), zpow_natCast,
    zpow_natCast]
  have he : (0 : ℚ) < 10 ^ d.exponent := by positivity
  calc ((d.coefficient / 10 ^ k + 1 : ℕ) : ℚ) * (10 ^ d.exponent * 10 ^ k) =
        ((d.coefficient / 10 ^ k + 1 : ℕ) : ℚ) * 10 ^ k * 10 ^ d.exponent := by ring
    _ ≤ 10 ^ d.digits.length * 10 ^ d.exponent := mul_le_mul_of_nonneg_right hc he.le

theorem reaches_iff_units (x : Binary64) (n : ℕ) :
    x.reaches n = true ↔ 10 ^ n * 2 ^ unitBits ≤ x.units := by
  rw [reaches, decide_eq_true_eq, Nat.pow_eq, Nat.pow_eq]

theorem reaches_iff (x : Binary64) (n : ℕ) : x.reaches n = true ↔ (10 : ℚ) ^ n ≤ x.exact.value := by
  rw [exact_value, le_div_iff₀ two_pow_unitBits_pos, reaches_iff_units, ← Nat.cast_le (α := ℚ)]
  push_cast
  rfl

theorem value_cut_le_succ (d : Decimal) (n : ℕ) : (d.cut n).value ≤ ((d.cut n).succ).value := by
  have he : (0 : ℚ) ≤ 10 ^ (d.cut n).exponent := by positivity
  unfold value
  apply mul_le_mul_of_nonneg_right _ he
  push_cast [Decimal.succ]
  linarith

theorem shortest_le {x : Binary64} {n : ℕ} (h : x.reaches n = false) :
    x.shortest.value ≤ 10 ^ n := by
  have hlt : x.exact.value < 10 ^ n := by
    rw [← not_le, ← reaches_iff, h]
    exact Bool.false_ne_true
  rcases x.shortest_cases with ⟨k, -, hk⟩ | hk
  · have hp : (10 : ℚ) ^ x.exact.point ≤ 10 ^ n ∨ x.exact.coefficient = 0 := by
      by_cases hc : x.exact.coefficient = 0
      · exact Or.inr hc
      · left
        rw [← zpow_natCast]
        apply zpow_le_zpow_right₀ (by norm_num)
        rw [point_le_iff hc, zpow_natCast]
        exact hlt
    obtain ⟨-, hd, hv⟩ := candidate?_spec hk
    rcases hp with hp | hc
    · rcases hd with hd | hd
      · rw [hd]
        exact ((value_cut_le_succ _ _).trans (value_succ_cut_le _ _)).trans hp
      · rw [hd]
        exact (value_succ_cut_le _ _).trans hp
    · rw [hv (by rw [hc]; exact Nat.dvd_zero _)]
      exact hlt.le
  · rw [hk]
    exact hlt.le

def whole (x : Binary64) : ℕ := x.units / 2 ^ unitBits

def IsWhole (x : Binary64) : Prop := x.reaches 15 = false ∧ 2 ^ unitBits ∣ x.units

instance (x : Binary64) : Decidable (IsWhole x) :=
  inferInstanceAs (Decidable (_ ∧ _))

theorem IsWhole.units_eq_whole {x : Binary64} (h : IsWhole x) :
    x.units = x.whole * 2 ^ unitBits := (Nat.div_mul_cancel h.2).symm

theorem IsWhole.exact_value_eq {x : Binary64} (h : IsWhole x) : x.exact.value = x.whole := by
  have := two_pow_unitBits_pos
  rw [exact_value, h.units_eq_whole]
  push_cast
  field_simp

theorem IsWhole.whole_lt {x : Binary64} (h : IsWhole x) : x.whole < 10 ^ 15 := by
  have hlt : ¬ (10 : ℚ) ^ 15 ≤ x.exact.value := by
    rw [← reaches_iff, h.1]
    exact Bool.false_ne_true
  rw [h.exact_value_eq, not_le] at hlt
  exact_mod_cast hlt

theorem units_of_natCast {x : Binary64} {d : Decimal} {w : ℕ} (hd : positionOf d = x.position)
    (hv : d.value = w) (hw : w ≤ 10 ^ 15) : x.units = w * 2 ^ unitBits := by
  obtain ⟨y, hy, hu⟩ := positionOf_natCast hv (lt_of_le_of_lt hw (by norm_num))
  rw [← hu]
  exact units_congr (hd.symm.trans hy)

/-- The digits printed for a whole number show its value, also where not all of them are cut. -/
theorem IsWhole.shortest_value {x : Binary64} (h : IsWhole x) : x.shortest.value = x.whole := by
  rcases x.shortest_cases with ⟨n, -, hn⟩ | he
  · obtain ⟨hpos, hd, hexact⟩ := candidate?_spec hn
    rcases le_total (x.exact.digits.length - n) unitBits with hk | hk
    · rw [hexact, h.exact_value_eq]
      have hc : x.exact.coefficient = x.whole * 10 ^ unitBits := by
        simp only [exact, Nat.pow_eq]
        rw [h.units_eq_whole, mul_assoc, ← mul_pow, show 2 * 5 = 10 from rfl]
      rw [hc]
      exact Dvd.dvd.mul_left (Nat.pow_dvd_pow 10 hk) _
    · obtain ⟨e, he⟩ : ∃ e : ℕ, x.shortest.exponent = e := by
        refine ⟨x.exact.digits.length - n - unitBits, ?_⟩
        have hcut : (x.exact.cut n).exponent = -(unitBits : ℤ) + (x.exact.digits.length - n : ℕ) :=
          rfl
        rcases hd with hd | hd <;> rw [hd]
        · rw [hcut]
          omega
        · rw [Decimal.succ, hcut]
          omega
      have hv : x.shortest.value = (x.shortest.coefficient * 10 ^ e : ℕ) := by
        unfold value
        rw [he, zpow_natCast]
        push_cast
        rfl
      have hle := shortest_le h.1
      rw [hv] at hle
      have hu := units_of_natCast hpos hv (by exact_mod_cast hle)
      rw [hv, whole, hu, Nat.mul_div_cancel _ (by positivity)]
  · rw [he, h.exact_value_eq]

theorem IsWhole.shortest_positional {x : Binary64} (h : IsWhole x) :
    x.shortest.positional = Nat.toDigits 10 x.whole :=
  Decimal.positional_of_value h.shortest_value

theorem shortest_positional_fraction {x : Binary64} (hr : x.reaches 15 = false) (h : ¬ IsWhole x) :
    ∃ w t, Decimal.IsDigits w ∧ w ≠ [] ∧ Decimal.IsDigits t ∧
      x.shortest.positional = w ++ '.' :: t := by
  obtain ⟨w, f, hw, hne, hf, ht, hv⟩ := x.shortest.positional_form
  rcases hf with rfl | ⟨t, hdt, rfl⟩
  · have hv' : x.shortest.value = (Decimal.digitsValue w : ℕ) := by
      rw [← hv]
      simp
    have hle := shortest_le hr
    rw [hv'] at hle
    have hu := units_of_natCast x.positionOf_shortest hv' (by exact_mod_cast hle)
    exact absurd ⟨hr, by rw [hu]; exact Nat.dvd_mul_left _ _⟩ h
  · exact ⟨w, t, hw, hne, hdt, ht⟩

theorem ofDecimal?_of_position {x : Binary64} {d : Decimal} (hx : x.negative = false)
    (h : positionOf d = x.position) : ofDecimal? false d = some x := by
  have hf : positionOf d < limit := by
    rw [h]
    exact x.finite
  rw [ofDecimal?, dif_pos hf]
  cases x
  simp_all

theorem read?_of_isDigit {s : Text} {c : Char} (h : s.head? = some c) (hc : c.isDigit = true) :
    read? s = (Decimal.read? s).bind (ofDecimal? false) := by
  cases s with
  | nil => simp at h
  | cons a s =>
    obtain rfl : a = c := by simpa using h
    rw [read?, Decimal.sign_of_isDigit hc]

theorem negative_of_read? {s : Text} {c : Char} {x : Binary64} (h : s.head? = some c)
    (hc : c.isDigit = true) (hx : read? s = some x) : x.negative = false := by
  rw [read?_of_isDigit h hc] at hx
  obtain ⟨d, -, hd⟩ := Option.bind_eq_some_iff.1 hx
  unfold ofDecimal? at hd
  split at hd
  · cases hd
    rfl
  · cases hd

theorem read?_shortest_positional {x : Binary64} (hx : x.negative = false) :
    read? x.shortest.positional = some x := by
  obtain ⟨w, f, hw, hne, -, ht, -⟩ := x.shortest.positional_form
  obtain ⟨e, he, hv⟩ := x.shortest.read?_positional
  obtain ⟨c, w, rfl⟩ := List.exists_cons_of_ne_nil hne
  rw [read?_of_isDigit (c := c) (by rw [ht]; rfl) (hw c (by simp)), he, Option.bind_some]
  exact ofDecimal?_of_position hx ((positionOf_congr hv).trans x.positionOf_shortest)

theorem position_ne_zero {x : Binary64} {n : ℕ} (h : x.reaches n = true) : x.position ≠ 0 := by
  intro h0
  have hu : x.units = 0 := by simp [units, h0]
  have hp : 0 < 10 ^ n * 2 ^ unitBits := by positivity
  rw [reaches_iff_units, hu] at h
  exact absurd hp (Nat.not_lt.2 h)

theorem shortest_range {x : Binary64} (h : x.position ≠ 0) :
    x.shortest.coefficient ≠ 0 ∧ -330 ≤ x.shortest.point ∧ x.shortest.point ≤ 310 := by
  have hp := x.positionOf_shortest
  have hf := x.finite
  unfold positionOf at hp
  split_ifs at hp with h1 h2
  · exact absurd hp.symm h
  · omega
  · exact ⟨fun h0 => h1 (Or.inl h0), by omega, by omega⟩

theorem read?_shortest_scientific {x : Binary64} (hx : x.negative = false) (h : x.position ≠ 0) :
    read? x.shortest.scientific = some x := by
  obtain ⟨hc, hl, hu⟩ := shortest_range h
  obtain ⟨c, f, hd, -, ht, -⟩ := Decimal.scientific_form hc
  obtain ⟨e, he, hv⟩ := Decimal.read?_scientific hc (by omega)
  rw [read?_of_isDigit (c := c) (by rw [ht]; rfl) hd, he, Option.bind_some]
  exact ofDecimal?_of_position hx ((positionOf_congr hv).trans x.positionOf_shortest)

theorem nearestPosition_lt {num den n : ℕ} (hn : n ≤ 1200) (h : num / den < 2 ^ n) :
    nearestPosition num den < limit := by
  obtain ⟨shift, hshift⟩ : ∃ s, s = Nat.log2 (num / den) - 52 := ⟨_, rfl⟩
  have hlog : Nat.log2 (num / den) < 1200 := by
    by_cases h0 : num / den = 0
    · rw [h0]
      decide
    · exact ((Nat.log2_lt h0).2 h).trans_le hn
  have hquotient : num / den < 2 ^ (53 + shift) :=
    Nat.lt_log2_self.trans_le (Nat.pow_le_pow_right (by norm_num) (by omega))
  have hround : roundDiv num (den * 2 ^ shift) ≤ 2 ^ 53 := by
    have hlt : num / (den * 2 ^ shift) < 2 ^ 53 := by
      rw [← Nat.div_div_eq_div_mul, Nat.div_lt_iff_lt_mul (by positivity), ← Nat.pow_add]
      exact hquotient
    unfold roundDiv
    dsimp only
    split
    · exact hlt.le
    · exact hlt
  have hle : shift * binade ≤ 1148 * binade := Nat.mul_le_mul_right _ (by omega)
  have hlimit : 1148 * binade + 2 ^ 53 < limit := by decide
  unfold nearestPosition
  simp only [Nat.pow_eq, ← hshift]
  omega

theorem read?_point {n : ℕ} (hn : n < 0x8000000000000000) :
    ∃ x, read? (Nat.toDigits 10 n ++ ['.']) = some x := by
  obtain ⟨c, s, hs, hc⟩ := @Decimal.head_toDigits n
  have hform := Decimal.read?_form (Decimal.isDigits_toDigits n) Nat.toDigits_ne_nil
    (f := ['.']) (e := []) (Or.inr ⟨[], by simp [Decimal.IsDigits], rfl⟩) (by simp)
  obtain ⟨d, hd, hv⟩ : ∃ d, Decimal.read? (Nat.toDigits 10 n ++ ['.']) = some d ∧
      d.value = n := by
    refine ⟨_, hform, ?_⟩
    simp [Decimal.value, Decimal.shown, Decimal.digitsValue]
  have hlt : positionOf d < limit := by
    by_cases h0 : d.coefficient = 0
    · rw [positionOf, if_pos (Or.inl h0)]
      decide
    · have hhigh : d.point ≤ 310 := by
        rw [point_le_iff h0, hv]
        have hlt : (n : ℚ) < 10 ^ 19 := by
          exact_mod_cast hn.trans (by norm_num)
        exact hlt.trans (by
          rw [← zpow_natCast]
          exact zpow_lt_zpow_right₀ (by norm_num) (by norm_num))
      have hlow : -330 ≤ d.point := by
        by_contra hlow
        have hlt : d.value < 10 ^ (0 : ℤ) := (point_le_iff h0 0).1 (by omega)
        rw [hv, zpow_zero] at hlt
        have hzero : n = 0 := by
          have : n < 1 := by exact_mod_cast hlt
          omega
        exact h0 ((Decimal.value_eq_zero_iff d).1 (by rw [hv, hzero]; rfl))
      have hunits : d.value * 2 ^ unitBits * (1 : ℕ) = (n * 2 ^ unitBits : ℕ) := by
        rw [hv]
        push_cast
        ring
      rw [positionOf_eq_nearest h0 hlow hhigh Nat.one_pos hunits]
      apply nearestPosition_lt (n := 63 + unitBits) (by decide)
      rw [Nat.div_one, pow_add]
      exact Nat.mul_lt_mul_of_pos_right hn (by positivity)
  refine ⟨⟨false, positionOf d, hlt⟩, ?_⟩
  rw [read?_of_isDigit (c := c) (by rw [hs]; rfl) hc, hd, Option.bind_some, ofDecimal?, dif_pos hlt]

end ClassicAsp.Binary64
