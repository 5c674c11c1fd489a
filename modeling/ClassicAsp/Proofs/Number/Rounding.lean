import ClassicAsp.Proofs.Number.Binary64

/-! Reading rounds to nearest. Magnitudes grow with their positions, a quotient lies between two
neighbours, and the nearer of these is nearer than any other magnitude; of two that are as near,
the even one is taken. What is past the middle between the largest magnitude and the one that would
follow it is not rounded to a number. -/
namespace ClassicAsp.Binary64

def unitsAt (p : ℕ) : ℕ := (p - (p / binade - 1) * binade) * 2 ^ (p / binade - 1)

theorem units_eq_unitsAt (x : Binary64) : x.units = unitsAt x.position := rfl

theorem unitsAt_binade {t q : ℕ} (h : t = 0 ∨ binade ≤ q) (hq : q ≤ 2 * binade) :
    unitsAt (t * binade + q) = q * 2 ^ t := by
  have hb := binade_pos
  have hdiv : (t * binade + q) / binade = t + q / binade := by
    rw [Nat.mul_comm, Nat.mul_add_div hb]
  rcases Nat.lt_or_eq_of_le hq with hlt | rfl
  · have hshift : t + q / binade - 1 = t := by
      rcases Nat.lt_or_ge q binade with hq | hq
      · rw [Nat.div_eq_of_lt hq]
        omega
      · have hone : q / binade = 1 := Nat.div_eq_of_lt_le (by omega) (by omega)
        omega
    rw [unitsAt, hdiv, hshift, Nat.add_sub_cancel_left]
  · have hshift : t + 2 * binade / binade - 1 = t + 1 := by
      rw [Nat.mul_div_cancel _ hb]
      omega
    have hplace : t * binade + 2 * binade - (t + 1) * binade = binade := by
      rw [Nat.add_mul]
      omega
    rw [unitsAt, hdiv, hshift, hplace, pow_succ]
    ring

theorem exists_binade (p : ℕ) :
    ∃ t q, p = t * binade + q ∧ (t = 0 ∨ binade ≤ q) ∧ q < 2 * binade := by
  have hb := binade_pos
  by_cases h : p < 2 * binade
  · exact ⟨0, p, by omega, .inl rfl, h⟩
  · have hm := Nat.div_add_mod' p binade
    have hlt := Nat.mod_lt p hb
    obtain ⟨s, hs⟩ : ∃ s, p / binade = s + 1 := by
      have hq : 2 ≤ p / binade := (Nat.le_div_iff_mul_le hb).2 (by omega)
      exact ⟨p / binade - 1, by omega⟩
    refine ⟨s, binade + p % binade, ?_, .inr (Nat.le_add_right _ _), by omega⟩
    rw [hs, Nat.add_mul] at hm
    omega

theorem unitsAt_strictMono : StrictMono unitsAt := by
  refine strictMono_nat_of_lt_succ fun p => ?_
  obtain ⟨t, q, rfl, h, hq⟩ := exists_binade p
  rw [Nat.add_assoc, unitsAt_binade h hq.le, unitsAt_binade (h.imp_right Nat.le_succ_of_le) hq]
  exact Nat.mul_lt_mul_of_pos_right (Nat.lt_succ_self q) (by positivity)

/-- The position nearest to a quotient is one of the two around it, the nearer or the even one. -/
theorem nearestPosition_cases (num : ℕ) {den : ℕ} (hd : 0 < den) :
    ∃ p, unitsAt p * den ≤ num ∧ num < unitsAt (p + 1) * den ∧ nearestPosition num den =
      if 2 * num < (unitsAt p + unitsAt (p + 1)) * den ∨
        (2 * num = (unitsAt p + unitsAt (p + 1)) * den ∧ p % 2 = 0) then p else p + 1 := by
  -- the binade that the quotient lies in, and its place there
  obtain ⟨t, ht⟩ : ∃ t, t = Nat.log2 (num / den) - 52 := ⟨_, rfl⟩
  obtain ⟨q, hq⟩ : ∃ q, q = num / (den * 2 ^ t) := ⟨_, rfl⟩
  have hdt : 0 < den * 2 ^ t := by positivity
  have hquotient : num / den / 2 ^ t = q := by rw [hq, Nat.div_div_eq_div_mul]
  have hlow : t = 0 ∨ binade ≤ q := by
    refine (Nat.eq_zero_or_pos t).imp_right fun hpos => ?_
    have hne : num / den ≠ 0 := by
      intro h0
      rw [h0] at ht
      exact absurd ht (by rw [show Nat.log2 0 = 0 from rfl]; omega)
    have hlog := Nat.log2_self_le hne
    rw [← hquotient, Nat.le_div_iff_mul_le (by positivity), show binade = 2 ^ 52 from rfl,
      ← pow_add, show 52 + t = Nat.log2 (num / den) by omega]
    exact hlog
  have hhigh : q < 2 * binade := by
    rw [← hquotient, Nat.div_lt_iff_lt_mul (by positivity), show 2 * binade = 2 ^ 53 from rfl,
      ← pow_add]
    exact Nat.lt_log2_self.trans_le (Nat.pow_le_pow_right (by decide) (by omega))
  have hself := unitsAt_binade hlow hhigh.le
  have hnext := unitsAt_binade (q := q + 1) (hlow.imp_right Nat.le_succ_of_le) hhigh
  rw [← Nat.add_assoc] at hnext
  have hparity : (t * binade + q) % 2 = q % 2 := by
    have heven : binade = 2 * 2 ^ 51 := rfl
    rw [heven]
    omega
  have hmod := Nat.div_add_mod num (den * 2 ^ t)
  have hlt := Nat.mod_lt num hdt
  rw [← hq] at hmod
  have hfirst : unitsAt (t * binade + q) * den = den * 2 ^ t * q := by rw [hself]; ring
  have hsecond : unitsAt (t * binade + q + 1) * den = den * 2 ^ t * q + den * 2 ^ t := by
    rw [hnext]
    ring
  refine ⟨t * binade + q, by omega, by omega, ?_⟩
  rw [Nat.add_mul, hfirst, hsecond, hparity]
  unfold nearestPosition roundDiv
  simp only [Nat.pow_eq, ← ht, ← hq]
  have hless : 2 * (num % (den * 2 ^ t)) < den * 2 ^ t ↔
      2 * num < den * 2 ^ t * q + (den * 2 ^ t * q + den * 2 ^ t) := by omega
  have hequal : 2 * (num % (den * 2 ^ t)) = den * 2 ^ t ↔
      2 * num = den * 2 ^ t * q + (den * 2 ^ t * q + den * 2 ^ t) := by omega
  simp only [hless, hequal]
  split
  · rfl
  · rw [Nat.add_assoc]

/-- A position with no magnitude nearer than its own; of two that are as near, the even one. -/
structure IsNearest (v : ℚ) (p : ℕ) : Prop where
  le (q : ℕ) : |(unitsAt p : ℚ) - v| ≤ |(unitsAt q : ℚ) - v|
  even (q : ℕ) (hq : q ≠ p) (h : |(unitsAt p : ℚ) - v| = |(unitsAt q : ℚ) - v|) : p % 2 = 0

section Nearest

variable {v : ℚ} {p q : ℕ}

theorem cast_unitsAt_le (h : p ≤ q) : (unitsAt p : ℚ) ≤ unitsAt q := by
  exact_mod_cast unitsAt_strictMono.monotone h

theorem cast_unitsAt_lt (h : p < q) : (unitsAt p : ℚ) < unitsAt q := by
  exact_mod_cast unitsAt_strictMono h

theorem isNearest_of_neighbours (hl : (unitsAt p : ℚ) ≤ v) (hu : v < unitsAt (p + 1))
    (hq : (q = p ∧ 2 * v ≤ unitsAt p + unitsAt (p + 1)) ∨
      (q = p + 1 ∧ unitsAt p + unitsAt (p + 1) ≤ 2 * v))
    (heven : 2 * v = unitsAt p + unitsAt (p + 1) → q % 2 = 0) : IsNearest v q := by
  have hbelow : ∀ r ≤ p, |(unitsAt r : ℚ) - v| = v - unitsAt r := by
    intro r hr
    have := cast_unitsAt_le hr
    rw [abs_sub_comm, abs_of_nonneg (by linarith)]
  have habove : ∀ r, p < r → |(unitsAt r : ℚ) - v| = unitsAt r - v := by
    intro r hr
    have := cast_unitsAt_le (Nat.succ_le_of_lt hr)
    exact abs_of_nonneg (by linarith)
  have hmin : |(unitsAt q : ℚ) - v| ≤ v - unitsAt p ∧
      |(unitsAt q : ℚ) - v| ≤ unitsAt (p + 1) - v := by
    rcases hq with ⟨rfl, hq⟩ | ⟨rfl, hq⟩
    · rw [hbelow q le_rfl]
      exact ⟨le_rfl, by linarith⟩
    · rw [habove _ (Nat.lt_succ_self p)]
      exact ⟨by linarith, le_rfl⟩
  constructor
  · intro r
    rcases Nat.lt_or_ge p r with hr | hr
    · have := cast_unitsAt_le (Nat.succ_le_of_lt hr)
      rw [habove r hr]
      linarith [hmin.2]
    · have := cast_unitsAt_le hr
      rw [hbelow r hr]
      linarith [hmin.1]
  · -- only the other neighbour can be as near, and then the value is in the middle of both
    intro r hne he
    rcases hq with ⟨rfl, hq⟩ | ⟨rfl, hq⟩
    · rw [hbelow q le_rfl] at he
      rcases Nat.lt_or_gt_of_ne hne with hr | hr
      · have := cast_unitsAt_lt hr
        rw [hbelow r hr.le] at he
        linarith
      · have := cast_unitsAt_le (Nat.succ_le_of_lt hr)
        rw [habove r hr] at he
        exact heven (by linarith)
    · rw [habove _ (Nat.lt_succ_self p)] at he
      rcases Nat.lt_or_gt_of_ne hne with hr | hr
      · have := cast_unitsAt_le (Nat.le_of_lt_succ hr)
        rw [hbelow r (Nat.le_of_lt_succ hr)] at he
        exact heven (by linarith)
      · have := cast_unitsAt_lt hr
        rw [habove r (Nat.lt_of_succ_lt hr)] at he
        linarith

theorem isNearest_nearestPosition (num : ℕ) {den : ℕ} (hd : 0 < den) :
    IsNearest (num / den) (nearestPosition num den) := by
  obtain ⟨p, hl, hu, hp⟩ := nearestPosition_cases num hd
  have hden : (0 : ℚ) < den := by exact_mod_cast hd
  have hlow : (unitsAt p : ℚ) ≤ num / den := by
    rw [le_div_iff₀ hden]
    exact_mod_cast hl
  have hhigh : (num / den : ℚ) < unitsAt (p + 1) := by
    rw [div_lt_iff₀ hden]
    exact_mod_cast hu
  have hdouble : (2 * (num / den) : ℚ) = (2 * num : ℕ) / den := by
    push_cast
    ring
  have hle : (2 * (num / den) : ℚ) ≤ unitsAt p + unitsAt (p + 1) ↔
      2 * num ≤ (unitsAt p + unitsAt (p + 1)) * den := by
    rw [hdouble, div_le_iff₀ hden]
    exact_mod_cast Iff.rfl
  have heq : (2 * (num / den) : ℚ) = unitsAt p + unitsAt (p + 1) ↔
      2 * num = (unitsAt p + unitsAt (p + 1)) * den := by
    rw [hdouble, div_eq_iff hden.ne']
    exact_mod_cast Iff.rfl
  rw [hp]
  split_ifs with h
  · refine isNearest_of_neighbours hlow hhigh (.inl ⟨rfl, hle.2 (by omega)⟩) fun he => ?_
    have := heq.1 he
    omega
  · refine isNearest_of_neighbours hlow hhigh (.inr ⟨rfl, ?_⟩) fun he => ?_
    · by_contra hlt
      have hless := hle.1 (le_of_not_ge hlt)
      have hne : ¬ 2 * num = (unitsAt p + unitsAt (p + 1)) * den :=
        fun he => hlt (heq.2 he).ge
      omega
    · have := heq.1 he
      omega

/-- The position past the largest number is the nearest exactly if a value is not below the middle
between the two. -/
theorem IsNearest.limit_le_iff (h : IsNearest v p) :
    limit ≤ p ↔ (unitsAt (limit - 1) : ℚ) + unitsAt limit ≤ 2 * v := by
  have hlimit : (unitsAt (limit - 1) : ℚ) < unitsAt limit := cast_unitsAt_lt (by decide)
  constructor
  · intro hp
    have hpos := cast_unitsAt_le hp
    have hle := h.le (limit - 1)
    by_contra hlt
    have hself : |(unitsAt p : ℚ) - v| = unitsAt p - v := abs_of_nonneg (by linarith)
    rw [hself] at hle
    rcases le_total v (unitsAt (limit - 1)) with hv | hv
    · rw [abs_of_nonneg (by linarith)] at hle
      linarith
    · rw [abs_sub_comm, abs_of_nonneg (by linarith)] at hle
      linarith
  · intro hv
    by_contra hp
    have hself (q : ℕ) (hq : q ≤ limit - 1) : |(unitsAt q : ℚ) - v| = v - unitsAt q := by
      have := cast_unitsAt_le hq
      rw [abs_sub_comm, abs_of_nonneg (by linarith)]
    have hbelow : p ≤ limit - 1 := by omega
    have hlast := h.le (limit - 1)
    rw [hself p hbelow, hself _ le_rfl] at hlast
    obtain rfl : p = limit - 1 := by
      by_contra hne
      have := cast_unitsAt_lt (Nat.lt_of_le_of_ne hbelow hne)
      linarith
    -- in the middle the position that would follow is as near, and the last one is odd
    have hnext := h.le limit
    have heven := h.even limit (by decide)
    rw [hself _ le_rfl] at hnext heven
    rcases le_total v (unitsAt limit) with hle | hle
    · rw [abs_of_nonneg (by linarith)] at hnext heven
      exact absurd (heven (by linarith)) (by decide)
    · rw [abs_sub_comm, abs_of_nonneg (by linarith)] at hnext
      linarith

end Nearest

theorem middle_le_iff (v : ℚ) :
    (unitsAt (limit - 1) : ℚ) + unitsAt limit ≤ 2 * (v * 2 ^ unitBits) ↔
      2 ^ 1024 - 2 ^ 970 ≤ v := by
  obtain ⟨t, ht⟩ : ∃ t, t = 970 + 1 + unitBits := ⟨_, rfl⟩
  have hlast : limit - 1 = t * binade + (2 ^ 53 - 1) := by
    rw [ht]
    decide
  have hlimit : limit = t * binade + 2 ^ 53 := by
    rw [ht]
    decide
  have hstep : (2 : ℚ) ^ t = 2 ^ 970 * 2 * 2 ^ unitBits := by rw [ht, pow_add, pow_succ]
  have htop : (2 : ℚ) ^ 1024 = 2 ^ 54 * 2 ^ 970 := by rw [← pow_add]
  have hsum : (unitsAt (limit - 1) : ℚ) + unitsAt limit =
      2 * ((2 ^ 1024 - 2 ^ 970) * 2 ^ unitBits) := by
    rw [hlast, unitsAt_binade (.inr (by decide)) (by decide), hlimit,
      unitsAt_binade (.inr (by decide)) (by decide), htop, Nat.cast_mul, Nat.cast_mul,
      Nat.cast_pow 2 t, Nat.cast_ofNat, hstep]
    generalize (2 : ℚ) ^ 970 = a
    generalize (2 : ℚ) ^ unitBits = b
    norm_num
    ring
  rw [hsum, mul_le_mul_iff_right₀ two_pos, mul_le_mul_iff_left₀ two_pow_unitBits_pos]

/-- A decimal is rounded to the nearest position, unless it has too many digits before the
point. -/
theorem isNearest_positionOf {d : Decimal} (h : d.coefficient = 0 ∨ d.point ≤ 310) :
    IsNearest (d.value * 2 ^ unitBits) (positionOf d) := by
  have hvalue := d.value_nonneg
  by_cases hsmall : d.coefficient = 0 ∨ d.point < -330
  · -- such a value is not above the middle between zero and the least magnitude
    have hless : d.value * (2 * 2 ^ unitBits) ≤ 1 := by
      by_cases hc : d.coefficient = 0
      · rw [(Decimal.value_eq_zero_iff d).2 hc, zero_mul]
        exact zero_le_one
      · have hpoint : d.point ≤ -331 := by omega
        have hlt := (point_le_iff hc _).1 hpoint
        have hb : 2 * 2 ^ unitBits ≤ 10 ^ 331 := by decide +kernel
        have hq : (2 * 2 ^ unitBits : ℚ) ≤ 10 ^ 331 := by exact_mod_cast hb
        calc d.value * (2 * 2 ^ unitBits) ≤ 10 ^ (-331 : ℤ) * 10 ^ 331 :=
              mul_le_mul hlt.le hq (by positivity) (by positivity)
          _ = 1 := by
            rw [zpow_neg]
            exact inv_mul_cancel₀ (by positivity)
    have hfirst : unitsAt 0 = 0 ∧ unitsAt (0 + 1) = 1 := by decide
    rw [positionOf, if_pos hsmall]
    refine isNearest_of_neighbours (p := 0) ?_ ?_ (.inl ⟨rfl, ?_⟩) fun _ => rfl
    · rw [hfirst.1]
      positivity
    · rw [hfirst.2]
      push_cast
      linarith
    · rw [hfirst.1, hfirst.2]
      push_cast
      linarith
  · have hten : (0 : ℚ) < ((10 ^ (-d.exponent).toNat : ℕ) : ℚ) := by positivity
    have hunits : d.value * 2 ^ unitBits * (10 ^ (-d.exponent).toNat : ℕ) =
        (d.coefficient * 10 ^ d.exponent.toNat * 2 ^ unitBits : ℕ) := by
      push_cast
      rw [← ten_pow_toNat d.exponent, Decimal.value]
      ring
    have hc : d.coefficient ≠ 0 := fun hc => hsmall (.inl hc)
    rw [positionOf_eq_nearest hc (by omega) (by omega) (by positivity) hunits,
      eq_div_of_mul_eq hten.ne' hunits]
    exact isNearest_nearestPosition _ (by positivity)

theorem limit_le_positionOf_iff (d : Decimal) :
    limit ≤ positionOf d ↔ 2 ^ 1024 - 2 ^ 970 ≤ d.value := by
  by_cases h : d.coefficient = 0 ∨ d.point ≤ 310
  · rw [(isNearest_positionOf h).limit_le_iff, middle_le_iff]
  · have hc : d.coefficient ≠ 0 := fun hc => h (.inl hc)
    have hlarge : (10 : ℚ) ^ (310 : ℤ) ≤ d.value := by
      by_contra hlt
      exact h (.inr ((point_le_iff hc _).2 (not_le.1 hlt)))
    have hb : 2 ^ 1024 ≤ 10 ^ 310 := by decide +kernel
    have hq : (2 : ℚ) ^ 1024 ≤ 10 ^ (310 : ℤ) := by exact_mod_cast hb
    have hpos : (0 : ℚ) < 2 ^ 970 := by positivity
    rw [positionOf, if_neg (by omega), if_pos (by omega)]
    exact iff_of_true le_rfl ((sub_le_self _ hpos.le).trans (hq.trans hlarge))

def value (x : Binary64) : ℚ := (if x.negative then -1 else 1) * (x.units / 2 ^ unitBits)

theorem value_of_nonnegative {x : Binary64} (hx : x.negative = false) :
    x.value = x.units / 2 ^ unitBits := by
  rw [value, hx, if_neg Bool.false_ne_true, one_mul]

/-- What a magnitude is correctly rounded to: the nearest number, the even one of two, and none from
the middle past the largest number on. -/
inductive Rounds (v : ℚ) : Option Binary64 → Prop where
  | overflow (h : 2 ^ 1024 - 2 ^ 970 ≤ v) : Rounds v none
  | nearest {x : Binary64} (h : v < 2 ^ 1024 - 2 ^ 970)
      (hle : ∀ y : Binary64, |x.value - v| ≤ |y.value - v|)
      (heven : ∀ y : Binary64, y.position ≠ x.position → |x.value - v| = |y.value - v| →
        x.position % 2 = 0) : Rounds v (some x)

theorem Rounds.eq_none_iff {v : ℚ} {r : Option Binary64} (h : Rounds v r) :
    r = none ↔ 2 ^ 1024 - 2 ^ 970 ≤ v := by
  cases h with
  | overflow h => exact iff_of_true rfl h
  | nearest h => exact iff_of_false (by simp) (not_le.2 h)

theorem abs_value_sub {x : Binary64} (hx : x.negative = false) (v : ℚ) :
    |x.value - v| * 2 ^ unitBits = |(unitsAt x.position : ℚ) - v * 2 ^ unitBits| := by
  have hpos := two_pow_unitBits_pos
  rw [value_of_nonnegative hx, ← units_eq_unitsAt, ← abs_of_pos hpos, ← abs_mul, abs_of_pos hpos,
    sub_mul, div_mul_cancel₀ _ hpos.ne']

theorem abs_units_sub_le (x : Binary64) {v : ℚ} (hv : 0 ≤ v) :
    |(unitsAt x.position : ℚ) - v * 2 ^ unitBits| ≤ |x.value - v| * 2 ^ unitBits := by
  have hpos := two_pow_unitBits_pos
  cases hx : x.negative with
  | false => exact (abs_value_sub hx v).ge
  | true =>
    have hunits : (0 : ℚ) ≤ x.units := Nat.cast_nonneg _
    have hscaled : 0 ≤ v * 2 ^ unitBits := mul_nonneg hv hpos.le
    have hsum : |x.value - v| * 2 ^ unitBits = x.units + v * 2 ^ unitBits := by
      have hneg : x.value - v = -(x.units / 2 ^ unitBits + v) := by
        rw [value, hx, if_pos rfl]
        ring
      rw [hneg, abs_neg, abs_of_nonneg (add_nonneg (div_nonneg hunits hpos.le) hv), add_mul,
        div_mul_cancel₀ _ hpos.ne']
    rw [hsum, ← units_eq_unitsAt, abs_le]
    constructor
    · linarith
    · linarith

/-- Decimals are rounded correctly. -/
theorem rounds_ofDecimal? (d : Decimal) : Rounds d.value (ofDecimal? false d) := by
  have hpos := two_pow_unitBits_pos
  have hvalue := d.value_nonneg
  unfold ofDecimal?
  split
  · next hfinite =>
    have hless : d.value < 2 ^ 1024 - 2 ^ 970 := by
      rw [← not_le, ← limit_le_positionOf_iff]
      exact not_le.2 hfinite
    have hpoint : d.coefficient = 0 ∨ d.point ≤ 310 := by
      by_contra h
      rw [positionOf, if_neg (by omega), if_pos (by omega)] at hfinite
      exact lt_irrefl _ hfinite
    have hnearest := isNearest_positionOf hpoint
    have hself := abs_value_sub (x := ⟨false, positionOf d, hfinite⟩) rfl d.value
    refine .nearest hless (fun y => ?_) fun y hne he => ?_
    · have hy := abs_units_sub_le y hvalue
      have hle := hnearest.le y.position
      exact le_of_mul_le_mul_right (hself.le.trans (hle.trans hy)) hpos
    · have hy := abs_units_sub_le y hvalue
      rw [← he, hself] at hy
      exact hnearest.even y.position hne (le_antisymm (hnearest.le _) hy)
  · next hlarge => exact .overflow ((limit_le_positionOf_iff d).1 (not_lt.1 hlarge))

theorem ofDecimal?_congr {d e : Decimal} (h : positionOf d = positionOf e) (negative : Bool) :
    ofDecimal? negative d = ofDecimal? negative e := by
  simp only [ofDecimal?, h]

/-- In a text of usual length, an exponent that is not read in full is out of range either way. -/
theorem positionOf_curtailed {w f : Text} {n m : ℤ} (hd : Decimal.IsDigits (w ++ f.tail))
    (h : Decimal.Curtails n m) (hsize : n.natAbs < 0x10000 ∨ (w ++ f.tail).length ≤ 65000) :
    positionOf (Decimal.shown w f m) = positionOf (Decimal.shown w f n) := by
  by_cases hn : n.natAbs < 0x10000
  · rw [h.eq hn]
  have hlength := hsize.resolve_left hn
  by_cases hc : Decimal.digitsValue (w ++ f.tail) = 0
  · rw [positionOf, positionOf, if_pos (.inl hc), if_pos (.inl hc)]
  · obtain ⟨k, hk⟩ : ∃ k, k = (Nat.toDigits 10 (Decimal.digitsValue (w ++ f.tail))).length :=
      ⟨_, rfl⟩
    have hpoint : ∀ i, (Decimal.shown w f i).point = k + (i - f.tail.length) := by
      intro i
      rw [hk]
      rfl
    have hne : w ++ f.tail ≠ [] := by
      intro hnil
      rw [hnil] at hc
      exact hc rfl
    have hupper : k ≤ (w ++ f.tail).length := by
      rw [hk, Nat.length_toDigits_le_iff (by decide) (List.length_pos_iff.2 hne)]
      exact Decimal.digitsValue_lt hd
    have hplaces : f.tail.length ≤ (w ++ f.tail).length := by
      rw [List.length_append]
      exact Nat.le_add_left _ _
    have hcoefficient : ∀ i, (Decimal.shown w f i).coefficient ≠ 0 := fun _ => hc
    -- the digits of a text of usual length do not bring the point back into range
    have hlarge : ∀ i : ℤ, 0x10000 ≤ i → positionOf (Decimal.shown w f i) = limit := by
      intro i hi
      have hpoint := hpoint i
      have hnot := hcoefficient i
      rw [positionOf, if_neg (by omega), if_pos (by omega)]
    have hsmall : ∀ i : ℤ, i ≤ -0x10000 → positionOf (Decimal.shown w f i) = 0 := by
      intro i hi
      have hpoint := hpoint i
      rw [positionOf, if_pos (by omega)]
    rcases h with rfl | ⟨hm, hle⟩ | ⟨hm, hle⟩
    · rfl
    · rw [hlarge m hm, hlarge n (hm.trans hle)]
    · rw [hsmall m hm, hsmall n (hle.trans hm)]

theorem IsWhole.value_eq {x : Binary64} (h : x.IsWhole) (hx : x.negative = false) :
    x.value = x.whole :=
  (value_of_nonnegative hx).trans (x.exact_value.symm.trans h.exact_value_eq)

theorem isWhole_iff {x : Binary64} (hx : x.negative = false) :
    x.IsWhole ↔ ∃ k : ℕ, x.value = k ∧ k < 10 ^ 15 := by
  constructor
  · intro h
    exact ⟨x.whole, h.value_eq hx, h.whole_lt⟩
  · rintro ⟨k, hk, hlt⟩
    have hvalue : x.value = x.exact.value := (value_of_nonnegative hx).trans x.exact_value.symm
    have hunits : (x.units : ℚ) = (k * 2 ^ unitBits : ℕ) := by
      rw [value_of_nonnegative hx, div_eq_iff two_pow_unitBits_pos.ne'] at hk
      rw [hk, Nat.cast_mul, Nat.cast_pow, Nat.cast_ofNat]
    have hreach : ¬ x.reaches 15 = true := by
      rw [reaches_iff, ← hvalue, hk, not_le]
      exact_mod_cast hlt
    refine ⟨by simpa using hreach, ?_⟩
    rw [Nat.cast_inj.1 hunits]
    exact Nat.dvd_mul_left _ _

end ClassicAsp.Binary64
