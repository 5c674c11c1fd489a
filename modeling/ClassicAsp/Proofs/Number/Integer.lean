import ClassicAsp.Number
import ClassicAsp.Proofs.Number.Decimal
import ClassicAsp.Proofs.Text
import Mathlib.Data.Nat.Digits.Defs

/-! Integer literals. Digits have a value if each of them counts less than the base, which is then
their positional value; what has no sign has a value that is not negative; and the decimal form of
a value in range is read back. -/
namespace ClassicAsp.Integer

open Decimal (IsDigits isDigits_toDigits isDigit_iff head_toDigits)

def hexDigits : Text := "0123456789abcdef".toList

def digitValue (c : Char) : ℕ := hexDigits.idxOf c.toLower

def positional (base : ℕ) (d : Text) : ℕ := Nat.ofDigits base (d.map digitValue).reverse

theorem positional_eq_foldl (base : ℕ) (d : Text) :
    positional base d = d.foldl (fun n c => base * n + digitValue c) 0 := by
  rw [positional, Nat.ofDigits_eq_foldr, List.foldr_reverse, List.foldl_map]
  simp only [Nat.cast_id, Nat.add_comm]

theorem digitValue?_toLower {c : Char} (h : c.toLower ∈ hexDigits) (base : ℕ) :
    digitValue? base c.toLower = if digitValue c < base then some (digitValue c) else none := by
  have hall : ∀ x ∈ hexDigits, ((if x.isDigit then some (x.toNat - '0'.toNat)
      else if 'a' ≤ x ∧ x ≤ 'z' then some (x.toNat - 'a'.toNat + 10) else none) ==
        some (hexDigits.idxOf x)) = true :=
    List.all_eq_true.1 (by decide)
  unfold digitValue?
  dsimp only
  rw [beq_iff_eq.1 (hall _ h), Option.filter_some]
  exact if_congr decide_eq_true_iff rfl rfl

theorem foldlM_digitValue? {d : Text} (h : ∀ c ∈ d, c.toLower ∈ hexDigits) (base n : ℕ) :
    (Text.lower d).foldlM (fun n c => (digitValue? base c).map (base * n + ·)) n =
      if d.all fun c => digitValue c < base then
        some (d.foldl (fun n c => base * n + digitValue c) n) else none := by
  induction d generalizing n with
  | nil => simp [Text.lower]
  | cons c d ih =>
    change (digitValue? base c.toLower).map (base * n + ·) >>= _ = _
    rw [digitValue?_toLower (h c (by simp))]
    by_cases hc : digitValue c < base
    · rw [if_pos hc]
      refine (ih (fun x hx => h x (by simp [hx])) _).trans ?_
      simp [hc]
    · rw [if_neg hc, if_neg (by simp [hc])]
      rfl

theorem magnitude?_lower {d : Text} (h : ∀ c ∈ d, c.toLower ∈ hexDigits) (base : ℕ) :
    magnitude? base (Text.lower d) =
      if d.all fun c => digitValue c < base then some (positional base d) else none := by
  rw [positional_eq_foldl]
  exact foldlM_digitValue? h base 0

@[simp] theorem inRange_natCast {n : ℕ} : inRange (n : ℤ) = true ↔ n < 2 ^ 63 := by
  simp only [inRange, Bool.and_eq_true, decide_eq_true_eq]
  omega

theorem signed?_of_head {base : ℕ} {s : Text} (hne : s ≠ [])
    (hs : ∀ c ∈ s.head?, c ≠ '+' ∧ c ≠ '-') :
    signed? base s = ((magnitude? base s).map Int.ofNat).filter inRange := by
  unfold signed?
  split
  · exact absurd rfl hne
  · exact absurd rfl (hs '+' rfl).1
  · exact absurd rfl (hs '-' rfl).2
  · exact absurd rfl (hs '-' rfl).2
  · exact absurd rfl (hs '+' rfl).1
  · rfl

theorem signed?_minus {base : ℕ} {s : Text} (hne : s ≠ []) :
    signed? base ('-' :: s) = ((magnitude? base s).map fun n : ℕ => -(n : ℤ)).filter inRange := by
  cases s with
  | nil => exact absurd rfl hne
  | cons c s =>
    simp only [signed?]
    cases magnitude? base (c :: s) <;> rfl

/-- Digits without a sign have a value exactly if each is one of the base and their positional value
is in range. -/
theorem signed?_lower {base : ℕ} {d : Text} (hne : d ≠ []) (h : ∀ c ∈ d, c.toLower ∈ hexDigits) :
    signed? base (Text.lower d) =
      if (d.all fun c => digitValue c < base) ∧ positional base d < 2 ^ 63 then
        some (positional base d : ℤ) else none := by
  have hlower : Text.lower d ≠ [] := by simpa [Text.lower] using hne
  have hhead : ∀ c ∈ (Text.lower d).head?, c ≠ '+' ∧ c ≠ '-' := by
    intro c hc
    obtain ⟨x, hx, rfl⟩ := List.mem_map.1 (List.mem_of_mem_head? hc)
    have hsign : '+' ∉ hexDigits ∧ '-' ∉ hexDigits := by decide
    exact ⟨fun hc => hsign.1 (hc ▸ h x hx), fun hc => hsign.2 (hc ▸ h x hx)⟩
  rw [signed?_of_head hlower hhead, magnitude?_lower h]
  by_cases hall : (d.all fun c => digitValue c < base) = true
  · rw [if_pos hall, Option.map_some, Option.filter_some]
    exact if_congr (inRange_natCast.trans (and_iff_right hall).symm) rfl rfl
  · rw [if_neg hall, if_neg fun hboth => hall hboth.1]
    rfl

theorem toLower_of_isDigit {c : Char} (h : c.isDigit = true) : c.toLower = c := by
  have hb : 48 ≤ c.toNat ∧ c.toNat ≤ 57 := (isDigit_iff c).1 h
  refine dif_neg fun hu => ?_
  simp [UInt32.le_iff_toNat_le] at hu
  omega

theorem lower_of_isDigits {s : Text} (h : IsDigits s) : Text.lower s = s := by
  unfold Text.lower
  conv_rhs => rw [← List.map_id s]
  apply List.map_congr_left
  intro c hc
  exact toLower_of_isDigit (h c hc)

theorem signed?_unsigned {base : ℕ} {s : Text} {i : ℤ} (h : signed? base s = some i)
    (hs : '-' ∉ s) : 0 ≤ i ∧ i < 0x8000000000000000 := by
  unfold signed? at h
  obtain ⟨hv, hr⟩ := Option.filter_eq_some_iff.1 h
  simp only [inRange, Bool.and_eq_true, decide_eq_true_eq] at hr
  refine ⟨?_, hr.2⟩
  split at hv
  · cases hv
  · cases hv
  · cases hv
  · simp at hs
  · obtain ⟨n, -, rfl⟩ := Option.map_eq_some_iff.1 hv
    exact Int.natCast_nonneg n
  · obtain ⟨n, -, rfl⟩ := Option.map_eq_some_iff.1 hv
    exact Int.natCast_nonneg n

theorem not_mem_lower {s : Text} (h : '-' ∉ s) : '-' ∉ Text.lower s := by
  intro hm
  obtain ⟨c, hc, he⟩ := List.mem_map.1 hm
  rw [Text.eq_of_toLower (by decide) he] at hc
  exact h hc

theorem read?_unsigned {s : Text} {i : ℤ} (h : read? s = some i) (hs : '-' ∉ s) :
    0 ≤ i ∧ i < 0x8000000000000000 := by
  have hl := not_mem_lower hs
  unfold read? at h
  split at h
  · next he => exact signed?_unsigned h (fun hm => hl (by rw [he]; simp [hm]))
  · next he => exact signed?_unsigned h (fun hm => hl (by rw [he]; simp [hm]))
  · exact signed?_unsigned h hl

theorem mem_hexDigits_of_isDigit {c : Char} (h : c.isDigit = true) : c.toLower ∈ hexDigits := by
  have hb := (isDigit_iff c).1 h
  have hall : ∀ c : Char, c.toNat < 58 → c.isDigit = true → c.toLower ∈ hexDigits :=
    Text.forall_char_lt (by decide)
  exact hall c (by omega) h

theorem read?_isDigits {d : Text} (h : IsDigits d) (hne : d ≠ []) :
    read? d = signed? 10 (Text.lower d) := by
  obtain ⟨c, d, rfl⟩ := List.exists_cons_of_ne_nil hne
  have hc : c ≠ '&' := by
    rintro rfl
    exact absurd (h '&' (by simp)) (by decide)
  rw [read?, lower_of_isDigits h]
  split
  · next he => exact absurd (List.cons.inj he).1 hc
  · next he => exact absurd (List.cons.inj he).1 hc
  · rfl

theorem digitValue_of_isDigit {c : Char} (h : c.isDigit = true) :
    digitValue c = c.toNat - '0'.toNat := by
  have hb := (isDigit_iff c).1 h
  have hall : ∀ c : Char, c.toNat < 58 → c.isDigit = true → digitValue c = c.toNat - '0'.toNat :=
    Text.forall_char_lt (by decide)
  exact hall c (by omega) h

@[simp] theorem magnitude?_toDigits (n : ℕ) : magnitude? 10 (Nat.toDigits 10 n) = some n := by
  have hd := isDigits_toDigits n
  have hvalue : positional 10 (Nat.toDigits 10 n) = n := by
    rw [positional_eq_foldl]
    refine Eq.trans (List.foldl_ext _ _ _ ?_) Nat.ofDigitChars_ten_toDigits
    intro m c hc
    rw [digitValue_of_isDigit (hd c hc)]
  have hbase : ((Nat.toDigits 10 n).all fun c => digitValue c < 10) = true := by
    rw [List.all_eq_true]
    intro c hc
    rw [decide_eq_true_iff]
    have hb := (isDigit_iff c).1 (hd c hc)
    rw [digitValue_of_isDigit (hd c hc), show '0'.toNat = 48 from rfl]
    omega
  have hm := magnitude?_lower (fun c hc => mem_hexDigits_of_isDigit (hd c hc)) 10
  rw [lower_of_isDigits hd, if_pos hbase, hvalue] at hm
  exact hm

theorem read?_toDigits {n : ℕ} (h : n < 0x8000000000000000) :
    read? (Nat.toDigits 10 n) = some (n : ℤ) := by
  have hd := isDigits_toDigits n
  obtain ⟨c, s, hcs, hc⟩ := head_toDigits (n := n)
  have hhead : ∀ a ∈ (Nat.toDigits 10 n).head?, a ≠ '+' ∧ a ≠ '-' := by
    rw [hcs]
    rintro a ⟨⟩
    constructor
    · rintro rfl
      cases hc
    · rintro rfl
      cases hc
  rw [read?_isDigits hd Nat.toDigits_ne_nil, lower_of_isDigits hd,
    signed?_of_head Nat.toDigits_ne_nil hhead, magnitude?_toDigits, Option.map_some,
    Option.filter_some]
  exact if_pos (inRange_natCast.2 h)

theorem read?_ofInt {i : ℤ} (hl : -2 ^ 63 ≤ i) (hu : i < 2 ^ 63) : read? (Text.ofInt i) = some i := by
  have hd := isDigits_toDigits i.natAbs
  by_cases hi : i < 0
  · have hlower : Text.lower ('-' :: Nat.toDigits 10 i.natAbs) =
        '-' :: Nat.toDigits 10 i.natAbs :=
      congrArg ('-' :: ·) (lower_of_isDigits hd)
    have hr : inRange i = true := by
      simp only [inRange, Bool.and_eq_true, decide_eq_true_eq]
      omega
    rw [Text.ofInt, if_pos hi, Text.ofNat, read?, hlower]
    change signed? 10 ('-' :: Nat.toDigits 10 i.natAbs) = some i
    rw [signed?_minus Nat.toDigits_ne_nil, magnitude?_toDigits, Option.map_some,
      show -(i.natAbs : ℤ) = i by omega, Option.filter_some, if_pos hr]
  · rw [Text.ofInt, if_neg hi, Text.ofNat, read?_toDigits (by omega)]
    congr 1
    omega

end ClassicAsp.Integer
