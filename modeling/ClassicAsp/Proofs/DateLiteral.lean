import ClassicAsp.DateLiteral
import ClassicAsp.Lexeme.Literal
import ClassicAsp.Proofs.Number.Decimal
import ClassicAsp.Proofs.Text
import Mathlib.Tactic.SplitIfs

/-! Dates between the marks of a literal. A value is written in a layout that is read back, and no
reader before the one of that layout takes it. A plus sign in front of a year does not occur between
the marks, so a value that was read there is written in characters that may stand there. -/
namespace ClassicAsp.DateLiteral

open Decimal (IsDigits digitsValue digitsValue_lt isDigits_toDigits isDigits_zeros isDigit_iff)

theorem isSpace_of_isDigit {c : Char} (h : c.isDigit = true) : isSpace c = false := by
  have hb := (isDigit_iff c).1 h
  simp only [isSpace, CharSet.contains, whiteSpace, List.any_cons, List.any_nil, Bool.or_false,
    Bool.or_eq_false_iff, Bool.and_eq_false_iff, decide_eq_false_iff_not]
  omega

theorem isDigits_padded (w n : ℕ) : IsDigits (padded w n) :=
  (isDigits_zeros _).append (isDigits_toDigits n)

theorem padded_ne_nil (w n : ℕ) : padded w n ≠ [] := by
  intro h
  exact Nat.toDigits_ne_nil (List.append_eq_nil_iff.1 h).2

@[simp] theorem digitsValue_padded (w n : ℕ) : digitsValue (padded w n) = n := by
  rw [padded, Decimal.digitsValue_append]
  have hz := Decimal.digitsValue_zeros (w - (Text.ofNat n).length)
  rw [Decimal.zeros] at hz
  rw [hz, Nat.mul_zero, Nat.zero_add]
  exact Nat.ofDigitChars_ten_toDigits

theorem length_padded {w n : ℕ} (hw : 0 < w) (h : n < 10 ^ w) : (padded w n).length = w := by
  have hl := (Nat.length_toDigits_le_iff (b := 10) (n := n) (by decide) hw).2 h
  have hlen : (Text.ofNat n).length ≤ w := hl
  rw [padded, List.length_append, List.length_replicate]
  omega

theorem leadingDigits_append {s rest : Text} (hs : IsDigits s) (hne : s ≠ [])
    (hr : ∀ c ∈ rest.head?, c.isDigit = false) :
    leadingDigits (s ++ rest) = some (digitsValue s, rest) := by
  simp only [leadingDigits, Text.takeWhile_append hs hr, Text.dropWhile_append hs hr, hne,
    if_false]
  rfl

theorem number?_append {w : ℕ} {s rest : Text} (hs : IsDigits s) (hne : s ≠ [])
    (hw : s.length ≤ w) (hr : s.length = w ∨ ∀ c ∈ rest.head?, c.isDigit = false) :
    number? w (s ++ rest) = some (digitsValue s, rest) := by
  have ht : (s ++ rest).take w = s ++ rest.take (w - s.length) := by
    rw [List.take_append, List.take_of_length_le hw]
  have hd : (s ++ rest).drop w = rest.drop (w - s.length) := by
    rw [List.drop_append, List.drop_of_length_le hw, List.nil_append]
  have hh : ∀ c ∈ (rest.take (w - s.length)).head?, c.isDigit = false := by
    intro c hc
    rcases hr with h | h
    · simp [h] at hc
    · rw [List.head?_take] at hc
      split at hc
      · cases hc
      · exact h c hc
  rw [number?, ht, hd, leadingDigits_append hs hne hh, Option.map_some]
  simp only [List.take_append_drop]

theorem trimStart_padded (w n : ℕ) (s : Text) :
    Text.trimStart (padded w n ++ s) = padded w n ++ s := by
  obtain ⟨c, t, h⟩ := List.exists_cons_of_ne_nil (padded_ne_nil w n)
  apply Text.trimStart_of_head
  intro x hx
  rw [h] at hx
  have hc : c = x := by simpa using hx
  apply isSpace_of_isDigit
  apply isDigits_padded w n
  simp [h, hc]

theorem number?_padded {w n : ℕ} (hw : 0 < w) (h : n < 10 ^ w) (s : Text) :
    number? w (Text.trimStart (padded w n ++ s)) = some (n, s) := by
  have hl := length_padded hw h
  rw [trimStart_padded, number?_append (isDigits_padded w n) (padded_ne_nil w n) hl.le (.inl hl),
    digitsValue_padded]

theorem year?_append {s rest : Text} (hs : IsDigits s) (hne : s ≠ []) (hl : s.length ≤ 4)
    (hr : s.length = 4 ∨ ∀ c ∈ rest.head?, c.isDigit = false) :
    year? (s ++ rest) = some ((digitsValue s : ℤ), rest) := by
  have hn := number?_append hs hne hl hr
  obtain ⟨c, t, rfl⟩ := List.exists_cons_of_ne_nil hne
  have hc : c.isDigit = true := hs c (by simp)
  rw [List.cons_append] at hn ⊢
  unfold year?
  split
  · next e => cases e; simp at hc
  · next e => cases e; simp at hc
  · rw [hn]
    rfl

theorem year?_padded {n : ℕ} {c : Char} (h : n < 100) (hc : c.isDigit = false) (s : Text) :
    year? (Text.trimStart (padded 2 n ++ c :: s)) = some ((n : ℤ), c :: s) := by
  have hl : (padded 2 n).length = 2 := length_padded (by decide) h
  rw [trimStart_padded, year?_append (isDigits_padded 2 n) (padded_ne_nil 2 n) (by omega)
    (.inr (by simpa using hc)), digitsValue_padded]

theorem isSpace_sign : isSpace '-' = false ∧ isSpace '+' = false := by decide

theorem year?_yearText (y : ℤ) {s : Text} (hs : ∀ c ∈ s.head?, c.isDigit = false) :
    year? (Text.trimStart (yearText y ++ s)) = some (y, s) := by
  have hdigits : leadingDigits (padded 4 y.natAbs ++ s) = some (y.natAbs, s) := by
    simp [leadingDigits_append (isDigits_padded 4 _) (padded_ne_nil 4 _) hs]
  unfold yearText
  split_ifs with h1 h2
  · rw [Text.trimStart_of_head (by simp [isSpace_sign.1]), List.cons_append]
    simp only [year?]
    rw [hdigits, Option.map_some]
    congr 2
    omega
  · rw [Text.trimStart_of_head (by simp [isSpace_sign.2]), List.cons_append]
    simp only [year?]
    rw [hdigits, Option.map_some]
    congr 2
    omega
  · have hl : (padded 4 y.natAbs).length = 4 := length_padded (by decide) (by omega)
    rw [trimStart_padded, year?_append (isDigits_padded 4 _) (padded_ne_nil 4 _) hl.le (.inl hl),
      digitsValue_padded]
    congr 2
    omega

/-! Reading the pieces of a layout back. -/

theorem month_le (d : CivilDate) : d.month ≤ 12 := by
  have h := d.valid
  simp only [isDay, Bool.and_eq_true, decide_eq_true_eq] at h
  exact h.1.1.2

theorem daysInMonth_le (y : ℤ) (m : ℕ) : daysInMonth y m ≤ 31 := by
  unfold daysInMonth
  split_ifs <;> omega

theorem day_le (d : CivilDate) : d.day ≤ 31 := by
  have h := d.valid
  simp only [isDay, Bool.and_eq_true, decide_eq_true_eq] at h
  exact h.2.trans (daysInMonth_le _ _)

theorem time_lt (t : ClockTime) : t.hour < 24 ∧ t.minute < 60 ∧ t.second ≤ 60 := by
  have h := t.valid
  simp only [isTime, Bool.and_eq_true, decide_eq_true_eq] at h
  exact ⟨h.1.1, h.1.2, h.2⟩

theorem readPieces_monthFirst (d : CivilDate) (n m : Numbers) (hm :
    m.year = d.year ∧ m.month = d.month ∧ m.day = d.day) {s : Text}
    (hs : ∀ c ∈ s.head?, c.isDigit = false) (ps : List Piece) :
    readPieces n (writePieces m monthFirst ++ s) (monthFirst ++ ps) =
      readPieces { n with year := d.year, month := d.month, day := d.day } s ps := by
  have hmonth := number?_padded (w := 2) (n := d.month) (by decide)
    (by have := month_le d; omega)
  have hday := number?_padded (w := 2) (n := d.day) (by decide) (by have := day_le d; omega)
  obtain ⟨h1, h2, h3⟩ := hm
  simp only [monthFirst, writePieces, List.flatMap_cons, List.flatMap_nil, Piece.write, h1, h2, h3,
    List.append_assoc, List.cons_append, List.nil_append, readPieces, Piece.read, hmonth, hday,
    year?_yearText d.year hs, Option.map_some, Option.bind_some, if_true]

theorem readPieces_clock (t : ClockTime) :
    readPieces {} (writePieces { hour := t.hour, minute := t.minute, second := t.second } clock)
      clock = some { hour := t.hour, minute := t.minute, second := t.second } := by
  obtain ⟨hh, hm, hs⟩ := time_lt t
  have hhour := number?_padded (w := 2) (n := t.hour) (by decide) (by omega)
  have hminute := number?_padded (w := 2) (n := t.minute) (by decide) (by omega)
  have hsecond := number?_padded (w := 2) (n := t.second) (by decide) (by omega) []
  rw [List.append_nil] at hsecond
  simp only [clock, writePieces, List.flatMap_cons, List.flatMap_nil, Piece.write,
    List.cons_append, List.nil_append, readPieces, Piece.read, hhour, hminute,
    hsecond, List.append_nil, Option.map_some, Option.bind_some, if_true]

@[simp] theorem readPieces_mark (n : Numbers) (c : Char) (s : Text) (ps : List Piece) :
    readPieces n (c :: s) (.mark c :: ps) = readPieces n s ps := by
  simp [readPieces, Piece.read]

/-- An hour from one to twelve and the half of the day determine the hour. -/
theorem hour_of_half {h : ℕ} (hh : h < 24) :
    1 ≤ (if h % 12 = 0 then 12 else h % 12) ∧ (if h % 12 = 0 then 12 else h % 12) ≤ 12 ∧
      (if h % 12 = 0 then 12 else h % 12) % 12 + (if h < 12 then 0 else 12) = h := by
  split_ifs <;> omega

theorem readPieces_half (n : Numbers) (h : ℕ) :
    readPieces n (' ' :: (if h < 12 then ['A', 'M'] else ['P', 'M'])) [.blank, .half] =
      some { n with hour := n.hour + if h < 12 then 0 else 12 } := by
  have ha : Text.trimStart [' ', 'A', 'M'] = ['A', 'M'] := by decide
  have hp : Text.trimStart [' ', 'P', 'M'] = ['P', 'M'] := by decide
  split_ifs
  · simp only [readPieces, Piece.read, ha, Option.bind_some]
    rfl
  · simp only [readPieces, Piece.read, hp, Option.bind_some]
    rfl

theorem readPieces_halfDayClock (t : ClockTime) (n m : Numbers)
    (hm : m.hour = t.hour ∧ m.minute = t.minute ∧ m.second = t.second) :
    readPieces n (' ' :: writePieces m halfDayClock) (.blank :: halfDayClock) =
      some { n with hour := t.hour, minute := t.minute, second := t.second } := by
  obtain ⟨hh, hmin, hsec⟩ := time_lt t
  obtain ⟨h1, h2, h3⟩ := hm
  obtain ⟨hlow, hhigh, hhour⟩ := hour_of_half hh
  have hread := number?_padded (w := 2) (n := if t.hour % 12 = 0 then 12 else t.hour % 12)
    (by decide) (by omega)
  have hminute := number?_padded (w := 2) (n := t.minute) (by decide) (by omega)
  have hsecond := number?_padded (w := 2) (n := t.second) (by decide) (by omega)
  have hspace : ∀ s, Text.trimStart (' ' :: (padded 2 (if t.hour % 12 = 0 then 12
      else t.hour % 12) ++ s)) = padded 2 (if t.hour % 12 = 0 then 12 else t.hour % 12) ++ s := by
    intro s
    rw [Text.trimStart_cons (by decide), trimStart_padded]
  have hlast := readPieces_half
    { n with
      hour := (if t.hour % 12 = 0 then 12 else t.hour % 12) % 12
      minute := t.minute
      second := t.second } t.hour
  rw [hhour] at hlast
  simp only [halfDayClock, writePieces, List.flatMap_cons, List.flatMap_nil, Piece.write,
    h1, h2, h3, List.cons_append, List.nil_append, List.append_nil] at hlast ⊢
  rw [readPieces]
  simp only [Piece.read, hspace, Option.bind_some]
  rw [readPieces]
  simp only [Piece.read, hread, hlow, hhigh, and_self, if_true, Option.bind_some]
  rw [readPieces_mark, readPieces]
  simp only [Piece.read, hminute, Option.map_some, Option.bind_some]
  rw [readPieces_mark, readPieces]
  simp only [Piece.read, hsecond, Option.map_some, Option.bind_some]
  exact hlast

/-- A layout whose first number is closed by another mark than that of the text fails. -/
theorem readPieces_other_mark {p : Piece} (hp : p = .day ∨ p = .month ∨ p = .year) {k : ℕ}
    (hk : k < 100) {c a : Char} (hc : c.isDigit = false) (hca : c ≠ a) (n : Numbers) (s : Text)
    (ps : List Piece) : readPieces n (padded 2 k ++ c :: s) (p :: .mark a :: ps) = none := by
  have hn := number?_padded (w := 2) (n := k) (by decide) (by omega) (c :: s)
  have hy := year?_padded hk hc s
  rcases hp with rfl | rfl | rfl <;>
    simp [readPieces, Piece.read, hn, hy, hca]

theorem date?_ofDate (d : CivilDate) (n : Numbers)
    (h : n.year = d.year ∧ n.month = d.month ∧ n.day = d.day) : n.date? = some d := by
  obtain ⟨h1, h2, h3⟩ := h
  cases d
  simp_all [Numbers.date?]

theorem time?_of (t : ClockTime) (n : Numbers)
    (h : n.hour = t.hour ∧ n.minute = t.minute ∧ n.second = t.second) : n.time? = some t := by
  obtain ⟨h1, h2, h3⟩ := h
  cases t
  simp_all [Numbers.time?]

@[simp] theorem writePieces_append (n : Numbers) (ps qs : List Piece) :
    writePieces n (ps ++ qs) = writePieces n ps ++ writePieces n qs :=
  List.flatMap_append

theorem isDigit_getLast_padded (w n : ℕ) : ∀ c ∈ (padded w n).getLast?, c.isDigit = true := by
  intro c hc
  exact isDigits_padded w n c (List.mem_of_getLast? hc)

theorem isDigit_getLast_yearText (y : ℤ) : ∀ c ∈ (yearText y).getLast?, c.isDigit = true := by
  intro c hc
  unfold yearText at hc
  split_ifs at hc
  · rw [List.getLast?_cons_of_ne_nil (padded_ne_nil _ _)] at hc
    exact isDigit_getLast_padded _ _ c hc
  · rw [List.getLast?_cons_of_ne_nil (padded_ne_nil _ _)] at hc
    exact isDigit_getLast_padded _ _ c hc
  · exact isDigit_getLast_padded _ _ c hc

theorem yearText_ne_nil (y : ℤ) : yearText y ≠ [] := by
  unfold yearText
  split_ifs
  · simp
  · simp
  · exact padded_ne_nil _ _

theorem trim_padded {k : ℕ} {s t : Text} (hne : t ≠ [])
    (ht : ∀ c ∈ t.getLast?, isSpace c = false) :
    Text.trim (padded 2 k ++ (s ++ t)) = padded 2 k ++ (s ++ t) := by
  apply Text.trim_of_ends
  · intro c hc
    rw [← trimStart_padded] at hc
    exact Text.head_trimStart _ c hc
  · rw [List.getLast?_append_of_ne_nil _ (by simp [hne]), List.getLast?_append_of_ne_nil _ hne]
    exact ht

/-- A date or a time that is written without the plus sign, which no literal contains. -/
def HasPlainYear : DateLiteral → Prop
  | dateTime d _ | date d => d.year ≤ 9999
  | time _ => True
  | text _ => False

theorem readers_of_slash {k : ℕ} (hk : k < 100) (s : Text) :
    (readers.findSome? fun r => r (padded 2 k ++ '/' :: s)) =
      ((readDateTime? (monthFirst ++ .blank :: halfDayClock) (padded 2 k ++ '/' :: s)).or
        ((readDate? monthFirst (padded 2 k ++ '/' :: s)).or
          ((readDate? monthFirstDashed (padded 2 k ++ '/' :: s)).or
            (readTime? clock (padded 2 k ++ '/' :: s))))) := by
  have hd : ∀ ps, readPieces {} (padded 2 k ++ '/' :: s) (.day :: .mark '-' :: ps) = none :=
    fun ps => readPieces_other_mark (.inl rfl) hk rfl (by decide) _ _ _
  have hy : ∀ ps, readPieces {} (padded 2 k ++ '/' :: s) (.year :: .mark '-' :: ps) = none :=
    fun ps => readPieces_other_mark (.inr (.inr rfl)) hk rfl (by decide) _ _ _
  have h1 : readDateTime? (namedDay ++ .blank :: clock) (padded 2 k ++ '/' :: s) = none := by
    simp only [readDateTime?, namedDay, List.cons_append, hd, Option.bind_none]
  have h2 : readDateTime? (yearFirst ++ .blank :: clock) (padded 2 k ++ '/' :: s) = none := by
    simp only [readDateTime?, yearFirst, List.cons_append, hy, Option.bind_none]
  have h4 : readDate? namedDay (padded 2 k ++ '/' :: s) = none := by
    simp only [readDate?, namedDay, hd, Option.bind_none]
  have h5 : readDate? yearFirst (padded 2 k ++ '/' :: s) = none := by
    simp only [readDate?, yearFirst, hy, Option.bind_none]
  simp only [readers, List.findSome?, h1, h2, h4, h5]
  cases readDateTime? (monthFirst ++ .blank :: halfDayClock) (padded 2 k ++ '/' :: s)
  · cases readDate? monthFirst (padded 2 k ++ '/' :: s)
    · cases readDate? monthFirstDashed (padded 2 k ++ '/' :: s)
      · cases readTime? clock (padded 2 k ++ '/' :: s) <;> rfl
      · rfl
    · rfl
  · rfl

theorem read_write_date (d : CivilDate) : read (write (.date d)) = .date d := by
  have hw : write (.date d) =
      padded 2 d.month ++ ('/' :: (padded 2 d.day ++ ['/']) ++ yearText d.year) := by
    simp [write, writePieces, monthFirst, Piece.write, ofDate]
  have hk : d.month < 100 := by have := month_le d; omega
  have htrim : Text.trim (write (.date d)) = write (.date d) := by
    rw [hw]
    exact trim_padded (yearText_ne_nil _)
      (fun c hc => isSpace_of_isDigit (isDigit_getLast_yearText _ c hc))
  have hdate := readPieces_monthFirst d {} (ofDate d) ⟨rfl, rfl, rfl⟩ (s := []) (by simp)
  rw [List.append_nil] at hdate
  have h3 : readDateTime? (monthFirst ++ .blank :: halfDayClock) (write (.date d)) = none := by
    rw [readDateTime?, write, hdate]
    rfl
  have h6 : readDate? monthFirst (write (.date d)) = some (.date d) := by
    have hp := hdate []
    rw [List.append_nil] at hp
    rw [readDate?, write, hp, readPieces, if_pos rfl, Option.bind_some,
      date?_ofDate d _ ⟨rfl, rfl, rfl⟩, Option.map_some]
  rw [read, htrim]
  rw [hw, List.cons_append] at h3 h6 ⊢
  rw [readers_of_slash hk, h3, h6]
  rfl

theorem isSpace_half (h : ℕ) :
    ∀ c ∈ (if h < 12 then ['A', 'M'] else ['P', 'M']).getLast?, isSpace c = false := by
  intro c hc
  split_ifs at hc
  · obtain rfl : 'M' = c := Option.some.inj hc
    decide
  · obtain rfl : 'M' = c := Option.some.inj hc
    decide

theorem read_write_dateTime (d : CivilDate) (t : ClockTime) :
    read (write (.dateTime d t)) = .dateTime d t := by
  obtain ⟨n, hn⟩ : ∃ n : Numbers,
      n = { ofDate d with hour := t.hour, minute := t.minute, second := t.second } := ⟨_, rfl⟩
  have hw : write (.dateTime d t) =
      writePieces n monthFirst ++ ' ' :: writePieces n halfDayClock := by
    rw [write, hn, writePieces_append]
    rfl
  obtain ⟨s, hs⟩ : ∃ s, write (.dateTime d t) = padded 2 d.month ++
      ('/' :: s ++ if t.hour < 12 then ['A', 'M'] else ['P', 'M']) := by
    refine ⟨padded 2 d.day ++ '/' :: (yearText d.year ++
      ' ' :: (padded 2 (if t.hour % 12 = 0 then 12 else t.hour % 12) ++
        ':' :: (padded 2 t.minute ++ ':' :: (padded 2 t.second ++ [' '])))), ?_⟩
    rw [hw, hn]
    simp [writePieces, monthFirst, halfDayClock, Piece.write, ofDate]
  have hk : d.month < 100 := by have := month_le d; omega
  have htrim : Text.trim (write (.dateTime d t)) = write (.dateTime d t) := by
    rw [hs]
    exact trim_padded (by split_ifs <;> simp) (isSpace_half _)
  have h3 : readDateTime? (monthFirst ++ .blank :: halfDayClock) (write (.dateTime d t)) =
      some (.dateTime d t) := by
    rw [readDateTime?, hw, readPieces_monthFirst d {} n (by simp [hn, ofDate]) (by simp),
      readPieces_halfDayClock t _ n (by simp [hn]), Option.bind_some,
      date?_ofDate d _ ⟨rfl, rfl, rfl⟩, time?_of t _ ⟨rfl, rfl, rfl⟩]
    rfl
  rw [read, htrim]
  rw [hs, List.cons_append] at h3 ⊢
  rw [readers_of_slash hk, h3]
  rfl

theorem read_write_time (t : ClockTime) : read (write (.time t)) = .time t := by
  have hw : write (.time t) = padded 2 t.hour ++
      (':' :: (padded 2 t.minute ++ [':']) ++ padded 2 t.second) := by
    simp [write, writePieces, clock, Piece.write]
  have hk : t.hour < 100 := by have := time_lt t; omega
  have htrim : Text.trim (write (.time t)) = write (.time t) := by
    rw [hw]
    exact trim_padded (padded_ne_nil _ _)
      (fun c hc => isSpace_of_isDigit (isDigit_getLast_padded _ _ c hc))
  have hother : ∀ p a ps, (p = .day ∨ p = .month ∨ p = .year) → ':' ≠ a →
      readPieces {} (write (.time t)) (p :: .mark a :: ps) = none := by
    intro p a ps hp ha
    rw [hw]
    exact readPieces_other_mark hp hk rfl ha _ _ _
  have hd := fun ps => hother .day '-' ps (.inl rfl) (by decide)
  have hy := fun ps => hother .year '-' ps (.inr (.inr rfl)) (by decide)
  have hs := fun ps => hother .month '/' ps (.inr (.inl rfl)) (by decide)
  have hm := fun ps => hother .month '-' ps (.inr (.inl rfl)) (by decide)
  have h8 : readTime? clock (write (.time t)) = some (.time t) := by
    rw [readTime?, write, readPieces_clock, Option.bind_some, time?_of t _ ⟨rfl, rfl, rfl⟩,
      Option.map_some]
  rw [read, htrim]
  simp only [readers, List.findSome?, readDateTime?, readDate?, namedDay, yearFirst, monthFirst,
    monthFirstDashed, List.cons_append, hd, hy, hs, hm, Option.bind_none, h8, Option.getD_some]

/-! Without a plus sign in the text, a year is below ten thousand. -/

theorem leadingDigits_spec {s rest : Text} {n : ℕ} (h : leadingDigits s = some (n, rest)) :
    n < 10 ^ s.length ∧ rest <:+ s := by
  unfold leadingDigits at h
  dsimp only at h
  split_ifs at h
  cases h
  refine ⟨?_, List.dropWhile_suffix _⟩
  have hd : IsDigits (s.takeWhile Char.isDigit) :=
    fun c hc => List.all_eq_true.1 List.all_takeWhile c hc
  exact (digitsValue_lt hd).trans_le
    (Nat.pow_le_pow_right (by decide) (List.takeWhile_prefix _).length_le)

theorem number?_spec {w n : ℕ} {s rest : Text} (h : number? w s = some (n, rest)) :
    n < 10 ^ w ∧ rest <:+ s := by
  unfold number? at h
  obtain ⟨⟨m, left⟩, hl, he⟩ := Option.map_eq_some_iff.1 h
  cases he
  obtain ⟨hn, ht, hleft⟩ := leadingDigits_spec hl
  refine ⟨hn.trans_le (Nat.pow_le_pow_right (by decide) (List.length_take_le _ _)), ht, ?_⟩
  rw [← List.append_assoc, hleft, List.take_append_drop]

theorem year?_spec {s rest : Text} {y : ℤ} (h : year? s = some (y, rest)) (hp : '+' ∉ s) :
    y ≤ 9999 ∧ rest <:+ s := by
  unfold year? at h
  split at h
  · next t =>
    obtain ⟨⟨n, u⟩, hn, he⟩ := Option.map_eq_some_iff.1 h
    cases he
    exact ⟨by omega, (leadingDigits_spec hn).2.trans (List.suffix_cons _ _)⟩
  · simp at hp
  · obtain ⟨⟨n, u⟩, hn, he⟩ := Option.map_eq_some_iff.1 h
    cases he
    obtain ⟨hlt, hs⟩ := number?_spec hn
    exact ⟨by omega, hs⟩

theorem trimStart_suffix (s : Text) : Text.trimStart s <:+ s := List.dropWhile_suffix _

theorem Piece.read_year {p : Piece} {n m : Numbers} {s rest : Text}
    (h : p.read n s = some (m, rest)) (hp : '+' ∉ s) (hy : n.year ≤ 9999) :
    m.year ≤ 9999 ∧ '+' ∉ rest := by
  have hsub : ∀ {t}, t <:+ s → '+' ∉ t := fun ht hm => hp (ht.subset hm)
  have htrim := trimStart_suffix s
  cases p with
  | year =>
    obtain ⟨⟨y, t⟩, hr, he⟩ := Option.map_eq_some_iff.1 h
    cases he
    obtain ⟨hle, hs⟩ := year?_spec hr (hsub htrim)
    exact ⟨hle, hsub (hs.trans htrim)⟩
  | month | day | hour | minute | second =>
    obtain ⟨⟨y, t⟩, hr, he⟩ := Option.map_eq_some_iff.1 h
    cases he
    exact ⟨hy, hsub ((number?_spec hr).2.trans htrim)⟩
  | hourOfHalf =>
    obtain ⟨⟨y, t⟩, hr, he⟩ := Option.bind_eq_some_iff.1 h
    dsimp only at he
    split_ifs at he
    cases he
    exact ⟨hy, hsub ((number?_spec hr).2.trans htrim)⟩
  | monthName =>
    obtain ⟨⟨y, t⟩, hr, he⟩ := Option.map_eq_some_iff.1 h
    cases he
    unfold monthName? at hr
    dsimp only at hr
    split_ifs at hr
    cases hr
    exact ⟨hy, hsub (List.drop_suffix _ _)⟩
  | half =>
    unfold Piece.read at h
    dsimp only at h
    split at h
    · cases h
      exact ⟨hy, hsub (List.drop_suffix _ _)⟩
    · cases h
      exact ⟨hy, hsub (List.drop_suffix _ _)⟩
    · cases h
  | mark c =>
    unfold Piece.read at h
    dsimp only at h
    split at h
    · split_ifs at h
      cases h
      exact ⟨hy, hsub (List.suffix_cons _ _)⟩
    · cases h
  | blank =>
    cases h
    exact ⟨hy, hsub htrim⟩

theorem readPieces_year {ps : List Piece} {n m : Numbers} {s : Text}
    (h : readPieces n s ps = some m) (hp : '+' ∉ s) (hy : n.year ≤ 9999) : m.year ≤ 9999 := by
  induction ps generalizing n s with
  | nil =>
    unfold readPieces at h
    split_ifs at h
    cases h
    exact hy
  | cons p ps ih =>
    obtain ⟨⟨k, t⟩, hr, hk⟩ := Option.bind_eq_some_iff.1 h
    obtain ⟨hyk, hpt⟩ := Piece.read_year hr hp hy
    exact ih hk hpt hyk

theorem date?_year {n : Numbers} {d : CivilDate} (h : n.date? = some d) : d.year = n.year := by
  unfold Numbers.date? at h
  split_ifs at h
  cases h
  rfl

theorem readers_spec {r : Text → Option DateLiteral} (hr : r ∈ readers) {s : Text}
    {d : DateLiteral} (h : r s = some d) :
    (∃ layout n a, readPieces {} s layout = some n ∧ n.date? = some a ∧
      (d = .date a ∨ ∃ t, d = .dateTime a t)) ∨ ∃ t, d = .time t := by
  have hdt : ∀ ps, readDateTime? ps s = some d → ∃ layout n a, readPieces {} s layout = some n ∧
      n.date? = some a ∧ (d = .date a ∨ ∃ t, d = .dateTime a t) := by
    intro ps h
    obtain ⟨n, hn, h⟩ := Option.bind_eq_some_iff.1 h
    obtain ⟨a, ha, h⟩ := Option.bind_eq_some_iff.1 h
    obtain ⟨t, -, rfl⟩ := Option.map_eq_some_iff.1 h
    exact ⟨ps, n, a, hn, ha, .inr ⟨t, rfl⟩⟩
  have hd : ∀ ps, readDate? ps s = some d → ∃ layout n a, readPieces {} s layout = some n ∧
      n.date? = some a ∧ (d = .date a ∨ ∃ t, d = .dateTime a t) := by
    intro ps h
    obtain ⟨n, hn, h⟩ := Option.bind_eq_some_iff.1 h
    obtain ⟨a, ha, rfl⟩ := Option.map_eq_some_iff.1 h
    exact ⟨ps, n, a, hn, ha, .inl rfl⟩
  have ht : ∀ ps, readTime? ps s = some d → ∃ t, d = .time t := by
    intro ps h
    obtain ⟨n, -, h⟩ := Option.bind_eq_some_iff.1 h
    obtain ⟨t, -, rfl⟩ := Option.map_eq_some_iff.1 h
    exact ⟨t, rfl⟩
  simp only [readers, List.mem_cons, List.not_mem_nil, or_false] at hr
  rcases hr with rfl | rfl | rfl | rfl | rfl | rfl | rfl | rfl
  · exact .inl (hdt _ h)
  · exact .inl (hdt _ h)
  · exact .inl (hdt _ h)
  · exact .inl (hd _ h)
  · exact .inl (hd _ h)
  · exact .inl (hd _ h)
  · exact .inl (hd _ h)
  · exact .inr (ht _ h)

theorem readers_hasPlainYear {r : Text → Option DateLiteral} (hr : r ∈ readers) {s : Text}
    {d : DateLiteral} (h : r s = some d) (hp : '+' ∉ s) : d.HasPlainYear := by
  rcases readers_spec hr h with ⟨layout, n, a, hn, ha, hd⟩ | ⟨t, rfl⟩
  · have hyear : a.year ≤ 9999 := (date?_year ha).trans_le (readPieces_year hn hp (by decide))
    rcases hd with rfl | ⟨t, rfl⟩
    · exact hyear
    · exact hyear
  · trivial

theorem read_cases (s : Text) :
    (∃ r ∈ readers, r (Text.trim s) = some (read s)) ∨ read s = .text s := by
  unfold read
  cases h : readers.findSome? fun r => r (Text.trim s) with
  | none => exact Or.inr rfl
  | some d => exact Or.inl (List.exists_of_findSome?_eq_some h)

/-- Whatever was read is read from its own text again. A text that is no date is no date again. -/
theorem read_write_read (s : Text) : read (write (read s)) = read s := by
  rcases read_cases s with ⟨r, hr, h⟩ | h
  · generalize read s = d at h
    rcases readers_spec hr h with ⟨-, -, a, -, -, rfl | ⟨t, rfl⟩⟩ | ⟨t, rfl⟩
    · exact read_write_date a
    · exact read_write_dateTime a t
    · exact read_write_time t
  · rw [h]
    exact h

theorem isDateChar_padded (w n : ℕ) : ∀ c ∈ padded w n, Lexeme.isDateChar c = true := by
  intro c hc
  simp [Lexeme.isDateChar, isDigits_padded w n c hc]

theorem isDateChar_yearText {y : ℤ} (h : y ≤ 9999) :
    ∀ c ∈ yearText y, Lexeme.isDateChar c = true := by
  intro c hc
  unfold yearText at hc
  split_ifs at hc
  · rcases List.mem_cons.1 hc with rfl | hc
    · decide
    · exact isDateChar_padded _ _ c hc
  · omega
  · exact isDateChar_padded _ _ c hc

theorem isDateChar_write {p : Piece} (hp : p ∈ monthFirst ++ .blank :: halfDayClock ∨ p ∈ clock)
    {n : Numbers} (hy : n.year ≤ 9999) : ∀ c ∈ p.write n, Lexeme.isDateChar c = true := by
  have hslash : Lexeme.isDateChar '/' = true := by decide
  have hcolon : Lexeme.isDateChar ':' = true := by decide
  have hblank : Lexeme.isDateChar ' ' = true := by decide
  intro c hc
  cases p with
  | year => exact isDateChar_yearText hy c hc
  | month | day | hour | hourOfHalf | minute | second => exact isDateChar_padded _ _ c hc
  | half =>
    rw [Piece.write] at hc
    split_ifs at hc
    · exact List.all_eq_true.1 (show ['A', 'M'].all Lexeme.isDateChar = true by decide) c hc
    · exact List.all_eq_true.1 (show ['P', 'M'].all Lexeme.isDateChar = true by decide) c hc
  | mark a =>
    rw [List.mem_singleton.1 hc]
    simp only [monthFirst, halfDayClock, clock, List.cons_append, List.nil_append, List.mem_cons,
      List.not_mem_nil, Piece.mark.injEq, reduceCtorEq, false_or, or_false] at hp
    rcases hp with (rfl | rfl | rfl | rfl) | rfl | rfl <;> assumption
  | blank =>
    rw [List.mem_singleton.1 hc]
    exact hblank
  | monthName => simp [monthFirst, halfDayClock, clock] at hp

theorem isDateChar_of_hasPlainYear {d : DateLiteral} (h : d.HasPlainYear) :
    ∀ c ∈ write d, Lexeme.isDateChar c = true := by
  have hpieces : ∀ (n : Numbers) (ps : List Piece), n.year ≤ 9999 →
      (∀ p ∈ ps, p ∈ monthFirst ++ .blank :: halfDayClock ∨ p ∈ clock) →
      ∀ c ∈ writePieces n ps, Lexeme.isDateChar c = true := by
    intro n ps hy hps c hc
    obtain ⟨p, hp, hc⟩ := List.mem_flatMap.1 hc
    exact isDateChar_write (hps p hp) hy c hc
  cases d with
  | dateTime d t => exact hpieces _ _ h fun p hp => .inl hp
  | date d => exact hpieces _ _ h fun p hp => .inl (List.mem_append_left _ hp)
  | time t =>
    have hy : (0 : ℤ) ≤ 9999 := by decide
    exact hpieces _ _ hy fun p hp => .inr hp
  | text s => exact h.elim

theorem isDateChar_write_read {s : Text} (hs : ∀ c ∈ s, Lexeme.isDateChar c = true) :
    ∀ c ∈ write (read s), Lexeme.isDateChar c = true := by
  have hp : '+' ∉ s := fun h => absurd (hs _ h) (by decide)
  rcases read_cases s with ⟨r, hr, h⟩ | h
  · exact isDateChar_of_hasPlainYear
      (readers_hasPlainYear hr h fun hm => hp ((Text.trim_infix s).subset hm))
  · rw [h]
    exact hs

end ClassicAsp.DateLiteral
