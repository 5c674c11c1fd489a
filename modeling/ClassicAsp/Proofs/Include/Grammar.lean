import ClassicAsp.Proofs.Include

/-! The written form of include directives as a grammar, and where directives stand in a text. A
directive is read exactly where a text of the grammar begins, so the grammar leaves no choice of
where one ends. A search finds the leftmost directive that does not start before an offset. -/
namespace ClassicAsp

namespace Text

@[simp] theorem bytes_nil : bytes [] = 0 := rfl

@[simp] theorem bytes_cons (c : Char) (s : Text) : bytes (c :: s) = c.utf8Size + bytes s := rfl

@[simp] theorem bytes_append (s t : Text) : bytes (s ++ t) = bytes s + bytes t := by
  induction s with
  | nil => simp
  | cons c s ih =>
    simp only [List.cons_append, bytes_cons, ih]
    omega

theorem bytes_pos {s : Text} (h : s ≠ []) : 0 < bytes s := by
  obtain ⟨c, t, rfl⟩ := List.exists_cons_of_ne_nil h
  have := c.utf8Size_pos
  simp only [bytes_cons]
  omega

theorem bytes_eq_utf8ByteSize (s : Text) : bytes s = (String.ofList s).utf8ByteSize := by
  induction s with
  | nil => simp
  | cons c s ih =>
    have hc : String.ofList (c :: s) = String.ofList [c] ++ String.ofList s := by
      rw [← String.ofList_append, List.singleton_append]
    simp [hc, ih]

def IsBoundary (s : Text) (n : ℕ) : Prop := String.Pos.Raw.IsValid (String.ofList s) ⟨n⟩

theorem isBoundary_iff {s : Text} {n : ℕ} :
    IsBoundary s n ↔ ∃ before after, s = before ++ after ∧ n = bytes before := by
  apply String.Pos.Raw.isValid_iff_exists_append.trans
  constructor
  · intro ⟨a, b, hs, hn⟩
    refine ⟨a.toList, b.toList, ?_, ?_⟩
    · simpa using congrArg String.toList hs
    · have ha := congrArg String.Pos.Raw.byteIdx hn
      simpa [bytes_eq_utf8ByteSize] using ha
  · intro ⟨a, b, hs, hn⟩
    refine ⟨String.ofList a, String.ofList b, ?_, ?_⟩
    · rw [hs, String.ofList_append]
    · simp [hn, bytes_eq_utf8ByteSize, String.rawEndPos]

theorem prefix_of_bytes_le {s a b : Text} (ha : a <+: s) (hb : b <+: s)
    (h : bytes a ≤ bytes b) : a <+: b := by
  rcases List.prefix_or_prefix_of_prefix ha hb with hab | ⟨c, rfl⟩
  · exact hab
  · by_cases hc : c = []
    · simp [hc]
    · have := bytes_pos hc
      simp only [bytes_append] at h
      omega

@[simp] theorem dropBytes_append (a b : Text) : dropBytes (bytes a) (a ++ b) = b := by
  induction a with
  | nil => cases b <;> simp [dropBytes]
  | cons c a ih =>
    have := c.utf8Size_pos
    simp only [List.cons_append, dropBytes, bytes_cons]
    split
    · omega
    · simpa using ih

/-- What a span cuts out of a text. Both of its ends are boundaries. -/
def Cut (s : Text) (span : Span) (w : Text) : Prop :=
  ∃ before after, s = before ++ (w ++ after) ∧ span.start = bytes before ∧
    span.stop = bytes before + bytes w

theorem Cut.isBoundary {s w : Text} {span : Span} (h : Cut s span w) :
    IsBoundary s span.start ∧ IsBoundary s span.stop := by
  obtain ⟨before, after, hs, hstart, hstop⟩ := h
  constructor
  · exact isBoundary_iff.2 ⟨before, w ++ after, hs, hstart⟩
  · exact isBoundary_iff.2 ⟨before ++ w, after, by simp [hs], by simp [hstop]⟩

end Text

namespace Directive

open Text (Cut IsBoundary bytes bytes_pos sameWord expect)

def IsBlanks (s : Text) : Prop := ∀ c ∈ s, isAsciiBlank c = true

inductive Opens (kind : IncludeKind) : Text → Prop where
  | mk {b₁ keyword b₂ word b₃ b₄} (hb₁ : IsBlanks b₁)
      (hkeyword : sameWord "#include".toList keyword = true) (hb₂ : IsBlanks b₂) (hne : b₂ ≠ [])
      (hword : sameWord kind.word word = true) (hb₃ : IsBlanks b₃) (hb₄ : IsBlanks b₄) :
      Opens kind
        ("<!--".toList ++ (b₁ ++ (keyword ++ (b₂ ++ (word ++ (b₃ ++ '=' :: (b₄ ++ ['"'])))))))

/-- A directive in any of its written forms. -/
inductive WrittenAs : Directive → Text → Prop where
  | mk {kind path opening b} (ho : Opens kind opening) (hpath : '"' ∉ path) (hb : IsBlanks b) :
      WrittenAs ⟨kind, path⟩ (opening ++ (path ++ '"' :: (b ++ "-->".toList)))

theorem skipBlanks_split (s : Text) : ∃ b, IsBlanks b ∧ s = b ++ skipBlanks s :=
  ⟨s.takeWhile isAsciiBlank, List.all_eq_true.1 List.all_takeWhile,
    List.takeWhile_append_dropWhile.symm⟩

theorem skipBlanks_blanks {b s : Text} (hb : IsBlanks b)
    (hs : ∀ c ∈ s.head?, isAsciiBlank c = false) : skipBlanks (b ++ s) = s :=
  Text.dropWhile_append hb hs

theorem skipBlanks_mark {b : Text} {c : Char} (hb : IsBlanks b) (hc : isAsciiBlank c = false)
    (s : Text) : skipBlanks (b ++ c :: s) = c :: s :=
  skipBlanks_blanks hb (by simpa using hc)

theorem toLower_of_isAsciiBlank {c : Char} (h : isAsciiBlank c = true) : c.toLower = c := by
  simp only [isAsciiBlank, Bool.or_eq_true, beq_iff_eq] at h
  rcases h with (((rfl | rfl) | rfl) | rfl) | rfl <;> decide

theorem head_sameWord {a : Char} {word w : Text} (ha : isAsciiBlank a.toLower = false)
    (h : sameWord (a :: word) w = true) (s : Text) :
    ∀ c ∈ (w ++ s).head?, isAsciiBlank c = false := by
  intro c hc
  cases w with
  | nil => simp [sameWord] at h
  | cons b w =>
    obtain rfl : b = c := by simpa using hc
    simp only [sameWord, Bool.and_eq_true, beq_iff_eq] at h
    by_contra hb
    rw [h.1, toLower_of_isAsciiBlank (by simpa using hb)] at ha
    exact hb ha

theorem kind_eq_some_iff {s rest : Text} {k : IncludeKind} :
    IncludeKind.read? s = some (k, rest) ↔
      ∃ word, sameWord k.word word = true ∧ s = word ++ rest := by
  constructor
  · intro h
    have hword : expect k.word s = some rest := by
      unfold IncludeKind.read? at h
      split at h
      · next e =>
        cases h
        exact e
      · obtain ⟨t, e, he⟩ := Option.map_eq_some_iff.1 h
        cases he
        exact e
    obtain ⟨word, hs, hw⟩ := Text.expect_split hword
    exact ⟨word, (Text.sameWord_iff _ _).2 hw.symm, hs⟩
  · rintro ⟨word, hw, rfl⟩
    cases k with
    | file => simp [IncludeKind.read?, Text.expect_sameWord hw]
    | virtual =>
      have hfile : expect IncludeKind.file.word (word ++ rest) = none := by
        cases word with
        | nil => cases hw
        | cons c word =>
          have hc : 'v'.toLower = c.toLower := beq_iff_eq.1 (Bool.and_eq_true_iff.1 hw).1
          have hne : 'f'.toLower ≠ c.toLower := by
            rw [← hc]
            decide
          exact if_neg hne
      simp [IncludeKind.read?, hfile, Text.expect_sameWord hw]

theorem header?_split {s p : Text} {k : IncludeKind} (h : header? s = some (k, p)) :
    ∃ opening, Opens k opening ∧ s = opening ++ p := by
  unfold header? at h
  obtain ⟨s₁, e₁, h⟩ := Option.bind_eq_some_iff.1 h
  obtain ⟨s₂, e₂, h⟩ := Option.bind_eq_some_iff.1 h
  split at h
  · next hblank =>
    obtain ⟨⟨k', s₃⟩, e₃, h⟩ := Option.bind_eq_some_iff.1 h
    obtain ⟨s₄, e₄, h⟩ := Option.bind_eq_some_iff.1 h
    obtain ⟨s₅, e₅, he⟩ := Option.map_eq_some_iff.1 h
    cases he
    obtain ⟨b₁, hb₁, h₁⟩ := skipBlanks_split s₁
    obtain ⟨keyword, hk, hkeyword⟩ := Text.expect_split e₂
    obtain ⟨b₂, hb₂, h₂⟩ := skipBlanks_split s₂
    obtain ⟨word, hword, h₃⟩ := kind_eq_some_iff.1 e₃
    obtain ⟨b₃, hb₃, h₄⟩ := skipBlanks_split s₃
    obtain ⟨b₄, hb₄, h₅⟩ := skipBlanks_split s₄
    have hmark := Text.eq_of_expect (by decide) e₁
    have hequal := Text.eq_of_expect (by decide) e₄
    have hquote := Text.eq_of_expect (by decide) e₅
    have hne : b₂ ≠ [] := by
      rintro rfl
      have hhead := List.head?_dropWhile_not isAsciiBlank s₂
      rw [List.nil_append] at h₂
      rw [← skipBlanks, ← h₂] at hhead
      cases s₂ with
      | nil => cases hblank
      | cons c s₂ =>
        have hc : isAsciiBlank c = true := hblank
        simp [hc] at hhead
    refine ⟨_, .mk hb₁ ((Text.sameWord_iff _ _).2 hkeyword.symm) hb₂ hne hword hb₃ hb₄, ?_⟩
    rw [hmark, h₁, hk, h₂, h₃, h₄, hequal, h₅, hquote]
    simp
  · cases h

theorem header?_opening {k : IncludeKind} {opening : Text} (ho : Opens k opening) (p : Text) :
    header? (opening ++ p) = some (k, p) := by
  cases ho with
  | @mk b₁ keyword b₂ word b₃ b₄ hb₁ hkeyword hb₂ hne hword hb₃ hb₄ =>
    have hblank : ∀ t, ((b₂ ++ t).head?).any isAsciiBlank = true := by
      intro t
      obtain ⟨c, b, rfl⟩ := List.exists_cons_of_ne_nil hne
      exact hb₂ c (by simp)
    have hkind : ∀ t, ∀ c ∈ (word ++ t).head?, isAsciiBlank c = false := by
      intro t
      cases k with
      | file => exact head_sameWord (by decide) hword t
      | virtual => exact head_sameWord (by decide) hword t
    have hmark : ∀ t, expect "<!--".toList ("<!--".toList ++ t) = some t :=
      Text.expect_sameWord (by decide)
    have hequal : ∀ t, expect ['='] ('=' :: t) = some t := fun _ => rfl
    simp only [header?, List.append_assoc, List.cons_append, List.nil_append, hmark,
      Option.bind_some, skipBlanks_blanks hb₁ (head_sameWord (by decide) hkeyword _),
      Text.expect_sameWord hkeyword, hblank, if_true, skipBlanks_blanks hb₂ (hkind _),
      kind_eq_some_iff.2 ⟨word, hword, rfl⟩]
    rw [skipBlanks_mark hb₃ (by decide), hequal, Option.bind_some,
      skipBlanks_mark hb₄ (by decide), expect_quote, Option.map_some]

/-- An opening is read exactly where one is written. -/
theorem header?_eq_some_iff {s p : Text} {k : IncludeKind} :
    header? s = some (k, p) ↔ ∃ opening, Opens k opening ∧ s = opening ++ p := by
  constructor
  · exact header?_split
  · rintro ⟨opening, ho, rfl⟩
    exact header?_opening ho p

theorem closing?_eq_some_iff {s rest : Text} :
    closing? s = some rest ↔ ∃ b, IsBlanks b ∧ s = b ++ ("-->".toList ++ rest) := by
  constructor
  · intro h
    obtain ⟨b, hb, hs⟩ := skipBlanks_split s
    refine ⟨b, hb, ?_⟩
    rw [← Text.eq_of_expect (by decide) h]
    exact hs
  · rintro ⟨b, hb, rfl⟩
    have hskip : skipBlanks (b ++ ("-->".toList ++ rest)) = "-->".toList ++ rest :=
      skipBlanks_mark hb (by decide) _
    rw [closing?, hskip]
    exact Text.expect_sameWord (by decide) rest

/-- The reader accepts exactly the texts of the grammar, and leaves what follows them. -/
theorem read?_eq_some_iff {s rest : Text} {d : Directive} :
    read? s = some (d, rest) ↔ ∃ w, d.WrittenAs w ∧ s = w ++ rest := by
  rw [read?_eq_some]
  constructor
  · rintro ⟨after, hh, hpath, hc⟩
    obtain ⟨opening, ho, rfl⟩ := header?_eq_some_iff.1 hh
    obtain ⟨b, hb, rfl⟩ := closing?_eq_some_iff.1 hc
    exact ⟨_, .mk ho hpath hb, by simp⟩
  · rintro ⟨w, hw, rfl⟩
    cases hw with
    | @mk k path opening b ho hpath hb =>
      refine ⟨b ++ ("-->".toList ++ rest), ?_, hpath, closing?_eq_some_iff.2 ⟨b, hb, rfl⟩⟩
      exact header?_eq_some_iff.2 ⟨opening, ho, by simp⟩

def Begins (s : Text) : Prop := ∃ d w rest, WrittenAs d w ∧ s = w ++ rest

theorem read?_eq_none_iff {s : Text} : read? s = none ↔ ¬ Begins s := by
  constructor
  · rintro h ⟨d, w, rest, hw, hs⟩
    rw [read?_eq_some_iff.2 ⟨w, hw, hs⟩] at h
    cases h
  · intro h
    cases hr : read? s with
    | none => rfl
    | some dr =>
      obtain ⟨w, hw, hs⟩ := read?_eq_some_iff.1 hr
      exact absurd ⟨dr.1, w, dr.2, hw, hs⟩ h

theorem WrittenAs.ne_nil {d : Directive} {w : Text} (h : d.WrittenAs w) : w ≠ [] := by
  cases h
  simp

def Bare (s after : Text) : Prop := ∀ u v, s = u ++ v → v ≠ [] → ¬ Begins (v ++ after)

theorem bare_nil (after : Text) : Bare [] after := by
  intro u v h hv
  simp_all

theorem bare_cons {c : Char} {s after : Text} (hc : ¬ Begins (c :: (s ++ after)))
    (h : Bare s after) : Bare (c :: s) after := by
  intro u v hu hv
  cases u with
  | nil =>
    obtain rfl : c :: s = v := hu
    exact hc
  | cons b u => exact h u v (List.cons.inj hu).2 hv

theorem bare_concat {c : Char} {s after : Text} (h : Bare s (c :: after))
    (hc : ¬ Begins (c :: after)) : Bare (s ++ [c]) after := by
  induction s with
  | nil => exact bare_cons hc (bare_nil after)
  | cons b s ih =>
    apply bare_cons
    · have hb := h [] (b :: s) rfl (by simp)
      simpa using hb
    · apply ih
      intro u v hu hv
      exact h (b :: u) v (by simp [hu]) hv

def At (d : Directive) (s : Text) (span : Span) : Prop := ∃ w, d.WrittenAs w ∧ Cut s span w

theorem At.unique {d d' : Directive} {s : Text} {span span' : Span} (h : d.At s span)
    (h' : d'.At s span') (heq : span.start = span'.start) : d = d' ∧ span = span' := by
  obtain ⟨w, hw, a, b, hs, hstart, hstop⟩ := h
  obtain ⟨w', hw', a', b', hs', hstart', hstop'⟩ := h'
  have ha : a <+: a' := Text.prefix_of_bytes_le ⟨_, hs.symm⟩ ⟨_, hs'.symm⟩ (by omega)
  have ha' : a' <+: a := Text.prefix_of_bytes_le ⟨_, hs'.symm⟩ ⟨_, hs.symm⟩ (by omega)
  obtain rfl : a = a' := List.IsPrefix.eq_of_length_le ha ha'.length_le
  have hrest : w ++ b = w' ++ b' := List.append_cancel_left (hs.symm.trans hs')
  have hread : read? (w ++ b) = some (d, b) := read?_eq_some_iff.2 ⟨w, hw, rfl⟩
  have hread' : read? (w ++ b) = some (d', b') := read?_eq_some_iff.2 ⟨w', hw', hrest⟩
  rw [hread] at hread'
  cases hread'
  have hlen : w = w' := List.append_cancel_right hrest
  constructor
  · rfl
  · cases span
    cases span'
    simp_all

theorem Bare.not_at {s before m after : Text} (hbare : Bare m after)
    (hs : s = before ++ (m ++ after)) {d : Directive} {span : Span} (h : d.At s span)
    (hstart : bytes before ≤ span.start) : bytes before + bytes m ≤ span.start := by
  obtain ⟨w, hw, a, b, ha, hspan, -⟩ := h
  by_contra hlt
  obtain ⟨u, rfl⟩ : before <+: a :=
    Text.prefix_of_bytes_le ⟨_, hs.symm⟩ ⟨_, ha.symm⟩ (by omega)
  have hrest : m ++ after = u ++ (w ++ b) := by
    have hboth := hs.symm.trans ha
    rwa [List.append_assoc, List.append_cancel_left_eq] at hboth
  simp only [Text.bytes_append] at hspan
  obtain ⟨v, rfl⟩ : u <+: m :=
    Text.prefix_of_bytes_le ⟨_, hrest.symm⟩ (List.prefix_append m after) (by omega)
  have hv : v ≠ [] := by
    rintro rfl
    simp only [List.append_nil] at hlt
    omega
  apply hbare u v rfl hv
  rw [List.append_assoc] at hrest
  exact ⟨d, w, b, hw, List.append_cancel_left hrest⟩

theorem findFrom?_eq_some {start : ℕ} {s : Text} {d : Directive} {span : Span}
    (h : findFrom? start s = some (d, span)) :
    ∃ before w after, s = before ++ (w ++ after) ∧ d.WrittenAs w ∧ Bare before (w ++ after) ∧
      span = ⟨start + bytes before, start + bytes before + bytes w⟩ := by
  induction s generalizing start with
  | nil => cases h
  | cons c s ih =>
    simp only [findFrom?] at h
    cases hr : read? (c :: s) with
    | some dr =>
      obtain ⟨w, hw, hs⟩ := read?_eq_some_iff.1 hr
      simp only [hr] at h
      cases h
      refine ⟨[], w, dr.2, hs, hw, bare_nil _, ?_⟩
      simp [hs]
    | none =>
      simp only [hr] at h
      obtain ⟨before, w, after, rfl, hw, hbare, rfl⟩ := ih h
      refine ⟨c :: before, w, after, rfl, hw, ?_, ?_⟩
      · exact bare_cons (read?_eq_none_iff.1 hr) hbare
      · simp only [Text.bytes_cons, Nat.add_assoc]

theorem findFrom?_eq_none {start : ℕ} {s : Text} (h : findFrom? start s = none) : Bare s [] := by
  induction s generalizing start with
  | nil => exact bare_nil []
  | cons c s ih =>
    simp only [findFrom?] at h
    cases hr : read? (c :: s) with
    | some dr =>
      simp only [hr] at h
      cases h
    | none =>
      simp only [hr] at h
      apply bare_cons
      · simpa using read?_eq_none_iff.1 hr
      · exact ih h

/-- The leftmost of the directives that do not start before an offset. -/
structure IsFirst (s : Text) (offset : ℕ) (d : Directive) (span : Span) : Prop where
  stands : d.At s span
  behind : offset ≤ span.start
  leftmost : ∀ d' span', At d' s span' → offset ≤ span'.start → span.start ≤ span'.start

variable {s : Text} {offset : ℕ}

theorem find?_eq_some {d : Directive} {span : Span} (ho : IsBoundary s offset)
    (h : find? s offset = some (d, span)) : IsFirst s offset d span := by
  obtain ⟨before, after, rfl, rfl⟩ := Text.isBoundary_iff.1 ho
  rw [find?, Text.dropBytes_append] at h
  obtain ⟨m, w, rest, rfl, hw, hbare, rfl⟩ := findFrom?_eq_some h
  constructor
  · exact ⟨w, hw, before ++ m, rest, by simp, by simp, by simp⟩
  · exact Nat.le_add_right _ _
  · intro d' span' hat hle
    exact hbare.not_at rfl hat hle

theorem find?_eq_none (ho : IsBoundary s offset) (h : find? s offset = none) {d : Directive}
    {span : Span} (hat : d.At s span) : span.start < offset := by
  obtain ⟨before, after, rfl, rfl⟩ := Text.isBoundary_iff.1 ho
  rw [find?, Text.dropBytes_append] at h
  by_contra hle
  have hwhole : before ++ after = before ++ (after ++ []) := by simp
  have hend := (findFrom?_eq_none h).not_at hwhole hat (by omega)
  -- a directive that starts at the end of the text would be empty
  obtain ⟨w, hw, a, b, hs, hstart, -⟩ := hat
  have hlen := congrArg bytes hs
  have := bytes_pos hw.ne_nil
  simp only [Text.bytes_append] at hlen
  omega

theorem find?_eq_some_iff (ho : IsBoundary s offset) {d : Directive} {span : Span} :
    find? s offset = some (d, span) ↔ IsFirst s offset d span := by
  constructor
  · exact find?_eq_some ho
  · intro h
    cases hf : find? s offset with
    | none =>
      have := find?_eq_none ho hf h.stands
      have := h.behind
      omega
    | some found =>
      obtain ⟨d', span'⟩ := found
      have h' := find?_eq_some ho hf
      have hle := h.leftmost d' span' h'.stands h'.behind
      have hge := h'.leftmost d span h.stands h.behind
      obtain ⟨rfl, rfl⟩ := h.stands.unique h'.stands (by omega)
      rfl

theorem find?_eq_none_iff (ho : IsBoundary s offset) :
    find? s offset = none ↔ ∀ d span, At d s span → span.start < offset := by
  constructor
  · intro h d span hat
    exact find?_eq_none ho h hat
  · intro h
    cases hf : find? s offset with
    | none => rfl
    | some found =>
      have hfirst := find?_eq_some ho hf
      have := h _ _ hfirst.stands
      have := hfirst.behind
      omega

end Directive

end ClassicAsp
