import ClassicAsp.Proofs.Page
import ClassicAsp.Proofs.Transcript

/-! What the layout puts between two tokens. Behind a token of script the next one stands behind a
space, on a line of its own or outside the delimiters, or it is attached punctuation, and this is
boundary enough for every token that was read. -/
namespace ClassicAsp

namespace Token

/-- The token is not run into by the next one when both are laid out. -/
def Apart (t : Token) (next : Option Token) : Prop :=
  match t with
  | .statement w => w = .rem → ∀ u ∈ next, u = .lineEnd .newline
  | .punctuation c => c = '_' → ∃ u ∈ next, u ≠ .lineEnd .newline
  | .identifier _ | .function _ | .keyword _ | .boolean _ | .constant _ | .integer _ | .float _ =>
    ∀ c, next = some (.punctuation c) → Lexeme.isNameChar c = false
  | _ => True

end Token

def TokensApart : List Token → Prop
  | [] => True
  | t :: ts => t.Apart ts.head? ∧ TokensApart ts

theorem TokensApart.of_append {ts us : List Token} (h : TokensApart (ts ++ us)) :
    TokensApart us := by
  induction ts with
  | nil => exact h
  | cons t ts ih => exact ih h.2

/-- The tokens show what they are wherever they are put. -/
structure Plain (ts : List Token) : Prop where
  punctuation : ∀ c, Token.punctuation c ∈ ts → Lexeme.isNameChar c = false
  remark : Token.statement .rem ∉ ts
  comment : ∀ s, Token.comment s ∈ ts → Text.Lacks '%' '>' s

theorem Plain.subset {ts us : List Token} (h : Plain us) (hs : ∀ t ∈ ts, t ∈ us) : Plain ts :=
  ⟨fun c hc => h.punctuation c (hs _ hc), fun hr => h.remark (hs _ hr),
    fun s hc => h.comment s (hs _ hc)⟩

def Token.isPlain : Token → Bool
  | .punctuation c => !Lexeme.isNameChar c
  | .statement w => w != .rem
  | .comment s => decide (Text.Lacks '%' '>' s)
  | _ => true

theorem plain_iff {ts : List Token} : Plain ts ↔ ∀ t ∈ ts, t.isPlain = true := by
  constructor
  · intro h t ht
    cases t with
    | punctuation c =>
      have hc := h.punctuation c ht
      simp [Token.isPlain, hc]
    | statement w =>
      have hw : w ≠ .rem := by
        rintro rfl
        exact h.remark ht
      simpa [Token.isPlain] using hw
    | comment s =>
      have hs := h.comment s ht
      simpa [Token.isPlain] using hs
    | _ => rfl
  · intro h
    constructor
    · intro c hc
      simpa [Token.isPlain] using h _ hc
    · intro hr
      have hw := h _ hr
      simp [Token.isPlain] at hw
    · intro s hs
      simpa [Token.isPlain] using h _ hs

instance (ts : List Token) : Decidable (Plain ts) := decidable_of_iff _ plain_iff.symm

theorem Plain.apart {ts : List Token} (h : Plain ts) : TokensApart ts := by
  induction ts with
  | nil => trivial
  | cons t ts ih =>
    refine ⟨?_, ih (h.subset fun u hu => List.mem_cons_of_mem _ hu)⟩
    have hnext : ∀ c, ts.head? = some (.punctuation c) → Lexeme.isNameChar c = false :=
      fun c hc => h.punctuation c (List.mem_cons_of_mem _ (List.mem_of_mem_head? hc))
    cases t with
    | statement w =>
      rintro rfl
      exact absurd List.mem_cons_self h.remark
    | punctuation c =>
      rintro rfl
      exact absurd (h.punctuation '_' List.mem_cons_self) (by decide)
    | identifier | function | keyword | boolean | constant | integer | float => exact hnext
    | _ => trivial

namespace Layout

variable {o : Options} {s : Layout} {t : Token}

/-- A token of script has just been written, and its line goes on. -/
structure Behind (s : Layout) (t : Token) : Prop where
  mid : s.atLineStart = false
  code : s.owesCode = false
  inCode : s.inCode = true
  spacing : s.previous.spacesPunctuation = (Lookback.ofToken t).spacesPunctuation
  paren : s.afterParen = true → t = .punctuation '('
  dot : s.previous = .punctuation ')' → t = .punctuation ')'

theorem settle_fields (s : Layout) (ht : t.isMarkupLike = false) :
    (s.settle t).atLineStart = false ∧ (s.settle t).owesCode = false ∧
      (s.settle t).afterParen = false := by
  unfold settle
  simp only [ht, Bool.and_false]
  split
  · split <;> split <;> simp [dedent, beginLine]
  · split <;> simp_all [dedent, takeParen]

theorem owesCode_after (o : Options) (s : Layout) (ht : t.isMarkupLike = false) :
    (s.after o t).owesCode = false := by
  obtain ⟨-, hcode, -⟩ := settle_fields s ht
  cases t with
  | statement w =>
    simp only [after.eq_def]
    split
    · exact hcode
    · exact hcode
  | punctuation c =>
    simp only [after.eq_def]
    split
    · exact hcode
    · exact hcode
  | lineEnd e => cases e <;> exact hcode
  | markup | directive => cases ht
  | _ => exact hcode

theorem inCode_after (o : Options) (s : Layout) (ht : t.isMarkupLike = false) :
    (s.after o t).inCode = true := by
  have hprevious : (s.after o t).previous = .ofToken t := rfl
  rw [inCode, hprevious]
  cases t with
  | markup | directive => cases ht
  | _ => rfl

theorem behind_after (o : Options) (s : Layout) (ht : t.isMarkupLike = false)
    (he : ∀ e, t ≠ .lineEnd e) : (s.after o t).Behind t := by
  obtain ⟨hmid, -, hparen⟩ := settle_fields s ht
  have hprevious : (s.after o t).previous = .ofToken t := rfl
  have hfields : (s.after o t).atLineStart = false ∧
      ((s.after o t).afterParen = true → t = .punctuation '(') := by
    cases t with
    | statement w =>
      simp only [after.eq_def]
      split <;> simp [indent, hmid, hparen]
    | punctuation c =>
      simp only [after.eq_def]
      split
      · next hc => exact ⟨hmid, fun _ => by rw [hc]⟩
      · exact ⟨hmid, by simp [hparen]⟩
    | lineEnd e => exact absurd rfl (he e)
    | markup | directive => cases ht
    | _ => simp [after.eq_def, indent, hmid, hparen]
  refine ⟨hfields.1, owesCode_after o s ht, inCode_after o s ht, rfl, hfields.2, ?_⟩
  rw [hprevious]
  cases t with
  | punctuation c => simp [Lookback.ofToken]
  | _ => simp [Lookback.ofToken]

theorem behind_closer (s : Layout) (w : Statement) : (s.afterCloser w).Behind (.statement w) :=
  ⟨rfl, rfl, rfl, rfl, by simp [afterCloser, beginLine], by simp [afterCloser]⟩

theorem Behind.not_closes (h : s.Behind t) (u : Token) (ts : List Token) : ¬ s.Closes u ts := by
  intro hc
  rw [Closes, h.mid] at hc
  cases hc.1

theorem body_eq_printed (o : Options) (s : Layout) (ht : t.isMarkupLike = false)
    (hs : (o.rewrites && s.previous == .markup) = true →
      t ≠ .operator .equal ∧ t ≠ .lineEnd .newline) : s.body o t = t.printed := by
  cases t with
  | operator p =>
    cases p with
    | equal =>
      have hne : ¬ (o.rewrites && s.previous == .markup) = true := fun h => (hs h).1 rfl
      exact if_neg hne
    | _ => rfl
  | lineEnd e =>
    cases e with
    | newline =>
      have hne : ¬ (o.rewrites && s.previous == .markup) = true := fun h => (hs h).2 rfl
      exact if_neg hne
    | separator => rfl
  | markup | directive => cases ht
  | _ => rfl

theorem Behind.body_eq (h : s.Behind t) {u : Token} (hu : u.isMarkupLike = false) :
    s.body o u = u.printed := by
  apply body_eq_printed o s hu
  intro hr
  have hin := h.inCode
  have hmarkup : s.previous = .markup := by
    rw [Bool.and_eq_true, beq_iff_eq] at hr
    exact hr.2
  rw [Layout.inCode, hmarkup] at hin
  cases hin

inductive Onset (o : Options) (t : Token) : List Token → Text → Prop where
  | ended (h : o.rewrites = false) : Onset o t [] []
  | lastLine (h : o.rewrites = true) (rest : Text) : Onset o t [] ('\n' :: rest)
  | newline (ts : List Token) (rest : Text) :
      Onset o t (.lineEnd .newline :: ts) ('\n' :: rest)
  | delimiter {u : Token} (h : o.rewrites = false) (hu : u.isMarkupLike = true) (ts : List Token)
      (rest : Text) : Onset o t (u :: ts) (' ' :: '%' :: '>' :: rest)
  | ownLine {u : Token} (h : o.rewrites = true) (hu : u.isMarkupLike = true) (ts : List Token)
      (rest : Text) : Onset o t (u :: ts) ('\n' :: rest)
  | attached {c : Char} (h : (Lookback.ofToken t).spacesPunctuation = false) (ts : List Token)
      (rest : Text) : Onset o t (.punctuation c :: ts) (c :: rest)
  | spaced {u : Token} (hu : u.isMarkupLike = false) (hn : u ≠ .lineEnd .newline)
      (ts : List Token) (rest : Text) : Onset o t (u :: ts) (' ' :: (u.printed ++ rest))

theorem Behind.text_script (h : s.Behind t) {u : Token} (hu : u.isMarkupLike = false) :
    (s.write o u).text =
      (if !s.afterParen && s.spaces u then [' '] else []) ++ u.printed := by
  simp only [Written.text, write, h.code, h.mid, hu, h.body_eq hu, Bool.false_and,
    Bool.false_eq_true, if_false, Bool.not_false, Bool.true_or, Bool.and_true, List.nil_append,
    List.append_nil]

theorem Behind.text_page (h : s.Behind t) {u : Token} (hu : u.isMarkupLike = true) :
    (s.write o u).text =
      if o.rewrites then s.body o u
      else (if s.afterParen then [] else [' ']) ++ '%' :: '>' :: s.body o u := by
  have hspaces : s.spaces u = true := by
    cases u with
    | markup | directive => rfl
    | _ => cases hu
  simp only [Written.text, write, h.code, h.mid, h.inCode, hu, hspaces, Bool.not_true,
    Bool.false_eq_true, if_false, Bool.true_and, Bool.and_true, Bool.false_or]
  cases o.rewrites <;> cases s.afterParen <;> rfl

theorem Behind.body_page (h : s.Behind t) (ho : o.rewrites = true) {u : Token}
    (hu : u.isMarkupLike = true) : ∃ rest, s.body o u = '\n' :: rest := by
  cases u with
  | markup x => simp [body, ho, h.mid]
  | directive d => simp [body, ho, h.mid]
  | _ => cases hu

theorem Behind.spaces_eq (h : s.Behind t) (hr : t ≠ .punctuation ')') {u : Token}
    (hn : u ≠ .lineEnd .newline) (hp : ∀ c, u ≠ .punctuation c) : s.spaces u = true := by
  have hdot : s.previous ≠ .punctuation ')' := fun hd => hr (h.dot hd)
  cases u with
  | identifier name => simp [spaces.eq_def, hdot]
  | punctuation c => exact absurd rfl (hp c)
  | lineEnd e =>
    cases e with
    | newline => exact absurd rfl hn
    | separator => rfl
  | _ => rfl

theorem Behind.onset (h : s.Behind t) (hl : t ≠ .punctuation '(') (hr : t ≠ .punctuation ')')
    (ts : List Token) : Onset o t ts (lay o s ts) := by
  have hparen : s.afterParen = false := by
    by_contra hp
    exact hl (h.paren (by simpa using hp))
  cases ts with
  | nil =>
    rw [lay_nil, ending, h.mid]
    by_cases ho : o.rewrites = true
    · rw [if_pos ho]
      exact .lastLine ho _
    · rw [if_neg ho]
      exact .ended (by simpa using ho)
  | cons u us =>
    rw [lay_cons o (h.not_closes u us)]
    by_cases hu : u.isMarkupLike = true
    · rw [h.text_page hu, hparen]
      by_cases ho : o.rewrites = true
      · obtain ⟨rest, hrest⟩ := h.body_page ho hu
        rw [if_pos ho, hrest]
        exact .ownLine ho hu us _
      · rw [if_neg ho]
        exact .delimiter (by simpa using ho) hu us _
    · have hu : u.isMarkupLike = false := by simpa using hu
      rw [h.text_script hu, hparen]
      by_cases hn : u = .lineEnd .newline
      · rw [hn]
        exact .newline us _
      by_cases hp : ∃ c, u = .punctuation c
      · obtain ⟨c, rfl⟩ := hp
        have hspaces : s.spaces (.punctuation c) = (Lookback.ofToken t).spacesPunctuation :=
          h.spacing
        rw [hspaces]
        cases hsp : (Lookback.ofToken t).spacesPunctuation with
        | false => exact .attached hsp us _
        | true => exact .spaced rfl (by simp) us _
      · rw [h.spaces_eq hr hn fun c hc => hp ⟨c, hc⟩]
        simp only [Bool.not_false, Bool.true_and, if_true, List.cons_append, List.nil_append]
        exact .spaced hu hn us _

end Layout

namespace Token

open Layout (Onset)

theorem endsLine_newline (s : Text) : EndsLine ('\n' :: s) := by
  simp [EndsLine, Source.atLineEnd, Source.ofText]

theorem endsLine_nil : EndsLine [] := rfl

theorem not_endsLine {c : Char} (hc : isSpace c = false) (s : Text) : ¬ EndsLine (c :: s) := by
  have hne : ∀ x, isSpace x = true → c ≠ x := by
    rintro x hx rfl
    rw [hx] at hc
    cases hc
  have h1 := hne ' ' (by decide)
  have h2 := hne '\t' (by decide)
  have h3 := hne '\r' (by decide)
  have h4 := hne '\n' (by decide)
  simp [EndsLine, Source.atLineEnd, Source.ofText, h1, h2, h3, h4]

@[simp] theorem endsLine_space (s : Text) : EndsLine (' ' :: s) ↔ EndsLine s := by
  simp [EndsLine, Source.atLineEnd, Source.ofText]

theorem IsWord.head {t : Token} (ht : t.IsWord) : ∃ c s, t.text = c :: s ∧ isSpace c = false := by
  cases hs : t.text with
  | nil =>
    have hname := ht.name
    rw [hs] at hname
    cases hname
  | cons c s => exact ⟨c, s, rfl, not_isSpace_of_isName (hs ▸ ht.name)⟩

theorem head_digits (n : ℕ) : ∃ c s, Nat.toDigits 10 n = c :: s ∧ isSpace c = false := by
  obtain ⟨c, s, hs⟩ := List.exists_cons_of_ne_nil (@Nat.toDigits_ne_nil n 10)
  have hc := Decimal.isDigits_toDigits n c (by simp [hs])
  exact ⟨c, s, hs, DateLiteral.isSpace_of_isDigit hc⟩

theorem head_operator (o : Operator) :
    ∃ c s, (Token.operator o).printed = c :: s ∧ isSpace c = false := by
  have h : ∀ o ∈ Operator.all, o.spelling.head?.all (fun c => !isSpace c) = true ∧
      o.spelling ≠ [] := by
    decide +kernel
  obtain ⟨hhead, hne⟩ := h o o.mem_all
  rw [printed_operator]
  obtain ⟨c, u, hu⟩ := List.exists_cons_of_ne_nil hne
  rw [hu] at hhead
  exact ⟨c, u, hu, by simpa using hhead⟩

theorem head_printed {t : Token} (ht : t.Legible) (hn : t ≠ .lineEnd .newline) :
    ∃ c s, t.printed = c :: s ∧ isSpace c = false := by
  cases t with
  | statement w => exact (isWord_statement w).head
  | function f => exact (isWord_function f).head
  | keyword k => exact (isWord_keyword k).head
  | boolean b => exact (isWord_boolean b).head
  | constant c => exact (isWord_constant c).head
  | identifier s => exact IsWord.head ht
  | string s => exact ⟨'"', _, rfl, by decide⟩
  | integer i =>
    rw [printed_integer ht.1]
    exact head_digits _
  | float x =>
    by_cases hw : x.IsWhole
    · rw [printed_whole ht hw]
      exact head_digits _
    · obtain ⟨w, f, e, h⟩ := printed_fraction ht hw
      obtain ⟨c, r, rfl⟩ := List.exists_cons_of_ne_nil h.nonempty
      exact ⟨c, _, h.printed, DateLiteral.isSpace_of_isDigit (h.digits c (by simp))⟩
  | date d => exact ⟨'#', _, rfl, by decide⟩
  | comment s =>
    rw [printed_comment]
    split
    · exact ⟨'\'', _, rfl, by decide⟩
    · exact ⟨'\'', _, rfl, by decide⟩
  | operator o => exact head_operator o
  | punctuation c => exact ⟨c, [], rfl, ((Source.isPunctuation_iff c).1 ht).1⟩
  | lineEnd e =>
    cases e with
    | newline => exact absurd rfl hn
    | separator => exact ⟨':', _, rfl, by decide⟩
  | continuation => exact ⟨'_', [], rfl, by decide⟩
  | markup | directive | endOfInput => exact ht.elim

section Boundary

variable {o : Options} {t : Token} {ts : List Token} {rest : Text}

theorem head_onset (h : Onset o t ts rest) : ∀ c ∈ rest.head?, c = ' ' ∨ c = '\n' ∨
    ((Lookback.ofToken t).spacesPunctuation = false ∧ ts.head? = some (.punctuation c)) := by
  intro c hc
  cases h with
  | ended => cases hc
  | attached h => cases hc; exact .inr (.inr ⟨h, rfl⟩)
  | delimiter | spaced => cases hc; exact .inl rfl
  | lastLine | newline | ownLine => cases hc; exact .inr (.inl rfl)

theorem blank_onset (h : Onset o t ts rest)
    (ht : (Lookback.ofToken t).spacesPunctuation = true) : ∀ c ∈ rest.head?, c = ' ' ∨ c = '\n' := by
  intro c hc
  rcases head_onset h c hc with hb | hb | ⟨hf, -⟩
  · exact .inl hb
  · exact .inr hb
  · rw [ht] at hf
    cases hf

theorem lineEnd_onset (h : Onset o t ts rest) (hts : ∀ u ∈ ts.head?, u = .lineEnd .newline) :
    rest = [] ∨ ∃ s, rest = '\n' :: s := by
  cases h with
  | ended => exact .inl rfl
  | lastLine _ s | newline _ s | ownLine _ _ _ s => exact .inr ⟨s, rfl⟩
  | delimiter _ hu => rw [hts _ rfl] at hu; cases hu
  | attached => cases hts _ rfl
  | spaced _ hn => exact absurd (hts _ rfl) hn

theorem not_endsLine_onset (h : Onset o t ts rest) (ho : o.rewrites = false)
    (hts : ∃ u ∈ ts.head?, u ≠ .lineEnd .newline)
    (hu : ∀ u ∈ ts.head?, u.isMarkupLike = false → u.Legible) : ¬ EndsLine rest := by
  obtain ⟨u, hut, hne⟩ := hts
  cases h with
  | ended | lastLine => cases hut
  | newline => cases hut; exact absurd rfl hne
  | delimiter =>
    rw [endsLine_space]
    exact not_endsLine (by decide) _
  | ownLine hr => rw [ho] at hr; cases hr
  | @attached c =>
    have hc : Source.isPunctuation c = true := hu (.punctuation c) rfl rfl
    exact not_endsLine ((Source.isPunctuation_iff c).1 hc).1 _
  | @spaced v hv hn =>
    obtain ⟨c, r, hp, hc⟩ := head_printed (hu v rfl hv) hn
    rw [endsLine_space, hp]
    exact not_endsLine hc _

theorem comment_onset (h : Onset o t ts rest)
    (hts : ∀ u ∈ ts.head?, u = .lineEnd .newline ∨ u.isMarkupLike = true) :
    rest = [] ∨ rest.head? = some '\n' ∨ ∃ s, rest = ' ' :: '%' :: '>' :: s := by
  cases h with
  | ended => exact .inl rfl
  | lastLine | newline | ownLine => exact .inr (.inl rfl)
  | delimiter _ _ _ s => exact .inr (.inr ⟨s, rfl⟩)
  | attached =>
    rcases hts _ rfl with hu | hu
    · cases hu
    · cases hu
  | spaced hu hn =>
    rcases hts _ rfl with hn' | hu'
    · exact absurd hn' hn
    · rw [hu] at hu'
      cases hu'

/-- Behind a token that was read, everything the layout puts is boundary enough. -/
theorem boundary_of_onset (hap : t.Apart ts.head?) (hset : t.Settles ts.head?)
    (hu : ∀ u ∈ ts.head?, u.isMarkupLike = false → u.Legible)
    (ho : t = .punctuation '_' → o.rewrites = false) (h : Onset o t ts rest) :
    t.Boundary rest := by
  have hpunctuation : ∀ c, ts.head? = some (.punctuation c) → Source.isPunctuation c = true :=
    fun c hc => hu _ hc rfl
  have hword : (∀ c, ts.head? = some (.punctuation c) → Lexeme.isNameChar c = false) →
      ∀ c ∈ rest.head?, Lexeme.isNameChar c = false := by
    intro hap c hc
    rcases head_onset h c hc with rfl | rfl | ⟨-, hp⟩
    · decide
    · decide
    · exact hap c hp
  cases t with
  | statement w =>
    refine ⟨fun c hc => ?_, fun hw c hc => ?_⟩
    · rcases blank_onset h rfl c hc with rfl | rfl
      · decide
      · decide
    · rcases lineEnd_onset h (hap hw) with rfl | ⟨s, rfl⟩
      · cases hc
      · cases hc
        decide
  | identifier | function | keyword | boolean | constant | integer | float => exact hword hap
  | operator p => exact blank_onset h rfl
  | string s =>
    intro hq
    rcases head_onset h _ hq with hb | hb | ⟨-, hp⟩
    · cases hb
    · cases hb
    · exact absurd (hpunctuation _ hp) (by decide)
  | comment s => exact comment_onset h hset
  | punctuation c =>
    refine ⟨fun hc hgt => ?_, fun hc a ha => ?_, fun hc => ?_⟩
    · rcases head_onset h _ hgt with hb | hb | ⟨-, hp⟩
      · cases hb
      · cases hb
      · exact absurd (hpunctuation _ hp) (by decide)
    · rcases head_onset h a ha with rfl | rfl | ⟨-, hp⟩
      · decide
      · decide
      · exact ((Source.isPunctuation_iff a).1 (hpunctuation a hp)).2.1
    · exact not_endsLine_onset h (ho (by rw [hc])) (hap hc) hu
  | continuation =>
    rcases lineEnd_onset h hset with rfl | ⟨s, rfl⟩
    · exact endsLine_nil
    · exact endsLine_newline s
  | _ => trivial

end Boundary

end Token

namespace Layout

variable {o : Options} {s : Layout} {t : Token} {ts : List Token}

theorem Behind.boundary (h : s.Behind t) (hap : t.Apart ts.head?) (hset : t.Settles ts.head?)
    (hu : ∀ u ∈ ts.head?, u.isMarkupLike = false → u.Legible)
    (ho : t = .punctuation '_' → o.rewrites = false) : t.Boundary (lay o s ts) := by
  by_cases hl : t = .punctuation '('
  · rw [hl]
    exact ⟨by simp, by simp, by simp⟩
  by_cases hr : t = .punctuation ')'
  · rw [hr]
    exact ⟨by simp, by simp, by simp⟩
  · exact Token.boundary_of_onset hap hset hu ho (h.onset hl hr ts)

end Layout

/-! One step of the layout, read back. The blanks before a token of script do not count, its body
is read as the token, and the rest of the page is read from the state that the token leaves. -/

namespace Source

theorem isSeparator_tabs (n : ℕ) : ∀ c ∈ tabs n, isSeparator c = true := by
  intro c hc
  rw [List.eq_of_mem_replicate hc]
  decide

end Source

namespace Layout

open Source (isSeparator isSeparator_tabs)

variable {o : Options} {s : Layout} {t : Token} {ts : List Token}

theorem isSeparator_gap (o : Options) (s : Layout) (t : Token) :
    ∀ c ∈ (s.write o t).gap, isSeparator c = true := by
  have hnil : ∀ c ∈ ([] : Text), isSeparator c = true := by simp
  have hspace : ∀ c ∈ [' '], isSeparator c = true := List.all_eq_true.1 (by decide)
  simp only [write]
  split
  · split
    · exact hnil
    · exact isSeparator_tabs _
  · split
    · exact hnil
    · split
      · exact hspace
      · exact hnil

theorem text_script (hs : s.owesCode = false) (ht : t.isMarkupLike = false) :
    (s.write o t).text = (s.write o t).gap ++ s.body o t := by
  simp only [Written.text, write, hs, ht, Bool.false_and, Bool.false_eq_true, if_false,
    List.nil_append, List.append_nil]

theorem boundary_after (s : Layout) (ht : t.Legible) (hap : t.Apart ts.head?)
    (hset : t.Settles ts.head?) (hu : ∀ u ∈ ts.head?, u.isMarkupLike = false → u.Legible)
    (ho : t = .punctuation '_' → o.rewrites = false) :
    t.Boundary (lay o (s.after o t) ts) := by
  by_cases he : ∃ e, t = .lineEnd e
  · obtain ⟨e, rfl⟩ := he
    trivial
  · have hb := behind_after o s ht.script fun e h => he ⟨e, h⟩
    exact hb.boundary hap hset hu ho

theorem yields_script (hs : s.owesCode = false) (hc : ¬ s.Closes t ts) (ht : t.Legible)
    (hb : s.body o t = t.printed) (hr : t.Boundary (lay o (s.after o t) ts)) :
    Yields (lay o s (t :: ts)) [t.reread] (lay o (s.after o t) ts) := by
  rw [lay_cons o hc, text_script hs ht.script, hb, List.append_assoc]
  exact (yields_blanks (isSeparator_gap o s t) _).trans (Token.scans_printed ht hr).yields

theorem text_closer (o : Options) (hs : s.owesCode = false) (w : Statement) :
    ∃ gap, (∀ c ∈ gap, isSeparator c = true) ∧ (s.writeCloser o w).text =
      gap ++ ((Token.statement .end_).printed ++ ' ' :: (Token.statement w).printed) := by
  refine ⟨(s.writeCloser o w).gap, ?_, ?_⟩
  · simp only [writeCloser]
    split
    · simp
    · exact isSeparator_tabs _
  · have hend : "End ".toList = (Token.statement .end_).printed ++ [' '] := by decide
    simp only [Written.text, writeCloser, hs, Bool.false_eq_true, if_false, List.nil_append,
      List.append_nil]
    rw [hend, List.append_assoc]
    rfl

theorem yields_closer (hs : s.owesCode = false) (h : s.atLineStart = true) {w : Statement}
    (hr : (Token.statement w).Boundary (lay o (s.afterCloser w) ts)) :
    Yields (lay o s (.statement .end_ :: .statement w :: ts)) [.statement .end_, .statement w]
      (lay o (s.afterCloser w) ts) := by
  obtain ⟨gap, hgap, htext⟩ := text_closer o hs w
  have hend : (Token.statement .end_).Boundary
      ([' '] ++ ((Token.statement w).printed ++ lay o (s.afterCloser w) ts)) := by
    refine ⟨fun c hc => ?_, by simp⟩
    cases hc
    decide
  have hfirst := (Token.scans_printed (t := .statement .end_) trivial hend).yields
  have hspace := yields_blanks (List.all_eq_true.1 (show [' '].all isSeparator = true by decide))
    ((Token.statement w).printed ++ lay o (s.afterCloser w) ts)
  have hsecond := (Token.scans_printed (t := .statement w) trivial hr).yields
  rw [lay_closer o h, htext]
  simp only [List.append_assoc, List.cons_append]
  exact (yields_blanks hgap _).trans (hfirst.trans (hspace.trans hsecond))

/-- The steps over the parts of a page. What holds behind a step may hold of every state. -/
theorem part_induction {motive : Layout → List Part → Prop} (nil : ∀ s, motive s [])
    (page : ∀ s t ps, (∀ s, motive s ps) → motive s (.page t :: ps))
    (closer : ∀ s w ps, s.atLineStart = true → (∀ s, motive s ps) →
      motive s (.script (.statement .end_) :: .script (.statement w) :: ps))
    (script : ∀ s t ps, ¬ s.Closes t (tokensOf ps) → (∀ s, motive s ps) →
      motive s (.script t :: ps))
    (s : Layout) (ps : List Part) : motive s ps := by
  -- on the number of parts, of which a block closer takes two
  induction hn : ps.length using Nat.strong_induction_on generalizing s ps with
  | _ n ih =>
    cases ps with
    | nil => exact nil s
    | cons p ps =>
      have hps : ∀ s, motive s ps := fun s => ih ps.length (by simp [← hn]) s ps rfl
      cases p with
      | page t => exact page s t ps hps
      | script t =>
        by_cases hc : s.Closes t (tokensOf ps)
        · obtain ⟨hs, rfl, w, us, hw⟩ := hc
          cases ps with
          | nil => cases hw
          | cons q qs =>
            cases q with
            | page x =>
              obtain ⟨u, hu, hm⟩ := head_tokensOf_page x qs
              rw [hw] at hu
              cases hu
              cases hm
            | script v =>
              obtain ⟨rfl, -⟩ := List.cons.inj hw
              have hlt : qs.length < n := by
                rw [← hn]
                simp only [List.length_cons]
                omega
              exact closer s w qs hs fun s => ih qs.length hlt s qs rfl
        · exact script s t ps hc hps

end Layout

end ClassicAsp
