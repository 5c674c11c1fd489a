import ClassicAsp.Proofs.Gluing
import ClassicAsp.Proofs.Rewriting

/-! Rewritten markup is read exactly if no text of the page shows the delimiter `%>`, which its
strings cannot hold. -/
namespace ClassicAsp

/-- No text of a page shows the delimiter, once carriage returns are left out. -/
def Showable (ts : List Token) : Prop :=
  ∀ t, Token.markup t ∈ ts → Text.Lacks '%' '>' (Token.shown t)

@[simp]
theorem showable_append {ts us : List Token} : Showable (ts ++ us) ↔ Showable ts ∧ Showable us := by
  constructor
  · intro h
    exact ⟨fun t ht => h t (List.mem_append_left _ ht),
      fun t ht => h t (List.mem_append_right _ ht)⟩
  · rintro ⟨hts, hus⟩ t ht
    rcases List.mem_append.1 ht with ht | ht
    · exact hts t ht
    · exact hus t ht

theorem showable_singleton {t : Token} (ht : ∀ x, t ≠ .markup x) : Showable [t] := by
  intro x hx
  exact absurd (List.mem_singleton.1 hx).symm (ht x)

theorem showable_cons {t : Token} {ts : List Token} (ht : ∀ x, t ≠ .markup x) :
    Showable (t :: ts) ↔ Showable ts :=
  (@showable_append [t] ts).trans (and_iff_right (showable_singleton ht))

theorem Showable.tail {t : Token} {ts : List Token} (h : Showable (t :: ts)) : Showable ts :=
  fun x hx => h x (List.mem_cons_of_mem _ hx)

section Printing

open Token (joining printer)

variable {o : Options}

theorem lexes_quote_iff {t rest : Text} (hr : '\r' ∉ t) (hn : '\n' ∉ t)
    (hq : rest.head? ≠ some '"') :
    Lexes (Text.quote t ++ rest) ↔ Text.Lacks '%' '>' t ∧ Lexes rest := by
  by_cases hd : Text.Lacks '%' '>' t
  · rw [(yields_string ⟨hr, hn, hd⟩ hq).lexes_iff]
    exact (and_iff_right hd).symm
  · obtain ⟨e, he⟩ := (Lexeme.isString_or_spoiled t).resolve_left fun ht => hd ht.noDelimiter
    have herror : (Source.ofText .code (Text.quote t ++ rest)).next.1 = .error e := by
      rw [Source.next_quote, Lexeme.readString_spoiled he]
      rfl
    constructor
    · intro h
      exact absurd h (not_lexes_of_error herror)
    · intro h
      exact absurd h.1 hd

theorem lexes_furtherLines_iff (depth : ℕ) {lines : List Text} {rest : Text}
    (hl : ∀ line ∈ lines, '\r' ∉ line ∧ '\n' ∉ line) (hq : rest.head? ≠ some '"') :
    Lexes (furtherLines depth lines ++ rest) ↔
      (∀ line ∈ lines, Text.Lacks '%' '>' line) ∧ Lexes rest := by
  induction lines with
  | nil => simp [furtherLines]
  | cons line lines ih =>
    have hhead := head_furtherLines depth lines hq
    obtain ⟨hr, hn⟩ := hl line List.mem_cons_self
    rw [furtherLines_cons, (yields_joint depth _).lexes_iff, lexes_quote_iff hr hn hhead,
      ih fun l hm => hl l (List.mem_cons_of_mem _ hm), List.forall_mem_cons, and_assoc]

/-- The statement that prints a text is read unless the text shows the delimiter. -/
theorem lexes_printMarkup_iff (hp : o.printStatement = printer.text)
    (hj : o.lineJoin = lineJoin.name.spelling) (depth : ℕ) (t rest : Text) :
    Lexes (Layout.printMarkup o depth t ++ rest) ↔
      Text.Lacks '%' '>' (Token.shown t) ∧ Lexes rest := by
  by_cases hs : Token.shown t = []
  · rw [printMarkup_nil o depth hs, hs, List.nil_append]
    simp
  · obtain ⟨first, others, hfirst⟩ := exists_lines t
    have hchars : ∀ line ∈ first :: others, '\r' ∉ line ∧ '\n' ∉ line :=
      fun line hm => Token.mem_line (hfirst ▸ hm)
    have hend : ('\n' :: rest).head? ≠ some '"' := by simp
    have hword := yields_word Token.isWord_printer (by simp [printer])
      (Text.quote first ++ (furtherLines depth others ++ '\n' :: rest))
    obtain ⟨hr, hn⟩ := hchars first List.mem_cons_self
    rw [printMarkup_lines hp hj depth hs hfirst,
      (yields_blanks (Source.isSeparator_tabs depth) _).lexes_iff, hword.lexes_iff,
      lexes_quote_iff hr hn (head_furtherLines depth others hend),
      lexes_furtherLines_iff depth (fun l hm => hchars l (List.mem_cons_of_mem _ hm)) hend,
      (yields_newline rest).lexes_iff, ← and_assoc, ← List.forall_mem_cons, ← hfirst,
      Token.lacks_lines]

end Printing

namespace Layout

open Token (printer)

variable {o : Options}

theorem lexes_markup_iff (ho : o.rewrites = true) (hp : o.printStatement = printer.text)
    (hj : o.lineJoin = lineJoin.name.spelling) (s : Layout) (t : Text) (ts : List Token) :
    Lexes (lay o s (.markup t :: ts)) ↔
      Text.Lacks '%' '>' (Token.shown t) ∧ Lexes (lay o (s.after o (.markup t)) ts) := by
  obtain ⟨us, -, hbreak⟩ := yields_ownLine s (printMarkup o (s.settle (.markup t)).depth t ++
    lay o (s.after o (.markup t)) ts)
  rw [lay_markup ho, hbreak.lexes_iff, lexes_printMarkup_iff hp hj]

theorem lexes_directive_iff (ho : o.rewrites = true) (s : Layout) {d : Directive}
    (hq : '"' ∉ d.path) (hl : Text.Lacks '<' '%' d.path) (ts : List Token) :
    Lexes (lay o s (.directive d :: ts)) ↔ Lexes (lay o (s.after o (.directive d)) ts) := by
  obtain ⟨rs, -, hreads⟩ := reads_directive_iff ho s hq hl ts
  constructor
  · rintro ⟨ps, hps⟩
    obtain ⟨qs, -, hqs⟩ := (hreads ps).1 hps
    exact ⟨qs, hqs⟩
  · rintro ⟨qs, hqs⟩
    exact ⟨_, (hreads _).2 ⟨qs, rfl, hqs⟩⟩

theorem lexes_ending (ho : o.rewrites = true) (s : Layout) : Lexes (s.ending o) := by
  obtain ⟨qs, hqs, -⟩ := reads_ending ho s
  exact ⟨qs, hqs⟩

end Layout

/-! Comments that take up more of the page than they did. Whatever stands in the line of a comment
word is read as a comment, and the page is read on behind it. -/

namespace Token

open Text (Lacks lacks_of_not_mem lacks_cons lacks_append)

structure InLine (s : Text) : Prop where
  noNewline : '\n' ∉ s
  noDelimiter : Lacks '%' '>' s

theorem inLine_of_mem {s : Text} (h : ∀ c ∈ s, c ≠ '\n' ∧ c ≠ '%') : InLine s :=
  ⟨fun hn => (h _ hn).1 rfl, lacks_of_not_mem (.inl fun hp => (h _ hp).2 rfl)⟩

theorem ne_of_class {p : Char → Bool} {c : Char} (hc : p c = true) (hn : p '\n' = false)
    (hp : p '%' = false) : c ≠ '\n' ∧ c ≠ '%' := by
  constructor
  · rintro rfl
    rw [hn] at hc
    cases hc
  · rintro rfl
    rw [hp] at hc
    cases hc

theorem inLine_name {s : Text} (h : Lexeme.isName s = true) : InLine s :=
  inLine_of_mem fun c hc => ne_of_class (Lexeme.isName_chars h c hc) (by decide) (by decide)

theorem inLine_number {s : Text} {w f e : Text} (hs : s = w ++ (f ++ e)) (hw : Decimal.IsDigits w)
    (hf : Decimal.IsFraction f) (he : Decimal.IsExponent e) : InLine s := by
  have hdigits : ∀ {t}, Decimal.IsDigits t → ∀ c ∈ t, c ≠ '\n' ∧ c ≠ '%' :=
    fun ht c hc => ne_of_class (ht c hc) (by decide) (by decide)
  apply inLine_of_mem
  intro c hc
  rw [hs] at hc
  rcases List.mem_append.1 hc with hc | hc
  · exact hdigits hw c hc
  rcases List.mem_append.1 hc with hc | hc
  · rcases hf with rfl | ⟨t, ht, rfl⟩
    · cases hc
    · rcases List.mem_cons.1 hc with rfl | hc
      · decide
      · exact hdigits ht c hc
  · rcases he with rfl | ⟨sign, t, hsign, -, ht, rfl⟩
    · cases hc
    · rcases List.mem_cons.1 hc with rfl | hc
      · decide
      rcases List.mem_append.1 hc with hc | hc
      · rcases hsign with rfl | rfl
        · cases hc
        · rw [List.mem_singleton.1 hc]
          decide
      · exact hdigits ht c hc

theorem inLine_digits (n : ℕ) : InLine (Nat.toDigits 10 n) :=
  inLine_number (by rw [List.append_nil, List.append_nil]) (Decimal.isDigits_toDigits n)
    (Or.inl rfl) (Or.inl rfl)

theorem inLine_quote {s : Text} (hn : '\n' ∉ s) (hd : Lacks '%' '>' s) : InLine (Text.quote s) := by
  have hbody : ∀ {s}, Lacks '%' '>' s → Lacks '%' '>' (Text.doubleQuotes s ++ ['"']) ∧
      (s ≠ [] → (Text.doubleQuotes s ++ ['"']).head? = s.head?) := by
    intro s hs
    induction s with
    | nil => exact ⟨by decide, by simp⟩
    | cons c s ih =>
      obtain ⟨hc, hs⟩ := lacks_cons.1 hs
      obtain ⟨ih, hhead⟩ := ih hs
      rw [Text.doubleQuotes_cons, List.append_assoc]
      by_cases hq : c = '"'
      · rw [hq, if_pos rfl]
        exact ⟨by simpa using ih, by simp⟩
      · rw [if_neg hq, List.singleton_append]
        refine ⟨lacks_cons.2 ⟨fun hp => ?_, ih⟩, by simp⟩
        by_cases hnil : s = []
        · rw [hnil]
          simp
        · rw [hhead hnil]
          exact hc hp
  constructor
  · exact Text.newline_not_mem_quote hn
  · simpa [Text.quote] using (hbody hd).1

theorem inLine_date {d : DateLiteral} (hd : ∀ c ∈ d.write, Lexeme.isDateChar c = true) :
    InLine (Token.date d).printed := by
  rw [printed_date]
  apply inLine_of_mem
  intro c hc
  rcases List.mem_cons.1 hc with rfl | hc
  · decide
  rcases List.mem_append.1 hc with hc | hc
  · exact ne_of_class (hd c hc) (by decide) (by decide)
  · rw [List.mem_singleton.1 hc]
    decide

theorem inLine_comment {s : Text} (hn : '\n' ∉ s) (hd : Lacks '%' '>' s) :
    InLine (Token.comment s).printed := by
  rw [printed_comment]
  split
  · exact ⟨by decide, by decide⟩
  · exact ⟨by simp [hn], by simp [hd]⟩

theorem inLine_operator (o : Operator) : InLine (Token.operator o).printed := by
  have hall : ∀ o ∈ Operator.all, '\n' ∉ o.spelling ∧ Lacks '%' '>' o.spelling := by
    decide +kernel
  rw [printed_operator]
  exact ⟨(hall o o.mem_all).1, (hall o o.mem_all).2⟩

theorem inLine_printed {t : Token} (ht : t.Legible) (hn : t ≠ .lineEnd .newline) :
    InLine t.printed := by
  cases t with
  | statement w => exact inLine_name (isWord_statement w).name
  | function f => exact inLine_name (isWord_function f).name
  | keyword k => exact inLine_name (isWord_keyword k).name
  | boolean b => exact inLine_name (isWord_boolean b).name
  | constant c => exact inLine_name (isWord_constant c).name
  | identifier s => exact inLine_name ht.name
  | string s => exact inLine_quote ht.noNewline ht.noDelimiter
  | integer i =>
    rw [printed_integer ht.1]
    exact inLine_digits _
  | float x =>
    by_cases hw : x.IsWhole
    · rw [printed_whole ht hw]
      exact inLine_digits _
    · obtain ⟨w, f, e, h⟩ := printed_fraction ht hw
      exact inLine_number h.printed h.digits h.fraction h.exponent
  | date d => exact inLine_date ht.2
  | comment s => exact inLine_comment ht.1.noNewline ht.2.2
  | operator o => exact inLine_operator o
  | punctuation c =>
    refine ⟨?_, Text.lacks_singleton⟩
    intro hc
    have hspace := ((Source.isPunctuation_iff c).1 ht).1
    rw [← List.mem_singleton.1 hc] at hspace
    exact absurd hspace (by decide)
  | lineEnd e =>
    cases e with
    | newline => exact absurd rfl hn
    | separator => exact ⟨by decide, by decide⟩
  | continuation => exact ⟨by decide, by decide⟩
  | markup | directive | endOfInput => exact ht.elim

end Token

theorem yields_remark (s : Text) :
    ∃ x, Yields ((Token.statement .rem).printed ++ ' ' :: s) [.comment x]
      (Lexeme.readComment s).2 := by
  have hword : (Token.statement .rem).printed ++ ' ' :: s = 'R' :: ("em ".toList ++ s) := rfl
  have hlex : Source.lexeme 'R' ("em ".toList ++ s) =
      (.ok (.comment (Lexeme.readComment s).1), (Lexeme.readComment s).2) := by
    have hremark : Lexeme.remark? ('R' :: ("em ".toList ++ s)) = some s := rfl
    simp only [Source.lexeme, hremark]
  have hnext := Source.next_of_lexeme (by decide) (by simp) hlex
  rw [hword]
  exact ⟨Text.trim (Lexeme.readComment s).1, Scans.yields ⟨_, _, hnext, rfl, rfl, by simp, rfl⟩⟩

/-- Script that is read, and behind which the page is read on too if it is in a comment. -/
structure Survives (s : Text) : Prop where
  script : Lexes s
  comment : Lexes (Lexeme.readComment s).2

namespace Survives

open Token (InLine)

variable {s t : Text}

theorem of_ends (he : Lexeme.EndsComment s) (hs : Lexes s) : Survives s := by
  refine ⟨hs, ?_⟩
  rw [Lexeme.readComment_of_ends he]
  exact hs

theorem newline (h : Lexes s) : Survives ('\n' :: s) :=
  of_ends (.inr (.inl rfl)) ((yields_newline s).lexes_iff.2 h)

theorem comment_append (ht : InLine t) (hr : t.getLast? = some '%' → s.head? ≠ some '>')
    (h : Lexes (Lexeme.readComment s).2) : Lexes (Lexeme.readComment (t ++ s)).2 := by
  rw [Lexeme.readComment_skip ht.noNewline ht.noDelimiter hr]
  exact h

theorem comment_blanks {g : Text} (hg : ∀ c ∈ g, Source.isSeparator c = true)
    (h : Lexes (Lexeme.readComment s).2) : Lexes (Lexeme.readComment (g ++ s)).2 := by
  have hne : ∀ c ∈ g, c ≠ '\n' ∧ c ≠ '%' := by
    intro c hc
    have hs := hg c hc
    constructor
    · rintro rfl
      exact absurd hs (by decide)
    · rintro rfl
      exact absurd hs (by decide)
  apply comment_append (Token.inLine_of_mem hne) _ h
  intro hlast
  exact absurd rfl (hne '%' (List.mem_of_getLast? hlast)).2

theorem lexes_remark (h : Survives s) (hs : ∀ c ∈ s.head?, c = ' ' ∨ c = '\n') :
    Lexes ((Token.statement .rem).printed ++ s) := by
  by_cases hb : s.head? = some ' '
  · obtain ⟨x, rfl⟩ : ∃ x, s = ' ' :: x := ⟨s.tail, List.eq_cons_of_mem_head? hb⟩
    obtain ⟨u, hu⟩ := yields_remark x
    have hcomment := h.comment
    rw [Lexeme.readComment_cons (by decide) (by simp)] at hcomment
    exact hu.lexes_iff.2 hcomment
  · have hr : (Token.statement .rem).Boundary s := by
      refine ⟨fun c hc => ?_, fun _ c hc => ?_⟩
      · rcases hs c hc with rfl | rfl
        · exact absurd hc hb
        · decide
      · rcases hs c hc with rfl | rfl
        · exact absurd hc hb
        · decide
    exact ((Token.scans_printed (t := .statement .rem) trivial hr).yields.lexes_iff).2 h.script

end Survives

namespace Layout

open Token (printer InLine)
open Survives (comment_append comment_blanks)

variable {o : Options} {s : Layout} {t : Token} {ts : List Token}

theorem lexes_closer_iff (hs : s.owesCode = false) (h : s.atLineStart = true) {w : Statement}
    (hw : w ≠ .rem) (hu : ∀ u ∈ ts.head?, u.isMarkupLike = false → u.Legible) :
    Lexes (lay o s (.statement .end_ :: .statement w :: ts)) ↔
      Lexes (lay o (s.afterCloser w) ts) := by
  have hr : (Token.statement w).Boundary (lay o (s.afterCloser w) ts) :=
    (behind_closer s w).boundary (fun h => absurd h hw) trivial hu (by simp)
  exact (yields_closer hs h hr).lexes_iff

theorem body_cases (o : Options) (s : Layout) (ht : t.isMarkupLike = false) :
    s.body o t = t.printed ∨ (t = .operator .equal ∧ s.body o t = o.printStatement) ∨
      (t = .lineEnd .newline ∧ s.body o t = []) := by
  by_cases hm : (o.rewrites && s.previous == .markup) = true
  · by_cases he : t = .operator .equal
    · rw [he]
      exact .inr (.inl ⟨rfl, if_pos hm⟩)
    by_cases hn : t = .lineEnd .newline
    · rw [hn]
      exact .inr (.inr ⟨rfl, if_pos hm⟩)
    · exact .inl (body_eq_printed o s ht fun _ => ⟨he, hn⟩)
  · exact .inl (body_eq_printed o s ht fun h => absurd h hm)

theorem lay_script (hs : s.owesCode = false) (hc : ¬ s.Closes t ts) (ht : t.isMarkupLike = false) :
    lay o s (t :: ts) = (s.write o t).gap ++ (s.body o t ++ lay o (s.after o t) ts) := by
  simp [hc, text_script hs ht]

/-- A token of script is read as one token or another, with the punctuation that it takes up. -/
theorem lexes_script_iff (hp : o.printStatement = printer.text) (hs : s.owesCode = false)
    (hc : ¬ s.Closes t ts) (ht : t.Legible) (hset : t.Settles ts.head?)
    (hne : t ≠ .statement .rem) (hts : TokensSound ts) :
    ∃ (run us : List Token) (u : Layout), ts = run ++ us ∧
      (∀ v ∈ run, ∃ c, v = .punctuation c) ∧ u.owesCode = false ∧
      (Lexes (lay o s (t :: ts)) ↔ Lexes (lay o u us)) := by
  have hcode := owesCode_after o s ht.script
  rw [lay_script hs hc ht.script, (yields_blanks (isSeparator_gap o s t) _).lexes_iff]
  rcases body_cases o s ht.script with hb | ⟨rfl, hb⟩ | ⟨rfl, hb⟩
  · obtain ⟨u, rest, hu, run, us, v, hrun, hpunct, hv, hrest⟩ :=
      resumes_printed s ht hset hne hts
    rw [hb, hu.lexes_iff, hrest]
    exact ⟨run, us, v, hrun, hpunct, hv, Iff.rfl⟩
  · have hr := boundary_after (o := o) s ht trivial hset hts.legible_head (by simp)
    rw [hb, hp]
    exact ⟨[], ts, _, rfl, by simp, hcode, (Token.yields_printer hr).lexes_iff⟩
  · rw [hb, List.nil_append]
    exact ⟨[], ts, _, rfl, by simp, hcode, Iff.rfl⟩

theorem Behind.head_ne (h : s.Behind t)
    (hu : ∀ u ∈ ts.head?, u.isMarkupLike = false → u.Legible)
    (hlast : t.printed.getLast? = some '%') : (lay o s ts).head? ≠ some '>' := by
  have hl : t ≠ .punctuation '(' := by
    rintro rfl
    cases hlast
  have hr : t ≠ .punctuation ')' := by
    rintro rfl
    cases hlast
  intro hgt
  rcases h.head_lay hl hr hu '>' hgt with hb | hb | hp
  · cases hb
  · cases hb
  · exact absurd hp (by decide)

theorem Behind.head_blank (h : s.Behind t) (hl : t ≠ .punctuation '(')
    (hr : t ≠ .punctuation ')') (ht : (Lookback.ofToken t).spacesPunctuation = true) :
    ∀ c ∈ (lay o s ts).head?, c = ' ' ∨ c = '\n' :=
  Token.blank_onset (h.onset hl hr ts) ht

theorem survives_ending (ho : o.rewrites = true) (s : Layout) : Survives (s.ending o) := by
  refine .of_ends ?_ (lexes_ending ho s)
  rw [ending, if_pos ho]
  split
  · exact .inr (.inr ⟨['\n'], rfl⟩)
  · exact .inr (.inl rfl)

theorem survives_closer (hs : s.owesCode = false) (h : s.atLineStart = true) (w : Statement)
    (hu : ∀ u ∈ ts.head?, u.isMarkupLike = false → u.Legible)
    (hts : Survives (lay o (s.afterCloser w) ts)) :
    Survives (lay o s (.statement .end_ :: .statement w :: ts)) := by
  have hbehind := behind_closer s w
  obtain ⟨gap, hgap, htext⟩ := text_closer o hs w
  have hlay : lay o s (.statement .end_ :: .statement w :: ts) =
      gap ++ ((Token.statement .end_).printed ++ ([' '] ++
        ((Token.statement w).printed ++ lay o (s.afterCloser w) ts))) := by
    rw [lay_closer o h, htext]
    simp only [List.append_assoc, List.cons_append, List.nil_append]
  constructor
  · by_cases hw : w = .rem
    · subst hw
      have hremark := hts.lexes_remark (hbehind.head_blank (by simp) (by simp) rfl)
      have hend := yields_word (t := .statement .end_) (Token.isWord_statement _) (by simp)
        ((Token.statement .rem).printed ++ lay o (s.afterCloser .rem) ts)
      rw [hlay, (yields_blanks hgap _).lexes_iff]
      exact hend.lexes_iff.2 hremark
    · exact (lexes_closer_iff hs h hw hu).2 hts.script
  · have hword := comment_append (Token.inLine_printed (t := .statement w) trivial (by simp))
      (hbehind.head_ne hu) hts.comment
    have hspace := comment_append (t := [' ']) ⟨by decide, by decide⟩ (by simp) hword
    have hend := comment_append (Token.inLine_printed (t := .statement .end_) trivial (by simp))
      (by simp) hspace
    rw [hlay]
    exact comment_blanks hgap hend

theorem survives_script (hp : o.printStatement = printer.text)
    (hs : s.owesCode = false) (hc : ¬ s.Closes t ts) (ht : t.Legible)
    (hu : ∀ u ∈ ts.head?, u.isMarkupLike = false → u.Legible)
    (hlex : Lexes (lay o s (t :: ts))) (hts : Survives (lay o (s.after o t) ts)) :
    Survives (lay o s (t :: ts)) := by
  refine ⟨hlex, ?_⟩
  rw [lay_script hs hc ht.script]
  apply comment_blanks (isSeparator_gap o s t)
  rcases body_cases o s ht.script with hb | ⟨rfl, hb⟩ | ⟨rfl, hb⟩
  · rw [hb]
    by_cases hn : t = .lineEnd .newline
    · rw [hn]
      exact (Survives.newline (hn ▸ hts.script)).comment
    · apply comment_append (Token.inLine_printed ht hn) _ hts.comment
      intro hlast
      have hne : ∀ e, t ≠ .lineEnd e := by
        rintro e rfl
        cases e <;> cases hlast
      exact (behind_after o s ht.script hne).head_ne hu hlast
  · rw [hb, hp]
    exact comment_append (Token.inLine_name Token.isWord_printer.name)
      (fun h => absurd h (by decide)) hts.comment
  · rw [hb]
    exact hts.comment

theorem survives_directive (ho : o.rewrites = true) (s : Layout) {d : Directive}
    (hq : '"' ∉ d.path) (hl : Text.Lacks '<' '%' d.path)
    (hts : Lexes (lay o (s.after o (.directive d)) ts)) :
    Survives (lay o s (.directive d :: ts)) := by
  refine .of_ends ?_ ((lexes_directive_iff ho s hq hl ts).2 hts)
  rw [lay_directive ho]
  split
  · exact .inr (.inr ⟨_, rfl⟩)
  · exact .inr (.inl rfl)

/-- A comment takes up the first line of printed markup, and the others are read behind it. -/
theorem comment_furtherLines (depth : ℕ) {lines : List Text}
    (hl : ∀ line ∈ lines, '\r' ∉ line ∧ '\n' ∉ line ∧ Text.Lacks '%' '>' line) {rest : Text}
    (hr : Lexes rest) :
    Lexes (Lexeme.readComment (furtherLines depth lines ++ '\n' :: rest)).2 := by
  cases lines with
  | nil => exact (Survives.newline hr).comment
  | cons line lines =>
    have hend : ('\n' :: rest).head? ≠ some '"' := by simp
    obtain ⟨⟨hcr, hn, hd⟩, hl⟩ := List.forall_mem_cons.1 hl
    have hothers : Lexes (furtherLines depth lines ++ '\n' :: rest) :=
      (lexes_furtherLines_iff depth (fun l hm => ⟨(hl l hm).1, (hl l hm).2.1⟩) hend).2
        ⟨fun l hm => (hl l hm).2.2, (yields_newline rest).lexes_iff.2 hr⟩
    have hquote := (lexes_quote_iff hcr hn (head_furtherLines depth lines hend)).2 ⟨hd, hothers⟩
    have hnext := (yields_nextLine depth _).lexes_iff.2 hquote
    have hjoint : furtherLines depth (line :: lines) ++ '\n' :: rest =
        [' ', '_'] ++ (nextLine depth ++ (Text.quote line ++
          (furtherLines depth lines ++ '\n' :: rest))) := by
      rw [furtherLines_cons]
      rfl
    rw [hjoint]
    exact comment_append ⟨by decide, by decide⟩ (fun h => absurd h (by decide))
      (Survives.of_ends (.inr (.inl rfl)) hnext).comment

theorem survives_markup (ho : o.rewrites = true) (hp : o.printStatement = printer.text)
    (hj : o.lineJoin = lineJoin.name.spelling) (s : Layout) {x : Text}
    (hx : Text.Lacks '%' '>' (Token.shown x))
    (hts : Survives (lay o (s.after o (.markup x)) ts)) :
    Survives (lay o s (.markup x :: ts)) := by
  have hlex := (lexes_markup_iff ho hp hj s x ts).2 ⟨hx, hts.script⟩
  rw [lay_markup ho] at hlex ⊢
  by_cases hs : s.atLineStart = true
  · rw [if_pos hs, List.nil_append] at hlex ⊢
    refine ⟨hlex, ?_⟩
    by_cases hnil : Token.shown x = []
    · rw [printMarkup_nil o _ hnil]
      exact hts.comment
    · obtain ⟨first, others, hfirst⟩ := exists_lines x
      have hlines : ∀ line ∈ first :: others, '\r' ∉ line ∧ '\n' ∉ line ∧
          Text.Lacks '%' '>' line := by
        intro line hm
        rw [← hfirst] at hm
        obtain ⟨hr, hn⟩ := Token.mem_line hm
        exact ⟨hr, hn, Token.lacks_lines.2 hx line hm⟩
      obtain ⟨⟨-, hn, hd⟩, hothers⟩ := List.forall_mem_cons.1 hlines
      have hrest := comment_furtherLines (s.settle (.markup x)).depth hothers hts.script
      have hlast : (Text.quote first).getLast? = some '"' := by
        rw [Text.quote, ← List.cons_append, List.getLast?_concat]
      have hquote := comment_append (Token.inLine_quote hn hd) (by simp [hlast]) hrest
      have hspace := comment_append (t := [' ']) ⟨by decide, by decide⟩ (by simp) hquote
      have hword := comment_append (Token.inLine_name Token.isWord_printer.name)
        (fun h => absurd h (by decide)) hspace
      rw [printMarkup_lines hp hj _ hnil hfirst]
      exact comment_blanks (Source.isSeparator_tabs _) hword
  · rw [if_neg hs] at hlex ⊢
    exact .of_ends (.inr (.inl rfl)) hlex

/-- A rewritten page is read from every state if none of its texts shows the delimiter. -/
theorem survives_lay (ho : o.rewrites = true) (hp : o.printStatement = printer.text)
    (hj : o.lineJoin = lineJoin.name.spelling) (hs : s.owesCode = false)
    (hsound : TokensSound ts) (hshow : Showable ts) : Survives (lay o s ts) := by
  -- on the number of tokens, since block closers and attached punctuation take more than one
  induction hn : ts.length using Nat.strong_induction_on generalizing s ts with
  | _ n ih =>
    cases ts with
    | nil => exact survives_ending ho s
    | cons t ts =>
      have hlt : ts.length < n := by simp [← hn]
      by_cases hc : s.Closes t ts
      · obtain ⟨hstart, rfl, w, us, rfl⟩ := hc
        have hlen : us.length < n := by
          rw [← hn]
          simp only [List.length_cons]
          omega
        have hrest := ih us.length hlen (s := s.afterCloser w) rfl hsound.2.2
          hshow.tail.tail rfl
        exact survives_closer hs hstart w hsound.2.2.legible_head hrest
      have hrest := ih ts.length hlt (owesCode_rewritten ho hs t) hsound.2 hshow.tail rfl
      by_cases hk : t.isMarkupLike = true
      · cases t with
        | markup x => exact survives_markup ho hp hj s (hshow x List.mem_cons_self) hrest
        | directive d => exact survives_directive ho s hsound.1.1 hsound.1.2 hrest.script
        | _ => cases hk
      · obtain ⟨hl, hset⟩ := hsound.1.legible (by simpa using hk)
        refine survives_script hp hs hc hl hsound.2.legible_head ?_ hrest
        by_cases hrem : t = .statement .rem
        · subst hrem
          have hbehind := behind_after o s (t := .statement .rem) rfl (by simp)
          rw [lay_script hs hc rfl, (yields_blanks (isSeparator_gap o s _) _).lexes_iff]
          exact hrest.lexes_remark (hbehind.head_blank (by simp) (by simp) rfl)
        · obtain ⟨run, us, u, rfl, -, hu, hiff⟩ := lexes_script_iff hp hs hc hl hset hrem hsound.2
          have hlen : us.length < n := by
            rw [List.length_append] at hlt
            omega
          have hus := ih us.length hlen hu hsound.2.of_append (showable_append.1 hshow.tail).2 rfl
          exact hiff.2 hus.script

/-- Unless a comment word hides it, a text that shows the delimiter is not read. -/
theorem showable_of_lexes (ho : o.rewrites = true) (hp : o.printStatement = printer.text)
    (hj : o.lineJoin = lineJoin.name.spelling) (hs : s.owesCode = false)
    (hsound : TokensSound ts) (hrem : Token.statement .rem ∉ ts) (h : Lexes (lay o s ts)) :
    Showable ts := by
  induction hn : ts.length using Nat.strong_induction_on generalizing s ts with
  | _ n ih =>
    cases ts with
    | nil => exact fun x hx => nomatch hx
    | cons t ts =>
      have hlt : ts.length < n := by simp [← hn]
      obtain ⟨hne, htail⟩ := not_or.1 (mt List.mem_cons.2 hrem)
      have hrest := fun hl => ih ts.length hlt (owesCode_rewritten ho hs t) hsound.2 htail hl rfl
      by_cases hc : s.Closes t ts
      · obtain ⟨hstart, rfl, w, us, rfl⟩ := hc
        have hlen : us.length < n := by
          rw [List.length_cons] at hlt
          omega
        have hw : w ≠ .rem := by
          rintro rfl
          exact htail List.mem_cons_self
        have hus := (lexes_closer_iff hs hstart hw hsound.2.2.legible_head).1 h
        rw [showable_cons (by simp), showable_cons (by simp)]
        exact ih us.length hlen (s := s.afterCloser w) rfl hsound.2.2
          (fun hm => htail (List.mem_cons_of_mem _ hm)) hus rfl
      by_cases hk : t.isMarkupLike = true
      · cases t with
        | markup x =>
          obtain ⟨hx, hl⟩ := (lexes_markup_iff ho hp hj s x ts).1 h
          intro y hy
          rcases List.mem_cons.1 hy with hxy | hy
          · cases hxy
            exact hx
          · exact hrest hl y hy
        | directive d =>
          rw [showable_cons (by simp)]
          exact hrest ((lexes_directive_iff ho s hsound.1.1 hsound.1.2 ts).1 h)
        | _ => cases hk
      · have hk : t.isMarkupLike = false := by simpa using hk
        obtain ⟨hl, hset⟩ := hsound.1.legible hk
        obtain ⟨run, us, u, rfl, hrun, hu, hiff⟩ :=
          lexes_script_iff hp hs hc hl hset (Ne.symm hne) hsound.2
        have hlen : us.length < n := by
          rw [List.length_append] at hlt
          omega
        have hus := ih us.length hlen hu hsound.2.of_append
          (fun hm => htail (List.mem_append_right _ hm)) (hiff.1 h) rfl
        rw [showable_cons (by rintro x rfl; cases hk), showable_append]
        refine ⟨fun x hx => ?_, hus⟩
        obtain ⟨c, hx⟩ := hrun _ hx
        cases hx

end Layout

theorem tokenize_opened_iff (s : Text) :
    (∃ us, tokenize .markup ('<' :: '%' :: '\n' :: s) = .ok us) ↔ Lexes s := by
  have hnext : (Source.ofText .markup ('<' :: '%' :: '\n' :: s)).next =
      (.ok (.markup []), .ofText .code ('\n' :: s)) :=
    Source.nextMarkup_append Text.lacks_nil _
  constructor
  · rintro ⟨us, hus⟩
    obtain ⟨ps, hps, -⟩ := reads_of_tokenize hus
    obtain ⟨qs, -, hqs⟩ := (reads_page_iff hnext).1 hps
    exact (yields_newline s).lexes_iff.1 ⟨qs, hqs⟩
  · rintro ⟨qs, hqs⟩
    obtain ⟨us, hus, -⟩ := (reads_rewritten hqs).tokenize
    exact ⟨us, hus⟩

/-- Unless a comment shows the delimiter, what a page is rewritten to is tokenized if no text of it
shows the delimiter, and only then if no token is the comment word. -/
theorem tokenize_rewritten_shown {mode : Mode} {s : Text} {toks : List Spelled}
    (h : tokenize mode s = .ok toks)
    (hc : ∀ x, Token.comment x ∈ toks.map Spelled.token → Text.Lacks '%' '>' x) :
    ∃ out, format { output := .rewrite, initialMode := mode } s = .ok out ∧
      (Showable (toks.map Spelled.token) → ∃ us, tokenize .markup out = .ok us) ∧
      (Token.statement .rem ∉ toks.map Spelled.token →
        (∃ us, tokenize .markup out = .ok us) → Showable (toks.map Spelled.token)) := by
  obtain ⟨o, ho⟩ : ∃ o : Options, o = { output := .rewrite, initialMode := mode } := ⟨_, rfl⟩
  have hrewrites : o.rewrites = true := by rw [ho]; rfl
  have hprint : o.printStatement = Token.printer.text := by rw [ho]; rfl
  have hjoin : o.lineJoin = lineJoin.name.spelling := by rw [ho]; rfl
  have hmode : mode = o.initialMode := by rw [ho]
  obtain ⟨ps, hps, hts⟩ := reads_of_tokenize h
  have hmem : ∀ {t}, t ∈ tokensOf ps → t ∈ toks.map Spelled.token :=
    fun ht => hts ▸ List.mem_append_left _ ht
  have hsound := (hps.sound fun x hx => hc x (hmem hx)).tokensSound
  have hshow : Showable (toks.map Spelled.token) ↔ Showable (tokensOf ps) := by
    rw [hts, showable_append]
    exact and_iff_left (showable_singleton (by simp))
  have hopening : opening o = ['<', '%', '\n'] := if_pos hrewrites
  rw [hmode] at hps
  rw [← ho, hshow]
  refine ⟨_, format_of_reads hps, ?_, ?_⟩
  · intro hs
    rw [hopening]
    have hread : Survives (({} : Layout).lay o (tokensOf ps)) :=
      Layout.survives_lay hrewrites hprint hjoin rfl hsound hs
    exact (tokenize_opened_iff _).2 hread.script
  · intro hrem hus
    rw [hopening] at hus
    exact Layout.showable_of_lexes hrewrites hprint hjoin rfl hsound (fun hm => hrem (hmem hm))
      ((tokenize_opened_iff _).1 hus)

/-- A comment word that becomes a comment, and markup behind it. -/
theorem tokenize_rewritten_shown_remark :
    ∃ toks, tokenize .markup "<%Rem(1%>a\nb<%'c%>".toList = .ok toks ∧
      (∀ x, Token.comment x ∈ toks.map Spelled.token → Text.Lacks '%' '>' x) ∧
      Showable (toks.map Spelled.token) ∧
      ∃ out, format { output := .rewrite } "<%Rem(1%>a\nb<%'c%>".toList = .ok out ∧
        ∃ us, tokenize .markup out = .ok us := by
  obtain ⟨toks, htoks⟩ : ∃ toks : List Spelled, toks =
      [⟨.markup [], []⟩, ⟨.statement .rem, "Rem".toList⟩, ⟨.punctuation '(', ['(']⟩,
        ⟨.integer 1, ['1']⟩, ⟨.markup "a\nb".toList, "a\nb".toList⟩, ⟨.comment ['c'], ['c']⟩,
        ⟨.markup [], []⟩, ⟨.endOfInput, []⟩] := ⟨_, rfl⟩
  have ht : tokenize .markup "<%Rem(1%>a\nb<%'c%>".toList = .ok toks := by
    rw [htoks]
    decide +kernel
  have hc : ∀ x, Token.comment x ∈ toks.map Spelled.token → Text.Lacks '%' '>' x := by
    rw [htoks]
    intro x hx
    obtain rfl : x = ['c'] := by simpa using hx
    simp
  have hs : Showable (toks.map Spelled.token) := by
    rw [htoks]
    intro x hx
    obtain rfl | rfl | rfl : x = [] ∨ x = ['a', '\n', 'b'] ∨ x = [] := by simpa using hx
    · decide
    · decide
    · decide
  obtain ⟨out, hout, hread, -⟩ := tokenize_rewritten_shown ht hc
  exact ⟨toks, ht, hc, hs, out, hout, hread hs⟩

/-- A text with the delimiter in it is printed by a string that cannot be read. -/
theorem tokenize_rewritten_delimiter :
    format { output := .rewrite } "a%>b".toList =
        .ok "<%\nResponse.Write \"a%>b\"\n%>\n".toList ∧
      tokenize .markup "<%\nResponse.Write \"a%>b\"\n%>\n".toList =
        .error ⟨.scan .delimiterInString, 2⟩ := by
  constructor
  · decide +kernel
  · decide +kernel

end ClassicAsp
