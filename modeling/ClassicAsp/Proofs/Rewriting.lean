import ClassicAsp.Proofs.Layout

/-! Formatting in rewrite mode. A page becomes one stretch of script, in which statements print the
texts that stood between the stretches of script, and which is read as the translation of the
tokens of the page. -/
namespace ClassicAsp

def lineJoin : NamedConstant := ⟨.string, ⟨"vbCrLf".toList, by decide⟩⟩

namespace Token

def printer : Token := .identifier "Response.Write".toList

def joining : List Token := [.operator .concat, .constant lineJoin, .operator .concat]

def printing (join : List Token) : List Text → List Token
  | [] => []
  | first :: others =>
    printer :: .string first :: others.flatMap fun line => join ++ [.string line]

def breaksLine : Token → Bool
  | .lineEnd .newline | .continuation => true
  | _ => false

def shown (t : Text) : Text := t.filter (· != '\r')

/-- What a token is translated to when its page is rewritten. The sign for output depends on the
delimiter before it. -/
def translation (afterMarkup : Bool) : Token → List Token
  | .markup t => if shown t = [] then [] else printing joining (Text.lines (shown t))
  | .operator .equal => if afterMarkup then [printer] else [.operator .equal]
  | .lineEnd .newline | .continuation => []
  | t => [t.reread]

def translate (afterMarkup : Bool) : List Token → List Token
  | [] => []
  | t :: ts => t.translation afterMarkup ++ translate t.isMarkupLike ts

theorem isWord_printer : printer.IsWord :=
  ⟨by decide +kernel, by decide +kernel, by decide +kernel⟩

theorem yields_printer {rest : Text} (hr : ∀ c ∈ rest.head?, c = ' ' ∨ c = '\n') :
    Yields (printer.text ++ rest) [printer] rest := by
  have hhead : ∀ c ∈ rest.head?, Lexeme.isNameChar c = false := by
    intro c hc
    rcases hr c hc with rfl | rfl
    · decide
    · decide
  exact (scans_word isWord_printer hhead (by simp [printer])).yields

theorem mem_line {t line : Text} (h : line ∈ Text.lines (shown t)) : '\r' ∉ line ∧ '\n' ∉ line := by
  have hmem := Text.mem_of_mem_piecesFrom h
  constructor
  · intro hr
    rcases hmem _ hr with hc | ⟨hc, -⟩
    · cases hc
    · have hs := List.of_mem_filter hc
      simp at hs
  · intro hn
    rcases hmem _ hn with hc | ⟨-, hc⟩
    · cases hc
    · exact hc rfl

theorem lacks_lines {t : Text} :
    (∀ line ∈ Text.lines (shown t), Text.Lacks '%' '>' line) ↔ Text.Lacks '%' '>' (shown t) :=
  Text.lacks_piecesFrom (by decide) (by decide) [] (shown t)

end Token

section Printing

open Token (printing joining printer EndsLine)

variable {o : Options}

theorem yields_space (s : Text) : Yields (' ' :: s) [] s :=
  yields_skip (Source.skip_cons (by decide) s)

theorem yields_word {t : Token} (ht : t.IsWord) (hr : t ≠ .statement .rem) (s : Text) :
    Yields (t.text ++ ' ' :: s) [t] s := by
  have hhead : ∀ c ∈ (' ' :: s).head?, Lexeme.isNameChar c = false := by
    intro c hc
    cases hc
    decide
  exact ((Token.scans_word ht hhead fun h => absurd h hr).yields).trans (yields_space s)

theorem yields_concat (s : Text) : Yields ('&' :: ' ' :: s) [.operator .concat] s := by
  have hhead : ∀ c ∈ (' ' :: s).head?, c = ' ' ∨ c = '\n' := by
    intro c hc
    cases hc
    exact .inl rfl
  exact ((Token.scans_operator .concat hhead).yields).trans (yields_space s)

theorem yields_newline (s : Text) : Yields ('\n' :: s) [.lineEnd .newline] s :=
  (Token.scans_lineEnd .newline s).yields

def nextLine (depth : ℕ) : Text :=
  '\n' :: (tabs (depth + 1) ++ '&' :: ' ' :: (lineJoin.name.spelling ++ [' ', '&', ' ']))

def joint (depth : ℕ) : Text := ' ' :: '_' :: nextLine depth

theorem yields_nextLine (depth : ℕ) (s : Text) :
    Yields (nextLine depth ++ s) (.lineEnd .newline :: joining) s := by
  have htext : nextLine depth ++ s = '\n' :: (tabs (depth + 1) ++
      ('&' :: ' ' :: ((Token.constant lineJoin).text ++ ' ' :: '&' :: ' ' :: s))) := by
    unfold nextLine
    simp only [List.append_assoc, List.cons_append, List.nil_append]
    rfl
  have hword := yields_word (Token.isWord_constant lineJoin) (by simp) ('&' :: ' ' :: s)
  have hjoin := (yields_concat _).trans (hword.trans (yields_concat s))
  rw [htext]
  exact (yields_newline _).trans ((yields_blanks (Source.isSeparator_tabs _) _).trans hjoin)

theorem yields_joint (depth : ℕ) (s : Text) :
    Yields (joint depth ++ s) (.continuation :: .lineEnd .newline :: joining) s := by
  have hends : EndsLine (nextLine depth ++ s) := Token.endsLine_newline _
  have hbroken := (Token.scans_continuation hends).yields
  exact (yields_space _).trans (hbroken.trans (yields_nextLine depth s))

theorem yields_string {t rest : Text} (ht : Lexeme.IsString t) (hr : rest.head? ≠ some '"') :
    Yields (Text.quote t ++ rest) [.string t] rest :=
  (Token.scans_string ht hr).yields

def furtherLines (depth : ℕ) (lines : List Text) : Text :=
  lines.flatMap fun line => joint depth ++ Text.quote line

theorem furtherLines_cons (depth : ℕ) (line : Text) (lines : List Text) (rest : Text) :
    furtherLines depth (line :: lines) ++ rest =
      joint depth ++ (Text.quote line ++ (furtherLines depth lines ++ rest)) := by
  unfold furtherLines
  rw [List.flatMap_cons, List.append_assoc, List.append_assoc]

theorem head_furtherLines (depth : ℕ) (lines : List Text) {rest : Text}
    (hr : rest.head? ≠ some '"') : (furtherLines depth lines ++ rest).head? ≠ some '"' := by
  cases lines with
  | nil => exact hr
  | cons line lines =>
    rw [furtherLines_cons]
    simp [joint]

theorem yields_furtherLines (depth : ℕ) {lines : List Text} {rest : Text}
    (hl : ∀ line ∈ lines, Lexeme.IsString line) (hr : rest.head? ≠ some '"') :
    Yields (furtherLines depth lines ++ rest) (lines.flatMap fun line =>
      .continuation :: .lineEnd .newline :: joining ++ [.string line]) rest := by
  induction lines with
  | nil => exact yields_skip rfl
  | cons line lines ih =>
    have hhead := head_furtherLines depth lines hr
    have hstring := yields_string (hl line List.mem_cons_self) hhead
    have hrest := ih fun l hm => hl l (List.mem_cons_of_mem _ hm)
    rw [furtherLines_cons, List.flatMap_cons, List.append_assoc]
    exact (yields_joint depth _).trans (hstring.trans hrest)

theorem printLines_eq (hj : o.lineJoin = lineJoin.name.spelling) (depth : ℕ) (first : Text)
    (others : List Text) : Layout.printLines o depth (first :: others) = tabs depth ++
      (o.printStatement ++ ' ' :: (Text.quote first ++ furtherLines depth others)) := by
  have h1 : " _\n".toList = [' ', '_', '\n'] := by decide
  have h2 : "& ".toList = ['&', ' '] := by decide
  have h3 : " & ".toList = [' ', '&', ' '] := by decide
  unfold Layout.printLines furtherLines joint nextLine
  rw [hj, h1, h2, h3]
  simp only [List.append_assoc, List.cons_append, List.nil_append]

theorem exists_lines (t : Text) :
    ∃ first others, Text.lines (Token.shown t) = first :: others :=
  List.exists_cons_of_ne_nil (Text.piecesFrom_ne_nil '\n' [] (Token.shown t))

theorem printMarkup_nil (o : Options) (depth : ℕ) {t : Text} (hs : Token.shown t = []) :
    Layout.printMarkup o depth t = [] :=
  if_pos hs

theorem printMarkup_lines (hp : o.printStatement = printer.text)
    (hj : o.lineJoin = lineJoin.name.spelling) (depth : ℕ) {t first : Text} {others : List Text}
    (hs : Token.shown t ≠ []) (hl : Text.lines (Token.shown t) = first :: others) (rest : Text) :
    Layout.printMarkup o depth t ++ rest = tabs depth ++ (printer.text ++ ' ' ::
      (Text.quote first ++ (furtherLines depth others ++ '\n' :: rest))) := by
  have hprint : Layout.printMarkup o depth t =
      Layout.printLines o depth (Text.lines (Token.shown t)) ++ ['\n'] := if_neg hs
  rw [hprint, hl, printLines_eq hj, hp]
  simp only [List.append_assoc, List.cons_append, List.nil_append]

/-- The statement that prints a text is read as its tokens, and ends its line. -/
theorem yields_printMarkup (hp : o.printStatement = printer.text)
    (hj : o.lineJoin = lineJoin.name.spelling) (depth : ℕ) {t : Text}
    (ht : Text.Lacks '%' '>' (Token.shown t)) (rest : Text) :
    Yields (Layout.printMarkup o depth t ++ rest)
      (if Token.shown t = [] then [] else
        printing (.continuation :: .lineEnd .newline :: joining) (Text.lines (Token.shown t)) ++
          [.lineEnd .newline]) rest := by
  by_cases hs : Token.shown t = []
  · rw [printMarkup_nil o depth hs, if_pos hs]
    exact yields_skip rfl
  · obtain ⟨first, others, hfirst⟩ := exists_lines t
    have hlines := Token.lacks_lines.2 ht
    have hstring : ∀ line ∈ first :: others, Lexeme.IsString line := by
      intro line hm
      obtain ⟨hr, hn⟩ := Token.mem_line (hfirst ▸ hm)
      exact ⟨hr, hn, hlines line (hfirst ▸ hm)⟩
    have hothers := yields_furtherLines depth
      (fun l hm => hstring l (List.mem_cons_of_mem _ hm))
      (show ('\n' :: rest).head? ≠ some '"' by simp)
    have hhead := head_furtherLines depth others (show ('\n' :: rest).head? ≠ some '"' by simp)
    have hline := yields_string (hstring first List.mem_cons_self) hhead
    have hword := yields_word Token.isWord_printer (by simp [printer])
      (Text.quote first ++ (furtherLines depth others ++ '\n' :: rest))
    have hall := hword.trans (hline.trans (hothers.trans (yields_newline rest)))
    rw [if_neg hs, printMarkup_lines hp hj depth hs hfirst, hfirst]
    have htokens : printing (.continuation :: .lineEnd .newline :: joining) (first :: others) ++
        [.lineEnd .newline] = [printer] ++ ([.string first] ++ (others.flatMap (fun line =>
          .continuation :: .lineEnd .newline :: joining ++ [.string line]) ++
            [.lineEnd .newline])) := rfl
    rw [htokens]
    exact (yields_blanks (Source.isSeparator_tabs depth) _).trans hall

end Printing

namespace Token

def withoutBreaks (ts : List Token) : List Token := ts.filter fun t => !t.breaksLine

@[simp] theorem withoutBreaks_append (ts us : List Token) :
    withoutBreaks (ts ++ us) = withoutBreaks ts ++ withoutBreaks us :=
  List.filter_append ts us

theorem withoutBreaks_reread {t : Token} (ht : t.isMarkupLike = false) {afterMarkup : Bool}
    (h : afterMarkup = true → t ≠ .operator .equal) :
    withoutBreaks [t.reread] = t.translation afterMarkup := by
  cases t with
  | markup | directive => cases ht
  | operator p =>
    cases p with
    | equal =>
      cases afterMarkup with
      | false => rfl
      | true => exact absurd rfl (h rfl)
    | _ => rfl
  | float x =>
    change withoutBreaks [(float x).reread] = [(float x).reread]
    by_cases hw : x.IsWhole
    · rw [reread, if_pos hw]
      rfl
    · rw [reread, if_neg hw]
      rfl
  | lineEnd e => cases e <;> rfl
  | _ => rfl

theorem withoutBreaks_printing (lines : List Text) :
    withoutBreaks (printing (.continuation :: .lineEnd .newline :: joining) lines ++
      [.lineEnd .newline]) = printing joining lines := by
  have hothers : ∀ others : List Text, withoutBreaks (others.flatMap fun line =>
      .continuation :: .lineEnd .newline :: joining ++ [.string line]) =
        others.flatMap fun line => joining ++ [.string line] := by
    intro others
    induction others with
    | nil => rfl
    | cons line others ih =>
      rw [List.flatMap_cons, List.flatMap_cons, withoutBreaks_append, ih]
      rfl
  rw [withoutBreaks_append]
  cases lines with
  | nil => rfl
  | cons first others =>
    change printer :: .string first :: withoutBreaks _ ++ [] = _
    rw [List.append_nil]
    exact congrArg (fun ts => printer :: .string first :: ts) (hothers others)

end Token

namespace Layout

open Token (printer joining withoutBreaks translate)

variable {o : Options} {s : Layout} {t : Token} {ts : List Token}

theorem owesCode_rewritten (ho : o.rewrites = true) (hs : s.owesCode = false) (t : Token) :
    (s.after o t).owesCode = false := by
  by_cases ht : t.isMarkupLike = true
  · have howes : (s.settle t).owesCode = false := by
      unfold settle
      simp only [hs, Bool.false_and]
      split
      · split <;> split <;> simp [dedent, beginLine]
      · split <;> simp [dedent, takeParen]
    cases t with
    | markup | directive =>
      simp only [after.eq_def, ho, howes]
      rfl
    | _ => cases ht
  · exact owesCode_after o s (by simpa using ht)

theorem previous_after (o : Options) (s : Layout) (t : Token) :
    ((s.after o t).previous == .markup) = t.isMarkupLike := by
  have hprevious : (s.after o t).previous = .ofToken t := rfl
  rw [hprevious]
  cases t <;> rfl

theorem text_rewritten (ho : o.rewrites = true) (s : Layout) (ht : t.isMarkupLike = true) :
    (s.write o t).text = s.body o t := by
  have hskip : s.skipsTabs o t = true := by
    simp [skipsTabs, ho, ht]
  simp only [Written.text, write, hskip, ho, ht, Bool.not_true, Bool.and_false, Bool.false_eq_true,
    if_false, if_true, Bool.and_true, Bool.false_and, ite_self, List.nil_append]

theorem yields_ownLine (s : Layout) (rest : Text) :
    ∃ us, withoutBreaks us = [] ∧ Yields ((if s.atLineStart then [] else ['\n']) ++ rest) us rest := by
  by_cases hs : s.atLineStart = true
  · rw [if_pos hs]
    exact ⟨[], rfl, yields_skip rfl⟩
  · rw [if_neg hs]
    exact ⟨[.lineEnd .newline], rfl, yields_newline rest⟩

theorem not_closes_page (s : Layout) (ht : t.isMarkupLike = true) (ts : List Token) :
    ¬ s.Closes t ts := by
  rintro ⟨-, rfl, -⟩
  cases ht

theorem lay_markup (ho : o.rewrites = true) (s : Layout) (t : Text) (ts : List Token) :
    lay o s (.markup t :: ts) = (if s.atLineStart then [] else ['\n']) ++
      (printMarkup o (s.settle (.markup t)).depth t ++ lay o (s.after o (.markup t)) ts) := by
  have hbody : s.body o (.markup t) = (if s.atLineStart then [] else ['\n']) ++
      printMarkup o (s.settle (.markup t)).depth t := if_pos ho
  rw [lay_cons o (not_closes_page s rfl ts), text_rewritten ho s rfl, hbody, List.append_assoc]

theorem lay_directive (ho : o.rewrites = true) (s : Layout) (d : Directive) (ts : List Token) :
    lay o s (.directive d :: ts) = (if s.atLineStart then [] else ['\n']) ++
      '%' :: '>' :: (d.write ++ '<' :: '%' :: '\n' :: lay o (s.after o (.directive d)) ts) := by
  have hbody : s.body o (.directive d) = (if s.atLineStart then [] else ['\n']) ++
      ['%', '>'] ++ d.write ++ ['<', '%', '\n'] := if_pos ho
  rw [lay_cons o (not_closes_page s rfl ts), text_rewritten ho s rfl, hbody]
  simp only [List.append_assoc, List.cons_append, List.nil_append]

theorem yields_markup (ho : o.rewrites = true) (hp : o.printStatement = printer.text)
    (hj : o.lineJoin = lineJoin.name.spelling) (s : Layout) {t : Text}
    (ht : Text.Lacks '%' '>' (Token.shown t)) (ts : List Token) (b : Bool) :
    ∃ us, withoutBreaks us = (Token.markup t).translation b ∧
      Yields (lay o s (.markup t :: ts)) us (lay o (s.after o (.markup t)) ts) := by
  obtain ⟨us, hus, hbreak⟩ := yields_ownLine s (printMarkup o (s.settle (.markup t)).depth t ++
    lay o (s.after o (.markup t)) ts)
  have hprint := yields_printMarkup hp hj (s.settle (.markup t)).depth ht
    (lay o (s.after o (.markup t)) ts)
  rw [lay_markup ho]
  refine ⟨_, ?_, hbreak.trans hprint⟩
  rw [Token.withoutBreaks_append, hus, List.nil_append, Token.translation]
  split
  · rfl
  · exact Token.withoutBreaks_printing _

theorem reads_directive_iff (ho : o.rewrites = true) (s : Layout) {d : Directive}
    (hq : '"' ∉ d.path) (hl : Text.Lacks '<' '%' d.path) (ts : List Token) :
    ∃ rs, withoutBreaks (tokensOf rs) = [.directive d] ∧ ∀ ps,
      Reads (.ofText .code (lay o s (.directive d :: ts))) ps ↔
        ∃ qs, ps = rs ++ qs ∧ Reads (.ofText .code (lay o (s.after o (.directive d)) ts)) qs := by
  have hwrite : Text.Lacks '<' '%' d.write := by
    have hw := Segment.lacks_write hl Text.lacks_nil
    rwa [List.append_nil] at hw
  obtain ⟨us, hus, hbreak⟩ := yields_ownLine s ('%' :: '>' :: (d.write ++ '<' :: '%' :: '\n' ::
    lay o (s.after o (.directive d)) ts))
  refine ⟨us.map .script ++ [.page d.write, .script (.lineEnd .newline)], ?_, fun ps => ?_⟩
  · simp [hus, Segment.split_write hq]
    rfl
  · rw [lay_directive ho, hbreak ps]
    constructor
    · rintro ⟨qs, rfl, hq⟩
      obtain ⟨rs, rfl, hr⟩ := (reads_delimited_iff hwrite).1 hq
      obtain ⟨qs, rfl, hqs⟩ := reads_newline_iff.1 hr
      exact ⟨qs, by rw [List.append_assoc, List.cons_append, List.cons_append, List.nil_append], hqs⟩
    · rintro ⟨qs, rfl, hqs⟩
      refine ⟨_, ?_, (reads_delimited_iff hwrite).2 ⟨_, rfl, reads_newline_iff.2 ⟨qs, rfl, hqs⟩⟩⟩
      rw [List.append_assoc, List.cons_append, List.cons_append, List.nil_append]

/-- Script is read as it is, except behind the texts of the page. -/
theorem yields_rewritten (ho : o.rewrites = true) (hp : o.printStatement = printer.text)
    (hs : s.owesCode = false) (hc : ¬ s.Closes t ts) (ht : t.Legible)
    (hr : t.Boundary (lay o (s.after o t) ts)) :
    ∃ us, withoutBreaks us = t.translation (s.previous == .markup) ∧
      Yields (lay o s (t :: ts)) us (lay o (s.after o t) ts) := by
  have htext : lay o s (t :: ts) =
      (s.write o t).gap ++ (s.body o t ++ lay o (s.after o t) ts) := by
    simp [hc, text_script hs ht.script]
  by_cases hm : (s.previous == .markup) = true
  · have hbehind : (o.rewrites && s.previous == .markup) = true := by rw [ho, hm]; rfl
    by_cases he : t = .operator .equal
    · have hbody : s.body o (.operator .equal) = printer.text := (if_pos hbehind).trans hp
      rw [he] at hr
      have hword := Token.yields_printer hr
      refine ⟨[printer], ?_, ?_⟩
      · rw [he, hm]
        rfl
      · rw [htext]
        refine (yields_blanks (isSeparator_gap o s t) _).trans ?_
        rw [he, hbody]
        exact hword
    by_cases hn : t = .lineEnd .newline
    · have hbody : s.body o (.lineEnd .newline) = [] := if_pos hbehind
      refine ⟨[], by rw [hn]; rfl, ?_⟩
      rw [htext, hn, hbody]
      exact yields_blanks (isSeparator_gap o s _) _
    · have hbody := body_eq_printed o s ht.script fun _ => ⟨he, hn⟩
      exact ⟨[t.reread], Token.withoutBreaks_reread ht.script fun _ => he,
        yields_script hs hc ht hbody hr⟩
  · have hbody := body_eq_printed o s ht.script fun h => absurd (Bool.and_eq_true_iff.1 h).2 hm
    exact ⟨[t.reread], Token.withoutBreaks_reread ht.script fun h => absurd h hm,
      yields_script hs hc ht hbody hr⟩

/-- One token of a rewritten page, whichever it is, is read as its translation. -/
theorem reads_translation (ho : o.rewrites = true) (hp : o.printStatement = printer.text)
    (hj : o.lineJoin = lineJoin.name.spelling) (hs : s.owesCode = false) (hc : ¬ s.Closes t ts)
    (ht : t.Sound ts.head?) (hu : ∀ u ∈ ts.head?, u.isMarkupLike = false → u.Legible)
    (hplain : Plain (t :: ts)) (hm : ∀ x, t = .markup x → Text.Lacks '%' '>' (Token.shown x))
    {qs : List Part} (h : Reads (.ofText .code (lay o (s.after o t) ts)) qs) :
    ∃ rs, Reads (.ofText .code (lay o s (t :: ts))) (rs ++ qs) ∧
      withoutBreaks (tokensOf rs) = t.translation (s.previous == .markup) := by
  have hyields : ∀ us, Yields (lay o s (t :: ts)) us (lay o (s.after o t) ts) →
      withoutBreaks us = t.translation (s.previous == .markup) →
      ∃ rs, Reads (.ofText .code (lay o s (t :: ts))) (rs ++ qs) ∧
        withoutBreaks (tokensOf rs) = t.translation (s.previous == .markup) := by
    intro us hy hus
    exact ⟨us.map .script, hy.reads h, by rw [tokensOf_script_map, hus]⟩
  by_cases hk : t.isMarkupLike = true
  · cases t with
    | markup x =>
      obtain ⟨us, hus, hy⟩ := yields_markup ho hp hj s (hm x rfl) ts (s.previous == .markup)
      exact hyields us hy hus
    | directive d =>
      obtain ⟨rs, hrs, hreads⟩ := reads_directive_iff ho s ht.1 ht.2 ts
      exact ⟨rs, (hreads _).2 ⟨qs, rfl, h⟩, hrs⟩
    | _ => cases hk
  · have hk : t.isMarkupLike = false := by simpa using hk
    obtain ⟨hl, hset⟩ := ht.legible hk
    have hunderscore : t = .punctuation '_' → o.rewrites = false := by
      rintro rfl
      exact absurd (hplain.punctuation '_' List.mem_cons_self) (by decide)
    have hr := boundary_after s hl hplain.apart.1 hset hu hunderscore
    obtain ⟨us, hus, hy⟩ := yields_rewritten ho hp hs hc hl hr
    exact hyields us hy hus

theorem reads_ending (ho : o.rewrites = true) (s : Layout) :
    ∃ qs, Reads (.ofText .code (s.ending o)) qs ∧
      withoutBreaks (tokensOf qs) = [.markup ['\n']] := by
  have hlast : Reads (.ofText .code ['%', '>', '\n']) [.page ['\n']] := reads_last (by decide)
  obtain ⟨us, hus, hbreak⟩ := yields_ownLine s ['%', '>', '\n']
  refine ⟨us.map .script ++ [.page ['\n']], ?_, ?_⟩
  · rw [ending, if_pos ho]
    exact hbreak.reads hlast
  · have hpage : tokensOf [.page ['\n']] = [.markup ['\n']] := by decide +kernel
    simp [hus, hpage]
    rfl

theorem reads_translate (ho : o.rewrites = true) (hp : o.printStatement = printer.text)
    (hj : o.lineJoin = lineJoin.name.spelling) (s : Layout) (ts : List Token)
    (hs : s.owesCode = false) (hsound : TokensSound ts) (hplain : Plain ts)
    (hm : ∀ x, Token.markup x ∈ ts → Text.Lacks '%' '>' (Token.shown x)) :
    ∃ qs, Reads (.ofText .code (lay o s ts)) qs ∧
      withoutBreaks (tokensOf qs) = translate (s.previous == .markup) ts ++ [.markup ['\n']] := by
  induction s, ts using walk_induction o with
  | nil s => exact reads_ending ho s
  | closer s w ts hstart ih =>
    obtain ⟨qs, hqs, htokens⟩ := ih rfl hsound.2.2
      (hplain.subset fun t ht => List.mem_cons_of_mem _ (List.mem_cons_of_mem _ ht))
      fun x hx => hm x (List.mem_cons_of_mem _ (List.mem_cons_of_mem _ hx))
    obtain ⟨hl, hset⟩ := hsound.2.1.legible rfl
    have hw := (behind_closer s w).boundary (o := o) hplain.apart.2.1 hset
      hsound.2.2.legible_head (by simp)
    refine ⟨_, (yields_closer hs hstart hw).reads hqs, ?_⟩
    rw [tokensOf_append, tokensOf_script_map, Token.withoutBreaks_append, htokens]
    rfl
  | cons s t ts hc ih =>
    obtain ⟨qs, hqs, htokens⟩ := ih (owesCode_rewritten ho hs t) hsound.2
      (hplain.subset fun u hu => List.mem_cons_of_mem _ hu)
      fun x hx => hm x (List.mem_cons_of_mem _ hx)
    obtain ⟨rs, hrs, htranslation⟩ := reads_translation ho hp hj hs hc hsound.1
      hsound.2.legible_head hplain (by rintro x rfl; exact hm x List.mem_cons_self) hqs
    refine ⟨_, hrs, ?_⟩
    rw [tokensOf_append, Token.withoutBreaks_append, htranslation, htokens, previous_after]
    exact (List.append_assoc _ _ _).symm

end Layout

/-- A page that was rewritten is read in markup mode. Code is opened before anything else. -/
theorem reads_rewritten {s : Text} {qs : List Part} (h : Reads (.ofText .code s) qs) :
    Reads (.ofText .markup ('<' :: '%' :: '\n' :: s))
      (.page [] :: .script (.lineEnd .newline) :: qs) := by
  have hnext : (Source.ofText .markup ('<' :: '%' :: '\n' :: s)).next =
      (.ok (.markup []), .ofText .code ('\n' :: s)) :=
    Source.nextMarkup_append Text.lacks_nil _
  exact (reads_page_iff hnext).2 ⟨_, rfl, (yields_newline s).reads h⟩

/-- Rewriting translates a page token by token, up to the line breaks of its script. -/
theorem tokenize_rewritten {mode : Mode} {s : Text} {toks : List Spelled}
    (h : tokenize mode s = .ok toks) (hp : Plain (toks.map Spelled.token))
    (hm : ∀ t, Token.markup t ∈ toks.map Spelled.token → Text.Lacks '%' '>' (Token.shown t)) :
    ∃ out us, format { output := .rewrite, initialMode := mode } s = .ok out ∧
      tokenize .markup out = .ok us ∧
      Token.withoutBreaks (us.map Spelled.token) =
        .markup [] :: Token.translate false (toks.map Spelled.token).dropLast ++
          [.markup ['\n'], .endOfInput] := by
  obtain ⟨ps, hps, hts⟩ := reads_of_tokenize h
  have hmem : ∀ {t}, t ∈ tokensOf ps → t ∈ toks.map Spelled.token :=
    fun ht => hts ▸ List.mem_append_left _ ht
  have hsound := hps.sound fun x hx => hp.comment x (hmem hx)
  have hformat := format_of_reads (o := { output := .rewrite, initialMode := mode }) hps
  obtain ⟨qs, hqs, htokens⟩ := Layout.reads_translate
    (o := { output := .rewrite, initialMode := mode }) rfl rfl rfl {} (tokensOf ps) rfl
    hsound.tokensSound (hp.subset fun t ht => hmem ht) fun t ht => hm t (hmem ht)
  change Token.withoutBreaks (tokensOf qs) =
    Token.translate false (tokensOf ps) ++ [.markup ['\n']] at htokens
  obtain ⟨us, hus, hust⟩ := (reads_rewritten hqs).tokenize
  refine ⟨_, us, hformat, hus, ?_⟩
  rw [hust, hts, List.dropLast_concat, Token.withoutBreaks_append, tokensOf_page, tokensOf_script]
  change Token.markup [] :: (Token.withoutBreaks (tokensOf qs)) ++ [.endOfInput] = _
  rw [htokens, List.cons_append, List.cons_append, List.append_assoc]
  rfl

/-- Markup of two lines before the sign for output. -/
theorem tokenize_rewritten_lines :
    ∃ toks, tokenize .markup "a\nb<%=1%>".toList = .ok toks ∧ Plain (toks.map Spelled.token) ∧
      (∀ t, Token.markup t ∈ toks.map Spelled.token → Text.Lacks '%' '>' (Token.shown t)) ∧
      ∃ out us, format { output := .rewrite } "a\nb<%=1%>".toList = .ok out ∧
        tokenize .markup out = .ok us ∧
        Token.withoutBreaks (us.map Spelled.token) =
          .markup [] :: Token.translate false (toks.map Spelled.token).dropLast ++
            [.markup ['\n'], .endOfInput] := by
  obtain ⟨toks, htoks⟩ : ∃ toks : List Spelled, toks =
      [⟨.markup "a\nb".toList, "a\nb".toList⟩, ⟨.operator .equal, ['=']⟩, ⟨.integer 1, ['1']⟩,
        ⟨.markup [], []⟩, ⟨.endOfInput, []⟩] := ⟨_, rfl⟩
  have ht : tokenize .markup "a\nb<%=1%>".toList = .ok toks := by
    rw [htoks]
    decide +kernel
  have hp : Plain (toks.map Spelled.token) := by
    rw [htoks]
    decide +kernel
  have hm : ∀ t, Token.markup t ∈ toks.map Spelled.token →
      Text.Lacks '%' '>' (Token.shown t) := by
    rw [htoks]
    intro t hmem
    simp only [List.map_cons, List.map_nil, List.mem_cons, reduceCtorEq, Token.markup.injEq,
      List.not_mem_nil, or_false, false_or] at hmem
    rcases hmem with rfl | rfl
    · decide
    · decide
  exact ⟨toks, ht, hp, hm, tokenize_rewritten ht hp hm⟩

end ClassicAsp
