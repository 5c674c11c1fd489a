import ClassicAsp.Proofs.LineNumber
import ClassicAsp.Proofs.WellFormed

/-! Underscores that end a line. The look-ahead that tells a continued line passes spaces, tabs and
carriage returns, whereas reading passes all white space but newlines. An underscore is taken for a
continuation exactly if nothing else stands between it and the end of its line. -/
namespace ClassicAsp

def Token.IsUnderscore (t : Token) : Prop := t = .continuation ∨ t = .punctuation '_'

def Token.IsLineBreak (t : Token) : Prop := t = .lineEnd .newline ∨ t = .endOfInput

namespace Lexeme

variable {l : Lexeme} {t : Token} {atLineEnd : Bool}

theorem token_underscore (h : l.token atLineEnd = .ok t) (ht : t.IsUnderscore) :
    l = .punctuation '_' ∧ (t = .continuation ↔ atLineEnd = true) := by
  cases Gives.of_token h with
  | continuation hend => exact ⟨rfl, by simpa using hend⟩
  | punctuation hc =>
    rcases ht with ht | ht
    · cases ht
    · cases ht
      exact ⟨rfl, by simpa using hc rfl⟩
  | _ => rcases ht with ht | ht <;> cases ht

theorem token_lineBreak_iff (h : l.token atLineEnd = .ok t) :
    t.IsLineBreak ↔ l = .lineEnd .newline ∨ l = .endOfInput := by
  cases Gives.of_token h <;> simp [Token.IsLineBreak]

end Lexeme

namespace Source

variable {blanks rest : Text}

theorem exists_blanks (s : Text) : ∃ blanks rest, s = blanks ++ rest ∧
    (∀ c ∈ blanks, isSeparator c = true) ∧ ∀ c ∈ rest.head?, isSeparator c = false := by
  refine ⟨s.takeWhile isSeparator, s.dropWhile isSeparator,
    List.takeWhile_append_dropWhile.symm, List.all_eq_true.1 List.all_takeWhile, ?_⟩
  intro c hc
  have hnot := List.head?_dropWhile_not isSeparator s
  rw [Option.mem_def.1 hc] at hnot
  simpa using hnot

/-- The end of a line is seen through spaces, tabs and carriage returns alone. -/
theorem atLineEnd_iff (hb : ∀ c ∈ blanks, isSeparator c = true)
    (hr : ∀ c ∈ rest.head?, isSeparator c = false) :
    (ofText .code (blanks ++ rest)).atLineEnd = true ↔
      (∀ c ∈ rest.head?, c = '\n') ∧ ∀ c ∈ blanks, c = ' ' ∨ c = '\t' ∨ c = '\r' := by
  induction blanks with
  | nil =>
    cases rest with
    | nil => simp [atLineEnd, ofText]
    | cons c s =>
      have hc : isSeparator c = false := hr c rfl
      have hother {b : Char} (hsep : isSeparator b = true) : c ≠ b := by
        rintro rfl
        rw [hsep] at hc
        cases hc
      have h1 : c ≠ ' ' := hother (by decide)
      have h2 : c ≠ '\t' := hother (by decide)
      have h3 : c ≠ '\r' := hother (by decide)
      simp [atLineEnd, ofText, h1, h2, h3]
  | cons b blanks ih =>
    have hsep : isSeparator b = true := hb b List.mem_cons_self
    have ih := ih fun c hc => hb c (List.mem_cons_of_mem _ hc)
    by_cases hnarrow : b = ' ' ∨ b = '\t' ∨ b = '\r'
    · have hskip : (ofText .code (b :: blanks ++ rest)).atLineEnd =
          (ofText .code (blanks ++ rest)).atLineEnd := by
        rcases hnarrow with rfl | rfl | rfl
        · rfl
        · rfl
        · rfl
      rw [hskip, ih, List.forall_mem_cons]
      simp only [hnarrow, true_and]
    · have hn : b ≠ '\n' := by
        rintro rfl
        cases hsep
      have hstop : (ofText .code (b :: blanks ++ rest)).atLineEnd = false := by
        simp only [not_or] at hnarrow
        simp [atLineEnd, ofText, hnarrow, hn]
      rw [hstop]
      constructor
      · intro h
        cases h
      · rintro ⟨-, hall⟩
        exact absurd (hall b List.mem_cons_self) hnarrow

/-- Reading comes to the end of a line through white space of every kind. -/
theorem next_lineBreak_iff (hb : ∀ c ∈ blanks, isSeparator c = true)
    (hr : ∀ c ∈ rest.head?, isSeparator c = false) :
    ((ofText .code (blanks ++ rest)).next.1 = .ok (.lineEnd .newline) ∨
      (ofText .code (blanks ++ rest)).next.1 = .ok .endOfInput) ↔ ∀ c ∈ rest.head?, c = '\n' := by
  rw [next_congr (skip_append hb rest)]
  cases rest with
  | nil =>
    have hend : (ofText .code []).next.1 = .ok .endOfInput := rfl
    simp [hend]
  | cons c s =>
    have hc : isSeparator c = false := hr c rfl
    constructor
    · -- the first character that is no blank would begin another lexeme
      intro h a ha
      cases ha
      obtain ⟨l, n, hl, hends⟩ : ∃ l n, (ofText .code (c :: s)).next = (.ok l, n) ∧
          (l = .lineEnd .newline ∨ l = .endOfInput) := by
        rcases h with h | h
        · exact ⟨_, _, Prod.ext h rfl, Or.inl rfl⟩
        · exact ⟨_, _, Prod.ext h rfl, Or.inr rfl⟩
      obtain ⟨w, hw⟩ := takes_of_next hl
      have hslice : c :: s = w ++ n.rest := hw.rest_eq
      rcases hends with rfl | rfl
      · obtain ⟨-, g, v, rfl, hg, rfl⟩ := hw.of_script rfl (by simp)
        cases g with
        | nil => exact (List.cons.inj hslice).1
        | cons b g =>
          obtain ⟨rfl, -⟩ := List.cons.inj hslice
          rw [hg c List.mem_cons_self] at hc
          cases hc
      · generalize hsource : ofText .code (c :: s) = source at hw
        cases hw with
        | past hs =>
          rw [← hsource] at hs
          cases hs
        | blanks hg =>
          cases hsource
          rw [hg c List.mem_cons_self] at hc
          cases hc
        | script _ hread => exact hread.elim
    · intro h
      obtain rfl := h c rfl
      exact Or.inl (congrArg Prod.fst (next_of_lexeme hc (by simp) (lexeme_newline s)))

end Source

namespace TokenStream

variable {start s u w v : TokenStream} {t x : Spelled} {ts us : List Spelled}

theorem Run.snoc (h : Run start (ts ++ [t]) v) : ∃ s, Run start ts s ∧ s.next = (.ok t, v) := by
  generalize hus : ts ++ [t] = us at h
  cases h with
  | start => exact absurd hus (by simp)
  | @next us s _ _ hr hn =>
    obtain ⟨rfl, ht⟩ := List.append_inj' hus rfl
    cases ht
    exact ⟨s, hr, hn⟩

theorem Run.split (h : Run start (ts ++ us) v) : ∃ s, Run start ts s ∧ Run s us v := by
  induction us using List.reverseRecOn generalizing v with
  | nil =>
    rw [List.append_nil] at h
    exact ⟨v, h, .start⟩
  | append_singleton us t ih =>
    rw [← List.append_assoc] at h
    obtain ⟨w, hw, hn⟩ := h.snoc
    obtain ⟨s, hs, hr⟩ := ih hw
    exact ⟨s, hs, hr.next hn⟩

theorem Run.uncons (h : Run start (t :: us) v) : ∃ u, start.next = (.ok t, u) ∧ Run u us v := by
  have hparts : Run start ([t] ++ us) v := h
  obtain ⟨u, hu, hr⟩ := hparts.split
  have hfirst : Run start ([] ++ [t]) u := hu
  obtain ⟨s, hs, hn⟩ := hfirst.snoc
  rw [hs.head.1 rfl] at hn
  exact ⟨u, hn, hr⟩

theorem Drawn.underscore (h : Drawn s t u) (hs : s.QueueSound) (ht : t.token.IsUnderscore) :
    s.source.next = (.ok (.punctuation '_'), u.source) ∧ u.queue = [] ∧
      (t.token = .continuation ↔ u.source.atLineEnd = true) := by
  have hscript (hm : t.token.isMarkupLike = true) : False := by
    rcases ht with ht | ht
    · rw [ht] at hm
      cases hm
    · rw [ht] at hm
      cases hm
  cases h with
  | queued source t q line => exact (hscript (hs t List.mem_cons_self).2).elim
  | markup hn hq line => exact (hscript (pieces_sound hn t (by simp [hq])).2).elim
  | @script source rest l t hn hm hl line =>
    obtain ⟨rfl, hcontinues⟩ := Lexeme.token_underscore hl ht
    exact ⟨hn, rfl, hcontinues⟩

theorem Drawn.lineBreak_iff (h : Drawn u x w) (hq : u.queue = []) :
    x.token.IsLineBreak ↔
      u.source.next.1 = .ok (.lineEnd .newline) ∨ u.source.next.1 = .ok .endOfInput := by
  cases h with
  | queued => cases hq
  | @markup source rest text x q hn hqueue line =>
    have hm : x.token.isMarkupLike = true := (pieces_sound hn x (by simp [hqueue])).2
    rw [hn]
    constructor
    · intro hx
      rcases hx with hx | hx
      · rw [hx] at hm
        cases hm
      · rw [hx] at hm
        cases hm
    · intro hl
      rcases hl with hl | hl
      · cases hl
      · cases hl
  | @script source rest l t hn hm hl line =>
    rw [hn]
    exact (Lexeme.token_lineBreak_iff hl).trans (by simp)

/-- An underscore `t` of a page, with the blanks behind it, the rest of the text, and the next
token. -/
structure UnderscoreAt (mode : Mode) (text : Text) (init : List Spelled) (t next : Spelled)
    (u : TokenStream) (before blanks rest : Text) : Prop where
  run : Run (.ofText mode text) (init ++ [t]) u
  source : u.source = .ofText .code (blanks ++ rest)
  parts : text = before ++ '_' :: (blanks ++ rest)
  blank : ∀ c ∈ blanks, isSpace c = true ∧ c ≠ '\n'
  stop : ∀ c ∈ rest.head?, isSpace c = true → c = '\n'
  ends_iff : next.token = .lineEnd .newline ∨ next.token = .endOfInput ↔ ∀ c ∈ rest.head?, c = '\n'
  continues_iff : t.token = .continuation ↔
    (next.token = .lineEnd .newline ∨ next.token = .endOfInput) ∧
      ∀ c ∈ blanks, c = ' ' ∨ c = '\t' ∨ c = '\r'

theorem Run.underscore {mode : Mode} {text : Text} (h : Run (ofText mode text) ts s)
    (ht : s.next = (.ok t, u)) (hunderscore : t.token.IsUnderscore) (hx : u.next = (.ok x, w)) :
    ∃ before blanks rest, UnderscoreAt mode text ts t x u before blanks rest := by
  obtain ⟨hnext, hqueue, hcontinues⟩ :=
    (drawn_of_next ht).underscore h.reaches.queueSound hunderscore
  obtain ⟨covered, hcovers⟩ := h.covers
  obtain ⟨consumed, htext, -⟩ := hcovers.consumed
  obtain ⟨-, -, left, -, -, hu⟩ := Source.lexeme_of_next hnext rfl (by simp)
  obtain ⟨slice, hslice⟩ := Source.takes_of_next hnext
  have hrest : s.source.rest = slice ++ u.source.rest := hslice.rest_eq
  obtain ⟨-, g, mark, rfl, -, rfl⟩ := hslice.of_script rfl (by simp)
  obtain ⟨blanks, rest, rfl, hb, hr⟩ := Source.exists_blanks left
  have hends : x.token.IsLineBreak ↔ ∀ c ∈ rest.head?, c = '\n' := by
    rw [(drawn_of_next hx).lineBreak_iff hqueue, hu]
    exact Source.next_lineBreak_iff hb hr
  refine ⟨consumed ++ g, blanks, rest, h.next ht, hu, ?_, ?_, ?_, hends, ?_⟩
  · rw [htext, hrest, hu]
    simp [Source.ofText]
  · intro c hc
    simpa [Source.isSeparator] using hb c hc
  · intro c hc hspace
    simpa [Source.isSeparator, hspace] using hr c hc
  · rw [hcontinues, hu, Source.atLineEnd_iff hb hr]
    exact and_congr_left' hends.symm

end TokenStream

/-- An underscore that ends its line but for white space is a continuation exactly if this white
space is spaces, tabs and carriage returns. -/
theorem underscore_continues_iff {mode : Mode} {text : Text} {ts init tail : List Spelled}
    {t : Spelled} (h : tokenize mode text = .ok ts) (hts : ts = init ++ t :: tail)
    (ht : t.token = .continuation ∨ t.token = .punctuation '_') :
    ∃ u next before blanks rest, tail.head? = some next ∧
      TokenStream.UnderscoreAt mode text init t next u before blanks rest := by
  obtain ⟨⟨all, hall, -⟩, v, hrun⟩ := TokenStream.run_of_tokenize h
  have hlast : ts.getLast? = some ⟨.endOfInput, []⟩ := by
    rw [hall]
    exact List.getLast?_concat
  rw [hts] at hlast hrun
  obtain ⟨next, tail, rfl⟩ : ∃ next tail', tail = next :: tail' := by
    apply List.exists_cons_of_ne_nil
    rintro rfl
    rw [List.getLast?_concat] at hlast
    cases hlast
    rcases ht with ht | ht
    · cases ht
    · cases ht
  obtain ⟨s, hs, hrun⟩ := hrun.split
  obtain ⟨u, hdraw, hrun⟩ := hrun.uncons
  obtain ⟨w, hnext, -⟩ := hrun.uncons
  obtain ⟨before, blanks, rest, hat⟩ := hs.underscore hdraw ht hnext
  exact ⟨u, next, before, blanks, rest, rfl, hat⟩

/-- A line that is continued past a tab, in a page that ends with an underscore and a form feed. -/
theorem underscore_continues_formFeed :
    let text := "a _\t\r\n_\x0c".toList
    let a : Spelled := ⟨.identifier ['a'], ['a']⟩
    let first : Spelled := ⟨.continuation, ['_']⟩
    let line : Spelled := ⟨.lineEnd .newline, ['\n']⟩
    let second : Spelled := ⟨.punctuation '_', ['_']⟩
    let ts := [a, first, line, second, ⟨.endOfInput, []⟩]
    tokenize .code text = .ok ts ∧
      (∃ before blanks rest, text = before ++ '_' :: (blanks ++ rest) ∧
        (∀ c ∈ rest.head?, c = '\n') ∧ ∀ c ∈ blanks, c = ' ' ∨ c = '\t' ∨ c = '\r') ∧
      ∃ before blanks rest, text = before ++ '_' :: (blanks ++ rest) ∧
        (∀ c ∈ blanks, isSpace c = true ∧ c ≠ '\n') ∧ (∀ c ∈ rest.head?, c = '\n') ∧
        ¬ ∀ c ∈ blanks, c = ' ' ∨ c = '\t' ∨ c = '\r' := by
  intro text a first line second ts
  have h : tokenize .code text = .ok ts := by decide +kernel
  obtain ⟨_, next, before, blanks, rest, hnext, hat⟩ :=
    underscore_continues_iff h (show ts = [a] ++ first :: _ from rfl) (Or.inl rfl)
  obtain ⟨_, next', before', blanks', rest', hnext', hat'⟩ :=
    underscore_continues_iff h (show ts = [a, first, line] ++ second :: _ from rfl) (Or.inr rfl)
  cases hnext
  cases hnext'
  refine ⟨h, ⟨before, blanks, rest, hat.parts, hat.ends_iff.1 (Or.inl rfl),
    (hat.continues_iff.1 rfl).2⟩, before', blanks', rest', hat'.parts, hat'.blank,
    hat'.ends_iff.1 (Or.inr rfl), ?_⟩
  intro hall
  cases hat'.continues_iff.2 ⟨Or.inr rfl, hall⟩

/-- A form feed is white space, but an underscore before it does not continue its line. -/
theorem not_continues_formFeed :
    tokenize .code "_\x0c\n".toList = .ok [⟨.punctuation '_', ['_']⟩,
      ⟨.lineEnd .newline, ['\n']⟩, ⟨.endOfInput, []⟩] := by
  decide +kernel

end ClassicAsp
