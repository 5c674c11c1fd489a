import ClassicAsp.Proofs.Drawing

/-! Line numbers. A stream counts a newline when it draws the token it belongs to, while the source
runs ahead over the rest of the markup. The count stays exact because the pieces still queued are
what the source is ahead by, and because strings, dates and comments hold no newline. -/
namespace ClassicAsp

open Text (newlines)

namespace Lexeme

theorem newline_not_mem_writtenAs {l : Lexeme} {w : Text} (hl : l.IsRead) (hw : l.WrittenAs w)
    (hn : l ≠ .lineEnd .newline) : '\n' ∉ w := by
  cases l with
  | lineEnd e =>
    cases e with
    | newline => exact absurd rfl hn
    | separator =>
      rw [hw]
      decide
  | identifier n =>
    obtain rfl : w = n := hw
    intro hm
    have hname := isName_chars hl.1 '\n' hm
    exact absurd hname (by decide)
  | operator o n =>
    obtain rfl : w = n := hw
    have hsame : Text.sameWord o.spelling w = true :=
      @List.find?_some _ (fun p : Operator => Text.sameWord p.spelling w) _ _ hl
    exact Text.newline_not_mem_sameWord hsame (by cases o <;> decide)
  | integer n | float n =>
    obtain rfl : w = n := hw
    exact hl.2
  | string t =>
    obtain rfl : w = Text.quote t := hw
    exact Text.newline_not_mem_quote hl.noNewline
  | date t =>
    obtain rfl : w = '#' :: (t ++ ['#']) := hw
    have ht : '\n' ∉ t := fun hm => absurd (hl '\n' hm) (by decide)
    simp [ht]
  | comment t =>
    obtain ⟨mark, body, rfl, hmark, hline, -, -⟩ := hw
    refine List.not_mem_append ?_ hline
    rcases hmark with rfl | ⟨v, b, rfl, hv, hb⟩
    · decide
    · refine List.not_mem_append (Text.newline_not_mem_sameWord hv (by decide)) ?_
      rcases hb with rfl | rfl
      · decide
      · decide
  | punctuation c =>
    obtain rfl : w = [c] := hw
    intro hm
    obtain rfl := List.mem_singleton.1 hm
    have hc : Source.isPunctuation '\n' = true := hl
    exact absurd hc (by decide)
  | markup | endOfInput => exact hl.elim

theorem newlines_writtenAs {l : Lexeme} {w : Text} (hl : l.IsRead) (hw : l.WrittenAs w) :
    newlines w = if l = .lineEnd .newline then 1 else 0 := by
  by_cases hn : l = .lineEnd .newline
  · subst hn
    rw [hw]
    rfl
  · rw [if_neg hn]
    exact Text.newlines_eq_zero.2 (newline_not_mem_writtenAs hl hw hn)

end Lexeme

/-- How a token stands in the source: markup as it is, script as its lexeme is written, and the end
as nothing. -/
inductive Spelled.Shows : Spelled → Text → Prop where
  | piece (p : Segment) : Shows p.spelled p.written
  | script {l : Lexeme} {t atLineEnd w} (hl : l.token atLineEnd = .ok t) (hw : l.WrittenAs w) :
      Shows ⟨t, l.text⟩ w
  | ended : Shows ⟨.endOfInput, []⟩ []

def Fault.Begins (f : Fault) (s : Text) : Prop :=
  match f with
  | .scan e => ∃ c ∈ s.head?, Source.Refuses e c
  | .invalidInteger w | .invalidFloat w => w <+: s

namespace TokenStream

def queued (s : TokenStream) : Text := s.queue.flatMap Spelled.written

/-- A stream has drawn the first part of a text. Before the unread rest there may be the delimiter
that opened code. -/
structure Covers (text covered : Text) (s : TokenStream) : Prop where
  text_eq : ∃ d, (d = [] ∨ d = ['<', '%']) ∧ text = covered ++ (s.queued ++ (d ++ s.source.rest))
  line_eq : s.line = 1 + newlines covered
  pieces : ∃ ps : List Segment, s.queue = ps.map Segment.spelled
  ended : s.source.ended = true → s.source.rest = []

theorem covers_ofText (mode : Mode) (text : Text) : Covers text [] (ofText mode text) where
  text_eq := ⟨[], Or.inl rfl, rfl⟩
  line_eq := rfl
  pieces := ⟨[], rfl⟩
  ended := by simp [ofText, Source.ofText]

theorem newlines_delimiter {d : Text} (h : d = [] ∨ d = ['<', '%']) : '\n' ∉ d := by
  rcases h with rfl | rfl
  · decide
  · decide

variable {text covered : Text} {s u : TokenStream} {t : Spelled}

theorem line_append {gap : Text} {line : ℕ} (hline : line = 1 + newlines covered)
    (hgap : '\n' ∉ gap) (slice : Text) :
    line + newlines slice = 1 + newlines (covered ++ (gap ++ slice)) := by
  simp [Text.newlines_eq_zero.2 hgap, hline, Nat.add_assoc]

/-- A draw covers what its token stands for, behind a gap without newlines. -/
theorem Covers.next (hs : Covers text covered s) (h : s.next = (.ok t, u)) :
    ∃ gap slice, '\n' ∉ gap ∧ t.Shows slice ∧ Covers text (covered ++ (gap ++ slice)) u ∧
      (t.token = .endOfInput → u.queue = [] ∧ u.source.rest = []) := by
  obtain ⟨⟨d, hd, htext⟩, hline, ⟨ps, hps⟩, hended⟩ := hs
  cases drawn_of_next h with
  | queued source t q line =>
    cases ps with
    | nil => cases hps
    | cons p ps =>
      obtain ⟨rfl, rfl⟩ := List.cons.inj hps
      refine ⟨[], p.written, by simp, .piece p, ⟨⟨d, hd, ?_⟩,
        line_append hline (by simp) p.written, ⟨ps, rfl⟩, hended⟩, fun he => ?_⟩
      · rw [htext]
        simp [queued, Segment.spelled]
      · exact absurd he (token_ne_end p)
  | @markup source rest chunk t q hn hq line =>
    -- the source is ahead by the pieces of the chunk behind the first
    obtain ⟨w, hw⟩ := Source.takes_of_next hn
    obtain ⟨-, g, d', rfl, hg, hd'⟩ := hw.of_markup
    obtain ⟨p, ps', hsplit⟩ := List.exists_cons_of_ne_nil (Segment.split_ne_nil chunk)
    rw [hsplit] at hq
    obtain ⟨rfl, rfl⟩ := List.cons.inj hq
    have hwritten := Segment.written_split chunk
    rw [hsplit] at hwritten
    have hgap := List.not_mem_append (newlines_delimiter hd) hg
    refine ⟨d ++ g, p.written, hgap, .piece p, ⟨⟨d', hd', ?_⟩, line_append hline hgap p.written,
      ⟨ps', rfl⟩, hw.rest_of_ended hended⟩, fun he => ?_⟩
    · have hrest : source.rest = _ := hw.rest_eq
      rw [htext, hrest, ← hwritten]
      simp [queued, Segment.spelled, List.flatMap_map]
    · exact absurd he (token_ne_end p)
  | @script source rest l t hn hm ht line =>
    obtain ⟨w, hw⟩ := Source.takes_of_next hn
    have hrest : source.rest = w ++ rest.rest := hw.rest_eq
    by_cases he : l = .endOfInput
    · subst he
      cases ht
      obtain ⟨hg, hend⟩ := hw.of_end
      have hnil : rest.rest = [] := hw.rest_of_ended hended hend
      have hgap := List.not_mem_append (newlines_delimiter hd) hg
      refine ⟨d ++ w, [], hgap, .ended, ⟨⟨[], Or.inl rfl, ?_⟩, line_append hline hgap [],
        ⟨[], rfl⟩, fun _ => hnil⟩, fun _ => ⟨rfl, hnil⟩⟩
      rw [htext, hrest]
      simp [queued]
    · obtain ⟨hl, g, v, rfl, hg, hv⟩ := hw.of_script hm he
      have hgap := List.not_mem_append (newlines_delimiter hd)
        (Source.newline_not_mem_separators hg)
      refine ⟨d ++ g, v, hgap, .script ht hv, ⟨⟨[], Or.inl rfl, ?_⟩, ?_, ⟨[], rfl⟩,
        hw.rest_of_ended hended⟩, fun hend => ?_⟩
      · rw [htext, hrest]
        simp [queued]
      · rw [← line_append hline hgap v, Lexeme.newlines_writtenAs hl hv]
      · exact absurd hend (Lexeme.token_ne_end he ht)

theorem Run.covers {mode : Mode} {ts : List Spelled} (h : Run (ofText mode text) ts s) :
    ∃ covered, Covers text covered s := by
  induction h with
  | start => exact ⟨[], covers_ofText mode text⟩
  | next _ h ih =>
    obtain ⟨covered, hc⟩ := ih
    obtain ⟨gap, slice, -, -, hc, -⟩ := hc.next h
    exact ⟨_, hc⟩

/-- What is queued is what the source is ahead of the count by. -/
theorem Covers.consumed (hs : Covers text covered s) :
    ∃ consumed, text = consumed ++ s.source.rest ∧
      s.line + newlines s.queued = 1 + newlines consumed := by
  obtain ⟨d, hd, htext⟩ := hs.text_eq
  refine ⟨covered ++ (s.queued ++ d), by simp [htext], ?_⟩
  simp [Text.newlines_eq_zero.2 (newlines_delimiter hd), hs.line_eq]
  omega

theorem Covers.failed (hs : Covers text covered s) {e : PageError} (h : s.next = (.error e, u)) :
    ∃ g literal, (∀ c ∈ g, Source.isSeparator c = true) ∧ s.source.rest = g ++ literal ∧
      e.fault.Begins literal ∧
      ∃ consumed, text = consumed ++ (g ++ literal) ∧ e.line = 1 + newlines (consumed ++ g) := by
  obtain ⟨consumed, htext, hline⟩ := hs.consumed
  obtain ⟨g, literal, hg, hrest, hbegins, hqueue, heline⟩ : ∃ g literal,
      (∀ c ∈ g, Source.isSeparator c = true) ∧ s.source.rest = g ++ literal ∧
        e.fault.Begins literal ∧ s.queue = [] ∧ e.line = s.line := by
    cases failed_of_next h with
    | scan hn line =>
      obtain ⟨g, c, t, hrest, hg, hc⟩ := Source.error_of_next hn
      exact ⟨g, c :: t, hg, hrest, ⟨c, rfl, hc⟩, rfl, rfl⟩
    | @number source rest l f hn hm ht line =>
      obtain ⟨w, hw⟩ := Source.takes_of_next hn
      have hrest : source.rest = w ++ rest.rest := hw.rest_eq
      obtain ⟨n, hf⟩ := Lexeme.token_error ht
      have he : l ≠ .endOfInput := by
        rintro rfl
        cases ht
      obtain ⟨-, g, v, rfl, hg, hv⟩ := hw.of_script hm he
      refine ⟨g, v ++ rest.rest, hg, by rw [hrest, List.append_assoc], ?_, rfl, rfl⟩
      rcases hf with ⟨rfl, rfl⟩ | ⟨rfl, rfl⟩
      · obtain rfl : v = n := hv
        exact List.prefix_append v _
      · obtain rfl : v = n := hv
        exact List.prefix_append v _
  have hzero : newlines s.queued = 0 := by
    rw [queued, hqueue]
    rfl
  refine ⟨g, literal, hg, hrest, hbegins, consumed, by rw [htext, hrest], ?_⟩
  simp [Text.newlines_eq_zero.2 (Source.newline_not_mem_separators hg), heline]
  omega

/-- The line and what is queued account for all that was read, and a fault has the line its literal
starts on. -/
theorem Run.line_exact {mode : Mode} {ts : List Spelled} (h : Run (ofText mode text) ts s) :
    (∃ consumed, text = consumed ++ s.source.rest ∧
      s.line + newlines s.queued = 1 + newlines consumed) ∧
    (∀ t ∈ ts.getLast?, ∃ before slice d, (d = [] ∨ d = ['<', '%']) ∧
      text = before ++ slice ++ (s.queued ++ (d ++ s.source.rest)) ∧ t.Shows slice ∧
      s.line = 1 + newlines (before ++ slice)) ∧
    (∀ t ∈ ts.getLast?, t.token = .endOfInput → s.line = 1 + newlines text) ∧
    ∀ e u, s.next = (.error e, u) → ∃ g literal, (∀ c ∈ g, Source.isSeparator c = true) ∧
      s.source.rest = g ++ literal ∧ e.fault.Begins literal ∧
      ∃ consumed, text = consumed ++ (g ++ literal) ∧ e.line = 1 + newlines (consumed ++ g) := by
  obtain ⟨covered, hs⟩ := h.covers
  refine ⟨hs.consumed, ?_, ?_, fun e u he => hs.failed he⟩
  · intro t ht
    cases h with
    | start => cases ht
    | next hr hn =>
      rw [List.getLast?_concat] at ht
      cases ht
      obtain ⟨covered, hc⟩ := hr.covers
      obtain ⟨gap, slice, -, hslice, hc, -⟩ := hc.next hn
      obtain ⟨d, hd, htext⟩ := hc.text_eq
      have hsame : covered ++ gap ++ slice = covered ++ (gap ++ slice) := List.append_assoc _ _ _
      refine ⟨covered ++ gap, slice, d, hd, ?_, hslice, ?_⟩
      · rw [hsame]
        exact htext
      · rw [hsame]
        exact hc.line_eq
  · intro t ht he
    cases h with
    | start => cases ht
    | next hr hn =>
      rw [List.getLast?_concat] at ht
      cases ht
      obtain ⟨covered, hc⟩ := hr.covers
      obtain ⟨gap, slice, -, -, hc, hend⟩ := hc.next hn
      obtain ⟨hqueue, hrest⟩ := hend he
      obtain ⟨d, hd, htext⟩ := hc.text_eq
      have htail : s.queued ++ (d ++ s.source.rest) = d := by
        rw [queued, hqueue, hrest]
        simp
      rw [htail] at htext
      simp [hc.line_eq, htext, Text.newlines_eq_zero.2 (newlines_delimiter hd)]

/-- A page whose third line starts a string that does not end. -/
theorem line_exact_unterminated :
    let text := "a\n<%\n \"b".toList
    let ts := [⟨.markup "a\n".toList, "a\n".toList⟩, ⟨.lineEnd .newline, ['\n']⟩]
    let s : TokenStream := ⟨.ofText .code " \"b".toList, [], 3⟩
    let e : PageError := ⟨.scan .unterminatedString, 3⟩
    Run (ofText .markup text) ts s ∧ s.next.1 = .error e ∧
      ∃ g literal, (∀ c ∈ g, Source.isSeparator c = true) ∧ s.source.rest = g ++ literal ∧
        e.fault.Begins literal ∧
        ∃ consumed, text = consumed ++ (g ++ literal) ∧ e.line = 1 + newlines (consumed ++ g) := by
  intro text ts s e
  have hmarkup : (ofText .markup text).next =
      (.ok ⟨.markup "a\n".toList, "a\n".toList⟩, ⟨.ofText .code "\n \"b".toList, [], 2⟩) := by
    decide +kernel
  have h : Run (ofText .markup text) ts s :=
    @Run.next _ [_] _ _ _ (@Run.next _ [] _ _ _ .start hmarkup) rfl
  have he : s.next = (.error e, s.next.2) := rfl
  exact ⟨h, congrArg Prod.fst he, h.line_exact.2.2.2 e s.next.2 he⟩

end TokenStream

end ClassicAsp
