import ClassicAsp.Proofs.Lexeme.Slice

/-! Quoting a text and reading a string undo each other. A quoted text is read back unless a line
break or a delimiter stands in it, which is what the string is then refused for; and a string that
is read was written as its text quoted. -/
namespace ClassicAsp.Source

open Lexeme (IsString SpoiledBy isString_or_spoiled)

theorem next_quote_eq_iff {t rest : Text} (hr : rest.head? ≠ some '"') :
    (ofText .code (Text.quote t ++ rest)).next = (.ok (.string t), ofText .code rest) ↔
      IsString t := by
  rw [next_quote]
  constructor
  · intro h
    obtain ⟨u, hu, ht⟩ := map_eq_ok (congrArg Prod.fst h)
    cases ht
    exact (Lexeme.readString_spec hu).1
  · intro ht
    rw [Lexeme.readString_quote ht hr]
    rfl

theorem next_quote_error_iff {t rest : Text} (hr : rest.head? ≠ some '"') {e : ScanError} :
    (ofText .code (Text.quote t ++ rest)).next.1 = .error e ↔ SpoiledBy t e := by
  constructor
  · intro h
    rcases isString_or_spoiled t with ht | ⟨f, hf⟩
    · rw [(next_quote_eq_iff hr).2 ht] at h
      cases h
    · rw [next_quote, Lexeme.readString_spoiled hf] at h
      cases h
      exact hf
  · intro h
    rw [next_quote, Lexeme.readString_spoiled h]
    rfl

/-- A string is read from its text quoted, behind blanks, and from nothing else. -/
theorem next_eq_string_iff {s u : Source} {t : Text} :
    s.next = (.ok (.string t), u) ↔
      ∃ g rest, s = ofText .code (g ++ (Text.quote t ++ rest)) ∧ u = ofText .code rest ∧
        (∀ c ∈ g, isSeparator c = true) ∧ IsString t ∧ rest.head? ≠ some '"' := by
  constructor
  · intro h
    obtain ⟨w, hw⟩ := takes_of_next h
    cases hw with
    | @script g w rest _ hg hl hw =>
      obtain rfl : w = Text.quote t := hw
      -- the reader goes on behind a quote that another one follows
      have hend : rest.head? ≠ some '"' := by
        rw [next_congr (skip_append hg _), next_quote] at h
        obtain ⟨v, hv, -⟩ := map_eq_ok (congrArg Prod.fst h)
        have hrest : (Lexeme.readString (Text.doubleQuotes t ++ '"' :: rest)).2 = rest :=
          congrArg Source.rest (congrArg Prod.snd h)
        rw [← hrest]
        exact Lexeme.head_of_readString hv
      exact ⟨g, rest, rfl, rfl, hg, hl, hend⟩
  · rintro ⟨g, rest, rfl, rfl, hg, ht, hr⟩
    rw [next_congr (skip_append hg _)]
    exact (next_quote_eq_iff hr).2 ht

/-- A quoted text is read back exactly if it is what a string may hold, and is refused for the first
place that spoils it otherwise. -/
theorem quote_next_inverse (t : Text) :
    (∀ rest : Text, rest.head? ≠ some '"' →
      ((ofText .code (Text.quote t ++ rest)).next = (.ok (.string t), ofText .code rest) ↔
        '\r' ∉ t ∧ '\n' ∉ t ∧ Text.Lacks '%' '>' t) ∧
      (¬ ('\r' ∉ t ∧ '\n' ∉ t ∧ Text.Lacks '%' '>' t) →
        ∃ e, (ofText .code (Text.quote t ++ rest)).next.1 = .error e) ∧
      ∀ e, (ofText .code (Text.quote t ++ rest)).next.1 = .error e ↔ SpoiledBy t e) ∧
    ∀ s u : Source, s.next = (.ok (.string t), u) ↔
      ∃ g rest, s = ofText .code (g ++ (Text.quote t ++ rest)) ∧ u = ofText .code rest ∧
        (∀ c ∈ g, isSeparator c = true) ∧ IsString t ∧ rest.head? ≠ some '"' := by
  have hparts : IsString t ↔ '\r' ∉ t ∧ '\n' ∉ t ∧ Text.Lacks '%' '>' t := by
    constructor
    · intro h
      exact ⟨h.noReturn, h.noNewline, h.noDelimiter⟩
    · rintro ⟨hr, hn, hd⟩
      exact ⟨hr, hn, hd⟩
  refine ⟨?_, fun s u => next_eq_string_iff⟩
  intro rest hr
  refine ⟨(next_quote_eq_iff hr).trans hparts, ?_, fun e => next_quote_error_iff hr⟩
  intro hnot
  obtain ⟨e, he⟩ := (isString_or_spoiled t).resolve_left fun ht => hnot (hparts.1 ht)
  exact ⟨e, (next_quote_error_iff hr).2 he⟩

/-- A quote parts a percent sign from what would complete the delimiter; of a delimiter and a line
break, the first counts. -/
theorem quote_next_inverse_mixed :
    (ofText .code "\"a%\"\"> b\" & c".toList).next =
        (.ok (.string "a%\"> b".toList), ofText .code " & c".toList) ∧
      (ofText .code "\"a%>\n\"".toList).next.1 = .error .delimiterInString ∧
      (ofText .code "\"a\r%>\"".toList).next.1 = .error .unterminatedString := by
  refine ⟨?_, ?_, ?_⟩
  · exact (((quote_next_inverse "a%\"> b".toList).1 " & c".toList (by decide)).1).2 (by decide)
  · refine (((quote_next_inverse "a%>\n".toList).1 [] (by decide)).2.2 _).2 ?_
    exact .delimiter (u := ['a']) ⟨by decide, by decide, by decide⟩
  · refine (((quote_next_inverse "a\r%>".toList).1 [] (by decide)).2.2 _).2 ?_
    exact .lineBreak (u := ['a']) ⟨by decide, by decide, by decide⟩ (Or.inl rfl)

end ClassicAsp.Source
