import ClassicAsp.Proofs.Lexeme.Slice

/-! What a draw can do: give a piece of markup that is queued, the first piece of a markup text, or
the token of a lexeme of script, or fail at a lexeme of script. -/
namespace ClassicAsp

open Text (newlines)

namespace Source

def Refuses (e : ScanError) (c : Char) : Prop :=
  match e with
  | .unterminatedString | .delimiterInString => c = '"'
  | .unterminatedDate | .delimiterInDate | .invalidDateChar _ => c = '#'

theorem readString_error {s : Text} {e : ScanError} (h : (Lexeme.readString s).1 = .error e) :
    Refuses e '"' := by
  fun_induction Lexeme.readString s with
  | case1 =>
    cases h
    rfl
  | case2 s r rest hr ih =>
    cases r with
    | error f =>
      cases h
      exact ih (by rw [hr])
    | ok => cases h
  | case3 => cases h
  | case4 | case5 =>
    cases h
    rfl
  | case6 c s _ _ _ _ r rest hr ih =>
    cases r with
    | error f =>
      cases h
      exact ih (by rw [hr])
    | ok => cases h

theorem readDate_error {s : Text} {e : ScanError} (h : (Lexeme.readDate s).1 = .error e) :
    Refuses e '#' := by
  fun_induction Lexeme.readDate s with
  | case1 =>
    cases h
    rfl
  | case2 => cases h
  | case3 | case4 | case6 =>
    cases h
    rfl
  | case5 c s _ _ _ _ r rest hr ih =>
    cases r with
    | error f =>
      cases h
      exact ih (by rw [hr])
    | ok => cases h

theorem map_eq_error {ε α β : Type} {f : α → β} {r : Except ε α} {e : ε}
    (h : r.map f = .error e) : r = .error e := by
  cases r with
  | error =>
    cases h
    rfl
  | ok => cases h

/-- Only strings and dates are refused by the source, each by its reader. -/
theorem lexeme_error {c : Char} {s : Text} {e : ScanError} (h : (lexeme c s).1 = .error e) :
    (c = '"' ∧ (Lexeme.readString s).1 = .error e) ∨
      (c = '#' ∧ (Lexeme.readDate s).1 = .error e) := by
  have hform := form_lexeme c s
  rw [h] at hform
  cases hform with
  | badString hc hr => exact Or.inl ⟨hc, congrArg Prod.fst hr⟩
  | badDate hc hr => exact Or.inr ⟨hc, congrArg Prod.fst hr⟩

theorem lexeme_of_error {s next : Source} {e : ScanError} (h : s.next = (.error e, next)) :
    ∃ g c t, s.rest = g ++ c :: t ∧ (∀ a ∈ g, isSeparator a = true) ∧
      (lexeme c t).1 = .error e := by
  cases call_of_next h with
  | @script g c t _ _ hg _ hlex => exact ⟨g, c, t, rfl, hg, congrArg Prod.fst hlex⟩

theorem error_of_next {s next : Source} {e : ScanError} (h : s.next = (.error e, next)) :
    ∃ g c t, s.rest = g ++ c :: t ∧ (∀ a ∈ g, isSeparator a = true) ∧ Refuses e c := by
  obtain ⟨g, c, t, hrest, hg, hl⟩ := lexeme_of_error h
  refine ⟨g, c, t, hrest, hg, ?_⟩
  rcases lexeme_error hl with ⟨rfl, hr⟩ | ⟨rfl, hr⟩
  · exact readString_error hr
  · exact readDate_error hr

end Source

namespace Lexeme

theorem token_error {l : Lexeme} {f : Fault} {atLineEnd : Bool} (h : l.token atLineEnd = .error f) :
    ∃ w, (l = .integer w ∧ f = .invalidInteger w) ∨ (l = .float w ∧ f = .invalidFloat w) := by
  cases l with
  | integer w =>
    have hw := Source.map_eq_error h
    unfold integer? at hw
    split at hw
    · cases hw
    · cases hw
      exact ⟨w, Or.inl ⟨rfl, rfl⟩⟩
  | float w =>
    have hw := Source.map_eq_error h
    unfold float? at hw
    split at hw
    · cases hw
    · cases hw
      exact ⟨w, Or.inr ⟨rfl, rfl⟩⟩
  | _ => cases h

end Lexeme

namespace TokenStream

variable {source rest : Source} {s u : TokenStream}

inductive Drawn : TokenStream → Spelled → TokenStream → Prop where
  | queued (source t q line) :
      Drawn ⟨source, t :: q, line⟩ t ⟨source, q, line + newlines t.written⟩
  | markup {source rest text t q} (h : source.next = (.ok (.markup text), rest))
      (hq : (Segment.split text).map Segment.spelled = t :: q) (line) :
      Drawn ⟨source, [], line⟩ t ⟨rest, q, line + newlines t.written⟩
  | script {source rest l t} (h : source.next = (.ok l, rest)) (hm : l.isMarkup = false)
      (ht : l.token rest.atLineEnd = .ok t) (line) :
      Drawn ⟨source, [], line⟩ ⟨t, l.text⟩
        ⟨rest, [], line + if l = .lineEnd .newline then 1 else 0⟩

inductive Failed : TokenStream → PageError → TokenStream → Prop where
  | scan {source rest e} (h : source.next = (.error e, rest)) (line) :
      Failed ⟨source, [], line⟩ ⟨.scan e, line⟩ ⟨rest, [], line⟩
  | number {source rest l f} (h : source.next = (.ok l, rest)) (hm : l.isMarkup = false)
      (ht : l.token rest.atLineEnd = .error f) (line) :
      Failed ⟨source, [], line⟩ ⟨f, line⟩ ⟨rest, [], line⟩

theorem next_cases (s : TokenStream) :
    (∃ t u, s.next = (.ok t, u) ∧ Drawn s t u) ∨ ∃ e u, s.next = (.error e, u) ∧ Failed s e u := by
  obtain ⟨source, queue, line⟩ := s
  cases queue with
  | cons t q => exact Or.inl ⟨t, _, next_cons source t q line, .queued source t q line⟩
  | nil =>
    obtain ⟨r, rest, hs⟩ : ∃ r rest, source.next = (r, rest) := ⟨_, _, rfl⟩
    cases r with
    | error e =>
      refine Or.inr ⟨⟨.scan e, line⟩, ⟨rest, [], line⟩, ?_, .scan hs line⟩
      rw [next, dif_neg (by simp)]
      simp only [hs]
    | ok l =>
      by_cases hm : l.isMarkup = true
      · cases l with
        | markup text =>
          obtain ⟨t, q, hq, hn⟩ := next_markup hs line
          exact Or.inl ⟨t, _, hn, .markup hs hq line⟩
        | _ => cases hm
      · rw [Bool.not_eq_true] at hm
        rw [next_script hs hm]
        cases ht : l.token rest.atLineEnd with
        | ok t =>
          refine Or.inl ⟨⟨t, l.text⟩, _, ?_, .script hs hm ht line⟩
          rw [convert, ht]
        | error f =>
          refine Or.inr ⟨⟨f, line⟩, ⟨rest, [], line⟩, ?_, .number hs hm ht line⟩
          rw [convert, ht]

theorem drawn_of_next {t : Spelled} (h : s.next = (.ok t, u)) : Drawn s t u := by
  rcases next_cases s with ⟨x, v, hn, hd⟩ | ⟨e, v, hn, -⟩
  · rw [hn] at h
    cases h
    exact hd
  · rw [hn] at h
    cases h

theorem failed_of_next {e : PageError} (h : s.next = (.error e, u)) : Failed s e u := by
  rcases next_cases s with ⟨x, v, hn, -⟩ | ⟨f, v, hn, hf⟩
  · rw [hn] at h
    cases h
  · rw [hn] at h
    cases h
    exact hf

/-- The tokens of draws that succeed, one after the other, and the stream that they leave. -/
inductive Run (start : TokenStream) : List Spelled → TokenStream → Prop where
  | start : Run start [] start
  | next {ts s t u} (hr : Run start ts s) (h : s.next = (.ok t, u)) : Run start (ts ++ [t]) u

end TokenStream

end ClassicAsp
