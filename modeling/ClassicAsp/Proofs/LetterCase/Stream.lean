import ClassicAsp.Proofs.Delivery
import ClassicAsp.Proofs.Drawing
import ClassicAsp.Proofs.LetterCase.Token

/-! Letter case of streams. A stream in small letters draws what the stream draws, in small letters,
and goes on as the stream goes on; so two pages that differ in case alone are drawn in step. -/
namespace ClassicAsp

theorem Spelled.newlines_lower (t : Spelled) :
    Text.newlines t.lower.written = Text.newlines t.written :=
  Text.newlines_lower t.written

namespace TokenStream

def lower (s : TokenStream) : TokenStream where
  source := s.source.lower
  queue := s.queue.map Spelled.lower
  line := s.line

theorem ofText_lower (mode : Mode) (text : Text) :
    ofText mode (Text.lower text) = (ofText mode text).lower := rfl

def lowerDraw : Except PageError Spelled → Except PageError Spelled :=
  lowerAnswer PageError.lower Spelled.lower

theorem convert_lower (s : TokenStream) {l : Lexeme} (h : l.lower.text = Text.lower l.text) :
    s.lower.convert l.lower = Prod.map lowerDraw lower (s.convert l) := by
  have hnewline : l.lower = .lineEnd .newline ↔ l = .lineEnd .newline := by
    cases l <;> simp [Lexeme.lower]
  have hline : s.lower.source.atLineEnd = s.source.atLineEnd := s.source.atLineEnd_lower
  unfold convert
  rw [hline, Lexeme.token_lower, h]
  cases l.token s.source.atLineEnd with
  | error f => rfl
  | ok t =>
    simp only [lowerAnswer, hnewline]
    rfl

theorem text_lower_of_next {source rest : Source} {l : Lexeme} (h : source.next = (.ok l, rest))
    (hm : l.isMarkup = false) : l.lower.text = Text.lower l.text := by
  by_cases he : l = .endOfInput
  · rw [he]
    rfl
  · obtain ⟨w, hw⟩ := Source.takes_of_next h
    exact Lexeme.text_lower (hw.of_script hm he).1

theorem next_lower (s : TokenStream) : s.lower.next = Prod.map lowerDraw lower s.next := by
  obtain ⟨source, queue, line⟩ := s
  cases queue with
  | cons t q =>
    have hlow := next_cons source.lower t.lower (q.map Spelled.lower) line
    rw [t.newlines_lower] at hlow
    rw [next_cons]
    exact hlow
  | nil =>
    have hsource := source.next_lower
    obtain ⟨r, rest, hs⟩ : ∃ r rest, source.next = (r, rest) := ⟨_, _, rfl⟩
    rw [hs] at hsource
    change (⟨source.lower, [], line⟩ : TokenStream).next = _
    cases r with
    | error e =>
      rw [next, next, dif_neg (by simp), dif_neg (by simp), hsource, hs]
      rfl
    | ok l =>
      by_cases hm : l.isMarkup = true
      · cases l with
        | markup text =>
          obtain ⟨t, q, hq, hn⟩ := next_markup hs line
          obtain ⟨t', q', hq', hn'⟩ := next_markup hsource line
          have hpieces : t' :: q' = t.lower :: q.map Spelled.lower := by
            rw [← hq', Segment.split_lower, ← List.map_cons, ← hq, List.map_map, List.map_map]
            exact List.map_congr_left fun p _ => p.spelled_lower
          obtain ⟨rfl, rfl⟩ := List.cons.inj hpieces
          rw [hn', hn, t.newlines_lower]
          rfl
        | _ => cases hm
      · rw [Bool.not_eq_true] at hm
        have hm' : l.lower.isMarkup = false := by
          cases l with
          | markup => cases hm
          | _ => rfl
        rw [next_script hsource hm', next_script hs hm]
        exact convert_lower ⟨rest, [], line⟩ (text_lower_of_next hs hm)

def skip (n : ℕ) (s : TokenStream) : TokenStream := (fun s => s.next.2)^[n] s

theorem skip_lower (n : ℕ) (s : TokenStream) : s.lower.skip n = (s.skip n).lower := by
  have hstep : Function.Semiconj lower (fun s => s.next.2) fun s => s.next.2 := by
    intro s
    exact congrArg Prod.snd s.next_lower.symm
  exact (hstep.iterate_right n s).symm

/-- Answers that differ in nothing but the case of letters that they keep. -/
inductive AnswersAlike : Except PageError Spelled → Except PageError Spelled → Prop where
  | token {t u : Spelled} (category : t.token.category = u.token.category)
      (same : t.token.keepsLetters = false → t.token = u.token)
      (token : t.token.lower = u.token.lower)
      (written : Text.lower t.written = Text.lower u.written) : AnswersAlike (.ok t) (.ok u)
  | error {e f : PageError} (fault : e.fault.lower = f.fault.lower) (line : e.line = f.line) :
      AnswersAlike (.error e) (.error f)

/-- Two streams on the same line and the same side of the delimiters, which answer the next draw
alike. -/
structure InStep (s u : TokenStream) : Prop where
  mode : s.source.mode = u.source.mode
  ended : s.source.ended = u.source.ended
  left : s.source.rest.length = u.source.rest.length
  queued : s.queue.map (·.written.length) = u.queue.map (·.written.length)
  line : s.line = u.line
  answers : AnswersAlike s.next.1 u.next.1

theorem answersAlike_of_lower {r q : Except PageError Spelled} (h : lowerDraw r = lowerDraw q) :
    AnswersAlike r q := by
  cases r with
  | ok t =>
    cases q with
    | ok u =>
      have hlow : t.lower = u.lower := Except.ok.inj h
      have htoken : t.token.lower = u.token.lower := congrArg Spelled.token hlow
      refine .token ?_ ?_ htoken (congrArg Spelled.written hlow)
      · rw [← Token.category_lower, htoken, Token.category_lower]
      · intro hkeeps
        rw [Token.lower_eq_self hkeeps] at htoken
        exact ((Token.lower_eq_iff hkeeps).1 htoken.symm).symm
    | error f => cases h
  | error e =>
    cases q with
    | ok u => cases h
    | error f =>
      have hlow : e.lower = f.lower := Except.error.inj h
      have hfault : e.lower.fault = f.lower.fault := congrArg PageError.fault hlow
      have hline : e.lower.line = f.lower.line := congrArg PageError.line hlow
      exact .error hfault hline

theorem inStep_of_lower {s u : TokenStream} (h : s.lower = u.lower) : s.InStep u := by
  have hlength (q : List Spelled) :
      (q.map Spelled.lower).map (·.written.length) = q.map (·.written.length) := by
    rw [List.map_map]
    exact List.map_congr_left fun t _ => Text.length_lower t.written
  constructor
  · exact congrArg (·.source.mode) h
  · exact congrArg (·.source.ended) h
  · have hleft := congrArg (·.source.rest.length) h
    exact (Text.length_lower _).symm.trans (hleft.trans (Text.length_lower _))
  · have hqueue := congrArg (·.queue.map (·.written.length)) h
    exact (hlength _).symm.trans (hqueue.trans (hlength _))
  · exact congrArg (·.line) h
  · apply answersAlike_of_lower
    have hs := congrArg Prod.fst s.next_lower
    have hu := congrArg Prod.fst u.next_lower
    rw [h] at hs
    exact hs.symm.trans hu

/-- Pages that differ in case alone are drawn in step, draw by draw and past every fault. -/
theorem inStep_skip {text text' : Text} (h : Text.lower text = Text.lower text') (mode : Mode)
    (n : ℕ) : ((ofText mode text).skip n).InStep ((ofText mode text').skip n) := by
  apply inStep_of_lower
  rw [← skip_lower, ← skip_lower, ← ofText_lower, ← ofText_lower, h]

end TokenStream

/-- A token that keeps what it was written as, and nothing else that has letters. -/
def Spelled.Verbatim (t : Spelled) : Prop := t.token.respell t.written = t.token

theorem Spelled.Verbatim.token_eq {t u : Spelled} (ht : t.Verbatim) (hu : u.Verbatim)
    (h : t.lower = u.lower) (hw : t.written = u.written) : t.token = u.token := by
  have htoken : t.token.lower = u.token.lower := congrArg Spelled.token h
  calc t.token = t.token.respell t.written := ht.symm
    _ = t.token.lower.respell t.written := (Token.respell_lower _ _).symm
    _ = u.token.respell u.written := by rw [htoken, hw, Token.respell_lower]
    _ = u.token := hu

namespace Segment

theorem verbatim_splitFrom (read s : Text) : ∀ p ∈ splitFrom read s, p.spelled.Verbatim := by
  have hpending : ∀ read, ∀ p ∈ pending read, p.spelled.Verbatim := by
    intro read p hp
    unfold pending at hp
    split at hp
    · cases hp
    · rw [List.mem_singleton.1 hp]
      rfl
  fun_induction splitFrom read s with
  | case1 read s d rest h _ ih =>
    intro p hp
    rcases List.mem_append.1 hp with hp | hp
    · exact hpending read p hp
    rcases List.mem_cons.1 hp with rfl | hp
    · exact congrArg (fun path => Token.directive ⟨d.kind, path⟩) (Directive.quoted_of_read? h)
    · exact ih p hp
  | case2 read => exact hpending read
  | case3 read c s h ih => exact ih

theorem verbatim_split (s : Text) :
    ∀ t ∈ (split s).map Segment.spelled, t.Verbatim := by
  intro t ht
  obtain ⟨p, hp, rfl⟩ := List.mem_map.1 ht
  unfold split at hp
  split at hp
  · rw [List.mem_singleton.1 hp]
    rfl
  · exact verbatim_splitFrom [] s p hp

end Segment

theorem Lexeme.verbatim {l : Lexeme} {t : Token} {atLineEnd : Bool}
    (h : l.token atLineEnd = .ok t) : Spelled.Verbatim ⟨t, l.text⟩ := by
  cases Gives.of_token h <;> rfl

namespace TokenStream

/-- A draw gives a token that is found in what it was written as, and queues only such tokens. -/
theorem Drawn.verbatim {s u : TokenStream} {t : Spelled} (h : Drawn s t u)
    (hs : ∀ x ∈ s.queue, x.Verbatim) : t.Verbatim ∧ ∀ x ∈ u.queue, x.Verbatim := by
  cases h with
  | queued source t q line => exact List.forall_mem_cons.1 hs
  | @markup _ _ text _ _ _ hq line =>
    have hpieces := Segment.verbatim_split text
    rw [hq] at hpieces
    exact List.forall_mem_cons.1 hpieces
  | script _ _ ht line => exact ⟨Lexeme.verbatim ht, by simp⟩

end TokenStream

namespace Delivers

variable {s : TokenStream} {ts : List (Spelled × ℕ)} {r : Option PageError}

theorem verbatim (h : Delivers s ts r) (hs : ∀ t ∈ s.queue, t.Verbatim) :
    ∀ p ∈ ts, p.1.Verbatim := by
  induction h with
  | ended | failed => simp
  | draw hn _ _ ih =>
    obtain ⟨ht, hu⟩ := (TokenStream.drawn_of_next hn).verbatim hs
    exact List.forall_mem_cons.2 ⟨ht, ih hu⟩

theorem lower (h : Delivers s ts r) :
    Delivers s.lower (ts.map (Prod.map Spelled.lower id)) (r.map PageError.lower) := by
  induction h with
  | @ended s t hn ht =>
    refine .ended (t := t.lower) ?_ ?_
    · rw [s.next_lower, Prod.map_fst, hn]
      rfl
    · rw [Spelled.lower, ht]
      rfl
  | @failed s e hn =>
    refine .failed ?_
    rw [s.next_lower, Prod.map_fst, hn]
    rfl
  | @draw s u t ts r hn ht _ ih =>
    have hnext : s.lower.next = (.ok t.lower, u.lower) := by
      rw [s.next_lower, hn]
      rfl
    have hend : t.lower.token ≠ .endOfInput := mt (Token.lower_eq_iff rfl).1 ht
    exact .draw (u := u.lower) hnext hend ih

end Delivers

theorem tokenize_lower (mode : Mode) (text : Text) :
    tokenize mode (Text.lower text) =
      lowerAnswer PageError.lower (List.map Spelled.lower) (tokenize mode text) := by
  obtain ⟨ts, r, h⟩ := exists_delivers (.ofText mode text)
  have hlow := h.lower
  rw [← TokenStream.ofText_lower] at hlow
  cases r with
  | none =>
    rw [h.tokenize_ok, Delivers.tokenize_ok hlow]
    simp only [lowerAnswer, List.map_append, List.map_map]
    rfl
  | some e =>
    rw [h.tokenize_error, Delivers.tokenize_error hlow]
    rfl

theorem verbatim_of_tokenize {mode : Mode} {text : Text} {us : List Spelled}
    (h : tokenize mode text = .ok us) : ∀ t ∈ us, t.Verbatim := by
  obtain ⟨ts, hd, rfl⟩ := delivers_of_tokenize h
  have hts := hd.verbatim (by simp [TokenStream.ofText])
  intro t ht
  rcases List.mem_append.1 ht with ht | ht
  · obtain ⟨p, hp, rfl⟩ := List.mem_map.1 ht
    exact hts p hp
  · rw [List.mem_singleton.1 ht]
    rfl

end ClassicAsp
