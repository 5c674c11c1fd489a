import ClassicAsp.Proofs.Drawing
import ClassicAsp.Proofs.Stream

/-! Well-formed streams. What the tokens of a page hold, and what follows comments and continued
lines, is decided by the lexemes and by where they stop, so it is kept by every draw, also by those
behind a fault. -/
namespace ClassicAsp

open Text (Lacks)

def reserved : List Text :=
  Statement.all.map Statement.spelling ++ functionNames ++ keywordNames ++
    texts ["True", "False"] ++ ConstantFamily.all.flatMap ConstantFamily.names ++
    Operator.words.map Operator.spelling

/-- What a token that was drawn holds, with the text it was written as. -/
def Spelled.WellFormed (t : Spelled) : Prop :=
  match t.token with
  | .markup s => Lacks '<' '%' s
  | .directive d => Lacks '<' '%' d.path ∧ '"' ∉ d.path
  | .string s => '\r' ∉ s ∧ '\n' ∉ s ∧ Lacks '%' '>' s
  | .integer i => 0 ≤ i
  | .date _ => ∀ c ∈ t.written, Lexeme.isDateChar c = true
  | .operator o => o ∈ Operator.all ∧ Operator.find? t.written = some o
  | .identifier s => ∀ w ∈ reserved, Text.lower w ≠ Text.lower s
  | _ => True

/-- What may follow a token, where the token decides it. -/
def Token.Admits (t next : Token) : Prop :=
  match t with
  | .continuation => next = .lineEnd .newline ∨ next = .endOfInput
  | .comment _ => next = .lineEnd .newline ∨ next.isMarkupLike = true ∨ next = .endOfInput
  | _ => True

/-- The lexeme is converted: its operator is listed, or its punctuation is one character. -/
def Lexeme.Expected (l : Lexeme) : Prop :=
  match l with
  | .operator o w => Operator.find? w = some o
  | .punctuation _ => ∃ c, l.text = [c]
  | _ => True

theorem Word.not_sameWord {list : List Text} {s : Text} (h : Word.find? list s = none) :
    ∀ w ∈ list, Text.lower w ≠ Text.lower s := by
  intro w hw hs
  have hnone : list.find? (Text.sameWord · s) = none := by
    rw [← map_spelling_find?, h]
    rfl
  exact List.find?_eq_none.1 hnone w hw ((Text.sameWord_iff w s).2 hs)

structure Text.Unlisted (s : Text) : Prop where
  statement : Statement.find? s = none
  function : Word.find? functionNames s = none
  keyword : Word.find? keywordNames s = none
  notTrue : ¬ sameWord "true".toList s = true
  notFalse : ¬ sameWord "false".toList s = true
  constant : NamedConstant.find? s = none

theorem Token.unlisted_of_identifier {s n : Text} (h : Token.ofName s = .identifier n) :
    Text.Unlisted s := by
  unfold ofName at h
  split at h
  · cases h
  next hstatement =>
  split at h
  · cases h
  next hfunction =>
  split at h
  · cases h
  next hkeyword =>
  split at h
  · cases h
  next htrue =>
  split at h
  · cases h
  next hfalse =>
  split at h
  · cases h
  next hconstant =>
  exact ⟨Option.eq_none_iff_forall_ne_some.2 hstatement,
    Option.eq_none_iff_forall_ne_some.2 hfunction, Option.eq_none_iff_forall_ne_some.2 hkeyword,
    htrue, hfalse, Option.eq_none_iff_forall_ne_some.2 hconstant⟩

theorem Text.Unlisted.not_reserved {s : Text} (h : Unlisted s) (ho : Operator.findWord? s = none) :
    ∀ w ∈ reserved, lower w ≠ lower s := by
  intro w hw hs
  have hsame := (sameWord_iff w s).2 hs
  simp only [reserved, List.mem_append, List.mem_map, List.mem_flatMap, or_assoc] at hw
  rcases hw with ⟨x, hx, rfl⟩ | hw | hw | hw | ⟨f, hf, hw⟩ | ⟨x, hx, rfl⟩
  · exact List.find?_eq_none.1 h.statement x hx hsame
  · exact Word.not_sameWord h.function w hw hs
  · exact Word.not_sameWord h.keyword w hw hs
  · -- the two Boolean words are compared in small letters
    have hlow : lower w = lower "true".toList ∨ lower w = lower "false".toList := by
      simp only [texts, List.map_cons, List.map_nil, List.mem_cons, List.not_mem_nil, or_false] at hw
      rcases hw with rfl | rfl
      · exact Or.inl rfl
      · exact Or.inr rfl
    rcases hlow with hl | hl
    · exact h.notTrue ((sameWord_iff _ _).2 (hl.symm.trans hs))
    · exact h.notFalse ((sameWord_iff _ _).2 (hl.symm.trans hs))
  · have hnone := List.findSome?_eq_none_iff.1 h.constant f hf
    exact Word.not_sameWord (Option.map_eq_none_iff.1 hnone) w hw hs
  · exact List.find?_eq_none.1 ho x hx hsame

theorem Lexeme.IsRead.expected {l : Lexeme} (h : l.IsRead) : l.Expected := by
  cases l with
  | operator o w => exact h
  | punctuation c => exact ⟨c, rfl⟩
  | _ => trivial

/-- A lexeme that was read gives a well-formed token. -/
theorem Lexeme.IsRead.wellFormed {l : Lexeme} {t : Token} {atLineEnd : Bool} (hl : l.IsRead)
    (h : l.token atLineEnd = .ok t) : (⟨t, l.text⟩ : Spelled).WellFormed := by
  cases Gives.of_token h with
  | identifier hs => exact (Token.unlisted_of_identifier hs).not_reserved hl.2
  | @operator o => exact ⟨o.mem_all, hl⟩
  | string => exact ⟨hl.noReturn, hl.noNewline, hl.noDelimiter⟩
  | integer hi =>
    unfold integer? at hi
    split at hi
    · next j hj =>
      cases hi
      exact (Integer.read?_unsigned hj hl.1).1
    · cases hi
  | date => exact hl
  | markup | endOfInput => exact hl.elim
  | _ => trivial

theorem Segment.wellFormed {text : Text} (ht : Lacks '<' '%' text) {p : Segment}
    (hp : p ∈ split text) : p.spelled.WellFormed := by
  cases p with
  | markup s =>
    obtain ⟨ps, qs, hsplit⟩ := List.append_of_mem hp
    have hinfix : s <:+: text := by
      rw [← written_split text, hsplit, List.flatMap_append, List.flatMap_cons]
      exact ⟨ps.flatMap written, qs.flatMap written, by simp [written]⟩
    exact ht.of_infix hinfix
  | directive d w =>
    obtain ⟨hq, hi⟩ := split_directive hp
    exact ⟨ht.of_infix hi, hq⟩

namespace Source

theorem next_of_endsComment {s : Text} (h : Lexeme.EndsComment s) :
    (ofText .code s).next.1 = .ok (.lineEnd .newline) ∨
      (∃ t, (ofText .code s).next.1 = .ok (.markup t)) ∨
      (ofText .code s).next.1 = .ok .endOfInput := by
  rcases h with rfl | hs | ⟨t, rfl⟩
  · exact Or.inr (Or.inr rfl)
  · obtain ⟨u, rfl⟩ : ∃ u, s = '\n' :: u := ⟨s.tail, List.eq_cons_of_mem_head? hs⟩
    have hn := next_of_lexeme (by decide) (by simp) (lexeme_newline u)
    exact Or.inl (congrArg Prod.fst hn)
  · obtain ⟨x, rest, hn, -⟩ := nextMarkup_spec t
    exact Or.inr (Or.inl ⟨x, congrArg Prod.fst ((next_delimiter t).trans hn)⟩)

theorem next_of_atLineEnd {s : Text} (h : (ofText .code s).atLineEnd = true) :
    (ofText .code s).next.1 = .ok (.lineEnd .newline) ∨
      (ofText .code s).next.1 = .ok .endOfInput := by
  induction s with
  | nil => exact Or.inr rfl
  | cons c s ih =>
    by_cases hc : c = ' ' ∨ c = '\t' ∨ c = '\r'
    · have hsep : isSeparator c = true ∧ (ofText .code s).atLineEnd = true := by
        rcases hc with rfl | rfl | rfl
        · exact ⟨by decide, h⟩
        · exact ⟨by decide, h⟩
        · exact ⟨by decide, h⟩
      rw [next_congr (skip_cons hsep.1 s)]
      exact ih hsep.2
    · simp only [not_or] at hc
      have hn : c = '\n' := by simpa [atLineEnd, ofText, hc] using h
      subst hn
      have hn := next_of_lexeme (by decide) (by simp) (lexeme_newline s)
      exact Or.inl (congrArg Prod.fst hn)

end Source

namespace TokenStream

variable {s u : TokenStream} {t : Spelled}

theorem next_newline {source : Source} {line : ℕ} (h : source.next.1 = .ok (.lineEnd .newline)) :
    ∃ v w, (⟨source, [], line⟩ : TokenStream).next = (.ok v, w) ∧
      v.token = .lineEnd .newline := by
  have hsource : source.next = (_, source.next.2) := Prod.ext h rfl
  have hn := next_script hsource rfl line
  exact ⟨_, _, hn, rfl⟩

theorem next_end {source : Source} {line : ℕ} (h : source.next.1 = .ok .endOfInput) :
    ∃ v w, (⟨source, [], line⟩ : TokenStream).next = (.ok v, w) ∧ v.token = .endOfInput := by
  have hsource : source.next = (_, source.next.2) := Prod.ext h rfl
  have hn := next_script hsource rfl line
  exact ⟨_, _, hn, rfl⟩

theorem next_page {source : Source} {line : ℕ} {text : Text}
    (h : source.next.1 = .ok (.markup text)) :
    ∃ v w, (⟨source, [], line⟩ : TokenStream).next = (.ok v, w) ∧
      v.token.isMarkupLike = true := by
  have hsource : source.next = (_, source.next.2) := Prod.ext h rfl
  obtain ⟨v, q, hq, hn⟩ := next_markup hsource line
  have hv : v ∈ (Segment.split text).map Segment.spelled := by simp [hq]
  obtain ⟨p, -, rfl⟩ := List.mem_map.1 hv
  exact ⟨_, _, hn, p.isMarkupLike_token⟩

def QueueSound (s : TokenStream) : Prop :=
  ∀ t ∈ s.queue, t.WellFormed ∧ t.token.isMarkupLike = true

theorem queueSound_ofText (mode : Mode) (text : Text) : (ofText mode text).QueueSound := by
  intro t ht
  cases ht

theorem pieces_sound {source rest : Source} {text : Text}
    (h : source.next = (.ok (.markup text), rest)) :
    ∀ t ∈ (Segment.split text).map Segment.spelled,
      t.WellFormed ∧ t.token.isMarkupLike = true := by
  intro t ht
  obtain ⟨p, hp, rfl⟩ := List.mem_map.1 ht
  exact ⟨Segment.wellFormed (Source.lacks_of_next h) hp, p.isMarkupLike_token⟩

/-- Whatever a draw answers, it queues nothing but pieces of markup. -/
theorem QueueSound.next (hs : s.QueueSound) : s.next.2.QueueSound := by
  rcases next_cases s with ⟨t, u, hn, hd⟩ | ⟨e, u, hn, hf⟩
  · rw [hn]
    cases hd with
    | queued => exact fun x hx => hs x (List.mem_cons_of_mem _ hx)
    | markup h hq =>
      have hsound := pieces_sound h
      rw [hq] at hsound
      exact fun x hx => hsound x (List.mem_cons_of_mem _ hx)
    | script => exact fun x hx => by cases hx
  · rw [hn]
    cases hf with
    | scan | number => exact fun x hx => by cases hx

/-- The streams that any number of draws leave, those that fail included. -/
inductive Reaches (start : TokenStream) : TokenStream → Prop where
  | start : Reaches start start
  | next {v} (hr : Reaches start v) : Reaches start v.next.2

theorem Reaches.queueSound {mode : Mode} {text : Text} (h : Reaches (ofText mode text) s) :
    s.QueueSound := by
  induction h with
  | start => exact queueSound_ofText mode text
  | next _ ih => exact ih.next

/-- A draw gives a well-formed token, and the next draw one that it admits. -/
theorem QueueSound.drawn (hs : s.QueueSound) (h : s.next = (.ok t, u)) :
    t.WellFormed ∧ ((t.token = .continuation ∨ ∃ x, t.token = .comment x) →
      ∃ v w, u.next = (.ok v, w) ∧ t.token.Admits v.token) := by
  have pages (hw : t.WellFormed ∧ t.token.isMarkupLike = true) :
      t.WellFormed ∧ ((t.token = .continuation ∨ ∃ x, t.token = .comment x) →
        ∃ v w, u.next = (.ok v, w) ∧ t.token.Admits v.token) := by
    refine ⟨hw.1, fun ht => ?_⟩
    have hm := hw.2
    rcases ht with ht | ⟨x, ht⟩
    · rw [ht] at hm
      cases hm
    · rw [ht] at hm
      cases hm
  cases drawn_of_next h with
  | queued source t q line => exact pages (hs t List.mem_cons_self)
  | markup hn hq line => exact pages (pieces_sound hn t (by simp [hq]))
  | @script source rest l t hn hm ht line =>
    by_cases he : l = .endOfInput
    · subst he
      cases ht
      exact ⟨trivial, by simp⟩
    obtain ⟨c, x, left, hc, hlex, rfl⟩ := Source.lexeme_of_next hn hm he
    have hl := Source.isRead_lexeme hc hlex
    refine ⟨hl.wellFormed ht, fun hbinds => ?_⟩
    rcases hbinds with rfl | ⟨x, rfl⟩
    · rcases Source.next_of_atLineEnd (Lexeme.token_continuation ht) with hnext | hnext
      · obtain ⟨v, w, hv, htoken⟩ := next_newline hnext
        exact ⟨v, w, hv, Or.inl htoken⟩
      · obtain ⟨v, w, hv, htoken⟩ := next_end hnext
        exact ⟨v, w, hv, Or.inr htoken⟩
    · obtain ⟨y, rfl⟩ := Lexeme.token_comment ht
      rcases Source.next_of_endsComment (Source.lexeme_comment hlex) with hnext | ⟨p, hnext⟩ | hnext
      · obtain ⟨v, w, hv, htoken⟩ := next_newline hnext
        exact ⟨v, w, hv, Or.inl htoken⟩
      · obtain ⟨v, w, hv, htoken⟩ := next_page hnext
        exact ⟨v, w, hv, Or.inr (Or.inl htoken)⟩
      · obtain ⟨v, w, hv, htoken⟩ := next_end hnext
        exact ⟨v, w, hv, Or.inr (Or.inr htoken)⟩

theorem Run.reaches {start : TokenStream} {ts : List Spelled} (h : Run start ts s) :
    Reaches start s := by
  induction h with
  | start => exact .start
  | next _ h ih =>
    have hr := Reaches.next ih
    rw [h] at hr
    exact hr

/-- The tokens of a run are well formed, and each is one that the token before it admits. -/
theorem Run.wellFormed {mode : Mode} {text : Text} {ts : List Spelled}
    (h : Run (ofText mode text) ts s) :
    (∀ t ∈ ts, t.WellFormed) ∧ ts.IsChain (fun t u => t.token.Admits u.token) ∧
      ∀ t ∈ ts.getLast?, (t.token = .continuation ∨ ∃ x, t.token = .comment x) →
        ∃ v w, s.next = (.ok v, w) ∧ t.token.Admits v.token := by
  induction h with
  | start => exact ⟨by simp, .nil, by simp⟩
  | @next ts s t u hr hn ih =>
    obtain ⟨hall, hchain, hlast⟩ := ih
    obtain ⟨ht, hadmits⟩ := hr.reaches.queueSound.drawn hn
    refine ⟨?_, ?_, ?_⟩
    · intro x hx
      rcases List.mem_append.1 hx with hx | hx
      · exact hall x hx
      · rw [List.mem_singleton.1 hx]
        exact ht
    · refine List.isChain_append.2 ⟨hchain, .singleton t, fun x hx y hy => ?_⟩
      cases hy
      by_cases hbinds : x.token = .continuation ∨ ∃ c, x.token = .comment c
      · obtain ⟨v, w, hv, had⟩ := hlast x hx hbinds
        rw [hn] at hv
        cases hv
        exact had
      · unfold Token.Admits
        split
        · next hx => exact absurd (Or.inl hx) hbinds
        · next c hx => exact absurd (Or.inr ⟨c, hx⟩) hbinds
        · trivial
    · intro x hx
      rw [List.getLast?_concat] at hx
      cases hx
      exact hadmits

theorem next_ofText_markup (text : Text) :
    ∃ v w, (ofText .markup text).next = (.ok v, w) ∧ v.token.isMarkupLike = true := by
  obtain ⟨t, rest, hn, -⟩ := Source.nextMarkup_spec text
  have hpage : (Source.ofText .markup text).next.1 = .ok (.markup t) := congrArg Prod.fst hn
  exact next_page hpage

theorem Run.head {start : TokenStream} {ts : List Spelled} (h : Run start ts s) :
    (ts = [] → s = start) ∧ ∀ t ∈ ts.head?, start.next.1 = .ok t := by
  induction h with
  | start => exact ⟨fun _ => rfl, by simp⟩
  | @next ts s t u _ hn ih =>
    refine ⟨by simp, fun x hx => ?_⟩
    cases ts with
    | nil =>
      cases hx
      rw [← ih.1 rfl]
      exact congrArg Prod.fst hn
    | cons y ts => exact ih.2 x hx

theorem QueueSound.eq_end (hs : s.QueueSound) (h : s.next = (.ok t, u))
    (ht : t.token = .endOfInput) : t = ⟨.endOfInput, []⟩ := by
  have pages (hm : t.token.isMarkupLike = true) : t = ⟨.endOfInput, []⟩ := by
    rw [ht] at hm
    cases hm
  cases drawn_of_next h with
  | queued source t q line => exact pages (hs t List.mem_cons_self).2
  | markup hn hq line => exact pages (pieces_sound hn t (by simp [hq])).2
  | @script source rest l t hn hm hl line =>
    by_cases he : l = .endOfInput
    · subst he
      cases hl
      rfl
    · exact absurd ht (Lexeme.token_ne_end he hl)

theorem Run.deliver {start : TokenStream} {before : List Spelled} {ts : List (Spelled × ℕ)}
    (hr : Run start before s) (h : Delivers s ts none) :
    ∃ v t, Run start (before ++ ts.map Prod.fst) v ∧ v.next.1 = .ok t ∧ t.token = .endOfInput := by
  generalize hq : none = q at h
  induction h generalizing before with
  | @ended s t h ht => exact ⟨s, t, by simpa using hr, h, ht⟩
  | failed h => cases hq
  | @draw s u t ts q h ht _ ih =>
    have hfull := ih (hr.next h) hq
    rw [List.append_assoc] at hfull
    exact hfull

/-- The tokens of a page that is tokenized are drawn one after the other, and the last reports the
end. -/
theorem run_of_tokenize {mode : Mode} {text : Text} {ts : List Spelled}
    (h : tokenize mode text = .ok ts) :
    (∃ init, ts = init ++ [⟨.endOfInput, []⟩] ∧ ∀ t ∈ init, t.token ≠ .endOfInput) ∧
      ∃ v, Run (ofText mode text) ts v := by
  obtain ⟨us, hus, rfl⟩ := delivers_of_tokenize h
  obtain ⟨v, t, hrun, hv, ht⟩ := Run.deliver .start hus
  have hnext : v.next = (.ok t, v.next.2) := Prod.ext hv rfl
  obtain rfl := hrun.reaches.queueSound.eq_end hnext ht
  refine ⟨⟨_, rfl, fun x hx => ?_⟩, v.next.2, hrun.next hnext⟩
  obtain ⟨p, hp, rfl⟩ := List.mem_map.1 hx
  exact hus.ne_end p hp

theorem expected_of_next {source rest : Source} {l : Lexeme} (h : source.next = (.ok l, rest)) :
    l.Expected := by
  by_cases hm : l.isMarkup = true
  · cases l with
    | markup => trivial
    | _ => cases hm
  · by_cases he : l = .endOfInput
    · rw [he]
      trivial
    · obtain ⟨c, x, left, hc, hlex, -⟩ := Source.lexeme_of_next h (by simpa using hm) he
      exact (Source.isRead_lexeme hc hlex).expected

/-- Every draw gives a well-formed token that the one before admits, and a page that is tokenized
ends with its only report of the end. -/
theorem stream_wellFormed (mode : Mode) (text : Text) :
    (∀ s, Reaches (ofText mode text) s →
      (∀ l rest, s.source.next = (.ok l, rest) → l.Expected) ∧
      ∀ t u, s.next = (.ok t, u) → t.WellFormed ∧
        ((t.token = .continuation ∨ ∃ x, t.token = .comment x) →
          ∃ v w, u.next = (.ok v, w) ∧ t.token.Admits v.token)) ∧
    (mode = .markup →
      ∃ t u, (ofText mode text).next = (.ok t, u) ∧ t.token.isMarkupLike = true) ∧
    ∀ ts, tokenize mode text = .ok ts →
      (∃ init, ts = init ++ [⟨.endOfInput, []⟩] ∧ ∀ t ∈ init, t.token ≠ .endOfInput) ∧
      (∀ t ∈ ts, t.WellFormed) ∧ ts.IsChain (fun t u => t.token.Admits u.token) ∧
      (mode = .markup → ∃ t ∈ ts.head?, t.token.isMarkupLike = true) := by
  refine ⟨fun s hs => ⟨fun l rest => expected_of_next, fun t u => hs.queueSound.drawn⟩, ?_, ?_⟩
  · rintro rfl
    exact next_ofText_markup text
  · intro ts h
    obtain ⟨⟨init, rfl, hinit⟩, v, hrun⟩ := run_of_tokenize h
    obtain ⟨hsound, hchain, -⟩ := hrun.wellFormed
    refine ⟨⟨init, rfl, hinit⟩, hsound, hchain, ?_⟩
    rintro rfl
    obtain ⟨x, hx⟩ : ∃ x, x ∈ (init ++ [⟨.endOfInput, []⟩] : List Spelled).head? := by
      cases init with
      | nil => exact ⟨_, rfl⟩
      | cons y ys => exact ⟨_, rfl⟩
    obtain ⟨y, w, hy, hm⟩ := next_ofText_markup text
    have hfirst := hrun.head.2 x hx
    rw [hy] at hfirst
    cases hfirst
    exact ⟨x, hx, hm⟩

end TokenStream

end ClassicAsp
