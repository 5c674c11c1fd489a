import ClassicAsp.Proofs.Include
import ClassicAsp.Proofs.Stream
import ClassicAsp.Proofs.Token

/-! Reading a page as a relation. A page is a sequence of tokens of script and of texts of markup,
and its tokens are drawn from it exactly if it is read as these parts. -/
namespace ClassicAsp

/-- A part of a page: a token of script, or the text between two stretches of script. -/
inductive Part where
  | script (token : Token)
  | page (text : Text)

def Part.tokens : Part → List Token
  | script t => [t]
  | page s => (Segment.split s).map Segment.token

def tokensOf (ps : List Part) : List Token := ps.flatMap Part.tokens

@[simp] theorem tokensOf_append (ps qs : List Part) :
    tokensOf (ps ++ qs) = tokensOf ps ++ tokensOf qs :=
  List.flatMap_append

@[simp] theorem tokensOf_script_map (ts : List Token) : tokensOf (ts.map .script) = ts := by
  simp [tokensOf, Part.tokens, List.flatMap_map]

/-- A source is read to its end, part by part. -/
inductive Reads : Source → List Part → Prop where
  | ended {s} (h : s.next.1 = .ok .endOfInput) : Reads s []
  | page {s rest text ps} (h : s.next = (.ok (.markup text), rest)) (hr : Reads rest ps) :
      Reads s (.page text :: ps)
  | script {s rest l t ps} (h : s.next = (.ok l, rest)) (hm : l.isMarkup = false)
      (he : l ≠ .endOfInput) (ht : l.token rest.atLineEnd = .ok t) (hr : Reads rest ps) :
      Reads s (.script t :: ps)

inductive Draws : TokenStream → List Token → Prop where
  | ended {s t} (h : s.next.1 = .ok t) (he : t.token = .endOfInput) : Draws s []
  | draw {s rest t ts} (h : s.next = (.ok t, rest)) (he : t.token ≠ .endOfInput)
      (hr : Draws rest ts) : Draws s (t.token :: ts)

theorem Reads.congr {s t : Source} {ps : List Part} (h : Reads s ps) (he : s.next = t.next) :
    Reads t ps := by
  cases h with
  | ended h => exact .ended (he ▸ h)
  | page h hr => exact .page (he ▸ h) hr
  | script h hm hne ht hr => exact .script (he ▸ h) hm hne ht hr

theorem reads_skip {s t : Text} {ps : List Part} (h : Source.skip s = Source.skip t) :
    Reads (.ofText .code s) ps ↔ Reads (.ofText .code t) ps := by
  constructor
  · intro hr
    exact hr.congr (Source.next_congr h)
  · intro hr
    exact hr.congr (Source.next_congr h.symm)

/-- The script at the front of a text is these tokens, and reading goes on with the rest. -/
def Yields (s : Text) (ts : List Token) (rest : Text) : Prop :=
  ∀ ps, Reads (.ofText .code s) ps ↔
    ∃ qs, ps = ts.map .script ++ qs ∧ Reads (.ofText .code rest) qs

theorem Yields.reads {s rest : Text} {ts : List Token} {qs : List Part} (h : Yields s ts rest)
    (hr : Reads (.ofText .code rest) qs) : Reads (.ofText .code s) (ts.map .script ++ qs) :=
  (h _).2 ⟨qs, rfl, hr⟩

theorem Yields.trans {s t u : Text} {ts us : List Token} (h : Yields s ts t) (h' : Yields t us u) :
    Yields s (ts ++ us) u := by
  intro ps
  rw [h ps]
  constructor
  · rintro ⟨qs, rfl, hq⟩
    obtain ⟨rs, rfl, hr⟩ := (h' qs).1 hq
    exact ⟨rs, by rw [List.map_append, List.append_assoc], hr⟩
  · rintro ⟨rs, rfl, hr⟩
    exact ⟨us.map .script ++ rs, by rw [List.map_append, List.append_assoc], h'.reads hr⟩

theorem yields_skip {s t : Text} (h : Source.skip s = Source.skip t) : Yields s [] t := by
  intro ps
  rw [reads_skip h]
  simp

theorem yields_blanks {g : Text} (hg : ∀ c ∈ g, Source.isSeparator c = true) (s : Text) :
    Yields (g ++ s) [] s :=
  yields_skip (Source.skip_append hg s)

theorem Scans.yields {s rest : Text} {t : Token} (h : Scans s t rest) : Yields s [t] rest := by
  intro ps
  obtain ⟨l, left, hn, hskip, hm, he, ht⟩ := h
  constructor
  · intro hr
    cases hr with
    | ended h =>
      rw [hn] at h
      cases h
      exact absurd rfl he
    | page h hr =>
      rw [hn] at h
      cases h
      cases hm
    | script h hm' he' ht' hr =>
      rw [hn] at h
      cases h
      rw [ht] at ht'
      cases ht'
      exact ⟨_, rfl, (reads_skip hskip).1 hr⟩
  · rintro ⟨qs, rfl, hr⟩
    exact .script hn hm he ht ((reads_skip hskip).2 hr)

namespace TokenStream

@[simp] theorem next_cons (source : Source) (t : Spelled) (q : List Spelled) (line : ℕ) :
    (⟨source, t :: q, line⟩ : TokenStream).next =
      (.ok t, ⟨source, q, line + Text.newlines t.written⟩) := by
  rw [next, dif_pos (List.cons_ne_nil t q)]
  rfl

theorem token_ne_end (p : Segment) : p.token ≠ .endOfInput := by
  cases p <;> simp [Segment.token]

theorem next_markup {source rest : Source} {text : Text}
    (h : source.next = (.ok (.markup text), rest)) (line : ℕ) :
    ∃ t q, (Segment.split text).map Segment.spelled = t :: q ∧
      (⟨source, [], line⟩ : TokenStream).next =
        (.ok t, ⟨rest, q, line + Text.newlines t.written⟩) := by
  obtain ⟨p, ps, hp⟩ := List.exists_cons_of_ne_nil (Segment.split_ne_nil text)
  refine ⟨p.spelled, ps.map Segment.spelled, by rw [hp]; rfl, ?_⟩
  rw [next, dif_neg (by simp)]
  simp only [h, drawFrom, hp]
  rfl

theorem next_script {source rest : Source} {l : Lexeme} (h : source.next = (.ok l, rest))
    (hm : l.isMarkup = false) (line : ℕ) :
    (⟨source, [], line⟩ : TokenStream).next = (⟨rest, [], line⟩ : TokenStream).convert l := by
  rw [next, dif_neg (by simp)]
  simp only [h]
  cases l with
  | markup => cases hm
  | _ => rfl

theorem convert_ok {s : TokenStream} {l : Lexeme} {t : Token}
    (h : l.token s.source.atLineEnd = .ok t) :
    ∃ line, s.convert l = (.ok ⟨t, l.text⟩, { s with line := line }) := by
  rw [convert, h]
  exact ⟨_, rfl⟩

theorem convert_eq_ok {s rest : TokenStream} {l : Lexeme} {t : Spelled}
    (h : s.convert l = (.ok t, rest)) :
    l.token s.source.atLineEnd = .ok t.token ∧ rest.source = s.source ∧ rest.queue = s.queue := by
  unfold convert at h
  split at h
  · cases h
  · next e =>
    cases h
    exact ⟨e, rfl, rfl⟩

/-- A token is drawn from markup or is that of one lexeme of script. -/
theorem next_eq_ok {source : Source} {line : ℕ} {t : Spelled} {rest : TokenStream}
    (h : (⟨source, [], line⟩ : TokenStream).next = (.ok t, rest)) :
    (∃ text q, source.next = (.ok (.markup text), rest.source) ∧
        (Segment.split text).map Segment.spelled = t :: q ∧ rest.queue = q) ∨
      ∃ l, source.next = (.ok l, rest.source) ∧ l.isMarkup = false ∧
        l.token rest.source.atLineEnd = .ok t.token ∧ rest.queue = [] := by
  obtain ⟨r, src, hs⟩ : ∃ r src, source.next = (r, src) := ⟨_, _, rfl⟩
  cases r with
  | error e =>
    rw [next, dif_neg (by simp)] at h
    simp only [hs] at h
    cases h
  | ok l =>
    by_cases hm : l.isMarkup = true
    · left
      cases l with
      | markup text =>
        obtain ⟨u, q, hq, hn⟩ := next_markup hs line
        rw [hn] at h
        cases h
        exact ⟨text, q, hs, hq, rfl⟩
      | _ => cases hm
    · right
      rw [next_script hs (by simpa using hm)] at h
      obtain ⟨ht, hsource, hqueue⟩ := convert_eq_ok h
      refine ⟨l, ?_, by simpa using hm, ?_, hqueue⟩
      · rw [hs, hsource]
      · rw [hsource]
        exact ht

end TokenStream

theorem draws_queue {source : Source} {ts : List Token} {q : List Spelled}
    (hq : ∀ t ∈ q, t.token ≠ .endOfInput)
    (h : ∀ line, Draws ⟨source, [], line⟩ ts) (line : ℕ) :
    Draws ⟨source, q, line⟩ (q.map Spelled.token ++ ts) := by
  induction q generalizing line with
  | nil => exact h line
  | cons t q ih =>
    exact .draw (TokenStream.next_cons source t q line) (hq t (by simp))
      (ih (fun x hx => hq x (by simp [hx])) _)

@[simp] theorem map_token_spelled (ps : List Segment) :
    (ps.map Segment.spelled).map Spelled.token = ps.map Segment.token := by
  rw [List.map_map]
  rfl

theorem token_ne_end_of_mem {ps : List Segment} {t : Spelled} (h : t ∈ ps.map Segment.spelled) :
    t.token ≠ .endOfInput := by
  obtain ⟨p, -, rfl⟩ := List.mem_map.1 h
  exact TokenStream.token_ne_end p

namespace Lexeme

theorem token_form {l : Lexeme} {t : Token} {atLineEnd : Bool} (h : l.token atLineEnd = .ok t) :
    (∃ s u, l = .comment s ∧ t = .comment u) ∨ (atLineEnd = true ∧ t = .continuation) ∨
      (l = .endOfInput ∧ t = .endOfInput) ∨
      ((∀ s, t ≠ .comment s) ∧ t ≠ .continuation ∧ t ≠ .endOfInput) := by
  cases Gives.of_token h with
  | comment => exact .inl ⟨_, _, rfl, rfl⟩
  | continuation he => exact .inr (.inl ⟨he, rfl⟩)
  | endOfInput => exact .inr (.inr (.inl ⟨rfl, rfl⟩))
  | _ => simp

theorem token_comment {l : Lexeme} {u : Text} {atLineEnd : Bool}
    (h : l.token atLineEnd = .ok (.comment u)) : ∃ s, l = .comment s := by
  rcases token_form h with ⟨s, -, hl, -⟩ | ⟨-, ht⟩ | ⟨-, ht⟩ | ⟨ht, -⟩
  · exact ⟨s, hl⟩
  · cases ht
  · cases ht
  · exact absurd rfl (ht u)

theorem token_continuation {l : Lexeme} {atLineEnd : Bool}
    (h : l.token atLineEnd = .ok .continuation) : atLineEnd = true := by
  rcases token_form h with ⟨_, _, -, ht⟩ | ⟨he, -⟩ | ⟨-, ht⟩ | ⟨-, ht, -⟩
  · cases ht
  · exact he
  · cases ht
  · exact absurd rfl ht

theorem token_ne_end {l : Lexeme} {t : Token} {atLineEnd : Bool} (hl : l ≠ .endOfInput)
    (h : l.token atLineEnd = .ok t) : t ≠ .endOfInput := by
  rcases token_form h with ⟨_, _, -, ht⟩ | ⟨-, ht⟩ | ⟨he, -⟩ | ⟨-, -, ht⟩
  · simp [ht]
  · simp [ht]
  · exact absurd he hl
  · exact ht

end Lexeme

theorem Reads.draws {source : Source} {ps : List Part} (h : Reads source ps) (line : ℕ) :
    Draws ⟨source, [], line⟩ (tokensOf ps) := by
  induction h generalizing line with
  | @ended s h =>
    obtain ⟨r, rest⟩ : ∃ r, s.next = (.ok .endOfInput, r) := ⟨s.next.2, by rw [← h]⟩
    have hn := TokenStream.next_script rest rfl line
    obtain ⟨line', hc⟩ := TokenStream.convert_ok (s := ⟨r, [], line⟩) (l := .endOfInput) rfl
    rw [hc] at hn
    exact .ended (congrArg Prod.fst hn) rfl
  | @page s rest text ps h hr ih =>
    obtain ⟨t, q, hq, hn⟩ := TokenStream.next_markup h line
    have hmem : ∀ x ∈ t :: q, x.token ≠ .endOfInput := by
      rw [← hq]
      exact fun x hx => token_ne_end_of_mem hx
    have hd := draws_queue (q := q) (fun x hx => hmem x (by simp [hx])) ih
      (line + Text.newlines t.written)
    have htokens : tokensOf (.page text :: ps) = (t :: q).map Spelled.token ++ tokensOf ps := by
      simp [← hq]
      rfl
    rw [htokens]
    exact .draw hn (hmem t (by simp)) hd
  | @script s rest l t ps h hm he ht hr ih =>
    have hn := TokenStream.next_script h hm line
    obtain ⟨line', hc⟩ := TokenStream.convert_ok (s := ⟨rest, [], line⟩) ht
    rw [hc] at hn
    exact .draw hn (Lexeme.token_ne_end he ht) (ih line')

/-- What is drawn behind the queue was read part by part. -/
theorem Draws.reads {s : TokenStream} {ts : List Token} (h : Draws s ts)
    (hq : ∀ t ∈ s.queue, t.token ≠ .endOfInput) :
    ∃ ps, Reads s.source ps ∧ ts = s.queue.map Spelled.token ++ tokensOf ps := by
  induction h with
  | @ended s t h he =>
    obtain ⟨source, q, line⟩ := s
    cases q with
    | cons x q =>
      rw [TokenStream.next_cons] at h
      cases h
      exact absurd he (hq _ (by simp))
    | nil =>
      obtain ⟨rest, hn⟩ : ∃ rest, (⟨source, [], line⟩ : TokenStream).next = (.ok t, rest) :=
        ⟨_, by rw [← h]⟩
      rcases TokenStream.next_eq_ok hn with ⟨text, q, -, hq', -⟩ | ⟨l, hs, -, ht, -⟩
      · exact absurd he (@token_ne_end_of_mem (Segment.split text) t (by rw [hq']; simp))
      · have hl : l = .endOfInput := by
          by_contra hl
          exact Lexeme.token_ne_end hl ht he
        exact ⟨[], .ended (by rw [hs, hl]), rfl⟩
  | @draw s rest t ts h he hr ih =>
    obtain ⟨source, q, line⟩ := s
    cases q with
    | cons x q =>
      -- a queued piece belongs to a text that was read before
      rw [TokenStream.next_cons] at h
      cases h
      obtain ⟨ps, hps, hts⟩ := ih fun y hy => hq y (List.mem_cons_of_mem _ hy)
      exact ⟨ps, hps, by rw [hts]; rfl⟩
    | nil =>
      rcases TokenStream.next_eq_ok h with ⟨text, q, hs, hq', hrest⟩ | ⟨l, hs, hm, ht, hrest⟩
      · have hmem : ∀ x ∈ t :: q, x.token ≠ .endOfInput := by
          rw [← hq']
          exact fun x hx => token_ne_end_of_mem hx
        obtain ⟨ps, hps, hts⟩ := ih (by rw [hrest]; exact fun y hy => hmem y (by simp [hy]))
        have htokens : tokensOf (.page text :: ps) = (t :: q).map Spelled.token ++ tokensOf ps := by
          simp [← hq']
          rfl
        refine ⟨.page text :: ps, .page hs hps, ?_⟩
        rw [htokens, hts, hrest]
        rfl
      · have hl : l ≠ .endOfInput := by
          rintro rfl
          exact he (Except.ok.inj ht).symm
        obtain ⟨ps, hps, hts⟩ := ih (by rw [hrest]; simp)
        refine ⟨.script t.token :: ps, .script hs hm hl ht hps, ?_⟩
        rw [hts, hrest]
        rfl

theorem Delivers.draws {s : TokenStream} {ts : List (Spelled × Nat)} (h : Delivers s ts none) :
    Draws s (ts.map fun p => p.1.token) := by
  generalize hr : none = r at h
  induction h with
  | ended h ht => exact .ended h ht
  | failed h => cases hr
  | draw h ht _ ih => exact .draw h ht (ih hr)

theorem Draws.delivers {s : TokenStream} {ts : List Token} (h : Draws s ts) :
    ∃ us, Delivers s us none ∧ us.map (fun p => p.1.token) = ts := by
  induction h with
  | ended h he => exact ⟨[], .ended h he, rfl⟩
  | @draw s rest t ts h he _ ih =>
    obtain ⟨us, hus, rfl⟩ := ih
    exact ⟨(t, rest.line) :: us, .draw h he hus, rfl⟩

/-- A page is tokenized exactly if it is read to its end, and into the tokens of its parts. -/
theorem tokenize_iff {mode : Mode} {s : Text} {ts : List Token} :
    (∃ us, tokenize mode s = .ok us ∧ us.map Spelled.token = ts ++ [.endOfInput]) ↔
      ∃ ps, Reads (.ofText mode s) ps ∧ ts = tokensOf ps := by
  constructor
  · rintro ⟨us, h, hts⟩
    obtain ⟨vs, hvs, rfl⟩ := delivers_of_tokenize h
    obtain ⟨ps, hps, htokens⟩ := hvs.draws.reads (by simp [TokenStream.ofText])
    rw [List.map_append, List.map_map] at hts
    exact ⟨ps, hps, (List.append_cancel_right hts).symm.trans htokens⟩
  · rintro ⟨ps, hps, rfl⟩
    obtain ⟨us, hus, htokens⟩ := (hps.draws 1).delivers
    have hus : Delivers (.ofText mode s) us none := hus
    refine ⟨_, hus.tokenize_ok, ?_⟩
    rw [List.map_append, List.map_map, ← htokens]
    rfl

theorem Reads.tokenize {mode : Mode} {s : Text} {ps : List Part} (h : Reads (.ofText mode s) ps) :
    ∃ us, tokenize mode s = .ok us ∧ us.map Spelled.token = tokensOf ps ++ [.endOfInput] :=
  tokenize_iff.2 ⟨ps, h, rfl⟩

theorem reads_of_tokenize {mode : Mode} {s : Text} {us : List Spelled}
    (h : tokenize mode s = .ok us) :
    ∃ ps, Reads (.ofText mode s) ps ∧ us.map Spelled.token = tokensOf ps ++ [.endOfInput] := by
  obtain ⟨ts, hts, rfl⟩ := delivers_of_tokenize h
  obtain ⟨ps, hps, htokens⟩ := hts.draws.reads (by simp [TokenStream.ofText])
  have htokens : ts.map (fun p => p.1.token) = tokensOf ps := htokens
  refine ⟨ps, hps, ?_⟩
  rw [List.map_append, List.map_map, ← htokens]
  rfl

def Lexes (s : Text) : Prop := ∃ ps, Reads (.ofText .code s) ps

theorem Yields.lexes_iff {s rest : Text} {ts : List Token} (h : Yields s ts rest) :
    Lexes s ↔ Lexes rest := by
  constructor
  · rintro ⟨ps, hps⟩
    obtain ⟨qs, -, hqs⟩ := (h ps).1 hps
    exact ⟨qs, hqs⟩
  · rintro ⟨qs, hqs⟩
    exact ⟨_, h.reads hqs⟩

theorem not_lexes_of_error {s : Text} {e : ScanError}
    (h : (Source.ofText .code s).next.1 = .error e) : ¬ Lexes s := by
  rintro ⟨ps, hps⟩
  cases hps with
  | ended h' => rw [h'] at h; cases h
  | page h' => rw [h'] at h; cases h
  | script h' => rw [h'] at h; cases h

def Spread (ps : List Part) : Prop := ∀ t u, ¬ [Part.page t, .page u] <:+: ps

theorem Spread.tail {p : Part} {ps : List Part} (h : Spread (p :: ps)) : Spread ps :=
  fun t u hi => h t u (hi.trans (List.suffix_cons _ _).isInfix)

theorem Spread.head {t : Text} {ps : List Part} (h : Spread (.page t :: ps)) :
    ∀ u qs, ps ≠ .page u :: qs := by
  rintro u qs rfl
  exact h t u ⟨[], qs, rfl⟩

theorem Source.calls_cons {s rest : Source} {r : Except ScanError Lexeme} (h : s.next = (r, rest))
    (hr : reportsEnd r = false) : s.calls = (r, rest) :: rest.calls := by
  rw [calls]
  split
  · next e =>
    rw [h] at e
    cases e
    rw [dif_neg (by simp [hr])]

theorem Source.head_calls {s rest : Source} {r : Except ScanError Lexeme}
    (h : s.next = (r, rest)) : ∃ ls, s.calls = (r, rest) :: ls := by
  rw [calls]
  split
  · next e =>
    rw [h] at e
    cases e
    split
    · exact ⟨_, rfl⟩
    · exact ⟨_, rfl⟩

theorem Reads.spread {source : Source} {ps : List Part} (h : Reads source ps)
    (hc : ∀ t u, ¬ [.ok (.markup t), .ok (.markup u)] <:+: source.calls.map Prod.fst) :
    Spread ps := by
  intro t u hi
  apply hc t u
  clear hc
  induction h with
  | ended => simp at hi
  | @page s rest x ps h hr ih =>
    rw [Source.calls_cons h rfl, List.map_cons]
    rcases List.infix_cons_iff.1 hi with hp | hi
    · obtain ⟨hx, hu⟩ := List.cons_prefix_cons.1 hp
      obtain rfl := Part.page.inj hx
      cases hr with
      | ended => simp at hu
      | page h' =>
        obtain rfl := Part.page.inj (List.cons_prefix_cons.1 hu).1
        obtain ⟨ls, hls⟩ := Source.head_calls h'
        rw [hls]
        exact ⟨[], _, rfl⟩
      | script => exact absurd (List.cons_prefix_cons.1 hu).1 (by simp)
    · exact (ih hi).trans (List.suffix_cons _ _).isInfix
  | @script s rest l x ps h hm he ht hr ih =>
    have hend : Source.reportsEnd (.ok l) = false := by
      cases l with
      | endOfInput => exact absurd rfl he
      | _ => rfl
    rw [Source.calls_cons h hend, List.map_cons]
    rcases List.infix_cons_iff.1 hi with hp | hi
    · exact absurd (List.cons_prefix_cons.1 hp).1 (by simp)
    · exact (ih hi).trans (List.suffix_cons _ _).isInfix

end ClassicAsp
