import ClassicAsp.Proofs.LetterCase.Stream

/-! Letter case of pages. The layout looks at no letters, so what differs in case alone is laid out
with the same blanks, delimiters and line breaks, and raises the same concerns. -/
namespace ClassicAsp

theorem Text.lower_quote (x : Text) : lower (quote (lower x)) = lower (quote x) := by
  simp

theorem DateLiteral.write_lower (d : DateLiteral) :
    Text.lower d.lower.write = Text.lower d.write := by
  cases d with
  | text x => exact Text.lower_lower x
  | _ => rfl

theorem Directive.write_lower (d : Directive) : Text.lower d.lower.write = Text.lower d.write := by
  have hpath : Text.lower (d.lower.path ++ "\"-->".toList) =
      Text.lower (d.path ++ "\"-->".toList) :=
    Text.lower_append_congr (Text.lower_lower d.path) rfl
  exact Text.lower_append_congr rfl (Text.lower_cons_congr '=' (Text.lower_cons_congr '"' hpath))

theorem Token.isMarkupLike_lower (t : Token) : t.lower.isMarkupLike = t.isMarkupLike := by
  cases t <;> rfl

namespace Layout

variable (o : Options) (s : Layout) (t : Token)

theorem settle_lower : s.settle t.lower = s.settle t := by
  cases t <;> rfl

theorem after_lower : s.after o t.lower = s.after o t := by
  cases t <;> rfl

theorem spaces_lower : s.spaces t.lower = s.spaces t := by
  cases t with
  | identifier name =>
    have hpoint : ((Text.lower name).head? == some '.') = (name.head? == some '.') := by
      rw [Bool.eq_iff_iff, beq_iff_eq, beq_iff_eq, Text.head?_lower_eq_iff (by decide)]
    exact congrArg (fun point => !(point && s.previous == .punctuation ')')) hpoint
  | _ => rfl

theorem printLines_lower (depth : ℕ) (lines : List Text) :
    Text.lower (printLines o depth (lines.map Text.lower)) =
      Text.lower (printLines o depth lines) := by
  cases lines with
  | nil => rfl
  | cons first others =>
    have hfirst : Text.lower (' ' :: Text.quote (Text.lower first)) =
        Text.lower (' ' :: Text.quote first) :=
      Text.lower_cons_congr ' ' (Text.lower_quote first)
    refine Text.lower_append_congr (Text.lower_append_congr rfl hfirst) ?_
    apply Text.lower_flatMap
    intro line
    exact Text.lower_append_congr rfl (Text.lower_quote line)

theorem printMarkup_lower (depth : ℕ) (x : Text) :
    Text.lower (printMarkup o depth (Text.lower x)) = Text.lower (printMarkup o depth x) := by
  have hfilter := (Text.caseBlind_ne (k := '\r') (by decide)).filter_lower x
  simp only [printMarkup, hfilter, Text.lower_eq_nil, Text.lines_lower]
  split
  · rfl
  · exact Text.lower_append_congr (printLines_lower o depth _) rfl

theorem body_lower : Text.lower (s.body o t.lower) = Text.lower (s.body o t) := by
  cases t with
  | identifier name => exact Text.lower_lower name
  | string x => exact Text.lower_quote x
  | date d =>
    exact Text.lower_cons_congr '#' (Text.lower_append_congr d.write_lower rfl)
  | comment x =>
    simp only [Token.lower, body, Text.lower_eq_nil]
    split
    · rfl
    · exact Text.lower_cons_congr '\'' (Text.lower_cons_congr ' ' (Text.lower_lower x))
  | markup x =>
    have hsettle : s.settle (.markup (Text.lower x)) = s.settle (.markup x) :=
      s.settle_lower (.markup x)
    simp only [Token.lower, body, hsettle]
    split
    · exact Text.lower_append_congr rfl (printMarkup_lower o _ x)
    · exact Text.lower_lower x
  | directive d =>
    simp only [Token.lower, body]
    split
    · exact Text.lower_append_congr (Text.lower_append_congr rfl d.write_lower) rfl
    · exact d.write_lower
  | _ => rfl

theorem write_lower :
    Text.lower (s.write o t.lower).text = Text.lower (s.write o t).text := by
  have hnewline : (t.lower == .lineEnd .newline) = (t == .lineEnd .newline) := by
    cases t <;> rfl
  have hdedents : t.lower.dedents = t.dedents := by cases t <;> rfl
  unfold Written.text write skipsTabs lineDepth
  rw [t.isMarkupLike_lower, spaces_lower, hnewline, hdedents]
  exact Text.lower_append_congr rfl (body_lower o s t)

theorem closes_lower (ts : List Token) :
    s.Closes t.lower (ts.map Token.lower) ↔ s.Closes t ts := by
  have hword (v : Token) (w : Statement) : v.lower = .statement w ↔ v = .statement w :=
    Token.lower_eq_iff rfl
  unfold Closes
  rw [hword]
  cases ts with
  | nil => simp
  | cons u us => simp [hword]

/-- Tokens that differ in case alone are laid out alike. -/
theorem lay_lower (ts : List Token) :
    Text.lower (lay o s (ts.map Token.lower)) = Text.lower (lay o s ts) := by
  induction s, ts using walk_induction o with
  | nil s => rfl
  | closer s w ts h ih =>
    change Text.lower (lay o s (.statement .end_ :: .statement w :: ts.map Token.lower)) = _
    rw [lay_closer _ h, lay_closer _ h]
    exact Text.lower_append_congr rfl ih
  | cons s t ts h ih =>
    have hlow : ¬ s.Closes t.lower (ts.map Token.lower) := mt (closes_lower s t ts).1 h
    rw [List.map_cons, lay_cons _ hlow, lay_cons _ h, after_lower]
    exact Text.lower_append_congr (write_lower o s t) ih

end Layout

def lowerPage : Except PageError Text → Except PageError Text :=
  lowerAnswer PageError.lower Text.lower

theorem lowerPage_format (o : Options) (text : Text) :
    lowerPage (format o text) = (tokenize o.initialMode (Text.lower text)).map fun us =>
      Text.lower (opening o ++ ({} : Layout).lay o (us.dropLast.map Spelled.token)) := by
  rw [format_eq_map_tokenize, tokenize_lower]
  cases tokenize o.initialMode text with
  | error e => rfl
  | ok us =>
    have htokens : (us.map Spelled.lower).dropLast.map Spelled.token =
        (us.dropLast.map Spelled.token).map Token.lower := by
      rw [← List.map_dropLast, List.map_map, List.map_map]
      rfl
    simp only [Except.map, lowerPage, lowerAnswer, htokens]
    exact congrArg _ (Text.lower_append_congr rfl (Layout.lay_lower o {} _).symm)

def Concern.lower : Concern → Concern
  | createsObject call object => createsObject call (Text.lower object)
  | createsNamed call name => createsNamed call (Text.lower name)
  | instantiates name => instantiates (Text.lower name)
  | c => c

def Finding.lower (f : Finding) : Finding := { f with concern := f.concern.lower }

def Report.lower (r : Report) : Report where
  findings := r.findings.map Finding.lower
  error := r.error.map PageError.lower

theorem Concern.message_lower (c : Concern) :
    Text.lower c.lower.message = Text.lower c.message := by
  cases c with
  | createsObject call object =>
    have hobject := Text.lower_lower object
    exact Text.lower_append_congr (Text.lower_append_congr rfl hobject) rfl
  | createsNamed call name => exact Text.lower_append_congr rfl (Text.lower_lower name)
  | instantiates name => exact Text.lower_append_congr rfl (Text.lower_lower name)
  | _ => rfl

theorem Finding.message_lower (f : Finding) :
    Text.lower f.lower.message = Text.lower f.message := by
  have hconcern := Text.lower_cons_congr ':' (Text.lower_cons_congr ' ' f.concern.message_lower)
  exact Text.lower_append_congr rfl hconcern

theorem Creation.ofToken?_lower (t : Token) : ofToken? t.lower = ofToken? t := by
  cases t with
  | identifier name => simp only [Token.lower, ofToken?, Word.find?_lower]
  | _ => rfl

theorem Creation.concern?_lower (c : Creation) (t : Token) :
    c.concern? t.lower = (c.concern? t).map Concern.lower := by
  cases c <;> cases t <;> rfl

theorem Concern.ofToken?_lower (t : Token) : ofToken? t.lower = (ofToken? t).map lower := by
  cases t with
  | statement w => cases w <;> rfl
  | function f =>
    simp only [Token.lower, ofToken?]
    split <;> rfl
  | _ => rfl

namespace Watch

theorem start_lower (t : Token) (line : ℕ) :
    start t.lower line = Prod.map id (Option.map Finding.lower) (start t line) := by
  rw [start, start, Creation.ofToken?_lower, Concern.ofToken?_lower, Option.map_map]
  rw [Prod.map, Option.map_map]
  rfl

theorem check_lower (w : Watch) (t : Token) (line : ℕ) :
    w.check t.lower line = Prod.map id (Option.map Finding.lower) (w.check t line) := by
  cases w with
  | none => exact start_lower t line
  | some p =>
    obtain ⟨c, begun⟩ := p
    by_cases ht : ∃ a, t = .punctuation a
    · obtain ⟨a, rfl⟩ := ht
      rfl
    · have hne : ∀ a, t ≠ .punctuation a := fun a h => ht ⟨a, h⟩
      have hlow : ∀ a, t.lower ≠ .punctuation a := fun a => mt (Token.lower_eq_iff rfl).1 (hne a)
      rw [check_awaited c begun hne, check_awaited c begun hlow, Creation.concern?_lower,
        start_lower]
      cases c.concern? t with
      | none => rfl
      | some concern => rfl

theorem findings_lower (w : Watch) (ts : List (Spelled × ℕ)) :
    w.findings (ts.map (Prod.map Spelled.lower id)) = (w.findings ts).map Finding.lower := by
  induction ts generalizing w with
  | nil => rfl
  | cons p ts ih =>
    obtain ⟨t, line⟩ := p
    change (w.check t.token.lower line).2.toList ++
      findings (w.check t.token.lower line).1 (ts.map (Prod.map Spelled.lower id)) = _
    rw [check_lower, ih, findings, List.map_append]
    generalize w.check t.token line = answer
    obtain ⟨v, found⟩ := answer
    cases found <;> rfl

end Watch

theorem lint_lower (mode : Mode) (text : Text) :
    lint mode (Text.lower text) = (lint mode text).lower := by
  obtain ⟨ts, r, h⟩ := exists_delivers (.ofText mode text)
  have hlow := h.lower
  rw [← TokenStream.ofText_lower] at hlow
  rw [h.lint_eq, Delivers.lint_eq hlow, Watch.findings_lower]
  rfl

/-- Pages that differ in case alone, and are written alike wherever their tokens differ, have the
same tokens. -/
theorem tokens_eq_of_written {mode : Mode} {text text' : Text} {us us' : List Spelled}
    (h : Text.lower text = Text.lower text') (hus : tokenize mode text = .ok us)
    (hus' : tokenize mode text' = .ok us')
    (hw : List.Forall₂ (fun t u => t.written = u.written ∨ t.token = u.token) us us') :
    us.map Spelled.token = us'.map Spelled.token := by
  have hlow : us.map Spelled.lower = us'.map Spelled.lower := by
    have htokens := tokenize_lower mode text
    rw [h, tokenize_lower, hus, hus'] at htokens
    exact (Except.ok.inj htokens).symm
  have hv := verbatim_of_tokenize hus
  have hv' := verbatim_of_tokenize hus'
  clear hus hus'
  induction hw with
  | nil => rfl
  | @cons t u us us' htu _ ih =>
    obtain ⟨hhead, htail⟩ := List.cons.inj hlow
    obtain ⟨ht, hts⟩ := List.forall_mem_cons.1 hv
    obtain ⟨hu, hus⟩ := List.forall_mem_cons.1 hv'
    have htoken : t.token = u.token := by
      rcases htu with hw | htoken
      · exact ht.token_eq hu hhead hw
      · exact htoken
    rw [List.map_cons, List.map_cons, htoken, ih htail hts hus]

/-- Pages that differ in letter case alone are drawn in step, and are formatted and linted alike up
to case. -/
theorem case_equivariant {text text' : Text} (h : Text.lower text = Text.lower text') :
    (∀ mode n, (((TokenStream.ofText mode text).skip n).InStep
      ((TokenStream.ofText mode text').skip n))) ∧
    (∀ o, lowerPage (format o text) = lowerPage (format o text')) ∧
    (∀ mode, (lint mode text).lower = (lint mode text').lower ∧
      (lint mode text).findings.map (fun f => Text.lower f.message) =
        (lint mode text').findings.map (fun f => Text.lower f.message)) ∧
    ∀ o us us', tokenize o.initialMode text = .ok us → tokenize o.initialMode text' = .ok us' →
      List.Forall₂ (fun t u => t.written = u.written ∨ t.token = u.token) us us' →
      format o text = format o text' := by
  refine ⟨TokenStream.inStep_skip h, ?_, ?_, ?_⟩
  · intro o
    rw [lowerPage_format, lowerPage_format, h]
  · intro mode
    have hlint : (lint mode text).lower = (lint mode text').lower := by
      rw [← lint_lower, ← lint_lower, h]
    have hmessages (r : Report) : r.findings.map (fun f => Text.lower f.message) =
        r.lower.findings.map fun f => Text.lower f.message := by
      rw [Report.lower, List.map_map]
      exact List.map_congr_left fun f _ => f.message_lower.symm
    refine ⟨hlint, ?_⟩
    rw [hmessages, hlint, ← hmessages]
  · intro o us us' hus hus' hw
    have htokens := tokens_eq_of_written h hus hus' hw
    rw [format_eq_map_tokenize, format_eq_map_tokenize, hus, hus']
    simp only [Except.map, List.map_dropLast, htokens]

/-- Words in other letters, and a string in its own. -/
theorem case_equivariant_words :
    let text := "<%STOP:\"a\"".toList
    let text' := "<%stop:\"a\"".toList
    Text.lower text = Text.lower text' ∧
      (∀ n, ((TokenStream.ofText .markup text).skip n).InStep
        ((TokenStream.ofText .markup text').skip n)) ∧
      (lint .markup text).lower = (lint .markup text').lower ∧
      format {} text = format {} text' ∧ format {} text = .ok "<%Stop : \"a\"".toList := by
  intro text text'
  have h : Text.lower text = Text.lower text' := by decide
  let us : List Spelled := [⟨.markup [], []⟩, ⟨.statement .stop, "STOP".toList⟩,
    ⟨.lineEnd .separator, [':']⟩, ⟨.string ['a'], ['a']⟩, ⟨.endOfInput, []⟩]
  let us' : List Spelled := [⟨.markup [], []⟩, ⟨.statement .stop, "stop".toList⟩,
    ⟨.lineEnd .separator, [':']⟩, ⟨.string ['a'], ['a']⟩, ⟨.endOfInput, []⟩]
  have hus : tokenize .markup text = .ok us := by decide +kernel
  have hus' : tokenize .markup text' = .ok us' := by decide +kernel
  have hw : List.Forall₂ (fun t u => t.written = u.written ∨ t.token = u.token) us us' := by
    decide +kernel
  obtain ⟨hdraws, -, hlint, hformat⟩ := case_equivariant h
  refine ⟨h, hdraws .markup, (hlint .markup).1, hformat {} us us' hus hus' hw, ?_⟩
  rw [format_eq_map_tokenize, hus]
  decide +kernel

end ClassicAsp
