import ClassicAsp.Proofs.Layout

/-! Formatting in normal mode. The texts between the stretches of script are kept, with their
directives in canonical form, and the delimiters are set where script ends and begins, so that the
formatted page is read as the same tokens and formats to itself. -/
namespace ClassicAsp

namespace Layout

open Source (isSeparator)

variable {o : Options} {s : Layout}

structure Outside (s : Layout) : Prop where
  start : s.atLineStart = true
  owes : s.owesCode = true
  previous : s.previous = .markup

theorem outside_after (ho : o.rewrites = false) (s : Layout) {u : Token}
    (hu : u.isMarkupLike = true) : (s.after o u).Outside := by
  have howes : ∀ b : Bool, (!o.rewrites || b) = true := by simp [ho]
  cases u with
  | markup | directive => exact ⟨rfl, howes _, rfl⟩
  | _ => cases hu

theorem body_segment (ho : o.rewrites = false) (s : Layout) (p : Segment) :
    s.body o p.token = p.canonical := by
  have hne : ¬ o.rewrites = true := by simp [ho]
  cases p with
  | markup t => exact if_neg hne
  | directive d w => exact if_neg hne

theorem Outside.text_segment (h : s.Outside) (ho : o.rewrites = false) (p : Segment) :
    (s.write o p.token).text = p.canonical := by
  have hskip : s.skipsTabs o p.token = true := by
    simp [skipsTabs, ho, h.previous]
  simp [Written.text, write, hskip, h.start, Layout.inCode, h.previous,
    body_segment ho]

theorem Outside.lay_segments (h : s.Outside) (ho : o.rewrites = false) (segments : List Segment)
    (ts : List Token) : ∃ s' : Layout, s'.Outside ∧
      lay o s (segments.map Segment.token ++ ts) =
        segments.flatMap Segment.canonical ++ lay o s' ts := by
  induction segments generalizing s with
  | nil => exact ⟨s, h, rfl⟩
  | cons p segments ih =>
    obtain ⟨s', hs', hlay⟩ := ih (outside_after ho s p.isMarkupLike_token)
    refine ⟨s', hs', ?_⟩
    have hc : ¬ s.Closes p.token (segments.map Segment.token ++ ts) := by
      rintro ⟨-, he, -⟩
      cases p <;> cases he
    simp [hc, hlay, h.text_segment ho]

theorem lay_page (ho : o.rewrites = false) (s : Layout) {front : Segment → Text}
    (hfront : ∀ p : Segment, (s.write o p.token).text = front p ++ p.canonical) (t : Text)
    (ps : List Part) : ∃ (s' : Layout) (p : Segment), s'.Outside ∧
      lay o s (tokensOf (.page t :: ps)) =
        front p ++ (Segment.canonicalize t ++ lay o s' (tokensOf ps)) := by
  obtain ⟨p, q, hp⟩ := List.exists_cons_of_ne_nil (Segment.split_ne_nil t)
  obtain ⟨s', hs', hlay⟩ := (outside_after ho s p.isMarkupLike_token).lay_segments ho q (tokensOf ps)
  have hc : ¬ s.Closes p.token (q.map Segment.token ++ tokensOf ps) := by
    rintro ⟨-, he, -⟩
    cases p <;> cases he
  refine ⟨s', p, hs', ?_⟩
  rw [tokensOf_page, ← Segment.canonical_split, hp, List.map_cons, List.cons_append, lay_cons o hc,
    hlay, hfront, List.flatMap_cons]
  simp only [List.append_assoc]

theorem text_segment_inCode (ho : o.rewrites = false) (hs : s.owesCode = false)
    (hin : s.inCode = true) (p : Segment) :
    (s.write o p.token).text = (s.write o p.token).gap ++ ['%', '>'] ++ p.canonical := by
  simp only [Written.text, write, hs, hin, ho, body_segment ho, p.isMarkupLike_token,
    Bool.false_and, Bool.false_eq_true, if_false, Bool.not_false, Bool.and_true, if_true,
    List.nil_append]

theorem text_segment_start (ho : o.rewrites = false) (p : Segment) :
    (({} : Layout).write o p.token).text = [] ++ p.canonical := by
  have htabs : tabs ((({} : Layout).lineDepth p.token)) = [] := by
    cases p <;> rfl
  simp [Written.text, write, Layout.inCode, body_segment ho, htabs]

def opened (s : Layout) : Layout := { s with owesCode := false }

theorem after_opened (o : Options) (s : Layout) {t : Token} (ht : t.isMarkupLike = false) :
    s.opened.after o t = s.after o t := by
  have hsettle : s.opened.settle t = s.settle t := by
    simp only [settle, opened, ht, Bool.and_false]
  cases t with
  | markup | directive => cases ht
  | lineEnd e => cases e <;> simp only [after.eq_def, hsettle]
  | statement w =>
    have hopens : s.opened.opensBlock w = s.opensBlock w := by cases w <;> rfl
    simp only [after.eq_def, hsettle, hopens]
  | _ => simp only [after.eq_def, hsettle]

theorem text_opened (h : s.owesCode = true) {t : Token} (ht : t.isMarkupLike = false) :
    (s.write o t).text = '<' :: '%' :: (s.opened.write o t).text := by
  have hbody : s.opened.body o t = s.body o t := by
    cases t with
    | operator p => cases p <;> rfl
    | lineEnd e => cases e <;> rfl
    | markup | directive => cases ht
    | _ => rfl
  have hgap : (s.opened.write o t).gap = (s.write o t).gap := by
    cases t <;> rfl
  have hcloses : ∀ r : Layout, (r.write o t).closes = false := by
    simp [write, ht]
  have hopens : (s.write o t).opens = true ∧ (s.opened.write o t).opens = false := by
    simp [write, ht, h, opened]
  change (if (s.write o t).opens then _ else _) ++ (s.write o t).gap ++
    (if (s.write o t).closes then _ else _) ++ s.body o t = '<' :: '%' ::
      ((if (s.opened.write o t).opens then _ else _) ++ (s.opened.write o t).gap ++
        (if (s.opened.write o t).closes then _ else _) ++ s.opened.body o t)
  rw [hcloses, hcloses, hopens.1, hopens.2, hgap, hbody]
  rfl

theorem lay_opened (o : Options) (h : s.owesCode = true) {t : Token} (ht : t.isMarkupLike = false)
    (ts : List Token) : lay o s (t :: ts) = '<' :: '%' :: lay o s.opened (t :: ts) := by
  by_cases hc : s.Closes t ts
  · obtain ⟨hs, rfl, w, us, rfl⟩ := hc
    have htext : (s.writeCloser o w).text = '<' :: '%' :: (s.opened.writeCloser o w).text := by
      simp [Written.text, writeCloser, opened, h, skipsTabs]
    rw [lay_closer o hs, lay_closer o (s := s.opened) hs, htext]
    rfl
  · have hc' : ¬ s.opened.Closes t ts := hc
    simp [hc, hc', text_opened h ht, after_opened o s ht]

theorem Outside.lay_rest (h : s.Outside) (ho : o.rewrites = false) {ps : List Part}
    (hs : Sound ps) (hp : ∀ u qs, ps ≠ .page u :: qs) :
    (ps = [] ∧ lay o s (tokensOf ps) = []) ∨
      lay o s (tokensOf ps) = '<' :: '%' :: lay o s.opened (tokensOf ps) := by
  cases ps with
  | nil => exact .inl ⟨rfl, by simp [tokensOf, ending, ho]⟩
  | cons p ps =>
    cases p with
    | page u => exact absurd rfl (hp u ps)
    | script t => exact .inr (lay_opened o h.owes hs.1.1.script (tokensOf ps))

end Layout

namespace Part

def reread : Part → Part
  | .script t => .script t.reread
  | .page t => .page (Segment.canonicalize t)

end Part

@[simp] theorem tokensOf_reread (ps : List Part) :
    tokensOf (ps.map Part.reread) = (tokensOf ps).map Token.reread := by
  induction ps with
  | nil => rfl
  | cons p ps ih =>
    cases p with
    | script t =>
      simp [Part.reread, ih]
    | page t =>
      have hsegment : ∀ p : Segment, p.token.reread = p.token := by
        intro p
        cases p <;> rfl
      rw [List.map_cons, Part.reread, tokensOf_page, tokensOf_page, ih, List.map_append,
        List.map_map, Segment.map_token_split_canonicalize]
      congr 1
      apply List.map_congr_left
      intro p _
      exact (hsegment p).symm

section Normal

open Layout (lay part_induction)

variable {o : Options} {ps : List Part}

theorem reads_text (ho : o.rewrites = false) {s : Layout} (h : s.Outside) {t : Text}
    (ht : Text.Lacks '<' '%' t) (hs : Sound ps) (hp : ∀ u qs, ps ≠ .page u :: qs)
    (hr : Reads (.ofText .code (lay o s.opened (tokensOf ps))) (ps.map Part.reread))
    {source : Source} (hn : source.next = Source.nextMarkup (t ++ lay o s (tokensOf ps))) :
    Reads source (.page t :: ps.map Part.reread) := by
  rcases h.lay_rest ho hs hp with ⟨rfl, hnil⟩ | hopen
  · rw [hnil, List.append_nil, Source.nextMarkup_end ht] at hn
    exact (reads_page_iff hn).2 ⟨[], rfl, .ended rfl⟩
  · rw [hopen, Source.nextMarkup_append ht] at hn
    exact (reads_page_iff hn).2 ⟨_, rfl, hr⟩

/-- Script that was laid out, with the texts in it, is read part by part. -/
theorem reads_lay (ho : o.rewrites = false) (s : Layout) (ps : List Part)
    (hs : s.owesCode = false) (hin : ∀ t qs, ps = .page t :: qs → s.inCode = true)
    (hsound : Sound ps) (hap : TokensApart (tokensOf ps)) (hspread : Spread ps) :
    Reads (.ofText .code (lay o s (tokensOf ps))) (ps.map Part.reread) := by
  induction s, ps using part_induction with
  | nil s =>
    have hnil : lay o s (tokensOf []) = [] := by simp [tokensOf, Layout.ending, ho]
    rw [hnil]
    exact .ended rfl
  | page s t ps ih =>
    obtain ⟨s', p, hs', hlay⟩ :=
      Layout.lay_page ho s (Layout.text_segment_inCode ho hs (hin t ps rfl)) t ps
    have hrest : Reads (.ofText .code (lay o s'.opened (tokensOf ps))) (ps.map Part.reread) :=
      ih s'.opened rfl (fun u qs hu => absurd hu (hspread.head u qs)) hsound.2
        (TokensApart.of_append hap) hspread.tail
    rw [hlay, List.append_assoc, reads_skip (Source.skip_append (Layout.isSeparator_gap o s _) _)]
    exact reads_text ho hs' (Segment.canonicalize_lacks hsound.1) hsound.2 hspread.head hrest
      (Source.next_delimiter _)
  | closer s w ps hstart ih =>
    have hw := (Layout.behind_closer s w).boundary (o := o) hap.2.1 hsound.2.1.2
      hsound.2.2.legible_head (by simp)
    have hrest := ih (s.afterCloser w) rfl (fun _ _ _ => rfl) hsound.2.2 hap.2.2
      hspread.tail.tail
    exact (Layout.yields_closer hs hstart hw).reads hrest
  | script s t ps hc ih =>
    obtain ⟨ht, hset⟩ := hsound.1
    have hbody : s.body o t = t.printed :=
      Layout.body_eq_printed o s ht.script (by simp [ho])
    have hb := Layout.boundary_after (o := o) s ht hap.1 hset hsound.2.legible_head (fun _ => ho)
    have hrest := ih (s.after o t) (Layout.owesCode_after o s ht.script)
      (fun _ _ _ => Layout.inCode_after o s ht.script) hsound.2 hap.2 hspread.tail
    exact (Layout.yields_script hs hc ht hbody hb).reads hrest

/-- The formatted page is read part by part, in the mode of the page. -/
theorem reads_formatted (ho : o.rewrites = false) {s : Text}
    (h : Reads (.ofText o.initialMode s) ps) (hsound : Sound ps)
    (hap : TokensApart (tokensOf ps)) (hspread : Spread ps)
    (hfirst : o.initialMode = .code → ∀ t qs, ps ≠ .page t :: qs) :
    Reads (.ofText o.initialMode (lay o {} (tokensOf ps))) (ps.map Part.reread) := by
  cases hm : o.initialMode with
  | code => exact reads_lay ho {} ps rfl (fun t qs e => absurd e (hfirst hm t qs)) hsound hap hspread
  | markup =>
    rw [hm] at h
    obtain ⟨t, rest, hn, -⟩ := Source.nextMarkup_spec s
    have hnext : (Source.ofText .markup s).next = (.ok (.markup t), rest) := hn
    obtain ⟨qs, rfl, -⟩ := (reads_page_iff hnext).1 h
    obtain ⟨s', p, hs', hlay⟩ := Layout.lay_page ho {} (Layout.text_segment_start ho) t qs
    have hrest := reads_lay ho s'.opened qs rfl (fun u rs hu => absurd hu (hspread.head u rs))
      hsound.2 (TokensApart.of_append hap) hspread.tail
    rw [hlay, List.nil_append]
    exact reads_text ho hs' (Segment.canonicalize_lacks hsound.1) hsound.2 hspread.head hrest rfl

theorem printed_reread {t : Token} (ht : ∀ x, t = .float x → x.negative = false) :
    t.reread.printed = t.printed := by
  cases t with
  | float x =>
    by_cases hw : x.IsWhole
    · rw [Token.reread, if_pos hw, Token.printed_integer (Int.natCast_nonneg _),
        Token.printed_whole (ht x rfl) hw, Int.natAbs_natCast]
    · rw [Token.reread, if_neg hw]
  | _ => rfl

theorem write_reread (o : Options) (s : Layout) {t : Token}
    (ht : ∀ x, t = .float x → x.negative = false) :
    s.write o t.reread = s.write o t ∧ s.after o t.reread = s.after o t := by
  cases t with
  | float x =>
    by_cases hw : x.IsWhole
    · have hprinted := printed_reread ht
      rw [Token.reread, if_pos hw] at hprinted ⊢
      have hbody : s.body o (.integer x.whole) = s.body o (.float x) := hprinted
      refine ⟨?_, rfl⟩
      simp only [Layout.write, hbody]
      rfl
    · rw [Token.reread, if_neg hw]
      exact ⟨rfl, rfl⟩
  | _ => exact ⟨rfl, rfl⟩

theorem lay_reread (o : Options) (s : Layout) (ts : List Token)
    (h : ∀ x, Token.float x ∈ ts → x.negative = false) :
    lay o s (ts.map Token.reread) = lay o s ts := by
  induction s, ts using Layout.walk_induction o with
  | nil s => rfl
  | closer s w ts hs ih =>
    have hrest := ih fun x hx => h x (List.mem_cons_of_mem _ (List.mem_cons_of_mem _ hx))
    change lay o s (.statement .end_ :: .statement w :: ts.map Token.reread) = _
    simp [hs, hrest]
  | cons s t ts hc ih =>
    have hrest := ih fun x hx => h x (List.mem_cons_of_mem _ hx)
    obtain ⟨hwrite, hafter⟩ := write_reread o s (t := t)
      (by rintro x rfl; exact h x List.mem_cons_self)
    have hstatement : ∀ {u : Token} {w : Statement}, u.reread = .statement w →
        u = .statement w := by
      intro u w hu
      cases u with
      | float x =>
        rw [Token.reread] at hu
        split at hu
        · cases hu
        · cases hu
      | _ => exact hu
    have hc' : ¬ s.Closes t.reread (ts.map Token.reread) := by
      rintro ⟨hs, ht, w, us, hts⟩
      cases ts with
      | nil => cases hts
      | cons u ts =>
        obtain ⟨hu, -⟩ := List.cons.inj hts
        exact hc ⟨hs, hstatement ht, w, ts, by rw [hstatement hu]⟩
    rw [List.map_cons, Layout.lay_cons o hc', Layout.lay_cons o hc, hwrite, hafter, hrest]

end Normal

theorem Sound.negative_float {ps : List Part} (h : Sound ps) {x : Binary64}
    (hx : Token.float x ∈ tokensOf ps) : x.negative = false := by
  induction ps with
  | nil => cases hx
  | cons p ps ih =>
    cases p with
    | script t =>
      rcases List.mem_cons.1 hx with rfl | hx
      · exact h.1.1
      · exact ih h.2 hx
    | page t =>
      rcases List.mem_append.1 hx with hx | hx
      · obtain ⟨p, -, hp⟩ := List.mem_map.1 hx
        cases p <;> cases hp
      · exact ih h.2 hx

def Source.NoEmptyCode (s : Source) : Prop :=
  ∀ t u, ¬ [.ok (.markup t), .ok (.markup u)] <:+: s.calls.map Prod.fst

section Format

variable {o : Options} {s : Text} {toks : List Spelled}

theorem opening_normal (ho : o.output = .normal) : opening o = [] ∧ o.rewrites = false := by
  have hr : o.rewrites = false := by
    rw [Options.rewrites, ho]
    rfl
  exact ⟨by rw [opening, hr]; rfl, hr⟩

theorem ne_page_of_head {ps : List Part} (hp : toks.map Spelled.token = tokensOf ps ++ [.endOfInput])
    (hf : ∀ t ∈ toks.head?, t.token.isMarkupLike = false) : ∀ t qs, ps ≠ .page t :: qs := by
  rintro t qs rfl
  obtain ⟨u, hu, hm⟩ := head_tokensOf_page t qs
  have hhead : (toks.map Spelled.token).head? = some u := by
    rw [hp, List.head?_append, Option.mem_def.1 hu]
    rfl
  rw [List.head?_map, Option.map_eq_some_iff] at hhead
  obtain ⟨v, hv, rfl⟩ := hhead
  rw [hf v hv] at hm
  cases hm

/-- Formatting keeps the tokens of a page, but for whole numbers that were floats. -/
theorem tokenize_format (ho : o.output = .normal) (h : tokenize o.initialMode s = .ok toks)
    (hp : Plain (toks.map Spelled.token)) (hb : (Source.ofText o.initialMode s).NoEmptyCode)
    (hf : o.initialMode = .code → ∀ t ∈ toks.head?, t.token.isMarkupLike = false) :
    ∃ out us, format o s = .ok out ∧ tokenize o.initialMode out = .ok us ∧
      us.map Spelled.token = toks.map fun t => t.token.reread := by
  obtain ⟨hopening, hr⟩ := opening_normal ho
  obtain ⟨ps, hps, hts⟩ := reads_of_tokenize h
  have hmem : ∀ {t}, t ∈ tokensOf ps → t ∈ toks.map Spelled.token :=
    fun ht => hts ▸ List.mem_append_left _ ht
  have hsound := hps.sound fun x hx => hp.comment x (hmem hx)
  have hap := (hp.subset fun t ht => hmem ht).apart
  have hformat := format_of_reads hps
  rw [hopening, List.nil_append] at hformat
  have hread := reads_formatted hr hps hsound hap (hps.spread hb)
    fun hm => ne_page_of_head hts (hf hm)
  obtain ⟨us, hus, hust⟩ := hread.tokenize
  refine ⟨_, us, hformat, hus, ?_⟩
  rw [hust, tokensOf_reread]
  change _ = toks.map (Token.reread ∘ Spelled.token)
  rw [← List.map_map, hts, List.map_append]
  rfl

/-- A whole number that was a float, in a script that goes on with markup. -/
theorem tokenize_format_script :
    ∃ toks, tokenize .code "x=1.0%>a".toList = .ok toks ∧ Plain (toks.map Spelled.token) ∧
      (Source.ofText .code "x=1.0%>a".toList).NoEmptyCode ∧
      ∃ out us, format { initialMode := .code } "x=1.0%>a".toList = .ok out ∧
        tokenize .code out = .ok us ∧ us.map Spelled.token = toks.map fun t => t.token.reread := by
  obtain ⟨toks, htoks⟩ : ∃ toks : List Spelled, toks =
      [⟨.identifier ['x'], ['x']⟩, ⟨.operator .equal, ['=']⟩,
        ⟨.float ⟨false, 1023 * Binary64.binade, by decide⟩, "1.0".toList⟩,
        ⟨.markup ['a'], ['a']⟩, ⟨.endOfInput, []⟩] := ⟨_, rfl⟩
  have ht : tokenize .code "x=1.0%>a".toList = .ok toks := by
    rw [htoks]
    decide +kernel
  have hp : Plain (toks.map Spelled.token) := by
    rw [htoks]
    decide +kernel
  have hb : (Source.ofText .code "x=1.0%>a".toList).NoEmptyCode := by
    have hcalls : (Source.ofText .code "x=1.0%>a".toList).calls.map Prod.fst =
        [.ok (.identifier ['x']), .ok (.operator .equal ['=']), .ok (.float "1.0".toList),
          .ok (.markup ['a']), .ok .endOfInput] := by
      decide +kernel
    intro t u h
    rw [hcalls] at h
    simp [List.infix_cons_iff] at h
  have hf : ∀ t ∈ toks.head?, t.token.isMarkupLike = false := by
    rw [htoks]
    simp [Token.isMarkupLike]
  exact ⟨toks, ht, hp, hb, tokenize_format (o := { initialMode := .code }) rfl ht hp hb fun _ => hf⟩

/-- Formatting a formatted page changes nothing, unless its tokens run into each other. -/
theorem format_format (ho : o.output = .normal) {out : Text} (h : format o s = .ok out)
    (ht : tokenize o.initialMode s = .ok toks)
    (hc : ∀ x, Token.comment x ∈ toks.map Spelled.token → Text.Lacks '%' '>' x)
    (ha : TokensApart (toks.map Spelled.token).dropLast)
    (hb : (Source.ofText o.initialMode s).NoEmptyCode)
    (hf : o.initialMode = .code → ∀ t ∈ toks.head?, t.token.isMarkupLike = false) :
    format o out = .ok out := by
  obtain ⟨hopening, hr⟩ := opening_normal ho
  obtain ⟨ps, hps, hts⟩ := reads_of_tokenize ht
  have hsound := hps.sound fun x hx => hc x (by rw [hts]; exact List.mem_append_left _ hx)
  rw [hts, List.dropLast_concat] at ha
  have hformat := format_of_reads hps
  rw [hopening, List.nil_append, h] at hformat
  have hread := reads_formatted hr hps hsound ha (hps.spread hb)
    fun hm => ne_page_of_head hts (hf hm)
  have hagain := format_of_reads hread
  rw [hopening, List.nil_append, tokensOf_reread,
    lay_reread o {} (tokensOf ps) fun x hx => hsound.negative_float hx] at hagain
  rw [Except.ok.inj hformat]
  exact hagain

/-- A comment word that keeps its line to itself. -/
theorem format_format_remark :
    ∃ toks, tokenize .markup "a<%Rem\n%>".toList = .ok toks ∧
      (∀ x, Token.comment x ∈ toks.map Spelled.token → Text.Lacks '%' '>' x) ∧
      TokensApart (toks.map Spelled.token).dropLast ∧
      (Source.ofText .markup "a<%Rem\n%>".toList).NoEmptyCode ∧
      format {} "a<%Rem\n%>".toList = .ok "a<%Rem\n%>".toList := by
  obtain ⟨toks, htoks⟩ : ∃ toks : List Spelled, toks =
      [⟨.markup ['a'], ['a']⟩, ⟨.statement .rem, "Rem".toList⟩, ⟨.lineEnd .newline, ['\n']⟩,
        ⟨.markup [], []⟩, ⟨.endOfInput, []⟩] := ⟨_, rfl⟩
  have ht : tokenize .markup "a<%Rem\n%>".toList = .ok toks := by
    rw [htoks]
    decide +kernel
  have hc : ∀ x, Token.comment x ∈ toks.map Spelled.token → Text.Lacks '%' '>' x := by
    rw [htoks]
    simp
  have ha : TokensApart (toks.map Spelled.token).dropLast := by
    rw [htoks]
    simp [TokensApart, Token.Apart]
  have hb : (Source.ofText .markup "a<%Rem\n%>".toList).NoEmptyCode := by
    have hcalls : (Source.ofText .markup "a<%Rem\n%>".toList).calls.map Prod.fst =
        [.ok (.markup ['a']), .ok (.identifier "Rem".toList), .ok (.lineEnd .newline),
          .ok (.markup []), .ok .endOfInput] := by
      decide +kernel
    intro t u h
    rw [hcalls] at h
    simp [List.infix_cons_iff] at h
  have hout : format {} "a<%Rem\n%>".toList = .ok "a<%Rem\n%>".toList := by decide +kernel
  exact ⟨toks, ht, hc, ha, hb,
    format_format (o := {}) (s := "a<%Rem\n%>".toList) rfl hout ht hc ha hb (by simp)⟩

/-- A comment word that had nothing behind it gains a blank, and is a comment the next time. -/
theorem format_remark :
    format {} "<%Rem%>".toList = .ok "<%Rem %>".toList ∧
      format {} "<%Rem %>".toList = .ok "<%' %>".toList ∧
      format {} "<%Rem %>".toList ≠ .ok "<%Rem %>".toList := by
  have hagain : format {} "<%Rem %>".toList = .ok "<%' %>".toList := by decide +kernel
  refine ⟨by decide +kernel, hagain, ?_⟩
  rw [hagain]
  decide

end Format

end ClassicAsp
