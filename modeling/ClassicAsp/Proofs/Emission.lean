import ClassicAsp.Proofs.Delivery
import ClassicAsp.Proofs.Preservation

/-! The text of a page as the texts of its tokens. In normal mode each token is written once and in
order, in its canonical form, and what separates it from the token before is at most a delimiter
and blanks. -/
namespace ClassicAsp

/-- The form in which a token is written, whatever stands before it. -/
def Token.canonical : Token → Text
  | .statement w => w.spelling
  | .function f => f.spelling
  | .keyword k => k.spelling
  | .boolean b => if b then "True".toList else "False".toList
  | .constant c => c.name.spelling
  | .operator p => p.spelling
  | .identifier s => s
  | .integer i => Text.ofInt i
  | .float x => if x.reaches 15 then x.scientific else x.positional
  | .string t => Text.quote t
  | .date d => '#' :: (d.write ++ ['#'])
  | .comment t => if t = [] then ['\''] else '\'' :: ' ' :: t
  | .punctuation c => [c]
  | .lineEnd .separator => [':', ' ']
  | .lineEnd .newline => ['\n']
  | .continuation => ['_']
  | .markup t => t
  | .directive d => d.write
  | .endOfInput => []

/-- What is written for a token behind another, or first on a page: delimiters that change sides,
blanks, and the canonical form. -/
structure Written.Emits (line : Prop) (last : Option Token) (t : Token) (w : Written) : Prop where
  blanks : w.gap = [] ∨ w.gap = [' '] ∨ ∃ n, w.gap = tabs n
  tabs : '\t' ∈ w.gap → line
  closes : w.closes = true → t.isMarkupLike = true
  opens : w.opens = true → t.isMarkupLike = false ∧ ∃ u ∈ last, u.isMarkupLike = true
  body : w.body = t.canonical

/-- Within a line of script nothing but a space separates tokens. -/
theorem Written.Emits.text_mid {line : Prop} {last : Option Token} {t : Token} {w : Written}
    (h : w.Emits line last t) (hline : ¬ line) (ht : t.isMarkupLike = false)
    (hlast : ∀ u ∈ last, u.isMarkupLike = false) :
    w.text = t.canonical ∨ w.text = ' ' :: t.canonical := by
  have hopens : w.opens = false := by
    by_contra ho
    obtain ⟨-, u, hu, hm⟩ := h.opens (by simpa using ho)
    rw [hlast u hu] at hm
    cases hm
  have hcloses : w.closes = false := by
    by_contra hc
    rw [h.closes (by simpa using hc)] at ht
    cases ht
  have htext : w.text = w.gap ++ t.canonical := by
    simp only [Written.text, hopens, hcloses, h.body, Bool.false_eq_true, if_false,
      List.nil_append, List.append_nil]
  rw [htext]
  rcases h.blanks with hg | hg | ⟨n, hg⟩
  · exact .inl (by rw [hg]; rfl)
  · exact .inr (by rw [hg]; rfl)
  · cases n with
    | zero => exact .inl (by rw [hg]; rfl)
    | succ n => exact absurd (h.tabs (by rw [hg]; exact .head _)) hline

namespace Layout

variable {o : Options} {s : Layout} {t : Token} {last : Option Token}

theorem body_eq_canonical (ho : o.rewrites = false) (s : Layout) (t : Token) :
    s.body o t = t.canonical := by
  cases t with
  | operator p =>
    cases p with
    | equal =>
      simp only [body, ho, Bool.false_and, Bool.false_eq_true, if_false]
      rfl
    | _ => rfl
  | lineEnd e => cases e <;> simp [body, ho, Token.canonical]
  | boolean b => cases b <;> rfl
  | markup x => simp [body, ho, Token.canonical]
  | directive d => simp [body, ho, Token.canonical]
  | _ => rfl

/-- What is written for every token from a state on. The two words of a block closer are written
as one, with a space between them. -/
def pieces (o : Options) : Layout → List Token → List (Token × Written) :=
  walk o (fun _ => [])
    (fun s w rest =>
      (.statement .end_, { s.writeCloser o w with body := Statement.end_.spelling }) ::
        (.statement w, { gap := [' '], body := w.spelling }) :: rest)
    fun s t rest => (t, s.write o t) :: rest

@[simp]
theorem pieces_closer (o : Options) (h : s.atLineStart = true) (w : Statement) (ts : List Token) :
    pieces o s (.statement .end_ :: .statement w :: ts) =
      (.statement .end_, { s.writeCloser o w with body := Statement.end_.spelling }) ::
        (.statement w, { gap := [' '], body := w.spelling }) :: pieces o (s.afterCloser w) ts :=
  walk_closer o _ _ _ h w ts

@[simp] theorem pieces_cons (o : Options) {ts : List Token} (h : ¬ s.Closes t ts) :
    pieces o s (t :: ts) = (t, s.write o t) :: pieces o (s.after o t) ts :=
  walk_cons o _ _ _ h

@[simp] theorem pieces_tokens (o : Options) (s : Layout) (ts : List Token) :
    (pieces o s ts).map Prod.fst = ts := by
  induction s, ts using walk_induction o with
  | nil => rfl
  | closer s w ts h ih => simp [h, ih]
  | cons s t ts h ih => simp [h, ih]

theorem writeCloser_text (o : Options) (s : Layout) (w : Statement) :
    (s.writeCloser o w).text =
      ({ s.writeCloser o w with body := Statement.end_.spelling } : Written).text ++
        ({ gap := [' '], body := w.spelling } : Written).text := by
  simp only [Written.text, writeCloser, Bool.false_eq_true, if_false, List.append_assoc]
  rfl

/-- A page is the concatenation of what is written for its tokens. -/
theorem lay_eq_pieces (ho : o.rewrites = false) (s : Layout) (ts : List Token) :
    lay o s ts = (pieces o s ts).flatMap fun p => p.2.text := by
  induction s, ts using walk_induction o with
  | nil s =>
    rw [lay_nil, ending, ho]
    rfl
  | closer s w ts h ih =>
    simp [h, writeCloser_text, ih]
  | cons s t ts h ih => simp [h, ih]

structure Trails (s : Layout) (last : Option Token) : Prop where
  code : s.owesCode = true → ∃ u ∈ last, u.isMarkupLike = true
  line : s.atLineStart = true → s.noTabs = false → s.previous ≠ .markup → s.depth ≠ 0 →
    last = some (.lineEnd .newline)

theorem trails_default : ({} : Layout).Trails none where
  code := by simp
  line := by simp

theorem trails_after (o : Options) (s : Layout) (t : Token) :
    (s.after o t).Trails (some t) := by
  by_cases ht : t.isMarkupLike = true
  · refine ⟨fun _ => ⟨t, rfl, ht⟩, fun _ _ hm _ => ?_⟩
    cases t with
    | markup | directive => exact absurd rfl hm
    | _ => cases ht
  · have ht : t.isMarkupLike = false := by simpa using ht
    refine ⟨?_, ?_⟩
    · rw [owesCode_after o s ht]
      simp
    · intro hs htabs _ _
      by_cases he : ∃ e, t = .lineEnd e
      · obtain ⟨e, rfl⟩ := he
        cases e with
        | newline => rfl
        | separator => cases htabs
      · rw [(behind_after o s ht fun e h => he ⟨e, h⟩).mid] at hs
        cases hs

theorem trails_afterCloser (s : Layout) (w : Statement) :
    (s.afterCloser w).Trails (some (.statement w)) where
  code := by simp [afterCloser, beginLine, dedent]
  line := by simp [afterCloser, beginLine]

theorem tab_mem_tabs {n : ℕ} (h : '\t' ∈ tabs n) : n ≠ 0 := by
  rintro rfl
  cases h

theorem Trails.tabs {n : ℕ} (h : s.Trails last) (ho : o.rewrites = false)
    (hs : s.atLineStart = true) (ht : s.skipsTabs o t = false) (hn : n ≤ s.depth)
    (htab : '\t' ∈ tabs n) : last = some (.lineEnd .newline) := by
  simp only [skipsTabs, ho, Bool.or_eq_false_iff, Bool.false_eq_true, if_false,
    beq_eq_false_iff_ne] at ht
  have hdepth := tab_mem_tabs htab
  exact h.line hs ht.1.1 ht.2 (by omega)

theorem Trails.opens (h : s.Trails last) (hopens : (s.owesCode && !t.isMarkupLike) = true) :
    t.isMarkupLike = false ∧ ∃ u ∈ last, u.isMarkupLike = true := by
  rw [Bool.and_eq_true, Bool.not_eq_true'] at hopens
  exact ⟨hopens.2, h.code hopens.1⟩

theorem Trails.write (h : s.Trails last) (ho : o.rewrites = false) (t : Token) :
    (s.write o t).Emits (last = some (.lineEnd .newline)) last t where
  blanks := by
    unfold Layout.write
    dsimp only
    split
    · split
      · exact .inl rfl
      · exact .inr (.inr ⟨_, rfl⟩)
    · split
      · exact .inl rfl
      · split
        · exact .inr (.inl rfl)
        · exact .inl rfl
  tabs := by
    have hspace : '\t' ∉ [' '] := by decide
    intro htab
    unfold Layout.write at htab
    dsimp only at htab
    split at htab
    · next hs =>
      split at htab
      · cases htab
      · next ht =>
        have hdepth : s.lineDepth t ≤ s.depth := by
          unfold lineDepth
          split <;> omega
        exact h.tabs ho hs (by simpa using ht) hdepth htab
    · split at htab
      · cases htab
      · split at htab
        · exact absurd htab hspace
        · cases htab
  closes := by simp +contextual [Layout.write]
  opens := h.opens
  body := body_eq_canonical ho s t

theorem Trails.writeCloser (h : s.Trails last) (ho : o.rewrites = false)
    (hs : s.atLineStart = true) (w : Statement) :
    ({ s.writeCloser o w with body := Statement.end_.spelling } : Written).Emits
      (last = some (.lineEnd .newline)) last (.statement .end_) where
  blanks := by
    dsimp only [Layout.writeCloser]
    split
    · exact .inl rfl
    · exact .inr (.inr ⟨_, rfl⟩)
  tabs := by
    intro htab
    dsimp only [Layout.writeCloser] at htab
    split at htab
    · cases htab
    · next ht => exact h.tabs ho hs (by simpa using ht) (Nat.sub_le _ _) htab
  closes := by simp [Layout.writeCloser]
  opens := fun hopens => ⟨rfl, h.code hopens⟩
  body := rfl

theorem emits_word (w : Statement) (line : Prop) (last : Option Token) :
    ({ gap := [' '], body := w.spelling } : Written).Emits line last (.statement w) where
  blanks := .inr (.inl rfl)
  tabs := by simp
  closes := by simp
  opens := by simp
  body := rfl

def EmitsAll : Option Token → List (Token × Written) → Prop
  | _, [] => True
  | last, (t, w) :: ps => w.Emits (last = some (.lineEnd .newline)) last t ∧ EmitsAll (some t) ps

theorem EmitsAll.split {before after : List (Token × Written)} {w : Written}
    (h : EmitsAll last (before ++ (t, w) :: after)) :
    let u := (before.getLast?.map Prod.fst).or last
    w.Emits (u = some (.lineEnd .newline)) u t := by
  induction before generalizing last with
  | nil => exact h.1
  | cons p before ih =>
    have hlast : ((p :: before).getLast?.map Prod.fst).or last =
        (before.getLast?.map Prod.fst).or (some p.1) := by
      cases before with
      | nil => rfl
      | cons q before => simp [List.getLast?_cons]
    rw [hlast]
    exact ih h.2

theorem Trails.emitsAll (h : s.Trails last) (ho : o.rewrites = false) (ts : List Token) :
    EmitsAll last (pieces o s ts) := by
  induction s, ts using walk_induction o generalizing last with
  | nil => trivial
  | closer s w ts hs ih =>
    rw [pieces_closer o hs]
    exact ⟨h.writeCloser ho hs w, emits_word w _ _, ih (trails_afterCloser s w)⟩
  | cons s t ts hc ih =>
    rw [pieces_cons o hc]
    exact ⟨h.write ho t, ih (trails_after o s t)⟩

end Layout

/-- In normal mode every token is written once, in order and in its canonical form, behind at most a
delimiter and blanks. -/
theorem format_emits {o : Options} (ho : o.output = .normal) {text : Text} {us : List Spelled}
    (h : tokenize o.initialMode text = .ok us) :
    ∃ ps : List (Token × Written), us.map Spelled.token = ps.map Prod.fst ++ [.endOfInput] ∧
      format o text = .ok (ps.flatMap fun p => p.2.text) ∧
      ∀ before t w after, ps = before ++ (t, w) :: after →
        w.Emits (before.getLast?.map Prod.fst = some (.lineEnd .newline))
          (before.getLast?.map Prod.fst) t := by
  obtain ⟨hopening, hrewrites⟩ := opening_normal ho
  obtain ⟨ts, hd, rfl⟩ := delivers_of_tokenize h
  refine ⟨({} : Layout).pieces o (ts.map fun p => p.1.token), ?_, ?_, ?_⟩
  · rw [Layout.pieces_tokens]
    simp
  · rw [hd.format_ok, hopening, List.nil_append, Layout.lay_eq_pieces hrewrites]
  · intro before t w after hps
    have hall := Layout.trails_default.emitsAll hrewrites (ts.map fun p => p.1.token)
    rw [hps] at hall
    have hemits := hall.split
    rwa [Option.or_none] at hemits

/-- A block within code, behind text. -/
theorem format_emits_block :
    let text := "a<%\nif x then\ny%>".toList
    let us : List Spelled := [⟨.markup ['a'], ['a']⟩, ⟨.lineEnd .newline, ['\n']⟩,
      ⟨.statement .if_, ['i', 'f']⟩, ⟨.identifier ['x'], ['x']⟩,
      ⟨.statement .then_, "then".toList⟩, ⟨.lineEnd .newline, ['\n']⟩,
      ⟨.identifier ['y'], ['y']⟩, ⟨.markup [], []⟩, ⟨.endOfInput, []⟩]
    tokenize .markup text = .ok us ∧
      ∃ ps : List (Token × Written), us.map Spelled.token = ps.map Prod.fst ++ [.endOfInput] ∧
        (ps.flatMap fun p => p.2.text) = "a<%\nIf x Then\n\ty %>".toList ∧
        ∀ before t w after, ps = before ++ (t, w) :: after →
          w.Emits (before.getLast?.map Prod.fst = some (.lineEnd .newline))
            (before.getLast?.map Prod.fst) t := by
  intro text us
  have h : tokenize .markup text = .ok us := by decide +kernel
  obtain ⟨ps, hps, htext, hemits⟩ := format_emits (o := {}) rfl h
  have hformat : format {} text = .ok "a<%\nIf x Then\n\ty %>".toList := by decide +kernel
  exact ⟨h, ps, hps, Except.ok.inj (htext.symm.trans hformat), hemits⟩

/-- Whether a token begins a logical line, given the tokens before it. A newline behind a
continuation ends none. -/
def BeginsLogicalLine (before : List Token) : Prop :=
  before = [] ∨ ∃ b e, before = b ++ [.lineEnd e] ∧ b.getLast? ≠ some .continuation

/-- The tabs of a continued line stand in the middle of a logical line. -/
theorem not_emits_continued :
    let o : Options := { initialMode := .code }
    let text := "x _\ny".toList
    let us : List Spelled := [⟨.identifier ['x'], ['x']⟩, ⟨.continuation, ['_']⟩,
      ⟨.lineEnd .newline, ['\n']⟩, ⟨.identifier ['y'], ['y']⟩, ⟨.endOfInput, []⟩]
    tokenize .code text = .ok us ∧ format o text = .ok "x _\n\ty".toList ∧
      ¬ ∃ ps : List (Token × Written), us.map Spelled.token = ps.map Prod.fst ++ [.endOfInput] ∧
        format o text = .ok (ps.flatMap fun p => p.2.text) ∧
        ∀ before t w after, ps = before ++ (t, w) :: after →
          w.Emits (BeginsLogicalLine (before.map Prod.fst)) (before.getLast?.map Prod.fst) t := by
  intro o text us
  have hformat : format o text = .ok "x _\n\ty".toList := by decide +kernel
  refine ⟨by decide +kernel, hformat, ?_⟩
  rintro ⟨ps, hps, htext, hemits⟩
  have hread : [.identifier ['x'], .continuation, .lineEnd .newline, .identifier ['y']] ++
      [.endOfInput] = ps.map Prod.fst ++ [Token.endOfInput] := hps
  have htokens := (List.append_cancel_right hread).symm
  obtain ⟨p, ps, rfl, -, h₁⟩ := List.map_eq_cons_iff.1 htokens
  obtain ⟨q, ps, rfl, hq, h₂⟩ := List.map_eq_cons_iff.1 h₁
  obtain ⟨⟨_, v⟩, ps, rfl, rfl, h₃⟩ := List.map_eq_cons_iff.1 h₂
  obtain ⟨⟨_, w⟩, ps, rfl, rfl, h₄⟩ := List.map_eq_cons_iff.1 h₃
  obtain rfl := List.map_eq_nil_iff.1 h₄
  -- the page ends in the newline and what is written for the last name
  have hpage : "x _\n\ty".toList = p.2.text ++ q.2.text ++ v.text ++ w.text := by
    rw [hformat] at htext
    simpa using Except.ok.inj htext
  have hv : ∃ x, v.text = x ++ ['\n'] := by
    have hbody := (hemits [p, q] _ v [(.identifier ['y'], w)] rfl).body
    exact ⟨_, congrArg (_ ++ ·) hbody⟩
  obtain ⟨x, hx⟩ := hv
  have hline : ¬ BeginsLogicalLine ([p, q, (.lineEnd .newline, v)].map Prod.fst) := by
    rintro (hnil | ⟨b, e, hb, hlast⟩)
    · cases hnil
    · have hsplit : [p.1, q.1] ++ [.lineEnd .newline] = b ++ [.lineEnd e] := hb
      obtain rfl : [p.1, q.1] = b := (List.append_inj' hsplit rfl).1
      exact hlast (congrArg some hq)
  have hw := (hemits [p, q, (.lineEnd .newline, v)] _ w [] rfl).text_mid hline rfl
    (by simp [Token.isMarkupLike])
  rw [hx] at hpage
  have hreverse := congrArg List.reverse hpage
  rcases hw with hw | hw
  · rw [hw] at hreverse
    simp [Token.canonical] at hreverse
  · rw [hw] at hreverse
    simp [Token.canonical] at hreverse

end ClassicAsp
