import ClassicAsp.Proofs.Coherence

/-! The delimiters between markup and code. What is written opens and closes code by turns, so that
markup stands outside of it and every other token within, from the first token on. The one
exception is a page that begins in code and closes it before any token: that delimiter is dropped,
and the markup behind it has become code. -/
namespace ClassicAsp

def Written.leavesCode (code : Bool) (w : Written) : Bool := (code || w.opens) && !w.closes

/-- Whether code is open behind what has been written. -/
def codeOpen (code : Bool) (ws : List Written) : Bool := ws.foldl Written.leavesCode code

/-- The text of a token stands on the right side of the delimiters, and each of them changes
sides. -/
structure Written.Brackets (code : Bool) (t : Token) (w : Written) : Prop where
  opens : w.opens = true → code = false
  closes : w.closes = true → (code || w.opens) = true
  body : w.leavesCode code = !t.isMarkupLike

namespace Layout

variable {o : Options} {s : Layout} {t : Token} {code : Bool}

structure Sides (s : Layout) (code : Bool) (t : Token) : Prop where
  first : s.previous = .start → code = !t.isMarkupLike
  later : s.previous ≠ .start → code = s.inCode

theorem inCode_markup (hm : s.previous = .markup) : s.inCode = false := by
  rw [inCode, hm]
  rfl

theorem Coherent.owesCode_eq (h : s.Coherent o) (hm : s.previous ≠ .markup) :
    s.owesCode = false := by
  by_contra hc
  exact hm (h.code.1 (by simpa using hc)).2

theorem Coherent.write_brackets (h : s.Coherent o) (ho : o.output = .normal)
    (hs : s.Sides code t) : (s.write o t).Brackets code t := by
  have hrewrites : o.rewrites = false := by
    rw [Options.rewrites, ho]
    rfl
  have hopens : (s.write o t).opens = (s.owesCode && !t.isMarkupLike) := rfl
  have hcloses : (s.write o t).closes = (t.isMarkupLike && s.inCode) := by
    simp [write, hrewrites]
  by_cases hstart : s.previous = .start
  · -- before the first token there is nothing to open or to close
    have hcode := hs.first hstart
    have howes := h.owesCode_eq (by simp [hstart])
    have hin : s.inCode = false := by simp [inCode, hstart]
    constructor <;> simp [Written.leavesCode, hopens, hcloses, howes, hin, hcode]
  have hcode := hs.later hstart
  by_cases hm : s.previous = .markup
  · have howes : s.owesCode = true := h.code.2 ⟨ho, hm⟩
    have hin := inCode_markup hm
    constructor <;> simp [Written.leavesCode, hopens, hcloses, howes, hin, hcode]
  · have howes := h.owesCode_eq hm
    have hin : s.inCode = true := by simp [inCode, hstart, hm]
    constructor <;> simp [Written.leavesCode, hopens, hcloses, howes, hin, hcode]

theorem Coherent.closer_brackets (h : s.Coherent o) (ho : o.output = .normal)
    (hs : s.Sides code (.statement .end_)) (w : Statement) :
    (s.writeCloser o w).Brackets code (.statement .end_) := by
  have hwrite := h.write_brackets ho hs
  have hopens : (s.writeCloser o w).opens = (s.write o (.statement .end_)).opens := by
    simp [writeCloser, write, Token.isMarkupLike]
  have hcloses : (s.writeCloser o w).closes = (s.write o (.statement .end_)).closes := by
    simp [writeCloser, write, Token.isMarkupLike]
  refine ⟨?_, ?_, ?_⟩
  · rw [hopens]
    exact hwrite.opens
  · rw [hopens, hcloses]
    exact hwrite.closes
  · rw [Written.leavesCode, hopens, hcloses]
    exact hwrite.body

theorem inCode_after_eq (o : Options) (s : Layout) (t : Token) :
    (s.after o t).previous ≠ .start ∧ (s.after o t).inCode = !t.isMarkupLike := by
  have hprevious : (s.after o t).previous = .ofToken t := rfl
  rw [inCode, hprevious]
  cases t <;> exact ⟨by simp [Lookback.ofToken], rfl⟩

end Layout

theorem Lexeme.isMarkupLike_token {l : Lexeme} {t : Token} {atLineEnd : Bool}
    (hm : l.isMarkup = false) (h : l.token atLineEnd = .ok t) : t.isMarkupLike = false := by
  cases Gives.of_token h with
  | markup => cases hm
  | _ => rfl

/-- Code gives markup first exactly if it is closed before anything else. -/
theorem Source.next_eq_markup_iff {s : Text} :
    (∃ x rest, (ofText .code s).next = (.ok (.markup x), rest)) ↔ ['%', '>'] <+: skip s := by
  have hnext : (ofText .code s).next = nextCode s := rfl
  rw [hnext, nextCode, skip]
  constructor
  · rintro ⟨x, rest, h⟩
    split at h
    · cases h
    · next u hu =>
      rw [hu]
      exact ⟨u, rfl⟩
    · next c u _ hu =>
      obtain ⟨r, v, hl⟩ : ∃ r v, lexeme c u = (r, v) := ⟨_, _, rfl⟩
      rw [hl] at h
      cases h
      cases isMarkup_lexeme (congrArg Prod.fst hl)
  · rintro ⟨u, hu⟩
    obtain ⟨x, rest, hx, -⟩ := nextMarkup_spec u
    rw [← hu]
    exact ⟨x, rest, hx⟩

theorem TokenStream.next_eq_markup_iff {s : Text} :
    (∃ t u, (ofText .code s).next = (.ok t, u) ∧ t.token.isMarkupLike = true) ↔
      ['%', '>'] <+: Source.skip s := by
  rw [← Source.next_eq_markup_iff]
  constructor
  · rintro ⟨t, u, hn, ht⟩
    rcases next_eq_ok hn with ⟨x, q, hs, -, -⟩ | ⟨l, -, hm, hl, -⟩
    · exact ⟨x, _, hs⟩
    · rw [Lexeme.isMarkupLike_token hm hl] at ht
      cases ht
  · rintro ⟨x, rest, hs⟩
    exact next_page (congrArg Prod.fst hs)

namespace Formatter

variable {o : Options} {f g m : Formatter} {t : Token} {w : Written} {text : Text}

/-- The first token is markup exactly if the page does not begin in code, unless it closes code
before anything else. -/
theorem pull_ofText (h : ¬ (o.initialMode = .code ∧ ['%', '>'] <+: Source.skip text))
    (hp : (ofText o text).pull = .ok (t, g)) : (o.initialMode == .code) = !t.isMarkupLike := by
  obtain ⟨u, rest, hn, rfl⟩ : ∃ u rest,
      (TokenStream.ofText o.initialMode text).next = (.ok u, rest) ∧ u.token = t := by
    simp only [pull, ofText] at hp
    split at hp
    · cases hp
    · next u rest hn =>
      cases hp
      exact ⟨u, rest, hn, rfl⟩
  cases hmode : o.initialMode with
  | markup =>
    rw [hmode] at hn
    obtain ⟨v, w, hv, hm⟩ := TokenStream.next_ofText_markup text
    rw [hn] at hv
    cases hv
    rw [hm]
    rfl
  | code =>
    rw [hmode] at hn
    have hm : u.token.isMarkupLike = false := by
      by_contra hm
      exact h ⟨hmode, TokenStream.next_eq_markup_iff.1 ⟨u, rest, hn, by simpa using hm⟩⟩
    rw [hm]
    rfl

/-- What a step writes stands on the right side of the delimiters, and the next step can go on. -/
theorem Sound.step_brackets (hf : f.Sound o) (ho : o.output = .normal) {code : Bool}
    (hp : f.pull = .ok (t, g)) (hc : f.layout.Sides code t) (hs : g.step o t = .ok (w, m)) :
    w.Brackets code t ∧ m.layout.previous ≠ .start ∧ w.leavesCode code = m.layout.inCode := by
  have hlayout := layout_of_pull hp
  rw [← hlayout] at hc
  have hg : g.layout.Coherent o := hlayout ▸ hf.layout
  cases step_cases hs with
  | closer hstart hq =>
    have hw := hg.closer_brackets ho hc ‹_›
    exact ⟨hw, by simp [Layout.afterCloser], hw.body⟩
  | lookAhead hstart hq hu =>
    have hw := hg.write_brackets ho hc
    obtain ⟨hprevious, hin⟩ := g.layout.inCode_after_eq o (.statement .end_)
    exact ⟨hw, hprevious, hw.body.trans hin.symm⟩
  | single hsingle =>
    have hw := hg.write_brackets ho hc
    obtain ⟨hprevious, hin⟩ := g.layout.inCode_after_eq o t
    exact ⟨hw, hprevious, hw.body.trans hin.symm⟩

theorem Writes.codeOpen_eq {ws : List Written} (hw : Writes o f ws g) (ho : o.output = .normal)
    (hf : f.Sound o) {code : Bool} (hp : f.layout.previous ≠ .start)
    (hc : code = f.layout.inCode) :
    g.layout.previous ≠ .start ∧ codeOpen code ws = g.layout.inCode := by
  induction hw generalizing code with
  | nil => exact ⟨hp, hc⟩
  | step hpull ht hs _ ih =>
    obtain ⟨-, hprevious, hleaves⟩ := hf.step_brackets ho hpull
      ⟨fun h => absurd h hp, fun _ => hc⟩ hs
    exact ih (hf.step hpull ht hs) hprevious hleaves

/-- In normal mode the delimiters bracket code and markup, whatever the page, exactly if it does
not begin in code and close it before anything else. -/
theorem delimiters_bracket_iff (ho : o.output = .normal) (text : Text) :
    (∀ ws f t g w m, Writes o (ofText o text) ws f → f.pull = .ok (t, g) → t ≠ .endOfInput →
      g.step o t = .ok (w, m) → w.Brackets (codeOpen (o.initialMode == .code) ws) t) ↔
    ¬ (o.initialMode = .code ∧ ['%', '>'] <+: Source.skip text) := by
  constructor
  · rintro h ⟨hmode, hprefix⟩
    obtain ⟨u, rest, hn, hu⟩ := TokenStream.next_eq_markup_iff.2 hprefix
    have hpull : (ofText o text).pull = .ok (u.token, { ofText o text with stream := rest }) := by
      simp only [pull, ofText, hmode, hn]
    have hend : u.token ≠ .endOfInput ∧ u.token ≠ .statement .end_ := by
      constructor <;>
      · intro ht
        rw [ht] at hu
        cases hu
    have hstep : ({ ofText o text with stream := rest } : Formatter).step o u.token =
        .ok (({} : Layout).write o u.token,
          ⟨rest, none, ({} : Layout).after o u.token⟩) := by
      simp [step, ofText, hend.2]
    have hbody := (h [] _ _ _ _ _ (.nil _) hpull hend.1 hstep).body
    simp [Written.leavesCode, codeOpen, Layout.write, Layout.inCode, hmode, hu] at hbody
  · intro h ws f t g w m hw hp ht hs
    have hsound := hw.sound (sound_ofText o text)
    cases hw with
    | nil =>
      refine (hsound.step_brackets ho hp ⟨fun _ => pull_ofText h hp, ?_⟩ hs).1
      exact fun hprevious => absurd rfl hprevious
    | step hp' ht' hs' hr =>
      obtain ⟨-, hprevious, hleaves⟩ := (sound_ofText o text).step_brackets ho hp'
        ⟨fun _ => pull_ofText h hp', fun hprevious => absurd rfl hprevious⟩ hs'
      obtain ⟨hlater, hopen⟩ :=
        hr.codeOpen_eq ho ((sound_ofText o text).step hp' ht' hs') hprevious hleaves
      exact (hsound.step_brackets ho hp ⟨fun h => absurd h hlater, fun _ => hopen⟩ hs).1

/-- Markup behind script, on a page that begins in markup. -/
theorem delimiters_bracket_markup :
    ∃ ws f t g w m, Writes {} (ofText {} "a<%x%>b".toList) ws f ∧ f.pull = .ok (t, g) ∧
      g.step {} t = .ok (w, m) ∧ w.text = " %>b".toList ∧ codeOpen false ws = true ∧
      w.Brackets (codeOpen false ws) t := by
  let s : Layout := ({} : Layout).after {} (.markup ['a'])
  let u : Layout := s.after {} (.identifier ['x'])
  have hmarkup : (ofText {} "a<%x%>b".toList).pull =
      .ok (.markup ['a'], ⟨⟨.ofText .code "x%>b".toList, [], 1⟩, none, {}⟩) := by decide +kernel
  have hpull : (⟨⟨.ofText .code "%>b".toList, [], 1⟩, none, u⟩ : Formatter).pull =
      .ok (.markup ['b'], ⟨⟨⟨.markup, [], true⟩, [], 1⟩, none, u⟩) := by decide +kernel
  have hw : Writes {} (ofText {} "a<%x%>b".toList)
      [({} : Layout).write {} (.markup ['a']), s.write {} (.identifier ['x'])]
      ⟨⟨.ofText .code "%>b".toList, [], 1⟩, none, u⟩ :=
    .step hmarkup (by simp) rfl (.step (t := .identifier ['x']) rfl (by simp) rfl (.nil _))
  refine ⟨_, _, _, _, _, _, hw, hpull, rfl, rfl, rfl, ?_⟩
  exact (delimiters_bracket_iff (o := {}) rfl "a<%x%>b".toList).2 (by simp) _ _ _ _ _ _ hw hpull
    (by simp) rfl

/-- The delimiter in front of an include directive is dropped, and the directive becomes code. -/
theorem not_brackets_include :
    let o : Options := { initialMode := .code }
    let text := "%><!--#include file=\"a\"-->".toList
    format o text = .ok "<!--#include file=\"a\"-->".toList ∧
      ∃ ws f t g w m, Writes o (ofText o text) ws f ∧ f.pull = .ok (t, g) ∧ t ≠ .endOfInput ∧
        g.step o t = .ok (w, m) ∧ t.isMarkupLike = true ∧ w.closes = false ∧
        codeOpen (o.initialMode == .code) ws = true ∧
        ¬ w.Brackets (codeOpen (o.initialMode == .code) ws) t := by
  intro o text
  have hpull : (ofText o text).pull =
      .ok (.directive ⟨.file, ['a']⟩, ⟨⟨⟨.markup, [], true⟩, [], 1⟩, none, {}⟩) := by
    decide +kernel
  refine ⟨by decide +kernel, [], _, _, _, _, _, .nil _, hpull, by simp, rfl, rfl, rfl, rfl, ?_⟩
  intro h
  cases h.body

end Formatter
end ClassicAsp
