import ClassicAsp.Proofs.Indentation
import ClassicAsp.Proofs.WellFormed

/-! Coherence of the layout. What a token leaves for the next one to settle can be told from the
token itself and from where it stands, so that no two of these debts ever meet: a line that a
continuation has indented is dedented before another continuation indents again. -/
namespace ClassicAsp

namespace Layout

variable {o : Options} {s : Layout} {t : Token}

/-- How the parts of a state hang together between two tokens. -/
structure Coherent (o : Options) (s : Layout) : Prop where
  paren : s.afterParen = true ↔ s.previous = .punctuation '('
  start : s.atLineStart = true → s.previous = .start ∨ s.previous = .markup ∨ s.previous = .other
  begins : s.previous = .start ∨ s.previous = .markup → s.atLineStart = true
  code : s.owesCode = true ↔ o.output = .normal ∧ s.previous = .markup
  tabs : s.noTabs = true → s.atLineStart = true ∧ s.previous = .other
  depth : s.continued = true → 1 ≤ s.depth

theorem coherent_default (o : Options) : ({} : Layout).Coherent o where
  paren := by simp
  start := fun _ => .inl rfl
  begins := fun _ => rfl
  code := by simp
  tabs := by simp
  depth := by simp

/-- Settling moves the depth, and leaves nothing of what concerned the beginning of the line. -/
theorem settle_eq (s : Layout) (t : Token) :
    ∃ d, s.settle t =
      { s with
        depth := d
        atLineStart := false
        afterParen := false
        owesCode := s.owesCode && t.isMarkupLike
        noTabs := s.noTabs && !s.atLineStart
        continued := s.continued && !s.atLineStart } := by
  unfold settle
  by_cases hs : s.atLineStart = true
  · simp only [hs, if_true, Bool.not_true, Bool.and_false]
    split
    · split <;> exact ⟨_, rfl⟩
    · split <;> exact ⟨_, rfl⟩
  · rw [Bool.not_eq_true] at hs
    simp only [hs, Bool.false_eq_true, if_false, Bool.not_false, Bool.and_true]
    split
    · exact ⟨_, rfl⟩
    · exact ⟨_, rfl⟩

theorem settle_newline_depth (hs : s.atLineStart = false) :
    (s.settle (.lineEnd .newline)).depth = s.depth := by
  simp [settle, hs, takeParen, Token.isInlineBody]

theorem coherent_mid (hmid : s.atLineStart = false) (hcode : s.owesCode = false)
    (htabs : s.noTabs = false) (hparen : s.afterParen = true ↔ s.previous = .punctuation '(')
    (hstart : s.previous ≠ .start) (hmarkup : s.previous ≠ .markup)
    (hdepth : s.continued = true → 1 ≤ s.depth) : s.Coherent o where
  paren := hparen
  start := by simp [hmid]
  begins := by simp [hstart, hmarkup]
  code := by simp [hcode, hmarkup]
  tabs := by simp [htabs]
  depth := hdepth

theorem coherent_lineEnd (hs : s.atLineStart = true) (hp : s.previous = .other)
    (hcode : s.owesCode = false) (hparen : s.afterParen = false)
    (hdepth : s.continued = true → 1 ≤ s.depth) : s.Coherent o where
  paren := by simp [hparen, hp]
  start := fun _ => .inr (.inr hp)
  begins := fun _ => hs
  code := by simp [hcode, hp]
  tabs := fun _ => ⟨hs, hp⟩
  depth := hdepth

theorem coherent_markup (hs : s.atLineStart = true) (hp : s.previous = .markup)
    (hcode : s.owesCode = true ↔ o.output = .normal) (hparen : s.afterParen = false)
    (htabs : s.noTabs = false) (hdepth : s.continued = true → 1 ≤ s.depth) : s.Coherent o where
  paren := by simp [hparen, hp]
  start := fun _ => .inr (.inl hp)
  begins := fun _ => hs
  code := by simp [hcode, hp]
  tabs := by simp [htabs]
  depth := hdepth

/-- Every token leaves a coherent state, provided that nothing but a newline comes between a
continuation and the line that it indents. -/
theorem Coherent.after (h : s.Coherent o)
    (hc : s.continued = true → s.atLineStart = true ∨ t = .lineEnd .newline) :
    (s.after o t).Coherent o := by
  obtain ⟨d, hd⟩ := settle_eq s t
  have htabs : (s.noTabs && !s.atLineStart) = false := by
    cases hn : s.noTabs with
    | false => rfl
    | true => simp [(h.tabs hn).1]
  have hsettled (ht : t ≠ .lineEnd .newline) : (s.continued && !s.atLineStart) = false := by
    cases hn : s.continued with
    | false => rfl
    | true => simp [(hc hn).resolve_right ht]
  have hcode : (!o.rewrites || s.owesCode) = true ↔ o.output = .normal := by
    have hnormal : s.owesCode = true → o.output = .normal := fun hn => (h.code.1 hn).1
    cases ho : o.output with
    | normal => simp [Options.rewrites, ho]
    | rewrite => simpa [Options.rewrites, ho] using hnormal
  rw [htabs] at hd
  rw [after.eq_def, hd]
  cases t with
  | statement w =>
    rw [hsettled (by simp)]
    dsimp only
    split <;> exact coherent_mid rfl (by simp [indent, Token.isMarkupLike]) rfl
      (by simp [indent, Lookback.ofToken]) (by simp [Lookback.ofToken])
      (by simp [Lookback.ofToken]) (by simp [indent])
  | punctuation c =>
    rw [hsettled (by simp)]
    dsimp only
    split <;> exact coherent_mid rfl (by simp [Token.isMarkupLike]) rfl
      (by simp_all [Lookback.ofToken]) (by simp [Lookback.ofToken])
      (by simp [Lookback.ofToken]) (by simp)
  | lineEnd e =>
    cases e with
    | separator =>
      rw [hsettled (by simp)]
      exact coherent_lineEnd rfl rfl (by simp [Token.isMarkupLike]) rfl (by simp)
    | newline =>
      refine coherent_lineEnd rfl rfl (by simp [endLine, Token.isMarkupLike]) rfl ?_
      intro hcontinued
      simp only [endLine, Bool.and_eq_true, Bool.not_eq_true'] at hcontinued ⊢
      have hdepth := settle_newline_depth hcontinued.2
      rw [hd] at hdepth
      dsimp only at hdepth
      rw [hdepth]
      exact h.depth hcontinued.1
  | continuation =>
    exact coherent_mid rfl (by simp [indent, Token.isMarkupLike]) rfl
      (by simp [indent, Lookback.ofToken]) (by simp [Lookback.ofToken])
      (by simp [Lookback.ofToken]) (by simp [indent])
  | markup | directive =>
    rw [hsettled (by simp)]
    exact coherent_markup rfl rfl (by simpa [Token.isMarkupLike] using hcode) rfl rfl (by simp)
  | _ =>
    rw [hsettled (by simp)]
    exact coherent_mid rfl (by simp [Token.isMarkupLike]) rfl
      (by simp [Lookback.ofToken]) (by simp [Lookback.ofToken])
      (by simp [Lookback.ofToken]) (by simp)

theorem coherent_afterCloser (o : Options) (s : Layout) (w : Statement) :
    (s.afterCloser w).Coherent o :=
  coherent_mid rfl rfl rfl (by simp [afterCloser, beginLine]) (by simp [afterCloser])
    (by simp [afterCloser]) (by simp [afterCloser, beginLine])

theorem continued_after (h : (s.after o t).continued = true) :
    t = .continuation ∨ (s.continued = true ∧ s.atLineStart = false) := by
  obtain ⟨d, hd⟩ := settle_eq s t
  by_cases ht : t = .continuation
  · exact .inl ht
  have hkept : (s.after o t).continued = (s.settle t).continued := by
    rw [after.eq_def]
    cases t with
    | statement w =>
      dsimp only
      split <;> rfl
    | punctuation c =>
      dsimp only
      split <;> rfl
    | lineEnd e => cases e <;> rfl
    | continuation => exact absurd rfl ht
    | _ => rfl
  rw [hkept, hd] at h
  exact .inr (by simpa using h)

end Layout

namespace Formatter

variable {o : Options} {f g m : Formatter} {t : Token} {w : Written}

/-- What a step does with a token. Only an `End` that begins a line pulls another token, to be
written with it or to be kept. -/
inductive Step (o : Options) (f : Formatter) : Token → Written → Formatter → Prop where
  | closer {v k} (hs : f.layout.atLineStart = true) (hp : f.pull = .ok (.statement v, k)) :
      Step o f (.statement .end_) (f.layout.writeCloser o v)
        { k with layout := f.layout.afterCloser v }
  | lookAhead {u k} (hs : f.layout.atLineStart = true) (hp : f.pull = .ok (u, k))
      (hu : ∀ v, u ≠ .statement v) :
      Step o f (.statement .end_) (f.layout.write o (.statement .end_))
        { k with ahead := some u, layout := f.layout.after o (.statement .end_) }
  | single {u} (hu : f.layout.atLineStart = true → u ≠ .statement .end_) :
      Step o f u (f.layout.write o u) { f with layout := f.layout.after o u }

theorem step_cases (h : f.step o t = .ok (w, g)) : Step o f t w g := by
  unfold step at h
  dsimp only at h
  split at h
  · next hend =>
    simp only [Bool.and_eq_true, beq_iff_eq] at hend
    obtain ⟨hs, rfl⟩ := hend
    split at h
    · cases h
    · next v k hp =>
      cases h
      rw [layout_of_pull hp]
      exact .closer hs hp
    · next u k hu hp =>
      cases h
      exact .lookAhead hs hp hu
  · next hend =>
    cases h
    refine .single fun hs ht => ?_
    simp [hs, ht] at hend

/-- Nothing but a newline is left of the line. -/
def EndsLine (f : Formatter) : Prop :=
  ∀ t g, f.pull = .ok (t, g) → t = .lineEnd .newline ∨ t = .endOfInput

theorem EndsLine.congr (h : f.EndsLine) (hahead : g.ahead = f.ahead)
    (hstream : g.stream = f.stream) : g.EndsLine := by
  intro t k hp
  have hpull := pull_layout hp f.layout
  have hf : ({ g with layout := f.layout } : Formatter) = f := by
    rw [hahead, hstream]
  rw [hf] at hpull
  exact h t _ hpull

structure Fed (f : Formatter) : Prop where
  queue : f.stream.QueueSound
  ahead : f.ahead = some .continuation → ({ f with ahead := none } : Formatter).EndsLine

theorem fed_ofText (o : Options) (text : Text) : (ofText o text).Fed where
  queue := TokenStream.queueSound_ofText o.initialMode text
  ahead := by simp [ofText]

theorem Fed.pull (hf : f.Fed) (h : f.pull = .ok (t, g)) :
    g.Fed ∧ (t = .continuation → g.EndsLine) := by
  have hahead := pull_ahead h
  unfold Formatter.pull at h
  split at h
  · next u hu =>
    cases h
    refine ⟨⟨hf.queue, by simp⟩, ?_⟩
    rintro rfl
    exact hf.ahead hu
  · next ha =>
    split at h
    · cases h
    · next x rest hn =>
      cases h
      have hqueue := hf.queue.next
      rw [hn] at hqueue
      refine ⟨⟨hqueue, by simp [ha]⟩, fun hx => ?_⟩
      obtain ⟨v, u, hv, hadmits⟩ := (hf.queue.drawn hn).2 (.inl hx)
      rw [hx] at hadmits
      intro y k hy
      simp only [Formatter.pull, ha, hv] at hy
      cases hy
      exact hadmits

structure Sound (o : Options) (f : Formatter) : Prop where
  layout : f.layout.Coherent o
  fed : f.Fed
  /-- Behind a continuation the line ends before anything else is written. -/
  continued : f.layout.continued = true → f.layout.atLineStart = true ∨ f.EndsLine

theorem sound_ofText (o : Options) (text : Text) : (ofText o text).Sound o where
  layout := Layout.coherent_default o
  fed := fed_ofText o text
  continued := by simp [ofText]

theorem Sound.continued_pull (hf : f.Sound o) (hp : f.pull = .ok (t, g))
    (ht : t ≠ .endOfInput) (hc : g.layout.continued = true) :
    g.layout.atLineStart = true ∨ t = .lineEnd .newline := by
  rw [layout_of_pull hp] at hc ⊢
  rcases hf.continued hc with hs | hend
  · exact .inl hs
  · exact .inr ((hend t g hp).resolve_right ht)

theorem Sound.step (hf : f.Sound o) (hp : f.pull = .ok (t, g)) (ht : t ≠ .endOfInput)
    (hs : g.step o t = .ok (w, m)) : m.Sound o := by
  obtain ⟨hg, hends⟩ := hf.fed.pull hp
  have hlayout : g.layout.Coherent o := layout_of_pull hp ▸ hf.layout
  have hafter := hlayout.after (hf.continued_pull hp ht)
  cases step_cases hs with
  | closer hstart hq =>
    obtain ⟨hk, -⟩ := hg.pull hq
    refine ⟨Layout.coherent_afterCloser o _ _, ⟨hk.queue, ?_⟩, ?_⟩
    · intro ha
      rw [pull_ahead hq] at ha
      cases ha
    · intro hc
      cases hc
  | lookAhead hstart hq hu =>
    obtain ⟨hk, hkends⟩ := hg.pull hq
    refine ⟨hafter, ⟨hk.queue, ?_⟩, ?_⟩
    · intro ha
      exact (hkends (Option.some.inj ha)).congr (pull_ahead hq).symm rfl
    · intro hc
      rcases Layout.continued_after hc with he | ⟨-, hmid⟩
      · cases he
      · rw [hstart] at hmid
        cases hmid
  | single hsingle =>
    refine ⟨hafter, ⟨hg.queue, ?_⟩, ?_⟩
    · intro ha
      rw [pull_ahead hp] at ha
      cases ha
    · intro hc
      rcases Layout.continued_after hc with he | ⟨hcont, hmid⟩
      · exact .inr ((hends he).congr rfl rfl)
      · rcases hf.continued_pull hp ht hcont with hstart | rfl
        · rw [hstart] at hmid
          cases hmid
        · exact .inl rfl

theorem Writes.sound {ws : List Written} (hw : Writes o f ws g) (hf : f.Sound o) : g.Sound o := by
  induction hw with
  | nil => exact hf
  | step hp ht hs _ ih => exact ih (hf.step hp ht hs)

/-- Between any two steps the state is coherent, and a token is kept for the next step only behind
an `End` that was written alone. -/
theorem writes_coherent {text : Text} {ws : List Written} (hf : Writes o (ofText o text) ws f) :
    f.layout.Coherent o ∧
      (∀ g, f.pull = .ok (.continuation, g) →
        (g.layout.settle .continuation).continued = false) ∧
      ∀ t g w m u, f.pull = .ok (t, g) → t ≠ .endOfInput → g.step o t = .ok (w, m) →
        m.ahead = some u →
        f.layout.atLineStart = true ∧ t = .statement .end_ ∧ w = f.layout.write o t ∧
          m.layout = f.layout.after o t ∧ ∀ v, u ≠ .statement v := by
  have hsound := hf.sound (sound_ofText o text)
  refine ⟨hsound.layout, ?_, ?_⟩
  · intro g hp
    obtain ⟨d, hd⟩ := g.layout.settle_eq .continuation
    rw [hd]
    cases hc : g.layout.continued with
    | false => rfl
    | true =>
      rcases hsound.continued_pull hp (by simp) hc with hs | ht
      · simp [hs]
      · cases ht
  · intro t g w m u hp ht hs hu
    rw [← layout_of_pull hp]
    cases step_cases hs with
    | closer hstart hq =>
      rw [pull_ahead hq] at hu
      cases hu
    | lookAhead hstart hq hne =>
      cases hu
      exact ⟨hstart, rfl, rfl, rfl, hne⟩
    | single hsingle =>
      rw [pull_ahead hp] at hu
      cases hu

/-- An underscore alone on a line that the line before has continued. -/
theorem writes_coherent_continued :
    ∃ ws f g, Writes { initialMode := .code } (ofText { initialMode := .code } "a _\n_\nb".toList)
        ws f ∧
      f.layout.continued = true ∧ f.layout.depth = 1 ∧ f.pull = .ok (.continuation, g) ∧
      (g.layout.settle .continuation).continued = false := by
  have hw : Writes { initialMode := .code }
      (ofText { initialMode := .code } "a _\n_\nb".toList) _ _ :=
    .step (t := .identifier ['a']) rfl (by simp) rfl
      (.step (t := .continuation) rfl (by simp) rfl
        (.step (t := .lineEnd .newline) rfl (by simp) rfl (.nil _)))
  exact ⟨_, _, _, hw, rfl, rfl, rfl, (writes_coherent hw).2.1 _ rfl⟩

end Formatter
end ClassicAsp
