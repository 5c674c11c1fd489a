import ClassicAsp.Proofs.Layout
import Mathlib.Data.Nat.Notation

/-! Lines of script that are nested in blocks. Every block has a line that opens it and one that
closes it, and some have lines between their bodies; all else stands on lines by itself. -/
namespace ClassicAsp

/-- The words that open a block wherever they stand, but right behind `Exit`. -/
def Statement.openers : List Statement :=
  [.if_, .function, .sub, .class_, .property, .for_, .with_, .while_, .case, .do_]

namespace Token

def isInert (afterExit : Bool) : Token → Bool
  | .lineEnd _ | .continuation | .comment _ | .markup _ | .directive _ => false
  | .statement w => w != .then_ && (afterExit || !Statement.openers.contains w)
  | _ => true

def goesOn : Token → Bool
  | .lineEnd _ | .continuation | .markup _ | .directive _ => false
  | _ => true

theorem of_goesOn (t : Token) (h : t.goesOn = true) :
    t.isMarkupLike = false ∧ ∀ e, t ≠ .lineEnd e := by
  cases t with
  | lineEnd | markup | directive => cases h
  | _ => exact ⟨rfl, by simp⟩

theorem isInert_ne_then {t : Token} {b : Bool} (ht : t.isInert b = true) :
    (t == .statement .then_) = false := by
  cases t with
  | statement w =>
    rw [isInert, Bool.and_eq_true, bne_iff_ne] at ht
    simpa using ht.1
  | _ => rfl

theorem goesOn_of_isInert {t : Token} {b : Bool} (ht : t.isInert b = true) : t.goesOn = true := by
  cases t with
  | lineEnd | continuation | markup | directive => cases ht
  | _ => rfl

def areInert (afterExit : Bool) : List Token → Bool
  | [] => true
  | t :: ts => t.isInert afterExit && areInert (t == .statement .exit) ts

theorem goesOn_of_areInert {b : Bool} {ts : List Token} (h : areInert b ts = true) :
    ∀ t ∈ ts, t.goesOn = true := by
  induction ts generalizing b with
  | nil => simp
  | cons t ts ih =>
    rw [areInert, Bool.and_eq_true] at h
    rw [List.forall_mem_cons]
    exact ⟨goesOn_of_isInert h.1, ih h.2⟩

end Token

structure Inert (ts : List Token) : Prop where
  nonempty : ts ≠ []
  inert : Token.areInert false ts = true

inductive LineTail : List Token → Prop where
  | newline : LineTail [.lineEnd .newline]
  | comment (s : Text) : LineTail [.comment s, .lineEnd .newline]

theorem LineTail.split {e : List Token} (he : LineTail e) :
    ∃ m, e = m ++ [.lineEnd .newline] ∧ ∀ t ∈ m, t.goesOn = true := by
  cases he with
  | newline => exact ⟨[], rfl, by simp⟩
  | comment x => exact ⟨[.comment x], rfl, by simp [Token.goesOn]⟩

def closers : List Statement := [.end_, .else_, .elseIf, .case, .wend, .next, .loop]

/-- A line by itself: a blank one, a comment, a simple statement, or an `If` with its statement on
the same line. -/
inductive SingleLine : List Token → Prop where
  | empty {e} (he : LineTail e) : SingleLine e
  | simple {r e} (hr : Inert r) (hw : ∀ w ∈ closers, r.head? ≠ some (.statement w))
      (he : LineTail e) : SingleLine (r ++ e)
  | inlineIf {c r e} (hc : Inert c) (hr : Inert r) (he : LineTail e) :
      SingleLine (.statement .if_ :: (c ++ .statement .then_ :: (r ++ e)))

inductive Block where
  | ifThen
  | ifElse
  | named (word : Statement)
  | forNext
  | doLoop
  | whileWend
  | select
  deriving DecidableEq

inductive Condition : List Token → Prop where
  | none : Condition []
  | while_ {c} (hc : Inert c) : Condition (.statement .while_ :: c)
  | until_ {c} (hc : Inert c) : Condition (.statement .until_ :: c)

theorem Condition.goesOn {c : List Token} (hc : Condition c) : ∀ t ∈ c, t.goesOn = true := by
  cases hc with
  | none => simp
  | while_ hc | until_ hc =>
    rw [List.forall_mem_cons]
    exact ⟨rfl, Token.goesOn_of_areInert hc.inert⟩

inductive Header : Block → List Token → Prop where
  | ifThen {c e} (hc : Inert c) (he : LineTail e) :
      Header .ifThen (.statement .if_ :: (c ++ .statement .then_ :: e))
  | named {ms : List Statement} {w c e} (hms : ∀ m ∈ ms, m ∈ [.public_, .private_, .default])
      (hw : w ∈ [.sub, .function, .class_, .property, .with_]) (hc : Inert c) (he : LineTail e) :
      Header (.named w) (ms.map .statement ++ .statement w :: (c ++ e))
  | forNext {c e} (hc : Inert c) (he : LineTail e) :
      Header .forNext (.statement .for_ :: (c ++ e))
  | doLoop {c e} (hc : Condition c) (he : LineTail e) :
      Header .doLoop (.statement .do_ :: (c ++ e))
  | whileWend {c e} (hc : Inert c) (he : LineTail e) :
      Header .whileWend (.statement .while_ :: (c ++ e))
  | select {c e} (hc : Inert c) (he : LineTail e) :
      Header .select (.statement .select :: .statement .case :: (c ++ e))

inductive Divider : Block → Block → List Token → Prop where
  | elseIf {c e} (hc : Inert c) (he : LineTail e) :
      Divider .ifThen .ifThen (.statement .elseIf :: (c ++ .statement .then_ :: e))
  | else_ {e} (he : LineTail e) : Divider .ifThen .ifElse (.statement .else_ :: e)
  | case {c e} (hc : Inert c) (he : LineTail e) :
      Divider .select .select (.statement .case :: (c ++ e))

inductive Closer : Block → List Token → Prop where
  | endIf {b e} (hb : b = .ifThen ∨ b = .ifElse) (he : LineTail e) :
      Closer b (.statement .end_ :: .statement .if_ :: e)
  | endNamed (w) {e} (he : LineTail e) :
      Closer (.named w) (.statement .end_ :: .statement w :: e)
  | next {c e} (hc : c = [] ∨ Inert c) (he : LineTail e) :
      Closer .forNext (.statement .next :: (c ++ e))
  | loop {c e} (hc : Condition c) (he : LineTail e) :
      Closer .doLoop (.statement .loop :: (c ++ e))
  | wend {e} (he : LineTail e) : Closer .whileWend (.statement .wend :: e)
  | endSelect {e} (he : LineTail e) :
      Closer .select (.statement .end_ :: .statement .select :: e)

/-- Lines with the number of blocks around them. -/
abbrev NestedLines := List (ℕ × List Token)

def NestedLines.inside (ls : NestedLines) : NestedLines := ls.map fun p => (p.1 + 1, p.2)

/-- The lines of a program, or of a block behind its header. The lines that divide a block and close
it stand where its header does. -/
inductive Balanced : Option Block → NestedLines → Prop where
  | nil : Balanced none []
  | single {l ls} (hl : SingleLine l) (h : Balanced none ls) : Balanced none ((0, l) :: ls)
  | block {b l ls ms} (hl : Header b l) (hb : Balanced (some b) ls) (h : Balanced none ms) :
      Balanced none ((0, l) :: (ls ++ ms))
  | divide {b c l ls ms} (hb : Balanced none ls) (hl : Divider b c l)
      (h : Balanced (some c) ms) : Balanced (some b) (ls.inside ++ (0, l) :: ms)
  | close {b l ls} (hb : Balanced none ls) (hl : Closer b l) :
      Balanced (some b) (ls.inside ++ [(0, l)])

/-! Depth within a line. The first word of a line may close the block above and open another, the
words behind it open one by what stands before them, and the rest is written alike at any depth. -/

namespace Layout

variable {o : Options} {s : Layout} {t : Token} {d : ℕ}

structure Start (s : Layout) (d : ℕ) : Prop where
  start : s.atLineStart = true
  fresh : s.previous = .start ∨ s.previous = .other
  code : s.owesCode = false
  tabbed : s.noTabs = false
  single : s.continued = false
  depth : s.depth = d

structure Mid (s : Layout) (d : ℕ) : Prop where
  mid : s.atLineStart = false
  code : s.owesCode = false
  tabbed : s.noTabs = false
  single : s.continued = false
  depth : s.depth = d

def opens (s : Layout) : Token → Bool
  | .statement w => s.opensBlock w
  | _ => false

theorem write_depth (ho : o.rewrites = false) (hs : s.atLineStart = false)
    (ht : t.isMarkupLike = false) (k : ℕ) :
    ({ s with depth := k } : Layout).write o t = s.write o t := by
  have hprinted (s : Layout) : s.body o t = t.printed :=
    body_eq_printed o s ht fun h => by rw [ho] at h; cases h
  have hspaces : ({ s with depth := k } : Layout).spaces t = s.spaces t := by
    cases t <;> rfl
  have hstart : ({ s with depth := k } : Layout).atLineStart = false := hs
  rw [write, write, hprinted, hprinted, hspaces, hstart]
  rfl

theorem settle_depth (hs : s.atLineStart = false) (k : ℕ) :
    ∃ j, ({ s with depth := k } : Layout).settle t = { s.settle t with depth := j } := by
  unfold settle
  simp only [hs, Bool.false_eq_true, if_false, takeParen, previousIs]
  split
  · exact ⟨_, rfl⟩
  · exact ⟨_, rfl⟩

/-- What a token leaves depends on no more than what it settles and whether it opens a block. -/
theorem after_congr {s' : Layout} {j : ℕ} {p : Lookback}
    (hsettle : s'.settle t = { s.settle t with depth := j, previous := p })
    (hopens : s'.opens t = s.opens t) :
    ∃ f : ℕ → ℕ, (s.after o t).depth = f (s.settle t).depth ∧
      s'.after o t = { s.after o t with depth := f j } := by
  rw [after.eq_def, after.eq_def, hsettle]
  cases t with
  | statement w =>
    have hopens : s'.opensBlock w = s.opensBlock w := hopens
    simp only [hopens]
    split
    · exact ⟨(· + 1), rfl, rfl⟩
    · exact ⟨id, rfl, rfl⟩
  | punctuation c =>
    dsimp only
    split
    · exact ⟨id, rfl, rfl⟩
    · exact ⟨id, rfl, rfl⟩
  | lineEnd e => cases e <;> exact ⟨id, rfl, rfl⟩
  | continuation => exact ⟨(· + 1), rfl, rfl⟩
  | _ => exact ⟨id, rfl, rfl⟩

theorem after_depth (hs : s.atLineStart = false) (k : ℕ) :
    ∃ j, ({ s with depth := k } : Layout).after o t = { s.after o t with depth := j } := by
  obtain ⟨j, hj⟩ := settle_depth (t := t) hs k
  obtain ⟨f, -, hf⟩ := after_congr (o := o) hj (by cases t <;> rfl)
  exact ⟨f j, hf⟩

def leave (o : Options) (s : Layout) (ts : List Token) : Layout := ts.foldl (after o) s

@[simp] theorem leave_append (o : Options) (s : Layout) (ts us : List Token) :
    s.leave o (ts ++ us) = (s.leave o ts).leave o us := List.foldl_append

@[simp] theorem leave_cons (o : Options) (s : Layout) (t : Token) (ts : List Token) :
    s.leave o (t :: ts) = (s.after o t).leave o ts := rfl

/-- The middle of a line is written alike at every depth. -/
theorem lays_depth (ho : o.rewrites = false) {r : List Token}
    (hr : ∀ t ∈ r, t.goesOn = true) (hs : s.atLineStart = false) (k : ℕ) :
    ∃ x j, Lays o s r x (s.leave o r) ∧
      Lays o { s with depth := k } r x { s.leave o r with depth := j } ∧
      (s.leave o r).atLineStart = false := by
  induction r generalizing s k with
  | nil => exact ⟨[], k, .nil s, .nil _, hs⟩
  | cons t r ih =>
    have ht := hr t List.mem_cons_self
    obtain ⟨hscript, hline⟩ := t.of_goesOn ht
    have hnext := (behind_after o s hscript hline).mid
    obtain ⟨i, hi⟩ := after_depth (o := o) (t := t) hs k
    obtain ⟨x, j, hx, hy, hmid⟩ := ih (fun u hu => hr u (List.mem_cons_of_mem _ hu)) hnext i
    refine ⟨_, j, .token (fun h => ?_) hx, ?_, hmid⟩
    · rw [hs] at h
      cases h
    · rw [← write_depth ho hs hscript k]
      refine .token (fun h => ?_) (hi ▸ hy)
      have hmid : s.atLineStart = true := h
      rw [hs] at hmid
      cases hmid

theorem lays_rest (ho : o.rewrites = false) {r : List Token} (hr : ∀ t ∈ r, t.goesOn = true)
    (hs : s.atLineStart = false) (k : ℕ) :
    ∃ x u, Lays o s (r ++ [.lineEnd .newline]) x (s.leave o (r ++ [.lineEnd .newline])) ∧
      Lays o { s with depth := k } (r ++ [.lineEnd .newline]) x u := by
  obtain ⟨x, j, hx, hy, hmid⟩ := lays_depth ho hr hs k
  have hnl (u : Layout) : Lays o u [.lineEnd .newline]
      ((u.write o (.lineEnd .newline)).text ++ []) (u.after o (.lineEnd .newline)) :=
    .token (by simp) (.nil _)
  refine ⟨_, _, ?_, hy.append (hnl _)⟩
  rw [leave_append, write_depth ho hmid rfl]
  exact hx.append (hnl _)

theorem start_default : ({} : Layout).Start 0 := ⟨rfl, .inl rfl, rfl, rfl, rfl, rfl⟩

theorem Start.previousIs (hs : s.Start d) (w : Statement) : s.previousIs w = false := by
  rw [Layout.previousIs]
  rcases hs.fresh with h | h
  · rw [h]
    rfl
  · rw [h]
    rfl

theorem Start.previous_ne (hs : s.Start d) : s.previous ≠ .markup := by
  rcases hs.fresh with h | h
  · rw [h]
    simp
  · rw [h]
    simp

theorem Start.skipsTabs (hs : s.Start d) (ho : o.rewrites = false) (hn : t ≠ .lineEnd .newline) :
    s.skipsTabs o t = false := by
  have hprevious : (s.previous == .markup) = false := by simpa using hs.previous_ne
  have hnewline : (t == .lineEnd .newline) = false := by simpa using hn
  rw [Layout.skipsTabs, hs.tabbed, ho, hprevious, hnewline]
  rfl

theorem Start.text_eq (hs : s.Start d) (ho : o.rewrites = false) (ht : t.isMarkupLike = false)
    (hn : t ≠ .lineEnd .newline) :
    (s.write o t).text = tabs (s.lineDepth t) ++ (({} : Layout).write o t).text := by
  have hprinted (s : Layout) : s.body o t = t.printed :=
    body_eq_printed o s ht fun h => by rw [ho] at h; cases h
  have hdepth : ({} : Layout).lineDepth t = 0 := by
    rw [lineDepth]
    split
    · rfl
    · rfl
  simp only [Written.text, write, hs.start, hs.code, hs.skipsTabs ho hn,
    start_default.skipsTabs ho hn, hprinted, hdepth, ht, Bool.false_and, Bool.false_eq_true,
    if_true, if_false, List.nil_append, List.append_nil]
  rfl

theorem Start.settle_eq (hs : s.Start d) (t : Token) :
    s.settle t =
      ⟨if t.dedents then d - 1 else d, false, s.previous, false, false, false, false⟩ := by
  have hthen := hs.previousIs .then_
  obtain ⟨hstart, -, hcode, htabs, hsingle, hdepth⟩ := hs
  obtain ⟨depth, start, previous, paren, code, tabs, continued⟩ := s
  dsimp only [Layout.previousIs] at hstart hcode htabs hsingle hdepth hthen
  subst hstart hcode htabs hsingle hdepth
  unfold settle
  cases t.dedents
  · simp [beginLine, Layout.previousIs, hthen]
  · simp [beginLine, dedent, Layout.previousIs, hthen]

theorem Start.opensBlock_eq (hs : s.Start d) (w : Statement) :
    s.opensBlock w = (Statement.openers.contains w || w == .elseIf || w == .else_) := by
  cases w <;> simp [opensBlock.eq_def, hs.previousIs, hs.start, Statement.openers]

theorem Start.after_eq (hs : s.Start d) (o : Options) (t : Token) :
    ∃ j, ({} : Layout).after o t = { s.after o t with depth := j } := by
  have hopens : ({} : Layout).opens t = s.opens t := by
    cases t with
    | statement w => rw [opens, opens, hs.opensBlock_eq, start_default.opensBlock_eq]
    | _ => rfl
  have hsettle : ({} : Layout).settle t =
      { s.settle t with depth := if t.dedents then 0 - 1 else 0, previous := .start } := by
    rw [hs.settle_eq, start_default.settle_eq]
  obtain ⟨f, -, hf⟩ := after_congr (o := o) hsettle hopens
  exact ⟨_, hf⟩

theorem Start.lays (hs : s.Start d) (ho : o.rewrites = false) (ht : t.goesOn = true)
    (hend : t ≠ .statement .end_) {r : List Token} (hr : ∀ t ∈ r, t.goesOn = true) :
    Lays o s (t :: (r ++ [.lineEnd .newline]))
      (tabs (s.lineDepth t) ++ lay o {} (t :: (r ++ [.lineEnd .newline])))
      ((s.after o t).leave o (r ++ [.lineEnd .newline])) := by
  obtain ⟨hscript, hline⟩ := t.of_goesOn ht
  obtain ⟨j, hj⟩ := hs.after_eq o t
  obtain ⟨x, u, hx, hy⟩ := lays_rest ho hr (behind_after o s hscript hline).mid j
  rw [← hj] at hy
  have hown := (Lays.token (fun _ => hend) hy).lay_eq ho
  rw [hown, ← List.append_assoc, ← hs.text_eq ho hscript (hline _)]
  exact .token (fun _ => hend) hx

theorem Start.lays_closer (hs : s.Start d) (ho : o.rewrites = false) (w : Statement)
    {r : List Token} (hr : ∀ t ∈ r, t.goesOn = true) :
    Lays o s (.statement .end_ :: .statement w :: (r ++ [.lineEnd .newline]))
      (tabs (d - 1) ++
        lay o {} (.statement .end_ :: .statement w :: (r ++ [.lineEnd .newline])))
      ((s.afterCloser w).leave o (r ++ [.lineEnd .newline])) := by
  have htext : (s.writeCloser o w).text = tabs (d - 1) ++ (({} : Layout).writeCloser o w).text := by
    have hend : Token.statement .end_ ≠ .lineEnd .newline := by simp
    simp only [Written.text, writeCloser, hs.skipsTabs ho hend, start_default.skipsTabs ho hend,
      hs.code, hs.depth, Bool.false_eq_true, if_false, List.nil_append, List.append_nil]
    rfl
  have hafter : ({} : Layout).afterCloser w = { s.afterCloser w with depth := 0 } := by
    obtain ⟨hstart, -, hcode, htabs, hsingle, -⟩ := hs
    simp [afterCloser, dedent, beginLine, hsingle]
  obtain ⟨x, u, hx, hy⟩ := lays_rest ho hr (behind_closer s w).mid 0
  rw [← hafter] at hy
  have hown := (Lays.closer rfl hy).lay_eq ho
  rw [hown, ← List.append_assoc, ← htext]
  exact .closer hs.start hx

theorem Start.settle (hs : s.Start d) (t : Token) :
    (s.settle t).Mid (if t.dedents then d - 1 else d) := by
  rw [hs.settle_eq]
  exact ⟨rfl, rfl, rfl, rfl, rfl⟩

theorem Mid.settle_eq (hs : s.Mid d) (t : Token) :
    s.settle t =
      ⟨if s.previousIs .then_ && t.isInlineBody then d - 1 else d, false, s.previous, false, false,
        false, false⟩ := by
  obtain ⟨hmid, hcode, htabs, hsingle, hdepth⟩ := hs
  have hsettle : s.settle t = if s.previousIs .then_ && t.isInlineBody
      then { s with owesCode := false, afterParen := false, depth := s.depth - 1 }
      else { s with owesCode := false, afterParen := false } := by
    unfold Layout.settle
    simp only [hmid, hcode, Bool.false_and, Bool.false_eq_true, if_false]
    rfl
  rw [hsettle]
  split
  · rw [hmid, htabs, hsingle, hdepth]
  · rw [hmid, htabs, hsingle, hdepth]

theorem Mid.settle (hs : s.Mid d) (t : Token) :
    (s.settle t).Mid (if s.previousIs .then_ && t.isInlineBody then d - 1 else d) := by
  rw [hs.settle_eq]
  exact ⟨rfl, rfl, rfl, rfl, rfl⟩

theorem mid_after {o : Options} (ht : t.goesOn = true) (h : (s.settle t).Mid d) :
    (s.after o t).Mid (d + if s.opens t then 1 else 0) := by
  obtain ⟨hmid, hcode, htabs, hsingle, hdepth⟩ := h
  cases t with
  | statement w =>
    obtain hw | hw := Bool.eq_false_or_eq_true (s.opensBlock w)
    · simp only [opens, after.eq_def, hw, if_true]
      exact ⟨hmid, hcode, htabs, hsingle, congrArg (· + 1) hdepth⟩
    · simp only [opens, after.eq_def, hw, Bool.false_eq_true, if_false]
      exact ⟨hmid, hcode, htabs, hsingle, hdepth⟩
  | punctuation c =>
    simp only [after.eq_def]
    split
    · exact ⟨hmid, hcode, htabs, hsingle, hdepth⟩
    · exact ⟨hmid, hcode, htabs, hsingle, hdepth⟩
  | lineEnd | continuation | markup | directive => cases ht
  | _ => exact ⟨hmid, hcode, htabs, hsingle, hdepth⟩

theorem Mid.after (hs : s.Mid d) (o : Options) (ht : t.goesOn = true) :
    (s.after o t).Mid ((if s.previousIs .then_ && t.isInlineBody then d - 1 else d) +
      if s.opens t then 1 else 0) := mid_after ht (hs.settle t)

theorem Start.after (hs : s.Start d) (o : Options) (ht : t.goesOn = true) :
    (s.after o t).Mid ((if t.dedents then d - 1 else d) + if s.opens t then 1 else 0) :=
  mid_after ht (hs.settle t)

theorem start_newline (o : Options) (h : (s.settle (.lineEnd .newline)).Mid d) :
    (s.after o (.lineEnd .newline)).Start d :=
  ⟨rfl, .inr rfl, h.code, h.tabbed, h.single, h.depth⟩

theorem Mid.newline (hs : s.Mid d) (o : Options) : (s.after o (.lineEnd .newline)).Start d := by
  have h := hs.settle (.lineEnd .newline)
  rw [Token.isInlineBody, Bool.and_false] at h
  exact start_newline o h

theorem Start.newline (hs : s.Start d) (o : Options) :
    (s.after o (.lineEnd .newline)).Start d := start_newline o (hs.settle _)

theorem Start.afterCloser (hs : s.Start d) (w : Statement) : (s.afterCloser w).Mid (d - 1) := by
  refine ⟨rfl, rfl, rfl, rfl, ?_⟩
  rw [Layout.afterCloser, beginLine, dedent]
  simp [hs.single, hs.depth]

theorem Mid.lineTail (hs : s.Mid d) (o : Options) {e : List Token} (he : LineTail e) :
    (s.leave o e).Start d := by
  cases he with
  | newline => exact hs.newline o
  | comment x =>
    have h : (s.after o (.comment x)).Mid d := by
      have h := hs.after o (t := .comment x) rfl
      rw [Token.isInlineBody, Bool.and_false] at h
      exact h
    exact h.newline o

@[simp] theorem previousIs_after (o : Options) (s : Layout) (t : Token) (w : Statement) :
    (s.after o t).previousIs w = (t == .statement w) := by
  have hprevious : (s.after o t).previous = .ofToken t := rfl
  rw [previousIs, hprevious, Bool.eq_iff_iff, beq_iff_eq, beq_iff_eq]
  cases t <;> simp [Lookback.ofToken]

theorem previousIs_of_ne {v w : Statement} (h : s.previousIs v = true) (hw : w ≠ v) :
    s.previousIs w = false := by
  rw [previousIs, beq_iff_eq] at h
  rw [previousIs, h]
  simpa using hw.symm

theorem Mid.not_opens (hs : s.Mid d) (ht : t.isInert (s.previousIs .exit) = true) :
    s.opens t = false := by
  cases t with
  | statement w =>
    have hw : w ∉ Statement.openers ∨ s.previousIs .exit = true := by
      rw [Token.isInert, Bool.and_eq_true, Bool.or_eq_true] at ht
      rcases ht.2 with h | h
      · exact .inr h
      · exact .inl (by simpa using h)
    rw [opens]
    cases w <;> simp_all [opensBlock.eq_def, Statement.openers, hs.mid]
  | _ => rfl

theorem Mid.inert (hs : s.Mid d) (o : Options) (hthen : s.previousIs .then_ = false)
    (ht : t.isInert (s.previousIs .exit) = true) : (s.after o t).Mid d := by
  have h := hs.after o (Token.goesOn_of_isInert ht)
  rw [hthen, hs.not_opens ht] at h
  exact h

theorem Mid.areInert (hs : s.Mid d) (o : Options) {r : List Token}
    (hthen : s.previousIs .then_ = false) (hr : Token.areInert (s.previousIs .exit) r = true) :
    (s.leave o r).Mid d ∧ (s.leave o r).previousIs .then_ = false := by
  induction r generalizing s with
  | nil => exact ⟨hs, hthen⟩
  | cons t r ih =>
    rw [Token.areInert, Bool.and_eq_true] at hr
    apply ih (hs.inert o hthen hr.1)
    · simp [Token.isInert_ne_then hr.1]
    · rw [previousIs_after]
      exact hr.2

theorem Mid.inert_rest {b : Bool} (h : (s.after o t).Mid d) (ht : t.isInert b = true)
    {r : List Token} (hr : Token.areInert (t == .statement .exit) r = true) :
    ((s.after o t).leave o r).Mid d := by
  refine (h.areInert o ?_ ?_).1
  · simp [Token.isInert_ne_then ht]
  · rw [previousIs_after]
    exact hr

theorem inert_behind {o : Options} {w : Statement} (h : (s.after o (.statement w)).Mid d)
    (hw : w ∉ [Statement.then_, .exit]) {c : List Token} (hc : Inert c) :
    ((s.after o (.statement w)).leave o c).Mid d ∧
      ((s.after o (.statement w)).leave o c).previousIs .then_ = false := by
  apply h.areInert
  · rw [previousIs_after]
    simp_all
  · rw [previousIs_after]
    have hexit : (Token.statement w == .statement .exit) = false := by simp_all
    rw [hexit]
    exact hc.inert

theorem Mid.then_ (hs : s.Mid d) (o : Options) (hthen : s.previousIs .then_ = false) :
    (s.after o (.statement .then_)).Mid d := by
  have h := hs.after o (t := .statement .then_) rfl
  rw [hthen] at h
  exact h

theorem Mid.inlineBody (hs : s.Mid d) (o : Options) (hthen : s.previousIs .then_ = true)
    {r : List Token} (hr : Inert r) : (s.leave o r).Mid (d - 1) := by
  obtain ⟨hne, hr⟩ := hr
  obtain ⟨t, r, rfl⟩ := List.exists_cons_of_ne_nil hne
  have hexit : s.previousIs .exit = false := previousIs_of_ne hthen (by simp)
  rw [Token.areInert, Bool.and_eq_true, ← hexit] at hr
  have hbody : t.isInlineBody = true := by
    cases t with
    | comment => cases hr.1
    | lineEnd | markup | directive => cases hr.1
    | _ => rfl
  have h := hs.after o (Token.goesOn_of_isInert hr.1)
  rw [hthen, hbody, hs.not_opens hr.1] at h
  exact Mid.inert_rest h hr.1 hr.2

theorem Mid.condition (hs : s.Mid d) (o : Options)
    (hword : s.previousIs .do_ = true ∨ s.previousIs .loop = true) {c : List Token}
    (hc : Condition c) : (s.leave o c).Mid d := by
  have hthen : s.previousIs .then_ = false := by
    rcases hword with h | h
    · exact previousIs_of_ne h (by simp)
    · exact previousIs_of_ne h (by simp)
  cases hc with
  | none => exact hs
  | while_ hc =>
    have hcloses : s.opensBlock .while_ = false := by
      rw [opensBlock]
      rcases hword with h | h
      · simp [h]
      · simp [h]
    have h := hs.after o (t := .statement .while_) rfl
    rw [hthen, opens, hcloses] at h
    exact (inert_behind h (by simp) hc).1
  | until_ hc =>
    have h := hs.after o (t := .statement .until_) rfl
    rw [hthen, opens, opensBlock.eq_def] at h
    exact (inert_behind h (by simp) hc).1

end Layout

end ClassicAsp
