import ClassicAsp.Proofs.Depth

/-! Indentation. Depth is a counter, moved by single words and by what stands before them. Over
lines that are nested in blocks it counts the blocks around each line, whatever the depth outside
is. -/
namespace ClassicAsp

namespace Layout

variable {o : Options} {s : Layout} {t : Token} {d : ℕ}

/-- A line at a depth: tabs, and then what it is on its own. Blank lines have no tabs. -/
def line (o : Options) (n : ℕ) (l : List Token) : Text :=
  (if l = [.lineEnd .newline] then [] else tabs n) ++ lay o {} l

def Indents (o : Options) (s : Layout) (l : List Token) (n d : ℕ) : Prop :=
  ∃ u, Lays o s l (line o n l) u ∧ u.Start d

theorem Start.indents {k : ℕ} (hs : s.Start d) (ho : o.rewrites = false) (ht : t.goesOn = true)
    (hend : t ≠ .statement .end_) {r e : List Token} (hr : ∀ t ∈ r, t.goesOn = true)
    (he : LineTail e) (hk : ((s.after o t).leave o r).Mid k) :
    Indents o s (t :: (r ++ e)) (s.lineDepth t) k := by
  have hleave : ((s.after o t).leave o (r ++ e)).Start k := by
    rw [leave_append]
    exact hk.lineTail o he
  obtain ⟨m, rfl, hm⟩ := he.split
  have hrm : ∀ t ∈ r ++ m, t.goesOn = true := by
    simp only [List.mem_append]
    rintro u (hu | hu)
    · exact hr u hu
    · exact hm u hu
  have hblank : t :: (r ++ (m ++ [.lineEnd .newline])) ≠ [.lineEnd .newline] := by
    intro h
    rw [(List.cons.inj h).1] at ht
    cases ht
  have h := hs.lays ho ht hend hrm
  rw [List.append_assoc] at h
  refine ⟨_, ?_, hleave⟩
  rw [line, if_neg hblank]
  exact h

theorem Start.indents_closer (hs : s.Start d) (ho : o.rewrites = false) (w : Statement)
    {e : List Token} (he : LineTail e) :
    Indents o s (.statement .end_ :: .statement w :: e) (d - 1) (d - 1) := by
  have hleave := (hs.afterCloser w).lineTail o he
  obtain ⟨m, rfl, hm⟩ := he.split
  refine ⟨_, ?_, hleave⟩
  rw [line, if_neg (by simp)]
  exact hs.lays_closer ho w hm

theorem Start.word (hs : s.Start d) (o : Options) (w : Statement) :
    (s.after o (.statement w)).Mid ((if w.dedents then d - 1 else d) +
      if Statement.openers.contains w || w == .elseIf || w == .else_ then 1 else 0) := by
  have h := hs.after o (t := .statement w) rfl
  rw [opens, hs.opensBlock_eq] at h
  exact h

theorem lineDepth_word (hs : s.Start d) (w : Statement) :
    s.lineDepth (.statement w) = if w.dedents then d - 1 else d := by
  rw [lineDepth, hs.depth]
  rfl

theorem Start.not_moves (hs : s.Start d) (ht : t.isInert false = true)
    (hw : ∀ w ∈ closers, t ≠ .statement w) : t.dedents = false ∧ s.opens t = false := by
  cases t with
  | statement w =>
    have hclosers : w ∉ closers := fun h => hw w h rfl
    have hopeners : w ∉ Statement.openers := by
      rw [Token.isInert, Bool.and_eq_true] at ht
      simpa using ht.2
    rw [opens, hs.opensBlock_eq]
    cases w <;> simp_all [closers, Statement.openers, Token.dedents, Statement.dedents]
  | _ => exact ⟨rfl, rfl⟩

theorem Start.blank (hs : s.Start d) (ho : o.rewrites = false) :
    Indents o s [.lineEnd .newline] d d := by
  have htext {s : Layout} {d : ℕ} (hs : s.Start d) :
      (s.write o (.lineEnd .newline)).text = ['\n'] := by
    have hskip : s.skipsTabs o (.lineEnd .newline) = true := by simp [Layout.skipsTabs]
    have hbody : s.body o (.lineEnd .newline) = ['\n'] := by simp [body, ho]
    simp [Written.text, write, hs.start, hs.code, hskip, hbody, Token.isMarkupLike]
  have hlays {s : Layout} {d : ℕ} (hs : s.Start d) :
      Lays o s [.lineEnd .newline] ['\n'] (s.after o (.lineEnd .newline)) := by
    rw [← List.append_nil ['\n'], ← htext hs]
    exact .token (by simp) (.nil _)
  refine ⟨_, ?_, hs.newline o⟩
  rw [line, if_pos rfl, (hlays start_default).lay_eq ho]
  exact hlays hs

theorem Start.singleLine (hs : s.Start d) (ho : o.rewrites = false) {l : List Token}
    (hl : SingleLine l) : Indents o s l d d := by
  cases hl with
  | empty he =>
    cases he with
    | newline => exact hs.blank ho
    | comment x =>
      have h := hs.indents ho (t := .comment x) rfl (by simp) (r := []) (by simp) .newline
        (hs.after o (t := .comment x) rfl)
      rw [lineDepth, hs.depth] at h
      exact h
  | @simple r e hr hw he =>
    obtain ⟨hne, hr⟩ := hr
    obtain ⟨t, r, rfl⟩ := List.exists_cons_of_ne_nil hne
    rw [Token.areInert, Bool.and_eq_true] at hr
    have hhead : ∀ w ∈ closers, t ≠ .statement w := by simpa using hw
    obtain ⟨hdedents, hopens⟩ := hs.not_moves hr.1 hhead
    have hmid := hs.after o (Token.goesOn_of_isInert hr.1)
    rw [hdedents, hopens] at hmid
    have hrest := Mid.inert_rest hmid hr.1 hr.2
    have h := hs.indents ho (Token.goesOn_of_isInert hr.1) (hhead .end_ (by simp [closers]))
      (Token.goesOn_of_areInert hr.2) he hrest
    rw [lineDepth, hdedents, hs.depth] at h
    exact h
  | @inlineIf c r e hc hr he =>
    have hcond := inert_behind (hs.word o .if_) (by simp) hc
    have hbody := (hcond.1.then_ o hcond.2).inlineBody o (by rw [previousIs_after]; rfl) hr
    rw [← leave_cons, ← leave_append] at hbody
    have h := hs.indents ho (t := .statement .if_) rfl (by simp)
      (r := c ++ .statement .then_ :: r) ?_ he hbody
    · rw [lineDepth_word hs, List.append_assoc] at h
      exact h
    · simp only [List.mem_append, List.mem_cons]
      rintro t (ht | rfl | ht)
      · exact Token.goesOn_of_areInert hc.inert t ht
      · rfl
      · exact Token.goesOn_of_areInert hr.inert t ht

theorem Start.indents_word {k : ℕ} (hs : s.Start d) (ho : o.rewrites = false) {w : Statement}
    (hw : w ≠ .end_) {r e : List Token} (hr : ∀ t ∈ r, t.goesOn = true) (he : LineTail e)
    (hk : ((s.after o (.statement w)).leave o r).Mid k) :
    Indents o s (.statement w :: (r ++ e)) (if w.dedents then d - 1 else d) k := by
  have h := hs.indents ho (t := .statement w) rfl (by simpa using hw) hr he hk
  rw [lineDepth_word hs] at h
  exact h

theorem Start.indents_behind {k : ℕ} (hs : s.Start d) (ho : o.rewrites = false) {w : Statement}
    (hw : w ∉ [Statement.then_, .exit]) (hend : w ≠ .end_) {c e : List Token} (hc : Inert c)
    (he : LineTail e) (hk : (s.after o (.statement w)).Mid k) :
    Indents o s (.statement w :: (c ++ e)) (if w.dedents then d - 1 else d) k :=
  hs.indents_word ho hend (Token.goesOn_of_areInert hc.inert) he (inert_behind hk hw hc).1

theorem Start.indents_then {k : ℕ} (hs : s.Start d) (ho : o.rewrites = false) {w : Statement}
    (hw : w ∉ [Statement.then_, .exit]) (hend : w ≠ .end_) {c e : List Token} (hc : Inert c)
    (he : LineTail e) (hk : (s.after o (.statement w)).Mid k) :
    Indents o s (.statement w :: (c ++ .statement .then_ :: e))
      (if w.dedents then d - 1 else d) k := by
  have hcond := inert_behind hk hw hc
  have hthen := hcond.1.then_ o hcond.2
  have h := hs.indents_word ho hend (r := c ++ [.statement .then_]) ?_ he
    (by rw [leave_append]; exact hthen)
  · rw [List.append_assoc] at h
    exact h
  · simp only [List.mem_append, List.mem_singleton]
    rintro t (ht | rfl)
    · exact Token.goesOn_of_areInert hc.inert t ht
    · rfl

theorem Mid.modifiers (hs : s.Mid d) (o : Options) (hthen : s.previousIs .then_ = false)
    (hexit : s.previousIs .exit = false) {ms : List Statement}
    (hms : ∀ m ∈ ms, m ∈ [Statement.public_, .private_, .default]) {w : Statement}
    (hw : w ∈ [Statement.sub, .function, .class_, .property, .with_]) :
    (((s.leave o (ms.map .statement)).after o (.statement w)).Mid (d + 1)) := by
  induction ms generalizing s with
  | nil =>
    have hopens : s.opens (.statement w) = true := by
      rw [opens]
      simp only [List.mem_cons, List.not_mem_nil, or_false] at hw
      rcases hw with rfl | rfl | rfl | rfl | rfl <;> simp [opensBlock, hexit]
    have h := hs.after o (t := .statement w) rfl
    rw [hthen, hopens] at h
    exact h
  | cons m ms ih =>
    rw [List.forall_mem_cons] at hms
    have hm := hms.1
    simp only [List.mem_cons, List.not_mem_nil, or_false] at hm
    apply ih _ _ _ hms.2
    · apply hs.inert o hthen
      rcases hm with rfl | rfl | rfl <;> simp [Token.isInert, Statement.openers]
    · rw [previousIs_after]
      rcases hm with rfl | rfl | rfl <;> rfl
    · rw [previousIs_after]
      rcases hm with rfl | rfl | rfl <;> rfl

theorem Start.modifiers (hs : s.Start d) (o : Options) {ms : List Statement}
    (hms : ∀ m ∈ ms, m ∈ [Statement.public_, .private_, .default]) {w : Statement}
    (hw : w ∈ [Statement.sub, .function, .class_, .property, .with_]) :
    ((s.leave o (ms.map .statement)).after o (.statement w)).Mid (d + 1) := by
  cases ms with
  | nil =>
    have h := hs.word o w
    simp only [List.mem_cons, List.not_mem_nil, or_false] at hw
    rcases hw with rfl | rfl | rfl | rfl | rfl <;> exact h
  | cons m ms =>
    rw [List.forall_mem_cons] at hms
    have hm := hms.1
    simp only [List.mem_cons, List.not_mem_nil, or_false] at hm
    have hmid : (s.after o (.statement m)).Mid d := by
      have h := hs.word o m
      rcases hm with rfl | rfl | rfl <;> exact h
    apply hmid.modifiers o _ _ hms.2 hw
    · rw [previousIs_after]
      rcases hm with rfl | rfl | rfl <;> rfl
    · rw [previousIs_after]
      rcases hm with rfl | rfl | rfl <;> rfl

theorem Start.header (hs : s.Start d) (ho : o.rewrites = false) {b : Block} {l : List Token}
    (hl : Header b l) : Indents o s l d (d + 1) := by
  cases hl with
  | ifThen hc he => exact hs.indents_then ho (by simp) (by simp) hc he (hs.word o .if_)
  | @named ms w c e hms hw hc he =>
    have hbehind : w ∉ [Statement.then_, .exit] ∧ w ≠ .end_ ∧ w.dedents = false := by
      simp only [List.mem_cons, List.not_mem_nil, or_false] at hw
      rcases hw with rfl | rfl | rfl | rfl | rfl <;> decide
    have hmid := (inert_behind (hs.modifiers o hms hw) hbehind.1 hc).1
    -- the tabs of a line are those of its first word, which may be a modifier
    cases ms with
    | nil =>
      have h := hs.indents_word ho hbehind.2.1 (Token.goesOn_of_areInert hc.inert) he hmid
      rw [hbehind.2.2] at h
      exact h
    | cons m ms =>
      have hm := hms m List.mem_cons_self
      have hfirst : m ≠ .end_ ∧ m.dedents = false := by
        simp only [List.mem_cons, List.not_mem_nil, or_false] at hm
        rcases hm with rfl | rfl | rfl <;> decide
      rw [← leave_cons, ← leave_append, List.map_cons, List.cons_append, leave_cons] at hmid
      have h := hs.indents_word ho hfirst.1 (r := ms.map .statement ++ .statement w :: c) ?_ he hmid
      · rw [hfirst.2, List.append_assoc] at h
        exact h
      · simp only [List.mem_append, List.mem_cons, List.mem_map]
        rintro t (⟨v, -, rfl⟩ | rfl | ht)
        · rfl
        · rfl
        · exact Token.goesOn_of_areInert hc.inert t ht
  | forNext hc he => exact hs.indents_behind ho (by simp) (by simp) hc he (hs.word o .for_)
  | whileWend hc he => exact hs.indents_behind ho (by simp) (by simp) hc he (hs.word o .while_)
  | doLoop hc he =>
    exact hs.indents_word ho (by simp) hc.goesOn he
      ((hs.word o .do_).condition o (.inl (by rw [previousIs_after]; rfl)) hc)
  | @select c e hc he =>
    have hselect := hs.word o .select
    have hcase := hselect.after o (t := .statement .case) rfl
    rw [previousIs_after, opens, opensBlock, previousIs_after] at hcase
    refine hs.indents_word ho (w := .select) (by simp) (r := .statement .case :: c) ?_ he
      (inert_behind hcase (by simp) hc).1
    rw [List.forall_mem_cons]
    exact ⟨rfl, Token.goesOn_of_areInert hc.inert⟩

theorem Start.divider (hs : s.Start (d + 1)) (ho : o.rewrites = false) {b c : Block}
    {l : List Token} (hl : Divider b c l) : Indents o s l d (d + 1) := by
  cases hl with
  | elseIf hc he => exact hs.indents_then ho (by simp) (by simp) hc he (hs.word o .elseIf)
  | else_ he => exact hs.indents_word ho (by simp) (r := []) (by simp) he (hs.word o .else_)
  | case hc he => exact hs.indents_behind ho (by simp) (by simp) hc he (hs.word o .case)

theorem Start.closer (hs : s.Start (d + 1)) (ho : o.rewrites = false) {b : Block}
    {l : List Token} (hl : Closer b l) : Indents o s l d d := by
  cases hl with
  | endIf hb he => exact hs.indents_closer ho .if_ he
  | endNamed w he => exact hs.indents_closer ho w he
  | next hc he =>
    rcases hc with rfl | hc
    · exact hs.indents_word ho (by simp) (r := []) (by simp) he (hs.word o .next)
    · exact hs.indents_behind ho (by simp) (by simp) hc he (hs.word o .next)
  | loop hc he =>
    exact hs.indents_word ho (by simp) hc.goesOn he
      ((hs.word o .loop).condition o (.inr (by rw [previousIs_after]; rfl)) hc)
  | wend he => exact hs.indents_word ho (by simp) (r := []) (by simp) he (hs.word o .wend)
  | endSelect he => exact hs.indents_closer ho .select he

def lines (o : Options) (d : ℕ) (ls : NestedLines) : Text :=
  ls.flatMap fun p => line o (d + p.1) p.2

@[simp] theorem lines_cons (o : Options) (d n : ℕ) (l : List Token) (ls : NestedLines) :
    lines o d ((n, l) :: ls) = line o (d + n) l ++ lines o d ls := by
  simp [lines]

@[simp] theorem lines_append (o : Options) (d : ℕ) (ls ms : NestedLines) :
    lines o d (ls ++ ms) = lines o d ls ++ lines o d ms := by
  simp [lines]

@[simp] theorem lines_inside (o : Options) (d : ℕ) (ls : NestedLines) :
    lines o d ls.inside = lines o (d + 1) ls := by
  simp only [lines, NestedLines.inside, List.flatMap_map]
  congr 1
  funext p
  rw [Nat.add_right_comm, Nat.add_assoc]

theorem Indents.append {n d e : ℕ} {l ts : List Token} {x : Text} (h : Indents o s l n d)
    (h' : ∀ {u : Layout}, u.Start d → ∃ v, Lays o u ts x v ∧ v.Start e) :
    ∃ v, Lays o s (l ++ ts) (line o n l ++ x) v ∧ v.Start e := by
  obtain ⟨u, hl, hu⟩ := h
  obtain ⟨v, hts, hv⟩ := h' hu
  exact ⟨v, hl.append hts, hv⟩

@[simp]
theorem inside_tokens (ls : NestedLines) : ls.inside.flatMap Prod.snd = ls.flatMap Prod.snd := by
  simp [NestedLines.inside, List.flatMap_map]

/-- Balanced lines leave the depth as it was before the first of them, or before the header of the
block that they close. -/
theorem Start.balanced (hs : s.Start d) (ho : o.rewrites = false) {b : Option Block}
    {ls : NestedLines} (h : Balanced b ls) {k : ℕ} (hd : d = k + if b.isSome then 1 else 0) :
    ∃ u, Lays o s (ls.flatMap Prod.snd) (lines o k ls) u ∧ u.Start k := by
  induction h generalizing s d k with
  | nil =>
    subst hd
    exact ⟨s, .nil s, hs⟩
  | single hl _ ih =>
    subst hd
    rw [lines_cons]
    exact (hs.singleLine ho hl).append fun hu => ih hu rfl
  | block hl _ _ ihb ih =>
    subst hd
    rw [lines_cons, lines_append, List.flatMap_cons, List.flatMap_append]
    refine (hs.header ho hl).append fun hu => ?_
    obtain ⟨v, hv, hstart⟩ := ihb hu rfl
    obtain ⟨w, hw, hend⟩ := ih hstart rfl
    exact ⟨w, hv.append hw, hend⟩
  | divide _ hl _ ihb ih =>
    subst hd
    rw [lines_append, lines_inside, lines_cons, List.flatMap_append, inside_tokens,
      List.flatMap_cons]
    obtain ⟨v, hv, hstart⟩ := ihb hs rfl
    obtain ⟨w, hw, hend⟩ := (hstart.divider ho hl).append fun hu => ih hu rfl
    exact ⟨w, hv.append hw, hend⟩
  | close _ hl ihb =>
    subst hd
    rw [lines_append, lines_inside, lines_cons, List.flatMap_append, inside_tokens,
      List.flatMap_cons]
    obtain ⟨v, hv, hstart⟩ := ihb hs rfl
    obtain ⟨w, hw, hend⟩ := (hstart.closer ho hl).append fun hu => ⟨_, .nil _, hu⟩
    exact ⟨w, hv.append hw, hend⟩

structure Orderly (s : Layout) : Prop where
  start : s.atLineStart = true → s.previous = .start ∨ s.previous = .markup ∨ s.previous = .other
  code : s.owesCode = true → s.previous = .markup

theorem orderly_after (o : Options) (s : Layout) (t : Token) : (s.after o t).Orderly := by
  have hprevious : (s.after o t).previous = .ofToken t := rfl
  by_cases ht : t.isMarkupLike = true
  · have hmarkup : (s.after o t).previous = .markup := by
      rw [hprevious]
      cases t with
      | markup | directive => rfl
      | _ => cases ht
    exact ⟨fun _ => .inr (.inl hmarkup), fun _ => hmarkup⟩
  · have ht : t.isMarkupLike = false := by simpa using ht
    refine ⟨fun hs => ?_, fun hc => ?_⟩
    · by_cases he : ∃ e, t = .lineEnd e
      · obtain ⟨e, rfl⟩ := he
        exact .inr (.inr hprevious)
      · rw [(behind_after o s ht fun e h => he ⟨e, h⟩).mid] at hs
        cases hs
    · rw [owesCode_after o s ht] at hc
      cases hc

theorem orderly_afterCloser (s : Layout) (w : Statement) : (s.afterCloser w).Orderly :=
  ⟨fun h => Bool.noConfusion ((behind_closer s w).mid.symm.trans h),
    fun h => Bool.noConfusion ((behind_closer s w).code.symm.trans h)⟩

/-- At the beginning of a line of script there is nothing left to settle but the tabs that a
separator or a continuation has changed. -/
theorem Orderly.begins (h : s.Orderly) (hs : s.atLineStart = true) (hm : s.previous ≠ .markup)
    (htabs : s.noTabs = false) (hsingle : s.continued = false) : s.Start s.depth where
  start := hs
  fresh := by
    rcases h.start hs with hp | hp | hp
    · exact .inl hp
    · exact absurd hp hm
    · exact .inr hp
  code := by
    by_contra hc
    exact hm (h.code (by simpa using hc))
  tabbed := htabs
  single := hsingle
  depth := rfl

end Layout

namespace Formatter

variable {o : Options} {f g : Formatter} {t : Token}

theorem orderly_step {w : Written} (hs : f.step o t = .ok (w, g)) : g.layout.Orderly := by
  unfold step at hs
  dsimp only at hs
  split at hs
  · split at hs
    · cases hs
    · cases hs
      exact Layout.orderly_afterCloser _ _
    · cases hs
      exact Layout.orderly_after o _ t
  · cases hs
    exact Layout.orderly_after o _ t

theorem Writes.orderly {ws : List Written} (hw : Writes o f ws g) (hf : f.layout.Orderly) :
    g.layout.Orderly := by
  induction hw with
  | nil => exact hf
  | step _ _ hs _ ih => exact ih (orderly_step hs)

/-- Where a line of script begins, balanced lines are indented by the blocks around them, and the
depth behind them is the one before. -/
theorem writes_balanced (ho : o.output = .normal) {text : Text} {before : List Written}
    (hf : Writes o (ofText o text) before f) (hs : f.layout.atLineStart = true)
    (hm : f.layout.previous ≠ .markup) (htabs : f.layout.noTabs = false)
    (hsingle : f.layout.continued = false) {ls : NestedLines} (hb : Balanced none ls)
    (hg : f.Gives (ls.flatMap Prod.snd) g) :
    ∃ ws last, Writes o f ws { g with layout := last } ∧
      ws.flatMap Written.text = Layout.lines o f.layout.depth ls ∧
      last.depth = f.layout.depth ∧ last.atLineStart = true ∧ last.previous ≠ .markup ∧
      last.noTabs = false ∧ last.continued = false := by
  have horderly : f.layout.Orderly := hf.orderly ⟨fun _ => .inl rfl, fun h => by cases h⟩
  have ho : o.rewrites = false := by
    rw [Options.rewrites, ho]
    rfl
  obtain ⟨u, hl, hu⟩ := (horderly.begins hs hm htabs hsingle).balanced ho hb rfl
  obtain ⟨ws, hw, ht⟩ := writes_of_lays hl hg rfl
  exact ⟨ws, u, hw, ht, hu.depth, hu.start, hu.previous_ne, hu.tabbed, hu.single⟩

/-- A method in a class, with a loop that an inline `If` leaves. The class is open before it. -/
theorem writes_balanced_method :
    ∃ (before ws : List Written) (f g : Formatter) (last : Layout),
      Writes { initialMode := .code } (ofText { initialMode := .code }
        "class c\nsub f\ndo while a\nif b then exit sub\nloop\nend sub\n".toList) before f ∧
      f.layout.atLineStart = true ∧ f.layout.depth = 1 ∧
      Writes { initialMode := .code } f ws { g with layout := last } ∧
      ws.flatMap Written.text =
        "\tSub f\n\t\tDo While a\n\t\t\tIf b Then Exit Sub\n\t\tLoop\n\tEnd Sub\n".toList ∧
      last.depth = 1 := by
  obtain ⟨ls, hls⟩ : ∃ ls : NestedLines, ls =
      [(0, [.statement .sub, .identifier ['f'], .lineEnd .newline]),
        (1, [.statement .do_, .statement .while_, .identifier ['a'], .lineEnd .newline]),
        (2, [.statement .if_, .identifier ['b'], .statement .then_, .statement .exit,
          .statement .sub, .lineEnd .newline]),
        (1, [.statement .loop, .lineEnd .newline]),
        (0, [.statement .end_, .statement .sub, .lineEnd .newline])] := ⟨_, rfl⟩
  have hname (c : Char) : Inert [.identifier [c]] := ⟨by simp, rfl⟩
  have hexit : Inert [.statement .exit, .statement .sub] := ⟨by simp, by decide⟩
  have hnamed (w : Statement) (hw : w ∈ [Statement.sub, .function, .class_, .property, .with_])
      (c : Char) : Header (.named w) (([] : List Statement).map .statement ++
        [.statement w, .identifier [c], .lineEnd .newline]) :=
    .named (by simp) hw (hname c) .newline
  have hloop : Balanced (some .doLoop) [(1, [.statement .if_, .identifier ['b'], .statement .then_,
      .statement .exit, .statement .sub, .lineEnd .newline]),
      (0, [.statement .loop, .lineEnd .newline])] :=
    .close (.single (.inlineIf (hname 'b') hexit .newline) .nil) (.loop .none .newline)
  have hsub : Balanced none ls := by
    rw [hls]
    exact .block (hnamed .sub (by simp) 'f')
      (.close (.block (.doLoop (.while_ (hname 'a')) .newline) hloop .nil)
        (.endNamed .sub .newline)) .nil
  obtain ⟨text, htext⟩ : ∃ text, text =
      "class c\nsub f\ndo while a\nif b then exit sub\nloop\nend sub\n".toList := ⟨_, rfl⟩
  obtain ⟨m, g, hm, hg⟩ : ∃ m g, (ofText { initialMode := .code } text).Gives
      [.statement .class_, .identifier ['c'], .lineEnd .newline] m ∧
        m.Gives (ls.flatMap Prod.snd) g := by
    have hread : (tokenize .code text).map (List.map Spelled.token) =
        .ok ([.statement .class_, .identifier ['c'], .lineEnd .newline] ++
          ls.flatMap Prod.snd ++ [.endOfInput]) := by
      rw [htext, hls]
      decide +kernel
    obtain ⟨toks, htoks, hmap⟩ := Source.map_eq_ok hread
    obtain ⟨ps, hps, heq⟩ := reads_of_tokenize htoks
    have hdraws := hps.draws 1
    rw [(List.append_inj' (heq.symm.trans hmap) rfl).1] at hdraws
    obtain ⟨m, hm, hd, ha⟩ := gives_of_draws (f := ofText { initialMode := .code } text) rfl hdraws
    rw [← List.append_nil (ls.flatMap Prod.snd)] at hd
    obtain ⟨g, hg, -⟩ := gives_of_draws ha hd
    exact ⟨m, g, hm, hg⟩
  obtain ⟨u, hl, hu⟩ := Layout.start_default.header (o := { initialMode := .code }) rfl
    (hnamed .class_ (by simp) 'c')
  obtain ⟨before, hbefore, -⟩ := writes_of_lays hl hm rfl
  obtain ⟨ws, last, hw, ht, hd, -⟩ := writes_balanced (o := { initialMode := .code }) rfl hbefore
    hu.start hu.previous_ne hu.tabbed hu.single hsub (hg.layout_irrel u)
  have hdepth : ({ m with layout := u } : Formatter).layout.depth = 1 := hu.depth
  rw [← htext]
  refine ⟨before, ws, _, _, last, hbefore, hu.start, hdepth, hw, ?_, hd.trans hdepth⟩
  rw [ht, hdepth, hls]
  decide +kernel

end Formatter

end ClassicAsp
