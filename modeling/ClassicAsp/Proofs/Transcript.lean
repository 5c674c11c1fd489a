import ClassicAsp.Format
import ClassicAsp.Proofs.Reading

/-! The formatted page as a function of its tokens. The formatter draws and writes by turns; what
comes of it is a recursion over the tokens that looks one token ahead. -/
namespace ClassicAsp

def opening (o : Options) : Text := if o.rewrites then ['<', '%', '\n'] else []

namespace Layout

def ending (o : Options) (s : Layout) : Text :=
  if o.rewrites then (if s.atLineStart then [] else ['\n']) ++ ['%', '>', '\n'] else []

def Closes (s : Layout) (t : Token) (ts : List Token) : Prop :=
  s.atLineStart = true ∧ t = .statement .end_ ∧ ∃ w us, ts = .statement w :: us

section Walk

variable {α : Type} (o : Options) (last : Layout → α) (closer : Layout → Statement → α → α)
  (single : Layout → Token → α → α)

/-- A recursion over the steps of the formatter, each of which is a block closer or a single token.
-/
def walk : Layout → List Token → α
  | s, [] => last s
  | s, .statement .end_ :: .statement w :: ts =>
    if s.atLineStart then closer s w (walk (s.afterCloser w) ts)
    else single s (.statement .end_) (walk (s.after o (.statement .end_)) (.statement w :: ts))
  | s, t :: ts => single s t (walk (s.after o t) ts)

@[simp]
theorem walk_closer {s : Layout} (h : s.atLineStart = true) (w : Statement) (ts : List Token) :
    walk o last closer single s (.statement .end_ :: .statement w :: ts) =
      closer s w (walk o last closer single (s.afterCloser w) ts) := by
  rw [walk, if_pos h]

@[simp] theorem walk_cons {s : Layout} {t : Token} {ts : List Token} (h : ¬ s.Closes t ts) :
    walk o last closer single s (t :: ts) =
      single s t (walk o last closer single (s.after o t) ts) := by
  by_cases hc : t = .statement .end_ ∧ ∃ w us, ts = .statement w :: us
  · obtain ⟨rfl, w, us, rfl⟩ := hc
    rw [walk, if_neg fun hs => h ⟨hs, rfl, w, us, rfl⟩]
  · exact walk.eq_3 o last closer single s t ts fun w us ht hts => hc ⟨ht, w, us, hts⟩

theorem walk_induction {motive : Layout → List Token → Prop}
    (nil : ∀ s, motive s [])
    (closer : ∀ s w ts, s.atLineStart = true → motive (s.afterCloser w) ts →
      motive s (.statement .end_ :: .statement w :: ts))
    (cons : ∀ s t ts, ¬ s.Closes t ts → motive (s.after o t) ts → motive s (t :: ts))
    (s : Layout) (ts : List Token) : motive s ts := by
  induction s, ts using walk.induct o with
  | case1 s => exact nil s
  | case2 s w ts h ih => exact closer s w ts h ih
  | case3 s w ts h ih => exact cons _ _ _ (fun hc => h hc.1) ih
  | case4 s t ts h ih => exact cons _ _ _ (fun ⟨_, ht, w, us, hts⟩ => h w us ht hts) ih

end Walk

/-- The text of the tokens from a state on, to the end of the page. -/
def lay (o : Options) : Layout → List Token → Text :=
  walk o (ending o) (fun s w rest => (s.writeCloser o w).text ++ rest)
    fun s t rest => (s.write o t).text ++ rest

@[simp]
theorem lay_nil (o : Options) (s : Layout) : lay o s [] = s.ending o := rfl

@[simp] theorem lay_closer (o : Options) {s : Layout} (h : s.atLineStart = true) (w : Statement)
    (ts : List Token) :
    lay o s (.statement .end_ :: .statement w :: ts) =
      (s.writeCloser o w).text ++ lay o (s.afterCloser w) ts :=
  walk_closer o _ _ _ h w ts

@[simp]
theorem lay_cons (o : Options) {s : Layout} {t : Token} {ts : List Token} (h : ¬ s.Closes t ts) :
    lay o s (t :: ts) = (s.write o t).text ++ lay o (s.after o t) ts :=
  walk_cons o _ _ _ h

/-- Tokens that are written as a text, and the state that they leave. An `End` that begins a line
has its word behind it. -/
inductive Lays (o : Options) : Layout → List Token → Text → Layout → Prop where
  | nil (s) : Lays o s [] [] s
  | closer {s w ts x u} (hs : s.atLineStart = true) (h : Lays o (s.afterCloser w) ts x u) :
      Lays o s (.statement .end_ :: .statement w :: ts) ((s.writeCloser o w).text ++ x) u
  | token {s t ts x u} (ht : s.atLineStart = true → t ≠ .statement .end_)
      (h : Lays o (s.after o t) ts x u) : Lays o s (t :: ts) ((s.write o t).text ++ x) u

theorem Lays.append {o : Options} {s : Layout} {ts us : List Token} {x y : Text} {u v : Layout}
    (h : Lays o s ts x u) (h' : Lays o u us y v) : Lays o s (ts ++ us) (x ++ y) v := by
  induction h with
  | nil => exact h'
  | closer hs _ ih =>
    rw [List.append_assoc]
    exact .closer hs (ih h')
  | token ht _ ih =>
    rw [List.append_assoc]
    exact .token ht (ih h')

theorem Lays.lay_eq {o : Options} {s : Layout} {ts : List Token} {x : Text} {u : Layout}
    (ho : o.rewrites = false) (h : Lays o s ts x u) : lay o s ts = x := by
  induction h with
  | nil s =>
    rw [lay_nil, ending, ho]
    rfl
  | closer hs _ ih => simp [hs, ih]
  | token ht _ ih => rw [lay_cons o fun hc => ht hc.1 hc.2.1, ih]

end Layout

namespace Formatter

def Pulls (f : Formatter) (ts : List Token) : Prop :=
  match f.ahead with
  | none => Draws f.stream ts
  | some .endOfInput => ts = []
  | some t => ∃ us, ts = t :: us ∧ Draws f.stream us

theorem pull_nil {f : Formatter} (h : f.Pulls []) :
    ∃ g, f.pull = .ok (.endOfInput, g) ∧ g.layout = f.layout := by
  unfold Pulls at h
  unfold pull
  split at h
  · next ha =>
    rw [ha]
    cases h with
    | ended hn he =>
      obtain ⟨rest, hn⟩ : ∃ rest, f.stream.next = (.ok _, rest) := ⟨_, by rw [← hn]⟩
      dsimp only
      rw [hn]
      dsimp only
      rw [he]
      exact ⟨_, rfl, rfl⟩
  · next ha =>
    rw [ha]
    exact ⟨_, rfl, rfl⟩
  · obtain ⟨us, hu, -⟩ := h
    cases hu

theorem pull_cons {f : Formatter} {t : Token} {ts : List Token} (h : f.Pulls (t :: ts)) :
    ∃ g, f.pull = .ok (t, g) ∧ t ≠ .endOfInput ∧ g.ahead = none ∧ g.layout = f.layout ∧
      Draws g.stream ts := by
  unfold Pulls at h
  unfold pull
  split at h
  · next ha =>
    rw [ha]
    dsimp only
    generalize hts : t :: ts = us at h
    cases h with
    | ended hn he => cases hts
    | draw hn he hr =>
      cases hts
      rw [hn]
      exact ⟨_, rfl, he, rfl, rfl, hr⟩
  · cases h
  · next u hne ha =>
    obtain ⟨us, hu, hd⟩ := h
    cases hu
    rw [ha]
    exact ⟨_, rfl, fun he => hne he, rfl, rfl, hd⟩

theorem pulls_of_draws {f : Formatter} {ts : List Token} (ha : f.ahead = none)
    (h : Draws f.stream ts) : f.Pulls ts := by
  unfold Pulls
  rw [ha]
  exact h

theorem step_closer (o : Options) {f : Formatter} {w : Statement} {ts : List Token}
    (hs : f.layout.atLineStart = true) (ha : f.ahead = none)
    (h : Draws f.stream (.statement w :: ts)) :
    ∃ g, f.step o (.statement .end_) = .ok (f.layout.writeCloser o w, g) ∧
      g.layout = f.layout.afterCloser w ∧ g.Pulls ts := by
  obtain ⟨g, hg, -, hga, hgl, hgd⟩ := pull_cons (pulls_of_draws ha h)
  refine ⟨{ g with layout := g.layout.afterCloser w }, ?_, by rw [hgl], pulls_of_draws hga hgd⟩
  simp only [step, hs, beq_self_eq_true, Bool.and_self, if_true, hg, hgl]

theorem step_single (o : Options) {f : Formatter} {t : Token} {ts : List Token}
    (hc : ¬ f.layout.Closes t ts) (ha : f.ahead = none) (h : Draws f.stream ts) :
    ∃ g, f.step o t = .ok (f.layout.write o t, g) ∧ g.layout = f.layout.after o t ∧
      g.Pulls ts := by
  by_cases hw : (f.layout.atLineStart && t == .statement .end_) = true
  · obtain ⟨hs, ht⟩ := Bool.and_eq_true_iff.1 hw
    have ht : t = .statement .end_ := by simpa using ht
    cases ts with
    | nil =>
      obtain ⟨g, hg, hgl⟩ := pull_nil (pulls_of_draws ha h)
      refine ⟨{ g with ahead := some .endOfInput, layout := f.layout.after o t }, ?_, rfl, rfl⟩
      simp only [step, hw, if_true, hg]
    | cons u us =>
      obtain ⟨g, hg, hu, hga, hgl, hgd⟩ := pull_cons (pulls_of_draws ha h)
      have hne : ∀ w, u ≠ .statement w := fun w hu => hc ⟨hs, ht, w, us, by rw [hu]⟩
      refine ⟨{ g with ahead := some u, layout := f.layout.after o t }, ?_, rfl, ?_⟩
      · simp only [step, hw, if_true, hg]
      · unfold Pulls
        dsimp only
        split
        · next he => cases he
        · next he => exact absurd (Option.some.inj he) hu
        · next he => cases he; exact ⟨us, rfl, hgd⟩
  · refine ⟨{ f with layout := f.layout.after o t }, ?_, rfl, pulls_of_draws ha h⟩
    simp only [step, hw, Bool.false_eq_true, if_false]

theorem run_end {o : Options} {f g : Formatter} (h : f.pull = .ok (.endOfInput, g))
    (written : List Written) : run o written f = .ok (written.reverse, g.layout) := by
  rw [run]
  split
  · next e => rw [h] at e; cases e
  · next e =>
    rw [h] at e
    cases e
    rw [dif_pos rfl]

theorem run_step {o : Options} {f g rest : Formatter} {t : Token} {w : Written}
    (h : f.pull = .ok (t, g)) (ht : t ≠ .endOfInput) (hs : g.step o t = .ok (w, rest))
    (written : List Written) : run o written f = run o (w :: written) rest := by
  rw [run]
  split
  · next e => rw [h] at e; cases e
  · next e =>
    rw [h] at e
    cases e
    rw [dif_neg ht]
    split
    · next e => rw [hs] at e; cases e
    · next e =>
      rw [hs] at e
      cases e
      rfl

/-- A run writes the text of its tokens behind what has been written. -/
theorem run_eq (o : Options) {f : Formatter} {ts : List Token} (h : f.Pulls ts)
    (written : List Written) :
    ∃ ws last, f.run o written = .ok (written.reverse ++ ws, last) ∧
      ws.flatMap Written.text ++ last.ending o = f.layout.lay o ts := by
  obtain ⟨s, hs⟩ : ∃ s, s = f.layout := ⟨_, rfl⟩
  rw [← hs]
  induction s, ts using Layout.walk_induction o generalizing f written with
  | nil s =>
    obtain ⟨g, hg, hl⟩ := pull_nil h
    exact ⟨[], g.layout, by rw [run_end hg, List.append_nil], by rw [hl, ← hs]; rfl⟩
  | closer s w ts hstart ih =>
    obtain ⟨g, hg, hne, hga, hgl, hgd⟩ := pull_cons h
    obtain ⟨k, hk, hkl, hkp⟩ := step_closer o (by rw [hgl, ← hs]; exact hstart) hga hgd
    obtain ⟨ws, last, hr, ht⟩ := ih hkp (g.layout.writeCloser o w :: written)
      (by rw [hkl, hgl, ← hs])
    refine ⟨g.layout.writeCloser o w :: ws, last, ?_, ?_⟩
    · rw [run_step hg hne hk, hr]
      simp
    · simp [hstart, ← ht, hgl, ← hs]
  | cons s t ts hc ih =>
    obtain ⟨g, hg, hne, hga, hgl, hgd⟩ := pull_cons h
    obtain ⟨k, hk, hkl, hkp⟩ := step_single o (by rw [hgl, ← hs]; exact hc) hga hgd
    obtain ⟨ws, last, hr, ht⟩ := ih hkp (g.layout.write o t :: written) (by rw [hkl, hgl, ← hs])
    refine ⟨g.layout.write o t :: ws, last, ?_, ?_⟩
    · rw [run_step hg hne hk, hr]
      simp
    · simp [hc, ← ht, hgl, ← hs]

inductive Writes (o : Options) : Formatter → List Written → Formatter → Prop where
  | nil (f) : Writes o f [] f
  | step {f g h k t w ws} (hp : f.pull = .ok (t, g)) (ht : t ≠ .endOfInput)
      (hs : g.step o t = .ok (w, h)) (hr : Writes o h ws k) : Writes o f (w :: ws) k

inductive Gives : Formatter → List Token → Formatter → Prop where
  | nil (f) : Gives f [] f
  | pull {f g h t ts} (hp : f.pull = .ok (t, g)) (ht : t ≠ .endOfInput) (hr : Gives g ts h) :
      Gives f (t :: ts) h

section Steps

variable {o : Options} {f g : Formatter} {t : Token}

theorem Writes.run_eq {ws : List Written} (hw : Writes o f ws g) (written : List Written) :
    f.run o written = g.run o (ws.reverse ++ written) := by
  induction hw generalizing written with
  | nil => rfl
  | step hp ht hs _ ih =>
    rw [run_step hp ht hs, ih, List.reverse_cons, List.append_assoc, List.singleton_append]

theorem pull_layout (hp : f.pull = .ok (t, g)) (s : Layout) :
    ({ f with layout := s } : Formatter).pull = .ok (t, { g with layout := s }) := by
  unfold pull at hp ⊢
  dsimp only
  split at hp
  · cases hp
    rfl
  · split at hp
    · cases hp
    · next hn =>
      cases hp
      rfl

theorem layout_of_pull (hp : f.pull = .ok (t, g)) : g.layout = f.layout := by
  have h := pull_layout hp f.layout
  rw [hp] at h
  injection h with h
  injection h with _ h
  rw [h]

theorem Gives.layout_irrel {ts : List Token} (hg : f.Gives ts g) (s : Layout) :
    ({ f with layout := s } : Formatter).Gives ts { g with layout := s } := by
  induction hg with
  | nil => exact .nil _
  | pull hp ht _ ih => exact .pull (pull_layout hp s) ht ih

theorem gives_of_draws {f : Formatter} {ts us : List Token} (ha : f.ahead = none)
    (h : Draws f.stream (ts ++ us)) : ∃ g, f.Gives ts g ∧ Draws g.stream us ∧ g.ahead = none := by
  induction ts generalizing f with
  | nil => exact ⟨f, .nil f, h, ha⟩
  | cons t ts ih =>
    obtain ⟨g, hp, ht, hga, -, hd⟩ := pull_cons (pulls_of_draws ha h)
    obtain ⟨k, hk, hus, hka⟩ := ih hga hd
    exact ⟨k, .pull hp ht hk, hus, hka⟩

theorem Gives.step_closer {w : Statement} {ts : List Token}
    (hg : f.Gives (.statement .end_ :: .statement w :: ts) g) (o : Options)
    (hs : f.layout.atLineStart = true) :
    ∃ k m, f.pull = .ok (.statement .end_, k) ∧
      k.step o (.statement .end_) = .ok (f.layout.writeCloser o w, m) ∧
      m.layout = f.layout.afterCloser w ∧ m.Gives ts { g with layout := m.layout } := by
  cases hg with
  | @pull _ k _ _ _ hp _ hr =>
    cases hr with
    | @pull _ m _ _ _ hq _ hr =>
      have hk : k.layout = f.layout := layout_of_pull hp
      have hm : m.layout = f.layout := (layout_of_pull hq).trans hk
      refine ⟨k, { m with layout := f.layout.afterCloser w }, hp, ?_, rfl, hr.layout_irrel _⟩
      simp only [step, hk, hs, beq_self_eq_true, Bool.and_self, if_true, hq, hm]

/-- A token that closes nothing is written alone. What was drawn behind an `End` is kept, and pulled
again. -/
theorem Gives.step_single {ts : List Token} (hg : f.Gives (t :: ts) g) (o : Options)
    (hc : ¬ f.layout.Closes t ts)
    (hend : ts = [] → f.layout.atLineStart = true → t ≠ .statement .end_) :
    ∃ k m, f.pull = .ok (t, k) ∧ t ≠ .endOfInput ∧
      k.step o t = .ok (f.layout.write o t, m) ∧
      m.layout = f.layout.after o t ∧ m.Gives ts { g with layout := m.layout } := by
  cases hg with
  | @pull _ k _ _ _ hp ht hr =>
    have hk : k.layout = f.layout := layout_of_pull hp
    by_cases hw : (f.layout.atLineStart && t == .statement .end_) = true
    · obtain ⟨hs, ht'⟩ := Bool.and_eq_true_iff.1 hw
      have ht' : t = .statement .end_ := by simpa using ht'
      cases hr with
      | nil => exact absurd ht' (hend rfl hs)
      | @pull _ m _ u us hq hu hr =>
        have hne : ∀ w, u ≠ .statement w := fun w hu => hc ⟨hs, ht', w, us, by rw [hu]⟩
        have hkept : ({ m with ahead := some u, layout := f.layout.after o t } : Formatter).pull =
            .ok (u, { m with layout := f.layout.after o t }) := by
          rw [Formatter.pull, ← pull_ahead hq]
        refine ⟨k, { m with ahead := some u, layout := f.layout.after o t }, hp, ht, ?_, rfl,
          .pull hkept hu (hr.layout_irrel _)⟩
        simp only [step, hk, hw, if_true, hq]
    · refine ⟨k, { k with layout := f.layout.after o t }, hp, ht, ?_, rfl, hr.layout_irrel _⟩
      simp only [step, hk, hw, Bool.false_eq_true, if_false]

/-- Tokens are written as they are laid out. -/
theorem writes_of_lays {s u : Layout} {ts : List Token} {x : Text} (hl : Layout.Lays o s ts x u)
    (hg : f.Gives ts g) (hs : f.layout = s) :
    ∃ ws, Writes o f ws { g with layout := u } ∧ ws.flatMap Written.text = x := by
  induction hl generalizing f g with
  | nil =>
    cases hg
    subst hs
    exact ⟨[], .nil _, rfl⟩
  | @closer s w ts x u hstart _ ih =>
    subst hs
    obtain ⟨k, m, hp, hstep, hm, hg⟩ := hg.step_closer o hstart
    obtain ⟨ws, hw, rfl⟩ := ih hg hm
    exact ⟨_ :: ws, .step hp (by simp) hstep hw, rfl⟩
  | @token s t ts x u hne _ ih =>
    subst hs
    obtain ⟨k, m, hp, ht, hstep, hm, hg⟩ :=
      hg.step_single o (fun hc => hne hc.1 hc.2.1) fun _ => hne
    obtain ⟨ws, hw, rfl⟩ := ih hg hm
    exact ⟨_ :: ws, .step hp ht hstep hw, rfl⟩

end Steps

end Formatter

/-- Formatting a page that is read succeeds, with the text of its tokens. -/
theorem format_of_reads {o : Options} {s : Text} {ps : List Part}
    (h : Reads (.ofText o.initialMode s) ps) :
    format o s = .ok (opening o ++ ({} : Layout).lay o (tokensOf ps)) := by
  obtain ⟨ws, last, hr, ht⟩ :=
    Formatter.run_eq o (f := .ofText o s) (Formatter.pulls_of_draws rfl (h.draws 1)) []
  change ws.flatMap Written.text ++ last.ending o = ({} : Layout).lay o (tokensOf ps) at ht
  unfold format
  rw [hr, ← ht]
  unfold enclose opening Layout.ending
  simp only [Except.map, List.reverse_nil, List.nil_append]
  split
  · simp
  · simp

end ClassicAsp
