import ClassicAsp.Proofs.Coherence
import ClassicAsp.Proofs.Depth

/-! Lines carried on by a continuation. The line behind a continuation is indented, and is dedented
again once its tabs have been written, so that nothing is left of it behind its first token. Only
what that token asks of the token before it is lost, as it is asked of the newline then, and what a
token does at the beginning of a line alone is done in the middle of one. -/
namespace ClassicAsp

namespace Token

def isMidLine : Token → Bool
  | .lineEnd _ | .continuation | .comment _ | .markup _ | .directive _ | .endOfInput => false
  | _ => true

/-- Whether a line may be broken between two tokens. What closes a block or divides it has to begin
a line, and `End`, `Exit`, `Do` and `Loop` ask for the word right behind them. -/
def mayContinue (a : Token) : Token → Bool
  | .statement w =>
    !closers.contains w && a != .statement .end_ &&
      !(a == .statement .exit && Statement.openers.contains w) &&
        !((a == .statement .do_ || a == .statement .loop) && w == .while_)
  | _ => true

def Continues (t next : Token) : Prop := t = .continuation → next = .lineEnd .newline

theorem of_isMidLine {t : Token} (h : t.isMidLine = true) :
    t.goesOn = true ∧ t.isMarkupLike = false ∧ t.isInlineBody = true := by
  cases t with
  | lineEnd | continuation | comment | markup | directive | endOfInput => cases h
  | _ => exact ⟨rfl, rfl, rfl⟩

end Token

namespace Layout

variable {o : Options} {s : Layout} {a t : Token} {d : ℕ}

/-- The state that tokens leave. -/
def reach (o : Options) : Layout → List Token → Layout :=
  walk o id (fun _ _ rest => rest) fun _ _ rest => rest

@[simp]
theorem reach_closer (o : Options) (h : s.atLineStart = true) (w : Statement) (ts : List Token) :
    reach o s (.statement .end_ :: .statement w :: ts) = reach o (s.afterCloser w) ts :=
  walk_closer o _ _ _ h w ts

@[simp] theorem reach_cons (o : Options) {ts : List Token} (h : ¬ s.Closes t ts) :
    reach o s (t :: ts) = reach o (s.after o t) ts :=
  walk_cons o _ _ _ h

/-- Tokens may be divided anywhere but behind an `End` that is followed by a word. -/
theorem reach_append (o : Options) (s : Layout) (ts us : List Token)
    (h : ∀ w, us.head? = some (.statement w) → ts.getLast? ≠ some (.statement .end_)) :
    reach o s (ts ++ us) = reach o (reach o s ts) us := by
  induction s, ts using walk_induction o with
  | nil => rfl
  | closer s w ts hs ih =>
    rw [List.cons_append, List.cons_append, reach_closer o hs, reach_closer o hs]
    refine ih fun v hv he => h v hv ?_
    cases ts with
    | nil => cases he
    | cons => simpa [List.getLast?_cons] using he
  | cons s t ts hc ih =>
    have hc' : ¬ s.Closes t (ts ++ us) := by
      rintro ⟨hs, rfl, w, vs, hw⟩
      cases ts with
      | nil => exact h w (by rw [List.nil_append] at hw; rw [hw]; rfl) rfl
      | cons u ts =>
        obtain ⟨rfl, -⟩ := List.cons.inj hw
        exact hc ⟨hs, rfl, w, ts, rfl⟩
    rw [List.cons_append, reach_cons o hc', reach_cons o hc]
    refine ih fun v hv he => h v hv ?_
    cases ts with
    | nil => cases he
    | cons => simpa [List.getLast?_cons] using he

def carried (d : ℕ) : Layout := { depth := d + 1, previous := .other, continued := true }

def bodyDepth (s : Layout) : ℕ := if s.previousIs .then_ then s.depth - 1 else s.depth

theorem Mid.own (hs : s.Mid d) : s.Mid s.depth := hs.depth.symm ▸ hs

theorem Mid.settle_body (hs : s.Mid s.depth) (ht : t.isInlineBody = true) :
    s.settle t = { depth := s.bodyDepth, atLineStart := false, previous := s.previous } := by
  rw [hs.settle_eq, ht, Bool.and_true]
  rfl

theorem Mid.carries (hs : s.Mid s.depth) (o : Options) :
    (s.after o .continuation).after o (.lineEnd .newline) = carried s.bodyDepth := by
  have hfirst : s.after o .continuation =
      { depth := s.bodyDepth + 1, atLineStart := false, previous := .other, continued := true } := by
    rw [after.eq_def, hs.settle_body rfl]
    rfl
  rw [hfirst]
  rfl

theorem carried_settle (d : ℕ) (t : Token) :
    (carried d).settle t =
      { depth := if t.dedents then d - 1 else d, atLineStart := false, previous := .other } := by
  unfold settle
  cases t.dedents with
  | false => rfl
  | true => rfl

theorem carried_opensBlock (d : ℕ) (w : Statement) :
    (carried d).opensBlock w = (Statement.openers.contains w || w == .elseIf || w == .else_) := by
  cases w <;> rfl

theorem Mid.after_carried (hs : s.Mid s.depth) (o : Options) (ht : t.isMidLine = true)
    (hdedents : t.dedents = false) (hopens : (carried s.bodyDepth).opens t = s.opens t) :
    (carried s.bodyDepth).after o t = s.after o t := by
  obtain ⟨-, -, hinline⟩ := Token.of_isMidLine ht
  have hsettle : (carried s.bodyDepth).settle t =
      { s.settle t with depth := (s.settle t).depth, previous := .other } := by
    rw [carried_settle, hs.settle_body hinline, hdedents]
    rfl
  obtain ⟨f, hdepth, hf⟩ := after_congr (o := o) hsettle hopens
  rw [hf, ← hdepth]

structure Ends (o : Options) (s : Layout) (last : Option Token) : Prop where
  coherent : s.Coherent o
  continued : s.continued = true → s.atLineStart = true ∨ last = some .continuation
  mid : ∀ a ∈ last, a.isMidLine = true →
    s.Mid s.depth ∧ ∀ w, s.previousIs w = true → a = .statement w

theorem ends_default (o : Options) : ({} : Layout).Ends o none where
  coherent := coherent_default o
  continued := by simp
  mid := by simp

theorem Ends.after {last : Option Token} (h : s.Ends o last)
    (hlast : ∀ u ∈ last, u.Continues t) : (s.after o t).Ends o (some t) where
  coherent := h.coherent.after fun hc =>
    (h.continued hc).imp_right fun hl => hlast _ hl rfl
  continued := by
    intro hc
    rcases continued_after hc with rfl | ⟨hs, hmid⟩
    · exact .inr rfl
    · rcases h.continued hs with hstart | hl
      · rw [hstart] at hmid
        cases hmid
      · rw [hlast _ hl rfl]
        exact .inl rfl
  mid := by
    rintro a ha hmid
    cases ha
    obtain ⟨hgoes, hscript, -⟩ := Token.of_isMidLine hmid
    obtain ⟨d, hd⟩ := settle_eq s t
    have htabs : (s.noTabs && !s.atLineStart) = false := by
      cases hn : s.noTabs with
      | false => rfl
      | true => simp [(h.coherent.tabs hn).1]
    have hsingle : (s.continued && !s.atLineStart) = false := by
      cases hn : s.continued with
      | false => rfl
      | true =>
        rcases h.continued hn with hstart | hl
        · simp [hstart]
        · rw [hlast _ hl rfl] at hmid
          cases hmid
    have hsettle : (s.settle t).Mid d := by
      rw [hd, hscript, htabs, hsingle, Bool.and_false]
      exact ⟨rfl, rfl, rfl, rfl, rfl⟩
    have hafter := mid_after (o := o) hgoes hsettle
    refine ⟨hafter.own, fun w hw => ?_⟩
    rw [previousIs_after] at hw
    simpa using hw

theorem ends_afterCloser (o : Options) (s : Layout) (w : Statement) :
    (s.afterCloser w).Ends o (some (.statement w)) where
  coherent := coherent_afterCloser o s w
  continued := by simp [afterCloser, beginLine]
  mid := fun _ _ _ => ⟨⟨rfl, rfl, rfl, rfl, rfl⟩, by simp [previousIs, afterCloser]⟩

theorem last_cons (t : Token) (ts : List Token) (last : Option Token) :
    (t :: ts).getLast?.or last = ts.getLast?.or (some t) := by
  rw [List.getLast?_cons, Option.some_or, Option.or_some]

/-- Behind tokens whose continuations end their lines, the last token tells what is left. -/
theorem Ends.reach {last : Option Token} {ts : List Token} (h : s.Ends o last)
    (hlast : ∀ u ∈ last, ∀ v ∈ ts.head?, u.Continues v) (hts : ts.IsChain Token.Continues) :
    (reach o s ts).Ends o (ts.getLast?.or last) := by
  induction s, ts using walk_induction o generalizing last with
  | nil => exact h
  | closer s w ts hs ih =>
    obtain ⟨-, hts⟩ := List.isChain_cons.1 hts
    obtain ⟨hnext, hts⟩ := List.isChain_cons.1 hts
    have hends := ih (ends_afterCloser o s w) (by simpa using hnext) hts
    rw [reach_closer o hs, last_cons, last_cons]
    exact hends
  | cons s t ts hc ih =>
    obtain ⟨hnext, hts⟩ := List.isChain_cons.1 hts
    have hends := ih (h.after fun u hu => hlast u hu t rfl) (by simpa using hnext) hts
    rw [reach_cons o hc, last_cons]
    exact hends

theorem opens_carried (hprevious : ∀ w, s.previousIs w = true → a = .statement w)
    (hmay : a.mayContinue t = true) (d : ℕ) : (carried d).opens t = s.opens t := by
  have hnot : ∀ w, a ≠ .statement w → s.previousIs w = false := by
    intro w hw
    by_contra hp
    exact hw (hprevious w (by simpa using hp))
  cases t with
  | statement w =>
    simp only [Token.mayContinue, Bool.and_eq_true, Bool.not_eq_true', bne_iff_ne,
      Bool.and_eq_false_iff, Bool.or_eq_false_iff, beq_eq_false_iff_ne] at hmay
    obtain ⟨⟨⟨hcloser, -⟩, hexit⟩, hloop⟩ := hmay
    have hexit : w ∈ Statement.openers → s.previousIs .exit = false := by
      intro hw
      refine hnot .exit (hexit.resolve_right ?_)
      simpa using hw
    have hloop : w = .while_ → s.previousIs .do_ = false ∧ s.previousIs .loop = false := by
      intro hw
      obtain ⟨hdo, hloop⟩ := hloop.resolve_right (by simpa using hw)
      exact ⟨hnot .do_ hdo, hnot .loop hloop⟩
    rw [opens, opens, carried_opensBlock]
    cases w <;> simp_all [opensBlock.eq_def, Statement.openers, closers]
  | _ => rfl

theorem of_mayContinue {w : Statement} (h : a.mayContinue (.statement w) = true) :
    w ∉ closers ∧ a ≠ .statement .end_ := by
  simp only [Token.mayContinue, Bool.and_eq_true, Bool.not_eq_true', bne_iff_ne] at h
  exact ⟨by simpa using h.1.1.1, h.1.1.2⟩

theorem dedents_of_not_closer {w : Statement} (h : w ∉ closers) : w.dedents = false := by
  cases w with
  | else_ | elseIf | case | wend | next | loop => exact absurd (by decide) h
  | _ => rfl

/-- Behind its newline a continuation leaves a line that is indented once. -/
theorem reach_carried (o : Options) {A : List Token} (us : List Token)
    (hs : (reach o {} (A ++ [a])).Mid (reach o {} (A ++ [a])).depth) :
    reach o {} (A ++ a :: .continuation :: .lineEnd .newline :: us) =
      reach o (carried (reach o {} (A ++ [a])).bodyDepth) us := by
  have hsplit : A ++ a :: .continuation :: .lineEnd .newline :: us =
      (A ++ [a]) ++ .continuation :: .lineEnd .newline :: us := by simp
  rw [hsplit, reach_append o _ _ _ (by simp), reach_cons o (by simp [Closes]),
    reach_cons o (by simp [Closes]), hs.carries]

theorem reach_continued (o : Options) {A : List Token} (Q : List Token) (ha : a.isMidLine = true)
    (ht : t.isMidLine = true) (hmay : a.mayContinue t = true)
    (hchain : (A ++ [a]).IsChain Token.Continues) :
    reach o {} (A ++ a :: .continuation :: .lineEnd .newline :: t :: Q) =
      reach o {} (A ++ a :: t :: Q) := by
  have hends := (ends_default o).reach (by simp) hchain
  rw [List.getLast?_concat, Option.some_or] at hends
  obtain ⟨hs, hprevious⟩ := hends.mid a rfl ha
  have hsplit : A ++ a :: t :: Q = (A ++ [a]) ++ t :: Q := by simp
  have hword : ∀ w, t = .statement w → w ∉ closers ∧ a ≠ .statement .end_ := by
    rintro w rfl
    exact of_mayContinue hmay
  have hend : t ≠ .statement .end_ := fun he => (hword .end_ he).1 (by decide)
  have hdedents : t.dedents = false := by
    cases t with
    | statement w => exact dedents_of_not_closer (hword w rfl).1
    | _ => rfl
  have happend : reach o {} (A ++ [a] ++ t :: Q) = reach o (reach o {} (A ++ [a])) (t :: Q) := by
    refine reach_append o _ _ _ fun w hw => ?_
    rw [List.getLast?_concat]
    intro he
    exact (hword w (Option.some.inj hw)).2 (Option.some.inj he)
  rw [reach_carried o _ hs, hsplit, happend, reach_cons o fun hc => hend hc.2.1,
    reach_cons o fun hc => hend hc.2.1,
    hs.after_carried o ht hdedents (opens_carried hprevious hmay _)]

/-- Breaking a line between two tokens leaves the depth alone, wherever a line ends behind it. -/
def KeepsDepth (o : Options) (a t : Token) : Prop :=
  ∀ A P : List Token, (A ++ [a]).IsChain Token.Continues →
    (t :: P).getLast? ≠ some .continuation →
    (reach o {} (A ++ a :: .continuation :: .lineEnd .newline :: t ::
      (P ++ [.lineEnd .newline]))).depth =
    (reach o {} (A ++ a :: t :: (P ++ [.lineEnd .newline]))).depth

section Broken

/-! Where a line may not be broken, a few tokens before it show the difference. -/

variable {w : Statement} {A : List Token}

theorem Mid.after_exit (hs : s.Mid d) (hexit : s.previousIs .exit = true) (o : Options)
    (ha : a.isMidLine = true) : (s.after o a).Mid d := by
  have hthen : s.previousIs .then_ = false := previousIs_of_ne hexit (by simp)
  have hopens : s.opens a = false := by
    cases a with
    | statement w => cases w <;> simp [opens, opensBlock.eq_def, hexit, hs.mid]
    | _ => rfl
  have h := hs.after o (Token.of_isMidLine ha).1
  rw [hthen, hopens] at h
  exact h

theorem depth_word (o : Options) (h : (s.settle (.statement w)).Mid d) :
    (reach o s [.statement w, .lineEnd .newline]).depth =
      d + if s.opensBlock w then 1 else 0 := by
  rw [reach_cons o (by simp [Closes]), reach_cons o (by simp [Closes])]
  exact ((mid_after rfl h).newline o).depth

theorem Mid.depth_word (hs : s.Mid s.depth) (o : Options) (w : Statement) :
    (reach o s [.statement w, .lineEnd .newline]).depth =
      s.bodyDepth + if s.opensBlock w then 1 else 0 := by
  apply Layout.depth_word
  rw [hs.settle_body rfl]
  exact ⟨rfl, rfl, rfl, rfl, rfl⟩

theorem carried_depth_word (o : Options) (d : ℕ) (w : Statement) :
    (reach o (carried d) [.statement w, .lineEnd .newline]).depth =
      (if w.dedents then d - 1 else d) +
        if Statement.openers.contains w || w == .elseIf || w == .else_ then 1 else 0 := by
  rw [← carried_opensBlock d w]
  apply Layout.depth_word
  rw [carried_settle]
  exact ⟨rfl, rfl, rfl, rfl, rfl⟩

theorem bodyDepth_le (s : Layout) : s.depth - 1 ≤ s.bodyDepth ∧ s.bodyDepth ≤ s.depth := by
  unfold bodyDepth
  split
  · omega
  · omega

theorem Mid.reach_exit (hs : (reach o {} A).Mid d) (hlast : A.getLast? = some (.statement .exit))
    (a : Token) (us : List Token) :
    reach o {} (A ++ a :: us) = reach o ((reach o {} A).after o a) us := by
  rw [reach_append o _ _ _ fun v _ => by simp [hlast], reach_cons o fun hc => ?_]
  have hstart := hc.1
  rw [hs.mid] at hstart
  cases hstart

theorem KeepsDepth.behind_exit (h : KeepsDepth o a (.statement w)) (ha : a.isMidLine = true)
    (hchain : (A ++ [a]).IsChain Token.Continues) (hlast : A.getLast? = some (.statement .exit))
    (hs : (reach o {} A).Mid d) (hexit : (reach o {} A).previousIs .exit = true) :
    ∃ s : Layout, s.Mid d ∧ (∀ v, s.previousIs v = (a == .statement v)) ∧
      ((if w.dedents then s.bodyDepth - 1 else s.bodyDepth) +
          if Statement.openers.contains w || w == .elseIf || w == .else_ then 1 else 0) =
        s.bodyDepth + if s.opensBlock w then 1 else 0 := by
  have hmid := hs.after_exit hexit o ha
  have hreach : reach o {} (A ++ [a]) = (reach o {} A).after o a := hs.reach_exit hlast a []
  have hkeeps := h A [] hchain (by simp)
  rw [reach_carried o _ (hreach ▸ hmid.own), hreach, List.nil_append, carried_depth_word,
    hs.reach_exit hlast, hmid.own.depth_word] at hkeeps
  exact ⟨_, hmid, previousIs_after o _ a, hkeeps⟩

theorem not_keepsDepth_end (o : Options) (ha : a.isMidLine = true) :
    ¬ KeepsDepth o a (.statement .end_) := by
  intro h
  have hexit : (reach o {} [.statement .exit]).Mid 0 := ⟨rfl, rfl, rfl, rfl, rfl⟩
  have hs := hexit.after_exit rfl o ha
  have hreach := hexit.reach_exit rfl a
  generalize (reach o {} [.statement .exit]).after o a = s at hs hreach
  have hzero : s.bodyDepth = 0 := Nat.le_zero.1 (hs.depth ▸ s.bodyDepth_le.2)
  have hcarried : (reach o (carried 0)
      [.statement .end_, .statement .if_, .lineEnd .newline]).depth = 0 := rfl
  have hcontinued : (reach o s
      [.statement .end_, .statement .if_, .lineEnd .newline]).depth = 1 := by
    have hcloses (us : List Token) : ¬ s.Closes (.statement .end_) us := fun hc =>
      absurd hc.1 (by simp [hs.mid])
    have hend : (s.after o (.statement .end_)).Mid 0 := by
      have hopens : s.opens (.statement .end_) = false := rfl
      have hend := hs.after o (t := .statement .end_) rfl
      rwa [hopens, Nat.zero_sub, ite_self] at hend
    rw [reach_cons o (hcloses _), hend.own.depth_word, bodyDepth,
      previousIs_after, hend.depth, opensBlock, previousIs_after]
    rfl
  have hkeeps := h [.statement .exit] [.statement .if_] (by simp [Token.Continues]) (by simp)
  rw [reach_carried o _ (by rw [hreach]; exact hs.own), hreach, hreach] at hkeeps
  have hfalse : 0 = 1 := hcarried.symm.trans ((hzero ▸ hkeeps).trans hcontinued)
  cases hfalse

theorem KeepsDepth.not_closer (h : KeepsDepth o a (.statement w)) (ha : a.isMidLine = true) :
    w ∉ closers := by
  intro hw
  -- Nothing is open behind the first words, and two blocks are behind the second.
  obtain ⟨s, hs, hprevious, heq⟩ := h.behind_exit (A := [.statement .exit]) (d := 0) ha
    (by simp [Token.Continues]) rfl ⟨rfl, rfl, rfl, rfl, rfl⟩ rfl
  obtain ⟨u, hu, hbefore, hkeeps⟩ := h.behind_exit (d := 2) ha
    (A := [.statement .if_, .lineEnd .newline, .statement .if_, .lineEnd .newline,
      .statement .exit]) (by simp [Token.Continues]) rfl ⟨rfl, rfl, rfl, rfl, rfl⟩ rfl
  have hshallow := s.bodyDepth_le
  have hdeep := u.bodyDepth_le
  rw [hs.depth] at hshallow
  rw [hu.depth] at hdeep
  simp only [closers, List.mem_cons, List.not_mem_nil, or_false] at hw
  rcases hw with rfl | hword | hword | rfl | hword | hword | hword
  · exact not_keepsDepth_end o ha h
  · simp [hword, opensBlock.eq_def, hs.mid, Statement.dedents] at heq
    omega
  · simp [hword, opensBlock.eq_def, hs.mid, Statement.dedents] at heq
    omega
  · cases hexit : a == .statement .exit with
    | true =>
      simp [opensBlock.eq_def, hprevious, hexit, Statement.dedents, Statement.openers] at heq
      omega
    | false =>
      simp [opensBlock.eq_def, hbefore, hexit, Statement.dedents, Statement.openers] at hkeeps
      omega
  · simp [hword, opensBlock.eq_def, Statement.dedents, Statement.openers] at hkeeps
    omega
  · simp [hword, opensBlock.eq_def, Statement.dedents, Statement.openers] at hkeeps
    omega
  · simp [hword, opensBlock.eq_def, Statement.dedents, Statement.openers] at hkeeps
    omega

theorem KeepsDepth.not_opener (h : KeepsDepth o (.statement .exit) (.statement w)) :
    w ∉ Statement.openers := by
  intro hw
  obtain ⟨s, hs, hprevious, heq⟩ := h.behind_exit (A := [.statement .exit]) (d := 0) rfl
    (by simp [Token.Continues]) rfl ⟨rfl, rfl, rfl, rfl, rfl⟩ rfl
  have hshallow := s.bodyDepth_le
  have hopens : s.opensBlock w = false := by
    cases w <;> simp_all [opensBlock.eq_def, Statement.openers]
  rw [hs.depth] at hshallow
  have hcontains : Statement.openers.contains w = true := by simpa using hw
  simp only [hopens, hcontains, Bool.true_or, if_true, Bool.false_eq_true, if_false] at heq
  omega

theorem KeepsDepth.not_end (h : KeepsDepth o (.statement .end_) (.statement w)) :
    w ∈ closers := by
  by_contra hw
  have hs : (reach o {} ([.statement .if_, .lineEnd .newline] ++ [.statement .end_])).Mid 1 :=
    ⟨rfl, rfl, rfl, rfl, rfl⟩
  have hkeeps := h [.statement .if_, .lineEnd .newline] [] (by simp [Token.Continues]) (by simp)
  have hclosed : (reach o {} ([.statement .if_, .lineEnd .newline] ++
      .statement .end_ :: .statement w :: ([] ++ [.lineEnd .newline]))).depth = 0 := rfl
  rw [reach_carried o _ hs, hclosed, List.nil_append, carried_depth_word,
    dedents_of_not_closer hw] at hkeeps
  have hdeep : 1 ≤ 0 := hkeeps ▸ Nat.le_add_right 1 _
  omega

theorem not_keepsDepth_condition (o : Options)
    (hword : a = .statement .do_ ∨ a = .statement .loop) :
    ¬ KeepsDepth o a (.statement .while_) := by
  intro h
  rcases hword with rfl | rfl
  · have hkeeps : 2 = 1 := h [] [] (by simp) (by simp)
    cases hkeeps
  · have hkeeps : 1 = 0 := h [] [] (by simp) (by simp)
    cases hkeeps

end Broken

/-- A line may be broken between two tokens exactly if the second neither closes a block nor asks
more of the first than a newline tells. -/
theorem keepsDepth_iff_mayContinue (o : Options) (ha : a.isMidLine = true)
    (ht : t.isMidLine = true) : KeepsDepth o a t ↔ a.mayContinue t = true := by
  constructor
  · intro h
    cases t with
    | statement w =>
      have hcloser := h.not_closer ha
      have hend : a ≠ .statement .end_ := by
        rintro rfl
        exact hcloser h.not_end
      have hopener : a = .statement .exit → w ∉ Statement.openers := by
        rintro rfl
        exact h.not_opener
      have hcondition : a = .statement .do_ ∨ a = .statement .loop → w ≠ .while_ := by
        rintro hword rfl
        exact not_keepsDepth_condition o hword h
      simp only [Token.mayContinue, Bool.and_eq_true, Bool.not_eq_true', bne_iff_ne,
        Bool.and_eq_false_imp, Bool.or_eq_true, beq_iff_eq, beq_eq_false_iff_ne]
      exact ⟨⟨⟨by simpa using hcloser, hend⟩, fun he => by simpa using hopener he⟩, hcondition⟩
    | _ => rfl
  · intro hmay A P hchain _
    rw [reach_continued o _ ha ht hmay hchain]

end Layout

namespace Formatter

variable {o : Options} {f g : Formatter} {ts : List Token}

theorem Gives.writes_reach (hg : f.Gives ts g) (hlast : ts.getLast? ≠ some (.statement .end_)) :
    ∃ ws, Writes o f ws { g with layout := Layout.reach o f.layout ts } := by
  obtain ⟨s, hs⟩ : ∃ s, f.layout = s := ⟨_, rfl⟩
  rw [hs]
  induction s, ts using Layout.walk_induction o generalizing f g with
  | nil s =>
    cases hg
    subst hs
    exact ⟨[], .nil _⟩
  | closer s w ts hstart ih =>
    obtain ⟨k, m, hp, hstep, hm, hg⟩ := hg.step_closer o (hs ▸ hstart)
    have hlast : ts.getLast? ≠ some (.statement .end_) := by
      intro he
      simp [List.getLast?_cons, he] at hlast
    obtain ⟨ws, hw⟩ := ih hg hlast (hm.trans (hs ▸ rfl))
    rw [Layout.reach_closer o hstart]
    exact ⟨_, .step hp (by simp) hstep hw⟩
  | cons s t ts hc ih =>
    have hend : ts = [] → t ≠ .statement .end_ := by
      rintro rfl rfl
      exact hlast rfl
    obtain ⟨k, m, hp, ht, hstep, hm, hg⟩ := hg.step_single o (hs ▸ hc) fun hts _ => hend hts
    have hlast : ts.getLast? ≠ some (.statement .end_) := by
      intro he
      simp [List.getLast?_cons, he] at hlast
    obtain ⟨ws, hw⟩ := ih hg hlast (hm.trans (hs ▸ rfl))
    rw [Layout.reach_cons o hc]
    exact ⟨_, .step hp ht hstep hw⟩

theorem Gives.continues (hg : f.Gives ts g) (hf : f.Fed) : ts.IsChain Token.Continues := by
  induction hg with
  | nil => exact .nil
  | @pull f k g t ts hp ht hr ih =>
    obtain ⟨hk, hends⟩ := hf.pull hp
    refine List.isChain_cons.2 ⟨fun u hu hcontinuation => ?_, ih hk⟩
    cases hr with
    | nil => cases hu
    | pull hq hu' _ =>
      cases hu
      exact (hends hcontinuation _ _ hq).resolve_right hu'

end Formatter

/-- Breaking a line between two tokens by a continuation leaves the depth of all lines behind it
alone exactly if the second token may begin a line. -/
theorem continuation_keeps_depth_iff (o : Options) {a t : Token} (ha : a.isMidLine = true)
    (ht : t.isMidLine = true) :
    ((∀ A P : List Token, (A ++ [a]).IsChain Token.Continues →
        (t :: P).getLast? ≠ some .continuation →
        (Layout.reach o {} (A ++ a :: .continuation :: .lineEnd .newline :: t ::
          (P ++ [.lineEnd .newline]))).depth =
        (Layout.reach o {} (A ++ a :: t :: (P ++ [.lineEnd .newline]))).depth) ↔
      a.mayContinue t = true) ∧
    ∀ text ts f, (Formatter.ofText o text).Gives ts f →
      ts.IsChain Token.Continues ∧
        (ts.getLast? ≠ some (.statement .end_) →
          ∃ ws, Formatter.Writes o (.ofText o text) ws
            { f with layout := Layout.reach o {} ts }) := by
  refine ⟨Layout.keepsDepth_iff_mayContinue o ha ht, fun text ts f hg => ?_⟩
  exact ⟨hg.continues (Formatter.fed_ofText o text), fun hlast => hg.writes_reach hlast⟩

/-- An expression in the body of a loop is carried on behind an operator. -/
theorem continuation_keeps_depth_expression :
    let o : Options := { initialMode := .code }
    let A : List Token := [.statement .do_, .lineEnd .newline, .identifier ['a']]
    let a : Token := .operator .plus
    let t : Token := .identifier ['b']
    let carried : List Token := A ++ a :: .continuation :: .lineEnd .newline :: t ::
      ([] ++ [.lineEnd .newline])
    (A ++ [a]).IsChain Token.Continues ∧ a.mayContinue t = true ∧
      (Layout.reach o {} carried).depth =
        (Layout.reach o {} (A ++ a :: t :: ([] ++ [.lineEnd .newline]))).depth ∧
      carried.IsChain Token.Continues ∧
      ∃ ws f, Formatter.Writes o (.ofText o "do\na + _\nb\n".toList) ws f ∧
        f.layout.depth = 1 := by
  intro o A a t carried
  obtain ⟨hkeeps, hreach⟩ := continuation_keeps_depth_iff o (a := a) (t := t) rfl rfl
  have hchain : (A ++ [a]).IsChain Token.Continues := by simp [A, a, Token.Continues]
  let us : List Spelled := [⟨.statement .do_, "do".toList⟩, ⟨.lineEnd .newline, ['\n']⟩,
    ⟨.identifier ['a'], ['a']⟩, ⟨a, ['+']⟩, ⟨.continuation, ['_']⟩, ⟨.lineEnd .newline, ['\n']⟩,
    ⟨t, ['b']⟩, ⟨.lineEnd .newline, ['\n']⟩, ⟨.endOfInput, []⟩]
  have htokens : tokenize .code "do\na + _\nb\n".toList = .ok us := by decide +kernel
  obtain ⟨ps, hps, hus⟩ := reads_of_tokenize htokens
  have hread : carried ++ [.endOfInput] = tokensOf ps ++ [.endOfInput] := hus
  have hdraws := hps.draws 1
  rw [← List.append_cancel_right hread, ← List.append_nil carried] at hdraws
  obtain ⟨f, hgives, -⟩ := Formatter.gives_of_draws (f := .ofText o "do\na + _\nb\n".toList) rfl
    hdraws
  obtain ⟨hcontinues, hwrites⟩ := hreach _ _ _ hgives
  obtain ⟨ws, hw⟩ := hwrites (by simp [carried])
  exact ⟨hchain, rfl, hkeeps.2 rfl A [] hchain (by simp [t]), hcontinues, ws, _, hw, rfl⟩

/-- A `While` behind `Do` opens a block of its own if it begins a line, so that what stands behind
the loop is indented once too often. -/
theorem continuation_moves_depth :
    let o : Options := { initialMode := .code }
    let rest : List Token := [.identifier ['a'], .lineEnd .newline, .statement .loop]
    (Layout.reach o {} ([] ++ .statement .do_ :: .continuation :: .lineEnd .newline ::
      .statement .while_ :: (rest ++ [.lineEnd .newline]))).depth = 1 ∧
    (Layout.reach o {} ([] ++ .statement .do_ :: .statement .while_ ::
      (rest ++ [.lineEnd .newline]))).depth = 0 ∧
    format o "do _\nwhile a\nloop\nx".toList = .ok "Do _\n\t\tWhile a\n\tLoop\n\tx".toList ∧
    format o "do while a\nloop\nx".toList = .ok "Do While a\nLoop\nx".toList := by
  refine ⟨rfl, rfl, ?_, ?_⟩
  · decide +kernel
  · decide +kernel

end ClassicAsp
