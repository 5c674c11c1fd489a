import ClassicAsp.Lint
import ClassicAsp.Proofs.Transcript

/-! The readers of a page. Tokenizing, formatting and linting all come to the same error, and what
each makes of the tokens before it is a function of these tokens alone. -/
namespace ClassicAsp

section Consumers

variable {mode : Mode} {text : Text} {ts : List (Spelled × Nat)}

theorem Watch.check_awaited (c : Creation) (begun : ℕ) {t : Token} (ht : ∀ a, t ≠ .punctuation a)
    (line : ℕ) : check (some (c, begun)) t line =
      ((c.concern? t).map fun concern => (none, some ⟨begun, concern⟩)).getD (start t line) := by
  cases t with
  | punctuation a => exact absurd rfl (ht a)
  | _ => cases h : c.concern? _ <;> simp [check, h]

def Watch.findings : Watch → List (Spelled × Nat) → List Finding
  | _, [] => []
  | w, (t, line) :: ts =>
    (w.check t.token line).2.toList ++ findings (w.check t.token line).1 ts

theorem Watch.foldl_check (w : Watch) (found : List Finding) (ts : List (Spelled × ℕ)) :
    (ts.foldl (fun (state : Watch × List Finding) p =>
      ((state.1.check p.1.token p.2).1, (state.1.check p.1.token p.2).2.toList ++ state.2))
      (w, found)).2 = (w.findings ts).reverse ++ found := by
  induction ts generalizing w found with
  | nil => rfl
  | cons p ts ih =>
    have honce : ∀ x : Option Finding, x.toList.reverse = x.toList := by
      intro x
      cases x with
      | none => rfl
      | some => rfl
    rw [List.foldl_cons, ih, findings, List.reverse_append, honce, List.append_assoc]

/-- Linting checks what the page delivers, and reports the same error. -/
theorem Delivers.lint_eq {r : Option PageError} (h : Delivers (.ofText mode text) ts r) :
    lint mode text = ⟨Watch.findings none ts, r⟩ := by
  have hfound := Watch.foldl_check none [] ts
  rw [List.append_nil] at hfound
  rw [lint, h.fold_eq]
  dsimp only
  rw [hfound, List.reverse_reverse]

end Consumers

namespace Formatter

/-- A formatter that will come to an error, no token following the end of input. -/
def Fails (e : PageError) (f : Formatter) : Prop :=
  f.ahead ≠ some .endOfInput ∧ ∃ ts, Delivers f.stream ts (some e)

variable {o : Options} {f : Formatter} {e : PageError}

theorem Fails.pull (h : f.Fails e) :
    f.pull = .error e ∨
      ∃ t g, f.pull = .ok (t, g) ∧ t ≠ .endOfInput ∧ g.ahead = none ∧ g.Fails e := by
  obtain ⟨hend, ts, hts⟩ := h
  unfold Formatter.pull
  split
  · next t ha =>
    refine .inr ⟨t, _, rfl, ?_, rfl, by simp, ts, hts⟩
    rintro rfl
    exact hend ha
  · next ha =>
    generalize hr : some e = r at hts
    cases hts with
    | ended => cases hr
    | @failed _ e' hn =>
      cases hr
      obtain ⟨u, hs⟩ : ∃ u, f.stream.next = (.error e, u) := ⟨_, by rw [← hn]⟩
      rw [hs]
      exact .inl rfl
    | @draw _ u t us _ hn ht hd =>
      subst hr
      rw [hn]
      exact .inr ⟨t.token, _, rfl, ht, ha, by simp [ha], us, hd⟩

theorem Fails.congr {g : Formatter} (h : f.Fails e) (hahead : g.ahead ≠ some .endOfInput)
    (hstream : g.stream = f.stream) : g.Fails e := by
  obtain ⟨-, ts, hts⟩ := h
  exact ⟨hahead, ts, hstream ▸ hts⟩

theorem Fails.step (h : f.Fails e) (ha : f.ahead = none) (t : Token) :
    f.step o t = .error e ∨ ∃ w g, f.step o t = .ok (w, g) ∧ g.Fails e := by
  unfold Formatter.step
  dsimp only
  split
  · rcases h.pull with hp | ⟨u, g, hp, hu, hg, hgf⟩
    · rw [hp]
      exact .inl rfl
    · rw [hp]
      right
      cases u with
      | statement w => exact ⟨_, _, rfl, hgf.congr (by simp [hg]) rfl⟩
      | endOfInput => exact absurd rfl hu
      | _ => exact ⟨_, _, rfl, hgf.congr (by simp) rfl⟩
  · exact .inr ⟨_, _, rfl, h.congr (by simp [ha]) rfl⟩

theorem run_pull_error (h : f.pull = .error e) (written : List Written) :
    f.run o written = .error e := by
  rw [run]
  split
  · next hp =>
    rw [h] at hp
    cases hp
    rfl
  · next hp =>
    rw [h] at hp
    cases hp

theorem run_step_error {g : Formatter} {t : Token} (h : f.pull = .ok (t, g))
    (ht : t ≠ .endOfInput) (hs : g.step o t = .error e) (written : List Written) :
    f.run o written = .error e := by
  rw [run]
  split
  · next hp =>
    rw [h] at hp
    cases hp
  · next hp =>
    rw [h] at hp
    cases hp
    rw [dif_neg ht]
    split
    · next hs' =>
      rw [hs] at hs'
      cases hs'
      rfl
    · next hs' =>
      rw [hs] at hs'
      cases hs'

/-- The run ends with the error of its stream, whatever has been written before it. -/
theorem run_error (h : f.Fails e) (written : List Written) : f.run o written = .error e := by
  induction hn : f.size using Nat.strong_induction_on generalizing f written with
  | _ n ih =>
    rcases h.pull with hp | ⟨t, g, hp, ht, hg, hgf⟩
    · exact run_pull_error hp written
    rcases hgf.step hg t (o := o) with hs | ⟨w, k, hs, hk⟩
    · exact run_step_error hp ht hs written
    · have hlt : k.size < f.size := by
        have hpull := size_pull hp
        have hstep := size_step hs hg
        rw [if_neg ht] at hpull
        omega
      rw [run_step hp ht hs]
      exact ih _ (hn ▸ hlt) hk _ rfl

end Formatter

section Consumers

variable {o : Options} {text : Text} {ts : List (Spelled × Nat)}

theorem Delivers.format_ok (h : Delivers (.ofText o.initialMode text) ts none) :
    format o text = .ok (opening o ++ ({} : Layout).lay o (ts.map fun p => p.1.token)) := by
  obtain ⟨ps, hps, hts⟩ := h.draws.reads (by simp [TokenStream.ofText])
  rw [format_of_reads hps, hts]
  rfl

theorem Delivers.format_error {e : PageError}
    (h : Delivers (.ofText o.initialMode text) ts (some e)) : format o text = .error e := by
  have hf : (Formatter.ofText o text).Fails e := ⟨by simp [Formatter.ofText], ts, h⟩
  rw [format, Formatter.run_error hf]
  rfl

end Consumers

/-- A page is formatted exactly if it is tokenized, and is laid out from its tokens alone. -/
theorem format_eq_map_tokenize (o : Options) (text : Text) :
    format o text = (tokenize o.initialMode text).map fun us =>
      opening o ++ ({} : Layout).lay o (us.dropLast.map Spelled.token) := by
  obtain ⟨ts, r, h⟩ := exists_delivers (.ofText o.initialMode text)
  cases r with
  | none =>
    rw [h.format_ok, h.tokenize_ok]
    simp [Except.map, List.map_map, Function.comp_def]
  | some e =>
    rw [h.format_error, h.tokenize_error]
    rfl

theorem lint_error_iff {mode : Mode} {text : Text} {e : PageError} :
    (lint mode text).error = some e ↔ tokenize mode text = .error e := by
  obtain ⟨ts, r, h⟩ := exists_delivers (.ofText mode text)
  rw [h.lint_eq]
  cases r with
  | none => simp [h.tokenize_ok]
  | some e' => simp [h.tokenize_error]

namespace Layout

theorem lay_initialMode (o : Options) (mode : Mode) (s : Layout) (ts : List Token) :
    lay { o with initialMode := mode } s ts = lay o s ts := by
  induction s, ts using walk_induction o with
  | nil s => rfl
  | closer s w ts h ih =>
    simp [h, ih]
    rfl
  | cons s t ts h ih =>
    rw [lay_cons _ h, lay_cons _ h]
    exact congrArg₂ List.append rfl ih

end Layout

/-- Formatting, tokenizing and linting come to the same error, and are functions of the same tokens.
-/
theorem consumers_agree (o : Options) (text : Text) :
    (∀ e, (format o text = .error e ↔ tokenize o.initialMode text = .error e) ∧
      (tokenize o.initialMode text = .error e ↔ (lint o.initialMode text).error = some e)) ∧
    format o text = (tokenize o.initialMode text).map (fun us =>
      opening o ++ ({} : Layout).lay o (us.dropLast.map Spelled.token)) ∧
    (∀ (o' : Options) (text' : Text) (us us' : List Spelled),
      o'.output = o.output → o'.printStatement = o.printStatement → o'.lineJoin = o.lineJoin →
      tokenize o.initialMode text = .ok us → tokenize o'.initialMode text' = .ok us' →
      us'.map Spelled.token = us.map Spelled.token → format o' text' = format o text) ∧
    ∃ ts, Delivers (.ofText o.initialMode text) ts (lint o.initialMode text).error ∧
      (lint o.initialMode text).findings = Watch.findings none ts ∧
      ∀ us, tokenize o.initialMode text = .ok us →
        us = ts.map Prod.fst ++ [⟨.endOfInput, []⟩] := by
  refine ⟨?_, format_eq_map_tokenize o text, ?_, ?_⟩
  · intro e
    refine ⟨?_, lint_error_iff.symm⟩
    rw [format_eq_map_tokenize]
    cases tokenize o.initialMode text with
    | ok us => simp [Except.map]
    | error e' => simp [Except.map]
  · intro o' text' us us' houtput hprint hjoin h h' htokens
    obtain ⟨output, mode, print, join⟩ := o'
    obtain rfl : output = o.output := houtput
    obtain rfl : print = o.printStatement := hprint
    obtain rfl : join = o.lineJoin := hjoin
    rw [format_eq_map_tokenize, format_eq_map_tokenize, h, h']
    have hbody : us'.dropLast.map Spelled.token = us.dropLast.map Spelled.token := by
      rw [List.map_dropLast, List.map_dropLast, htokens]
    simp only [Except.map, hbody]
    exact congrArg _ (congrArg₂ List.append rfl (Layout.lay_initialMode o mode _ _))
  · obtain ⟨ts, r, h⟩ := exists_delivers (.ofText o.initialMode text)
    rw [h.lint_eq]
    refine ⟨ts, h, rfl, ?_⟩
    intro us hus
    cases r with
    | none =>
      rw [h.tokenize_ok] at hus
      exact (Except.ok.inj hus).symm
    | some e =>
      rw [h.tokenize_error] at hus
      cases hus

/-- A page that begins in markup, and one that begins in code and closes it at once. -/
theorem consumers_agree_markup :
    let text := "a<%END  if".toList
    let text' := "%>a<%\tend If".toList
    let us : List Spelled := [⟨.markup ['a'], ['a']⟩, ⟨.statement .end_, "END".toList⟩,
      ⟨.statement .if_, "if".toList⟩, ⟨.endOfInput, []⟩]
    let us' : List Spelled := [⟨.markup ['a'], ['a']⟩, ⟨.statement .end_, "end".toList⟩,
      ⟨.statement .if_, "If".toList⟩, ⟨.endOfInput, []⟩]
    tokenize .markup text = .ok us ∧ tokenize .code text' = .ok us' ∧
      us'.map Spelled.token = us.map Spelled.token ∧
      format { initialMode := .code } text' = format {} text ∧
      format {} text = .ok "a<%End If".toList := by
  intro text text' us us'
  have h : tokenize .markup text = .ok us := by decide +kernel
  have h' : tokenize .code text' = .ok us' := by decide +kernel
  obtain ⟨-, hlay, hsame, -⟩ := consumers_agree {} text
  refine ⟨h, h', rfl, hsame { initialMode := .code } text' us us' rfl rfl rfl h h' rfl, ?_⟩
  rw [hlay, h]
  decide +kernel

end ClassicAsp
