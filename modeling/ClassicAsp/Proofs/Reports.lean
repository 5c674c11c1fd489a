import ClassicAsp.Proofs.Findings
import ClassicAsp.Proofs.LineKeeping
import Mathlib.Data.Set.Card

/-! What a report says of a page is so. Each of its findings has a place of its own in the page,
where its message is due and on whose line it is reported, and the findings stand in the order of
their places. -/
namespace ClassicAsp

open Text (newlines newlines_eq_zero)

/-- A message is due where a token warns by itself, or creates what a token behind some punctuation
names. -/
inductive Warrants : List (Spelled × ℕ) → Text → Prop where
  | warns {t line ts m} (h : t.token.Warns m) : Warrants ((t, line) :: ts) m
  | creates {t line ps n us m} (hps : ArePunctuation ps) (h : t.token.Creates n.1.token m) :
      Warrants ((t, line) :: (ps ++ n :: us)) m

namespace Token

variable {t n : Token} {m call : Text}

theorem Warns.newline_not_mem (h : t.Warns m) : '\n' ∉ t.text := by
  cases h with
  | stop | execute | executeGlobal => decide
  | eval h =>
    rw [text, h]
    decide

theorem Calls.newline_not_mem (h : t.Calls call) : '\n' ∉ t.text := by
  cases h with
  | createObject h | getObject h =>
    rw [text, h]
    decide
  | server h => exact Text.newline_not_mem_sameWord h (by decide)

theorem Creates.newline_not_mem (h : t.Creates n m) : '\n' ∉ t.text := by
  cases h with
  | object h | named h => exact h.newline_not_mem
  | class_ => decide

end Token

theorem Warrants.newlines {t : Spelled} {line : ℕ} {ts : List (Spelled × ℕ)} {m : Text}
    (h : Warrants ((t, line) :: ts) m) : Text.newlines t.token.text + t.outside = 0 := by
  have hdirective : ∀ d, t.token ≠ .directive d := by
    intro d hd
    cases h with
    | warns h =>
      rw [hd] at h
      cases h
    | @creates _ _ _ n _ _ _ h =>
      rw [hd] at h
      generalize n.1.token = name at h
      cases h with
      | object h | named h => cases h
  have houtside : t.outside = 0 := by
    unfold Spelled.outside
    split
    · next d hd => exact absurd hd (hdirective d)
    · rfl
  rw [houtside, Nat.add_zero, newlines_eq_zero]
  cases h with
  | warns h => exact h.newline_not_mem
  | creates _ h => exact h.newline_not_mem

namespace Finding

structure At (ts : List (Spelled × ℕ)) (k : ℕ) (f : Finding) : Prop where
  warrants : Warrants (ts.drop k) f.concern.message
  line_eq : (ts[k]?).map Prod.snd = some f.line

theorem At.append {ts : List (Spelled × ℕ)} {k : ℕ} {f : Finding} (h : At ts k f)
    (us : List (Spelled × ℕ)) : At (us ++ ts) (us.length + k) f := by
  refine ⟨?_, ?_⟩
  · rw [List.drop_length_add_append]
    exact h.warrants
  · rw [List.getElem?_append_right (Nat.le_add_right _ _), Nat.add_sub_cancel_left]
    exact h.line_eq

structure Placed (ts : List (Spelled × ℕ)) (fs : List (ℕ × Finding)) : Prop where
  increasing : fs.Pairwise fun f g => f.1 < g.1
  stands : ∀ f ∈ fs, At ts f.1 f.2

theorem Placed.append {ts : List (Spelled × ℕ)} {fs : List (ℕ × Finding)} (h : Placed ts fs)
    (us : List (Spelled × ℕ)) :
    Placed (us ++ ts) (fs.map fun f => (us.length + f.1, f.2)) := by
  refine ⟨List.pairwise_map.2 (h.increasing.imp fun hlt => Nat.add_lt_add_left hlt _), ?_⟩
  intro f hf
  obtain ⟨g, hg, rfl⟩ := List.mem_map.1 hf
  exact (h.stands g hg).append us

theorem Placed.cons {ts : List (Spelled × ℕ)} {fs : List (ℕ × Finding)} {f : Finding}
    {p : Spelled × ℕ} {us : List (Spelled × ℕ)} (h : Placed ts fs)
    (hf : At (p :: us ++ ts) 0 f) :
    Placed (p :: us ++ ts) ((0, f) :: fs.map fun g => ((p :: us).length + g.1, g.2)) := by
  have happend := h.append (p :: us)
  refine ⟨List.pairwise_cons.2 ⟨?_, happend.increasing⟩, ?_⟩
  · intro g hg
    obtain ⟨g, -, rfl⟩ := List.mem_map.1 hg
    exact Nat.lt_add_right _ (Nat.succ_pos _)
  · intro g hg
    rcases List.mem_cons.1 hg with rfl | hg
    · exact hf
    · exact happend.stands g hg

end Finding

theorem Watch.exists_placed (ts : List (Spelled × ℕ)) :
    ∃ fs, Finding.Placed ts fs ∧ fs.map Prod.snd = findings none ts := by
  -- a creation is found with the tokens up to the name, so that the rest is shorter by all of them
  induction hn : ts.length using Nat.strong_induction_on generalizing ts with
  | _ n ih =>
    cases ts with
    | nil => exact ⟨[], ⟨.nil, by simp⟩, rfl⟩
    | cons p ts =>
      obtain ⟨t, line⟩ := p
      have hlt : ∀ us : List (Spelled × ℕ), us.length ≤ ts.length → us.length < n := by
        intro us hus
        rw [List.length_cons] at hn
        omega
      rcases findings_cases t line ts with ⟨k, hk, hfound⟩ | ⟨c, k, ps, name, us, hc, rfl, hps, hk,
        hfound⟩ | hfound
      · obtain ⟨fs, hfs, hmap⟩ := ih _ (hlt ts le_rfl) ts rfl
        have hat : Finding.At ((t, line) :: [] ++ ts) 0 ⟨line, k⟩ :=
          ⟨.warns (Token.warns_iff.2 ⟨k, hk, rfl⟩), rfl⟩
        refine ⟨_, hfs.cons hat, ?_⟩
        rw [List.map_cons, List.map_map, hfound, ← hmap]
        rfl
      · have hus : us.length ≤ (ps ++ name :: us).length := by
          rw [List.length_append, List.length_cons]
          omega
        obtain ⟨fs, hfs, hmap⟩ := ih _ (hlt us hus) us rfl
        have hsplit : (t, line) :: (ps ++ name :: us) = (t, line) :: (ps ++ [name]) ++ us := by simp
        rw [hsplit] at hfound ⊢
        have hat : Finding.At ((t, line) :: (ps ++ [name]) ++ us) 0 ⟨line, k⟩ := by
          rw [← hsplit]
          exact ⟨.creates hps (Token.creates_iff.2 ⟨c, k, hc, hk, rfl⟩), rfl⟩
        refine ⟨_, hfs.cons hat, ?_⟩
        rw [List.map_cons, List.map_map, hfound, ← hmap]
        rfl
      · obtain ⟨fs, hfs, hmap⟩ := ih _ (hlt ts le_rfl) ts rfl
        refine ⟨_, hfs.append [(t, line)], ?_⟩
        rw [List.map_map, hfound, ← hmap]
        rfl

/-- A finding at a located token, for which its message is due and on whose first line it is
reported. -/
def Finding.StandsAt (text : Text) (qs : List Located) (k : ℕ) (f : Finding) : Prop :=
  ∃ (q : Located) (before behind : Text), qs[k]? = some q ∧
    before = (qs.take k).flatMap Located.source ++ q.gap ∧ text = before ++ (q.slice ++ behind) ∧
    Warrants ((qs.drop k).map Located.drawn) f.concern.message ∧ f.line = 1 + newlines before

section Located

variable {text tail : Text} {qs : List Located} {k l : ℕ} {f g : Finding}

theorem Finding.At.standsAt (h : At (qs.map Located.drawn) k f)
    (htext : text = qs.flatMap Located.source ++ tail) (hstands : ∀ q ∈ qs, q.Stands)
    (hlines : ∀ n q, qs[n]? = some q →
      q.line = 1 + newlines ((qs.take (n + 1)).flatMap Located.source)) :
    f.StandsAt text qs k := by
  obtain ⟨hdue, hline⟩ := h
  rw [List.getElem?_map, Option.map_map] at hline
  obtain ⟨q, hq, hf⟩ := Option.map_eq_some_iff.1 hline
  have hmem : q ∈ qs := List.mem_of_getElem? hq
  have hdrop : qs.drop k = q :: qs.drop (k + 1) := by
    obtain ⟨hk, hget⟩ := List.getElem?_eq_some_iff.1 hq
    rw [← hget]
    exact List.drop_eq_getElem_cons hk
  have htake : qs.take (k + 1) = qs.take k ++ [q] := by
    rw [List.take_add_one, hq]
    rfl
  rw [← List.map_drop] at hdue
  refine ⟨q, _, (qs.drop (k + 1)).flatMap Located.source ++ tail, hq, rfl, ?_, hdue, ?_⟩
  · have hparts := congrArg (List.flatMap Located.source) (List.take_append_drop k qs)
    rw [htext, ← hparts, hdrop]
    simp [Located.source]
  · -- neither the token nor what separates it from the one before has a newline
    rw [hdrop] at hdue
    have hnone : newlines q.slice = 0 := by
      rw [(hstands q hmem).count]
      exact hdue.newlines
    have hreported : q.line = f.line := hf
    rw [← hreported, hlines k q hq, htake]
    simp [Located.source, hnone]

theorem Finding.StandsAt.line_le (hf : f.StandsAt text qs k) (hg : g.StandsAt text qs l)
    (hstands : ∀ q ∈ qs, q.Stands) (h : k ≤ l) : f.line ≤ g.line := by
  obtain ⟨q, _, _, hq, rfl, -, -, hf⟩ := hf
  obtain ⟨r, _, _, -, rfl, -, -, hg⟩ := hg
  have hgap := newlines_eq_zero.2 (hstands q (List.mem_of_getElem? hq)).gap
  have hprefix : (qs.take k).flatMap Located.source <+: (qs.take l).flatMap Located.source :=
    (List.take_prefix_take_left h).flatMap _
  have hle : newlines ((qs.take k).flatMap Located.source) ≤
      newlines ((qs.take l).flatMap Located.source) := hprefix.sublist.count_le _
  simp [hf, hg, hgap]
  omega

theorem Finding.length_le {fs : List (ℕ × Finding)} (h : fs.Pairwise fun f g => f.1 < g.1)
    (hstands : ∀ f ∈ fs, f.2.StandsAt text qs f.1) :
    fs.length ≤ {k | ∃ m, Warrants ((qs.drop k).map Located.drawn) m}.ncard := by
  have hnodup : (fs.map Prod.fst).Nodup :=
    List.pairwise_map.2 (h.imp fun hlt => Nat.ne_of_lt hlt)
  have hsub : ((fs.map Prod.fst).toFinset : Set ℕ) ⊆
      {k | ∃ m, Warrants ((qs.drop k).map Located.drawn) m} := by
    intro k hk
    obtain ⟨f, hf, rfl⟩ := List.mem_map.1 (List.mem_toFinset.1 hk)
    obtain ⟨_, _, _, -, -, -, hdue, -⟩ := hstands f hf
    exact ⟨_, hdue⟩
  have hfinite : {k | ∃ m, Warrants ((qs.drop k).map Located.drawn) m}.Finite := by
    refine (Set.finite_lt_nat qs.length).subset ?_
    rintro k ⟨m, hm⟩
    by_contra hk
    rw [List.drop_eq_nil_of_le (not_lt.1 hk)] at hm
    cases hm
  have hcard := Set.ncard_le_ncard hsub hfinite
  rw [Set.ncard_coe_finset, List.toFinset_card_of_nodup hnodup, List.length_map] at hcard
  exact hcard

end Located

/-- The findings of a report are in the order of the tokens they are due for, each with the line on
which its token starts. -/
theorem findings_placed (mode : Mode) (text : Text) :
    ∃ (qs : List Located) (tail : Text) (fs : List (ℕ × Finding)),
      Delivers (.ofText mode text) (qs.map Located.drawn) (lint mode text).error ∧
      text = qs.flatMap Located.source ++ tail ∧ (∀ q ∈ qs, q.Stands) ∧
      (lint mode text).findings = fs.map Prod.snd ∧ fs.Pairwise (fun f g => f.1 < g.1) ∧
      (∀ f ∈ fs, f.2.StandsAt text qs f.1) ∧
      (lint mode text).findings.Pairwise (fun f g => f.line ≤ g.line) ∧
      (lint mode text).findings.length ≤
        {k | ∃ m, Warrants ((qs.drop k).map Located.drawn) m}.ncard := by
  obtain ⟨ts, r, hts⟩ := exists_delivers (.ofText mode text)
  obtain ⟨qs, tail, rfl, htext, -, hstands, hlines⟩ :=
    hts.located (TokenStream.covers_ofText _ _) (TokenStream.queueSplit_ofText _ _)
  obtain ⟨fs, hfs, hmap⟩ := Watch.exists_placed (qs.map Located.drawn)
  rw [hts.lint_eq]
  dsimp only
  rw [← hmap]
  have hplaces : ∀ f ∈ fs, f.2.StandsAt text qs f.1 :=
    fun f hf => (hfs.stands f hf).standsAt htext hstands hlines
  refine ⟨qs, tail, fs, hts, htext, hstands, rfl, hfs.increasing, hplaces, ?_, ?_⟩
  · refine List.pairwise_map.2 (hfs.increasing.imp_of_mem fun hf hg hlt => ?_)
    exact (hplaces _ hf).line_le (hplaces _ hg) hstands hlt.le
  · rw [List.length_map]
    exact Finding.length_le hfs.increasing hplaces

end ClassicAsp
