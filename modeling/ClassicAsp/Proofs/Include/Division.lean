import ClassicAsp.Proofs.Include.Grammar

/-! The division of a text by its directives. The pieces lie one behind the other and are all of
the text, every directive is one of the grammar, and none begins inside of markup. Dividing the
canonical form of a text gives the same pieces. -/
namespace ClassicAsp.Segment

open Directive (WrittenAs Bare Begins At IsFirst Opens header? find? findFrom?)
open Text (Cut IsBoundary bytes Lacks)

/-- How directives divide a text: no two stretches of markup touch, none is empty, and in none does
a directive begin. -/
inductive Divides : List Segment → Text → Prop where
  | nil : Divides [] []
  | last {m} (hm : m ≠ []) (hb : Bare m []) : Divides [markup m] m
  | directive {d w rest ps} (hw : WrittenAs d w) (h : Divides ps rest) :
      Divides (directive d w :: ps) (w ++ rest)
  | markup {m d w rest ps} (hm : m ≠ []) (hb : Bare m (w ++ rest)) (hw : WrittenAs d w)
      (h : Divides ps rest) : Divides (markup m :: directive d w :: ps) (m ++ (w ++ rest))

theorem Divides.pending {read w rest : Text} {d : Directive} {ps : List Segment}
    (hb : Bare read.reverse (w ++ rest)) (hw : d.WrittenAs w) (h : Divides ps rest) :
    Divides (Segment.pending read ++ .directive d w :: ps) (read.reverse ++ (w ++ rest)) := by
  by_cases hr : read = []
  · simpa [Segment.pending, hr] using Divides.directive hw h
  · simpa [Segment.pending, hr] using Divides.markup (by simpa using hr) hb hw h

theorem divides_splitFrom {read s : Text} (hb : Bare read.reverse s) :
    Divides (splitFrom read s) (read.reverse ++ s) := by
  fun_induction splitFrom read s with
  | case1 read s d rest h _ ih =>
    obtain ⟨w, hw, rfl⟩ := Directive.read?_eq_some_iff.1 h
    have hrest : Divides (splitFrom [] rest) rest := ih (Directive.bare_nil rest)
    simpa using Divides.pending hb hw hrest
  | case2 read =>
    by_cases hr : read = []
    · simpa [Segment.pending, hr] using Divides.nil
    · simpa [Segment.pending, hr] using Divides.last (by simpa using hr) hb
  | case3 read c s h ih =>
    have hc := Directive.bare_concat hb (Directive.read?_eq_none_iff.1 h)
    simpa using ih (by simpa using hc)

theorem divides_split {s : Text} (hs : s ≠ []) : Divides (split s) s := by
  rw [split, if_neg hs]
  exact divides_splitFrom (Directive.bare_nil s)

variable {s : Text} {ps : List Segment}

theorem Divides.written_eq (h : Divides ps s) : ps.flatMap written = s := by
  induction h with
  | nil => rfl
  | last => simp [written]
  | directive _ _ ih => simp [written, ih]
  | markup _ _ _ _ ih => simp [written, ih]

theorem Divides.ne_nil (h : Divides ps s) {p : Segment} (hp : p ∈ ps) : p.written ≠ [] := by
  induction h with
  | nil => cases hp
  | last hm =>
    obtain rfl := List.mem_singleton.1 hp
    exact hm
  | directive hw _ ih =>
    rcases List.mem_cons.1 hp with rfl | hp
    · exact hw.ne_nil
    · exact ih hp
  | markup hm _ hw _ ih =>
    rcases List.mem_cons.1 hp with rfl | hp
    · exact hm
    rcases List.mem_cons.1 hp with rfl | hp
    · exact hw.ne_nil
    · exact ih hp

theorem Divides.writtenAs (h : Divides ps s) {d : Directive} {w : Text}
    (hp : Segment.directive d w ∈ ps) : d.WrittenAs w := by
  induction h with
  | nil => cases hp
  | last => simp at hp
  | directive hw _ ih =>
    rcases List.mem_cons.1 hp with he | hp
    · cases he
      exact hw
    · exact ih hp
  | markup _ _ hw _ ih =>
    simp only [List.mem_cons, reduceCtorEq, false_or] at hp
    rcases hp with he | hp
    · cases he
      exact hw
    · exact ih hp

def Apart (p q : Segment) : Prop := ∀ m n, p = .markup m → q ≠ .markup n

theorem Divides.apart (h : Divides ps s) : ps.IsChain Apart := by
  have apart_directive : ∀ d w q, Apart (.directive d w) q := by
    intro d w q m n hp
    cases hp
  induction h with
  | nil => exact .nil
  | last => exact .singleton _
  | directive _ _ ih =>
    rw [List.isChain_cons]
    exact ⟨fun q _ => apart_directive _ _ q, ih⟩
  | markup _ _ _ _ ih =>
    rw [List.isChain_cons, List.isChain_cons]
    refine ⟨?_, fun q _ => apart_directive _ _ q, ih⟩
    intro q hq m n _ hn
    cases hq
    cases hn

/-- Nothing begins inside of markup, whatever follows it. -/
theorem Divides.bare {before after : List Segment} {m : Text}
    (h : Divides (before ++ .markup m :: after) s) : Bare m (after.flatMap written) := by
  generalize hps : before ++ .markup m :: after = ps at h
  induction h generalizing before with
  | nil => simp at hps
  | last _ hb =>
    cases before with
    | nil =>
      cases hps
      exact hb
    | cons p before => simp at hps
  | directive _ _ ih =>
    cases before with
    | nil => cases hps
    | cons p before => exact ih (List.cons.inj hps).2
  | markup _ hb _ h ih =>
    cases before with
    | nil =>
      cases hps
      simpa [written, h.written_eq] using hb
    | cons p before =>
      cases before with
      | nil => simp at hps
      | cons q before => exact ih (List.cons.inj (List.cons.inj hps).2).2

/-! Spans follow from the pieces alone. -/

@[simp] theorem map_spans (start : ℕ) (ps : List Segment) : (spans start ps).map Prod.fst = ps := by
  induction ps generalizing start with
  | nil => rfl
  | cons p ps ih => simp [spans, ih]

theorem spans_consecutive (start : ℕ) (ps : List Segment) :
    (∀ p ∈ (spans start ps).head?, p.2.start = start) ∧
      (spans start ps).IsChain fun p q => p.2.stop = q.2.start := by
  induction ps generalizing start with
  | nil => exact ⟨by simp [spans], .nil⟩
  | cons p ps ih =>
    obtain ⟨hhead, hchain⟩ := ih (start + bytes p.written)
    refine ⟨by simp [spans], ?_⟩
    rw [spans, List.isChain_cons]
    exact ⟨fun q hq => (hhead q hq).symm, hchain⟩

theorem spans_end (start : ℕ) (ps : List Segment) :
    ∀ p ∈ (spans start ps).getLast?, p.2.stop = start + bytes (ps.flatMap written) := by
  induction ps generalizing start with
  | nil => simp [spans]
  | cons p ps ih =>
    intro q hq
    by_cases hps : ps = []
    · subst hps
      obtain rfl : _ = q := by simpa [spans] using hq
      simp
    · have hspans : spans (start + bytes p.written) ps ≠ [] := by
        intro he
        have := map_spans (start + bytes p.written) ps
        simp_all
      rw [spans, List.getLast?_cons_of_ne_nil hspans] at hq
      simp [ih _ q hq]
      omega

theorem mem_spans {start : ℕ} {p : Segment} {span : Span} (h : (p, span) ∈ spans start ps) :
    ∃ before after, ps = before ++ p :: after ∧
      span.start = start + bytes (before.flatMap written) ∧
      span.stop = span.start + bytes p.written := by
  induction ps generalizing start with
  | nil => simp [spans] at h
  | cons q ps ih =>
    rw [spans] at h
    rcases List.mem_cons.1 h with he | h
    · cases he
      exact ⟨[], ps, rfl, by simp, rfl⟩
    · obtain ⟨before, after, rfl, hstart, hstop⟩ := ih h
      refine ⟨q :: before, after, rfl, ?_, hstop⟩
      simp only [hstart, List.flatMap_cons, Text.bytes_append]
      omega

theorem cut_of_mem_spans (hs : ps.flatMap written = s) {p : Segment} {span : Span}
    (h : (p, span) ∈ spans 0 ps) : Cut s span p.written := by
  obtain ⟨before, after, rfl, hstart, hstop⟩ := mem_spans h
  refine ⟨before.flatMap written, after.flatMap written, ?_, by simpa using hstart, ?_⟩
  · simp [← hs]
  · rw [hstop, hstart]
    omega

/-- The pieces of a text with their spans. The spans are those of consecutive pieces from the first
byte to the last. -/
structure Partition (s : Text) (ps : List (Segment × Span)) : Prop where
  first : ∃ p ∈ ps.head?, p.2.start = 0
  last : ∃ p ∈ ps.getLast?, p.2.stop = (String.ofList s).utf8ByteSize
  consecutive : ps.IsChain fun p q => p.2.stop = q.2.start
  boundaries : ∀ p ∈ ps, IsBoundary s p.2.start ∧ IsBoundary s p.2.stop
  cut : ∀ p ∈ ps, Cut s p.2 p.1.written
  apart : ps.IsChain fun p q => Apart p.1 q.1
  nonempty : ∀ p ∈ ps, p.1.written = [] → s = []
  directives : ∀ d w span, (directive d w, span) ∈ ps → WrittenAs d w
  outside : ∀ m span, (markup m, span) ∈ ps →
    ∀ d found, At d s found → found.start < span.start ∨ span.stop ≤ found.start

theorem outside_markup {m : Text} {span found : Span} {d : Directive}
    (hp : (markup m, span) ∈ spans 0 (split s)) (hfound : At d s found) :
    found.start < span.start ∨ span.stop ≤ found.start := by
  by_cases hs : s = []
  · -- an empty text has no room for a directive
    obtain ⟨w, hw, a, b, hab, -⟩ := hfound
    simp_all [hw.ne_nil]
  · have hwritten := written_split s
    obtain ⟨before, after, hps, hspan, hstop⟩ := mem_spans hp
    have hdivides := divides_split hs
    rw [hps] at hdivides hwritten
    have hbare := hdivides.bare
    by_contra hinside
    simp only [not_or, not_lt, not_le] at hinside
    have htext : s = before.flatMap written ++ (m ++ after.flatMap written) := by
      simp [← hwritten, written]
    have hnot := hbare.not_at htext hfound (by omega)
    simp only [written] at hstop
    omega

theorem partition_split (s : Text) : Partition s (spans 0 (split s)) := by
  have hwritten := written_split s
  have hne : spans 0 (split s) ≠ [] := by
    intro h
    have hmap := map_spans 0 (split s)
    rw [h] at hmap
    exact split_ne_nil s hmap.symm
  obtain ⟨hstart, hchain⟩ := spans_consecutive 0 (split s)
  have hcut : ∀ p ∈ spans 0 (split s), Cut s p.2 p.1.written :=
    fun p hp => cut_of_mem_spans hwritten hp
  have hmem : ∀ p ∈ spans 0 (split s), p.1 ∈ split s := by
    intro p hp
    rw [← map_spans 0 (split s)]
    exact List.mem_map_of_mem hp
  have hapart : (split s).IsChain Apart := by
    by_cases hs : s = []
    · simp [hs, split]
    · exact (divides_split hs).apart
  constructor
  · exact ⟨_, List.head?_eq_some_head hne, hstart _ (List.head?_eq_some_head hne)⟩
  · have hlast := spans_end 0 (split s) _ (List.getLast?_eq_some_getLast hne)
    rw [hwritten, Nat.zero_add, Text.bytes_eq_utf8ByteSize] at hlast
    exact ⟨_, List.getLast?_eq_some_getLast hne, hlast⟩
  · exact hchain
  · exact fun p hp => (hcut p hp).isBoundary
  · exact hcut
  · rw [← map_spans 0 (split s), List.isChain_map] at hapart
    exact hapart
  · intro p hp hnil
    by_contra hs
    exact (divides_split hs).ne_nil (hmem p hp) hnil
  · intro d w span hp
    have hs : s ≠ [] := by
      rintro rfl
      have := hmem _ hp
      simp [split] at this
    exact (divides_split hs).writtenAs (hmem _ hp)
  · exact fun m span hp d found => outside_markup hp

theorem cut_path {before t p : Text} {kind : IncludeKind} (hs : s = before ++ t)
    (h : header? t = some (kind, p)) :
    ∃ opening, Opens kind opening ∧ t = opening ++ p ∧
      Cut s ⟨bytes (before ++ opening), bytes (before ++ opening) + bytes (p.takeWhile (· != '"'))⟩
        (p.takeWhile (· != '"')) := by
  obtain ⟨opening, ho, rfl⟩ := Directive.header?_eq_some_iff.1 h
  refine ⟨opening, ho, rfl, before ++ opening, p.dropWhile (· != '"'), ?_, rfl, rfl⟩
  simp [hs]

/-- A text is partitioned by its leftmost directives, and a search from a boundary finds the
leftmost one that starts there or later. -/
theorem split_partitions (s : Text) :
    Partition s (spans 0 (split s)) ∧
    (∀ before t kind p, s = before ++ t → header? t = some (kind, p) →
      ∃ opening, Opens kind opening ∧ t = opening ++ p ∧
        Cut s
          ⟨bytes (before ++ opening), bytes (before ++ opening) + bytes (p.takeWhile (· != '"'))⟩
          (p.takeWhile (· != '"'))) ∧
    ∀ offset, IsBoundary s offset →
      (∀ d span, find? s offset = some (d, span) ↔ IsFirst s offset d span) ∧
      (find? s offset = none ↔ ∀ d span, At d s span → span.start < offset) := by
  refine ⟨partition_split s, fun before t kind p => cut_path, ?_⟩
  intro offset ho
  constructor
  · intro d span
    exact Directive.find?_eq_some_iff ho
  · exact Directive.find?_eq_none_iff ho

/-- A directive inside the path of one that is not closed, behind a character of two bytes. -/
theorem split_partitions_unclosed :
    let s := "é<!--#include file=\"x<!--#Include\tVIRTUAL = \"b\"-->".toList
    let d : Directive := ⟨.virtual, ['b']⟩
    spans 0 (split s) =
      [(.markup "é<!--#include file=\"x".toList, ⟨0, 22⟩),
        (.directive d "<!--#Include\tVIRTUAL = \"b\"-->".toList, ⟨22, 51⟩)] ∧
      Partition s (spans 0 (split s)) ∧ IsBoundary s 2 ∧ IsFirst s 2 d ⟨22, 51⟩ := by
  intro s d
  obtain ⟨hpartition, -, hfind⟩ := split_partitions s
  have hsplit : spans 0 (split s) =
      [(.markup "é<!--#include file=\"x".toList, ⟨0, 22⟩),
        (.directive d "<!--#Include\tVIRTUAL = \"b\"-->".toList, ⟨22, 51⟩)] := by
    decide +kernel
  have ho : IsBoundary s 2 := Text.isBoundary_iff.2 ⟨['é'], s.tail, rfl, rfl⟩
  have hfound : find? s 2 = some (d, ⟨22, 51⟩) := by decide +kernel
  exact ⟨hsplit, hpartition, ho, ((hfind 2 ho).1 d _).1 hfound⟩

theorem find?_write {d : Directive} (h : '"' ∉ d.path) :
    find? d.write 0 = some (d, ⟨0, bytes d.write⟩) := by
  have ho : IsBoundary d.write 0 := Text.isBoundary_iff.2 ⟨[], d.write, rfl, rfl⟩
  have hread : Directive.read? (d.write ++ []) = some (d, []) := Directive.read?_write h []
  obtain ⟨w, hw, he⟩ := Directive.read?_eq_some_iff.1 hread
  obtain rfl : d.write = w := by simpa using he
  apply (Directive.find?_eq_some_iff ho).2
  constructor
  · exact ⟨d.write, hw, [], [], by simp, rfl, by simp⟩
  · exact Nat.zero_le _
  · intro d' span _ _
    exact Nat.zero_le _

/-- Writing the directives of a text in canonical form keeps its pieces, and opens no code. -/
theorem split_normalized (s : Text) :
    let s' := (split s).flatMap canonical
    split s' = (split s).map normalize ∧ (split s').map token = (split s).map token ∧
    (∀ d w span, (directive d w, span) ∈ spans 0 (split s') → w = d.write ∧ Cut s' span d.write) ∧
    (Lacks '<' '%' s → Lacks '<' '%' s') ∧
    ∀ d : Directive, '"' ∉ d.path → find? d.write 0 = some (d, ⟨0, bytes d.write⟩) := by
  intro s'
  have hs' : s' = canonicalize s := canonical_split s
  have hsplit : split s' = (split s).map normalize := by
    simp [hs']
  refine ⟨hsplit, ?_, ?_, ?_, fun d => find?_write⟩
  · simp [hs']
  · intro d w span hp
    have hcut := cut_of_mem_spans (written_split s') hp
    have hmem : directive d w ∈ split s' := by
      rw [← map_spans 0 (split s')]
      exact List.mem_map_of_mem hp
    rw [hsplit] at hmem
    obtain ⟨q, -, hq⟩ := List.mem_map.1 hmem
    have hw : w = d.write := by
      cases q with
      | markup m => cases hq
      | directive e v =>
        cases hq
        rfl
    subst hw
    exact ⟨rfl, hcut⟩
  · intro h
    rw [hs']
    exact canonicalize_lacks h

/-- A directive with blanks and capitals behind a mark that begins none. -/
theorem split_normalized_blanks :
    let s := "<!--#include<!-- #INCLUDE File = \"a\" -->".toList
    let s' := "<!--#include<!--#include file=\"a\"-->".toList
    let d : Directive := ⟨.file, ['a']⟩
    split s = [markup "<!--#include".toList,
        directive d "<!-- #INCLUDE File = \"a\" -->".toList] ∧
      split s' = [markup "<!--#include".toList, directive d d.write] ∧ Lacks '<' '%' s' ∧
      find? d.write 0 = some (d, ⟨0, bytes d.write⟩) := by
  intro s s' d
  obtain ⟨hsplit, -, -, hlacks, hfind⟩ := split_normalized s
  have hs : split s = [markup "<!--#include".toList,
      directive d "<!-- #INCLUDE File = \"a\" -->".toList] := by
    decide +kernel
  have hs' : (split s).flatMap canonical = s' := by
    rw [hs]
    decide +kernel
  have hlack : Lacks '<' '%' s := by decide +kernel
  rw [hs', hs] at hsplit
  rw [hs'] at hlacks
  exact ⟨hs, hsplit, hlacks hlack, hfind d (by decide)⟩

end ClassicAsp.Segment
