import ClassicAsp.Proofs.Delimiters
import ClassicAsp.Proofs.Emission
import ClassicAsp.Proofs.LineNumber

/-! The lines of a formatted page. Every newline of a page belongs to one of its tokens and is
written with it, so that each token stays on its line. The one exception are include directives,
whose newlines outside of the path are not kept. -/
namespace ClassicAsp

open Text (newlines newlines_append newlines_eq_zero)

namespace Text

theorem newline_not_mem_digits {s : Text} (h : Decimal.IsDigits s) : '\n' ∉ s :=
  fun hm => absurd (h '\n' hm) (by decide)

theorem newline_not_mem_ofInt (i : ℤ) : '\n' ∉ ofInt i := by
  have hdigits := newline_not_mem_digits (Decimal.isDigits_toDigits i.natAbs)
  unfold ofInt
  split
  · simpa [ofNat] using hdigits
  · exact hdigits

@[simp] theorem newlines_quote (s : Text) : newlines (quote s) = newlines s := by
  have hdouble : newlines (doubleQuotes s) = newlines s := by
    induction s with
    | nil => rfl
    | cons c s ih =>
      rw [doubleQuotes_cons]
      split
      · next hc => simp [hc, ih]
      · simp [ih]
  simp [quote, hdouble]

end Text

namespace Binary64

theorem newline_not_mem_fraction {f : Text} (h : Decimal.IsFraction f) : '\n' ∉ f := by
  rcases h with rfl | ⟨t, ht, rfl⟩
  · simp
  · simp [Text.newline_not_mem_digits ht]

theorem newline_not_mem_signed {x : Binary64} {s : Text} (h : '\n' ∉ s) : '\n' ∉ x.signed s := by
  unfold signed
  split
  · simpa using h
  · exact h

theorem newline_not_mem_positional (x : Binary64) : '\n' ∉ x.positional := by
  obtain ⟨w, f, hw, -, hf, hform, -⟩ := x.shortest.positional_form
  refine newline_not_mem_signed ?_
  rw [hform]
  exact List.not_mem_append (Text.newline_not_mem_digits hw) (newline_not_mem_fraction hf)

theorem newline_not_mem_scientific {x : Binary64} (h : x.reaches 15 = true) :
    '\n' ∉ x.scientific := by
  obtain ⟨c, f, hc, hf, hform, -⟩ :=
    Decimal.scientific_form (shortest_range (position_ne_zero h)).1
  have hdigit : '\n' ∉ [c] := by
    intro hm
    rw [← List.mem_singleton.1 hm] at hc
    exact absurd hc (by decide)
  refine newline_not_mem_signed ?_
  rw [hform]
  refine List.not_mem_append hdigit (List.not_mem_append (newline_not_mem_fraction hf) ?_)
  simpa using Text.newline_not_mem_ofInt _

end Binary64

namespace Token

@[simp] theorem newlines_canonical (t : Token) : newlines t.canonical = newlines t.text := by
  cases t with
  | boolean b => cases b <;> rfl
  | float x =>
    have hfloat : '\n' ∉ (Token.float x).canonical := by
      change '\n' ∉ if x.reaches 15 then x.scientific else x.positional
      split
      · next h => exact x.newline_not_mem_scientific h
      · exact x.newline_not_mem_positional
    rw [newlines_eq_zero.2 hfloat]
    exact (newlines_eq_zero.2 x.newline_not_mem_positional).symm
  | string s => exact Text.newlines_quote s
  | date d =>
    have hmarks : (Token.date d).canonical = ['#'] ++ (d.write ++ ['#']) := rfl
    simp [hmarks, text]
  | comment s =>
    change newlines (if s = [] then ['\''] else '\'' :: ' ' :: s) = newlines s
    split
    · next h => rw [h]; rfl
    · simp
  | directive d =>
    have hkind : newlines d.kind.word = 0 := by cases d.kind <;> decide
    have hmarks : (Token.directive d).canonical = "<!--#include ".toList ++ d.kind.word ++
        (['=', '"'] ++ (d.path ++ "\"-->".toList)) := rfl
    simp [hmarks, hkind, text]
  | lineEnd e => cases e <;> rfl
  | _ => rfl

@[simp] theorem newlines_reread (t : Token) : newlines t.reread.text = newlines t.text := by
  cases t with
  | float x =>
    by_cases hw : x.IsWhole
    · have hfloat : newlines (Token.float x).text = 0 :=
        newlines_eq_zero.2 x.newline_not_mem_positional
      have hwhole : ∀ n : ℕ, newlines (Token.integer n).text = 0 :=
        fun n => newlines_eq_zero.2 (Text.newline_not_mem_ofInt n)
      rw [reread, if_pos hw, hfloat, hwhole]
    · rw [reread, if_neg hw]
  | _ => rfl

end Token

theorem Lexeme.IsRead.newlines_token {l : Lexeme} {t : Token} {atLineEnd : Bool} (hl : l.IsRead)
    (h : l.token atLineEnd = .ok t) : newlines t.text = if l = .lineEnd .newline then 1 else 0 := by
  cases l with
  | lineEnd e =>
    cases h
    cases e <;> rfl
  | identifier w =>
    cases h
    rw [if_neg (by simp), newlines_eq_zero]
    intro hm
    have hname := isName_chars (Token.isWord_ofName hl.1 hl.2).name '\n' hm
    exact absurd hname (by decide)
  | operator o w =>
    cases h
    rw [if_neg (by simp)]
    cases o <;> decide
  | string s =>
    cases h
    rw [if_neg (by simp), newlines_eq_zero]
    exact hl.noNewline
  | integer w =>
    obtain ⟨i, -, rfl⟩ := Source.map_eq_ok h
    rw [if_neg (by simp), newlines_eq_zero]
    exact Text.newline_not_mem_ofInt i
  | float w =>
    obtain ⟨x, -, rfl⟩ := Source.map_eq_ok h
    rw [if_neg (by simp), newlines_eq_zero]
    exact x.newline_not_mem_positional
  | date s =>
    cases h
    rw [if_neg (by simp), newlines_eq_zero]
    intro hm
    exact absurd (DateLiteral.isDateChar_write_read hl '\n' hm) (by decide)
  | comment s =>
    cases h
    rw [if_neg (by simp), newlines_eq_zero]
    exact fun hm => hl.noNewline ((Text.trim_infix s).subset hm)
  | punctuation c =>
    obtain rfl := Except.ok.inj h
    have hl' : Lexeme.punctuation c ≠ .lineEnd .newline := by simp
    rw [if_neg hl', newlines_eq_zero]
    split
    · decide
    · intro hm
      have hc : Source.isPunctuation c = true := hl
      rw [← List.mem_singleton.1 hm] at hc
      exact absurd hc (by decide)
  | markup | endOfInput => exact hl.elim

theorem Lexeme.token_ne_directive {l : Lexeme} {d : Directive} {atLineEnd : Bool} :
    l.token atLineEnd ≠ .ok (.directive d) := by
  intro h
  cases Gives.of_token h

def Spelled.IsPiece (t : Spelled) : Prop := ∃ text, ∃ p ∈ Segment.split text, t = p.spelled

/-- The newlines in a directive as it was written, but for those in its path. -/
def Spelled.outside (t : Spelled) : ℕ :=
  match t.token with
  | .directive d => newlines t.written - newlines d.path
  | _ => 0

theorem Spelled.IsPiece.directive {t : Spelled} (h : t.IsPiece) {d : Directive}
    (hd : t.token = .directive d) : ∃ x y, t.written = x ++ '"' :: (d.path ++ '"' :: y) ∧
      newlines t.written = newlines d.path + (newlines x + newlines y) := by
  obtain ⟨text, p, hp, rfl⟩ := h
  cases p with
  | markup => cases hd
  | directive d w =>
    cases hd
    obtain ⟨u, rest, -, hread, rfl⟩ := Segment.read?_of_split hp
    obtain ⟨x, y, -, -, hw⟩ := Directive.read?_written hread
    refine ⟨x, y, hw, ?_⟩
    change newlines (u.take (u.length - rest.length)) = _
    rw [hw]
    simp
    omega

theorem Spelled.IsPiece.newlines_written {t : Spelled} (h : t.IsPiece) :
    newlines t.written = newlines t.token.text + t.outside := by
  obtain ⟨text, p, -, rfl⟩ := id h
  cases p with
  | markup s => rfl
  | directive d w =>
    obtain ⟨x, y, -, hcount⟩ := h.directive rfl
    change newlines w = newlines d.path + (newlines w - newlines d.path)
    change newlines w = _ at hcount
    omega

namespace TokenStream

variable {s u : TokenStream} {t : Spelled} {text covered : Text}

def QueueSplit (s : TokenStream) : Prop := ∀ t ∈ s.queue, t.IsPiece

theorem queueSplit_ofText (mode : Mode) (text : Text) : (ofText mode text).QueueSplit := by
  intro t ht
  cases ht

/-- A draw moves the line on by the newlines of the token, and of a directive outside its path. -/
theorem QueueSplit.next (hs : s.QueueSplit) (h : s.next = (.ok t, u)) :
    u.QueueSplit ∧ u.line = s.line + (newlines t.token.text + t.outside) ∧
      (t.token.isMarkupLike = true → t.IsPiece) := by
  cases drawn_of_next h with
  | queued source t q line =>
    have hpiece := hs t List.mem_cons_self
    refine ⟨fun v hv => hs v (List.mem_cons_of_mem _ hv), ?_, fun _ => hpiece⟩
    rw [← hpiece.newlines_written]
  | @markup source rest chunk t q hn hq line =>
    have hpieces : ∀ v ∈ t :: q, v.IsPiece := by
      intro v hv
      rw [← hq] at hv
      obtain ⟨p, hp, rfl⟩ := List.mem_map.1 hv
      exact ⟨chunk, p, hp, rfl⟩
    have hpiece := hpieces t List.mem_cons_self
    refine ⟨fun v hv => hpieces v (List.mem_cons_of_mem _ hv), ?_, fun _ => hpiece⟩
    rw [← hpiece.newlines_written]
  | @script source rest l t hn hm ht line =>
    have hscript := Lexeme.isMarkupLike_token hm ht
    have houtside : (⟨t, l.text⟩ : Spelled).outside = 0 := by
      unfold Spelled.outside
      cases t with
      | directive => cases hscript
      | _ => rfl
    refine ⟨fun v hv => (by cases hv), ?_, fun hmarkup => ?_⟩
    · rw [houtside, Nat.add_zero]
      by_cases he : l = .endOfInput
      · subst he
        cases ht
        rfl
      · obtain ⟨w, hw⟩ := Source.takes_of_next hn
        obtain ⟨hl, -⟩ := hw.of_script hm he
        dsimp only
        rw [hl.newlines_token ht]
    · rw [hscript] at hmarkup
      cases hmarkup

end TokenStream

/-- A token with what stands before it, what it stands as, and the line that is reported behind it.
-/
structure Located where
  token : Spelled
  line : ℕ
  gap : Text
  slice : Text

namespace Located

def source (q : Located) : Text := q.gap ++ q.slice

def drawn (q : Located) : Spelled × ℕ := (q.token, q.line)

structure Stands (q : Located) : Prop where
  gap : '\n' ∉ q.gap
  shows : q.token.Shows q.slice
  count : newlines q.slice = newlines q.token.token.text + q.token.outside
  directive : ∀ d, q.token.token = .directive d → ∃ x y,
    q.slice = x ++ '"' :: (d.path ++ '"' :: y) ∧ q.token.outside = newlines x + newlines y

theorem Stands.newlines_source {q : Located} (h : q.Stands) :
    Text.newlines q.source = Text.newlines q.token.token.text + q.token.outside := by
  simp [source, newlines_eq_zero.2 h.gap, h.count]

theorem newlines_sources {qs : List Located} (h : ∀ q ∈ qs, q.Stands) :
    Text.newlines (qs.flatMap source) =
      (qs.map fun q => Text.newlines q.token.token.text).sum +
        (qs.map fun q => q.token.outside).sum := by
  induction qs with
  | nil => rfl
  | cons q qs ih =>
    have hq := (h q List.mem_cons_self).newlines_source
    have hqs := ih fun r hr => h r (List.mem_cons_of_mem _ hr)
    simp [hq, hqs]
    omega

end Located

/-- Tokens located in a text one behind the other. What is left of the text has no newline. -/
structure Locates (text : Text) (qs : List Located) : Prop where
  text_eq : ∃ tail, '\n' ∉ tail ∧ text = qs.flatMap Located.source ++ tail
  stands : ∀ q ∈ qs, q.Stands
  line_eq : ∀ n q, qs[n]? = some q →
    q.line = 1 + newlines ((qs.take (n + 1)).flatMap Located.source)

theorem Spelled.Shows.slice_eq {t : Spelled} {slice : Text} {d : Directive} (h : t.Shows slice)
    (hd : t.token = .directive d) : slice = t.written := by
  cases h with
  | piece p => rfl
  | script hl =>
    dsimp only at hd
    rw [hd] at hl
    exact absurd hl Lexeme.token_ne_directive
  | ended => cases hd

namespace TokenStream

variable {s u : TokenStream} {t : Spelled} {text covered : Text}

theorem Covers.located (hs : Covers text covered s) (hq : s.QueueSplit)
    (h : s.next = (.ok t, u)) :
    ∃ q : Located, q.drawn = (t, u.line) ∧ q.Stands ∧ Covers text (covered ++ q.source) u ∧
      (t.token = .endOfInput → u.queue = [] ∧ u.source.rest = []) := by
  obtain ⟨gap, slice, hgap, hshows, hcovers, hend⟩ := hs.next h
  obtain ⟨-, hline, hpiece⟩ := hq.next h
  have hslice : newlines slice = newlines t.token.text + t.outside := by
    have hcount := hcovers.line_eq
    simp [hline, hs.line_eq, newlines_eq_zero.2 hgap] at hcount
    omega
  refine ⟨⟨t, u.line, gap, slice⟩, rfl, ⟨hgap, hshows, hslice, ?_⟩, hcovers, hend⟩
  intro d hd
  obtain ⟨x, y, hw, hcount⟩ := (hpiece (by rw [hd]; rfl)).directive hd
  refine ⟨x, y, (hshows.slice_eq hd).trans hw, ?_⟩
  rw [hshows.slice_eq hd, hcount, hd] at hslice
  change newlines d.path + _ = newlines d.path + _ at hslice
  dsimp only
  omega

end TokenStream

/-- The tokens that a page delivers are located in it. Newlines are left over only behind an error.
-/
theorem Delivers.located {text covered : Text} {s : TokenStream} {ts : List (Spelled × ℕ)}
    {r : Option PageError} (h : Delivers s ts r) (hs : TokenStream.Covers text covered s)
    (hq : s.QueueSplit) :
    ∃ (qs : List Located) (tail : Text), ts = qs.map Located.drawn ∧
      text = covered ++ (qs.flatMap Located.source ++ tail) ∧ (r = none → '\n' ∉ tail) ∧
      (∀ q ∈ qs, q.Stands) ∧
      ∀ n q, qs[n]? = some q →
        q.line = 1 + newlines (covered ++ (qs.take (n + 1)).flatMap Located.source) := by
  induction h generalizing covered with
  | failed h =>
    obtain ⟨d, -, htext⟩ := hs.text_eq
    exact ⟨[], _, rfl, htext, nofun, by simp, by simp⟩
  | @ended s t h ht =>
    obtain ⟨u, hn⟩ : ∃ u, s.next = (.ok t, u) := ⟨s.next.2, by rw [← h]⟩
    obtain ⟨q, hdrawn, hstands, hcovers, hend⟩ := hs.located hq hn
    obtain ⟨hqueue, hrest⟩ := hend ht
    obtain ⟨d, hd, htext⟩ := hcovers.text_eq
    refine ⟨[], q.source ++ d, rfl, ?_, fun _ => ?_, by simp, by simp⟩
    · rw [htext, TokenStream.queued, hqueue, hrest]
      simp
    · refine List.not_mem_append (newlines_eq_zero.1 ?_) (TokenStream.newlines_delimiter hd)
      obtain rfl : q.token = t := congrArg Prod.fst hdrawn
      rw [hstands.newlines_source, Spelled.outside, ht]
      rfl
  | @draw s u t ts r hn ht _ ih =>
    obtain ⟨q, hdrawn, hstands, hcovers, -⟩ := hs.located hq hn
    obtain ⟨qs, tail, rfl, htext, htail, hall, hlines⟩ := ih hcovers (hq.next hn).1
    refine ⟨q :: qs, tail, ?_, ?_, htail, ?_, ?_⟩
    · rw [List.map_cons, hdrawn]
    · rw [htext, List.flatMap_cons, List.append_assoc, List.append_assoc]
    · intro r hr
      rcases List.mem_cons.1 hr with rfl | hr
      · exact hstands
      · exact hall r hr
    · intro n r hr
      cases n with
      | zero =>
        cases hr
        have hline : q.line = u.line := congrArg Prod.snd hdrawn
        simpa [hline] using hcovers.line_eq
      | succ n =>
        rw [List.take_succ_cons, List.flatMap_cons, ← List.append_assoc]
        exact hlines n r hr

theorem Written.Emits.separates {line : Prop} {last : Option Token} {t : Token} {w : Written}
    (h : w.Emits line last t) :
    ∃ separation, '\n' ∉ separation ∧ w.text = separation ++ t.canonical := by
  have hgap : '\n' ∉ w.gap := by
    rcases h.blanks with hg | hg | ⟨n, hg⟩
    · rw [hg]; decide
    · rw [hg]; decide
    · rw [hg]
      exact Source.newline_not_mem_separators (Source.isSeparator_tabs n)
  have hopens : '\n' ∉ if w.opens then ['<', '%'] else [] := by split <;> decide
  have hcloses : '\n' ∉ if w.closes then ['%', '>'] else [] := by split <;> decide
  refine ⟨_, List.not_mem_append (List.not_mem_append hopens hgap) hcloses, ?_⟩
  rw [Written.text, h.body]

theorem Layout.EmitsAll.separates {last : Option Token} {ps : List (Token × Written)}
    (h : EmitsAll last ps) :
    ∀ p ∈ ps, ∃ separation, '\n' ∉ separation ∧ p.2.text = separation ++ p.1.canonical := by
  induction ps generalizing last with
  | nil => simp
  | cons p ps ih =>
    intro q hq
    rcases List.mem_cons.1 hq with rfl | hq
    · exact h.1.separates
    · exact ih h.2 q hq

theorem newlines_emitted {ps : List (Token × Written)}
    (h : ∀ p ∈ ps, ∃ separation, '\n' ∉ separation ∧ p.2.text = separation ++ p.1.canonical) :
    newlines (ps.flatMap fun p => p.2.text) = (ps.map fun p => newlines p.1.text).sum := by
  induction ps with
  | nil => rfl
  | cons p ps ih =>
    obtain ⟨separation, hs, htext⟩ := h p List.mem_cons_self
    simp [ih fun q hq => h q (List.mem_cons_of_mem _ hq), htext, newlines_eq_zero.2 hs]

section Located

variable {text : Text} {qs : List Located} {ws : List (Token × Written)}

theorem Delivers.locates {mode : Mode} {ts : List (Spelled × ℕ)}
    (h : Delivers (.ofText mode text) ts none) :
    ∃ qs, ts = qs.map Located.drawn ∧ Locates text qs := by
  obtain ⟨qs, tail, hts, htext, htail, hstands, hlines⟩ :=
    h.located (TokenStream.covers_ofText _ _) (TokenStream.queueSplit_ofText _ _)
  exact ⟨qs, hts, ⟨tail, htail rfl, htext⟩, hstands, hlines⟩

theorem Locates.newlines_eq (h : Locates text qs) : newlines text =
    (qs.map fun q => newlines q.token.token.text).sum + (qs.map fun q => q.token.outside).sum := by
  obtain ⟨tail, htail, htext⟩ := h.text_eq
  simp [htext, newlines_eq_zero.2 htail, Located.newlines_sources h.stands]

/-- Tokens are written with the newlines that they have where they stand, but for those of
directives outside their paths. -/
theorem Located.newlines_emitted (hqs : ∀ q ∈ qs, q.Stands)
    (hws : ∀ p ∈ ws, ∃ separation, '\n' ∉ separation ∧ p.2.text = separation ++ p.1.canonical)
    (h : ws.map Prod.fst = qs.map fun q => q.token.token) :
    newlines (ws.flatMap fun p => p.2.text) + (qs.map fun q => q.token.outside).sum =
      newlines (qs.flatMap Located.source) := by
  have hcounts : (ws.map fun p => newlines p.1.text) =
      qs.map fun q => newlines q.token.token.text := by
    have hmap := congrArg (List.map fun t : Token => newlines t.text) h
    rwa [List.map_map, List.map_map] at hmap
  rw [ClassicAsp.newlines_emitted hws, Located.newlines_sources hqs, hcounts]

theorem Located.newlines_emitted_take (hqs : ∀ q ∈ qs, q.Stands)
    (hws : ∀ p ∈ ws, ∃ separation, '\n' ∉ separation ∧ p.2.text = separation ++ p.1.canonical)
    (h : ws.map Prod.fst = qs.map fun q => q.token.token) (n : ℕ) :
    newlines ((ws.take n).flatMap fun p => p.2.text) +
      ((qs.take n).map fun q => q.token.outside).sum =
        newlines ((qs.take n).flatMap Located.source) := by
  refine Located.newlines_emitted (fun q hq => hqs q (List.mem_of_mem_take hq))
    (fun p hp => hws p (List.mem_of_mem_take hp)) ?_
  rw [List.map_take, List.map_take, h]

theorem Located.sum_outside_take (h : ∀ q ∈ qs, q.token.outside = 0) (n : ℕ) :
    ((qs.take n).map fun q => q.token.outside).sum = 0 := by
  refine List.sum_eq_zero fun k hk => ?_
  obtain ⟨q, hq, rfl⟩ := List.mem_map.1 hk
  exact h q (List.mem_of_mem_take hq)

theorem Locates.line_eq_sum (h : Locates text qs) (houtside : ∀ q ∈ qs, q.token.outside = 0)
    {n : ℕ} {q : Located} (hq : qs[n]? = some q) :
    q.line = 1 + ((qs.map fun q => newlines q.token.token.text).take (n + 1)).sum := by
  rw [h.line_eq n q hq, Located.newlines_sources fun r hr => h.stands r (List.mem_of_mem_take hr),
    Located.sum_outside_take houtside, List.map_take]
  rfl

theorem Locates.lines_eq {out : Text} {rs : List Located} (h : Locates text qs)
    (h' : Locates out rs) (hq : ∀ q ∈ qs, q.token.outside = 0)
    (hr : ∀ q ∈ rs, q.token.outside = 0)
    (hcounts : (rs.map fun q => newlines q.token.token.text) =
      qs.map fun q => newlines q.token.token.text) :
    rs.map Located.line = qs.map Located.line := by
  have hlength : rs.length = qs.length := by simpa using congrArg List.length hcounts
  refine List.ext_getElem (by simpa using hlength) fun n hn hn' => ?_
  rw [List.length_map] at hn hn'
  rw [List.getElem_map, List.getElem_map, h.line_eq_sum hq (List.getElem?_eq_getElem hn'),
    h'.line_eq_sum hr (List.getElem?_eq_getElem hn), hcounts]

end Located

/-- In normal mode every token stays on its line, but for the newlines in directives outside their
paths. -/
theorem format_keeps_lines {o : Options} (ho : o.output = .normal) {text out : Text}
    (h : format o text = .ok out) :
    ∃ qs : List Located, Delivers (.ofText o.initialMode text) (qs.map Located.drawn) none ∧
      Locates text qs ∧
      let ws := ({} : Layout).pieces o (qs.map fun q => q.token.token)
      out = ws.flatMap (fun p => p.2.text) ∧
      (∀ p ∈ ws, ∃ separation, '\n' ∉ separation ∧ p.2.text = separation ++ p.1.canonical) ∧
      (∀ n, newlines ((ws.take n).flatMap fun p => p.2.text) +
        ((qs.take n).map fun q => q.token.outside).sum =
          newlines ((qs.take n).flatMap Located.source)) ∧
      newlines out + (qs.map fun q => q.token.outside).sum = newlines text ∧
      ((∀ q ∈ qs, q.token.outside = 0) →
        (∀ n q, qs[n]? = some q →
          q.line = 1 + newlines ((ws.take (n + 1)).flatMap fun p => p.2.text)) ∧
        ∀ vs, Delivers (.ofText o.initialMode out) vs none →
          vs.map (fun v => v.1.token) = qs.map (fun q => q.token.token.reread) →
          vs.map Prod.snd = qs.map Located.line) := by
  obtain ⟨hopening, hrewrites⟩ := opening_normal ho
  obtain ⟨ts, r, hd⟩ := exists_delivers (.ofText o.initialMode text)
  cases r with
  | some e =>
    rw [hd.format_error] at h
    cases h
  | none =>
  obtain ⟨qs, rfl, hlocates⟩ := hd.locates
  have hout : out = (({} : Layout).pieces o (qs.map fun q => q.token.token)).flatMap
      fun p => p.2.text := by
    rw [hd.format_ok, hopening, List.nil_append, Layout.lay_eq_pieces hrewrites] at h
    rw [← Except.ok.inj h, List.map_map]
    rfl
  have hseparates := (Layout.trails_default.emitsAll hrewrites
    (qs.map fun q => q.token.token)).separates
  have htokens := Layout.pieces_tokens o {} (qs.map fun q => q.token.token)
  have hbefore := Located.newlines_emitted_take hlocates.stands hseparates htokens
  have htotal : newlines out + (qs.map fun q => q.token.outside).sum = newlines text := by
    obtain ⟨tail, htail, htext⟩ := hlocates.text_eq
    simp [hout, Located.newlines_emitted hlocates.stands hseparates htokens, htext,
      newlines_eq_zero.2 htail]
  refine ⟨qs, hd, hlocates, hout, hseparates, hbefore, htotal, fun houtside =>
    ⟨fun n q hq => ?_, fun vs hvs hv => ?_⟩⟩
  · rw [hlocates.line_eq n q hq, ← hbefore, Located.sum_outside_take houtside, Nat.add_zero]
  · obtain ⟨rs, rfl, hlocates'⟩ := hvs.locates
    rw [List.map_map] at hv ⊢
    have hcounts : (rs.map fun q => newlines q.token.token.text) =
        qs.map fun q => newlines q.token.token.text := by
      have hmap := congrArg (List.map fun t : Token => newlines t.text) hv
      rw [List.map_map, List.map_map] at hmap
      exact hmap.trans (List.map_congr_left fun q _ => q.token.token.newlines_reread)
    -- the formatted page has no more newlines than its tokens, so none are left to its directives
    have hnone : (rs.map fun q => q.token.outside).sum = 0 := by
      have hcount := hlocates.newlines_eq
      have hcount' := hlocates'.newlines_eq
      rw [hcounts] at hcount'
      omega
    refine hlocates.lines_eq hlocates' houtside (fun q hq => ?_) hcounts
    exact List.sum_eq_zero_iff_forall_eq_nat.1 hnone _ (List.mem_map_of_mem hq)

/-- A directive that is broken before its path, and one that is broken in it. -/
theorem format_keeps_lines_include :
    let text := "<!--#include\nfile=\"a\"-->\n<%\nx%>".toList
    let out := "<!--#include file=\"a\"-->\n<%\nx %>".toList
    let text' := "<!-- #include file=\"a\nb\" -->\n<%x=0.5E1%>".toList
    let out' := "<!--#include file=\"a\nb\"-->\n<%x = 5 %>".toList
    format {} text = .ok out ∧ format {} text' = .ok out' ∧ newlines out + 1 = newlines text ∧
      (∃ qs, Locates text qs ∧
        newlines out + (qs.map fun q => q.token.outside).sum = newlines text) ∧
      ∃ ts vs, Delivers (.ofText .markup text') ts none ∧ Delivers (.ofText .markup out') vs none ∧
        vs.map Prod.snd = ts.map Prod.snd := by
  intro text out text' out'
  let path : Text := ['a', '\n', 'b']
  let rest : List Spelled := [⟨.markup ['\n'], ['\n']⟩, ⟨.identifier ['x'], ['x']⟩,
    ⟨.operator .equal, ['=']⟩]
  let us : List Spelled := ⟨.directive ⟨.file, path⟩, "<!-- #include file=\"a\nb\" -->".toList⟩ ::
    rest ++ [⟨.float ⟨false, 0x4014000000000000, by decide⟩, "0.5E1".toList⟩, ⟨.markup [], []⟩]
  let us' : List Spelled := ⟨.directive ⟨.file, path⟩, "<!--#include file=\"a\nb\"-->".toList⟩ ::
    rest ++ [⟨.integer 5, ['5']⟩, ⟨.markup [], []⟩]
  have h : format {} text = .ok out := by decide +kernel
  have h' : format {} text' = .ok out' := by decide +kernel
  have hus : tokenize .markup text' = .ok (us ++ [⟨.endOfInput, []⟩]) := by decide +kernel
  have hus' : tokenize .markup out' = .ok (us' ++ [⟨.endOfInput, []⟩]) := by decide +kernel
  obtain ⟨qs, -, hlocates, -, -, -, htotal, -⟩ := format_keeps_lines (o := {}) rfl h
  obtain ⟨rs, hrs, -, -, -, -, -, hlines⟩ := format_keeps_lines (o := {}) rfl h'
  obtain ⟨vs, hvs, hvs'⟩ := delivers_of_tokenize hus'
  have hread : rs.map Located.token = us := by
    rw [hrs.tokenize_ok, List.map_map] at hus
    exact List.append_cancel_right (Except.ok.inj hus)
  have hread' : vs.map Prod.fst = us' := (List.append_cancel_right hvs').symm
  have houtside : ∀ q ∈ rs, q.token.outside = 0 := by
    intro q hq
    have hall : ∀ t ∈ us, t.outside = 0 := by decide +kernel
    exact hall q.token (hread ▸ List.mem_map_of_mem hq)
  have hsame : vs.map (fun v => v.1.token) = rs.map fun q => q.token.token.reread := by
    have hreread : us'.map Spelled.token = us.map fun t => t.token.reread := by decide +kernel
    rw [← hread, ← hread', List.map_map, List.map_map] at hreread
    exact hreread
  refine ⟨h, h', by decide +kernel, ⟨qs, hlocates, htotal⟩, _, vs, hrs, hvs, ?_⟩
  rw [List.map_map]
  exact (hlines houtside).2 vs hvs hsame

end ClassicAsp
