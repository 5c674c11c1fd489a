import ClassicAsp.Proofs.Page

/-! The slices of a page that its lexemes are written in. Each call takes one slice off the front
of what is unread, so the slices of a run, put together, are the text as far as it was read. -/
namespace ClassicAsp

namespace Lexeme

open Text (Lacks lacks_cons)

def OpensComment (s : Text) : Prop :=
  s = ['\''] ∨
    ∃ w b, s = w ++ [b] ∧ Text.sameWord ['r', 'e', 'm'] w = true ∧ (b = ' ' ∨ b = '\t')

/-- How a lexeme of script is written. Only a comment loses something: its carriage returns and what
opens it. -/
def WrittenAs (l : Lexeme) (s : Text) : Prop :=
  match l with
  | identifier w | operator _ w | integer w | float w => s = w
  | string t => s = Text.quote t
  | date t => s = '#' :: (t ++ ['#'])
  | comment t => ∃ mark body, s = mark ++ body ∧ OpensComment mark ∧ '\n' ∉ body ∧
      Lacks '%' '>' body ∧ t = body.filter (· ≠ '\r')
  | punctuation c => s = [c]
  | lineEnd e => s = e.text
  | markup _ | endOfInput => False

theorem readName_split (c : Char) (s : Text) :
    c :: s = (readName c s).1.text ++ (readName c s).2 := by
  have hs : c :: s = (c :: s.takeWhile isNameChar) ++ s.dropWhile isNameChar := by
    rw [List.cons_append, List.takeWhile_append_dropWhile]
  unfold readName
  dsimp only
  split
  · exact hs
  · exact hs

theorem readSign_split (s : Text) : s = (readSign s).1 ++ (readSign s).2 := by
  unfold readSign
  split
  · rfl
  · rfl
  · rfl

theorem readFraction_split (s : Text) : s = (readFraction s).1 ++ (readFraction s).2 := by
  unfold readFraction
  split
  · rw [List.cons_append, List.takeWhile_append_dropWhile]
  · rfl

theorem readExponent_split (s : Text) : s = (readExponent s).1 ++ (readExponent s).2 := by
  cases s with
  | nil => rfl
  | cons c s =>
    simp only [readExponent]
    split
    · have hs := readSign_split s
      rw [List.cons_append, List.cons_append, List.append_assoc, List.takeWhile_append_dropWhile,
        ← hs]
    · rfl

theorem readNumber_split (c : Char) (s : Text) :
    c :: s = (readNumber c s).1.text ++ (readNumber c s).2 := by
  have hf := readFraction_split (s.dropWhile Char.isDigit)
  have he := readExponent_split (readFraction (s.dropWhile Char.isDigit)).2
  have hs : c :: s = (c :: s.takeWhile Char.isDigit ++
      (readFraction (s.dropWhile Char.isDigit)).1 ++
      (readExponent (readFraction (s.dropWhile Char.isDigit)).2).1) ++
      (readExponent (readFraction (s.dropWhile Char.isDigit)).2).2 := by
    rw [List.append_assoc, ← he, List.append_assoc, ← hf, List.cons_append,
      List.takeWhile_append_dropWhile]
  unfold readNumber
  dsimp only
  split
  · exact hs
  · exact hs

theorem readRadix?_split {s rest : Text} {l : Lexeme} (h : readRadix? s = some (l, rest)) :
    s = l.text ++ rest := by
  unfold readRadix? at h
  split at h
  · obtain ⟨p, -, h⟩ := Option.bind_eq_some_iff.1 h
    split at h
    · cases h
      rw [text, List.cons_append, List.cons_append, List.takeWhile_append_dropWhile]
    · cases h
  · cases h

theorem readString_split {s t : Text} (h : (readString s).1 = .ok t) :
    s = Text.doubleQuotes t ++ '"' :: (readString s).2 := by
  fun_induction readString s generalizing t with
  | case1 => cases h
  | case2 s r rest e ih =>
    obtain ⟨u, hu, rfl⟩ := Source.map_eq_ok h
    have hs := ih (t := u) (by rw [e]; exact hu)
    rw [e] at hs
    rw [Text.doubleQuotes_cons, if_pos rfl, hs]
    rfl
  | case3 s =>
    cases h
    rfl
  | case4 s => cases h
  | case5 c s => cases h
  | case6 c s hdouble hquote _ _ r rest e ih =>
    obtain ⟨u, hu, rfl⟩ := Source.map_eq_ok h
    have hs := ih (t := u) (by rw [e]; exact hu)
    have hc : c ≠ '"' := by
      rintro rfl
      exact hquote rfl
    rw [e] at hs
    rw [Text.doubleQuotes_cons, if_neg hc, hs]
    rfl

theorem readDate_split {s t : Text} (h : (readDate s).1 = .ok t) :
    s = t ++ '#' :: (readDate s).2 := by
  fun_induction readDate s generalizing t with
  | case1 => cases h
  | case2 s =>
    cases h
    rfl
  | case3 s => cases h
  | case4 c s => cases h
  | case5 c s _ _ _ _ r rest e ih =>
    obtain ⟨u, hu, rfl⟩ := Source.map_eq_ok h
    have hs := ih (t := u) (by rw [e]; exact hu)
    rw [e] at hs
    rw [hs]
    rfl
  | case6 c s => cases h

theorem readComment_split (s : Text) :
    ∃ body, s = body ++ (readComment s).2 ∧ '\n' ∉ body ∧ Lacks '%' '>' body ∧
      (readComment s).1 = body.filter (· ≠ '\r') ∧ (body.head? = some '>' → s.head? = some '>') := by
  fun_induction readComment s with
  | case1 => exact ⟨[], rfl, by simp, by simp, rfl, by simp⟩
  | case2 s => exact ⟨[], rfl, by simp, by simp, rfl, by simp⟩
  | case3 s => exact ⟨[], rfl, by simp, by simp, rfl, by simp⟩
  | case4 c s hn hp t rest e ih =>
    rw [e] at ih
    obtain ⟨body, hs, hline, hlacks, hkept, hhead⟩ := ih
    dsimp only at hs hkept ⊢
    refine ⟨c :: body, by rw [hs]; rfl, ?_, lacks_cons.2 ⟨?_, hlacks⟩, ?_, by simp⟩
    · rw [List.mem_cons, not_or]
      exact ⟨fun hc => hn hc.symm, hline⟩
    · rintro rfl hgt
      obtain ⟨u, hu⟩ : ∃ u, s = '>' :: u := ⟨s.tail, List.eq_cons_of_mem_head? (hhead hgt)⟩
      exact hp u rfl hu
    · rw [List.filter_cons, hkept]
      by_cases hc : c = '\r'
      · simp [hc]
      · simp [hc]

theorem remark?_split {s rest : Text} (h : remark? s = some rest) :
    ∃ mark, s = mark ++ rest ∧ OpensComment mark := by
  unfold remark? at h
  split at h
  · next b t he =>
    split at h
    · next hb =>
      obtain rfl := Option.some.inj h
      obtain ⟨w, rfl, hw⟩ := Text.expect_split he
      refine ⟨w ++ [b], by simp, Or.inr ⟨w, b, rfl, ?_, hb⟩⟩
      exact (Text.sameWord_iff _ _).2 hw.symm
    · cases h
  · cases h

theorem readSymbol?_split {c : Char} {s rest : Text} {o : Operator}
    (h : readSymbol? c s = some (o, rest)) : c :: s = o.spelling ++ rest := by
  unfold readSymbol? at h
  split at h
  · cases h
    rfl
  · cases h
    rfl
  · cases h
    rfl
  · cases h
    rfl
  · obtain ⟨p, hp, he⟩ := Option.map_eq_some_iff.1 h
    cases he
    have hc : o.spelling = [c] := by
      simpa using @List.find?_some _ (fun p : Operator => p.spelling == [c]) _ _ hp
    rw [hc]
    rfl

theorem readMarkup_split {read s t : Text} {rest : Option Text}
    (h : readMarkup read s = (t, rest)) :
    read.reverse ++ s = t ++ rest.elim [] ('<' :: '%' :: ·) := by
  fun_induction readMarkup read s with
  | case1 read =>
    cases h
    rfl
  | case2 read s =>
    cases h
    rfl
  | case3 read c s hc ih =>
    rw [← ih h]
    simp

end Lexeme

namespace Source

open Lexeme (isNameChar OpensComment)
open Text (Lacks)

/-- A lexeme of script takes the slice that it is written as, and a name all of the name. -/
theorem lexeme_split {c : Char} {s rest : Text} {l : Lexeme} (h : lexeme c s = (.ok l, rest)) :
    ∃ w, c :: s = w ++ rest ∧ l.WrittenAs w ∧
      ∀ n, l = .identifier n → ∀ a ∈ rest.head?, isNameChar a = false := by
  cases Form.of_eq h with
  | @remark t _ _ ht hr =>
    obtain ⟨mark, hs, hmark⟩ := Lexeme.remark?_split ht
    obtain ⟨body, hbody, hline, hlacks, hkept, -⟩ := Lexeme.readComment_split t
    rw [hr] at hbody hkept
    refine ⟨mark ++ body, ?_, ⟨mark, body, rfl, hmark, hline, hlacks, hkept⟩, by simp⟩
    rw [hs, List.append_assoc, ← hbody]
  | name hf hr =>
    have hs := Lexeme.readName_split c s
    obtain ⟨w, -, hend, hw⟩ := Lexeme.readName_spec hf
    rw [hr] at hs hend hw
    rcases hw with ⟨-, rfl⟩ | ⟨o, -, rfl⟩
    · exact ⟨w, hs, rfl, fun _ _ => hend⟩
    · exact ⟨w, hs, rfl, by simp⟩
  | number hd hr =>
    have hs := Lexeme.readNumber_split c s
    have hw := Lexeme.readNumber_spec (s := s) hd
    rw [hr] at hs hw
    rcases hw with ⟨w, -, rfl⟩ | ⟨w, -, rfl⟩
    · exact ⟨w, hs, rfl, by simp⟩
    · exact ⟨w, hs, rfl, by simp⟩
  | radix hr =>
    have hs := Lexeme.readRadix?_split hr
    obtain ⟨base, d, w, -, rfl⟩ := Lexeme.readRadix?_spec hr
    exact ⟨w, hs, rfl, by simp⟩
  | newline hc => exact ⟨['\n'], by rw [hc]; rfl, rfl, by simp⟩
  | separator hc => exact ⟨[':'], by rw [hc]; rfl, rfl, by simp⟩
  | @string t _ hc hr =>
    have hs := Lexeme.readString_split (congrArg Prod.fst hr)
    rw [hr] at hs
    refine ⟨Text.quote t, ?_, rfl, by simp⟩
    rw [hc, hs, Text.quote, List.cons_append, List.append_assoc]
    rfl
  | comment hc hr =>
    obtain ⟨body, hs, hline, hlacks, hkept, -⟩ := Lexeme.readComment_split s
    rw [hr] at hs hkept
    refine ⟨'\'' :: body, ?_, ⟨['\''], body, rfl, Or.inl rfl, hline, hlacks, hkept⟩, by simp⟩
    rw [hc, List.cons_append, ← hs]
  | @date t _ hc hr =>
    have hs := Lexeme.readDate_split (congrArg Prod.fst hr)
    rw [hr] at hs
    refine ⟨'#' :: (t ++ ['#']), ?_, rfl, by simp⟩
    rw [hc, hs, List.cons_append, List.append_assoc]
    rfl
  | symbol hr => exact ⟨_, Lexeme.readSymbol?_split hr, rfl, by simp⟩
  | punctuation => exact ⟨[c], rfl, rfl, by simp⟩

/-- A call with the slice that it takes off the front: markup with the delimiter that opens code, or
blanks and what is read behind them. -/
inductive Takes : Source → Lexeme → Text → Source → Prop where
  | text {t rest} (ht : Lacks '<' '%' t) :
      Takes (ofText .markup (t ++ '<' :: '%' :: rest)) (.markup t) (t ++ ['<', '%'])
        (ofText .code rest)
  | lastText {t} (ht : Lacks '<' '%' t) :
      Takes (ofText .markup t) (.markup t) t { mode := .markup, rest := [], ended := true }
  | past {s : Source} (hs : s.ended = true) : Takes s .endOfInput [] s
  | blanks {g} (hg : ∀ c ∈ g, isSeparator c = true) :
      Takes (ofText .code g) .endOfInput g { mode := .code, rest := [], ended := true }
  | closed {g s t w next} (hg : ∀ c ∈ g, isSeparator c = true)
      (h : Takes (ofText .markup s) (.markup t) w next) :
      Takes (ofText .code (g ++ '%' :: '>' :: s)) (.markup t) (g ++ '%' :: '>' :: w) next
  | script {g w rest l} (hg : ∀ c ∈ g, isSeparator c = true) (hl : l.IsRead)
      (hw : l.WrittenAs w) (hn : ∀ n, l = .identifier n → ∀ a ∈ rest.head?, isNameChar a = false) :
      Takes (ofText .code (g ++ (w ++ rest))) l (g ++ w) (ofText .code rest)

theorem Takes.rest_eq {s next : Source} {l : Lexeme} {w : Text} (h : Takes s l w next) :
    s.rest = w ++ next.rest := by
  induction h with
  | text => simp [ofText]
  | lastText => simp [ofText]
  | past => rfl
  | blanks => simp [ofText]
  | @closed g s t w next hg h ih =>
    have hs : s = w ++ next.rest := ih
    simp [ofText, hs]
  | script => simp [ofText]

theorem newline_not_mem_separators {g : Text} (hg : ∀ c ∈ g, isSeparator c = true) : '\n' ∉ g := by
  intro hm
  exact absurd (hg '\n' hm) (by decide)

theorem Takes.of_markup {s next : Source} {t w : Text} (h : Takes s (.markup t) w next) :
    Lacks '<' '%' t ∧ ∃ g d, w = g ++ (t ++ d) ∧ '\n' ∉ g ∧ (d = [] ∨ d = ['<', '%']) := by
  have inMarkup {s next : Source} {w : Text} (hs : s.mode = .markup)
      (h : Takes s (.markup t) w next) :
      Lacks '<' '%' t ∧ ∃ d, w = t ++ d ∧ (d = [] ∨ d = ['<', '%']) := by
    cases h with
    | text ht => exact ⟨ht, _, rfl, Or.inr rfl⟩
    | lastText ht => exact ⟨ht, [], (List.append_nil _).symm, Or.inl rfl⟩
    | closed | script => cases hs
  cases h with
  | @closed g _ _ _ _ hg h =>
    obtain ⟨ht, d, rfl, hd⟩ := inMarkup rfl h
    refine ⟨ht, g ++ ['%', '>'], d, by simp, ?_, hd⟩
    rw [List.mem_append, not_or]
    exact ⟨newline_not_mem_separators hg, by decide⟩
  | script _ hl => exact hl.elim
  | text ht => exact ⟨ht, [], _, rfl, by simp, Or.inr rfl⟩
  | lastText ht => exact ⟨ht, [], [], by simp, by simp, Or.inl rfl⟩

theorem Takes.of_script {s next : Source} {l : Lexeme} {w : Text} (h : Takes s l w next)
    (hm : l.isMarkup = false) (he : l ≠ .endOfInput) :
    l.IsRead ∧ ∃ g v, w = g ++ v ∧ (∀ c ∈ g, isSeparator c = true) ∧ l.WrittenAs v := by
  cases h with
  | text | lastText | closed => cases hm
  | past | blanks => exact absurd rfl he
  | script hg hl hw => exact ⟨hl, _, _, rfl, hg, hw⟩

theorem Takes.of_end {s next : Source} {w : Text} (h : Takes s .endOfInput w next) :
    '\n' ∉ w ∧ next.ended = true := by
  cases h with
  | past hs => exact ⟨by simp, hs⟩
  | blanks hg => exact ⟨newline_not_mem_separators hg, rfl⟩
  | script _ hl => exact hl.elim

theorem takes_nextMarkup {s : Text} {l : Lexeme} {next : Source}
    (h : nextMarkup s = (.ok l, next)) :
    ∃ t w, l = .markup t ∧ Takes (ofText .markup s) (.markup t) w next := by
  unfold nextMarkup at h
  split at h
  · next t rest e =>
    cases h
    have hs := Lexeme.readMarkup_split e
    obtain ⟨u, ht, hu, -⟩ := Lexeme.readMarkup_spec e
    obtain rfl : t = u := ht
    obtain rfl : s = t ++ '<' :: '%' :: rest := hs
    exact ⟨t, _, rfl, .text hu⟩
  · next t e =>
    cases h
    have hs := Lexeme.readMarkup_split e
    obtain ⟨u, ht, hu, -⟩ := Lexeme.readMarkup_spec e
    obtain rfl : t = u := ht
    obtain rfl : s = t := hs.trans (List.append_nil t)
    exact ⟨s, _, rfl, .lastText hu⟩

/-- Every call that succeeds takes a slice of the form that its lexeme has. -/
theorem takes_of_next {s next : Source} {l : Lexeme} (h : s.next = (.ok l, next)) :
    ∃ w, Takes s l w next := by
  cases call_of_next h with
  | past hs => exact ⟨[], .past hs⟩
  | page hm =>
    obtain ⟨t, w, he, ht⟩ := takes_nextMarkup hm
    cases he
    exact ⟨w, ht⟩
  | blanks hg => exact ⟨_, .blanks hg⟩
  | closed hg hm =>
    obtain ⟨t, w, he, ht⟩ := takes_nextMarkup hm
    cases he
    exact ⟨_, .closed hg ht⟩
  | script hg hc hlex =>
    obtain ⟨w, hu, hw, hn⟩ := lexeme_split hlex
    rw [hu]
    exact ⟨_, .script hg (isRead_lexeme hc hlex) hw hn⟩

inductive Run : Source → List Lexeme → Source → Prop where
  | nil (s) : Run s [] s
  | cons {s t u l ls} (h : s.next = (.ok l, t)) (hr : Run t ls u) : Run s (l :: ls) u

/-- Slices that lie one behind the other, each taken by its call. -/
inductive Tiles : Source → List (Lexeme × Text) → Source → Prop where
  | nil (s) : Tiles s [] s
  | cons {s t u l w ps} (h : Takes s l w t) (hr : Tiles t ps u) : Tiles s ((l, w) :: ps) u

theorem Tiles.rest_eq {s last : Source} {ps : List (Lexeme × Text)} (h : Tiles s ps last) :
    s.rest = ps.flatMap Prod.snd ++ last.rest := by
  induction h with
  | nil => rfl
  | cons h _ ih => rw [h.rest_eq, ih, List.flatMap_cons, List.append_assoc]

theorem Run.tiles {s last : Source} {ls : List Lexeme} (h : Run s ls last) :
    ∃ ps, ps.map Prod.fst = ls ∧ Tiles s ps last := by
  induction h with
  | nil s => exact ⟨[], rfl, .nil s⟩
  | @cons s t u l ls h _ ih =>
    obtain ⟨w, hw⟩ := takes_of_next h
    obtain ⟨ps, hps, htiles⟩ := ih
    exact ⟨(l, w) :: ps, by rw [List.map_cons, hps], .cons hw htiles⟩

theorem Takes.of_ended {s t : Source} {l : Lexeme} {w : Text} (h : Takes s l w t)
    (hs : s.ended = true) : l = .endOfInput ∧ t = s := by
  cases h with
  | past => exact ⟨rfl, rfl⟩
  | text | lastText | blanks | closed | script => cases hs

theorem Takes.rest_of_ended {s t : Source} {l : Lexeme} {w : Text} (h : Takes s l w t)
    (hs : s.ended = true → s.rest = []) (ht : t.ended = true) : t.rest = [] := by
  induction h with
  | text | script => cases ht
  | lastText | blanks => rfl
  | past => exact hs ht
  | closed _ _ ih => exact ih (by simp [ofText]) ht

theorem Tiles.ended_of_ended {s last : Source} {ps : List (Lexeme × Text)} (h : Tiles s ps last)
    (hs : s.ended = true) : last.ended = true := by
  induction h with
  | nil => exact hs
  | cons h _ ih =>
    obtain ⟨-, rfl⟩ := h.of_ended hs
    exact ih hs

theorem Tiles.rest_of_ended {s last : Source} {ps : List (Lexeme × Text)} (h : Tiles s ps last)
    (hs : s.ended = true → s.rest = []) (hl : last.ended = true) : last.rest = [] := by
  induction h with
  | nil => exact hs hl
  | cons h _ ih => exact ih (h.rest_of_ended hs) hl

theorem Tiles.ended_of_end {s last : Source} {ps : List (Lexeme × Text)} (h : Tiles s ps last)
    (he : .endOfInput ∈ ps.map Prod.fst) : last.ended = true := by
  induction h with
  | nil => cases he
  | cons h hr ih =>
    rcases List.mem_cons.1 he with hl | he
    · obtain rfl := hl
      exact hr.ended_of_ended h.of_end.2
    · exact ih he

/-- The slices of the calls, each in the form that its lexeme decides, are the text up to what is
unread. -/
theorem run_lossless {mode : Mode} {text : Text} {ls : List Lexeme} {last : Source}
    (h : Run (.ofText mode text) ls last) :
    ∃ ps : List (Lexeme × Text), ps.map Prod.fst = ls ∧ Tiles (.ofText mode text) ps last ∧
      text = ps.flatMap Prod.snd ++ last.rest ∧
      (.endOfInput ∈ ls → text = ps.flatMap Prod.snd) := by
  obtain ⟨ps, rfl, htiles⟩ := h.tiles
  have htext : text = ps.flatMap Prod.snd ++ last.rest := htiles.rest_eq
  refine ⟨ps, rfl, htiles, htext, fun he => ?_⟩
  have hrest := htiles.rest_of_ended (by simp [ofText]) (htiles.ended_of_end he)
  rw [hrest, List.append_nil] at htext
  exact htext

/-- A page with markup on both sides of a script that has a comment in it. -/
theorem run_lossless_remark :
    let text := "a<% s = \"q\"\"\" REM\tb\r\n%>c".toList
    let ls := [.markup ['a'], .identifier ['s'], .operator .equal ['='], .string ['q', '"'],
      .comment ['b'], .lineEnd .newline, .markup ['c'], .endOfInput]
    ∃ last, Run (.ofText .markup text) ls last ∧
      ∃ ps : List (Lexeme × Text), ps.map Prod.fst = ls ∧ Tiles (.ofText .markup text) ps last ∧
        text = ps.flatMap Prod.snd ++ last.rest ∧
        (.endOfInput ∈ ls → text = ps.flatMap Prod.snd) := by
  intro text ls
  have h : Run (.ofText .markup text) ls { mode := .markup, rest := [], ended := true } :=
    .cons rfl (.cons rfl (.cons rfl (.cons rfl (.cons rfl (.cons rfl (.cons rfl (.cons rfl
      (.nil _))))))))
  exact ⟨_, h, run_lossless h⟩

end Source

end ClassicAsp
