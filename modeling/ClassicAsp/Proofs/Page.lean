import ClassicAsp.Proofs.Reading

/-! What is known of a page that was read: the script in it is legible, the markup opens no code,
and comments and continued lines run up to the end of their line. -/
namespace ClassicAsp

namespace Source

theorem nextMarkup_append {t : Text} (ht : Text.Lacks '<' '%' t) (s : Text) :
    nextMarkup (t ++ '<' :: '%' :: s) = (.ok (.markup t), ofText .code s) := by
  unfold nextMarkup
  simp [ht]

theorem nextMarkup_end {t : Text} (ht : Text.Lacks '<' '%' t) :
    nextMarkup t = (.ok (.markup t), { mode := .markup, rest := [], ended := true }) := by
  unfold nextMarkup
  rw [Lexeme.readMarkup_end ht]
  rfl

theorem nextMarkup_spec (s : Text) :
    ∃ t rest, nextMarkup s = (.ok (.markup t), rest) ∧ Text.Lacks '<' '%' t := by
  unfold nextMarkup
  split
  · next t rest e =>
    obtain ⟨u, rfl, hu, -⟩ := Lexeme.readMarkup_spec e
    exact ⟨_, _, rfl, hu⟩
  · next t e =>
    obtain ⟨u, rfl, hu, -⟩ := Lexeme.readMarkup_spec e
    exact ⟨_, _, rfl, hu⟩

@[simp] theorem next_delimiter (s : Text) :
    (ofText .code ('%' :: '>' :: s)).next = nextMarkup s := by
  change nextCode ('%' :: '>' :: s) = _
  unfold nextCode
  rw [show ('%' :: '>' :: s).dropWhile isSeparator = '%' :: '>' :: s from
    skip_of_head (by decide) _]
  rfl

/-- What a call does: nothing behind the end, markup outside of script or behind a delimiter, and
otherwise the end or a lexeme. -/
inductive Call : Source → Except ScanError Lexeme → Source → Prop where
  | past {s : Source} (hs : s.ended = true) : Call s (.ok .endOfInput) s
  | page {s t rest} (h : nextMarkup s = (.ok (.markup t), rest)) :
      Call (ofText .markup s) (.ok (.markup t)) rest
  | blanks {g} (hg : ∀ c ∈ g, isSeparator c = true) :
      Call (ofText .code g) (.ok .endOfInput) { mode := .code, rest := [], ended := true }
  | closed {g s t rest} (hg : ∀ c ∈ g, isSeparator c = true)
      (h : nextMarkup s = (.ok (.markup t), rest)) :
      Call (ofText .code (g ++ '%' :: '>' :: s)) (.ok (.markup t)) rest
  | script {g c s r rest} (hg : ∀ c ∈ g, isSeparator c = true) (hc : isSeparator c = false)
      (h : lexeme c s = (r, rest)) : Call (ofText .code (g ++ c :: s)) r (ofText .code rest)

theorem call_of_next {s rest : Source} {r : Except ScanError Lexeme} (h : s.next = (r, rest)) :
    Call s r rest := by
  obtain ⟨mode, text, ended⟩ := s
  by_cases hended : ended = true
  · rw [next, if_pos hended] at h
    cases h
    exact .past hended
  rw [next, if_neg hended] at h
  rw [Bool.not_eq_true] at hended
  subst hended
  cases mode with
  | markup =>
    obtain ⟨t, u, ht, -⟩ := nextMarkup_spec text
    obtain ⟨rfl, rfl⟩ := Prod.mk.inj (ht.symm.trans h)
    exact .page ht
  | code =>
    -- the blanks that every call in code skips
    obtain ⟨g, hg, htext⟩ : ∃ g, (∀ c ∈ g, isSeparator c = true) ∧
        text = g ++ text.dropWhile isSeparator :=
      ⟨text.takeWhile isSeparator, List.all_eq_true.1 List.all_takeWhile,
        List.takeWhile_append_dropWhile.symm⟩
    change nextCode text = _ at h
    unfold nextCode at h
    split at h
    · next e =>
      rw [e, List.append_nil] at htext
      rw [htext]
      cases h
      exact .blanks hg
    · next u e =>
      rw [e] at htext
      rw [htext]
      obtain ⟨t, v, ht, -⟩ := nextMarkup_spec u
      obtain ⟨rfl, rfl⟩ := Prod.mk.inj (ht.symm.trans h)
      exact .closed hg ht
    · next c u _ e =>
      have hc := List.head?_dropWhile_not isSeparator text
      rw [e] at hc
      rw [e] at htext
      rw [htext]
      cases h
      exact .script hg (by simpa using hc) rfl

theorem lexeme_of_next {s rest : Source} {l : Lexeme} (h : s.next = (.ok l, rest))
    (hm : l.isMarkup = false) (he : l ≠ .endOfInput) :
    ∃ c u v, isSeparator c = false ∧ lexeme c u = (.ok l, v) ∧ rest = .ofText .code v := by
  cases call_of_next h with
  | past | blanks => exact absurd rfl he
  | page | closed => cases hm
  | script _ hc hlex => exact ⟨_, _, _, hc, hlex, rfl⟩

theorem lacks_of_next {s rest : Source} {t : Text} (h : s.next = (.ok (.markup t), rest)) :
    Text.Lacks '<' '%' t := by
  have hmarkup : ∀ x, nextMarkup x = (.ok (.markup t), rest) → Text.Lacks '<' '%' t := by
    intro x hx
    obtain ⟨u, r, hu, hl⟩ := nextMarkup_spec x
    rw [hu] at hx
    cases hx
    exact hl
  cases call_of_next h with
  | page ht | closed _ ht => exact hmarkup _ ht
  | script _ _ hlex => cases isMarkup_lexeme (congrArg Prod.fst hlex)

end Source

section Front

variable {s : Text} {ps : List Part}

theorem reads_page_iff {source rest : Source} {t : Text}
    (h : source.next = (.ok (.markup t), rest)) :
    Reads source ps ↔ ∃ qs, ps = .page t :: qs ∧ Reads rest qs := by
  constructor
  · intro hr
    cases hr with
    | ended h' =>
      rw [h] at h'
      cases h'
    | page h' hr =>
      rw [h] at h'
      cases h'
      exact ⟨_, rfl, hr⟩
    | script h' hm =>
      rw [h] at h'
      cases h'
      cases hm
  · rintro ⟨qs, rfl, hr⟩
    exact .page h hr

theorem reads_ended_iff {source : Source} (h : source.next.1 = .ok .endOfInput) :
    Reads source ps ↔ ps = [] := by
  constructor
  · intro hr
    cases hr with
    | ended => rfl
    | page h' =>
      rw [h'] at h
      cases h
    | script h' _ he =>
      rw [h'] at h
      cases h
      exact absurd rfl he
  · rintro rfl
    exact .ended h

theorem reads_newline_iff :
    Reads (.ofText .code ('\n' :: s)) ps ↔
      ∃ qs, ps = .script (.lineEnd .newline) :: qs ∧ Reads (.ofText .code s) qs :=
  (Token.scans_lineEnd .newline s).yields ps

/-- Code is closed, then opened again behind the text of the page. -/
theorem reads_delimited_iff {t : Text} (ht : Text.Lacks '<' '%' t) :
    Reads (.ofText .code ('%' :: '>' :: (t ++ '<' :: '%' :: s))) ps ↔
      ∃ qs, ps = .page t :: qs ∧ Reads (.ofText .code s) qs :=
  reads_page_iff ((Source.next_delimiter _).trans (Source.nextMarkup_append ht s))

theorem reads_last {t : Text} (ht : Text.Lacks '<' '%' t) :
    Reads (.ofText .code ('%' :: '>' :: t)) [.page t] :=
  (reads_page_iff ((Source.next_delimiter _).trans (Source.nextMarkup_end ht))).2
    ⟨[], rfl, .ended rfl⟩

end Front

def Token.Settles (t : Token) (next : Option Token) : Prop :=
  match t with
  | .comment _ => ∀ u ∈ next, u = .lineEnd .newline ∨ u.isMarkupLike = true
  | .continuation => ∀ u ∈ next, u = .lineEnd .newline
  | _ => True

theorem Token.Legible.script {t : Token} (h : t.Legible) : t.isMarkupLike = false := by
  cases t with
  | markup | directive => exact h.elim
  | _ => rfl

def Part.Sound (p : Part) (next : Option Token) : Prop :=
  match p with
  | .script t => t.Legible ∧ t.Settles next
  | .page s => Text.Lacks '<' '%' s

def Sound : List Part → Prop
  | [] => True
  | p :: ps => p.Sound (tokensOf ps).head? ∧ Sound ps

@[simp] theorem tokensOf_script (t : Token) (ps : List Part) :
    tokensOf (.script t :: ps) = t :: tokensOf ps := rfl

@[simp] theorem tokensOf_page (s : Text) (ps : List Part) :
    tokensOf (.page s :: ps) = (Segment.split s).map Segment.token ++ tokensOf ps := rfl

@[simp] theorem Segment.isMarkupLike_token (p : Segment) : p.token.isMarkupLike = true := by
  cases p <;> rfl

theorem head_tokensOf_page (s : Text) (ps : List Part) :
    ∃ u ∈ (tokensOf (.page s :: ps)).head?, u.isMarkupLike = true := by
  obtain ⟨p, q, hp⟩ := List.exists_cons_of_ne_nil (Segment.split_ne_nil s)
  rw [tokensOf_page, hp]
  exact ⟨p.token, rfl, p.isMarkupLike_token⟩

theorem Sound.legible_head {ps : List Part} (h : Sound ps) :
    ∀ u ∈ (tokensOf ps).head?, u.isMarkupLike = false → u.Legible := by
  intro u hu hs
  cases ps with
  | nil => cases hu
  | cons p ps =>
    cases p with
    | script t =>
      cases hu
      exact h.1.1
    | page s =>
      obtain ⟨v, hv, hm⟩ := head_tokensOf_page s ps
      rw [Option.mem_unique hu hv, hm] at hs
      cases hs

theorem head_of_endsComment {s : Text} {ps : List Part} (hs : Lexeme.EndsComment s)
    (h : Reads (.ofText .code s) ps) :
    ∀ u ∈ (tokensOf ps).head?, u = .lineEnd .newline ∨ u.isMarkupLike = true := by
  intro u hu
  rcases hs with rfl | hs | ⟨t, rfl⟩
  · obtain rfl := (reads_ended_iff rfl).1 h
    cases hu
  · cases s with
    | nil => cases hs
    | cons c s =>
      cases hs
      obtain ⟨qs, rfl, -⟩ := reads_newline_iff.1 h
      cases hu
      exact .inl rfl
  · obtain ⟨x, rest, hn, -⟩ := Source.nextMarkup_spec t
    obtain ⟨qs, rfl, -⟩ := (reads_page_iff ((Source.next_delimiter t).trans hn)).1 h
    obtain ⟨v, hv, hm⟩ := head_tokensOf_page x qs
    rw [Option.mem_unique hu hv]
    exact .inr hm

theorem head_of_atLineEnd {s : Text} {ps : List Part}
    (hs : (Source.ofText .code s).atLineEnd = true) (h : Reads (.ofText .code s) ps) :
    ∀ u ∈ (tokensOf ps).head?, u = .lineEnd .newline := by
  intro u hu
  induction s with
  | nil =>
    obtain rfl := (reads_ended_iff rfl).1 h
    cases hu
  | cons c s ih =>
    by_cases hc : c = ' ' ∨ c = '\t' ∨ c = '\r'
    · have hsep : Source.isSeparator c = true := by
        rcases hc with rfl | rfl | rfl
        · decide
        · decide
        · decide
      have hdrop : (Source.ofText .code s).atLineEnd = true := by
        rcases hc with rfl | rfl | rfl
        · exact hs
        · exact hs
        · exact hs
      exact ih hdrop ((reads_skip (Source.skip_cons hsep s)).1 h)
    · have hn : c = '\n' := by
        simp only [not_or] at hc
        simpa [Source.atLineEnd, Source.ofText, hc] using hs
      obtain ⟨qs, rfl, -⟩ := reads_newline_iff.1 (hn ▸ h)
      cases hu
      rfl

/-- A page that was read is sound, unless it has comments with a delimiter in them. -/
theorem Reads.sound {source : Source} {ps : List Part} (h : Reads source ps)
    (hc : ∀ s, Token.comment s ∈ tokensOf ps → Text.Lacks '%' '>' s) : Sound ps := by
  induction h with
  | ended => trivial
  | page h hr ih =>
    exact ⟨Source.lacks_of_next h, ih fun s hs => hc s (List.mem_append_right _ hs)⟩
  | @script source rest l t ps h hm he ht hr ih =>
    obtain ⟨c, u, v, hsep, hlex, rfl⟩ := Source.lexeme_of_next h hm he
    refine ⟨⟨?_, ?_⟩, ih fun s hs => hc s (List.mem_cons_of_mem _ hs)⟩
    · refine Token.legible_of_isRead (Source.isRead_lexeme hsep hlex) ht ?_
      rintro s rfl
      exact hc s List.mem_cons_self
    · cases t with
      | comment s =>
        obtain ⟨x, rfl⟩ := Lexeme.token_comment ht
        exact head_of_endsComment (Source.lexeme_comment hlex) hr
      | continuation => exact head_of_atLineEnd (Lexeme.token_continuation ht) hr
      | _ => trivial

def Token.Sound (t : Token) (next : Option Token) : Prop :=
  match t with
  | .markup _ => True
  | .directive d => '"' ∉ d.path ∧ Text.Lacks '<' '%' d.path
  | t => t.Legible ∧ t.Settles next

def TokensSound : List Token → Prop
  | [] => True
  | t :: ts => t.Sound ts.head? ∧ TokensSound ts

theorem Token.Sound.legible {t : Token} {next : Option Token} (h : t.Sound next)
    (ht : t.isMarkupLike = false) : t.Legible ∧ t.Settles next := by
  cases t with
  | markup | directive => cases ht
  | _ => exact h

theorem Token.sound_of_legible {t : Token} {next : Option Token} (h : t.Legible)
    (hs : t.Settles next) : t.Sound next := by
  cases t with
  | markup | directive => exact h.elim
  | _ => exact ⟨h, hs⟩

theorem TokensSound.of_append {ts us : List Token} (h : TokensSound (ts ++ us)) :
    TokensSound us := by
  induction ts with
  | nil => exact h
  | cons t ts ih => exact ih h.2

theorem TokensSound.legible_head {ts : List Token} (h : TokensSound ts) :
    ∀ u ∈ ts.head?, u.isMarkupLike = false → u.Legible := by
  intro u hu hm
  cases ts with
  | nil => cases hu
  | cons t ts =>
    cases hu
    exact (h.1.legible hm).1

theorem tokensSound_segments {s : Text} (hs : Text.Lacks '<' '%' s) {segments : List Segment}
    (h : ∀ p ∈ segments, p ∈ Segment.split s) {ts : List Token} (hts : TokensSound ts) :
    TokensSound (segments.map Segment.token ++ ts) := by
  induction segments with
  | nil => exact hts
  | cons p segments ih =>
    refine ⟨?_, ih fun q hq => h q (List.mem_cons_of_mem _ hq)⟩
    cases p with
    | markup t => trivial
    | directive d w =>
      obtain ⟨hq, hi⟩ := Segment.split_directive (h _ List.mem_cons_self)
      exact ⟨hq, hs.of_infix hi⟩

theorem Sound.tokensSound {ps : List Part} (h : Sound ps) : TokensSound (tokensOf ps) := by
  induction ps with
  | nil => trivial
  | cons p ps ih =>
    cases p with
    | script t => exact ⟨Token.sound_of_legible h.1.1 h.1.2, ih h.2⟩
    | page s => exact tokensSound_segments h.1 (fun _ hp => hp) (ih h.2)

end ClassicAsp
