import ClassicAsp.Include
import ClassicAsp.Proofs.Text
import ClassicAsp.Token

/-! Directives in their canonical form. Writing the directives of a text anew leaves its pieces as
they are. A directive that did not begin before is not made one: whether its path is closed depends
on what the next directive has before its second quote, and that is kept. -/
namespace ClassicAsp

namespace Directive

def Unquoted (s rest : Text) : Prop := ∃ w, s = w ++ rest ∧ '"' ∉ w

theorem Unquoted.trans {s t u : Text} (h : Unquoted s t) (h' : Unquoted t u) : Unquoted s u := by
  obtain ⟨w, rfl, hw⟩ := h
  obtain ⟨v, rfl, hv⟩ := h'
  exact ⟨w ++ v, (List.append_assoc _ _ _).symm, by simp [hw, hv]⟩

theorem unquoted_expect {word s rest : Text} (h : Text.expect word s = some rest)
    (hw : '"' ∉ Text.lower word) : Unquoted s rest := by
  obtain ⟨w, rfl, hl⟩ := Text.expect_split h
  refine ⟨w, rfl, fun hm => hw ?_⟩
  rw [← hl]
  exact List.mem_map.2 ⟨'"', hm, rfl⟩

theorem unquoted_skipBlanks (s : Text) : Unquoted s (skipBlanks s) := by
  refine ⟨s.takeWhile isAsciiBlank, List.takeWhile_append_dropWhile.symm, fun hm => ?_⟩
  have h := List.all_eq_true.1 List.all_takeWhile _ hm
  exact absurd h (by decide)

theorem skipBlanks_append {b : Char} (hb : isAsciiBlank b = false) (s t : Text) :
    skipBlanks (s ++ b :: t) = skipBlanks s ++ b :: t := by
  induction s with
  | nil => simp [skipBlanks, hb]
  | cons c s ih =>
    unfold skipBlanks at ih ⊢
    rw [List.cons_append, List.dropWhile_cons, List.dropWhile_cons]
    split
    · exact ih
    · rfl

def header? (s : Text) : Option (IncludeKind × Text) :=
  (Text.expect "<!--".toList s).bind fun s =>
  (Text.expect "#include".toList (skipBlanks s)).bind fun s =>
  if s.head?.any isAsciiBlank then
    (IncludeKind.read? (skipBlanks s)).bind fun (kind, s) =>
    (Text.expect ['='] (skipBlanks s)).bind fun s =>
    (Text.expect ['"'] (skipBlanks s)).map fun s => (kind, s)
  else none

def closing? (s : Text) : Option Text := Text.expect "-->".toList (skipBlanks s)

def closesPath (s : Text) : Bool :=
  ((Text.expect ['"'] (s.dropWhile (· != '"'))).bind closing?).isSome

theorem read?_eq_header? (s : Text) :
    read? s = (header? s).bind fun (kind, p) =>
      (Text.expect ['"'] (p.dropWhile (· != '"'))).bind fun after =>
        (closing? after).map fun rest => (⟨kind, p.takeWhile (· != '"')⟩, rest) := by
  unfold read? header? closing?
  cases Text.expect "<!--".toList s with
  | none => rfl
  | some s =>
    simp only [Option.bind_some]
    cases Text.expect "#include".toList (skipBlanks s) with
    | none => rfl
    | some s =>
      simp only [Option.bind_some]
      split
      · cases IncludeKind.read? (skipBlanks s) with
        | none => rfl
        | some ks =>
          obtain ⟨k, s⟩ := ks
          simp only [Option.bind_some]
          cases Text.expect ['='] (skipBlanks s) with
          | none => rfl
          | some s =>
            simp only [Option.bind_some]
            cases Text.expect ['"'] (skipBlanks s) with
            | none => rfl
            | some s => rfl
      · rfl

theorem isSome_read? (s : Text) :
    (read? s).isSome = (header? s).any fun kp => closesPath kp.2 := by
  rw [read?_eq_header?]
  cases header? s with
  | none => rfl
  | some kp =>
    obtain ⟨k, p⟩ := kp
    simp only [Option.bind_some, Option.any_some, closesPath]
    cases Text.expect ['"'] (p.dropWhile (· != '"')) with
    | none => rfl
    | some after => simp

theorem head_append {b : Char} (hb : isAsciiBlank b = false) (s t : Text) :
    (s ++ b :: t).head?.any isAsciiBlank = s.head?.any isAsciiBlank := by
  cases s <;> simp [hb]

theorem kind_append (s t : Text) : IncludeKind.read? (s ++ '<' :: t) =
    (IncludeKind.read? s).map fun (k, r) => (k, r ++ '<' :: t) := by
  unfold IncludeKind.read?
  rw [Text.expect_append (by decide), Text.expect_append (by decide)]
  cases Text.expect IncludeKind.file.word s with
  | some r => rfl
  | none => cases Text.expect IncludeKind.virtual.word s <;> rfl

/-- The next directive is no part of an opening before it. -/
theorem header?_append {s : Text} (hs : s ≠ []) (t : Text) :
    header? (s ++ '<' :: t) = (header? s).map fun (k, p) => (k, p ++ '<' :: t) := by
  have hb : isAsciiBlank '<' = false := by decide
  obtain ⟨c, s, rfl⟩ := List.exists_cons_of_ne_nil hs
  have hfirst : Text.expect "<!--".toList (c :: s ++ '<' :: t) =
      (Text.expect "<!--".toList (c :: s)).map (· ++ '<' :: t) := by
    have hword : "!--".toList.all (fun a => a.toLower != '<'.toLower) := by decide
    have htail := Text.expect_append hword s t
    simp only [List.cons_append, show "<!--".toList = '<' :: "!--".toList from rfl, Text.expect,
      htail]
    split <;> rfl
  unfold header?
  rw [hfirst]
  cases Text.expect "<!--".toList (c :: s) with
  | none => rfl
  | some s =>
    simp only [Option.map_some, Option.bind_some, skipBlanks_append hb]
    rw [Text.expect_append (by decide)]
    cases Text.expect "#include".toList (skipBlanks s) with
    | none => rfl
    | some s =>
      simp only [Option.map_some, Option.bind_some, skipBlanks_append hb, head_append hb,
        kind_append]
      split
      · cases IncludeKind.read? (skipBlanks s) with
        | none => rfl
        | some ks =>
          obtain ⟨k, s⟩ := ks
          simp only [Option.map_some, Option.bind_some, skipBlanks_append hb]
          rw [Text.expect_append (by decide)]
          cases Text.expect ['='] (skipBlanks s) with
          | none => rfl
          | some s =>
            simp only [Option.map_some, Option.bind_some, skipBlanks_append hb]
            rw [Text.expect_append (by decide)]
            cases Text.expect ['"'] (skipBlanks s) <;> rfl
      · rfl

theorem closing?_append {b : Char} (hb : b = '<' ∨ b = '"') (s t : Text) :
    closing? (s ++ b :: t) = (closing? s).map (· ++ b :: t) := by
  unfold closing?
  rcases hb with rfl | rfl
  · rw [skipBlanks_append (by decide), Text.expect_append (by decide)]
  · rw [skipBlanks_append (by decide), Text.expect_append (by decide)]

theorem dropWhile_unquoted {s : Text} (h : '"' ∉ s) (t : Text) :
    (s ++ t).dropWhile (· != '"') = t.dropWhile (· != '"') := by
  rw [List.dropWhile_append_of_pos]
  intro c hc
  simp only [bne_iff_ne]
  rintro rfl
  exact h hc

theorem takeWhile_unquoted {s : Text} (h : '"' ∉ s) (t : Text) :
    (s ++ '"' :: t).takeWhile (· != '"') = s := by
  have hs : ∀ c ∈ s, (c != '"') = true := by
    intro c hc
    rw [bne_iff_ne]
    rintro rfl
    exact h hc
  exact Text.takeWhile_append hs (by simp)

@[simp] theorem expect_quote (s : Text) : Text.expect ['"'] ('"' :: s) = some s := rfl

theorem read?_eq_some {s rest : Text} {d : Directive} : read? s = some (d, rest) ↔
    ∃ after, header? s = some (d.kind, d.path ++ '"' :: after) ∧ '"' ∉ d.path ∧
      closing? after = some rest := by
  rw [read?_eq_header?]
  constructor
  · intro h
    obtain ⟨⟨k, p⟩, hh, h⟩ := Option.bind_eq_some_iff.1 h
    obtain ⟨after, ha, h⟩ := Option.bind_eq_some_iff.1 h
    obtain ⟨r, hr, he⟩ := Option.map_eq_some_iff.1 h
    cases he
    have hp : p.takeWhile (· != '"') ++ '"' :: after = p := by
      rw [← List.singleton_append, ← Text.eq_of_expect (by decide) ha,
        List.takeWhile_append_dropWhile]
    refine ⟨after, ?_, Text.not_mem_takeWhile (by decide), hr⟩
    rw [hp]
    exact hh
  · rintro ⟨after, hh, hpath, hc⟩
    rw [hh, Option.bind_some]
    dsimp only
    rw [takeWhile_unquoted hpath, dropWhile_unquoted hpath, List.dropWhile_cons_of_neg (by simp),
      expect_quote, Option.bind_some, hc, Option.map_some]

theorem closesPath_quote {s : Text} (h : '"' ∉ s) (t : Text) :
    closesPath (s ++ '"' :: t) = (closing? t).isSome := by
  rw [closesPath, dropWhile_unquoted h]
  rfl

theorem closesPath_append (s t : Text) :
    closesPath (s ++ '<' :: t) = if '"' ∈ s then closesPath s else closesPath ('<' :: t) := by
  split
  · next h =>
    obtain ⟨u, v, rfl, hu⟩ := List.eq_append_cons_of_mem h
    rw [List.append_assoc, List.cons_append, closesPath_quote hu, closesPath_quote hu,
      closing?_append (.inl rfl), Option.isSome_map]
  · next h => rw [closesPath, dropWhile_unquoted h, closesPath]

/-- Exchanging the directive behind a text makes the text no directive, as long as both close a
path alike. -/
theorem isSome_read?_append {s t u : Text} (hs : s ≠ [])
    (h : closesPath ('<' :: t) = closesPath ('<' :: u)) :
    (read? (s ++ '<' :: t)).isSome = (read? (s ++ '<' :: u)).isSome := by
  simp only [isSome_read?, header?_append hs]
  cases header? s with
  | none => rfl
  | some kp => simp only [Option.map_some, Option.any_some, closesPath_append, h]

theorem unquoted_kind {s rest : Text} {k : IncludeKind}
    (h : IncludeKind.read? s = some (k, rest)) : Unquoted s rest := by
  unfold IncludeKind.read? at h
  split at h
  · next e =>
    cases h
    exact unquoted_expect e (by decide)
  · obtain ⟨r, e, he⟩ := Option.map_eq_some_iff.1 h
    cases he
    exact unquoted_expect e (by decide)

theorem header?_spec {s p : Text} {k : IncludeKind} (h : header? s = some (k, p)) :
    s.head? = some '<' ∧ Unquoted s ('"' :: p) := by
  unfold header? at h
  obtain ⟨s₁, e₁, h⟩ := Option.bind_eq_some_iff.1 h
  obtain ⟨s₂, e₂, h⟩ := Option.bind_eq_some_iff.1 h
  split at h
  · obtain ⟨⟨k', s₃⟩, e₃, h⟩ := Option.bind_eq_some_iff.1 h
    obtain ⟨s₄, e₄, h⟩ := Option.bind_eq_some_iff.1 h
    obtain ⟨s₅, e₅, he⟩ := Option.map_eq_some_iff.1 h
    cases he
    have u₁ := (unquoted_expect e₁ (by decide)).trans (unquoted_skipBlanks s₁)
    have u₂ := (unquoted_expect e₂ (by decide)).trans (unquoted_skipBlanks s₂)
    have u₃ := (unquoted_kind e₃).trans (unquoted_skipBlanks s₃)
    have u₄ := (unquoted_expect e₄ (by decide)).trans (unquoted_skipBlanks s₄)
    have hquote : _ = '"' :: p := Text.eq_of_expect (by decide) e₅
    rw [← hquote]
    refine ⟨?_, u₁.trans (u₂.trans (u₃.trans u₄))⟩
    rw [Text.eq_of_expect (by decide) e₁]
    rfl
  · cases h

/-- A directive has its path between the first two quotes, and the path alone decides how it closes
that of a directive begun before. -/
theorem read?_spec {s rest : Text} {d : Directive} (h : read? s = some (d, rest)) :
    s.head? = some '<' ∧ '"' ∉ d.path ∧ d.path <:+: s ∧
      closesPath s = (closing? d.path).isSome := by
  obtain ⟨after, hh, hpath, -⟩ := read?_eq_some.1 h
  obtain ⟨hhead, w, hs, hw⟩ := header?_spec hh
  refine ⟨hhead, hpath, ?_, ?_⟩
  · rw [hs]
    exact (List.prefix_append _ _).isInfix.trans
      ((List.suffix_cons _ _).trans (List.suffix_append _ _)).isInfix
  · rw [hs, closesPath_quote hw, closing?_append (.inr rfl), Option.isSome_map]

theorem Unquoted.suffix {s t : Text} (h : Unquoted s t) : t <:+ s := by
  obtain ⟨w, rfl, -⟩ := h
  exact List.suffix_append _ _

theorem read?_suffix {s rest : Text} {d : Directive} (h : read? s = some (d, rest)) :
    rest <:+ s := by
  obtain ⟨after, hh, -, hc⟩ := read?_eq_some.1 h
  have hopening : after <:+ s :=
    ((List.suffix_cons _ _).trans ((List.suffix_append _ _).trans (List.suffix_cons _ _))).trans
      (header?_spec hh).2.suffix
  have hclosing : rest <:+ after := (Text.expect_suffix hc).trans (List.dropWhile_suffix _)
  exact hclosing.trans hopening

theorem read?_written {s rest : Text} {d : Directive} (h : read? s = some (d, rest)) :
    ∃ x y, '"' ∉ x ∧ '"' ∉ d.path ∧
      s.take (s.length - rest.length) = x ++ '"' :: (d.path ++ '"' :: y) := by
  obtain ⟨after, hh, hpath, hc⟩ := read?_eq_some.1 h
  obtain ⟨-, x, rfl, hx⟩ := header?_spec hh
  obtain ⟨y, rfl⟩ : rest <:+ after := (Text.expect_suffix hc).trans (List.dropWhile_suffix _)
  have hsplit : x ++ '"' :: (d.path ++ '"' :: (y ++ rest)) =
      x ++ '"' :: (d.path ++ '"' :: y) ++ rest := by
    simp
  refine ⟨x, y, hx, hpath, ?_⟩
  rw [hsplit, List.length_append, Nat.add_sub_cancel, List.take_left]

theorem header?_write (k : IncludeKind) (p : Text) :
    header? ("<!--#include ".toList ++ (k.word ++ '=' :: '"' :: p)) = some (k, p) := by
  cases k <;> rfl

theorem read?_write {d : Directive} (h : '"' ∉ d.path) (rest : Text) :
    read? (d.write ++ rest) = some (d, rest) := by
  have hw : d.write ++ rest = "<!--#include ".toList ++ (d.kind.word ++
      '=' :: '"' :: (d.path ++ '"' :: ("-->".toList ++ rest))) := by
    have hend : "\"-->".toList = '"' :: "-->".toList := by decide
    unfold write
    rw [hend]
    simp only [List.append_assoc, List.cons_append]
  refine read?_eq_some.2 ⟨"-->".toList ++ rest, ?_, h, rfl⟩
  rw [hw, header?_write]

@[simp] theorem head_write (d : Directive) (rest : Text) : (d.write ++ rest).head? = some '<' := rfl

end Directive

namespace Segment

open Directive (read?)

def canonical : Segment → Text
  | markup s => s
  | directive d _ => d.write

/-- The text with every directive in its canonical form. -/
def canonicalize (s : Text) : Text :=
  match h : read? s with
  | some (d, rest) =>
    have := Directive.read?_length h
    d.write ++ canonicalize rest
  | none =>
    match s with
    | [] => []
    | c :: s => c :: canonicalize s
termination_by s.length

theorem canonicalize_of_some {s rest : Text} {d : Directive} (h : read? s = some (d, rest)) :
    canonicalize s = d.write ++ canonicalize rest := by
  rw [canonicalize]
  split
  · next e =>
    rw [h] at e
    cases e
    rfl
  · next e =>
    rw [h] at e
    cases e

theorem canonicalize_cons {c : Char} {s : Text} (h : read? (c :: s) = none) :
    canonicalize (c :: s) = c :: canonicalize s := by
  rw [canonicalize]
  split
  · next e =>
    rw [h] at e
    cases e
  · rfl

@[simp] theorem canonicalize_nil : canonicalize [] = [] := by
  rw [canonicalize]
  rfl

theorem splitFrom_of_some {read s rest : Text} {d : Directive} (h : read? s = some (d, rest)) :
    splitFrom read s =
      pending read ++ directive d (s.take (s.length - rest.length)) :: splitFrom [] rest := by
  rw [splitFrom]
  split
  · next e =>
    rw [h] at e
    cases e
    rfl
  · next e =>
    rw [h] at e
    cases e

theorem splitFrom_cons {read s : Text} {c : Char} (h : read? (c :: s) = none) :
    splitFrom read (c :: s) = splitFrom (c :: read) s := by
  rw [splitFrom]
  split
  · next e =>
    rw [h] at e
    cases e
  · rfl

@[simp]
theorem canonical_pending (read : Text) : (pending read).flatMap canonical = read.reverse := by
  unfold pending
  split
  · next h => rw [h]; rfl
  · simp [canonical]

theorem canonical_splitFrom (read s : Text) :
    (splitFrom read s).flatMap canonical = read.reverse ++ canonicalize s := by
  fun_induction splitFrom read s with
  | case1 read s d rest h _ ih =>
    simp [canonicalize_of_some h, ih]
    rfl
  | case2 read => simp
  | case3 read c s h ih => rw [ih, canonicalize_cons h]; simp

@[simp] theorem canonical_split (s : Text) : (split s).flatMap canonical = canonicalize s := by
  unfold split
  split
  · next h => rw [h, canonicalize_nil]; rfl
  · rw [canonical_splitFrom]; rfl

theorem canonicalize_first (s : Text) : (canonicalize s = s) ∨
    ∃ m t d rest, s = m ++ t ∧ read? t = some (d, rest) ∧ canonicalize s = m ++ canonicalize t := by
  induction s with
  | nil => exact Or.inl canonicalize_nil
  | cons c s ih =>
    cases h : read? (c :: s) with
    | some dr => exact Or.inr ⟨[], c :: s, dr.1, dr.2, rfl, h, rfl⟩
    | none =>
      rw [canonicalize_cons h]
      rcases ih with ih | ⟨m, t, d, rest, rfl, hr, hc⟩
      · exact Or.inl (by rw [ih])
      · exact Or.inr ⟨c :: m, t, d, rest, rfl, hr, by rw [hc]; rfl⟩

@[simp] theorem head_canonicalize (s : Text) : (canonicalize s).head? = s.head? := by
  cases h : read? s with
  | some dr =>
    rw [canonicalize_of_some h, Directive.head_write, (Directive.read?_spec h).1]
  | none =>
    cases s with
    | nil => simp
    | cons c s => rw [canonicalize_cons h]; rfl

/-- No directive begins where none began before. -/
theorem read?_canonicalize_cons {c : Char} {s : Text} (h : read? (c :: s) = none) :
    read? (c :: canonicalize s) = none := by
  rcases canonicalize_first s with hs | ⟨m, t, d, rest, rfl, hr, hs⟩
  · rw [hs]
    exact h
  · have ht := Directive.read?_spec hr
    have hw := Directive.read?_write ht.2.1 (canonicalize rest)
    have hc := Directive.read?_spec hw
    rw [← canonicalize_of_some hr] at hc
    obtain ⟨t', rfl⟩ : ∃ t', t = '<' :: t' := by
      cases t with
      | nil => cases ht.1
      | cons a t => exact ⟨t, by rw [Option.some.inj ht.1]⟩
    obtain ⟨u, hu⟩ : ∃ u, canonicalize ('<' :: t') = '<' :: u := by
      have hh := head_canonicalize ('<' :: t')
      cases hcan : canonicalize ('<' :: t') with
      | nil => rw [hcan] at hh; cases hh
      | cons a u => rw [hcan] at hh; exact ⟨u, by rw [Option.some.inj hh]⟩
    rw [hs, hu]
    rw [hu] at hc
    have hsame := Directive.isSome_read?_append (s := c :: m) (by simp)
      (ht.2.2.2.trans hc.2.2.2.symm)
    rw [List.cons_append, List.cons_append, h] at hsame
    exact Option.isNone_iff_eq_none.1 (Option.isSome_eq_false_iff.1 hsame.symm)

def normalize : Segment → Segment
  | markup s => markup s
  | directive d _ => directive d d.write

@[simp] theorem normalize_pending (read : Text) : (pending read).map normalize = pending read := by
  unfold pending
  split
  · rfl
  · rfl

theorem splitFrom_canonicalize (read s : Text) :
    splitFrom read (canonicalize s) = (splitFrom read s).map normalize := by
  fun_induction splitFrom read s with
  | case1 read s d rest h _ ih =>
    have hw := Directive.read?_write (Directive.read?_spec h).2.1 (canonicalize rest)
    rw [canonicalize_of_some h, splitFrom_of_some hw, ih, List.map_append, List.map_cons,
      normalize_pending]
    simp [normalize]
  | case2 read h =>
    rw [canonicalize_nil, splitFrom, normalize_pending]
    split
    · next e =>
      rw [h] at e
      cases e
    · rfl
  | case3 read c s h ih => rw [canonicalize_cons h, splitFrom_cons (read?_canonicalize_cons h), ih]

/-- The pieces of a text are those of its canonical form, with every directive as it is written
there. -/
@[simp]
theorem split_canonicalize (s : Text) : split (canonicalize s) = (split s).map normalize := by
  have hnil : canonicalize s = [] ↔ s = [] := by
    rw [← List.head?_eq_none_iff, head_canonicalize, List.head?_eq_none_iff]
  unfold split
  simp only [hnil]
  split
  · rfl
  · exact splitFrom_canonicalize [] s

@[simp] theorem token_normalize (p : Segment) : p.normalize.token = p.token := by
  cases p with
  | markup => rfl
  | directive => rfl

@[simp] theorem map_token_split_canonicalize (s : Text) :
    (split (canonicalize s)).map token = (split s).map token := by
  rw [split_canonicalize, List.map_map]
  exact List.map_congr_left fun p _ => token_normalize p

theorem lacks_write {d : Directive} (h : Text.Lacks '<' '%' d.path) {s : Text}
    (hs : Text.Lacks '<' '%' s) : Text.Lacks '<' '%' (d.write ++ s) := by
  have hend : Text.Lacks '<' '%' ("\"-->".toList ++ s) := by
    refine Text.lacks_append.2 ⟨by decide, hs, fun h => absurd h (by decide)⟩
  have hpath : Text.Lacks '<' '%' (d.path ++ ("\"-->".toList ++ s)) := by
    refine Text.lacks_append.2 ⟨h, hend, fun _ h => absurd h ?_⟩
    rw [List.head?_append, show "\"-->".toList.head? = some '"' by decide, Option.some_or]
    decide
  have hquote : Text.Lacks '<' '%' ('=' :: '"' :: (d.path ++ ("\"-->".toList ++ s))) :=
    by simpa using hpath
  have hword : Text.Lacks '<' '%' d.kind.word ∧ d.kind.word.getLast? ≠ some '<' := by
    cases d.kind <;> decide
  unfold Directive.write
  simp only [List.append_assoc, List.cons_append]
  refine Text.lacks_append.2 ⟨by decide, ?_, fun h => absurd h (by decide)⟩
  exact Text.lacks_append.2 ⟨hword.1, hquote, fun h => absurd h hword.2⟩

theorem canonicalize_lacks {s : Text} (h : Text.Lacks '<' '%' s) :
    Text.Lacks '<' '%' (canonicalize s) := by
  fun_induction canonicalize s with
  | case1 s d rest hr _ ih =>
    have hpath := (Directive.read?_spec hr).2.2.1
    exact lacks_write (h.of_infix hpath) (ih (h.of_infix (Directive.read?_suffix hr).isInfix))
  | case2 => simp
  | case3 c s hr ih =>
    obtain ⟨hc, hs⟩ := Text.lacks_cons.1 h
    simpa using ⟨hc, ih hs⟩

@[simp] theorem written_pending (read : Text) : (pending read).flatMap written = read.reverse := by
  unfold pending
  split
  · next h => rw [h]; rfl
  · simp [written]

theorem written_splitFrom (read s : Text) :
    (splitFrom read s).flatMap written = read.reverse ++ s := by
  fun_induction splitFrom read s with
  | case1 read s d rest h _ ih =>
    obtain ⟨w, rfl⟩ := Directive.read?_suffix h
    rw [List.flatMap_append, written_pending, List.flatMap_cons, ih]
    simp [written]
  | case2 read => simp
  | case3 read c s _ ih => rw [ih]; simp

@[simp] theorem written_split (s : Text) : (split s).flatMap written = s := by
  unfold split
  split
  · next h => rw [h]; rfl
  · rw [written_splitFrom]; rfl

theorem read?_of_splitFrom {read s w : Text} {d : Directive}
    (h : directive d w ∈ splitFrom read s) :
    ∃ u rest, u <:+ s ∧ Directive.read? u = some (d, rest) ∧
      w = u.take (u.length - rest.length) := by
  have hpending : ∀ read, directive d w ∉ pending read := by
    intro read hm
    unfold pending at hm
    split at hm
    · cases hm
    · cases List.mem_singleton.1 hm
  fun_induction splitFrom read s with
  | case1 read s e rest hr _ ih =>
    rcases List.mem_append.1 h with h | h
    · exact absurd h (hpending _)
    rcases List.mem_cons.1 h with h | h
    · cases h
      exact ⟨s, rest, List.suffix_refl s, hr, rfl⟩
    · obtain ⟨u, left, hu, hread, hw⟩ := ih h
      exact ⟨u, left, hu.trans (Directive.read?_suffix hr), hread, hw⟩
  | case2 => exact absurd h (hpending _)
  | case3 read c s _ ih =>
    obtain ⟨u, left, hu, hread, hw⟩ := ih h
    exact ⟨u, left, hu.trans (List.suffix_cons _ _), hread, hw⟩

theorem read?_of_split {s w : Text} {d : Directive} (h : directive d w ∈ split s) :
    ∃ u rest, u <:+ s ∧ Directive.read? u = some (d, rest) ∧
      w = u.take (u.length - rest.length) := by
  unfold split at h
  split at h
  · cases List.mem_singleton.1 h
  · exact read?_of_splitFrom h

theorem split_directive {s w : Text} {d : Directive} (h : directive d w ∈ split s) :
    '"' ∉ d.path ∧ d.path <:+: s := by
  obtain ⟨u, rest, hu, hread, -⟩ := read?_of_split h
  obtain ⟨-, hquote, hinfix, -⟩ := Directive.read?_spec hread
  exact ⟨hquote, hinfix.trans hu.isInfix⟩

theorem split_write {d : Directive} (h : '"' ∉ d.path) : (split d.write).map token = [.directive d] := by
  have hread := Directive.read?_write h []
  rw [List.append_nil] at hread
  have hne : d.write ≠ [] := by
    intro he
    have hhead := Directive.head_write d []
    rw [he] at hhead
    cases hhead
  rw [split, if_neg hne, splitFrom_of_some hread]
  have hend : splitFrom [] [] = [] := by
    rw [splitFrom]
    rfl
  rw [hend]
  rfl

end Segment

end ClassicAsp
