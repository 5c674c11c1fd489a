import ClassicAsp.Text

/-!
Include directives in markup, `<!--#include file="..."-->` and the same with `virtual`. Keywords
are recognised in any ASCII case and blanks may stand between the parts; the path is kept as it
is. A text is split around its directives, and every piece keeps the text it was written as.
-/
namespace ClassicAsp

inductive IncludeKind where
  | file
  | virtual
  deriving DecidableEq, Repr

namespace IncludeKind

def word : IncludeKind → Text
  | file => "file".toList
  | virtual => "virtual".toList

def read? (s : Text) : Option (IncludeKind × Text) :=
  match Text.expect file.word s with
  | some s => some (file, s)
  | none => (Text.expect virtual.word s).map fun s => (virtual, s)

end IncludeKind

structure Directive where
  kind : IncludeKind
  path : Text
  deriving DecidableEq

namespace Directive

def write (d : Directive) : Text :=
  "<!--#include ".toList ++ d.kind.word ++ '=' :: '"' :: (d.path ++ "\"-->".toList)

def skipBlanks (s : Text) : Text := s.dropWhile isAsciiBlank

/-- The directive at the front of a text, and what follows it. Blanks may be left out except
before the kind. -/
def read? (s : Text) : Option (Directive × Text) :=
  (Text.expect "<!--".toList s).bind fun s =>
  (Text.expect "#include".toList (skipBlanks s)).bind fun s =>
  if s.head?.any isAsciiBlank then
    (IncludeKind.read? (skipBlanks s)).bind fun (kind, s) =>
    (Text.expect ['='] (skipBlanks s)).bind fun s =>
    (Text.expect ['"'] (skipBlanks s)).bind fun s =>
    (Text.expect ['"'] (s.dropWhile (· != '"'))).bind fun after =>
    (Text.expect "-->".toList (skipBlanks after)).map fun rest =>
      (⟨kind, s.takeWhile (· != '"')⟩, rest)
  else none

end Directive

theorem IncludeKind.read?_length {s rest : Text} {k : IncludeKind}
    (h : IncludeKind.read? s = some (k, rest)) : rest.length ≤ s.length := by
  unfold IncludeKind.read? at h
  split at h
  · next t e =>
    cases h
    have := Text.expect_length e
    omega
  · obtain ⟨t, e, h⟩ := Option.map_eq_some_iff.1 h
    cases h
    have := Text.expect_length e
    omega

theorem Directive.skipBlanks_length (s : Text) : (skipBlanks s).length ≤ s.length :=
  (List.dropWhile_suffix _).length_le

theorem Directive.read?_length {s rest : Text} {d : Directive} (h : read? s = some (d, rest)) :
    rest.length < s.length := by
  unfold read? at h
  obtain ⟨s₁, e₁, h⟩ := Option.bind_eq_some_iff.1 h
  obtain ⟨s₂, e₂, h⟩ := Option.bind_eq_some_iff.1 h
  split at h
  · obtain ⟨⟨k, s₃⟩, e₃, h⟩ := Option.bind_eq_some_iff.1 h
    obtain ⟨s₄, e₄, h⟩ := Option.bind_eq_some_iff.1 h
    obtain ⟨s₅, e₅, h⟩ := Option.bind_eq_some_iff.1 h
    obtain ⟨s₆, e₆, h⟩ := Option.bind_eq_some_iff.1 h
    obtain ⟨s₇, e₇, h⟩ := Option.map_eq_some_iff.1 h
    cases h
    have h₁ := Text.expect_length e₁
    have h₂ := Text.expect_length e₂
    have h₃ := IncludeKind.read?_length e₃
    have h₄ := Text.expect_length e₄
    have h₅ := Text.expect_length e₅
    have h₆ := Text.expect_length e₆
    have h₇ := Text.expect_length e₇
    have b₁ := skipBlanks_length s₁
    have b₂ := skipBlanks_length s₂
    have b₃ := skipBlanks_length s₃
    have b₄ := skipBlanks_length s₄
    have b₅ := skipBlanks_length s₆
    have b₆ := (@List.dropWhile_suffix _ s₅ (· != '"')).length_le
    simp only [List.length_cons, List.length_nil] at h₄ h₅ h₆
    omega
  · simp at h

/-- A piece of a markup text. -/
inductive Segment where
  | markup (text : Text)
  | directive (directive : Directive) (written : Text)
  deriving DecidableEq

namespace Segment

def written : Segment → Text
  | markup s => s
  | directive _ s => s

/-- Markup that has been read in reverse; there is none between adjacent directives. -/
def pending (read : Text) : List Segment :=
  if read = [] then [] else [markup read.reverse]

def splitFrom (read s : Text) : List Segment :=
  match h : Directive.read? s with
  | some (d, rest) =>
    have := Directive.read?_length h
    pending read ++ directive d (s.take (s.length - rest.length)) :: splitFrom [] rest
  | none =>
    match s with
    | [] => pending read
    | c :: s => splitFrom (c :: read) s
termination_by s.length

/-- The directives of a text and the markup around them. An empty text is one empty piece. -/
def split (s : Text) : List Segment :=
  if s = [] then [markup []] else splitFrom [] s

theorem splitFrom_ne_nil (read s : Text) (h : read ≠ [] ∨ s ≠ []) : splitFrom read s ≠ [] := by
  fun_induction splitFrom read s with
  | case1 read s d rest e _ _ => simp
  | case2 read => simpa [pending] using h
  | case3 read c s _ ih => exact ih (.inl (by simp))

theorem split_ne_nil (s : Text) : split s ≠ [] := by
  unfold split
  split
  · simp
  · next h => exact splitFrom_ne_nil [] s (.inr h)

theorem length_splitFrom (read s : Text) :
    (splitFrom read s).length ≤ (pending read).length + s.length := by
  fun_induction splitFrom read s with
  | case1 read s d rest e this ih =>
    simp only [List.length_append, List.length_cons]
    have : (pending []).length = 0 := rfl
    omega
  | case2 read => simp
  | case3 read c s _ ih =>
    have : (pending (c :: read)).length ≤ 1 := by unfold pending; split <;> simp
    simp only [List.length_cons]
    omega

/-- Every piece but that of an empty text takes at least one character. -/
theorem length_split (s : Text) : (split s).length ≤ max 1 s.length := by
  unfold split
  split
  · simp only [List.length_singleton]; omega
  · have := length_splitFrom [] s
    have : (pending []).length = 0 := rfl
    omega

end Segment

/-- A stretch of a text, in bytes of its UTF-8 form. -/
structure Span where
  start : Nat
  stop : Nat
  deriving DecidableEq, Repr

namespace Text

def bytes (s : Text) : Nat := s.foldr (fun c n => c.utf8Size + n) 0

/-- What is left of a text after so many bytes. -/
def dropBytes (n : Nat) : Text → Text
  | [] => []
  | c :: s => if n = 0 then c :: s else dropBytes (n - c.utf8Size) s

end Text

/-- Where each piece stands when the first starts at `start`. -/
def Segment.spans (start : Nat) : List Segment → List (Segment × Span)
  | [] => []
  | p :: ps =>
    let stop := start + Text.bytes p.written
    (p, ⟨start, stop⟩) :: spans stop ps

/-- The leftmost directive of a text that starts at `start`. -/
def Directive.findFrom? (start : Nat) : Text → Option (Directive × Span)
  | [] => none
  | c :: s =>
    match read? (c :: s) with
    | some (d, rest) => some (d, ⟨start, start + (Text.bytes (c :: s) - Text.bytes rest)⟩)
    | none => findFrom? (start + c.utf8Size) s

/-- The leftmost directive that starts at an offset or after it. -/
def Directive.find? (s : Text) (offset : Nat) : Option (Directive × Span) :=
  findFrom? offset (Text.dropBytes offset s)

end ClassicAsp
