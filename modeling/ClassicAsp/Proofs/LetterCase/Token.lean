import ClassicAsp.Proofs.Include
import ClassicAsp.Proofs.LetterCase.Literal
import ClassicAsp.Proofs.LetterCase.Source

/-! Letter case of tokens. Words and numbers are the same tokens in any case; names, literals,
remarks, markup and paths keep the letters they are written with, and nothing else of a token
depends on them. -/
namespace ClassicAsp

open Text (expect_lower)

namespace Directive

def lower (d : Directive) : Directive := { d with path := Text.lower d.path }

theorem skipBlanks_lower (s : Text) : skipBlanks (Text.lower s) = Text.lower (skipBlanks s) :=
  Text.caseBlind_isAsciiBlank.dropWhile_lower s

theorem kind_lower (s : Text) :
    IncludeKind.read? (Text.lower s) = (IncludeKind.read? s).map (Prod.map id Text.lower) := by
  unfold IncludeKind.read?
  rw [expect_lower, expect_lower]
  cases Text.expect IncludeKind.file.word s with
  | some t => rfl
  | none =>
    cases Text.expect IncludeKind.virtual.word s with
    | some t => rfl
    | none => rfl

theorem header?_lower (s : Text) :
    header? (Text.lower s) = (header? s).map (Prod.map id Text.lower) := by
  unfold header?
  simp only [expect_lower, skipBlanks_lower, kind_lower, Option.bind_map, Option.map_bind,
    Text.caseBlind_isAsciiBlank.any_head?_lower, Function.comp_def]
  congr 1
  funext s
  congr 1
  funext s
  split
  · simp only [Option.map_bind, Function.comp_def, Prod.map, Option.map_map, skipBlanks_lower,
      expect_lower, Option.bind_map]
  · rfl

theorem closing?_lower (s : Text) : closing? (Text.lower s) = (closing? s).map Text.lower := by
  rw [closing?, closing?, skipBlanks_lower, expect_lower]

theorem read?_lower (s : Text) :
    read? (Text.lower s) = (read? s).map (Prod.map lower Text.lower) := by
  have hquote := Text.caseBlind_ne (k := '"') (by decide)
  rw [read?_eq_header?, read?_eq_header?, header?_lower]
  simp only [hquote.dropWhile_lower, hquote.takeWhile_lower, expect_lower, closing?_lower,
    Option.bind_map, Option.map_bind, Option.map_map, Function.comp_def, Prod.map]
  rfl

def quoted (s : Text) : Text := ((s.dropWhile (· != '"')).drop 1).takeWhile (· != '"')

theorem quoted_eq {w path rest : Text} (hw : '"' ∉ w) (hp : '"' ∉ path) :
    quoted (w ++ '"' :: (path ++ '"' :: rest)) = path := by
  have hpath : ∀ c ∈ path, (c != '"') = true := by
    intro c hc
    rw [bne_iff_ne]
    rintro rfl
    exact hp hc
  rw [quoted, dropWhile_unquoted hw, List.dropWhile_cons_of_neg (by simp), List.drop_one,
    List.tail_cons, List.takeWhile_append_of_pos hpath, List.takeWhile_cons_of_neg (by simp),
    List.append_nil]

theorem quoted_of_read? {s rest : Text} {d : Directive} (h : read? s = some (d, rest)) :
    quoted (s.take (s.length - rest.length)) = d.path := by
  obtain ⟨x, y, hx, hpath, hw⟩ := read?_written h
  rw [hw, quoted_eq hx hpath]

end Directive

namespace Segment

def lower : Segment → Segment
  | markup s => markup (Text.lower s)
  | directive d w => directive d.lower (Text.lower w)

theorem pending_lower (read : Text) :
    pending (Text.lower read) = (pending read).map lower := by
  unfold pending
  simp only [Text.lower_eq_nil]
  split
  · rfl
  · simp [lower]

theorem splitFrom_nil (read : Text) : splitFrom read [] = pending read := by
  rw [splitFrom]
  rfl

theorem splitFrom_lower (read s : Text) :
    splitFrom (Text.lower read) (Text.lower s) = (splitFrom read s).map lower := by
  fun_induction splitFrom read s with
  | case1 read s d rest h _ ih =>
    have hread := Directive.read?_lower s
    rw [h] at hread
    rw [splitFrom_of_some hread, pending_lower, List.map_append, List.map_cons, ← ih, lower,
      Text.lower_take, Text.length_lower, Text.length_lower]
    rfl
  | case2 read => simp [splitFrom_nil, pending_lower]
  | case3 read c s h ih =>
    have hread := Directive.read?_lower (c :: s)
    rw [h, Text.lower_cons] at hread
    rw [← ih, Text.lower_cons, Text.lower_cons]
    exact splitFrom_cons hread

theorem split_lower (s : Text) : split (Text.lower s) = (split s).map lower := by
  unfold split
  simp only [Text.lower_eq_nil]
  split
  · rfl
  · exact splitFrom_lower [] s

end Segment

theorem Statement.find?_lower (s : Text) : find? (Text.lower s) = find? s := by
  unfold find?
  simp only [Text.sameWord_lower]

theorem Word.spelling_injective (list : List Text) :
    Function.Injective (spelling : Word list → Text) := by
  rintro ⟨w, hw⟩ ⟨v, hv⟩ h
  cases h
  rfl

theorem Word.find?_lower (list : List Text) (s : Text) :
    find? list (Text.lower s) = find? list s := by
  apply Option.map_injective (spelling_injective list)
  rw [map_spelling_find?, map_spelling_find?]
  simp only [Text.sameWord_lower]

theorem NamedConstant.find?_lower (s : Text) : find? (Text.lower s) = find? s := by
  unfold find?
  simp only [Word.find?_lower]

namespace Token

def lower : Token → Token
  | identifier s => identifier (Text.lower s)
  | string s => string (Text.lower s)
  | date d => date d.lower
  | comment s => comment (Text.lower s)
  | markup s => markup (Text.lower s)
  | directive d => directive d.lower
  | t => t

/-- The token with all it keeps of the way it was written read anew from a text. -/
def respell (t : Token) (written : Text) : Token :=
  match t with
  | identifier _ => identifier written
  | string _ => string written
  | date _ => date (.read written)
  | comment _ => comment (Text.trim written)
  | markup _ => markup written
  | directive d => directive { d with path := Directive.quoted written }
  | t => t

/-- The kind of a token is left when its letters are. -/
theorem respell_lower (t : Token) (written : Text) :
    t.lower.respell written = t.respell written := by
  cases t <;> rfl

/-- A token that keeps letters as they are written, as a date does only if it is read as none. -/
def keepsLetters : Token → Bool
  | identifier _ | string _ | date (.text _) | comment _ | markup _ | directive _ => true
  | _ => false

theorem keepsLetters_lower (t : Token) : t.lower.keepsLetters = t.keepsLetters := by
  cases t with
  | date d => cases d <;> rfl
  | _ => rfl

theorem lower_eq_self {t : Token} (h : t.keepsLetters = false) : t.lower = t := by
  cases t with
  | identifier | string | comment | markup | directive => cases h
  | date d =>
    cases d with
    | text => cases h
    | _ => rfl
  | _ => rfl

theorem lower_eq_iff {t u : Token} (hu : u.keepsLetters = false) : t.lower = u ↔ t = u := by
  constructor
  · rintro rfl
    rw [keepsLetters_lower] at hu
    exact (lower_eq_self hu).symm
  · rintro rfl
    exact lower_eq_self hu

theorem category_lower (t : Token) : t.lower.category = t.category := by
  cases t <;> rfl

theorem ofName_lower (s : Text) : ofName (Text.lower s) = (ofName s).lower := by
  unfold ofName
  rw [Statement.find?_lower, Word.find?_lower, Word.find?_lower, Text.sameWord_lower,
    Text.sameWord_lower, NamedConstant.find?_lower]
  split
  · rfl
  split
  · rfl
  split
  · rfl
  split
  · rfl
  split
  · rfl
  split
  · rfl
  · rfl

end Token

def Fault.lower : Fault → Fault
  | scan e => scan e.lower
  | invalidInteger w => invalidInteger (Text.lower w)
  | invalidFloat w => invalidFloat (Text.lower w)

def PageError.lower (e : PageError) : PageError := { e with fault := e.fault.lower }

def Spelled.lower (t : Spelled) : Spelled := ⟨t.token.lower, Text.lower t.written⟩

theorem Segment.spelled_lower (p : Segment) : p.lower.spelled = p.spelled.lower := by
  cases p <;> rfl

namespace Lexeme

theorem text_lower {l : Lexeme} (h : l.IsRead) : l.lower.text = Text.lower l.text := by
  cases l with
  | punctuation c =>
    have hc := Source.toLower_of_not_isAlphabetic ((Source.isPunctuation_iff c).1 h).2.1
    exact congrArg (fun a => [a]) hc.symm
  | lineEnd e => cases e <;> rfl
  | _ => rfl

theorem integer?_lower (w : Text) :
    integer? (Text.lower w) = lowerAnswer Fault.lower id (integer? w) := by
  unfold integer?
  rw [Integer.read?_lower]
  split <;> rfl

theorem float?_lower (w : Text) :
    float? (Text.lower w) = lowerAnswer Fault.lower id (float? w) := by
  unfold float?
  rw [Binary64.read?_lower]
  split <;> rfl

theorem token_lower (l : Lexeme) (atLineEnd : Bool) :
    l.lower.token atLineEnd = lowerAnswer Fault.lower Token.lower (l.token atLineEnd) := by
  cases l with
  | identifier s => exact congrArg Except.ok (Token.ofName_lower s)
  | integer s =>
    change (integer? (Text.lower s)).map Token.integer = _
    rw [integer?_lower, token]
    cases integer? s <;> rfl
  | float s =>
    change (float? (Text.lower s)).map Token.float = _
    rw [float?_lower, token]
    cases float? s <;> rfl
  | date s => exact congrArg (fun d => Except.ok (Token.date d)) (DateLiteral.read_lower s)
  | comment s => exact congrArg (fun t => Except.ok (Token.comment t)) (Text.trim_lower s)
  | punctuation c =>
    simp only [lower, token, lowerAnswer]
    split <;> rfl
  | _ => rfl

end Lexeme

end ClassicAsp
