import ClassicAsp.Lexeme.Literal
import ClassicAsp.Token

/-! Words. A name is classified once, so the spelling of its token is classified the same way:
reserved words in their canonical spelling and names as they are written. -/
namespace ClassicAsp

def Lexeme.isName : Text → Bool
  | [] => false
  | c :: s =>
    (isAlphabetic c || (c == '.' && s.head?.any isAlphabetic)) && s.all Lexeme.isNameChar

namespace Token

structure IsWord (t : Token) : Prop where
  name : Lexeme.isName t.text = true
  notOperator : Operator.findWord? t.text = none
  classified : ofName t.text = t

theorem ofName_statement {s : Text} {w : Statement} (h : Statement.find? s = some w) :
    ofName s = .statement w := by
  simp [ofName, h]

theorem isWord_statement (w : Statement) : IsWord (.statement w) := by
  have h : ∀ w ∈ Statement.all, Lexeme.isName w.spelling = true ∧
      Operator.findWord? w.spelling = none ∧ Statement.find? w.spelling = some w := by
    decide +kernel
  obtain ⟨h1, h2, h3⟩ := h w w.mem_all
  exact ⟨h1, h2, ofName_statement h3⟩

theorem find?_listed {list : List Text} (f : Word list)
    (h : list.find? (Text.sameWord · f.spelling) = some f.spelling) :
    Word.find? list f.spelling = some f := by
  unfold Word.find?
  split
  · next w hw =>
    rw [h] at hw
    simp [← Option.some.inj hw]
  · next hw =>
    rw [h] at hw
    cases hw

theorem find?_eq_none {list : List Text} {s : Text}
    (h : list.find? (Text.sameWord · s) = none) : Word.find? list s = none := by
  unfold Word.find?
  split
  · next w hw =>
    rw [h] at hw
    cases hw
  · rfl

theorem isWord_function (f : Word functionNames) : IsWord (.function f) := by
  have h : ∀ s ∈ functionNames, Lexeme.isName s = true ∧ Operator.findWord? s = none ∧
      Statement.find? s = none ∧ functionNames.find? (Text.sameWord · s) = some s := by
    decide +kernel
  obtain ⟨h1, h2, h3, h4⟩ := h f.spelling f.listed
  exact ⟨h1, h2, by simp [text, ofName, h3, find?_listed f h4]⟩

theorem isWord_keyword (k : Word keywordNames) : IsWord (.keyword k) := by
  have h : ∀ s ∈ keywordNames, Lexeme.isName s = true ∧ Operator.findWord? s = none ∧
      Statement.find? s = none ∧ functionNames.find? (Text.sameWord · s) = none ∧
      keywordNames.find? (Text.sameWord · s) = some s := by
    decide +kernel
  obtain ⟨h1, h2, h3, h4, h5⟩ := h k.spelling k.listed
  exact ⟨h1, h2, by simp [text, ofName, h3, find?_eq_none h4, find?_listed k h5]⟩

theorem isWord_boolean (b : Bool) : IsWord (.boolean b) := by
  cases b
  · exact ⟨by decide +kernel, by decide +kernel, by decide +kernel⟩
  · exact ⟨by decide +kernel, by decide +kernel, by decide +kernel⟩

@[simp]
theorem namedConstant_find? (c : NamedConstant) : NamedConstant.find? c.name.spelling = some c := by
  have h : ∀ f ∈ ConstantFamily.all, ∀ s ∈ f.names,
      (NamedConstant.find? s).map (fun c => (c.family, c.name.spelling)) = some (f, s) := by
    decide +kernel
  obtain ⟨f, s, hs⟩ := c
  obtain ⟨c', hc, he⟩ := Option.map_eq_some_iff.1 (h f (by cases f <;> decide) s hs)
  obtain ⟨f', s', hs'⟩ := c'
  obtain ⟨rfl, rfl⟩ := Prod.mk.inj he
  exact hc

theorem isWord_constant (c : NamedConstant) : IsWord (.constant c) := by
  have h : ∀ f ∈ ConstantFamily.all, ∀ s ∈ f.names, Lexeme.isName s = true ∧
      Operator.findWord? s = none ∧ Statement.find? s = none ∧
      functionNames.find? (Text.sameWord · s) = none ∧
      keywordNames.find? (Text.sameWord · s) = none ∧
      Text.sameWord "true".toList s = false ∧ Text.sameWord "false".toList s = false := by
    decide +kernel
  obtain ⟨h1, h2, h3, h4, h5, h6, h7⟩ :=
    h c.family (by cases c.family <;> decide) c.name.spelling c.name.listed
  refine ⟨h1, h2, ?_⟩
  simp only [text, ofName, h3, find?_eq_none h4, find?_eq_none h5, h6, h7, namedConstant_find?]
  rfl

theorem ofName_cases (s : Text) :
    (∃ w, ofName s = .statement w) ∨ (∃ f, ofName s = .function f) ∨
      (∃ k, ofName s = .keyword k) ∨ (∃ b, ofName s = .boolean b) ∨
      (∃ c, ofName s = .constant c) ∨ ofName s = .identifier s := by
  unfold ofName
  split
  · simp
  split
  · simp
  split
  · simp
  split
  · simp
  split
  · simp
  split
  · simp
  · simp

/-- Whatever a name is classified as is spelled by a name of the same class. -/
theorem isWord_ofName {s : Text} (hn : Lexeme.isName s = true)
    (ho : Operator.findWord? s = none) : IsWord (ofName s) := by
  rcases ofName_cases s with ⟨w, h⟩ | ⟨f, h⟩ | ⟨k, h⟩ | ⟨b, h⟩ | ⟨c, h⟩ | h
  · exact h ▸ isWord_statement w
  · exact h ▸ isWord_function f
  · exact h ▸ isWord_keyword k
  · exact h ▸ isWord_boolean b
  · exact h ▸ isWord_constant c
  · rw [h]
    exact ⟨hn, ho, h⟩

theorem IsWord.eq_rem {t : Token} (h : IsWord t) (hr : Text.sameWord ['r', 'e', 'm'] t.text = true) :
    t = .statement .rem := by
  rw [← h.classified]
  apply ofName_statement
  have hl := (Text.sameWord_iff _ _).1 hr
  have hs : ∀ w : Statement, Text.sameWord w.spelling t.text =
      Text.sameWord w.spelling ['r', 'e', 'm'] := by
    intro w
    rw [Bool.eq_iff_iff, Text.sameWord_iff, Text.sameWord_iff, hl]
  simp only [Statement.find?, hs]
  decide +kernel

end Token

theorem Word.map_spelling_find? (list : List Text) (s : Text) :
    (find? list s).map spelling = list.find? (Text.sameWord · s) := by
  unfold find?
  split
  · next h => exact h.symm
  · next h => exact h.symm

@[simp] theorem Operator.find?_spelling (o : Operator) : find? o.spelling = some o := by
  cases o <;> rfl

/-- A word is looked up among all operators as it is among the words, since no symbol matches it. -/
theorem Operator.find?_of_findWord? {s : Text} {o : Operator} (h : findWord? s = some o) :
    find? s = some o := by
  have hsame : Text.sameWord o.spelling s = true :=
    @List.find?_some _ (fun p : Operator => Text.sameWord p.spelling s) _ _ h
  have hs : Text.lower o.spelling = Text.lower s := (Text.sameWord_iff _ _).1 hsame
  have hfind : ∀ p : Operator, Text.sameWord p.spelling s = Text.sameWord p.spelling o.spelling := by
    intro p
    rw [Bool.eq_iff_iff, Text.sameWord_iff, Text.sameWord_iff, hs]
  have heq : find? s = find? o.spelling := by
    unfold find?
    simp only [hfind]
  simp [heq]

theorem Operator.isName_word {o : Operator} (h : o ∈ words) :
    Lexeme.isName o.spelling = true ∧ findWord? o.spelling = some o ∧
      Text.sameWord ['r', 'e', 'm'] o.spelling = false := by
  have hall : ∀ o ∈ words, Lexeme.isName o.spelling = true ∧ findWord? o.spelling = some o ∧
      Text.sameWord ['r', 'e', 'm'] o.spelling = false := by
    decide +kernel
  exact hall o h

end ClassicAsp
