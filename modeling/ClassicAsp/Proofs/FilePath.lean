import ClassicAsp.FileTree
import ClassicAsp.Proofs.Text
import ClassicAsp.Text.Utf8
import Mathlib.Algebra.Order.Group.Nat
import Mathlib.Data.List.Basic
import Mathlib.Tactic.SplitIfs

/-! Texts as bytes. The lead byte of a character tells how many bytes follow and holds the highest
digits of the code point, so that texts are ordered as their bytes are. -/
namespace ClassicAsp.Utf8

def encode (s : Text) : List UInt8 := s.flatMap String.utf8EncodeChar

@[simp] theorem encode_cons (c : Char) (s : Text) :
    encode (c :: s) = String.utf8EncodeChar c ++ encode s :=
  List.flatMap_cons

def following (v : ℕ) : ℕ :=
  if v ≤ 0x7f then 0 else if v ≤ 0x7ff then 1 else if v ≤ 0xffff then 2 else 3

def mark : ℕ → ℕ
  | 0 => 0
  | 1 => 0xc0
  | 2 => 0xe0
  | _ => 0xf0

def lead (v : ℕ) : ℕ := v / 64 ^ following v + mark (following v)

def digits (v : ℕ) : ℕ → List UInt8
  | 0 => []
  | k + 1 => UInt8.ofNat (v / 64 ^ k % 64 + 0x80) :: digits v k

theorem toNat_lt (c : Char) : c.toNat < 0x110000 := by
  rcases c.valid with h | ⟨-, h⟩
  · exact Nat.lt_trans h (by decide)
  · exact h

theorem utf8EncodeChar_eq (c : Char) :
    String.utf8EncodeChar c =
      UInt8.ofNat (lead c.toNat) :: digits c.toNat (following c.toNat) := by
  have hc := toNat_lt c
  unfold String.utf8EncodeChar lead following
  simp only [Char.toNat_val]
  split_ifs with h₁ h₂ h₃
  · simp [digits, mark]
  · have hlead : c.toNat / 64 % 32 = c.toNat / 64 := by omega
    simp [digits, mark, hlead]
  · have hlead : c.toNat / 4096 % 16 = c.toNat / 4096 := by omega
    simp [digits, mark, hlead]
  · have hlead : c.toNat / 262144 % 8 = c.toNat / 262144 := by omega
    simp [digits, mark, hlead]

section Order

variable {v w : ℕ}

theorem ofNat_lt_ofNat (hw : w < 256) (h : v < w) : UInt8.ofNat v < UInt8.ofNat w :=
  (UInt8.ofNat_lt_iff_lt (Nat.lt_trans h hw) hw).2 h

theorem lead_lt (hw : w < 0x110000) : lead w < 256 := by
  unfold lead following
  split_ifs <;> simp only [mark] <;> omega

/-- A greater code point has a greater lead byte, unless it differs in the bytes that follow. -/
theorem lead_lt_or_eq (h : v < w) :
    lead v < lead w ∨
      following v = following w ∧ v / 64 ^ following v = w / 64 ^ following v := by
  unfold lead following
  split_ifs <;> simp only [mark, true_and] <;> omega

theorem digits_lt {k : ℕ} (hk : v / 64 ^ k = w / 64 ^ k) (h : v < w) (s t : List UInt8) :
    digits v k ++ s < digits w k ++ t := by
  induction k with
  | zero =>
    rw [pow_zero, Nat.div_one, Nat.div_one] at hk
    omega
  | succ k ih =>
    have hv : v / 64 ^ k / 64 = v / 64 ^ (k + 1) := by rw [Nat.div_div_eq_div_mul, pow_succ]
    have hw : w / 64 ^ k / 64 = w / 64 ^ (k + 1) := by rw [Nat.div_div_eq_div_mul, pow_succ]
    have hle : v / 64 ^ k ≤ w / 64 ^ k := Nat.div_le_div_right h.le
    rw [digits, digits, List.cons_append, List.cons_append, List.cons_lt_cons_iff]
    rcases hle.lt_or_eq with hlt | heq
    · exact .inl (ofNat_lt_ofNat (by omega) (by omega))
    · exact .inr ⟨by rw [heq], ih heq⟩

end Order

theorem utf8EncodeChar_lt {a b : Char} (h : a < b) (s t : List UInt8) :
    String.utf8EncodeChar a ++ s < String.utf8EncodeChar b ++ t := by
  have hnat : a.toNat < b.toNat := h
  rw [utf8EncodeChar_eq, utf8EncodeChar_eq, List.cons_append, List.cons_append,
    List.cons_lt_cons_iff]
  rcases lead_lt_or_eq hnat with hlead | ⟨hsame, hrest⟩
  · exact .inl (ofNat_lt_ofNat (lead_lt (toNat_lt b)) hlead)
  · have hlead : lead a.toNat = lead b.toNat := by
      unfold lead
      rw [← hsame, hrest]
    rw [hlead, ← hsame]
    exact .inr ⟨rfl, digits_lt hrest hnat s t⟩

/-- Texts are ordered as their bytes are. -/
theorem encode_lt {s t : Text} (h : s < t) : encode s < encode t := by
  induction h with
  | nil =>
    rw [encode_cons, utf8EncodeChar_eq]
    exact .nil
  | rel h =>
    rw [encode_cons, encode_cons]
    exact utf8EncodeChar_lt h _ _
  | cons h ih =>
    rw [encode_cons, encode_cons]
    exact List.append_left_lt ih

end ClassicAsp.Utf8

/-! Paths and their components. A path that leads to an entry of a folder has one component more
than the path of the folder, and the extension of a path is a matter of that last component. -/
namespace ClassicAsp

namespace Text

variable {separator : Char}

theorem pieces_ne_nil (separator : Char) (s : Text) : pieces separator s ≠ [] :=
  piecesFrom_ne_nil separator [] s

theorem piecesFrom_append_separator (piece s t : Text) :
    piecesFrom separator piece (s ++ separator :: t) =
      piecesFrom separator piece s ++ pieces separator t := by
  induction s generalizing piece with
  | nil => simp [piecesFrom, pieces]
  | cons c s ih =>
    rw [List.cons_append, piecesFrom, piecesFrom]
    split
    · rw [ih, List.cons_append]
    · exact ih _

@[simp] theorem pieces_append_separator (s t : Text) :
    pieces separator (s ++ separator :: t) = pieces separator s ++ pieces separator t :=
  piecesFrom_append_separator [] s t

theorem piecesFrom_of_not_mem {s : Text} (h : separator ∉ s) (piece : Text) :
    piecesFrom separator piece s = [piece.reverse ++ s] := by
  induction s generalizing piece with
  | nil => rw [piecesFrom, List.append_nil]
  | cons c s ih =>
    simp only [List.mem_cons, not_or] at h
    rw [piecesFrom, if_neg (Ne.symm h.1), ih h.2, List.reverse_cons, List.append_assoc]
    rfl

theorem pieces_of_not_mem {s : Text} (h : separator ∉ s) : pieces separator s = [s] :=
  piecesFrom_of_not_mem h []

theorem eq_of_pieces_eq {s p : Text} (h : pieces separator s = [p]) : s = p := by
  by_cases hs : separator ∈ s
  · obtain ⟨a, b, rfl⟩ := List.append_of_mem hs
    have ha := List.length_pos_iff.2 (pieces_ne_nil separator a)
    have hb := List.length_pos_iff.2 (pieces_ne_nil separator b)
    have hlength := congrArg List.length h
    rw [pieces_append_separator, List.length_append, List.length_singleton] at hlength
    omega
  · rw [pieces_of_not_mem hs] at h
    exact List.singleton_inj.1 h

end Text

namespace FilePath

/-- What an entry of a folder may be called. -/
structure IsName (name : Text) : Prop where
  nonempty : name ≠ []
  slashless : '/' ∉ name
  not_here : name ≠ ['.']
  not_up : name ≠ ['.', '.']

instance : DecidablePred IsName := fun name =>
  decidable_of_iff (name ≠ [] ∧ '/' ∉ name ∧ name ≠ ['.'] ∧ name ≠ ['.', '.'])
    ⟨fun ⟨h₁, h₂, h₃, h₄⟩ => ⟨h₁, h₂, h₃, h₄⟩, fun ⟨h₁, h₂, h₃, h₄⟩ => ⟨h₁, h₂, h₃, h₄⟩⟩

@[simp] theorem components_append_slash (p s : Text) :
    components (p ++ '/' :: s) = components p ++ components s := by
  unfold components
  simp

theorem IsName.components_eq {name : Text} (h : IsName name) : components name = [name] := by
  unfold components
  rw [Text.pieces_of_not_mem h.slashless]
  simp [h.nonempty, h.not_here]

theorem exists_join (folder : Text) :
    ∃ p, (∀ name, join folder name = p ++ '/' :: name) ∧ (folder = p ∨ folder = p ++ ['/']) := by
  by_cases h : folder.getLast? = some '/'
  · obtain ⟨p, rfl⟩ := List.getLast?_eq_some_iff.1 h
    refine ⟨p, ?_, .inr rfl⟩
    intro name
    rw [join, if_pos h, List.append_assoc, List.singleton_append]
  · refine ⟨folder, ?_, .inl rfl⟩
    intro name
    rw [join, if_neg h]

theorem join_join (folder inner : Text) {name : Text} (h : IsName name) :
    join (join folder name) inner = join folder name ++ '/' :: inner := by
  obtain ⟨p, hjoin, -⟩ := exists_join folder
  have hlast : (join folder name).getLast? ≠ some '/' := by
    rcases List.eq_nil_or_concat' name with rfl | ⟨init, c, rfl⟩
    · exact absurd rfl h.nonempty
    · intro hc
      rw [hjoin, ← List.cons_append, ← List.append_assoc, List.getLast?_concat] at hc
      cases hc
      exact h.slashless (List.mem_append_right _ List.mem_cons_self)
  rw [join, if_neg hlast]

theorem components_join (folder : Text) {name : Text} (h : IsName name) :
    components (join folder name) = components folder ++ [name] := by
  obtain ⟨p, hjoin, rfl | rfl⟩ := exists_join folder
  · rw [hjoin, components_append_slash, h.components_eq]
  · have hnil : components [] = [] := by decide
    simp [hjoin, hnil, h.components_eq]

/-- The path of what lies below a folder has the names on the way as its last components. -/
theorem components_foldl_join (path : Text) {names : List Text} (h : ∀ n ∈ names, IsName n) :
    components (names.foldl join path) = components path ++ names := by
  induction names generalizing path with
  | nil => rw [List.foldl_nil, List.append_nil]
  | cons n names ih =>
    obtain ⟨hn, hnames⟩ := List.forall_mem_cons.1 h
    rw [List.foldl_cons, ih _ hnames, components_join path hn, List.append_assoc]
    rfl

/-- The extension stands behind the last dot of a name, if something stands before that dot. The one
asked for may have dots in front, in any case. -/
def EndsIn (name ext : Text) : Prop :=
  ∃ stem e, name = stem ++ '.' :: e ∧ stem ≠ [] ∧ '.' ∉ e ∧
    Text.lower e = Text.lower (ext.dropWhile (· == '.'))

theorem fileName?_join (folder : Text) {name : Text} (h : IsName name) :
    fileName? (join folder name) = some name := by
  unfold fileName?
  rw [components_join folder h, List.getLast?_append]
  simp [h.not_up]

theorem extension?_of_last_dot {path stem e : Text}
    (h : fileName? path = some (stem ++ '.' :: e)) (he : '.' ∉ e) :
    extension? path = if stem = [] then none else some e := by
  have hpieces : Text.pieces '.' (stem ++ '.' :: e) = Text.pieces '.' stem ++ [e] := by
    simp [Text.pieces_of_not_mem he]
  have hbefore : (Text.pieces '.' stem).reverse = [[]] ↔ stem = [] := by
    rw [List.reverse_eq_iff]
    constructor
    · exact Text.eq_of_pieces_eq
    · rintro rfl
      rfl
  obtain ⟨p, ps, hp⟩ := List.exists_cons_of_ne_nil
    (mt List.reverse_eq_nil_iff.1 (Text.pieces_ne_nil '.' stem))
  rw [hp] at hbefore
  unfold extension?
  rw [h, Option.bind_some, hpieces, List.reverse_append, hp]
  simp only [List.reverse_singleton, List.singleton_append, hbefore]

theorem extension?_of_no_dot {path name : Text} (h : fileName? path = some name)
    (hdot : '.' ∉ name) : extension? path = none := by
  unfold extension?
  rw [h, Option.bind_some, Text.pieces_of_not_mem hdot]
  rfl

theorem exists_last_dot {name : Text} (h : '.' ∈ name) :
    ∃ stem e, name = stem ++ '.' :: e ∧ '.' ∉ e := by
  obtain ⟨e, stem, hname, he⟩ := List.eq_append_cons_of_mem (List.mem_reverse.2 h)
  refine ⟨stem.reverse, e.reverse, ?_, mt List.mem_reverse.1 he⟩
  rw [List.reverse_eq_iff.1 hname, List.reverse_append, List.reverse_cons, List.append_assoc]
  rfl

theorem hasExtension_join (folder ext : Text) {name : Text} (h : IsName name) :
    hasExtension (join folder name) ext = true ↔ EndsIn name ext := by
  have hname := fileName?_join folder h
  unfold hasExtension
  constructor
  · intro hext
    by_cases hdot : '.' ∈ name
    · obtain ⟨stem, e, rfl, he⟩ := exists_last_dot hdot
      rw [extension?_of_last_dot hname he] at hext
      split at hext
      · cases hext
      · next hstem => exact ⟨stem, e, rfl, hstem, he, (Text.sameWord_iff _ _).1 hext⟩
    · rw [extension?_of_no_dot hname hdot] at hext
      cases hext
  · rintro ⟨stem, e, rfl, hstem, he, hsame⟩
    rw [extension?_of_last_dot hname he, if_neg hstem]
    exact (Text.sameWord_iff _ _).2 hsame

/-- Paths are compared component by component, and components byte by byte. -/
def Precedes (p q : Text) : Prop :=
  (components p).map Utf8.encode < (components q).map Utf8.encode

theorem Precedes.ne {p q : Text} (h : Precedes p q) : p ≠ q := by
  rintro rfl
  exact List.lt_irrefl _ h

theorem precedes_of_lt {p q : Text} {before ns ms : List Text} {n m : Text}
    (hp : components p = before ++ n :: ns) (hq : components q = before ++ m :: ms) (h : n < m) :
    Precedes p q := by
  unfold Precedes
  rw [hp, hq, List.map_append, List.map_append, List.map_cons, List.map_cons]
  exact List.append_left_lt (List.cons_lt_cons_iff.2 (.inl (Utf8.encode_lt h)))

/-- A slash is a greater byte than a dot, but what lies in a folder comes before a file with the
name of the folder and an extension. -/
theorem precedes_dot (path : Text) {name inner e : Text} (hname : IsName name)
    (hinner : IsName inner) (hfile : IsName (name ++ '.' :: e)) :
    Precedes (join (join path name) inner) (join path (name ++ '.' :: e)) ∧
      Utf8.encode (join path (name ++ '.' :: e)) < Utf8.encode (join (join path name) inner) := by
  constructor
  · have hlt : name < name ++ '.' :: e := by
      have hnil : name ++ [] < name ++ '.' :: e := List.append_left_lt .nil
      rwa [List.append_nil] at hnil
    have hfolder : components (join (join path name) inner) = components path ++ [name, inner] := by
      rw [components_join _ hinner, components_join _ hname, List.append_assoc]
      rfl
    exact precedes_of_lt hfolder (components_join path hfile) hlt
  · obtain ⟨p, hjoin, -⟩ := exists_join path
    have hdot : '.' :: e < '/' :: inner := .rel (by decide)
    rw [join_join _ _ hname, hjoin, hjoin, ← List.cons_append, ← List.append_assoc]
    exact Utf8.encode_lt (List.append_left_lt hdot)

end FilePath

end ClassicAsp
