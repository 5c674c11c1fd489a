import ClassicAsp.Text
import Mathlib.Data.List.Chain
import Mathlib.Data.List.Infix

/-! Texts that two characters in a row do not occur in, trimming, and the lines of a text. -/
namespace ClassicAsp.Text

theorem forall_char_lt {P : Char → Prop} {b : ℕ} (h : ∀ n < b, P (Char.ofNat n)) (c : Char)
    (hc : c.toNat < b) : P c := by
  have hn := h c.toNat hc
  rwa [Char.ofNat_toNat] at hn

theorem isUpper_iff {c : Char} : c.isUpper = true ↔ 65 ≤ c.toNat ∧ c.toNat ≤ 90 :=
  decide_eq_true_iff

theorem isLower_iff {c : Char} : c.isLower = true ↔ 97 ≤ c.toNat ∧ c.toNat ≤ 122 := by
  have h : c.isLower = (decide (97 ≤ c.toNat) && decide (c.toNat ≤ 122)) := rfl
  rw [h, Bool.and_eq_true, decide_eq_true_iff, decide_eq_true_iff]

theorem isAlpha_iff {c : Char} : c.isAlpha = true ↔ c.isUpper = true ∨ c.isLower = true :=
  Bool.or_eq_true_iff

/-- Nothing but a small letter has another character that is lowered to it. -/
theorem eq_of_toLower {c d : Char} (hd : d.isLower = false) (h : c.toLower = d) : c = d := by
  unfold Char.toLower at h
  split at h
  · next hu =>
    subst h
    rw [Bool.eq_false_iff, ne_eq, isLower_iff] at hd
    simp [UInt32.le_iff_toNat_le] at hd hu
    omega
  · exact h

theorem isAlpha_of_toLower {c : Char} (h : c.toLower.isLower = true) : c.isAlpha = true := by
  unfold Char.toLower at h
  split at h
  · next hu => exact isAlpha_iff.2 (.inl (decide_eq_true hu))
  · exact isAlpha_iff.2 (.inr h)

/-- A character that matches none of the word bounds what the word can reach. -/
theorem expect_append {word : Text} {b : Char} (hb : word.all (fun a => a.toLower != b.toLower))
    (s t : Text) : expect word (s ++ b :: t) = (expect word s).map (· ++ b :: t) := by
  induction word generalizing s with
  | nil => simp [expect]
  | cons a word ih =>
    rw [List.all_cons, Bool.and_eq_true] at hb
    cases s with
    | nil => simp [expect, by simpa using hb.1]
    | cons c s =>
      simp only [List.cons_append, expect]
      split
      · exact ih hb.2 s
      · rfl

theorem expect_split {word s rest : Text} (h : expect word s = some rest) :
    ∃ w, s = w ++ rest ∧ lower w = lower word := by
  induction word generalizing s with
  | nil =>
    cases h
    exact ⟨[], rfl, rfl⟩
  | cons a word ih =>
    cases s with
    | nil => cases h
    | cons c s =>
      simp only [expect] at h
      split at h
      · next he =>
        obtain ⟨w, rfl, hw⟩ := ih h
        exact ⟨c :: w, rfl, by simpa [lower, he] using hw⟩
      · cases h

theorem eq_of_expect {word s rest : Text} (hw : word.all fun a => a.toLower == a && !a.isLower)
    (h : expect word s = some rest) : s = word ++ rest := by
  induction word generalizing s with
  | nil => simpa [expect] using h
  | cons a word ih =>
    simp only [List.all_cons, Bool.and_eq_true, beq_iff_eq, Bool.not_eq_true'] at hw
    obtain ⟨⟨ha, hlow⟩, hw⟩ := hw
    cases s with
    | nil => simp [expect] at h
    | cons b s =>
      simp only [expect] at h
      split at h
      · next hab =>
        have hb : b = a := eq_of_toLower hlow (hab.symm.trans ha)
        rw [hb, ih hw h, List.cons_append]
      · cases h

theorem expect_sameWord {word w : Text} (h : sameWord word w = true) (s : Text) :
    expect word (w ++ s) = some s := by
  induction word generalizing w with
  | nil =>
    cases w with
    | nil => rfl
    | cons => simp [sameWord] at h
  | cons a word ih =>
    cases w with
    | nil => simp [sameWord] at h
    | cons b w =>
      simp only [sameWord, Bool.and_eq_true, beq_iff_eq] at h
      simp only [List.cons_append, expect, h.1, if_true]
      exact ih h.2

@[simp] theorem newlines_nil : newlines [] = 0 := rfl

@[simp] theorem newlines_cons (c : Char) (s : Text) :
    newlines (c :: s) = newlines s + if c == '\n' then 1 else 0 :=
  List.count_cons

@[simp] theorem newlines_eq_zero {s : Text} : newlines s = 0 ↔ '\n' ∉ s := List.count_eq_zero

theorem newline_not_mem_sameWord {w s : Text} (h : sameWord w s = true) (hw : '\n' ∉ lower w) :
    '\n' ∉ s := by
  intro hm
  apply hw
  rw [(sameWord_iff w s).1 h]
  exact List.mem_map_of_mem hm

theorem newline_not_mem_quote {s : Text} (h : '\n' ∉ s) : '\n' ∉ quote s := by
  intro hm
  rcases List.mem_cons.1 hm with hm | hm
  · cases hm
  rcases List.mem_append.1 hm with hm | hm
  · obtain ⟨c, hc, hm⟩ := List.mem_flatMap.1 hm
    split at hm
    · simp at hm
    · rw [List.mem_singleton.1 hm] at h
      exact h hc
  · cases List.mem_singleton.1 hm

theorem takeWhile_append {p : Char → Bool} {s rest : Text} (hs : ∀ c ∈ s, p c = true)
    (hr : ∀ c ∈ rest.head?, p c = false) : (s ++ rest).takeWhile p = s := by
  rw [List.takeWhile_append_of_pos hs]
  cases rest with
  | nil => simp
  | cons c rest => simp [hr c rfl]

theorem not_mem_takeWhile {p : Char → Bool} {c : Char} (hc : p c = false) {s : Text} :
    c ∉ s.takeWhile p := by
  intro hm
  have hp := List.all_eq_true.1 List.all_takeWhile c hm
  rw [hc] at hp
  cases hp

theorem dropWhile_append {p : Char → Bool} {s rest : Text} (hs : ∀ c ∈ s, p c = true)
    (hr : ∀ c ∈ rest.head?, p c = false) : (s ++ rest).dropWhile p = rest := by
  rw [List.dropWhile_append_of_pos hs]
  cases rest with
  | nil => rfl
  | cons c rest => simp [hr c rfl]

/-- The characters do not stand side by side, which is how delimiters are told apart. -/
def Lacks (a b : Char) (s : Text) : Prop := ¬ [a, b] <:+: s

instance (a b : Char) (s : Text) : Decidable (Lacks a b s) :=
  inferInstanceAs (Decidable (¬ _))

theorem lacks_iff_isChain {a b : Char} {s : Text} :
    Lacks a b s ↔ s.IsChain fun x y => x = a → y ≠ b := by
  rw [List.isChain_iff_forall_rel_of_append_cons_cons]
  constructor
  · intro h x y l₁ l₂ he hx hy
    exact h ⟨l₁, l₂, by simp [he, hx, hy]⟩
  · rintro h ⟨l₁, l₂, he⟩
    exact h (by simpa using he.symm) rfl rfl

@[simp] theorem lacks_nil {a b : Char} : Lacks a b [] := lacks_iff_isChain.2 .nil

@[simp] theorem lacks_singleton {a b c : Char} : Lacks a b [c] := lacks_iff_isChain.2 (.singleton c)

@[simp] theorem lacks_cons {a b c : Char} {s : Text} :
    Lacks a b (c :: s) ↔ (c = a → s.head? ≠ some b) ∧ Lacks a b s := by
  rw [lacks_iff_isChain, lacks_iff_isChain, List.isChain_cons]
  apply and_congr_left'
  constructor
  · intro h hc hs
    exact h b hs hc rfl
  · rintro h y hy hc rfl
    exact h hc hy

@[simp] theorem lacks_append {a b : Char} {s t : Text} :
    Lacks a b (s ++ t) ↔
      Lacks a b s ∧ Lacks a b t ∧ (s.getLast? = some a → t.head? ≠ some b) := by
  simp only [lacks_iff_isChain, List.isChain_append]
  apply and_congr_right'
  apply and_congr_right'
  constructor
  · intro h hs ht
    exact h a hs b ht rfl rfl
  · rintro h x hx y hy rfl rfl
    exact h hx hy

theorem Lacks.of_infix {a b : Char} {s t : Text} (h : Lacks a b t) (hs : s <:+: t) : Lacks a b s :=
  fun hi => h (hi.trans hs)

theorem Lacks.tail {a b c : Char} {s : Text} (h : Lacks a b (c :: s)) : Lacks a b s :=
  (lacks_cons.1 h).2

theorem lacks_of_not_mem {a b : Char} {s : Text} (h : a ∉ s ∨ b ∉ s) : Lacks a b s := by
  rintro ⟨l₁, l₂, rfl⟩
  rcases h with h | h <;> simp at h

@[simp] theorem trimStart_cons {c : Char} {s : Text} (h : isSpace c = true) :
    trimStart (c :: s) = trimStart s := by
  simp [trimStart, h]

theorem trimStart_of_head {s : Text} (h : ∀ c ∈ s.head?, isSpace c = false) :
    trimStart s = s := by
  cases s with
  | nil => rfl
  | cons c s => simp [trimStart, h c rfl]

theorem head_trimStart (s : Text) : ∀ c ∈ (trimStart s).head?, isSpace c = false := by
  intro c hc
  have h := List.head?_dropWhile_not isSpace s
  rw [trimStart] at hc
  rw [Option.mem_def.1 hc] at h
  exact h

@[simp]
theorem trim_cons {c : Char} {s : Text} (h : isSpace c = true) : trim (c :: s) = trim s := by
  simp [trim, h]

theorem trim_of_ends {s : Text} (hh : ∀ c ∈ s.head?, isSpace c = false)
    (hl : ∀ c ∈ s.getLast?, isSpace c = false) : trim s = s := by
  rw [trim, trimStart_of_head hh, trimStart_of_head (by rw [List.head?_reverse]; exact hl),
      List.reverse_reverse]

theorem getLast_trim (s : Text) : ∀ c ∈ (trim s).getLast?, isSpace c = false := by
  rw [trim, List.getLast?_reverse]
  exact head_trimStart _

theorem trim_initial (s : Text) : trim s <+: trimStart s := by
  have h := @List.dropWhile_suffix _ (trimStart s).reverse isSpace
  rw [← List.reverse_prefix, List.reverse_reverse] at h
  exact h

theorem trim_infix (s : Text) : trim s <:+: s :=
  (trim_initial s).isInfix.trans (List.dropWhile_suffix isSpace).isInfix

theorem head_trim (s : Text) : ∀ c ∈ (trim s).head?, isSpace c = false := by
  intro c hc
  obtain ⟨t, ht⟩ := trim_initial s
  apply head_trimStart s c
  rw [← ht]
  cases h : trim s with
  | nil => simp [h] at hc
  | cons a u => simpa [h] using hc

@[simp] theorem trim_trim (s : Text) : trim (trim s) = trim s :=
  trim_of_ends (head_trim s) (getLast_trim s)

theorem trim_append_space {c : Char} {s : Text} (hs : trim s = s) (hc : isSpace c = true) :
    trim (s ++ [c]) = s := by
  cases s with
  | nil => simp [trim, trimStart, hc]
  | cons a s =>
    have ha : isSpace a = false := by
      have h := head_trim (a :: s)
      rw [hs] at h
      exact h a rfl
    have hl := getLast_trim (a :: s)
    rw [hs] at hl
    have hstart : trimStart (a :: s ++ [c]) = a :: s ++ [c] :=
      trimStart_of_head (by simpa using ha)
    rw [trim, hstart, List.reverse_append, List.reverse_singleton, List.singleton_append,
      trimStart_cons hc, trimStart_of_head (by rw [List.head?_reverse]; exact hl),
      List.reverse_reverse]

theorem piecesFrom_ne_nil (separator : Char) (piece s : Text) :
    piecesFrom separator piece s ≠ [] := by
  induction s generalizing piece with
  | nil => simp [piecesFrom]
  | cons c s ih =>
    rw [piecesFrom]
    split
    · simp
    · exact ih _

theorem mem_of_mem_piecesFrom {separator : Char} {piece s p : Text}
    (h : p ∈ piecesFrom separator piece s) : ∀ c ∈ p, c ∈ piece ∨ (c ∈ s ∧ c ≠ separator) := by
  induction s generalizing piece with
  | nil =>
    intro c hc
    rw [List.mem_singleton.1 h] at hc
    exact .inl (List.mem_reverse.1 hc)
  | cons a s ih =>
    intro c hc
    rw [piecesFrom] at h
    split at h
    · rcases List.mem_cons.1 h with rfl | h
      · exact .inl (List.mem_reverse.1 hc)
      · rcases ih h c hc with hm | ⟨hm, hne⟩
        · cases hm
        · exact .inr ⟨List.mem_cons_of_mem _ hm, hne⟩
    · next ha =>
      rcases ih h c hc with hm | ⟨hm, hne⟩
      · rcases List.mem_cons.1 hm with rfl | hm
        · exact .inr ⟨List.mem_cons_self, ha⟩
        · exact .inl hm
      · exact .inr ⟨List.mem_cons_of_mem _ hm, hne⟩

theorem lacks_piecesFrom {a b separator : Char} (ha : separator ≠ a) (hb : separator ≠ b)
    (piece s : Text) :
    (∀ p ∈ piecesFrom separator piece s, Lacks a b p) ↔ Lacks a b (piece.reverse ++ s) := by
  induction s generalizing piece with
  | nil => simp [piecesFrom]
  | cons c s ih =>
    rw [piecesFrom]
    split
    · next hc =>
      rw [List.forall_mem_cons, ih, hc]
      simp [ha, hb]
    · rw [ih]
      simp

end ClassicAsp.Text
