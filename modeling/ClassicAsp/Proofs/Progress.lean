import ClassicAsp.Proofs.Delivery
import ClassicAsp.Proofs.Drawing

/-! Progress. Every call takes characters off the unread text, but for the one that finds an empty
page, so calls come to the end of input, past errors as well, and stay there. Markup is cut into no
more tokens than it has characters, so the draws of tokens end just as soon. -/
namespace ClassicAsp

namespace Source

variable {s u : Source} {r : Except ScanError Lexeme} {mode : Mode} {text : Text}

theorem nextMarkup_suffix (s : Text) : (nextMarkup s).2.rest <:+ s := by
  unfold nextMarkup
  split
  · next t rest h =>
    have hs : s = t ++ '<' :: '%' :: rest := Lexeme.readMarkup_split h
    exact ⟨t ++ ['<', '%'], by simp [ofText, hs]⟩
  · exact List.nil_suffix

theorem nextMarkup_ended {s : Text} (h : (nextMarkup s).2.mode = .markup) :
    (nextMarkup s).2.ended = true := by
  unfold nextMarkup at h ⊢
  split
  · next hr =>
    rw [hr] at h
    cases h
  · rfl

theorem rest_nextMarkup_of_ended {s : Text} (h : (nextMarkup s).2.ended = true) :
    (nextMarkup s).2.rest = [] := by
  unfold nextMarkup at h ⊢
  split
  · next hr =>
    rw [hr] at h
    cases h
  · rfl

theorem weight_nextMarkup {s : Text} (hs : s ≠ []) :
    (nextMarkup s).2.rest.length + weight (nextMarkup s).1 ≤ s.length := by
  have hpos : 0 < s.length := List.length_pos_iff.2 hs
  unfold nextMarkup
  split
  · next t rest h =>
    have hlen := Lexeme.readMarkup_length h
    simp only [ofText, weight, List.length_nil] at hlen ⊢
    omega
  · next t h =>
    have hlen := Lexeme.readMarkup_length_of_none h
    simp only [weight, List.length_nil] at hlen ⊢
    omega

/-- No call goes back, and none goes past the end. -/
theorem Call.suffix (h : Call s r u) : u.rest <:+ s.rest := by
  cases h with
  | past => exact List.suffix_refl _
  | @page t _ _ hm =>
    have hrest := nextMarkup_suffix t
    rw [hm] at hrest
    exact hrest
  | blanks => exact List.nil_suffix
  | @closed g t _ _ _ hm =>
    have hrest := nextMarkup_suffix t
    rw [hm] at hrest
    exact hrest.trans ⟨g ++ ['%', '>'], by simp [ofText]⟩
  | @script g c t _ _ _ _ hl =>
    have hrest := lexeme_suffix c t
    rw [hl] at hrest
    exact hrest.trans ⟨g ++ [c], by simp [ofText]⟩

/-- A call takes its weight from what is unread, unless there is nothing to read in markup. -/
theorem Call.advances (h : Call s r u) :
    u.rest.length + weight r ≤ s.rest.length ∨ s = ofText .markup [] ∧ r = .ok (.markup []) := by
  cases h with
  | past => exact Or.inl (Nat.le_refl _)
  | @page t x rest hm =>
    by_cases ht : t = []
    · subst ht
      cases hm
      exact Or.inr ⟨rfl, rfl⟩
    · have hlen := weight_nextMarkup ht
      rw [hm] at hlen
      exact Or.inl hlen
  | blanks => exact Or.inl (Nat.zero_le _)
  | @closed g t _ _ _ hm =>
    have hlen := size_nextMarkup t
    rw [hm] at hlen
    have hsize : u.rest.length ≤ u.size := Nat.le_add_right _ _
    left
    simp only [ofText, List.length_append, List.length_cons]
    dsimp only at hlen
    omega
  | @script g c t _ _ _ _ hl =>
    have hlen := (lexeme_suffix c t).length_le
    have hweight := weight_lexeme c t
    rw [hl] at hlen hweight
    left
    simp only [ofText, List.length_append, List.length_cons]
    dsimp only at hlen hweight
    omega

theorem Call.ended_of_markup (h : Call s r u) (hu : u.mode = .markup) : u.ended = true := by
  cases h with
  | past hs => exact hs
  | @page t _ _ hm =>
    have hended := @nextMarkup_ended t
    rw [hm] at hended
    exact hended hu
  | blanks => rfl
  | @closed _ t _ _ _ hm =>
    have hended := @nextMarkup_ended t
    rw [hm] at hended
    exact hended hu
  | script => cases hu

theorem Call.rest_of_ended (h : Call s r u) (hs : s.ended = true → s.rest = [])
    (hu : u.ended = true) : u.rest = [] := by
  cases h with
  | past => exact hs hu
  | @page t _ _ hm | @closed _ t _ _ _ hm =>
    have hrest := @rest_nextMarkup_of_ended t
    rw [hm] at hrest
    exact hrest hu
  | blanks => rfl
  | script => cases hu

theorem Call.of_end (h : Call s (.ok .endOfInput) u) : u.ended = true ∧ u.mode = s.mode := by
  cases h with
  | past hs => exact ⟨hs, rfl⟩
  | blanks => exact ⟨rfl, rfl⟩
  | script _ hc hl => exact (isRead_lexeme hc hl).elim

@[simp] theorem reportsEnd_iff : reportsEnd r = true ↔ r = .ok .endOfInput := by
  constructor
  · intro h
    unfold reportsEnd at h
    split at h
    · rfl
    · cases h
  · rintro rfl
    rfl

def after (s : Source) (k : ℕ) : Source := (fun s => s.next.2)^[k] s

theorem after_succ (s : Source) (k : ℕ) : s.after (k + 1) = (s.after k).next.2 :=
  Function.iterate_succ_apply' _ k s

theorem call_after (s : Source) (k : ℕ) :
    Call (s.after k) (s.after k).next.1 (s.after (k + 1)) := by
  rw [after_succ]
  exact call_of_next rfl

def position (text : Text) (s : Source) : ℕ := text.length - s.rest.length

theorem after_suffix (s : Source) (k : ℕ) : (s.after k).rest <:+ s.rest := by
  induction k with
  | zero => exact List.suffix_refl _
  | succ k ih => exact (call_after s k).suffix.trans ih

theorem rest_after (mode : Mode) (text : Text) (k : ℕ) :
    ((ofText mode text).after k).rest = text.drop (((ofText mode text).after k).position text) :=
  List.suffix_iff_eq_drop.1 (after_suffix (ofText mode text) k)

theorem after_eq_empty {k : ℕ} (h : (ofText mode text).after k = ofText .markup []) :
    k = 0 ∧ mode = .markup ∧ text = [] := by
  cases k with
  | zero =>
    cases h
    exact ⟨rfl, rfl, rfl⟩
  | succ k =>
    have hcall := call_after (ofText mode text) k
    rw [h] at hcall
    cases hcall.ended_of_markup rfl

theorem position_succ (mode : Mode) (text : Text) (k : ℕ) :
    ((ofText mode text).after k).position text + weight ((ofText mode text).after k).next.1 ≤
        ((ofText mode text).after (k + 1)).position text ∨
      text = [] ∧ mode = .markup ∧ k = 0 ∧
        ((ofText mode text).after k).next.1 = .ok (.markup []) := by
  rcases (call_after (ofText mode text) k).advances with h | ⟨hs, hr⟩
  · have hlen : ((ofText mode text).after k).rest.length ≤ text.length :=
      (after_suffix (ofText mode text) k).length_le
    left
    unfold position
    omega
  · obtain ⟨rfl, rfl, rfl⟩ := after_eq_empty hs
    exact Or.inr ⟨rfl, rfl, rfl, hr⟩

theorem position_mono (mode : Mode) (text : Text) (k : ℕ) :
    ((ofText mode text).after k).position text ≤
      ((ofText mode text).after (k + 1)).position text := by
  have hlen := (call_after (ofText mode text) k).suffix.length_le
  unfold position
  omega

/-- Each call before the end has read a character, except that of an empty page. -/
theorem le_position {k : ℕ}
    (h : ∀ j < k, reportsEnd ((ofText mode text).after j).next.1 = false) :
    k ≤ ((ofText mode text).after k).position text ∨ text = [] ∧ k = 1 := by
  induction k with
  | zero => exact Or.inl (Nat.zero_le _)
  | succ k ih =>
    have hpos := weight_pos (h k (Nat.lt_succ_self k))
    rcases position_succ mode text k with hstep | ⟨rfl, -, rfl, -⟩
    · rcases ih fun j hj => h j (Nat.lt_succ_of_lt hj) with hle | ⟨rfl, rfl⟩
      · left
        omega
      · -- the empty page has no second character
        have hend : ((ofText mode []).after (1 + 1)).position [] = 0 := Nat.zero_sub _
        omega
    · exact Or.inr ⟨rfl, rfl⟩

theorem calls_le {k : ℕ} (h : ∀ j < k, reportsEnd ((ofText mode text).after j).next.1 = false) :
    k ≤ max text.length 1 := by
  rcases le_position h with hle | ⟨-, rfl⟩
  · have hbound : ((ofText mode text).after k).position text ≤ text.length := Nat.sub_le _ _
    omega
  · exact Nat.le_max_right _ _

theorem after_of_ended (h : s.ended = true) (k : ℕ) : s.after k = s := by
  have hnext : s.next.2 = s := by rw [next, if_pos h]
  exact Function.iterate_fixed hnext k

theorem rest_of_ended {k : ℕ} (h : ((ofText mode text).after k).ended = true) :
    ((ofText mode text).after k).rest = [] := by
  induction k with
  | zero => cases h
  | succ k ih => exact (call_after (ofText mode text) k).rest_of_ended ih h

theorem fixed_of_ended {k j : ℕ} (h : ((ofText mode text).after k).ended = true) (hj : k ≤ j) :
    (ofText mode text).after j = (ofText mode text).after k := by
  obtain ⟨i, rfl⟩ := Nat.exists_eq_add_of_le hj
  have hsplit : (ofText mode text).after (k + i) = ((ofText mode text).after k).after i := by
    rw [Nat.add_comm]
    exact Function.iterate_add_apply _ i k _
  rw [hsplit]
  exact after_of_ended h i

end Source

namespace TokenStream

def left (s : TokenStream) : ℕ := s.source.rest.length + s.queue.length

variable {s u : TokenStream} {t : Spelled}

/-- A draw leaves less to draw from, but on an empty page, which it leaves empty. -/
theorem Drawn.left_lt (h : Drawn s t u) (ht : t.token ≠ .endOfInput) :
    u.left < s.left ∨ s.source = .ofText .markup [] ∧ u.left = 0 := by
  cases h with
  | queued source t q line =>
    left
    simp only [left, List.length_cons]
    omega
  | @markup source rest text t q hn hq line =>
    have hpieces := Segment.length_split text
    rw [← List.length_map (f := Segment.spelled), hq, List.length_cons] at hpieces
    have hcall := Source.call_of_next hn
    rcases hcall.advances with hlen | ⟨rfl, hr⟩
    · left
      simp only [Source.weight] at hlen
      simp only [left, List.length_nil]
      omega
    · cases hr
      have hrest := hcall.suffix.length_le
      simp only [Source.ofText, List.length_nil] at hrest hpieces
      refine Or.inr ⟨rfl, ?_⟩
      simp only [left]
      omega
  | @script source rest l t hn hm hl line =>
    have hcall := Source.call_of_next hn
    rcases hcall.advances with hlen | ⟨-, hr⟩
    · have hend : Source.reportsEnd (.ok l) = false := by
        rw [Bool.eq_false_iff]
        intro he
        obtain rfl := Except.ok.inj (Source.reportsEnd_iff.1 he)
        cases hl
        exact ht rfl
      have hpos := Source.weight_pos hend
      left
      simp only [left, List.length_nil]
      omega
    · cases hr
      cases hm

theorem Drawn.ended_of_markup (h : Drawn s t u)
    (hs : s.queue ≠ [] → s.source.mode = .markup → s.source.ended = true)
    (hu : u.source.mode = .markup) : u.source.ended = true := by
  cases h with
  | queued => exact hs (by simp) hu
  | markup hn | script hn => exact (Source.call_of_next hn).ended_of_markup hu

end TokenStream

theorem Delivers.length_le {s : TokenStream} {ts : List (Spelled × ℕ)} {r : Option PageError}
    (h : Delivers s ts r) (hs : s.source.mode = .markup → s.source.ended = true) :
    ts.length ≤ s.left := by
  induction h with
  | ended | failed => exact Nat.zero_le _
  | @draw s u t ts r hn ht _ ih =>
    have hdrawn := TokenStream.drawn_of_next hn
    have hrest := ih (hdrawn.ended_of_markup fun _ => hs)
    rcases hdrawn.left_lt ht with hlt | ⟨hempty, -⟩
    · rw [List.length_cons]
      omega
    · rw [hempty] at hs
      cases hs rfl

/-- A page delivers at most one token for each character, and one if it has none. -/
theorem Delivers.length_le_text {mode : Mode} {text : Text} {ts : List (Spelled × ℕ)}
    {r : Option PageError} (h : Delivers (.ofText mode text) ts r) :
    ts.length ≤ max text.length 1 := by
  cases h with
  | ended | failed => exact Nat.zero_le _
  | @draw _ u t ts _ hn ht hr =>
    have hdrawn := TokenStream.drawn_of_next hn
    have hstart : (TokenStream.ofText mode text).left = text.length := Nat.add_zero _
    have hlater : ts.length ≤ u.left :=
      hr.length_le (hdrawn.ended_of_markup fun hqueue => absurd rfl hqueue)
    rw [List.length_cons]
    rcases hdrawn.left_lt ht with hlt | ⟨-, hzero⟩
    · omega
    · omega

namespace Source

/-- A call stands at a position of the page and goes on, unless it reports the end or has read an
empty page in markup. -/
structure GoesOn (mode : Mode) (text : Text) (k : ℕ) : Prop where
  position_le : ((ofText mode text).after k).position text ≤ text.length
  rest : ((ofText mode text).after k).rest =
    text.drop (((ofText mode text).after k).position text)
  position_mono : ((ofText mode text).after k).position text ≤
    ((ofText mode text).after (k + 1)).position text
  progress : reportsEnd ((ofText mode text).after k).next.1 = false →
    ((ofText mode text).after k).position text <
        ((ofText mode text).after (k + 1)).position text ∨
      text = [] ∧ mode = .markup ∧ k = 0 ∧
        ((ofText mode text).after k).next.1 = .ok (.markup [])

/-- A call is the first that reports the end. So does every call behind it, and nothing changes. -/
structure EndsAt (mode : Mode) (text : Text) (k : ℕ) : Prop where
  calls_le : k ≤ max text.length 1
  first : ∀ j < k, reportsEnd ((ofText mode text).after j).next.1 = false
  rest : ((ofText mode text).after (k + 1)).rest = []
  sticky : ∀ j ≥ k, ((ofText mode text).after j).next.1 = .ok .endOfInput
  mode_eq : ∀ j ≥ k, ((ofText mode text).after (j + 1)).mode = ((ofText mode text).after j).mode
  fixed : ∀ j > k, (ofText mode text).after (j + 1) = (ofText mode text).after j

structure Consumed (mode : Mode) (text : Text) (ts : List (Spelled × ℕ)) (r : Option PageError) :
    Prop where
  delivers : Delivers (.ofText mode text) ts r
  length_le : ts.length ≤ max text.length 1
  tokenized : tokenize mode text =
    r.elim (.ok (ts.map Prod.fst ++ [⟨.endOfInput, []⟩])) .error
  linted : lint mode text = ⟨Watch.findings none ts, r⟩
  formatted : ∀ o : Options, o.initialMode = mode → format o text =
    r.elim (.ok (opening o ++ ({} : Layout).lay o (ts.map fun p => p.1.token))) .error

structure ReadingEnds (mode : Mode) (text : Text) : Prop where
  calls : ∀ k, GoesOn mode text k
  ends : ∃ k, EndsAt mode text k
  consumed : ∃ ts r, Consumed mode text ts r

theorem goesOn_after (mode : Mode) (text : Text) (k : ℕ) : GoesOn mode text k where
  position_le := Nat.sub_le _ _
  rest := rest_after mode text k
  position_mono := Source.position_mono mode text k
  progress := by
    intro hk
    have hpos := weight_pos hk
    rcases position_succ mode text k with hstep | hempty
    · left
      exact Nat.lt_of_lt_of_le (Nat.lt_add_of_pos_right hpos) hstep
    · exact Or.inr hempty

/-- The first call that reports the end leaves a source that has met it. -/
theorem endsAt_of_first {mode : Mode} {text : Text} {k : ℕ}
    (hfirst : ∀ j < k, reportsEnd ((ofText mode text).after j).next.1 = false)
    (h : ((ofText mode text).after k).next.1 = .ok .endOfInput) : EndsAt mode text k := by
  have hcall := call_after (ofText mode text) k
  rw [h] at hcall
  obtain ⟨hended, hmode⟩ := hcall.of_end
  have hfixed (j : ℕ) (hj : j > k) : (ofText mode text).after (j + 1) = (ofText mode text).after j :=
    (fixed_of_ended hended (Nat.le_succ_of_le hj)).trans (fixed_of_ended hended hj).symm
  refine ⟨calls_le hfirst, hfirst, rest_of_ended hended, ?_, ?_, hfixed⟩
  · intro j hj
    rcases Nat.eq_or_lt_of_le hj with rfl | hlt
    · exact h
    · rw [fixed_of_ended hended hlt, next, if_pos hended]
  · intro j hj
    rcases Nat.eq_or_lt_of_le hj with rfl | hlt
    · exact hmode
    · rw [hfixed j hlt]

theorem exists_endsAt (mode : Mode) (text : Text) : ∃ k, EndsAt mode text k := by
  have hex : ∃ k, reportsEnd ((ofText mode text).after k).next.1 = true := by
    by_contra hnone
    have hall (k : ℕ) : reportsEnd ((ofText mode text).after k).next.1 = false :=
      Bool.eq_false_iff.2 fun h => hnone ⟨k, h⟩
    have hbound := @calls_le mode text (max text.length 1 + 1) fun j _ => hall j
    omega
  classical
  obtain ⟨k, hk, hmin⟩ : ∃ k, reportsEnd ((ofText mode text).after k).next.1 = true ∧
      ∀ j < k, reportsEnd ((ofText mode text).after j).next.1 = false :=
    ⟨Nat.find hex, Nat.find_spec hex, fun j hj => Bool.eq_false_iff.2 (Nat.find_min hex hj)⟩
  exact ⟨k, endsAt_of_first hmin (reportsEnd_iff.1 hk)⟩

theorem consumed_of_delivers {mode : Mode} {text : Text} {ts : List (Spelled × ℕ)}
    {r : Option PageError} (h : Delivers (.ofText mode text) ts r) : Consumed mode text ts r where
  delivers := h
  length_le := h.length_le_text
  tokenized := by
    cases r with
    | none => exact h.tokenize_ok
    | some e => exact h.tokenize_error
  linted := h.lint_eq
  formatted := by
    rintro o rfl
    cases r with
    | none => exact h.format_ok
    | some e => exact h.format_error

/-- Reading a page makes progress at every call, past errors as well, and ends after no more calls
or tokens than the page has characters, or one. -/
theorem reading_ends (mode : Mode) (text : Text) : ReadingEnds mode text where
  calls := goesOn_after mode text
  ends := exists_endsAt mode text
  consumed := by
    obtain ⟨ts, r, h⟩ := exists_delivers (.ofText mode text)
    exact ⟨ts, r, consumed_of_delivers h⟩

/-- Calls go on behind a string that is not closed on its line. -/
theorem reading_ends_past_error :
    let text := "\"\nx".toList
    let s := (ofText .code text).after
    (s 0).next.1 = .error .unterminatedString ∧ (s 0).position text < (s 1).position text ∧
      ∃ k ≤ 3, ∀ j ≥ k, (s j).next.1 = .ok .endOfInput := by
  intro text s
  have herror : (s 0).next.1 = .error .unterminatedString := by rfl
  have hreading := reading_ends .code text
  obtain ⟨k, hk⟩ := hreading.ends
  refine ⟨herror, ?_, k, hk.calls_le, hk.sticky⟩
  rcases (hreading.calls 0).progress (by rfl) with hlt | ⟨hnil, -⟩
  · exact hlt
  · exact absurd hnil (by decide)

end Source

end ClassicAsp
