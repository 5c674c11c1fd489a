import ClassicAsp.TokenStream
import Mathlib.Data.List.Basic
import Mathlib.Data.Nat.Init

/-! What a stream delivers: its tokens up to the end or up to the first error. Every stream delivers
one sequence and one outcome, and a fold over the stream is a fold over what it delivers. -/
namespace ClassicAsp

namespace TokenStream

theorem fold_error {α : Type} (f : α → Spelled → ℕ → α) (init : α) {s : TokenStream}
    {e : PageError} (h : s.next.1 = .error e) : fold f init s = (init, some e) := by
  rw [fold]
  split
  · next e' _ hn =>
    rw [hn] at h
    cases h
    rfl
  · next hn =>
    rw [hn] at h
    cases h

theorem fold_end {α : Type} (f : α → Spelled → ℕ → α) (init : α) {s : TokenStream} {t : Spelled}
    (h : s.next.1 = .ok t) (ht : t.token = .endOfInput) : fold f init s = (init, none) := by
  rw [fold]
  split
  · next hn =>
    rw [hn] at h
    cases h
  · next hn =>
    rw [hn] at h
    cases h
    rw [dif_pos ht]

theorem fold_draw {α : Type} (f : α → Spelled → ℕ → α) (init : α) {s rest : TokenStream}
    {t : Spelled} (h : s.next = (.ok t, rest)) (ht : t.token ≠ .endOfInput) :
    fold f init s = fold f (f init t rest.line) rest := by
  rw [fold]
  split
  · next hn =>
    rw [hn] at h
    cases h
  · next hn =>
    rw [hn] at h
    cases h
    rw [dif_neg ht]

end TokenStream

/-- The tokens before the end of input or before the first error, each with the line reached, and
the error. -/
inductive Delivers : TokenStream → List (Spelled × Nat) → Option PageError → Prop where
  | ended {s t} (h : s.next.1 = .ok t) (ht : t.token = .endOfInput) : Delivers s [] none
  | failed {s e} (h : s.next.1 = .error e) : Delivers s [] (some e)
  | draw {s u t ts r} (h : s.next = (.ok t, u)) (ht : t.token ≠ .endOfInput)
      (hr : Delivers u ts r) : Delivers s ((t, u.line) :: ts) r

theorem exists_delivers (s : TokenStream) : ∃ ts r, Delivers s ts r := by
  -- on what is left to read, of which every draw before the end takes something
  induction hn : s.size using Nat.strong_induction_on generalizing s with
  | _ n ih =>
    obtain ⟨r, u, hs⟩ : ∃ r u, s.next = (r, u) := ⟨_, _, rfl⟩
    cases r with
    | error e => exact ⟨[], some e, .failed (congrArg Prod.fst hs)⟩
    | ok t =>
      by_cases ht : t.token = .endOfInput
      · exact ⟨[], none, .ended (congrArg Prod.fst hs) ht⟩
      · have hlt : u.size < s.size :=
          TokenStream.size_of_next hs (by simpa [TokenStream.reportsEnd] using ht)
        obtain ⟨ts, r, hr⟩ := ih _ (hn ▸ hlt) u rfl
        exact ⟨(t, u.line) :: ts, r, .draw hs ht hr⟩

namespace Delivers

variable {s : TokenStream} {ts us : List (Spelled × Nat)} {r q : Option PageError}

/-- A fold over a stream is a fold over what the stream delivers. -/
theorem fold_eq {α : Type} (h : Delivers s ts r) (f : α → Spelled → ℕ → α) (init : α) :
    s.fold f init = (ts.foldl (fun a p => f a p.1 p.2) init, r) := by
  induction h generalizing init with
  | ended h ht => exact TokenStream.fold_end f init h ht
  | failed h => exact TokenStream.fold_error f init h
  | draw h ht _ ih =>
    rw [TokenStream.fold_draw f init h ht, ih]
    rfl

theorem unique (h : Delivers s ts r) (h' : Delivers s us q) : ts = us ∧ r = q := by
  have hfold := (h.fold_eq (fun ps t line => (t, line) :: ps) []).symm.trans
    (h'.fold_eq (fun ps t line => (t, line) :: ps) [])
  obtain ⟨hts, hr⟩ := Prod.mk.inj hfold
  rw [List.foldl_flip_cons_eq_append, List.foldl_flip_cons_eq_append] at hts
  refine ⟨?_, hr⟩
  simpa using hts

theorem ne_end (h : Delivers s ts r) : ∀ p ∈ ts, p.1.token ≠ .endOfInput := by
  induction h with
  | ended | failed => exact fun _ hp => nomatch hp
  | draw _ ht _ ih => exact List.forall_mem_cons.2 ⟨ht, ih⟩

variable {mode : Mode} {text : Text}

theorem tokenize_ok (h : Delivers (.ofText mode text) ts none) :
    tokenize mode text = .ok (ts.map Prod.fst ++ [⟨.endOfInput, []⟩]) := by
  rw [tokenize, h.fold_eq]
  dsimp only
  rw [List.foldl_flip_cons_eq_append, List.append_nil, List.reverse_reverse]

theorem tokenize_error {e : PageError} (h : Delivers (.ofText mode text) ts (some e)) :
    tokenize mode text = .error e := by
  rw [tokenize, h.fold_eq]

end Delivers

/-- The tokens of a page that is tokenized are those that it delivers, and the end. -/
theorem delivers_of_tokenize {mode : Mode} {text : Text} {us : List Spelled}
    (h : tokenize mode text = .ok us) :
    ∃ ts, Delivers (.ofText mode text) ts none ∧ us = ts.map Prod.fst ++ [⟨.endOfInput, []⟩] := by
  obtain ⟨ts, r, hd⟩ := exists_delivers (.ofText mode text)
  cases r with
  | none =>
    rw [hd.tokenize_ok] at h
    exact ⟨ts, hd, (Except.ok.inj h).symm⟩
  | some e =>
    rw [hd.tokenize_error] at h
    cases h

end ClassicAsp
