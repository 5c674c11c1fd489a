import ClassicAsp.CommandLine
import ClassicAsp.Proofs.Delivery
import ClassicAsp.Proofs.LineNumber

/-! Commands on many files. Each file adds its part to the two streams alone, so that a list of
paths can be divided anywhere, and a file that cannot be read or is no page costs one line of the
error stream and nothing else. -/
namespace ClassicAsp

open Text (newlines newlines_eq_zero)

section Faults

theorem Lexeme.newline_not_mem_readString {s : Text} {e : ScanError}
    (h : (readString s).1 = .error e) : '\n' ∉ e.message := by
  have hquote : Source.Refuses e '"' := Source.readString_error h
  cases e with
  | unterminatedString | delimiterInString => decide +kernel
  | unterminatedDate | delimiterInDate | invalidDateChar => cases hquote

theorem Lexeme.newline_not_mem_readDate {s : Text} {e : ScanError}
    (h : (readDate s).1 = .error e) : '\n' ∉ e.message := by
  fun_induction readDate s with
  | case1 | case3 | case4 =>
    cases h
    decide +kernel
  | case2 => cases h
  | case5 c s _ _ _ _ r rest hr ih =>
    cases r with
    | error f =>
      cases h
      exact ih (by rw [hr])
    | ok => cases h
  | case6 c s _ _ hbreak _ =>
    cases h
    have hc : c ≠ '\n' := fun hc => hbreak (.inr hc)
    have hwords : '\n' ∉ "invalid date character: '".toList := by decide +kernel
    exact List.not_mem_append hwords (by simp [hc.symm])

theorem Fault.newline_not_mem_number {w : Text} (hw : '\n' ∉ w) :
    '\n' ∉ (invalidInteger w).message ∧ '\n' ∉ (invalidFloat w).message := by
  have hinteger : '\n' ∉ "invalid integer literal '".toList := by decide +kernel
  have hfloat : '\n' ∉ "invalid float literal '".toList := by decide +kernel
  have hquote : '\n' ∉ ['\''] := by decide
  exact ⟨List.not_mem_append (List.not_mem_append hinteger hw) hquote,
    List.not_mem_append (List.not_mem_append hfloat hw) hquote⟩

theorem TokenStream.Failed.newline_not_mem {s u : TokenStream} {e : PageError}
    (h : Failed s e u) : '\n' ∉ e.fault.message := by
  cases h with
  | scan hn line =>
    obtain ⟨g, c, t, -, -, hl⟩ := Source.lexeme_of_error hn
    rcases Source.lexeme_error hl with ⟨-, hr⟩ | ⟨-, hr⟩
    · exact Lexeme.newline_not_mem_readString hr
    · exact Lexeme.newline_not_mem_readDate hr
  | @number source rest l f hn hm ht line =>
    obtain ⟨w, hw⟩ := Source.takes_of_next hn
    have he : l ≠ .endOfInput := by
      rintro rfl
      cases ht
    obtain ⟨hread, -⟩ := hw.of_script hm he
    obtain ⟨n, ⟨rfl, rfl⟩ | ⟨rfl, rfl⟩⟩ := Lexeme.token_error ht
    · exact (Fault.newline_not_mem_number hread.2).1
    · exact (Fault.newline_not_mem_number hread.2).2

theorem Delivers.newline_not_mem {s : TokenStream} {ts : List (Spelled × ℕ)} {e : PageError}
    (h : Delivers s ts (some e)) : '\n' ∉ e.fault.message := by
  generalize hr : some e = r at h
  induction h with
  | ended => cases hr
  | @failed s f hn =>
    cases hr
    exact (TokenStream.failed_of_next (u := s.next.2) (by rw [← hn])).newline_not_mem
  | draw _ _ _ ih => exact ih hr

end Faults

namespace Output

@[simp]
theorem concat_cons (x : Output) (xs : List Output) : concat (x :: xs) = x ++ concat xs := by
  simp only [concat, List.flatMap_cons, List.any_cons]
  rfl

end Output

/-- A file that cannot be read, or is no page. -/
def FoundFile.Fails (mode : Mode) (file : FoundFile) : Prop :=
  match file.bytes with
  | .error _ => True
  | .ok bytes => ∃ e, tokenize mode (Utf8.decode bytes) = .error e

end ClassicAsp
