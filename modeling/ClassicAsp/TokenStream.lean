import ClassicAsp.Lexeme.Source
import ClassicAsp.Token

/-!
The tokens of a page, drawn one at a time and with their line numbers. Main statement: drawing
until the end of input comes to an end, whether or not errors are passed over.
-/
namespace ClassicAsp

/-- The queue holds the pieces of the last markup that have not been drawn yet. Lines count from
one, and a newline is counted when its token is drawn. -/
structure TokenStream where
  source : Source
  queue : List Spelled := []
  line : Nat := 1
  deriving DecidableEq

namespace TokenStream

def ofText (mode : Mode) (s : Text) : TokenStream := { source := .ofText mode s }

/-- Draws the first of some pieces of markup and queues the others. -/
def drawFrom (s : TokenStream) (pieces : List Spelled) (h : pieces ≠ []) :
    Except PageError Spelled × TokenStream :=
  let t := pieces.head h
  (.ok t, { s with queue := pieces.tail, line := s.line + Text.newlines t.written })

/-- Draws the token of a lexeme other than markup. -/
def convert (s : TokenStream) (l : Lexeme) : Except PageError Spelled × TokenStream :=
  match l.token s.source.atLineEnd with
  | .error fault => (.error ⟨fault, s.line⟩, s)
  | .ok t => (.ok ⟨t, l.text⟩, { s with line := s.line + if l = .lineEnd .newline then 1 else 0 })

def next (s : TokenStream) : Except PageError Spelled × TokenStream :=
  if h : s.queue ≠ [] then s.drawFrom s.queue h
  else
    let drawn : TokenStream := { s with source := s.source.next.2 }
    match s.source.next.1 with
    | .error e => (.error ⟨.scan e, s.line⟩, drawn)
    | .ok (.markup text) =>
      drawn.drawFrom ((Segment.split text).map Segment.spelled)
        (by simpa using Segment.split_ne_nil text)
    | .ok l => drawn.convert l

def reportsEnd : Except PageError Spelled → Bool
  | .ok t => t.token == .endOfInput
  | .error _ => false

/-- The size of the source, and the pieces still to be drawn. -/
def size (s : TokenStream) : Nat := s.source.size + s.queue.length

theorem size_drawFrom (s : TokenStream) (pieces : List Spelled) (h : pieces ≠ []) :
    (s.drawFrom pieces h).2.size + 1 = s.source.size + pieces.length := by
  have := List.length_pos_iff.2 h
  simp only [drawFrom, size, List.length_tail]
  omega

theorem size_convert (s : TokenStream) (l : Lexeme) : (s.convert l).2.size = s.size := by
  unfold convert
  split <;> rfl

/-- Only the report of the end can leave the size of a stream. -/
theorem size_next (s : TokenStream) :
    s.next.2.size + (if reportsEnd s.next.1 then 0 else 1) ≤ s.size := by
  have hn := s.source.size_next
  unfold next
  split
  · next h =>
    have := size_drawFrom s s.queue h
    simp only [size] at this ⊢
    split <;> omega
  · next hq =>
    have hq : s.queue = [] := by simpa using hq
    have hs : s.size = s.source.size := by simp [size, hq]
    cases hr : s.source.next.1 with
    | error e =>
      simp only [hr, Source.weight] at hn
      simpa [size, hq, reportsEnd] using hn
    | ok l =>
      cases l with
      | markup text =>
        simp only [hr, Source.weight] at hn
        have hp := size_drawFrom { s with source := s.source.next.2 }
          ((Segment.split text).map Segment.spelled) (by simpa using Segment.split_ne_nil text)
        have hl := Segment.length_split text
        simp only [List.length_map] at hp
        dsimp only
        split <;> omega
      | endOfInput =>
        simp only [hr, Source.weight] at hn
        simpa [convert, Lexeme.token, reportsEnd, size, hq] using hn
      | _ =>
        simp only [hr, Source.weight] at hn
        have hc := size_convert { s with source := s.source.next.2 }
        simp only [size, hq, List.length_nil] at hc
        simp only [size, hq, List.length_nil, hc]
        split <;> omega

theorem size_of_next {s rest : TokenStream} {r : Except PageError Spelled}
    (h : s.next = (r, rest)) (hr : reportsEnd r = false) : rest.size < s.size := by
  have := size_next s
  simp only [h, hr, Bool.false_eq_true, if_false] at this
  exact this

/-- All draws up to the end of input, going on after errors, each with the line reached. -/
def draws (s : TokenStream) : List (Except PageError Spelled × Nat) :=
  match h : s.next with
  | (r, rest) =>
    if hr : reportsEnd r then [(r, rest.line)]
    else
      have := size_of_next h (by simpa using hr)
      (r, rest.line) :: draws rest
termination_by s.size

/-- Folds over the tokens before the end of input, each with the line reached; an error ends the
fold early. -/
def fold {α : Type} (f : α → Spelled → Nat → α) (init : α) (s : TokenStream) :
    α × Option PageError :=
  match h : s.next with
  | (.error e, _) => (init, some e)
  | (.ok t, rest) =>
    if ht : t.token = .endOfInput then (init, none)
    else
      have := size_of_next h (by simpa [reportsEnd] using ht)
      fold f (f init t rest.line) rest
termination_by s.size

end TokenStream

/-- The tokens of a page, the end of input last. -/
def tokenize (mode : Mode) (s : Text) : Except PageError (List Spelled) :=
  match (TokenStream.ofText mode s).fold (fun ts t _ => t :: ts) [] with
  | (ts, none) => .ok (ts.reverse ++ [⟨.endOfInput, []⟩])
  | (_, some e) => .error e

end ClassicAsp
