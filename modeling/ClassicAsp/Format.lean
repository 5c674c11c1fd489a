import ClassicAsp.Layout
import ClassicAsp.TokenStream

/-!
Formatting a page: its tokens are drawn one at a time and each is written out at once. Only an
`End` that begins a line has to wait, to see whether the word of a block follows.
-/
namespace ClassicAsp

/-- A page in the course of being formatted. -/
structure Formatter where
  stream : TokenStream
  /-- The token that was drawn to see what follows an `End`, and did not close a block. -/
  ahead : Option Token := none
  layout : Layout := {}
  deriving DecidableEq

namespace Formatter

def ofText (o : Options) (s : Text) : Formatter := { stream := .ofText o.initialMode s }

/-- The next token to be written. -/
def pull (f : Formatter) : Except PageError (Token × Formatter) :=
  match f.ahead with
  | some t => .ok (t, { f with ahead := none })
  | none =>
    match f.stream.next with
    | (.error e, _) => .error e
    | (.ok t, rest) => .ok (t.token, { f with stream := rest })

/-- Writes a token that was pulled. An `End` at the beginning of a line pulls one more, which is
written together with it if it is a statement word. -/
def step (o : Options) (f : Formatter) (t : Token) : Except PageError (Written × Formatter) :=
  let single : Written × Layout := (f.layout.write o t, f.layout.after o t)
  if f.layout.atLineStart && t == .statement .end_ then
    match f.pull with
    | .error e => .error e
    | .ok (.statement w, f) =>
      .ok (f.layout.writeCloser o w, { f with layout := f.layout.afterCloser w })
    | .ok (t, f) => .ok (single.1, { f with ahead := some t, layout := single.2 })
  else .ok (single.1, { f with layout := single.2 })

/-- A token ahead counts, except the end of input, which is not followed by another. -/
def size (f : Formatter) : Nat :=
  f.stream.size + match f.ahead with
    | none | some .endOfInput => 0
    | some _ => 1

theorem pull_ahead {f g : Formatter} {t : Token} (h : f.pull = .ok (t, g)) : g.ahead = none := by
  unfold pull at h
  split at h
  · cases h; rfl
  · next e =>
    split at h
    · cases h
    · cases h; exact e

theorem size_pull {f g : Formatter} {t : Token} (h : f.pull = .ok (t, g)) :
    g.size + (if t = .endOfInput then 0 else 1) ≤ f.size := by
  unfold pull at h
  split at h
  · next u e =>
    cases h
    cases t <;> simp [size, e]
  · next e =>
    have hn := f.stream.size_next
    split at h
    · cases h
    · next u rest en =>
      cases h
      simp only [en, TokenStream.reportsEnd, beq_iff_eq] at hn
      simpa [size, e] using hn

theorem size_step {o : Options} {f g : Formatter} {t : Token} {w : Written}
    (h : f.step o t = .ok (w, g)) (hf : f.ahead = none) : g.size ≤ f.size := by
  unfold step at h
  dsimp only at h
  split at h
  · split at h
    · cases h
    · next u f' hp =>
      cases h
      have hs := size_pull hp
      simp only [reduceCtorEq, if_false] at hs
      simp only [size] at hs ⊢
      omega
    · next u f' _ hp =>
      cases h
      have hs := size_pull hp
      have ha := pull_ahead hp
      simp only [size, ha] at hs ⊢
      cases u <;> simp_all
  · cases h
    simp [size]

/-- Writes the tokens up to the end of input behind those written so far, which are in reverse. -/
def run (o : Options) (written : List Written) (f : Formatter) :
    Except PageError (List Written × Layout) :=
  match h : f.pull with
  | .error e => .error e
  | .ok (t, g) =>
    if ht : t = .endOfInput then .ok (written.reverse, g.layout)
    else
      match hs : g.step o t with
      | .error e => .error e
      | .ok (w, rest) =>
        have : rest.size < f.size := by
          have := size_pull h
          have := size_step hs (pull_ahead h)
          simp only [ht, if_false] at *
          omega
        run o (w :: written) rest
termination_by f.size

end Formatter

/-- What surrounds the tokens: a rewritten page is one stretch of code, on lines of its own. -/
def enclose (o : Options) (written : List Written) (last : Layout) : Text :=
  let body := written.flatMap Written.text
  if o.rewrites then
    ['<', '%', '\n'] ++ body ++ (if last.atLineStart then [] else ['\n']) ++ ['%', '>', '\n']
  else body

/-- The page laid out anew. -/
def format (o : Options) (s : Text) : Except PageError Text :=
  ((Formatter.ofText o s).run o []).map fun (written, last) => enclose o written last

end ClassicAsp
