import WitnessReplay.Source.Lexicon

/-!
# Token forests

Reading a text into tokens. A forest takes as many tokens as there are; it ends where no token
starts, which is at a closing delimiter, at the end of the text, or at something that is no
token at all.
-/

namespace WitnessReplay.Source

open Text

namespace Lexicon

mutual

/-- The token at the start of `s`, which stands at `p`, and its length. A group is a token only
if its closing delimiter follows the forest inside. -/
def token (L : Lexicon) (p : Place) (s : List Char) : Option (Token × Nat) :=
  match s with
  | [] => none
  | c :: r =>
    match Delimiter.ofOpening? c with
    | none => L.leaf p (c :: r)
    | some d =>
      let (children, n) := L.forest (p.after [c]) r
      let n := n + L.blanks (r.drop n)
      if (r.drop n).head? = some d.closing then
        some (.group d children (Span.of p (c :: r.take (n + 1))) p.line, n + 2)
      else none
termination_by 2 * s.length

/-- The tokens at the start of `s`, which stands at `p`, with blanks before each of them; and
the length up to the end of the last one. -/
def forest (L : Lexicon) (p : Place) (s : List Char) : List Token × Nat :=
  match s with
  | [] => ([], 0)
  | c :: r =>
    let k := L.blanks (c :: r)
    match L.token (p.after ((c :: r).take k)) ((c :: r).drop k) with
    | none => ([], 0)
    | some (t, n) =>
      let (ts, m) := L.forest (p.after ((c :: r).take (k + n))) (r.drop (k + n - 1))
      (t :: ts, k + n + m)
termination_by 2 * s.length + 1
decreasing_by all_goals (simp only [List.length_drop, List.length_cons]; omega)

end

end Lexicon

end WitnessReplay.Source
