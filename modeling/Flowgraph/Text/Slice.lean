import Flowgraph.Span

/-!
# Slices of a text

Spans count bytes of the UTF-8 form of a text.  A span has a slice only if both of its ends
lie between two characters of the text.

## Main definitions

* `Text.splitAtByte?` : a text cut at a byte offset.
* `Text.runEnd` : the byte offset at which a run of characters of a kind ends.
* `Text.slice?` : the text of a span.
* `Text.row` : the number of the line that an offset lies on.
-/

namespace Flowgraph.Text

/-- Cuts a text at a byte offset.  There is no cut past the end or inside a character. -/
def splitAtByte? : Nat → List Char → Option (List Char × List Char)
  | 0, cs => some ([], cs)
  | _ + 1, [] => none
  | n + 1, c :: cs =>
    if c.utf8Size ≤ n + 1 then
      (splitAtByte? (n + 1 - c.utf8Size) cs).map fun (before, after) => (c :: before, after)
    else none

/-- The byte offset of the first character that passes the test. -/
def findByte? (p : Char → Bool) : List Char → Option Nat
  | [] => none
  | c :: cs => if p c then some 0 else (findByte? p cs).map (c.utf8Size + ·)

/-- The byte offset at which a text goes on with a character that fails the test; this is the end of
the text if there is no such character. -/
def runEnd (p : Char → Bool) (cs : List Char) : Nat :=
  (findByte? (fun c => !p c) cs).getD (String.ofList cs).utf8ByteSize

/-- The text of a span, if its ends are in order and lie between characters of the text. -/
def slice? (source : String) (span : Span) : Option String :=
  if span.start ≤ span.stop then do
    let (_, rest) ← splitAtByte? span.start source.toList
    let (text, _) ← splitAtByte? (span.stop - span.start) rest
    return String.ofList text
  else none

/-- The number of line ends before a byte offset of a text. -/
def rowOf : Nat → List Char → Nat
  | 0, _ => 0
  | _ + 1, [] => 0
  | n + 1, c :: cs => (if c = '\n' then 1 else 0) + rowOf (n + 1 - c.utf8Size) cs

/-- The number of the line that a byte offset lies on, counted from zero. -/
def row (source : String) (offset : Nat) : Nat :=
  rowOf offset source.toList

end Flowgraph.Text
