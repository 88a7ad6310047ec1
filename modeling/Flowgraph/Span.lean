/-!
# Spans of source text

A span is a half-open range of byte offsets into a source text, and a site is the place of
one statement: its span together with the number that identifies it.

## Main definitions

* `Span` : a range of byte offsets.
* `Span.hull` : the least span that contains two spans.
* `Site` : a numbered span.
-/

namespace Flowgraph

/-- A half-open range of byte offsets into a source text. -/
structure Span where
  /-- The offset of the first byte. -/
  start : Nat
  /-- The offset just past the last byte. -/
  stop : Nat
deriving DecidableEq, Repr, Inhabited

namespace Span

/-- The least span that contains both spans. -/
def hull (a b : Span) : Span :=
  ⟨min a.start b.start, max a.stop b.stop⟩

@[simp] theorem start_hull (a b : Span) : (a.hull b).start = min a.start b.start := rfl

@[simp] theorem stop_hull (a b : Span) : (a.hull b).stop = max a.stop b.stop := rfl

/-- The two offsets, separated by two dots. -/
def text (s : Span) : String :=
  toString s.start ++ ".." ++ toString s.stop

end Span

/-- The number that identifies a statement.  Nothing forces the statements of a body to have
distinct numbers. -/
abbrev StmtId := Nat

/-- The place of a statement: its number and its span. -/
structure Site where
  /-- The number of the statement. -/
  id : StmtId
  /-- The text the statement occupies. -/
  span : Span
deriving DecidableEq, Repr, Inhabited

end Flowgraph
