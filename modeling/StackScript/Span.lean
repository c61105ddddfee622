/-!
# Places in the source

A `Span` covers a piece of the source: byte offsets `start` and `stop` into its UTF-8 text, and
the 1-based line and column where it begins.  Columns count characters, not bytes.  Spans are
written `line:column`, and two spans merge into one that covers both and begins where the first
one begins.

A `Pos` is the place of the next character while the source is read.
-/

namespace StackScript

/-- A piece of the source: byte offsets and the line and column of its first character. -/
structure Span where
  start : Nat
  stop : Nat
  line : Nat
  column : Nat
deriving Repr, DecidableEq, Inhabited

namespace Span

/-- The span covering both: least start, greatest stop, and the first span's line and column. -/
def merge (a b : Span) : Span :=
  { start := min a.start b.start, stop := max a.stop b.stop, line := a.line, column := a.column }

/-- The place of a span as `line:column`. -/
def render (s : Span) : String := toString s.line ++ ":" ++ toString s.column

end Span

/-- The place of the next character: its byte offset, line and column. -/
structure Pos where
  offset : Nat
  line : Nat
  column : Nat
deriving Repr, DecidableEq, Inhabited

namespace Pos

/-- The beginning of a source. -/
def origin : Pos := ⟨0, 1, 1⟩

/-- The place after one character: the offset grows by its UTF-8 width and the column by one,
and a line feed begins a new line at column one. -/
def step (p : Pos) (c : Char) : Pos :=
  if c = '\n' then ⟨p.offset + c.utf8Size, p.line + 1, 1⟩
  else ⟨p.offset + c.utf8Size, p.line, p.column + 1⟩

/-- The place after some characters. -/
def stepAll (p : Pos) (cs : List Char) : Pos := cs.foldl step p

/-- The span from this place up to the offset of `last`. -/
def spanTo (p last : Pos) : Span := ⟨p.offset, last.offset, p.line, p.column⟩

end Pos

end StackScript
