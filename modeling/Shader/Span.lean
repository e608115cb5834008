/-! Byte ranges of a source text, and the line and column at which an offset lies. -/

namespace Shader

/-- The bytes from `start` up to, but without, `stop`. -/
structure Span where
  start : Nat
  stop : Nat
deriving DecidableEq, Repr, Inhabited

namespace Span

def merge (a b : Span) : Span :=
  ⟨min a.start b.start, max a.stop b.stop⟩

def length (s : Span) : Nat :=
  s.stop - s.start

def isEmpty (s : Span) : Bool :=
  s.length == 0

def text (s : Span) : String :=
  s!"Span \x7b start: {s.start}, end: {s.stop} \x7d"

end Span

/-- Line and column of the byte `offset` from a place that is itself at `line` and `column`.
A character is `width` columns wide; a newline starts the next line at column 1. -/
def locateFrom (width : Char → Nat) : List Char → (offset line column : Nat) → Nat × Nat
  | [], _, line, column => (line, column)
  | c :: cs, offset, line, column =>
    if offset = 0 then (line, column)
    else if c = '\n' then locateFrom width cs (offset - 1) (line + 1) 1
    else locateFrom width cs (offset - c.utf8Size) line (column + width c)

/-- Line and column of the start of a span, both from 1, with columns counted in bytes. A start
past the end of the source counts as its end. -/
def Span.lineColumn (s : Span) (source : String) : Nat × Nat :=
  locateFrom Char.utf8Size source.toList s.start 1 1

/-- Line and column of the start of a span, both from 1, with columns counted in characters. -/
def Span.lineCharacter (s : Span) (source : String) : Nat × Nat :=
  locateFrom (fun _ => 1) source.toList s.start 1 1

end Shader
