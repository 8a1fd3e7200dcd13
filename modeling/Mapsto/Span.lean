/-!
# `Mapsto.Span` — places in a text

A place is counted in bytes of the UTF-8 text. A span runs from its first byte up to, and without, the
byte at its end; a span of no width marks the end of the input.
-/

namespace Mapsto

/-- A stretch of text, in bytes: from `start` up to, and without, `stop`. -/
structure Span where
  start : Nat
  stop : Nat
deriving DecidableEq

/-- The span of no width at a place. -/
def Span.point (at_ : Nat) : Span := ⟨at_, at_⟩

/-- The form in which messages give a place: `(at 3:7)`. -/
def Span.text (s : Span) : String :=
  "(at " ++ Nat.repr s.start ++ ":" ++ Nat.repr s.stop ++ ")"

/-- Something read from a text, with the place where it stood. -/
structure Spanned (α : Type) where
  value : α
  span : Span
deriving DecidableEq

end Mapsto
