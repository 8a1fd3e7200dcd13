/-!
# `Mapsto.Sink` — where output goes

A program that runs writes texts and flushes, and sees of either only whether it worked. So output can go
to anything of which it is known what the two do to it (`Writable`).

A sink keeps the bytes that were written to it. It may have room for so many bytes only: a text that
does not fit is cut where the room ends, and the write fails. Flushing may fail too.
-/

namespace Mapsto

/-- Why output failed. -/
inductive SinkError where
  | full
  | flushFailed
  /-- Any other failure, in its own words. -/
  | other (words : String)
deriving DecidableEq

/-- The wording of an output error. -/
def SinkError.message : SinkError → String
  | full => "sink full"
  | flushFailed => "flush failed"
  | other words => words

/-- What can be written to. Both operations may fail, and what is left is used again in either case. -/
class Writable (σ : Type) where
  /-- Writes a text. Where that fails, a part of the text may have been written. -/
  write : σ → String → Except SinkError Unit × σ
  /-- Hands on what was written. -/
  flush : σ → Except SinkError Unit × σ

/-- A place in memory that keeps what is written to it. -/
structure Sink where
  /-- The bytes written so far. -/
  written : ByteArray
  /-- How many bytes there is room for in all, if that is limited. -/
  capacity : Option Nat
  flushFails : Bool

namespace Sink

/-- A sink that takes everything. -/
def unlimited : Sink := ⟨ByteArray.empty, none, false⟩

/-- The part of some bytes that a sink has room for. -/
def fitting (s : Sink) (bytes : ByteArray) : ByteArray :=
  match s.capacity with
  | none => bytes
  | some n => bytes.extract 0 (n - s.written.size)

/-- Whether a sink has room for some bytes. -/
def hasRoom (s : Sink) (bytes : ByteArray) : Bool :=
  match s.capacity with
  | none => true
  | some n => decide (bytes.size ≤ n - s.written.size)

/-- Writes a text, or as much of it as there is room for. -/
def write (s : Sink) (text : String) : Except SinkError Unit × Sink :=
  let bytes := text.toUTF8
  (if s.hasRoom bytes then .ok () else .error .full,
    { s with written := s.written ++ s.fitting bytes })

/-- Hands on what was written. -/
def flush (s : Sink) : Except SinkError Unit :=
  if s.flushFails then .error .flushFailed else .ok ()

instance : Writable Sink where
  write := write
  flush s := (s.flush, s)

@[simp] theorem writable_write (s : Sink) (text : String) : Writable.write s text = s.write text := rfl

@[simp] theorem writable_flush (s : Sink) : Writable.flush s = (s.flush, s) := rfl

end Sink

end Mapsto
