import Lindenmayer.Error

/-!
# Sinks

Where a plot is written to. A sink may be full after some number of bytes, and it
may fail when it is flushed at the end.
-/

namespace Lindenmayer

/-- A place to write to. -/
structure Sink where
  /-- The number of bytes that fit. -/
  limit : Option Nat := none
  flushFails : Bool := false
  deriving DecidableEq, Repr

/-- What became of a text that was written. -/
structure Delivery where
  /-- The number of bytes the sink took. -/
  written : Nat
  outcome : Except Error Unit

/-- Writes a text and flushes the sink. A sink that gets full has taken the bytes
    that fit. -/
def Sink.write (s : Sink) (text : String) : Delivery :=
  let size := text.utf8ByteSize
  let taken := (s.limit.map (min size)).getD size
  if taken < size then ⟨taken, .error (.sink .full)⟩
  else if s.flushFails then ⟨size, .error (.sink .flush)⟩
  else ⟨size, .ok ()⟩

end Lindenmayer
