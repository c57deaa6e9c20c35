import StakeQuorum.Codec.Field

/-! # Byte streams

A stream is written at its end and read from its front. It keeps what was read, so that the whole
buffer can still be seen.
-/

namespace StakeQuorum

/-- A buffer with a read position. -/
structure Stream where
  consumed : Bytes := []
  unread : Bytes := []
  deriving DecidableEq, Repr

namespace Stream

def empty : Stream := {}

def ofBytes (bs : Bytes) : Stream := { unread := bs }

/-- Everything that was written and is still held, read or not. -/
def buffer (s : Stream) : Bytes := s.consumed ++ s.unread

def isEmpty (s : Stream) : Bool := s.unread.isEmpty

def write (s : Stream) (bs : Bytes) : Stream := { s with unread := s.unread ++ bs }

def writeField (s : Stream) (f : Field) : Stream := s.write f.encode

/-- Runs a reader on the unread part. What a failing reader has consumed stays consumed. -/
def read {α : Type} (s : Stream) (r : Reader α) : Except ReadError α × Stream :=
  let (result, rest) := r s.unread
  (result,
    { consumed := s.consumed ++ s.unread.take (s.unread.length - rest.length), unread := rest })

def toHex (s : Stream) : Bytes := Hex.encode s.unread

@[simp] theorem unread_read {α : Type} (s : Stream) (r : Reader α) :
    (s.read r).2.unread = (r s.unread).2 := rfl

@[simp] theorem fst_read {α : Type} (s : Stream) (r : Reader α) :
    (s.read r).1 = (r s.unread).1 := rfl

end Stream

end StakeQuorum
