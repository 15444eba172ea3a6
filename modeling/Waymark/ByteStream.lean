import Waymark.Fault

/-!
# Byte streams

A reader is a list of events: chunks of bytes and failures to read. A stream shows one byte of it
at a time. It holds the rest of the chunk that is being served, so that the byte in view is the
first of those; a stream that holds none has ended. An interruption is passed over, an empty chunk
ends the stream, any other failure ends it too and is kept. `ByteStream.bump_unread` says that a
step takes one byte off those that are still to come.
-/

namespace Waymark

/-- The kinds of failure that a reader reports. -/
inductive ErrorKind where
  | interrupted
  | unexpectedEof
  | notFound
  | brokenPipe
  | wouldBlock
  | timedOut
  | invalidData
  | other
  deriving DecidableEq, Repr

def ErrorKind.name : ErrorKind → String
  | .interrupted => "Interrupted"
  | .unexpectedEof => "UnexpectedEof"
  | .notFound => "NotFound"
  | .brokenPipe => "BrokenPipe"
  | .wouldBlock => "WouldBlock"
  | .timedOut => "TimedOut"
  | .invalidData => "InvalidData"
  | .other => "Other"

/-- The kind with the name, and `other` for a name that is none. -/
def ErrorKind.ofName (name : String) : ErrorKind :=
  [.interrupted, .unexpectedEof, .notFound, .brokenPipe, .wouldBlock, .timedOut, .invalidData].find?
    (fun k => k.name == name) |>.getD .other

/-- A failure to read. -/
structure ReadError where
  kind : ErrorKind
  text : String
  deriving DecidableEq, Repr

/-- A failure to read, with the number of bytes that had been passed before it. -/
structure StreamError where
  position : Nat
  source : ReadError
  deriving DecidableEq, Repr

def StreamError.display (e : StreamError) : String :=
  s!"byte stream failed after {e.position} bytes: " ++ e.source.text

/-- What the reader does when it is asked for bytes. -/
inductive Event where
  | chunk (bytes : List UInt8)
  | failure (error : ReadError)
  deriving DecidableEq, Repr

/-- The number of bytes in the event. -/
def Event.size : Event → Nat
  | .chunk bytes => bytes.length
  | .failure _ => 0

/-- The number of bytes in the events. -/
def Event.sizes (events : List Event) : Nat := events.foldr (fun e n => e.size + n) 0

/-- A stream over a reader. -/
structure ByteStream where
  /-- The rest of the chunk that is being served. -/
  buffered : List UInt8
  /-- What the reader has not been asked for. -/
  pending : List Event
  /-- The number of bytes passed. -/
  position : Nat
  /-- The failure that ended the stream, until it is taken. -/
  failure : Option StreamError
  deriving DecidableEq, Repr

namespace ByteStream

/-- Asks the reader until it serves a chunk, ends or fails at `position` for good. -/
def serve (position : Nat) : List Event → ByteStream
  | [] => ⟨[], [], position, none⟩
  | .chunk bytes :: rest => ⟨bytes, rest, position, none⟩
  | .failure e :: rest =>
    if e.kind = .interrupted then serve position rest else ⟨[], rest, position, some ⟨position, e⟩⟩

/-- The stream at the first byte of the events. -/
def ofEvents (events : List Event) : ByteStream := serve 0 events

/-- The byte in view. -/
def peek (s : ByteStream) : Option UInt8 := s.buffered.head?

/-- The stream has ended. -/
def exhausted (s : ByteStream) : Bool := s.buffered.isEmpty

/-- Passes one byte. The reader is asked for more only when the chunk is used up. -/
def bump (s : ByteStream) : Except Fault ByteStream :=
  match s.buffered with
  | [] => .error .stepPastStream
  | [_] => .ok (serve (s.position + 1) s.pending)
  | _ :: rest => .ok { s with buffered := rest, position := s.position + 1 }

/-- The byte in view, which a stream that has ended lacks. -/
def read (s : ByteStream) : Except Fault UInt8 :=
  match s.peek with
  | some b => .ok b
  | none => .error (.readPastStream s.position)

/-- Takes the failure out of the stream. -/
def takeError (s : ByteStream) : Option StreamError × ByteStream :=
  (s.failure, { s with failure := none })

/-- The bytes of the reader that have not been passed, beyond a failure or an end as well. -/
def unread (s : ByteStream) : Nat := s.buffered.length + Event.sizes s.pending

/-- Gives the reader back, told by the number of its bytes, or the failure that is kept. -/
def finish (s : ByteStream) : Except StreamError Nat :=
  match s.failure with
  | some e => .error e
  | none => .ok s.unread

theorem serve_unread (p : Nat) (es : List Event) :
    (serve p es).unread = Event.sizes es := by
  induction es with
  | nil => rfl
  | cons e es ih =>
    cases e with
    | chunk bytes => simp [serve, unread, Event.sizes, Event.size]
    | failure e =>
      unfold serve
      split
      · simpa [Event.sizes, Event.size] using ih
      · simp [unread, Event.sizes, Event.size]

/-- A step takes one byte off those that are to come. -/
theorem bump_unread {s t : ByteStream} (h : s.bump = .ok t) : s.unread = t.unread + 1 := by
  unfold bump at h
  split at h
  · cases h
  · next heq =>
    cases h
    rw [serve_unread]
    simp [unread, heq, Nat.add_comm]
  · next heq =>
    cases h
    simp [unread, heq]
    omega

end ByteStream

end Waymark
