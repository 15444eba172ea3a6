import Waymark.ByteStream

/-!
# The bytes of a stream

What the events of a reader come to before the first one that ends a stream: a list of bytes
(`Event.contents`), and the event itself (`Event.ending`). A stream passes over that list byte by
byte, however it is cut into chunks and wherever the reader is interrupted.

* `ByteStream.Stands`: where a stream is in the list. The chunk that is being served and the events
  that have not been asked for come to the bytes that are left.
* `serve_stands`, `Stands.bump`: asking the reader comes to such a place, and a step to the next.
* `ByteStream.After`, `After.stands`: so does every stream that can be reached.
-/

namespace Waymark

/-! ## What the events come to -/

namespace Event

/-- The event ends a stream. An interruption does not, nor does a chunk with bytes in it. -/
def ends : Event → Bool
  | chunk bytes => bytes.isEmpty
  | failure e => e.kind != .interrupted

/-- The bytes of the event. -/
def bytes : Event → List UInt8
  | chunk bytes => bytes
  | failure _ => []

/-- The bytes before the first event that ends the stream. -/
def contents (es : List Event) : List UInt8 := (es.takeWhile fun e => !e.ends).flatMap bytes

/-- The first event that ends the stream, unless the events come to their own end before. -/
def ending (es : List Event) : Option Event := es.find? ends

/-- The failure that the stream keeps of what has ended it, after so many bytes. -/
def kept (position : Nat) : Option Event → Option StreamError
  | some (failure e) => some ⟨position, e⟩
  | _ => none

variable {e : Event} {es : List Event}

theorem contents_of_ends (h : e.ends = true) : contents (e :: es) = [] := by
  simp [contents, h]

theorem contents_of_not_ends (h : e.ends = false) :
    contents (e :: es) = e.bytes ++ contents es := by
  simp [contents, h]

theorem ending_of_ends (h : e.ends = true) : ending (e :: es) = some e := by
  simp [ending, h]

theorem ending_of_not_ends (h : e.ends = false) : ending (e :: es) = ending es := by
  simp [ending, h]

end Event

open Event

namespace ByteStream

/-! ## Where a stream is -/

/-- The stream has passed `k` of the bytes, before they end in `e`. While bytes are left, those of
the chunk and of the events that have not been asked for are the ones from `k` on. -/
inductive Stands (bytes : List UInt8) (e : Option Event) : Nat → ByteStream → Prop where
  | within {k : Nat} {b : UInt8} {rest : List UInt8} {pending : List Event}
      (hb : bytes.drop k = b :: rest ++ contents pending) (he : ending pending = e) :
      Stands bytes e k ⟨b :: rest, pending, k, none⟩
  | ended (pending : List Event) (failure : Option StreamError) :
      Stands bytes e bytes.length ⟨[], pending, bytes.length, failure⟩

/-- The failure of a stream that has just come to position `k`. -/
def arriving (bytes : List UInt8) (e : Option Event) (k : Nat) : Option StreamError :=
  if k = bytes.length then kept k e else none

variable {bytes : List UInt8} {e : Option Event} {es : List Event} {k : Nat} {s t : ByteStream}

theorem Stands.le (h : Stands bytes e k s) : k ≤ bytes.length := by
  cases h with
  | within hb he =>
    have := congrArg List.length hb
    simp only [List.length_drop, List.length_append, List.length_cons] at this
    omega
  | ended => exact Nat.le_refl _

theorem Stands.position (h : Stands bytes e k s) : s.position = k := by
  cases h <;> rfl

theorem Stands.peek (h : Stands bytes e k s) : s.peek = bytes[k]? := by
  cases h with
  | within hb he => rw [← List.head?_drop, hb]; rfl
  | ended => rw [List.getElem?_eq_none (Nat.le_refl _)]; rfl

theorem Stands.read (h : Stands bytes e k s) :
    s.read = bytes[k]?.elim (.error (.readPastStream k)) .ok := by
  rw [ByteStream.read, h.peek]
  cases bytes[k]? with
  | some b => rfl
  | none => exact congrArg (fun p => Except.error (Fault.readPastStream p)) h.position

theorem Stands.exhausted (h : Stands bytes e k s) : s.exhausted = decide (k = bytes.length) := by
  have hp := h.peek
  rw [Bool.eq_iff_iff, decide_eq_true_iff, ByteStream.exhausted, List.isEmpty_iff]
  rw [ByteStream.peek] at hp
  constructor
  · intro hs
    rw [hs] at hp
    have := List.getElem?_eq_none_iff.1 hp.symm
    have := h.le
    omega
  · intro hk
    rw [hk, List.getElem?_eq_none (Nat.le_refl _)] at hp
    exact List.head?_eq_none_iff.1 hp

/-! ## Steps -/

/-- Asked for more, the reader comes to the bytes that are left or to their end. -/
theorem serve_stands (hk : k ≤ bytes.length) (hb : bytes.drop k = contents es)
    (he : ending es = e) :
    Stands bytes e k (serve k es) ∧ (serve k es).failure = arriving bytes e k := by
  have hend (h : bytes.drop k = []) : k = bytes.length := by
    have := List.drop_eq_nil_iff.1 h
    omega
  induction es with
  | nil =>
    obtain rfl := hend hb
    subst he
    exact ⟨.ended [] none, (if_pos rfl).symm⟩
  | cons event es ih =>
    rcases event with ⟨_ | ⟨b, rest⟩⟩ | ⟨err⟩
    · obtain rfl := hend (hb.trans (contents_of_ends rfl))
      rw [ending_of_ends rfl] at he
      subst he
      exact ⟨.ended es none, (if_pos rfl).symm⟩
    · rw [contents_of_not_ends rfl] at hb
      rw [ending_of_not_ends rfl] at he
      have h : Stands bytes e k ⟨b :: rest, es, k, none⟩ := .within hb he
      refine ⟨h, (if_neg fun hk => ?_).symm⟩
      rw [hk, List.drop_length] at hb
      cases hb
    · by_cases hi : err.kind = .interrupted
      · have hn : (Event.failure err).ends = false := by simp [ends, hi]
        rw [contents_of_not_ends hn] at hb
        rw [ending_of_not_ends hn] at he
        rw [serve, if_pos hi]
        exact ih hb he
      · have hn : (Event.failure err).ends = true := by simp [ends, hi]
        obtain rfl := hend (hb.trans (contents_of_ends hn))
        rw [ending_of_ends hn] at he
        subst he
        rw [serve, if_neg hi]
        exact ⟨.ended es _, (if_pos rfl).symm⟩

/-- A stream starts before the first byte. -/
theorem ofEvents_stands (es : List Event) :
    Stands (contents es) (ending es) 0 (ofEvents es) ∧
      (ofEvents es).failure = arriving (contents es) (ending es) 0 :=
  serve_stands (Nat.zero_le _) rfl rfl

/-- While bytes are left a step passes one of them. -/
theorem Stands.bump (h : Stands bytes e k s) (hk : k < bytes.length) :
    ∃ t, s.bump = .ok t ∧ Stands bytes e (k + 1) t ∧ t.failure = arriving bytes e (k + 1) := by
  cases h with
  | @within k b rest pending hb he =>
    have hd : bytes.drop (k + 1) = rest ++ contents pending := by
      rw [← List.tail_drop, hb]
      rfl
    cases rest with
    | nil =>
      -- the chunk is used up, and what comes next is the reader's affair
      obtain ⟨ht, hf⟩ := serve_stands hk hd he
      exact ⟨_, rfl, ht, hf⟩
    | cons c rest =>
      refine ⟨_, rfl, .within hd he, (if_neg fun hl => ?_).symm⟩
      rw [hl, List.drop_length] at hd
      cases hd
  | ended => exact absurd hk (Nat.lt_irrefl _)

/-- At the end no step is possible. -/
theorem Stands.bump_ended (h : Stands bytes e bytes.length s) : s.bump = .error .stepPastStream := by
  have hx := h.exhausted
  rw [decide_eq_true rfl, ByteStream.exhausted, List.isEmpty_iff] at hx
  rw [ByteStream.bump, hx]

/-- A step that is made passes one of the bytes. -/
theorem Stands.of_bump (h : Stands bytes e k s) (hb : s.bump = .ok t) :
    k < bytes.length ∧ Stands bytes e (k + 1) t ∧ t.failure = arriving bytes e (k + 1) := by
  rcases Nat.lt_or_eq_of_le h.le with hk | rfl
  · obtain ⟨u, hu, ht⟩ := h.bump hk
    obtain rfl : u = t := Except.ok.inj (hu.symm.trans hb)
    exact ⟨hk, ht⟩
  · rw [h.bump_ended] at hb
    cases hb

theorem Stands.takeError (h : Stands bytes e k s) : Stands bytes e k s.takeError.2 := by
  cases h with
  | within hb he => exact .within hb he
  | ended pending failure => exact .ended pending none

/-! ## Streams that can be reached -/

/-- The stream is reached in `k` steps from the first byte of the events. Its failure may have been
taken on the way. -/
inductive After (es : List Event) : Nat → ByteStream → Prop where
  | start : After es 0 (ofEvents es)
  | step {k : Nat} {s t : ByteStream} (h : After es k s) (hs : s.bump = .ok t) :
      After es (k + 1) t
  | taken {k : Nat} {s : ByteStream} (h : After es k s) : After es k s.takeError.2

theorem After.stands (h : After es k s) : Stands (contents es) (ending es) k s := by
  induction h with
  | start => exact (ofEvents_stands es).1
  | step _ hs ih => exact (ih.of_bump hs).2.1
  | taken _ ih => exact ih.takeError

end ByteStream

end Waymark
