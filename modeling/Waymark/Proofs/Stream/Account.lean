import Waymark.Proofs.Stream.Bytes

/-!
# A stream and its reader apart

A stream over a reader that counts the bytes that are consumed and the times it is asked, with a copy
of the byte in view. Without the counts it is a plain stream: fetching serves it (`Client.fetch_spec`)
and a step is a step of that (`Client.bump_spec`). With the bytes that have been passed and the
failures that have been taken written down beside it (`Log`), any operation keeps the account
(`Log.Sound.perform`), and after the end nothing changes it (`Log.perform_exhausted`). So whatever is
done to a stream, its position is what the reader has lost, and its failure is found once
(`Log.failures_recorded`).
-/

namespace Waymark

open Event

/-! ## A reader and its client -/

/-- A reader that serves events. It keeps count of the bytes that have been consumed and of how often
it has been asked. -/
structure Reader where
  /-- What is left of the chunk that is being served. -/
  buffered : List UInt8
  /-- The events that have not been served. -/
  pending : List Event
  consumed : Nat
  asked : Nat
  deriving DecidableEq, Repr

namespace Reader

/-- Serves what is buffered. Only when that is nothing the next event is taken. -/
def fill (r : Reader) : Except ReadError (List UInt8) × Reader :=
  match r.buffered, r.pending with
  | [], .chunk bytes :: rest =>
    (.ok bytes, { r with buffered := bytes, pending := rest, asked := r.asked + 1 })
  | [], .failure e :: rest => (.error e, { r with pending := rest, asked := r.asked + 1 })
  | bytes, _ => (.ok bytes, { r with asked := r.asked + 1 })

/-- Consumes one of the bytes that are buffered. -/
def consume (r : Reader) : Reader :=
  { r with buffered := r.buffered.tail, consumed := r.consumed + 1 }

/-- The bytes that have not been consumed. -/
def unread (r : Reader) : List UInt8 := r.buffered ++ r.pending.flatMap bytes

theorem fill_error {r t : Reader} {e : ReadError} (h : r.fill = (.error e, t)) :
    r.buffered = [] ∧ r.pending = .failure e :: t.pending ∧
      t = { r with pending := t.pending, asked := r.asked + 1 } := by
  unfold fill at h
  split at h
  · cases h
  · next hb hp =>
    cases h
    exact ⟨hb, hp, rfl⟩
  · cases h

/-- What is served is buffered, and no byte is lost. -/
theorem fill_ok {r t : Reader} {bs : List UInt8} (h : r.fill = (.ok bs, t)) :
    t.buffered = bs ∧ t.consumed = r.consumed ∧ t.unread = r.unread := by
  unfold fill at h
  split at h
  · next hb hp =>
    cases h
    exact ⟨rfl, rfl, by simp [unread, hb, hp, Event.bytes]⟩
  · cases h
  · cases h
    exact ⟨rfl, rfl, rfl⟩

/-- As long as bytes are buffered they are served. -/
theorem fill_buffered {r : Reader} (h : r.buffered ≠ []) :
    r.fill = (.ok r.buffered, { r with asked := r.asked + 1 }) := by
  unfold fill
  split
  · next hb _ => exact absurd hb h
  · next hb _ => exact absurd hb h
  · rfl

/-- When they are used up, a stream comes to what is served then. -/
theorem serve_of_fill_ok {r t : Reader} {bs : List UInt8} (hb : r.buffered = [])
    (h : r.fill = (.ok bs, t)) (p : Nat) :
    ByteStream.serve p r.pending = ⟨t.buffered, t.pending, p, none⟩ := by
  rw [fill, hb] at h
  rcases hp : r.pending with _ | ⟨_ | e, rest⟩ <;> rw [hp] at h <;> cases h
  · rfl
  · rfl

end Reader

/-- A stream apart from its reader, with a copy of the byte in view. -/
structure Client where
  reader : Reader
  current : Option UInt8
  position : Nat
  failure : Option StreamError
  deriving DecidableEq, Repr

namespace Client

/-- Asks the reader until it serves bytes, has no more or fails for good. -/
def fetch (c : Client) : Client :=
  match _h : c.reader.fill with
  | (.ok bytes, r) => { c with reader := r, current := bytes.head? }
  | (.error e, r) =>
    if e.kind = .interrupted then fetch { c with reader := r }
    else { c with reader := r, current := none, failure := some ⟨c.position, e⟩ }
termination_by c.reader.pending.length
decreasing_by
  rw [(Reader.fill_error _h).2.1]
  exact Nat.lt_succ_self _

/-- Before the first byte of the events. -/
def ofEvents (es : List Event) : Client := fetch ⟨⟨[], es, 0, 0⟩, none, 0, none⟩

/-- Consumes the byte in view and asks for the next one. -/
def bump (c : Client) : Except Fault Client :=
  match c.current with
  | some _ =>
    .ok (fetch { c with reader := c.reader.consume, current := none, position := c.position + 1 })
  | none => .error .stepPastStream

def takeError (c : Client) : Option StreamError × Client := (c.failure, { c with failure := none })

/-- Gives the reader back, or the failure that is kept. -/
def finish (c : Client) : Except StreamError Reader :=
  match c.failure with
  | some e => .error e
  | none => .ok c.reader

/-- The stream without the account. -/
def erase (c : Client) : ByteStream := ⟨c.reader.buffered, c.reader.pending, c.position, c.failure⟩

/-- The byte in view is the first one that is buffered. -/
def Looks (c : Client) : Prop := c.current = c.reader.buffered.head?

/-! ## What it has in common with a plain stream -/

/-- Fetching goes to what the reader serves next, and changes neither what has been consumed nor the
bytes that have not. -/
theorem fetch_spec (c : Client) (hf : c.failure = none) :
    c.fetch.Looks ∧ c.fetch.reader.consumed = c.reader.consumed ∧
      c.fetch.reader.unread = c.reader.unread ∧ c.fetch.position = c.position ∧
      c.fetch.erase = if c.reader.buffered = [] then ByteStream.serve c.position c.reader.pending
        else c.erase := by
  fun_induction fetch c with
  | case1 c bytes r h =>
    obtain ⟨hb, hc, hu⟩ := Reader.fill_ok h
    refine ⟨congrArg List.head? hb.symm, hc, hu, rfl, ?_⟩
    split
    · next he => rw [Reader.serve_of_fill_ok he h, erase, hf]
    · next he =>
      rw [Reader.fill_buffered he] at h
      cases h
      rfl
  | case2 c e r h hi ih =>
    obtain ⟨hb, hp, hr⟩ := Reader.fill_error h
    obtain ⟨hl, hc, hu, hq, he⟩ := ih hf
    refine ⟨hl, hc.trans (by rw [hr]), hu.trans ?_, hq, he.trans ?_⟩
    · rw [hr, Reader.unread, Reader.unread, hp]
      rfl
    · rw [if_pos hb, hp, ByteStream.serve, if_pos hi, hr]
      exact if_pos hb
  | case3 c e r h hi =>
    obtain ⟨hb, hp, hr⟩ := Reader.fill_error h
    refine ⟨?_, by rw [hr], ?_, rfl, ?_⟩
    · rw [Looks, hr, hb]
      rfl
    · rw [hr, Reader.unread, Reader.unread, hp]
      rfl
    · rw [if_pos hb, hp, ByteStream.serve, if_neg hi, erase, hr, hb]

/-- A step consumes the byte in view, and is the step of the plain stream. -/
theorem bump_spec {c : Client} {b : UInt8} (hl : c.Looks) (hf : c.failure = none)
    (hb : c.current = some b) :
    ∃ d, c.bump = .ok d ∧ c.erase.bump = .ok d.erase ∧ d.Looks ∧
      d.reader.consumed = c.reader.consumed + 1 ∧ d.position = c.position + 1 ∧
      c.reader.unread = b :: d.reader.unread := by
  obtain ⟨rest, hr⟩ : ∃ rest, c.reader.buffered = b :: rest :=
    List.head?_eq_some_iff.1 (hl.symm.trans hb)
  obtain ⟨hd, hc, hu, hp, he⟩ := fetch_spec
    { c with reader := c.reader.consume, current := none, position := c.position + 1 } hf
  refine ⟨_, by rw [bump, hb], ?_, hd, hc, hp, ?_⟩
  · rw [he, ByteStream.bump, erase, hr]
    cases rest with
    | nil => simp [Reader.consume, hr]
    | cons x rest => simp [Reader.consume, hr, erase]
  · rw [hu, Reader.unread, Reader.unread, Reader.consume, hr]
    rfl

theorem bump_exhausted {c : Client} (hl : c.Looks) (hc : c.current = none) :
    c.bump = .error .stepPastStream ∧ c.erase.bump = .error .stepPastStream := by
  have hb : c.reader.buffered = [] := List.head?_eq_none_iff.1 (hl.symm.trans hc)
  exact ⟨by rw [bump, hc], by rw [ByteStream.bump, erase, hb]⟩

/-- The plain stream tells how many bytes the reader still has. -/
theorem finish_erase (c : Client) : c.erase.finish = c.finish.map (·.unread.length) := by
  have hs (es : List Event) : Event.sizes es = (es.flatMap bytes).length := by
    induction es with
    | nil => rfl
    | cons e es ih =>
      rw [List.flatMap_cons, List.length_append, ← ih]
      cases e <;> rfl
  have hu : c.erase.unread = c.reader.unread.length := by
    rw [Reader.unread, List.length_append, ← hs]
    rfl
  rw [ByteStream.finish, hu, finish, erase]
  cases c.failure <;> rfl

end Client

/-! ## Operations in any order -/

/-- What changes a stream. -/
inductive Operation where
  | step
  | takeError
  deriving DecidableEq, Repr

/-- A step at the end is refused, and leaves the stream as it is. -/
def ByteStream.perform (s : ByteStream) : Operation → ByteStream
  | .step => match s.bump with
    | .ok t => t
    | .error _ => s
  | .takeError => s.takeError.2

/-- A stream with its history: the bytes that have been passed and the failures that have been taken. -/
structure Log where
  client : Client
  passed : List UInt8
  taken : List StreamError
  deriving DecidableEq, Repr

namespace Log

def ofEvents (es : List Event) : Log := ⟨.ofEvents es, [], []⟩

def perform (l : Log) : Operation → Log
  | .step => match l.client.bump with
    | .ok c => { l with client := c, passed := l.passed ++ l.client.current.toList }
    | .error _ => l
  | .takeError =>
    { l with client := l.client.takeError.2, taken := l.taken ++ l.client.takeError.1.toList }

/-- The failure that has ended the stream by now. -/
def due (es : List Event) (l : Log) : Option StreamError :=
  ByteStream.arriving (contents es) (ending es) l.passed.length

/-- Where a stream is, with its history. -/
structure Sound (es : List Event) (l : Log) : Prop where
  looks : l.client.Looks
  stands : l.client.erase.Stands (contents es) (ending es) l.passed.length
  passed : l.passed = (contents es).take l.passed.length
  consumed : l.client.reader.consumed = l.client.position
  unread : l.passed ++ l.client.reader.unread = es.flatMap bytes
  failure : l.taken ++ l.client.failure.toList = (l.due es).toList

variable {es : List Event} {l : Log}

theorem ofEvents_sound (es : List Event) :
    Sound es (ofEvents es) ∧ (ofEvents es).client.erase = .ofEvents es := by
  obtain ⟨hl, hc, hu, hp, he⟩ := Client.fetch_spec ⟨⟨[], es, 0, 0⟩, none, 0, none⟩ rfl
  rw [if_pos rfl] at he
  obtain ⟨hs, hf⟩ := ByteStream.ofEvents_stands es
  rw [← show (ofEvents es).client.erase = .ofEvents es from he] at hs hf
  exact ⟨⟨hl, hs, rfl, hc.trans hp.symm, hu, congrArg Option.toList hf⟩, he⟩

namespace Sound

theorem current (h : Sound es l) : l.client.current = (contents es)[l.passed.length]? :=
  h.looks.trans h.stands.peek

theorem current_eq_none_iff (h : Sound es l) :
    l.client.current = none ↔ l.passed.length = (contents es).length := by
  have := h.stands.le
  rw [h.current, List.getElem?_eq_none_iff]
  omega

/-- While a byte is in view nothing has failed. -/
theorem not_failed (h : Sound es l) {b : UInt8} (hb : l.client.current = some b) :
    l.taken = [] ∧ l.client.failure = none := by
  have hk := (List.getElem?_eq_some_iff.1 (h.current.symm.trans hb)).1
  have hd : l.due es = none := if_neg (by omega)
  have hf := h.failure
  rw [hd] at hf
  obtain ⟨ht, hf⟩ := List.append_eq_nil_iff.1 hf
  exact ⟨ht, Option.toList_eq_nil_iff.1 hf⟩

/-- An operation keeps the account, and does to the stream what it does to a plain one. -/
theorem perform (h : Sound es l) (op : Operation) :
    Sound es (l.perform op) ∧ (l.perform op).client.erase = l.client.erase.perform op := by
  cases op with
  | takeError =>
    refine ⟨⟨h.looks, h.stands.takeError, h.passed, h.consumed, h.unread, ?_⟩, rfl⟩
    exact (List.append_nil _).trans h.failure
  | step =>
    cases hb : l.client.current with
    | none =>
      obtain ⟨hc, hs⟩ := Client.bump_exhausted h.looks hb
      rw [Log.perform, hc, ByteStream.perform, hs]
      exact ⟨h, rfl⟩
    | some b =>
      obtain ⟨ht, hf⟩ := h.not_failed hb
      obtain ⟨d, hd, he, hl, hc, hp, hu⟩ := Client.bump_spec h.looks hf hb
      obtain ⟨hk, hs, hfd⟩ := h.stands.of_bump he
      have hn : (l.passed ++ [b]).length = l.passed.length + 1 := List.length_append
      simp only [Log.perform, hd, ByteStream.perform, he, hb, Option.toList_some]
      refine ⟨⟨hl, ?_, ?_, ?_, ?_, ?_⟩, trivial⟩
      · rwa [hn]
      · rw [hn, List.take_add_one, ← h.passed, ← h.current, hb]
        rfl
      · rw [hc, hp, h.consumed]
      · rw [← h.unread, hu, List.append_assoc]
        rfl
      · rw [ht, due, hn, ← hfd]
        rfl

end Sound

/-- A stream that has ended is not changed by anything but taking the failure, and its reader is left
alone. -/
theorem perform_exhausted (hl : l.client.Looks) (hc : l.client.current = none) (op : Operation) :
    (l.perform op).client.current = none ∧ (l.perform op).client.reader = l.client.reader ∧
      (l.perform op).taken ++ (l.perform op).client.failure.toList =
        l.taken ++ l.client.failure.toList := by
  cases op with
  | takeError => exact ⟨hc, rfl, List.append_nil _⟩
  | step =>
    rw [perform, (Client.bump_exhausted hl hc).1]
    exact ⟨hc, rfl, rfl⟩

/-- The history after operations. -/
def run (es : List Event) (ops : List Operation) : Log := ops.foldl perform (ofEvents es)

theorem Sound.foldl (h : Sound es l) (ops : List Operation) :
    Sound es (ops.foldl Log.perform l) ∧
      (ops.foldl Log.perform l).client.erase = ops.foldl ByteStream.perform l.client.erase := by
  induction ops generalizing l with
  | nil => exact ⟨h, rfl⟩
  | cons op ops ih =>
    obtain ⟨hs, he⟩ := h.perform op
    rw [List.foldl_cons, List.foldl_cons, ← he]
    exact ih hs

theorem run_sound (es : List Event) (ops : List Operation) :
    Sound es (run es ops) ∧
      (run es ops).client.erase = ops.foldl ByteStream.perform (.ofEvents es) := by
  obtain ⟨hs, he⟩ := ofEvents_sound es
  rw [← he]
  exact hs.foldl ops

theorem foldl_exhausted (h : Sound es l) (hc : l.client.current = none) (ops : List Operation) :
    let m := ops.foldl perform l
    m.client.reader = l.client.reader ∧
      m.taken ++ m.client.failure.toList = l.taken ++ l.client.failure.toList := by
  induction ops generalizing l with
  | nil => exact ⟨rfl, rfl⟩
  | cons op ops ih =>
    obtain ⟨hc', hr, hf⟩ := perform_exhausted h.looks hc op
    obtain ⟨hr', hf'⟩ := ih (h.perform op).1 hc'
    exact ⟨hr'.trans hr, hf'.trans hf⟩

theorem due_eq_some_iff {f : StreamError} :
    l.due es = some f ↔ l.passed.length = (contents es).length ∧
      ending es = some (.failure f.source) ∧ f.position = (contents es).length := by
  obtain ⟨position, source⟩ := f
  rw [due, ByteStream.arriving]
  by_cases hk : l.passed.length = (contents es).length
  · rw [if_pos hk, hk]
    rcases ending es with _ | ⟨bytes⟩ | ⟨e⟩ <;> simp [kept, and_comm, eq_comm]
  · simp [hk]

/-- The failure is kept until it is taken. -/
theorem Sound.failure_eq (h : Sound es l) :
    l.client.failure = if l.taken = [] then l.due es else none := by
  have hf := h.failure
  generalize l.taken = taken, l.client.failure = kept, l.due es = due at hf ⊢
  cases taken <;> cases kept <;> cases due <;> simp_all

/-- What a log tells of a stream over the events. -/
structure Tells (es : List Event) (s : ByteStream) (l : Log) : Prop where
  erase : l.client.erase = s
  /-- What the reader has lost has been passed, and only that. -/
  consumed : l.client.reader.consumed = s.position
  position : s.position = l.passed.length
  unread : l.passed ++ (s.buffered ++ s.pending.flatMap bytes) = es.flatMap bytes
  passed : l.passed = (contents es).take s.position
  exhausted : s.exhausted = decide (s.position = (contents es).length)
  /-- A failure is due when all bytes before it have been passed. -/
  due_iff : ∀ f, l.due es = some f ↔ s.position = (contents es).length ∧
    ending es = some (.failure f.source) ∧ f.position = (contents es).length
  /-- One that is due is recorded, and nothing else ever. -/
  recorded : l.taken ++ s.failure.toList = (l.due es).toList
  takeError : s.takeError.1 = if l.taken = [] then l.due es else none
  finish : l.client.finish =
    (if l.taken = [] then l.due es else none).elim (.ok l.client.reader) .error
  finish_plain : s.finish = l.client.finish.map (·.unread.length)
  /-- The end is for good: the reader is not asked any more, and nothing takes the place of the
  failure. -/
  ended : s.exhausted = true → ∀ ops : List Operation,
    let t := ops.foldl ByteStream.perform s
    let m := ops.foldl perform l
    m.client.erase = t ∧ t.exhausted = true ∧ t.position = s.position ∧
      m.client.reader = l.client.reader ∧
      m.taken ++ t.failure.toList = l.taken ++ s.failure.toList

/-- Whatever is done to a stream, in whatever order: its reader has consumed as many bytes as it has
passed, and these with the unread ones are all the bytes of the events. The failure that ends it is
recorded once all bytes before it have been passed, and kept until it is taken, so that in the end it
is either found out or the reader is given back. -/
theorem failures_recorded (es : List Event) (ops : List Operation) :
    Tells es (ops.foldl ByteStream.perform (.ofEvents es)) (run es ops) := by
  obtain ⟨h, he⟩ := run_sound es ops
  rw [← he]
  generalize run es ops = l at h
  have hp : l.client.erase.position = l.passed.length := h.stands.position
  have hx := h.stands.exhausted
  rw [← hp] at hx
  exact
    { erase := rfl
      consumed := h.consumed
      position := hp
      unread := h.unread
      passed := by rw [hp]; exact h.passed
      exhausted := hx
      due_iff := fun f => by rw [hp]; exact due_eq_some_iff
      recorded := h.failure
      takeError := h.failure_eq
      finish := by
        rw [← h.failure_eq, Client.finish]
        cases l.client.failure <;> rfl
      finish_plain := l.client.finish_erase
      ended := fun hs ops => by
        have hc : l.client.current = none := by
          rw [h.current_eq_none_iff, ← hp]
          exact of_decide_eq_true (hx.symm.trans hs)
        obtain ⟨hm, he⟩ := h.foldl ops
        obtain ⟨hr, hf⟩ := foldl_exhausted h hc ops
        rw [← he]
        refine ⟨rfl, ?_, ?_, hr, hf⟩
        · rw [ByteStream.exhausted, Client.erase, hr]
          exact hs
        · have hu := hm.consumed
          rw [hr, h.consumed] at hu
          exact hu.symm }

/-- A failure behind two bytes, with more to come behind it: asking for it too early takes nothing,
and asking again gives nothing more. -/
theorem failures_recorded_late :
    let late : ReadError := ⟨.timedOut, "late"⟩
    let es := [.chunk [104], .failure ⟨.interrupted, ""⟩, .chunk [105], .failure late, .chunk [7]]
    let l := run es [.step, .takeError, .step]
    let m := [.takeError, .step, .takeError].foldl perform l
    l.client.finish = .error ⟨2, late⟩ ∧ m.taken = [⟨2, late⟩] ∧ m.client.failure = none ∧
      m.client.reader = ⟨[], [.chunk [7]], 2, 4⟩ := by
  intro late es l m
  have h := failures_recorded es [.step, .takeError, .step]
  obtain ⟨-, -, -, hr, -⟩ := h.ended (by decide +kernel) [.takeError, .step, .takeError]
  have hd : (if l.taken = [] then l.due es else none) = some ⟨2, late⟩ := by decide +kernel
  have hf := h.finish
  rw [hd] at hf
  exact ⟨hf, by decide +kernel, by decide +kernel, hr.trans (by decide +kernel)⟩

end Log

end Waymark
