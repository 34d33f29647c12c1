import LeaseBoard.Monitor
set_option autoImplicit false

/-!
# A stream that is cut differently

A reader carries three things from one chunk to the next: bytes that spell no character yet, a line
that has not ended, and a frame that has not been sent.  Each is read by a machine that may be
stopped anywhere, so the reader after some items is the reader after all their bytes
(`feedBytes_append`, `frames_readOn`), and failures stand between the frames without touching them
(`read_append`).  What the reader then tells is what the longest text tells that the bytes start
with (`Utf8.longest_feedBytes`).
-/

namespace LeaseBoard

open LeaseBoard.Feed

namespace Feed

/-! ## What streams and transcripts are made of -/

/-- The bytes that an item delivers. -/
def Item.bytes : Item → List UInt8
  | chunk bytes => bytes
  | failure _ => []

/-- The failure that an item is. -/
def Item.failure? : Item → Option String
  | chunk _ => none
  | failure reason => some reason

/-- Whether an item is a chunk. -/
def Item.isChunk : Item → Bool
  | chunk _ => true
  | failure _ => false

/-- An item delivered byte by byte. -/
def Item.bytewise : Item → List Item
  | chunk bytes => bytes.map fun b => chunk [b]
  | failure reason => [failure reason]

/-- The bytes that a stream delivers. -/
def bytesOf (items : List Item) : List UInt8 := items.flatMap Item.bytes

/-- The failures of a stream, in order. -/
def failuresOf (items : List Item) : List String := items.filterMap Item.failure?

/-- Two streams that differ at most in how their bytes are cut into chunks. -/
def SameStream (items others : List Item) : Prop :=
  items.flatMap Item.bytewise = others.flatMap Item.bytewise

instance (items others : List Item) : Decidable (SameStream items others) :=
  inferInstanceAs (Decidable (_ = _))

/-- The frame that a signal announces. -/
def Signal.frame? : Signal → Option Frame
  | .frame sent => some sent
  | .interrupted _ => none

/-- The interruption that a signal announces. -/
def Signal.interruption? : Signal → Option String
  | .frame _ => none
  | .interrupted reason => some reason

/-- The frames among signals, in order. -/
def framesOf (signals : List Signal) : List Frame := signals.filterMap Signal.frame?

/-- The interruptions among signals, in order. -/
def interruptionsOf (signals : List Signal) : List String := signals.filterMap Signal.interruption?

theorem framesOf_append (first second : List Signal) :
    framesOf (first ++ second) = framesOf first ++ framesOf second := List.filterMap_append

theorem interruptionsOf_append (first second : List Signal) :
    interruptionsOf (first ++ second) = interruptionsOf first ++ interruptionsOf second :=
  List.filterMap_append

@[simp] theorem framesOf_frames (frames : List Frame) : framesOf (frames.map .frame) = frames := by
  simp [framesOf, Signal.frame?, List.filterMap_map, Function.comp_def]

@[simp] theorem interruptionsOf_frames (frames : List Frame) :
    interruptionsOf (frames.map .frame) = [] := by
  simp [interruptionsOf, Signal.interruption?, List.filterMap_map, Function.comp_def]

namespace Decoder

/-! ## One reader over bytes in two goes -/

theorem feedChars_append (d : Decoder) (first second : List Char) :
    d.feedChars (first ++ second) =
      (((d.feedChars first).1.feedChars second).1,
        (d.feedChars first).2 ++ ((d.feedChars first).1.feedChars second).2) := by
  have hcame : (!(first ++ second).isEmpty) = (!first.isEmpty || !second.isEmpty) := by
    cases first <;> simp
  simp only [feedChars, LineReader.feedChars_append, FrameReader.feedLines, feed_append, hcame,
    Bool.or_assoc]

@[simp] theorem feedChars_nil (d : Decoder) : d.feedChars [] = (d, []) := by
  simp [feedChars, LineReader.feedChars, FrameReader.feedLines]

@[simp] theorem feedBytes_nil (d : Decoder) : d.feedBytes [] = some (d, []) := by
  simp [feedBytes]

/-- A reader may be stopped anywhere in its bytes. -/
theorem feedBytes_append (d : Decoder) (first second : List UInt8) :
    d.feedBytes (first ++ second) =
      (d.feedBytes first).bind fun mid =>
        (mid.1.feedBytes second).map fun last => (last.1, mid.2 ++ last.2) := by
  obtain ⟨held, started, line, frame⟩ := d
  simp only [feedBytes, Utf8.feedBytes_append]
  generalize Utf8.feedBytes held first = come
  obtain ⟨rest, text⟩ := come
  by_cases hnone : text = []
  · -- no character has come yet, so the first one of the rest is the first of the stream
    subst hnone
    simp only [List.nil_append, List.head?_nil, reduceCtorEq, decide_false, Bool.and_false,
      Bool.false_eq_true, if_false, feedChars_nil, Option.bind_some]
    split <;> rfl
  · have hhead : (text ++ (Utf8.feedBytes rest second).2).head? = text.head? := by
      rw [List.head?_append, Option.or_of_isSome (by simpa using hnone)]
    have hsome : text.isEmpty = false := List.isEmpty_eq_false_iff.2 hnone
    rw [hhead, feedChars_append]
    by_cases hmark : started = false ∧ text.head? = some byteOrderMark
    · simp [hmark]
    · simp [hmark, hsome, feedChars]

/-- Bytes that can be read are read character by character. -/
theorem eq_of_feedBytes {d e : Decoder} {bytes : List UInt8} {frames : List Frame}
    (h : d.feedBytes bytes = some (e, frames)) :
    e = (feedChars ⟨(Utf8.feedBytes d.bytes bytes).1, d.started, d.line, d.frame⟩
        (Utf8.feedBytes d.bytes bytes).2).1 ∧
      frames = (feedChars ⟨(Utf8.feedBytes d.bytes bytes).1, d.started, d.line, d.frame⟩
        (Utf8.feedBytes d.bytes bytes).2).2 := by
  simp only [feedBytes] at h
  split at h
  · simp at h
  · have heq := Option.some.inj h
    exact ⟨congrArg Prod.fst heq.symm, congrArg Prod.snd heq.symm⟩

/-- Only a reader that no character has reached can meet a byte order mark. -/
theorem unstarted_of_feedBytes {d : Decoder} {bytes : List UInt8} (h : d.feedBytes bytes = none) :
    d.started = false := by
  simp only [feedBytes] at h
  split at h
  case isTrue hmark => simpa using (Bool.and_eq_true_iff.1 hmark).1
  case isFalse => simp at h

/-- A reader that no character has reached has told no frame. -/
theorem quiet_of_feedBytes {d e : Decoder} {bytes : List UInt8} {frames : List Frame}
    (h : d.feedBytes bytes = some (e, frames)) (hquiet : e.started = false) :
    d.started = false ∧ frames = [] := by
  obtain ⟨hreader, hframes⟩ := eq_of_feedBytes h
  have hnone : d.started = false ∧ (Utf8.feedBytes d.bytes bytes).2 = [] := by
    rw [hreader] at hquiet
    simpa [feedChars] using hquiet
  refine ⟨hnone.1, ?_⟩
  rw [hframes, hnone.2, feedChars_nil]

/-! ## One item -/

/-- The reader after an item and the signals that it gave, unless the stream turned out to be
unreadable. -/
def takeItem (d : Decoder) : Item → Option (Decoder × List Signal)
  | .chunk bytes => (d.feedBytes bytes).map fun next => (next.1, next.2.map .frame)
  | .failure reason => some (d, [.interrupted reason])

theorem read_cons (d : Decoder) (item : Item) (rest : List Item) :
    d.read (item :: rest) =
      match d.takeItem item with
      | none => ⟨[], true⟩
      | some next => ⟨next.2 ++ (next.1.read rest).signals, (next.1.read rest).broken⟩ := by
  cases item with
  | failure reason => rfl
  | chunk bytes =>
    simp only [read, takeItem]
    cases d.feedBytes bytes <;> rfl

/-- An item leaves the reader where its bytes leave it, with the same frames. -/
theorem frames_takeItem (d : Decoder) (item : Item) :
    ((d.takeItem item).map fun next => (next.1, framesOf next.2)) = d.feedBytes item.bytes := by
  cases item with
  | failure reason => exact (d.feedBytes_nil).symm
  | chunk bytes => simp [takeItem, Item.bytes, Function.comp_def]

/-- A failure is told and nothing else is. -/
theorem interruptions_takeItem {d e : Decoder} {item : Item} {told : List Signal}
    (h : d.takeItem item = some (e, told)) : interruptionsOf told = item.failure?.toList := by
  cases item with
  | failure reason =>
    obtain ⟨rfl, rfl⟩ := Prod.mk.inj (Option.some.inj h)
    rfl
  | chunk bytes =>
    obtain ⟨next, -, heq⟩ := Option.map_eq_some_iff.1 h
    obtain ⟨rfl, rfl⟩ := Prod.mk.inj heq
    exact interruptionsOf_frames next.2

/-! ## One stream in two goes -/

/-- The reader after some items and the signals that it gave, unless the stream turned out to be
unreadable. -/
def readOn (d : Decoder) : List Item → Option (Decoder × List Signal)
  | [] => some (d, [])
  | item :: rest =>
    (d.takeItem item).bind fun next =>
      (next.1.readOn rest).map fun last => (last.1, next.2 ++ last.2)

theorem readOn_cons_eq_some {d e : Decoder} {item : Item} {rest : List Item} {told : List Signal}
    (h : d.readOn (item :: rest) = some (e, told)) :
    ∃ next first later, d.takeItem item = some (next, first) ∧
      next.readOn rest = some (e, later) ∧ told = first ++ later := by
  obtain ⟨next, hnext, hrest⟩ := Option.bind_eq_some_iff.1 h
  obtain ⟨last, hlast, heq⟩ := Option.map_eq_some_iff.1 hrest
  obtain ⟨rfl, rfl⟩ := Prod.mk.inj heq
  exact ⟨next.1, next.2, last.2, hnext, hlast, rfl⟩

/-- A stream that could be read so far goes on from the reader after it. -/
theorem read_append {d e : Decoder} {before : List Item} {told : List Signal}
    (h : d.readOn before = some (e, told)) (after : List Item) :
    d.read (before ++ after) = ⟨told ++ (e.read after).signals, (e.read after).broken⟩ := by
  induction before generalizing d told with
  | nil =>
    obtain ⟨rfl, rfl⟩ := Prod.mk.inj (Option.some.inj h)
    rfl
  | cons item rest ih =>
    obtain ⟨next, first, later, hnext, hlast, rfl⟩ := readOn_cons_eq_some h
    simp only [List.cons_append, read_cons, hnext, ih hlast, List.append_assoc]

/-- A stream that could be read ends with what its reader has left. -/
theorem read_end {d e : Decoder} {items : List Item} {told : List Signal}
    (h : d.readOn items = some (e, told)) : d.read items = ⟨told ++ e.finish, false⟩ := by
  simpa [read] using read_append h []

/-- A stream that could not be read so far is over. -/
theorem read_of_unreadable {d : Decoder} {before : List Item} (h : d.readOn before = none) :
    (d.read before).broken = true ∧ ∀ after, d.read (before ++ after) = d.read before := by
  induction before generalizing d with
  | nil => simp [readOn] at h
  | cons item rest ih =>
    cases hnext : d.takeItem item with
    | none => simp [read_cons, hnext]
    | some next =>
      simp only [readOn, hnext, Option.bind_some, Option.map_eq_none_iff] at h
      obtain ⟨hbroken, hover⟩ := ih h
      simp only [List.cons_append, read_cons, hnext]
      exact ⟨hbroken, fun after => by rw [hover]⟩

/-- The reader after some items is the reader after all their bytes, with the same frames. -/
theorem frames_readOn (d : Decoder) (items : List Item) :
    ((d.readOn items).map fun last => (last.1, framesOf last.2)) = d.feedBytes (bytesOf items) := by
  induction items generalizing d with
  | nil => exact (d.feedBytes_nil).symm
  | cons item rest ih =>
    have hbytes : bytesOf (item :: rest) = item.bytes ++ bytesOf rest := List.flatMap_cons
    rw [hbytes, feedBytes_append, ← frames_takeItem]
    cases hnext : d.takeItem item with
    | none => simp [readOn, hnext]
    | some next => simp [readOn, hnext, ← ih, framesOf_append, Function.comp_def]

/-- Each failure is told once, in its turn. -/
theorem interruptions_readOn {d e : Decoder} {items : List Item} {told : List Signal}
    (h : d.readOn items = some (e, told)) : interruptionsOf told = failuresOf items := by
  induction items generalizing d told with
  | nil =>
    obtain ⟨rfl, rfl⟩ := Prod.mk.inj (Option.some.inj h)
    rfl
  | cons item rest ih =>
    obtain ⟨next, first, later, hnext, hlast, rfl⟩ := readOn_cons_eq_some h
    rw [interruptionsOf_append, interruptions_takeItem hnext, ih hlast]
    cases item <;> rfl

/-- A stream that cannot be read has told no frame. -/
theorem quiet_of_broken {d : Decoder} {items : List Item} (h : (d.read items).broken = true) :
    d.started = false ∧ framesOf (d.read items).signals = [] := by
  induction items generalizing d with
  | nil => simp [read] at h
  | cons item rest ih =>
    have hbytes := d.frames_takeItem item
    rw [read_cons] at h ⊢
    cases hnext : d.takeItem item with
    | none =>
      rw [hnext] at hbytes
      exact ⟨unstarted_of_feedBytes hbytes.symm, rfl⟩
    | some next =>
      rw [hnext] at hbytes h
      obtain ⟨hstarted, hlater⟩ := ih h
      obtain ⟨hfirst, hframes⟩ := quiet_of_feedBytes hbytes.symm hstarted
      refine ⟨hfirst, ?_⟩
      rw [framesOf_append, hframes, hlater, List.nil_append]

/-! ## Chunks -/

/-- A chunk may be cut anywhere. -/
theorem read_chunk_append (d : Decoder) (first second : List UInt8) (rest : List Item) :
    d.read (.chunk (first ++ second) :: rest) = d.read (.chunk first :: .chunk second :: rest) := by
  simp only [read, feedBytes_append]
  cases hmid : d.feedBytes first with
  | none => rfl
  | some mid =>
    cases hlast : mid.1.feedBytes second with
    | none =>
      have hframes := (quiet_of_feedBytes hmid (unstarted_of_feedBytes hlast)).2
      simp [hlast, hframes]
    | some last => simp [hlast]

/-- A chunk may be delivered byte by byte. -/
theorem read_bytes (d : Decoder) (bytes : List UInt8) (rest : List Item) :
    d.read ((bytes.map fun b => .chunk [b]) ++ rest) = d.read (.chunk bytes :: rest) := by
  induction bytes generalizing d with
  | nil => simp [read]
  | cons b more ih =>
    have hcut := read_chunk_append d [b] more rest
    rw [List.singleton_append] at hcut
    rw [hcut]
    simp only [List.map_cons, List.cons_append, read, ih]

/-- A stream may be delivered byte by byte. -/
theorem read_bytewise (d : Decoder) (items : List Item) :
    d.read (items.flatMap Item.bytewise) = d.read items := by
  induction items generalizing d with
  | nil => rfl
  | cons item rest ih =>
    cases item with
    | failure reason => simp only [List.flatMap_cons, Item.bytewise, List.singleton_append, read, ih]
    | chunk bytes =>
      rw [List.flatMap_cons, Item.bytewise, read_bytes]
      simp only [read, ih]

/-! ## What is told of all the bytes -/

/-- The end of a stream interrupts and sends nothing. -/
@[simp] theorem framesOf_finish (d : Decoder) : framesOf d.finish = [] := by
  unfold finish
  split <;> rfl

/-- The frames of a stream, and whether it can be read, depend on all its bytes alone. -/
theorem frames_read (d : Decoder) (items : List Item) :
    framesOf (d.read items).signals = ((d.feedBytes (bytesOf items)).map Prod.snd).getD [] ∧
      (d.read items).broken = (d.feedBytes (bytesOf items)).isNone := by
  rw [← frames_readOn]
  cases h : d.readOn items with
  | none =>
    have hbroken := (read_of_unreadable h).1
    exact ⟨(quiet_of_broken hbroken).2, hbroken⟩
  | some last =>
    rw [read_end h]
    simp [framesOf_append]

/-- A stream cannot be read exactly if its text starts with a byte order mark, and its frames are
those of its text. -/
theorem frames_start (bytes : List UInt8) :
    (start.feedBytes bytes).map Prod.snd =
      if (Utf8.feedBytes [] bytes).2.head? = some byteOrderMark then none
      else some (start.feedChars (Utf8.feedBytes [] bytes).2).2 := by
  by_cases hmark : (Utf8.feedBytes [] bytes).2.head? = some byteOrderMark
  · simp [feedBytes, start, hmark]
  · simp [feedBytes, start, feedChars, hmark]

end Decoder

/-! ## Transcripts -/

theorem transcript_of_sameStream {items others : List Item} (h : SameStream items others) :
    transcript items = transcript others := by
  have hwise : ∀ items, transcript items = transcript (items.flatMap Item.bytewise) := by
    intro items
    exact (Decoder.read_bytewise .start items).symm
  rw [hwise items, hwise others, h]

/-- Streams of the same bytes have the same frames, whatever fails in them. -/
theorem transcript_of_bytes {items others : List Item} (h : bytesOf items = bytesOf others) :
    framesOf (transcript items).signals = framesOf (transcript others).signals ∧
      (transcript items).broken = (transcript others).broken := by
  obtain ⟨hframes, hbroken⟩ := Decoder.frames_read .start items
  obtain ⟨hframes', hbroken'⟩ := Decoder.frames_read .start others
  rw [h] at hframes hbroken
  exact ⟨hframes.trans hframes'.symm, hbroken.trans hbroken'.symm⟩

/-- A failure is told between the frames of the bytes before it and what comes after. -/
theorem transcript_failure (before after : List Item) (reason : String) :
    if (transcript before).broken then
      transcript (before ++ .failure reason :: after) = transcript before
    else ∃ told later,
      (transcript (before ++ after)).signals = told ++ later ∧
      transcript (before ++ .failure reason :: after) =
        ⟨told ++ .interrupted reason :: later, (transcript (before ++ after)).broken⟩ ∧
      framesOf told = framesOf (transcript [.chunk (bytesOf before)]).signals ∧
      interruptionsOf told = failuresOf before := by
  cases hread : Decoder.start.readOn before with
  | none =>
    obtain ⟨hbroken, hover⟩ := Decoder.read_of_unreadable hread
    rw [if_pos (show (transcript before).broken = true from hbroken)]
    exact hover _
  | some last =>
    obtain ⟨reader, told⟩ := last
    have hgoes : ∀ after, transcript (before ++ after) =
        ⟨told ++ (reader.read after).signals, (reader.read after).broken⟩ :=
      Decoder.read_append hread
    have hend : transcript before = ⟨told ++ reader.finish, false⟩ := Decoder.read_end hread
    rw [if_neg (by simp [hend])]
    refine ⟨told, (reader.read after).signals, ?_, ?_, ?_, Decoder.interruptions_readOn hread⟩
    · rw [hgoes]
    · rw [hgoes, hgoes, Decoder.read]
    · have hbytes : bytesOf [.chunk (bytesOf before)] = bytesOf before := List.append_nil _
      rw [(transcript_of_bytes hbytes).1, hend]
      simp [framesOf_append]

/-- Failures neither add nor take away bytes. -/
theorem bytesOf_chunks (items : List Item) : bytesOf (items.filter Item.isChunk) = bytesOf items := by
  induction items with
  | nil => rfl
  | cons item rest ih =>
    cases item with
    | failure reason => exact ih
    | chunk bytes => exact congrArg (bytes ++ ·) ih

/-- The longest text that the bytes start with decides about the frames, and the bytes after it
about the end. -/
theorem transcript_longest (items : List Item) :
    ∃ text rest, Utf8.Longest (bytesOf items) text rest ∧
      ((transcript items).broken = true ↔ text.head? = some Decoder.byteOrderMark) ∧
      framesOf (transcript items).signals =
        framesOf (transcript [.chunk (Utf8.encode text)]).signals ∧
      ((transcript items).broken = false → ∃ told,
        (transcript items).signals =
          told ++ (if rest = [] then [] else [.interrupted (Utf8.defect rest).message]) ∧
        interruptionsOf told = failuresOf items) := by
  have hlongest := Utf8.longest_feedBytes (bytesOf items)
  generalize htext : (Utf8.feedBytes [] (bytesOf items)).2 = text at hlongest
  have hstart := Decoder.frames_start (bytesOf items)
  have hencoded := Decoder.frames_start (Utf8.encode text)
  obtain ⟨hframes, hbroken⟩ := Decoder.frames_read .start items
  refine ⟨text, _, hlongest, ?_, ?_, ?_⟩
  · rw [transcript, hbroken, ← Option.isNone_map, hstart, htext]
    split <;> simp [*]
  · have hbytes : bytesOf [.chunk (Utf8.encode text)] = Utf8.encode text := List.append_nil _
    have hchunk := (Decoder.frames_read .start [.chunk (Utf8.encode text)]).1
    rw [transcript, transcript, hframes, hchunk, hbytes, hstart, hencoded, htext,
      Utf8.feedBytes_encode]
  · intro hreadable
    cases hread : Decoder.start.readOn items with
    | none =>
      have hunreadable : (transcript items).broken = true := (Decoder.read_of_unreadable hread).1
      simp [hreadable] at hunreadable
    | some last =>
      obtain ⟨reader, told⟩ := last
      have hend : transcript items = ⟨told ++ reader.finish, false⟩ := Decoder.read_end hread
      have hreader : reader.bytes = (Utf8.feedBytes [] (bytesOf items)).1 := by
        have hbytes := Decoder.frames_readOn .start items
        rw [hread] at hbytes
        exact congrArg Decoder.bytes (Decoder.eq_of_feedBytes hbytes.symm).1
      refine ⟨told, ?_, Decoder.interruptions_readOn hread⟩
      simp only [hend, Decoder.finish, hreader, List.reverse_eq_nil_iff]

end Feed

/-- However a stream is cut into chunks, its transcript is the same, and so is what a monitor makes of
it.  A failure is told once, after the frames of the bytes before it and before all others, unless the
stream was given up before it; without the failures the frames are the same.  The frames are those of
the longest text that the bytes start with.  The stream is given up exactly if that text starts with a
byte order mark, and else it ends with one more interruption exactly if bytes are left after the
text. -/
theorem cuts_never_matter (items : List Item) :
    (∀ others, SameStream items others →
      transcript items = transcript others ∧ ∀ m : Monitor, m.runStream items = m.runStream others) ∧
    (∀ before reason after, items = before ++ .failure reason :: after →
      if (transcript before).broken then transcript items = transcript before
      else ∃ told later,
        (transcript (before ++ after)).signals = told ++ later ∧
        transcript items =
          ⟨told ++ .interrupted reason :: later, (transcript (before ++ after)).broken⟩ ∧
        framesOf told = framesOf (transcript [.chunk (bytesOf before)]).signals ∧
        interruptionsOf told = failuresOf before) ∧
    (framesOf (transcript (items.filter Item.isChunk)).signals =
        framesOf (transcript items).signals ∧
      (transcript (items.filter Item.isChunk)).broken = (transcript items).broken) ∧
    ∃ text rest, Utf8.Longest (bytesOf items) text rest ∧
      ((transcript items).broken = true ↔ text.head? = some Decoder.byteOrderMark) ∧
      framesOf (transcript items).signals =
        framesOf (transcript [.chunk (Utf8.encode text)]).signals ∧
      ((transcript items).broken = false → ∃ told,
        (transcript items).signals =
          told ++ (if rest = [] then [] else [.interrupted (Utf8.defect rest).message]) ∧
        interruptionsOf told = failuresOf items) := by
  refine ⟨?_, ?_, ?_, transcript_longest items⟩
  · intro others h
    have htranscript := transcript_of_sameStream h
    refine ⟨htranscript, fun m => ?_⟩
    rw [Monitor.runStream, Session.drainStream, htranscript]
    rfl
  · rintro before reason after rfl
    exact transcript_failure before after reason
  · exact transcript_of_bytes (bytesOf_chunks items)

/-- A frame cut inside a character and between the two characters of a line ending, with a failure
inside and a byte left over. -/
theorem cuts_never_matter_of_inside :
    let before : List Item := [.chunk [0x64, 0x61, 0x74, 0x61, 0x3A, 0xC3]]
    let after : List Item := [.chunk [0xA9, 0x0D], .chunk [], .chunk [0x0A, 0x0A, 0xC3]]
    let items := before ++ .failure "lost" :: after
    let others : List Item :=
      [.chunk [0x64, 0x61], .chunk [0x74, 0x61, 0x3A, 0xC3], .failure "lost",
        .chunk [0xA9, 0x0D, 0x0A, 0x0A], .chunk [0xC3]]
    (transcript items).signals =
        [.interrupted "lost", .frame ⟨"message", "é", none, none⟩,
          .interrupted "UTF8 error: incomplete utf-8 byte sequence from index 0"] ∧
      transcript items = transcript others ∧
      (∃ told later, (transcript (before ++ after)).signals = told ++ later ∧
        transcript items = ⟨told ++ .interrupted "lost" :: later, false⟩) ∧
      ∃ told, (transcript items).signals =
        told ++ [.interrupted "UTF8 error: incomplete utf-8 byte sequence from index 0"] := by
  intro before after items others
  obtain ⟨hcuts, hfailures, -, text, rest, hlongest, -, -, hend⟩ := cuts_never_matter items
  have hfailure := hfailures before "lost" after rfl
  rw [if_neg (by decide)] at hfailure
  obtain ⟨told, later, hsplit, hitems, -⟩ := hfailure
  refine ⟨by decide, (hcuts others (by decide)).1, ⟨told, later, hsplit, hitems⟩, ?_⟩
  obtain ⟨-, hrest⟩ := hlongest.unique (Utf8.longest_feedBytes (bytesOf items))
  obtain ⟨told, hsignals, -⟩ := hend (by decide)
  refine ⟨told, hsignals.trans (congrArg (told ++ ·) ?_)⟩
  rw [hrest]
  decide

end LeaseBoard
