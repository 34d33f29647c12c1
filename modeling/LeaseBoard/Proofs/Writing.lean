import LeaseBoard.Feed.Written
import LeaseBoard.Proofs.Cutting
set_option autoImplicit false

/-!
# Reading what was written

Each of the readers undoes one step of writing: bytes give the text back (`Utf8.feedBytes_encode`),
the text its lines (`feedChars_textOfLines`), a field line its field (`push_fieldLine`), and the
lines of a message its frame (`feedLines_lines`).  Between two messages a frame reader keeps the
identity alone, which is what carries the induction over the messages.
-/

namespace LeaseBoard.Feed

/-! ## Lines -/

/-- A line that can be written: it does not contain a line ending. -/
def FitsOnLine (line : List Char) : Prop := ∀ c ∈ line, c ≠ '\n' ∧ c ≠ '\r'

instance (line : List Char) : Decidable (FitsOnLine line) :=
  List.decidableBAll (fun c => c ≠ '\n' ∧ c ≠ '\r') line

theorem fitsOnLine_append {first second : List Char} :
    FitsOnLine (first ++ second) ↔ FitsOnLine first ∧ FitsOnLine second :=
  List.forall_mem_append

/-- The characters of a line are held back until its ending has come. -/
theorem feedChars_line (held line : List Char) (hfits : FitsOnLine line) (ending : LineEnding) :
    (LineReader.mk held false).feedChars (line ++ ending.chars) =
      (.start, [held.reverse ++ line]) := by
  induction line generalizing held with
  | nil =>
    cases ending <;>
      simp [LineReader.feedChars, LineEnding.chars, feed, LineReader.push, LineReader.pushFresh]
  | cons c rest ih =>
    obtain ⟨hc, hrest⟩ := List.forall_mem_cons.1 hfits
    have hpush : (LineReader.mk held false).push c = (⟨c :: held, false⟩, none) := by
      simp [LineReader.push, LineReader.pushFresh, hc]
    have hlater := ih (c :: held) hrest
    simp only [LineReader.feedChars] at hlater ⊢
    rw [List.cons_append, feed, hpush]
    simp [hlater]

/-- The text of lines is read as these lines. -/
theorem feedChars_textOfLines {lines : List (List Char)} (hfit : ∀ line ∈ lines, FitsOnLine line)
    (ending : LineEnding) :
    LineReader.start.feedChars (textOfLines ending lines) = (.start, lines) := by
  induction lines with
  | nil => rfl
  | cons line rest ih =>
    obtain ⟨hline, hrest⟩ := List.forall_mem_cons.1 hfit
    have htext : textOfLines ending (line :: rest) =
        (line ++ ending.chars) ++ textOfLines ending rest := List.flatMap_cons
    have hfirst : LineReader.start.feedChars (line ++ ending.chars) = (.start, [line]) :=
      feedChars_line [] line hline ending
    rw [htext, LineReader.feedChars_append, hfirst, ih hrest]
    rfl

/-! ## Fields -/

/-- A field line is read as its field. -/
theorem fieldOfLine_fieldLine {name : String} (hname : name ≠ "") (hcolon : ':' ∉ name.toList)
    (value : List Char) : fieldOfLine (fieldLine name value) = some (name, value) := by
  have hpass : ∀ c ∈ name.toList, decide (c ≠ ':') = true := by
    intro c hc
    simpa using fun heq : c = ':' => hcolon (heq ▸ hc)
  have hrest : (fieldLine name value).dropWhile (· ≠ ':') = ':' :: ' ' :: value := by
    rw [fieldLine, List.dropWhile_append_of_pos hpass]
    simp
  have hstart : (fieldLine name value).takeWhile (· ≠ ':') = name.toList := by
    rw [fieldLine, List.takeWhile_append_of_pos hpass]
    simp
  unfold fieldOfLine
  split
  case h_1 after heq =>
    rw [heq] at hstart
    have hempty : name.toList = [] := by simpa using hstart.symm
    exact absurd (String.toList_eq_nil_iff.1 hempty) hname
  case h_2 => simp only [hrest, hstart, String.ofList_toList]

namespace FrameReader

theorem push_fieldLine {name : String} (hname : name ≠ "") (hcolon : ':' ∉ name.toList)
    (r : FrameReader) (value : List Char) :
    r.push (fieldLine name value) = (r.field name value, none) := by
  have hline : fieldLine name value ≠ [] := by simp [fieldLine]
  rw [push, if_neg hline, fieldOfLine_fieldLine hname hcolon]

/-- Comments are passed over. -/
theorem push_comment {line : List Char} (hcomment : isComment line = true) (r : FrameReader) :
    r.push line = (r, none) := by
  cases line with
  | nil => simp [isComment] at hcomment
  | cons c rest =>
    have hc : c = ':' := by simpa [isComment] using hcomment
    subst hc
    rfl

/-- Comments make no difference. -/
theorem feedLines_without_comments (r : FrameReader) (lines : List (List Char)) :
    r.feedLines (lines.filter fun line => !isComment line) = r.feedLines lines := by
  induction lines generalizing r with
  | nil => rfl
  | cons line rest ih =>
    by_cases hcomment : isComment line = true
    · have hskip : r.feedLines (line :: rest) = r.feedLines rest := by
        simp [feedLines, feed, push_comment hcomment]
      rw [hskip, List.filter_cons_of_neg (by simp [hcomment]), ih]
    · rw [List.filter_cons_of_pos (by simp [hcomment])]
      simp only [feedLines] at ih ⊢
      simp only [feed, ih]

end FrameReader

/-! ## Data and retry times -/

/-- A text is its first piece and the others, each after a line feed. -/
theorem pieces_eq (text : List Char) :
    ∃ first others, pieces text = first :: others ∧
      first ++ others.flatMap ('\n' :: ·) = text := by
  induction text with
  | nil => exact ⟨[], [], rfl, rfl⟩
  | cons c rest ih =>
    obtain ⟨first, others, hpieces, hrest⟩ := ih
    by_cases hc : c = '\n'
    · refine ⟨[], first :: others, by rw [pieces, if_pos hc, hpieces], ?_⟩
      rw [List.flatMap_cons, hc, List.nil_append, List.cons_append, hrest]
    · refine ⟨c :: first, others, by rw [pieces, if_neg hc, hpieces], ?_⟩
      rw [List.cons_append, hrest]

/-- The pieces of a text, joined by line feeds, are the text. -/
theorem joinData_pieces (text : List Char) : FrameReader.joinData (pieces text).reverse = text := by
  obtain ⟨first, others, hpieces, htext⟩ := pieces_eq text
  rw [FrameReader.joinData, List.reverse_reverse, hpieces]
  exact htext

theorem retryOfValue?_digits (ms : UInt64) :
    retryOfValue? (Numeral.digits ms.toNat) = some ms := by
  obtain ⟨d, ds, hdigits, hdigit, -⟩ := Numeral.head_digits ms.toNat
  have hplus : d ≠ '+' := by
    rintro rfl
    exact absurd hdigit (by decide)
  have hvalue := Numeral.parse?_digits ms.toNat
  have hsize : ms.toNat < UInt64.size := ms.toNat_lt
  rw [hdigits] at hvalue ⊢
  simp [retryOfValue?, hplus, hvalue, hsize]

namespace FrameReader

/-! ## Messages -/

/-- A reader between two messages. -/
def between (id : List Char) : FrameReader := { start with id := id }

theorem feedLines_append (r : FrameReader) (first second : List (List Char)) :
    r.feedLines (first ++ second) =
      (((r.feedLines first).1.feedLines second).1,
        (r.feedLines first).2 ++ ((r.feedLines first).1.feedLines second).2) :=
  feed_append push r first second

theorem feedLines_field {name : String} (hname : name ≠ "") (hcolon : ':' ∉ name.toList)
    (r : FrameReader) (value : List Char) :
    r.feedLines [fieldLine name value] = (r.field name value, []) := by
  simp [feedLines, feed, push_fieldLine hname hcolon]

theorem feedLines_data (r : FrameReader) (values : List (List Char)) :
    r.feedLines (values.map (fieldLine "data")) =
      ({ r with data := values.reverse ++ r.data }, []) := by
  induction values generalizing r with
  | nil => rfl
  | cons value rest ih =>
    have hpush := push_fieldLine (show "data" ≠ "" by decide) (by decide) r value
    simp only [feedLines] at ih ⊢
    rw [List.map_cons, feed, hpush, ih]
    simp [field]

/-- The lines of a message are read as its frame. -/
theorem feedLines_lines {m : Message} (hwritable : m.Writable) (id : String) :
    (between id.toList).feedLines m.lines =
      (between (m.id.getD id).toList, [.ofParts m.event m.data (m.id.getD id) m.retry]) := by
  obtain ⟨-, -, hid⟩ := hwritable
  have hevent : (between id.toList).feedLines [fieldLine "event" m.event.toList] =
      (⟨m.event.toList, [], id.toList, none⟩, []) :=
    feedLines_field (by decide) (by decide) _ _
  have hidentity :
      feedLines ⟨m.event.toList, [], id.toList, none⟩
          (m.id.toList.map fun id => fieldLine "id" id.toList) =
        (⟨m.event.toList, [], (m.id.getD id).toList, none⟩, []) := by
    cases hgiven : m.id with
    | none => rfl
    | some given =>
      have hnul : '\x00' ∉ given.toList := fun hmem => (hid given hgiven _ hmem).2.2 rfl
      have hfield := feedLines_field (show "id" ≠ "" by decide) (by decide)
        ⟨m.event.toList, [], id.toList, none⟩ given.toList
      simpa [field, hnul] using hfield
  have hretry :
      feedLines ⟨m.event.toList, [], (m.id.getD id).toList, none⟩
          (m.retry.toList.map fun ms => fieldLine "retry" (Numeral.digits ms.toNat)) =
        (⟨m.event.toList, [], (m.id.getD id).toList, m.retry⟩, []) := by
    cases m.retry with
    | none => rfl
    | some ms =>
      have hfield := feedLines_field (show "retry" ≠ "" by decide) (by decide)
        ⟨m.event.toList, [], (m.id.getD id).toList, none⟩ (Numeral.digits ms.toNat)
      simpa [field, retryOfValue?_digits] using hfield
  have hblank :
      feedLines
          ⟨m.event.toList, (pieces m.data.toList).reverse, (m.id.getD id).toList, m.retry⟩ [[]] =
        (between (m.id.getD id).toList, [.ofParts m.event m.data (m.id.getD id) m.retry]) := by
    obtain ⟨first, others, hpieces, -⟩ := pieces_eq m.data.toList
    have hsome : (pieces m.data.toList).reverse ≠ [] := by simp [hpieces]
    simp [feedLines, feed, push, dispatch, hsome, joinData_pieces, between]
  simp only [Message.lines, feedLines_append, hevent, hidentity, hretry, feedLines_data,
    List.append_nil, hblank]
  rfl

/-- The lines of messages are read as their frames. -/
theorem frames_feedLines {messages : List Message} (hwritable : ∀ m ∈ messages, m.Writable)
    (id : String) :
    ((between id.toList).feedLines (messages.flatMap Message.lines)).2 =
      Message.frames id messages := by
  induction messages generalizing id with
  | nil => rfl
  | cons m rest ih =>
    obtain ⟨hm, hrest⟩ := List.forall_mem_cons.1 hwritable
    rw [List.flatMap_cons, feedLines_append, feedLines_lines hm, ih hrest]
    rfl

end FrameReader

/-- A frame names its identity unless none or an empty one was given. -/
theorem Frame.ofParts_getD (event data : String) (given : Option String) (retry : Option UInt64) :
    Frame.ofParts event data (given.getD "") retry =
      ⟨if event = "" then "message" else event, data, given.filter (· ≠ ""), retry⟩ := by
  cases given with
  | none => rfl
  | some id => by_cases hid : id = "" <;> simp [Frame.ofParts, Option.filter, hid]

namespace Message

/-- The identity that messages gave last. -/
def lastId? (messages : List Message) : Option String := messages.reverse.findSome? Message.id

theorem lastId?_cons (m : Message) (rest : List Message) :
    lastId? (m :: rest) = (lastId? rest).or m.id := by
  rw [lastId?, List.reverse_cons, List.findSome?_append]
  simp [lastId?]

/-- Each message is one frame, with the identity that was given last up to it. -/
theorem getElem?_frames (inForce : String) (messages : List Message) (k : Nat) :
    (frames inForce messages)[k]? = messages[k]?.map fun m =>
      .ofParts m.event m.data ((lastId? (messages.take (k + 1))).getD inForce) m.retry := by
  induction messages generalizing inForce k with
  | nil => simp [frames]
  | cons m rest ih =>
    have hid : ∀ shown : List Message,
        (lastId? (m :: shown)).getD inForce = (lastId? shown).getD (m.id.getD inForce) := by
      intro shown
      rw [lastId?_cons]
      cases lastId? shown <;> rfl
    cases k with
    | zero =>
      simp only [frames, List.getElem?_cons_zero, Option.map_some, List.take_succ_cons,
        List.take_zero, hid]
      rfl
    | succ k =>
      simp only [frames, List.getElem?_cons_succ, ih, List.take_succ_cons, hid]

end Message

/-! ## Streams -/

/-- A piece is a part of the text without its line feeds. -/
theorem mem_pieces {text piece : List Char} (h : piece ∈ pieces text) {c : Char} (hc : c ∈ piece) :
    c ∈ text ∧ c ≠ '\n' := by
  induction text generalizing piece with
  | nil =>
    rw [pieces, List.mem_singleton] at h
    simp [h] at hc
  | cons d rest ih =>
    obtain ⟨first, others, hpieces, -⟩ := pieces_eq rest
    have hlater : ∀ other ∈ pieces rest, c ∈ other → c ∈ d :: rest ∧ c ≠ '\n' := by
      intro other hother hmem
      obtain ⟨htext, hfeed⟩ := ih hother hmem
      exact ⟨List.mem_cons_of_mem _ htext, hfeed⟩
    by_cases hd : d = '\n'
    · rw [pieces, if_pos hd] at h
      rcases List.mem_cons.1 h with rfl | h
      · simp at hc
      · exact hlater piece h hc
    · rw [pieces, if_neg hd, hpieces] at h
      rcases List.mem_cons.1 h with rfl | h
      · rcases List.mem_cons.1 hc with rfl | hc
        · exact ⟨List.mem_cons_self, hd⟩
        · exact hlater first (hpieces ▸ List.mem_cons_self) hc
      · exact hlater piece (hpieces ▸ List.mem_cons_of_mem _ h) hc

theorem fitsOnLine_fieldLine {name : String} (hname : FitsOnLine name.toList) {value : List Char}
    (hvalue : FitsOnLine value) : FitsOnLine (fieldLine name value) := by
  have hbetween : FitsOnLine [':', ' '] := by simp [FitsOnLine]
  exact fitsOnLine_append.2 ⟨hname, fitsOnLine_append.2 ⟨hbetween, hvalue⟩⟩

theorem fitsOnLine_digits (n : Nat) : FitsOnLine (Numeral.digits n) := by
  intro c hc
  have hdigit := Numeral.isDigit_of_mem_digits hc
  constructor
  · rintro rfl
    exact absurd hdigit (by decide)
  · rintro rfl
    exact absurd hdigit (by decide)

/-- A message that can be written has lines that can be written. -/
theorem fitsOnLine_lines {m : Message} (hwritable : m.Writable) :
    ∀ line ∈ m.lines, FitsOnLine line := by
  obtain ⟨hevent, hdata, hid⟩ := hwritable
  intro line hline
  simp only [Message.lines, List.mem_append, List.mem_singleton, List.mem_map] at hline
  rcases hline with (((rfl | ⟨id, hgiven, rfl⟩) | ⟨ms, -, rfl⟩) | ⟨piece, hpiece, rfl⟩) | rfl
  · exact fitsOnLine_fieldLine (by decide) hevent
  · refine fitsOnLine_fieldLine (by decide) fun c hc => ?_
    have hfits := hid id (Option.mem_toList.1 hgiven) c hc
    exact ⟨hfits.1, hfits.2.1⟩
  · exact fitsOnLine_fieldLine (by decide) (fitsOnLine_digits _)
  · refine fitsOnLine_fieldLine (by decide) fun c hc => ?_
    obtain ⟨htext, hfeed⟩ := mem_pieces hpiece hc
    exact ⟨hfeed, hdata c htext⟩
  · simp [FitsOnLine]

/-- A text of messages and comments does not start with a byte order mark. -/
theorem head?_textOfLines {messages : List Message} {lines : List (List Char)}
    (hlines : (lines.filter fun line => !isComment line) = messages.flatMap Message.lines)
    (ending : LineEnding) : (textOfLines ending lines).head? ≠ some Decoder.byteOrderMark := by
  cases lines with
  | nil => simp [textOfLines]
  | cons line rest =>
    have hstart : line.head? = some ':' ∨ line.head? = some 'e' := by
      by_cases hcomment : isComment line = true
      · exact .inl (by simpa [isComment] using hcomment)
      · rw [List.filter_cons_of_pos (by simp [hcomment])] at hlines
        cases messages with
        | nil => simp at hlines
        | cons m others =>
          have hfirst : line = fieldLine "event" m.event.toList := by
            simpa [Message.lines] using congrArg List.head? hlines
          exact .inr (by rw [hfirst]; rfl)
    have hhead : (textOfLines ending (line :: rest)).head? = line.head? := by
      cases line with
      | nil => simp at hstart
      | cons c after => rfl
    rw [hhead]
    rcases hstart with h | h <;> rw [h] <;> decide

/-- A text that does not start with a byte order mark is read whole. -/
theorem transcript_encode {text : List Char} (hmark : text.head? ≠ some Decoder.byteOrderMark) :
    transcript [.chunk (Utf8.encode text)] =
      ⟨(Decoder.start.feedChars text).2.map .frame, false⟩ := by
  have hbytes : Decoder.start.feedBytes (Utf8.encode text) =
      some (Decoder.start.feedChars text) := by
    simp [Decoder.feedBytes, Decoder.start, Utf8.feedBytes_encode, hmark]
  have hfinish : (Decoder.start.feedChars text).1.finish = [] := rfl
  simp only [transcript, Decoder.read, hbytes, hfinish, List.append_nil]

end LeaseBoard.Feed

namespace LeaseBoard

open LeaseBoard.Feed

/-- Messages that can be written come back as frames, one for each and in order, whatever comments
stand between their lines, whichever line ending they are written with, and however their bytes are cut
into chunks.  A frame has the identity that was given last up to its message. -/
theorem written_messages_come_back {messages : List Message}
    (hwritable : ∀ m ∈ messages, m.Writable) {lines : List (List Char)}
    (hlines : (lines.filter fun line => !isComment line) = messages.flatMap Message.lines)
    (hcomments : ∀ line ∈ lines, isComment line = true → FitsOnLine line) (ending : LineEnding)
    {cuts : List (List UInt8)}
    (hcuts : cuts.flatten = Utf8.encode (textOfLines ending lines)) :
    transcript (cuts.map .chunk) = ⟨(Message.frames "" messages).map .frame, false⟩ ∧
      ∀ k, (Message.frames "" messages)[k]? = messages[k]?.map fun m =>
        Frame.mk (if m.event = "" then "message" else m.event) m.data
          ((Message.lastId? (messages.take (k + 1))).filter (· ≠ "")) m.retry := by
  constructor
  · have hsame : SameStream (cuts.map .chunk) [.chunk cuts.flatten] := by
      rw [SameStream, List.flatMap_singleton, Item.bytewise, List.map_flatten, List.flatMap_map]
      rfl
    have hfit : ∀ line ∈ lines, FitsOnLine line := by
      intro line hline
      by_cases hcomment : isComment line = true
      · exact hcomments line hline hcomment
      · have hwritten : line ∈ messages.flatMap Message.lines := by
          rw [← hlines]
          exact List.mem_filter.2 ⟨hline, by simp [hcomment]⟩
        obtain ⟨m, hm, hmem⟩ := List.mem_flatMap.1 hwritten
        exact fitsOnLine_lines (hwritable m hm) line hmem
    have hframes : (FrameReader.start.feedLines lines).2 = Message.frames "" messages := by
      rw [← FrameReader.feedLines_without_comments, hlines]
      exact FrameReader.frames_feedLines hwritable ""
    rw [transcript_of_sameStream hsame, hcuts, transcript_encode (head?_textOfLines hlines ending)]
    have hread : (Decoder.start.feedChars (textOfLines ending lines)).2 =
        (FrameReader.start.feedLines lines).2 := by
      simp only [Decoder.feedChars, Decoder.start, feedChars_textOfLines hfit]
    rw [hread, hframes]
  · intro k
    rw [Message.getElem?_frames]
    exact congrArg (messages[k]?.map ·) (funext fun m => Frame.ofParts_getD _ _ _ _)

/-- Three messages: data of three lines, one of them empty; an identity that stays; an empty identity
and no name.  Comments stand before the first message and inside the second, and a cut lies inside a
character. -/
theorem written_messages_come_back_of_three :
    let messages : List Message :=
      [⟨"a: b", "1\n\n é", some "x", some 18446744073709551615⟩, ⟨"c", "", none, none⟩,
        ⟨"", " ", some "", none⟩]
    let lines : List (List Char) :=
      [":hi", "event: a: b", "id: x", "retry: 18446744073709551615", "data: 1", "data: ",
        "data:  é", "", "event: c", ":", "data: ", "", "event: ", "id: ", "data:  ", ""].map
        String.toList
    let bytes := Utf8.encode (textOfLines .both lines)
    Message.frames "" messages =
        [⟨"a: b", "1\n\n é", some "x", some 18446744073709551615⟩, ⟨"c", "", some "x", none⟩,
          ⟨"message", " ", none, none⟩] ∧
      transcript ([bytes.take 79, bytes.drop 79].map .chunk) =
        ⟨(Message.frames "" messages).map .frame, false⟩ := by
  intro messages lines bytes
  have hretry : Numeral.digits (18446744073709551615 : UInt64).toNat =
      "18446744073709551615".toList := by
    simp [Numeral.digits, Numeral.digit]
  have hlines : (lines.filter fun line => !isComment line) = messages.flatMap Message.lines := by
    simp only [messages, List.flatMap_cons, Message.lines, Option.toList_some, List.map_cons, hretry]
    decide
  have hwritable : ∀ m ∈ messages, m.Writable := by
    simp [messages, Message.Writable]
  have hcuts : [bytes.take 79, bytes.drop 79].flatten = bytes := by simp
  exact ⟨by decide, (written_messages_come_back hwritable hlines (by decide) .both hcuts).1⟩

end LeaseBoard
