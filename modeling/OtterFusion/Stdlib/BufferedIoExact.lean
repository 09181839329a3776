-- Which calls of a buffered reader and of a buffered writer lose no byte and repeat none: those
-- that fail with nothing taken, and those whose error leaves nothing behind.
import OtterFusion.Base.Runs
import OtterFusion.Stdlib.BufferedIo

open base.runs base.trapping base.utf8

namespace stdlib.io

/-! ## What a reader has before it -/

/-- The bytes that are read and not taken. -/
def BufReader.buffered (r : BufReader) : Data := r.buffer.drop r.pos

/-- The bytes that come before the inner reader fails or ends, and if it fails, what it appends
then. -/
def upcoming : List Answer → Data × Option Data
  | [] => ([], none)
  | .data bytes :: answers =>
    if bytes = [] then ([], none) else (bytes ++ (upcoming answers).1, (upcoming answers).2)
  | .fails appended _ :: _ => ([], some appended)

/-- The bytes that calls can take before one of them fails or finds no more. -/
def BufReader.ahead (r : BufReader) : Data × Option Data :=
  if r.eof then (r.buffered, none)
  else (r.buffered ++ (upcoming r.inner.answers).1, (upcoming r.inner.answers).2)

/-- What one `read_byte` does. -/
inductive TakesByte (r : BufReader) : Got × BufReader → Prop
  | byte {b : UInt8} {r' : BufReader} (new : Data)
      (stream : r'.inner.stream = r.inner.stream ++ new)
    (buffered : r.buffered ++ new = b :: r'.buffered)
    (ahead : r.ahead = (b :: r'.ahead.1, r'.ahead.2)) (left : r'.left < r.left) :
    TakesByte r (.byte b, r')
  | failed {e : IoError} {r' : BufReader} (lost : Data)
    (stream : r'.inner.stream = r.inner.stream ++ lost) (buffered : r.buffered = [])
    (after : r'.buffered = []) (ahead : r.ahead = ([], some lost)) : TakesByte r (.failed e, r')
  | ended {r' : BufReader} (stream : r'.inner.stream = r.inner.stream) (buffered : r.buffered = [])
    (after : r'.buffered = []) (ahead : r.ahead = ([], none)) : TakesByte r (.ended, r')

/-- What is in the buffer before the position is of no more use. -/
theorem buffered_nil {r : BufReader} (h : ¬ r.pos < r.buffer.length) : r.buffered = [] :=
  List.drop_of_length_le (Nat.not_lt.mp h)

/-- What the inner reader appends to the zeros of a request. -/
theorem slice_request (zeros bytes : Data) :
    slice (zeros ++ bytes) zeros.length (zeros ++ bytes).length = bytes := by
  rw [slice, List.take_length, List.drop_left]

/-- A reader with nothing in its buffer that is not at the end. -/
theorem readByte_empty {r : BufReader} (hpos : ¬ r.pos < r.buffer.length) (heof : ¬ r.eof = true) :
    TakesByte r r.readByte := by
  have hnil := buffered_nil hpos
  have hahead : r.ahead = upcoming r.inner.answers := by
    rw [BufReader.ahead, if_neg heof, hnil]
    rfl
  unfold BufReader.readByte BufReader.fill Inner.read
  rw [if_neg hpos, if_neg heof]
  rcases hanswers : r.inner.answers with _ | ⟨⟨bytes⟩ | ⟨appended, e⟩, answers⟩
  · refine .ended (by simp) hnil (by simp [BufReader.buffered, slice]) ?_
    rw [hahead, hanswers]
    rfl
  · rw [hanswers] at hahead
    rcases bytes with _ | ⟨b, bytes⟩
    · refine .ended (by simp) hnil (by simp [BufReader.buffered, slice]) ?_
      rw [hahead]
      rfl
    · have hslice : slice (List.replicate r.capacity 0 ++ b :: bytes) r.capacity
          (List.replicate r.capacity 0 ++ b :: bytes).length = b :: bytes := by
        simpa using slice_request (List.replicate r.capacity 0) (b :: bytes)
      have hn : ¬ (b :: bytes).length = 0 := by simp
      dsimp only
      rw [hslice, if_neg hn]
      refine .byte (b :: bytes) rfl ?_ ?_ ?_
      · rw [hnil]
        rfl
      · rw [hahead]
        simp [upcoming, BufReader.ahead, BufReader.buffered, heof]
      · simp only [BufReader.left, hanswers, List.map_cons, List.sum_cons, Answer.size,
          List.length_cons]
        omega
  · refine .failed _ rfl hnil hnil ?_
    rw [hahead, hanswers]
    rfl

theorem readByte_takes (r : BufReader) : TakesByte r r.readByte := by
  by_cases hpos : r.pos < r.buffer.length
  · obtain ⟨n, hn⟩ : ∃ n, r.buffer.length - r.pos = n + 1 :=
      Nat.exists_eq_succ_of_ne_zero (by omega)
    have hdrop : r.buffered = r.buffer[r.pos] :: r.buffer.drop (r.pos + 1) :=
      List.drop_eq_getElem_cons hpos
    have hbyte : r.readByte = (.byte r.buffer[r.pos], { r with pos := r.pos + 1 }) := by
      simp [BufReader.readByte, BufReader.fill, hpos, hn]
    rw [hbyte]
    have hstream : r.inner.stream = r.inner.stream ++ [] := (List.append_nil _).symm
    refine .byte [] hstream ?_ ?_ ?_
    · rw [List.append_nil, hdrop]
      rfl
    · unfold BufReader.ahead
      rw [hdrop]
      split <;> rfl
    · unfold BufReader.left
      dsimp only
      omega
  · by_cases heof : r.eof
    · have hnil := buffered_nil hpos
      unfold BufReader.readByte BufReader.fill
      rw [if_neg hpos, if_pos heof]
      refine .ended rfl hnil hnil ?_
      rw [BufReader.ahead, if_pos heof, hnil]
    · exact readByte_empty hpos heof

/-- What a loop over `read_byte` does: the bytes that it takes are the ones ahead, up to the first
place where they are enough. -/
inductive TakesBytes (enough : Data → Bool) (taken : Data) (r : BufReader) :
    Data → Outcome → BufReader → Prop
  | stopped {more : Data} {r' : BufReader} (new : Data)
      (stream : r'.inner.stream = r.inner.stream ++ new)
    (buffered : r.buffered ++ new = more ++ r'.buffered) (ahead : more <+: r.ahead.1)
    (last : enough (taken ++ more) = true)
    (first : ∀ p, p <+: more → p ≠ more → enough (taken ++ p) = false) :
    TakesBytes enough taken r more .stopped r'
  | failed {e : IoError} {more : Data} {r' : BufReader} (new lost : Data)
    (stream : r'.inner.stream = r.inner.stream ++ new)
    (buffered : r.buffered ++ new = more ++ lost) (after : r'.buffered = [])
    (ahead : r.ahead = (more, some lost)) (first : ∀ p, p <+: more → enough (taken ++ p) = false) :
    TakesBytes enough taken r more (.failed e) r'
  | ended {more : Data} {r' : BufReader} (new : Data)
      (stream : r'.inner.stream = r.inner.stream ++ new)
    (buffered : r.buffered ++ new = more) (after : r'.buffered = [])
    (ahead : r.ahead = (more, none)) (first : ∀ p, p <+: more → enough (taken ++ p) = false) :
    TakesBytes enough taken r more .ended r'

/-- Not enough before a byte, and not enough from there on. -/
theorem not_enough_cons {enough : Data → Bool} {taken more : Data} {b : UInt8} {P : Data → Prop}
    (h0 : ¬ enough taken = true)
    (h : ∀ p, p <+: more → P p → enough (taken ++ [b] ++ p) = false) :
    ∀ p, p <+: b :: more → (∀ q, p = b :: q → P q) → enough (taken ++ p) = false := by
  intro p hp hP
  cases p with
  | nil => simpa using h0
  | cons c p =>
    obtain ⟨rfl, hprefix⟩ := List.cons_prefix_cons.mp hp
    have hmore := h p hprefix (hP p rfl)
    rwa [List.append_assoc, List.singleton_append] at hmore

/-- The loop has a result when the fuel is more than what is left. -/
theorem readBytes_takes (enough : Data → Bool) {n : Nat} {r : BufReader} (taken : Data)
    (hn : r.left < n) : ∃ more outcome r',
      r.readBytes enough n taken = some (taken ++ more, outcome, r') ∧
        TakesBytes enough taken r more outcome r' := by
  induction n generalizing r taken with
  | zero => exact absurd hn (Nat.not_lt_zero _)
  | succ n ih =>
    rw [BufReader.readBytes]
    by_cases henough : enough taken
    · rw [if_pos henough]
      have hnone : ∀ p : Data, p <+: [] → p ≠ [] → enough (taken ++ p) = false :=
        fun p hp hne => absurd (List.prefix_nil.mp hp) hne
      refine ⟨[], .stopped, r, by rw [List.append_nil], ?_⟩
      exact .stopped [] (List.append_nil _).symm (by simp) List.nil_prefix
        (by rwa [List.append_nil]) hnone
    · rw [if_neg henough]
      have htakes := readByte_takes r
      generalize r.readByte = got at htakes ⊢
      cases htakes with
      | @byte b r₁ new stream buffered ahead left =>
        obtain ⟨more, outcome, r', hloop, hmore⟩ := ih (taken ++ [b]) (Nat.lt_of_lt_of_le left
          (Nat.lt_succ_iff.mp hn))
        refine ⟨b :: more, outcome, r', by simpa using hloop, ?_⟩
        cases hmore with
        | stopped new' stream' buffered' ahead' last first =>
          refine .stopped (new ++ new') ?_ ?_ ?_ ?_ ?_
          · rw [stream', stream, List.append_assoc]
          · rw [← List.append_assoc, buffered, List.cons_append, buffered', List.cons_append]
          · rw [ahead]
            exact List.cons_prefix_cons.mpr ⟨rfl, ahead'⟩
          · rwa [List.append_assoc, List.singleton_append] at last
          · intro p hp hne
            refine not_enough_cons (P := fun q => q ≠ more) henough first p hp ?_
            rintro q rfl rfl
            exact hne rfl
        | @failed e _ _ new' lost stream' buffered' after' ahead' first =>
          refine .failed (new ++ new') lost ?_ ?_ after' ?_ ?_
          · rw [stream', stream, List.append_assoc]
          · rw [← List.append_assoc, buffered, List.cons_append, buffered', List.cons_append]
          · rw [ahead, ahead']
          · intro p hp
            exact not_enough_cons (P := fun _ => True) henough (fun q hq _ => first q hq) p hp
              fun _ _ => trivial
        | ended new' stream' buffered' after' ahead' first =>
          refine .ended (new ++ new') ?_ ?_ after' ?_ ?_
          · rw [stream', stream, List.append_assoc]
          · rw [← List.append_assoc, buffered, List.cons_append, buffered']
          · rw [ahead, ahead']
          · intro p hp
            exact not_enough_cons (P := fun _ => True) henough (fun q hq _ => first q hq) p hp
              fun _ _ => trivial
      | @failed e r₁ lost stream buffered after ahead =>
        refine ⟨[], .failed e, r₁, by rw [List.append_nil], ?_⟩
        refine .failed _ _ stream (by simp [buffered]) after ahead fun p hp => ?_
        rw [List.prefix_nil.mp hp, List.append_nil]
        exact Bool.eq_false_of_not_eq_true henough
      | @ended r₁ stream buffered after ahead =>
        refine ⟨[], .ended, r₁, by rw [List.append_nil], ?_⟩
        refine .ended [] (by rw [stream, List.append_nil]) (by simp [buffered]) after ahead
          fun p hp => ?_
        rw [List.prefix_nil.mp hp, List.append_nil]
        exact Bool.eq_false_of_not_eq_true henough

/-! ## A reader and what it has delivered -/

structure Reading where
  reader : BufReader
  delivered : Data

inductive ReadCall
  | read (limit : Nat)
  | readByte
  | readLine
  | readToEnd

/-- The bytes of a text. -/
def bytesOf (text : Text) : Data := text.flatMap String.utf8EncodeChar

/-- What `read_byte` delivers. -/
def Got.delivered : Got → Data
  | .byte b => [b]
  | _ => []

/-- What `read_line` delivers. -/
def lineDelivered : Run IoError Text → Data
  | .value text => bytesOf text
  | _ => []

/-- A call, and the bytes that it delivers: those that it appends to the caller's buffer or returns.
-/
def readStep (s : Reading) : ReadCall → Option Reading
  | .read limit => (s.reader.read limit).map fun ((taken, _), r) => ⟨r, s.delivered ++ taken⟩
  | .readByte => some ⟨s.reader.readByte.2, s.delivered ++ s.reader.readByte.1.delivered⟩
  | .readLine => s.reader.readLine.map fun (line, r) => ⟨r, s.delivered ++ lineDelivered line⟩
  | .readToEnd => s.reader.readToEnd.map fun ((taken, _), r) => ⟨r, s.delivered ++ taken⟩

/-- A new reader on an inner reader that has been asked for nothing. -/
def ReadStart (s : Reading) : Prop :=
  ∃ capacity answers, s = ⟨.withCapacity capacity ⟨answers, []⟩, []⟩

/-- What is delivered is the inner stream up to what is still buffered. -/
def NothingDropped (s : Reading) : Prop :=
  s.reader.inner.stream = s.delivered ++ s.reader.buffered

/-- The bytes up to the first line feed, and with it. -/
def lineOf : Data → Data
  | [] => []
  | b :: bytes => if b = 10 then [b] else b :: lineOf bytes

/-- The bytes are UTF-8, and no more than a `Bytes` can have. -/
def Readable (line : Data) : Prop := line.length < 2 ^ 63 ∧ ∃ text, line = bytesOf text

/-- The inner reader does not append bytes at a call that fails. -/
def Harmless (next : Option Data) : Prop := ∀ lost, next = some lost → lost = []

/-- A call that drops no byte: an inner reader that fails appends nothing, and a line is readable
and is not broken off by an error. -/
def ProperRead (s : Reading) : ReadCall → Prop
  | .read limit => s.reader.ahead.1.length < limit → Harmless s.reader.ahead.2
  | .readByte => s.reader.ahead.1 = [] → Harmless s.reader.ahead.2
  | .readLine =>
    if 10 ∈ s.reader.ahead.1 then Readable (lineOf s.reader.ahead.1)
    else match s.reader.ahead.2 with
      | none => Readable s.reader.ahead.1
      | some lost => s.reader.ahead.1 = [] ∧ lost = []
  | .readToEnd => Harmless s.reader.ahead.2

theorem decodeLine_value {line : Data} {text : Text} :
    decodeLine line = .value text ↔ line.length < 2 ^ 63 ∧ line = bytesOf text := by
  have hoctets : textOctets text = (bytesOf text).map fun b => (b.toNat : Int) := by
    rw [bytesOf, List.map_flatMap]
    exact List.flatMap_congr fun c _ => octets_eq c
  have hinj : Function.Injective fun b : UInt8 => (b.toNat : Int) :=
    fun a b h => UInt8.toNat_inj.mp (Int.ofNat_inj.mp h)
  have hdecode : decodeLine line = .value text ↔ decode line = .value text := by
    unfold decodeLine
    cases decode line <;> simp
  rw [hdecode]
  unfold decode
  split
  next h =>
    rw [bytes.decodeUtf8_value]
    dsimp only
    rw [hoctets, (List.map_injective_iff.mpr hinj).eq_iff]
    exact ⟨fun heq => ⟨h, heq⟩, fun hboth => hboth.2⟩
  next h => exact iff_of_false (fun heq => by cases heq) fun hboth => h hboth.1

/-- A line that is readable is delivered, and of another one nothing is. -/
theorem lineDelivered_decodeLine (line : Data) :
    Readable line ∧ lineDelivered (decodeLine line) = line ∨
      ¬ Readable line ∧ lineDelivered (decodeLine line) = [] := by
  by_cases h : Readable line
  · obtain ⟨hlength, text, rfl⟩ := id h
    refine .inl ⟨h, ?_⟩
    rw [decodeLine_value.mpr ⟨hlength, rfl⟩]
    rfl
  · refine .inr ⟨h, ?_⟩
    cases hdecode : decodeLine line with
    | value text =>
      obtain ⟨hlength, hline⟩ := decodeLine_value.mp hdecode
      exact absurd ⟨hlength, text, hline⟩ h
    | error e => rfl
    | trap t => rfl

theorem readable_nil : Readable [] := ⟨by simp, [], rfl⟩

/-- The bytes that a loop takes up to a line feed are a line. -/
theorem lineOf_eq {line bytes : Data} (h : line <+: bytes) (hlast : line.getLast? = some 10)
    (hfirst : ∀ p, p <+: line → p ≠ line → p.getLast? ≠ some 10) :
    10 ∈ bytes ∧ lineOf bytes = line := by
  induction line generalizing bytes with
  | nil => simp at hlast
  | cons b line ih =>
    obtain ⟨rest, rfl⟩ := h
    rw [List.cons_append, lineOf]
    by_cases hline : line = []
    · subst hline
      have hb : b = 10 := by simpa using hlast
      rw [if_pos hb, hb]
      exact ⟨List.mem_cons_self, rfl⟩
    · have hb : b ≠ 10 := by
        rintro rfl
        refine hfirst [10] (List.prefix_append [10] line) ?_ rfl
        simpa using Ne.symm hline
      have htail : line.getLast? = some 10 := by
        rwa [List.getLast?_cons_of_ne_nil hline] at hlast
      obtain ⟨hmem, hih⟩ := ih (List.prefix_append line rest) htail fun p hp hne hp10 => by
        have hpne : p ≠ [] := by
          rintro rfl
          simp at hp10
        refine hfirst (b :: p) (List.cons_prefix_cons.mpr ⟨rfl, hp⟩) ?_ ?_
        · simpa using hne
        · rw [List.getLast?_cons_of_ne_nil hpne, hp10]
      rw [if_neg hb, hih]
      exact ⟨List.mem_cons_of_mem b hmem, rfl⟩

/-- Bytes of which no part ends with a line feed have none. -/
theorem lf_not_mem {bytes : Data} (h : ∀ p, p <+: bytes → p.getLast? ≠ some 10) : 10 ∉ bytes := by
  intro hmem
  obtain ⟨a, b, rfl⟩ := List.append_of_mem hmem
  exact h (a ++ [10]) ⟨b, by simp⟩ (by simp)

variable {s t : Reading}

/-- The stream after a call, in terms of what was taken and what was appended in vain. -/
theorem whole_iff (h : NothingDropped s) {r' : BufReader} {new delivered : Data} (more lost : Data)
    (hstream : r'.inner.stream = s.reader.inner.stream ++ new)
    (hbuffered : s.reader.buffered ++ new = more ++ (lost ++ r'.buffered)) :
    NothingDropped ⟨r', s.delivered ++ delivered⟩ ↔ more ++ lost = delivered := by
  unfold NothingDropped
  dsimp only
  rw [hstream, h, List.append_assoc, hbuffered, List.append_assoc, List.append_cancel_left_eq,
    ← List.append_assoc, List.append_cancel_right_eq]

/-- A loop whose bytes are all delivered drops what the inner reader appends when it fails, if the
loop gets that far. -/
theorem counted_iff (h : NothingDropped s) {enough : Data → Bool} {more : Data} {outcome : Outcome}
    {r' : BufReader} (htakes : TakesBytes enough [] s.reader more outcome r') :
    NothingDropped ⟨r', s.delivered ++ more⟩ ↔
      ((∀ p, p <+: s.reader.ahead.1 → enough p = false) → Harmless s.reader.ahead.2) := by
  cases htakes with
  | stopped new stream buffered ahead last first =>
    rw [whole_iff h _ [] stream (by simpa using buffered), List.append_nil]
    refine iff_of_true rfl fun hnone => ?_
    rw [List.nil_append, hnone _ ahead] at last
    cases last
  | @failed e _ _ new lost stream buffered after ahead first =>
    rw [whole_iff h _ _ stream (by rw [buffered, after, List.append_nil]), ahead]
    constructor
    · intro hlost _ lost' hlost'
      cases hlost'
      simpa using hlost
    · intro hharmless
      rw [hharmless first lost rfl, List.append_nil]
  | ended new stream buffered after ahead first =>
    rw [whole_iff h more [] stream (by simp [buffered, after]), List.append_nil,
      ahead]
    refine iff_of_true rfl fun _ lost hlost => ?_
    cases hlost

/-- No part of the bytes is as long as a number, exactly when they are shorter. -/
theorem short_iff (bytes : Data) (limit : Nat) :
    (∀ p, p <+: bytes → decide (limit ≤ p.length) = false) ↔ bytes.length < limit := by
  constructor
  · intro h
    have hall := h bytes List.prefix_rfl
    simpa using hall
  · intro h p hp
    have hle := hp.length_le
    exact decide_eq_false (by omega)

/-- A line that is taken is delivered exactly when it is readable. -/
theorem line_iff (h : NothingDropped s) {r' : BufReader} {new line : Data}
    (hstream : r'.inner.stream = s.reader.inner.stream ++ new)
    (hbuffered : s.reader.buffered ++ new = line ++ r'.buffered) :
    NothingDropped ⟨r', s.delivered ++ lineDelivered (decodeLine line)⟩ ↔ Readable line := by
  rw [whole_iff h line [] hstream (by simpa using hbuffered), List.append_nil]
  rcases lineDelivered_decodeLine line with ⟨hreadable, hdelivered⟩ | ⟨hnot, hdelivered⟩
  · rw [hdelivered]
    exact iff_of_true rfl hreadable
  · rw [hdelivered]
    exact iff_of_false (fun hnil => hnot (hnil ▸ readable_nil)) hnot

/-- Each call returns. -/
theorem readStep_isSome (s : Reading) (call : ReadCall) : (readStep s call).isSome := by
  cases call with
  | readByte => rfl
  | read limit =>
    obtain ⟨more, outcome, r', hloop, -⟩ := readBytes_takes (fun taken => limit ≤ taken.length)
      (n := s.reader.left + 1) (r := s.reader) [] (Nat.lt_succ_self _)
    simp [readStep, BufReader.read, hloop]
  | readLine =>
    obtain ⟨more, outcome, r', hloop, -⟩ := readBytes_takes
      (fun taken => taken.getLast? = some 10) (n := s.reader.left + 1) (r := s.reader) []
      (Nat.lt_succ_self _)
    simp [readStep, BufReader.readLine, hloop]
  | readToEnd =>
    obtain ⟨more, outcome, r', hloop, -⟩ := readBytes_takes (fun _ => false)
      (n := s.reader.left + 1) (r := s.reader) [] (Nat.lt_succ_self _)
    simp [readStep, BufReader.readToEnd, hloop]

/-- A call drops a byte exactly when it is not proper. -/
theorem readStep_iff {call : ReadCall} (h : NothingDropped s) (hstep : readStep s call = some t) :
    NothingDropped t ↔ ProperRead s call := by
  cases call with
  | read limit =>
    obtain ⟨more, outcome, r', hloop, htakes⟩ := readBytes_takes (fun taken => limit ≤ taken.length)
      (n := s.reader.left + 1) (r := s.reader) [] (Nat.lt_succ_self _)
    have ht : t = ⟨r', s.delivered ++ more⟩ := by
      rw [readStep, BufReader.read, hloop] at hstep
      cases outcome <;> cases hstep <;> rfl
    rw [ht, counted_iff h htakes, short_iff]
    rfl
  | readByte =>
    cases hstep
    have htakes := readByte_takes s.reader
    unfold ProperRead
    generalize s.reader.readByte = got at htakes ⊢
    cases htakes with
    | @byte b r' new stream buffered ahead left =>
      rw [whole_iff h [b] [] stream (by simpa using buffered), List.append_nil,
        ahead]
      exact iff_of_true rfl fun hnil => by cases hnil
    | @failed e r' lost stream buffered after ahead =>
      rw [whole_iff h [] lost stream (by simp [buffered, after]), ahead]
      constructor
      · intro hlost _ lost' hlost'
        cases hlost'
        exact hlost
      · intro hharmless
        exact hharmless rfl lost rfl
    | ended stream buffered after ahead =>
      rw [@whole_iff _ h _ [] _ [] [] (by simpa using stream)
        (by simp [buffered, after]), ahead]
      refine iff_of_true rfl fun _ lost hlost => ?_
      cases hlost
  | readLine =>
    obtain ⟨line, outcome, r', hloop, htakes⟩ := readBytes_takes
      (fun taken => taken.getLast? = some 10) (n := s.reader.left + 1) (r := s.reader) []
      (Nat.lt_succ_self _)
    rw [readStep, BufReader.readLine, hloop] at hstep
    unfold ProperRead
    cases htakes with
    | stopped new stream buffered ahead last first =>
      cases hstep
      obtain ⟨hmem, hline⟩ := lineOf_eq ahead (of_decide_eq_true last) fun p hp hne =>
        of_decide_eq_false (first p hp hne)
      rw [if_pos hmem, hline]
      exact line_iff h stream buffered
    | @failed e _ _ new lost stream buffered after ahead first =>
      cases hstep
      have hmem : 10 ∉ s.reader.ahead.1 := by
        rw [ahead]
        exact lf_not_mem fun p hp => of_decide_eq_false (first p hp)
      rw [if_neg hmem, ahead]
      have hwhole := @whole_iff s h r' new [] line lost stream (by
        rw [buffered, after, List.append_nil])
      exact hwhole.trans List.append_eq_nil_iff
    | ended new stream buffered after ahead first =>
      cases hstep
      have hmem : 10 ∉ s.reader.ahead.1 := by
        rw [ahead]
        exact lf_not_mem fun p hp => of_decide_eq_false (first p hp)
      rw [if_neg hmem, ahead]
      exact @line_iff s h r' _ line stream (by rw [buffered, after, List.append_nil])
  | readToEnd =>
    obtain ⟨more, outcome, r', hloop, htakes⟩ := readBytes_takes (fun _ => false)
      (n := s.reader.left + 1) (r := s.reader) [] (Nat.lt_succ_self _)
    have ht : t = ⟨r', s.delivered ++ more⟩ := by
      rw [readStep, BufReader.readToEnd, hloop] at hstep
      cases outcome <;> cases hstep <;> rfl
    rw [ht, counted_iff h htakes]
    exact ⟨fun hharmless => hharmless fun _ _ => rfl, fun hharmless _ => hharmless⟩

/-! ## A writer and what it has passed on -/

/-- A writer, the bytes that it has passed on, and those of the writes that were successful. -/
structure Writing where
  writer : BufWriter
  passed : Data
  accepted : Data

inductive WriteCall
  | write (buf : Data)
  | writeAll (buf : Data)
  | flush

/-- The bytes of a write that is successful. -/
def acceptedBytes {A : Type} (result : Except IoError A) (buf : Data) : Data :=
  match result with
  | .ok _ => buf
  | .error _ => []

/-- A call, with what the inner writer does at it. -/
def writeStep (s : Writing) : WriteCall × WriterIo → Option Writing
  | (.write buf, io) =>
    let (result, writer, passed) := s.writer.write buf io
    some ⟨writer, s.passed ++ passed, s.accepted ++ acceptedBytes result buf⟩
  | (.writeAll buf, io) =>
    let (result, writer, passed) := s.writer.writeAll buf io
    some ⟨writer, s.passed ++ passed, s.accepted ++ acceptedBytes result buf⟩
  | (.flush, io) =>
    let (_, writer, passed) := s.writer.flush io
    some ⟨writer, s.passed ++ passed, s.accepted⟩

/-- A new writer. -/
def WriteStart (s : Writing) : Prop := ∃ capacity, s = ⟨.withCapacity capacity, [], []⟩

/-- What is accepted is what is passed on and what is buffered, each byte once and in order. -/
def AcceptedOnce (s : Writing) : Prop := s.accepted = s.passed ++ s.writer.buffer

/-- `write_all` of the inner writer passes no byte when it fails. -/
def PassesAll (io : WriterIo) : Prop := ∀ n e, io.writeAll = some (n, e) → n = 0

/-- A write that flushes adds nothing when the flush fails. -/
def ProperWriteOf (w : BufWriter) (buf : Data) (io : WriterIo) : Prop :=
  w.buffer ++ buf ≠ [] → w.capacity ≤ (w.buffer ++ buf).length →
    PassesAll io ∧ ((io.writeAll ≠ none ∨ io.flush ≠ none) → buf = [])

/-- A call that adds no byte when it fails, and at which the inner writer passes all bytes or none.
-/
def ProperWrite (s : Writing) : WriteCall × WriterIo → Prop
  | (.write buf, io) => ProperWriteOf s.writer buf io
  | (.writeAll buf, io) => ProperWriteOf s.writer buf io
  | (.flush, io) => s.writer.buffer ≠ [] → PassesAll io

variable {w w' : BufWriter} {io : WriterIo} {passed : Data} {p q : Writing}

/-- What a flush does: nothing is buffered; or the inner writer fails, with some bytes passed on; or
all of them are. -/
theorem flush_cases {result : Except IoError Unit} (h : w.flush io = (result, w', passed)) :
    (w.buffer = [] ∧ result = returned io.flush ∧ w' = w ∧ passed = []) ∨
    (w.buffer ≠ [] ∧ ∃ n e, io.writeAll = some (n, e) ∧ result = .error e ∧ w' = w ∧
      passed = w.buffer.take n) ∨
    (w.buffer ≠ [] ∧ io.writeAll = none ∧ result = returned io.flush ∧
      w' = { w with buffer := [] } ∧ passed = w.buffer) := by
  unfold BufWriter.flush at h
  split at h
  next hnil =>
    cases h
    exact .inl ⟨hnil, rfl, rfl, rfl⟩
  next hne =>
    split at h
    next n e hwrite =>
      cases h
      exact .inr (.inl ⟨hne, n, e, hwrite, rfl, rfl, rfl⟩)
    next hwrite =>
      cases h
      exact .inr (.inr ⟨hne, hwrite, rfl, rfl, rfl⟩)

/-- No bytes and none of them: what a writer that repeats the beginning of its buffer has not added.
-/
theorem repeated_iff (before kept more : Data) (n : Nat) (hne : kept ++ more ≠ []) :
    before ++ kept = before ++ (kept ++ more).take n ++ (kept ++ more) ↔ n = 0 ∧ more = [] := by
  constructor
  · intro h
    have hlength := congrArg List.length h
    simp only [List.length_append, List.length_take] at hlength
    have hpos : 0 < (kept ++ more).length := List.length_pos_iff.mpr hne
    rw [List.length_append] at hpos
    exact ⟨by omega, List.eq_nil_of_length_eq_zero (by omega)⟩
  · rintro ⟨rfl, rfl⟩
    simp

theorem passesAll_iff {n : Nat} {e : IoError} (h : io.writeAll = some (n, e)) :
    PassesAll io ↔ n = 0 := by
  constructor
  · exact fun hall => hall n e h
  · rintro rfl n e hsome
    rw [h] at hsome
    cases hsome
    rfl

/-- A flush keeps the bytes in order, unless the inner writer passes some of them and fails. -/
theorem flush_iff {result : Except IoError Unit} (h : AcceptedOnce p)
    (hflush : p.writer.flush io = (result, w', passed)) :
    AcceptedOnce ⟨w', p.passed ++ passed, p.accepted⟩ ↔
      (p.writer.buffer ≠ [] → PassesAll io) := by
  unfold AcceptedOnce at h ⊢
  dsimp only
  rw [h]
  rcases flush_cases hflush with ⟨hnil, -, rfl, rfl⟩ | ⟨hne, n, e, hwrite, -, rfl, rfl⟩ |
    ⟨hne, hwrite, -, rfl, rfl⟩
  · exact iff_of_true (by rw [List.append_nil]) fun hne => absurd hnil hne
  · have hrepeated := repeated_iff p.passed p.writer.buffer [] n
      (by rwa [List.append_nil])
    rw [List.append_nil] at hrepeated
    rw [hrepeated, passesAll_iff hwrite]
    exact ⟨fun hboth _ => hboth.1, fun hzero => ⟨hzero hne, rfl⟩⟩
  · refine iff_of_true (by simp) fun _ n e hsome => ?_
    rw [hwrite] at hsome
    cases hsome

/-- A write keeps the bytes once and in order exactly when it is proper. -/
theorem write_iff {result : Except IoError Nat} {buf : Data} (h : AcceptedOnce p)
    (hwrite : p.writer.write buf io = (result, w', passed)) :
    AcceptedOnce ⟨w', p.passed ++ passed, p.accepted ++ acceptedBytes result buf⟩ ↔
      ProperWriteOf p.writer buf io := by
  unfold AcceptedOnce at h ⊢
  unfold ProperWriteOf
  dsimp only
  rw [h]
  unfold BufWriter.write at hwrite
  dsimp only at hwrite
  split at hwrite
  next hcapacity =>
    generalize hflush : BufWriter.flush _ io = flushed at hwrite
    obtain ⟨result', w₁, passed'⟩ := flushed
    rcases flush_cases hflush with ⟨hnil, rfl, rfl, rfl⟩ | ⟨hne, n, e, hfails, rfl, rfl, rfl⟩ |
      ⟨hne, hall, rfl, rfl, rfl⟩
    · dsimp only at hnil
      obtain ⟨hbuffer, rfl⟩ := List.append_eq_nil_iff.mp hnil
      refine iff_of_true ?_ fun hne => absurd hnil hne
      cases hio : io.flush <;> rw [hio] at hwrite <;> cases hwrite <;> simp [acceptedBytes]
    · cases hwrite
      dsimp only [acceptedBytes] at hne ⊢
      rw [List.append_nil, repeated_iff _ _ _ _ hne, passesAll_iff hfails]
      constructor
      · rintro ⟨hzero, hnil⟩ _ _
        exact ⟨hzero, fun _ => hnil⟩
      · intro hproper
        obtain ⟨hzero, hnil⟩ := hproper hne hcapacity
        exact ⟨hzero, hnil (.inl (by rw [hfails]; exact Option.some_ne_none _))⟩
    · have hpasses : PassesAll io := fun n e hsome => by
        rw [hall] at hsome
        cases hsome
      cases hio : io.flush with
      | none =>
        rw [hio] at hwrite
        cases hwrite
        refine iff_of_true (by simp [acceptedBytes]) fun _ _ => ⟨hpasses, ?_⟩
        rintro (hne' | hne')
        · exact absurd hall hne'
        · exact absurd rfl hne'
      | some e =>
        rw [hio] at hwrite
        cases hwrite
        dsimp only [acceptedBytes] at hne ⊢
        rw [List.append_nil, List.append_nil, List.append_cancel_left_eq]
        constructor
        · intro hnil _ _
          exact ⟨hpasses, fun _ => List.self_eq_append_right.mp hnil⟩
        · intro hproper
          have hnil := (hproper hne hcapacity).2 (.inr (Option.some_ne_none e))
          rw [hnil, List.append_nil]
  next hcapacity =>
    cases hwrite
    refine iff_of_true ?_ fun _ hle => absurd hle hcapacity
    simp [acceptedBytes]

/-- A call passes a byte on twice, or one that is not accepted, or leaves one of these in the
buffer, exactly when it is not proper. -/
theorem writeStep_iff {l : WriteCall × WriterIo} (h : AcceptedOnce p)
    (hstep : writeStep p l = some q) : AcceptedOnce q ↔ ProperWrite p l := by
  obtain ⟨call, io⟩ := l
  cases call with
  | write buf =>
    cases hstep
    exact write_iff h rfl
  | writeAll buf =>
    cases hstep
    generalize hwrite : p.writer.write buf io = written
    obtain ⟨result, w', passed⟩ := written
    have hiff := write_iff h hwrite
    cases result with
    | ok n => exact hiff
    | error e => exact hiff
  | flush =>
    cases hstep
    exact flush_iff h rfl

/-! ## Both -/

/-- Buffered reading: in each run whose calls are proper no byte is dropped; a call drops one
exactly when it is not proper; and each call returns. Buffered writing: in each run whose calls are
proper the accepted bytes are passed on once and in order, or are buffered; and a call breaks that
exactly when it is not proper. -/
theorem buffered_io_iff (s : Reading) (p : Writing) :
    (Reaches readStep ReadStart ProperRead s → NothingDropped s) ∧
    (∀ call t, NothingDropped s → readStep s call = some t →
      (NothingDropped t ↔ ProperRead s call)) ∧
    (∀ call, (readStep s call).isSome) ∧
    (Reaches writeStep WriteStart ProperWrite p → AcceptedOnce p) ∧
    ∀ call q, AcceptedOnce p → writeStep p call = some q →
      (AcceptedOnce q ↔ ProperWrite p call) := by
  refine ⟨fun h => ?_, fun call t => readStep_iff, readStep_isSome s, fun h => ?_,
    fun call q => writeStep_iff⟩
  · refine h.invariant ?_ fun _ _ _ hs hproper hstep => (readStep_iff hs hstep).mpr hproper
    rintro _ ⟨capacity, answers, rfl⟩
    rfl
  · refine h.invariant ?_ fun _ _ _ hp hproper hstep => (writeStep_iff hp hstep).mpr hproper
    rintro _ ⟨capacity, rfl⟩
    rfl

/-- A line is taken, and then a byte before the inner reader fails; and a write that is kept in the
buffer is flushed with the one after it. -/
theorem a_line_and_a_flush_lose_nothing :
    (∃ s, Reaches readStep ReadStart ProperRead s ∧ s.delivered = [97, 10, 98] ∧
      NothingDropped s) ∧
    ∃ p, Reaches writeStep WriteStart ProperWrite p ∧ p.passed = [97, 98] ∧ AcceptedOnce p := by
  let failure : IoError := ⟨.interrupted, ""⟩
  let reader : Reading := ⟨.withCapacity 8 ⟨[.data [97, 10, 98], .fails [] failure], []⟩, []⟩
  let writer : Writing := ⟨.withCapacity 2, [], []⟩
  have hopened : Reaches readStep ReadStart ProperRead reader := .start ⟨8, _, rfl⟩
  have hreadable : Readable [97, 10] := ⟨by decide, ['a', '\n'], by decide⟩
  let taken : Reading :=
    ⟨⟨⟨[.fails [] failure], [97, 10, 98]⟩, [97, 10, 98], 2, 8, false⟩, [97, 10]⟩
  have hdecode : decodeLine [97, 10] = .value ['a', '\n'] := decodeLine_value.mpr (by decide)
  have hstep : readStep reader .readLine = some taken := by
    change some (Reading.mk _ (lineDelivered (decodeLine [97, 10]))) = _
    rw [hdecode]
    rfl
  have hline := hopened.next (show ProperRead reader .readLine from hreadable) hstep
  have hproper : ProperRead taken .readByte := fun hnil => absurd hnil (by decide)
  have hbyte := hline.next hproper rfl
  have hmade : Reaches writeStep WriteStart ProperWrite writer := .start ⟨2, rfl⟩
  let kept : Writing := ⟨⟨[97], 2⟩, [], [97]⟩
  have hfits : ProperWrite writer (.write [97], ⟨some (0, failure), none⟩) :=
    fun _ hfull => absurd hfull (by decide)
  have hpasses : ProperWrite kept (.write [98], ⟨none, none⟩) :=
    fun _ _ => ⟨nofun, fun hfails => absurd hfails (by simp)⟩
  have hkept : Reaches writeStep WriteStart ProperWrite kept := hmade.next hfits rfl
  have hflushed := hkept.next hpasses rfl
  obtain ⟨hread, -, -, hwrite, -⟩ := buffered_io_iff _ _
  exact ⟨⟨_, hbyte, rfl, hread hbyte⟩, _, hflushed, rfl, hwrite hflushed⟩

/-- A reader that fails after the first byte of a line: `read_line` drops the byte. And a write
whose flush fails leaves its byte in the buffer, and the next flush passes it on. -/
theorem errors_drop_and_keep :
    (∃ s, Reachable readStep ReadStart s ∧ ¬ NothingDropped s) ∧
      ∃ p, Reachable writeStep WriteStart p ∧ p.accepted = [] ∧ p.passed = [97] := by
  let failure : IoError := ⟨.interrupted, ""⟩
  constructor
  · let start : Reading := ⟨.withCapacity 8 ⟨[.data [97], .fails [] failure], []⟩, []⟩
    have hreach : Reachable readStep ReadStart start := .start ⟨8, _, rfl⟩
    refine ⟨_, hreach.next (l := .readLine) trivial rfl, ?_⟩
    unfold NothingDropped
    decide
  · let start : Writing := ⟨.withCapacity 1, [], []⟩
    have hreach : Reachable writeStep WriteStart start := .start ⟨1, rfl⟩
    have hwrite := hreach.next (l := (.write [97], ⟨some (0, failure), none⟩)) trivial rfl
    exact ⟨_, hwrite.next (l := (.flush, ⟨none, none⟩)) trivial rfl, rfl, rfl⟩

end stdlib.io
