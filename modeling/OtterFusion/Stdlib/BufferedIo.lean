-- `BufReader` and `BufWriter` (`std/io.otter`) over any inner reader and writer: what each call
-- reads, passes on and keeps, and what it does when the inner one fails.
import OtterFusion.Stdlib.Bytes

open base.trapping

namespace stdlib.io

/-- The bytes of a `Bytes`. -/
abbrev Data := List UInt8

inductive IoErrorKind
  | notFound
  | permissionDenied
  | connectionRefused
  | ioTimedOut
  | unexpectedEof
  | interrupted
  | otherIo
  deriving DecidableEq

structure IoError where
  kind : IoErrorKind
  message : String
  deriving DecidableEq

/-- `__io_error`. -/
def ioError (message : String) : IoError := ⟨.otherIo, message⟩

/-- `Bytes.slice`. -/
def slice (data : Data) (start stop : Nat) : Data := (data.take stop).drop start

/-! ## Readers -/

/-- What an inner reader does at a call: it appends bytes and returns their number, or it appends
bytes and fails. -/
inductive Answer
  | data (bytes : Data)
  | fails (appended : Data) (error : IoError)

/-- An inner reader: what it does at the calls to come, and all bytes that it has appended. At the
end of its answers it appends nothing. -/
structure Inner where
  answers : List Answer
  stream : Data

/-- `Reader.read` of the inner reader, on a buffer. -/
def Inner.read (inner : Inner) (buf : Data) : Data × Except IoError Nat × Inner :=
  match inner.answers with
  | [] => (buf, .ok 0, inner)
  | .data bytes :: answers => (buf ++ bytes, .ok bytes.length, ⟨answers, inner.stream ++ bytes⟩)
  | .fails bytes e :: answers => (buf ++ bytes, .error e, ⟨answers, inner.stream ++ bytes⟩)

structure BufReader where
  inner : Inner
  buffer : Data
  pos : Nat
  capacity : Nat
  eof : Bool

/-- The capacity of `with_capacity`. -/
def capacityOf (capacity : Int) : Nat := if capacity ≤ 0 then 8192 else capacity.toNat

/-- `BufReader.with_capacity`. -/
def BufReader.withCapacity (capacity : Int) (inner : Inner) : BufReader :=
  ⟨inner, [], 0, capacityOf capacity, false⟩

/-- `BufReader.fill`. -/
def BufReader.fill (r : BufReader) : Except IoError Nat × BufReader :=
  if r.pos < r.buffer.length then (.ok (r.buffer.length - r.pos), r)
  else if r.eof then (.ok 0, r)
  else
    match r.inner.read (List.replicate r.capacity 0) with
    | (_, .error e, inner) => (.error e, { r with inner })
    | (request, .ok n, inner) =>
      let r := { r with inner, buffer := slice request r.capacity request.length, pos := 0 }
      (.ok n, if n = 0 then { r with eof := true } else r)

/-- What `read_byte` returns. -/
inductive Got
  | byte (b : UInt8)
  | failed (e : IoError)
  | ended

/-- `BufReader.read_byte`. -/
def BufReader.readByte (r : BufReader) : Got × BufReader :=
  match r.fill with
  | (.error e, r) => (.failed e, r)
  | (.ok 0, r) => (.ended, r)
  | (.ok _, r) =>
    match r.buffer[r.pos]? with
    | some b => (.byte b, { r with pos := r.pos + 1 })
    | none => (.ended, r)

/-- How a loop over `read_byte` ends. -/
inductive Outcome
  | stopped
  | failed (e : IoError)
  | ended

/-- A loop over `read_byte`: it takes bytes until they are enough, the reader fails or there are no
more. Without fuel there is no result. -/
def BufReader.readBytes (enough : Data → Bool) :
    Nat → BufReader → Data → Option (Data × Outcome × BufReader)
  | 0, _, _ => none
  | n + 1, r, taken =>
    if enough taken then some (taken, .stopped, r)
    else match r.readByte with
      | (.failed e, r) => some (taken, .failed e, r)
      | (.ended, r) => some (taken, .ended, r)
      | (.byte b, r) => r.readBytes enough n (taken ++ [b])

/-- The bytes of an answer that can be taken. -/
def Answer.size : Answer → Nat
  | .data bytes => bytes.length
  | .fails _ _ => 0

/-- The bytes that a reader can still take, as fuel. -/
def BufReader.left (r : BufReader) : Nat :=
  r.buffer.length - r.pos + (r.inner.answers.map Answer.size).sum

/-- What is returned by a call: a number of bytes or the error, with the bytes that are appended to
the caller's buffer. -/
abbrev ReadResult := Data × Except IoError Nat

/-- The bytes appended by a loop, and what it returns. -/
def counted : Data × Outcome × BufReader → ReadResult × BufReader
  | (taken, .failed e, r) => ((taken, .error e), r)
  | (taken, _, r) => ((taken, .ok taken.length), r)

/-- `BufReader.read`, on a buffer of this size. -/
def BufReader.read (r : BufReader) (limit : Nat) : Option (ReadResult × BufReader) :=
  (r.readBytes (fun taken => limit ≤ taken.length) (r.left + 1) []).map counted

/-- `BufReader.read_to_end`. -/
def BufReader.readToEnd (r : BufReader) : Option (ReadResult × BufReader) :=
  (r.readBytes (fun _ => false) (r.left + 1) []).map counted

/-- `decode_utf8` of bytes. -/
def decode (data : Data) : bytes.Decode Text :=
  if h : data.length < 2 ^ 63 then
    bytes.Bytes.decodeUtf8 {
      data := data.map fun b => (b.toNat : Int)
      isByte := by
        intro b hb
        obtain ⟨u, _, rfl⟩ := List.mem_map.mp hb
        have := u.toNat_lt
        omega
      fits := by rwa [List.length_map] }
  else .trap .overflow

/-- The text of a line that is taken, or the error of `read_line`. A line that is too long for a
`Bytes` traps. -/
def decodeLine (line : Data) : Run IoError Text :=
  match decode line with
  | .value text => .value text
  | .error e => .error (ioError e.message)
  | .trap t => .trap t

/-- What `read_line` returns after its loop. -/
def decoded : Data × Outcome × BufReader → Run IoError Text × BufReader
  | (_, .failed e, r) => (.error e, r)
  | (line, _, r) => (decodeLine line, r)

/-- `BufReader.read_line`. -/
def BufReader.readLine (r : BufReader) : Option (Run IoError Text × BufReader) :=
  (r.readBytes (fun taken => taken.getLast? = some 10) (r.left + 1) []).map decoded

/-! ## Writers -/

/-- What an inner writer does at a call: `write_all` passes all bytes, or some and fails; `flush`
works or fails. -/
structure WriterIo where
  writeAll : Option (Nat × IoError)
  flush : Option IoError

structure BufWriter where
  buffer : Data
  capacity : Nat

/-- `BufWriter.with_capacity`. -/
def BufWriter.withCapacity (capacity : Int) : BufWriter := ⟨[], capacityOf capacity⟩

/-- A call that returns nothing, or the error of the inner writer. -/
def returned : Option IoError → Except IoError Unit
  | none => .ok ()
  | some e => .error e

/-- `BufWriter.flush`: what it returns, the writer afterwards, and the bytes that it passes on. -/
def BufWriter.flush (w : BufWriter) (io : WriterIo) : Except IoError Unit × BufWriter × Data :=
  if w.buffer = [] then (returned io.flush, w, [])
  else
    match io.writeAll with
    | some (n, e) => (.error e, w, w.buffer.take n)
    | none => (returned io.flush, { w with buffer := [] }, w.buffer)

/-- `BufWriter.write`. -/
def BufWriter.write (w : BufWriter) (buf : Data) (io : WriterIo) :
    Except IoError Nat × BufWriter × Data :=
  let w := { w with buffer := w.buffer ++ buf }
  if w.capacity ≤ w.buffer.length then
    match w.flush io with
    | (.error e, w, passed) => (.error e, w, passed)
    | (.ok _, w, passed) => (.ok buf.length, w, passed)
  else (.ok buf.length, w, [])

/-- `BufWriter.write_all`. -/
def BufWriter.writeAll (w : BufWriter) (buf : Data) (io : WriterIo) :
    Except IoError Unit × BufWriter × Data :=
  match w.write buf io with
  | (.error e, w, passed) => (.error e, w, passed)
  | (.ok _, w, passed) => (.ok (), w, passed)

end stdlib.io
