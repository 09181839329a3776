-- The results of IO operations (`async_rt.rs`, with the encodings of `net.rs`, `fs.rs` and
-- `process.rs`): what an operation comes to, its encoded text, and which handle the discard of
-- that text releases.
import Mathlib.Algebra.Order.Ring.Nat
import Mathlib.Data.List.TakeDrop

namespace runtime.io

/-! ## Operations -/

/-- `IoOp`, by what the discard of its result looks at. -/
inductive IoOp
  | netTcpConnect
  | netTcpConnectTimeout
  | netTcpListenerBind
  | netUdpBind
  | fsFileOpen
  | netTcpListenerAccept
  | processSpawn
  /-- An operation that opens no handle. -/
  | other
  deriving DecidableEq, Repr

/-- What an operation comes to: a handle, with the rest of the payload, or a text. -/
inductive Outcome
  | opened (handle : Nat) (rest : String)
  | failed (message : String)
  | finished (payload : String)
  deriving DecidableEq, Repr

/-- `push_field`. -/
def field (value : String) : String :=
  toString (value.toList.map Char.utf8Size).sum ++ ":" ++ value

/-- `encode_success_string`. -/
def encodeSuccess (payload : String) : String := "0" ++ payload

/-- `encode_error_string`. -/
def encodeError (message : String) : String := "1" ++ message

/-- The encoded result of an operation. -/
def IoOp.encode (op : IoOp) : Outcome → String
  | .failed message => encodeError message
  | .finished payload => encodeSuccess payload
  | .opened handle rest =>
    match op with
    | .netTcpListenerAccept | .processSpawn =>
      encodeSuccess (field (toString handle) ++ field rest)
    | _ => encodeSuccess (toString handle)

/-- The handle that an operation has opened. -/
def IoOp.handle (op : IoOp) : Outcome → Option Nat
  | .opened handle _ => if op = .other then none else some handle
  | _ => none

/-- An outcome that an operation can have. Handles are counted up from 1 in an `i64`. -/
def IoOp.CanEnd (op : IoOp) : Outcome → Prop
  | .opened handle _ => op ≠ .other ∧ handle < 2 ^ 63
  | .failed _ => True
  | .finished _ => op = .other

instance (op : IoOp) (o : Outcome) : Decidable (op.CanEnd o) :=
  match o with
  | .opened handle _ => inferInstanceAs (Decidable (op ≠ .other ∧ handle < 2 ^ 63))
  | .failed _ => inferInstanceAs (Decidable True)
  | .finished _ => inferInstanceAs (Decidable (op = .other))

/-! ## Discarding a result -/

/-- The value of a number in decimal digits. -/
def digits (cs : List Char) : Option Nat :=
  if cs ≠ [] ∧ cs.all Char.isDigit = true then some (Nat.ofDigitChars 10 cs 0) else none

/-- `parse::<usize>`. -/
def parseUsize (cs : List Char) : Option Nat :=
  (digits (match cs with
    | '+' :: ds => ds
    | ds => ds)).filter fun n => n < 2 ^ 64

/-- `parse_i64_payload`. -/
def parseI64Payload (cs : List Char) : Option Int :=
  match cs with
  | '-' :: ds => ((digits ds).filter fun n => n ≤ 2 ^ 63).map fun n => -(n : Int)
  | '+' :: ds => ((digits ds).filter fun n => n < 2 ^ 63).map Int.ofNat
  | ds => ((digits ds).filter fun n => n < 2 ^ 63).map Int.ofNat

/-- A number of bytes at the front of a text. -/
def takeBytes : Nat → List Char → Option (List Char)
  | 0, _ => some []
  | _ + 1, [] => none
  | n + 1, c :: cs =>
    if c.utf8Size ≤ n + 1 then (takeBytes (n + 1 - c.utf8Size) cs).map (c :: ·) else none

/-- `encoded_success_payload`. -/
def encodedSuccessPayload (encoded : String) : Option (List Char) :=
  match encoded.toList with
  | '0' :: payload => some payload
  | _ => none

/-- `first_encoded_field`. -/
def firstEncodedField (payload : List Char) : Option (List Char) :=
  match payload.span (· ≠ ':') with
  | (_, []) => none
  | (len, _ :: rest) => (parseUsize len).bind fun len => takeBytes len rest

/-- `io_discard_cancelled_result`: the handle that is released. -/
def IoOp.discard (op : IoOp) (encoded : String) : Option Int :=
  match op with
  | .netTcpConnect | .netTcpConnectTimeout | .netTcpListenerBind | .netUdpBind | .fsFileOpen =>
    (encodedSuccessPayload encoded).bind parseI64Payload
  | .netTcpListenerAccept | .processSpawn =>
    ((encodedSuccessPayload encoded).bind firstEncodedField).bind parseI64Payload
  | .other => none

theorem isDigit_of_mem {n : Nat} {c : Char} (hc : c ∈ Nat.toDigits 10 n) : c.isDigit = true :=
  Nat.isDigit_of_mem_toDigits (by omega) (Nat.le_refl 10) hc

theorem digits_toDigits (n : Nat) : digits (Nat.toDigits 10 n) = some n := by
  unfold digits
  rw [if_pos ⟨Nat.toDigits_ne_nil, List.all_eq_true.mpr fun c hc => isDigit_of_mem hc⟩,
    Nat.ofDigitChars_ten_toDigits]

theorem parseI64Payload_toDigits {n : Nat} (hn : n < 2 ^ 63) :
    parseI64Payload (Nat.toDigits 10 n) = some (n : Int) := by
  have hsign : ∀ c ds, Nat.toDigits 10 n = c :: ds → c ≠ '-' ∧ c ≠ '+' := by
    intro c ds h
    have hc : c.isDigit = true := isDigit_of_mem (h ▸ List.mem_cons_self)
    constructor <;> rintro rfl <;> cases hc
  unfold parseI64Payload
  split
  · rename_i ds h
    exact absurd rfl (hsign _ _ h).1
  · rename_i ds h
    exact absurd rfl (hsign _ _ h).2
  · rw [digits_toDigits]
    simpa [Option.filter] using hn

theorem parseUsize_toDigits {n : Nat} (hn : n < 2 ^ 64) :
    parseUsize (Nat.toDigits 10 n) = some n := by
  have hsign : ∀ ds, Nat.toDigits 10 n ≠ '+' :: ds := by
    intro ds h
    have hc : Char.isDigit '+' = true := isDigit_of_mem (h ▸ List.mem_cons_self)
    cases hc
  unfold parseUsize
  split
  · rename_i ds h
    exact absurd h (hsign ds)
  · rw [digits_toDigits]
    simpa [Option.filter] using hn

theorem takeBytes_append (cs more : List Char) :
    takeBytes (cs.map Char.utf8Size).sum (cs ++ more) = some cs := by
  induction cs with
  | nil =>
    cases more <;> rfl
  | cons c cs ih =>
    have hpos : 0 < c.utf8Size := Char.utf8Size_pos c
    obtain ⟨k, hk⟩ : ∃ k, c.utf8Size + (cs.map Char.utf8Size).sum = k + 1 :=
      ⟨c.utf8Size + (cs.map Char.utf8Size).sum - 1, by omega⟩
    rw [List.map_cons, List.sum_cons, hk, List.cons_append]
    unfold takeBytes
    rw [if_pos (by omega), show k + 1 - c.utf8Size = (cs.map Char.utf8Size).sum by omega, ih]
    rfl

theorem toList_toString (n : Nat) : (toString n).toList = Nat.toDigits 10 n := by
  rw [Nat.toString_eq_repr, Nat.toList_repr]

/-- The first field of a payload is read back. -/
theorem firstEncodedField_field {value : String}
    (hlen : (value.toList.map Char.utf8Size).sum < 2 ^ 64) (more : List Char) :
    firstEncodedField ((field value).toList ++ more) = some value.toList := by
  have hspan : ∀ (ds rest : List Char), (∀ c ∈ ds, c ≠ ':') →
      (ds ++ ':' :: rest).span (· ≠ ':') = (ds, ':' :: rest) := by
    intro ds rest hds
    rw [List.span_eq_takeWhile_dropWhile, List.takeWhile_append_of_pos (by simpa using hds),
      List.dropWhile_append_of_pos (by simpa using hds)]
    simp
  have hlist : (field value).toList ++ more =
      Nat.toDigits 10 (value.toList.map Char.utf8Size).sum ++ ':' :: (value.toList ++ more) := by
    unfold field
    rw [String.toList_append, String.toList_append, toList_toString]
    simp
  unfold firstEncodedField
  rw [hlist, hspan _ _ fun c hc => ?_]
  · dsimp only
    rw [parseUsize_toDigits hlen, Option.bind_some, takeBytes_append]
  · rintro rfl
    cases isDigit_of_mem hc

/-- The discard of a result releases the handle that the operation has opened, and nothing
else. -/
theorem discard_encode {op : IoOp} {o : Outcome} (h : op.CanEnd o) :
    op.discard (op.encode o) = (op.handle o).map Int.ofNat := by
  have hsuccess : ∀ payload, encodedSuccessPayload (encodeSuccess payload) =
      some payload.toList := by
    intro payload
    unfold encodedSuccessPayload encodeSuccess
    rw [String.toList_append]
    rfl
  have herror : ∀ message, encodedSuccessPayload (encodeError message) = none := by
    intro message
    unfold encodedSuccessPayload encodeError
    rw [String.toList_append]
    rfl
  cases o with
  | failed message =>
    cases op <;> simp [IoOp.discard, IoOp.encode, IoOp.handle, herror]
  | finished payload =>
    obtain rfl : op = .other := h
    rfl
  | opened handle rest =>
    obtain ⟨hop, hhandle⟩ := h
    have hplain : parseI64Payload (toString handle).toList = some (handle : Int) := by
      rw [toList_toString, parseI64Payload_toDigits hhandle]
    have hlen : ((toString handle).toList.map Char.utf8Size).sum < 2 ^ 64 := by
      have hdigits : (Nat.toDigits 10 handle).length ≤ 19 :=
        (Nat.length_toDigits_le_iff (by omega) (by omega)).mpr (by omega)
      have hsize : ∀ cs : List Char, (cs.map Char.utf8Size).sum ≤ 4 * cs.length := by
        intro cs
        induction cs with
        | nil => simp
        | cons c cs ih =>
          have := Char.utf8Size_le_four c
          simp only [List.map_cons, List.sum_cons, List.length_cons]
          omega
      have := hsize (Nat.toDigits 10 handle)
      rw [toList_toString]
      omega
    have hfield : firstEncodedField (field (toString handle) ++ field rest).toList =
        some (toString handle).toList := by
      rw [String.toList_append]
      exact firstEncodedField_field hlen _
    cases op with
    | other => exact absurd rfl hop
    | netTcpListenerAccept | processSpawn =>
      simp only [IoOp.discard, IoOp.encode, IoOp.handle, hsuccess, hfield, hplain, Option.bind_some]
      rfl
    | _ =>
      simp only [IoOp.discard, IoOp.encode, IoOp.handle, hsuccess, hplain, Option.bind_some]
      rfl

end runtime.io
