-- The parsers of addresses, URIs and URLs (`std/net_types.otter`). The operations that can panic
-- are the cuts, the indices, the casts to `char` and the arithmetic; an error that a parser returns
-- ends it.
import OtterFusion.Stdlib.Strings

open base.trapping

namespace stdlib.net

/-! ## Data -/

/-- `ParseError`. -/
structure ParseError where
  message : String
  position : Int
  deriving DecidableEq, Repr

/-- A parser. -/
abbrev Parse (A : Type) := Run ParseError A

/-- `IpAddr`. -/
structure IpAddr where
  version : Int
  zone : Option Text
  a : Int
  b : Int
  c : Int
  d : Int
  e : Int
  f : Int
  g : Int
  h : Int
  deriving DecidableEq, Repr

/-- `SocketAddr`. -/
structure SocketAddr where
  ip : IpAddr
  port : Int
  deriving DecidableEq, Repr

/-- `Uri`. -/
structure Uri where
  scheme : Text
  authority : Option Text
  path : Text
  query : Option Text
  fragment : Option Text
  deriving DecidableEq, Repr

/-- A `Map<str, str>`: its entries. -/
abbrev Query := List (Text × Text)

/-- `Map.set`. -/
def Query.set (query : Query) (key value : Text) : Query :=
  query.filter (fun entry => entry.1 ≠ key) ++ [(key, value)]

/-- `Url`. -/
structure Url where
  scheme : Text
  user : Option Text
  host : Text
  port : Option Int
  path : Text
  query : Query
  fragment : Option Text
  deriving DecidableEq, Repr

/-- `ip_v4`. -/
def ipV4 (a b c d : Int) : IpAddr :=
  ⟨4, none, asUnsigned 16 a, asUnsigned 16 b, asUnsigned 16 c, asUnsigned 16 d, 0, 0, 0, 0⟩

/-- `__net_clone_query`. -/
def cloneQuery (query : Query) : Query := query.foldl (fun out entry => out.set entry.1 entry.2) []

/-- `__net_parse_error`, returned. -/
def parseError {A : Type} (message : String) (position : Int) : Parse A :=
  .error ⟨message, position⟩

/-- `__net_shift_parse_error`, returned. -/
def shiftParseError {A : Type} (error : ParseError) (offset : Int) : Parse A := do
  .error ⟨error.message, ← i64 (error.position + offset)⟩

/-! ## Percent escapes -/

/-- `__net_hex_value`. -/
def hexValue (ch : Char) : Parse Int :=
  let cp := codePoint ch
  if 48 ≤ cp ∧ cp ≤ 57 then i64 (cp - 48)
  else if 65 ≤ cp ∧ cp ≤ 70 then i64 (cp - 55)
  else if 97 ≤ cp ∧ cp ≤ 102 then i64 (cp - 87)
  else .value (-1)

/-- The continuation bytes of one scalar: the loop over `j`. -/
def continuationTurn (bytes : List Int) (position i needed : Int) (s : Int × Int) :
    Parse ((Int × Int) ⊕ Int) :=
  let (value, j) := s
  if j ≤ needed then do
    let next ← get bytes (← i64 (i + j))
    if next < 0x80 ∨ 0xbf < next then do
      parseError "invalid UTF-8 continuation byte" (← i64 ((← i64 (position + i)) + j))
    else do
      let value ← i64 ((← i64 (value * 64)) + (← rem next 64))
      .value (.inl (value, ← i64 (j + 1)))
  else .value (.inr value)

/-- What the first byte of a scalar says: the continuation bytes, the bits of the scalar in it, and
the least scalar of this length. -/
def leadByte (first position i : Int) : Parse (Int × Int × Int) :=
  if 0xc2 ≤ first ∧ first ≤ 0xdf then do .value (1, ← rem first 0x20, 0x80)
  else if 0xe0 ≤ first ∧ first ≤ 0xef then do .value (2, ← rem first 0x10, 0x800)
  else if 0xf0 ≤ first ∧ first ≤ 0xf4 then do .value (3, ← rem first 0x08, 0x10000)
  else do parseError "invalid UTF-8 percent byte" (← i64 (position + i))

/-- One turn of `__net_decode_percent_bytes`. -/
def decodeTurn (bytes : List Int) (position : Int) (s : Text × Int) : Parse ((Text × Int) ⊕ Text) :=
  let (out, i) := s
  if i < bytes.length then do
    let first ← get bytes i
    if first < 0x80 then do
      .value (.inl (out ++ [← asChar first], ← i64 (i + 1)))
    else do
      let (needed, value, min) ← leadByte first position i
      if bytes.length ≤ (← i64 (i + needed)) then do
        parseError "truncated UTF-8 percent sequence" (← i64 (position + i))
      else do
        let value ← Ending.loop .outOfFuel (continuationTurn bytes position i needed)
          (needed.toNat + 1) (value, 1)
        if value < min ∨ 0x10ffff < value ∨ 0xd800 ≤ value ∧ value ≤ 0xdfff then do
          parseError "invalid UTF-8 percent scalar" (← i64 (position + i))
        else do
          .value (.inl (out ++ [← asChar value], ← i64 ((← i64 (i + needed)) + 1)))
  else .value (.inr out)

/-- `__net_decode_percent_bytes`. -/
def decodePercentBytes (bytes : List Int) (position : Int) : Parse Text :=
  Ending.loop .outOfFuel (decodeTurn bytes position) (bytes.length + 1) ([], 0)

/-- The local variables of `percent_decode_component`. -/
structure Decoding where
  out : Text
  bytes : List Int
  byteStart : Int
  i : Int

/-- The bytes collected so far are decoded. -/
def Decoding.flush (s : Decoding) : Parse Decoding :=
  if s.bytes.isEmpty then .value s
  else do
    let decoded ← decodePercentBytes s.bytes s.byteStart
    .value { s with out := s.out ++ decoded, bytes := [] }

/-- One turn of `percent_decode_component`. -/
def percentTurn (text : Text) (s : Decoding) : Parse (Decoding ⊕ Decoding) :=
  if s.i < size text then do
    let ch := lastChar (← substring text s.i (← i64 (s.i + 1))) ' '
    if ch = '%' then do
      let byteStart := if s.bytes.isEmpty then s.i else s.byteStart
      if size text ≤ (← i64 (s.i + 2)) then parseError "truncated percent escape" s.i
      else do
        let hi := lastChar (← substring text (← i64 (s.i + 1)) (← i64 (s.i + 2))) ' '
        let lo := lastChar (← substring text (← i64 (s.i + 2)) (← i64 (s.i + 3))) ' '
        let high ← hexValue hi
        let low ← hexValue lo
        if high < 0 ∨ low < 0 then parseError "expected percent hex digit" s.i
        else do
          let byte := asUnsigned 8 (← i64 ((← i64 (high * 16)) + low))
          .value (.inl { s with
            bytes := s.bytes ++ [byte], byteStart := byteStart, i := ← i64 (s.i + 3) })
    else do
      let s ← s.flush
      .value (.inl { s with out := s.out ++ [ch], i := ← i64 (s.i + 1) })
  else .value (.inr s)

/-- `percent_decode_component`. -/
def percentDecodeComponent (text : Text) : Parse Text := do
  let s ← Ending.loop .outOfFuel (percentTurn text) (text.length + 1) ⟨[], [], 0, 0⟩
  let s ← s.flush
  .value s.out

/-! ## Numbers -/

/-- One turn of `__net_parse_decimal`. -/
def decimalTurn (position max : Int) (s : Int × Int) (ch : Char) : Parse (Int × Int) := do
  let (value, i) := s
  let cp := codePoint ch
  if cp < 48 ∨ 57 < cp then do
    parseError "expected decimal digit" (← i64 (position + i))
  else do
    let value ← i64 ((← i64 (value * 10)) + (← i64 (cp - 48)))
    if max < value then do
      parseError "decimal value out of range" (← i64 (position + i))
    else do
      .value (value, ← i64 (i + 1))

/-- `__net_parse_decimal`. -/
def parseDecimal (text : Text) (position max : Int) : Parse Int :=
  if size text = 0 then parseError "expected decimal digits" position
  else do
    let (value, _) ← text.foldlM (decimalTurn position max) (0, 0)
    .value value

/-- The digit in `__net_parse_hex_group`. -/
def hexDigit (position i : Int) (ch : Char) : Parse Int :=
  let cp := codePoint ch
  if 48 ≤ cp ∧ cp ≤ 57 then i64 (cp - 48)
  else if 65 ≤ cp ∧ cp ≤ 70 then i64 (cp - 55)
  else if 97 ≤ cp ∧ cp ≤ 102 then i64 (cp - 87)
  else do parseError "expected IPv6 hex digit" (← i64 (position + i))

/-- One turn of `__net_parse_hex_group`. -/
def hexTurn (position : Int) (s : Int × Int) (ch : Char) : Parse (Int × Int) := do
  let (value, i) := s
  let digit ← hexDigit position i ch
  let value ← i64 ((← i64 (value * 16)) + digit)
  .value (value, ← i64 (i + 1))

/-- `__net_parse_hex_group`. -/
def parseHexGroup (text : Text) (position : Int) : Parse Int :=
  if size text = 0 then parseError "expected IPv6 group" position
  else if 4 < size text then do
    parseError "IPv6 group too long" (← i64 (position + 4))
  else do
    let (value, _) ← text.foldlM (hexTurn position) (0, 0)
    .value value

/-- The characters of a zone. -/
def isZoneChar (ch : Char) : Bool :=
  let cp := codePoint ch
  48 ≤ cp && cp ≤ 57 || 65 ≤ cp && cp ≤ 90 || 97 ≤ cp && cp ≤ 122 || cp == 45 || cp ==
    46 || cp == 95

/-- `__net_valid_zone_id`. -/
def validZoneId (text : Text) (position : Int) : Parse Unit :=
  if text = [] then parseError "expected IPv6 zone id" position
  else do
    let _ ← text.foldlM (fun i ch =>
      if isZoneChar ch then i64 (i + 1)
      else do parseError "expected IPv6 zone id character" (← i64 (position + i))) 0
    .value ()

/-! ## IP addresses -/

/-- `parse_ip_v4`. -/
def parseIpV4 (text : Text) : Parse IpAddr :=
  let parts := split text '.'
  if parts.length ≠ 4 then parseError "expected IPv4 address" 0
  else do
    let pos := 0
    let a ← parseDecimal (← get parts 0) pos 255
    let pos ← i64 ((← i64 (pos + size (← get parts 0))) + 1)
    let b ← parseDecimal (← get parts 1) pos 255
    let pos ← i64 ((← i64 (pos + size (← get parts 1))) + 1)
    let c ← parseDecimal (← get parts 2) pos 255
    let pos ← i64 ((← i64 (pos + size (← get parts 2))) + 1)
    let d ← parseDecimal (← get parts 3) pos 255
    .value (ipV4 (asUnsigned 8 a) (asUnsigned 8 b) (asUnsigned 8 c) (asUnsigned 8 d))

/-- The groups that one part between colons gives. -/
def parseGroup (part : Text) (isLast : Bool) (offset : Int) : Parse (List Int) :=
  match indexOf part ['.'] with
  | some dot =>
    if !isLast then do
      parseError "IPv4 tail must be final IPv6 group" (← i64 (offset + dot))
    else do
      let ip ← (parseIpV4 part).orElse fun error => shiftParseError error offset
      .value [← u16 ((← u16 (ip.a * 256)) + ip.b), ← u16 ((← u16 (ip.c * 256)) + ip.d)]
  | none => do
    let parsed ← parseHexGroup part offset
    .value [asUnsigned 16 parsed]

/-- One turn of `__net_parse_ipv6_side`. -/
def sideTurn (parts : List Text) (s : List Int × Int × Int) :
    Parse ((List Int × Int × Int) ⊕ List Int) :=
  let (groups, offset, i) := s
  if i < parts.length then do
    let part ← get parts i
    let more ← parseGroup part (decide (i = (parts.length : Int) - 1)) offset
    .value (.inl (groups ++ more, ← i64 ((← i64 (offset + size part)) + 1), ← i64 (i + 1)))
  else .value (.inr groups)

/-- `__net_parse_ipv6_side`. -/
def parseIpv6Side (text : Text) (position : Int) : Parse (List Int) :=
  if text = [] then .value []
  else
    let parts := split text ':'
    Ending.loop .outOfFuel (sideTurn parts) (parts.length + 1) ([], position, 0)

/-- The zone of `parse_ip_v6`, and the text before it. -/
def parseZone (text : Text) : Parse (Option Text × Text) :=
  match indexOf text ['%'] with
  | none => .value (none, text)
  | some z => do
    let zoneText ← substring text (← i64 (z + 1)) (size text)
    validZoneId zoneText (← i64 (z + 1))
    let text ← substring text 0 z
    if size text = 0 then parseError "expected IPv6 address" 0
    else .value (some zoneText, text)

/-- One turn of the loop that pushes zero groups. -/
def zerosTurn (s : List Int × Int) : Parse ((List Int × Int) ⊕ List Int) :=
  let (groups, zeros) := s
  if 0 < zeros then do .value (.inl (groups ++ [0], ← i64 (zeros - 1)))
  else .value (.inr groups)

/-- The groups of `parse_ip_v6`. -/
def parseGroups (text : Text) : Parse (List Int) :=
  match indexOf text [':', ':'] with
  | some split => do
    let tail ← substring text (← i64 (split + 2)) (size text)
    match indexOf tail [':', ':'] with
    | some nextDouble => do
      parseError "multiple IPv6 compression markers" (← i64 ((← i64 (split + 2)) + nextDouble))
    | none => do
      let left ← parseIpv6Side (← substring text 0 split) 0
      let right ← parseIpv6Side tail (← i64 (split + 2))
      let zeros ← i64 ((← i64 (8 - left.length)) - right.length)
      if zeros ≤ 0 then parseError "IPv6 compression must replace at least one group" split
      else do
        let groups ← Ending.loop .outOfFuel zerosTurn (zeros.toNat + 1) (left, zeros)
        .value (groups ++ right)
  | none => do
    let groups ← parseIpv6Side text 0
    if groups.length ≠ 8 then parseError "expected 8 IPv6 groups" (size text)
    else .value groups

/-- `parse_ip_v6`: `ip_v6` and `ip_v6_scoped` of the groups. -/
def parseIpV6 (text : Text) : Parse IpAddr :=
  if size text = 0 then parseError "expected IPv6 address" 0
  else do
    let (zone, text) ← parseZone text
    let groups ← parseGroups text
    .value ⟨6, zone, ← get groups 0, ← get groups 1, ← get groups 2, ← get groups 3, ← get groups 4,
      ← get groups 5, ← get groups 6, ← get groups 7⟩

/-! ## Rendering -/

/-- A number as text. -/
def decimal (n : Int) : Text := (toString n).toList

/-- One turn of `render_hex_group`. -/
def renderTurn (s : Text × Int × Int × Bool) : Parse ((Text × Int × Int × Bool) ⊕ Text) :=
  let (out, value, divisor, started) := s
  if 0 < divisor then do
    let digit ← div value divisor
    let (out, started) :=
      if digit ≠ 0 ∨ started = true then
        (out ++ if digit < 10 then decimal digit
          else if digit = 10 then ['a']
          else if digit = 11 then ['b']
          else if digit = 12 then ['c']
          else if digit = 13 then ['d']
          else if digit = 14 then ['e']
          else ['f'], true)
      else (out, started)
    .value (.inl (out, ← rem value divisor, ← div divisor 16, started))
  else .value (.inr out)

/-- `render_hex_group`. -/
def renderHexGroup (group : Int) : Parse Text :=
  if group = 0 then .value ['0']
  else Ending.loop .outOfFuel renderTurn 5 ([], group, 4096, false)

/-- `IpAddr.render`. -/
def IpAddr.render (ip : IpAddr) : Parse Text :=
  if ip.version = 4 then
    .value (decimal (asUnsigned 8 ip.a) ++ ['.'] ++ decimal (asUnsigned 8 ip.b) ++ ['.'] ++
      decimal (asUnsigned 8 ip.c) ++ ['.'] ++ decimal (asUnsigned 8 ip.d))
  else do
    let out := (← renderHexGroup ip.a) ++ [':'] ++ (← renderHexGroup ip.b) ++ [':'] ++
      (← renderHexGroup ip.c) ++ [':'] ++ (← renderHexGroup ip.d) ++ [':'] ++
      (← renderHexGroup ip.e) ++ [':'] ++ (← renderHexGroup ip.f) ++ [':'] ++
      (← renderHexGroup ip.g) ++ [':'] ++ (← renderHexGroup ip.h)
    match ip.zone with
    | some zone => .value (out ++ ['%'] ++ zone)
    | none => .value out

/-! ## Socket addresses -/

/-- `parse_ipv4_socket_addr`. -/
def parseIpv4SocketAddr (text : Text) : Parse SocketAddr :=
  match indexOf text [':'] with
  | none => parseError "expected host:port" (size text)
  | some split => do
    let host ← substring text 0 split
    let portText ← substring text (← i64 (split + 1)) (size text)
    let ip ← parseIpV4 host
    let port ← parseDecimal portText (← i64 (split + 1)) 65535
    .value ⟨ip, asUnsigned 16 port⟩

/-- `parse_socket_addr`. -/
def parseSocketAddr (text : Text) : Parse SocketAddr :=
  if startsWith text ['['] then
    match indexOf text [']'] with
    | none => parseError "expected closing IPv6 bracket" (size text)
    | some stop => do
      let host ← substring text 1 stop
      let rest ← substring text (← i64 (stop + 1)) (size text)
      if !startsWith rest [':'] then do
        parseError "expected host:port" (← i64 (stop + 1))
      else do
        let ip ← (parseIpV6 host).orElse fun error => shiftParseError error 1
        let port ← parseDecimal (← substring rest 1 (size rest)) (← i64 (stop + 2)) 65535
        .value ⟨ip, asUnsigned 16 port⟩
  else parseIpv4SocketAddr text

/-! ## URIs and URLs -/

/-- `parse_uri` and `parse_url` cut the fragment and the query of a URI off the rest. -/
def cutTail (rest delimiter : Text) : Parse (Text × Option Text) :=
  match indexOf rest delimiter with
  | none => .value (rest, none)
  | some h => do
    let tail ← substring rest (← i64 (h + 1)) (size rest)
    .value (← substring rest 0 h, some tail)

/-- `parse_uri` and `parse_url` cut the path off an authority. -/
def cutPath (rest : Text) : Parse (Text × Text) :=
  match indexOf rest ['/'] with
  | none => .value (rest, [])
  | some s => do
    let authority ← substring rest 0 s
    .value (authority, ← substring rest s (size rest))

/-- The authority and the path in `parse_uri`. -/
def parseUriPath (rest : Text) (split : Int) : Parse (Option Text × Text) :=
  if startsWith rest ['/', '/'] then do
    let afterSlashes ← substring rest 2 (size rest)
    let (authority, path) ← cutPath afterSlashes
    if authority = [] then do
      parseError "expected URI authority" (← i64 (split + 3))
    else .value (some authority, path)
  else .value (none, rest)

/-- `parse_uri`. -/
def parseUri (text : Text) : Parse Uri :=
  match indexOf text [':'] with
  | none => parseError "expected URI scheme delimiter" (size text)
  | some split =>
    if split = 0 then parseError "expected URI scheme" 0
    else do
      let scheme ← substring text 0 split
      let rest ← substring text (← i64 (split + 1)) (size text)
      let (rest, fragment) ← cutTail rest ['#']
      let (rest, query) ← cutTail rest ['?']
      let (authority, path) ← parseUriPath rest split
      .value ⟨scheme, authority, path, query, fragment⟩

/-- One pair of `__net_parse_query`. -/
def queryTurn (s : Query × Int) (pair : Text) : Parse (Query × Int) := do
  let (query, offset) := s
  match indexOf pair ['='] with
  | none => do
    parseError "expected query key/value delimiter" (← i64 (offset + size pair))
  | some split => do
    let key ← substring pair 0 split
    if key = [] then parseError "expected query key" offset
    else do
      let value ← substring pair (← i64 (split + 1)) (size pair)
      .value (query.set key value, ← i64 ((← i64 (offset + size pair)) + 1))

/-- `__net_parse_query`. -/
def parseQuery (text : Text) (position : Int) : Parse Query :=
  if size text = 0 then .value []
  else do
    let (query, _) ← (split text '&').foldlM queryTurn ([], position)
    .value query

/-- The host and the port in `parse_url`, when the host is in brackets. -/
def parseBracketHost (hostPort : Text) (hostOffset : Int) : Parse (Text × Option Int) :=
  match indexOf hostPort [']'] with
  | none => do
    parseError "expected closing IPv6 bracket" (← i64 (hostOffset + size hostPort))
  | some stop => do
    let ip ← (parseIpV6 (← substring hostPort 1 stop)).orElse fun error => do
      shiftParseError error (← i64 (hostOffset + 1))
    let host := ['['] ++ (← ip.render) ++ [']']
    let restHost ← substring hostPort (← i64 (stop + 1)) (size hostPort)
    if restHost ≠ [] then
      if !startsWith restHost [':'] then do
        parseError "expected URL host/port delimiter" (← i64 ((← i64 (hostOffset + stop)) + 1))
      else do
        let portText ← substring restHost 1 (size restHost)
        let port ← parseDecimal portText (← i64 ((← i64 (hostOffset + stop)) + 2)) 65535
        .value (host, some (asUnsigned 16 port))
    else .value (host, none)

/-- The host and the port in `parse_url`, when there are no brackets. -/
def parsePlainHost (hostPort : Text) (hostOffset : Int) : Parse (Text × Option Int) :=
  match indexOf hostPort [':'] with
  | none => .value (hostPort, none)
  | some c => do
    let host ← substring hostPort 0 c
    let portText ← substring hostPort (← i64 (c + 1)) (size hostPort)
    let port ← parseDecimal portText (← i64 ((← i64 (hostOffset + c)) + 1)) 65535
    .value (host, some (asUnsigned 16 port))

/-- The host and the port in `parse_url`. -/
def parseHost (hostPort : Text) (hostOffset : Int) : Parse (Text × Option Int) :=
  if startsWith hostPort ['['] then parseBracketHost hostPort hostOffset
  else parsePlainHost hostPort hostOffset

/-- The query in `parse_url`, and the text before it. -/
def cutQuery (rest : Text) (restStart : Int) : Parse (Query × Text) :=
  match indexOf rest ['?'] with
  | none => .value ([], rest)
  | some q => do
    let tail ← substring rest (← i64 (q + 1)) (size rest)
    let query ← parseQuery tail (← i64 ((← i64 (restStart + q)) + 1))
    .value (query, ← substring rest 0 q)

/-- The user in `parse_url`, and the host and port after it. -/
def cutUser (authority : Text) : Parse (Option Text × Text) :=
  match indexOf authority ['@'] with
  | none => .value (none, authority)
  | some a => do
    let user ← substring authority 0 a
    .value (some user, ← substring authority (← i64 (a + 1)) (size authority))

/-- `parse_url`. -/
def parseUrl (text : Text) : Parse Url :=
  match indexOf text [':', '/', '/'] with
  | none => parseError "expected URL scheme delimiter" (size text)
  | some schemeEnd =>
    if schemeEnd = 0 then parseError "expected URL scheme" 0
    else do
      let scheme ← substring text 0 schemeEnd
      let rest ← substring text (← i64 (schemeEnd + 3)) (size text)
      let restStart ← i64 (schemeEnd + 3)
      let (rest, fragment) ← cutTail rest ['#']
      let (query, rest) ← cutQuery rest restStart
      let (authority, path) ← cutPath rest
      if authority = [] then parseError "expected URL authority" restStart
      else do
        let (user, hostPort) ← cutUser authority
        let hostOffset ← i64 ((← i64 (restStart + size authority)) - size hostPort)
        let (host, port) ← parseHost hostPort hostOffset
        if host = [] then parseError "expected URL host" hostOffset
        else
          .value ⟨scheme, user, host, port, path, cloneQuery query, fragment⟩

end stdlib.net
