-- Which hash functions of the standard library panic in a debug build: those of an address always,
-- those of a `Set` and a `Deque` where an element's hash is large, and no other.
import OtterFusion.Stdlib.AddressExact
import OtterFusion.Stdlib.Bytes
import OtterFusion.Stdlib.Collections
import OtterFusion.Stdlib.JsonKeys

open base.trapping stdlib.hash

namespace stdlib

/-! ## Addresses (`std/net_types.otter`) -/

/-- `h * 16777619 + n`. -/
def net.shiftAdd (h n : Int) : Panics Int := do u64 ((← u64 (h * 16777619)) + n)

/-- `IpAddr.hash`. -/
def net.IpAddr.hash (strHash : Text → Nat) (ip : net.IpAddr) : Panics Int := do
  let h ← (match ip.zone with
    | some zone => net.shiftAdd ip.version (strHash zone)
    | none => .value ip.version)
  let h ← net.shiftAdd h ip.a
  let h ← net.shiftAdd h ip.b
  let h ← net.shiftAdd h ip.c
  let h ← net.shiftAdd h ip.d
  let h ← net.shiftAdd h ip.e
  let h ← net.shiftAdd h ip.f
  let h ← net.shiftAdd h ip.g
  net.shiftAdd h ip.h

/-- `SocketAddr.hash`. -/
def net.SocketAddr.hash (strHash : Text → Nat) (addr : net.SocketAddr) : Panics Int := do
  net.shiftAdd (← addr.ip.hash strHash) addr.port

theorem net.shiftAdd_value {h n x : Int} (hx : net.shiftAdd h n = .value x) :
    x = h * 16777619 + n ∧ h * 16777619 < 2 ^ 64 := by
  obtain ⟨product, hproduct, hx⟩ := Ending.value_of_bind.mp hx
  obtain rfl := u64_value hproduct
  refine ⟨u64_value hx, ?_⟩
  by_contra hge
  rw [u64_trap (by omega)] at hproduct
  cases hproduct

/-- The third product is too large. -/
theorem net.IpAddr.hash_traps {strHash : Text → Nat} {ip : net.IpAddr} (hversion : 4 ≤ ip.version)
    (ha : 0 ≤ ip.a) (hb : 0 ≤ ip.b) (x : Int) : ip.hash strHash ≠ .value x := by
  intro hx
  unfold net.IpAddr.hash at hx
  obtain ⟨h0, hzone, hx⟩ := Ending.value_of_bind.mp hx
  obtain ⟨h1, h1eq, hx⟩ := Ending.value_of_bind.mp hx
  obtain ⟨h2, h2eq, hx⟩ := Ending.value_of_bind.mp hx
  obtain ⟨h3, h3eq, _⟩ := Ending.value_of_bind.mp hx
  have hstart : 4 ≤ h0 := by
    split at hzone
    · obtain ⟨rfl, _⟩ := net.shiftAdd_value hzone
      omega
    · cases hzone
      exact hversion
  obtain ⟨rfl, _⟩ := net.shiftAdd_value h1eq
  obtain ⟨rfl, _⟩ := net.shiftAdd_value h2eq
  obtain ⟨_, hlt⟩ := net.shiftAdd_value h3eq
  omega

/-! ## URLs (`std/net_types.otter`) -/

/-- `__net_hash_add`. -/
def net.hashAdd (left right : Int) : Panics Int := hash.hashAdd left right

/-- `Url.hash_fields`. -/
def net.Url.hashFields (strHash : Text → Nat) (url : net.Url) : Panics Int := do
  let out : Int := strHash ("scheme:".toList ++ url.scheme) % 4294967291
  let out ← (match url.user with
    | some user => net.hashAdd out (strHash ("user:".toList ++ user))
    | none => net.hashAdd out (strHash "user:null".toList))
  let out ← net.hashAdd out (strHash ("host:".toList ++ url.host))
  let out ← (match url.port with
    | some port => net.hashAdd out (strHash ("port:".toList ++ net.decimal port))
    | none => net.hashAdd out (strHash "port:null".toList))
  let out ← net.hashAdd out (strHash ("path:".toList ++ url.path))
  match url.fragment with
  | some fragment => net.hashAdd out (strHash ("fragment:".toList ++ fragment))
  | none => net.hashAdd out (strHash "fragment:null".toList)

/-- `Url.query_hash`. -/
def net.Url.queryHash (strHash : Text → Nat) (url : net.Url) : Panics Int :=
  url.query.foldlM (fun out entry =>
    net.hashAdd out (strHash ("query:".toList ++ entry.1 ++ ['='] ++ entry.2))) 0

/-- `Url.hash`. -/
def net.Url.hash (strHash : Text → Nat) (url : net.Url) : Panics Int := do
  net.hashAdd (← url.hashFields strHash) (← url.queryHash strHash)

theorem net.hashAdd_safe (left right : Int) : (net.hashAdd left right).Safe := by
  unfold net.hashAdd
  rw [hash.hashAdd_ok]
  exact Ending.safe_value _

section steps

variable {A B S : Type}

/-- A part that does not panic, and a rest that does not. -/
theorem safe_seq {x : Panics A} {f : A → Panics B} (hx : x.Safe) (hf : ∀ a, (f a).Safe) :
    (x >>= f).Safe := Ending.safe_bind.mpr ⟨hx, fun a _ => hf a⟩

/-- A loop whose turns do not panic. -/
theorem safe_foldlM {f : S → A → Panics S} (hf : ∀ s a, (f s a).Safe) (l : List A) :
    ∀ s, (l.foldlM f s).Safe := by
  induction l with
  | nil => exact Ending.safe_value
  | cons a l ih =>
    intro s
    rw [List.foldlM_cons]
    exact safe_seq (hf s a) ih

end steps

theorem net.Url.hash_safe (strHash : Text → Nat) (url : net.Url) : (url.hash strHash).Safe := by
  have hfields : (url.hashFields strHash).Safe := by
    unfold net.Url.hashFields
    refine safe_seq ?_ fun _ => safe_seq (net.hashAdd_safe _ _) fun _ => safe_seq ?_ fun _ =>
      safe_seq (net.hashAdd_safe _ _) fun _ => ?_
    · cases url.user <;> exact net.hashAdd_safe _ _
    · cases url.port <;> exact net.hashAdd_safe _ _
    · cases url.fragment <;> exact net.hashAdd_safe _ _
  have hquery : (url.queryHash strHash).Safe :=
    safe_foldlM (fun _ _ => net.hashAdd_safe _ _) url.query 0
  exact safe_seq hfields fun _ => safe_seq hquery fun _ => net.hashAdd_safe _ _

/-! ## Bytes (`std/bytes.otter`) -/

/-- One turn of the loop in `Bytes.hash`. -/
def bytes.hashTurn (h b : Int) : Panics Int := do
  .value ((← u64 ((← u64 (h % 4294967291 * 16777619)) + b)) % 4294967291)

/-- `Bytes.hash`. -/
def bytes.Bytes.hash (b : bytes.Bytes) : Panics Int := b.data.foldlM bytes.hashTurn 2166136261

/-- `BytesCursor`. -/
structure bytes.BytesCursor where
  data : bytes.Bytes
  pos : Int

/-- `BytesCursor.hash`. -/
def bytes.BytesCursor.hash (cursor : bytes.BytesCursor) : Panics Int := do
  let data ← cursor.data.hash
  .value ((← u64 (data + asUnsigned 64 cursor.pos % 4294967291)) % 4294967291)

theorem bytes.hashTurn_ok {h b : Int} (hb : 0 ≤ b ∧ b < 256) :
    bytes.hashTurn h b = .value ((h % 4294967291 * 16777619 + b) % 4294967291) := by
  obtain ⟨hlo, hhi⟩ := mod_bounds h
  unfold modulus at hlo hhi
  unfold bytes.hashTurn
  rw [u64_ok (by omega) (by omega), Ending.value_bind, u64_ok (by omega) (by omega),
    Ending.value_bind]

theorem bytes.Bytes.hash_value (b : bytes.Bytes) :
    ∃ x, b.hash = .value x ∧ 0 ≤ x ∧ x < 4294967291 := by
  have hloop : ∀ (data : List Int) (h : Int), (∀ b ∈ data, 0 ≤ b ∧ b < 256) →
      0 ≤ h ∧ h < 4294967291 →
      ∃ x, data.foldlM bytes.hashTurn h = .value x ∧ 0 ≤ x ∧ x < 4294967291 := by
    intro data
    induction data with
    | nil => exact fun h _ hh => ⟨h, rfl, hh⟩
    | cons b data ih =>
      intro h hdata _
      obtain ⟨hb, hrest⟩ := List.forall_mem_cons.mp hdata
      rw [List.foldlM_cons, bytes.hashTurn_ok hb, Ending.value_bind]
      exact ih _ hrest (mod_bounds _)
  exact hloop b.data 2166136261 b.isByte (by decide)

theorem bytes.BytesCursor.hash_safe (cursor : bytes.BytesCursor) : cursor.hash.Safe := by
  obtain ⟨x, hx, hlo, hhi⟩ := cursor.data.hash_value
  obtain ⟨hlo', hhi'⟩ := mod_bounds (asUnsigned 64 cursor.pos)
  unfold modulus at hlo' hhi'
  unfold bytes.BytesCursor.hash
  rw [hx, Ending.value_bind, u64_ok (by omega) (by omega)]
  exact Ending.safe_value _

/-! ## Requests (`std/http.otter`) -/

/-- `Method`. -/
inductive http.Method
  | get
  | head
  | post
  | put
  | delete
  | patch
  | options
  | trace
  | connect
  | custom (name : Text)

/-- `Method.as_str`. -/
def http.Method.asStr : http.Method → Text
  | .get => "GET".toList
  | .head => "HEAD".toList
  | .post => "POST".toList
  | .put => "PUT".toList
  | .delete => "DELETE".toList
  | .patch => "PATCH".toList
  | .options => "OPTIONS".toList
  | .trace => "TRACE".toList
  | .connect => "CONNECT".toList
  | .custom name => name

/-- `HttpVersion`. -/
inductive http.HttpVersion
  | http10
  | http11
  | http2
  | http3

/-- `HttpVersion.as_str`. -/
def http.HttpVersion.asStr : http.HttpVersion → Text
  | .http10 => "HTTP/1.0".toList
  | .http11 => "HTTP/1.1".toList
  | .http2 => "HTTP/2".toList
  | .http3 => "HTTP/3".toList

/-- `Headers`: the entries of its map. -/
structure http.Headers where
  values : List (Text × List Text)

/-- `HttpRequest`. -/
structure http.HttpRequest where
  method : http.Method
  url : net.Url
  headers : http.Headers
  body : bytes.Bytes
  version : http.HttpVersion

/-- `__http_hash_add`. -/
def http.hashAdd (left right : Int) : Panics Int := hash.hashAdd left right

/-- `__http_hash_mix`. -/
def http.hashMix (left right : Int) : Panics Int := hash.hashMix left right

/-- `Headers.hash_values`. -/
def http.Headers.hashValues (strHash : Text → Nat) (values : List Text) : Panics Int :=
  values.foldlM (fun out value => http.hashMix out (strHash value))
    (strHash "headers:values".toList % 4294967291)

/-- `Headers.stable_hash`. -/
def http.Headers.stableHash (strHash : Text → Nat) (headers : http.Headers) : Panics Int :=
  headers.values.foldlM (fun out entry => do
    let entryHash ← http.hashAdd (strHash ("header:".toList ++ entry.1))
      (← http.Headers.hashValues strHash entry.2)
    http.hashAdd out entryHash) (strHash "headers".toList % 4294967291)

/-- `Headers.hash`. -/
def http.Headers.hash (strHash : Text → Nat) (headers : http.Headers) : Panics Int :=
  headers.stableHash strHash

/-- `HttpRequest.hash`. -/
def http.HttpRequest.hash (strHash : Text → Nat) (request : http.HttpRequest) : Panics Int := do
  let out ← http.hashAdd (strHash "request:method".toList) (strHash request.method.asStr)
  let out ← http.hashMix out (← request.url.hash strHash)
  let out ← http.hashMix out (← request.headers.hash strHash)
  let out ← http.hashMix out (← request.body.hash)
  http.hashMix out (strHash request.version.asStr)

theorem http.hashMix_safe (left right : Int) : (http.hashMix left right).Safe := by
  unfold http.hashMix
  rw [hash.hashMix_ok]
  exact Ending.safe_value _

theorem http.Headers.hash_safe (strHash : Text → Nat) (headers : http.Headers) :
    (headers.hash strHash).Safe := by
  have hvalues : ∀ values, (http.Headers.hashValues strHash values).Safe := fun values =>
    safe_foldlM (fun _ _ => http.hashMix_safe _ _) values _
  exact safe_foldlM (fun _ entry => safe_seq (hvalues entry.2) fun _ =>
    safe_seq (net.hashAdd_safe _ _) fun _ => net.hashAdd_safe _ _) headers.values _

theorem http.HttpRequest.hash_safe (strHash : Text → Nat) (request : http.HttpRequest) :
    (request.hash strHash).Safe := by
  have hbody : request.body.hash.Safe := by
    obtain ⟨body, hbody, _⟩ := request.body.hash_value
    rw [hbody]
    exact Ending.safe_value body
  refine safe_seq (net.hashAdd_safe _ _) fun _ => ?_
  refine safe_seq (request.url.hash_safe strHash) fun _ =>
    safe_seq (http.hashMix_safe _ _) fun _ => ?_
  refine safe_seq (request.headers.hash_safe strHash) fun _ =>
    safe_seq (http.hashMix_safe _ _) fun _ => ?_
  exact safe_seq hbody fun _ => safe_seq (http.hashMix_safe _ _) fun _ => http.hashMix_safe _ _

/-! ## Sets and deques -/

/-- One turn of a loop that adds a hash to what it makes of the hash so far. -/
def addTurn (pre : Int → Int) (h : Int) (n : Nat) : Panics Int := do
  .value ((← u64 (pre h + n)) % modulus)

/-- The loop panics exactly at an element whose hash is too large. -/
theorem addLoop_safe_iff {pre : Int → Int} (hpre : ∀ h, 0 ≤ h → 0 ≤ pre h) {hashes : List Nat}
    {start : Int} (hstart : 0 ≤ start) : (hashes.foldlM (addTurn pre) start).Safe ↔
      ∀ (front : List Nat) (n : Nat) (back : List Nat), hashes = front ++ n :: back →
        pre (front.foldl (fun (h : Int) (n : Nat) => (pre h + n) % modulus) start) + n <
          2 ^ 64 := by
  induction hashes generalizing start with
  | nil =>
    refine ⟨fun _ front n back h => ?_, fun _ => Ending.safe_value start⟩
    cases front <;> cases h
  | cons n hashes ih =>
    have hpos := hpre start hstart
    have hturn : pre start + n < 2 ^ 64 →
        addTurn pre start n = .value ((pre start + n) % modulus) := by
      intro hlt
      unfold addTurn
      rw [u64_ok (by omega) hlt, Ending.value_bind]
    rw [List.foldlM_cons]
    constructor
    · intro hsafe front m back heq
      have hlt : pre start + n < 2 ^ 64 := by
        by_contra hge
        unfold addTurn at hsafe
        rw [u64_trap (by omega)] at hsafe
        exact Ending.safe_trap _ hsafe
      rw [hturn hlt, Ending.value_bind, ih (mod_bounds _).1] at hsafe
      cases front with
      | nil =>
        cases heq
        exact hlt
      | cons n' front =>
        obtain ⟨rfl, rfl⟩ := List.cons_eq_cons.mp heq
        exact hsafe front m back rfl
    · intro h
      rw [hturn (h [] n hashes rfl), Ending.value_bind, ih (mod_bounds _).1]
      intro front m back heq
      exact h (n :: front) m back (by rw [heq]; rfl)

section elements

variable {T : Type} {eqT : T → T → Bool}

/-- The hash of each element as its `hash` returns it. -/
def returned (hashT : T → Nat) (value : T) : Panics Int := .value (hashT value)

/-- The hashes before an element of a set, added. -/
theorem sum_before (front : List Nat) (start : Int) :
    front.foldl (fun (h : Int) (n : Nat) => (h + n) % modulus) (start % modulus) =
      (start + (front.sum : Nat)) % modulus := by
  induction front generalizing start with
  | nil => simp
  | cons n front ih =>
    rw [List.foldl_cons, Int.emod_add_emod, ih, List.sum_cons]
    congr 1
    omega

/-- `Set.hash` panics exactly at an element whose hash is too large. -/
theorem collections.Set.hash_safe_iff (hashT : T → Nat) (s : collections.Set eqT) :
    (s.hash (returned hashT)).Safe ↔ ∀ front value back, s.data = front ++ value :: back →
      ((front.map hashT).sum : Nat) % modulus + hashT value < 2 ^ 64 := by
  have hloop : s.hash (returned hashT) = (s.data.map hashT).foldlM (addTurn fun h => h) 0 := by
    rw [List.foldlM_map]
    rfl
  rw [hloop, addLoop_safe_iff (fun _ h => h) (Int.le_refl 0)]
  have hsum : ∀ front : List Nat, front.foldl (fun (h : Int) (n : Nat) => (h + n) % modulus) 0 =
      (front.sum : Nat) % modulus := by
    intro front
    have h := sum_before front 0
    rwa [Int.zero_add] at h
  constructor
  · intro h front value back heq
    have hvalue := h (front.map hashT) (hashT value) (back.map hashT) (by rw [heq]; simp)
    rwa [hsum] at hvalue
  · intro h front n back heq
    obtain ⟨front, rest, hdata, rfl, hrest⟩ := List.map_eq_append_iff.mp heq
    obtain ⟨value, back, rfl, rfl, rfl⟩ := List.map_eq_cons_iff.mp hrest
    rw [hsum]
    exact h front value back hdata

/-- The hashes before an element of a deque, combined. -/
def mixed (hashes : List Nat) : Int :=
  hashes.foldl (fun (h : Int) (n : Nat) => h * 16777619 + n) 2166136261

theorem mixed_before (front : List Nat) (start : Int) :
    front.foldl (fun (h : Int) (n : Nat) => (h % modulus * 16777619 + n) % modulus)
      start % modulus =
      front.foldl (fun (h : Int) (n : Nat) => h * 16777619 + n) start % modulus := by
  induction front using List.reverseRecOn with
  | nil => rfl
  | append_singleton front n ih =>
    rw [List.foldl_append, List.foldl_append, List.foldl_cons, List.foldl_cons, List.foldl_nil,
      List.foldl_nil, Int.emod_emod_of_dvd _ (Int.dvd_refl _), ih, Int.add_emod, Int.mul_emod,
      Int.emod_emod, ← Int.mul_emod, ← Int.add_emod]

/-- `Deque.hash` panics exactly at an element whose hash is too large. -/
theorem collections.Deque.hash_safe_iff (hashT : T → Nat) (d : collections.Deque T) :
    (d.hash (returned hashT)).Safe ↔ ∀ front value back, d.toList = front ++ value :: back →
      mixed (front.map hashT) % modulus * 16777619 + hashT value < 2 ^ 64 := by
  have hturn : (fun h value => collections.Deque.hashTurn (returned hashT) h value) =
      fun h value => addTurn (fun h => h % modulus * 16777619) h (hashT value) := by
    funext h value
    obtain ⟨hlo, hhi⟩ := mod_bounds h
    unfold modulus at hlo hhi
    unfold collections.Deque.hashTurn
    rw [u64_ok (by omega) (by omega), Ending.value_bind]
    rfl
  have hloop : d.hash (returned hashT) =
      (d.toList.map hashT).foldlM (addTurn fun h => h % modulus * 16777619) 2166136261 := by
    rw [List.foldlM_map, ← hturn]
    rfl
  have hpre : ∀ h : Int, 0 ≤ h → 0 ≤ h % modulus * 16777619 :=
    fun h _ => Int.mul_nonneg (mod_bounds h).1 (by decide)
  rw [hloop, addLoop_safe_iff hpre (by decide)]
  constructor
  · intro h front value back heq
    have hvalue := h (front.map hashT) (hashT value) (back.map hashT) (by rw [heq]; simp)
    rwa [mixed_before] at hvalue
  · intro h front n back heq
    obtain ⟨front, rest, hdata, rfl, hrest⟩ := List.map_eq_append_iff.mp heq
    obtain ⟨value, back, rfl, rfl, rfl⟩ := List.map_eq_cons_iff.mp hrest
    rw [mixed_before]
    exact h front value back hdata

end elements

/-! ## Which hashes panic -/

/-- The hash of an address panics, whatever it is. -/
theorem net.IpAddr.hash_unsafe {strHash : Text → Nat} {ip : net.IpAddr} (hip : ip.Built) :
    ¬(ip.hash strHash).Safe := by
  have hfields : 4 ≤ ip.version ∧ 0 ≤ ip.a ∧ 0 ≤ ip.b := by
    cases hip with
    | v4 _ _ _ _ =>
      exact ⟨Int.le_refl 4, Int.emod_nonneg _ (by decide), Int.emod_nonneg _ (by decide)⟩
    | v6 ha hb _ _ _ _ _ _ => exact ⟨show (4 : Int) ≤ 6 by decide, ha.1, hb.1⟩
    | v6Scoped ha hb _ _ _ _ _ _ _ => exact ⟨show (4 : Int) ≤ 6 by decide, ha.1, hb.1⟩
  intro hsafe
  cases hhash : ip.hash strHash with
  | value x => exact net.IpAddr.hash_traps hfields.1 hfields.2.1 hfields.2.2 x hhash
  | error e => exact e.elim
  | trap t => exact hsafe t hhash

/-- The hash of an address or a socket address always panics, that of a set or a deque exactly at an
element whose hash is too large beside the ones before it, and no other. -/
theorem hash_panics_iff (strHash : Text → Nat) :
    (∀ ip : net.IpAddr, ip.Built → ¬(ip.hash strHash).Safe) ∧
    (∀ addr : net.SocketAddr, addr.ip.Built → ¬(addr.hash strHash).Safe) ∧
    (∀ url : net.Url, (url.hash strHash).Safe) ∧
    (∀ b : bytes.Bytes, b.hash.Safe) ∧
    (∀ cursor : bytes.BytesCursor, cursor.hash.Safe) ∧
    (∀ (F : Type) (toStr : F → Text) (v : json.Json F), (json.deepHash strHash toStr v).Safe) ∧
    (∀ headers : http.Headers, (headers.hash strHash).Safe) ∧
    (∀ request : http.HttpRequest, (request.hash strHash).Safe) ∧
    ∀ (T : Type) (eqT : T → T → Bool) (hashT : T → Nat),
      (∀ s : collections.Set eqT, (s.hash (returned hashT)).Safe ↔
        ∀ (front : List T) (value : T) (back : List T), s.data = front ++ value :: back →
          ((front.map hashT).sum : Nat) % modulus + hashT value < 2 ^ 64) ∧
      ∀ d : collections.Deque T, (d.hash (returned hashT)).Safe ↔
        ∀ (front : List T) (value : T) (back : List T), d.toList = front ++ value :: back →
          mixed (front.map hashT) % modulus * 16777619 + hashT value < 2 ^ 64 := by
  refine ⟨fun ip => net.IpAddr.hash_unsafe, fun addr hip hsafe => ?_, net.Url.hash_safe strHash,
    fun b => ?_, bytes.BytesCursor.hash_safe, fun F toStr v => ?_, http.Headers.hash_safe strHash,
    http.HttpRequest.hash_safe strHash, fun T eqT hashT =>
      ⟨collections.Set.hash_safe_iff hashT, collections.Deque.hash_safe_iff hashT⟩⟩
  · exact net.IpAddr.hash_unsafe hip (Ending.safe_bind.mp hsafe).1
  · obtain ⟨x, hx, _⟩ := b.hash_value
    rw [hx]
    exact Ending.safe_value x
  · rw [json.deepHash_eq]
    exact Ending.safe_value _

theorem hash_panics_iff_at :
    ¬((net.ipV4 127 0 0 1).hash hash.hashStrBytes).Safe ∧
    ∀ s : collections.Set fun a b : Nat => decide (a = b), (s.hash (returned id)).Safe ↔
      ∀ (front : List Nat) value back, s.data = front ++ value :: back →
        ((front.map id).sum : Nat) % modulus + (id value : Nat) < 2 ^ 64 :=
  ⟨(hash_panics_iff hash.hashStrBytes).1 _
    (.v4 ⟨by decide, by decide⟩ ⟨by decide, by decide⟩ ⟨by decide, by decide⟩
      ⟨by decide, by decide⟩),
    ((hash_panics_iff hash.hashStrBytes).2.2.2.2.2.2.2.2 Nat (fun a b => decide (a = b)) id).1⟩

/-- The hashes of an address, of a socket address, and of a set and a deque with an element of hash
`2 ^ 64 - 1` behind another panic. -/
theorem hash_overflows :
    (net.ipV4 127 0 0 1).hash hash.hashStrBytes = .trap .overflow ∧
    (net.SocketAddr.mk (net.ipV4 127 0 0 1) 80).hash hash.hashStrBytes = .trap .overflow ∧
    (collections.Set.mk [1, 2 ^ 64 - 1] (by decide) :
      collections.Set fun a b : Nat => decide (a = b)).hash (returned id) = .trap .overflow ∧
    (collections.Deque.mk [] [2 ^ 64 - 1]).hash (returned id) = .trap .overflow := by
  refine ⟨by decide +kernel, by decide +kernel, by decide +kernel, by decide +kernel⟩

end stdlib
