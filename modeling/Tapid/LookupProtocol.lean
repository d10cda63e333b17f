/-
Frames of the lookup broker.

A contained process sends requests of one fixed size and gets responses of
another; a hostname lookup puts two strings into the request, and the addresses
found and a canonical name into the response.  Fields are little-endian and at
fixed offsets, strings end in a NUL and are filled up with zeros, and whether a
string is there at all is a bit of the request.

* `Request`, `response`, `responseError` — what all frames share;
* `Query`, `Answer` — lookups.
-/
import Tapid.ByteFrame

namespace Tapid

open Bytes

namespace Wire

/-! ### Frames -/

/-- A frame of a fixed size. -/
structure Frame (size : Nat) where
  bytes : List UInt8
  length_eq : bytes.length = size

theorem Frame.ext {size : Nat} {f g : Frame size} (h : f.bytes = g.bytes) : f = g := by
  cases f
  cases g
  cases h
  rfl

instance (size : Nat) : DecidableEq (Frame size) := fun f g =>
  decidable_of_iff (f.bytes = g.bytes) ⟨Frame.ext, fun h => h ▸ rfl⟩

def version : UInt32 := 2

def requestSize : Nat := 616

def responseSize : Nat := 2084

/-- The number at an offset. -/
def word (bytes : List UInt8) (offset : Nat) : UInt32 := UInt32.ofNat (ofLeBytes (slice bytes offset 4))

/-- Numbers written at their offsets. -/
def putWords (bytes : List UInt8) (words : List (Nat × UInt32)) : List UInt8 :=
  words.foldl (fun bytes entry => put bytes entry.1 (leBytes 4 entry.2.toNat)) bytes

theorem length_putWords {bytes : List UInt8} {words : List (Nat × UInt32)} {size : Nat}
    (hsize : bytes.length = size) (h : ∀ offset ∈ words.map Prod.fst, offset + 4 ≤ size) :
    (putWords bytes words).length = size := by
  induction words generalizing bytes with
  | nil => exact hsize
  | cons entry words ih =>
    rw [List.map_cons] at h
    have hput : (put bytes entry.1 (leBytes 4 entry.2.toNat)).length = size := by
      rw [length_put, hsize]
      rw [length_leBytes, hsize]
      exact h entry.1 List.mem_cons_self
    rw [putWords, List.foldl_cons]
    exact ih hput fun offset hoffset => h offset (List.mem_cons_of_mem _ hoffset)

/-- Writing within a frame keeps its size. -/
theorem length_put_eq {bytes v : List UInt8} {offset size : Nat} (hsize : bytes.length = size)
    (h : offset + v.length ≤ size) : (put bytes offset v).length = size := by
  rw [length_put (by rw [hsize]; exact h), hsize]

/-! ### Requests -/

/-- Operations of a request. -/
def socket : UInt32 := 1

def register : UInt32 := 2

def ack : UInt32 := 3

def lookup : UInt32 := 4

structure Request where
  operation : UInt32
  id : UInt32
  family : Int32
  kind : Int32
  protocol : Int32
  flags : UInt32
  child : UInt64
  deriving DecidableEq

namespace Request

def encodeBytes (r : Request) : List UInt8 :=
  put (putWords (List.replicate requestSize 0)
      [(0, version), (4, r.operation), (8, r.id), (12, r.family.toUInt32), (16, r.kind.toUInt32),
        (20, r.protocol.toUInt32), (24, r.flags)])
    32 (leBytes 8 r.child.toNat)

theorem length_encodeBytes (r : Request) : r.encodeBytes.length = requestSize := by
  refine length_put_eq (length_putWords List.length_replicate ?_) (by rw [length_leBytes]; decide)
  show ∀ offset ∈ [0, 4, 8, 12, 16, 20, 24], offset + 4 ≤ requestSize
  decide

def encode (r : Request) : Frame requestSize := ⟨r.encodeBytes, r.length_encodeBytes⟩

def decode (frame : Frame requestSize) : Option Request :=
  let bytes := frame.bytes
  if word bytes 0 ≠ version ∨ word bytes 8 = 0 ∨ word bytes 28 ≠ 0 then none
  else
    let request : Request :=
      { operation := word bytes 4
        id := word bytes 8
        family := (word bytes 12).toInt32
        kind := (word bytes 16).toInt32
        protocol := (word bytes 20).toInt32
        flags := word bytes 24
        child := UInt64.ofNat (ofLeBytes (slice bytes 32 8)) }
    let empty := request.family = 0 ∧ request.kind = 0 ∧ request.protocol = 0 ∧ request.flags = 0
    if request.operation ≠ lookup ∧ (bytes.drop 40).any (· ≠ 0) then none
    else if request.operation = socket ∧ request.child = 0 then some request
    else if request.operation = register ∧ empty ∧ request.child ≠ 0 ∧ request.child ≠ 0xFFFFFFFFFFFFFFFF then
      some request
    else if request.operation = ack ∧ empty ∧ request.child = 0 then some request
    else if request.operation = lookup ∧ request.child ≤ 3 then some request
    else none

end Request

/-! ### Responses -/

def responseBytes (id error : UInt32) (request reply : Int64) : List UInt8 :=
  let bytes := putWords (List.replicate responseSize 0) [(0, version), (4, id), (8, error)]
  put (put bytes 16 (leBytes 8 request.toUInt64.toNat)) 24 (leBytes 8 reply.toUInt64.toNat)

theorem length_responseBytes (id error : UInt32) (request reply : Int64) :
    (responseBytes id error request reply).length = responseSize := by
  refine length_put_eq (length_put_eq (length_putWords List.length_replicate ?_) ?_) ?_
  · show ∀ offset ∈ [0, 4, 8], offset + 4 ≤ responseSize
    decide
  · rw [length_leBytes]
    decide
  · rw [length_leBytes]
    decide

def response (id error : UInt32) (request reply : Int64) : Frame responseSize :=
  ⟨responseBytes id error request reply, length_responseBytes id error request reply⟩

/-- The error a response to a request carries. -/
def responseError (frame : Frame responseSize) (id : UInt32) : Except UInt32 UInt32 :=
  let bytes := frame.bytes
  if slice bytes 0 4 ≠ leBytes 4 version.toNat ∨ slice bytes 4 4 ≠ leBytes 4 id.toNat ∨
      slice bytes 12 4 ≠ [0, 0, 0, 0] ∨ slice bytes (responseSize - 4) 4 ≠ [0, 0, 0, 0] then .error 10022
  else .ok (word bytes 8)

/-! ### Strings -/

def isHighSurrogate (u : UInt16) : Bool := 0xD800 ≤ u && u < 0xDC00

def isLowSurrogate (u : UInt16) : Bool := 0xDC00 ≤ u && u < 0xE000

/-- `String::from_utf16` accepts: surrogates come in pairs. -/
def isUtf16 : List UInt16 → Bool
  | [] => true
  | [u] => !isHighSurrogate u && !isLowSurrogate u
  | u :: w :: rest =>
    if isHighSurrogate u then isLowSurrogate w && isUtf16 rest
    else !isLowSurrogate u && isUtf16 (w :: rest)

/-- Bytes of a string. -/
def unitBytes (units : List UInt16) : List UInt8 := units.flatMap fun u => leBytes 2 u.toNat

theorem length_unitBytes (units : List UInt16) : (unitBytes units).length = 2 * units.length := by
  induction units with
  | nil => rfl
  | cons u units ih =>
    rw [unitBytes, List.flatMap_cons, List.length_append, length_leBytes, ← unitBytes, ih, List.length_cons]
    omega

def unitsOf (bytes : List UInt8) : List UInt16 := (chunks 2 bytes).map fun b => UInt16.ofNat (ofLeBytes b)

/-- A string up to its NUL, when only zeros follow. -/
def string (bytes : List UInt8) : Option (List UInt16) := do
  let units := unitsOf bytes
  let stop ← units.findIdx? (· = 0)
  if (units.drop stop).any (· ≠ 0) ∨ isUtf16 (units.take stop) = false then none
  else some (units.take (stop + 1))

/-! ### Lookups -/

def maxAddresses : Nat := 32

/-- Offset of the canonical name. -/
def canonicalOffset : Nat := 32 + maxAddresses * 48

def allowedFlags : UInt32 := 1 ||| 2 ||| 4 ||| 8 ||| 256 ||| 1024 ||| 2048

structure Query where
  name : List UInt16
  service : List UInt16
  family : Int32
  kind : Int32
  protocol : Int32
  flags : UInt32
  deriving DecidableEq

namespace Query

/-- The string of a field, which is empty unless its bit is set. -/
def stringField (bit : UInt64) (child : UInt64) (text : List UInt16) : Option (List UInt16) :=
  if child &&& bit = 0 then if text ≠ [0] then none else some [] else some text

def decode (frame : Frame requestSize) (request : Request) : Option Query :=
  let bytes := frame.bytes
  if request.operation ≠ lookup ∨ request.family ∉ [0, 2, 23] ∨ request.kind ∉ [0, 1, 2] ∨
      request.protocol ∉ [0, 6, 17] ∨ request.flags &&& ~~~allowedFlags ≠ 0 ∨
      (request.kind, request.protocol) = (1, 17) ∨ (request.kind, request.protocol) = (2, 6) then none
  else do
    let name ← string (slice bytes 40 512)
    let service ← string (slice bytes 552 64)
    let name ← stringField 1 request.child name
    let service ← stringField 2 request.child service
    if name = [] ∧ service = [] then none
    else some ⟨name, service, request.family, request.kind, request.protocol, request.flags⟩

/-- The request a query is sent with. -/
def header (q : Query) (id : UInt32) : Request :=
  { operation := lookup
    id := id
    family := q.family
    kind := q.kind
    protocol := q.protocol
    flags := q.flags
    child := (if q.name ≠ [] then (1 : UInt64) else 0) ||| (if q.service ≠ [] then (1 : UInt64) else 0) <<< 1 }

def encode (q : Query) (id : UInt32) : Option (Frame requestSize) :=
  let header := q.header id
  if hname : 256 < q.name.length then none
  else if hservice : 32 < q.service.length then none
  else
    let frame : Frame requestSize :=
      ⟨put (put header.encode.bytes 40 (unitBytes q.name)) 552 (unitBytes q.service), by
        refine length_put_eq (length_put_eq header.encode.length_eq ?_) ?_ <;>
          (rw [length_unitBytes, requestSize]; omega)⟩
    (decode frame header).map fun _ => frame

end Query

structure Address where
  flags : Int32
  family : Int32
  kind : Int32
  protocol : Int32
  bytes : List UInt8
  deriving DecidableEq

structure Answer where
  canonical : List UInt16
  addresses : List Address
  deriving DecidableEq

namespace Address

/-- The row of an address, written at its offset. -/
def write (bytes : List UInt8) (offset : Nat) (a : Address) : List UInt8 :=
  put (putWords bytes [(offset, a.flags.toUInt32), (offset + 4, a.family.toUInt32),
      (offset + 8, a.kind.toUInt32), (offset + 12, a.protocol.toUInt32),
      (offset + 16, UInt32.ofNat a.bytes.length)])
    (offset + 20) a.bytes

def decode (row : List UInt8) : Option Address :=
  let family := (word row 4).toInt32
  let length := (word row 16).toNat
  let kind := (word row 8).toInt32
  let protocol := (word row 12).toInt32
  if ¬ ((family, length) = (2, 16) ∨ (family, length) = (23, 28)) ∨ word row 0 &&& ~~~allowedFlags ≠ 0 ∨
      kind ∉ [0, 1, 2] ∨ protocol ∉ [0, 6, 17] ∨
      UInt16.ofNat (ofLeBytes (slice row 20 2)) ≠ family.toUInt32.toUInt16 ∨
      (row.drop (20 + length)).any (· ≠ 0) then none
  else some ⟨(word row 0).toInt32, family, kind, protocol, slice row 20 length⟩

end Address

namespace Answer

/-- Rows one after the other, unless an address is too long. -/
def writeRows (bytes : List UInt8) (offset : Nat) : List Address → Option (List UInt8)
  | [] => some bytes
  | a :: rest =>
    if 28 < a.bytes.length then none else writeRows (a.write bytes offset) (offset + 48) rest

theorem length_write {bytes : List UInt8} {offset size : Nat} {a : Address} (hsize : bytes.length = size)
    (hoffset : offset + 48 ≤ size) (h : a.bytes.length ≤ 28) : (a.write bytes offset).length = size := by
  refine length_put_eq (length_putWords hsize fun o ho => ?_) (by omega)
  simp only [List.map_cons, List.map_nil, List.mem_cons, List.not_mem_nil, or_false] at ho
  omega

theorem length_writeRows {bytes rows : List UInt8} {offset size : Nat} {addresses : List Address}
    (hsize : bytes.length = size) (hoffset : offset + 48 * addresses.length ≤ size)
    (h : writeRows bytes offset addresses = some rows) : rows.length = size := by
  induction addresses generalizing bytes offset with
  | nil =>
    obtain rfl := Option.some_inj.mp h
    exact hsize
  | cons a rest ih =>
    rw [writeRows] at h
    rw [List.length_cons] at hoffset
    split_ifs at h with hlong
    exact ih (length_write hsize (by omega) (by omega)) (by omega) h

def decode (frame : Frame responseSize) : Option Answer :=
  let bytes := frame.bytes
  let count := (word bytes 16).toNat
  if count = 0 ∨ maxAddresses < count ∨ (slice bytes 20 12).any (· ≠ 0) then none
  else do
    let canonical ← string (slice bytes canonicalOffset 512)
    let addresses ← (chunks 48 (slice bytes 32 (count * 48))).mapM Address.decode
    if (slice bytes (32 + count * 48) (canonicalOffset - (32 + count * 48))).any (· ≠ 0) then none
    else some ⟨canonical, addresses⟩

/-- The response before the canonical name is written. -/
def start (a : Answer) (id : UInt32) : List UInt8 :=
  put (response id 0 0 0).bytes 16 (leBytes 4 a.addresses.length)

theorem length_start (a : Answer) (id : UInt32) : (a.start id).length = responseSize :=
  length_put_eq (response id 0 0 0).length_eq (by rw [length_leBytes]; decide)

def encode (a : Answer) (id : UInt32) : Option (Frame responseSize) :=
  if hcheck : a.addresses = [] ∨ maxAddresses < a.addresses.length ∨ 256 < a.canonical.length then none
  else
    match hrows : writeRows (a.start id) 32 a.addresses with
    | none => none
    | some rows =>
      let frame : Frame responseSize :=
        ⟨put rows canonicalOffset (unitBytes a.canonical), by
          rw [not_or, not_or, Nat.not_lt, Nat.not_lt, maxAddresses] at hcheck
          refine length_put_eq (length_writeRows (a.length_start id) ?_ hrows) ?_
          · rw [responseSize]
            omega
          · rw [length_unitBytes, canonicalOffset, maxAddresses, responseSize]
            omega⟩
      (decode frame).map fun _ => frame

end Answer

end Wire

end Tapid
