/-
Lookup frames are read back as they were written, and written as they were read.

A frame that is written is its words one after the other, its strings filled up
with zeros and, for an answer, its rows (`Query.encode_bytes`,
`Answer.encode_bytes`).  A frame that is accepted has no byte that is not read
or checked to be zero, so it is such a frame itself (`Query.bytes_of_decode`,
`Answer.bytes_of_decode`).

* `string_padded`, `string_eq_some` — strings;
* `lookup_codec` — both laws for queries and answers.
-/
import Tapid.LookupProtocol

namespace Tapid

open Bytes

namespace Wire

/-! ### Words -/

def wordBytes (values : List UInt32) : List UInt8 := values.flatMap fun v => leBytes 4 v.toNat

/-- Words at consecutive offsets. -/
def consecutive (start : Nat) : List UInt32 → List (Nat × UInt32)
  | [] => []
  | v :: values => (start, v) :: consecutive (start + 4) values

@[simp] theorem length_wordBytes (values : List UInt32) : (wordBytes values).length = 4 * values.length := by
  induction values with
  | nil => rfl
  | cons v values ih =>
    rw [wordBytes, List.flatMap_cons, List.length_append, length_leBytes, ← wordBytes, ih, List.length_cons]
    omega

theorem wordBytes_cons (v : UInt32) (values : List UInt32) :
    wordBytes (v :: values) = leBytes 4 v.toNat ++ wordBytes values := rfl

/-- Zeros overwritten from their beginning. -/
theorem put_zeros {a v : List UInt8} {offset k : Nat} (h : a.length = offset) :
    put (a ++ List.replicate (v.length + k) 0) offset v = a ++ v ++ List.replicate k 0 := by
  rw [put_append_of_length h, List.drop_replicate, Nat.add_sub_cancel_left, List.append_assoc]

theorem putWords_consecutive {a : List UInt8} {start : Nat} (values : List UInt32) (k : Nat)
    (h : a.length = start) : putWords (a ++ List.replicate (4 * values.length + k) 0) (consecutive start values) =
      a ++ wordBytes values ++ List.replicate k 0 := by
  induction values generalizing a start with
  | nil =>
    rw [List.length_nil, Nat.mul_zero, Nat.zero_add, wordBytes, List.flatMap_nil, List.append_nil]
    rfl
  | cons v values ih =>
    have hsplit : 4 * (v :: values).length + k = (leBytes 4 v.toNat).length + (4 * values.length + k) := by
      rw [length_leBytes, List.length_cons]
      omega
    have hlength : (a ++ leBytes 4 v.toNat).length = start + 4 := by
      rw [List.length_append, length_leBytes, h]
    rw [putWords, consecutive, List.foldl_cons, hsplit, put_zeros h]
    have hrest := ih hlength
    rw [putWords] at hrest
    rw [hrest, wordBytes_cons, List.append_assoc a]

theorem word_of_slice {bytes : List UInt8} {offset : Nat} {v : UInt32}
    (h : slice bytes offset 4 = leBytes 4 v.toNat) : word bytes offset = v := by
  have hlt : v.toNat < 256 ^ 4 := v.toNat_lt
  rw [word, h, ofLeBytes_leBytes hlt, UInt32.ofNat_toNat]

/-- **The words of a frame.** -/
theorem word_wordBytes (values : List UInt32) (rest : List UInt8) {i : Nat} (h : i < values.length) :
    word (wordBytes values ++ rest) (4 * i) = values[i] := by
  refine word_of_slice ?_
  induction values generalizing i with
  | nil => exact absurd h (Nat.not_lt_zero i)
  | cons v values ih =>
    rw [wordBytes_cons, List.append_assoc]
    cases i with
    | zero => exact slice_append_of_length (length_leBytes 4 _)
    | succ i =>
      have hle : (leBytes 4 v.toNat).length ≤ 4 * (i + 1) := by
        rw [length_leBytes]
        omega
      have hsub : 4 * (i + 1) - (leBytes 4 v.toNat).length = 4 * i := by
        rw [length_leBytes]
        omega
      rw [slice_append_of_le hle, hsub, ih (Nat.lt_of_succ_lt_succ h)]
      rfl

/-- A word is its bytes. -/
theorem slice_eq_leBytes_word {bytes : List UInt8} {offset : Nat} (h : offset + 4 ≤ bytes.length) :
    slice bytes offset 4 = leBytes 4 (word bytes offset).toNat := by
  have hlength : (slice bytes offset 4).length = 4 := length_slice h
  have hlt := ofLeBytes_lt (slice bytes offset 4)
  rw [hlength] at hlt
  have hword : (word bytes offset).toNat = ofLeBytes (slice bytes offset 4) := by
    rw [word, UInt32.toNat_ofNat']
    exact Nat.mod_eq_of_lt hlt
  have hbytes := leBytes_ofLeBytes (slice bytes offset 4)
  rw [hlength] at hbytes
  rw [hword, hbytes]

theorem wordBytes_append (a b : List UInt32) : wordBytes (a ++ b) = wordBytes a ++ wordBytes b :=
  List.flatMap_append

/-- **A frame is its words** and what comes after them. -/
theorem eq_wordBytes_append (bytes : List UInt8) {k : Nat} (h : 4 * k ≤ bytes.length) :
    bytes = wordBytes ((List.range k).map fun i => word bytes (4 * i)) ++ bytes.drop (4 * k) := by
  induction k with
  | zero => rfl
  | succ k ih =>
    have hlast : bytes.drop (4 * k) = leBytes 4 (word bytes (4 * k)).toNat ++ bytes.drop (4 * (k + 1)) := by
      rw [drop_eq_slice_append bytes (4 * k) 4, slice_eq_leBytes_word (by omega)]
      rfl
    have hbefore := ih (by omega)
    rw [hlast] at hbefore
    rw [List.range_succ, List.map_append, wordBytes_append, List.append_assoc]
    refine hbefore.trans ?_
    rw [List.map_cons, List.map_nil, wordBytes_cons]
    rfl

/-- Bytes that are checked to be zero. -/
theorem eq_zeros {l : List UInt8} {n : Nat} (hlength : l.length = n) (h : l.any (· ≠ 0) = false) :
    l = List.replicate n 0 := by
  refine List.eq_replicate_iff.mpr ⟨hlength, fun b hb => ?_⟩
  by_contra hne
  have hany : l.any (· ≠ 0) = true := List.any_eq_true.mpr ⟨b, hb, by simpa using hne⟩
  exact Bool.noConfusion (hany.symm.trans h)

/-! ### Strings -/

/-- A string that ends in its only NUL. -/
def Terminated (text : List UInt16) : Prop := ∃ body, text = body ++ [0] ∧ 0 ∉ body

theorem unitBytes_append (a b : List UInt16) : unitBytes (a ++ b) = unitBytes a ++ unitBytes b :=
  List.flatMap_append

theorem unitBytes_replicate_zero (k : Nat) : unitBytes (List.replicate k 0) = List.replicate (2 * k) 0 := by
  induction k with
  | zero => rfl
  | succ k ih =>
    rw [List.replicate_succ, unitBytes, List.flatMap_cons, ← unitBytes, ih, Nat.mul_succ, Nat.add_comm,
      List.replicate_add]
    rfl

theorem unitBytes_eq_flatten (units : List UInt16) :
    unitBytes units = (units.map fun u => leBytes 2 u.toNat).flatten := by
  rw [unitBytes, List.flatMap_def]

theorem unitsOf_unitBytes (units : List UInt16) : unitsOf (unitBytes units) = units := by
  have hrows : ∀ row ∈ units.map fun u => leBytes 2 u.toNat, row.length = 2 := by
    intro row hrow
    obtain ⟨u, _, rfl⟩ := List.mem_map.mp hrow
    exact length_leBytes 2 _
  rw [unitsOf, unitBytes_eq_flatten, chunks_flatten (by decide) hrows, List.map_map]
  conv_rhs => rw [← List.map_id units]
  refine List.map_congr_left fun u _ => ?_
  have hlt : u.toNat < 256 ^ 2 := u.toNat_lt
  rw [Function.comp_apply, ofLeBytes_leBytes hlt, UInt16.ofNat_toNat, id]

theorem unitBytes_unitsOf {bytes : List UInt8} {k : Nat} (h : bytes.length = 2 * k) :
    unitBytes (unitsOf bytes) = bytes := by
  rw [unitBytes_eq_flatten, unitsOf, List.map_map]
  conv_rhs => rw [← flatten_chunks (by decide) h]
  congr 1
  conv_rhs => rw [← List.map_id (chunks 2 bytes)]
  refine List.map_congr_left fun row hrow => ?_
  have hlength := length_of_mem_chunks hrow
  have hlt := ofLeBytes_lt row
  have hbytes := leBytes_ofLeBytes row
  rw [hlength] at hlt hbytes
  have htoNat : (UInt16.ofNat (ofLeBytes row)).toNat = ofLeBytes row := by
    rw [UInt16.toNat_ofNat']
    exact Nat.mod_eq_of_lt hlt
  rw [Function.comp_apply, htoNat, hbytes, id]

theorem length_unitsOf (bytes : List UInt8) : (unitsOf bytes).length = bytes.length / 2 := by
  rw [unitsOf, List.length_map, length_chunks]

/-- The first NUL of a terminated string. -/
theorem findIdx?_terminated {body : List UInt16} (h : 0 ∉ body) (rest : List UInt16) :
    (body ++ 0 :: rest).findIdx? (· = 0) = some body.length := by
  have hnone : body.findIdx? (· = 0) = none := by
    refine List.findIdx?_eq_none_iff.mpr fun u hu => ?_
    simp only [decide_eq_false_iff_not]
    rintro rfl
    exact h hu
  rw [List.findIdx?_append, hnone]
  simp [List.findIdx?_cons]

/-- **A string with zeros after it** is read as it stands. -/
theorem string_padded {text : List UInt16} (h : Terminated text) (k : Nat) {read : List UInt16}
    (hread : string (unitBytes text ++ List.replicate (2 * k) 0) = some read) : read = text := by
  obtain ⟨body, rfl, hbody⟩ := h
  have hunits : unitsOf (unitBytes (body ++ [0]) ++ List.replicate (2 * k) 0) =
      body ++ 0 :: List.replicate k 0 := by
    rw [← unitBytes_replicate_zero, ← unitBytes_append, unitsOf_unitBytes, List.append_assoc]
    rfl
  simp only [string, hunits, findIdx?_terminated hbody, Option.bind_eq_bind, Option.bind_some] at hread
  split_ifs at hread
  rw [← Option.some_inj.mp hread, List.take_append]
  simp

/-- Zeros are the empty string. -/
theorem string_zeros (k : Nat) : string (List.replicate (2 * (k + 1)) 0) = some [0] := by
  have hunits : unitsOf (List.replicate (2 * (k + 1)) 0) = [] ++ 0 :: List.replicate k 0 := by
    rw [← unitBytes_replicate_zero, unitsOf_unitBytes]
    rfl
  simp only [string, hunits, findIdx?_terminated List.not_mem_nil, Option.bind_eq_bind, Option.bind_some]
  simp [isUtf16]

/-- **A string that is read** is what its field holds, and zeros. -/
theorem string_eq_some {bytes : List UInt8} {k : Nat} {text : List UInt16} (hsize : bytes.length = 2 * k)
    (h : string bytes = some text) : Terminated text ∧ text.length ≤ k ∧
      bytes = unitBytes text ++ List.replicate (2 * (k - text.length)) 0 := by
  simp only [string, Option.bind_eq_bind, Option.bind_eq_some_iff] at h
  obtain ⟨stop, hstop, h⟩ := h
  split_ifs at h with hcheck
  rw [not_or] at hcheck
  obtain rfl := Option.some_inj.mp h
  obtain ⟨hlt, hzero, hbefore⟩ := List.findIdx?_eq_some_iff_getElem.mp hstop
  have hlength : (unitsOf bytes).length = k := by
    rw [length_unitsOf, hsize]
    omega
  rw [hlength] at hlt
  have hzero : (unitsOf bytes)[stop] = 0 := by simpa using hzero
  have htake : (unitsOf bytes).take (stop + 1) = (unitsOf bytes).take stop ++ [0] := by
    rw [List.take_succ_eq_append_getElem (by omega), hzero]
  have hrest : (unitsOf bytes).drop (stop + 1) = List.replicate (k - (stop + 1)) 0 := by
    refine List.eq_replicate_iff.mpr ⟨by rw [List.length_drop, hlength], fun u hu => ?_⟩
    by_contra hne
    refine hcheck.1 (List.any_eq_true.mpr ⟨u, ?_, by simpa using hne⟩)
    rw [List.drop_eq_getElem_cons (by omega)]
    exact List.mem_cons_of_mem _ hu
  have htext : ((unitsOf bytes).take (stop + 1)).length = stop + 1 := by
    rw [List.length_take]
    omega
  refine ⟨⟨(unitsOf bytes).take stop, htake, fun hmem => ?_⟩, by omega, ?_⟩
  · obtain ⟨i, hi, hget⟩ := List.getElem_of_mem hmem
    rw [List.length_take] at hi
    rw [List.getElem_take] at hget
    exact hbefore i (by omega) (by simpa using hget)
  · rw [htext, ← unitBytes_replicate_zero, ← hrest, ← unitBytes_append, List.take_append_drop,
      unitBytes_unitsOf hsize]

/-! ### Requests -/

/-- The words of a request before its child. -/
def Request.words (r : Request) : List UInt32 :=
  [version, r.operation, r.id, r.family.toUInt32, r.kind.toUInt32, r.protocol.toUInt32, r.flags, 0]

/-- The header of a request. -/
def Request.head (r : Request) : List UInt8 := wordBytes r.words ++ leBytes 8 r.child.toNat

theorem Request.length_head (r : Request) : r.head.length = 40 := by
  rw [head, List.length_append, length_wordBytes, length_leBytes]
  rfl

theorem Request.encode_bytes (r : Request) : r.encode.bytes = r.head ++ List.replicate 576 0 := by
  have hwords := @putWords_consecutive [] 0 [version, r.operation, r.id, r.family.toUInt32, r.kind.toUInt32,
    r.protocol.toUInt32, r.flags] 588 rfl
  have hlast : leBytes 4 (0 : UInt32).toNat = List.replicate 4 0 := leBytes_zero 4
  have hall : wordBytes r.words = wordBytes [version, r.operation, r.id, r.family.toUInt32, r.kind.toUInt32,
      r.protocol.toUInt32, r.flags] ++ List.replicate 4 0 := by
    rw [← hlast]
    simp only [words, wordBytes, List.flatMap_cons, List.flatMap_nil, List.append_assoc, List.append_nil]
  have hlength : (wordBytes r.words).length = 32 := by
    rw [length_wordBytes]
    rfl
  have hwritten : putWords (List.replicate requestSize 0)
      [(0, version), (4, r.operation), (8, r.id), (12, r.family.toUInt32), (16, r.kind.toUInt32),
        (20, r.protocol.toUInt32), (24, r.flags)] = wordBytes r.words ++ List.replicate 584 0 := by
    refine hwords.trans ?_
    rw [hall, List.nil_append, List.append_assoc, ← List.replicate_add]
  have hput := @put_zeros (wordBytes r.words) (leBytes 8 r.child.toNat) 32 576 hlength
  rw [length_leBytes] at hput
  show put (putWords (List.replicate requestSize 0)
      [(0, version), (4, r.operation), (8, r.id), (12, r.family.toUInt32), (16, r.kind.toUInt32),
        (20, r.protocol.toUInt32), (24, r.flags)]) 32 (leBytes 8 r.child.toNat) = _
  rw [hwritten, hput, head]

/-- What a request reads in a frame that begins with its header. -/
theorem Request.word_head (r : Request) (rest : List UInt8) {i : Nat} (h : i < 8) :
    word (r.head ++ rest) (4 * i) = r.words[i] := by
  rw [head, List.append_assoc]
  exact word_wordBytes r.words _ h

theorem Request.child_head (r : Request) (rest : List UInt8) :
    UInt64.ofNat (ofLeBytes (slice (r.head ++ rest) 32 8)) = r.child := by
  have hlength : (wordBytes r.words).length = 32 := by
    rw [length_wordBytes]
    rfl
  have hlt : r.child.toNat < 256 ^ 8 := r.child.toNat_lt
  rw [head, List.append_assoc, slice_append_of_le (Nat.le_of_eq hlength), hlength, Nat.sub_self,
    slice_append_of_length (length_leBytes 8 _), ofLeBytes_leBytes hlt, UInt64.ofNat_toNat]

/-- The request a frame's first bytes spell. -/
def Request.read (bytes : List UInt8) : Request :=
  ⟨word bytes 4, word bytes 8, (word bytes 12).toInt32, (word bytes 16).toInt32, (word bytes 20).toInt32,
    word bytes 24, UInt64.ofNat (ofLeBytes (slice bytes 32 8))⟩

theorem Request.read_head (r : Request) (rest : List UInt8) : Request.read (r.head ++ rest) = r := by
  have hword := fun (i : Nat) (h : i < 8) => r.word_head rest h
  have h4 : word (r.head ++ rest) 4 = r.operation := hword 1 (by omega)
  have h8 : word (r.head ++ rest) 8 = r.id := hword 2 (by omega)
  have h12 : word (r.head ++ rest) 12 = r.family.toUInt32 := hword 3 (by omega)
  have h16 : word (r.head ++ rest) 16 = r.kind.toUInt32 := hword 4 (by omega)
  have h20 : word (r.head ++ rest) 20 = r.protocol.toUInt32 := hword 5 (by omega)
  have h24 : word (r.head ++ rest) 24 = r.flags := hword 6 (by omega)
  rw [read, h4, h8, h12, h16, h20, h24, r.child_head]
  rfl

/-- A request, when it is one that may be sent with the rest of its frame. -/
def Request.checked (r : Request) (rest : List UInt8) : Option Request :=
  let empty := r.family = 0 ∧ r.kind = 0 ∧ r.protocol = 0 ∧ r.flags = 0
  if r.operation ≠ Wire.lookup ∧ rest.any (· ≠ 0) then none
  else if r.operation = socket ∧ r.child = 0 then some r
  else if r.operation = register ∧ empty ∧ r.child ≠ 0 ∧ r.child ≠ 0xFFFFFFFFFFFFFFFF then some r
  else if r.operation = ack ∧ empty ∧ r.child = 0 then some r
  else if r.operation = Wire.lookup ∧ r.child ≤ 3 then some r
  else none

theorem Request.decode_eq (frame : Frame requestSize) : Request.decode frame =
    if word frame.bytes 0 ≠ version ∨ word frame.bytes 8 = 0 ∨ word frame.bytes 28 ≠ 0 then none
    else (Request.read frame.bytes).checked (frame.bytes.drop 40) := rfl

/-- **A lookup request is read back** from a frame that begins with it. -/
theorem Request.decode_lookup {r : Request} {frame : Frame requestSize} {rest : List UInt8}
    (hbytes : frame.bytes = r.head ++ rest) (hop : r.operation = Wire.lookup) (hid : r.id ≠ 0)
    (hchild : r.child ≤ 3) : Request.decode frame = some r := by
  have hok : ¬ (word frame.bytes 0 ≠ version ∨ word frame.bytes 8 = 0 ∨ word frame.bytes 28 ≠ 0) := by
    have h0 : word (r.head ++ rest) 0 = version := @r.word_head rest 0 (by omega)
    have h8 : word (r.head ++ rest) 8 = r.id := @r.word_head rest 2 (by omega)
    have h28 : word (r.head ++ rest) 28 = 0 := @r.word_head rest 7 (by omega)
    rw [hbytes, h0, h8, h28]
    simp [hid]
  have h1 : Wire.lookup ≠ socket := by decide
  have h2 : Wire.lookup ≠ register := by decide
  have h3 : Wire.lookup ≠ ack := by decide
  rw [Request.decode_eq, if_neg hok, hbytes, r.read_head, checked]
  simp [hop, h1, h2, h3, hchild]

/-- What is accepted is what was read. -/
theorem Request.checked_eq_some {r s : Request} {rest : List UInt8} (h : r.checked rest = some s) :
    s = r ∧ (r.operation = Wire.lookup → r.child ≤ 3) := by
  have h1 : Wire.lookup ≠ socket := by decide
  have h2 : Wire.lookup ≠ register := by decide
  have h3 : Wire.lookup ≠ ack := by decide
  dsimp only [checked] at h
  split_ifs at h with _ hsocket hregister hack hlookup <;> obtain rfl := Option.some_inj.mp h <;>
    refine ⟨rfl, fun hop => ?_⟩
  · exact absurd (hop.symm.trans hsocket.1) h1
  · exact absurd (hop.symm.trans hregister.1) h2
  · exact absurd (hop.symm.trans hack.1) h3
  · exact hlookup.2

/-- **A frame that is accepted begins with its request.** -/
theorem Request.bytes_of_decode {r : Request} {frame : Frame requestSize} (h : Request.decode frame = some r) :
    frame.bytes = r.head ++ frame.bytes.drop 40 ∧ r.id ≠ 0 ∧ (r.operation = Wire.lookup → r.child ≤ 3) := by
  rw [Request.decode_eq] at h
  split_ifs at h with hbad
  rw [not_or, not_or, not_not, not_not] at hbad
  obtain ⟨hversion, hid, hreserved⟩ := hbad
  obtain ⟨rfl, hchild⟩ := Request.checked_eq_some h
  refine ⟨?_, hid, hchild⟩
  have hsize : frame.bytes.length = 616 := frame.length_eq
  have hread : slice frame.bytes 32 8 = leBytes 8 (Request.read frame.bytes).child.toNat := by
    have hlength : (slice frame.bytes 32 8).length = 8 := length_slice (by omega)
    have hlt := ofLeBytes_lt (slice frame.bytes 32 8)
    have hbytes := leBytes_ofLeBytes (slice frame.bytes 32 8)
    rw [hlength] at hlt hbytes
    have htoNat : (Request.read frame.bytes).child.toNat = ofLeBytes (slice frame.bytes 32 8) := by
      rw [Request.read, UInt64.toNat_ofNat']
      exact Nat.mod_eq_of_lt hlt
    rw [htoNat, hbytes]
  have hwords : wordBytes ((List.range 8).map fun i => word frame.bytes (4 * i)) =
      wordBytes (Request.read frame.bytes).words := by
    show wordBytes [word frame.bytes 0, word frame.bytes 4, word frame.bytes 8, word frame.bytes 12,
      word frame.bytes 16, word frame.bytes 20, word frame.bytes 24, word frame.bytes 28] = _
    rw [hversion, hreserved]
    rfl
  have hframe := @eq_wordBytes_append frame.bytes 8 (by omega)
  rw [hwords] at hframe
  rw [head, List.append_assoc, ← hread, ← drop_eq_slice_append]
  exact hframe

/-! ### Queries -/

/-- A string in a field of `k` units. -/
def fieldBytes (k : Nat) (text : List UInt16) : List UInt8 :=
  unitBytes text ++ List.replicate (2 * (k - text.length)) 0

theorem length_fieldBytes {k : Nat} {text : List UInt16} (h : text.length ≤ k) :
    (fieldBytes k text).length = 2 * k := by
  rw [fieldBytes, List.length_append, length_unitBytes, List.length_replicate]
  omega

/-- A field filled with zeros and then written. -/
theorem put_field {a rest : List UInt8} {k offset : Nat} {text : List UInt16} (ha : a.length = offset)
    (h : text.length ≤ k) : put (a ++ (List.replicate (2 * k) 0 ++ rest)) offset (unitBytes text) =
      a ++ (fieldBytes k text ++ rest) := by
  have hsplit : 2 * k = (unitBytes text).length + 2 * (k - text.length) := by
    rw [length_unitBytes]
    omega
  have hdrop : (List.replicate (unitBytes text).length (0 : UInt8) ++
      (List.replicate (2 * (k - text.length)) 0 ++ rest)).drop (unitBytes text).length =
      List.replicate (2 * (k - text.length)) 0 ++ rest := List.drop_left' List.length_replicate
  rw [put_append_of_length ha, hsplit, List.replicate_add, List.append_assoc, hdrop, fieldBytes, List.append_assoc]

namespace Query

theorem length_head (q : Query) (id : UInt32) : (q.header id).head.length = 40 := Request.length_head _

theorem bytes_written {q : Query} (id : UInt32) (hname : q.name.length ≤ 256) (hservice : q.service.length ≤ 32) :
    put (put (q.header id).encode.bytes 40 (unitBytes q.name)) 552 (unitBytes q.service) =
      (q.header id).head ++ (fieldBytes 256 q.name ++ fieldBytes 32 q.service) := by
  have hzeros : List.replicate 576 (0 : UInt8) = List.replicate (2 * 256) 0 ++ List.replicate (2 * 32) 0 := by
    rw [← List.replicate_add]
  have hlength : ((q.header id).head ++ fieldBytes 256 q.name).length = 552 := by
    rw [List.length_append, q.length_head, length_fieldBytes hname]
  have hlast := @put_field _ [] 32 552 q.service hlength hservice
  rw [List.append_nil, List.append_nil] at hlast
  rw [Request.encode_bytes, hzeros, put_field (q.length_head id) hname, ← List.append_assoc, hlast,
    List.append_assoc]

/-- **A query that is written** is its header and its two strings. -/
theorem encode_eq_some_iff {q : Query} {id : UInt32} {frame : Frame requestSize} : q.encode id = some frame ↔
    q.name.length ≤ 256 ∧ q.service.length ≤ 32 ∧
      frame.bytes = (q.header id).head ++ (fieldBytes 256 q.name ++ fieldBytes 32 q.service) ∧
      (decode frame (q.header id)).isSome := by
  dsimp only [encode]
  constructor
  · intro h
    split_ifs at h with hname hservice
    rw [Nat.not_lt] at hname hservice
    obtain ⟨read, hread, rfl⟩ := Option.map_eq_some_iff.mp h
    exact ⟨hname, hservice, bytes_written id hname hservice, Option.isSome_of_mem hread⟩
  · rintro ⟨hname, hservice, hbytes, hread⟩
    obtain ⟨read, hread⟩ := Option.isSome_iff_exists.mp hread
    have hall : ∀ written : Frame requestSize,
        written.bytes = put (put (q.header id).encode.bytes 40 (unitBytes q.name)) 552 (unitBytes q.service) →
        (decode written (q.header id)).map (fun _ => written) = some frame := by
      intro written hwritten
      have heq : written = frame := Frame.ext (hwritten.trans ((bytes_written id hname hservice).trans hbytes.symm))
      rw [heq, hread]
      rfl
    rw [dif_neg (Nat.not_lt.mpr hname), dif_neg (Nat.not_lt.mpr hservice)]
    exact hall _ rfl

/-- What a query is read from. -/
theorem decode_eq_some {q : Query} {frame : Frame requestSize} {r : Request} (h : decode frame r = some q) :
    r.operation = Wire.lookup ∧ ∃ name service, string (slice frame.bytes 40 512) = some name ∧
      string (slice frame.bytes 552 64) = some service ∧ stringField 1 r.child name = some q.name ∧
      stringField 2 r.child service = some q.service ∧ q.family = r.family ∧ q.kind = r.kind ∧
      q.protocol = r.protocol ∧ q.flags = r.flags := by
  dsimp only [decode] at h
  split_ifs at h with hbad
  rw [not_or, not_not] at hbad
  simp only [Option.bind_eq_bind, Option.bind_eq_some_iff] at h
  obtain ⟨name, hname, service, hservice, name', hname', service', hservice', h⟩ := h
  split_ifs at h
  obtain rfl := Option.some_inj.mp h
  exact ⟨hbad.1, name, service, hname, hservice, hname', hservice', rfl, rfl, rfl, rfl⟩

/-! The bits of a header say which strings there are. -/

theorem header_child_le (q : Query) (id : UInt32) : (q.header id).child ≤ 3 := by
  simp only [header]
  split_ifs <;> decide

theorem header_child_name (q : Query) (id : UInt32) : (q.header id).child &&& 1 = 0 ↔ q.name = [] := by
  simp only [header]
  by_cases hname : q.name = [] <;> by_cases hservice : q.service = [] <;> simp [hname, hservice] <;> decide

theorem header_child_service (q : Query) (id : UInt32) : (q.header id).child &&& 2 = 0 ↔ q.service = [] := by
  simp only [header]
  by_cases hname : q.name = [] <;> by_cases hservice : q.service = [] <;> simp [hname, hservice] <;> decide

/-- Two bits tell a small number. -/
theorem eq_of_bits {c d : UInt64} (hc : c ≤ 3) (hd : d ≤ 3) (h1 : c &&& 1 = 0 ↔ d &&& 1 = 0)
    (h2 : c &&& 2 = 0 ↔ d &&& 2 = 0) : c = d := by
  have hall : ∀ c d : Fin 4, (UInt64.ofNat c.val &&& 1 = 0 ↔ UInt64.ofNat d.val &&& 1 = 0) →
      (UInt64.ofNat c.val &&& 2 = 0 ↔ UInt64.ofNat d.val &&& 2 = 0) →
      UInt64.ofNat c.val = UInt64.ofNat d.val := by decide
  have hc' : c.toNat < 4 := Nat.lt_succ_of_le (UInt64.le_iff_toNat_le.mp hc)
  have hd' : d.toNat < 4 := Nat.lt_succ_of_le (UInt64.le_iff_toNat_le.mp hd)
  have h := hall ⟨c.toNat, hc'⟩ ⟨d.toNat, hd'⟩
  simp only [UInt64.ofNat_toNat] at h
  exact h h1 h2

end Query

/-! ### Both laws for queries -/

theorem Terminated.ne_nil {text : List UInt16} (h : Terminated text) : text ≠ [] := by
  obtain ⟨body, rfl, _⟩ := h
  exact List.append_ne_nil_of_right_ne_nil _ (List.cons_ne_nil _ _)

/-- What a field is read as. -/
theorem string_field {k : Nat} (hk : 0 < k) {text read : List UInt16} (htext : text = [] ∨ Terminated text)
    (h : string (fieldBytes k text) = some read) : read = if text = [] then [0] else text := by
  rcases htext with rfl | hterminated
  · have hzeros : fieldBytes k [] = List.replicate (2 * (k - 1 + 1)) 0 := by
      rw [fieldBytes, List.length_nil, Nat.sub_zero, Nat.sub_add_cancel hk]
      rfl
    rw [hzeros, string_zeros] at h
    rw [if_pos rfl]
    exact (Option.some_inj.mp h).symm
  · rw [if_neg hterminated.ne_nil]
    exact string_padded hterminated _ h

namespace Query

/-- A string whose bit is set as it should be. -/
theorem stringField_of_bit {bit child : UInt64} {text out : List UInt16} (hbit : child &&& bit = 0 ↔ text = [])
    (h : stringField bit child (if text = [] then [0] else text) = some out) : out = text := by
  unfold stringField at h
  by_cases htext : text = []
  · rw [if_pos (hbit.mpr htext), if_pos htext, if_neg (not_not.mpr rfl)] at h
    rw [htext, Option.some_inj.mp h]
  · rw [if_neg (mt hbit.mp htext), if_neg htext] at h
    exact (Option.some_inj.mp h).symm

/-- **A query that is written is read back**, and so is its request. -/
theorem decode_encode {q : Query} {id : UInt32} {frame : Frame requestSize} (hid : id ≠ 0)
    (hname : q.name = [] ∨ Terminated q.name) (hservice : q.service = [] ∨ Terminated q.service)
    (h : q.encode id = some frame) :
    Request.decode frame = some (q.header id) ∧ decode frame (q.header id) = some q := by
  obtain ⟨hnameLength, hserviceLength, hbytes, hread⟩ := encode_eq_some_iff.mp h
  refine ⟨Request.decode_lookup hbytes rfl hid (q.header_child_le id), ?_⟩
  obtain ⟨read, hread⟩ := Option.isSome_iff_exists.mp hread
  obtain ⟨_, name, service, hn, hs, hfieldName, hfieldService, hfamily, hkind, hprotocol, hflags⟩ :=
    decode_eq_some hread
  have hhead := q.length_head id
  have hfirst : (fieldBytes 256 q.name).length = 512 := length_fieldBytes hnameLength
  have hsecond : (fieldBytes 32 q.service).length = 64 := length_fieldBytes hserviceLength
  have hsliceName : slice frame.bytes 40 512 = fieldBytes 256 q.name := by
    rw [hbytes, slice_append_of_le (by omega), hhead, Nat.sub_self, slice_append_of_length hfirst]
  have hsliceService : slice frame.bytes 552 64 = fieldBytes 32 q.service := by
    have hwhole := slice_zero_length (fieldBytes 32 q.service)
    rw [hsecond] at hwhole
    rw [hbytes, slice_append_of_le (by omega), hhead, slice_append_of_le (by omega), hfirst]
    exact hwhole
  rw [hsliceName] at hn
  rw [hsliceService] at hs
  rw [string_field (by omega) hname hn] at hfieldName
  rw [string_field (by omega) hservice hs] at hfieldService
  have heqName := stringField_of_bit (q.header_child_name id) hfieldName
  have heqService := stringField_of_bit (q.header_child_service id) hfieldService
  rw [hread]
  cases read
  cases q
  simp_all [header]

/-- A string that is read from a field is written into it, and its bit is set as it should be. -/
theorem field_of_string {bytes : List UInt8} {k : Nat} {bit child : UInt64} {text out : List UInt16}
    (hsize : bytes.length = 2 * k) (h : string bytes = some text) (hfield : stringField bit child text = some out) :
    bytes = fieldBytes k out ∧ out.length ≤ k ∧ (child &&& bit = 0 ↔ out = []) := by
  obtain ⟨hterminated, hlength, hbytes⟩ := string_eq_some hsize h
  unfold stringField at hfield
  split_ifs at hfield with hbit htext
  · -- the bit is clear, and the field holds zeros
    rw [not_not] at htext
    obtain rfl := Option.some_inj.mp hfield
    refine ⟨?_, Nat.zero_le k, iff_of_true hbit rfl⟩
    have hk : 2 * (k - 0) = 2 + 2 * (k - 1) := by
      rw [htext] at hlength
      have hone : 1 ≤ k := hlength
      omega
    rw [hbytes, htext, fieldBytes, List.length_nil, hk, List.replicate_add]
    rfl
  · obtain rfl := Option.some_inj.mp hfield
    exact ⟨hbytes, hlength, iff_of_false hbit hterminated.ne_nil⟩

/-- **A frame that is accepted is the one its query is written as.** -/
theorem encode_decode {q : Query} {r : Request} {frame : Frame requestSize} (hr : Request.decode frame = some r)
    (hq : decode frame r = some q) : q.encode r.id = some frame := by
  obtain ⟨hbytes, _, hchild⟩ := Request.bytes_of_decode hr
  obtain ⟨hop, name, service, hn, hs, hfieldName, hfieldService, hfamily, hkind, hprotocol, hflags⟩ :=
    decode_eq_some hq
  have hsize : frame.bytes.length = 616 := frame.length_eq
  have hnameSize : (slice frame.bytes 40 512).length = 2 * 256 := length_slice (by omega)
  have hserviceSize : (slice frame.bytes 552 64).length = 2 * 32 := length_slice (by omega)
  obtain ⟨hname, hnameLength, hnameBit⟩ := field_of_string hnameSize hn hfieldName
  obtain ⟨hservice, hserviceLength, hserviceBit⟩ := field_of_string hserviceSize hs hfieldService
  have hheader : q.header r.id = r := by
    have hbits : (q.header r.id).child = r.child := by
      refine eq_of_bits (q.header_child_le r.id) (hchild hop) ?_ ?_
      · exact (q.header_child_name r.id).trans hnameBit.symm
      · exact (q.header_child_service r.id).trans hserviceBit.symm
    have hfields : q.header r.id =
        ⟨Wire.lookup, r.id, q.family, q.kind, q.protocol, q.flags, (q.header r.id).child⟩ := rfl
    rw [hfields, hbits, hfamily, hkind, hprotocol, hflags, ← hop]
  refine encode_eq_some_iff.mpr ⟨hnameLength, hserviceLength, ?_, ?_⟩
  · have hrest : frame.bytes.drop 616 = [] := List.drop_eq_nil_iff.mpr (Nat.le_of_eq hsize)
    rw [hheader, ← hname, ← hservice]
    conv_lhs => rw [hbytes, drop_eq_slice_append _ 40 512, drop_eq_slice_append _ 552 64, hrest, List.append_nil]
  · rw [hheader, hq]
    rfl

end Query

/-! ### Rows -/

/-- The words of an address before its bytes. -/
def Address.words (a : Address) : List UInt32 :=
  [a.flags.toUInt32, a.family.toUInt32, a.kind.toUInt32, a.protocol.toUInt32, UInt32.ofNat a.bytes.length]

/-- The row of an address. -/
def Address.rowBytes (a : Address) : List UInt8 :=
  wordBytes a.words ++ (a.bytes ++ List.replicate (28 - a.bytes.length) 0)

namespace Address

theorem length_words (a : Address) : (wordBytes a.words).length = 20 := length_wordBytes _

theorem length_rowBytes {a : Address} (h : a.bytes.length ≤ 28) : a.rowBytes.length = 48 := by
  rw [rowBytes, List.length_append, List.length_append, List.length_replicate, a.length_words]
  omega

/-- A row is written over zeros. -/
theorem write_zeros {a : Address} {before : List UInt8} {offset : Nat} (k : Nat) (hbefore : before.length = offset)
    (h : a.bytes.length ≤ 28) : a.write (before ++ List.replicate (48 + k) 0) offset =
      before ++ a.rowBytes ++ List.replicate k 0 := by
  have hwords := putWords_consecutive a.words (28 + k) hbefore
  have hsplit : 4 * a.words.length + (28 + k) = 48 + k := by
    show 4 * 5 + (28 + k) = 48 + k
    omega
  have hlength : (before ++ wordBytes a.words).length = offset + 20 := by
    rw [List.length_append, a.length_words, hbefore]
  have hrest : 28 + k = a.bytes.length + (28 - a.bytes.length + k) := by omega
  rw [hsplit] at hwords
  show put (putWords (before ++ List.replicate (48 + k) 0) (consecutive offset a.words)) (offset + 20) a.bytes = _
  rw [hwords, hrest, put_zeros hlength, rowBytes, List.replicate_add]
  simp only [List.append_assoc]

/-- **A row that is written is read back.** -/
theorem decode_rowBytes {a read : Address} (h : a.bytes.length ≤ 28) (hread : decode a.rowBytes = some read) :
    read = a := by
  have hword := fun (i : Nat) (hi : i < 5) =>
    word_wordBytes a.words (a.bytes ++ List.replicate (28 - a.bytes.length) 0) hi
  have h0 : word a.rowBytes 0 = a.flags.toUInt32 := hword 0 (by omega)
  have h4 : word a.rowBytes 4 = a.family.toUInt32 := hword 1 (by omega)
  have h8 : word a.rowBytes 8 = a.kind.toUInt32 := hword 2 (by omega)
  have h12 : word a.rowBytes 12 = a.protocol.toUInt32 := hword 3 (by omega)
  have h16 : word a.rowBytes 16 = UInt32.ofNat a.bytes.length := hword 4 (by omega)
  have hlength : (UInt32.ofNat a.bytes.length).toNat = a.bytes.length := by
    rw [UInt32.toNat_ofNat']
    exact Nat.mod_eq_of_lt (by omega)
  have hbytes : slice a.rowBytes 20 a.bytes.length = a.bytes := by
    rw [rowBytes, slice_append_of_le (Nat.le_of_eq a.length_words), a.length_words, Nat.sub_self,
      slice_append_of_length rfl]
  dsimp only [decode] at hread
  split_ifs at hread
  rw [h0, h4, h8, h12, h16, hlength, hbytes] at hread
  exact (Option.some_inj.mp hread).symm

/-- **A row that is accepted is the one its address is written as.** -/
theorem rowBytes_of_decode {a : Address} {row : List UInt8} (hsize : row.length = 48) (h : decode row = some a) :
    row = a.rowBytes ∧ a.bytes.length ≤ 28 := by
  dsimp only [decode] at h
  split_ifs at h with hbad
  rw [not_or, not_not, not_or, not_or, not_or, not_or] at hbad
  obtain ⟨hfamily, _, _, _, _, hzeros⟩ := hbad
  obtain rfl := Option.some_inj.mp h
  have hle : (word row 16).toNat ≤ 28 := by
    rcases hfamily with hpair | hpair
    · have hsixteen : (word row 16).toNat = 16 := congrArg Prod.snd hpair
      omega
    · exact Nat.le_of_eq (congrArg Prod.snd hpair)
  have hlength : (slice row 20 (word row 16).toNat).length = (word row 16).toNat := length_slice (by omega)
  rw [Bool.not_eq_true] at hzeros
  have hrest : row.drop (20 + (word row 16).toNat) = List.replicate (28 - (word row 16).toNat) 0 := by
    refine eq_zeros ?_ hzeros
    rw [List.length_drop]
    omega
  refine ⟨?_, by rw [hlength]; exact hle⟩
  have hframe := @eq_wordBytes_append row 5 (by omega)
  rw [drop_eq_slice_append row (4 * 5) (word row 16).toNat, hrest] at hframe
  refine hframe.trans ?_
  rw [rowBytes, words, hlength, UInt32.ofNat_toNat]
  rfl

end Address

/-! ### Answers -/

/-- Zeros overwritten with zeros. -/
theorem put_zeros_zeros {a : List UInt8} {offset n m : Nat} (ha : a.length ≤ offset)
    (h : offset + n ≤ a.length + m) : put (a ++ List.replicate m (0 : UInt8)) offset (List.replicate n 0) =
      a ++ List.replicate m 0 := by
  have hm : offset - a.length + (n + (m - (offset - a.length) - n)) = m := by omega
  have hinner : put (List.replicate m (0 : UInt8)) (offset - a.length) (List.replicate n 0) =
      List.replicate m 0 := by
    have htake : min (offset - a.length) m = offset - a.length := by omega
    have hdrop : m - (offset - a.length + n) = m - (offset - a.length) - n := by omega
    rw [put, List.take_replicate, List.drop_replicate, List.length_replicate, List.append_assoc,
      ← List.replicate_add, ← List.replicate_add, htake, hdrop, hm]
  rw [put_append_of_le ha, hinner]

namespace Answer

/-- The words of an answer before its rows. -/
def words (a : Answer) (id : UInt32) : List UInt32 := [version, id, 0, 0, UInt32.ofNat a.addresses.length, 0, 0, 0]

theorem length_words (a : Answer) (id : UInt32) : (wordBytes (a.words id)).length = 32 := length_wordBytes _

/-- Everything an answer is written as. -/
def frameBytes (a : Answer) (id : UInt32) : List UInt8 :=
  wordBytes (a.words id) ++ (a.addresses.flatMap Address.rowBytes ++
    (List.replicate (48 * (32 - a.addresses.length)) 0 ++ (fieldBytes 256 a.canonical ++ List.replicate 4 0)))

theorem wordBytes_zeros (k : Nat) : wordBytes (List.replicate k 0) = List.replicate (4 * k) 0 := by
  induction k with
  | zero => rfl
  | succ k ih =>
    rw [List.replicate_succ, wordBytes_cons, ih, Nat.mul_succ, Nat.add_comm, List.replicate_add]
    rfl

theorem start_eq {a : Answer} (id : UInt32) (h : a.addresses.length ≤ 32) :
    a.start id = wordBytes (a.words id) ++ List.replicate (48 * a.addresses.length +
      (48 * (32 - a.addresses.length) + (2 * 256 + 4))) 0 := by
  have hwords := @putWords_consecutive [] 0 [version, id, 0] 2072 rfl
  have hthree : (wordBytes [version, id, 0]).length = 12 := length_wordBytes _
  have hfour : (wordBytes [version, id, 0, 0]).length = 16 := length_wordBytes _
  have hresponse : (response id 0 0 0).bytes = wordBytes [version, id, 0] ++ List.replicate 2072 0 := by
    show put (put (putWords (List.replicate responseSize 0) [(0, version), (4, id), (8, 0)]) 16 (leBytes 8 0))
      24 (leBytes 8 0) = _
    have hwritten : putWords (List.replicate responseSize 0) [(0, version), (4, id), (8, 0)] =
        wordBytes [version, id, 0] ++ List.replicate 2072 0 := hwords
    rw [hwritten, leBytes_zero, put_zeros_zeros (by omega) (by omega), put_zeros_zeros (by omega) (by omega)]
  have hsplit : wordBytes [version, id, 0] ++ List.replicate 2072 0 =
      wordBytes [version, id, 0, 0] ++ List.replicate (4 + 2064) 0 := by
    have hlast : wordBytes [version, id, 0, 0] = wordBytes [version, id, 0] ++ List.replicate 4 0 :=
      wordBytes_append [version, id, 0] [0]
    rw [hlast, List.append_assoc, ← List.replicate_add]
  have hcount : leBytes 4 a.addresses.length = leBytes 4 (UInt32.ofNat a.addresses.length).toNat := by
    rw [UInt32.toNat_ofNat', Nat.mod_eq_of_lt (by omega)]
  have hall : wordBytes (a.words id) = wordBytes [version, id, 0, 0] ++
      leBytes 4 (UInt32.ofNat a.addresses.length).toNat ++ List.replicate 12 0 := by
    rw [List.append_assoc]
    exact wordBytes_append [version, id, 0, 0] [UInt32.ofNat a.addresses.length, 0, 0, 0]
  have hput := @put_zeros (wordBytes [version, id, 0, 0]) (leBytes 4 (UInt32.ofNat a.addresses.length).toNat) 16
    2064 hfour
  rw [length_leBytes] at hput
  have hrest : 48 * a.addresses.length + (48 * (32 - a.addresses.length) + (2 * 256 + 4)) = 2052 := by omega
  rw [start, hresponse, hsplit, hcount, hput, hall, hrest, List.append_assoc _ (List.replicate 12 0),
    ← List.replicate_add]

/-- Rows are written over zeros. -/
theorem writeRows_zeros {addresses : List Address} {before : List UInt8} {offset : Nat} (k : Nat)
    (hbefore : before.length = offset) (h : ∀ a ∈ addresses, a.bytes.length ≤ 28) :
    writeRows (before ++ List.replicate (48 * addresses.length + k) 0) offset addresses =
      some (before ++ addresses.flatMap Address.rowBytes ++ List.replicate k 0) := by
  induction addresses generalizing before offset with
  | nil =>
    rw [List.length_nil, Nat.mul_zero, Nat.zero_add, List.flatMap_nil, List.append_nil]
    rfl
  | cons a rest ih =>
    have ha := h a List.mem_cons_self
    have hsplit : 48 * (a :: rest).length + k = 48 + (48 * rest.length + k) := by
      rw [List.length_cons]
      omega
    have hlength : (before ++ a.rowBytes).length = offset + 48 := by
      rw [List.length_append, Address.length_rowBytes ha, hbefore]
    rw [writeRows, if_neg (Nat.not_lt.mpr ha), hsplit, Address.write_zeros _ hbefore ha,
      ih hlength fun b hb => h b (List.mem_cons_of_mem _ hb), List.flatMap_cons, List.append_assoc before]

theorem le_of_writeRows {addresses : List Address} {bytes rows : List UInt8} {offset : Nat}
    (h : writeRows bytes offset addresses = some rows) : ∀ a ∈ addresses, a.bytes.length ≤ 28 := by
  induction addresses generalizing bytes offset with
  | nil => exact List.forall_mem_nil _
  | cons a rest ih =>
    rw [writeRows] at h
    split_ifs at h with hlong
    exact List.forall_mem_cons.mpr ⟨Nat.not_lt.mp hlong, ih h⟩

/-- An answer that fits its frame. -/
structure Fits (a : Answer) : Prop where
  nonempty : a.addresses ≠ []
  count : a.addresses.length ≤ 32
  canonical : a.canonical.length ≤ 256
  bytes : ∀ address ∈ a.addresses, address.bytes.length ≤ 28

end Answer

namespace Answer

theorem length_rows {addresses : List Address} (h : ∀ a ∈ addresses, a.bytes.length ≤ 28) :
    (addresses.flatMap Address.rowBytes).length = 48 * addresses.length := by
  induction addresses with
  | nil => rfl
  | cons a rest ih =>
    rw [List.flatMap_cons, List.length_append, Address.length_rowBytes (h a List.mem_cons_self),
      ih fun b hb => h b (List.mem_cons_of_mem _ hb), List.length_cons]
    omega

/-- The rows of an answer, and the canonical name after them. -/
theorem bytes_written {a : Answer} (id : UInt32) (h : a.Fits) :
    ∃ rows, writeRows (a.start id) 32 a.addresses = some rows ∧
      put rows canonicalOffset (unitBytes a.canonical) = a.frameBytes id := by
  have hwritten := writeRows_zeros (48 * (32 - a.addresses.length) + (2 * 256 + 4)) (a.length_words id) h.bytes
  rw [← start_eq id h.count] at hwritten
  refine ⟨_, hwritten, ?_⟩
  have hrows := length_rows h.bytes
  have hcount := h.count
  have hlength : (wordBytes (a.words id) ++ a.addresses.flatMap Address.rowBytes ++
      List.replicate (48 * (32 - a.addresses.length)) 0).length = canonicalOffset := by
    rw [List.length_append, List.length_append, List.length_replicate, a.length_words, hrows]
    show 32 + 48 * a.addresses.length + 48 * (32 - a.addresses.length) = 1568
    omega
  rw [List.replicate_add (48 * (32 - a.addresses.length)), ← List.append_assoc, List.replicate_add (2 * 256),
    put_field hlength h.canonical, frameBytes]
  simp only [List.append_assoc]

/-- **An answer that is written** is its words, its rows and its canonical name. -/
theorem encode_eq_some_iff {a : Answer} {id : UInt32} {frame : Frame responseSize} : a.encode id = some frame ↔
    a.Fits ∧ frame.bytes = a.frameBytes id ∧ (decode frame).isSome := by
  unfold encode
  constructor
  · intro h
    split_ifs at h with hcheck
    rw [not_or, not_or, Nat.not_lt, Nat.not_lt] at hcheck
    split at h
    · exact absurd h (by simp)
    · rename_i rows hrows
      have hfits : a.Fits := ⟨hcheck.1, hcheck.2.1, hcheck.2.2, le_of_writeRows hrows⟩
      obtain ⟨written, hwritten, hbytes⟩ := bytes_written id hfits
      obtain rfl := Option.some_inj.mp (hrows.symm.trans hwritten)
      obtain ⟨read, hread, rfl⟩ := Option.map_eq_some_iff.mp h
      exact ⟨hfits, hbytes, Option.isSome_of_mem hread⟩
  · rintro ⟨hfits, hbytes, hread⟩
    obtain ⟨written, hwritten, hput⟩ := bytes_written id hfits
    obtain ⟨read, hread⟩ := Option.isSome_iff_exists.mp hread
    have hall : ∀ result : Frame responseSize, result.bytes = put written canonicalOffset (unitBytes a.canonical) →
        (decode result).map (fun _ => result) = some frame := by
      intro result hresult
      have heq : result = frame := Frame.ext (hresult.trans (hput.trans hbytes.symm))
      rw [heq, hread]
      rfl
    have hcheck : ¬ (a.addresses = [] ∨ maxAddresses < a.addresses.length ∨ 256 < a.canonical.length) := by
      rw [not_or, not_or, Nat.not_lt, Nat.not_lt]
      exact ⟨hfits.nonempty, hfits.count, hfits.canonical⟩
    rw [dif_neg hcheck]
    split
    · rename_i hnone
      exact absurd (hnone.symm.trans hwritten) (by simp)
    · rename_i rows hrows
      obtain rfl := Option.some_inj.mp (hrows.symm.trans hwritten)
      exact hall _ rfl

/-- What an answer is read from. -/
theorem decode_eq_some {a : Answer} {frame : Frame responseSize} (h : decode frame = some a) :
    ∃ count, (word frame.bytes 16).toNat = count ∧ 0 < count ∧ count ≤ 32 ∧
      (slice frame.bytes 20 12).any (· ≠ 0) = false ∧
      string (slice frame.bytes 1568 512) = some a.canonical ∧
      (chunks 48 (slice frame.bytes 32 (count * 48))).mapM Address.decode = some a.addresses ∧
      (slice frame.bytes (32 + count * 48) (1568 - (32 + count * 48))).any (· ≠ 0) = false := by
  dsimp only [decode] at h
  split at h
  · exact absurd h (by simp)
  rename_i hbad
  rw [not_or, not_or, Nat.not_lt, Bool.not_eq_true] at hbad
  simp only [Option.bind_eq_bind, Option.bind_eq_some_iff] at h
  obtain ⟨canonical, hcanonical, addresses, haddresses, h⟩ := h
  split_ifs at h with hrest
  obtain rfl := Option.some_inj.mp h
  rw [Bool.not_eq_true] at hrest
  exact ⟨_, rfl, Nat.pos_of_ne_zero hbad.1, hbad.2.1, hbad.2.2, hcanonical, haddresses, hrest⟩

end Answer

/-! ### Both laws for answers -/

/-- An answer to a request without an error. -/
theorem responseError_eq_ok_iff {frame : Frame responseSize} {id : UInt32} : responseError frame id = .ok 0 ↔
    word frame.bytes 0 = version ∧ word frame.bytes 4 = id ∧ word frame.bytes 8 = 0 ∧ word frame.bytes 12 = 0 ∧
      slice frame.bytes 2080 4 = List.replicate 4 0 := by
  have hsize : frame.bytes.length = 2084 := frame.length_eq
  have hword : ∀ {offset : Nat} {v : UInt32}, offset + 4 ≤ 2084 →
      (slice frame.bytes offset 4 = leBytes 4 v.toNat ↔ word frame.bytes offset = v) := by
    intro offset v hoffset
    refine ⟨word_of_slice, fun h => ?_⟩
    rw [slice_eq_leBytes_word (by omega), h]
  have hzero : slice frame.bytes 12 4 = [0, 0, 0, 0] ↔ word frame.bytes 12 = 0 := @hword 12 0 (by omega)
  have hlast : (slice frame.bytes (responseSize - 4) 4 = [0, 0, 0, 0]) ↔
      slice frame.bytes 2080 4 = List.replicate 4 0 := Iff.rfl
  have hversion := @hword 0 version (by omega)
  have hid := @hword 4 id (by omega)
  simp only [responseError, ne_eq, hversion, hid, hzero, hlast]
  constructor
  · intro h
    split_ifs at h with hbad
    rw [not_or, not_or, not_or, not_not, not_not, not_not, not_not] at hbad
    exact ⟨hbad.1, hbad.2.1, Except.ok.inj h, hbad.2.2.1, hbad.2.2.2⟩
  · rintro ⟨hversion, hid, herror, hreserved, hend⟩
    have hgood : ¬ (¬ word frame.bytes 0 = version ∨ ¬ word frame.bytes 4 = id ∨ ¬ word frame.bytes 12 = 0 ∨
        ¬ slice frame.bytes 2080 4 = List.replicate 4 0) := by
      rw [not_or, not_or, not_or, not_not, not_not, not_not, not_not]
      exact ⟨hversion, hid, hreserved, hend⟩
    rw [if_neg hgood, herror]

namespace Answer

theorem mapM_rowBytes {addresses read : List Address} (h : ∀ a ∈ addresses, a.bytes.length ≤ 28)
    (hread : (addresses.map Address.rowBytes).mapM Address.decode = some read) : read = addresses := by
  induction addresses generalizing read with
  | nil =>
    simp only [List.map_nil, List.mapM_nil, Option.pure_def, Option.some.injEq] at hread
    exact hread.symm
  | cons a rest ih =>
    rw [List.map_cons, List.mapM_cons] at hread
    simp only [Option.bind_eq_bind, Option.bind_eq_some_iff, Option.pure_def, Option.some.injEq] at hread
    obtain ⟨first, hfirst, others, hothers, rfl⟩ := hread
    rw [Address.decode_rowBytes (h a List.mem_cons_self) hfirst,
      ih (fun b hb => h b (List.mem_cons_of_mem _ hb)) hothers]

theorem rows_of_mapM {rows : List (List UInt8)} {addresses : List Address} (hsize : ∀ row ∈ rows, row.length = 48)
    (h : rows.mapM Address.decode = some addresses) :
    rows = addresses.map Address.rowBytes ∧ ∀ a ∈ addresses, a.bytes.length ≤ 28 := by
  induction rows generalizing addresses with
  | nil =>
    simp only [List.mapM_nil, Option.pure_def, Option.some.injEq] at h
    subst h
    exact ⟨rfl, List.forall_mem_nil _⟩
  | cons row rows ih =>
    rw [List.mapM_cons] at h
    simp only [Option.bind_eq_bind, Option.bind_eq_some_iff, Option.pure_def, Option.some.injEq] at h
    obtain ⟨first, hfirst, others, hothers, rfl⟩ := h
    obtain ⟨hrow, hle⟩ := Address.rowBytes_of_decode (hsize row List.mem_cons_self) hfirst
    obtain ⟨hrows, hall⟩ := ih (fun r hr => hsize r (List.mem_cons_of_mem _ hr)) hothers
    exact ⟨by rw [hrow, hrows, List.map_cons], List.forall_mem_cons.mpr ⟨hle, hall⟩⟩

/-- **An answer that is written is read back**, without an error. -/
theorem decode_encode {a : Answer} {id : UInt32} {frame : Frame responseSize} (hcanonical : Terminated a.canonical)
    (h : a.encode id = some frame) : responseError frame id = .ok 0 ∧ decode frame = some a := by
  obtain ⟨hfits, hbytes, hread⟩ := encode_eq_some_iff.mp h
  have hcount := hfits.count
  have hwords := a.length_words id
  have hrows := length_rows hfits.bytes
  have hfield := length_fieldBytes hfits.canonical
  have hpad : (List.replicate (48 * (32 - a.addresses.length)) (0 : UInt8)).length =
      48 * (32 - a.addresses.length) := List.length_replicate
  have hword := fun (i : Nat) (hi : i < 8) =>
    word_wordBytes (a.words id) (a.addresses.flatMap Address.rowBytes ++
      (List.replicate (48 * (32 - a.addresses.length)) 0 ++ (fieldBytes 256 a.canonical ++ List.replicate 4 0))) hi
  rw [← frameBytes, ← hbytes] at hword
  have hlast : slice frame.bytes 2080 4 = List.replicate 4 0 := by
    rw [hbytes, frameBytes, slice_append_of_le (by omega), slice_append_of_le (by omega),
      slice_append_of_le (by omega), slice_append_of_le (by omega), hwords, hrows, hpad, hfield]
    have hzero : 2080 - 32 - 48 * a.addresses.length - 48 * (32 - a.addresses.length) - 2 * 256 = 0 := by omega
    rw [hzero]
    rfl
  refine ⟨responseError_eq_ok_iff.mpr ⟨hword 0 (by omega), hword 1 (by omega), hword 2 (by omega),
    hword 3 (by omega), hlast⟩, ?_⟩
  obtain ⟨read, hread⟩ := Option.isSome_iff_exists.mp hread
  obtain ⟨count, hcountEq, _, _, _, hstring, hmapM, _⟩ := decode_eq_some hread
  have hcountEq : count = a.addresses.length := by
    have hfour : word frame.bytes 16 = UInt32.ofNat a.addresses.length := hword 4 (by omega)
    rw [← hcountEq, hfour, UInt32.toNat_ofNat', Nat.mod_eq_of_lt (by omega)]
  have hsliceRows : slice frame.bytes 32 (count * 48) = a.addresses.flatMap Address.rowBytes := by
    rw [hbytes, frameBytes, slice_append_of_le (by omega), hwords, Nat.sub_self]
    exact slice_append_of_length (by omega)
  have hsliceField : slice frame.bytes 1568 512 = fieldBytes 256 a.canonical := by
    have hzero : 1568 - 32 - 48 * a.addresses.length - 48 * (32 - a.addresses.length) = 0 := by omega
    rw [hbytes, frameBytes, slice_append_of_le (by omega), slice_append_of_le (by omega),
      slice_append_of_le (by omega), hwords, hrows, hpad, hzero]
    exact slice_append_of_length hfield
  have hrowSize : ∀ row ∈ a.addresses.map Address.rowBytes, row.length = 48 := by
    intro row hrow
    obtain ⟨address, hmem, rfl⟩ := List.mem_map.mp hrow
    exact Address.length_rowBytes (hfits.bytes address hmem)
  rw [hsliceRows, List.flatMap_def, chunks_flatten (by omega) hrowSize] at hmapM
  rw [hsliceField] at hstring
  have haddresses := mapM_rowBytes hfits.bytes hmapM
  have hname := string_padded hcanonical _ hstring
  rw [hread]
  cases read
  cases a
  exact congrArg some (congrArg₂ Answer.mk hname haddresses)

end Answer

namespace Answer

/-- **A response that is accepted is the one its answer is written as.** -/
theorem encode_decode {a : Answer} {id : UInt32} {frame : Frame responseSize}
    (herror : responseError frame id = .ok 0) (h : decode frame = some a) : a.encode id = some frame := by
  obtain ⟨hversion, hid, hzero, hreserved, hlast⟩ := responseError_eq_ok_iff.mp herror
  obtain ⟨count, hcount, hpos, hle, hhead, hstring, hmapM, hpad⟩ := decode_eq_some h
  have hsize : frame.bytes.length = 2084 := frame.length_eq
  have hrowsLength : (slice frame.bytes 32 (count * 48)).length = count * 48 := length_slice (by omega)
  have hflatten : (chunks 48 (slice frame.bytes 32 (count * 48))).flatten = slice frame.bytes 32 (count * 48) :=
    flatten_chunks (by omega) (hrowsLength.trans (Nat.mul_comm count 48))
  obtain ⟨hrows, hbytes⟩ := rows_of_mapM (fun row hrow => length_of_mem_chunks hrow) hmapM
  have haddresses : a.addresses.length = count := by
    have hlength := congrArg List.length hrows
    rw [length_chunks, hrowsLength, List.length_map, Nat.mul_div_cancel _ (by omega)] at hlength
    exact hlength.symm
  have hfieldSize : (slice frame.bytes 1568 512).length = 2 * 256 := length_slice (by omega)
  obtain ⟨_, hcanonical, hfield⟩ := string_eq_some hfieldSize hstring
  have hfits : a.Fits := by
    refine ⟨fun hnil => ?_, by omega, hcanonical, hbytes⟩
    rw [hnil, List.length_nil] at haddresses
    omega
  have hwords : wordBytes (a.words id) = wordBytes ((List.range 5).map fun i => word frame.bytes (4 * i)) ++
      List.replicate 12 0 := by
    have hfive : (List.range 5).map (fun i => word frame.bytes (4 * i)) =
        [version, id, 0, 0, UInt32.ofNat a.addresses.length] := by
      show [word frame.bytes 0, word frame.bytes 4, word frame.bytes 8, word frame.bytes 12, word frame.bytes 16] = _
      rw [hversion, hid, hzero, hreserved, haddresses, ← hcount, UInt32.ofNat_toNat]
    rw [hfive]
    exact wordBytes_append [version, id, 0, 0, UInt32.ofNat a.addresses.length] [0, 0, 0]
  refine encode_eq_some_iff.mpr ⟨hfits, ?_, Option.isSome_of_mem h⟩
  -- every byte is in the words, the rows, the zeros after them, the name or the last four zeros
  have hzeros := eq_zeros (length_slice (by omega)) hhead
  have hpadZeros := eq_zeros (length_slice (by omega)) hpad
  have hend : frame.bytes.drop 2084 = [] := List.drop_eq_nil_iff.mpr (Nat.le_of_eq hsize)
  have hsecond : 32 + count * 48 + (1568 - (32 + count * 48)) = 1568 := by omega
  have hpadLength : 1568 - (32 + count * 48) = 48 * (32 - count) := by omega
  have hframe := @eq_wordBytes_append frame.bytes 5 (by omega)
  rw [drop_eq_slice_append frame.bytes (4 * 5) 12, hzeros, drop_eq_slice_append frame.bytes (4 * 5 + 12) (count * 48),
    ← hflatten, hrows, drop_eq_slice_append frame.bytes (4 * 5 + 12 + count * 48) (1568 - (32 + count * 48)),
    hpadZeros, hsecond, drop_eq_slice_append frame.bytes 1568 512, hfield,
    drop_eq_slice_append frame.bytes (1568 + 512) 4, hlast, hend, List.append_nil, hpadLength] at hframe
  rw [frameBytes, hwords, haddresses, List.flatMap_def, fieldBytes, List.append_assoc]
  exact hframe

end Answer

/-! ### The codec -/

/-- **Lookup frames.**  A query of strings that are empty or end in their only
NUL is read back, with its id, from the frame it is written as; a frame that is
accepted is the one its query is written as; and so for answers with a canonical
name. -/
theorem lookup_codec :
    (∀ (q : Query) (id : UInt32) (frame : Frame requestSize), id ≠ 0 → (q.name = [] ∨ Terminated q.name) →
      (q.service = [] ∨ Terminated q.service) → q.encode id = some frame →
      ∃ r, Request.decode frame = some r ∧ r.id = id ∧ Query.decode frame r = some q) ∧
    (∀ (q : Query) (r : Request) (frame : Frame requestSize), Request.decode frame = some r →
      Query.decode frame r = some q → q.encode r.id = some frame) ∧
    (∀ (a : Answer) (id : UInt32) (frame : Frame responseSize), Terminated a.canonical → a.encode id = some frame →
      responseError frame id = .ok 0 ∧ Answer.decode frame = some a) ∧
    (∀ (a : Answer) (id : UInt32) (frame : Frame responseSize), responseError frame id = .ok 0 →
      Answer.decode frame = some a → a.encode id = some frame) := by
  refine ⟨fun q id frame hid hname hservice h => ?_, fun q r frame => Query.encode_decode,
    fun a id frame => Answer.decode_encode, fun a id frame => Answer.encode_decode⟩
  obtain ⟨hrequest, hquery⟩ := Query.decode_encode hid hname hservice h
  exact ⟨q.header id, hrequest, rfl, hquery⟩

/-- A query for the empty name. -/
def emptyNameQuery : Query := ⟨[0], [], 2, 1, 6, 0⟩

/-- An answer of one address. -/
def oneAddress : Answer := ⟨[97, 0], [⟨0, 2, 1, 6, [2, 0, 0, 80, 127, 0, 0, 1, 0, 0, 0, 0, 0, 0, 0, 0]⟩]⟩

theorem lookup_codec_sample :
    (∃ frame r, Request.decode frame = some r ∧ r.id = 7 ∧ Query.decode frame r = some emptyNameQuery) ∧
      ∃ frame, responseError frame 7 = .ok 0 ∧ Answer.decode frame = some oneAddress := by
  have hquery : (emptyNameQuery.encode 7).isSome := by decide +kernel
  have hanswer : (oneAddress.encode 7).isSome := by decide +kernel
  obtain ⟨query, hquery⟩ := Option.isSome_iff_exists.mp hquery
  obtain ⟨answer, hanswer⟩ := Option.isSome_iff_exists.mp hanswer
  have hname : Terminated emptyNameQuery.name := ⟨[], rfl, List.not_mem_nil⟩
  have hcanonical : Terminated oneAddress.canonical := ⟨[97], rfl, by decide⟩
  obtain ⟨r, hr⟩ := lookup_codec.1 emptyNameQuery 7 query (by decide) (Or.inr hname) (Or.inl rfl) hquery
  exact ⟨⟨query, r, hr⟩, answer, lookup_codec.2.2.1 oneAddress 7 answer hcanonical hanswer⟩

end Wire

end Tapid
