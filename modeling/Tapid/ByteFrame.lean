/-
Frames of bytes.

Fixed-width little-endian numbers, the part of a byte string at an offset, and
overwriting such a part.

* `ofLeBytes_leBytes`, `leBytes_ofLeBytes` — numbers and their bytes;
* `slice_append_of_length`, `put_append_of_length` — a frame is read and written
  field by field;
* `drop_eq_slice_append` — a frame is its fields;
* `chunks_append`, `flatten_chunks` — rows of a table;
* `takeField_field`, `takePairs_flatMap` — fields with their length in front.
-/
import Tapid.Bytes

namespace Bytes

/-! ### Little-endian numbers -/

/-- The low `width` bytes of a number, least significant first. -/
def leBytes : Nat → Nat → List UInt8
  | 0, _ => []
  | width + 1, n => UInt8.ofNat (n % 256) :: leBytes width (n / 256)

/-- The number with these bytes. -/
def ofLeBytes : List UInt8 → Nat
  | [] => 0
  | b :: bytes => b.toNat + 256 * ofLeBytes bytes

@[simp] theorem length_leBytes (width n : Nat) : (leBytes width n).length = width := by
  induction width generalizing n with
  | zero => rfl
  | succ width ih => rw [leBytes, List.length_cons, ih]

theorem ofLeBytes_leBytes {width n : Nat} (h : n < 256 ^ width) : ofLeBytes (leBytes width n) = n := by
  induction width generalizing n with
  | zero =>
    have hn : n = 0 := by simpa using h
    rw [hn]
    rfl
  | succ width ih =>
    have hdiv : n / 256 < 256 ^ width := by
      rw [Nat.pow_succ] at h
      omega
    rw [leBytes, ofLeBytes, ih hdiv, toNat_ofNat_of_lt (Nat.mod_lt n (by decide))]
    omega

theorem ofLeBytes_lt (bytes : List UInt8) : ofLeBytes bytes < 256 ^ bytes.length := by
  induction bytes with
  | nil => decide
  | cons b bytes ih =>
    have hb : b.toNat < 256 := b.toNat_lt
    rw [ofLeBytes, List.length_cons, Nat.pow_succ]
    omega

theorem leBytes_ofLeBytes (bytes : List UInt8) : leBytes bytes.length (ofLeBytes bytes) = bytes := by
  induction bytes with
  | nil => rfl
  | cons b bytes ih =>
    have hb : b.toNat < 256 := b.toNat_lt
    have hmod : (b.toNat + 256 * ofLeBytes bytes) % 256 = b.toNat := by omega
    have hdiv : (b.toNat + 256 * ofLeBytes bytes) / 256 = ofLeBytes bytes := by omega
    rw [List.length_cons, leBytes, ofLeBytes, hmod, hdiv, ih, UInt8.ofNat_toNat]

@[simp] theorem leBytes_zero (width : Nat) : leBytes width 0 = List.replicate width 0 := by
  induction width with
  | zero => rfl
  | succ width ih =>
    rw [leBytes, Nat.zero_div, ih]
    rfl

/-! ### Parts of a frame -/

/-- The `n` bytes from an offset on. -/
def slice {α : Type} (l : List α) (offset n : Nat) : List α := (l.drop offset).take n

/-- A frame with the bytes from an offset on overwritten. -/
def put {α : Type} (l : List α) (offset : Nat) (v : List α) : List α :=
  l.take offset ++ v ++ l.drop (offset + v.length)

section Parts

variable {α : Type} {a rest v : List α} {n offset : Nat}

theorem length_slice {l : List α} (h : offset + n ≤ l.length) : (slice l offset n).length = n := by
  rw [slice, List.length_take, List.length_drop]
  omega

theorem length_put {l : List α} (h : offset + v.length ≤ l.length) : (put l offset v).length = l.length := by
  rw [put, List.length_append, List.length_append, List.length_take, List.length_drop]
  omega

/-- The field a frame begins with. -/
theorem slice_append_of_length (h : a.length = n) : slice (a ++ rest) 0 n = a := by
  rw [slice, List.drop_zero, List.take_append_of_le_length (Nat.le_of_eq h.symm), ← h, List.take_length]

/-- A field after the first one. -/
theorem slice_append_of_le (h : a.length ≤ offset) :
    slice (a ++ rest) offset n = slice rest (offset - a.length) n := by
  have hdrop : a.drop offset = [] := List.drop_eq_nil_iff.mpr h
  rw [slice, slice, List.drop_append, hdrop, List.nil_append]

/-- Writing over what comes after a field. -/
theorem put_append_of_length (h : a.length = offset) :
    put (a ++ rest) offset v = a ++ (v ++ rest.drop v.length) := by
  have hdrop : a.drop (offset + v.length) = [] := List.drop_eq_nil_iff.mpr (by omega)
  have htake : offset - a.length = 0 := by omega
  have hrest : offset + v.length - a.length = v.length := by omega
  rw [put, List.take_append, List.drop_append, hdrop, htake, hrest, List.take_of_length_le (Nat.le_of_eq h),
    List.take_zero, List.append_nil, List.nil_append, List.append_assoc]

/-- Writing over a later part. -/
theorem put_append_of_le (h : a.length ≤ offset) :
    put (a ++ rest) offset v = a ++ put rest (offset - a.length) v := by
  have hdrop : a.drop (offset + v.length) = [] := List.drop_eq_nil_iff.mpr (by omega)
  have hrest : offset + v.length - a.length = offset - a.length + v.length := by omega
  rw [put, put, List.take_append, List.drop_append, hdrop, hrest, List.take_of_length_le h]
  simp

/-- What is left from an offset on is a field and what is left after it. -/
theorem drop_eq_slice_append (l : List α) (offset n : Nat) :
    l.drop offset = slice l offset n ++ l.drop (offset + n) := by
  rw [slice, ← List.drop_drop, List.take_append_drop]

/-- A longer part is two parts. -/
theorem slice_add (l : List α) (offset n m : Nat) :
    slice l offset (n + m) = slice l offset n ++ slice l (offset + n) m := by
  rw [slice, slice, slice, List.take_add, List.drop_drop]

/-- The whole frame as a part. -/
theorem slice_zero_length (l : List α) : slice l 0 l.length = l := by
  rw [slice, List.drop_zero, List.take_length]

end Parts

/-! ### Rows -/

section Rows

variable {α : Type} {n : Nat}

/-- The full rows of `n` elements. -/
def chunks (n : Nat) (l : List α) : List (List α) := (List.range (l.length / n)).map fun i => slice l (n * i) n

theorem chunks_append {a rest : List α} (hn : 0 < n) (h : a.length = n) :
    chunks n (a ++ rest) = a :: chunks n rest := by
  have hlength : (a ++ rest).length / n = rest.length / n + 1 := by
    rw [List.length_append, h, Nat.add_comm, Nat.add_div_right _ hn]
  rw [chunks, hlength, List.range_succ_eq_map, List.map_cons, List.map_map, Nat.mul_zero,
    slice_append_of_length h, chunks]
  congr 1
  refine List.map_congr_left fun i _ => ?_
  have hle : a.length ≤ n * (i + 1) := by
    rw [h, Nat.mul_succ]
    omega
  have hsub : n * (i + 1) - a.length = n * i := by
    rw [h, Nat.mul_succ]
    omega
  rw [Function.comp_apply, Nat.succ_eq_add_one, slice_append_of_le hle, hsub]

theorem chunks_nil (n : Nat) : chunks n ([] : List α) = [] := by
  rw [chunks, List.length_nil, Nat.zero_div]
  rfl

/-- A table read row by row. -/
theorem chunks_flatten (hn : 0 < n) {rows : List (List α)} (h : ∀ row ∈ rows, row.length = n) :
    chunks n rows.flatten = rows := by
  induction rows with
  | nil => exact chunks_nil n
  | cons row rows ih =>
    rw [List.flatten_cons, chunks_append hn (h row List.mem_cons_self),
      ih fun r hr => h r (List.mem_cons_of_mem _ hr)]

theorem length_of_mem_chunks {l row : List α} (h : row ∈ chunks n l) : row.length = n := by
  obtain ⟨i, hi, rfl⟩ := List.mem_map.mp h
  rw [List.mem_range] at hi
  refine length_slice ?_
  have hle : n * (l.length / n) ≤ l.length := Nat.mul_div_le _ _
  have hmul : n * (i + 1) ≤ n * (l.length / n) := Nat.mul_le_mul_left n hi
  rw [Nat.mul_succ] at hmul
  omega

theorem length_chunks (l : List α) : (chunks n l).length = l.length / n := by
  rw [chunks, List.length_map, List.length_range]

/-- The rows of a whole table are the table. -/
theorem flatten_chunks {k : Nat} (hn : 0 < n) {l : List α} (h : l.length = n * k) : (chunks n l).flatten = l := by
  induction k generalizing l with
  | zero =>
    rw [Nat.mul_zero] at h
    rw [List.length_eq_zero_iff.mp h, chunks_nil]
    rfl
  | succ k ih =>
    rw [Nat.mul_succ] at h
    have hrow : (l.take n).length = n := by
      rw [List.length_take]
      omega
    have hrest : (l.drop n).length = n * k := by
      rw [List.length_drop]
      omega
    conv_lhs => rw [← List.take_append_drop n l]
    rw [chunks_append hn hrow, List.flatten_cons, ih hrest, List.take_append_drop]

end Rows

/-! ### Fields with their length in front -/

/-- Bytes with their length in front, in eight bytes. -/
def field (v : List UInt8) : List UInt8 := leBytes 8 v.length ++ v

/-- A field, and what comes after it. -/
def takeField (bytes : List UInt8) : Option (List UInt8 × List UInt8) :=
  let length := ofLeBytes (bytes.take 8)
  let rest := bytes.drop 8
  if 8 ≤ bytes.length ∧ length ≤ rest.length then some (rest.take length, rest.drop length) else none

/-- Pairs of fields up to the end. -/
def takePairs : Nat → List UInt8 → Option (List (List UInt8 × List UInt8))
  | 0, bytes => if bytes = [] then some [] else none
  | fuel + 1, bytes =>
    if bytes = [] then some []
    else do
      let (first, bytes) ← takeField bytes
      let (second, bytes) ← takeField bytes
      let pairs ← takePairs fuel bytes
      some ((first, second) :: pairs)

theorem length_field (v : List UInt8) : (field v).length = 8 + v.length := by
  rw [field, List.length_append, length_leBytes]

/-- **A field is read back**, whatever comes after it. -/
theorem takeField_field {v : List UInt8} (h : v.length < 2 ^ 64) (rest : List UInt8) :
    takeField (field v ++ rest) = some (v, rest) := by
  have htake : (field v ++ rest).take 8 = leBytes 8 v.length := by
    rw [field, List.append_assoc, List.take_left' (length_leBytes 8 _)]
  have hdrop : (field v ++ rest).drop 8 = v ++ rest := by
    rw [field, List.append_assoc, List.drop_left' (length_leBytes 8 _)]
  have hlength : ofLeBytes (leBytes 8 v.length) = v.length := ofLeBytes_leBytes h
  have hlong : 8 ≤ (field v ++ rest).length ∧ v.length ≤ (v ++ rest).length := by
    rw [List.length_append, length_field, List.length_append]
    omega
  dsimp only [takeField]
  rw [htake, hdrop, hlength, if_pos hlong, List.take_left, List.drop_left]

/-- **Pairs of fields are read back.** -/
theorem takePairs_flatMap {pairs : List (List UInt8 × List UInt8)} {fuel : Nat} (hfuel : pairs.length ≤ fuel)
    (h : ∀ pair ∈ pairs, pair.1.length < 2 ^ 64 ∧ pair.2.length < 2 ^ 64) :
    takePairs fuel (pairs.flatMap fun pair => field pair.1 ++ field pair.2) = some pairs := by
  induction pairs generalizing fuel with
  | nil => cases fuel <;> rfl
  | cons pair pairs ih =>
    obtain ⟨fuel, rfl⟩ := Nat.exists_eq_succ_of_ne_zero (by rw [List.length_cons] at hfuel; omega : fuel ≠ 0)
    obtain ⟨hfirst, hsecond⟩ := h pair List.mem_cons_self
    have hne : field pair.1 ++ field pair.2 ++ (pairs.flatMap fun pair => field pair.1 ++ field pair.2) ≠ [] := by
      intro hnil
      have hlength := congrArg List.length hnil
      rw [List.length_append, List.length_append, length_field, List.length_nil] at hlength
      omega
    rw [List.flatMap_cons, takePairs, if_neg hne, List.append_assoc, takeField_field hfirst]
    simp only [Option.bind_eq_bind, Option.bind_some, takeField_field hsecond,
      ih (Nat.le_of_succ_le_succ hfuel) fun p hp => h p (List.mem_cons_of_mem _ hp)]

end Bytes
