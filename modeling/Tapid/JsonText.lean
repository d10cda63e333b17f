/-
JSON without blanks.

`compact` is the text `serde_json` writes: strings are quoted, and control
characters, quotes and backslashes are escaped; nothing stands between the parts.

* `compact` — the text of a value;
* `byteLen_intercalate` — the length of parts with one separator between them;
* `quote_plain` — a string without anything to escape;
* `compactCodec`, `readDocument` — a library that writes so.
-/
import Tapid.LockfileJson

namespace Tapid

open Text

namespace Json

/-! ### The writer -/

def hexDigit (n : Nat) : Char := Nat.digitChar n

/-- A character in a string. -/
def escapeChar (c : Char) : List Char :=
  if c = '"' then ['\\', '"']
  else if c = '\\' then ['\\', '\\']
  else if 32 ≤ c.toNat then [c]
  else
    match c.toNat with
    | 8 => ['\\', 'b']
    | 9 => ['\\', 't']
    | 10 => ['\\', 'n']
    | 12 => ['\\', 'f']
    | 13 => ['\\', 'r']
    | n => ['\\', 'u', '0', '0', hexDigit (n / 16), hexDigit (n % 16)]

def quote (s : List Char) : List Char := '"' :: (s.flatMap escapeChar ++ ['"'])

mutual

/-- `serde_json::to_vec`, as characters. -/
def compact : Json → List Char
  | null => "null".toList
  | bool b => if b then "true".toList else "false".toList
  | int n => (toString n).toList
  | float text => text.toList
  | str s => quote s.toList
  | arr items => '[' :: ([','].intercalate (compactItems items) ++ [']'])
  | obj fields => '\x7b' :: ([','].intercalate (compactFields fields) ++ ['\x7d'])

def compactItems : List Json → List (List Char)
  | [] => []
  | j :: items => compact j :: compactItems items

def compactFields : List (String × Json) → List (List Char)
  | [] => []
  | (name, j) :: fields => (quote name.toList ++ ':' :: compact j) :: compactFields fields

end

theorem compactItems_eq (items : List Json) : compactItems items = items.map compact := by
  induction items with
  | nil => rfl
  | cons j items ih => rw [compactItems, ih, List.map_cons]

theorem compact_arr (items : List Json) :
    compact (arr items) = '[' :: ([','].intercalate (items.map compact) ++ [']']) := by
  rw [compact, compactItems_eq]

theorem compactFields_eq (fields : List (String × Json)) :
    compactFields fields = fields.map fun e => quote e.1.toList ++ ':' :: compact e.2 := by
  induction fields with
  | nil => rfl
  | cons e fields ih => rw [compactFields, ih, List.map_cons]

theorem compact_obj (fields : List (String × Json)) : compact (obj fields) =
    '\x7b' :: ([','].intercalate (fields.map fun e => quote e.1.toList ++ ':' :: compact e.2) ++ ['\x7d']) := by
  rw [compact, compactFields_eq]

/-! ### Lengths -/

theorem byteLen_append (s t : List Char) : byteLen (s ++ t) = byteLen s + byteLen t := by
  rw [byteLen, byteLen, byteLen, List.map_append, List.sum_append]

theorem byteLen_cons (c : Char) (s : List Char) : byteLen (c :: s) = c.utf8Size + byteLen s := by
  rw [byteLen, byteLen, List.map_cons, List.sum_cons]

/-- Parts with one comma between them, and one more. -/
theorem byteLen_intercalate {parts : List (List Char)} (hne : parts ≠ []) :
    byteLen ([','].intercalate parts) + 1 = (parts.map fun part => byteLen part + 1).sum := by
  induction parts with
  | nil => exact absurd rfl hne
  | cons part parts ih =>
    cases parts with
    | nil => simp
    | cons part' parts =>
      have hih := ih (List.cons_ne_nil _ _)
      have hcomma : byteLen [','] = 1 := by decide
      rw [List.intercalate_cons_cons, byteLen_append, byteLen_append, hcomma, List.map_cons, List.sum_cons, ← hih]
      omega

/-- The length of an object, from the lengths of its fields. -/
theorem byteLen_obj {fields : List (String × Json)} (hne : fields ≠ []) : byteLen (compact (obj fields)) =
    1 + (fields.map fun e => byteLen (quote e.1.toList) + byteLen (compact e.2) + 2).sum := by
  have hne' : (fields.map fun e => quote e.1.toList ++ ':' :: compact e.2) ≠ [] := by simpa using hne
  have hparts := byteLen_intercalate hne'
  have hone : '\x7b'.utf8Size = 1 := by decide
  have hlast : byteLen ['\x7d'] = 1 := by decide
  have heach : ∀ e ∈ fields, ((fun part => byteLen part + 1) ∘ fun e : String × Json =>
      quote e.1.toList ++ ':' :: compact e.2) e = byteLen (quote e.1.toList) + byteLen (compact e.2) + 2 := by
    intro e _
    have hcolon : ':'.utf8Size = 1 := by decide
    show byteLen (quote e.1.toList ++ ':' :: compact e.2) + 1 = _
    rw [byteLen_append, byteLen_cons, hcolon]
    omega
  rw [List.map_map, List.map_congr_left heach] at hparts
  rw [compact_obj, byteLen_cons, byteLen_append, hone, hlast, ← hparts]

/-- The length of an array, from the lengths of its items. -/
theorem byteLen_arr {items : List Json} (hne : items ≠ []) :
    byteLen (compact (arr items)) = 1 + (items.map fun j => byteLen (compact j) + 1).sum := by
  have hne' : items.map compact ≠ [] := by simpa using hne
  have hparts := byteLen_intercalate hne'
  have hone : '['.utf8Size = 1 := by decide
  have hlast : byteLen [']'] = 1 := by decide
  rw [List.map_map] at hparts
  rw [compact_arr, byteLen_cons, byteLen_append, hone, hlast]
  show 1 + (byteLen ([','].intercalate (items.map compact)) + 1) = _
  rw [hparts]
  rfl

/-- Nothing has to be escaped. -/
def Plain (s : List Char) : Prop := ∀ c ∈ s, c ≠ '"' ∧ c ≠ '\\' ∧ 32 ≤ c.toNat

def isPlain (c : Char) : Bool := c != '"' && c != '\\' && 32 ≤ c.toNat

theorem plain_of_all {s : List Char} (h : s.all isPlain = true) : Plain s := by
  intro c hc
  have hplain := List.all_eq_true.mp h c hc
  simpa [isPlain, and_assoc] using hplain

theorem escapeChar_plain {c : Char} (h : c ≠ '"' ∧ c ≠ '\\' ∧ 32 ≤ c.toNat) : escapeChar c = [c] := by
  obtain ⟨hquote, hback, hcontrol⟩ := h
  rw [escapeChar, if_neg hquote, if_neg hback, if_pos hcontrol]

theorem quote_plain {s : List Char} (h : Plain s) : quote s = '"' :: (s ++ ['"']) := by
  have hsame : s.flatMap escapeChar = s := by
    induction s with
    | nil => rfl
    | cons c s ih =>
      rw [List.flatMap_cons, escapeChar_plain (h c List.mem_cons_self), ih fun d hd => h d (List.mem_cons_of_mem _ hd)]
      rfl
  rw [quote, hsame]

theorem byteLen_quote_plain {s : List Char} (h : Plain s) : byteLen (quote s) = byteLen s + 2 := by
  have hquote : '"'.utf8Size = 1 := by decide
  have hempty : byteLen [] = 0 := rfl
  rw [quote_plain h, byteLen_cons, byteLen_append, byteLen_cons, hquote, hempty]
  omega

end Json

/-! ### Libraries -/

/-- `serde_json` writes; how it reads is a parameter. -/
def compactCodec (decode : String → Except String Json) : JsonCodec where
  encode j := String.ofList j.compact
  decode := decode

theorem decode_compactCodec (decode : String → Except String Json) (j : Json) :
    (compactCodec decode).decode ((compactCodec decode).encode j) = decode (String.ofList j.compact) := rfl

/-- A reader that knows the texts of some documents. -/
def readDocument (documents : List Json) (text : String) : Except String Json :=
  match documents.find? fun j => String.ofList j.compact == text with
  | some j => .ok j
  | none => .error "unknown document"

theorem readDocument_compact {documents : List Json} (hnodup : (documents.map Json.compact).Nodup) {j : Json}
    (hj : j ∈ documents) : readDocument documents (String.ofList j.compact) = .ok j := by
  have hfind : documents.find? (fun x => String.ofList x.compact == String.ofList j.compact) = some j := by
    induction documents with
    | nil => exact absurd hj List.not_mem_nil
    | cons x documents ih =>
      rw [List.map_cons, List.nodup_cons] at hnodup
      rcases List.mem_cons.mp hj with rfl | hj
      · exact List.find?_cons_of_pos (beq_self_eq_true _)
      · have hne : (String.ofList x.compact == String.ofList j.compact) = false := by
          rw [beq_eq_false_iff_ne, ne_eq, String.ofList_inj]
          exact fun heq => hnodup.1 (List.mem_map.mpr ⟨j, hj, heq.symm⟩)
        rw [List.find?_cons, hne]
        exact ih hnodup.2 hj
  rw [readDocument, hfind]

end Tapid
