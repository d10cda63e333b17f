/-
How a Windows program reads its command line.

The command line is one text that ends at its first NUL.  The program comes
first and knows only quotes; in the arguments a run of backslashes is literal,
unless a quote follows: then each pair stands for one backslash, and one that
is left over makes the quote literal.  Runtimes differ in what two quotes in a
row mean inside quotes, so the rules are a parameter.

* `parseCommandLine` — program and arguments of a command line;
* `Token.readQuotation_even`, `Token.readQuotation_odd` — a quote after a run of
  backslashes;
* `readArguments_backslashes`, `readArguments_end` — the other steps.
-/
import Mathlib.Data.List.Basic
import Mathlib.Data.UInt

namespace Tapid

namespace WindowsArguments

/-- A UTF-16 code unit. -/
abbrev CodeUnit := UInt16

def backslash : CodeUnit := 92

def quotation : CodeUnit := 34

def space : CodeUnit := 32

def tab : CodeUnit := 9

/-- What separates arguments. -/
def isBlank (u : CodeUnit) : Bool := u == space || u == tab

/-- Whether two quotes inside quotes stand for one. -/
structure Rules where
  doubled : Bool

/-! ### The program -/

/-- The program and what follows it.  Quotes only protect blanks. -/
def readProgram : Bool → List CodeUnit → List CodeUnit × List CodeUnit
  | _, [] => ([], [])
  | quoted, u :: rest =>
    if u = quotation then readProgram (!quoted) rest
    else if quoted = false ∧ isBlank u then ([], rest)
    else ((u :: (readProgram quoted rest).1), (readProgram quoted rest).2)

/-! ### Arguments -/

/-- An argument that is being read: `backslashes` were seen last and `closed` says
that the unit before closed the quotes. -/
structure Token where
  text : List CodeUnit := []
  backslashes : Nat := 0
  quoted : Bool := false
  closed : Bool := false
  deriving DecidableEq

namespace Token

/-- The argument, when nothing follows. -/
def finish (t : Token) : List CodeUnit := t.text ++ List.replicate t.backslashes backslash

/-- A quote after a run of backslashes. -/
def readQuotation (rules : Rules) (t : Token) : Token :=
  let text := t.text ++ List.replicate (t.backslashes / 2) backslash
  if t.backslashes % 2 = 1 then { text := text ++ [quotation], quoted := t.quoted }
  else if t.closed = true ∧ t.backslashes = 0 ∧ rules.doubled = true then
    { text := text ++ [quotation], quoted := true }
  else { text, quoted := !t.quoted, closed := t.quoted }

def read (rules : Rules) (t : Token) (u : CodeUnit) : Token :=
  if u = backslash then { t with backslashes := t.backslashes + 1 }
  else if u = quotation then t.readQuotation rules
  else { text := t.finish ++ [u], quoted := t.quoted }

end Token

/-- The arguments of a text, the first of them already begun. -/
def readArguments (rules : Rules) : Option Token → List CodeUnit → List (List CodeUnit)
  | none, [] => []
  | some t, [] => [t.finish]
  | none, u :: rest =>
    if isBlank u then readArguments rules none rest
    else readArguments rules (some (Token.read rules {} u)) rest
  | some t, u :: rest =>
    if isBlank u ∧ t.quoted = false then t.finish :: readArguments rules none rest
    else readArguments rules (some (t.read rules u)) rest

/-- Program and arguments of a command line. -/
def parseCommandLine (rules : Rules) (line : List CodeUnit) : List CodeUnit × List (List CodeUnit) :=
  let program := readProgram false (line.takeWhile fun u => u ≠ 0)
  (program.1, readArguments rules none program.2)

/-! ### Reading on -/

namespace Token

variable (rules : Rules)

theorem read_backslash (t : Token) :
    t.read rules backslash = { t with backslashes := t.backslashes + 1 } := if_pos rfl

theorem read_quotation (t : Token) : t.read rules quotation = t.readQuotation rules := by
  rw [read, if_neg (by decide), if_pos rfl]

theorem read_other (t : Token) {u : CodeUnit} (hslash : u ≠ backslash) (hquote : u ≠ quotation) :
    t.read rules u = { text := t.finish ++ [u], quoted := t.quoted } := by
  rw [read, if_neg hslash, if_neg hquote]

/-- An even run before a quote: half of it, and the quote opens or closes. -/
theorem readQuotation_even (t : Token) {n : Nat} (hn : t.backslashes = 2 * n) (hclosed : t.closed = false) :
    t.readQuotation rules =
      { text := t.text ++ List.replicate n backslash, quoted := !t.quoted, closed := t.quoted } := by
  have hmod : ¬ t.backslashes % 2 = 1 := by omega
  have hdiv : t.backslashes / 2 = n := by omega
  simp [readQuotation, hmod, hdiv, hclosed]

/-- An odd run before a quote: half of it, and the quote itself. -/
theorem readQuotation_odd (t : Token) {n : Nat} (hn : t.backslashes = 2 * n + 1) :
    t.readQuotation rules =
      { text := t.text ++ List.replicate n backslash ++ [quotation], quoted := t.quoted } := by
  have hmod : t.backslashes % 2 = 1 := by omega
  have hdiv : t.backslashes / 2 = n := by omega
  simp [readQuotation, hmod, hdiv]

end Token

section Reading

variable (rules : Rules)

theorem readArguments_cons_of_quoted (t : Token) (ht : t.quoted = true) (u : CodeUnit) (rest : List CodeUnit) :
    readArguments rules (some t) (u :: rest) = readArguments rules (some (t.read rules u)) rest := by
  rw [readArguments, if_neg (by simp [ht])]

theorem readArguments_blank {u : CodeUnit} (hu : isBlank u = true) (rest : List CodeUnit) :
    readArguments rules none (u :: rest) = readArguments rules none rest := by
  rw [readArguments, if_pos hu]

/-- A blank outside quotes ends the argument. -/
theorem readArguments_end {t : Token} (ht : t.quoted = false) {u : CodeUnit} (hu : isBlank u = true)
    (rest : List CodeUnit) :
    readArguments rules (some t) (u :: rest) = t.finish :: readArguments rules none rest := by
  rw [readArguments, if_pos ⟨hu, ht⟩]

/-- The opening quote of an argument. -/
theorem readArguments_quotation (rest : List CodeUnit) :
    readArguments rules none (quotation :: rest) = readArguments rules (some { quoted := true }) rest := by
  rw [readArguments, if_neg (by decide), Token.read_quotation,
    Token.readQuotation_even rules {} (Nat.mul_zero 2).symm rfl]
  rfl

/-- **A run of backslashes** only counts. -/
theorem readArguments_backslashes (t : Token) (n : Nat) (rest : List CodeUnit) :
    readArguments rules (some t) (List.replicate n backslash ++ rest) =
      readArguments rules (some { t with backslashes := t.backslashes + n }) rest := by
  induction n generalizing t with
  | zero => rfl
  | succ n ih =>
    have hblank : ¬ (isBlank backslash = true ∧ t.quoted = false) := fun h => absurd h.1 (by decide)
    rw [List.replicate_succ, List.cons_append, readArguments, if_neg hblank, Token.read_backslash, ih]
    simp only [Nat.add_assoc, Nat.add_comm 1 n]

/-- Inside quotes the program goes to the next quote. -/
theorem readProgram_quoted {program : List CodeUnit} (h : quotation ∉ program) (rest : List CodeUnit) :
    readProgram true (program ++ quotation :: rest) =
      (program ++ (readProgram false rest).1, (readProgram false rest).2) := by
  induction program with
  | nil => rw [List.nil_append, readProgram, if_pos rfl]; rfl
  | cons u program ih =>
    rw [List.mem_cons, not_or] at h
    rw [List.cons_append, readProgram, if_neg (Ne.symm h.1), if_neg (by simp), ih h.2]
    rfl

end Reading

end WindowsArguments

end Tapid
