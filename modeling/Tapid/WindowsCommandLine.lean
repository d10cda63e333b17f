/-
The command line of a Windows process.

Program and arguments are quoted into one text.  The program is quoted like an
argument, though it is read without backslash escapes.

* `quoteLoop_read` — an argument is read back from between its quotes;
* `parse_serialize` — what a serialized command line is read as;
* `serialize_of_validate` — lengths that were accepted fit;
* `roundTrips_iff` — when program and arguments come back.
-/
import Tapid.Execution
import Tapid.WindowsArguments
import Tapid.Text

namespace Tapid

open Fallible WindowsArguments

/-! ### Serialization -/

/-- The loop of `quote`, with the backslashes that were not written yet. -/
def quoteLoop : Nat → List CodeUnit → List CodeUnit
  | backslashes, [] => List.replicate (backslashes * 2) backslash ++ [quotation]
  | backslashes, u :: rest =>
    if u = backslash then quoteLoop (backslashes + 1) rest
    else if u = quotation then
      List.replicate (backslashes * 2 + 1) backslash ++ quotation :: quoteLoop 0 rest
    else List.replicate backslashes backslash ++ u :: quoteLoop 0 rest

def quote (argument : List CodeUnit) : List CodeUnit := quotation :: quoteLoop 0 argument

/-- An argument with its separator; verbatim arguments are not quoted. -/
def appendArgument (verbatimLast : Bool) (argument : List CodeUnit) : List CodeUnit :=
  space :: if verbatimLast then argument else quote argument

def serializeWindowsCommandLineUnits (program : List CodeUnit) (arguments : List (List CodeUnit))
    (verbatimLast : Bool) : Except ExecutionError (List CodeUnit) := do
  rejectIf (program = [] ∨ 0 ∈ program ∨ ∃ argument ∈ arguments, 0 ∈ argument)
    (invalidRequest "Windows command line contains an empty program or embedded NUL")
  rejectIf (verbatimLast = true ∧ arguments = [])
    (invalidRequest "Windows verbatim command line requires a final command payload")
  let commandLine := quote program ++ arguments.flatMap (appendArgument verbatimLast) ++ [0]
  rejectIf (maxArgvUnits < commandLine.length)
    (invalidRequest ("serialized Windows command line exceeds " ++ toString maxArgvUnits ++
      " UTF-16 code units"))
  return commandLine

/-! ### The estimate of lengths -/

def addArgumentUnits (units argument : Nat) : Option Nat := do
  let separated ← Usize.checkedAdd units 1
  let doubled ← Usize.checkedMul argument 2
  let quoted ← Usize.checkedAdd doubled 2
  Usize.checkedAdd separated quoted

def windowsCommandLineUnitsUpperBound (program : Nat) (arguments : List Nat) : Option Nat := do
  let doubled ← Usize.checkedMul program 2
  let quoted ← Usize.checkedAdd doubled 2
  let units ← Usize.checkedAdd quoted 1
  arguments.foldlM addArgumentUnits units

def validateWindowsCommandLineUnits (program : Nat) (arguments : List Nat) : Except ExecutionError Unit :=
  rejectIf ((windowsCommandLineUnitsUpperBound program arguments).all fun units => maxArgvUnits < units)
    (invalidRequest ("execution argv may exceed " ++ toString maxArgvUnits ++
      " UTF-16 code units after Windows command-line serialization"))

/-! ### What quoting adds -/

/-- Backslashes that quoting adds, after a run of some. -/
def addedBackslashes : Nat → List CodeUnit → Nat
  | run, [] => run
  | run, u :: rest =>
    if u = backslash then addedBackslashes (run + 1) rest
    else if u = quotation then run + 1 + addedBackslashes 0 rest
    else addedBackslashes 0 rest

def quotedUnits (argument : List CodeUnit) : Nat := argument.length + addedBackslashes 0 argument + 2

/-- Length of the serialized command line, with its NUL. -/
def commandLineUnits (program : List CodeUnit) (arguments : List (List CodeUnit)) : Nat :=
  quotedUnits program + (arguments.map fun argument => quotedUnits argument + 1).sum + 1

theorem length_quoteLoop (n : Nat) (argument : List CodeUnit) :
    (quoteLoop n argument).length = n + argument.length + addedBackslashes n argument + 1 := by
  induction argument generalizing n with
  | nil =>
    simp only [quoteLoop, addedBackslashes, List.length_append, List.length_replicate, List.length_cons,
      List.length_nil]
    omega
  | cons u argument ih =>
    simp only [quoteLoop, addedBackslashes]
    split_ifs with hslash hquote
    · rw [ih, List.length_cons]
      omega
    · simp only [List.length_append, List.length_replicate, List.length_cons, ih]
      omega
    · simp only [List.length_append, List.length_replicate, List.length_cons, ih]
      omega

theorem length_quote (argument : List CodeUnit) : (quote argument).length = quotedUnits argument := by
  rw [quote, List.length_cons, length_quoteLoop, quotedUnits]
  omega

theorem addedBackslashes_le (n : Nat) (argument : List CodeUnit) :
    addedBackslashes n argument ≤ n + argument.length := by
  induction argument generalizing n with
  | nil => simp [addedBackslashes]
  | cons u argument ih =>
    rw [addedBackslashes, List.length_cons]
    split_ifs with hslash hquote
    · have := ih (n + 1)
      omega
    · have := ih 0
      omega
    · have := ih 0
      omega

/-- Quoting at most doubles what is quoted. -/
theorem quotedUnits_le (argument : List CodeUnit) : quotedUnits argument ≤ argument.length * 2 + 2 := by
  have := addedBackslashes_le 0 argument
  rw [quotedUnits]
  omega

/-- Without quotes, only the backslashes at the end are doubled. -/
theorem quoteLoop_of_not_mem {argument : List CodeUnit} (h : quotation ∉ argument) (n : Nat) :
    quoteLoop n argument = List.replicate n backslash ++ argument ++
      List.replicate (addedBackslashes n argument) backslash ++ [quotation] := by
  induction argument generalizing n with
  | nil =>
    rw [quoteLoop, addedBackslashes, List.append_nil, ← List.replicate_add, Nat.mul_two]
  | cons u argument ih =>
    rw [List.mem_cons, not_or] at h
    rw [quoteLoop, addedBackslashes]
    split_ifs with hslash hquote
    · rw [ih h.2, hslash, List.replicate_succ']
      simp only [List.append_assoc, List.nil_append, List.cons_append]
    · exact absurd hquote.symm h.1
    · rw [ih h.2]
      simp only [List.replicate_zero, List.nil_append, List.append_assoc, List.cons_append]

/-- Nothing is added to a program exactly when no backslash ends it. -/
theorem addedBackslashes_eq_zero {program : List CodeUnit} (h : quotation ∉ program) (n : Nat) :
    addedBackslashes n program = 0 ↔ (program = [] → n = 0) ∧ program.getLast? ≠ some backslash := by
  induction program generalizing n with
  | nil => simp [addedBackslashes]
  | cons u program ih =>
    rw [List.mem_cons, not_or] at h
    rw [addedBackslashes]
    split_ifs with hslash hquote
    · rw [ih h.2, List.getLast?_cons, hslash]
      cases hlast : program.getLast? with
      | none => simp [List.getLast?_eq_none_iff.mp hlast]
      | some v =>
        have hne : program ≠ [] := by
          rintro rfl
          cases hlast
        simp [hne]
    · exact absurd hquote.symm h.1
    · rw [ih h.2, List.getLast?_cons]
      cases hlast : program.getLast? with
      | none => simp [hslash]
      | some v => simp

/-! ### Arguments are read back -/

section Reading

variable (rules : Rules)

/-- **Between its quotes an argument is read back.**  The backslashes that were
not written yet are those the reader has not seen yet. -/
theorem quoteLoop_read (argument : List CodeUnit) (n : Nat) (text rest : List CodeUnit) :
    readArguments rules (some { text, quoted := true }) (quoteLoop n argument ++ rest) =
      readArguments rules (some { text := text ++ List.replicate n backslash ++ argument, closed := true })
        rest := by
  induction argument generalizing n text with
  | nil =>
    -- an even run before the closing quote
    rw [quoteLoop, List.append_assoc, readArguments_backslashes, List.singleton_append,
      readArguments_cons_of_quoted _ _ rfl, Token.read_quotation,
      Token.readQuotation_even rules (n := n) _ (by simp [Nat.mul_comm]) rfl, List.append_nil]
    rfl
  | cons u argument ih =>
    rw [quoteLoop]
    split_ifs with hslash hquote
    · rw [ih, hslash, List.replicate_succ', List.append_assoc, List.append_assoc, List.append_assoc,
        List.singleton_append]
    · -- an odd run makes the quote literal
      rw [List.append_assoc, readArguments_backslashes, List.cons_append,
        readArguments_cons_of_quoted _ _ rfl, Token.read_quotation,
        Token.readQuotation_odd rules (n := n) _ (by simp [Nat.mul_comm]), ih, hquote]
      simp
    · -- a run that no quote follows is literal
      rw [List.append_assoc, readArguments_backslashes, List.cons_append,
        readArguments_cons_of_quoted _ _ rfl, Token.read_other rules _ hslash hquote, ih]
      simp [Token.finish]

/-- **All arguments are read back**, each up to the separator of the next. -/
theorem readArguments_flatMap (arguments : List (List CodeUnit)) :
    readArguments rules none (arguments.flatMap (appendArgument false)) = arguments := by
  have hopen : ∀ argument rest, readArguments rules none (appendArgument false argument ++ rest) =
      readArguments rules (some { text := argument, closed := true }) rest := by
    intro argument rest
    rw [appendArgument, List.cons_append, readArguments_blank rules (by decide), quote]
    simp only [Bool.false_eq_true, if_false, List.cons_append]
    rw [readArguments_quotation, quoteLoop_read]
    rfl
  cases arguments with
  | nil => rfl
  | cons argument arguments =>
    rw [List.flatMap_cons, hopen]
    induction arguments generalizing argument with
    | nil => simp [readArguments, Token.finish]
    | cons next arguments ih =>
      -- the separator ends the argument and begins the next
      have hsplit : ∀ rest, readArguments rules (some { text := argument, closed := true })
          (appendArgument false next ++ rest) =
            argument :: readArguments rules none (appendArgument false next ++ rest) := by
        intro rest
        have hspace : appendArgument false next ++ rest = space :: (quote next ++ rest) := rfl
        rw [hspace, readArguments_end rules rfl (by decide), readArguments_blank rules (by decide)]
        simp [Token.finish]
      rw [List.flatMap_cons, hsplit, hopen, ih]

/-- The program comes back with its last backslashes doubled. -/
theorem readProgram_quote {program : List CodeUnit} (h : quotation ∉ program) (rest : List CodeUnit) :
    readProgram false (quote program ++ rest) =
      (program ++ List.replicate (addedBackslashes 0 program) backslash ++ (readProgram false rest).1,
        (readProgram false rest).2) := by
  have hdoubled : quotation ∉ program ++ List.replicate (addedBackslashes 0 program) backslash := by
    rw [List.mem_append, not_or]
    exact ⟨h, fun hmem => absurd (List.eq_of_mem_replicate hmem) (by decide)⟩
  rw [quote, quoteLoop_of_not_mem h, List.cons_append, readProgram, if_pos rfl, Bool.not_false,
    List.replicate_zero, List.nil_append, List.append_assoc, List.singleton_append]
  exact readProgram_quoted hdoubled rest

/-! ### Whole command lines -/

theorem not_mem_quote {argument : List CodeUnit} (h : 0 ∉ argument) : 0 ∉ quote argument := by
  have hloop : ∀ n, (0 : CodeUnit) ∉ quoteLoop n argument := by
    induction argument with
    | nil =>
      intro n
      simp [quoteLoop, List.mem_replicate, backslash, quotation]
    | cons u argument ih =>
      rw [List.mem_cons, not_or] at h
      intro n
      rw [quoteLoop]
      split_ifs with hslash hquote
      · exact ih h.2 _
      · have := ih h.2 0
        simp [List.mem_replicate, backslash, quotation, this]
      · have := ih h.2 0
        simp [List.mem_replicate, backslash, h.1, this]
  rw [quote, List.mem_cons, not_or]
  exact ⟨by decide, hloop 0⟩

theorem length_commandLine (program : List CodeUnit) (arguments : List (List CodeUnit)) :
    (quote program ++ arguments.flatMap (appendArgument false) ++ [0]).length =
      commandLineUnits program arguments := by
  have hquote : ∀ argument, (appendArgument false argument).length = quotedUnits argument + 1 := by
    intro argument
    simp [appendArgument, length_quote]
  simp only [List.length_append, List.length_flatMap, length_quote, hquote, List.length_cons,
    List.length_nil, commandLineUnits]

theorem serialize_eq_ok {program : List CodeUnit} {arguments : List (List CodeUnit)} {line : List CodeUnit} :
    serializeWindowsCommandLineUnits program arguments false = .ok line ↔
      (program ≠ [] ∧ 0 ∉ program ∧ ∀ argument ∈ arguments, 0 ∉ argument) ∧
        commandLineUnits program arguments ≤ maxArgvUnits ∧
        line = quote program ++ arguments.flatMap (appendArgument false) ++ [0] := by
  simp only [serializeWindowsCommandLineUnits, bind_eq_ok, rejectIf_eq_ok, pure_eq_ok, length_commandLine,
    not_or, not_exists, not_and, Bool.false_eq_true, false_and, not_false_eq_true, not_lt]
  constructor
  · rintro ⟨_, hvalid, _, _, _, hfits, rfl⟩
    exact ⟨hvalid, hfits, rfl⟩
  · rintro ⟨hvalid, hfits, rfl⟩
    exact ⟨(), hvalid, (), trivial, (), hfits, rfl⟩

/-- **What a command line is read as.** -/
theorem parse_serialize {program : List CodeUnit} {arguments : List (List CodeUnit)} {line : List CodeUnit}
    (hprogram : quotation ∉ program)
    (h : serializeWindowsCommandLineUnits program arguments false = .ok line) :
    parseCommandLine rules line =
      (program ++ List.replicate (addedBackslashes 0 program) backslash, arguments) := by
  obtain ⟨⟨-, hzero, hzeros⟩, -, rfl⟩ := serialize_eq_ok.mp h
  have hbody : 0 ∉ quote program ++ arguments.flatMap (appendArgument false) := by
    rw [List.mem_append, not_or]
    refine ⟨not_mem_quote hzero, fun hmem => ?_⟩
    obtain ⟨argument, hargument, hmem⟩ := List.mem_flatMap.mp hmem
    rw [appendArgument, List.mem_cons] at hmem
    rcases hmem with hmem | hmem
    · cases hmem
    · exact not_mem_quote (hzeros argument hargument) hmem
  -- the reader stops at the NUL
  have hline : (quote program ++ arguments.flatMap (appendArgument false) ++ [0]).takeWhile (fun u => u ≠ 0) =
      quote program ++ arguments.flatMap (appendArgument false) := by
    rw [List.takeWhile_append_of_pos]
    · simp
    · intro u hu
      simpa using fun hzero : u = 0 => hbody (hzero ▸ hu)
  rw [parseCommandLine, hline]
  simp only [readProgram_quote hprogram]
  -- the program ends at the separator of the first argument
  cases arguments with
  | nil => simp [readProgram, readArguments]
  | cons argument arguments =>
    have hspace : readProgram false ((argument :: arguments).flatMap (appendArgument false)) =
        ([], quote argument ++ arguments.flatMap (appendArgument false)) := by
      rw [List.flatMap_cons, appendArgument, List.cons_append, readProgram, if_neg (by decide),
        if_pos ⟨rfl, by decide⟩]
      rfl
    have hread := readArguments_flatMap rules (argument :: arguments)
    rw [List.flatMap_cons, appendArgument, List.cons_append, readArguments_blank rules (by decide)] at hread
    rw [hspace, List.append_nil]
    exact congrArg _ hread

end Reading

/-! ### Lengths that were accepted -/

theorem le_of_upperBound {program : Nat} {arguments : List Nat} {units : Nat}
    (h : windowsCommandLineUnitsUpperBound program arguments = some units) :
    units = program * 2 + 2 + 1 + (arguments.map fun argument => argument * 2 + 2 + 1).sum := by
  have hstep : ∀ {units argument units' : Nat}, addArgumentUnits units argument = some units' →
      units' = units + (argument * 2 + 2 + 1) := by
    intro units argument units' h
    simp only [addArgumentUnits, Option.bind_eq_bind, Option.bind_eq_some_iff, Usize.checkedAdd_eq_some,
      Usize.checkedMul_eq_some] at h
    obtain ⟨_, ⟨-, rfl⟩, _, ⟨-, rfl⟩, _, ⟨-, rfl⟩, -, rfl⟩ := h
    omega
  have hloop : ∀ (arguments : List Nat) (start : Nat), arguments.foldlM addArgumentUnits start = some units →
      units = start + (arguments.map fun argument => argument * 2 + 2 + 1).sum := by
    intro arguments
    induction arguments with
    | nil =>
      intro start h
      simpa using (Option.some.inj h).symm
    | cons argument arguments ih =>
      intro start h
      rw [List.foldlM_cons, Option.bind_eq_bind, Option.bind_eq_some_iff] at h
      obtain ⟨units', hargument, h⟩ := h
      rw [ih units' h, hstep hargument, List.map_cons, List.sum_cons]
      omega
  simp only [windowsCommandLineUnitsUpperBound, Option.bind_eq_bind, Option.bind_eq_some_iff,
    Usize.checkedAdd_eq_some, Usize.checkedMul_eq_some] at h
  obtain ⟨_, ⟨-, rfl⟩, _, ⟨-, rfl⟩, _, ⟨-, rfl⟩, h⟩ := h
  exact hloop arguments _ h

/-- **Lengths that were accepted fit.** -/
theorem commandLineUnits_le_of_validate {program : List CodeUnit} {arguments : List (List CodeUnit)}
    (h : validateWindowsCommandLineUnits program.length (arguments.map List.length) = .ok ()) :
    commandLineUnits program arguments ≤ maxArgvUnits := by
  rw [validateWindowsCommandLineUnits, rejectIf_eq_ok] at h
  cases hunits : windowsCommandLineUnitsUpperBound program.length (arguments.map List.length) with
  | none => simp [hunits] at h
  | some units =>
    have hfits : units ≤ maxArgvUnits := by simpa [hunits] using h
    have hsum : (arguments.map fun argument => quotedUnits argument + 1).sum ≤
        ((arguments.map List.length).map fun argument => argument * 2 + 2 + 1).sum := by
      rw [List.map_map]
      exact List.sum_le_sum fun argument _ => Nat.succ_le_succ (quotedUnits_le argument)
    have hprogram := quotedUnits_le program
    have hbound := le_of_upperBound hunits
    rw [commandLineUnits]
    omega

/-! ### Round trips -/

/-- Serialized command lines are read as what they were made of, and lengths that
were accepted can be serialized. -/
def RoundTrips (rules : Rules) (program : List CodeUnit) (arguments : List (List CodeUnit)) : Prop :=
  (∀ line, serializeWindowsCommandLineUnits program arguments false = .ok line →
    parseCommandLine rules line = (program, arguments)) ∧
  (validateWindowsCommandLineUnits program.length (arguments.map List.length) = .ok () →
    ∃ line, serializeWindowsCommandLineUnits program arguments false = .ok line ∧
      line.length ≤ maxArgvUnits)

/-- **Program and arguments come back** unless the program ends in a backslash; an
empty program is never serialized. -/
theorem roundTrips_iff (rules : Rules) {program : List CodeUnit} {arguments : List (List CodeUnit)}
    (hprogram : 0 ∉ program ∧ quotation ∉ program) (harguments : ∀ argument ∈ arguments, 0 ∉ argument) :
    RoundTrips rules program arguments ↔
      (program = [] → validateWindowsCommandLineUnits 0 (arguments.map List.length) ≠ .ok ()) ∧
        (program.getLast? = some backslash → maxArgvUnits < commandLineUnits program arguments) := by
  constructor
  · rintro ⟨hparse, hvalidate⟩
    constructor
    · rintro rfl haccepted
      obtain ⟨line, hline, -⟩ := hvalidate haccepted
      exact (serialize_eq_ok.mp hline).1.1 rfl
    · intro hlast
      by_contra hfits
      have hne : program ≠ [] := by
        rintro rfl
        cases hlast
      have hline := serialize_eq_ok.mpr ⟨⟨hne, hprogram.1, harguments⟩, not_lt.mp hfits, rfl⟩
      -- the text that comes back is longer than the program
      have hread := congrArg Prod.fst ((parse_serialize rules hprogram.2 hline).symm.trans (hparse _ hline))
      have hzero : addedBackslashes 0 program = 0 :=
        by simpa using List.append_right_eq_self.mp hread
      exact ((addedBackslashes_eq_zero hprogram.2 0).mp hzero).2 hlast
  · rintro ⟨hempty, hlast⟩
    constructor
    · intro line hline
      have hfits := (serialize_eq_ok.mp hline).2.1
      have hzero : addedBackslashes 0 program = 0 :=
        (addedBackslashes_eq_zero hprogram.2 0).mpr
          ⟨fun _ => rfl, fun h => absurd (hlast h) (not_lt.mpr hfits)⟩
      rw [parse_serialize rules hprogram.2 hline, hzero, List.replicate_zero, List.append_nil]
    · intro haccepted
      have hfits := commandLineUnits_le_of_validate haccepted
      have hne : program ≠ [] := by
        rintro rfl
        exact hempty rfl haccepted
      have hline := serialize_eq_ok.mpr ⟨⟨hne, hprogram.1, harguments⟩, hfits, rfl⟩
      exact ⟨_, hline, (length_commandLine program arguments).trans_le hfits⟩

/-- A program that ends in a backslash: `C:\`. -/
def driveProgram : List CodeUnit := [67, 58, backslash]

/-- It comes back as `C:\\`. -/
theorem not_forall_roundTrips : ¬ ∀ (rules : Rules) (program : List CodeUnit) (arguments : List (List CodeUnit)),
    0 ∉ program ∧ quotation ∉ program → (∀ argument ∈ arguments, 0 ∉ argument) →
      RoundTrips rules program arguments := by
  intro h
  have hparse := (h ⟨true⟩ driveProgram [] (by decide) (by simp)).1
    [quotation, 67, 58, backslash, backslash, quotation, 0] (by decide)
  exact absurd hparse (by decide)

/-- An empty argument and one that ends in a backslash. -/
theorem roundTrips_iff_node : RoundTrips ⟨true⟩ [67, 58, backslash, 110] [[], [97, space, backslash]] ↔
    (([67, 58, backslash, 110] : List CodeUnit) = [] →
      validateWindowsCommandLineUnits 0 ([[], [97, space, backslash]].map List.length) ≠ .ok ()) ∧
    (([67, 58, backslash, 110] : List CodeUnit).getLast? = some backslash →
      maxArgvUnits < commandLineUnits [67, 58, backslash, 110] [[], [97, space, backslash]]) :=
  roundTrips_iff ⟨true⟩ (by decide) (by decide)

end Tapid
