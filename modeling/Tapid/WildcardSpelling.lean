/-
Wildcard spellings of partial versions.

`1.x` is desugared when it is read, into comparators with full bounds; a bare
`1` keeps its precision and is compared component by component.  The two read
alike in any surrounding of comparators and alternatives, except that

* the wildcard needs its bounds to be 64-bit versions (`Bounded`);
* its upper bound `<2.0.0` lets the prereleases of `2.0.0` through
  (`Reaches`), where the rest of the alternative does.

* `parseTokens_append`, `exists_parseClause` — reading word by word;
* `all_admits_wildcardComparators` — what a wildcard admits;
* `wildcard_spelling_iff` — exactly when the two spellings agree.
-/
import Tapid.NodeRangeText

namespace Tapid

open Text

namespace NodeRange

/-! ### Words of comparators -/

/-- A value begins like a version or a wildcard. -/
def IsValue (w : List Char) : Prop :=
  ∃ c cs, w = c :: cs ∧ (c.isDigit = true ∨ c = 'v' ∨ isWildcardPart [c] = true)

/-- An operator and its value, attached or apart. -/
def operatorWords (apart : Bool) (o w : List Char) : List (List Char) := if apart then [o, w] else [o ++ w]

/-- Words of comparators, whatever their values. -/
inductive Comparators : List (List Char) → Prop where
  | nil : Comparators []
  | cons {op : RequirementOperator} {o w : List Char} {apart : Bool} {ws : List (List Char)}
      (ho : o ∈ operatorTexts op) (hw : IsValue w) (hws : Comparators ws) :
      Comparators (operatorWords apart o w ++ ws)

theorem IsValue.head {w : List Char} (h : IsValue w) : ∃ c cs, w = c :: cs ∧ isOperatorChar c = false ∧
    c ≠ '-' := by
  obtain ⟨c, cs, rfl, hc⟩ := h
  refine ⟨c, cs, rfl, ?_⟩
  rcases hc with hc | rfl | hc
  · refine ⟨isOperatorChar_eq_false (Or.inl (Or.inl hc)), ?_⟩
    rintro rfl
    exact absurd hc (by decide)
  · decide
  · rcases isWildcardPart_eq hc with hc | hc | hc <;>
      (obtain rfl : c = _ := List.singleton_inj.mp hc; decide)

theorem requirementToken_value {op : RequirementOperator} {o w : List Char} (ho : o ∈ operatorTexts op)
    (hw : IsValue w) : requirementToken (o ++ w) = (op, w) := by
  obtain ⟨c, cs, rfl, hop, _⟩ := hw.head
  exact requirementToken_append ho fun d hd => by rw [← Option.some_inj.mp hd, hop]

theorem separatedOperator_value {op : RequirementOperator} {o w : List Char} (ho : o ∈ operatorTexts op)
    (hw : IsValue w) : separatedOperator (o ++ w) = none := by
  obtain ⟨c, cs, rfl, hop, _⟩ := hw.head
  have hne : c ≠ '~' ∧ c ≠ '>' ∧ c ≠ '<' ∧ c ≠ '=' := by
    refine ⟨?_, ?_, ?_, ?_⟩ <;> rintro rfl <;> exact absurd hop (by decide)
  cases op <;> simp only [operatorTexts, List.mem_cons, List.not_mem_nil, or_false] at ho <;>
    rcases ho with rfl | rfl <;> simp [separatedOperator, hne]

/-- How an operator and its value are read. -/
def readComparator (op : RequirementOperator) (o w : List Char) : Option (List RequirementComparator) :=
  match parseXRange (o ++ w) with
  | some wildcard => some wildcard
  | none => (parseRequirementBase op w).map fun base => [⟨op, base⟩]

theorem parseTokens_attached {op : RequirementOperator} {o w : List Char} (ho : o ∈ operatorTexts op)
    (hw : IsValue w) (rest : List (List Char)) : parseTokens ((o ++ w) :: rest) =
      (readComparator op o w).bind fun l => (parseTokens rest).map (l ++ ·) := by
  have hsep := separatedOperator_value ho hw
  have htoken : parseToken (o ++ w) = (parseRequirementBase op w).map fun base => [⟨op, base⟩] := by
    rw [parseToken, requirementToken_value ho hw]
  cases rest with
  | nil =>
    rw [readComparator]
    cases hx : parseXRange (o ++ w) with
    | some wildcard => simp [parseTokens, hx]
    | none => cases hbase : parseRequirementBase op w <;> simp [parseTokens, hx, hsep, htoken, hbase]
  | cons value rest =>
    rw [parseTokens, hsep, readComparator]
    cases parseXRange (o ++ w) with
    | some wildcard => rfl
    | none =>
      rw [htoken]
      rfl

/-- A caret that stands alone is refused, any other operator reads its value. -/
theorem parseTokens_apart {op : RequirementOperator} {o : List Char} (ho : o ∈ operatorTexts op)
    (hne : o ≠ []) (w : List Char) (rest : List (List Char)) : parseTokens (o :: w :: rest) =
      if op = .caret then none
      else (readComparator op o w).bind fun l => (parseTokens rest).map (l ++ ·) := by
  have hxo : parseXRange o = none := by
    have hx := @parseXRange_operator _ _ [] ho (by simp)
    rwa [List.append_nil] at hx
  split_ifs with hop
  · obtain rfl : o = ['^'] := by simpa [hop, operatorTexts] using ho
    have hnone : parseToken ['^'] = none := by decide
    rw [parseTokens_cons _ hxo (by decide), hnone]
    rfl
  · rw [parseTokens, separatedOperator_operator ho hne hop, Option.bind_some, readComparator]
    cases parseXRange (o ++ w) with
    | some wildcard => rfl
    | none =>
      rw [hxo]
      cases hbase : parseRequirementBase op w <;> simp [hbase]

/-- How the words of an operator and its value are read. -/
def readWords (apart : Bool) (op : RequirementOperator) (o w : List Char) :
    Option (List RequirementComparator) :=
  if apart = true ∧ op = .caret then none else readComparator op o w

theorem parseTokens_operatorWords {op : RequirementOperator} {o w : List Char} {apart : Bool}
    (ho : o ∈ operatorTexts op) (hw : IsValue w) (hne : ∀ word ∈ operatorWords apart o w, word ≠ [])
    (rest : List (List Char)) : parseTokens (operatorWords apart o w ++ rest) =
      (readWords apart op o w).bind fun l => (parseTokens rest).map (l ++ ·) := by
  cases apart with
  | false => exact parseTokens_attached ho hw rest
  | true =>
    have ho' : o ≠ [] := hne o List.mem_cons_self
    show parseTokens (o :: w :: rest) = _
    rw [parseTokens_apart ho ho', readWords]
    by_cases hop : op = .caret
    · rw [if_pos hop, if_pos ⟨rfl, hop⟩]
      rfl
    · rw [if_neg hop, if_neg fun h => hop h.2]

namespace Comparators

variable {ws : List (List Char)}

/-- **Comparators are read one after the other.** -/
theorem parseTokens_append (h : Comparators ws) (hne : ∀ w ∈ ws, w ≠ []) (rest : List (List Char)) :
    parseTokens (ws ++ rest) = (parseTokens ws).bind fun l => (parseTokens rest).map (l ++ ·) := by
  induction h with
  | nil =>
    simp [parseTokens]
  | @cons op o w apart ws ho hw _ ih =>
    have hfirst : ∀ word ∈ operatorWords apart o w, word ≠ [] := fun word hword =>
      hne word (List.mem_append_left _ hword)
    rw [List.append_assoc, parseTokens_operatorWords ho hw hfirst, parseTokens_operatorWords ho hw hfirst,
      ih fun word hword => hne word (List.mem_append_right _ hword)]
    cases readWords apart op o w with
    | none => rfl
    | some l =>
      cases parseTokens ws with
      | none => rfl
      | some l' => cases parseTokens rest <;> simp

/-- Comparators are no hyphen range. -/
theorem hyphen_not_mem (h : Comparators ws) : ['-'] ∉ ws := by
  induction h with
  | nil => exact List.not_mem_nil
  | @cons op o w apart ws ho hw _ ih =>
    obtain ⟨c, cs, rfl, _, hc⟩ := hw.head
    have ho' : o ≠ ['-'] ∧ o ++ c :: cs ≠ ['-'] := by
      rcases head_of_operatorTexts ho with rfl | ⟨e, es, rfl, he⟩
      · exact ⟨by simp, fun h => hc (List.cons.inj h).1⟩
      · have he' : e ≠ '-' := by
          rintro rfl
          exact absurd he (by decide)
        exact ⟨fun h => he' (List.cons.inj h).1, fun h => he' (List.cons.inj h).1⟩
    have hfirst : ['-'] ∉ operatorWords apart o (c :: cs) := by
      cases apart
      · simpa [operatorWords] using ho'.2.symm
      · simpa [operatorWords, hc.symm] using ho'.1.symm
    exact fun hmem => (List.mem_append.mp hmem).elim hfirst ih

theorem append {ws' : List (List Char)} (h : Comparators ws) (h' : Comparators ws') :
    Comparators (ws ++ ws') := by
  induction h with
  | nil => exact h'
  | cons ho hw _ ih =>
    rw [List.append_assoc]
    exact .cons ho hw ih

end Comparators

/-! ### Clauses -/

/-- Characters of a wildcard range. -/
def isRangeChar (c : Char) : Bool := isOperatorChar c || isIdentChar c || c == '.' || c == '+' || c == '*'

theorem isWhitespace_of_isRangeChar {c : Char} (h : isRangeChar c = true) : isWhitespace c = false := by
  have hlt : c.toNat < 128 := by
    simp only [isRangeChar, Bool.or_eq_true, beq_iff_eq] at h
    rcases h with (((h | h) | rfl) | rfl) | rfl
    · rcases isOperatorChar_cases h with rfl | rfl | rfl | rfl | rfl <;> decide
    · rcases Bool.or_eq_true_iff.mp h with h | h
      · exact toNat_lt_of_isAsciiAlphanumeric h
      · rw [beq_iff_eq.mp h]
        decide
    · decide
    · decide
    · decide
  exact of_ascii (P := fun c => isRangeChar c = true → isWhitespace c = false) (by decide) hlt h

/-- A token is its operator and its value. -/
theorem exists_operator (t : List Char) :
    ∃ o, t = o ++ (requirementToken t).2 ∧ ∀ c ∈ o, isOperatorChar c = true := by
  rw [requirementToken]
  cases hfind : operatorPrefixes.findSome? fun entry =>
      (stripPrefix entry.1 t).map fun value => (entry.2, value) with
  | none => exact ⟨[], rfl, by simp⟩
  | some found =>
    obtain ⟨entry, hentry, hfound⟩ := List.exists_of_findSome?_eq_some hfind
    obtain ⟨value, hvalue, rfl⟩ := Option.map_eq_some_iff.mp hfound
    have hops : ∀ e ∈ operatorPrefixes, ∀ c ∈ e.1, isOperatorChar c = true := by
      simp [operatorPrefixes, isOperatorChar]
    exact ⟨entry.1, eq_append_of_stripPrefix hvalue, hops entry hentry⟩

theorem mem_stripV {value : List Char} {c : Char} (h : c ∈ value) : c = 'v' ∨ c ∈ stripV value := by
  rw [stripV]
  cases hstrip : stripPrefix ['v'] value with
  | none => exact Or.inr h
  | some rest =>
    rw [eq_append_of_stripPrefix hstrip] at h
    rcases List.mem_append.mp h with h | h
    · exact Or.inl (List.mem_singleton.mp h)
    · exact Or.inr h

/-- Every character is a separator or in a part. -/
theorem mem_parts (x : Char) {s : List Char} {c : Char} (h : c ∈ s) : c = x ∨ ∃ part ∈ s.splitOn x, c ∈ part := by
  rw [← @List.intercalate_splitOn _ s _ _ x] at h
  exact mem_intercalate h

theorem isIdentChar_of_isBuildMetadata {build : List Char} (h : isBuildMetadata build = true) {c : Char}
    (hc : c ∈ build) : c = '.' ∨ isIdentChar c = true := by
  rcases mem_parts '.' hc with rfl | ⟨part, hpart, hc⟩
  · exact Or.inl rfl
  · have hpart := List.all_eq_true.mp h part hpart
    exact Or.inr (List.all_eq_true.mp (Bool.and_eq_true_iff.mp hpart).2 c hc)

theorem isDigit_of_isNumeral {part : List Char} (h : isNumeral part = true) {c : Char} (hc : c ∈ part) :
    c.isDigit = true := by
  cases part with
  | nil => exact absurd hc List.not_mem_nil
  | cons d ds => exact List.all_eq_true.mp (Bool.and_eq_true_iff.mp h).1 c hc

/-- **A wildcard range is one word.** -/
theorem not_whitespace_of_parseXRange {t : List Char} {l : List RequirementComparator}
    (h : parseXRange t = some l) : ∀ c ∈ t, isWhitespace c = false := by
  intro c hc
  refine isWhitespace_of_isRangeChar ?_
  obtain ⟨o, ht, ho⟩ := exists_operator t
  simp only [parseXRange, Option.bind_eq_bind, Option.bind_eq_some_iff] at h
  obtain ⟨version, hversion, k, hk, _, hwild, _, hnum, _⟩ := h
  have hwild : ((version.splitOn '.').drop k).all isWildcardPart = true := by
    by_contra hne
    simp [guard, hne] at hwild
  have hnum : ((version.splitOn '.').take k).all isNumeral = true := by
    by_contra hne
    simp [guard, hne] at hnum
  have hversionChar : ∀ c ∈ version, isRangeChar c = true := by
    intro c hc
    rcases mem_parts '.' hc with rfl | ⟨part, hpart, hc⟩
    · decide
    · rw [← List.take_append_drop k (version.splitOn '.')] at hpart
      rcases List.mem_append.mp hpart with hpart | hpart
      · have hdigit := isDigit_of_isNumeral (List.all_eq_true.mp hnum part hpart) hc
        simp [isRangeChar, isIdentChar, isAsciiAlphanumeric, hdigit]
      · rcases isWildcardPart_eq (List.all_eq_true.mp hwild part hpart) with rfl | rfl | rfl <;>
          (obtain rfl := List.mem_singleton.mp hc; decide)
  rw [ht] at hc
  rcases List.mem_append.mp hc with hc | hc
  · simp [isRangeChar, ho c hc]
  · rcases mem_stripV hc with rfl | hc
    · decide
    · rw [dropBuild] at hversion
      split at hversion
      · rename_i a build hsplit
        split_ifs at hversion with hbuild
        obtain rfl := Option.some_inj.mp hversion
        rw [(eq_append_of_splitOnce hsplit).1] at hc
        rcases List.mem_append.mp hc with hc | hc
        · exact hversionChar c hc
        · rcases List.mem_cons.mp hc with rfl | hc
          · decide
          · rcases Bool.or_eq_true_iff.mp hbuild with hempty | hbuild
            · rw [List.isEmpty_iff.mp hempty] at hc
              exact absurd hc List.not_mem_nil
            · rcases isIdentChar_of_isBuildMetadata hbuild hc with rfl | hident
              · decide
              · simp [isRangeChar, hident]
      · obtain rfl := Option.some_inj.mp hversion
        exact hversionChar c hc

/-- Comparators without any stand for every stable version. -/
theorem admits_anyStable (v : PackageVersion) :
    RequirementClause.admits v .anyStable = RequirementClause.admits v (.comparators []) := by
  simp [RequirementClause.admits]

/-- What an alternative means when its words are read as these comparators. -/
def ReadAs (k : Option RequirementClause) (l : Option (List RequirementComparator)) : Prop :=
  k.map (fun k v => RequirementClause.admits v k) = l.map fun l v => RequirementClause.admits v (.comparators l)

/-- **An alternative means what its words mean.** -/
theorem parseClause_readAs {part : List Char} (h : Comparators (splitWhitespace part))
    (hne : splitWhitespace part ≠ []) : ReadAs (parseClause part) (parseTokens (splitWhitespace part)) := by
  have htrim : trim part ≠ [] := by
    intro hnil
    rw [← splitWhitespace_trim, hnil] at hne
    exact hne rfl
  -- an alternative without white space is one word
  have hword : (∀ c ∈ trim part, isWhitespace c = false) → splitWhitespace part = [trim part] := by
    intro hplain
    rw [← splitWhitespace_trim, splitWhitespace_eq_singleton htrim hplain]
  have hcomparators : parseComparators (splitWhitespace part) = parseTokens (splitWhitespace part) := by
    unfold parseComparators
    split
    · rename_i lower upper heq
      rw [heq] at h
      exact absurd (by simp) h.hyphen_not_mem
    · rfl
  by_cases hstar : trim part = ['*'] ∨ toAsciiLower (trim part) = ['x']
  · have hwild : isWildcardPart (trim part) = true := by
      rcases hstar with heq | heq
      · rw [heq]
        decide
      · simp [isWildcardPart, heq]
    have hx : parseXRange (trim part) = some [] := by
      rcases isWildcardPart_eq hwild with heq | heq | heq <;> (rw [heq]; decide)
    have htokens : parseTokens (splitWhitespace part) = some [] := by
      rw [hword (not_whitespace_of_parseXRange hx), parseTokens, hx]
    rw [ReadAs, htokens]
    simp only [parseClause, if_neg htrim, if_pos hstar, Option.map_some]
    exact congrArg some (funext admits_anyStable)
  · rw [ReadAs]
    simp only [parseClause, if_neg htrim, if_neg hstar]
    cases hx : parseXRange (trim part) with
    | none =>
      simp only [splitWhitespace_trim, hcomparators]
      cases parseTokens (splitWhitespace part) <;> rfl
    | some l =>
      have htokens : parseTokens (splitWhitespace part) = some l := by
        rw [hword (not_whitespace_of_parseXRange hx), parseTokens, hx]
      rw [htokens]
      cases l with
      | nil => exact congrArg some (funext admits_anyStable)
      | cons c l => rfl

/-! ### What a wildcard admits -/

/-- The version after those a partial version stands for. -/
def Base.upper (P : Base) : Option PackageVersion := partialUpperBound P.toBase.version P.toBase.precision

/-- The upper bounds of a wildcard are 64-bit versions. -/
def Bounded (op : RequirementOperator) (P : Base) : Prop :=
  P.upper.isSome = true ∧ (op = .caret → (caretUpperBound P.toBase).isSome = true)

instance (op : RequirementOperator) (P : Base) : Decidable (Bounded op P) :=
  inferInstanceAs (Decidable (_ ∧ _))

/-- A prerelease of the upper bound, under an operator that ends there. -/
def Reaches (op : RequirementOperator) (P : Base) (v : PackageVersion) : Prop :=
  (op = .exact ∨ op = .tilde ∨ op = .lessEqual) ∧ v.isPrerelease = true ∧
    ∃ u ∈ P.upper, (Bound.ofVersion u).SameRelease v

theorem upper_pre {P : Base} {u : PackageVersion} (hu : P.upper = some u) : u.pre = [] := by
  cases P with
  | full b => cases hu
  | major M =>
    obtain ⟨M', _, rfl⟩ := Option.map_eq_some_iff.mp hu
    rfl
  | minor M m =>
    rcases Option.or_eq_some_iff.mp hu with h | ⟨_, h⟩
    · obtain ⟨m', _, rfl⟩ := Option.map_eq_some_iff.mp h
      rfl
    · obtain ⟨M', _, rfl⟩ := Option.map_eq_some_iff.mp h
      rfl

theorem caretUpperBound_pre {b : RequirementBase} {u : PackageVersion} (hu : caretUpperBound b = some u) :
    u.pre = [] := by
  rw [caretUpperBound] at hu
  split_ifs at hu <;> (obtain ⟨n, _, rfl⟩ := Option.map_eq_some_iff.mp hu; rfl)

/-- The components of the upper bound. -/
theorem upper_components {P : Base} {u : PackageVersion} (hu : P.upper = some u) (v : PackageVersion) :
    Primitive.test ⟨.lt, P.tildeCeiling⟩ v = true ↔ v.major.val < u.major.val ∨
      v.major.val = u.major.val ∧ (v.minor.val < u.minor.val ∨ v.minor.val = u.minor.val ∧
        v.patch.val < u.patch.val) := by
  have hminor := v.minor.isLt
  rw [Primitive.test_lt]
  cases P with
  | full b => cases hu
  | major M =>
    obtain ⟨M', hM, rfl⟩ := Option.map_eq_some_iff.mp hu
    rw [checkedSucc_eq_some] at hM
    simp only [Base.toBase, PackageVersion.stable] at hM
    simp only [Base.tildeCeiling, Bound.key_lt_below, PackageVersion.stable, Fin.val_zero, hM]
  | minor M m =>
    rcases Option.or_eq_some_iff.mp hu with h | ⟨hm, h⟩
    · obtain ⟨m', hm, rfl⟩ := Option.map_eq_some_iff.mp h
      rw [checkedSucc_eq_some] at hm
      simp only [Base.toBase, PackageVersion.stable] at hm
      simp only [Base.tildeCeiling, Bound.key_lt_below, PackageVersion.stable, Fin.val_zero, hm, Base.toBase]
    · -- the minor component is the largest: all of the major version is below
      obtain ⟨M', hM, rfl⟩ := Option.map_eq_some_iff.mp h
      rw [Option.map_eq_none_iff, checkedSucc_eq_none] at hm
      rw [checkedSucc_eq_some] at hM
      simp only [Base.toBase, PackageVersion.stable] at hm hM
      simp only [Base.tildeCeiling, Bound.key_lt_below, PackageVersion.stable, Fin.val_zero, hM]
      omega

/-- **Below the upper bound**: within the partial version or below, or one of
the prereleases of the bound. -/
theorem lt_upper_iff {P : Base} {u : PackageVersion} (hu : P.upper = some u) (v : PackageVersion) :
    v < u ↔ Primitive.test ⟨.lt, P.tildeCeiling⟩ v = true ∨
      v.isPrerelease = true ∧ (Bound.ofVersion u).SameRelease v := by
  rw [lt_stable_iff (upper_pre hu), upper_components hu]
  exact Iff.rfl

/-- No prerelease of the bound is within the partial version. -/
theorem not_test_of_sameRelease {P : Base} {u v : PackageVersion} (hu : P.upper = some u)
    (h : (Bound.ofVersion u).SameRelease v) : ¬ Primitive.test ⟨.lt, P.tildeCeiling⟩ v = true := by
  obtain ⟨hmajor, hminor, hpatch⟩ := h
  rw [upper_components hu]
  simp only [Bound.ofVersion] at hmajor hminor hpatch
  omega

/-- The partial version begins below the bound. -/
theorem le_of_sameRelease {P : Base} {u v : PackageVersion} (hu : P.upper = some u)
    (h : (Bound.ofVersion u).SameRelease v) : P.toBase.version ≤ v := by
  obtain ⟨hmajor, hminor, hpatch⟩ := h
  refine le_of_components_lt ?_
  simp only [Bound.ofVersion] at hmajor hminor hpatch
  cases P with
  | full b => cases hu
  | major M =>
    obtain ⟨M', hM, rfl⟩ := Option.map_eq_some_iff.mp hu
    rw [checkedSucc_eq_some] at hM
    simp only [Base.toBase, PackageVersion.stable] at *
    omega
  | minor M m =>
    rcases Option.or_eq_some_iff.mp hu with h | ⟨hm, h⟩
    · obtain ⟨m', hm, rfl⟩ := Option.map_eq_some_iff.mp h
      rw [checkedSucc_eq_some] at hm
      simp only [Base.toBase, PackageVersion.stable] at *
      omega
    · obtain ⟨M', hM, rfl⟩ := Option.map_eq_some_iff.mp h
      rw [checkedSucc_eq_some] at hM
      simp only [Base.toBase, PackageVersion.stable] at *
      omega

/-- A bare partial version under an operator whose wildcard ends at its upper bound. -/
theorem admits_bare {op : RequirementOperator} {P : Base} (hop : op = .exact ∨ op = .tilde ∨ op = .lessEqual)
    (hP : P.toBase.precision ≠ .full) (v : PackageVersion) :
    (RequirementComparator.mk op P.toBase).admits v = true ↔
      (op = .lessEqual ∨ P.toBase.version ≤ v) ∧ Primitive.test ⟨.lt, P.tildeCeiling⟩ v = true := by
  rcases hop with rfl | rfl | rfl
  · rw [show RequirementComparator.mk .exact P.toBase = Comparator.toComparator ⟨.exact, P⟩ from rfl,
      Comparator.admits_exact, ← Primitive.test_floor]
    cases P with
    | full b => exact absurd rfl hP
    | major M => rw [Comparator.holds_pair rfl]; simp
    | minor M m => rw [Comparator.holds_pair rfl]; simp
  · rw [show RequirementComparator.mk .tilde P.toBase = Comparator.toComparator ⟨.tilde, P⟩ from rfl,
      Comparator.admits_tilde, ← Primitive.test_floor, Comparator.holds_pair rfl]
    simp
  · rw [show RequirementComparator.mk .lessEqual P.toBase = Comparator.toComparator ⟨.lessEqual, P⟩ from rfl,
      Comparator.admits_lessEqual]
    cases P with
    | full b => exact absurd rfl hP
    | major M => rw [Comparator.holds_single rfl]; simp
    | minor M m => rw [Comparator.holds_single rfl]; simp

/-- A full bound is compared as a version. -/
theorem admits_less_full {u v : PackageVersion} :
    (RequirementComparator.mk .less ⟨u, .full⟩).admits v = true ↔ v < u := by
  simp [RequirementComparator.admits]

theorem admits_ge {b : RequirementBase} {v : PackageVersion} :
    (RequirementComparator.mk .greaterEqual b).admits v = true ↔ b.version ≤ v := by
  simp [RequirementComparator.admits]

/-- The bound and, unless it is `<=`, the partial version below it. -/
theorem all_admits_ending {op : RequirementOperator} {P : Base} {u : PackageVersion} (hu : P.upper = some u)
    (hop : op = .exact ∨ op = .tilde ∨ op = .lessEqual) (hP : P.toBase.precision ≠ .full) (v : PackageVersion) :
    ((op = .lessEqual ∨ P.toBase.version ≤ v) ∧ v < u) ↔
      (RequirementComparator.mk op P.toBase).admits v = true ∨ Reaches op P v := by
  rw [admits_bare hop hP, lt_upper_iff hu]
  constructor
  · rintro ⟨hlower, hbelow | hpre⟩
    · exact Or.inl ⟨hlower, hbelow⟩
    · exact Or.inr ⟨hop, hpre.1, u, hu, hpre.2⟩
  · rintro (⟨hlower, hbelow⟩ | ⟨_, hpre, u', hu', hsame⟩)
    · exact ⟨hlower, Or.inl hbelow⟩
    · obtain rfl : u = u' := Option.some_inj.mp (hu.symm.trans hu')
      exact ⟨Or.inr (le_of_sameRelease hu hsame), Or.inr ⟨hpre, hsame⟩⟩

/-- **A wildcard admits what the bare version admits, and the prereleases of its
upper bound.** -/
theorem all_admits_wildcardComparators {op : RequirementOperator} {P : Base}
    {l : List RequirementComparator} (hP : P.toBase.precision ≠ .full)
    (h : wildcardComparators op P.toBase = some l) (v : PackageVersion) :
    (l.all fun c => c.admits v) = true ↔
      (RequirementComparator.mk op P.toBase).admits v = true ∨ Reaches op P v := by
  obtain ⟨u, hu, h⟩ := Option.bind_eq_some_iff.mp h
  change P.upper = some u at hu
  cases op with
  | greater =>
    obtain rfl := Option.some_inj.mp h
    have hbare := @Comparator.admits_greater_upper v P hP
    rw [show (RequirementComparator.mk .greater P.toBase).admits v = true ↔ _ from hbare,
      or_iff_left (fun h => by simp [Reaches] at h)]
    simp only [List.all_cons, List.all_nil, Bool.and_true, admits_ge]
    exact ⟨fun hle => ⟨u, hu, hle⟩, fun ⟨u', hu', hle⟩ => Option.some_inj.mp (hu.symm.trans hu') ▸ hle⟩
  | greaterEqual =>
    obtain rfl := Option.some_inj.mp h
    rw [or_iff_left (fun h => by simp [Reaches] at h)]
    simp only [List.all_cons, List.all_nil, Bool.and_true]
  | less =>
    obtain rfl := Option.some_inj.mp h
    rw [or_iff_left (fun h => by simp [Reaches] at h)]
    simp only [List.all_cons, List.all_nil, Bool.and_true]
  | lessEqual =>
    obtain rfl := Option.some_inj.mp h
    rw [← all_admits_ending hu (Or.inr (Or.inr rfl)) hP]
    simp only [List.all_cons, List.all_nil, Bool.and_true, admits_less_full, true_or, true_and]
  | caret =>
    obtain ⟨upper, hupper, h⟩ := Option.bind_eq_some_iff.mp h
    obtain rfl := Option.some_inj.mp h
    rw [or_iff_left (fun h => by simp [Reaches] at h)]
    simp only [List.all_cons, List.all_nil, Bool.and_true, Bool.and_eq_true, admits_ge, admits_less_full]
    simp [RequirementComparator.admits, hupper]
  | tilde =>
    obtain rfl := Option.some_inj.mp h
    rw [← all_admits_ending hu (Or.inr (Or.inl rfl)) hP]
    simp only [List.all_cons, List.all_nil, Bool.and_true, Bool.and_eq_true, admits_ge, admits_less_full,
      reduceCtorEq, false_or]
  | exact =>
    obtain rfl := Option.some_inj.mp h
    rw [← all_admits_ending hu (Or.inl rfl) hP]
    simp only [List.all_cons, List.all_nil, Bool.and_true, Bool.and_eq_true, admits_ge, admits_less_full,
      reduceCtorEq, false_or]

/-- The bare version admits none of these prereleases. -/
theorem Reaches.not_admits {op : RequirementOperator} {P : Base} {v : PackageVersion} (h : Reaches op P v)
    (hP : P.toBase.precision ≠ .full) : ¬ (RequirementComparator.mk op P.toBase).admits v = true := by
  obtain ⟨hop, _, u, hu, hsame⟩ := h
  rw [admits_bare hop hP]
  exact fun hbare => not_test_of_sameRelease hu hsame hbare.2

/-- Neither spelling opens a prerelease. -/
theorem opens_bare (op : RequirementOperator) {P : Base} (hP : P.toBase.precision ≠ .full) (v : PackageVersion) :
    (RequirementComparator.mk op P.toBase).opensPrerelease v = false := by
  cases P with
  | full b => exact absurd rfl hP
  | major M => rfl
  | minor M m => rfl

theorem any_opens_wildcardComparators {op : RequirementOperator} {P : Base}
    {l : List RequirementComparator} (hP : P.toBase.precision ≠ .full)
    (h : wildcardComparators op P.toBase = some l) (v : PackageVersion) :
    (l.any fun c => c.opensPrerelease v) = false := by
  obtain ⟨u, hu, h⟩ := Option.bind_eq_some_iff.mp h
  have hstable : ∀ (op : RequirementOperator) {u : PackageVersion}, u.pre = [] →
      (RequirementComparator.mk op ⟨u, .full⟩).opensPrerelease v = false := by
    intro op u hu
    simp [RequirementComparator.opensPrerelease, PackageVersion.isPrerelease, hu]
  have hupper := fun op => hstable op (upper_pre (P := P) hu)
  have hlower := fun op => opens_bare op hP v
  cases op with
  | caret =>
    obtain ⟨upper, hcaret, h⟩ := Option.bind_eq_some_iff.mp h
    obtain rfl := Option.some_inj.mp h
    simp [hlower, hstable _ (caretUpperBound_pre hcaret)]
  | _ =>
    obtain rfl := Option.some_inj.mp h
    simp [hlower, hupper]

/-- A wildcard is refused exactly when a bound does not fit. -/
theorem isSome_wildcardComparators (op : RequirementOperator) (P : Base) :
    (wildcardComparators op P.toBase).isSome = true ↔ Bounded op P := by
  rw [Bounded, wildcardComparators, ← Base.upper]
  cases P.upper with
  | none => simp
  | some u =>
    cases op with
    | caret => cases caretUpperBound P.toBase <;> simp
    | _ => simp

/-! ### Reading the two spellings -/

theorem isValue_of_spellsBare {P : Base} {p : List Char} (hp : P.SpellsBare p) (rest : List Char) :
    IsValue (p ++ rest) := by
  obtain ⟨lead, tail, rfl, ⟨c, cs, rfl, hc⟩, _, _⟩ := hp.shape
  exact ⟨c, _, rfl, Or.inl hc⟩

theorem readComparator_bare {op : RequirementOperator} {o p : List Char} {P : Base} (ho : o ∈ operatorTexts op)
    (hp : P.SpellsBare p) : readComparator op o p = some [⟨op, P.toBase⟩] := by
  have hx := @parseXRange_attached _ _ _ _ [] ho (Or.inl hp) (by simp)
  rw [List.append_nil] at hx
  rw [readComparator, hx, parseRequirementBase_spells (Or.inl hp)]
  rfl

theorem not_isWildcardPart_of_isNumeral {part : List Char} (h : isNumeral part = true) :
    isWildcardPart part = false := by
  by_contra hne
  rcases isWildcardPart_eq (Bool.not_eq_false _ ▸ hne) with heq | heq | heq <;>
    (rw [heq] at h; exact absurd h (by decide))

/-- Parts of a wildcard spelling: those of the partial version, then the wildcard. -/
structure WildcardParts (P : Base) (p : List Char) (x : Char) (parts : List (List Char)) : Prop where
  numerals : parts.all isNumeral = true
  ne_nil : parts ≠ []
  length_le : parts.length ≤ 2
  join : ['.'].intercalate parts = p
  split : (p ++ ['.', x]).splitOn '.' = parts ++ [[x]]

theorem exists_wildcardParts {P : Base} {p : List Char} {x : Char} (hp : P.SpellsBare p)
    (hP : P.toBase.precision ≠ .full) (hx : isWildcardPart [x] = true) : ∃ parts, WildcardParts P p x parts := by
  have hdot : '.' ∉ [x] := by
    rcases isWildcardPart_eq hx with h | h | h <;> (rw [h]; decide)
  cases P with
  | full b => exact absurd rfl hP
  | major M =>
    obtain rfl : p = numeral M := hp
    refine ⟨[numeral M], by simp [isNumeral_numeral], by simp, by simp, by simp [List.intercalate], ?_⟩
    have hjoin : numeral M ++ ['.', x] = ['.'].intercalate [numeral M, [x]] := by simp [List.intercalate]
    rw [hjoin]
    refine splitOn_join (fun part hpart => ?_) (by simp)
    simp only [List.mem_cons, List.not_mem_nil, or_false] at hpart
    rcases hpart with rfl | rfl
    · exact dot_not_mem_numeral _
    · exact hdot
  | minor M m =>
    obtain rfl : p = numeral M ++ '.' :: numeral m := hp
    refine ⟨[numeral M, numeral m], by simp [isNumeral_numeral], by simp, by simp,
      by simp [List.intercalate], ?_⟩
    have hjoin : numeral M ++ '.' :: numeral m ++ ['.', x] =
        ['.'].intercalate [numeral M, numeral m, [x]] := by simp [List.intercalate]
    rw [hjoin]
    refine splitOn_join (fun part hpart => ?_) (by simp)
    simp only [List.mem_cons, List.not_mem_nil, or_false] at hpart
    rcases hpart with rfl | rfl | rfl
    · exact dot_not_mem_numeral _
    · exact dot_not_mem_numeral _
    · exact hdot

/-- Only dots, digits and wildcards are written. -/
theorem WildcardParts.not_mem {P : Base} {p : List Char} {x c : Char} {parts : List (List Char)}
    (h : WildcardParts P p x parts) (hx : isWildcardPart [x] = true) (hc : isVersionChar c = false)
    (hc' : isWildcardPart [c] = false) : c ∉ p ++ ['.', x] := by
  intro hmem
  have hdot : c ≠ '.' := by
    rintro rfl
    exact absurd hc (by decide)
  rcases List.mem_append.mp hmem with hmem | hmem
  · rw [← h.join] at hmem
    rcases mem_intercalate hmem with heq | ⟨part, hpart, hmem⟩
    · exact hdot heq
    · have hdigit := isDigit_of_isNumeral (List.all_eq_true.mp h.numerals part hpart) hmem
      simp [isVersionChar, hdigit] at hc
  · simp only [List.mem_cons, List.not_mem_nil, or_false] at hmem
    rcases hmem with heq | rfl
    · exact hdot heq
    · rw [hx] at hc'
      exact absurd hc' (by decide)

theorem parseXRange_wildcard {op : RequirementOperator} {o p : List Char} {P : Base} {x : Char}
    (ho : o ∈ operatorTexts op) (hp : P.SpellsBare p) (hP : P.toBase.precision ≠ .full)
    (hx : isWildcardPart [x] = true) : parseXRange (o ++ (p ++ ['.', x])) = wildcardComparators op P.toBase := by
  obtain ⟨parts, h⟩ := exists_wildcardParts hp hP hx
  have hbuild : dropBuild (p ++ ['.', x]) = some (p ++ ['.', x]) := by
    rw [dropBuild, splitOnce_eq_none (h.not_mem hx (by decide) (by decide))]
  have hfind : (parts ++ [[x]]).findIdx? isWildcardPart = some parts.length := by
    have hnone : parts.findIdx? isWildcardPart = none := by
      refine List.findIdx?_eq_none_iff.mpr fun part hpart => ?_
      exact not_isWildcardPart_of_isNumeral (List.all_eq_true.mp h.numerals part hpart)
    rw [List.findIdx?_append, hnone]
    simp [List.findIdx?_cons, hx]
  have hlength : parts.length ≠ 0 := fun hzero => h.ne_nil (List.length_eq_zero_iff.mp hzero)
  simp only [parseXRange, requirementToken_value ho (isValue_of_spellsBare hp _), Base.stripV_bare hp, hbuild,
    h.split, hfind, Option.bind_eq_bind, Option.bind_some, List.drop_left, List.take_left, h.numerals,
    List.all_cons, List.all_nil, hx, Bool.and_true, guard, if_true, if_neg hlength, h.join]
  rw [parseRequirementBase_spells (Or.inl hp)]
  rfl

/-- A wildcard spelling is no version. -/
theorem parseRequirementBase_wildcard (op : RequirementOperator) {p : List Char} {P : Base} {x : Char}
    (hp : P.SpellsBare p) (hP : P.toBase.precision ≠ .full) (hx : isWildcardPart [x] = true) :
    parseRequirementBase op (p ++ ['.', x]) = none := by
  obtain ⟨parts, h⟩ := exists_wildcardParts hp hP hx
  have hnumeral : isNumeral [x] = false := by
    by_contra hne
    have hwild := not_isWildcardPart_of_isNumeral (Bool.not_eq_false _ ▸ hne)
    rw [hx] at hwild
    exact absurd hwild (by decide)
  have hsplit := h.split
  -- one or two numerals come before the wildcard
  have hparts : (∃ a, parts = [a]) ∨ ∃ a b, parts = [a, b] := by
    have hlength := h.length_le
    match parts, h.ne_nil with
    | [a], _ => exact Or.inl ⟨a, rfl⟩
    | [a, b], _ => exact Or.inr ⟨a, b, rfl⟩
    | _ :: _ :: _ :: _, _ => simp at hlength
  have hcore : parseCore (p ++ ['.', x]) = none := by
    rw [parseCore, hsplit]
    rcases hparts with ⟨a, rfl⟩ | ⟨a, b, rfl⟩
    · rfl
    · simp [parseU64, hnumeral, parseNat]
  have hsemver : semverParse (p ++ ['.', x]) = none := by
    have hplus : '+' ∉ p ++ ['.', x] := h.not_mem hx (by decide) (by decide)
    have hminus : '-' ∉ p ++ ['.', x] := h.not_mem hx (by decide) (by decide)
    rw [semverParse, splitOptional_of_not_mem hplus]
    simp only [splitOptional_of_not_mem hminus, hcore, Option.bind_eq_bind, Option.bind_none]
  rw [parseRequirementBase, Base.stripV_bare hp]
  rcases hparts with ⟨a, rfl⟩ | ⟨a, b, rfl⟩
  · simp [hsemver, hsplit, hnumeral, guard]
  · simp [hsemver, hsplit]

theorem readComparator_wildcard {op : RequirementOperator} {o p : List Char} {P : Base} {x : Char}
    (ho : o ∈ operatorTexts op) (hp : P.SpellsBare p) (hP : P.toBase.precision ≠ .full)
    (hx : isWildcardPart [x] = true) :
    readComparator op o (p ++ ['.', x]) = wildcardComparators op P.toBase := by
  rw [readComparator, parseXRange_wildcard ho hp hP hx, parseRequirementBase_wildcard op hp hP hx]
  cases wildcardComparators op P.toBase <;> rfl

/-! ### Requirements -/

/-- The versions an accepted requirement text matches. -/
def accepted (s : String) : Option (PackageVersion → Bool) :=
  (Requirement.fromStr s).toOption.map Requirement.matchesVersion

/-- A text, no alias, with other alternatives around one that has these words. -/
structure Around (before after words : List (List Char)) (s : String) : Prop where
  noAlias : stripPrefix "npm:".toList (trim s.toList) = none
  parts : ∃ part, splitDouble '|' (trim s.toList) = before ++ part :: after ∧ splitWhitespace part = words

/-- A dist-tag is one word that begins with a letter. -/
theorem splitWhitespace_of_isTagText {raw : List Char} (h : Requirement.isTagText raw = true) :
    splitDouble '|' raw = [raw] ∧ splitWhitespace raw = [raw] ∧ ∃ c ∈ raw.head?, c.isAlpha = true := by
  simp only [Requirement.isTagText, Bool.and_eq_true, List.all_eq_true] at h
  obtain ⟨⟨⟨⟨_, halpha⟩, hchars⟩, _⟩, _⟩ := h
  have hplain : ∀ d ∈ raw, d ≠ '|' ∧ isWhitespace d = false := by
    intro d hd
    have hd := hchars d hd
    have hlt : d.toNat < 128 := by
      simp only [Bool.or_eq_true, beq_iff_eq] at hd
      rcases hd with ((hd | rfl) | rfl) | rfl
      · exact toNat_lt_of_isAsciiAlphanumeric hd
      · decide
      · decide
      · decide
    exact of_ascii (P := fun d => (isAsciiAlphanumeric d || d == '-' || d == '_' || d == '.') = true →
      d ≠ '|' ∧ isWhitespace d = false) (by decide) hlt hd
  obtain ⟨c, hc, halpha⟩ := (Option.any_eq_true _ _).mp halpha
  have hne : raw ≠ [] := by
    rintro rfl
    exact absurd hc (by simp)
  exact ⟨splitDouble_eq_singleton fun hmem => (hplain _ hmem).1 rfl,
    splitWhitespace_eq_singleton hne fun d hd => (hplain d hd).2, c, hc, halpha⟩

/-- A text that is no tag is read alternative by alternative. -/
theorem accepted_eq {s : String} (halias : stripPrefix "npm:".toList (trim s.toList) = none)
    (hne : trim s.toList ≠ []) (htag : Requirement.isTagText (trim s.toList) = false) :
    accepted s = ((splitDouble '|' (trim s.toList)).mapM parseClause).map fun ks v =>
      ks.any fun k => k.admits v := by
  have hread : Requirement.fromStr s = Requirement.parseRange (trim s.toList) := by
    simp only [Requirement.fromStr, halias]
  rw [accepted, hread, Requirement.parseRange, if_neg hne, if_neg (by simp [htag])]
  cases (splitDouble '|' (trim s.toList)).mapM parseClause <;> rfl

/-- What the comparators of one alternative, between others, match. -/
def union (as : List RequirementClause) (l : List RequirementComparator) (bs : List RequirementClause)
    (v : PackageVersion) : Bool :=
  as.any (fun k => k.admits v) || RequirementClause.admits v (.comparators l) || bs.any fun k => k.admits v

/-- **A text is read as its other alternatives and the words of this one.** -/
theorem Around.accepted_eq {before after words : List (List Char)} {s : String}
    (h : Around before after words s) (hwords : Comparators words) (hne : words ≠ [])
    (htag : Requirement.isTagText (trim s.toList) = false) :
    accepted s = (before.mapM parseClause).bind fun as => (parseTokens words).bind fun l =>
      (after.mapM parseClause).map fun bs => union as l bs := by
  obtain ⟨part, hsplit, rfl⟩ := h.parts
  have hraw : trim s.toList ≠ [] := by
    intro hnil
    rw [hnil] at hsplit
    have hpart : part ∈ ([[]] : List (List Char)) := by
      rw [show [[]] = splitDouble '|' [] from rfl, hsplit]
      simp
    obtain rfl := List.mem_singleton.mp hpart
    exact hne rfl
  rw [NodeRange.accepted_eq h.noAlias hraw htag, hsplit, List.mapM_append, List.mapM_cons]
  have hread := parseClause_readAs hwords hne
  rw [ReadAs] at hread
  cases before.mapM parseClause with
  | none => rfl
  | some as =>
    cases hk : parseClause part with
    | none =>
      rw [hk] at hread
      rw [Option.map_eq_none_iff.mp hread.symm]
      rfl
    | some k =>
      rw [hk] at hread
      obtain ⟨l, hl, hadmits⟩ := Option.map_eq_some_iff.mp hread.symm
      rw [hl]
      cases after.mapM parseClause with
      | none => rfl
      | some bs =>
        refine congrArg some (funext fun v => ?_)
        have hv := congrFun hadmits v
        simp only at hv
        simp [union, hv, Bool.or_assoc]

/-- Words of the comparator in focus, between those of other comparators. -/
def focusWords (pre : List (List Char)) (apart : Bool) (o w : List Char) (post : List (List Char)) :
    List (List Char) :=
  pre ++ (operatorWords apart o w ++ post)

section Focus

variable {before after pre post : List (List Char)} {apart : Bool} {op : RequirementOperator}
  {o w : List Char} {s : String}

/-- The comparator in focus is one of others. -/
theorem comparators_focusWords (hpre : Comparators pre) (hpost : Comparators post) (ho : o ∈ operatorTexts op)
    (hw : IsValue w) : Comparators (focusWords pre apart o w post) :=
  hpre.append (.cons ho hw hpost)

theorem focusWords_ne_nil : focusWords pre apart o w post ≠ [] := by
  cases apart <;> simp [focusWords, operatorWords]

/-- Its value begins with a digit, so the text is no tag. -/
theorem isTagText_of_around (h : Around before after (focusWords pre apart o w post) s)
    (ho : o ∈ operatorTexts op) (hw : ∃ c cs, w = c :: cs ∧ c.isDigit = true) :
    Requirement.isTagText (trim s.toList) = false := by
  by_contra htag
  obtain ⟨hsplit, hone, c, hc, halpha⟩ := splitWhitespace_of_isTagText (Bool.not_eq_false _ ▸ htag)
  obtain ⟨part, hparts, hwords⟩ := h.parts
  rw [hsplit] at hparts
  have hpart : part ∈ [trim s.toList] := by
    rw [hparts]
    simp
  rw [List.mem_singleton.mp hpart, hone] at hwords
  -- one word only: the comparator in focus, with its operator attached
  have hraw : trim s.toList = o ++ w := by
    have hlength := congrArg List.length hwords
    cases apart with
    | true =>
      simp only [focusWords, operatorWords, if_true, List.length_append, List.length_cons, List.length_nil]
        at hlength
      omega
    | false =>
      simp only [focusWords, operatorWords, Bool.false_eq_true, if_false, List.length_append,
        List.length_cons, List.length_nil] at hlength
      have hpre : pre = [] := List.length_eq_zero_iff.mp (by omega)
      have hpost : post = [] := List.length_eq_zero_iff.mp (by omega)
      rw [hpre, hpost] at hwords
      exact List.singleton_inj.mp hwords
  rw [hraw] at hc
  obtain ⟨d, ds, rfl, hd⟩ := hw
  rcases head_of_operatorTexts ho with rfl | ⟨e, es, rfl, he⟩
  · obtain rfl : d = c := Option.some_inj.mp hc
    have hnot := of_ascii (P := fun d => d.isDigit = true → d.isAlpha = false) (by decide)
      (toNat_lt_of_isAsciiAlphanumeric (by simp [isAsciiAlphanumeric, hd])) hd
    rw [hnot] at halpha
    exact absurd halpha (by decide)
  · obtain rfl : e = c := Option.some_inj.mp hc
    rcases isOperatorChar_cases he with rfl | rfl | rfl | rfl | rfl <;> exact absurd halpha (by decide)

/-- **The text, read comparator by comparator.** -/
theorem accepted_around (h : Around before after (focusWords pre apart o w post) s) (hpre : Comparators pre)
    (hpost : Comparators post) (ho : o ∈ operatorTexts op) (hw : ∃ c cs, w = c :: cs ∧ c.isDigit = true) :
    accepted s = (before.mapM parseClause).bind fun as => (parseTokens pre).bind fun l₁ =>
      (readWords apart op o w).bind fun l => (parseTokens post).bind fun l₂ =>
        (after.mapM parseClause).map fun bs => union as (l₁ ++ (l ++ l₂)) bs := by
  have hvalue : IsValue w := by
    obtain ⟨c, cs, hw, hc⟩ := hw
    exact ⟨c, cs, hw, Or.inl hc⟩
  have hne : ∀ word ∈ focusWords pre apart o w post, word ≠ [] := by
    obtain ⟨part, _, hwords⟩ := h.parts
    intro word hword
    rw [← hwords] at hword
    exact ne_nil_of_mem_splitWhitespaceGo hword
  have htokens : parseTokens (focusWords pre apart o w post) = (parseTokens pre).bind fun l₁ =>
      (readWords apart op o w).bind fun l => (parseTokens post).map fun l₂ => l₁ ++ (l ++ l₂) := by
    rw [focusWords, hpre.parseTokens_append fun word hword => hne word (List.mem_append_left _ hword),
      parseTokens_operatorWords ho hvalue fun word hword =>
        hne word (List.mem_append_right _ (List.mem_append_left _ hword))]
    cases parseTokens pre with
    | none => rfl
    | some l₁ =>
      cases readWords apart op o w with
      | none => rfl
      | some l => cases parseTokens post <;> rfl
  rw [h.accepted_eq (comparators_focusWords hpre hpost ho hvalue) focusWords_ne_nil
    (isTagText_of_around h ho hw), htokens]
  cases before.mapM parseClause with
  | none => rfl
  | some as =>
    cases parseTokens pre with
    | none => rfl
    | some l₁ =>
      cases readWords apart op o w with
      | none => rfl
      | some l => cases parseTokens post <;> rfl

end Focus

/-! ### Agreement -/

/-- Comparators that open no prerelease only narrow those around them. -/
theorem admits_insert {l : List RequirementComparator} {v : PackageVersion}
    (h : (l.any fun c => c.opensPrerelease v) = false) (l₁ l₂ : List RequirementComparator) :
    RequirementClause.admits v (.comparators (l₁ ++ (l ++ l₂))) = true ↔
      RequirementClause.admits v (.comparators (l₁ ++ l₂)) = true ∧ (l.all fun c => c.admits v) = true := by
  have hopens : ((l₁ ++ (l ++ l₂)).any fun c => c.opensPrerelease v) =
      (l₁ ++ l₂).any fun c => c.opensPrerelease v := by
    rw [List.any_append, List.any_append, h, Bool.false_or, List.any_append]
  simp only [RequirementClause.admits, hopens, List.all_append, Bool.and_eq_true]
  tauto

theorem union_eq_true {as bs : List RequirementClause} {l : List RequirementComparator} {v : PackageVersion} :
    union as l bs v = true ↔ (∃ k ∈ as ++ bs, k.admits v = true) ∨
      RequirementClause.admits v (.comparators l) = true := by
  simp only [union, Bool.or_eq_true, List.any_eq_true, List.mem_append, or_and_right, exists_or]
  exact or_right_comm

/-- Where both spellings are accepted or refused together and match the same
versions: the rest of the text is refused, a caret stands alone, or the bounds
fit and the rest of the alternative admits no prerelease of the upper bound
that no other alternative admits. -/
def SpellingsAgree (before after pre post : List (List Char)) (apart : Bool) (op : RequirementOperator)
    (P : Base) : Prop :=
  ∀ as l₁ l₂ bs, before.mapM parseClause = some as → parseTokens pre = some l₁ →
    parseTokens post = some l₂ → after.mapM parseClause = some bs → ¬ (apart = true ∧ op = .caret) →
    Bounded op P ∧ ∀ v, Reaches op P v → RequirementClause.admits v (.comparators (l₁ ++ l₂)) = true →
      ∃ k ∈ as ++ bs, k.admits v = true

section Spelling

variable {before after pre post : List (List Char)} {apart : Bool} {op : RequirementOperator} {P : Base}
  {o p : List Char} {x : Char} {s s' : String}

/-- Both spellings in one surrounding that is accepted. -/
theorem union_wildcard_eq_iff (hP : P.toBase.precision ≠ .full) {l l₁ l₂ : List RequirementComparator}
    (as bs : List RequirementClause) (hl : wildcardComparators op P.toBase = some l) :
    union as (l₁ ++ (l ++ l₂)) bs = union as (l₁ ++ ([⟨op, P.toBase⟩] ++ l₂)) bs ↔
      ∀ v, Reaches op P v → RequirementClause.admits v (.comparators (l₁ ++ l₂)) = true →
        ∃ k ∈ as ++ bs, k.admits v = true := by
  have hwild : ∀ v, union as (l₁ ++ (l ++ l₂)) bs v = true ↔ (∃ k ∈ as ++ bs, k.admits v = true) ∨
      RequirementClause.admits v (.comparators (l₁ ++ l₂)) = true ∧
        ((RequirementComparator.mk op P.toBase).admits v = true ∨ Reaches op P v) := fun v => by
    rw [union_eq_true, admits_insert (any_opens_wildcardComparators hP hl v),
      all_admits_wildcardComparators hP hl]
  have hbare : ∀ v, union as (l₁ ++ ([⟨op, P.toBase⟩] ++ l₂)) bs v = true ↔
      (∃ k ∈ as ++ bs, k.admits v = true) ∨ RequirementClause.admits v (.comparators (l₁ ++ l₂)) = true ∧
        (RequirementComparator.mk op P.toBase).admits v = true := fun v => by
    rw [union_eq_true, admits_insert (by simp [opens_bare op hP v])]
    simp
  constructor
  · intro heq v hreach hrest
    have hv : union as (l₁ ++ ([⟨op, P.toBase⟩] ++ l₂)) bs v = true := by
      rw [← heq]
      exact (hwild v).mpr (Or.inr ⟨hrest, Or.inr hreach⟩)
    rcases (hbare v).mp hv with hother | ⟨_, hadmits⟩
    · exact hother
    · exact absurd hadmits (hreach.not_admits hP)
  · intro hall
    refine funext fun v => ?_
    rw [Bool.eq_iff_iff, hwild, hbare]
    refine ⟨fun h => ?_, fun h => h.imp_right fun h => ⟨h.1, Or.inl h.2⟩⟩
    rcases h with hother | ⟨hrest, hadmits | hreach⟩
    · exact Or.inl hother
    · exact Or.inr ⟨hrest, hadmits⟩
    · exact Or.inl (hall v hreach hrest)

/-- **Exactly when a wildcard spelling means what the bare partial version
means.** -/
theorem wildcard_spelling_iff (hP : P.toBase.precision ≠ .full) (hp : P.SpellsBare p)
    (hx : isWildcardPart [x] = true) (ho : o ∈ operatorTexts op) (hpre : Comparators pre)
    (hpost : Comparators post) (hs : Around before after (focusWords pre apart o (p ++ ['.', x]) post) s)
    (hs' : Around before after (focusWords pre apart o p post) s') :
    accepted s = accepted s' ↔ SpellingsAgree before after pre post apart op P := by
  obtain ⟨lead, tail, hshape, ⟨c, cs, hlead, hc⟩, _, _⟩ := hp.shape
  have hdigit : ∀ rest, ∃ c cs, p ++ rest = c :: cs ∧ c.isDigit = true := fun rest =>
    ⟨c, cs ++ tail ++ rest, by rw [hshape, hlead]; simp, hc⟩
  have hdigit' : ∃ c cs, p = c :: cs ∧ c.isDigit = true := ⟨c, cs ++ tail, by rw [hshape, hlead]; rfl, hc⟩
  rw [accepted_around hs hpre hpost ho (hdigit _), accepted_around hs' hpre hpost ho hdigit', readWords,
    readWords, readComparator_bare ho hp, readComparator_wildcard ho hp hP hx]
  -- a refused surrounding refuses both spellings
  cases hbefore : before.mapM parseClause with
  | none => exact ⟨fun _ _ _ _ _ h => by (rw [hbefore] at h; cases h), fun _ => rfl⟩
  | some as =>
  cases hl₁ : parseTokens pre with
  | none => exact ⟨fun _ _ _ _ _ _ h => by (rw [hl₁] at h; cases h), fun _ => rfl⟩
  | some l₁ =>
  by_cases hcaret : apart = true ∧ op = .caret
  · rw [if_pos hcaret, if_pos hcaret]
    exact ⟨fun _ _ _ _ _ _ _ _ _ h => absurd hcaret h, fun _ => rfl⟩
  rw [if_neg hcaret, if_neg hcaret]
  cases hl₂ : parseTokens post with
  | none =>
    refine ⟨fun _ _ _ _ _ _ _ h => by (rw [hl₂] at h; cases h), fun _ => ?_⟩
    cases wildcardComparators op P.toBase <;> rfl
  | some l₂ =>
  cases hafter : after.mapM parseClause with
  | none =>
    refine ⟨fun _ _ _ _ _ _ _ _ h => by (rw [hafter] at h; cases h), fun _ => ?_⟩
    cases wildcardComparators op P.toBase <;> rfl
  | some bs =>
  have hagree : SpellingsAgree before after pre post apart op P ↔ Bounded op P ∧
      ∀ v, Reaches op P v → RequirementClause.admits v (.comparators (l₁ ++ l₂)) = true →
        ∃ k ∈ as ++ bs, k.admits v = true := by
    refine ⟨fun h => h as l₁ l₂ bs hbefore hl₁ hl₂ hafter hcaret, ?_⟩
    intro h as' l₁' l₂' bs' h1 h2 h3 h4 _
    obtain rfl := Option.some_inj.mp (hbefore.symm.trans h1)
    obtain rfl := Option.some_inj.mp (hl₁.symm.trans h2)
    obtain rfl := Option.some_inj.mp (hl₂.symm.trans h3)
    obtain rfl := Option.some_inj.mp (hafter.symm.trans h4)
    exact h
  rw [hagree, ← isSome_wildcardComparators]
  cases hl : wildcardComparators op P.toBase with
  | none => simp
  | some l =>
    rw [← union_wildcard_eq_iff hP as bs hl]
    simp

end Spelling

section Sample

def sampleBound : List Char := ['2', '.', '0', '.', '0', '-', 'a', 'l', 'p', 'h', 'a']

theorem comparators_sampleBound : Comparators [['>', '='] ++ sampleBound] := by
  have hvalue : IsValue sampleBound := ⟨'2', _, rfl, Or.inl (by decide)⟩
  have hop : ['>', '='] ∈ operatorTexts .greaterEqual := by decide
  exact @Comparators.cons _ _ _ false _ hop hvalue .nil

theorem wildcard_spelling_iff_sample :
    accepted "1.x >=2.0.0-alpha" = accepted "1 >=2.0.0-alpha" ↔
      SpellingsAgree [] [] [] [['>', '='] ++ sampleBound] false .exact (.major 1) := by
  have hnone : ([] : List Char) ∈ operatorTexts .exact := by decide
  have hwild : Around [] [] (focusWords [] false [] (['1'] ++ ['.', 'x']) [['>', '='] ++ sampleBound])
      "1.x >=2.0.0-alpha" := ⟨by decide, _, rfl, by decide⟩
  have hbare : Around [] [] (focusWords [] false [] ['1'] [['>', '='] ++ sampleBound])
      "1 >=2.0.0-alpha" := ⟨by decide, _, rfl, by decide⟩
  have hone : Base.SpellsBare (.major 1) ['1'] := show ['1'] = numeral 1 by decide
  exact wildcard_spelling_iff (by decide) hone (by decide) hnone .nil comparators_sampleBound hwild hbare

/-- `1.x` admits a prerelease of `2.0.0` that `1` does not, and a wildcard at the
largest component is refused. -/
theorem wildcard_spelling_differs :
    (∃ r r', Requirement.fromStr "1.x >=2.0.0-alpha" = .ok r ∧ Requirement.fromStr "1 >=2.0.0-alpha" = .ok r' ∧
      r.matchesVersion alphaVersion = true ∧ r'.matchesVersion alphaVersion = false) ∧
    ∃ r, Requirement.fromStr "18446744073709551615.x" =
        .error (.unsupportedRange "18446744073709551615.x") ∧
      Requirement.fromStr "18446744073709551615" = .ok r := by
  refine ⟨⟨_, _, rfl, rfl, by decide, by decide⟩, _, by decide +kernel, rfl⟩

end Sample

end NodeRange

end Tapid
