/-
Version requirements: npm ranges, dist-tags and `npm:` aliases.

A requirement is a union of clauses and a clause an intersection of
comparators.  Parsing follows the tokens of each clause from left to right;
wildcard ranges are turned into comparators as they are read.

* `RequirementComparator.admits`, `RequirementClause.admits`, `Requirement.matchesVersion` —
  which versions satisfy a requirement;
* `Requirement.fromStr` — parsing.
-/
import Tapid.Core

namespace Tapid

open Text Fallible

/-! ### Representation -/

/-- Comparison operators; no operator means `exact`. -/
inductive RequirementOperator where
  | exact
  | caret
  | tilde
  | greater
  | greaterEqual
  | less
  | lessEqual
  deriving DecidableEq

namespace RequirementOperator

/-- Position in the declaration, which is the derived order. -/
def rank : RequirementOperator → Nat
  | exact => 0
  | caret => 1
  | tilde => 2
  | greater => 3
  | greaterEqual => 4
  | less => 5
  | lessEqual => 6

theorem rank_injective : Function.Injective rank := by
  intro a b h
  cases a <;> cases b <;> first | rfl | exact absurd h (by decide)

instance : LinearOrder RequirementOperator := LinearOrder.lift' rank rank_injective

end RequirementOperator

/-- How many components a requirement spells out. -/
inductive RequirementPrecision where
  | full
  | major
  | minor
  deriving DecidableEq

namespace RequirementPrecision

def rank : RequirementPrecision → Nat
  | full => 0
  | major => 1
  | minor => 2

theorem rank_injective : Function.Injective rank := by
  intro a b h
  cases a <;> cases b <;> first | rfl | exact absurd h (by decide)

instance : LinearOrder RequirementPrecision := LinearOrder.lift' rank rank_injective

end RequirementPrecision

/-- The version of a comparator; missing components are zero. -/
structure RequirementBase where
  version : PackageVersion
  precision : RequirementPrecision
  deriving DecidableEq

namespace RequirementBase

def lexKey (b : RequirementBase) : PackageVersion ×ₗ RequirementPrecision :=
  toLex (b.version, b.precision)

theorem lexKey_injective : Function.Injective lexKey := by
  rintro ⟨v, p⟩ ⟨v', p'⟩ h
  obtain ⟨rfl, rfl⟩ := Prod.mk.inj (toLex.injective h)
  rfl

instance : LinearOrder RequirementBase := LinearOrder.lift' lexKey lexKey_injective

end RequirementBase

structure RequirementComparator where
  op : RequirementOperator
  base : RequirementBase
  deriving DecidableEq

namespace RequirementComparator

def lexKey (c : RequirementComparator) : RequirementOperator ×ₗ RequirementBase :=
  toLex (c.op, c.base)

theorem lexKey_injective : Function.Injective lexKey := by
  rintro ⟨o, b⟩ ⟨o', b'⟩ h
  obtain ⟨rfl, rfl⟩ := Prod.mk.inj (toLex.injective h)
  rfl

instance : LinearOrder RequirementComparator := LinearOrder.lift' lexKey lexKey_injective

end RequirementComparator

/-- One alternative of a union. -/
inductive RequirementClause where
  | anyStable
  | comparators (cs : List RequirementComparator)
  deriving DecidableEq

namespace RequirementClause

def lexKey : RequirementClause → WithBot (List RequirementComparator)
  | anyStable => ⊥
  | comparators cs => (cs : WithBot _)

theorem lexKey_injective : Function.Injective lexKey := by
  intro a b h
  cases a <;> cases b <;> simp_all [lexKey]

instance : LinearOrder RequirementClause := LinearOrder.lift' lexKey lexKey_injective

end RequirementClause

/-- A validated range or dist-tag, optionally bound to an alias target. -/
structure Requirement where
  raw : String
  aliasName : Option PackageName
  tag : Option String
  clauses : List RequirementClause
  deriving DecidableEq

namespace Requirement

def lexKey (r : Requirement) :
    String ×ₗ WithBot PackageName ×ₗ WithBot String ×ₗ List RequirementClause :=
  toLex (r.raw, toLex (r.aliasName, toLex (r.tag, r.clauses)))

theorem lexKey_injective : Function.Injective lexKey := by
  rintro ⟨a, b, c, d⟩ ⟨a', b', c', d'⟩ h
  obtain ⟨rfl, h⟩ := Prod.mk.inj (toLex.injective h)
  obtain ⟨rfl, h⟩ := Prod.mk.inj (toLex.injective h)
  obtain ⟨rfl, rfl⟩ := Prod.mk.inj (toLex.injective h)
  rfl

instance : LinearOrder Requirement := LinearOrder.lift' lexKey lexKey_injective

end Requirement

/-! ### Matching -/

/-- First version above all versions a partial version stands for. -/
def partialUpperBound (base : PackageVersion) : RequirementPrecision → Option PackageVersion
  | .full => none
  | .major => base.major.checkedSucc.map fun major => .stable major 0 0
  | .minor =>
    (base.minor.checkedSucc.map fun minor => .stable base.major minor 0).or
      (base.major.checkedSucc.map fun major => .stable major 0 0)

/-- First stable version above a caret range. -/
def caretUpperBound (base : RequirementBase) : Option PackageVersion :=
  if base.precision = .major ∨ 0 < base.version.major then
    base.version.major.checkedSucc.map fun major => .stable major 0 0
  else if base.precision = .minor ∨ 0 < base.version.minor then
    base.version.minor.checkedSucc.map fun minor => .stable 0 minor 0
  else base.version.patch.checkedSucc.map fun patch => .stable 0 0 patch

namespace RequirementComparator

/-- Whether a caret comparator without representable bound is satisfied. -/
def admitsUnboundedCaret (base : RequirementBase) (version : PackageVersion) : Bool :=
  if base.precision = .major ∨ 0 < base.version.major then
    base.version ≤ version && version.major == base.version.major
  else if base.precision = .minor ∨ 0 < base.version.minor then
    base.version ≤ version && version.major == base.version.major &&
      version.minor == base.version.minor
  else version == base.version

/-- Whether a version satisfies one comparator. -/
def admits (c : RequirementComparator) (version : PackageVersion) : Bool :=
  let base := c.base.version
  match c.op with
  | .exact => match c.base.precision with
    | .full => version == base
    | .major => base ≤ version && version.major == base.major
    | .minor => base ≤ version && version.major == base.major && version.minor == base.minor
  | .caret => match caretUpperBound c.base with
    | some upper => base ≤ version && version < upper
    | none => admitsUnboundedCaret c.base version
  | .tilde =>
    base ≤ version && version.major == base.major &&
      (c.base.precision == .major || version.minor == base.minor)
  | .greater =>
    if c.base.precision = .full then base < version
    else (partialUpperBound base c.base.precision).any fun upper => upper ≤ version
  | .greaterEqual => base ≤ version
  | .less => match c.base.precision with
    | .full => version < base
    | .major => version.major < base.major
    | .minor => version.major < base.major || version.major == base.major && version.minor < base.minor
  | .lessEqual => match c.base.precision with
    | .full => version ≤ base
    | .major => version.major ≤ base.major
    | .minor => version.major < base.major || version.major == base.major && version.minor ≤ base.minor

/-- The comparator carries a prerelease of the same release. -/
def opensPrerelease (c : RequirementComparator) (version : PackageVersion) : Bool :=
  c.base.version.isPrerelease && version.major == c.base.version.major &&
    version.minor == c.base.version.minor && version.patch == c.base.version.patch

end RequirementComparator

/-- Whether a version satisfies one alternative. -/
def RequirementClause.admits (version : PackageVersion) : RequirementClause → Bool
  | .anyStable => !version.isPrerelease
  | .comparators cs =>
    (!version.isPrerelease || cs.any (·.opensPrerelease version)) && cs.all (·.admits version)

namespace Requirement

/-- Whether an exact version satisfies the requirement. -/
def matchesVersion (r : Requirement) (version : PackageVersion) : Bool :=
  r.clauses.any (·.admits version)

def packageName (r : Requirement) (declared : PackageName) : PackageName := r.aliasName.getD declared

def isAlias (r : Requirement) : Bool := r.aliasName.isSome

def distTag (r : Requirement) : Option String := r.tag

/-- Matches a candidate using the tags assigned to that version. -/
def matchesTaggedVersion (r : Requirement) (version : PackageVersion) (tags : OrdSet String) :
    Bool :=
  match r.distTag with
  | none => r.matchesVersion version
  | some tag => tag ∈ tags

/-- A tag is never resolved again during lock replay. -/
def matchesLockedVersion (r : Requirement) (version : PackageVersion) : Bool :=
  r.tag.isSome || r.matchesVersion version

end Requirement

/-! ### Failures -/

/-- The declaration whose requirements failed candidate selection. -/
structure RequirementOrigin where
  name : PackageName
  package : Option PackageInstanceId
  deriving DecidableEq

/-- Failures of requirement parsing and graph selection. -/
inductive ResolveError where
  | metadataLimitExceeded
  | invalidRequirement (text : String)
  | unsupportedRange (raw : String)
  | unsupportedMode (text : String)
  | registryRouting (text : String)
  | duplicateMetadata (package : String)
  | missingMetadata (packages : List (String × String))
  | missingCandidate (origin : RequirementOrigin) (registry name requirement : String)
      (available : List String)
  | conflict (origin : RequirementOrigin) (registry name : String) (requirements available : List String)
  | peerDependency (package : PackageInstanceId) (peer requirement : String)
      (provider : Option PackageInstanceId)
  deriving DecidableEq

/-! ### Parsing -/

/-- Operator prefixes in the order they are tried. -/
def operatorPrefixes : List (List Char × RequirementOperator) :=
  [(['>', '='], .greaterEqual), (['<', '='], .lessEqual), (['>'], .greater), (['<'], .less),
    (['^'], .caret), (['~'], .tilde), (['='], .exact)]

/-- Operator and value of a token. -/
def requirementToken (token : List Char) : RequirementOperator × List Char :=
  (operatorPrefixes.findSome? fun entry =>
    (stripPrefix entry.1 token).map fun value => (entry.2, value)).getD (.exact, token)

/-- A token that is an operator for the token after it. -/
def separatedOperator (token : List Char) : Option RequirementOperator :=
  if token = ['~'] then some .tilde
  else if token = ['>'] then some .greater
  else if token = ['>', '='] then some .greaterEqual
  else if token = ['<'] then some .less
  else if token = ['<', '='] then some .lessEqual
  else if token = ['='] then some .exact
  else none

/-- Drop one leading `v`. -/
def stripV (value : List Char) : List Char := (stripPrefix ['v'] value).getD value

/-- A full version without its build metadata, or one or two numerals. -/
def parseRequirementBase (_op : RequirementOperator) (value : List Char) : Option RequirementBase :=
  let value := stripV value
  match semverParse value with
  | some (version, _) =>
    -- the build metadata is dropped and the rest rendered and read again
    (PackageVersion.parse version.chars).map fun version => ⟨version, .full⟩
  | none =>
    match value.splitOn '.' with
    | [major] => do
      guard (isNumeral major)
      some ⟨.stable (← parseU64 major) 0 0, .major⟩
    | [major, minor] => do
      guard (isNumeral major && isNumeral minor)
      some ⟨.stable (← parseU64 major) (← parseU64 minor) 0, .minor⟩
    | _ => none

/-- `x`, `X` or `*`. -/
def isWildcardPart (part : List Char) : Bool :=
  toAsciiLower part == ['x'] || toAsciiLower part == ['*']

/-- The version text before valid, possibly empty, build metadata. -/
def dropBuild (value : List Char) : Option (List Char) :=
  match splitOnce '+' value with
  | some (version, build) => if build.isEmpty || isBuildMetadata build then some version else none
  | none => some value

/-- Comparators a wildcard range stands for. -/
def wildcardComparators (op : RequirementOperator) (lower : RequirementBase) :
    Option (List RequirementComparator) := do
  let partialUpper : RequirementBase := ⟨← partialUpperBound lower.version lower.precision, .full⟩
  match op with
  | .greater => some [⟨.greaterEqual, partialUpper⟩]
  | .greaterEqual => some [⟨.greaterEqual, lower⟩]
  | .less => some [⟨.less, lower⟩]
  | .lessEqual => some [⟨.less, partialUpper⟩]
  | .caret => some [⟨.greaterEqual, lower⟩, ⟨.less, ⟨← caretUpperBound lower, .full⟩⟩]
  | .tilde | .exact => some [⟨.greaterEqual, lower⟩, ⟨.less, partialUpper⟩]

/-- A range with a wildcard component; nothing when there is none. -/
def parseXRange (clause : List Char) : Option (List RequirementComparator) := do
  let (op, value) := requirementToken clause
  let version ← dropBuild (stripV value)
  let parts := version.splitOn '.'
  let wildcardAt ← parts.findIdx? isWildcardPart
  guard ((parts.drop wildcardAt).all isWildcardPart)
  guard ((parts.take wildcardAt).all isNumeral)
  if wildcardAt = 0 then
    match op with
    | .greater | .less => some [⟨.less, ⟨.stable 0 0 0, .full⟩⟩]
    | _ => some []
  else
    let lower ← parseRequirementBase .greaterEqual (['.'].intercalate (parts.take wildcardAt))
    wildcardComparators op lower

/-- A token that stands for a comparator of its own. -/
def parseToken (token : List Char) : Option (List RequirementComparator) :=
  let (op, value) := requirementToken token
  (parseRequirementBase op value).map fun base => [⟨op, base⟩]

/-- The tokens of an intersection, from left to right. -/
def parseTokens : List (List Char) → Option (List RequirementComparator)
  | [] => some []
  | [token] =>
    match parseXRange token with
    | some wildcard => some wildcard
    | none => if (separatedOperator token).isSome then none else parseToken token
  | token :: value :: rest =>
    match (separatedOperator token).bind fun _ => parseXRange (token ++ value) with
    | some wildcard => (parseTokens rest).map (wildcard ++ ·)
    | none =>
      match parseXRange token with
      | some wildcard => (parseTokens (value :: rest)).map (wildcard ++ ·)
      | none =>
        match separatedOperator token with
        | some op => do
          let base ← parseRequirementBase op value
          (parseTokens rest).map (⟨op, base⟩ :: ·)
        | none => do
          let comparator ← parseToken token
          (parseTokens (value :: rest)).map (comparator ++ ·)

/-- A hyphen range, or else an intersection. -/
def parseComparators (tokens : List (List Char)) : Option (List RequirementComparator) :=
  match tokens with
  | [lower, ['-'], upper] => do
    let lower ← parseRequirementBase .greaterEqual lower
    let upper ← parseRequirementBase .lessEqual upper
    some [⟨.greaterEqual, lower⟩, ⟨.lessEqual, upper⟩]
  | _ => parseTokens tokens

/-- One alternative of a union. -/
def parseClause (text : List Char) : Option RequirementClause :=
  let clause := trim text
  if clause = [] then none
  else if clause = ['*'] ∨ toAsciiLower clause = ['x'] then some .anyStable
  else
    match parseXRange clause with
    | some [] => some .anyStable
    | some wildcard => some (.comparators wildcard)
    | none => (parseComparators (splitWhitespace clause)).map .comparators

namespace Requirement

/-- Whether a trimmed text that is no range is a dist-tag. -/
def isTagText (raw : List Char) : Bool :=
  raw != ['x'] && raw != ['X'] && raw.head?.any Char.isAlpha &&
    raw.all (fun c => isAsciiAlphanumeric c || c == '-' || c == '_' || c == '.') &&
    (parseXRange raw).isNone && (parseRequirementBase .exact raw).isNone

/-- Parsing of a trimmed text without alias. -/
def parseRange (raw : List Char) : Except ResolveError Requirement :=
  let text := String.ofList raw
  if raw = [] then .ok ⟨text, none, none, [.anyStable]⟩
  else if isTagText raw then .ok ⟨text, none, some text, []⟩
  else
    match (splitDouble '|' raw).mapM parseClause with
    | some clauses => .ok ⟨text, none, none, clauses⟩
    | none => .error (.unsupportedRange text)

/-- Name and range of an alias; without `@` the range is `*`. -/
def splitAlias (spec : List Char) : List Char × List Char :=
  match rsplitOnce '@' spec with
  | some (name, range) => if name = [] then (spec, ['*']) else (name, range)
  | none => (spec, ['*'])

/-- `FromStr`.  The range of an alias is trimmed and is no alias itself, so it
is read by `parseRange`. -/
def fromStr (s : String) : Except ResolveError Requirement :=
  let raw := trim s.toList
  match stripPrefix "npm:".toList raw with
  | none => parseRange raw
  | some spec =>
    let unsupported := ResolveError.unsupportedRange (String.ofList raw)
    let (name, range) := splitAlias spec
    match PackageName.parse (String.ofList name) with
    | .error _ => .error unsupported
    | .ok name =>
      let range := trim range
      if range = [] ∨ startsWith "npm:".toList range then .error unsupported
      else
        match parseRange range with
        | .error _ => .error unsupported
        | .ok requirement =>
          .ok { requirement with raw := String.ofList raw, aliasName := some name }

/-- In-memory sizes of a clause and a comparator on a 64-bit target. -/
def clauseSize : Nat := 24

def comparatorSize : Nat := 56

def clauseBytes : RequirementClause → Nat
  | .anyStable => 0
  | .comparators cs =>
    cs.length * comparatorSize +
      (cs.map fun c => byteLen (PackageVersion.preChars c.base.version.pre)).sum

/-- Bytes kept for matching, however the public text is edited. -/
def retainedBytes (r : Requirement) : Nat :=
  byteLen r.raw.toList + (r.distTag.map fun tag => byteLen tag.toList).getD 0 +
    (r.aliasName.map fun name => byteLen name.text.toList).getD 0 +
    r.clauses.length * clauseSize + (r.clauses.map clauseBytes).sum

end Requirement

end Tapid
