/-
Package manifests.

A manifest is read from a JSON object, changed by the dependency operations and
written back.  Names, versions and command entries are checked and normalized
on the way in; everything else is kept as it is, fields that are not known
included.

* `PackageManifest.parse`, `PackageManifest.toJson` — reading and writing;
* `PackageManifest.Mutator` — the dependency operations;
* `PackageManifest.parseBin` — the command entries.
-/
import Tapid.NpmImport

namespace Tapid

open Text Fallible
open Npm (ManifestError)

namespace Json

mutual

/-- A document as it is kept in memory: the fields of an object are in order,
and a repeated field keeps its last value. -/
def merged : Json → Json
  | null => null
  | bool b => bool b
  | int n => int n
  | float text => float text
  | str s => str s
  | arr items => arr (mergedItems items)
  | obj fields => obj (mergedFields ∅ fields).entries

def mergedItems : List Json → List Json
  | [] => []
  | item :: items => merged item :: mergedItems items

def mergedFields (values : JsonMap) : List (String × Json) → JsonMap
  | [] => values
  | (key, value) :: fields => mergedFields (values.insert key (merged value)) fields

end

def asBool : Json → Option Bool
  | bool b => some b
  | _ => none

end Json

/-! ### Records -/

inductive DependencyKind where
  | dependencies
  | devDependencies
  | optionalDependencies
  | peerDependencies
  deriving DecidableEq

def DependencyKind.fieldName : DependencyKind → String
  | dependencies => "dependencies"
  | devDependencies => "devDependencies"
  | optionalDependencies => "optionalDependencies"
  | peerDependencies => "peerDependencies"

/-- A command and the text of the path it runs. -/
structure BinTarget where
  command : String
  target : String
  deriving DecidableEq

structure PackageBin where
  packageName : PackageName
  targets : List BinTarget
  deriving DecidableEq

/-- Commands with their paths. -/
def PackageBin.pairs (bin : PackageBin) : List (String × String) :=
  bin.targets.map fun t => (t.command, t.target)

structure PackageManifest where
  name : PackageName
  version : PackageVersion
  isPrivate : Bool
  description : Option String := none
  license : Option String := none
  dependencies : OrdMap String String := ∅
  devDependencies : OrdMap String String := ∅
  optionalDependencies : OrdMap String String := ∅
  peerDependencies : OrdMap String String := ∅
  overrides : OrdMap String String := ∅
  scripts : OrdMap String String := ∅
  bin : Option PackageBin := none
  extra : JsonMap := ∅

namespace PackageManifest

def new (name version : String) (isPrivate : Bool) : Except ManifestError PackageManifest := do
  let name ← (PackageName.parse name).mapError .invalidPackageName
  let version ← (PackageVersion.fromStr version).mapError .invalidPackageVersion
  return { name, version, isPrivate }

/-! ### Dependency operations -/

def dependencySection (m : PackageManifest) : DependencyKind → OrdMap String String
  | .dependencies => m.dependencies
  | .devDependencies => m.devDependencies
  | .optionalDependencies => m.optionalDependencies
  | .peerDependencies => m.peerDependencies

/-- Replaces a section. -/
def withSection (m : PackageManifest) (kind : DependencyKind) (declared : OrdMap String String) :
    PackageManifest :=
  match kind with
  | .dependencies => { m with dependencies := declared }
  | .devDependencies => { m with devDependencies := declared }
  | .optionalDependencies => { m with optionalDependencies := declared }
  | .peerDependencies => { m with peerDependencies := declared }

/-- Removes a declaration from every section. -/
def undeclare (m : PackageManifest) (name : String) : PackageManifest :=
  { m with
    dependencies := m.dependencies.erase name
    devDependencies := m.devDependencies.erase name
    optionalDependencies := m.optionalDependencies.erase name
    peerDependencies := m.peerDependencies.erase name }

/-- The part of a local name that names a package. -/
def validationName (name : String) : String :=
  String.ofList (((stripPrefix "npm:".toList name.toList).or (stripPrefix "jsr:".toList name.toList)).getD
    name.toList)

def setDependency (m : PackageManifest) (kind : DependencyKind) (name requirement : String) :
    Except ManifestError PackageManifest := do
  let _ ← (PackageName.parse (validationName name)).mapError ManifestError.invalidPackageName
  let cleared := m.undeclare name
  return cleared.withSection kind
    ((cleared.dependencySection kind).insert name (String.ofList (trim requirement.toList)))

def withDependency (m : PackageManifest) (name requirement : String) : Except ManifestError PackageManifest :=
  m.setDependency .dependencies name requirement

def withDependencyKind (m : PackageManifest) (kind : DependencyKind) (name requirement : String) :
    Except ManifestError PackageManifest :=
  m.setDependency kind name requirement

def updateDependencyKind (m : PackageManifest) (kind : DependencyKind) (name requirement : String) :
    Except ManifestError PackageManifest := do
  let _ ← orError ((m.dependencySection kind).get? name)
    (ManifestError.dependencyNotDeclared kind.fieldName name)
  return m.withSection kind
    ((m.dependencySection kind).insert name (String.ofList (trim requirement.toList)))

def withoutDependency (m : PackageManifest) (name : String) : Except ManifestError PackageManifest := do
  let _ ← (PackageName.parse (validationName name)).mapError ManifestError.invalidPackageName
  return m.undeclare name

/-- The dependency operations. -/
inductive Mutator where
  | withDependency (name requirement : String)
  | withDependencyKind (kind : DependencyKind) (name requirement : String)
  | updateDependencyKind (kind : DependencyKind) (name requirement : String)
  | withoutDependency (name : String)

def Mutator.run (m : PackageManifest) : Mutator → Except ManifestError PackageManifest
  | .withDependency name requirement => m.withDependency name requirement
  | .withDependencyKind kind name requirement => m.withDependencyKind kind name requirement
  | .updateDependencyKind kind name requirement => m.updateDependencyKind kind name requirement
  | .withoutDependency name => m.withoutDependency name

/-! ### Reading -/

def requiredString (object : JsonMap) (key : String) : Except ManifestError String :=
  orError ((object.get? key).bind Json.asStr) (.requiredString key)

def optionalBool (object : JsonMap) (key : String) : Except ManifestError Bool :=
  match object.get? key with
  | none => .ok false
  | some value => orError value.asBool (.expectedBoolean key)

def optionalString (object : JsonMap) (key : String) : Except ManifestError (Option String) :=
  match object.get? key with
  | none => .ok none
  | some value => (orError value.asStr (.expectedString key)).map some

/-- The part of a declared name that names a package. -/
def candidateName (name : String) : String :=
  String.ofList (((stripPrefix "jsr:".toList name.toList).or (stripPrefix "npm:".toList name.toList)).getD
    name.toList)

def checkName (validateNames : Bool) (name : String) : Except ManifestError Unit :=
  if validateNames then
    ((PackageName.parse (candidateName name)).mapError .invalidDependencyName).map fun _ => ()
  else .ok ()

def readEntry (field : String) (validateNames : Bool) (e : String × Json) :
    Except ManifestError (String × String) := do
  checkName validateNames e.1
  let version ← orError e.2.asStr (ManifestError.expectedMapValueString field e.1)
  return (e.1, version)

def parseStringMap (value : Json) (field : String) (validateNames : Bool) :
    Except ManifestError (OrdMap String String) := do
  let object ← orError value.asObject (.expectedMap field)
  let entries ← object.entries.mapM (readEntry field validateNames)
  return OrdMap.ofList entries

/-- A map field; an absent one is empty. -/
def optionalMap (object : JsonMap) (field : String) (validateNames : Bool) :
    Except ManifestError (OrdMap String String) :=
  match object.get? field with
  | none => .ok ∅
  | some value => parseStringMap value field validateNames

/-- The entry is checked as it is written; the path is kept without leading
current directories. -/
def readBinTarget (e : String × String) : Except ManifestError BinTarget := do
  rejectIf (!Npm.validCommand e.1.toList || !Npm.validTarget e.2.toList) (ManifestError.invalidBin e.1 e.2)
  return ⟨e.1, String.ofList (Npm.trimCurDir e.2.toList)⟩

def parseBin (value : Json) (name : PackageName) : Except ManifestError PackageBin := do
  let entries ← Npm.binEntries value name
  let targets ← entries.mapM readBinTarget
  return ⟨name, targets.mergeSort fun a b => a.command ≤ b.command⟩

def optionalBin (object : JsonMap) (name : PackageName) : Except ManifestError (Option PackageBin) :=
  match object.get? "bin" with
  | none => .ok none
  | some value => (parseBin value name).map some

def knownFields : List String := ["name", "version", "private", "description", "license", "dependencies",
  "devDependencies", "optionalDependencies", "peerDependencies", "overrides", "scripts", "bin"]

def ofObject (object : JsonMap) : Except ManifestError PackageManifest := do
  let name ← requiredString object "name"
  let version ← requiredString object "version"
  let isPrivate ← optionalBool object "private"
  let manifest ← new name version isPrivate
  let description ← optionalString object "description"
  let license ← optionalString object "license"
  let dependencies ← optionalMap object "dependencies" true
  let devDependencies ← optionalMap object "devDependencies" true
  let optionalDependencies ← optionalMap object "optionalDependencies" true
  let peerDependencies ← optionalMap object "peerDependencies" true
  let overrides ← optionalMap object "overrides" false
  let scripts ← optionalMap object "scripts" false
  let bin ← optionalBin object manifest.name
  return { manifest with
    description, license, dependencies, devDependencies, optionalDependencies, peerDependencies, overrides,
    scripts, bin
    extra := object.filter fun key _ => !knownFields.elem key }

section Documents

variable (codec : JsonCodec)

def parse (input : String) : Except ManifestError PackageManifest := do
  let value ← (codec.decode input).mapError .invalidJson
  let object ← orError value.merged.asObject .rootMustBeObject
  ofObject object

/-! ### Writing -/

def binValue (bin : PackageBin) : Json := Json.writeMap .str (OrdMap.ofList bin.pairs)

/-- A map that is left out when it is empty. -/
def mapValue (m : OrdMap String String) : Option Json := Json.skipIf m.isEmpty (Json.writeMap .str m)

/-- Fields in document order, `none` where skipped. -/
def fields (m : PackageManifest) : List (String × Option Json) := [
  ("name", some (.str m.name.text)),
  ("version", some (.str m.version.display)),
  ("private", some (.bool m.isPrivate)),
  ("description", m.description.map .str),
  ("license", m.license.map .str),
  ("dependencies", mapValue m.dependencies),
  ("devDependencies", mapValue m.devDependencies),
  ("optionalDependencies", mapValue m.optionalDependencies),
  ("peerDependencies", mapValue m.peerDependencies),
  ("overrides", mapValue m.overrides),
  ("scripts", mapValue m.scripts),
  ("bin", m.bin.map binValue)]

def toValue (m : PackageManifest) : Json := .obj (Json.presentFields m.fields ++ m.extra.entries)

def toJson (m : PackageManifest) : String := codec.encode m.toValue ++ "\n"

/-- The manifests the public interface can produce. -/
inductive Reachable : PackageManifest → Prop where
  | new {name version : String} {isPrivate : Bool} {m : PackageManifest}
      (h : PackageManifest.new name version isPrivate = .ok m) : Reachable m
  | parse {input : String} {m : PackageManifest} (h : PackageManifest.parse codec input = .ok m) : Reachable m
  | mutate {m m' : PackageManifest} (mutator : Mutator) (h : Reachable m) (hrun : mutator.run m = .ok m') :
      Reachable m'

end Documents

end PackageManifest

end Tapid
