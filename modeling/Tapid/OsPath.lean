/-
Paths of the operating system.

Names are bytes, and need not be text; a text names its UTF-8 bytes.

* `OsName` — names, in the order of their bytes;
* `OsPath` — absolute paths.
-/
import Tapid.Bytes
import Tapid.LockKey

namespace Tapid

/-- A name as the system has it. -/
structure OsName where
  bytes : List UInt8
  deriving DecidableEq

namespace OsName

theorem key_injective : Function.Injective fun name : OsName => name.bytes.map UInt8.toNat := by
  rintro ⟨a⟩ ⟨b⟩ h
  have heq : a = b := List.map_injective_iff.mpr (fun x y hxy => UInt8.toNat_inj.mp hxy) h
  rw [heq]

instance : LinearOrder OsName := LinearOrder.lift' (fun name => name.bytes.map UInt8.toNat) key_injective

def ofText (s : List Char) : OsName := ⟨utf8Bytes s⟩

def dot : OsName := ofText ['.']

end OsName

/-- An absolute path: its components as they were written. -/
abbrev OsPath := List OsName

/-- `Path::display`. -/
def OsPath.display (path : OsPath) : String :=
  "/" ++ "/".intercalate (path.map fun name => String.ofList (Bytes.fromUtf8Lossy name.bytes))

end Tapid
