/-
Packing and inspection agree, and what is packed can be read back.

Both loops take a file when it fits into what is left, and both count the same
size, one as a total and one as the length of what is written.  The paths come
from the tree whatever order its directories are read in.

* `packFile_eq_ok`, `inspectFile_eq_ok` — one file;
* `Accepts`, `pack_eq_ok`, `inspectSource_eq_ok` — all files;
* `decode`, `Accepts.decode` — reading back;
* `pack_inspectSource` — packing, inspecting and decoding.
-/
import Tapid.ArchiveExtract
import Tapid.PublishTree

namespace Tapid

open Fallible Bytes

namespace Publish

/-! ### One file -/

section File

variable {digestBytes : List UInt8 → String} {source : PackageSource} {total : Nat} {found : SourcePath}
  {content : List UInt8}

theorem checkArtifactSize_eq_ok {current added size : Nat} {limits : PackLimits} :
    checkArtifactSize current added limits = .ok size ↔
      size = current + added ∧ current + added ≤ limits.maxArtifactBytes.toNat := by
  have hlt : limits.maxArtifactBytes.toNat < 2 ^ 64 := limits.maxArtifactBytes.toNat_lt
  unfold checkArtifactSize
  split_ifs with h
  · refine ⟨fun heq => ⟨(Except.ok.inj heq).symm, h.2⟩, fun heq => by rw [heq.1]⟩
  · refine ⟨fun heq => ?_, fun heq => ?_⟩
    · cases heq
    · exact absurd ⟨by omega, heq.2⟩ h

/-- What is written before the content of a file. -/
def frameEnd (total : Nat) (found : SourcePath) : Nat := total + 16 + byteLength found.path

/-- What a file may have, after so much is written. -/
def maximum (source : PackageSource) (total : Nat) (found : SourcePath) : Nat :=
  min source.limits.maxFileBytes.toNat (source.limits.maxArtifactBytes.toNat - frameEnd total found)

/-- A file that is taken, after so much is written. -/
structure Fits (source : PackageSource) (total : Nat) (found : SourcePath) (content : List UInt8) : Prop where
  frame : frameEnd total found ≤ source.limits.maxArtifactBytes.toNat
  opens : (source.tree.file found.full).opens = true
  length : ∃ length, (source.tree.file found.full).length = some length ∧ length ≤ maximum source total found
  read : (source.tree.file found.full).content = some content
  size : content.length ≤ maximum source total found

/-- What is recorded of a file. -/
def manifestFile (digestBytes : List UInt8 → String) (found : SourcePath) (content : List UInt8) : ManifestFile :=
  ⟨found.path, content.length, digestBytes content⟩

/-- The size of a file's frame does not saturate where it is accepted after something else. -/
theorem checkFrame_eq_ok {size : Nat} (htotal : 0 < total) :
    checkArtifactSize total (saturatingAdd 16 (byteLength found.path)) source.limits = .ok size ↔
      size = frameEnd total found ∧ frameEnd total found ≤ source.limits.maxArtifactBytes.toNat := by
  have hlt : source.limits.maxArtifactBytes.toNat < 2 ^ 64 := source.limits.maxArtifactBytes.toNat_lt
  rw [checkArtifactSize_eq_ok, saturatingAdd, frameEnd]
  omega

theorem checkedSub_eq_ok {a b : Nat} (h : b ≤ a) : checkedSub a b = .ok (a - b) := by
  rw [checkedSub, if_neg (Nat.not_lt.mpr h)]

/-- **A file is read** when it has no more than it may have. -/
theorem readSourceFile_eq_ok {file : SourceFile} {most : Nat} {bytes read : List UInt8} (hmost : most < 2 ^ 64 - 1) :
    readSourceFile file most bytes = .ok read ↔ file.opens = true ∧
      (∃ length, file.length = some length ∧ length ≤ most) ∧
      ∃ content, file.content = some content ∧ content.length ≤ most ∧ read = bytes ++ content := by
  have htaken : saturatingAdd most 1 = most + 1 := by
    rw [saturatingAdd]
    omega
  have hshort : ∀ content : List UInt8, ¬ most < (bytes ++ content.take (most + 1)).length - bytes.length ↔
      content.length ≤ most := by
    intro content
    rw [List.length_append, List.length_take]
    omega
  unfold readSourceFile
  rw [htaken]
  constructor
  · intro h
    obtain ⟨_, hopens, h⟩ := bind_eq_ok.mp h
    obtain ⟨length, hlength, h⟩ := bind_eq_ok.mp h
    obtain ⟨_, hle, h⟩ := bind_eq_ok.mp h
    obtain ⟨content, hcontent, h⟩ := bind_eq_ok.mp h
    obtain ⟨_, hsize, h⟩ := bind_eq_ok.mp h
    rw [rejectIf_eq_ok, hshort] at hsize
    rw [rejectIf_eq_ok, Bool.not_eq_false] at hopens
    rw [rejectIf_eq_ok, Nat.not_lt] at hle
    refine ⟨hopens, ⟨length, orError_eq_ok.mp hlength, hle⟩, content, orError_eq_ok.mp hcontent, hsize, ?_⟩
    rw [← Except.ok.inj h, List.take_of_length_le (by omega)]
  · rintro ⟨hopens, ⟨length, hlength, hle⟩, content, hcontent, hsize, rfl⟩
    refine bind_eq_ok.mpr ⟨(), rejectIf_eq_ok.mpr (by rw [hopens]; decide), ?_⟩
    refine bind_eq_ok.mpr ⟨length, orError_eq_ok.mpr hlength, ?_⟩
    refine bind_eq_ok.mpr ⟨(), rejectIf_eq_ok.mpr (Nat.not_lt.mpr hle), ?_⟩
    refine bind_eq_ok.mpr ⟨content, orError_eq_ok.mpr hcontent, ?_⟩
    refine bind_eq_ok.mpr ⟨(), rejectIf_eq_ok.mpr ((hshort content).mpr hsize), ?_⟩
    rw [List.take_of_length_le (by omega)]
    rfl

/-- **Packing one file.** -/
theorem packFile_eq_ok {bytes : List UInt8} {files : List ManifestFile} {state : List UInt8 × List ManifestFile}
    (hbytes : 0 < bytes.length) : packFile digestBytes source (bytes, files) found = .ok state ↔
      ∃ content, Fits source bytes.length found content ∧
        state = (bytes ++ (field (utf8Bytes found.path.toList) ++ field content),
          files ++ [manifestFile digestBytes found content]) := by
  generalize hhead : bytes ++ field (utf8Bytes found.path.toList) = head
  have hstart : (head ++ leBytes 8 0).length = frameEnd bytes.length found := by
    have hpath : (utf8Bytes found.path.toList).length = byteLength found.path := rfl
    rw [← hhead, List.length_append, List.length_append, length_field, length_leBytes, frameEnd, hpath]
    omega
  have hlt : source.limits.maxArtifactBytes.toNat < 2 ^ 64 := source.limits.maxArtifactBytes.toNat_lt
  have hmost : maximum source bytes.length found < 2 ^ 64 - 1 := by
    rw [maximum, frameEnd]
    omega
  -- the size is written over the zeros in front of the content
  have hput : ∀ content : List UInt8, put (head ++ leBytes 8 0 ++ content) head.length
      (leBytes 8 ((head ++ leBytes 8 0 ++ content).length - frameEnd bytes.length found)) = head ++ field content := by
    intro content
    have hsize : (head ++ leBytes 8 0 ++ content).length - frameEnd bytes.length found = content.length := by
      rw [List.length_append, hstart]
      omega
    have hdrop : (leBytes 8 0 ++ content).drop (leBytes 8 content.length).length = content :=
      List.drop_left' (by rw [length_leBytes, length_leBytes])
    rw [hsize, List.append_assoc, put_append_of_length rfl, hdrop, field]
  have hdigest : ∀ content : List UInt8, (head ++ field content).drop (frameEnd bytes.length found) = content := by
    intro content
    rw [field, ← List.append_assoc]
    refine List.drop_left' ?_
    rw [← hstart, List.length_append, List.length_append, length_leBytes, length_leBytes]
  have hresult : ∀ content : List UInt8,
      (put (head ++ leBytes 8 0 ++ content) head.length
        (leBytes 8 ((head ++ leBytes 8 0 ++ content).length - frameEnd bytes.length found)),
        files ++ [⟨found.path, (head ++ leBytes 8 0 ++ content).length - frameEnd bytes.length found,
          digestBytes ((put (head ++ leBytes 8 0 ++ content) head.length
            (leBytes 8 ((head ++ leBytes 8 0 ++ content).length - frameEnd bytes.length found))).drop
            (frameEnd bytes.length found))⟩]) =
      (bytes ++ (field (utf8Bytes found.path.toList) ++ field content),
        files ++ [manifestFile digestBytes found content]) := by
    intro content
    have hsize : (head ++ leBytes 8 0 ++ content).length - frameEnd bytes.length found = content.length := by
      rw [List.length_append, hstart]
      omega
    rw [hput, hdigest, hsize, ← hhead, List.append_assoc]
    rfl
  dsimp only [packFile]
  rw [hhead, hstart]
  constructor
  · intro h
    obtain ⟨size, hframe, h⟩ := bind_eq_ok.mp h
    obtain ⟨_, hle⟩ := (checkFrame_eq_ok hbytes).mp hframe
    rw [checkedSub_eq_ok hle] at h
    obtain ⟨room, hroom, h⟩ := bind_eq_ok.mp h
    obtain rfl := Except.ok.inj hroom
    obtain ⟨read, hread, h⟩ := bind_eq_ok.mp h
    obtain ⟨hopens, hlength, content, hcontent, hsize, rfl⟩ := (readSourceFile_eq_ok hmost).mp hread
    exact ⟨content, ⟨hle, hopens, hlength, hcontent, hsize⟩, ((hresult content).symm.trans (Except.ok.inj h)).symm⟩
  · rintro ⟨content, hfits, rfl⟩
    refine bind_eq_ok.mpr ⟨_, (checkFrame_eq_ok hbytes).mpr ⟨rfl, hfits.frame⟩, ?_⟩
    rw [checkedSub_eq_ok hfits.frame]
    refine bind_eq_ok.mpr ⟨_, rfl, ?_⟩
    refine bind_eq_ok.mpr ⟨head ++ leBytes 8 0 ++ content, ?_, congrArg Except.ok (hresult content)⟩
    exact (readSourceFile_eq_ok hmost).mpr ⟨hfits.opens, hfits.length, content, hfits.read, hfits.size, rfl⟩

/-- **Inspecting one file.** -/
theorem inspectFile_eq_ok {files : List ManifestFile} {state : Nat × List ManifestFile} (htotal : 0 < total) :
    inspectFile digestBytes source (total, files) found = .ok state ↔
      ∃ content, Fits source total found content ∧
        state = (frameEnd total found + content.length, files ++ [manifestFile digestBytes found content]) := by
  dsimp only [inspectFile]
  constructor
  · intro h
    obtain ⟨_, hopens, h⟩ := bind_eq_ok.mp h
    obtain ⟨size, hframe, h⟩ := bind_eq_ok.mp h
    obtain ⟨rfl, hle⟩ := (checkFrame_eq_ok htotal).mp hframe
    rw [checkedSub_eq_ok hle] at h
    obtain ⟨room, hroom, h⟩ := bind_eq_ok.mp h
    obtain rfl := Except.ok.inj hroom
    obtain ⟨length, hlength, h⟩ := bind_eq_ok.mp h
    obtain ⟨_, hshort, h⟩ := bind_eq_ok.mp h
    obtain ⟨content, hcontent, h⟩ := bind_eq_ok.mp h
    obtain ⟨_, hsize, h⟩ := bind_eq_ok.mp h
    obtain ⟨after, hafter, h⟩ := bind_eq_ok.mp h
    rw [rejectIf_eq_ok, Bool.not_eq_false] at hopens
    rw [rejectIf_eq_ok, Nat.not_lt] at hshort hsize
    obtain ⟨rfl, _⟩ := checkArtifactSize_eq_ok.mp hafter
    exact ⟨content, ⟨hle, hopens, ⟨length, orError_eq_ok.mp hlength, hshort⟩, orError_eq_ok.mp hcontent, hsize⟩,
      (Except.ok.inj h).symm⟩
  · rintro ⟨content, hfits, rfl⟩
    obtain ⟨length, hlength, hshort⟩ := hfits.length
    refine bind_eq_ok.mpr ⟨(), rejectIf_eq_ok.mpr (by rw [hfits.opens]; decide), ?_⟩
    refine bind_eq_ok.mpr ⟨_, (checkFrame_eq_ok htotal).mpr ⟨rfl, hfits.frame⟩, ?_⟩
    rw [checkedSub_eq_ok hfits.frame]
    refine bind_eq_ok.mpr ⟨_, rfl, ?_⟩
    refine bind_eq_ok.mpr ⟨length, orError_eq_ok.mpr hlength, ?_⟩
    refine bind_eq_ok.mpr ⟨(), rejectIf_eq_ok.mpr (Nat.not_lt.mpr hshort), ?_⟩
    refine bind_eq_ok.mpr ⟨content, orError_eq_ok.mpr hfits.read, ?_⟩
    refine bind_eq_ok.mpr ⟨(), rejectIf_eq_ok.mpr (Nat.not_lt.mpr hfits.size), ?_⟩
    have hsize := hfits.size
    have hframe := hfits.frame
    rw [maximum] at hsize
    exact bind_eq_ok.mpr ⟨_, checkArtifactSize_eq_ok.mpr ⟨rfl, by omega⟩, rfl⟩

end File

/-! ### All files -/

section Files

variable {digestBytes : List UInt8 → String} {source : PackageSource}

/-- Files that are taken one after the others, after so much is written. -/
inductive FitsAll (source : PackageSource) : Nat → List (SourcePath × List UInt8) → Prop
  | nil (total : Nat) : FitsAll source total []
  | cons {total : Nat} {found : SourcePath} {content : List UInt8} {rest : List (SourcePath × List UInt8)} :
      Fits source total found content → FitsAll source (frameEnd total found + content.length) rest →
      FitsAll source total ((found, content) :: rest)

theorem FitsAll.fits_of_mem {total : Nat} {entries : List (SourcePath × List UInt8)}
    (h : FitsAll source total entries) {entry : SourcePath × List UInt8} (hentry : entry ∈ entries) :
    ∃ total, Fits source total entry.1 entry.2 := by
  induction h with
  | nil => cases hentry
  | cons hfits _ ih =>
    rcases List.mem_cons.mp hentry with rfl | hentry
    · exact ⟨_, hfits⟩
    · exact ih hentry

/-- **A loop over files** that takes each when it fits takes all when they fit
one after the others. -/
theorem foldlM_fits {σ : Type} {step : σ × List ManifestFile → SourcePath → Except PublishError (σ × List ManifestFile)}
    (size : σ → Nat) (grow : σ → SourcePath × List UInt8 → σ)
    (hstep : ∀ s files found state, 0 < size s → (step (s, files) found = .ok state ↔
      ∃ content, Fits source (size s) found content ∧
        state = (grow s (found, content), files ++ [manifestFile digestBytes found content])))
    (hgrow : ∀ s found content, size (grow s (found, content)) = frameEnd (size s) found + content.length)
    {paths : List SourcePath} {s : σ} {files : List ManifestFile} {state : σ × List ManifestFile} (hs : 0 < size s) :
    paths.foldlM step (s, files) = .ok state ↔ ∃ entries : List (SourcePath × List UInt8),
      entries.map Prod.fst = paths ∧ FitsAll source (size s) entries ∧
        state = (entries.foldl grow s, files ++ entries.map fun entry => manifestFile digestBytes entry.1 entry.2) := by
  have hpos : ∀ s found content, 0 < size (grow s (found, content)) := by
    intro s found content
    rw [hgrow, frameEnd]
    omega
  induction paths generalizing s files with
  | nil =>
    constructor
    · intro h
      obtain rfl := pure_eq_ok.mp h
      exact ⟨[], rfl, .nil _, by rw [List.map_nil, List.append_nil, List.foldl_nil]⟩
    · rintro ⟨entries, hpaths, _, rfl⟩
      obtain rfl := List.map_eq_nil_iff.mp hpaths
      rw [List.map_nil, List.append_nil, List.foldl_nil]
      rfl
  | cons found paths ih =>
    rw [Loop.foldlM_cons_eq_ok]
    constructor
    · rintro ⟨mid, hmid, h⟩
      obtain ⟨content, hfits, rfl⟩ := (hstep s files found mid hs).mp hmid
      obtain ⟨entries, hpaths, hall, rfl⟩ := (ih (hpos s found content)).mp h
      rw [hgrow] at hall
      refine ⟨(found, content) :: entries, by rw [List.map_cons, hpaths], .cons hfits hall, ?_⟩
      rw [List.foldl_cons, List.map_cons, List.append_assoc, List.singleton_append]
    · rintro ⟨entries, hpaths, hall, rfl⟩
      cases hall with
      | nil => cases hpaths
      | @cons _ found' content rest hfits hrest =>
        rw [List.map_cons] at hpaths
        obtain ⟨rfl, htail⟩ := List.cons_eq_cons.mp hpaths
        refine ⟨_, (hstep s files found' _ hs).mpr ⟨content, hfits, rfl⟩, ?_⟩
        rw [← hgrow] at hrest
        refine (ih (hpos s found' content)).mpr ⟨rest, htail, hrest, ?_⟩
        rw [List.foldl_cons, List.map_cons, List.append_assoc, List.singleton_append]

/-- What fits stays within the limit. -/
theorem FitsAll.size_le {σ : Type} (size : σ → Nat) {grow : σ → SourcePath × List UInt8 → σ}
    (hgrow : ∀ s found content, size (grow s (found, content)) = frameEnd (size s) found + content.length)
    {entries : List (SourcePath × List UInt8)} {s : σ} (h : FitsAll source (size s) entries)
    (hs : size s ≤ source.limits.maxArtifactBytes.toNat) :
    size (entries.foldl grow s) ≤ source.limits.maxArtifactBytes.toNat := by
  induction entries generalizing s with
  | nil => exact hs
  | cons entry entries ih =>
    cases h with
    | @cons _ found content _ hfits hrest =>
      rw [← hgrow] at hrest
      refine ih hrest ?_
      have hframe := hfits.frame
      have hsize := hfits.size
      rw [maximum] at hsize
      rw [hgrow]
      omega

/-- What is written of a file. -/
def record (entry : SourcePath × List UInt8) : List UInt8 := field (utf8Bytes entry.1.path.toList) ++ field entry.2

theorem length_append_record (bytes : List UInt8) (found : SourcePath) (content : List UInt8) :
    (bytes ++ record (found, content)).length = frameEnd bytes.length found + content.length := by
  have hpath : (utf8Bytes found.path.toList).length = byteLength found.path := rfl
  show (bytes ++ (field (utf8Bytes found.path.toList) ++ field content)).length = _
  rw [List.length_append, List.length_append, length_field, length_field, hpath, frameEnd]
  omega

theorem foldl_record (entries : List (SourcePath × List UInt8)) (bytes : List UInt8) :
    entries.foldl (fun bytes entry => bytes ++ record entry) bytes = bytes ++ entries.flatMap record := by
  induction entries generalizing bytes with
  | nil => rw [List.foldl_nil, List.flatMap_nil, List.append_nil]
  | cons entry entries ih => rw [List.foldl_cons, ih, List.flatMap_cons, List.append_assoc]

end Files

/-! ### Sources that are accepted -/

section Accepts

variable {system : LexicalPath.Rules} {source : PackageSource} {collisionKey : String → String}
  {digestBytes : List UInt8 → String} {entries : List (SourcePath × List UInt8)}

/-- What is written in front of the files. -/
def header (version : String) : List UInt8 := packMagic ++ field (utf8Bytes version.toList)

theorem length_header (version : String) : (header version).length = packMagic.length + 8 + byteLength version := by
  have hversion : (utf8Bytes version.toList).length = byteLength version := rfl
  rw [header, List.length_append, length_field, hversion]
  omega

theorem header_pos (version : String) : 0 < (header version).length := by
  rw [length_header]
  omega

/-- The files of a source that is packed and inspected. -/
structure Accepts (system : LexicalPath.Rules) (source : PackageSource) (collisionKey : String → String)
    (entries : List (SourcePath × List UInt8)) : Prop where
  paths : normalizedSourcePaths system source collisionKey = .ok (entries.map Prod.fst)
  header_le : (header source.version).length ≤ source.limits.maxArtifactBytes.toNat
  fits : FitsAll source (header source.version).length entries

/-- The manifest of these files. -/
def manifestOf (digestBytes : List UInt8 → String) (version : String) (entries : List (SourcePath × List UInt8)) :
    NormalizedFileManifest :=
  ⟨version, entries.map fun entry => manifestFile digestBytes entry.1 entry.2⟩

/-- The bytes of these files. -/
def packed (version : String) (entries : List (SourcePath × List UInt8)) : List UInt8 :=
  header version ++ entries.flatMap record

theorem checkHeader_eq_ok {size : Nat} :
    checkArtifactSize (packMagic.length + 8) (byteLength source.version) source.limits = .ok size ↔
      size = (header source.version).length ∧
        (header source.version).length ≤ source.limits.maxArtifactBytes.toNat := by
  rw [checkArtifactSize_eq_ok, length_header]

/-- **Packing** writes the files that are accepted. -/
theorem pack_eq_ok {artifact : PackedArtifact} : pack digestBytes source system collisionKey = .ok artifact ↔
    ∃ entries, Accepts system source collisionKey entries ∧
      artifact = ⟨source.version, packed source.version entries, digestBytes (packed source.version entries),
        manifestOf digestBytes source.version entries⟩ := by
  have hloop : ∀ paths state,
      paths.foldlM (packFile digestBytes source) (header source.version, []) = .ok state ↔
        ∃ entries : List (SourcePath × List UInt8), entries.map Prod.fst = paths ∧
          FitsAll source (header source.version).length entries ∧
          state = (packed source.version entries, (manifestOf digestBytes source.version entries).files) := by
    intro paths state
    rw [foldlM_fits List.length (fun bytes entry => bytes ++ record entry)
      (fun bytes files found state hbytes => packFile_eq_ok hbytes)
      (fun bytes found content => length_append_record bytes found content) (header_pos _)]
    simp only [foldl_record, List.nil_append, packed, manifestOf]
  unfold pack
  constructor
  · intro h
    obtain ⟨paths, hpaths, h⟩ := bind_eq_ok.mp h
    obtain ⟨size, hsize, h⟩ := bind_eq_ok.mp h
    obtain ⟨state, hstate, h⟩ := bind_eq_ok.mp h
    obtain ⟨entries, rfl, hfits, rfl⟩ := (hloop paths state).mp hstate
    exact ⟨entries, ⟨hpaths, (checkHeader_eq_ok.mp hsize).2, hfits⟩, (Except.ok.inj h).symm⟩
  · rintro ⟨entries, haccepts, rfl⟩
    refine bind_eq_ok.mpr ⟨_, haccepts.paths, bind_eq_ok.mpr ⟨_, checkHeader_eq_ok.mpr ⟨rfl, haccepts.header_le⟩, ?_⟩⟩
    exact bind_eq_ok.mpr ⟨_, (hloop _ _).mpr ⟨entries, rfl, haccepts.fits, rfl⟩, rfl⟩

/-- **Inspecting** lists the files that are accepted. -/
theorem inspectSource_eq_ok {manifest : NormalizedFileManifest} :
    inspectSource digestBytes source system collisionKey = .ok manifest ↔
      ∃ entries, Accepts system source collisionKey entries ∧
        manifest = manifestOf digestBytes source.version entries := by
  have hloop : ∀ total paths state, 0 < total →
      (paths.foldlM (inspectFile digestBytes source) (total, []) = .ok state ↔
        ∃ entries : List (SourcePath × List UInt8), entries.map Prod.fst = paths ∧ FitsAll source total entries ∧
          state = (entries.foldl (fun total entry => frameEnd total entry.1 + entry.2.length) total,
            (manifestOf digestBytes source.version entries).files)) := by
    intro total paths state htotal
    rw [foldlM_fits id (fun total entry => frameEnd total entry.1 + entry.2.length)
      (fun total files found state htotal => inspectFile_eq_ok htotal) (fun total found content => rfl) htotal]
    simp only [List.nil_append, manifestOf, id]
  unfold inspectSource
  constructor
  · intro h
    obtain ⟨paths, hpaths, h⟩ := bind_eq_ok.mp h
    obtain ⟨size, hsize, h⟩ := bind_eq_ok.mp h
    obtain ⟨state, hstate, h⟩ := bind_eq_ok.mp h
    obtain ⟨rfl, hle⟩ := checkHeader_eq_ok.mp hsize
    obtain ⟨entries, rfl, hfits, rfl⟩ := (hloop _ paths state (header_pos _)).mp hstate
    exact ⟨entries, ⟨hpaths, hle, hfits⟩, (Except.ok.inj h).symm⟩
  · rintro ⟨entries, haccepts, rfl⟩
    refine bind_eq_ok.mpr ⟨_, haccepts.paths, bind_eq_ok.mpr ⟨_, checkHeader_eq_ok.mpr ⟨rfl, haccepts.header_le⟩, ?_⟩⟩
    exact bind_eq_ok.mpr ⟨_, (hloop _ _ _ (header_pos _)).mpr ⟨entries, rfl, haccepts.fits, rfl⟩, rfl⟩

/-- What is accepted does not depend on the order directories are read in. -/
theorem Accepts.of_sameUpToOrder {tree : SourceTree} (htree : SameUpToOrder source.tree tree)
    (h : Accepts system source collisionKey entries) : Accepts system { source with tree } collisionKey entries := by
  refine ⟨normalizedSourcePaths_of_sameUpToOrder htree h.paths, h.header_le, ?_⟩
  have hfits : ∀ {total entries}, FitsAll source total entries → FitsAll { source with tree } total entries := by
    intro total entries hall
    induction hall with
    | nil => exact .nil _
    | cons hone _ ih =>
      refine .cons ⟨hone.frame, ?_, ?_, ?_, hone.size⟩ ih
      · exact htree.file ▸ hone.opens
      · exact htree.file ▸ hone.length
      · exact htree.file ▸ hone.read
  exact hfits h.fits

/-- **The files that are accepted** are those that are included, with their contents. -/
theorem Accepts.mem_iff (h : Accepts system source collisionKey entries) {found : SourcePath} {content : List UInt8} :
    (found, content) ∈ entries ↔
      Included system source found ∧ (source.tree.file found.full).content = some content := by
  constructor
  · intro hentry
    obtain ⟨_, hfits⟩ := h.fits.fits_of_mem hentry
    exact ⟨(mem_normalizedSourcePaths h.paths).mp (List.mem_map_of_mem hentry), hfits.read⟩
  · rintro ⟨hincluded, hcontent⟩
    obtain ⟨⟨found', content'⟩, hentry, rfl⟩ := List.mem_map.mp ((mem_normalizedSourcePaths h.paths).mpr hincluded)
    obtain ⟨_, hfits⟩ := h.fits.fits_of_mem hentry
    obtain rfl := Option.some_inj.mp (hfits.read.symm.trans hcontent)
    exact hentry

/-- **What is packed is within the limit.** -/
theorem Accepts.length_packed_le (h : Accepts system source collisionKey entries) :
    (packed source.version entries).length ≤ source.limits.maxArtifactBytes.toNat := by
  rw [packed, ← foldl_record]
  exact h.fits.size_le List.length length_append_record h.header_le

end Accepts

/-! ### Reading back -/

/-- The version of a pack, and path and content of every file. -/
def decode (bytes : List UInt8) : Option (List UInt8 × List (List UInt8 × List UInt8)) :=
  if packMagic.isPrefixOf bytes then do
    let (version, rest) ← takeField (bytes.drop packMagic.length)
    let files ← takePairs rest.length rest
    some (version, files)
  else none

section Decode

variable {system : LexicalPath.Rules} {source : PackageSource} {collisionKey : String → String}
  {entries : List (SourcePath × List UInt8)}

/-- A file as it is read back. -/
def fields (entry : SourcePath × List UInt8) : List UInt8 × List UInt8 := (utf8Bytes entry.1.path.toList, entry.2)

theorem flatMap_record (entries : List (SourcePath × List UInt8)) :
    entries.flatMap record = (entries.map fields).flatMap fun pair => field pair.1 ++ field pair.2 := by
  rw [List.flatMap_map]
  rfl

theorem length_le_flatMap_record (entries : List (SourcePath × List UInt8)) :
    entries.length ≤ (entries.flatMap record).length := by
  induction entries with
  | nil => exact Nat.le_refl 0
  | cons entry entries ih =>
    rw [List.flatMap_cons, List.length_append, List.length_cons, record, List.length_append, length_field]
    omega

/-- **A pack is read back** as the version and the files. -/
theorem Accepts.decode_packed (h : Accepts system source collisionKey entries) :
    decode (packed source.version entries) = some (utf8Bytes source.version.toList, entries.map fields) := by
  have hlimit : source.limits.maxArtifactBytes.toNat < 2 ^ 64 := source.limits.maxArtifactBytes.toNat_lt
  have hversion : (utf8Bytes source.version.toList).length < 2 ^ 64 := by
    have hle := h.header_le
    rw [length_header] at hle
    have hlength : (utf8Bytes source.version.toList).length = byteLength source.version := rfl
    omega
  have hpairs : ∀ pair ∈ entries.map fields, pair.1.length < 2 ^ 64 ∧ pair.2.length < 2 ^ 64 := by
    intro pair hpair
    obtain ⟨entry, hentry, rfl⟩ := List.mem_map.mp hpair
    obtain ⟨total, hfits⟩ := h.fits.fits_of_mem hentry
    have hframe := hfits.frame
    have hsize := hfits.size
    rw [frameEnd] at hframe
    rw [maximum] at hsize
    have hpath : (fields entry).1.length = byteLength entry.1.path := rfl
    have hcontent : (fields entry).2 = entry.2 := rfl
    rw [hpath, hcontent]
    omega
  have hmagic : packMagic.isPrefixOf (packed source.version entries) = true := by
    rw [List.isPrefixOf_iff_prefix, packed, header, List.append_assoc]
    exact List.prefix_append _ _
  have hrest : (packed source.version entries).drop packMagic.length =
      field (utf8Bytes source.version.toList) ++ entries.flatMap record := by
    rw [packed, header, List.append_assoc, List.drop_left]
  have hcount : (entries.map fields).length ≤ (entries.flatMap record).length := by
    rw [List.length_map]
    exact length_le_flatMap_record entries
  have hfiles := takePairs_flatMap hcount hpairs
  rw [← flatMap_record] at hfiles
  rw [decode, if_pos hmagic, hrest, takeField_field hversion]
  simp only [Option.bind_eq_bind, Option.bind_some, hfiles]

end Decode

/-! ### Subtractions -/

section Underflow

variable {α β γ : Type} {system : LexicalPath.Rules} {source : PackageSource} {collisionKey : String → String}
  {digestBytes : List UInt8 → String}

/-- A computation in which no subtraction underflows. -/
def NoUnderflow (x : Except PublishError α) : Prop := x ≠ .error .underflow

theorem NoUnderflow.bind {x : Except PublishError α} {f : α → Except PublishError β} (hx : NoUnderflow x)
    (hf : ∀ a, x = .ok a → NoUnderflow (f a)) : NoUnderflow (x >>= f) := by
  intro h
  rcases bind_eq_error.mp h with h | ⟨a, ha, h⟩
  · exact hx h
  · exact hf a ha h

theorem NoUnderflow.ok {a : α} : NoUnderflow (.ok a) := by
  intro h
  cases h

theorem NoUnderflow.error {e : PublishError} (h : e ≠ .underflow) : NoUnderflow (.error e : Except PublishError α) :=
  fun herror => h (Except.error.inj herror)

theorem NoUnderflow.rejectIf {p : Prop} [Decidable p] {e : PublishError} (h : e ≠ .underflow) :
    NoUnderflow (rejectIf p e) := fun herror => h (rejectIf_eq_error.mp herror).2

theorem NoUnderflow.orError {x : Option α} {e : PublishError} (h : e ≠ .underflow) : NoUnderflow (orError x e) := by
  intro herror
  cases x with
  | none => exact h (Except.error.inj herror)
  | some a => cases herror

theorem NoUnderflow.foldlM {f : β → γ → Except PublishError β} {I : β → Prop} {l : List γ} {s : β} (hs : I s)
    (hinv : ∀ a s s', I s → f s a = .ok s' → I s') (hf : ∀ a s, I s → NoUnderflow (f s a)) :
    NoUnderflow (l.foldlM f s) := by
  intro h
  obtain ⟨a, _, s', hs', herror⟩ := Loop.foldlM_error (fun a _ => hinv a) hs h
  exact hf a s' hs' herror

theorem noUnderflow_checkArtifactSize {current added : Nat} {limits : PackLimits} :
    NoUnderflow (checkArtifactSize current added limits) := by
  unfold checkArtifactSize
  split_ifs
  · exact .ok
  · exact .error (by simp)

theorem noUnderflow_normalizePath {raw : String} : NoUnderflow (normalizePath system raw) := by
  refine .bind (.rejectIf (by simp)) fun _ _ => .bind (.rejectIf (by simp)) fun _ _ => .bind ?_ fun _ _ =>
    .bind (.rejectIf (by simp)) fun _ _ => .ok
  refine .foldlM (I := fun _ => True) trivial (fun _ _ _ _ _ => trivial) fun component _ _ => ?_
  cases component with
  | normal name => exact .ok
  | curDir => exact .ok
  | parentDir => exact .error (by simp)
  | rootDir => exact .error (by simp)
  | volume text => exact .error (by simp)

theorem noUnderflow_collectEntry {descend : List OsName → List SourcePath → Except PublishError (List SourcePath)}
    (hdescend : ∀ dir out, NoUnderflow (descend dir out)) {dir : List OsName} {out : List SourcePath}
    {entry : Option OsName} : NoUnderflow (collectEntry system source descend dir out entry) := by
  refine .bind (.orError (by simp)) fun name _ => .bind noUnderflow_normalizePath fun rel _ =>
    .bind (.rejectIf (by simp)) fun _ _ => ?_
  by_cases hskips : source.exclusions.skips rel = true
  · rw [if_pos hskips]
    exact .ok
  · rw [if_neg hskips]
    split
    · exact .error (by simp)
    · exact .error (by simp)
    · exact hdescend _ _
    · split_ifs
      · exact .error (by simp)
      · exact .ok

theorem noUnderflow_normalizedSourcePaths : NoUnderflow (normalizedSourcePaths system source collisionKey) := by
  have hcollect : ∀ left dir out, NoUnderflow (collectFiles system source left dir out) := by
    intro left
    induction left with
    | zero => exact fun _ _ => .error (by simp)
    | succ left ih =>
      intro dir out
      rw [collectFiles]
      split
      · exact .error (by simp)
      · exact .foldlM (I := fun _ => True) trivial (fun _ _ _ _ _ => trivial) fun _ _ _ => noUnderflow_collectEntry ih
  refine .bind (.rejectIf (by simp)) fun _ _ => .bind (hcollect _ _ _) fun files _ => .bind ?_ fun _ _ => .ok
  refine .foldlM (I := fun _ => True) trivial (fun _ _ _ _ _ => trivial) fun found seen _ => ?_
  unfold checkCollision
  split_ifs
  · exact .error (by simp)
  · exact .ok

/-- What is left after the frame of a file is a number. -/
theorem noUnderflow_packFile {bytes : List UInt8} {files : List ManifestFile} {found : SourcePath}
    (hbytes : 0 < bytes.length) : NoUnderflow (packFile digestBytes source (bytes, files) found) := by
  refine .bind noUnderflow_checkArtifactSize fun size hsize => ?_
  obtain ⟨_, hle⟩ := (checkFrame_eq_ok hbytes).mp hsize
  have hstart : (bytes ++ field (utf8Bytes found.path.toList) ++ leBytes 8 0).length = frameEnd bytes.length found := by
    have hpath : (utf8Bytes found.path.toList).length = byteLength found.path := rfl
    rw [List.length_append, List.length_append, length_field, length_leBytes, hpath, frameEnd]
    omega
  dsimp only
  rw [hstart, checkedSub_eq_ok hle]
  refine .bind .ok fun room _ => .bind ?_ fun _ _ => .ok
  refine .bind (.rejectIf (by simp)) fun _ _ => .bind (.orError (by simp)) fun _ _ =>
    .bind (.rejectIf (by simp)) fun _ _ => .bind (.orError (by simp)) fun _ _ =>
    .bind (.rejectIf (by simp)) fun _ _ => .ok

theorem noUnderflow_inspectFile {total : Nat} {files : List ManifestFile} {found : SourcePath} (htotal : 0 < total) :
    NoUnderflow (inspectFile digestBytes source (total, files) found) := by
  refine .bind (.rejectIf (by simp)) fun _ _ => .bind noUnderflow_checkArtifactSize fun size hsize => ?_
  obtain ⟨rfl, hle⟩ := (checkFrame_eq_ok htotal).mp hsize
  rw [checkedSub_eq_ok hle]
  refine .bind .ok fun room _ => .bind (.orError (by simp)) fun _ _ => .bind (.rejectIf (by simp)) fun _ _ =>
    .bind (.orError (by simp)) fun _ _ => .bind (.rejectIf (by simp)) fun _ _ =>
    .bind noUnderflow_checkArtifactSize fun _ _ => .ok

theorem noUnderflow_pack : NoUnderflow (pack digestBytes source system collisionKey) := by
  refine .bind noUnderflow_normalizedSourcePaths fun paths _ => .bind noUnderflow_checkArtifactSize fun _ _ =>
    .bind ?_ fun _ _ => .ok
  -- something is written before each file
  refine .foldlM (I := fun state => 0 < state.1.length) (header_pos source.version) ?_
    fun found state hstate => noUnderflow_packFile hstate
  rintro found ⟨bytes, files⟩ state hbytes h
  obtain ⟨content, _, rfl⟩ := (packFile_eq_ok hbytes).mp h
  exact List.length_append ▸ Nat.add_pos_left hbytes _

theorem noUnderflow_inspectSource : NoUnderflow (inspectSource digestBytes source system collisionKey) := by
  refine .bind noUnderflow_normalizedSourcePaths fun paths _ => .bind noUnderflow_checkArtifactSize fun total htotal =>
    .bind ?_ fun _ _ => .ok
  obtain ⟨rfl, _⟩ := checkHeader_eq_ok.mp htotal
  refine .foldlM (I := fun state => 0 < state.1) (header_pos source.version) ?_
    fun found state hstate => noUnderflow_inspectFile hstate
  rintro found ⟨total, files⟩ state htotal h
  obtain ⟨content, _, rfl⟩ := (inspectFile_eq_ok htotal).mp h
  show 0 < frameEnd total found + content.length
  rw [frameEnd]
  omega

end Underflow

/-! ### Packing, inspecting and reading back -/

section Main

variable {system : LexicalPath.Rules} {source : PackageSource} {collisionKey : String → String}
  {digestBytes : List UInt8 → String}

/-- A file of a package, with its content. -/
def Packs (system : LexicalPath.Rules) (source : PackageSource) (path : String) (content : List UInt8) : Prop :=
  ∃ full, Included system source ⟨path, full⟩ ∧ (source.tree.file full).content = some content

/-- A pack is that of these files: it is read back as the version and them, in
the order of their paths, they are the files of the package, and the manifest
lists them. -/
structure IsPackOf (digestBytes : List UInt8 → String) (system : LexicalPath.Rules) (source : PackageSource)
    (artifact : PackedArtifact) (files : List (String × List UInt8)) : Prop where
  decode : decode artifact.bytes =
    some (utf8Bytes source.version.toList, files.map fun file => (utf8Bytes file.1.toList, file.2))
  increasing : files.Pairwise fun a b => a.1 < b.1
  mem_iff : ∀ path content, (path, content) ∈ files ↔ Packs system source path content
  manifest : artifact.manifest =
    ⟨source.version, files.map fun file => ⟨file.1, file.2.length, digestBytes file.2⟩⟩

/-- **What is packed** are the files of the package. -/
theorem exists_isPackOf {artifact : PackedArtifact} (h : pack digestBytes source system collisionKey = .ok artifact) :
    ∃ files, IsPackOf digestBytes system source artifact files := by
  obtain ⟨entries, haccepts, rfl⟩ := pack_eq_ok.mp h
  refine ⟨entries.map fun entry => (entry.1.path, entry.2), ?_, ?_, ?_, ?_⟩
  · rw [haccepts.decode_packed, List.map_map]
    rfl
  · have hpaths := normalizedSourcePaths_pairwise haccepts.paths
    rw [List.pairwise_map] at hpaths ⊢
    exact hpaths
  · intro path content
    rw [List.mem_map]
    constructor
    · rintro ⟨⟨⟨path', full⟩, content'⟩, hentry, heq⟩
      obtain ⟨rfl, rfl⟩ := Prod.mk.inj heq
      exact ⟨full, haccepts.mem_iff.mp hentry⟩
    · rintro ⟨full, hfile⟩
      exact ⟨(⟨path, full⟩, content), haccepts.mem_iff.mpr hfile, rfl⟩
  · rw [List.map_map]
    rfl

/-- A pack says what is packed. -/
theorem IsPackOf.unique {other : PackageSource} {artifact artifact' : PackedArtifact}
    {files files' : List (String × List UInt8)} (h : IsPackOf digestBytes system source artifact files)
    (h' : IsPackOf digestBytes system other artifact' files') (heq : artifact.bytes = artifact'.bytes) :
    source.version = other.version ∧ files = files' := by
  have hdecode := h.decode
  rw [heq, h'.decode] at hdecode
  obtain ⟨hversion, hfiles⟩ := Prod.mk.inj (Option.some_inj.mp hdecode)
  have hinj : Function.Injective fun file : String × List UInt8 => (utf8Bytes file.1.toList, file.2) := by
    rintro ⟨path, content⟩ ⟨path', content'⟩ hfile
    obtain ⟨hpath, hcontent⟩ := Prod.mk.inj hfile
    rw [Prod.mk.injEq]
    exact ⟨String.toList_injective (utf8Bytes_injective hpath), hcontent⟩
  exact ⟨String.toList_injective (utf8Bytes_injective hversion.symm), hinj.list_map hfiles.symm⟩

/-- **Packing and inspection agree**, also on a tree whose directories are read
in another order; no subtraction underflows; and a pack keeps within the limit
and says what is packed. -/
theorem pack_inspectSource (digestBytes : List UInt8 → String) (system : LexicalPath.Rules)
    (collisionKey : String → String) (source : PackageSource) :
    (∀ manifest, inspectSource digestBytes source system collisionKey = .ok manifest ↔
      ∃ artifact, pack digestBytes source system collisionKey = .ok artifact ∧ artifact.manifest = manifest) ∧
    (∀ artifact, pack digestBytes source system collisionKey = .ok artifact →
      artifact.bytes.length ≤ source.limits.maxArtifactBytes.toNat ∧
      (∃ files, IsPackOf digestBytes system source artifact files) ∧
      ∀ other artifact', pack digestBytes other system collisionKey = .ok artifact' →
        artifact.bytes = artifact'.bytes → source.version = other.version ∧
          ∀ path content, Packs system source path content ↔ Packs system other path content) ∧
    (pack digestBytes source system collisionKey ≠ .error .underflow ∧
      inspectSource digestBytes source system collisionKey ≠ .error .underflow) ∧
    ∀ tree, SameUpToOrder source.tree tree →
      (∀ artifact, pack digestBytes source system collisionKey = .ok artifact ↔
        pack digestBytes { source with tree } system collisionKey = .ok artifact) ∧
      ∀ manifest, inspectSource digestBytes source system collisionKey = .ok manifest ↔
        inspectSource digestBytes { source with tree } system collisionKey = .ok manifest := by
  refine ⟨fun manifest => ?_, fun artifact hpack => ?_, ⟨noUnderflow_pack, noUnderflow_inspectSource⟩,
    fun tree htree => ?_⟩
  · rw [inspectSource_eq_ok]
    constructor
    · rintro ⟨entries, haccepts, rfl⟩
      exact ⟨_, pack_eq_ok.mpr ⟨entries, haccepts, rfl⟩, rfl⟩
    · rintro ⟨artifact, hpack, rfl⟩
      obtain ⟨entries, haccepts, rfl⟩ := pack_eq_ok.mp hpack
      exact ⟨entries, haccepts, rfl⟩
  · obtain ⟨files, hfiles⟩ := exists_isPackOf hpack
    refine ⟨?_, ⟨files, hfiles⟩, fun other artifact' hpack' heq => ?_⟩
    · obtain ⟨entries, haccepts, rfl⟩ := pack_eq_ok.mp hpack
      exact haccepts.length_packed_le
    · obtain ⟨files', hfiles'⟩ := exists_isPackOf hpack'
      obtain ⟨hversion, rfl⟩ := hfiles.unique hfiles' heq
      exact ⟨hversion, fun path content => (hfiles.mem_iff path content).symm.trans (hfiles'.mem_iff path content)⟩
  · have hiff : ∀ entries, Accepts system source collisionKey entries ↔
        Accepts system { source with tree } collisionKey entries := by
      intro entries
      refine ⟨fun h => h.of_sameUpToOrder htree, fun h => ?_⟩
      have hback := h.of_sameUpToOrder htree.symm
      exact hback
    refine ⟨fun artifact => ?_, fun manifest => ?_⟩
    · rw [pack_eq_ok, pack_eq_ok]
      exact exists_congr fun entries => and_congr_left fun _ => hiff entries
    · rw [inspectSource_eq_ok, inspectSource_eq_ok]
      exact exists_congr fun entries => and_congr_left fun _ => hiff entries

/-- Two links in a directory. -/
def linkTree (first second : List Char) : SourceTree where
  isDir := true
  readDir dir := if dir = [] then some [some (.ofText first), some (.ofText second)] else none
  kind _ := some .other
  file _ := ⟨false, none, none⟩

def linkSource (first second : List Char) : PackageSource where
  tree := linkTree first second
  version := "1.0.0"
  exclusions := ⟨∅, ∅⟩
  limits := ⟨100000, 536870912, 536870912⟩

/-- Which of two links is reported depends on the order they are listed in. -/
theorem pack_linkSource :
    SameUpToOrder (linkTree ['a'] ['b']) (linkTree ['b'] ['a']) ∧
    pack (fun _ => "") (linkSource ['a'] ['b']) .unix id = .error (.unsafePath "a") ∧
    pack (fun _ => "") (linkSource ['b'] ['a']) .unix id = .error (.unsafePath "b") := by
  refine ⟨⟨rfl, rfl, rfl, fun dir => ?_⟩, by decide +kernel, by decide +kernel⟩
  show Option.Rel List.Perm (if dir = [] then _ else _) (if dir = [] then _ else _)
  split_ifs
  · exact .some (.swap _ _ _)
  · exact .none

end Main

end Publish

end Tapid
