/-
Paths written as text.

Names that are more than dots and have no separator in them are read back from
the text they are joined to, with a separator in front or without.
-/
import Tapid.LexicalPath

namespace LexicalPath

open Text

/-- What can stand between two separators and means itself. -/
structure ProperName (name : List Char) : Prop where
  ne_nil : name ≠ []
  ne_dot : name ≠ ['.']
  ne_dots : name ≠ ['.', '.']
  noSlash : '/' ∉ name

def relativeText (names : List (List Char)) : List Char := ['/'].intercalate names

def absoluteText (names : List (List Char)) : List Char := '/' :: relativeText names

theorem ProperName.partComponent {name : List Char} (h : ProperName name) : partComponent name = some (.normal name) := by
  rw [LexicalPath.partComponent, if_neg (not_or.mpr ⟨h.ne_nil, h.ne_dot⟩), if_neg h.ne_dots]

theorem filterMap_partComponent {names : List (List Char)} (h : ∀ name ∈ names, ProperName name) :
    names.filterMap partComponent = names.map .normal := by
  induction names with
  | nil => rfl
  | cons name names ih =>
    rw [List.filterMap_cons, (h name List.mem_cons_self).partComponent,
      ih fun n hn => h n (List.mem_cons_of_mem _ hn), List.map_cons]

/-- Splitting the text gives the names again. -/
theorem splitOnP_relativeText {names : List (List Char)} (hne : names ≠ []) (h : ∀ name ∈ names, ProperName name) :
    (relativeText names).splitOnP Rules.unix.isSeparator = names :=
  List.splitOn_intercalate '/' (fun name hname => (h name hname).noSlash) hne

/-- **Names are read back** from a relative path. -/
theorem components_relativeText {names : List (List Char)} (hne : names ≠ [])
    (h : ∀ name ∈ names, ProperName name) : components .unix (relativeText names) = names.map .normal := by
  obtain ⟨name, rest, rfl⟩ := List.exists_cons_of_ne_nil hne
  have hname := h name List.mem_cons_self
  have hhead : ¬ (relativeText (name :: rest)).head?.any Rules.unix.isSeparator = true := by
    obtain ⟨c, cs, rfl⟩ := List.exists_cons_of_ne_nil hname.ne_nil
    have hc : c ≠ '/' := fun hc => hname.noSlash (hc ▸ List.mem_cons_self)
    cases rest with
    | nil => simpa [relativeText, Rules.isSeparator] using hc
    | cons name' rest =>
      rw [relativeText, List.intercalate_cons_cons]
      simpa [Rules.isSeparator] using hc
  have hparts := splitOnP_relativeText hne h
  rw [components, splitVolume_unix]
  simp only [hparts, hhead, Bool.false_eq_true, if_false, List.head?_cons, Option.some_inj, hname.ne_dot,
    List.nil_append]
  exact filterMap_partComponent h

/-- **Names are read back** from an absolute path. -/
theorem components_absoluteText {names : List (List Char)} (h : ∀ name ∈ names, ProperName name) :
    components .unix (absoluteText names) = .rootDir :: names.map .normal := by
  have hparts : ((absoluteText names).splitOnP Rules.unix.isSeparator).filterMap partComponent = names.map .normal := by
    rw [absoluteText, List.splitOnP_cons_eq_if_modifyHead, if_pos (by rfl)]
    show ([] :: (relativeText names).splitOnP Rules.unix.isSeparator).filterMap partComponent = _
    have hnil : partComponent [] = none := rfl
    rw [List.filterMap_cons, hnil]
    by_cases hne : names = []
    · subst hne
      rfl
    · show ((relativeText names).splitOnP Rules.unix.isSeparator).filterMap partComponent = _
      rw [splitOnP_relativeText hne h, filterMap_partComponent h]
  have hhead : (absoluteText names).head?.any Rules.unix.isSeparator = true := rfl
  rw [components, splitVolume_unix]
  simp only [hhead, if_true, hparts, List.nil_append, List.singleton_append]

end LexicalPath
