/-
Paths as text, under the rules of two systems.

A path is read as a sequence of components.  Unix has one separator; Windows has
two, and a letter and a colon in front of a text name a volume.  Pushing a path
onto another goes by components: a path that names a volume takes the place of
what is there, so that joining text can lead out of the directory it is joined
to.

* `components` — a text as a path;
* `push`, `pushAll` — joining;
* `Below` — staying lexically under a directory;
* `pushAll_plain` — plain names stay below, under both rules.
-/
import Tapid.Text

namespace LexicalPath

open Text

inductive Rules where
  | unix
  | windows
  deriving DecidableEq

inductive Component where
  | volume (text : List Char)
  | rootDir
  | curDir
  | parentDir
  | normal (name : List Char)
  deriving DecidableEq

def Rules.isSeparator : Rules → Char → Bool
  | .unix, c => c == '/'
  | .windows, c => c == '/' || c == '\\'

/-- The volume in front of a text, and the rest.  Shares and devices begin with
two separators and are not told apart from a root here. -/
def Rules.splitVolume : Rules → List Char → List Component × List Char
  | .windows, d :: ':' :: rest =>
    if d.isAlpha then ([.volume [d, ':']], rest) else ([], d :: ':' :: rest)
  | _, s => ([], s)

/-- What a part between separators stands for; empty parts and dots stand for
nothing. -/
def partComponent (part : List Char) : Option Component :=
  if part = [] ∨ part = ['.'] then none
  else if part = ['.', '.'] then some .parentDir
  else some (.normal part)

/-- `Path::components`: a leading dot is kept where there is no root. -/
def components (rules : Rules) (s : List Char) : List Component :=
  let (volume, body) := rules.splitVolume s
  let parts := body.splitOnP rules.isSeparator
  let start : List Component :=
    if body.head?.any rules.isSeparator then [.rootDir]
    else if parts.head? = some ['.'] then [.curDir] else []
  volume ++ start ++ parts.filterMap partComponent

def Component.isVolume : Component → Bool
  | .volume _ => true
  | _ => false

/-- `PathBuf::push`, by components. -/
def push (base path : List Component) : List Component :=
  match path with
  | .volume _ :: _ => path
  | .rootDir :: _ => base.takeWhile Component.isVolume ++ path
  | _ => if base = [] then path else base ++ path.filter (· ≠ .curDir)

/-- Pushing texts one by one. -/
def pushAll (rules : Rules) (base : List Component) (parts : List (List Char)) : List Component :=
  parts.foldl (fun base part => push base (components rules part)) base

/-- A path that stays lexically strictly under a directory: names only follow. -/
def Below (base path : List Component) : Prop :=
  ∃ names : List (List Char), names ≠ [] ∧ path = base ++ names.map .normal

/-- A text that is one name under both rules. -/
structure PlainName (part : List Char) : Prop where
  ne_nil : part ≠ []
  ne_dot : part ≠ ['.']
  ne_dots : part ≠ ['.', '.']
  noSeparator : '/' ∉ part ∧ '\\' ∉ part
  noVolume : Rules.windows.splitVolume part = ([], part)

theorem splitVolume_unix (s : List Char) : Rules.unix.splitVolume s = ([], s) := by
  rw [Rules.splitVolume]
  intro d rest h
  cases h

theorem not_isSeparator {rules : Rules} {c : Char} (hslash : c ≠ '/') (hback : c ≠ '\\') :
    rules.isSeparator c = false := by
  cases rules with
  | unix => exact beq_false_of_ne hslash
  | windows => simp [Rules.isSeparator, hslash, hback]

/-- A text without separators is one part. -/
theorem splitOnP_eq_singleton {rules : Rules} {part : List Char} (hslash : '/' ∉ part)
    (hback : '\\' ∉ part) : part.splitOnP rules.isSeparator = [part] := by
  refine List.splitOnP_eq_singleton fun c hc => ?_
  exact not_isSeparator (fun h => hslash (h ▸ hc)) fun h => hback (h ▸ hc)

theorem head_not_isSeparator {rules : Rules} {part : List Char} (hslash : '/' ∉ part) (hback : '\\' ∉ part) :
    ¬ part.head?.any rules.isSeparator = true := by
  intro hany
  obtain ⟨c, hc, hsep⟩ := (Option.any_eq_true _ _).mp hany
  have hmem : c ∈ part := List.mem_of_mem_head? hc
  rw [not_isSeparator (fun heq => hslash (heq ▸ hmem)) fun heq => hback (heq ▸ hmem)] at hsep
  cases hsep

/-- Behind a volume a text without separators has no root. -/
theorem exists_components_of_volume {rules : Rules} {part text rest : List Char}
    (hvolume : rules.splitVolume part = ([.volume text], rest)) (hslash : '/' ∉ rest) (hback : '\\' ∉ rest) :
    ∃ below, components rules part = .volume text :: below ∧ .rootDir ∉ below := by
  have hhead := @head_not_isSeparator rules _ hslash hback
  refine ⟨(if (rest.splitOnP rules.isSeparator).head? = some ['.'] then [.curDir] else []) ++
    (rest.splitOnP rules.isSeparator).filterMap partComponent, ?_, fun hmem => ?_⟩
  · rw [components, hvolume]
    simp only [hhead, Bool.false_eq_true, if_false, List.cons_append, List.nil_append]
  · rcases List.mem_append.mp hmem with hmem | hmem
    · split_ifs at hmem <;> simp at hmem
    · obtain ⟨part, _, hpart⟩ := List.mem_filterMap.mp hmem
      rw [partComponent] at hpart
      split_ifs at hpart <;> simp at hpart

/-- A name without separators and without a volume is one component. -/
theorem components_of_name {rules : Rules} {part : List Char} (hne : part ≠ []) (hdot : part ≠ ['.'])
    (hdots : part ≠ ['.', '.']) (hslash : '/' ∉ part) (hback : '\\' ∉ part)
    (hvolume : rules.splitVolume part = ([], part)) : components rules part = [.normal part] := by
  have hparts : part.splitOnP rules.isSeparator = [part] := splitOnP_eq_singleton hslash hback
  have hhead := @head_not_isSeparator rules _ hslash hback
  rw [components, hvolume]
  simp only [hparts, hhead, Bool.false_eq_true, if_false, List.head?_cons, Option.some_inj, hdot]
  simp [partComponent, hne, hdot, hdots]

namespace PlainName

variable {part : List Char} (h : PlainName part)

include h

theorem splitVolume_eq (rules : Rules) : rules.splitVolume part = ([], part) := by
  cases rules with
  | unix => exact splitVolume_unix part
  | windows => exact h.noVolume

/-- A plain name is one component. -/
theorem components_eq (rules : Rules) : components rules part = [.normal part] :=
  components_of_name h.ne_nil h.ne_dot h.ne_dots h.noSeparator.1 h.noSeparator.2 (h.splitVolume_eq rules)

end PlainName

/-- Pushing a name appends it. -/
theorem push_normal (base : List Component) (name : List Char) :
    push base [.normal name] = base ++ [.normal name] := by
  by_cases hbase : base = []
  · subst hbase
    rfl
  · simp [push, hbase]

theorem push_names (base : List Component) {names : List (List Char)} (hne : names ≠ []) :
    push base (names.map .normal) = base ++ names.map .normal := by
  obtain ⟨name, names, rfl⟩ := List.exists_cons_of_ne_nil hne
  by_cases hbase : base = []
  · subst hbase
    rfl
  · simp only [push, List.map_cons, if_neg hbase]
    rw [List.filter_eq_self.mpr]
    intro c hc
    rw [← List.map_cons] at hc
    obtain ⟨n, _, rfl⟩ := List.mem_map.mp hc
    simp

/-- **Plain names are appended**, under both rules and onto any directory. -/
theorem pushAll_plain (rules : Rules) (base : List Component) {parts : List (List Char)}
    (h : ∀ part ∈ parts, PlainName part) : pushAll rules base parts = base ++ parts.map .normal := by
  induction parts generalizing base with
  | nil => simp [pushAll]
  | cons part parts ih =>
    have hpart : push base (components rules part) = base ++ [.normal part] := by
      rw [(h part (by simp)).components_eq rules, push_normal]
    rw [pushAll, List.foldl_cons, hpart]
    have hrest := ih (base ++ [.normal part]) fun p hp => h p (by simp [hp])
    rw [pushAll] at hrest
    rw [hrest]
    simp

end LexicalPath
