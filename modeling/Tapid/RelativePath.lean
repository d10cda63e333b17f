/-
Relative link targets.

A link is written with the path from its directory to its target: as many steps
up as the directory has components after the common ones, and then the rest of
the target's components.  Reading such a link from its directory leads to the
target (`normalizeAbsolutePath_join`).

A path is a text of any characters; nothing depends on what a name means, so
that a character may as well stand for a byte.
-/
import Tapid.LexicalPath

namespace LexicalPath

/-! ### Absolute Unix paths -/

/-- A text without separators that is more than dots is one component. -/
theorem components_unix_of_name {part : List Char} (hne : part ≠ []) (hdot : part ≠ ['.'])
    (hdots : part ≠ ['.', '.']) (hslash : '/' ∉ part) : components .unix part = [.normal part] := by
  have hparts : part.splitOnP Rules.unix.isSeparator = [part] :=
    List.splitOnP_eq_singleton fun c hc => beq_false_of_ne fun h => hslash (h ▸ hc)
  have hhead : ¬ part.head?.any Rules.unix.isSeparator = true := by
    intro hany
    obtain ⟨c, hc, hsep⟩ := (Option.any_eq_true _ _).mp hany
    have heq : c = '/' := beq_iff_eq.mp hsep
    exact hslash (heq ▸ List.mem_of_mem_head? hc)
  rw [components, splitVolume_unix]
  simp only [hparts, hhead, Bool.false_eq_true, if_false, List.head?_cons, Option.some_inj, hdot]
  simp [partComponent, hne, hdot, hdots]

/-- What a part stands for reads as itself. -/
theorem components_of_partComponent {part name : List Char} (hslash : '/' ∉ part)
    (h : partComponent part = some (.normal name)) : components .unix name = [.normal name] := by
  unfold partComponent at h
  split_ifs at h with hskip hdots
  · cases h
  · rw [not_or] at hskip
    obtain rfl := Component.normal.inj (Option.some_inj.mp h)
    exact components_unix_of_name hskip.1 hskip.2 hdots hslash

/-- **An absolute path without steps up** is its root and names, each of which
reads as itself. -/
theorem exists_names_of_absolute {path : List Char} (habsolute : (components .unix path).head? = some .rootDir)
    (hparent : Component.parentDir ∉ components .unix path) :
    ∃ names : List (List Char), components .unix path = .rootDir :: names.map .normal ∧
      ∀ name ∈ names, components .unix name = [.normal name] := by
  have hrest : ∀ parts : List (List Char), (∀ part ∈ parts, '/' ∉ part) →
      Component.parentDir ∉ parts.filterMap partComponent →
      ∃ names : List (List Char), parts.filterMap partComponent = names.map .normal ∧
        ∀ name ∈ names, components .unix name = [.normal name] := by
    intro parts hslash hparts
    induction parts with
    | nil => exact ⟨[], rfl, List.forall_mem_nil _⟩
    | cons part parts ih =>
      rw [List.filterMap_cons] at hparts ⊢
      have hslash' := fun p hp => hslash p (List.mem_cons_of_mem _ hp)
      cases hpart : partComponent part with
      | none =>
        rw [hpart] at hparts
        exact ih hslash' hparts
      | some c =>
        rw [hpart] at hparts
        rw [List.mem_cons, not_or] at hparts
        obtain ⟨names, hnames, hread⟩ := ih hslash' hparts.2
        have hnormal : ∃ name, c = .normal name := by
          unfold partComponent at hpart
          split_ifs at hpart
          · exact absurd (Option.some_inj.mp hpart) hparts.1
          · exact ⟨part, (Option.some_inj.mp hpart).symm⟩
        obtain ⟨name, rfl⟩ := hnormal
        refine ⟨name :: names, by rw [hnames, List.map_cons], List.forall_mem_cons.mpr ⟨?_, hread⟩⟩
        exact components_of_partComponent (hslash part List.mem_cons_self) hpart
  have hparts : ∀ part ∈ path.splitOnP Rules.unix.isSeparator, '/' ∉ part := fun part hpart =>
    Text.not_mem_of_mem_splitOn hpart
  have hcomponents : components .unix path =
      (if path.head?.any Rules.unix.isSeparator then [.rootDir]
        else if (path.splitOnP Rules.unix.isSeparator).head? = some ['.'] then [.curDir] else []) ++
      (path.splitOnP Rules.unix.isSeparator).filterMap partComponent := by
    rw [components, splitVolume_unix]
    rfl
  rw [hcomponents] at habsolute hparent ⊢
  rw [List.mem_append, not_or] at hparent
  obtain ⟨names, hnames, hread⟩ := hrest _ hparts hparent.2
  rw [hnames] at habsolute ⊢
  refine ⟨names, ?_, hread⟩
  split_ifs at habsolute ⊢ with hroot hdot
  · rfl
  · cases habsolute
  · cases names with
    | nil => cases habsolute
    | cons name names => cases habsolute

end LexicalPath

namespace Tapid

namespace Links

open LexicalPath

/-! ### Paths between directories -/

/-- `Component::as_os_str`. -/
def asOsStr : Component → List Char
  | .volume text => text
  | .rootDir => ['/']
  | .curDir => ['.']
  | .parentDir => ['.', '.']
  | .normal name => name

/-- The components two paths have in common. -/
def common (source target : List Component) : Nat :=
  ((source.zip target).takeWhile fun pair => pair.1 = pair.2).length

def relativePath (source target : List Char) : List Component :=
  let sourceComponents := components .unix source
  let targetComponents := components .unix target
  let shared := common sourceComponents targetComponents
  let result := pushAll .unix [] (List.replicate (sourceComponents.length - shared) ['.', '.'])
  pushAll .unix result ((targetComponents.drop shared).map asOsStr)

/-- `PathBuf::pop`, by components. -/
def pop (path : List Component) : Option (List Component) :=
  match path.getLast? with
  | some (.normal _) | some .curDir | some .parentDir => some path.dropLast
  | _ => none

/-- One component onto what is normalized before it. -/
def normalizeComponent (normalized : List Component) : Component → Except String (List Component)
  | .volume text => .ok (push normalized (components .unix text))
  | .rootDir => .ok (push normalized (components .unix ['/']))
  | .curDir => .ok normalized
  | .parentDir =>
    match pop normalized with
    | none => .error "workspace shim target escapes its filesystem root"
    | some shorter => .ok shorter
  | .normal part => .ok (push normalized (components .unix part))

def normalizeAbsolutePath (path : List Component) : Except String (List Component) :=
  if path.head? ≠ some .rootDir then .error "workspace shim target is not absolute after joining"
  else path.foldlM normalizeComponent []

/-- An absolute path without steps up; a dot is no component of an absolute path. -/
structure PlainAbsolute (path : List Char) : Prop where
  root : (components .unix path).head? = some .rootDir
  noUp : Component.parentDir ∉ components .unix path

/-! ### What a relative path says -/

theorem common_cons (c : Component) (source target : List Component) :
    common (c :: source) (c :: target) = common source target + 1 := by
  rw [common, List.zip_cons_cons, List.takeWhile_cons_of_pos (by simp), List.length_cons, common]

/-- What two paths have in common is the beginning of both. -/
theorem take_common (source target : List Component) :
    source.take (common source target) = target.take (common source target) ∧
      common source target ≤ source.length := by
  induction source generalizing target with
  | nil => exact ⟨by simp [common], by simp [common]⟩
  | cons c source ih =>
    cases target with
    | nil => exact ⟨by simp [common], by simp [common]⟩
    | cons d target =>
      by_cases heq : c = d
      · subst heq
        obtain ⟨htake, hle⟩ := ih target
        rw [common_cons, List.take_succ_cons, List.take_succ_cons, htake, List.length_cons]
        exact ⟨rfl, Nat.succ_le_succ hle⟩
      · have hzero : common (c :: source) (d :: target) = 0 := by
          rw [common, List.zip_cons_cons, List.takeWhile_cons_of_neg (by simpa using heq), List.length_nil]
        rw [hzero]
        exact ⟨rfl, Nat.zero_le _⟩

theorem push_parentDir (base : List Component) : push base [.parentDir] = base ++ [.parentDir] := by
  by_cases hbase : base = []
  · subst hbase
    rfl
  · simp [push, hbase]

theorem pushAll_replicate (base : List Component) (n : Nat) :
    pushAll .unix base (List.replicate n ['.', '.']) = base ++ List.replicate n .parentDir := by
  induction n generalizing base with
  | zero => exact (List.append_nil base).symm
  | succ n ih =>
    have hstep : push base (components .unix ['.', '.']) = base ++ [.parentDir] := push_parentDir base
    have hrest := ih (base ++ [.parentDir])
    rw [pushAll] at hrest
    rw [pushAll, List.replicate_succ, List.foldl_cons, hstep, hrest, List.append_assoc]
    rfl

/-- Names that read as themselves are appended. -/
theorem pushAll_names (base : List Component) {names : List (List Char)}
    (h : ∀ name ∈ names, components .unix name = [.normal name]) :
    pushAll .unix base names = base ++ names.map .normal := by
  induction names generalizing base with
  | nil => exact (List.append_nil base).symm
  | cons name names ih =>
    have hrest := ih (base ++ [.normal name]) fun n hn => h n (List.mem_cons_of_mem _ hn)
    rw [pushAll] at hrest
    rw [pushAll, List.foldl_cons, h name List.mem_cons_self, push_normal, hrest, List.append_assoc]
    rfl

/-- Steps up and names are joined to a directory by appending them. -/
theorem push_relative {base : List Component} (hbase : base ≠ []) (n : Nat) (names : List (List Char)) :
    push base (List.replicate n .parentDir ++ names.map .normal) =
      base ++ (List.replicate n .parentDir ++ names.map .normal) := by
  have hfilter : (List.replicate n Component.parentDir ++ names.map Component.normal).filter (· ≠ Component.curDir) =
      List.replicate n .parentDir ++ names.map .normal := by
    refine List.filter_eq_self.mpr fun c hc => ?_
    rcases List.mem_append.mp hc with hc | hc
    · rw [List.eq_of_mem_replicate hc]
      rfl
    · obtain ⟨name, _, rfl⟩ := List.mem_map.mp hc
      rfl
  unfold push
  split
  · rename_i text rest hpath
    have hmem : Component.volume text ∈ List.replicate n Component.parentDir ++ names.map .normal := by
      rw [hpath]
      exact List.mem_cons_self
    simp at hmem
  · rename_i rest hpath
    have hmem : Component.rootDir ∈ List.replicate n Component.parentDir ++ names.map .normal := by
      rw [hpath]
      exact List.mem_cons_self
    simp at hmem
  · rw [if_neg hbase, hfilter]

/-! ### Reading a relative path -/

/-- Names are normalized to themselves. -/
theorem normalize_names (base : List Component) {names : List (List Char)}
    (h : ∀ name ∈ names, components .unix name = [.normal name]) :
    (names.map Component.normal).foldlM normalizeComponent base = .ok (base ++ names.map .normal) := by
  induction names generalizing base with
  | nil =>
    rw [List.map_nil, List.append_nil]
    rfl
  | cons name names ih =>
    have hstep : normalizeComponent base (.normal name) = .ok (base ++ [.normal name]) := by
      rw [normalizeComponent, h name List.mem_cons_self, push_normal]
    rw [List.map_cons, List.foldlM_cons, hstep]
    show List.foldlM normalizeComponent (base ++ [.normal name]) (names.map .normal) = _
    rw [ih _ fun n hn => h n (List.mem_cons_of_mem _ hn), List.append_assoc]
    rfl

/-- Steps up take names away. -/
theorem normalize_up (base : List Component) (names : List (List Char)) {n : Nat} (h : n ≤ names.length) :
    (List.replicate n Component.parentDir).foldlM normalizeComponent (base ++ names.map .normal) =
      .ok (base ++ (names.take (names.length - n)).map .normal) := by
  induction n generalizing names with
  | zero =>
    rw [Nat.sub_zero, List.take_length]
    rfl
  | succ n ih =>
    have hne : names ≠ [] := List.ne_nil_of_length_pos (by omega)
    obtain ⟨init, last, rfl⟩ : ∃ init last, names = init ++ [last] :=
      ⟨names.dropLast, names.getLast hne, (List.dropLast_append_getLast hne).symm⟩
    have hsplit : base ++ (init ++ [last]).map .normal = base ++ init.map .normal ++ [.normal last] := by
      rw [List.map_append, List.append_assoc]
      rfl
    have hstep : normalizeComponent (base ++ (init ++ [last]).map .normal) .parentDir =
        .ok (base ++ init.map .normal) := by
      rw [hsplit, normalizeComponent, pop, List.getLast?_concat, List.dropLast_concat]
    have hlength : (init ++ [last]).length - (n + 1) = init.length - n := by
      rw [List.length_append, List.length_singleton]
      omega
    rw [List.length_append, List.length_singleton] at h
    rw [List.replicate_succ, List.foldlM_cons, hstep, hlength, List.take_append_of_le_length (by omega)]
    exact ih init (by omega)

/-- The relative path between absolute ones: steps up, and then names. -/
theorem relativePath_eq {source target : List Char} {below names : List (List Char)}
    (hbelow : components .unix source = .rootDir :: below.map .normal)
    (hnames : components .unix target = .rootDir :: names.map .normal)
    (hread : ∀ name ∈ names, components .unix name = [.normal name]) :
    relativePath source target =
      List.replicate (below.length - common (below.map .normal) (names.map .normal)) .parentDir ++
        (names.drop (common (below.map .normal) (names.map .normal))).map .normal := by
  have htexts : ((names.map Component.normal).drop (common (below.map .normal) (names.map .normal))).map asOsStr =
      names.drop (common (below.map .normal) (names.map .normal)) := by
    rw [← List.map_drop, List.map_map]
    exact List.map_id _
  have hsteps : (Component.rootDir :: below.map .normal).length -
      (common (below.map .normal) (names.map .normal) + 1) =
      below.length - common (below.map .normal) (names.map .normal) := by
    rw [List.length_cons, List.length_map]
    omega
  dsimp only [relativePath]
  rw [hbelow, hnames, common_cons, hsteps, List.drop_succ_cons, htexts, pushAll_replicate, List.nil_append,
    pushAll_names _ fun name hname => hread name (List.mem_of_mem_drop hname)]

/-- **A relative link leads to its target.**  From any directory to any path, the
relative path joined to the directory normalizes to the path; and it is relative. -/
theorem normalizeAbsolutePath_join (source target : List Char) (hsource : PlainAbsolute source)
    (htarget : PlainAbsolute target) :
    normalizeAbsolutePath (push (components .unix source) (relativePath source target)) =
      .ok (components .unix target) ∧ Component.rootDir ∉ relativePath source target := by
  obtain ⟨below, hbelow, hreadBelow⟩ := exists_names_of_absolute hsource.root hsource.noUp
  obtain ⟨names, hnames, hreadNames⟩ := exists_names_of_absolute htarget.root htarget.noUp
  obtain ⟨htake, hle⟩ := take_common (below.map .normal) (names.map .normal)
  have hrelative := relativePath_eq hbelow hnames hreadNames
  generalize common (below.map .normal) (names.map .normal) = k at htake hle hrelative
  rw [List.length_map] at hle
  have hkept : below.length - (below.length - k) = k := by omega
  -- the directory's own names, the steps up from it, and the names of the target after those
  have hroot : normalizeComponent [] .rootDir = .ok [.rootDir] := rfl
  have hdown := normalize_names [.rootDir] hreadBelow
  have hup := @normalize_up [.rootDir] below (below.length - k) (by omega)
  have hrest := @normalize_names ([.rootDir] ++ (below.take k).map .normal) (names.drop k)
    fun name hname => hreadNames name (List.mem_of_mem_drop hname)
  rw [hkept] at hup
  have hsame : (below.take k).map Component.normal = (names.take k).map .normal := by
    rw [List.map_take, List.map_take, htake]
  have hwhole : (names.take k).map Component.normal ++ (names.drop k).map .normal = names.map .normal := by
    rw [← List.map_append, List.take_append_drop]
  have hnoRoot : Component.rootDir ∉ List.replicate (below.length - k) .parentDir ++ (names.drop k).map .normal := by
    intro hmem
    rcases List.mem_append.mp hmem with h | h
    · exact absurd (List.eq_of_mem_replicate h) (by simp)
    · obtain ⟨name, -, hname⟩ := List.mem_map.mp h
      exact absurd hname (by simp)
  rw [hrelative]
  refine ⟨?_, hnoRoot⟩
  rw [hbelow, push_relative (List.cons_ne_nil _ _), hnames, normalizeAbsolutePath, List.cons_append,
    if_neg (by simp), List.foldlM_cons, hroot]
  show List.foldlM normalizeComponent [.rootDir]
    (below.map .normal ++ (List.replicate (below.length - k) .parentDir ++ (names.drop k).map .normal)) = _
  rw [List.foldlM_append, hdown]
  show List.foldlM normalizeComponent ([.rootDir] ++ below.map .normal)
    (List.replicate (below.length - k) .parentDir ++ (names.drop k).map .normal) = _
  rw [List.foldlM_append, hup]
  show List.foldlM normalizeComponent ([.rootDir] ++ (below.take k).map .normal) ((names.drop k).map .normal) = _
  rw [hrest, hsame, List.append_assoc, hwhole]
  rfl

theorem normalizeAbsolutePath_join_sample :
    normalizeAbsolutePath (push (components .unix "/a/node_modules/.bin".toList)
      (relativePath "/a/node_modules/.bin".toList "/a/node_mod//cli.js".toList)) =
      .ok (components .unix "/a/node_mod//cli.js".toList) ∧
    Component.rootDir ∉ relativePath "/a/node_modules/.bin".toList "/a/node_mod//cli.js".toList :=
  normalizeAbsolutePath_join _ _ ⟨by decide +kernel, by decide +kernel⟩ ⟨by decide +kernel, by decide +kernel⟩

end Links

end Tapid
