/-
Declarations of an npm lockfile entry and what they select.

A section is read into requirements by name; a declaration selects the nearest
placement when that is a package that meets its requirement.  Entry points of
a manifest leave linked members out first.

* `get?_of_requirements` — what reading a section yields;
* `edge_eq_ok`, `SelectedBy` — what an edge is;
* `declared_of_resolveSections` — the sections after linked members have left;
* `entryRoots_eq_ok` — the entry points of a manifest.
-/
import Tapid.NpmGraph

namespace Tapid

open Text Fallible Loop

namespace Npm

/-! ### Declared requirements -/

/-- A dependency section of an entry. -/
def sectionOf (entry : JsonMap) (field : String) : JsonMap :=
  ((entry.get? field).bind Json.asObject).getD ∅

/-- A requirement by its declaration. -/
def requirementOf (name : String) (value : Json) : Option Requirement :=
  (PackageName.parse name).toOption.bind fun _ =>
    value.asStr.bind fun raw => (Requirement.fromStr raw).toOption

/-- The requirement a section declares for a name. -/
def declared (entry : JsonMap) (field name : String) : Option Requirement :=
  ((sectionOf entry field).get? name).bind (requirementOf name)

theorem toOption_eq_some {ε α : Type} {x : Except ε α} {a : α} : x.toOption = some a ↔ x = .ok a := by
  cases x <;> simp [Except.toOption]

theorem readRequirement_eq_ok {field loc identity : String} {e : String × Json}
    {r : String × Requirement} :
    readRequirement field loc identity e = .ok r ↔ r.1 = e.1 ∧ requirementOf e.1 e.2 = some r.2 := by
  obtain ⟨n, req⟩ := r
  simp only [readRequirement, requirementOf, bind_eq_ok, mapError_eq_ok, orError_eq_ok, pure_eq_ok,
    Option.bind_eq_some_iff, toOption_eq_some, Prod.mk.injEq]
  constructor
  · rintro ⟨p, hp, raw, hraw, req', hreq, rfl, rfl⟩
    exact ⟨rfl, p, hp, raw, hraw, hreq⟩
  · rintro ⟨rfl, p, hp, raw, hraw, hreq⟩
    exact ⟨p, hp, raw, hraw, req, hreq, rfl, rfl⟩

/-- Reading a list of declarations reads each of them. -/
theorem mapM_readRequirement {field loc identity : String} {l : List (String × Json)}
    {r : List (String × Requirement)} (h : l.mapM (readRequirement field loc identity) = .ok r) :
    r.map Prod.fst = l.map Prod.fst ∧
      (∀ e ∈ l, ∃ req, requirementOf e.1 e.2 = some req ∧ (e.1, req) ∈ r) := by
  induction l generalizing r with
  | nil =>
    rw [List.mapM_nil] at h
    obtain rfl := pure_eq_ok.mp h
    simp
  | cons e l ih =>
    simp only [List.mapM_cons, bind_eq_ok, pure_eq_ok] at h
    obtain ⟨a, ha, r, hr, rfl⟩ := h
    obtain ⟨hname, hreq⟩ := readRequirement_eq_ok.mp ha
    obtain ⟨hkeys, hall⟩ := ih hr
    refine ⟨by simp [hkeys, hname], fun e' he' => ?_⟩
    rcases List.mem_cons.mp he' with rfl | he'
    · exact ⟨a.2, hreq, by rw [← hname]; exact List.mem_cons_self⟩
    · obtain ⟨req, hreq, hmem⟩ := hall e' he'
      exact ⟨req, hreq, List.mem_cons_of_mem _ hmem⟩

/-- What is read from a section are its declared requirements. -/
theorem get?_of_requirements {entry : JsonMap} {field loc identity : String}
    {m : OrdMap String Requirement} (h : requirements entry field loc identity = .ok m) :
    (∀ name, m.get? name = declared entry field name) ∧
      ∀ name value, (sectionOf entry field).get? name = some value →
        ∃ req, requirementOf name value = some req := by
  rw [requirements] at h
  cases hfield : entry.get? field with
  | none =>
    rw [hfield] at h
    obtain rfl := Except.ok.inj h
    have hsection : sectionOf entry field = ∅ := by rw [sectionOf, hfield]; rfl
    refine ⟨fun name => ?_, fun name value hget => ?_⟩
    · rw [declared, hsection]
      rfl
    · rw [hsection] at hget
      simp at hget
  | some value =>
    rw [hfield] at h
    simp only [bind_eq_ok, object, orError_eq_ok, pure_eq_ok] at h
    obtain ⟨d, hd, r, hr, rfl⟩ := h
    have hsection : sectionOf entry field = d := by simp [sectionOf, hfield, hd]
    obtain ⟨hkeys, hall⟩ := mapM_readRequirement hr
    have hnd : (r.map Prod.fst).Nodup := hkeys ▸ d.nodup_keys
    refine ⟨fun name => ?_, fun name value hget => ?_⟩
    · rw [declared, hsection]
      cases hget : d.get? name with
      | none =>
        have hnot : name ∉ r.map Prod.fst := by
          rw [hkeys]
          exact OrdMap.not_mem_keys hget
        rw [OrdMap.ofList, OrdMap.get?_insertAll_of_not_mem _ hnot]
        rfl
      | some j =>
        obtain ⟨req, hreq, hmem⟩ := hall _ (OrdMap.mem_entries.mpr hget)
        show _ = requirementOf name j
        rw [hreq, OrdMap.ofList, OrdMap.get?_insertAll_of_mem _ hnd hmem]
    · rw [hsection] at hget
      obtain ⟨req, hreq, _⟩ := hall _ (OrdMap.mem_entries.mpr hget)
      exact ⟨req, hreq⟩

/-! ### Edges -/

/-- A package that a lookup finds and that meets the requirement. -/
structure Chosen (packages : OrdMap String ImportedNpmPackage) (parent name : String)
    (requirement : Requirement) (peer : Bool) (target : String) : Prop where
  found : lookup packages parent name peer = some target
  meets : ∃ declared selected, PackageName.parse name = .ok declared ∧
    packages.get? target = some selected ∧ satisfies requirement declared selected = true

theorem edge_eq_ok {packages : OrdMap String ImportedNpmPackage} {parent name : String}
    {requirement : Requirement} {peer optional : Bool} {loc : String} {o : Option String}
    (h : edge packages parent name requirement peer optional loc = .ok o) :
    (o = none ∧ lookup packages parent name peer = none) ∨
      ∃ target, o = some target ∧ Chosen packages parent name requirement peer target := by
  rw [edge] at h
  cases hl : lookup packages parent name peer with
  | none =>
    rw [hl] at h
    simp only at h
    split_ifs at h
    exact Or.inl ⟨(Except.ok.inj h).symm, rfl⟩
  | some target =>
    rw [hl] at h
    simp only [bind_eq_ok, rejectIf_eq_ok, pure_eq_ok] at h
    obtain ⟨_, haccepted, rfl⟩ := h
    refine Or.inr ⟨target, rfl, hl, ?_⟩
    cases hget : packages.get? target with
    | none => simp [hget] at haccepted
    | some selected =>
      cases hname : PackageName.parse name with
      | error err => simp [hget, hname] at haccepted
      | ok declared =>
        refine ⟨declared, selected, rfl, rfl, ?_⟩
        simpa [hget, hname] using haccepted

/-- Every declaration is searched, and what it selects is collected. -/
theorem collectTargets_eq_ok {find : String → Requirement → Except ImportError (Option String)}
    {m : OrdMap String Requirement} {targets : OrdMap String String}
    (h : collectTargets find m = .ok targets) :
    (∀ name requirement, m.get? name = some requirement →
      find name requirement = .ok (targets.get? name)) ∧
      ∀ name, m.get? name = none → targets.get? name = none := by
  rw [collectTargets] at h
  obtain ⟨-, hall, hrest⟩ := foldlM_keyed (I := fun _ => True) (k := Prod.fst)
    (v := fun s i => OrdMap.get? s i)
    (R := fun e before after => before = none → find e.1 e.2 = .ok after)
    (fun s e s' _ hs => by
      simp only [bind_eq_ok, pure_eq_ok] at hs
      obtain ⟨o, ho, rfl⟩ := hs
      refine ⟨trivial, fun hnone => ?_, fun k hk => ?_⟩
      · cases o with
        | none => rw [ho, hnone]
        | some target => rw [ho, OrdMap.get?_insert_self]
      · cases o with
        | none => rfl
        | some target => exact OrdMap.get?_insert_of_ne _ _ hk)
    trivial m.nodup_keys h
  refine ⟨fun name requirement hget => hall _ (OrdMap.mem_entries.mpr hget) rfl, fun name hnone => ?_⟩
  rw [hrest name (OrdMap.not_mem_keys hnone)]
  rfl

/-! ### Local dependencies -/

theorem sectionOf_dropName (entry : JsonMap) (field field' name : String) :
    sectionOf (dropName entry field name) field' =
      if field' = field then (sectionOf entry field).erase name else sectionOf entry field' := by
  rw [dropName]
  cases hfield : (entry.get? field).bind Json.asObject with
  | none =>
    have hsection : sectionOf entry field = ∅ := by rw [sectionOf, hfield]; rfl
    by_cases hne : field' = field
    · subst hne
      rw [if_pos rfl]
      show sectionOf entry field' = _
      rw [hsection]
      rfl
    · rw [if_neg hne]
  | some d =>
    have hsection : sectionOf entry field = d := by rw [sectionOf, hfield]; rfl
    by_cases hne : field' = field
    · subst hne
      rw [if_pos rfl, sectionOf, OrdMap.get?_insert_self, hsection]
      exact OrdMap.insertAll_of_entries _
    · rw [if_neg hne, sectionOf, OrdMap.get?_insert_of_ne _ _ hne, sectionOf]

/-- The sections a local dependency of a section leaves. -/
def Affects (field field' : String) : Prop :=
  field' = field ∨ (field = "optionalDependencies" ∧ field' = "dependencies") ∨
    (field = "peerDependencies" ∧ field' = "peerDependenciesMeta")

theorem get?_sectionOf_dropLocal_self (entry : JsonMap) {field field' : String} (name : String)
    (h : Affects field field') : (sectionOf (dropLocal entry field name) field').get? name = none := by
  rw [dropLocal]
  rcases h with rfl | ⟨rfl, rfl⟩ | ⟨rfl, rfl⟩
  · split_ifs <;> simp_all [sectionOf_dropName, OrdMap.get?_erase]
  · simp [sectionOf_dropName, OrdMap.get?_erase]
  · simp [sectionOf_dropName, OrdMap.get?_erase]

theorem get?_sectionOf_dropLocal_of_not (entry : JsonMap) {field field' : String} (name : String)
    (h : ¬ Affects field field') :
    sectionOf (dropLocal entry field name) field' = sectionOf entry field' := by
  rw [Affects, not_or, not_or] at h
  rw [dropLocal]
  split_ifs <;> simp_all [sectionOf_dropName]

theorem get?_sectionOf_dropLocal_of_ne (entry : JsonMap) {field field' name name' : String}
    (h : name' ≠ name) :
    (sectionOf (dropLocal entry field name) field').get? name' = (sectionOf entry field').get? name' := by
  have hdrop : ∀ (entry : JsonMap) (field : String),
      (sectionOf (dropName entry field name) field').get? name' = (sectionOf entry field').get? name' := by
    intro entry field
    rw [sectionOf_dropName]
    split_ifs with hf
    · rw [OrdMap.get?_erase, if_neg h, hf]
    · rfl
  rw [dropLocal]
  split_ifs <;> simp only [hdrop]

section Local

variable {placements : OrdMap String Unit} {workspaces : OrdMap String JsonMap}
  {links : OrdMap String String} {entry : JsonMap} {parent : String}

/-- A declaration that is taken up by the optional one of the same name. -/
def Overridden (entry : JsonMap) (field name : String) : Prop :=
  field = "dependencies" ∧ (sectionOf entry "optionalDependencies").contains name = true

theorem resolveLocal_eq_ok {field : String} {root root' : JsonMap} {e : String × Requirement}
    (h : resolveLocal placements workspaces links entry parent field root e = .ok root') :
    (Overridden entry field e.1 ∨
      linkedMember placements workspaces links parent e.1 field = none) ∧ root' = root ∨
    ¬ Overridden entry field e.1 ∧
      (linkedMember placements workspaces links parent e.1 field).isSome = true ∧
      root' = dropLocal root field e.1 := by
  have hover : (field == "dependencies" &&
      ((entry.get? "optionalDependencies").bind Json.asObject).any (·.contains e.1)) = true ↔
      Overridden entry field e.1 := by
    rw [Overridden, sectionOf, Bool.and_eq_true, beq_iff_eq]
    cases (entry.get? "optionalDependencies").bind Json.asObject with
    | none => simp [OrdMap.contains]
    | some d => rfl
  rw [resolveLocal] at h
  split_ifs at h with hskip
  · exact Or.inl ⟨Or.inl (hover.mp hskip), (Except.ok.inj h).symm⟩
  · cases hl : linkedMember placements workspaces links parent e.1 field with
    | none =>
      rw [hl] at h
      exact Or.inl ⟨Or.inr rfl, (Except.ok.inj h).symm⟩
    | some member =>
      rw [hl] at h
      simp only [bind_eq_ok, pure_eq_ok] at h
      obtain ⟨_, _, rfl⟩ := h
      exact Or.inr ⟨fun hov => hskip (hover.mpr hov), rfl, rfl⟩

/-- A section after its local dependencies have left. -/
theorem get?_of_resolveSection {field : String} {root root' : JsonMap}
    (h : resolveSection placements workspaces links entry parent root field = .ok root')
    (field' name : String) :
    ((declared entry field name).isSome = true ∧ ¬ Overridden entry field name ∧
        (linkedMember placements workspaces links parent name field).isSome = true ∧
        Affects field field' → (sectionOf root' field').get? name = none) ∧
      (¬ ((declared entry field name).isSome = true ∧ ¬ Overridden entry field name ∧
        (linkedMember placements workspaces links parent name field).isSome = true ∧
        Affects field field') → (sectionOf root' field').get? name = (sectionOf root field').get? name) := by
  rw [resolveSection] at h
  simp only [bind_eq_ok] at h
  obtain ⟨m, hm, h⟩ := h
  obtain ⟨hget, _⟩ := get?_of_requirements hm
  obtain ⟨-, hall, hrest⟩ := foldlM_keyed (I := fun _ => True) (k := Prod.fst)
    (v := fun (root : JsonMap) name => (sectionOf root field').get? name)
    (R := fun e before after =>
      (¬ Overridden entry field e.1 ∧
        (linkedMember placements workspaces links parent e.1 field).isSome = true ∧
        Affects field field' → after = none) ∧
      (¬ (¬ Overridden entry field e.1 ∧
        (linkedMember placements workspaces links parent e.1 field).isSome = true ∧
        Affects field field') → after = before))
    (fun s e s' _ hs => by
      refine ⟨trivial, ?_⟩
      rcases resolveLocal_eq_ok hs with ⟨hkeep, rfl⟩ | ⟨hover, hlinked, rfl⟩
      · refine ⟨⟨?_, fun _ => rfl⟩, fun _ _ => rfl⟩
        rintro ⟨hover, hlinked, _⟩
        rcases hkeep with hkeep | hkeep
        · exact absurd hkeep hover
        · rw [hkeep] at hlinked
          exact absurd hlinked (by simp)
      · refine ⟨⟨fun hc => get?_sectionOf_dropLocal_self _ _ hc.2.2, fun hc => ?_⟩, fun i hi =>
          get?_sectionOf_dropLocal_of_ne _ hi⟩
        rw [get?_sectionOf_dropLocal_of_not _ _ fun ha => hc ⟨hover, hlinked, ha⟩])
    trivial m.nodup_keys h
  cases hdecl : declared entry field name with
  | none =>
    have hnot : name ∉ m.keys := OrdMap.not_mem_keys ((hget name).trans hdecl)
    exact ⟨fun hc => absurd hc.1 (by simp), fun _ => hrest name hnot⟩
  | some requirement =>
    have hmem : (name, requirement) ∈ m.entries := OrdMap.mem_entries.mpr (by rw [hget, hdecl])
    obtain ⟨hgone, hkept⟩ := hall _ hmem
    exact ⟨fun hc => hgone hc.2, fun hc => hkept fun hc' => hc ⟨rfl, hc'⟩⟩

/-- Whether a declaration selects a link. -/
def Linked (placements : OrdMap String Unit) (workspaces : OrdMap String JsonMap)
    (links : OrdMap String String) (parent name field : String) : Prop :=
  (linkedMember placements workspaces links parent name field).isSome = true

instance Linked.decidable (placements : OrdMap String Unit) (workspaces : OrdMap String JsonMap)
    (links : OrdMap String String) (parent name field : String) :
    Decidable (Linked placements workspaces links parent name field) :=
  inferInstanceAs (Decidable (_ = true))

/-- Sections that are not affected declare what they declared. -/
theorem declared_of_resolveSection_of_not {field : String} {root root' : JsonMap}
    (h : resolveSection placements workspaces links entry parent root field = .ok root')
    (field' name : String) (hnot : ¬ ((declared entry field name).isSome = true ∧ ¬ Overridden entry field name ∧
      Linked placements workspaces links parent name field ∧ Affects field field')) :
    declared root' field' name = declared root field' name := by
  rw [declared, (get?_of_resolveSection h field' name).2 hnot, declared]

theorem declared_of_resolveSection_of_linked {field field' name : String} {root root' : JsonMap}
    (h : resolveSection placements workspaces links entry parent root field = .ok root')
    (hdecl : (declared entry field name).isSome = true) (hover : ¬ Overridden entry field name)
    (hl : Linked placements workspaces links parent name field) (ha : Affects field field') :
    declared root' field' name = none := by
  rw [declared, (get?_of_resolveSection h field' name).1 ⟨hdecl, hover, hl, ha⟩]
  rfl

/-- The section itself keeps what is not linked. -/
theorem declared_of_resolveSection_self {field name : String} {root root' : JsonMap}
    (h : resolveSection placements workspaces links entry parent root field = .ok root')
    (hover : ¬ Overridden entry field name) (hroot : declared root field name = declared entry field name) :
    declared root' field name =
      if Linked placements workspaces links parent name field then none
      else declared entry field name := by
  split_ifs with hl
  · by_cases hdecl : (declared entry field name).isSome = true
    · exact declared_of_resolveSection_of_linked h hdecl hover hl (Or.inl rfl)
    · rw [declared_of_resolveSection_of_not h _ _ fun hc => hdecl hc.1, hroot]
      exact Option.not_isSome_iff_eq_none.mp hdecl
  · rw [declared_of_resolveSection_of_not h _ _ fun hc => hl hc.2.2.1, hroot]

/-- **After the local dependencies have left**, a section declares what it
declared, up to what is linked. -/
theorem declared_of_resolveSections {root : JsonMap}
    (h : sections.foldlM (resolveSection placements workspaces links entry parent) entry = .ok root)
    {field : String} (hfield : field ∈ sections) (name : String) :
    declared root field name =
      if Linked placements workspaces links parent name field then none
      else declared entry field name := by
  rw [sections] at h hfield
  simp only [foldlM_cons_eq_ok, List.foldlM_nil, pure_eq_ok] at h
  obtain ⟨r1, h1, r2, h2, r3, h3, r4, h4, rfl⟩ := h
  simp only [List.mem_cons, List.not_mem_nil, or_false] at hfield
  rcases hfield with rfl | rfl | rfl | rfl
  · -- regular dependencies leave with their own section or with the optional one
    have hlinked : Linked placements workspaces links parent name "optionalDependencies" ↔
        Linked placements workspaces links parent name "dependencies" := Iff.rfl
    have h2 : declared r2 "dependencies" name = declared r1 "dependencies" name :=
      declared_of_resolveSection_of_not h2 _ _ (by simp [Affects])
    have hlast : declared r3 "dependencies" name = if
        (declared entry "optionalDependencies" name).isSome = true ∧
          Linked placements workspaces links parent name "dependencies" then none
        else declared r1 "dependencies" name := by
      split_ifs with hc
      · exact declared_of_resolveSection_of_linked h3 hc.1 (by simp [Overridden]) hc.2
          (Or.inr (Or.inl ⟨rfl, rfl⟩))
      · rw [declared_of_resolveSection_of_not h3 _ _ fun hcond => hc ⟨hcond.1, hlinked.mp hcond.2.2.1⟩, h2]
    rw [declared_of_resolveSection_of_not h4 _ _ (by simp [Affects]), hlast]
    by_cases hover : Overridden entry "dependencies" name
    · rw [declared_of_resolveSection_of_not h1 _ _ fun hc => hc.2.1 hover]
      have hdecl : (declared entry "optionalDependencies" name).isSome = true := by
        obtain ⟨value, hvalue⟩ := OrdMap.contains_eq_true.mp hover.2
        rw [resolveSection] at h3
        simp only [bind_eq_ok] at h3
        obtain ⟨m, hm, _⟩ := h3
        obtain ⟨req, hreq⟩ := (get?_of_requirements hm).2 name value hvalue
        rw [declared, hvalue]
        exact Option.isSome_iff_exists.mpr ⟨req, hreq⟩
      simp [hdecl]
    · rw [declared_of_resolveSection_self h1 hover rfl]
      by_cases hl : Linked placements workspaces links parent name "dependencies" <;> simp [hl]
  · have h1 := declared_of_resolveSection_of_not h1 "devDependencies" name
      (by simp [Affects])
    rw [declared_of_resolveSection_of_not h4 _ _ (by simp [Affects]),
      declared_of_resolveSection_of_not h3 _ _ (by simp [Affects]),
      declared_of_resolveSection_self h2 (by simp [Overridden]) h1]
  · have h1 := declared_of_resolveSection_of_not h1 "optionalDependencies" name
      (by simp [Affects])
    have h2 := declared_of_resolveSection_of_not h2 "optionalDependencies" name
      (by simp [Affects])
    rw [declared_of_resolveSection_of_not h4 _ _ (by simp [Affects]),
      declared_of_resolveSection_self h3 (by simp [Overridden]) (h2.trans h1)]
  · have h1 := declared_of_resolveSection_of_not h1 "peerDependencies" name
      (by simp [Affects])
    have h2 := declared_of_resolveSection_of_not h2 "peerDependencies" name
      (by simp [Affects])
    have h3 := declared_of_resolveSection_of_not h3 "peerDependencies" name
      (by simp [Affects])
    exact declared_of_resolveSection_self h4 (by simp [Overridden]) (h3.trans (h2.trans h1))

end Local

/-! ### Entry points -/

/-- The requirement the regular sections of a manifest declare for a name;
optional declarations replace the others. -/
def regularRequirement (entry : JsonMap) (name : String) : Option Requirement :=
  (declared entry "optionalDependencies" name).or
    ((declared entry "devDependencies" name).or (declared entry "dependencies" name))

theorem get?_of_mergeDev {packages : OrdMap String ImportedNpmPackage} {parent : String}
    {dependencies development required : OrdMap String Requirement}
    (h : development.entries.foldlM (mergeDev packages parent) dependencies = .ok required)
    (name : String) : required.get? name = (development.get? name).or (dependencies.get? name) := by
  obtain ⟨-, hall, hrest⟩ := foldlM_keyed (I := fun _ => True) (k := Prod.fst)
    (v := fun (s : OrdMap String Requirement) i => s.get? i)
    (R := fun e _ after => after = some e.2)
    (fun s e s' _ hs => by
      have hs' : s' = s.insert e.1 e.2 := by
        rw [mergeDev] at hs
        cases hget : s.get? e.1 with
        | none =>
          rw [hget] at hs
          exact (pure_eq_ok.mp hs).symm
        | some previous =>
          rw [hget] at hs
          simp only [bind_eq_ok, pure_eq_ok] at hs
          obtain ⟨_, _, _, _, rfl⟩ := hs
          rfl
      rw [hs']
      exact ⟨trivial, OrdMap.get?_insert_self _ _ _, fun i hi => OrdMap.get?_insert_of_ne _ _ hi⟩)
    trivial development.nodup_keys h
  cases hdev : development.get? name with
  | none => exact hrest name (OrdMap.not_mem_keys hdev)
  | some requirement => exact hall _ (OrdMap.mem_entries.mpr hdev)

theorem addPeerRoot_eq_ok {packages : OrdMap String ImportedNpmPackage} {parent : String}
    {optional : OrdSet String} {points points' : ImportedNpmEntryPoints} {e : String × Requirement}
    (h : addPeerRoot packages parent optional points e = .ok points') : ∃ o,
      edge packages parent e.1 e.2 true (e.1 ∈ optional)
        (pointer (pointer "/packages" parent) "peerDependencies") = .ok o ∧
      points'.dependencies.get? e.1 = (points.dependencies.get? e.1).or o ∧
      ∀ i, i ≠ e.1 → points'.dependencies.get? i = points.dependencies.get? i := by
  rw [addPeerRoot] at h
  simp only [bind_eq_ok, pure_eq_ok] at h
  obtain ⟨o, ho, rfl⟩ := h
  refine ⟨o, ho, ?_⟩
  cases o with
  | none => exact ⟨by simp, fun _ _ => rfl⟩
  | some target =>
    cases hget : points.dependencies.get? e.1 with
    | some t =>
      have hc : points.dependencies.contains e.1 = true := OrdMap.contains_eq_true.mpr ⟨t, hget⟩
      refine ⟨?_, fun i _ => ?_⟩
      · simp [hc, hget]
      · simp [hc]
    | none =>
      have hc : ¬ points.dependencies.contains e.1 = true := by
        rw [Bool.not_eq_true, OrdMap.contains_eq_false]
        exact hget
      refine ⟨?_, fun i hi => ?_⟩
      · simp [hc]
      · simp only [if_neg hc]
        exact OrdMap.get?_insert_of_ne _ _ hi

/-- What a declaration, if there is one, has selected. -/
def SelectedBy (packages : OrdMap String ImportedNpmPackage) (parent name : String)
    (requirement : Option Requirement) (peer : Bool) (selected : Option String) : Prop :=
  (selected = none ∧ (requirement ≠ none → lookup packages parent name peer = none)) ∨
    ∃ req target, requirement = some req ∧ selected = some target ∧
      Chosen packages parent name req peer target

theorem SelectedBy.of_edge {packages : OrdMap String ImportedNpmPackage} {parent name : String}
    {requirement : Requirement} {peer optional : Bool} {loc : String} {o : Option String}
    (h : edge packages parent name requirement peer optional loc = .ok o) :
    SelectedBy packages parent name (some requirement) peer o := by
  rcases edge_eq_ok h with ⟨rfl, hnone⟩ | ⟨target, rfl, hchosen⟩
  · exact Or.inl ⟨rfl, fun _ => hnone⟩
  · exact Or.inr ⟨requirement, target, rfl, rfl, hchosen⟩

theorem SelectedBy.of_none {packages : OrdMap String ImportedNpmPackage} {parent name : String}
    {peer : Bool} : SelectedBy packages parent name none peer none :=
  Or.inl ⟨rfl, fun h => absurd rfl h⟩

theorem SelectedBy.of_some {packages : OrdMap String ImportedNpmPackage} {parent name : String}
    {requirement : Option Requirement} {peer : Bool} {target : String}
    (h : SelectedBy packages parent name requirement peer (some target)) :
    ∃ req, requirement = some req ∧ Chosen packages parent name req peer target := by
  rcases h with ⟨hnone, _⟩ | ⟨req, target', hreq, htarget, hchosen⟩
  · simp at hnone
  · obtain rfl := Option.some_inj.mp htarget
    exact ⟨req, hreq, hchosen⟩

/-- Peers are added where no regular entry point stands. -/
theorem get?_of_addPeerRoot {packages : OrdMap String ImportedNpmPackage} {parent : String}
    {optional : OrdSet String} {peers : OrdMap String Requirement} {start points : ImportedNpmEntryPoints}
    (h : peers.entries.foldlM (addPeerRoot packages parent optional) start = .ok points) (name : String) :
    ∃ o, points.dependencies.get? name = (start.dependencies.get? name).or o ∧
      SelectedBy packages parent name (peers.get? name) true o := by
  obtain ⟨-, hall, hrest⟩ := foldlM_keyed (I := fun _ => True) (k := Prod.fst)
    (v := fun (s : ImportedNpmEntryPoints) i => s.dependencies.get? i)
    (R := fun e before after => ∃ o, after = before.or o ∧
      SelectedBy packages parent e.1 (some e.2) true o)
    (fun s e s' _ hs => by
      obtain ⟨o, ho, hself, hframe⟩ := addPeerRoot_eq_ok hs
      exact ⟨trivial, ⟨o, hself, SelectedBy.of_edge ho⟩, hframe⟩)
    trivial peers.nodup_keys h
  cases hget : peers.get? name with
  | some requirement => exact hall _ (OrdMap.mem_entries.mpr hget)
  | none =>
    refine ⟨none, ?_, SelectedBy.of_none⟩
    rw [Option.or_none]
    exact hrest name (OrdMap.not_mem_keys hget)

theorem SelectedBy.of_collectTargets {packages : OrdMap String ImportedNpmPackage} {parent : String}
    {find : String → Requirement → Except ImportError (Option String)} {peer : Bool}
    {m : OrdMap String Requirement} {targets : OrdMap String String}
    (h : collectTargets find m = .ok targets)
    (hfind : ∀ name requirement o, find name requirement = .ok o →
      SelectedBy packages parent name (some requirement) peer o) (name : String) :
    SelectedBy packages parent name (m.get? name) peer (targets.get? name) := by
  obtain ⟨hcollect, hnone⟩ := collectTargets_eq_ok h
  cases hget : m.get? name with
  | none =>
    rw [hnone name hget]
    exact SelectedBy.of_none
  | some requirement => exact hfind _ _ _ (hcollect name requirement hget)

section EntryRoots

variable {entry : JsonMap} {parent : String} {packages : OrdMap String ImportedNpmPackage}
  {workspaces : OrdMap String JsonMap} {links : OrdMap String String}

/-- A declaration that does not select a link. -/
def unlinked (packages : OrdMap String ImportedNpmPackage) (workspaces : OrdMap String JsonMap)
    (links : OrdMap String String) (parent name field : String) (requirement : Option Requirement) :
    Option Requirement :=
  if Linked (placements packages links) workspaces links parent name field then none else requirement

/-- **Entry points of a manifest**: what the regular sections select, and what
the peers select where these select nothing. -/
theorem entryRoots_eq_ok {points : ImportedNpmEntryPoints}
    (h : entryRoots entry parent packages workspaces links = .ok points) (name : String) :
    ∃ regular peer : Option String,
      points.dependencies.get? name = regular.or peer ∧
      SelectedBy packages parent name (unlinked packages workspaces links parent name "dependencies"
        (regularRequirement entry name)) false regular ∧
      SelectedBy packages parent name (unlinked packages workspaces links parent name "peerDependencies"
        (declared entry "peerDependencies" name)) true peer := by
  simp only [entryRoots, bind_eq_ok] at h
  obtain ⟨_, _, _, _, root, hroot, deps, hdeps, dev, hdev, required, hrequired, optional, hoptional,
    roots, hroots, peers, hpeers, optionalPeers, _, hpoints⟩ := h
  have hdecl : ∀ field ∈ sections, declared root field name =
      unlinked packages workspaces links parent name field (declared entry field name) :=
    fun field hf => declared_of_resolveSections hroot hf name
  have hregular : (required.insertAll optional.entries).get? name =
      unlinked packages workspaces links parent name "dependencies" (regularRequirement entry name) := by
    have hdev' : declared root "devDependencies" name = unlinked packages workspaces links parent name
        "dependencies" (declared entry "devDependencies" name) := hdecl _ (by simp [sections])
    have hoptional' : declared root "optionalDependencies" name = unlinked packages workspaces links
        parent name "dependencies" (declared entry "optionalDependencies" name) :=
      hdecl _ (by simp [sections])
    rw [OrdMap.get?_insertAll, OrdMap.insertAll_of_entries, get?_of_mergeDev hrequired,
      (get?_of_requirements hdeps).1, (get?_of_requirements hdev).1, (get?_of_requirements hoptional).1,
      hdecl "dependencies" (by simp [sections]), hdev', hoptional', regularRequirement]
    unfold unlinked
    split_ifs <;> rfl
  have hregular' := SelectedBy.of_collectTargets hroots (fun _ _ _ ho => SelectedBy.of_edge ho) name
  rw [hregular] at hregular'
  obtain ⟨peer, hget, hpeer⟩ := get?_of_addPeerRoot hpoints name
  rw [(get?_of_requirements hpeers).1, hdecl "peerDependencies" (by simp [sections])] at hpeer
  exact ⟨roots.get? name, peer, hget, hregular', hpeer⟩

end EntryRoots

end Npm

end Tapid
