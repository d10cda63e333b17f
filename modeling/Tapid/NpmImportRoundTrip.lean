/-
Imported npm lockfiles are read back as they were written.

The document of a lockfile is read strictly, so its fields come back in
order; the reading undoes the reordering (`ImportedNpmLockfile.ofValue_sorted`).
Every operation keeps the evidence about placements of the document
(`ImportedNpmLockfile.Recorded`).  What reading checks beyond that is that a
receipt names the tree recorded for its placement, and recording trees does
not look at receipts.

* `ImportedNpmLockfile.fromJson_toJson_iff_receiptsMatch` — a written lockfile
  is read back iff its receipts match its trees;
* `ImportedNpmLockfile.fromJson_toJson_of_keepsReceipts` — it is in every run
  that records no other tree for a placement with a receipt.
-/
import Tapid.LockfileRoundTrip
import Tapid.NpmGraphSound
import Tapid.NpmImport

namespace Tapid

open Text Fallible

/-! ### Strict documents -/

namespace Json

/-- Documents in which the fields of every object are in order. -/
inductive IsStrict : Json → Prop
  | null : IsStrict null
  | bool (b : Bool) : IsStrict (bool b)
  | int (n : Int) : IsStrict (int n)
  | float (text : String) : IsStrict (float text)
  | str (s : String) : IsStrict (str s)
  | arr {items : List Json} (h : ∀ j ∈ items, IsStrict j) : IsStrict (arr items)
  | obj {fields : List (String × Json)} (hsorted : fields.Pairwise fun a b => a.1 < b.1)
      (h : ∀ e ∈ fields, IsStrict e.2) : IsStrict (obj fields)

mutual

theorem isStrict_of_strict : ∀ {j j' : Json}, strict j = .ok j' → IsStrict j'
  | null, j', h => by
    rw [strict] at h
    exact Except.ok.inj h ▸ .null
  | bool b, j', h => by
    rw [strict] at h
    exact Except.ok.inj h ▸ .bool b
  | int n, j', h => by
    rw [strict] at h
    exact Except.ok.inj h ▸ .int n
  | float text, j', h => by
    rw [strict] at h
    exact Except.ok.inj h ▸ .float text
  | str s, j', h => by
    rw [strict] at h
    exact Except.ok.inj h ▸ .str s
  | arr items, j', h => by
    rw [strict, bind_eq_ok] at h
    obtain ⟨items', hitems, h⟩ := h
    obtain rfl := pure_eq_ok.mp h
    exact .arr (isStrict_of_strictItems hitems)
  | obj fields, j', h => by
    rw [strict, bind_eq_ok] at h
    obtain ⟨m, hm, h⟩ := h
    obtain rfl := pure_eq_ok.mp h
    exact .obj m.sorted (isStrict_of_strictFields (m := ∅) (fun e he => absurd he List.not_mem_nil) hm)

theorem isStrict_of_strictItems : ∀ {items items' : List Json}, strictItems items = .ok items' →
    ∀ j ∈ items', IsStrict j
  | [], items', h, j, hj => by
    rw [strictItems] at h
    obtain rfl := Except.ok.inj h
    exact absurd hj List.not_mem_nil
  | item :: items, items', h, j, hj => by
    rw [strictItems, bind_eq_ok] at h
    obtain ⟨first, hfirst, h⟩ := h
    obtain ⟨rest, hrest, h⟩ := bind_eq_ok.mp h
    obtain rfl := pure_eq_ok.mp h
    rcases List.mem_cons.mp hj with rfl | hj
    · exact isStrict_of_strict hfirst
    · exact isStrict_of_strictItems hrest j hj

theorem isStrict_of_strictFields : ∀ {fields : List (String × Json)} {m m' : JsonMap},
    (∀ e ∈ m.entries, IsStrict e.2) → strictFields m fields = .ok m' → ∀ e ∈ m'.entries, IsStrict e.2
  | [], m, m', hm, h, e, he => by
    rw [strictFields] at h
    obtain rfl := Except.ok.inj h
    exact hm e he
  | (key, value) :: fields, m, m', hm, h, e, he => by
    rw [strictFields] at h
    split_ifs at h with hkey
    obtain ⟨value', hvalue, h⟩ := bind_eq_ok.mp h
    refine isStrict_of_strictFields (fun e he => ?_) h e he
    rcases OrdMap.mem_insertEntry he with rfl | he
    · exact isStrict_of_strict hvalue
    · exact hm e he

end

theorem strictItems_eq {items : List Json} (h : ∀ j ∈ items, strict j = .ok j) :
    strictItems items = .ok items := by
  induction items with
  | nil => rfl
  | cons item items ih =>
    rw [strictItems, h item List.mem_cons_self, ok_bind,
      ih fun j hj => h j (List.mem_cons_of_mem _ hj), ok_bind]
    rfl

/-- Reading fields with different names. -/
theorem strictFields_eq {f : Json → Json} {fields : List (String × Json)} {m : JsonMap}
    (hnd : (fields.map Prod.fst).Nodup) (hm : ∀ e ∈ fields, m.get? e.1 = none)
    (hf : ∀ e ∈ fields, strict e.2 = .ok (f e.2)) :
    strictFields m fields = .ok (m.insertAll (fields.map fun e => (e.1, f e.2))) := by
  induction fields generalizing m with
  | nil => rfl
  | cons e fields ih =>
    obtain ⟨key, value⟩ := e
    rw [List.map_cons, List.nodup_cons] at hnd
    have hkey : m.contains key = false := by
      rw [OrdMap.contains, hm (key, value) List.mem_cons_self]
      rfl
    rw [strictFields, if_neg (by rw [hkey]; exact Bool.false_ne_true),
      hf (key, value) List.mem_cons_self, ok_bind, List.map_cons, OrdMap.insertAll_cons]
    refine ih hnd.2 (fun e he => ?_) fun e he => hf e (List.mem_cons_of_mem _ he)
    have hne : e.1 ≠ key := by
      intro heq
      have hmem : e.1 ∈ fields.map Prod.fst := List.mem_map_of_mem he
      exact hnd.1 (heq ▸ hmem)
    rw [OrdMap.get?_insert_of_ne _ _ hne]
    exact hm e (List.mem_cons_of_mem _ he)

/-- A map of documents that are read as `f` makes them. -/
theorem strict_entries {f : Json → Json} (m : JsonMap) (hf : ∀ e ∈ m.entries, strict e.2 = .ok (f e.2)) :
    strict (obj m.entries) = .ok (obj (m.mapVal fun _ j => f j).entries) := by
  have hmap : OrdMap.ofList (m.entries.map fun e => (e.1, f e.2)) = m.mapVal fun _ j => f j :=
    OrdMap.insertAll_of_entries (m.mapVal fun _ j => f j)
  rw [strict, strictFields_eq m.nodup_keys (fun e _ => rfl) hf, ok_bind]
  show Except.ok (obj (OrdMap.ofList _).entries) = _
  rw [hmap]

/-- Strict documents are read as they are. -/
theorem IsStrict.strict_eq {j : Json} (h : IsStrict j) : strict j = .ok j := by
  induction h with
  | null => rfl
  | bool b => rfl
  | int n => rfl
  | float text => rfl
  | str s => rfl
  | arr _ ih => rw [strict, strictItems_eq ih, ok_bind]; rfl
  | @obj fields hsorted _ ih =>
    rw [strict_entries (f := id) ⟨fields, hsorted⟩ ih]
    show Except.ok (Json.obj (fields.map fun e => (e.1, e.2))) = _
    rw [show (fields.map fun e => (e.1, e.2)) = fields from List.map_id _]

/-! ### Reading a record whose fields were put in order -/

/-- The strict reading of a document that has one. -/
def sorted (j : Json) : Json := (strict j).toOption.getD j

theorem sorted_of_strict {j j' : Json} (h : strict j = .ok j') : j.sorted = j' := by
  rw [sorted, h]
  rfl

theorem strict_sorted {j j' : Json} (h : strict j = .ok j') : strict j = .ok j.sorted := by
  rw [sorted_of_strict h, h]

theorem IsStrict.sorted_eq {j : Json} (h : IsStrict j) : j.sorted = j := sorted_of_strict h.strict_eq

/-- The present fields of a record, in order. -/
def sortedFields (l : List (String × Option Json)) : JsonMap :=
  OrdMap.ofList ((presentFields l).map fun e => (e.1, e.2.sorted))

theorem nodup_presentFields {l : List (String × Option Json)} (hnd : (l.map Prod.fst).Nodup) :
    ((presentFields l).map Prod.fst).Nodup := by
  refine List.Nodup.sublist ?_ hnd
  induction l with
  | nil => exact List.Sublist.refl _
  | cons e tl ih =>
    obtain ⟨key, value⟩ := e
    rw [List.map_cons, List.nodup_cons] at hnd
    cases value with
    | none => exact (ih hnd.2).cons key
    | some j => exact (ih hnd.2).cons_cons key

theorem mem_presentFields {l : List (String × Option Json)} {e : String × Json} :
    e ∈ presentFields l ↔ (e.1, some e.2) ∈ l := by
  constructor
  · intro h
    obtain ⟨x, hx, hxe⟩ := List.mem_filterMap.mp h
    obtain ⟨j, hj, rfl⟩ := Option.map_eq_some_iff.mp hxe
    rw [← hj]
    exact hx
  · intro h
    exact List.mem_filterMap.mpr ⟨_, h, rfl⟩

theorem strict_record {l : List (String × Option Json)} (hnd : (l.map Prod.fst).Nodup)
    (h : ∀ name j, (name, some j) ∈ l → strict j = .ok j.sorted) :
    strict (record l) = .ok (obj (sortedFields l).entries) := by
  show strict (obj (presentFields l)) = _
  rw [strict, strictFields_eq (f := sorted) (nodup_presentFields hnd) (fun e _ => rfl)
    (fun e he => h e.1 e.2 (mem_presentFields.mp he)), ok_bind]
  rfl

theorem filter_entries {l : List (String × Json)} (hsorted : l.Pairwise fun a b => a.1 < b.1)
    (name : String) :
    l.filter (fun e => e.1 == name) = ((OrdMap.findEntry name l).map fun j => (name, j)).toList := by
  induction l with
  | nil => rfl
  | cons e l ih =>
    obtain ⟨key, j⟩ := e
    obtain ⟨hhd, htl⟩ := List.pairwise_cons.mp hsorted
    rw [OrdMap.findEntry]
    by_cases hkey : key = name
    · subst hkey
      have hrest : l.filter (fun e => e.1 == key) = [] := by
        rw [List.filter_eq_nil_iff]
        intro e he heq
        exact absurd (hhd e he) (by rw [eq_of_beq heq]; exact lt_irrefl key)
      rw [List.filter_cons_of_pos (by simp), hrest, if_pos rfl]
      rfl
    · rw [List.filter_cons_of_neg (by simpa using hkey), ih htl, if_neg (Ne.symm hkey)]

theorem field_entries (m : JsonMap) (name : String) : field m.entries name = .ok (m.get? name) := by
  rw [field, filter_entries m.sorted, OrdMap.get?]
  cases OrdMap.findEntry name m.entries <;> rfl

theorem get?_presentFields {l : List (String × Option Json)} {name : String} {o : Option Json}
    (hnd : (l.map Prod.fst).Nodup) (h : (name, o) ∈ l) : (OrdMap.ofList (presentFields l)).get? name = o := by
  cases o with
  | some j => exact OrdMap.get?_insertAll_of_mem _ (nodup_presentFields hnd) (mem_presentFields.mpr h)
  | none =>
    refine OrdMap.get?_insertAll_of_not_mem _ ?_
    intro hmem
    obtain ⟨e, he, rfl⟩ := List.mem_map.mp hmem
    -- the name would have two values
    have heq := List.inj_on_of_nodup_map hnd h (mem_presentFields.mp he) rfl
    simp at heq

theorem get?_sortedFields {l : List (String × Option Json)} {name : String} {o : Option Json}
    (hnd : (l.map Prod.fst).Nodup) (h : (name, o) ∈ l) :
    (sortedFields l).get? name = o.map sorted := by
  have hsorted : (presentFields l).map (fun e => (e.1, e.2.sorted)) =
      presentFields (l.map fun e => (e.1, e.2.map sorted)) := by
    rw [presentFields, presentFields, List.map_filterMap, List.filterMap_map]
    refine congrArg (fun f => l.filterMap f) (funext fun e => ?_)
    cases hvalue : e.2 <;> simp [hvalue]
  rw [sortedFields, hsorted]
  refine get?_presentFields ?_ (List.mem_map.mpr ⟨(name, o), h, rfl⟩)
  rw [List.map_map]
  exact hnd

theorem field_sortedFields {l : List (String × Option Json)} {name : String} {o : Option Json}
    (hnd : (l.map Prod.fst).Nodup) (h : (name, o) ∈ l) :
    field (sortedFields l).entries name = .ok (o.map sorted) := by
  rw [field_entries, get?_sortedFields hnd h]

theorem required_sortedFields {α : Type} {read : Json → Except String α}
    {l : List (String × Option Json)} {name : String} {j : Json}
    (hnd : (l.map Prod.fst).Nodup) (h : (name, some j) ∈ l) :
    required read (sortedFields l).entries name = read j.sorted := by
  rw [required, field_sortedFields hnd h]
  rfl

/-- Fields in order are known when the record has no others. -/
theorem known_sortedFields {l : List (String × Option Json)} {names : List String}
    (h : ∀ name ∈ l.map Prod.fst, names.elem name = true) :
    ¬ ((sortedFields l).entries.any fun e => !names.elem e.1) = true := by
  intro hany
  obtain ⟨⟨key, j⟩, he, hkey⟩ := List.any_eq_true.mp hany
  have hmem := OrdMap.mem_of_get?_ofList (OrdMap.mem_entries.mp he)
  obtain ⟨e, hpresent, heq⟩ := List.mem_map.mp hmem
  obtain ⟨rfl, _⟩ := Prod.mk.inj heq
  have hname := h e.1 (List.mem_map_of_mem (f := Prod.fst) (mem_presentFields.mp hpresent))
  rw [hname] at hkey
  exact Bool.false_ne_true hkey

/-- Reading a written map. -/
theorem strict_writeMap {α : Type} {write : α → Json} (m : OrdMap String α)
    (h : ∀ a, strict (write a) = .ok (write a).sorted) :
    strict (writeMap write m) = .ok (writeMap (fun a => (write a).sorted) m) := by
  have := strict_entries (f := sorted) (m.mapVal fun _ a => write a) fun e he => by
    obtain ⟨x, _, rfl⟩ := List.mem_map.mp he
    exact h x.2
  rw [writeMap, writeMap]
  show strict (obj (m.mapVal fun _ a => write a).entries) = _
  rw [this]
  show Except.ok (obj ((m.entries.map fun e => (e.1, write e.2)).map fun e => (e.1, e.2.sorted))) = _
  rw [List.map_map]
  rfl

/-- A map skipped when empty is read back from fields in order. -/
theorem defaulted_map_sortedFields {α : Type} {read : Json → Except String α} {write : α → Json}
    {l : List (String × Option Json)} {name : String} {m : OrdMap String α}
    (hnd : (l.map Prod.fst).Nodup) (hwrite : ∀ a, strict (write a) = .ok (write a).sorted)
    (hread : ∀ a, read (write a).sorted = .ok a)
    (h : (name, skipIf m.isEmpty (writeMap write m)) ∈ l) :
    defaulted ∅ (readMap read) (sortedFields l).entries name = .ok m := by
  rw [defaulted, field_sortedFields hnd h, skipIf]
  split_ifs with hempty
  · rw [OrdMap.eq_empty_of_isEmpty hempty]
    rfl
  · show readMap read (writeMap write m).sorted = _
    rw [sorted_of_strict (strict_writeMap m hwrite)]
    exact readMap_writeMap hread

/-! ### Readable documents -/

mutual

/-- Documents with at most `depth` levels of arrays and objects and numbers
that are read as they were written. -/
def readable (exact : String → Bool) (depth : Nat) : Json → Bool
  | float text => exact text
  | arr items => 0 < depth && readableItems exact (depth - 1) items
  | obj fields => 0 < depth && readableFields exact (depth - 1) fields
  | _ => true

def readableItems (exact : String → Bool) (depth : Nat) : List Json → Bool
  | [] => true
  | item :: items => readable exact depth item && readableItems exact depth items

def readableFields (exact : String → Bool) (depth : Nat) : List (String × Json) → Bool
  | [] => true
  | (_, value) :: fields => readable exact depth value && readableFields exact depth fields

end

theorem readableFields_of_forall {exact : String → Bool} {n : Nat} {fields : List (String × Json)}
    (h : ∀ e ∈ fields, readable exact n e.2 = true) : readableFields exact n fields = true := by
  induction fields with
  | nil => rfl
  | cons e fields ih =>
    obtain ⟨key, value⟩ := e
    rw [readableFields, h (key, value) List.mem_cons_self,
      ih fun e he => h e (List.mem_cons_of_mem _ he)]
    rfl

theorem readable_obj {exact : String → Bool} {n : Nat} {fields : List (String × Json)}
    (h : ∀ e ∈ fields, readable exact n e.2 = true) :
    readable exact (n + 1) (obj fields) = true := by
  rw [readable, Nat.add_sub_cancel, readableFields_of_forall h]
  rfl

theorem readable_writeMap {α : Type} {exact : String → Bool} {n : Nat} {write : α → Json}
    (m : OrdMap String α) (h : ∀ a, readable exact n (write a) = true) :
    readable exact (n + 1) (writeMap write m) = true := by
  refine readable_obj fun e he => ?_
  obtain ⟨x, _, rfl⟩ := List.mem_map.mp he
  exact h x.2

theorem readable_record {exact : String → Bool} {n : Nat} {l : List (String × Option Json)}
    (h : ∀ name j, (name, some j) ∈ l → readable exact n j = true) :
    readable exact (n + 1) (record l) = true :=
  readable_obj fun e he => h e.1 e.2 (mem_presentFields.mp he)

end Json

namespace Npm

open Json

/-! ### Reading a lockfile back from its document -/

namespace ImportedNpmArtifactReceipt

theorem nodup_fields (r : ImportedNpmArtifactReceipt) : (r.fields.map Prod.fst).Nodup :=
  (by decide : names.Nodup)

theorem strict_toValue (r : ImportedNpmArtifactReceipt) :
    strict r.toValue = .ok (obj (sortedFields r.fields).entries) := by
  refine strict_record r.nodup_fields fun name j h => ?_
  simp only [fields, List.mem_cons, List.not_mem_nil, or_false, Prod.mk.injEq, Option.some.injEq] at h
  rcases h with ⟨_, rfl⟩ | ⟨_, rfl⟩ | ⟨_, rfl⟩ <;> rfl

theorem ofValue_sorted (r : ImportedNpmArtifactReceipt) : ofValue r.toValue.sorted = .ok r := by
  have hstr : ∀ name s, (name, some (str s)) ∈ r.fields →
      required readString (sortedFields r.fields).entries name = .ok s := fun name s h =>
    required_sortedFields r.nodup_fields h
  have hknown : ∀ name ∈ r.fields.map Prod.fst, names.elem name = true :=
    (by decide : ∀ name ∈ names, names.elem name = true)
  rw [sorted_of_strict r.strict_toValue]
  simp only [ofValue, structFields, bind_eq_ok, pure_eq_ok, rejectIf_eq_ok]
  exact ⟨_, rfl, (), known_sortedFields hknown, _, hstr _ r.treeDigest (by simp [fields]), _,
    hstr _ r.resolved (by simp [fields]), _, hstr _ r.integrity (by simp [fields]), rfl⟩

end ImportedNpmArtifactReceipt

namespace ImportedNpmLockfile

theorem nodup_fields (l : ImportedNpmLockfile) : (l.fields.map Prod.fst).Nodup :=
  (by decide : names.Nodup)

/-- The documents in the fields of a lockfile. -/
theorem mem_fields {l : ImportedNpmLockfile} {name : String} {j : Json} (h : (name, some j) ∈ l.fields) :
    j = int l.lockfileVersion ∨ j = str l.rootManifestDigest ∨ j = l.npmLock ∨
      (∃ m, j = writeMap str m) ∨ ∃ m, j = writeMap ImportedNpmArtifactReceipt.toValue m := by
  simp only [fields, List.mem_cons, List.not_mem_nil, or_false, Prod.mk.injEq, Option.some.injEq] at h
  rcases h with ⟨_, h⟩ | ⟨_, h⟩ | ⟨_, h⟩ | ⟨_, h⟩ | ⟨_, h⟩ | ⟨_, h⟩
  · exact Or.inl h
  · exact Or.inr (Or.inl h)
  · exact Or.inr (Or.inr (Or.inl h))
  · exact Or.inr (Or.inr (Or.inr (Or.inl ⟨_, skipIf_eq_some h.symm⟩)))
  · exact Or.inr (Or.inr (Or.inr (Or.inl ⟨_, skipIf_eq_some h.symm⟩)))
  · exact Or.inr (Or.inr (Or.inr (Or.inr ⟨_, skipIf_eq_some h.symm⟩)))

theorem strict_toValue {l : ImportedNpmLockfile} (hlock : IsStrict l.npmLock) :
    strict l.toValue = .ok (obj (sortedFields l.fields).entries) := by
  refine strict_record l.nodup_fields fun name j h => ?_
  rcases mem_fields h with rfl | rfl | rfl | ⟨m, rfl⟩ | ⟨m, rfl⟩
  · rfl
  · rfl
  · exact strict_sorted hlock.strict_eq
  · exact strict_sorted (strict_writeMap m fun _ => rfl)
  · exact strict_sorted (strict_writeMap m fun r => strict_sorted r.strict_toValue)

/-- A lockfile is read back from its document with all fields in order. -/
theorem ofValue_sorted {l : ImportedNpmLockfile} (hlock : IsStrict l.npmLock)
    (hversion : l.lockfileVersion < 2 ^ 32) : ofValue l.toValue.sorted = .ok l := by
  have hknown : ∀ name ∈ l.fields.map Prod.fst, names.elem name = true :=
    (by decide : ∀ name ∈ names, names.elem name = true)
  have hv : required readU32 (sortedFields l.fields).entries "lockfileVersion" = .ok l.lockfileVersion := by
    rw [required_sortedFields l.nodup_fields (j := int l.lockfileVersion) (by simp [fields])]
    rw [show (int l.lockfileVersion).sorted = int l.lockfileVersion from rfl, readU32,
      if_pos ⟨by omega, by omega⟩, Int.toNat_natCast]
  have hd : required readString (sortedFields l.fields).entries "rootManifestDigest" =
      .ok l.rootManifestDigest :=
    required_sortedFields l.nodup_fields (j := str l.rootManifestDigest) (by simp [fields])
  have hn : required (fun j => .ok j) (sortedFields l.fields).entries "npmLock" = .ok l.npmLock := by
    rw [required_sortedFields l.nodup_fields (j := l.npmLock) (by simp [fields]), hlock.sorted_eq]
  have hmap : ∀ name (m : OrdMap String String),
      (name, skipIf m.isEmpty (writeMap str m)) ∈ l.fields →
      defaulted ∅ (readMap readString) (sortedFields l.fields).entries name = .ok m := fun name m h =>
    defaulted_map_sortedFields l.nodup_fields (fun _ => rfl) (fun _ => rfl) h
  rw [sorted_of_strict (strict_toValue hlock)]
  simp only [ofValue, structFields, bind_eq_ok, pure_eq_ok, rejectIf_eq_ok]
  exact ⟨_, rfl, (), known_sortedFields hknown, _, hv, _, hd, _, hn, _,
    hmap _ l.workspaceManifestDigests (by simp [fields]), _, hmap _ l.verifiedTrees (by simp [fields]), _,
    defaulted_map_sortedFields l.nodup_fields (fun r => strict_sorted r.strict_toValue)
      (fun r => r.ofValue_sorted) (by simp [fields]), rfl⟩

/-- The document of a lockfile nests one level deeper than the npm document. -/
theorem readable_toValue {exact : String → Bool} {l : ImportedNpmLockfile}
    (h : l.npmLock.readable exact 126 = true) : l.toValue.readable exact 127 = true := by
  refine readable_record fun name j hj => ?_
  rcases mem_fields hj with rfl | rfl | rfl | ⟨m, rfl⟩ | ⟨m, rfl⟩
  · rfl
  · rfl
  · exact h
  · exact readable_writeMap (n := 125) m fun _ => rfl
  · refine readable_writeMap (n := 125) m fun r => readable_record (n := 124) fun name j h => ?_
    simp only [ImportedNpmArtifactReceipt.fields, List.mem_cons, List.not_mem_nil, or_false,
      Prod.mk.injEq, Option.some.injEq] at h
    rcases h with ⟨_, rfl⟩ | ⟨_, rfl⟩ | ⟨_, rfl⟩ <;> rfl

/-! ### What every operation keeps -/

variable {url : UrlParser} {codec : JsonCodec}

theorem parseDigest_eq_ok {loc path field digest : String} {d : ArtifactDigest} :
    parseDigest loc path field digest = .ok d ↔ ArtifactDigest.parse digest = .ok d := by
  rw [parseDigest, mapError_eq_ok]

theorem checkWorkspaceDigest_eq_ok {g : ImportedNpmGraph} {e : String × String} :
    checkWorkspaceDigest g e = .ok () ↔
      g.workspaces.contains e.1 = true ∧ ∃ d, ArtifactDigest.parse e.2 = .ok d := by
  simp only [checkWorkspaceDigest, bind_eq_ok, rejectIf_eq_ok, parseDigest_eq_ok, pure_eq_ok,
    Bool.not_eq_false, exists_const, and_true]

theorem checkTree_eq_ok {g : ImportedNpmGraph} {e e' : String × String} :
    checkTree g e = .ok e' ↔
      g.packages.contains e.1 = true ∧ ∃ d, ArtifactDigest.parse e.2 = .ok d ∧ (e.1, d.text) = e' := by
  simp only [checkTree, bind_eq_ok, rejectIf_eq_ok, parseDigest_eq_ok, pure_eq_ok, Bool.not_eq_false,
    exists_const]

/-- A receipt for the artifact that is selected at a placement. -/
structure ReceiptFor (package : ImportedNpmPackage) (r : ImportedNpmArtifactReceipt) : Prop where
  tree : ∃ d, ArtifactDigest.parse r.treeDigest = .ok d
  checked : ∃ i, PackageIntegrity.parse r.integrity = .ok i
  resolved : r.resolved = package.resolved
  integrity : r.integrity = package.integrity.text

theorem checkReceipt_eq_ok {g : ImportedNpmGraph} {trees : OrdMap String String}
    {e e' : String × ImportedNpmArtifactReceipt} :
    checkReceipt g trees e = .ok e' ↔ e' = e ∧ trees.get? e.1 = some e.2.treeDigest ∧
      ∃ package, g.packages.get? e.1 = some package ∧ ReceiptFor package e.2 := by
  simp only [checkReceipt, bind_eq_ok, rejectIf_eq_ok, orError_eq_ok, parseDigest_eq_ok, mapError_eq_ok,
    pure_eq_ok, exists_const, not_or, not_not]
  constructor
  · rintro ⟨package, hpackage, d, hd, i, hi, ⟨htree, hresolved, hintegrity⟩, rfl⟩
    exact ⟨rfl, htree, package, hpackage, ⟨d, hd⟩, ⟨i, hi⟩, hresolved, hintegrity⟩
  · rintro ⟨rfl, htree, package, hpackage, ⟨d, hd⟩, ⟨i, hi⟩, hresolved, hintegrity⟩
    exact ⟨package, hpackage, d, hd, i, hi, ⟨htree, hresolved, hintegrity⟩, rfl⟩

/-- A lockfile whose evidence is about placements of its own document. -/
structure Recorded (url : UrlParser) (l : ImportedNpmLockfile) (g : ImportedNpmGraph) : Prop where
  version : l.lockfileVersion = 8
  root : ∃ d, ArtifactDigest.parse l.rootManifestDigest = .ok d
  strict : IsStrict l.npmLock
  graph : l.graph url = .ok g
  workspaces : ∀ e ∈ l.workspaceManifestDigests.entries, checkWorkspaceDigest g e = .ok ()
  trees : ∀ e ∈ l.verifiedTrees.entries, ∃ e', checkTree g e = .ok e'
  receipts : ∀ path r, l.verifiedArtifacts.get? path = some r →
    ∃ package, g.packages.get? path = some package ∧ ReceiptFor package r

/-- Every receipt names the tree that is recorded for its placement. -/
def ReceiptsMatch (l : ImportedNpmLockfile) : Prop :=
  ∀ path r, l.verifiedArtifacts.get? path = some r → l.verifiedTrees.get? path = some r.treeDigest

/-- The checks on reading are the recorded facts and the match. -/
theorem validate_eq_ok {l : ImportedNpmLockfile} (hlock : IsStrict l.npmLock) :
    l.validate url = .ok () ↔ (∃ g, Recorded url l g) ∧ l.ReceiptsMatch := by
  simp only [validate, bind_eq_ok, rejectIf_eq_ok, parseDigest_eq_ok, checkAll_eq_ok, pure_eq_ok,
    exists_const, not_not]
  constructor
  · rintro ⟨hversion, d, hd, g, hg, hworkspaces, trees, htrees, receipts, hreceipts, -⟩
    have hall : ∀ path r, l.verifiedArtifacts.get? path = some r →
        ∃ e', checkReceipt g l.verifiedTrees (path, r) = .ok e' := fun path r h => by
      obtain ⟨e', _, he'⟩ := ok_of_mem_mapM hreceipts _ (OrdMap.mem_entries.mpr h)
      exact ⟨e', he'⟩
    refine ⟨⟨g, hversion, ⟨d, hd⟩, hlock, hg, hworkspaces, fun e he => ?_, fun path r h => ?_⟩,
      fun path r h => ?_⟩
    · obtain ⟨e', _, he'⟩ := ok_of_mem_mapM htrees e he
      exact ⟨e', he'⟩
    · obtain ⟨e', he'⟩ := hall path r h
      exact (checkReceipt_eq_ok.mp he').2.2
    · obtain ⟨e', he'⟩ := hall path r h
      exact (checkReceipt_eq_ok.mp he').2.1
  · rintro ⟨⟨g, hl⟩, hmatch⟩
    obtain ⟨trees, htrees⟩ := exists_mapM hl.trees
    obtain ⟨receipts, hreceipts⟩ := exists_mapM
      (f := checkReceipt g l.verifiedTrees) (l := l.verifiedArtifacts.entries) fun e he =>
        have h := OrdMap.mem_entries.mp he
        ⟨e, checkReceipt_eq_ok.mpr ⟨rfl, hmatch _ _ h, hl.receipts _ _ h⟩⟩
    obtain ⟨d, hd⟩ := hl.root
    exact ⟨hl.version, d, hd, g, hl.graph, hl.workspaces, trees, htrees, receipts, hreceipts, trivial⟩

theorem json_eq_ok {input : String} {j : Json} :
    json codec input = .ok j ↔ ∃ value, codec.decode input = .ok value ∧ value.strict = .ok j := by
  rw [json, mapError_eq_ok, bind_eq_ok]

theorem fromJson_eq_ok {input : String} {l : ImportedNpmLockfile} :
    fromJson url codec input = .ok l ↔
      ∃ value, json codec input = .ok value ∧ ofValue value = .ok l ∧ l.validate url = .ok () := by
  simp only [fromJson, bind_eq_ok, mapError_eq_ok, pure_eq_ok]
  constructor
  · rintro ⟨value, hvalue, l', hl', _, hvalid, rfl⟩
    exact ⟨value, hvalue, hl', hvalid⟩
  · rintro ⟨value, hvalue, hl, hvalid⟩
    exact ⟨value, hvalue, l, hl, (), hvalid, rfl⟩

/-- Fields of a strict document, in either form, are strict. -/
theorem isStrict_of_structFields {names : List String} {j : Json} {fields : List (String × Json)}
    (hj : IsStrict j) (h : structFields names j = .ok fields) : ∀ e ∈ fields, IsStrict e.2 := by
  cases hj with
  | arr hitems =>
    rw [structFields] at h
    split_ifs at h
    obtain rfl := Except.ok.inj h
    exact fun e he => hitems _ (List.of_mem_zip he).2
  | obj _ hfields =>
    obtain rfl := Except.ok.inj h
    exact hfields
  | null => cases h
  | bool b => cases h
  | int n => cases h
  | float text => cases h
  | str s => cases h

theorem mem_of_field {fields : List (String × Json)} {name : String} {j : Json}
    (h : field fields name = .ok (some j)) : (name, j) ∈ fields := by
  rw [field] at h
  split at h
  · simp at h
  · rename_i e hfilter
    obtain rfl := Option.some_inj.mp (Except.ok.inj h)
    have hmem : e ∈ fields.filter fun e => e.1 == name := hfilter ▸ List.mem_singleton_self e
    obtain ⟨hmem, hname⟩ := List.mem_filter.mp hmem
    rw [← eq_of_beq hname]
    exact hmem
  · cases h

/-- The npm document in a strict document is strict. -/
theorem isStrict_of_ofValue {value : Json} {l : ImportedNpmLockfile} (hvalue : IsStrict value)
    (h : ofValue value = .ok l) : IsStrict l.npmLock := by
  simp only [ofValue, bind_eq_ok, pure_eq_ok] at h
  obtain ⟨fields, hfields, _, _, _, _, _, _, npmLock, hnpm, _, _, _, _, _, _, rfl⟩ := h
  rw [required, bind_eq_ok] at hnpm
  obtain ⟨o, ho, hnpm⟩ := hnpm
  cases o with
  | none => cases hnpm
  | some j =>
    obtain rfl := Except.ok.inj hnpm
    exact isStrict_of_structFields hvalue hfields _ (mem_of_field ho)

theorem recorded_of_importNpm {input manifest digest : String} {l : ImportedNpmLockfile}
    (h : importNpm url codec input manifest digest = .ok l) :
    (∃ g, Recorded url l g) ∧ l.ReceiptsMatch := by
  simp only [importNpm, bind_eq_ok, pure_eq_ok, parseDigest_eq_ok] at h
  obtain ⟨npmLock, hnpm, g, hg, _, _, d, hd, rfl⟩ := h
  obtain ⟨value, _, hstrict⟩ := json_eq_ok.mp hnpm
  refine ⟨⟨g, rfl, ⟨d, ArtifactDigest.parse_text_of_parse hd⟩, isStrict_of_strict hstrict, hg, ?_, ?_, ?_⟩,
    ?_⟩
  · exact fun e he => absurd he List.not_mem_nil
  · exact fun e he => absurd he List.not_mem_nil
  · exact fun path r h => absurd h (by simp)
  · exact fun path r h => absurd h (by simp)

theorem recorded_of_fromJson {input : String} {l : ImportedNpmLockfile}
    (h : fromJson url codec input = .ok l) : (∃ g, Recorded url l g) ∧ l.ReceiptsMatch := by
  obtain ⟨value, hvalue, hl, hvalid⟩ := fromJson_eq_ok.mp h
  obtain ⟨_, _, hstrict⟩ := json_eq_ok.mp hvalue
  exact (validate_eq_ok (isStrict_of_ofValue (isStrict_of_strict hstrict) hl)).mp hvalid

theorem validateManifest_eq_ok {g : ImportedNpmGraph} {e : String × String × String} {e' : String × String}
    (h : validateManifest codec g e = .ok e') : checkWorkspaceDigest g e' = .ok () := by
  simp only [validateManifest, bind_eq_ok, pure_eq_ok, expect, orError_eq_ok, parseDigest_eq_ok] at h
  obtain ⟨_, _, _, _, selected, hselected, _, _, _, _, _, _, _, _, d, hd, rfl⟩ := h
  refine checkWorkspaceDigest_eq_ok.mpr ⟨?_, d, hd⟩
  rw [OrdMap.contains, hselected]
  rfl

section Steps

variable {l l' : ImportedNpmLockfile} {g : ImportedNpmGraph}

/-- Member digests are of members of the document. -/
theorem Recorded.bindWorkspaceManifests (hl : Recorded url l g)
    {manifests : OrdMap String (String × String)}
    (h : l.bindWorkspaceManifests url codec manifests = .ok l') :
    Recorded url l' g ∧ (l.ReceiptsMatch → l'.ReceiptsMatch) := by
  rw [ImportedNpmLockfile.bindWorkspaceManifests, hl.graph, ok_bind, bind_eq_ok] at h
  obtain ⟨digests, hdigests, h⟩ := h
  obtain rfl := pure_eq_ok.mp h
  simp only [validateManifests, bind_eq_ok, pure_eq_ok] at hdigests
  obtain ⟨_, _, listed, hlisted, rfl⟩ := hdigests
  refine ⟨⟨hl.version, hl.root, hl.strict, hl.graph, fun e he => ?_, hl.trees, hl.receipts⟩, id⟩
  have hmem := OrdMap.mem_of_get?_ofList (OrdMap.mem_entries.mp he)
  obtain ⟨source, _, hsource⟩ := of_mem_mapM_ok hlisted _ hmem
  exact validateManifest_eq_ok hsource

/-- What a lookup finds after recording trees. -/
theorem get?_recordVerifiedTrees (hl : Recorded url l g) {trees : OrdMap String String}
    (h : l.recordVerifiedTrees url trees = .ok l') {path digest : String}
    (hget : l'.verifiedTrees.get? path = some digest) :
    (∃ given d, trees.get? path = some given ∧ ArtifactDigest.parse given = .ok d ∧ digest = d.text ∧
      g.packages.contains path = true) ∨ l.verifiedTrees.get? path = some digest := by
  rw [ImportedNpmLockfile.recordVerifiedTrees, hl.graph, ok_bind, bind_eq_ok] at h
  obtain ⟨validated, hvalidated, h⟩ := h
  obtain rfl := pure_eq_ok.mp h
  refine (OrdMap.mem_or_get?_of_insertAll hget).imp_left fun hmem => ?_
  obtain ⟨⟨path', given⟩, hgiven, hcheck⟩ := of_mem_mapM_ok hvalidated _ hmem
  obtain ⟨hcontains, d, hd, heq⟩ := checkTree_eq_ok.mp hcheck
  obtain ⟨rfl, rfl⟩ := Prod.mk.inj heq
  exact ⟨given, d, OrdMap.mem_entries.mp hgiven, hd, rfl, hcontains⟩

/-- Trees are of placements of the document. -/
theorem Recorded.recordVerifiedTrees (hl : Recorded url l g) {trees : OrdMap String String}
    (h : l.recordVerifiedTrees url trees = .ok l') : Recorded url l' g := by
  have htrees : ∀ e ∈ l'.verifiedTrees.entries, ∃ e', checkTree g e = .ok e' := by
    intro e he
    rcases get?_recordVerifiedTrees hl h (OrdMap.mem_entries.mp he) with
      ⟨given, d, _, hd, hdigest, hcontains⟩ | hold
    · have hparse : ArtifactDigest.parse e.2 = .ok d := hdigest ▸ ArtifactDigest.parse_text_of_parse hd
      exact ⟨_, checkTree_eq_ok.mpr ⟨hcontains, d, hparse, rfl⟩⟩
    · exact hl.trees e (OrdMap.mem_entries.mpr hold)
  rw [ImportedNpmLockfile.recordVerifiedTrees, hl.graph, ok_bind, bind_eq_ok] at h
  obtain ⟨validated, _, h⟩ := h
  obtain rfl := pure_eq_ok.mp h
  exact ⟨hl.version, hl.root, hl.strict, hl.graph, hl.workspaces, htrees, hl.receipts⟩

/-- New receipts repeat what is recorded. -/
theorem Recorded.recordVerifiedArtifacts (hl : Recorded url l g)
    {receipts : OrdMap String ImportedNpmArtifactReceipt}
    (h : l.recordVerifiedArtifacts url receipts = .ok l') :
    Recorded url l' g ∧ (l.ReceiptsMatch → l'.ReceiptsMatch) := by
  rw [ImportedNpmLockfile.recordVerifiedArtifacts, hl.graph, ok_bind, bind_eq_ok] at h
  obtain ⟨validated, hvalidated, h⟩ := h
  obtain rfl := pure_eq_ok.mp h
  have hnew : ∀ path r, (path, r) ∈ validated → l.verifiedTrees.get? path = some r.treeDigest ∧
      ∃ package, g.packages.get? path = some package ∧ ReceiptFor package r := by
    intro path r hmem
    obtain ⟨e, _, he⟩ := of_mem_mapM_ok hvalidated _ hmem
    obtain ⟨rfl, hchecked⟩ := checkReceipt_eq_ok.mp he
    exact hchecked
  refine ⟨⟨hl.version, hl.root, hl.strict, hl.graph, hl.workspaces, hl.trees, fun path r hget => ?_⟩,
    fun hmatch path r hget => ?_⟩
  · rcases OrdMap.mem_or_get?_of_insertAll hget with hmem | hold
    · exact (hnew path r hmem).2
    · exact hl.receipts path r hold
  · rcases OrdMap.mem_or_get?_of_insertAll hget with hmem | hold
    · exact (hnew path r hmem).1
    · exact hmatch path r hold

end Steps

/-! ### Runs -/

/-- Lockfiles that were migrated or read and then changed by calls that
succeed and meet the condition. -/
inductive Reached (url : UrlParser) (codec : JsonCodec) (P : ImportedNpmLockfile → Call → Prop) :
    ImportedNpmLockfile → Prop
  | importNpm {input manifest digest : String} {l : ImportedNpmLockfile}
      (h : importNpm url codec input manifest digest = .ok l) : Reached url codec P l
  | fromJson {input : String} {l : ImportedNpmLockfile} (h : fromJson url codec input = .ok l) :
      Reached url codec P l
  | call {l l' : ImportedNpmLockfile} {c : Call} (hl : Reached url codec P l) (hc : P l c)
      (h : l.call url codec c = .ok l') : Reached url codec P l'

/-- A placement that has a receipt is only given the tree of that receipt. -/
def KeepsReceipts (l : ImportedNpmLockfile) : Call → Prop
  | .recordVerifiedTrees trees => ∀ path given receipt, trees.get? path = some given →
      l.verifiedArtifacts.get? path = some receipt →
      (ArtifactDigest.parse given).toOption.map ArtifactDigest.text = some receipt.treeDigest
  | _ => True

theorem Recorded.call {l l' : ImportedNpmLockfile} {g : ImportedNpmGraph} (hl : Recorded url l g) {c : Call}
    (h : l.call url codec c = .ok l') : Recorded url l' g := by
  cases c with
  | bindWorkspaceManifests manifests => exact (hl.bindWorkspaceManifests h).1
  | recordVerifiedTrees trees => exact hl.recordVerifiedTrees h
  | recordVerifiedArtifacts receipts => exact (hl.recordVerifiedArtifacts h).1

theorem Reached.recorded {P : ImportedNpmLockfile → Call → Prop} {l : ImportedNpmLockfile}
    (h : Reached url codec P l) : ∃ g, Recorded url l g := by
  induction h with
  | importNpm h => exact (recorded_of_importNpm h).1
  | fromJson h => exact (recorded_of_fromJson h).1
  | call _ _ h ih =>
    obtain ⟨g, hg⟩ := ih
    exact ⟨g, hg.call h⟩

/-- Recorded trees that agree with the receipts keep the match. -/
theorem ReceiptsMatch.recordVerifiedTrees {l l' : ImportedNpmLockfile} {g : ImportedNpmGraph}
    (hmatch : l.ReceiptsMatch) {trees : OrdMap String String} (hl : Recorded url l g)
    (hkeeps : KeepsReceipts l (.recordVerifiedTrees trees))
    (h : l.recordVerifiedTrees url trees = .ok l') : l'.ReceiptsMatch := by
  intro path r hget
  have hold : l.verifiedArtifacts.get? path = some r := by
    rw [ImportedNpmLockfile.recordVerifiedTrees, hl.graph, ok_bind, bind_eq_ok] at h
    obtain ⟨validated, _, h⟩ := h
    obtain rfl := pure_eq_ok.mp h
    exact hget
  cases hdigest : l'.verifiedTrees.get? path with
  | some digest =>
    rcases get?_recordVerifiedTrees hl h hdigest with ⟨given, d, hgiven, hd, rfl, _⟩ | hdigest
    · have htext := hkeeps path given r hgiven hold
      rw [hd] at htext
      exact htext
    · rw [hmatch path r hold] at hdigest
      exact hdigest.symm
  | none =>
    -- recording never forgets a tree
    rw [ImportedNpmLockfile.recordVerifiedTrees, hl.graph, ok_bind, bind_eq_ok] at h
    obtain ⟨validated, _, h⟩ := h
    obtain rfl := pure_eq_ok.mp h
    rw [OrdMap.get?_insertAll, hmatch path r hold, Option.or_eq_none_iff] at hdigest
    exact absurd hdigest.2 (Option.some_ne_none _)

/-- **Invariant.** -/
theorem Reached.receiptsMatch {l : ImportedNpmLockfile} (h : Reached url codec KeepsReceipts l) :
    l.ReceiptsMatch := by
  induction h with
  | importNpm h => exact (recorded_of_importNpm h).2
  | fromJson h => exact (recorded_of_fromJson h).2
  | @call l l' c hl hc h ih =>
    obtain ⟨g, hg⟩ := hl.recorded
    cases c with
    | bindWorkspaceManifests manifests => exact (hg.bindWorkspaceManifests h).2 ih
    | recordVerifiedTrees trees => exact ih.recordVerifiedTrees hg hc h
    | recordVerifiedArtifacts receipts => exact (hg.recordVerifiedArtifacts h).2 ih

theorem Reached.mono {P Q : ImportedNpmLockfile → Call → Prop} (hPQ : ∀ l c, P l c → Q l c)
    {l : ImportedNpmLockfile} (h : Reached url codec P l) : Reached url codec Q l := by
  induction h with
  | importNpm h => exact .importNpm h
  | fromJson h => exact .fromJson h
  | call _ hc h ih => exact ih.call (hPQ _ _ hc) h

/-! ### The round trip -/

/-- The text codec reads documents with at most 127 levels and numbers that
survive printing as they were written. -/
def ReadsBack (codec : JsonCodec) (exact : String → Bool) (j : Json) : Prop :=
  j.readable exact 127 = true → Lockfile.Faithful codec j

/-- A written lockfile is read back iff its receipts match its trees. -/
theorem fromJson_toJson_iff_receiptsMatch {P : ImportedNpmLockfile → Call → Prop}
    {l : ImportedNpmLockfile} (hl : Reached url codec P l) (hcodec : Lockfile.Faithful codec l.toValue)
    {s : String} (hs : l.toJson codec = .ok s) : fromJson url codec s = .ok l ↔ l.ReceiptsMatch := by
  obtain ⟨g, hg⟩ := hl.recorded
  obtain rfl := Except.ok.inj hs
  have hjson : json codec (codec.encode l.toValue ++ "\n") = .ok l.toValue.sorted :=
    json_eq_ok.mpr ⟨l.toValue, hcodec, strict_sorted (strict_toValue hg.strict)⟩
  have hvalue : ofValue l.toValue.sorted = .ok l :=
    ofValue_sorted hg.strict (by rw [hg.version]; omega)
  rw [fromJson_eq_ok]
  constructor
  · rintro ⟨value, _, _, hvalid⟩
    exact ((validate_eq_ok hg.strict).mp hvalid).2
  · intro hmatch
    exact ⟨_, hjson, hvalue, (validate_eq_ok hg.strict).mpr ⟨⟨g, hg⟩, hmatch⟩⟩

/-- **Round trip.**  In every run in which a placement with a receipt is only
given the tree of that receipt, a written lockfile is read back, if its npm
document has at most 126 levels and only numbers that survive printing. -/
theorem fromJson_toJson_of_keepsReceipts {exact : String → Bool} {l : ImportedNpmLockfile}
    (hl : Reached url codec KeepsReceipts l) (hread : l.npmLock.readable exact 126 = true)
    (hcodec : ReadsBack codec exact l.toValue) {s : String} (hs : l.toJson codec = .ok s) :
    fromJson url codec s = .ok l :=
  (fromJson_toJson_iff_receiptsMatch hl (hcodec (readable_toValue hread)) hs).mpr hl.receiptsMatch

/-! ### A run that loses a receipt's tree -/

/-- A codec that prints every value and knows how to read some documents. -/
def documentsCodec (known : List Json) : JsonCodec where
  encode := Lockfile.prettyJson ""
  decode text := orError (known.find? fun j => text == Lockfile.prettyJson "" j ++ "\n") "unknown document"

/-- A document with one package. -/
def padDocument : Json := .obj [
  ("lockfileVersion", .int 3),
  ("packages", .obj [
    ("", .obj [("dependencies", .obj [("left-pad", .str "1.2.0")])]),
    ("node_modules/left-pad", ImportedNpmGraph.registryEntry "left-pad" "1.2.0" [])])]

def padManifest : Json := .obj [("dependencies", .obj [("left-pad", .str "1.2.0")])]

def padPath : String := "node_modules/left-pad"

def otherDigest : String :=
  "sha256-bbbbbbbbbbbbbbbbbbbbbbbbbbbbbbbbbbbbbbbbbbbbbbbbbbbbbbbbbbbbbbbb"

def padReceipt : ImportedNpmArtifactReceipt where
  treeDigest := Lockfile.sampleDigest
  resolved := "https://registry.npmjs.org/left-pad/-/left-pad-1.2.0.tgz"
  integrity := Lockfile.sampleIntegrity

/-- The migrated lockfile. -/
def padImported : ImportedNpmLockfile where
  lockfileVersion := 8
  rootManifestDigest := Lockfile.sampleDigest
  npmLock := padDocument

/-- After recording a tree. -/
def padVerified : ImportedNpmLockfile :=
  { padImported with verifiedTrees := OrdMap.ofList [(padPath, Lockfile.sampleDigest)] }

/-- After recording its receipt. -/
def padReceived : ImportedNpmLockfile :=
  { padVerified with verifiedArtifacts := OrdMap.ofList [(padPath, padReceipt)] }

/-- After recording another tree for the same placement. -/
def padReplaced : ImportedNpmLockfile :=
  { padReceived with verifiedTrees := OrdMap.ofList [(padPath, otherDigest)] }

theorem graph_padDocument : ∃ g, Npm.graph ImportedNpmGraph.registryUrl padDocument = .ok g ∧
    ∃ package, g.packages.get? padPath = some package ∧ package.resolved = padReceipt.resolved ∧
      package.integrity.text = padReceipt.integrity := by
  have h : (Npm.graph ImportedNpmGraph.registryUrl padDocument).toOption.bind
      (fun g => (g.packages.get? padPath).map fun p => (p.resolved, p.integrity.text)) =
      some (padReceipt.resolved, padReceipt.integrity) := by decide
  obtain ⟨g, hg, h⟩ := Option.bind_eq_some_iff.mp h
  obtain ⟨package, hpackage, h⟩ := Option.map_eq_some_iff.mp h
  obtain ⟨hresolved, hintegrity⟩ := Prod.mk.inj h
  exact ⟨g, toOption_eq_some.mp hg, package, hpackage, hresolved, hintegrity⟩

theorem parse_sampleDigest : ArtifactDigest.parse Lockfile.sampleDigest = .ok ⟨Lockfile.sampleDigest⟩ := by
  decide

theorem parse_otherDigest : ArtifactDigest.parse otherDigest = .ok ⟨otherDigest⟩ := by decide

theorem decode_documentsCodec (before after : List Json) {j : Json}
    (hne : ∀ b ∈ before, Lockfile.prettyJson "" j ++ "\n" ≠ Lockfile.prettyJson "" b ++ "\n") :
    (documentsCodec (before ++ j :: after)).decode (Lockfile.prettyJson "" j ++ "\n") = .ok j := by
  have hfind : (before ++ j :: after).find?
      (fun b => Lockfile.prettyJson "" j ++ "\n" == Lockfile.prettyJson "" b ++ "\n") = some j := by
    rw [List.find?_append, List.find?_eq_none.mpr fun b hb => by simpa using hne b hb]
    simp
  exact orError_eq_ok.mpr hfind

/-- The documents of the sample run. -/
def padCodec (l : ImportedNpmLockfile) : JsonCodec := documentsCodec [padManifest, padDocument, l.toValue]

theorem importNpm_pad (l : ImportedNpmLockfile) :
    importNpm ImportedNpmGraph.registryUrl (padCodec l) (Lockfile.prettyJson "" padDocument ++ "\n")
      (Lockfile.prettyJson "" padManifest ++ "\n") Lockfile.sampleDigest = .ok padImported := by
  have hdocument : json (padCodec l) (Lockfile.prettyJson "" padDocument ++ "\n") = .ok padDocument :=
    json_eq_ok.mpr ⟨_, decode_documentsCodec [padManifest] _ (by decide), rfl⟩
  have hmanifest : json (padCodec l) (Lockfile.prettyJson "" padManifest ++ "\n") = .ok padManifest :=
    json_eq_ok.mpr ⟨_, decode_documentsCodec [] _ (fun _ hb => absurd hb List.not_mem_nil), rfl⟩
  have hfields : validateManifestFields (padCodec l) padDocument (Lockfile.prettyJson "" padManifest ++ "\n") =
      .ok () := by
    rw [validateManifestFields, hmanifest, ok_bind]
    rfl
  obtain ⟨g, hg, _⟩ := graph_padDocument
  simp only [importNpm, bind_eq_ok, pure_eq_ok, parseDigest_eq_ok]
  exact ⟨padDocument, hdocument, g, hg, (), hfields, _, parse_sampleDigest, rfl⟩

/-- Recording one tree for the sample placement. -/
theorem recordVerifiedTrees_pad {l : ImportedNpmLockfile} (hlock : l.npmLock = padDocument) {digest : String}
    (hdigest : ArtifactDigest.parse digest = .ok ⟨digest⟩) :
    l.recordVerifiedTrees ImportedNpmGraph.registryUrl (OrdMap.ofList [(padPath, digest)]) =
      .ok { l with verifiedTrees := l.verifiedTrees.insertAll [(padPath, digest)] } := by
  obtain ⟨g, hg, package, hpackage, _⟩ := graph_padDocument
  have hcontains : g.packages.contains padPath = true := by
    rw [OrdMap.contains, hpackage]
    rfl
  have hcheck : checkTree g (padPath, digest) = .ok (padPath, digest) :=
    checkTree_eq_ok.mpr ⟨hcontains, _, hdigest, rfl⟩
  rw [recordVerifiedTrees, graph, hlock, hg, ok_bind]
  show ([(padPath, digest)].mapM (checkTree g) >>= _) = _
  rw [List.mapM_cons, hcheck]
  rfl

theorem recordVerifiedArtifacts_pad :
    padVerified.recordVerifiedArtifacts ImportedNpmGraph.registryUrl (OrdMap.ofList [(padPath, padReceipt)]) =
      .ok padReceived := by
  obtain ⟨g, hg, package, hpackage, hresolved, hintegrity⟩ := graph_padDocument
  have hparse : (PackageIntegrity.parse padReceipt.integrity).toOption.isSome = true := by decide
  obtain ⟨i, hi⟩ := Option.isSome_iff_exists.mp hparse
  have hcheck : checkReceipt g padVerified.verifiedTrees (padPath, padReceipt) = .ok (padPath, padReceipt) :=
    checkReceipt_eq_ok.mpr ⟨rfl, rfl, package, hpackage, ⟨_, parse_sampleDigest⟩,
      ⟨i, toOption_eq_some.mp hi⟩, hresolved.symm, hintegrity.symm⟩
  rw [recordVerifiedArtifacts, graph, show padVerified.npmLock = padDocument from rfl, hg, ok_bind]
  show ([(padPath, padReceipt)].mapM (checkReceipt g padVerified.verifiedTrees) >>= _) = _
  rw [List.mapM_cons, hcheck]
  rfl

/-- A migration, a tree and its receipt. -/
theorem reached_padReceived (l : ImportedNpmLockfile) :
    Reached ImportedNpmGraph.registryUrl (padCodec l) KeepsReceipts padReceived := by
  have himported : Reached ImportedNpmGraph.registryUrl (padCodec l) KeepsReceipts padImported :=
    .importNpm (importNpm_pad l)
  have hverified : Reached ImportedNpmGraph.registryUrl (padCodec l) KeepsReceipts padVerified := by
    refine himported.call (c := .recordVerifiedTrees (OrdMap.ofList [(padPath, Lockfile.sampleDigest)])) ?_
      (recordVerifiedTrees_pad rfl parse_sampleDigest)
    intro path given receipt _ hreceipt
    simp [padImported] at hreceipt
  exact hverified.call (c := .recordVerifiedArtifacts _) trivial recordVerifiedArtifacts_pad

theorem readable_padDocument : padDocument.readable (fun _ => false) 126 = true := by decide

theorem faithful_padCodec {l : ImportedNpmLockfile}
    (hne : ∀ b ∈ [padManifest, padDocument],
      Lockfile.prettyJson "" l.toValue ++ "\n" ≠ Lockfile.prettyJson "" b ++ "\n") :
    Lockfile.Faithful (padCodec l) l.toValue :=
  decode_documentsCodec [padManifest, padDocument] [] hne

theorem fromJson_toJson_padReceived :
    fromJson ImportedNpmGraph.registryUrl (padCodec padReceived)
      ((padCodec padReceived).encode padReceived.toValue ++ "\n") = .ok padReceived :=
  fromJson_toJson_of_keepsReceipts (reached_padReceived padReceived) readable_padDocument
    (fun _ => faithful_padCodec (by decide)) rfl

/-- A tree recorded after the receipt makes the lockfile unreadable. -/
theorem not_forall_fromJson_toJson_imported :
    ¬ ∀ (url : UrlParser) (codec : JsonCodec) (l : ImportedNpmLockfile) (s : String),
      Reached url codec (fun _ _ => True) l → l.npmLock.readable (fun _ => false) 126 = true →
      Lockfile.Faithful codec l.toValue → l.toJson codec = .ok s → fromJson url codec s = .ok l := by
  intro h
  have hreached : Reached ImportedNpmGraph.registryUrl (padCodec padReplaced) (fun _ _ => True) padReplaced :=
    ((reached_padReceived padReplaced).mono fun _ _ _ => trivial).call
      (c := .recordVerifiedTrees (OrdMap.ofList [(padPath, otherDigest)])) trivial
      (recordVerifiedTrees_pad rfl parse_otherDigest)
  have hfaithful : Lockfile.Faithful (padCodec padReplaced) padReplaced.toValue :=
    faithful_padCodec (by decide)
  have hmatch := (fromJson_toJson_iff_receiptsMatch hreached hfaithful rfl).mp
    (h _ _ _ _ hreached readable_padDocument hfaithful rfl)
  have hget := hmatch padPath padReceipt rfl
  exact absurd (Option.some_inj.mp hget) (by decide)

end ImportedNpmLockfile

end Npm

end Tapid
