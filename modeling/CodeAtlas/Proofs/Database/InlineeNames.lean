import CodeAtlas.Proofs.Database.TypeEncoding
import CodeAtlas.Proofs.Database.TypeNames

namespace CodeAtlas.Database

/-- The scope has a name: that of a function, of kind `0x1601`, is a string, that of a member function, of kind `0x1602`,
is a type. -/
inductive HasScope (ids types : StoredTypes) (kind : UInt16) (scope : UInt32) (text : Text) : Prop
  | string (r : Record) (hkind : kind = 0x1601) (hscope : scope ≠ 0) (hr : ids.Has scope r) (htext : r.IsString text)
      (hne : text ≠ [])
  | type (r : Record) (hkind : kind = 0x1602) (hr : types.Has scope r) (htext : r.IsTypeNamed text) (hne : text ≠ [])

/-- The name that the records spell for a function. A scope that is zero, missing, of another kind or without a name is
left out. -/
inductive Spells (ids types : StoredTypes) (index : UInt32) : Text → Prop
  | qualified {r : Record} {scope : UInt32} {name text : Text} (hr : ids.Has index r) (hname : r.IsFunction scope name)
      (hscope : HasScope ids types r.kind scope text) : Spells ids types index (text ++ "::" ++ name)
  | plain {r : Record} {scope : UInt32} {name : Text} (hr : ids.Has index r) (hname : r.IsFunction scope name)
      (hscope : ∀ text, ¬HasScope ids types r.kind scope text) : Spells ids types index name

namespace FunctionNames

/-- The names are looked up in both tables. -/
def ofStored (ids types : StoredTypes) : FunctionNames := ⟨some ids.table, some types.table⟩

variable {ids types : StoredTypes} {index scope : UInt32} {r : Record} {name text : Text}

theorem stringId?_eq_some_iff : (ofStored ids types).stringId? scope = some text ↔
    ∃ r, ids.Has scope r ∧ r.IsString text := by
  simp only [stringId?, ofStored, Option.bind_eq_bind, Option.bind_some, Option.bind_eq_some_iff,
    StoredTypes.get?_table_eq_some_iff, Record.stringId?_eq_some_iff]

theorem className?_eq_some_iff : (ofStored ids types).className? scope = some text ↔
    ∃ r, types.Has scope r ∧ r.IsTypeNamed text := by
  simp only [className?, ofStored, Option.bind_eq_bind, Option.bind_some, Option.bind_eq_some_iff,
    StoredTypes.get?_table_eq_some_iff, Record.typeName?_eq_some_iff]

/-- The name of a scope, which may be empty. -/
def scopeName? (n : FunctionNames) (kind : UInt16) (scope : UInt32) : Option Text :=
  if kind = 0x1601 then if scope = 0 then none else n.stringId? scope else n.className? scope

theorem hasScope_iff {kind : UInt16} (hkind : kind = 0x1601 ∨ kind = 0x1602) : HasScope ids types kind scope text ↔
    (ofStored ids types).scopeName? kind scope = some text ∧ text ≠ [] := by
  rcases hkind with rfl | rfl
  · rw [scopeName?, if_pos rfl, Option.ite_none_left_eq_some, stringId?_eq_some_iff]
    constructor
    · rintro (⟨r, -, hscope, hr, htext, hne⟩ | ⟨-, hkind, -⟩)
      · exact ⟨⟨hscope, r, hr, htext⟩, hne⟩
      · exact absurd hkind (by decide)
    · rintro ⟨⟨hscope, r, hr, htext⟩, hne⟩
      exact .string r rfl hscope hr htext hne
  · rw [scopeName?, if_neg (by decide), className?_eq_some_iff]
    constructor
    · rintro (⟨-, hkind, -⟩ | ⟨r, -, hr, htext, hne⟩)
      · exact absurd hkind (by decide)
      · exact ⟨⟨r, hr, htext⟩, hne⟩
    · rintro ⟨⟨r, hr, htext⟩, hne⟩
      exact .type r rfl hr htext hne

/-- A name with that of its scope before it. A scope without a name is left out. -/
def qualified (name : Text) : Option Text → Text
  | some (b :: q) => b :: q ++ "::" ++ name
  | _ => name

theorem nameOf?_of_isFunction (hr : ids.Has index r) (hname : r.IsFunction scope name) :
    (ofStored ids types).nameOf? index =
      some (qualified name ((ofStored ids types).scopeName? r.kind scope)) := by
  obtain ⟨hkind, hscope, hread⟩ := Record.isFunction_iff.mp hname
  have hget := StoredTypes.get?_table_eq_some_iff.mpr hr
  have hids : (ofStored ids types).ids = some ids.table := rfl
  simp only [nameOf?, hids, Option.bind_eq_bind, Option.bind_some, hget, hscope, hread, scopeName?]
  rcases hkind with hkind | hkind
  · rw [if_pos hkind, if_pos hkind]
    rcases (if scope = 0 then none else (ofStored ids types).stringId? scope) with _ | _ | _ <;> rfl
  · have hne : ¬r.kind = 0x1601 := fun h => absurd (hkind.symm.trans h) (by decide)
    rw [if_neg hne, if_pos hkind, if_neg hne]
    rcases (ofStored ids types).className? scope with _ | _ | _ <;> rfl

theorem exists_isFunction (h : (ofStored ids types).nameOf? index = some text) :
    ∃ r scope name, ids.Has index r ∧ r.IsFunction scope name := by
  obtain ⟨r, hr, h⟩ := Option.bind_eq_some_iff.mp h
  obtain ⟨scope, hscope, h⟩ := Option.bind_eq_some_iff.mp h
  obtain ⟨name, hname, h⟩ := Option.bind_eq_some_iff.mp h
  have hkind : r.kind = 0x1601 ∨ r.kind = 0x1602 := by
    split at h
    next hkind => exact .inl hkind
    next =>
      split at h
      next hkind => exact .inr hkind
      next => cases h
  exact ⟨r, scope, name, StoredTypes.get?_table_eq_some_iff.mp hr, Record.isFunction_iff.mpr ⟨hkind, hscope, hname⟩⟩

theorem nameOf?_of_spells (h : Spells ids types index text) : (ofStored ids types).nameOf? index = some text := by
  cases h with
  | qualified hr hname hscope =>
    obtain ⟨hfound, hne⟩ := (hasScope_iff hname.kind).mp hscope
    obtain ⟨b, q, rfl⟩ := List.exists_cons_of_ne_nil hne
    rw [nameOf?_of_isFunction hr hname, hfound]
    rfl
  | @plain r scope _ hr hname hscope =>
    rw [nameOf?_of_isFunction hr hname]
    cases hfound : (ofStored ids types).scopeName? r.kind scope with
    | none => rfl
    | some text =>
      cases text with
      | nil => rfl
      | cons b q => exact absurd ((hasScope_iff hname.kind).mpr ⟨hfound, List.cons_ne_nil b q⟩) (hscope _)

theorem exists_spells (types : StoredTypes) (hr : ids.Has index r) (hname : r.IsFunction scope name) :
    ∃ text, Spells ids types index text := by
  by_cases hscope : ∃ text, HasScope ids types r.kind scope text
  · obtain ⟨text, hscope⟩ := hscope
    exact ⟨_, .qualified hr hname hscope⟩
  · exact ⟨_, .plain hr hname fun text h => hscope ⟨text, h⟩⟩

theorem nameOf?_eq_some_iff : (ofStored ids types).nameOf? index = some text ↔ Spells ids types index text := by
  refine ⟨fun h => ?_, nameOf?_of_spells⟩
  obtain ⟨r, scope, name, hr, hname⟩ := exists_isFunction h
  obtain ⟨text', hspells⟩ := exists_spells types hr hname
  have heq := (nameOf?_of_spells hspells).symm.trans h
  exact Option.some.inj heq ▸ hspells

/-- There is no name where there is no record of a function with a name that ends. -/
theorem nameOf?_eq_none_iff : (ofStored ids types).nameOf? index = none ↔
    ∀ r, ids.Has index r → ∀ scope name, ¬r.IsFunction scope name := by
  rw [Option.eq_none_iff_forall_ne_some]
  constructor
  · intro h r hr scope name hname
    obtain ⟨text, hspells⟩ := exists_spells types hr hname
    exact h text (nameOf?_of_spells hspells)
  · intro h text htext
    obtain ⟨r, scope, name, hr, hname⟩ := exists_isFunction htext
    exact h r hr scope name hname

end FunctionNames

/-- A stored table is read back with each record under its index. -/
structure ReadsTypes (t : StoredTypes) : Prop where
  parsed : ∀ after, TypeTable.parse (t.bytes ++ after).toArray = .ok t.table
  get?_iff : ∀ index r, t.table.get? index = some r ↔ t.Has index r
  get?_none_iff : ∀ index, t.table.get? index = none ↔
    index.toNat < t.first.toNat ∨ t.first.toNat + t.records.length ≤ index.toNat

theorem readsTypes {t : StoredTypes} (ht : t.Fits) : ReadsTypes t where
  parsed := StoredTypes.parse_bytes ht
  get?_iff _ _ := StoredTypes.get?_table_eq_some_iff
  get?_none_iff _ := StoredTypes.get?_table_eq_none_iff

/-- Both tables are read back, and functions have the names that their records spell. -/
structure NamesInlinees (ids types : StoredTypes) : Prop where
  readsIds : ReadsTypes ids
  readsTypes : ReadsTypes types
  name_iff : ∀ index text, (FunctionNames.ofStored ids types).nameOf? index = some text ↔ Spells ids types index text
  nameless_iff : ∀ index, (FunctionNames.ofStored ids types).nameOf? index = none ↔
    ∀ r, ids.Has index r → ∀ scope name, ¬r.IsFunction scope name

theorem namesInlinees {ids types : StoredTypes} (hids : ids.Fits) (htypes : types.Fits) : NamesInlinees ids types where
  readsIds := readsTypes hids
  readsTypes := readsTypes htypes
  name_iff _ _ := FunctionNames.nameOf?_eq_some_iff
  nameless_iff _ := FunctionNames.nameOf?_eq_none_iff

/-- A string, a function whose scope it names, a member function and a function without a scope. -/
def sampleIds : StoredTypes where
  version := 20040203
  first := 0x1000
  last := 0x1004
  headerRest := List.replicate 36 0
  records := [.named 0x1605 (leBytes 4 0) "ns", .named 0x1601 (leBytes 4 0x1000 ++ leBytes 4 1) "f",
    .named 0x1602 (leBytes 4 7 ++ leBytes 4 1) "g", .named 0x1601 (leBytes 4 0 ++ leBytes 4 1) "h"]

/-- A structure whose size takes eight bytes. -/
def sampleTypes : StoredTypes where
  version := 20040203
  first := 7
  last := 8
  headerRest := List.replicate 40 0
  records := [.named 0x1505 (List.replicate 16 1 ++ (leBytes 2 0x800A ++ List.replicate 8 2)) "S"]

theorem namesInlinees_sample : sampleIds.Fits ∧ sampleTypes.Fits ∧
    (FunctionNames.ofStored sampleIds sampleTypes).nameOf? 0x1001 = some "ns::f" ∧
    (FunctionNames.ofStored sampleIds sampleTypes).nameOf? 0x1002 = some "S::g" ∧
    (FunctionNames.ofStored sampleIds sampleTypes).nameOf? 0x1003 = some "h" ∧
    (FunctionNames.ofStored sampleIds sampleTypes).nameOf? 0x2000 = none := by
  have hids : sampleIds.Fits := ⟨by decide, by decide, by decide, by decide, by decide⟩
  have htypes : sampleTypes.Fits := ⟨by decide, by decide, by decide, by decide, by decide⟩
  have h := namesInlinees hids htypes
  refine ⟨hids, htypes, ?_, ?_, ?_, ?_⟩
  · have hf : Record.IsFunction (.named 0x1601 (leBytes 4 0x1000 ++ leBytes 4 1) "f") 0x1000 "f" :=
      ⟨.inl rfl, _, rfl, Record.namedBehind_named _ _ _ (by decide)⟩
    have hns : HasScope sampleIds sampleTypes 0x1601 0x1000 "ns" :=
      .string _ rfl (by decide) ⟨0, by decide, rfl⟩ ⟨rfl, _, rfl, Record.namedBehind_named _ _ _ (by decide)⟩ (by decide)
    exact (h.name_iff _ _).mpr (.qualified ⟨1, by decide, rfl⟩ hf hns)
  · have hg : Record.IsFunction (.named 0x1602 (leBytes 4 7 ++ leBytes 4 1) "g") 7 "g" :=
      ⟨.inr rfl, _, rfl, Record.namedBehind_named _ _ _ (by decide)⟩
    have hsize : IsNumber (leBytes 2 (0x800A : UInt16).toNat ++ List.replicate 8 2) := .wide (by decide)
    have hS := Record.namedBehind_named 0x1505
      (List.replicate 16 1 ++ (leBytes 2 (0x800A : UInt16).toNat ++ List.replicate 8 2)) "S" (by decide)
    have hscope : HasScope sampleIds sampleTypes 0x1602 7 "S" :=
      .type _ rfl ⟨0, by decide, rfl⟩ (.aggregate _ _ (.inr (.inl rfl)) rfl hsize hS) (by decide)
    exact (h.name_iff _ _).mpr (.qualified ⟨2, by decide, rfl⟩ hg hscope)
  · have hh : Record.IsFunction (.named 0x1601 (leBytes 4 0 ++ leBytes 4 1) "h") 0 "h" :=
      ⟨.inl rfl, _, rfl, Record.namedBehind_named _ _ _ (by decide)⟩
    have hnone : ∀ text, ¬HasScope sampleIds sampleTypes 0x1601 0 text := by
      rintro text (⟨-, -, hscope, -⟩ | ⟨-, hkind, -⟩)
      · exact hscope rfl
      · exact absurd hkind (by decide)
    exact (h.name_iff _ _).mpr (.plain ⟨3, by decide, rfl⟩ hh hnone)
  · refine (h.nameless_iff _).mpr ?_
    rintro r ⟨k, hindex, hk⟩
    have hlength : k < 4 := (List.getElem?_eq_some_iff.mp hk).1
    have heq : 0x2000 = 0x1000 + k := hindex
    omega

end CodeAtlas.Database
