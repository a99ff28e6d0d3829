import CodeAtlas.Lookup.Session
import CodeAtlas.Proofs.DebugId.Spelling
import CodeAtlas.Proofs.Lookup.Opened

namespace CodeAtlas

theorem Database.debugId_of_openSymbols [Sorting] [Demangler] {data : Bytes} {source : SymbolSource Remembering}
    (h : Database.openSymbols data = .ok source) :
    ∃ db, Database.parse data = .ok db ∧ source.debugId = db.debugId := by
  rw [openSymbols] at h
  obtain ⟨db, hdb, h⟩ := bind_eq_ok_iff.mp h
  obtain ⟨index, -, h⟩ := bind_eq_ok_iff.mp h
  cases h
  exact ⟨db, hdb, rfl⟩

namespace Helper

variable {σ : Type} {h : Helper (StateM σ)} {binary location : Text} {c : Companion} {s s₁ s₂ s₃ : σ}

/-- The file at a location is an image that names a database; loading it leaves the helper in the second state. -/
def NamesDatabase (h : Helper (StateM σ)) (binary : Text) (s : σ) (c : Companion) (s₁ : σ) : Prop :=
  ∃ data image, (h.load binary).run s = (.ok data, s₁) ∧ Image.parse data = .ok image ∧ image.companion? = some c

/-- The helper accepts the path of the database and says where it is. -/
def Locates (h : Helper (StateM σ)) (binary : Text) (c : Companion) (s₁ : σ) (location : Text) (s₂ : σ) : Prop :=
  Text.Utf8.isValid c.path ∧ (h.locateDatabase binary c.path c.debugId).run s₁ = (some location, s₂)

theorem run_loadFile (h : Helper (StateM σ)) (location : Text) (s : σ) :
    (h.loadFile location).run s =
      (((h.load location).run s).1.mapError (.notLoaded location), ((h.load location).run s).2) := by
  rw [loadFile, StateT.run_bind]
  cases (h.load location).run s with
  | mk result s' => cases result <;> rfl

theorem run_loadSymbols [Sorting] [Demangler] (h : Helper (StateM σ)) (location : Text) (s : σ) :
    (h.loadSymbols location).run s =
      ((((h.load location).run s).1.mapError (.notLoaded location)).bind fun data =>
          plainMap location (openSymbols data), ((h.load location).run s).2) := by
  rw [loadSymbols, StateT.run_bind, run_loadFile]
  cases (h.load location).run s with
  | mk result s' => cases result <;> rfl

theorem run_loadSymbolsForBinary_of_names [Sorting] [Demangler] (hn : h.NamesDatabase binary s c s₁) :
    ∃ image : Image, image.companion? = some c ∧
      (h.loadSymbolsForBinary binary).run s = (h.loadDatabaseOf binary image).run s₁ := by
  obtain ⟨data, image, hload, himage, hc⟩ := hn
  refine ⟨image, hc, ?_⟩
  have hsome : image.companion?.isSome = true := by
    rw [hc]
    rfl
  rw [loadSymbolsForBinary, StateT.run_bind, run_loadFile, hload]
  change StateT.run (if FileKind.ofBytes data = .image then _ else _) s₁ = _
  rw [if_pos (FileKind.ofBytes_of_parse himage), himage]
  dsimp only
  rw [if_pos hsome]

theorem run_of_not_utf8 [Sorting] [Demangler] (hn : h.NamesDatabase binary s c s₁) (hpath : ¬Text.Utf8.isValid c.path) :
    (h.loadSymbolsForBinary binary).run s = (.error (.companionNotUtf8 binary), s₁) := by
  obtain ⟨image, hc, hrun⟩ := run_loadSymbolsForBinary_of_names hn
  rw [hrun, loadDatabaseOf, hc]
  dsimp only
  rw [if_pos hpath]
  rfl

theorem run_of_utf8 [Sorting] [Demangler] (hn : h.NamesDatabase binary s c s₁) (hpath : Text.Utf8.isValid c.path) :
    (h.loadSymbolsForBinary binary).run s =
      match (h.locateDatabase binary c.path c.debugId).run s₁ with
      | (none, s₂) => (.error (.companionRefused c.path), s₂)
      | (some location, s₂) =>
        ((((h.load location).run s₂).1.mapError (.notLoaded location)).bind fun pdb =>
          plainMap location ((Database.openSymbols pdb).bind (checkId c.debugId)), ((h.load location).run s₂).2) := by
  obtain ⟨image, hc, hrun⟩ := run_loadSymbolsForBinary_of_names hn
  rw [hrun, loadDatabaseOf, hc]
  dsimp only
  rw [if_neg (not_not_intro hpath), StateT.run_bind]
  cases (h.locateDatabase binary c.path c.debugId).run s₁ with
  | mk found s₂ =>
    cases found with
    | none => rfl
    | some location =>
      change StateT.run (h.loadFile location >>= _) s₂ = _
      rw [StateT.run_bind, run_loadFile]
      dsimp only
      cases (h.load location).run s₂ with
      | mk result s₃ => cases result <;> rfl

/-- The database that the helper finds decides, and only one of the same build is accepted. -/
theorem run_of_locates [Sorting] [Demangler] (hn : h.NamesDatabase binary s c s₁)
    (hl : h.Locates binary c s₁ location s₂) :
    (h.loadSymbolsForBinary binary).run s =
      ((((h.load location).run s₂).1.mapError (.notLoaded location)).bind fun pdb =>
        plainMap location ((Database.openSymbols pdb).bind (checkId c.debugId)), ((h.load location).run s₂).2) := by
  rw [run_of_utf8 hn hl.1, hl.2]

theorem debugId_of_checkId {expected : DebugId} {x source : SymbolSource Remembering}
    (hx : checkId expected x = .ok source) : x = source ∧ source.debugId = expected := by
  unfold checkId at hx
  split at hx
  next hid =>
    cases hx
    exact ⟨rfl, hid⟩
  next => cases hx

theorem run_of_not_names [Sorting] [Demangler] (hn : ¬∃ c s₁, h.NamesDatabase binary s c s₁) :
    (h.loadSymbolsForBinary binary).run s = (h.loadSymbols binary).run s := by
  rw [loadSymbolsForBinary, StateT.run_bind, run_loadSymbols, run_loadFile]
  cases hload : (h.load binary).run s with
  | mk result s₁ =>
    cases result with
    | error cause => rfl
    | ok data =>
      change StateT.run (if FileKind.ofBytes data = .image then _ else _ : StateM σ _) s₁ =
        (plainMap binary (openSymbols data), s₁)
      by_cases hkind : FileKind.ofBytes data = .image
      · rw [if_pos hkind]
        cases himage : Image.parse data with
        | error fault =>
          rw [openSymbols, hkind]
          dsimp only
          rw [himage]
          rfl
        | ok image =>
          dsimp only
          have hnone : ¬image.companion?.isSome = true := by
            intro hsome
            obtain ⟨c, hc⟩ := Option.isSome_iff_exists.mp hsome
            exact hn ⟨c, s₁, data, image, hload, himage, hc⟩
          rw [if_neg hnone]
          rfl
      · rw [if_neg hkind]
        rfl

/-- A binary that names a database has the symbols of that database, of the same build and from where the helper found
it, or none; each failure has its cause. Any other file is opened by itself. -/
structure PairsOwnDatabase [Sorting] [Demangler] (h : Helper (StateM σ)) (binary : Text) (s : σ) : Prop where
  paired : ∀ {c s₁ map s'}, h.NamesDatabase binary s c s₁ → (h.loadSymbolsForBinary binary).run s = (.ok map, s') →
    ∃ location s₂ pdb source db, h.Locates binary c s₁ location s₂ ∧ (h.load location).run s₂ = (.ok pdb, s') ∧
      Database.openSymbols pdb = .ok source ∧ map = ⟨location, source, none⟩ ∧
      map.source.debugId = .ofGuidAge c.guid c.age ∧
      Database.parse pdb = .ok db ∧ db.info.guid = c.guid ∧ (db.modules.map (·.age)).getD db.info.age = c.age
  accepted : ∀ {c s₁ location s₂ pdb s' source}, h.NamesDatabase binary s c s₁ → h.Locates binary c s₁ location s₂ →
    (h.load location).run s₂ = (.ok pdb, s') → Database.openSymbols pdb = .ok source →
    source.debugId = .ofGuidAge c.guid c.age →
    (h.loadSymbolsForBinary binary).run s = (.ok ⟨location, source, none⟩, s')
  foreign : ∀ {c s₁ location s₂ pdb s' source}, h.NamesDatabase binary s c s₁ → h.Locates binary c s₁ location s₂ →
    (h.load location).run s₂ = (.ok pdb, s') → Database.openSymbols pdb = .ok source →
    source.debugId ≠ .ofGuidAge c.guid c.age →
    (h.loadSymbolsForBinary binary).run s =
      (.error (.unmatchedId (.ofGuidAge c.guid c.age) source.debugId), s')
  unreadable : ∀ {c s₁ location s₂ pdb s' failure}, h.NamesDatabase binary s c s₁ →
    h.Locates binary c s₁ location s₂ → (h.load location).run s₂ = (.ok pdb, s') →
    Database.openSymbols pdb = .error failure → (h.loadSymbolsForBinary binary).run s = (.error failure, s')
  notLoaded : ∀ {c s₁ location s₂ cause s'}, h.NamesDatabase binary s c s₁ → h.Locates binary c s₁ location s₂ →
    (h.load location).run s₂ = (.error cause, s') →
    (h.loadSymbolsForBinary binary).run s = (.error (.notLoaded location cause), s')
  refused : ∀ {c s₁ s₂}, h.NamesDatabase binary s c s₁ → Text.Utf8.isValid c.path →
    (h.locateDatabase binary c.path c.debugId).run s₁ = (none, s₂) →
    (h.loadSymbolsForBinary binary).run s = (.error (.companionRefused c.path), s₂)
  notUtf8 : ∀ {c s₁}, h.NamesDatabase binary s c s₁ → ¬Text.Utf8.isValid c.path →
    (h.loadSymbolsForBinary binary).run s = (.error (.companionNotUtf8 binary), s₁)
  otherwise : (¬∃ c s₁, h.NamesDatabase binary s c s₁) →
    (h.loadSymbolsForBinary binary).run s = (h.loadSymbols binary).run s

theorem paired_of_run [Sorting] [Demangler] {map : SymbolMap Remembering} (hn : h.NamesDatabase binary s c s₁)
    (hrun : (h.loadSymbolsForBinary binary).run s = (.ok map, s₃)) :
    ∃ location s₂ pdb source, h.Locates binary c s₁ location s₂ ∧ (h.load location).run s₂ = (.ok pdb, s₃) ∧
      Database.openSymbols pdb = .ok source ∧ map = ⟨location, source, none⟩ ∧ source.debugId = c.debugId := by
  by_cases hpath : Text.Utf8.isValid c.path = true
  · rw [run_of_utf8 hn hpath] at hrun
    split at hrun
    next => cases hrun
    next location s₂ hfound =>
      obtain ⟨hresult, hstate⟩ := Prod.mk.inj hrun
      obtain ⟨pdb, hpdb, hresult⟩ := bind_eq_ok_iff.mp hresult
      obtain ⟨source, hsource, hmap⟩ := map_eq_ok_iff.mp hresult
      obtain ⟨x, hopen, hcheck⟩ := bind_eq_ok_iff.mp hsource
      obtain ⟨rfl, hid⟩ := debugId_of_checkId hcheck
      have hload : (h.load location).run s₂ = (.ok pdb, s₃) := by
        cases hl : (h.load location).run s₂ with
        | mk result s' =>
          rw [hl] at hpdb hstate
          cases result with
          | error cause => cases hpdb
          | ok data =>
            cases hpdb
            cases hstate
            rfl
      exact ⟨location, s₂, pdb, x, ⟨hpath, hfound⟩, hload, hopen, hmap.symm, hid⟩
  · rw [run_of_not_utf8 hn hpath] at hrun
    cases hrun

theorem pairsOwnDatabase [Sorting] [Demangler] (h : Helper (StateM σ)) (binary : Text) (s : σ) :
    h.PairsOwnDatabase binary s where
  paired hn hrun := by
    obtain ⟨location, s₂, pdb, source, hl, hload, hopen, rfl, hid⟩ := paired_of_run hn hrun
    obtain ⟨db, hdb, hsame⟩ := Database.debugId_of_openSymbols hopen
    obtain ⟨hguid, hage⟩ := DebugId.ofGuidAge_inj (hsame.symm.trans hid)
    exact ⟨location, s₂, pdb, source, db, hl, hload, hopen, rfl, hid, hdb, hguid, hage⟩
  accepted {c _ _ _ _ _ source} hn hl hload hopen hid := by
    have hcheck : checkId c.debugId source = .ok source := if_pos hid
    rw [run_of_locates hn hl, hload, Except.mapError, Except.bind, hopen, Except.bind, hcheck]
    rfl
  foreign {c _ _ _ _ _ source} hn hl hload hopen hid := by
    have hcheck : checkId c.debugId source = .error (.unmatchedId c.debugId source.debugId) := if_neg hid
    rw [run_of_locates hn hl, hload, Except.mapError, Except.bind, hopen, Except.bind, hcheck]
    rfl
  unreadable hn hl hload hopen := by
    rw [run_of_locates hn hl, hload, Except.mapError, Except.bind, hopen]
    rfl
  notLoaded hn hl hload := by
    rw [run_of_locates hn hl, hload]
    rfl
  refused hn hpath hfound := by
    rw [run_of_utf8 hn hpath, hfound]
  notUtf8 hn hpath := run_of_not_utf8 hn hpath
  otherwise hn := run_of_not_names hn

/-- An image whose debug directory leads to one record, of this age. -/
def smallBinary (age : UInt8) : Bytes :=
  List.toArray ([0x4d, 0x5a] ++ List.replicate 58 0 ++ [0x40, 0, 0, 0] ++
    [0x50, 0x45, 0, 0, 0x4c, 1, 1] ++ List.replicate 13 0 ++ [152, 0, 0, 0] ++
    [0x0b, 1] ++ List.replicate 90 0 ++ [7, 0, 0, 0] ++ List.replicate 48 0 ++ [0, 0x10, 0, 0, 28, 0, 0, 0] ++
    List.replicate 8 0 ++ [28, 0, 0, 0, 0, 0x10, 0, 0, 28, 0, 0, 0, 0x18, 1, 0, 0] ++ List.replicate 16 0 ++
    List.replicate 12 0 ++ [2, 0, 0, 0, 30, 0, 0, 0, 0, 0, 0, 0, 0x34, 1, 0, 0] ++
    [0x52, 0x53, 0x44, 0x53] ++ List.replicate 16 7 ++ [age, 0, 0, 0] ++ [0x61, 0x2e, 0x70, 0x64, 0x62, 0])

def smallCompanion (age : UInt32) : Companion := ⟨.replicate 16 7, age, "a.pdb"⟩

/-- Has one image and one database, and counts how often it is asked for one. -/
def smallHelper (image : Bytes) : Helper (StateM Nat) where
  load location :=
    let database := (Container.turnedAround 512).file Database.smallDatabase fun _ => 0
    pure (.ok (if location = "a.exe" then image else database))
  locateDatabase _ path _ := do
    modify (· + 1)
    pure (some path)
  locateExternal _ _ := pure none

theorem namesDatabase_smallHelper {image : Bytes} (hc : (Image.parse image).toOption.bind (·.companion?) = some c) :
    (smallHelper image).NamesDatabase "a.exe" 0 c 0 := by
  cases himage : Image.parse image with
  | error fault =>
    rw [himage] at hc
    cases hc
  | ok parsed =>
    rw [himage] at hc
    exact ⟨image, parsed, rfl, himage, hc⟩

theorem locates_smallHelper (image : Bytes) (age : UInt32) :
    (smallHelper image).Locates "a.exe" (smallCompanion age) 0 "a.pdb" 1 := by
  have hutf8 : Text.Utf8.isValid "a.pdb" = true := by decide +kernel
  exact ⟨hutf8, rfl⟩

theorem load_smallHelper (image : Bytes) :
    ((smallHelper image).load "a.pdb").run 1 =
      (.ok ((Container.turnedAround 512).file Database.smallDatabase fun _ => 0), 1) := by
  have hother : ("a.pdb" : Text) ≠ "a.exe" := by decide +kernel
  rw [smallHelper]
  dsimp only
  rw [if_neg hother]
  rfl

open scoped Sorting Demangler

theorem pairsOwnDatabase_small :
    ∃ source, ((smallHelper (smallBinary 1)).loadSymbolsForBinary "a.exe").run 0 = (.ok ⟨"a.pdb", source, none⟩, 1) ∧
      source.debugId = .ofGuidAge (.replicate 16 7) 1 ∧
      ((smallHelper (smallBinary 2)).loadSymbolsForBinary "a.exe").run 0 =
        (.error (.unmatchedId (.ofGuidAge (.replicate 16 7) 2) (.ofGuidAge (.replicate 16 7) 1)), 1) := by
  have hsame : (smallHelper (smallBinary 1)).NamesDatabase "a.exe" 0 (smallCompanion 1) 0 :=
    namesDatabase_smallHelper (by decide +kernel)
  have hother : (smallHelper (smallBinary 2)).NamesDatabase "a.exe" 0 (smallCompanion 2) 0 :=
    namesDatabase_smallHelper (by decide +kernel)
  have hopen := Database.openSymbols_smallDatabase (Database.stores_smallDatabase (.inl rfl) fun _ => 0)
  have hpaired := (pairsOwnDatabase (smallHelper (smallBinary 1)) "a.exe" 0).accepted hsame
    (locates_smallHelper _ 1) (load_smallHelper _) hopen rfl
  have hforeign := (pairsOwnDatabase (smallHelper (smallBinary 2)) "a.exe" 0).foreign hother
    (locates_smallHelper _ 2) (load_smallHelper _) hopen
  exact ⟨_, hpaired, rfl, hforeign (by decide +kernel)⟩

end Helper

end CodeAtlas
