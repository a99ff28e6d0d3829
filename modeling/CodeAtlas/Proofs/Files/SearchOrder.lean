import CodeAtlas.Files.Tree
import CodeAtlas.Proofs.SourceServer.Composition

namespace CodeAtlas.FileSystem

open Files Text

variable {σ : Type} {fs : FileSystem (StateM σ)} {s : σ} {regular : Text → Bool} {directories paths : List Text}
  {binary recorded : Text}

/-- The paths that lead to files, where asking for one changes nothing. -/
def Shows (fs : FileSystem (StateM σ)) (s : σ) (regular : Text → Bool) : Prop :=
  ∀ path, (fs.isFile path).run s = (regular path, s)

/-- Where a database can be found in one of the directories. -/
def inDirectories (directories : List Text) (recorded : Text) : List Text :=
  directories.map (join · (recordedName recorded))

def besideBinary (binary recorded : Text) : Text := join (parent binary) (recordedName recorded)

/-- A path without a name is refused. Any other leads to the first file among those in the directories, the recorded
one and the one beside the binary. -/
structure SearchesInOrder (fs : FileSystem (StateM σ)) (s : σ) (regular : Text → Bool) (directories : List Text)
    (binary recorded : Text) : Prop where
  refused_iff : (fs.locateDatabase directories binary recorded).run s = (none, s) ↔
    recorded = [] ∨ recorded.getLast? = some slash ∨ recorded.getLast? = some backslash
  name : SourceIndex.IsFileName recorded (recordedName recorded)
  found : recordedName recorded ≠ [] → (fs.locateDatabase directories binary recorded).run s =
    (some (((inDirectories directories recorded ++ [recorded, besideBinary binary recorded]).find? regular).getD
      recorded), s)
  /-- The file beside the binary comes before the recorded one unless both are there and no directory has one. -/
  besideFirst_iff : recordedName recorded ≠ [] →
    ((fs.locateDatabase directories binary recorded).run s =
        (some (((inDirectories directories recorded ++ [besideBinary binary recorded]).find? regular).getD
          recorded), s) ↔
      ((∃ path ∈ inDirectories directories recorded, regular path = true) ∨ regular recorded = false ∨
        regular (besideBinary binary recorded) = false ∨ besideBinary binary recorded = recorded))

theorem recordedName_eq_nil_iff : recordedName recorded = [] ↔
    recorded = [] ∨ recorded.getLast? = some slash ∨ recorded.getLast? = some backslash := by
  have hnil : recorded = [] ↔ recorded.reverse = [] := List.reverse_eq_nil_iff.symm
  rw [recordedName, List.reverse_eq_nil_iff, List.getLast?_eq_head?_reverse, hnil]
  cases recorded.reverse with
  | nil => simp
  | cons b front =>
    rw [List.takeWhile_cons]
    by_cases hslash : b = slash
    · simp [hslash]
    · by_cases hbackslash : b = backslash <;> simp [hslash, hbackslash]

theorem run_firstFile (h : fs.Shows s regular) (paths : List Text) :
    (fs.firstFile paths).run s = (paths.find? regular, s) := by
  induction paths with
  | nil => rfl
  | cons path paths ih =>
    rw [firstFile, StateT.run_bind, h path, List.find?_cons]
    cases regular path with
    | true => rfl
    | false => exact ih

theorem run_locateDatabase_of_no_name (h : recordedName recorded = []) :
    (fs.locateDatabase directories binary recorded).run s = (none, s) := by
  rw [locateDatabase, if_pos h]
  rfl

theorem run_locateDatabase (hs : fs.Shows s regular) (h : recordedName recorded ≠ []) :
    (fs.locateDatabase directories binary recorded).run s =
      (some (((inDirectories directories recorded ++ [recorded, besideBinary binary recorded]).find? regular).getD
        recorded), s) := by
  rw [locateDatabase, if_neg h, StateT.run_bind, run_firstFile hs]
  rfl

/-- Two orders of search differ only where both files are there and nothing comes before them. -/
theorem getD_find?_eq_iff {front : List Text} {beside : Text} :
    ((front ++ [recorded, beside]).find? regular).getD recorded = ((front ++ [beside]).find? regular).getD recorded ↔
      (∃ path ∈ front, regular path = true) ∨ regular recorded = false ∨ regular beside = false ∨
        beside = recorded := by
  rw [List.find?_append, List.find?_append]
  cases hfront : front.find? regular with
  | some path =>
    have hpath : ∃ path ∈ front, regular path = true :=
      ⟨path, List.mem_of_find?_eq_some hfront, List.find?_some hfront⟩
    simp [hpath]
  | none =>
    have hnone : ¬∃ path ∈ front, regular path = true := by simpa using hfront
    rw [Option.none_or, Option.none_or, or_iff_right hnone]
    cases hrecorded : regular recorded <;> cases hbeside : regular beside <;> simp [hrecorded, hbeside, eq_comm]

theorem searchesInOrder (h : fs.Shows s regular) (directories : List Text) (binary recorded : Text) :
    fs.SearchesInOrder s regular directories binary recorded where
  refused_iff := by
    rw [← recordedName_eq_nil_iff]
    refine ⟨fun hrun => ?_, run_locateDatabase_of_no_name⟩
    by_contra hname
    rw [run_locateDatabase h hname] at hrun
    cases hrun
  name := SourceIndex.fileName_eq_iff.mp rfl
  found := run_locateDatabase h
  besideFirst_iff hname := by
    rw [run_locateDatabase h hname, Prod.mk.injEq, Option.some_inj, and_iff_left rfl, getD_find?_eq_iff]

/-- A program was moved with its database, and where it was built another one is left. -/
def movedTree : FileTree := ⟨[(["bin", "a.exe"], #[]), (["bin", "a.pdb"], #[1]), (["out", "a.pdb"], #[2])], []⟩

theorem shows_fileSystem (t : FileTree) : FileTree.fileSystem.Shows t t.isFile := fun _ => rfl

theorem searchesInOrder_movedTree : FileTree.fileSystem.Shows movedTree movedTree.isFile ∧
    (FileTree.fileSystem.locateDatabase ["lib"] "bin/a.exe" "out/a.pdb").run movedTree =
      (some (ofString "out/a.pdb"), movedTree) := by
  have hname : recordedName "out/a.pdb" ≠ [] := by decide +kernel
  have hfound : ((inDirectories ["lib"] "out/a.pdb" ++ [ofString "out/a.pdb", besideBinary "bin/a.exe" "out/a.pdb"]).find?
      movedTree.isFile).getD "out/a.pdb" = ofString "out/a.pdb" := by decide +kernel
  refine ⟨shows_fileSystem movedTree, ?_⟩
  rw [(searchesInOrder (shows_fileSystem movedTree) ["lib"] "bin/a.exe" "out/a.pdb").found hname, hfound]

/-- The file that is left is taken although there is one beside the binary. -/
theorem passesOverBeside_movedTree : movedTree.isFile (besideBinary "bin/a.exe" "out/a.pdb") = true ∧
    (FileTree.fileSystem.locateDatabase ["lib"] "bin/a.exe" "out/a.pdb").run movedTree ≠
      (some (((inDirectories ["lib"] "out/a.pdb" ++ [besideBinary "bin/a.exe" "out/a.pdb"]).find?
        movedTree.isFile).getD "out/a.pdb"), movedTree) := by
  have hname : recordedName "out/a.pdb" ≠ [] := by decide +kernel
  refine ⟨by decide +kernel, fun h => ?_⟩
  rw [run_locateDatabase (shows_fileSystem movedTree) hname, Prod.mk.injEq, Option.some_inj] at h
  exact absurd h.1 (by decide +kernel)

end CodeAtlas.FileSystem
