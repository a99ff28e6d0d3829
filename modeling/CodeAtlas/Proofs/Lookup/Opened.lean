import CodeAtlas.Lookup.Sorting.Partition
import CodeAtlas.Proofs.Database.LayoutIndependence
import CodeAtlas.Proofs.Database.Lookup
import CodeAtlas.Proofs.Image.Lookup

namespace CodeAtlas

/-- Whatever tables the file holds, the symbols of an image and those of a database answer with the closest one. -/
theorem answersClosest_of_opened [Sorting] [Demangler] (data : Bytes) :
    (∀ image, Image.parse data = .ok image →
      (image.symbolSource : SymbolSource Remembering).AnswersClosest image.Denotes) ∧
    ∀ source, Database.openSymbols data = .ok source → source.AnswersClosest fun a r => a = .relative r :=
  ⟨fun image _ => image.answersClosest_symbolSource, fun _ => Database.answersClosest_of_openSymbols⟩

/-- An image with one section and one function in its symbol table. -/
def smallImage : Bytes :=
  List.toArray ([0x4d, 0x5a] ++ List.replicate 58 0 ++ [0x40, 0, 0, 0] ++
    [0x50, 0x45, 0, 0, 0x4c, 1, 1, 0, 0, 0, 0, 0, 224, 0, 0, 0, 1, 0, 0, 0, 96, 0, 0, 0] ++
    [0x0b, 1] ++ List.replicate 26 0 ++ [0, 0, 0x40, 0] ++ List.replicate 64 0 ++
    [0x63, 0x6f, 0x64, 0x65, 0, 0, 0, 0, 0, 1, 0, 0, 0, 0x10, 0, 0] ++ List.replicate 24 0 ++
    [0x66, 0, 0, 0, 0, 0, 0, 0, 0x10, 0, 0, 0, 1, 0, 0x20, 0, 2, 0])

def smallHeaders : Image := ⟨smallImage, false, 0x14c, 0x400000, 0, 224, 1, [], [⟨"code", 0x100, 0x1000, 0, 0, 0⟩]⟩

theorem parse_smallImage : Image.parse smallImage = .ok smallHeaders := Image.parse_of_headers rfl (by decide +kernel)

open scoped Demangler in
theorem functions_smallImage : smallHeaders.functions = [⟨0x1010, some 0x1100, "f"⟩] := by
  have hnamed : smallHeaders.namedFunctions = [⟨0x1010, "f"⟩] := by decide +kernel
  have hextents : smallHeaders.extents = [] := by decide +kernel
  rw [Image.functions, hnamed, hextents, ImageFunction.list, List.map_nil, List.append_nil, firstPerKey_singleton]
  decide +kernel

theorem frames?_smallTable [Sorting] :
    Database.smallTable.frames? 0x1020 = some ⟨0x1010, none, [⟨some "f", none, none⟩]⟩ := by
  have hf : Database.smallTable.function? 0x1020 = some ⟨0x1010, none, 0x1100, "f", none, []⟩ := by decide +kernel
  rw [Database.FunctionTable.frames?, hf, Option.map_some, Database.FunctionTable.inlinedFrames, List.filterMap_nil,
    List.mergeSort_nil]
  rfl

open scoped Sorting Demangler

theorem answersClosest_small :
    (∃ image answer, Image.parse smallImage = .ok image ∧
      (((image.symbolSource : SymbolSource Remembering).lookup (.preferred 0x401020)).run .empty).1 = some answer ∧
      ∃ r, image.Denotes (.preferred 0x401020) r ∧
        answer.symbol.IsClosest (image.symbolSource : SymbolSource Remembering).symbols r) ∧
    ∃ source answer, Database.openSymbols ((Container.turnedAround 512).file Database.smallDatabase fun _ => 0) =
        .ok source ∧
      ((source.lookup (.relative 0x1020)).run .empty).1 = some answer ∧
      ∃ r, Address.relative 0x1020 = .relative r ∧ answer.symbol.IsClosest source.symbols r := by
  have himage := parse_smallImage
  have hanswer : smallHeaders.answer? smallHeaders.functions.toArray (.preferred 0x401020) =
      some ⟨⟨0x1010, some 0xf0, "f"⟩, none⟩ := by
    rw [functions_smallImage]
    decide +kernel
  have hsource := Database.openSymbols_smallDatabase (Database.stores_smallDatabase (.inl rfl) fun _ => 0)
  have hlookup : ∃ answer, ((Database.lookup Database.smallTable.frameSource none (.relative 0x1020)).run .empty).1 =
      some answer := by
    have hframes : Database.smallTable.frameSource.frames? 0x1020 = _ := frames?_smallTable
    rw [Database.lookup, hframes]
    exact ⟨_, rfl⟩
  obtain ⟨answer, hlookup⟩ := hlookup
  exact ⟨⟨_, _, himage, hanswer, (answersClosest_of_opened _).1 _ himage _ .empty _ hanswer⟩, _, answer, hsource, hlookup,
    (answersClosest_of_opened _).2 _ hsource _ _ _ hlookup⟩

end CodeAtlas
