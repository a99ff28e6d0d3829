import CodeAtlas.Proofs.Image.Lookup
import CodeAtlas.Proofs.Text.Numeral

namespace CodeAtlas.ImageFunction

/-- A name that nothing gave: the address to the base sixteen, behind a marker. -/
def IsPlaceholder (rva : UInt32) (name : Text) : Prop := name = "fun_" ++ (Nat.toDigits 16 rva.toNat).map Text.code

theorem isPlaceholder_placeholderName (rva : UInt32) : IsPlaceholder rva (placeholderName rva) := by
  rw [IsPlaceholder, placeholderName, Text.hex_eq_toDigits]

variable {sections : List Section} {symbols : List NamedAddress} {extents : List Extent}

theorem getElem?_close (fs : List NamedAddress) (i : Nat) : (close sections extents fs)[i]? = fs[i]?.map fun f =>
    ⟨f.rva, knownStop? extents f.rva <|> inferredStop sections f.rva (fs[i + 1]?.map (·.rva)), f.name⟩ := by
  induction fs generalizing i with
  | nil => rfl
  | cons f rest ih =>
    cases i with
    | zero => rw [close, List.getElem?_cons_succ, List.head?_eq_getElem?]; rfl
    | succ i => rw [close, List.getElem?_cons_succ, List.getElem?_cons_succ, List.getElem?_cons_succ, ih]

/-- What a function is called, apart from its end. -/
def named (f : ImageFunction) : NamedAddress := ⟨f.start, f.name⟩

theorem map_named_close (fs : List NamedAddress) : (close sections extents fs).map named = fs := by
  induction fs with
  | nil => rfl
  | cons f rest ih => rw [close, List.map_cons, ih]; rfl

/-- The extents as symbols with placeholders for names. -/
def unnamed (e : Extent) : NamedAddress := ⟨e.start, placeholderName e.start⟩

theorem map_named_list : (list sections symbols extents).map named =
    firstPerKey NamedAddress.rva (symbols ++ extents.map unnamed) := map_named_close _

/-- The entry of a start is the first symbol with that address, or else an extent with that start. -/
theorem find?_list (sections : List Section) (symbols : List NamedAddress) (extents : List Extent) (s : UInt32) :
    ((list sections symbols extents).find? (·.start == s)).map named =
      (symbols.find? (·.rva == s)).or ((extents.find? (·.start == s)).map unnamed) := by
  have hkeys : ((list sections symbols extents).map named).find? (·.rva == s) =
      ((list sections symbols extents).find? (·.start == s)).map named := List.find?_map
  rw [← hkeys, map_named_list, find?_firstPerKey, List.find?_append, List.find?_map]
  rfl

theorem start_list_iff (s : UInt32) : (∃ f ∈ list sections symbols extents, f.start = s) ↔
    (∃ a ∈ symbols, a.rva = s) ∨ ∃ e ∈ extents, e.start = s := by
  have h := congrArg Option.isSome (find?_list sections symbols extents s)
  rw [Option.isSome_map, Option.isSome_or, Option.isSome_map, Bool.eq_iff_iff, Bool.or_eq_true, List.find?_isSome,
    List.find?_isSome, List.find?_isSome] at h
  simpa only [beq_iff_eq] using h

/-- The last extent with a start tells where it ends. -/
theorem knownStop?_eq_some {before after : List Extent} {e : Extent} (h : extents = before ++ e :: after)
    (hlast : ∀ d ∈ after, d.start ≠ e.start) : knownStop? extents e.start = some e.stop := by
  have hreverse : extents.reverse = after.reverse ++ e :: before.reverse := by
    rw [h, List.reverse_append, List.reverse_cons, List.append_assoc, List.singleton_append]
  have hfind : extents.reverse.find? (·.start == e.start) = some e :=
    find?_key_eq_some hreverse fun d hd => hlast d (List.mem_reverse.mp hd)
  rw [knownStop?, hfind, Option.map_some]

theorem knownStop?_eq_none {s : UInt32} (h : ∀ e ∈ extents, e.start ≠ s) : knownStop? extents s = none := by
  have hfind : extents.reverse.find? (·.start == s) = none :=
    find?_key_eq_none fun e he => h e (List.mem_reverse.mp he)
  rw [knownStop?, hfind, Option.map_none]

theorem stop_list {i : Nat} {f : ImageFunction} (h : (list sections symbols extents)[i]? = some f) :
    f.stop = (knownStop? extents f.start <|>
      inferredStop sections f.start ((list sections symbols extents)[i + 1]?.map (·.start))) := by
  have hnext : (list sections symbols extents)[i + 1]?.map (·.start) =
      (firstPerKey NamedAddress.rva (symbols ++ extents.map unnamed))[i + 1]?.map (·.rva) := by
    rw [← map_named_list, List.getElem?_map, Option.map_map]
    rfl
  rw [hnext]
  rw [list, getElem?_close] at h
  obtain ⟨a, -, rfl⟩ := Option.map_eq_some_iff.mp h
  rfl

/-- The functions at the addresses of symbols and at the starts of extents, in order. The first symbol with an address
names its function, and the last extent with a start ends its function; where there is none, the end depends on the
sections and on the next function. -/
structure Merges (sections : List Section) (symbols : List NamedAddress) (extents : List Extent)
    (fs : List ImageFunction) : Prop where
  increasing : Increasing ImageFunction.start fs
  start_iff : ∀ s, (∃ f ∈ fs, f.start = s) ↔ (∃ a ∈ symbols, a.rva = s) ∨ ∃ e ∈ extents, e.start = s
  name_of_symbol : ∀ f ∈ fs, ∀ before a after, symbols = before ++ a :: after → a.rva = f.start →
    (∀ b ∈ before, b.rva ≠ f.start) → f.name = a.name
  name_of_none : ∀ f ∈ fs, (∀ a ∈ symbols, a.rva ≠ f.start) → IsPlaceholder f.start f.name
  stop_of_extent : ∀ f ∈ fs, ∀ before e after, extents = before ++ e :: after → e.start = f.start →
    (∀ d ∈ after, d.start ≠ f.start) → f.stop = some e.stop
  stop_of_none : ∀ i f, fs[i]? = some f → (∀ e ∈ extents, e.start ≠ f.start) →
    f.stop = inferredStop sections f.start (fs[i + 1]?.map (·.start))

theorem merges_list (sections : List Section) (symbols : List NamedAddress) (extents : List Extent) :
    Merges sections symbols extents (list sections symbols extents) := by
  have hinc := increasing_list sections symbols extents
  refine ⟨hinc, start_list_iff, fun f hf before a after hsplit ha hfirst => ?_, fun f hf hnone => ?_,
    fun f hf before e after hsplit he hlast => ?_, fun i f hi hnone => ?_⟩
  · have hfind := find?_list sections symbols extents f.start
    rw [← ha] at hfirst
    have hsymbol : symbols.find? (·.rva == a.rva) = some a := find?_key_eq_some hsplit hfirst
    rw [hinc.find?_eq hf, ← ha, hsymbol, Option.map_some, Option.some_or] at hfind
    exact congrArg NamedAddress.name (Option.some.inj hfind)
  · have hfind := find?_list sections symbols extents f.start
    have hsymbol : symbols.find? (·.rva == f.start) = none := find?_key_eq_none hnone
    rw [hinc.find?_eq hf, hsymbol, Option.map_some, Option.none_or] at hfind
    -- Without a symbol, the entry stems from an extent.
    obtain ⟨e, he, hname⟩ := Option.map_eq_some_iff.mp hfind.symm
    have hstart := List.find?_some he
    have hname' : f.name = placeholderName e.start := (congrArg NamedAddress.name hname).symm
    rw [hname', eq_of_beq hstart]
    exact isPlaceholder_placeholderName f.start
  · obtain ⟨i, hi⟩ := List.mem_iff_getElem?.mp hf
    rw [← he] at hlast
    rw [stop_list hi, ← he, knownStop?_eq_some hsplit hlast]
    rfl
  · rw [stop_list hi, knownStop?_eq_none hnone]
    rfl

end CodeAtlas.ImageFunction
