import CodeAtlas.Database.ModuleList
import CodeAtlas.Proofs.Bytes.Holds

namespace CodeAtlas.Database

variable {data : Bytes} {pos : Nat}

/-- A module as it is stored: its entry, the bytes that are passed over, and what fills it up to a multiple of four
bytes. -/
structure StoredModule where
  entry : ModuleEntry
  contribution : List UInt8
  sources : List UInt8
  filling : List UInt8
  length_contribution : contribution.length = 34
  length_sources : sources.length = 16
  name_noNul : 0 ∉ entry.name
  object_noNul : 0 ∉ entry.object
  aligned : entry.size + filling.length = Bytes.align4 entry.size

namespace StoredModule

/-- All but the filling. -/
def body (m : StoredModule) : List UInt8 :=
  m.contribution ++ (leBytes 2 m.entry.stream.toNat ++ (leBytes 4 m.entry.symbolSize.toNat ++
    (leBytes 4 m.entry.c11Size.toNat ++ (leBytes 4 m.entry.c13Size.toNat ++ (m.sources ++
      ((m.entry.name ++ [0]) ++ (m.entry.object ++ [0])))))))

def bytes (m : StoredModule) : List UInt8 := m.body ++ m.filling

/-- Modules that stand one after the other. The filling of the last one may be left out. -/
def listBytes (fillLast : Bool) : List StoredModule → List UInt8
  | [] => []
  | [m] => if fillLast then m.bytes else m.body
  | m :: next :: ms => m.bytes ++ listBytes fillLast (next :: ms)

theorem length_body (m : StoredModule) : m.body.length = m.entry.size := by
  simp only [body, ModuleEntry.size, ModuleEntry.fixedSize, List.length_append, length_leBytes, m.length_contribution,
    m.length_sources, List.length_singleton]
  omega

theorem length_bytes (m : StoredModule) : m.bytes.length = Bytes.align4 m.entry.size := by
  rw [bytes, List.length_append, length_body, m.aligned]

theorem readAt?_of_holds {m : StoredModule} (h : data.Holds pos m.body) :
    ModuleEntry.readAt? data pos = some m.entry := by
  have hnumbers := h.right
  rw [m.length_contribution] at hnumbers
  have hstream : data.u16At? (pos + 34) = some m.entry.stream := hnumbers.left.u16At?
  have hsymbols : data.u32At? (pos + 36) = some m.entry.symbolSize := hnumbers.right.left.u32At?
  have hc11 : data.u32At? (pos + 40) = some m.entry.c11Size := hnumbers.right.right.left.u32At?
  have hc13 : data.u32At? (pos + 44) = some m.entry.c13Size := hnumbers.right.right.right.left.u32At?
  have hnames := hnumbers.right.right.right.right.right
  rw [m.length_sources] at hnames
  have hname : data.cstringAt? (pos + ModuleEntry.fixedSize) = some m.entry.name := hnames.left.cstringAt? m.name_noNul
  have hobject := hnames.right.cstringAt? m.object_noNul
  rw [List.length_append, List.length_singleton] at hobject
  have hobject' : data.cstringAt? (pos + ModuleEntry.fixedSize + (m.entry.name.length + 1)) = some m.entry.object :=
    hobject
  simp only [ModuleEntry.readAt?, hstream, hsymbols, hc11, hc13, hname, hobject', Option.bind_eq_bind, Option.bind_some]

/-- A module is read and the next one is looked for behind its filling, whether that is there or not. -/
theorem list_of_readAt? {m : StoredModule} (h : data.Holds pos m.body) (hpos : pos % 4 = 0) :
    ModuleEntry.list data pos = (m.entry :: ·) <$> ModuleEntry.list data (pos + m.bytes.length) := by
  have hsize := h.le_size
  rw [length_body, ModuleEntry.size] at hsize
  rw [ModuleEntry.list, if_neg (by omega), readAt?_of_holds h, m.length_bytes, ← Bytes.align4_add hpos]

/-- What is too short for a module is no module. -/
theorem list_of_lt (h : data.size < pos + ModuleEntry.fixedSize) : ModuleEntry.list data pos = .ok [] := by
  rw [ModuleEntry.list, if_pos h]

theorem list_of_holds {fillLast : Bool} {ms : List StoredModule} (h : data.Holds pos (listBytes fillLast ms))
    (hend : data.size = pos + (listBytes fillLast ms).length) (hpos : pos % 4 = 0) :
    ModuleEntry.list data pos = .ok (ms.map (·.entry)) := by
  induction ms generalizing pos with
  | nil =>
    rw [listBytes, List.length_nil] at hend
    exact list_of_lt (by rw [ModuleEntry.fixedSize]; omega)
  | cons m ms ih =>
    have hlength := m.length_bytes
    have hmod := Bytes.align4_mod m.entry.size
    cases ms with
    | nil =>
      have hbody : data.Holds pos m.body := by
        rw [listBytes] at h
        split at h
        · exact h.left
        · exact h
      have hle : data.size ≤ pos + m.bytes.length := by
        rw [hend, listBytes]
        split
        · exact Nat.le_refl _
        · rw [bytes, List.length_append]
          omega
      rw [list_of_readAt? hbody hpos, list_of_lt (by rw [ModuleEntry.fixedSize]; omega)]
      rfl
    | cons next ms =>
      rw [listBytes] at h hend
      rw [List.length_append] at hend
      rw [list_of_readAt? h.left.left hpos, ih h.right (by omega) (by omega)]
      rfl

end StoredModule

namespace ImageStreams

/-- The numbers as they are stored. -/
def bytes (ns : List UInt16) : List UInt8 := (ns.map (·.toNat)).flatMap (leBytes 2)

theorem length_bytes (ns : List UInt16) : (bytes ns).length = ns.length * 2 := by
  rw [bytes, length_flatMap_leBytes, List.length_map]

theorem u16At?_bytes (ns : List UInt16) (i : Nat) : Bytes.u16At? (bytes ns).toArray (2 * i) = ns[i]? := by
  rw [Nat.mul_comm, Bytes.u16At?]
  cases h : ns[i]? with
  | some n =>
    have hnat : (ns.map (·.toNat))[i]? = some n.toNat := by rw [List.getElem?_map, h, Option.map_some]
    have hvalue := Bytes.valueAt?_of_slice? n.toNat_lt (slice?_flatMap_leBytes 2 hnat)
    rw [bytes, hvalue, Option.map_some, UInt16.ofNat_toNat]
  | none =>
    have hi := List.getElem?_eq_none_iff.mp h
    have hslice : Bytes.slice? (bytes ns).toArray (i * 2) 2 = none := by
      rw [Bytes.slice?_eq_none_iff, List.size_toArray, length_bytes]
      omega
    rw [Bytes.valueAt?, hslice]
    rfl

/-- Numbers that are stored are read, the others are nil. -/
theorem toList_parse {ns : List UInt16} (h : ns.length ≤ 11) :
    (parse (bytes ns).toArray).toList = ns ++ List.replicate (11 - ns.length) nilStream := by
  have hnumbers : (parse (bytes ns).toArray).toList = (List.range 11).map fun i => ns[i]?.getD nilStream := by
    simp only [parse, toList, u16At?_bytes]
    rfl
  rw [hnumbers]
  apply List.ext_getElem?
  intro i
  rw [List.getElem?_map, List.getElem?_append, List.getElem?_replicate]
  by_cases hi : i < ns.length
  · rw [List.getElem?_range (by omega), if_pos hi, Option.map_some, List.getElem?_eq_getElem hi, Option.getD_some]
  · rw [if_neg hi]
    by_cases hlast : i < 11
    · rw [List.getElem?_range hlast, if_pos (by omega), Option.map_some, List.getElem?_eq_none (by omega),
        Option.getD_none]
    · rw [List.getElem?_eq_none (by rw [List.length_range]; omega), if_neg (by omega), Option.map_none]

end ImageStreams

end CodeAtlas.Database
