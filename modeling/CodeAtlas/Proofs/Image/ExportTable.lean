import CodeAtlas.Image.Export
import CodeAtlas.Proofs.Bytes.Reading
import CodeAtlas.Proofs.Image.StoredData

namespace CodeAtlas

namespace Bytes

/-- The words of a table stand one after the other, and nothing else does. -/
theorem valueAt?_flatMap_leBytes {width : Nat} (hwidth : 0 < width) {ns : List Nat} (hns : ∀ n ∈ ns, n < 256 ^ width)
    (i : Nat) : Bytes.valueAt? (ns.flatMap (leBytes width)).toArray (i * width) width = ns[i]? := by
  cases hi : ns[i]? with
  | some n => exact valueAt?_of_slice? (hns n (List.mem_of_getElem? hi)) (slice?_flatMap_leBytes width hi)
  | none =>
    have hlength := List.getElem?_eq_none_iff.mp hi
    have hmul := Nat.mul_le_mul_right width hlength
    rw [valueAt?, slice?_eq_none_iff.mpr ?_]
    · rfl
    · rw [List.size_toArray, length_flatMap_leBytes]
      omega

theorem valueAt?_words {W : Type} {toNat : W → Nat} {ofNat : Nat → W} {width : Nat} (hwidth : 0 < width)
    (hsmall : ∀ w, toNat w < 256 ^ width) (hword : ∀ w, ofNat (toNat w) = w) (ws : List W) (i : Nat) :
    (Bytes.valueAt? (ws.flatMap fun w => leBytes width (toNat w)).toArray (i * width) width).map ofNat = ws[i]? := by
  have hnumbers : ∀ n ∈ ws.map toNat, n < 256 ^ width := List.forall_mem_map.mpr fun w _ => hsmall w
  have h := valueAt?_flatMap_leBytes hwidth hnumbers i
  rw [List.flatMap_map] at h
  have hid : ofNat ∘ toNat = id := funext hword
  rw [h, List.getElem?_map, Option.map_map, hid, Option.map_id_fun, id_eq]

theorem u16At?_words (ws : List UInt16) (i : Nat) :
    Bytes.u16At? (ws.flatMap fun w => leBytes 2 w.toNat).toArray (i * 2) = ws[i]? :=
  valueAt?_words (by decide) UInt16.toNat_lt (fun _ => UInt16.ofNat_toNat) ws i

theorem u32At?_words (ws : List UInt32) (i : Nat) :
    Bytes.u32At? (ws.flatMap fun w => leBytes 4 w.toNat).toArray (i * 4) = ws[i]? :=
  valueAt?_words (by decide) UInt32.toNat_lt (fun _ => UInt32.ofNat_toNat) ws i

end Bytes

namespace Image

variable {image : Image} {d : Directory} {h : ExportHeader}

namespace ExportHeader

/-- The fields of an export directory behind the bytes that are passed over. -/
def bytes (h : ExportHeader) : List UInt8 :=
  leBytes 4 h.functionCount.toNat ++ (leBytes 4 h.nameCount.toNat ++ (leBytes 4 h.functions.toNat ++
    (leBytes 4 h.names.toNat ++ (leBytes 4 h.ordinals.toNat ++ []))))

theorem reads_bytes {lead : List UInt8} (hlead : lead.length = 20) (h : ExportHeader) :
    Reader.Reads read (lead ++ h.bytes) h := by
  have hskip := Reader.reads_skip lead
  rw [hlead] at hskip
  exact hskip.bind ((Reader.reads_u32 h.functionCount).bind ((Reader.reads_u32 h.nameCount).bind
    ((Reader.reads_u32 h.functions).bind ((Reader.reads_u32 h.names).bind ((Reader.reads_u32 h.ordinals).bind
      (Reader.reads_pure h))))))

theorem exists_bytes_eq {part : List UInt8} (hpart : part.length = entrySize) :
    ∃ (lead : List UInt8) (h : ExportHeader), lead.length = 20 ∧ lead ++ h.bytes = part := by
  have hrest : (part.drop 20).length = 5 * 4 := by rw [List.length_drop, hpart, entrySize]
  obtain ⟨words, hcount, hwords⟩ := exists_words32 hrest
  match words, hcount with
  | [functionCount, nameCount, functions, names, ordinals], _ =>
    refine ⟨part.take 20, ⟨functionCount, nameCount, functions, names, ordinals⟩, ?_, ?_⟩
    · exact List.length_take_of_le (by rw [hpart]; decide)
    · exact (congrArg (part.take 20 ++ ·) hwords).trans (List.take_append_drop 20 part)

/-- Neither count is more than the image could hold. -/
def Believed (h : ExportHeader) (size : UInt32) : Prop :=
  h.functionCount.toNat ≤ size.toNat / 4 ∧ h.nameCount.toNat ≤ size.toNat / 4

instance decidableBelieved (h : ExportHeader) (size : UInt32) : Decidable (h.Believed size) :=
  inferInstanceAs (Decidable (_ ∧ _))

/-- A count that is believed can be multiplied by the size of an entry. -/
theorem toNat_mul_of_le {count size : UInt32} (width : UInt32) (hcount : count.toNat ≤ size.toNat / 4)
    (hwidth : width ≤ 4) : (count * width).toNat = count.toNat * width.toNat := by
  have hsize := size.toNat_lt
  have hle : width.toNat ≤ 4 := UInt32.le_iff_toNat_le.mp hwidth
  have hmul := Nat.mul_le_mul hcount hle
  rw [UInt32.toNat_mul, Nat.mod_eq_of_lt]
  omega

theorem not_believed_iff {size : UInt32} :
    ¬h.Believed size ↔ size / 4 < h.functionCount ∨ size / 4 < h.nameCount := by
  rw [Believed, UInt32.lt_iff_toNat_lt, UInt32.lt_iff_toNat_lt, UInt32.toNat_div]
  have hfour : (4 : UInt32).toNat = 4 := rfl
  rw [hfour]
  omega

end ExportHeader

/-- The three tables of an export directory as words. -/
structure ExportWords where
  functions : List UInt32
  names : List UInt32
  ordinals : List UInt16

/-- What an entry of the name table exports: the function with the ordinal of the entry, unless that has no address or
one inside the directory, which forwards to another module. The name is a text that a NUL ends. -/
structure IsExport (image : Image) (d : Directory) (words : ExportWords) (i : Nat) (a : NamedAddress) : Prop where
  function : ∃ ordinal, words.ordinals[i]? = some ordinal ∧ words.functions[ordinal.toNat]? = some a.rva
  rva_ne_zero : a.rva ≠ 0
  outside : ¬(d.address.toNat ≤ a.rva.toNat ∧ a.rva.toNat < d.address.toNat + d.size.toNat)
  named : ∃ rva, words.names[i]? = some rva ∧ image.StoresAt rva (a.name ++ [0]) ∧ 0 ∉ a.name
  name_ne_nil : a.name ≠ []

theorem Directory.holds_iff {d : Directory} {rva : UInt32} : Directory.holds d rva = true ↔
    d.address.toNat ≤ rva.toNat ∧ rva.toNat < d.address.toNat + d.size.toNat := by
  rw [Directory.holds, Bool.and_eq_true, decide_eq_true_eq, decide_eq_true_eq, UInt32.le_iff_toNat_le]
  refine and_congr_right fun hle => ?_
  rw [UInt32.lt_iff_toNat_lt, UInt32.toNat_sub_of_le _ _ (UInt32.le_iff_toNat_le.mpr hle)]
  omega

/-- The tables are in the file where the directory says. -/
structure ExportWords.StoredIn (words : ExportWords) (image : Image) (h : ExportHeader) : Prop where
  functions : words.functions.length = h.functionCount.toNat ∧
    image.StoresAt h.functions (words.functions.flatMap fun w => leBytes 4 w.toNat)
  names : words.names.length = h.nameCount.toNat ∧
    image.StoresAt h.names (words.names.flatMap fun w => leBytes 4 w.toNat)
  ordinals : words.ordinals.length = h.nameCount.toNat ∧
    image.StoresAt h.ordinals (words.ordinals.flatMap fun w => leBytes 2 w.toNat)

def ExportWords.tables (words : ExportWords) (h : ExportHeader) : ExportTables where
  functionCount := h.functionCount.toNat
  nameCount := h.nameCount.toNat
  functions := (words.functions.flatMap fun w => leBytes 4 w.toNat).toArray
  names := (words.names.flatMap fun w => leBytes 4 w.toNat).toArray
  ordinals := (words.ordinals.flatMap fun w => leBytes 2 w.toNat).toArray

/-- The file holds all of the three tables. -/
structure ExportHeader.Backed (h : ExportHeader) (image : Image) : Prop where
  functions : image.Backs h.functions (h.functionCount.toNat * 4)
  names : image.Backs h.names (h.nameCount.toNat * 4)
  ordinals : image.Backs h.ordinals (h.nameCount.toNat * 2)

theorem ExportHeader.Backed.exists_words (hbacked : h.Backed image) : ∃ words : ExportWords, words.StoredIn image h := by
  obtain ⟨_, hfunctionBytes, hfunctions⟩ := hbacked.functions
  obtain ⟨_, hnameBytes, hnames⟩ := hbacked.names
  obtain ⟨_, hordinalBytes, hordinals⟩ := hbacked.ordinals
  obtain ⟨functions, hfunctionCount, rfl⟩ := exists_words32 hfunctionBytes
  obtain ⟨names, hnameCount, rfl⟩ := exists_words32 hnameBytes
  obtain ⟨ordinals, hordinalCount, rfl⟩ := exists_words16 hordinalBytes
  exact ⟨⟨functions, names, ordinals⟩, ⟨hfunctionCount, hfunctions⟩, ⟨hnameCount, hnames⟩, ⟨hordinalCount, hordinals⟩⟩

section Tables

variable {lead : List UInt8} {words : ExportWords}

theorem exportTables?_of_storesAt (hlead : lead.length = 20) (hstores : image.StoresAt d.address (lead ++ h.bytes)) :
    image.exportTables? d = if ¬h.Believed image.size then none else
      (image.dataAt? h.functions (h.functionCount.toNat * 4)).bind fun functions =>
      (image.dataAt? h.names (h.nameCount.toNat * 4)).bind fun names =>
      (image.dataAt? h.ordinals (h.nameCount.toNat * 2)).bind fun ordinals =>
      some (ExportTables.mk h.functionCount.toNat h.nameCount.toNat functions names ordinals) := by
  have hlength : (lead ++ h.bytes).length = ExportHeader.entrySize := by
    simp only [ExportHeader.bytes, List.length_append, length_leBytes, hlead, List.length_nil, ExportHeader.entrySize]
  have hdata := hstores.dataAt?
  rw [hlength] at hdata
  have hread : (ExportHeader.read.run (.ofBytes (lead ++ h.bytes).toArray)).1 = h := by
    rw [ExportHeader.reads_bytes hlead h (.ofBytes _) [] (by rw [Cursor.remaining_ofBytes, List.append_nil])]
  rw [exportTables?, hdata]
  simp only [Option.bind_eq_bind, Option.bind_some, hread, ← ExportHeader.not_believed_iff]
  by_cases hbelieved : h.Believed image.size
  · have hfunctions := ExportHeader.toNat_mul_of_le 4 hbelieved.1 (by decide)
    have hnames := ExportHeader.toNat_mul_of_le 4 hbelieved.2 (by decide)
    have hordinals := ExportHeader.toNat_mul_of_le 2 hbelieved.2 (by decide)
    rw [if_neg (not_not.mpr hbelieved), if_neg (not_not.mpr hbelieved), hfunctions, hnames, hordinals]
    rfl
  · rw [if_pos hbelieved, if_pos hbelieved]

theorem exportTables?_of_storedIn (hlead : lead.length = 20) (hstores : image.StoresAt d.address (lead ++ h.bytes))
    (hbelieved : h.Believed image.size) (hwords : words.StoredIn image h) :
    image.exportTables? d = some (words.tables h) := by
  obtain ⟨hfunctionCount, hfunctions⟩ := hwords.functions
  obtain ⟨hnameCount, hnames⟩ := hwords.names
  obtain ⟨hordinalCount, hordinals⟩ := hwords.ordinals
  have hfunctionData := hfunctions.dataAt?
  have hnameData := hnames.dataAt?
  have hordinalData := hordinals.dataAt?
  rw [length_flatMap_of_length (fun _ => length_leBytes 4 _), hfunctionCount] at hfunctionData
  rw [length_flatMap_of_length (fun _ => length_leBytes 4 _), hnameCount] at hnameData
  rw [length_flatMap_of_length (fun _ => length_leBytes 2 _), hordinalCount] at hordinalData
  rw [exportTables?_of_storesAt hlead hstores, if_neg (not_not.mpr hbelieved), hfunctionData, hnameData, hordinalData]
  rfl

theorem exportTables?_of_not_backed (hlead : lead.length = 20) (hstores : image.StoresAt d.address (lead ++ h.bytes))
    (hbacked : ¬h.Backed image) : image.exportTables? d = none := by
  rw [exportTables?_of_storesAt hlead hstores]
  split
  next => rfl
  next =>
    rw [Option.eq_none_iff_forall_ne_some]
    intro tables htables
    obtain ⟨functions, hfunctions, htables⟩ := Option.bind_eq_some_iff.mp htables
    obtain ⟨names, hnames, htables⟩ := Option.bind_eq_some_iff.mp htables
    obtain ⟨ordinals, hordinals, -⟩ := Option.bind_eq_some_iff.mp htables
    exact hbacked ⟨backs_iff.mpr ⟨_, hfunctions⟩, backs_iff.mpr ⟨_, hnames⟩, backs_iff.mpr ⟨_, hordinals⟩⟩

theorem export?_eq_some_iff (hwords : words.StoredIn image h) {i : Nat} {a : NamedAddress} :
    image.export? d (words.tables h) i = some a ↔ IsExport image d words i a := by
  have hcount : ∀ {ordinal : UInt16} {rva : UInt32}, words.functions[ordinal.toNat]? = some rva →
      ¬h.functionCount.toNat ≤ ordinal.toNat := by
    intro ordinal rva hrva
    have hlt := (List.getElem?_eq_some_iff.mp hrva).1
    rw [hwords.functions.1] at hlt
    exact Nat.not_le.mpr hlt
  simp only [export?, ExportWords.tables, Bytes.u32At?_words, Bytes.u16At?_words, Option.bind_eq_bind,
    Option.bind_eq_some_iff, Option.ite_none_left_eq_some, exists_cstring_iff, not_or, Directory.holds_iff]
  constructor
  · rintro ⟨nameRva, hnameRva, ordinal, hordinal, -, rva, hrva, ⟨hzero, houtside⟩, name, ⟨hstores, hends⟩, hne, ha⟩
    obtain rfl := Option.some.inj ha
    exact ⟨⟨ordinal, hordinal, hrva⟩, hzero, houtside, ⟨nameRva, hnameRva, hstores, hends⟩, hne⟩
  · rintro ⟨⟨ordinal, hordinal, hrva⟩, hzero, houtside, ⟨nameRva, hnameRva, hstores, hends⟩, hne⟩
    exact ⟨nameRva, hnameRva, ordinal, hordinal, hcount hrva, a.rva, hrva, ⟨hzero, houtside⟩, a.name,
      ⟨hstores, hends⟩, hne, rfl⟩

end Tables

/-- What is exported by way of an export directory with this header. -/
structure ListsExports (image : Image) (d : Directory) (h : ExportHeader) : Prop where
  of_not_believed : ¬h.Believed image.size → image.exports = []
  of_not_backed : ¬h.Backed image → image.exports = []
  sizes : h.Believed image.size → (h.functionCount * 4).toNat = h.functionCount.toNat * 4 ∧
    (h.nameCount * 4).toNat = h.nameCount.toNat * 4 ∧ (h.nameCount * 2).toNat = h.nameCount.toNat * 2
  /-- Each index of the name table exports at most one function, in the order of that table. -/
  listed : h.Believed image.size → h.Backed image → ∃ words : ExportWords, words.StoredIn image h ∧
    ∃ export? : Nat → Option NamedAddress, (∀ i a, export? i = some a ↔ IsExport image d words i a) ∧
      image.exports = (List.range h.nameCount.toNat).filterMap export?

/-- An export directory whose header the file holds is read by way of its three tables. -/
theorem readsExports (hd : image.directory? 0 = some d) (hbacked : image.Backs d.address ExportHeader.entrySize) :
    ∃ (lead : List UInt8) (h : ExportHeader), lead.length = 20 ∧ image.StoresAt d.address (lead ++ h.bytes) ∧
      image.ListsExports d h := by
  obtain ⟨part, hpart, hstores⟩ := hbacked
  obtain ⟨lead, h, hlead, rfl⟩ := ExportHeader.exists_bytes_eq hpart
  refine ⟨lead, h, hlead, hstores, fun hbelieved => ?_, fun htables => ?_, fun hbelieved => ⟨?_, ?_, ?_⟩,
    fun hbelieved htables => ?_⟩
  · rw [exports, hd]
    dsimp only
    rw [exportTables?_of_storesAt hlead hstores, if_pos hbelieved]
  · rw [exports, hd]
    dsimp only
    rw [exportTables?_of_not_backed hlead hstores htables]
  · exact ExportHeader.toNat_mul_of_le _ hbelieved.1 (by decide)
  · exact ExportHeader.toNat_mul_of_le _ hbelieved.2 (by decide)
  · exact ExportHeader.toNat_mul_of_le _ hbelieved.2 (by decide)
  · obtain ⟨words, hwords⟩ := htables.exists_words
    refine ⟨words, hwords, image.export? d (words.tables h), fun i a => export?_eq_some_iff hwords, ?_⟩
    rw [exports, hd]
    dsimp only
    rw [exportTables?_of_storedIn hlead hstores hbelieved hwords]
    rfl

/-- One function with a name, one without an address, a forwarder, an ordinal that is too large and a name without an
end. -/
def exportingContent : List UInt8 :=
  List.replicate 20 0 ++ ExportHeader.bytes ⟨3, 5, 0x1028, 0x1034, 0x1048⟩ ++ [0x1100, 0, 0x1004].flatMap (leBytes 4) ++
    [0x1052, 0x1054, 0x1056, 0x1058, 0x105a].flatMap (leBytes 4) ++ [0, 1, 2, 7, 0].flatMap (leBytes 2) ++
    ("f\x00g\x00h\x00e\x00ff" : Text)

theorem readsExports_exportingContent : ∃ image,
    parse (oneSectionFile 0 0 [⟨0x1000, 40⟩] exportingContent) = .ok image ∧
    image.directory? 0 = some ⟨0x1000, 40⟩ ∧ image.Backs 0x1000 ExportHeader.entrySize ∧
    (∃ (lead : List UInt8) (h : ExportHeader), lead.length = 20 ∧ image.StoresAt 0x1000 (lead ++ h.bytes) ∧
      image.ListsExports ⟨0x1000, 40⟩ h) ∧ image.exports = [⟨0x1100, "f"⟩] := by
  have hd : (oneSectionImage 0 0 [⟨0x1000, 40⟩] exportingContent).directory? 0 = some ⟨0x1000, 40⟩ := by decide +kernel
  have hbacked : (oneSectionImage 0 0 [⟨0x1000, 40⟩] exportingContent).Backs 0x1000 ExportHeader.entrySize :=
    ⟨exportingContent.take 40, by decide +kernel,
      storesAt_oneSectionImage (List.take_append_drop 40 _).symm (by decide +kernel) (by decide +kernel)⟩
  exact ⟨_, parse_of_headers rfl (by decide +kernel), hd, hbacked, readsExports hd hbacked, by decide +kernel⟩

end Image

end CodeAtlas
