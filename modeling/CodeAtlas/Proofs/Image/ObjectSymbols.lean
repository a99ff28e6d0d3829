import CodeAtlas.Image.SymbolRecord
import CodeAtlas.Proofs.Bytes.Reading
import CodeAtlas.Proofs.Image.StoredData

namespace CodeAtlas.Image

section Records

variable {table entry : Bytes} {start : Nat}

theorem symbolRecords_of_none (h : table.slice? start SymbolRecord.entrySize = none) :
    symbolRecords table start = [] := by
  rw [symbolRecords]
  split
  next => rfl
  next other hother =>
    rw [h] at hother
    cases hother

theorem symbolRecords_of_some (h : table.slice? start SymbolRecord.entrySize = some entry) {r : SymbolRecord}
    (hr : (SymbolRecord.read.run (.ofBytes entry)).1 = r) : symbolRecords table start =
      r :: symbolRecords table (start + (1 + r.auxiliary.toNat) * SymbolRecord.entrySize) := by
  subst hr
  rw [symbolRecords]
  split
  next hother =>
    rw [h] at hother
    cases hother
  next other hother =>
    rw [h] at hother
    cases hother
    rfl

end Records

/-- A symbol as it is stored: the fields of its record and the records of detail that follow it. -/
structure StoredSymbol where
  name : Vector UInt8 8
  value : UInt32
  number : Int16
  type : UInt16
  storage : UInt8
  details : List (Vector UInt8 18)
  length_details : details.length < 256

namespace StoredSymbol

/-- The record itself, which says how many records of detail follow. -/
def head (s : StoredSymbol) : List UInt8 :=
  s.name.toList ++ (leBytes 4 s.value.toNat ++ (leBytes 2 s.number.toUInt16.toNat ++ (leBytes 2 s.type.toNat ++
    ([s.storage] ++ ([UInt8.ofNat s.details.length] ++ [])))))

def bytes (s : StoredSymbol) : List UInt8 := s.head ++ s.details.flatMap Vector.toList

def record (s : StoredSymbol) : SymbolRecord where
  name := s.name.toArray
  value := s.value
  sectionNumber := s.number.toUInt16
  type := s.type
  storage := s.storage
  auxiliary := .ofNat s.details.length

theorem length_head (s : StoredSymbol) : s.head.length = SymbolRecord.entrySize := by
  simp only [head, List.length_append, Vector.length_toList, length_leBytes, List.length_singleton, List.length_nil,
    SymbolRecord.entrySize]

theorem length_bytes (s : StoredSymbol) : s.bytes.length = (1 + s.details.length) * SymbolRecord.entrySize := by
  rw [bytes, List.length_append, length_head, length_flatMap_of_length (fun v => v.length_toList),
    SymbolRecord.entrySize, Nat.add_mul, Nat.one_mul]

theorem reads_head (s : StoredSymbol) : Reader.Reads SymbolRecord.read s.head s.record := by
  have hname : Reader.Reads (Reader.bytes 8) s.name.toList s.name.toArray := by
    have h := Reader.reads_bytes s.name.toList
    rwa [Vector.length_toList] at h
  exact hname.bind ((Reader.reads_u32 s.value).bind ((Reader.reads_u16 s.number.toUInt16).bind
    ((Reader.reads_u16 s.type).bind ((Reader.reads_u8 s.storage).bind ((Reader.reads_u8 _).bind
      (Reader.reads_pure s.record))))))

/-- From the start of a symbol the records of detail are passed over, whatever they hold. -/
theorem symbolRecords_of_holds {table : Bytes} {start : Nat} {stored : List StoredSymbol}
    (h : table.Holds start (stored.flatMap bytes)) (hend : table.size = start + (stored.flatMap bytes).length) :
    symbolRecords table start = stored.map record := by
  induction stored generalizing start with
  | nil =>
    rw [List.flatMap_nil, List.length_nil, Nat.add_zero] at hend
    refine symbolRecords_of_none (Bytes.slice?_eq_none_iff.mpr ?_)
    rw [hend]
    exact Nat.lt_add_of_pos_right (by decide)
  | cons s stored ih =>
    rw [List.flatMap_cons] at h hend
    have hslice := h.left.left.slice?
    rw [length_head] at hslice
    have hread : (SymbolRecord.read.run (.ofBytes s.head.toArray)).1 = s.record := by
      rw [s.reads_head (.ofBytes _) [] (by rw [Cursor.remaining_ofBytes, List.append_nil])]
    have hcount : s.record.auxiliary.toNat = s.details.length := UInt8.toNat_ofNat_of_lt' s.length_details
    have hrest := h.right
    rw [length_bytes] at hrest
    rw [List.length_append, length_bytes] at hend
    rw [symbolRecords_of_some hslice hread, hcount, List.map_cons, ih hrest (by omega)]

/-- The name stands in the record, up to a NUL if there is one. If the record starts with four zero bytes, the name
stands among the strings instead, where the other four bytes say, and a NUL ends it. -/
inductive HasName (strings : Bytes) (s : StoredSymbol) (text : Text) : Prop
  | inRecord (hname : ¬[0, 0, 0, 0] <+: s.name.toList) (htext : Bytes.IsUpToNul s.name.toList text)
  | inStrings (offset : UInt32) (hname : s.name.toList = [0, 0, 0, 0] ++ leBytes 4 offset.toNat)
      (hstands : strings.Holds offset.toNat (text ++ [0])) (hends : 0 ∉ text)

/-- The symbol is a function of a section and gives this name to this address. Section numbers count from one; the bits
of the type from the fourth on tell functions. -/
structure Gives (sections : List Section) (strings : Bytes) (s : StoredSymbol) (a : NamedAddress) : Prop where
  type : s.type.toNat / 16 = 2
  storage : s.storage = 2 ∨ s.storage = 3
  rva : ∃ (k : Nat) (holder : Section), s.number.toInt = k + 1 ∧ sections[k]? = some holder ∧
    a.rva.toNat = (holder.address.toNat + s.value.toNat) % 2 ^ 32
  name : s.HasName strings a.name
  name_ne_nil : a.name ≠ []

variable {strings : Bytes} {s : StoredSymbol} {text : Text}

theorem isFunction_record : s.record.isFunction = true ↔ s.type.toNat / 16 = 2 ∧ (s.storage = 2 ∨ s.storage = 3) := by
  have htype : s.type >>> 4 = 2 ↔ s.type.toNat / 16 = 2 := by
    rw [← UInt16.toNat_inj, UInt16.toNat_shiftRight, Nat.shiftRight_eq_div_pow]
    rfl
  simp only [SymbolRecord.isFunction, record, Bool.and_eq_true, Bool.or_eq_true, beq_iff_eq, htype]

theorem startsWithZeros_iff : s.record.name.u32At? 0 = some 0 ↔ [0, 0, 0, 0] <+: s.name.toList := by
  have hiff : s.record.name.u32At? 0 = some 0 ↔ s.record.name.Holds 0 [0, 0, 0, 0] :=
    ⟨Bytes.holds_of_u32At?, fun h => Bytes.Holds.u32At? (n := 0) h⟩
  rw [hiff, Bytes.holds_iff_isPrefix, List.drop_zero]
  exact and_iff_right (Nat.zero_le _)

theorem offset_iff (hzeros : [0, 0, 0, 0] <+: s.name.toList) {offset : UInt32} :
    s.record.name.u32At? 4 = some offset ↔ s.name.toList = [0, 0, 0, 0] ++ leBytes 4 offset.toNat := by
  have hzeros' : s.record.name.Holds 0 [0, 0, 0, 0] := Bytes.holds_of_u32At? (startsWithZeros_iff.mpr hzeros)
  have hall : s.record.name.Holds 0 s.name.toList := Bytes.holds_toArray _
  constructor
  · intro h
    refine hall.eq_of_length (hzeros'.append (Bytes.holds_of_u32At? h)) ?_
    rw [Vector.length_toList, List.length_append, length_leBytes]
    rfl
  · intro h
    rw [h] at hall
    exact hall.right.u32At?

theorem fullName?_record : s.record.fullName? strings = some text ↔ s.HasName strings text ∧ text ≠ [] := by
  rw [SymbolRecord.fullName?, Option.filter_eq_some_iff, decide_eq_true_eq]
  refine and_congr_left fun _ => ?_
  by_cases hzeros : [0, 0, 0, 0] <+: s.name.toList
  · rw [if_pos (startsWithZeros_iff.mpr hzeros), Option.bind_eq_some_iff]
    simp only [offset_iff hzeros, Bytes.cstringAt?_eq_some_iff]
    constructor
    · rintro ⟨offset, hname, hstands, hends⟩
      exact .inStrings offset hname hstands hends
    · rintro (⟨hname, -⟩ | ⟨offset, hname, hstands, hends⟩)
      · exact absurd hzeros hname
      · exact ⟨offset, hname, hstands, hends⟩
  · have huntil : s.record.name.untilNul 0 = s.name.toList.takeWhile (· != 0) := Bytes.untilNul_eq_takeWhile _ 0
    rw [if_neg (mt startsWithZeros_iff.mp hzeros), Option.some.injEq, huntil, ← Bytes.isUpToNul_iff]
    constructor
    · exact fun htext => .inRecord hzeros htext
    · rintro (⟨-, htext⟩ | ⟨offset, hname, -, -⟩)
      · exact htext
      · exact absurd ⟨_, hname.symm⟩ hzeros

/-- A signed number is positive where its bits are an unsigned one with the highest bit clear. -/
theorem toInt_eq_succ_iff (n : Int16) (k : Nat) :
    n.toInt = k + 1 ↔ n.toUInt16.toNat = k + 1 ∧ n.toUInt16.toNat < 0x8000 := by
  have hsigned : n.toInt = if 2 * n.toUInt16.toNat < 2 ^ 16 then (n.toUInt16.toNat : Int)
      else (n.toUInt16.toNat : Int) - (2 ^ 16 : Nat) := BitVec.toInt_eq_toNat_cond n.toBitVec
  have hlt := n.toUInt16.toNat_lt
  rw [hsigned]
  split <;> omega

theorem symbol?_record {sections : List Section} {a : NamedAddress} :
    s.record.symbol? sections strings = some a ↔ s.Gives sections strings a := by
  have hsum : ∀ holder : Section, a.rva = holder.address + s.value ↔
      a.rva.toNat = (holder.address.toNat + s.value.toNat) % 2 ^ 32 := by
    intro holder
    rw [← UInt32.toNat_inj, UInt32.toNat_add]
  simp only [SymbolRecord.symbol?, Option.bind_eq_bind, Option.ite_none_left_eq_some, Option.bind_eq_some_iff, not_or,
    not_not, isFunction_record, fullName?_record, Option.some.injEq]
  constructor
  · rintro ⟨⟨⟨htype, hstorage⟩, hpos, hsmall⟩, holder, hholder, name, ⟨hname, hne⟩, rfl⟩
    refine ⟨htype, hstorage, ⟨_, holder, (toInt_eq_succ_iff _ _).mpr ⟨?_, Nat.not_le.mp hsmall⟩, hholder, ?_⟩, hname, hne⟩
    · exact (Nat.succ_pred_eq_of_ne_zero hpos).symm
    · exact (hsum holder).mp rfl
  · rintro ⟨htype, hstorage, ⟨k, holder, hnumber, hholder, hrva⟩, hname, hne⟩
    obtain ⟨hnat, hsmall⟩ := (toInt_eq_succ_iff _ _).mp hnumber
    have hnumber : s.record.sectionNumber.toNat = k + 1 := hnat
    refine ⟨⟨⟨htype, hstorage⟩, by omega, Nat.not_le.mpr hsmall⟩, holder, ?_, a.name, ⟨hname, hne⟩, ?_⟩
    · rwa [hnumber, Nat.add_sub_cancel]
    · exact congrArg (NamedAddress.mk · a.name) ((hsum holder).mpr hrva).symm

end StoredSymbol

/-- The file of an image holds these symbols where its header says, and the strings behind them. -/
structure StoresSymbols (image : Image) (stored : List StoredSymbol) (strings : List UInt8) : Prop where
  count : (stored.flatMap StoredSymbol.bytes).length = image.symbolCount.toNat * SymbolRecord.entrySize
  stands : ∃ before, before ≠ [] ∧ before.length = image.symbolTable.toNat ∧
    image.data.toList = before ++ (stored.flatMap StoredSymbol.bytes ++ strings)

theorem StoresSymbols.objectSymbols_eq {image : Image} {stored : List StoredSymbol} {strings : List UInt8}
    (h : image.StoresSymbols stored strings) : image.objectSymbols =
      stored.filterMap fun s => s.record.symbol? image.sections strings.toArray := by
  obtain ⟨before, hne, hstart, hdata⟩ := h.stands
  have hpos : image.symbolTable.toNat ≠ 0 := by
    rw [← hstart]
    exact mt List.length_eq_zero_iff.mp hne
  have hholds : image.data.Holds image.symbolTable.toNat (stored.flatMap StoredSymbol.bytes) :=
    ⟨before, strings, hstart, by rw [hdata, List.append_assoc]⟩
  have hslice := hholds.slice?
  rw [h.count] at hslice
  have hstrings : image.data.drop (image.symbolTable.toNat + image.symbolCount.toNat * SymbolRecord.entrySize) =
      strings.toArray := by
    apply Array.toList_inj.mp
    rw [Bytes.toList_drop, hdata, ← hstart, ← h.count, ← List.length_append, ← List.append_assoc, List.drop_left]
  have hrecords := StoredSymbol.symbolRecords_of_holds (Bytes.holds_toArray (stored.flatMap StoredSymbol.bytes))
    (by rw [List.size_toArray, Nat.zero_add])
  rw [objectSymbols]
  split
  next hnone =>
    -- A table without records holds no symbols either.
    have hempty : (stored.flatMap StoredSymbol.bytes).length = 0 := h.count.trans (hnone.resolve_left hpos)
    cases stored with
    | nil => rfl
    | cons s stored =>
      rw [List.flatMap_cons, List.length_append, s.length_bytes, SymbolRecord.entrySize] at hempty
      omega
  next =>
    rw [hslice]
    dsimp only
    rw [hrecords, hstrings, List.filterMap_map]
    rfl

/-- Each symbol that gives a name to an address is listed once, in the order of the table, and nothing else is, whatever
the records of detail hold. -/
theorem listsSymbols {image : Image} {stored : List StoredSymbol} {strings : List UInt8}
    (h : image.StoresSymbols stored strings) : ∃ symbol? : StoredSymbol → Option NamedAddress,
      (∀ s a, symbol? s = some a ↔ s.Gives image.sections strings.toArray a) ∧
        image.objectSymbols = stored.filterMap symbol? :=
  ⟨_, fun _ _ => StoredSymbol.symbol?_record, h.objectSymbols_eq⟩

/-- A function whose record of detail looks like another function, one with a name among the strings and a symbol that
belongs to no section. -/
def detailedSymbols : List StoredSymbol :=
  [⟨#v[0x66, 0, 0, 0, 0, 0, 0, 0], 0x10, 1, 0x20, 2,
      [#v[0x67, 0, 0, 0, 0, 0, 0, 0, 0x30, 0, 0, 0, 1, 0, 0x20, 0, 2, 0]], by decide⟩,
    ⟨#v[0, 0, 0, 0, 4, 0, 0, 0], 0x20, 1, 0x20, 3, [], by decide⟩,
    ⟨#v[0x68, 0, 0, 0, 0, 0, 0, 0], 0x40, -1, 0x20, 2, [], by decide⟩]

def detailedStrings : List UInt8 := leBytes 4 16 ++ ("a_long_name\x00" : Text)

theorem listsSymbols_detailedSymbols : ∃ image,
    parse (oneSectionFile 224 4 [] (detailedSymbols.flatMap StoredSymbol.bytes ++ detailedStrings)) = .ok image ∧
    image.StoresSymbols detailedSymbols detailedStrings ∧
    (∃ symbol? : StoredSymbol → Option NamedAddress,
      (∀ s a, symbol? s = some a ↔ s.Gives image.sections detailedStrings.toArray a) ∧
        image.objectSymbols = detailedSymbols.filterMap symbol?) ∧
    image.objectSymbols = [⟨0x1010, "f"⟩, ⟨0x1020, "a_long_name"⟩] := by
  have hstores : (oneSectionImage 224 4 [] (detailedSymbols.flatMap StoredSymbol.bytes ++
      detailedStrings)).StoresSymbols detailedSymbols detailedStrings := by
    refine ⟨by decide +kernel, (oneSectionFile 224 4 [] (detailedSymbols.flatMap StoredSymbol.bytes ++
      detailedStrings)).toList.take 224, by decide +kernel, by decide +kernel, by decide +kernel⟩
  exact ⟨_, parse_of_headers rfl (by decide +kernel), hstores, listsSymbols hstores, by decide +kernel⟩

end CodeAtlas.Image
