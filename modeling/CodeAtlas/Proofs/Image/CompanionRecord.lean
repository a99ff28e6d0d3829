import CodeAtlas.Image.Identity
import CodeAtlas.Proofs.Bytes.Reading
import CodeAtlas.Proofs.Image.StoredData

namespace CodeAtlas

theorem Bytes.holds_of_guidAt? {data : Bytes} {pos : Nat} {guid : Vector UInt8 16} (h : data.guidAt? pos = some guid) :
    data.Holds pos guid.toList := by
  obtain ⟨part, hpart, rfl⟩ := Option.map_eq_some_iff.mp h
  have hsize := Bytes.size_of_slice? hpart
  have hpartList : (Vector.ofFn fun i : Fin 16 => part.getD i 0).toList = part.toList := by
    refine List.ext_getElem (by simp [hsize]) fun i hi hi' => ?_
    rw [Array.length_toList] at hi'
    simp [hi']
  rw [hpartList]
  exact Bytes.holds_of_slice? hpart

namespace Companion

/-- A record of a companion: the mark, the identifier, the age and the path, which ends at a NUL or with the record. -/
def StoredIn (c : Companion) (record : List UInt8) : Prop :=
  ∃ rest, record = ("RSDS" : Text) ++ (c.guid.toList ++ (leBytes 4 c.age.toNat ++ rest)) ∧ Bytes.IsUpToNul rest c.path

/-- The fields of a record that is long enough for all of them. -/
theorem fields_iff {record : Bytes} {guid : Vector UInt8 16} {age : UInt32} :
    (record.u32At? 0 = some 0x53445352 ∧ record.guidAt? 4 = some guid ∧ record.u32At? 20 = some age) ↔
      record.Holds 0 (("RSDS" : Text) ++ (guid.toList ++ leBytes 4 age.toNat)) := by
  have hmark : leBytes 4 (0x53445352 : UInt32).toNat = ("RSDS" : Text) := by decide
  have hlength : ("RSDS" : Text).length = 4 := by decide
  constructor
  · rintro ⟨hstart, hguid, hage⟩
    have hstart' := Bytes.holds_of_u32At? hstart
    rw [hmark] at hstart'
    refine hstart'.append ?_
    rw [Nat.zero_add, hlength]
    refine (Bytes.holds_of_guidAt? hguid).append ?_
    rw [Vector.length_toList]
    exact Bytes.holds_of_u32At? hage
  · intro h
    have hguid := h.right.left
    have hage := h.right.right
    rw [Vector.length_toList, hlength, Nat.zero_add] at hage
    rw [hlength, Nat.zero_add] at hguid
    exact ⟨(hmark ▸ h.left : record.Holds 0 (leBytes 4 (0x53445352 : UInt32).toNat)).u32At?,
      Bytes.guidAt?_of_holds hguid, hage.u32At?⟩

theorem ofRecord?_eq_some_iff {record : Bytes} {c : Companion} :
    ofRecord? record = some c ↔ c.StoredIn record.toList := by
  have hread : ofRecord? record = some c ↔ (record.u32At? 0 = some 0x53445352 ∧ record.guidAt? 4 = some c.guid ∧
      record.u32At? 20 = some c.age) ∧ record.untilNul 24 = c.path := by
    rw [ofRecord?, Option.ite_none_left_eq_some, not_not]
    rcases record.guidAt? 4 with _ | guid <;> rcases record.u32At? 20 with _ | age <;> cases c <;> simp [and_assoc]
  rw [hread, fields_iff, Bytes.untilNul_eq_takeWhile, ← Bytes.isUpToNul_iff, StoredIn]
  generalize hfront : ("RSDS" : Text) ++ (c.guid.toList ++ leBytes 4 c.age.toNat) = front
  have hlength : front.length = 24 := by
    have hmark : ("RSDS" : Text).length = 4 := by decide
    simp only [← hfront, List.length_append, Vector.length_toList, length_leBytes, hmark]
  have hassoc : ∀ rest, ("RSDS" : Text) ++ (c.guid.toList ++ (leBytes 4 c.age.toNat ++ rest)) = front ++ rest := by
    intro rest
    rw [← hfront, List.append_assoc, List.append_assoc]
  simp only [hassoc]
  constructor
  · rintro ⟨⟨before, rest, hbefore, hrecord⟩, hpath⟩
    rw [List.length_eq_zero_iff.mp hbefore, List.nil_append] at hrecord
    rw [hrecord, ← hlength, List.drop_left] at hpath
    exact ⟨rest, hrecord, hpath⟩
  · rintro ⟨rest, hrecord, hpath⟩
    refine ⟨⟨[], rest, rfl, hrecord⟩, ?_⟩
    rwa [hrecord, ← hlength, List.drop_left]

end Companion

namespace Image

/-- An entry of the debug directory as it is stored, with the bytes that are passed over. -/
structure StoredDebugEntry where
  lead : Vector UInt8 12
  entry : DebugEntry

namespace StoredDebugEntry

def bytes (e : StoredDebugEntry) : List UInt8 :=
  e.lead.toList ++ (leBytes 4 e.entry.type.toNat ++ (leBytes 4 e.entry.size.toNat ++
    (leBytes 4 e.entry.address.toNat ++ (leBytes 4 e.entry.offset.toNat ++ []))))

theorem length_bytes (e : StoredDebugEntry) : e.bytes.length = DebugEntry.entrySize := by
  simp only [bytes, List.length_append, Vector.length_toList, length_leBytes, List.length_nil, DebugEntry.entrySize]

theorem reads_bytes (e : StoredDebugEntry) : Reader.Reads DebugEntry.read e.bytes e.entry := by
  have hskip : Reader.Reads (Reader.skip 12) e.lead.toList () := by
    have h := Reader.reads_skip e.lead.toList
    rwa [Vector.length_toList] at h
  exact hskip.bind ((Reader.reads_u32 e.entry.type).bind ((Reader.reads_u32 e.entry.size).bind
    ((Reader.reads_u32 e.entry.address).bind ((Reader.reads_u32 e.entry.offset).bind (Reader.reads_pure e.entry)))))

theorem exists_bytes_eq {piece : List UInt8} (h : piece.length = DebugEntry.entrySize) :
    ∃ e : StoredDebugEntry, e.bytes = piece := by
  have hlead : (piece.take 12).length = 12 := List.length_take_of_le (by rw [h]; decide)
  have hrest : (piece.drop 12).length = 4 * 4 := by rw [List.length_drop, h, DebugEntry.entrySize]
  obtain ⟨words, hcount, hwords⟩ := exists_words32 hrest
  match words, hcount with
  | [type, size, address, offset], _ =>
    refine ⟨⟨⟨(piece.take 12).toArray, hlead⟩, ⟨type, size, address, offset⟩⟩, ?_⟩
    exact (congrArg (piece.take 12 ++ ·) hwords).trans (List.take_append_drop 12 piece)

end StoredDebugEntry

variable {image : Image} {d : Directory} {e : DebugEntry} {c : Companion}

theorem debugEntries_eq {stored : List StoredDebugEntry} {rest : List UInt8} (hd : image.directory? 6 = some d)
    (hstores : image.StoresAt d.address (stored.flatMap StoredDebugEntry.bytes ++ rest))
    (hsize : (stored.flatMap StoredDebugEntry.bytes ++ rest).length = d.size.toNat)
    (hrest : rest.length < DebugEntry.entrySize) : image.debugEntries = stored.map (·.entry) := by
  have hdata := hstores.dataAt?
  have hcount : (stored.flatMap StoredDebugEntry.bytes ++ rest).toArray.size / DebugEntry.entrySize = stored.length := by
    rw [List.size_toArray, List.length_append, length_flatMap_of_length StoredDebugEntry.length_bytes]
    rw [DebugEntry.entrySize] at hrest ⊢
    omega
  have hreads : Reader.Reads (Reader.times stored.length DebugEntry.read) (stored.flatMap StoredDebugEntry.bytes)
      (stored.map (·.entry)) := Reader.Reads.times_map fun e _ => e.reads_bytes
  rw [hsize] at hdata
  rw [debugEntries, hd, Option.bind_some, hdata]
  dsimp only
  rw [hcount, hreads (.ofBytes _) rest (Cursor.remaining_ofBytes _)]

namespace DebugEntry

/-- The record of an entry stands at its position in the file. Where there is no position, or the file ends before the
record does, it stands at its address. -/
inductive Finds (image : Image) (e : DebugEntry) (record : List UInt8) : Prop
  | atPosition (hoffset : e.offset ≠ 0) (hsize : record.length = e.size.toNat)
      (hrecord : image.data.Holds e.offset.toNat record)
  | atAddress (hoffset : e.offset = 0 ∨ image.data.size < e.offset.toNat + e.size.toNat)
      (hsize : record.length = e.size.toNat) (hrecord : image.StoresAt e.address record)

theorem record?_eq_some_iff {record : Bytes} : e.record? image = some record ↔ e.Finds image record.toList := by
  have hcases : e.Finds image record.toList ↔ (e.offset ≠ 0 ∧ image.data.slice? e.offset.toNat e.size.toNat = some record) ∨
      (e.offset = 0 ∨ image.data.slice? e.offset.toNat e.size.toNat = none) ∧
        image.dataAt? e.address e.size.toNat = some record := by
    rw [Bytes.slice?_eq_some_iff_holds, Bytes.slice?_eq_none_iff, dataAt?_eq_some_iff]
    constructor
    · rintro (⟨hoffset, hsize, hrecord⟩ | ⟨hoffset, hsize, hrecord⟩)
      · exact .inl ⟨hoffset, hsize, hrecord⟩
      · exact .inr ⟨hoffset, hsize, hrecord⟩
    · rintro (⟨hoffset, hsize, hrecord⟩ | ⟨hoffset, hsize, hrecord⟩)
      · exact .atPosition hoffset hsize hrecord
      · exact .atAddress hoffset hsize hrecord
  rw [hcases, record?]
  by_cases hoffset : e.offset = 0
  · simp [hoffset]
  · rw [if_neg hoffset]
    cases image.data.slice? e.offset.toNat e.size.toNat <;> simp [hoffset]

/-- An entry of the type that is known, whose record is found and describes the companion. -/
def Names (image : Image) (e : DebugEntry) (c : Companion) : Prop :=
  e.type = 2 ∧ ∃ record, e.Finds image record ∧ c.StoredIn record

theorem companion?_eq_some_iff : DebugEntry.companion? image e = some c ↔ e.Names image c := by
  rw [DebugEntry.companion?, Option.ite_none_right_eq_some, Option.bind_eq_some_iff, Names]
  simp only [record?_eq_some_iff, Companion.ofRecord?_eq_some_iff]
  refine and_congr_right fun _ => ?_
  constructor
  · rintro ⟨record, hfinds, hstored⟩
    exact ⟨record.toList, hfinds, hstored⟩
  · rintro ⟨record, hfinds, hstored⟩
    exact ⟨record.toArray, hfinds, hstored⟩

theorem companion?_eq_none_iff : DebugEntry.companion? image e = none ↔ ∀ c, ¬e.Names image c := by
  simp only [Option.eq_none_iff_forall_ne_some, ne_eq, companion?_eq_some_iff]

end DebugEntry

/-- The first entry that names a companion counts, whatever the entries before it are. -/
structure NamesCompanion (image : Image) (entries : List DebugEntry) : Prop where
  some_iff : ∀ c, image.companion? = some c ↔ ∃ before e after, entries = before ++ e :: after ∧ e.Names image c ∧
    ∀ b ∈ before, ∀ q, ¬b.Names image q
  none_iff : image.companion? = none ↔ ∀ e ∈ entries, ∀ q, ¬e.Names image q

theorem namesCompanion_debugEntries (image : Image) : image.NamesCompanion image.debugEntries where
  some_iff c := by
    rw [companion?, List.findSome?_eq_some_iff]
    simp only [DebugEntry.companion?_eq_some_iff, DebugEntry.companion?_eq_none_iff]
  none_iff := by
    rw [companion?, List.findSome?_eq_none_iff]
    simp only [DebugEntry.companion?_eq_none_iff]

/-- A debug directory that the file holds is read entry by entry, and what is too short for another one at its end is
left out. -/
theorem readsDebugDirectory (hd : image.directory? 6 = some d) (hbacked : image.Backs d.address d.size.toNat) :
    ∃ (stored : List StoredDebugEntry) (rest : List UInt8), rest.length < DebugEntry.entrySize ∧
      (stored.flatMap StoredDebugEntry.bytes ++ rest).length = d.size.toNat ∧
      image.StoresAt d.address (stored.flatMap StoredDebugEntry.bytes ++ rest) ∧
      image.NamesCompanion (stored.map (·.entry)) := by
  obtain ⟨part, hsize, hstores⟩ := hbacked
  obtain ⟨stored, rest, hrest, rfl⟩ :=
    exists_flatMap_append (by decide) (fun _ => StoredDebugEntry.exists_bytes_eq) part
  refine ⟨stored, rest, hrest, hsize, hstores, ?_⟩
  rw [← debugEntries_eq hd hstores hsize hrest]
  exact namesCompanion_debugEntries image

def sampleCompanion (age : UInt32) : List UInt8 :=
  ("RSDS" : Text) ++ List.replicate 16 0xA5 ++ leBytes 4 age.toNat ++ ("a.pdb\x00" : Text)

/-- Before the entry that counts there are one of another type, one whose record is nowhere and one whose record is cut
off; the position of its own record is behind the end of the file. Another entry follows. -/
def debuggedEntries : List StoredDebugEntry :=
  [⟨4, 30, 0x10a5, 0⟩, ⟨2, 30, 0x3000, 0⟩, ⟨2, 20, 0, 425⟩, ⟨2, 30, 0x10a5, 4000⟩, ⟨2, 30, 0x10c3, 0⟩].map
    fun e => ⟨Vector.replicate 12 0, e⟩

/-- Five bytes of the directory are too few for another entry. -/
def debuggedContent : List UInt8 :=
  debuggedEntries.flatMap StoredDebugEntry.bytes ++ List.replicate 5 1 ++
    ((sampleCompanion 6).take 20 ++ sampleCompanion 7 ++ sampleCompanion 8)

def debuggedDirectories : List Directory := List.replicate 6 ⟨0, 0⟩ ++ [⟨0x1000, 145⟩]

theorem readsDebugDirectory_debuggedContent : ∃ image,
    parse (oneSectionFile 0 0 debuggedDirectories debuggedContent) = .ok image ∧
    image.directory? 6 = some ⟨0x1000, 145⟩ ∧ image.Backs 0x1000 145 ∧
    (∃ (stored : List StoredDebugEntry) (rest : List UInt8), rest.length < DebugEntry.entrySize ∧
      (stored.flatMap StoredDebugEntry.bytes ++ rest).length = 145 ∧
      image.StoresAt 0x1000 (stored.flatMap StoredDebugEntry.bytes ++ rest) ∧
      image.NamesCompanion (stored.map (·.entry))) ∧
    image.companion? = some ⟨Vector.replicate 16 0xA5, 7, "a.pdb"⟩ := by
  have hd : (oneSectionImage 0 0 debuggedDirectories debuggedContent).directory? 6 = some ⟨0x1000, 145⟩ := rfl
  have hstores : (oneSectionImage 0 0 debuggedDirectories debuggedContent).StoresAt 0x1000
      (debuggedEntries.flatMap StoredDebugEntry.bytes ++ List.replicate 5 1) :=
    storesAt_oneSectionImage rfl (by decide +kernel) (by decide +kernel)
  have hsize : (debuggedEntries.flatMap StoredDebugEntry.bytes ++ List.replicate 5 1).length = 145 := by
    decide +kernel
  refine ⟨_, parse_of_headers rfl (by decide +kernel), hd, ⟨_, hsize, hstores⟩,
    readsDebugDirectory hd ⟨_, hsize, hstores⟩, ?_⟩
  rw [companion?, debugEntries_eq hd hstores hsize (by decide)]
  decide +kernel

end Image

end CodeAtlas
