import CodeAtlas.Database.Types
import CodeAtlas.Proofs.Database.RecordEncoding

namespace CodeAtlas.Database

/-- A table of types as it is stored: the header, which may be longer than what is read of it, and the records. -/
structure StoredTypes where
  version : UInt32
  first : UInt32
  last : UInt32
  /-- The rest of the header, which is passed over. -/
  headerRest : List UInt8
  records : List Record

namespace StoredTypes

def recordBytes (t : StoredTypes) : List UInt8 := t.records.flatMap Record.bytes

/-- Where the records start. -/
def start (t : StoredTypes) : Nat := 20 + t.headerRest.length

def header (t : StoredTypes) : List UInt8 :=
  leBytes 4 t.version.toNat ++ (leBytes 4 t.start ++ (leBytes 4 t.first.toNat ++ (leBytes 4 t.last.toNat ++
    (leBytes 4 t.recordBytes.length ++ t.headerRest))))

def bytes (t : StoredTypes) : List UInt8 := t.header ++ t.recordBytes

/-- The header is whole, and the lengths can be stored. -/
structure Fits (t : StoredTypes) : Prop where
  header : TypeTable.headerSize ≤ t.start
  start : t.start < 2 ^ 32
  ordered : t.first ≤ t.last
  record : ∀ r ∈ t.records, r.Fits
  records : t.recordBytes.length < 2 ^ 32

/-- The record an index stands for: the first index is that of the first record. -/
def Has (t : StoredTypes) (index : UInt32) (r : Record) : Prop :=
  ∃ k, index.toNat = t.first.toNat + k ∧ t.records[k]? = some r

def table (t : StoredTypes) : TypeTable := ⟨t.first, t.records.toArray⟩

variable {t : StoredTypes}

theorem length_header (t : StoredTypes) : t.header.length = t.start := by
  simp only [header, start, List.length_append, length_leBytes]
  omega

/-- What is stored is read back, whatever follows it. -/
theorem parse_bytes (ht : t.Fits) (after : List UInt8) : TypeTable.parse (t.bytes ++ after).toArray = .ok t.table := by
  have hwhole : Bytes.Holds (t.bytes ++ after).toArray 0 (t.bytes ++ after) := Bytes.holds_toArray _
  generalize (t.bytes ++ after).toArray = data at hwhole ⊢
  have hheader := hwhole.left.left
  have hstart : Bytes.u32At? data 4 = some _ := hheader.right.left.u32At?_ofNat ht.start
  have hfirst : Bytes.u32At? data 8 = some t.first := hheader.right.right.left.u32At?
  have hlast : Bytes.u32At? data 12 = some t.last := hheader.right.right.right.left.u32At?
  have hsize : Bytes.u32At? data 16 = some _ := hheader.right.right.right.right.left.u32At?_ofNat ht.records
  have hrecords := hwhole.left.right.slice?
  rw [length_header, Nat.zero_add] at hrecords
  have hlist : Record.list t.recordBytes.toArray 0 = (t.records, true) := by
    refine Record.list_of_holds (Bytes.holds_toArray _) ht.record ?_
    rw [List.size_toArray, Nat.zero_add, recordBytes]
    exact Nat.lt_add_of_pos_right (by decide)
  have hvalid : ¬(t.start < TypeTable.headerSize ∨ t.last < t.first) :=
    not_or.mpr ⟨Nat.not_lt.mpr ht.header, UInt32.not_lt.mpr ht.ordered⟩
  simp only [TypeTable.parse, hstart, hfirst, hlast, hsize, UInt32.toNat_ofNat_of_lt' ht.start,
    UInt32.toNat_ofNat_of_lt' ht.records, if_neg hvalid, hrecords, hlist]
  rfl

theorem get?_table_eq_some_iff {index : UInt32} {r : Record} : t.table.get? index = some r ↔ t.Has index r := by
  rw [TypeTable.get?, Option.ite_none_right_eq_some, UInt32.le_iff_toNat_le, table, List.getElem?_toArray]
  constructor
  · rintro ⟨hle, hr⟩
    rw [UInt32.toNat_sub_of_le _ _ (UInt32.le_iff_toNat_le.mpr hle)] at hr
    exact ⟨_, (Nat.add_sub_of_le hle).symm, hr⟩
  · rintro ⟨k, hk, hr⟩
    have hle : t.first.toNat ≤ index.toNat := by omega
    have hsub : (index - t.first).toNat = k := by
      rw [UInt32.toNat_sub_of_le _ _ (UInt32.le_iff_toNat_le.mpr hle), hk, Nat.add_sub_cancel_left]
    exact ⟨hle, hsub ▸ hr⟩

theorem get?_table_eq_none_iff {index : UInt32} : t.table.get? index = none ↔
    index.toNat < t.first.toNat ∨ t.first.toNat + t.records.length ≤ index.toNat := by
  rw [Option.eq_none_iff_forall_ne_some]
  constructor
  · intro h
    rcases Nat.lt_or_ge index.toNat t.first.toNat with hbelow | hfirst
    · exact .inl hbelow
    · refine .inr (Nat.le_of_not_lt fun hlast => ?_)
      have hk : index.toNat - t.first.toNat < t.records.length := by omega
      exact h _ (get?_table_eq_some_iff.mpr ⟨_, (Nat.add_sub_of_le hfirst).symm, List.getElem?_eq_getElem hk⟩)
  · intro h r hr
    obtain ⟨k, hindex, hk⟩ := get?_table_eq_some_iff.mp hr
    have hlt := (List.getElem?_eq_some_iff.mp hk).1
    omega

end StoredTypes

end CodeAtlas.Database
