import CodeAtlas.Database.LineTable
import CodeAtlas.Proofs.Bytes.Holds
import CodeAtlas.Proofs.Bytes.Reading

namespace CodeAtlas.Database

variable {data : Bytes} {pos : Nat}

/-- A checksum as it is stored, filled up to a multiple of four bytes. -/
structure StoredChecksum where
  name : UInt32
  kind : UInt8
  checksum : List UInt8
  filling : List UInt8
  length_lt : checksum.length < 256
  aligned : 6 + checksum.length + filling.length = Bytes.align4 (6 + checksum.length)

namespace StoredChecksum

def bytes (e : StoredChecksum) : List UInt8 :=
  leBytes 4 e.name.toNat ++ (leBytes 1 e.checksum.length ++ (e.kind :: (e.checksum ++ e.filling)))

/-- The names of files, each with the place of its checksum. -/
def places (pos : Nat) : List StoredChecksum → List (Nat × UInt32)
  | [] => []
  | e :: es => (pos, e.name) :: places (pos + e.bytes.length) es

theorem length_bytes (e : StoredChecksum) : e.bytes.length = Bytes.align4 (6 + e.checksum.length) := by
  rw [← e.aligned]
  simp only [bytes, List.length_append, List.length_cons, length_leBytes]
  omega

theorem lt_of_mem_places {es : List StoredChecksum} {p : Nat × UInt32} (h : p ∈ places pos es) :
    p.1 < pos + (es.flatMap bytes).length := by
  induction es generalizing pos with
  | nil => cases h
  | cons e es ih =>
    have hlength := e.length_bytes
    have halign := Bytes.le_align4 (6 + e.checksum.length)
    rw [List.flatMap_cons, List.length_append]
    rcases List.mem_cons.mp h with rfl | h
    · dsimp only
      omega
    · have hlt := ih h
      omega

theorem checksumEntries_of_holds {es : List StoredChecksum} (h : data.Holds pos (es.flatMap bytes))
    (hend : data.size = pos + (es.flatMap bytes).length) (hpos : pos % 4 = 0) :
    checksumEntries data pos = (places pos es).map fun p => (UInt32.ofNat p.1, p.2) := by
  induction es generalizing pos with
  | nil =>
    rw [List.flatMap_nil, List.length_nil] at hend
    rw [checksumEntries, if_pos (by omega)]
    rfl
  | cons e es ih =>
    rw [List.flatMap_cons] at h hend
    rw [List.length_append] at hend
    have hlength := e.length_bytes
    have halign := Bytes.le_align4 (6 + e.checksum.length)
    have hname : data.u32At? pos = some e.name := h.left.left.u32At?
    have hsize : data.valueAt? (pos + 4) 1 = some e.checksum.length := h.left.right.left.valueAt? e.length_lt
    have hnext : Bytes.align4 (pos + 6 + e.checksum.length) = pos + e.bytes.length := by
      rw [Nat.add_assoc, Bytes.align4_add hpos, hlength]
    have hmod := Bytes.align4_mod (6 + e.checksum.length)
    rw [checksumEntries, if_neg (by omega), hname, hsize]
    dsimp only
    rw [if_neg (by omega), hnext, ih h.right (by omega) (by omega)]
    rfl

end StoredChecksum

/-- The definition of an inlined function as it is stored. -/
structure StoredDefinition where
  inlinee : UInt32
  definition : Definition
  furtherFiles : List UInt32

namespace StoredDefinition

/-- Only the extended form has room for further files. -/
def bytes (extended : Bool) (d : StoredDefinition) : List UInt8 :=
  leBytes 4 d.inlinee.toNat ++ (leBytes 4 d.definition.file.toNat ++ (leBytes 4 d.definition.line.toNat ++
    if extended then leBytes 4 d.furtherFiles.length ++ d.furtherFiles.flatMap fun f => leBytes 4 f.toNat else []))

theorem length_bytes (extended : Bool) (d : StoredDefinition) :
    (d.bytes extended).length = if extended then 16 + d.furtherFiles.length * 4 else 12 := by
  have hfiles := length_flatMap_of_length (fun f : UInt32 => length_leBytes 4 f.toNat) d.furtherFiles
  cases extended with
  | false =>
    simp only [bytes, List.length_append, length_leBytes, Bool.false_eq_true, if_false, List.length_nil]
  | true =>
    simp only [bytes, List.length_append, length_leBytes, if_true, hfiles]
    omega

theorem definitionEntries_of_holds {extended : Bool} {ds : List StoredDefinition}
    (h : data.Holds pos (ds.flatMap (bytes extended))) (hend : data.size = pos + (ds.flatMap (bytes extended)).length)
    (hsize : data.size < 2 ^ 32) :
    definitionEntries extended data pos = ds.map fun d => (d.inlinee, d.definition) := by
  induction ds generalizing pos with
  | nil =>
    rw [List.flatMap_nil, List.length_nil] at hend
    rw [definitionEntries, if_pos (by omega)]
    rfl
  | cons d ds ih =>
    rw [List.flatMap_cons] at h hend
    rw [List.length_append] at hend
    have hlength := d.length_bytes extended
    have hinlinee : data.u32At? pos = some d.inlinee := h.left.left.u32At?
    have hfile : data.u32At? (pos + 4) = some d.definition.file := h.left.right.left.u32At?
    have hline : data.u32At? (pos + 8) = some d.definition.line := h.left.right.right.left.u32At?
    have hrest := ih h.right (by omega)
    cases extended with
    | false =>
      rw [if_neg Bool.false_ne_true] at hlength
      rw [hlength] at hend hrest
      rw [definitionEntries, if_neg (by omega), hinlinee, hfile, hline]
      dsimp only
      rw [if_neg Bool.false_ne_true, hrest]
      rfl
    | true =>
      rw [if_pos rfl] at hlength
      rw [hlength] at hend hrest
      have hextra : data.Holds (pos + 12) (leBytes 4 d.furtherFiles.length) := h.left.right.right.right.left
      have hlt : d.furtherFiles.length < 2 ^ 32 := by omega
      have hcount := hextra.u32At?_ofNat hlt
      have hnat : (UInt32.ofNat d.furtherFiles.length).toNat = d.furtherFiles.length := UInt32.toNat_ofNat_of_lt' hlt
      rw [definitionEntries, if_neg (by omega), hinlinee, hfile, hline]
      dsimp only
      rw [if_pos rfl, hcount]
      dsimp only
      rw [hnat, if_neg (by omega), Nat.add_assoc, hrest]
      rfl

end StoredDefinition

/-- The start of a line as it is stored. -/
structure StoredLine where
  offset : UInt32
  word : UInt32

namespace StoredLine

def bytes (l : StoredLine) : List UInt8 := leBytes 4 l.offset.toNat ++ leBytes 4 l.word.toNat

def number (l : StoredLine) : UInt32 := .ofNat (l.word.toNat % 2 ^ 24)

def start (l : StoredLine) : LineStart := ⟨l.offset, l.number⟩

theorem length_bytes (l : StoredLine) : l.bytes.length = 8 := by
  rw [bytes, List.length_append, length_leBytes, length_leBytes]

theorem reads_bytes (l : StoredLine) : Reader.Reads LineStart.read l.bytes l.start := by
  have hnumber : l.word &&& 0xFFFFFF = l.number := by
    apply UInt32.toNat_inj.mp
    rw [UInt32.toNat_and, number, UInt32.toNat_ofNat_of_lt' (by simp only [UInt32.size]; omega)]
    exact Nat.and_two_pow_sub_one_eq_mod l.word.toNat 24
  have h := (Reader.reads_u32 l.offset).bind (f := fun offset => do
    let flags ← Reader.u32
    pure (LineStart.mk offset (flags &&& 0xFFFFFF)))
    ((Reader.reads_u32 l.word).bind (f := fun flags => pure (LineStart.mk l.offset (flags &&& 0xFFFFFF)))
      (Reader.reads_pure _))
  rw [List.append_nil, hnumber] at h
  exact h

end StoredLine

/-- The lines of a contribution that come from one file, as they are stored; they start one after the other. -/
structure StoredBlock (c : Contribution) where
  file : UInt32
  lines : List StoredLine
  columns : List UInt8
  length_columns : columns.length = if c.hasColumns then lines.length * 4 else 0
  increasing : lines.Pairwise fun a b => a.offset < b.offset
  below : ∀ l ∈ lines, l.offset < c.size

/-- Where a line ends inside its contribution. -/
def lineStop (c : Contribution) (ls : List LineStart) : UInt32 :=
  match ls.head? with
  | some next => next.offset
  | none => c.size

theorem blockRecords_cons {m : AddressMap} {c : Contribution} (file : UInt32) (l : LineStart) (ls : List LineStart) :
    blockRecords m c file (l :: ls) =
      if isHiddenLine l.line ∨ lineStop c ls ≤ l.offset then blockRecords m c file ls
      else
        match m.rva? c.sectionNumber (c.offset + l.offset) with
        | some rva => ⟨rva, rva + (lineStop c ls - l.offset), l.line, file⟩ :: blockRecords m c file ls
        | none => blockRecords m c file ls := rfl

namespace StoredBlock

variable {c : Contribution}

def size (b : StoredBlock c) : Nat := 12 + b.lines.length * 8 + b.columns.length

def bytes (b : StoredBlock c) : List UInt8 :=
  leBytes 4 b.file.toNat ++ (leBytes 4 b.lines.length ++ (leBytes 4 b.size ++
    (b.lines.flatMap StoredLine.bytes ++ b.columns)))

/-- Where the lines end: at the start of the next one, and the last one where the contribution ends. -/
def stops (c : Contribution) (lines : List StoredLine) : List UInt32 := lines.tail.map (·.offset) ++ [c.size]

/-- The code of a line that ends there, unless the line is hidden or its code has no address. -/
def record? (m : AddressMap) (c : Contribution) (file : UInt32) (l : StoredLine) (stop : UInt32) : Option LineRecord :=
  if isHiddenLine l.number then none
  else (m.rva? c.sectionNumber (c.offset + l.offset)).map fun rva => ⟨rva, rva + (stop - l.offset), l.number, file⟩

def records (m : AddressMap) (b : StoredBlock c) : List LineRecord :=
  (b.lines.zip (stops c b.lines)).filterMap fun (l, stop) => record? m c b.file l stop

theorem length_bytes (b : StoredBlock c) : b.bytes.length = b.size := by
  have hlines := length_flatMap_of_length StoredLine.length_bytes b.lines
  simp only [bytes, size, List.length_append, length_leBytes, hlines]
  omega

theorem blockRecords_eq (m : AddressMap) (file : UInt32) {lines : List StoredLine}
    (hinc : lines.Pairwise fun a b => a.offset < b.offset) (hbelow : ∀ l ∈ lines, l.offset < c.size) :
    blockRecords m c file (lines.map StoredLine.start) =
      (lines.zip (stops c lines)).filterMap fun (l, stop) => record? m c file l stop := by
  induction lines with
  | nil => rfl
  | cons l lines ih =>
    have hinc' := List.pairwise_cons.mp hinc
    have hbelow' := List.forall_mem_cons.mp hbelow
    -- Where the first line ends depends on whether there is a second one; the other ends do not.
    have hstops : ∃ stop rest, stops c (l :: lines) = stop :: rest ∧ lineStop c (lines.map StoredLine.start) = stop ∧
        l.offset < stop ∧ lines.zip rest = lines.zip (stops c lines) := by
      cases lines with
      | nil => exact ⟨c.size, [], rfl, rfl, hbelow'.1, rfl⟩
      | cons next lines => exact ⟨next.offset, _, rfl, rfl, hinc'.1 next List.mem_cons_self, rfl⟩
    obtain ⟨stop, rest, hcons, hstop, hlt, hzip⟩ := hstops
    have hlong : ¬stop ≤ l.offset := UInt32.not_le.mpr hlt
    rw [List.map_cons, blockRecords_cons, hstop, ih hinc'.2 hbelow'.2, hcons, List.zip_cons_cons, List.filterMap_cons,
      hzip]
    dsimp only
    rw [record?, StoredLine.start]
    dsimp only
    by_cases hhidden : isHiddenLine l.number
    · rw [if_pos (Or.inl hhidden), if_pos hhidden]
    · rw [if_neg (not_or.mpr ⟨hhidden, hlong⟩), if_neg hhidden]
      cases m.rva? c.sectionNumber (c.offset + l.offset) <;> rfl

theorem blocks_of_holds (m : AddressMap) {bs : List (StoredBlock c)} (h : data.Holds pos (bs.flatMap bytes))
    (hend : data.size = pos + (bs.flatMap bytes).length) (hsize : data.size < 2 ^ 32) :
    blocks m c data pos = bs.flatMap (records m) := by
  induction bs generalizing pos with
  | nil =>
    rw [List.flatMap_nil, List.length_nil] at hend
    rw [blocks, if_pos (by omega)]
    rfl
  | cons b bs ih =>
    rw [List.flatMap_cons] at h hend
    rw [List.length_append, length_bytes] at hend
    have hrest := h.right
    rw [length_bytes] at hrest
    have hlong : b.size = 12 + b.lines.length * 8 + b.columns.length := rfl
    have hcount : b.lines.length < 2 ^ 32 := by omega
    have hsize' : b.size < 2 ^ 32 := by omega
    have hfileAt : data.u32At? pos = some b.file := h.left.left.u32At?
    have hcountAt : data.u32At? (pos + 4) = some (.ofNat b.lines.length) := h.left.right.left.u32At?_ofNat hcount
    have hsizeAt : data.u32At? (pos + 8) = some (.ofNat b.size) := h.left.right.right.left.u32At?_ofNat hsize'
    have hlines : data.Holds (pos + 12) (b.lines.flatMap StoredLine.bytes) := h.left.right.right.right.left
    obtain ⟨after, hafter⟩ := hlines.toList_drop
    have hread := Reader.Reads.times_map (fun l _ => StoredLine.reads_bytes l) (.ofBytes (data.drop (pos + 12))) after
      hafter
    have hcountNat : (UInt32.ofNat b.lines.length).toNat = b.lines.length := UInt32.toNat_ofNat_of_lt' hcount
    have hsizeNat : (UInt32.ofNat b.size).toNat = b.size := UInt32.toNat_ofNat_of_lt' hsize'
    have hfits : ¬(UInt32.ofNat b.size < 12 ∨ data.size < pos + (UInt32.ofNat b.size).toNat) := by
      rw [UInt32.lt_iff_toNat_lt, hsizeNat]
      simp only [UInt32.reduceToNat]
      omega
    rw [blocks, if_neg (by omega), hfileAt, hcountAt, hsizeAt]
    dsimp only
    rw [hcountNat, if_neg (by omega), if_neg hfits, hread, hsizeNat, ih hrest (by omega), List.flatMap_cons, records,
      blockRecords_eq m b.file b.increasing b.below]

end StoredBlock

/-- The start of a subsection of lines; one bit tells whether columns are stored. -/
structure StoredContribution where
  offset : UInt32
  sectionNumber : UInt16
  flags : UInt16
  size : UInt32

namespace StoredContribution

def contribution (s : StoredContribution) : Contribution := ⟨s.offset, s.sectionNumber, s.flags &&& 1 != 0, s.size⟩

def bytes (s : StoredContribution) : List UInt8 :=
  leBytes 4 s.offset.toNat ++ (leBytes 2 s.sectionNumber.toNat ++ (leBytes 2 s.flags.toNat ++ leBytes 4 s.size.toNat))

theorem length_bytes (s : StoredContribution) : s.bytes.length = 12 := by
  simp only [bytes, List.length_append, length_leBytes]

theorem parse?_of_holds {s : StoredContribution} (h : data.Holds 0 s.bytes) :
    Contribution.parse? data = some s.contribution := by
  have hoffset : data.u32At? 0 = some s.offset := h.left.u32At?
  have hnumber : data.u16At? 4 = some s.sectionNumber := h.right.left.u16At?
  have hflags : data.u16At? 6 = some s.flags := h.right.right.left.u16At?
  have hsize : data.u32At? 8 = some s.size := h.right.right.right.u32At?
  simp only [Contribution.parse?, hoffset, hnumber, hflags, hsize, Option.bind_eq_bind, Option.bind_some, contribution]

end StoredContribution

end CodeAtlas.Database
