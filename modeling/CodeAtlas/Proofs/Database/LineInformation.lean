import CodeAtlas.Database.ModuleRecords
import CodeAtlas.Lookup.Sorting.Partition
import CodeAtlas.Proofs.Database.LineEncoding
import CodeAtlas.Proofs.Lookup.Ordered

namespace CodeAtlas.Database

/-- What a subsection says: about files, about inlined functions, about lines, or something else. -/
inductive LineContent
  | checksums (entries : List StoredChecksum)
  | definitions (form : UInt32) (entries : List StoredDefinition)
  | lines (head : StoredContribution) (blocks : List (StoredBlock head.contribution))
  | other (kind : UInt32) (body : List UInt8)
      (h : kind ≠ Subsection.lines ∧ kind ≠ Subsection.checksums ∧ kind ≠ Subsection.definitions)

namespace LineContent

def kind : LineContent → UInt32
  | checksums _ => Subsection.checksums
  | definitions _ _ => Subsection.definitions
  | lines _ _ => Subsection.lines
  | other kind _ _ => kind

def body : LineContent → List UInt8
  | checksums entries => entries.flatMap StoredChecksum.bytes
  | definitions form entries => leBytes 4 form.toNat ++ entries.flatMap (StoredDefinition.bytes (form == 1))
  | lines head blocks => head.bytes ++ blocks.flatMap StoredBlock.bytes
  | other _ body _ => body

/-- The places of checksums in their subsection, with the places of the names of the files. -/
def files : LineContent → List (Nat × UInt32)
  | checksums entries => StoredChecksum.places 0 entries
  | _ => []

def definitionsOf : LineContent → List (UInt32 × Definition)
  | definitions _ entries => entries.map fun d => (d.inlinee, d.definition)
  | _ => []

def records (m : AddressMap) : LineContent → List LineRecord
  | lines _ blocks => blocks.flatMap (StoredBlock.records m)
  | _ => []

end LineContent

/-- A subsection as it is stored, filled up to a multiple of four bytes. -/
structure StoredSubsection where
  content : LineContent
  filling : List UInt8
  aligned : content.body.length + filling.length = Bytes.align4 content.body.length

namespace StoredSubsection

def bytes (s : StoredSubsection) : List UInt8 :=
  leBytes 4 s.content.kind.toNat ++ (leBytes 4 s.content.body.length ++ (s.content.body ++ s.filling))

def subsection (s : StoredSubsection) : Subsection := ⟨s.content.kind, s.content.body.toArray⟩

variable {data : Bytes} {pos : Nat}

theorem length_bytes (s : StoredSubsection) : s.bytes.length = 8 + Bytes.align4 s.content.body.length := by
  have haligned := s.aligned
  simp only [bytes, List.length_append, length_leBytes]
  omega

theorem list_of_holds {ss : List StoredSubsection} (h : data.Holds pos (ss.flatMap bytes))
    (hend : data.size = pos + (ss.flatMap bytes).length) (hsize : data.size < 2 ^ 32) (hpos : pos % 4 = 0) :
    Subsection.list data pos = ss.map subsection := by
  induction ss generalizing pos with
  | nil =>
    rw [List.flatMap_nil, List.length_nil] at hend
    rw [Subsection.list, if_pos (by rw [Subsection.headSize]; omega)]
    rfl
  | cons s ss ih =>
    rw [List.flatMap_cons] at h hend
    rw [List.length_append] at hend
    have hlength := s.length_bytes
    have halign := Bytes.le_align4 s.content.body.length
    have hmod := Bytes.align4_mod s.content.body.length
    have hbody : s.content.body.length < 2 ^ 32 := by omega
    have hkindAt : data.u32At? pos = some s.content.kind := h.left.left.u32At?
    have hlengthAt : data.u32At? (pos + 4) = some (.ofNat s.content.body.length) := h.left.right.left.u32At?_ofNat hbody
    have hbodyAt : data.slice? (pos + Subsection.headSize) s.content.body.length = some s.content.body.toArray :=
      h.left.right.right.left.slice?
    have hread : Subsection.readAt? data pos = some s.subsection := by
      simp only [Subsection.readAt?, hkindAt, hlengthAt, UInt32.toNat_ofNat_of_lt' hbody, hbodyAt,
        Option.bind_eq_bind, Option.bind_some, subsection]
    have hnext : Bytes.align4 (pos + Subsection.headSize + s.subsection.body.size) = pos + s.bytes.length := by
      rw [hlength, Subsection.headSize, Bytes.align4_add (by omega)]
      exact Nat.add_assoc pos 8 _
    rw [Subsection.list, if_neg (by rw [Subsection.headSize]; omega), hread]
    dsimp only
    rw [hnext, ih h.right (by omega) (by omega), List.map_cons]

/-- What is gathered from the subsections of one kind is what each subsection has to say about it. -/
theorem flatMap_bodies {α : Type} {kind : UInt32} {read : Bytes → List α} {value : LineContent → List α}
    {ss : List StoredSubsection}
    (hread : ∀ s ∈ ss, s.content.kind = kind → read s.content.body.toArray = value s.content)
    (hother : ∀ s ∈ ss, s.content.kind ≠ kind → value s.content = []) :
    (ModuleRecords.bodies kind (ss.map subsection)).flatMap read = ss.flatMap fun s => value s.content := by
  induction ss with
  | nil => rfl
  | cons s ss ih =>
    have hread' := List.forall_mem_cons.mp hread
    have hother' := List.forall_mem_cons.mp hother
    have hrest := ih hread'.2 hother'.2
    rw [ModuleRecords.bodies] at hrest
    rw [ModuleRecords.bodies, List.map_cons, List.filter_cons, List.flatMap_cons]
    by_cases hkind : s.content.kind = kind
    · have hbeq : (s.subsection.kind == kind) = true := beq_iff_eq.mpr hkind
      rw [if_pos hbeq, List.map_cons, List.flatMap_cons, hrest]
      exact congrArg (· ++ _) (hread'.1 hkind)
    · have hbeq : ¬(s.subsection.kind == kind) = true := mt beq_iff_eq.mp hkind
      rw [if_neg hbeq, hrest, hother'.1 hkind, List.nil_append]

theorem length_body_le {s : StoredSubsection} {ss : List StoredSubsection} (h : s ∈ ss) :
    s.content.body.length ≤ (ss.flatMap bytes).length := by
  induction ss with
  | nil => cases h
  | cons t ss ih =>
    rw [List.flatMap_cons, List.length_append]
    rcases List.mem_cons.mp h with rfl | h
    · have hlength := s.length_bytes
      have halign := Bytes.le_align4 s.content.body.length
      omega
    · have hle := ih h
      omega

end StoredSubsection

namespace LineContent

theorem lines_ne_checksums : Subsection.lines ≠ Subsection.checksums := by decide

theorem lines_ne_definitions : Subsection.lines ≠ Subsection.definitions := by decide

theorem checksums_ne_definitions : Subsection.checksums ≠ Subsection.definitions := by decide

theorem checksumEntries_body {c : LineContent} (h : c.kind = Subsection.checksums) :
    checksumEntries c.body.toArray 0 = c.files.map fun p => (UInt32.ofNat p.1, p.2) := by
  cases c with
  | checksums entries =>
    refine StoredChecksum.checksumEntries_of_holds (Bytes.holds_toArray _) ?_ (Nat.zero_mod 4)
    rw [Nat.zero_add]
    rfl
  | definitions form entries => exact (checksums_ne_definitions h.symm).elim
  | lines head blocks => exact (lines_ne_checksums h).elim
  | other kind body hkind => exact (hkind.2.1 h).elim

theorem definitionTable_body {c : LineContent} (h : c.kind = Subsection.definitions)
    (hsize : c.body.length < 2 ^ 32) : definitionTable c.body.toArray = c.definitionsOf := by
  cases c with
  | definitions form entries =>
    have hholds := Bytes.holds_toArray (definitions form entries).body
    have hform := hholds.left.u32At?
    rw [definitionTable, hform]
    refine StoredDefinition.definitionEntries_of_holds hholds.right ?_ ?_
    · rw [List.size_toArray, body, List.length_append, length_leBytes]
      rfl
    · rw [List.size_toArray]
      exact hsize
  | checksums entries => exact (checksums_ne_definitions h).elim
  | lines head blocks => exact (lines_ne_definitions h).elim
  | other kind body hkind => exact (hkind.2.2 h).elim

theorem lineRecords_body (m : AddressMap) {c : LineContent} (h : c.kind = Subsection.lines)
    (hsize : c.body.length < 2 ^ 32) : lineRecords m c.body.toArray = c.records m := by
  cases c with
  | lines head blocks =>
    have hholds := Bytes.holds_toArray (lines head blocks).body
    have hrest := hholds.right
    rw [head.length_bytes] at hrest
    rw [lineRecords, StoredContribution.parse?_of_holds hholds.left]
    refine StoredBlock.blocks_of_holds m hrest ?_ ?_
    · rw [List.size_toArray, body, List.length_append, head.length_bytes]
      rfl
    · rw [List.size_toArray]
      exact hsize
  | checksums entries => exact (lines_ne_checksums h.symm).elim
  | definitions form entries => exact (lines_ne_definitions h.symm).elim
  | other kind body hkind => exact (hkind.1 h).elim

theorem files_of_kind_ne {c : LineContent} (h : c.kind ≠ Subsection.checksums) : c.files = [] := by
  cases c with
  | checksums => exact (h rfl).elim
  | definitions | lines | other => rfl

theorem definitionsOf_of_kind_ne {c : LineContent} (h : c.kind ≠ Subsection.definitions) : c.definitionsOf = [] := by
  cases c with
  | definitions => exact (h rfl).elim
  | checksums | lines | other => rfl

theorem records_of_kind_ne (m : AddressMap) {c : LineContent} (h : c.kind ≠ Subsection.lines) : c.records m = [] := by
  cases c with
  | lines => exact (h rfl).elim
  | checksums | definitions | other => rfl

theorem lt_of_mem_files {c : LineContent} {p : Nat × UInt32} (h : p ∈ c.files) : p.1 < c.body.length := by
  cases c with
  | checksums entries =>
    have hlt := StoredChecksum.lt_of_mem_places h
    rwa [Nat.zero_add] at hlt
  | definitions | lines | other => cases h

end LineContent

theorem lookup_map_ofNat {α : Type} {ps : List (Nat × α)} (h : ∀ p ∈ ps, p.1 < 2 ^ 32) (k : UInt32) :
    (ps.map fun p => (UInt32.ofNat p.1, p.2)).lookup k = ps.lookup k.toNat := by
  induction ps with
  | nil => rfl
  | cons p ps ih =>
    have h' := List.forall_mem_cons.mp h
    have hkey : (k == UInt32.ofNat p.1) = (k.toNat == p.1) := by
      rw [Bool.eq_iff_iff, beq_iff_eq, beq_iff_eq, ← UInt32.toNat_inj, UInt32.toNat_ofNat_of_lt' h'.1]
    rw [List.map_cons, List.lookup_cons, List.lookup_cons, hkey, ih h'.2]

namespace StoredSubsection

variable {ss : List StoredSubsection}

theorem length_lt_of_slice {data : Bytes} {start : Nat} {size : UInt32}
    (h : data.slice? start size.toNat = some (ss.flatMap bytes).toArray) : (ss.flatMap bytes).length < 2 ^ 32 := by
  have hslice := Bytes.size_of_slice? h
  have hlt := size.toNat_lt
  rw [List.size_toArray] at hslice
  omega

theorem lt_of_mem_files (hsize : (ss.flatMap bytes).length < 2 ^ 32) :
    ∀ p ∈ ss.flatMap fun s => s.content.files, p.1 < 2 ^ 32 := by
  intro p hp
  obtain ⟨s, hs, hp⟩ := List.mem_flatMap.mp hp
  have hle := length_body_le hs
  have hlt := LineContent.lt_of_mem_files hp
  omega

end StoredSubsection

namespace ModuleRecords

theorem exists_parse_of_slice [Sorting] (m : AddressMap) {e : ModuleEntry} {data : Bytes} {ss : List StoredSubsection}
    (h : data.slice? (e.symbolSize.toNat + e.c11Size.toNat) e.c13Size.toNat =
      some (ss.flatMap StoredSubsection.bytes).toArray) :
    ∃ r, parse m e data = .ok r ∧
      r.lines = Sorting.sort LineRecord.start (ss.flatMap fun s => s.content.records m) ∧
      r.files = (ss.flatMap fun s => s.content.files).map (fun p => (UInt32.ofNat p.1, p.2)) ∧
      r.definitions = ss.flatMap fun s => s.content.definitionsOf := by
  have hsize := StoredSubsection.length_lt_of_slice h
  have hbody : ∀ s ∈ ss, s.content.body.length < 2 ^ 32 := by
    intro s hs
    have hle := StoredSubsection.length_body_le hs
    omega
  have hlist : Subsection.list (ss.flatMap StoredSubsection.bytes).toArray 0 = ss.map StoredSubsection.subsection := by
    refine StoredSubsection.list_of_holds (Bytes.holds_toArray _) ?_ ?_ (Nat.zero_mod 4)
    · rw [Nat.zero_add]
      rfl
    · rw [List.size_toArray]
      exact hsize
  have hlines : (bodies Subsection.lines (ss.map StoredSubsection.subsection)).flatMap (lineRecords m) =
      ss.flatMap fun s => s.content.records m :=
    StoredSubsection.flatMap_bodies (fun s hs hkind => LineContent.lineRecords_body m hkind (hbody s hs))
      fun s _ hkind => LineContent.records_of_kind_ne m hkind
  have hdefinitions : (bodies Subsection.definitions (ss.map StoredSubsection.subsection)).flatMap definitionTable =
      ss.flatMap fun s => s.content.definitionsOf :=
    StoredSubsection.flatMap_bodies (fun s hs hkind => LineContent.definitionTable_body hkind (hbody s hs))
      fun s _ hkind => LineContent.definitionsOf_of_kind_ne hkind
  have hfiles : (bodies Subsection.checksums (ss.map StoredSubsection.subsection)).flatMap (checksumEntries · 0) =
      (ss.flatMap fun s => s.content.files).map fun p => (UInt32.ofNat p.1, p.2) := by
    rw [List.map_flatMap]
    refine @StoredSubsection.flatMap_bodies _ _ (checksumEntries · 0)
      (fun c => c.files.map fun p => (UInt32.ofNat p.1, p.2)) _ ?_ ?_
    · intro s _ hkind
      exact LineContent.checksumEntries_body hkind
    · intro s _ hkind
      rw [LineContent.files_of_kind_ne hkind, List.map_nil]
  rw [parse, h]
  dsimp only
  rw [hlist, hlines, hdefinitions, hfiles]
  exact ⟨_, rfl, rfl, rfl, rfl⟩

/-- What a module says about files, inlined functions and lines is what its subsections say, and the first of several
entries counts. -/
structure SaysAsStored (m : AddressMap) (ss : List StoredSubsection) (r : ModuleRecords) : Prop where
  files : ∀ place, r.files.lookup place = (ss.flatMap fun s => s.content.files).lookup place.toNat
  definitions : ∀ inlinee, r.definitions.lookup inlinee = (ss.flatMap fun s => s.content.definitionsOf).lookup inlinee
  lines : r.lines.Perm (ss.flatMap fun s => s.content.records m)
  ordered : r.lines.Pairwise fun a b => a.start ≤ b.start
  /-- Only lines that start at one address could be in another order. -/
  determined : ((ss.flatMap fun s => s.content.records m).map (·.start)).Nodup →
    r.lines = (ss.flatMap fun s => s.content.records m).mergeSort fun a b => a.start ≤ b.start

theorem saysAsStored_of_slice [Sorting] (m : AddressMap) {e : ModuleEntry} {data : Bytes} {ss : List StoredSubsection}
    (h : data.slice? (e.symbolSize.toNat + e.c11Size.toNat) e.c13Size.toNat =
      some (ss.flatMap StoredSubsection.bytes).toArray) :
    ∃ r, parse m e data = .ok r ∧ r.SaysAsStored m ss := by
  obtain ⟨r, hr, hlines, hfiles, hdefinitions⟩ := exists_parse_of_slice m h
  refine ⟨r, hr, fun place => ?_, fun inlinee => ?_, ?_, ?_, fun hdistinct => ?_⟩
  · rw [hfiles, lookup_map_ofNat (StoredSubsection.lt_of_mem_files (StoredSubsection.length_lt_of_slice h))]
  · rw [hdefinitions]
  · exact hlines ▸ Sorting.perm _ _
  · exact hlines ▸ Sorting.ordered _ _
  · rw [hlines]
    exact Sorting.sort_eq_of_increasing (List.mergeSort_perm _ _)
      (increasing_of_nodup (pairwise_mergeSort_key _) (((List.mergeSort_perm _ _).map _).nodup_iff.mpr hdistinct))

/-- A program whose only section can hold code. -/
def oneSection : AddressMap := ⟨[⟨[], 0x1000, 0x1000, 0, 0, 0⟩], #[]⟩

/-- Lines with columns in two blocks, one of them hidden, and definitions in both forms. -/
def smallSubsections : List StoredSubsection :=
  [⟨.other 0x800000F2 [1, 2, 3] (by decide), [0], by decide⟩,
    ⟨.checksums [⟨0x20, 0, [], [0, 0], by decide, by decide⟩, ⟨0x30, 1, [7, 8, 9], [0, 0, 0], by decide, by decide⟩],
      [], by decide⟩,
    ⟨.definitions 1 [⟨0x1001, ⟨0, 5⟩, [8, 16]⟩, ⟨0x1002, ⟨8, 6⟩, []⟩], [], by decide⟩,
    ⟨.lines ⟨0x10, 1, 1, 0x40⟩
      [⟨0, [⟨0, 0x80000003⟩, ⟨8, 0x80FEEFEE⟩, ⟨12, 0x80000004⟩], .replicate 12 0, by decide, by decide, by decide⟩,
        ⟨8, [⟨4, 9⟩], .replicate 4 0, by decide, by decide, by decide⟩],
      [], by decide⟩,
    ⟨.definitions 0 [⟨0x1001, ⟨8, 7⟩, []⟩], [], by decide⟩]

open scoped Sorting

theorem saysAsStored_smallSubsections : ∃ r, parse oneSection ⟨[], [], 0, 4, 2, 208⟩
      ([4, 0, 0, 0, 1, 1] ++ smallSubsections.flatMap StoredSubsection.bytes ++ [5]).toArray = .ok r ∧
    r.files.lookup 8 = some 0x30 ∧ r.definitions.lookup 0x1001 = some ⟨0, 5⟩ ∧
    r.lines.Perm [⟨0x1010, 0x1018, 3, 0⟩, ⟨0x101C, 0x1050, 4, 0⟩, ⟨0x1014, 0x1050, 9, 8⟩] := by
  have hslice := Bytes.slice?_toArray_append [4, 0, 0, 0, 1, 1] (smallSubsections.flatMap StoredSubsection.bytes) [5]
  have hlength : (smallSubsections.flatMap StoredSubsection.bytes).length = 208 := by decide +kernel
  rw [hlength] at hslice
  obtain ⟨r, hr, h⟩ := saysAsStored_of_slice oneSection (e := ⟨[], [], 0, 4, 2, 208⟩) hslice
  exact ⟨r, hr, h.files 8, h.definitions 0x1001, h.lines⟩

def crowdedHead : StoredContribution := ⟨0x10, 1, 0, 0x40⟩

/-- Each of seventeen blocks has one line, and all these lines start with the contribution. -/
def crowdedSubsection : StoredSubsection :=
  ⟨.lines crowdedHead ((List.range 17).map fun i => ⟨0, [⟨0, .ofNat i⟩], [], rfl, List.pairwise_singleton _ _,
    List.forall_mem_singleton.mpr (by decide : (0 : UInt32) < crowdedHead.contribution.size)⟩), [], by decide +kernel⟩

/-- Lines that start at one address need not stay in the order of the subsections. -/
theorem not_stable_crowdedSubsection : ∃ r, parse oneSection ⟨[], [], 0, 0, 0, 360⟩
      crowdedSubsection.bytes.toArray = .ok r ∧
    r.lines ≠ (crowdedSubsection.content.records oneSection).mergeSort fun a b => a.start ≤ b.start := by
  have hslice := Bytes.slice?_toArray_append [] crowdedSubsection.bytes []
  have hlength : crowdedSubsection.bytes.length = 360 := by decide +kernel
  have hrecords : crowdedSubsection.content.records oneSection =
      (List.range 17).map fun i => ⟨0x1010, 0x1050, .ofNat i, 0⟩ := by decide +kernel
  have hstable : (crowdedSubsection.content.records oneSection).Pairwise fun a b => a.start ≤ b.start := by
    rw [hrecords]
    decide
  have hsorted : Sorting.sort LineRecord.start (crowdedSubsection.content.records oneSection) =
      [8, 16, 15, 14, 13, 12, 11, 10, 9, 0, 7, 6, 5, 4, 3, 2, 1].map fun line => ⟨0x1010, 0x1050, line, 0⟩ := by
    rw [hrecords]
    exact Sorting.sort_eq_of_part (by decide +kernel) (by decide)
  rw [List.append_nil, List.nil_append, List.length_nil, hlength] at hslice
  have hsingle : [crowdedSubsection].flatMap StoredSubsection.bytes = crowdedSubsection.bytes :=
    List.flatMap_singleton _ _
  have hslices : Bytes.slice? crowdedSubsection.bytes.toArray 0 360 =
      some ([crowdedSubsection].flatMap StoredSubsection.bytes).toArray := by
    rw [hsingle]
    exact hslice
  obtain ⟨r, hr, hlines, -⟩ := exists_parse_of_slice oneSection (e := ⟨[], [], 0, 0, 0, 360⟩) hslices
  refine ⟨r, hr, ?_⟩
  rw [hlines, List.flatMap_singleton, hsorted, List.mergeSort_of_pairwise (hstable.imp decide_eq_true), hrecords]
  decide

end ModuleRecords

end CodeAtlas.Database
