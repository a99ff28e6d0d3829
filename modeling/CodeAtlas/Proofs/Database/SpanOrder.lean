import CodeAtlas.Proofs.Database.FunctionRecords
import CodeAtlas.Proofs.Database.LineEncoding
import CodeAtlas.Proofs.Database.StoredProgram

namespace CodeAtlas.Database

/-- What bisection needs to find the span that covers an address: none is empty, and they are in the order of their
starts. -/
def Searchable (spans : List LineSpan) : Prop :=
  (spans.Pairwise fun a b => a.start ≤ b.start) ∧ ∀ s ∈ spans, s.start < s.stop

instance (spans : List LineSpan) : Decidable (Searchable spans) := inferInstanceAs (Decidable (_ ∧ _))

theorem lt_iff_of_ne {start stop : UInt32} (h : start ≠ stop) :
    start < stop ↔ start.toNat + (stop - start).toNat < 2 ^ 32 := by
  have hstart := start.toNat_lt
  have hstop := stop.toNat_lt
  have hne : start.toNat ≠ stop.toNat := fun he => h (UInt32.toNat_inj.mp he)
  rw [UInt32.lt_iff_toNat_lt, UInt32.toNat_sub]
  omega

theorem ne_add_of_ne_zero {start length : UInt32} (h : length ≠ 0) : start ≠ start + length := by
  have hstart := start.toNat_lt
  have hlength := length.toNat_lt
  have hne : length.toNat ≠ 0 := fun he => h (UInt32.toNat_inj.mp he)
  intro he
  have hsum := congrArg UInt32.toNat he
  rw [UInt32.toNat_add] at hsum
  omega

section Lines

variable {m : AddressMap} {c : Contribution}

theorem start_ne_stop_of_blockRecords {file : UInt32} {ls : List LineStart} {r : LineRecord}
    (h : r ∈ blockRecords m c file ls) : r.start ≠ r.stop := by
  induction ls with
  | nil => cases h
  | cons l ls ih =>
    rw [blockRecords_cons] at h
    split at h
    next => exact ih h
    next hkept =>
      have hlt := UInt32.not_le.mp (not_or.mp hkept).2
      split at h
      next rva hrva =>
        rcases List.mem_cons.mp h with rfl | h
        · refine ne_add_of_ne_zero fun hzero => ?_
          have hlength := congrArg UInt32.toNat hzero
          rw [UInt32.toNat_sub_of_le _ _ (UInt32.le_of_lt hlt)] at hlength
          rw [UInt32.lt_iff_toNat_lt] at hlt
          exact Nat.sub_ne_zero_of_lt hlt hlength
        · exact ih h
      next => exact ih h

theorem start_ne_stop_of_blocks {data : Bytes} {pos : Nat} {r : LineRecord} (h : r ∈ blocks m c data pos) :
    r.start ≠ r.stop := by
  fun_induction blocks m c data pos with
  | case1 => cases h
  | case2 => cases h
  | case3 => exact start_ne_stop_of_blockRecords h
  | case4 _ _ _ _ _ _ _ _ _ _ _ _ _ _ _ ih =>
    rcases List.mem_append.mp h with h | h
    · exact start_ne_stop_of_blockRecords h
    · exact ih h
  | case5 _ _ _ _ _ _ _ _ _ _ _ _ _ ih =>
    rcases List.mem_append.mp h with h | h
    · exact start_ne_stop_of_blockRecords h
    · exact ih h
  | case6 => cases h

theorem start_ne_stop_of_parse [Sorting] {e : ModuleEntry} {data : Bytes} {records : ModuleRecords}
    (h : ModuleRecords.parse m e data = .ok records) : ∀ r ∈ records.lines, r.start ≠ r.stop := by
  intro r hr
  unfold ModuleRecords.parse at h
  dsimp only at h
  split at h
  next => cases h
  next c13 hc13 =>
    cases h
    obtain ⟨body, -, hbody⟩ := List.mem_flatMap.mp (Sorting.mem_sort.mp hr)
    rw [lineRecords] at hbody
    split at hbody
    next => exact start_ne_stop_of_blocks hbody
    next => cases hbody

theorem ordered_of_parse [Sorting] {e : ModuleEntry} {data : Bytes} {records : ModuleRecords}
    (h : ModuleRecords.parse m e data = .ok records) : records.lines.Pairwise fun a b => a.start ≤ b.start := by
  unfold ModuleRecords.parse at h
  dsimp only at h
  split at h
  next => cases h
  next c13 hc13 =>
    cases h
    exact Sorting.ordered _ _

end Lines

section Inlined

variable {p : Procedure}

/-- Where a range ends that these ranges follow. -/
def rangeStop (p : Procedure) (r : InlineRange) (rs : List InlineRange) : UInt32 :=
  match r.length, rs.head? with
  | some length, _ => p.rva + r.offset + length
  | none, some next => p.rva + next.offset
  | none, none => p.rva + p.length

theorem inlineSpans_cons (r : InlineRange) (rs : List InlineRange) : FunctionTable.inlineSpans p (r :: rs) =
    if rangeStop p r rs ≤ p.rva + r.offset then FunctionTable.inlineSpans p rs
    else ⟨p.rva + r.offset, rangeStop p r rs, r.line, r.file⟩ :: FunctionTable.inlineSpans p rs := rfl

theorem start_lt_stop_of_inlineSpans {rs : List InlineRange} {s : LineRecord}
    (h : s ∈ FunctionTable.inlineSpans p rs) : s.start < s.stop := by
  induction rs with
  | nil => cases h
  | cons r rs ih =>
    rw [inlineSpans_cons] at h
    split at h
    next => exact ih h
    next hlt =>
      rcases List.mem_cons.mp h with rfl | h
      · exact UInt32.not_le.mp hlt
      · exact ih h

/-- Relative to the function around them, the spans start where the ranges do. -/
theorem offsets_inlineSpans (rs : List InlineRange) :
    ((FunctionTable.inlineSpans p rs).map fun s => s.start - p.rva).Sublist (rs.map (·.offset)) := by
  induction rs with
  | nil => exact List.Sublist.slnil
  | cons r rs ih =>
    have hstart : p.rva + r.offset - p.rva = r.offset := by rw [UInt32.add_comm, UInt32.add_sub_cancel]
    rw [inlineSpans_cons, List.map_cons]
    split
    next => exact ih.cons _
    next =>
      rw [List.map_cons, hstart]
      exact ih.cons_cons _

theorem sorted_sortedRanges [Sorting] (c : InlineCall) : c.sortedRanges.Pairwise fun a b => a.offset ≤ b.offset :=
  Sorting.ordered _ _

end Inlined

/-- Addresses whose distances from `base` do not decrease are ordered unless some of them pass the end of the address
space and others do not. -/
theorem pairwise_le_iff {base : UInt32} {xs : List UInt32} (h : xs.Pairwise fun a b => a - base ≤ b - base) :
    xs.Pairwise (· ≤ ·) ↔ (∀ x ∈ xs, base ≤ x) ∨ ∀ x ∈ xs, x < base := by
  have habove : ∀ x : UInt32, base ≤ x → (x - base).toNat = x.toNat - base.toNat :=
    fun x => UInt32.toNat_sub_of_le x base
  have hbelow : ∀ x : UInt32, x < base → (x - base).toNat = 2 ^ 32 - base.toNat + x.toNat := by
    intro x hlt
    have hbase := base.toNat_lt
    rw [UInt32.lt_iff_toNat_lt] at hlt
    rw [UInt32.toNat_sub, Nat.mod_eq_of_lt (by omega)]
  simp only [UInt32.le_iff_toNat_le, UInt32.lt_iff_toNat_lt] at habove hbelow h ⊢
  constructor
  · intro hsorted
    by_cases hbefore : ∃ x ∈ xs, x.toNat < base.toNat
    · obtain ⟨x, hx, hlt⟩ := hbefore
      refine .inr fun y hy => Nat.lt_of_not_le fun hle => ?_
      -- The addresses on one side of `base` are the nearer ones, so they come first, and are the greater ones.
      obtain ⟨i, hi, rfl⟩ := List.mem_iff_getElem.mp hx
      obtain ⟨j, hj, rfl⟩ := List.mem_iff_getElem.mp hy
      have hwrapped := hbelow _ hlt
      have hplain := habove _ hle
      have hy := xs[j].toNat_lt
      rcases Nat.lt_trichotomy i j with hij | rfl | hji
      · have hdistance := List.pairwise_iff_getElem.mp h i j hi hj hij
        omega
      · omega
      · have horder := List.pairwise_iff_getElem.mp hsorted j i hj hi hji
        omega
    · exact .inl fun x hx => Nat.le_of_not_lt fun hlt => hbefore ⟨x, hx, hlt⟩
  · rintro (hall | hall)
    · refine h.imp_of_mem fun hx hy hdistance => ?_
      rw [habove _ (hall _ hx), habove _ (hall _ hy)] at hdistance
      have hle := hall _ hx
      have hle' := hall _ hy
      omega
    · refine h.imp_of_mem fun hx hy hdistance => ?_
      rw [hbelow _ (hall _ hx), hbelow _ (hall _ hy)] at hdistance
      omega

namespace FunctionTable

section Bounds

variable {spans : List LineSpan} {records : List LineRecord}

theorem bounds_eq {t : PathTable} {path? : UInt32 → Option Text}
    (h : spans.map (·.source t) = records.map (·.source path?)) :
    spans.map (fun s => (s.start, s.stop)) = records.map fun r => (r.start, r.stop) := by
  have hbounds := congrArg (List.map fun s => (s.start, s.stop)) h
  rwa [List.map_map, List.map_map] at hbounds

variable (hb : spans.map (fun s => (s.start, s.stop)) = records.map fun r => (r.start, r.stop))

include hb

theorem pairwise_of_bounds {R : UInt32 × UInt32 → UInt32 × UInt32 → Prop}
    (h : records.Pairwise fun a b => R (a.start, a.stop) (b.start, b.stop)) :
    spans.Pairwise fun a b => R (a.start, a.stop) (b.start, b.stop) := by
  have hpairs : (records.map fun r => (r.start, r.stop)).Pairwise R := List.pairwise_map.mpr h
  rw [← hb, List.pairwise_map] at hpairs
  exact hpairs

theorem forall_of_bounds {P : UInt32 → UInt32 → Prop} (h : ∀ r ∈ records, P r.start r.stop) :
    ∀ s ∈ spans, P s.start s.stop := by
  intro s hs
  have hmem : (s.start, s.stop) ∈ records.map fun r => (r.start, r.stop) := hb ▸ List.mem_map_of_mem hs
  obtain ⟨r, hr, he⟩ := List.mem_map.mp hmem
  have hbounds := h r hr
  rwa [(Prod.mk.inj he).1, (Prod.mk.inj he).2] at hbounds

end Bounds

theorem exists_module_of_lines [Sorting] {db : Database} {lines : Array LineSpan} (h : lines ∈ (build db).lines.toList) :
    ∃ e data m, ModuleRecords.parse db.addresses e data = .ok m ∧
      lines.toList.map (fun s => (s.start, s.stop)) = m.lines.map fun r => (r.start, r.stop) := by
  cases hmodules : db.modules with
  | none =>
    rw [build, hmodules] at h
    cases h
  | some modules =>
    have hsource := List.mem_map_of_mem (f := fun lines => lines.toList.map (·.source (build db).paths)) h
    rw [lines_build hmodules] at hsource
    obtain ⟨m, hm, hsource⟩ := List.mem_map.mp hsource
    obtain ⟨e, -, hread⟩ := List.mem_filterMap.mp hm
    split at hread
    next => cases hread
    next =>
      obtain ⟨data, -, hparse⟩ := Option.bind_eq_some_iff.mp hread
      refine ⟨e, data, m, ?_, bounds_eq hsource.symm⟩
      cases hresult : ModuleRecords.parse db.addresses e data with
      | error fault =>
        rw [hresult] at hparse
        cases hparse
      | ok found =>
        rw [hresult] at hparse
        exact congrArg Except.ok (Option.some.inj hparse)

theorem exists_ranges_of_inlined [Sorting] {db : Database} {f : ProgramFunction} {i : InlinedFunction}
    (hf : f ∈ (build db).functions.toList) (hi : i ∈ f.inlined) : ∃ (p : Procedure) (c : InlineCall), p.rva = f.start ∧
      i.spans.toList.map (fun s => (s.start, s.stop)) =
        (inlineSpans p c.sortedRanges).map fun r => (r.start, r.stop) := by
  obtain ⟨r, -, hsource⟩ := exists_record hf
  have hinlined := List.mem_map_of_mem (f := (·.source (build db).paths)) hi
  have hcalls : f.inlined.map (·.source (build db).paths) = _ := congrArg FunctionSource.inlined hsource
  rw [hcalls] at hinlined
  obtain ⟨c, -, hcall⟩ := List.mem_map.mp hinlined
  exact ⟨r.procedure, c, (congrArg FunctionSource.start hsource).symm,
    bounds_eq (congrArg InlineSource.spans hcall).symm⟩

/-- How far the tables that are searched by bisection are fit for it. -/
structure SpansOrdered (t : FunctionTable) : Prop where
  lines_ordered : ∀ lines ∈ t.lines.toList, lines.toList.Pairwise fun a b => a.start ≤ b.start
  /-- The end of a line may pass the end of the address space. -/
  lines_searchable_iff : ∀ lines ∈ t.lines.toList, Searchable lines.toList ↔
    ∀ s ∈ lines.toList, s.start.toNat + (s.stop - s.start).toNat < 2 ^ 32
  spans_nonempty : ∀ f ∈ t.functions.toList, ∀ i ∈ f.inlined, ∀ s ∈ i.spans.toList, s.start < s.stop
  /-- Some spans of an inlined function may pass the end of the address space while others do not. -/
  spans_searchable_iff : ∀ f ∈ t.functions.toList, ∀ i ∈ f.inlined, Searchable i.spans.toList ↔
    (∀ s ∈ i.spans.toList, f.start ≤ s.start) ∨ ∀ s ∈ i.spans.toList, s.start < f.start

theorem spansOrdered_build [Sorting] (db : Database) : (build db).SpansOrdered := by
  have hlines : ∀ lines ∈ (build db).lines.toList, lines.toList.Pairwise fun a b => a.start ≤ b.start := by
    intro lines hlines
    obtain ⟨e, data, m, hm, hbounds⟩ := exists_module_of_lines hlines
    exact pairwise_of_bounds (R := fun a b => a.1 ≤ b.1) hbounds (ordered_of_parse hm)
  have hspans : ∀ f ∈ (build db).functions.toList, ∀ i ∈ f.inlined, ∀ s ∈ i.spans.toList, s.start < s.stop := by
    intro f hf i hi
    obtain ⟨p, c, -, hbounds⟩ := exists_ranges_of_inlined hf hi
    exact forall_of_bounds hbounds fun r hr => start_lt_stop_of_inlineSpans hr
  refine ⟨hlines, fun lines h => ?_, hspans, fun f hf i hi => ?_⟩
  · obtain ⟨e, data, m, hm, hbounds⟩ := exists_module_of_lines h
    have hne := forall_of_bounds hbounds (start_ne_stop_of_parse hm)
    constructor
    · exact fun hsearch s hs => (lt_iff_of_ne (hne s hs)).mp (hsearch.2 s hs)
    · exact fun hfit => ⟨hlines lines h, fun s hs => (lt_iff_of_ne (hne s hs)).mpr (hfit s hs)⟩
  · obtain ⟨p, c, hrva, hbounds⟩ := exists_ranges_of_inlined hf hi
    have hoffsets : (inlineSpans p c.sortedRanges).Pairwise fun a b => a.start - f.start ≤ b.start - f.start := by
      rw [← hrva]
      exact List.pairwise_map.mp ((List.pairwise_map.mpr (sorted_sortedRanges c)).sublist (offsets_inlineSpans _))
    have hrotated : (i.spans.toList.map (·.start)).Pairwise fun a b => a - f.start ≤ b - f.start :=
      List.pairwise_map.mpr (pairwise_of_bounds (R := fun a b => a.1 - f.start ≤ b.1 - f.start) hbounds hoffsets)
    have hiff := pairwise_le_iff hrotated
    rw [List.pairwise_map, List.forall_mem_map, List.forall_mem_map] at hiff
    rw [Searchable, ← hiff]
    exact and_iff_left (hspans f hf i hi)

end FunctionTable

open scoped Sorting

theorem not_searchable_sampleFile : ∃ db f i, Database.parse sampleFile = .ok db ∧
    f ∈ (FunctionTable.build db).functions.toList ∧ i ∈ f.inlined ∧ ¬Searchable i.spans.toList := by
  obtain ⟨c, hc, hs⟩ := exists_sampleContainer
  have hg : sampleFunctions[1] ∈ sampleFunctions := List.getElem_mem _
  refine ⟨sampleDatabase c, sampleFunctions[1], _, parse_sampleFile hc hs, ?_, List.mem_singleton_self _, by decide⟩
  rw [build_sampleDatabase hs]
  exact hg

end CodeAtlas.Database
