import CodeAtlas.Proofs.Database.SpanOrder

namespace CodeAtlas.Database

/-- The deepest come first, and those of one depth stay in their order. -/
structure FallingBy (depth : α → Nat) (xs ys : List α) : Prop where
  perm : ys.Perm xs
  falling : ys.Pairwise fun a b => depth b ≤ depth a
  stable : ∀ d, ys.filter (depth · == d) = xs.filter (depth · == d)

theorem fallingBy_mergeSort (depth : α → Nat) (xs : List α) :
    FallingBy depth xs (xs.mergeSort fun a b => depth b ≤ depth a) := by
  have htrans : ∀ a b c : α, decide (depth b ≤ depth a) = true → decide (depth c ≤ depth b) = true →
      decide (depth c ≤ depth a) = true := by
    intro a b c hab hbc
    exact decide_eq_true (Nat.le_trans (of_decide_eq_true hbc) (of_decide_eq_true hab))
  have htotal : ∀ a b : α, (decide (depth b ≤ depth a) || decide (depth a ≤ depth b)) = true := by
    intro a b
    rcases Nat.le_total (depth b) (depth a) with h | h
    · simp [h]
    · simp [h]
  refine ⟨List.mergeSort_perm _ _, (List.pairwise_mergeSort htrans htotal xs).imp of_decide_eq_true, fun d => ?_⟩
  refine filter_mergeSort_of_related htrans htotal (fun a b ha hb => ?_) xs
  exact decide_eq_true (Nat.le_of_eq ((eq_of_beq hb).trans (eq_of_beq ha).symm))

theorem map_mergeSort_eq (depth : α → Nat) (f : α → β) (xs : List α) :
    (xs.mergeSort fun a b => depth b ≤ depth a).map f =
      ((xs.map fun x => (depth x, f x)).mergeSort fun a b => b.1 ≤ a.1).map (·.2) := by
  rw [← List.map_mergeSort (r := fun a b => decide (depth b ≤ depth a)) fun _ _ _ _ => rfl, List.map_map]
  rfl

/-- Where the code of a range lies, in numbers that do not wrap around. -/
structure Extent where
  range : InlineRange
  start : Nat
  stop : Nat

namespace Extent

def Holds (e : Extent) (rva : UInt32) : Prop := e.start ≤ rva.toNat ∧ rva.toNat < e.stop

instance (e : Extent) (rva : UInt32) : Decidable (e.Holds rva) := inferInstanceAs (Decidable (_ ∧ _))

def span (e : Extent) : LineRecord := ⟨.ofNat e.start, .ofNat e.stop, e.range.line, e.range.file⟩

/-- The extents end inside the address space, and no address lies in two of them. -/
structure Apart (es : List Extent) : Prop where
  inside : ∀ e ∈ es, e.start < 2 ^ 32 ∧ e.stop < 2 ^ 32
  disjoint : es.Pairwise fun a b => ∀ rva, a.Holds rva → ¬b.Holds rva

theorem apart_of_follow {es : List Extent} (hinside : ∀ e ∈ es, e.start < 2 ^ 32 ∧ e.stop < 2 ^ 32)
    (h : es.Pairwise fun a b => a.stop ≤ b.start) : Apart es := by
  refine ⟨hinside, h.imp fun hle rva ha hb => ?_⟩
  exact Nat.not_lt.mpr (Nat.le_trans hle hb.1) ha.2

end Extent

/-- Where a range ends in a function that starts and is as long as this. One of unknown length runs to the next of the
ranges or to the end of the function. -/
def extentStop (start length : Nat) (r : InlineRange) (rs : List InlineRange) : Nat :=
  match r.length, rs.head? with
  | some own, _ => start + r.offset.toNat + own.toNat
  | none, some next => start + next.offset.toNat
  | none, none => start + length

def rangeExtents (start length : Nat) : List InlineRange → List Extent
  | [] => []
  | r :: rs => ⟨r, start + r.offset.toNat, extentStop start length r rs⟩ :: rangeExtents start length rs

section Extents

variable {p : Procedure} {rs : List InlineRange}

theorem ofNat_extentStop (p : Procedure) (r : InlineRange) (rs : List InlineRange) :
    .ofNat (extentStop p.rva.toNat p.length.toNat r rs) = rangeStop p r rs := by
  rw [extentStop, rangeStop]
  cases r.length with
  | some own => simp only [UInt32.ofNat_add, UInt32.ofNat_toNat]
  | none =>
    cases rs.head? with
    | some next => simp only [UInt32.ofNat_add, UInt32.ofNat_toNat]
    | none => simp only [UInt32.ofNat_add, UInt32.ofNat_toNat]

theorem ofNat_le_ofNat_iff {a b : Nat} (ha : a < 2 ^ 32) (hb : b < 2 ^ 32) :
    UInt32.ofNat a ≤ UInt32.ofNat b ↔ a ≤ b := by
  rw [UInt32.le_iff_toNat_le, UInt32.toNat_ofNat', UInt32.toNat_ofNat', Nat.mod_eq_of_lt ha, Nat.mod_eq_of_lt hb]

/-- Where nothing wraps around, the spans are the extents that are not empty. -/
theorem inlineSpans_eq (h : ∀ e ∈ rangeExtents p.rva.toNat p.length.toNat rs, e.start < 2 ^ 32 ∧ e.stop < 2 ^ 32) :
    FunctionTable.inlineSpans p rs =
      ((rangeExtents p.rva.toNat p.length.toNat rs).filter fun e => e.start < e.stop).map Extent.span := by
  induction rs with
  | nil => rfl
  | cons r rs ih =>
    rw [rangeExtents] at h ⊢
    obtain ⟨⟨hstart, hstop⟩, hrest⟩ := List.forall_mem_cons.mp h
    have hspan : UInt32.ofNat (p.rva.toNat + r.offset.toNat) = p.rva + r.offset := by
      simp only [UInt32.ofNat_add, UInt32.ofNat_toNat]
    have hiff := ofNat_le_ofNat_iff hstop hstart
    rw [ofNat_extentStop, hspan] at hiff
    rw [inlineSpans_cons, List.filter_cons, ih hrest]
    by_cases hempty : rangeStop p r rs ≤ p.rva + r.offset
    · have hle := hiff.mp hempty
      rw [if_pos hempty, if_neg (by simpa using hle)]
    · have hlt := Nat.lt_of_not_le fun hle => hempty (hiff.mpr hle)
      rw [if_neg hempty, if_pos (by simpa using hlt), List.map_cons, Extent.span, hspan, ofNat_extentStop]

theorem starts_rangeExtents (start length : Nat) (rs : List InlineRange) :
    (rangeExtents start length rs).map (·.start) = rs.map fun r => start + r.offset.toNat := by
  induction rs with
  | nil => rfl
  | cons r rs ih => rw [rangeExtents, List.map_cons, List.map_cons, ih]

/-- Ranges in the order of their offsets that share no address follow each other. -/
theorem stop_le_start_of_disjoint {start length : Nat} (hsorted : rs.Pairwise fun a b => a.offset ≤ b.offset)
    (h : Extent.Apart (rangeExtents start length rs)) :
    ((rangeExtents start length rs).filter fun e => e.start < e.stop).Pairwise fun a b => a.stop ≤ b.start := by
  have hstarts : ((rangeExtents start length rs).map (·.start)).Pairwise (· ≤ ·) := by
    rw [starts_rangeExtents, List.pairwise_map]
    exact hsorted.imp fun hle => Nat.add_le_add_left (UInt32.le_iff_toNat_le.mp hle) _
  refine List.pairwise_filter.mpr (((List.pairwise_map.mp hstarts).and h.disjoint).imp_of_mem ?_)
  intro a b _ hb ⟨hle, hdisjoint⟩ _ hnonempty
  -- If the second one started before the first one ends, its start would lie in both.
  refine Nat.le_of_not_lt fun hlt => hdisjoint (.ofNat b.start) ?_ ?_
  · rw [Extent.Holds, UInt32.toNat_ofNat_of_lt' (h.inside b hb).1]
    exact ⟨hle, hlt⟩
  · rw [Extent.Holds, UInt32.toNat_ofNat_of_lt' (h.inside b hb).1]
    exact ⟨Nat.le_refl _, of_decide_eq_true hnonempty⟩

end Extents

namespace FunctionTable

/-- Among spans that follow each other bisection finds what going through all of them finds. -/
theorem covering?_eq_find? {spans : Array LineSpan} (h : spans.toList.Pairwise fun a b => a.stop ≤ b.start)
    (hne : ∀ s ∈ spans.toList, s.start < s.stop) (rva : UInt32) :
    covering? spans rva = spans.toList.find? fun s => s.start ≤ rva && rva < s.stop := by
  have hinc : Increasing LineSpan.start spans.toList :=
    h.imp_of_mem fun ha _ hle => UInt32.lt_of_lt_of_le (hne _ ha) hle
  rw [covering?]
  cases hfind : spans.toList.find? fun s => s.start ≤ rva && rva < s.stop with
  | none =>
    refine Option.filter_eq_none_iff.mpr fun s hlast hstop => ?_
    obtain ⟨hs, hstart, -⟩ := (Bisection.lastAtMost?_eq_some_iff hinc).mp hlast
    have hnot := List.find?_eq_none.mp hfind s hs
    exact hnot (Bool.and_eq_true_iff.mpr ⟨decide_eq_true hstart, hstop⟩)
  | some s =>
    have hs := List.mem_of_find?_eq_some hfind
    have hholds := List.find?_some hfind
    obtain ⟨hstart, hstop⟩ := Bool.and_eq_true_iff.mp hholds
    refine Option.filter_eq_some_iff.mpr ⟨(Bisection.lastAtMost?_eq_some_iff hinc).mpr ⟨hs, of_decide_eq_true hstart,
      fun y hy hle => UInt32.not_lt.mp fun hlt => ?_⟩, hstop⟩
    -- A later span starts only after this one ends.
    obtain ⟨i, hi, rfl⟩ := List.mem_iff_getElem.mp hs
    obtain ⟨j, hj, rfl⟩ := List.mem_iff_getElem.mp hy
    rcases Nat.lt_trichotomy i j with hij | rfl | hji
    · have hfollows := List.pairwise_iff_getElem.mp h i j hi hj hij
      exact UInt32.not_lt.mpr (UInt32.le_trans hfollows hle) (of_decide_eq_true hstop)
    · exact UInt32.lt_irrefl _ hlt
    · exact UInt32.lt_asymm hlt (List.pairwise_iff_getElem.mp hinc j i hj hi hji)

theorem find?_inlineSpans {p : Procedure} {rs : List InlineRange}
    (h : ∀ e ∈ rangeExtents p.rva.toNat p.length.toNat rs, e.start < 2 ^ 32 ∧ e.stop < 2 ^ 32) (rva : UInt32) :
    (inlineSpans p rs).find? (fun s => s.start ≤ rva && rva < s.stop) =
      ((rangeExtents p.rva.toNat p.length.toNat rs).find? (·.Holds rva)).map Extent.span := by
  rw [inlineSpans_eq h, List.find?_map, ← List.head?_filter, List.filter_filter, ← List.head?_filter]
  refine congrArg (fun es => es.head?.map Extent.span) (List.filter_congr fun e he => Bool.eq_iff_iff.mpr ?_)
  obtain ⟨hstart, hstop⟩ := h e he
  have hspan : e.span.start.toNat = e.start ∧ e.span.stop.toNat = e.stop :=
    ⟨UInt32.toNat_ofNat_of_lt' hstart, UInt32.toNat_ofNat_of_lt' hstop⟩
  simp only [Function.comp_apply, Bool.and_eq_true, decide_eq_true_eq, UInt32.le_iff_toNat_le,
    UInt32.lt_iff_toNat_lt, hspan]
  rw [Extent.Holds]
  omega

theorem source_covering? {t : PathTable} {spans : Array LineSpan} {p : Procedure} {rs : List InlineRange}
    {path? : UInt32 → Option Text} (h : spans.toList.map (·.source t) = (inlineSpans p rs).map (·.source path?))
    (hsorted : rs.Pairwise fun a b => a.offset ≤ b.offset)
    (hapart : Extent.Apart (rangeExtents p.rva.toNat p.length.toNat rs)) (rva : UInt32) :
    (covering? spans rva).map (·.source t) =
      ((rangeExtents p.rva.toNat p.length.toNat rs).find? (·.Holds rva)).map (·.span.source path?) := by
  have hfollows : (inlineSpans p rs).Pairwise fun a b => a.stop ≤ b.start := by
    rw [inlineSpans_eq hapart.inside, List.pairwise_map]
    refine (stop_le_start_of_disjoint hsorted hapart).imp_of_mem fun ha hb hle => ?_
    have hstop := (hapart.inside _ (List.mem_filter.mp ha).1).2
    have hstart := (hapart.inside _ (List.mem_filter.mp hb).1).1
    exact (ofNat_le_ofNat_iff hstop hstart).mpr hle
  have hbounds := bounds_eq h
  rw [covering?_eq_find? (pairwise_of_bounds (R := fun a b => a.2 ≤ b.1) hbounds hfollows)
    (forall_of_bounds hbounds fun r hr => start_lt_stop_of_inlineSpans hr)]
  calc (spans.toList.find? fun s => s.start ≤ rva && rva < s.stop).map (·.source t)
    _ = (spans.toList.map (·.source t)).find? fun s => s.start ≤ rva && rva < s.stop := by
      rw [List.find?_map]
      rfl
    _ = ((inlineSpans p rs).find? fun s => s.start ≤ rva && rva < s.stop).map (·.source path?) := by
      rw [h, List.find?_map]
      rfl
    _ = ((rangeExtents p.rva.toNat p.length.toNat rs).find? (·.Holds rva)).map (·.span.source path?) := by
      rw [find?_inlineSpans hapart.inside, Option.map_map]
      rfl

end FunctionTable

theorem filterMap_eq_of_map_eq {f : α → γ} {g : β → γ} {F : α → Option δ} {G : β → Option δ} {xs : List α}
    {ys : List β} (h : xs.map f = ys.map g) (hFG : ∀ x, ∀ y ∈ ys, f x = g y → F x = G y) :
    xs.filterMap F = ys.filterMap G := by
  induction ys generalizing xs with
  | nil => rw [List.map_eq_nil_iff.mp h, List.filterMap_nil, List.filterMap_nil]
  | cons y ys ih =>
    obtain ⟨x, rest, rfl, hx, hrest⟩ := List.map_eq_cons_iff.mp h
    rw [List.filterMap_cons, List.filterMap_cons, hFG x y List.mem_cons_self hx,
      ih hrest fun x y hy => hFG x y (List.mem_cons_of_mem _ hy)]

namespace FunctionRecord

/-- Where the ranges of a function lie that was inlined into this one, in the order of their offsets. -/
def extents [Sorting] (r : FunctionRecord) (c : InlineCall) : List Extent :=
  rangeExtents r.start.toNat (r.length.getD 0).toNat c.sortedRanges

/-- The inlined functions of which a range holds the address, each with this range. -/
def covering [Sorting] (r : FunctionRecord) (rva : UInt32) : List (InlineCall × InlineRange) :=
  r.calls.filterMap fun c => ((r.extents c).find? (·.Holds rva)).map fun e => (c, e.range)

def siteFrame (db : Database) (r : FunctionRecord) (site : InlineCall × InlineRange) : RecordedFrame :=
  ⟨db.functionNames.nameOf? site.1.inlinee, recordedPath? db.strings r.files site.2.file, some site.2.line⟩

section Sites

variable {db : Database} {t : FunctionTable} {r : FunctionRecord}

theorem frame_of_call [Sorting] {i : InlinedFunction} {c : InlineCall} (hi : i.source t.paths =
      c.source db.functionNames (recordedPath? db.strings r.files) r.procedure)
    (hapart : Extent.Apart (r.extents c)) (rva : UInt32) :
    (FunctionTable.covering? i.spans rva).map
        (fun s => (i.depth, (⟨i.name, t.path? s, some s.line⟩ : RecordedFrame))) =
      ((r.extents c).find? (·.Holds rva)).map fun e => (c.depth, r.siteFrame db (c, e.range)) := by
  have hspan := FunctionTable.source_covering? (congrArg InlineSource.spans hi) (sorted_sortedRanges c) hapart rva
  have hdepth : i.depth = c.depth := congrArg InlineSource.depth hi
  have hname : i.name = db.functionNames.nameOf? c.inlinee := congrArg InlineSource.name hi
  have hframe := congrArg (Option.map fun s : SourceSpan =>
    (i.depth, (⟨i.name, s.path, some s.line⟩ : RecordedFrame))) hspan
  rw [Option.map_map, Option.map_map] at hframe
  refine hframe.trans ?_
  rw [hdepth, hname]
  rfl

theorem inlinedFrames_eq [Sorting] {f : ProgramFunction}
    (hsource : f.source t.paths = r.source db.strings db.functionNames)
    (hapart : ∀ c ∈ r.calls, Extent.Apart (r.extents c)) (rva : UInt32) :
    t.inlinedFrames f rva =
      ((r.covering rva).mergeSort fun a b => b.1.depth ≤ a.1.depth).map (r.siteFrame db) := by
  have hcalls : f.inlined.map (·.source t.paths) =
      r.calls.map (·.source db.functionNames (recordedPath? db.strings r.files) r.procedure) :=
    congrArg FunctionSource.inlined hsource
  -- Both are sorted by depth, so it is enough that they are the same as pairs of a depth and a frame.
  have hpairs : (f.inlined.filterMap fun i => (FunctionTable.covering? i.spans rva).map fun s => (i, s)).map
        (fun x => (x.1.depth, (⟨x.1.name, t.path? x.2, some x.2.line⟩ : RecordedFrame))) =
      (r.covering rva).map fun site => (site.1.depth, r.siteFrame db site) := by
    rw [covering, List.map_filterMap, List.map_filterMap]
    refine filterMap_eq_of_map_eq hcalls fun i c hc hi => ?_
    rw [Option.map_map, Option.map_map]
    exact frame_of_call hi (hapart c hc) rva
  have hframes := map_mergeSort_eq (fun x : InlinedFunction × LineSpan => x.1.depth)
    (fun x => (⟨x.1.name, t.path? x.2, some x.2.line⟩ : RecordedFrame))
    (f.inlined.filterMap fun i => (FunctionTable.covering? i.spans rva).map fun s => (i, s))
  rw [hpairs] at hframes
  exact hframes.trans (map_mergeSort_eq (·.1.depth) (r.siteFrame db) (r.covering rva)).symm

end Sites

/-- What an answer says about the record that it comes from. -/
structure Explains [Sorting] (db : Database) (rva : UInt32) (r : FunctionRecord) (answer : FunctionFrames) : Prop where
  first : (functionRecords db).find? (·.start == r.start) = some r
  nearest : r.start ≤ rva ∧ ∀ q ∈ functionRecords db, q.start ≤ rva → q.start ≤ r.start
  bounds : answer.start = r.start ∧ answer.stop = r.stop
  before_stop : ∀ e, r.stop = some e → rva < e
  before_section_stop : r.stop = none → ∀ s, Section.find? db.addresses.sections r.start = some s →
    rva.toNat < s.address.toNat + s.memorySize.toNat
  /-- Where ranges with one offset lie depends on how they are arranged. -/
  arranged : ∀ c ∈ r.calls, c.sortedRanges.Perm c.ranges ∧ c.sortedRanges.Pairwise fun a b => a.offset ≤ b.offset
  outermost : answer.frames.getLast?.map (·.function) = some (if r.name = [] then none else some r.name)
  inlined : (∀ c ∈ r.calls, Extent.Apart (r.extents c)) →
    ∃ sites, FallingBy (·.1.depth) (r.covering rva) sites ∧ answer.frames.dropLast = sites.map (r.siteFrame db)

end FunctionRecord

namespace FunctionTable

theorem lookupLimit_le {sections : List Section} {start : UInt32} {s : Section}
    (h : Section.find? sections start = some s) (next : Option UInt32) :
    (lookupLimit sections start next).toNat ≤ s.address.toNat + s.memorySize.toNat := by
  unfold lookupLimit
  rw [h]
  cases next with
  | none =>
    dsimp only
    rw [UInt32.toNat_ofNat']
    omega
  | some n =>
    dsimp only
    rw [UInt32.toNat_ofNat']
    omega

theorem explains_of_frames? [Sorting] {db : Database} {rva : UInt32} {answer : FunctionFrames}
    (h : (build db).frames? rva = some answer) : ∃ r, FunctionRecord.Explains db rva r answer := by
  obtain ⟨f, hf, hle, hgreatest, hlt, rfl⟩ := (frames?_eq_some_iff (increasing_build db)).mp h
  obtain ⟨r, hr, hsource⟩ := exists_record hf
  have hstart : f.start = r.start := congrArg FunctionSource.start hsource
  have hstop : f.stop = r.stop := congrArg FunctionSource.stop hsource
  have hname : f.name = r.name := congrArg FunctionSource.name hsource
  refine ⟨r, hr, ⟨hstart ▸ hle, fun q hq hqle => ?_⟩, ⟨hstart, hstop⟩, fun e he => ?_, fun hnone s hs => ?_,
    fun c _ => ⟨Sorting.perm _ _, sorted_sortedRanges c⟩, ?_, fun hapart => ⟨_, fallingBy_mergeSort _ _, ?_⟩⟩
  · obtain ⟨g, hg, hgstart⟩ := exists_function hq
    rw [← hgstart, ← hstart]
    exact hgreatest g hg (hgstart ▸ hqle)
  · rwa [hstop, he] at hlt
  · obtain ⟨k, hk⟩ := List.mem_iff_getElem?.mp hf
    rw [hstop, hnone, Option.getD_none, limit_build hk (hstop.trans hnone), UInt32.lt_iff_toNat_lt] at hlt
    exact Nat.lt_of_lt_of_le hlt (lookupLimit_le (hstart ▸ hs) _)
  · rw [List.getLast?_concat, Option.map_some, ownFrame, hname]
  · rw [List.dropLast_concat]
    exact FunctionRecord.inlinedFrames_eq hsource hapart rva

open scoped Sorting

theorem explains_sampleFile : ∃ db answer r, Database.parse sampleFile = .ok db ∧
    (build db).frames? 0x1026 = some answer ∧ FunctionRecord.Explains db 0x1026 r answer ∧
    (∀ c ∈ r.calls, Extent.Apart (r.extents c)) ∧ (r.covering 0x1026).length = 2 := by
  obtain ⟨c, hc, hs⟩ := exists_sampleContainer
  have hframes := frames?_sampleTable
  rw [← build_sampleDatabase hs] at hframes
  obtain ⟨r, hr⟩ := explains_of_frames? hframes
  have hpublic : publicRecords (sampleDatabase c) = [] := PublicFunction.list_empty _
  have hrecords : functionRecords (sampleDatabase c) = FunctionRecord.ofModule sampleModuleRecords := by
    rw [functionRecords, show (sampleDatabase c).modules = some sampleModules from rfl, hpublic]
    dsimp only
    rw [moduleRecords_sampleDatabase hs]
    rfl
  have hfirst := hr.first
  rw [← hr.bounds.1, hrecords] at hfirst
  have hrecord : r = ⟨0x1010, some 0x40, "f", sampleModuleRecords.calls.take 2, sampleModuleRecords.files⟩ :=
    Option.some.inj (hfirst.symm.trans rfl)
  have hextents : r.calls.map r.extents =
      [[⟨⟨0x10, some 0x10, 20, 8⟩, 0x1020, 0x1030⟩, ⟨⟨0x28, some 8, 20, 8⟩, 0x1038, 0x1040⟩],
        [⟨⟨0x14, some 4, 30, 0⟩, 0x1024, 0x1028⟩]] := by
    rw [hrecord]
    simp only [sampleModuleRecords, List.take_succ_cons, List.take_zero, List.map_cons, List.map_nil,
      FunctionRecord.extents, InlineCall.sortedRanges, sort_sampleRanges, Sorting.sort_singleton]
    rfl
  refine ⟨sampleDatabase c, _, r, parse_sampleFile hc hs, hframes, hr, fun call hcall => ?_, ?_⟩
  · have hmem := List.mem_map_of_mem (f := r.extents) hcall
    rw [hextents, List.mem_cons, List.mem_singleton] at hmem
    rcases hmem with h | h
    · rw [h]
      exact Extent.apart_of_follow (by decide) (by decide)
    · rw [h]
      exact Extent.apart_of_follow (by decide) (by decide)
  · rw [hrecord, FunctionRecord.covering]
    simp only [sampleModuleRecords, List.take_succ_cons, List.take_zero, List.filterMap_cons, List.filterMap_nil,
      FunctionRecord.extents, InlineCall.sortedRanges, sort_sampleRanges, Sorting.sort_singleton]
    rfl

end FunctionTable

end CodeAtlas.Database
