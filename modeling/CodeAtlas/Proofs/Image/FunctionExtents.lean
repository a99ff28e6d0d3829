import CodeAtlas.Image.Unwind
import CodeAtlas.Proofs.Bytes.Reading
import Mathlib.Data.List.SplitBy

namespace CodeAtlas

variable {α β γ : Type}

/-- A list cut into runs: the key does not change inside a run, and it does at each cut. -/
structure IsRuns (key : α → β) (xs : List α) (runs : List (List α)) : Prop where
  flatten_eq : runs.flatten = xs
  nil_notMem : [] ∉ runs
  same : ∀ run ∈ runs, ∀ a ∈ run, ∀ b ∈ run, key a = key b
  cut : runs.IsChain fun run next => ∀ a ∈ run.getLast?, ∀ b ∈ next.head?, key a ≠ key b

theorem isChain_key_iff {key : α → β} {run : List α} :
    (run.IsChain fun a b => key a = key b) ↔ ∀ a ∈ run, ∀ b ∈ run, key a = key b := by
  have htrans : IsTrans α fun a b => key a = key b := ⟨fun _ _ _ hab hbc => hab.trans hbc⟩
  have hsymm : Std.Symm fun a b => key a = key b := ⟨fun _ _ => Eq.symm⟩
  rw [List.isChain_iff_pairwise]
  constructor
  · intro h
    exact h.forall_of_forall fun _ _ => rfl
  · exact List.pairwise_of_forall_mem_list

theorem ends_ne_iff [DecidableEq β] {key : α → β} {run next : List α} (hrun : run ≠ []) (hnext : next ≠ []) :
    (∃ ha hb, (key (run.getLast ha) == key (next.head hb)) = false) ↔
      ∀ a ∈ run.getLast?, ∀ b ∈ next.head?, key a ≠ key b := by
  simp only [List.getLast?_eq_some_getLast hrun, List.head?_eq_some_head hnext, Option.mem_some_iff, forall_eq',
    beq_eq_false_iff_ne]
  exact ⟨fun ⟨_, _, h⟩ => h, fun h => ⟨hrun, hnext, h⟩⟩

/-- There is only one way to cut a list into runs. -/
theorem isRuns_iff [DecidableEq β] {key : α → β} {xs : List α} {runs : List (List α)} :
    IsRuns key xs runs ↔ xs.splitBy (fun a b => key a == key b) = runs := by
  rw [List.splitBy_eq_iff]
  simp only [beq_iff_eq, isChain_key_iff]
  have hne : [] ∉ runs → ∀ run ∈ runs, run ≠ [] := fun h run hrun hnil => h (hnil ▸ hrun)
  constructor
  · rintro ⟨hflatten, hnil, hsame, hcut⟩
    refine ⟨hflatten.symm, hnil, hsame, (List.IsChain.iff_of_mem_imp fun run next hrun hnext => ?_).mpr hcut⟩
    exact ends_ne_iff (hne hnil run hrun) (hne hnil next hnext)
  · rintro ⟨hflatten, hnil, hsame, hcut⟩
    refine ⟨hflatten.symm, hnil, hsame, (List.IsChain.iff_of_mem_imp fun run next hrun hnext => ?_).mp hcut⟩
    exact ends_ne_iff (hne hnil run hrun) (hne hnil next hnext)

theorem IsRuns.map {f : α → γ} {key : γ → β} {xs : List α} {runs : List (List α)}
    (h : IsRuns (fun a => key (f a)) xs runs) : IsRuns key (xs.map f) (runs.map (List.map f)) where
  flatten_eq := by rw [← List.map_flatten, h.flatten_eq]
  nil_notMem := by
    intro hnil
    obtain ⟨run, hrun, hempty⟩ := List.mem_map.mp hnil
    exact h.nil_notMem (List.map_eq_nil_iff.mp hempty ▸ hrun)
  same := by
    intro image himage y hy z hz
    obtain ⟨run, hrun, rfl⟩ := List.mem_map.mp himage
    obtain ⟨a, ha, rfl⟩ := List.mem_map.mp hy
    obtain ⟨b, hb, rfl⟩ := List.mem_map.mp hz
    exact h.same run hrun a ha b hb
  cut := by
    refine List.isChain_map_of_isChain _ (fun run next hends => ?_) h.cut
    intro y hy z hz
    rw [List.getLast?_map] at hy
    rw [List.head?_map] at hz
    obtain ⟨a, ha, rfl⟩ := Option.map_eq_some_iff.mp hy
    obtain ⟨b, hb, rfl⟩ := Option.map_eq_some_iff.mp hz
    exact hends a ha b hb

theorem IsRuns.splitBy_keyed [DecidableEq β] {key : α → β} {xs : List α} {runs : List (List α)}
    (h : IsRuns key xs runs) :
    (xs.map fun x => (x, key x)).splitBy (fun a b => a.2 == b.2) = runs.map (List.map fun x => (x, key x)) := by
  have hpairs : IsRuns Prod.snd (xs.map fun x => (x, key x)) (runs.map (List.map fun x => (x, key x))) :=
    IsRuns.map (f := fun x => (x, key x)) h
  exact isRuns_iff.mp hpairs

namespace UnwindRecord

/-- A record as the exception table stores it. -/
def bytes (r : UnwindRecord) : List UInt8 :=
  leBytes 4 r.start.toNat ++ (leBytes 4 r.stop.toNat ++ (leBytes 4 r.info.toNat ++ []))

theorem length_bytes (r : UnwindRecord) : r.bytes.length = entrySize := by
  simp only [bytes, List.length_append, length_leBytes, List.length_nil, entrySize]

theorem reads_bytes (r : UnwindRecord) : Reader.Reads read r.bytes r :=
  (Reader.reads_u32 r.start).bind
    ((Reader.reads_u32 r.stop).bind ((Reader.reads_u32 r.info).bind (Reader.reads_pure r)))

theorem exists_bytes_eq {piece : List UInt8} (h : piece.length = entrySize) : ∃ r : UnwindRecord, r.bytes = piece := by
  obtain ⟨words, hcount, hwords⟩ := @exists_words32 3 piece h
  match words, hcount with
  | [start, stop, info], _ => exact ⟨⟨start, stop, info⟩, hwords⟩

theorem length_flatMap_bytes (rs : List UnwindRecord) : (rs.flatMap bytes).length = rs.length * entrySize :=
  length_flatMap_of_length length_bytes rs

theorem table_bytes (rs : List UnwindRecord) : table (rs.flatMap bytes).toArray = rs := by
  have hcount : (rs.flatMap bytes).toArray.size / entrySize = rs.length := by
    rw [List.size_toArray, length_flatMap_bytes]
    exact Nat.mul_div_cancel _ (by decide)
  have hreads : Reader.Reads (Reader.times rs.length read) (rs.flatMap bytes) rs :=
    Reader.Reads.times fun r _ => reads_bytes r
  rw [table, hcount, hreads (.ofBytes _) [] (by rw [Cursor.remaining_ofBytes, List.append_nil])]

/-- A table of whole records says what the records are. -/
theorem exists_records {data : Bytes} (h : data.size % entrySize = 0) :
    ∃ rs : List UnwindRecord, data = (rs.flatMap bytes).toArray := by
  have hsize : data.toList.length = data.size / entrySize * entrySize := by
    rw [Array.length_toList]
    exact (Nat.div_mul_cancel (Nat.dvd_of_mod_eq_zero h)).symm
  obtain ⟨rs, -, hrs⟩ := exists_flatMap (fun _ hpiece => exists_bytes_eq hpiece) hsize
  exact ⟨rs, by rw [hrs, Array.toArray_toList]⟩

/-- The code that the parts of a function cover, from the start of the first to the end of the last. -/
def Spans (run : List UnwindRecord) (e : Extent) : Prop :=
  ∃ first last, run.head? = some first ∧ run.getLast? = some last ∧ e = ⟨first.start, last.stop⟩

theorem extent_eq_some_iff {run : List UnwindRecord} {e : Extent} : extent run = some e ↔ Spans run e := by
  unfold extent Spans
  cases run.head? <;> cases run.getLast? <;> simp [eq_comm]

theorem exists_spans {run : List UnwindRecord} (h : run ≠ []) : ∃ e, Spans run e :=
  ⟨_, run.head h, run.getLast h, List.head?_eq_some_head h, List.getLast?_eq_some_getLast h, rfl⟩

/-- What one pass over the table keeps: the key of the record before and the extents so far, latest first. -/
structure Pass where
  key : Option UInt32
  extents : List Extent

/-- A record of the function that was met last moves its end; any other record starts a new one. -/
def Pass.step (key : UnwindRecord → UInt32) (s : Pass) (r : UnwindRecord) : Pass :=
  if s.key = some (key r) then { s with extents := s.extents.modifyHead fun e => ⟨e.start, r.stop⟩ }
  else ⟨some (key r), ⟨r.start, r.stop⟩ :: s.extents⟩

section Pass

variable {key : UnwindRecord → UInt32} {k : UInt32} {rs : List UnwindRecord} {runs : List (List UnwindRecord)}

/-- More records of one function only move its end. -/
theorem foldl_step_same (hkey : ∀ r ∈ rs, key r = k) (e : Extent) (es : List Extent) :
    rs.foldl (Pass.step key) ⟨some k, e :: es⟩ =
      ⟨some k, ⟨e.start, (rs.getLast?.map (·.stop)).getD e.stop⟩ :: es⟩ := by
  induction rs generalizing e with
  | nil => rfl
  | cons r rs ih =>
    obtain ⟨hr, hrs⟩ := List.forall_mem_cons.mp hkey
    have hstep : Pass.step key ⟨some k, e :: es⟩ r = ⟨some k, ⟨e.start, r.stop⟩ :: es⟩ := by
      rw [Pass.step, if_pos (by rw [hr])]
      rfl
    rw [List.foldl_cons, hstep, ih hrs, List.getLast?_cons]
    cases rs.getLast? <;> rfl

theorem foldl_step_run {run : List UnwindRecord} {e : Extent} {s : Pass} (he : extent run = some e)
    (hsame : ∀ a ∈ run, ∀ b ∈ run, key a = key b) (hnew : ∀ r ∈ run.head?, s.key ≠ some (key r)) :
    run.foldl (Pass.step key) s = ⟨run.getLast?.map key, e :: s.extents⟩ := by
  cases run with
  | nil => cases he
  | cons r run =>
    have hstep : Pass.step key s r = ⟨some (key r), ⟨r.start, r.stop⟩ :: s.extents⟩ := if_neg (hnew r rfl)
    have hkey : ∀ q ∈ run, key q = key r := fun q hq => hsame q (List.mem_cons_of_mem r hq) r List.mem_cons_self
    obtain ⟨first, last, hfirst, hlast, rfl⟩ := extent_eq_some_iff.mp he
    cases hfirst
    have hlastKey : key last = key r := hsame last (List.mem_of_getLast? hlast) r List.mem_cons_self
    rw [List.getLast?_cons] at hlast
    rw [List.foldl_cons, hstep, foldl_step_same hkey, List.getLast?_cons, hlast, Option.map_some, hlastKey]
    cases hrest : run.getLast? with
    | none =>
      rw [hrest] at hlast
      cases hlast
      rfl
    | some q =>
      rw [hrest] at hlast
      cases hlast
      rfl

/-- One pass over the table finds the extents of the runs. -/
theorem foldl_step_runs (h : IsRuns key rs runs) {s : Pass} (hnew : ∀ r ∈ rs.head?, s.key ≠ some (key r)) :
    (rs.foldl (Pass.step key) s).extents = (runs.filterMap extent).reverse ++ s.extents := by
  obtain ⟨rfl, hnil, hsame, hcut⟩ := h
  induction runs generalizing s with
  | nil => rfl
  | cons run runs ih =>
    obtain ⟨hrun, hruns⟩ := List.forall_mem_cons.mp hsame
    rw [List.mem_cons, not_or] at hnil
    have hne : run ≠ [] := fun h => hnil.1 h.symm
    obtain ⟨e, he⟩ := exists_spans hne
    rw [← extent_eq_some_iff] at he
    have hhead : (run ++ runs.flatten).head? = run.head? := List.head?_append_of_ne_nil _ hne
    rw [List.flatten_cons, hhead] at hnew
    have hnext : ∀ r ∈ runs.flatten.head?, run.getLast?.map key ≠ some (key r) := by
      cases runs with
      | nil =>
        intro r hr
        cases hr
      | cons next rest =>
        intro r hr hkey
        have hnext : next ≠ [] := fun h => hnil.2 (h ▸ List.mem_cons_self)
        rw [List.flatten_cons, List.head?_append_of_ne_nil _ hnext] at hr
        obtain ⟨a, ha, heq⟩ := Option.map_eq_some_iff.mp hkey
        exact hcut.rel_head? rfl a ha r hr heq
    rw [List.flatten_cons, List.foldl_append, foldl_step_run he hrun hnew, ih hnil.2 hruns hcut.tail hnext,
      List.filterMap_cons_some he, List.reverse_cons, List.append_assoc]
    rfl

end Pass

variable {info? : UInt32 → Option Bytes} {rs : List UnwindRecord} {runs : List (List UnwindRecord)}

theorem extents_of_runs (h : IsRuns (fun r => (canonical info? r).start) rs runs) :
    extents info? (rs.flatMap bytes).toArray = .ok (runs.filterMap extent) := by
  have hwhole : ¬(rs.flatMap bytes).toArray.size % entrySize ≠ 0 := by
    rw [List.size_toArray, length_flatMap_bytes, Nat.mul_mod_left]
    exact not_not_intro rfl
  have hrecords : ∀ run : List UnwindRecord, (run.map fun r => (r, (canonical info? r).start)).map (·.1) = run := by
    intro run
    rw [List.map_map]
    exact List.map_id run
  rw [extents, if_neg hwhole, table_bytes]
  dsimp only
  rw [h.splitBy_keyed, List.filterMap_map]
  refine congrArg _ (List.filterMap_congr fun run _ => ?_)
  exact congrArg extent (hrecords run)

theorem getElem?_filterMap_extent (hnil : [] ∉ runs) (i : Nat) :
    (runs.filterMap extent)[i]? = runs[i]?.bind extent := by
  induction runs generalizing i with
  | nil => rfl
  | cons run runs ih =>
    rw [List.mem_cons, not_or] at hnil
    obtain ⟨e, he⟩ := exists_spans fun h : run = [] => hnil.1 h.symm
    rw [List.filterMap_cons_some (extent_eq_some_iff.mpr he)]
    cases i with
    | zero => exact (extent_eq_some_iff.mpr he).symm
    | succ i => exact ih hnil.2 i

theorem length_filterMap_extent (hnil : [] ∉ runs) : (runs.filterMap extent).length = runs.length := by
  rw [List.length_filterMap_eq_countP, List.countP_eq_length]
  intro run hrun
  obtain ⟨e, he⟩ := exists_spans fun h : run = [] => hnil (h ▸ hrun)
  rw [extent_eq_some_iff.mpr he]
  rfl

theorem extents_eq_error_iff {data : Bytes} {failure : Failure} :
    extents info? data = .error failure ↔ data.size % entrySize ≠ 0 ∧ failure = .unevenExceptionTable data.size := by
  unfold extents
  split
  next h => simp only [Except.error.injEq, eq_comm, h, not_false_eq_true, true_and, ne_eq]
  next h => simp only [reduceCtorEq, h, false_and]

/-- The extents of an exception table are those of the runs of records whose chains end in one function, and a table
that is no whole number of records has none. -/
structure CoversRuns (info? : UInt32 → Option Bytes) (data : Bytes) : Prop where
  failure_iff : ∀ failure, extents info? data = .error failure ↔
    data.size % 12 ≠ 0 ∧ failure = .unevenExceptionTable data.size
  invalidInput : ∀ failure, extents info? data = .error failure → failure.kind = .invalidInput
  records : data.size % 12 = 0 → ((table data).flatMap bytes).toArray = data
  merged : data.size % 12 = 0 → ∃ es : List Extent, extents info? data = .ok es ∧
    (∃ runs, IsRuns (fun r => (canonical info? r).start) (table data) runs) ∧
    ∀ runs : List (List UnwindRecord), IsRuns (fun r => (canonical info? r).start) (table data) runs →
      es.length = runs.length ∧ ∀ (i : Nat) (run : List UnwindRecord), runs[i]? = some run →
        ∃ e, es[i]? = some e ∧ Spans run e
  onePass : data.size % 12 = 0 → extents info? data =
    .ok ((table data).foldl (Pass.step fun r => (canonical info? r).start) ⟨none, []⟩).extents.reverse

theorem coversRuns_extents (info? : UInt32 → Option Bytes) (data : Bytes) : CoversRuns info? data := by
  have hruns : IsRuns (fun r => (canonical info? r).start) (table data) _ := isRuns_iff.mpr rfl
  refine ⟨fun failure => extents_eq_error_iff, ?_, ?_, ?_, ?_⟩
  · intro failure h
    rw [(extents_eq_error_iff.mp h).2]
    rfl
  · intro h
    obtain ⟨rs, rfl⟩ := exists_records h
    rw [table_bytes]
  · intro h
    obtain ⟨rs, rfl⟩ := exists_records h
    rw [table_bytes] at hruns ⊢
    refine ⟨_, extents_of_runs hruns, ⟨_, hruns⟩, fun runs h' => ?_⟩
    rw [isRuns_iff.mp h']
    refine ⟨length_filterMap_extent h'.nil_notMem, fun i run hrun => ?_⟩
    have hne : run ≠ [] := fun h => h'.nil_notMem (h ▸ List.mem_of_getElem? hrun)
    obtain ⟨e, he⟩ := exists_spans hne
    refine ⟨e, ?_, he⟩
    rw [getElem?_filterMap_extent h'.nil_notMem, hrun]
    exact extent_eq_some_iff.mpr he
  · intro h
    obtain ⟨rs, rfl⟩ := exists_records h
    rw [table_bytes] at hruns ⊢
    have hstart : ∀ r ∈ rs.head?, (⟨none, []⟩ : Pass).key ≠ some (canonical info? r).start := by
      intro r _ hkey
      cases hkey
    rw [extents_of_runs hruns, foldl_step_runs hruns hstart, List.append_nil, List.reverse_reverse]

end UnwindRecord

end CodeAtlas
