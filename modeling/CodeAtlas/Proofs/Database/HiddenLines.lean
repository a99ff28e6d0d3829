import CodeAtlas.Lookup.Sorting.Partition
import CodeAtlas.Proofs.Database.FunctionRecords
import CodeAtlas.Proofs.Database.LineBlocks
import CodeAtlas.Proofs.Lookup.LastGreatest
import Mathlib.Data.List.Nodup

namespace CodeAtlas.Database

/-- A line of a block with the place where it ends in its contribution. -/
structure LineEntry where
  offset : UInt32
  stop : UInt32
  line : UInt32
  file : UInt32
deriving DecidableEq

namespace LineEntry

def isHidden (e : LineEntry) : Bool := isHiddenLine e.line

/-- The code of the line where its contribution lies at `start`. -/
def record (start : UInt32) (e : LineEntry) : LineRecord := ⟨start + e.offset, start + e.stop, e.line, e.file⟩

/-- The entry is the last one up to `k`. -/
structure IsNearest (es : List LineEntry) (k : UInt32) (e : LineEntry) : Prop where
  mem : e ∈ es
  le : e.offset ≤ k
  le_offset : ∀ e' ∈ es, e'.offset ≤ k → e'.offset ≤ e.offset

end LineEntry

/-- The lines of a block with the places where they end. -/
def lineEntries (c : Contribution) (file : UInt32) : List LineStart → List LineEntry
  | [] => []
  | l :: ls => ⟨l.offset, lineStop c ls, l.line, file⟩ :: lineEntries c file ls

variable {c : Contribution} {file : UInt32} {ls : List LineStart}

theorem map_offset_lineEntries (c : Contribution) (file : UInt32) (ls : List LineStart) :
    (lineEntries c file ls).map (·.offset) = ls.map (·.offset) := by
  induction ls with
  | nil => rfl
  | cons l ls ih => rw [lineEntries, List.map_cons, List.map_cons, ih]

/-- A line ends where the next one starts. -/
theorem head?_lineEntries {e : LineEntry} (h : (lineEntries c file ls).head? = some e) : lineStop c ls = e.offset := by
  cases ls with
  | nil => cases h
  | cons l ls =>
    cases h
    rfl

theorem stop_lineEntries {e : LineEntry} (h : e ∈ lineEntries c file ls) :
    e.stop = c.size ∨ ∃ e' ∈ lineEntries c file ls, e'.offset = e.stop := by
  induction ls with
  | nil => cases h
  | cons l ls ih =>
    rw [lineEntries] at h ⊢
    rcases List.mem_cons.mp h with rfl | h
    · cases ls with
      | nil => exact .inl rfl
      | cons next ls => exact .inr ⟨_, List.mem_cons_of_mem _ List.mem_cons_self, rfl⟩
    · exact (ih h).imp_right fun ⟨e', he', heq⟩ => ⟨e', List.mem_cons_of_mem _ he', heq⟩

theorem pairwise_offset_lineEntries (c : Contribution) (file : UInt32)
    (hinc : ls.Pairwise fun a b => a.offset < b.offset) :
    (lineEntries c file ls).Pairwise fun a b => a.offset < b.offset := by
  have hkeys : (ls.map (·.offset)).Pairwise (· < ·) := List.pairwise_map.mpr hinc
  rw [← map_offset_lineEntries c file] at hkeys
  exact List.pairwise_map.mp hkeys

/-- In one block, a line ends before or where any later one starts. -/
theorem pairwise_stop_lineEntries (c : Contribution) (file : UInt32)
    (hinc : ls.Pairwise fun a b => a.offset < b.offset) :
    (lineEntries c file ls).Pairwise fun a b => a.stop ≤ b.offset := by
  induction ls with
  | nil => exact .nil
  | cons l ls ih =>
    have hinc' := List.pairwise_cons.mp hinc
    rw [lineEntries]
    refine List.pairwise_cons.mpr ⟨fun e he => ?_, ih hinc'.2⟩
    have hrest := pairwise_offset_lineEntries c file hinc'.2
    cases hentries : lineEntries c file ls with
    | nil =>
      rw [hentries] at he
      cases he
    | cons next es =>
      rw [hentries] at he hrest
      rw [head?_lineEntries (by rw [hentries, List.head?_cons])]
      rcases List.mem_cons.mp he with rfl | he
      · exact UInt32.le_refl _
      · exact UInt32.le_of_lt ((List.pairwise_cons.mp hrest).1 e he)

theorem offset_lt_lineStop {l : LineStart} (hinc : (l :: ls).Pairwise fun a b => a.offset < b.offset)
    (hbelow : l.offset < c.size) : l.offset < lineStop c ls := by
  cases ls with
  | nil => exact hbelow
  | cons next ls => exact (List.pairwise_cons.mp hinc).1 next List.mem_cons_self

theorem offset_lt_stop {e : LineEntry} (hinc : ls.Pairwise fun a b => a.offset < b.offset)
    (hbelow : ∀ l ∈ ls, l.offset < c.size) (h : e ∈ lineEntries c file ls) : e.offset < e.stop := by
  induction ls with
  | nil => cases h
  | cons l ls ih =>
    have hbelow' := List.forall_mem_cons.mp hbelow
    rcases List.mem_cons.mp h with rfl | h
    · exact offset_lt_lineStop hinc hbelow'.1
    · exact ih (List.pairwise_cons.mp hinc).2 hbelow'.2 h

/-- A contribution and the code that it is about, which lies at `start` and does not wrap. -/
structure LiesAt (m : AddressMap) (c : Contribution) (start : UInt32) : Prop where
  rva? : ∀ offset, offset < c.size → m.rva? c.sectionNumber (c.offset + offset) = some (start + offset)
  ends : start.toNat + c.size.toNat ≤ 2 ^ 32

/-- Where nothing was moved, a contribution lies at its offset in its section. -/
theorem liesAt_of_unmoved {m : AddressMap} {s : Section} (hmoves : m.moves.isEmpty) (hnumber : c.sectionNumber ≠ 0)
    (hsection : m.sections[c.sectionNumber.toNat - 1]? = some s)
    (hends : (s.address + c.offset).toNat + c.size.toNat ≤ 2 ^ 32) : LiesAt m c (s.address + c.offset) where
  rva? offset _ := by
    rw [AddressMap.rva?, if_neg hnumber, hsection, Option.bind_some, AddressMap.moved?, if_pos hmoves,
      UInt32.add_assoc]
  ends := hends

theorem blockRecords_eq_map {m : AddressMap} {start : UInt32} (hlies : LiesAt m c start)
    (hinc : ls.Pairwise fun a b => a.offset < b.offset) (hbelow : ∀ l ∈ ls, l.offset < c.size) :
    blockRecords m c file ls = ((lineEntries c file ls).filter (!·.isHidden)).map (·.record start) := by
  induction ls with
  | nil => rfl
  | cons l ls ih =>
    have hbelow' := List.forall_mem_cons.mp hbelow
    have hrest := ih (List.pairwise_cons.mp hinc).2 hbelow'.2
    have hlt := offset_lt_lineStop hinc hbelow'.1
    rw [blockRecords_cons, lineEntries]
    by_cases hhidden : isHiddenLine l.line = true
    · rw [if_pos (.inl hhidden), hrest, List.filter_cons_of_neg (by simp [LineEntry.isHidden, hhidden])]
    · have hstop : start + l.offset + (lineStop c ls - l.offset) = start + lineStop c ls := by
        rw [UInt32.add_assoc, UInt32.add_comm l.offset, UInt32.sub_add_cancel]
      rw [if_neg (not_or.mpr ⟨hhidden, UInt32.not_le.mpr hlt⟩), hlies.rva? l.offset hbelow'.1]
      dsimp only
      rw [hrest, hstop, List.filter_cons_of_pos (by simp [LineEntry.isHidden, hhidden]), List.map_cons]
      rfl

def LineBlock.entries (c : Contribution) (b : LineBlock) : List LineEntry := lineEntries c b.file b.lines

/-- The lines of all blocks of a contribution, block by block. -/
def allEntries (c : Contribution) (bs : List LineBlock) : List LineEntry := bs.flatMap (·.entries c)

/-- The lines that are not hidden. -/
def visibleEntries (c : Contribution) (bs : List LineBlock) : List LineEntry := (allEntries c bs).filter (!·.isHidden)

/-- The lines of each block start one after the other, no two of all lines at one place and none behind the code that
they are about. -/
structure WellOrdered (c : Contribution) (bs : List LineBlock) : Prop where
  increasing : ∀ b ∈ bs, b.lines.Pairwise fun x y => x.offset < y.offset
  distinct : ((bs.flatMap (·.lines)).map (·.offset)).Nodup
  below : ∀ b ∈ bs, ∀ l ∈ b.lines, l.offset < c.size

namespace WellOrdered

variable {bs : List LineBlock} {e : LineEntry}

theorem distinct_allEntries (h : WellOrdered c bs) : ((allEntries c bs).map (·.offset)).Nodup := by
  have hdistinct := h.distinct
  rw [List.map_flatMap] at hdistinct
  rw [allEntries, List.map_flatMap]
  simpa only [LineBlock.entries, map_offset_lineEntries] using hdistinct

theorem offset_lt_size (h : WellOrdered c bs) (he : e ∈ allEntries c bs) : e.offset < c.size := by
  obtain ⟨b, hb, he⟩ := List.mem_flatMap.mp he
  have hoffset := List.mem_map_of_mem (f := LineEntry.offset) he
  rw [LineBlock.entries, map_offset_lineEntries] at hoffset
  obtain ⟨l, hl, heq⟩ := List.mem_map.mp hoffset
  rw [← heq]
  exact h.below b hb l hl

theorem lt_stop {k : UInt32} (h : WellOrdered c bs) (hk : k < c.size) (hnear : e.IsNearest (allEntries c bs) k) :
    k < e.stop := by
  obtain ⟨b, hb, he⟩ := List.mem_flatMap.mp hnear.mem
  rcases stop_lineEntries he with hstop | ⟨next, hnext, hstop⟩
  · rw [hstop]
    exact hk
  · refine UInt32.not_le.mp fun hle => ?_
    have hle' := hnear.le_offset next (List.mem_flatMap.mpr ⟨b, hb, hnext⟩) (hstop ▸ hle)
    rw [hstop] at hle'
    exact UInt32.not_lt.mpr hle' (offset_lt_stop (h.increasing b hb) (h.below b hb) he)

theorem stop_le_size (h : WellOrdered c bs) (he : e ∈ allEntries c bs) : e.stop ≤ c.size := by
  obtain ⟨b, hb, he⟩ := List.mem_flatMap.mp he
  rcases stop_lineEntries he with hstop | ⟨next, hnext, hstop⟩
  · exact UInt32.le_of_eq hstop
  · rw [← hstop]
    exact UInt32.le_of_lt (h.offset_lt_size (List.mem_flatMap.mpr ⟨b, hb, hnext⟩))

theorem eq_of_offset_eq (h : WellOrdered c bs) {e' : LineEntry} (he : e ∈ allEntries c bs) (he' : e' ∈ allEntries c bs)
    (heq : e.offset = e'.offset) : e = e' := List.inj_on_of_nodup_map h.distinct_allEntries he he' heq

theorem isNearest_unique (h : WellOrdered c bs) {k : UInt32} {e' : LineEntry} (he : e.IsNearest (visibleEntries c bs) k)
    (he' : e'.IsNearest (visibleEntries c bs) k) : e = e' :=
  h.eq_of_offset_eq (List.mem_filter.mp he.mem).1 (List.mem_filter.mp he'.mem).1
    (UInt32.le_antisymm (he'.le_offset e he.mem he.le) (he.le_offset e' he'.mem he'.le))

/-- A line ends before a later one of its block, so that it does not reach it. -/
theorem stop_le_of_same_block {b : LineBlock} {e' : LineEntry} (h : WellOrdered c bs) (hb : b ∈ bs)
    (he : e ∈ b.entries c) (he' : e' ∈ b.entries c) (hlt : e.offset < e'.offset) : e.stop ≤ e'.offset := by
  have hoffsets := pairwise_offset_lineEntries c b.file (h.increasing b hb)
  have hstops := pairwise_stop_lineEntries c b.file (h.increasing b hb)
  obtain ⟨i, hi, rfl⟩ := List.mem_iff_getElem.mp he
  obtain ⟨j, hj, rfl⟩ := List.mem_iff_getElem.mp he'
  rcases Nat.lt_trichotomy i j with hij | rfl | hji
  · exact List.pairwise_iff_getElem.mp hstops i j hi hj hij
  · exact absurd hlt (UInt32.lt_irrefl _)
  · exact absurd hlt (UInt32.lt_asymm (List.pairwise_iff_getElem.mp hoffsets j i hj hi hji))

theorem lineRecords_eq {m : AddressMap} {start : UInt32} {body : Bytes} (hc : Contribution.parse? body = some c)
    (hlies : LiesAt m c start) (h : WellOrdered c (LineBlock.list c.hasColumns body Contribution.headSize)) :
    lineRecords m body =
      (visibleEntries c (LineBlock.list c.hasColumns body Contribution.headSize)).map (·.record start) := by
  rw [lineRecords, hc]
  dsimp only
  rw [blocks_eq_flatMap, visibleEntries, allEntries, List.filter_flatMap, List.map_flatMap]
  refine List.flatMap_congr fun b hb => ?_
  exact blockRecords_eq_map hlies (h.increasing b hb) (h.below b hb)

end WellOrdered

namespace LiesAt

variable {m : AddressMap} {start k l : UInt32} {bs : List LineBlock}

theorem toNat_add (h : LiesAt m c start) (hk : k < c.size) : (start + k).toNat = start.toNat + k.toNat := by
  have hends := h.ends
  have hlt := UInt32.lt_iff_toNat_lt.mp hk
  rw [UInt32.toNat_add, Nat.mod_eq_of_lt (by omega)]

theorem add_le_add_iff (h : LiesAt m c start) (hk : k < c.size) (hl : l < c.size) : start + k ≤ start + l ↔ k ≤ l := by
  rw [UInt32.le_iff_toNat_le, UInt32.le_iff_toNat_le, h.toNat_add hk, h.toNat_add hl]
  omega

theorem record_le_record_iff (h : LiesAt m c start) (hwell : WellOrdered c bs) {e e' : LineEntry}
    (he : e ∈ visibleEntries c bs) (he' : e' ∈ visibleEntries c bs) :
    (e.record start).start ≤ (e'.record start).start ↔ e.offset ≤ e'.offset :=
  h.add_le_add_iff (hwell.offset_lt_size (List.mem_filter.mp he).1) (hwell.offset_lt_size (List.mem_filter.mp he').1)

/-- No two lines that are not hidden start at one address. -/
theorem filter_record (h : LiesAt m c start) (hwell : WellOrdered c bs) {e : LineEntry} (he : e ∈ visibleEntries c bs) :
    ((visibleEntries c bs).map (·.record start)).filter (·.start == start + e.offset) = [e.record start] := by
  have hnodup : (visibleEntries c bs).Nodup := (hwell.distinct_allEntries.of_map _).filter _
  have hself : (visibleEntries c bs).filter ((·.start == start + e.offset) ∘ (·.record start)) =
      (visibleEntries c bs).filter (· == e) := by
    refine List.filter_congr fun e' he' => Bool.eq_iff_iff.mpr ?_
    rw [Function.comp_apply, beq_iff_eq, beq_iff_eq]
    refine ⟨fun heq => ?_, fun heq => heq ▸ rfl⟩
    refine hwell.eq_of_offset_eq (List.mem_filter.mp he').1 (List.mem_filter.mp he).1 (UInt32.le_antisymm ?_ ?_)
    · exact (h.record_le_record_iff hwell he' he).mp (UInt32.le_of_eq heq)
    · exact (h.record_le_record_iff hwell he he').mp (UInt32.le_of_eq heq.symm)
  rw [List.filter_map, hself, List.filter_beq, List.count_eq_one_of_mem hnodup he]
  rfl

/-- Where the contribution ends inside the address space, the nearest line reaches the address. -/
theorem lt_add_stop (h : LiesAt m c start) (hwell : WellOrdered c bs) (hk : k < c.size)
    (hends : start.toNat + c.size.toNat < 2 ^ 32) {e : LineEntry} (hnear : e.IsNearest (allEntries c bs) k) :
    start + k < start + e.stop := by
  have hstop := UInt32.lt_iff_toNat_lt.mp (hwell.lt_stop hk hnear)
  have hsize := UInt32.le_iff_toNat_le.mp (hwell.stop_le_size hnear.mem)
  rw [UInt32.lt_iff_toNat_lt, h.toNat_add hk, UInt32.toNat_add, Nat.mod_eq_of_lt (by omega)]
  omega

/-- Where no other line starts with one, that one is the last that starts there. -/
theorem getLast?_filter_record (h : LiesAt m c start) (hwell : WellOrdered c bs) {others lines : List LineRecord}
    (hperm : lines.Perm ((visibleEntries c bs).map (·.record start) ++ others)) {e : LineEntry}
    (he : e ∈ visibleEntries c bs) (hothers : ∀ r ∈ others, r.start ≠ start + e.offset) :
    (lines.filter (·.start == start + e.offset)).getLast? = some (e.record start) := by
  have hnone : others.filter (·.start == start + e.offset) = [] :=
    List.filter_eq_nil_iff.mpr fun r hr heq => hothers r hr (eq_of_beq heq)
  have hlast := hperm.filter (·.start == start + e.offset)
  rw [List.filter_append, h.filter_record hwell he, hnone, List.append_nil] at hlast
  rw [List.perm_singleton.mp hlast]
  rfl

end LiesAt

/-- What is found at `start + k` among the lines of a module, where a contribution with lines in these blocks lies at
`start` and the module has other lines as well: the nearest line that is not hidden, as far as it reaches. A hidden line
hides the lines before it in its block, but not those of other blocks. -/
structure FindsVisible (path? : UInt32 → Option Text) (c : Contribution) (start : UInt32) (bs : List LineBlock)
    (others lines : List LineRecord) (k : UInt32) (found : Option SourceSpan) : Prop where
  perm : lines.Perm ((visibleEntries c bs).map (·.record start) ++ others)
  ordered : lines.Pairwise fun a b => a.start ≤ b.start
  /-- Of several lines that start at one address the last one counts. -/
  found_iff : ∀ s, found = some s ↔ ∃ e : LineEntry, e.IsNearest (visibleEntries c bs) k ∧
    start + k < start + e.stop ∧ (∀ r ∈ others, r.start ≤ start + k → r.start ≤ start + e.offset) ∧
    (lines.filter (·.start == start + e.offset)).getLast? = some (e.record start) ∧ (e.record start).source path? = s
  apart : ∀ e : LineEntry, e.IsNearest (visibleEntries c bs) k →
    (∀ r ∈ others, r.start ≤ start + k → r.start < start + e.offset) →
    (found = some ((e.record start).source path?) ↔ start + k < start + e.stop)
  visible : start.toNat + c.size.toNat < 2 ^ 32 → (∀ r ∈ others, r.start ≤ start + k → r.start < start) →
    ∀ e : LineEntry, e.IsNearest (allEntries c bs) k → e.isHidden = false →
      found = some ((e.record start).source path?)
  hidden : ∀ b ∈ bs, ∀ e ∈ b.entries c, e.IsNearest (allEntries c bs) k → e.isHidden = true →
    (∀ v : LineEntry, v.IsNearest (visibleEntries c bs) k → v ∈ b.entries c) → found = none

section FindsVisible

variable {m : AddressMap} {path? : UInt32 → Option Text} {start k : UInt32} {bs : List LineBlock}
  {others lines : List LineRecord}

theorem isLastGreatest_lines_iff (hlies : LiesAt m c start) (hwell : WellOrdered c bs) (hk : k < c.size)
    (hperm : lines.Perm ((visibleEntries c bs).map (·.record start) ++ others))
    (hothers : ∀ r ∈ others, r.start ≤ start + k → r.stop ≤ start + k) {r : LineRecord} (hr : start + k < r.stop) :
    Bisection.IsLastGreatest LineRecord.start lines (start + k) r ↔
      ∃ e : LineEntry, e.IsNearest (visibleEntries c bs) k ∧ e.record start = r ∧
        (∀ r ∈ others, r.start ≤ start + k → r.start ≤ start + e.offset) ∧
        (lines.filter (·.start == start + e.offset)).getLast? = some r := by
  have hreach : ∀ e ∈ visibleEntries c bs, (e.record start).start ≤ start + k ↔ e.offset ≤ k := fun e he =>
    hlies.add_le_add_iff (hwell.offset_lt_size (List.mem_filter.mp he).1) hk
  constructor
  · rintro ⟨hmem, hle, hgreatest, hlast⟩
    rcases List.mem_append.mp (hperm.mem_iff.mp hmem) with hmem | hmem
    · obtain ⟨e, he, rfl⟩ := List.mem_map.mp hmem
      refine ⟨e, ⟨he, (hreach e he).mp hle, fun e' he' hle' => ?_⟩, rfl, fun r hr => ?_, hlast⟩
      · have hmem' := List.mem_append_left others (List.mem_map_of_mem (f := (·.record start)) he')
        exact (hlies.record_le_record_iff hwell he' he).mp
          (hgreatest _ (hperm.mem_iff.mpr hmem') ((hreach e' he').mpr hle'))
      · exact hgreatest r (hperm.mem_iff.mpr (List.mem_append_right _ hr))
    · exact absurd hr (UInt32.not_lt.mpr (hothers r hmem hle))
  · rintro ⟨e, ⟨he, hle, hgreatest⟩, rfl, hbefore, hlast⟩
    refine ⟨hperm.mem_iff.mpr (List.mem_append_left _ (List.mem_map_of_mem he)), (hreach e he).mpr hle,
      fun r hr hrk => ?_, hlast⟩
    rcases List.mem_append.mp (hperm.mem_iff.mp hr) with hr | hr
    · obtain ⟨e', he', rfl⟩ := List.mem_map.mp hr
      exact (hlies.record_le_record_iff hwell he' he).mpr (hgreatest e' he' ((hreach e' he').mp hrk))
    · exact hbefore r hr hrk

/-- Everything follows from which line is found: in its own block a hidden line ends the one before it. -/
theorem findsVisible_of_found_iff (hlies : LiesAt m c start) (hwell : WellOrdered c bs) (hk : k < c.size)
    (hperm : lines.Perm ((visibleEntries c bs).map (·.record start) ++ others))
    (hordered : lines.Pairwise fun a b => a.start ≤ b.start) {found : Option SourceSpan}
    (h : ∀ s, found = some s ↔ ∃ e : LineEntry, e.IsNearest (visibleEntries c bs) k ∧
      start + k < start + e.stop ∧ (∀ r ∈ others, r.start ≤ start + k → r.start ≤ start + e.offset) ∧
      (lines.filter (·.start == start + e.offset)).getLast? = some (e.record start) ∧
      (e.record start).source path? = s) :
    FindsVisible path? c start bs others lines k found := by
  have hfound : ∀ e : LineEntry, e.IsNearest (visibleEntries c bs) k →
      (∀ r ∈ others, r.start ≤ start + k → r.start < start + e.offset) → start + k < start + e.stop →
      found = some ((e.record start).source path?) := by
    intro e hnear hothers hreach
    have hle : start + e.offset ≤ start + k :=
      (hlies.add_le_add_iff (hwell.offset_lt_size (List.mem_filter.mp hnear.mem).1) hk).mpr hnear.le
    have hlast := hlies.getLast?_filter_record hwell hperm hnear.mem fun r hr heq =>
      UInt32.ne_of_lt (hothers r hr (heq ▸ hle)) heq
    exact (h _).mpr ⟨e, hnear, hreach, fun r hr hle => UInt32.le_of_lt (hothers r hr hle), hlast, rfl⟩
  refine ⟨hperm, hordered, h, fun e hnear hothers => ⟨fun hsome => ?_, hfound e hnear hothers⟩, ?_, ?_⟩
  · obtain ⟨v, hv, hreach, -, -, -⟩ := (h _).mp hsome
    rwa [hwell.isNearest_unique hv hnear] at hreach
  · intro hends hothers e hnear hvisible
    have hbehind : start ≤ start + e.offset := by
      rw [UInt32.le_iff_toNat_le, hlies.toNat_add (hwell.offset_lt_size hnear.mem)]
      omega
    have hnearest : e.IsNearest (visibleEntries c bs) k :=
      ⟨List.mem_filter.mpr ⟨hnear.mem, by simp [hvisible]⟩, hnear.le, fun e' he' =>
        hnear.le_offset e' (List.mem_filter.mp he').1⟩
    exact hfound e hnearest (fun r hr hle => UInt32.lt_of_lt_of_le (hothers r hr hle) hbehind)
      (hlies.lt_add_stop hwell hk hends hnear)
  · intro b hb e he hnear hhidden hsame
    refine Option.eq_none_iff_forall_ne_some.mpr fun s hs => ?_
    obtain ⟨v, hv, hreach, -⟩ := (h s).mp hs
    obtain ⟨hmem, hvisible⟩ := List.mem_filter.mp hv.mem
    have hne : v.offset ≠ e.offset := fun heq => by
      rw [hwell.eq_of_offset_eq hmem hnear.mem heq, hhidden] at hvisible
      cases hvisible
    have hlt := UInt32.lt_of_le_of_ne (hnear.le_offset v hmem hv.le) hne
    have hstop := UInt32.le_trans (hwell.stop_le_of_same_block hb (hsame v hv) he hlt) hnear.le
    have hstop' := (hlies.add_le_add_iff (UInt32.lt_of_le_of_lt hstop hk) hk).mpr hstop
    exact UInt32.not_lt.mpr hstop' hreach

end FindsVisible

namespace FunctionTable

theorem source_covering?_lines {t : PathTable} {spans : Array LineSpan} {rs : List LineRecord}
    {path? : UInt32 → Option Text} (h : spans.toList.map (·.source t) = rs.map (·.source path?)) (rva : UInt32) :
    (covering? spans rva).map (·.source t) =
      ((Bisection.lastAtMost? LineRecord.start rs.toArray rva).filter (rva < ·.stop)).map (·.source path?) := by
  have harray : spans.map (·.source t) = rs.toArray.map (·.source path?) := by
    apply Array.toList_inj.mp
    rw [Array.toList_map, Array.toList_map, h]
  have hspans := Bisection.lastAtMost?_map SourceSpan.start (·.source t) spans rva
  have hrecords := Bisection.lastAtMost?_map SourceSpan.start (·.source path?) rs.toArray rva
  rw [harray, hrecords] at hspans
  calc (covering? spans rva).map (·.source t)
    _ = ((Bisection.lastAtMost? LineSpan.start spans rva).map (·.source t)).filter (rva < ·.stop) := by
      rw [Option.filter_map]
      rfl
    _ = ((Bisection.lastAtMost? LineRecord.start rs.toArray rva).map (·.source path?)).filter (rva < ·.stop) :=
      congrArg _ hspans.symm
    _ = ((Bisection.lastAtMost? LineRecord.start rs.toArray rva).filter (rva < ·.stop)).map (·.source path?) := by
      rw [Option.filter_map]
      rfl

end FunctionTable

theorem ModuleRecords.exists_lines [Sorting] (m : AddressMap) (entry : ModuleEntry) {data c13 : Bytes}
    (h : data.slice? (entry.symbolSize.toNat + entry.c11Size.toNat) entry.c13Size.toNat = some c13) :
    ∃ r : ModuleRecords, parse m entry data = .ok r ∧ r.lines =
      Sorting.sort LineRecord.start ((bodies Subsection.lines (Subsection.list c13 0)).flatMap (lineRecords m)) := by
  rw [parse, h]
  exact ⟨_, rfl, rfl⟩

/-- Lines of one subsection whose blocks are well-ordered, looked up among all lines of the module. -/
theorem findsVisible_of_lines [Sorting] (m : AddressMap) (entry : ModuleEntry) {data c13 body : Bytes}
    (before after : List Bytes) {start k : UInt32}
    (hc13 : data.slice? (entry.symbolSize.toNat + entry.c11Size.toNat) entry.c13Size.toNat = some c13)
    (hbodies : ModuleRecords.bodies Subsection.lines (Subsection.list c13 0) = before ++ body :: after)
    (hc : Contribution.parse? body = some c) (hlies : LiesAt m c start)
    (hwell : WellOrdered c (LineBlock.list c.hasColumns body Contribution.headSize)) (hk : k < c.size)
    (hothers : ∀ r ∈ (before ++ after).flatMap (lineRecords m), r.start ≤ start + k → r.stop ≤ start + k) :
    ∃ r : ModuleRecords, ModuleRecords.parse m entry data = .ok r ∧
      ∀ strings names number (t : PathTable),
        let out := (FunctionTable.ofModule strings names number r).run t
        FindsVisible (recordedPath? strings r.files) c start
          (LineBlock.list c.hasColumns body Contribution.headSize) ((before ++ after).flatMap (lineRecords m)) r.lines k
          ((FunctionTable.covering? out.1.1 (start + k)).map (·.source out.2)) := by
  obtain ⟨r, hr, hlines⟩ := ModuleRecords.exists_lines m entry hc13
  have hordered : r.lines.Pairwise fun a b => a.start ≤ b.start := hlines ▸ Sorting.ordered _ _
  have hperm : r.lines.Perm ((visibleEntries c (LineBlock.list c.hasColumns body Contribution.headSize)).map
      (·.record start) ++ (before ++ after).flatMap (lineRecords m)) := by
    rw [hlines, hbodies, ← hwell.lineRecords_eq hc hlies, ← List.flatMap_cons]
    exact (Sorting.perm _ _).trans (List.perm_middle.flatMap_right _)
  refine ⟨r, hr, fun strings names number t => findsVisible_of_found_iff hlies hwell hk hperm hordered fun s => ?_⟩
  have hdenotes : PathTable.Denotes (FunctionTable.ofModule strings names number r) _ :=
    FunctionTable.denotes_ofModule number r
  have hsources := ((hdenotes t).2 _ (PathTable.Within.refl _)).1
  have hlookup : ∀ x, Bisection.lastAtMost? LineRecord.start r.lines.toArray (start + k) = some x ↔
      Bisection.IsLastGreatest LineRecord.start r.lines (start + k) x := fun x =>
    Bisection.lastAtMost?_eq_some_iff_isLastGreatest hordered
  rw [FunctionTable.source_covering?_lines hsources, Option.map_eq_some_iff]
  simp only [Option.filter_eq_some_iff, decide_eq_true_eq, hlookup]
  constructor
  · rintro ⟨x, ⟨hlast, hreach⟩, rfl⟩
    obtain ⟨e, hnear, rfl, hbefore, hlast⟩ := (isLastGreatest_lines_iff hlies hwell hk hperm hothers hreach).mp hlast
    exact ⟨e, hnear, hreach, hbefore, hlast, rfl⟩
  · rintro ⟨e, hnear, hreach, hbefore, hlast, rfl⟩
    exact ⟨e.record start, ⟨(isLastGreatest_lines_iff hlies hwell hk hperm hothers hreach).mpr
      ⟨e, hnear, rfl, hbefore, hlast⟩, hreach⟩, rfl⟩

/-- Two blocks with a hidden line each. That of the second one starts inside the first line of the first one. -/
def hidingBody : Bytes :=
  (StoredContribution.bytes ⟨0x100, 1, 0, 0x40⟩ ++
    [0, 2, 28, 0, 10, 0x20, 0xFEEFEE, 8, 2, 28, 8, 0xF00F00, 0x30, 12].flatMap (leBytes 4)).toArray

def hidingStream : Bytes := ([4, 0xF2, 68].flatMap (leBytes 4)).toArray ++ hidingBody

def hidingMap : AddressMap := ⟨[⟨[], 0x1000, 0, 0, 0, 0⟩], #[]⟩

theorem list_hidingBody : LineBlock.list false hidingBody Contribution.headSize =
    [⟨12, 0, 28, [⟨0, 10⟩, ⟨0x20, 0xFEEFEE⟩]⟩, ⟨40, 8, 28, [⟨8, 0xF00F00⟩, ⟨0x30, 12⟩]⟩] := by
  decide +kernel

theorem wellOrdered_hidingBody :
    WellOrdered ⟨0x100, 1, false, 0x40⟩ (LineBlock.list false hidingBody Contribution.headSize) := by
  rw [list_hidingBody]
  exact ⟨by decide, by decide, by decide⟩

theorem liesAt_hidingMap : LiesAt hidingMap ⟨0x100, 1, false, 0x40⟩ 0x100 :=
  liesAt_of_unmoved (s := ⟨[], 0x1000, 0, 0, 0, 0⟩) rfl (by decide) rfl (by decide)

theorem bodies_hidingStream : hidingStream.slice? 4 76 = some (hidingStream.extract 4 80) ∧
    ModuleRecords.bodies Subsection.lines (Subsection.list (hidingStream.extract 4 80) 0) = [hidingBody] := by
  decide +kernel

open scoped Sorting

theorem findsVisible_hidingStream : ∃ r : ModuleRecords,
    ModuleRecords.parse hidingMap ⟨[], [], 0, 4, 0, 76⟩ hidingStream = .ok r ∧
    ∀ strings names number (t : PathTable), let out := (FunctionTable.ofModule strings names number r).run t
      (FunctionTable.covering? out.1.1 0x128).map (·.source out.2) = none := by
  obtain ⟨hslice, hbodies⟩ := bodies_hidingStream
  obtain ⟨r, hr, hfinds⟩ := findsVisible_of_lines hidingMap ⟨[], [], 0, 4, 0, 76⟩ [] [] (k := 0x28) hslice
    hbodies (by decide +kernel) liesAt_hidingMap wellOrdered_hidingBody (by decide)
    fun _ hr => (List.not_mem_nil hr).elim
  refine ⟨r, hr, fun strings names number t => ?_⟩
  have hhidden := (hfinds strings names number t).hidden
  rw [list_hidingBody] at hhidden
  refine hhidden _ List.mem_cons_self ⟨0x20, 0x40, 0xFEEFEE, 0⟩ (by decide) ⟨by decide, by decide, by decide⟩ rfl ?_
  rintro v ⟨hmem, hle, -⟩
  have hvisible : visibleEntries ⟨0x100, 1, false, 0x40⟩
      [⟨12, 0, 28, [⟨0, 10⟩, ⟨0x20, 0xFEEFEE⟩]⟩, ⟨40, 8, 28, [⟨8, 0xF00F00⟩, ⟨0x30, 12⟩]⟩] =
        [⟨0, 0x20, 10, 0⟩, ⟨0x30, 0x40, 12, 8⟩] := by decide
  rw [hvisible] at hmem
  rcases List.mem_cons.mp hmem with rfl | hmem
  · decide
  · obtain rfl := List.mem_singleton.mp hmem
    exact absurd hle (by decide)

/-- At `0x10C` the nearest line is hidden, and a line of the other block is found. -/
theorem showsOther_hidingStream :
    Contribution.parse? hidingBody = some ⟨0x100, 1, false, 0x40⟩ ∧
    LiesAt hidingMap ⟨0x100, 1, false, 0x40⟩ 0x100 ∧
    WellOrdered ⟨0x100, 1, false, 0x40⟩ (LineBlock.list false hidingBody Contribution.headSize) ∧
    (∃ e : LineEntry, e.IsNearest
      (allEntries ⟨0x100, 1, false, 0x40⟩ (LineBlock.list false hidingBody Contribution.headSize)) 12 ∧
        e.isHidden = true) ∧
    ∃ r : ModuleRecords, ModuleRecords.parse hidingMap ⟨[], [], 0, 4, 0, 76⟩ hidingStream = .ok r ∧
      let out := (FunctionTable.ofModule none ⟨none, none⟩ 0 r).run .empty
      (FunctionTable.covering? out.1.1 0x10C).map (·.source out.2) = some ⟨0x100, 0x120, 10, none⟩ := by
  refine ⟨by decide +kernel, liesAt_hidingMap, wellOrdered_hidingBody, ?_, ?_⟩
  · rw [list_hidingBody]
    exact ⟨⟨8, 0x30, 0xF00F00, 8⟩, ⟨by decide, by decide, by decide⟩, rfl⟩
  · obtain ⟨hslice, hbodies⟩ := bodies_hidingStream
    obtain ⟨r, hr, hlines⟩ := ModuleRecords.exists_lines hidingMap ⟨[], [], 0, 4, 0, 76⟩ hslice
    have hrecords : lineRecords hidingMap hidingBody = [⟨0x100, 0x120, 10, 0⟩, ⟨0x130, 0x140, 12, 8⟩] := by
      decide +kernel
    have hinc : Increasing LineRecord.start [⟨0x100, 0x120, 10, 0⟩, ⟨0x130, 0x140, 12, 8⟩] := by decide
    rw [hbodies, List.flatMap_singleton, hrecords, Sorting.sort_eq_of_increasing (.refl _) hinc] at hlines
    have hdenotes : PathTable.Denotes (FunctionTable.ofModule none ⟨none, none⟩ 0 r) _ :=
      FunctionTable.denotes_ofModule 0 r
    have hsources := ((hdenotes .empty).2 _ (PathTable.Within.refl _)).1
    have hlast : Bisection.lastAtMost? LineRecord.start #[⟨0x100, 0x120, 10, 0⟩, ⟨0x130, 0x140, 12, 8⟩] 0x10C =
        some ⟨0x100, 0x120, 10, 0⟩ := by decide +kernel
    refine ⟨r, hr, ?_⟩
    dsimp only
    rw [FunctionTable.source_covering?_lines hsources, hlines, hlast]
    rfl

end CodeAtlas.Database
