import CodeAtlas.Lookup.Sorting.Partition
import CodeAtlas.Proofs.Database.ScopeForest

namespace CodeAtlas.Database

theorem getElem?_append_of_some {α : Type} {as : List α} {i : Nat} {a : α} (h : as[i]? = some a) (bs : List α) :
    (as ++ bs)[i]? = some a := by
  obtain ⟨hi, -⟩ := List.getElem?_eq_some_iff.mp h
  rw [List.getElem?_append_left hi, h]

/-- Procedures are numbered by their places among those that have an address. -/
theorem Around.number_opening {m : AddressMap} {around : List Around} {before : List Procedure}
    (h : ∀ found ∈ innermost? around, before[found.1]? = some found.2) (o : Opening) :
    ∀ found ∈ innermost? (o.around m before.length :: around),
      (before ++ (o.procedure? m).toList)[found.1]? = some found.2 := by
  intro found hfound
  cases o with
  | procedure p =>
    obtain ⟨procedure, hprocedure, rfl⟩ := Option.map_eq_some_iff.mp (Option.mem_def.mp hfound)
    rw [Opening.procedure?, hprocedure]
    exact List.getElem?_concat_length
  | inline c => exact getElem?_append_of_some (h found hfound) _
  | other r => exact getElem?_append_of_some (h found hfound) _

theorem Forest.procedure_of_mem_sites {m : AddressMap} (f : Forest) {around : List Around} {before : List Procedure}
    (h : ∀ found ∈ Around.innermost? around, before[found.1]? = some found.2) :
    ∀ site ∈ f.sites m around before.length, (before ++ f.procedures m)[site.number]? = some site.procedure := by
  induction f generalizing around before with
  | nil =>
    intro site hsite
    cases hsite
  | plain r rest ih => exact ih h
  | scope o inner close rest ihInner ihRest =>
    intro site hsite
    rw [sites, ← List.length_append, ← List.length_append, List.append_assoc] at hsite
    rw [procedures, ← List.append_assoc, ← List.append_assoc]
    rcases List.mem_append.mp hsite with hsite | hsite
    · have hbefore : before[site.number]? = some site.procedure := by
        cases o with
        | inline c =>
          obtain ⟨found, hfound, rfl⟩ := Option.map_eq_some_iff.mp (Option.mem_toList.mp hsite)
          exact h found hfound
        | procedure p => cases hsite
        | other r => cases hsite
      exact getElem?_append_of_some (getElem?_append_of_some (getElem?_append_of_some hbefore _) _) _
    · rcases List.mem_append.mp hsite with hsite | hsite
      · exact getElem?_append_of_some (ihInner (Around.number_opening h o) site hsite) _
      · refine ihRest (fun found hfound => ?_) site hsite
        exact getElem?_append_of_some (getElem?_append_of_some (h found hfound) _) _

namespace ModuleRecords

/-- Open scopes and calls refer to procedures that have been found. -/
structure State.Refers (s : State) : Prop where
  scopes : ∀ scope ∈ s.scopes, ∀ n ∈ scope.procedure, n < s.procedures.length
  calls : ∀ c ∈ s.calls, c.procedure < s.procedures.length ∧ 1 ≤ c.depth

namespace State.Refers

variable {s : State}

theorem owner_lt (h : s.Refers) : ∀ n ∈ s.owner, n < s.procedures.length := by
  intro n hn
  obtain ⟨scope, hscope, hn⟩ := Option.bind_eq_some_iff.mp (Option.mem_def.mp hn)
  exact h.scopes scope (List.mem_of_head? hscope) n hn

theorem push (h : s.Refers) {scope : Scope} (hscope : ∀ n ∈ scope.procedure, n < s.procedures.length) :
    (s.push scope).Refers := by
  refine ⟨?_, h.calls⟩
  intro other hother
  rcases List.mem_cons.mp hother with rfl | hother
  · exact hscope
  · exact h.scopes other hother

theorem addProcedure (h : s.Refers) (p : Procedure) : State.Refers { s with procedures := p :: s.procedures } := by
  constructor
  · intro scope hscope n hn
    exact Nat.lt_succ_of_lt (h.scopes scope hscope n hn)
  · intro c hc
    obtain ⟨hlt, hdepth⟩ := h.calls c hc
    exact ⟨Nat.lt_succ_of_lt hlt, hdepth⟩

theorem openProcedure (h : s.Refers) (m : AddressMap) (data : Bytes) :
    (ModuleRecords.openProcedure m data s).Refers := by
  unfold ModuleRecords.openProcedure
  split
  next p _ =>
    apply (h.addProcedure p).push
    intro n hn
    cases hn
    exact Nat.lt_succ_self _
  next =>
    apply h.push
    intro n hn
    cases hn

theorem openCall (h : s.Refers) (definitions : List (UInt32 × Definition)) (stepsAt : Nat) (data : Bytes) :
    (ModuleRecords.openCall definitions stepsAt data s).Refers := by
  have hpush : (s.push ⟨true, s.owner⟩).Refers := h.push h.owner_lt
  unfold ModuleRecords.openCall
  split
  next procedure inlinee steps howner _ =>
    refine ⟨hpush.scopes, ?_⟩
    intro c hc
    rcases List.mem_cons.mp hc with rfl | hc
    · refine ⟨h.owner_lt procedure howner, ?_⟩
      dsimp only [State.push]
      rw [List.countP_cons_of_pos rfl]
      exact Nat.le_add_left 1 _
    · exact hpush.calls c hc
  next => exact hpush

theorem step (h : s.Refers) (m : AddressMap) (definitions : List (UInt32 × Definition)) (r : Record) :
    (ModuleRecords.step m definitions s r).Refers := by
  unfold ModuleRecords.step
  split
  next => exact h.openProcedure m r.data
  next => exact h.openCall definitions 12 r.data
  next => exact h.openCall definitions 16 r.data
  next => exact h.push h.owner_lt
  next => exact ⟨fun scope hscope => h.scopes scope (List.mem_of_mem_tail hscope), h.calls⟩
  next => exact h

theorem foldl_step (h : s.Refers) (m : AddressMap) (definitions : List (UInt32 × Definition)) (rs : List Record) :
    (rs.foldl (ModuleRecords.step m definitions) s).Refers := by
  induction rs generalizing s with
  | nil => exact h
  | cons r rs ih => exact ih (h.step m definitions r)

end State.Refers

theorem refers_symbols (m : AddressMap) (definitions : List (UInt32 × Definition)) (data : Bytes) :
    (symbols m definitions data).Refers := by
  have hstart : State.Refers ⟨[], [], []⟩ := by
    constructor
    · intro scope hscope
      cases hscope
    · intro c hc
      cases hc
  unfold symbols
  split
  next => exact hstart.foldl_step m definitions _
  next => exact hstart

theorem exists_parse [Sorting] (m : AddressMap) {e : ModuleEntry} {data : Bytes}
    (h : e.symbolSize.toNat + e.c11Size.toNat + e.c13Size.toNat ≤ data.size) : ∃ r, parse m e data = .ok r := by
  unfold parse
  dsimp only
  rw [Bytes.slice?, if_pos h]
  exact ⟨_, rfl⟩

theorem symbols_of_parse [Sorting] {m : AddressMap} {e : ModuleEntry} {data : Bytes} {r : ModuleRecords}
    (h : parse m e data = .ok r) :
    let s := symbols m r.definitions (data.extract 0 e.symbolSize.toNat)
    r.procedures = s.procedures.reverse ∧ r.calls = s.calls.reverse := by
  unfold parse at h
  dsimp only at h
  split at h
  next => cases h
  next =>
    cases h
    exact ⟨rfl, rfl⟩

/-- The nesting of scopes is read back, and no stream makes a call refer to a procedure that is not there. -/
structure ReadsScopes [Sorting] (m : AddressMap) (e : ModuleEntry) : Prop where
  forest : ∀ (f : Forest) (data : Bytes), data.slice? 0 e.symbolSize.toNat = some f.bytes.toArray →
    e.symbolSize.toNat + e.c11Size.toNat + e.c13Size.toNat ≤ data.size →
    ∃ r, parse m e data = .ok r ∧ r.procedures = f.procedures m ∧
      r.calls = (f.sites m [] 0).map (Site.call r.definitions) ∧
      ∀ site ∈ f.sites m [] 0, r.procedures[site.number]? = some site.procedure
  anyBytes : ∀ (data : Bytes) (r : ModuleRecords), parse m e data = .ok r →
    ∀ c ∈ r.calls, c.procedure < r.procedures.length ∧ 1 ≤ c.depth

theorem readsScopes [Sorting] (m : AddressMap) (e : ModuleEntry) : ReadsScopes m e := by
  constructor
  · intro f data hsymbols hsize
    obtain ⟨r, hr⟩ := exists_parse m hsize
    obtain ⟨hprocedures, hcalls⟩ := symbols_of_parse hr
    have hextract := (Bytes.slice?_eq_some_iff.mp hsymbols).2
    rw [Nat.zero_add] at hextract
    simp only [hextract, symbols_bytes, State.add, List.append_nil, List.reverse_reverse] at hprocedures hcalls
    have hstart : ∀ found ∈ Around.innermost? [], ([] : List Procedure)[found.1]? = some found.2 := by
      intro found hfound
      cases hfound
    have hnumbers := f.procedure_of_mem_sites (m := m) hstart
    rw [List.nil_append, ← hprocedures] at hnumbers
    exact ⟨r, hr, hprocedures, hcalls, hnumbers⟩
  · intro data r hr c hc
    obtain ⟨hprocedures, hcalls⟩ := symbols_of_parse hr
    rw [hcalls] at hc
    rw [hprocedures, List.length_reverse]
    exact (refers_symbols m _ _).calls c (List.mem_reverse.mp hc)

/-- A module whose only section can hold code. -/
def smallAddresses : AddressMap := ⟨[⟨[], 0x1000, 0x1000, 0, 0, 0⟩], #[]⟩

def smallProcedure (sectionNumber : UInt16) : Opening :=
  .procedure
    ⟨0x1110, by decide, .replicate 12 0, 0x40, .replicate 12 0, 0x10, sectionNumber, 0, [0x61], by decide, [],
      by decide⟩

def smallInline (inlinee : UInt32) : Opening := .inline ⟨.replicate 8 0, inlinee, none, [], by decide⟩

def smallBlock : Opening := .other ⟨⟨0x1103, #[]⟩, by decide, by decide⟩

def smallClose : RecordOf (· ∈ SymbolKind.closeNumbers) := ⟨⟨0x0006, #[]⟩, by decide, by decide⟩

/-- One procedure is in no section that exists; what is inlined into it does not count. -/
def smallForest : Forest :=
  .scope (smallProcedure 2) (.scope (smallInline 7) .nil smallClose .nil) smallClose
    (.scope (smallProcedure 1)
      (.scope smallBlock (.scope (smallInline 8) (.scope (smallInline 9) .nil smallClose .nil) smallClose .nil)
        smallClose (.scope (smallInline 10) .nil smallClose .nil))
      smallClose .nil)

def smallEntry : ModuleEntry := ⟨[], [], 0, .ofNat smallForest.bytes.length, 0, 0⟩

open scoped Sorting

theorem readsScopes_smallForest :
    ∃ r, parse smallAddresses smallEntry smallForest.bytes.toArray = .ok r ∧
      r.procedures = [⟨0x1010, 0x40, [0x61]⟩] ∧
      r.calls.map (fun c => (c.procedure, c.depth, c.inlinee)) = [(0, 1, 8), (0, 2, 9), (0, 1, 10)] ∧
      ∀ c ∈ r.calls, c.procedure < r.procedures.length ∧ 1 ≤ c.depth := by
  have hsize : smallEntry.symbolSize.toNat = smallForest.bytes.length := by decide +kernel
  have hslice := (Bytes.holds_toArray smallForest.bytes).slice?
  have hlong : smallEntry.symbolSize.toNat + smallEntry.c11Size.toNat + smallEntry.c13Size.toNat ≤
      smallForest.bytes.toArray.size := by
    have hrest : smallEntry.c11Size.toNat = 0 ∧ smallEntry.c13Size.toNat = 0 := ⟨rfl, rfl⟩
    simp only [hsize, hrest, List.size_toArray, Nat.add_zero, Nat.le_refl]
  rw [← hsize] at hslice
  have h := readsScopes smallAddresses smallEntry
  obtain ⟨r, hr, hprocedures, hcalls, -⟩ := h.forest smallForest _ hslice hlong
  refine ⟨r, hr, hprocedures, ?_, h.anyBytes _ r hr⟩
  rw [hcalls, List.map_map]
  rfl

end ModuleRecords

end CodeAtlas.Database
