import CodeAtlas.Proofs.Database.ScopeSymbols

namespace CodeAtlas.Database

/-- Symbols whose scopes nest: each record that opens one has a record that closes it. -/
inductive Forest
  | nil
  | plain (r : RecordOf (· ∉ SymbolKind.scopeNumbers)) (rest : Forest)
  | scope (opening : Opening) (inner : Forest) (close : RecordOf (· ∈ SymbolKind.closeNumbers)) (rest : Forest)

/-- A scope around a record. A procedure that has an address also has a number. -/
inductive Around
  | procedure (found : Option (Nat × Procedure))
  | inline
  | other

namespace Around

def isInline : Around → Bool
  | inline => true
  | _ => false

/-- The innermost procedure of the scopes around a record, if that one has an address. -/
def innermost? : List Around → Option (Nat × Procedure)
  | [] => none
  | procedure found :: _ => found
  | _ :: around => innermost? around

/-- A scope inside others, as it is kept while the symbols are read. -/
def scope (a : Around) (around : List Around) : Scope := ⟨a.isInline, (innermost? (a :: around)).map (·.1)⟩

def scopes : List Around → List Scope
  | [] => []
  | a :: around => a.scope around :: scopes around

theorem countP_scopes (around : List Around) : (scopes around).countP (·.isInline) = around.countP isInline := by
  induction around with
  | nil => rfl
  | cons a around ih => rw [scopes, List.countP_cons, List.countP_cons, ih, scope]

end Around

/-- An inlined function inside a procedure, with the number of the procedure. -/
structure Site where
  number : Nat
  procedure : Procedure
  depth : Nat
  symbol : InlineSymbol

/-- The ranges of an inlined function start from the place of its definition. -/
def Site.call (definitions : List (UInt32 × Definition)) (site : Site) : InlineCall :=
  let d := (definitions.lookup site.symbol.inlinee).getD ⟨0, 0⟩
  ⟨site.number, site.depth, site.symbol.inlinee, InlineRange.list (InlineStep.list site.symbol.steps) d.line d.file⟩

namespace Opening

/-- The opened scope as the records in it see it, where `count` procedures have been numbered. -/
def around (m : AddressMap) (count : Nat) : Opening → Around
  | procedure p => .procedure ((p.procedure? m).map (count, ·))
  | inline _ => .inline
  | other _ => .other

/-- An inlined function counts if the innermost procedure around it does. -/
def site? (around : List Around) : Opening → Option Site
  | inline c => (Around.innermost? around).map fun (number, p) => ⟨number, p, around.countP Around.isInline + 1, c⟩
  | _ => none

end Opening

namespace Forest

def records : Forest → List Record
  | nil => []
  | plain r rest => r.record :: rest.records
  | scope opening inner close rest => opening.record :: (inner.records ++ close.record :: rest.records)

def bytes (f : Forest) : List UInt8 := leBytes 4 4 ++ f.records.flatMap Record.bytes

def procedures (m : AddressMap) : Forest → List Procedure
  | nil => []
  | plain _ rest => rest.procedures m
  | scope opening inner _ rest => (opening.procedure? m).toList ++ inner.procedures m ++ rest.procedures m

/-- The inlined functions that count, where `count` procedures have been numbered. -/
def sites (m : AddressMap) : Forest → List Around → Nat → List Site
  | nil, _, _ => []
  | plain _ rest, around, count => rest.sites m around count
  | scope opening inner _ rest, around, count =>
    let innerCount := count + (opening.procedure? m).toList.length
    (opening.site? around).toList ++ inner.sites m (opening.around m count :: around) innerCount ++
      rest.sites m around (innerCount + (inner.procedures m).length)

theorem fits_records (f : Forest) : ∀ r ∈ f.records, r.Fits := by
  induction f with
  | nil =>
    intro r hr
    cases hr
  | plain p rest ih =>
    intro r hr
    rcases List.mem_cons.mp hr with rfl | hr
    · exact p.fits
    · exact ih r hr
  | scope opening inner close rest ihInner ihRest =>
    intro r hr
    rcases List.mem_cons.mp hr with rfl | hr
    · exact opening.fits_record
    · rcases List.mem_append.mp hr with hr | hr
      · exact ihInner r hr
      · rcases List.mem_cons.mp hr with rfl | hr
        · exact close.fits
        · exact ihRest r hr

theorem list_bytes (f : Forest) : Record.list f.bytes.toArray 4 = (f.records, true) := by
  have hrecords := (Bytes.holds_toArray f.bytes).right
  rw [length_leBytes, Nat.zero_add] at hrecords
  apply Record.list_of_holds hrecords f.fits_records
  rw [List.size_toArray, bytes, List.length_append, length_leBytes, Record.headSize]
  omega

end Forest

namespace ModuleRecords

variable {m : AddressMap} {definitions : List (UInt32 × Definition)}

/-- The state after finding these procedures and calls, with the same scopes open. -/
def State.add (s : State) (ps : List Procedure) (calls : List InlineCall) : State :=
  { s with procedures := ps.reverse ++ s.procedures, calls := calls.reverse ++ s.calls }

theorem State.add_add (s : State) (ps qs : List Procedure) (calls more : List InlineCall) :
    (s.add ps calls).add qs more = s.add (ps ++ qs) (calls ++ more) := by
  simp only [add, List.reverse_append, List.append_assoc]

theorem State.scopes_add (s : State) (ps : List Procedure) (calls : List InlineCall) :
    (s.add ps calls).scopes = s.scopes := rfl

theorem State.length_add (s : State) (ps : List Procedure) (calls : List InlineCall) :
    (s.add ps calls).procedures.length = s.procedures.length + ps.length := by
  rw [add, List.length_append, List.length_reverse, Nat.add_comm]

theorem State.length_push (s : State) (scope : Scope) :
    (s.push scope).procedures.length = s.procedures.length := rfl

theorem owner_of_scopes {s : State} {around : List Around} (h : s.scopes = Around.scopes around) :
    s.owner = (Around.innermost? around).map (·.1) := by
  rw [State.owner, h]
  cases around <;> rfl

theorem openProcedure_record (s : State) (p : ProcedureSymbol) :
    openProcedure m p.record.data s =
      (s.add (p.procedure? m).toList []).push ⟨false, (p.procedure? m).map fun _ => s.procedures.length⟩ := by
  rw [openProcedure, p.readProcedure?_record]
  cases p.procedure? m <;> rfl

theorem openCall_record {s : State} {around : List Around} (h : s.scopes = Around.scopes around) (c : InlineSymbol) :
    openCall definitions (12 + c.countBytes.length) c.record.data s =
      (s.add [] (((Opening.inline c).site? around).toList.map (Site.call definitions))).push ⟨true, s.owner⟩ := by
  have hdepth : (s.push ⟨true, s.owner⟩).scopes.countP (·.isInline) = around.countP Around.isInline + 1 := by
    rw [State.push, List.countP_cons, h, Around.countP_scopes]
    rfl
  rw [openCall, c.readCall?_record, hdepth, owner_of_scopes h, Opening.site?]
  cases Around.innermost? around <;> rfl

/-- What a record that opens a scope does, told by the scopes around it. -/
theorem step_opening {s : State} {around : List Around} (h : s.scopes = Around.scopes around) (o : Opening) :
    step m definitions s o.record =
      (s.add (o.procedure? m).toList ((o.site? around).toList.map (Site.call definitions))).push
        ((o.around m s.procedures.length).scope around) := by
  cases o with
  | procedure p =>
    rw [Opening.record, step_procedure, openProcedure_record]
    cases hp : p.procedure? m <;> simp only [Opening.procedure?, Opening.around, hp] <;> rfl
  | inline c =>
    rw [Opening.record, step_inline, openCall_record h, owner_of_scopes h]
    rfl
  | other r =>
    rw [Opening.record, step_other, owner_of_scopes h]
    rfl

theorem step_close_push (s : State) (scope : Scope) (ps : List Procedure) (calls : List InlineCall)
    (r : RecordOf (· ∈ SymbolKind.closeNumbers)) :
    step m definitions ((s.push scope).add ps calls) r.record = s.add ps calls := by
  rw [step_close]
  rfl

theorem foldl_step_records (f : Forest) {s : State} {around : List Around} (h : s.scopes = Around.scopes around) :
    f.records.foldl (step m definitions) s =
      s.add (f.procedures m) ((f.sites m around s.procedures.length).map (Site.call definitions)) := by
  induction f generalizing s around with
  | nil => rfl
  | plain r rest ih =>
    rw [Forest.records, List.foldl_cons, step_plain]
    exact ih h
  | scope o inner close rest ihInner ihRest =>
    have hinside : ∀ ps calls, ((s.add ps calls).push ((o.around m s.procedures.length).scope around)).scopes =
        Around.scopes (o.around m s.procedures.length :: around) := by
      intro ps calls
      rw [Around.scopes, ← h]
      rfl
    rw [Forest.records, List.foldl_cons, step_opening h, List.foldl_append, List.foldl_cons]
    -- The records inside see one more scope around them, and closing it leaves what they have brought.
    rw [ihInner (hinside _ _), step_close_push, State.add_add, State.length_push, State.length_add]
    rw [ihRest ((s.scopes_add _ _).trans h), State.add_add, State.length_add, Forest.procedures, Forest.sites]
    simp only [List.map_append, List.length_append, List.append_assoc, Nat.add_assoc]

theorem symbols_bytes (f : Forest) :
    symbols m definitions f.bytes.toArray =
      State.add ⟨[], [], []⟩ (f.procedures m) ((f.sites m [] 0).map (Site.call definitions)) := by
  have hmark : Bytes.u32At? f.bytes.toArray 0 = some 4 :=
    Bytes.Holds.u32At? (n := 4) (Bytes.holds_toArray f.bytes).left
  rw [symbols, if_pos hmark, f.list_bytes]
  exact foldl_step_records f rfl

end ModuleRecords

end CodeAtlas.Database
