import CodeAtlas.Database.Basic
import CodeAtlas.Proofs.Database.ProcedureRecords
import CodeAtlas.Proofs.Database.ScopeSymbols
import Mathlib.Data.List.Forall2
import Mathlib.Data.Nat.Bitwise

/-!
What the symbols of a database say about functions, told from the bytes of their records and not by reading them.
-/

namespace CodeAtlas.Database

namespace Record

variable {α : Type} {means : Record → α → Prop} {rs : List Record} {xs : List α}

/-- What records say, in their order. A record can also say nothing. -/
inductive Tell (means : Record → α → Prop) : List Record → List α → Prop
  | nil : Tell means [] []
  | said {r : Record} {x : α} {rs : List Record} {xs : List α} (h : means r x) (rest : Tell means rs xs) :
      Tell means (r :: rs) (x :: xs)
  | silent {r : Record} {rs : List Record} {xs : List α} (h : ∀ x, ¬means r x) (rest : Tell means rs xs) :
      Tell means (r :: rs) xs

theorem tell_iff {told? : Record → Option α} (h : ∀ r ∈ rs, ∀ x, told? r = some x ↔ means r x) :
    Tell means rs xs ↔ rs.filterMap told? = xs := by
  constructor
  · intro htell
    induction htell with
    | nil => rfl
    | said hmeans _ ih =>
      obtain ⟨hhead, htail⟩ := List.forall_mem_cons.mp h
      rw [List.filterMap_cons_some ((hhead _).mpr hmeans), ih htail]
    | silent hsilent _ ih =>
      obtain ⟨hhead, htail⟩ := List.forall_mem_cons.mp h
      rw [List.filterMap_cons_none (Option.eq_none_iff_forall_ne_some.mpr fun x hx => hsilent x ((hhead x).mp hx)),
        ih htail]
  · rintro rfl
    induction rs with
    | nil => exact .nil
    | cons r rs ih =>
      obtain ⟨hhead, htail⟩ := List.forall_mem_cons.mp h
      cases htold : told? r with
      | none =>
        rw [List.filterMap_cons_none htold]
        refine .silent (fun x hx => ?_) (ih htail)
        cases htold.symm.trans ((hhead x).mpr hx)
      | some x =>
        rw [List.filterMap_cons_some htold]
        exact .said ((hhead x).mp htold) (ih htail)

/-- What the records of some data say from a position on. -/
def Tells (means : Record → α → Prop) (data : Bytes) (pos : Nat) (xs : List α) : Prop :=
  ∃ rs, Fill data pos rs ∧ Tell means rs xs

theorem tells_iff {told? : Record → Option α} (h : ∀ r : Record, r.Fits → ∀ x, told? r = some x ↔ means r x)
    {data : Bytes} {pos : Nat} (hpos : pos ≤ data.size) :
    Tells means data pos xs ↔ (list data pos).1.filterMap told? = xs := by
  have hfill : Fill data pos (list data pos).1 := (fill_iff hpos).mpr rfl
  rw [← tell_iff fun r hr => h r (hfill.fits r hr)]
  refine ⟨?_, fun htell => ⟨_, hfill, htell⟩⟩
  rintro ⟨rs, hrs, htell⟩
  rwa [(fill_iff hpos).mp hrs]

end Record

theorem SymbolKind.ofNumber_eq_procedure_iff {n : UInt16} : ofNumber n = .procedure ↔ n ∈ procedureNumbers := by
  refine ⟨fun h => ?_, ofNumber_of_procedure⟩
  rw [ofNumber] at h
  split at h
  next hmem =>
    simp only [List.mem_cons, List.not_mem_nil, or_false] at hmem
    rcases hmem with rfl | rfl | rfl | rfl | rfl | rfl <;> decide
  next =>
    split_ifs at h

/-- The record is that of a procedure whose place in a section has an address. -/
def Record.IsProcedure (m : AddressMap) (r : Record) (p : Procedure) : Prop :=
  ∃ s : ProcedureSymbol, s.record = r ∧ s.procedure? m = some p

section Procedures

variable {m : AddressMap} {r : Record} {p : Procedure}

theorem isProcedure_of_procedure? (hr : r.Fits) (h : ModuleRecords.procedure? m r = some p) : r.IsProcedure m p := by
  obtain ⟨hkind, h⟩ := Option.ite_none_right_eq_some.mp h
  obtain ⟨length, hlength, h⟩ := Option.bind_eq_some_iff.mp h
  obtain ⟨offset, hoffset, h⟩ := Option.bind_eq_some_iff.mp h
  obtain ⟨number, hnumber, h⟩ := Option.bind_eq_some_iff.mp h
  obtain ⟨name, hname, h⟩ := Option.bind_eq_some_iff.mp h
  obtain ⟨rva, hrva, h⟩ := Option.bind_eq_some_iff.mp h
  cases h
  obtain ⟨hname, hnul⟩ := Bytes.cstringAt?_eq_some_iff.mp hname
  have hsize := hname.le_size
  rw [List.length_append, List.length_singleton] at hsize
  obtain ⟨links, hlinks⟩ : ∃ v : Vector UInt8 12, r.data.Holds 0 v.toList := Bytes.exists_holds (by omega)
  obtain ⟨debug, hdebug⟩ : ∃ v : Vector UInt8 12, r.data.Holds 16 v.toList := Bytes.exists_holds (by omega)
  obtain ⟨flags, hflags⟩ : ∃ v : Vector UInt8 1, r.data.Holds 34 v.toList := Bytes.exists_holds (by omega)
  obtain ⟨flag, hflag⟩ := List.length_eq_one_iff.mp flags.length_toList
  rw [hflag] at hflags
  have hend := (Bytes.holds_of_u16At? hnumber).append_at (hflags.append_at hname rfl) (by rw [length_leBytes])
  have hmiddle := hdebug.append_at ((Bytes.holds_of_u32At? hoffset).append_at hend (by rw [length_leBytes]))
    (by rw [Vector.length_toList])
  obtain ⟨before, rest, hbefore, hdata⟩ := hlinks.append_at
    ((Bytes.holds_of_u32At? hlength).append_at hmiddle (by rw [length_leBytes])) (by rw [Vector.length_toList])
  rw [List.length_eq_zero_iff.mp hbefore, List.nil_append] at hdata
  have hfits : 38 + name.length + rest.length < 65536 := by
    have hlength := congrArg List.length hdata
    have hr : 2 + r.data.size < 65536 := hr
    simp only [List.length_append, Vector.length_toList, length_leBytes, List.length_singleton,
      Array.length_toList] at hlength
    omega
  refine ⟨⟨r.kind, SymbolKind.ofNumber_eq_procedure_iff.mp hkind, links, length, debug, offset, number, flag, name, hnul,
    rest, hfits⟩, ?_, ?_⟩
  · refine congrArg (Record.mk r.kind) (Array.toList_inj.mp ?_)
    rw [hdata]
    simp only [ProcedureSymbol.bytes, List.append_assoc]
  · rw [ProcedureSymbol.procedure?, hrva]
    rfl

theorem procedure?_eq_some_iff (hr : r.Fits) : ModuleRecords.procedure? m r = some p ↔ r.IsProcedure m p := by
  refine ⟨isProcedure_of_procedure? hr, ?_⟩
  rintro ⟨s, rfl, hs⟩
  have hkind : SymbolKind.ofNumber s.record.kind = .procedure := SymbolKind.ofNumber_of_procedure s.kind_mem
  rw [ModuleRecords.procedure?, if_pos hkind, ProcedureSymbol.readProcedure?_record, hs]

end Procedures

/-- A public symbol. -/
structure PublicSymbol where
  flags : UInt32
  offset : UInt32
  sectionNumber : UInt16
  name : Text
  no_nul : 0 ∉ name
  rest : List UInt8
  fits : 13 + name.length + rest.length < 65536

namespace PublicSymbol

def bytes (s : PublicSymbol) : List UInt8 :=
  leBytes 4 s.flags.toNat ++ (leBytes 4 s.offset.toNat ++ (leBytes 2 s.sectionNumber.toNat ++
    ((s.name ++ [0]) ++ s.rest)))

def record (s : PublicSymbol) : Record := ⟨0x110e, s.bytes.toArray⟩

/-- The second bit of the flags tells functions. -/
def function? (m : AddressMap) (s : PublicSymbol) : Option (UInt32 × Text) :=
  if s.flags.toNat.testBit 1 then (m.rva? s.sectionNumber s.offset).map (·, s.name) else none

theorem fits_record (s : PublicSymbol) : s.record.Fits := by
  have hs := s.fits
  simp only [Record.Fits, record, bytes, List.size_toArray, List.length_append, length_leBytes, List.length_singleton]
  omega

theorem isFunction_iff (flags : UInt32) : flags &&& 2 = 0 ↔ flags.toNat.testBit 1 = false := by
  have hand : flags.toNat &&& 2 = (flags.toNat.testBit 1).toNat * 2 := Nat.and_two_pow flags.toNat 1
  rw [← UInt32.toNat_inj, UInt32.toNat_and]
  change flags.toNat &&& 2 = 0 ↔ _
  rw [hand]
  cases flags.toNat.testBit 1 <;> decide

theorem read?_record (m : AddressMap) (s : PublicSymbol) :
    PublicFunction.read? m s.record.data = s.function? m := by
  have hall := Bytes.holds_toArray s.bytes
  have hoffset := hall.right
  rw [length_leBytes, Nat.zero_add] at hoffset
  have hnumber := hoffset.right
  rw [length_leBytes] at hnumber
  have hname := hnumber.right.left
  rw [length_leBytes] at hname
  simp only [PublicFunction.read?, record, Option.bind_eq_bind, hall.left.u32At?, hoffset.left.u32At?,
    hnumber.left.u16At?, hname.cstringAt? s.no_nul, Option.bind_some, function?, isFunction_iff]
  cases s.flags.toNat.testBit 1 with
  | false => rfl
  | true => exact Option.map_eq_bind.symm

end PublicSymbol

/-- The record is that of a public symbol, which is a function and whose place in a section has an address. -/
def Record.IsPublicFunction (m : AddressMap) (r : Record) (q : UInt32 × Text) : Prop :=
  ∃ s : PublicSymbol, s.record = r ∧ s.function? m = some q

section Publics

variable {m : AddressMap} {r : Record} {q : UInt32 × Text}

theorem isPublicFunction_of_read? (hr : r.Fits) (hkind : r.kind = 0x110e)
    (h : PublicFunction.read? m r.data = some q) : r.IsPublicFunction m q := by
  have hread := h
  obtain ⟨flags, hflags, h⟩ := Option.bind_eq_some_iff.mp h
  obtain ⟨offset, hoffset, h⟩ := Option.bind_eq_some_iff.mp h
  obtain ⟨number, hnumber, h⟩ := Option.bind_eq_some_iff.mp h
  obtain ⟨name, hname, -⟩ := Option.bind_eq_some_iff.mp h
  obtain ⟨hname, hnul⟩ := Bytes.cstringAt?_eq_some_iff.mp hname
  have hplace := (Bytes.holds_of_u32At? hoffset).append_at
    ((Bytes.holds_of_u16At? hnumber).append_at hname (by rw [length_leBytes])) (by rw [length_leBytes])
  obtain ⟨before, rest, hbefore, hdata⟩ := (Bytes.holds_of_u32At? hflags).append_at hplace (by rw [length_leBytes])
  rw [List.length_eq_zero_iff.mp hbefore, List.nil_append] at hdata
  have hfits : 13 + name.length + rest.length < 65536 := by
    have hlength := congrArg List.length hdata
    have hr : 2 + r.data.size < 65536 := hr
    simp only [List.length_append, length_leBytes, List.length_singleton, Array.length_toList] at hlength
    omega
  have hrecord : PublicSymbol.record ⟨flags, offset, number, name, hnul, rest, hfits⟩ = r := by
    obtain ⟨kind, data⟩ := r
    cases hkind
    refine congrArg (Record.mk 0x110e) (Array.toList_inj.mp ?_)
    rw [hdata]
    simp only [PublicSymbol.bytes, List.append_assoc]
  refine ⟨_, hrecord, ?_⟩
  rw [← PublicSymbol.read?_record, hrecord, hread]

theorem publicFunction?_eq_some_iff (hr : r.Fits) :
    (if r.kind == 0x110e then PublicFunction.read? m r.data else none) = some q ↔
      r.IsPublicFunction m q := by
  constructor
  · intro h
    obtain ⟨hkind, h⟩ := Option.ite_none_right_eq_some.mp h
    exact isPublicFunction_of_read? hr (eq_of_beq hkind) h
  · rintro ⟨s, rfl, hs⟩
    have hkind : (s.record.kind == 0x110e) = true := rfl
    rw [if_pos hkind, PublicSymbol.read?_record, hs]

end Publics

/-- A module tells of its procedures, in whatever scopes they stand, if its symbols start with the mark of the format
that is known. -/
structure TellsProcedures (m : AddressMap) (symbols : Bytes) (ps : List Procedure) : Prop where
  marked : symbols.Holds 0 (leBytes 4 4) → Record.Tells (Record.IsProcedure m) symbols 4 ps
  unmarked : ¬symbols.Holds 0 (leBytes 4 4) → ps = []

theorem tellsProcedures_iff {m : AddressMap} {symbols : Bytes} {ps : List Procedure} :
    TellsProcedures m symbols ps ↔ ModuleRecords.procedureRecords m symbols = ps := by
  have hmark : symbols.Holds 0 (leBytes 4 4) ↔ symbols.u32At? 0 = some 4 :=
    ⟨fun h => Bytes.Holds.u32At? (n := 4) h, Bytes.holds_of_u32At?⟩
  rw [ModuleRecords.procedureRecords]
  split
  next h =>
    have hsize : 4 ≤ symbols.size := (hmark.mpr h).le_size
    refine Iff.trans ?_ (Record.tells_iff (fun r hr p => procedure?_eq_some_iff hr) hsize)
    exact ⟨fun htells => htells.marked (hmark.mpr h), fun htells => ⟨fun _ => htells, fun hnot =>
      absurd (hmark.mpr h) hnot⟩⟩
  next h =>
    exact ⟨fun htells => (htells.unmarked (mt hmark.mp h)).symm, fun hps => ⟨fun hholds => absurd (hmark.mp hholds) h,
      fun _ => hps.symm⟩⟩

theorem tells_publics_iff {m : AddressMap} {symbols : Bytes} {qs : List (UInt32 × Text)} :
    Record.Tells (Record.IsPublicFunction m) symbols 0 qs ↔ PublicFunction.list m symbols = qs := by
  rw [Record.tells_iff (fun r hr q => publicFunction?_eq_some_iff hr) (Nat.zero_le _), PublicFunction.list,
    List.filterMap_filter]

theorem PublicFunction.list_empty (m : AddressMap) : list m #[] = [] := by
  rw [list, Record.list]
  rfl

/-- The modules that can be read, with their streams. -/
def readableModules (db : Database) : List (ModuleEntry × Bytes) :=
  match db.modules with
  | none => []
  | some modules => modules.modules.filterMap fun e =>
    if e.stream = nilStream then none
    else (streamBytes? db.container e.stream.toNat).bind fun data =>
      if e.symbolSize.toNat + e.c11Size.toNat + e.c13Size.toNat ≤ data.size then some (e, data) else none

/-- The stream with this number, if there is one and it can be read. -/
def numberedStream? (c : Container) (number : UInt16) : Option Bytes :=
  if number = nilStream then none else streamBytes? c number.toNat

/-- The records of public symbols, if there are any. -/
def publicSymbols (db : Database) : Bytes :=
  (db.modules.bind fun modules => numberedStream? db.container modules.symbolRecords).getD #[]

/-- The procedures of the readable modules, each with the number of its module, and the functions among the public
symbols, in the order of their records. -/
structure Describes (db : Database) (procedures : List (Nat × Procedure)) (publics : List (UInt32 × Text)) : Prop where
  procedures : ∃ told, List.Forall₂ (fun (module : ModuleEntry × Bytes) ps =>
      TellsProcedures db.addresses (module.2.extract 0 module.1.symbolSize.toNat) ps) (readableModules db) told ∧
    procedures = told.zipIdx.flatMap fun (ps, i) => ps.map (i, ·)
  publics : Record.Tells (Record.IsPublicFunction db.addresses) (publicSymbols db) 0 publics

/-- The procedures of each readable module with its number, module by module and in the order of their records. -/
def numberedProcedures (db : Database) : List (Nat × Procedure) :=
  (readableModules db).zipIdx.flatMap fun ((e, data), i) =>
    (ModuleRecords.procedureRecords db.addresses (data.extract 0 e.symbolSize.toNat)).map (i, ·)

def publicRecords (db : Database) : List (UInt32 × Text) := PublicFunction.list db.addresses (publicSymbols db)

theorem describes_iff {db : Database} {procedures : List (Nat × Procedure)} {publics : List (UInt32 × Text)} :
    Describes db procedures publics ↔ numberedProcedures db = procedures ∧ publicRecords db = publics := by
  have htold : ∀ told, List.Forall₂ (fun (module : ModuleEntry × Bytes) ps =>
      TellsProcedures db.addresses (module.2.extract 0 module.1.symbolSize.toNat) ps) (readableModules db) told ↔
      (readableModules db).map (fun module =>
        ModuleRecords.procedureRecords db.addresses (module.2.extract 0 module.1.symbolSize.toNat)) = told := by
    intro told
    simp only [tellsProcedures_iff]
    rw [← List.forall₂_map_left_iff (R := Eq), List.forall₂_eq_eq_eq]
  have hnumbered : numberedProcedures db = ((readableModules db).map fun module =>
      ModuleRecords.procedureRecords db.addresses (module.2.extract 0 module.1.symbolSize.toNat)).zipIdx.flatMap
        fun (ps, i) => ps.map (i, ·) := by
    rw [List.zipIdx_map, List.flatMap_map]
    rfl
  constructor
  · rintro ⟨⟨told, hforall, rfl⟩, hpublics⟩
    exact ⟨by rw [hnumbered, (htold told).mp hforall], tells_publics_iff.mp hpublics⟩
  · rintro ⟨rfl, rfl⟩
    exact ⟨⟨_, (htold _).mpr rfl, hnumbered⟩, tells_publics_iff.mpr rfl⟩

end CodeAtlas.Database
