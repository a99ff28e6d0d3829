import CodeAtlas.Lookup.SymbolMap
import Mathlib.Data.List.Nodup

namespace CodeAtlas

/-- A call of those who find, load and parse files, with its answer. -/
inductive Call (σ : Type)
  | locate (location name : Text) (answer : Option Text)
  | load (path : Text) (answer : Except Failure Bytes)
  | parse (data : Bytes) (answer : Except Failure (SymbolSource (StateM σ)))

/-- A state together with the calls that were made so far. -/
structure Recorded (σ : Type) where
  calls : List (Call σ)
  state : σ

namespace Recorded

variable {σ α : Type}

def silent (act : StateM σ α) : StateM (Recorded σ) α := fun w =>
  let (a, s) := act.run w.state
  (a, ⟨w.calls, s⟩)

def record (call : α → Call σ) (act : StateM σ α) : StateM (Recorded σ) α := fun w =>
  let (a, s) := act.run w.state
  (a, ⟨w.calls ++ [call a], s⟩)

end Recorded

variable {σ : Type}

def SymbolSource.silent (source : SymbolSource (StateM σ)) : SymbolSource (StateM (Recorded σ)) :=
  ⟨source.debugId, source.symbols, fun a => Recorded.silent (source.lookup a)⟩

def ExternalSupport.recorded (support : ExternalSupport (StateM σ)) : ExternalSupport (StateM (Recorded σ)) where
  locate location name := Recorded.record (.locate location name) (support.locate location name)
  load path := Recorded.record (.load path) (support.load path)
  parse data := Except.map SymbolSource.silent <$> Recorded.record (.parse data) (support.parse data)

namespace ExternalSupport

variable (support : ExternalSupport (StateM σ)) (w : Recorded σ)

theorem run_recorded_locate (location name : Text) : (support.recorded.locate location name).run w =
    let (found, s) := (support.locate location name).run w.state
    (found, ⟨w.calls ++ [.locate location name found], s⟩) := rfl

theorem run_recorded_load (path : Text) : (support.recorded.load path).run w =
    let (loaded, s) := (support.load path).run w.state
    (loaded, ⟨w.calls ++ [.load path loaded], s⟩) := rfl

theorem run_recorded_parse (data : Bytes) : (support.recorded.parse data).run w =
    let (parsed, s) := (support.parse data).run w.state
    (parsed.map SymbolSource.silent, ⟨w.calls ++ [.parse data parsed], s⟩) := rfl

end ExternalSupport

/-- What came of the one attempt to open the file of a name. -/
inductive Attempt (σ : Type)
  | unlocated (name : Text)
  | unloaded (name path : Text) (cause : Failure)
  | unparsed (name path : Text) (data : Bytes) (cause : Failure)
  | parsed (name path : Text) (data : Bytes) (source : SymbolSource (StateM σ))

namespace Attempt

def name : Attempt σ → Text
  | unlocated name | unloaded name _ _ | unparsed name _ _ _ | parsed name _ _ _ => name

def file : Attempt σ → Option (SymbolSource (StateM σ))
  | parsed _ _ _ source => some source
  | _ => none

def calls (location : Text) : Attempt σ → List (Call σ)
  | unlocated name => [.locate location name none]
  | unloaded name path cause => [.locate location name (some path), .load path (.error cause)]
  | unparsed name path data cause =>
    [.locate location name (some path), .load path (.ok data), .parse data (.error cause)]
  | parsed name path data source =>
    [.locate location name (some path), .load path (.ok data), .parse data (.ok source)]

/-- The attempt that is made in a state, and the state that it leaves. -/
def make (support : ExternalSupport (StateM σ)) (location name : Text) (s : σ) : Attempt σ × σ :=
  match (support.locate location name).run s with
  | (none, s₁) => (unlocated name, s₁)
  | (some path, s₁) =>
    match (support.load path).run s₁ with
    | (.error cause, s₂) => (unloaded name path cause, s₂)
    | (.ok data, s₂) =>
      match (support.parse data).run s₂ with
      | (.error cause, s₃) => (unparsed name path data cause, s₃)
      | (.ok source, s₃) => (parsed name path data source, s₃)

end Attempt

theorem Attempt.name_make (support : ExternalSupport (StateM σ)) (location name : Text) (s : σ) :
    (make support location name s).1.name = name := by
  rw [make]
  split
  next => rfl
  next =>
    split
    next => rfl
    next => split <;> rfl

namespace SymbolMap

variable {support : ExternalSupport (StateM σ)} {location name : Text}

theorem run_openExternal (s : σ) : (openExternal support location name).run s =
    ((Attempt.make support location name s).1.file, (Attempt.make support location name s).2) := by
  rw [openExternal, StateT.run_bind, Attempt.make]
  cases (support.locate location name).run s with
  | mk found s₁ =>
    cases found with
    | none => rfl
    | some path =>
      change StateT.run (support.load path >>= _) s₁ = _
      rw [StateT.run_bind]
      dsimp only
      cases (support.load path).run s₁ with
      | mk loaded s₂ =>
        cases loaded with
        | error cause => rfl
        | ok data =>
          change StateT.run (support.parse data >>= _) s₂ = _
          rw [StateT.run_bind]
          dsimp only
          cases (support.parse data).run s₂ with
          | mk parsed s₃ => cases parsed <;> rfl

theorem run_openExternal_recorded (w : Recorded σ) : (openExternal support.recorded location name).run w =
    ((Attempt.make support location name w.state).1.file.map SymbolSource.silent,
      ⟨w.calls ++ (Attempt.make support location name w.state).1.calls location,
        (Attempt.make support location name w.state).2⟩) := by
  rw [openExternal, StateT.run_bind, support.run_recorded_locate, Attempt.make]
  cases (support.locate location name).run w.state with
  | mk found s₁ =>
    cases found with
    | none => rfl
    | some path =>
      change StateT.run (support.recorded.load path >>= _) _ = _
      rw [StateT.run_bind, support.run_recorded_load]
      dsimp only
      cases (support.load path).run s₁ with
      | mk loaded s₂ =>
        cases loaded with
        | error cause =>
          change (none, Recorded.mk (w.calls ++ [_] ++ [_]) s₂) = _
          rw [List.append_assoc]
          rfl
        | ok data =>
          change StateT.run (support.recorded.parse data >>= _) _ = _
          rw [StateT.run_bind, support.run_recorded_parse]
          dsimp only
          cases (support.parse data).run s₂ with
          | mk parsed s₃ =>
            cases parsed with
            | error cause =>
              change (none, Recorded.mk (w.calls ++ [_] ++ [_] ++ [_]) s₃) = _
              rw [List.append_assoc, List.append_assoc]
              rfl
            | ok source =>
              change (some source.silent, Recorded.mk (w.calls ++ [_] ++ [_] ++ [_]) s₃) = _
              rw [List.append_assoc, List.append_assoc]
              rfl

section Lawful

variable {m : Type → Type} [Monad m] [LawfulMonad m]

theorem externalFile_run (support : ExternalSupport m) (location name : Text) (files : ExternalFiles m) :
    (externalFile support location name).run files =
      match files.lookup name with
      | some file => pure (file, files)
      | none => (fun file => (file, (name, file) :: files)) <$> openExternal support location name := by
  rw [externalFile, StateT.run_bind, StateT.run_get, pure_bind]
  dsimp only
  cases files.lookup name with
  | some file => rfl
  | none =>
    simp only [StateT.run_bind, StateT.run_monadLift, StateT.run_modify, StateT.run_pure, bind_assoc, pure_bind,
      map_eq_pure_bind]
    rfl

/-- The frames at an address of a file that was asked for, where a file that could not be opened has none. -/
def framesIn (file : Option (SymbolSource m)) (address : UInt32) : m (Option (List Frame)) :=
  match file with
  | none => pure none
  | some source => knownFrames? <$> source.lookup (.relative address)

theorem lookupExternal_run (map : SymbolMap m) (name : Text) (address : UInt32) (files : ExternalFiles m) :
    (map.lookupExternal name address).run files =
      match map.external with
      | none => pure (none, files)
      | some support => (externalFile support map.location name).run files >>= fun found =>
        (fun frames => (frames, found.2)) <$> framesIn found.1 address := by
  rw [lookupExternal]
  cases map.external with
  | none => rfl
  | some support =>
    dsimp only
    rw [StateT.run_bind]
    refine bind_congr fun found => ?_
    cases found.1 with
    | none => simp only [framesIn, StateT.run_pure, map_pure]
    | some source => simp only [framesIn, StateT.run_map, StateT.run_monadLift, monadLift_self, bind_pure_comp,
        Functor.map_map]

theorem lookup_run (map : SymbolMap m) (a : Address) (files : ExternalFiles m) :
    (map.lookup a).run files = map.source.lookup a >>= fun
      | some ⟨symbol, some (.elsewhere name address)⟩ =>
        (fun (frames, files') => (some ⟨symbol, frames.map .known⟩, files')) <$>
          (map.lookupExternal name address).run files
      | answer => pure (answer, files) := by
  rw [lookup, StateT.run_bind]
  simp only [StateT.run_monadLift, bind_assoc, pure_bind]
  refine bind_congr fun answer => ?_
  rcases answer with _ | ⟨symbol, _ | frames | ⟨name, address⟩⟩
  · rfl
  · rfl
  · rfl
  · simp only [StateT.run_bind, StateT.run_pure, map_eq_pure_bind]

end Lawful

/-- A question to a map: about an address, or about an address in the file of a name. -/
inductive Query
  | lookup (a : Address)
  | external (name : Text) (address : UInt32)

inductive Reply
  | answer (a : Option Answer)
  | frames (frames : Option (List Frame))

def Reply.frames? : Reply → Option (List Frame)
  | answer a => knownFrames? a
  | frames found => found

def perform {m : Type → Type} [Monad m] (map : SymbolMap m) : Query → StateT (ExternalFiles m) m Reply
  | .lookup a => .answer <$> map.lookup a
  | .external name address => .frames <$> map.lookupExternal name address

def performAll {m : Type → Type} [Monad m] (map : SymbolMap m) (queries : List Query) :
    StateT (ExternalFiles m) m (List Reply) :=
  queries.mapM map.perform

/-- The map with every call of its external support recorded. -/
def recorded (map : SymbolMap (StateM σ)) : SymbolMap (StateM (Recorded σ)) :=
  ⟨map.location, map.source.silent, map.external.map ExternalSupport.recorded⟩

/-- The files that were met, seen by lookups that record nothing. -/
def silentFiles (files : ExternalFiles (StateM σ)) : ExternalFiles (StateM (Recorded σ)) :=
  files.map fun (name, file) => (name, file.map SymbolSource.silent)

/-- Between the first files and the second, files of new names were attempted, each once, by these calls. -/
def Opens (location : Text) (files files' : ExternalFiles (StateM σ)) (calls : List (Call σ)) : Prop :=
  ∃ attempts : List (Attempt σ), (attempts.map Attempt.name).Nodup ∧ (∀ a ∈ attempts, files.lookup a.name = none) ∧
    files' = (attempts.map fun a => (a.name, a.file)).reverse ++ files ∧
    calls = attempts.flatMap (Attempt.calls location)

/-- The recorded action does what the plain one does, and its calls open files of new names. -/
def Tracks {α β : Type} (location : Text) (f : α → β) (plain : StateT (ExternalFiles (StateM σ)) (StateM σ) α)
    (recorded : StateT (ExternalFiles (StateM (Recorded σ))) (StateM (Recorded σ)) β) : Prop :=
  ∀ files s calls, ∃ more, Opens location files ((plain.run files).run s).1.2 more ∧
    (recorded.run (silentFiles files)).run ⟨calls, s⟩ =
      ((f ((plain.run files).run s).1.1, silentFiles ((plain.run files).run s).1.2),
        ⟨calls ++ more, ((plain.run files).run s).2⟩)

theorem lookup_silentFiles (files : ExternalFiles (StateM σ)) (name : Text) :
    (silentFiles files).lookup name = (files.lookup name).map (Option.map SymbolSource.silent) := by
  induction files with
  | nil => rfl
  | cons entry files ih =>
    obtain ⟨other, file⟩ := entry
    change List.lookup name ((other, file.map SymbolSource.silent) :: silentFiles files) = _
    rw [List.lookup_cons, List.lookup_cons, ih]
    cases name == other <;> rfl

theorem Opens.refl (location : Text) (files : ExternalFiles (StateM σ)) : Opens location files files [] :=
  ⟨[], List.nodup_nil, fun _ ha => (List.not_mem_nil ha).elim, rfl, rfl⟩

theorem lookup_opened {attempts : List (Attempt σ)} {files : ExternalFiles (StateM σ)} {name : Text}
    (h : ((attempts.map fun a => (a.name, a.file)).reverse ++ files).lookup name = none) :
    (∀ a ∈ attempts, a.name ≠ name) ∧ files.lookup name = none := by
  rw [List.lookup_append, Option.or_eq_none_iff, List.lookup_eq_none_iff] at h
  refine ⟨fun a ha heq => ?_, h.2⟩
  have hmem : (a.name, a.file) ∈ (attempts.map fun a => (a.name, a.file)).reverse :=
    List.mem_reverse.mpr (List.mem_map_of_mem ha)
  have hne := h.1 _ hmem
  rw [heq] at hne
  simp at hne

theorem Opens.trans {files files' files'' : ExternalFiles (StateM σ)} {calls calls' : List (Call σ)}
    (h : Opens location files files' calls) (h' : Opens location files' files'' calls') :
    Opens location files files'' (calls ++ calls') := by
  obtain ⟨attempts, hnodup, hnew, rfl, rfl⟩ := h
  obtain ⟨attempts', hnodup', hnew', rfl, rfl⟩ := h'
  refine ⟨attempts ++ attempts', ?_, ?_, ?_, (List.flatMap_append ..).symm⟩
  · rw [List.map_append]
    refine hnodup.append hnodup' fun name hname hname' => ?_
    obtain ⟨a, ha, rfl⟩ := List.mem_map.mp hname
    obtain ⟨b, hb, heq⟩ := List.mem_map.mp hname'
    exact (lookup_opened (hnew' b hb)).1 a ha heq.symm
  · intro a ha
    rcases List.mem_append.mp ha with ha | ha
    · exact hnew a ha
    · exact (lookup_opened (hnew' a ha)).2
  · rw [List.map_append, List.reverse_append, List.append_assoc]

theorem Opens.lookup_eq {files files' : ExternalFiles (StateM σ)} {calls : List (Call σ)}
    (h : Opens location files files' calls) {file : Option (SymbolSource (StateM σ))}
    (hfile : files.lookup name = some file) : files'.lookup name = some file := by
  obtain ⟨attempts, -, hnew, rfl, -⟩ := h
  have hother : ((attempts.map fun a => (a.name, a.file)).reverse).lookup name = none := by
    rw [List.lookup_eq_none_iff]
    intro p hp
    obtain ⟨a, ha, rfl⟩ := List.mem_map.mp (List.mem_reverse.mp hp)
    rw [bne_iff_ne]
    rintro rfl
    cases hfile.symm.trans (hnew a ha)
  rw [List.lookup_append, hother, Option.none_or, hfile]

section Tracks

variable {α α' β β' : Type} {f : α → α'} {g : β → β'}

theorem tracks_pure (f : α → α') (a : α) : Tracks (σ := σ) location f (pure a) (pure (f a)) := by
  intro files s calls
  refine ⟨[], Opens.refl location files, ?_⟩
  rw [List.append_nil]
  rfl

theorem Tracks.bind {plain : StateT (ExternalFiles (StateM σ)) (StateM σ) α}
    {recorded : StateT (ExternalFiles (StateM (Recorded σ))) (StateM (Recorded σ)) α'}
    {next : α → StateT (ExternalFiles (StateM σ)) (StateM σ) β}
    {next' : α' → StateT (ExternalFiles (StateM (Recorded σ))) (StateM (Recorded σ)) β'}
    (h : Tracks location f plain recorded) (hnext : ∀ a, Tracks location g (next a) (next' (f a))) :
    Tracks location g (plain >>= next) (recorded >>= next') := by
  intro files s calls
  obtain ⟨more, hopens, hrun⟩ := h files s calls
  obtain ⟨more', hopens', hrun'⟩ := hnext ((plain.run files).run s).1.1 ((plain.run files).run s).1.2
    ((plain.run files).run s).2 (calls ++ more)
  refine ⟨more ++ more', hopens.trans hopens', ?_⟩
  rw [← List.append_assoc]
  refine Eq.trans ?_ hrun'
  change (let p := (recorded.run (silentFiles files)).run ⟨calls, s⟩; ((next' p.1.1).run p.1.2).run p.2) = _
  rw [hrun]

/-- What neither touches the files nor calls anybody may be left unrecorded. -/
theorem tracks_silent (act : StateM σ α) :
    Tracks (σ := σ) location id (liftM act) (liftM (Recorded.silent act)) := by
  intro files s calls
  refine ⟨[], Opens.refl location files, ?_⟩
  rw [List.append_nil]
  rfl

theorem tracks_externalFile (support : ExternalSupport (StateM σ)) (location name : Text) :
    Tracks location (Option.map SymbolSource.silent) (externalFile support location name)
      (externalFile support.recorded location name) := by
  intro files s calls
  rw [externalFile_run, externalFile_run, lookup_silentFiles]
  cases hfile : files.lookup name with
  | some file =>
    refine ⟨[], Opens.refl location files, ?_⟩
    rw [List.append_nil]
    rfl
  | none =>
    have hname := Attempt.name_make support location name s
    have hopens : Opens location files ((name, (Attempt.make support location name s).1.file) :: files)
        ((Attempt.make support location name s).1.calls location) := by
      refine ⟨[(Attempt.make support location name s).1], List.nodup_singleton _, ?_, ?_, ?_⟩
      · intro a ha
        rw [List.mem_singleton.mp ha, hname, hfile]
      · rw [List.map_singleton, hname]
        rfl
      · rw [List.flatMap_singleton]
    simp only [Option.map_none, StateT.run_map]
    rw [run_openExternal_recorded, run_openExternal]
    exact ⟨_, hopens, rfl⟩

theorem tracks_lookupExternal (map : SymbolMap (StateM σ)) (name : Text) (address : UInt32) :
    Tracks map.location id (map.lookupExternal name address) (map.recorded.lookupExternal name address) := by
  rw [lookupExternal, lookupExternal, recorded]
  cases map.external with
  | none => exact tracks_pure id none
  | some support =>
    refine (tracks_externalFile support map.location name).bind fun file => ?_
    cases file with
    | none => exact tracks_pure id none
    | some source =>
      change Tracks map.location id (knownFrames? <$> liftM (source.lookup (.relative address)))
        (knownFrames? <$> liftM (Recorded.silent (source.lookup (.relative address))))
      rw [map_eq_pure_bind, map_eq_pure_bind]
      exact (tracks_silent _).bind fun answer => tracks_pure id _

theorem tracks_lookup (map : SymbolMap (StateM σ)) (a : Address) :
    Tracks map.location id (map.lookup a) (map.recorded.lookup a) := by
  refine (tracks_silent (map.source.lookup a)).bind fun answer => ?_
  rcases answer with _ | ⟨symbol, _ | frames | ⟨name, address⟩⟩
  · exact tracks_pure id _
  · exact tracks_pure id _
  · exact tracks_pure id _
  · exact (tracks_lookupExternal map name address).bind fun frames => tracks_pure id _

theorem tracks_perform (map : SymbolMap (StateM σ)) (q : Query) :
    Tracks map.location id (map.perform q) (map.recorded.perform q) := by
  cases q with
  | lookup a =>
    rw [perform, perform, map_eq_pure_bind, map_eq_pure_bind]
    exact (tracks_lookup map a).bind fun answer => tracks_pure id _
  | external name address =>
    rw [perform, perform, map_eq_pure_bind, map_eq_pure_bind]
    exact (tracks_lookupExternal map name address).bind fun frames => tracks_pure id _

/-- Whatever is asked, the calls are those of one attempt for each name at most. -/
theorem tracks_performAll (map : SymbolMap (StateM σ)) (queries : List Query) :
    Tracks map.location id (map.performAll queries) (map.recorded.performAll queries) := by
  rw [performAll, performAll]
  induction queries with
  | nil => exact tracks_pure id []
  | cons q queries ih =>
    rw [List.mapM_cons, List.mapM_cons]
    exact (tracks_perform map q).bind fun reply => ih.bind fun replies => tracks_pure id (reply :: replies)

end Tracks

end SymbolMap

end CodeAtlas
