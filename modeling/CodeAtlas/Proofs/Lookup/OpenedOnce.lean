import CodeAtlas.Proofs.Lookup.ExternalFiles
import Mathlib.Data.List.Induction

namespace CodeAtlas

variable {σ : Type}

namespace Call

def looksFor (name : Text) : Call σ → Bool
  | locate _ other _ => other == name
  | _ => false

def isLoad : Call σ → Bool
  | load _ _ => true
  | _ => false

def isParse : Call σ → Bool
  | parse _ _ => true
  | _ => false

end Call

namespace SymbolMap

/-- What is left once a new map was asked the queries: the replies, the files that are kept, and the state. -/
def after (map : SymbolMap (StateM σ)) (queries : List Query) (s : σ) :
    (List Reply × ExternalFiles (StateM σ)) × σ := ((map.performAll queries).run []).run s

def replies (map : SymbolMap (StateM σ)) (queries : List Query) (s : σ) : List Reply := (map.after queries s).1.1

def files (map : SymbolMap (StateM σ)) (queries : List Query) (s : σ) : ExternalFiles (StateM σ) :=
  (map.after queries s).1.2

def state (map : SymbolMap (StateM σ)) (queries : List Query) (s : σ) : σ := (map.after queries s).2

/-- The calls that a new map makes while it is asked the queries. -/
def calls (map : SymbolMap (StateM σ)) (queries : List Query) (s : σ) : List (Call σ) :=
  (((map.recorded.performAll queries).run []).run ⟨[], s⟩).2.calls

/-- The name of a file and the address in it that a query comes to. -/
def reference (map : SymbolMap (StateM σ)) : Query → StateM σ (Option (Text × UInt32))
  | .external name address => pure (some (name, address))
  | .lookup a => (fun answer =>
      match answer.bind (·.frames) with
      | some (.elsewhere name address) => some (name, address)
      | _ => none) <$> map.source.lookup a

/-- Each name is looked for once, when a query first comes to it, and what came of that answers every query. -/
structure OpensOnce (map : SymbolMap (StateM σ)) (s : σ) : Prop where
  /-- To record the calls changes neither the replies nor the state. -/
  faithful : ∀ queries, ((map.recorded.performAll queries).run []).run ⟨[], s⟩ =
    ((map.replies queries s, silentFiles (map.files queries s)), ⟨map.calls queries s, map.state queries s⟩)
  located : ∀ queries name, (map.calls queries s).countP (Call.looksFor name) ≤ 1
  /-- The calls are those of one attempt for each name that is kept. -/
  attempts : ∀ queries, ∃ attempts : List (Attempt σ), (attempts.map Attempt.name).Nodup ∧
    map.calls queries s = attempts.flatMap (Attempt.calls map.location) ∧
    map.files queries s = (attempts.map fun a => (a.name, a.file)).reverse ∧
    ∀ a ∈ attempts, (a.calls map.location).countP (Call.looksFor a.name) = 1 ∧
      (a.calls map.location).countP Call.isLoad ≤ 1 ∧ (a.calls map.location).countP Call.isParse ≤ 1
  kept : ∀ queries more name file, (map.files queries s).lookup name = some file →
    (map.files (queries ++ more) s).lookup name = some file
  /-- A name that was not met before leads to an attempt, whose outcome is kept and answers. -/
  first : ∀ queries q name address s₁ support, map.external = some support →
    (map.reference q).run (map.state queries s) = (some (name, address), s₁) →
    (map.files queries s).lookup name = none →
    let attempt := Attempt.make support map.location name s₁
    map.calls (queries ++ [q]) s = map.calls queries s ++ attempt.1.calls map.location ∧
    map.files (queries ++ [q]) s = (name, attempt.1.file) :: map.files queries s ∧
    ∃ reply, map.replies (queries ++ [q]) s = map.replies queries s ++ [reply] ∧
      (framesIn attempt.1.file address).run attempt.2 = (reply.frames?, map.state (queries ++ [q]) s)
  /-- A name that was met before leads to no call, and the state changes only as its file is asked. -/
  again : ∀ queries q name address s₁ support file, map.external = some support →
    (map.reference q).run (map.state queries s) = (some (name, address), s₁) →
    (map.files queries s).lookup name = some file →
    map.calls (queries ++ [q]) s = map.calls queries s ∧ map.files (queries ++ [q]) s = map.files queries s ∧
    ∃ reply, map.replies (queries ++ [q]) s = map.replies queries s ++ [reply] ∧
      (framesIn file address).run s₁ = (reply.frames?, map.state (queries ++ [q]) s)
  /-- Without external support there are no calls, and nothing is known of other files. -/
  unsupported : map.external = none → ∀ queries, map.calls queries s = [] ∧ map.files queries s = [] ∧
    ∀ q name address s₁, (map.reference q).run (map.state queries s) = (some (name, address), s₁) →
      ∃ reply, map.replies (queries ++ [q]) s = map.replies queries s ++ [reply] ∧ reply.frames? = none
  /-- The symbol is that of the source, and frames are never to be looked up elsewhere. -/
  resolved : ∀ a files, (((map.lookup a).run files).run s).1.1.map Answer.symbol =
      ((map.source.lookup a).run s).1.map Answer.symbol ∧
    ∀ answer, (((map.lookup a).run files).run s).1.1 = some answer →
      ∀ name address, answer.frames ≠ some (.elsewhere name address)

variable (map : SymbolMap (StateM σ))

theorem run_performAll_append (queries more : List Query) (files : ExternalFiles (StateM σ)) (s : σ) :
    ((map.performAll (queries ++ more)).run files).run s =
      let first := ((map.performAll queries).run files).run s
      let rest := ((map.performAll more).run first.1.2).run first.2
      ((first.1.1 ++ rest.1.1, rest.1.2), rest.2) := by
  rw [performAll, List.mapM_append]
  rfl

theorem after_concat (queries : List Query) (q : Query) (s : σ) :
    map.after (queries ++ [q]) s =
      let done := ((map.perform q).run (map.files queries s)).run (map.state queries s)
      ((map.replies queries s ++ [done.1.1], done.1.2), done.2) := by
  rw [after, run_performAll_append]
  rfl

theorem opens_files (queries : List Query) (s : σ) :
    Opens map.location [] (map.files queries s) (map.calls queries s) ∧
      ((map.recorded.performAll queries).run []).run ⟨[], s⟩ =
        ((map.replies queries s, silentFiles (map.files queries s)), ⟨map.calls queries s, map.state queries s⟩) := by
  obtain ⟨more, hopens, hrun⟩ := map.tracks_performAll queries [] s []
  have hcalls : map.calls queries s = more := by
    change (((map.recorded.performAll queries).run (silentFiles [])).run ⟨[], s⟩).2.calls = more
    rw [hrun]
    rfl
  rw [hcalls]
  exact ⟨hopens, hrun⟩

theorem frames?_answer (symbol : Symbol) (frames : Option (List Frame)) :
    (Reply.answer (some ⟨symbol, frames.map .known⟩)).frames? = frames := by
  cases frames <;> rfl

/-- To come to a name is to look up an address in its file. -/
theorem run_perform_of_reference {map : SymbolMap (StateM σ)} {q : Query} {s s' : σ} {name : Text}
    {address : UInt32} (h : (map.reference q).run s = (some (name, address), s'))
    (files : ExternalFiles (StateM σ)) :
    ∃ reply : Reply, reply.frames? = (((map.lookupExternal name address).run files).run s').1.1 ∧
      ((map.perform q).run files).run s =
        ((reply, (((map.lookupExternal name address).run files).run s').1.2),
          (((map.lookupExternal name address).run files).run s').2) := by
  cases q with
  | external other address' =>
    cases h
    exact ⟨_, rfl, rfl⟩
  | lookup a =>
    rw [reference, StateT.run_map] at h
    rw [perform, StateT.run_map, lookup_run]
    cases hanswer : (map.source.lookup a).run s with
    | mk answer s₁ =>
      rw [hanswer] at h
      rw [StateT.run_map, StateT.run_bind, hanswer]
      rcases answer with _ | ⟨symbol, _ | frames | ⟨other, address'⟩⟩
      · cases h
      · cases h
      · cases h
      · cases h
        exact ⟨.answer (some ⟨symbol, (((map.lookupExternal name address).run files).run s₁).1.1.map .known⟩),
          frames?_answer symbol _, rfl⟩

theorem files_perform_of_no_reference {map : SymbolMap (StateM σ)} {q : Query} {s s' : σ}
    (h : (map.reference q).run s = (none, s')) (files : ExternalFiles (StateM σ)) :
    (((map.perform q).run files).run s).1.2 = files := by
  cases q with
  | external other address' => cases h
  | lookup a =>
    rw [reference, StateT.run_map] at h
    rw [perform, StateT.run_map, lookup_run]
    cases hanswer : (map.source.lookup a).run s with
    | mk answer s₁ =>
      rw [hanswer] at h
      rw [StateT.run_map, StateT.run_bind, hanswer]
      rcases answer with _ | ⟨symbol, _ | frames | ⟨other, address'⟩⟩
      · rfl
      · rfl
      · rfl
      · cases h

theorem run_lookupExternal_of_lookup {map : SymbolMap (StateM σ)} {support : ExternalSupport (StateM σ)}
    (hsupport : map.external = some support) {files : ExternalFiles (StateM σ)} {name : Text}
    {file : Option (SymbolSource (StateM σ))} (hfile : files.lookup name = some file) (address : UInt32) (s : σ) :
    ((map.lookupExternal name address).run files).run s =
      ((((framesIn file address).run s).1, files), ((framesIn file address).run s).2) := by
  rw [lookupExternal_run, hsupport]
  dsimp only
  rw [externalFile_run, hfile]
  rfl

theorem run_lookupExternal_of_new {map : SymbolMap (StateM σ)} {support : ExternalSupport (StateM σ)}
    (hsupport : map.external = some support) {files : ExternalFiles (StateM σ)} {name : Text}
    (hfile : files.lookup name = none) (address : UInt32) (s : σ) :
    ((map.lookupExternal name address).run files).run s =
      let opened := (openExternal support map.location name).run s
      let found := (framesIn opened.1 address).run opened.2
      ((found.1, (name, opened.1) :: files), found.2) := by
  rw [lookupExternal_run, hsupport]
  dsimp only
  rw [externalFile_run, hfile]
  rfl

/-- To ask a file that is open calls nobody. -/
theorem calls_framesIn (file : Option (SymbolSource (StateM σ))) (address : UInt32) (w : Recorded σ) :
    ((framesIn (file.map SymbolSource.silent) address).run w).2.calls = w.calls := by
  cases file <;> rfl

theorem run_reference_recorded {map : SymbolMap (StateM σ)} {q : Query} {s s' : σ} {found : Option (Text × UInt32)}
    (h : (map.reference q).run s = (found, s')) (calls : List (Call σ)) :
    (map.recorded.reference q).run ⟨calls, s⟩ = (found, ⟨calls, s'⟩) := by
  cases q with
  | external name address =>
    cases h
    rfl
  | lookup a =>
    rw [reference, StateT.run_map] at h
    rw [reference, StateT.run_map]
    cases h
    rfl

theorem run_lookupExternal_of_none {map : SymbolMap (StateM σ)} (h : map.external = none)
    (files : ExternalFiles (StateM σ)) (name : Text) (address : UInt32) (s : σ) :
    ((map.lookupExternal name address).run files).run s = ((none, files), s) := by
  rw [lookupExternal_run, h]
  rfl

/-- The symbol is that of the source, and frames are never to be looked up elsewhere. -/
theorem lookup_resolved (map : SymbolMap (StateM σ)) (a : Address) (files : ExternalFiles (StateM σ)) (s : σ) :
    (((map.lookup a).run files).run s).1.1.map Answer.symbol = ((map.source.lookup a).run s).1.map Answer.symbol ∧
      ∀ answer, (((map.lookup a).run files).run s).1.1 = some answer →
        ∀ name address, answer.frames ≠ some (.elsewhere name address) := by
  rw [lookup_run, StateT.run_bind]
  cases (map.source.lookup a).run s with
  | mk found s₁ =>
    rcases found with _ | ⟨symbol, _ | frames | ⟨name, address⟩⟩
    · refine ⟨rfl, fun answer h => ?_⟩
      cases h
    · refine ⟨rfl, fun answer h => ?_⟩
      cases h
      nofun
    · refine ⟨rfl, fun answer h => ?_⟩
      cases h
      nofun
    · refine ⟨rfl, fun answer h other address' heq => ?_⟩
      cases h
      dsimp only at heq
      obtain ⟨frames, -, hframes⟩ := Option.map_eq_some_iff.mp heq
      cases hframes

theorem Opens.calls_eq_nil {location : Text} {files : ExternalFiles (StateM σ)} {calls : List (Call σ)}
    (h : Opens location files files calls) : calls = [] := by
  obtain ⟨attempts, -, -, hfiles, rfl⟩ := h
  have hlength := congrArg List.length hfiles
  rw [List.length_append, List.length_reverse, List.length_map] at hlength
  have hnil : attempts = [] := List.length_eq_zero_iff.mp (by omega)
  rw [hnil]
  rfl

theorem opens_append (map : SymbolMap (StateM σ)) (queries more : List Query) (s : σ) :
    ∃ calls, Opens map.location (map.files queries s) (map.files (queries ++ more) s) calls ∧
      map.calls (queries ++ more) s = map.calls queries s ++ calls := by
  obtain ⟨calls, hopens, hrun⟩ := map.tracks_performAll more (map.files queries s) (map.state queries s)
    (map.calls queries s)
  refine ⟨calls, ?_, ?_⟩
  · have hfiles : map.files (queries ++ more) s =
        (((map.performAll more).run (map.files queries s)).run (map.state queries s)).1.2 := by
      rw [files, after, run_performAll_append]
      rfl
    rw [hfiles]
    exact hopens
  · rw [SymbolMap.calls, run_performAll_append, (map.opens_files queries s).2]
    dsimp only
    rw [hrun]

theorem calls_concat_of_new (map : SymbolMap (StateM σ)) {support : ExternalSupport (StateM σ)}
    (hsupport : map.external = some support) {queries : List Query} {q : Query} {name : Text} {address : UInt32}
    {s s' : σ} (href : (map.reference q).run (map.state queries s) = (some (name, address), s'))
    (hfile : (map.files queries s).lookup name = none) :
    map.calls (queries ++ [q]) s =
      map.calls queries s ++ (Attempt.make support map.location name s').1.calls map.location := by
  have hrecorded : map.recorded.external = some support.recorded := by rw [recorded, hsupport, Option.map_some]
  have hnew : (silentFiles (map.files queries s)).lookup name = none := by
    rw [lookup_silentFiles, hfile, Option.map_none]
  obtain ⟨reply, -, hrun⟩ :=
    run_perform_of_reference (run_reference_recorded href (map.calls queries s)) (silentFiles (map.files queries s))
  rw [run_lookupExternal_of_new hrecorded hnew, run_openExternal_recorded] at hrun
  rw [calls, run_performAll_append, (map.opens_files queries s).2]
  dsimp only
  change (((map.recorded.perform q).run (silentFiles (map.files queries s))).run
    ⟨map.calls queries s, map.state queries s⟩).2.calls = _
  rw [hrun]
  exact calls_framesIn _ address _

theorem files_eq_nil {map : SymbolMap (StateM σ)} (h : map.external = none) (queries : List Query) (s : σ) :
    map.files queries s = [] := by
  induction queries using List.reverseRecOn with
  | nil => rfl
  | append_singleton queries q ih =>
    rw [files, after_concat]
    dsimp only
    cases href : (map.reference q).run (map.state queries s) with
    | mk found s₁ =>
      cases found with
      | none => rw [files_perform_of_no_reference href, ih]
      | some place =>
        obtain ⟨reply, -, hrun⟩ := run_perform_of_reference href (map.files queries s)
        rw [hrun, run_lookupExternal_of_none h]
        exact ih

theorem countP_looksFor_calls (location name : Text) (a : Attempt σ) :
    (a.calls location).countP (Call.looksFor name) = [a.name].count name := by
  rw [List.count_singleton]
  cases a <;> simp [Attempt.calls, Attempt.name, Call.looksFor, List.countP_cons]

theorem countP_looksFor (location name : Text) (attempts : List (Attempt σ)) :
    (attempts.flatMap (Attempt.calls location)).countP (Call.looksFor name) =
      (attempts.map Attempt.name).count name := by
  induction attempts with
  | nil => rfl
  | cons a attempts ih =>
    rw [List.flatMap_cons, List.countP_append, ih, countP_looksFor_calls, ← List.count_append]
    rfl

theorem countP_isLoad_calls (location : Text) (a : Attempt σ) : (a.calls location).countP Call.isLoad ≤ 1 := by
  cases a <;> simp [Attempt.calls, Call.isLoad, List.countP_cons]

theorem countP_isParse_calls (location : Text) (a : Attempt σ) : (a.calls location).countP Call.isParse ≤ 1 := by
  cases a <;> simp [Attempt.calls, Call.isParse, List.countP_cons]

theorem opensOnce (map : SymbolMap (StateM σ)) (s : σ) : map.OpensOnce s where
  faithful queries := (map.opens_files queries s).2
  located queries name := by
    obtain ⟨⟨attempts, hnodup, -, -, hcalls⟩, -⟩ := map.opens_files queries s
    rw [hcalls, countP_looksFor]
    exact List.nodup_iff_count_le_one.mp hnodup name
  attempts queries := by
    obtain ⟨⟨attempts, hnodup, -, hfiles, hcalls⟩, -⟩ := map.opens_files queries s
    refine ⟨attempts, hnodup, hcalls, hfiles.trans (List.append_nil _), fun a _ => ⟨?_, ?_, ?_⟩⟩
    · rw [countP_looksFor_calls, List.count_singleton_self]
    · exact countP_isLoad_calls map.location a
    · exact countP_isParse_calls map.location a
  kept queries more name file hfile := by
    obtain ⟨calls, hopens, -⟩ := map.opens_append queries more s
    exact hopens.lookup_eq hfile
  first queries q name address s₁ support hsupport href hfile := by
    obtain ⟨reply, hframes, hrun⟩ := run_perform_of_reference href (map.files queries s)
    rw [run_lookupExternal_of_new hsupport hfile, run_openExternal] at hframes hrun
    refine ⟨map.calls_concat_of_new hsupport href hfile, ?_, reply, ?_, ?_⟩
    · rw [files, after_concat, hrun]
    · rw [replies, after_concat, hrun]
    · rw [state, after_concat, hrun, hframes]
      rfl
  again queries q name address s₁ support file hsupport href hfile := by
    obtain ⟨reply, hframes, hrun⟩ := run_perform_of_reference href (map.files queries s)
    rw [run_lookupExternal_of_lookup hsupport hfile] at hframes hrun
    have hfiles : map.files (queries ++ [q]) s = map.files queries s := by
      rw [files, after_concat, hrun]
    -- Calls come only with new files, and there are none.
    obtain ⟨calls, hopens, hcalls⟩ := map.opens_append queries [q] s
    rw [hfiles] at hopens
    refine ⟨?_, hfiles, reply, ?_, ?_⟩
    · rw [hcalls, hopens.calls_eq_nil, List.append_nil]
    · rw [replies, after_concat, hrun]
    · rw [state, after_concat, hrun, hframes]
      rfl
  unsupported h queries := by
    have hfiles := files_eq_nil h queries s
    have hopens := (map.opens_files queries s).1
    rw [hfiles] at hopens
    refine ⟨hopens.calls_eq_nil, hfiles, fun q name address s₁ href => ?_⟩
    obtain ⟨reply, hframes, hrun⟩ := run_perform_of_reference href (map.files queries s)
    rw [run_lookupExternal_of_none h] at hframes hrun
    refine ⟨reply, ?_, hframes⟩
    rw [replies, after_concat, hrun]
  resolved a files := lookup_resolved map a files s

end SymbolMap

end CodeAtlas
