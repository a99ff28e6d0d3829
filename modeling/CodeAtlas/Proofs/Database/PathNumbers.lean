import CodeAtlas.Database.FunctionTable

namespace CodeAtlas.Database.PathTable

variable {α β γ : Type}

/-- Every number keeps its path. -/
def Within (t later : PathTable) : Prop := ∀ i path, t.get? i = some path → later.get? i = some path

theorem Within.refl (t : PathTable) : t.Within t := fun _ _ h => h

theorem Within.trans {t u v : PathTable} (htu : t.Within u) (huv : u.Within v) : t.Within v :=
  fun i path h => huv i path (htu i path h)

theorem within_push (t : PathTable) (path : Text) : t.Within ⟨t.paths.push path⟩ := by
  intro i other h
  obtain ⟨hi, -⟩ := Array.getElem?_eq_some_iff.mp h
  rw [get?, Array.getElem?_push, if_neg (by omega)]
  exact h

/-- Numbers that are handed out keep their paths, and what comes out means this, read with the table that is left or
with any later one. -/
def Denotes (act : StateM PathTable α) (meaning : PathTable → α → Prop) : Prop :=
  ∀ t, t.Within (act.run t).2 ∧ ∀ later, (act.run t).2.Within later → meaning later (act.run t).1

theorem denotes_pure {a : α} {meaning : PathTable → α → Prop} (h : ∀ t, meaning t a) : Denotes (pure a) meaning :=
  fun t => ⟨Within.refl t, fun later _ => h later⟩

theorem Denotes.bind {act : StateM PathTable α} {f : α → StateM PathTable β} {meaning : PathTable → α → Prop}
    {result : PathTable → β → Prop} (h : Denotes act meaning)
    (hf : ∀ a, Denotes (f a) fun t b => meaning t a → result t b) : Denotes (act >>= f) result := by
  intro t
  obtain ⟨hgrows, hmeaning⟩ := h t
  obtain ⟨hgrows', hresult⟩ := hf (act.run t).1 (act.run t).2
  refine ⟨hgrows.trans hgrows', fun later hlater => ?_⟩
  exact hresult later hlater (hmeaning later (hgrows'.trans hlater))

theorem Denotes.map {act : StateM PathTable α} {f : α → β} {meaning : PathTable → α → Prop}
    {result : PathTable → β → Prop} (h : Denotes act meaning) (hf : ∀ t a, meaning t a → result t (f a)) :
    Denotes (f <$> act) result := by
  intro t
  obtain ⟨hgrows, hmeaning⟩ := h t
  exact ⟨hgrows, fun later hlater => hf later _ (hmeaning later hlater)⟩

theorem denotes_mapM {f : α → StateM PathTable β} {view : PathTable → β → γ} {g : α → γ}
    (h : ∀ x, Denotes (f x) fun t b => view t b = g x) (xs : List α) :
    Denotes (xs.mapM f) fun t bs => bs.map (view t) = xs.map g := by
  induction xs with
  | nil => exact denotes_pure fun t => rfl
  | cons x xs ih =>
    rw [List.mapM_cons]
    refine (h x).bind fun b => ih.bind fun bs => denotes_pure fun t hbs hb => ?_
    rw [List.map_cons, List.map_cons, hb, hbs]

theorem denotes_intern (path : Text) : Denotes (intern path) fun t i => t.get? i = some path := by
  intro t
  cases h : t.paths.idxOf? path with
  | some i =>
    have hrun : (intern path).run t = (i, t) := by simp only [intern, StateT.run, h]
    rw [hrun]
    refine ⟨Within.refl t, fun later hlater => hlater i path ?_⟩
    rw [Array.idxOf?_eq_map_finIdxOf?_val] at h
    obtain ⟨j, hj, rfl⟩ := Option.map_eq_some_iff.mp h
    have hpath := (Array.finIdxOf?_eq_some_iff.mp hj).1
    rw [get?, Array.getElem?_eq_getElem j.isLt]
    exact congrArg some hpath
  | none =>
    have hrun : (intern path).run t = (t.paths.size, ⟨t.paths.push path⟩) := by simp only [intern, StateT.run, h]
    rw [hrun]
    refine ⟨within_push t path, fun later hlater => hlater _ path ?_⟩
    rw [get?, Array.getElem?_push, if_pos rfl]

end CodeAtlas.Database.PathTable

namespace CodeAtlas.Database

/-- The path that the checksum at `file` of a module belongs to. -/
def recordedPath? (strings : Option Strings) (files : List (UInt32 × UInt32)) (file : UInt32) : Option Text :=
  strings.bind fun s => (files.lookup file).bind s.get?

structure SourceSpan where
  start : UInt32
  stop : UInt32
  line : UInt32
  path : Option Text

def LineSpan.source (t : PathTable) (s : LineSpan) : SourceSpan := ⟨s.start, s.stop, s.line, s.file.bind t.get?⟩

def LineRecord.source (path? : UInt32 → Option Text) (r : LineRecord) : SourceSpan :=
  ⟨r.start, r.stop, r.line, path? r.file⟩

namespace FunctionTable

open PathTable

theorem denotes_pathNumber (strings : Option Strings) (files : List (UInt32 × UInt32)) (file : UInt32) :
    Denotes (pathNumber strings files file) fun t n => n.bind t.get? = recordedPath? strings files file := by
  rw [pathNumber, ← recordedPath?]
  cases recordedPath? strings files file with
  | none => exact denotes_pure fun t => rfl
  | some path => exact (denotes_intern path).map fun t i hi => hi

theorem denotes_lineSpan (strings : Option Strings) (files : List (UInt32 × UInt32)) (r : LineRecord) :
    Denotes (lineSpan (pathNumber strings files) r) fun t s =>
      s.source t = r.source (recordedPath? strings files) := by
  refine (denotes_pathNumber strings files r.file).bind fun n => denotes_pure fun t hn => ?_
  rw [LineSpan.source, hn, LineRecord.source]

end FunctionTable

end CodeAtlas.Database
