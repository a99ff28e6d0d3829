import CodeAtlas.Permalink.Memo

namespace CodeAtlas.Permalink.Memo

variable {α β σ : Type}

theorem run_resolve (ask : Text → StateM σ (Option Permalink)) (path : Text) (m : Memo) (s : σ) :
    ((resolve ask path).run m).run s = match m.answers.lookup path with
      | some known => ((known, m), s)
      | none =>
        let (found, s') := (ask path).run s
        ((found.or (ofRustc? path), ⟨(path, found.or (ofRustc? path)) :: m.answers⟩), s') := by
  rw [resolve, StateT.run_bind]
  simp only [StateT.run_get, pure_bind, Option.orElse_eq_orElse, Option.orElse_eq_or]
  cases m.answers.lookup path with
  | some known => rfl
  | none => rfl

variable {answer : Text → Option Permalink}

/-- Every answer that is kept, an absent one too, is the one that would be given now. -/
def Faithful (m : Memo) (answer : Text → Option Permalink) : Prop :=
  ∀ path found, m.answers.lookup path = some found → found = answer path

theorem faithful_empty (answer : Text → Option Permalink) : empty.Faithful answer := by
  intro path found h
  cases h

theorem Faithful.keep {m : Memo} (h : m.Faithful answer) (path : Text) :
    Memo.Faithful ⟨(path, answer path) :: m.answers⟩ answer := by
  intro other found hfound
  rw [List.lookup_cons] at hfound
  by_cases he : other = path
  · subst he
    simpa using hfound.symm
  · rw [beq_false_of_ne he] at hfound
    exact h other found hfound

/-- From every faithful memo the action comes to this value, and to a faithful memo again. -/
def Settles (answer : Text → Option Permalink) (act : StateM Memo α) (a : α) : Prop :=
  ∀ m, m.Faithful answer → (act.run m).1 = a ∧ (act.run m).2.Faithful answer

theorem settles_pure (a : α) : Settles answer (pure a) a := fun _ hm => ⟨rfl, hm⟩

theorem Settles.bind {act : StateM Memo α} {f : α → StateM Memo β} {a : α} {b : β} (h : Settles answer act a)
    (hf : Settles answer (f a) b) : Settles answer (act >>= f) b := by
  intro m hm
  obtain ⟨hvalue, hmemo⟩ := h m hm
  have hrun : (act >>= f).run m = (f (act.run m).1).run (act.run m).2 := rfl
  rw [hrun, hvalue]
  exact hf _ hmemo

theorem settles_mapM {f : α → StateM Memo β} {g : α → β} (h : ∀ x, Settles answer (f x) (g x)) (xs : List α) :
    Settles answer (xs.mapM f) (xs.map g) := by
  induction xs with
  | nil => exact settles_pure []
  | cons x xs ih =>
    rw [List.mapM_cons, List.map_cons]
    exact (h x).bind (ih.bind (settles_pure _))

end CodeAtlas.Permalink.Memo
