import CodeAtlas.Proofs.Permalink.Memo
import Mathlib.Data.List.Forall2
import Mathlib.Data.List.Induction
import Mathlib.Data.List.Nodup

namespace CodeAtlas.Permalink.Memo

variable {σ : Type}

/-- A path that was put to someone, and the reply. -/
structure Question where
  path : Text
  reply : Option Permalink

/-- A path without a reply is answered as a path of the Rust toolchain. -/
def Question.answer (q : Question) : Option Permalink := q.reply.or (ofRustc? q.path)

/-- Asks as before, and writes the question down with its reply. -/
def recorded (ask : Text → StateM σ (Option Permalink)) (path : Text) :
    StateM (List Question × σ) (Option Permalink) := fun w =>
  let (reply, s) := (ask path).run w.2
  (reply, (w.1 ++ [⟨path, reply⟩], s))

theorem run_recorded (ask : Text → StateM σ (Option Permalink)) (path : Text) (w : List Question × σ) :
    (recorded ask path).run w =
      let (reply, s) := (ask path).run w.2
      (reply, (w.1 ++ [⟨path, reply⟩], s)) := rfl

/-- Puts one path after another, and remembers nothing. -/
def askAll (ask : Text → StateM σ (Option Permalink)) (paths : List Text) : StateM σ (List Question) :=
  paths.mapM fun path => Question.mk path <$> ask path

/-- What a new memo is left with after the paths: the answers, what is kept, and the state of the one who is asked. -/
def after (ask : Text → StateM σ (Option Permalink)) (paths : List Text) (s : σ) :
    (List (Option Permalink) × Memo) × σ := ((paths.mapM (resolve ask)).run .empty).run s

def given (ask : Text → StateM σ (Option Permalink)) (paths : List Text) (s : σ) : List (Option Permalink) :=
  (after ask paths s).1.1

def kept (ask : Text → StateM σ (Option Permalink)) (paths : List Text) (s : σ) : Memo := (after ask paths s).1.2

def state (ask : Text → StateM σ (Option Permalink)) (paths : List Text) (s : σ) : σ := (after ask paths s).2

/-- The questions that are put while a new memo resolves the paths. -/
def questions (ask : Text → StateM σ (Option Permalink)) (paths : List Text) (s : σ) : List Question :=
  (after (recorded ask) paths ([], s)).2.1

/-- Each path is asked about where it first occurs and never again, and every occurrence gets the first answer. -/
structure AsksOnce (ask : Text → StateM σ (Option Permalink)) (s : σ) : Prop where
  /-- To record the questions changes neither the answers nor the state. -/
  faithful : ∀ paths, after (recorded ask) paths ([], s) =
    ((given ask paths s, kept ask paths s), (questions ask paths s, state ask paths s))
  /-- The questions are those of asking about the distinct paths, in the order in which they first occur. -/
  asked : ∀ paths, (askAll ask paths.eraseDups).run s = (questions ask paths s, state ask paths s)
  paths_eq : ∀ paths, (questions ask paths s).map Question.path = paths.eraseDups
  answered : ∀ paths, List.Forall₂ (fun path answer => ∃ q ∈ questions ask paths s, q.path = path ∧ q.answer = answer)
    paths (given ask paths s)
  same : ∀ paths (i j : Nat), paths[i]? = paths[j]? → (given ask paths s)[i]? = (given ask paths s)[j]?
  size_eq : ∀ paths, (kept ask paths s).size = paths.eraseDups.length
  /-- At its first occurrence a path is asked about, in the state that the questions before it have left. -/
  first : ∀ paths path, path ∉ paths →
    let (reply, s') := (ask path).run (state ask paths s)
    questions ask (paths ++ [path]) s = questions ask paths s ++ [⟨path, reply⟩] ∧
      given ask (paths ++ [path]) s = given ask paths s ++ [reply.or (ofRustc? path)] ∧
      state ask (paths ++ [path]) s = s'
  /-- A path that occurred before leads to no question, and the state stays. -/
  again : ∀ paths path, path ∈ paths → questions ask (paths ++ [path]) s = questions ask paths s ∧
    (∃ answer, given ask (paths ++ [path]) s = given ask paths s ++ [answer]) ∧
    state ask (paths ++ [path]) s = state ask paths s

theorem eraseDups_concat_of_mem {paths : List Text} {path : Text} (h : path ∈ paths) :
    (paths ++ [path]).eraseDups = paths.eraseDups := by
  rw [List.eraseDups_append]
  simp [List.removeAll, h]

theorem eraseDups_concat_of_notMem {paths : List Text} {path : Text} (h : path ∉ paths) :
    (paths ++ [path]).eraseDups = paths.eraseDups ++ [path] := by
  rw [List.eraseDups_append]
  simp [List.removeAll, h, List.eraseDups_cons]

theorem nodup_eraseDups (paths : List Text) : paths.eraseDups.Nodup := by
  induction paths using List.reverseRecOn with
  | nil => exact List.nodup_nil
  | append_singleton paths path ih =>
    by_cases hmem : path ∈ paths
    · rw [eraseDups_concat_of_mem hmem]
      exact ih
    · rw [eraseDups_concat_of_notMem hmem, ← List.concat_eq_append]
      exact ih.concat (mt List.mem_eraseDups.mp hmem)

theorem after_concat (ask : Text → StateM σ (Option Permalink)) (paths : List Text) (path : Text) (s : σ) :
    after ask (paths ++ [path]) s =
      let one := ((resolve ask path).run (kept ask paths s)).run (state ask paths s)
      ((given ask paths s ++ [one.1.1], one.1.2), one.2) := by
  rw [after, List.mapM_append]
  rfl

theorem run_askAll_concat (ask : Text → StateM σ (Option Permalink)) (paths : List Text) (path : Text) (s : σ) :
    (askAll ask (paths ++ [path])).run s =
      let before := (askAll ask paths).run s
      let one := (ask path).run before.2
      (before.1 ++ [⟨path, one.1⟩], one.2) := by
  rw [askAll, List.mapM_append]
  rfl

/-- The memo that keeps the answers to the questions. -/
def keeping (qs : List Question) : Memo := ⟨(qs.map fun q => (q.path, q.answer)).reverse⟩

theorem size_keeping (qs : List Question) : (keeping qs).size = qs.length := by
  rw [keeping, size, List.length_reverse, List.length_map]

theorem keeping_concat (qs : List Question) (q : Question) :
    keeping (qs ++ [q]) = ⟨(q.path, q.answer) :: (keeping qs).answers⟩ := by
  rw [keeping, List.map_append, List.reverse_append]
  rfl

theorem lookup_keeping_of_some {qs : List Question} {path : Text} {answer : Option Permalink}
    (h : (keeping qs).answers.lookup path = some answer) : ∃ q ∈ qs, q.path = path ∧ q.answer = answer := by
  obtain ⟨newer, older, heq, -⟩ := List.lookup_eq_some_iff.mp h
  have hmem : (path, answer) ∈ (qs.map fun q => (q.path, q.answer)).reverse := by
    change (path, answer) ∈ (keeping qs).answers
    rw [heq]
    exact List.mem_append_right _ List.mem_cons_self
  obtain ⟨q, hq, he⟩ := List.mem_map.mp (List.mem_reverse.mp hmem)
  obtain ⟨hpath, hanswer⟩ := Prod.mk.inj he
  exact ⟨q, hq, hpath, hanswer⟩

theorem lookup_keeping_eq_none_iff {qs : List Question} {path : Text} :
    (keeping qs).answers.lookup path = none ↔ path ∉ qs.map Question.path := by
  rw [List.lookup_eq_none_iff]
  constructor
  · intro h hmem
    obtain ⟨q, hq, rfl⟩ := List.mem_map.mp hmem
    have hkept : (q.path, q.answer) ∈ (keeping qs).answers := List.mem_reverse.mpr (List.mem_map_of_mem hq)
    exact absurd (h _ hkept) (by simp)
  · intro h p hp
    obtain ⟨q, hq, rfl⟩ := List.mem_map.mp (List.mem_reverse.mp hp)
    rw [bne_iff_ne]
    rintro rfl
    exact h (List.mem_map_of_mem hq)

/-- What holds once the paths were resolved, with the questions that were put. -/
structure Settled (ask : Text → StateM σ (Option Permalink)) (s : σ) (paths : List Text) (qs : List Question) :
    Prop where
  asked : (askAll ask paths.eraseDups).run s = (qs, state ask paths s)
  paths_eq : qs.map Question.path = paths.eraseDups
  kept_eq : kept ask paths s = keeping qs
  recorded_eq : after (recorded ask) paths ([], s) = ((given ask paths s, keeping qs), (qs, state ask paths s))
  answered : List.Forall₂ (fun path answer => ∃ q ∈ qs, q.path = path ∧ q.answer = answer) paths (given ask paths s)

variable {ask : Text → StateM σ (Option Permalink)} {s : σ} {paths : List Text} {qs : List Question}

theorem Settled.of_eq {answers : List (Option Permalink)} {s' : σ}
    (hafter : after ask paths s = ((answers, keeping qs), s'))
    (hrecorded : after (recorded ask) paths ([], s) = ((answers, keeping qs), (qs, s')))
    (hasked : (askAll ask paths.eraseDups).run s = (qs, s')) (hpaths : qs.map Question.path = paths.eraseDups)
    (hanswers : List.Forall₂ (fun path answer => ∃ q ∈ qs, q.path = path ∧ q.answer = answer) paths answers) :
    Settled ask s paths qs := by
  constructor
  · rw [state, hafter]
    exact hasked
  · exact hpaths
  · rw [kept, hafter]
  · rw [given, state, hafter]
    exact hrecorded
  · rw [given, hafter]
    exact hanswers

theorem settled_nil (ask : Text → StateM σ (Option Permalink)) (s : σ) : Settled ask s [] [] :=
  .of_eq rfl rfl rfl rfl .nil

/-- A path that was asked about is answered from what is kept. -/
theorem Settled.again {path : Text} (h : Settled ask s paths qs) (hmem : path ∈ paths) :
    Settled ask s (paths ++ [path]) qs ∧ state ask (paths ++ [path]) s = state ask paths s ∧
      ∃ answer, given ask (paths ++ [path]) s = given ask paths s ++ [answer] := by
  have hasked : path ∈ qs.map Question.path := by
    rw [h.paths_eq, List.mem_eraseDups]
    exact hmem
  obtain ⟨answer, hanswer⟩ := Option.ne_none_iff_exists'.mp (mt lookup_keeping_eq_none_iff.mp (not_not_intro hasked))
  have hafter : after ask (paths ++ [path]) s = ((given ask paths s ++ [answer], keeping qs), state ask paths s) := by
    rw [after_concat, h.kept_eq, run_resolve, hanswer]
  refine ⟨.of_eq hafter ?_ ?_ ?_ ?_, ?_, answer, ?_⟩
  · rw [after_concat, kept, given, state, h.recorded_eq, run_resolve, hanswer]
  · rw [eraseDups_concat_of_mem hmem]
    exact h.asked
  · rw [eraseDups_concat_of_mem hmem]
    exact h.paths_eq
  · exact List.rel_append h.answered (.cons (lookup_keeping_of_some hanswer) .nil)
  · rw [state, hafter]
  · rw [given, hafter]

/-- A new path is asked about, and the question is kept. -/
theorem Settled.first {path : Text} (h : Settled ask s paths qs) (hnew : path ∉ paths) {reply : Option Permalink}
    {s' : σ} (hreply : (ask path).run (state ask paths s) = (reply, s')) :
    Settled ask s (paths ++ [path]) (qs ++ [⟨path, reply⟩]) ∧ state ask (paths ++ [path]) s = s' ∧
      given ask (paths ++ [path]) s = given ask paths s ++ [reply.or (ofRustc? path)] := by
  have hasked : (keeping qs).answers.lookup path = none := by
    rw [lookup_keeping_eq_none_iff, h.paths_eq, List.mem_eraseDups]
    exact hnew
  have hafter : after ask (paths ++ [path]) s =
      ((given ask paths s ++ [reply.or (ofRustc? path)], keeping (qs ++ [⟨path, reply⟩])), s') := by
    rw [after_concat, h.kept_eq, run_resolve, hasked, hreply, keeping_concat]
    rfl
  refine ⟨.of_eq hafter ?_ ?_ ?_ ?_, ?_, ?_⟩
  · rw [after_concat, kept, given, state, h.recorded_eq, run_resolve, hasked, keeping_concat]
    dsimp only
    rw [run_recorded, hreply]
    rfl
  · rw [eraseDups_concat_of_notMem hnew, run_askAll_concat, h.asked]
    dsimp only
    rw [hreply]
  · rw [eraseDups_concat_of_notMem hnew, List.map_append, h.paths_eq]
    rfl
  · refine List.rel_append ?_ (.cons ⟨⟨path, reply⟩, List.mem_append_right _ List.mem_cons_self, rfl, rfl⟩ .nil)
    exact h.answered.imp fun p answer ⟨q, hq, he⟩ => ⟨q, List.mem_append_left _ hq, he⟩
  · rw [state, hafter]
  · rw [given, hafter]

theorem exists_settled (ask : Text → StateM σ (Option Permalink)) (s : σ) (paths : List Text) :
    ∃ qs, Settled ask s paths qs := by
  induction paths using List.reverseRecOn with
  | nil => exact ⟨[], settled_nil ask s⟩
  | append_singleton paths path ih =>
    obtain ⟨qs, h⟩ := ih
    by_cases hmem : path ∈ paths
    · exact ⟨qs, (h.again hmem).1⟩
    · exact ⟨_, (h.first hmem rfl).1⟩

theorem Settled.questions_eq (h : Settled ask s paths qs) : questions ask paths s = qs := by
  rw [questions, h.recorded_eq]

theorem settled_questions (ask : Text → StateM σ (Option Permalink)) (s : σ) (paths : List Text) :
    Settled ask s paths (questions ask paths s) := by
  obtain ⟨qs, h⟩ := exists_settled ask s paths
  rw [h.questions_eq]
  exact h

/-- The questions are about distinct paths, so one path has one answer. -/
theorem Settled.same (h : Settled ask s paths qs) {i j : Nat} (hij : paths[i]? = paths[j]?) :
    (given ask paths s)[i]? = (given ask paths s)[j]? := by
  have hnodup : (qs.map Question.path).Nodup := h.paths_eq ▸ nodup_eraseDups paths
  have hlength : paths.length = (given ask paths s).length := h.answered.length_eq
  by_cases hi : i < paths.length
  · have hj : j < paths.length := by
      rw [List.getElem?_eq_getElem hi] at hij
      exact (List.getElem?_eq_some_iff.mp hij.symm).1
    obtain ⟨q, hq, hpath, hanswer⟩ := h.answered.get hi (hlength ▸ hi)
    obtain ⟨q', hq', hpath', hanswer'⟩ := h.answered.get hj (hlength ▸ hj)
    rw [List.getElem?_eq_getElem hi, List.getElem?_eq_getElem hj, Option.some.injEq] at hij
    have heq : q = q' := List.inj_on_of_nodup_map hnodup hq hq' (hpath.trans (hij.trans hpath'.symm))
    rw [List.getElem?_eq_getElem (hlength ▸ hi), List.getElem?_eq_getElem (hlength ▸ hj)]
    exact congrArg some (hanswer.symm.trans (heq ▸ hanswer'))
  · have hj : ¬ j < paths.length := by
      intro hj
      rw [List.getElem?_eq_getElem hj] at hij
      exact hi (List.getElem?_eq_some_iff.mp hij).1
    rw [List.getElem?_eq_none (by omega), List.getElem?_eq_none (by omega)]

theorem asksOnce (ask : Text → StateM σ (Option Permalink)) (s : σ) : AsksOnce ask s where
  faithful paths := by
    have h := settled_questions ask s paths
    rw [h.recorded_eq, h.kept_eq]
  asked paths := (settled_questions ask s paths).asked
  paths_eq paths := (settled_questions ask s paths).paths_eq
  answered paths := (settled_questions ask s paths).answered
  same paths i j hij := (settled_questions ask s paths).same hij
  size_eq paths := by
    have h := settled_questions ask s paths
    rw [h.kept_eq, size_keeping, ← h.paths_eq, List.length_map]
  first paths path hnew := by
    obtain ⟨hsettled, hstate, hgiven⟩ := (settled_questions ask s paths).first hnew rfl
    exact ⟨hsettled.questions_eq, hgiven, hstate⟩
  again paths path hmem := by
    obtain ⟨hsettled, hstate, hgiven⟩ := (settled_questions ask s paths).again hmem
    exact ⟨hsettled.questions_eq, hgiven, hstate⟩

end CodeAtlas.Permalink.Memo
