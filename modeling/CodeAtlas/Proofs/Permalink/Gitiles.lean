import CodeAtlas.Proofs.Permalink.Forms

namespace CodeAtlas.Permalink

open Text

/-- The address of a file of one revision, which asks for the text of the file. -/
structure IsGitiles (u repo rev path : Text) : Prop where
  address : u = "https://" ++ repo ++ ".git/+/" ++ rev ++ "/" ++ path ++ "?format=TEXT"
  repo : ¬ofString ".git/+/" <:+: repo
  rev : code '/' ∉ rev
  path : ¬ofString "?format=TEXT" <:+: path

/-- The text ends with the delimiter, which stands nowhere else in it. -/
def EndsOnce (sep t x : Text) : Prop := t = x ++ sep ∧ ∀ front after, t = front ++ sep ++ after → front = x ∧ after = []

/-- An address is read if it has this form, and in no other case. -/
structure ReadsGitiles (u : Text) : Prop where
  git_iff : ∀ repo path rev, ofGitiles? u = some (git repo path rev) ↔ IsGitiles u repo rev path
  git_of_some : ∀ p, ofGitiles? u = some p → ∃ repo path rev, p = git repo path rev
  unique : ∀ repo rev path repo' rev' path', IsGitiles u repo rev path → IsGitiles u repo' rev' path' →
    repo = repo' ∧ rev = rev' ∧ path = path'
  /-- Behind the revision, what asks for the text stands once, and nothing follows it. -/
  suffix_iff : ∀ repo rev rest, u = "https://" ++ repo ++ ".git/+/" ++ rev ++ "/" ++ rest →
    ¬ofString ".git/+/" <:+: repo → code '/' ∉ rev →
      ∀ p, ofGitiles? u = some p ↔ ∃ path, EndsOnce "?format=TEXT" rest path ∧ p = git repo path rev

variable {u x y t repo rev path rest sep : Text} {p : Permalink}

theorem cut?_repository_eq_some_iff :
    cut? ".git/+/" t = some (x, y) ↔ t = x ++ ".git/+/" ++ y ∧ ¬ofString ".git/+/" <:+: x :=
  cut?_cons_eq_some_iff (b := code '.') (s := "git/+/") (by decide)

theorem cut?_suffix_eq_some_iff :
    cut? "?format=TEXT" t = some (x, y) ↔ t = x ++ "?format=TEXT" ++ y ∧ ¬ofString "?format=TEXT" <:+: x :=
  cut?_cons_eq_some_iff (b := code '?') (s := "format=TEXT") (by decide)

theorem ofGitiles?_eq_some_iff :
    ofGitiles? u = some p ↔ ∃ repo rev path, IsGitiles u repo rev path ∧ git repo path rev = p := by
  rw [ofGitiles?]
  simp only [Option.bind_eq_bind, Option.bind_eq_some_iff, Prod.exists, prefixed?_eq_some_iff,
    cut?_repository_eq_some_iff, cut?_slash_eq_some_iff, cut?_suffix_eq_some_iff, Option.ite_none_right_eq_some,
    Option.some_inj]
  constructor
  · rintro ⟨_, rfl, repo, _, ⟨rfl, hrepo⟩, rev, _, ⟨rfl, hrev⟩, path, _, ⟨rfl, hpath⟩, rfl, rfl⟩
    exact ⟨repo, rev, path, ⟨by simp only [List.append_assoc, List.append_nil], hrepo, hrev, hpath⟩, rfl⟩
  · rintro ⟨repo, rev, path, h, rfl⟩
    refine ⟨repo ++ ofString ".git/+/" ++ (rev ++ ofString "/" ++ (path ++ ofString "?format=TEXT" ++ [])), ?_,
      repo, _, ⟨rfl, h.repo⟩, rev, _, ⟨rfl, h.rev⟩, path, [], ⟨rfl, h.path⟩, rfl, rfl⟩
    rw [h.address]
    simp only [List.append_assoc, List.append_nil]

theorem ofGitiles?_eq_git_iff : ofGitiles? u = some (git repo path rev) ↔ IsGitiles u repo rev path := by
  rw [ofGitiles?_eq_some_iff]
  constructor
  · rintro ⟨_, _, _, h, heq⟩
    cases heq
    exact h
  · exact fun h => ⟨repo, rev, path, h, rfl⟩

theorem IsGitiles.unique {repo' rev' path' : Text} (h : IsGitiles u repo rev path) (h' : IsGitiles u repo' rev' path') :
    repo = repo' ∧ rev = rev' ∧ path = path' := by
  have heq := (ofGitiles?_eq_git_iff.mpr h).symm.trans (ofGitiles?_eq_git_iff.mpr h')
  cases heq
  exact ⟨rfl, rfl, rfl⟩

/-- Where the repository and the revision are known, only the rest decides. -/
theorem ofGitiles?_of_revision (hu : u = "https://" ++ repo ++ ".git/+/" ++ rev ++ "/" ++ rest)
    (hrepo : ¬ofString ".git/+/" <:+: repo) (hrev : code '/' ∉ rev) : ofGitiles? u =
      (cut? "?format=TEXT" rest).bind fun (path, after) => if after = [] then some (git repo path rev) else none := by
  have haddress : prefixed? "https://" u = some (repo ++ ".git/+/" ++ (rev ++ "/" ++ rest)) := by
    rw [prefixed?_eq_some_iff, hu]
    simp only [List.append_assoc]
  have hrepository : cut? ".git/+/" (repo ++ ".git/+/" ++ (rev ++ "/" ++ rest)) = some (repo, rev ++ "/" ++ rest) :=
    cut?_repository_eq_some_iff.mpr ⟨rfl, hrepo⟩
  have hrevision : cut? "/" (rev ++ "/" ++ rest) = some (rev, rest) := cut?_slash_eq_some_iff.mpr ⟨rfl, hrev⟩
  simp only [ofGitiles?, haddress, hrepository, hrevision, Option.bind_eq_bind, Option.bind_some]

theorem endsOnce_iff (hs : sep ≠ []) : EndsOnce sep t x ↔ cut? sep t = some (x, []) := by
  rw [cut?_eq_some_iff hs, List.append_nil, EndsOnce]
  refine and_congr_right fun ht => ?_
  rw [ht]
  constructor
  · rintro h front ⟨after, hafter⟩
    exact (h front after hafter.symm).1
  · intro h front after heq
    obtain rfl := h front ⟨after, heq.symm⟩
    exact ⟨rfl, List.append_right_eq_self.mp heq.symm⟩

theorem readsGitiles (u : Text) : ReadsGitiles u where
  git_iff _ _ _ := ofGitiles?_eq_git_iff
  git_of_some p hp := by
    obtain ⟨repo, rev, path, -, rfl⟩ := ofGitiles?_eq_some_iff.mp hp
    exact ⟨repo, path, rev, rfl⟩
  unique _ _ _ _ _ _ := IsGitiles.unique
  suffix_iff repo rev rest hu hrepo hrev p := by
    have hne : ofString "?format=TEXT" ≠ [] := by decide
    simp only [ofGitiles?_of_revision hu hrepo hrev, endsOnce_iff hne, Option.bind_eq_some_iff, Prod.exists,
      Option.ite_none_right_eq_some, Option.some_inj]
    constructor
    · rintro ⟨path, _, hcut, rfl, rfl⟩
      exact ⟨path, hcut, rfl⟩
    · rintro ⟨path, hcut, rfl⟩
      exact ⟨path, [], hcut, rfl, rfl⟩

example : ofGitiles? "https://h/r.git/+/1f/a?format=TEXT?format=TEXT" = none := by decide

end CodeAtlas.Permalink
