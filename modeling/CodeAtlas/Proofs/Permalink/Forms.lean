import CodeAtlas.Permalink.Url
import CodeAtlas.Proofs.Text.Pieces

namespace CodeAtlas.Permalink

open Text

/-- What stands between two slashes. -/
structure IsPiece (t : Text) : Prop where
  nonempty : t ≠ []
  noSlash : code '/' ∉ t

structure IsGithub (u org name rev path : Text) : Prop where
  address : u = "https://raw.githubusercontent.com/" ++ org ++ "/" ++ name ++ "/" ++ rev ++ "/" ++ path
  org : IsPiece org
  name : IsPiece name
  rev : IsPiece rev
  path : path ≠ []

/-- The repository is the host and a path on it. The revision follows the first `/raw-file/`; a later one belongs to the
path of the file. -/
structure IsMercurial (u repo rev path : Text) : Prop where
  address : u = "https://" ++ repo ++ "/raw-file/" ++ rev ++ "/" ++ path
  host : ofString "hg." <+: repo
  slash : code '/' ∈ repo
  first : FirstBehind "/raw-file/" repo
  rev : IsPiece rev
  path : path ≠ []

structure IsBucket (u bucket key : Text) : Prop where
  address : u = "https://" ++ bucket ++ ".s3.amazonaws.com/" ++ key
  bucket : IsPiece bucket
  key : key ≠ []

variable {u v t x y org name repo rev path bucket key : Text} {p : Permalink}

theorem cut?_slash_eq_some_iff : cut? "/" t = some (x, y) ↔ t = x ++ "/" ++ y ∧ code '/' ∉ x := by
  have hne : ofString "/" ≠ [] := by decide
  rw [cut?_eq_some_iff hne]
  exact and_congr_right' (firstBehind_singleton_iff (b := code '/'))

theorem ofGithub?_eq_some_iff : ofGithub? u = some p ↔ ∃ org name rev path,
    IsGithub u org name rev path ∧ git ("github.com/" ++ org ++ "/" ++ name) path rev = p := by
  rw [ofGithub?]
  simp only [Option.bind_eq_bind, Option.bind_eq_some_iff, Prod.exists, prefixed?_eq_some_iff, cut?_slash_eq_some_iff,
    Option.ite_none_left_eq_some, Option.some_inj, not_or]
  constructor
  · rintro ⟨_, rfl, org, _, ⟨rfl, horg⟩, name, _, ⟨rfl, hname⟩, rev, path, ⟨rfl, hrev⟩, ⟨ho, hn, hr, hp⟩, rfl⟩
    exact ⟨org, name, rev, path, ⟨by simp only [List.append_assoc], ⟨ho, horg⟩, ⟨hn, hname⟩, ⟨hr, hrev⟩, hp⟩, rfl⟩
  · rintro ⟨org, name, rev, path, h, rfl⟩
    refine ⟨org ++ "/" ++ (name ++ "/" ++ (rev ++ "/" ++ path)), ?_, org, _, ⟨rfl, h.org.noSlash⟩, name, _,
      ⟨rfl, h.name.noSlash⟩, rev, path, ⟨rfl, h.rev.noSlash⟩,
      ⟨h.org.nonempty, h.name.nonempty, h.rev.nonempty, h.path⟩, rfl⟩
    rw [h.address]
    simp only [List.append_assoc]

theorem ofGithub?_eq_none_iff : ofGithub? u = none ↔ ∀ org name rev path, ¬IsGithub u org name rev path := by
  simp only [Option.eq_none_iff_forall_ne_some, ne_eq, ofGithub?_eq_some_iff]
  grind

/-- A text without slashes starts another one just if it starts what is before the first slash. -/
theorem prefix_slash_iff (hx : code '/' ∉ x) : x <+: t ++ code '/' :: y ↔ x <+: t := by
  refine ⟨fun h => ?_, fun h => h.trans (List.prefix_append t _)⟩
  rcases Nat.lt_or_ge t.length x.length with hlt | hle
  · have hslash : t ++ [code '/'] <+: t ++ code '/' :: y := (List.prefix_append_right_inj t).mpr ⟨y, rfl⟩
    have hlonger : t ++ [code '/'] <+: x := List.prefix_of_prefix_length_le hslash h (by simp; omega)
    exact absurd (hlonger.subset (by simp)) hx
  · exact List.prefix_of_prefix_length_le h (List.prefix_append t _) hle

theorem host_iff : ofString "https://hg." <+: "https://" ++ (repo ++ "/raw-file/" ++ y) ↔ ofString "hg." <+: repo := by
  have hdot : code '/' ∉ ofString "hg." := by decide
  have happend : ofString "https://hg." = "https://" ++ "hg." := rfl
  rw [happend, List.prefix_append_right_inj, List.append_assoc]
  exact prefix_slash_iff hdot

theorem ofMercurial?_eq_some_iff : ofMercurial? u = some p ↔ ∃ repo rev path,
    IsMercurial u repo rev path ∧ hg repo path rev = p := by
  have hne : ofString "/raw-file/" ≠ [] := by decide
  rw [ofMercurial?]
  simp only [Option.bind_eq_bind, Option.bind_none, Option.ite_none_left_eq_some, Option.bind_eq_some_iff, Prod.exists,
    prefixed?_eq_some_iff, cut?_slash_eq_some_iff, cut?_eq_some_iff hne, Option.some_inj, not_or, Classical.not_not,
    Bool.not_eq_true, Option.isNone_eq_false_iff, isSome_prefixed?_iff]
  constructor
  · rintro ⟨hhost, _, rfl, repo, _, ⟨rfl, hfirst⟩, rev, path, ⟨rfl, hrev⟩, ⟨hslash, hr, hp⟩, rfl⟩
    refine ⟨repo, rev, path, ⟨?_, host_iff.mp hhost, hslash, hfirst, ⟨hr, hrev⟩, hp⟩, rfl⟩
    simp only [List.append_assoc]
  · rintro ⟨repo, rev, path, h, rfl⟩
    have haddress : u = "https://" ++ (repo ++ "/raw-file/" ++ (rev ++ "/" ++ path)) := by
      rw [h.address]
      simp only [List.append_assoc]
    exact ⟨haddress ▸ host_iff.mpr h.host, _, haddress, repo, _, ⟨rfl, h.first⟩, rev, path, ⟨rfl, h.rev.noSlash⟩,
      ⟨h.slash, h.rev.nonempty, h.path⟩, rfl⟩

theorem ofMercurial?_eq_none_iff : ofMercurial? u = none ↔ ∀ repo rev path, ¬IsMercurial u repo rev path := by
  simp only [Option.eq_none_iff_forall_ne_some, ne_eq, ofMercurial?_eq_some_iff]
  grind

/-- The first slash of the address ends the host, so that the delimiter stands nowhere before. -/
theorem firstBehind_bucket (h : code '/' ∉ bucket) : FirstBehind ".s3.amazonaws.com/" bucket :=
  firstBehind_concat (s := ".s3.amazonaws.com") (by decide) h

theorem ofBucket?_eq_some_iff : ofBucket? u = some p ↔ ∃ bucket key, IsBucket u bucket key ∧ s3 bucket key = p := by
  have hne : ofString ".s3.amazonaws.com/" ≠ [] := by decide
  rw [ofBucket?]
  simp only [Option.bind_eq_bind, Option.bind_eq_some_iff, Prod.exists, prefixed?_eq_some_iff,
    cut?_eq_some_iff hne, Option.ite_none_left_eq_some, Option.some_inj, not_or]
  constructor
  · rintro ⟨_, rfl, bucket, key, ⟨rfl, -⟩, ⟨hb, hslash, hk⟩, rfl⟩
    exact ⟨bucket, key, ⟨by simp only [List.append_assoc], ⟨hb, hslash⟩, hk⟩, rfl⟩
  · rintro ⟨bucket, key, h, rfl⟩
    refine ⟨bucket ++ ".s3.amazonaws.com/" ++ key, ?_, bucket, key, ⟨rfl, firstBehind_bucket h.bucket.noSlash⟩,
      ⟨h.bucket.nonempty, h.bucket.noSlash, h.key⟩, rfl⟩
    rw [h.address]
    simp only [List.append_assoc]

theorem ofBucket?_eq_none_iff : ofBucket? u = none ↔ ∀ bucket key, ¬IsBucket u bucket key := by
  simp only [Option.eq_none_iff_forall_ne_some, ne_eq, ofBucket?_eq_some_iff]
  grind

/-- The host of an address is what stands before the first slash. -/
def HasHost (u host : Text) : Prop := code '/' ∉ host ∧ ∃ rest, u = "https://" ++ (host ++ "/" ++ rest)

theorem HasHost.unique {host host' : Text} (h : HasHost u host) (h' : HasHost u host') : host = host' := by
  obtain ⟨hslash, rest, rfl⟩ := h
  obtain ⟨hslash', rest', heq⟩ := h'
  have hcut : cut? "/" (host ++ "/" ++ rest) = some (host, rest) := cut?_slash_eq_some_iff.mpr ⟨rfl, hslash⟩
  rw [List.append_cancel_left heq, cut?_slash_eq_some_iff.mpr ⟨rfl, hslash'⟩] at hcut
  cases hcut
  rfl

theorem IsGithub.hasHost (h : IsGithub u org name rev path) : HasHost u "raw.githubusercontent.com" := by
  refine ⟨by decide, org ++ "/" ++ name ++ "/" ++ rev ++ "/" ++ path, ?_⟩
  rw [h.address]
  simp only [← List.append_assoc]
  rfl

theorem IsMercurial.exists_host (h : IsMercurial u repo rev path) : ∃ host, HasHost u host ∧ ofString "hg." <+: host := by
  obtain ⟨host, rest, rfl, hslash⟩ := List.eq_append_cons_of_mem h.slash
  refine ⟨host, ⟨hslash, rest ++ "/raw-file/" ++ rev ++ "/" ++ path, ?_⟩, (prefix_slash_iff (by decide)).mp h.host⟩
  rw [h.address]
  simp only [List.append_assoc]
  rfl

theorem IsBucket.hasHost (h : IsBucket u bucket key) : HasHost u (bucket ++ ".s3.amazonaws.com") := by
  refine ⟨?_, key, ?_⟩
  · rw [List.mem_append, not_or]
    exact ⟨h.bucket.noSlash, by decide⟩
  · rw [h.address]
    simp only [List.append_assoc]
    rfl

theorem not_isMercurial_of_isGithub {repo rev' path' : Text} (h : IsGithub u org name rev path) :
    ¬IsMercurial u repo rev' path' := by
  intro hm
  obtain ⟨host, hhost, hstart⟩ := hm.exists_host
  rw [← h.hasHost.unique hhost] at hstart
  exact absurd hstart (by decide)

theorem not_isBucket_of_isGithub (h : IsGithub u org name rev path) : ¬IsBucket u bucket key := by
  intro hb
  have hend : ofString ".s3.amazonaws.com" <:+ "raw.githubusercontent.com" := ⟨bucket, hb.hasHost.unique h.hasHost⟩
  exact absurd hend (by decide)

end CodeAtlas.Permalink
