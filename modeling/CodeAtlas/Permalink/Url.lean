import CodeAtlas.Permalink

namespace CodeAtlas.Permalink

open Text

/-- A raw file of a repository on GitHub. -/
def ofGithub? (u : Text) : Option Permalink := do
  let rest ← prefixed? "https://raw.githubusercontent.com/" u
  let (org, rest) ← cut? "/" rest
  let (repo, rest) ← cut? "/" rest
  let (rev, path) ← cut? "/" rest
  if org = [] ∨ repo = [] ∨ rev = [] ∨ path = [] then none
  else some (git ("github.com/" ++ org ++ "/" ++ repo) path rev)

/-- A raw file of a Mercurial server, whose repository is its host followed by a path. -/
def ofMercurial? (u : Text) : Option Permalink := do
  if (prefixed? "https://hg." u).isNone then none
  let rest ← prefixed? "https://" u
  let (repo, rest) ← cut? "/raw-file/" rest
  let (rev, path) ← cut? "/" rest
  if code '/' ∉ repo ∨ rev = [] ∨ path = [] then none
  else some (hg repo path rev)

/-- An object in a bucket that is named by the host. -/
def ofBucket? (u : Text) : Option Permalink := do
  let rest ← prefixed? "https://" u
  let (bucket, key) ← cut? ".s3.amazonaws.com/" rest
  if bucket = [] ∨ code '/' ∈ bucket ∨ key = [] then none
  else some (s3 bucket key)

/-- The forms that are recognised come first; any other web address stands for itself. -/
def ofUrl? (u : Text) : Option Permalink :=
  ofGithub? u <|> ofMercurial? u <|> ofBucket? u <|>
    if startsWith "https://" u ∨ startsWith "http://" u then some (url u) else none

/-- The address at which Gitiles serves a file of one revision in Base64. -/
def ofGitiles? (u : Text) : Option Permalink := do
  let rest ← prefixed? "https://" u
  let (repo, rest) ← cut? ".git/+/" rest
  let (rev, rest) ← cut? "/" rest
  let (path, rest) ← cut? "?format=TEXT" rest
  if rest = [] then some (git repo path rev) else none

end CodeAtlas.Permalink
