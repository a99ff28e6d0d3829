import CodeAtlas.Text

namespace CodeAtlas

/-- Where the exact revision of a source file can be fetched from. -/
inductive Permalink
  | git (repo path rev : Text)
  | hg (repo path rev : Text)
  | s3 (bucket digestAndPath : Text)
  | url (url : Text)
deriving Repr, DecidableEq

namespace Permalink

/-- The one-line form: a URL stands for itself, the others name their kind first. -/
def toText : Permalink → Text
  | git repo path rev => "git:" ++ repo ++ ":" ++ path ++ ":" ++ rev
  | hg repo path rev => "hg:" ++ repo ++ ":" ++ path ++ ":" ++ rev
  | s3 bucket digestAndPath => "s3:" ++ bucket ++ ":" ++ digestAndPath ++ ":"
  | url u => u

end Permalink

end CodeAtlas
