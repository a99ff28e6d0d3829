import CodeAtlas.Permalink.Url
import CodeAtlas.SourceServer.Expression

namespace CodeAtlas.SourceIndex

/-- The command by which a file is fetched from Gitiles and decoded. -/
def gitilesCommand : Text :=
  "cmd /c \"mkdir \"%SRC_EXTRACT_TARGET_DIR%\" & python3 -c \"import urllib.request, base64;url = \\\"%var4%\\\";" ++
    "u = urllib.request.urlopen(url);open(r\\\"%SRC_EXTRACT_TARGET%\\\", \\\"wb\\\").write(%var5%(u.read()))\""

/-- Some writers repeat the name of the variable in its value. -/
def namedGitilesCommand : Text := "SRC_EXTRACT_CMD=" ++ gitilesCommand

/-- Commands are never run, and this one is recognised by its text alone. -/
def usesGitiles (index : SourceIndex) : Bool :=
  index.textOf? "SRCSRVCMD" == some "%SRC_EXTRACT_CMD%" &&
    (index.textOf? "SRC_EXTRACT_CMD").any fun t => t == gitilesCommand || t == namedGitilesCommand

/-- The fourth field of a file that Gitiles serves is its address, the fifth one how it is decoded. -/
def gitilesPermalink? : List Text → Option Permalink
  | _ :: _ :: _ :: address :: decoder :: _ =>
    if decoder = "base64.b64decode" then Permalink.ofGitiles? address else none
  | _ => none

/-- Stands for the directory that files would be extracted to. -/
def noDirectory : Text := "C:\\Dummy"

/-- The permalink of a file that is downloaded or that the known command fetches. -/
def permalinkOf? (index : SourceIndex) (source : Source) : Option Permalink :=
  match source.retrieval with
  | .download url => Permalink.ofUrl? url
  | .command _ _ => if index.usesGitiles then gitilesPermalink? source.fields else none
  | .other => none

def permalink? (index : SourceIndex) (path : Text) : Option Permalink :=
  (index.source? path noDirectory).bind index.permalinkOf?

end CodeAtlas.SourceIndex
