import CodeAtlas.Text

namespace CodeAtlas.SourceServer

/-- What keeps a text from being a source index. -/
inductive Fault
  | unknownHeading (line : Text)
  | notIniFirst
  | noHeading
  | noIni
deriving Repr, DecidableEq

def Fault.message : Fault → Text
  | unknownHeading line => "srcsrv: unknown section header '" ++ line ++ "'"
  | notIniFirst => "srcsrv: stream does not start with the ini section"
  | noHeading => "srcsrv: content before the first section header"
  | noIni => "srcsrv: missing ini section"

end CodeAtlas.SourceServer
