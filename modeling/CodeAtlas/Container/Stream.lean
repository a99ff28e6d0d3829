import CodeAtlas.Container.Basic

namespace CodeAtlas

/-- The bytes of a stream, and whether they had to be put together from blocks that do not follow each other. -/
structure StreamContent where
  bytes : Bytes
  stitched : Bool
deriving Repr, DecidableEq

namespace Container

def blockInFile (c : Container) (block : Nat) : Bool := block < c.blockCount && block * c.blockSize < c.data.size

/-- Each block follows the one before it in the file. -/
def contiguous : List Nat → Bool
  | [] => true
  | [_] => true
  | a :: b :: rest => b == a + 1 && contiguous (b :: rest)

/-- What each block adds to a stream of which `remaining` bytes are still to come; only the last one may add less than
a block. -/
def chunks? (c : Container) : List Nat → Nat → Option (List Bytes)
  | [], _ => some []
  | block :: blocks, remaining => do
    let take := min remaining c.blockSize
    let chunk ← c.data.slice? (block * c.blockSize) take
    let rest ← c.chunks? blocks (remaining - take)
    some (chunk :: rest)

/-- Blocks that follow each other are read in one piece if the file is long enough for that. -/
def stream (c : Container) (index : Nat) : Except Fault StreamContent :=
  match c.layout? index with
  | none => .error (.noStream index)
  | some l =>
    match l.blocks with
    | [] => .ok ⟨#[], false⟩
    | first :: _ =>
      if ¬l.blocks.all c.blockInFile then .error (.streamOutside index)
      else
        match if contiguous l.blocks then c.data.slice? (first * c.blockSize) l.size else none with
        | some bytes => .ok ⟨bytes, false⟩
        | none =>
          match c.chunks? l.blocks l.size with
          | some parts => .ok ⟨parts.foldl (· ++ ·) #[], true⟩
          | none => .error (.shortStream index)

end Container

end CodeAtlas
