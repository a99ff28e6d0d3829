import CodeAtlas.Database.AddressMap

namespace CodeAtlas.Database

/-- Code that comes from one line of a file, which is told by the place of its checksum. -/
structure LineRecord where
  start : UInt32
  stop : UInt32
  line : UInt32
  file : UInt32
deriving Repr, DecidableEq

/-- Where an inlined function is defined. -/
structure Definition where
  file : UInt32
  line : UInt32
deriving Repr, DecidableEq

/-- A part of the line information of a module. -/
structure Subsection where
  kind : UInt32
  body : Bytes
deriving Repr, DecidableEq

namespace Subsection

def headSize : Nat := 8

def readAt? (data : Bytes) (pos : Nat) : Option Subsection := do
  let kind ← data.u32At? pos
  let length ← data.u32At? (pos + 4)
  let body ← data.slice? (pos + headSize) length.toNat
  some ⟨kind, body⟩

/-- The subsections from a position on, each starting at a multiple of four, up to one that is cut off. -/
def list (data : Bytes) (pos : Nat) : List Subsection :=
  if data.size < pos + headSize then []
  else
    match readAt? data pos with
    | none => []
    | some s => s :: list data (Bytes.align4 (pos + headSize + s.body.size))
termination_by data.size + 1 - pos
decreasing_by
  have := Bytes.le_align4 (pos + headSize + s.body.size)
  simp only [headSize] at *
  omega

def lines : UInt32 := 0xF2

def checksums : UInt32 := 0xF4

def definitions : UInt32 := 0xF6

end Subsection

/-- Pairs the place of each checksum with the place of the file's name, up to a checksum that is cut off. -/
def checksumEntries (data : Bytes) (pos : Nat) : List (UInt32 × UInt32) :=
  if data.size < pos + 6 then []
  else
    match data.u32At? pos, data.valueAt? (pos + 4) 1 with
    | some name, some size =>
      if data.size < pos + 6 + size then []
      else (UInt32.ofNat pos, name) :: checksumEntries data (Bytes.align4 (pos + 6 + size))
    | _, _ => []
termination_by data.size + 1 - pos
decreasing_by
  have := Bytes.le_align4 (pos + 6 + size)
  omega

/-- Pairs inlined functions with their definitions; in the extended form each is followed by further files. -/
def definitionEntries (extended : Bool) (data : Bytes) (pos : Nat) : List (UInt32 × Definition) :=
  if data.size < pos + 12 then []
  else
    match data.u32At? pos, data.u32At? (pos + 4), data.u32At? (pos + 8) with
    | some inlinee, some file, some line =>
      if extended then
        match data.u32At? (pos + 12) with
        | some extra =>
          if data.size < pos + 16 + extra.toNat * 4 then []
          else (inlinee, ⟨file, line⟩) :: definitionEntries extended data (pos + 16 + extra.toNat * 4)
        | none => []
      else (inlinee, ⟨file, line⟩) :: definitionEntries extended data (pos + 12)
    | _, _, _ => []
termination_by data.size + 1 - pos

/-- The definitions of a subsection, whose first word tells the form. -/
def definitionTable (data : Bytes) : List (UInt32 × Definition) :=
  definitionEntries (data.u32At? 0 == some 1) data 4

/-- What the lines of a subsection have in common: the code that they are about. -/
structure Contribution where
  offset : UInt32
  sectionNumber : UInt16
  hasColumns : Bool
  size : UInt32
deriving Repr, DecidableEq

namespace Contribution

def headSize : Nat := 12

def parse? (data : Bytes) : Option Contribution := do
  let offset ← data.u32At? 0
  let number ← data.u16At? 4
  let flags ← data.u16At? 6
  let size ← data.u32At? 8
  some ⟨offset, number, flags &&& 1 != 0, size⟩

end Contribution

/-- Compilers give one of these numbers to code that comes from no line. -/
def isHiddenLine (line : UInt32) : Bool := line == 0xFEEFEE || line == 0xF00F00

/-- Where a line starts inside its contribution, and its number. -/
structure LineStart where
  offset : UInt32
  line : UInt32
deriving Repr, DecidableEq

/-- The upper bits of a line number say something else. -/
def LineStart.read : Reader LineStart := do
  let offset ← Reader.u32
  let flags ← Reader.u32
  pure ⟨offset, flags &&& 0xFFFFFF⟩

/-- Each line runs to the next one of its block and the last one to the end of the contribution. Hidden lines, empty
ones and those without an address are left out. -/
def blockRecords (m : AddressMap) (c : Contribution) (file : UInt32) : List LineStart → List LineRecord
  | [] => []
  | l :: ls =>
    let stop := match ls.head? with
      | some next => next.offset
      | none => c.size
    let rest := blockRecords m c file ls
    if isHiddenLine l.line ∨ stop ≤ l.offset then rest
    else
      match m.rva? c.sectionNumber (c.offset + l.offset) with
      | some rva => ⟨rva, rva + (stop - l.offset), l.line, file⟩ :: rest
      | none => rest

/-- The blocks from a position on. A size that cannot be that of a block is replaced by what the number of lines
implies. -/
def blocks (m : AddressMap) (c : Contribution) (data : Bytes) (pos : Nat) : List LineRecord :=
  if data.size < pos + 12 then []
  else
    match data.u32At? pos, data.u32At? (pos + 4), data.u32At? (pos + 8) with
    | some file, some count, some size =>
      let linesAt := pos + 12
      if data.size < linesAt + count.toNat * 8 then []
      else
        let lines := ((Reader.times count.toNat LineStart.read).run (.ofBytes (data.drop linesAt))).1
        let records := blockRecords m c file lines
        if size < 12 ∨ data.size < pos + size.toNat then
          let next := linesAt + count.toNat * 8 + (if c.hasColumns then count.toNat * 4 else 0)
          if data.size < next then records else records ++ blocks m c data next
        else records ++ blocks m c data (pos + size.toNat)
    | _, _, _ => []
termination_by data.size + 1 - pos
decreasing_by
  · split <;> omega
  · simp only [UInt32.lt_iff_toNat_lt, UInt32.reduceToNat] at *
    omega

/-- The lines of a subsection; they start behind what they have in common. -/
def lineRecords (m : AddressMap) (data : Bytes) : List LineRecord :=
  match Contribution.parse? data with
  | some c => blocks m c data Contribution.headSize
  | none => []

end CodeAtlas.Database
