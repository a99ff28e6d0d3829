import CodeAtlas.Proofs.Bytes.Slice
import CodeAtlas.Proofs.Container.Directory
import CodeAtlas.Proofs.Container.Stored

namespace CodeAtlas.Container

theorem block?_eq_some_iff {data whole : Bytes} {blockSize blockCount b : Nat} :
    block? data blockSize blockCount b = some whole ↔ b < blockCount ∧ b * blockSize < data.size ∧
      whole = data.extract (b * blockSize) (b * blockSize + blockSize) := by
  unfold block?
  split
  next hout =>
    constructor
    · intro h
      cases h
    · rintro ⟨hcount, hfile, -⟩
      omega
  next hin =>
    constructor
    · intro h
      exact ⟨by omega, by omega, (Option.some.inj h).symm⟩
    · rintro ⟨-, -, rfl⟩
      rfl

/-- A block that starts before the end of the file has the bytes up to its own end or that of the file. -/
theorem block?_of_toList {data : Bytes} {blockSize blockCount b : Nat} {before after : List UInt8}
    (hdata : data.toList = before ++ after) (hb : b < blockCount) (hlength : before.length = b * blockSize)
    (hafter : after ≠ []) : block? data blockSize blockCount b = some (after.take blockSize).toArray := by
  refine block?_eq_some_iff.mpr ⟨hb, ?_, ?_⟩
  · have hpos := List.length_pos_iff.mpr hafter
    rw [← Array.length_toList, hdata, List.length_append]
    omega
  · apply Array.toList_inj.mp
    rw [Array.toList_extract, hdata, List.extract_eq_take_drop, ← hlength, List.drop_left, Nat.add_sub_cancel_left]

theorem getElem?_block? {data whole : Bytes} {blockSize blockCount b k : Nat}
    (h : block? data blockSize blockCount b = some whole) (hk : k < blockSize) :
    whole[k]? = data[b * blockSize + k]? := by
  obtain ⟨-, hfile, rfl⟩ := block?_eq_some_iff.mp h
  rw [Array.getElem?_extract]
  split
  next => rfl
  next hout => exact (Array.getElem?_eq_none (by omega)).symm

theorem size_block? {data whole : Bytes} {blockSize blockCount b : Nat}
    (h : block? data blockSize blockCount b = some whole) :
    whole.size = min blockSize (data.size - b * blockSize) := by
  obtain ⟨-, hfile, rfl⟩ := block?_eq_some_iff.mp h
  rw [Array.size_extract]
  omega

/-- A number that does not cross the end of its block reads the same in the block and in the file. -/
theorem valueAt?_block? {data whole : Bytes} {blockSize blockCount b start width : Nat}
    (h : block? data blockSize blockCount b = some whole) (hend : start + width ≤ blockSize) :
    whole.valueAt? start width = data.valueAt? (b * blockSize + start) width := by
  have hsize := size_block? h
  obtain ⟨-, hfile, hwhole⟩ := block?_eq_some_iff.mp h
  rw [Bytes.valueAt?, Bytes.valueAt?, Bytes.slice?, Bytes.slice?]
  by_cases hin : start + width ≤ whole.size
  · rw [if_pos hin, if_pos (by omega), hwhole, Array.extract_extract, Nat.min_eq_left (by omega), Nat.add_assoc]
  · rw [if_neg hin, if_neg (by omega)]

section Gather

variable {block? : Nat → Option Bytes} {blockMap acc : Bytes} {blockSize n : Nat}

theorem exists_block_of_gather (h : gather block? blockMap n = some acc) :
    ∀ i, i < n → ∃ b whole, blockMap.valueAt? (i * 4) 4 = some b ∧ block? b = some whole := by
  induction n generalizing acc with
  | zero =>
    intro i hi
    omega
  | succ n ih =>
    rw [gather_succ] at h
    obtain ⟨before, hbefore, h⟩ := Option.bind_eq_some_iff.mp h
    obtain ⟨b, hb, h⟩ := Option.bind_eq_some_iff.mp h
    obtain ⟨whole, hwhole, -⟩ := Option.map_eq_some_iff.mp h
    intro i hi
    rcases Nat.lt_succ_iff_lt_or_eq.mp hi with hlt | rfl
    · exact ih hbefore i hlt
    · exact ⟨b, whole, hb, hwhole⟩

/-- Behind full blocks only, a part of the directory starts where it belongs. -/
theorem gather_of_full
    (h : ∀ i, i < n → ∃ b whole, blockMap.valueAt? (i * 4) 4 = some b ∧ block? b = some whole ∧
      whole.size = blockSize) :
    ∃ acc, gather block? blockMap n = some acc ∧ acc.size = n * blockSize ∧ ∀ k, k < n * blockSize →
      ∃ b whole, blockMap.valueAt? (k / blockSize * 4) 4 = some b ∧ block? b = some whole ∧
        acc[k]? = whole[k % blockSize]? := by
  induction n with
  | zero => exact ⟨#[], rfl, (Nat.zero_mul _).symm, fun k hk => by omega⟩
  | succ n ih =>
    obtain ⟨acc, hacc, hsize, hbytes⟩ := ih fun i hi => h i (by omega)
    obtain ⟨b, whole, hb, hwhole, hfull⟩ := h n (by omega)
    refine ⟨acc ++ whole, ?_, ?_, fun k hk => ?_⟩
    · rw [gather_succ, hacc, Option.bind_some, hb, Option.bind_some, hwhole, Option.map_some]
    · rw [Array.size_append, hsize, hfull, Nat.succ_mul]
    · rcases Nat.lt_or_ge k (n * blockSize) with hlt | hge
      · rw [Array.getElem?_append_left (by omega)]
        exact hbytes k hlt
      · have hdiv : k / blockSize = n := Nat.div_eq_of_lt_le hge hk
        have hmod : k - n * blockSize = k % blockSize := by
          have hsplit := Nat.div_add_mod' k blockSize
          rw [hdiv] at hsplit
          omega
        rw [hdiv, Array.getElem?_append_right (by omega), hsize, hmod]
        exact ⟨b, whole, hb, hwhole, rfl⟩

end Gather

namespace Header

variable (h : Header) (data : Bytes)

def directoryBlocks : Nat := blocksFor h.directorySize h.blockSize

/-- The block of a part of the directory, as the block map has it. -/
def directoryBlock? (part : Nat) : Option Nat := data.valueAt? (h.blockMap * h.blockSize + part * 4) 4

/-- Where a byte of the directory belongs in the file. -/
def directoryPosition? (k : Nat) : Option Nat :=
  (h.directoryBlock? data (k / h.blockSize)).map fun b => b * h.blockSize + k % h.blockSize

/-- Every byte of the directory belongs into the file. -/
def Inside : Prop := ∀ k, k < h.directorySize → ∃ pos, h.directoryPosition? data k = some pos ∧ pos < data.size

/-- Only the last block of the directory may be cut off by the end of the file. -/
def WholeBlocks : Prop := ∀ part b, part + 1 < h.directoryBlocks → h.directoryBlock? data part = some b →
  b * h.blockSize + h.blockSize ≤ data.size

/-- The block map and the blocks of the directory are blocks of the file. -/
structure Reachable : Prop where
  entries_le : h.directoryBlocks * 4 ≤ h.blockSize
  blockMap_lt : h.blockMap < h.blockCount ∧ h.blockMap * h.blockSize < data.size
  named : ∀ part, part < h.directoryBlocks → ∃ b, h.directoryBlock? data part = some b ∧ b < h.blockCount ∧
    b * h.blockSize < data.size

/-- Each byte of the directory is the one at the place where it belongs. -/
structure Spells (directory : Bytes) : Prop where
  size_eq : directory.size = h.directorySize
  byte_eq : ∀ k, k < h.directorySize → ∃ pos, h.directoryPosition? data k = some pos ∧ pos < data.size ∧
    directory[k]? = data[pos]?

variable {h data}

theorem Spells.inside {directory : Bytes} (hs : h.Spells data directory) : h.Inside data := by
  intro k hk
  obtain ⟨pos, hpos, hlt, -⟩ := hs.byte_eq k hk
  exact ⟨pos, hpos, hlt⟩

theorem Spells.unique {x y : Bytes} (hx : h.Spells data x) (hy : h.Spells data y) : x = y := by
  refine Array.ext_getElem? fun k => ?_
  rcases Nat.lt_or_ge k h.directorySize with hk | hk
  · obtain ⟨pos, hpos, -, he⟩ := hx.byte_eq k hk
    obtain ⟨pos', hpos', -, he'⟩ := hy.byte_eq k hk
    obtain rfl := Option.some.inj (hpos.symm.trans hpos')
    rw [he, he']
  · rw [Array.getElem?_eq_none (by rw [hx.size_eq]; exact hk), Array.getElem?_eq_none (by rw [hy.size_eq]; exact hk)]

/-- The last byte of a block that is not the last one is a byte of the directory. -/
theorem Inside.wholeBlocks (hpos : 0 < h.blockSize) (hin : h.Inside data) : h.WholeBlocks data := by
  intro part b hpart hb
  have hstart := (lt_blocksFor_iff hpos).mp hpart
  rw [Nat.succ_mul] at hstart
  have hdiv : (part * h.blockSize + (h.blockSize - 1)) / h.blockSize = part := by
    rw [Nat.mul_comm, Nat.mul_add_div hpos, Nat.div_eq_of_lt (by omega), Nat.add_zero]
  have hmod : (part * h.blockSize + (h.blockSize - 1)) % h.blockSize = h.blockSize - 1 := by
    rw [Nat.mul_comm, Nat.mul_add_mod, Nat.mod_eq_of_lt (by omega)]
  obtain ⟨pos, hposition, hlt⟩ := hin (part * h.blockSize + (h.blockSize - 1)) (by omega)
  rw [directoryPosition?, hdiv, hmod, hb, Option.map_some, Option.some.injEq] at hposition
  omega

theorem directory_eq_ok_iff {directory : Bytes} : h.directory data = .ok directory ↔
    h.directoryBlocks * 4 ≤ h.blockSize ∧ ∃ blockMap acc,
      block? data h.blockSize h.blockCount h.blockMap = some blockMap ∧
      gather (block? data h.blockSize h.blockCount) blockMap h.directoryBlocks = some acc ∧
      h.directorySize ≤ acc.size ∧ directory = acc.extract 0 h.directorySize := by
  unfold directoryBlocks
  constructor
  · intro hd
    unfold Header.directory at hd
    dsimp only at hd
    split at hd
    next => cases hd
    next hroom =>
      split at hd
      next blockMap hmap =>
        split at hd
        next acc hacc =>
          split at hd
          next => cases hd
          next hlong =>
            cases hd
            exact ⟨by omega, blockMap, acc, hmap, hacc, by omega, rfl⟩
        next => cases hd
      next => cases hd
  · rintro ⟨hroom, blockMap, acc, hmap, hacc, hlong, rfl⟩
    simp only [Header.directory]
    rw [if_neg (by omega), hmap]
    simp only [hacc]
    rw [if_neg (by omega)]
    rfl

theorem valueAt?_blockMap {blockMap : Bytes} (hmap : block? data h.blockSize h.blockCount h.blockMap = some blockMap)
    (hroom : h.directoryBlocks * 4 ≤ h.blockSize) {part : Nat} (hpart : part < h.directoryBlocks) :
    blockMap.valueAt? (part * 4) 4 = h.directoryBlock? data part := by
  rw [directoryBlock?]
  exact valueAt?_block? hmap (by omega)

theorem reachable_of_directory {directory : Bytes} (hd : h.directory data = .ok directory) : h.Reachable data := by
  obtain ⟨hroom, blockMap, acc, hmap, hacc, -, -⟩ := directory_eq_ok_iff.mp hd
  obtain ⟨hcount, hfile, -⟩ := block?_eq_some_iff.mp hmap
  refine ⟨hroom, ⟨hcount, hfile⟩, fun part hpart => ?_⟩
  obtain ⟨b, whole, hb, hwhole⟩ := exists_block_of_gather hacc part hpart
  obtain ⟨hcount, hfile, -⟩ := block?_eq_some_iff.mp hwhole
  exact ⟨b, (valueAt?_blockMap hmap hroom hpart).symm.trans hb, hcount, hfile⟩

/-- Where only the last block may be cut off, the blocks one after the other have every byte at its place. -/
theorem gather_of_wholeBlocks (hpos : 0 < h.blockSize) (hwhole : h.WholeBlocks data) (hr : h.Reachable data)
    {blockMap : Bytes} (hmap : block? data h.blockSize h.blockCount h.blockMap = some blockMap) :
    ∃ acc, gather (block? data h.blockSize h.blockCount) blockMap h.directoryBlocks = some acc ∧
      ∀ k, k < h.directoryBlocks * h.blockSize → ∃ pos, h.directoryPosition? data k = some pos ∧
        acc[k]? = data[pos]? := by
  have hentry : ∀ part, part < h.directoryBlocks → blockMap.valueAt? (part * 4) 4 = h.directoryBlock? data part :=
    fun part hpart => valueAt?_blockMap hmap hr.entries_le hpart
  cases hblocks : h.directoryBlocks with
  | zero => exact ⟨#[], rfl, fun k hk => by omega⟩
  | succ last =>
    have hfull : ∀ part, part < last → ∃ b whole, blockMap.valueAt? (part * 4) 4 = some b ∧
        block? data h.blockSize h.blockCount b = some whole ∧ whole.size = h.blockSize := by
      intro part hpart
      obtain ⟨b, hb, hcount, hfile⟩ := hr.named part (by omega)
      have hblock : block? data h.blockSize h.blockCount b = some _ := block?_eq_some_iff.mpr ⟨hcount, hfile, rfl⟩
      have hend := hwhole part b (by omega) hb
      have hsize := size_block? hblock
      exact ⟨b, _, (hentry part (by omega)).trans hb, hblock, by omega⟩
    obtain ⟨acc, hacc, hsize, hbytes⟩ := gather_of_full hfull
    obtain ⟨b, hb, hcount, hfile⟩ := hr.named last (by omega)
    obtain ⟨whole, hlast⟩ : ∃ whole, block? data h.blockSize h.blockCount b = some whole :=
      ⟨_, block?_eq_some_iff.mpr ⟨hcount, hfile, rfl⟩⟩
    refine ⟨acc ++ whole, ?_, fun k hk => ?_⟩
    · rw [gather_succ, hacc, Option.bind_some, hentry last (by omega), hb, Option.bind_some, hlast, Option.map_some]
    · have hoffset := Nat.mod_lt k hpos
      rw [directoryPosition?]
      rcases Nat.lt_or_ge k (last * h.blockSize) with hlt | hge
      · obtain ⟨b', whole, hb', hwhole', hbyte⟩ := hbytes k hlt
        have hpart : k / h.blockSize < last := (Nat.div_lt_iff_lt_mul hpos).mpr hlt
        rw [hentry _ (by omega)] at hb'
        rw [hb', Array.getElem?_append_left (by omega), hbyte, getElem?_block? hwhole' hoffset]
        exact ⟨_, rfl, rfl⟩
      · have hdiv : k / h.blockSize = last := Nat.div_eq_of_lt_le hge hk
        have hmod : k - last * h.blockSize = k % h.blockSize := by
          have hsplit := Nat.div_add_mod' k h.blockSize
          rw [hdiv] at hsplit
          omega
        rw [hdiv, hb, Array.getElem?_append_right (by omega), hsize, hmod, getElem?_block? hlast hoffset]
        exact ⟨_, rfl, rfl⟩

theorem directory_iff_of_wholeBlocks (hpos : 0 < h.blockSize) (hwhole : h.WholeBlocks data) {directory : Bytes} :
    h.directory data = .ok directory ↔ h.Reachable data ∧ h.Spells data directory := by
  have hblocks := le_blocksFor_mul hpos h.directorySize
  have hspells : ∀ {acc : Bytes}, (∀ k, k < h.directoryBlocks * h.blockSize → ∃ pos,
      h.directoryPosition? data k = some pos ∧ acc[k]? = data[pos]?) → h.directorySize ≤ acc.size →
      h.Spells data (acc.extract 0 h.directorySize) := by
    intro acc hbytes hlong
    refine ⟨by rw [Array.size_extract]; omega, fun k hk => ?_⟩
    obtain ⟨pos, hposition, hbyte⟩ := hbytes k (Nat.lt_of_lt_of_le hk hblocks)
    have hlt : pos < data.size := by
      rw [Array.getElem?_eq_getElem (by omega)] at hbyte
      exact (Array.getElem?_eq_some_iff.mp hbyte.symm).1
    refine ⟨pos, hposition, hlt, ?_⟩
    rw [Array.getElem?_extract, if_pos (by omega), Nat.zero_add, hbyte]
  constructor
  · intro hd
    have hr := reachable_of_directory hd
    obtain ⟨-, blockMap, acc, hmap, hacc, hlong, rfl⟩ := directory_eq_ok_iff.mp hd
    obtain ⟨acc', hacc', hbytes⟩ := gather_of_wholeBlocks hpos hwhole hr hmap
    cases hacc.symm.trans hacc'
    exact ⟨hr, hspells hbytes hlong⟩
  · rintro ⟨hr, hs⟩
    have hmap : block? data h.blockSize h.blockCount h.blockMap = some _ :=
      block?_eq_some_iff.mpr ⟨hr.blockMap_lt.1, hr.blockMap_lt.2, rfl⟩
    obtain ⟨acc, hacc, hbytes⟩ := gather_of_wholeBlocks hpos hwhole hr hmap
    -- the last byte of the directory is in the file, so the blocks do not end before it
    have hlong : h.directorySize ≤ acc.size := by
      rcases Nat.eq_zero_or_pos h.directorySize with hzero | hsize
      · omega
      · have hlast : h.directorySize - 1 < h.directoryBlocks * h.blockSize :=
          Nat.lt_of_lt_of_le (by omega) hblocks
        obtain ⟨pos, hposition, hbyte⟩ := hbytes _ hlast
        obtain ⟨pos', hposition', hlt, -⟩ := hs.byte_eq (h.directorySize - 1) (by omega)
        obtain rfl := Option.some.inj (hposition.symm.trans hposition')
        rw [Array.getElem?_eq_getElem hlt] at hbyte
        have hin := (Array.getElem?_eq_some_iff.mp hbyte).1
        omega
    refine directory_eq_ok_iff.mpr ⟨hr.entries_le, _, acc, hmap, hacc, hlong, ?_⟩
    exact hs.unique (hspells hbytes hlong)

end Header

/-- How the directory is read, in terms of the file. Its bytes are taken from where they belong as long as no block
before the last one is cut off by the end of the file. -/
structure ReadsDirectory (h : Header) (data : Bytes) : Prop where
  parse_iff : ∀ c, parse data = .ok c ↔ ∃ directory streams, h.directory data = .ok directory ∧
    Records h.blockSize directory streams ∧ c = ⟨data, h.blockSize, h.blockCount, streams.toArray⟩
  directory_iff : h.WholeBlocks data → ∀ directory, h.directory data = .ok directory ↔
    h.Reachable data ∧ h.Spells data directory
  outside_fails : h.WholeBlocks data → ¬h.Inside data → ∃ fault, parse data = .error fault
  inside_iff : ∀ c, parse data = .ok c → (h.Inside data ↔ h.WholeBlocks data)

theorem readsDirectory_of_header {h : Header} {data : Bytes} (hh : Header.parse data = .ok h) :
    ReadsDirectory h data := by
  have hpos : 0 < h.blockSize := by
    have hle := (le_of_blockSize_mem (Header.parse_eq_ok_iff.mp hh).2.2.2.2.2).1
    omega
  have hparse : ∀ c, parse data = .ok c ↔ ∃ directory streams, h.directory data = .ok directory ∧
      Records h.blockSize directory streams ∧ c = ⟨data, h.blockSize, h.blockCount, streams.toArray⟩ := by
    intro c
    rw [parse_eq_ok_iff]
    constructor
    · rintro ⟨h', directory, streams, hh', hd, hs, rfl⟩
      cases hh.symm.trans hh'
      exact ⟨directory, streams, hd, readDirectory_eq_ok_iff.mp hs, rfl⟩
    · rintro ⟨directory, streams, hd, hs, rfl⟩
      exact ⟨h, directory, streams, hh, hd, readDirectory_eq_ok_iff.mpr hs, rfl⟩
  have hspells : h.WholeBlocks data → ∀ c, parse data = .ok c → h.Inside data := by
    intro hwhole c hc
    obtain ⟨directory, -, hd, -⟩ := (hparse c).mp hc
    exact ((Header.directory_iff_of_wholeBlocks hpos hwhole).mp hd).2.inside
  refine ⟨hparse, fun hwhole directory => Header.directory_iff_of_wholeBlocks hpos hwhole, ?_, ?_⟩
  · intro hwhole hout
    cases hc : parse data with
    | error fault => exact ⟨fault, rfl⟩
    | ok c => exact absurd (hspells hwhole c hc) hout
  · exact fun c hc => ⟨Header.Inside.wholeBlocks hpos, fun hwhole => hspells hwhole c hc⟩

def foldedHead : List UInt8 :=
  mark ++ leBytes 4 512 ++ leBytes 4 1 ++ leBytes 4 4 ++ leBytes 4 516 ++ leBytes 4 0 ++ leBytes 4 1 ++
    List.replicate 456 0

def foldedMap : List UInt8 := leBytes 4 3 ++ leBytes 4 2 ++ List.replicate 504 0

def foldedFirst (zeros : Nat) : List UInt8 := leBytes 4 1 ++ List.replicate zeros 0

def foldedSecond : List UInt8 := List.replicate 512 0xff

/-- A directory of 516 bytes whose second block stands before the first one, which is the last block of the file. -/
def foldedFile (zeros : Nat) : Bytes := (foldedHead ++ (foldedMap ++ (foldedSecond ++ foldedFirst zeros))).toArray

theorem parse_foldedFile {zeros : Nat} {streams : List (Option StreamLayout)}
    (hh : Header.parse (foldedFile zeros) = .ok ⟨512, 4, 516, 1⟩) (hzeros : zeros ≤ 508)
    (hr : Records 512 ((foldedFirst zeros ++ foldedSecond).take 516).toArray streams) :
    parse (foldedFile zeros) = .ok ⟨foldedFile zeros, 512, 4, streams.toArray⟩ := by
  have hhead : foldedHead.length = 512 := by decide +kernel
  have hmapLength : foldedMap.length = 512 := by decide +kernel
  have hsecondLength : foldedSecond.length = 512 := List.length_replicate
  have hfirstLength : (foldedFirst zeros).length = 4 + zeros := by
    rw [foldedFirst, List.length_append, length_leBytes, List.length_replicate]
  have hmap : block? (foldedFile zeros) 512 4 1 = some foldedMap.toArray := by
    have hne : foldedMap ++ (foldedSecond ++ foldedFirst zeros) ≠ [] :=
      List.ne_nil_of_length_pos (by rw [List.length_append]; omega)
    have hblock : block? (foldedFile zeros) 512 4 1 = _ := block?_of_toList rfl (by decide) hhead hne
    rw [hblock, List.take_left' hmapLength]
  have hsecond : block? (foldedFile zeros) 512 4 2 = some foldedSecond.toArray := by
    have hsplit : (foldedFile zeros).toList = foldedHead ++ foldedMap ++ (foldedSecond ++ foldedFirst zeros) := by
      rw [foldedFile, List.append_assoc]
    have hbefore : (foldedHead ++ foldedMap).length = 2 * 512 := by rw [List.length_append, hhead, hmapLength]
    have hne : foldedSecond ++ foldedFirst zeros ≠ [] :=
      List.ne_nil_of_length_pos (by rw [List.length_append]; omega)
    rw [block?_of_toList hsplit (by decide) hbefore hne, List.take_left' hsecondLength]
  have hfirst : block? (foldedFile zeros) 512 4 3 = some (foldedFirst zeros).toArray := by
    have hsplit : (foldedFile zeros).toList = foldedHead ++ (foldedMap ++ foldedSecond) ++ foldedFirst zeros := by
      rw [foldedFile, List.append_assoc, List.append_assoc]
    have hbefore : (foldedHead ++ (foldedMap ++ foldedSecond)).length = 3 * 512 := by
      rw [List.length_append, List.length_append, hhead, hmapLength, hsecondLength]
    rw [block?_of_toList hsplit (by decide) hbefore (List.ne_nil_of_length_pos (by omega)),
      List.take_of_length_le (by omega)]
  have hgather : gather (block? (foldedFile zeros) 512 4) foldedMap.toArray 2 =
      some (foldedFirst zeros ++ foldedSecond).toArray := by
    have hentry : Bytes.valueAt? foldedMap.toArray (0 * 4) 4 = some 3 := by decide +kernel
    have hentry' : Bytes.valueAt? foldedMap.toArray (1 * 4) 4 = some 2 := by decide +kernel
    have hstart : gather (block? (foldedFile zeros) 512 4) foldedMap.toArray 0 = some #[] := rfl
    rw [gather_succ, gather_succ, hstart]
    simp only [hentry, hentry', hfirst, hsecond, Option.bind_some, Option.map_some, List.nil_append,
      List.append_toArray]
  have hdirectory : Header.directory ⟨512, 4, 516, 1⟩ (foldedFile zeros) =
      .ok ((foldedFirst zeros ++ foldedSecond).take 516).toArray := by
    refine Header.directory_eq_ok_iff.mpr ⟨by decide, _, _, hmap, hgather, ?_, ?_⟩
    · rw [List.size_toArray, List.length_append, hfirstLength, hsecondLength]
      exact (by omega : 516 ≤ 4 + zeros + 512)
    · rw [List.extract_toArray, List.extract_eq_take_drop]
      rfl
  exact parse_eq_ok_iff.mpr ⟨_, _, streams, hh, hdirectory, readDirectory_of_records hr, rfl⟩

/-- Where the first block is whole, the size of the only stream is taken from it. -/
theorem readsDirectory_foldedFile : ∃ h c, Header.parse (foldedFile 508) = .ok h ∧ ReadsDirectory h (foldedFile 508) ∧
    parse (foldedFile 508) = .ok c ∧ h.Inside (foldedFile 508) ∧ c.streams = #[some ⟨0, []⟩] := by
  have hh : Header.parse (foldedFile 508) = .ok ⟨512, 4, 516, 1⟩ := by decide +kernel
  have hr : Records 512 ((foldedFirst 508 ++ foldedSecond).take 516).toArray [some ⟨0, []⟩] := by
    refine ⟨⟨List.replicate 504 0 ++ List.replicate 4 0xff, by decide +kernel⟩, fun l hl => ?_, by decide⟩
    cases List.mem_singleton.mp hl
    exact ⟨by decide, by decide, fun b hb => (List.not_mem_nil hb).elim⟩
  have hparse := parse_foldedFile hh (by decide) hr
  have hreads := readsDirectory_of_header hh
  refine ⟨_, _, hh, hreads, hparse, (hreads.inside_iff _ hparse).mpr fun part b hpart hb => ?_, rfl⟩
  have hcount : Header.directoryBlocks ⟨512, 4, 516, 1⟩ = 2 := rfl
  obtain rfl : part = 0 := by omega
  have hblock : Header.directoryBlock? ⟨512, 4, 516, 1⟩ (foldedFile 508) 0 = some 3 := by decide +kernel
  have hsize : (foldedFile 508).size = 2048 := by decide +kernel
  obtain rfl := Option.some.inj (hblock.symm.trans hb)
  rw [hsize]
  decide

/-- Where only four bytes of the first block are in the file, the size is taken from the start of the second one. -/
theorem shifted_foldedFile : ∃ h c, Header.parse (foldedFile 0) = .ok h ∧ parse (foldedFile 0) = .ok c ∧
    4 < h.directorySize ∧ h.directoryPosition? (foldedFile 0) 4 = some (foldedFile 0).size ∧ c.streams = #[none] := by
  have hh : Header.parse (foldedFile 0) = .ok ⟨512, 4, 516, 1⟩ := by decide +kernel
  have hr : Records 512 ((foldedFirst 0 ++ foldedSecond).take 516).toArray [none] := by
    refine ⟨⟨List.replicate 508 0xff, by decide +kernel⟩, fun l hl => ?_, by decide⟩
    cases List.mem_singleton.mp hl
  have hparse := parse_foldedFile hh (by decide) hr
  exact ⟨_, _, hh, hparse, by decide, by decide +kernel, rfl⟩

end CodeAtlas.Container
