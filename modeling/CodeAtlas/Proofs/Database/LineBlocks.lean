import CodeAtlas.Proofs.Database.LineEncoding
import Mathlib.Data.List.Chain
import Mathlib.Tactic.SplitIfs

namespace CodeAtlas.Database

theorem StoredLine.exists_bytes {piece : List UInt8} (h : piece.length = 8) : ∃ l : StoredLine, l.bytes = piece := by
  have hoffset : (piece.take 4).length = 4 := by
    rw [List.length_take]
    omega
  have hword : (piece.drop 4).length = 4 := by
    rw [List.length_drop]
    omega
  have hlt := leValue_lt (piece.take 4)
  have hlt' := leValue_lt (piece.drop 4)
  have hbytes := leBytes_leValue (piece.take 4)
  have hbytes' := leBytes_leValue (piece.drop 4)
  rw [hoffset] at hlt hbytes
  rw [hword] at hlt' hbytes'
  refine ⟨⟨.ofNat (leValue (piece.take 4)), .ofNat (leValue (piece.drop 4))⟩, ?_⟩
  rw [StoredLine.bytes, UInt32.toNat_ofNat_of_lt' hlt, UInt32.toNat_ofNat_of_lt' hlt', hbytes, hbytes',
    List.take_append_drop]

/-- Whatever bytes there are, they are those of lines. -/
theorem StoredLine.exists_holds (data : Bytes) (pos count : Nat) (h : pos + count * 8 ≤ data.size) :
    ∃ words : List StoredLine, words.length = count ∧ data.Holds pos (words.flatMap StoredLine.bytes) ∧
      ((Reader.times count LineStart.read).run (.ofBytes (data.drop pos))).1 = words.map StoredLine.start := by
  have hpart : data.slice? pos (count * 8) = some (data.extract pos (pos + count * 8)) :=
    Bytes.slice?_eq_some_iff.mpr ⟨h, rfl⟩
  have hpieces : ∀ piece : List UInt8, piece.length = 8 → ∃ l : StoredLine, True ∧ l.bytes = piece :=
    fun piece hpiece => (exists_bytes hpiece).imp fun l hl => ⟨trivial, hl⟩
  obtain ⟨words, rfl, -, hwords⟩ := exists_flatMap_eq hpieces (Bytes.size_of_slice? hpart)
  have hholds := Bytes.holds_of_slice? hpart
  rw [← hwords] at hholds
  obtain ⟨after, hafter⟩ := hholds.toList_drop
  refine ⟨words, rfl, hholds, ?_⟩
  rw [Reader.Reads.times_map (fun l _ => StoredLine.reads_bytes l) (.ofBytes (data.drop pos)) after hafter]

/-- A block of lines that is found in a body, with the size that it claims to have. -/
structure LineBlock where
  pos : Nat
  file : UInt32
  size : UInt32
  lines : List LineStart
deriving DecidableEq

namespace LineBlock

/-- Where the lines of a block end. -/
def stop (b : LineBlock) : Nat := b.pos + 12 + b.lines.length * 8

def readAt? (data : Bytes) (pos : Nat) : Option LineBlock :=
  match data.u32At? pos, data.u32At? (pos + 4), data.u32At? (pos + 8) with
  | some file, some count, some size =>
    if data.size < pos + 12 + count.toNat * 8 then none
    else some ⟨pos, file, size, ((Reader.times count.toNat LineStart.read).run (.ofBytes (data.drop (pos + 12)))).1⟩
  | _, _, _ => none

/-- How many bytes are left out behind the lines where the size is not that of a block. -/
def columns (hasColumns : Bool) (b : LineBlock) : Nat := if hasColumns then b.lines.length * 4 else 0

/-- Where the next block is looked for, unless columns are missing. -/
def next? (hasColumns : Bool) (data : Bytes) (b : LineBlock) : Option Nat :=
  if b.size < 12 ∨ data.size < b.pos + b.size.toNat then
    if data.size < b.stop + b.columns hasColumns then none else some (b.stop + b.columns hasColumns)
  else some (b.pos + b.size.toNat)

/-- The bytes of the head and of the lines stand where the block is said to be. -/
def Stands (data : Bytes) (b : LineBlock) : Prop :=
  ∃ words : List StoredLine, words.map StoredLine.start = b.lines ∧ data.Holds b.pos
    (leBytes 4 b.file.toNat ++ (leBytes 4 words.length ++ (leBytes 4 b.size.toNat ++ words.flatMap StoredLine.bytes)))

variable {hasColumns : Bool} {data : Bytes} {pos p : Nat} {b : LineBlock}

theorem readAt?_eq_some (h : readAt? data pos = some b) : b.pos = pos ∧ b.stop ≤ data.size ∧ b.Stands data := by
  rw [readAt?] at h
  split at h
  next file count size hfile hcount hsize =>
    split_ifs at h with hshort
    cases h
    obtain ⟨words, hlength, hwords, hlines⟩ :=
      StoredLine.exists_holds data (pos + 12) count.toNat (by omega)
    rw [stop]
    dsimp only
    rw [hlines, List.length_map, hlength]
    refine ⟨rfl, by omega, words, rfl, ?_⟩
    rw [hlength]
    exact (Bytes.holds_of_u32At? hfile).append ((Bytes.holds_of_u32At? hcount).append
      ((Bytes.holds_of_u32At? hsize).append hwords))
  next => cases h

theorem le_next? (h : b.next? hasColumns data = some p) : b.pos + 12 ≤ p := by
  rw [next?] at h
  split_ifs at h with hsize hend
  · cases h
    rw [stop]
    omega
  · cases h
    rw [UInt32.lt_iff_toNat_lt] at hsize
    simp only [UInt32.reduceToNat] at hsize
    omega

/-- The next block starts behind the lines unless the claimed size ends among them. -/
theorem stop_le_next?_iff (hstop : b.stop ≤ data.size) (h : b.next? hasColumns data = some p) :
    b.stop ≤ p ↔ b.size < 12 ∨ b.stop ≤ b.pos + b.size.toNat := by
  rw [next?] at h
  split_ifs at h with hsize hend
  · cases h
    have hclaim : b.size < 12 ∨ b.stop ≤ b.pos + b.size.toNat :=
      hsize.imp_right fun hlong => Nat.le_of_lt (Nat.lt_of_le_of_lt hstop hlong)
    exact ⟨fun _ => hclaim, fun _ => Nat.le_add_right _ _⟩
  · cases h
    rw [not_or] at hsize
    simp [hsize.1]

theorem stop_le_of_readAt? (h : readAt? data pos = some b) : pos + 12 ≤ data.size := by
  obtain ⟨rfl, hstop, -⟩ := readAt?_eq_some h
  rw [stop] at hstop
  omega

/-- The blocks from a position on. -/
def list (hasColumns : Bool) (data : Bytes) (pos : Nat) : List LineBlock :=
  match _hb : readAt? data pos with
  | none => []
  | some b =>
    match _hp : b.next? hasColumns data with
    | none => [b]
    | some p => b :: list hasColumns data p
termination_by data.size + 1 - pos
decreasing_by
  have hsize := stop_le_of_readAt? _hb
  obtain ⟨rfl, -, -⟩ := readAt?_eq_some _hb
  have hnext := le_next? _hp
  omega

theorem mem_list (h : b ∈ list hasColumns data pos) : pos ≤ b.pos ∧ b.stop ≤ data.size ∧ b.Stands data := by
  fun_induction list hasColumns data pos with
  | case1 pos hread => cases h
  | case2 pos first hread hnext =>
    obtain rfl := List.mem_singleton.mp h
    obtain ⟨rfl, hb⟩ := readAt?_eq_some hread
    exact ⟨Nat.le_refl _, hb⟩
  | case3 pos first hread p hnext ih =>
    obtain ⟨rfl, hfirst⟩ := readAt?_eq_some hread
    rcases List.mem_cons.mp h with rfl | h
    · exact ⟨Nat.le_refl _, hfirst⟩
    · have hp := le_next? hnext
      have hb := ih h
      exact ⟨by omega, hb.2⟩

theorem head?_list (h : (list hasColumns data pos).head? = some b) : b.pos = pos := by
  rw [list] at h
  split at h
  next => cases h
  next first hread =>
    obtain ⟨rfl, -⟩ := readAt?_eq_some hread
    split at h <;> cases h <;> rfl

/-- A bound holds of all blocks once it holds of where the first one is looked for. -/
theorem forall_le_pos_iff {n : Nat} (h : list hasColumns data pos ≠ []) :
    (∀ b ∈ list hasColumns data pos, n ≤ b.pos) ↔ n ≤ pos := by
  constructor
  · intro hall
    obtain ⟨b, bs, hlist⟩ := List.exists_cons_of_ne_nil h
    have hpos : b.pos = pos := head?_list (by rw [hlist, List.head?_cons])
    rw [← hpos]
    exact hall b (by rw [hlist]; exact List.mem_cons_self)
  · intro hpos b hb
    exact Nat.le_trans hpos (mem_list hb).1

end LineBlock

variable {data : Bytes} {pos : Nat}

theorem blocks_step (m : AddressMap) (c : Contribution) (data : Bytes) (pos : Nat) :
    blocks m c data pos =
      match LineBlock.readAt? data pos with
      | none => []
      | some b => blockRecords m c b.file b.lines ++
        match b.next? c.hasColumns data with
        | none => []
        | some p => blocks m c data p := by
  by_cases hshort : data.size < pos + 12
  · have hnone : LineBlock.readAt? data pos = none := by
      rw [Option.eq_none_iff_forall_ne_some]
      intro b hb
      have hsize := LineBlock.stop_le_of_readAt? hb
      omega
    rw [blocks, if_pos hshort, hnone]
  · rw [blocks, if_neg hshort]
    split
    next file count size hfile hcount hsize =>
      simp only [LineBlock.readAt?, hfile, hcount, hsize]
      by_cases hcut : data.size < pos + 12 + count.toNat * 8
      · rw [if_pos hcut, if_pos hcut]
      · have hlength := Reader.length_times count.toNat LineStart.read (.ofBytes (data.drop (pos + 12)))
        simp only [if_neg hcut, LineBlock.next?, LineBlock.stop, LineBlock.columns, hlength]
        split_ifs <;> simp
    next hnone =>
      have hread : LineBlock.readAt? data pos = none := by
        rw [LineBlock.readAt?]
        split
        next file count size hfile hcount hsize => exact (hnone file count size hfile hcount hsize).elim
        next => rfl
      rw [hread]

theorem blocks_eq_flatMap (m : AddressMap) (c : Contribution) (data : Bytes) (pos : Nat) :
    blocks m c data pos = (LineBlock.list c.hasColumns data pos).flatMap fun b => blockRecords m c b.file b.lines := by
  fun_induction LineBlock.list c.hasColumns data pos with
  | case1 pos hread => rw [blocks_step, hread, List.flatMap_nil]
  | case2 pos b hread hnext =>
    rw [blocks_step, hread]
    dsimp only
    rw [hnext, List.append_nil, List.flatMap_singleton]
  | case3 pos b hread p hnext ih =>
    rw [blocks_step, hread]
    dsimp only
    rw [hnext, List.flatMap_cons, ← ih]

/-- What is read from lines at a position on: blocks whose heads follow one another. They share no bytes just when no
block but the last claims a size that ends among its lines and could still be that of a block. -/
structure ReadsForward (m : AddressMap) (c : Contribution) (data : Bytes) (pos : Nat) : Prop where
  records : blocks m c data pos =
    (LineBlock.list c.hasColumns data pos).flatMap fun b => blockRecords m c b.file b.lines
  stands : ∀ b ∈ LineBlock.list c.hasColumns data pos, pos ≤ b.pos ∧ b.stop ≤ data.size ∧ b.Stands data
  bounded : (LineBlock.list c.hasColumns data pos).length * 12 ≤ data.size - pos
  heads : (LineBlock.list c.hasColumns data pos).Pairwise fun a b => a.pos + 12 ≤ b.pos
  next_iff : (LineBlock.list c.hasColumns data pos).IsChain fun a b =>
    a.stop ≤ b.pos ↔ a.size < 12 ∨ a.stop ≤ a.pos + a.size.toNat
  disjoint_iff : ((LineBlock.list c.hasColumns data pos).Pairwise fun a b => a.stop ≤ b.pos) ↔
    ∀ b ∈ (LineBlock.list c.hasColumns data pos).dropLast, b.size < 12 ∨ b.stop ≤ b.pos + b.size.toNat

theorem length_list_le (hasColumns : Bool) (data : Bytes) (pos : Nat) :
    (LineBlock.list hasColumns data pos).length * 12 ≤ data.size - pos := by
  fun_induction LineBlock.list hasColumns data pos with
  | case1 pos hread => exact Nat.zero_le _
  | case2 pos b hread hnext =>
    have hsize := LineBlock.stop_le_of_readAt? hread
    rw [List.length_singleton]
    omega
  | case3 pos b hread p hnext ih =>
    have hsize := LineBlock.stop_le_of_readAt? hread
    obtain ⟨rfl, -⟩ := LineBlock.readAt?_eq_some hread
    have hp := LineBlock.le_next? hnext
    rw [List.length_cons]
    omega

theorem readsForward (m : AddressMap) (c : Contribution) (data : Bytes) (pos : Nat) : ReadsForward m c data pos where
  records := blocks_eq_flatMap m c data pos
  stands _ h := LineBlock.mem_list h
  bounded := length_list_le c.hasColumns data pos
  heads := by
    fun_induction LineBlock.list c.hasColumns data pos with
    | case1 pos hread => exact .nil
    | case2 pos b hread hnext => exact List.pairwise_singleton _ b
    | case3 pos b hread p hnext ih =>
      refine List.pairwise_cons.mpr ⟨fun b' hb' => ?_, ih⟩
      exact Nat.le_trans (LineBlock.le_next? hnext) (LineBlock.mem_list hb').1
  next_iff := by
    fun_induction LineBlock.list c.hasColumns data pos with
    | case1 pos hread => exact .nil
    | case2 pos b hread hnext => exact .singleton b
    | case3 pos b hread p hnext ih =>
      refine List.isChain_cons.mpr ⟨fun b' hb' => ?_, ih⟩
      rw [LineBlock.head?_list hb']
      exact LineBlock.stop_le_next?_iff (LineBlock.readAt?_eq_some hread).2.1 hnext
  disjoint_iff := by
    fun_induction LineBlock.list c.hasColumns data pos with
    | case1 pos hread => simp
    | case2 pos b hread hnext => simp
    | case3 pos b hread p hnext ih =>
      by_cases hlast : LineBlock.list c.hasColumns data p = []
      · simp [hlast]
      · rw [List.pairwise_cons, LineBlock.forall_le_pos_iff hlast,
          LineBlock.stop_le_next?_iff (LineBlock.readAt?_eq_some hread).2.1 hnext, ih,
          List.dropLast_cons_of_ne_nil hlast, List.forall_mem_cons]

/-- The first block has three lines and the size of a head, so that its first line is also taken for the head of a
second block, whose line the compiler never stored. -/
theorem sharesBytes_smallBlock :
    let body : Bytes := ([0, 1, 0, 0, 1, 0, 0, 0, 0x40, 0, 0, 0] ++
      [0, 3, 12, 0, 1, 0x14, 5, 0x20, 7].flatMap (leBytes 4)).toArray
    LineBlock.list false body 12 =
        [⟨12, 0, 12, [⟨0, 1⟩, ⟨0x14, 5⟩, ⟨0x20, 7⟩]⟩, ⟨24, 0, 0x14, [⟨5, 0x20⟩]⟩] ∧
      ¬((LineBlock.list false body 12).Pairwise fun a b => a.stop ≤ b.pos) ∧
      lineRecords ⟨[⟨[], 0x1000, 0x1000, 0, 0, 0⟩], #[]⟩ body =
        [⟨0x1100, 0x1114, 1, 0⟩, ⟨0x1114, 0x1120, 5, 0⟩, ⟨0x1120, 0x1140, 7, 0⟩, ⟨0x1105, 0x1140, 0x20, 0⟩] := by
  decide +kernel

end CodeAtlas.Database
