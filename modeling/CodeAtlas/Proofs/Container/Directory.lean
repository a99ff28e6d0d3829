import CodeAtlas.Container.Basic
import CodeAtlas.Proofs.Bytes.Reading
import CodeAtlas.Proofs.Outcome

namespace CodeAtlas

/-- The stream exists, has one block for each part of it, and all its numbers can be recorded. -/
structure StreamLayout.Fits (blockSize : Nat) (l : StreamLayout) : Prop where
  size_lt : l.size < Container.nilSize
  length_blocks : l.blocks.length = Container.blocksFor l.size blockSize
  block_lt : ∀ b ∈ l.blocks, b < 2 ^ 32

namespace Container

def recordedSize : Option StreamLayout → Nat
  | none => nilSize
  | some l => l.size

def recordedBlocks : Option StreamLayout → List Nat
  | none => []
  | some l => l.blocks

/-- The directory of streams with these layouts: their number, their sizes and their block lists. -/
def writeDirectory (ls : List (Option StreamLayout)) : List UInt8 :=
  leBytes 4 ls.length ++ (ls.map recordedSize).flatMap (leBytes 4) ++
    ls.flatMap fun l => (recordedBlocks l).flatMap (leBytes 4)

theorem length_writeDirectory (ls : List (Option StreamLayout)) : (writeDirectory ls).length =
    4 + ls.length * 4 + (ls.flatMap fun l => (recordedBlocks l).flatMap (leBytes 4)).length := by
  rw [writeDirectory, List.length_append, List.length_append, length_leBytes, length_flatMap_leBytes, List.length_map]

/-- A directory has room for the number of streams, for the size of each and for any one block list. -/
theorem le_length_writeDirectory {ls : List (Option StreamLayout)} {l : StreamLayout} (h : some l ∈ ls) :
    8 + l.blocks.length * 4 ≤ (writeDirectory ls).length := by
  have hpos : 0 < ls.length := List.length_pos_of_mem h
  have hmem : l.blocks.flatMap (leBytes 4) ∈ ls.map fun l => (recordedBlocks l).flatMap (leBytes 4) :=
    List.mem_map.mpr ⟨some l, h, rfl⟩
  have hlist := (List.sublist_flatten_of_mem hmem).length_le
  rw [length_flatMap_leBytes, ← List.flatMap_def] at hlist
  rw [length_writeDirectory]
  omega

theorem reads_words {ns : List Nat} (h : ∀ n ∈ ns, n < 2 ^ 32) :
    Reader.Reads (Reader.times ns.length (Cursor.value 4)) (ns.flatMap (leBytes 4)) ns :=
  Reader.Reads.times fun n hn => Reader.reads_value_leBytes (h n hn)

theorem layouts_of_remaining {blockSize : Nat} {ls : List (Option StreamLayout)}
    (hfit : ∀ l, some l ∈ ls → l.Fits blockSize) (index : Nat) (c : Cursor) (after : List UInt8)
    (h : c.remaining = (ls.flatMap fun l => (recordedBlocks l).flatMap (leBytes 4)) ++ after) :
    layouts blockSize index (ls.map recordedSize) c = .ok ls := by
  induction ls generalizing index c with
  | nil => rfl
  | cons l ls ih =>
    have hfit' : ∀ l, some l ∈ ls → l.Fits blockSize := fun l hl => hfit l (List.mem_cons_of_mem _ hl)
    rw [List.flatMap_cons, List.append_assoc] at h
    cases l with
    | none =>
      rw [List.map_cons, recordedSize, layouts, if_pos rfl, ih hfit' (index + 1) c (by simpa [recordedBlocks] using h)]
      rfl
    | some l =>
      obtain ⟨hsize, hlength, hblocks⟩ := hfit l List.mem_cons_self
      rw [recordedBlocks] at h
      have hread := reads_words hblocks c _ h
      have hleft : blocksFor l.size blockSize * 4 ≤ c.left := by
        rw [← Cursor.length_remaining, h, List.length_append, length_flatMap_leBytes, hlength]
        omega
      have hrest : (c.advance (l.blocks.flatMap (leBytes 4)).length).remaining =
          (ls.flatMap fun l => (recordedBlocks l).flatMap (leBytes 4)) ++ after :=
        Cursor.remaining_advance_length h
      rw [hlength] at hread
      rw [List.map_cons, recordedSize, layouts, if_neg (Nat.ne_of_lt hsize), if_neg (by omega)]
      simp only [hread, ih hfit' (index + 1) _ hrest]
      rfl

theorem readDirectory_eq {blockSize count : Nat} {directory : Bytes} {sizes : List Nat} {c c' : Cursor}
    (hvalue : (Cursor.ofBytes directory).value 4 = (count, c)) (hover : c.overrun = false)
    (hleft : count * 4 ≤ c.left) (hsizes : (Reader.times count (Cursor.value 4)).run c = (sizes, c')) :
    readDirectory blockSize directory = layouts blockSize 0 sizes c' := by
  have hroom : ¬(c.overrun = true ∨ c.left < count * 4) := by
    rw [hover, Bool.false_eq_true, false_or]
    omega
  unfold readDirectory
  rw [hvalue]
  simp only [hroom, if_false]
  rw [hsizes]

/-- The directory starts with what is recorded about streams with these layouts. Bytes after that do not count. -/
structure Records (blockSize : Nat) (directory : Bytes) (ls : List (Option StreamLayout)) : Prop where
  starts : ∃ after, directory.toList = writeDirectory ls ++ after
  fits : ∀ l, some l ∈ ls → l.Fits blockSize
  count_lt : ls.length < 2 ^ 32

theorem readDirectory_of_records {blockSize : Nat} {directory : Bytes} {ls : List (Option StreamLayout)}
    (h : Records blockSize directory ls) : readDirectory blockSize directory = .ok ls := by
  obtain ⟨⟨after, hstart⟩, hfit, hcount⟩ := h
  rw [← Cursor.remaining_ofBytes, writeDirectory, List.append_assoc, List.append_assoc] at hstart
  have hword : ls.length < 256 ^ 4 := hcount
  have hvalue := Reader.reads_value_leBytes hword _ _ hstart
  have hsizes := congrArg (List.drop (leBytes 4 ls.length).length) hstart
  rw [List.drop_left, ← Cursor.remaining_advance] at hsizes
  have hsmall : ∀ n ∈ ls.map recordedSize, n < 2 ^ 32 := by
    intro n hn
    obtain ⟨l, hl, rfl⟩ := List.mem_map.mp hn
    cases l with
    | none => exact (by decide : nilSize < 2 ^ 32)
    | some l => exact Nat.lt_trans (hfit l hl).size_lt (by decide)
  have hread := reads_words hsmall _ _ hsizes
  have hrest := congrArg (List.drop ((ls.map recordedSize).flatMap (leBytes 4)).length) hsizes
  rw [List.drop_left, ← Cursor.remaining_advance] at hrest
  have hleft : ls.length * 4 ≤ ((Cursor.ofBytes directory).advance (leBytes 4 ls.length).length).left := by
    rw [← Cursor.length_remaining, hsizes, List.length_append, length_flatMap_leBytes, List.length_map]
    omega
  rw [List.length_map] at hread
  rw [readDirectory_eq hvalue rfl hleft hread, layouts_of_remaining hfit 0 _ _ hrest]

/-- What is recorded about streams is read back. -/
theorem readDirectory_writeDirectory {blockSize : Nat} {ls : List (Option StreamLayout)}
    (hfit : ∀ l, some l ∈ ls → l.Fits blockSize) (hcount : ls.length < 2 ^ 32) :
    readDirectory blockSize (writeDirectory ls).toArray = .ok ls :=
  readDirectory_of_records ⟨⟨[], (List.append_nil _).symm⟩, hfit, hcount⟩

/-- Words that are there are read, and the bytes that are passed over are those of the words. -/
theorem exists_times_value {n : Nat} {c : Cursor} (h : n * 4 ≤ c.left) : ∃ ns, ns.length = n ∧
    (∀ m ∈ ns, m < 2 ^ 32) ∧ (Reader.times n (Cursor.value 4)).run c = (ns, c.advance (n * 4)) ∧
    c.remaining = ns.flatMap (leBytes 4) ++ (c.advance (n * 4)).remaining := by
  have htake : (c.remaining.take (n * 4)).length = n * 4 := by
    rw [List.length_take, Cursor.length_remaining]
    omega
  obtain ⟨ns, hlength, hsmall, hns⟩ := exists_words htake
  have hsplit : c.remaining = ns.flatMap (leBytes 4) ++ (c.advance (n * 4)).remaining := by
    rw [hns, Cursor.remaining_advance, List.take_append_drop]
  have hread := reads_words hsmall c _ hsplit
  rw [hns, htake, hlength] at hread
  exact ⟨ns, hlength, hsmall, hread, hsplit⟩

theorem remaining_of_layouts {blockSize index : Nat} {sizes : List Nat} {c : Cursor} {ls : List (Option StreamLayout)}
    (hsizes : ∀ n ∈ sizes, n < 2 ^ 32) (h : layouts blockSize index sizes c = .ok ls) :
    ls.map recordedSize = sizes ∧ (∀ l, some l ∈ ls → l.Fits blockSize) ∧
      ∃ after, c.remaining = (ls.flatMap fun l => (recordedBlocks l).flatMap (leBytes 4)) ++ after := by
  induction sizes generalizing index c ls with
  | nil =>
    cases h
    exact ⟨rfl, fun l hl => (List.not_mem_nil hl).elim, c.remaining, rfl⟩
  | cons size sizes ih =>
    have hrest : ∀ n ∈ sizes, n < 2 ^ 32 := fun n hn => hsizes n (List.mem_cons_of_mem size hn)
    rw [layouts] at h
    split at h
    next hnil =>
      obtain ⟨rest, hread, rfl⟩ := map_eq_ok_iff.mp h
      obtain ⟨hmap, hfit, after, hafter⟩ := ih hrest hread
      refine ⟨?_, fun l hl => ?_, after, hafter⟩
      · rw [List.map_cons, hmap, hnil]
        rfl
      · rcases List.mem_cons.mp hl with he | hl
        · cases he
        · exact hfit l hl
    next hnil =>
      dsimp only at h
      split at h
      next => cases h
      next hroom =>
        have hleft : blocksFor size blockSize * 4 ≤ c.left := by omega
        obtain ⟨blocks, hlength, hsmall, hblocks, hsplit⟩ := exists_times_value hleft
        rw [hblocks] at h
        obtain ⟨rest, hread, rfl⟩ := map_eq_ok_iff.mp h
        obtain ⟨hmap, hfit, after, hafter⟩ := ih hrest hread
        have hsize := hsizes size List.mem_cons_self
        refine ⟨?_, fun l hl => ?_, after, ?_⟩
        · rw [List.map_cons, hmap]
          rfl
        · rcases List.mem_cons.mp hl with he | hl
          · cases he
            refine ⟨?_, hlength, hsmall⟩
            simp only [nilSize] at hnil ⊢
            omega
          · exact hfit l hl
        · rw [hsplit, hafter, List.flatMap_cons, recordedBlocks, List.append_assoc]

/-- Only what is recorded is read. -/
theorem records_of_readDirectory {blockSize : Nat} {directory : Bytes} {ls : List (Option StreamLayout)}
    (h : readDirectory blockSize directory = .ok ls) : Records blockSize directory ls := by
  by_cases hword : 1 * 4 ≤ (Cursor.ofBytes directory).left
  · obtain ⟨counts, hlength, hsmall, hcount, hsplit⟩ := exists_times_value hword
    obtain ⟨count, rfl⟩ := List.length_eq_one_iff.mp hlength
    have hlt : count < 256 ^ 4 := hsmall count List.mem_cons_self
    have hvalue : (Cursor.ofBytes directory).value 4 = (count, (Cursor.ofBytes directory).advance 4) := by
      rw [List.flatMap_singleton] at hsplit
      have hvalue := Reader.reads_value_leBytes hlt _ _ hsplit
      rwa [length_leBytes] at hvalue
    by_cases hleft : count * 4 ≤ ((Cursor.ofBytes directory).advance 4).left
    · obtain ⟨sizes, hlength, hsmall, hsizes, hsplit'⟩ := exists_times_value hleft
      rw [readDirectory_eq hvalue rfl hleft hsizes] at h
      obtain ⟨hmap, hfit, after, hafter⟩ := remaining_of_layouts hsmall h
      have hcount : ls.length = count := by rw [← hlength, ← hmap, List.length_map]
      refine ⟨⟨after, ?_⟩, hfit, hcount ▸ hlt⟩
      rw [← Cursor.remaining_ofBytes, hsplit, hsplit', hafter, writeDirectory, hmap, hcount, List.flatMap_singleton]
      simp only [List.append_assoc]
    · unfold readDirectory at h
      rw [hvalue] at h
      dsimp only at h
      rw [if_pos (.inr (by omega))] at h
      cases h
  · have hspoil : (Cursor.ofBytes directory).value 4 = (0, (Cursor.ofBytes directory).spoil) := by
      rw [Cursor.value, Cursor.bytes, if_neg (by omega)]
      rfl
    unfold readDirectory at h
    rw [hspoil] at h
    cases h

theorem readDirectory_eq_ok_iff {blockSize : Nat} {directory : Bytes} {ls : List (Option StreamLayout)} :
    readDirectory blockSize directory = .ok ls ↔ Records blockSize directory ls :=
  ⟨records_of_readDirectory, readDirectory_of_records⟩

end Container

end CodeAtlas
