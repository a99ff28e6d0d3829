import CodeAtlas.Container.Stream
import CodeAtlas.Proofs.Bytes.Slice
import CodeAtlas.Proofs.Container.WellFormed

namespace CodeAtlas.Container

/-- Byte `k` of the content is byte `k % blockSize` of the block in place `k / blockSize`. -/
def Spells (c : Container) (blocks : List Nat) (content : Bytes) : Prop :=
  ∀ k, k < content.size → ∃ b, blocks[k / c.blockSize]? = some b ∧
    content[k]? = c.data[b * c.blockSize + k % c.blockSize]?

/-- Every block is known to the container and starts in the file, and what it adds to the stream lies in the file. -/
def Backed (c : Container) (l : StreamLayout) : Prop :=
  (∀ b ∈ l.blocks, b < c.blockCount ∧ b * c.blockSize < c.data.size) ∧
    ∀ p b, l.blocks[p]? = some b → b * c.blockSize + min c.blockSize (l.size - p * c.blockSize) ≤ c.data.size

variable {c : Container}

theorem Spells.unique {blocks : List Nat} {x y : Bytes} (hx : c.Spells blocks x) (hy : c.Spells blocks y)
    (hs : x.size = y.size) : x = y := by
  refine Array.ext_getElem? fun k => ?_
  rcases Nat.lt_or_ge k x.size with hk | hk
  · obtain ⟨b, hb, he⟩ := hx k hk
    obtain ⟨b', hb', he'⟩ := hy k (by omega)
    obtain rfl := Option.some.inj (hb.symm.trans hb')
    rw [he, he']
  · rw [Array.getElem?_eq_none hk, Array.getElem?_eq_none (by omega)]

theorem toList_foldl_append (parts : List Bytes) (start : Bytes) :
    (parts.foldl (· ++ ·) start).toList = start.toList ++ parts.flatMap Array.toList := by
  induction parts generalizing start with
  | nil => rw [List.foldl_nil, List.flatMap_nil, List.append_nil]
  | cons part parts ih => rw [List.foldl_cons, ih, Array.toList_append, List.flatMap_cons, List.append_assoc]

theorem chunks?_cons {block : Nat} {blocks : List Nat} {remaining : Nat} {parts : List Bytes} :
    c.chunks? (block :: blocks) remaining = some parts ↔ ∃ chunk rest,
      c.data.slice? (block * c.blockSize) (min remaining c.blockSize) = some chunk ∧
      c.chunks? blocks (remaining - min remaining c.blockSize) = some rest ∧ parts = chunk :: rest := by
  simp only [chunks?, Option.bind_eq_bind, Option.bind_eq_some_iff, Option.some.injEq]
  constructor
  · rintro ⟨chunk, hc, rest, hr, rfl⟩
    exact ⟨chunk, rest, hc, hr, rfl⟩
  · rintro ⟨chunk, rest, hc, hr, rfl⟩
    exact ⟨chunk, hc, rest, hr, rfl⟩

theorem sub_min_sub_mul (remaining size p : Nat) :
    remaining - min remaining size - p * size = remaining - (p + 1) * size := by
  rw [Nat.succ_mul]
  omega

theorem exists_chunks?_iff {blocks : List Nat} {remaining : Nat} :
    (∃ parts, c.chunks? blocks remaining = some parts) ↔ ∀ p b, blocks[p]? = some b →
      b * c.blockSize + min c.blockSize (remaining - p * c.blockSize) ≤ c.data.size := by
  induction blocks generalizing remaining with
  | nil =>
    constructor
    · intro _ p b hb
      cases hb
    · intro _
      exact ⟨[], rfl⟩
  | cons block blocks ih =>
    constructor
    · rintro ⟨parts, h⟩ p b hb
      obtain ⟨chunk, rest, hc, hr, -⟩ := chunks?_cons.mp h
      cases p with
      | zero =>
        cases Option.some.inj hb
        have hle := (Bytes.slice?_eq_some_iff.mp hc).1
        omega
      | succ p =>
        have hle := ih.mp ⟨rest, hr⟩ p b hb
        rwa [sub_min_sub_mul] at hle
    · intro h
      have hfirst := h 0 block rfl
      obtain ⟨rest, hr⟩ := ih.mpr fun p b hb => (sub_min_sub_mul ..) ▸ h (p + 1) b hb
      have hc := Bytes.slice?_eq_some_iff.mpr ⟨(by omega :
        block * c.blockSize + min remaining c.blockSize ≤ c.data.size), rfl⟩
      exact ⟨_, chunks?_cons.mpr ⟨_, rest, hc, hr, rfl⟩⟩

theorem length_flatMap_of_chunks? {blocks : List Nat} {remaining : Nat} {parts : List Bytes}
    (h : c.chunks? blocks remaining = some parts) :
    (parts.flatMap Array.toList).length = min remaining (blocks.length * c.blockSize) := by
  induction blocks generalizing remaining parts with
  | nil =>
    cases Option.some.inj h
    rw [List.flatMap_nil, List.length_nil, List.length_nil]
    omega
  | cons block blocks ih =>
    obtain ⟨chunk, rest, hc, hr, rfl⟩ := chunks?_cons.mp h
    have hchunk := Bytes.size_of_slice? hc
    rw [List.flatMap_cons, List.length_append, ih hr, Array.length_toList, hchunk, List.length_cons, Nat.succ_mul]
    omega

theorem getElem?_flatMap_of_chunks? {blocks : List Nat} {remaining k : Nat} {parts : List Bytes}
    (hpos : 0 < c.blockSize) (h : c.chunks? blocks remaining = some parts)
    (hk : k < (parts.flatMap Array.toList).length) :
    ∃ b, blocks[k / c.blockSize]? = some b ∧
      (parts.flatMap Array.toList)[k]? = c.data[b * c.blockSize + k % c.blockSize]? := by
  induction blocks generalizing remaining parts k with
  | nil =>
    cases Option.some.inj h
    cases hk
  | cons block blocks ih =>
    have hall := length_flatMap_of_chunks? h
    obtain ⟨chunk, rest, hc, hr, rfl⟩ := chunks?_cons.mp h
    have hchunk := Bytes.size_of_slice? hc
    rw [List.flatMap_cons] at hk hall ⊢
    rcases Nat.lt_or_ge k chunk.size with hlt | hge
    · refine ⟨block, ?_, ?_⟩
      · rw [Nat.div_eq_of_lt (by omega)]
        rfl
      · rw [List.getElem?_append_left (by simpa using hlt), Array.getElem?_toList,
          Bytes.getElem?_of_slice? hc (by omega), Nat.mod_eq_of_lt (by omega)]
    · -- a first block that is not full is the only one, so nothing would be left for `k`
      have hfull : chunk.size = c.blockSize := by omega
      have hk' : k - c.blockSize < (rest.flatMap Array.toList).length := by
        rw [List.length_append, Array.length_toList] at hk
        omega
      obtain ⟨b, hb, he⟩ := ih hr hk'
      refine ⟨b, ?_, ?_⟩
      · rw [Nat.div_eq_sub_div hpos (by omega), List.getElem?_cons_succ, hb]
      · rw [List.getElem?_append_right (by simpa using hge), Array.length_toList, hfull, he,
          ← Nat.mod_eq_sub_mod (by omega)]

theorem spells_of_chunks? {blocks : List Nat} {size : Nat} {parts : List Bytes} (hpos : 0 < c.blockSize)
    (h : c.chunks? blocks size = some parts) (hsize : size ≤ blocks.length * c.blockSize) :
    (parts.foldl (· ++ ·) #[]).size = size ∧ c.Spells blocks (parts.foldl (· ++ ·) #[]) := by
  have hlist : (parts.foldl (· ++ ·) #[]).toList = parts.flatMap Array.toList := toList_foldl_append parts #[]
  have hlength := length_flatMap_of_chunks? h
  have hcontent : (parts.foldl (· ++ ·) #[]).size = size := by
    rw [← Array.length_toList, hlist, hlength]
    omega
  refine ⟨hcontent, fun k hk => ?_⟩
  rw [hcontent] at hk
  rw [← Array.getElem?_toList, hlist]
  exact getElem?_flatMap_of_chunks? hpos h (by omega)

end CodeAtlas.Container
