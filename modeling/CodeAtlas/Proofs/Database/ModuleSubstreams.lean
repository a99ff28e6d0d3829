import CodeAtlas.Proofs.Bytes.Overrun
import CodeAtlas.Proofs.Database.ModuleEncoding
import CodeAtlas.Proofs.Outcome
import Mathlib.Algebra.Ring.Int.Defs

namespace CodeAtlas.Database

namespace ModuleList

/-- A word of the header. -/
def wordAt (data : Bytes) (offset : Nat) : UInt32 := (data.u32At? offset).getD 0

/-- A word of the header in two's complement. -/
def signedAt (data : Bytes) (offset : Nat) : Int := signed (wordAt data offset)

/-- Where the header says how many bytes the substreams take. -/
def sizeOffsets : List Nat := [24, 28, 32, 36, 40, 48, 52]

/-- The sizes of all substreams together, none of them taken for negative. -/
def total (data : Bytes) : Nat := (sizeOffsets.map fun offset => (wordAt data offset).toNat).sum

/-- What is asked for behind the header: the modules, five substreams that are passed over and the numbers of the
image's streams. -/
def substreamRequests (data : Bytes) : List Request :=
  let size (offset : Nat) : UInt64 := (wordAt data offset).toUInt64
  [.bytes (size 24), .skip (size 28), .skip (size 32), .skip (size 36), .skip (size 40), .skip (size 52),
    .bytes (size 48)]

/-- Where the numbers of the image's streams start. -/
def imageStreamsAt (data : Bytes) : Nat :=
  headerSize + (wordAt data 24).toNat + (wordAt data 28).toNat + (wordAt data 32).toNat + (wordAt data 36).toNat +
    (wordAt data 40).toNat + (wordAt data 52).toNat

variable {data : Bytes}

theorem signed_eq (n : UInt32) : signed n = if n.toNat < 2 ^ 31 then (n.toNat : Int) else n.toNat - 2 ^ 32 := by
  rw [signed, ← Int32.toInt_toBitVec, UInt32.toBitVec_toInt32, BitVec.toInt_eq_toNat_cond, UInt32.toNat_toBitVec]
  split <;> split <;> omega

theorem isNegative_iff {n : UInt32} : isNegative n = true ↔ signed n < 0 := by
  have hlt := n.toNat_lt
  rw [isNegative, decide_eq_true_iff, UInt32.le_iff_toNat_le, signed_eq]
  simp only [UInt32.reduceToNat]
  split <;> omega

theorem signed_of_nonneg {n : UInt32} (h : 0 ≤ signed n) : signed n = n.toNat := by
  have hlt := n.toNat_lt
  rw [signed_eq] at h ⊢
  split <;> omega

theorem signed_eq_neg_one_iff {n : UInt32} : signed n = -1 ↔ n = 0xFFFFFFFF := by
  have hlt := n.toNat_lt
  rw [← UInt32.toNat_inj, signed_eq]
  simp only [UInt32.reduceToNat]
  split <;> omega

theorem u32At?_of_slice? {header : Bytes} (h : data.slice? 0 headerSize = some header) {offset : Nat}
    (hoffset : offset + 4 ≤ headerSize) : header.u32At? offset = data.u32At? offset := by
  have hsize := Bytes.size_of_slice? h
  have hpart : header.slice? offset 4 = some (header.extract offset (offset + 4)) :=
    Bytes.slice?_eq_some_iff.mpr ⟨by omega, rfl⟩
  have hwhole := Bytes.slice?_of_slice? h hpart
  rw [Nat.zero_add] at hwhole
  rw [Bytes.u32At?, Bytes.u32At?, Bytes.valueAt?, Bytes.valueAt?, hpart, hwhole]

/-- What is read once the header has been accepted. -/
def ofSubstreams (header modules imageStreams : Bytes) : Except Fault ModuleList := do
  let half (offset : Nat) : UInt16 := (header.u16At? offset).getD 0
  let modules ← ModuleEntry.list modules 0
  pure ⟨wordAt header 4, wordAt header 8, half 12, half 16, half 20, half 58, modules, ImageStreams.parse imageStreams⟩

theorem parse_of_slice? {header : Bytes} (h : data.slice? 0 headerSize = some header) : parse data =
    if wordAt header 0 ≠ 0xFFFFFFFF then .error (.moduleSignature (signedAt header 0))
    else if (sizeOffsets.map (wordAt header)).any isNegative then .error .negativeSize
    else
      match data.slice? headerSize (wordAt header 24).toNat,
          data.slice? (imageStreamsAt header) (wordAt header 48).toNat with
      | some modules, some imageStreams => ofSubstreams header modules imageStreams
      | _, _ => .error .largeSubstreams := by
  rw [parse, h]
  by_cases hsignature : wordAt header 0 ≠ 0xFFFFFFFF
  · rw [if_pos hsignature]
    exact if_pos hsignature
  · rw [if_neg hsignature]
    refine (if_neg hsignature).trans ?_
    cases hnegative : (sizeOffsets.map (wordAt header)).any isNegative with
    | true => exact if_pos hnegative
    | false =>
      rw [if_neg Bool.false_ne_true]
      exact if_neg (ne_true_of_eq_false hnegative)

theorem wordAt_of_slice? {header : Bytes} (h : data.slice? 0 headerSize = some header) {offset : Nat}
    (hoffset : offset + 4 ≤ headerSize) : wordAt header offset = wordAt data offset := by
  rw [wordAt, wordAt, u32At?_of_slice? h hoffset]

theorem any_isNegative_iff {offsets : List Nat} :
    (offsets.map (wordAt data)).any isNegative = true ↔ ∃ offset ∈ offsets, signedAt data offset < 0 := by
  simp only [List.any_map, List.any_eq_true, Function.comp_apply, isNegative_iff, signedAt]

theorem imageStreamsAt_add (data : Bytes) : imageStreamsAt data + (wordAt data 48).toNat = headerSize + total data := by
  simp only [imageStreamsAt, total, sizeOffsets, List.map_cons, List.map_nil, List.sum_cons, List.sum_nil]
  omega

/-- The header is judged first, then the signs of the sizes, then their sum; only then is a module read. -/
theorem parse_eq (data : Bytes) : parse data =
    if data.size < headerSize then .error .shortModuleHeader
    else if signedAt data 0 ≠ -1 then .error (.moduleSignature (signedAt data 0))
    else if ∃ offset ∈ sizeOffsets, signedAt data offset < 0 then .error .negativeSize
    else if data.size < headerSize + total data then .error .largeSubstreams
    else ofSubstreams (data.extract 0 headerSize) (data.extract headerSize (headerSize + (wordAt data 24).toNat))
      (data.extract (imageStreamsAt data) (imageStreamsAt data + (wordAt data 48).toNat)) := by
  split
  next hsize =>
    rw [parse, Bytes.slice?_eq_none_iff.mpr (by omega)]
    rfl
  next hsize =>
    have hslice : data.slice? 0 headerSize = some (data.extract 0 headerSize) := by
      rw [Bytes.slice?_eq_some_iff]
      exact ⟨by omega, by rw [Nat.zero_add]⟩
    have hword : ∀ offset ∈ 0 :: sizeOffsets, wordAt (data.extract 0 headerSize) offset = wordAt data offset := by
      intro offset hoffset
      have hle : offset + 4 ≤ headerSize := by
        revert offset
        decide
      exact wordAt_of_slice? hslice hle
    have hsizes : (sizeOffsets.map (wordAt (data.extract 0 headerSize))).any isNegative = true ↔
        ∃ offset ∈ sizeOffsets, signedAt data offset < 0 := by
      rw [List.map_congr_left fun offset hoffset => hword offset (List.mem_cons_of_mem 0 hoffset), any_isNegative_iff]
    have himage : imageStreamsAt (data.extract 0 headerSize) = imageStreamsAt data := by
      simp only [imageStreamsAt]
      rw [hword 24 (by decide), hword 28 (by decide), hword 32 (by decide), hword 36 (by decide), hword 40 (by decide),
        hword 52 (by decide)]
    have hend := imageStreamsAt_add data
    have hstart : headerSize + (wordAt data 24).toNat ≤ imageStreamsAt data := by
      simp only [imageStreamsAt]
      omega
    rw [parse_of_slice? hslice, himage, signedAt, hword 0 (by decide), hword 24 (by decide), hword 48 (by decide),
      signedAt]
    simp only [ne_eq, signed_eq_neg_one_iff, hsizes]
    split
    next => rfl
    next =>
      split
      next => rfl
      next =>
        split
        next hmodules himages =>
          have hmodules' := Bytes.slice?_eq_some_iff.mp hmodules
          have himages' := Bytes.slice?_eq_some_iff.mp himages
          rw [if_neg (by omega), hmodules'.2, himages'.2]
        next hnone =>
          rw [if_pos]
          refine Nat.lt_of_not_le fun hle => ?_
          exact hnone _ _ (Bytes.slice?_eq_some_iff.mpr ⟨by omega, rfl⟩) (Bytes.slice?_eq_some_iff.mpr ⟨by omega, rfl⟩)

theorem eq_shortModuleEntry_of_list {pos : Nat} {fault : Fault} (h : ModuleEntry.list data pos = .error fault) :
    fault = .shortModuleEntry := by
  fun_induction ModuleEntry.list data pos with
  | case1 => cases h
  | case2 =>
    cases h
    rfl
  | case3 pos hsize e hread ih =>
    cases hrest : ModuleEntry.list data (Bytes.align4 (pos + e.size)) with
    | ok es =>
      rw [hrest] at h
      cases h
    | error rest =>
      rw [hrest] at h
      cases h
      exact ih hrest

theorem eq_shortModuleEntry_of_ofSubstreams {header modules imageStreams : Bytes} {fault : Fault}
    (h : ofSubstreams header modules imageStreams = .error fault) : fault = .shortModuleEntry := by
  cases hlist : ModuleEntry.list modules 0 with
  | ok es =>
    rw [ofSubstreams, hlist] at h
    cases h
  | error rest =>
    rw [ofSubstreams, hlist] at h
    cases h
    exact eq_shortModuleEntry_of_list hlist

theorem sum_signedAt (h : ∀ offset ∈ sizeOffsets, 0 ≤ signedAt data offset) :
    (sizeOffsets.map (signedAt data)).sum = total data := by
  have hsigned : sizeOffsets.map (signedAt data) = sizeOffsets.map fun offset => ((wordAt data offset).toNat : Int) :=
    List.map_congr_left fun offset hoffset => signed_of_nonneg (h offset hoffset)
  rw [hsigned]
  simp only [total, sizeOffsets, List.map_cons, List.map_nil, List.sum_cons, List.sum_nil, Int.natCast_add,
    Int.natCast_zero]

theorem isPlain_of_mem_substreamRequests {r : Request} (h : r ∈ substreamRequests data) : r.IsPlain := by
  simp only [substreamRequests, List.mem_cons, List.not_mem_nil, or_false] at h
  rcases h with rfl | rfl | rfl | rfl | rfl | rfl | rfl
  · exact .bytes _
  · exact .skip _
  · exact .skip _
  · exact .skip _
  · exact .skip _
  · exact .skip _
  · exact .bytes _

theorem sum_length_substreamRequests (data : Bytes) :
    ((substreamRequests data).map Request.length).sum = total data := by
  simp only [substreamRequests, total, sizeOffsets, Request.length, UInt32.toNat_toUInt64, List.map_cons, List.map_nil,
    List.sum_cons, List.sum_nil]
  omega

/-- What stands behind the header, asked for with a cursor whose positions are machine words. -/
def readInWords (data : Bytes) : List Reply × WordCursor :=
  WordCursor.performAll (substreamRequests data) ⟨data, 64, false⟩

theorem readInWords_eq (hsize : data.size < UInt64.size) (hheader : headerSize ≤ data.size) :
    ((readInWords data).1, (readInWords data).2.toCursor) =
      Cursor.performAll (substreamRequests data) ⟨data, headerSize, false⟩ := by
  have hbounds : (⟨data, 64, false⟩ : WordCursor).InBounds := ⟨hsize, hheader⟩
  exact hbounds.performAll_eq (substreamRequests data)

theorem cursor_readInWords (hsize : data.size < UInt64.size) (hheader : headerSize ≤ data.size) :
    (readInWords data).2.toCursor = if data.size < headerSize + total data then ⟨data, data.size, true⟩
      else ⟨data, headerSize + total data, false⟩ := by
  have hcursor := congrArg Prod.snd (readInWords_eq hsize hheader)
  have hsum := sum_length_substreamRequests data
  dsimp only at hcursor
  rw [hcursor]
  split
  next hlt =>
    rw [Cursor.performAll_of_lt hheader (fun _ => isPlain_of_mem_substreamRequests) (by rw [hsum]; exact hlt)]
    rfl
  next hle =>
    rw [Cursor.performAll_of_le (fun _ => isPlain_of_mem_substreamRequests) (by rw [hsum]; exact Nat.not_lt.mp hle),
      hsum]
    rfl

theorem replies_readInWords (hsize : data.size < UInt64.size) (hle : headerSize + total data ≤ data.size) :
    (readInWords data).1 = [.bytes (data.extract headerSize (headerSize + (wordAt data 24).toNat)), .nothing, .nothing,
      .nothing, .nothing, .nothing,
      .bytes (data.extract (imageStreamsAt data) (imageStreamsAt data + (wordAt data 48).toNat))] := by
  have hreplies := congrArg Prod.fst (readInWords_eq hsize (Nat.le_trans (Nat.le_add_right _ _) hle))
  rw [Cursor.performAll_of_le (fun _ => isPlain_of_mem_substreamRequests)
    (by rw [sum_length_substreamRequests]; exact hle)] at hreplies
  dsimp only at hreplies
  rw [hreplies]
  simp only [substreamRequests, Request.repliesAt, Request.reply, Request.length, UInt32.toNat_toUInt64,
    Bytes.toArray_stretch, imageStreamsAt]

end ModuleList

end CodeAtlas.Database
