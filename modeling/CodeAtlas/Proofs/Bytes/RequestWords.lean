import CodeAtlas.Proofs.Bytes.Requests

namespace CodeAtlas

/-- A cursor whose position is a machine word, so that sums and differences of positions wrap. -/
structure WordCursor where
  data : Bytes
  pos : UInt64
  overrun : Bool

namespace WordCursor

def ofBytes (data : Bytes) : WordCursor := ⟨data, 0, false⟩

def toCursor (w : WordCursor) : Cursor := ⟨w.data, w.pos.toNat, w.overrun⟩

def size (w : WordCursor) : UInt64 := .ofNat w.data.size

def left (w : WordCursor) : UInt64 := w.size - w.pos

def spoil (w : WordCursor) : WordCursor := { w with pos := w.size, overrun := true }

def advance (n : UInt64) (w : WordCursor) : WordCursor := { w with pos := w.pos + n }

def bytes (n : UInt64) (w : WordCursor) : Bytes × WordCursor :=
  if n ≤ w.left then (w.data.extract w.pos.toNat (w.pos + n).toNat, w.advance n) else (#[], w.spoil)

def value (width : UInt64) (w : WordCursor) : Nat × WordCursor :=
  (leValue (w.bytes width).1.toList, (w.bytes width).2)

def values : Nat → UInt64 → WordCursor → List Nat × WordCursor
  | 0, _, w => ([], w)
  | count + 1, width, w =>
    let (n, w) := w.value width
    let (ns, w) := values count width w
    (n :: ns, w)

def cstring (w : WordCursor) : Text × WordCursor :=
  let text := w.data.untilNul w.pos.toNat
  if UInt64.ofNat text.length < w.left then (text, w.advance (.ofNat text.length + 1)) else ([], w.spoil)

def skip (n : UInt64) (w : WordCursor) : WordCursor := if n ≤ w.left then w.advance n else w.spoil

def align (alignment : UInt64) (w : WordCursor) : WordCursor :=
  if w.pos % alignment = 0 then w else w.skip (alignment - w.pos % alignment)

def seek (pos : UInt64) (w : WordCursor) : WordCursor := if pos ≤ w.size then { w with pos := pos } else w.spoil

def perform : Request → WordCursor → Reply × WordCursor
  | .value width, w => (.number (w.value width).1, (w.value width).2)
  | .peek width, w => (.number (w.value width).1, w)
  | .values count width, w =>
    let (ns, w) := values count.toNat width w
    (.numbers ns, w)
  | .bytes count, w => (.bytes (w.bytes count).1, (w.bytes count).2)
  | .cstring, w => (.text w.cstring.1, w.cstring.2)
  | .skip count, w => (.nothing, w.skip count)
  | .align alignment _, w => (.nothing, w.align alignment)
  | .seek pos, w => (.nothing, w.seek pos)

def performAll : List Request → WordCursor → List Reply × WordCursor
  | [], w => ([], w)
  | r :: rs, w =>
    let (reply, w) := perform r w
    let (replies, w) := performAll rs w
    (reply :: replies, w)

/-- The data have a machine word as their size and the position is one of them. -/
structure InBounds (w : WordCursor) : Prop where
  size_lt : w.data.size < UInt64.size
  pos_le : w.pos.toNat ≤ w.data.size

variable {w : WordCursor}

theorem inBounds_ofBytes {data : Bytes} (h : data.size < UInt64.size) : (ofBytes data).InBounds := ⟨h, Nat.zero_le _⟩

namespace InBounds

variable (h : w.InBounds)

include h

theorem toNat_size : w.size.toNat = w.data.size := UInt64.toNat_ofNat_of_lt' h.size_lt

theorem toNat_left : w.left.toNat = w.toCursor.left := by
  have hle : w.pos ≤ w.size := UInt64.le_iff_toNat_le.mpr (h.toNat_size ▸ h.pos_le)
  rw [left, UInt64.toNat_sub_of_le _ _ hle, h.toNat_size]
  rfl

theorem le_left_iff {n : UInt64} : n ≤ w.left ↔ n.toNat ≤ w.toCursor.left := by
  rw [UInt64.le_iff_toNat_le, h.toNat_left]

theorem toNat_pos_add {n : UInt64} (hn : n.toNat ≤ w.toCursor.left) : (w.pos + n).toNat = w.pos.toNat + n.toNat := by
  have hsum := (Cursor.le_left_iff h.pos_le).mp hn
  rw [UInt64.toNat_add]
  exact Nat.mod_eq_of_lt (Nat.lt_of_le_of_lt hsum h.size_lt)

theorem toCursor_spoil : w.spoil.toCursor = w.toCursor.spoil := by
  rw [spoil, toCursor, h.toNat_size]
  rfl

theorem toCursor_advance {n : UInt64} (hn : n.toNat ≤ w.toCursor.left) :
    (w.advance n).toCursor = w.toCursor.advance n.toNat := by
  rw [advance, toCursor, h.toNat_pos_add hn]
  rfl

theorem bytes_eq (n : UInt64) :
    ((w.bytes n).1, (w.bytes n).2.toCursor) = w.toCursor.bytes n.toNat := by
  rw [bytes, Cursor.bytes]
  split
  next hle =>
    have hn := h.le_left_iff.mp hle
    rw [if_pos hn, h.toCursor_advance hn, h.toNat_pos_add hn]
    rfl
  next hlt => rw [if_neg (mt h.le_left_iff.mpr hlt), h.toCursor_spoil]

theorem value_eq (width : UInt64) :
    ((w.value width).1, (w.value width).2.toCursor) = w.toCursor.value width.toNat := by
  have hb := h.bytes_eq width
  simp only [value, Cursor.value, ← hb]

theorem skip_eq (n : UInt64) : (w.skip n).toCursor = w.toCursor.skip n.toNat := by
  rw [skip, Cursor.skip]
  split
  next hle =>
    have hn := h.le_left_iff.mp hle
    rw [if_pos hn, h.toCursor_advance hn]
  next hlt => rw [if_neg (mt h.le_left_iff.mpr hlt), h.toCursor_spoil]

theorem of_toCursor_eq {w' : WordCursor} {r : Request} (hw : w'.toCursor = (Cursor.perform r w.toCursor).2) :
    w'.InBounds where
  size_lt := by
    change w'.toCursor.data.size < _
    rw [hw, Cursor.data_perform h.pos_le]
    exact h.size_lt
  pos_le := by
    change w'.toCursor.pos ≤ w'.toCursor.data.size
    rw [hw]
    exact Cursor.pos_perform_le h.pos_le r

theorem values_eq (count : Nat) (width : UInt64) : ((values count width w).1, (values count width w).2.toCursor) =
    (Reader.times count (Cursor.value width.toNat)).run w.toCursor := by
  induction count generalizing w with
  | zero => rfl
  | succ count ih =>
    have hv := h.value_eq width
    have hnext : (w.value width).2.InBounds := h.of_toCursor_eq (r := .value width) (congrArg Prod.snd hv)
    have hrest := ih hnext
    change _ = (let p := (Reader.times count (Cursor.value width.toNat)).run (w.toCursor.value width.toNat).2
      ((w.toCursor.value width.toNat).1 :: p.1, p.2))
    rw [← hv]
    dsimp only
    rw [← hrest]
    rfl

theorem cstring_eq : (w.cstring.1, w.cstring.2.toCursor) = w.toCursor.cstring := by
  have hlength : (w.data.untilNul w.pos.toNat).length ≤ w.toCursor.left := by
    rw [Cursor.length_untilNul, ← Cursor.length_remaining]
    exact List.findIdx_le_length
  have hleft : w.toCursor.left < UInt64.size := Nat.lt_of_le_of_lt (Nat.sub_le _ _) h.size_lt
  have hsize : (UInt64.ofNat (w.data.untilNul w.pos.toNat).length).toNat = (w.data.untilNul w.pos.toNat).length :=
    UInt64.toNat_ofNat_of_lt' (Nat.lt_of_le_of_lt hlength hleft)
  have hiff : UInt64.ofNat (w.data.untilNul w.pos.toNat).length < w.left ↔
      w.pos.toNat + (w.data.untilNul w.pos.toNat).length < w.data.size := by
    rw [UInt64.lt_iff_toNat_lt, hsize, h.toNat_left, Cursor.lt_left_iff]
    rfl
  rw [cstring, Cursor.cstring]
  split
  next hlt =>
    have hfits : (w.data.untilNul w.pos.toNat).length + 1 ≤ w.toCursor.left :=
      Cursor.lt_left_iff.mpr (hiff.mp hlt)
    have hnext : (UInt64.ofNat (w.data.untilNul w.pos.toNat).length + 1).toNat =
        (w.data.untilNul w.pos.toNat).length + 1 := by
      rw [UInt64.toNat_add, hsize]
      exact Nat.mod_eq_of_lt (Nat.lt_of_le_of_lt hfits hleft)
    rw [h.toCursor_advance (hnext ▸ hfits), hnext]
    exact (if_pos (hiff.mp hlt)).symm
  next hge =>
    rw [h.toCursor_spoil]
    exact (if_neg (mt hiff.mpr hge)).symm

theorem align_eq {alignment : UInt64} (ne_zero : alignment ≠ 0) :
    (w.align alignment).toCursor = w.toCursor.align alignment.toNat := by
  have hmod : (w.pos % alignment).toNat = w.pos.toNat % alignment.toNat := UInt64.toNat_mod _ _
  have hzero : w.pos % alignment = 0 ↔ w.pos.toNat % alignment.toNat = 0 := by
    rw [← UInt64.toNat_inj, hmod]
    rfl
  have hle : w.pos % alignment ≤ alignment := by
    rw [UInt64.le_iff_toNat_le, hmod]
    exact Nat.le_of_lt (Nat.mod_lt _ (Cursor.toNat_pos ne_zero))
  have hdiff : (alignment - w.pos % alignment).toNat = alignment.toNat - w.pos.toNat % alignment.toNat := by
    rw [UInt64.toNat_sub_of_le _ _ hle, hmod]
  rw [align, Cursor.align]
  split
  next hz => exact (if_pos (hzero.mp hz)).symm
  next hz =>
    rw [h.skip_eq, hdiff]
    exact (if_neg (mt hzero.mpr hz)).symm

theorem seek_eq (pos : UInt64) : (w.seek pos).toCursor = w.toCursor.seek pos.toNat := by
  have hiff : pos ≤ w.size ↔ pos.toNat ≤ w.data.size := by rw [UInt64.le_iff_toNat_le, h.toNat_size]
  rw [seek, Cursor.seek]
  split
  next hle => exact (if_pos (hiff.mp hle)).symm
  next hlt =>
    rw [h.toCursor_spoil]
    exact (if_neg (mt hiff.mpr hlt)).symm

theorem perform_eq (r : Request) : ((perform r w).1, (perform r w).2.toCursor) = Cursor.perform r w.toCursor := by
  cases r with
  | value width => rw [perform, Cursor.perform, ← h.value_eq]
  | peek width => rw [perform, Cursor.perform, Cursor.peek, ← h.value_eq]
  | values count width => simp only [perform, Cursor.perform, ← h.values_eq]
  | bytes count => rw [perform, Cursor.perform, ← h.bytes_eq]
  | cstring => rw [perform, Cursor.perform, ← h.cstring_eq]
  | skip count => rw [perform, Cursor.perform, h.skip_eq]
  | align alignment ne_zero => rw [perform, Cursor.perform, h.align_eq ne_zero]
  | seek pos => rw [perform, Cursor.perform, h.seek_eq]

/-- No sum or difference wraps, so machine words do what exact numbers do. -/
theorem performAll_eq (rs : List Request) :
    ((performAll rs w).1, (performAll rs w).2.toCursor) = Cursor.performAll rs w.toCursor := by
  induction rs generalizing w with
  | nil => rfl
  | cons r rs ih =>
    have hr := h.perform_eq r
    have hrest := ih (h.of_toCursor_eq (congrArg Prod.snd hr))
    simp only [performAll, Cursor.performAll, ← hr, ← hrest]

end InBounds

end WordCursor

end CodeAtlas
