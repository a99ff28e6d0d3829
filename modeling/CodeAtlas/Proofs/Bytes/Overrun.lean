import CodeAtlas.Proofs.Bytes.RequestWords
import Mathlib.Algebra.GroupWithZero.Nat

namespace CodeAtlas.Cursor

variable {c : Cursor} {rs : List Request}

theorem performAll_cons (r : Request) (rs : List Request) (c : Cursor) :
    performAll (r :: rs) c =
      ((perform r c).1 :: (performAll rs (perform r c).2).1, (performAll rs (perform r c).2).2) := rfl

theorem performAll_append (rs more : List Request) (c : Cursor) :
    (performAll (rs ++ more) c).2 = (performAll more (performAll rs c).2).2 := by
  induction rs generalizing c with
  | nil => rfl
  | cons r rs ih => exact ih (perform r c).2

theorem performAll_inBounds (hc : c.pos ≤ c.data.size) (rs : List Request) :
    (performAll rs c).2.data = c.data ∧ (performAll rs c).2.pos ≤ c.data.size := by
  induction rs generalizing c with
  | nil => exact ⟨rfl, hc⟩
  | cons r rs ih =>
    obtain ⟨hdata, hpos⟩ := ih (pos_perform_le hc r)
    rw [data_perform hc] at hdata hpos
    exact ⟨hdata, hpos⟩

theorem overrun_performAll_iff (hc : c.pos ≤ c.data.size) : (performAll rs c).2.overrun = true ↔ c.overrun = true ∨
    ∃ i, ∃ r : Request, rs[i]? = some r ∧ r.stop? c.data (performAll (rs.take i) c).2.pos = none := by
  induction rs generalizing c with
  | nil => simp only [performAll, List.getElem?_nil, reduceCtorEq, false_and, exists_false, or_false]
  | cons r rs ih =>
    rw [performAll_cons, ih (pos_perform_le hc r), overrun_perform_iff hc, data_perform hc, or_assoc]
    refine or_congr_right ⟨?_, ?_⟩
    · rintro (hr | ⟨i, q, hq, hstop⟩)
      · exact ⟨0, r, rfl, hr⟩
      · exact ⟨i + 1, q, hq, hstop⟩
    · rintro ⟨i, q, hq, hstop⟩
      cases i with
      | zero => exact .inl (Option.some.inj hq ▸ hstop)
      | succ i => exact .inr ⟨i, q, hq, hstop⟩

/-- Without a mark at the end every request fitted where the exact positions lead, and with one some request did
not. -/
theorem replies?_eq (hc : c.pos ≤ c.data.size) (hmark : c.overrun = false) :
    Request.replies? c.data c.pos rs =
      if (performAll rs c).2.overrun then none else some ((performAll rs c).1, (performAll rs c).2.pos) := by
  induction rs generalizing c with
  | nil => simp only [Request.replies?, performAll, hmark, Bool.false_eq_true, ↓reduceIte]
  | cons r rs ih =>
    rw [performAll_cons]
    cases h : r.stop? c.data c.pos with
    | none =>
      have hover : (perform r c).2.overrun = true := (overrun_perform_iff hc r).mpr (.inr h)
      have hend : (performAll rs (perform r c).2).2.overrun = true :=
        (overrun_performAll_iff (pos_perform_le hc r)).mpr (.inl hover)
      simp only [Request.replies?, h, Option.bind_eq_bind, Option.bind_none, hend, ↓reduceIte]
    | some stop =>
      have hrest := ih (c := { c with pos := stop }) (stop?_le hc h) hmark
      simp only [Request.replies?, h, perform_of_stop? hc h, Option.bind_eq_bind, Option.bind_some, hrest]
      split <;> rfl

theorem overrun_performAll_mono (hc : c.pos ≤ c.data.size) (h : c.overrun = true) (rs : List Request) :
    (performAll rs c).2.overrun = true :=
  (overrun_performAll_iff hc).mpr (.inl h)

theorem performAll_of_le (hrs : ∀ r ∈ rs, r.IsPlain) (h : c.pos + (rs.map Request.length).sum ≤ c.data.size) :
    performAll rs c = (Request.repliesAt c.data c.pos rs, c.advance (rs.map Request.length).sum) := by
  induction rs generalizing c with
  | nil => rfl
  | cons r rs ih =>
    have hrs' := List.forall_mem_cons.mp hrs
    rw [List.map_cons, List.sum_cons] at h
    have hstop : r.stop? c.data c.pos = some (c.pos + r.length) := by
      rw [hrs'.1.stop?, Request.within?, if_pos (by omega)]
    have hrest := ih (c := c.advance r.length) hrs'.2 (by rw [pos_advance, data_advance]; omega)
    rw [performAll_cons, perform_of_stop? (by omega) hstop]
    change (_ :: (performAll rs (c.advance r.length)).1, (performAll rs (c.advance r.length)).2) = _
    rw [hrest, advance_advance, List.map_cons, List.sum_cons]
    rfl

theorem performAll_of_lt (hc : c.pos ≤ c.data.size) (hrs : ∀ r ∈ rs, r.IsPlain)
    (h : c.data.size < c.pos + (rs.map Request.length).sum) : (performAll rs c).2 = c.spoil := by
  induction rs generalizing c with
  | nil =>
    rw [List.map_nil, List.sum_nil] at h
    omega
  | cons r rs ih =>
    have hrs' := List.forall_mem_cons.mp hrs
    rw [List.map_cons, List.sum_cons] at h
    rw [performAll_cons]
    dsimp only
    rcases Nat.lt_or_ge c.data.size (c.pos + r.length) with hr | hr
    · have hstop : r.stop? c.data c.pos = none := by rw [hrs'.1.stop?, within?_eq_none_iff.mpr hr]
      rw [perform_of_stop?_eq_none hc hstop]
      -- what follows may ask for nothing, and then stays at the end
      rcases Nat.eq_zero_or_pos (rs.map Request.length).sum with hzero | hpos
      · rw [performAll_of_le hrs'.2 (by rw [hzero]; exact Nat.le_refl _), hzero]
        rfl
      · exact ih (c := c.spoil) (Nat.le_refl _) hrs'.2 (by rw [data_spoil]; exact Nat.lt_add_of_pos_right hpos)
    · have hstop : r.stop? c.data c.pos = some (c.pos + r.length) := by
        rw [hrs'.1.stop?, Request.within?, if_pos hr]
      rw [perform_of_stop? hc hstop]
      exact ih (c := c.advance r.length) hr hrs'.2 (by rw [data_advance, pos_advance]; omega)

theorem after_inBounds (data : Bytes) (rs : List Request) (n : Nat) :
    (after data rs n).data = data ∧ (after data rs n).pos ≤ data.size :=
  performAll_inBounds (c := ofBytes data) (Nat.zero_le _) (rs.take n)

/-- What a decoder may rely on that makes its requests and looks at the mark once, after the last of them. -/
structure CheckedOnce (data : Bytes) (rs : List Request) : Prop where
  pos_le : ∀ n, (after data rs n).pos ≤ data.size
  overrun_mono : ∀ m n, m ≤ n → (after data rs m).overrun = true → (after data rs n).overrun = true
  /-- Without the mark, every reply is what the data say at the exact position. -/
  replies_eq : Request.replies? data 0 rs =
    if (performAll rs (ofBytes data)).2.overrun then none
    else some ((performAll rs (ofBytes data)).1, (performAll rs (ofBytes data)).2.pos)
  /-- The mark is there if some request asked for more than there was where the cursor stood, and only then. -/
  overrun_iff : (performAll rs (ofBytes data)).2.overrun = true ↔
    ∃ i, ∃ r : Request, rs[i]? = some r ∧ r.stop? data (after data rs i).pos = none
  /-- All of it holds of a cursor that computes in machine words, if the size of the data is one. -/
  words_eq : data.size < UInt64.size →
    ((WordCursor.performAll rs (.ofBytes data)).1, (WordCursor.performAll rs (.ofBytes data)).2.toCursor) =
      performAll rs (ofBytes data)

theorem checkedOnce_of_requests (data : Bytes) (rs : List Request) : CheckedOnce data rs where
  pos_le n := (after_inBounds data rs n).2
  overrun_mono m n hmn hm := by
    have htake : (rs.take n).take m = rs.take m := by rw [List.take_take, Nat.min_eq_left hmn]
    have hbounds : (after data rs m).pos ≤ (after data rs m).data.size := by
      rw [(after_inBounds data rs m).1]
      exact (after_inBounds data rs m).2
    rw [after, ← List.take_append_drop m (rs.take n), htake, performAll_append]
    exact overrun_performAll_mono hbounds hm _
  replies_eq := replies?_eq (c := ofBytes data) (Nat.zero_le _) rfl
  overrun_iff := by
    rw [overrun_performAll_iff (Nat.zero_le _)]
    simp only [ofBytes, Bool.false_eq_true, false_or]
    rfl
  words_eq h := (WordCursor.inBounds_ofBytes h).performAll_eq rs

/-- A count near 2^64 marks the cursor, and going back does not take the mark away. -/
theorem checkedOnce_backAfterOverrun :
    (#[0x10, 0x20, 0x66, 0, 5, 6, 7] : Bytes).size < UInt64.size ∧
    CheckedOnce #[0x10, 0x20, 0x66, 0, 5, 6, 7]
      [.value 2, .cstring, .align 4 (by decide), .values 2 1, .skip 0xFFFFFFFFFFFFFFFF, .seek 0] ∧
    (performAll [.value 2, .cstring, .align 4 (by decide), .values 2 1, .skip 0xFFFFFFFFFFFFFFFF, .seek 0]
      (ofBytes #[0x10, 0x20, 0x66, 0, 5, 6, 7])).2 = ⟨#[0x10, 0x20, 0x66, 0, 5, 6, 7], 0, true⟩ :=
  ⟨by decide, checkedOnce_of_requests _ _, by decide +kernel⟩

end CodeAtlas.Cursor
