import CodeAtlas.Bytes.Cursor
import CodeAtlas.Proofs.Bytes.Encoding

namespace CodeAtlas

namespace Cursor

def remaining (c : Cursor) : List UInt8 := c.data.toList.drop c.pos

@[simp] theorem length_remaining (c : Cursor) : c.remaining.length = c.left := by
  simp only [remaining, left, List.length_drop, Array.length_toList]

@[simp] theorem remaining_ofBytes (data : Bytes) : (ofBytes data).remaining = data.toList := rfl

@[simp] theorem remaining_advance (n : Nat) (c : Cursor) : (c.advance n).remaining = c.remaining.drop n := by
  simp only [remaining, advance, List.drop_drop]

theorem advance_advance (m n : Nat) (c : Cursor) : (c.advance m).advance n = c.advance (m + n) := by
  simp only [advance, Nat.add_assoc]

theorem remaining_advance_length {c : Cursor} {bs after : List UInt8} (h : c.remaining = bs ++ after) :
    (c.advance bs.length).remaining = after := by
  rw [remaining_advance, h, List.drop_left]

theorem bytes_of_remaining {c : Cursor} {bs after : List UInt8} (h : c.remaining = bs ++ after) :
    c.bytes bs.length = (bs.toArray, c.advance bs.length) := by
  have hl : bs.length ≤ c.left := by
    rw [← length_remaining, h, List.length_append]
    omega
  have hx : c.data.extract c.pos (c.pos + bs.length) = bs.toArray := by
    have ht : (c.data.toList.drop c.pos).take bs.length = bs := by
      rw [show c.data.toList.drop c.pos = bs ++ after from h, List.take_left]
    apply Array.toList_inj.mp
    simpa [List.extract_eq_take_drop] using ht
  rw [bytes, if_pos hl, hx]

theorem value_of_remaining {c : Cursor} {bs after : List UInt8} (h : c.remaining = bs ++ after) :
    c.value bs.length = (leValue bs, c.advance bs.length) := by
  simp only [value, bytes_of_remaining h]

end Cursor

namespace Reader

variable {α β : Type}

/-- Wherever these bytes come next, the reader turns them into the value and passes over them. -/
def Reads (r : Reader α) (bytes : List UInt8) (a : α) : Prop :=
  ∀ (c : Cursor) (after : List UInt8), c.remaining = bytes ++ after → r.run c = (a, c.advance bytes.length)

theorem Reads.exists_run {r : Reader α} {bytes after : List UInt8} {a : α} (h : Reads r bytes a) {c : Cursor}
    (hc : c.remaining = bytes ++ after) (hover : c.overrun = false) :
    ∃ c' : Cursor, r.run c = (a, c') ∧ c'.remaining = after ∧ c'.overrun = false :=
  ⟨c.advance bytes.length, h c after hc, Cursor.remaining_advance_length hc, hover⟩

theorem reads_pure (a : α) : Reads (pure a) [] a := fun _ _ _ => rfl

theorem Reads.bind {r : Reader α} {f : α → Reader β} {bs bs' : List UInt8} {a : α} {b : β}
    (hr : Reads r bs a) (hf : Reads (f a) bs' b) : Reads (r >>= f) (bs ++ bs') b := by
  intro c after h
  rw [List.append_assoc] at h
  change (f (r.run c).1).run (r.run c).2 = _
  rw [hr c _ h, hf _ after (Cursor.remaining_advance_length h), Cursor.advance_advance, List.length_append]

theorem reads_value (bs : List UInt8) : Reads (Cursor.value bs.length) bs (leValue bs) :=
  fun _ _ h => Cursor.value_of_remaining h

theorem reads_value_leBytes {width n : Nat} (h : n < 256 ^ width) :
    Reads (Cursor.value width) (leBytes width n) n := by
  have hr := reads_value (leBytes width n)
  rwa [length_leBytes, leValue_leBytes_of_lt h] at hr

theorem reads_bytes (bs : List UInt8) : Reads (Reader.bytes bs.length) bs bs.toArray :=
  fun _ _ h => Cursor.bytes_of_remaining h

theorem reads_skip (bs : List UInt8) : Reads (Reader.skip bs.length) bs () := by
  intro c after h
  have hleft : bs.length ≤ c.left := by
    rw [← Cursor.length_remaining, h, List.length_append]
    omega
  have hskip : c.skip bs.length = c.advance bs.length := if_pos hleft
  exact congrArg (Prod.mk ()) hskip

theorem Reads.map {r : Reader α} {bs : List UInt8} {a : α} (h : Reads r bs a) (f : α → β) :
    Reads (f <$> r) bs (f a) := by
  intro c after hc
  change (f (r.run c).1, (r.run c).2) = _
  rw [h c after hc]

theorem reads_u8 (b : UInt8) : Reads Reader.u8 [b] b := by
  have hvalue : Reads (Cursor.value 1) [b] b.toNat := reads_value [b]
  have h := hvalue.map UInt8.ofNat
  rwa [UInt8.ofNat_toNat] at h

theorem reads_u16 (n : UInt16) : Reads Reader.u16 (leBytes 2 n.toNat) n := by
  have hvalue : Reads (Cursor.value 2) (leBytes 2 n.toNat) n.toNat := reads_value_leBytes n.toNat_lt
  have h := hvalue.map UInt16.ofNat
  rwa [UInt16.ofNat_toNat] at h

theorem reads_u32 (n : UInt32) : Reads Reader.u32 (leBytes 4 n.toNat) n := by
  have hvalue : Reads (Cursor.value 4) (leBytes 4 n.toNat) n.toNat := reads_value_leBytes n.toNat_lt
  have h := hvalue.map UInt32.ofNat
  rwa [UInt32.ofNat_toNat] at h

theorem Reads.times_map {r : Reader α} {encode : β → List UInt8} {value : β → α} {bs : List β}
    (h : ∀ b ∈ bs, Reads r (encode b) (value b)) :
    Reads (Reader.times bs.length r) (bs.flatMap encode) (bs.map value) := by
  induction bs with
  | nil => exact reads_pure []
  | cons b bs ih =>
    have hb := h b List.mem_cons_self
    have hbs := ih fun b' hb' => h b' (List.mem_cons_of_mem b hb')
    rw [List.flatMap_cons, List.length_cons, Reader.times, List.map_cons]
    refine hb.bind ?_
    simpa only [List.append_nil] using
      hbs.bind (f := fun rest => pure (value b :: rest)) (reads_pure (value b :: bs.map value))

theorem Reads.times {r : Reader α} {encode : α → List UInt8} {as : List α}
    (h : ∀ a ∈ as, Reads r (encode a) a) : Reads (Reader.times as.length r) (as.flatMap encode) as := by
  have hmap : Reads (Reader.times as.length r) (as.flatMap encode) (as.map id) := Reads.times_map h
  rwa [List.map_id] at hmap

theorem length_times (n : Nat) (r : Reader α) (c : Cursor) : ((Reader.times n r).run c).1.length = n := by
  induction n generalizing c with
  | zero => rfl
  | succ n ih =>
    rw [Reader.times]
    exact congrArg (· + 1) (ih (r.run c).2)

end Reader

end CodeAtlas
