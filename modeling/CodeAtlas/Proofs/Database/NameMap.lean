import CodeAtlas.Database.Info
import CodeAtlas.Proofs.Bytes.Holds
import CodeAtlas.Proofs.Bytes.Reading
import CodeAtlas.Proofs.Outcome

namespace CodeAtlas.Database

namespace Info

/-- A bucket is marked by one bit of the words; behind the last word no bucket is. -/
def isMarked (words : List UInt32) (bucket : Nat) : Bool := (words.getD (bucket / 32) 0).toNat.testBit (bucket % 32)

/-- The marked buckets below the capacity, in ascending order. Bits for other buckets do not count. -/
def buckets (words : List UInt32) (capacity : Nat) : List Nat := (List.range capacity).filter (isMarked words)

/-- The words of a bit vector behind their number. -/
def vectorBytes (words : List UInt32) : List UInt8 :=
  leBytes 4 words.length ++ words.flatMap fun word => leBytes 4 word.toNat

theorem bitIsSet_eq (words : List UInt32) (bucket : Nat) : bitIsSet words bucket = isMarked words bucket := by
  have hbit : bucket % 32 < 2 ^ 32 := Nat.lt_trans (Nat.mod_lt bucket (by decide)) (by decide)
  have hshift : bucket % 32 % 32 = bucket % 32 := Nat.mod_mod bucket 32
  rw [bitIsSet, isMarked, List.getD_eq_getElem?_getD]
  cases words[bucket / 32]? with
  | none => exact (Nat.zero_testBit _).symm
  | some word =>
    have hword : (word >>> UInt32.ofNat (bucket % 32) &&& 1).toNat = 1 &&& word.toNat >>> (bucket % 32) := by
      rw [UInt32.toNat_and, UInt32.toNat_shiftRight, UInt32.toNat_ofNat_of_lt' hbit, hshift, Nat.and_comm]
      rfl
    have hzero : (word >>> UInt32.ofNat (bucket % 32) &&& 1 != 0) =
        ((word >>> UInt32.ofNat (bucket % 32) &&& 1).toNat != 0) := by
      rw [Bool.eq_iff_iff, bne_iff_ne, bne_iff_ne, ne_eq, ne_eq, ← UInt32.toNat_inj]
      rfl
    rw [Option.any_some, Option.getD_some, hzero, hword]
    rfl

theorem isMarked_of_le {words : List UInt32} {bucket : Nat} (h : 32 * words.length ≤ bucket) :
    isMarked words bucket = false := by
  rw [isMarked, List.getD_eq_getElem?_getD, List.getElem?_eq_none (by omega), Option.getD_none]
  exact Nat.zero_testBit _

/-- As many entries follow as buckets below the capacity are marked. -/
theorem presentCount_eq (words : List UInt32) (capacity : Nat) :
    presentCount words capacity = (buckets words capacity).length := by
  have hset : bitIsSet words = isMarked words := funext (bitIsSet_eq words)
  rw [presentCount, hset, buckets, ← List.countP_eq_length_filter]
  rcases Nat.le_total capacity (32 * words.length) with hle | hle
  · rw [Nat.min_eq_left hle]
  · obtain ⟨rest, rfl⟩ := Nat.exists_eq_add_of_le hle
    have hrest : ((List.range rest).map (32 * words.length + ·)).countP (isMarked words) = 0 := by
      rw [List.countP_eq_zero]
      intro bucket hbucket
      obtain ⟨i, -, rfl⟩ := List.mem_map.mp hbucket
      rw [isMarked_of_le (Nat.le_add_right _ i)]
      exact Bool.false_ne_true
    rw [Nat.min_eq_right hle, List.range_add, List.countP_append, hrest, Nat.add_zero]

theorem reads_bitVector {words : List UInt32} (h : words.length < 2 ^ 32) :
    Reader.Reads bitVector (vectorBytes words) words := by
  intro c after hc
  rw [vectorBytes, List.append_assoc] at hc
  have hcount := Reader.reads_value_leBytes h c _ hc
  have hrest : (c.advance (leBytes 4 words.length).length).remaining =
      (words.flatMap fun word => leBytes 4 word.toNat) ++ after :=
    Cursor.remaining_advance_length hc
  have hlength := length_flatMap_of_length (fun word : UInt32 => length_leBytes 4 word.toNat) words
  have hroom : ¬(c.advance (leBytes 4 words.length).length).left < words.length * 4 := by
    rw [← Cursor.length_remaining, hrest, List.length_append, hlength]
    omega
  have hwords := Reader.Reads.times (fun word _ => Reader.reads_u32 word) _ after hrest
  rw [vectorBytes, List.length_append, ← Cursor.advance_advance, ← hwords]
  change (let r := (Cursor.value 4 c)
    (if r.2.left < r.1 * 4 then (do set r.2.spoil; pure []) else Reader.times r.1 Reader.u32 : Reader (List UInt32)).run
      r.2) = _
  have hcount' : Cursor.value 4 c = _ := hcount
  rw [hcount']
  dsimp only
  rw [if_neg hroom]

end Info

end CodeAtlas.Database
