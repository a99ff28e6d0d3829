import CodeAtlas.Proofs.Bytes.Holds
import CodeAtlas.Proofs.Bytes.Requests
import CodeAtlas.Proofs.Image.FunctionExtents

namespace CodeAtlas

namespace UnwindRecord

theorem overrun_read {c : Cursor} (h : c.left < entrySize) : (read.run c).2.overrun = true := by
  have hrun : (read.run c).2 = ((Reader.times 3 (Cursor.value 4)).run c).2 := rfl
  rw [hrun, Cursor.times_value_of_lt h]
  rfl

/-- A record is read from its bytes and from no others. -/
theorem decode?_read_eq_some_iff {data : Bytes} {r : UnwindRecord} :
    read.decode? data = some r ↔ data.Holds 0 r.bytes := by
  have hrun : ∀ q : UnwindRecord, data.Holds 0 q.bytes → read.decode? data = some q := by
    rintro q ⟨before, after, hbefore, hdata⟩
    rw [List.length_eq_zero_iff.mp hbefore, List.nil_append] at hdata
    rw [Reader.decode?, reads_bytes q (.ofBytes data) after hdata]
    rfl
  refine ⟨fun h => ?_, hrun r⟩
  rcases Nat.lt_or_ge data.size entrySize with hsize | hsize
  · have hover := overrun_read (c := .ofBytes data) hsize
    have hnone : read.decode? data = none := if_pos hover
    rw [hnone] at h
    cases h
  · have hlength : (data.toList.take entrySize).length = entrySize := by
      rw [List.length_take, Array.length_toList, Nat.min_eq_left hsize]
    obtain ⟨q, hq⟩ := exists_bytes_eq hlength
    have hholds : data.Holds 0 q.bytes := ⟨[], data.toList.drop entrySize, rfl, by
      rw [hq, List.nil_append, List.take_append_drop]⟩
    rw [hrun q hholds] at h
    cases h
    exact hholds

/-- The version of unwind information, in the three lowest bits. -/
def infoVersion (info : Bytes) : Nat := (info.getD 0 0).toNat % 8

/-- Whether another record follows the codes. -/
def isChained (info : Bytes) : Bool := (info.getD 0 0).toNat.testBit 5

/-- Where the other record stands: behind four bytes and an even number of codes of two bytes. -/
def linkAt (info : Bytes) : Nat := 4 + 2 * (((info.getD 2 0).toNat + 1) / 2 * 2)

/-- Unwind information that is chained to a record. -/
structure LinksTo (info : Bytes) (next : UnwindRecord) : Prop where
  version : infoVersion info = 1 ∨ infoVersion info = 2
  isChained : isChained info = true
  holds : info.Holds (linkAt info) next.bytes

theorem version_eq_iff (b : UInt8) (n : Fin 8) : b &&& 7 = .ofNat n.val ↔ b.toNat % 8 = n.val := by
  have h : ∀ (v : Fin 256) (n : Fin 8), UInt8.ofFin v &&& 7 = .ofNat n.val ↔ v.val % 8 = n.val := by decide +kernel
  exact h b.toFin n

theorem flag_eq_zero_iff (b : UInt8) : (b >>> 3) &&& 4 = 0 ↔ ¬b.toNat.testBit 5 = true := by
  have h : ∀ v : Fin 256, (UInt8.ofFin v >>> 3) &&& 4 = 0 ↔ ¬v.val.testBit 5 = true := by decide +kernel
  exact h b.toFin

theorem chained?_of_lt {info : Bytes} (h : info.size < 4) : chained? info = none := by
  rw [chained?, Bytes.slice?_eq_none_iff.mpr (by omega)]
  rfl

theorem chained?_of_le {info : Bytes} (h : 4 ≤ info.size) : chained? info =
    if infoVersion info ≠ 1 ∧ infoVersion info ≠ 2 then none
    else if ¬isChained info = true then none
    else read.decode? (info.drop (linkAt info)) := by
  have hhead : info.slice? 0 4 = some (info.extract 0 4) := Bytes.slice?_eq_some_iff.mpr ⟨by omega, rfl⟩
  have hget : ∀ i, i < 4 → (info.extract 0 4).getD i 0 = info.getD i 0 := by
    intro i hi
    have h := Bytes.getElem?_of_slice? hhead hi
    rw [Nat.zero_add] at h
    rw [Array.getD_eq_getD_getElem?, Array.getD_eq_getD_getElem?, h]
  have hlink : 4 + ((info.getD 2 0).toNat + (info.getD 2 0).toNat % 2) * 2 = linkAt info := by
    rw [linkAt]
    omega
  have hone : info.getD 0 0 &&& 7 ≠ 1 ↔ infoVersion info ≠ 1 := not_congr (version_eq_iff _ 1)
  have htwo : info.getD 0 0 &&& 7 ≠ 2 ↔ infoVersion info ≠ 2 := not_congr (version_eq_iff _ 2)
  have hflag : (info.getD 0 0 >>> 3) &&& 4 = 0 ↔ ¬isChained info = true := flag_eq_zero_iff _
  simp only [chained?, hhead, Option.bind_eq_bind, Option.bind_some, hget 0 (by decide), hget 2 (by decide), hlink,
    hone, htwo, hflag]

theorem chained?_eq_some_iff {info : Bytes} {next : UnwindRecord} : chained? info = some next ↔ LinksTo info next := by
  have hne : next.bytes ≠ [] := fun h => by
    have hlength := next.length_bytes
    rw [h] at hlength
    cases hlength
  have hiff : LinksTo info next ↔ (infoVersion info = 1 ∨ infoVersion info = 2) ∧ isChained info = true ∧
      info.Holds (linkAt info) next.bytes := ⟨fun h => ⟨h.1, h.2, h.3⟩, fun h => ⟨h.1, h.2.1, h.2.2⟩⟩
  rcases Nat.lt_or_ge info.size 4 with hsize | hsize
  · rw [chained?_of_lt hsize]
    refine ⟨nofun, fun h => ?_⟩
    have hle := h.holds.le_size
    rw [linkAt] at hle
    omega
  · rw [chained?_of_le hsize, hiff, ← Bytes.holds_drop_iff hne, ← decode?_read_eq_some_iff]
    split
    next hversion =>
      refine ⟨nofun, fun h => ?_⟩
      exact (h.1.elim hversion.1 hversion.2).elim
    next hversion =>
      split
      next hflag => exact ⟨nofun, fun h => (hflag h.2.1).elim⟩
      next hflag => exact ⟨fun h => ⟨by omega, not_not.mp hflag, h⟩, fun h => h.2.2⟩

/-- Why a chain ends at a record: its unwind information cannot be read, has another version, is chained to nothing or
is too short. -/
inductive EndsChain (info? : UInt32 → Option Bytes) (r : UnwindRecord) : Prop
  | unreadable (h : info? r.info = none)
  | unsupported {info : Bytes} (h : info? r.info = some info) (version : infoVersion info ≠ 1 ∧ infoVersion info ≠ 2)
  | unchained {info : Bytes} (h : info? r.info = some info) (not_chained : isChained info = false)
  | truncated {info : Bytes} (h : info? r.info = some info) (short : info.size < linkAt info + entrySize)

/-- The unwind information of a record is chained to another record. -/
def Links (info? : UInt32 → Option Bytes) (r next : UnwindRecord) : Prop :=
  ∃ info, info? r.info = some info ∧ LinksTo info next

/-- The record that the unwind information of a record is chained to. -/
def next? (info? : UInt32 → Option Bytes) (r : UnwindRecord) : Option UnwindRecord := (info? r.info).bind chained?

variable {info? : UInt32 → Option Bytes}

theorem exists_holds {info : Bytes} {pos : Nat} (h : pos + entrySize ≤ info.size) :
    ∃ r : UnwindRecord, info.Holds pos r.bytes := by
  have hslice : info.slice? pos entrySize = some (info.extract pos (pos + entrySize)) :=
    Bytes.slice?_eq_some_iff.mpr ⟨h, rfl⟩
  obtain ⟨r, hr⟩ := exists_bytes_eq (Bytes.size_of_slice? hslice)
  exact ⟨r, hr ▸ Bytes.holds_of_slice? hslice⟩

theorem endsChain_iff {r : UnwindRecord} : EndsChain info? r ↔ next? info? r = none := by
  rw [next?]
  constructor
  · intro h
    cases h with
    | unreadable h => rw [h, Option.bind_none]
    | unsupported h version =>
      rw [h, Option.bind_some, Option.eq_none_iff_forall_ne_some]
      intro q hq
      exact (chained?_eq_some_iff.mp hq).version.elim version.1 version.2
    | unchained h not_chained =>
      rw [h, Option.bind_some, Option.eq_none_iff_forall_ne_some]
      intro q hq
      exact Bool.false_ne_true (not_chained.symm.trans (chained?_eq_some_iff.mp hq).isChained)
    | truncated h short =>
      rw [h, Option.bind_some, Option.eq_none_iff_forall_ne_some]
      intro q hq
      have hle := (chained?_eq_some_iff.mp hq).holds.le_size
      rw [q.length_bytes] at hle
      omega
  · intro hnone
    cases h : info? r.info with
    | none => exact .unreadable h
    | some info =>
      rw [h, Option.bind_some] at hnone
      by_cases hversion : infoVersion info ≠ 1 ∧ infoVersion info ≠ 2
      · exact .unsupported h hversion
      · cases hflag : isChained info with
        | false => exact .unchained h hflag
        | true =>
          refine .truncated h (Nat.lt_of_not_le fun hle => ?_)
          obtain ⟨q, hq⟩ := exists_holds hle
          have hsome := chained?_eq_some_iff.mpr ⟨by omega, hflag, hq⟩
          rw [hnone] at hsome
          cases hsome

theorem links_iff {r next : UnwindRecord} : Links info? r next ↔ next? info? r = some next := by
  rw [next?, Option.bind_eq_some_iff, Links]
  simp only [chained?_eq_some_iff]

theorem Links.unique {r q q' : UnwindRecord} (h : Links info? r q) (h' : Links info? r q') : q = q' :=
  Option.some.inj ((links_iff.mp h).symm.trans (links_iff.mp h'))

theorem Links.of_info_eq {r r' q : UnwindRecord} (h : Links info? r q) (hinfo : r.info = r'.info) :
    Links info? r' q := by rwa [Links, ← hinfo]

theorem not_endsChain_of_links {r q : UnwindRecord} (h : Links info? r q) : ¬EndsChain info? r := by
  rw [endsChain_iff, links_iff.mp h]
  exact Option.some_ne_none q

end UnwindRecord

end CodeAtlas
