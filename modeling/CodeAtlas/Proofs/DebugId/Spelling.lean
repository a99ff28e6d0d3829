import CodeAtlas.DebugId
import CodeAtlas.Proofs.Text.Numeral
import Mathlib.Tactic.IntervalCases

namespace CodeAtlas.DebugId

open Text HexDigit

/-- A way to write an identity: thirty-two digits, each behind any number of dashes, then a dash or none, and at most
eight digits of the appendix. -/
structure Spelling where
  digits : List (Nat × HexDigit)
  hasDash : Bool
  tail : List HexDigit
  length_digits : digits.length = 32
  length_tail : tail.length ≤ 8

/-- A digit and the dashes before it. -/
def dashed (d : Nat × HexDigit) : Text := List.replicate d.1 (code '-') ++ [d.2.byte]

namespace Spelling

def text (s : Spelling) : Text :=
  s.digits.flatMap dashed ++ ((if s.hasDash then [code '-'] else []) ++ s.tail.map byte)

def digitAt (s : Spelling) (i : Nat) : Nat := (s.digits[i]?.map (·.2.value.val)).getD 0

/-- Two digits make a byte, and no digits of the appendix mean zero. -/
def id (s : Spelling) : DebugId :=
  ⟨.ofFn fun i => .ofNat (s.digitAt (2 * i) * 16 + s.digitAt (2 * i + 1)), .ofNat (number s.tail)⟩

end Spelling

section Reading

variable {t rest : Text}

def digitByte (d : Nat × HexDigit) : UInt8 := .ofNat d.2.value.val

theorem takeDigits?_dashed (n : Nat) (d : Nat × HexDigit) (t : Text) :
    takeDigits? (n + 1) (dashed d ++ t) = (takeDigits? n t).map fun p => (digitByte d :: p.1, p.2) := by
  obtain ⟨k, d⟩ := d
  induction k with
  | zero =>
    show takeDigits? (n + 1) (d.byte :: t) = _
    rw [takeDigits?, if_neg d.byte_ne_dash, digitValue?_byte]
    cases takeDigits? n t <;> rfl
  | succ k ih =>
    show takeDigits? (n + 1) (code '-' :: (dashed (k, d) ++ t)) = _
    rw [takeDigits?, if_pos rfl]
    exact ih

theorem takeDigits?_flatMap (ds : List (Nat × HexDigit)) (t : Text) :
    takeDigits? ds.length (ds.flatMap dashed ++ t) = some (ds.map digitByte, t) := by
  induction ds with
  | nil => rw [List.length_nil, takeDigits?, List.flatMap_nil, List.map_nil, List.nil_append]
  | cons d ds ih =>
    rw [List.length_cons, List.flatMap_cons, List.append_assoc, takeDigits?_dashed, ih]
    rfl

theorem exists_of_takeDigits? {n : Nat} {bs : List UInt8} (h : takeDigits? n t = some (bs, rest)) :
    ∃ ds : List (Nat × HexDigit), ds.length = n ∧ ds.map digitByte = bs ∧ ds.flatMap dashed ++ rest = t := by
  fun_induction takeDigits? n t generalizing bs with
  | case1 t =>
    cases h
    exact ⟨[], rfl, rfl, rfl⟩
  | case2 => cases h
  | case3 n t ih =>
    obtain ⟨ds, hlength, hbytes, htext⟩ := ih h
    cases ds with
    | nil => cases hlength
    | cons d ds => exact ⟨(d.1 + 1, d.2) :: ds, hlength, hbytes, congrArg (code '-' :: ·) htext⟩
  | case4 n b t hb v bs rest hrest hv ih =>
    cases h
    obtain ⟨d, rfl, rfl⟩ := exists_of_digitValue? hv
    obtain ⟨ds, hlength, hbytes, htext⟩ := ih hrest
    refine ⟨(0, d) :: ds, congrArg (· + 1) hlength, ?_, ?_⟩
    · rw [List.map_cons, hbytes]
      rfl
    · rw [← htext]
      rfl
  | case5 => cases h

/-- The appendix is a numeral of at most eight digits, or there is none. -/
theorem readAppendix?_eq_some_iff {a : UInt32} : readAppendix? t = some a ↔
    ∃ ds : List HexDigit, ds.length ≤ 8 ∧ ds.map byte = t ∧ UInt32.ofNat (number ds) = a := by
  rw [readAppendix?]
  constructor
  · intro h
    split_ifs at h with hnil hlong
    · cases h
      exact ⟨[], by simp, hnil.symm, rfl⟩
    · obtain ⟨n, hn, rfl⟩ := Option.map_eq_some_iff.mp h
      obtain ⟨ds, -, rfl, rfl⟩ := toNat?_eq_some_iff.mp hn
      rw [List.length_map] at hlong
      exact ⟨ds, by omega, rfl, rfl⟩
  · rintro ⟨ds, hlength, rfl, rfl⟩
    by_cases hnil : ds = []
    · rw [hnil]
      rfl
    · have hnumber : toNat? 16 (ds.map byte) = some (number ds) := toNat?_eq_some_iff.mpr ⟨ds, hnil, rfl, rfl⟩
      rw [if_neg (mt List.map_eq_nil_iff.mp hnil), if_neg (by rw [List.length_map]; omega), hnumber]
      rfl

theorem packDigits_eq (s : Spelling) : packDigits (s.digits.map digitByte) = s.id.uuid := by
  have hdigit : ∀ i, (s.digits.map digitByte).getD i 0 = UInt8.ofNat (s.digitAt i) := by
    intro i
    rw [List.getD_eq_getElem?_getD, List.getElem?_map, Spelling.digitAt]
    cases s.digits[i]? <;> rfl
  rw [packDigits, Spelling.id]
  simp only [hdigit, UInt8.ofNat_add, UInt8.ofNat_mul]
  rfl

/-- The dash before the appendix is no part of it. -/
theorem getD_prefixed?_dash (hasDash : Bool) (ds : List HexDigit) :
    (prefixed? "-" ((if hasDash then [code '-'] else []) ++ ds.map byte)).getD
      ((if hasDash then [code '-'] else []) ++ ds.map byte) = ds.map byte := by
  cases hasDash with
  | true => rfl
  | false =>
    cases ds with
    | nil => rfl
    | cons d ds =>
      show (if code '-' = d.byte then some (ds.map byte) else none).getD (d.byte :: ds.map byte) = _
      rw [if_neg d.byte_ne_dash.symm]
      rfl

theorem ofText?_text (s : Spelling) : ofText? s.text = some s.id := by
  have hdigits := takeDigits?_flatMap s.digits ((if s.hasDash then [code '-'] else []) ++ s.tail.map byte)
  rw [s.length_digits] at hdigits
  have htail : readAppendix? (s.tail.map byte) = some (.ofNat (number s.tail)) :=
    readAppendix?_eq_some_iff.mpr ⟨s.tail, s.length_tail, rfl, rfl⟩
  rw [ofText?, Spelling.text, hdigits]
  dsimp only
  rw [getD_prefixed?_dash, htail, Option.map_some, packDigits_eq]
  rfl

/-- What is read is one of the written forms. -/
theorem ofText?_eq_some_iff {id : DebugId} : ofText? t = some id ↔ ∃ s : Spelling, s.text = t ∧ s.id = id := by
  constructor
  · intro h
    have hread := h
    rw [ofText?] at h
    split at h
    next => cases h
    next bs rest hdigits =>
      obtain ⟨ds, hlength, -, htext⟩ := exists_of_takeDigits? hdigits
      obtain ⟨a, ha, -⟩ := Option.map_eq_some_iff.mp h
      obtain ⟨tail, htail, hrest, -⟩ := readAppendix?_eq_some_iff.mp ha
      -- What follows the digits is the appendix, with a dash if one was taken away.
      obtain ⟨hasDash, hdash⟩ : ∃ hasDash : Bool, (if hasDash then [code '-'] else []) ++ tail.map byte = rest := by
        cases hcut : prefixed? "-" rest with
        | none =>
          rw [hcut, Option.getD_none] at hrest
          exact ⟨false, hrest⟩
        | some after =>
          rw [hcut, Option.getD_some] at hrest
          rw [hrest]
          exact ⟨true, (prefixed?_eq_some_iff.mp hcut).symm⟩
      have hs : (Spelling.mk ds hasDash tail hlength htail).text = t := by
        rw [Spelling.text, hdash, htext]
      refine ⟨⟨ds, hasDash, tail, hlength, htail⟩, hs, ?_⟩
      rw [← hs, ofText?_text] at hread
      exact Option.some.inj hread
  · rintro ⟨s, rfl, rfl⟩
    exact ofText?_text s

end Reading

section Writing

theorem toNat_div_lt (b : UInt8) : b.toNat / 16 < 16 := by
  have hlt := b.toNat_lt
  omega

theorem toNat_mod_lt (b : UInt8) : b.toNat % 16 < 16 := Nat.mod_lt _ (by decide)

/-- The two digits of a byte. -/
def byteDigits (isUpper : Bool) (b : UInt8) : List HexDigit :=
  [⟨⟨b.toNat / 16, toNat_div_lt b⟩, isUpper⟩, ⟨⟨b.toNat % 16, toNat_mod_lt b⟩, isUpper⟩]

/-- One dash stands before each group of bytes but the first. -/
def groupDashes : List Nat :=
  [0, 0, 0, 0, 0, 0, 0, 0, 1, 0, 0, 0, 1, 0, 0, 0, 1, 0, 0, 0, 1, 0, 0, 0, 0, 0, 0, 0, 0, 0, 0, 0]

theorem length_groupDashes : groupDashes.length = 32 := rfl

theorem exists_bytes (v : Vector UInt8 16) : ∃ b₀ b₁ b₂ b₃ b₄ b₅ b₆ b₇ b₈ b₉ b₁₀ b₁₁ b₁₂ b₁₃ b₁₄ b₁₅,
    v = #v[b₀, b₁, b₂, b₃, b₄, b₅, b₆, b₇, b₈, b₉, b₁₀, b₁₁, b₁₂, b₁₃, b₁₄, b₁₅] := by
  refine ⟨v[0], v[1], v[2], v[3], v[4], v[5], v[6], v[7], v[8], v[9], v[10], v[11], v[12], v[13], v[14], v[15], ?_⟩
  apply Vector.ext
  intro i hi
  interval_cases i <;> rfl

variable {isUpper : Bool}

theorem length_byteDigits (bs : List UInt8) : (bs.flatMap (byteDigits isUpper)).length = 2 * bs.length := by
  induction bs with
  | nil => rfl
  | cons b bs ih =>
    rw [List.flatMap_cons, List.length_append, ih, List.length_cons]
    show 2 + 2 * bs.length = _
    omega

/-- The digits of the bytes with the given numbers of dashes before them. -/
def spell (isUpper : Bool) (dashes : List Nat) (hdashes : dashes.length = 32) (bytes : Vector UInt8 16)
    (hasDash : Bool) (tail : List HexDigit) (htail : tail.length ≤ 8) : Spelling where
  digits := dashes.zip (bytes.toList.flatMap (byteDigits isUpper))
  hasDash := hasDash
  tail := tail
  length_digits := by
    rw [List.length_zip, length_byteDigits, Vector.length_toList, hdashes]
    rfl
  length_tail := htail

theorem digitAt_byteDigits (isUpper : Bool) (bs : List UInt8) (i : Nat) (h : i < bs.length) :
    (((bs.flatMap (byteDigits isUpper))[2 * i]?.map (·.value.val)).getD 0) = bs[i].toNat / 16 ∧
      (((bs.flatMap (byteDigits isUpper))[2 * i + 1]?.map (·.value.val)).getD 0) = bs[i].toNat % 16 := by
  induction bs generalizing i with
  | nil => cases h
  | cons b bs ih =>
    cases i with
    | zero => exact ⟨rfl, rfl⟩
    | succ i => exact ih i (Nat.lt_of_succ_lt_succ h)

theorem id_spell {dashes : List Nat} {hdashes : dashes.length = 32} {bytes : Vector UInt8 16} {hasDash : Bool}
    {tail : List HexDigit} {htail : tail.length ≤ 8} :
    (spell isUpper dashes hdashes bytes hasDash tail htail).id = ⟨bytes, .ofNat (number tail)⟩ := by
  have hlength : (bytes.toList.flatMap (byteDigits isUpper)).length = 32 := by
    rw [length_byteDigits, Vector.length_toList]
  have hdigits : ((spell isUpper dashes hdashes bytes hasDash tail htail).digits).map (·.2) =
      bytes.toList.flatMap (byteDigits isUpper) := List.map_snd_zip (by omega)
  have hdigit : ∀ i, (spell isUpper dashes hdashes bytes hasDash tail htail).digitAt i =
      ((bytes.toList.flatMap (byteDigits isUpper))[i]?.map (·.value.val)).getD 0 := by
    intro i
    rw [← hdigits, List.getElem?_map, Option.map_map]
    rfl
  rw [Spelling.id]
  congr 1
  apply Vector.ext
  intro i hi
  obtain ⟨hhigh, hlow⟩ := digitAt_byteDigits isUpper bytes.toList i (by simpa using hi)
  rw [Vector.getElem_ofFn, hdigit, hdigit, hhigh, hlow, Vector.getElem_toList]
  apply UInt8.toNat_inj.mp
  have hlt := bytes[i].toNat_lt
  rw [UInt8.toNat_ofNat']
  omega

theorem flatMap_dashed_groups (bytes : Vector UInt8 16) :
    (groupDashes.zip (bytes.toList.flatMap (byteDigits false))).flatMap dashed =
      join "-" [bytes.toList.take 4 |>.flatMap hexByte, (bytes.toList.take 6).drop 4 |>.flatMap hexByte,
        (bytes.toList.take 8).drop 6 |>.flatMap hexByte, (bytes.toList.take 10).drop 8 |>.flatMap hexByte,
        (bytes.toList.take 16).drop 10 |>.flatMap hexByte] := by
  obtain ⟨b₀, b₁, b₂, b₃, b₄, b₅, b₆, b₇, b₈, b₉, b₁₀, b₁₁, b₁₂, b₁₃, b₁₄, b₁₅, rfl⟩ := exists_bytes bytes
  rfl

theorem flatMap_dashed_plain (bytes : Vector UInt8 16) :
    ((List.replicate 32 0).zip (bytes.toList.flatMap (byteDigits true))).flatMap dashed =
      upper (bytes.toList.flatMap hexByte) := by
  obtain ⟨b₀, b₁, b₂, b₃, b₄, b₅, b₆, b₇, b₈, b₉, b₁₀, b₁₁, b₁₂, b₁₃, b₁₄, b₁₅, rfl⟩ := exists_bytes bytes
  rfl

/-- The digits of an appendix, in either case. -/
theorem exists_appendix (isUpper : Bool) (a : UInt32) : ∃ ds : List HexDigit, ds.length ≤ 8 ∧
    ds.map byte = (if isUpper then upper (hex a.toNat) else hex a.toNat) ∧ UInt32.ofNat (number ds) = a := by
  obtain ⟨ds, -, htext, hvalue, hlength⟩ := exists_hexDigits isUpper a.toNat
  have hlt := a.toNat_lt
  refine ⟨ds, hlength 8 (by omega) (by omega), htext, ?_⟩
  rw [hvalue, UInt32.ofNat_toNat]

theorem exists_spelling_toText (id : DebugId) : ∃ s : Spelling, s.text = id.toText ∧ s.id = id := by
  obtain ⟨bytes, a⟩ := id
  by_cases ha : a = 0
  · refine ⟨spell false groupDashes length_groupDashes bytes false [] (by simp), ?_, ?_⟩
    · rw [Spelling.text, spell, flatMap_dashed_groups, toText, if_pos ha]
      rfl
    · rw [id_spell, ha]
      rfl
  · obtain ⟨ds, hlength, htext, hnumber⟩ := exists_appendix false a
    refine ⟨spell false groupDashes length_groupDashes bytes true ds hlength, ?_, ?_⟩
    · rw [Spelling.text, spell, flatMap_dashed_groups, htext, toText, if_neg ha]
      rfl
    · rw [id_spell, hnumber]

theorem exists_spelling_toPlainText (id : DebugId) : ∃ s : Spelling, s.text = id.toPlainText ∧ s.id = id := by
  obtain ⟨ds, hlength, htext, hnumber⟩ := exists_appendix true id.appendix
  refine ⟨spell true (List.replicate 32 0) List.length_replicate id.uuid false ds hlength, ?_, ?_⟩
  · have happend : toPlainText id = upper (id.uuid.toList.flatMap hexByte) ++ upper (hex id.appendix.toNat) :=
      List.map_append
    rw [Spelling.text, spell, flatMap_dashed_plain, htext, happend]
    rfl
  · rw [id_spell, hnumber]

end Writing

/-- Turning the first fields around again gives the stored identifier. -/
theorem uuid_ofGuidAge_uuid (g : Vector UInt8 16) (age age' : UInt32) :
    (ofGuidAge (ofGuidAge g age).uuid age').uuid = g := by
  apply Vector.ext
  intro i hi
  interval_cases i <;> rfl

theorem ofGuidAge_inj {g g' : Vector UInt8 16} {age age' : UInt32} (h : ofGuidAge g age = ofGuidAge g' age') :
    g = g' ∧ age = age' := by
  have huuid : (ofGuidAge g age).uuid = (ofGuidAge g' age').uuid := congrArg uuid h
  constructor
  · rw [← uuid_ofGuidAge_uuid g age age, huuid, uuid_ofGuidAge_uuid]
  · exact congrArg appendix h

/-- Identities are read back from both texts, and nothing is read that is not written this way. -/
structure SurvivesText : Prop where
  ofText?_toText : ∀ id : DebugId, ofText? id.toText = some id
  ofText?_toPlainText : ∀ id : DebugId, ofText? id.toPlainText = some id
  stored : ∀ g age g' age', ofGuidAge g age = ofGuidAge g' age' → g = g' ∧ age = age'
  toText_stored : ∀ g age g' age', (ofGuidAge g age).toText = (ofGuidAge g' age').toText → g = g' ∧ age = age'
  toPlainText_stored : ∀ g age g' age', (ofGuidAge g age).toPlainText = (ofGuidAge g' age').toPlainText →
    g = g' ∧ age = age'
  ofText?_iff : ∀ t id, ofText? t = some id ↔ ∃ s : Spelling, s.text = t ∧ s.id = id

theorem survivesText : SurvivesText := by
  have htext : ∀ id : DebugId, ofText? id.toText = some id :=
    fun id => ofText?_eq_some_iff.mpr (exists_spelling_toText id)
  have hplain : ∀ id : DebugId, ofText? id.toPlainText = some id :=
    fun id => ofText?_eq_some_iff.mpr (exists_spelling_toPlainText id)
  refine ⟨htext, hplain, fun g age g' age' => ofGuidAge_inj, ?_, ?_, fun t id => ofText?_eq_some_iff⟩
  · intro g age g' age' h
    have hread := htext (ofGuidAge g age)
    rw [h, htext] at hread
    exact ofGuidAge_inj (Option.some.inj hread).symm
  · intro g age g' age' h
    have hread := hplain (ofGuidAge g age)
    rw [h, hplain] at hread
    exact ofGuidAge_inj (Option.some.inj hread).symm

example : ofText? "--00112233-4455-66778899aAbBcCdDeEf-F1f" =
    some ⟨#v[0x00, 0x11, 0x22, 0x33, 0x44, 0x55, 0x66, 0x77, 0x88, 0x99, 0xaa, 0xbb, 0xcc, 0xdd, 0xee, 0xff],
      0x1f⟩ := by
  decide +kernel

end CodeAtlas.DebugId
