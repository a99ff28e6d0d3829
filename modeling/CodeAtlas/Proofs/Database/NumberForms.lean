import CodeAtlas.Database.InlineStep
import CodeAtlas.Proofs.Bytes.Encoding
import Mathlib.Data.List.Basic

namespace CodeAtlas.Database

/-- The forms in which a number is written. -/
inductive NumberForm
  | oneByte
  | twoBytes
  | fourBytes
deriving Repr, DecidableEq

namespace NumberForm

def width : NumberForm → Nat
  | oneByte => 1
  | twoBytes => 2
  | fourBytes => 4

/-- The bits at the front that tell the form. -/
def lead : NumberForm → Nat
  | oneByte => 0
  | twoBytes => 0b10
  | fourBytes => 0b110

/-- They leave 7, 14 and 29 bits for the number. -/
def limit : NumberForm → Nat
  | oneByte => 2 ^ 7
  | twoBytes => 2 ^ 14
  | fourBytes => 2 ^ 29

/-- The number behind the bits that tell its form, the most significant byte first. -/
def bytes (n : Nat) (form : NumberForm) : List UInt8 := (leBytes form.width (form.lead * form.limit + n)).reverse

theorem length_bytes (n : Nat) (form : NumberForm) : (form.bytes n).length = form.width := by
  rw [bytes, List.length_reverse, length_leBytes]

theorem width_cases (form : NumberForm) : form.width = 1 ∨ form.width = 2 ∨ form.width = 4 := by
  cases form <;> decide

theorem limit_le (form : NumberForm) : form.limit ≤ 2 ^ 29 := by cases form <;> decide

end NumberForm

theorem marked_oneByte_iff (a : UInt8) : a &&& 0x80 = 0 ↔ a.toNat < 2 ^ 7 := by
  have h : a &&& 0x80 = 0 ↔ a.toNat / 2 ^ 7 = 0 := marked_iff a 7 0 (by decide) (by decide)
  rw [h]
  omega

theorem marked_twoBytes_iff (a : UInt8) : a &&& 0xC0 = 0x80 ↔ a.toNat / 2 ^ 6 = 2 :=
  marked_iff a 6 2 (by decide) (by decide)

theorem marked_fourBytes_iff (a : UInt8) : a &&& 0xE0 = 0xC0 ↔ a.toNat / 2 ^ 5 = 6 :=
  marked_iff a 5 6 (by decide) (by decide)

theorem toNat_shiftLeft_or {a b : UInt32} {k : Nat} (hk : k < 32) (ha : a.toNat * 2 ^ k < 2 ^ 32)
    (hb : b.toNat < 2 ^ k) : (a <<< UInt32.ofNat k ||| b).toNat = a.toNat * 2 ^ k + b.toNat := by
  have hshift : (UInt32.ofNat k).toNat % 32 = k := by
    rw [UInt32.toNat_ofNat']
    omega
  rw [UInt32.toNat_or, UInt32.toNat_shiftLeft, hshift, Nat.shiftLeft_eq, Nat.mod_eq_of_lt ha, Nat.mul_comm,
    Nat.two_pow_add_eq_or_of_lt hb]

/-- The number that the marked bytes stand for. -/
theorem toNat_twoBytes (a b : UInt8) :
    ((a &&& 0x3F).toUInt32 <<< 8 ||| b.toUInt32).toNat = a.toNat % 2 ^ 6 * 2 ^ 8 + b.toNat := by
  have ha : (a &&& 0x3F).toUInt32.toNat = a.toNat % 2 ^ 6 := toNat_low a 6 (by decide)
  have hb : b.toUInt32.toNat < 2 ^ 8 := b.toNat_lt
  rw [← ha]
  exact toNat_shiftLeft_or (k := 8) (by decide) (by omega) hb

theorem toNat_fourBytes (a b c d : UInt8) :
    ((a &&& 0x1F).toUInt32 <<< 24 ||| b.toUInt32 <<< 16 ||| c.toUInt32 <<< 8 ||| d.toUInt32).toNat =
      a.toNat % 2 ^ 5 * 2 ^ 24 + (b.toNat * 2 ^ 16 + (c.toNat * 2 ^ 8 + d.toNat)) := by
  have ha : (a &&& 0x1F).toUInt32.toNat = a.toNat % 2 ^ 5 := toNat_low a 5 (by decide)
  have hb : b.toUInt32.toNat < 2 ^ 8 := b.toNat_lt
  have hc : c.toUInt32.toNat < 2 ^ 8 := c.toNat_lt
  have hd : d.toUInt32.toNat < 2 ^ 8 := d.toNat_lt
  have hcd : (c.toUInt32 <<< 8 ||| d.toUInt32).toNat = c.toUInt32.toNat * 2 ^ 8 + d.toUInt32.toNat :=
    toNat_shiftLeft_or (k := 8) (by decide) (by omega) hd
  have hbcd : (b.toUInt32 <<< 16 ||| (c.toUInt32 <<< 8 ||| d.toUInt32)).toNat =
      b.toUInt32.toNat * 2 ^ 16 + (c.toUInt32 <<< 8 ||| d.toUInt32).toNat :=
    toNat_shiftLeft_or (k := 16) (by decide) (by omega) (by omega)
  have habcd : ((a &&& 0x1F).toUInt32 <<< 24 ||| (b.toUInt32 <<< 16 ||| (c.toUInt32 <<< 8 ||| d.toUInt32))).toNat =
      (a &&& 0x1F).toUInt32.toNat * 2 ^ 24 + (b.toUInt32 <<< 16 ||| (c.toUInt32 <<< 8 ||| d.toUInt32)).toNat :=
    toNat_shiftLeft_or (k := 24) (by decide) (by omega) (by omega)
  rw [UInt32.or_assoc, UInt32.or_assoc, habcd, hbcd, hcd, ha]
  rfl

namespace NumberForm

theorem lead_mul_limit_add_lt {form : NumberForm} {n : Nat} (h : n < form.limit) :
    form.lead * form.limit + n < 256 ^ form.width := by
  cases form <;> simp only [lead, limit, width] at h ⊢ <;> omega

theorem lead_mul_limit_add_eq_iff {form : NumberForm} {n v : Nat} :
    n < form.limit ∧ form.lead * form.limit + n = v ↔ v / form.limit = form.lead ∧ n = v % form.limit := by
  cases form <;> simp only [lead, limit] <;> omega

/-- The bytes tell the form and the number. -/
theorem bytes_eq_iff {form : NumberForm} {n : Nat} {bs : List UInt8} : n < form.limit ∧ form.bytes n = bs ↔
    bs.length = form.width ∧ leValue bs.reverse / form.limit = form.lead ∧ n = leValue bs.reverse % form.limit := by
  rw [← lead_mul_limit_add_eq_iff]
  constructor
  · rintro ⟨h, rfl⟩
    rw [length_bytes, bytes, List.reverse_reverse, leValue_leBytes_of_lt (lead_mul_limit_add_lt h)]
    exact ⟨rfl, h, rfl⟩
  · rintro ⟨hlength, h, hvalue⟩
    have hbytes := leBytes_leValue bs.reverse
    rw [List.length_reverse, hlength, ← hvalue] at hbytes
    rw [bytes, hbytes, List.reverse_reverse]
    exact ⟨h, rfl⟩

theorem bytes_oneByte_iff {a : UInt8} {n : Nat} :
    n < oneByte.limit ∧ oneByte.bytes n = [a] ↔ a.toNat < 2 ^ 7 ∧ n = a.toNat := by
  rw [bytes_eq_iff]
  simp only [List.length_singleton, List.reverse_singleton, leValue, width, limit, lead, true_and]
  omega

theorem bytes_twoBytes_iff {a b : UInt8} {n : Nat} : n < twoBytes.limit ∧ twoBytes.bytes n = [a, b] ↔
    a.toNat / 2 ^ 6 = 2 ∧ n = a.toNat % 2 ^ 6 * 2 ^ 8 + b.toNat := by
  have hb := b.toNat_lt
  rw [bytes_eq_iff]
  simp only [List.length_cons, List.length_nil, List.reverse_cons, List.reverse_nil, List.nil_append, List.cons_append,
    leValue, width, limit, lead, true_and]
  omega

theorem bytes_fourBytes_iff {a b c d : UInt8} {n : Nat} :
    n < fourBytes.limit ∧ fourBytes.bytes n = [a, b, c, d] ↔ a.toNat / 2 ^ 5 = 6 ∧
      n = a.toNat % 2 ^ 5 * 2 ^ 24 + (b.toNat * 2 ^ 16 + (c.toNat * 2 ^ 8 + d.toNat)) := by
  have hb := b.toNat_lt
  have hc := c.toNat_lt
  have hd := d.toNat_lt
  rw [bytes_eq_iff]
  simp only [List.length_cons, List.length_nil, List.reverse_cons, List.reverse_nil, List.nil_append, List.cons_append,
    leValue, width, limit, lead, true_and]
  omega

end NumberForm

open NumberForm

theorem readCompressed?_bytes {form : NumberForm} {n : Nat} (h : n < form.limit) (rest : List UInt8) :
    readCompressed? (form.bytes n ++ rest) = some (.ofNat n, rest) := by
  have hlength := form.length_bytes n
  cases form with
  | oneByte =>
    obtain ⟨a, hbytes⟩ := List.length_eq_one_iff.mp hlength
    obtain ⟨ha, hn⟩ := bytes_oneByte_iff.mp ⟨h, hbytes⟩
    have hone : (a &&& 0x80 == 0) = true := beq_iff_eq.mpr ((marked_oneByte_iff a).mpr ha)
    rw [hbytes, hn, ← UInt8.toNat_toUInt32, UInt32.ofNat_toNat]
    exact if_pos hone
  | twoBytes =>
    obtain ⟨a, b, hbytes⟩ := List.length_eq_two.mp hlength
    obtain ⟨ha, hn⟩ := bytes_twoBytes_iff.mp ⟨h, hbytes⟩
    have hone : ¬(a &&& 0x80 == 0) = true := by
      rw [beq_iff_eq, marked_oneByte_iff]
      omega
    have htwo : (a &&& 0xC0 == 0x80) = true := beq_iff_eq.mpr ((marked_twoBytes_iff a).mpr ha)
    rw [hbytes, hn, ← toNat_twoBytes, UInt32.ofNat_toNat]
    exact (if_neg hone).trans (if_pos htwo)
  | fourBytes =>
    obtain ⟨a, b, c, d, hbytes⟩ := List.length_eq_four.mp hlength
    obtain ⟨ha, hn⟩ := bytes_fourBytes_iff.mp ⟨h, hbytes⟩
    have hone : ¬(a &&& 0x80 == 0) = true := by
      rw [beq_iff_eq, marked_oneByte_iff]
      omega
    have htwo : ¬(a &&& 0xC0 == 0x80) = true := by
      rw [beq_iff_eq, marked_twoBytes_iff]
      omega
    have hfour : (a &&& 0xE0 == 0xC0) = true := beq_iff_eq.mpr ((marked_fourBytes_iff a).mpr ha)
    rw [hbytes, hn, ← toNat_fourBytes, UInt32.ofNat_toNat]
    exact (if_neg hone).trans ((if_neg htwo).trans (if_pos hfour))

theorem exists_form {bs rest : List UInt8} {n : UInt32} (h : readCompressed? bs = some (n, rest)) :
    ∃ form : NumberForm, n.toNat < form.limit ∧ bs = form.bytes n.toNat ++ rest := by
  unfold readCompressed? at h
  split at h
  next => cases h
  next a tail =>
    split at h
    next hone =>
      cases h
      have ha := (marked_oneByte_iff a).mp (eq_of_beq hone)
      obtain ⟨hn, hbytes⟩ := bytes_oneByte_iff.mpr ⟨ha, rfl⟩
      exact ⟨oneByte, hn, by rw [UInt8.toNat_toUInt32, hbytes]; rfl⟩
    next =>
      split at h
      next htwo =>
        have ha := (marked_twoBytes_iff a).mp (eq_of_beq htwo)
        split at h
        next b tail =>
          cases h
          obtain ⟨hn, hbytes⟩ := bytes_twoBytes_iff.mpr ⟨ha, toNat_twoBytes a b⟩
          exact ⟨twoBytes, hn, by rw [hbytes]; rfl⟩
        next => cases h
      next =>
        split at h
        next hfour =>
          have ha := (marked_fourBytes_iff a).mp (eq_of_beq hfour)
          split at h
          next b c d tail =>
            cases h
            obtain ⟨hn, hbytes⟩ := bytes_fourBytes_iff.mpr ⟨ha, toNat_fourBytes a b c d⟩
            exact ⟨fourBytes, hn, by rw [hbytes]; rfl⟩
          next => cases h
        next => cases h

/-- Reading accepts exactly the numbers in a form that is wide enough. -/
theorem readCompressed?_eq_some_iff {bs rest : List UInt8} {n : UInt32} : readCompressed? bs = some (n, rest) ↔
    ∃ form : NumberForm, n.toNat < form.limit ∧ bs = form.bytes n.toNat ++ rest := by
  refine ⟨exists_form, ?_⟩
  rintro ⟨form, hn, rfl⟩
  rw [readCompressed?_bytes hn, UInt32.ofNat_toNat]

end CodeAtlas.Database
