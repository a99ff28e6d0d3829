import CodeAtlas.Text.Numeral
import Mathlib.Data.List.Induction
import Mathlib.Data.Nat.Digits.Defs

namespace CodeAtlas.Text

/-- A hexadecimal digit as it is written, in either case. -/
structure HexDigit where
  value : Fin 16
  isUpper : Bool

namespace HexDigit

def byte (d : HexDigit) : UInt8 := if d.isUpper then upperByte (lowerDigit d.value) else lowerDigit d.value

theorem digitValue?_byte (d : HexDigit) : digitValue? 16 d.byte = some d.value.val := by
  have h : ∀ (v : Fin 16) (u : Bool), digitValue? 16 (byte ⟨v, u⟩) = some v.val := by decide +kernel
  exact h d.value d.isUpper

theorem exists_of_digitValue? {b : UInt8} {n : Nat} (h : digitValue? 16 b = some n) :
    ∃ d : HexDigit, d.byte = b ∧ d.value.val = n := by
  have hall : ∀ b : Fin 256, (digitValue? 16 (.ofFin b)).all fun n =>
      ∃ (v : Fin 16) (u : Bool), byte ⟨v, u⟩ = .ofFin b ∧ v.val = n := by decide +kernel
  have hb := hall b.toFin
  rw [UInt8.ofFin_toFin, h, Option.all_some, decide_eq_true_eq] at hb
  obtain ⟨v, u, hbyte, hvalue⟩ := hb
  exact ⟨⟨v, u⟩, hbyte, hvalue⟩

theorem byte_ne_dash (d : HexDigit) : d.byte ≠ code '-' := by
  have h : ∀ (v : Fin 16) (u : Bool), byte ⟨v, u⟩ ≠ code '-' := by decide +kernel
  exact h d.value d.isUpper

/-- What the digits mean as a number. -/
def number (ds : List HexDigit) : Nat := Nat.ofDigits 16 (ds.map (·.value.val)).reverse

end HexDigit

/-- Digits of a base, as they are written and with their values. -/
structure AreDigits {δ : Type} (base : Nat) (written : δ → UInt8) (value : δ → Nat) : Prop where
  read : ∀ d, digitValue? base (written d) = some (value d)
  exists_digit : ∀ b n, digitValue? base b = some n → ∃ d, written d = b

namespace AreDigits

variable {δ : Type} {base : Nat} {written : δ → UInt8} {value : δ → Nat}

theorem readDigits?_map (h : AreDigits base written value) (n : Nat) (ds : List δ) :
    readDigits? base n (ds.map written) = some (ds.foldl (fun n d => n * base + value d) n) := by
  induction ds generalizing n with
  | nil => rfl
  | cons d ds ih =>
    rw [List.map_cons, readDigits?, h.read]
    exact ih _

theorem exists_of_readDigits? (h : AreDigits base written value) {n m : Nat} {t : Text}
    (ht : readDigits? base n t = some m) : ∃ ds : List δ, ds.map written = t := by
  induction t generalizing n with
  | nil => exact ⟨[], rfl⟩
  | cons b t ih =>
    rw [readDigits?] at ht
    split at ht
    next v hv =>
      obtain ⟨d, hd⟩ := h.exists_digit b v hv
      obtain ⟨ds, hds⟩ := ih ht
      exact ⟨d :: ds, by rw [List.map_cons, hd, hds]⟩
    next => cases ht

/-- Bytes that have a value are written digits. -/
theorem forall_isSome_iff (h : AreDigits base written value) {t : Text} :
    (∀ b ∈ t, (digitValue? base b).isSome) ↔ ∃ ds : List δ, ds.map written = t := by
  constructor
  · intro ht
    induction t with
    | nil => exact ⟨[], rfl⟩
    | cons b t ih =>
      obtain ⟨n, hn⟩ := Option.isSome_iff_exists.mp (ht b List.mem_cons_self)
      obtain ⟨d, rfl⟩ := h.exists_digit b n hn
      obtain ⟨ds, rfl⟩ := ih fun c hc => ht c (List.mem_cons_of_mem _ hc)
      exact ⟨d :: ds, rfl⟩
  · rintro ⟨ds, rfl⟩ b hb
    obtain ⟨d, -, rfl⟩ := List.mem_map.mp hb
    rw [h.read]
    rfl

theorem foldl_eq_ofDigits (value : δ → Nat) (ds : List δ) :
    ds.foldl (fun n d => n * base + value d) 0 = Nat.ofDigits base (ds.map value).reverse := by
  induction ds using List.reverseRecOn with
  | nil => rfl
  | append_singleton ds d ih =>
    rw [List.foldl_append, ih]
    simp only [List.foldl_cons, List.foldl_nil, List.map_append, List.map_cons, List.map_nil, List.reverse_append,
      List.reverse_cons, List.reverse_nil, List.nil_append, List.cons_append, Nat.ofDigits_cons]
    rw [Nat.mul_comm, Nat.add_comm]

/-- A numeral is read as the number that its digits mean. -/
theorem toNat?_eq_some_iff (h : AreDigits base written value) {t : Text} {n : Nat} : toNat? base t = some n ↔
    ∃ ds : List δ, ds ≠ [] ∧ ds.map written = t ∧ Nat.ofDigits base (ds.map value).reverse = n := by
  rw [toNat?]
  constructor
  · intro ht
    split_ifs at ht with hne
    obtain ⟨ds, rfl⟩ := h.exists_of_readDigits? ht
    rw [h.readDigits?_map, foldl_eq_ofDigits] at ht
    exact ⟨ds, fun he => hne (by rw [he, List.map_nil]), rfl, Option.some.inj ht⟩
  · rintro ⟨ds, hne, rfl, rfl⟩
    rw [if_neg (mt List.map_eq_nil_iff.mp hne), h.readDigits?_map, foldl_eq_ofDigits]

end AreDigits

open HexDigit

theorem areDigits_hexDigit : AreDigits 16 HexDigit.byte (·.value.val) where
  read := digitValue?_byte
  exists_digit _ _ h := (exists_of_digitValue? h).imp fun _ hd => hd.1

/-- A hexadecimal numeral is read as the number that its digits mean. -/
theorem toNat?_eq_some_iff {t : Text} {n : Nat} :
    toNat? 16 t = some n ↔ ∃ ds : List HexDigit, ds ≠ [] ∧ ds.map byte = t ∧ number ds = n :=
  areDigits_hexDigit.toNat?_eq_some_iff

theorem areDigits_decimal : AreDigits 10 (fun d : Fin 10 => lowerDigit d.val) Fin.val where
  read := by decide +kernel
  exists_digit b n h := by
    have hall : ∀ b : Fin 256, (digitValue? 10 (.ofFin b)).isSome → ∃ d : Fin 10, lowerDigit d.val = .ofFin b := by
      decide +kernel
    exact hall b.toFin (Option.isSome_of_mem h)

/-- Numerals to the base sixteen are those of the library, with letters in lower case. -/
theorem hex_eq_toDigits (n : Nat) : hex n = (Nat.toDigits 16 n).map code := by
  have hdigit : ∀ d : Fin 16, lowerDigit d.val = code (Nat.digitChar d.val) := by decide
  induction n using Nat.strongRecOn with
  | ind n ih =>
    by_cases hn : n < 16
    · rw [hex, numeral, dif_pos (Or.inr hn), Nat.toDigits_of_lt_base hn, List.map_singleton, hdigit ⟨n, hn⟩]
    · have hlast : n % 16 < 16 := Nat.mod_lt _ (by omega)
      have hrest := ih (n / 16) (by omega)
      rw [hex] at hrest
      rw [hex, numeral, dif_neg (by omega), hrest, Nat.toDigits_of_base_le (by omega) (Nat.le_of_not_lt hn),
        List.map_append, List.map_singleton, hdigit ⟨n % 16, hlast⟩]

/-- The shortest numeral of a number below a power of sixteen has at most so many digits. -/
theorem exists_hex (n : Nat) : ∃ vs : List (Fin 16), vs ≠ [] ∧ hex n = vs.map (lowerDigit ·.val) ∧
    Nat.ofDigits 16 (vs.map Fin.val).reverse = n ∧ ∀ k, 0 < k → n < 16 ^ k → vs.length ≤ k := by
  induction n using Nat.strongRecOn with
  | ind n ih =>
    by_cases hn : n < 16
    · refine ⟨[⟨n, hn⟩], List.cons_ne_nil _ _, ?_, by simp, fun k hk _ => hk⟩
      rw [hex, numeral, dif_pos (Or.inr hn), List.map_cons, List.map_nil]
    · obtain ⟨vs, hne, htext, hvalue, hlength⟩ := ih (n / 16) (by omega)
      have hlast : n % 16 < 16 := Nat.mod_lt _ (by omega)
      refine ⟨vs ++ [⟨n % 16, hlast⟩], by simp, ?_, ?_, fun k hk hlt => ?_⟩
      · rw [hex] at htext
        rw [hex, numeral, dif_neg (by omega), htext, List.map_append, List.map_cons, List.map_nil]
      · rw [List.map_append, List.reverse_append, List.map_cons, List.map_nil, List.reverse_singleton,
          List.singleton_append, Nat.ofDigits_cons, hvalue]
        show n % 16 + 16 * (n / 16) = n
        omega
      · obtain ⟨k, rfl⟩ : ∃ j, k = j + 1 := ⟨k - 1, by omega⟩
        have hk : 0 < k := by
          by_contra h0
          obtain rfl : k = 0 := by omega
          simp only [Nat.zero_add, Nat.pow_one] at hlt
          omega
        have hdiv := hlength k hk (by rw [Nat.pow_succ] at hlt; omega)
        rw [List.length_append, List.length_singleton]
        omega

/-- The shortest numeral in digits of either case. -/
theorem exists_hexDigits (isUpper : Bool) (n : Nat) : ∃ ds : List HexDigit, ds ≠ [] ∧
    ds.map byte = (if isUpper then upper (hex n) else hex n) ∧ number ds = n ∧
      ∀ k, 0 < k → n < 16 ^ k → ds.length ≤ k := by
  obtain ⟨vs, hne, htext, hvalue, hlength⟩ := exists_hex n
  refine ⟨vs.map fun v => ⟨v, isUpper⟩, mt List.map_eq_nil_iff.mp hne, ?_, ?_, fun k hk hlt => ?_⟩
  · rw [List.map_map, htext]
    cases isUpper with
    | false => rfl
    | true =>
      rw [if_pos rfl, upper, List.map_map]
      rfl
  · rw [number, List.map_map]
    exact hvalue
  · rw [List.length_map]
    exact hlength k hk hlt

end CodeAtlas.Text
