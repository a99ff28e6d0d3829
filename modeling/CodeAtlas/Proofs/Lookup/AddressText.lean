import CodeAtlas.Lookup.AddressText
import CodeAtlas.Lookup.AnswerText
import CodeAtlas.Proofs.Text.Numeral
import CodeAtlas.Proofs.Text.Pieces

namespace CodeAtlas

open Text HexDigit

namespace Address

def kind : Address → AddressKind
  | relative _ => .relative
  | preferred _ => .preferred
  | fileOffset _ => .fileOffset

def number : Address → Nat
  | relative rva => rva.toNat
  | preferred address => address.toNat
  | fileOffset offset => offset.toNat

end Address

/-- The numbers that can be addresses of a kind are those below its limit. -/
def AddressKind.limit : AddressKind → Nat
  | relative => 2 ^ 32
  | preferred => 2 ^ 64
  | fileOffset => 2 ^ 64

/-- One marker is taken away where there is one. -/
inductive Unmarked : Text → Text → Prop
  | lower (u : Text) : Unmarked ("0x" ++ u) u
  | upper (u : Text) : Unmarked ("0X" ++ u) u
  | bare {u : Text} (noLower : ¬ofString "0x" <+: u) (noUpper : ¬ofString "0X" <+: u) : Unmarked u u

/-- Behind the marker there are digits of a number and nothing else. Zeros in front of it do not count. -/
def WritesNumber (t : Text) (n : Nat) : Prop :=
  ∃ ds : List HexDigit, ds ≠ [] ∧ Unmarked t (ds.map byte) ∧ HexDigit.number ds = n

def ReadsAs (kind : AddressKind) (t : Text) (n : Nat) : Prop :=
  ∃ a, Address.ofText? kind t = some a ∧ a.kind = kind ∧ a.number = n

/-- An address is read from a numeral below the limit of its kind, and from nothing else. Where a reply names a place, it
writes such a numeral. -/
structure ReadsAddresses (kind : AddressKind) : Prop where
  isSome_iff : ∀ t, (Address.ofText? kind t).isSome ↔ ∃ n, WritesNumber t n ∧ n < kind.limit
  value : ∀ t n, WritesNumber t n → n < kind.limit → ReadsAs kind t n
  symbol : ∀ input answer, ∃ rest, (ofString ")\n" <+: rest ∨ ofString ", size " <+: rest) ∧
    replyTo input (some answer) =
      input ++ ": " ++ answer.symbol.name ++ " (" ++ hex0x answer.symbol.start.toNat ++ rest
  elsewhere : ∀ input symbol file address, ∃ front,
    replyTo input (some ⟨symbol, some (.elsewhere file address)⟩) =
      front ++ "  in " ++ file ++ " at " ++ hex0x address.toNat ++ "\n"
  readsBack : ∀ a : UInt32, ReadsAs kind (hex0x a.toNat) a.toNat

variable {kind : AddressKind} {a : Address} {t u : Text} {n : Nat}

theorem ofNumber?_eq_some_iff : Address.ofNumber? kind n = some a ↔ a.kind = kind ∧ a.number = n := by
  have h32 : ∀ x : UInt32, n < UInt32.size ∧ .ofNat n = x ↔ x.toNat = n := fun x => by
    constructor
    · rintro ⟨hlt, rfl⟩
      exact UInt32.toNat_ofNat_of_lt' hlt
    · rintro rfl
      exact ⟨x.toNat_lt_size, UInt32.ofNat_toNat⟩
  have h64 : ∀ x : UInt64, n < UInt64.size ∧ .ofNat n = x ↔ x.toNat = n := fun x => by
    constructor
    · rintro ⟨hlt, rfl⟩
      exact UInt64.toNat_ofNat_of_lt' hlt
    · rintro rfl
      exact ⟨x.toNat_lt_size, UInt64.ofNat_toNat⟩
  cases kind <;> cases a <;>
    simp only [Address.ofNumber?, Option.ite_none_right_eq_some, Option.some_inj, Address.kind, Address.number,
      Address.relative.injEq, Address.preferred.injEq, Address.fileOffset.injEq, reduceCtorEq, and_false, false_and,
      true_and, h32, h64]

theorem number_lt (a : Address) : a.number < a.kind.limit := by
  cases a with
  | relative rva => exact rva.toNat_lt
  | preferred address => exact address.toNat_lt
  | fileOffset offset => exact offset.toNat_lt

/-- Below the limit nothing of a number is lost. -/
theorem exists_of_lt (h : n < kind.limit) : ∃ a : Address, a.kind = kind ∧ a.number = n := by
  cases kind with
  | relative => exact ⟨.relative (.ofNat n), rfl, UInt32.toNat_ofNat_of_lt' h⟩
  | preferred => exact ⟨.preferred (.ofNat n), rfl, UInt64.toNat_ofNat_of_lt' h⟩
  | fileOffset => exact ⟨.fileOffset (.ofNat n), rfl, UInt64.toNat_ofNat_of_lt' h⟩

theorem withoutMarker_eq_iff : Address.withoutMarker t = u ↔ Unmarked t u := by
  constructor
  · rintro rfl
    rw [Address.withoutMarker]
    cases hlower : prefixed? "0x" t with
    | some u =>
      rw [prefixed?_eq_some_iff.mp hlower]
      exact .lower u
    | none =>
      cases hupper : prefixed? "0X" t with
      | some u =>
        rw [prefixed?_eq_some_iff.mp hupper]
        exact .upper u
      | none =>
        refine .bare (mt isSome_prefixed?_iff.mpr ?_) (mt isSome_prefixed?_iff.mpr ?_)
        · rw [hlower]
          exact Bool.false_ne_true
        · rw [hupper]
          exact Bool.false_ne_true
  · intro h
    cases h with
    | lower => rfl
    | upper => rfl
    | bare hlower hupper =>
      have hnone : ∀ {marker : Text}, ¬marker <+: t → prefixed? marker t = none := fun hmarker =>
        Option.not_isSome_iff_eq_none.mp (mt isSome_prefixed?_iff.mp hmarker)
      rw [Address.withoutMarker, hnone hlower, hnone hupper]
      rfl

theorem ofText?_eq_some_iff : Address.ofText? kind t = some a ↔ a.kind = kind ∧ WritesNumber t a.number := by
  rw [Address.ofText?, Option.bind_eq_some_iff]
  simp only [ofNumber?_eq_some_iff, toNat?_eq_some_iff]
  constructor
  · rintro ⟨n, ⟨ds, hne, hdigits, hn⟩, hkind, rfl⟩
    exact ⟨hkind, ds, hne, withoutMarker_eq_iff.mp hdigits.symm, hn⟩
  · rintro ⟨hkind, ds, hne, hunmarked, hn⟩
    exact ⟨a.number, ⟨ds, hne, (withoutMarker_eq_iff.mpr hunmarked).symm, hn⟩, hkind, rfl⟩

theorem readsAs_of_writesNumber (h : WritesNumber t n) (hn : n < kind.limit) : ReadsAs kind t n := by
  obtain ⟨a, hkind, rfl⟩ := exists_of_lt hn
  exact ⟨a, ofText?_eq_some_iff.mpr ⟨hkind, h⟩, hkind, rfl⟩

theorem writesNumber_hex0x (n : Nat) : WritesNumber (hex0x n) n := by
  obtain ⟨ds, hne, htext, hvalue, -⟩ := exists_hexDigits false n
  refine ⟨ds, hne, ?_, hvalue⟩
  rw [htext, hex0x]
  exact .lower _

theorem readsAs_hex0x (kind : AddressKind) (a : UInt32) : ReadsAs kind (hex0x a.toNat) a.toNat := by
  refine readsAs_of_writesNumber (writesNumber_hex0x a.toNat) ?_
  have hlt := a.toNat_lt
  cases kind with
  | relative => exact hlt
  | preferred => exact Nat.lt_trans hlt (by decide)
  | fileOffset => exact Nat.lt_trans hlt (by decide)

theorem readsAddresses (kind : AddressKind) : ReadsAddresses kind where
  isSome_iff t := by
    rw [Option.isSome_iff_exists]
    constructor
    · rintro ⟨a, ha⟩
      obtain ⟨rfl, h⟩ := ofText?_eq_some_iff.mp ha
      exact ⟨a.number, h, number_lt a⟩
    · rintro ⟨n, h, hn⟩
      obtain ⟨a, ha, -⟩ := readsAs_of_writesNumber h hn
      exact ⟨a, ha⟩
  value t n := readsAs_of_writesNumber
  symbol input answer := by
    rw [replyTo, Symbol.toText]
    cases answer.symbol.size with
    | none =>
      refine ⟨")\n" ++ (answer.frames.map Frames.toText).getD [], .inl (List.prefix_append _ _), ?_⟩
      simp only [List.append_assoc, List.nil_append]
    | some size =>
      refine ⟨", size " ++ (hex0x size.toNat ++ (")\n" ++ (answer.frames.map Frames.toText).getD [])),
        .inr (List.prefix_append _ _), ?_⟩
      simp only [List.append_assoc]
  elsewhere input symbol file address := by
    refine ⟨input ++ ": " ++ symbol.toText, ?_⟩
    rw [replyTo, Option.map_some, Option.getD_some, Frames.toText]
    simp only [List.append_assoc]
  readsBack := readsAs_hex0x kind

/-- Leading zeros are no overflow, whatever the length. -/
example : Address.ofText? .relative "0X0000000000000000000fFfFfFfF" = some (.relative 0xffffffff) ∧
    Address.ofText? .relative "100000000" = none := by decide

end CodeAtlas
