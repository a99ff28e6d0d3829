import CodeAtlas.Text.Utf8
import CodeAtlas.Proofs.Bytes.Encoding
import Mathlib.Tactic.SplitIfs

namespace CodeAtlas.Text.Utf8

variable {a : UInt8} {bs r t : Text} {n : Nat}

/-- The last `k` groups of six bits of a number, the most significant group first. -/
def tailBytes : Nat → Nat → List UInt8
  | 0, _ => []
  | k + 1, n => tailBytes k (n / 64) ++ [.ofNat (0b10 * 64 + n % 64)]

/-- The forms in which a code point is written. -/
inductive Form
  | oneByte
  | twoBytes
  | threeBytes
  | fourBytes
deriving Repr, DecidableEq

namespace Form

def tails : Form → Nat
  | oneByte => 0
  | twoBytes => 1
  | threeBytes => 2
  | fourBytes => 3

/-- The bits that the leading byte has for the code point. -/
def bits : Form → Nat
  | oneByte => 7
  | twoBytes => 5
  | threeBytes => 4
  | fourBytes => 3

/-- The bits at the front that tell the form. -/
def mark : Form → Nat
  | oneByte => 0
  | twoBytes => 0b110
  | threeBytes => 0b1110
  | fourBytes => 0b11110

/-- A lesser code point has a shorter form. -/
def least : Form → Nat
  | oneByte => 0
  | twoBytes => 0x80
  | threeBytes => 0x800
  | fourBytes => 0x10000

def limit (f : Form) : Nat := 2 ^ f.bits * 64 ^ f.tails

def bytes (n : Nat) (f : Form) : List UInt8 := .ofNat (f.mark * 2 ^ f.bits + n / 64 ^ f.tails) :: tailBytes f.tails n

def Leads (f : Form) (a : UInt8) : Prop := a.toNat / 2 ^ f.bits = f.mark

/-- The bits of a leading byte that belong to the code point. -/
def payload (f : Form) (a : UInt8) : UInt8 := a &&& .ofNat (2 ^ f.bits - 1)

end Form

theorem isTail_iff (b : UInt8) : isTail b = true ↔ b.toNat / 64 = 0b10 := by
  rw [isTail, beq_iff_eq]
  exact marked_iff b 6 2 (by decide) (by decide)

theorem point_append (lead : UInt8) (bs : List UInt8) (b : UInt8) :
    point lead (bs ++ [b]) = point lead bs * 64 + b.toNat % 64 := by
  have hlow : (b &&& 0x3F).toNat = b.toNat % 64 := toNat_low b 6 (by decide)
  rw [point, List.foldl_append, ← point, List.foldl_cons, List.foldl_nil, hlow]

/-- A number is told by the groups of its bits: the last ones in the tail bytes, all before them in the leading
byte. -/
theorem eq_tailBytes_iff (lead : UInt8) {k : Nat} : bs = tailBytes k n ∧ lead.toNat = n / 64 ^ k ↔
    bs.length = k ∧ bs.all isTail = true ∧ point lead bs = n := by
  induction k generalizing bs n with
  | zero =>
    rw [tailBytes, List.length_eq_zero_iff, Nat.pow_zero, Nat.div_one]
    constructor
    · rintro ⟨rfl, h⟩
      exact ⟨rfl, rfl, h⟩
    · rintro ⟨rfl, -, h⟩
      exact ⟨rfl, h⟩
  | succ k ih =>
    rcases List.eq_nil_or_concat bs with rfl | ⟨bs, b, rfl⟩
    · simp [tailBytes]
    · have hb : b = .ofNat (0b10 * 64 + n % 64) ↔ b.toNat / 64 = 0b10 ∧ b.toNat % 64 = n % 64 := by
        rw [← UInt8.toNat_inj, UInt8.toNat_ofNat']
        omega
      have hn : point lead bs * 64 + b.toNat % 64 = n ↔ point lead bs = n / 64 ∧ b.toNat % 64 = n % 64 := by omega
      have hdiv : n / 64 ^ (k + 1) = n / 64 / 64 ^ k := by rw [Nat.pow_succ', Nat.div_div_eq_div_mul]
      rw [List.concat_eq_append, tailBytes, List.append_singleton_inj, hb, hdiv, List.length_append,
        List.length_singleton, Nat.add_left_inj, List.all_append, Bool.and_eq_true, List.all_cons, List.all_nil,
        Bool.and_true, isTail_iff, point_append, hn]
      constructor
      · rintro ⟨⟨htails, hmark, hlow⟩, hlead⟩
        obtain ⟨hlength, hall, hpoint⟩ := ih.mp ⟨htails, hlead⟩
        exact ⟨hlength, ⟨hall, hmark⟩, hpoint, hlow⟩
      · rintro ⟨hlength, ⟨hall, hmark⟩, hpoint, hlow⟩
        obtain ⟨htails, hlead⟩ := ih.mpr ⟨hlength, hall, hpoint⟩
        exact ⟨⟨htails, hmark, hlow⟩, hlead⟩

namespace Form

theorem bits_le (f : Form) : f.bits ≤ 8 := by cases f <;> decide

theorem toNat_payload (f : Form) (a : UInt8) : (f.payload a).toNat = a.toNat % 2 ^ f.bits :=
  toNat_low a f.bits f.bits_le

/-- Below the limit the bits at the front of the leading byte are the mark of the form. -/
theorem leading_iff (f : Form) : f.Leads a ∧ (f.payload a).toNat = n / 64 ^ f.tails ↔
    n < f.limit ∧ a = .ofNat (f.mark * 2 ^ f.bits + n / 64 ^ f.tails) := by
  have ha := a.toNat_lt
  rw [toNat_payload, Leads, ← UInt8.toNat_inj, UInt8.toNat_ofNat']
  cases f <;> simp only [limit, bits, mark, tails] <;> omega

theorem cons_eq_bytes_iff (f : Form) : n < f.limit ∧ a :: bs = f.bytes n ↔
    f.Leads a ∧ bs.length = f.tails ∧ bs.all isTail = true ∧ point (f.payload a) bs = n := by
  rw [bytes, List.cons.injEq, ← and_assoc, ← leading_iff, ← eq_tailBytes_iff]
  constructor
  · rintro ⟨⟨hmark, hpoint⟩, htails⟩
    exact ⟨hmark, htails, hpoint⟩
  · rintro ⟨hmark, htails, hpoint⟩
    exact ⟨⟨hmark, hpoint⟩, htails⟩

theorem Leads.unique {f g : Form} (hf : f.Leads a) (hg : g.Leads a) : f = g := by
  rw [Leads] at hf hg
  cases f <;> cases g <;> simp only [bits, mark, reduceCtorEq] at hf hg ⊢ <;> omega

theorem leads_oneByte_iff : oneByte.Leads a ↔ a < 0x80 := by
  rw [UInt8.lt_iff_toNat_lt]
  show a.toNat / 2 ^ 7 = 0 ↔ a.toNat < 128
  omega

theorem leads_twoBytes_iff : twoBytes.Leads a ↔ (a &&& 0xE0 == 0xC0) = true := by
  rw [beq_iff_eq]
  exact (marked_iff a 5 0b110 (by decide) (by decide)).symm

theorem leads_threeBytes_iff : threeBytes.Leads a ↔ (a &&& 0xF0 == 0xE0) = true := by
  rw [beq_iff_eq]
  exact (marked_iff a 4 0b1110 (by decide) (by decide)).symm

theorem leads_fourBytes_iff : fourBytes.Leads a ↔ (a &&& 0xF8 == 0xF0) = true := by
  rw [beq_iff_eq]
  exact (marked_iff a 3 0b11110 (by decide) (by decide)).symm

theorem exists_leads_of_isValid (h : isValid (a :: r) = true) : ∃ f : Form, f.Leads a := by
  unfold isValid at h
  split_ifs at h with hone htwo hthree hfour
  · exact ⟨_, leads_oneByte_iff.mpr hone⟩
  · exact ⟨_, leads_twoBytes_iff.mpr htwo⟩
  · exact ⟨_, leads_threeBytes_iff.mpr hthree⟩
  · exact ⟨_, leads_fourBytes_iff.mpr hfour⟩

theorem isSequence_oneByte (a : UInt8) : isSequence (oneByte.payload a) [] oneByte.least = true := by
  have hpoint : point (oneByte.payload a) [] < 2 ^ 7 := by
    show (oneByte.payload a).toNat < 2 ^ 7
    rw [toNat_payload]
    exact Nat.mod_lt _ (Nat.two_pow_pos 7)
  have hscalar : point (oneByte.payload a) [] < 0xD800 := by omega
  simp [isSequence, isScalar, hscalar, least]

theorem isValid_cons (f : Form) (h : f.Leads a) : isValid (a :: r) = (decide (f.tails ≤ r.length) &&
    isSequence (f.payload a) (r.take f.tails) f.least && isValid (r.drop f.tails)) := by
  -- The tests before that of the form fail, since no byte leads two forms.
  have hone (hf : oneByte ≠ f) : ¬a < 0x80 := fun hlead => hf ((leads_oneByte_iff.mpr hlead).unique h)
  have htwo (hf : twoBytes ≠ f) : ¬(a &&& 0xE0 == 0xC0) = true := fun hlead =>
    hf ((leads_twoBytes_iff.mpr hlead).unique h)
  have hthree (hf : threeBytes ≠ f) : ¬(a &&& 0xF0 == 0xE0) = true := fun hlead =>
    hf ((leads_threeBytes_iff.mpr hlead).unique h)
  rw [isValid.eq_def (a :: r)]
  dsimp only
  cases f with
  | oneByte =>
    rw [if_pos (leads_oneByte_iff.mp h), tails, List.take_zero, isSequence_oneByte]
    simp
  | twoBytes =>
    rw [if_neg (hone (by decide)), if_pos (leads_twoBytes_iff.mp h)]
    rcases r with _ | ⟨b, r⟩
    · rfl
    · simp [tails, least, payload, bits]
  | threeBytes =>
    rw [if_neg (hone (by decide)), if_neg (htwo (by decide)), if_pos (leads_threeBytes_iff.mp h)]
    rcases r with _ | ⟨b, _ | ⟨c, r⟩⟩
    · rfl
    · rfl
    · simp [tails, least, payload, bits]
  | fourBytes =>
    rw [if_neg (hone (by decide)), if_neg (htwo (by decide)), if_neg (hthree (by decide)),
      if_pos (leads_fourBytes_iff.mp h)]
    rcases r with _ | ⟨b, _ | ⟨c, _ | ⟨d, r⟩⟩⟩
    · rfl
    · rfl
    · rfl
    · simp [tails, least, payload, bits]

/-- The shortest form that has room for a number. -/
structure Fits (f : Form) (n : Nat) : Prop where
  least : f.least ≤ n
  lt : n < f.limit

theorem isSequence_iff (f : Form) : f.Leads a ∧ bs.length = f.tails ∧ isSequence (f.payload a) bs f.least = true ↔
    ∃ n, f.Fits n ∧ isScalar n = true ∧ a :: bs = f.bytes n := by
  rw [isSequence, Bool.and_eq_true, Bool.and_eq_true, decide_eq_true_eq]
  constructor
  · rintro ⟨hlead, hlength, ⟨hall, hleast⟩, hscalar⟩
    obtain ⟨hlt, hbytes⟩ := f.cons_eq_bytes_iff.mpr ⟨hlead, hlength, hall, rfl⟩
    exact ⟨_, ⟨hleast, hlt⟩, hscalar, hbytes⟩
  · rintro ⟨n, hfits, hscalar, hbytes⟩
    obtain ⟨hlead, hlength, hall, rfl⟩ := f.cons_eq_bytes_iff.mp ⟨hfits.lt, hbytes⟩
    exact ⟨hlead, hlength, ⟨hall, hfits.least⟩, hscalar⟩

theorem isValid_bytes_append {f : Form} (h : f.Fits n) (hscalar : isScalar n = true) (rest : Text) :
    isValid (f.bytes n ++ rest) = isValid rest := by
  obtain ⟨hlead, hlength, hsequence⟩ := f.isSequence_iff.mpr ⟨n, h, hscalar, rfl⟩
  have hlong : f.tails ≤ (tailBytes f.tails n ++ rest).length := by
    rw [List.length_append]
    omega
  rw [bytes, List.cons_append, f.isValid_cons hlead, List.take_left' hlength, List.drop_left' hlength, hsequence,
    decide_eq_true hlong, Bool.and_self, Bool.true_and]

theorem exists_of_isValid (h : isValid (a :: r) = true) : ∃ (f : Form) (n : Nat) (rest : Text),
    f.Fits n ∧ isScalar n = true ∧ a :: r = f.bytes n ++ rest ∧ isValid rest = true := by
  obtain ⟨f, hlead⟩ := exists_leads_of_isValid h
  rw [f.isValid_cons hlead, Bool.and_eq_true, Bool.and_eq_true, decide_eq_true_eq] at h
  obtain ⟨⟨hlong, hsequence⟩, hrest⟩ := h
  obtain ⟨n, hfits, hscalar, hbytes⟩ := f.isSequence_iff.mp ⟨hlead, List.length_take_of_le hlong, hsequence⟩
  refine ⟨f, n, _, hfits, hscalar, ?_, hrest⟩
  rw [← hbytes, List.cons_append, List.take_append_drop]

theorem exists_fits (h : n.isValidChar) : ∃ f : Form, f.Fits n := by
  have hn : n < 0x110000 := by
    rw [Nat.isValidChar] at h
    omega
  rcases Nat.lt_or_ge n 0x80 with hone | hone
  · exact ⟨oneByte, Nat.zero_le n, hone⟩
  rcases Nat.lt_or_ge n 0x800 with htwo | htwo
  · exact ⟨twoBytes, hone, htwo⟩
  rcases Nat.lt_or_ge n 0x10000 with hthree | hthree
  · exact ⟨threeBytes, htwo, hthree⟩
  exact ⟨fourBytes, hthree, Nat.lt_trans hn (by decide)⟩

/-- The library encodes a character in its shortest form. -/
theorem utf8EncodeChar_eq {f : Form} {c : Char} (h : f.Fits c.toNat) : String.utf8EncodeChar c = f.bytes c.toNat := by
  have hleast : f.least ≤ c.val.toNat := h.least
  have hlt : c.val.toNat < f.limit := h.lt
  show String.utf8EncodeChar c = f.bytes c.val.toNat
  rw [String.utf8EncodeChar]
  generalize c.val.toNat = v at hleast hlt
  have htail (m : Nat) : m % 64 + 128 = 0b10 * 64 + m % 64 := Nat.add_comm _ _
  cases f
  all_goals simp only [least, limit, bits, tails] at hleast hlt
  case oneByte =>
    have hlead : 0 * 2 ^ 7 + v / 64 ^ 0 = v := by omega
    rw [if_pos (by omega), bytes, mark, bits, tails, hlead, tailBytes]
  case twoBytes =>
    have hlead : v / 64 % 32 + 192 = 0b110 * 2 ^ 5 + v / 64 ^ 1 := by omega
    rw [if_neg (by omega), if_pos (by omega), hlead, htail]
    rfl
  case threeBytes =>
    have hlead : v / 4096 % 16 + 224 = 0b1110 * 2 ^ 4 + v / 64 ^ 2 := by omega
    rw [if_neg (by omega), if_neg (by omega), if_pos (by omega), hlead, htail, htail]
    rfl
  case fourBytes =>
    have hlead : v / 262144 % 8 + 240 = 0b11110 * 2 ^ 3 + v / 64 ^ 3 := by omega
    have hnext : v / 4096 = v / 64 / 64 := by omega
    rw [if_neg (by omega), if_neg (by omega), if_neg (by omega), hlead, hnext, htail, htail, htail]
    rfl

end Form

theorem isScalar_iff : isScalar n = true ↔ n.isValidChar := by
  rw [isScalar, Bool.or_eq_true, Bool.and_eq_true, decide_eq_true_eq, decide_eq_true_eq, decide_eq_true_eq,
    Nat.isValidChar]
  omega

theorem isValid_encode_append (c : Char) (rest : Text) :
    isValid (String.utf8EncodeChar c ++ rest) = isValid rest := by
  have hscalar : isScalar c.toNat = true := isScalar_iff.mpr c.valid
  obtain ⟨f, hfits⟩ : ∃ f : Form, f.Fits c.toNat := Form.exists_fits c.valid
  rw [Form.utf8EncodeChar_eq hfits, Form.isValid_bytes_append hfits hscalar]

theorem exists_encode_of_isValid (h : isValid (a :: r) = true) :
    ∃ (c : Char) (rest : Text), a :: r = String.utf8EncodeChar c ++ rest ∧ isValid rest = true := by
  obtain ⟨f, n, rest, hfits, hscalar, hbytes, hrest⟩ := Form.exists_of_isValid h
  have hvalid := isScalar_iff.mp hscalar
  have hn : (Char.ofNatAux n hvalid).toNat = n := rfl
  refine ⟨Char.ofNatAux n hvalid, rest, ?_, hrest⟩
  rw [Form.utf8EncodeChar_eq (hn.symm ▸ hfits), hn, hbytes]

/-- A text is valid exactly when it is the encoding of some scalar values, one after the other. -/
theorem isValid_iff_encodes (t : Text) : isValid t = true ↔ ∃ cs : List Char, t = cs.flatMap String.utf8EncodeChar := by
  constructor
  · intro h
    induction hlength : t.length using Nat.strongRecOn generalizing t with
    | ind k ih =>
      cases t with
      | nil => exact ⟨[], rfl⟩
      | cons a r =>
        obtain ⟨c, rest, heq, hrest⟩ := exists_encode_of_isValid h
        have hshort : rest.length < k := by
          have hc : (String.utf8EncodeChar c).length = c.utf8Size := String.length_utf8EncodeChar c
          have hpos := c.utf8Size_pos
          rw [← hlength, heq, List.length_append]
          omega
        obtain ⟨cs, hcs⟩ := ih rest.length hshort rest hrest rfl
        exact ⟨c :: cs, by rw [heq, hcs, List.flatMap_cons]⟩
  · rintro ⟨cs, rfl⟩
    induction cs with
    | nil => rfl
    | cons c cs ih => rw [List.flatMap_cons, isValid_encode_append, ih]

-- A surrogate, and a slash in a form too long for it.
example : isValid [0xED, 0xA0, 0x80] = false ∧ isValid [0xC0, 0xAF] = false := by decide

end CodeAtlas.Text.Utf8
