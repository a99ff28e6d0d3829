import CodeAtlas.Proofs.Bytes.Slice
import Mathlib.Algebra.Group.Nat.Defs

namespace CodeAtlas

/-- The `width` bytes of a value, the least significant one first. -/
def leBytes : Nat → Nat → List UInt8
  | 0, _ => []
  | width + 1, n => UInt8.ofNat n :: leBytes width (n / 256)

@[simp] theorem length_leBytes (width n : Nat) : (leBytes width n).length = width := by
  induction width generalizing n with
  | zero => rfl
  | succ width ih => rw [leBytes, List.length_cons, ih]

theorem leValue_leBytes (width n : Nat) : leValue (leBytes width n) = n % 256 ^ width := by
  induction width generalizing n with
  | zero => rw [leBytes, leValue, Nat.pow_zero, Nat.mod_one]
  | succ width ih =>
    have hb : (UInt8.ofNat n).toNat = n % 256 := UInt8.toNat_ofNat'
    rw [leBytes, leValue, ih, hb, Nat.pow_succ', Nat.mod_mul]

theorem leValue_leBytes_of_lt {width n : Nat} (h : n < 256 ^ width) : leValue (leBytes width n) = n := by
  rw [leValue_leBytes, Nat.mod_eq_of_lt h]

theorem leValue_lt (bs : List UInt8) : leValue bs < 256 ^ bs.length := by
  induction bs with
  | nil => exact Nat.zero_lt_one
  | cons b bs ih =>
    have hb := b.toNat_lt
    rw [leValue, List.length_cons, Nat.pow_succ']
    omega

/-- Bytes are determined by their value. -/
theorem leBytes_leValue (bs : List UInt8) : leBytes bs.length (leValue bs) = bs := by
  induction bs with
  | nil => rfl
  | cons b bs ih =>
    have hb := b.toNat_lt
    have hdiv : (b.toNat + 256 * leValue bs) / 256 = leValue bs := by omega
    have hlow : UInt8.ofNat (b.toNat + 256 * leValue bs) = b := by
      apply UInt8.toNat_inj.mp
      rw [UInt8.toNat_ofNat']
      omega
    rw [List.length_cons, leValue, leBytes, hdiv, hlow, ih]

theorem exists_word (bs : List UInt8) (h : 4 ≤ bs.length) :
    ∃ (word : UInt32) (after : List UInt8), bs = leBytes 4 word.toNat ++ after := by
  have hlength : (bs.take 4).length = 4 := List.length_take_of_le h
  have hlt := leValue_lt (bs.take 4)
  have hbytes := leBytes_leValue (bs.take 4)
  rw [hlength] at hlt hbytes
  refine ⟨.ofNat (leValue (bs.take 4)), bs.drop 4, ?_⟩
  rw [UInt32.toNat_ofNat_of_lt' hlt, hbytes, List.take_append_drop]

/-- Bytes that fall into pieces of one length are determined by what the pieces encode. -/
theorem exists_flatMap_eq {α : Type} {p : α → Prop} {encode : α → List UInt8} {width n : Nat}
    (h : ∀ piece : List UInt8, piece.length = width → ∃ a, p a ∧ encode a = piece) {bs : List UInt8}
    (hbs : bs.length = n * width) : ∃ as : List α, as.length = n ∧ (∀ a ∈ as, p a) ∧ as.flatMap encode = bs := by
  induction n generalizing bs with
  | zero =>
    rw [Nat.zero_mul] at hbs
    exact ⟨[], rfl, fun a ha => (List.not_mem_nil ha).elim, (List.length_eq_zero_iff.mp hbs).symm⟩
  | succ n ih =>
    rw [Nat.succ_mul] at hbs
    have hpiece : (bs.take width).length = width := by
      rw [List.length_take]
      omega
    have hrest : (bs.drop width).length = n * width := by
      rw [List.length_drop]
      omega
    obtain ⟨a, ha, hencode⟩ := h _ hpiece
    obtain ⟨as, hlength, has, hflat⟩ := ih hrest
    refine ⟨a :: as, congrArg (· + 1) hlength, List.forall_mem_cons.mpr ⟨ha, has⟩, ?_⟩
    rw [List.flatMap_cons, hencode, hflat, List.take_append_drop]

/-- Bytes that make up whole words are determined by the words. -/
theorem exists_words {width n : Nat} {bs : List UInt8} (h : bs.length = n * width) :
    ∃ ns : List Nat, ns.length = n ∧ (∀ m ∈ ns, m < 256 ^ width) ∧ ns.flatMap (leBytes width) = bs := by
  refine exists_flatMap_eq (fun piece hpiece => ?_) h
  have hlt := leValue_lt piece
  have hbytes := leBytes_leValue piece
  rw [hpiece] at hlt hbytes
  exact ⟨leValue piece, hlt, hbytes⟩

theorem exists_flatMap {α : Type} {encode : α → List UInt8} {width n : Nat}
    (h : ∀ piece : List UInt8, piece.length = width → ∃ a, encode a = piece) {bs : List UInt8}
    (hbs : bs.length = n * width) : ∃ as : List α, as.length = n ∧ as.flatMap encode = bs := by
  obtain ⟨as, hlength, -, hflat⟩ := exists_flatMap_eq (p := fun _ : α => True)
    (fun piece hpiece => (h piece hpiece).imp fun a ha => ⟨trivial, ha⟩) hbs
  exact ⟨as, hlength, hflat⟩

/-- The words may have a type of their own. -/
theorem exists_words_of_toNat {W : Type} {toNat : W → Nat} {ofNat : Nat → W} {width n : Nat} {bs : List UInt8}
    (hword : ∀ m, m < 256 ^ width → toNat (ofNat m) = m) (h : bs.length = n * width) :
    ∃ ws : List W, ws.length = n ∧ ws.flatMap (fun w => leBytes width (toNat w)) = bs := by
  refine exists_flatMap (fun piece hpiece => ⟨ofNat (leValue piece), ?_⟩) h
  have hlt := leValue_lt piece
  have hbytes := leBytes_leValue piece
  rw [hpiece] at hlt hbytes
  rw [hword _ hlt, hbytes]

theorem exists_words16 {n : Nat} {bs : List UInt8} (h : bs.length = n * 2) :
    ∃ ws : List UInt16, ws.length = n ∧ ws.flatMap (fun w => leBytes 2 w.toNat) = bs :=
  exists_words_of_toNat (fun _ hm => UInt16.toNat_ofNat_of_lt' hm) h

theorem exists_words32 {n : Nat} {bs : List UInt8} (h : bs.length = n * 4) :
    ∃ ws : List UInt32, ws.length = n ∧ ws.flatMap (fun w => leBytes 4 w.toNat) = bs :=
  exists_words_of_toNat (fun _ hm => UInt32.toNat_ofNat_of_lt' hm) h

/-- Any bytes are whole pieces and what is too short for another one. -/
theorem exists_flatMap_append {α : Type} {encode : α → List UInt8} {width : Nat} (hwidth : 0 < width)
    (h : ∀ piece : List UInt8, piece.length = width → ∃ a, encode a = piece) (bs : List UInt8) :
    ∃ (as : List α) (rest : List UInt8), rest.length < width ∧ as.flatMap encode ++ rest = bs := by
  have hwhole : (bs.take (bs.length / width * width)).length = bs.length / width * width :=
    List.length_take_of_le (Nat.div_mul_le_self _ _)
  obtain ⟨as, -, has⟩ := exists_flatMap h hwhole
  refine ⟨as, bs.drop (bs.length / width * width), ?_, by rw [has, List.take_append_drop]⟩
  have hmod := Nat.mod_lt bs.length hwidth
  have hdiv := Nat.div_add_mod' bs.length width
  rw [List.length_drop]
  omega

theorem length_flatMap_of_length {α : Type} {encode : α → List UInt8} {width : Nat}
    (h : ∀ a, (encode a).length = width) (as : List α) : (as.flatMap encode).length = as.length * width := by
  induction as with
  | nil => rw [List.flatMap_nil, List.length_nil, List.length_nil, Nat.zero_mul]
  | cons a as ih =>
    rw [List.flatMap_cons, List.length_append, ih, h, List.length_cons, Nat.succ_mul]
    omega

theorem length_flatMap_leBytes (width : Nat) (ns : List Nat) :
    (ns.flatMap (leBytes width)).length = ns.length * width := length_flatMap_of_length (length_leBytes width) ns

theorem Bytes.valueAt?_of_slice? {data : Bytes} {start width n : Nat} (hn : n < 256 ^ width)
    (h : data.slice? start width = some (leBytes width n).toArray) : data.valueAt? start width = some n := by
  rw [Bytes.valueAt?, h, Option.map_some, leValue_leBytes_of_lt hn]

theorem slice?_flatMap_leBytes (width : Nat) {i n : Nat} {ns : List Nat} (h : ns[i]? = some n) :
    Bytes.slice? (ns.flatMap (leBytes width)).toArray (i * width) width = some (leBytes width n).toArray := by
  obtain ⟨hi, hn⟩ := List.getElem?_eq_some_iff.mp h
  have hsplit : ns = ns.take i ++ (n :: ns.drop (i + 1)) := by
    rw [← hn, ← List.drop_eq_getElem_cons hi, List.take_append_drop]
  have hslice := Bytes.slice?_toArray_append ((ns.take i).flatMap (leBytes width)) (leBytes width n)
    ((ns.drop (i + 1)).flatMap (leBytes width))
  rw [length_flatMap_leBytes, List.length_take_of_le (Nat.le_of_lt hi), length_leBytes, List.append_assoc,
    ← List.flatMap_cons, ← List.flatMap_append, ← hsplit] at hslice
  exact hslice

theorem toNat_low (a : UInt8) (k : Nat) (hk : k ≤ 8) : (a &&& .ofNat (2 ^ k - 1)).toNat = a.toNat % 2 ^ k := by
  have hpow : 2 ^ k ≤ 2 ^ 8 := Nat.pow_le_pow_right (by decide) hk
  have hlow : (UInt8.ofNat (2 ^ k - 1)).toNat = 2 ^ k - 1 := by
    rw [UInt8.toNat_ofNat']
    omega
  rw [UInt8.toNat_and, hlow, Nat.and_two_pow_sub_one_eq_mod]

theorem toNat_high (a : UInt8) (k : Nat) (hk : k ≤ 8) :
    (a &&& .ofNat (2 ^ 8 - 2 ^ k)).toNat = a.toNat / 2 ^ k * 2 ^ k := by
  have h : ∀ (k : Fin 9) (v : Fin 256),
      (UInt8.ofFin v &&& .ofNat (2 ^ 8 - 2 ^ k.val)).toNat = v.val / 2 ^ k.val * 2 ^ k.val := by decide +kernel
  exact h ⟨k, Nat.lt_succ_of_le hk⟩ a.toFin

/-- The bits at the front of a byte mark what the bits behind them are for. -/
theorem marked_iff (a : UInt8) (k m : Nat) (hk : k ≤ 8) (hm : m * 2 ^ k < 2 ^ 8) :
    a &&& .ofNat (2 ^ 8 - 2 ^ k) = .ofNat (m * 2 ^ k) ↔ a.toNat / 2 ^ k = m := by
  rw [← UInt8.toNat_inj, toNat_high a k hk, UInt8.toNat_ofNat', Nat.mod_eq_of_lt hm]
  exact Nat.mul_left_inj (Nat.ne_of_gt (Nat.two_pow_pos k))

end CodeAtlas
