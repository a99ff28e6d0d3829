import CodeAtlas.Text.Fields

namespace CodeAtlas.Text

variable {b : UInt8} {s t x y sep : Text}

theorem isSome_prefixed?_iff : (prefixed? s t).isSome ↔ s <+: t := by
  simp only [Option.isSome_iff_exists, prefixed?_eq_some_iff, List.IsPrefix, eq_comm (a := t)]

theorem startsWith_iff : startsWith s t = true ↔ s <+: t := isSome_prefixed?_iff

/-- The delimiter stands behind a text for the first time. -/
def FirstBehind (sep x : Text) : Prop := ∀ front, front ++ sep <+: x ++ sep → front = x

theorem firstBehind_nil (sep : Text) : FirstBehind sep [] := by
  intro front h
  have hlength := h.length_le
  simp only [List.length_append, List.length_nil] at hlength
  exact List.length_eq_zero_iff.mp (by omega)

theorem firstBehind_cons : FirstBehind sep (b :: x) ↔ ¬sep <+: b :: (x ++ sep) ∧ FirstBehind sep x := by
  constructor
  · intro h
    refine ⟨fun hsep => ?_, fun front hfront => ?_⟩
    · cases h [] hsep
    · cases h (b :: front) (List.cons_prefix_cons.mpr ⟨rfl, hfront⟩)
      rfl
  · rintro ⟨hsep, h⟩ front hfront
    cases front with
    | nil => exact absurd hfront hsep
    | cons a front =>
      obtain ⟨rfl, htail⟩ := List.cons_prefix_cons.mp hfront
      rw [h front htail]

theorem firstBehind_singleton_iff : FirstBehind [b] x ↔ b ∉ x := by
  induction x with
  | nil => exact iff_of_true (firstBehind_nil [b]) List.not_mem_nil
  | cons a x ih => simp [firstBehind_cons, List.cons_prefix_cons, ih]

/-- Where a delimiter ends with a byte that stands nowhere before, it stands there for the first time. -/
theorem firstBehind_concat (hs : b ∉ s) (hx : b ∉ x) : FirstBehind (s ++ [b]) x := by
  intro front h
  have hlength := h.length_le
  simp only [List.length_append, List.length_singleton] at hlength
  rcases Nat.lt_or_eq_of_le (show front.length ≤ x.length by omega) with hshort | heq
  · rw [← List.append_assoc x] at h
    have hinside : front ++ (s ++ [b]) <+: x ++ s := by
      refine List.prefix_of_prefix_length_le h (List.prefix_append _ [b]) ?_
      simp only [List.length_append, List.length_singleton]
      omega
    have hmem : b ∈ x ++ s := hinside.subset (by simp)
    exact absurd hmem (by simp [hs, hx])
  · obtain ⟨rest, hrest⟩ := h
    rw [List.append_assoc] at hrest
    exact (List.append_inj hrest heq).1

/-- Nothing but the whole of the delimiter is both its start and its end. -/
def Borderless (sep : Text) : Prop := ∀ t, t ≠ [] → t <+: sep → t <:+ sep → t = sep

theorem borderless_cons (h : b ∉ s) : Borderless (b :: s) := by
  intro t hne hprefix hsuffix
  cases t with
  | nil => exact absurd rfl hne
  | cons a t =>
    obtain ⟨rfl, -⟩ := List.cons_prefix_cons.mp hprefix
    rcases List.suffix_cons_iff.mp hsuffix with heq | hinside
    · exact heq
    · exact absurd (hinside.subset List.mem_cons_self) h

/-- A delimiter that cannot overlap with itself stands behind a text for the first time unless the text holds it. -/
theorem firstBehind_iff_of_borderless (hne : sep ≠ []) (h : Borderless sep) : FirstBehind sep x ↔ ¬sep <:+: x := by
  constructor
  · rintro hfirst ⟨front, after, rfl⟩
    have hfront := hfirst front ⟨after ++ sep, (List.append_assoc (front ++ sep) after sep).symm⟩
    have hlength := congrArg List.length hfront
    have hpos := List.length_pos_iff.mpr hne
    simp only [List.length_append] at hlength
    omega
  · intro hnot front hfront
    have hlength := hfront.length_le
    simp only [List.length_append] at hlength
    have hx : front <+: x :=
      List.prefix_of_prefix_length_le ((List.prefix_append front sep).trans hfront) (List.prefix_append x sep)
        (by omega)
    obtain ⟨y, rfl⟩ := hx
    rw [List.append_assoc, List.prefix_append_right_inj] at hfront
    rcases Nat.lt_or_ge y.length sep.length with hshort | hlong
    · obtain ⟨t, ht⟩ := List.prefix_of_prefix_length_le (List.prefix_append y sep) hfront (Nat.le_of_lt hshort)
      have hstart : t <+: sep := by rwa [← List.prefix_append_right_inj y, ht]
      have hrest : t ≠ [] := by
        rintro rfl
        rw [List.append_nil] at ht
        exact absurd (congrArg List.length ht) (Nat.ne_of_lt hshort)
      rw [h t hrest hstart ⟨y, ht⟩] at ht
      rw [List.append_left_eq_self.mp ht, List.append_nil]
    · have hinside : sep <+: y := List.prefix_of_prefix_length_le hfront (List.prefix_append y sep) hlong
      exact absurd (hinside.isInfix.trans (List.suffix_append front y).isInfix) hnot

/-- A text is cut at the first place of the delimiter, wherever else that stands. -/
theorem cut?_eq_some_iff (hs : sep ≠ []) : cut? sep t = some (x, y) ↔ t = x ++ sep ++ y ∧ FirstBehind sep x := by
  induction t generalizing x with
  | nil => simp [cut?, hs]
  | cons b t ih =>
    rw [cut?]
    cases hsep : prefixed? sep (b :: t) with
    | some rest =>
      rw [prefixed?_eq_some_iff.mp hsep]
      constructor
      · rintro ⟨⟩
        exact ⟨rfl, firstBehind_nil sep⟩
      · rintro ⟨heq, hfirst⟩
        have hfront : sep <+: x ++ sep :=
          List.prefix_of_prefix_length_le (List.prefix_append sep rest) (heq ▸ List.prefix_append _ y) (by simp)
        cases hfirst [] hfront
        rw [List.nil_append, List.append_cancel_left_eq] at heq
        rw [heq]
    | none =>
      have hnot : ¬sep <+: b :: t := by
        rw [← isSome_prefixed?_iff, hsep]
        exact Bool.false_ne_true
      cases x with
      | nil =>
        refine iff_of_false (by simp) ?_
        rintro ⟨heq, -⟩
        exact hnot ⟨y, heq.symm⟩
      | cons a x =>
        rw [firstBehind_cons]
        constructor
        · intro h
          obtain ⟨⟨x', y'⟩, hcut, heq⟩ := Option.map_eq_some_iff.mp h
          cases heq
          obtain ⟨rfl, hfirst⟩ := ih.mp hcut
          exact ⟨rfl, fun hsep => hnot (hsep.trans (List.cons_prefix_cons.mpr ⟨rfl, List.prefix_append _ y⟩)), hfirst⟩
        · rintro ⟨heq, -, hfirst⟩
          obtain ⟨rfl, rfl⟩ := List.cons.inj heq
          exact Option.map_eq_some_iff.mpr ⟨(x, y), ih.mpr ⟨rfl, hfirst⟩, rfl⟩

/-- Where the first byte of the delimiter stands nowhere else in it, the text before the cut is free of the delimiter
and otherwise arbitrary. -/
theorem cut?_cons_eq_some_iff (h : b ∉ s) : cut? (b :: s) t = some (x, y) ↔ t = x ++ b :: s ++ y ∧ ¬b :: s <:+: x := by
  have hne : b :: s ≠ [] := List.cons_ne_nil b s
  rw [cut?_eq_some_iff hne, firstBehind_iff_of_borderless hne (borderless_cons h)]

theorem cut?_singleton_eq_some_iff : cut? [b] t = some (x, y) ↔ t = x ++ b :: y ∧ b ∉ x := by
  rw [cut?_eq_some_iff (List.cons_ne_nil b []), firstBehind_singleton_iff, List.append_assoc, List.singleton_append]

theorem cut?_singleton_eq_none (h : b ∉ t) : cut? [b] t = none := by
  rw [Option.eq_none_iff_forall_ne_some]
  rintro ⟨x, y⟩ heq
  obtain ⟨rfl, -⟩ := cut?_singleton_eq_some_iff.mp heq
  exact h (by simp)

theorem idxOf?_append_cons (h : b ∉ x) (y : Text) : (x ++ b :: y).idxOf? b = some x.length := by
  apply List.idxOf?_eq_some_iff.mpr
  refine ⟨by simp, by simp, ?_⟩
  intro j hj
  rw [List.getElem_append_left hj]
  exact ne_of_mem_of_not_mem (List.getElem_mem hj) h

/-- A text is cut where the delimiter is found. -/
theorem cut?_singleton_eq_map (b : UInt8) (t : Text) :
    cut? [b] t = (t.idxOf? b).map fun n => (t.take n, t.drop (n + 1)) := by
  by_cases hb : b ∈ t
  · obtain ⟨x, y, rfl, hx⟩ := List.eq_append_cons_of_mem hb
    rw [cut?_singleton_eq_some_iff.mpr ⟨rfl, hx⟩, idxOf?_append_cons hx]
    simp
  · rw [cut?_singleton_eq_none hb, List.idxOf?_eq_none_iff.mpr hb]
    rfl

theorem fields_eq_splitOn (d : UInt8) (t : Text) : fields d t = t.splitOn d := by
  induction t with
  | nil => rw [fields, List.splitOn_nil]
  | cons a t ih =>
    rw [fields, ih, List.splitOn, List.splitOn, List.splitOnP_cons_eq_if_modifyHead]
    by_cases h : a = d
    · simp [h]
    · simp only [h, ↓reduceIte, beq_iff_eq]
      cases hs : List.splitOnP (· == d) t with
      | nil => exact absurd hs (List.splitOnP_ne_nil _ t)
      | cons f fs => rfl

theorem fields_of_notMem (h : b ∉ x) : fields b x = [x] := by
  rw [fields_eq_splitOn, List.splitOn_eq_singleton h]

/-- The first delimiter ends the first piece. -/
theorem fields_append_cons (h : b ∉ x) (y : Text) : fields b (x ++ b :: y) = x :: fields b y := by
  rw [fields_eq_splitOn, fields_eq_splitOn, List.splitOn_append_cons_self_of_not_mem h]

/-- A text is worked off piece by piece: up to the first delimiter, then what is behind it. -/
theorem piece_induction {motive : Text → Prop} (b : UInt8) (last : ∀ x, b ∉ x → motive x)
    (piece : ∀ x y, b ∉ x → motive y → motive (x ++ b :: y)) (t : Text) : motive t := by
  induction hn : t.length using Nat.strongRecOn generalizing t with
  | ind n ih =>
    obtain rfl := hn
    by_cases hb : b ∈ t
    · obtain ⟨x, y, rfl, hx⟩ := List.eq_append_cons_of_mem hb
      refine piece x y hx (ih _ ?_ y rfl)
      rw [List.length_append, List.length_cons]
      omega
    · exact last t hb

theorem notMem_of_mem_fields {f : Text} (h : f ∈ fields b t) : b ∉ f := by
  induction t using piece_induction b with
  | last x hx =>
    rw [fields_of_notMem hx, List.mem_singleton] at h
    rwa [h]
  | piece x y hx ih =>
    rw [fields_append_cons hx, List.mem_cons] at h
    rcases h with rfl | hy
    · exact hx
    · exact ih hy

theorem join_eq_intercalate (sep : Text) (fs : List Text) : join sep fs = sep.intercalate fs := by
  fun_induction join sep fs with
  | case1 => rfl
  | case2 t => rw [List.intercalate_singleton]
  | case3 t ts hts ih =>
    obtain ⟨u, us, rfl⟩ := List.exists_cons_of_ne_nil hts
    rw [ih, List.intercalate_cons_cons]

/-- Pieces without the delimiter are found again in what they are joined to. -/
theorem fields_join {fs : List Text} (h : ∀ f ∈ fs, b ∉ f) (hne : fs ≠ []) : fields b (join [b] fs) = fs := by
  rw [fields_eq_splitOn, join_eq_intercalate, List.splitOn_intercalate b h hne]

theorem words_eq (b : UInt8) (t : Text) : words b t = (t.splitOn b).filter (· ≠ []) := by
  rw [words, fields_eq_splitOn]

theorem headD_fields (d : UInt8) (t : Text) : (fields d t).headD [] = before d t := by
  induction t with
  | nil => rfl
  | cons a t ih =>
    rw [fields, before, List.takeWhile_cons]
    by_cases h : a = d
    · simp [h]
    · rw [before] at ih
      cases hf : fields d t with
      | nil => exact absurd hf (fields_ne_nil d t)
      | cons f fs => simpa [h, hf] using ih

theorem replace_self (a : UInt8) (t : Text) : replace a a t = t := by
  have hbyte : ∀ c : UInt8, (if c = a then a else c) = c := fun c => by
    by_cases hc : c = a
    · rw [if_pos hc, hc]
    · rw [if_neg hc]
  rw [replace, List.map_congr_left fun c _ => hbyte c, List.map_id']

theorem replace_of_notMem {a : UInt8} (h : a ∉ t) : replace a b t = t := by
  have hbyte : ∀ c ∈ t, (if c = a then b else c) = c := fun c hc => if_neg (ne_of_mem_of_not_mem hc h)
  rw [replace, List.map_congr_left hbyte, List.map_id']

/-- Bytes that are changed into a new one are found again. -/
theorem replace_replace {a : UInt8} (h : b ∉ t) : replace b a (replace a b t) = t := by
  have hbyte : ∀ c ∈ t, (if (if c = a then b else c) = b then a else (if c = a then b else c)) = c := fun c hc => by
    have hcb : c ≠ b := ne_of_mem_of_not_mem hc h
    by_cases hca : c = a
    · rw [if_pos hca, if_pos rfl, hca]
    · rw [if_neg hca, if_neg hcb]
  rw [replace, replace, List.map_map, Function.comp_def, List.map_congr_left hbyte, List.map_id']

theorem lowerByte_upperByte (a : UInt8) : lowerByte (upperByte a) = lowerByte a := by
  have h : ∀ n : Fin 256, lowerByte (upperByte (.ofFin n)) = lowerByte (.ofFin n) := by decide +kernel
  exact h a.toFin

theorem upperByte_lowerByte (a : UInt8) : upperByte (lowerByte a) = upperByte a := by
  have h : ∀ n : Fin 256, upperByte (lowerByte (.ofFin n)) = upperByte (.ofFin n) := by decide +kernel
  exact h a.toFin

theorem lower_upper (t : Text) : lower (upper t) = lower t := by
  simp [lower, upper, lowerByte_upperByte]

theorem upper_lower (t : Text) : upper (lower t) = upper t := by
  simp [lower, upper, upperByte_lowerByte]

/-- Either case tells the same texts apart. -/
theorem upper_eq_upper_iff {s t : Text} : upper s = upper t ↔ lower s = lower t := by
  constructor
  · intro h
    rw [← lower_upper s, h, lower_upper]
  · intro h
    rw [← upper_lower s, h, upper_lower]

end CodeAtlas.Text
