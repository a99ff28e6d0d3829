import CodeAtlas.Proofs.Bytes.Requests
import CodeAtlas.Proofs.Database.NameMap

namespace CodeAtlas.Database

/-- An entry as it is stored: where its name is among the names' characters, and the stream. -/
structure StoredName where
  name : Text
  offset : UInt32
  stream : UInt32

namespace StoredName

def bytes (e : StoredName) : List UInt8 := leBytes 4 e.offset.toNat ++ leBytes 4 e.stream.toNat

def entry (e : StoredName) : Text × UInt32 := (e.name, e.stream)

theorem length_bytes (e : StoredName) : e.bytes.length = 8 := by
  rw [bytes, List.length_append, length_leBytes, length_leBytes]

/-- The name stands at its place, up to the first NUL there. -/
structure IsNamed (e : StoredName) (names : List UInt8) : Prop where
  stands : Bytes.Holds names.toArray e.offset.toNat (e.name ++ [0])
  ends : 0 ∉ e.name

theorem IsNamed.offset_lt {e : StoredName} {names : List UInt8} (he : e.IsNamed names) :
    e.offset.toNat < names.length := by
  have hsize := he.stands.le_size
  rw [List.length_append, List.length_singleton, List.size_toArray] at hsize
  omega

/-- Entries stand one after the other, each with its name. -/
structure Stand (es : List StoredName) (names rest after : List UInt8) : Prop where
  named : ∀ e ∈ es, e.IsNamed names
  rest_eq : rest = es.flatMap bytes ++ after

end StoredName

/-- The place of the name of the entry that comes next. -/
def nextOffset (rest : List UInt8) : Nat := leValue (rest.take 4)

/-- What is wrong with the entry that comes next: it is missing, or its name is outside or has no end. -/
inductive RefusesName (names rest : List UInt8) : Fault → Prop
  | missing (h : rest.length < 8) : RefusesName names rest .shortNameEntries
  | outside (h : 8 ≤ rest.length) (houtside : names.length ≤ nextOffset rest) :
      RefusesName names rest (.nameOutside (nextOffset rest))
  | unterminated (h : 8 ≤ rest.length) (hinside : nextOffset rest < names.length)
      (hopen : 0 ∉ names.drop (nextOffset rest)) : RefusesName names rest .openName

namespace Info

variable {names rest after : List UInt8} {fault : Fault} {c : Cursor} {n : Nat}

theorem nextOffset_append (offset : UInt32) (after : List UInt8) :
    nextOffset (leBytes 4 offset.toNat ++ after) = offset.toNat := by
  rw [nextOffset, List.take_left' (length_leBytes 4 offset.toNat), leValue_leBytes_of_lt offset.toNat_lt]

/-- What follows from the next two words, where they are not cut off. -/
theorem readEntries_succ_of_words {offset stream : UInt32}
    (h : c.remaining = leBytes 4 offset.toNat ++ leBytes 4 stream.toNat ++ after) (hc : c.overrun = false) :
    readEntries names.toArray (n + 1) c =
      if names.length ≤ offset.toNat then .error (.nameOutside offset.toNat)
      else match Bytes.cstringAt? names.toArray offset.toNat with
        | none => .error .openName
        | some name => ((name, stream) :: ·) <$> readEntries names.toArray n (c.advance 8) := by
  rw [List.append_assoc] at h
  have hoffset : c.value 4 = _ := Reader.reads_value_leBytes offset.toNat_lt c _ h
  have hstream := Reader.reads_u32 stream _ _ (Cursor.remaining_advance_length h)
  have hadvance : (c.advance (leBytes 4 offset.toNat).length).advance (leBytes 4 stream.toNat).length =
      c.advance 8 := by
    rw [Cursor.advance_advance, length_leBytes, length_leBytes]
  have hover : (c.advance 8).overrun = false := hc
  rw [readEntries, hoffset]
  dsimp only
  rw [hstream]
  dsimp only
  rw [hadvance, hover, if_neg Bool.false_ne_true, List.size_toArray]
  by_cases houtside : names.length ≤ offset.toNat
  · rw [if_pos houtside, if_pos houtside]
    rfl
  · rw [if_neg houtside, if_neg houtside]
    cases Bytes.cstringAt? names.toArray offset.toNat with
    | none => rfl
    | some name => cases readEntries names.toArray n (c.advance 8) <;> rfl

theorem readEntries_succ_of_short (h : c.left < 8) :
    readEntries names.toArray (n + 1) c = .error .shortNameEntries := by
  have hleft : (c.value 4).2.left < 4 := by
    rcases Nat.lt_or_ge c.left 4 with hlt | hle
    · rw [Cursor.value_of_lt hlt, Cursor.left_spoil]
      decide
    · rw [Cursor.value_of_le hle, Cursor.left_advance]
      omega
  have hover : (Reader.u32.run (c.value 4).2).2.overrun = true :=
    congrArg (·.2.overrun) (Cursor.value_of_lt hleft)
  rw [readEntries]
  exact if_pos hover

/-- An entry is either refused or stands there with its name. -/
theorem stands_or_refuses (names rest : List UInt8) :
    (∃ e after, StoredName.IsNamed e names ∧ rest = e.bytes ++ after) ∨ ∃ fault, RefusesName names rest fault := by
  rcases Nat.lt_or_ge rest.length 8 with hshort | hlength
  · exact .inr ⟨_, .missing hshort⟩
  · obtain ⟨offset, tail, htail⟩ := exists_word rest (by omega)
    have hnext := nextOffset_append offset tail
    rw [← htail] at hnext
    rcases Nat.lt_or_ge (nextOffset rest) names.length with hinside | houtside
    · cases hname : Bytes.cstringAt? names.toArray offset.toNat with
      | none =>
        rw [Bytes.cstringAt?_eq_none_iff, ← hnext] at hname
        exact .inr ⟨_, .unterminated hlength hinside hname⟩
      | some name =>
        rw [htail, List.length_append, length_leBytes] at hlength
        obtain ⟨stream, after, hafter⟩ := exists_word tail (by omega)
        obtain ⟨hstands, hends⟩ := Bytes.cstringAt?_eq_some_iff.mp hname
        refine .inl ⟨⟨name, offset, stream⟩, after, ⟨hstands, hends⟩, ?_⟩
        rw [htail, hafter, StoredName.bytes, List.append_assoc]
    · exact .inr ⟨_, .outside hlength houtside⟩

theorem not_refuses_of_isNamed {e : StoredName} (he : e.IsNamed names) :
    ¬RefusesName names (e.bytes ++ after) fault := by
  have hnext : nextOffset (e.bytes ++ after) = e.offset.toNat := by
    rw [StoredName.bytes, List.append_assoc, nextOffset_append]
  rintro (hshort | ⟨-, houtside⟩ | ⟨-, -, hopen⟩)
  · rw [List.length_append, StoredName.length_bytes] at hshort
    omega
  · rw [hnext] at houtside
    exact absurd he.offset_lt (Nat.not_lt.mpr houtside)
  · have hnone : Bytes.cstringAt? names.toArray (nextOffset (e.bytes ++ after)) = none :=
      Bytes.cstringAt?_eq_none_iff.mpr hopen
    rw [hnext, he.stands.cstringAt? he.ends] at hnone
    cases hnone

theorem not_refuses_of_stand {es : List StoredName} (h : StoredName.Stand es names rest after) {i : Nat}
    (hi : i < es.length) : ¬RefusesName names (rest.drop (8 * i)) fault := by
  have hbefore : ((es.take i).flatMap StoredName.bytes).length = 8 * i := by
    rw [length_flatMap_of_length StoredName.length_bytes, List.length_take_of_le (Nat.le_of_lt hi), Nat.mul_comm]
  have hsplit : es.flatMap StoredName.bytes =
      (es.take i).flatMap StoredName.bytes ++ (es[i].bytes ++ (es.drop (i + 1)).flatMap StoredName.bytes) := by
    rw [← List.flatMap_cons, ← List.drop_eq_getElem_cons hi, ← List.flatMap_append, List.take_append_drop]
  rw [h.rest_eq, hsplit, List.append_assoc, List.drop_left' hbefore, List.append_assoc]
  exact not_refuses_of_isNamed (h.named _ (List.getElem_mem hi))

theorem readEntries_succ_of_stands {e : StoredName} (h : c.remaining = e.bytes ++ after) (hc : c.overrun = false)
    (he : e.IsNamed names) : readEntries names.toArray (n + 1) c =
      (e.entry :: ·) <$> readEntries names.toArray n (c.advance e.bytes.length) := by
  rw [readEntries_succ_of_words h hc, if_neg (Nat.not_le.mpr he.offset_lt), he.stands.cstringAt? he.ends,
    StoredName.length_bytes]
  rfl

theorem readEntries_succ_of_refuses (h : RefusesName names c.remaining fault) (hc : c.overrun = false) :
    readEntries names.toArray (n + 1) c = .error fault := by
  rcases Nat.lt_or_ge c.remaining.length 8 with hshort | hlength
  · have hleft : c.left < 8 := by rwa [← Cursor.length_remaining]
    cases h with
    | missing => exact readEntries_succ_of_short hleft
    | outside hlong => omega
    | unterminated hlong => omega
  · obtain ⟨offset, tail, htail⟩ := exists_word c.remaining (by omega)
    have hnext := nextOffset_append offset tail
    have hlong := hlength
    rw [htail, List.length_append, length_leBytes] at hlong
    obtain ⟨stream, after, hafter⟩ := exists_word tail (by omega)
    rw [← htail] at hnext
    rw [hafter, ← List.append_assoc] at htail
    rw [readEntries_succ_of_words htail hc, ← hnext]
    cases h with
    | missing hshort => omega
    | outside _ houtside => rw [if_pos houtside]
    | unterminated _ hinside hopen => rw [if_neg (by omega), Bytes.cstringAt?_eq_none_iff.mpr hopen]

/-- Entries that stand there are read, and then the rest is. -/
theorem readEntries_add_of_stand {es : List StoredName} (h : StoredName.Stand es names c.remaining after)
    (hc : c.overrun = false) (n : Nat) : readEntries names.toArray (es.length + n) c =
      (es.map StoredName.entry ++ ·) <$>
        readEntries names.toArray n (c.advance (es.flatMap StoredName.bytes).length) := by
  induction es generalizing c with
  | nil =>
    rw [List.length_nil, Nat.zero_add]
    exact (id_map _).symm
  | cons e es ih =>
    obtain ⟨hnamed, hrest⟩ := h
    rw [List.flatMap_cons, List.append_assoc] at hrest
    have hnext : StoredName.Stand es names (c.advance e.bytes.length).remaining after :=
      ⟨fun e' he' => hnamed e' (List.mem_cons_of_mem e he'), Cursor.remaining_advance_length hrest⟩
    rw [List.length_cons, Nat.add_right_comm, readEntries_succ_of_stands hrest hc (hnamed e List.mem_cons_self),
      ih hnext hc, Cursor.advance_advance, List.flatMap_cons, List.length_append, Functor.map_map]
    rfl

/-- Among so many entries either all stand there, or there is a first one that is refused. -/
theorem stand_or_refuses (names rest : List UInt8) (n : Nat) :
    (∃ es after, StoredName.Stand es names rest after ∧ es.length = n) ∨
      ∃ es after fault, StoredName.Stand es names rest after ∧ es.length < n ∧ RefusesName names after fault := by
  -- One more entry is one behind those that stand, so the entries are extended at their end.
  induction n with
  | zero => exact .inl ⟨[], rest, ⟨nofun, rfl⟩, rfl⟩
  | succ n ih =>
    obtain ⟨es, after, hstand, hlength⟩ | ⟨es, after, fault, hstand, hlength, hfault⟩ := ih
    · obtain ⟨e, last, he, hlast⟩ | ⟨fault, hfault⟩ := stands_or_refuses names after
      · refine .inl ⟨es ++ [e], last, ⟨?_, ?_⟩, ?_⟩
        · simpa only [List.forall_mem_append, List.forall_mem_singleton] using ⟨hstand.named, he⟩
        · rw [hstand.rest_eq, hlast, List.flatMap_append, List.flatMap_singleton, List.append_assoc]
        · rw [List.length_append, List.length_singleton, hlength]
      · exact .inr ⟨es, after, fault, hstand, by omega, hfault⟩
    · exact .inr ⟨es, after, fault, hstand, by omega, hfault⟩

theorem readEntries_of_stand {es : List StoredName} (h : StoredName.Stand es names c.remaining after)
    (hc : c.overrun = false) : readEntries names.toArray es.length c = .ok (es.map StoredName.entry) := by
  have hread := readEntries_add_of_stand h hc 0
  rw [Nat.add_zero] at hread
  rw [hread, readEntries]
  exact congrArg Except.ok (List.append_nil _)

theorem readEntries_of_refuses {es : List StoredName} (h : StoredName.Stand es names c.remaining after)
    (hc : c.overrun = false) (hlength : es.length < n) (hfault : RefusesName names after fault) :
    readEntries names.toArray n c = .error fault := by
  obtain ⟨more, rfl⟩ := Nat.exists_eq_add_of_lt hlength
  rw [← Cursor.remaining_advance_length h.rest_eq] at hfault
  have hlast : readEntries names.toArray (more + 1) (c.advance (es.flatMap StoredName.bytes).length) = .error fault :=
    readEntries_succ_of_refuses hfault hc
  rw [Nat.add_assoc, readEntries_add_of_stand h hc, hlast]
  rfl

theorem readEntries_eq_ok_iff (hc : c.overrun = false) {entries : List (Text × UInt32)} :
    readEntries names.toArray n c = .ok entries ↔
      ∃ es after, StoredName.Stand es names c.remaining after ∧ es.length = n ∧ es.map StoredName.entry = entries := by
  constructor
  · intro h
    obtain ⟨es, after, hstand, rfl⟩ | ⟨es, after, fault, hstand, hlength, hfault⟩ :=
      stand_or_refuses names c.remaining n
    · rw [readEntries_of_stand hstand hc] at h
      exact ⟨es, after, hstand, rfl, Except.ok.inj h⟩
    · rw [readEntries_of_refuses hstand hc hlength hfault] at h
      cases h
  · rintro ⟨es, after, hstand, rfl, rfl⟩
    exact readEntries_of_stand hstand hc

theorem readEntries_eq_error_iff (hc : c.overrun = false) : readEntries names.toArray n c = .error fault ↔
    ∃ es after, StoredName.Stand es names c.remaining after ∧ es.length < n ∧ RefusesName names after fault := by
  constructor
  · intro h
    obtain ⟨es, after, hstand, rfl⟩ | ⟨es, after, fault', hstand, hlength, hfault⟩ :=
      stand_or_refuses names c.remaining n
    · rw [readEntries_of_stand hstand hc] at h
      cases h
    · rw [readEntries_of_refuses hstand hc hlength hfault] at h
      cases h
      exact ⟨es, after, hstand, hlength, hfault⟩
  · rintro ⟨es, after, hstand, hlength, hfault⟩
    exact readEntries_of_refuses hstand hc hlength hfault

end Info

/-- What is stored before the entries. -/
structure NameTable where
  version : UInt32
  signature : UInt32
  age : UInt32
  guid : Vector UInt8 16
  names : List UInt8
  /-- Meant to be the number of entries; nothing depends on it. -/
  size : UInt32
  capacity : UInt32
  present : List UInt32
  deleted : List UInt32

namespace NameTable

def mapBytes (t : NameTable) : List UInt8 :=
  leBytes 4 t.names.length ++ (t.names ++ (leBytes 4 t.size.toNat ++ (leBytes 4 t.capacity.toNat ++
    (Info.vectorBytes t.present ++ Info.vectorBytes t.deleted))))

def bytes (t : NameTable) : List UInt8 :=
  leBytes 4 t.version.toNat ++ (leBytes 4 t.signature.toNat ++ (leBytes 4 t.age.toNat ++ (t.guid.toList ++ t.mapBytes)))

/-- The buckets that hold an entry. -/
def buckets (t : NameTable) : List Nat := Info.buckets t.present t.capacity.toNat

def info (t : NameTable) (entries : List (Text × UInt32)) : Info := ⟨t.version, t.signature, t.age, t.guid, entries⟩

/-- The lengths can be stored. -/
structure Fits (t : NameTable) : Prop where
  names : t.names.length < 2 ^ 32
  present : t.present.length < 2 ^ 32
  deleted : t.deleted.length < 2 ^ 32

variable {t : NameTable} {rest : List UInt8}

open Reader in
theorem reads_nameMap (ht : t.Fits) : Reads Info.nameMap t.mapBytes (t.names.toArray, t.buckets.length) := by
  have hskip : Reads (Reader.skip 4) (leBytes 4 t.size.toNat) () := by
    have h := reads_skip (leBytes 4 t.size.toNat)
    rwa [length_leBytes] at h
  refine (reads_value_leBytes ht.names).bind ((reads_bytes t.names).bind (hskip.bind
    ((reads_value_leBytes t.capacity.toNat_lt).bind ((Info.reads_bitVector ht.present).bind ?_))))
  have hlast := (Info.reads_bitVector ht.deleted).bind
    (f := fun _ => pure (t.names.toArray, Info.presentCount t.present t.capacity.toNat)) (reads_pure _)
  rw [List.append_nil] at hlast
  rwa [buckets, ← Info.presentCount_eq]

/-- The entries are read from where the table ends. -/
theorem exists_parse_eq (ht : t.Fits) (rest : List UInt8) : ∃ c : Cursor, c.remaining = rest ∧ c.overrun = false ∧
    Info.parse (t.bytes ++ rest).toArray = t.info <$> Info.readEntries t.names.toArray t.buckets.length c := by
  have hwhole : Bytes.Holds (t.bytes ++ rest).toArray 0 (t.bytes ++ rest) := Bytes.holds_toArray _
  have hguid : Bytes.guidAt? (t.bytes ++ rest).toArray 12 = some t.guid :=
    Bytes.guidAt?_of_holds hwhole.left.right.right.right.left
  have hstart : (Cursor.ofBytes (t.bytes ++ rest).toArray).remaining = leBytes 4 t.version.toNat ++
      (leBytes 4 t.signature.toNat ++ (leBytes 4 t.age.toNat ++ (t.guid.toList ++ (t.mapBytes ++ rest)))) := by
    simp only [Cursor.remaining_ofBytes, bytes, List.append_assoc]
  obtain ⟨c, hversion, hc, hover⟩ := (Reader.reads_u32 t.version).exists_run hstart rfl
  obtain ⟨c, hsignature, hc, hover⟩ := (Reader.reads_u32 t.signature).exists_run hc hover
  obtain ⟨c, hage, hc, hover⟩ := (Reader.reads_u32 t.age).exists_run hc hover
  obtain ⟨c, hskip, hc, hover⟩ := (Reader.reads_skip t.guid.toList).exists_run hc hover
  obtain ⟨c, hmap, hc, hover⟩ := (reads_nameMap ht).exists_run hc hover
  rw [Vector.length_toList] at hskip
  have hguidEnd : Cursor.skip 16 _ = _ := congrArg Prod.snd hskip
  refine ⟨c, hc, hover, ?_⟩
  rw [Info.parse, hguid]
  dsimp only
  rw [hversion]
  dsimp only
  rw [hsignature]
  dsimp only
  rw [hage]
  dsimp only
  rw [hguidEnd, hmap]
  dsimp only
  rw [if_neg (by rw [hover]; exact Bool.false_ne_true)]
  cases Info.readEntries t.names.toArray t.buckets.length c <;> rfl

theorem find?_info (t : NameTable) (es : List StoredName) (name : Text) :
    (t.info (es.map StoredName.entry)).find? name = (es.find? (·.name == name)).map (·.stream) := by
  rw [Info.find?, info]
  induction es with
  | nil => rfl
  | cons e es ih =>
    rw [List.map_cons, StoredName.entry, List.lookup_cons, List.find?_cons, ih]
    by_cases hname : e.name = name
    · rw [beq_iff_eq.mpr hname, beq_iff_eq.mpr hname.symm]
      rfl
    · rw [beq_false_of_ne hname, beq_false_of_ne (Ne.symm hname)]

theorem parse_eq_ok_iff (ht : t.Fits) {i : Info} : Info.parse (t.bytes ++ rest).toArray = .ok i ↔
    ∃ es after, StoredName.Stand es t.names rest after ∧ es.length = t.buckets.length ∧
      i = t.info (es.map StoredName.entry) := by
  obtain ⟨c, rfl, hover, hparse⟩ := exists_parse_eq ht rest
  rw [hparse, map_eq_ok_iff]
  constructor
  · rintro ⟨entries, hentries, rfl⟩
    obtain ⟨es, after, hstand, hlength, rfl⟩ := (Info.readEntries_eq_ok_iff hover).mp hentries
    exact ⟨es, after, hstand, hlength, rfl⟩
  · rintro ⟨es, after, hstand, hlength, rfl⟩
    exact ⟨_, (Info.readEntries_eq_ok_iff hover).mpr ⟨es, after, hstand, hlength, rfl⟩, rfl⟩

theorem parse_eq_error_iff (ht : t.Fits) {fault : Fault} : Info.parse (t.bytes ++ rest).toArray = .error fault ↔
    ∃ es after, StoredName.Stand es t.names rest after ∧ es.length < t.buckets.length ∧
      RefusesName t.names after fault := by
  obtain ⟨c, rfl, hover, hparse⟩ := exists_parse_eq ht rest
  rw [hparse, ← Info.readEntries_eq_error_iff hover]
  cases Info.readEntries t.names.toArray t.buckets.length c with
  | ok entries => exact iff_of_false nofun nofun
  | error fault' => exact ⟨fun h => by cases h; rfl, fun h => by cases h; rfl⟩

/-- One entry that cannot be read is enough. -/
theorem exists_fault (ht : t.Fits) {i : Nat} {fault : Fault} (hi : i < t.buckets.length)
    (h : RefusesName t.names (rest.drop (8 * i)) fault) :
    ∃ fault, Info.parse (t.bytes ++ rest).toArray = .error fault := by
  obtain ⟨es, after, hstand, hlength⟩ | ⟨es, after, fault', hstand, hlength, hfault⟩ :=
    Info.stand_or_refuses t.names rest t.buckets.length
  · exact absurd h (Info.not_refuses_of_stand hstand (hlength ▸ hi))
  · exact ⟨fault', (parse_eq_error_iff ht).mpr ⟨es, after, hstand, hlength, hfault⟩⟩

/-- Where an entry stands for each bucket that holds one, the first entry of a name tells its stream. Where one does
not, nothing is read. -/
structure ReadsNames (t : NameTable) (rest : List UInt8) : Prop where
  found : ∀ es after, StoredName.Stand es t.names rest after → es.length = t.buckets.length →
    ∃ i, Info.parse (t.bytes ++ rest).toArray = .ok i ∧
      ∀ name, i.find? name = (es.find? (·.name == name)).map (·.stream)
  ok_iff : ∀ i, Info.parse (t.bytes ++ rest).toArray = .ok i ↔ ∃ es after, StoredName.Stand es t.names rest after ∧
    es.length = t.buckets.length ∧ i = t.info (es.map StoredName.entry)
  refused : ∀ i fault, i < t.buckets.length → RefusesName t.names (rest.drop (8 * i)) fault →
    ∃ fault, Info.parse (t.bytes ++ rest).toArray = .error fault
  error_iff : ∀ fault, Info.parse (t.bytes ++ rest).toArray = .error fault ↔ ∃ es after,
    StoredName.Stand es t.names rest after ∧ es.length < t.buckets.length ∧ RefusesName t.names after fault

theorem readsNames (ht : t.Fits) (rest : List UInt8) : ReadsNames t rest where
  found es after hstand hlength :=
    ⟨_, (parse_eq_ok_iff ht).mpr ⟨es, after, hstand, hlength, rfl⟩, find?_info t es⟩
  ok_iff _ := parse_eq_ok_iff ht
  refused _ _ := exists_fault ht
  error_iff _ := parse_eq_error_iff ht

/-- Buckets 1, 3 and 34 hold an entry; 35 and 36 are marked but not below the capacity. -/
def threeBuckets : NameTable where
  version := 20000404
  signature := 1
  age := 2
  guid := Vector.replicate 16 0xA5
  names := "zz\x00ab\x00"
  size := 9
  capacity := 35
  present := [0b1010, 0b11100]
  deleted := [4]

def twiceNamed : List StoredName := [⟨"b", 4, 5⟩, ⟨"ab", 3, 6⟩, ⟨"b", 4, 7⟩]

theorem stand_twiceNamed (after : List UInt8) : StoredName.Stand twiceNamed threeBuckets.names
    (twiceNamed.flatMap StoredName.bytes ++ after) after where
  named := by
    simp only [twiceNamed, List.forall_mem_cons, List.not_mem_nil, false_imp_iff, implies_true, and_true]
    exact ⟨⟨⟨"zz\x00a", [], rfl, rfl⟩, by decide⟩, ⟨⟨"zz\x00", [], rfl, rfl⟩, by decide⟩,
      ⟨⟨"zz\x00a", [], rfl, rfl⟩, by decide⟩⟩
  rest_eq := rfl

theorem readsNames_threeBuckets : threeBuckets.Fits ∧
    (∃ i, Info.parse (threeBuckets.bytes ++ (twiceNamed.flatMap StoredName.bytes ++ [1, 2, 3])).toArray = .ok i ∧
      i.find? "b" = some 5 ∧ i.find? "ab" = some 6 ∧ i.find? "zz" = none) ∧
    Info.parse (threeBuckets.bytes ++ ((twiceNamed.take 2).flatMap StoredName.bytes ++ [1, 2, 3])).toArray =
      .error .shortNameEntries := by
  have hfits : threeBuckets.Fits := ⟨by decide, by decide, by decide⟩
  refine ⟨hfits, ?_, ?_⟩
  · obtain ⟨i, hparse, hfind⟩ := (readsNames hfits _).found _ _ (stand_twiceNamed [1, 2, 3]) (by decide)
    exact ⟨i, hparse, hfind "b", hfind "ab", hfind "zz"⟩
  · have hstand : StoredName.Stand (twiceNamed.take 2) threeBuckets.names
        ((twiceNamed.take 2).flatMap StoredName.bytes ++ [1, 2, 3]) [1, 2, 3] :=
      ⟨fun e he => (stand_twiceNamed []).named e (List.mem_of_mem_take he), rfl⟩
    exact ((readsNames hfits _).error_iff _).mpr ⟨_, _, hstand, by decide, .missing (by decide)⟩

end NameTable

end CodeAtlas.Database
