import CodeAtlas.Proofs.Image.UnwindLink
import Mathlib.Data.List.Nodup
import Mathlib.Data.List.Perm.Subperm

namespace CodeAtlas.UnwindRecord

variable {info? : UInt32 → Option Bytes} {r q e : UnwindRecord} {rs : List UnwindRecord} {visited : List UInt32}

/-- From one record of a chain to another, over the records before the last one. -/
inductive ChainTo (info? : UInt32 → Option Bytes) : UnwindRecord → List UnwindRecord → UnwindRecord → Prop
  | here (r : UnwindRecord) : ChainTo info? r [] r
  | next {r q e : UnwindRecord} {rs : List UnwindRecord} (link : Links info? r q) (rest : ChainTo info? q rs e) :
    ChainTo info? r (r :: rs) e

/-- From each record on the way the chain goes on to the same end. -/
theorem ChainTo.suffix (h : ChainTo info? r rs e) (hq : q ∈ rs) :
    ∃ before after q', rs = before ++ q :: after ∧ Links info? q q' ∧ ChainTo info? q' after e := by
  induction h with
  | here r => cases hq
  | @next r q' e rs link rest ih =>
    rcases List.mem_cons.mp hq with rfl | hq
    · exact ⟨[], rs, q', rfl, link, rest⟩
    · obtain ⟨before, after, q'', rfl, hlink, hafter⟩ := ih hq
      exact ⟨r :: before, after, q'', rfl, hlink, hafter⟩

/-- There is one way to the end of a chain. -/
theorem ChainTo.unique {rs' : List UnwindRecord} (h : ChainTo info? r rs e) (h' : ChainTo info? r rs' e)
    (hend : EndsChain info? e) : rs = rs' := by
  induction h generalizing rs' with
  | here r =>
    cases h' with
    | here => rfl
    | next link => exact (not_endsChain_of_links link hend).elim
  | next link rest ih =>
    cases h' with
    | here => exact (not_endsChain_of_links link hend).elim
    | next link' rest' =>
      obtain rfl := link.unique link'
      rw [ih rest' hend]

/-- On the way to the end of a chain no unwind information is used twice. -/
theorem ChainTo.nodup_of_endsChain (h : ChainTo info? r rs e) (hend : EndsChain info? e) :
    (rs.map (·.info)).Nodup := by
  induction h with
  | here r => exact List.nodup_nil
  | @next r q e rs link rest ih =>
    refine List.nodup_cons.mpr ⟨fun hmem => ?_, ih hend⟩
    -- A record that uses it again would be followed by all the records once more.
    obtain ⟨q', hq', hinfo⟩ := List.mem_map.mp hmem
    obtain ⟨before, after, next, rfl, hlink, hafter⟩ := rest.suffix hq'
    obtain rfl := (hlink.of_info_eq hinfo).unique link
    have hlength := congrArg List.length (hafter.unique rest hend)
    rw [List.length_append, List.length_cons] at hlength
    omega

theorem followChain_of_mem (h : r.info ∈ visited) : followChain info? visited r = r := by
  rw [followChain, dif_pos h]

theorem followChain_of_endsChain (h : EndsChain info? r) : followChain info? visited r = r := by
  rw [followChain, ← next?, endsChain_iff.mp h]
  split <;> rfl

theorem followChain_of_links (h : r.info ∉ visited) (hlink : Links info? r q) :
    followChain info? visited r = followChain info? (r.info :: visited) q := by
  rw [followChain, dif_neg h, ← next?, links_iff.mp hlink]

/-- Following the chain of a record stops where it ends or comes to unwind information that was already used; on the
way none is used twice. -/
structure StopsAt (info? : UInt32 → Option Bytes) (visited : List UInt32) (r : UnwindRecord) (rs : List UnwindRecord)
    (e : UnwindRecord) : Prop where
  chain : ChainTo info? r rs e
  nodup : (rs.map (·.info)).Nodup
  fresh : ∀ a ∈ rs.map (·.info), a ∉ visited
  stop : EndsChain info? e ∨ e.info ∈ visited ∨ e.info ∈ rs.map (·.info)

theorem StopsAt.cons (h : r.info ∉ visited) (hlink : Links info? r q) (hstops : StopsAt info? (r.info :: visited) q rs e) :
    StopsAt info? visited r (r :: rs) e := by
  obtain ⟨hchain, hnodup, hfresh, hstop⟩ := hstops
  refine ⟨.next hlink hchain, List.nodup_cons.mpr ⟨fun hmem => hfresh _ hmem List.mem_cons_self, hnodup⟩,
    List.forall_mem_cons.mpr ⟨h, fun a ha hvisited => hfresh a ha (List.mem_cons_of_mem _ hvisited)⟩, ?_⟩
  rw [List.mem_cons] at hstop
  rw [List.map_cons, List.mem_cons]
  tauto

theorem exists_stopsAt (visited : List UInt32) (r : UnwindRecord) :
    ∃ rs, StopsAt info? visited r rs (followChain info? visited r) := by
  fun_induction followChain info? visited r with
  | case1 visited r hmem => exact ⟨[], .here r, List.nodup_nil, fun a ha => (List.not_mem_nil ha).elim, .inr (.inl hmem)⟩
  | case2 visited r hmem hnone =>
    exact ⟨[], .here r, List.nodup_nil, fun a ha => (List.not_mem_nil ha).elim, .inl (endsChain_iff.mpr hnone)⟩
  | case3 visited r hmem next hnext ih =>
    obtain ⟨rs, hrs⟩ := ih
    exact ⟨r :: rs, hrs.cons hmem (links_iff.mpr hnext)⟩

theorem StopsAt.followChain_eq (h : StopsAt info? visited r rs e) : followChain info? visited r = e := by
  obtain ⟨hchain, hnodup, hfresh, hstop⟩ := h
  -- With each link the information of the first record goes over from the chain to what was visited.
  induction hchain generalizing visited with
  | here r =>
    rcases hstop with hend | hmem | hmem
    · exact followChain_of_endsChain hend
    · exact followChain_of_mem hmem
    · cases hmem
  | @next r q e rs link rest ih =>
    rw [List.map_cons, List.nodup_cons] at hnodup
    rw [List.map_cons, List.forall_mem_cons] at hfresh
    rw [followChain_of_links hfresh.1 link]
    refine ih hnodup.2 (fun a ha hmem => ?_) ?_
    · rcases List.mem_cons.mp hmem with rfl | hmem
      · exact hnodup.1 ha
      · exact hfresh.2 a ha hmem
    · rw [List.map_cons, List.mem_cons] at hstop
      rw [List.mem_cons]
      tauto

/-- From the record at which a cycle was noticed, following the chain goes round the cycle once. -/
theorem canonical_of_stopsAt (h : StopsAt info? [] r rs e) : canonical info? e = e := by
  rcases h.stop with hend | hmem | hmem
  · exact followChain_of_endsChain hend
  · cases hmem
  · obtain ⟨q, hq, hinfo⟩ := List.mem_map.mp hmem
    obtain ⟨before, after, q', rfl, hlink, hafter⟩ := h.chain.suffix hq
    have hnodup := h.nodup
    rw [List.map_append, List.map_cons, hinfo] at hnodup
    have hround : ChainTo info? e (e :: after) e := .next (hlink.of_info_eq hinfo) hafter
    refine StopsAt.followChain_eq ⟨hround, (List.nodup_append.mp hnodup).2.1, fun a _ => List.not_mem_nil, ?_⟩
    exact .inr (.inr List.mem_cons_self)

/-- There are no more addresses of unwind information than words. -/
theorem StopsAt.length_le (h : StopsAt info? visited r rs e) : rs.length ≤ 2 ^ 32 := by
  have hnodup : ((rs.map (·.info)).map (·.toNat)).Nodup := List.Nodup.map (fun _ _ => UInt32.toNat_inj.mp) h.nodup
  have hsubset : (rs.map (·.info)).map (·.toNat) ⊆ List.range (2 ^ 32) := by
    intro a ha
    obtain ⟨n, -, rfl⟩ := List.mem_map.mp ha
    exact List.mem_range.mpr n.toNat_lt
  have hle := (List.subperm_of_subset hnodup hsubset).length_le
  rwa [List.length_map, List.length_map, List.length_range] at hle

/-- What the canonical record of a record is. -/
structure FollowsChain (info? : UInt32 → Option Bytes) (r : UnwindRecord) : Prop where
  reached : ∃ rs, ChainTo info? r rs (canonical info? r) ∧ rs.length ≤ 2 ^ 32 ∧ (rs.map (·.info)).Nodup ∧
    (EndsChain info? (canonical info? r) ∨ (canonical info? r).info ∈ rs.map (·.info))
  idempotent : canonical info? (canonical info? r) = canonical info? r
  shared : ∀ rs e, ChainTo info? r rs e → EndsChain info? e →
    canonical info? r = e ∧ ∀ q ∈ rs ++ [e], canonical info? q = canonical info? r

theorem canonical_of_chainTo (h : ChainTo info? r rs e) (hend : EndsChain info? e) : canonical info? r = e :=
  StopsAt.followChain_eq ⟨h, h.nodup_of_endsChain hend, fun _ _ => List.not_mem_nil, .inl hend⟩

theorem followsChain (info? : UInt32 → Option Bytes) (r : UnwindRecord) : FollowsChain info? r := by
  obtain ⟨rs, hrs⟩ : ∃ rs, StopsAt info? [] r rs (canonical info? r) := exists_stopsAt [] r
  refine ⟨⟨rs, hrs.chain, hrs.length_le, hrs.nodup, ?_⟩, canonical_of_stopsAt hrs, fun rs e hchain hend => ?_⟩
  · rcases hrs.stop with hend | hmem | hmem
    · exact .inl hend
    · cases hmem
    · exact .inr hmem
  · have hcanonical := canonical_of_chainTo hchain hend
    refine ⟨hcanonical, fun q hq => ?_⟩
    rw [hcanonical]
    rcases List.mem_append.mp hq with hq | hq
    · obtain ⟨before, after, q', -, hlink, hafter⟩ := hchain.suffix hq
      exact canonical_of_chainTo (.next hlink hafter) hend
    · rw [List.mem_singleton.mp hq]
      exact followChain_of_endsChain hend

end CodeAtlas.UnwindRecord
