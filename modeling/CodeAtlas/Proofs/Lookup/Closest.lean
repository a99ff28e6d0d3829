import CodeAtlas.Lookup.FileKind
import CodeAtlas.Proofs.Lookup.Ordered

namespace CodeAtlas

/-- The symbol is a listed one, `r` lies in it as far as its size tells, and no listed symbol starts between its start
and `r`. The bound is one of natural numbers and does not wrap. -/
structure Symbol.IsClosest (s : Symbol) (listed : List (UInt32 × Text)) (r : UInt32) : Prop where
  start_mem : s.start ∈ listed.map Prod.fst
  start_le : s.start ≤ r
  lt_stop : ∀ size, s.size = some size → r.toNat < s.start.toNat + size.toNat
  not_between : ∀ e ∈ listed, ¬(s.start < e.1 ∧ e.1 ≤ r)

theorem toNat_lt_start_add_sub {start stop r : UInt32} (hstart : start ≤ r) (hstop : r < stop) :
    r.toNat < start.toNat + (stop - start).toNat := by
  have hle := UInt32.le_trans hstart (UInt32.le_of_lt hstop)
  have hlt := UInt32.lt_iff_toNat_lt.mp hstop
  have hnat := UInt32.le_iff_toNat_le.mp hle
  rw [UInt32.toNat_sub_of_le _ _ hle]
  omega

theorem isClosest_of_lastAtMost? {start : α → UInt32} {xs : Array α} {x : α} {r : UInt32} {stop : Option UInt32}
    {listed : List (UInt32 × Text)} {s : Symbol} (hinc : Increasing start xs.toList)
    (hlisted : listed.map Prod.fst = xs.toList.map start) (h : Bisection.lastAtMost? start xs r = some x)
    (hstop : ∀ e, stop = some e → r < e) (hstart : s.start = start x)
    (hsize : s.size = stop.map (· - start x)) : s.IsClosest listed r := by
  obtain ⟨i, hx, hle, -⟩ := Bisection.lastAtMost?_eq_some hinc.le h
  refine ⟨?_, hstart ▸ hle, fun size hs => ?_, fun e he hbetween => ?_⟩
  · rw [hlisted, hstart]
    exact List.mem_map_of_mem (List.mem_of_getElem? (by rwa [Array.getElem?_toList]))
  · rw [hsize] at hs
    obtain ⟨e, he, rfl⟩ := Option.map_eq_some_iff.mp hs
    rw [hstart]
    exact toNat_lt_start_add_sub hle (hstop e he)
  · have hmem : e.1 ∈ xs.toList.map start := hlisted ▸ List.mem_map_of_mem he
    obtain ⟨y, hy, heq⟩ := List.mem_map.mp hmem
    rw [hstart, ← heq] at hbetween
    exact Bisection.not_between_of_lastAtMost? hinc h y hy hbetween

/-- Whatever is remembered of earlier lookups, a symbol that answers an address is the closest to what the address
denotes. -/
def SymbolSource.AnswersClosest (source : SymbolSource Remembering) (denotes : Address → UInt32 → Prop) : Prop :=
  ∀ a memo answer, ((source.lookup a).run memo).1 = some answer →
    ∃ r, denotes a r ∧ answer.symbol.IsClosest source.symbols r

end CodeAtlas
