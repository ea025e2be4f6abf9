import Mathlib

namespace Mallob.Descendants

variable {V : Type} [Fintype V] {μ : V → Nat} {next : V → V} {root : V}

open Classical in
noncomputable def below (next : V → V) (a : V) : Finset V := {x | ∃ k, next^[k] x = a}

theorem mem_below {a x : V} : x ∈ below next a ↔ ∃ k, next^[k] x = a := by
  simp [below]

theorem self_mem_below (a : V) : a ∈ below next a := mem_below.mpr ⟨0, rfl⟩

theorem below_subset (a : V) : below next a ⊆ below next (next a) := by
  intro x hx
  obtain ⟨k, rfl⟩ := mem_below.mp hx
  exact mem_below.mpr ⟨k + 1, Function.iterate_succ_apply' next k x⟩

theorem measure_iterate_le (h : ∀ a, a ≠ root → μ (next a) + 1 = μ a) (hroot : next root = root) (k : Nat) (a : V) :
    μ (next^[k] a) ≤ μ a := by
  induction k with
  | zero => exact le_rfl
  | succ k ih =>
      rw [Function.iterate_succ_apply']
      by_cases heq : next^[k] a = root
      · rw [heq, hroot, ← heq]
        exact ih
      · have hstep := h _ heq
        omega

theorem not_mem_below_child (h : ∀ a, a ≠ root → μ (next a) + 1 = μ a) (hroot : next root = root) {c : V}
    (hc : c ≠ root) : next c ∉ below next c := by
  intro hmem
  obtain ⟨k, hk⟩ := mem_below.mp hmem
  have hle := measure_iterate_le h hroot k (next c)
  have hstep := h c hc
  rw [hk] at hle
  omega

theorem disjoint_below (h : ∀ a, a ≠ root → μ (next a) + 1 = μ a) (hroot : next root = root) {a c c' : V}
    (hc : c ≠ root ∧ next c = a) (hc' : c' ≠ root ∧ next c' = a) (hne : c ≠ c') :
    Disjoint (below next c) (below next c') := by
  have hordered : ∀ {b b' : V}, b' ≠ root ∧ next b' = a → next b = a → b ≠ b' → ∀ {x : V} {i j : Nat},
      next^[i] x = b → next^[j] x = b' → i ≤ j → False := by
    rintro b b' ⟨hb', ha'⟩ ha hne x i j hi hj hij
    obtain ⟨m, rfl⟩ := Nat.exists_eq_add_of_le' hij
    rw [Function.iterate_add_apply, hi] at hj
    cases m with
    | zero => exact hne hj
    | succ m =>
        rw [Function.iterate_succ_apply, ha] at hj
        have hle := measure_iterate_le h hroot m a
        have hstep := h b' hb'
        rw [hj] at hle
        rw [ha'] at hstep
        omega
  rw [Finset.disjoint_left]
  intro x hx hx'
  obtain ⟨i, hi⟩ := mem_below.mp hx
  obtain ⟨j, hj⟩ := mem_below.mp hx'
  rcases le_total i j with hij | hij
  · exact hordered hc' hc.2 hne hi hj hij
  · exact hordered hc hc'.2 hne.symm hj hi hij

/-- The children of a node have fewer nodes below them than the node itself. -/
theorem sum_card_below [DecidableEq V] (h : ∀ a, a ≠ root → μ (next a) + 1 = μ a) (hroot : next root = root) {a : V}
    {children : Finset V} (hchildren : ∀ c ∈ children, c ≠ root ∧ next c = a) :
    ∑ c ∈ children, (below next c).card + 1 ≤ (below next a).card := by
  have hdisjoint : (children : Set V).PairwiseDisjoint (below next) := fun c hc c' hc' hne =>
    disjoint_below h hroot (hchildren c hc) (hchildren c' hc') hne
  rw [← Finset.card_biUnion hdisjoint]
  have hself : a ∉ children.biUnion (below next) := by
    intro hmem
    obtain ⟨c, hc, hin⟩ := Finset.mem_biUnion.mp hmem
    obtain ⟨hne, hnext⟩ := hchildren c hc
    exact not_mem_below_child h hroot hne (hnext ▸ hin)
  rw [← Finset.card_insert_of_notMem hself]
  refine Finset.card_le_card (Finset.insert_subset (self_mem_below a) (Finset.biUnion_subset.mpr fun c hc => ?_))
  have hsub : below next c ⊆ below next (next c) := below_subset c
  rw [(hchildren c hc).2] at hsub
  exact hsub

end Mallob.Descendants
