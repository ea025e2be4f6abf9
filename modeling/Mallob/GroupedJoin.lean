import Mathlib

namespace Mallob.GroupedJoin

structure Preference (K G V : Type) [LinearOrder V] where
  group : K → G
  value : K → V
  injective : ∀ a b, group a = group b → value a = value b → a = b

variable {K G V : Type} [DecidableEq G] [LinearOrder V] (p : Preference K G V) {A B C : Finset K}
  {a b : K}

def best (A : Finset K) : Finset K := A.filter fun a => ∀ b ∈ A, p.group b = p.group a → p.value a ≤ p.value b

def Unique (A : Finset K) : Prop := ∀ a ∈ A, ∀ b ∈ A, p.group a = p.group b → a = b

variable {p}

theorem mem_best : a ∈ best p A ↔ a ∈ A ∧ ∀ b ∈ A, p.group b = p.group a → p.value a ≤ p.value b := Finset.mem_filter

theorem best_subset (A : Finset K) : best p A ⊆ A := Finset.filter_subset _ _

theorem unique_best (A : Finset K) : Unique p (best p A) := by
  intro a ha b hb heq
  obtain ⟨ha, hmina⟩ := mem_best.mp ha
  obtain ⟨hb, hminb⟩ := mem_best.mp hb
  exact p.injective a b heq (le_antisymm (hmina b hb heq.symm) (hminb a ha heq))

theorem exists_best (ha : a ∈ A) : ∃ b ∈ best p A, p.group b = p.group a ∧ p.value b ≤ p.value a := by
  obtain ⟨b, hb, hmin⟩ := (A.filter fun b => p.group b = p.group a).exists_min_image p.value
    ⟨a, Finset.mem_filter.mpr ⟨ha, rfl⟩⟩
  obtain ⟨hb, hgroup⟩ := Finset.mem_filter.mp hb
  refine ⟨b, mem_best.mpr ⟨hb, fun c hc heq => ?_⟩, hgroup, hmin a (Finset.mem_filter.mpr ⟨ha, rfl⟩)⟩
  exact hmin c (Finset.mem_filter.mpr ⟨hc, heq.trans hgroup⟩)

theorem best_eq_self_iff : best p A = A ↔ Unique p A := by
  constructor
  · intro h
    rw [← h]
    exact unique_best A
  · intro h
    refine Finset.Subset.antisymm (best_subset A) fun a ha => mem_best.mpr ⟨ha, fun b hb heq => ?_⟩
    rw [h b hb a ha heq]

variable [DecidableEq K]

def join (p : Preference K G V) (A B : Finset K) : Finset K := best p (A ∪ B)

/-- What is not preferred in its part need not be looked at in the whole. -/
theorem best_union_best (A B : Finset K) : best p (best p A ∪ B) = best p (A ∪ B) := by
  ext a
  rw [mem_best, mem_best, Finset.mem_union, Finset.mem_union]
  constructor
  · rintro ⟨ha, hmin⟩
    refine ⟨ha.imp_left fun h => best_subset A h, fun b hb heq => ?_⟩
    rcases Finset.mem_union.mp hb with hb | hb
    · obtain ⟨c, hc, hcb, hle⟩ := exists_best (p := p) hb
      exact (hmin c (Finset.mem_union_left _ hc) (hcb.trans heq)).trans hle
    · exact hmin b (Finset.mem_union_right _ hb) heq
  · rintro ⟨ha, hmin⟩
    have hsub : best p A ∪ B ⊆ A ∪ B := Finset.union_subset_union_left (best_subset A)
    refine ⟨ha.imp_left fun h => mem_best.mpr ⟨h, fun b hb => hmin b (Finset.mem_union_left _ hb)⟩, fun b hb => ?_⟩
    exact hmin b (hsub hb)

theorem join_comm (A B : Finset K) : join p A B = join p B A := by rw [join, join, Finset.union_comm]

theorem join_assoc (A B C : Finset K) : join p (join p A B) C = join p A (join p B C) := by
  rw [join_comm A (join p B C)]
  simp only [join, best_union_best]
  congr 1
  ext a
  simp only [Finset.mem_union]
  tauto

theorem join_self (A : Finset K) : join p A A = best p A := by rw [join, Finset.union_self]

theorem join_join_right (A B : Finset K) : join p (join p A B) B = join p A B := by
  simp only [join, best_union_best]
  rw [Finset.union_assoc, Finset.union_self]

end Mallob.GroupedJoin
