import Mathlib

namespace Mallob.Walks

variable {V : Type} {E : V → V → Prop}

def Walk (E : V → V → Prop) : Nat → V → V → Prop
  | 0, a, b => a = b
  | k + 1, a, b => ∃ c, E a c ∧ Walk E k c b

@[simp] theorem walk_zero {a b : V} : Walk E 0 a b ↔ a = b := Iff.rfl

theorem walk_succ_iff {k : Nat} {a b : V} : Walk E (k + 1) a b ↔ ∃ c, Walk E k a c ∧ E c b := by
  induction k generalizing a with
  | zero => simp [Walk]
  | succ k ih =>
      constructor
      · rintro ⟨c, hac, hcb⟩
        obtain ⟨d, hcd, hdb⟩ := ih.mp hcb
        exact ⟨d, ⟨c, hac, hcd⟩, hdb⟩
      · rintro ⟨d, ⟨c, hac, hcd⟩, hdb⟩
        exact ⟨c, hac, ih.mpr ⟨d, hcd, hdb⟩⟩

theorem walk_iterate {p : V → V} (hp : ∀ a, E a (p a)) (k : Nat) (a : V) : Walk E k a (p^[k] a) := by
  induction k generalizing a with
  | zero => rfl
  | succ k ih => exact ⟨p a, hp a, ih (p a)⟩

noncomputable def dist (E : V → V → Prop) (a b : V) : Nat := sInf { k | Walk E k a b }

theorem dist_le {k : Nat} {a b : V} (h : Walk E k a b) : dist E a b ≤ k := Nat.sInf_le h

theorem walk_dist {k : Nat} {a b : V} (h : Walk E k a b) : Walk E (dist E a b) a b :=
  Nat.sInf_mem (s := { k | Walk E k a b }) ⟨k, h⟩

@[simp] theorem dist_self (a : V) : dist E a a = 0 := Nat.le_zero.mp (dist_le (by simp))

theorem dist_first_edge {k : Nat} {a b c : V} (hac : E a c) (hcb : Walk E k c b)
    (hmin : ∀ j, Walk E j a b → k + 1 ≤ j) : dist E c b + 1 = dist E a b := by
  have hab : Walk E (k + 1) a b := ⟨c, hac, hcb⟩
  have hab' : Walk E (dist E c b + 1) a b := ⟨c, hac, walk_dist hcb⟩
  have hlow := hmin _ hab'
  have hlow' := hmin _ (walk_dist hab)
  have hup := dist_le hab
  have hup' := dist_le hcb
  omega

structure SingleCycle (p : V → V) : Prop where
  bijective : p.Bijective
  reaches : ∀ a b, ∃ k, p^[k] a = b

theorem SingleCycle.of_reaches [Finite V] {p : V → V} (h : ∀ a b, ∃ k, p^[k] a = b) : SingleCycle p := by
  have hsurj : p.Surjective := by
    intro b
    obtain ⟨k, hk⟩ := h (p b) b
    rw [← Function.iterate_succ_apply, Function.iterate_succ_apply'] at hk
    exact ⟨_, hk⟩
  exact ⟨Finite.surjective_iff_bijective.mp hsurj, h⟩

theorem SingleCycle.ne_self [Nontrivial V] {p : V → V} (h : SingleCycle p) (a : V) : p a ≠ a := by
  intro hfix
  obtain ⟨b, hb⟩ := exists_ne a
  obtain ⟨k, hk⟩ := h.reaches a b
  rw [Function.iterate_fixed hfix k] at hk
  exact hb hk.symm

theorem SingleCycle.reaches_within [Fintype V] {p : V → V} (h : SingleCycle p) (a b : V) :
    ∃ k < Fintype.card V, p^[k] a = b := by
  obtain ⟨k, hk⟩ := h.reaches a b
  have hperiodic : a ∈ Function.periodicPts p := by
    rw [Function.mem_periodicPts]
    obtain ⟨m, hm⟩ := h.reaches (p a) a
    exact ⟨m + 1, by omega, hm⟩
  refine ⟨k % Function.minimalPeriod p a, ?_, ?_⟩
  · exact (Nat.mod_lt _ (Function.minimalPeriod_pos_of_mem_periodicPts hperiodic)).trans_le
      Function.minimalPeriod_le_card
  · rw [Function.iterate_mod_minimalPeriod_eq, hk]

section Descent

variable {μ : V → Nat} {next : V → V} {root : V}

theorem descent_iterate (h : ∀ a, a ≠ root → μ (next a) + 1 = μ a) (hroot : μ root = 0) {a : V} {i : Nat}
    (hi : i ≤ μ a) : μ (next^[i] a) + i = μ a := by
  induction i with
  | zero => rfl
  | succ i ih =>
      have hprev := ih (by omega)
      have hne : next^[i] a ≠ root := by
        intro heq
        rw [heq, hroot] at hprev
        omega
      have hstep := h _ hne
      rw [Function.iterate_succ_apply']
      omega

/-- Where every step lowers the measure by one, the root is reached and no
place is met twice on the way. -/
theorem descent_reaches (h : ∀ a, a ≠ root → μ (next a) + 1 = μ a) (hroot : μ root = 0) (a : V) :
    next^[μ a] a = root ∧ ∀ i j, i ≤ μ a → j ≤ μ a → next^[i] a = next^[j] a → i = j := by
  constructor
  · by_contra hne
    have hend := descent_iterate h hroot (a := a) le_rfl
    have hstep := h _ hne
    omega
  · intro i j hi hj heq
    have hi' := descent_iterate h hroot hi
    have hj' := descent_iterate h hroot hj
    rw [heq] at hi'
    omega

end Descent

end Mallob.Walks
