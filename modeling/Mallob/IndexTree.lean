import Mathlib

namespace Mallob.IndexTree

/-- The descendants of an index, itself included, where the children of an
index k are 2k+1 and 2k+2. -/
inductive Below (root : Nat) : Nat → Prop
  | self : Below root root
  | left {k : Nat} : Below root k → Below root (2 * k + 1)
  | right {k : Nat} : Below root k → Below root (2 * k + 2)

def StrictlyBelow (root k : Nat) : Prop := Below (2 * root + 1) k ∨ Below (2 * root + 2) k

def first (root layer : Nat) : Nat := 2 ^ layer * (root + 1) - 1

def last (root layer : Nat) : Nat := 2 ^ layer * (root + 2) - 2

variable {root k t t' : Nat}

theorem first_add_one (root t : Nat) : first root t + 1 = 2 ^ t * (root + 1) := by
  have : 0 < 2 ^ t * (root + 1) := by positivity
  rw [first]
  omega

theorem last_add_two (root t : Nat) : last root t + 2 = 2 ^ t * (root + 2) := by
  have : 2 ≤ 2 ^ t * (root + 2) := by
    calc 2 ≤ root + 2 := by omega
      _ ≤ 2 ^ t * (root + 2) := Nat.le_mul_of_pos_left _ (by positivity)
  rw [last]
  omega

@[simp] theorem first_zero (root : Nat) : first root 0 = root := by simp [first]

@[simp] theorem last_zero (root : Nat) : last root 0 = root := by simp [last]

theorem first_succ (root t : Nat) : first root (t + 1) = 2 * first root t + 1 := by
  have h := first_add_one root t
  have h' := first_add_one root (t + 1)
  rw [pow_succ'] at h'
  have : 2 * 2 ^ t * (root + 1) = 2 * (2 ^ t * (root + 1)) := by ring
  omega

theorem last_succ (root t : Nat) : last root (t + 1) = 2 * last root t + 2 := by
  have h := last_add_two root t
  have h' := last_add_two root (t + 1)
  rw [pow_succ'] at h'
  have : 2 * 2 ^ t * (root + 2) = 2 * (2 ^ t * (root + 2)) := by ring
  omega

theorem first_le_last (root t : Nat) : first root t ≤ last root t := by
  have h := first_add_one root t
  have h' := last_add_two root t
  have : 0 < 2 ^ t := by positivity
  rw [Nat.mul_add] at h h'
  omega

theorem last_lt_first (root : Nat) (h : t < t') : last root t < first root t' := by
  induction t' with
  | zero => omega
  | succ t' ih =>
      rw [first_succ]
      rcases Nat.lt_succ_iff_lt_or_eq.mp h with hlt | rfl
      · have := ih hlt
        omega
      · have h1 := first_add_one root t
        have h2 := last_add_two root t
        have hle : 2 ^ t * (root + 2) ≤ 2 ^ t * (2 * (root + 1)) := Nat.mul_le_mul_left _ (by omega)
        have heq : 2 ^ t * (2 * (root + 1)) = 2 * (2 ^ t * (root + 1)) := by ring
        omega

theorem below_iff : Below root k ↔ ∃ t, first root t ≤ k ∧ k ≤ last root t := by
  constructor
  · intro h
    induction h with
    | self => exact ⟨0, by simp⟩
    | left _ ih =>
        obtain ⟨t, hf, hl⟩ := ih
        exact ⟨t + 1, by rw [first_succ]; omega, by rw [last_succ]; omega⟩
    | right _ ih =>
        obtain ⟨t, hf, hl⟩ := ih
        exact ⟨t + 1, by rw [first_succ]; omega, by rw [last_succ]; omega⟩
  · rintro ⟨t, hf, hl⟩
    induction t generalizing k with
    | zero =>
        rw [first_zero] at hf
        rw [last_zero] at hl
        obtain rfl : k = root := le_antisymm hl hf
        exact .self
    | succ t ih =>
        rw [first_succ] at hf
        rw [last_succ] at hl
        rcases Nat.even_or_odd' k with ⟨j, rfl | rfl⟩
        · have hj := @ih (j - 1) (by omega) (by omega)
          have heq : 2 * j = 2 * (j - 1) + 2 := by omega
          rw [heq]
          exact .right hj
        · exact .left (ih (by omega) (by omega))

theorem first_left (root t : Nat) : first (2 * root + 1) t = first root (t + 1) := by
  rw [first, first, pow_succ]
  congr 1
  ring

theorem last_right (root t : Nat) : last (2 * root + 2) t = last root (t + 1) := by
  rw [last, last, pow_succ]
  congr 1
  ring

theorem last_left_add_one (root t : Nat) : last (2 * root + 1) t + 1 = first (2 * root + 2) t := by
  have h1 := first_add_one (2 * root + 2) t
  have h2 := last_add_two (2 * root + 1) t
  have heq : 2 ^ t * (2 * root + 1 + 2) = 2 ^ t * (2 * root + 2 + 1) := by ring
  omega

/-- The strict descendants are those in the layers after the first one. -/
theorem strictlyBelow_iff : StrictlyBelow root k ↔ ∃ t, 1 ≤ t ∧ first root t ≤ k ∧ k ≤ last root t := by
  rw [StrictlyBelow, below_iff, below_iff]
  constructor
  · rintro (⟨t, hf, hl⟩ | ⟨t, hf, hl⟩)
    · have h1 := last_left_add_one root t
      have h2 := first_le_last (2 * root + 2) t
      exact ⟨t + 1, by omega, by rw [← first_left]; exact hf, by rw [← last_right]; omega⟩
    · have h1 := last_left_add_one root t
      have h2 := first_le_last (2 * root + 1) t
      exact ⟨t + 1, by omega, by rw [← first_left]; omega, by rw [← last_right]; exact hl⟩
  · rintro ⟨t, ht, hf, hl⟩
    obtain ⟨t, rfl⟩ : ∃ j, t = j + 1 := ⟨t - 1, by omega⟩
    rw [← first_left] at hf
    rw [← last_right] at hl
    have h1 := last_left_add_one root t
    rcases Nat.lt_or_ge k (first (2 * root + 2) t) with hlt | hge
    · exact Or.inl ⟨t, hf, by omega⟩
    · exact Or.inr ⟨t, hge, hl⟩

theorem le_of_below (h : Below root k) : root ≤ k := by
  induction h with
  | self => exact le_rfl
  | left _ ih => omega
  | right _ ih => omega

/-- The one layer that can hold an index is the first that reaches as far. -/
theorem mem_layer_iff {start : Nat} (hstart : start ≤ t) (hreach : k ≤ last root t)
    (hbefore : ∀ j, start ≤ j → j < t → last root j < k) :
    first root t ≤ k ↔ ∃ t', start ≤ t' ∧ first root t' ≤ k ∧ k ≤ last root t' := by
  constructor
  · intro hf
    exact ⟨t, hstart, hf, hreach⟩
  · rintro ⟨t', hstart', hf, hl⟩
    rcases lt_trichotomy t' t with hlt | rfl | hgt
    · have := hbefore t' hstart' hlt
      omega
    · exact hf
    · have := last_lt_first root hgt
      omega

end Mallob.IndexTree
