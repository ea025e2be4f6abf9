import Mathlib

namespace Mallob.Renumbering

/-- The number of a place when the listed places are skipped. -/
def up : List Nat → Nat → Nat
  | [], a => a
  | e :: es, a => if e > a then a else up es (a + 1)

def down : List Nat → Nat → Nat → Option Nat
  | [], b, shift => some (b - shift)
  | e :: es, b, shift => if e ≥ b then (if e = b then none else some (b - shift)) else down es b (shift + 1)

variable {es : List Nat} {a b : Nat}

theorem le_up (es : List Nat) (a : Nat) : a ≤ up es a := by
  induction es generalizing a with
  | nil => exact le_rfl
  | cons e es ih =>
      rw [up]
      split
      · exact le_rfl
      · exact (Nat.le_succ a).trans (ih (a + 1))

theorem up_le (es : List Nat) (a : Nat) : up es a ≤ a + es.length := by
  induction es generalizing a with
  | nil => exact le_rfl
  | cons e es ih =>
      rw [up, List.length_cons]
      split
      · omega
      · have := ih (a + 1)
        omega

theorem up_zero (hpos : ∀ e ∈ es, 0 < e) : up es 0 = 0 := by
  cases es with
  | nil => rfl
  | cons e es => rw [up, if_pos (hpos e (by simp))]

theorem up_strictMono (es : List Nat) : StrictMono (up es) := by
  apply strictMono_nat_of_lt_succ
  intro a
  induction es generalizing a with
  | nil => exact Nat.lt_succ_self a
  | cons e es ih =>
      rw [up, up]
      split
      · split
        · exact Nat.lt_succ_self a
        · exact (Nat.lt_succ_self a).trans (Nat.lt_of_lt_of_le (Nat.lt_succ_self _) (le_up es _))
      · rw [if_neg (by omega)]
        exact ih (a + 1)

theorem up_not_mem (hsorted : es.Pairwise (· < ·)) (a : Nat) : up es a ∉ es := by
  induction es generalizing a with
  | nil => simp
  | cons e es ih =>
      obtain ⟨he, hes⟩ := List.pairwise_cons.mp hsorted
      rw [up]
      split
      · next hlt =>
          intro hmem
          rcases List.mem_cons.mp hmem with rfl | hmem
          · omega
          · have := he a hmem
            omega
      · next hge =>
          have hle := le_up es (a + 1)
          intro hmem
          rcases List.mem_cons.mp hmem with heq | hmem
          · omega
          · exact ih hes (a + 1) hmem

theorem down_up (es : List Nat) (a shift : Nat) : down es (up es a) shift = some (a - shift) := by
  induction es generalizing a shift with
  | nil => rfl
  | cons e es ih =>
      rw [up]
      split
      · rw [down, if_pos (by omega), if_neg (by omega)]
      · have hle := le_up es (a + 1)
        rw [down, if_neg (by omega), ih]
        exact congrArg some (by omega)

theorem up_of_down {shift : Nat} (hsorted : es.Pairwise (· < ·)) (hpos : ∀ e ∈ es, shift < e) (hb : shift ≤ b)
    (h : down es b shift = some a) : up es (a + shift) = b := by
  induction es generalizing shift with
  | nil =>
      obtain rfl := Option.some.inj h
      exact Nat.sub_add_cancel hb
  | cons e es ih =>
      obtain ⟨he, hes⟩ := List.pairwise_cons.mp hsorted
      have hshift := hpos e (by simp)
      rw [down] at h
      split at h
      · split at h
        · cases h
        · obtain rfl := Option.some.inj h
          rw [Nat.sub_add_cancel hb, up, if_pos (by omega)]
      · next hlt =>
          have hrest : up es (a + (shift + 1)) = b := by
            refine ih hes ?_ (by omega) h
            intro e' he'
            have := he e' he'
            omega
          have hup := up_strictMono es
          have hge : e ≤ a + shift := by
            by_contra hlt'
            have hle : a + (shift + 1) ≤ e := by omega
            have hmono := hup.monotone hle
            have hself : up es e = e := by
              cases es with
              | nil => rfl
              | cons e' es' => rw [up, if_pos (he e' (by simp))]
            omega
          rw [up, if_neg (by omega)]
          exact hrest

theorem down_eq_none_iff {shift : Nat} (hsorted : es.Pairwise (· < ·)) : down es b shift = none ↔ b ∈ es := by
  induction es generalizing shift with
  | nil => simp [down]
  | cons e es ih =>
      obtain ⟨he, hes⟩ := List.pairwise_cons.mp hsorted
      rw [down]
      split
      · next hge =>
          have hnot : b ∉ es := by
            intro hmem
            have := he b hmem
            omega
          by_cases heq : e = b
          · simp [heq]
          · simp [heq, hnot, Ne.symm heq]
      · next hlt =>
          rw [ih hes, List.mem_cons]
          exact ⟨Or.inr, fun h => h.resolve_left (by omega)⟩

theorem up_append {e : Nat} (h : up es a < e) : up (es ++ [e]) a = up es a := by
  induction es generalizing a with
  | nil => exact if_pos h
  | cons e' es ih =>
      rw [List.cons_append, up, up]
      rw [up] at h
      split
      · rfl
      · next hge =>
          rw [if_neg hge] at h
          exact ih h

end Mallob.Renumbering
