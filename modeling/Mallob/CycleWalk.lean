import Mathlib

namespace Mallob.CycleWalk

variable {α : Type} {f : α → α} {p : α → Bool} {S : Finset α} {x x' y : α} {fuel : Nat}

def walk (f : α → α) (p : α → Bool) : Nat → α → Option α
  | 0, _ => none
  | fuel + 1, x => if p (f x) then some (f x) else walk f p fuel (f x)

theorem walk_eq_some (h : walk f p fuel x = some y) :
    ∃ k < fuel, f^[k + 1] x = y ∧ p y = true ∧ ∀ j < k, p (f^[j + 1] x) = false := by
  induction fuel generalizing x with
  | zero => cases h
  | succ fuel ih =>
      rw [walk] at h
      split at h
      · next hp =>
          obtain rfl := Option.some.inj h
          exact ⟨0, Nat.succ_pos fuel, rfl, hp, by simp⟩
      · next hp =>
          obtain ⟨k, hk, hy, hpy, hbefore⟩ := ih h
          refine ⟨k + 1, by omega, hy, hpy, ?_⟩
          intro j hj
          cases j with
          | zero => simpa using hp
          | succ j => exact hbefore j (by omega)

theorem walk_ends {k : Nat} (hk : k < fuel) (hp : p (f^[k + 1] x) = true) : ∃ y, walk f p fuel x = some y := by
  induction fuel generalizing x k with
  | zero => omega
  | succ fuel ih =>
      rw [walk]
      split
      · exact ⟨_, rfl⟩
      · next hno =>
          cases k with
          | zero => exact absurd hp hno
          | succ k => exact ih (by omega) hp

theorem walk_mono {fuel' : Nat} (h : walk f p fuel x = some y) (hle : fuel ≤ fuel') : walk f p fuel' x = some y := by
  induction fuel generalizing x fuel' with
  | zero => cases h
  | succ fuel ih =>
      obtain ⟨fuel', rfl⟩ : ∃ k, fuel' = k + 1 := ⟨fuel' - 1, by omega⟩
      rw [walk] at h ⊢
      split
      · next hp =>
          rw [if_pos hp] at h
          exact h
      · next hp =>
          rw [if_neg hp] at h
          exact ih h (by omega)

/-- On a finite set which it permutes a function leads every element back to itself. -/
theorem returns (hmaps : Set.MapsTo f S S) (hinj : Set.InjOn f S) (hx : x ∈ S) :
    ∃ k < S.card, f^[k + 1] x = x := by
  have hin : ∀ i, f^[i] x ∈ S := fun i => hmaps.iterate i hx
  have hpigeon : ∃ i j, i < j ∧ j ≤ S.card ∧ f^[i] x = f^[j] x := by
    obtain ⟨i, hi, j, hj, hne, heq⟩ := Finset.exists_ne_map_eq_of_card_lt_of_maps_to
      (s := Finset.range (S.card + 1)) (t := S) (f := fun i => f^[i] x) (by simp) fun i _ => hin i
    rw [Finset.mem_range] at hi hj
    rcases lt_or_gt_of_ne hne with hlt | hgt
    · exact ⟨i, j, hlt, by omega, heq⟩
    · exact ⟨j, i, hgt, by omega, heq.symm⟩
  obtain ⟨i, j, hij, hj, heq⟩ := hpigeon
  obtain ⟨k, rfl⟩ : ∃ k, j = i + (k + 1) := ⟨j - i - 1, by omega⟩
  refine ⟨k, by omega, ?_⟩
  rw [Function.iterate_add_apply] at heq
  exact (hinj.iterate hmaps i hx (hin (k + 1)) heq).symm

theorem walk_total (hmaps : Set.MapsTo f S S) (hinj : Set.InjOn f S) (hx : x ∈ S) (hp : p x = true)
    (hfuel : S.card ≤ fuel) : ∃ y, walk f p fuel x = some y := by
  obtain ⟨k, hk, hreturn⟩ := returns hmaps hinj hx
  exact walk_ends (hk.trans_le hfuel) (by rw [hreturn]; exact hp)

theorem walk_mem (hmaps : Set.MapsTo f S S) (hx : x ∈ S) (h : walk f p fuel x = some y) : y ∈ S ∧ p y = true := by
  obtain ⟨k, _, rfl, hp, _⟩ := walk_eq_some h
  exact ⟨hmaps.iterate (k + 1) hx, hp⟩

/-- Two walks which end at one element have started at the last accepted one before it. -/
theorem walk_injective (hmaps : Set.MapsTo f S S) (hinj : Set.InjOn f S) (hx : x ∈ S) (hx' : x' ∈ S)
    (hp : p x = true) (hp' : p x' = true) (h : walk f p fuel x = some y) (h' : walk f p fuel x' = some y) :
    x = x' := by
  have hback : ∀ {a b : α} {i k : Nat}, a ∈ S → b ∈ S → p a = true → f^[i + 1] a = y → f^[k + 1] b = y →
      (∀ j < k, p (f^[j + 1] b) = false) → i ≤ k → a = b := by
    intro a b i k ha hb hpa hia hkb hbefore hle
    obtain ⟨d, rfl⟩ : ∃ d, k = d + i := ⟨k - i, by omega⟩
    have hsame : f^[i + 1] a = f^[i + 1] (f^[d] b) := by
      rw [hia, ← Function.iterate_add_apply, ← hkb]
      congr 1
      omega
    have heq := hinj.iterate hmaps (i + 1) ha (hmaps.iterate d hb) hsame
    cases d with
    | zero => exact heq
    | succ d =>
        have hno := hbefore d (by omega)
        rw [← heq, hpa] at hno
        cases hno
  obtain ⟨i, _, hi, _, hbefore⟩ := walk_eq_some h
  obtain ⟨k, _, hk, _, hbefore'⟩ := walk_eq_some h'
  rcases Nat.le_total i k with hle | hle
  · exact hback hx hx' hp hi hk hbefore' hle
  · exact (hback hx' hx hp' hk hi hbefore hle).symm

end Mallob.CycleWalk
