import Mathlib

namespace Mallob.Bisection

inductive Outcome
  | exact (x : ℚ)
  | narrow (lower upper : ℚ)
deriving DecidableEq, Repr

structure Run where
  trail : List (ℚ × ℚ)
  outcome : Outcome
deriving DecidableEq, Repr

/-- The function stays below the target at the lower end and exceeds it at the
upper end of a nonempty range. -/
structure Brackets (f : ℚ → ℤ) (a : ℤ) (lower upper : ℚ) : Prop where
  lt : lower < upper
  below : f lower < a
  above : a < f upper

variable (f : ℚ → ℤ) (a : ℤ) (stop : ℚ → ℚ → Bool) (next : ℚ → ℚ → ℚ → Bool → ℚ)

def raised (lower mid : ℚ) : ℚ := if f mid < a then mid else lower

def lowered (upper mid : ℚ) : ℚ := if a < f mid then mid else upper

/-- Search for a point where f hits the target, on ranges which shrink to the
side of the probe where the target lies. -/
def bisect : Nat → ℚ → ℚ → ℚ → Option Run
  | 0, _, _, _ => none
  | fuel + 1, lower, upper, mid =>
      if f mid = a then some ⟨[(lower, upper)], .exact mid⟩
      else if stop lower upper then some ⟨[(lower, upper)], .narrow lower upper⟩
      else (bisect fuel (raised f a lower mid) (lowered f a upper mid)
          (next mid (raised f a lower mid) (lowered f a upper mid) (decide (f mid < a)))).map
        fun r => { r with trail := (lower, upper) :: r.trail }

variable {f a stop next} {lower upper mid : ℚ}

theorem Brackets.shrink (h : Brackets f a lower upper) (hl : lower < mid) (hu : mid < upper) (hne : f mid ≠ a) :
    Brackets f a (raised f a lower mid) (lowered f a upper mid) := by
  rcases lt_or_gt_of_ne hne with hlt | hgt
  · rw [raised, lowered, if_pos hlt, if_neg hlt.not_gt]
    exact ⟨hu, hlt, h.above⟩
  · rw [raised, lowered, if_neg hgt.not_gt, if_pos hgt]
    exact ⟨hl, h.below, hgt⟩

theorem shrink_cases (lower upper : ℚ) (hne : f mid ≠ a) :
    (raised f a lower mid = mid ∧ lowered f a upper mid = upper ∧ f mid < a) ∨
    (raised f a lower mid = lower ∧ lowered f a upper mid = mid ∧ a < f mid) := by
  rcases lt_or_gt_of_ne hne with hlt | hgt
  · left; simp [raised, lowered, hlt, hlt.not_gt]
  · right; simp [raised, lowered, hgt, hgt.not_gt]

/-- Probing the middle of a range halves it, so a range below δ·2ⁿ is narrower
than δ after n probes. -/
theorem bisect_halving (first δ : ℚ) (hδ : ∀ lower upper, upper - lower < δ → stop lower upper = true)
    (hmid : ∀ lower upper mid up, mid ≠ first → next mid lower upper up = (lower + upper) / 2)
    (n fuel : Nat) (hfuel : n + 1 ≤ fuel) (lower upper : ℚ) (hlt : lower < upper)
    (hside : first ≤ lower ∨ upper ≤ first) (hw : upper - lower < δ * 2 ^ n) :
    ∃ r, bisect f a stop next fuel lower upper ((lower + upper) / 2) = some r := by
  induction n generalizing fuel lower upper with
  | zero =>
      obtain ⟨fuel, rfl⟩ : ∃ k, fuel = k + 1 := ⟨fuel - 1, by omega⟩
      rw [bisect]
      split
      · exact ⟨_, rfl⟩
      · rw [if_pos (hδ lower upper (by simpa using hw))]
        exact ⟨_, rfl⟩
  | succ n ih =>
      obtain ⟨fuel, rfl⟩ : ∃ k, fuel = k + 1 := ⟨fuel - 1, by omega⟩
      have hne : (lower + upper) / 2 ≠ first := by
        rcases hside with h | h
        · intro he; linarith
        · intro he; linarith
      have hpow : δ * 2 ^ (n + 1) = 2 * (δ * 2 ^ n) := by ring
      rw [bisect]
      split
      · exact ⟨_, rfl⟩
      · next hf =>
          split
          · exact ⟨_, rfl⟩
          · rw [hmid _ _ _ _ hne]
            rcases shrink_cases lower upper hf with ⟨hr, hlo, _⟩ | ⟨hr, hlo, _⟩
            · rw [hr, hlo]
              obtain ⟨r, hr⟩ := ih fuel (by omega) ((lower + upper) / 2) upper (by linarith)
                (by rcases hside with h | h
                    · left; linarith
                    · right; exact h) (by linarith)
              exact ⟨_, by rw [hr]; rfl⟩
            · rw [hr, hlo]
              obtain ⟨r, hr⟩ := ih fuel (by omega) lower ((lower + upper) / 2) (by linarith)
                (by rcases hside with h | h
                    · left; exact h
                    · right; linarith) (by linarith)
              exact ⟨_, by rw [hr]; rfl⟩

/-- A search which probes the given first point, then any point inside, and
from then on the middle of the range ends, given enough fuel. -/
theorem bisect_terminates (first δ : ℚ) (hδpos : 0 < δ)
    (hδ : ∀ lower upper, upper - lower < δ → stop lower upper = true)
    (hmid : ∀ lower upper mid up, mid ≠ first → next mid lower upper up = (lower + upper) / 2)
    (hlo : lower < first) (hup : first < upper)
    (hin : f first ≠ a →
      raised f a lower first < next first (raised f a lower first) (lowered f a upper first) (decide (f first < a)) ∧
      next first (raised f a lower first) (lowered f a upper first) (decide (f first < a)) < lowered f a upper first) :
    ∃ N, ∀ fuel, N ≤ fuel → ∃ r, bisect f a stop next fuel lower upper first = some r := by
  obtain ⟨n, hn⟩ := pow_unbounded_of_one_lt ((upper - lower) / δ) (by norm_num : (1 : ℚ) < 2)
  have hw : upper - lower < δ * 2 ^ n := by
    have := (div_lt_iff₀ hδpos).mp hn
    linarith
  refine ⟨n + 3, ?_⟩
  intro fuel hfuel
  obtain ⟨fuel, rfl⟩ : ∃ k, fuel = k + 2 := ⟨fuel - 2, by omega⟩
  rw [bisect]
  split
  · exact ⟨_, rfl⟩
  · next hf =>
      split
      · exact ⟨_, rfl⟩
      · obtain ⟨hin1, hin2⟩ := hin hf
        generalize next first (raised f a lower first) (lowered f a upper first)
          (decide (f first < a)) = second at hin1 hin2 ⊢
        have hside : first ≤ raised f a lower first ∧ lowered f a upper first ≤ upper ∨
            lower ≤ raised f a lower first ∧ lowered f a upper first ≤ first := by
          rcases shrink_cases lower upper hf with ⟨h1, h2, _⟩ | ⟨h1, h2, _⟩
          · left; rw [h1, h2]; exact ⟨le_rfl, le_rfl⟩
          · right; rw [h1, h2]; exact ⟨le_rfl, le_rfl⟩
        generalize raised f a lower first = l at hin1 hin2 hside ⊢
        generalize lowered f a upper first = u at hin1 hin2 hside ⊢
        have hne : second ≠ first := by
          rcases hside with h | h
          · exact (h.1.trans_lt hin1).ne'
          · exact (hin2.trans_le h.2).ne
        rw [bisect]
        split
        · exact ⟨_, rfl⟩
        · next hf' =>
            split
            · exact ⟨_, rfl⟩
            · rw [hmid _ _ _ _ hne]
              rcases shrink_cases l u hf' with ⟨h1, h2, _⟩ | ⟨h1, h2, _⟩
              · rw [h1, h2]
                obtain ⟨r, hr⟩ := bisect_halving first δ hδ hmid n fuel (by omega) second u hin2
                  (by rcases hside with h | h
                      · left; linarith [h.1]
                      · right; exact h.2)
                  (by rcases hside with h | h <;> linarith [h.1, h.2])
                exact ⟨_, by rw [hr]; rfl⟩
              · rw [h1, h2]
                obtain ⟨r, hr⟩ := bisect_halving first δ hδ hmid n fuel (by omega) l second hin1
                  (by rcases hside with h | h
                      · left; exact h.1
                      · right; linarith [h.2])
                  (by rcases hside with h | h <;> linarith [h.1, h.2])
                exact ⟨_, by rw [hr]; rfl⟩

/-- What every cut inside the range keeps holds of the range in which the search ends, and all ranges searched before
contain this one. -/
theorem bisect_narrow {I : ℚ → ℚ → ℚ → Prop} (hinside : ∀ lower mid upper, I lower mid upper → lower < mid ∧ mid < upper)
    (hcut : ∀ lower mid upper, I lower mid upper → f mid ≠ a → stop lower upper = false →
      I (raised f a lower mid)
        (next mid (raised f a lower mid) (lowered f a upper mid) (decide (f mid < a))) (lowered f a upper mid))
    {fuel : Nat} {trail : List (ℚ × ℚ)} {l u : ℚ} (h : I lower mid upper)
    (hrun : bisect f a stop next fuel lower upper mid = some ⟨trail, .narrow l u⟩) :
    (∃ m, I l m u) ∧ stop l u = true ∧ lower ≤ l ∧ u ≤ upper ∧ ∀ p ∈ trail, p.1 ≤ l ∧ u ≤ p.2 := by
  induction fuel generalizing lower upper mid trail with
  | zero => cases hrun
  | succ fuel ih =>
      rw [bisect] at hrun
      by_cases hexact : f mid = a
      · rw [if_pos hexact] at hrun
        cases hrun
      · rw [if_neg hexact] at hrun
        by_cases hstop : stop lower upper = true
        · rw [if_pos hstop] at hrun
          cases hrun
          exact ⟨⟨mid, h⟩, hstop, le_rfl, le_rfl, fun p hp => by rw [List.mem_singleton.mp hp]; exact ⟨le_rfl, le_rfl⟩⟩
        · rw [if_neg hstop] at hrun
          obtain ⟨⟨rest, outcome⟩, hrest, heq⟩ := Option.map_eq_some_iff.mp hrun
          obtain ⟨rfl, rfl⟩ : (lower, upper) :: rest = trail ∧ outcome = .narrow l u := by simpa using heq
          obtain ⟨hl, hu⟩ := hinside lower mid upper h
          obtain ⟨hlast, hfinal, hlower, hupper, hall⟩ :=
            ih (hcut lower mid upper h hexact (by simpa using hstop)) hrest
          have hnext : lower ≤ raised f a lower mid ∧ lowered f a upper mid ≤ upper := by
            rcases shrink_cases lower upper hexact with ⟨hr, hw, -⟩ | ⟨hr, hw, -⟩
            · rw [hr, hw]
              exact ⟨hl.le, le_rfl⟩
            · rw [hr, hw]
              exact ⟨le_rfl, hu.le⟩
          have hfirst : lower ≤ l ∧ u ≤ upper := ⟨hnext.1.trans hlower, hupper.trans hnext.2⟩
          exact ⟨hlast, hfinal, hfirst.1, hfirst.2, List.forall_mem_cons.mpr ⟨hfirst, hall⟩⟩

theorem bisect_fuel_mono {fuel fuel' : Nat} (hle : fuel ≤ fuel') {r : Run}
    (h : bisect f a stop next fuel lower upper mid = some r) :
    bisect f a stop next fuel' lower upper mid = some r := by
  induction fuel generalizing fuel' lower upper mid r with
  | zero => cases h
  | succ fuel ih =>
      obtain ⟨fuel', rfl⟩ : ∃ k, fuel' = k + 1 := ⟨fuel' - 1, by omega⟩
      rw [bisect] at h ⊢
      split at h
      · next hf => rw [if_pos hf]; exact h
      · next hf =>
          rw [if_neg hf]
          split at h
          · next hs => rw [if_pos hs]; exact h
          · next hs =>
              rw [if_neg hs]
              obtain ⟨q, hq, rfl⟩ := Option.map_eq_some_iff.mp h
              rw [ih (by omega) hq, Option.map_some]

end Mallob.Bisection
