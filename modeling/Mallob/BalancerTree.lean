import Mathlib

namespace Mallob.BalancerTree

/-- The loop for the parent rank: the lowest bit set in the rank is cleared. -/
def parentFrom (myRank : Nat) : Nat → Nat → Nat
  | 0, _ => 0
  | fuel + 1, exp =>
      if myRank % exp = exp / 2 ∧ exp / 2 ≤ myRank then myRank - exp / 2 else parentFrom myRank fuel (exp * 2)

def parentRank (myRank : Nat) : Nat := if myRank = 0 then 0 else parentFrom myRank myRank 2

def expFrom (size : Nat) : Nat → Nat → Nat
  | 0, exp => exp
  | fuel + 1, exp => if exp < size then expFrom size fuel (exp * 2) else exp

def childrenFrom (size myRank : Nat) : Nat → Nat → List Nat
  | 0, _ => []
  | fuel + 1, exp =>
      let children := if myRank % exp = 0 ∧ myRank + exp / 2 < size then [myRank + exp / 2] else []
      if exp / 2 = 1 then children else children ++ childrenFrom size myRank fuel (exp / 2)

/-- With a single rank the constructor returns before it looks for children. -/
def childRanks (size myRank : Nat) : List Nat :=
  if size = 1 then [] else childrenFrom size myRank size (expFrom size size 1)

def isRoot (rank : Nat) : Bool := rank == 0

def isLeaf (rank : Nat) : Bool := rank % 2 == 1

theorem parentFrom_eq {k m fuel : Nat} (hm : m % 2 = 1) (i : Nat) (hi : i ≤ k) (hf : k - i < fuel) :
    parentFrom (2 ^ k * m) fuel (2 ^ i * 2) = 2 ^ k * m - 2 ^ k := by
  induction fuel generalizing i with
  | zero => omega
  | succ fuel ih =>
      have hhalf : 2 ^ i * 2 / 2 = 2 ^ i := by omega
      rw [parentFrom, hhalf]
      rcases hi.eq_or_lt with rfl | hlt
      · have hmod : 2 ^ i * m % (2 ^ i * 2) = 2 ^ i := by
          rw [Nat.mul_mod_mul_left, hm, mul_one]
        have hle : 2 ^ i ≤ 2 ^ i * m := Nat.le_mul_of_pos_right _ (by omega)
        rw [if_pos ⟨hmod, hle⟩]
      · have hdvd : 2 ^ i * 2 ∣ 2 ^ k * m := by
          rw [← pow_succ]
          exact Dvd.dvd.mul_right (pow_dvd_pow 2 hlt) m
        have hne : ¬ (2 ^ k * m % (2 ^ i * 2) = 2 ^ i ∧ 2 ^ i ≤ 2 ^ k * m) := by
          rw [Nat.mod_eq_zero_of_dvd hdvd]
          have : 0 < 2 ^ i := by positivity
          omega
        rw [if_neg hne, ← pow_succ]
        exact ih (i + 1) hlt (by omega)

theorem exists_odd {r : Nat} (h : r ≠ 0) : ∃ k m, m % 2 = 1 ∧ r = 2 ^ k * m := by
  obtain ⟨k, m, hm, rfl⟩ := Nat.exists_eq_two_pow_mul_odd h
  exact ⟨k, m, Nat.odd_iff.mp hm, rfl⟩

theorem parentRank_eq {k m : Nat} (hm : m % 2 = 1) : parentRank (2 ^ k * m) = 2 ^ k * m - 2 ^ k := by
  have hpos : 0 < m := by omega
  have hk : k < 2 ^ k := Nat.lt_two_pow_self
  have hle : 2 ^ k ≤ 2 ^ k * m := Nat.le_mul_of_pos_right _ hpos
  rw [parentRank, if_neg (by omega)]
  have h := @parentFrom_eq k m (2 ^ k * m) hm 0 (Nat.zero_le k) (by omega)
  simpa using h

theorem parentRank_lt {r : Nat} (h : r ≠ 0) : parentRank r < r := by
  obtain ⟨k, m, hm, rfl⟩ := exists_odd h
  rw [parentRank_eq hm]
  have : 0 < 2 ^ k := by positivity
  omega

theorem expFrom_eq {size : Nat} (fuel i : Nat) (hf : size ≤ 2 ^ (i + fuel)) (hi : 2 ^ i < size) :
    ∃ k, i < k ∧ k ≤ i + fuel ∧ expFrom size fuel (2 ^ i) = 2 ^ k ∧ size ≤ 2 ^ k := by
  induction fuel generalizing i with
  | zero => rw [Nat.add_zero] at hf; omega
  | succ fuel ih =>
      rw [expFrom, if_pos hi, ← pow_succ]
      by_cases hs : 2 ^ (i + 1) < size
      · obtain ⟨k, hik, hk, he, hle⟩ := ih (i + 1) (by rw [Nat.add_right_comm]; exact hf) hs
        exact ⟨k, by omega, by omega, he, hle⟩
      · refine ⟨i + 1, by omega, by omega, ?_, not_lt.mp hs⟩
        cases fuel with
        | zero => rfl
        | succ fuel => rw [expFrom, if_neg hs]

theorem mem_childrenFrom {size r k fuel : Nat} (hk : 1 ≤ k) (hf : k ≤ fuel) (c : Nat) :
    c ∈ childrenFrom size r fuel (2 ^ k) ↔ ∃ j, 1 ≤ j ∧ j ≤ k ∧ 2 ^ j ∣ r ∧ c = r + 2 ^ (j - 1) ∧ c < size := by
  induction fuel generalizing k with
  | zero => omega
  | succ fuel ih =>
      obtain ⟨k, rfl⟩ : ∃ i, k = i + 1 := ⟨k - 1, by omega⟩
      have hhalf : 2 ^ (k + 1) / 2 = 2 ^ k := by rw [pow_succ]; omega
      have hhead : (c ∈ if r % 2 ^ (k + 1) = 0 ∧ r + 2 ^ k < size then [r + 2 ^ k] else []) ↔
          2 ^ (k + 1) ∣ r ∧ c = r + 2 ^ k ∧ c < size := by
        rw [Nat.dvd_iff_mod_eq_zero]
        split
        · next h =>
            rw [List.mem_singleton]
            constructor
            · rintro rfl; exact ⟨h.1, rfl, h.2⟩
            · rintro ⟨_, hc, _⟩; exact hc
        · next h => simp only [List.not_mem_nil, false_iff]; rintro ⟨h1, rfl, h2⟩; exact h ⟨h1, h2⟩
      rw [childrenFrom, hhalf]
      by_cases h1 : k = 0
      · subst h1
        rw [if_pos (pow_zero 2), hhead]
        constructor
        · rintro h; exact ⟨1, le_rfl, le_rfl, h⟩
        · rintro ⟨j, hj, hj', h⟩
          obtain rfl : j = 1 := by omega
          exact h
      · have hne : 2 ^ k ≠ 1 := by
          have := Nat.one_lt_two_pow h1
          omega
        rw [if_neg hne, List.mem_append, hhead, ih (by omega) (by omega)]
        constructor
        · rintro (h | ⟨j, hj, hj', h⟩)
          · exact ⟨k + 1, by omega, le_rfl, h⟩
          · exact ⟨j, hj, by omega, h⟩
        · rintro ⟨j, hj, hj', h⟩
          rcases hj'.eq_or_lt with rfl | hlt
          · exact Or.inl h
          · exact Or.inr ⟨j, hj, by omega, h⟩

theorem nodup_childrenFrom {size r k fuel : Nat} (hk : 1 ≤ k) (hf : k ≤ fuel) :
    (childrenFrom size r fuel (2 ^ k)).Nodup := by
  induction fuel generalizing k with
  | zero => omega
  | succ fuel ih =>
      obtain ⟨k, rfl⟩ : ∃ i, k = i + 1 := ⟨k - 1, by omega⟩
      have hhalf : 2 ^ (k + 1) / 2 = 2 ^ k := by rw [pow_succ]; omega
      have hhead : (if r % 2 ^ (k + 1) = 0 ∧ r + 2 ^ k < size then [r + 2 ^ k] else []).Nodup := by
        split <;> simp
      rw [childrenFrom, hhalf]
      by_cases h1 : 2 ^ k = 1
      · rw [if_pos h1]; exact hhead
      · have hk1 : 1 ≤ k := by
          rcases Nat.eq_zero_or_pos k with rfl | h
          · exact absurd (pow_zero 2) h1
          · exact h
        rw [if_neg h1]
        refine hhead.append (ih hk1 (by omega)) ?_
        intro c hc hc'
        obtain ⟨j, hj, hj', _, rfl, _⟩ := (mem_childrenFrom hk1 (by omega) c).mp hc'
        have hlt : 2 ^ (j - 1) < 2 ^ k := Nat.pow_lt_pow_right (by norm_num) (by omega)
        split at hc
        · have := List.mem_singleton.mp hc; omega
        · cases hc

theorem firstExp {size : Nat} (h : 2 ≤ size) :
    ∃ k, 1 ≤ k ∧ k ≤ size ∧ expFrom size size 1 = 2 ^ k ∧ size ≤ 2 ^ k := by
  obtain ⟨k, hk, hk', he, hle⟩ := @expFrom_eq size size 0
    (by rw [Nat.zero_add]; exact Nat.lt_two_pow_self.le) (by rw [pow_zero]; omega)
  exact ⟨k, hk, by omega, by simpa using he, hle⟩

theorem nodup_childRanks (size r : Nat) : (childRanks size r).Nodup := by
  rw [childRanks]
  split
  · exact List.nodup_nil
  · next h1 =>
      rcases Nat.lt_or_ge size 2 with h2 | h2
      · obtain rfl : size = 0 := by omega
        exact List.nodup_nil
      · obtain ⟨k, hk, hk', he, _⟩ := firstExp h2
        rw [he]
        exact nodup_childrenFrom hk hk'

theorem mem_childRanks {size r c : Nat} : c ∈ childRanks size r ↔ c ≠ 0 ∧ c < size ∧ parentRank c = r := by
  rcases Nat.lt_or_ge size 2 with h2 | h2
  · have hnil : childRanks size r = [] := by
      rw [childRanks]
      split
      · rfl
      · obtain rfl : size = 0 := by omega
        rfl
    rw [hnil]
    simp only [List.not_mem_nil, false_iff, not_and]
    omega
  · obtain ⟨k, hk, hk', he, hle⟩ := firstExp h2
    rw [childRanks, if_neg (by omega), he, mem_childrenFrom hk hk']
    constructor
    · rintro ⟨j, hj, _, ⟨q, rfl⟩, rfl, hlt⟩
      obtain ⟨i, rfl⟩ : ∃ i, j = i + 1 := ⟨j - 1, by omega⟩
      have hc : 2 ^ (i + 1) * q + 2 ^ (i + 1 - 1) = 2 ^ i * (2 * q + 1) := by
        rw [Nat.add_sub_cancel, pow_succ]; ring
      rw [hc] at hlt ⊢
      refine ⟨by positivity, hlt, ?_⟩
      rw [parentRank_eq (by omega), pow_succ]
      have : 2 ^ i * (2 * q + 1) = 2 ^ i * 2 * q + 2 ^ i := by ring
      omega
    · rintro ⟨hne, hlt, rfl⟩
      obtain ⟨i, m, hm, rfl⟩ := exists_odd hne
      obtain ⟨q, rfl⟩ : ∃ q, m = 2 * q + 1 := ⟨m / 2, by omega⟩
      have hi : 2 ^ i < 2 ^ k := by
        have := Nat.le_mul_of_pos_right (2 ^ i) (Nat.succ_pos (2 * q))
        simp only [Nat.succ_eq_add_one] at this
        omega
      have hik : i < k := (Nat.pow_lt_pow_iff_right (by norm_num)).mp hi
      have hr : parentRank (2 ^ i * (2 * q + 1)) = 2 ^ (i + 1) * q := by
        rw [parentRank_eq (by omega), pow_succ]
        have : 2 ^ i * (2 * q + 1) = 2 ^ i * 2 * q + 2 ^ i := by ring
        omega
      refine ⟨i + 1, by omega, hik, ?_, ?_, hlt⟩
      · rw [hr]; exact Dvd.intro q rfl
      · rw [hr, Nat.add_sub_cancel, pow_succ]; ring

def path (r : Nat) : List Nat := if h : r = 0 then [0] else path (parentRank r) ++ [r]
termination_by r
decreasing_by exact parentRank_lt h

theorem path_zero : path 0 = [0] := by rw [path]; rfl

theorem path_of_ne {r : Nat} (h : r ≠ 0) : path r = path (parentRank r) ++ [r] := by rw [path, dif_neg h]

theorem mem_path_self (r : Nat) : r ∈ path r := by
  by_cases h : r = 0
  · subst h; simp [path_zero]
  · simp [path_of_ne h]

theorem zero_mem_path (r : Nat) : 0 ∈ path r := by
  induction r using Nat.strong_induction_on with
  | _ r ih =>
      by_cases h : r = 0
      · subst h; simp [path_zero]
      · simp [path_of_ne h, ih _ (parentRank_lt h)]

theorem le_of_mem_path {r x : Nat} (h : x ∈ path r) : x ≤ r := by
  induction r using Nat.strong_induction_on with
  | _ r ih =>
      by_cases hr : r = 0
      · subst hr; simpa [path_zero] using h
      · rw [path_of_ne hr] at h
        have hlt := parentRank_lt hr
        rcases List.mem_append.mp h with h | h
        · exact (ih _ hlt h).trans hlt.le
        · exact (List.mem_singleton.mp h).le

theorem path_pairwise (r : Nat) : (path r).Pairwise (· < ·) := by
  induction r using Nat.strong_induction_on with
  | _ r ih =>
      by_cases hr : r = 0
      · subst hr; simp [path_zero]
      · have hlt := parentRank_lt hr
        rw [path_of_ne hr, List.pairwise_append]
        refine ⟨ih _ hlt, List.pairwise_singleton _ _, ?_⟩
        intro a ha b hb
        rw [List.mem_singleton.mp hb]
        exact (le_of_mem_path ha).trans_lt hlt

theorem nodup_path (r : Nat) : (path r).Nodup := (path_pairwise r).imp fun h => h.ne

/-- Below a rank on a path the path goes on as it does for every rank there. -/
theorem path_split {r x : Nat} (h : x ∈ path r) : ∃ below, path r = path x ++ below := by
  induction r using Nat.strong_induction_on with
  | _ r ih =>
      by_cases hr : r = 0
      · subst hr
        obtain rfl : x = 0 := by simpa [path_zero] using h
        exact ⟨[], by simp⟩
      · rw [path_of_ne hr] at h ⊢
        rcases List.mem_append.mp h with h | h
        · obtain ⟨below, hb⟩ := ih _ (parentRank_lt hr) h
          exact ⟨below ++ [r], by rw [hb, List.append_assoc]⟩
        · obtain rfl := List.mem_singleton.mp h
          exact ⟨[], by rw [List.append_nil, path_of_ne hr]⟩

theorem path_last (r : Nat) : ∃ front, path r = front ++ [r] := by
  by_cases h : r = 0
  · subst h; exact ⟨[], path_zero⟩
  · exact ⟨path (parentRank r), path_of_ne h⟩

theorem path_first (r : Nat) : ∃ below, path r = 0 :: below := by
  obtain ⟨below, hb⟩ := path_split (zero_mem_path r)
  exact ⟨below, by rw [hb, path_zero]; rfl⟩

theorem path_edge {r x : Nat} (h : x ∈ path r) (hx : x ≠ 0) :
    ∃ front below, path r = front ++ parentRank x :: x :: below := by
  obtain ⟨below, hb⟩ := path_split h
  obtain ⟨front, hf⟩ := path_last (parentRank x)
  exact ⟨front, below, by rw [hb, path_of_ne hx, hf]; simp⟩

theorem parentRank_mem_path {r x : Nat} (h : x ∈ path r) (hx : x ≠ 0) : parentRank x ∈ path r := by
  obtain ⟨below, hb⟩ := path_split h
  rw [hb, path_of_ne hx]
  simp [mem_path_self]

end Mallob.BalancerTree
