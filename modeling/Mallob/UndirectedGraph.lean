import Mallob.ExpanderGraph

namespace Mallob

namespace AdjustablePermutation

variable {n : Nat}

def wrapped (pos : Fin n) (x : Int) : Fin n :=
  ⟨(x % n).toNat, by
    have hpos : (0 : Int) < n := by exact_mod_cast pos.pos
    have := Int.emod_lt_of_pos x hpos
    have := Int.emod_nonneg x hpos.ne'
    omega⟩

def offset (n degree i : Nat) : Nat := 1 + i * max 1 (n / (degree - 1))

/-- Neighbours at fixed distances in both directions. A failed assertion and a
rank that no position holds are none. -/
def createUndirectedExpanderGraph (p : AdjustablePermutation n) (degree : Nat) (myRank : Fin n) :
    Option (List (Fin n)) :=
  if degree % 2 = 0 then
    ((List.finRange n).find? fun pos => p.get pos = myRank).map fun myIndex =>
      (List.range (degree / 2)).flatMap fun i =>
        [p.get (wrapped myIndex (n + myIndex + offset n degree i)),
          p.get (wrapped myIndex (n + myIndex - offset n degree i))]
  else none

end AdjustablePermutation

namespace UndirectedGraph

open AdjustablePermutation ExpanderGraph Walks

variable {n degree : Nat}

def distances (n degree : Nat) : List Int :=
  (List.range (degree / 2)).flatMap fun i => [(offset n degree i : Int), -(offset n degree i : Int)]

theorem mem_distances {d : Int} : d ∈ distances n degree ↔
    ∃ i < degree / 2, d = offset n degree i ∨ d = -(offset n degree i : Int) := by
  simp [distances]

theorem neg_mem_distances {d : Int} (h : d ∈ distances n degree) : -d ∈ distances n degree := by
  obtain ⟨i, hi, rfl | rfl⟩ := mem_distances.mp h
  · exact mem_distances.mpr ⟨i, hi, Or.inr rfl⟩
  · exact mem_distances.mpr ⟨i, hi, Or.inl (neg_neg _)⟩

theorem length_distances (hdegree : degree % 2 = 0) : (distances n degree).length = degree := by
  rw [distances, List.length_flatMap]
  simp only [List.length_cons, List.length_nil, List.map_const', List.length_range, List.sum_replicate, smul_eq_mul]
  omega

theorem offset_lt_offset {i j : Nat} (h : i < j) : offset n degree i < offset n degree j := by
  have hstep : 0 < max 1 (n / (degree - 1)) := by omega
  have := Nat.mul_lt_mul_of_pos_right h hstep
  simp only [offset]
  omega

theorem nodup_distances (n degree : Nat) : (distances n degree).Nodup := by
  rw [distances, List.nodup_flatMap]
  refine ⟨?_, ?_⟩
  · intro i _
    have : 0 < offset n degree i := by simp only [offset]; omega
    simp only [List.nodup_cons, List.mem_singleton, List.not_mem_nil, not_false_eq_true, List.nodup_nil, and_true]
    omega
  · refine List.pairwise_lt_range.imp ?_
    intro i j hij d hi hj
    have hlt := @offset_lt_offset n degree i j hij
    simp only [List.mem_cons, List.not_mem_nil, or_false] at hi hj
    omega

/-- Twice the largest distance is less than a full turn: with at least two
ranks for each edge the quotient is 2 or the remainder leaves the room. -/
theorem offset_bound (h2 : 2 ≤ degree) (hn : 2 * degree ≤ n) {i : Nat} (hi : i < degree / 2) :
    2 * offset n degree i < n := by
  obtain ⟨s, hs⟩ : ∃ s, s = n / (degree - 1) := ⟨_, rfl⟩
  have hmul : s * (degree - 1) ≤ n := by
    rw [hs]
    exact Nat.div_mul_le_self n (degree - 1)
  have hs2 : 2 ≤ s := by
    rw [hs, Nat.le_div_iff_mul_le (by omega)]
    omega
  have hi' : 2 * (i * s) ≤ (degree - 2) * s := by
    rw [← Nat.mul_assoc]
    exact Nat.mul_le_mul_right s (by omega)
  have hsplit : s * (degree - 1) = (degree - 2) * s + s := by
    obtain ⟨d, rfl⟩ : ∃ d, degree = d + 2 := ⟨degree - 2, by omega⟩
    simp only [Nat.add_sub_cancel, Nat.add_succ_sub_one]
    ring
  have hoffset : offset n degree i = 1 + i * s := by
    rw [offset, ← hs, max_eq_right (by omega)]
  rw [hoffset]
  rcases hs2.eq_or_lt with heq | hlt
  · rw [← heq] at hi' ⊢
    omega
  · omega

/-- Up to this number of ranks the indices are no negative ones and fit into an int. -/
theorem index_fits (h2 : 2 ≤ degree) (hn : 2 * degree ≤ n) (hfit : n ≤ 858993459) (pos : Fin n) {i : Nat}
    (hi : i < degree / 2) :
    0 ≤ (n + pos - offset n degree i : Int) ∧ (n + pos + offset n degree i : Int) < 2 ^ 31 := by
  have := offset_bound h2 hn hi
  have := pos.isLt
  omega

theorem distance_bound (h2 : 2 ≤ degree) (hn : 2 * degree ≤ n) {d : Int} (hd : d ∈ distances n degree) :
    d ≠ 0 ∧ -(n : Int) < 2 * d ∧ 2 * d < n := by
  obtain ⟨i, hi, hor⟩ := mem_distances.mp hd
  have hlt := offset_bound h2 hn hi
  have hpos : 0 < offset n degree i := by simp only [offset]; omega
  rcases hor with rfl | rfl
  · omega
  · omega

section positions

variable {pos : Fin n} {x y : Int}

theorem wrapped_val (pos : Fin n) (x : Int) : ((wrapped pos x).val : Int) = x % n := by
  have hpos : (n : Int) ≠ 0 := by exact_mod_cast pos.pos.ne'
  exact Int.toNat_of_nonneg (Int.emod_nonneg x hpos)

theorem wrapped_eq_iff : wrapped pos x = wrapped pos y ↔ (n : Int) ∣ x - y := by
  have hpos : (0 : Int) < n := by exact_mod_cast pos.pos
  rw [← Int.emod_eq_emod_iff_emod_sub_eq_zero.trans Int.dvd_iff_emod_eq_zero.symm, ← wrapped_val pos x,
    ← wrapped_val pos y, Nat.cast_inj, Fin.val_inj]

theorem wrapped_self (pos' : Fin n) : wrapped pos pos' = pos' := by
  apply Fin.ext
  have h := wrapped_val pos (pos' : Int)
  have := pos'.isLt
  rw [Int.emod_eq_of_lt (by omega) (by omega)] at h
  exact_mod_cast h

end positions

def neighbor (pos : Fin n) (d : Int) : Fin n := wrapped pos (pos + d)

theorem neighbor_eq_iff {pos pos' : Fin n} {d : Int} : neighbor pos d = pos' ↔ (n : Int) ∣ pos + d - pos' := by
  conv_lhs => rw [← @wrapped_self n pos pos', neighbor]
  exact wrapped_eq_iff

section graph

variable {p : AdjustablePermutation n}

theorem createUndirectedExpanderGraph_eq (hp : p.get.Bijective) (hdegree : degree % 2 = 0) (pos : Fin n) :
    p.createUndirectedExpanderGraph degree (p.get pos) =
      some ((distances n degree).map fun d => p.get (neighbor pos d)) := by
  have hfind : (List.finRange n).find? (fun pos' => p.get pos' = p.get pos) = some pos := by
    cases h : (List.finRange n).find? fun pos' => p.get pos' = p.get pos with
    | none => simpa using List.find?_eq_none.mp h pos (List.mem_finRange pos)
    | some pos' =>
        have hsome : p.get pos' = p.get pos := by simpa using List.find?_some h
        rw [hp.injective hsome]
  rw [createUndirectedExpanderGraph, if_pos hdegree, hfind, Option.map_some, distances, List.map_flatMap]
  congr 1
  apply List.flatMap_congr
  intro i _
  have hturn : ∀ d : Int, wrapped pos (n + pos + d) = neighbor pos d := by
    intro d
    rw [neighbor, wrapped_eq_iff]
    exact ⟨1, by ring⟩
  simp only [List.map_cons, List.map_nil, hturn, sub_eq_add_neg]

theorem edges_eq {edges : Fin n → List (Fin n)}
    (hedges : ∀ r, p.createUndirectedExpanderGraph degree r = some (edges r)) (hp : p.get.Bijective)
    (hdegree : degree % 2 = 0) (pos : Fin n) :
    edges (p.get pos) = (distances n degree).map fun d => p.get (neighbor pos d) :=
  Option.some.inj ((hedges (p.get pos)).symm.trans (createUndirectedExpanderGraph_eq hp hdegree pos))

theorem neighbor_injOn (h2 : 2 ≤ degree) (hn : 2 * degree ≤ n) (pos : Fin n) :
    ∀ d ∈ distances n degree, ∀ d' ∈ distances n degree, neighbor pos d = neighbor pos d' → d = d' := by
  intro d hd d' hd' heq
  obtain ⟨_, hlow, hup⟩ := distance_bound h2 hn hd
  obtain ⟨_, hlow', hup'⟩ := distance_bound h2 hn hd'
  have hdvd := wrapped_eq_iff.mp heq
  have hsmall : |pos + d - (pos + d')| < (n : Int) := by
    rw [abs_lt]
    omega
  have hzero := Int.eq_zero_of_abs_lt_dvd hdvd hsmall
  omega

theorem mem_edges_iff {edges : Fin n → List (Fin n)}
    (hedges : ∀ r, p.createUndirectedExpanderGraph degree r = some (edges r)) (hp : p.get.Bijective)
    (hdegree : degree % 2 = 0) (pos pos' : Fin n) :
    p.get pos' ∈ edges (p.get pos) ↔ ∃ d ∈ distances n degree, neighbor pos d = pos' := by
  rw [edges_eq hedges hp hdegree, List.mem_map]
  simp only [hp.injective.eq_iff]

theorem neighbor_symm {pos pos' : Fin n} {d : Int} (h : neighbor pos d = pos') : neighbor pos' (-d) = pos := by
  rw [neighbor_eq_iff] at h ⊢
  obtain ⟨c, hc⟩ := h
  exact ⟨-c, by rw [mul_neg, ← hc]; ring⟩

/-- A regular graph without loops, the same in both directions and connected. -/
theorem createUndirectedExpanderGraph_regular (hp : p.get.Bijective) (hdegree : degree % 2 = 0) (h2 : 2 ≤ degree)
    (hn : 2 * degree ≤ n) : ∃ edges : Fin n → List (Fin n),
      (∀ r, p.createUndirectedExpanderGraph degree r = some (edges r)) ∧
      (∀ r, (edges r).length = degree ∧ (edges r).Nodup ∧ r ∉ edges r) ∧
      (∀ r s, s ∈ edges r ↔ r ∈ edges s) ∧
      ∀ r s, ∃ k, Walk (fun a b => b ∈ edges a) k r s := by
  have hall : ∀ r, ∃ edges, p.createUndirectedExpanderGraph degree r = some edges := by
    intro r
    obtain ⟨pos, rfl⟩ := hp.surjective r
    exact ⟨_, createUndirectedExpanderGraph_eq hp hdegree pos⟩
  choose edges hedges using hall
  have hmem := mem_edges_iff hedges hp hdegree
  refine ⟨edges, hedges, ?_, ?_, ?_⟩
  · intro r
    obtain ⟨pos, rfl⟩ := hp.surjective r
    refine ⟨?_, ?_, ?_⟩
    · rw [edges_eq hedges hp hdegree, List.length_map, length_distances hdegree]
    · rw [edges_eq hedges hp hdegree]
      refine (nodup_distances n degree).map_on ?_
      intro d hd d' hd' heq
      exact neighbor_injOn h2 hn pos d hd d' hd' (hp.injective heq)
    · intro hself
      obtain ⟨d, hd, heq⟩ := (hmem pos pos).mp hself
      obtain ⟨hne, hlow, hup⟩ := distance_bound h2 hn hd
      have hdvd := neighbor_eq_iff.mp heq
      have hsmall : |pos + d - pos| < (n : Int) := by
        rw [abs_lt]
        omega
      have hzero := Int.eq_zero_of_abs_lt_dvd hdvd hsmall
      omega
  · intro r s
    obtain ⟨pos, rfl⟩ := hp.surjective r
    obtain ⟨pos', rfl⟩ := hp.surjective s
    rw [hmem, hmem]
    constructor
    · rintro ⟨d, hd, heq⟩; exact ⟨-d, neg_mem_distances hd, neighbor_symm heq⟩
    · rintro ⟨d, hd, heq⟩; exact ⟨-d, neg_mem_distances hd, neighbor_symm heq⟩
  · intro r s
    obtain ⟨pos, rfl⟩ := hp.surjective r
    obtain ⟨pos', rfl⟩ := hp.surjective s
    have hone : (1 : Int) ∈ distances n degree :=
      mem_distances.mpr ⟨0, by omega, Or.inl (by simp [offset])⟩
    have hnext : ∀ pos : Fin n, neighbor pos 1 = cyclicNext pos := by
      intro pos
      apply Fin.ext
      have hval := wrapped_val pos (pos + 1 : Int)
      have hcyclic : ((cyclicNext pos).val : Int) = (pos + 1 : Int) % n := by
        rw [cyclicNext_val]
        push_cast
        rfl
      exact_mod_cast hval.trans hcyclic.symm
    obtain ⟨k, hk⟩ := cyclicNext_reaches pos pos'
    refine ⟨k, ?_⟩
    rw [← hk]
    clear hk
    induction k generalizing pos with
    | zero => rfl
    | succ k ih => exact ⟨p.get (cyclicNext pos), (hmem _ _).mpr ⟨1, hone, hnext pos⟩, ih (cyclicNext pos)⟩

/-- Ten ranks in a permuted order with four neighbours each. -/
theorem createUndirectedExpanderGraph_regular_ten_ranks :
    (create fun pos : Fin 10 => 3 * pos).createUndirectedExpanderGraph 4 6 = some [9, 3, 8, 4] ∧
    ∃ edges : Fin 10 → List (Fin 10), (∀ r s, s ∈ edges r ↔ r ∈ edges s) ∧
      ∀ r s, ∃ k, Walk (fun a b => b ∈ edges a) k r s := by
  obtain ⟨edges, _, _, hsymm, hconnected⟩ := @createUndirectedExpanderGraph_regular 10 4
    (create fun pos : Fin 10 => 3 * pos) (by decide) (by decide) (by decide) (by decide)
  exact ⟨by decide +kernel, edges, hsymm, hconnected⟩

end graph

end UndirectedGraph

end Mallob
