import Mallob.AdjustablePermutation
import Mallob.CycleWalk

namespace Mallob

open CycleWalk

/-- A permutation of [0, n) out of the Feistel rounds of its constructor, with
everything that get looks at. The tables are arbitrary. -/
structure FeistelPermutation where
  n : Nat
  root : Nat
  feistels : List (List Nat)
  adjustedValues : Int → Option Int := fun _ => none
  identityDisallowed : Bool := false
  disallowedPermutations : List (Int → Int) := []
  pos : 0 < n
  n_lt : n < 2 ^ 31
  root_lt : root < 2 ^ 31
  covers : n ≤ root * root
  tables : ∀ feistel ∈ feistels, feistel.length = root ∧ ∀ v ∈ feistel, v < root

namespace FeistelPermutation

def int32 (x : Int) : Int := x.bmod (2 ^ 32)

/-- There is no result where the table is read outside of its bounds. -/
def round (root : Nat) (pair : Int × Int) (feistel : List Nat) : Option (Int × Int) :=
  if 0 ≤ pair.2 then
    feistel[pair.2.toNat]?.map fun v : Nat => (pair.2, (int32 (pair.1 + v)).tmod root)
  else none

def permute (p : FeistelPermutation) (x : Int) : Option Int :=
  (p.feistels.foldlM (round p.root) (x.tmod p.root, x.tdiv p.root)).map fun pair =>
    int32 (pair.1 + int32 (p.root * pair.2))

def accepts (p : FeistelPermutation) (input x : Int) : Bool :=
  decide (x < p.n) && !(p.identityDisallowed && x == input) &&
    p.disallowedPermutations.all fun q => x != q input

/-- The loop of get has no bound in the source; none is also an exhausted fuel. -/
def cycle (p : FeistelPermutation) (input : Int) : Nat → Int → Option Int
  | 0, _ => none
  | fuel + 1, x => (p.permute x).bind fun y => if p.accepts input y then some y else cycle p input fuel y

/-- An input outside of the domain is replaced by its residue, a negative one by
adding multiples of 100 * n, which may not be an int. -/
def get (p : FeistelPermutation) (fuel : Nat) (x : Int) : Option Int :=
  if x < 0 ∧ 2 ^ 31 ≤ 100 * p.n then none
  else
    let x := if x < 0 ∨ p.n ≤ x then x % p.n else x
    match p.adjustedValues x with
    | some y => some y
    | none => p.cycle x fuel x

def skipRanks (p : FeistelPermutation) (fuel : Nat) (ownRank requestingNodeRank senderRank : Int) :
    Nat → Nat → Option Int
  | 0, _ => none
  | steps + 1, permIdx => do
      let nextRank ← p.get fuel permIdx
      if nextRank = ownRank ∨ nextRank = requestingNodeRank ∨ nextRank = senderRank then
        skipRanks p fuel ownRank requestingNodeRank senderRank steps ((permIdx + 1) % p.n)
      else return nextRank

def bounceRank (p : FeistelPermutation) (fuel steps : Nat) (ownRank requestingNodeRank senderRank : Int)
    (numHops : Nat) : Option Int :=
  let permIdx := numHops % p.n
  if 3 < p.n then p.skipRanks fuel ownRank requestingNodeRank senderRank steps permIdx else p.get fuel permIdx

structure Plain (p : FeistelPermutation) : Prop where
  adjustedValues : ∀ x, p.adjustedValues x = none
  identityDisallowed : p.identityDisallowed = false
  disallowedPermutations : p.disallowedPermutations = []

section rounds

variable (p : FeistelPermutation)

def mixRound (root : Nat) (pair : Nat × Nat) (feistel : List Nat) : Nat × Nat :=
  (pair.2, (pair.1 + feistel.getD pair.2 0) % root)

def mix (pair : Nat × Nat) : Nat × Nat := p.feistels.foldl (mixRound p.root) pair

def mixed (x : Nat) : Nat :=
  let pair := p.mix (x % p.root, x / p.root)
  pair.1 + p.root * pair.2

theorem root_pos : 0 < p.root := by
  rcases Nat.eq_zero_or_pos p.root with h | h
  · have hpos := p.pos
    have hcovers := p.covers
    rw [h] at hcovers
    omega
  · exact h

def pairs : Set (Nat × Nat) := { pair | pair.1 < p.root ∧ pair.2 < p.root }

theorem mixRound_mapsTo (feistel : List Nat) : Set.MapsTo (fun pair => mixRound p.root pair feistel) p.pairs p.pairs :=
  fun _ h => ⟨h.2, Nat.mod_lt _ p.root_pos⟩

theorem mixRound_injOn (feistel : List Nat) : Set.InjOn (fun pair => mixRound p.root pair feistel) p.pairs := by
  rintro ⟨a, b⟩ ⟨ha, _⟩ ⟨a', b'⟩ ⟨ha', _⟩ heq
  obtain ⟨hb, hsum⟩ := Prod.mk.inj heq
  obtain rfl : b = b' := hb
  have hmod : a ≡ a' [MOD p.root] := Nat.ModEq.add_right_cancel' _ hsum
  have haa : a = a' := by rw [Nat.ModEq, Nat.mod_eq_of_lt ha, Nat.mod_eq_of_lt ha'] at hmod; exact hmod
  rw [haa]

theorem mix_mapsTo_injOn : Set.MapsTo p.mix p.pairs p.pairs ∧ Set.InjOn p.mix p.pairs := by
  unfold mix
  induction p.feistels with
  | nil => exact ⟨fun _ h => h, fun _ _ _ _ h => h⟩
  | cons feistel feistels ih =>
      have hmaps := p.mixRound_mapsTo feistel
      exact ⟨ih.1.comp hmaps, ih.2.comp (p.mixRound_injOn feistel) hmaps⟩

theorem split_mem_pairs {x : Nat} (hx : x < p.root * p.root) : (x % p.root, x / p.root) ∈ p.pairs :=
  ⟨Nat.mod_lt _ p.root_pos, Nat.div_lt_of_lt_mul hx⟩

theorem mixed_mapsTo : Set.MapsTo p.mixed (Finset.range (p.root * p.root)) (Finset.range (p.root * p.root)) := by
  intro x hx
  rw [Finset.mem_coe, Finset.mem_range] at hx ⊢
  obtain ⟨ha, hb⟩ := p.mix_mapsTo_injOn.1 (p.split_mem_pairs hx)
  have hle : p.root * ((p.mix (x % p.root, x / p.root)).2 + 1) ≤ p.root * p.root :=
    Nat.mul_le_mul_left _ hb
  rw [Nat.mul_add, Nat.mul_one] at hle
  simp only [mixed]
  omega

theorem mixed_injOn : Set.InjOn p.mixed (Finset.range (p.root * p.root)) := by
  intro x hx y hy heq
  rw [Finset.mem_coe, Finset.mem_range] at hx hy
  have hx' := p.split_mem_pairs hx
  have hy' := p.split_mem_pairs hy
  obtain ⟨ha, _⟩ := p.mix_mapsTo_injOn.1 hx'
  obtain ⟨ha', _⟩ := p.mix_mapsTo_injOn.1 hy'
  simp only [mixed] at heq
  have hpair : p.mix (x % p.root, x / p.root) = p.mix (y % p.root, y / p.root) := by
    have hmod := congrArg (· % p.root) heq
    have hdiv := congrArg (· / p.root) heq
    simp only [Nat.add_mul_mod_self_left, Nat.mod_eq_of_lt ha, Nat.mod_eq_of_lt ha'] at hmod
    simp only [Nat.add_mul_div_left _ _ p.root_pos, Nat.div_eq_of_lt ha, Nat.div_eq_of_lt ha', zero_add] at hdiv
    exact Prod.ext hmod hdiv
  obtain ⟨hmod, hdiv⟩ := Prod.mk.inj (p.mix_mapsTo_injOn.2 hx' hy' hpair)
  rw [← Nat.mod_add_div x p.root, ← Nat.mod_add_div y p.root, hmod, hdiv]

end rounds

section range

variable {p : FeistelPermutation} (hroot : p.root ≤ 46340)

theorem int32_natCast {k : Nat} (h : k < 2 ^ 31) : int32 k = k :=
  Int.bmod_eq_of_le_mul_two (by omega) (by omega)

include hroot

theorem square_lt : p.root * p.root < 2 ^ 31 := by
  have h : p.root * p.root ≤ 46340 * 46340 := Nat.mul_le_mul hroot hroot
  omega

theorem round_eq {feistel : List Nat} (hfeistel : feistel ∈ p.feistels) {pair : Nat × Nat} (hpair : pair ∈ p.pairs) :
    round p.root (pair.1, pair.2) feistel =
      some (((mixRound p.root pair feistel).1 : Int), ((mixRound p.root pair feistel).2 : Int)) := by
  obtain ⟨ha, hb⟩ := hpair
  obtain ⟨hlength, hvalues⟩ := p.tables feistel hfeistel
  have hin : pair.2 < feistel.length := hlength ▸ hb
  have hv : feistel[pair.2] < p.root := hvalues _ (List.getElem_mem hin)
  have hsum : int32 (pair.1 + feistel[pair.2]) = (pair.1 + feistel[pair.2] : Nat) := by
    rw [← Nat.cast_add]
    exact int32_natCast (by omega)
  rw [round, if_pos (Int.natCast_nonneg _), Int.toNat_natCast, List.getElem?_eq_getElem hin, Option.map_some, hsum,
    mixRound, List.getD_eq_getElem _ _ hin, Int.ofNat_tmod]

theorem foldlM_round_eq (feistels : List (List Nat)) (hsub : ∀ feistel ∈ feistels, feistel ∈ p.feistels)
    {pair : Nat × Nat} (hpair : pair ∈ p.pairs) :
    feistels.foldlM (round p.root) ((pair.1 : Int), (pair.2 : Int)) =
      some (((feistels.foldl (mixRound p.root) pair).1 : Int), ((feistels.foldl (mixRound p.root) pair).2 : Int)) := by
  induction feistels generalizing pair with
  | nil => rfl
  | cons feistel feistels ih =>
      rw [List.foldlM_cons, round_eq hroot (hsub feistel List.mem_cons_self) hpair, Option.bind_eq_bind,
        Option.bind_some, List.foldl_cons]
      exact ih (fun f hf => hsub f (List.mem_cons_of_mem _ hf)) (p.mixRound_mapsTo feistel hpair)

theorem permute_eq {x : Nat} (hx : x < p.root * p.root) : p.permute x = some (p.mixed x : Int) := by
  have hpair := p.split_mem_pairs hx
  obtain ⟨ha, hb⟩ := p.mix_mapsTo_injOn.1 hpair
  have hmixed : p.mixed x < p.root * p.root := by
    simpa using p.mixed_mapsTo (Finset.mem_coe.mpr (Finset.mem_range.mpr hx))
  have hsquare := square_lt hroot
  simp only [mixed] at hmixed
  have hproduct : int32 (p.root * (p.mix (x % p.root, x / p.root)).2) =
      (p.root * (p.mix (x % p.root, x / p.root)).2 : Nat) := by
    rw [← Nat.cast_mul]
    exact int32_natCast (by omega)
  have hfold := foldlM_round_eq hroot p.feistels (fun _ h => h) hpair
  rw [permute, ← Int.ofNat_tmod, ← Int.ofNat_tdiv, hfold, Option.map_some]
  refine congrArg some ?_
  change int32 (((p.mix (x % p.root, x / p.root)).1 : Int) + int32 (p.root * (p.mix (x % p.root, x / p.root)).2)) = _
  rw [hproduct, ← Nat.cast_add]
  exact int32_natCast (by omega)

theorem cycle_eq {input : Int} (haccepts : ∀ y : Nat, p.accepts input y = decide (y < p.n)) (fuel : Nat) {x : Nat}
    (hx : x < p.root * p.root) :
    p.cycle input fuel x = (walk p.mixed (fun y => decide (y < p.n)) fuel x).map (fun y : Nat => (y : Int)) := by
  induction fuel generalizing x with
  | zero => rfl
  | succ fuel ih =>
      have hmixed : p.mixed x < p.root * p.root := by
        simpa using p.mixed_mapsTo (Finset.mem_coe.mpr (Finset.mem_range.mpr hx))
      rw [cycle, permute_eq hroot hx, Option.bind_some, haccepts, walk]
      split
      · rfl
      · exact ih hmixed

end range

section plain

variable {p : FeistelPermutation} (h : p.Plain) (hroot : p.root ≤ 46340)

include h hroot

theorem Plain.get_eq (fuel : Nat) (x : Fin p.n) : p.get fuel (x.val : Int) =
    (walk p.mixed (fun y => decide (y < p.n)) fuel x).map (fun y : Nat => (y : Int)) := by
  have hlt := x.isLt
  have haccepts : ∀ y : Nat, p.accepts (x.val : Int) y = decide (y < p.n) := by
    intro y
    simp [accepts, h.identityDisallowed, h.disallowedPermutations]
  rw [get, if_neg (by omega), if_neg (by omega)]
  simp only [h.adjustedValues]
  exact cycle_eq hroot haccepts fuel (hlt.trans_le p.covers)

/-- The walk comes back to [0, n) from every start in it, and no two starts
lead to one value. -/
theorem Plain.exists_perm : ∃ σ : Equiv.Perm (Fin p.n), ∀ (x : Fin p.n) (fuel : Nat), p.root * p.root ≤ fuel →
    p.get fuel (x.val : Int) = some ((σ x).val : Int) := by
  have hin : ∀ x : Fin p.n, x.val ∈ Finset.range (p.root * p.root) := fun x =>
    Finset.mem_range.mpr (x.isLt.trans_le p.covers)
  have hrange : ∀ x : Fin p.n, (fun y => decide (y < p.n)) x.val = true := fun x => decide_eq_true x.isLt
  have hend : ∀ x : Fin p.n, ∃ y : Fin p.n,
      walk p.mixed (fun y => decide (y < p.n)) (p.root * p.root) x = some y.val := by
    intro x
    obtain ⟨y, hy⟩ := walk_total (p := fun y => decide (y < p.n)) p.mixed_mapsTo p.mixed_injOn (hin x)
      (hrange x) (Finset.card_range _).le
    obtain ⟨_, hlt⟩ := walk_mem p.mixed_mapsTo (hin x) hy
    exact ⟨⟨y, of_decide_eq_true hlt⟩, hy⟩
  choose f hf using hend
  have hinj : f.Injective := by
    intro x x' heq
    have hx' := hf x'
    rw [← heq] at hx'
    exact Fin.ext (walk_injective p.mixed_mapsTo p.mixed_injOn (hin x) (hin x') (hrange x) (hrange x')
      (hf x) hx')
  refine ⟨Equiv.ofBijective f (Finite.injective_iff_bijective.mp hinj), fun x fuel hfuel => ?_⟩
  rw [h.get_eq hroot, walk_mono (hf x) hfuel]
  rfl

/-- The rounds provide the bijection that an adjustable permutation starts from. -/
theorem Plain.exists_unadjusted : ∃ unadjusted : Fin p.n → Fin p.n, unadjusted.Bijective ∧
    ∀ (x : Fin p.n) (fuel : Nat), p.root * p.root ≤ fuel →
      p.get fuel (x.val : Int) = some (((AdjustablePermutation.create unadjusted).get x).val : Int) := by
  obtain ⟨σ, hσ⟩ := h.exists_perm hroot
  exact ⟨σ, σ.bijective, hσ⟩

end plain

section skip

variable {p : FeistelPermutation} {fuel : Nat} {σ : Equiv.Perm (Fin p.n)} {ownRank requestingNodeRank senderRank : Int}

def Skipped (ownRank requestingNodeRank senderRank : Int) (rank : Nat) : Prop :=
  rank = ownRank ∨ rank = requestingNodeRank ∨ rank = senderRank

theorem card_skipped_le (s : Finset Nat) (hs : ∀ r ∈ s, Skipped ownRank requestingNodeRank senderRank r) :
    s.card ≤ 3 := by
  have hsub : s.map Nat.castEmbedding ⊆ ({ownRank, requestingNodeRank, senderRank} : Finset Int) := by
    intro r hr
    obtain ⟨q, hq, rfl⟩ := Finset.mem_map.mp hr
    simpa [Skipped] using hs q hq
  calc s.card = (s.map Nat.castEmbedding).card := (Finset.card_map _).symm
    _ ≤ ({ownRank, requestingNodeRank, senderRank} : Finset Int).card := Finset.card_le_card hsub
    _ ≤ 3 := Finset.card_le_three

/-- The indices that the loop goes through, start first, are all indices. -/
theorem exists_not_skipped (hn : 3 < p.n) (start : Fin p.n) :
    ∃ j < p.n, ¬ Skipped ownRank requestingNodeRank senderRank
      (σ ⟨(start + j) % p.n, Nat.mod_lt _ p.pos⟩).val := by
  by_contra hall
  have hskipped : ∀ r ∈ Finset.range p.n, Skipped ownRank requestingNodeRank senderRank r := by
    intro r hr
    rw [Finset.mem_range] at hr
    obtain ⟨i, hi⟩ := σ.surjective ⟨r, hr⟩
    have hindex : (start + (i + (p.n - start)) % p.n) % p.n = i := by
      rw [Nat.add_mod_mod]
      have : start.val + (i + (p.n - start)) = i + p.n := by omega
      rw [this, Nat.add_mod_right, Nat.mod_eq_of_lt i.isLt]
    by_contra hno
    refine hall ⟨(i + (p.n - start)) % p.n, Nat.mod_lt _ p.pos, ?_⟩
    have heq : (⟨(start + (i + (p.n - start)) % p.n) % p.n, Nat.mod_lt _ p.pos⟩ : Fin p.n) = i := Fin.ext hindex
    rw [heq, hi]
    exact hno
  have := card_skipped_le _ hskipped
  rw [Finset.card_range] at this
  omega

theorem skipRanks_ends (hget : ∀ x : Fin p.n, p.get fuel (x.val : Int) = some ((σ x).val : Int)) (steps j : Nat)
    (start : Fin p.n) (hj : j < steps) (hfree : ¬ Skipped ownRank requestingNodeRank senderRank
      (σ ⟨(start + j) % p.n, Nat.mod_lt _ p.pos⟩).val) :
    ∃ r < p.n, p.skipRanks fuel ownRank requestingNodeRank senderRank steps start = some (r : Int) ∧
      ¬ Skipped ownRank requestingNodeRank senderRank r := by
  induction steps generalizing start j with
  | zero => omega
  | succ steps ih =>
      rw [skipRanks, hget start, Option.bind_eq_bind, Option.bind_some]
      by_cases hskip : ((σ start).val : Int) = ownRank ∨ ((σ start).val : Int) = requestingNodeRank ∨
          ((σ start).val : Int) = senderRank
      · rw [if_pos hskip]
        cases j with
        | zero =>
            have heq : (⟨(start + 0) % p.n, Nat.mod_lt _ p.pos⟩ : Fin p.n) = start :=
              Fin.ext (by simp [Nat.mod_eq_of_lt start.isLt])
            rw [heq] at hfree
            exact absurd hskip hfree
        | succ j =>
            refine ih j ⟨(start + 1) % p.n, Nat.mod_lt _ p.pos⟩ (by omega) ?_
            have heq : (⟨((start + 1) % p.n + j) % p.n, Nat.mod_lt _ p.pos⟩ : Fin p.n) =
                ⟨(start + (j + 1)) % p.n, Nat.mod_lt _ p.pos⟩ := by
              apply Fin.ext
              simp only [Nat.mod_add_mod, Nat.add_assoc, Nat.add_comm 1 j]
            rw [heq]
            exact hfree
      · exact ⟨σ start, (σ start).isLt, if_neg hskip, hskip⟩

end skip

/-- The values of get form a permutation of [0, n), and with more than three
ranks a request finds one that it may go to within n steps. -/
theorem get_permutes (p : FeistelPermutation) (h : p.Plain) (hroot : p.root ≤ 46340) :
    ∃ σ : Equiv.Perm (Fin p.n), (∀ (x : Fin p.n) (fuel : Nat), p.root * p.root ≤ fuel →
      p.get fuel (x.val : Int) = some ((σ x).val : Int)) ∧
      (3 < p.n → ∀ (fuel : Nat) (ownRank requestingNodeRank senderRank : Int) (numHops : Nat),
        p.root * p.root ≤ fuel → ∃ r < p.n,
          p.bounceRank fuel p.n ownRank requestingNodeRank senderRank numHops = some (r : Int) ∧
          (r : Int) ≠ ownRank ∧ (r : Int) ≠ requestingNodeRank ∧ (r : Int) ≠ senderRank) := by
  obtain ⟨σ, hσ⟩ := h.exists_perm hroot
  refine ⟨σ, hσ, fun hn fuel ownRank requestingNodeRank senderRank numHops hfuel => ?_⟩
  obtain ⟨j, hj, hfree⟩ := @exists_not_skipped p σ ownRank requestingNodeRank senderRank hn
    ⟨numHops % p.n, Nat.mod_lt _ p.pos⟩
  obtain ⟨r, hr, hloop, hskip⟩ := skipRanks_ends (fun x => hσ x fuel hfuel) p.n j _ hj hfree
  simp only [Skipped, not_or] at hskip
  exact ⟨r, hr, by rw [bounceRank, if_pos hn]; exact hloop, hskip⟩

def fiveRanks : FeistelPermutation where
  n := 5
  root := 3
  feistels := [[2, 0, 1], [1, 2, 0], [0, 2, 1]]
  pos := by decide
  n_lt := by decide
  root_lt := by decide
  covers := by decide
  tables := by decide

theorem get_permutes_five_ranks :
    (∃ σ : Equiv.Perm (Fin 5), ∀ x : Fin 5, fiveRanks.get 9 (x.val : Int) = some ((σ x).val : Int)) ∧
    ∃ r : Nat, r < 5 ∧ fiveRanks.bounceRank 9 5 0 1 2 7 = some (r : Int) ∧
      (r : Int) ≠ 0 ∧ (r : Int) ≠ 1 ∧ (r : Int) ≠ 2 := by
  obtain ⟨σ, hσ, hbounce⟩ := get_permutes fiveRanks ⟨fun _ => rfl, rfl, rfl⟩ (by decide)
  exact ⟨⟨σ, fun x => hσ x 9 (by decide)⟩, hbounce (by decide) 9 0 1 2 7 (by decide)⟩

theorem round_replicate {root b v c : Nat} {a : Int} (hb : b < root) (hc : (int32 (a + v)).tmod root = c) :
    round root (a, (b : Int)) (List.replicate root v) = some ((b : Int), (c : Int)) := by
  rw [round, if_pos (Int.natCast_nonneg b), Int.toNat_natCast, List.getElem?_replicate, if_pos hb, Option.map_some, hc]

theorem permute_replicate {p : FeistelPermutation} {u v w b₁ b₂ b₃ : Nat}
    (hfeistels : p.feistels = [List.replicate p.root u, List.replicate p.root v, List.replicate p.root w])
    (h₁ : (int32 (0 + u)).tmod p.root = b₁) (h₂ : (int32 (0 + v)).tmod p.root = b₂)
    (h₃ : (int32 (b₁ + w)).tmod p.root = b₃) (hb₁ : b₁ < p.root) (hb₂ : b₂ < p.root) :
    p.permute 0 = some (int32 (b₂ + int32 (p.root * b₃))) := by
  have hfirst : round p.root (0, 0) (List.replicate p.root u) = some ((0 : Int), (b₁ : Int)) :=
    round_replicate (b := 0) p.root_pos h₁
  have hsecond := round_replicate hb₁ h₂
  have hthird := round_replicate hb₂ h₃
  rw [permute, hfeistels, Int.zero_tmod, Int.zero_tdiv, List.foldlM_cons, hfirst, Option.bind_eq_bind, Option.bind_some,
    List.foldlM_cons, hsecond, Option.bind_eq_bind, Option.bind_some, List.foldlM_cons, hthird, Option.bind_eq_bind,
    Option.bind_some, List.foldlM_nil]
  rfl

/-- As many ranks as an int can count, with the root that the constructor computes for them. -/
def mostRanks : FeistelPermutation where
  n := 2147483647
  root := 46341
  feistels := [List.replicate 46341 0, List.replicate 46341 46340, List.replicate 46341 46340]
  pos := by decide
  n_lt := by decide
  root_lt := by decide
  covers := by decide
  tables := by
    intro feistel hfeistel
    simp only [List.mem_cons, List.not_mem_nil, or_false] at hfeistel
    rcases hfeistel with rfl | rfl | rfl
    · exact ⟨List.length_replicate, fun v hv => by rw [List.eq_of_mem_replicate hv]; decide⟩
    · exact ⟨List.length_replicate, fun v hv => by rw [List.eq_of_mem_replicate hv]; decide⟩
    · exact ⟨List.length_replicate, fun v hv => by rw [List.eq_of_mem_replicate hv]; decide⟩

theorem mostRanks_feistels : mostRanks.feistels = [List.replicate mostRanks.root 0, List.replicate mostRanks.root 46340,
    List.replicate mostRanks.root 46340] := rfl

/-- The value leaves the range of int, and get returns a negative rank. -/
theorem get_leaves_range : mostRanks.Plain ∧ (∀ fuel, mostRanks.get (fuel + 1) 0 = some (-2147479016)) ∧
    ¬∃ σ : Equiv.Perm (Fin mostRanks.n), ∀ (x : Fin mostRanks.n) (fuel : Nat), mostRanks.root * mostRanks.root ≤ fuel →
      mostRanks.get fuel (x.val : Int) = some ((σ x).val : Int) := by
  have hget : ∀ fuel, mostRanks.get (fuel + 1) 0 = some (-2147479016) := by
    intro fuel
    have hfirst : (int32 (0 + (0 : Nat))).tmod (46341 : Nat) = (0 : Nat) := by decide
    have hsecond : (int32 (0 + (46340 : Nat))).tmod (46341 : Nat) = (46340 : Nat) := by decide
    have hthird : (int32 ((0 : Nat) + (46340 : Nat))).tmod (46341 : Nat) = (46340 : Nat) := by decide
    have hvalue : int32 ((46340 : Nat) + int32 ((46341 : Nat) * (46340 : Nat))) = -2147479016 := by decide
    have hpermute : mostRanks.permute 0 = some (-2147479016) :=
      (permute_replicate mostRanks_feistels hfirst hsecond hthird (by decide) (by decide)).trans (congrArg some hvalue)
    have haccepts : mostRanks.accepts 0 (-2147479016) = true := rfl
    rw [get, if_neg (by decide), if_neg (by decide)]
    change mostRanks.cycle 0 (fuel + 1) 0 = _
    rw [cycle, hpermute, Option.bind_some, haccepts, if_pos rfl]
  refine ⟨⟨fun _ => rfl, rfl, rfl⟩, hget, ?_⟩
  rintro ⟨σ, hσ⟩
  have hvalue := hσ ⟨0, by decide⟩ (2147488280 + 1) (by decide)
  have hnegative := Option.some.inj ((hget 2147488280).symm.trans hvalue)
  omega

end FeistelPermutation

end Mallob
