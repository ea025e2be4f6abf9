import Mallob.AdjustablePermutation
import Mallob.Walks

namespace Mallob.ExpanderGraph

open AdjustablePermutation Walks

variable {n : Nat}

section FirstPermutation

@[simp] theorem cyclicNext_val (pos : Fin n) : (cyclicNext pos).val = (pos + 1) % n := rfl

theorem cyclicNext_iterate (k : Nat) (pos : Fin n) : (cyclicNext^[k] pos).val = (pos + k) % n := by
  induction k with
  | zero => simp [Nat.mod_eq_of_lt pos.isLt]
  | succ k ih => rw [Function.iterate_succ_apply', cyclicNext_val, ih, Nat.mod_add_mod, Nat.add_assoc]

theorem cyclicNext_reaches (a b : Fin n) : ∃ k, cyclicNext^[k] a = b := by
  refine ⟨b + (n - a), Fin.ext ?_⟩
  have ha := a.isLt
  have hsum : a.val + (b + (n - a)) = b + n := by omega
  rw [cyclicNext_iterate, hsum, Nat.add_mod_right, Nat.mod_eq_of_lt b.isLt]

theorem foldl_update_apply {ι α β : Type} [DecidableEq α] {place : ι → α} (hplace : place.Injective) (value : ι → β)
    {xs : List ι} {x : ι} (hx : x ∈ xs) (f : α → β) :
    xs.foldl (fun f i => Function.update f (place i) (value i)) f (place x) = value x := by
  induction xs using List.reverseRecOn with
  | nil => cases hx
  | append_singleton xs y ih =>
      rw [List.foldl_append, List.foldl_cons, List.foldl_nil]
      by_cases hxy : x = y
      · subst hxy
        exact Function.update_self _ _ _
      · rw [Function.update_of_ne (fun heq => hxy (hplace heq))]
        exact ih (by simpa [hxy] using hx)

theorem intrinsicPartners_get {pInit : AdjustablePermutation n} (h : pInit.get.Bijective) (pos : Fin n) :
    intrinsicPartners pInit (pInit.get pos) = pInit.get (cyclicNext pos) :=
  foldl_update_apply h.injective (fun pos => pInit.get (cyclicNext pos)) (List.mem_finRange pos) _

theorem intrinsicPartners_singleCycle {pInit : AdjustablePermutation n} (h : pInit.get.Bijective) :
    SingleCycle (intrinsicPartners pInit) := by
  apply SingleCycle.of_reaches
  intro a b
  obtain ⟨i, rfl⟩ := h.surjective a
  obtain ⟨j, rfl⟩ := h.surjective b
  obtain ⟨k, hk⟩ := cyclicNext_reaches i j
  have hsemi : Function.Semiconj pInit.get cyclicNext (intrinsicPartners pInit) := fun pos =>
    (intrinsicPartners_get h pos).symm
  exact ⟨k, by rw [← (hsemi.iterate_right k) i, hk]⟩

end FirstPermutation

def Avoids (tables : List (Fin n → Fin n)) (pos val : Fin n) : Prop := ∀ t ∈ tables, t pos ≠ val

theorem isValid_iff {partners : Fin n → Fin n} {permutations : List (AdjustablePermutation n)} {pos val : Fin n} :
    isValid partners permutations pos val = true ↔ Avoids (id :: partners :: permutations.map get) pos val := by
  simp [isValid, Avoids]

/-- Of n places at most 2 * k - 1 are ruled out when k tables are to be avoided
and the current place is ruled out on both grounds. -/
theorem exists_avoiding_swap {p : Fin n → Fin n} (hp : p.Bijective) {tables : List (Fin n → Fin n)}
    (htables : ∀ t ∈ tables, t.Bijective) (hcount : 2 * tables.length ≤ n) {pos : Fin n}
    (hpos : ¬Avoids tables pos (p pos)) :
    ∃ q, q ≠ pos ∧ Avoids tables pos (p q) ∧ Avoids tables q (p pos) := by
  classical
  have : Nonempty (Fin n) := ⟨pos⟩
  let here : Finset (Fin n) := Finset.univ.filter fun q => ¬Avoids tables pos (p q)
  let there : Finset (Fin n) := Finset.univ.filter fun q => ¬Avoids tables q (p pos)
  have hhere : here.card ≤ tables.length := by
    have hsub : here ⊆ (tables.map fun t => Function.invFun p (t pos)).toFinset := by
      intro q hq
      simp only [here, Avoids, Finset.mem_filter, Finset.mem_univ, true_and, not_forall, not_not] at hq
      obtain ⟨t, ht, heq⟩ := hq
      rw [List.mem_toFinset, List.mem_map]
      exact ⟨t, ht, by rw [heq, Function.leftInverse_invFun hp.injective]⟩
    exact (Finset.card_le_card hsub).trans ((List.toFinset_card_le _).trans_eq (List.length_map _))
  have hthere : there.card ≤ tables.length := by
    have hsub : there ⊆ (tables.map fun t => Function.invFun t (p pos)).toFinset := by
      intro q hq
      simp only [there, Avoids, Finset.mem_filter, Finset.mem_univ, true_and, not_forall, not_not] at hq
      obtain ⟨t, ht, heq⟩ := hq
      rw [List.mem_toFinset, List.mem_map]
      exact ⟨t, ht, by rw [← heq, Function.leftInverse_invFun (htables t ht).injective]⟩
    exact (Finset.card_le_card hsub).trans ((List.toFinset_card_le _).trans_eq (List.length_map _))
  have hboth : 0 < (here ∩ there).card := Finset.card_pos.mpr ⟨pos, by simp [here, there, hpos]⟩
  have hunion := Finset.card_union_add_card_inter here there
  have hlt : (here ∪ there).card < (Finset.univ : Finset (Fin n)).card := by
    rw [Finset.card_univ, Fintype.card_fin]
    omega
  obtain ⟨q, _, hq⟩ := Finset.exists_mem_notMem_of_card_lt_card hlt
  simp only [here, there, Finset.mem_union, Finset.mem_filter, Finset.mem_univ, true_and, not_or, not_not] at hq
  refine ⟨q, ?_, hq⟩
  rintro rfl
  exact hpos hq.1

theorem get_swapValues (p : AdjustablePermutation n) {pos swapPos : Fin n} (hne : swapPos ≠ pos) :
    (p.swapValues pos swapPos).get = p.get ∘ Equiv.swap pos swapPos := by
  funext x
  rw [swapValues, get_adjust, get_adjust, Function.comp_apply]
  by_cases hswap : x = swapPos
  · subst hswap
    simp
  · by_cases hpos : x = pos
    · subst hpos
      simp [hswap]
    · simp [hswap, hpos, Equiv.swap_apply_of_ne_of_ne]

theorem swapPosition_ne (pos : Fin n) (draw : Fin (n - 1)) : swapPosition pos draw ≠ pos := by
  intro heq
  have hval : (if draw.val ≥ pos.val then draw.val + 1 else draw.val) = pos.val := congrArg Fin.val heq
  split at hval <;> omega

theorem swapPosition_surjective {pos swapPos : Fin n} (hne : swapPos ≠ pos) :
    ∃ draw, swapPosition pos draw = swapPos := by
  have hval : swapPos.val ≠ pos.val := fun heq => hne (Fin.ext heq)
  have hlt := swapPos.isLt
  rcases Nat.lt_or_gt_of_ne hval with h | h
  · refine ⟨⟨swapPos, by omega⟩, Fin.ext ?_⟩
    simp [swapPosition, Nat.not_le.mpr h]
  · refine ⟨⟨swapPos - 1, by omega⟩, Fin.ext ?_⟩
    have hge : pos.val ≤ swapPos.val - 1 := by omega
    simp only [swapPosition, ge_iff_le, hge, if_true]
    omega

section Filling

variable {valid : Fin n → Fin n → Bool}

structure Filled (valid : Fin n → Fin n → Bool) (p : AdjustablePermutation n) (k : Nat) : Prop where
  bijective : p.get.Bijective
  valid : ∀ q : Fin n, q.val < k → valid q (p.get q) = true

theorem Filled.swapValues {p : AdjustablePermutation n} {pos swapPos : Fin n} (h : Filled valid p pos)
    (hne : swapPos ≠ pos) (hswap : canSwap valid p pos swapPos = true) :
    Filled valid (p.swapValues pos swapPos) (pos + 1) := by
  obtain ⟨hhere, hthere⟩ := Bool.and_eq_true_iff.mp hswap
  have hget := get_swapValues p hne
  refine ⟨?_, ?_⟩
  · rw [hget]
    exact h.bijective.comp (Equiv.swap pos swapPos).bijective
  · intro q hq
    rw [hget, Function.comp_apply]
    by_cases hpos : q = pos
    · subst hpos
      rwa [Equiv.swap_apply_left]
    · by_cases hother : q = swapPos
      · subst hother
        rwa [Equiv.swap_apply_right]
      · have hval : q.val ≠ pos.val := fun heq => hpos (Fin.ext heq)
        rw [Equiv.swap_apply_of_ne_of_ne hpos hother]
        exact h.valid q (by omega)

theorem Filled.next {p : AdjustablePermutation n} {pos : Fin n} (h : Filled valid p pos)
    (hpos : valid pos (p.get pos) = true) : Filled valid p (pos + 1) := by
  refine ⟨h.bijective, ?_⟩
  intro q hq
  by_cases heq : q = pos
  · exact heq ▸ hpos
  · have hval : q.val ≠ pos.val := fun h => heq (Fin.ext h)
    exact h.valid q (by omega)

theorem findSwap_some {p : AdjustablePermutation n} {pos swapPos : Fin n} {draws draws' : List (Fin (n - 1))}
    (h : findSwap valid p pos draws = some (swapPos, draws')) :
    swapPos ≠ pos ∧ canSwap valid p pos swapPos = true := by
  induction draws with
  | nil => cases h
  | cons draw draws ih =>
      rw [findSwap] at h
      split at h
      · next hswap =>
          obtain ⟨rfl, _⟩ := Prod.mk.inj (Option.some.inj h)
          exact ⟨swapPosition_ne pos draw, hswap⟩
      · exact ih h

theorem fixPosition_some {s s' : AdjustablePermutation n × List (Fin (n - 1))} {pos : Fin n}
    (hfilled : Filled valid s.1 pos) (h : fixPosition valid s pos = some s') : Filled valid s'.1 (pos + 1) := by
  rw [fixPosition] at h
  split at h
  · next hvalid =>
      obtain rfl := Option.some.inj h
      exact hfilled.next hvalid
  · obtain ⟨⟨swapPos, draws⟩, hfind, rfl⟩ := Option.map_eq_some_iff.mp h
    obtain ⟨hne, hswap⟩ := findSwap_some hfind
    exact hfilled.swapValues hne hswap

theorem finRange_take_succ {k : Nat} (hk : k < n) :
    (List.finRange n).take (k + 1) = (List.finRange n).take k ++ [⟨k, hk⟩] := by
  rw [List.take_add_one]
  simp [hk]

theorem fixPositions_some {s s' : AdjustablePermutation n × List (Fin (n - 1))} (hstart : s.1.get.Bijective)
    {k : Nat} (hk : k ≤ n) (h : fixPositions valid s ((List.finRange n).take k) = some s') : Filled valid s'.1 k := by
  induction k generalizing s' with
  | zero =>
      obtain rfl : s = s' := Option.some.inj h
      exact ⟨hstart, fun q hq => absurd hq (Nat.not_lt_zero _)⟩
  | succ k ih =>
      rw [finRange_take_succ hk, fixPositions, List.foldlM_append, Option.bind_eq_bind, Option.bind_eq_some_iff] at h
      obtain ⟨s₁, hs₁, hlast⟩ := h
      rw [List.foldlM_cons, Option.bind_eq_bind, Option.bind_eq_some_iff] at hlast
      obtain ⟨s₂, hs₂, hnil⟩ := hlast
      obtain rfl : s₂ = s' := Option.some.inj hnil
      exact fixPosition_some (ih (by omega) hs₁) hs₂

end Filling

structure Separate (tables : List (Fin n → Fin n)) : Prop where
  bijective : ∀ t ∈ tables, t.Bijective
  noFixedPoint : ∀ t ∈ tables, ∀ x, t x ≠ x
  distinct : tables.Pairwise fun s t => ∀ x, s x ≠ t x

theorem Separate.append {tables : List (Fin n → Fin n)} (h : Separate tables) {t : Fin n → Fin n} (ht : t.Bijective)
    (havoid : ∀ x, Avoids (id :: tables) x (t x)) : Separate (tables ++ [t]) where
  bijective := by
    intro u hu
    rcases List.mem_append.mp hu with hu | hu
    · exact h.bijective u hu
    · exact List.mem_singleton.mp hu ▸ ht
  noFixedPoint := by
    intro u hu x
    rcases List.mem_append.mp hu with hu | hu
    · exact h.noFixedPoint u hu x
    · obtain rfl := List.mem_singleton.mp hu
      exact (havoid x id (by simp)).symm
  distinct := by
    refine List.pairwise_append.mpr ⟨h.distinct, List.pairwise_singleton _ _, ?_⟩
    intro u hu v hv x
    obtain rfl := List.mem_singleton.mp hv
    exact havoid x u (by simp [hu])

section Building

variable {unadjusted : Int → Fin n → Fin n} {partners : Fin n → Fin n}

theorem Separate.extend {permutations : List (AdjustablePermutation n)} {p : AdjustablePermutation n}
    (h : Separate (partners :: permutations.map get)) (hp : Filled (isValid partners permutations) p n) :
    Separate (partners :: (permutations ++ [p]).map get) := by
  rw [List.map_append, ← List.cons_append]
  refine h.append hp.bijective ?_
  intro x
  exact isValid_iff.mp (hp.valid x x.isLt)

theorem build_succ {draws draws' : List (Fin (n - 1))} {r : Nat} {permutations : List (AdjustablePermutation n)}
    (h : build unadjusted partners draws (r + 1) = some (permutations, draws')) : ∃ earlier draws₁ p,
      build unadjusted partners draws r = some (earlier, draws₁) ∧
      fixPositions (isValid partners earlier) (create (unadjusted (seed n r)), draws₁) (List.finRange n) =
        some (p, draws') ∧ permutations = earlier ++ [p] := by
  rw [build, Option.bind_eq_bind, Option.bind_eq_some_iff] at h
  obtain ⟨⟨earlier, draws₁⟩, hbuild, h⟩ := h
  obtain ⟨⟨p, draws₂⟩, hfix, h⟩ := Option.bind_eq_some_iff.mp h
  obtain ⟨rfl, rfl⟩ := Prod.mk.inj (Option.some.inj h)
  exact ⟨earlier, draws₁, p, hbuild, hfix, rfl⟩

theorem build_some (hunadjusted : ∀ seed, (unadjusted seed).Bijective) (hpartners : Separate [partners])
    {draws draws' : List (Fin (n - 1))} {r : Nat} {permutations : List (AdjustablePermutation n)}
    (h : build unadjusted partners draws r = some (permutations, draws')) :
    permutations.length = r ∧ Separate (partners :: permutations.map get) := by
  induction r generalizing permutations draws' with
  | zero =>
      obtain ⟨rfl, _⟩ := Prod.mk.inj (Option.some.inj h)
      exact ⟨rfl, hpartners⟩
  | succ r ih =>
      obtain ⟨earlier, draws₁, p, hbuild, hfix, rfl⟩ := build_succ h
      obtain ⟨hlength, hseparate⟩ := ih hbuild
      have hfix' : fixPositions (isValid partners earlier) (create (unadjusted (seed n r)), draws₁)
          ((List.finRange n).take n) = some (p, draws') := by
        rwa [List.take_of_length_le (List.length_finRange).le]
      have hfilled := fixPositions_some (s := (create _, draws₁)) (hunadjusted _) le_rfl hfix'
      exact ⟨by simp [hlength], hseparate.extend hfilled⟩

/-- With at most n / 2 tables an invalid position has a partner to swap with. -/
theorem exists_swap {permutations : List (AdjustablePermutation n)} {p : AdjustablePermutation n}
    (hp : p.get.Bijective) (hseparate : Separate (partners :: permutations.map get))
    (hcount : 2 * (permutations.length + 2) ≤ n) {pos : Fin n}
    (hpos : isValid partners permutations pos (p.get pos) = false) :
    ∃ swapPos, swapPos ≠ pos ∧ canSwap (isValid partners permutations) p pos swapPos = true := by
  rw [← Bool.not_eq_true, isValid_iff] at hpos
  have hbijective : ∀ t ∈ id :: partners :: permutations.map get, t.Bijective := by
    intro t ht
    rcases List.mem_cons.mp ht with rfl | ht
    · exact Function.bijective_id
    · exact hseparate.bijective t ht
  obtain ⟨q, hne, hhere, hthere⟩ := exists_avoiding_swap hp hbijective (by simpa using hcount) hpos
  exact ⟨q, hne, Bool.and_eq_true_iff.mpr ⟨isValid_iff.mpr hhere, isValid_iff.mpr hthere⟩⟩

end Building

section Termination

variable {stream : Nat → Fin (n - 1)} (hfair : ∀ draw k, ∃ i ≥ k, stream i = draw)

def segment (stream : Nat → Fin (n - 1)) (k m : Nat) : List (Fin (n - 1)) := (List.range' k m).map stream

theorem segment_add (k m m' : Nat) : segment stream k (m + m') = segment stream k m ++ segment stream (k + m) m' := by
  rw [segment, segment, segment, ← List.map_append, List.range'_append_1]

/-- A computation that ends after finitely many of the draws, wherever in the
stream it begins. -/
def Finishes {α : Type} (stream : Nat → Fin (n - 1)) (c : List (Fin (n - 1)) → Option (α × List (Fin (n - 1))))
    (P : α → Prop) : Prop := ∀ k, ∃ m a, P a ∧ ∀ rest, c (segment stream k m ++ rest) = some (a, rest)

theorem Finishes.bind {α β : Type} {c : List (Fin (n - 1)) → Option (α × List (Fin (n - 1)))}
    {d : α → List (Fin (n - 1)) → Option (β × List (Fin (n - 1)))} {P : α → Prop} {Q : β → Prop}
    (hc : Finishes stream c P) (hd : ∀ a, P a → Finishes stream (d a) Q) :
    Finishes stream (fun draws => (c draws).bind fun s => d s.1 s.2) Q := by
  intro k
  obtain ⟨m, a, ha, hm⟩ := hc k
  obtain ⟨m', b, hb, hm'⟩ := hd a ha (k + m)
  refine ⟨m + m', b, hb, ?_⟩
  intro rest
  simp only [segment_add, List.append_assoc, hm, Option.bind_some, hm']

theorem Finishes.pure {α : Type} {P : α → Prop} {a : α} (ha : P a) : Finishes stream (fun draws => some (a, draws)) P :=
  fun _ => ⟨0, a, ha, fun _ => rfl⟩

include hfair

theorem findSwap_finishes {valid : Fin n → Fin n → Bool} {p : AdjustablePermutation n} {pos : Fin n}
    (hswap : ∃ swapPos, swapPos ≠ pos ∧ canSwap valid p pos swapPos = true) :
    Finishes stream (findSwap valid p pos) fun swapPos => swapPos ≠ pos ∧ canSwap valid p pos swapPos = true := by
  obtain ⟨swapPos, hne, hcan⟩ := hswap
  obtain ⟨draw, rfl⟩ := swapPosition_surjective hne
  intro k
  obtain ⟨i, hi, rfl⟩ := hfair draw k
  obtain ⟨m, rfl⟩ := Nat.exists_eq_add_of_le hi
  clear hi
  induction m generalizing k with
  | zero =>
      refine ⟨1, _, ⟨hne, hcan⟩, ?_⟩
      intro rest
      simp only [Nat.add_zero] at hcan
      simp [segment, findSwap, hcan]
  | succ m ih =>
      by_cases hfirst : canSwap valid p pos (swapPosition pos (stream k)) = true
      · refine ⟨1, _, ⟨swapPosition_ne pos (stream k), hfirst⟩, ?_⟩
        intro rest
        simp [segment, findSwap, hfirst]
      · have hshift : k + (m + 1) = k + 1 + m := by omega
        rw [hshift] at hne hcan
        obtain ⟨m', a, ha, hm'⟩ := ih (k + 1) hne hcan
        refine ⟨1 + m', a, ha, ?_⟩
        intro rest
        rw [segment_add, List.append_assoc]
        simpa [segment, findSwap, hfirst] using hm' rest

theorem fixPosition_finishes {valid : Fin n → Fin n → Bool} {p : AdjustablePermutation n} {pos : Fin n}
    (hswap : valid pos (p.get pos) = false → ∃ swapPos, swapPos ≠ pos ∧ canSwap valid p pos swapPos = true)
    (hfilled : Filled valid p pos) :
    Finishes stream (fun draws => fixPosition valid (p, draws) pos) fun p' => Filled valid p' (pos + 1) := by
  by_cases hvalid : valid pos (p.get pos) = true
  · simp only [fixPosition, hvalid, if_true]
    exact Finishes.pure (hfilled.next hvalid)
  · have hfind := findSwap_finishes hfair (hswap (Bool.not_eq_true _ ▸ hvalid))
    simp only [fixPosition, hvalid, Option.map_eq_bind]
    refine hfind.bind (d := fun swapPos draws => some (p.swapValues pos swapPos, draws)) ?_
    intro swapPos h
    exact Finishes.pure (hfilled.swapValues h.1 h.2)

theorem fixPositions_finishes {valid : Fin n → Fin n → Bool} {p : AdjustablePermutation n} (hp : p.get.Bijective)
    (hswap : ∀ (p : AdjustablePermutation n) pos, p.get.Bijective → valid pos (p.get pos) = false →
      ∃ swapPos, swapPos ≠ pos ∧ canSwap valid p pos swapPos = true) {k : Nat} (hk : k ≤ n) :
    Finishes stream (fun draws => fixPositions valid (p, draws) ((List.finRange n).take k))
      fun p' => Filled valid p' k := by
  induction k with
  | zero => exact Finishes.pure ⟨hp, fun q hq => absurd hq (Nat.not_lt_zero _)⟩
  | succ k ih =>
      have hstep : ∀ draws, fixPositions valid (p, draws) ((List.finRange n).take (k + 1)) =
          (fixPositions valid (p, draws) ((List.finRange n).take k)).bind fun s =>
            fixPosition valid (s.1, s.2) ⟨k, hk⟩ := by
        intro draws
        rw [finRange_take_succ hk, fixPositions, List.foldlM_append]
        simp [fixPositions]
      simp only [hstep]
      refine (ih (by omega)).bind (d := fun p draws => fixPosition valid (p, draws) ⟨k, hk⟩) ?_
      intro p' hp'
      exact fixPosition_finishes hfair (hswap p' ⟨k, hk⟩ hp'.bijective) hp'

theorem build_finishes {unadjusted : Int → Fin n → Fin n} {partners : Fin n → Fin n}
    (hunadjusted : ∀ seed, (unadjusted seed).Bijective) (hpartners : Separate [partners]) {r : Nat}
    (hr : 2 * (r + 1) ≤ n) : Finishes stream (fun draws => build unadjusted partners draws r)
      fun permutations => permutations.length = r ∧ Separate (partners :: permutations.map get) := by
  induction r with
  | zero => exact Finishes.pure ⟨rfl, hpartners⟩
  | succ r ih =>
      refine (ih (by omega)).bind (d := fun permutations draws =>
        (fixPositions (isValid partners permutations) (create (unadjusted (seed n r)), draws) (List.finRange n)).bind
          fun s => some (permutations ++ [s.1], s.2)) ?_
      rintro permutations ⟨hlength, hseparate⟩
      have hswap : ∀ (p : AdjustablePermutation n) pos, p.get.Bijective →
          isValid partners permutations pos (p.get pos) = false → ∃ swapPos, swapPos ≠ pos ∧
            canSwap (isValid partners permutations) p pos swapPos = true :=
        fun p pos hp hpos => exists_swap hp hseparate (by omega) hpos
      have hfix := fixPositions_finishes hfair (p := create _) (hunadjusted (seed n r)) hswap le_rfl
      rw [List.take_of_length_le List.length_finRange.le] at hfix
      refine hfix.bind (d := fun p draws => some (permutations ++ [p], draws)) ?_
      intro p hp
      exact Finishes.pure ⟨by simp [hlength], hseparate.extend hp⟩

end Termination

def AtPosition (unadjusted : Int → Fin n → Fin n) (degree : Nat) (permutations : List (AdjustablePermutation n))
    (p : AdjustablePermutation n) (pos : Fin n) : Prop :=
  ∃ r draws draws₁ draws₂, r + 1 < degree ∧
    build unadjusted (firstEdges unadjusted) draws r = some (permutations, draws₁) ∧
    fixPositions (isValid (firstEdges unadjusted) permutations) (create (unadjusted (seed n r)), draws₁)
      ((List.finRange n).take pos) = some (p, draws₂)

theorem firstEdges_separate {unadjusted : Int → Fin n → Fin n} (hunadjusted : ∀ seed, (unadjusted seed).Bijective)
    (hn : 2 ≤ n) : Separate [firstEdges unadjusted] := by
  have : Nontrivial (Fin n) := Fin.nontrivial_iff_two_le.mpr hn
  have hcycle : SingleCycle (firstEdges unadjusted) := intrinsicPartners_singleCycle (hunadjusted _)
  refine ⟨?_, ?_, List.pairwise_singleton _ _⟩
  · intro t ht
    exact List.mem_singleton.mp ht ▸ hcycle.bijective
  · intro t ht
    exact List.mem_singleton.mp ht ▸ hcycle.ne_self

/-- Whatever the draws are, the loops never come to a position that cannot be
mended, mend it without harm to earlier positions and build an expander. -/
theorem getPermutations_builds_expander {degree : Nat} (hdegree : 1 ≤ degree) (hn : 2 * degree ≤ n)
    {unadjusted : Int → Fin n → Fin n} (hunadjusted : ∀ seed, (unadjusted seed).Bijective) :
    (∀ permutations p pos, AtPosition unadjusted degree permutations p pos →
      (isValid (firstEdges unadjusted) permutations pos (p.get pos) = false → ∃ swapPos, swapPos ≠ pos ∧
        canSwap (isValid (firstEdges unadjusted) permutations) p pos swapPos = true) ∧
      (∀ swapPos, swapPos ≠ pos → canSwap (isValid (firstEdges unadjusted) permutations) p pos swapPos = true →
        ∀ q ≤ pos, isValid (firstEdges unadjusted) permutations q ((p.swapValues pos swapPos).get q) = true)) ∧
    (∀ draws tables, getPermutations unadjusted degree draws = some tables → tables.length = degree ∧
      (∀ t ∈ tables, t.Bijective ∧ ∀ x, t x ≠ x) ∧ tables.Pairwise (fun s t => ∀ x, s x ≠ t x) ∧
      ∃ first, tables.head? = some first ∧ SingleCycle first) ∧
    ∀ stream : Nat → Fin (n - 1), (∀ draw k, ∃ i ≥ k, stream i = draw) →
      ∃ m, (getPermutations unadjusted degree ((List.range m).map stream)).isSome := by
  have hfirst := firstEdges_separate hunadjusted (by omega)
  refine ⟨?_, ?_, ?_⟩
  · rintro permutations p pos ⟨r, draws, draws₁, draws₂, hr, hbuild, hfix⟩
    obtain ⟨hlength, hseparate⟩ := build_some hunadjusted hfirst hbuild
    have hfilled := fixPositions_some (s := (create _, draws₁)) (hunadjusted _) pos.isLt.le hfix
    refine ⟨exists_swap hfilled.bijective hseparate (by omega), ?_⟩
    intro swapPos hne hswap q hq
    exact (hfilled.swapValues hne hswap).valid q (Nat.lt_succ_of_le hq)
  · intro draws tables h
    obtain ⟨⟨permutations, draws'⟩, hbuild, rfl⟩ := Option.map_eq_some_iff.mp h
    obtain ⟨hlength, hseparate⟩ := build_some hunadjusted hfirst hbuild
    refine ⟨?_, fun t ht => ⟨hseparate.bijective t ht, hseparate.noFixedPoint t ht⟩, hseparate.distinct,
      firstEdges unadjusted, rfl, intrinsicPartners_singleCycle (hunadjusted _)⟩
    rw [List.length_cons, List.length_map, hlength]
    omega
  · intro stream hfair
    obtain ⟨m, permutations, _, hm⟩ := build_finishes hfair hunadjusted hfirst (r := degree - 1) (by omega) 0
    refine ⟨m, ?_⟩
    have hdraws : (List.range m).map stream = segment stream 0 m ++ [] := by
      rw [segment, List.append_nil, List.range_eq_range']
    have hbuild : build unadjusted (firstEdges unadjusted) (segment stream 0 m ++ []) (degree - 1) =
        some (permutations, []) := hm []
    rw [getPermutations, hdraws, hbuild]
    rfl

/-- Four ranks with two edges each, where the Feistel networks are the identity. -/
theorem getPermutations_builds_expander_four_ranks : ∃ tables : List (Fin 4 → Fin 4),
    getPermutations (fun _ x => x) 2 [0, 1, 2, 1, 0, 2, 1] = some tables ∧ tables.length = 2 ∧
      (∀ t ∈ tables, t.Bijective ∧ ∀ x, t x ≠ x) ∧ tables.Pairwise (fun s t => ∀ x, s x ≠ t x) ∧
      ∃ first, tables.head? = some first ∧ SingleCycle first := by
  have hsome : (getPermutations (n := 4) (fun _ x => x) 2 [0, 1, 2, 1, 0, 2, 1]).isSome = true := by decide +kernel
  obtain ⟨tables, htables⟩ := Option.isSome_iff_exists.mp hsome
  have hdegree : 2 * 2 ≤ 4 := by decide
  obtain ⟨_, hresult, _⟩ := getPermutations_builds_expander (by decide) hdegree (fun _ => Function.bijective_id)
  exact ⟨tables, htables, hresult _ _ htables⟩

end Mallob.ExpanderGraph
