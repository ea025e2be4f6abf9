import Mallob.OutgoingEdges
import Mallob.VolumeCalculator

namespace Mallob.ReductionTrees

open OutgoingEdges Walks
open VolumeCalculator (hashInt)

variable {n : Nat} {hash : Int → Nat} {myRank : Fin n}

def ints : Set Int := { a | -2 ^ 31 ≤ a ∧ a < 2 ^ 31 }

theorem addInt_mem_ints (x y : Int) : addInt x y ∈ ints := by
  have hlow := Int.le_bmod (x := x + y) (m := 2 ^ 32) (by decide)
  have hup := Int.bmod_lt (x := x + y) (m := 2 ^ 32) (by decide)
  rw [ints, Set.mem_ofPred_eq, addInt]
  omega

theorem addInt_inj {x y r : Int} (hx : 0 ≤ x ∧ x < 2 ^ 31) (hy : 0 ≤ y ∧ y < 2 ^ 31)
    (h : addInt x r = addInt y r) : x = y := by
  have hmod : (x + r) % (2 ^ 32 : Nat) = (y + r) % (2 ^ 32 : Nat) := by
    rw [← Int.bmod_emod (x := x + r), ← Int.bmod_emod (x := y + r)]
    exact congrArg (· % _) h
  omega

theorem comp_total (hhash : Set.InjOn hash ints) (hn : n ≤ int32Max) (distance : Fin n → Nat) (a b : Fin n)
    (h : equivalent (comp hash myRank distance) a b = true) : a = b := by
  rw [equivalent_iff_key (comp_iff_key_lt hash myRank distance)] at h
  obtain ⟨_, hsame⟩ := Prod.mk.inj (toLex_inj.mp h)
  have hsum := hhash (addInt_mem_ints _ _) (addInt_mem_ints _ _) hsame
  have ha := a.isLt
  have hb := b.isLt
  rw [int32Max] at hn
  have := addInt_inj (by omega) (by omega) hsum
  exact Fin.ext (by omega)

theorem fold_carry {r : Nat} (hr : r < 2 ^ 128) : ∃ q c : Nat, (c = 0 ∨ c = 1) ∧
    r = q * (2 ^ 64 - 1) + ((r / 2 ^ 64 + r % 2 ^ 64) % 2 ^ 64 + c) := by
  refine ⟨r / 2 ^ 64 + (r / 2 ^ 64 + r % 2 ^ 64) / 2 ^ 64, (r / 2 ^ 64 + r % 2 ^ 64) / 2 ^ 64, ?_, ?_⟩ <;> omega

/-- A hash is a product modulo 2 ^ 64 - 1, up to the carry of the last sum. -/
theorem hashInt_carry {a : Int} (ha : a ∈ ints) : ∃ q c e : Int, (c = 0 ∨ c = 1) ∧
    (e = 0 ∧ 0 ≤ a ∨ e = 1 ∧ a < 0) ∧ 0xde5fb9d2630458e9 * (a + e) = q * (2 ^ 64 - 1) + (hashInt a + c) := by
  obtain ⟨hlow, hup⟩ := ha
  obtain ⟨e, he, hmod⟩ : ∃ e : Int, (e = 0 ∧ 0 ≤ a ∨ e = 1 ∧ a < 0) ∧ a % 2 ^ 64 = a + e + e * (2 ^ 64 - 1) := by
    rcases lt_or_ge a 0 with hneg | hnonneg
    · exact ⟨1, Or.inr ⟨rfl, hneg⟩, by omega⟩
    · exact ⟨0, Or.inl ⟨rfl, hnonneg⟩, by omega⟩
  have hnat : ((a % 2 ^ 64).toNat : Int) = a + e + e * (2 ^ 64 - 1) := by
    rw [Int.toNat_of_nonneg (by omega), hmod]
  obtain ⟨q, c, hc, hq⟩ := fold_carry (r := (a % 2 ^ 64).toNat * 0xde5fb9d2630458e9) (by omega)
  have hfold : (a % 2 ^ 64).toNat * 0xde5fb9d2630458e9 = q * (2 ^ 64 - 1) + (hashInt a + c) := hq
  generalize (a % 2 ^ 64).toNat = r at hnat hfold
  have hint : (r : Int) * 0xde5fb9d2630458e9 = q * (2 ^ 64 - 1) + (hashInt a + c) := by omega
  refine ⟨q - 0xde5fb9d2630458e9 * e, c, e, by omega, he, ?_⟩
  rw [hnat] at hint
  linear_combination hint

theorem hashInt_injOn : Set.InjOn hashInt ints := by
  intro a ha b hb h
  obtain ⟨q, c, e, hc, he, hq⟩ := hashInt_carry ha
  obtain ⟨q', c', e', hc', he', hq'⟩ := hashInt_carry hb
  obtain ⟨z, hz⟩ : ∃ z, (a + e) - (b + e') = 5119921294385547656 * (c - c') + (2 ^ 64 - 1) * z := by
    refine ⟨5119921294385547656 * (q - q') - 4447410215832884025 * ((a + e) - (b + e')), ?_⟩
    rw [h] at hq
    linear_combination 5119921294385547656 * hq - 5119921294385547656 * hq'
  obtain ⟨hlow, hup⟩ := ha
  obtain ⟨hlow', hup'⟩ := hb
  clear hq hq'
  have hsame : a + e = b + e' := by omega
  clear hz
  rcases he with ⟨rfl, ha⟩ | ⟨rfl, ha⟩ <;> rcases he' with ⟨rfl, hb⟩ | ⟨rfl, hb⟩
  · omega
  · obtain ⟨rfl, rfl⟩ : a = 0 ∧ b = -1 := by omega
    exact absurd h (by decide +kernel)
  · obtain ⟨rfl, rfl⟩ : a = -1 ∧ b = 0 := by omega
    exact absurd h (by decide +kernel)
  · omega

def Edge (permutations : List (Fin n → Fin n)) (a b : Fin n) : Prop := ∃ p ∈ permutations, p a = b

variable {E : Fin n → Fin n → Prop}

/-- What the search knows between two passes of its loop: labels are lengths of
walks that begin with the noted edge, and visited nodes have their final label
and have told it to their successors. -/
structure Explored (E : Fin n → Fin n → Prop) (s : Search hash myRank) : Prop where
  root : s.distance myRank = 0
  labelled : ∀ x, x ≠ myRank → s.distance x < int32Max → ∃ edge k, s.bestOutgoingEdge x = some edge ∧
    E myRank edge ∧ s.distance x = k + 1 ∧ Walk E k edge x
  optimal : ∀ x, x ∉ s.unvisitedSet.toList → ∀ k, Walk E k myRank x → s.distance x ≤ k
  relaxed : ∀ x y, x ∉ s.unvisitedSet.toList → E x y → s.distance y ≤ s.distance x + 1

theorem Explored.walk {s : Search hash myRank} (h : Explored E s) {x : Fin n} (hx : s.distance x < int32Max) :
    Walk E (s.distance x) myRank x := by
  by_cases hroot : x = myRank
  · subst hroot
    rw [h.root]
    rfl
  · obtain ⟨edge, k, _, hedge, hk, hwalk⟩ := h.labelled x hroot hx
    rw [hk]
    exact ⟨edge, hedge, hwalk⟩

/-- A walk to an unvisited node passes an unvisited node with a label at most
as long. -/
theorem Explored.frontier {s : Search hash myRank} (h : Explored E s) {k : Nat} {x : Fin n}
    (hwalk : Walk E k myRank x) (hx : x ∈ s.unvisitedSet.toList) :
    ∃ y ∈ s.unvisitedSet.toList, s.distance y ≤ k := by
  induction k generalizing x with
  | zero =>
      obtain rfl : myRank = x := hwalk
      exact ⟨myRank, hx, h.root.le⟩
  | succ k ih =>
      obtain ⟨z, hz, hzx⟩ := walk_succ_iff.mp hwalk
      by_cases hvisited : z ∈ s.unvisitedSet.toList
      · obtain ⟨y, hy, hle⟩ := ih hz hvisited
        exact ⟨y, hy, hle.trans k.le_succ⟩
      · have hlast := h.relaxed z x hvisited hzx
        have hbest := h.optimal z hvisited k hz
        exact ⟨x, hx, by omega⟩

structure Current (E : Fin n → Fin n → Prop) (s : Search hash myRank) (u : Fin n) : Prop where
  unvisited : u ∈ s.unvisitedSet.toList
  least : ∀ y ∈ s.unvisitedSet.toList, s.distance u ≤ s.distance y
  optimal : ∀ k, Walk E k myRank u → s.distance u ≤ k
  finite : s.distance u < int32Max

theorem Explored.current {s : Search hash myRank} (h : Explored E s) {u : Fin n}
    (hreach : ∀ x, ∃ k < int32Max, Walk E k myRank x) (hu : s.unvisitedSet.next none = some u) : Current E s u := by
  obtain ⟨hmem, hfirst⟩ := OrderedSet.next_none_eq_some hu
  have hleast : ∀ y ∈ s.unvisitedSet.toList, s.distance u ≤ s.distance y := by
    intro y hy
    rcases hfirst y hy with rfl | hbefore
    · rfl
    · rw [comp_iff_key_lt, key, key, Prod.Lex.toLex_lt_toLex] at hbefore
      rcases hbefore with hlt | ⟨heq, _⟩
      · exact hlt.le
      · exact heq.le
  have hoptimal : ∀ k, Walk E k myRank u → s.distance u ≤ k := by
    intro k hk
    obtain ⟨y, hy, hle⟩ := h.frontier hk hmem
    exact (hleast y hy).trans hle
  obtain ⟨k, hk, hwalk⟩ := hreach u
  exact ⟨hmem, hleast, hoptimal, (hoptimal k hwalk).trans_lt hk⟩

theorem Explored.initEdge {s : Search hash myRank} (h : Explored E s) (u succ : Fin n) :
    Explored E (s.initEdge u succ) where
  root := h.root
  labelled := by
    intro x hx hfinite
    obtain ⟨edge, k, hbest, hrest⟩ := h.labelled x hx hfinite
    refine ⟨edge, k, ?_, hrest⟩
    rw [Search.initEdge]
    split
    · next hroot => exact (Function.update_of_ne (hroot ▸ hx) _ _).trans hbest
    · exact hbest
  optimal := h.optimal
  relaxed := h.relaxed

/-- The edge of the current node begins a walk to each of its successors. -/
theorem Explored.edge_of_current {s : Search hash myRank} (h : Explored E s) {u succ : Fin n}
    (hfinite : s.distance u < int32Max) (hsucc : E u succ) : ∃ edge,
    (s.initEdge u succ).bestOutgoingEdge u = some edge ∧ E myRank edge ∧ Walk E (s.distance u) edge succ := by
  by_cases hroot : u = myRank
  · subst hroot
    refine ⟨succ, ?_, hsucc, ?_⟩
    · simp [Search.initEdge]
    · rw [h.root]
      rfl
  · obtain ⟨edge, k, hbest, hedge, hk, hwalk⟩ := h.labelled u hroot hfinite
    refine ⟨edge, ?_, hedge, ?_⟩
    · simp [Search.initEdge, hroot, hbest]
    · rw [hk]
      exact walk_succ_iff.mpr ⟨u, hwalk, hsucc⟩

section Step

variable (htotal : ∀ (distance : Fin n → Nat) a b, equivalent (comp hash myRank distance) a b = true → a = b)

include htotal

theorem mem_setDistance (s : Search hash myRank) {x a : Fin n} {d : Nat} (hx : x ∈ s.unvisitedSet.toList) :
    a ∈ (s.setDistance x d).unvisitedSet.toList ↔ a ∈ s.unvisitedSet.toList := by
  have hinsert : a ∈ (s.setDistance x d).unvisitedSet.toList ↔ a = x ∨ a ∈ (s.unvisitedSet.erase x).toList :=
    OrderedSet.mem_insert (htotal _) _
  rw [hinsert, OrderedSet.mem_erase (htotal _)]
  by_cases h : a = x
  · simp [h, hx]
  · simp [h]

theorem mem_eraseNode (s : Search hash myRank) {x a : Fin n} :
    a ∈ (s.eraseNode x).unvisitedSet.toList ↔ a ≠ x ∧ a ∈ s.unvisitedSet.toList :=
  OrderedSet.mem_erase (htotal _) _

/-- A shorter label through the current node is the length of a walk again. -/
theorem Explored.setDistance {s : Search hash myRank} (h : Explored E s) {u succ edge : Fin n}
    (hsucc : succ ∈ s.unvisitedSet.toList) (hshorter : s.distance u + 1 < s.distance succ) (hedge : E myRank edge)
    (hwalk : Walk E (s.distance u) edge succ) :
    Explored E ((s.setDistance succ (s.distance u + 1)).setEdge succ (some edge)) where
  root := by
    have hne : myRank ≠ succ := by
      rintro rfl
      rw [h.root] at hshorter
      omega
    exact (Function.update_of_ne hne _ _).trans h.root
  labelled := by
    intro x hx hfinite
    by_cases heq : x = succ
    · subst heq
      exact ⟨edge, s.distance u, Function.update_self _ _ _, hedge, Function.update_self _ _ _, hwalk⟩
    · have hd : Function.update s.distance succ (s.distance u + 1) x = s.distance x := Function.update_of_ne heq _ _
      obtain ⟨edge', k, hbest, hedge', hk, hwalk'⟩ := h.labelled x hx (hd ▸ hfinite)
      exact ⟨edge', k, (Function.update_of_ne heq _ _).trans hbest, hedge', hd.trans hk, hwalk'⟩
  optimal := by
    intro x hx k hk
    have hvisited : x ∉ s.unvisitedSet.toList := fun hmem => hx ((mem_setDistance htotal s hsucc).mpr hmem)
    have hne : x ≠ succ := fun heq => hvisited (heq ▸ hsucc)
    exact (Function.update_of_ne hne _ s.distance).le.trans (h.optimal x hvisited k hk)
  relaxed := by
    intro x y hx hxy
    have hvisited : x ∉ s.unvisitedSet.toList := fun hmem => hx ((mem_setDistance htotal s hsucc).mpr hmem)
    have hne : x ≠ succ := fun heq => hvisited (heq ▸ hsucc)
    have hold := h.relaxed x y hvisited hxy
    have hd : ((s.setDistance succ (s.distance u + 1)).setEdge succ (some edge)).distance x = s.distance x :=
      Function.update_of_ne hne _ _
    rw [hd]
    by_cases heq : y = succ
    · subst heq
      have hnew : ((s.setDistance y (s.distance u + 1)).setEdge y (some edge)).distance y = s.distance u + 1 :=
        Function.update_self _ _ _
      omega
    · exact (Function.update_of_ne heq _ s.distance).le.trans hold

theorem Current.setDistance {s : Search hash myRank} {u succ : Fin n} (h : Current E s u)
    (hsucc : succ ∈ s.unvisitedSet.toList) (hne : u ≠ succ) (edge : Option (Fin n)) :
    Current E ((s.setDistance succ (s.distance u + 1)).setEdge succ edge) u := by
  have hu : ((s.setDistance succ (s.distance u + 1)).setEdge succ edge).distance u = s.distance u :=
    Function.update_of_ne hne _ _
  refine ⟨(mem_setDistance htotal s hsucc).mpr h.unvisited, ?_, ?_, ?_⟩
  · intro y hy
    rw [hu]
    by_cases heq : y = succ
    · subst heq
      have hnew : ((s.setDistance y (s.distance u + 1)).setEdge y edge).distance y = s.distance u + 1 :=
        Function.update_self _ _ _
      omega
    · have hy' := h.least y ((mem_setDistance htotal s hsucc).mp hy)
      exact hy'.trans (Function.update_of_ne heq _ s.distance).ge
  · intro k hk
    exact hu.le.trans (h.optimal k hk)
  · exact hu.le.trans_lt h.finite

structure Relaxed (E : Fin n → Fin n → Prop) (s s' : Search hash myRank) (u : Fin n) (succs : List (Fin n)) :
    Prop where
  explored : Explored E s'
  current : Current E s' u
  sameSet : ∀ x, x ∈ s'.unvisitedSet.toList ↔ x ∈ s.unvisitedSet.toList
  sameLabel : s'.distance u = s.distance u
  shorter : ∀ x, s'.distance x ≤ s.distance x
  told : ∀ x ∈ succs, s'.distance x ≤ s.distance u + 1

theorem update_ok {s : Search hash myRank} {u succ edge : Fin n} (h : Explored E s) (hu : Current E s u)
    (hsucc : succ ∈ s.unvisitedSet.toList) (hbest : s.bestOutgoingEdge u = some edge) (hedge : E myRank edge)
    (hwalk : Walk E (s.distance u) edge succ) :
    ∃ s', s.update u succ = .ok s' ∧ Relaxed E s s' u [succ] := by
  have hfinite := hu.finite.ne
  by_cases hshorter : s.distance u + 1 < s.distance succ
  · have hne : u ≠ succ := by
      rintro rfl
      omega
    refine ⟨(s.setDistance succ (s.distance u + 1)).setEdge succ (some edge), ?_,
      h.setDistance htotal hsucc hshorter hedge hwalk, hu.setDistance htotal hsucc hne _,
      fun x => mem_setDistance htotal s hsucc, Function.update_of_ne hne _ _, ?_, ?_⟩
    · simp [Search.update, hbest, hfinite, hshorter]
    · intro x
      by_cases heq : x = succ
      · subst heq
        exact (Function.update_self x _ s.distance).trans_le hshorter.le
      · exact (Function.update_of_ne heq _ s.distance).le
    · intro x hx
      obtain rfl := List.mem_singleton.mp hx
      exact (Function.update_self _ _ _).le
  · refine ⟨s, ?_, h, hu, fun x => Iff.rfl, rfl, fun x => le_rfl, ?_⟩
    · simp [Search.update, hbest, hfinite, hshorter]
    · intro x hx
      obtain rfl := List.mem_singleton.mp hx
      omega

theorem relax_ok {s : Search hash myRank} {u succ : Fin n} (h : Explored E s) (hu : Current E s u)
    (hsucc : E u succ) : ∃ s', s.relax u succ = .ok s' ∧ Relaxed E s s' u [succ] := by
  by_cases hmem : succ ∈ s.unvisitedSet.toList
  · obtain ⟨edge, hbest, hedge, hwalk⟩ := h.edge_of_current hu.finite hsucc
    have hu' : Current E (s.initEdge u succ) u := ⟨hu.unvisited, hu.least, hu.optimal, hu.finite⟩
    obtain ⟨s', hs', hr⟩ := update_ok htotal (h.initEdge u succ) hu' hmem hbest hedge hwalk
    refine ⟨s', ?_, hr.explored, hr.current, hr.sameSet, hr.sameLabel, hr.shorter, hr.told⟩
    rw [Search.relax, if_pos ((OrderedSet.contains_iff (htotal _) _).mpr hmem), hs']
  · refine ⟨s, ?_, h, hu, fun x => Iff.rfl, rfl, fun x => le_rfl, ?_⟩
    · rw [Search.relax, if_neg]
      rwa [OrderedSet.contains_iff (htotal _)]
    · intro x hx
      obtain rfl := List.mem_singleton.mp hx
      exact h.optimal x hmem _ (walk_succ_iff.mpr ⟨u, h.walk hu.finite, hsucc⟩)

theorem relaxAll_ok {s : Search hash myRank} {u : Fin n} {succs : List (Fin n)} (h : Explored E s)
    (hu : Current E s u) (hsuccs : ∀ x ∈ succs, E u x) :
    ∃ s', s.relaxAll u succs = .ok s' ∧ Relaxed E s s' u succs := by
  induction succs generalizing s with
  | nil => exact ⟨s, rfl, h, hu, fun x => Iff.rfl, rfl, fun x => le_rfl, fun x hx => by cases hx⟩
  | cons succ succs ih =>
      obtain ⟨s₁, hs₁, h₁⟩ := relax_ok htotal h hu (hsuccs succ (by simp))
      obtain ⟨s₂, hs₂, h₂⟩ := ih h₁.explored h₁.current (fun x hx => hsuccs x (by simp [hx]))
      refine ⟨s₂, ?_, h₂.explored, h₂.current, fun x => (h₂.sameSet x).trans (h₁.sameSet x),
        h₂.sameLabel.trans h₁.sameLabel, fun x => (h₂.shorter x).trans (h₁.shorter x), ?_⟩
      · rw [Search.relaxAll, List.foldlM_cons, hs₁]
        exact hs₂
      · intro x hx
        rcases List.mem_cons.mp hx with rfl | hx
        · exact (h₂.shorter x).trans (h₁.told x (by simp))
        · exact h₁.sameLabel ▸ h₂.told x hx

theorem Relaxed.eraseNode {s s' : Search hash myRank} {u : Fin n} {succs : List (Fin n)} (h : Relaxed E s s' u succs)
    (hsuccs : ∀ x, E u x → x ∈ succs) : Explored E (s'.eraseNode u) where
  root := h.explored.root
  labelled := h.explored.labelled
  optimal := by
    intro x hx k hk
    by_cases heq : x = u
    · subst heq
      exact h.current.optimal k hk
    · exact h.explored.optimal x (fun hmem => hx ((mem_eraseNode htotal s').mpr ⟨heq, hmem⟩)) k hk
  relaxed := by
    intro x y hx hxy
    by_cases heq : x = u
    · subst heq
      exact (h.told y (hsuccs y hxy)).trans (Nat.add_le_add_right h.sameLabel.ge 1)
    · exact h.explored.relaxed x y (fun hmem => hx ((mem_eraseNode htotal s').mpr ⟨heq, hmem⟩)) hxy

variable {permutations : List (Fin n → Fin n)}

theorem visit_ok {s : Search hash myRank} {u : Fin n} (h : Explored (Edge permutations) s)
    (hu : Current (Edge permutations) s u) : ∃ s', s.visit permutations u = .ok s' ∧
      Explored (Edge permutations) s' ∧
      ∀ x, x ∈ s'.unvisitedSet.toList ↔ x ≠ u ∧ x ∈ s.unvisitedSet.toList := by
  have hsuccs : ∀ x, x ∈ permutations.map (fun p => p u) ↔ Edge permutations u x := by
    intro x
    simp [Edge]
  obtain ⟨s₁, hs₁, h₁⟩ := relaxAll_ok htotal h hu (fun x hx => (hsuccs x).mp hx)
  refine ⟨s₁.eraseNode u, ?_, h₁.eraseNode htotal (fun x hx => (hsuccs x).mpr hx), ?_⟩
  · rw [Search.visit, hs₁]
    rfl
  · intro x
    rw [mem_eraseNode htotal, h₁.sameSet x]

theorem loop_ok {s : Search hash myRank} {fuel : Nat} (h : Explored (Edge permutations) s)
    (hreach : ∀ x, ∃ k < int32Max, Walk (Edge permutations) k myRank x)
    (hfuel : s.unvisitedSet.toList.length ≤ fuel) : ∃ s', s.loop permutations fuel = .ok s' ∧
      Explored (Edge permutations) s' ∧ s'.unvisitedSet.toList = [] := by
  induction fuel generalizing s with
  | zero =>
      have hempty : s.unvisitedSet.toList = [] := List.length_eq_zero_iff.mp (Nat.le_zero.mp hfuel)
      refine ⟨s, ?_, h, hempty⟩
      simp [Search.loop, OrderedSet.next, hempty]
  | succ fuel ih =>
      cases hnext : s.unvisitedSet.next none with
      | none =>
          refine ⟨s, ?_, h, OrderedSet.next_none_eq_none hnext⟩
          simp [Search.loop, hnext]
      | some u =>
          have hu := h.current hreach hnext
          obtain ⟨s₁, hs₁, h₁, hset⟩ := visit_ok htotal h hu
          have hsub : (u :: s₁.unvisitedSet.toList).length ≤ s.unvisitedSet.toList.length := by
            refine (List.subperm_of_subset ?_ ?_).length_le
            · exact List.nodup_cons.mpr ⟨fun hmem => ((hset u).mp hmem).1 rfl, s₁.unvisitedSet.nodup⟩
            · intro x hx
              rcases List.mem_cons.mp hx with rfl | hx
              · exact hu.unvisited
              · exact ((hset x).mp hx).2
          rw [List.length_cons] at hsub
          obtain ⟨s₂, hs₂, hrest⟩ := ih h₁ (by omega)
          refine ⟨s₂, ?_, hrest⟩
          simp [Search.loop, hnext, hs₁, hs₂, bind, Except.bind]

theorem start_explored : Explored E (Search.start hash myRank) := by
  have hall : ∀ x, x ∈ (Search.start hash myRank).unvisitedSet.toList := by
    intro x
    exact (OrderedSet.mem_insertAll (htotal _) _).mpr (Or.inr (List.mem_finRange x))
  refine ⟨by simp [Search.start], ?_, fun x hx => absurd (hall x) hx, fun x y hx => absurd (hall x) hx⟩
  intro x hx hfinite
  have hlabel : (Search.start hash myRank).distance x = int32Max := by simp [Search.start, hx]
  omega

/-- The table of one rank: for every other rank an edge on a shortest walk to it. -/
theorem getBestOutgoingEdgeForEachNode_ok
    (hreach : ∀ x, ∃ k < int32Max, Walk (Edge permutations) k myRank x) : ∃ table : Fin n → Fin n,
      getBestOutgoingEdgeForEachNode hash permutations myRank = .ok (fun x => some (table x)) ∧
      ∀ x, x ≠ myRank → Edge permutations myRank (table x) ∧
        dist (Edge permutations) (table x) x + 1 = dist (Edge permutations) myRank x := by
  obtain ⟨s, hs, h, hempty⟩ := loop_ok htotal (start_explored htotal) hreach
    ((OrderedSet.nodup _).length_le_card.trans_eq (Fintype.card_fin n))
  have hvisited : ∀ x, x ∉ s.unvisitedSet.toList := by
    intro x
    simp [hempty]
  have hentry : ∀ x, ∃ edge, x ≠ myRank → s.bestOutgoingEdge x = some edge ∧ Edge permutations myRank edge ∧
      dist (Edge permutations) edge x + 1 = dist (Edge permutations) myRank x := by
    intro x
    by_cases hroot : x = myRank
    · exact ⟨x, fun hne => absurd hroot hne⟩
    · obtain ⟨k, hk, hwalk⟩ := hreach x
      have hfinite := (h.optimal x (hvisited x) k hwalk).trans_lt hk
      obtain ⟨edge, m, hbest, hedge, hm, hrest⟩ := h.labelled x hroot hfinite
      refine ⟨edge, fun _ => ⟨hbest, hedge, dist_first_edge hedge hrest ?_⟩⟩
      intro j hj
      exact hm ▸ h.optimal x (hvisited x) j hj
  choose edges hedges using hentry
  refine ⟨Function.update edges myRank myRank, ?_, ?_⟩
  · rw [getBestOutgoingEdgeForEachNode, hs]
    refine congrArg Except.ok (funext fun x => ?_)
    by_cases hroot : x = myRank
    · simp [hroot]
    · simp [hroot, (hedges x hroot).1]
  · intro x hx
    rw [Function.update_of_ne hx]
    exact (hedges x hx).2

end Step

/-- With a cycle among the permutations the tables of all ranks are shortest
path tables, and those entries of theirs that belong to one root form a tree. -/
theorem getBestOutgoingEdgeForEachNode_forms_trees (hhash : Set.InjOn hash ints) (hn : n ≤ int32Max)
    {cycle : Fin n → Fin n} (hcycle : SingleCycle cycle) (others : List (Fin n → Fin n)) :
    ∃ table : Fin n → Fin n → Fin n,
      (∀ r, getBestOutgoingEdgeForEachNode hash (cycle :: others) r = .ok (fun x => some (table r x))) ∧
      (∀ r x, x ≠ r → Edge (cycle :: others) r (table r x) ∧
        Walk (Edge (cycle :: others)) (dist (Edge (cycle :: others)) r x) r x ∧
        dist (Edge (cycle :: others)) (table r x) x + 1 = dist (Edge (cycle :: others)) r x) ∧
      ∀ root r, ∃ k, (fun a => table a root)^[k] r = root ∧
        ∀ i j, i ≤ k → j ≤ k → (fun a => table a root)^[i] r = (fun a => table a root)^[j] r → i = j := by
  have hreach : ∀ r x, ∃ k < int32Max, Walk (Edge (cycle :: others)) k r x := by
    intro r x
    obtain ⟨k, hk, heq⟩ := hcycle.reaches_within r x
    rw [Fintype.card_fin] at hk
    have hwalk := walk_iterate (E := Edge (cycle :: others)) (p := cycle) (fun a => ⟨cycle, by simp, rfl⟩) k r
    exact ⟨k, hk.trans_le hn, heq ▸ hwalk⟩
  have hentries := fun r => getBestOutgoingEdgeForEachNode_ok (comp_total hhash hn) (hreach r)
  choose table htable hedges using hentries
  refine ⟨table, htable, ?_, ?_⟩
  · intro r x hx
    obtain ⟨k, _, hwalk⟩ := hreach r x
    exact ⟨(hedges r x hx).1, walk_dist hwalk, (hedges r x hx).2⟩
  · intro root r
    exact ⟨_, descent_reaches (μ := fun a => dist (Edge (cycle :: others)) a root)
      (fun a ha => (hedges a root ha.symm).2) (dist_self root) r⟩

/-- Four ranks, each with an edge to the next rank and one to the rank after. -/
theorem getBestOutgoingEdgeForEachNode_forms_trees_four_ranks :
    SingleCycle (fun r : Fin 4 => r + 1) ∧ ∃ table : Fin 4 → Fin 4 → Fin 4,
      (∀ r, getBestOutgoingEdgeForEachNode hashInt [fun r => r + 1, fun r => r + 2] r =
        .ok (fun x => some (table r x))) ∧
      ∀ root r, ∃ k, (fun a => table a root)^[k] r = root := by
  have hcycle : SingleCycle (fun r : Fin 4 => r + 1) :=
    ⟨by decide, fun a b => ⟨(b - a).val, by revert a b; decide⟩⟩
  obtain ⟨table, hok, _, htree⟩ := getBestOutgoingEdgeForEachNode_forms_trees hashInt_injOn (by decide) hcycle
    [fun r => r + 2]
  refine ⟨hcycle, table, hok, ?_⟩
  intro root r
  obtain ⟨k, hk, _⟩ := htree root r
  exact ⟨k, hk⟩

end Mallob.ReductionTrees
