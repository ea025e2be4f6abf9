import Mallob.IndexTree
import Mallob.SchedulerSteps

namespace Mallob.SubtreeRouting

open InactiveJobNode InactiveJobNodeList JobSchedulingUpdate IndexTree

section bounded

/-- The bounds of a layer in 32-bit integers; none is an overflow. -/
def bounded (bounds : Nat × Nat) : Option (Nat × Nat) :=
  if bounds.1 < 2 ^ 31 ∧ bounds.2 < 2 ^ 31 then some bounds else none

/-- The loop of both functions in 32-bit integers; none is an overflow or an
exhausted fuel. -/
def descendLoop (leftOffset originalIndex : Nat) : Nat → Nat × Nat → Option (Nat × Nat)
  | 0, _ => none
  | fuel + 1, (leftIndex, rightIndex) =>
    if originalIndex > rightIndex then
      (bounded (2 * leftIndex + leftOffset, 2 * rightIndex + 2)).bind (descendLoop leftOffset originalIndex fuel)
    else some (leftIndex, rightIndex)

def extractLoop (fuel indexOfRoot : Nat) (excludeRoot : Bool) (nodes : List InactiveJobNode) :
    Option ((Nat × Nat) × List InactiveJobNode) := do
  let bounds ← bounded
    (if excludeRoot then (2 * indexOfRoot + 1, 2 * indexOfRoot + 2) else (indexOfRoot, indexOfRoot))
  nodes.foldlM (fun (bounds, result) node => do
    let bounds ← descendLoop 1 node.originalIndex fuel bounds
    if bounds.1 ≤ node.originalIndex ∧ node.originalIndex ≤ bounds.2 then return (bounds, result ++ [node])
    return (bounds, result)) (bounds, [])

def extractSubtreeBounded (fuel : Nat) (nodes : InactiveJobNodeList) (indexOfRoot : Nat) (excludeRoot : Bool) :
    Option (InactiveJobNodeList × InactiveJobNodeList) :=
  (extractLoop fuel indexOfRoot excludeRoot nodes.toList).map fun (_, result) =>
    (OrderedSet.empty.insertAll result, nodes.eraseAll result)

def splitNodeBounded (fuel index : Nat) (sets : InactiveJobNodeList × InactiveJobNodeList) (node : InactiveJobNode) :
    Option (InactiveJobNodeList × InactiveJobNodeList) := do
  let bounds ← bounded (2 * index + 1, 2 * index + 2)
  if node.originalIndex < bounds.1 then
    if sets.1.toList.length < sets.2.toList.length then return (sets.1.insert node, sets.2)
    else return (sets.1, sets.2.insert node)
  else
    let (leftMax, _) ← descendLoop 2 node.originalIndex fuel bounds
    if node.originalIndex > leftMax then return (sets.1, sets.2.insert node)
    else return (sets.1.insert node, sets.2)

def splitBounded (fuel : Nat) (update : JobSchedulingUpdate) (index : Nat) :
    Option (InactiveJobNodeList × InactiveJobNodeList) :=
  update.inactiveJobNodes.toList.foldlM (splitNodeBounded fuel index) (OrderedSet.empty, OrderedSet.empty)

variable {leftOffset originalIndex fuel : Nat} {bounds : Nat × Nat}

theorem bounded_eq (h : bounds.1 ≤ bounds.2) (hlt : bounds.2 < 2 ^ 31) : bounded bounds = some bounds :=
  if_pos ⟨h.trans_lt hlt, hlt⟩

theorem descend_le (hoffset : leftOffset ≤ 2) (fuel : Nat) (h : bounds.1 ≤ bounds.2) :
    (descend leftOffset originalIndex fuel bounds).1 ≤ (descend leftOffset originalIndex fuel bounds).2 := by
  induction fuel generalizing bounds with
  | zero => exact h
  | succ fuel ih =>
      rw [descend]
      split
      · exact ih (by simp only; omega)
      · exact h

/-- For indices whose double fits the loop stays within the integers, and as
the right bound doubles, too, it soon ends. -/
theorem descendLoop_eq (hoffset : leftOffset ≤ 2) (hindex : originalIndex ≤ 2 ^ 30 - 2) (fuel' : Nat)
    (h : bounds.1 ≤ bounds.2) (hfuel : originalIndex + 2 ≤ 2 ^ fuel * (bounds.2 + 2))
    (hfuel' : originalIndex ≤ bounds.2 + fuel') :
    descendLoop leftOffset originalIndex (fuel + 1) bounds = some (descend leftOffset originalIndex fuel' bounds) := by
  induction fuel generalizing bounds fuel' with
  | zero =>
      have hle : ¬ originalIndex > bounds.2 := by
        rw [pow_zero, one_mul] at hfuel
        omega
      rw [descendLoop, if_neg hle]
      cases fuel' with
      | zero => rfl
      | succ fuel' => rw [descend, if_neg hle]
  | succ fuel ih =>
      rw [descendLoop]
      by_cases hgt : originalIndex > bounds.2
      · obtain ⟨f, rfl⟩ : ∃ f, fuel' = f + 1 := ⟨fuel' - 1, by omega⟩
        rw [if_pos hgt, bounded_eq (by simp only; omega) (by simp only; omega), Option.bind_some, descend, if_pos hgt]
        refine ih f (by simp only; omega) ?_ (by simp only; omega)
        calc originalIndex + 2 ≤ 2 ^ (fuel + 1) * (bounds.2 + 2) := hfuel
          _ = 2 ^ fuel * (2 * bounds.2 + 2 + 2) := by ring
      · rw [if_neg hgt]
        cases fuel' with
        | zero => rfl
        | succ fuel' => rw [descend, if_neg hgt]

theorem descendLoop_self (hoffset : leftOffset ≤ 2) (hindex : originalIndex ≤ 2 ^ 30 - 2) (h : bounds.1 ≤ bounds.2)
    (hfuel : 31 ≤ fuel) :
    descendLoop leftOffset originalIndex fuel bounds = some (descend leftOffset originalIndex originalIndex bounds) := by
  obtain ⟨f, rfl⟩ : ∃ f, fuel = f + 1 := ⟨fuel - 1, by omega⟩
  apply descendLoop_eq hoffset hindex originalIndex h
  · calc originalIndex + 2 ≤ 2 ^ 30 := by omega
      _ ≤ 2 ^ f := Nat.pow_le_pow_right (by norm_num) (by omega)
      _ ≤ 2 ^ f * (bounds.2 + 2) := Nat.le_mul_of_pos_right _ (by omega)
  · omega

theorem foldlM_eq_some {α β : Type} {f : β → α → Option β} {g : β → α → β} {P : β → Prop} {xs : List α} {b : β}
    (hb : P b) (hstep : ∀ b x, P b → x ∈ xs → f b x = some (g b x) ∧ P (g b x)) :
    xs.foldlM f b = some (xs.foldl g b) := by
  induction xs generalizing b with
  | nil => rfl
  | cons x xs ih =>
      obtain ⟨hx, hP⟩ := hstep b x hb (by simp)
      rw [List.foldlM_cons, hx, List.foldl_cons]
      exact ih hP fun b y hb hy => hstep b y hb (by simp [hy])

theorem splitBounded_eq {update : JobSchedulingUpdate} {index : Nat} (hi : index ≤ 2 ^ 30 - 2)
    (hindices : ∀ n ∈ update.inactiveJobNodes.toList, n.originalIndex ≤ 2 ^ 30 - 2) (hfuel : 31 ≤ fuel) :
    splitBounded fuel update index = some (update.split index) := by
  apply foldlM_eq_some (P := fun _ => True) trivial
  intro sets n _ hn
  refine ⟨?_, trivial⟩
  have hloop := @descendLoop_self 2 n.originalIndex fuel (2 * index + 1, 2 * index + 2) le_rfl (hindices n hn)
    (by simp) hfuel
  rw [splitNodeBounded, bounded_eq (by simp) (by simp only; omega), Option.bind_eq_bind, Option.bind_some, splitNode,
    rightmost]
  split
  · split
    · rfl
    · rfl
  · rw [hloop, Option.bind_some]
    generalize descend 2 n.originalIndex n.originalIndex (2 * index + 1, 2 * index + 2) = bounds
    dsimp only
    split
    · rfl
    · rfl

theorem extractSubtreeBounded_eq {nodes : InactiveJobNodeList} {indexOfRoot : Nat} (excludeRoot : Bool)
    (hi : indexOfRoot ≤ 2 ^ 30 - 2) (hindices : ∀ n ∈ nodes.toList, n.originalIndex ≤ 2 ^ 30 - 2)
    (hfuel : 31 ≤ fuel) :
    extractSubtreeBounded fuel nodes indexOfRoot excludeRoot = some (extractSubtree nodes indexOfRoot excludeRoot) := by
  have hstart : bounded (if excludeRoot then (2 * indexOfRoot + 1, 2 * indexOfRoot + 2) else (indexOfRoot, indexOfRoot)) =
      some (if excludeRoot then (2 * indexOfRoot + 1, 2 * indexOfRoot + 2) else (indexOfRoot, indexOfRoot)) := by
    cases excludeRoot with
    | true => exact bounded_eq (by simp) (by simp only [if_true]; omega)
    | false => exact bounded_eq le_rfl (by simp only [Bool.false_eq_true, if_false]; omega)
  rw [extractSubtreeBounded, extractLoop, hstart, Option.bind_eq_bind, Option.bind_some,
    foldlM_eq_some (P := fun b : (Nat × Nat) × List InactiveJobNode => b.1.1 ≤ b.1.2) (g := fun b node =>
      if (nextLayer node.originalIndex b.1).1 ≤ node.originalIndex ∧
          node.originalIndex ≤ (nextLayer node.originalIndex b.1).2 then
        (nextLayer node.originalIndex b.1, b.2 ++ [node])
      else (nextLayer node.originalIndex b.1, b.2))]
  · rfl
  · cases excludeRoot with
    | true => simp
    | false => simp
  · rintro ⟨bounds, result⟩ n hle hn
    have hloop := @descendLoop_self 1 n.originalIndex fuel bounds (by norm_num) (hindices n hn) hle hfuel
    have hnext : (nextLayer n.originalIndex bounds).1 ≤ (nextLayer n.originalIndex bounds).2 :=
      descend_le (by norm_num) _ hle
    refine ⟨?_, ?_⟩
    · dsimp only
      rw [hloop, Option.bind_some, nextLayer]
      split
      · rfl
      · rfl
    · dsimp only
      split
      · exact hnext
      · exact hnext

end bounded

theorem originalIndex_le_of_before {a b : InactiveJobNode} (h : before a b = true) :
    a.originalIndex ≤ b.originalIndex := by
  rw [before] at h
  split at h
  · exact (of_decide_eq_true h).le
  · next heq => exact (not_not.mp heq).le

section extracting

variable {root originalIndex t : Nat}

/-- The next layer is the first one from the present one on that reaches as far as the index. -/
theorem descend_layer (fuel : Nat) : ∃ t', t ≤ t' ∧
    descend 1 originalIndex fuel (first root t, last root t) = (first root t', last root t') ∧
    ∀ j, t ≤ j → j < t' → last root j < originalIndex := by
  induction fuel generalizing t with
  | zero => exact ⟨t, le_rfl, rfl, fun j hj hlt => by omega⟩
  | succ fuel ih =>
      rw [descend]
      split
      · next hgt =>
          rw [← first_succ, ← last_succ]
          obtain ⟨t', ht', heq, hbefore⟩ := @ih (t + 1)
          refine ⟨t', by omega, heq, ?_⟩
          intro j hj hlt
          rcases hj.eq_or_lt with rfl | hj
          · exact hgt
          · exact hbefore j hj hlt
      · exact ⟨t, le_rfl, rfl, fun j hj hlt => by omega⟩

def FromLayer (root start k : Nat) : Prop := ∃ t, start ≤ t ∧ first root t ≤ k ∧ k ≤ last root t

def collect (s : (Nat × Nat) × List InactiveJobNode) (node : InactiveJobNode) :
    (Nat × Nat) × List InactiveJobNode :=
  let bounds := nextLayer node.originalIndex s.1
  if bounds.1 ≤ node.originalIndex ∧ node.originalIndex ≤ bounds.2 then (bounds, s.2 ++ [node]) else (bounds, s.2)

/-- Over nodes in the order of their indices the layers only ever move on, and
the nodes found are those in one of them. -/
theorem foldl_collect {start : Nat} (xs : List InactiveJobNode) (hsorted : xs.Pairwise fun a b => before a b = true)
    (result : List InactiveJobNode) (hstart : start ≤ t)
    (hpast : ∀ j, start ≤ j → j < t → ∀ x ∈ xs, last root j < x.originalIndex) :
    ∃ ys, (xs.foldl collect ((first root t, last root t), result)).2 = result ++ ys ∧ ys.Sublist xs ∧
      ∀ n, n ∈ ys ↔ n ∈ xs ∧ FromLayer root start n.originalIndex := by
  induction xs generalizing t result with
  | nil => exact ⟨[], by simp⟩
  | cons x xs ih =>
      obtain ⟨hx, hxs⟩ := List.pairwise_cons.mp hsorted
      obtain ⟨t', ht', heq, hbefore⟩ := @descend_layer root x.originalIndex t x.originalIndex
      have hreach : x.originalIndex ≤ last root t' := by
        have hle := @le_descend 1 x.originalIndex x.originalIndex (first root t, last root t) (by omega)
        rw [heq] at hle
        exact hle
      have hpast' : ∀ j, start ≤ j → j < t' → last root j < x.originalIndex := by
        intro j hj hlt
        rcases Nat.lt_or_ge j t with hjt | hjt
        · exact hpast j hj hjt x (by simp)
        · exact hbefore j hjt hlt
      have hrest : ∀ j, start ≤ j → j < t' → ∀ y ∈ xs, last root j < y.originalIndex := by
        intro j hj hlt y hy
        exact (hpast' j hj hlt).trans_le (originalIndex_le_of_before (hx y hy))
      have hhere := mem_layer_iff (hstart.trans ht') hreach hpast'
      rw [List.foldl_cons, collect, nextLayer, heq]
      by_cases hin : first root t' ≤ x.originalIndex
      · obtain ⟨ys, hys, hsub, hmem⟩ := ih hxs (result ++ [x]) (hstart.trans ht') hrest
        refine ⟨x :: ys, ?_, hsub.cons_cons x, ?_⟩
        · rw [if_pos ⟨hin, hreach⟩, hys, List.append_assoc]
          rfl
        · intro n
          rw [List.mem_cons, List.mem_cons, hmem]
          constructor
          · rintro (rfl | ⟨hn, hl⟩)
            · exact ⟨Or.inl rfl, hhere.mp hin⟩
            · exact ⟨Or.inr hn, hl⟩
          · rintro ⟨rfl | hn, hl⟩
            · exact Or.inl rfl
            · exact Or.inr ⟨hn, hl⟩
      · obtain ⟨ys, hys, hsub, hmem⟩ := ih hxs result (hstart.trans ht') hrest
        refine ⟨ys, ?_, hsub.cons x, ?_⟩
        · rw [if_neg fun h => hin h.1, hys]
        · intro n
          rw [List.mem_cons, hmem]
          constructor
          · rintro ⟨hn, hl⟩; exact ⟨Or.inr hn, hl⟩
          · rintro ⟨rfl | hn, hl⟩
            · exact absurd (hhere.mpr hl) hin
            · exact ⟨hn, hl⟩

def InSubtree (root : Nat) (excludeRoot : Bool) (k : Nat) : Prop :=
  if excludeRoot then StrictlyBelow root k else Below root k

theorem extractSubtree_eq (nodes : InactiveJobNodeList) (root : Nat) (excludeRoot : Bool) :
    ∃ ys, (extractSubtree nodes root excludeRoot) = (OrderedSet.empty.insertAll ys, nodes.eraseAll ys) ∧
      ys.Sublist nodes.toList ∧
      ∀ n, n ∈ ys ↔ n ∈ nodes.toList ∧ InSubtree root excludeRoot n.originalIndex := by
  obtain ⟨start, hstart, hin⟩ : ∃ start,
      (if excludeRoot then (2 * root + 1, 2 * root + 2) else (root, root)) = (first root start, last root start) ∧
      ∀ k, FromLayer root start k ↔ InSubtree root excludeRoot k := by
    cases excludeRoot with
    | true =>
        refine ⟨1, ?_, fun k => ?_⟩
        · rw [first_succ, last_succ, first_zero, last_zero]
          rfl
        · exact strictlyBelow_iff.symm
    | false =>
        refine ⟨0, ?_, fun k => ?_⟩
        · rw [first_zero, last_zero]
          rfl
        · rw [FromLayer]
          simp only [Nat.zero_le, true_and]
          exact below_iff.symm
  obtain ⟨ys, hys, hsub, hmem⟩ := @foldl_collect root start start nodes.toList nodes.sorted [] le_rfl
    (fun j hj hlt => by omega)
  refine ⟨ys, ?_, hsub, ?_⟩
  · rw [List.nil_append] at hys
    rw [extractSubtree, hstart, ← hys]
    rfl
  · intro n
    rw [hmem, hin]

theorem mem_extractSubtree {nodes : InactiveJobNodeList} {excludeRoot : Bool} {n : InactiveJobNode} :
    (n ∈ (extractSubtree nodes root excludeRoot).1.toList ↔
      n ∈ nodes.toList ∧ InSubtree root excludeRoot n.originalIndex) ∧
    (n ∈ (extractSubtree nodes root excludeRoot).2.toList ↔
      n ∈ nodes.toList ∧ ¬ InSubtree root excludeRoot n.originalIndex) := by
  obtain ⟨ys, heq, hsub, hmem⟩ := extractSubtree_eq nodes root excludeRoot
  have hinserted := @OrderedSet.insertAll_of_sorted _ before _ OrderedSet.empty ys (nodes.sorted.sublist hsub)
  rw [heq]
  refine ⟨?_, ?_⟩
  · rw [hinserted]
    exact hmem n
  · rw [OrderedSet.mem_eraseAll_iff]
    refine and_congr_right fun hn => ?_
    constructor
    · intro hnone hin
      have hself := hnone n ((hmem n).mpr ⟨hn, hin⟩)
      rw [equivalent_self] at hself
      cases hself
    · intro hout x hx
      obtain ⟨hx, hin⟩ := (hmem x).mp hx
      rw [← Bool.not_eq_true]
      intro hsame
      rw [nodes.eq_of_equivalent hx hn hsame] at hin
      exact hout hin

end extracting

section splitting

variable {index originalIndex t : Nat}

/-- Both right borders go down layer by layer until the right one reaches as far as the index. -/
theorem descend_borders (a b fuel : Nat) : ∃ t', t ≤ t' ∧
    descend 2 originalIndex fuel (last a t, last b t) = (last a t', last b t') ∧
    ∀ j, t ≤ j → j < t' → last b j < originalIndex := by
  induction fuel generalizing t with
  | zero => exact ⟨t, le_rfl, rfl, fun j hj hlt => by omega⟩
  | succ fuel ih =>
      rw [descend]
      split
      · next hgt =>
          rw [← last_succ, ← last_succ]
          obtain ⟨t', ht', heq, hbefore⟩ := @ih (t + 1)
          refine ⟨t', by omega, heq, ?_⟩
          intro j hj hlt
          rcases hj.eq_or_lt with rfl | hj
          · exact hgt
          · exact hbefore j hj hlt
      · exact ⟨t, le_rfl, rfl, fun j hj hlt => by omega⟩

/-- The walk stops in the layer of the index, where the left border parts the
two subtrees. -/
theorem rightmost_parts (index originalIndex : Nat) :
    (Below (2 * index + 1) originalIndex →
      originalIndex ≤ (rightmost originalIndex (2 * index + 1, 2 * index + 2)).1) ∧
    (Below (2 * index + 2) originalIndex →
      (rightmost originalIndex (2 * index + 1, 2 * index + 2)).1 < originalIndex) := by
  obtain ⟨t, _, heq, hbefore⟩ :=
    @descend_borders originalIndex 0 (2 * index + 1) (2 * index + 2) originalIndex
  rw [last_zero, last_zero] at heq
  have hreach : originalIndex ≤ last (2 * index + 2) t := by
    have hle := @le_descend 2 originalIndex originalIndex (2 * index + 1, 2 * index + 2) (by omega)
    rw [heq] at hle
    exact hle
  have hlayer : ∀ s, first index (s + 1) ≤ originalIndex → originalIndex ≤ last index (s + 1) → s = t := by
    intro s hf hl
    rcases lt_trichotomy s t with hlt | rfl | hgt
    · have := hbefore s (Nat.zero_le s) hlt
      rw [last_right] at this
      omega
    · rfl
    · have := last_lt_first index (Nat.succ_lt_succ hgt)
      rw [last_right] at hreach
      simp only [Nat.succ_eq_add_one] at this
      omega
  rw [rightmost, heq]
  constructor
  · intro hbelow
    obtain ⟨s, hf, hl⟩ := below_iff.mp hbelow
    have h1 := last_left_add_one index s
    have h2 := first_le_last (2 * index + 2) s
    rw [← hlayer s (by rw [← first_left]; exact hf) (by rw [← last_right]; omega)]
    exact hl
  · intro hbelow
    obtain ⟨s, hf, hl⟩ := below_iff.mp hbelow
    have h1 := last_left_add_one index s
    have h2 := first_le_last (2 * index + 1) s
    rw [← hlayer s (by rw [← first_left]; omega) (by rw [← last_right]; exact hl)]
    omega

theorem splitNode_side (index : Nat) (sets : InactiveJobNodeList × InactiveJobNodeList) (node : InactiveJobNode) :
    splitNode index sets node = (sets.1.insert node, sets.2) ∧ ¬ Below (2 * index + 2) node.originalIndex ∨
      splitNode index sets node = (sets.1, sets.2.insert node) ∧ ¬ Below (2 * index + 1) node.originalIndex := by
  obtain ⟨hleft, hright⟩ := rightmost_parts index node.originalIndex
  rw [splitNode]
  split
  · next hsmall =>
      split
      · refine Or.inl ⟨rfl, fun hbelow => ?_⟩
        have := le_of_below hbelow
        omega
      · refine Or.inr ⟨rfl, fun hbelow => ?_⟩
        have := le_of_below hbelow
        omega
  · dsimp only
    split
    · next hgt =>
        refine Or.inr ⟨rfl, fun hbelow => ?_⟩
        have := hleft hbelow
        omega
    · next hle =>
        refine Or.inl ⟨rfl, fun hbelow => ?_⟩
        have := hright hbelow
        omega

/-- Nodes in the order of the set are appended to one of the two parts each. -/
theorem foldl_splitNode (index : Nat) (xs : List InactiveJobNode)
    (hsorted : xs.Pairwise fun a b => before a b = true) (sets : InactiveJobNodeList × InactiveJobNodeList)
    (hbefore : ∀ m, m ∈ sets.1.toList ∨ m ∈ sets.2.toList → ∀ x ∈ xs, before m x = true) :
    ∃ ls rs, (xs.foldl (splitNode index) sets).1.toList = sets.1.toList ++ ls ∧
      (xs.foldl (splitNode index) sets).2.toList = sets.2.toList ++ rs ∧ (ls ++ rs).Perm xs ∧
      (∀ n ∈ ls, ¬ Below (2 * index + 2) n.originalIndex) ∧ ∀ n ∈ rs, ¬ Below (2 * index + 1) n.originalIndex := by
  induction xs generalizing sets with
  | nil => exact ⟨[], [], by simp⟩
  | cons x xs ih =>
      obtain ⟨hx, hxs⟩ := List.pairwise_cons.mp hsorted
      have hlast : ∀ s : InactiveJobNodeList, (∀ m ∈ s.toList, before m x = true) →
          (s.insert x).toList = s.toList ++ [x] := fun s hs =>
        OrderedSet.insertSorted_last (fun y hy => Comparator.asymm (hs y hy)) hs
      have hnew : ∀ s : InactiveJobNodeList, (∀ m ∈ s.toList, ∀ y ∈ x :: xs, before m y = true) →
          ∀ m ∈ (s.insert x).toList, ∀ y ∈ xs, before m y = true := by
        intro s hs m hm y hy
        rcases OrderedSet.mem_of_mem_insert hm with rfl | hm
        · exact hx y hy
        · exact hs m hm y (by simp [hy])
      rw [List.foldl_cons]
      rcases splitNode_side index sets x with ⟨heq, hout⟩ | ⟨heq, hout⟩
      · rw [heq]
        obtain ⟨ls, rs, hl, hr, hperm, hls, hrs⟩ := ih hxs (sets.1.insert x, sets.2) (by
          rintro m (hm | hm) y hy
          · exact hnew sets.1 (fun m hm => hbefore m (Or.inl hm)) m hm y hy
          · exact hbefore m (Or.inr hm) y (by simp [hy]))
        refine ⟨x :: ls, rs, ?_, hr, hperm.cons x, ?_, hrs⟩
        · rw [hl, hlast sets.1 fun m hm => hbefore m (Or.inl hm) x (by simp), List.append_assoc]
          rfl
        · intro n hn
          rcases List.mem_cons.mp hn with rfl | hn
          · exact hout
          · exact hls n hn
      · rw [heq]
        obtain ⟨ls, rs, hl, hr, hperm, hls, hrs⟩ := ih hxs (sets.1, sets.2.insert x) (by
          rintro m (hm | hm) y hy
          · exact hbefore m (Or.inl hm) y (by simp [hy])
          · exact hnew sets.2 (fun m hm => hbefore m (Or.inr hm)) m hm y hy)
        refine ⟨ls, x :: rs, hl, ?_, List.perm_middle.trans (hperm.cons x), hls, ?_⟩
        · rw [hr, hlast sets.2 fun m hm => hbefore m (Or.inr hm) x (by simp), List.append_assoc]
          rfl
        · intro n hn
          rcases List.mem_cons.mp hn with rfl | hn
          · exact hout
          · exact hrs n hn

/-- The two parts of a split make up the list, and neither holds a node of the
other one's subtree. -/
theorem split_parts (update : JobSchedulingUpdate) (index : Nat) :
    ((update.split index).1.toList ++ (update.split index).2.toList).Perm update.inactiveJobNodes.toList ∧
    (∀ n ∈ (update.split index).1.toList, ¬ Below (2 * index + 2) n.originalIndex) ∧
    ∀ n ∈ (update.split index).2.toList, ¬ Below (2 * index + 1) n.originalIndex := by
  obtain ⟨ls, rs, hl, hr, hperm, hls, hrs⟩ := foldl_splitNode index update.inactiveJobNodes.toList
    update.inactiveJobNodes.sorted (OrderedSet.empty, OrderedSet.empty)
    (fun m hm => by rcases hm with hm | hm <;> cases hm)
  have hl' : (update.split index).1.toList = ls := hl
  have hr' : (update.split index).2.toList = rs := hr
  rw [hl', hr']
  exact ⟨hperm, hls, hrs⟩

end splitting

section joining

open ChildInterface

def Restated (nodes nodes' : InactiveJobNodeList) : Prop :=
  ∀ n ∈ nodes.toList, ∃ status, (status = .lost ↔ n.status = .lost) ∧ n.withStatus status ∈ nodes'.toList

theorem Restated.refl (nodes : InactiveJobNodeList) : Restated nodes nodes := fun n hn => ⟨n.status, Iff.rfl, hn⟩

theorem Restated.trans {nodes₁ nodes₂ nodes₃ : InactiveJobNodeList} (h : Restated nodes₁ nodes₂)
    (h' : Restated nodes₂ nodes₃) : Restated nodes₁ nodes₃ := by
  intro n hn
  obtain ⟨status, hstatus, hmem⟩ := h n hn
  obtain ⟨status', hstatus', hmem'⟩ := h' _ hmem
  exact ⟨status', hstatus'.trans hstatus, hmem'⟩

theorem setStatuses_restated (nodes : InactiveJobNodeList) {f : InactiveJobNode → Status}
    (hf : ∀ n, f n = .lost ↔ n.status = .lost) : Restated nodes (setStatuses nodes f) :=
  fun n hn => ⟨f n, hf n, mem_setStatuses.mpr ⟨n, hn, rfl⟩⟩

theorem notifyRemainingInactiveNodes_restated (c : ChildInterface) (particularIndex : Option Nat) :
    Restated c.nodes (c.notifyRemainingInactiveNodes particularIndex).1.nodes := by
  apply setStatuses_restated
  intro n
  split
  · next hrelease =>
      have havailable : n.status = .available := (of_decide_eq_true hrelease).1
      simp [havailable]
  · exact Iff.rfl

theorem recruitChild_restated (c : ChildInterface) : Restated c.nodes c.recruitChild.1.nodes := by
  rw [recruitChild]
  cases c.candidate with
  | some node => exact Restated.refl _
  | none => exact notifyRemainingInactiveNodes_restated c _

theorem handleBalancingUpdate_restated (c : ChildInterface) (newEpoch newVolume : Int) (hasChild : Bool) :
    Restated c.nodes (c.handleBalancingUpdate newEpoch newVolume hasChild).1.nodes := by
  have hrenew : Restated c.nodes (c.renew newEpoch newVolume).nodes :=
    setStatuses_restated c.nodes fun n => ⟨renewedStatus_lost, fun hlost => by simp [renewedStatus, hlost]⟩
  rcases c.handleBalancingUpdate_cases newEpoch newVolume hasChild with ⟨h, _⟩ | ⟨h, _⟩ | ⟨h, _⟩
  · rw [h]
    exact Restated.refl _
  · rw [h]
    exact hrenew.trans (recruitChild_restated _)
  · rw [h]
    exact hrenew.trans (notifyRemainingInactiveNodes_restated _ _)

theorem newSession_restated (s : LocalScheduler) (side : Side) (nodes : InactiveJobNodeList) :
    Restated nodes (s.newSession side nodes).nodes := by
  rw [LocalScheduler.newSession]
  split
  · exact handleBalancingUpdate_restated { jobId := s.jobId, nodes := nodes, childIndex := s.childIndex side } _ _ _
  · exact Restated.refl _

def joiningUpdate (c : ChildInterface) (epoch : Int) : JobSchedulingUpdate where
  jobId := c.jobId
  destinationIndex := c.childIndex
  epoch := epoch
  volume := c.volume
  inactiveJobNodes := cleanUpStatuses (extractSubtree c.nodes c.childIndex true).1

theorem handleChildJoining_sends (c : ChildInterface) (source epoch : Int) :
    Action.initializeChildWithNodes source (joiningUpdate c epoch) ∈ (c.handleChildJoining source epoch).2 :=
  List.mem_cons_self

/-- The nodes below the child are taken out of the session, and those that are
not lost are sent. -/
theorem mem_joiningUpdate {c : ChildInterface} {n : InactiveJobNode} {nodes : InactiveJobNodeList}
    (hrestated : Restated nodes c.nodes) (hn : n ∈ nodes.toList) (hbelow : StrictlyBelow c.childIndex n.originalIndex)
    (epoch : Int) : (∃ status, n.withStatus status ∈ (extractSubtree c.nodes c.childIndex true).1.toList) ∧
      (n.status ≠ .lost → n.withStatus .available ∈ (joiningUpdate c epoch).inactiveJobNodes.toList) := by
  obtain ⟨status, hstatus, hmem⟩ := hrestated n hn
  have hextracted : n.withStatus status ∈ (extractSubtree c.nodes c.childIndex true).1.toList :=
    mem_extractSubtree.1.mpr ⟨hmem, hbelow⟩
  exact ⟨⟨status, hextracted⟩, fun hlost =>
    mem_cleanUpStatuses.mpr ⟨n.withStatus status, hextracted, fun h => hlost (hstatus.mp h), rfl⟩⟩

variable {s s' : LocalScheduler} {update : JobSchedulingUpdate} {parentRank : Int} {side : Side} {c : ChildInterface}

/-- A session that an update has opened holds the nodes below its child. -/
theorem opened_restated (hnone : ∀ side, s.sessions side = none)
    (hs' : s.initializeScheduling update parentRank = .ok s') (hc : s'.sessions side = some c) :
    c.childIndex = s.childIndex side ∧ ∃ nodes, Restated nodes c.nodes ∧
      ∀ n ∈ update.inactiveJobNodes.toList, Below (s.childIndex side) n.originalIndex → n ∈ nodes.toList := by
  obtain ⟨hperm, hleft, hright⟩ := split_parts update s.index
  have hpart : ∀ n ∈ update.inactiveJobNodes.toList,
      n ∈ (update.split s.index).1.toList ∨ n ∈ (update.split s.index).2.toList := fun n hn =>
    List.mem_append.mp (hperm.mem_iff.mpr hn)
  by_cases hpast : s.index > 0 ∧ update.epoch ≤ s.epochOfLastSuspension
  · simp only [LocalScheduler.initializeScheduling, hpast, and_self, if_true] at hs'
    obtain rfl := Except.ok.inj hs'
    cases (hnone side).symm.trans hc
  · obtain ⟨s₁, l, r, hs₁, hl, hr, hcl, hcr⟩ := LocalScheduler.opened_sessions hnone hpast parentRank
    obtain rfl := Except.ok.inj (hs₁.symm.trans hs')
    cases side with
    | left =>
        obtain rfl := Option.some.inj (hcl.symm.trans hc)
        refine ⟨?_, _, newSession_restated l .left _, fun n hn hbelow => ?_⟩
        · rw [(l.newSession_kept .left _).1, LocalScheduler.childIndex, LocalScheduler.childIndex, hl]
        · have hindex : s.childIndex .left = 2 * s.index + 1 := by simp only [LocalScheduler.childIndex]; omega
          rw [hindex] at hbelow
          rcases hpart n hn with h | h
          · exact h
          · exact absurd hbelow (hright n h)
    | right =>
        obtain rfl := Option.some.inj (hcr.symm.trans hc)
        refine ⟨?_, _, newSession_restated r .right _, fun n hn hbelow => ?_⟩
        · rw [(r.newSession_kept .right _).1, LocalScheduler.childIndex, LocalScheduler.childIndex, hr]
        · have hindex : s.childIndex .right = 2 * s.index + 2 := by simp only [LocalScheduler.childIndex]; omega
          rw [hindex] at hbelow
          rcases hpart n hn with h | h
          · exact absurd hbelow (hleft n h)
          · exact h

end joining

/-- Both functions end within the integers for indices up to 2 ^ 30 - 2, split
parts the nodes along the two subtrees, extractSubtree takes exactly a subtree,
and so a child is sent everything strictly below it. -/
theorem inactive_nodes_routed {fuel : Nat} (hfuel : 31 ≤ fuel) :
    (∀ (update : JobSchedulingUpdate) (index : Nat), index ≤ 2 ^ 30 - 2 →
      (∀ n ∈ update.inactiveJobNodes.toList, n.originalIndex ≤ 2 ^ 30 - 2) →
      ∃ left right, splitBounded fuel update index = some (left, right) ∧
        (∀ n, n ∈ left.toList ∨ n ∈ right.toList ↔ n ∈ update.inactiveJobNodes.toList) ∧
        (∀ n, ¬ (n ∈ left.toList ∧ n ∈ right.toList)) ∧
        ∀ n ∈ update.inactiveJobNodes.toList,
          (Below (2 * index + 1) n.originalIndex → n ∈ left.toList) ∧
          (Below (2 * index + 2) n.originalIndex → n ∈ right.toList)) ∧
    (∀ (nodes : InactiveJobNodeList) (root : Nat) (excludeRoot : Bool), root ≤ 2 ^ 30 - 2 →
      (∀ n ∈ nodes.toList, n.originalIndex ≤ 2 ^ 30 - 2) →
      ∃ subtree remaining, extractSubtreeBounded fuel nodes root excludeRoot = some (subtree, remaining) ∧
        ∀ n, (n ∈ subtree.toList ↔ n ∈ nodes.toList ∧ InSubtree root excludeRoot n.originalIndex) ∧
          (n ∈ remaining.toList ↔ n ∈ nodes.toList ∧ ¬ InSubtree root excludeRoot n.originalIndex)) ∧
    (∀ (s s' : LocalScheduler) (update : JobSchedulingUpdate) (parentRank : Int) (side : Side) (c : ChildInterface),
      (∀ side, s.sessions side = none) → s.initializeScheduling update parentRank = .ok s' →
      s'.sessions side = some c → ∀ source epoch : Int, ∃ sent,
        Action.initializeChildWithNodes source sent ∈ (c.handleChildJoining source epoch).2 ∧
        ∀ n ∈ update.inactiveJobNodes.toList, StrictlyBelow (s.childIndex side) n.originalIndex →
          (∃ status, n.withStatus status ∈ (extractSubtree c.nodes c.childIndex true).1.toList) ∧
          (n.status ≠ .lost → n.withStatus .available ∈ sent.inactiveJobNodes.toList)) := by
  refine ⟨?_, ?_, ?_⟩
  · intro update index hi hindices
    obtain ⟨hperm, hleft, hright⟩ := split_parts update index
    have hmem : ∀ n, n ∈ (update.split index).1.toList ∨ n ∈ (update.split index).2.toList ↔
        n ∈ update.inactiveJobNodes.toList := fun n => by rw [← hperm.mem_iff, List.mem_append]
    refine ⟨_, _, splitBounded_eq hi hindices hfuel, hmem, ?_, ?_⟩
    · rintro n ⟨hl, hr⟩
      have hnodup := hperm.nodup_iff.mpr update.inactiveJobNodes.nodup
      exact (List.nodup_append.mp hnodup).2.2 n hl n hr rfl
    · intro n hn
      refine ⟨fun hbelow => ?_, fun hbelow => ?_⟩
      · exact ((hmem n).mpr hn).resolve_right fun h => hright n h hbelow
      · exact ((hmem n).mpr hn).resolve_left fun h => hleft n h hbelow
  · intro nodes root excludeRoot hi hindices
    exact ⟨_, _, extractSubtreeBounded_eq excludeRoot hi hindices hfuel, fun n => mem_extractSubtree⟩
  · intro s s' update parentRank side c hnone hs' hc source epoch
    obtain ⟨hindex, nodes, hrestated, hnodes⟩ := opened_restated hnone hs' hc
    refine ⟨_, handleChildJoining_sends c source epoch, fun n hn hbelow => ?_⟩
    have hin : Below (s.childIndex side) n.originalIndex := by
      obtain ⟨t, _, hf, hl⟩ := strictlyBelow_iff.mp hbelow
      exact below_iff.mpr ⟨t, hf, hl⟩
    exact mem_joiningUpdate hrestated (hnodes n hn hin) (by rw [hindex]; exact hbelow) epoch

def nodesAt (indices : List Nat) : InactiveJobNodeList :=
  OrderedSet.empty.insertAll (indices.map fun index : Nat => ⟨index, index, 1, .available⟩)

theorem inactive_nodes_routed_seven_nodes :
    (∃ left right, splitBounded 31 { inactiveJobNodes := nodesAt [0, 3, 4, 5, 6, 9, 11] } 0 = some (left, right) ∧
      left.toList.map (·.originalIndex) = [3, 4, 9] ∧ right.toList.map (·.originalIndex) = [0, 5, 6, 11]) ∧
    ∃ subtree remaining, extractSubtreeBounded 31 (nodesAt [0, 3, 4, 5, 6, 9, 11]) 1 true = some (subtree, remaining) ∧
      ∀ n ∈ remaining.toList, ¬ InSubtree 1 true n.originalIndex := by
  obtain ⟨hsplit, hextract, _⟩ := @inactive_nodes_routed 31 le_rfl
  obtain ⟨left, right, heq, _⟩ := hsplit { inactiveJobNodes := nodesAt [0, 3, 4, 5, 6, 9, 11] } 0 (by decide)
    (by decide +kernel)
  obtain ⟨subtree, remaining, hextracted, hmem⟩ := hextract (nodesAt [0, 3, 4, 5, 6, 9, 11]) 1 true (by decide)
    (by decide +kernel)
  refine ⟨⟨left, right, heq, ?_⟩, subtree, remaining, hextracted, fun n hn => ((hmem n).2.mp hn).2⟩
  have hparts : (splitBounded 31 { inactiveJobNodes := nodesAt [0, 3, 4, 5, 6, 9, 11] } 0).map
      (fun parts => (parts.1.toList.map (·.originalIndex), parts.2.toList.map (·.originalIndex))) =
      some ([3, 4, 9], [0, 5, 6, 11]) := by decide +kernel
  rw [heq] at hparts
  exact Prod.mk.inj (Option.some.inj hparts)

end Mallob.SubtreeRouting
