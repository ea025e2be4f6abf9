import Mallob.GroupedJoin
import Mallob.SubtreeRouting

namespace Mallob.NodeMerging

open InactiveJobNode InactiveJobNodeList GroupedJoin

def identity (n : InactiveJobNode) : Int × Nat × Int := (n.rank, n.originalIndex, n.lastEpoch)

def preference : Preference (Int × Nat × Int) Int (Intᵒᵈ ×ₗ Nat) where
  group := fun k => k.1
  value := fun k => toLex (OrderDual.toDual k.2.2, k.2.1)
  injective := by
    rintro ⟨r, i, e⟩ ⟨r', i', e'⟩ hr hv
    obtain ⟨he, hi⟩ := Prod.mk.inj hv
    obtain rfl : r = r' := hr
    obtain rfl : i = i' := hi
    obtain rfl : e = e' := he
    rfl

def identities (nodes : InactiveJobNodeList) : Finset (Int × Nat × Int) := (nodes.toList.map identity).toFinset

theorem mem_identities {nodes : InactiveJobNodeList} {k : Int × Nat × Int} :
    k ∈ identities nodes ↔ ∃ n ∈ nodes.toList, identity n = k := by simp [identities]

theorem identity_eq_iff {nodes : InactiveJobNodeList} {n m : InactiveJobNode} (hn : n ∈ nodes.toList)
    (hm : m ∈ nodes.toList) : identity n = identity m ↔ n = m := by
  constructor
  · intro heq
    obtain ⟨hr, hrest⟩ := Prod.mk.inj heq
    obtain ⟨hi, he⟩ := Prod.mk.inj hrest
    exact nodes.eq_of_equivalent hn hm (equivalent_iff_fields.mpr ⟨hi, he, hr⟩)
  · rintro rfl; rfl

def Preferred (n m : InactiveJobNode) : Prop :=
  m.lastEpoch < n.lastEpoch ∨ m.lastEpoch = n.lastEpoch ∧ n.originalIndex ≤ m.originalIndex

theorem preferred_iff {n m : InactiveJobNode} :
    Preferred n m ↔ preference.value (identity n) ≤ preference.value (identity m) := by
  rw [preference, identity, identity, Prod.Lex.toLex_le_toLex, Preferred]
  simp only [OrderDual.toDual_lt_toDual, OrderDual.toDual_inj]
  exact or_congr_right (and_congr_left fun _ => eq_comm)

theorem Preferred.trans {a b c : InactiveJobNode} (h : Preferred a b) (h' : Preferred b c) : Preferred a c :=
  preferred_iff.mpr ((preferred_iff.mp h).trans (preferred_iff.mp h'))

/-- After a part of the set: the map holds the preferred node of each rank seen,
and the nodes to delete are all others. -/
structure Filtered (seen : List InactiveJobNode) (nodesByRank : Int → Option InactiveJobNode)
    (nodesToDelete : List InactiveJobNode) : Prop where
  mem : ∀ r b, nodesByRank r = some b → b ∈ seen ∧ b.rank = r
  preferred : ∀ r b, nodesByRank r = some b → ∀ n ∈ seen, n.rank = r → Preferred b n
  unseen : ∀ r, nodesByRank r = none → ∀ n ∈ seen, n.rank ≠ r
  deleted : ∀ n, n ∈ nodesToDelete ↔ n ∈ seen ∧ nodesByRank n.rank ≠ some n

def visit (s : (Int → Option InactiveJobNode) × List InactiveJobNode) (node : InactiveJobNode) :
    (Int → Option InactiveJobNode) × List InactiveJobNode :=
  match s.1 node.rank with
  | some otherNode =>
    if node.lastEpoch > otherNode.lastEpoch then
      (Function.update s.1 node.rank (some node), s.2 ++ [otherNode])
    else (s.1, s.2 ++ [node])
  | none => (Function.update s.1 node.rank (some node), s.2)

section visit

variable {seen : List InactiveJobNode} {nodesByRank : Int → Option InactiveJobNode}
  {nodesToDelete : List InactiveJobNode} {x b : InactiveJobNode}

/-- The node takes the place of its rank, which nothing seen before deserves more. -/
theorem Filtered.enter (h : Filtered seen nodesByRank nodesToDelete) (hnew : x ∉ seen)
    (hpreferred : ∀ n ∈ seen, n.rank = x.rank → Preferred x n) :
    Filtered (seen ++ [x]) (Function.update nodesByRank x.rank (some x))
      (nodesToDelete ++ (nodesByRank x.rank).toList) := by
  refine ⟨?_, ?_, ?_, ?_⟩
  · intro r c hc
    by_cases hr : r = x.rank
    · subst hr
      rw [Function.update_self] at hc
      obtain rfl := Option.some.inj hc
      exact ⟨by simp, rfl⟩
    · rw [Function.update_of_ne hr] at hc
      obtain ⟨hmem, hrank⟩ := h.mem r c hc
      exact ⟨by simp [hmem], hrank⟩
  · intro r c hc n hn hnr
    by_cases hr : r = x.rank
    · subst hr
      rw [Function.update_self] at hc
      obtain rfl := Option.some.inj hc
      rcases List.mem_append.mp hn with hn | hn
      · exact hpreferred n hn hnr
      · obtain rfl := List.mem_singleton.mp hn
        exact Or.inr ⟨rfl, le_rfl⟩
    · rw [Function.update_of_ne hr] at hc
      rcases List.mem_append.mp hn with hn | hn
      · exact h.preferred r c hc n hn hnr
      · obtain rfl := List.mem_singleton.mp hn
        exact absurd hnr.symm hr
  · intro r hc n hn
    by_cases hr : r = x.rank
    · subst hr
      rw [Function.update_self] at hc
      cases hc
    · rw [Function.update_of_ne hr] at hc
      rcases List.mem_append.mp hn with hn | hn
      · exact h.unseen r hc n hn
      · obtain rfl := List.mem_singleton.mp hn
        exact Ne.symm hr
  · intro n
    rw [List.mem_append, h.deleted, Option.mem_toList, List.mem_append, List.mem_singleton]
    by_cases hr : n.rank = x.rank
    · rw [hr, Function.update_self]
      simp only [ne_eq, Option.some_inj]
      constructor
      · rintro (⟨hn, _⟩ | hn)
        · exact ⟨Or.inl hn, fun heq => hnew (heq ▸ hn)⟩
        · have hmem := (h.mem _ n hn).1
          exact ⟨Or.inl hmem, fun heq => hnew (heq ▸ hmem)⟩
      · rintro ⟨hn | rfl, hne⟩
        · by_cases hb : nodesByRank x.rank = some n
          · exact Or.inr hb
          · exact Or.inl ⟨hn, hb⟩
        · exact absurd rfl hne
    · rw [Function.update_of_ne hr]
      constructor
      · rintro (⟨hn, hne⟩ | hn)
        · exact ⟨Or.inl hn, hne⟩
        · exact absurd (h.mem _ n hn).2 hr
      · rintro ⟨hn | rfl, hne⟩
        · exact Or.inl ⟨hn, hne⟩
        · exact absurd rfl hr

theorem Filtered.skip (h : Filtered seen nodesByRank nodesToDelete) (hnew : x ∉ seen)
    (hb : nodesByRank x.rank = some b) (hpreferred : Preferred b x) :
    Filtered (seen ++ [x]) nodesByRank (nodesToDelete ++ [x]) := by
  refine ⟨?_, ?_, ?_, ?_⟩
  · intro r c hc
    obtain ⟨hmem, hrank⟩ := h.mem r c hc
    exact ⟨by simp [hmem], hrank⟩
  · intro r c hc n hn hnr
    rcases List.mem_append.mp hn with hn | hn
    · exact h.preferred r c hc n hn hnr
    · obtain rfl := List.mem_singleton.mp hn
      subst hnr
      obtain rfl := Option.some.inj (hb.symm.trans hc)
      exact hpreferred
  · intro r hc n hn
    rcases List.mem_append.mp hn with hn | hn
    · exact h.unseen r hc n hn
    · obtain rfl := List.mem_singleton.mp hn
      rintro rfl
      cases hb.symm.trans hc
  · intro n
    rw [List.mem_append, h.deleted, List.mem_append, List.mem_singleton]
    constructor
    · rintro (⟨hn, hne⟩ | rfl)
      · exact ⟨Or.inl hn, hne⟩
      · refine ⟨Or.inr rfl, fun hself => hnew ?_⟩
        exact (h.mem _ n hself).1
    · rintro ⟨hn | rfl, hne⟩
      · exact Or.inl ⟨hn, hne⟩
      · exact Or.inr rfl

theorem Filtered.visit (h : Filtered seen nodesByRank nodesToDelete) (hnew : x ∉ seen)
    (hindex : ∀ n ∈ seen, n.originalIndex ≤ x.originalIndex) :
    Filtered (seen ++ [x]) (NodeMerging.visit (nodesByRank, nodesToDelete) x).1
      (NodeMerging.visit (nodesByRank, nodesToDelete) x).2 := by
  cases hb : nodesByRank x.rank with
  | none =>
      have hnext := h.enter hnew fun n hn hr => absurd hr (h.unseen _ hb n hn)
      rw [hb, Option.toList_none, List.append_nil] at hnext
      simpa only [NodeMerging.visit, hb] using hnext
  | some b =>
      by_cases hnewer : x.lastEpoch > b.lastEpoch
      · have hnext := h.enter hnew fun n hn hr => Preferred.trans (Or.inl hnewer) (h.preferred _ b hb n hn hr)
        rw [hb, Option.toList_some] at hnext
        simpa only [NodeMerging.visit, hb, hnewer, if_true] using hnext
      · have hpreferred : Preferred b x := by
          rcases (not_lt.mp hnewer).lt_or_eq with hlt | heq
          · exact Or.inl hlt
          · exact Or.inr ⟨heq, hindex b (h.mem _ b hb).1⟩
        simpa only [NodeMerging.visit, hb, hnewer, if_false] using h.skip hnew hb hpreferred

end visit

theorem duplicates_filtered (nodes : InactiveJobNodeList) :
    Filtered nodes.toList (duplicates nodes.toList).1 (duplicates nodes.toList).2 := by
  have hfold : ∀ xs : List InactiveJobNode, xs.Pairwise (fun a b => before a b = true) →
      Filtered xs (xs.foldl visit (fun _ => none, [])).1 (xs.foldl visit (fun _ => none, [])).2 := by
    intro xs hsorted
    induction xs using List.reverseRecOn with
    | nil =>
        refine ⟨?_, ?_, ?_, ?_⟩
        · intro r b hb; cases hb
        · intro r b hb; cases hb
        · intro r _ n hn; cases hn
        · simp
    | append_singleton xs x ih =>
        obtain ⟨hxs, _, hx⟩ := List.pairwise_append.mp hsorted
        rw [List.foldl_append, List.foldl_cons, List.foldl_nil]
        refine (ih hxs).visit ?_ ?_
        · intro hmem
          have hself := hx x hmem x (by simp)
          have hirrefl : before x x = false := Comparator.irrefl x
          rw [hirrefl] at hself
          cases hself
        · intro n hn
          exact SubtreeRouting.originalIndex_le_of_before (hx n hn x (by simp))
  exact hfold nodes.toList nodes.sorted

theorem mem_filterDuplicates_iff {nodes : InactiveJobNodeList} {n : InactiveJobNode} :
    n ∈ (filterDuplicates nodes).toList ↔ n ∈ nodes.toList ∧ ∀ m ∈ nodes.toList, m.rank = n.rank → Preferred n m := by
  have h := duplicates_filtered nodes
  rw [filterDuplicates, OrderedSet.mem_eraseAll_iff]
  refine and_congr_right fun hn => ?_
  have hkept : (∀ x ∈ (duplicates nodes.toList).2, equivalent before x n = false) ↔
      (duplicates nodes.toList).1 n.rank = some n := by
    constructor
    · intro hnone
      by_contra hne
      have hself := hnone n ((h.deleted n).mpr ⟨hn, hne⟩)
      rw [equivalent_self] at hself
      cases hself
    · intro hplace x hx
      obtain ⟨hx, hne⟩ := (h.deleted x).mp hx
      rw [← Bool.not_eq_true]
      intro hsame
      rw [nodes.eq_of_equivalent hx hn hsame] at hne
      exact hne hplace
  rw [hkept]
  constructor
  · intro hplace m hm hr
    exact h.preferred _ n hplace m hm hr
  · intro hall
    cases hb : (duplicates nodes.toList).1 n.rank with
    | none => exact absurd rfl (h.unseen _ hb n hn)
    | some b =>
        obtain ⟨hbmem, hbrank⟩ := h.mem _ b hb
        have hbn := preferred_iff.mp (h.preferred _ b hb n hn rfl)
        have hnb := preferred_iff.mp (hall b hbmem hbrank)
        have heq : identity b = identity n := preference.injective _ _ hbrank (le_antisymm hbn hnb)
        rw [(identity_eq_iff hbmem hn).mp heq]

theorem identities_filterDuplicates (nodes : InactiveJobNodeList) :
    identities (filterDuplicates nodes) = best preference (identities nodes) := by
  ext k
  rw [mem_best, mem_identities, mem_identities]
  constructor
  · rintro ⟨n, hn, rfl⟩
    obtain ⟨hn, hall⟩ := mem_filterDuplicates_iff.mp hn
    refine ⟨⟨n, hn, rfl⟩, fun k' hk' hr => ?_⟩
    obtain ⟨m, hm, rfl⟩ := mem_identities.mp hk'
    exact preferred_iff.mp (hall m hm hr)
  · rintro ⟨⟨n, hn, rfl⟩, hall⟩
    refine ⟨n, mem_filterDuplicates_iff.mpr ⟨hn, fun m hm hr => ?_⟩, rfl⟩
    exact preferred_iff.mpr (hall (identity m) (mem_identities.mpr ⟨m, hm, rfl⟩) hr)

theorem identities_insert (nodes : InactiveJobNodeList) (x : InactiveJobNode) :
    identities (nodes.insert x) = insert (identity x) (identities nodes) := by
  ext k
  rw [Finset.mem_insert, mem_identities, mem_identities]
  constructor
  · rintro ⟨n, hn, rfl⟩
    rcases OrderedSet.mem_of_mem_insert hn with rfl | hn
    · exact Or.inl rfl
    · exact Or.inr ⟨n, hn, rfl⟩
  · rintro (rfl | ⟨n, hn, rfl⟩)
    · obtain ⟨y, hy, hsame, _⟩ := nodes.exists_equivalent_of_insert x
      obtain ⟨hi, he, hr⟩ := equivalent_iff_fields.mp hsame
      exact ⟨y, hy, by rw [identity, identity, hi, he, hr]⟩
    · exact ⟨n, nodes.mem_insert_of_mem x hn, rfl⟩

theorem identities_insertAll (nodes : InactiveJobNodeList) (xs : List InactiveJobNode) :
    identities (nodes.insertAll xs) = identities nodes ∪ (xs.map identity).toFinset := by
  induction xs generalizing nodes with
  | nil => simp [OrderedSet.insertAll]
  | cons x xs ih =>
      have hrest : identities (nodes.insertAll (x :: xs)) =
          identities (nodes.insert x) ∪ (xs.map identity).toFinset := ih (nodes.insert x)
      rw [hrest, identities_insert, List.map_cons, List.toFinset_cons, Finset.insert_union, Finset.union_insert]

theorem identities_merge (nodes other : InactiveJobNodeList) :
    identities (mergePreferringNewer nodes other) = join preference (identities nodes) (identities other) := by
  rw [mergePreferringNewer, identities_filterDuplicates, identities_insertAll]
  rfl

theorem identity_mem_union {nodes other : InactiveJobNodeList} {m : InactiveJobNode}
    (hm : m ∈ nodes.toList ++ other.toList) : identity m ∈ identities nodes ∪ identities other := by
  rw [Finset.mem_union, mem_identities, mem_identities]
  exact (List.mem_append.mp hm).imp (fun hm => ⟨m, hm, rfl⟩) fun hm => ⟨m, hm, rfl⟩

theorem mem_merge {nodes other : InactiveJobNodeList} {n : InactiveJobNode}
    (hn : n ∈ (mergePreferringNewer nodes other).toList) :
    n ∈ nodes.toList ++ other.toList ∧ ∀ m ∈ nodes.toList ++ other.toList, m.rank = n.rank → Preferred n m := by
  obtain ⟨hmem, _⟩ := mem_filterDuplicates_iff.mp hn
  have hkey : identity n ∈ join preference (identities nodes) (identities other) := by
    rw [← identities_merge]
    exact mem_identities.mpr ⟨n, hn, rfl⟩
  obtain ⟨_, hmin⟩ := mem_best.mp hkey
  refine ⟨List.mem_append.mpr (OrderedSet.mem_of_mem_insertAll hmem), fun m hm hr => ?_⟩
  exact preferred_iff.mpr (hmin (identity m) (identity_mem_union hm) hr)

theorem exists_merged {nodes other : InactiveJobNodeList} {m : InactiveJobNode}
    (hm : m ∈ nodes.toList ++ other.toList) : ∃ n ∈ (mergePreferringNewer nodes other).toList, n.rank = m.rank := by
  obtain ⟨k, hk, hgroup, _⟩ := exists_best (p := preference) (identity_mem_union hm)
  have hmerged : k ∈ identities (mergePreferringNewer nodes other) := by
    rw [identities_merge]
    exact hk
  obtain ⟨n, hn, rfl⟩ := mem_identities.mp hmerged
  exact ⟨n, hn, hgroup⟩

def UniqueRanks (nodes : InactiveJobNodeList) : Prop := (nodes.toList.map (·.rank)).Nodup

theorem uniqueRanks_iff {nodes : InactiveJobNodeList} :
    UniqueRanks nodes ↔ ∀ n ∈ nodes.toList, ∀ m ∈ nodes.toList, n.rank = m.rank → n = m := by
  constructor
  · intro h n hn m hm heq
    exact List.inj_on_of_nodup_map h hn hm heq
  · intro h
    exact nodes.nodup.map_on h

theorem unique_identities_iff {nodes : InactiveJobNodeList} :
    Unique preference (identities nodes) ↔ UniqueRanks nodes := by
  rw [uniqueRanks_iff]
  constructor
  · intro h n hn m hm heq
    exact (identity_eq_iff hn hm).mp (h _ (mem_identities.mpr ⟨n, hn, rfl⟩) _ (mem_identities.mpr ⟨m, hm, rfl⟩) heq)
  · intro h a ha b hb heq
    obtain ⟨n, hn, rfl⟩ := mem_identities.mp ha
    obtain ⟨m, hm, rfl⟩ := mem_identities.mp hb
    rw [h n hn m hm heq]

theorem uniqueRanks_merge (nodes other : InactiveJobNodeList) : UniqueRanks (mergePreferringNewer nodes other) := by
  rw [← unique_identities_iff, identities_merge]
  exact unique_best _

end Mallob.NodeMerging
