import Mallob.Runs
import Mallob.JobComm

namespace Mallob.RanklistAggregation

open Network Runs

inductive Descends (v : Nat) : Nat → Prop
  | self : Descends v v
  | left {i : Nat} : Descends v i → Descends v (2 * i + 1)
  | right {i : Nat} : Descends v i → Descends v (2 * i + 2)

theorem Descends.le {v i : Nat} (h : Descends v i) : v ≤ i := by
  induction h with
  | self => exact le_rfl
  | left _ ih => omega
  | right _ ih => omega

theorem Descends.of_left {v i : Nat} (h : Descends (2 * v + 1) i) : Descends v i := by
  induction h with
  | self => exact Descends.self.left
  | left _ ih => exact ih.left
  | right _ ih => exact ih.right

theorem Descends.of_right {v i : Nat} (h : Descends (2 * v + 2) i) : Descends v i := by
  induction h with
  | self => exact Descends.self.right
  | left _ ih => exact ih.left
  | right _ ih => exact ih.right

theorem Descends.split {v i : Nat} (h : Descends v i) : i = v ∨ Descends (2 * v + 1) i ∨ Descends (2 * v + 2) i := by
  induction h with
  | self => exact Or.inl rfl
  | left _ ih =>
      rcases ih with rfl | ih | ih
      · exact Or.inr (Or.inl .self)
      · exact Or.inr (Or.inl ih.left)
      · exact Or.inr (Or.inr ih.left)
  | right _ ih =>
      rcases ih with rfl | ih | ih
      · exact Or.inr (Or.inr .self)
      · exact Or.inr (Or.inl ih.right)
      · exact Or.inr (Or.inr ih.right)

theorem not_descends_sibling (v : Nat) : ¬ Descends (2 * v + 1) (2 * v + 2) := by
  intro h
  generalize hi : 2 * v + 2 = i at h
  cases h with
  | self => omega
  | left h => omega
  | right h =>
      have hle := h.le
      omega

theorem descends_root (i : Nat) : Descends 0 i := by
  induction i using Nat.strong_induction_on with
  | _ i ih =>
      obtain rfl | ⟨j, rfl | rfl⟩ : i = 0 ∨ ∃ j, i = 2 * j + 1 ∨ i = 2 * j + 2 := by
        rcases Nat.eq_zero_or_pos i with hi | hi
        · exact Or.inl hi
        · exact Or.inr ⟨(i - 1) / 2, by omega⟩
      · exact .self
      · exact (ih j (by omega)).left
      · exact (ih j (by omega)).right

section Lists

variable {t : FixedTree} {P Q : Nat → Prop} {next ranks : List Int}

theorem entry_nil (i : Nat) : entry [] i = -1 := rfl

theorem entry_append_default (next : List Int) (i : Nat) : entry (next ++ [-1]) i = entry next i := by
  simp only [entry, List.getD_eq_getElem?_getD]
  rcases Nat.lt_or_ge i next.length with hi | hi
  · rw [List.getElem?_append_left hi]
  · rw [List.getElem?_append_right hi, List.getElem?_eq_none hi]
    cases i - next.length with
    | zero => rfl
    | succ k => rfl

theorem entry_set {i : Nat} (hi : i < next.length) (rank : Int) (j : Nat) :
    entry (next.set i rank) j = if j = i then rank else entry next j := by
  simp only [entry, List.getD_eq_getElem?_getD]
  split
  · next hj =>
      subst hj
      rw [List.getElem?_set_self hi]
      rfl
  · next hj => rw [List.getElem?_set_ne (Ne.symm hj)]

theorem lt_of_entry {i : Nat} (h : entry next i ≠ -1) : i < next.length := by
  by_contra hlt
  refine h ?_
  simp only [entry, List.getD_eq_getElem?_getD]
  rw [List.getElem?_eq_none (not_lt.mp hlt)]
  rfl

theorem entry_updateFrom {i : Nat} (hi : i ≤ next.length) (ranks : List Int) :
    (∀ j, entry (updateFrom next i ranks) j =
      if i ≤ j ∧ entry ranks (j - i) ≠ -1 then entry ranks (j - i) else entry next j) ∧
    (updateFrom next i ranks).length = max next.length (i + ranks.length) := by
  induction ranks generalizing next i with
  | nil =>
      refine ⟨fun j => ?_, ?_⟩
      · rw [updateFrom, entry_nil, if_neg (by simp)]
      · rw [updateFrom, List.length_nil]
        omega
  | cons rank ranks ih =>
      rw [updateFrom]
      generalize hnext : (if next.length = i then next ++ [-1] else next) = longer
      have hlonger : longer.length = max next.length (i + 1) ∧ ∀ j, entry longer j = entry next j := by
        rw [← hnext]
        split
        · refine ⟨?_, entry_append_default next⟩
          rw [List.length_append, List.length_singleton]
          omega
        · exact ⟨by omega, fun j => rfl⟩
      obtain ⟨hlength, hentries⟩ := hlonger
      have hlt : i < longer.length := by omega
      generalize hset : (if rank ≠ -1 then longer.set i rank else longer) = written
      have hwritten : written.length = longer.length ∧
          ∀ j, entry written j = if j = i ∧ rank ≠ -1 then rank else entry next j := by
        rw [← hset]
        split
        · next hrank =>
            refine ⟨List.length_set, fun j => ?_⟩
            rw [entry_set hlt, hentries]
            simp [hrank]
        · next hrank =>
            refine ⟨rfl, fun j => ?_⟩
            rw [hentries, if_neg (by tauto)]
      obtain ⟨hlength', hentries'⟩ := hwritten
      obtain ⟨hrest, hrestLength⟩ := @ih written (i + 1) (by omega)
      refine ⟨fun j => ?_, ?_⟩
      · rw [hrest j, hentries' j]
        rcases lt_trichotomy j i with hj | rfl | hj
        · rw [if_neg (by omega), if_neg (by omega), if_neg (by omega)]
        · have hfirst : entry (rank :: ranks) (j - j) = rank := by
            rw [Nat.sub_self]
            rfl
          rw [if_neg (by omega), hfirst]
          simp
        · have hshift : entry (rank :: ranks) (j - i) = entry ranks (j - (i + 1)) := by
            have hsucc : j - i = (j - (i + 1)) + 1 := by omega
            rw [hsucc]
            rfl
          have hne : ¬ (j = i ∧ rank ≠ -1) := by omega
          rw [hshift, if_neg hne]
          simp only [show i + 1 ≤ j from hj, hj.le, true_and]
      · rw [hrestLength, List.length_cons]
        omega

def Lists (t : FixedTree) (P : Nat → Prop) (ranks : List Int) : Prop :=
  ∀ i, (P i → entry ranks i = t.ranks i) ∧ (¬ P i → entry ranks i = -1)

theorem Lists.entry_ne {i : Nat} (h : Lists t P next) : entry next i ≠ -1 ↔ P i := by
  by_cases hp : P i
  · rw [(h i).1 hp]
    simp only [hp, iff_true]
    omega
  · rw [(h i).2 hp]
    simp [hp]

theorem Lists.congr (h : Lists t P next) (hiff : ∀ i, P i ↔ Q i) : Lists t Q next :=
  fun i => ⟨fun hq => (h i).1 ((hiff i).mpr hq), fun hq => (h i).2 (fun hp => hq ((hiff i).mp hp))⟩

theorem lists_nil (h : ∀ i, ¬ P i) : Lists t P [] := fun i => ⟨fun hp => absurd hp (h i), fun _ => rfl⟩

theorem Lists.merge (h : Lists t P next) (hnew : Lists t Q ranks) :
    Lists t (fun i => P i ∨ Q i) (updateFrom next 0 ranks) := by
  intro i
  obtain ⟨hentry, -⟩ := entry_updateFrom (Nat.zero_le next.length) ranks
  have hi := hentry i
  rw [Nat.sub_zero] at hi
  rw [hi]
  by_cases hq : Q i
  · rw [if_pos ⟨Nat.zero_le i, hnew.entry_ne.mpr hq⟩]
    exact ⟨fun _ => (hnew i).1 hq, fun hnot => absurd (Or.inr hq) hnot⟩
  · rw [if_neg fun hne => hq (hnew.entry_ne.mp hne.2)]
    exact ⟨fun hor => (h i).1 (hor.resolve_right hq), fun hnot => (h i).2 fun hp => hnot (Or.inl hp)⟩

theorem Lists.set (h : Lists t P next) {v : Nat} (hv : v < next.length) :
    Lists t (fun i => P i ∨ i = v) (next.set v (t.ranks v)) := by
  intro i
  rw [entry_set hv]
  split
  · next hi =>
      subst hi
      exact ⟨fun _ => rfl, fun hnot => absurd (Or.inr rfl) hnot⟩
  · next hi => exact ⟨fun hor => (h i).1 (hor.resolve_right hi), fun hnot => (h i).2 fun hp => hnot (Or.inl hp)⟩

def FixedTree.ranklist (t : FixedTree) : List Int := (List.range t.size).map fun i => (t.ranks i : Int)

theorem Lists.complete (h : Lists t (fun i => i < t.size) next) (hlength : next.length ≤ t.size) :
    next = t.ranklist := by
  have hsize : next.length = t.size := by
    have htwo := t.two_le
    have hlast := lt_of_entry (h.entry_ne.mpr (show t.size - 1 < t.size by omega))
    omega
  refine List.ext_getElem (by simp [FixedTree.ranklist, hsize]) ?_
  intro i hi hi'
  have hentry := (h i).1 (hsize ▸ hi)
  simp only [entry, List.getD_eq_getElem?_getD, List.getElem?_eq_getElem hi] at hentry
  simp only [FixedTree.ranklist, List.getElem_map, List.getElem_range]
  exact hentry

theorem mapFrom_eq_some {ranks : List Int} (hnodup : ranks.Nodup) (i : Nat) (map : Int → Option Nat) (rank : Int)
    (j : Nat) : mapFrom i map ranks rank = some j ↔
      (∃ k, ranks[k]? = some rank ∧ j = i + k) ∨ (rank ∉ ranks ∧ map rank = some j) := by
  induction ranks generalizing i map with
  | nil => simp [mapFrom]
  | cons first ranks ih =>
      obtain ⟨hfirst, hnodup⟩ := List.nodup_cons.mp hnodup
      rw [mapFrom, ih hnodup]
      constructor
      · rintro (⟨k, hk, rfl⟩ | ⟨hnot, hmap⟩)
        · exact Or.inl ⟨k + 1, hk, by omega⟩
        · by_cases heq : rank = first
          · subst heq
            rw [Function.update_self] at hmap
            exact Or.inl ⟨0, rfl, (Option.some.inj hmap).symm⟩
          · rw [Function.update_of_ne heq] at hmap
            exact Or.inr ⟨by simp [heq, hnot], hmap⟩
      · rintro (⟨k, hk, rfl⟩ | ⟨hnot, hmap⟩)
        · cases k with
          | zero =>
              obtain rfl : first = rank := Option.some.inj hk
              exact Or.inr ⟨hfirst, by rw [Function.update_self, Nat.add_zero]⟩
          | succ k => exact Or.inl ⟨k, hk, by omega⟩
        · rw [List.mem_cons, not_or] at hnot
          obtain ⟨hne, hnot⟩ := hnot
          exact Or.inr ⟨hnot, by rw [Function.update_of_ne hne]; exact hmap⟩

theorem FixedTree.ranklist_nodup (t : FixedTree) : t.ranklist.Nodup := by
  refine List.Nodup.map_on ?_ List.nodup_range
  intro i hi j hj heq
  exact t.distinct i j (List.mem_range.mp hi) (List.mem_range.mp hj) (by exact_mod_cast heq)

theorem FixedTree.ranklist_getElem? (t : FixedTree) {i : Nat} (hi : i < t.size) :
    t.ranklist[i]? = some (t.ranks i : Int) := by
  simp [FixedTree.ranklist, hi]

theorem FixedTree.map_eq_some (t : FixedTree) (rank : Int) (j : Nat) :
    mapFrom 0 (fun _ => none) t.ranklist rank = some j ↔ j < t.size ∧ rank = t.ranks j := by
  rw [mapFrom_eq_some t.ranklist_nodup]
  constructor
  · rintro (⟨k, hk, rfl⟩ | ⟨-, hnone⟩)
    · have hlt : k < t.size := by
        have hlength := (List.getElem?_eq_some_iff.mp hk).1
        simpa [FixedTree.ranklist] using hlength
      rw [t.ranklist_getElem? hlt] at hk
      rw [Nat.zero_add]
      exact ⟨hlt, (Option.some.inj hk).symm⟩
    · cases hnone
  · rintro ⟨hlt, rfl⟩
    exact Or.inl ⟨j, t.ranklist_getElem? hlt, (Nat.zero_add j).symm⟩

end Lists

structure NodeCorrect (t : FixedTree) (v : Nat) (comm : JobComm) : Prop where
  contributions : ∃ left right : Prop, Lists t
    (fun i => i < t.size ∧ (left ∧ Descends (2 * v + 1) i ∨ right ∧ Descends (2 * v + 2) i)) comm.nextRanklist
  length_le : comm.nextRanklist.length ≤ t.size
  leaf : comm.aggregateRanklist = true → t.size ≤ 2 * v + 1
  stored : comm.ranklist = [] ∧ (comm.worldToIntRank = fun _ => none) ∨
    comm.ranklist = t.ranklist ∧ comm.worldToIntRank = mapFrom 0 (fun _ => none) t.ranklist

def MessageCorrect (t : FixedTree) (v dest : Nat) (msg : JobMessage) : Prop :=
  match msg.tag with
  | .aggregateRanklist => v ≠ 0 ∧ dest = t.ranks ((v - 1) / 2) ∧
      Lists t (fun i => i < t.size ∧ Descends v i) msg.payload ∧ msg.payload.length ≤ t.size
  | .broadcastRanklist => msg.payload = t.ranklist
  | .application _ => True

section Node

variable {t : FixedTree} {v : Nat} {comm : JobComm} {msg : JobMessage}

theorem leftChildIndex_jobTree (t : FixedTree) (v : Nat) : (t.jobTree v).leftChildIndex = 2 * v + 1 := by
  simp only [JobTree.leftChildIndex, FixedTree.jobTree]
  omega

theorem rightChildIndex_jobTree (t : FixedTree) (v : Nat) : (t.jobTree v).rightChildIndex = 2 * v + 2 := by
  simp only [JobTree.rightChildIndex, FixedTree.jobTree]
  omega

theorem contains_iff {next : List Int} {i : Nat} : contains next i = true ↔ entry next i ≠ -1 := by
  rw [contains, Bool.and_eq_true, decide_eq_true_eq, bne_iff_ne]
  exact ⟨fun h => h.2, fun h => ⟨lt_of_entry h, h⟩⟩

theorem NodeCorrect.wantsToAggregate (h : NodeCorrect t v comm) (due : Bool) :
    NodeCorrect t v (wantsToAggregate comm (t.jobTree v) due) := by
  rw [RanklistAggregation.wantsToAggregate]
  split
  · next hleaf =>
      refine { h with leaf := fun _ => ?_ }
      simp only [JobTree.isLeaf, FixedTree.jobTree, Bool.and_eq_true, Bool.not_eq_true', decide_eq_false_iff_not]
        at hleaf
      omega
  · exact h

theorem lists_leaf (hv : v < t.size) (hleaf : t.size ≤ 2 * v + 1) :
    Lists t (fun i => i < t.size ∧ Descends v i) ((List.replicate (v + 1) (-1)).set v (t.ranks v)) := by
  have hnone : Lists t (fun _ => False) (List.replicate (v + 1) (-1)) := by
    refine fun i => ⟨False.elim, fun _ => ?_⟩
    simp only [entry, List.getD_eq_getElem?_getD, List.getElem?_replicate]
    split
    · rfl
    · rfl
  refine (hnone.set (v := v) (by simp)).congr fun i => ?_
  rw [false_or]
  constructor
  · rintro rfl
    exact ⟨hv, .self⟩
  · rintro ⟨hi, hdescends⟩
    rcases hdescends.split with heq | hleft | hright
    · exact heq
    · have hle := hleft.le
      omega
    · have hle := hright.le
      omega

theorem NodeCorrect.beginAggregation (h : NodeCorrect t v comm) (hv : v < t.size)
    (haggregate : comm.aggregateRanklist = true) :
    NodeCorrect t v (beginAggregation comm (t.jobTree v)).1 ∧
      ∀ e ∈ (RanklistAggregation.beginAggregation comm (t.jobTree v)).2, MessageCorrect t v e.dest e.data := by
  have hleaf := h.leaf haggregate
  have hv0 : v ≠ 0 := by have htwo := t.two_le; omega
  have hindex : ¬ (t.jobTree v).index = 0 := hv0
  rw [RanklistAggregation.beginAggregation, if_neg hindex]
  refine ⟨{ h with leaf := fun hfalse => by cases hfalse }, ?_⟩
  intro e he
  rw [List.mem_singleton.mp he]
  refine ⟨hv0, rfl, lists_leaf hv hleaf, ?_⟩
  simp only [isend, List.length_set, List.length_replicate]
  exact hv

theorem NodeCorrect.store (h : NodeCorrect t v comm) : NodeCorrect t v (store comm t.ranklist) :=
  { h with stored := Or.inr ⟨rfl, rfl⟩ }

theorem toChildren_correct {msg : JobMessage} (hpayload : msg.payload = t.ranklist)
    (htag : msg.tag = .broadcastRanklist) {e : Envelope Unit JobMessage} (he : e ∈ toChildren (t.jobTree v) msg) :
    MessageCorrect t v e.dest e.data := by
  have hdata : e.data = msg := by
    rw [toChildren, List.mem_append] at he
    rcases he with he | he
    · split at he
      · rw [List.mem_singleton.mp he]
        rfl
      · cases he
    · split at he
      · rw [List.mem_singleton.mp he]
        rfl
      · cases he
  rw [MessageCorrect, hdata, htag]
  exact hpayload

/-- When the children are all there, their subtrees and the node are the subtree of the node. -/
theorem lists_subtree {next : List Int} {left right : Prop} (hv : v < next.length) (hvt : v < t.size)
    (hlists : Lists t (fun i => i < t.size ∧ (left ∧ Descends (2 * v + 1) i ∨ right ∧ Descends (2 * v + 2) i)) next)
    (hleft : 2 * v + 1 < t.size → left) (hright : 2 * v + 2 < t.size → right) :
    Lists t (fun i => i < t.size ∧ Descends v i) (next.set v (t.ranks v)) := by
  refine (hlists.set hv).congr fun i => ?_
  constructor
  · rintro (⟨hi, ⟨-, hdescends⟩ | ⟨-, hdescends⟩⟩ | rfl)
    · exact ⟨hi, hdescends.of_left⟩
    · exact ⟨hi, hdescends.of_right⟩
    · exact ⟨hvt, .self⟩
  · rintro ⟨hi, hdescends⟩
    rcases hdescends.split with heq | hdescends | hdescends
    · exact Or.inr heq
    · exact Or.inl ⟨hi, Or.inl ⟨hleft (hdescends.le.trans_lt hi), hdescends⟩⟩
    · exact Or.inl ⟨hi, Or.inr ⟨hright (hdescends.le.trans_lt hi), hdescends⟩⟩

theorem NodeCorrect.merge (h : NodeCorrect t v comm) {u : Nat} (hu : u = 2 * v + 1 ∨ u = 2 * v + 2)
    {ranks : List Int} (hranks : Lists t (fun i => i < t.size ∧ Descends u i) ranks) (hlength : ranks.length ≤ t.size)
    (count : Nat) : NodeCorrect t v { comm with
      nextRanklist := updateFrom comm.nextRanklist 0 ranks, numRanklistContribs := count } := by
  obtain ⟨left, right, hlists⟩ := h.contributions
  refine { h with
    contributions := ⟨left ∨ u = 2 * v + 1, right ∨ u = 2 * v + 2, (hlists.merge hranks).congr fun i => ?_⟩
    length_le := ?_ }
  · rcases hu with rfl | rfl
    · simp only [or_true, true_and]
      have hne : ¬ 2 * v + 1 = 2 * v + 2 := by omega
      simp only [hne, or_false]
      tauto
    · simp only [or_true, true_and]
      have hne : ¬ 2 * v + 2 = 2 * v + 1 := by omega
      simp only [hne, or_false]
      tauto
  · have hnext := h.length_le
    rw [(entry_updateFrom (Nat.zero_le _) ranks).2]
    omega

theorem NodeCorrect.forward (h : NodeCorrect t v comm) (hv : v < t.size) (hchild : 2 * v + 1 < t.size)
    (htag : msg.tag = .aggregateRanklist)
    (hready : readyToForward (t.jobTree v) comm.nextRanklist comm.numRanklistContribs = true) :
    ∃ out, forward comm (t.jobTree v) msg = .ok out ∧ NodeCorrect t v out.1 ∧
      ∀ e ∈ out.2, MessageCorrect t v e.dest e.data := by
  obtain ⟨left, right, hlists⟩ := h.contributions
  rw [readyToForward, Bool.and_eq_true, Bool.and_eq_true, leftChildIndex_jobTree, rightChildIndex_jobTree,
    Bool.or_eq_true, Bool.or_eq_true, contains_iff, contains_iff, hlists.entry_ne, hlists.entry_ne] at hready
  simp only [FixedTree.jobTree, Bool.not_eq_true', decide_eq_false_iff_not] at hready
  obtain ⟨⟨-, hleft⟩, hright⟩ := hready
  have hleftEntry := hleft.resolve_left (not_not_intro hchild)
  have hlong : 2 * v + 1 < comm.nextRanklist.length := lt_of_entry (hlists.entry_ne.mpr hleftEntry)
  have hsubtree := lists_subtree (by omega) hv hlists
    (fun _ => by
      rcases hleftEntry.2 with hleft | hsibling
      · exact hleft.1
      · have hle := hsibling.2.le
        omega)
    (fun hlt => by
      rcases (hright.resolve_left (not_not_intro hlt)).2 with hsibling | hright
      · exact absurd hsibling.2 (not_descends_sibling v)
      · exact hright.1)
  have hlength : (comm.nextRanklist.set v (t.ranks v)).length ≤ t.size := by
    rw [List.length_set]
    exact h.length_le
  have hcleaned : NodeCorrect t v { comm with nextRanklist := [], numRanklistContribs := 0 } :=
    { h with
      contributions := ⟨False, False, lists_nil fun i => by simp⟩
      length_le := Nat.zero_le _ }
  have hindex : (t.jobTree v).index < comm.nextRanklist.length := by
    simp only [FixedTree.jobTree]
    omega
  rw [RanklistAggregation.forward, if_pos hindex]
  by_cases hroot : v = 0
  · subst hroot
    have hfull : comm.nextRanklist.set 0 (t.ranks 0) = t.ranklist :=
      (hsubtree.congr fun i => and_iff_left (descends_root i)).complete hlength
    refine ⟨_, if_pos rfl, ?_, ?_⟩
    · simp only [FixedTree.jobTree, hfull]
      exact hcleaned.store
    · intro e he
      simp only [FixedTree.jobTree] at he
      exact toChildren_correct hfull rfl he
  · have hindex : ¬ (t.jobTree v).index = 0 := hroot
    refine ⟨_, if_neg hindex, hcleaned, ?_⟩
    intro e he
    rw [List.mem_singleton.mp he]
    simp only [MessageCorrect, isend, htag]
    exact ⟨hroot, rfl, hsubtree, hlength⟩

theorem NodeCorrect.handle (h : NodeCorrect t v comm) (hv : v < t.size) {u : Nat} (hu : u < t.size)
    (hmsg : MessageCorrect t u (t.ranks v) msg) :
    ∃ out, handle comm (t.jobTree v) msg = .ok out ∧ NodeCorrect t v out.2.1 ∧
      ∀ e ∈ out.2.2, MessageCorrect t v e.dest e.data := by
  rw [MessageCorrect] at hmsg
  rw [RanklistAggregation.handle]
  cases htag : msg.tag with
  | aggregateRanklist =>
      rw [htag] at hmsg
      obtain ⟨hu0, hdest, hlists, hlength⟩ := hmsg
      have hparent := t.distinct v ((u - 1) / 2) hv (by omega) hdest
      have hchild : u = 2 * v + 1 ∨ u = 2 * v + 2 := by omega
      have h₁ := h.merge hchild hlists hlength (comm.numRanklistContribs + 1)
      dsimp only
      split
      · next hready =>
          obtain ⟨out, hout, hnode, hsends⟩ := h₁.forward hv (by omega) htag hready
          refine ⟨(true, out), ?_, hnode, hsends⟩
          rw [hout]
          rfl
      · exact ⟨_, rfl, h₁, fun e he => by cases he⟩
  | broadcastRanklist =>
      rw [htag] at hmsg
      refine ⟨_, rfl, ?_, fun e he => toChildren_correct hmsg htag he⟩
      rw [hmsg]
      exact h.store
  | application tag => exact ⟨_, rfl, h, fun e he => by cases he⟩

end Node

structure Correct (t : FixedTree) (s : State) : Prop where
  nodes : ∀ v < t.size, NodeCorrect t v (s.comms v)
  messages : ∀ v < t.size, ∀ dest, ∀ msg ∈ s.net () (t.ranks v) dest, MessageCorrect t v dest msg

section Run

variable {t : FixedTree} {s : State} {v : Nat}

theorem correct_start (t : FixedTree) (id : Int) : Correct t (start id) where
  nodes := fun v _ =>
    { contributions := ⟨False, False, lists_nil fun i => by simp⟩
      length_le := Nat.zero_le _
      leaf := fun hfalse => by cases hfalse
      stored := Or.inl ⟨rfl, rfl⟩ }
  messages := fun v _ dest msg hmsg => by cases hmsg

theorem mem_received {dest : Nat} {sends : Sends} {msg : JobMessage} (h : msg ∈ received () dest sends) :
    ∃ e ∈ sends, e.dest = dest ∧ e.data = msg := by
  rw [received, List.mem_map] at h
  obtain ⟨e, he, hdata⟩ := h
  obtain ⟨hmem, hdest⟩ := List.mem_filter.mp he
  exact ⟨e, hmem, by simpa using hdest, hdata⟩

theorem Correct.update (h : Correct t s) {comm : JobComm} (hnode : NodeCorrect t v comm) :
    ∀ w < t.size, NodeCorrect t w (Function.update s.comms v comm w) := by
  intro w hw
  by_cases hwv : w = v
  · subst hwv
    rw [Function.update_self]
    exact hnode
  · rw [Function.update_of_ne hwv]
    exact h.nodes w hw

theorem Correct.sendAll (h : Correct t s) (hv : v < t.size) {comm : JobComm} {sends : Sends}
    (hnode : NodeCorrect t v comm) (hsends : ∀ e ∈ sends, MessageCorrect t v e.dest e.data) :
    Correct t (sendAll s t v comm sends) := by
  refine ⟨h.update hnode, ?_⟩
  intro w hw dest msg hmsg
  simp only [RanklistAggregation.sendAll] at hmsg
  rw [postAll_apply, List.mem_append] at hmsg
  rcases hmsg with hold | hnew
  · exact h.messages w hw dest msg hold
  · split at hnew
    · next heq =>
        obtain rfl := t.distinct w v hw hv heq
        obtain ⟨e, he, rfl, rfl⟩ := mem_received hnew
        exact hsends e he
    · cases hnew

theorem Correct.deliver (h : Correct t s) {source dest : Nat} (hsource : source < t.size) (hdest : dest < t.size) :
    ∃ s', deliver s t source dest = .ok s' ∧ Correct t s' := by
  rw [RanklistAggregation.deliver]
  cases htake : take s.net () (t.ranks source) (t.ranks dest) with
  | none => exact ⟨s, rfl, h⟩
  | some out =>
      obtain ⟨msg, net⟩ := out
      obtain ⟨hhead, hrest⟩ := take_eq_some htake
      have hmsg := h.messages source hsource (t.ranks dest) msg (by rw [hhead]; exact List.mem_cons_self)
      obtain ⟨out, hout, hnode, hsends⟩ := (h.nodes dest hdest).handle hdest hsource hmsg
      have h₁ : Correct t { s with net := net } := by
        refine ⟨h.nodes, fun w hw dst msg' hmsg' => h.messages w hw dst msg' ?_⟩
        by_cases hchannel : t.ranks w = t.ranks source ∧ dst = t.ranks dest
        · obtain ⟨hw', rfl⟩ := hchannel
          simp only at hmsg'
          rw [hw'] at hmsg' ⊢
          rw [hhead]
          exact List.mem_cons_of_mem _ hmsg'
        · rw [← hrest () (t.ranks w) dst (by tauto)]
          exact hmsg'
      refine ⟨RanklistAggregation.sendAll { s with net := net } t dest out.2.1 out.2.2, ?_, h₁.sendAll hdest hnode hsends⟩
      simp only [hout]
      rfl

theorem Correct.step (h : Correct t s) (call : Call) : ∃ s', step t s call = .ok s' ∧ Correct t s' := by
  cases call with
  | wantsToAggregate index due =>
      rw [RanklistAggregation.step]
      split
      · next hindex => exact ⟨_, rfl, h.update ((h.nodes index hindex).wantsToAggregate due), h.messages⟩
      · exact ⟨s, rfl, h⟩
  | communicate index =>
      rw [RanklistAggregation.step]
      split
      · next hindex =>
          refine ⟨_, rfl, ?_⟩
          simp only [communicate]
          split
          · next haggregate =>
              obtain ⟨hnode, hsends⟩ := (h.nodes index hindex).beginAggregation hindex haggregate
              exact h.sendAll hindex hnode hsends
          · exact h
      · exact ⟨s, rfl, h⟩
  | deliver source dest =>
      rw [RanklistAggregation.step]
      split
      · next hranks => exact h.deliver hranks.1 hranks.2
      · exact ⟨s, rfl, h⟩

theorem Correct.run (h : Correct t s) (calls : List Call) :
    ∃ s', Runs.run (RanklistAggregation.step t) s calls = .ok s' ∧ Correct t s' := by
  induction calls using List.reverseRecOn with
  | nil => exact ⟨s, rfl, h⟩
  | append_singleton calls call ih =>
      obtain ⟨s₁, hs₁, h₁⟩ := ih
      obtain ⟨s₂, hs₂, h₂⟩ := h₁.step call
      refine ⟨s₂, ?_, h₂⟩
      rw [run_append, hs₁]
      exact (run_singleton s₁ call).trans hs₂

theorem NodeCorrect.inverse {comm : JobComm} (h : NodeCorrect t v comm) :
    (∀ i, getWorldRankOrMinusOne comm i ≠ -1 →
      getInternalRankOrMinusOne comm (getWorldRankOrMinusOne comm i) = i) ∧
    ∀ rank, getInternalRankOrMinusOne comm rank ≠ -1 →
      getWorldRankOrMinusOne comm (getInternalRankOrMinusOne comm rank) = rank := by
  rcases h.stored with ⟨hlist, hmap⟩ | ⟨hlist, hmap⟩
  · refine ⟨fun i hi => absurd ?_ hi, fun rank hrank => absurd ?_ hrank⟩
    · rw [getWorldRankOrMinusOne, hlist, entry_nil, ite_self]
    · rw [getInternalRankOrMinusOne, hmap]
  · have hworld : ∀ i : Nat, i < t.size → getWorldRankOrMinusOne comm i = t.ranks i := by
      intro i hi
      rw [getWorldRankOrMinusOne, if_pos (Int.natCast_nonneg i), hlist, Int.toNat_natCast]
      simp only [entry, List.getD_eq_getElem?_getD, t.ranklist_getElem? hi, Option.getD_some]
    refine ⟨fun i hi => ?_, fun rank hrank => ?_⟩
    · have hpos : 0 ≤ i := by
        by_contra hneg
        exact hi (by rw [getWorldRankOrMinusOne, if_neg hneg])
      obtain ⟨k, rfl⟩ := Int.eq_ofNat_of_zero_le hpos
      have hlt : k < t.size := by
        rw [getWorldRankOrMinusOne, if_pos hpos, Int.toNat_natCast] at hi
        have hlength := lt_of_entry hi
        rw [hlist] at hlength
        simpa [FixedTree.ranklist] using hlength
      rw [hworld k hlt, getInternalRankOrMinusOne, hmap, (t.map_eq_some _ k).mpr ⟨hlt, rfl⟩]
    · cases hinternal : comm.worldToIntRank rank with
      | none =>
          rw [getInternalRankOrMinusOne, hinternal] at hrank
          exact absurd rfl hrank
      | some k =>
          rw [getInternalRankOrMinusOne, hinternal]
          rw [hmap, t.map_eq_some] at hinternal
          rw [hworld k hinternal.1, hinternal.2]

/-- Over any interleaving, every list sent up has the ranks of the sender's subtree and nothing else, every
list that a node broadcasts or stores is the complete one, and on the stored lists the two lookups are
inverse to each other. -/
theorem ranklists_correct (t : FixedTree) (id : Int) (calls : List Call) :
    ∃ s, Runs.run (RanklistAggregation.step t) (start id) calls = .ok s ∧
      (∀ v < t.size, ∀ dest, ∀ msg ∈ s.net () (t.ranks v) dest, msg.tag = .aggregateRanklist →
        ∀ i, (i < t.size ∧ Descends v i → entry msg.payload i = t.ranks i) ∧
          (¬ (i < t.size ∧ Descends v i) → entry msg.payload i = -1)) ∧
      (∀ v < t.size, ∀ dest, ∀ msg ∈ s.net () (t.ranks v) dest, msg.tag = .broadcastRanklist →
        msg.payload = (List.range t.size).map fun i => (t.ranks i : Int)) ∧
      ∀ v < t.size,
        ((s.comms v).ranklist = [] ∨
          (s.comms v).ranklist = (List.range t.size).map fun i => (t.ranks i : Int)) ∧
        (∀ i, getWorldRankOrMinusOne (s.comms v) i ≠ -1 →
          getInternalRankOrMinusOne (s.comms v) (getWorldRankOrMinusOne (s.comms v) i) = i) ∧
        ∀ rank, getInternalRankOrMinusOne (s.comms v) rank ≠ -1 →
          getWorldRankOrMinusOne (s.comms v) (getInternalRankOrMinusOne (s.comms v) rank) = rank := by
  obtain ⟨s, hs, hcorrect⟩ := (correct_start t id).run calls
  refine ⟨s, hs, ?_, ?_, ?_⟩
  · intro v hv dest msg hmsg htag
    have hmessage := hcorrect.messages v hv dest msg hmsg
    rw [MessageCorrect, htag] at hmessage
    exact hmessage.2.2.1
  · intro v hv dest msg hmsg htag
    have hmessage := hcorrect.messages v hv dest msg hmsg
    rw [MessageCorrect, htag] at hmessage
    exact hmessage
  · intro v hv
    have hnode := hcorrect.nodes v hv
    exact ⟨hnode.stored.imp And.left And.left, hnode.inverse⟩

end Run

def threeNodes : FixedTree where
  size := 3
  ranks := fun i => 7 - 2 * i
  two_le := by decide
  distinct := by
    intro i j hi hj heq
    omega

example : ((Runs.run (step threeNodes) (start 1)
      [.wantsToAggregate 1 true, .wantsToAggregate 2 true, .communicate 1, .communicate 2, .deliver 2 0, .deliver 1 0,
        .deliver 0 2]).map fun s => (s.comms 2).ranklist) = .ok [7, 5, 3] := by decide +kernel

end Mallob.RanklistAggregation
