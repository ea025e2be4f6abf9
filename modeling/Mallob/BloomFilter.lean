import Mathlib

namespace Mallob.BloomFilter

variable {ι : Type*} [DecidableEq ι]

/-- A key is entered by going through its bits: it is admitted at the first bit that is missing, and
only the bits from there on are set. -/
def enter (hashes : List ι) (bits : Finset ι) : Finset ι × Bool :=
  hashes.foldl (fun (bits, admitted) h =>
    let admitted := if !admitted then decide (h ∉ bits) else admitted
    (if admitted then insert h bits else bits, admitted)) (bits, false)

theorem foldl_admitted (hashes : List ι) (bits : Finset ι) :
    hashes.foldl (fun (bits, admitted) h =>
      let admitted := if !admitted then decide (h ∉ bits) else admitted
      (if admitted then insert h bits else bits, admitted)) (bits, true) = (bits ∪ hashes.toFinset, true) := by
  induction hashes generalizing bits with
  | nil => simp
  | cons h hashes ih =>
      rw [List.foldl_cons]
      apply (ih (insert h bits)).trans
      simp [Finset.insert_union, Finset.union_insert]

/-- Once a key is entered all of its bits are set, the ones before the first missing bit as well. -/
theorem enter_eq (hashes : List ι) (bits : Finset ι) :
    enter hashes bits = (bits ∪ hashes.toFinset, decide (¬hashes.toFinset ⊆ bits)) := by
  induction hashes with
  | nil => simp [enter]
  | cons h hashes ih =>
      by_cases hmem : h ∈ bits
      · have hskip : enter (h :: hashes) bits = enter hashes bits := by
          simp [enter, hmem]
        apply hskip.trans (ih.trans _)
        simp [hmem, Finset.insert_subset_iff]
      · have hset : enter (h :: hashes) bits = (insert h bits ∪ hashes.toFinset, true) := by
          apply Eq.trans _ (foldl_admitted hashes (insert h bits))
          simp [enter, hmem]
        apply hset.trans
        simp [hmem, Finset.insert_subset_iff, Finset.insert_union, Finset.union_insert]

theorem subset_enter (hashes : List ι) (bits : Finset ι) : bits ⊆ (enter hashes bits).1 := by
  rw [enter_eq]
  exact Finset.subset_union_left

theorem toFinset_subset_enter (hashes : List ι) (bits : Finset ι) : hashes.toFinset ⊆ (enter hashes bits).1 := by
  rw [enter_eq]
  exact Finset.subset_union_right

theorem enter_of_subset {hashes : List ι} {bits : Finset ι} (h : hashes.toFinset ⊆ bits) :
    enter hashes bits = (bits, false) := by
  simp [enter_eq, h]

end Mallob.BloomFilter
