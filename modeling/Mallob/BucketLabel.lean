import Mathlib

namespace Mallob.Sharing

structure BucketLabel where
  size : Nat := 1
  lbd : Nat := 1
deriving DecidableEq

def BucketLabel.next (b : BucketLabel) (maxLbdPartitionedSize : Nat) : BucketLabel :=
  if b.lbd = b.size ∨ maxLbdPartitionedSize < b.size then ⟨b.size + 1, 2⟩ else ⟨b.size, b.lbd + 1⟩

def bucketAt (maxLbdPartitionedSize : Nat) : Nat → BucketLabel
  | 0 => {}
  | i + 1 => (bucketAt maxLbdPartitionedSize i).next maxLbdPartitionedSize

/-- The position that the slot index formula computes for a size and an LBD value. -/
def slotPosition (maxLbdPartitionedSize : Nat) (clauseSize lbd : Int) : Int :=
  let mlbdps : Int := maxLbdPartitionedSize
  let numPartitionedLengthsBefore := min (clauseSize - 1) mlbdps
  let numPartitionedSlotsBefore :=
    if numPartitionedLengthsBefore = 0 then 0
    else 1 + numPartitionedLengthsBefore * (numPartitionedLengthsBefore - 1) / 2
  let numNonpartitionedSlotsBefore := max 0 (clauseSize - mlbdps - 1)
  numPartitionedSlotsBefore + numNonpartitionedSlotsBefore + if clauseSize ≤ mlbdps then max lbd 2 - 2 else 0

variable {p : Nat} {b : BucketLabel}

def BucketLabel.Proper (p : Nat) (b : BucketLabel) : Prop :=
  b.size = 1 ∧ b.lbd = 1 ∨ 2 ≤ b.size ∧ b.size ≤ p ∧ 2 ≤ b.lbd ∧ b.lbd ≤ b.size ∨
    2 ≤ b.size ∧ p < b.size ∧ b.lbd = 2

theorem BucketLabel.Proper.next (h : b.Proper p) : (b.next p).Proper p := by
  rw [BucketLabel.Proper] at h
  rw [BucketLabel.next]
  split
  · simp only [BucketLabel.Proper, and_true]
    omega
  · simp only [BucketLabel.Proper]
    omega

theorem bucketAt_proper (p i : Nat) : (bucketAt p i).Proper p := by
  induction i with
  | zero => exact Or.inl ⟨rfl, rfl⟩
  | succ i ih => exact ih.next

theorem BucketLabel.Proper.size_pos (h : b.Proper p) : 1 ≤ b.size := by
  rw [BucketLabel.Proper] at h
  omega

theorem bucketAt_size_pos (p i : Nat) : 1 ≤ (bucketAt p i).size := (bucketAt_proper p i).size_pos

def slotsUpTo : Nat → Nat
  | 0 => 0
  | n + 1 => 1 + (n + 1) * n / 2

theorem slotsUpTo_succ_succ (n : Nat) : slotsUpTo (n + 2) = slotsUpTo (n + 1) + (n + 1) := by
  have h := Nat.triangle_succ (n + 1)
  simp only [slotsUpTo, Nat.add_sub_cancel] at h ⊢
  omega

theorem slotsBefore_eq (n : Nat) :
    (if (n : Int) = 0 then 0 else 1 + (n : Int) * ((n : Int) - 1) / 2) = slotsUpTo n := by
  cases n with
  | zero => rfl
  | succ n =>
      rw [if_neg (by omega), slotsUpTo]
      push_cast
      congr 2
      ring

theorem slotPosition_partitioned {s l : Nat} (hs : 1 ≤ s) (hp : s ≤ p) :
    slotPosition p s l = slotsUpTo (s - 1) + (max l 2 - 2 : Nat) := by
  have hbefore : min ((s : Int) - 1) p = ((s - 1 : Nat) : Int) := by omega
  simp only [slotPosition, hbefore, slotsBefore_eq]
  rw [if_pos (by omega)]
  omega

theorem slotPosition_nonpartitioned {s : Nat} {l : Int} (hp : p < s) :
    slotPosition p s l = slotsUpTo p + (s - p - 1 : Nat) := by
  have hbefore : min ((s : Int) - 1) p = (p : Int) := by omega
  simp only [slotPosition, hbefore, slotsBefore_eq]
  rw [if_neg (by omega)]
  omega

theorem slotPosition_next (h : b.Proper p) :
    slotPosition p (b.next p).size (b.next p).lbd = slotPosition p b.size b.lbd + 1 := by
  rcases h with ⟨hs, hl⟩ | ⟨h2, hp, hl, hs⟩ | ⟨h2, hp, hl⟩
  · rw [BucketLabel.next, if_pos (Or.inl (hl.trans hs.symm)), hs, hl]
    rcases p with - | - | p
    · rfl
    · rfl
    · rw [slotPosition_partitioned (by simp) (by simp), slotPosition_partitioned (by simp) (by simp)]
      rfl
  · obtain ⟨s, hsize⟩ : ∃ s, b.size = s + 2 := ⟨b.size - 2, by omega⟩
    rw [slotPosition_partitioned (by omega) hp, BucketLabel.next]
    have hgrown : slotsUpTo (s + 2) = slotsUpTo (s + 1) + (s + 1) := slotsUpTo_succ_succ s
    split
    · by_cases hlast : b.size + 1 ≤ p
      · rw [slotPosition_partitioned (by simp) hlast]
        simp only [hsize, Nat.add_sub_cancel, show s + 2 - 1 = s + 1 from rfl, hgrown]
        omega
      · have hlast : b.size = p := by omega
        rw [slotPosition_nonpartitioned (by simp only; omega)]
        simp only [← hlast, hsize, show s + 2 - 1 = s + 1 from rfl, hgrown]
        omega
    · rw [slotPosition_partitioned (by omega) hp]
      simp only
      omega
  · rw [BucketLabel.next, if_pos (Or.inr hp), slotPosition_nonpartitioned hp,
      slotPosition_nonpartitioned (by simp only; omega)]
    simp only
    omega

theorem slotPosition_bucketAt (p i : Nat) :
    slotPosition p (bucketAt p i).size (bucketAt p i).lbd = i := by
  induction i with
  | zero =>
      rcases p with - | p
      · rfl
      · exact slotPosition_partitioned le_rfl (Nat.succ_le_succ (Nat.zero_le p))
  | succ i ih =>
      rw [bucketAt, slotPosition_next (bucketAt_proper p i), ih]
      push_cast
      ring

theorem BucketLabel.Proper.exists_bucketAt (h : b.Proper p) : ∃ i, bucketAt p i = b := by
  obtain ⟨s, l⟩ := b
  induction s generalizing l with
  | zero =>
      exact absurd h.size_pos (by simp)
  | succ s ihs =>
      have hfrom : ∀ l', BucketLabel.Proper p ⟨s, l'⟩ → BucketLabel.next ⟨s, l'⟩ p = ⟨s + 1, 2⟩ →
          ∃ i, bucketAt p i = ⟨s + 1, 2⟩ := by
        intro l' hproper hnext
        obtain ⟨i, hi⟩ := ihs l' hproper
        exact ⟨i + 1, by rw [bucketAt, hi, hnext]⟩
      have htwo : 1 ≤ s → ∃ i, bucketAt p i = ⟨s + 1, 2⟩ := by
        intro hs
        by_cases hp : s ≤ p
        · refine hfrom s ?_ (by simp [BucketLabel.next])
          simp only [BucketLabel.Proper]
          omega
        · refine hfrom (if s = 1 then 1 else 2) ?_ (by simp [BucketLabel.next, Nat.lt_of_not_le hp])
          simp only [BucketLabel.Proper]
          split <;> omega
      have hup : ∀ k, 2 + k ≤ s + 1 → s + 1 ≤ p → ∃ i, bucketAt p i = ⟨s + 1, 2 + k⟩ := by
        intro k
        induction k with
        | zero => intro hk _; exact htwo (by omega)
        | succ k ihk =>
            intro hk hp
            obtain ⟨i, hi⟩ := ihk (by omega) hp
            refine ⟨i + 1, ?_⟩
            rw [bucketAt, hi, BucketLabel.next, if_neg (by simp only; omega)]
            rfl
      simp only [BucketLabel.Proper] at h
      rcases h with ⟨hs, rfl⟩ | ⟨h2, hp, hl, hs⟩ | ⟨h2, hp, rfl⟩
      · exact ⟨0, by rw [hs]; rfl⟩
      · obtain ⟨k, rfl⟩ := Nat.exists_eq_add_of_le hl
        exact hup k hs hp
      · exact htwo (by omega)

def labelOf (p size : Nat) (lbd : Int) : BucketLabel :=
  ⟨size, if size = 1 then 1 else if size ≤ p then (max lbd 2).toNat else 2⟩

theorem labelOf_proper {s : Nat} {l : Int} (hs : 1 ≤ s) (hl : 2 ≤ s → s ≤ p → l ≤ s) :
    (labelOf p s l).Proper p := by
  by_cases h1 : s = 1
  · left
    simp [labelOf, h1]
  · by_cases hp : s ≤ p
    · have := hl (by omega) hp
      simp only [labelOf, if_neg h1, if_pos hp, BucketLabel.Proper]
      omega
    · simp only [labelOf, if_neg h1, if_neg hp, BucketLabel.Proper, and_true]
      omega

/-- A clause whose LBD value does not exceed its size belongs to the bucket at its slot position. -/
theorem bucketAt_slotPosition {s : Nat} {l : Int} (hs : 1 ≤ s) (h1 : s = 1 → l ≤ 2)
    (hl : 2 ≤ s → s ≤ p → l ≤ s) : ∃ i : Nat, slotPosition p s l = i ∧ bucketAt p i = labelOf p s l := by
  obtain ⟨i, hi⟩ := (labelOf_proper hs hl).exists_bucketAt
  refine ⟨i, ?_, hi⟩
  rw [← slotPosition_bucketAt p i, hi]
  by_cases hp : s ≤ p
  · obtain ⟨n, hn⟩ : ∃ n : Nat, max l 2 = n := ⟨(max l 2).toNat, by omega⟩
    have hsame : slotPosition p s l = slotPosition p s (n : Int) := by
      simp only [slotPosition, ← hn]
      congr 2
      omega
    rw [hsame]
    by_cases hone : s = 1
    · have hn2 : n = 2 := by have := h1 hone; omega
      subst hone hn2
      rw [slotPosition_partitioned le_rfl hp]
      simp only [labelOf, if_true]
      rw [slotPosition_partitioned le_rfl hp]
      rfl
    · simp only [labelOf, if_neg hone, if_pos hp, hn, Int.toNat_natCast]
  · rw [slotPosition_nonpartitioned (by omega)]
    simp only [labelOf]
    rw [slotPosition_nonpartitioned (by omega)]

theorem bucketAt_injective (p : Nat) : Function.Injective (bucketAt p) := by
  intro i j h
  have hi := slotPosition_bucketAt p i
  rw [h, slotPosition_bucketAt p j] at hi
  exact_mod_cast hi.symm

def BucketLabel.Before (p : Nat) (a b : BucketLabel) : Prop :=
  a.size < b.size ∨ a.size = b.size ∧ b.size ≤ p ∧ a.lbd < b.lbd

theorem BucketLabel.before_next (p : Nat) (b : BucketLabel) : b.Before p (b.next p) := by
  rw [BucketLabel.next]
  split
  · exact Or.inl (Nat.lt_succ_self _)
  · exact Or.inr ⟨rfl, by simp only; omega, Nat.lt_succ_self _⟩

theorem BucketLabel.Before.trans {a b c : BucketLabel} (h : a.Before p b) (h' : b.Before p c) :
    a.Before p c := by
  rw [BucketLabel.Before] at h h' ⊢
  omega

theorem bucketAt_before {i j : Nat} (h : i < j) : (bucketAt p i).Before p (bucketAt p j) := by
  induction j with
  | zero => omega
  | succ j ih =>
      have hnext := BucketLabel.before_next p (bucketAt p j)
      rcases Nat.lt_succ_iff_lt_or_eq.mp h with hlt | rfl
      · exact (ih hlt).trans hnext
      · exact hnext

theorem bucketAt_size_mono {i j : Nat} (h : i ≤ j) : (bucketAt p i).size ≤ (bucketAt p j).size := by
  rcases Nat.eq_or_lt_of_le h with rfl | hlt
  · exact le_rfl
  · rcases bucketAt_before (p := p) hlt with hsize | ⟨hsize, _⟩
    · exact hsize.le
    · exact hsize.le

end Mallob.Sharing
