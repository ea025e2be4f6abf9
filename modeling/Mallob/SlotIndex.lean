import Mallob.StoredClauses

namespace Mallob.Sharing

variable {p i k m s : Nat} {l : Int} {slot : ClauseSlot}

/-- There are at most as many buckets for clauses up to a size as pairs of a size and an LBD value. -/
theorem slotsUpTo_le (n : Nat) : slotsUpTo n ≤ 1 + n * n := by
  cases n with
  | zero => exact Nat.zero_le 1
  | succ n =>
      have hhalf : (n + 1) * n / 2 ≤ (n + 1) * n := Nat.div_le_self _ 2
      have hmul : (n + 1) * n ≤ (n + 1) * (n + 1) := Nat.mul_le_mul_left _ n.le_succ
      rw [slotsUpTo]
      omega

theorem BucketLabel.Proper.slotPosition_lt {b : BucketLabel} (h : b.Proper p) :
    slotPosition p b.size b.lbd < (b.size + 1) * (b.size + 1) := by
  obtain ⟨n, hn⟩ : ∃ n, b.size = n + 1 := ⟨b.size - 1, by have := h.size_pos; omega⟩
  have hsquare : ((b.size : Int) + 1) * (b.size + 1) = n * n + 4 * n + 4 := by
    rw [hn]
    push_cast
    ring
  rw [hsquare]
  have hpos := h.size_pos
  by_cases hp : b.size ≤ p
  · have hle : (slotsUpTo n : Int) ≤ 1 + n * n := by exact_mod_cast slotsUpTo_le n
    have hlbd : b.lbd ≤ b.size := by
      rw [BucketLabel.Proper] at h
      omega
    rw [slotPosition_partitioned hpos hp, show b.size - 1 = n by omega]
    omega
  · have hle : (slotsUpTo p : Int) ≤ 1 + n * n := by
      have hmono : p * p ≤ n * n := Nat.mul_le_mul (by omega) (by omega)
      exact_mod_cast (slotsUpTo_le p).trans (Nat.add_le_add_left hmono 1)
    rw [slotPosition_nonpartitioned (by omega)]
    omega

theorem lt_of_bucketAt_size_le {maxClauseSize : Nat} (h : (bucketAt p i).size ≤ maxClauseSize) :
    i < (maxClauseSize + 1) * (maxClauseSize + 1) := by
  have hlt := (bucketAt_proper p i).slotPosition_lt
  rw [slotPosition_bucketAt] at hlt
  have hsquare : i < ((bucketAt p i).size + 1) * ((bucketAt p i).size + 1) := by exact_mod_cast hlt
  exact hsquare.trans_le (Nat.mul_le_mul (Nat.succ_le_succ h) (Nat.succ_le_succ h))

/-- In the range of clause sizes for which the product in the formula fits into an int, the position does, too. -/
theorem slotPosition_fits {n : Int} (hs : 1 ≤ s) (hsize : s ≤ 46342) (hl : l ≤ s) (hn : n = min ((s : Int) - 1) m) :
    0 ≤ n * (n - 1) ∧ n * (n - 1) < 2 ^ 31 ∧ 0 ≤ slotPosition m s l ∧ slotPosition m s l < 2 ^ 31 := by
  have hn0 : 0 ≤ n := by omega
  have hnle : n ≤ 46341 := by omega
  have hprod : 0 ≤ n * (n - 1) := by
    rcases hn0.eq_or_lt with rfl | hpos
    · rfl
    · exact Int.mul_nonneg hn0 (by omega)
  have hbound : n * (n - 1) ≤ 46341 * 46340 := by
    rcases hn0.eq_or_lt with rfl | hpos
    · decide
    · exact Int.mul_le_mul hnle (by omega) (by omega) (by decide)
  simp only [slotPosition, ← hn]
  generalize hproduct : n * (n - 1) = product at hprod hbound ⊢
  split <;> split <;> omega

namespace AdaptiveClauseDatabase

variable {maxClauseSize chunkSize numChunks : Nat} {chk : Bool} {db : AdaptiveClauseDatabase}

theorem lt_length_createSlots {fuel : Nat} :
    i < (createSlots maxClauseSize p chunkSize fuel (bucketAt p k)).length ↔
      i < fuel ∧ (bucketAt p (k + i)).size ≤ maxClauseSize := by
  induction fuel generalizing i k with
  | zero => simp [createSlots]
  | succ fuel ih =>
      rw [createSlots]
      split
      · next hle =>
          cases i with
          | zero => simpa using hle
          | succ i =>
              have hnext : bucketAt p (k + 1) = (bucketAt p k).next p := rfl
              rw [List.length_cons, Nat.succ_lt_succ_iff, ← hnext, ih, Nat.succ_lt_succ_iff,
                show k + 1 + i = k + (i + 1) by omega]
      · next hgt =>
          have hmono : (bucketAt p k).size ≤ (bucketAt p (k + i)).size := bucketAt_size_mono (Nat.le_add_right k i)
          simp only [List.length_nil, Nat.not_lt_zero, false_iff]
          omega

/-- The constructor makes a slot for each bucket up to the greatest clause size. -/
theorem lt_length_new : i < (new maxClauseSize p chunkSize numChunks chk).slots.length ↔
    (bucketAt p i).size ≤ maxClauseSize := by
  have h := @lt_length_createSlots p i 0 maxClauseSize chunkSize ((maxClauseSize + 1) * (maxClauseSize + 1))
  rw [Nat.zero_add] at h
  exact h.trans (and_iff_right_of_imp lt_of_bucketAt_size_le)

theorem getSlotIdx_eq (h : slotPosition db.maxLbdPartitionedSize s l = k) :
    db.getSlotIdx s l = if k < db.slots.length then some k else none := by
  simp only [getSlotIdx, h, Int.natCast_nonneg, Int.ofNat_lt, true_and, Int.toNat_natCast]

/-- The clauses that the database is made for have an LBD value between one and their size. -/
structure Indexable (s : Nat) (l : Int) : Prop where
  size_pos : 1 ≤ s
  lbd_pos : 1 ≤ l
  lbd_le : l ≤ s

theorem Indexable.exists_bucketAt (h : Indexable s l) :
    ∃ k : Nat, slotPosition p s l = k ∧ bucketAt p k = labelOf p s l := by
  obtain ⟨hs, -, hl⟩ := h
  exact bucketAt_slotPosition hs (fun _ => by omega) (fun _ _ => hl)

/-- Clauses that have a slot share it if and only if they share a bucket. -/
theorem getSlotIdx_eq_iff {s' : Nat} {l' : Int} (h : Indexable s l) (h' : Indexable s' l')
    (hidx : db.getSlotIdx s l = some i) : db.getSlotIdx s' l' = some i ↔
      labelOf db.maxLbdPartitionedSize s' l' = labelOf db.maxLbdPartitionedSize s l := by
  obtain ⟨k, hpos, hk⟩ := h.exists_bucketAt (p := db.maxLbdPartitionedSize)
  obtain ⟨k', hpos', hk'⟩ := h'.exists_bucketAt (p := db.maxLbdPartitionedSize)
  rw [getSlotIdx_eq hpos, Option.ite_none_right_eq_some, Option.some.injEq] at hidx
  obtain ⟨hlt, rfl⟩ := hidx
  rw [getSlotIdx_eq hpos', ← hk, ← hk', (bucketAt_injective _).eq_iff, Option.ite_none_right_eq_some,
    Option.some.injEq]
  constructor
  · rintro ⟨-, rfl⟩
    rfl
  · rintro rfl
    exact ⟨hlt, rfl⟩

/-- The slot of a clause is found at the position of its bucket in the walk over all buckets. -/
theorem getSlotIdx_walk (m maxClauseSize chunkSize numChunks : Nat) (chk : Bool) (h : Indexable s l) :
    ∃ k : Nat, (∀ j, bucketAt m j = labelOf m s l ↔ j = k) ∧
      (∀ db : AdaptiveClauseDatabase, db.maxLbdPartitionedSize = m →
        db.getSlotIdx s l = if k < db.slots.length then some k else none) ∧
      (k < (new maxClauseSize m chunkSize numChunks chk).slots.length ↔ s ≤ maxClauseSize) ∧
      (∀ slot, (new maxClauseSize m chunkSize numChunks chk).slots[k]? = some slot →
        slot.clauseSize = s ∧ slot.lbdValue = (labelOf m s l).lbd) ∧
      ∀ db : AdaptiveClauseDatabase, db.maxLbdPartitionedSize = m → ∀ i s' l', Indexable s' l' →
        db.getSlotIdx s l = some i → (db.getSlotIdx s' l' = some i ↔ labelOf m s' l' = labelOf m s l) := by
  obtain ⟨k, hpos, hk⟩ := h.exists_bucketAt (p := m)
  refine ⟨k, ?_, ?_, ?_, ?_, ?_⟩
  · intro j
    rw [← hk, (bucketAt_injective m).eq_iff]
  · rintro db rfl
    exact getSlotIdx_eq hpos
  · rw [lt_length_new, hk]
    rfl
  · intro slot hslot
    have hfor := (@createSlots_spec m slot maxClauseSize chunkSize _ 0 k hslot).1
    rw [Nat.zero_add] at hfor
    exact ⟨by rw [hfor.size_eq, hk]; rfl, by rw [hfor.lbd_eq, hk]⟩
  · rintro db rfl i s' l' h' hidx
    exact getSlotIdx_eq_iff h h' hidx

theorem getSlotIdx_walk_border : ∃ k : Nat, (∀ j, bucketAt 3 j = labelOf 3 4 2 ↔ j = k) ∧
    (∀ db : AdaptiveClauseDatabase, db.maxLbdPartitionedSize = 3 →
      db.getSlotIdx 4 2 = if k < db.slots.length then some k else none) ∧
    (k < (new 5 3 10 2 false).slots.length ↔ 4 ≤ 5) ∧
    (∀ slot, (new 5 3 10 2 false).slots[k]? = some slot →
      slot.clauseSize = 4 ∧ slot.lbdValue = (labelOf 3 4 2).lbd) ∧
    ∀ db : AdaptiveClauseDatabase, db.maxLbdPartitionedSize = 3 → ∀ i s' l', Indexable s' l' →
      db.getSlotIdx 4 2 = some i → (db.getSlotIdx s' l' = some i ↔ labelOf 3 s' l' = labelOf 3 4 2) :=
  getSlotIdx_walk 3 5 10 2 false ⟨by decide, by decide, by decide⟩

end AdaptiveClauseDatabase

end Mallob.Sharing
