import Mallob.BucketEncoding

namespace Mallob.Sharing

def segment (memory : Nat → Int) (start length : Nat) : List Int := (List.range' start length).map memory

/-- A reader with its position in memory. The positions that were accessed are not part of the program. -/
structure PositionedReader where
  isNull : Bool := false
  size : Nat
  maxLbdPartitionedSize : Nat
  currentPos : Nat := 3
  bucket : BucketLabel := {}
  remainingClsOfBucket : Nat
  effectiveClauseSize : Nat := 1
  accessed : List Nat
deriving DecidableEq

namespace PositionedReader

def new (memory : Nat → Int) (size maxLbdPartitionedSize : Nat) : PositionedReader where
  size := size
  maxLbdPartitionedSize := maxLbdPartitionedSize
  remainingClsOfBucket := if size ≤ 2 then 0 else toSize (memory 2)
  accessed := if size ≤ 2 then [] else [2]

def endReading (r : PositionedReader) : Option (Clause × Nat) × PositionedReader := (none, { r with isNull := true })

def nextBucket (memory : Nat → Int) (r : PositionedReader) : PositionedReader :=
  if r.remainingClsOfBucket ≠ 0 then r
  else if r.size ≤ r.currentPos then r
  else nextBucket memory { r with
    bucket := r.bucket.next r.maxLbdPartitionedSize
    remainingClsOfBucket := toSize (memory r.currentPos)
    currentPos := r.currentPos + 1
    accessed := r.accessed ++ [r.currentPos] }
termination_by r.size - r.currentPos
decreasing_by omega

def readClause (memory : Nat → Int) (r : PositionedReader) :
    Except ReadFault (Option (Clause × Nat) × PositionedReader) :=
  if r.size < r.currentPos + r.effectiveClauseSize then .ok r.endReading
  else if memory r.currentPos = 0 then .error .zeroInBuffer
  else
    let ints := segment memory r.currentPos r.effectiveClauseSize
    let clause : Clause :=
      if r.bucket.size < r.effectiveClauseSize then ⟨ints.tail, ints.headD 0⟩ else ⟨ints, r.bucket.lbd⟩
    .ok (some (clause, r.currentPos + r.effectiveClauseSize), { r with
      currentPos := r.currentPos + r.effectiveClauseSize
      remainingClsOfBucket := r.remainingClsOfBucket - 1
      accessed := r.accessed ++ List.range' r.currentPos r.effectiveClauseSize })

def updateClauseData (r : PositionedReader) : PositionedReader :=
  { r with effectiveClauseSize := effectiveSize r.maxLbdPartitionedSize r.bucket.size }

def getNextIncomingClause (memory : Nat → Int) (r : PositionedReader) :
    Except ReadFault (Option (Clause × Nat) × PositionedReader) :=
  if r.isNull then .ok (none, r)
  else if r.remainingClsOfBucket = 0 then
    let r' := nextBucket memory r
    if r'.remainingClsOfBucket = 0 then .ok r'.endReading else readClause memory r'.updateClauseData
  else readClause memory r

def readClauses (memory : Nat → Int) : Nat → PositionedReader → Except ReadFault (List (Clause × Nat) × List Nat)
  | 0, _ => .error .unfinished
  | fuel + 1, r =>
      match getNextIncomingClause memory r with
      | .error e => .error e
      | .ok (none, r') => .ok ([], r'.accessed)
      | .ok (some c, r') => (readClauses memory fuel r').map fun read => (c :: read.1, read.2)

def readBuffer (memory : Nat → Int) (size maxLbdPartitionedSize : Nat) :
    Except ReadFault (List (Clause × Nat) × List Nat) :=
  readClauses memory (size + 1) (new memory size maxLbdPartitionedSize)

variable {memory : Nat → Int} {r r' : PositionedReader} {n : Nat}

section Refinement

def toBufferReader (memory : Nat → Int) (r : PositionedReader) : BufferReader where
  unread := if r.isNull then none else some (segment memory r.currentPos (r.size - r.currentPos))
  maxLbdPartitionedSize := r.maxLbdPartitionedSize
  bucket := r.bucket
  remainingClsOfBucket := r.remainingClsOfBucket
  effectiveClauseSize := r.effectiveClauseSize
  useChecksum := false
  hash := 1
  trueHash := 1

@[simp] theorem length_segment (memory : Nat → Int) (start length : Nat) :
    (segment memory start length).length = length := by simp [segment]

theorem segment_cons (memory : Nat → Int) {start last : Nat} (h : start < last) :
    segment memory start (last - start) = memory start :: segment memory (start + 1) (last - (start + 1)) := by
  have hlength : last - start = last - (start + 1) + 1 := by omega
  rw [segment, hlength, List.range'_succ, List.map_cons]
  rfl

theorem segment_append (memory : Nat → Int) (start k length : Nat) :
    segment memory start (k + length) = segment memory start k ++ segment memory (start + k) length := by
  rw [segment, segment, segment, ← List.map_append, List.range'_append_1]

theorem nextBucket_refines (memory : Nat → Int) (hremaining : r.remainingClsOfBucket = 0) :
    BufferReader.nextBucket r.maxLbdPartitionedSize r.bucket (segment memory r.currentPos (r.size - r.currentPos)) =
      if (nextBucket memory r).remainingClsOfBucket = 0 then none
      else some ((nextBucket memory r).bucket, (nextBucket memory r).remainingClsOfBucket,
        segment memory (nextBucket memory r).currentPos (r.size - (nextBucket memory r).currentPos)) := by
  fun_induction nextBucket memory r with
  | case1 r hne => exact absurd hremaining hne
  | case2 r _ hend =>
      rw [Nat.sub_eq_zero_of_le hend, if_pos hremaining]
      rfl
  | case3 r _ hlt ih =>
      rw [segment_cons memory (not_le.mp hlt), BufferReader.nextBucket]
      split
      · next hzero => exact ih hzero
      · next hne =>
          rw [nextBucket]
          simp [hne]

theorem endReading_refines (r : PositionedReader) :
    ((r.toBufferReader memory).endReading).map (fun x => x.1.map fun c => (c, x.2)) = .ok none := by
  rw [BufferReader.endReading, if_neg (fun h => Bool.false_ne_true h.1)]
  rfl

/-- Apart from the positions, a clause is read as from a list, and so is what follows it. -/
theorem readClause_refines (hnull : r.isNull = false) (hsize : 1 ≤ r.effectiveClauseSize) :
    ((r.toBufferReader memory).readClause (segment memory r.currentPos (r.size - r.currentPos))).map
        (fun x => x.1.map fun c => (c, x.2)) =
      (readClause memory r).map fun x => x.1.map fun c => (c.1, x.2.toBufferReader memory) := by
  rw [readClause, BufferReader.readClause, length_segment]
  by_cases hend : r.size < r.currentPos + r.effectiveClauseSize
  · have hshort : r.size - r.currentPos < (r.toBufferReader memory).effectiveClauseSize :=
      show r.size - r.currentPos < r.effectiveClauseSize by omega
    rw [if_pos hshort, if_pos hend, endReading_refines]
    rfl
  · have hlong : ¬ r.size - r.currentPos < (r.toBufferReader memory).effectiveClauseSize :=
      show ¬ r.size - r.currentPos < r.effectiveClauseSize by omega
    have hcons := segment_cons memory (show r.currentPos < r.size by omega)
    have hleft : r.size - (r.currentPos + r.effectiveClauseSize) = r.size - r.currentPos - r.effectiveClauseSize :=
      Nat.sub_add_eq ..
    have hsplit : segment memory r.currentPos (r.size - r.currentPos) =
        segment memory r.currentPos r.effectiveClauseSize ++ segment memory (r.currentPos + r.effectiveClauseSize)
          (r.size - (r.currentPos + r.effectiveClauseSize)) := by
      rw [hleft, ← segment_append, Nat.add_sub_cancel' (by omega)]
    have htake : (segment memory r.currentPos (r.size - r.currentPos)).take r.effectiveClauseSize =
        segment memory r.currentPos r.effectiveClauseSize := by
      rw [hsplit]
      exact List.take_left' (length_segment ..)
    have hdrop : (segment memory r.currentPos (r.size - r.currentPos)).drop r.effectiveClauseSize =
        segment memory (r.currentPos + r.effectiveClauseSize)
          (r.size - (r.currentPos + r.effectiveClauseSize)) := by
      rw [hsplit]
      exact List.drop_left' (length_segment ..)
    rw [if_neg hlong, if_neg hend]
    by_cases hzero : memory r.currentPos = 0
    · rw [if_pos hzero, hcons, List.head?_cons, hzero, if_pos rfl]
      rfl
    · have hhead : (segment memory r.currentPos (r.size - r.currentPos)).head? ≠ some 0 := by
        rw [hcons, List.head?_cons]
        exact fun h => hzero (Option.some.inj h)
      rw [if_neg hzero, if_neg hhead]
      simp only [toBufferReader, Except.map, Option.map_some, hnull, htake, hdrop, Bool.false_eq_true, if_false]

structure Proper (r : PositionedReader) : Prop where
  bucket : r.bucket.Proper r.maxLbdPartitionedSize
  effective : r.effectiveClauseSize = effectiveSize r.maxLbdPartitionedSize r.bucket.size

theorem Proper.size_pos (h : r.Proper) : 1 ≤ r.effectiveClauseSize := by
  rw [h.effective]
  exact effectiveSize_pos h.bucket.size_pos

theorem Proper.new (memory : Nat → Int) (size : Nat) {p : Nat} (hp : 1 ≤ p) : (new memory size p).Proper where
  bucket := Or.inl ⟨rfl, rfl⟩
  effective := by simp [PositionedReader.new, effectiveSize, hp]

theorem nextBucket_pos_le (memory : Nat → Int) (r : PositionedReader) :
    r.currentPos ≤ (nextBucket memory r).currentPos := by
  fun_induction nextBucket memory r with
  | case1 r _ => exact le_rfl
  | case2 r _ _ => exact le_rfl
  | case3 r _ _ ih => exact (Nat.le_succ _).trans ih

theorem nextBucket_spec (memory : Nat → Int) (hbucket : r.bucket.Proper r.maxLbdPartitionedSize) :
    (nextBucket memory r).updateClauseData.Proper ∧ (nextBucket memory r).size = r.size ∧
      (nextBucket memory r).isNull = r.isNull ∧
      (nextBucket memory r).maxLbdPartitionedSize = r.maxLbdPartitionedSize := by
  fun_induction nextBucket memory r with
  | case1 r _ => exact ⟨⟨hbucket, rfl⟩, rfl, rfl, rfl⟩
  | case2 r _ _ => exact ⟨⟨hbucket, rfl⟩, rfl, rfl, rfl⟩
  | case3 r _ _ ih => exact ih hbucket.next

theorem getNextIncomingClause_refines (memory : Nat → Int) (hr : r.Proper) :
    (r.toBufferReader memory).getNextIncomingClause.map (fun x => x.1.map fun c => (c, x.2)) =
      (getNextIncomingClause memory r).map fun x => x.1.map fun c => (c.1, x.2.toBufferReader memory) := by
  rw [getNextIncomingClause, BufferReader.getNextIncomingClause]
  cases hnull : r.isNull with
  | true => simp [toBufferReader, hnull, Except.map]
  | false =>
      have hunread : (r.toBufferReader memory).unread = some (segment memory r.currentPos (r.size - r.currentPos)) := by
        simp [toBufferReader, hnull]
      rw [hunread]
      by_cases hremaining : r.remainingClsOfBucket = 0
      · have hnext := nextBucket_refines memory hremaining
        obtain ⟨hproper, hsize, hnull', hpartitioned⟩ := nextBucket_spec memory hr.bucket
        have hpresent : (r.toBufferReader memory).remainingClsOfBucket = 0 := hremaining
        simp only [Bool.false_eq_true, if_false, hremaining, hpresent, if_true]
        rw [show (r.toBufferReader memory).maxLbdPartitionedSize = r.maxLbdPartitionedSize from rfl,
          show (r.toBufferReader memory).bucket = r.bucket from rfl, hnext]
        by_cases hend : (nextBucket memory r).remainingClsOfBucket = 0
        · rw [if_pos hend, if_pos hend, BufferReader.continueIn, endReading_refines]
          rfl
        · rw [if_neg hend, if_neg hend]
          have hnull₂ : (nextBucket memory r).updateClauseData.isNull = false := hnull'.trans hnull
          rw [← readClause_refines hnull₂ hproper.size_pos]
          congr 1
          simp only [updateClauseData, hsize, BufferReader.continueIn, toBufferReader, hpartitioned]
          rfl
      · have hremaining' : (r.toBufferReader memory).remainingClsOfBucket ≠ 0 := hremaining
        simp only [Bool.false_eq_true, if_false, hremaining, hremaining']
        exact readClause_refines hnull hr.size_pos

structure Passed (memory : Nat → Int) (r : PositionedReader) (c : Clause × Nat) (r' : PositionedReader) : Prop where
  proper : r'.Proper
  size_eq : r'.size = r.size
  partitioned : r'.maxLbdPartitionedSize = r.maxLbdPartitionedSize
  pos_eq : r'.currentPos = c.2
  pos_lt : r.currentPos < c.2
  le_size : c.2 ≤ r.size
  entry_eq : ∃ start, start + (c.1.entry r.maxLbdPartitionedSize).length = c.2 ∧
    c.1.entry r.maxLbdPartitionedSize = segment memory start (c.1.entry r.maxLbdPartitionedSize).length

theorem entry_of_ints (hr : r.Proper) {ints : List Int} (hlength : ints.length = r.effectiveClauseSize) :
    (if r.bucket.size < r.effectiveClauseSize then (⟨ints.tail, ints.headD 0⟩ : Clause)
      else ⟨ints, r.bucket.lbd⟩).entry r.maxLbdPartitionedSize = ints := by
  rw [hr.effective, effectiveSize] at hlength
  rw [hr.effective, effectiveSize]
  by_cases hp : r.bucket.size ≤ r.maxLbdPartitionedSize
  · rw [if_pos hp, Nat.add_zero] at hlength
    rw [if_pos hp, Nat.add_zero, if_neg (lt_irrefl _), Clause.entry, Clause.size, hlength, if_pos hp]
  · rw [if_neg hp] at hlength
    obtain ⟨x, xs, rfl⟩ := List.exists_cons_of_length_eq_add_one hlength
    have hxs : xs.length = r.bucket.size := Nat.succ_injective hlength
    rw [if_neg hp, if_pos (Nat.lt_succ_self _), Clause.entry, Clause.size, List.tail_cons, hxs, if_neg hp]
    rfl

theorem Proper.readClause (hr : r.Proper) {c : Clause × Nat} (h : readClause memory r = .ok (some c, r')) :
    Passed memory r c r' := by
  rw [PositionedReader.readClause] at h
  split at h
  · cases h
  next hfits =>
  split at h
  · cases h
  · have hlength := length_segment memory r.currentPos r.effectiveClauseSize
    have hentry := entry_of_ints hr hlength
    obtain ⟨hc, rfl⟩ := Prod.mk.inj (Except.ok.inj h)
    obtain rfl := Option.some.inj hc
    exact {
      proper := ⟨hr.bucket, hr.effective⟩
      size_eq := rfl
      partitioned := rfl
      pos_eq := rfl
      pos_lt := Nat.lt_add_of_pos_right hr.size_pos
      le_size := not_lt.mp hfits
      entry_eq := by
        refine ⟨r.currentPos, ?_⟩
        rw [hentry, hlength]
        exact ⟨rfl, rfl⟩ }

theorem Proper.getNextIncomingClause (hr : r.Proper) {c : Clause × Nat}
    (h : getNextIncomingClause memory r = .ok (some c, r')) : Passed memory r c r' := by
  rw [PositionedReader.getNextIncomingClause] at h
  split at h
  · cases h
  split at h
  · obtain ⟨hproper, hsize, -, hpartitioned⟩ := nextBucket_spec memory hr.bucket
    dsimp only at h
    split at h
    · cases h
    · have hpassed := hproper.readClause h
      exact {
        proper := hpassed.proper
        size_eq := hpassed.size_eq.trans hsize
        partitioned := hpassed.partitioned.trans hpartitioned
        pos_eq := hpassed.pos_eq
        pos_lt := (nextBucket_pos_le memory r).trans_lt hpassed.pos_lt
        le_size := hsize ▸ hpassed.le_size
        entry_eq := hpartitioned ▸ hpassed.entry_eq }
  · exact hr.readClause h

theorem readClauses_refines (hr : r.Proper) (fuel : Nat) :
    BufferReader.readClauses fuel (r.toBufferReader memory) =
      (readClauses memory fuel r).map fun read => read.1.map Prod.fst := by
  induction fuel generalizing r with
  | zero => rfl
  | succ fuel ih =>
      have hnext := getNextIncomingClause_refines memory hr
      rw [readClauses, BufferReader.readClauses]
      cases hread : getNextIncomingClause memory r with
      | error e =>
          rw [hread] at hnext
          cases hlist : (r.toBufferReader memory).getNextIncomingClause with
          | error e' =>
              rw [hlist] at hnext
              obtain rfl : e' = e := Except.error.inj hnext
              rfl
          | ok x => rw [hlist] at hnext; cases hnext
      | ok x =>
          rw [hread] at hnext
          cases hlist : (r.toBufferReader memory).getNextIncomingClause with
          | error e' => rw [hlist] at hnext; cases hnext
          | ok y =>
              rw [hlist] at hnext
              obtain ⟨c, r'⟩ := x
              obtain ⟨c', l⟩ := y
              have heq := Except.ok.inj hnext
              cases c with
              | none =>
                  cases c' with
                  | none => rfl
                  | some c' => cases heq
              | some c =>
                  cases c' with
                  | none => cases heq
                  | some c' =>
                      obtain ⟨rfl, rfl⟩ := Prod.mk.inj (Option.some.inj heq)
                      dsimp only
                      rw [ih (hr.getNextIncomingClause hread).proper]
                      cases readClauses memory fuel r' with
                      | error e => rfl
                      | ok read => rfl

theorem getD_segment (memory : Nat → Int) {i length : Nat} (hi : i < length) :
    (segment memory 0 length).getD i 0 = memory i := by
  rw [List.getD_eq_getElem _ _ (by rwa [length_segment])]
  simp [segment]

theorem decode_segment (memory : Nat → Int) (size : Nat) {p : Nat} (hp : 1 ≤ p) :
    decode p false (segment memory 0 size) = (readBuffer memory size p).map fun read => read.1.map Prod.fst := by
  rw [readBuffer, ← readClauses_refines (Proper.new memory size hp), decode, BufferReader.new, length_segment,
    if_neg (fun h => Bool.false_ne_true h.1), Except.bind]
  congr 1
  have hunread : (segment memory 0 size).drop 3 = segment memory 3 (size - 3) := by
    by_cases hsize : 3 ≤ size
    · rw [← Nat.add_sub_cancel' hsize, segment_append, Nat.add_sub_cancel_left]
      exact List.drop_left' (length_segment ..)
    · have hshort : size - 3 = 0 := by omega
      rw [List.drop_of_length_le (by rw [length_segment]; omega), hshort]
      rfl
  have hremaining : (if size ≤ 2 then 0 else toSize ((segment memory 0 size).getD 2 0)) =
      if size ≤ 2 then 0 else toSize (memory 2) := by
    split
    · rfl
    · next hlong => rw [getD_segment memory (not_le.mp hlong)]
  rw [hunread, hremaining]
  rfl

end Refinement

end PositionedReader

end Mallob.Sharing
