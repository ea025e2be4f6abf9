import Mallob.BucketEncoding
import Mallob.SortedMerge

namespace Mallob.Sharing

open Checksum (hashCombine)

def compareLits : List Int → List Int → Int
  | a :: as, b :: bs => if a ≠ b then (if a < b then -1 else 1) else compareLits as bs
  | _, _ => 0

namespace ClauseThreewayComparator

def compare (left right : Clause) : Int :=
  if left.size ≠ right.size then (if left.size < right.size then -1 else 1)
  else if left.lbd ≠ right.lbd then (if left.lbd < right.lbd then -1 else 1)
  else compareLits left.lits right.lits

end ClauseThreewayComparator

def clauseComparator (left right : Clause) : Bool := ClauseThreewayComparator.compare left right = -1

inductive MergeFault where
  | reader (fault : ReadFault)
  | notADuplicate
  | unfinished
deriving DecidableEq

/-- An element of the merger. It holds the reader itself in place of a pointer to its current clause. -/
structure InputClause where
  clause : Clause
  readerId : Nat
  reader : BufferReader
deriving DecidableEq

def inputClauseComparator (left right : InputClause) : Bool :=
  let res := ClauseThreewayComparator.compare left.clause right.clause
  if res ≠ 0 then res > 0
  else if left.readerId ≠ right.readerId then left.readerId < right.readerId
  else false

def insertInput (x : InputClause) : List InputClause → List InputClause
  | [] => [x]
  | y :: ys => if inputClauseComparator x y then y :: insertInput x ys else x :: y :: ys

def setupMerger : Nat → List BufferReader → List InputClause → Except MergeFault (List InputClause)
  | _, [], merger => .ok merger
  | i, r :: readers, merger =>
      match r.getNextIncomingClause with
      | .error e => .error (.reader e)
      | .ok (none, _) => setupMerger (i + 1) readers merger
      | .ok (some c, r') => setupMerger (i + 1) readers (insertInput ⟨c, i, r'⟩ merger)

structure OutputVector where
  ints : List Int
  bucket : BucketLabel
  counterPos : Nat
  hash : Nat
deriving DecidableEq

def OutputVector.start : OutputVector where
  ints := [0, 0, 0]
  bucket := {}
  counterPos := 2
  hash := 1

def OutputVector.updateBucket (p : Nat) (c : Clause) : Nat → OutputVector → Option OutputVector
  | fuel, v =>
      if v.bucket.size < c.size ∨ c.size ≤ p ∧ (v.bucket.lbd : Int) < c.lbd then
        match fuel with
        | 0 => none
        | fuel + 1 =>
            updateBucket p c fuel
              { v with ints := v.ints ++ [0], bucket := v.bucket.next p, counterPos := v.ints.length }
      else some v

/-- A clause is written behind the others. There are fewer buckets before the one of the clause than
the square of its size. -/
def OutputVector.insertClause (p : Nat) (useChecksum : Bool) (v : OutputVector) (c : Clause) : Option OutputVector :=
  (v.updateBucket p c (c.size * c.size)).map fun v' =>
    { v' with
      ints := (v'.ints ++ c.entry p).modify v'.counterPos (· + 1)
      hash := if useChecksum then hashCombine v'.hash (ClauseHasher.hash (c.entry p) 3) else v'.hash }

structure MergeOutput where
  main : List Int
  current : OutputVector
  fillingMainVector : Bool
  hasExcess : Bool
deriving DecidableEq

def MergeOutput.switch (o : MergeOutput) : MergeOutput :=
  { o with
    main := writeChecksum o.current.hash o.current.ints
    current := OutputVector.start
    fillingMainVector := false }

def MergeOutput.exceeds (p sizeLimit : Nat) (o : MergeOutput) (c : Clause) : Bool :=
  o.fillingMainVector && sizeLimit < o.current.ints.length + effectiveSize p c.size

def MergeOutput.finish (o : MergeOutput) : List Int × Option (List Int) :=
  let o := if o.fillingMainVector then o.switch else o
  (o.main, if o.hasExcess then some (removeTrailingZeroes (writeChecksum o.current.hash o.current.ints)) else none)

/-- The reader of the first element goes on; the element is removed or moved to its new place. -/
def refillMerger (x : InputClause) (merger : List InputClause) : Except MergeFault (List InputClause) :=
  match x.reader.getNextIncomingClause with
  | .error e => .error (.reader e)
  | .ok (none, _) => .ok merger
  | .ok (some c, r') => .ok (insertInput ⟨c, x.readerId, r'⟩ merger)

def mergeLoop (p sizeLimit : Nat) (useChecksum : Bool) :
    Nat → Option Clause → List InputClause → MergeOutput → Except MergeFault MergeOutput
  | 0, _, _, _ => .error .unfinished
  | _ + 1, _, [], o => .ok o
  | fuel + 1, lastSeenClause, x :: merger, o =>
      if lastSeenClause.all (clauseComparator · x.clause) then
        if o.exceeds p sizeLimit x.clause ∧ ¬o.hasExcess then .ok o
        else
          let o := if o.exceeds p sizeLimit x.clause then o.switch else o
          match o.current.insertClause p useChecksum x.clause with
          | none => .error .unfinished
          | some v => (refillMerger x merger).bind fun merger =>
              mergeLoop p sizeLimit useChecksum fuel (some x.clause) merger { o with current := v }
      else if lastSeenClause.any (clauseComparator x.clause ·) then .error .notADuplicate
      else (refillMerger x merger).bind fun merger => mergeLoop p sizeLimit useChecksum fuel lastSeenClause merger o

def fastMerge (p : Nat) (useChecksum : Bool) (readers : List BufferReader) (sizeLimit : Nat) (excessClauses : Bool) :
    Except MergeFault (List Int × Option (List Int)) := do
  let merger ← setupMerger 0 readers []
  let fuel := (readers.map fun r => (r.unread.getD []).length + 1).sum + 1
  let o ← mergeLoop p sizeLimit useChecksum fuel none merger ⟨[], OutputVector.start, true, excessClauses⟩
  return o.finish

def Clause.key (c : Clause) : ℕ ×ₗ ℤ ×ₗ List ℤ := toLex (c.size, toLex (c.lbd, c.lits))

theorem Clause.key_injective : Function.Injective Clause.key := by
  rintro ⟨lits, lbd⟩ ⟨lits', lbd'⟩ h
  simp only [Clause.key, EmbeddingLike.apply_eq_iff_eq, Prod.mk.injEq] at h
  obtain ⟨-, rfl, rfl⟩ := h
  rfl

instance : LinearOrder Clause := LinearOrder.lift' Clause.key Clause.key_injective

theorem Clause.lt_iff {c d : Clause} :
    c < d ↔ c.size < d.size ∨ c.size = d.size ∧ (c.lbd < d.lbd ∨ c.lbd = d.lbd ∧ c.lits < d.lits) := by
  change c.key < d.key ↔ _
  simp only [Clause.key, Prod.Lex.toLex_lt_toLex]

theorem compareLits_spec {as bs : List Int} (h : as.length = bs.length) :
    (as < bs → compareLits as bs = -1) ∧ (bs < as → compareLits as bs = 1) ∧ (as = bs → compareLits as bs = 0) := by
  induction as generalizing bs with
  | nil =>
      obtain rfl := List.length_eq_zero_iff.mp h.symm
      simp [compareLits]
  | cons a as ih =>
      obtain ⟨b, bs, rfl⟩ := List.exists_cons_of_length_eq_add_one h.symm
      have ih := ih (by simpa using h)
      rw [compareLits, List.cons_lt_cons_iff, List.cons_lt_cons_iff]
      by_cases hab : a = b
      · subst hab
        simpa using ih
      · rw [if_pos hab]
        refine ⟨?_, ?_, fun heq => absurd (List.cons.inj heq).1 hab⟩
        · rintro (hlt | ⟨heq, -⟩)
          · exact if_pos hlt
          · exact absurd heq hab
        · rintro (hlt | ⟨heq, -⟩)
          · exact if_neg (not_lt.mpr hlt.le)
          · exact absurd heq.symm hab

theorem compare_spec (c d : Clause) :
    (c < d → ClauseThreewayComparator.compare c d = -1) ∧ (d < c → ClauseThreewayComparator.compare c d = 1) ∧
      (c = d → ClauseThreewayComparator.compare c d = 0) := by
  rw [Clause.lt_iff, Clause.lt_iff, ClauseThreewayComparator.compare]
  by_cases hsize : c.size = d.size
  · rw [if_neg (not_not.mpr hsize)]
    by_cases hlbd : c.lbd = d.lbd
    · rw [if_neg (not_not.mpr hlbd)]
      have hlits := compareLits_spec hsize
      simp only [hsize, hlbd, lt_irrefl, true_and, false_or]
      exact ⟨hlits.1, hlits.2.1, fun h => hlits.2.2 (congrArg Clause.lits h)⟩
    · rw [if_pos hlbd]
      simp only [hsize, lt_irrefl, true_and, false_or, hlbd, false_and, or_false, Ne.symm hlbd]
      exact ⟨fun h => if_pos h, fun h => if_neg (not_lt.mpr h.le), fun h => absurd (congrArg Clause.lbd h) hlbd⟩
  · rw [if_pos hsize]
    simp only [hsize, false_and, or_false, Ne.symm hsize]
    exact ⟨fun h => if_pos h, fun h => if_neg (not_lt.mpr h.le), fun h => absurd (congrArg Clause.size h) hsize⟩

theorem clauseComparator_eq (c d : Clause) : clauseComparator c d = decide (c < d) := by
  obtain ⟨hlt, hgt, heq⟩ := compare_spec c d
  rcases lt_trichotomy c d with h | h | h
  · simp [clauseComparator, hlt h, h]
  · simp [clauseComparator, heq h, h.not_lt]
  · simp [clauseComparator, hgt h, h.not_gt]

/-- The comparator of the merger puts an element behind another one exactly where the merge of sorted
sequences does. -/
theorem inputClauseComparator_eq (x y : InputClause) (cs ds : List Clause) :
    inputClauseComparator x y =
      SortedMerge.Input.behind ⟨x.clause, x.readerId, cs⟩ ⟨y.clause, y.readerId, ds⟩ := by
  obtain ⟨hlt, hgt, heq⟩ := compare_spec x.clause y.clause
  rcases lt_trichotomy x.clause y.clause with h | h | h
  · simp [inputClauseComparator, SortedMerge.Input.behind, hlt h, h.ne, h.not_gt]
  · rw [inputClauseComparator, heq h]
    simp only [SortedMerge.Input.behind, h, lt_irrefl]
    by_cases hid : x.readerId = y.readerId
    · simp [hid]
    · simp [hid]
  · simp [inputClauseComparator, SortedMerge.Input.behind, hgt h, h]

end Mallob.Sharing
