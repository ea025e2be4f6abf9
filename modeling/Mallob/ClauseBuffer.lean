import Mallob.BucketLabel
import Mallob.Checksum

namespace Mallob.Sharing

open Checksum (hashCombine)

structure Clause where
  lits : List Int
  lbd : Int
deriving DecidableEq

def Clause.size (c : Clause) : Nat := c.lits.length

def effectiveSize (maxLbdPartitionedSize clauseSize : Nat) : Nat :=
  clauseSize + if clauseSize ≤ maxLbdPartitionedSize then 0 else 1

/-- The integers that stand for a clause in a buffer, with the LBD value in front where the bucket
does not determine it. -/
def Clause.entry (maxLbdPartitionedSize : Nat) (c : Clause) : List Int :=
  if c.size ≤ maxLbdPartitionedSize then c.lits else c.lbd :: c.lits

namespace ClauseHasher

def primes : List Nat :=
  [2038072819, 2038073287, 2038073761, 2038074317, 2038072823, 2038073321, 2038073767, 2038074319,
   2038072847, 2038073341, 2038073789, 2038074329, 2038074751, 2038075231, 2038075751, 2038076267]

def hash (ints : List Int) (which : Nat) : Nat :=
  ints.foldl (fun res lit =>
    res ^^^ (lit % 2 ^ 32).toNat * primes.getD (((lit % 16).toNat ^^^ which) % 16) 0 % 2 ^ 32) 0

end ClauseHasher

def combineEntries (hash : Nat) (entries : List (List Int)) : Nat :=
  entries.foldl (fun h e => hashCombine h (ClauseHasher.hash e 3)) hash

def checksumInts (hash : Nat) : List Int := [Int.bmod hash (2 ^ 32), Int.bmod (hash / 2 ^ 32 : Nat) (2 ^ 32)]

/-- The checksum is copied over the first two integers. -/
def writeChecksum (hash : Nat) (buffer : List Int) : List Int :=
  (checksumInts hash).take buffer.length ++ buffer.drop 2

def readChecksum : List Int → Nat
  | low :: high :: _ => (low % 2 ^ 32).toNat + 2 ^ 32 * (high % 2 ^ 32).toNat
  | _ => 1

/-- The zeroes at the end are cut off, the first integer excepted. -/
def removeTrailingZeroes (buffer : List Int) : List Int :=
  buffer.take 1 ++ (buffer.drop 1).rdropWhile (· == 0)

inductive ReadFault where
  | headerTooShort
  | zeroInBuffer
  | checksumFail
  | unfinished
deriving DecidableEq

/-- The part of the buffer behind the current position is kept in place of the position; the buffer
is null once the reading has ended. -/
structure BufferReader where
  unread : Option (List Int)
  maxLbdPartitionedSize : Nat
  bucket : BucketLabel
  remainingClsOfBucket : Nat
  effectiveClauseSize : Nat
  useChecksum : Bool
  hash : Nat
  trueHash : Nat
deriving DecidableEq

/-- An integer of the buffer as an unsigned number of 64 bits. -/
def toSize (x : Int) : Nat := if x < 0 then (x + 2 ^ 64).toNat else x.toNat

namespace BufferReader

def new (buffer : List Int) (maxLbdPartitionedSize : Nat) (useChecksum : Bool) : Except ReadFault BufferReader :=
  if useChecksum ∧ 0 < buffer.length ∧ buffer.length < 2 then .error .headerTooShort
  else .ok {
    unread := some (buffer.drop 3)
    maxLbdPartitionedSize := maxLbdPartitionedSize
    bucket := {}
    remainingClsOfBucket := if buffer.length ≤ 2 then 0 else toSize (buffer.getD 2 0)
    effectiveClauseSize := 1
    useChecksum := useChecksum
    hash := 1
    trueHash := if useChecksum then readChecksum buffer else 1 }

def endReading (r : BufferReader) : Except ReadFault (Option Clause × BufferReader) :=
  if r.useChecksum ∧ r.hash ≠ r.trueHash then .error .checksumFail
  else .ok (none, { r with unread := none })

def nextBucket (maxLbdPartitionedSize : Nat) (bucket : BucketLabel) :
    List Int → Option (BucketLabel × Nat × List Int)
  | [] => none
  | counter :: unread =>
      if toSize counter = 0 then nextBucket maxLbdPartitionedSize (bucket.next maxLbdPartitionedSize) unread
      else some (bucket.next maxLbdPartitionedSize, toSize counter, unread)

def readClause (r : BufferReader) (unread : List Int) : Except ReadFault (Option Clause × BufferReader) :=
  if unread.length < r.effectiveClauseSize then r.endReading
  else if unread.head? = some 0 then .error .zeroInBuffer
  else
    let ints := unread.take r.effectiveClauseSize
    let clause : Clause :=
      if r.bucket.size < r.effectiveClauseSize then ⟨ints.tail, ints.headD 0⟩ else ⟨ints, r.bucket.lbd⟩
    .ok (some clause, { r with
      unread := some (unread.drop r.effectiveClauseSize)
      remainingClsOfBucket := r.remainingClsOfBucket - 1
      hash := if r.useChecksum then hashCombine r.hash (ClauseHasher.hash ints 3) else r.hash })

def continueIn (r : BufferReader) : Option (BucketLabel × Nat × List Int) →
    Except ReadFault (Option Clause × BufferReader)
  | none => r.endReading
  | some (bucket, remaining, unread) =>
      readClause { r with
        bucket := bucket
        remainingClsOfBucket := remaining
        effectiveClauseSize := effectiveSize r.maxLbdPartitionedSize bucket.size } unread

def getNextIncomingClause (r : BufferReader) : Except ReadFault (Option Clause × BufferReader) :=
  match r.unread with
  | none => .ok (none, r)
  | some unread =>
      if r.remainingClsOfBucket = 0 then r.continueIn (nextBucket r.maxLbdPartitionedSize r.bucket unread)
      else r.readClause unread

def readClauses : Nat → BufferReader → Except ReadFault (List Clause)
  | 0, _ => .error .unfinished
  | fuel + 1, r =>
      match r.getNextIncomingClause with
      | .error e => .error e
      | .ok (none, _) => .ok []
      | .ok (some c, r') => (readClauses fuel r').map (c :: ·)

inductive Reads : BufferReader → List Clause → Prop
  | done {r r' : BufferReader} : r.getNextIncomingClause = .ok (none, r') → Reads r []
  | more {r r' : BufferReader} {c : Clause} {cs : List Clause} :
      r.getNextIncomingClause = .ok (some c, r') → Reads r' cs → Reads r (c :: cs)

end BufferReader

/-- The clauses that reading a whole buffer yields. A clause takes at least one integer. -/
def decode (maxLbdPartitionedSize : Nat) (useChecksum : Bool) (buffer : List Int) :
    Except ReadFault (List Clause) :=
  (BufferReader.new buffer maxLbdPartitionedSize useChecksum).bind (BufferReader.readClauses (buffer.length + 1))

variable {p : Nat}

theorem effectiveSize_pos {s : Nat} (hs : 1 ≤ s) : 1 ≤ effectiveSize p s := by
  rw [effectiveSize]
  omega

@[simp] theorem combineEntries_nil (hash : Nat) : combineEntries hash [] = hash := rfl

@[simp] theorem combineEntries_cons (hash : Nat) (e : List Int) (es : List (List Int)) :
    combineEntries hash (e :: es) = combineEntries (hashCombine hash (ClauseHasher.hash e 3)) es := rfl

theorem combineEntries_append (hash : Nat) (es fs : List (List Int)) :
    combineEntries hash (es ++ fs) = combineEntries (combineEntries hash es) fs := List.foldl_append

theorem hashCombine_lt {s : Nat} (hs : s < 2 ^ 64) (v : Int) : hashCombine s v < 2 ^ 64 :=
  Nat.xor_lt_two_pow hs (Nat.mod_lt _ (by decide))

theorem combineEntries_lt {hash : Nat} (h : hash < 2 ^ 64) (es : List (List Int)) :
    combineEntries hash es < 2 ^ 64 := by
  induction es generalizing hash with
  | nil => exact h
  | cons e es ih => exact ih (hashCombine_lt h _)

theorem length_writeChecksum (hash : Nat) (buffer : List Int) : (writeChecksum hash buffer).length = buffer.length := by
  rw [writeChecksum, List.length_append, List.length_take, List.length_drop]
  simp only [checksumInts, List.length_cons, List.length_nil]
  omega

theorem readChecksum_checksumInts {hash : Nat} (h : hash < 2 ^ 64) (rest : List Int) :
    readChecksum (checksumInts hash ++ rest) = hash := by
  have hbytes (x : Int) : x.bmod (2 ^ 32) % 2 ^ 32 = x % 2 ^ 32 := by
    have := @Int.bmod_emod x (2 ^ 32)
    exact_mod_cast this
  simp only [checksumInts, List.cons_append, List.nil_append, readChecksum, hbytes]
  omega

end Mallob.Sharing
