import Mallob.ClauseBuffer

namespace Mallob.Sharing

open Checksum (hashCombine)

/-- The body of a buffer: for each bucket the number of its clauses, followed by their integers. -/
def encodeBuckets : List (List (List Int)) → List Int
  | [] => []
  | es :: bs => (es.length : Int) :: (es.flatten ++ encodeBuckets bs)

def decodeEntry (p i : Nat) (e : List Int) : Clause :=
  if (bucketAt p i).size ≤ p then ⟨e, (bucketAt p i).lbd⟩ else ⟨e.tail, e.headD 0⟩

def decodeBuckets (p : Nat) : Nat → List (List (List Int)) → List Clause
  | _, [] => []
  | i, es :: bs => es.map (decodeEntry p i) ++ decodeBuckets p (i + 1) bs

def EntryOf (p i : Nat) (e : List Int) : Prop :=
  e.length = effectiveSize p (bucketAt p i).size ∧ ∀ x ∈ e, x ≠ 0

def Placed (p : Nat) : Nat → List (List (List Int)) → Prop
  | _, [] => True
  | i, es :: bs => (∀ e ∈ es, EntryOf p i e) ∧ Placed p (i + 1) bs

variable {p i : Nat} {r r' : BufferReader} {e : List Int} {es : List (List Int)} {bs : List (List (List Int))}
  {c : Clause} {cs : List Clause}

theorem toSize_natCast (n : Nat) : toSize n = n := by
  rw [toSize, if_neg (by omega)]
  rfl

theorem EntryOf.length_pos (h : EntryOf p i e) : 1 ≤ e.length := by
  rw [h.1]
  exact effectiveSize_pos (bucketAt_size_pos p i)

theorem EntryOf.head?_ne (h : EntryOf p i e) (rest : List Int) : (e ++ rest).head? ≠ some 0 := by
  cases e with
  | nil => exact absurd h.length_pos (by simp)
  | cons x e =>
      simp only [List.cons_append, List.head?_cons, ne_eq, Option.some.injEq]
      exact h.2 x (List.mem_cons_self ..)

structure BufferReader.InBucket (r : BufferReader) (p i : Nat) : Prop where
  partitioned : r.maxLbdPartitionedSize = p
  bucket_eq : r.bucket = bucketAt p i
  effective_eq : r.effectiveClauseSize = effectiveSize p (bucketAt p i).size

def BufferReader.past (r : BufferReader) (es : List (List Int)) (unread : List Int) : BufferReader :=
  { r with
    unread := some unread
    remainingClsOfBucket := r.remainingClsOfBucket - es.length
    hash := if r.useChecksum then combineEntries r.hash es else r.hash }

theorem BufferReader.InBucket.past (h : r.InBucket p i) (es : List (List Int)) (unread : List Int) :
    (r.past es unread).InBucket p i := ⟨h.partitioned, h.bucket_eq, h.effective_eq⟩

theorem BufferReader.past_cons (r : BufferReader) (e : List Int) (es : List (List Int)) (u v : List Int) :
    (r.past [e] u).past es v = r.past (e :: es) v := by
  cases hchk : r.useChecksum <;>
    simp only [BufferReader.past, hchk, List.length_cons, List.length_nil, combineEntries_cons, combineEntries_nil,
      Nat.sub_sub, Nat.add_comm, if_true, Bool.false_eq_true, if_false]

theorem BufferReader.InBucket.readClause (h : r.InBucket p i) (he : EntryOf p i e) (rest : List Int) :
    r.readClause (e ++ rest) = .ok (some (decodeEntry p i e), r.past [e] rest) := by
  have hlen : r.effectiveClauseSize = e.length := h.effective_eq.trans he.1.symm
  have hclause : (if r.bucket.size < r.effectiveClauseSize then (⟨e.tail, e.headD 0⟩ : Clause)
      else ⟨e, r.bucket.lbd⟩) = decodeEntry p i e := by
    rw [h.bucket_eq, h.effective_eq, decodeEntry, effectiveSize]
    by_cases hp : (bucketAt p i).size ≤ p
    · simp [hp]
    · simp [hp]
  rw [BufferReader.readClause, if_neg (by simp [hlen]), if_neg (he.head?_ne rest)]
  simp only [hlen, List.take_left, List.drop_left] at hclause ⊢
  rw [hclause]
  simp [BufferReader.past, hlen]

theorem BufferReader.InBucket.getNextIncomingClause (h : r.InBucket p i) (he : EntryOf p i e) (rest : List Int)
    (hunread : r.unread = some (e ++ rest)) (hremaining : r.remainingClsOfBucket ≠ 0) :
    r.getNextIncomingClause = .ok (some (decodeEntry p i e), r.past [e] rest) := by
  rw [BufferReader.getNextIncomingClause, hunread]
  simp only [if_neg hremaining]
  exact h.readClause he rest

theorem reads_entries (h : r.InBucket p i) (hes : ∀ e ∈ es, EntryOf p i e) (rest : List Int)
    (hunread : r.unread = some (es.flatten ++ rest)) (hremaining : r.remainingClsOfBucket = es.length)
    (hrest : (r.past es rest).Reads cs) : r.Reads (es.map (decodeEntry p i) ++ cs) := by
  induction es generalizing r with
  | nil =>
      have hsame : r.past [] rest = r := by
        simp only [BufferReader.past, List.flatten_nil, List.nil_append, combineEntries_nil, ite_self] at hunread ⊢
        rw [← hunread, hremaining]
        cases r
        simp_all
      rw [hsame] at hrest
      exact hrest
  | cons e es ih =>
      have hnext := h.getNextIncomingClause (hes e (List.mem_cons_self ..)) (es.flatten ++ rest)
        (by rw [hunread, List.flatten_cons, List.append_assoc]) (by simp [hremaining])
      refine .more hnext (ih (h.past _ _) (fun e' he' => hes e' (List.mem_cons_of_mem _ he')) rfl ?_ ?_)
      · simp [BufferReader.past, hremaining]
      · rw [BufferReader.past_cons]
        exact hrest

def BufferReader.enter (r : BufferReader) (remaining : Nat) (unread : List Int) : BufferReader :=
  { r with
    unread := some unread
    bucket := r.bucket.next r.maxLbdPartitionedSize
    remainingClsOfBucket := remaining
    effectiveClauseSize :=
      effectiveSize r.maxLbdPartitionedSize (r.bucket.next r.maxLbdPartitionedSize).size }

theorem BufferReader.InBucket.enter (h : r.InBucket p i) (remaining : Nat) (unread : List Int) :
    (r.enter remaining unread).InBucket p (i + 1) := by
  refine ⟨h.partitioned, ?_, ?_⟩
  · simp [BufferReader.enter, h.partitioned, h.bucket_eq, bucketAt]
  · simp [BufferReader.enter, h.partitioned, h.bucket_eq, bucketAt]

theorem BufferReader.endReading_ne_some {a : Clause × BufferReader} :
    r.endReading ≠ .ok (some a.1, a.2) := by
  rw [BufferReader.endReading]
  split <;> simp

theorem BufferReader.endReading_enter {r' : BufferReader} {remaining : Nat} {rest : List Int}
    (h : (r.enter remaining rest).endReading = .ok (none, r')) : ∃ r₁, r.endReading = .ok (none, r₁) := by
  rw [BufferReader.endReading] at h
  split at h
  · cases h
  · next hok => exact ⟨_, if_neg hok⟩

theorem BufferReader.Reads.congr (h : r'.Reads cs) (hsame : r.getNextIncomingClause = r'.getNextIncomingClause) :
    r.Reads cs := by
  cases h with
  | done hd => exact .done (hsame.trans hd)
  | more hm hrest => exact .more (hsame.trans hm) hrest

/-- A reader at the end of a bucket goes on with what stands behind the next counter. -/
theorem reads_enter {counter : Int} {rest : List Int} (hunread : r.unread = some (counter :: rest))
    (hremaining : r.remainingClsOfBucket = 0) (h : (r.enter (toSize counter) rest).Reads cs) : r.Reads cs := by
  have hnext : r.getNextIncomingClause =
      r.continueIn (BufferReader.nextBucket r.maxLbdPartitionedSize r.bucket (counter :: rest)) := by
    rw [BufferReader.getNextIncomingClause, hunread]
    simp only [hremaining, if_true]
  by_cases hzero : toSize counter = 0
  · have henter : (r.enter (toSize counter) rest).getNextIncomingClause =
        (r.enter (toSize counter) rest).continueIn
          (BufferReader.nextBucket r.maxLbdPartitionedSize r.bucket (counter :: rest)) := by
      rw [BufferReader.getNextIncomingClause, BufferReader.nextBucket, if_pos hzero]
      simp only [BufferReader.enter, hzero, if_true]
    cases hbucket : BufferReader.nextBucket r.maxLbdPartitionedSize r.bucket (counter :: rest) with
    | none =>
        rw [hbucket] at hnext henter
        cases h with
        | done hd =>
            obtain ⟨r₁, hr₁⟩ := BufferReader.endReading_enter (henter.symm.trans hd)
            exact .done (hnext.trans hr₁)
        | more hm _ => exact absurd (henter.symm.trans hm) (BufferReader.endReading_ne_some (a := (_, _)))
    | some next =>
        rw [hbucket] at hnext henter
        exact h.congr (hnext.trans henter.symm)
  · refine h.congr ?_
    have henter : (r.enter (toSize counter) rest).getNextIncomingClause =
        (r.enter (toSize counter) rest).readClause rest := if_neg hzero
    rw [hnext, BufferReader.nextBucket, if_neg hzero, henter]
    rfl

theorem BufferReader.reads_end (hunread : r.unread = some []) (hremaining : r.remainingClsOfBucket = 0)
    (hhash : r.useChecksum = true → r.hash = r.trueHash) : r.Reads [] := by
  refine BufferReader.Reads.done (?_ : r.getNextIncomingClause = .ok (none, { r with unread := none }))
  rw [BufferReader.getNextIncomingClause, hunread]
  simp only [hremaining, if_true, BufferReader.nextBucket, BufferReader.continueIn]
  rw [BufferReader.endReading, if_neg (fun h => h.2 (hhash h.1)), hremaining]

/-- Reading an encoded body yields the clauses of its buckets, provided that the checksum is right. -/
theorem reads_buckets (h : r.InBucket p i) (hbs : Placed p (i + 1) bs) (hunread : r.unread = some (encodeBuckets bs))
    (hremaining : r.remainingClsOfBucket = 0)
    (hhash : r.useChecksum = true → combineEntries r.hash bs.flatten = r.trueHash) :
    r.Reads (decodeBuckets p (i + 1) bs) := by
  induction bs generalizing r i with
  | nil => exact r.reads_end hunread hremaining hhash
  | cons es bs ih =>
      refine reads_enter hunread hremaining ?_
      rw [toSize_natCast]
      refine reads_entries (h.enter _ _) hbs.1 _ rfl rfl ?_
      refine ih ((h.enter _ _).past _ _) hbs.2 rfl (Nat.sub_self _) ?_
      intro hchk
      have hchk : r.useChecksum = true := hchk
      simp only [BufferReader.past, BufferReader.enter, hchk, if_true]
      rw [← hhash hchk, List.flatten_cons, combineEntries_append]

/-- Reading a whole buffer whose buckets are in place, with a right checksum in front. -/
theorem reads_encoded {bs : List (List (List Int))} (hp : 1 ≤ p) (hbs : Placed p 0 bs) {chk : Bool}
    (header : List Int) (hheader : header.length = 2) (hr : BufferReader.new (header ++ encodeBuckets bs) p chk = .ok r)
    (hhash : chk = true → readChecksum (header ++ encodeBuckets bs) = combineEntries 1 bs.flatten) :
    r.Reads (decodeBuckets p 0 bs) := by
  have hlong : ¬(header ++ encodeBuckets bs).length < 2 := by
    rw [List.length_append]
    omega
  rw [BufferReader.new, if_neg (fun h => hlong h.2.2)] at hr
  obtain rfl := Except.ok.inj hr
  have hin : ∀ u k, BufferReader.InBucket ⟨u, p, {}, k, 1, chk, 1,
      if chk = true then readChecksum (header ++ encodeBuckets bs) else 1⟩ p 0 := by
    intro u k
    exact ⟨rfl, rfl, by simp [bucketAt, effectiveSize, hp]⟩
  obtain ⟨low, high, rfl⟩ := List.length_eq_two.mp hheader
  cases bs with
  | nil =>
      refine BufferReader.reads_end rfl rfl ?_
      intro hchk
      have hchk : chk = true := hchk
      simp only [hchk, if_true]
      exact (hhash hchk).symm
  | cons es bs =>
      refine reads_entries (hin _ _) hbs.1 (encodeBuckets bs) (by simp [encodeBuckets]) ?_ ?_
      · simp [encodeBuckets, toSize_natCast]
      · refine reads_buckets ((hin _ _).past _ _) hbs.2 rfl ?_ ?_
        · simp [BufferReader.past, encodeBuckets, toSize_natCast]
        · intro hchk
          have hchk : chk = true := hchk
          simp only [BufferReader.past, hchk, if_true]
          rw [← combineEntries_append, ← List.flatten_cons, hhash hchk]

theorem BufferReader.Reads.readClauses (h : r.Reads cs) {fuel : Nat} (hfuel : cs.length < fuel) :
    BufferReader.readClauses fuel r = .ok cs := by
  induction h generalizing fuel with
  | done hd =>
      obtain ⟨fuel, rfl⟩ := Nat.exists_eq_add_of_lt hfuel
      rw [BufferReader.readClauses, hd]
  | more hm _ ih =>
      obtain ⟨fuel, rfl⟩ := Nat.exists_eq_add_of_lt hfuel
      rw [BufferReader.readClauses, hm]
      simp only
      rw [ih (by simp only [List.length_cons]; omega)]
      rfl

theorem BufferReader.reads_of_readClauses {fuel : Nat} (h : BufferReader.readClauses fuel r = .ok cs) :
    r.Reads cs := by
  induction fuel generalizing r cs with
  | zero => cases h
  | succ fuel ih =>
      rw [BufferReader.readClauses] at h
      split at h
      · cases h
      · next hd =>
          obtain rfl := Except.ok.inj h
          exact .done hd
      · next c r' hm =>
          cases hrest : BufferReader.readClauses fuel r' with
          | error e => rw [hrest] at h; cases h
          | ok ds =>
              rw [hrest] at h
              obtain rfl := Except.ok.inj h
              exact .more hm (ih hrest)

theorem length_decodeBuckets_le (h : Placed p i bs) : (decodeBuckets p i bs).length ≤ (encodeBuckets bs).length := by
  induction bs generalizing i with
  | nil => exact le_rfl
  | cons es bs ih =>
      have hes : es.length ≤ es.flatten.length := by
        rw [List.length_flatten]
        calc es.length = (es.map fun _ => 1).sum := by simp
          _ ≤ (es.map List.length).sum := List.sum_le_sum fun e he => (h.1 e he).length_pos
      have hbs := ih h.2
      simp only [decodeBuckets, encodeBuckets, List.length_append, List.length_map, List.length_cons]
      omega

theorem decode_encoded {bs : List (List (List Int))} (hp : 1 ≤ p) (hbs : Placed p 0 bs) {chk : Bool}
    (header : List Int) (hheader : header.length = 2)
    (hhash : chk = true → readChecksum (header ++ encodeBuckets bs) = combineEntries 1 bs.flatten) :
    decode p chk (header ++ encodeBuckets bs) = .ok (decodeBuckets p 0 bs) := by
  rw [decode]
  cases hr : BufferReader.new (header ++ encodeBuckets bs) p chk with
  | error e =>
      have hlong : ¬(header ++ encodeBuckets bs).length < 2 := by
        rw [List.length_append]
        omega
      rw [BufferReader.new, if_neg (fun h => hlong h.2.2)] at hr
      cases hr
  | ok r =>
      refine (reads_encoded hp hbs header hheader hr hhash).readClauses ?_
      have := length_decodeBuckets_le hbs
      rw [List.length_append]
      omega

end Mallob.Sharing
