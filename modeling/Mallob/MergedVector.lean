import Mallob.BufferMerger

namespace Mallob.Sharing

variable {p i j : Nat} {chk : Bool} {v : OutputVector} {e : List Int} {es : List (List Int)}
  {bs done : List (List (List Int))} {c : Clause} {cs : List Clause}

theorem encodeBuckets_append (bs bs' : List (List (List Int))) :
    encodeBuckets (bs ++ bs') = encodeBuckets bs ++ encodeBuckets bs' := by
  induction bs with
  | nil => rfl
  | cons es bs ih => simp [encodeBuckets, ih]

theorem decodeBuckets_append (p i : Nat) (bs bs' : List (List (List Int))) :
    decodeBuckets p i (bs ++ bs') = decodeBuckets p i bs ++ decodeBuckets p (i + bs.length) bs' := by
  induction bs generalizing i with
  | nil => simp [decodeBuckets]
  | cons es bs ih =>
      simp only [List.cons_append, decodeBuckets, ih, List.append_assoc, List.length_cons]
      congr 3
      omega

theorem placed_append : Placed p i (bs ++ done) ↔ Placed p i bs ∧ Placed p (i + bs.length) done := by
  induction bs generalizing i with
  | nil => simp [Placed]
  | cons es bs ih =>
      simp only [List.cons_append, Placed, ih, List.length_cons, and_assoc]
      rw [show i + 1 + bs.length = i + (bs.length + 1) by omega]

structure Clause.InBucket (p i : Nat) (c : Clause) : Prop where
  size_eq : c.size = (bucketAt p i).size
  lbd_eq : c.size ≤ p → c.lbd = (bucketAt p i).lbd

structure Clause.Encodable (p : Nat) (c : Clause) : Prop where
  inBucket : ∃ i, c.InBucket p i
  lits_ne : ∀ x ∈ c.lits, x ≠ 0
  lbd_ne : c.lbd ≠ 0

theorem Clause.InBucket.entryOf (h : c.InBucket p i) (hc : c.Encodable p) : EntryOf p i (c.entry p) := by
  rw [EntryOf, Clause.entry, effectiveSize, ← h.size_eq]
  split
  · exact ⟨rfl, hc.lits_ne⟩
  · refine ⟨rfl, fun x hx => ?_⟩
    rcases List.mem_cons.mp hx with rfl | hx
    · exact hc.lbd_ne
    · exact hc.lits_ne x hx

theorem Clause.InBucket.decodeEntry (h : c.InBucket p i) : decodeEntry p i (c.entry p) = c := by
  rw [Sharing.decodeEntry, Clause.entry, ← h.size_eq]
  split
  · next hp =>
      rw [← h.lbd_eq hp]
  · rfl

structure OutputVector.Holds (p : Nat) (chk : Bool) (v : OutputVector) (done : List (List (List Int)))
    (es : List (List Int)) : Prop where
  ints_eq : v.ints = [0, 0] ++ encodeBuckets (done ++ [es])
  bucket_eq : v.bucket = bucketAt p done.length
  counter_eq : v.counterPos = 2 + (encodeBuckets done).length
  hash_eq : v.hash = if chk then combineEntries 1 (done ++ [es]).flatten else 1
  placed : Placed p 0 (done ++ [es])

theorem OutputVector.holds_start : OutputVector.start.Holds p chk [] [] :=
  ⟨rfl, rfl, rfl, by simp [start], by simp [Placed]⟩

theorem OutputVector.Holds.nextBucket (h : v.Holds p chk done es) :
    OutputVector.Holds p chk { v with ints := v.ints ++ [0], bucket := v.bucket.next p, counterPos := v.ints.length }
      (done ++ [es]) [] := by
  refine ⟨?_, ?_, ?_, ?_, ?_⟩
  · simp [h.ints_eq, encodeBuckets_append, encodeBuckets]
  · simp [h.bucket_eq, bucketAt]
  · simp only [h.ints_eq, List.length_append, List.length_cons, List.length_nil]
  · simp [h.hash_eq]
  · rw [placed_append]
    exact ⟨h.placed, by simp [Placed]⟩

/-- The bucket of a clause is further on exactly where the labels say so. -/
theorem Clause.InBucket.further_iff (h : c.InBucket p j) (hij : i ≤ j) :
    ((bucketAt p i).size < c.size ∨ c.size ≤ p ∧ ((bucketAt p i).lbd : Int) < c.lbd) ↔ i < j := by
  constructor
  · intro hfurther
    rcases Nat.eq_or_lt_of_le hij with rfl | hlt
    · rcases hfurther with hsize | ⟨hp, hlbd⟩
      · exact absurd h.size_eq (by omega)
      · have := h.lbd_eq hp
        omega
    · exact hlt
  · intro hlt
    rcases bucketAt_before (p := p) hlt with hsize | ⟨hsize, hp, hlbd⟩
    · exact Or.inl (by rw [h.size_eq]; exact hsize)
    · have hcp : c.size ≤ p := by rw [h.size_eq]; exact hp
      exact Or.inr ⟨hcp, by rw [h.lbd_eq hcp]; exact_mod_cast hlbd⟩

theorem OutputVector.Holds.updateBucket (h : v.Holds p chk done es) (hc : c.InBucket p j) (hj : done.length ≤ j)
    {fuel : Nat} (hfuel : j - done.length ≤ fuel) :
    ∃ v' done' es', v.updateBucket p c fuel = some v' ∧ v'.Holds p chk done' es' ∧ done'.length = j ∧
      decodeBuckets p 0 (done' ++ [es']) = decodeBuckets p 0 (done ++ [es]) ∧ v.ints.length ≤ v'.ints.length := by
  induction fuel generalizing v done es with
  | zero =>
      have hlast : ¬done.length < j := by omega
      rw [OutputVector.updateBucket, h.bucket_eq, if_neg (fun hf => hlast ((hc.further_iff hj).mp hf))]
      exact ⟨v, done, es, rfl, h, by omega, rfl, le_rfl⟩
  | succ fuel ih =>
      rw [OutputVector.updateBucket, h.bucket_eq]
      by_cases hlt : done.length < j
      · rw [if_pos ((hc.further_iff hj).mpr hlt), ← h.bucket_eq]
        obtain ⟨v', done', es', hv', hholds, hlen, hdec, hgrow⟩ :=
          ih h.nextBucket (by simp; omega) (by simp; omega)
        refine ⟨v', done', es', hv', hholds, hlen, ?_, ?_⟩
        · rw [hdec, decodeBuckets_append]
          simp [decodeBuckets]
        · refine le_trans ?_ hgrow
          simp
      · rw [if_neg (fun hf => hlt ((hc.further_iff hj).mp hf))]
        exact ⟨v, done, es, rfl, h, by omega, rfl, le_rfl⟩

theorem modify_append_cons {α : Type} (l₁ l₂ : List α) (a : α) (f : α → α) :
    (l₁ ++ a :: l₂).modify l₁.length f = l₁ ++ f a :: l₂ := by
  induction l₁ with
  | nil => rfl
  | cons b l₁ ih => simp [ih]

theorem OutputVector.Holds.addEntry (h : v.Holds p chk done es) (he : EntryOf p done.length e) :
    OutputVector.Holds p chk { v with
        ints := (v.ints ++ e).modify v.counterPos (· + 1)
        hash := if chk then Checksum.hashCombine v.hash (ClauseHasher.hash e 3) else v.hash } done (es ++ [e]) := by
  refine ⟨?_, h.bucket_eq, h.counter_eq, ?_, ?_⟩
  · have hsplit : v.ints ++ e =
        ([0, 0] ++ encodeBuckets done) ++ (es.length : Int) :: (es.flatten ++ e) := by
      simp [h.ints_eq, encodeBuckets_append, encodeBuckets]
    have hpos : v.counterPos = ([0, 0] ++ encodeBuckets done).length := by
      rw [h.counter_eq, List.length_append]
      rfl
    simp only [hsplit, hpos, modify_append_cons]
    simp [encodeBuckets_append, encodeBuckets]
  · cases chk with
    | false => exact h.hash_eq
    | true =>
        have hhash := h.hash_eq
        simp only [if_true] at hhash ⊢
        simp [hhash, ← List.append_assoc, combineEntries_append]
  · have hplaced := h.placed
    simp only [placed_append, Placed, Nat.zero_add, and_true] at hplaced ⊢
    refine ⟨hplaced.1, fun e' he' => ?_⟩
    rcases List.mem_append.mp he' with he' | he'
    · exact hplaced.2 e' he'
    · rw [List.mem_singleton.mp he']
      exact he

theorem lt_size_mul_size (p i : Nat) : i < (bucketAt p i).size * (bucketAt p i).size := by
  have hpotential : i + 1 ≤ ((bucketAt p i).size - 1) * (bucketAt p i).size + (bucketAt p i).lbd := by
    induction i with
    | zero => simp [bucketAt]
    | succ i ih =>
        obtain ⟨s, hs⟩ := Nat.exists_eq_add_of_le' (bucketAt_size_pos p i)
        have hproper := bucketAt_proper p i
        rw [BucketLabel.Proper] at hproper
        rw [bucketAt, BucketLabel.next]
        split
        · simp only [hs, Nat.add_sub_cancel] at ih hproper ⊢
          have hlbd : (bucketAt p i).lbd ≤ s + 1 := by omega
          nlinarith
        · simp only
          omega
  have hproper := bucketAt_proper p i
  obtain ⟨s, hs⟩ := Nat.exists_eq_add_of_le' (bucketAt_size_pos p i)
  rw [BucketLabel.Proper] at hproper
  rw [hs] at hpotential hproper ⊢
  simp only [Nat.add_sub_cancel] at hpotential
  have hlbd : (bucketAt p i).lbd ≤ s + 1 := by omega
  nlinarith

/-- A clause of the current or of a later bucket is written behind the others. -/
theorem OutputVector.Holds.insertClause (h : v.Holds p chk done es) (hc : c.InBucket p j) (henc : c.Encodable p)
    (hj : done.length ≤ j) :
    ∃ v' done' es', v.insertClause p chk c = some v' ∧ v'.Holds p chk done' es' ∧ done'.length = j ∧ es' ≠ [] ∧
      decodeBuckets p 0 (done' ++ [es']) = decodeBuckets p 0 (done ++ [es]) ++ [c] ∧
      v.ints.length + effectiveSize p c.size ≤ v'.ints.length := by
  have hfuel : j - done.length ≤ c.size * c.size := by
    have := lt_size_mul_size p j
    rw [hc.size_eq]
    omega
  obtain ⟨v₁, done', es', hv₁, hholds, hlen, hdec, hgrow⟩ := h.updateBucket hc hj hfuel
  have he : EntryOf p done'.length (c.entry p) := by
    rw [hlen]
    exact hc.entryOf henc
  refine ⟨_, done', es' ++ [c.entry p], ?_, hholds.addEntry he, hlen, by simp, ?_, ?_⟩
  · rw [OutputVector.insertClause, hv₁]
    rfl
  · rw [← hdec]
    simp only [decodeBuckets_append, decodeBuckets, List.map_append, List.map_cons, List.map_nil, List.append_nil,
      List.append_assoc, Nat.zero_add, hlen, hc.decodeEntry]
  · have hsize : (c.entry p).length = effectiveSize p c.size := by
      rw [he.1, hlen, ← hc.size_eq]
    simp only [List.length_modify, List.length_append, hsize]
    omega

end Mallob.Sharing
