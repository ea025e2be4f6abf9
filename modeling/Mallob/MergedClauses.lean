import Mallob.MergedVector

namespace Mallob.Sharing

open SortedMerge (Input Left Ordered total merge refill place)

variable {p i j : Nat} {chk : Bool} {r r' : BufferReader} {c d : Clause} {cs : List Clause}

theorem BufferReader.InBucket.readClause_some (h : r.InBucket p i) {unread : List Int}
    (hc : r.readClause unread = .ok (some c, r')) :
    r'.InBucket p i ∧ c.InBucket p i ∧ c.lbd ≠ 0 ∧ ∃ u, r'.unread = some u ∧ u.length < unread.length := by
  rw [BufferReader.readClause] at hc
  split at hc
  · exact absurd hc (BufferReader.endReading_ne_some (a := (_, _)))
  · next hlong =>
      split at hc
      · cases hc
      · next hhead =>
          obtain ⟨hclause, rfl⟩ := Prod.mk.inj (Except.ok.inj hc)
          obtain rfl := Option.some.inj hclause
          have hpos : 1 ≤ r.effectiveClauseSize := by
            rw [h.effective_eq]
            exact effectiveSize_pos (bucketAt_size_pos p i)
          have htake : (unread.take r.effectiveClauseSize).length = r.effectiveClauseSize := by
            rw [List.length_take]
            omega
          refine ⟨⟨h.partitioned, h.bucket_eq, h.effective_eq⟩, ?_, ?_, _, rfl, ?_⟩
          · rw [h.bucket_eq, h.effective_eq, effectiveSize] at *
            by_cases hp : (bucketAt p i).size ≤ p
            · simp only [hp, if_true, Nat.add_zero, lt_irrefl, if_false] at htake ⊢
              exact ⟨htake, fun _ => rfl⟩
            · simp only [hp, if_false, Nat.lt_succ_self, if_true] at htake ⊢
              have hsize : (unread.take ((bucketAt p i).size + 1)).tail.length = (bucketAt p i).size := by
                rw [List.length_tail, htake]
                rfl
              exact ⟨hsize, fun hcp => absurd (hsize.symm.trans_le hcp) hp⟩
          · split
            · obtain ⟨x, xs, hxs⟩ : ∃ x xs, unread = x :: xs := by
                cases unread with
                | nil => simp at hlong; omega
                | cons x xs => exact ⟨x, xs, rfl⟩
              rw [hxs] at hhead ⊢
              obtain ⟨k, hk⟩ := Nat.exists_eq_add_of_le' hpos
              simpa [hk] using hhead
            · have hproper := bucketAt_proper p i
              rw [BucketLabel.Proper] at hproper
              simp only [h.bucket_eq]
              omega
          · rw [List.length_drop]
            omega

theorem BufferReader.nextBucket_some {bucket b : BucketLabel} {unread u : List Int} {n : Nat}
    (hb : bucket = bucketAt p i) (h : BufferReader.nextBucket p bucket unread = some (b, n, u)) :
    (∃ j, b = bucketAt p j) ∧ u.length < unread.length := by
  induction unread generalizing bucket i with
  | nil => cases h
  | cons counter unread ih =>
      rw [BufferReader.nextBucket] at h
      split at h
      · obtain ⟨hj, hlen⟩ := ih (i := i + 1) (by rw [hb, bucketAt]) h
        exact ⟨hj, by rw [List.length_cons]; omega⟩
      · simp only [Option.some.injEq, Prod.mk.injEq] at h
        obtain ⟨rfl, -, rfl⟩ := h
        exact ⟨⟨i + 1, by rw [hb, bucketAt]⟩, Nat.lt_succ_self _⟩

theorem BufferReader.InBucket.getNext_some (h : r.InBucket p i) (hc : r.getNextIncomingClause = .ok (some c, r')) :
    ∃ j, r'.InBucket p j ∧ c.InBucket p j ∧ c.lbd ≠ 0 ∧
      (r'.unread.getD []).length < (r.unread.getD []).length := by
  rw [BufferReader.getNextIncomingClause] at hc
  split at hc
  · cases hc
  · next unread hunread =>
      rw [hunread]
      split at hc
      · cases hnext : BufferReader.nextBucket r.maxLbdPartitionedSize r.bucket unread with
        | none =>
            rw [hnext] at hc
            exact absurd hc (BufferReader.endReading_ne_some (a := (_, _)))
        | some next =>
            obtain ⟨b, n, u⟩ := next
            rw [hnext] at hc
            rw [h.partitioned] at hnext
            obtain ⟨⟨j, rfl⟩, hlen⟩ := BufferReader.nextBucket_some h.bucket_eq hnext
            have hin : BufferReader.InBucket { r with
                bucket := bucketAt p j
                remainingClsOfBucket := n
                effectiveClauseSize := effectiveSize r.maxLbdPartitionedSize (bucketAt p j).size } p j :=
              ⟨h.partitioned, rfl, by rw [h.partitioned]⟩
            obtain ⟨hr', hcj, hlbd, u', hu', hlt⟩ := hin.readClause_some hc
            exact ⟨j, hr', hcj, hlbd, by rw [hu']; exact hlt.trans hlen⟩
      · obtain ⟨hr', hci, hlbd, u', hu', hlt⟩ := h.readClause_some hc
        exact ⟨i, hr', hci, hlbd, by rw [hu']; exact hlt⟩

theorem BufferReader.Reads.inBucket (h : r.Reads cs) (hr : ∃ i, r.InBucket p i) :
    cs.length ≤ (r.unread.getD []).length ∧ ∀ c ∈ cs, (∃ i, c.InBucket p i) ∧ c.lbd ≠ 0 := by
  induction h with
  | done _ => simp
  | more hm _ ih =>
      obtain ⟨i, hi⟩ := hr
      obtain ⟨j, hr', hcj, hlbd, hlt⟩ := hi.getNext_some hm
      obtain ⟨hlen, hall⟩ := ih ⟨j, hr'⟩
      refine ⟨by rw [List.length_cons]; omega, fun c hc => ?_⟩
      rcases List.mem_cons.mp hc with rfl | hc
      · exact ⟨⟨j, hcj⟩, hlbd⟩
      · exact hall c hc

def Represents (x : InputClause) (y : Input Clause) : Prop :=
  x.clause = y.head ∧ x.readerId = y.id ∧ x.reader.Reads y.rest

variable {x : InputClause} {y : Input Clause} {xs : List InputClause} {ys : List (Input Clause)}

theorem Represents.insertInput (h : Represents x y) (hs : List.Forall₂ Represents xs ys) :
    List.Forall₂ Represents (insertInput x xs) (place y ys) := by
  induction hs with
  | nil => exact .cons h .nil
  | cons hz hs ih =>
      rename_i z w zs ws
      have hbehind : inputClauseComparator x z = y.behind w := by
        rw [inputClauseComparator_eq x z y.rest w.rest, h.1, h.2.1, hz.1, hz.2.1]
      rw [Sharing.insertInput, place, hbehind]
      split
      · exact .cons hz ih
      · exact .cons h (.cons hz hs)

theorem Represents.refill (h : Represents x y) (hs : List.Forall₂ Represents xs ys) :
    ∃ zs, refillMerger x xs = .ok zs ∧ List.Forall₂ Represents zs (refill y ys) := by
  have hreads := h.2.2
  cases hy : y.rest with
  | nil =>
      rw [hy] at hreads
      cases hreads with
      | done hd => exact ⟨xs, by rw [refillMerger, hd], by rw [SortedMerge.refill, hy]; exact hs⟩
  | cons c cs =>
      rw [hy] at hreads
      cases hreads with
      | more hm hrest =>
          rename_i r'
          refine ⟨Sharing.insertInput ⟨c, x.readerId, r'⟩ xs, by rw [refillMerger, hm], ?_⟩
          rw [SortedMerge.refill, hy]
          have hnew : Represents ⟨c, x.readerId, r'⟩ ⟨c, y.id, cs⟩ := ⟨rfl, h.2.1, hrest⟩
          exact hnew.insertInput hs

def MergeOutput.write (p sizeLimit : Nat) (chk : Bool) (o : MergeOutput) : List Clause → Option MergeOutput
  | [] => some o
  | c :: cs =>
      if o.exceeds p sizeLimit c ∧ ¬o.hasExcess then some o
      else
        let o := if o.exceeds p sizeLimit c then o.switch else o
        match o.current.insertClause p chk c with
        | none => none
        | some v => write p sizeLimit chk { o with current := v } cs

theorem mergeLoop_eq {sizeLimit fuel : Nat} {last : Option Clause} {o : MergeOutput}
    (h : List.Forall₂ Represents xs ys) (hordered : Ordered ys) (hfuel : total ys < fuel)
    (hlast : ∀ l ∈ last, ∀ a, Left ys a → l ≤ a) :
    mergeLoop p sizeLimit chk fuel last xs o =
      match o.write p sizeLimit chk (merge fuel last ys) with
      | none => .error .unfinished
      | some o' => .ok o' := by
  induction fuel generalizing last xs ys o with
  | zero => omega
  | succ fuel ih =>
      cases h with
      | nil => rfl
      | cons hx hs =>
          rename_i x y xs ys
          obtain ⟨zs, hzs, hrefill⟩ := hx.refill hs
          have hfuel' : total (refill y ys) < fuel := by
            have := SortedMerge.total_refill y ys
            omega
          have hle : ∀ a, Left (refill y ys) a → Left (y :: ys) a :=
            fun a ha => SortedMerge.left_cons.mpr (Or.inr (SortedMerge.left_refill.mp ha))
          rw [mergeLoop]
          simp only [hx.1, clauseComparator_eq]
          by_cases hnew : ∀ l ∈ last, l < y.head
          · have hall : last.all (fun l => decide (l < y.head)) = true := by
              cases last with
              | none => rfl
              | some l => simpa using hnew
            have hlast' : ∀ l ∈ some y.head, ∀ a, Left (refill y ys) a → l ≤ a := by
              rintro l ⟨⟩ a ha
              exact hordered.head_le (hle a ha)
            rw [merge, if_pos hnew, MergeOutput.write, if_pos hall]
            split
            · rfl
            · simp only
              cases OutputVector.insertClause p chk (if MergeOutput.exceeds p sizeLimit o y.head then o.switch else o).current
                  y.head with
              | none => rfl
              | some v =>
                  rw [hzs]
                  exact ih hrefill hordered.refill hfuel' hlast'
          · have hall : ¬last.all (fun l => decide (l < y.head)) = true := by
              cases last with
              | none => simp at hnew
              | some l => simpa using hnew
            have hany : ¬last.any (fun l => decide (y.head < l)) = true := by
              cases last with
              | none => simp
              | some l => simpa using hlast l rfl y.head (SortedMerge.left_cons.mpr (Or.inl rfl))
            rw [merge, if_neg hnew, if_neg hall, if_neg hany, hzs]
            exact ih hrefill hordered.refill hfuel' (fun l hl a ha => hlast l hl a (hle a ha))

/-- A clause belongs to one bucket only, and greater clauses do not belong to earlier buckets. -/
theorem Clause.InBucket.le_of_le (hc : c.InBucket p i) (hd : d.InBucket p j) (hcd : c ≤ d) : i ≤ j := by
  by_contra hji
  refine absurd hcd (not_le.mpr (Clause.lt_iff.mpr ?_))
  rcases bucketAt_before (p := p) (Nat.lt_of_not_le hji) with hsize | ⟨hsize, hp, hlbd⟩
  · exact Or.inl (by rw [hc.size_eq, hd.size_eq]; exact hsize)
  · refine Or.inr ⟨by rw [hc.size_eq, hd.size_eq, hsize], Or.inl ?_⟩
    rw [hc.lbd_eq (by rw [hc.size_eq]; exact hp), hd.lbd_eq (by rw [hd.size_eq, hsize]; exact hp)]
    exact_mod_cast hlbd

def OutputVector.Contains (p : Nat) (chk : Bool) (v : OutputVector) (cs : List Clause) : Prop :=
  ∃ done es, v.Holds p chk done es ∧ decodeBuckets p 0 (done ++ [es]) = cs ∧
    (es = [] → done = []) ∧ ∀ c ∈ cs.getLast?, c.InBucket p done.length

theorem OutputVector.contains_start : OutputVector.start.Contains p chk [] :=
  ⟨[], [], OutputVector.holds_start, rfl, fun _ => rfl, by simp⟩

theorem OutputVector.Contains.insertClause {v : OutputVector} (h : v.Contains p chk cs) (henc : d.Encodable p)
    (hlt : ∀ c ∈ cs.getLast?, c < d) :
    ∃ v', v.insertClause p chk d = some v' ∧ v'.Contains p chk (cs ++ [d]) ∧
      v.ints.length + effectiveSize p d.size ≤ v'.ints.length := by
  obtain ⟨done, es, hholds, hdec, hempty, hlast⟩ := h
  obtain ⟨j, hj⟩ := henc.inBucket
  have hle : done.length ≤ j := by
    by_cases hes : es = []
    · rw [hempty hes]
      exact Nat.zero_le j
    · cases hcs : cs.getLast? with
      | none =>
          rw [List.getLast?_eq_none_iff.mp hcs, decodeBuckets_append] at hdec
          simp [decodeBuckets, hes] at hdec
      | some c => exact (hlast c hcs).le_of_le hj (hlt c hcs).le
  obtain ⟨v', done', es', hv', hholds', hlen, hes', hdec', hgrow⟩ := hholds.insertClause hj henc hle
  refine ⟨v', hv', ⟨done', es', hholds', hdec'.trans (by rw [hdec]), fun h => absurd h hes', ?_⟩, hgrow⟩
  intro c hc
  rw [List.getLast?_append, List.getLast?_singleton, Option.some_or] at hc
  obtain rfl := Option.some.inj hc
  rw [hlen]
  exact hj

def OutputVector.insertAll (p : Nat) (chk : Bool) (v : OutputVector) : List Clause → Option OutputVector
  | [] => some v
  | c :: cs => (v.insertClause p chk c).bind fun v' => insertAll p chk v' cs

variable {v v' : OutputVector} {ms es : List Clause} {o : MergeOutput} {sizeLimit : Nat}

theorem getLast?_lt_of_pairwise (h : (ms ++ d :: cs).Pairwise (· < ·)) : ∀ c ∈ ms.getLast?, c < d :=
  fun c hc => (List.pairwise_append.mp h).2.2 c (List.mem_of_getLast? hc) d (List.mem_cons_self ..)

theorem OutputVector.Contains.insertAll (h : v.Contains p chk ms) (hsorted : (ms ++ cs).Pairwise (· < ·))
    (henc : ∀ c ∈ cs, c.Encodable p) :
    ∃ v', v.insertAll p chk cs = some v' ∧ v'.Contains p chk (ms ++ cs) := by
  induction cs generalizing v ms with
  | nil => exact ⟨v, rfl, by simpa using h⟩
  | cons d cs ih =>
      obtain ⟨v₁, hv₁, hcont, -⟩ := h.insertClause (henc d (List.mem_cons_self ..)) (getLast?_lt_of_pairwise hsorted)
      obtain ⟨v', hv', hcont'⟩ := ih hcont (by simpa using hsorted) (fun c hc => henc c (List.mem_cons_of_mem _ hc))
      exact ⟨v', by rw [OutputVector.insertAll, hv₁]; exact hv', by simpa using hcont'⟩

theorem OutputVector.Contains.length_le (h : v.Contains p chk ms) (hsorted : (ms ++ cs).Pairwise (· < ·))
    (henc : ∀ c ∈ cs, c.Encodable p) (hv' : v.insertAll p chk cs = some v') : v.ints.length ≤ v'.ints.length := by
  induction cs generalizing v ms with
  | nil =>
      obtain rfl := Option.some.inj hv'
      exact le_rfl
  | cons d cs ih =>
      obtain ⟨v₁, hv₁, hcont, hgrow⟩ :=
        h.insertClause (henc d (List.mem_cons_self ..)) (getLast?_lt_of_pairwise hsorted)
      rw [OutputVector.insertAll, hv₁] at hv'
      have := ih hcont (by simpa using hsorted) (fun c hc => henc c (List.mem_cons_of_mem _ hc)) hv'
      omega

theorem MergeOutput.write_fitting (h : o.current.Contains p chk ms) (hsorted : (ms ++ cs).Pairwise (· < ·))
    (henc : ∀ c ∈ cs, c.Encodable p) (hv' : o.current.insertAll p chk cs = some v')
    (hfits : v'.ints.length ≤ sizeLimit) : o.write p sizeLimit chk cs = some { o with current := v' } := by
  induction cs generalizing o ms with
  | nil =>
      obtain rfl := Option.some.inj hv'
      rfl
  | cons d cs ih =>
      obtain ⟨v₁, hv₁, hcont, hgrow⟩ :=
        h.insertClause (henc d (List.mem_cons_self ..)) (getLast?_lt_of_pairwise hsorted)
      have hrest := fun c hc => henc c (List.mem_cons_of_mem _ hc)
      rw [OutputVector.insertAll, hv₁] at hv'
      have hle := hcont.length_le (by simpa using hsorted) hrest hv'
      have hfree : o.exceeds p sizeLimit d = false := by
        simp only [MergeOutput.exceeds, Bool.and_eq_false_iff, decide_eq_false_iff_not]
        exact Or.inr (by omega)
      rw [MergeOutput.write, hfree]
      simp only [Bool.false_eq_true, false_and, if_false, hv₁]
      exact ih (o := { o with current := v₁ }) hcont (by simpa using hsorted) hrest hv'

def MergeOutput.Wrote (p : Nat) (chk : Bool) (o : MergeOutput) (ms es : List Clause) : Prop :=
  if o.fillingMainVector then o.current.Contains p chk ms ∧ es = []
  else ∃ v : OutputVector, o.main = writeChecksum v.hash v.ints ∧ v.Contains p chk ms ∧ o.current.Contains p chk es

theorem MergeOutput.Wrote.switch (h : o.Wrote p chk ms es) (hfilling : o.fillingMainVector = true) :
    o.switch.Wrote p chk ms es := by
  rw [MergeOutput.Wrote, if_pos hfilling] at h
  rw [MergeOutput.Wrote, if_neg (by simp [MergeOutput.switch])]
  exact ⟨o.current, rfl, h.1, by rw [h.2]; exact OutputVector.contains_start⟩

theorem MergeOutput.Wrote.insertClause (h : o.Wrote p chk ms es) (henc : d.Encodable p)
    (hsorted : (ms ++ es ++ d :: cs).Pairwise (· < ·)) :
    ∃ v ms' es', o.current.insertClause p chk d = some v ∧ ms' ++ es' = ms ++ es ++ [d] ∧
      MergeOutput.Wrote p chk { o with current := v } ms' es' := by
  have hms : ∀ c ∈ ms.getLast?, c < d := by
    rw [List.append_assoc] at hsorted
    exact fun c hc => (List.pairwise_append.mp hsorted).2.2 c (List.mem_of_getLast? hc) d (by simp)
  have hes : ∀ c ∈ es.getLast?, c < d := by
    rw [List.append_assoc] at hsorted
    exact getLast?_lt_of_pairwise (List.pairwise_append.mp hsorted).2.1
  by_cases hfilling : o.fillingMainVector = true
  · rw [MergeOutput.Wrote, if_pos hfilling] at h
    obtain ⟨hcont, rfl⟩ := h
    obtain ⟨v, hv, hcont', -⟩ := hcont.insertClause henc hms
    refine ⟨v, ms ++ [d], [], hv, by simp, ?_⟩
    rw [MergeOutput.Wrote, if_pos hfilling]
    exact ⟨hcont', rfl⟩
  · rw [MergeOutput.Wrote, if_neg hfilling] at h
    obtain ⟨m, hmain, hcm, hcont⟩ := h
    obtain ⟨v, hv, hcont', -⟩ := hcont.insertClause henc hes
    refine ⟨v, ms, es ++ [d], hv, by simp, ?_⟩
    rw [MergeOutput.Wrote, if_neg hfilling]
    exact ⟨m, hmain, hcm, hcont'⟩

theorem MergeOutput.exceeds_filling (h : o.exceeds p sizeLimit d = true) : o.fillingMainVector = true := by
  simp only [MergeOutput.exceeds, Bool.and_eq_true] at h
  exact h.1

theorem MergeOutput.Wrote.write (h : o.Wrote p chk ms es) (hexcess : o.hasExcess = true)
    (henc : ∀ c ∈ cs, c.Encodable p) (hsorted : (ms ++ es ++ cs).Pairwise (· < ·)) :
    ∃ o' ms' es', o.write p sizeLimit chk cs = some o' ∧ o'.hasExcess = true ∧ ms' ++ es' = ms ++ es ++ cs ∧
      o'.Wrote p chk ms' es' := by
  induction cs generalizing o ms es with
  | nil => exact ⟨o, ms, es, rfl, hexcess, by simp, h⟩
  | cons d cs ih =>
      obtain ⟨o₁, ho₁, hexcess₁, h₁⟩ : ∃ o₁, (if o.exceeds p sizeLimit d then o.switch else o) = o₁ ∧
          o₁.hasExcess = true ∧ o₁.Wrote p chk ms es := by
        by_cases hfull : o.exceeds p sizeLimit d = true
        · exact ⟨o.switch, if_pos hfull, hexcess, h.switch (MergeOutput.exceeds_filling hfull)⟩
        · exact ⟨o, if_neg hfull, hexcess, h⟩
      obtain ⟨v, ms₁, es₁, hv, hsplit, hwrote⟩ := h₁.insertClause (henc d (List.mem_cons_self ..)) hsorted
      have hsorted' : (ms₁ ++ es₁ ++ cs).Pairwise (· < ·) := by
        rw [hsplit]
        simpa using hsorted
      obtain ⟨o', ms', es', ho', hexcess', hsplit', hwrote'⟩ :=
        ih hwrote hexcess₁ (fun c hc => henc c (List.mem_cons_of_mem _ hc)) hsorted'
      refine ⟨o', ms', es', ?_, hexcess', by rw [hsplit', hsplit]; simp, hwrote'⟩
      rw [MergeOutput.write, if_neg (fun hstop => hstop.2 hexcess)]
      simp only [ho₁, hv]
      exact ho'

theorem MergeOutput.write_main {o' : MergeOutput} (hfilling : o.fillingMainVector = false)
    (h : o.write p sizeLimit chk cs = some o') : o'.main = o.main ∧ o'.fillingMainVector = false := by
  induction cs generalizing o with
  | nil =>
      obtain rfl := Option.some.inj h
      exact ⟨rfl, hfilling⟩
  | cons d cs ih =>
      have hfree : o.exceeds p sizeLimit d = false := by simp [MergeOutput.exceeds, hfilling]
      rw [MergeOutput.write, hfree] at h
      simp only [Bool.false_eq_true, false_and, if_false] at h
      split at h
      · cases h
      · next v _ => exact ih (o := { o with current := v }) hfilling h

theorem MergeOutput.write_withoutExcess {o' : MergeOutput} (hfilling : o.fillingMainVector = true)
    (hexcess : o.hasExcess = true) (h : o.write p sizeLimit chk cs = some o') :
    ∃ o₁, MergeOutput.write p sizeLimit chk { o with hasExcess := false } cs = some o₁ ∧
      o₁.hasExcess = false ∧ o₁.finish.1 = o'.finish.1 := by
  induction cs generalizing o with
  | nil =>
      obtain rfl := Option.some.inj h
      exact ⟨_, rfl, rfl, by simp [MergeOutput.finish, hfilling, MergeOutput.switch]⟩
  | cons d cs ih =>
      rw [MergeOutput.write, if_neg (fun hstop => hstop.2 hexcess)] at h
      by_cases hfull : o.exceeds p sizeLimit d = true
      · have hstop : MergeOutput.exceeds p sizeLimit { o with hasExcess := false } d = true := hfull
        refine ⟨{ o with hasExcess := false }, ?_, rfl, ?_⟩
        · rw [MergeOutput.write, if_pos ⟨hstop, by simp⟩]
        · simp only [if_pos hfull] at h
          split at h
          · cases h
          · obtain ⟨hmain, hfilling'⟩ := MergeOutput.write_main rfl h
            simp only [MergeOutput.finish, hfilling, hfilling', hmain, if_true, Bool.false_eq_true, if_false]
            rfl
      · simp only [if_neg hfull] at h
        split at h
        · cases h
        · next v hv =>
            obtain ⟨o₁, ho₁, hex₁, hfin⟩ := ih (o := { o with current := v }) hfilling hexcess h
            refine ⟨o₁, ?_, hex₁, hfin⟩
            have hfree : ¬MergeOutput.exceeds p sizeLimit { o with hasExcess := false } d = true := hfull
            rw [MergeOutput.write, if_neg (fun hstop => hfree hstop.1)]
            simp only [if_neg hfree, hv]
            exact ho₁

end Mallob.Sharing
