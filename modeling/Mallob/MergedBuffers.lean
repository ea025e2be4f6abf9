import Mallob.BufferRoundTrip

namespace Mallob.Sharing

open SortedMerge (Input place refill merge total Ordered Left)

variable {p i : Nat} {chk : Bool} {r : BufferReader} {cs ms es : List Clause} {readers : List BufferReader}
  {contents : List (List Clause)} {bs bs' : List (List (List Int))} {c : Clause}

/-- A buffer with the setting of its reader, and the clauses that are read from it: they are sorted and
have no zero in them. -/
structure ValidBuffer (p : Nat) (buffer : List Int × Bool) (cs : List Clause) : Prop where
  decode_eq : decode p buffer.2 buffer.1 = .ok cs
  lits_ne : ∀ c ∈ cs, 0 ∉ c.lits
  sorted : cs.Pairwise fun c d => clauseComparator d c = false

def mergeBuffers (p : Nat) (useChecksum : Bool) (buffers : List (List Int × Bool)) (sizeLimit : Nat)
    (excessClauses : Bool) : Except MergeFault (List Int × Option (List Int)) :=
  match buffers.mapM fun b => BufferReader.new b.1 p b.2 with
  | .error e => .error (.reader e)
  | .ok readers => fastMerge p useChecksum readers sizeLimit excessClauses

structure GoodReader (p : Nat) (r : BufferReader) (cs : List Clause) : Prop where
  reads : r.Reads cs
  inBucket : ∃ i, r.InBucket p i
  lits_ne : ∀ c ∈ cs, 0 ∉ c.lits
  sorted : cs.Pairwise (· ≤ ·)

theorem pairwise_le_of_comparator (h : cs.Pairwise fun c d => clauseComparator d c = false) : cs.Pairwise (· ≤ ·) := by
  refine h.imp fun hcd => ?_
  rw [clauseComparator_eq, decide_eq_false_iff_not] at hcd
  exact not_lt.mp hcd

theorem ValidBuffer.goodReader {buffer : List Int × Bool} (hp : 1 ≤ p) (h : ValidBuffer p buffer cs) :
    ∃ r, BufferReader.new buffer.1 p buffer.2 = .ok r ∧ GoodReader p r cs := by
  have hdec := h.decode_eq
  rw [decode] at hdec
  cases hr : BufferReader.new buffer.1 p buffer.2 with
  | error e => rw [hr] at hdec; cases hdec
  | ok r =>
      rw [hr] at hdec
      refine ⟨r, rfl, BufferReader.reads_of_readClauses hdec, ⟨0, ?_⟩, h.lits_ne, pairwise_le_of_comparator h.sorted⟩
      rw [BufferReader.new] at hr
      split at hr
      · cases hr
      · obtain rfl := Except.ok.inj hr
        exact ⟨rfl, rfl, by simp [bucketAt, effectiveSize, hp]⟩

theorem exists_goodReaders {buffers : List (List Int × Bool)} (hp : 1 ≤ p)
    (h : List.Forall₂ (ValidBuffer p) buffers contents) :
    ∃ readers, buffers.mapM (fun b => BufferReader.new b.1 p b.2) = .ok readers ∧
      List.Forall₂ (GoodReader p) readers contents := by
  induction h with
  | nil => exact ⟨[], rfl, .nil⟩
  | cons hb _ ih =>
      obtain ⟨r, hr, hgood⟩ := hb.goodReader hp
      obtain ⟨readers, hreaders, hall⟩ := ih
      refine ⟨r :: readers, ?_, .cons hgood hall⟩
      rw [List.mapM_cons, hr, hreaders]
      rfl

theorem setupMerger_spec {merger : List InputClause} {ys : List (Input Clause)}
    (hreaders : List.Forall₂ (GoodReader p) readers contents) (h : List.Forall₂ Represents merger ys) (hord : Ordered ys) :
    ∃ merger' ys', setupMerger i readers merger = .ok merger' ∧ List.Forall₂ Represents merger' ys' ∧ Ordered ys' ∧
      (∀ a, Left ys' a ↔ Left ys a ∨ ∃ cs ∈ contents, a ∈ cs) ∧
      total ys' = total ys + (contents.map List.length).sum := by
  induction hreaders generalizing i merger ys with
  | nil => exact ⟨merger, ys, rfl, h, hord, by simp, by simp⟩
  | @cons r cs readers contents hr _ ih =>
      have hreads := hr.reads
      cases hreads with
      | done hd =>
          obtain ⟨merger', ys', hok, hrep, hord', hleft, htotal⟩ := @ih (i + 1) merger ys h hord
          refine ⟨merger', ys', by rw [setupMerger, hd]; exact hok, hrep, hord', fun a => ?_, by simp [htotal]⟩
          rw [hleft]
          simp
      | @more _ r' c cs hm hrest =>
          have hnew : Represents ⟨c, i, r'⟩ ⟨c, i, cs⟩ := ⟨rfl, rfl, hrest⟩
          obtain ⟨merger', ys', hok, hrep, hord', hleft, htotal⟩ :=
            @ih (i + 1) _ _ (hnew.insertInput h) (hord.place hr.sorted)
          refine ⟨merger', ys', by rw [setupMerger, hm]; exact hok, hrep, hord', fun a => ?_, ?_⟩
          · have hplace : Left (place ⟨c, i, cs⟩ ys) a ↔ Left (⟨c, i, cs⟩ :: ys) a := by
              simp only [Left, (SortedMerge.place_perm _ ys).mem_iff]
            rw [hleft, hplace, SortedMerge.left_cons]
            simp only [List.mem_cons, exists_eq_or_imp]
            tauto
          · rw [htotal, SortedMerge.total_place]
            simp only [List.map_cons, List.sum_cons, List.length_cons]
            omega

def MergeOutput.begin (excessClauses : Bool) : MergeOutput := ⟨[], OutputVector.start, true, excessClauses⟩

/-- The merged sequence does not depend on anything but the clauses that occur. -/
theorem fastMerge_eq {sizeLimit : Nat} {excessClauses : Bool} {merged : List Clause}
    (hreaders : List.Forall₂ (GoodReader p) readers contents) (hsorted : merged.Pairwise (· < ·))
    (hmem : ∀ c, c ∈ merged ↔ ∃ cs ∈ contents, c ∈ cs) :
    fastMerge p chk readers sizeLimit excessClauses =
      match (MergeOutput.begin excessClauses).write p sizeLimit chk merged with
      | none => .error .unfinished
      | some o => .ok o.finish := by
  obtain ⟨merger, ys, hok, hrep, hord, hleft, htotal⟩ :=
    @setupMerger_spec p 0 readers contents [] [] hreaders .nil ⟨.nil, by simp⟩
  have hfuel : total ys < (readers.map fun r => (r.unread.getD []).length + 1).sum + 1 := by
    have hlen : (contents.map List.length).sum ≤ (readers.map fun r => (r.unread.getD []).length + 1).sum := by
      clear hok hrep hord hleft htotal hmem
      induction hreaders with
      | nil => exact le_rfl
      | cons hr _ ih =>
          have := (hr.reads.inBucket hr.inBucket).1
          simp only [List.map_cons, List.sum_cons]
          omega
    rw [htotal]
    simp only [total, List.map_nil, List.sum_nil, Nat.zero_add]
    omega
  obtain ⟨hpair, hmerge⟩ := @SortedMerge.merge_spec Clause _ ys none _ hfuel.le hord (by simp)
  have hsame : merge ((readers.map fun r => (r.unread.getD []).length + 1).sum + 1) none ys = merged := by
    refine List.Pairwise.eq_of_mem_iff hpair hsorted fun a => ?_
    rw [hmerge, hleft, hmem]
    simp [Left]
  rw [fastMerge, hok]
  simp only [bind, Except.bind]
  rw [mergeLoop_eq hrep hord hfuel (by simp), hsame, MergeOutput.begin]
  cases (MergeOutput.mk [] OutputVector.start true excessClauses).write p sizeLimit chk merged with
  | none => rfl
  | some o => rfl

theorem exists_merged (contents : List (List Clause)) :
    ∃ merged : List Clause, merged.Pairwise (· < ·) ∧ ∀ c, c ∈ merged ↔ ∃ cs ∈ contents, c ∈ cs := by
  refine ⟨contents.flatten.toFinset.sort (· ≤ ·), Finset.sortedLT_sort _ |>.pairwise, fun c => ?_⟩
  simp

variable {v : OutputVector} {o : MergeOutput} {sizeLimit : Nat}

theorem OutputVector.Contains.decode_eq (h : v.Contains p chk cs) (hp : 1 ≤ p) {chk' : Bool} (hchk : chk' = true → chk = true) :
    decode p chk' (writeChecksum v.hash v.ints) = .ok cs := by
  obtain ⟨done, es, hholds, rfl, -, -⟩ := h
  rw [hholds.ints_eq, writeChecksum_header]
  refine decode_encoded hp hholds.placed (checksumInts _) rfl fun hc => ?_
  rw [hholds.hash_eq, if_pos (hchk hc)]
  exact readChecksum_checksumInts (combineEntries_lt (by decide) _) _

theorem removeTrailingZeroes_of_getLast {xs : List Int} (hlen : 2 ≤ xs.length) (h : ∀ x ∈ xs.getLast?, x ≠ 0) :
    removeTrailingZeroes xs = xs := by
  have hlast : ∀ x ∈ (xs.drop 1).getLast?, x ≠ 0 := by
    rw [List.getLast?_drop, if_neg (by omega)]
    exact h
  have := rdropWhile_zeroes hlast 0
  rw [List.replicate_zero, List.append_nil] at this
  rw [removeTrailingZeroes, this, List.take_append_drop]

/-- A vector without clauses shrinks to a single integer; any other vector ends with a literal. -/
theorem OutputVector.Contains.decode_trimmed (h : v.Contains p chk cs) (hp : 1 ≤ p) {chk' : Bool}
    (hchk : chk' = true → chk = true ∧ cs ≠ []) :
    decode p chk' (removeTrailingZeroes (writeChecksum v.hash v.ints)) = .ok cs := by
  have hdec : decode p chk' (writeChecksum v.hash v.ints) = .ok cs := h.decode_eq hp fun hc => (hchk hc).1
  obtain ⟨done, es, hholds, hcs, hempty, -⟩ := h
  by_cases hes : es = []
  · obtain rfl := hempty hes
    subst hes
    obtain rfl : cs = [] := hcs.symm
    have hread : chk' = false := by
      cases chk' with
      | false => rfl
      | true => exact absurd rfl (hchk rfl).2
    have hhash : v.hash = 1 := by
      rw [hholds.hash_eq]
      simp
    have hints : v.ints = [0, 0, 0] := hholds.ints_eq
    rw [hread, hhash, hints]
    rfl
  · rw [removeTrailingZeroes_of_getLast]
    · exact hdec
    · rw [hholds.ints_eq, writeChecksum_header]
      simp [checksumInts]
    · rw [hholds.ints_eq, writeChecksum_header]
      intro x hx
      refine getLast?_encodeBuckets_ne hholds.placed (by simp [hes]) x ?_
      rw [List.getLast?_append] at hx
      cases hend : (encodeBuckets (done ++ [es])).getLast? with
      | none =>
          rw [List.getLast?_eq_none_iff, encodeBuckets_append] at hend
          simp [encodeBuckets] at hend
      | some y =>
          rw [hend] at hx
          exact hx

/-- The finished vectors read as the clauses that were written into them. -/
theorem MergeOutput.Wrote.finish (h : o.Wrote p chk ms es) (hexcess : o.hasExcess = true) (hp : 1 ≤ p) :
    ∃ main excess, o.finish = (main, some excess) ∧
      (∀ chk', (chk' = true → chk = true) → decode p chk' main = .ok ms) ∧
      ∀ chk', (chk' = true → chk = true ∧ es ≠ []) → decode p chk' excess = .ok es := by
  obtain ⟨o', hfilling, hexcess', hwrote, ho'⟩ : ∃ o' : MergeOutput, o'.fillingMainVector = false ∧
      o'.hasExcess = true ∧ o'.Wrote p chk ms es ∧ (if o.fillingMainVector then o.switch else o) = o' := by
    by_cases hfilling : o.fillingMainVector = true
    · exact ⟨o.switch, rfl, hexcess, h.switch hfilling, if_pos hfilling⟩
    · exact ⟨o, by simpa using hfilling, hexcess, h, if_neg hfilling⟩
  rw [MergeOutput.Wrote, if_neg (by simp [hfilling])] at hwrote
  obtain ⟨v, hmain, hms, hes⟩ := hwrote
  refine ⟨o'.main, removeTrailingZeroes (writeChecksum o'.current.hash o'.current.ints), ?_, ?_, ?_⟩
  · simp only [MergeOutput.finish, ho', hexcess', if_true]
  · intro chk' hchk
    rw [hmain]
    exact hms.decode_eq hp hchk
  · intro chk' hchk
    exact hes.decode_trimmed hp hchk

theorem GoodReader.encodable (h : GoodReader p r cs) : ∀ c ∈ cs, c.Encodable p := by
  intro c hc
  obtain ⟨hbucket, hlbd⟩ := (h.reads.inBucket h.inBucket).2 c hc
  exact ⟨hbucket, fun x hx hzero => h.lits_ne c hc (hzero ▸ hx), hlbd⟩

theorem encodable_of_goodReaders (h : List.Forall₂ (GoodReader p) readers contents) (hc : ∃ cs ∈ contents, c ∈ cs) :
    c.Encodable p := by
  obtain ⟨cs, hcs, hc⟩ := hc
  obtain ⟨n, hn, rfl⟩ := List.getElem_of_mem hcs
  have := List.forall₂_iff_get.mp h
  exact (this.2 n (by omega) hn).encodable c hc

theorem EntryOf.entry_decodeEntry {e : List Int} (h : EntryOf p i e) : (decodeEntry p i e).entry p = e := by
  have hsize := h.inBucket.size_eq
  rw [Clause.entry, hsize]
  rw [decodeEntry]
  split
  · rfl
  · obtain ⟨x, xs, rfl⟩ := List.exists_cons_of_length_pos h.length_pos
    rfl

theorem filter_first_bucket {es : List (List Int)} (h : Placed p i (es :: bs)) :
    (decodeBuckets p i (es :: bs)).filter (fun c => slotPosition p c.size c.lbd = i) = es.map (decodeEntry p i) ∧
    (decodeBuckets p i (es :: bs)).filter (fun c => ¬slotPosition p c.size c.lbd = i) = decodeBuckets p (i + 1) bs := by
  have hfirst : ∀ c ∈ es.map (decodeEntry p i), slotPosition p c.size c.lbd = i := by
    intro c hc
    obtain ⟨e, he, rfl⟩ := List.mem_map.mp hc
    exact (h.1 e he).inBucket.slotPosition_eq
  have hrest : ∀ c ∈ decodeBuckets p (i + 1) bs, ¬slotPosition p c.size c.lbd = i := by
    intro c hc
    obtain ⟨j, hj, hcj⟩ := inBucket_of_mem h.2 hc
    rw [hcj.slotPosition_eq]
    omega
  rw [decodeBuckets, List.filter_append, List.filter_append]
  constructor
  · rw [List.filter_eq_self.mpr fun c hc => by simpa using hfirst c hc,
      List.filter_eq_nil_iff.mpr fun c hc => by simpa using hrest c hc, List.append_nil]
  · rw [List.filter_eq_nil_iff.mpr fun c hc => by simpa using hfirst c hc,
      List.filter_eq_self.mpr fun c hc => by simpa using hrest c hc, List.nil_append]

theorem decodeBuckets_ne_nil (hlast : ∀ es ∈ bs.getLast?, es ≠ []) (hne : bs ≠ []) : decodeBuckets p i bs ≠ [] := by
  obtain ⟨done, es, rfl⟩ := (List.eq_nil_or_concat bs).resolve_left hne
  have hes : es ≠ [] := hlast es (by simp)
  rw [List.concat_eq_append, decodeBuckets_append]
  simp [decodeBuckets, hes]

/-- Buckets without empty ones at the end are determined by their clauses. -/
theorem buckets_unique (h : Placed p i bs) (h' : Placed p i bs') (hlast : ∀ es ∈ bs.getLast?, es ≠ [])
    (hlast' : ∀ es ∈ bs'.getLast?, es ≠ []) (heq : decodeBuckets p i bs = decodeBuckets p i bs') : bs = bs' := by
  induction bs generalizing i bs' with
  | nil =>
      by_contra hne
      exact decodeBuckets_ne_nil (i := i) (p := p) hlast' (fun hnil => hne hnil.symm) heq.symm
  | cons es bs ih =>
      cases bs' with
      | nil => exact absurd heq (decodeBuckets_ne_nil hlast (by simp))
      | cons es' bs' =>
          obtain ⟨hfirst, hrest⟩ := filter_first_bucket h
          obtain ⟨hfirst', hrest'⟩ := filter_first_bucket h'
          rw [heq] at hfirst hrest
          have htail : ∀ {x : List (List Int)} {xs : List (List (List Int))},
              (∀ es ∈ (x :: xs).getLast?, es ≠ []) → ∀ es ∈ xs.getLast?, es ≠ [] := by
            intro x xs hall es hes
            cases xs with
            | nil => cases hes
            | cons y ys => exact hall es (by rw [List.getLast?_cons_cons]; exact hes)
          have hes : es = es' := by
            have hmap := congrArg (List.map (Clause.entry p)) (hfirst.symm.trans hfirst')
            rw [List.map_map, List.map_map] at hmap
            have hid : ∀ {es : List (List Int)}, (∀ e ∈ es, EntryOf p i e) →
                es.map (Clause.entry p ∘ decodeEntry p i) = es := by
              intro es hall
              refine (List.map_congr_left fun e he => ?_).trans (List.map_id es)
              exact (hall e he).entry_decodeEntry
            rwa [hid h.1, hid h'.1] at hmap
          rw [hes, ih h.2 h'.2 (htail hlast) (htail hlast') (hrest.symm.trans hrest')]

/-- Where everything fits, the main vector is the one that holds all the clauses. -/
theorem finish_fitting {excessClauses : Bool} (hv : OutputVector.start.insertAll p chk cs = some v)
    (hsorted : cs.Pairwise (· < ·)) (henc : ∀ c ∈ cs, c.Encodable p) (hfits : v.ints.length ≤ sizeLimit) :
    ((MergeOutput.begin excessClauses).write p sizeLimit chk cs).map MergeOutput.finish =
      some (writeChecksum v.hash v.ints, if excessClauses then some [1] else none) := by
  have hwrite := @MergeOutput.write_fitting p chk cs v [] (MergeOutput.begin excessClauses) sizeLimit
    OutputVector.contains_start (by simpa using hsorted) henc hv hfits
  have htrim : removeTrailingZeroes (writeChecksum OutputVector.start.hash OutputVector.start.ints) = [1] := by decide
  rw [hwrite]
  simp only [Option.map_some, MergeOutput.finish, MergeOutput.begin, MergeOutput.switch, if_true, htrim]

/-- The vector that the clauses of an exported buffer are written into is this buffer. -/
theorem AdaptiveClauseDatabase.Exported.insertAll {db db' : AdaptiveClauseDatabase} {options : ExportOptions}
    {buffer : List Int} {n : Nat} (h : Exported db options bs buffer n db') (hbs : ∀ es ∈ bs, ∀ e ∈ es, 0 ∉ e)
    (hcs : decodeBuckets db.maxLbdPartitionedSize 0 bs = cs) (hne : cs ≠ []) (hsorted : cs.Pairwise (· < ·))
    (henc : ∀ c ∈ cs, c.Encodable db.maxLbdPartitionedSize) :
    ∃ v, OutputVector.start.insertAll db.maxLbdPartitionedSize db.useChecksum cs = some v ∧
      writeChecksum v.hash v.ints = buffer := by
  obtain ⟨v, hv, done, es, hholds, hdec, hempty, -⟩ :=
    (@OutputVector.contains_start db.maxLbdPartitionedSize db.useChecksum).insertAll (by simpa using hsorted) henc
  refine ⟨v, hv, ?_⟩
  have hplaced := h.placed hbs
  obtain ⟨bs', m, rfl, hlast⟩ := exists_trimmed bs
  have hplaced' := (placed_append.mp hplaced).1
  have hbs' : decodeBuckets db.maxLbdPartitionedSize 0 bs' = cs := by
    rw [← hcs, decodeBuckets_append, decodeBuckets_replicate, List.append_nil]
  have hes : es ≠ [] := by
    intro hes
    rw [hempty hes, hes] at hdec
    exact hne hdec.symm
  have hsame : done ++ [es] = bs' :=
    buckets_unique hholds.placed hplaced' (by simp [hes]) hlast (hdec.trans hbs'.symm)
  have hne' : bs' ≠ [] := by
    rw [← hsame]
    simp
  rw [h.buffer_eq, removeTrailingZeroes_encoded hplaced' hlast hne', hholds.ints_eq, hholds.hash_eq, hsame]
  simp

theorem mergeBuffers_eq {buffers : List (List Int × Bool)} {excessClauses : Bool} {merged : List Clause} (hp : 1 ≤ p)
    (hvalid : List.Forall₂ (ValidBuffer p) buffers contents) (hsorted : merged.Pairwise (· < ·))
    (hmem : ∀ c, c ∈ merged ↔ ∃ cs ∈ contents, c ∈ cs) :
    (∀ c ∈ merged, c.Encodable p) ∧
    mergeBuffers p chk buffers sizeLimit excessClauses =
      match (MergeOutput.begin excessClauses).write p sizeLimit chk merged with
      | none => .error .unfinished
      | some o => .ok o.finish := by
  obtain ⟨readers, hreaders, hgood⟩ := exists_goodReaders hp hvalid
  refine ⟨fun c hc => encodable_of_goodReaders hgood ((hmem c).mp hc), ?_⟩
  rw [mergeBuffers, hreaders]
  exact fastMerge_eq hgood hsorted hmem

theorem mergeBuffers_contents {buffers : List (List Int × Bool)} (hp : 1 ≤ p)
    (hvalid : List.Forall₂ (ValidBuffer p) buffers contents) :
    ∃ main excess ms es, mergeBuffers p chk buffers sizeLimit true = .ok (main, some excess) ∧
      mergeBuffers p chk buffers sizeLimit false = .ok (main, none) ∧
      decode p chk main = .ok ms ∧ decode p false excess = .ok es ∧ (es ≠ [] → decode p chk excess = .ok es) ∧
      ((ms ++ es).Pairwise fun c d => clauseComparator c d = true) ∧ ∀ c, c ∈ ms ++ es ↔ ∃ cs ∈ contents, c ∈ cs := by
  obtain ⟨merged, hsorted, hmem⟩ := exists_merged contents
  obtain ⟨henc, hmerge⟩ := @mergeBuffers_eq p chk contents sizeLimit buffers true merged hp hvalid hsorted hmem
  have hmerge' := (@mergeBuffers_eq p chk contents sizeLimit buffers false merged hp hvalid hsorted hmem).2
  have hstart : (MergeOutput.begin true).Wrote p chk [] [] := ⟨OutputVector.contains_start, rfl⟩
  obtain ⟨o, ms, es, hwrite, hexcess, hsplit, hwrote⟩ :=
    @MergeOutput.Wrote.write _ _ _ _ _ _ sizeLimit hstart rfl henc (by simpa using hsorted)
  obtain ⟨o₁, hwrite₁, hexcess₁, hmain₁⟩ := MergeOutput.write_withoutExcess rfl rfl hwrite
  obtain ⟨main, excess, hfinish, hms, hes⟩ := hwrote.finish hexcess hp
  have hwrite₁ : (MergeOutput.begin false).write p sizeLimit chk merged = some o₁ := hwrite₁
  rw [hwrite] at hmerge
  rw [hwrite₁] at hmerge'
  have hsplit : ms ++ es = merged := by simpa using hsplit
  refine ⟨main, excess, ms, es, by rw [hmerge, ← hfinish], ?_, hms chk id, hes false (by simp),
    fun hne => hes chk fun hchk => ⟨hchk, hne⟩, ?_, by rw [hsplit]; exact hmem⟩
  · have hnone : o₁.finish.2 = none := by
      simp only [MergeOutput.finish]
      split
      · simp [MergeOutput.switch, hexcess₁]
      · simp [hexcess₁]
    have hmain : o₁.finish.1 = main := hmain₁.trans (congrArg Prod.fst hfinish)
    rw [hmerge', ← hmain, ← hnone]
  · rw [hsplit]
    refine hsorted.imp fun hlt => ?_
    rw [clauseComparator_eq]
    exact decide_eq_true hlt

theorem mergeBuffers_perm {buffers buffers' : List (List Int × Bool)} {excessClauses : Bool} (hp : 1 ≤ p)
    (hvalid : List.Forall₂ (ValidBuffer p) buffers contents) (hperm : buffers'.Perm buffers) :
    mergeBuffers p chk buffers' sizeLimit excessClauses = mergeBuffers p chk buffers sizeLimit excessClauses := by
  obtain ⟨merged, hsorted, hmem⟩ := exists_merged contents
  obtain ⟨contents', hvalid', hcontents⟩ := List.perm_comp_forall₂ hperm hvalid
  have hmem' : ∀ c, c ∈ merged ↔ ∃ cs ∈ contents', c ∈ cs := by
    intro c
    rw [hmem]
    simp only [hcontents.mem_iff]
  rw [(mergeBuffers_eq hp hvalid hsorted hmem).2, (mergeBuffers_eq hp hvalid' hsorted hmem').2]

theorem AdaptiveClauseDatabase.Stores.mergeBuffers_copies {db db' : AdaptiveClauseDatabase} {clauses : Multiset Clause}
    {options : ExportOptions} {buffer : List Int} {n copies : Nat} {excessClauses : Bool} (h : db.Stores clauses)
    (hclauses : ∀ c ∈ clauses, 1 ≤ c.lbd ∧ 0 ∉ c.lits) (hp : 1 ≤ db.maxLbdPartitionedSize)
    (hexport : db.exportBuffer options = .ok (buffer, n, db'))
    (hdec : decode db.maxLbdPartitionedSize false buffer = .ok cs) (hne : cs ≠ []) (hsorted : cs.Pairwise (· < ·))
    (hcopies : 1 ≤ copies) (hfits : buffer.length ≤ sizeLimit) :
    mergeBuffers db.maxLbdPartitionedSize db.useChecksum (List.replicate copies (buffer, db.useChecksum)) sizeLimit
      excessClauses = .ok (buffer, if excessClauses then some [1] else none) := by
  have hnonzero : ∀ c ∈ db.contents, c.lbd ≠ 0 ∧ 0 ∉ c.lits := by
    intro c hc
    rw [h.contents_eq] at hc
    obtain ⟨d, hd, rfl⟩ := Multiset.mem_map.mp hc
    exact ⟨readBack_ne (hclauses d hd).1, (hclauses d hd).2⟩
  rcases h.sound.exportBuffer options with ⟨herror, -⟩ | ⟨bs, buffer₁, n₁, db₁, hok, hexp, -⟩
  · rw [herror] at hexport
    cases hexport
  · rw [hok] at hexport
    obtain ⟨rfl, rfl, rfl⟩ : buffer₁ = buffer ∧ n₁ = n ∧ db₁ = db' := by simpa using hexport
    have hdecoded : ∀ c ∈ decodeBuckets db.maxLbdPartitionedSize 0 bs, c.lbd ≠ 0 ∧ 0 ∉ c.lits := by
      intro c hc
      refine hnonzero c ?_
      rw [hexp.contents_eq]
      exact Multiset.mem_add.mpr (Or.inl hc)
    have hbs := zero_notMem_of_decodeBuckets hdecoded
    have hcs : decodeBuckets db.maxLbdPartitionedSize 0 bs = cs := by
      have := @Exported.decode_buffer _ _ _ _ _ _ false hexp hp hbs (by simp)
      rw [hdec] at this
      exact (Except.ok.inj this).symm
    have hread : decode db.maxLbdPartitionedSize db.useChecksum buffer₁ = .ok cs := by
      rw [← hcs]
      exact hexp.decode_buffer hp hbs fun hchk => ⟨hchk, by rw [hcs]; exact hne⟩
    have hvalid : List.Forall₂ (ValidBuffer db.maxLbdPartitionedSize) (List.replicate copies (buffer₁, db.useChecksum))
        (List.replicate copies cs) := by
      refine List.forall₂_iff_get.mpr ⟨by simp, fun k _ _ => ?_⟩
      simp only [List.get_eq_getElem, List.getElem_replicate]
      refine ⟨hread, fun c hc => (hdecoded c (by rw [hcs]; exact hc)).2, hsorted.imp fun hlt => ?_⟩
      rw [clauseComparator_eq]
      exact decide_eq_false (not_lt.mpr hlt.le)
    have hmem : ∀ c, c ∈ cs ↔ ∃ ds ∈ List.replicate copies cs, c ∈ ds := by
      intro c
      constructor
      · intro hc
        exact ⟨cs, List.mem_replicate.mpr ⟨by omega, rfl⟩, hc⟩
      · rintro ⟨ds, hds, hc⟩
        rwa [List.eq_of_mem_replicate hds] at hc
    obtain ⟨henc, hmerge⟩ := @mergeBuffers_eq _ db.useChecksum _ sizeLimit _ excessClauses _ hp hvalid hsorted hmem
    obtain ⟨v, hv, hbuffer⟩ := hexp.insertAll hbs hcs hne hsorted henc
    have hlen : v.ints.length ≤ buffer₁.length := by
      rw [← hbuffer, writeChecksum]
      simp only [List.length_append, List.length_take, List.length_drop, checksumInts, List.length_cons, List.length_nil]
      omega
    have hfinish := @finish_fitting _ _ _ _ sizeLimit excessClauses hv hsorted henc (hlen.trans hfits)
    rw [hmerge]
    cases hwrite : (MergeOutput.begin excessClauses).write db.maxLbdPartitionedSize sizeLimit db.useChecksum cs with
    | none => rw [hwrite] at hfinish; cases hfinish
    | some o =>
        rw [hwrite, hbuffer] at hfinish
        simp only [Option.map_some, Option.some.injEq] at hfinish
        simp only [hfinish]

open AdaptiveClauseDatabase in
/-- Merging yields all the clauses once and in order, in the main vector and then in the excess vector,
whatever the order of the readers. Copies of an exported buffer are merged into this buffer. -/
theorem mergeBuffers_spec (p : Nat) (chk : Bool) (hp : 1 ≤ p) (buffers : List (List Int × Bool))
    (contents : List (List Clause)) (hvalid : List.Forall₂ (ValidBuffer p) buffers contents) (sizeLimit : Nat) :
    (∃ main excess ms es, mergeBuffers p chk buffers sizeLimit true = .ok (main, some excess) ∧
      mergeBuffers p chk buffers sizeLimit false = .ok (main, none) ∧
      decode p chk main = .ok ms ∧ decode p false excess = .ok es ∧
      (es ≠ [] → decode p chk excess = .ok es) ∧
      ((ms ++ es).Pairwise fun c d => clauseComparator c d = true) ∧
      ∀ c, c ∈ ms ++ es ↔ ∃ cs ∈ contents, c ∈ cs) ∧
    (∀ buffers' excessClauses, buffers'.Perm buffers →
      mergeBuffers p chk buffers' sizeLimit excessClauses = mergeBuffers p chk buffers sizeLimit excessClauses) ∧
    ∀ (db db' : AdaptiveClauseDatabase) (clauses : Multiset Clause) (options : ExportOptions) (buffer : List Int)
      (n : Nat) (cs : List Clause), db.Stores clauses → (∀ c ∈ clauses, 1 ≤ c.lbd ∧ 0 ∉ c.lits) →
      db.maxLbdPartitionedSize = p → db.useChecksum = chk → db.exportBuffer options = .ok (buffer, n, db') →
      decode p false buffer = .ok cs → cs ≠ [] → (cs.Pairwise fun c d => clauseComparator c d = true) →
      ∀ copies, 1 ≤ copies → buffer.length ≤ sizeLimit →
        mergeBuffers p chk (List.replicate copies (buffer, chk)) sizeLimit false = .ok (buffer, none) ∧
        mergeBuffers p chk (List.replicate copies (buffer, chk)) sizeLimit true = .ok (buffer, some [1]) := by
  refine ⟨mergeBuffers_contents hp hvalid, fun buffers' excessClauses hperm => mergeBuffers_perm hp hvalid hperm, ?_⟩
  rintro db db' clauses options buffer n cs hstores hclauses rfl rfl hexport hdec hne hsorted copies hcopies hfits
  have hlt : cs.Pairwise (· < ·) := by
    refine hsorted.imp fun hcd => ?_
    rw [clauseComparator_eq] at hcd
    exact of_decide_eq_true hcd
  exact ⟨hstores.mergeBuffers_copies hclauses hp hexport hdec hne hlt hcopies hfits,
    hstores.mergeBuffers_copies hclauses hp hexport hdec hne hlt hcopies hfits⟩

/-- Two buffers with a common clause, an empty one, and a limit that the last clause exceeds. -/
theorem mergeBuffers_spec_three : ∃ main excess,
    mergeBuffers 2 false [([0, 0, 1, 5, 1, -3, 4], false), ([], false), ([0, 0, 0, 2, -3, 4, 1, 2], false)] 8 true =
      .ok (main, some excess) ∧
    decode 2 false main = .ok [⟨[5], 1⟩, ⟨[-3, 4], 2⟩] ∧ decode 2 false excess = .ok [⟨[1, 2], 2⟩] := by
  have hvalid : List.Forall₂ (ValidBuffer 2)
      [([0, 0, 1, 5, 1, -3, 4], false), ([], false), ([0, 0, 0, 2, -3, 4, 1, 2], false)]
      [[⟨[5], 1⟩, ⟨[-3, 4], 2⟩], [], [⟨[-3, 4], 2⟩, ⟨[1, 2], 2⟩]] :=
    .cons ⟨by decide +kernel, by decide, by decide⟩ (.cons ⟨by decide +kernel, by decide, by decide⟩
      (.cons ⟨by decide +kernel, by decide, by decide⟩ .nil))
  obtain ⟨⟨main, excess, ms, es, hmerge, -, hms, hes, -⟩, -⟩ := mergeBuffers_spec 2 false (by decide) _ _ hvalid 8
  have hrun : (mergeBuffers 2 false [([0, 0, 1, 5, 1, -3, 4], false), ([], false), ([0, 0, 0, 2, -3, 4, 1, 2], false)] 8
      true).map (fun r => (decode 2 false r.1, r.2.map (decode 2 false))) =
        .ok (.ok [⟨[5], 1⟩, ⟨[-3, 4], 2⟩], some (.ok [⟨[1, 2], 2⟩])) := by decide +kernel
  rw [hmerge] at hrun
  simp only [Except.map, Option.map_some, hms, hes, Except.ok.injEq, Prod.mk.injEq, Option.some.injEq] at hrun
  exact ⟨main, excess, hmerge, by rw [hms, hrun.1], by rw [hes, hrun.2]⟩

end Mallob.Sharing
