import Mallob.StoredClauses
import Mallob.MergedClauses

namespace Mallob.Sharing

variable {p i j m : Nat} {bs : List (List (List Int))} {c d : Clause} {e e' : List Int}

theorem exists_trimmed (bs : List (List (List Int))) :
    ∃ bs' m, bs = bs' ++ List.replicate m [] ∧ ∀ es ∈ bs'.getLast?, es ≠ [] := by
  induction bs using List.reverseRecOn with
  | nil => exact ⟨[], 0, rfl, by simp⟩
  | append_singleton bs es ih =>
      by_cases hes : es = []
      · obtain ⟨bs', m, hbs, hlast⟩ := ih
        refine ⟨bs', m + 1, ?_, hlast⟩
        rw [List.replicate_succ', ← List.append_assoc, ← hbs, hes]
      · exact ⟨bs ++ [es], 0, by simp, by simp [hes]⟩

theorem rdropWhile_zeroes {xs : List Int} (h : ∀ x ∈ xs.getLast?, x ≠ 0) (m : Nat) :
    (xs ++ List.replicate m 0).rdropWhile (· == 0) = xs := by
  induction m with
  | zero =>
      rw [List.replicate_zero, List.append_nil, List.rdropWhile_eq_self_iff]
      intro hne
      simpa using h _ (List.getLast_mem_getLast? hne)
  | succ m ih => rw [List.replicate_succ', ← List.append_assoc, List.rdropWhile_concat_pos _ _ _ (by simp), ih]

theorem getLast?_encodeBuckets_ne (h : Placed p i bs) (hlast : ∀ es ∈ bs.getLast?, es ≠ []) :
    ∀ x ∈ (encodeBuckets bs).getLast?, x ≠ 0 := by
  rcases List.eq_nil_or_concat bs with rfl | ⟨done, es, rfl⟩
  · simp [encodeBuckets]
  · have hes : es ≠ [] := hlast es (by simp)
    obtain ⟨fs, e, rfl⟩ := (List.eq_nil_or_concat es).resolve_left hes
    rw [List.concat_eq_append, List.concat_eq_append] at h
    have he : EntryOf p (i + done.length) e := by
      have hes := (placed_append.mp h).2
      exact hes.1 e (by simp)
    obtain ⟨ints, x, rfl⟩ := (List.eq_nil_or_concat e).resolve_left (by rintro rfl; exact absurd he.length_pos (by simp))
    have hend : (encodeBuckets (done.concat (fs.concat (ints.concat x)))).getLast? = some x := by
      have hsplit : encodeBuckets (done.concat (fs.concat (ints.concat x))) =
          (encodeBuckets done ++ ((fs.length + 1 : Int) :: (fs.flatten ++ ints))) ++ [x] := by
        simp [encodeBuckets_append, encodeBuckets]
      rw [hsplit, List.getLast?_concat]
    intro y hy
    rw [hend] at hy
    obtain rfl := Option.some.inj hy
    exact he.2 x (by simp)

/-- Cutting off the zeroes at the end cuts off the counters of empty buckets only. -/
theorem removeTrailingZeroes_encoded (h : Placed p 0 bs) (hlast : ∀ es ∈ bs.getLast?, es ≠ []) (hne : bs ≠ []) (m : Nat) :
    removeTrailingZeroes ([0, 0] ++ encodeBuckets (bs ++ List.replicate m [])) = [0, 0] ++ encodeBuckets bs := by
  have hend : ∀ x ∈ (0 :: encodeBuckets bs).getLast?, x ≠ 0 := by
    cases hbs : encodeBuckets bs with
    | nil =>
        cases bs with
        | nil => exact absurd rfl hne
        | cons es bs => cases hbs
    | cons y ys =>
        rw [List.getLast?_cons_cons, ← hbs]
        exact getLast?_encodeBuckets_ne h hlast
  have hdrop : ([0, 0] ++ encodeBuckets (bs ++ List.replicate m [])).drop 1 =
      (0 :: encodeBuckets bs) ++ List.replicate m 0 := by
    rw [encodeBuckets_append, AdaptiveClauseDatabase.encodeBuckets_replicate]
    rfl
  rw [removeTrailingZeroes, hdrop, rdropWhile_zeroes hend]
  rfl

theorem removeTrailingZeroes_empty (m : Nat) :
    removeTrailingZeroes ([0, 0] ++ encodeBuckets (List.replicate m [])) = [0] := by
  have hdrop : ([0, 0] ++ encodeBuckets (List.replicate m [])).drop 1 = [] ++ List.replicate (m + 1) 0 := by
    rw [AdaptiveClauseDatabase.encodeBuckets_replicate, List.replicate_succ]
    rfl
  rw [removeTrailingZeroes, hdrop, rdropWhile_zeroes (by simp)]
  rfl

theorem writeChecksum_header (hash : Nat) (rest : List Int) :
    writeChecksum hash ([0, 0] ++ rest) = checksumInts hash ++ rest := by
  simp [writeChecksum, checksumInts]

theorem decode_singleton (p : Nat) (x : Int) : decode p false [x] = .ok [] := rfl

theorem size_decodeEntry (hlen : e.length = effectiveSize p (bucketAt p i).size) :
    (decodeEntry p i e).size = (bucketAt p i).size := by
  rw [effectiveSize] at hlen
  rw [decodeEntry]
  split
  · next hp =>
      rw [if_pos hp] at hlen
      exact hlen
  · next hp =>
      rw [if_neg hp] at hlen
      rw [Clause.size, List.length_tail, hlen, Nat.add_sub_cancel]

theorem EntryOf.inBucket (h : EntryOf p i e) : (decodeEntry p i e).InBucket p i := by
  have hsize := size_decodeEntry h.1
  refine ⟨hsize, fun hle => ?_⟩
  rw [hsize] at hle
  rw [decodeEntry, if_pos hle]

theorem Clause.InBucket.slotPosition_eq (h : c.InBucket p i) : slotPosition p c.size c.lbd = i := by
  have hi := slotPosition_bucketAt p i
  rw [h.size_eq]
  by_cases hp : (bucketAt p i).size ≤ p
  · rw [h.lbd_eq (by rw [h.size_eq]; exact hp)]
    exact hi
  · rw [slotPosition_nonpartitioned (by omega)] at hi ⊢
    exact hi

/-- In one bucket, the order of the integers is the order of the clauses. -/
theorem decodeEntry_le (he : EntryOf p i e) (he' : EntryOf p i e') (h : e ≤ e') :
    decodeEntry p i e ≤ decodeEntry p i e' := by
  have hsize : (decodeEntry p i e).size = (decodeEntry p i e').size := by
    rw [he.inBucket.size_eq, he'.inBucket.size_eq]
  rw [← not_lt, Clause.lt_iff]
  rintro (hlt | ⟨-, hlt⟩)
  · omega
  · rw [decodeEntry, decodeEntry] at hlt
    split at hlt
    · simp only [lt_irrefl, true_and, false_or] at hlt
      exact absurd h (not_le.mpr hlt)
    · obtain ⟨x, xs, rfl⟩ := List.exists_cons_of_length_pos he.length_pos
      obtain ⟨y, ys, rfl⟩ := List.exists_cons_of_length_pos he'.length_pos
      refine absurd h (not_le.mpr (List.cons_lt_cons_iff.mpr ?_))
      simpa using hlt

theorem inBucket_of_mem (h : Placed p i bs) (hc : c ∈ decodeBuckets p i bs) : ∃ j, i ≤ j ∧ c.InBucket p j := by
  induction bs generalizing i with
  | nil => cases hc
  | cons es bs ih =>
      rcases List.mem_append.mp hc with hc | hc
      · obtain ⟨e, he, rfl⟩ := List.mem_map.mp hc
        exact ⟨i, le_rfl, (h.1 e he).inBucket⟩
      · obtain ⟨j, hj, hcj⟩ := ih h.2 hc
        exact ⟨j, by omega, hcj⟩

theorem pairwise_slotPosition (h : Placed p i bs) :
    (decodeBuckets p i bs).Pairwise fun c d => slotPosition p c.size c.lbd ≤ slotPosition p d.size d.lbd := by
  induction bs generalizing i with
  | nil => exact .nil
  | cons es bs ih =>
      have hfirst : ∀ c ∈ es.map (decodeEntry p i), slotPosition p c.size c.lbd = i := by
        intro c hc
        obtain ⟨e, he, rfl⟩ := List.mem_map.mp hc
        exact (h.1 e he).inBucket.slotPosition_eq
      refine List.pairwise_append.mpr ⟨List.pairwise_of_forall_mem_list ?_, ih h.2, ?_⟩
      · intro c hc d hd
        rw [hfirst c hc, hfirst d hd]
      · intro c hc d hd
        obtain ⟨j, hj, hdj⟩ := inBucket_of_mem h.2 hd
        rw [hfirst c hc, hdj.slotPosition_eq]
        omega

theorem pairwise_le_decodeBuckets (h : Placed p i bs) (hsorted : ∀ es ∈ bs, es.Pairwise (· ≤ ·)) :
    (decodeBuckets p i bs).Pairwise (· ≤ ·) := by
  induction bs generalizing i with
  | nil => exact .nil
  | cons es bs ih =>
      refine List.pairwise_append.mpr ⟨?_, ih h.2 fun fs hfs => hsorted fs (List.mem_cons_of_mem _ hfs), ?_⟩
      · refine List.pairwise_map.mpr ?_
        refine (hsorted es (List.mem_cons_self ..)).imp_of_mem fun he he' hle => ?_
        exact decodeEntry_le (h.1 _ he) (h.1 _ he') hle
      · intro c hc d hd
        obtain ⟨e, he, rfl⟩ := List.mem_map.mp hc
        obtain ⟨j, hj, hdj⟩ := inBucket_of_mem h.2 hd
        refine le_of_not_ge fun hdc => ?_
        have := hdj.le_of_le (h.1 e he).inBucket hdc
        omega

theorem zero_notMem_of_decodeBuckets (h : ∀ c ∈ decodeBuckets p i bs, c.lbd ≠ 0 ∧ 0 ∉ c.lits) :
    ∀ es ∈ bs, ∀ e ∈ es, 0 ∉ e := by
  induction bs generalizing i with
  | nil => simp
  | cons es bs ih =>
      intro fs hfs e he
      rcases List.mem_cons.mp hfs with rfl | hfs
      · have hc := h _ (List.mem_append_left _ (List.mem_map_of_mem he))
        rw [decodeEntry] at hc
        split at hc
        · exact hc.2
        · cases e with
          | nil => simp
          | cons x xs =>
              simp only [List.headD_cons, List.tail_cons] at hc
              simp only [List.mem_cons, not_or]
              exact ⟨fun h => hc.1 h.symm, hc.2⟩
      · exact ih (fun c hc => h c (List.mem_append_right _ hc)) fs hfs e he

namespace AdaptiveClauseDatabase

variable {db db' : AdaptiveClauseDatabase} {options : ExportOptions} {buffer : List Int} {n : Nat} {chk : Bool}

theorem Exported.decode_buffer (h : Exported db options bs buffer n db') (hp : 1 ≤ db.maxLbdPartitionedSize)
    (hbs : ∀ es ∈ bs, ∀ e ∈ es, 0 ∉ e)
    (hchk : chk = true → db.useChecksum = true ∧ decodeBuckets db.maxLbdPartitionedSize 0 bs ≠ []) :
    decode db.maxLbdPartitionedSize chk buffer = .ok (decodeBuckets db.maxLbdPartitionedSize 0 bs) := by
  have hplaced := h.placed hbs
  obtain ⟨bs', m, rfl, hlast⟩ := exists_trimmed bs
  have hdecoded : decodeBuckets db.maxLbdPartitionedSize 0 (bs' ++ List.replicate m []) =
      decodeBuckets db.maxLbdPartitionedSize 0 bs' := by
    rw [decodeBuckets_append, decodeBuckets_replicate, List.append_nil]
  rw [h.buffer_eq, hdecoded]
  by_cases hne : bs' = []
  · subst hne
    have hread : chk = false := by
      cases chk with
      | false => rfl
      | true => exact absurd hdecoded (hchk rfl).2
    rw [hread, List.nil_append, removeTrailingZeroes_empty]
    exact decode_singleton _ _
  · have hplaced' := (placed_append.mp hplaced).1
    rw [removeTrailingZeroes_encoded hplaced' hlast hne, writeChecksum_header]
    refine decode_encoded hp hplaced' (checksumInts _) rfl fun hc => ?_
    have hflat : (bs' ++ List.replicate m []).flatten = bs'.flatten := by simp
    rw [if_pos (hchk hc).1, hflat]
    exact readChecksum_checksumInts (combineEntries_lt (by decide) _) _

theorem zero_of_slot {slot : ClauseSlot} (hslot : slot ∈ db.slots)
    (hzero : ∃ e ∈ ClauseSlot.stored slot.entrySize slot.inner, 0 ∈ e) :
    ∃ c ∈ db.contents, c.lbd = 0 ∨ 0 ∈ c.lits := by
  obtain ⟨e, he, hmem⟩ := hzero
  have hcontents : ∀ (slots : List ClauseSlot) (i : Nat), slot ∈ slots →
      ∃ j, decodeEntry db.maxLbdPartitionedSize j e ∈ contentsFrom db.maxLbdPartitionedSize i slots := by
    intro slots
    induction slots with
    | nil => intro i hs; cases hs
    | cons slot' slots ih =>
        intro i hs
        rcases List.mem_cons.mp hs with rfl | hs
        · exact ⟨i, Multiset.mem_add.mpr (Or.inl (Multiset.mem_map_of_mem _ he))⟩
        · obtain ⟨j, hj⟩ := ih (i + 1) hs
          exact ⟨j, Multiset.mem_add.mpr (Or.inr hj)⟩
  obtain ⟨j, hj⟩ := hcontents db.slots 0 hslot
  refine ⟨_, hj, ?_⟩
  rw [decodeEntry]
  split
  · exact Or.inr hmem
  · cases e with
    | nil => cases hmem
    | cons x xs =>
        rcases List.mem_cons.mp hmem with rfl | hmem
        · exact Or.inl rfl
        · exact Or.inr hmem

theorem exists_part_of_map_eq_add {α β : Type} [DecidableEq α] (f : α → β) {M : Multiset α} {A B : Multiset β}
    (h : M.map f = A + B) : ∃ R ≤ M, R.map f = A ∧ (M - R).map f = B := by
  induction A using Multiset.induction generalizing M with
  | empty => exact ⟨0, Multiset.zero_le _, rfl, by simpa using h⟩
  | cons b A ih =>
      rw [Multiset.cons_add] at h
      obtain ⟨a, ha, rfl, hrest⟩ := (Multiset.map_eq_cons ..).mpr h
      obtain ⟨R, hR, hmap, hsub⟩ := ih hrest
      refine ⟨a ::ₘ R, ?_, by rw [Multiset.map_cons, hmap], by rw [Multiset.sub_cons, hsub]⟩
      rw [← Multiset.cons_erase ha]
      exact Multiset.cons_le_cons a hR

theorem length_decodeBuckets (p i : Nat) (bs : List (List (List Int))) :
    (decodeBuckets p i bs).length = bs.flatten.length := by
  induction bs generalizing i with
  | nil => rfl
  | cons es bs ih => simp [decodeBuckets, ih]

/-- An export takes some of the clauses out of the database and writes them. -/
theorem Stores.exportBuffer {clauses : Multiset Clause} (h : db.Stores clauses)
    (hclauses : ∀ c ∈ clauses, 1 ≤ c.lbd ∧ 0 ∉ c.lits) (options : ExportOptions) :
    ∃ bs buffer n db' removed, db.exportBuffer options = .ok (buffer, n, db') ∧ Exported db options bs buffer n db' ∧
      (∀ c ∈ decodeBuckets db.maxLbdPartitionedSize 0 bs, options.Admits c.size) ∧ (∀ es ∈ bs, ∀ e ∈ es, 0 ∉ e) ∧
      removed ≤ clauses ∧
      removed.map (readBack db.maxLbdPartitionedSize) = (decodeBuckets db.maxLbdPartitionedSize 0 bs : Multiset Clause) ∧
      db'.Stores (clauses - removed) := by
  have hnonzero : ∀ c ∈ db.contents, c.lbd ≠ 0 ∧ 0 ∉ c.lits := by
    intro c hc
    rw [h.contents_eq] at hc
    obtain ⟨d, hd, rfl⟩ := Multiset.mem_map.mp hc
    exact ⟨readBack_ne (hclauses d hd).1, (hclauses d hd).2⟩
  rcases h.sound.exportBuffer options with ⟨-, slot, hslot, hzero⟩ | ⟨bs, buffer, n, db', hok, hexp, hadmits⟩
  · obtain ⟨c, hc, hzero⟩ := zero_of_slot hslot hzero
    have := hnonzero c hc
    tauto
  · have hdecoded : ∀ c ∈ decodeBuckets db.maxLbdPartitionedSize 0 bs, c.lbd ≠ 0 ∧ 0 ∉ c.lits := by
      intro c hc
      refine hnonzero c ?_
      rw [hexp.contents_eq]
      exact Multiset.mem_add.mpr (Or.inl hc)
    obtain ⟨removed, hle, hremoved, hrest⟩ :=
      exists_part_of_map_eq_add (readBack db.maxLbdPartitionedSize) (h.contents_eq.symm.trans hexp.contents_eq)
    refine ⟨bs, buffer, n, db', removed, hok, hexp, hadmits, zero_notMem_of_decodeBuckets hdecoded, hle, hremoved,
      hexp.sound, ?_⟩
    rw [hexp.partition_eq]
    exact hrest.symm

/-- Reading an exported buffer yields the clauses that were taken out of the database. -/
theorem exportBuffer_roundTrip (db : AdaptiveClauseDatabase) (clauses : Multiset Clause) (options : ExportOptions)
    (h : db.Stores clauses) (hp : 1 ≤ db.maxLbdPartitionedSize) (hclauses : ∀ c ∈ clauses, 1 ≤ c.lbd ∧ 0 ∉ c.lits) :
    ∃ buffer n db' cs removed, db.exportBuffer options = .ok (buffer, n, db') ∧
      decode db.maxLbdPartitionedSize false buffer = .ok cs ∧
      removed ≤ clauses ∧ (cs : Multiset Clause) = removed.map (readBack db.maxLbdPartitionedSize) ∧
      db'.Stores (clauses - removed) ∧ cs.length = n ∧
      (cs.Pairwise fun c d => slotPosition db.maxLbdPartitionedSize c.size c.lbd ≤
        slotPosition db.maxLbdPartitionedSize d.size d.lbd) ∧
      (options.sortClauses = true → cs.Pairwise fun c d => clauseComparator d c = false) ∧
      (db.useChecksum = true → cs ≠ [] → decode db.maxLbdPartitionedSize true buffer = .ok cs) := by
  obtain ⟨bs, buffer, n, db', removed, hok, hexp, -, hbs, hle, hremoved, hstores⟩ := h.exportBuffer hclauses options
  have hplaced := hexp.placed hbs
  refine ⟨buffer, n, db', _, removed, hok, hexp.decode_buffer hp hbs (by simp), hle, hremoved.symm, hstores, ?_,
    pairwise_slotPosition hplaced, fun hsort => ?_, fun hchk hne => hexp.decode_buffer hp hbs fun _ => ⟨hchk, hne⟩⟩
  · rw [hexp.count_eq]
    exact length_decodeBuckets _ _ _
  · refine (pairwise_le_decodeBuckets hplaced (hexp.sorted hsort)).imp fun hle => ?_
    rw [clauseComparator_eq]
    exact decide_eq_false (not_lt.mpr hle)

/-- A database with clauses in three buckets, read back under a limit that leaves one of them behind. -/
theorem exportBuffer_roundTrip_three :
    ∃ db buffer n db' cs, (new 3 2 10 4 true).addClauses [⟨[3], 1⟩, ⟨[1, -2], 1⟩, ⟨[4, 5, -6], 3⟩] = some db ∧
      db.exportBuffer { sizeLimit := 7 } = .ok (buffer, n, db') ∧ decode 2 true buffer = .ok cs ∧
      cs = [⟨[3], 1⟩, ⟨[1, -2], 2⟩] := by
  have hsome : ((new 3 2 10 4 true).addClauses [⟨[3], 1⟩, ⟨[1, -2], 1⟩, ⟨[4, 5, -6], 3⟩]).isSome := by decide +kernel
  obtain ⟨db, hdb⟩ := Option.isSome_iff_exists.mp hsome
  have hstores : db.Stores _ := (stores_new 3 2 10 4 true).1.addClauses ((stores_new 3 2 10 4 true).2 (by decide))
    (by decide) hdb
  have hdb' : db.maxLbdPartitionedSize = 2 ∧ db.useChecksum = true ∧
      (db.exportBuffer { sizeLimit := 7 }).map (fun r => decode 2 false r.1) = .ok (.ok [⟨[3], 1⟩, ⟨[1, -2], 2⟩]) := by
    have hall : ((new 3 2 10 4 true).addClauses [⟨[3], 1⟩, ⟨[1, -2], 1⟩, ⟨[4, 5, -6], 3⟩]).all
        (fun db => db.maxLbdPartitionedSize = 2 ∧ db.useChecksum = true ∧
          (db.exportBuffer { sizeLimit := 7 }).map (fun r => decode 2 false r.1) =
            .ok (.ok [⟨[3], 1⟩, ⟨[1, -2], 2⟩])) = true := by decide +kernel
    rw [hdb] at hall
    simpa using hall
  obtain ⟨hp, hchk, hexport⟩ := hdb'
  obtain ⟨buffer, n, db', cs, removed, hok, hdec, -, -, -, -, -, -, hsum⟩ :=
    exportBuffer_roundTrip db _ { sizeLimit := 7 } hstores (by rw [hp]; decide) (by decide)
  rw [hp] at hdec hsum
  rw [hok] at hexport
  have hcs : cs = [⟨[3], 1⟩, ⟨[1, -2], 2⟩] := by
    have : decode 2 false buffer = .ok [⟨[3], 1⟩, ⟨[1, -2], 2⟩] := by simpa [Except.map] using hexport
    rw [hdec] at this
    exact Except.ok.inj this
  exact ⟨db, buffer, n, db', cs, hdb, hok, hsum hchk (by rw [hcs]; simp), hcs⟩

end AdaptiveClauseDatabase

end Mallob.Sharing
