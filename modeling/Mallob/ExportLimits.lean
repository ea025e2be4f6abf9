import Mallob.BufferRoundTrip

namespace Mallob.Sharing.AdaptiveClauseDatabase

variable {p i n : Nat} {db db' : AdaptiveClauseDatabase} {options : ExportOptions} {st st' : ExportState}
  {slot slot' : ClauseSlot} {slots : List ClauseSlot}

def Opens (p : Nat) (options : ExportOptions) (st : ExportState) : Prop :=
  (options.sizeLimit < 0 ∨ (st.selection.length : Int) < options.sizeLimit) ∧ options.Admits st.bucket.size ∧
    (options.sizeLimit < 0 ∨ (st.selection.length + effectiveSize p st.bucket.size : Int) ≤ options.sizeLimit)

instance (p : Nat) (options : ExportOptions) (st : ExportState) : Decidable (Opens p options st) :=
  inferInstanceAs (Decidable ((_ ∨ _) ∧ ((_ ∨ _) ∧ (_ ∨ _)) ∧ (_ ∨ _)))

def countedLength (st : ExportState) : Nat :=
  st.selection.length + (st.bufIdx - st.lastPushedCounterIdx).toNat

def subtractedLengths (db : AdaptiveClauseDatabase) (options : ExportOptions) :
    List ClauseSlot → ExportState → List Nat
  | [], _ => []
  | slot :: slots, st =>
      (if Opens db.maxLbdPartitionedSize options st then [countedLength st] else []) ++
        match db.visitSlot options slot st with
        | .error _ => []
        | .ok (st, slot') => db.subtractedLengths options slots { st with
            bucket := st.bucket.next db.maxLbdPartitionedSize
            bufIdx := st.bufIdx + 1
            slots := st.slots ++ [slot'] }

/-- If the first slot with a permitted clause length has room for a clause
behind the checksum, then the counters up to the one of this slot fit as well. -/
def RoomForCounters (db : AdaptiveClauseDatabase) (options : ExportOptions) : Prop :=
  ∀ i < db.slots.length, options.Admits (bucketAt db.maxLbdPartitionedSize i).size →
    (∀ j < i, ¬options.Admits (bucketAt db.maxLbdPartitionedSize j).size) →
    (2 + effectiveSize db.maxLbdPartitionedSize (bucketAt db.maxLbdPartitionedSize i).size : Int) ≤ options.sizeLimit →
    (3 + i : Int) ≤ options.sizeLimit

theorem effectiveSize_mono (p : Nat) {s s' : Nat} (h : s ≤ s') : effectiveSize p s ≤ effectiveSize p s' := by
  rw [effectiveSize, effectiveSize]
  split
  · omega
  · next hp => rw [if_neg (by omega)]; omega

theorem length_flatten_chunksOf_le (n : Nat) (xs : List Int) : (chunksOf n xs).flatten.length ≤ xs.length := by
  have hle : ((chunksOf n xs).map List.length).sum ≤ ((chunksOf n xs).map List.length).length • n := by
    refine List.sum_le_card_nsmul _ n fun k hk => ?_
    obtain ⟨e, he, rfl⟩ := List.mem_map.mp hk
    obtain ⟨i, -, rfl⟩ := List.mem_map.mp he
    exact List.length_take_le n _
  rw [List.length_map, ClauseSlot.length_chunksOf, smul_eq_mul] at hle
  rw [List.length_flatten]
  exact hle.trans (Nat.div_mul_le_self ..)

theorem visitSlot_of_opens (h : Opens db.maxLbdPartitionedSize options st) :
    db.visitSlot options slot st = exportSlot db.useChecksum options.sortClauses options.sizeLimit
      (effectiveSize db.maxLbdPartitionedSize st.bucket.size) slot st := by
  obtain ⟨hloop, ⟨hmin, hmax⟩, hfits⟩ := h
  rw [AdaptiveClauseDatabase.visitSlot]
  rw [if_pos hloop, if_pos ⟨hmin, hmax, hfits⟩]

/-- A slot from which nothing is requested leaves the selection as it is. -/
theorem visitSlot_of_not_opens (h : ¬Opens db.maxLbdPartitionedSize options st)
    (hslot : slot.Sound) (hok : db.visitSlot options slot st = .ok (st', slot')) :
    st'.selection = st.selection ∧ st'.lastPushedCounterIdx = st.lastPushedCounterIdx ∧ st'.bufIdx = st.bufIdx ∧
      st'.bucket = st.bucket := by
  rw [AdaptiveClauseDatabase.visitSlot] at hok
  split at hok
  · next hloop =>
      rw [if_neg fun hc => h ⟨hloop, ⟨hc.1, hc.2.1⟩, hc.2.2⟩] at hok
      obtain ⟨rfl, -⟩ := Prod.mk.inj (Except.ok.inj hok)
      exact ⟨rfl, rfl, rfl, rfl⟩
  · rw [searchStale] at hok
    rcases hslot.getClauses st.selection 0 with ⟨herror, -⟩ | ⟨es, slot₁, released, hget, -, -, -, -, -, hbound⟩
    · rw [herror] at hok
      cases hok
    · obtain rfl : es = [] := List.length_eq_zero_iff.mp (by have := hbound le_rfl; omega)
      simp only [hget, bind, Except.bind] at hok
      cases hsink : sinkChunks st.chunkMgr released with
      | error e =>
          rw [hsink] at hok
          cases hok
      | ok mgr =>
          rw [hsink] at hok
          obtain ⟨rfl, -⟩ := Prod.mk.inj (Except.ok.inj hok)
          exact ⟨by simp, rfl, rfl, rfl⟩

theorem exportSlot_length_le {chk sort : Bool} {sizeLimit : Int} {size : Nat} (hslot : slot.Sound)
    (hsize : size = slot.entrySize) (hfits : (countedLength st : Int) ≤ sizeLimit)
    (hok : exportSlot chk sort sizeLimit size slot st = .ok (st', slot')) :
    (st'.selection.length : Int) ≤ sizeLimit ∧ st'.lastPushedCounterIdx = st.bufIdx ∧ st'.bufIdx = st.bufIdx ∧
      st'.bucket = st.bucket := by
  subst hsize
  have hpos := ClauseSlot.entrySize_pos hslot
  rw [exportSlot] at hok
  have hcounted : (st.selection ++ List.replicate (st.bufIdx - st.lastPushedCounterIdx).toNat 0).length =
      countedLength st := by
    rw [List.length_append, List.length_replicate, countedLength]
  generalize hselection : st.selection ++ List.replicate (st.bufIdx - st.lastPushedCounterIdx).toNat 0 = selection at *
  simp only at hok
  rcases hslot.getClauses selection (numDesired sizeLimit selection.length slot.entrySize) with
    ⟨herror, -⟩ | ⟨es, slot₁, released, hget, -, -, hstored, -, -, hbound⟩
  · rw [herror] at hok
    cases hok
  · have hnum : numDesired sizeLimit selection.length slot.entrySize =
        (sizeLimit - selection.length) / slot.entrySize := by
      rw [numDesired, if_neg (by omega), if_neg (by omega)]
    have hes : (es.length : Int) ≤ (sizeLimit - selection.length) / slot.entrySize := by
      rw [← hnum]
      exact hbound (by rw [hnum]; exact Int.ediv_nonneg (by omega) (by omega))
    have hroom : (es.flatten.length : Int) ≤ sizeLimit - selection.length := by
      have hlen : es.flatten.length = es.length * slot.entrySize := by
        rw [List.length_flatten, List.map_congr_left fun e he => ClauseSlot.Sound.length_eq hslot e
          (by rw [hstored]; exact Multiset.mem_add.mpr (Or.inl he))]
        simp
      have hmul := Int.mul_le_mul_of_nonneg_right hes (Int.natCast_nonneg slot.entrySize)
      have hdiv := Int.ediv_mul_le (sizeLimit - selection.length) (b := slot.entrySize) (by omega)
      rw [hlen]
      push_cast
      exact hmul.trans hdiv
    simp only [hget, bind, Except.bind] at hok
    cases hsink : sinkChunks st.chunkMgr released with
    | error e =>
        rw [hsink] at hok
        cases hok
    | ok mgr =>
        rw [hsink] at hok
        obtain ⟨rfl, -⟩ := Prod.mk.inj (Except.ok.inj hok)
        refine ⟨?_, rfl, rfl, rfl⟩
        generalize hclauses : chunksOf slot.entrySize (((selection ++ es.flatten).modify (selection.length - 1)
          (· + (es.length : Int))).drop selection.length) = clauses
        have hwritten : clauses.flatten.length ≤ es.flatten.length := by
          rw [← hclauses]
          refine (length_flatten_chunksOf_le _ _).trans ?_
          simp
        have hsorted : (if sort then sortClauses clauses else clauses).flatten.length = clauses.flatten.length := by
          split
          · exact (List.perm_insertionSort _ clauses).flatten.length_eq
          · rfl
        simp only [List.length_append, hsorted, List.length_take, List.length_modify]
        omega

structure Fresh (p : Nat) (options : ExportOptions) (st : ExportState) : Prop where
  length_eq : st.selection.length = 2
  counter_eq : st.lastPushedCounterIdx = -1
  before : ∀ j < st.bufIdx, ¬options.Admits (bucketAt p j).size

structure Counted (p : Nat) (options : ExportOptions) (st : ExportState) : Prop where
  length_le : (st.selection.length : Int) ≤ options.sizeLimit
  ahead : (st.lastPushedCounterIdx = st.bufIdx - 1 ∧ ∃ j < st.bufIdx, options.Admits (bucketAt p j).size) ∨
    ∀ j ≥ st.bufIdx, options.Admits (bucketAt p j).size →
      options.sizeLimit < st.selection.length + effectiveSize p (bucketAt p j).size

theorem admits_between {i j k : Nat} (hij : i ≤ j) (hjk : j ≤ k) (hi : options.Admits (bucketAt p i).size)
    (hk : options.Admits (bucketAt p k).size) : options.Admits (bucketAt p j).size := by
  have hmin := @bucketAt_size_mono p i j hij
  have hmax := @bucketAt_size_mono p j k hjk
  refine ⟨hi.1.imp_right fun h => ?_, hk.2.imp_right fun h => ?_⟩
  · omega
  · omega

/-- Where nothing is requested though a clause of a permitted length comes next, nothing is requested later. -/
theorem full_of_not_opens (hbucket : st.bucket = bucketAt p st.bufIdx) (h : ¬Opens p options st)
    (hadmits : options.Admits (bucketAt p st.bufIdx).size) (j : Nat) (hj : st.bufIdx ≤ j) :
    options.sizeLimit < st.selection.length + effectiveSize p (bucketAt p j).size := by
  have hmono := effectiveSize_mono p (@bucketAt_size_mono p st.bufIdx j hj)
  have hpos := @effectiveSize_pos p _ (bucketAt_size_pos p st.bufIdx)
  rw [Opens, hbucket] at h
  by_contra hle
  exact h ⟨Or.inr (by omega), hadmits, Or.inr (by omega)⟩

theorem Opens.room (h : Opens p options st) (hbucket : st.bucket = bucketAt p st.bufIdx)
    (hlimit : 0 ≤ options.sizeLimit) :
    (st.selection.length + effectiveSize p (bucketAt p st.bufIdx).size : Int) ≤ options.sizeLimit := by
  rw [← hbucket]
  exact h.2.2.resolve_left (by omega)

theorem Opens.countedLength_le (h : Opens db.maxLbdPartitionedSize options st)
    (hbucket : st.bucket = bucketAt db.maxLbdPartitionedSize st.bufIdx) (hlimit : 0 ≤ options.sizeLimit)
    (hroom : RoomForCounters db options) (hidx : st.bufIdx < db.slots.length)
    (hphase : Fresh db.maxLbdPartitionedSize options st ∨ Counted db.maxLbdPartitionedSize options st) :
    (countedLength st : Int) ≤ options.sizeLimit := by
  have hfits := h.room hbucket hlimit
  have hadmits : options.Admits (bucketAt db.maxLbdPartitionedSize st.bufIdx).size := hbucket ▸ h.2.1
  rcases hphase with hfresh | hcounted
  · have hfirst := hroom st.bufIdx hidx hadmits hfresh.before (by rw [hfresh.length_eq] at hfits; exact hfits)
    rw [countedLength, hfresh.length_eq, hfresh.counter_eq]
    omega
  · rcases hcounted.ahead with ⟨hlast, -⟩ | hfull
    · have hpos := @effectiveSize_pos db.maxLbdPartitionedSize _ (bucketAt_size_pos db.maxLbdPartitionedSize st.bufIdx)
      rw [countedLength, hlast]
      omega
    · have := hfull st.bufIdx le_rfl hadmits
      omega

theorem visitSlot_within (hbucket : st.bucket = bucketAt db.maxLbdPartitionedSize st.bufIdx)
    (hlimit : 2 ≤ options.sizeLimit) (hroom : RoomForCounters db options) (hidx : st.bufIdx < db.slots.length)
    (hslot : SlotFor db.maxLbdPartitionedSize st.bufIdx slot)
    (hphase : Fresh db.maxLbdPartitionedSize options st ∨ Counted db.maxLbdPartitionedSize options st)
    (hok : db.visitSlot options slot st = .ok (st', slot')) (bucket : BucketLabel) (slots : List ClauseSlot) :
    st'.bufIdx = st.bufIdx ∧ st'.bucket = st.bucket ∧
      (Fresh db.maxLbdPartitionedSize options { st' with bucket := bucket, bufIdx := st'.bufIdx + 1, slots := slots } ∨
        Counted db.maxLbdPartitionedSize options
          { st' with bucket := bucket, bufIdx := st'.bufIdx + 1, slots := slots }) := by
  by_cases hopens : Opens db.maxLbdPartitionedSize options st
  · have hcounters := hopens.countedLength_le hbucket (by omega) hroom hidx hphase
    rw [visitSlot_of_opens hopens] at hok
    obtain ⟨hlength, hlast, hidx', hbucket'⟩ :=
      exportSlot_length_le hslot.sound (by rw [hbucket, hslot.entrySize_eq]) hcounters hok
    refine ⟨hidx', hbucket', Or.inr ⟨hlength, Or.inl ⟨?_, st.bufIdx, ?_, hbucket ▸ hopens.2.1⟩⟩⟩
    · simp only [hlast, hidx']
      push_cast
      ring
    · simp only [hidx']
      omega
  · obtain ⟨hselection, hlast, hidx', hbucket'⟩ := visitSlot_of_not_opens hopens hslot.sound hok
    refine ⟨hidx', hbucket', ?_⟩
    by_cases hadmits : options.Admits (bucketAt db.maxLbdPartitionedSize st.bufIdx).size
    · refine Or.inr ⟨?_, Or.inr fun j hj _ => ?_⟩
      · simp only [hselection]
        rcases hphase with hfresh | hcounted
        · rw [hfresh.length_eq]
          exact hlimit
        · exact hcounted.length_le
      · simp only [hselection]
        simp only [hidx'] at hj
        exact full_of_not_opens hbucket hopens hadmits j (by omega)
    · rcases hphase with hfresh | hcounted
      · refine Or.inl ⟨?_, ?_, fun j hj => ?_⟩
        · simp only [hselection, hfresh.length_eq]
        · simp only [hlast, hfresh.counter_eq]
        · simp only [hidx'] at hj
          rcases Nat.lt_succ_iff_lt_or_eq.mp hj with hlt | rfl
          · exact hfresh.before j hlt
          · exact hadmits
      · refine Or.inr ⟨?_, Or.inr fun j hj hj' => ?_⟩
        · simp only [hselection]
          exact hcounted.length_le
        · simp only [hidx'] at hj
          simp only [hselection]
          rcases hcounted.ahead with ⟨-, i, hi, hi'⟩ | hfull
          · exact absurd (admits_between hi.le (by omega) hi' hj') hadmits
          · exact hfull j (by omega) hj'

theorem exportSlots_within (hbucket : st.bucket = bucketAt db.maxLbdPartitionedSize st.bufIdx)
    (hlimit : 2 ≤ options.sizeLimit) (hroom : RoomForCounters db options)
    (hidx : st.bufIdx + slots.length = db.slots.length)
    (hslots : ∀ i slot, slots[i]? = some slot → SlotFor db.maxLbdPartitionedSize (st.bufIdx + i) slot)
    (hphase : Fresh db.maxLbdPartitionedSize options st ∨ Counted db.maxLbdPartitionedSize options st) :
    (∀ n ∈ db.subtractedLengths options slots st, (n : Int) ≤ options.sizeLimit) ∧
      ∀ st', db.exportSlots options slots st = .ok st' → (st'.selection.length : Int) ≤ options.sizeLimit := by
  induction slots generalizing st with
  | nil =>
      refine ⟨by simp [subtractedLengths], fun st' hok => ?_⟩
      obtain rfl := Except.ok.inj hok
      rcases hphase with hfresh | hcounted
      · rw [hfresh.length_eq]
        exact hlimit
      · exact hcounted.length_le
  | cons slot slots ih =>
      rw [List.length_cons] at hidx
      have hslot : SlotFor db.maxLbdPartitionedSize st.bufIdx slot := hslots 0 slot rfl
      have hhead : ∀ n ∈ (if Opens db.maxLbdPartitionedSize options st then [countedLength st] else []),
          (n : Int) ≤ options.sizeLimit := by
        intro n hn
        split at hn
        · next hopens =>
            rw [List.mem_singleton.mp hn]
            exact hopens.countedLength_le hbucket (by omega) hroom (by omega) hphase
        · cases hn
      rw [subtractedLengths, exportSlots]
      cases hok : db.visitSlot options slot st with
      | error e =>
          refine ⟨by simpa using hhead, fun st' h => ?_⟩
          cases h
      | ok r =>
          obtain ⟨st₁, slot'⟩ := r
          obtain ⟨hidx₁, hbucket₁, hphase₁⟩ := visitSlot_within hbucket hlimit hroom (by omega) hslot hphase hok
            (st₁.bucket.next db.maxLbdPartitionedSize) (st₁.slots ++ [slot'])
          have hrest := @ih { st₁ with
              bucket := st₁.bucket.next db.maxLbdPartitionedSize
              bufIdx := st₁.bufIdx + 1
              slots := st₁.slots ++ [slot'] } (by simp only [hbucket₁, hidx₁, hbucket]; rfl)
            (by simp only [hidx₁]; omega)
            (by
              intro i x hx
              have := hslots (i + 1) x hx
              simp only [hidx₁]
              rwa [Nat.add_assoc, Nat.add_comm 1 i])
            hphase₁
          exact ⟨fun n hn => (List.mem_append.mp hn).elim (hhead n) (hrest.1 n), hrest.2⟩

/-- The first slot with a permitted clause length is reached with the checksum alone in the selection. -/
theorem mem_subtractedLengths (hbucket : st.bucket = bucketAt db.maxLbdPartitionedSize st.bufIdx)
    (hfresh : Fresh db.maxLbdPartitionedSize options st) (hle : st.bufIdx ≤ i) (hlt : i < st.bufIdx + slots.length)
    (hadmits : options.Admits (bucketAt db.maxLbdPartitionedSize i).size)
    (hbefore : ∀ j < i, ¬options.Admits (bucketAt db.maxLbdPartitionedSize j).size)
    (hfits : (2 + effectiveSize db.maxLbdPartitionedSize (bucketAt db.maxLbdPartitionedSize i).size : Int) ≤
      options.sizeLimit) : 3 + i ∈ db.subtractedLengths options slots st := by
  have hpos := @effectiveSize_pos db.maxLbdPartitionedSize _ (bucketAt_size_pos db.maxLbdPartitionedSize i)
  have hlength := hfresh.length_eq
  induction slots generalizing st with
  | nil =>
      rw [List.length_nil] at hlt
      omega
  | cons slot slots ih =>
      rw [subtractedLengths]
      rcases Nat.eq_or_lt_of_le hle with heq | hlater
      · have hopens : Opens db.maxLbdPartitionedSize options st := by
          rw [Opens, hbucket, hlength, heq]
          exact ⟨Or.inr (by omega), hadmits, Or.inr hfits⟩
        have hcounted : countedLength st = 3 + i := by
          rw [countedLength, hlength, hfresh.counter_eq, heq]
          omega
        rw [if_pos hopens, hcounted]
        exact List.mem_append_left _ (List.mem_singleton.mpr rfl)
      · have hskipped : ¬options.Admits (bucketAt db.maxLbdPartitionedSize st.bufIdx).size := hbefore _ hlater
        have hpass : db.visitSlot options slot st = .ok (st, slot) := by
          rw [AdaptiveClauseDatabase.visitSlot, if_pos (Or.inr (by omega)),
            if_neg fun hc => hskipped (by rw [← hbucket]; exact ⟨hc.1, hc.2.1⟩)]
        rw [hpass]
        refine List.mem_append_right _ (@ih { st with
          bucket := st.bucket.next db.maxLbdPartitionedSize
          bufIdx := st.bufIdx + 1
          slots := st.slots ++ [slot] } ?_ ⟨hfresh.length_eq, hfresh.counter_eq, ?_⟩ hlater ?_ hfresh.length_eq)
        · simp only [hbucket]
          rfl
        · exact fun j hj => hbefore j (Nat.lt_of_lt_of_le hj hlater)
        · rw [List.length_cons] at hlt
          simp only
          omega

theorem length_removeTrailingZeroes_le (buffer : List Int) : (removeTrailingZeroes buffer).length ≤ buffer.length := by
  have hdrop := (List.rdropWhile_prefix (· == 0) (buffer.drop 1)).length_le
  rw [removeTrailingZeroes, List.length_append, List.length_take]
  rw [List.length_drop] at hdrop
  omega

/-- A buffer keeps to the limit, and no difference wraps around on the way to it, if and only if there
is room for the counters of the first slot with a permitted clause length. -/
theorem exportBuffer_within_limit_iff (db : AdaptiveClauseDatabase) (clauses : Multiset Clause)
    (options : ExportOptions) (h : db.Stores clauses) (hclauses : ∀ c ∈ clauses, 1 ≤ c.lbd ∧ 0 ∉ c.lits)
    (hlimit : 2 ≤ options.sizeLimit) :
    ∃ buffer n db' removed, db.exportBuffer options = .ok (buffer, n, db') ∧ removed ≤ clauses ∧
      db'.Stores (clauses - removed) ∧ removed.card = n ∧
      (1 ≤ db.maxLbdPartitionedSize → ∃ cs, decode db.maxLbdPartitionedSize false buffer = .ok cs ∧
        (cs : Multiset Clause) = removed.map (readBack db.maxLbdPartitionedSize)) ∧
      (((buffer.length : Int) ≤ options.sizeLimit ∧
          (∀ n ∈ db.subtractedLengths options db.slots { chunkMgr := db.chunkMgr }, (n : Int) ≤ options.sizeLimit) ∧
          ∀ c ∈ removed, options.Admits c.size) ↔ RoomForCounters db options) := by
  have hfresh : Fresh db.maxLbdPartitionedSize options { chunkMgr := db.chunkMgr } :=
    ⟨rfl, rfl, fun j hj => absurd hj (Nat.not_lt_zero j)⟩
  obtain ⟨bs, buffer, n, db', removed, hok, hexp, hadmits, hbs, hle, hremoved, hstores⟩ :=
    h.exportBuffer hclauses options
  have hcard : removed.card = n := by
    rw [hexp.count_eq, ← length_decodeBuckets db.maxLbdPartitionedSize 0, ← Multiset.coe_card, ← hremoved,
      Multiset.card_map]
  refine ⟨buffer, n, db', removed, hok, hle, hstores, hcard,
    fun hp => ⟨_, hexp.decode_buffer hp hbs (by simp), hremoved.symm⟩, ?_, ?_⟩
  · rintro ⟨-, hsubtracted, -⟩ i hi hadmits hbefore hfits
    have hmem := @mem_subtractedLengths i db options { chunkMgr := db.chunkMgr } db.slots rfl hfresh (Nat.zero_le i)
      (by simpa using hi) hadmits hbefore hfits
    exact_mod_cast hsubtracted _ hmem
  · intro hroom
    obtain ⟨hsubtracted, hwithin⟩ := @exportSlots_within db options { chunkMgr := db.chunkMgr } db.slots rfl hlimit
      hroom (Nat.zero_add _) (by simpa using h.sound.slots) (Or.inl hfresh)
    refine ⟨?_, hsubtracted, fun c hc => ?_⟩
    · rw [AdaptiveClauseDatabase.exportBuffer] at hok
      cases hslots : db.exportSlots options db.slots { chunkMgr := db.chunkMgr } with
      | error e =>
          rw [hslots] at hok
          cases hok
      | ok st =>
          rw [hslots] at hok
          obtain ⟨rfl, -⟩ := Prod.mk.inj (Except.ok.inj hok)
          have hcut := length_removeTrailingZeroes_le st.selection
          have hselection := hwithin st hslots
          rw [length_writeChecksum]
          omega
    · have hmem : readBack db.maxLbdPartitionedSize c ∈
          (decodeBuckets db.maxLbdPartitionedSize 0 bs : Multiset Clause) := by
        rw [← hremoved]
        exact Multiset.mem_map_of_mem _ hc
      exact hadmits (readBack db.maxLbdPartitionedSize c) hmem

/-- Two clauses of the fourth length, one of which fits under the limit. -/
theorem exportBuffer_within_limit_iff_two : ∃ db buffer n db',
    (new 4 4 10 4 true).addClauses [⟨[1, 2, 3, 4], 2⟩, ⟨[1, 2, 3, 5], 2⟩] = some db ∧
      db.exportBuffer { sizeLimit := 11, minClauseLength := 4 } = .ok (buffer, n, db') ∧ (buffer.length : Int) ≤ 11 ∧
      ∀ n ∈ db.subtractedLengths { sizeLimit := 11, minClauseLength := 4 } db.slots { chunkMgr := db.chunkMgr },
        (n : Int) ≤ 11 := by
  have hslots : ((new 4 4 10 4 true).addClauses [⟨[1, 2, 3, 4], 2⟩, ⟨[1, 2, 3, 5], 2⟩]).map
      (fun db => db.slots.length) = some 7 := by decide +kernel
  obtain ⟨db, hdb, hseven⟩ := Option.map_eq_some_iff.mp hslots
  have hstores : db.Stores _ := (stores_new 4 4 10 4 true).1.addClauses ((stores_new 4 4 10 4 true).2 (by decide))
    (by decide) hdb
  obtain ⟨buffer, n, db', removed, hok, -, -, -, -, hiff⟩ :=
    exportBuffer_within_limit_iff db _ { sizeLimit := 11, minClauseLength := 4 } hstores (by decide) (by decide)
  have hroom : RoomForCounters db { sizeLimit := 11, minClauseLength := 4 } := by
    intro i hi _ _ _
    rw [hseven] at hi
    simp only
    omega
  obtain ⟨hlength, hsubtracted, -⟩ := hiff.mpr hroom
  exact ⟨db, buffer, n, db', hdb, hok, hlength, hsubtracted⟩

/-- There is room for a clause of four literals behind the checksum, but not behind its five counters.
All clauses of the slot are requested then. -/
theorem exportBuffer_exceeds_limit : ∃ db buffer db',
    (new 4 4 10 4 true).addClauses [⟨[1, 2, 3, 4], 2⟩, ⟨[1, 2, 3, 5], 2⟩] = some db ∧
      db.Stores ([⟨[1, 2, 3, 4], 2⟩, ⟨[1, 2, 3, 5], 2⟩] : List Clause) ∧
      db.exportBuffer { sizeLimit := 6, minClauseLength := 4 } = .ok (buffer, 2, db') ∧ ¬(buffer.length : Int) ≤ 6 ∧
      db.subtractedLengths { sizeLimit := 6, minClauseLength := 4 } db.slots { chunkMgr := db.chunkMgr } = [7] := by
  have hsome : ((new 4 4 10 4 true).addClauses [⟨[1, 2, 3, 4], 2⟩, ⟨[1, 2, 3, 5], 2⟩]).map
      (fun db => ((db.exportBuffer { sizeLimit := 6, minClauseLength := 4 }).toOption.map
          fun r => (r.1.length, r.2.1),
        db.subtractedLengths { sizeLimit := 6, minClauseLength := 4 } db.slots { chunkMgr := db.chunkMgr })) =
      some (some (15, 2), [7]) := by decide +kernel
  obtain ⟨db, hdb, heq⟩ := Option.map_eq_some_iff.mp hsome
  obtain ⟨hexport, hsubtracted⟩ := Prod.mk.inj heq
  have hstores : db.Stores _ := (stores_new 4 4 10 4 true).1.addClauses ((stores_new 4 4 10 4 true).2 (by decide))
    (by decide) hdb
  rw [zero_add] at hstores
  cases hok : db.exportBuffer { sizeLimit := 6, minClauseLength := 4 } with
  | error e =>
      rw [hok] at hexport
      cases hexport
  | ok r =>
      obtain ⟨buffer, n, db'⟩ := r
      rw [hok] at hexport
      obtain ⟨hlength, rfl⟩ := Prod.mk.inj (Option.some.inj hexport)
      simp only at hlength
      exact ⟨db, buffer, db', hdb, hstores, hok, by omega, hsubtracted⟩

end Mallob.Sharing.AdaptiveClauseDatabase
