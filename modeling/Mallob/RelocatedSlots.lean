import Mallob.DeletedClauses

namespace Mallob.Sharing

open ClauseSlot (Proper held stored)

namespace AdaptiveClauseDatabase

variable {κ : Type} {p i k : Nat} {db : AdaptiveClauseDatabase} {slot : ClauseSlot} {slots : List ClauseSlot}
  {c : Clause}

theorem exists_slot_of_mem_contentsFrom (h : c ∈ contentsFrom p i slots) :
    ∃ k slot, slots[k]? = some slot ∧ c ∈ slotContents p (i + k) slot := by
  induction slots generalizing i with
  | nil => cases h
  | cons slot slots ih =>
      rcases Multiset.mem_add.mp h with h | h
      · exact ⟨0, slot, rfl, h⟩
      · obtain ⟨k, slot', hslot, hc⟩ := ih h
        refine ⟨k + 1, slot', hslot, ?_⟩
        rwa [Nat.add_assoc, Nat.add_comm 1] at hc

theorem SlotFor.of_mem_slotContents (h : SlotFor p i slot) (hc : c ∈ slotContents p i slot) :
    c.size = (bucketAt p i).size ∧ held slot.inner ≠ 0 := by
  obtain ⟨e, he, rfl⟩ := Multiset.mem_map.mp hc
  obtain ⟨chunk, hchunk, he⟩ := List.mem_flatMap.mp (Multiset.mem_coe.mp he)
  rcases h.sound.cell chunk hchunk with ⟨-, -, b, hb, hsound, -⟩ | hdead
  · rw [Chunk.elements, hb] at he
    have hlen := hsound.length_eq (ClauseSlot.entrySize_pos h.sound) e he
    rw [h.entrySize_eq] at hlen
    refine ⟨size_decodeEntry hlen, (List.countP_pos_iff.mpr ⟨chunk, hchunk, ?_⟩).ne'⟩
    rw [hb]
    rfl
  · rw [hdead.elements_eq] at he
    cases he

/-- If no chunk can be had for the first slot, only unit clauses are stored. -/
theorem Sound.size_of_exhausted (h : db.Sound) (hex : db.Exhausted 0) : ∀ c ∈ db.contents, c.size = 1 := by
  intro c hc
  obtain ⟨k, slot, hslot, hc⟩ := exists_slot_of_mem_contentsFrom hc
  rw [Nat.zero_add] at hc
  obtain ⟨hsize, hheld⟩ := (h.slots k slot hslot).of_mem_slotContents hc
  rcases Nat.eq_zero_or_pos k with rfl | hpos
  · exact hsize
  · exact absurd (hex.slots k slot hpos hslot) hheld

theorem bucketAt_one (p : Nat) : bucketAt p 1 = ⟨2, 2⟩ := by
  simp [bucketAt, BucketLabel.next]

theorem bucketAt_two (p : Nat) : bucketAt p 2 = ⟨3, 2⟩ := by
  rw [bucketAt, bucketAt_one]
  simp [BucketLabel.next]

theorem eq_one_of_size_eq_two (hpos : 0 < i) (hsize : (bucketAt p i).size = 2) : i = 1 := by
  by_contra hne
  have hmono := @bucketAt_size_mono p 2 i (by omega)
  rw [bucketAt_two, hsize] at hmono
  exact absurd hmono (by decide)

def unitClause : Clause := ⟨[1], 1⟩

def binaryClause : Clause := ⟨[1, 2], 2⟩

def addBinary : TrackedCall Unit := .addClause binaryClause (by decide)

def bulkAddUnit : TrackedCall Unit :=
  .bulkAddClauses [unitClause] [] {} (fun _ _ => (true, ())) () (by decide)

theorem unitClause_inBucket (p : Nat) : unitClause.InBucket p 0 := ⟨rfl, fun _ => rfl⟩

theorem binaryClause_inBucket (p : Nat) : binaryClause.InBucket p 1 := by
  refine ⟨?_, fun _ => ?_⟩
  · rw [bucketAt_one]
    rfl
  · rw [bucketAt_one]
    rfl

/-- Nothing stands behind the unit clause, and so the first slot obtains a chunk for it if any can be had. -/
theorem Sound.perform_bulkAddUnit (h : db.Sound) (hslot : db.slots[0]? = some slot) :
    db.Exhausted 0 ∨ ∃ r slot', db.perform bulkAddUnit = .ok r ∧ r.accepted ⊆ [unitClause] ∧ r.exported = [] ∧
      r.db.slots[0]? = some slot' ∧ held slot'.inner = held slot.inner + 1 := by
  have hc : slot.isClauseCompatible unitClause := (h.slots 0 slot hslot).compatible_iff.mpr (unitClause_inBucket _)
  let s : BulkState Unit := .start [unitClause] [] {} ()
  have hs : ∀ x ∈ s.cPtr, Proper x := by
    intro x hx
    obtain rfl := List.mem_singleton.mp hx
    exact ⟨by decide, by decide⟩
  obtain ⟨db₁, s₁, hok, hins⟩ := @Sound.insertBulk Unit slot (fun _ _ => (true, ())) s (fun _ => True) db 0 h hslot hs
    fun _ _ => trivial
  obtain ⟨r, es, rfl, hr⟩ := h.insertBulk_restocked hslot hs hok
  have hbehind : slot.behind s.cPtr = [] := ClauseSlot.behind_cons hc
  have hbulk : db.bulkAddClauses [unitClause] [] {} (fun _ _ => (true, ())) () = .ok (r.db, s₁) := by
    have hidx := h.getSlotIdx_of_compatible hslot hc
    have hptr : s.cPtr = [(unitClause, 0)] := rfl
    rw [AdaptiveClauseDatabase.bulkAddClauses, List.length_singleton, bulkLoop_cons 0 hptr, bulkStep, hidx]
    simp only [hslot, hok]
    exact bulkLoop_nil 0 (hins.cPtr_eq.trans hbehind)
  rw [← forget_bulkAddClausesReleasing] at hbulk
  obtain ⟨⟨db', s', released⟩, hreleasing, heq⟩ := Runs.exists_of_map_eq_ok hbulk
  obtain ⟨rfl, rfl⟩ := Prod.mk.inj heq
  have hheld : db.Exhausted 0 ∨ ∃ slot', r.db.slots[0]? = some slot' ∧ held slot'.inner = held slot.inner + 1 := by
    have hlt := (List.getElem?_eq_some_iff.mp hslot).1
    cases hr.restocked with
    | kept hwhy _ _ _ _ =>
        rcases hwhy with ⟨-, -, hmore⟩ | hex
        · exact absurd hbehind hmore
        · exact Or.inl hex
    | grown _ _ _ _ _ _ hobt _ hheld _ _ _ _ =>
        refine Or.inr ⟨_, List.getElem?_set_self ?_, hheld⟩
        rw [hobt.shape_eq.2, setSlot, List.length_set]
        exact hlt
  rcases hheld with hex | ⟨slot', hslot', hheld⟩
  · exact Or.inl hex
  · refine Or.inr ⟨{ db := r.db, accepted := insertedAt [unitClause] s'.events, released := released }, slot', ?_,
      fun c hc => mem_of_insertedAt hc, rfl, hslot', hheld⟩
    rw [bulkAddUnit, AdaptiveClauseDatabase.perform, hreleasing]
    rfl

theorem Sound.held_le (h : db.Sound) (hslot : db.slots[i]? = some slot) :
    held slot.inner ≤ db.chunkMgr.chunks.length := by
  have hle : held slot.inner ≤ heldBySlots db.slots :=
    List.le_sum_of_mem (List.mem_map_of_mem (List.mem_of_getElem? hslot))
  have hconserved := h.conserved
  omega

section Exhausting

variable {tracked : List TrackedSlot} {maxClauseSize : Nat} {start : AdaptiveClauseDatabase} {t : Tally}

/-- The first slot obtains chunk after chunk until no other one can be had. -/
theorem Tally.Sound.exists_exhausted (h : t.Sound start tracked maxClauseSize)
    (htracks : Tracks tracked maxClauseSize start) (hslot : t.db.slots[0]? = some slot)
    (hk : start.chunkMgr.chunks.length ≤ held slot.inner + k) :
    ∃ (calls : List (TrackedCall Unit)) (t' : Tally), Runs.run (Tally.step tracked) t calls = .ok t' ∧
      t'.Sound start tracked maxClauseSize ∧ t'.db.Exhausted 0 ∧ t'.exported = t.exported ∧
      t'.accepted.countP (fun c => c.size = 2) = t.accepted.countP fun c => c.size = 2 := by
  induction k generalizing t slot with
  | zero =>
      rcases h.sound.perform_bulkAddUnit hslot with hex | ⟨r, slot', hr, -, -, hslot', hheld⟩
      · exact ⟨[], t, rfl, h, hex, rfl, rfl⟩
      · have hbalanced := h.sound.perform h.lbd_ne hr
        have hle := hbalanced.sound.held_le hslot'
        rw [hbalanced.shape.positions_eq, h.shape.positions_eq] at hle
        omega
  | succ k ih =>
      rcases h.sound.perform_bulkAddUnit hslot with hex | ⟨r, slot', hr, haccepted, hexported, hslot', hheld⟩
      · exact ⟨[], t, rfl, h, hex, rfl, rfl⟩
      · have hstep : t.step tracked bulkAddUnit = .ok (t.record tracked r) := by
          rw [Tally.step, hr]
          rfl
        obtain ⟨calls, t', hrun, hsound, hex, hexported', hcount⟩ :=
          ih (h.step htracks hstep) hslot' (by omega)
        have hsame : r.accepted.countP (fun c => c.size = 2) = 0 := by
          refine List.countP_eq_zero.mpr fun c hc => ?_
          obtain rfl := List.mem_singleton.mp (haccepted hc)
          decide
        refine ⟨bulkAddUnit :: calls, t', ?_, hsound, hex, ?_, ?_⟩
        · rw [Runs.run, List.foldlM_cons, hstep]
          exact hrun
        · rw [hexported', Tally.record, hexported, List.nil_append]
        · rw [hcount, Tally.record, List.countP_append, hsame, Nat.zero_add]

end Exhausting

def Tally.run (grow : Nat → Nat) (maxClauseSize p chunkSize numChunks : Nat) (chk : Bool)
    (calls : List (TrackedCall κ)) : Except DatabaseFault Tally :=
  Runs.run (Tally.step (trackedSlots grow maxClauseSize p chunkSize numChunks chk))
    (.start maxClauseSize p chunkSize numChunks chk) calls

section Relocated

variable {grow : Nat → Nat} {maxClauseSize chunkSize numChunks : Nat} {chk : Bool} {t : Tally}

theorem Tally.step_addBinary (tracked : List TrackedSlot) (hroom : maxClauseSize + 1 < chunkSize)
    (hchunks : 0 < numChunks) (hslots : 1 < (new maxClauseSize p chunkSize numChunks chk).slots.length) :
    ∃ t', (Tally.start maxClauseSize p chunkSize numChunks chk).step tracked addBinary = .ok t' ∧
      t'.accepted = [binaryClause] ∧ t'.exported = [] := by
  obtain ⟨hnew, hroomy⟩ := stores_new maxClauseSize p chunkSize numChunks chk
  have hslot := List.getElem?_eq_getElem hslots
  have hidx := hnew.sound.getSlotIdx_of_compatible hslot
    ((hnew.sound.slots 1 _ hslot).compatible_iff.mpr (binaryClause_inBucket _))
  rcases hnew.sound.insertClause (hroomy hroom) (by decide) hidx with ⟨hlarge, -⟩ | ⟨r, hok, -, hout⟩
  · exact absurd (by decide) hlarge
  · refine ⟨_, by rw [Tally.step, Tally.start, addBinary, perform, hidx]; simp only [hok]; rfl, ?_, rfl⟩
    cases hout with
    | success _ _ _ => rfl
    | drop _ _ hex =>
        have hnone : numChunks = 0 := hex.manager.1
        omega

theorem Tally.Sound.recorded_two (hgrow : ∀ n, n < grow n)
    (h : t.Sound (new maxClauseSize p chunkSize numChunks chk)
      (trackedSlots grow maxClauseSize p chunkSize numChunks chk) maxClauseSize)
    (hrelocated : GrowingVector.Relocated grow 1 (new maxClauseSize p chunkSize numChunks chk).slots.length) :
    t.hist.recorded 2 = 0 := by
  rw [h.recorded_eq, List.countP_eq_zero]
  intro x hx
  obtain ⟨hpos, hlt, hsize⟩ := h.placed x hx
  rw [Bool.and_eq_true, decide_eq_true_eq, not_and]
  intro htold htwo
  rw [hsize] at htwo
  rw [told_iff hgrow hlt, eq_one_of_size_eq_two hpos htwo] at htold
  exact htold hrelocated

/-- If the second slot has been moved, a binary clause gets lost unnoticed as soon as the first slot obtains the last
chunk. -/
theorem exists_not_accounted (hgrow : ∀ n, n < grow n) (hroom : maxClauseSize + 1 < chunkSize) (hchunks : 0 < numChunks)
    (hrelocated : GrowingVector.Relocated grow 1 (new maxClauseSize p chunkSize numChunks chk).slots.length) :
    ∃ (calls : List (TrackedCall Unit)) (t : Tally),
      Tally.run grow maxClauseSize p chunkSize numChunks chk calls = .ok t ∧ ¬t.Accounted := by
  have hslots : 1 < (new maxClauseSize p chunkSize numChunks chk).slots.length := by
    obtain ⟨m, hlt, hle⟩ := hrelocated
    omega
  obtain ⟨t₁, hstep, haccepted, hexported⟩ :=
    Tally.step_addBinary (trackedSlots grow maxClauseSize p chunkSize numChunks chk) hroom hchunks hslots
  have htracks := @tracks_new p grow maxClauseSize chunkSize numChunks chk hgrow
  have hsound₁ := (Tally.sound_start (trackedSlots grow maxClauseSize p chunkSize numChunks chk)).step htracks hstep
  have hfirst : 0 < t₁.db.slots.length := by
    rw [hsound₁.shape.length_eq]
    omega
  obtain ⟨calls, t, hrun, hsound, hex, hexported', hcount⟩ :=
    hsound₁.exists_exhausted htracks (List.getElem?_eq_getElem hfirst) (Nat.le_add_left _ _)
  refine ⟨addBinary :: calls, t, ?_, fun haccounted => ?_⟩
  · rw [Tally.run, Runs.run, List.foldlM_cons, hstep]
    exact hrun
  · have hbalance := (haccounted 2).2
    have hstored : t.db.contents.countP (fun c => c.size = 2) = 0 := by
      refine Multiset.countP_eq_zero.mpr fun c hc => ?_
      rw [hsound.sound.size_of_exhausted hex c hc]
      decide
    rw [hsound.recorded_two hgrow hrelocated, hexported', hexported, hstored, hcount, haccepted] at hbalance
    exact absurd hbalance (by decide)

end Relocated

/-- In a database in use, the histogram of the deleted clauses is right for as long as no chunk with clauses is
released by a slot that the vector has moved. It is right in all runs if the second slot has stayed, and otherwise it
gets wrong in some run if there is a chunk at all and clauses fit into it. -/
theorem deletions_accounted_iff {grow : Nat → Nat} (hgrow : ∀ n, n < grow n)
    (maxClauseSize p chunkSize numChunks : Nat) (chk : Bool) :
    (∀ (calls : List (TrackedCall κ)) (t : Tally),
      Tally.run grow maxClauseSize p chunkSize numChunks chk calls = .ok t →
      ((∀ k t', Tally.run grow maxClauseSize p chunkSize numChunks chk (calls.take k) = .ok t' → t'.Accounted) ↔
        Runs.Throughout (Tally.step (trackedSlots grow maxClauseSize p chunkSize numChunks chk)) (Tally.Spares grow)
          (.start maxClauseSize p chunkSize numChunks chk) calls)) ∧
    (¬GrowingVector.Relocated grow 1 (new maxClauseSize p chunkSize numChunks chk).slots.length →
      ∀ (calls : List (TrackedCall κ)) (t : Tally),
        Tally.run grow maxClauseSize p chunkSize numChunks chk calls = .ok t → t.Accounted) ∧
    (GrowingVector.Relocated grow 1 (new maxClauseSize p chunkSize numChunks chk).slots.length →
      maxClauseSize + 1 < chunkSize → 0 < numChunks → ∃ (calls : List (TrackedCall Unit)) (t : Tally),
        Tally.run grow maxClauseSize p chunkSize numChunks chk calls = .ok t ∧ ¬t.Accounted) := by
  have hstart : (Tally.start maxClauseSize p chunkSize numChunks chk).Sound
      (new maxClauseSize p chunkSize numChunks chk) (trackedSlots grow maxClauseSize p chunkSize numChunks chk)
      maxClauseSize := Tally.sound_start _
  have hright : (Tally.start maxClauseSize p chunkSize numChunks chk).Accounted :=
    hstart.accounted_iff.mpr fun x hx => absurd hx (by simp [Tally.start])
  refine ⟨fun calls t hrun => ?_, fun hstayed calls t hrun => ?_, fun hrelocated hroom hchunks =>
    exists_not_accounted hgrow hroom hchunks hrelocated⟩
  · simp only [Tally.run, ← Runs.throughout_iff_reached hright]
    refine @Runs.throughout_congr_of_run _ _ _ _ _ _ (fun t => t.Sound (new maxClauseSize p chunkSize numChunks chk)
      (trackedSlots grow maxClauseSize p chunkSize numChunks chk) maxClauseSize ∧ t.Accounted) ?_ ?_ _ _
      ⟨hstart, hright⟩ _ hrun
    · rintro t call t' ⟨hsound, haccounted⟩ hok
      rw [← hsound.accounted_step hgrow haccounted hok]
      refine ⟨fun hall => hall t' hok, fun h t'' hok' => ?_⟩
      obtain rfl := Except.ok.inj (hok.symm.trans hok')
      exact h
    · rintro t call t' ⟨hsound, haccounted⟩ hspares hok
      exact ⟨hsound.step (tracks_new hgrow) hok, (hsound.accounted_step hgrow haccounted hok).mpr hspares⟩
  · have hsound : t.Sound (new maxClauseSize p chunkSize numChunks chk)
        (trackedSlots grow maxClauseSize p chunkSize numChunks chk) maxClauseSize :=
      Runs.run_invariant hstart (fun t call t' h hok => h.step (tracks_new hgrow) hok) hrun
    refine hsound.accounted_iff.mpr fun x hx => ?_
    obtain ⟨hpos, hlt, -⟩ := hsound.placed x hx
    rw [told_iff hgrow hlt]
    rintro ⟨m, hbelow, hle⟩
    exact hstayed ⟨m, by omega, hle⟩

def doubled (n : Nat) : Nat := if n = 0 then 1 else 2 * n

theorem lt_doubled (n : Nat) : n < doubled n := by
  rw [doubled]
  split
  · omega
  · omega

def thirdToFirst : List (TrackedCall Unit) :=
  [.addClause ⟨[1, 2, 5], 2⟩ (by decide), .addClause ⟨[3], 1⟩ (by decide)]

theorem deletions_accounted_iff_doubled : (∀ n, n < doubled n) ∧
    GrowingVector.Relocated doubled 1 (new 3 2 6 1 false).slots.length ∧
    (∃ (calls : List (TrackedCall Unit)) (t : Tally),
      Tally.run doubled 3 2 6 1 false calls = .ok t ∧ ¬t.Accounted) ∧
    ∃ t, Tally.run doubled 3 2 6 1 false thirdToFirst = .ok t ∧ t.hist.recorded 3 = 1 ∧
      ((∀ k t', Tally.run doubled 3 2 6 1 false (thirdToFirst.take k) = .ok t' → t'.Accounted) ↔
        Runs.Throughout (Tally.step (trackedSlots doubled 3 2 6 1 false)) (Tally.Spares doubled)
          (.start 3 2 6 1 false) thirdToFirst) := by
  have hvalue : (Tally.run doubled 3 2 6 1 false thirdToFirst).toOption.map (fun t => t.hist.recorded 3) =
      some 1 := by decide +kernel
  obtain ⟨t, hrun, hrecorded⟩ := Runs.exists_of_toOption hvalue
  have hrelocated : GrowingVector.Relocated doubled 1 (new 3 2 6 1 false).slots.length := ⟨2, by decide, by decide⟩
  obtain ⟨hruns, -, hbad⟩ := @deletions_accounted_iff Unit doubled lt_doubled 3 2 6 1 false
  exact ⟨lt_doubled, hrelocated, hbad hrelocated (by decide) (by decide), t, hrun, hrecorded,
    hruns thirdToFirst t hrun⟩

def secondToFirst : List (TrackedCall Unit) :=
  [.addClause ⟨[1, 2], 2⟩ (by decide), .addClause ⟨[3], 1⟩ (by decide)]

/-- With three slots, the second one has been moved when the third one came. The binary clause is in the chunk that
the second slot releases, and it is not recorded. -/
theorem not_always_accounted : ∃ t,
    Tally.run doubled 3 2 6 1 false secondToFirst = .ok t ∧
    t.hist.recorded 2 = 0 ∧ t.accepted.countP (fun c => c.size = 2) = 1 ∧
    t.exported.countP (fun c => c.size = 2) = 0 ∧ t.db.contents.countP (fun c => c.size = 2) = 0 ∧ ¬t.Accounted := by
  have hvalue : (Tally.run doubled 3 2 6 1 false secondToFirst).toOption.map (fun t => (t.hist.recorded 2,
      t.accepted.countP (fun c => c.size = 2), t.exported.countP (fun c => c.size = 2),
      t.db.contents.countP fun c => c.size = 2)) = some (0, 1, 0, 0) := by
    decide +kernel
  obtain ⟨t, hrun, hcounts⟩ := Runs.exists_of_toOption hvalue
  obtain ⟨hrecorded, haccepted, hexported, hstored⟩ := by simpa only [Prod.mk.injEq] using hcounts
  refine ⟨t, hrun, hrecorded, haccepted, hexported, hstored, fun haccounted => ?_⟩
  have := (haccounted 2).2
  omega

end AdaptiveClauseDatabase

end Mallob.Sharing
