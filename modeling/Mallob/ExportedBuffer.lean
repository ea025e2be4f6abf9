import Mallob.DatabaseInsertion
import Mallob.MergedVector

namespace Mallob.Sharing

open ClauseSlot (held stored)

namespace AdaptiveClauseDatabase

variable {p i : Nat} {chk sort : Bool} {slot slot' : ClauseSlot} {slots : List ClauseSlot} {st st' : ExportState}
  {bs bs' : List (List (List Int))} {es : List (List Int)} {mgr : ChunkManager}

def slotContents (p i : Nat) (slot : ClauseSlot) : Multiset Clause :=
  (stored slot.entrySize slot.inner).map (decodeEntry p i)

def contentsFrom (p : Nat) : Nat → List ClauseSlot → Multiset Clause
  | _, [] => 0
  | i, slot :: slots => slotContents p i slot + contentsFrom p (i + 1) slots

def contents (db : AdaptiveClauseDatabase) : Multiset Clause := contentsFrom db.maxLbdPartitionedSize 0 db.slots

theorem contentsFrom_append (slots slots' : List ClauseSlot) :
    contentsFrom p i (slots ++ slots') = contentsFrom p i slots + contentsFrom p (i + slots.length) slots' := by
  induction slots generalizing i with
  | nil => simp [contentsFrom]
  | cons slot slots ih =>
      simp only [List.cons_append, contentsFrom, ih, List.length_cons, add_assoc]
      rw [show i + (1 + slots.length) = i + (slots.length + 1) by omega]

theorem sinkChunks_spec (h : mgr.Sound) {released : List Nat}
    (hroom : mgr.numAllocatable + mgr.numAvailable + released.length ≤ mgr.chunks.length) :
    ∃ mgr', sinkChunks mgr released = .ok mgr' ∧ mgr'.Sound ∧ mgr'.chunks.length = mgr.chunks.length ∧
      mgr'.numAllocatable + mgr'.numAvailable = mgr.numAllocatable + mgr.numAvailable + released.length := by
  induction released generalizing mgr with
  | nil => exact ⟨mgr, rfl, h, rfl, rfl⟩
  | cons data released ih =>
      rw [List.length_cons] at hroom
      obtain ⟨mgr₁, hmgr₁, hsound, hlen, hall, hav⟩ := h.doInsert (by omega) data
      obtain ⟨mgr', hmgr', hsound', hkinds, hsum⟩ := ih hsound (by omega)
      refine ⟨mgr', ?_, hsound', hkinds.trans hlen, ?_⟩
      · rw [sinkChunks, List.foldlM_cons, ChunkManager.insertChunk, hmgr₁]
        exact hmgr'
      · rw [hsum, hall, hav, List.length_cons]
        omega

structure Written (p : Nat) (chk sort : Bool) (bs : List (List (List Int))) (st : ExportState) : Prop where
  selection_eq : st.selection = [0, 0] ++ encodeBuckets bs
  counter_eq : st.lastPushedCounterIdx = bs.length - 1
  hash_eq : st.hash = if chk then combineEntries 1 bs.flatten else 1
  count_eq : st.numExportedClauses = bs.flatten.length
  placed : (∀ es ∈ bs, ∀ e ∈ es, 0 ∉ e) → Placed p 0 bs
  nonzero : ∀ c ∈ decodeBuckets p 0 bs, 0 ∉ c.lits
  sorted : sort = true → ∀ es ∈ bs, es.Pairwise (· ≤ ·)

structure Visited (p : Nat) (chk sort : Bool) (slot slot' : ClauseSlot) (bs bs' : List (List (List Int)))
    (st st' : ExportState) : Prop where
  written : Written p chk sort bs' st'
  length_le : bs'.length ≤ st.bufIdx + 1
  bufIdx_eq : st'.bufIdx = st.bufIdx
  bucket_eq : st'.bucket = st.bucket
  slots_eq : st'.slots = st.slots
  slotFor : SlotFor p st.bufIdx slot'
  kind_eq : slot'.kind = slot.kind
  contents_eq : (decodeBuckets p 0 bs : Multiset Clause) + slotContents p st.bufIdx slot =
    (decodeBuckets p 0 bs' : Multiset Clause) + slotContents p st.bufIdx slot'
  manager : st'.chunkMgr.Sound
  positions_eq : st'.chunkMgr.chunks.length = st.chunkMgr.chunks.length
  conserved : st'.chunkMgr.numAllocatable + st'.chunkMgr.numAvailable + held slot'.inner =
    st.chunkMgr.numAllocatable + st.chunkMgr.numAvailable + held slot.inner

theorem inplaceClauseComparator_eq {as bs : List Int} (h : as.length = bs.length) :
    inplaceClauseComparator as bs = false ↔ bs ≤ as := by
  obtain ⟨hlt, hgt, heq⟩ := compareLits_spec h
  rcases lt_trichotomy as bs with hab | hab | hab
  · simp [inplaceClauseComparator, hlt hab, hab]
  · rw [inplaceClauseComparator, heq hab]
    simp [hab]
  · simp [inplaceClauseComparator, hgt hab, hab.le]

theorem sortClauses_spec {n : Nat} (h : ∀ e ∈ es, e.length = n) :
    (sortClauses es).Perm es ∧ (sortClauses es).Pairwise (· ≤ ·) := by
  refine ⟨List.perm_insertionSort _ es, ?_⟩
  have hsame : (sortClauses es).map id = (es.map id).insertionSort (· ≤ ·) := by
    refine List.map_insertionSort _ _ id es fun a ha b hb => ?_
    exact inplaceClauseComparator_eq ((h b hb).trans (h a ha).symm)
  rw [List.map_id, List.map_id] at hsame
  rw [hsame]
  exact List.pairwise_insertionSort _ es

theorem encodeBuckets_replicate (n : Nat) : encodeBuckets (List.replicate n []) = List.replicate n 0 := by
  induction n with
  | zero => rfl
  | succ n ih => simp [List.replicate_succ, encodeBuckets, ih]

theorem decodeBuckets_replicate (p i n : Nat) : decodeBuckets p i (List.replicate n []) = [] := by
  induction n generalizing i with
  | zero => rfl
  | succ n ih => simp [List.replicate_succ, decodeBuckets, ih]

theorem placed_replicate (p i n : Nat) : Placed p i (List.replicate n []) := by
  induction n generalizing i with
  | zero => trivial
  | succ n ih => exact ⟨by simp, ih (i + 1)⟩

/-- The clauses of a slot are written behind the counter of their bucket. -/
theorem Written.bucket (h : Written p chk sort bs st) (hlen : bs.length ≤ st.bufIdx)
    (hes : ∀ e ∈ es, e.length = effectiveSize p (bucketAt p st.bufIdx).size)
    (hnonzero : ∀ e ∈ es, 0 ∉ (decodeEntry p st.bufIdx e).lits) (hsorted : sort = true → es.Pairwise (· ≤ ·))
    (mgr : ChunkManager) :
    Written p chk sort (bs ++ List.replicate (st.bufIdx - bs.length) [] ++ [es]) { st with
      selection := [0, 0] ++ encodeBuckets (bs ++ List.replicate (st.bufIdx - bs.length) [] ++ [es])
      hash := if chk then combineEntries st.hash es else st.hash
      lastPushedCounterIdx := st.bufIdx
      numExportedClauses := st.numExportedClauses + es.length
      chunkMgr := mgr } := by
  have hidx : 0 + (bs ++ List.replicate (st.bufIdx - bs.length) []).length = st.bufIdx := by
    simp only [List.length_append, List.length_replicate]
    omega
  refine ⟨rfl, ?_, ?_, ?_, ?_, ?_, ?_⟩
  · simp only [List.length_append, List.length_replicate, List.length_singleton]
    push_cast [hlen]
    ring
  · cases chk with
    | false => exact h.hash_eq
    | true =>
        have hhash := h.hash_eq
        simp only [if_true] at hhash ⊢
        rw [hhash, ← combineEntries_append]
        simp
  · simp [h.count_eq]
  · intro hnz
    rw [placed_append, placed_append]
    refine ⟨⟨h.placed fun fs hfs => hnz fs (by simp [hfs]), placed_replicate p _ _⟩, ?_, trivial⟩
    intro e he
    rw [hidx]
    exact ⟨hes e he, fun x hx hzero => hnz es (by simp) e he (hzero ▸ hx)⟩
  · intro c hc
    rw [decodeBuckets_append, hidx, decodeBuckets_append, decodeBuckets_replicate, List.append_nil] at hc
    rcases List.mem_append.mp hc with hc | hc
    · exact h.nonzero c hc
    · obtain ⟨e, he, rfl⟩ : ∃ e ∈ es, decodeEntry p st.bufIdx e = c := by simpa [decodeBuckets] using hc
      exact hnonzero e he
  · intro hsort fs hfs
    rcases List.mem_append.mp hfs with hfs | hfs
    · rcases List.mem_append.mp hfs with hfs | hfs
      · exact h.sorted hsort fs hfs
      · rw [List.eq_of_mem_replicate hfs]
        exact .nil
    · rw [List.mem_singleton.mp hfs]
      exact hsorted hsort

theorem SlotFor.zero_notMem_lits {e : List Int} (h : SlotFor p i slot) (hlen : e.length = slot.entrySize)
    (he : slot.NonzeroLits e) : 0 ∉ (decodeEntry p i e).lits := by
  rw [h.entrySize_eq, effectiveSize] at hlen
  rw [ClauseSlot.NonzeroLits, h.size_eq, hlen] at he
  rw [decodeEntry]
  split
  · next hp => simpa [hp] using he
  · next hp => simpa [hp] using he

theorem ClauseSlot.Sound.length_eq (h : slot.Sound) :
    ∀ e ∈ stored slot.entrySize slot.inner, e.length = slot.entrySize := by
  intro e he
  obtain ⟨chunk, hchunk, he⟩ := List.mem_flatMap.mp (Multiset.mem_coe.mp he)
  rcases h.cell chunk hchunk with ⟨-, -, b, hb, hsound, -⟩ | hdead
  · rw [Chunk.elements, hb] at he
    exact hsound.length_eq (ClauseSlot.entrySize_pos h) e he
  · rw [hdead.elements_eq] at he
    cases he

/-- Exporting a slot either meets a zero or writes the clauses that it takes out. -/
theorem Written.exportSlot (h : Written p chk sort bs st) (hlen : bs.length ≤ st.bufIdx)
    (hbucket : st.bucket = bucketAt p st.bufIdx) (hslot : SlotFor p st.bufIdx slot) (hmgr : st.chunkMgr.Sound)
    (hroom : st.chunkMgr.numAllocatable + st.chunkMgr.numAvailable + held slot.inner ≤ st.chunkMgr.chunks.length)
    (sizeLimit : Int) :
    (AdaptiveClauseDatabase.exportSlot chk sort sizeLimit (effectiveSize p st.bucket.size) slot st = .error .zeroLiteral ∧
      ∃ e ∈ stored slot.entrySize slot.inner, 0 ∈ e) ∨
    ∃ st' slot' bs', AdaptiveClauseDatabase.exportSlot chk sort sizeLimit (effectiveSize p st.bucket.size) slot st =
      .ok (st', slot') ∧ Visited p chk sort slot slot' bs bs' st st' := by
  have hentry : effectiveSize p st.bucket.size = slot.entrySize := by rw [hbucket, hslot.entrySize_eq]
  have hpos := ClauseSlot.entrySize_pos hslot.sound
  let done := bs ++ List.replicate (st.bufIdx - bs.length) []
  have hdone : done.length = st.bufIdx := by
    simp only [done, List.length_append, List.length_replicate]
    omega
  have hstart : st.selection ++ List.replicate (st.bufIdx - st.lastPushedCounterIdx).toNat 0 =
      ([0, 0] ++ encodeBuckets done) ++ [0] := by
    have hcount : (st.bufIdx - st.lastPushedCounterIdx).toNat = (st.bufIdx - bs.length) + 1 := by
      rw [h.counter_eq]
      omega
    rw [hcount, h.selection_eq, List.replicate_succ']
    simp only [done, encodeBuckets_append, encodeBuckets_replicate, List.append_assoc]
  rw [AdaptiveClauseDatabase.exportSlot]
  simp only [hentry, hstart]
  rcases hslot.sound.getClauses (([0, 0] ++ encodeBuckets done) ++ [0])
      (numDesired sizeLimit (([0, 0] ++ encodeBuckets done) ++ [0]).length slot.entrySize) with
    ⟨herror, hzero⟩ | ⟨es, slot', released, hok, hsound, hkind, hstored, hheld, hnonzero, -⟩
  · exact Or.inl ⟨by rw [herror]; rfl, hzero⟩
  · have hes : ∀ e ∈ es, e.length = slot.entrySize := by
      intro e he
      refine ClauseSlot.Sound.length_eq hslot.sound e ?_
      rw [hstored]
      exact Multiset.mem_add.mpr (Or.inl he)
    obtain ⟨mgr', hsink, hmgr', hpositions, hsum⟩ := @sinkChunks_spec _ hmgr released (by omega)
    have hcounted : ((([0, 0] ++ encodeBuckets done) ++ [0]) ++ es.flatten).modify
        ((([0, 0] ++ encodeBuckets done) ++ [0]).length - 1) (· + (es.length : Int)) =
        (([0, 0] ++ encodeBuckets done) ++ [(es.length : Int)]) ++ es.flatten := by
      have hone : (([0, 0] ++ encodeBuckets done) ++ [(0 : Int)]).length - 1 = ([0, 0] ++ encodeBuckets done).length := by
        simp
      rw [hone, List.append_assoc, List.singleton_append, modify_append_cons]
      simp
    have hsame : (([0, 0] ++ encodeBuckets done) ++ [(0 : Int)]).length =
        (([0, 0] ++ encodeBuckets done) ++ [(es.length : Int)]).length := by simp
    obtain ⟨fs, hfs, hperm, hsorted⟩ : ∃ fs, (if sort then sortClauses es else es) = fs ∧ fs.Perm es ∧
        (sort = true → fs.Pairwise (· ≤ ·)) := by
      cases sort with
      | true => exact ⟨_, rfl, (sortClauses_spec hes).1, fun _ => (sortClauses_spec hes).2⟩
      | false => exact ⟨es, rfl, .refl _, by simp⟩
    have hwritten : Written p chk sort (done ++ [fs]) _ :=
      h.bucket hlen (fun e he => (hes e (hperm.subset he)).trans hslot.entrySize_eq)
        (fun e he => hslot.zero_notMem_lits (hes e (hperm.subset he)) (hnonzero e (hperm.subset he))) hsorted mgr'
    refine Or.inr ⟨_, slot', done ++ [fs], ?_, hwritten, ?_, rfl, rfl, rfl, hslot.of_kind hsound hkind,
      hkind, ?_, hmgr', hpositions, ?_⟩
    · simp only [hok, bind, Except.bind, hcounted]
      rw [hsame]
      simp only [List.drop_left, List.take_left, chunksOf_flatten hpos hes, hfs, hsink, pure, Except.pure,
        Except.ok.injEq, Prod.mk.injEq, and_true]
      rw [encodeBuckets_append done]
      simp [encodeBuckets, hperm.length_eq, done, encodeBuckets_append]
    · simp [hdone]
    · have hentry' : slot'.entrySize = slot.entrySize := entrySize_eq_of_kind hkind
      simp only [slotContents, hentry', hstored, Multiset.map_add, decodeBuckets_append, hdone, done,
        decodeBuckets_replicate, List.append_nil, decodeBuckets, ← Multiset.coe_add, Nat.zero_add, Multiset.map_coe]
      rw [← add_assoc, Multiset.coe_eq_coe.mpr (hperm.map (decodeEntry p st.bufIdx)).symm]
    · simp only
      omega

theorem Written.searchStale (h : Written p chk sort bs st) (hlen : bs.length ≤ st.bufIdx)
    (hslot : SlotFor p st.bufIdx slot) (hmgr : st.chunkMgr.Sound)
    (hroom : st.chunkMgr.numAllocatable + st.chunkMgr.numAvailable + held slot.inner ≤ st.chunkMgr.chunks.length) :
    (AdaptiveClauseDatabase.searchStale slot st = .error .zeroLiteral ∧ ∃ e ∈ stored slot.entrySize slot.inner, 0 ∈ e) ∨
    ∃ st' slot', AdaptiveClauseDatabase.searchStale slot st = .ok (st', slot') ∧
      Visited p chk sort slot slot' bs bs st st' := by
  rw [AdaptiveClauseDatabase.searchStale]
  rcases hslot.sound.getClauses st.selection 0 with
    ⟨herror, hzero⟩ | ⟨es, slot', released, hok, hsound, hkind, hstored, hheld, -, hbound⟩
  · exact Or.inl ⟨by rw [herror]; rfl, hzero⟩
  · obtain rfl : es = [] := List.length_eq_zero_iff.mp (by have := hbound le_rfl; omega)
    obtain ⟨mgr', hsink, hmgr', hpositions, hsum⟩ := @sinkChunks_spec _ hmgr released (by omega)
    refine Or.inr ⟨{ st with chunkMgr := mgr' }, slot', ?_,
      ⟨h.selection_eq, h.counter_eq, h.hash_eq, h.count_eq, h.placed, h.nonzero, h.sorted⟩, by omega, rfl, rfl, rfl,
      hslot.of_kind hsound hkind,
      hkind, ?_, hmgr', hpositions, ?_⟩
    · rw [hok]
      simp only [bind, Except.bind, hsink]
      simp [pure, Except.pure]
    · rw [slotContents, slotContents, entrySize_eq_of_kind hkind, hstored]
      simp
    · simp only
      omega

theorem Written.pass (h : Written p chk sort bs st) (hlen : bs.length ≤ st.bufIdx) (hslot : SlotFor p st.bufIdx slot)
    (hmgr : st.chunkMgr.Sound) : Visited p chk sort slot slot bs bs st st :=
  ⟨h, by omega, rfl, rfl, rfl, hslot, rfl, rfl, hmgr, rfl, rfl⟩

def ExportOptions.Admits (options : ExportOptions) (size : Nat) : Prop :=
  (options.minClauseLength < 0 ∨ options.minClauseLength ≤ size) ∧
    (options.maxClauseLength < 0 ∨ (size : Int) ≤ options.maxClauseLength)

theorem SlotFor.size_of_mem (h : SlotFor p i slot) {c : Clause} (hc : c ∈ slotContents p i slot) :
    c.size = (bucketAt p i).size := by
  obtain ⟨e, he, rfl⟩ := Multiset.mem_map.mp hc
  have hlen := ClauseSlot.Sound.length_eq h.sound e he
  rw [h.entrySize_eq, effectiveSize] at hlen
  rw [decodeEntry, Clause.size]
  split
  · next hp => simpa [hp] using hlen
  · next hp =>
      rw [if_neg hp] at hlen
      rw [List.length_tail, hlen, Nat.add_sub_cancel]

theorem Written.visitSlot {db : AdaptiveClauseDatabase} {options : ExportOptions}
    (h : Written db.maxLbdPartitionedSize db.useChecksum options.sortClauses bs st) (hlen : bs.length ≤ st.bufIdx)
    (hbucket : st.bucket = bucketAt db.maxLbdPartitionedSize st.bufIdx)
    (hslot : SlotFor db.maxLbdPartitionedSize st.bufIdx slot) (hmgr : st.chunkMgr.Sound)
    (hroom : st.chunkMgr.numAllocatable + st.chunkMgr.numAvailable + held slot.inner ≤ st.chunkMgr.chunks.length) :
    (db.visitSlot options slot st = .error .zeroLiteral ∧ ∃ e ∈ stored slot.entrySize slot.inner, 0 ∈ e) ∨
    ∃ st' slot' bs', db.visitSlot options slot st = .ok (st', slot') ∧
      Visited db.maxLbdPartitionedSize db.useChecksum options.sortClauses slot slot' bs bs' st st' ∧
      ∀ c ∈ decodeBuckets db.maxLbdPartitionedSize 0 bs', c ∈ decodeBuckets db.maxLbdPartitionedSize 0 bs ∨
        options.Admits c.size := by
  simp only [AdaptiveClauseDatabase.visitSlot]
  split
  · split
    · next hadmitted =>
        rcases h.exportSlot hlen hbucket hslot hmgr hroom options.sizeLimit with herror | ⟨st', slot', bs', hok, hv⟩
        · exact Or.inl herror
        · refine Or.inr ⟨st', slot', bs', hok, hv, fun c hc => ?_⟩
          have hold : c ∈ (decodeBuckets db.maxLbdPartitionedSize 0 bs : Multiset Clause) +
              slotContents db.maxLbdPartitionedSize st.bufIdx slot := by
            rw [hv.contents_eq]
            exact Multiset.mem_add.mpr (Or.inl hc)
          refine (Multiset.mem_add.mp hold).imp_right fun hc => ?_
          rw [hslot.size_of_mem hc, ← hbucket]
          exact ⟨hadmitted.1, hadmitted.2.1⟩
    · exact Or.inr ⟨st, slot, bs, rfl, h.pass hlen hslot hmgr, fun c hc => Or.inl hc⟩
  · rcases h.searchStale hlen hslot hmgr hroom with herror | ⟨st', slot', hok, hv⟩
    · exact Or.inl herror
    · exact Or.inr ⟨st', slot', bs, hok, hv, fun c hc => Or.inl hc⟩

theorem Written.exportSlots {db : AdaptiveClauseDatabase} {options : ExportOptions}
    (h : Written db.maxLbdPartitionedSize db.useChecksum options.sortClauses bs st) (hlen : bs.length ≤ st.bufIdx)
    (hbucket : st.bucket = bucketAt db.maxLbdPartitionedSize st.bufIdx) (hcount : st.slots.length = st.bufIdx)
    (hdone : ∀ i slot, st.slots[i]? = some slot → SlotFor db.maxLbdPartitionedSize i slot)
    (hslots : ∀ i slot, slots[i]? = some slot → SlotFor db.maxLbdPartitionedSize (st.bufIdx + i) slot)
    (hmgr : st.chunkMgr.Sound) (hconserved : st.chunkMgr.numAllocatable + st.chunkMgr.numAvailable +
      heldBySlots (st.slots ++ slots) = st.chunkMgr.chunks.length) :
    (db.exportSlots options slots st = .error .zeroLiteral ∧
      ∃ slot ∈ slots, ∃ e ∈ stored slot.entrySize slot.inner, 0 ∈ e) ∨
    ∃ st' bs', db.exportSlots options slots st = .ok st' ∧
      Written db.maxLbdPartitionedSize db.useChecksum options.sortClauses bs' st' ∧
      st'.slots.map ClauseSlot.kind = (st.slots ++ slots).map ClauseSlot.kind ∧
      (∀ i slot, st'.slots[i]? = some slot → SlotFor db.maxLbdPartitionedSize i slot) ∧ st'.chunkMgr.Sound ∧
      st'.chunkMgr.numAllocatable + st'.chunkMgr.numAvailable + heldBySlots st'.slots = st'.chunkMgr.chunks.length ∧
      st'.chunkMgr.chunks.length = st.chunkMgr.chunks.length ∧
      (decodeBuckets db.maxLbdPartitionedSize 0 bs : Multiset Clause) +
          contentsFrom db.maxLbdPartitionedSize 0 (st.slots ++ slots) =
        (decodeBuckets db.maxLbdPartitionedSize 0 bs' : Multiset Clause) +
          contentsFrom db.maxLbdPartitionedSize 0 st'.slots ∧
      ∀ c ∈ decodeBuckets db.maxLbdPartitionedSize 0 bs', c ∈ decodeBuckets db.maxLbdPartitionedSize 0 bs ∨
        options.Admits c.size := by
  induction slots generalizing st bs with
  | nil =>
      refine Or.inr ⟨st, bs, rfl, h, by rw [List.append_nil], hdone, hmgr, ?_, rfl, ?_, fun c hc => Or.inl hc⟩
      · rw [List.append_nil] at hconserved
        exact hconserved
      · rw [List.append_nil]
  | cons slot slots ih =>
      have hslot : SlotFor db.maxLbdPartitionedSize st.bufIdx slot := by simpa using hslots 0 slot (by simp)
      have hheld : ∀ xs ys : List ClauseSlot, heldBySlots (xs ++ ys) = heldBySlots xs + heldBySlots ys := by
        intro xs ys
        simp [heldBySlots]
      have hsingle : ∀ x : ClauseSlot, heldBySlots [x] = held x.inner := fun x => by simp [heldBySlots]
      have hcons : heldBySlots (slot :: slots) = held slot.inner + heldBySlots slots := by simp [heldBySlots]
      rw [hheld, hcons] at hconserved
      rw [AdaptiveClauseDatabase.exportSlots]
      rcases h.visitSlot hlen hbucket hslot hmgr (by omega) with
        ⟨herror, hzero⟩ | ⟨st₁, slot', bs₁, hok, hv, hadmits⟩
      · exact Or.inl ⟨by rw [herror]; rfl, slot, List.mem_cons_self .., hzero⟩
      · have hconserved₁ := hv.conserved
        have hpositions := hv.positions_eq
        let st₂ : ExportState := { st₁ with
          bucket := st₁.bucket.next db.maxLbdPartitionedSize, bufIdx := st₁.bufIdx + 1, slots := st₁.slots ++ [slot'] }
        have hstep := @ih st₂ bs₁
          ⟨hv.written.selection_eq, hv.written.counter_eq, hv.written.hash_eq, hv.written.count_eq, hv.written.placed,
            hv.written.nonzero, hv.written.sorted⟩
          (by rw [show st₂.bufIdx = st₁.bufIdx + 1 from rfl, hv.bufIdx_eq]; exact hv.length_le)
          (by
            simp only [st₂, hv.bucket_eq, hv.bufIdx_eq, hbucket]
            rfl)
          (by simp [st₂, hv.slots_eq, hv.bufIdx_eq, hcount])
          (by
            intro i x hx
            simp only [st₂, hv.slots_eq] at hx
            rcases Nat.lt_trichotomy i st.slots.length with hi | hi | hi
            · rw [List.getElem?_append_left hi] at hx
              exact hdone i x hx
            · rw [hi, List.getElem?_concat_length] at hx
              obtain rfl := Option.some.inj hx
              rw [hi, hcount]
              exact hv.slotFor
            · rw [List.getElem?_eq_none (by rw [List.length_append]; exact hi)] at hx
              cases hx)
          (by
            intro i x hx
            have := hslots (i + 1) x (by simpa using hx)
            simp only [st₂, hv.bufIdx_eq]
            rwa [Nat.add_assoc, Nat.add_comm 1 i])
          hv.manager
          (by
            simp only [st₂, hheld, hsingle, hv.slots_eq]
            omega)
        have hcontents : (decodeBuckets db.maxLbdPartitionedSize 0 bs : Multiset Clause) +
              contentsFrom db.maxLbdPartitionedSize 0 (st.slots ++ slot :: slots) =
            (decodeBuckets db.maxLbdPartitionedSize 0 bs₁ : Multiset Clause) +
              contentsFrom db.maxLbdPartitionedSize 0 (st₂.slots ++ slots) := by
          have hone := hv.contents_eq
          simp only [st₂, hv.slots_eq, List.append_assoc, List.singleton_append, contentsFrom_append, contentsFrom,
            hcount, Nat.zero_add]
          rw [add_left_comm, ← add_assoc (decodeBuckets _ 0 bs : Multiset Clause), hone]
          abel
        rw [hok]
        rcases hstep with
          ⟨herror, x, hx, hzero⟩ | ⟨st', bs', hok', hw, hkinds, hall, hmgr', hcons', hpos', hcon', hadmits'⟩
        · exact Or.inl ⟨herror, x, List.mem_cons_of_mem _ hx, hzero⟩
        · refine Or.inr ⟨st', bs', hok', hw, ?_, hall, hmgr', hcons', hpos'.trans hpositions, hcontents.trans hcon', ?_⟩
          · rw [hkinds]
            simp [st₂, hv.slots_eq, hv.kind_eq]
          · exact fun c hc => (hadmits' c hc).elim (hadmits c) Or.inr

structure Exported (db : AdaptiveClauseDatabase) (options : ExportOptions) (bs : List (List (List Int)))
    (buffer : List Int) (numExportedClauses : Nat) (db' : AdaptiveClauseDatabase) : Prop where
  sound : db'.Sound
  partition_eq : db'.maxLbdPartitionedSize = db.maxLbdPartitionedSize
  positions_eq : db'.chunkMgr.chunks.length = db.chunkMgr.chunks.length
  kinds_eq : db'.slots.map ClauseSlot.kind = db.slots.map ClauseSlot.kind
  contents_eq : db.contents = (decodeBuckets db.maxLbdPartitionedSize 0 bs : Multiset Clause) + db'.contents
  buffer_eq : buffer = writeChecksum (if db.useChecksum then combineEntries 1 bs.flatten else 1)
    (removeTrailingZeroes ([0, 0] ++ encodeBuckets bs))
  count_eq : numExportedClauses = bs.flatten.length
  placed : (∀ es ∈ bs, ∀ e ∈ es, 0 ∉ e) → Placed db.maxLbdPartitionedSize 0 bs
  nonzero : ∀ c ∈ decodeBuckets db.maxLbdPartitionedSize 0 bs, 0 ∉ c.lits
  sorted : options.sortClauses = true → ∀ es ∈ bs, es.Pairwise (· ≤ ·)

/-- An export either meets a zero in a clause or writes the clauses that it takes out. -/
theorem Sound.exportBuffer {db : AdaptiveClauseDatabase} (h : db.Sound) (options : ExportOptions) :
    (db.exportBuffer options = .error .zeroLiteral ∧
      ∃ slot ∈ db.slots, ∃ e ∈ stored slot.entrySize slot.inner, 0 ∈ e) ∨
    ∃ bs buffer n db', db.exportBuffer options = .ok (buffer, n, db') ∧ Exported db options bs buffer n db' ∧
      ∀ c ∈ decodeBuckets db.maxLbdPartitionedSize 0 bs, options.Admits c.size := by
  have hwritten : Written db.maxLbdPartitionedSize db.useChecksum options.sortClauses [] { chunkMgr := db.chunkMgr } :=
    ⟨rfl, rfl, by simp, rfl, fun _ => trivial, by simp [decodeBuckets], by simp⟩
  have hconserved := h.conserved
  rw [AdaptiveClauseDatabase.exportBuffer]
  rcases @Written.exportSlots db.slots _ _ db _ hwritten le_rfl rfl rfl (by simp) (by simpa using h.slots) h.manager
      (by simpa using hconserved) with
    ⟨herror, hzero⟩ | ⟨st', bs, hok, hw, hkinds, hall, hmgr, hcons, hpos, hcon, hadmits⟩
  · exact Or.inl ⟨by rw [herror]; rfl, hzero⟩
  · refine Or.inr ⟨bs, _, _, { db with chunkMgr := st'.chunkMgr, slots := st'.slots }, by rw [hok]; rfl,
      ⟨⟨hmgr, hall, hcons⟩, rfl, hpos, hkinds, ?_, ?_, hw.count_eq, hw.placed, hw.nonzero, hw.sorted⟩, ?_⟩
    · simpa [contents, decodeBuckets] using hcon
    · rw [hw.hash_eq, hw.selection_eq]
    · exact fun c hc => (hadmits c hc).resolve_left (by simp [decodeBuckets])

end AdaptiveClauseDatabase

end Mallob.Sharing
