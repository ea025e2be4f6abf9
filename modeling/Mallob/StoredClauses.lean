import Mallob.ExportedBuffer

namespace Mallob.Sharing

open ClauseSlot (held stored)

/-- A clause as it is read from a buffer. Where clauses are partitioned, it has the LBD value of its
slot: a unit clause has the value one, any other clause at least two. -/
def readBack (p : Nat) (c : Clause) : Clause :=
  ⟨c.lits, if c.size ≤ p then (if c.size = 1 then 1 else max c.lbd 2) else c.lbd⟩

theorem readBack_ne {p : Nat} {c : Clause} (hlbd : 1 ≤ c.lbd) : (readBack p c).lbd ≠ 0 := by
  simp only [readBack]
  split
  · split
    · simp
    · omega
  · omega

namespace ClauseSlot

variable {n : Nat} {slot : ClauseSlot} {chunk : Chunk} {cells cells' : List Chunk} {c : Clause} {finished : Bool}

theorem insertOne_succeeds (hsize : c.size = slot.clauseSize) : (slot.insertOne c).Succeeds n := by
  rintro chunk - ⟨-, -, b, hb, -⟩
  simp only [insertOne, hb, insertClause, hsize, ne_eq, not_true_eq_false, if_false]
  cases b.produce c.lits (if slot.uniformLbdValues then 0 else c.lbd) with
  | none => exact ⟨_, rfl⟩
  | some b' => exact ⟨_, rfl⟩

theorem insertOne_keepsLive (hn : 0 < slot.entrySize) (hlbd : c.lbd ≠ 0) :
    (slot.insertOne c).KeepsLive slot.entrySize := by
  rintro chunk s finished chunk' s' ⟨hstate, hunused, b, hb, hsound, hnum⟩ h
  by_cases hsize : c.size = slot.clauseSize
  · simp only [insertOne, hb, insertClause, hsize, ne_eq, not_true_eq_false, if_false] at h
    cases hp : b.produce c.lits (if slot.uniformLbdValues then 0 else c.lbd) with
    | none =>
        rw [hp] at h
        obtain ⟨-, rfl⟩ := by simpa [bind, Except.bind, pure, Except.pure] using h
        exact ⟨rfl, hunused, b, rfl, hsound, hnum⟩
    | some b' =>
        rw [hp] at h
        obtain ⟨-, rfl⟩ := by simpa [bind, Except.bind, pure, Except.pure] using h
        obtain ⟨hsound', helems⟩ := hsound.produce hn (length_entryOf slot hsize hlbd) hp
        refine ⟨rfl, hunused, b', rfl, hsound', ?_⟩
        simp only [hnum, helems, List.length_append, List.length_singleton]
        push_cast
        ring
  · simp only [insertOne, hb, insertClause, ne_eq, hsize, not_false_eq_true, if_true] at h
    cases h

/-- A clause of another size gets into no chunk: either the slot has no chunk to try, or an assertion
fails. -/
theorem visit_insertOne_mismatch (hsize : c.size ≠ slot.clauseSize) (hcells : ∀ d ∈ cells, d.Cell n)
    (h : slot.visit (slot.insertOne c) cells () = .ok (finished, cells', ())) :
    finished = false ∧ cells' = cells ∧ ∀ d ∈ cells, slot.isFull d ∨ d.state = .invalid := by
  induction cells generalizing finished cells' with
  | nil =>
      obtain ⟨rfl, rfl⟩ : false = finished ∧ [] = cells' := by simpa [visit] using h
      exact ⟨rfl, rfl, by simp⟩
  | cons chunk cells ih =>
      rw [visit] at h
      split at h
      · next hskip =>
        cases hrec : slot.visit (slot.insertOne c) cells () with
        | error e => rw [hrec] at h; cases h
        | ok r =>
            rw [hrec] at h
            obtain ⟨rfl, rfl⟩ : r.1 = finished ∧ chunk :: r.2.1 = cells' := by simpa [Except.map] using h
            obtain ⟨hfin, hsame, hall⟩ := ih (fun d hd => hcells d (List.mem_cons_of_mem _ hd)) hrec
            exact ⟨hfin, by rw [hsame], List.forall_mem_cons.mpr ⟨hskip, hall⟩⟩
      · next hnot =>
          rcases hcells chunk (List.mem_cons_self ..) with ⟨-, -, b, hb, -⟩ | hdead
          · simp only [insertOne, hb, insertClause, ne_eq, hsize, not_false_eq_true, if_true] at h
            cases h
          · exact absurd (Or.inr hdead.state_eq) hnot

/-- What is done with the chunks depends on the kind of the slot only. -/
theorem visit_congr {σ : Type} {slot' : ClauseSlot} (hkind : slot'.kind = slot.kind) (f : Inserter σ)
    (cells : List Chunk) (s : σ) : slot'.visit f cells s = slot.visit f cells s := by
  have hfull : slot'.isFull = slot.isFull := by
    simp only [kind, Prod.mk.injEq] at hkind
    funext chunk
    rw [isFull, isFull, clauseCapacityPerChunk, clauseCapacityPerChunk, entrySize, entrySize, hkind.1, hkind.2.2.1,
      hkind.2.2.2]
  induction cells generalizing s with
  | nil => rfl
  | cons chunk cells ih => simp only [visit, hfull, ih]

theorem Fresh.of_kind {slot' : ClauseSlot} {data : Nat} (h : slot'.Fresh data chunk) (hkind : slot'.kind = slot.kind) :
    slot.Fresh data chunk := by
  refine ⟨h.state_eq, ?_, h.numElems_eq, h.unused⟩
  simp only [kind, Prod.mk.injEq] at hkind
  rw [h.data_eq, allocateBuffer, allocateBuffer, hkind.2.2.2]

theorem Extended.exists_fresh {slot' : ClauseSlot} (h : slot.Extended slot') :
    ∃ data fresh, fresh ∈ slot'.inner ∧ slot.Fresh data fresh := by
  obtain ⟨data, pre, post, fresh, hinner, hfresh, -⟩ := h.inner_eq
  exact ⟨data, fresh, by rw [hinner]; simp, hfresh⟩

end ClauseSlot

namespace AdaptiveClauseDatabase

variable {p i k : Nat} {slot slot' : ClauseSlot} {slots : List ClauseSlot} {db db' db'' : AdaptiveClauseDatabase}
  {c : Clause} {cells : List Chunk}

structure Stores (db : AdaptiveClauseDatabase) (clauses : Multiset Clause) : Prop where
  sound : db.Sound
  contents_eq : db.contents = clauses.map (readBack db.maxLbdPartitionedSize)

structure SameShape (db db' : AdaptiveClauseDatabase) : Prop where
  partition_eq : db'.maxLbdPartitionedSize = db.maxLbdPartitionedSize
  positions_eq : db'.chunkMgr.chunks.length = db.chunkMgr.chunks.length
  kinds_eq : db'.slots.map ClauseSlot.kind = db.slots.map ClauseSlot.kind

theorem SameShape.trans (h : db.SameShape db') (h' : db'.SameShape db'') : db.SameShape db'' :=
  ⟨h'.partition_eq.trans h.partition_eq, h'.positions_eq.trans h.positions_eq, h'.kinds_eq.trans h.kinds_eq⟩

theorem sameShape_setSlot (h : db.slots[i]? = some slot) (hkind : slot'.kind = slot.kind) :
    db.SameShape (db.setSlot i slot') := by
  refine ⟨rfl, rfl, ?_⟩
  obtain ⟨hi, rfl⟩ := List.getElem?_eq_some_iff.mp h
  rw [setSlot, List.map_set, hkind, ← List.getElem_map ClauseSlot.kind (h := by simpa using hi), List.set_getElem_self]

theorem contentsFrom_set (h : slots[k]? = some slot) (slot' : ClauseSlot) :
    contentsFrom p i (slots.set k slot') + slotContents p (i + k) slot =
      contentsFrom p i slots + slotContents p (i + k) slot' := by
  induction slots generalizing i k with
  | nil => simp at h
  | cons a slots ih =>
      cases k with
      | zero =>
          obtain rfl : a = slot := by simpa using h
          simp only [List.set_cons_zero, contentsFrom, Nat.add_zero]
          abel
      | succ k =>
          have := @ih (i + 1) k (by simpa using h)
          rw [show i + 1 + k = i + (k + 1) by omega] at this
          simp only [List.set_cons_succ, contentsFrom, add_assoc, this]

theorem contents_setSlot (h : db.slots[i]? = some slot) (slot' : ClauseSlot) :
    (db.setSlot i slot').contents + slotContents db.maxLbdPartitionedSize i slot =
      db.contents + slotContents db.maxLbdPartitionedSize i slot' := by
  have := @contentsFrom_set db.maxLbdPartitionedSize 0 i slot db.slots h slot'
  rwa [Nat.zero_add] at this

theorem contents_setSlot_same (h : db.slots[i]? = some slot)
    (hsame : slotContents db.maxLbdPartitionedSize i slot' = slotContents db.maxLbdPartitionedSize i slot) :
    (db.setSlot i slot').contents = db.contents := by
  have := contents_setSlot h slot'
  rw [hsame] at this
  exact add_right_cancel this

def stolenClauses (p : Nat) : Option (Nat × Chunk) → Multiset Clause
  | none => 0
  | some (j, chunk) => ((chunk.elements (effectiveSize p (bucketAt p j).size)).map (decodeEntry p j) : List Clause)

theorem decodeEntry_entryOf (h : SlotFor p i slot) (hsize : c.size = slot.clauseSize) (hlbd : 1 ≤ c.lbd)
    (hidx : slotPosition p c.size c.lbd = i) : decodeEntry p i (slot.entryOf c) = readBack p c := by
  have hs : c.size = (bucketAt p i).size := hsize.trans h.size_eq
  have huniform := h.uniform_eq
  rw [← hs] at huniform
  rw [decodeEntry, readBack, ClauseSlot.entryOf, huniform, ← hs]
  by_cases hp : c.size ≤ p
  · have hbucket := slotPosition_bucketAt p i
    have hproper := bucketAt_proper p i
    rw [BucketLabel.Proper, ← hs] at hproper
    obtain ⟨l, hl⟩ := Int.eq_ofNat_of_zero_le (show 0 ≤ c.lbd by omega)
    rw [← hs, ← hidx, hl, slotPosition_partitioned (by omega) hp, slotPosition_partitioned (by omega) hp] at hbucket
    simp only [hp, decide_true, if_true, ne_eq, not_true_eq_false, if_false, Clause.mk.injEq, true_and]
    split
    · omega
    · omega
  · have hne : c.lbd ≠ 0 := by omega
    simp [hp, hne]

theorem Obtained.spec {stolen : Option (Nat × Chunk)} (h : db.Obtained i db' stolen) (hslots : ∀ j slot,
      db.slots[j]? = some slot → SlotFor db.maxLbdPartitionedSize j slot) :
    db.SameShape db' ∧ db'.contents + stolenClauses db.maxLbdPartitionedSize stolen = db.contents ∧
      ∀ j chunk, stolen = some (j, chunk) → i < j := by
  cases h with
  | allocated hlen _ => exact ⟨⟨rfl, hlen, rfl⟩, by rw [stolenClauses, add_zero]; rfl, by simp⟩
  | @stolen j slot slot' live hj hslot _ _ hkind _ hstored _ =>
      refine ⟨sameShape_setSlot hslot hkind, ?_, ?_⟩
      · have hset := contents_setSlot hslot slot'
        have hentry := (hslots j slot hslot).entrySize_eq
        have hcontents : slotContents db.maxLbdPartitionedSize j slot =
            stolenClauses db.maxLbdPartitionedSize (some (j, live)) + slotContents db.maxLbdPartitionedSize j slot' := by
          rw [slotContents, hstored, Multiset.map_add, slotContents, entrySize_eq_of_kind hkind, stolenClauses, hentry]
          rfl
        rw [hcontents, ← add_assoc] at hset
        exact add_right_cancel hset
      · rintro j' chunk' hsome
        obtain ⟨rfl, -⟩ := Prod.mk.inj (Option.some.inj hsome)
        exact hj

theorem slotContents_perm (hkind : slot'.kind = slot.kind) (hperm : slot'.inner.Perm cells) :
    slotContents p i slot' = (stored slot.entrySize cells).map (decodeEntry p i) := by
  rw [slotContents, entrySize_eq_of_kind hkind, ClauseSlot.stored_perm hperm]

def Roomy (db : AdaptiveClauseDatabase) : Prop := ∀ slot ∈ db.slots, slot.entrySize < slot.chunkSize

inductive Outcome (db : AdaptiveClauseDatabase) (i : Nat) (c : Clause) : Insertion Unit → Prop
  | success {db' : AdaptiveClauseDatabase} {stolen : Option (Nat × Chunk)} : db.SameShape db' →
      db'.contents + stolenClauses db.maxLbdPartitionedSize stolen = readBack db.maxLbdPartitionedSize c ::ₘ db.contents →
      (∀ j chunk, stolen = some (j, chunk) → i < j) → Outcome db i c ⟨.success, db', (), stolen⟩
  | drop {db' : AdaptiveClauseDatabase} : db.SameShape db' → db'.contents = db.contents → db.Exhausted i →
      Outcome db i c ⟨.totalFail, db', (), none⟩

/-- The contents after clauses have been put into a slot before and after a new chunk has been obtained. -/
theorem contents_second {added₁ added₃ : Multiset Clause} {slot₁ slot₃ : ClauseSlot} {db₁ : AdaptiveClauseDatabase}
    {stolen : Option (Nat × Chunk)} (h : db.Sound) (hslot : db.slots[i]? = some slot) (hsound₁ : slot₁.Sound)
    (hkind₁ : slot₁.kind = slot.kind) (hheld₁ : held slot₁.inner = held slot.inner)
    (hcontents₁ : slotContents db.maxLbdPartitionedSize i slot₁ =
      added₁ + slotContents db.maxLbdPartitionedSize i slot)
    (hobt : (db.setSlot i slot₁).Obtained i db₁ stolen) (hkind₃ : slot₃.kind = slot.kind)
    (hcontents₃ : slotContents db.maxLbdPartitionedSize i slot₃ =
      added₃ + slotContents db.maxLbdPartitionedSize i slot₁) :
    db.SameShape (db₁.setSlot i slot₃) ∧
      (db₁.setSlot i slot₃).contents + stolenClauses db.maxLbdPartitionedSize stolen =
        added₁ + added₃ + db.contents ∧
      ∀ j chunk, stolen = some (j, chunk) → i < j := by
  have hlt := (List.getElem?_eq_some_iff.mp hslot).1
  have hdb : (db.setSlot i slot₁).SoundBut 0 := h.setSlot hslot hsound₁ hkind₁ (by rw [hheld₁])
  obtain ⟨hshape, hstolen, hright⟩ := hobt.spec hdb.slots
  have hslot₁ : db₁.slots[i]? = some slot₁ := hobt.slot_eq.trans (List.getElem?_set_self hlt)
  refine ⟨((sameShape_setSlot hslot hkind₁).trans hshape).trans
    (sameShape_setSlot hslot₁ (hkind₃.trans hkind₁.symm)), ?_, hright⟩
  have hset₁ : (db.setSlot i slot₁).contents = added₁ + db.contents := by
    have hset := contents_setSlot hslot slot₁
    rw [hcontents₁, add_left_comm, ← add_assoc] at hset
    exact add_right_cancel hset
  have hset₃ : (db₁.setSlot i slot₃).contents = added₃ + db₁.contents := by
    have hset := contents_setSlot hslot₁ slot₃
    rw [hshape.partition_eq] at hset
    have hset : (db₁.setSlot i slot₃).contents + slotContents db.maxLbdPartitionedSize i slot₁ =
        db₁.contents + slotContents db.maxLbdPartitionedSize i slot₃ := hset
    rw [hcontents₃, add_left_comm, ← add_assoc] at hset
    exact add_right_cancel hset
  have hstolen : db₁.contents + stolenClauses db.maxLbdPartitionedSize stolen = (db.setSlot i slot₁).contents := hstolen
  rw [hset₃, add_assoc, hstolen, hset₁, add_left_comm, add_assoc]

/-- Whatever an insertion does, no clause gets lost except for those of a stolen chunk. -/
theorem Inserted.contents_eq {r : Insertion Unit} (h : db.Sound) (hslot : db.slots[i]? = some slot)
    (hlbd : 1 ≤ c.lbd) (hidx : slotPosition db.maxLbdPartitionedSize c.size c.lbd = i)
    (hr : Inserted db i slot (slot.insertOne c) () r) :
    db.SameShape r.db ∧ (∀ j chunk, r.stolen = some (j, chunk) → i < j) ∧
      r.db.contents + stolenClauses db.maxLbdPartitionedSize r.stolen =
        (if r.result = .success then {readBack db.maxLbdPartitionedSize c} else 0) + db.contents := by
  have hfor := h.slots i slot hslot
  have hpos := ClauseSlot.entrySize_pos hfor.sound
  have hne : c.lbd ≠ 0 := by omega
  have hvisit : ∀ {cells cells' : List Chunk} {finished : Bool}, (∀ d ∈ cells, d.Cell slot.entrySize) →
      slot.visit (slot.insertOne c) cells () = .ok (finished, cells', ()) → held cells' = held cells ∧
      (stored slot.entrySize cells').map (decodeEntry db.maxLbdPartitionedSize i) =
        (if finished then {readBack db.maxLbdPartitionedSize c} else 0) +
          (stored slot.entrySize cells).map (decodeEntry db.maxLbdPartitionedSize i) := by
    intro cells cells' finished hcells hv
    by_cases hsize : c.size = slot.clauseSize
    · obtain ⟨finished₁, cells₁, hv₁, -, hheld, hstored, -⟩ := ClauseSlot.visit_insertOne hpos hcells hsize hne
      obtain ⟨rfl, rfl, -⟩ := Prod.mk.inj (Except.ok.inj (hv₁.symm.trans hv)) |>.imp_right Prod.mk.inj
      refine ⟨hheld, ?_⟩
      rw [hstored, Multiset.map_add]
      split
      · rw [Multiset.map_singleton, decodeEntry_entryOf hfor hsize hlbd hidx]
      · rw [Multiset.map_zero]
    · obtain ⟨rfl, rfl, -⟩ := ClauseSlot.visit_insertOne_mismatch hsize hcells hv
      exact ⟨rfl, (zero_add _).symm⟩
  cases hr with
  | @first cells₁ _ slot₁ hv hkind hperm =>
      refine ⟨sameShape_setSlot hslot hkind, by simp, ?_⟩
      have hset := contents_setSlot hslot slot₁
      rw [slotContents_perm hkind hperm, (hvisit hfor.sound.cell hv).2, ← slotContents, add_left_comm,
        ← add_assoc] at hset
      rw [stolenClauses, add_zero]
      exact add_right_cancel hset
  | @exhausted cells₁ _ slot₁ hv hkind hperm _ =>
      refine ⟨sameShape_setSlot hslot hkind, by simp, ?_⟩
      rw [stolenClauses, add_zero, if_neg (by simp), zero_add]
      refine contents_setSlot_same hslot ?_
      rw [slotContents_perm hkind hperm, (hvisit hfor.sound.cell hv).2, ← slotContents]
      exact zero_add _
  | @second cells₁ cells₂ finished₂ _ _ slot₁ slot₂ slot₃ db₁ stolen hv hsound₁ hkind₁ hperm₁ hobt _ hext hv₂ hkind₃
      hperm₃ =>
      have hkind₂ : slot₂.kind = slot.kind := hext.kind_eq.trans hkind₁
      have hcells₂ := hext.sound.cell
      rw [entrySize_eq_of_kind hkind₂] at hcells₂
      rw [ClauseSlot.visit_congr hkind₂] at hv₂
      obtain ⟨hheld, hfirst⟩ := hvisit hfor.sound.cell hv
      have hcontents₁ : slotContents db.maxLbdPartitionedSize i slot₁ =
          0 + slotContents db.maxLbdPartitionedSize i slot := by
        rw [slotContents_perm hkind₁ hperm₁, hfirst]
        rfl
      have hcontents₃ : slotContents db.maxLbdPartitionedSize i slot₃ =
          (if finished₂ then {readBack db.maxLbdPartitionedSize c} else 0) +
            slotContents db.maxLbdPartitionedSize i slot₁ := by
        rw [slotContents_perm hkind₃ hperm₃, (hvisit hcells₂ hv₂).2, slotContents, entrySize_eq_of_kind hkind₁,
          ← hext.stored_eq]
      obtain ⟨hshape, hcontents, hright⟩ := contents_second h hslot hsound₁ hkind₁
        ((ClauseSlot.held_perm hperm₁).trans hheld) hcontents₁ hobt hkind₃ hcontents₃
      refine ⟨hshape, hright, hcontents.trans ?_⟩
      rw [zero_add]
      cases finished₂ with
      | true => rfl
      | false => rfl

theorem Inserted.outcome {r : Insertion Unit} (h : db.Sound) (hroomy : db.Roomy) (hslot : db.slots[i]? = some slot)
    (hlbd : 1 ≤ c.lbd) (hidx : slotPosition db.maxLbdPartitionedSize c.size c.lbd = i)
    (hr : Inserted db i slot (slot.insertOne c) () r) : Outcome db i c r := by
  have hfor := h.slots i slot hslot
  have hfits := hroomy slot (List.mem_of_getElem? hslot)
  have hpos := ClauseSlot.entrySize_pos hfor.sound
  obtain ⟨hshape, hright, hcontents⟩ := hr.contents_eq h hslot hlbd hidx
  cases hr with
  | first _ _ _ => exact .success hshape (by rw [hcontents, if_pos rfl, Multiset.singleton_add]) hright
  | exhausted _ _ _ hex =>
      rw [stolenClauses, add_zero, if_neg (by simp), zero_add] at hcontents
      exact .drop hshape hcontents hex
  | @second cells₁ cells₂ finished₂ _ _ slot₁ slot₂ slot₃ db₁ stolen _ _ hkind₁ _ _ _ hext hv₂ _ _ =>
      have hkind₂ : slot₂.kind = slot.kind := hext.kind_eq.trans hkind₁
      have hcells₂ := hext.sound.cell
      rw [entrySize_eq_of_kind hkind₂] at hcells₂
      rw [ClauseSlot.visit_congr hkind₂] at hv₂
      obtain ⟨data, fresh, hmem, hfresh⟩ := hext.exists_fresh
      have hfinished : finished₂ = true := by
        by_cases hsize : c.size = slot.clauseSize
        · have hne : c.lbd ≠ 0 := by omega
          obtain ⟨finished, cells, hv, -, -, -, hnot⟩ := ClauseSlot.visit_insertOne hpos hcells₂ hsize hne
          obtain ⟨rfl, rfl, -⟩ := Prod.mk.inj (Except.ok.inj (hv.symm.trans hv₂)) |>.imp_right Prod.mk.inj
          by_contra hfalse
          rw [Bool.not_eq_true] at hfalse
          exact (hnot hfalse).2 fresh hmem ((hfresh.of_kind hkind₁).accepts hfor.sound hfits hsize hne)
        · obtain ⟨-, -, hall⟩ := ClauseSlot.visit_insertOne_mismatch hsize hcells₂ hv₂
          rcases hall fresh hmem with hfull | hinvalid
          · exact absurd hfull ((hfresh.of_kind hkind₁).not_isFull hfor.sound hfits)
          · rw [hfresh.state_eq] at hinvalid
            cases hinvalid
      subst hfinished
      exact .success hshape (by rw [hcontents]; exact Multiset.singleton_add _ _) hright

theorem getSlotIdx_some (h : db.getSlotIdx c.size c.lbd = some i) :
    slotPosition db.maxLbdPartitionedSize c.size c.lbd = i ∧ ∃ slot, db.slots[i]? = some slot := by
  simp only [getSlotIdx, Option.ite_none_right_eq_some, Option.some.injEq] at h
  obtain ⟨⟨hpos, hlt⟩, rfl⟩ := h
  exact ⟨(Int.toNat_of_nonneg hpos).symm, _, List.getElem?_eq_getElem (by omega)⟩

/-- A clause whose LBD value does not exceed its size meets a slot for its size. -/
theorem Sound.size_eq (h : db.Sound) (hidx : db.getSlotIdx c.size c.lbd = some i) (hslot : db.slots[i]? = some slot)
    (hlbd : 1 ≤ c.lbd) (hle : c.lbd ≤ c.size) : c.size = slot.clauseSize := by
  obtain ⟨j, hj, hbucket⟩ := @bucketAt_slotPosition db.maxLbdPartitionedSize c.size c.lbd (by omega) (by omega)
    (fun _ _ => hle)
  obtain rfl : j = i := by
    have := (getSlotIdx_some hidx).1
    omega
  rw [(h.slots j slot hslot).size_eq, hbucket]
  rfl

/-- The insertion of a clause fails an assertion only in a slot for another size. -/
theorem Sound.insertClause (h : db.Sound) (hroomy : db.Roomy) (hlbd : 1 ≤ c.lbd)
    (hidx : db.getSlotIdx c.size c.lbd = some i) :
    (¬c.lbd ≤ c.size ∧ ∃ e, db.insertClause i c = .error e) ∨
    ∃ r, db.insertClause i c = .ok r ∧ r.db.Sound ∧ Outcome db i c r := by
  obtain ⟨hpos, slot, hslot⟩ := getSlotIdx_some hidx
  have hn := ClauseSlot.entrySize_pos (h.slots i slot hslot).sound
  rw [AdaptiveClauseDatabase.insertClause, hslot]
  rcases h.insert (s := ()) hslot (ClauseSlot.insertOne_keepsState slot c)
      (ClauseSlot.insertOne_keepsLive hn (by omega)) with ⟨hfail, herror⟩ | ⟨r, hok, hsound, hins⟩
  · refine Or.inl ⟨fun hle => hfail ?_, herror⟩
    exact ClauseSlot.insertOne_succeeds (h.size_eq hidx hslot hlbd hle)
  · exact Or.inr ⟨r, hok, hsound, hins.outcome h hroomy hslot hlbd hpos⟩

theorem createSlots_spec {maxClauseSize chunkSize fuel k j : Nat}
    (h : (createSlots maxClauseSize p chunkSize fuel (bucketAt p k))[j]? = some slot) :
    SlotFor p (k + j) slot ∧ held slot.inner = 0 ∧ slot.clauseSize ≤ maxClauseSize ∧ slot.chunkSize = chunkSize ∧
      slotContents p (k + j) slot = 0 := by
  induction fuel generalizing k j with
  | zero => simp [createSlots] at h
  | succ fuel ih =>
      rw [createSlots] at h
      split at h
      · next hle =>
          cases j with
          | zero =>
              obtain rfl : _ = slot := by simpa using h
              refine ⟨⟨⟨⟨_, _, rfl, rfl, rfl⟩, by simp [ClauseSlot.inner], by simp [ClauseSlot.inner],
                ⟨rfl, rfl⟩, bucketAt_size_pos p k⟩, rfl, rfl, rfl⟩, rfl, hle, rfl, rfl⟩
          | succ j =>
              have := @ih (k + 1) j (by simpa [bucketAt] using h)
              rwa [show k + 1 + j = k + (j + 1) by omega] at this
      · simp at h

theorem contentsFrom_eq_zero (h : ∀ j slot, slots[j]? = some slot → slotContents p (i + j) slot = 0) :
    contentsFrom p i slots = 0 := by
  induction slots generalizing i with
  | nil => rfl
  | cons slot slots ih =>
      have hfirst := h 0 slot (by simp)
      rw [Nat.add_zero] at hfirst
      have hrest := @ih (i + 1) fun j slot' hj => by
        have := h (j + 1) slot' (by simpa using hj)
        rwa [show i + (j + 1) = i + 1 + j by omega] at this
      rw [contentsFrom, hfirst, hrest, add_zero]

/-- A new database holds no clause, and all its chunks can still be allocated. -/
theorem stores_new (maxClauseSize p chunkSize numChunks : Nat) (chk : Bool) :
    (new maxClauseSize p chunkSize numChunks chk).Stores 0 ∧
      (maxClauseSize + 1 < chunkSize → (new maxClauseSize p chunkSize numChunks chk).Roomy) := by
  have hslot : ∀ j slot, (new maxClauseSize p chunkSize numChunks chk).slots[j]? = some slot → _ :=
    fun j slot hj => @createSlots_spec p slot maxClauseSize chunkSize _ 0 j hj
  simp only [Nat.zero_add] at hslot
  refine ⟨⟨⟨ChunkManager.sound_new numChunks, fun j slot hj => (hslot j slot hj).1, ?_⟩, ?_⟩, ?_⟩
  · have hheld : heldBySlots (new maxClauseSize p chunkSize numChunks chk).slots = 0 := by
      rw [heldBySlots, List.sum_eq_zero_iff]
      intro n hn
      obtain ⟨slot, hmem, rfl⟩ := List.mem_map.mp hn
      obtain ⟨j, hj⟩ := List.mem_iff_getElem?.mp hmem
      exact (hslot j slot hj).2.1
    rw [hheld]
    simp [new, ChunkManager.new]
  · refine contentsFrom_eq_zero fun j slot hj => ?_
    rw [Nat.zero_add]
    exact (hslot j slot hj).2.2.2.2
  · intro hroom slot hmem
    obtain ⟨j, hj⟩ := List.mem_iff_getElem?.mp hmem
    obtain ⟨-, -, hsize, hchunk, -⟩ := hslot j slot hj
    rw [hchunk, ClauseSlot.entrySize]
    split <;> omega

theorem Roomy.of_sameShape (h : db.Roomy) (hshape : db.SameShape db') : db'.Roomy := by
  intro slot' hmem
  have hkind : slot'.kind ∈ db.slots.map ClauseSlot.kind := by
    rw [← hshape.kinds_eq]
    exact List.mem_map_of_mem hmem
  obtain ⟨slot, hslot, hkind⟩ := List.mem_map.mp hkind
  have hfits := h slot hslot
  rw [entrySize_eq_of_kind hkind] at hfits
  simp only [ClauseSlot.kind, Prod.mk.injEq] at hkind
  rwa [hkind.2.2.2] at hfits

def addClauses (db : AdaptiveClauseDatabase) : List Clause → Option AdaptiveClauseDatabase
  | [] => some db
  | c :: cs =>
      match db.getSlotIdx c.size c.lbd with
      | none => none
      | some i =>
          match db.insertClause i c with
          | .ok ⟨.success, db', (), none⟩ => db'.addClauses cs
          | _ => none

theorem addClauses_cons (db : AdaptiveClauseDatabase) (c : Clause) (cs : List Clause) : db.addClauses (c :: cs) =
    match db.getSlotIdx c.size c.lbd with
    | none => none
    | some i =>
        match db.insertClause i c with
        | .ok ⟨.success, db', (), none⟩ => db'.addClauses cs
        | _ => none := rfl

theorem Stores.addClauses {clauses : Multiset Clause} {cs : List Clause} (h : db.Stores clauses) (hroomy : db.Roomy)
    (hlbd : ∀ c ∈ cs, 1 ≤ c.lbd) (hdb : db.addClauses cs = some db') : db'.Stores (clauses + cs) := by
  induction cs generalizing db clauses with
  | nil =>
      obtain rfl := Option.some.inj hdb
      simpa using h
  | cons c cs ih =>
      rw [addClauses_cons] at hdb
      split at hdb
      · cases hdb
      · next i hidx =>
          split at hdb
          · next db₁ hr =>
              have hc := hlbd c (List.mem_cons_self ..)
              rcases h.sound.insertClause hroomy hc hidx with ⟨-, e, herror⟩ | ⟨r, hok, hsound, hout⟩
              · rw [hr] at herror
                cases herror
              · rw [hr] at hok
                obtain rfl := Except.ok.inj hok
                cases hout with
                | success hshape hcontents _ =>
                    have hstores : db₁.Stores (c ::ₘ clauses) := by
                      refine ⟨hsound, ?_⟩
                      rw [stolenClauses, add_zero] at hcontents
                      rw [hcontents, h.contents_eq, hshape.partition_eq, Multiset.map_cons]
                    have := ih hstores (hroomy.of_sameShape hshape) (fun d hd => hlbd d (List.mem_cons_of_mem _ hd)) hdb
                    rwa [Multiset.cons_add, ← Multiset.add_cons, Multiset.cons_coe] at this
          · cases hdb

end AdaptiveClauseDatabase

end Mallob.Sharing
