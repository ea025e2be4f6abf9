import Mallob.UnneededChunks

namespace Mallob.Sharing

open ClauseSlot (Proper held admitted)

variable {κ : Type} {slot slot' slot₁ : ClauseSlot} {conditional : Conditional κ} {c : Clause} {i j k n m pos : Nat}
  {cells rest : List Chunk} {live : Chunk} {s s' : BulkState κ}

namespace ClauseSlot

def validChunks (slot : ClauseSlot) : List Chunk := slot.inner.filter fun chunk => chunk.state ≠ .invalid

theorem opens_validChunks (slot slot' : ClauseSlot) : slot.opens slot'.validChunks = slot.opens slot'.inner := by
  rw [opens, opens, validChunks, List.filter_filter]
  refine List.filter_congr fun chunk _ => ?_
  rw [Bool.and_assoc, Bool.and_self]

theorem opens_congr (hkind : slot'.kind = slot.kind) (cells : List Chunk) : slot'.opens cells = slot.opens cells := by
  have hfull : slot'.isFull = slot.isFull := by
    simp only [kind, Prod.mk.injEq] at hkind
    funext chunk
    rw [isFull, isFull, clauseCapacityPerChunk, clauseCapacityPerChunk, entrySize, entrySize, hkind.1, hkind.2.2.1,
      hkind.2.2.2]
  rw [opens, opens, hfull]

theorem takes_congr (hkind : slot'.kind = slot.kind) (chunk : Chunk) (cs : List Clause) :
    slot'.Takes chunk cs ↔ slot.Takes chunk cs := by
  have hall : slot'.takesAll = slot.takesAll := by
    simp only [kind, Prod.mk.injEq] at hkind
    funext b cs
    induction cs generalizing b with
    | nil => rfl
    | cons c cs ih => simp only [takesAll, hkind.2.2.1, ih]
  rw [Takes, Takes, hall]

theorem length_validCells (hcells : ∀ c ∈ cells, c.Cell n) :
    (cells.filter fun chunk => chunk.state ≠ .invalid).length = held cells := by
  rw [held, List.countP_eq_length_filter]
  refine congrArg List.length (List.filter_congr fun c hc => ?_)
  rcases hcells c hc with ⟨hstate, -, b, hb, -⟩ | hdead
  · simp [hstate, hb]
  · simp [hdead.state_eq, hdead.data_eq]

theorem Sound.length_validChunks (h : slot.Sound) : slot.validChunks.length = held slot.inner :=
  length_validCells h.cell

theorem filter_dead (h : ∀ c ∈ cells, c.Dead) : (cells.filter fun chunk => chunk.state ≠ .invalid) = [] := by
  rw [List.filter_eq_nil_iff]
  intro c hc
  simp [(h c hc).state_eq]

theorem Released.validChunks_eq (h : slot.Released live slot') (hsound : slot.Sound) :
    slot'.validChunks = slot.validChunks.take (slot.validChunks.length - 1) := by
  obtain ⟨pre, dead, post, hinner, hinner', hdead⟩ := h.inner_eq
  have hpost := filter_dead hdead
  have hpost' := filter_dead fun c hc => hdead c (List.mem_cons_of_mem _ hc)
  have hslot' : slot'.validChunks = pre.filter fun chunk => chunk.state ≠ .invalid := by
    rw [validChunks, hinner', List.filter_append, hpost, List.append_nil]
  have hslot : slot.validChunks = slot'.validChunks ++ [live] := by
    rcases hsound.cell live (by simp [hinner]) with ⟨hstate, -⟩ | hlive
    · rw [hslot', validChunks, hinner, List.filter_append, List.filter_cons_of_pos (by simp [hstate]), hpost']
    · have heq := h.held_eq
      rw [hinner, hinner'] at heq
      simp only [held_append, held_cons, hlive.data_eq, (hdead dead (List.mem_cons_self ..)).data_eq] at heq
      omega
  rw [hslot, List.length_append, List.length_singleton, Nat.add_sub_cancel, List.take_left]

end ClauseSlot

namespace AdaptiveClauseDatabase

variable {db db' db'' : AdaptiveClauseDatabase} {stolen : Option (Nat × Chunk)}

/-- The number of chunks that can be had for a slot: those of the manager and of the less important slots. -/
def spare (db : AdaptiveClauseDatabase) (i : Nat) : Nat :=
  db.chunkMgr.numAllocatable + db.chunkMgr.numAvailable + heldBySlots (db.slots.drop (i + 1))

theorem held_le_heldBySlots {slots : List ClauseSlot} (h : slots[k]? = some slot) :
    held slot.inner ≤ heldBySlots slots :=
  List.le_sum_of_mem (List.mem_map_of_mem (List.mem_of_getElem? h))

theorem heldBySlots_eq_zero {slots : List ClauseSlot} :
    heldBySlots slots = 0 ↔ ∀ (k : Nat) (slot : ClauseSlot), slots[k]? = some slot → held slot.inner = 0 := by
  constructor
  · intro hzero k slot hslot
    have := held_le_heldBySlots hslot
    omega
  · intro hall
    refine List.sum_eq_zero fun n hn => ?_
    obtain ⟨slot, hslot, rfl⟩ := List.mem_map.mp hn
    obtain ⟨k, hk⟩ := List.getElem?_of_mem hslot
    exact hall k slot hk

theorem exhausted_iff : db.Exhausted i ↔ db.spare i = 0 := by
  rw [spare, Nat.add_eq_zero_iff, Nat.add_eq_zero_iff, heldBySlots_eq_zero]
  constructor
  · rintro ⟨hmgr, hslots⟩
    refine ⟨hmgr, fun k slot hslot => ?_⟩
    rw [List.getElem?_drop] at hslot
    exact hslots (i + 1 + k) slot (by omega) hslot
  · rintro ⟨hmgr, hslots⟩
    refine ⟨hmgr, fun j slot hij hslot => hslots (j - (i + 1)) slot ?_⟩
    rw [List.getElem?_drop, show i + 1 + (j - (i + 1)) = j by omega]
    exact hslot

theorem spare_setSlot (hij : i ≤ j) : (db.setSlot i slot').spare j = db.spare j := by
  rw [spare, spare, AdaptiveClauseDatabase.setSlot, List.drop_set_of_lt (by omega)]

/-- What is left for a slot after requests for chunks by more important slots: the spare chunks have been handed out
first, and then those of the slot, the last one first. -/
structure Depleted (db : AdaptiveClauseDatabase) (n : Nat) (db' : AdaptiveClauseDatabase) (j : Nat) : Prop where
  spare_eq : db'.spare j = db.spare j - n
  slot_eq : ∀ slot', db'.slots[j]? = some slot' → ∃ slot, db.slots[j]? = some slot ∧ slot'.kind = slot.kind ∧
    slot'.validChunks = slot.validChunks.take (slot.validChunks.length - (n - db.spare j))

theorem Depleted.refl (db : AdaptiveClauseDatabase) (j : Nat) : db.Depleted 0 db j :=
  ⟨rfl, fun slot hslot => ⟨slot, hslot, rfl, by simp⟩⟩

theorem Depleted.trans (h : db.Depleted n db' j) (h' : db'.Depleted m db'' j) : db.Depleted (n + m) db'' j := by
  refine ⟨by rw [h'.spare_eq, h.spare_eq]; omega, fun slot'' hslot'' => ?_⟩
  obtain ⟨slot', hslot', hkind', hvalid'⟩ := h'.slot_eq slot'' hslot''
  obtain ⟨slot, hslot, hkind, hvalid⟩ := h.slot_eq slot' hslot'
  refine ⟨slot, hslot, hkind'.trans hkind, ?_⟩
  rw [hvalid', hvalid, List.take_take, List.length_take, h.spare_eq]
  congr 1
  omega

theorem Exhausted.depleted (h : db.Exhausted i)
    (hslots : ∀ (k : Nat) (slot : ClauseSlot), db.slots[k]? = some slot → slot.Sound) (hij : i < j) :
    db.Depleted 1 db j := by
  have hj : db.spare j = 0 :=
    exhausted_iff.mp ⟨h.manager, fun k slot hk hslot => h.slots k slot (by omega) hslot⟩
  refine ⟨by omega, fun slot hslot => ⟨slot, hslot, rfl, ?_⟩⟩
  have hlen := (hslots j slot hslot).length_validChunks
  rw [h.slots j slot hij hslot] at hlen
  rw [List.eq_nil_of_length_eq_zero hlen, List.take_nil]

theorem Depleted.setSlot (h : db.Depleted n db' j) (hij : i < j) (slot' : ClauseSlot) :
    db.Depleted n (db'.setSlot i slot') j := by
  refine ⟨by rw [spare_setSlot hij.le, h.spare_eq], fun slot₁ hslot₁ => h.slot_eq slot₁ ?_⟩
  rwa [AdaptiveClauseDatabase.setSlot, List.getElem?_set_ne (by omega)] at hslot₁

theorem Obtained.depleted (h : db.Obtained i db' stolen)
    (hslots : ∀ (k : Nat) (slot : ClauseSlot), db.slots[k]? = some slot → slot.Sound) (j : Nat) : db.Depleted 1 db' j := by
  cases h with
  | @allocated mgr _ hless =>
      have hpos : 1 ≤ db.spare j := by rw [spare]; omega
      refine ⟨by simp only [spare]; omega, fun slot hslot => ⟨slot, hslot, rfl, ?_⟩⟩
      rw [Nat.sub_eq_zero_of_le hpos, Nat.sub_zero, List.take_length]
  | @stolen k slot slot' live hik hslot hmem hsound' hkind hreleased hstored hex =>
      have hlt := (List.getElem?_eq_some_iff.mp hslot).1
      have hheld := hreleased.held_eq
      rcases Nat.lt_trichotomy j k with hjk | rfl | hkj
      · have hdrop : (db.slots.drop (j + 1))[k - (j + 1)]? = some slot := by
          rw [List.getElem?_drop, show j + 1 + (k - (j + 1)) = k by omega]
          exact hslot
        have hset := heldBySlots_set hdrop slot'
        have hspare : (db.setSlot k slot').spare j + 1 = db.spare j := by
          simp only [spare, AdaptiveClauseDatabase.setSlot, List.drop_set, if_neg (show ¬k < j + 1 by omega)]
          omega
        have hpos : 1 ≤ db.spare j := by omega
        refine ⟨by omega, fun slot₁ hslot₁ => ⟨slot₁, ?_, rfl, ?_⟩⟩
        · rwa [AdaptiveClauseDatabase.setSlot, List.getElem?_set_ne (by omega)] at hslot₁
        · rw [Nat.sub_eq_zero_of_le hpos, Nat.sub_zero, List.take_length]
      · have hzero := exhausted_iff.mp hex
        refine ⟨by rw [spare_setSlot le_rfl, hzero], fun slot₁ hslot₁ => ?_⟩
        rw [AdaptiveClauseDatabase.setSlot, List.getElem?_set_self hlt] at hslot₁
        obtain rfl := Option.some.inj hslot₁
        exact ⟨slot, hslot, hkind, by rw [hzero]; exact hreleased.validChunks_eq (hslots j slot hslot)⟩
      · exact (hex.depleted hslots hkj).setSlot hkj slot'

section Inserted

variable {r : Insertion (BulkState κ)} (h : Inserted db i slot (slot.bulkInserter conditional) s r) (hsound : db.Sound)
  (hslot : db.slots[i]? = some slot) (hs : ∀ a ∈ s.cPtr, Proper a) (hij : i < j)

include h hsound hslot hs hij

theorem Inserted.depleted_one (hopens : slot.opens slot.inner = []) (hgroup : slot.groupOf s.cPtr ≠ []) :
    db.Depleted 1 r.db j := by
  have hfor := (hsound.slots i slot hslot).sound
  obtain ⟨finished, cells', s', hv, hoffered, -, hfin, -⟩ :=
    @ClauseSlot.visit_offered κ slot conditional s (fun _ => True) slot.inner hs (fun _ _ => trivial)
      (ClauseSlot.entrySize_pos hfor) hfor.cell
  cases h with
  | first hv₁ _ _ =>
      rw [hv] at hv₁
      obtain ⟨rfl, rfl, rfl⟩ := by simpa using hv₁
      have hparts := slot.groupOf_append_behind s.cPtr
      rw [← hfin rfl, hoffered.unchanged hopens] at hparts
      exact absurd (List.append_left_eq_self.mp hparts) hgroup
  | exhausted _ _ _ hex =>
      exact (hex.depleted (fun k slot hk => (hsound.slots k slot hk).sound) hij).setSlot hij _
  | @second _ _ _ _ _ slot₁ _ _ _ _ _ hsound₁ hkind₁ _ hobt _ _ _ _ _ =>
      have hkept := (Depleted.refl db j).setSlot hij slot₁
      have hobtained := hobt.depleted (fun k slot hk => (hsound.slotFor_setSlot hslot hsound₁ hkind₁ hk).sound) j
      exact (hkept.trans hobtained).setSlot hij _

/-- A slot that offers no clause to a second chunk requests none, unless it is the last one. -/
theorem Inserted.depleted_zero (honce : db.OfferedOnce i slot conditional s)
    (hopens : slot.opens slot.inner ≠ [] ∨ db.Exhausted i) (hbehind : slot.behind s.cPtr ≠ []) :
    db.Depleted 0 r.db j := by
  have hfor := (hsound.slots i slot hslot).sound
  obtain ⟨finished, cells', s', hv, -, -, -, htaken⟩ :=
    @ClauseSlot.visit_offered κ slot conditional s (fun _ => True) slot.inner hs (fun _ _ => trivial)
      (ClauseSlot.entrySize_pos hfor) hfor.cell
  cases h with
  | first _ _ _ => exact (Depleted.refl db j).setSlot hij _
  | exhausted _ _ _ _ => exact (Depleted.refl db j).setSlot hij _
  | second hv₁ _ _ _ _ hmore _ _ _ _ =>
      rw [hv] at hv₁
      obtain ⟨rfl, rfl, rfl⟩ := by simpa using hv₁
      rw [OfferedOnce] at honce
      cases hchunks : slot.opens slot.inner with
      | nil => exact absurd (hopens.resolve_left (not_not.mpr hchunks)) hmore
      | cons chunk others =>
          rw [hchunks] at honce
          rcases honce with htakes | ⟨-, hex⟩
          · cases htaken chunk others hchunks htakes hbehind
          · exact absurd hex hmore

end Inserted

end AdaptiveClauseDatabase

end Mallob.Sharing
