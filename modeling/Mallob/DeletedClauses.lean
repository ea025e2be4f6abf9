import Mallob.ClauseHistogram
import Mallob.DatabaseRuns

namespace Mallob.Sharing

open BinFilling (packedItems)
open ClauseSlot (Proper held stored)

namespace AdaptiveClauseDatabase

variable {κ : Type} {p i j : Nat} {db db' db₁ : AdaptiveClauseDatabase} {slot slot' : ClauseSlot}
  {conditional : Conditional κ} {s s' : BulkState κ} {c : Clause} {clauses : List Clause}

def insertedAt (clauses : List Clause) (events : List BulkEvent) : List Clause :=
  events.filterMap fun e => match e with
    | .inserted pos => clauses[pos]?
    | _ => none

def releasedClauses (p : Nat) (released : Nat × Chunk) : List (Nat × Clause) :=
  (released.2.elements (effectiveSize p (bucketAt p released.1).size)).map fun e =>
    (released.1, decodeEntry p released.1 e)

theorem insertedAt_append (clauses : List Clause) (es es' : List BulkEvent) :
    insertedAt clauses (es ++ es') = insertedAt clauses es ++ insertedAt clauses es' := List.filterMap_append

theorem insertedAt_eq_nil {es : List BulkEvent} (h : ∀ e ∈ es, ∀ pos, e ≠ .inserted pos) :
    insertedAt clauses es = [] := by
  rw [insertedAt, List.filterMap_eq_nil_iff]
  intro e he
  cases e with
  | inserted pos => exact absurd rfl (h _ he pos)
  | evaluated pos verdict => rfl
  | deferred pos => rfl
  | discarded pos => rfl

theorem insertedAt_bulkEvent {es : List (BinFilling.Event (Clause × Nat))}
    (h : ∀ e ∈ es, clauses[e.item.2]? = some e.item.1) :
    insertedAt clauses (es.map ClauseSlot.bulkEvent) = (packedItems es).map Prod.fst := by
  induction es with
  | nil => rfl
  | cons e es ih =>
      have hrest := ih fun e he => h e (List.mem_cons_of_mem _ he)
      cases e with
      | asked x verdict => exact hrest
      | packed x =>
          have hx : clauses[x.2]? = some x.1 := h (.packed x) (List.mem_cons_self ..)
          simp only [List.map_cons, ClauseSlot.bulkEvent, insertedAt, List.filterMap_cons, hx]
          exact congrArg (x.1 :: ·) hrest

theorem releasedClauses_stolen (p : Nat) (stolen : Option (Nat × Chunk)) :
    (((stolen.toList.flatMap (releasedClauses p)).map Prod.snd : List Clause) : Multiset Clause) =
      stolenClauses p stolen := by
  cases stolen with
  | none => rfl
  | some x => simp [releasedClauses, stolenClauses, Function.comp_def]

/-- The clauses that are packed are stored the way they are read back. -/
theorem SlotFor.packedEntries_eq (h : SlotFor p i slot) {es : List (BinFilling.Event (Clause × Nat))}
    (hes : ∀ e ∈ es, slot.isClauseCompatible e.item.1 ∧ 1 ≤ e.item.1.lbd) :
    ((slot.packedEntries es : List (List Int)) : Multiset (List Int)).map (decodeEntry p i) =
      ((packedItems es).map fun x => readBack p x.1 : List Clause) := by
  rw [ClauseSlot.packedEntries, Multiset.map_coe, List.map_map]
  refine congrArg _ (List.map_congr_left fun x hx => ?_)
  obtain ⟨hc, hlbd⟩ := hes (.packed x) (BinFilling.mem_packedItems.mp hx)
  have hbucket := h.compatible_iff.mp hc
  exact decodeEntry_entryOf h (hbucket.size_eq.trans h.size_eq.symm) hlbd hbucket.slotPosition_eq

/-- Whatever an insertion of many clauses does, no clause gets lost except for those of a released chunk. -/
theorem Restocked.contents_eq {r : Insertion (BulkState κ)} (h : db.Sound) (hslot : db.slots[i]? = some slot)
    (hlbd : ∀ x ∈ slot.groupOf s.cPtr, 1 ≤ x.1.lbd) (hr : db.Restocked i slot conditional s r) :
    ∃ es : List (BinFilling.Event (Clause × Nat)), r.state.events = s.events ++ es.map ClauseSlot.bulkEvent ∧
      (∀ e ∈ es, e.item ∈ slot.groupOf s.cPtr) ∧ db.SameShape r.db ∧
      r.db.contents + stolenClauses db.maxLbdPartitionedSize r.stolen =
        ((packedItems es).map fun x => readBack db.maxLbdPartitionedSize x.1 : List Clause) + db.contents := by
  have hfor := h.slots i slot hslot
  have hspec := slot.filling_spec conditional s
  have hgood : ∀ x ∈ slot.groupOf s.cPtr, slot.isClauseCompatible x.1 ∧ 1 ≤ x.1.lbd :=
    fun x hx => ⟨slot.compatible_groupOf s.cPtr x hx, hlbd x hx⟩
  have hpacked : ∀ {es : List (BinFilling.Event (Clause × Nat))} {slot₁ slot₂ : ClauseSlot},
      (∀ e ∈ es, e.item ∈ slot.groupOf s.cPtr) → slot₁.kind = slot.kind → slot₂.kind = slot.kind →
      stored slot.entrySize slot₂.inner = stored slot.entrySize slot₁.inner + ↑(slot.packedEntries es) →
      slotContents db.maxLbdPartitionedSize i slot₂ =
        ((packedItems es).map fun x => readBack db.maxLbdPartitionedSize x.1 : List Clause) +
          slotContents db.maxLbdPartitionedSize i slot₁ := by
    intro es slot₁ slot₂ hes hkind₁ hkind₂ hstored
    rw [slotContents, slotContents, entrySize_eq_of_kind hkind₁, entrySize_eq_of_kind hkind₂, hstored,
      Multiset.map_add, hfor.packedEntries_eq fun e he => hgood _ (hes e he), add_comm]
  cases hr with
  | @kept result slot' s' _ hkind hheld hstored hdealt =>
      refine ⟨_, hdealt.events_eq, hspec.item_mem, sameShape_setSlot hslot hkind, ?_⟩
      have hset := contents_setSlot hslot slot'
      rw [hpacked hspec.item_mem rfl hkind hstored, add_left_comm, ← add_assoc] at hset
      rw [stolenClauses, add_zero]
      exact add_right_cancel hset
  | @grown result slot₁ slot' s' db₁ stolen o _ _ hsound₁ hkind₁ hheld₁ hstored₁ hobt hkind _ hstored hitems _ hdealt =>
      obtain ⟨hshape, hcontents, -⟩ := contents_second h hslot hsound₁ hkind₁ hheld₁
        (hpacked hspec.item_mem rfl hkind₁ hstored₁) hobt hkind (hpacked hitems hkind₁ hkind hstored)
      refine ⟨_, hdealt.events_eq, fun e he => ?_, hshape, ?_⟩
      · rcases List.mem_append.mp he with he | he
        · exact hspec.item_mem e he
        · exact hitems e he
      · rw [hcontents, BinFilling.Outcome.after, BinFilling.packedItems_append, List.map_append, Multiset.coe_add]

structure Performed where
  db : AdaptiveClauseDatabase
  accepted : List Clause := []
  exported : List Clause := []
  released : List (Nat × Chunk) := []

def Performed.append (r r' : Performed) : Performed where
  db := r'.db
  accepted := r.accepted ++ r'.accepted
  exported := r.exported ++ r'.exported
  released := r.released ++ r'.released

def Releasable (db : AdaptiveClauseDatabase) (released : Nat × Chunk) : Prop :=
  0 < released.1 ∧ released.1 < db.slots.length ∧
    ∃ slot, SlotFor db.maxLbdPartitionedSize released.1 slot ∧ released.2 ∈ slot.inner

structure Balanced (db : AdaptiveClauseDatabase) (r : Performed) : Prop where
  sound : r.db.Sound
  shape : db.SameShape r.db
  lbd_pos : ∀ c ∈ r.accepted, 1 ≤ c.lbd
  releasable : ∀ x ∈ r.released, db.Releasable x
  balance : ((r.accepted.map (readBack db.maxLbdPartitionedSize) : List Clause) : Multiset Clause) + db.contents =
    r.exported + r.db.contents +
      (((r.released.flatMap (releasedClauses db.maxLbdPartitionedSize)).map Prod.snd : List Clause) : Multiset Clause)

theorem SameShape.length_eq (h : db.SameShape db') : db'.slots.length = db.slots.length := by
  have := congrArg List.length h.kinds_eq
  rwa [List.length_map, List.length_map] at this

theorem balanced_unchanged (h : db.Sound) : db.Balanced { db := db } :=
  ⟨h, ⟨rfl, rfl, rfl⟩, by simp, by simp, by simp⟩

theorem Balanced.append {r r' : Performed} (h : db.Balanced r) (h' : r.db.Balanced r') :
    db.Balanced (r.append r') where
  sound := h'.sound
  shape := h.shape.trans h'.shape
  lbd_pos := by
    intro c hc
    rcases List.mem_append.mp hc with hc | hc
    · exact h.lbd_pos c hc
    · exact h'.lbd_pos c hc
  releasable := by
    intro x hx
    rcases List.mem_append.mp hx with hx | hx
    · exact h.releasable x hx
    · obtain ⟨hpos, hlt, hslot⟩ := h'.releasable x hx
      rw [h.shape.length_eq] at hlt
      rw [h.shape.partition_eq] at hslot
      exact ⟨hpos, hlt, hslot⟩
  balance := by
    have hfirst := h.balance
    have hsecond := h'.balance
    rw [h.shape.partition_eq] at hsecond
    simp only [Performed.append, List.map_append, List.flatMap_append, ← Multiset.coe_add]
    rw [add_right_comm, hfirst, add_right_comm, add_assoc _ r.db.contents, add_comm r.db.contents, hsecond]
    abel

theorem mem_of_insertedAt {es : List BulkEvent} (h : c ∈ insertedAt clauses es) : c ∈ clauses := by
  obtain ⟨e, -, he⟩ := List.mem_filterMap.mp h
  cases e with
  | inserted pos => exact List.mem_of_getElem? he
  | evaluated pos verdict => cases he
  | deferred pos => cases he
  | discarded pos => cases he

section Bulk

variable {released : List (Nat × Chunk)} (hclauses : ∀ c ∈ clauses, 1 ≤ c.lbd ∧ 0 ∉ c.lits)

include hclauses

theorem Sound.insertBulkReleasing (h : db.Sound) (hslot : db.slots[i]? = some slot)
    (hs : ∀ x ∈ s.cPtr, clauses[x.2]? = some x.1)
    (hok : db.insertBulkReleasing i slot conditional s = .ok (db', s', released)) :
    s'.cPtr = slot.behind s.cPtr ∧ ∃ es, s'.events = s.events ++ es ∧
      db.Balanced { db := db', accepted := insertedAt clauses es, released := released } := by
  have hgood : ∀ x ∈ s.cPtr, 1 ≤ x.1.lbd ∧ 0 ∉ x.1.lits := fun x hx => hclauses x.1 (List.mem_of_getElem? (hs x hx))
  have hproper : ∀ x ∈ s.cPtr, Proper x := fun x hx => ⟨by have := (hgood x hx).1; omega, (hgood x hx).2⟩
  have hsub : slot.groupOf s.cPtr ⊆ s.cPtr := (List.takeWhile_prefix _).subset
  have hplain : db.insertBulk i slot conditional s = .ok (db', s') := by
    rw [← forget_insertBulkReleasing, hok]
    rfl
  obtain ⟨db₂, s₂, hok₂, hins⟩ := @Sound.insertBulk κ slot conditional s (fun _ => True) db i h hslot hproper
    fun _ _ => trivial
  obtain ⟨rfl, rfl⟩ := Prod.mk.inj (Except.ok.inj (hok₂.symm.trans hplain))
  obtain ⟨r, rest, rfl, hr⟩ := h.insertBulk_restocked hslot hproper hplain
  obtain ⟨es, hevents, hitems, hshape, hcontents⟩ := @Restocked.contents_eq κ i db slot conditional
    { s with isClauseAdmitted := false } r h hslot (fun x hx => (hgood x (hsub hx)).1) hr.restocked
  obtain ⟨r₁, hr₁, -, hinserted⟩ :=
    @Sound.insert_bulkInserter κ slot conditional { s with isClauseAdmitted := false } db i h hslot hproper
  obtain rfl := Except.ok.inj (hr.inserted.symm.trans hr₁)
  have hreleased : released = r.stolen.toList := by
    obtain ⟨r', hr', hrest⟩ := Runs.exists_of_bind_eq_ok hok
    obtain rfl := Except.ok.inj (hr.inserted.symm.trans hr')
    obtain ⟨s₃, -, heq⟩ := Runs.exists_of_bind_eq_ok hrest
    exact (Prod.mk.inj (Prod.mk.inj (Except.ok.inj heq)).2).2.symm
  have haccepted : insertedAt clauses (es.map ClauseSlot.bulkEvent ++ rest) = (packedItems es).map Prod.fst := by
    rw [insertedAt_append, insertedAt_eq_nil fun e he => (hr.rest e he).2, List.append_nil]
    exact insertedAt_bulkEvent fun e he => hs _ (hsub (hitems e he))
  refine ⟨hins.cPtr_eq, _, by rw [hr.events_eq, hevents, List.append_assoc], hr.sound, hshape,
    fun c hc => (hclauses c (mem_of_insertedAt hc)).1, ?_, ?_⟩
  · rw [hreleased]
    intro x hx
    obtain ⟨hright, hlt, hof⟩ := hinserted.stolen_mem h hslot (Option.mem_toList.mp hx)
    exact ⟨by omega, hlt, hof⟩
  · simp only [haccepted, hreleased, List.map_map]
    rw [releasedClauses_stolen, Multiset.coe_nil, zero_add, hcontents]
    rfl

theorem Sound.bulkStepReleasing {pos : Nat} {rest : List (Clause × Nat)} (h : db.Sound)
    (hs : ∀ x ∈ s.cPtr, clauses[x.2]? = some x.1) (hptr : s.cPtr = (c, pos) :: rest)
    (hok : db.bulkStepReleasing conditional c rest s = .ok (db', s', released)) :
    s'.cPtr ⊆ s.cPtr ∧ ∃ es, s'.events = s.events ++ es ∧
      db.Balanced { db := db', accepted := insertedAt clauses es, released := released } := by
  rw [AdaptiveClauseDatabase.bulkStepReleasing] at hok
  cases hidx : db.getSlotIdx c.size c.lbd with
  | none =>
      rw [hidx] at hok
      obtain ⟨rfl, rfl, rfl⟩ := Prod.mk.inj (Except.ok.inj hok) |>.imp_right Prod.mk.inj
      refine ⟨?_, [], (List.append_nil _).symm, balanced_unchanged h⟩
      rw [hptr]
      exact List.subset_cons_self ..
  | some i =>
      obtain ⟨-, slot, hslot⟩ := getSlotIdx_some hidx
      simp only [hidx, hslot] at hok
      obtain ⟨hbehind, hes⟩ := h.insertBulkReleasing hclauses hslot hs hok
      refine ⟨?_, hes⟩
      rw [hbehind]
      exact (List.dropWhile_suffix _).subset

theorem Sound.bulkLoopReleasing {fuel : Nat} (h : db.Sound) (hs : ∀ x ∈ s.cPtr, clauses[x.2]? = some x.1)
    (hok : bulkLoopReleasing conditional fuel db s = .ok (db', s', released)) : ∃ es, s'.events = s.events ++ es ∧
      db.Balanced { db := db', accepted := insertedAt clauses es, released := released } := by
  induction fuel generalizing db s released with
  | zero =>
      cases hptr : s.cPtr with
      | nil =>
          rw [bulkLoopReleasing_nil _ hptr] at hok
          obtain ⟨rfl, rfl, rfl⟩ := Prod.mk.inj (Except.ok.inj hok) |>.imp_right Prod.mk.inj
          exact ⟨[], (List.append_nil _).symm, balanced_unchanged h⟩
      | cons x rest =>
          rw [AdaptiveClauseDatabase.bulkLoopReleasing.eq_def] at hok
          simp only [hptr] at hok
          cases hok
  | succ fuel ih =>
      cases hptr : s.cPtr with
      | nil =>
          rw [bulkLoopReleasing_nil _ hptr] at hok
          obtain ⟨rfl, rfl, rfl⟩ := Prod.mk.inj (Except.ok.inj hok) |>.imp_right Prod.mk.inj
          exact ⟨[], (List.append_nil _).symm, balanced_unchanged h⟩
      | cons x rest =>
          rw [bulkLoopReleasing_cons fuel hptr] at hok
          obtain ⟨⟨db₁, s₁, released₁⟩, hstep, hok⟩ := Runs.exists_of_bind_eq_ok hok
          obtain ⟨⟨db₂, s₂, released₂⟩, hloop, heq⟩ := Runs.exists_of_bind_eq_ok hok
          obtain ⟨rfl, rfl, rfl⟩ := Prod.mk.inj (Except.ok.inj heq) |>.imp_right Prod.mk.inj
          obtain ⟨hsub, es₁, hevents₁, hbalanced₁⟩ := h.bulkStepReleasing hclauses hs hptr hstep
          obtain ⟨es₂, hevents₂, hbalanced₂⟩ := ih hbalanced₁.sound (fun x hx => hs x (hsub hx)) hloop
          refine ⟨es₁ ++ es₂, by rw [hevents₂, hevents₁, List.append_assoc], ?_⟩
          rw [insertedAt_append]
          exact hbalanced₁.append hbalanced₂

end Bulk

inductive TrackedCall (κ : Type) where
  | addClause (c : Clause) (hlbd : 1 ≤ c.lbd)
  | bulkAddClauses (clauses deferredOut : List Clause) (stats : SolvingStatistics) (conditional : Conditional κ)
      (filter : κ) (hclauses : ∀ c ∈ clauses, 1 ≤ c.lbd ∧ 0 ∉ c.lits)
  | exportBuffer (options : ExportOptions)

def perform (db : AdaptiveClauseDatabase) : TrackedCall κ → Except DatabaseFault Performed
  | .addClause c _ =>
      match db.getSlotIdx c.size c.lbd with
      | none => .ok { db := db }
      | some i => (db.insertClause i c).map fun r => {
          db := r.db
          accepted := if addClauseResult r.result = .success then [c] else []
          released := r.stolen.toList }
  | .bulkAddClauses clauses deferredOut stats conditional filter _ =>
      (db.bulkAddClausesReleasing clauses deferredOut stats conditional filter).map fun r => {
        db := r.1
        accepted := insertedAt clauses r.2.1.events
        released := r.2.2 }
  | .exportBuffer options =>
      (db.exportBuffer options).map fun r => {
        db := r.2.2
        exported := writtenClauses db.maxLbdPartitionedSize r.1 }

theorem perform_db (db : AdaptiveClauseDatabase) (call : TrackedCall κ) :
    (db.perform call).map Performed.db = match call with
      | .addClause c _ => (db.addClause c).map Prod.snd
      | .bulkAddClauses clauses deferredOut stats conditional filter _ =>
          (db.bulkAddClauses clauses deferredOut stats conditional filter).map Prod.fst
      | .exportBuffer options => (db.exportBuffer options).map fun r => r.2.2 := by
  cases call with
  | addClause c hlbd =>
      simp only [perform, AdaptiveClauseDatabase.addClause]
      cases db.getSlotIdx c.size c.lbd with
      | none => rfl
      | some i =>
          simp only
          cases db.insertClause i c with
          | error e => rfl
          | ok r => rfl
  | bulkAddClauses clauses deferredOut stats conditional filter hclauses =>
      simp only [perform, ← forget_bulkAddClausesReleasing]
      cases db.bulkAddClausesReleasing clauses deferredOut stats conditional filter with
      | error e => rfl
      | ok r => rfl
  | exportBuffer options =>
      simp only [perform]
      cases db.exportBuffer options with
      | error e => rfl
      | ok r => rfl

theorem Sound.insertClause_balanced {r : Insertion Unit} (h : db.Sound) (hlbd : 1 ≤ c.lbd)
    (hidx : db.getSlotIdx c.size c.lbd = some i) (hok : db.insertClause i c = .ok r) :
    db.Balanced {
      db := r.db
      accepted := if addClauseResult r.result = .success then [c] else []
      released := r.stolen.toList } := by
  obtain ⟨hpos, slot, hslot⟩ := getSlotIdx_some hidx
  have hn := ClauseSlot.entrySize_pos (h.slots i slot hslot).sound
  rw [AdaptiveClauseDatabase.insertClause, hslot] at hok
  rcases h.insert (s := ()) hslot (ClauseSlot.insertOne_keepsState slot c)
      (ClauseSlot.insertOne_keepsLive hn (by omega)) with ⟨-, e, herror⟩ | ⟨r', hok', hsound, hins⟩
  · cases herror.symm.trans hok
  · obtain rfl := Except.ok.inj (hok'.symm.trans hok)
    obtain ⟨hshape, -, hcontents⟩ := hins.contents_eq h hslot hlbd hpos
    have hresult : addClauseResult r'.result = .success ↔ r'.result = .success := by
      cases r'.result with
      | success => exact iff_of_true rfl rfl
      | spuriousFail => exact iff_of_false (by simp [addClauseResult]) (by simp)
      | totalFail => exact iff_of_false (by simp [addClauseResult]) (by simp)
    refine ⟨hsound, hshape, fun d hd => ?_, fun x hx => ?_, ?_⟩
    · simp only [List.mem_ite_nil_right, List.mem_singleton] at hd
      rw [hd.2]
      exact hlbd
    · obtain ⟨hright, hlt, hof⟩ := hins.stolen_mem h hslot (Option.mem_toList.mp hx)
      exact ⟨by omega, hlt, hof⟩
    · simp only [releasedClauses_stolen, Multiset.coe_nil, zero_add, hcontents, hresult]
      split
      · rfl
      · rfl

theorem Sound.perform {call : TrackedCall κ} {r : Performed} (h : db.Sound) (hlbd : ∀ c ∈ db.contents, c.lbd ≠ 0)
    (hok : db.perform call = .ok r) : db.Balanced r := by
  cases call with
  | addClause c hc =>
      rw [AdaptiveClauseDatabase.perform] at hok
      cases hidx : db.getSlotIdx c.size c.lbd with
      | none =>
          rw [hidx] at hok
          obtain rfl := Except.ok.inj hok
          exact balanced_unchanged h
      | some i =>
          rw [hidx] at hok
          obtain ⟨r', hr', rfl⟩ := Runs.exists_of_map_eq_ok hok
          exact h.insertClause_balanced hc hidx hr'
  | bulkAddClauses clauses deferredOut stats conditional filter hclauses =>
      obtain ⟨⟨db', s', released⟩, hloop, rfl⟩ := Runs.exists_of_map_eq_ok hok
      have hs : ∀ x ∈ clauses.zipIdx, clauses[x.2]? = some x.1 := fun x hx => by
        rw [List.mem_zipIdx_iff_getElem?] at hx
        exact hx
      obtain ⟨es, hevents, hbalanced⟩ := h.bulkLoopReleasing hclauses hs hloop
      obtain rfl : s'.events = es := hevents
      exact hbalanced
  | exportBuffer options =>
      obtain ⟨⟨buffer, n, db'⟩, hexport, rfl⟩ := Runs.exists_of_map_eq_ok hok
      obtain ⟨hsound, hshape, hcontents⟩ := h.exportBuffer_written hlbd hexport
      refine ⟨hsound, hshape, by simp, by simp, ?_⟩
      simp [hcontents]

/-- A database in use, with the histogram of the deleted clauses, the clauses that were added, those that were
exported, and those that stood in a chunk that was released, each with the slot that has released it. -/
structure Tally where
  db : AdaptiveClauseDatabase
  hist : ClauseHistogram
  accepted : List Clause := []
  exported : List Clause := []
  released : List (Nat × Clause) := []

def Tally.record (tracked : List TrackedSlot) (t : Tally) (r : Performed) : Tally where
  db := r.db
  hist := r.released.foldl (recordRelease tracked) t.hist
  accepted := r.accepted ++ t.accepted
  exported := r.exported ++ t.exported
  released := r.released.flatMap (releasedClauses t.db.maxLbdPartitionedSize) ++ t.released

def Tally.step (tracked : List TrackedSlot) (t : Tally) (call : TrackedCall κ) : Except DatabaseFault Tally :=
  (t.db.perform call).map (t.record tracked)

def Tally.Accounted (t : Tally) : Prop := ∀ length,
  t.hist.recorded length = t.released.countP (fun x => x.2.size = length) ∧
    t.hist.recorded length + t.exported.countP (fun c => c.size = length) +
      t.db.contents.countP (fun c => c.size = length) = t.accepted.countP fun c => c.size = length

def Tracks (tracked : List TrackedSlot) (maxClauseSize : Nat) (db : AdaptiveClauseDatabase) : Prop :=
  ∀ i < db.slots.length, (bucketAt db.maxLbdPartitionedSize i).size ≤ maxClauseSize ∧
    ∃ s, tracked[i]? = some s ∧ s.slot.clauseSize = (bucketAt db.maxLbdPartitionedSize i).size

theorem Releasable.numElems_eq {x : Nat × Chunk} (h : db.Releasable x) :
    x.2.numElems = (releasedClauses db.maxLbdPartitionedSize x).length ∧
      ∀ y ∈ releasedClauses db.maxLbdPartitionedSize x,
        y.1 = x.1 ∧ y.2.size = (bucketAt db.maxLbdPartitionedSize x.1).size := by
  obtain ⟨-, -, slot, hfor, hmem⟩ := h
  have hcell := hfor.sound.cell x.2 hmem
  have hnum := hcell.numElems_eq
  rw [hfor.entrySize_eq] at hnum hcell
  refine ⟨by rw [hnum, releasedClauses, List.length_map], fun y hy => ?_⟩
  obtain ⟨e, he, rfl⟩ := List.mem_map.mp hy
  refine ⟨rfl, size_decodeEntry ?_⟩
  rcases hcell with ⟨-, -, b, hb, hsound, -⟩ | hdead
  · rw [Chunk.elements, hb] at he
    exact hsound.length_eq (effectiveSize_pos (bucketAt_size_pos ..)) e he
  · rw [hdead.elements_eq] at he
    cases he

section Recording

variable {tracked : List TrackedSlot} {maxClauseSize : Nat} (htracks : Tracks tracked maxClauseSize db)

include htracks

/-- A slot that knows the histogram records the clauses of the chunk that it releases. -/
theorem recorded_recordRelease {hist : ClauseHistogram} (hlen : hist.hist.length = maxClauseSize) {x : Nat × Chunk}
    (hx : db.Releasable x) (length : Nat) :
    (recordRelease tracked hist x).hist.length = maxClauseSize ∧
      (recordRelease tracked hist x).recorded length =
        hist.recorded length + (releasedClauses db.maxLbdPartitionedSize x).countP fun y =>
          told tracked y.1 && decide (y.2.size = length) := by
  obtain ⟨hnum, hclauses⟩ := hx.numElems_eq
  obtain ⟨hle, s, hs, hsize⟩ := htracks x.1 hx.2.1
  have htold : told tracked x.1 = s.histDeleted := by rw [told, hs]
  rw [recordRelease, hs]
  by_cases hknows : s.histDeleted = true
  · simp only [hknows, if_true, hsize]
    refine ⟨by rw [ClauseHistogram.length_increase, hlen], ?_⟩
    rw [ClauseHistogram.recorded_increase _ (bucketAt_size_pos ..) (hlen ▸ hle), hnum, Int.toNat_natCast]
    congr 1
    split
    · next hlength =>
        refine (List.countP_eq_length.mpr fun y hy => ?_).symm
        rw [(hclauses y hy).1, htold, hknows, (hclauses y hy).2, hlength]
        simp
    · next hlength =>
        refine (List.countP_eq_zero.mpr fun y hy => ?_).symm
        rw [(hclauses y hy).2]
        simp [Ne.symm hlength]
  · simp only [hknows]
    refine ⟨hlen, ?_⟩
    rw [List.countP_eq_zero.mpr fun y hy => ?_]
    · rfl
    · rw [(hclauses y hy).1, htold]
      simp [hknows]

theorem recorded_released {hist : ClauseHistogram} (hlen : hist.hist.length = maxClauseSize)
    {released : List (Nat × Chunk)} (hreleased : ∀ x ∈ released, db.Releasable x) :
    (released.foldl (recordRelease tracked) hist).hist.length = maxClauseSize ∧
      ∀ length, (released.foldl (recordRelease tracked) hist).recorded length = hist.recorded length +
        (released.flatMap (releasedClauses db.maxLbdPartitionedSize)).countP fun y =>
          told tracked y.1 && decide (y.2.size = length) := by
  induction released generalizing hist with
  | nil => exact ⟨hlen, fun _ => rfl⟩
  | cons x released ih =>
      have hx := recorded_recordRelease htracks hlen (hreleased x (List.mem_cons_self ..))
      obtain ⟨hlen', hrest⟩ := ih (hx 0).1 fun y hy => hreleased y (List.mem_cons_of_mem _ hy)
      refine ⟨hlen', fun length => ?_⟩
      rw [List.foldl_cons, hrest length, (hx length).2, List.flatMap_cons, List.countP_append, Nat.add_assoc]

end Recording

section Tally

variable {tracked : List TrackedSlot} {maxClauseSize : Nat} {start : AdaptiveClauseDatabase} {t t' : Tally}

structure Tally.Sound (start : AdaptiveClauseDatabase) (tracked : List TrackedSlot) (maxClauseSize : Nat) (t : Tally) :
    Prop where
  sound : t.db.Sound
  shape : start.SameShape t.db
  lbd_pos : ∀ c ∈ t.accepted, 1 ≤ c.lbd
  balance : ((t.accepted.map (readBack start.maxLbdPartitionedSize) : List Clause) : Multiset Clause) =
    t.exported + t.db.contents + ((t.released.map Prod.snd : List Clause) : Multiset Clause)
  length_eq : t.hist.hist.length = maxClauseSize
  recorded_eq : ∀ length, t.hist.recorded length =
    t.released.countP fun x => told tracked x.1 && decide (x.2.size = length)
  placed : ∀ x ∈ t.released, 0 < x.1 ∧ x.1 < start.slots.length ∧
    x.2.size = (bucketAt start.maxLbdPartitionedSize x.1).size

theorem Tally.Sound.lbd_ne (h : t.Sound start tracked maxClauseSize) : ∀ c ∈ t.db.contents, c.lbd ≠ 0 := by
  intro c hc
  have hmem : c ∈ ((t.accepted.map (readBack start.maxLbdPartitionedSize) : List Clause) : Multiset Clause) := by
    rw [h.balance]
    simp [hc]
  obtain ⟨d, hd, rfl⟩ := List.mem_map.mp (Multiset.mem_coe.mp hmem)
  exact readBack_ne (h.lbd_pos d hd)

theorem Tally.Sound.record {r : Performed} (h : t.Sound start tracked maxClauseSize)
    (htracks : Tracks tracked maxClauseSize start) (hr : t.db.Balanced r) :
    (t.record tracked r).Sound start tracked maxClauseSize := by
  have htracks' : Tracks tracked maxClauseSize t.db := by
    intro i hi
    rw [h.shape.partition_eq]
    exact htracks i (h.shape.length_eq ▸ hi)
  obtain ⟨hlen, hrecorded⟩ := recorded_released htracks' h.length_eq hr.releasable
  refine ⟨hr.sound, h.shape.trans hr.shape, ?_, ?_, hlen, fun length => ?_, fun y hy => ?_⟩
  · intro c hc
    rcases List.mem_append.mp hc with hc | hc
    · exact hr.lbd_pos c hc
    · exact h.lbd_pos c hc
  · have hbalance := hr.balance
    simp only [h.shape.partition_eq] at hbalance
    simp only [Tally.record, List.map_append, ← Multiset.coe_add, h.shape.partition_eq]
    rw [h.balance, add_comm (t.exported : Multiset Clause), add_assoc, ← add_assoc, hbalance]
    abel
  · simp only [Tally.record]
    rw [hrecorded length, h.recorded_eq length, List.countP_append, Nat.add_comm]
  · rcases List.mem_append.mp hy with hy | hy
    · obtain ⟨x, hx, hy⟩ := List.mem_flatMap.mp hy
      obtain ⟨hpos, hlt, -⟩ := hr.releasable x hx
      obtain ⟨hplace, hsize⟩ := (hr.releasable x hx).numElems_eq.2 y hy
      rw [hplace, hsize, ← h.shape.length_eq, h.shape.partition_eq]
      exact ⟨hpos, hlt, rfl⟩
    · exact h.placed y hy

theorem Tally.Sound.step {call : TrackedCall κ} (h : t.Sound start tracked maxClauseSize)
    (htracks : Tracks tracked maxClauseSize start) (hok : t.step tracked call = .ok t') :
    t'.Sound start tracked maxClauseSize := by
  obtain ⟨r, hr, rfl⟩ := Runs.exists_of_map_eq_ok hok
  exact h.record htracks (h.sound.perform h.lbd_ne hr)

/-- The histogram is right if and only if every clause in a released chunk was one of a slot that knows it. -/
theorem Tally.Sound.accounted_iff (h : t.Sound start tracked maxClauseSize) :
    t.Accounted ↔ ∀ x ∈ t.released, told tracked x.1 = true := by
  have hcount : ∀ length, t.accepted.countP (fun c => c.size = length) =
      t.exported.countP (fun c => c.size = length) + t.db.contents.countP (fun c => c.size = length) +
        t.released.countP (fun x => x.2.size = length) := by
    intro length
    have hsize : ∀ c, (readBack start.maxLbdPartitionedSize c).size = c.size := fun _ => rfl
    have hbalance := congrArg (Multiset.countP fun c => c.size = length) h.balance
    simpa [Multiset.countP_add, List.countP_map, Function.comp_def, hsize] using hbalance
  constructor
  · intro haccounted x hx
    have hsame : t.released.countP (fun y => told tracked y.1 && decide (y.2.size = x.2.size)) =
        (t.released.filter fun y => y.2.size = x.2.size).length := by
      rw [← h.recorded_eq, (haccounted x.2.size).1, List.countP_eq_length_filter]
    rw [← List.countP_filter, List.countP_eq_length] at hsame
    exact hsame x (List.mem_filter.mpr ⟨hx, by simp⟩)
  · intro hall length
    have hsame : t.hist.recorded length = t.released.countP fun x => x.2.size = length := by
      rw [h.recorded_eq length]
      refine List.countP_congr fun x hx => ?_
      simp [hall x hx]
    refine ⟨hsame, ?_⟩
    have := hcount length
    omega

end Tally

section Spares

variable {grow : Nat → Nat} {maxClauseSize chunkSize numChunks : Nat} {chk : Bool} {t t' : Tally}

/-- No chunk with clauses in it is released by a slot that has been moved since it was told the histogram. -/
def Tally.Spares (grow : Nat → Nat) (t : Tally) (call : TrackedCall κ) : Prop :=
  ∀ r, t.db.perform call = .ok r → ∀ x ∈ r.released, x.2.numElems ≠ 0 →
    ¬GrowingVector.Relocated grow x.1 t.db.slots.length

def Tally.start (maxClauseSize p chunkSize numChunks : Nat) (chk : Bool) : Tally where
  db := new maxClauseSize p chunkSize numChunks chk
  hist := .new maxClauseSize

def trackedSlots (grow : Nat → Nat) (maxClauseSize p chunkSize numChunks : Nat) (chk : Bool) : List TrackedSlot :=
  (trackSlots grow (new maxClauseSize p chunkSize numChunks chk).slots).elems

theorem slotFor_new {slot : ClauseSlot}
    (hslot : (new maxClauseSize p chunkSize numChunks chk).slots[i]? = some slot) :
    SlotFor p i slot ∧ slot.clauseSize ≤ maxClauseSize := by
  obtain ⟨hfor, -, hle, -⟩ := @createSlots_spec p slot maxClauseSize chunkSize _ 0 i hslot
  rw [Nat.zero_add] at hfor
  exact ⟨hfor, hle⟩

section Growing

variable (hgrow : ∀ n, n < grow n)

include hgrow

theorem tracks_new : Tracks (trackedSlots grow maxClauseSize p chunkSize numChunks chk) maxClauseSize
    (new maxClauseSize p chunkSize numChunks chk) := by
  intro i hi
  have hslot := List.getElem?_eq_getElem hi
  obtain ⟨hfor, hle⟩ := slotFor_new hslot
  obtain ⟨s, hs, hsame, -⟩ := trackSlots_spec hgrow hslot hfor.sound.quiet
  exact ⟨hfor.size_eq ▸ hle, s, hs, by rw [hsame]; exact hfor.size_eq⟩

theorem told_iff (hi : i < (new maxClauseSize p chunkSize numChunks chk).slots.length) :
    told (trackedSlots grow maxClauseSize p chunkSize numChunks chk) i = true ↔
      ¬GrowingVector.Relocated grow i (new maxClauseSize p chunkSize numChunks chk).slots.length := by
  have hslot := List.getElem?_eq_getElem hi
  obtain ⟨s, hs, -, hiff⟩ := trackSlots_spec hgrow hslot (slotFor_new hslot).1.sound.quiet
  rw [told, trackedSlots, hs]
  exact hiff

/-- After a call the histogram is still right if and only if the call spares the slots that have been moved. -/
theorem Tally.Sound.accounted_step {call : TrackedCall κ}
    (h : t.Sound (new maxClauseSize p chunkSize numChunks chk)
      (trackedSlots grow maxClauseSize p chunkSize numChunks chk) maxClauseSize) (haccounted : t.Accounted)
    (hok : t.step (trackedSlots grow maxClauseSize p chunkSize numChunks chk) call = .ok t') :
    t'.Accounted ↔ t.Spares grow call := by
  rw [(h.step (tracks_new hgrow) hok).accounted_iff]
  obtain ⟨r, hr, rfl⟩ := Runs.exists_of_map_eq_ok hok
  have hbalanced := h.sound.perform h.lbd_ne hr
  have htold : ∀ x ∈ r.released, told (trackedSlots grow maxClauseSize p chunkSize numChunks chk) x.1 = true ↔
      ¬GrowingVector.Relocated grow x.1 t.db.slots.length := by
    intro x hx
    rw [told_iff hgrow (h.shape.length_eq ▸ (hbalanced.releasable x hx).2.1), h.shape.length_eq]
  constructor
  · intro hall r' hr' x hx hnum
    obtain rfl := Except.ok.inj (hr.symm.trans hr')
    obtain ⟨hlength, hclauses⟩ := (hbalanced.releasable x hx).numElems_eq
    rw [hlength, Int.natCast_ne_zero, ← Nat.pos_iff_ne_zero, List.length_pos_iff_exists_mem] at hnum
    obtain ⟨y, hy⟩ := hnum
    rw [← htold x hx, ← (hclauses y hy).1]
    exact hall y (List.mem_append_left _ (List.mem_flatMap.mpr ⟨x, hx, hy⟩))
  · intro hspares y hy
    rcases List.mem_append.mp hy with hy | hy
    · obtain ⟨x, hx, hy⟩ := List.mem_flatMap.mp hy
      obtain ⟨hlength, hclauses⟩ := (hbalanced.releasable x hx).numElems_eq
      rw [(hclauses y hy).1, htold x hx]
      refine hspares r hr x hx ?_
      rw [hlength, Int.natCast_ne_zero, ← Nat.pos_iff_ne_zero]
      exact List.length_pos_of_mem hy
    · exact h.accounted_iff.mp haccounted y hy

end Growing

theorem Tally.sound_start (tracked : List TrackedSlot) :
    (Tally.start maxClauseSize p chunkSize numChunks chk).Sound (new maxClauseSize p chunkSize numChunks chk) tracked
      maxClauseSize := by
  have hnew := (stores_new maxClauseSize p chunkSize numChunks chk).1
  refine ⟨hnew.sound, ⟨rfl, rfl, rfl⟩, by simp [Tally.start], ?_, List.length_replicate .., fun length => ?_,
    by simp [Tally.start]⟩
  · simp [Tally.start, hnew.contents_eq]
  · exact ClauseHistogram.recorded_new ..

end Spares

end AdaptiveClauseDatabase

end Mallob.Sharing
