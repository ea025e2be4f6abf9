import Mallob.BulkContents
import Mallob.BulkAccounting
import Mallob.GrowingVector

namespace Mallob.Sharing

structure ClauseHistogram where
  total : Nat := 0
  hist : List Nat
deriving DecidableEq

namespace ClauseHistogram

def new (maxSize : Nat) : ClauseHistogram where
  hist := List.replicate maxSize 0

def increase (h : ClauseHistogram) (size amount : Nat) : ClauseHistogram where
  total := h.total + amount
  hist := h.hist.modify (min size h.hist.length - 1) (· + amount)

def recorded (h : ClauseHistogram) (length : Nat) : Nat := if length = 0 then 0 else h.hist.getD (length - 1) 0

theorem length_increase (h : ClauseHistogram) (size amount : Nat) :
    (h.increase size amount).hist.length = h.hist.length := List.length_modify ..

theorem recorded_new (maxSize length : Nat) : (new maxSize).recorded length = 0 := by
  rw [recorded]
  split
  · rfl
  · rw [new, List.getD_eq_getElem?_getD, List.getElem?_replicate]
    split
    · rfl
    · rfl

theorem recorded_increase (h : ClauseHistogram) {size : Nat} (hpos : 1 ≤ size) (hle : size ≤ h.hist.length)
    (amount length : Nat) :
    (h.increase size amount).recorded length = h.recorded length + if length = size then amount else 0 := by
  rw [recorded, recorded]
  by_cases hzero : length = 0
  · rw [if_pos hzero, if_pos hzero, if_neg (by omega)]
  · rw [if_neg hzero, if_neg hzero, increase, Nat.min_eq_left hle, List.getD_eq_getElem?_getD,
      List.getD_eq_getElem?_getD, List.getElem?_modify]
    by_cases hsize : length = size
    · subst hsize
      have hlt : length - 1 < h.hist.length := by omega
      simp [List.getElem?_eq_getElem hlt]
    · have hne : ¬size - 1 = length - 1 := by omega
      simp [hsize, hne]

end ClauseHistogram

structure TrackedSlot where
  slot : ClauseSlot
  histDeleted : Bool := false

/-- A slot is moved field by field, except for the pointer to the histogram. -/
def TrackedSlot.move (s : TrackedSlot) : TrackedSlot where
  slot := { s.slot with acquiringChunk := false, modifyingListEnd := false }

def TrackedSlot.setDeletedClausesHistogram (s : TrackedSlot) : TrackedSlot := { s with histDeleted := true }

namespace AdaptiveClauseDatabase

variable {κ : Type}

def trackSlots (grow : Nat → Nat) (slots : List ClauseSlot) : GrowingVector TrackedSlot :=
  .build grow TrackedSlot.move TrackedSlot.setDeletedClausesHistogram (slots.map fun slot => { slot := slot })

def told (tracked : List TrackedSlot) (i : Nat) : Bool :=
  match tracked[i]? with
  | none => false
  | some s => s.histDeleted

def recordRelease (tracked : List TrackedSlot) (hist : ClauseHistogram) (released : Nat × Chunk) : ClauseHistogram :=
  match tracked[released.1]? with
  | none => hist
  | some s => if s.histDeleted then hist.increase s.slot.clauseSize released.2.numElems.toNat else hist

/-- The insertion of many clauses into a slot, with the chunk that another slot has released for it. -/
def insertBulkReleasing (db : AdaptiveClauseDatabase) (slotIdx : Nat) (slot : ClauseSlot) (conditional : Conditional κ)
    (s : BulkState κ) : Except DatabaseFault (AdaptiveClauseDatabase × BulkState κ × List (Nat × Chunk)) := do
  let r ← db.insert slotIdx slot (slot.bulkInserter conditional) { s with isClauseAdmitted := false }
  let s' ← slot.treatRest conditional r.result r.state.cPtr r.state
  return (r.db, s', r.stolen.toList)

def bulkStepReleasing (db : AdaptiveClauseDatabase) (conditional : Conditional κ) (c : Clause)
    (rest : List (Clause × Nat)) (s : BulkState κ) :
    Except DatabaseFault (AdaptiveClauseDatabase × BulkState κ × List (Nat × Chunk)) :=
  match db.getSlotIdx c.size c.lbd with
  | none => .ok (db, { s with cPtr := rest }, [])
  | some slotIdx =>
      match db.slots[slotIdx]? with
      | none => .error .indexOutOfRange
      | some slot => db.insertBulkReleasing slotIdx slot conditional s

def bulkLoopReleasing (conditional : Conditional κ) :
    Nat → AdaptiveClauseDatabase → BulkState κ →
      Except DatabaseFault (AdaptiveClauseDatabase × BulkState κ × List (Nat × Chunk))
  | fuel, db, s =>
      match s.cPtr, fuel with
      | [], _ => .ok (db, s, [])
      | _ :: _, 0 => .error .unfinished
      | (c, _) :: rest, fuel + 1 => do
          let (db₁, s₁, released) ← db.bulkStepReleasing conditional c rest s
          let (db', s', released') ← bulkLoopReleasing conditional fuel db₁ s₁
          return (db', s', released ++ released')

def bulkAddClausesReleasing (db : AdaptiveClauseDatabase) (clauses deferredOut : List Clause)
    (stats : SolvingStatistics) (conditional : Conditional κ) (filter : κ) :
    Except DatabaseFault (AdaptiveClauseDatabase × BulkState κ × List (Nat × Chunk)) :=
  bulkLoopReleasing conditional clauses.length db (.start clauses deferredOut stats filter)

/-- The slots of the vector are those that were moved into it, and a slot knows the histogram if and only if the
vector has not grown since then. -/
theorem trackSlots_spec {grow : Nat → Nat} (hgrow : ∀ n, n < grow n) {slots : List ClauseSlot} {slot : ClauseSlot}
    {i : Nat} (hslot : slots[i]? = some slot) (hquiet : slot.acquiringChunk = false ∧ slot.modifyingListEnd = false) :
    ∃ s, (trackSlots grow slots).elems[i]? = some s ∧ s.slot = slot ∧
      (s.histDeleted = true ↔ ¬GrowingVector.Relocated grow i slots.length) := by
  have hmove : ∀ s : TrackedSlot, s.move.move = s.move := fun s => rfl
  have hbuilt := GrowingVector.built_build hgrow hmove TrackedSlot.setDeletedClausesHistogram
    (slots.map fun slot => { slot := slot })
  have hmapped : (slots.map fun slot => ({ slot := slot } : TrackedSlot))[i]? = some { slot := slot } := by
    rw [List.getElem?_map, hslot]
    rfl
  have hsame : ({ slot with acquiringChunk := false, modifyingListEnd := false } : ClauseSlot) = slot := by
    obtain ⟨hacquiring, hmodifying⟩ := hquiet
    cases slot
    subst hacquiring hmodifying
    rfl
  have hlength : (slots.map fun slot => ({ slot := slot } : TrackedSlot)).length = slots.length := List.length_map ..
  by_cases hrelocated : GrowingVector.Relocated grow i slots.length
  · refine ⟨_, hbuilt.relocated i _ hmapped (by rwa [hlength]), hsame, ?_⟩
    exact iff_of_false Bool.false_ne_true (not_not.mpr hrelocated)
  · exact ⟨_, hbuilt.stayed i _ hmapped (by rwa [hlength]), hsame, iff_of_true rfl hrelocated⟩

variable {db : AdaptiveClauseDatabase} {slot : ClauseSlot} {conditional : Conditional κ} {s : BulkState κ} {c : Clause}
  {rest : List (Clause × Nat)} {i : Nat}

theorem forget_insertBulkReleasing : (db.insertBulkReleasing i slot conditional s).map (fun r => (r.1, r.2.1)) =
    db.insertBulk i slot conditional s := by
  rw [insertBulkReleasing, insertBulk]
  cases db.insert i slot (slot.bulkInserter conditional) { s with isClauseAdmitted := false } with
  | error e => rfl
  | ok r =>
      simp only [bind, Except.bind]
      cases slot.treatRest conditional r.result r.state.cPtr r.state with
      | error e => rfl
      | ok s' => rfl

theorem forget_bulkStepReleasing : (db.bulkStepReleasing conditional c rest s).map (fun r => (r.1, r.2.1)) =
    db.bulkStep conditional c rest s := by
  rw [bulkStepReleasing, bulkStep]
  cases db.getSlotIdx c.size c.lbd with
  | none => rfl
  | some i =>
      simp only
      cases db.slots[i]? with
      | none => rfl
      | some slot => exact forget_insertBulkReleasing

theorem bulkLoopReleasing_nil (fuel : Nat) (hptr : s.cPtr = []) :
    bulkLoopReleasing conditional fuel db s = .ok (db, s, []) := by
  rw [bulkLoopReleasing.eq_def]
  simp only [hptr]

theorem bulkLoopReleasing_cons {pos : Nat} (fuel : Nat) (hptr : s.cPtr = (c, pos) :: rest) :
    bulkLoopReleasing conditional (fuel + 1) db s = do
      let (db₁, s₁, released) ← db.bulkStepReleasing conditional c rest s
      let (db', s', released') ← bulkLoopReleasing conditional fuel db₁ s₁
      return (db', s', released ++ released') := by
  rw [bulkLoopReleasing.eq_def]
  simp only [hptr]

/-- Apart from the chunks that are released, the loop is the one of a call. -/
theorem forget_bulkLoopReleasing (fuel : Nat) :
    (bulkLoopReleasing conditional fuel db s).map (fun r => (r.1, r.2.1)) = bulkLoop conditional fuel db s := by
  induction fuel generalizing db s with
  | zero =>
      cases hptr : s.cPtr with
      | nil =>
          rw [bulkLoopReleasing_nil _ hptr, bulkLoop_nil _ hptr]
          rfl
      | cons x rest =>
          rw [bulkLoopReleasing.eq_def, bulkLoop.eq_def]
          simp only [hptr]
          rfl
  | succ fuel ih =>
      cases hptr : s.cPtr with
      | nil =>
          rw [bulkLoopReleasing_nil _ hptr, bulkLoop_nil _ hptr]
          rfl
      | cons x rest =>
          rw [bulkLoopReleasing_cons fuel hptr, bulkLoop_cons fuel hptr, ← forget_bulkStepReleasing]
          cases db.bulkStepReleasing conditional x.1 rest s with
          | error e => rfl
          | ok r =>
              simp only [bind, Except.bind, Except.map, ← ih]
              cases bulkLoopReleasing conditional fuel r.1 r.2.1 with
              | error e => rfl
              | ok r' => rfl

/-- A call releases chunks and does what it does without them being noted. -/
theorem forget_bulkAddClausesReleasing (clauses deferredOut : List Clause) (stats : SolvingStatistics) (filter : κ) :
    (db.bulkAddClausesReleasing clauses deferredOut stats conditional filter).map (fun r => (r.1, r.2.1)) =
      db.bulkAddClauses clauses deferredOut stats conditional filter :=
  forget_bulkLoopReleasing clauses.length

end AdaptiveClauseDatabase

end Mallob.Sharing
