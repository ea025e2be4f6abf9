import Mallob.Handshake
import Mallob.HordeProcess
import Mallob.Runs

namespace Mallob.HordeProcess

open Handshake Runs

def State.importSlot (s : State) : Slot (List Int × Checksum) where
  doFlag := s.hsm.doImport
  didFlag := s.hsm.didImport
  content := (s.hsm.importBuffer.take s.hsm.importBufferSize, s.hsm.importChecksum)
  deferred := s.adapter.tempClauseBuffers
  taken := s.process.digestSharing

def State.returnSlot (s : State) : Slot (List Int) where
  doFlag := s.hsm.doReturnClauses
  didFlag := s.hsm.didReturnClauses
  content := s.hsm.returnedBuffer.take s.hsm.returnedBufferSize
  deferred := s.adapter.tempReturnedClauses
  taken := s.process.returnClauses.map Prod.fst

structure Fitting (maxSize : Nat) (s : State) : Prop where
  bound : s.hsm.importBufferMaxSize = maxSize
  memory : s.hsm.returnedBuffer.length = maxSize
  returning : s.hsm.returnedBufferSize ≤ maxSize
  buffers : ∀ buffer ∈ s.adapter.tempClauseBuffers, buffer.1.length ≤ maxSize
  returned : ∀ clauses ∈ s.adapter.tempReturnedClauses, clauses.length ≤ maxSize
  sizes : ∀ call ∈ s.process.returnClauses, call.1.length = call.2 ∧ call.2 ≤ maxSize

theorem memcpy_take (buffer values : List Int) {size : Nat} (h : values.length ≤ size) :
    (memcpy buffer values size).take values.length = values := by
  rw [memcpy, List.take_of_length_le h, List.take_left]

theorem length_memcpy {buffer values : List Int} {size : Nat} (h : size ≤ buffer.length) :
    (memcpy buffer values size).length = buffer.length := by
  rw [memcpy, List.length_append, List.length_drop, List.length_take]
  omega

section Steps

variable {maxSize : Nat} {s s' : State}

theorem doDigest_slot {clauses : List Int} {checksum : Checksum} (h : doDigest s clauses checksum = .ok s') :
    s'.importSlot = { s.importSlot with content := (clauses, checksum), doFlag := true } ∧
      s'.returnSlot = s.returnSlot := by
  rw [doDigest] at h
  split at h
  · obtain rfl := Except.ok.inj h
    refine ⟨?_, rfl⟩
    simp [State.importSlot, memcpy_take]
  · cases h

theorem doDigest_fitting {clauses : List Int} {checksum : Checksum} (hf : Fitting maxSize s)
    (h : doDigest s clauses checksum = .ok s') : Fitting maxSize s' ∧ s'.adapter = s.adapter := by
  rw [doDigest] at h
  split at h
  · obtain rfl := Except.ok.inj h
    exact ⟨⟨hf.bound, hf.memory, hf.returning, hf.buffers, hf.returned, hf.sizes⟩, rfl⟩
  · cases h

theorem doReturnClauses_slot {clauses : List Int} (hsize : clauses.length ≤ s.hsm.importBufferMaxSize) :
    (doReturnClauses s clauses).returnSlot = { s.returnSlot with content := clauses, doFlag := true } := by
  simp [State.returnSlot, doReturnClauses, memcpy_take, hsize]

theorem doReturnClauses_fitting (hf : Fitting maxSize s) {clauses : List Int} (hsize : clauses.length ≤ maxSize) :
    Fitting maxSize (doReturnClauses s clauses) := by
  refine ⟨hf.bound, ?_, hsize, hf.buffers, hf.returned, hf.sizes⟩
  have hmemory := hf.memory
  have hbound := hf.bound
  exact (length_memcpy (by omega)).trans hmemory

theorem digestClauses_slot {clauses : List Int} {checksum : Checksum} (h : digestClauses s clauses checksum = .ok s') :
    s'.importSlot = s.importSlot.pass (clauses, checksum) ∧ s'.returnSlot = s.returnSlot := by
  rw [digestClauses] at h
  split at h
  · rename_i hdo
    obtain rfl := Except.ok.inj h
    exact ⟨(Slot.pass_busy (x := s.importSlot) hdo _).symm, rfl⟩
  · rename_i hdo
    obtain ⟨himport, hreturn⟩ := doDigest_slot h
    refine ⟨?_, hreturn⟩
    rw [himport]
    exact (Slot.pass_free hdo _).symm

theorem digestClauses_fitting {clauses : List Int} {checksum : Checksum} (hf : Fitting maxSize s)
    (hsize : clauses.length ≤ maxSize) (h : digestClauses s clauses checksum = .ok s') : Fitting maxSize s' := by
  rw [digestClauses] at h
  split at h
  · obtain rfl := Except.ok.inj h
    refine ⟨hf.bound, hf.memory, hf.returning, ?_, hf.returned, hf.sizes⟩
    intro buffer hbuffer
    rcases List.mem_append.mp hbuffer with hold | hnew
    · exact hf.buffers buffer hold
    · rw [List.mem_singleton.mp hnew]
      exact hsize
  · exact (doDigest_fitting hf h).1

theorem returnClauses_slot {clauses : List Int} (hsize : clauses.length ≤ s.hsm.importBufferMaxSize) :
    (returnClauses s clauses).returnSlot = s.returnSlot.pass clauses ∧
      (returnClauses s clauses).importSlot = s.importSlot := by
  rw [returnClauses]
  split
  · rename_i hdo
    exact ⟨(Slot.pass_busy (x := s.returnSlot) hdo _).symm, rfl⟩
  · rename_i hdo
    refine ⟨?_, rfl⟩
    rw [doReturnClauses_slot hsize]
    exact (Slot.pass_free hdo _).symm

theorem returnClauses_fitting (hf : Fitting maxSize s) {clauses : List Int} (hsize : clauses.length ≤ maxSize) :
    Fitting maxSize (returnClauses s clauses) := by
  rw [returnClauses]
  split
  · refine ⟨hf.bound, hf.memory, hf.returning, hf.buffers, ?_, hf.sizes⟩
    intro clauses' hclauses
    rcases List.mem_append.mp hclauses with hold | hnew
    · exact hf.returned clauses' hold
    · rw [List.mem_singleton.mp hnew]
      exact hsize
  · exact doReturnClauses_fitting hf hsize

/-- The parts of the state that the handover of revisions leaves alone. -/
theorem publishRevision_frame (s : State) : (publishRevision s).importSlot = s.importSlot ∧
    (publishRevision s).returnSlot = s.returnSlot ∧ (Fitting maxSize s → Fitting maxSize (publishRevision s)) := by
  rw [publishRevision]
  split
  · exact ⟨rfl, rfl, fun hf => ⟨hf.bound, hf.memory, hf.returning, hf.buffers, hf.returned, hf.sizes⟩⟩
  · exact ⟨rfl, rfl, fun hf => hf⟩

theorem resetStart_frame (s : State) : (resetStart s).importSlot = s.importSlot ∧
    (resetStart s).returnSlot = s.returnSlot ∧ (Fitting maxSize s → Fitting maxSize (resetStart s)) := by
  rw [resetStart]
  split
  · exact ⟨rfl, rfl, fun hf => ⟨hf.bound, hf.memory, hf.returning, hf.buffers, hf.returned, hf.sizes⟩⟩
  · exact ⟨rfl, rfl, fun hf => hf⟩

theorem importRevision_frame (s : State) : (importRevision s).importSlot = s.importSlot ∧
    (importRevision s).returnSlot = s.returnSlot ∧ (Fitting maxSize s → Fitting maxSize (importRevision s)) := by
  rw [importRevision]
  split
  · obtain ⟨himport, hreturn, hfitting⟩ := @resetStart_frame maxSize
      { s with
        hsm := { s.hsm with didStartNextRevision := true }
        process := { s.process with
          desiredRevision := s.hsm.desiredRevision
          lastImportedRevision := s.process.lastImportedRevision + 1 } }
    exact ⟨himport, hreturn, fun hf => hfitting ⟨hf.bound, hf.memory, hf.returning, hf.buffers, hf.returned, hf.sizes⟩⟩
  · exact resetStart_frame s

theorem takeBack_slot (s : State) : (takeBack s).importSlot = s.importSlot.acknowledge ∧
    (takeBack s).returnSlot = s.returnSlot.acknowledge := by
  refine ⟨?_, ?_⟩
  · cases hdid : s.hsm.didImport <;> simp [takeBack, State.importSlot, Slot.acknowledge, hdid]
  · cases hdid : s.hsm.didReturnClauses <;> simp [takeBack, State.returnSlot, Slot.acknowledge, hdid]

theorem takeBack_fitting (hf : Fitting maxSize s) : Fitting maxSize (takeBack s) :=
  ⟨hf.bound, hf.memory, hf.returning, hf.buffers, hf.returned, hf.sizes⟩

/-- Deferred buffers fit, so that the parent can always go on to the next. -/
theorem digestNext_ok (hf : Fitting maxSize s) : ∃ s', digestNext s = .ok s' ∧
    s'.importSlot = s.importSlot.refill ∧ s'.returnSlot = s.returnSlot ∧ Fitting maxSize s' := by
  rw [digestNext]
  split
  · rename_i hfree
    split
    · rename_i hnil
      exact ⟨s, rfl, (Slot.refill_nil hnil).symm, rfl, hf⟩
    · rename_i clauses checksum buffers hcons
      have hsize : clauses.length ≤ s.hsm.importBufferMaxSize := by
        rw [hf.bound]
        exact hf.buffers (clauses, checksum) (by rw [hcons]; exact List.mem_cons_self)
      cases hdigest : doDigest s clauses checksum with
      | error e =>
          rw [doDigest, if_pos hsize] at hdigest
          cases hdigest
      | ok s₁ =>
          obtain ⟨himport, hreturn⟩ := doDigest_slot hdigest
          obtain ⟨hf₁, hadapter⟩ := doDigest_fitting hf hdigest
          refine ⟨_, rfl, ?_, hreturn, hf₁.bound, hf₁.memory, hf₁.returning, ?_, hf₁.returned, hf₁.sizes⟩
          · have hslot : { s₁ with adapter.tempClauseBuffers := buffers }.importSlot =
                { s₁.importSlot with deferred := buffers } := rfl
            rw [Slot.refill_cons (x := s.importSlot) hfree hcons]
            exact hslot.trans (by rw [himport])
          · intro buffer hbuffer
            exact hf.buffers buffer (by rw [hcons]; exact List.mem_cons_of_mem _ hbuffer)
  · rename_i hbusy
    exact ⟨s, rfl, (Slot.refill_busy hbusy).symm, rfl, hf⟩

theorem returnNext_slot (hf : Fitting maxSize s) : (returnNext s).returnSlot = s.returnSlot.refill ∧
    (returnNext s).importSlot = s.importSlot ∧ Fitting maxSize (returnNext s) := by
  rw [returnNext]
  split
  · rename_i hfree
    split
    · rename_i hnil
      exact ⟨(Slot.refill_nil hnil).symm, rfl, hf⟩
    · rename_i clauses buffers hcons
      have hsize := hf.returned clauses (by rw [hcons]; exact List.mem_cons_self)
      have hf₁ := doReturnClauses_fitting hf hsize
      refine ⟨?_, rfl, hf₁.bound, hf₁.memory, hf₁.returning, hf₁.buffers, ?_, hf₁.sizes⟩
      · have hslot : { doReturnClauses s clauses with adapter.tempReturnedClauses := buffers }.returnSlot =
            { (doReturnClauses s clauses).returnSlot with deferred := buffers } := rfl
        rw [Slot.refill_cons (x := s.returnSlot) hfree hcons]
        exact hslot.trans (by rw [doReturnClauses_slot (hf.bound.symm ▸ hsize)])
      · intro clauses' hclauses
        exact hf.returned clauses' (by rw [hcons]; exact List.mem_cons_of_mem _ hclauses)
  · rename_i hbusy
    exact ⟨(Slot.refill_busy hbusy).symm, rfl, hf⟩

theorem check_ok (hf : Fitting maxSize s) : ∃ s', check s = .ok s' ∧
    s'.importSlot = s.importSlot.acknowledge.refill ∧ s'.returnSlot = s.returnSlot.acknowledge.refill ∧
    Fitting maxSize s' := by
  obtain ⟨himport₁, hreturn₁⟩ := takeBack_slot s
  obtain ⟨himport₂, hreturn₂, hfitting₂⟩ := @publishRevision_frame maxSize (takeBack s)
  obtain ⟨s₃, hok, himport₃, hreturn₃, hf₃⟩ := digestNext_ok (hfitting₂ (takeBack_fitting hf))
  obtain ⟨hreturn₄, himport₄, hf₄⟩ := returnNext_slot hf₃
  refine ⟨returnNext s₃, ?_, ?_, ?_, hf₄⟩
  · rw [check, hok]
    rfl
  · rw [himport₄, himport₃, himport₂, himport₁]
  · rw [hreturn₄, hreturn₃, hreturn₂, hreturn₁]

theorem importClauses_slot (s : State) : (importClauses s).importSlot =
    (s.importSlot.takeContent (s.hsm.importBufferRevision ≤ s.process.lastImportedRevision)).reset ∧
    (importClauses s).returnSlot = s.returnSlot := by
  cases hdo : s.hsm.doImport <;> cases hdid : s.hsm.didImport <;>
    by_cases hrev : s.hsm.importBufferRevision ≤ s.process.lastImportedRevision <;>
    simp [importClauses, State.importSlot, State.returnSlot, Slot.takeContent, Slot.reset, hdo, hdid, hrev]

theorem importClauses_fitting (hf : Fitting maxSize s) : Fitting maxSize (importClauses s) := by
  rw [importClauses]
  dsimp only
  split <;> split <;> exact ⟨hf.bound, hf.memory, hf.returning, hf.buffers, hf.returned, hf.sizes⟩

theorem reinsertClauses_slot (s : State) :
    (reinsertClauses s).returnSlot = (s.returnSlot.takeContent true).reset ∧
    (reinsertClauses s).importSlot = s.importSlot := by
  cases hdo : s.hsm.doReturnClauses <;> cases hdid : s.hsm.didReturnClauses <;>
    simp [reinsertClauses, State.importSlot, State.returnSlot, Slot.takeContent, Slot.reset, hdo, hdid]

theorem reinsertClauses_fitting (hf : Fitting maxSize s) : Fitting maxSize (reinsertClauses s) := by
  have hsizes : ∀ call ∈ s.process.returnClauses ++
      [(s.hsm.returnedBuffer.take s.hsm.returnedBufferSize, s.hsm.returnedBufferSize)],
      call.1.length = call.2 ∧ call.2 ≤ maxSize := by
    intro call hcall
    rcases List.mem_append.mp hcall with hold | hnew
    · exact hf.sizes call hold
    · rw [List.mem_singleton.mp hnew]
      refine ⟨?_, hf.returning⟩
      rw [List.length_take, hf.memory]
      exact min_eq_left hf.returning
  rw [reinsertClauses]
  dsimp only
  split <;> split
  · exact ⟨hf.bound, hf.memory, hf.returning, hf.buffers, hf.returned, hsizes⟩
  · exact ⟨hf.bound, hf.memory, hf.returning, hf.buffers, hf.returned, hsizes⟩
  · exact ⟨hf.bound, hf.memory, hf.returning, hf.buffers, hf.returned, hf.sizes⟩
  · exact hf

/-- An iteration leaves both buffers alone while it waits for a revision. -/
theorem iteration_slots (hf : Fitting maxSize s) : Fitting maxSize (iteration s) ∧
    ((iteration s).importSlot = s.importSlot ∧ (iteration s).returnSlot = s.returnSlot ∨
      ∃ ready, (iteration s).importSlot = (s.importSlot.takeContent ready).reset ∧
        (iteration s).returnSlot = (s.returnSlot.takeContent true).reset) := by
  obtain ⟨s₁, hs₁, himport₁, hreturn₁, hf₁⟩ : ∃ s₁, (if awaitsRevision s then importRevision s else s) = s₁ ∧
      s₁.importSlot = s.importSlot ∧ s₁.returnSlot = s.returnSlot ∧ Fitting maxSize s₁ := by
    obtain ⟨himport, hreturn, hfitting⟩ := @importRevision_frame maxSize s
    refine ⟨_, rfl, ?_⟩
    split
    · exact ⟨himport, hreturn, hfitting hf⟩
    · exact ⟨rfl, rfl, hf⟩
  rw [iteration, hs₁]
  split
  · exact ⟨hf₁, Or.inl ⟨himport₁, hreturn₁⟩⟩
  · obtain ⟨himport₂, hreturn₂, hfitting₂⟩ := @resetStart_frame maxSize s₁
    obtain ⟨himport₃, hreturn₃⟩ := importClauses_slot (resetStart s₁)
    obtain ⟨hreturn₄, himport₄⟩ := reinsertClauses_slot (importClauses (resetStart s₁))
    rw [himport₂, himport₁] at himport₃
    rw [hreturn₃, hreturn₂, hreturn₁] at hreturn₄
    exact ⟨reinsertClauses_fitting (importClauses_fitting (hfitting₂ hf₁)),
      Or.inr ⟨_, himport₄.trans himport₃, hreturn₄⟩⟩

end Steps

/-- The condition on the calls of the parent: a new buffer does not come after
the parent's reset of a flag and before the child's, and it fits. -/
def Permitted (s : State) : Call → Prop
  | .digestClauses clauses _ => clauses.length ≤ s.hsm.importBufferMaxSize ∧
      (s.hsm.doImport = true ∨ s.hsm.didImport = false)
  | .returnClauses clauses => clauses.length ≤ s.hsm.importBufferMaxSize ∧
      (s.hsm.doReturnClauses = true ∨ s.hsm.didReturnClauses = false)
  | _ => True

def digestCalls (calls : List Call) : List (List Int × Checksum) :=
  calls.filterMap fun
    | .digestClauses clauses checksum => some (clauses, checksum)
    | _ => none

def returnCalls (calls : List Call) : List (List Int) :=
  calls.filterMap fun
    | .returnClauses clauses => some clauses
    | _ => none

structure Delivering (maxSize : Nat) (calls : List Call) (s : State) : Prop where
  fitting : Fitting maxSize s
  imports : s.importSlot.Kept (digestCalls calls)
  returns : s.returnSlot.Kept (returnCalls calls)

section Runs

variable {maxSize : Nat} {s s' : State} {calls : List Call}

theorem delivering_start (maxSize : Nat) (firstrev : Int) : Delivering maxSize [] (doInitialize maxSize firstrev) := by
  refine ⟨⟨rfl, List.length_replicate, Nat.zero_le _, ?_, ?_, ?_⟩, List.Perm.refl _, List.Perm.refl _⟩
  · intro buffer hbuffer
    cases hbuffer
  · intro clauses hclauses
    cases hclauses
  · intro call hcall
    cases hcall

theorem digestCalls_append (calls calls' : List Call) :
    digestCalls (calls ++ calls') = digestCalls calls ++ digestCalls calls' := List.filterMap_append

theorem returnCalls_append (calls calls' : List Call) :
    returnCalls (calls ++ calls') = returnCalls calls ++ returnCalls calls' := List.filterMap_append

theorem Delivering.of_kept (hf : Fitting maxSize s') (himports : s'.importSlot.Kept (digestCalls calls))
    (hreturns : s'.returnSlot.Kept (returnCalls calls)) {call : Call} (hdigest : digestCalls [call] = [])
    (hreturn : returnCalls [call] = []) : Delivering maxSize (calls ++ [call]) s' := by
  refine ⟨hf, ?_, ?_⟩
  · rwa [digestCalls_append, hdigest, List.append_nil]
  · rwa [returnCalls_append, hreturn, List.append_nil]

theorem writeRevision_frame (s : State) : (writeRevision s).importSlot = s.importSlot ∧
    (writeRevision s).returnSlot = s.returnSlot ∧ (Fitting maxSize s → Fitting maxSize (writeRevision s)) := by
  rw [writeRevision]
  split
  · exact ⟨rfl, rfl, fun hf => hf⟩
  · exact ⟨rfl, rfl, fun hf => ⟨hf.bound, hf.memory, hf.returning, hf.buffers, hf.returned, hf.sizes⟩⟩

theorem Delivering.step (h : Delivering maxSize calls s) {call : Call} (hpermitted : Permitted s call)
    (hok : step s call = .ok s') : Delivering maxSize (calls ++ [call]) s' := by
  have hbound := h.fitting.bound
  cases call with
  | digestClauses clauses checksum =>
      obtain ⟨hsize, hfree⟩ := hpermitted
      obtain ⟨himport, hreturn⟩ := digestClauses_slot hok
      refine ⟨digestClauses_fitting h.fitting (hbound ▸ hsize) hok, ?_, ?_⟩
      · rw [himport, digestCalls_append]
        exact h.imports.pass hfree _
      · rw [hreturn, returnCalls_append]
        exact (List.append_nil _).symm ▸ h.returns
  | returnClauses clauses =>
      obtain ⟨hsize, hfree⟩ := hpermitted
      obtain ⟨hreturn, himport⟩ := returnClauses_slot hsize
      obtain rfl := Except.ok.inj hok
      refine ⟨returnClauses_fitting h.fitting (hbound ▸ hsize), ?_, ?_⟩
      · rw [himport, digestCalls_append]
        exact (List.append_nil _).symm ▸ h.imports
      · rw [hreturn, returnCalls_append]
        exact h.returns.pass hfree _
  | appendRevisions revisions desiredRevision =>
      obtain rfl := Except.ok.inj hok
      have hf := h.fitting
      have hf' : Fitting maxSize (appendRevisions s revisions desiredRevision) :=
        ⟨hf.bound, hf.memory, hf.returning, hf.buffers, hf.returned, hf.sizes⟩
      exact of_kept hf' h.imports h.returns rfl rfl
  | writeRevision =>
      obtain rfl := Except.ok.inj hok
      obtain ⟨himport, hreturn, hfitting⟩ := @writeRevision_frame maxSize s
      exact of_kept (hfitting h.fitting) (himport ▸ h.imports) (hreturn ▸ h.returns) rfl rfl
  | check =>
      obtain ⟨s₁, hs₁, himport, hreturn, hf⟩ := check_ok h.fitting
      obtain rfl := Except.ok.inj (hs₁.symm.trans hok)
      exact of_kept hf (himport ▸ h.imports.acknowledge.refill) (hreturn ▸ h.returns.acknowledge.refill) rfl rfl
  | iteration =>
      obtain rfl := Except.ok.inj hok
      obtain ⟨hf, ⟨himport, hreturn⟩ | ⟨ready, himport, hreturn⟩⟩ := iteration_slots h.fitting
      · exact of_kept hf (himport ▸ h.imports) (hreturn ▸ h.returns) rfl rfl
      · exact of_kept hf (himport ▸ (h.imports.takeContent ready).reset) (hreturn ▸ (h.returns.takeContent true).reset)
          rfl rfl

theorem delivering_of_reaches {firstrev : Int}
    (h : Reaches HordeProcess.step Permitted (doInitialize maxSize firstrev) calls s) : Delivering maxSize calls s := by
  induction h with
  | nil => exact delivering_start maxSize firstrev
  | concat _ hpermitted hok ih => exact ih.step hpermitted hok

end Runs

structure UpToDate (s : State) : Prop where
  start : s.hsm.doStartNextRevision = false
  published : s.adapter.writtenRevision ≤ s.adapter.publishedRevision
  imported : s.process.desiredRevision ≤ s.process.lastImportedRevision
  desired : s.adapter.desiredRevision ≤ s.process.lastImportedRevision
  buffered : s.hsm.importBufferRevision ≤ s.process.lastImportedRevision

section Progress

variable {maxSize : Nat} {s s' : State}

theorem UpToDate.doDigest (h : UpToDate s) {clauses : List Int} {checksum : Checksum}
    (hok : doDigest s clauses checksum = .ok s') : UpToDate s' := by
  rw [HordeProcess.doDigest] at hok
  split at hok
  · obtain rfl := Except.ok.inj hok
    exact ⟨h.start, h.published, h.imported, h.desired, h.desired⟩
  · cases hok

theorem UpToDate.publishRevision (h : UpToDate s) : publishRevision s = s := by
  rw [HordeProcess.publishRevision, if_neg]
  have hpublished := h.published
  simp only [Bool.and_eq_true, decide_eq_true_eq, not_and]
  omega

theorem UpToDate.takeBack (h : UpToDate s) : UpToDate (takeBack s) := by
  refine ⟨?_, h.published, h.imported, h.desired, h.buffered⟩
  simp [HordeProcess.takeBack, h.start]

theorem UpToDate.digestNext (h : UpToDate s) (hok : digestNext s = .ok s') : UpToDate s' := by
  rw [HordeProcess.digestNext] at hok
  split at hok
  · split at hok
    · exact Except.ok.inj hok ▸ h
    · rename_i clauses checksum buffers _
      cases hdigest : HordeProcess.doDigest s clauses checksum with
      | error e => rw [hdigest] at hok; cases hok
      | ok s₁ =>
          rw [hdigest] at hok
          obtain rfl := Except.ok.inj hok
          have h₁ := h.doDigest hdigest
          exact ⟨h₁.start, h₁.published, h₁.imported, h₁.desired, h₁.buffered⟩
  · exact Except.ok.inj hok ▸ h

theorem UpToDate.returnNext (h : UpToDate s) : UpToDate (returnNext s) := by
  rw [HordeProcess.returnNext]
  split
  · split
    · exact h
    · exact ⟨h.start, h.published, h.imported, h.desired, h.buffered⟩
  · exact h

theorem UpToDate.check (h : UpToDate s) (hok : check s = .ok s') : UpToDate s' := by
  rw [HordeProcess.check, h.takeBack.publishRevision] at hok
  cases hnext : HordeProcess.digestNext (HordeProcess.takeBack s) with
  | error e => rw [hnext] at hok; cases hok
  | ok s₁ =>
      rw [hnext] at hok
      obtain rfl := Except.ok.inj hok
      exact (h.takeBack.digestNext hnext).returnNext

theorem UpToDate.iteration (h : UpToDate s) : UpToDate (iteration s) ∧
    (iteration s).importSlot = (s.importSlot.takeContent true).reset ∧
    (iteration s).returnSlot = (s.returnSlot.takeContent true).reset := by
  have himported := h.imported
  have hawaits : awaitsRevision s = false := by simp [awaitsRevision, h.start, himported]
  have hiteration : HordeProcess.iteration s =
      reinsertClauses (importClauses { s with hsm.didStartNextRevision := false }) := by
    simp [HordeProcess.iteration, hawaits, resetStart, h.start]
  obtain ⟨himport₁, hreturn₁⟩ := importClauses_slot { s with hsm.didStartNextRevision := false }
  obtain ⟨hreturn₂, himport₂⟩ := reinsertClauses_slot (importClauses { s with hsm.didStartNextRevision := false })
  rw [hiteration]
  refine ⟨?_, ?_, ?_⟩
  · rw [reinsertClauses, importClauses]
    dsimp only
    split <;> split <;> split <;> split <;> exact ⟨h.start, h.published, h.imported, h.desired, h.buffered⟩
  · rw [himport₂, himport₁, decide_eq_true h.buffered]
    rfl
  · rw [hreturn₂, hreturn₁]
    rfl

theorem UpToDate.round (h : UpToDate s) (hf : Fitting maxSize s) :
    ∃ s', run step s [.check, .iteration] = .ok s' ∧ UpToDate s' ∧ Fitting maxSize s' ∧
      s'.importSlot = s.importSlot.round ∧ s'.returnSlot = s.returnSlot.round := by
  obtain ⟨s₁, hok, himport₁, hreturn₁, hf₁⟩ := check_ok hf
  have h₁ := h.check hok
  obtain ⟨h₂, himport₂, hreturn₂⟩ := h₁.iteration
  refine ⟨HordeProcess.iteration s₁, ?_, h₂, (iteration_slots hf₁).1, ?_, ?_⟩
  · rw [show [Call.check, Call.iteration] = [.check] ++ [.iteration] from rfl, run_append, run_singleton]
    simp only [step, hok, Except.bind, run_singleton]
  · rw [himport₂, himport₁]
    rfl
  · rw [hreturn₂, hreturn₁]
    rfl

def rounds (n : Nat) : List Call := (List.replicate n [Call.check, Call.iteration]).flatten

theorem UpToDate.rounds (h : UpToDate s) (hf : Fitting maxSize s) (n : Nat) :
    ∃ s', run step s (rounds n) = .ok s' ∧ s'.importSlot = Slot.round^[n] s.importSlot ∧
      s'.returnSlot = Slot.round^[n] s.returnSlot := by
  induction n generalizing s with
  | zero => exact ⟨s, rfl, rfl, rfl⟩
  | succ n ih =>
      obtain ⟨s₁, hfirst, h₁, hf₁, himport₁, hreturn₁⟩ := h.round hf
      obtain ⟨s₂, hrest, himport₂, hreturn₂⟩ := ih h₁ hf₁
      refine ⟨s₂, ?_, ?_, ?_⟩
      · rw [HordeProcess.rounds, List.replicate_succ, List.flatten_cons, run_append, hfirst]
        exact hrest
      · rw [himport₂, himport₁, Function.iterate_succ_apply]
      · rw [hreturn₂, hreturn₁, Function.iterate_succ_apply]

theorem UpToDate.idle {m n : Nat} (h : UpToDate s) (hf : Fitting m s) (hidle : s.importSlot.remaining = 0)
    (hrun : run step s (HordeProcess.rounds n) = .ok s') : s'.process.digestSharing = s.process.digestSharing := by
  obtain ⟨s₁, hrounds, himport, -⟩ := h.rounds hf n
  obtain rfl := Except.ok.inj (hrounds.symm.trans hrun)
  rw [Function.iterate_fixed (Slot.round_idle hidle)] at himport
  exact congrArg Slot.taken himport

end Progress

/-- Buffers that do not come between the two resets of a flag are all digested
or returned once: none is at two places, none is lost, and when the child has its
revisions the next turns of both sides bring the rest to the solver engine. -/
theorem clauses_delivered_once {maxSize : Nat} {firstrev : Int} {calls : List Call} {s : State}
    (h : Reaches step Permitted (doInitialize maxSize firstrev) calls s) :
    (digestCalls calls).Perm (s.process.digestSharing ++ s.importSlot.waiting ++ s.adapter.tempClauseBuffers) ∧
    (returnCalls calls).Perm
      (s.process.returnClauses.map Prod.fst ++ s.returnSlot.waiting ++ s.adapter.tempReturnedClauses) ∧
    (∀ call ∈ s.process.returnClauses, call.1.length = call.2 ∧ call.2 ≤ maxSize) ∧
    (UpToDate s → ∃ n s', run step s (rounds n) = .ok s' ∧ (digestCalls calls).Perm s'.process.digestSharing ∧
      (returnCalls calls).Perm (s'.process.returnClauses.map Prod.fst)) := by
  have hd := delivering_of_reaches h
  refine ⟨hd.imports, hd.returns, hd.fitting.sizes, ?_⟩
  intro hcurrent
  obtain ⟨s', hrun, himport, hreturn⟩ :=
    hcurrent.rounds hd.fitting (max s.importSlot.remaining s.returnSlot.remaining)
  refine ⟨_, s', hrun, ?_, ?_⟩
  · have hdelivered := hd.imports.delivered (le_max_left _ s.returnSlot.remaining)
    rwa [← himport] at hdelivered
  · have hdelivered := hd.returns.delivered (le_max_right s.importSlot.remaining _)
    rwa [← hreturn] at hdelivered

theorem clauses_delivered_once_two_buffers : ∃ s n s',
    Reaches step Permitted (doInitialize 8 0) [.digestClauses [1, 2] {}, .digestClauses [3] {}, .returnClauses [4], .iteration] s ∧
    run step s (rounds n) = .ok s' ∧ [([1, 2], ({} : Checksum)), ([3], {})].Perm s'.process.digestSharing ∧
    [[4]].Perm (s'.process.returnClauses.map Prod.fst) := by
  have hreaches : Reaches step Permitted (doInitialize 8 0)
      [.digestClauses [1, 2] {}, .digestClauses [3] {}, .returnClauses [4], .iteration] _ :=
    .concat (.concat (.concat (.concat .nil ⟨by decide, Or.inr rfl⟩ rfl) ⟨by decide, Or.inl rfl⟩ rfl)
      ⟨by decide, Or.inr rfl⟩ rfl) trivial rfl
  obtain ⟨-, -, -, hdelivered⟩ := clauses_delivered_once hreaches
  obtain ⟨n, s', hrun, hdigest, hreturn⟩ := hdelivered ⟨rfl, by decide, by decide, by decide, by decide⟩
  exact ⟨_, n, s', hreaches, hrun, hdigest, hreturn⟩

/-- A buffer that comes between the two resets is never digested, and a returned
buffer that does not fit is passed on with its full size. -/
theorem buffer_between_resets_lost :
    (∃ s, run step (doInitialize 8 0)
        [.digestClauses [1, 2] {}, .iteration, .check, .digestClauses [3] {}, .iteration, .check, .iteration] = .ok s ∧
      ∀ n s', run step s (rounds n) = .ok s' → s'.process.digestSharing = [([1, 2], {})]) ∧
    ∃ s, run step (doInitialize 2 0) [.returnClauses [1, 2, 3], .iteration] = .ok s ∧
      s.process.returnClauses = [([1, 2], 3)] := by
  refine ⟨⟨_, rfl, ?_⟩, ⟨_, rfl, rfl⟩⟩
  intro n s' hrun
  refine (UpToDate.idle (m := 8) ⟨rfl, by decide, by decide, by decide, by decide⟩
    ⟨rfl, rfl, by decide, ?_, ?_, ?_⟩ rfl hrun).trans rfl
  · exact List.forall_mem_nil _
  · exact List.forall_mem_nil _
  · exact List.forall_mem_nil _

end Mallob.HordeProcess
