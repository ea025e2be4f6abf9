import Mallob.ClauseHandshake

namespace Mallob.ClauseExport

open HordeProcess (memcpy awaitsRevision importRevision)
open Runs

/-- A buffer with the number of requests that were made before it. -/
structure Prepared where
  request : Nat
  clauses : List Int
  checksum : Checksum
deriving DecidableEq

/-- A buffer that the parent has got, with the number of requests at that time and its position among
the prepared buffers. -/
structure Obtained where
  request : Nat
  index : Nat
  clauses : List Int
  checksum : Checksum
deriving DecidableEq

/-- The memory for the export of clauses next to the rest of the state, and the requests, the prepared
buffers and the obtained ones in the order of time. -/
structure State where
  base : HordeProcess.State
  doExport : Bool := false
  didExport : Bool := false
  exportBufferMaxSize : Nat := 0
  exportBufferTrueSize : Nat := 0
  exportChecksum : Checksum := {}
  exportBuffer : List Int
  requests : Nat := 0
  prepared : List Prepared := []
  obtained : List Obtained := []

def doInitialize (clauseBufferBaseSize importBufferMaxSize : Nat) (firstrev : Int) : State where
  base := HordeProcess.doInitialize importBufferMaxSize firstrev
  exportBuffer := List.replicate clauseBufferBaseSize 0

def collectClauses (s : State) (maxSize : Nat) : State :=
  if s.doExport then s
  else { s with exportBufferMaxSize := maxSize, doExport := true, requests := s.requests + 1 }

def hasCollectedClauses (s : State) : Bool := s.didExport

def getCollectedClauses (s : State) : State :=
  if hasCollectedClauses s then
    { s with
      doExport := false
      obtained := s.obtained ++ [⟨s.requests, s.prepared.length - 1,
        s.exportBuffer.take s.exportBufferTrueSize, s.exportChecksum⟩] }
  else s

def exportClauses (s : State) (clauses : List Int) (checksum : Checksum) : State :=
  let s := if s.doExport && !s.didExport then
    { s with
      exportChecksum := checksum
      exportBufferTrueSize := clauses.length
      exportBuffer := memcpy s.exportBuffer clauses clauses.length
      didExport := true
      prepared := s.prepared ++ [⟨s.requests, clauses, checksum⟩] }
  else s
  if !s.doExport then { s with didExport := false } else s

def iteration (s : State) (clauses : List Int) (checksum : Checksum) : State :=
  let s' := { s with base := HordeProcess.iteration s.base }
  if awaitsRevision (if awaitsRevision s.base then importRevision s.base else s.base) then s'
  else exportClauses s' clauses checksum

inductive Call
  | collectClauses (maxSize : Nat)
  | getCollectedClauses
  | iteration (clauses : List Int) (checksum : Checksum)
  | digestClauses (clauses : List Int) (checksum : Checksum)
  | returnClauses (clauses : List Int)
  | appendRevisions (revisions : List Int) (desiredRevision : Int)
  | writeRevision
  | check

def elsewhere (s : State) (call : HordeProcess.Call) : Except HordeProcess.Fault State :=
  (HordeProcess.step s.base call).map fun base => { s with base := base }

def step (s : State) : Call → Except HordeProcess.Fault State
  | .collectClauses maxSize => .ok (collectClauses s maxSize)
  | .getCollectedClauses => .ok (getCollectedClauses s)
  | .iteration clauses checksum => .ok (iteration s clauses checksum)
  | .digestClauses clauses checksum => elsewhere s (.digestClauses clauses checksum)
  | .returnClauses clauses => elsewhere s (.returnClauses clauses)
  | .appendRevisions revisions desiredRevision => elsewhere s (.appendRevisions revisions desiredRevision)
  | .writeRevision => elsewhere s .writeRevision
  | .check => elsewhere s .check

/-- Clauses are neither requested nor obtained after the parent's reset of its flag and before the
child's. -/
def Permitted (s : State) : Call → Prop
  | .collectClauses _ => s.doExport = true ∨ s.didExport = false
  | .getCollectedClauses => s.didExport = true → s.doExport = true
  | _ => True

structure Orderly (s : State) : Prop where
  matching : ∀ o ∈ s.obtained, s.prepared[o.index]? = some ⟨o.request, o.clauses, o.checksum⟩
  settled : (s.doExport && s.didExport) = false → s.obtained.map Obtained.index = List.range s.prepared.length
  ready : (s.doExport && s.didExport) = true → ∃ earlier,
    s.prepared = earlier ++ [⟨s.requests, s.exportBuffer.take s.exportBufferTrueSize, s.exportChecksum⟩] ∧
      s.obtained.map Obtained.index = List.range earlier.length

variable {s s' : State}

theorem Orderly.collectClauses (h : Orderly s) (hfree : s.doExport = true ∨ s.didExport = false) (maxSize : Nat) :
    Orderly (collectClauses s maxSize) := by
  rw [ClauseExport.collectClauses]
  split
  · exact h
  · next hdo =>
      have hdid : s.didExport = false := hfree.resolve_left hdo
      refine ⟨h.matching, fun _ => h.settled (by simp [hdid]), fun hready => ?_⟩
      rw [hdid] at hready
      cases hready

theorem Orderly.getCollectedClauses (h : Orderly s) (hfresh : s.didExport = true → s.doExport = true) :
    Orderly (getCollectedClauses s) := by
  rw [ClauseExport.getCollectedClauses, hasCollectedClauses]
  split
  · next hdid =>
      obtain ⟨earlier, hprepared, hindices⟩ := h.ready (by simp [hdid, hfresh hdid])
      have hlast : s.prepared.length - 1 = earlier.length := by
        rw [hprepared]
        simp
      refine ⟨fun o ho => ?_, fun _ => ?_, fun hready => by simp at hready⟩
      · rcases List.mem_append.mp ho with ho | ho
        · exact h.matching o ho
        · rw [List.mem_singleton.mp ho]
          simp only [hlast]
          rw [hprepared, List.getElem?_concat_length]
      · simp only [List.map_append, hindices, List.map_cons, List.map_nil, hlast]
        rw [hprepared, List.length_append, List.length_singleton, List.range_succ]
  · exact h

theorem Orderly.exportClauses (h : Orderly s) (clauses : List Int) (checksum : Checksum) :
    Orderly (exportClauses s clauses checksum) := by
  cases hdo : s.doExport with
  | false =>
      simp only [ClauseExport.exportClauses, hdo, Bool.false_and, Bool.false_eq_true, if_false, Bool.not_false, if_true]
      exact ⟨h.matching, fun _ => h.settled (by simp [hdo]), fun hready => by simp at hready⟩
  | true =>
      cases hdid : s.didExport with
      | true =>
          simp only [ClauseExport.exportClauses, hdo, hdid, Bool.not_true, Bool.and_false, Bool.false_eq_true, if_false]
          exact h
      | false =>
          simp only [ClauseExport.exportClauses, hdo, hdid, Bool.not_false, Bool.and_self, if_true, Bool.not_true,
            Bool.false_eq_true, if_false]
          have hindices := h.settled (by simp [hdid])
          refine ⟨fun o ho => ?_, fun hsettled => by simp at hsettled, fun _ => ⟨s.prepared, ?_, hindices⟩⟩
          · have hmatch := h.matching o ho
            rw [List.getElem?_append_left (List.getElem?_eq_some_iff.mp hmatch).1]
            exact hmatch
          · simp only [HordeProcess.memcpy_take _ _ le_rfl]

theorem Orderly.iteration (h : Orderly s) (clauses : List Int) (checksum : Checksum) :
    Orderly (iteration s clauses checksum) := by
  have hbase : Orderly { s with base := HordeProcess.iteration s.base } := ⟨h.matching, h.settled, h.ready⟩
  simp only [ClauseExport.iteration]
  generalize (if awaitsRevision s.base then importRevision s.base else s.base) = waiting
  split
  · exact hbase
  · exact hbase.exportClauses clauses checksum

theorem Orderly.elsewhere (h : Orderly s) {call : HordeProcess.Call} (hok : elsewhere s call = .ok s') : Orderly s' := by
  rw [ClauseExport.elsewhere] at hok
  cases hbase : HordeProcess.step s.base call with
  | error e => rw [hbase] at hok; cases hok
  | ok base =>
      rw [hbase] at hok
      obtain rfl := Except.ok.inj hok
      exact ⟨h.matching, h.settled, h.ready⟩

theorem Orderly.step (h : Orderly s) {call : Call} (hpermitted : Permitted s call) (hok : step s call = .ok s') :
    Orderly s' := by
  cases call with
  | collectClauses maxSize =>
      obtain rfl := Except.ok.inj hok
      exact h.collectClauses hpermitted maxSize
  | getCollectedClauses =>
      obtain rfl := Except.ok.inj hok
      exact h.getCollectedClauses hpermitted
  | iteration clauses checksum =>
      obtain rfl := Except.ok.inj hok
      exact h.iteration clauses checksum
  | digestClauses | returnClauses | appendRevisions | writeRevision | check => exact h.elsewhere hok

/-- An obtained buffer was prepared after the last request, it is obtained once, and it is not
overwritten before. -/
theorem exported_clauses_fresh {clauseBufferBaseSize importBufferMaxSize : Nat} {firstrev : Int} {calls : List Call}
    {s : State}
    (h : Reaches step Permitted (doInitialize clauseBufferBaseSize importBufferMaxSize firstrev) calls s) :
    (∀ o ∈ s.obtained, s.prepared[o.index]? = some ⟨o.request, o.clauses, o.checksum⟩) ∧
    (s.obtained.map Obtained.index).Nodup ∧
    ∀ k, k + 1 < s.prepared.length → k ∈ s.obtained.map Obtained.index := by
  have horderly : Orderly s := by
    refine h.invariant ⟨by simp [doInitialize], fun _ => rfl, fun hready => by cases hready⟩ ?_
    intro s₁ call s₂ h₁ hpermitted hok
    exact h₁.step hpermitted hok
  refine ⟨horderly.matching, ?_⟩
  cases hphase : s.doExport && s.didExport with
  | false =>
      rw [horderly.settled hphase]
      exact ⟨List.nodup_range, fun k hk => List.mem_range.mpr (by omega)⟩
  | true =>
      obtain ⟨earlier, hprepared, hindices⟩ := horderly.ready hphase
      rw [hindices, hprepared]
      refine ⟨List.nodup_range, fun k hk => List.mem_range.mpr ?_⟩
      rw [List.length_append, List.length_singleton] at hk
      omega

def permits (s : State) : Call → Bool
  | .collectClauses _ => s.doExport || !s.didExport
  | .getCollectedClauses => !s.didExport || s.doExport
  | _ => true

theorem permitted_of_permits (s : State) (call : Call) (h : permits s call = true) : Permitted s call := by
  cases call with
  | collectClauses maxSize => simpa [permits, Permitted] using h
  | getCollectedClauses =>
      intro hdid
      simpa [permits, hdid] using h
  | iteration | digestClauses | returnClauses | appendRevisions | writeRevision | check => trivial

def twoRequests : List Call :=
  [.collectClauses 5, .iteration [7] {}, .getCollectedClauses, .iteration [8] {}, .collectClauses 5, .iteration [9] {},
    .getCollectedClauses]

theorem exported_clauses_fresh_two_requests : ∃ s, Reaches step Permitted (doInitialize 5 5 0) twoRequests s ∧
    s.obtained.map Obtained.clauses = [[7], [9]] ∧ (s.obtained.map Obtained.index).Nodup := by
  have hrun : (twoRequests.foldlM (checked permits step) (doInitialize 5 5 0)).map
      (fun s => s.obtained.map Obtained.clauses) = some [[7], [9]] := by decide +kernel
  obtain ⟨s, hs, hobtained⟩ := Option.map_eq_some_iff.mp hrun
  have hreaches := Reaches.of_checked permitted_of_permits hs
  exact ⟨s, hreaches, hobtained, (exported_clauses_fresh hreaches).2.1⟩

/-- A request right after the clauses were obtained yields the same buffer, which was prepared for the
request before. -/
theorem stale_clauses_obtained : ∃ s,
    run step (doInitialize 5 5 0)
      [.collectClauses 5, .iteration [7] {}, .getCollectedClauses, .collectClauses 5, .getCollectedClauses] = .ok s ∧
    s.obtained = [⟨1, 0, [7], {}⟩, ⟨2, 0, [7], {}⟩] ∧ s.prepared = [⟨1, [7], {}⟩] ∧
    ¬ (∀ o ∈ s.obtained, s.prepared[o.index]? = some ⟨o.request, o.clauses, o.checksum⟩) ∧
    ¬ (s.obtained.map Obtained.index).Nodup := by
  refine ⟨_, rfl, ?_⟩
  decide +kernel

end Mallob.ClauseExport
