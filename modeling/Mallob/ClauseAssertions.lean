import Mallob.ClauseSpread

namespace Mallob.Sharing.ClauseNetwork

open GatheredClauses (Communicator Gathered Valid initiateMergeOfClauseBuffers getMergedClauseBuffer handleGather
  finishMerge_cases getMergedClauseBuffer_eq mergeBuffers_clausesOf forall_held)

variable {o : Options} {s s' : State} {r : Nat} {x x' : Node} {v : View} {out : List Packet}

/-- There is a node in the tree, and a communicator sends its clauses only once canSendClauses has allowed it. -/
def Allowed (s : State) : Action → Prop
  | .canSendClauses _ v => 1 ≤ v.commSize
  | .finishMerge _ => True
  | .sendClausesToParent r _ => (s.nodes r).comm.isMerging = true ∧ (s.nodes r).comm.isDoneMerging = true
  | .deliver _ _ => True

instance (s : State) : (action : Action) → Decidable (Allowed s action)
  | .canSendClauses _ _ => inferInstanceAs (Decidable (_ ≤ _))
  | .finishMerge _ => inferInstanceAs (Decidable True)
  | .sendClausesToParent _ _ => inferInstanceAs (Decidable (_ ∧ _))
  | .deliver _ _ => inferInstanceAs (Decidable True)

def Proper (o : Options) (s : State) (action : Action) : Prop := Prepared o s action ∧ Allowed s action

structure RightMessage (o : Options) (m : JobMessage) : Prop where
  jobId : m.jobId = o.jobId
  checksum : o.useChecksums = true → m.checksum = checksumOf m.jobId m.payload
  payload : m.tag = MSG_GATHER_CLAUSES → ∃ clauses count, m.payload = clauses ++ [count] ∧ 0 ≤ count

structure Settled (c : Communicator) : Prop where
  counted : 0 ≤ c.numAggregatedNodes
  done : c.isDoneMerging = true → c.isMerging = true ∧ ∃ result, c.clauseBuffersBeingMerged = [result]

structure Asserted (o : Options) (s : State) : Prop where
  settled : ∀ r, Settled (s.nodes r).comm
  right : ∀ m ∈ s.inFlight, RightMessage o m.message

section Communicators

variable {comm comm' : Communicator} {getBufferLimit : Int → Nat} {p : Nat} {job : GatheredClauses.Job}

theorem settled_initiate (hok : initiateMergeOfClauseBuffers getBufferLimit comm job = .ok comm') :
    Settled comm' := by
  rw [initiateMergeOfClauseBuffers] at hok
  split at hok
  · next hcond =>
      obtain rfl := Except.ok.inj hok
      exact ⟨hcond.1.le, fun hdone => absurd (hcond.2.symm.trans hdone) Bool.false_ne_true⟩
  · cases hok

theorem Settled.canSendClauses (h : Settled comm) (getBufferLimit : Int → Nat) (job : GatheredClauses.Job)
    (hsize : 1 ≤ job.commSize) :
    ∃ result, GatheredClauses.canSendClauses getBufferLimit comm job = .ok result := by
  rw [GatheredClauses.canSendClauses]
  split
  · exact ⟨_, rfl⟩
  · split
    · next hdone =>
        rw [Bool.and_eq_true] at hdone
        obtain ⟨-, result, hresult⟩ := h.done hdone.2
        exact ⟨_, if_pos (by rw [hresult]; rfl)⟩
    · split
      · next hnotDone hstarts =>
          have hidle : comm.isDoneMerging = false := by
            cases hdone : comm.isDoneMerging with
            | false => rfl
            | true =>
                rw [hdone, (h.done hdone).1] at hnotDone
                exact absurd rfl hnotDone
          have hcounted := h.counted
          rw [initiateMergeOfClauseBuffers, if_pos ⟨by omega, hidle⟩]
          exact ⟨_, rfl⟩
      · exact ⟨_, rfl⟩

theorem Settled.finishMerge (h : Settled comm)
    (hok : GatheredClauses.finishMerge p comm = .ok comm') : Settled comm' := by
  rcases finishMerge_cases hok with rfl | ⟨hmerging, -, main, excess, -, rfl⟩
  · exact h
  · exact ⟨h.counted, fun _ => ⟨hmerging, _, rfl⟩⟩

theorem exists_finishMerge (hp : 1 ≤ p) (hvalid : ∀ b ∈ comm.held, Valid p b) :
    ∃ comm', GatheredClauses.finishMerge p comm = .ok comm' := by
  obtain ⟨main, excess, hmerge, -⟩ := mergeBuffers_clausesOf hp (forall_held.mp hvalid).2.1 comm.totalSize
  rw [GatheredClauses.finishMerge]
  split
  · rw [hmerge]
    exact ⟨_, rfl⟩
  · exact ⟨_, rfl⟩

theorem Settled.getMerged (h : Settled comm) {result : Gathered}
    (hok : getMergedClauseBuffer comm = .ok (result, comm')) : Settled comm' := by
  obtain ⟨-, -, -, rfl⟩ := getMergedClauseBuffer_eq hok
  exact ⟨h.counted, fun hdone => absurd hdone Bool.false_ne_true⟩

theorem Settled.exists_getMerged (h : Settled comm) (hdone : comm.isDoneMerging = true) :
    ∃ result, getMergedClauseBuffer comm = .ok result := by
  obtain ⟨hmerging, result, hresult⟩ := h.done hdone
  rw [getMergedClauseBuffer, hmerging, hdone, hresult]
  exact ⟨_, rfl⟩

end Communicators

section Messages

theorem rightMessage_setChecksum {m : JobMessage} (hjob : m.jobId = o.jobId)
    (hpayload : m.tag = MSG_GATHER_CLAUSES → ∃ clauses count, m.payload = clauses ++ [count] ∧ 0 ≤ count) :
    RightMessage o (setChecksum o m) := by
  obtain ⟨hid, -, htag, -, hsame⟩ := setChecksum_frame o m
  refine ⟨hid.trans hjob, fun huse => ?_, fun hgather => ?_⟩
  · rw [hid, hsame, setChecksum, if_pos huse]
  · rw [hsame]
    exact hpayload (htag.symm.trans hgather)

theorem rightMessage_children {revision epoch : Int} {clauses : List Int} {children : List Nat} {m : Packet}
    (hm : m ∈ children.map fun child => (⟨r, child, distributeMessage o revision epoch clauses⟩ : Packet)) :
    RightMessage o m.message := by
  obtain ⟨child, -, rfl⟩ := List.mem_map.mp hm
  exact rightMessage_setChecksum rfl fun htag => absurd (Int.ofNat.inj htag) (by decide)

/-- A message of another rank of the job is not accepted only by a job that is not active or has not come to its
revision. -/
theorem RightMessage.accepts_iff {m : JobMessage} (h : RightMessage o m) (v : View) :
    accepts o v m = true ↔ v.active = true ∧ m.revision ≤ v.revision := by
  rw [accepts]
  cases huse : o.useChecksums with
  | true => simp [h.jobId, h.checksum huse]
  | false => simp [h.jobId]

theorem Asserted.settled_setNode (h : Asserted o s) (hx : Settled x.comm) (r' : Nat) :
    Settled ((s.setNode r x).nodes r').comm := by
  rw [setNode_nodes]
  split
  · exact hx
  · exact h.settled r'

theorem Asserted.send (h : Asserted o s) (hok : sendClausesToParent o r (s.nodes r) v = .ok (x, out)) :
    Asserted o { s.setNode r x with inFlight := s.inFlight ++ out } := by
  obtain ⟨result, comm, hmerged, hcases⟩ := sendClausesToParent_cases hok
  have hsettled := (h.settled r).getMerged hmerged
  refine ⟨h.settled_setNode ?_, fun m hm => (List.mem_append.mp hm).elim (h.right m) fun hm => ?_⟩
  · rcases hcases with ⟨-, -, -, hcomm, -⟩ | ⟨-, -, -, hcomm, -⟩
    · rw [hcomm]
      exact ⟨le_rfl, hsettled.done⟩
    · rw [hcomm]
      exact ⟨le_rfl, hsettled.done⟩
  · rcases hcases with ⟨-, -, -, -, rfl⟩ | ⟨-, -, -, -, rfl⟩
    · exact rightMessage_children hm
    · rw [List.mem_singleton.mp hm]
      exact rightMessage_setChecksum rfl fun _ => ⟨_, _, rfl, hsettled.counted⟩

theorem Asserted.deliver (h : Asserted o s) {i : Nat} {m : Packet} (hm : s.inFlight[i]? = some m)
    (hok : handle o m.dest (s.nodes m.dest) v m.message = .ok (x, out)) :
    Asserted o { s.setNode m.dest x with
      inFlight := s.inFlight.eraseIdx i ++ out
      discarded := if accepts o v m.message then s.discarded else s.discarded ++ [m] } := by
  have hold := h.settled m.dest
  have hright := h.right m (List.mem_of_getElem? hm)
  refine ⟨h.settled_setNode ?_, fun m' hm' => (List.mem_append.mp hm').elim
    (fun hm' => h.right m' (List.mem_of_mem_eraseIdx hm')) fun hm' => ?_⟩
  · rcases handle_cases hok with ⟨-, rfl, -⟩ | ⟨-, htag, -, clauses, count, hpayload, rfl⟩ | ⟨-, -, rfl, -⟩ |
      ⟨-, -, -, rfl, -⟩
    · exact hold
    · obtain ⟨clauses', count', hpayload', hcount⟩ := hright.payload htag
      obtain ⟨-, hlast⟩ := List.append_inj' (hpayload.symm.trans hpayload') rfl
      obtain rfl : count = count' := by simpa using hlast
      exact ⟨Int.add_nonneg hold.counted hcount, hold.done⟩
    · rw [learnClauses_comm]
      exact ⟨hold.counted, hold.done⟩
    · exact hold
  · rcases handle_cases hok with ⟨-, -, rfl⟩ | ⟨-, -, rfl, -⟩ | ⟨-, -, -, rfl⟩ | ⟨-, -, -, -, rfl⟩
    · cases hm'
    · cases hm'
    · exact rightMessage_children hm'
    · cases hm'

theorem Asserted.step (h : Asserted o s) {action : Action} (hok : step o s action = .ok s') : Asserted o s' := by
  rcases step_cases hok with rfl | ⟨r, v, comm, -, -, -, hinitiate, rfl⟩ | ⟨r, comm, -, hfinish, rfl⟩ |
    ⟨r, v, x, out, -, hsend, rfl⟩ | ⟨i, v, m, x, out, -, hm, hhandle, rfl⟩
  · exact h
  · exact ⟨h.settled_setNode (settled_initiate hinitiate), h.right⟩
  · exact ⟨h.settled_setNode ((h.settled r).finishMerge hfinish), h.right⟩
  · exact h.send hsend
  · exact h.deliver hm hhandle

/-- The payload of a message is not empty where its last integer is read. -/
theorem RightMessage.exists_handle {m : JobMessage} (h : RightMessage o m) (x : Node) (v : View) :
    ∃ result, handle o r x v m = .ok result := by
  rw [handle]
  split
  · exact ⟨_, rfl⟩
  · split
    · next htag =>
        obtain ⟨clauses, count, hpayload, -⟩ := h.payload htag
        rw [hpayload, List.getLast?_concat]
        exact ⟨_, rfl⟩
    · split <;> exact ⟨_, rfl⟩

theorem asserted_start (o : Options) : Asserted o {} where
  settled := fun _ => ⟨le_rfl, fun hdone => absurd hdone Bool.false_ne_true⟩
  right := fun _ hm => absurd hm List.not_mem_nil

theorem Asserted.exists_step (hp : 1 ≤ o.maxLbdPartitionedSize) (h : Asserted o s) (hconserved : Conserved o s)
    {action : Action} (hproper : Proper o s action) : ∃ s', ClauseNetwork.step o s action = .ok s' := by
  cases action with
  | canSendClauses r v =>
      obtain ⟨result, hresult⟩ := (h.settled r).canSendClauses o.getBufferLimit (v.job o) hproper.2
      rw [ClauseNetwork.step, hresult]
      exact ⟨_, rfl⟩
  | finishMerge r =>
      obtain ⟨comm, hcomm⟩ := exists_finishMerge hp (hconserved.held r)
      rw [ClauseNetwork.step, hcomm]
      exact ⟨_, rfl⟩
  | sendClausesToParent r v =>
      obtain ⟨result, hresult⟩ := (h.settled r).exists_getMerged hproper.2.2
      rw [ClauseNetwork.step, ClauseNetwork.sendClausesToParent, hresult]
      exact ⟨_, rfl⟩
  | deliver i v =>
      rw [ClauseNetwork.step]
      cases hm : s.inFlight[i]? with
      | none => exact ⟨_, rfl⟩
      | some m =>
          obtain ⟨result, hresult⟩ := (h.right m (List.mem_of_getElem? hm)).exists_handle (r := m.dest)
            (s.nodes m.dest) v
          dsimp only
          rw [hresult]
          exact ⟨_, rfl⟩

end Messages

/-- However the job tree changes: no assertion of the communicators fails in a proper run, no merge of theirs fails, no
message is without the number of nodes behind its clauses, and a message is only turned away by a rank whose job is not
active or has not come to the revision of the message. -/
theorem assertions_hold (o : Options) (hp : 1 ≤ o.maxLbdPartitionedSize) (actions : List Action) (s : State)
    (hrun : Runs.Reaches (step o) (Proper o) {} actions s) :
    (∀ action, Proper o s action → ∃ s', step o s action = .ok s') ∧
    ∀ m ∈ s.inFlight, ∀ v, accepts o v m.message = true ↔ v.active = true ∧ m.message.revision ≤ v.revision := by
  have hconserved : Conserved o s :=
    hrun.invariant (conserved_start o) fun _ _ _ h hproper hok => h.step hp hproper.1 hok
  have hasserted : Asserted o s := hrun.invariant (asserted_start o) fun _ _ _ h _ hok => h.step hok
  exact ⟨fun action hproper => hasserted.exists_step hp hconserved hproper,
    fun m hm v => (hasserted.right m hm).accepts_iff v⟩

/-- Before the last step of the round the clauses of both ranks are on the way to the child, which is delivered and
accepted. -/
theorem assertions_hold_sharingRound : ∃ s s' : State, s.collected.map Prod.fst = [1, 0] ∧
    (∃ m, s.inFlight = [m] ∧ m.dest = 1 ∧ m.message.tag = MSG_DISTRIBUTE_CLAUSES ∧
      accepts smallOptions (viewOf 1 []) m.message = true) ∧
    step smallOptions s (.deliver 0 (viewOf 1 [])) = .ok s' := by
  have hrun : (sharingRound.dropLast.foldlM (Runs.checked
      (fun s a => a.prepared.all (fun b => decide (b ∈ knownBuffers)) && decide (Allowed s a))
      (step smallOptions)) {}).map (fun s => (s.collected.map Prod.fst,
        s.inFlight.map fun m => (m.dest, m.message.tag, m.message.revision))) =
      some ([1, 0], [(1, MSG_DISTRIBUTE_CLAUSES, 0)]) := by
    decide +kernel
  obtain ⟨s, hs, heq⟩ := Option.map_eq_some_iff.mp hrun
  obtain ⟨hcollected, hinFlight⟩ := Prod.mk.inj heq
  have hreaches : Runs.Reaches (step smallOptions) (Proper smallOptions) {} sharingRound.dropLast s := by
    refine .of_checked (fun s a hcheck => ?_) hs
    rw [Bool.and_eq_true] at hcheck
    exact ⟨fun b hb => valid_of_known b (of_decide_eq_true (List.all_eq_true.mp hcheck.1 b hb)),
      of_decide_eq_true hcheck.2⟩
  obtain ⟨hstep, haccepted⟩ := assertions_hold smallOptions (by decide) sharingRound.dropLast s hreaches
  obtain ⟨m, hm, hfields⟩ := List.map_eq_singleton_iff.mp hinFlight
  obtain ⟨hdest, hrest⟩ := Prod.mk.inj hfields
  obtain ⟨htag, hrevision⟩ := Prod.mk.inj hrest
  obtain ⟨s', hs'⟩ := hstep (.deliver 0 (viewOf 1 [])) ⟨fun b hb => absurd hb List.not_mem_nil, trivial⟩
  refine ⟨s, s', hcollected, ⟨m, hm, hdest, htag, ?_⟩, hs'⟩
  exact (haccepted m (hm ▸ List.mem_singleton_self m) (viewOf 1 [])).mpr ⟨rfl, hrevision.le⟩

end Mallob.Sharing.ClauseNetwork
