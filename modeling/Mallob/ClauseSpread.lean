import Mallob.ClauseConservation

namespace Mallob.Sharing.ClauseNetwork

open GatheredClauses (Communicator Valid clausesOf initiateMergeOfClauseBuffers getMergedClauseBuffer handleGather
  finishMerge_cases getMergedClauseBuffer_eq forall_held clausesOf_contents)

variable {o : Options} {s s' : State} {r : Nat} {x x' : Node} {v : View} {out : List Packet}

section Frames

variable {comm comm' : Communicator} {getBufferLimit : Int → Nat} {p : Nat}

theorem initiate_frame {job : GatheredClauses.Job}
    (hok : initiateMergeOfClauseBuffers getBufferLimit comm job = .ok comm') :
    comm'.broadcast = comm.broadcast ∧ comm'.currentEpoch = comm.currentEpoch := by
  rw [initiateMergeOfClauseBuffers] at hok
  split at hok
  · obtain rfl := Except.ok.inj hok
    exact ⟨rfl, rfl⟩
  · cases hok

theorem finishMerge_frame (hok : GatheredClauses.finishMerge p comm = .ok comm') :
    comm'.broadcast = comm.broadcast ∧ comm'.currentEpoch = comm.currentEpoch := by
  rcases finishMerge_cases hok with rfl | ⟨-, -, main, excess, -, rfl⟩
  · exact ⟨rfl, rfl⟩
  · exact ⟨rfl, rfl⟩

theorem getMerged_frame {result : GatheredClauses.Gathered} (hok : getMergedClauseBuffer comm = .ok (result, comm')) :
    comm'.broadcast = comm.broadcast ∧ comm'.currentEpoch = comm.currentEpoch := by
  obtain ⟨-, -, -, rfl⟩ := getMergedClauseBuffer_eq hok
  exact ⟨rfl, rfl⟩

theorem mem_digested_learnClauses {clauses : List Int} {d : List Int × Checksum}
    (hd : d ∈ (learnClauses o x v clauses).digested) :
    d ∈ x.digested ∨ d = (clauses, if o.useChecksums then checksumOf o.jobId clauses else {}) := by
  rw [learnClauses] at hd
  split at hd
  · rcases List.mem_append.mp hd with hd | hd
    · exact Or.inl hd
    · exact Or.inr (List.mem_singleton.mp hd)
  · exact Or.inl hd

theorem handle_frame {m : JobMessage} (hok : handle o r x v m = .ok (x', out)) :
    x'.comm.broadcast = x.comm.broadcast := by
  rcases handle_cases hok with ⟨-, rfl, -⟩ | ⟨-, -, -, clauses, count, -, rfl⟩ | ⟨-, -, rfl, -⟩ | ⟨-, -, -, rfl, -⟩
  · rfl
  · rfl
  · rw [learnClauses_comm]
  · rfl

theorem send_frame (hok : sendClausesToParent o r x v = .ok (x', out)) : x.comm.broadcast <+: x'.comm.broadcast := by
  obtain ⟨result, comm, hmerged, hcases⟩ := sendClausesToParent_cases hok
  rw [← (getMerged_frame hmerged).1]
  rcases hcases with ⟨-, -, -, hcomm, -⟩ | ⟨-, -, -, hcomm, -⟩
  · rw [hcomm]
    exact List.prefix_append _ _
  · rw [hcomm]

end Frames

section Spreading

theorem broadcast_setNode (hgrows : (s.nodes r).comm.broadcast <+: x.comm.broadcast) {inFlight discarded : List Packet}
    {collected : List (Nat × List Int)} {epoch : Int} {clauses : List Int} (h : s.Broadcast epoch clauses) :
    State.Broadcast { s.setNode r x with inFlight := inFlight, collected := collected, discarded := discarded }
      epoch clauses := by
  obtain ⟨r', hmem⟩ := h
  by_cases heq : r' = r
  · refine ⟨r, ?_⟩
    simp only [setNode_nodes, if_true]
    exact hgrows.subset (heq ▸ hmem)
  · refine ⟨r', ?_⟩
    simp only [setNode_nodes, if_neg heq]
    exact hmem

/-- One rank changes and sends messages. What it hears of and sends has been broadcast. -/
theorem Spread.setNode (h : Spread s) (hgrows : (s.nodes r).comm.broadcast <+: x.comm.broadcast)
    {inFlight discarded : List Packet} {collected : List (Nat × List Int)} {s' : State}
    (hs' : s' = { s.setNode r x with inFlight := inFlight, collected := collected, discarded := discarded })
    (hflying : ∀ m ∈ inFlight, m ∈ s.inFlight ∨
      (m.message.tag = MSG_DISTRIBUTE_CLAUSES → s'.Broadcast m.message.epoch m.message.payload))
    (hheard : ∀ e ∈ x.heard, e ∈ (s.nodes r).heard ∨ s'.Broadcast e.1 e.2)
    (hdigested : ∀ d ∈ x.digested, d ∈ (s.nodes r).digested ∨ ∃ epoch, s'.Broadcast epoch d.1) : Spread s' := by
  subst hs'
  have hmono := @broadcast_setNode s r x hgrows inFlight discarded collected
  refine ⟨fun m hm htag => ?_, fun r' e he => ?_, fun r' d hd => ?_⟩
  · rcases hflying m hm with hold | hnew
    · exact hmono (h.flying m hold htag)
    · exact hnew htag
  · simp only [setNode_nodes] at he
    split at he
    · rcases hheard e he with hold | hnew
      · exact hmono (h.heard r e hold)
      · exact hnew
    · exact hmono (h.heard r' e he)
  · simp only [setNode_nodes] at hd
    split at hd
    · rcases hdigested d hd with hold | hnew
      · obtain ⟨epoch, hbroadcast⟩ := h.digested r d hold
        exact ⟨epoch, hmono hbroadcast⟩
      · exact hnew
    · obtain ⟨epoch, hbroadcast⟩ := h.digested r' d hd
      exact ⟨epoch, hmono hbroadcast⟩

theorem flying_children {revision epoch : Int} {clauses : List Int} {children : List Nat} {m : Packet}
    (hm : m ∈ children.map fun child => (⟨r, child, distributeMessage o revision epoch clauses⟩ : Packet)) :
    m.source = r ∧ m.dest ∈ children ∧ m.message.tag = MSG_DISTRIBUTE_CLAUSES ∧ m.message.epoch = epoch ∧
      m.message.payload = clauses := by
  obtain ⟨child, hchild, rfl⟩ := List.mem_map.mp hm
  exact ⟨rfl, hchild, distributeMessage_frame o revision epoch clauses⟩

theorem Spread.send (h : Spread s) (hok : sendClausesToParent o r (s.nodes r) v = .ok (x, out)) :
    Spread { s.setNode r x with inFlight := s.inFlight ++ out } := by
  refine h.setNode (send_frame hok) rfl (fun m hm => ?_) (fun e he => ?_) fun d hd => ?_
  all_goals obtain ⟨result, comm, hmerged, hcases⟩ := sendClausesToParent_cases hok
  all_goals obtain ⟨hbroadcast, hepoch⟩ := getMerged_frame hmerged
  · rw [List.mem_append] at hm
    refine hm.imp_right fun hm htag => ?_
    rcases hcases with ⟨-, -, -, hcomm, rfl⟩ | ⟨-, -, -, -, rfl⟩
    · obtain ⟨-, -, -, hepoch, hpayload⟩ := flying_children hm
      rw [hepoch, hpayload]
      refine ⟨r, ?_⟩
      simp [hcomm]
    · rw [List.mem_singleton.mp hm, (gatherMessage_frame o v.revision result.clauses comm.numAggregatedNodes).1] at htag
      exact absurd htag (by decide)
  · rcases hcases with ⟨-, hheard, -, hcomm, -⟩ | ⟨-, hheard, -, -, -⟩
    · rw [hheard, List.mem_append] at he
      refine he.imp_right fun he => ⟨r, ?_⟩
      rw [List.mem_singleton.mp he]
      simp [hcomm]
    · rw [hheard] at he
      exact Or.inl he
  · rcases hcases with ⟨-, -, hdigested, hcomm, -⟩ | ⟨-, -, hdigested, -, -⟩
    · rw [hdigested] at hd
      refine (mem_digested_learnClauses hd).imp_right fun hd => ⟨comm.currentEpoch, r, ?_⟩
      rw [hd]
      simp [hcomm]
    · rw [hdigested] at hd
      exact Or.inl hd

theorem Spread.deliver (h : Spread s) {i : Nat} {m : Packet} (hm : s.inFlight[i]? = some m)
    (hok : handle o m.dest (s.nodes m.dest) v m.message = .ok (x, out)) :
    Spread { s.setNode m.dest x with
      inFlight := s.inFlight.eraseIdx i ++ out
      discarded := if accepts o v m.message then s.discarded else s.discarded ++ [m] } := by
  have hframe := handle_frame hok
  have hgrows : (s.nodes m.dest).comm.broadcast <+: x.comm.broadcast := by rw [hframe]
  have hsame : m.message.tag = MSG_DISTRIBUTE_CLAUSES → State.Broadcast { s.setNode m.dest x with
      inFlight := s.inFlight.eraseIdx i ++ out
      discarded := if accepts o v m.message then s.discarded else s.discarded ++ [m] } m.message.epoch
      m.message.payload :=
    fun htag => broadcast_setNode hgrows (h.flying m (List.mem_of_getElem? hm) htag)
  refine h.setNode hgrows rfl (fun m' hm' => ?_) (fun e he => ?_) fun d hd => ?_
  all_goals rcases handle_cases hok with ⟨-, rfl, rfl⟩ | ⟨-, -, rfl, clauses, count, -, rfl⟩ | ⟨-, htag, rfl, rfl⟩ |
    ⟨-, -, -, rfl, rfl⟩
  · exact Or.inl (List.mem_of_mem_eraseIdx (List.append_nil _ ▸ hm'))
  · exact Or.inl (List.mem_of_mem_eraseIdx (List.append_nil _ ▸ hm'))
  · refine (List.mem_append.mp hm').imp (fun hm' => List.mem_of_mem_eraseIdx hm') fun hm' _ => ?_
    obtain ⟨-, -, -, hepoch, hpayload⟩ := flying_children hm'
    rw [hepoch, hpayload]
    exact hsame htag
  · exact Or.inl (List.mem_of_mem_eraseIdx (List.append_nil _ ▸ hm'))
  · exact Or.inl he
  · exact Or.inl he
  · rw [learnClauses_heard, List.mem_append] at he
    refine he.imp_right fun he => ?_
    rw [List.mem_singleton.mp he]
    exact hsame htag
  · exact Or.inl he
  · exact Or.inl hd
  · exact Or.inl hd
  · refine (mem_digested_learnClauses hd).imp_right fun hd => ⟨m.message.epoch, ?_⟩
    rw [hd]
    exact hsame htag
  · exact Or.inl hd

theorem Spread.step (h : Spread s) {action : Action} (hok : step o s action = .ok s') : Spread s' := by
  rcases step_cases hok with rfl | ⟨r, v, comm, -, -, -, hinitiate, rfl⟩ | ⟨r, comm, -, hfinish, rfl⟩ |
    ⟨r, v, x, out, -, hsend, rfl⟩ | ⟨i, v, m, x, out, -, hm, hhandle, rfl⟩
  · exact h
  · refine h.setNode (x := { s.nodes r with comm := comm }) ?_ rfl (fun _ hm => Or.inl hm) (fun _ he => Or.inl he)
      fun _ hd => Or.inl hd
    rw [(initiate_frame hinitiate).1]
  · refine h.setNode (x := { s.nodes r with comm := comm }) ?_ rfl (fun _ hm => Or.inl hm) (fun _ he => Or.inl he)
      fun _ hd => Or.inl hd
    rw [(finishMerge_frame hfinish).1]
  · exact h.send hsend
  · exact h.deliver hm hhandle

theorem spread_start : Spread {} where
  flying := fun _ hm => absurd hm List.not_mem_nil
  heard := fun _ _ he => absurd he List.not_mem_nil
  digested := fun _ _ hd => absurd hd List.not_mem_nil

end Spreading

/-- However the job tree changes, whatever is delivered late or not accepted: the clauses in all buffers and messages
are the ones that have been collected from the solvers of some rank, none of them is lost, and the solvers digest
broadcasts of such clauses only. -/
theorem sharing_conserved (o : Options) (hp : 1 ≤ o.maxLbdPartitionedSize) (actions : List Action) (s : State)
    (hrun : Runs.Reaches (step o) (Prepared o) {} actions s) :
    s.stored o.maxLbdPartitionedSize = clausesOf o.maxLbdPartitionedSize (s.collected.map Prod.snd) ∧
    ∀ r, ∀ d ∈ (s.nodes r).digested, (∃ epoch, s.Broadcast epoch d.1) ∧ Valid o.maxLbdPartitionedSize d.1 ∧
      clausesOf o.maxLbdPartitionedSize [d.1] ⊆ clausesOf o.maxLbdPartitionedSize (s.collected.map Prod.snd) := by
  have hconserved : Conserved o s :=
    hrun.invariant (conserved_start o) fun _ _ _ h hprepared hok => h.step hp hprepared hok
  have hspread : Spread s := hrun.invariant spread_start fun _ _ _ h _ hok => h.step hok
  refine ⟨hconserved.stored, fun r d hd => ?_⟩
  obtain ⟨epoch, r', hmem⟩ := hspread.digested r d hd
  have hheld : d.1 ∈ (s.nodes r').comm.held := by
    simp only [Communicator.held, List.mem_append]
    exact Or.inr (Or.inr (Or.inr (Or.inr (List.mem_map.mpr ⟨_, hmem, rfl⟩))))
  refine ⟨⟨epoch, r', hmem⟩, hconserved.held r' d.1 hheld, ?_⟩
  rw [← hconserved.stored]
  rintro c ⟨b, hb, hc⟩
  refine Or.inl (Set.mem_iUnion.mpr ⟨r', d.1, hheld, ?_⟩)
  rwa [← List.mem_singleton.mp hb]

def viewOf (rank : Nat) (prepared : List Int) : View where
  active := true
  initialized := true
  revision := 0
  isRoot := rank = 0
  parentRank := 0
  leftChild := if rank = 0 then some 1 else none
  rightChild := none
  commSize := 2
  prepared := some (prepared, checksumOf 7 prepared)

def smallOptions : Options := ⟨7, true, 2, fun _ => 100⟩

/-- Both ranks collect a clause, and the root broadcasts both clauses. -/
def sharingRound : List Action :=
  [.canSendClauses 1 (viewOf 1 [0, 0, 1, 5]), .finishMerge 1, .sendClausesToParent 1 (viewOf 1 []),
    .deliver 0 (viewOf 0 []), .canSendClauses 0 (viewOf 0 [0, 0, 1, -6]), .finishMerge 0,
    .sendClausesToParent 0 (viewOf 0 []), .deliver 0 (viewOf 1 [])]

def knownBuffers : List (List Int) := [[], [0, 0, 1, 5], [0, 0, 1, -6]]

theorem valid_of_known : ∀ b ∈ knownBuffers, Valid 2 b := by
  have hunit : Valid 2 [0, 0, 1, 5] := ⟨[⟨[5], 1⟩], by decide +kernel, by decide, by decide⟩
  have hnegated : Valid 2 [0, 0, 1, -6] := ⟨[⟨[-6], 1⟩], by decide +kernel, by decide, by decide⟩
  simp only [knownBuffers, List.forall_mem_cons]
  exact ⟨GatheredClauses.valid_nil, hunit, hnegated, fun _ hb => absurd hb List.not_mem_nil⟩

theorem sharing_conserved_sharingRound : ∃ s : State,
    s.collected = [(1, [0, 0, 1, 5]), (0, [0, 0, 1, -6])] ∧
    (s.nodes 1).digested.map Prod.fst = [[1, 0, 2, -6, 5]] ∧
    s.stored 2 = clausesOf 2 [[0, 0, 1, 5], [0, 0, 1, -6]] := by
  have hrun : (sharingRound.foldlM (Runs.checked (fun _ a => a.prepared.all fun b => decide (b ∈ knownBuffers))
      (step smallOptions)) {}).map (fun s => (s.collected, (s.nodes 1).digested.map Prod.fst)) =
      some ([(1, [0, 0, 1, 5]), (0, [0, 0, 1, -6])], [[1, 0, 2, -6, 5]]) := by
    decide +kernel
  obtain ⟨s, hs, heq⟩ := Option.map_eq_some_iff.mp hrun
  obtain ⟨hcollected, hdigested⟩ := Prod.mk.inj heq
  have hreaches : Runs.Reaches (step smallOptions) (Prepared smallOptions) {} sharingRound s := by
    refine .of_checked (fun _ a hcheck b hb => valid_of_known b ?_) hs
    exact of_decide_eq_true (List.all_eq_true.mp hcheck b hb)
  have hstored := (sharing_conserved smallOptions (by decide) sharingRound s hreaches).1
  rw [hcollected] at hstored
  exact ⟨s, hcollected, hdigested, hstored⟩

end Mallob.Sharing.ClauseNetwork
