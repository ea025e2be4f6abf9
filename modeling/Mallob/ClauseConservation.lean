import Mallob.ClauseNetwork
import Mallob.HeldClauses

namespace Mallob.Sharing.ClauseNetwork

open GatheredClauses (Valid clausesOf clausesOf_nil clausesOf_append clausesOf_cons clausesOf_congr clausesOf_held
  canSendClauses_cases held_handleGather held_initiate held_finishMerge held_getMerged finishMerge_cases valid_nil
  getMergedClauseBuffer_eq Communicator.held ownBuffer startsMerge)

variable {o : Options} {p : Nat} {s s' : State} {r : Nat} {x x' : Node} {v : View} {out : List Packet}

def Packet.carried (m : Packet) : List (List Int) :=
  if m.message.tag = MSG_GATHER_CLAUSES then [m.message.payload.dropLast] else []

def State.stored (p : Nat) (s : State) : Set Clause :=
  (⋃ r, clausesOf p (s.nodes r).comm.held) ∪
    (clausesOf p (s.inFlight.flatMap Packet.carried) ∪ clausesOf p (s.discarded.flatMap Packet.carried))

def State.Broadcast (s : State) (epoch : Int) (clauses : List Int) : Prop :=
  ∃ r, (epoch, clauses) ∈ (s.nodes r).comm.broadcast

def Action.prepared : Action → List (List Int)
  | .canSendClauses _ v => (v.prepared.map Prod.fst).toList
  | .finishMerge _ => []
  | .sendClausesToParent _ _ => []
  | .deliver _ _ => []

def Prepared (o : Options) (_ : State) (action : Action) : Prop :=
  ∀ b ∈ action.prepared, Valid o.maxLbdPartitionedSize b

structure Conserved (o : Options) (s : State) : Prop where
  held : ∀ r, ∀ b ∈ (s.nodes r).comm.held, Valid o.maxLbdPartitionedSize b
  carried : ∀ b ∈ s.inFlight.flatMap Packet.carried, Valid o.maxLbdPartitionedSize b
  stored : s.stored o.maxLbdPartitionedSize = clausesOf o.maxLbdPartitionedSize (s.collected.map Prod.snd)

structure Spread (s : State) : Prop where
  flying : ∀ m ∈ s.inFlight, m.message.tag = MSG_DISTRIBUTE_CLAUSES → s.Broadcast m.message.epoch m.message.payload
  heard : ∀ r, ∀ h ∈ (s.nodes r).heard, s.Broadcast h.1 h.2
  digested : ∀ r, ∀ d ∈ (s.nodes r).digested, ∃ epoch, s.Broadcast epoch d.1

section Storing

def State.others (p : Nat) (s : State) (r : Nat) : Set Clause := ⋃ r', ⋃ _ : r' ≠ r, clausesOf p (s.nodes r').comm.held

theorem iUnion_held (p : Nat) (s : State) (r : Nat) :
    ⋃ r', clausesOf p (s.nodes r').comm.held = clausesOf p (s.nodes r).comm.held ∪ s.others p r := by
  ext d
  simp only [State.others, Set.mem_iUnion, Set.mem_union, exists_prop]
  constructor
  · rintro ⟨r', hd⟩
    by_cases heq : r' = r
    · exact Or.inl (heq ▸ hd)
    · exact Or.inr ⟨r', heq, hd⟩
  · rintro (hd | ⟨r', -, hd⟩)
    · exact ⟨r, hd⟩
    · exact ⟨r', hd⟩

theorem others_setNode (p : Nat) (s : State) (r : Nat) (x : Node) : (s.setNode r x).others p r = s.others p r := by
  ext d
  simp only [State.others, Set.mem_iUnion, exists_prop]
  refine exists_congr fun r' => and_congr_right fun hne => ?_
  rw [setNode_nodes, if_neg hne]

theorem stored_setNode {inFlight discarded : List Packet} {collected : List (Nat × List Int)} :
    State.stored p { s.setNode r x with inFlight := inFlight, collected := collected, discarded := discarded } =
      clausesOf p x.comm.held ∪ s.others p r ∪
        (clausesOf p (inFlight.flatMap Packet.carried) ∪ clausesOf p (discarded.flatMap Packet.carried)) := by
  have hheld := iUnion_held p (s.setNode r x) r
  rw [others_setNode, setNode_nodes, if_pos rfl] at hheld
  rw [State.stored, ← hheld]

theorem stored_eq (p : Nat) (s : State) (r : Nat) : s.stored p = clausesOf p (s.nodes r).comm.held ∪ s.others p r ∪
    (clausesOf p (s.inFlight.flatMap Packet.carried) ∪ clausesOf p (s.discarded.flatMap Packet.carried)) := by
  rw [State.stored, iUnion_held p s r]

theorem clausesOf_eraseIdx {ms : List Packet} {i : Nat} {m : Packet} (h : ms[i]? = some m) :
    clausesOf p (ms.flatMap Packet.carried) =
      clausesOf p m.carried ∪ clausesOf p ((ms.eraseIdx i).flatMap Packet.carried) := by
  obtain ⟨hi, rfl⟩ := List.getElem?_eq_some_iff.mp h
  have hperm : (ms[i] :: ms.eraseIdx i).Perm ms := List.getElem_cons_eraseIdx_perm hi
  rw [← clausesOf_append, ← List.flatMap_cons]
  exact clausesOf_congr fun b => (hperm.flatMap_right Packet.carried).symm.mem_iff

theorem setChecksum_frame (o : Options) (m : JobMessage) : (setChecksum o m).jobId = m.jobId ∧
    (setChecksum o m).revision = m.revision ∧ (setChecksum o m).tag = m.tag ∧ (setChecksum o m).epoch = m.epoch ∧
    (setChecksum o m).payload = m.payload := by
  rw [setChecksum]
  split <;> exact ⟨rfl, rfl, rfl, rfl, rfl⟩

theorem distributeMessage_frame (o : Options) (revision epoch : Int) (clauses : List Int) :
    (distributeMessage o revision epoch clauses).tag = MSG_DISTRIBUTE_CLAUSES ∧
      (distributeMessage o revision epoch clauses).epoch = epoch ∧
      (distributeMessage o revision epoch clauses).payload = clauses := by
  obtain ⟨-, -, htag, hepoch, hpayload⟩ :=
    setChecksum_frame o ⟨o.jobId, revision, MSG_DISTRIBUTE_CLAUSES, epoch, {}, clauses⟩
  exact ⟨htag, hepoch, hpayload⟩

theorem gatherMessage_frame (o : Options) (revision : Int) (clauses : List Int) (count : Int) :
    (gatherMessage o revision clauses count).tag = MSG_GATHER_CLAUSES ∧
      (gatherMessage o revision clauses count).payload = clauses ++ [count] := by
  obtain ⟨-, -, htag, -, hpayload⟩ :=
    setChecksum_frame o ⟨o.jobId, revision, MSG_GATHER_CLAUSES, 0, {}, clauses ++ [count]⟩
  exact ⟨htag, hpayload⟩

theorem carried_distribute {m : Packet} (h : m.message.tag = MSG_DISTRIBUTE_CLAUSES) : m.carried = [] := by
  rw [Packet.carried, h, if_neg (by decide)]

theorem carried_children (o : Options) (rank : Nat) (revision epoch : Int) (clauses : List Int) (children : List Nat) :
    (children.map fun child => (⟨rank, child, distributeMessage o revision epoch clauses⟩ : Packet)).flatMap
      Packet.carried = [] := by
  rw [List.flatMap_eq_nil_iff]
  intro m hm
  obtain ⟨child, -, rfl⟩ := List.mem_map.mp hm
  exact carried_distribute (distributeMessage_frame o revision epoch clauses).1

theorem carried_gather (o : Options) (rank parent : Nat) (revision : Int) (clauses : List Int) (count : Int) :
    ([⟨rank, parent, gatherMessage o revision clauses count⟩] : List Packet).flatMap Packet.carried = [clauses] := by
  obtain ⟨htag, hpayload⟩ := gatherMessage_frame o revision clauses count
  simp [Packet.carried, htag, hpayload]

theorem held_broadcast (comm : GatheredClauses.Communicator) (epoch : Int) (clauses : List Int) (n : Int) (d : List Int) :
    d ∈ Communicator.held { comm with
      broadcast := comm.broadcast ++ [(comm.currentEpoch, clauses)], currentEpoch := epoch, numAggregatedNodes := n } ↔
      d = clauses ∨ d ∈ comm.held := by
  simp only [Communicator.held, List.map_append, List.mem_append, List.map_cons, List.map_nil, List.mem_singleton]
  tauto

theorem held_sendClausesToParent (hvalid : ∀ b ∈ x.comm.held, Valid p b)
    (hok : sendClausesToParent o r x v = .ok (x', out)) :
    (∀ b ∈ x'.comm.held, Valid p b) ∧ (∀ b ∈ out.flatMap Packet.carried, Valid p b) ∧
      clausesOf p x'.comm.held ∪ clausesOf p (out.flatMap Packet.carried) = clausesOf p x.comm.held := by
  obtain ⟨result, comm, hmerged, hcases⟩ := sendClausesToParent_cases hok
  obtain ⟨hresult, hheld, hclauses⟩ := held_getMerged hvalid hmerged
  rcases hcases with ⟨-, -, -, hcomm, rfl⟩ | ⟨-, -, -, hcomm, rfl⟩
  · have hbroadcast := held_broadcast comm (comm.currentEpoch + 1) result.clauses 0
    rw [← hcomm] at hbroadcast
    refine ⟨fun b hb => ?_, fun b hb => ?_, ?_⟩
    · rcases (hbroadcast b).mp hb with rfl | hb
      · exact hresult
      · exact hheld b hb
    · rw [carried_children] at hb
      cases hb
    · rw [carried_children, clausesOf_nil, Set.union_empty, ← hclauses, ← clausesOf_cons]
      exact clausesOf_congr fun b => (hbroadcast b).trans List.mem_cons.symm
  · have hsame : x'.comm.held = comm.held := by
      rw [hcomm]
      rfl
    rw [hsame, carried_gather]
    refine ⟨hheld, fun b hb => ?_, ?_⟩
    · rw [List.mem_singleton.mp hb]
      exact hresult
    · rw [Set.union_comm]
      exact hclauses

theorem held_handle {m : Packet} (hok : handle o r x v m.message = .ok (x', out)) :
    out.flatMap Packet.carried = [] ∧
      (∀ b, b ∈ x'.comm.held ↔ b ∈ (if accepts o v m.message then m.carried else []) ∨ b ∈ x.comm.held) := by
  rcases handle_cases hok with ⟨hnot, rfl, rfl⟩ | ⟨haccepts, htag, rfl, clauses, count, hpayload, rfl⟩ |
    ⟨haccepts, htag, rfl, rfl⟩ | ⟨haccepts, htag, -, rfl, rfl⟩
  · refine ⟨rfl, fun b => ?_⟩
    simp [hnot]
  · refine ⟨rfl, fun b => ?_⟩
    rw [held_handleGather, haccepts, if_pos rfl, Packet.carried, if_pos htag, hpayload, List.dropLast_concat,
      List.mem_singleton]
  · refine ⟨carried_children _ _ _ _ _ _, fun b => ?_⟩
    rw [learnClauses_comm, carried_distribute htag]
    simp [Communicator.held]
  · refine ⟨rfl, fun b => ?_⟩
    rw [Packet.carried, if_neg htag]
    simp

end Storing

section Steps

theorem Conserved.held_setNode (h : Conserved o s) (hx : ∀ b ∈ x.comm.held, Valid o.maxLbdPartitionedSize b) (r' : Nat) :
    ∀ b ∈ ((s.setNode r x).nodes r').comm.held, Valid o.maxLbdPartitionedSize b := by
  rw [setNode_nodes]
  split
  · exact hx
  · exact h.held r'

theorem valid_ownBuffer (hprepared : ∀ b ∈ (Action.canSendClauses r v).prepared, Valid p b) :
    Valid p (ownBuffer (v.job o)).clauses := by
  rw [ownBuffer]
  dsimp only
  split
  · cases hv : v.prepared with
    | none =>
        rw [View.job, hv]
        exact valid_nil
    | some b =>
        rw [View.job, hv]
        exact hprepared b.1 (by simp [Action.prepared, hv])
  · exact valid_nil

theorem Conserved.start (h : Conserved o s) (hprepared : Prepared o s (.canSendClauses r v))
    {comm : GatheredClauses.Communicator} (hempty : (s.nodes r).comm.clauseBuffersBeingMerged = [])
    (hok : GatheredClauses.initiateMergeOfClauseBuffers o.getBufferLimit (s.nodes r).comm (v.job o) = .ok comm) :
    Conserved o { s.setComm r comm with collected := s.collected ++ [(r, (ownBuffer (v.job o)).clauses)] } := by
  have hheld := held_initiate hempty hok
  have hown : Valid o.maxLbdPartitionedSize (ownBuffer (v.job o)).clauses := valid_ownBuffer hprepared
  have hclauses : clausesOf o.maxLbdPartitionedSize comm.held =
      clausesOf o.maxLbdPartitionedSize [(ownBuffer (v.job o)).clauses] ∪
        clausesOf o.maxLbdPartitionedSize (s.nodes r).comm.held := by
    rw [← clausesOf_cons]
    exact clausesOf_congr fun b => (hheld b).trans List.mem_cons.symm
  refine ⟨h.held_setNode fun b hb => ?_, h.carried, ?_⟩
  · rcases (hheld b).mp hb with rfl | hb
    · exact hown
    · exact h.held r b hb
  · have hstored := h.stored
    rw [stored_eq _ s r] at hstored
    rw [State.setComm, stored_setNode, hclauses]
    simp only [List.map_append, clausesOf_append, List.map_cons, List.map_nil, ← hstored]
    ext d
    simp only [Set.mem_union, State.setNode]
    tauto

theorem Conserved.finish (hp : 1 ≤ o.maxLbdPartitionedSize) (h : Conserved o s) {comm : GatheredClauses.Communicator}
    (hok : GatheredClauses.finishMerge o.maxLbdPartitionedSize (s.nodes r).comm = .ok comm) :
    Conserved o (s.setComm r comm) := by
  obtain ⟨hvalid, hclauses⟩ := held_finishMerge hp (h.held r) hok
  refine ⟨h.held_setNode hvalid, h.carried, ?_⟩
  rw [State.setComm, stored_setNode]
  dsimp only
  rw [hclauses]
  exact (stored_eq _ s r).symm.trans h.stored

theorem Conserved.send (h : Conserved o s) (hok : sendClausesToParent o r (s.nodes r) v = .ok (x, out)) :
    Conserved o { s.setNode r x with inFlight := s.inFlight ++ out } := by
  obtain ⟨hvalid, hout, hclauses⟩ := held_sendClausesToParent (h.held r) hok
  refine ⟨h.held_setNode hvalid, fun b hb => ?_, ?_⟩
  · rw [List.flatMap_append, List.mem_append] at hb
    exact hb.elim (h.carried b) (hout b)
  · have hstored := h.stored
    rw [stored_eq _ s r, ← hclauses] at hstored
    refine Eq.trans ?_ hstored
    rw [stored_setNode, List.flatMap_append, clausesOf_append]
    ext d
    simp only [Set.mem_union, State.setNode]
    tauto

theorem Conserved.deliver (h : Conserved o s) {i : Nat} {m : Packet} (hm : s.inFlight[i]? = some m)
    (hok : handle o m.dest (s.nodes m.dest) v m.message = .ok (x, out)) :
    Conserved o { s.setNode m.dest x with
      inFlight := s.inFlight.eraseIdx i ++ out
      discarded := if accepts o v m.message then s.discarded else s.discarded ++ [m] } := by
  obtain ⟨hout, hheld⟩ := held_handle hok
  have hsplit := clausesOf_eraseIdx (p := o.maxLbdPartitionedSize) hm
  have hclauses : clausesOf o.maxLbdPartitionedSize x.comm.held =
      clausesOf o.maxLbdPartitionedSize (if accepts o v m.message then m.carried else []) ∪
        clausesOf o.maxLbdPartitionedSize (s.nodes m.dest).comm.held := by
    rw [← clausesOf_append]
    exact clausesOf_congr fun b => (hheld b).trans List.mem_append.symm
  refine ⟨h.held_setNode fun b hb => ?_, fun b hb => ?_, ?_⟩
  · rcases (hheld b).mp hb with hb | hb
    · split at hb
      · exact h.carried b (List.mem_flatMap.mpr ⟨m, List.mem_of_getElem? hm, hb⟩)
      · cases hb
    · exact h.held m.dest b hb
  · rw [List.flatMap_append, hout, List.append_nil] at hb
    obtain ⟨m', hm', hb⟩ := List.mem_flatMap.mp hb
    exact h.carried b (List.mem_flatMap.mpr ⟨m', List.mem_of_mem_eraseIdx hm', hb⟩)
  · have hstored := h.stored
    rw [stored_eq _ s m.dest, hsplit] at hstored
    refine Eq.trans ?_ hstored
    rw [stored_setNode, hclauses, List.flatMap_append, hout, List.append_nil]
    cases accepts o v m.message with
    | true =>
        simp only [if_true]
        ext d
        simp only [Set.mem_union]
        tauto
    | false =>
        simp only [Bool.false_eq_true, if_false, clausesOf_nil, Set.empty_union, List.flatMap_append,
          clausesOf_append, List.flatMap_cons, List.flatMap_nil, List.append_nil]
        ext d
        simp only [Set.mem_union]
        tauto

theorem Conserved.step (hp : 1 ≤ o.maxLbdPartitionedSize) (h : Conserved o s) {action : Action}
    (hprepared : Prepared o s action) (hok : step o s action = .ok s') : Conserved o s' := by
  rcases step_cases hok with rfl | ⟨r, v, comm, rfl, -, hempty, hinitiate, rfl⟩ | ⟨r, comm, -, hfinish, rfl⟩ |
    ⟨r, v, x, out, -, hsend, rfl⟩ | ⟨i, v, m, x, out, -, hm, hhandle, rfl⟩
  · exact h
  · exact h.start hprepared hempty hinitiate
  · exact h.finish hp hfinish
  · exact h.send hsend
  · exact h.deliver hm hhandle

theorem conserved_start (o : Options) : Conserved o {} := by
  refine ⟨fun r b hb => absurd hb List.not_mem_nil, fun b hb => absurd hb List.not_mem_nil, ?_⟩
  ext d
  simp only [State.stored, Set.mem_union, Set.mem_iUnion]
  simp [Communicator.held]

end Steps

end Mallob.Sharing.ClauseNetwork
