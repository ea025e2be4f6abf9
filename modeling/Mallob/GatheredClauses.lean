import Mallob.MergedBuffers
import Mallob.Runs

namespace Mallob.Sharing.GatheredClauses

/-- A clause buffer. The number of nodes that have contributed to it is not part of the program, which only keeps
a counter beside all buffers. -/
structure Gathered where
  clauses : List Int
  contributions : Int
deriving DecidableEq

/-- The clauses and the count of a message to the parent, with the contributions to the clauses and the size of
the communicator when their merge began. -/
structure GatherMessage where
  clauses : List Int
  count : Int
  contributions : Int
  commSize : Int
deriving DecidableEq

/-- The limit on the merged buffer and the size of the communicator belong to the merge under way. -/
structure Communicator where
  clauseBuffers : List Gathered := []
  clauseBuffersBeingMerged : List Gathered := []
  excessClausesFromMerge : List Int := []
  isMerging : Bool := false
  isDoneMerging : Bool := false
  totalSize : Nat := 0
  commSize : Int := 0
  numAggregatedNodes : Int := 0
  currentEpoch : Int := 0
  sent : List GatherMessage := []
  broadcast : List (Int × List Int) := []
  returned : List (List Int) := []
deriving DecidableEq

structure Job where
  active : Bool
  initialized : Bool
  prepared : Option (List Int)
  checksumOk : Bool
  numChildren : Nat
  commSize : Int

inductive Action where
  | gather (clauses : List Int) (count : Int)
  | canSendClauses (job : Job)
  | finishMerge
  | sendClausesToParent (isRoot : Bool)

inductive Fault where
  | assertion
  | merge (fault : MergeFault)
deriving DecidableEq

def contributionsOf (buffers : List Gathered) : Int := (buffers.map (·.contributions)).sum

def handleGather (c : Communicator) (clauses : List Int) (count : Int) : Communicator :=
  { c with
    clauseBuffers := c.clauseBuffers ++ [⟨clauses, count⟩]
    numAggregatedNodes := c.numAggregatedNodes + count }

def ownBuffer (job : Job) : Gathered :=
  ⟨if job.initialized && job.checksumOk then job.prepared.getD [] else [], 1⟩

/-- The own buffer goes behind the gathered ones, and at most four buffers are merged. -/
def initiateMergeOfClauseBuffers (getBufferLimit : Int → Nat) (c : Communicator) (job : Job) :
    Except Fault Communicator :=
  let numAggregatedNodes := min (c.numAggregatedNodes + 1) job.commSize
  let clauseBuffers := c.clauseBuffers ++ [ownBuffer job]
  if 0 < numAggregatedNodes ∧ c.isDoneMerging = false then
    .ok { c with
      numAggregatedNodes := numAggregatedNodes
      clauseBuffers := clauseBuffers.drop 4
      clauseBuffersBeingMerged := clauseBuffers.take 4
      isMerging := true
      totalSize := getBufferLimit numAggregatedNodes
      commSize := job.commSize }
  else .error .assertion

def startsMerge (c : Communicator) (job : Job) : Bool :=
  job.active && job.prepared.isSome && decide (job.numChildren ≤ c.clauseBuffers.length) && !c.isMerging &&
    c.clauseBuffersBeingMerged.isEmpty

def canSendClauses (getBufferLimit : Int → Nat) (c : Communicator) (job : Job) : Except Fault (Bool × Communicator) :=
  if !job.active then .ok (false, c)
  else if c.isMerging && c.isDoneMerging then
    if c.clauseBuffersBeingMerged.length = 1 then .ok (true, c) else .error .assertion
  else if startsMerge c job then (initiateMergeOfClauseBuffers getBufferLimit c job).map (false, ·)
  else .ok (false, c)

/-- The asynchronous task puts the merged buffer in place of the others. -/
def finishMerge (maxLbdPartitionedSize : Nat) (c : Communicator) : Except Fault Communicator :=
  if c.isMerging && !c.isDoneMerging then
    match mergeBuffers maxLbdPartitionedSize false (c.clauseBuffersBeingMerged.map fun b => (b.clauses, false))
        c.totalSize true with
    | .error e => .error (.merge e)
    | .ok (result, excess) =>
        .ok { c with
          clauseBuffersBeingMerged := [⟨result, contributionsOf c.clauseBuffersBeingMerged⟩]
          excessClausesFromMerge := excess.getD []
          isDoneMerging := true }
  else .ok c

def getMergedClauseBuffer (c : Communicator) : Except Fault (Gathered × Communicator) :=
  match c.isMerging && c.isDoneMerging, c.clauseBuffersBeingMerged with
  | true, [result] =>
      .ok (result, { c with
        isMerging := false
        isDoneMerging := false
        clauseBuffersBeingMerged := []
        returned := if 2 < c.excessClausesFromMerge.length then c.returned ++ [c.excessClausesFromMerge]
          else c.returned })
  | _, _ => .error .assertion

def sendClausesToParent (c : Communicator) (isRoot : Bool) : Except Fault Communicator :=
  (getMergedClauseBuffer c).map fun (result, c) =>
    let c := if isRoot
      then { c with broadcast := c.broadcast ++ [(c.currentEpoch, result.clauses)], currentEpoch := c.currentEpoch + 1 }
      else { c with sent := c.sent ++ [⟨result.clauses, c.numAggregatedNodes, result.contributions, c.commSize⟩] }
    { c with numAggregatedNodes := 0 }

def step (maxLbdPartitionedSize : Nat) (getBufferLimit : Int → Nat) (c : Communicator) :
    Action → Except Fault Communicator
  | .gather clauses count => .ok (handleGather c clauses count)
  | .canSendClauses job => (canSendClauses getBufferLimit c job).map Prod.snd
  | .finishMerge => finishMerge maxLbdPartitionedSize c
  | .sendClausesToParent isRoot => sendClausesToParent c isRoot

/-- The count of a message is the number of contributions to its clauses, up to the size of the communicator. -/
def GatherMessage.Right (m : GatherMessage) : Prop := m.count = min m.contributions m.commSize

instance (m : GatherMessage) : Decidable m.Right := inferInstanceAs (Decidable (_ = _))

/-- No clauses are gathered while a merge is under way, and no merge begins with more than three gathered
buffers. -/
def Undisturbed (c : Communicator) : Action → Prop
  | .gather _ _ => c.isMerging = false
  | .canSendClauses job => startsMerge c job = true → c.clauseBuffers.length ≤ 3
  | .finishMerge => True
  | .sendClausesToParent _ => True

instance (c : Communicator) : (action : Action) → Decidable (Undisturbed c action)
  | .gather _ _ => inferInstanceAs (Decidable (_ = _))
  | .canSendClauses _ => inferInstanceAs (Decidable (_ → _))
  | .finishMerge => inferInstanceAs (Decidable True)
  | .sendClausesToParent _ => inferInstanceAs (Decidable True)

structure Counted (c : Communicator) : Prop where
  gathering : c.isMerging = false → c.numAggregatedNodes = contributionsOf c.clauseBuffers
  merging : c.isMerging = true → c.clauseBuffers = [] ∧
    c.numAggregatedNodes = min (contributionsOf c.clauseBuffersBeingMerged) c.commSize
  sent : ∀ m ∈ c.sent, m.Right

section Steps

variable {p : Nat} {getBufferLimit : Int → Nat} {c c' : Communicator}

@[simp] theorem contributionsOf_append (bs bs' : List Gathered) :
    contributionsOf (bs ++ bs') = contributionsOf bs + contributionsOf bs' := by
  simp [contributionsOf]

@[simp] theorem contributionsOf_singleton (b : Gathered) : contributionsOf [b] = b.contributions := by
  simp [contributionsOf]

theorem Counted.gather (h : Counted c) (hidle : c.isMerging = false) (clauses : List Int) (count : Int) :
    Counted (handleGather c clauses count) := by
  refine ⟨fun _ => ?_, fun hmerging => absurd (hidle.symm.trans hmerging) Bool.false_ne_true, h.sent⟩
  simp [handleGather, h.gathering hidle]

theorem Counted.initiate (h : Counted c) {job : Job} (hidle : c.isMerging = false) (hfew : c.clauseBuffers.length ≤ 3)
    (hok : initiateMergeOfClauseBuffers getBufferLimit c job = .ok c') : Counted c' := by
  rw [initiateMergeOfClauseBuffers] at hok
  split at hok
  · obtain rfl := Except.ok.inj hok
    have hlength : (c.clauseBuffers ++ [ownBuffer job]).length ≤ 4 := by
      rw [List.length_append, List.length_singleton]
      omega
    refine ⟨fun hnot => absurd hnot.symm Bool.false_ne_true, fun _ => ⟨List.drop_of_length_le hlength, ?_⟩, h.sent⟩
    dsimp only
    rw [List.take_of_length_le hlength, contributionsOf_append, contributionsOf_singleton, h.gathering hidle, ownBuffer]
  · cases hok

theorem Counted.canSendClauses (h : Counted c) {job : Job} {result : Bool}
    (hfew : startsMerge c job = true → c.clauseBuffers.length ≤ 3)
    (hok : canSendClauses getBufferLimit c job = .ok (result, c')) : Counted c' := by
  rw [GatheredClauses.canSendClauses] at hok
  split at hok
  · cases hok
    exact h
  · split at hok
    · split at hok
      · cases hok
        exact h
      · cases hok
    · split at hok
      · next hstarts =>
          obtain ⟨c₁, hinitiate, heq⟩ := Runs.exists_of_map_eq_ok hok
          cases heq
          have hidle : c.isMerging = false := by
            simp only [startsMerge, Bool.and_eq_true, Bool.not_eq_true'] at hstarts
            exact hstarts.1.2
          exact h.initiate hidle (hfew hstarts) hinitiate
      · cases hok
        exact h

theorem Counted.finishMerge (h : Counted c) (hok : finishMerge p c = .ok c') : Counted c' := by
  rw [GatheredClauses.finishMerge] at hok
  split at hok
  · next hrunning =>
      have hmerging : c.isMerging = true := (Bool.and_eq_true _ _ ▸ hrunning).1
      split at hok
      · cases hok
      · obtain rfl := Except.ok.inj hok
        obtain ⟨hempty, hcounted⟩ := h.merging hmerging
        refine ⟨fun hidle => absurd (hidle.symm.trans hmerging) Bool.false_ne_true, fun _ => ⟨hempty, ?_⟩, h.sent⟩
        simpa using hcounted
  · obtain rfl := Except.ok.inj hok
    exact h

theorem getMergedClauseBuffer_cases {result : Gathered} (hok : getMergedClauseBuffer c = .ok (result, c')) :
    c.isMerging = true ∧ c.clauseBuffersBeingMerged = [result] ∧ c'.isMerging = false ∧
      c'.clauseBuffers = c.clauseBuffers ∧ c'.numAggregatedNodes = c.numAggregatedNodes ∧ c'.sent = c.sent ∧
      c'.commSize = c.commSize := by
  rw [getMergedClauseBuffer] at hok
  split at hok
  · next hdone hmerged =>
      cases hok
      exact ⟨(Bool.and_eq_true _ _ ▸ hdone).1, hmerged, rfl, rfl, rfl, rfl, rfl⟩
  · cases hok

theorem Counted.sendClausesToParent (h : Counted c) {isRoot : Bool}
    (hok : sendClausesToParent c isRoot = .ok c') : Counted c' := by
  obtain ⟨⟨result, c₁⟩, hmerged, rfl⟩ := Runs.exists_of_map_eq_ok hok
  obtain ⟨hmerging, hbuffer, hidle, hbuffers, hcount, hsent, hcomm⟩ := getMergedClauseBuffer_cases hmerged
  obtain ⟨hempty, hcounted⟩ := h.merging hmerging
  rw [hbuffer, contributionsOf_singleton] at hcounted
  cases isRoot with
  | true =>
      refine ⟨fun _ => ?_, fun hagain => absurd (hidle.symm.trans hagain) Bool.false_ne_true, ?_⟩
      · simp [hbuffers, hempty, contributionsOf]
      · simpa [hsent] using h.sent
  | false =>
      refine ⟨fun _ => ?_, fun hagain => absurd (hidle.symm.trans hagain) Bool.false_ne_true, fun m hm => ?_⟩
      · simp [hbuffers, hempty, contributionsOf]
      · rcases List.mem_append.mp hm with hm | hm
        · exact h.sent m (hsent ▸ hm)
        · rw [List.mem_singleton.mp hm, GatherMessage.Right]
          simp only [hcount, hcomm, hcounted]

theorem Counted.step (h : Counted c) {action : Action} (hundisturbed : Undisturbed c action)
    (hok : step p getBufferLimit c action = .ok c') : Counted c' := by
  cases action with
  | gather clauses count =>
      obtain rfl := Except.ok.inj hok
      exact h.gather hundisturbed clauses count
  | canSendClauses job =>
      obtain ⟨⟨result, c₁⟩, hcan, rfl⟩ := Runs.exists_of_map_eq_ok hok
      exact h.canSendClauses hundisturbed hcan
  | finishMerge => exact h.finishMerge hok
  | sendClausesToParent isRoot => exact h.sendClausesToParent hok

end Steps

theorem counted_start : Counted {} where
  gathering := fun _ => rfl
  merging := fun h => absurd h Bool.false_ne_true
  sent := fun _ hm => absurd hm List.not_mem_nil

/-- In every run without such disturbances all messages carry the right count. -/
theorem counts_of_undisturbed (p : Nat) (getBufferLimit : Int → Nat) (actions : List Action) (c : Communicator)
    (hrun : Runs.Reaches (step p getBufferLimit) Undisturbed {} actions c) : ∀ m ∈ c.sent, m.Right :=
  (hrun.invariant counted_start fun _ _ _ h hundisturbed hok => h.step hundisturbed hok).sent

def idleJob (numChildren : Nat) : Job := ⟨true, true, some [], true, numChildren, 10⟩

theorem counts_of_undisturbed_example : ∃ c : Communicator,
    c.sent.map (fun m => (m.count, m.contributions)) = [(5, 5)] ∧ ∀ m ∈ c.sent, m.Right := by
  have hrun : ([.gather [] 1, .gather [] 3, .canSendClauses (idleJob 2), .finishMerge,
      .sendClausesToParent false].foldlM (Runs.checked (fun c a => decide (Undisturbed c a))
        (step 2 fun _ => 100)) {}).map (fun c => c.sent.map fun m => (m.count, m.contributions)) = some [(5, 5)] := by
    decide +kernel
  obtain ⟨c, hc, hsent⟩ := Option.map_eq_some_iff.mp hrun
  exact ⟨c, hsent, counts_of_undisturbed 2 _ _ c (.of_checked (fun _ _ h => of_decide_eq_true h) hc)⟩

/-- The count of a child comes in while the first merge is under way: the first message carries it without the
clauses, and the second message carries the clauses without the count. -/
def lateGather : List Action :=
  [.canSendClauses (idleJob 0), .gather [] 2, .finishMerge, .sendClausesToParent false, .canSendClauses (idleJob 1),
    .finishMerge, .sendClausesToParent false]

def fourGathered : List Action :=
  [.gather [] 1, .gather [] 1, .gather [] 1, .gather [] 1, .canSendClauses (idleJob 2), .finishMerge,
    .sendClausesToParent false]

theorem not_always_right :
    (∃ c, Runs.run (step 2 fun _ => 100) {} lateGather = .ok c ∧
      c.sent.map (fun m => (m.count, m.contributions)) = [(3, 1), (1, 3)] ∧ ¬ ∀ m ∈ c.sent, m.Right) ∧
    ∃ c, Runs.run (step 2 fun _ => 100) {} fourGathered = .ok c ∧
      c.sent.map (fun m => (m.count, m.contributions)) = [(5, 4)] ∧ ¬ ∀ m ∈ c.sent, m.Right := by
  have hrun : ∀ {actions sent}, (Runs.run (step 2 fun _ => 100) {} actions).toOption.map
      (fun c => (c.sent.map fun m => (m.count, m.contributions), decide (∀ m ∈ c.sent, m.Right))) = some (sent, false) →
      ∃ c, Runs.run (step 2 fun _ => 100) {} actions = .ok c ∧
        c.sent.map (fun m => (m.count, m.contributions)) = sent ∧ ¬ ∀ m ∈ c.sent, m.Right := by
    intro actions sent h
    obtain ⟨c, hok, heq⟩ := Runs.exists_of_toOption h
    obtain ⟨hsent, hwrong⟩ := Prod.mk.inj heq
    exact ⟨c, hok, hsent, of_decide_eq_false hwrong⟩
  exact ⟨hrun (by decide +kernel), hrun (by decide +kernel)⟩

end Mallob.Sharing.GatheredClauses
