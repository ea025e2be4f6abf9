import Mallob.AssignmentNetwork
import Mallob.JobTransfer

namespace Mallob.AssignmentNetwork

open ByteLayout CollectiveAssignment JobTransfer.JobRequest Codecs.Codec Runs

def COLL_ASSIGN_STATUS : UInt8 := 1

def COLL_ASSIGN_REQUESTS : UInt8 := 2

inductive Update
  | status (epoch numIdle : CInt)
  | requests (requests : List JobTransfer.JobRequest)

namespace Update

def serialize : Update → List UInt8
  | .status epoch numIdle => COLL_ASSIGN_STATUS :: (bytes epoch ++ bytes numIdle)
  | .requests reqs => COLL_ASSIGN_REQUESTS :: reqs.flatMap codec.encode

def toMessage (seconds : CFloat → ℚ) : Update → Message
  | .status epoch numIdle => .status epoch.toInt numIdle.toInt
  | .requests reqs => .requests (reqs.map (toRequest seconds))

end Update

variable {σ : Type}

namespace Node

/-- The number of idle workers is only read if the epoch is not obsolete. There is no result where something is read
behind the end of the memory. -/
def receiveStatus (x : Node σ) (source : Int) (memory : List UInt8) : Option (Node σ) :=
  match read 4 memory with
  | none => none
  | some (epoch, memory) =>
      if epoch.toInt < x.ca.epoch then some x
      else
        let x := if epoch.toInt > x.ca.epoch then x.enterEpoch epoch.toInt else x
        match read 4 memory with
        | none => none
        | some (numIdle, _) =>
            some { x with
              ca := { x.ca with childStatuses := setStatus source numIdle.toInt x.ca.childStatuses }
              statusDirty := true }

def receiveRequests (seconds : CFloat → ℚ) (x : Node σ) (memory : List UInt8) : Option (Node σ) :=
  (codec.foldMany getTransferSize (fun ca req => receiveRequest ca (toRequest seconds req)) (memory.length + 1) memory
    x.ca).map fun ca => { x with ca := ca }

/-- The memory of an update as it arrives. An update of another kind is ignored. -/
def deserializePacked (seconds : CFloat → ℚ) (x : Node σ) (source : Int) : List UInt8 → Option (Node σ)
  | [] => none
  | kind :: memory =>
      if kind = COLL_ASSIGN_STATUS then x.receiveStatus source memory
      else if kind = COLL_ASSIGN_REQUESTS then x.receiveRequests seconds memory
      else some x

variable (seconds : CFloat → ℚ) (x : Node σ) (source : Int)

theorem receiveStatus_bytes (epoch numIdle : CInt) (rest : List UInt8) :
    x.receiveStatus source (bytes epoch ++ (bytes numIdle ++ rest)) =
      some (x.deserialize source (.status epoch.toInt numIdle.toInt)) := by
  rw [receiveStatus, read_bytes]
  simp only [read_bytes, deserialize]
  split <;> rfl

theorem receiveStatus_cases (memory : List UInt8) :
    x.receiveStatus source memory = none ∨ x.receiveStatus source memory = some x ∨
      ∃ (epoch numIdle : CInt) (rest : List UInt8), memory = bytes epoch ++ (bytes numIdle ++ rest) := by
  rw [receiveStatus]
  split
  · exact .inl rfl
  · next epoch memory' hepoch =>
      by_cases hobsolete : epoch.toInt < x.ca.epoch
      · rw [if_pos hobsolete]
        exact .inr (.inl rfl)
      · rw [if_neg hobsolete]
        cases hread : read 4 memory' with
        | none => exact .inl rfl
        | some b =>
            have hmemory := read_eq_some.mp hepoch
            rw [read_eq_some.mp hread] at hmemory
            exact .inr (.inr ⟨epoch, b.1, b.2, hmemory⟩)

theorem foldl_receiveRequest (reqs : List JobTransfer.JobRequest) (ca : CollectiveAssignment) :
    reqs.foldl (fun ca req => receiveRequest ca (toRequest seconds req)) ca =
      (reqs.map (toRequest seconds)).foldl receiveRequest ca := List.foldl_map.symm

theorem receiveRequests_encode (reqs : List JobTransfer.JobRequest) {rest : List UInt8}
    (hrest : rest.length < getTransferSize) :
    x.receiveRequests seconds (reqs.flatMap codec.encode ++ rest) =
      some (x.deserialize source (.requests (reqs.map (toRequest seconds)))) := by
  have hlength : reqs.length ≤ (reqs.flatMap codec.encode ++ rest).length + 1 := by
    rw [List.length_append, List.length_flatMap, List.map_congr_left fun r _ => sized_codec r, List.map_const',
      List.sum_replicate, smul_eq_mul, getTransferSize]
    omega
  rw [receiveRequests, foldMany_encode sized_codec _ hrest hlength, foldl_receiveRequest, Option.map_some, deserialize]

theorem receiveRequests_cases (memory : List UInt8) :
    x.receiveRequests seconds memory = none ∨
      ∃ (reqs : List JobTransfer.JobRequest) (rest : List UInt8), rest.length < getTransferSize ∧
        memory = reqs.flatMap codec.encode ++ rest := by
  cases h : codec.foldMany getTransferSize (fun ca req => receiveRequest ca (toRequest seconds req)) (memory.length + 1)
      memory x.ca with
  | none => exact .inl (by rw [receiveRequests, h, Option.map_none])
  | some ca =>
      obtain ⟨reqs, rest, hrest, hmemory, -⟩ :=
        foldMany_eq_some sized_codec (Nat.lt_succ_self _) (by decide) h
      exact .inr ⟨reqs, rest, hrest, hmemory⟩

theorem deserializePacked_serialize (update : Update) :
    x.deserializePacked seconds source update.serialize = some (x.deserialize source (update.toMessage seconds)) := by
  cases update with
  | status epoch numIdle =>
      have hbytes := receiveStatus_bytes x source epoch numIdle []
      rw [List.append_nil] at hbytes
      exact hbytes
  | requests reqs =>
      have hencode := receiveRequests_encode seconds x source reqs
        (show [].length < getTransferSize by decide)
      rw [List.append_nil] at hencode
      exact hencode

/-- A memory that a rank can read either has no effect or does what an update at its front does. -/
theorem deserializePacked_cases (packed : List UInt8) :
    x.deserializePacked seconds source packed = none ∨ x.deserializePacked seconds source packed = some x ∨
      ∃ (update : Update) (rest : List UInt8), packed = update.serialize ++ rest ∧
        x.deserializePacked seconds source packed = some (x.deserialize source (update.toMessage seconds)) := by
  cases packed with
  | nil => exact .inl rfl
  | cons kind memory =>
      rw [deserializePacked]
      split
      · next hkind =>
          rcases receiveStatus_cases x source memory with h | h | ⟨epoch, numIdle, rest, rfl⟩
          · exact .inl h
          · exact .inr (.inl h)
          · refine .inr (.inr ⟨.status epoch numIdle, rest, ?_, receiveStatus_bytes x source epoch numIdle rest⟩)
            rw [hkind, Update.serialize, List.cons_append, List.append_assoc]
      · split
        · next hkind =>
            rcases receiveRequests_cases seconds x memory with h | ⟨reqs, rest, hrest, rfl⟩
            · exact .inl h
            · refine .inr (.inr ⟨.requests reqs, rest, ?_, receiveRequests_encode seconds x source reqs hrest⟩)
              rw [hkind, Update.serialize, List.cons_append]
        · exact .inr (.inl rfl)

end Node

variable {n : Nat}

deriving instance DecidableEq for Message

def ofRequest (float : ℚ → CFloat) (req : JobRequest) : JobTransfer.JobRequest where
  jobId := BitVec.ofInt (8 * 4) req.jobId
  application := req.application
  rootRank := BitVec.ofInt (8 * 4) req.rootRank
  requestingNodeRank := BitVec.ofInt (8 * 4) req.requestingNodeRank
  requestedNodeIndex := BitVec.ofInt (8 * 4) req.requestedNodeIndex
  revision := BitVec.ofInt (8 * 4) req.revision
  timeOfBirth := float req.timeOfBirth
  numHops := BitVec.ofInt (8 * 4) req.numHops
  balancingEpoch := BitVec.ofInt (8 * 4) req.balancingEpoch

def ofMessage (float : ℚ → CFloat) : Message → Update
  | .status epoch numIdle => .status (BitVec.ofInt (8 * 4) epoch) (BitVec.ofInt (8 * 4) numIdle)
  | .requests reqs => .requests (reqs.map (ofRequest float))

structure PackedTransit where
  source : Int
  dest : Int
  packed : List UInt8

structure PackedState (σ : Type) (n : Nat) where
  nodes : Fin n → Node σ
  inFlight : List PackedTransit := []
  added : List JobRequest := []
  digested : List JobRequest := []

/-- A fault of the ranks, a value that is not one of the machine's, or a memory that is read behind its end. -/
inductive PackedFault
  | fault (fault : Fault)
  | range
  | bounds
deriving DecidableEq, Repr

section Packed

variable (seconds : CFloat → ℚ) (float : ℚ → CFloat)

def pack (m : Transit) : Option PackedTransit :=
  let update := ofMessage float m.message
  if update.toMessage seconds = m.message then some ⟨m.source, m.dest, update.serialize⟩ else none

def packAll : List Transit → Option (List PackedTransit)
  | [] => some []
  | m :: rest => (pack seconds float m).bind fun p => (packAll rest).map (p :: ·)

namespace PackedState

def setNode (t : PackedState σ n) (r : Fin n) (x : Node σ) : PackedState σ n :=
  { t with nodes := Function.update t.nodes r x }

def step (w : LocalWorker σ) (t : PackedState σ n) : Action σ n → Except PackedFault (PackedState σ n)
  | .work r env dirtied =>
      let x := t.nodes r
      .ok (t.setNode r { x with env := env, statusDirty := x.statusDirty || dirtied })
  | .addJobRequest r req =>
      let x := t.nodes r
      .ok { t.setNode r { x with ca := x.ca.addJobRequest req } with
        added := if isObsolete x.ca.epoch req then t.added else t.added ++ [req] }
  | .advance r epoch fuel dirtied =>
      match Node.advance w (t.nodes r) epoch fuel dirtied with
      | .error fault => .error (.fault fault)
      | .ok out =>
          match packAll seconds float out.2.1 with
          | none => .error .range
          | some sent =>
              .ok { t.setNode r out.1 with inFlight := t.inFlight ++ sent, digested := t.digested ++ out.2.2 }
  | .deliver i =>
      match t.inFlight[i]? with
      | none => .ok t
      | some p =>
          if h : 0 ≤ p.dest ∧ p.dest.toNat < n then
            let r : Fin n := ⟨p.dest.toNat, h.2⟩
            match (t.nodes r).deserializePacked seconds p.source p.packed with
            | none => .error .bounds
            | some x => .ok { t.setNode r x with inFlight := t.inFlight.eraseIdx i }
          else .error (.fault .noSuchRank)

def start (neighborTowardsRank : Fin n → Nat → Int) (env : Fin n → σ) : PackedState σ n where
  nodes := (AssignmentNetwork.start neighborTowardsRank env).nodes

end PackedState

structure Holds (m : Transit) (p : PackedTransit) : Prop where
  source : p.source = m.source
  dest : p.dest = m.dest
  packed : ∃ update : Update, p.packed = update.serialize ∧ update.toMessage seconds = m.message

structure Represents (s : State σ n) (t : PackedState σ n) : Prop where
  nodes : t.nodes = s.nodes
  inFlight : List.Forall₂ (Holds seconds) s.inFlight t.inFlight
  added : t.added = s.added
  digested : t.digested = s.digested

variable {seconds float}

theorem holds_of_packAll {ms : List Transit} {ps : List PackedTransit} (h : packAll seconds float ms = some ps) :
    List.Forall₂ (Holds seconds) ms ps := by
  induction ms generalizing ps with
  | nil =>
      obtain rfl := Option.some.inj h
      exact .nil
  | cons m rest ih =>
      obtain ⟨p, hp, h⟩ := Option.bind_eq_some_iff.mp h
      obtain ⟨others, hothers, rfl⟩ := Option.map_eq_some_iff.mp h
      refine .cons ?_ (ih hothers)
      rw [pack] at hp
      split at hp
      · next hmessage =>
          obtain rfl := Option.some.inj hp
          exact ⟨rfl, rfl, ofMessage float m.message, rfl, hmessage⟩
      · cases hp

theorem forall₂_at {α β : Type} {R : α → β → Prop} {as : List α} {bs : List β} (h : List.Forall₂ R as bs) (i : Nat) :
    as[i]? = none ∧ bs[i]? = none ∨
      ∃ a b, as[i]? = some a ∧ bs[i]? = some b ∧ R a b ∧ List.Forall₂ R (as.eraseIdx i) (bs.eraseIdx i) := by
  induction h generalizing i with
  | nil => exact .inl ⟨rfl, rfl⟩
  | @cons a b as bs hab hrest ih =>
      cases i with
      | zero => exact .inr ⟨a, b, rfl, rfl, hab, hrest⟩
      | succ i =>
          rcases ih i with hnone | ⟨a', b', ha, hb, hR, herase⟩
          · exact .inl hnone
          · exact .inr ⟨a', b', ha, hb, hR, .cons hab herase⟩

theorem Represents.step {s : State σ n} {t : PackedState σ n} (h : Represents seconds s t) (w : LocalWorker σ)
    (a : Action σ n) : Agree (Represents seconds) .fault (· = .range) (AssignmentNetwork.step w s a)
      (PackedState.step seconds float w t a) := by
  have hnodes := h.nodes
  cases a with
  | work r env dirtied =>
      rw [AssignmentNetwork.step, PackedState.step, hnodes]
      exact .ok ⟨congrArg (Function.update · r _) hnodes, h.inFlight, h.added, h.digested⟩
  | addJobRequest r req =>
      rw [AssignmentNetwork.step, PackedState.step, hnodes]
      exact .ok ⟨congrArg (Function.update · r _) hnodes, h.inFlight, by rw [h.added], h.digested⟩
  | advance r epoch fuel dirtied =>
      rw [AssignmentNetwork.step, PackedState.step, hnodes]
      cases Node.advance w (s.nodes r) epoch fuel dirtied with
      | error fault => exact .error fault
      | ok out =>
          dsimp only [Except.map]
          cases hsent : packAll seconds float out.2.1 with
          | none => exact .stop _ rfl
          | some sent =>
              exact .ok ⟨congrArg (Function.update · r _) hnodes,
                List.rel_append h.inFlight (holds_of_packAll hsent), h.added, by rw [h.digested]⟩
  | deliver i =>
      rw [AssignmentNetwork.step, PackedState.step]
      rcases forall₂_at h.inFlight i with ⟨hm, hp⟩ | ⟨m, p, hm, hp, hholds, herase⟩
      · rw [hm, hp]
        exact .ok h
      · obtain ⟨update, hpacked, hmessage⟩ := hholds.packed
        simp only [hm, hp, hholds.source, hholds.dest, hnodes]
        split
        · rw [hpacked, Node.deserializePacked_serialize, hmessage]
          exact .ok ⟨congrArg (Function.update · _ _) hnodes, herase, h.added, h.digested⟩
        · exact .error _

/-- The ranks that send memories to each other do in every run what those do that send the updates themselves. Nothing
is read behind the end of a memory; only a value that is not one of the machine's stops a run. -/
theorem packed_refines (w : LocalWorker σ) (neighborTowardsRank : Fin n → Nat → Int) (env : Fin n → σ)
    (actions : List (Action σ n)) : Agree (Represents seconds) .fault (· = .range)
      (run (AssignmentNetwork.step w) (AssignmentNetwork.start neighborTowardsRank env) actions)
      (run (PackedState.step seconds float w) (PackedState.start neighborTowardsRank env) actions) :=
  run_agree (fun _ _ a h => h.step w a) ⟨rfl, .nil, rfl, rfl⟩ actions

end Packed

end Mallob.AssignmentNetwork
