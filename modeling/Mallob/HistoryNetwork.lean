import Mallob.ClauseSpread
import Mallob.ServedBatches

namespace Mallob.Sharing.HistoryNetwork

open ClauseHistory (Arrival Batch Holds feedHistoryIntoSolver onSubscribe onUnsubscribe)
open ClauseNetwork (JobMessage Packet View Options setChecksum checksumOf accepts knownBuffers smallOptions
  valid_of_known viewOf)
open GatheredClauses (Valid clausesOf)

def MSG_CLAUSE_HISTORY_SUBSCRIBE : Int := 4194304

def MSG_CLAUSE_HISTORY_UNSUBSCRIBE : Int := 4194305

def MSG_CLAUSE_HISTORY_SEND_CLAUSES : Int := 4194306

/-- The history of a rank with the ranks that subscribe to it, and the buffers that its solvers have been given out of
histories. The batches that it has sent are not part of the program. -/
structure Node (factor : Nat) where
  history : ClauseHistory factor := {}
  subscribers : List Subscription := []
  digested : List (List Int × Checksum) := []
  served : List Batch := []

variable {factor : Nat}

def subscribePacket (o : Options) (rank : Nat) (v : View) (s : Subscription) : Packet :=
  ⟨rank, s.correspondingRank, setChecksum o
    ⟨o.jobId, v.revision, MSG_CLAUSE_HISTORY_SUBSCRIBE, 0, {}, [s.nextIndex, s.endIndex]⟩⟩

def unsubscribePacket (o : Options) (rank : Nat) (v : View) (s : Subscription) : Packet :=
  ⟨rank, s.correspondingRank, setChecksum o ⟨o.jobId, v.revision, MSG_CLAUSE_HISTORY_UNSUBSCRIBE, 0, {}, []⟩⟩

/-- A batch carries the first epoch of its index. -/
def batchPacket (o : Options) (factor rank : Nat) (v : View) (b : Batch) : Packet :=
  ⟨rank, b.dest, setChecksum o
    ⟨o.jobId, v.revision, MSG_CLAUSE_HISTORY_SEND_CLAUSES, b.index * factor, {}, b.clauses⟩⟩

def digest (o : Options) (clauses : List Int) : List Int × Checksum :=
  (clauses, if o.useChecksums then checksumOf o.jobId clauses else {})

def learnClauses (o : Options) (x : Node factor) (v : View) (clauses : List Int) : Node factor :=
  if clauses ≠ [] ∧ v.active = true ∧ v.initialized = true then
    { x with digested := x.digested ++ [digest o clauses] }
  else x

def sendNextBatches (o : Options) (rank : Nat) (x : Node factor) (v : View) :
    Except ClauseHistory.Fault (Node factor × List Packet) :=
  (x.history.sendNextBatches x.subscribers).map fun (subscribers, batches) =>
    ({ x with
        subscribers := subscribers
        digested := x.digested ++ (batches.filter (·.dest = rank)).map fun b => digest o b.clauses
        served := x.served ++ batches },
      (batches.filter (·.dest ≠ rank)).map (batchPacket o factor rank v))

section Calls

variable [NeZero factor]

/-- What sendClausesToChildren does about the history when a broadcast has come. -/
def learnEpoch (o : Options) (options : HistoryOptions) (rank : Nat) (x : Node factor) (v : View) (pastEnd : Int × Int)
    (epoch : Nat) (clauses : List Int) : Except ClauseHistory.Fault (Node factor × List Packet) :=
  match x.history.addEpochAndSubscribe options ⟨epoch, clauses, false, v.parentRank, pastEnd⟩ with
  | .error e => .error (.merge e)
  | .ok (history, sent) => (sendNextBatches o rank { x with history := history } v).map fun out =>
      (out.1, sent.map (subscribePacket o rank v) ++ out.2)

def handle (o : Options) (options : HistoryOptions) (rank : Nat) (x : Node factor) (v : View) (pastEnd : Int × Int)
    (source : Nat) (m : JobMessage) : Except ClauseHistory.Fault (Node factor × List Packet) :=
  if !accepts o v m then .ok (x, [])
  else if m.tag = MSG_CLAUSE_HISTORY_SEND_CLAUSES then
    if m.epoch < 0 then .error .negativeEpoch
    else
      match x.history.addEpochAndSubscribe options ⟨m.epoch.toNat, m.payload, true, v.parentRank, pastEnd⟩ with
      | .error e => .error (.merge e)
      | .ok (history, sent) =>
          .ok (learnClauses o { x with history := history } v m.payload, sent.map (subscribePacket o rank v))
  else if m.tag = MSG_CLAUSE_HISTORY_SUBSCRIBE then
    match m.payload with
    | beginIndex :: endIndex :: _ =>
        .ok ({ x with subscribers := onSubscribe x.subscribers source beginIndex endIndex }, [])
    | _ => .error .shortPayload
  else if m.tag = MSG_CLAUSE_HISTORY_UNSUBSCRIBE then
    .ok ({ x with subscribers := onUnsubscribe x.subscribers source }, [])
  else .ok (x, [])

omit [NeZero factor] in
def suspend (o : Options) (rank : Nat) (x : Node factor) (v : View) : Node factor × List Packet :=
  ({ x with history := x.history.onSuspend }, x.history.subscription.toList.map (unsubscribePacket o rank v))

omit [NeZero factor] in
def feed (rank : Nat) (x : Node factor) : Node factor :=
  { x with subscribers := feedHistoryIntoSolver x.history x.subscribers rank }

end Calls

/-- All ranks with the messages in flight. The broadcasts that some rank has heard of, with their epochs, are not part of
the program. -/
structure State (factor : Nat) where
  nodes : Nat → Node factor := fun _ => {}
  inFlight : List Packet := []
  learned : List (Nat × List Int) := []

def State.setNode (s : State factor) (r : Nat) (x : Node factor) : State factor :=
  { s with nodes := Function.update s.nodes r x }

inductive Action
  | learnEpoch (rank : Nat) (view : View) (pastEnd : Int × Int) (epoch : Nat) (clauses : List Int)
  | deliver (i : Nat) (view : View) (pastEnd : Int × Int)
  | suspend (rank : Nat) (view : View)
  | feedHistoryIntoSolver (rank : Nat)

def step [NeZero factor] (o : Options) (options : HistoryOptions) (s : State factor) :
    Action → Except ClauseHistory.Fault (State factor)
  | .learnEpoch r v pastEnd epoch clauses =>
      (learnEpoch o options r (s.nodes r) v pastEnd epoch clauses).map fun out =>
        { s.setNode r out.1 with inFlight := s.inFlight ++ out.2, learned := s.learned ++ [(epoch, clauses)] }
  | .deliver i v pastEnd =>
      match s.inFlight[i]? with
      | none => .ok s
      | some m => (handle o options m.dest (s.nodes m.dest) v pastEnd m.source m.message).map fun out =>
          { s.setNode m.dest out.1 with inFlight := s.inFlight.eraseIdx i ++ out.2 }
  | .suspend r v =>
      let out := suspend o r (s.nodes r) v
      .ok { s.setNode r out.1 with inFlight := s.inFlight ++ out.2 }
  | .feedHistoryIntoSolver r => .ok (s.setNode r (feed r (s.nodes r)))

@[simp] theorem setNode_nodes (s : State factor) (r : Nat) (x : Node factor) (r' : Nat) :
    (s.setNode r x).nodes r' = if r' = r then x else s.nodes r' := by
  rw [State.setNode]
  exact Function.update_apply s.nodes r x r'

def State.sources (p : Nat) (s : State factor) (index : Nat) : Set Clause :=
  clausesOf p ((s.learned.filter fun e => e.1 / factor = index).map Prod.snd)

def State.Known (s : State factor) (epoch : Nat) : Prop := epoch ∈ s.learned.map Prod.fst

section Soundness

variable {p : Nat} {sources sources' : Nat → Set Clause} {known known' : Nat → Prop} {o : Options}
  {options : HistoryOptions} {x x' : Node factor} {v : View} {pastEnd : Int × Int} {rank : Nat} {m : Packet}

structure Node.Sound [NeZero factor] (p : Nat) (sources : Nat → Set Clause) (known : Nat → Prop) (x : Node factor) :
    Prop where
  history : x.history.Sound p sources known
  nodup : (x.subscribers.map (·.correspondingRank)).Nodup
  digested : ∀ d ∈ x.digested, ∃ index, Holds p (sources index) [d.1]

structure PacketSound (p factor : Nat) (sources : Nat → Set Clause) (known : Nat → Prop) (m : Packet) : Prop where
  clauses : m.message.tag = MSG_CLAUSE_HISTORY_SEND_CLAUSES → ∃ index : Nat, m.message.epoch = index * factor ∧
    Holds p (sources index) [m.message.payload] ∧ ∀ epoch, epoch / factor = index → known epoch
  indices : m.message.tag = MSG_CLAUSE_HISTORY_SUBSCRIBE → 2 ≤ m.message.payload.length

theorem PacketSound.mono (h : PacketSound p factor sources known m) (hsources : ∀ index, sources index ⊆ sources' index)
    (hknown : ∀ epoch, known epoch → known' epoch) : PacketSound p factor sources' known' m where
  clauses := fun htag => by
    obtain ⟨index, hepoch, hholds, hall⟩ := h.clauses htag
    exact ⟨index, hepoch, hholds.mono (hsources index), fun epoch he => hknown epoch (hall epoch he)⟩
  indices := h.indices

@[simp] theorem setChecksum_tag (m : JobMessage) : (setChecksum o m).tag = m.tag := by
  rw [setChecksum]
  split <;> rfl

@[simp] theorem setChecksum_epoch (m : JobMessage) : (setChecksum o m).epoch = m.epoch := by
  rw [setChecksum]
  split <;> rfl

@[simp] theorem setChecksum_payload (m : JobMessage) : (setChecksum o m).payload = m.payload := by
  rw [setChecksum]
  split <;> rfl

theorem packetSound_subscribe (s : Subscription) : PacketSound p factor sources known (subscribePacket o rank v s) where
  clauses := fun htag => by simp [subscribePacket, MSG_CLAUSE_HISTORY_SUBSCRIBE, MSG_CLAUSE_HISTORY_SEND_CLAUSES] at htag
  indices := fun _ => by simp [subscribePacket]

theorem packetSound_unsubscribe (s : Subscription) :
    PacketSound p factor sources known (unsubscribePacket o rank v s) where
  clauses := fun htag => by
    simp [unsubscribePacket, MSG_CLAUSE_HISTORY_UNSUBSCRIBE, MSG_CLAUSE_HISTORY_SEND_CLAUSES] at htag
  indices := fun htag => by
    simp [unsubscribePacket, MSG_CLAUSE_HISTORY_UNSUBSCRIBE, MSG_CLAUSE_HISTORY_SUBSCRIBE] at htag

theorem packetSound_batch {b : Batch} (h : b.Sound p factor sources known) :
    PacketSound p factor sources known (batchPacket o factor rank v b) where
  clauses := fun _ => by
    obtain ⟨hnonneg, hholds, hknown⟩ := h
    refine ⟨b.index.toNat, ?_, by simpa [batchPacket] using hholds, hknown⟩
    simp [batchPacket, Int.toNat_of_nonneg hnonneg]
  indices := fun htag => by simp [batchPacket, MSG_CLAUSE_HISTORY_SEND_CLAUSES, MSG_CLAUSE_HISTORY_SUBSCRIBE] at htag

variable [NeZero factor]

theorem Node.Sound.mono (h : x.Sound p sources known) (hsources : ∀ index, sources index ⊆ sources' index)
    (hknown : ∀ epoch, known epoch → known' epoch) : x.Sound p sources' known' where
  history := h.history.mono hsources hknown
  nodup := h.nodup
  digested := fun d hd => by
    obtain ⟨index, hholds⟩ := h.digested d hd
    exact ⟨index, hholds.mono (hsources index)⟩

theorem Node.Sound.learnClauses (h : x.Sound p sources known) {clauses : List Int} {index : Nat}
    (hclauses : Holds p (sources index) [clauses]) : (learnClauses o x v clauses).Sound p sources known := by
  rw [HistoryNetwork.learnClauses]
  split
  · refine ⟨h.history, h.nodup, fun d hd => ?_⟩
    rcases List.mem_append.mp hd with hd | hd
    · exact h.digested d hd
    · rw [List.mem_singleton.mp hd]
      exact ⟨index, hclauses⟩
  · exact h

theorem Node.Sound.sendNextBatches (h : x.Sound p sources known) (o : Options) (rank : Nat) (v : View) :
    ∃ x' out, sendNextBatches o rank x v = .ok (x', out) ∧ x'.Sound p sources known ∧
      ∀ m ∈ out, PacketSound p factor sources known m := by
  obtain ⟨subscribers, batches, hok, hsound⟩ := h.history.sendNextBatches x.subscribers
  rw [HistoryNetwork.sendNextBatches, hok]
  refine ⟨_, _, rfl, ⟨h.history, ?_, fun d hd => ?_⟩, fun m hm => ?_⟩
  · exact h.nodup.sublist (ClauseHistory.sendNextBatches_sublist hok)
  · rcases List.mem_append.mp hd with hd | hd
    · exact h.digested d hd
    · obtain ⟨b, hb, rfl⟩ := List.mem_map.mp hd
      exact ⟨_, (hsound b (List.mem_filter.mp hb).1).2.1⟩
  · obtain ⟨b, hb, rfl⟩ := List.mem_map.mp hm
    exact packetSound_batch (hsound b (List.mem_filter.mp hb).1)

theorem Node.Sound.learnEpoch (hp : 1 ≤ options.maxLbdPartitionedSize)
    (h : x.Sound options.maxLbdPartitionedSize sources known) (o : Options) (rank : Nat) (v : View) (pastEnd : Int × Int)
    {epoch : Nat} {clauses : List Int} (hknown : known epoch)
    (hclauses : Holds options.maxLbdPartitionedSize (sources (epoch / factor)) [clauses]) :
    ∃ x' out, learnEpoch o options rank x v pastEnd epoch clauses = .ok (x', out) ∧
      x'.Sound options.maxLbdPartitionedSize sources known ∧
      ∀ m ∈ out, PacketSound options.maxLbdPartitionedSize factor sources known m := by
  have hbrings : ∀ e, (⟨epoch, clauses, false, v.parentRank, pastEnd⟩ : Arrival).Brings factor e → known e := by
    intro e he
    rw [Arrival.Brings, if_neg Bool.false_ne_true] at he
    exact he ▸ hknown
  obtain ⟨history, sent, hadd, hhistory⟩ := ClauseHistory.addEpochAndSubscribe_sound hp h.history hclauses hbrings
  have hx : Node.Sound options.maxLbdPartitionedSize sources known { x with history := history } :=
    ⟨hhistory, h.nodup, h.digested⟩
  obtain ⟨x', out, hsend, hx', hout⟩ := hx.sendNextBatches o rank v
  refine ⟨x', _, by rw [HistoryNetwork.learnEpoch, hadd]; simp only [hsend]; rfl, hx', fun m hm => ?_⟩
  rcases List.mem_append.mp hm with hm | hm
  · obtain ⟨s, -, rfl⟩ := List.mem_map.mp hm
    exact packetSound_subscribe s
  · exact hout m hm

theorem Node.Sound.handle (hp : 1 ≤ options.maxLbdPartitionedSize)
    (h : x.Sound options.maxLbdPartitionedSize sources known) (o : Options) (rank : Nat) (v : View) (pastEnd : Int × Int)
    (hm : PacketSound options.maxLbdPartitionedSize factor sources known m) :
    ∃ x' out, handle o options rank x v pastEnd m.source m.message = .ok (x', out) ∧
      x'.Sound options.maxLbdPartitionedSize sources known ∧
      ∀ m ∈ out, PacketSound options.maxLbdPartitionedSize factor sources known m := by
  have hnone : ∀ m ∈ ([] : List Packet), PacketSound options.maxLbdPartitionedSize factor sources known m :=
    fun m hm => absurd hm List.not_mem_nil
  rw [HistoryNetwork.handle]
  by_cases haccepts : (!accepts o v m.message) = true
  · rw [if_pos haccepts]
    exact ⟨x, [], rfl, h, hnone⟩
  rw [if_neg haccepts]
  by_cases hsend : m.message.tag = MSG_CLAUSE_HISTORY_SEND_CLAUSES
  · obtain ⟨index, hepoch, hholds, hall⟩ := hm.clauses hsend
    have hnonneg : ¬ m.message.epoch < 0 := by
      rw [hepoch]
      exact not_lt.mpr (by positivity)
    have hindex : m.message.epoch.toNat / factor = index := by
      rw [hepoch, ← Nat.cast_mul, Int.toNat_natCast, Nat.mul_div_cancel _ (Nat.pos_of_ne_zero (NeZero.ne factor))]
    have hbrings : ∀ e, (⟨m.message.epoch.toNat, m.message.payload, true, v.parentRank, pastEnd⟩ : Arrival).Brings
        factor e → known e := by
      intro e he
      rw [Arrival.Brings, if_pos rfl] at he
      exact hall e (he.trans hindex)
    obtain ⟨history, sent, hadd, hhistory⟩ := ClauseHistory.addEpochAndSubscribe_sound
      (a := ⟨m.message.epoch.toNat, m.message.payload, true, v.parentRank, pastEnd⟩) hp h.history
      (by rw [hindex]; exact hholds) hbrings
    have hx : Node.Sound options.maxLbdPartitionedSize sources known { x with history := history } :=
      ⟨hhistory, h.nodup, h.digested⟩
    rw [if_pos hsend, if_neg hnonneg, hadd]
    refine ⟨_, _, rfl, hx.learnClauses hholds, fun m' hm' => ?_⟩
    obtain ⟨s, -, rfl⟩ := List.mem_map.mp hm'
    exact packetSound_subscribe s
  rw [if_neg hsend]
  by_cases hsubscribe : m.message.tag = MSG_CLAUSE_HISTORY_SUBSCRIBE
  · have hlength := hm.indices hsubscribe
    obtain ⟨beginIndex, rest, hpayload⟩ := List.exists_cons_of_length_pos (Nat.lt_of_lt_of_le Nat.zero_lt_two hlength)
    rw [hpayload, List.length_cons] at hlength
    obtain ⟨endIndex, rest, rfl⟩ := List.exists_cons_of_length_pos (Nat.le_of_succ_le_succ hlength)
    rw [if_pos hsubscribe, hpayload]
    exact ⟨_, [], rfl, ⟨h.history, ClauseHistory.nodup_onSubscribe h.nodup _ _ _, h.digested⟩, hnone⟩
  rw [if_neg hsubscribe]
  split
  · exact ⟨_, [], rfl, ⟨h.history, h.nodup.sublist (List.filter_sublist.map _), h.digested⟩, hnone⟩
  · exact ⟨x, [], rfl, h, hnone⟩

theorem Node.Sound.suspend (h : x.Sound p sources known) (o : Options) (rank : Nat) (v : View) :
    (suspend o rank x v).1.Sound p sources known ∧
      ∀ m ∈ (HistoryNetwork.suspend o rank x v).2, PacketSound p factor sources known m := by
  have hc := h.history.consistent
  have hsuspended : x.history.onSuspend.Consistent := ⟨hc.latest_ge, hc.ordered, hc.covered, hc.entries, hc.ahead⟩
  refine ⟨⟨⟨hsuspended, h.history.contents, h.history.present⟩, h.nodup, h.digested⟩, fun m hm => ?_⟩
  obtain ⟨s, -, rfl⟩ := List.mem_map.mp hm
  exact packetSound_unsubscribe s

theorem Node.Sound.feed (h : x.Sound p sources known) (rank : Nat) : (feed rank x).Sound p sources known :=
  ⟨h.history, ClauseHistory.nodup_onSubscribe h.nodup _ _ _, h.digested⟩

end Soundness

section Runs

variable [NeZero factor] {p : Nat} {o : Options} {options : HistoryOptions} {s s' : State factor} {action : Action}

def Readable (p : Nat) (_ : State factor) : Action → Prop
  | .learnEpoch _ _ _ _ clauses => Valid p clauses
  | .deliver _ _ _ => True
  | .suspend _ _ => True
  | .feedHistoryIntoSolver _ => True

structure State.Sound (p : Nat) (s : State factor) : Prop where
  nodes : ∀ r, (s.nodes r).Sound p (s.sources p) s.Known
  flying : ∀ m ∈ s.inFlight, PacketSound p factor (s.sources p) s.Known m

theorem sound_start : ({} : State factor).Sound p where
  nodes := fun _ => ⟨ClauseHistory.sound_start, List.nodup_nil, fun _ hd => absurd hd List.not_mem_nil⟩
  flying := fun _ hm => absurd hm List.not_mem_nil

theorem State.Sound.setNode (h : s.Sound p) {r : Nat} {x : Node factor} {inFlight : List Packet}
    (hx : x.Sound p (s.sources p) s.Known) (hflying : ∀ m ∈ inFlight, PacketSound p factor (s.sources p) s.Known m) :
    State.Sound p { s.setNode r x with inFlight := inFlight } where
  nodes := fun r' => by
    rw [show ({ s.setNode r x with inFlight := inFlight } : State factor).nodes r' = _ from setNode_nodes s r x r']
    split
    · exact hx
    · exact h.nodes r'
  flying := hflying

omit [NeZero factor] in
theorem sources_learned (epoch : Nat) (clauses : List Int) (index : Nat) : s.sources p index ⊆
    State.sources p { s with learned := s.learned ++ [(epoch, clauses)] } index := by
  rw [State.sources, State.sources, List.filter_append, List.map_append, GatheredClauses.clausesOf_append]
  exact Set.subset_union_left

omit [NeZero factor] in
theorem subset_sources_learned (epoch : Nat) (clauses : List Int) : clausesOf p [clauses] ⊆
    State.sources p { s with learned := s.learned ++ [(epoch, clauses)] } (epoch / factor) := by
  rw [State.sources, List.filter_append, List.map_append, GatheredClauses.clausesOf_append,
    List.filter_cons_of_pos (by simp)]
  exact Set.subset_union_right

theorem State.Sound.learned (h : s.Sound p) (epoch : Nat) (clauses : List Int) :
    State.Sound p { s with learned := s.learned ++ [(epoch, clauses)] } := by
  have hknown : ∀ e, s.Known e → State.Known { s with learned := s.learned ++ [(epoch, clauses)] } e := by
    intro e he
    rw [State.Known, List.map_append]
    exact List.mem_append_left _ he
  exact ⟨fun r => (h.nodes r).mono (sources_learned epoch clauses) hknown,
    fun m hm => (h.flying m hm).mono (sources_learned epoch clauses) hknown⟩

theorem State.Sound.step (hp : 1 ≤ options.maxLbdPartitionedSize) (h : s.Sound options.maxLbdPartitionedSize)
    (hreadable : Readable options.maxLbdPartitionedSize s action) :
    ∃ s', step o options s action = .ok s' ∧ s'.Sound options.maxLbdPartitionedSize := by
  cases action with
  | learnEpoch r v pastEnd epoch clauses =>
      have hlearned := h.learned epoch clauses
      obtain ⟨x, out, hok, hx, hout⟩ := (hlearned.nodes r).learnEpoch hp o r v pastEnd (by simp [State.Known])
        (ClauseHistory.holds_singleton.mpr ⟨hreadable, subset_sources_learned epoch clauses⟩)
      refine ⟨_, by rw [HistoryNetwork.step, hok]; rfl, ?_⟩
      exact hlearned.setNode hx (List.forall_mem_append.mpr ⟨hlearned.flying, hout⟩)
  | deliver i v pastEnd =>
      rw [HistoryNetwork.step]
      cases hm : s.inFlight[i]? with
      | none => exact ⟨s, rfl, h⟩
      | some m =>
          obtain ⟨x, out, hok, hx, hout⟩ :=
            (h.nodes m.dest).handle hp o m.dest v pastEnd (h.flying m (List.mem_of_getElem? hm))
          dsimp only
          rw [hok]
          refine ⟨_, rfl, h.setNode hx (List.forall_mem_append.mpr ⟨fun m' hm' => ?_, hout⟩)⟩
          exact h.flying m' (List.mem_of_mem_eraseIdx hm')
  | suspend r v =>
      obtain ⟨hx, hout⟩ := (h.nodes r).suspend o r v
      exact ⟨_, rfl, h.setNode hx (List.forall_mem_append.mpr ⟨h.flying, hout⟩)⟩
  | feedHistoryIntoSolver r => exact ⟨_, rfl, h.setNode ((h.nodes r).feed r) h.flying⟩

/-- Whatever messages are late, lost on a rank that does not accept them or overtake one another: no call fails, all
histories know what they miss, and what they hold and send under an index are clauses of broadcasts of this index. -/
theorem histories_hold_broadcasts (factor : Nat) [NeZero factor] (o : Options) (options : HistoryOptions)
    (hp : 1 ≤ options.maxLbdPartitionedSize) (actions : List Action) (s : State factor)
    (hrun : Runs.Reaches (step o options) (Readable options.maxLbdPartitionedSize) {} actions s) :
    (∀ action, Readable options.maxLbdPartitionedSize s action → ∃ s', step o options s action = .ok s') ∧
    (∀ r, (s.nodes r).history.Consistent ∧ ((s.nodes r).subscribers.map (·.correspondingRank)).Nodup) ∧
    (∀ r index, Holds options.maxLbdPartitionedSize (s.sources options.maxLbdPartitionedSize index)
      ((s.nodes r).history.entry index).clauses) ∧
    (∀ r epoch, (s.nodes r).history.isEpochPresent epoch = true → s.Known epoch) ∧
    (∀ m ∈ s.inFlight, m.message.tag = MSG_CLAUSE_HISTORY_SEND_CLAUSES → ∃ index : Nat,
      m.message.epoch = index * factor ∧ (∀ epoch, epoch / factor = index → s.Known epoch) ∧
      Holds options.maxLbdPartitionedSize (s.sources options.maxLbdPartitionedSize index) [m.message.payload]) ∧
    ∀ r, ∀ d ∈ (s.nodes r).digested, ∃ index,
      Holds options.maxLbdPartitionedSize (s.sources options.maxLbdPartitionedSize index) [d.1] := by
  have h : s.Sound options.maxLbdPartitionedSize := by
    refine hrun.invariant sound_start fun s action s' h hreadable hok => ?_
    obtain ⟨s₁, hok₁, hs₁⟩ := h.step (o := o) hp hreadable
    obtain rfl := Except.ok.inj (hok₁.symm.trans hok)
    exact hs₁
  refine ⟨fun action hreadable => ?_, fun r => ⟨(h.nodes r).history.consistent, (h.nodes r).nodup⟩,
    fun r => (h.nodes r).history.contents, fun r => (h.nodes r).history.present, fun m hm htag => ?_,
    fun r => (h.nodes r).digested⟩
  · obtain ⟨s', hok, -⟩ := h.step (o := o) hp hreadable
    exact ⟨s', hok⟩
  · obtain ⟨index, hepoch, hholds, hknown⟩ := (h.flying m hm).clauses htag
    exact ⟨index, hepoch, hknown, hholds⟩

end Runs

/-- The first two epochs are heard of by rank 0 only, and the fourth one by rank 1, which subscribes to what it has
missed. -/
def catchUp : List Action :=
  [.learnEpoch 0 (viewOf 0 []) (0, 0) 0 [0, 0, 1, 5], .learnEpoch 0 (viewOf 0 []) (0, 0) 1 [0, 0, 1, -6],
    .learnEpoch 1 (viewOf 1 []) (0, 0) 3 [], .deliver 0 (viewOf 0 []) (0, 0), .learnEpoch 0 (viewOf 0 []) (0, 0) 2 []]

def isReadable : Action → Bool
  | .learnEpoch _ _ _ _ clauses => decide (clauses ∈ knownBuffers)
  | .deliver _ _ _ => true
  | .suspend _ _ => true
  | .feedHistoryIntoSolver _ => true

theorem readable_of_isReadable {s : State factor} {action : Action} (h : isReadable action = true) :
    Readable 2 s action := by
  cases action with
  | learnEpoch r v pastEnd epoch clauses => exact valid_of_known clauses (of_decide_eq_true h)
  | deliver i v pastEnd => trivial
  | suspend r v => trivial
  | feedHistoryIntoSolver r => trivial

/-- The batch of the first two epochs is sent to rank 1. -/
theorem histories_hold_broadcasts_catchUp : ∃ (s : State 2) (m : Packet), m ∈ s.inFlight ∧ m.dest = 1 ∧
    m.message.payload = [1, 0, 2, -6, 5] ∧ ∃ index : Nat, m.message.epoch = index * (2 : Nat) ∧
      clausesOf 2 [[1, 0, 2, -6, 5]] ⊆ s.sources 2 index := by
  have hrun : (catchUp.foldlM (Runs.checked (fun _ a => isReadable a) (step smallOptions ⟨10, 100, 100, 2⟩))
      ({} : State 2)).map (fun s => s.inFlight.map fun m => (m.dest, m.message.tag, m.message.payload)) =
      some [(1, MSG_CLAUSE_HISTORY_SEND_CLAUSES, [1, 0, 2, -6, 5])] := by
    decide +kernel
  obtain ⟨s, hs, heq⟩ := Option.map_eq_some_iff.mp hrun
  have hreaches : Runs.Reaches (step smallOptions ⟨10, 100, 100, 2⟩) (Readable 2) ({} : State 2) catchUp s :=
    .of_checked (fun _ _ hcheck => readable_of_isReadable hcheck) hs
  obtain ⟨m, hm, hfields⟩ := List.mem_map.mp (heq ▸ List.mem_cons_self :
    (1, MSG_CLAUSE_HISTORY_SEND_CLAUSES, [1, 0, 2, -6, 5]) ∈ s.inFlight.map fun m =>
      (m.dest, m.message.tag, m.message.payload))
  obtain ⟨hdest, hrest⟩ := Prod.mk.inj hfields
  obtain ⟨htag, hpayload⟩ := Prod.mk.inj hrest
  obtain ⟨index, hepoch, -, hholds⟩ := (histories_hold_broadcasts 2 smallOptions ⟨10, 100, 100, 2⟩ (by decide) catchUp s
    hreaches).2.2.2.2.1 m hm htag
  rw [hpayload] at hholds
  exact ⟨s, m, hm, hdest, hpayload, index, hepoch, (ClauseHistory.holds_singleton.mp hholds).2⟩

end Mallob.Sharing.HistoryNetwork
