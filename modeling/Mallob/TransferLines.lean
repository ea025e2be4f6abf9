import Mallob.BatchedTransfers

namespace Mallob.MessageQueue

def SendHandle.batch (h : SendHandle) (i : Nat) : List UInt8 :=
  (h.data.drop { h with sentBatches := i }.range.1).take
    ({ h with sentBatches := i }.range.2 - { h with sentBatches := i }.range.1)

section Handle

variable {h handle : SendHandle} {data : List UInt8} {id sentBatch totalNumBatches : Int}

theorem SendHandle.sendNext_cancelled (hopen : h.isFinished = false) (hbatched : h.isBatched = true)
    (hcancelled : h.isCancelled = true) :
    h.sendNext = some (.fragment [] h.id 0 0, { h with sentBatches := h.totalNumBatches }) := by
  simp [SendHandle.sendNext, hopen, hbatched, hcancelled]

theorem SendHandle.sendNext_batch (hopen : h.isFinished = false) (hbatched : h.isBatched = true)
    (hcancelled : h.isCancelled = false)
    (hnext : h.sendNext = some (.fragment data id sentBatch totalNumBatches, handle)) :
    h.range.1 < h.range.2 ∧ data = (h.data.drop h.range.1).take (h.range.2 - h.range.1) ∧ id = h.id ∧
      sentBatch = h.sentBatches ∧ totalNumBatches = h.totalNumBatches ∧
      handle = { h with sentBatches := int32 (h.sentBatches + 1) } := by
  simp only [SendHandle.sendNext, hopen, hbatched, hcancelled, Bool.false_eq_true, Bool.not_true, if_false] at hnext
  split at hnext
  · next hlt =>
      obtain ⟨hmessage, rfl⟩ := Prod.mk.inj (Option.some.inj hnext)
      obtain ⟨rfl, rfl, rfl, rfl⟩ := Message.fragment.inj hmessage
      exact ⟨hlt, rfl, rfl, rfl, rfl, rfl⟩
  · cases hnext

theorem SendHandle.range_le (h : SendHandle) : h.range.2 ≤ h.data.length := by
  rw [SendHandle.range]
  split
  · exact min_le_left _ _
  · exact le_rfl

theorem SendHandle.slice_ne_nil (hlt : h.range.1 < h.range.2) :
    (h.data.drop h.range.1).take (h.range.2 - h.range.1) ≠ [] := by
  have hle := h.range_le
  rw [← List.length_pos_iff, List.length_take, List.length_drop]
  omega

end Handle

section Packets

variable (source tag : Nat) (h : SendHandle)

def batchPacket (i : Nat) : Packet where
  source := source
  tag := tag + msgOffsetBatched
  data := h.batch i
  id := h.id
  sentBatch := i
  totalNumBatches := h.totalNumBatches

def cancellation : Packet where
  source := source
  tag := tag + msgOffsetBatched
  data := []
  id := h.id
  sentBatch := 0
  totalNumBatches := 0

def sentPackets (k : Nat) (withdrawn : Bool) : List Packet :=
  (List.range k).map (batchPacket source tag h) ++ if withdrawn then [cancellation source tag h] else []

@[simp] theorem batchPacket_key (i : Nat) : (batchPacket source tag h i).key = (source, h.id) := rfl

@[simp] theorem cancellation_key : (cancellation source tag h).key = (source, h.id) := rfl

theorem sentPackets_succ (k : Nat) : sentPackets source tag h (k + 1) false =
    sentPackets source tag h k false ++ [batchPacket source tag h k] := by
  simp [sentPackets, List.range_succ]

theorem sentPackets_withdrawn (k : Nat) : sentPackets source tag h k true =
    sentPackets source tag h k false ++ [cancellation source tag h] := by
  simp [sentPackets]

theorem length_sentPackets (k : Nat) (withdrawn : Bool) :
    (sentPackets source tag h k withdrawn).length = k + if withdrawn then 1 else 0 := by
  cases withdrawn <;> simp [sentPackets]

theorem drop_sentPackets {j k : Nat} (hj : j < k) (withdrawn : Bool) : (sentPackets source tag h k withdrawn).drop j =
    batchPacket source tag h j :: (sentPackets source tag h k withdrawn).drop (j + 1) := by
  have hlt : j < (sentPackets source tag h k withdrawn).length := by
    rw [length_sentPackets]
    omega
  rw [List.drop_eq_getElem_cons hlt]
  congr 1
  simp [sentPackets, List.getElem_append_left, hj]

theorem drop_sentPackets_withdrawn (k : Nat) :
    (sentPackets source tag h k true).drop k = [cancellation source tag h] := by
  rw [sentPackets_withdrawn, List.drop_left' (by simp [length_sentPackets])]

theorem drop_sentPackets_all (k : Nat) : (sentPackets source tag h k false).drop k = [] :=
  List.drop_eq_nil_of_le (length_sentPackets source tag h k false).le

theorem drop_sentPackets_withdrawn_all (k : Nat) : (sentPackets source tag h k true).drop (k + 1) = [] :=
  List.drop_eq_nil_of_le (length_sentPackets source tag h k true).le

theorem mem_sentPackets {p : Packet} {k : Nat} {withdrawn : Bool} (hp : p ∈ sentPackets source tag h k withdrawn) :
    p.key = (source, h.id) ∧ p.tag = tag + msgOffsetBatched := by
  rw [sentPackets, List.mem_append, List.mem_map] at hp
  rcases hp with ⟨i, -, rfl⟩ | hp
  · exact ⟨rfl, rfl⟩
  · cases withdrawn with
    | false => cases hp
    | true =>
        obtain rfl := List.mem_singleton.mp hp
        exact ⟨rfl, rfl⟩

end Packets

section Collecting

variable {h : SendHandle} {j : Nat}

def collected (h : SendHandle) (j : Nat) : ReceiveFragment where
  id := h.id
  receivedFragments := if (j : Int) = h.totalNumBatches then -1 else j
  dataFragments :=
    if j = 0 then []
    else (List.range j).map (fun i => some (h.batch i)) ++ List.replicate (h.totalNumBatches.toNat - j) none

theorem collected_zero (hbatched : 1 < h.totalNumBatches) : collected h 0 = { id := h.id } := by
  rw [collected, Nat.cast_zero, if_neg (by omega), if_pos rfl]

theorem resize_collected (j : Nat) : (collected h j).dataFragments ++
    List.replicate (h.totalNumBatches.toNat - (collected h j).dataFragments.length) none =
      (List.range j).map (fun i => some (h.batch i)) ++ List.replicate (h.totalNumBatches.toNat - j) none := by
  rw [collected]
  by_cases hj : j = 0
  · simp [hj]
  · rw [if_neg hj, List.length_append, List.length_map, List.length_range, List.length_replicate, List.append_assoc,
      List.replicate_append_replicate]
    congr 2
    omega

theorem receiveNext_collected (hj : (j : Int) < h.totalNumBatches) (hbatch : h.batch j ≠ []) :
    (collected h j).receiveNext (h.batch j) h.id j h.totalNumBatches = some (collected h (j + 1)) := by
  have hcount : (collected h j).receivedFragments = j := if_neg hj.ne
  obtain ⟨rest, hrest⟩ : ∃ rest, h.totalNumBatches.toNat - j = rest + 1 := ⟨h.totalNumBatches.toNat - j - 1, by omega⟩
  have hfragments := resize_collected (h := h) j
  rw [hrest, List.replicate_succ] at hfragments
  have hnext := ReceiveFragment.receiveNext_next hbatch hj (by omega) (by simp) hfragments
  rw [hcount] at hnext
  refine hnext.trans ?_
  rw [collected, collected, if_neg (Nat.succ_ne_zero j), List.range_succ,
    show h.totalNumBatches.toNat - (j + 1) = rest by omega]
  simp

theorem not_isFinished_collected (hj : (j : Int) < h.totalNumBatches) : (collected h j).isFinished = false := by
  rw [ReceiveFragment.isFinished, collected, if_neg hj.ne]
  simp only [decide_eq_false_iff_not]
  omega

theorem isFinished_collected (hj : (j : Int) = h.totalNumBatches) : (collected h j).isFinished = true := by
  rw [ReceiveFragment.isFinished, collected, if_pos hj]
  rfl

theorem assemble_collected (hpos : 0 < j) (hj : (j : Int) = h.totalNumBatches) :
    assemble (collected h j) = some [((List.range j).map h.batch).flatten] := by
  have hfragments : (collected h j).dataFragments = (List.range j).map fun i => some (h.batch i) := by
    rw [collected, if_neg hpos.ne', show h.totalNumBatches.toNat - j = 0 by omega, List.replicate_zero,
      List.append_nil]
  have hsome : (List.range j).map (fun i => some (h.batch i)) ≠ [] := by
    simp only [ne_eq, List.map_eq_nil_iff, List.range_eq_nil]
    omega
  rw [assemble, hfragments, if_neg hsome, if_neg (by simp [collected]), mapM_some, Option.map_some]

theorem assemble_cancelled {f : ReceiveFragment} (hf : f.cancelled = true) : assemble f = some [] := by
  rw [assemble, if_pos hf, ite_self]

end Collecting

structure Transfer where
  sending : Option Sending := none
  sent : List Packet := []
  flying : List Packet := []
  entry : Option FragmentedMessage := none
  queued : List FragmentedMessage := []
  output : List MessageHandle := []

def Packet.received (p : Packet) (entry : Option FragmentedMessage) : Option FragmentedMessage :=
  (entry.getD (.create p.source (p.tag - msgOffsetBatched) p.id)).receiveNext (p.tag - msgOffsetBatched) p

def FragmentedMessage.isDone (f : FragmentedMessage) : Bool := f.fragment.cancelled || f.fragment.isFinished

namespace Transfer

inductive Moves (maxMsgSize : Int) (key : Nat × Int) (v : Transfer) : Transfer → Prop
  | send (tag : Nat) (data : List UInt8) (hnew : v.sending = none) (hvalid : key.2 ≠ -1)
      (hbatched : 1 < (SendHandle.create key.2 data maxMsgSize).totalNumBatches) :
      Moves maxMsgSize key v { v with sending := some ⟨tag, SendHandle.create key.2 data maxMsgSize⟩ }
  | sendNext (t : Sending) (data : List UInt8) (id sentBatch totalNumBatches : Int) (handle : SendHandle)
      (ht : v.sending = some t) (hopen : t.handle.isFinished = false)
      (hnext : t.handle.sendNext = some (.fragment data id sentBatch totalNumBatches, handle)) :
      Moves maxMsgSize key v { v with
        sending := some { t with handle := handle }
        sent := v.sent ++ [⟨key.1, t.tag + msgOffsetBatched, data, id, sentBatch, totalNumBatches⟩]
        flying := v.flying ++ [⟨key.1, t.tag + msgOffsetBatched, data, id, sentBatch, totalNumBatches⟩] }
  | cancelSend (t : Sending) (ht : v.sending = some t) :
      Moves maxMsgSize key v { v with sending := some { t with handle := t.handle.cancel } }
  | receive (p : Packet) (rest : List Packet) (f : FragmentedMessage) (hflying : v.flying = p :: rest)
      (hf : p.received v.entry = some f) :
      Moves maxMsgSize key v { v with
        flying := rest
        entry := if f.isDone then none else some f
        queued := v.queued ++ if f.isDone then [f] else [] }
  | assemble (f : FragmentedMessage) (rest : List FragmentedMessage) (messages : List (List UInt8))
      (hqueued : v.queued = f :: rest) (hmessages : MessageQueue.assemble f.fragment = some messages) :
      Moves maxMsgSize key v { v with
        queued := rest
        output := v.output ++ messages.map fun data => ⟨f.source, f.tag, f.fragment.id, data⟩ }

structure Sends (maxMsgSize id : Int) (t : Sending) (k : Nat) (withdrawn : Bool) : Prop where
  valid : id ≠ -1
  batched : 1 < (SendHandle.create id t.handle.data maxMsgSize).totalNumBatches
  handle_eq : t.handle = { SendHandle.create id t.handle.data maxMsgSize with
    sentBatches := if withdrawn then (SendHandle.create id t.handle.data maxMsgSize).totalNumBatches else k
    sizePerBatch := t.handle.sizePerBatch }
  size : t.handle.sizePerBatch = maxMsgSize ∨ t.handle.sizePerBatch = -1
  le : (k : Int) ≤ t.handle.totalNumBatches
  nonempty : ∀ i < k, (SendHandle.create id t.handle.data maxMsgSize).batch i ≠ []
  withdrawn_of : withdrawn = true → (k : Int) < t.handle.totalNumBatches ∧ t.handle.isCancelled = true

inductive Receives (source tag : Nat) (h : SendHandle) (k : Nat) (withdrawn : Bool) :
    Nat → Option FragmentedMessage → List FragmentedMessage → List MessageHandle → Prop
  | collecting (j : Nat) (hj : j ≤ k) (hlt : (j : Int) < h.totalNumBatches) :
      Receives source tag h k withdrawn j (if j = 0 then none else some ⟨source, tag, collected h j⟩) [] []
  | complete (hk : (k : Int) = h.totalNumBatches) (hw : withdrawn = false) :
      Receives source tag h k withdrawn k none [⟨source, tag, collected h k⟩] []
  | fused (hk : (k : Int) = h.totalNumBatches) (hw : withdrawn = false) :
      Receives source tag h k withdrawn k none [] [⟨source, tag, h.id, ((List.range k).map h.batch).flatten⟩]
  | cancelled (f : FragmentedMessage) (hw : withdrawn = true) (hf : f.fragment.cancelled = true) :
      Receives source tag h k withdrawn (k + 1) none [f] []
  | dropped (hw : withdrawn = true) : Receives source tag h k withdrawn (k + 1) none [] []

/-- The packets of a message that have arrived are the first ones that were sent. The message may be known to have
been cancelled early, before its last batch was sent. -/
inductive Tracked (maxMsgSize : Int) (key : Nat × Int) (early : Prop) : Transfer → Prop
  | unsent (hearly : ¬early) : Tracked maxMsgSize key early {}
  | sent {v : Transfer} {t : Sending} {k j : Nat} {withdrawn : Bool} (ht : v.sending = some t)
      (hsends : Sends maxMsgSize key.2 t k withdrawn)
      (hearly : early → (k : Int) < t.handle.totalNumBatches ∧ t.handle.isCancelled = true)
      (hsent : v.sent = sentPackets key.1 t.tag (SendHandle.create key.2 t.handle.data maxMsgSize) k withdrawn)
      (hflying : v.flying = v.sent.drop j)
      (hreceives : Receives key.1 t.tag (SendHandle.create key.2 t.handle.data maxMsgSize) k withdrawn j
        v.entry v.queued v.output) :
      Tracked maxMsgSize key early v

section Moving

variable {maxMsgSize : Int} {key : Nat × Int} {early : Prop} {v v' : Transfer} {t : Sending} {k : Nat}
  {withdrawn : Bool}

theorem Sends.cancel (hs : Sends maxMsgSize key.2 t k withdrawn) :
    Sends maxMsgSize key.2 { t with handle := t.handle.cancel } k withdrawn := by
  refine ⟨hs.valid, hs.batched, ?_, Or.inr rfl, hs.le, hs.nonempty, fun hw => ⟨(hs.withdrawn_of hw).1, rfl⟩⟩
  have hhandle := hs.handle_eq
  rw [SendHandle.cancel, hhandle]
  rfl

theorem Sends.total_eq (hs : Sends maxMsgSize key.2 t k withdrawn) :
    (SendHandle.create key.2 t.handle.data maxMsgSize).totalNumBatches = t.handle.totalNumBatches :=
  (congrArg SendHandle.totalNumBatches hs.handle_eq).symm

theorem Sends.unfinished (hs : Sends maxMsgSize key.2 t k withdrawn) (hopen : t.handle.isFinished = false) :
    withdrawn = false ∧ t.handle.sentBatches = k ∧ (k : Int) < t.handle.totalNumBatches := by
  have htotal := hs.total_eq
  have hsent := congrArg SendHandle.sentBatches hs.handle_eq
  have hle := hs.le
  simp only [SendHandle.isFinished, decide_eq_false_iff_not] at hopen
  cases withdrawn with
  | false =>
      have hk : t.handle.sentBatches = k := hsent
      exact ⟨rfl, hk, by omega⟩
  | true => exact absurd (hsent.trans htotal) hopen

theorem Sends.isBatched (hs : Sends maxMsgSize key.2 t k withdrawn) : t.handle.isBatched = true := by
  rw [SendHandle.isBatched, ← hs.total_eq]
  exact decide_eq_true hs.batched

theorem Sends.batch_eq (hs : Sends maxMsgSize key.2 t k false) (hsize : t.handle.sizePerBatch = maxMsgSize) :
    (SendHandle.create key.2 t.handle.data maxMsgSize).batch k =
      (t.handle.data.drop t.handle.range.1).take (t.handle.range.2 - t.handle.range.1) := by
  have hsame : { SendHandle.create key.2 t.handle.data maxMsgSize with sentBatches := (k : Int) } = t.handle := by
    have hhandle := hs.handle_eq
    rw [hsize] at hhandle
    exact hhandle.symm
  rw [SendHandle.batch, hsame]
  rfl

theorem Sends.proceed (hs : Sends maxMsgSize key.2 t k false) (hlt : (k : Int) < t.handle.totalNumBatches)
    (hsize : t.handle.sizePerBatch = maxMsgSize)
    (hbatch : (SendHandle.create key.2 t.handle.data maxMsgSize).batch k ≠ []) :
    Sends maxMsgSize key.2 ⟨t.tag, { t.handle with sentBatches := (k + 1 : Nat) }⟩ (k + 1) false := by
  refine ⟨hs.valid, hs.batched, ?_, Or.inl hsize, ?_, ?_, ?_⟩
  · conv_lhs => rw [hs.handle_eq]
    rfl
  · simp only
    omega
  · intro i hi
    rcases Nat.lt_succ_iff_lt_or_eq.mp hi with hi | rfl
    · exact hs.nonempty i hi
    · exact hbatch
  · intro hw
    cases hw

theorem Sends.withdraw (hs : Sends maxMsgSize key.2 t k false) (hlt : (k : Int) < t.handle.totalNumBatches)
    (hcancelled : t.handle.isCancelled = true) :
    Sends maxMsgSize key.2 ⟨t.tag, { t.handle with sentBatches := t.handle.totalNumBatches }⟩ k true := by
  refine ⟨hs.valid, hs.batched, ?_, hs.size, hs.le, hs.nonempty, fun _ => ⟨hlt, hcancelled⟩⟩
  conv_lhs => rw [hs.handle_eq]
  rw [if_pos rfl]

/-- What is sent next is the next batch of the message or its cancellation. -/
theorem Sends.sendNext (hmax : 0 < maxMsgSize) (hs : Sends maxMsgSize key.2 t k withdrawn)
    (hopen : t.handle.isFinished = false) {data : List UInt8} {id sentBatch totalNumBatches : Int} {handle : SendHandle}
    (hnext : t.handle.sendNext = some (.fragment data id sentBatch totalNumBatches, handle)) :
    handle.data = t.handle.data ∧ handle.totalNumBatches = t.handle.totalNumBatches ∧
      handle.isCancelled = t.handle.isCancelled ∧ ∃ k' withdrawn', k ≤ k' ∧ (t.handle.isCancelled = true → k' = k) ∧
      Sends maxMsgSize key.2 ⟨t.tag, handle⟩ k' withdrawn' ∧
      sentPackets key.1 t.tag (SendHandle.create key.2 t.handle.data maxMsgSize) k' withdrawn' =
        sentPackets key.1 t.tag (SendHandle.create key.2 t.handle.data maxMsgSize) k withdrawn ++
          [⟨key.1, t.tag + msgOffsetBatched, data, id, sentBatch, totalNumBatches⟩] := by
  obtain ⟨rfl, hk, hlt⟩ := hs.unfinished hopen
  have hid : t.handle.id = key.2 := congrArg SendHandle.id hs.handle_eq
  rcases hs.size with hsize | hsize
  · have hcancelled : t.handle.isCancelled = false := by
      rw [SendHandle.isCancelled, hsize]
      exact decide_eq_false (by omega)
    obtain ⟨hrange, rfl, rfl, rfl, rfl, rfl⟩ := SendHandle.sendNext_batch hopen hs.isBatched hcancelled hnext
    have hint : int32 (t.handle.sentBatches + 1) = (k + 1 : Nat) := by
      have htop := totalNumBatches_lt key.2 t.handle.data maxMsgSize
      rw [hs.total_eq] at htop
      rw [hk, int32_eq (by omega) (by omega)]
      rfl
    have hbatch := hs.batch_eq hsize
    have hsame : t.handle.isCancelled = true → k + 1 = k := by simp [hcancelled]
    refine ⟨rfl, rfl, rfl, k + 1, false, Nat.le_succ k, hsame, ?_, ?_⟩
    · rw [hint]
      exact hs.proceed hlt hsize (by rw [hbatch]; exact SendHandle.slice_ne_nil hrange)
    · rw [sentPackets_succ, batchPacket, hbatch, hid, hk, hs.total_eq]
      rfl
  · have hcancelled : t.handle.isCancelled = true := by
      rw [SendHandle.isCancelled, hsize]
      exact decide_eq_true rfl
    rw [SendHandle.sendNext_cancelled hopen hs.isBatched hcancelled] at hnext
    obtain ⟨hmessage, rfl⟩ := Prod.mk.inj (Option.some.inj hnext)
    obtain ⟨rfl, rfl, rfl, rfl⟩ := Message.fragment.inj hmessage
    refine ⟨rfl, rfl, rfl, k, true, le_rfl, fun _ => rfl, hs.withdraw hlt hcancelled, ?_⟩
    rw [sentPackets_withdrawn, cancellation, hid]
    rfl

theorem Receives.unfinished {source tag j : Nat} {h : SendHandle} {entry : Option FragmentedMessage}
    {queued : List FragmentedMessage} {output : List MessageHandle}
    (hr : Receives source tag h k false j entry queued output) (hk : (k : Int) < h.totalNumBatches) :
    j ≤ k ∧ ∀ k' withdrawn', k ≤ k' → Receives source tag h k' withdrawn' j entry queued output := by
  cases hr with
  | collecting j hj hlt => exact ⟨hj, fun k' withdrawn' hle => .collecting j (hj.trans hle) hlt⟩
  | complete hk' _ => exact absurd hk' hk.ne
  | fused hk' _ => exact absurd hk' hk.ne
  | cancelled f hw _ => cases hw
  | dropped hw => cases hw

/-- A packet of a message meets the fragments that were collected before it. -/
theorem received_eq {source tag j : Nat} {h : SendHandle} {p : Packet} (hid : h.id ≠ -1)
    (hbatched : 1 < h.totalNumBatches) (hkey : p.key = (source, h.id)) (htag : p.tag = tag + msgOffsetBatched) :
    p.received (if j = 0 then none else some ⟨source, tag, collected h j⟩) =
      ((collected h j).receiveNext p.data h.id p.sentBatch p.totalNumBatches).map fun fragment =>
        ⟨source, tag, fragment⟩ := by
  obtain ⟨rfl, hpid⟩ := Prod.mk.inj hkey
  have hentry : (if j = 0 then none else some ⟨p.source, tag, collected h j⟩).getD
      (FragmentedMessage.create p.source tag h.id) = ⟨p.source, tag, collected h j⟩ := by
    split
    · next hzero =>
        rw [hzero, collected_zero hbatched]
        rfl
    · rfl
  have hvalid : (collected h j).id ≠ -1 := hid
  rw [Packet.received, htag, hpid, Nat.add_sub_cancel, hentry, FragmentedMessage.receiveNext, if_neg hvalid,
    if_pos (Or.inr ⟨rfl, rfl⟩), hpid]

theorem received_batchPacket {source tag j : Nat} {h : SendHandle} (hid : h.id ≠ -1) (hbatched : 1 < h.totalNumBatches)
    (hj : (j : Int) < h.totalNumBatches) (hbatch : h.batch j ≠ []) :
    (batchPacket source tag h j).received (if j = 0 then none else some ⟨source, tag, collected h j⟩) =
      some ⟨source, tag, collected h (j + 1)⟩ := by
  rw [received_eq hid hbatched (batchPacket_key source tag h j) rfl]
  exact congrArg (Option.map _) (receiveNext_collected hj hbatch)

theorem received_cancellation {source tag j : Nat} {h : SendHandle} (hid : h.id ≠ -1)
    (hbatched : 1 < h.totalNumBatches) :
    (cancellation source tag h).received (if j = 0 then none else some ⟨source, tag, collected h j⟩) =
      some ⟨source, tag, { collected h j with cancelled := true }⟩ := by
  rw [received_eq hid hbatched (cancellation_key source tag h) rfl, ReceiveFragment.receiveNext,
    if_pos ⟨rfl, rfl, rfl⟩, Option.map_some]

theorem Receives.batch {source tag j : Nat} {h : SendHandle} (hj : j < k) (hle : (k : Int) ≤ h.totalNumBatches)
    (hw : withdrawn = true → (k : Int) < h.totalNumBatches) {f : FragmentedMessage}
    (hf : f = ⟨source, tag, collected h (j + 1)⟩) :
    Receives source tag h k withdrawn (j + 1) (if f.isDone then none else some f)
      ([] ++ if f.isDone then [f] else []) [] := by
  by_cases hlast : ((j + 1 : Nat) : Int) = h.totalNumBatches
  · have hdone : f.isDone = true := by
      rw [hf, FragmentedMessage.isDone, isFinished_collected hlast, Bool.or_true]
    have hk : j + 1 = k := by omega
    have hkept : withdrawn = false := by
      by_contra hne
      have hlt := hw (Bool.eq_true_of_not_eq_false hne)
      omega
    rw [if_pos hdone, if_pos hdone, hf, hk]
    rw [hk] at hlast
    exact .complete hlast hkept
  · have hopen : ((j + 1 : Nat) : Int) < h.totalNumBatches := by omega
    have hdone : ¬f.isDone = true := by
      rw [hf, FragmentedMessage.isDone, not_isFinished_collected hopen]
      exact Bool.false_ne_true
    have hr : Receives source tag h k withdrawn (j + 1) _ [] [] := .collecting (j + 1) hj hopen
    rw [if_neg (Nat.succ_ne_zero j)] at hr
    rw [if_neg hdone, if_neg hdone, hf]
    exact hr

theorem Tracked.receive {p : Packet} {rest : List Packet} (hv : Tracked maxMsgSize key early v)
    (hflying : v.flying = p :: rest) : ∃ f, p.received v.entry = some f ∧ f.key = key ∧
      Tracked maxMsgSize key early { v with
        flying := rest
        entry := if f.isDone then none else some f
        queued := v.queued ++ if f.isDone then [f] else [] } := by
  cases hv with
  | unsent => cases hflying
  | @sent v t k j withdrawn ht hsends hearly hsent hdrop hreceives =>
      have hbatched := hsends.batched
      have hle := hsends.le
      have hwithdrawn := hsends.withdrawn_of
      rw [← hsends.total_eq] at hle hwithdrawn
      have hvalid : (SendHandle.create key.2 t.handle.data maxMsgSize).id ≠ -1 := hsends.valid
      have hkept : ∀ {f : FragmentedMessage} {j' : Nat}, v.sent.drop j' = rest →
          Receives key.1 t.tag (SendHandle.create key.2 t.handle.data maxMsgSize) k withdrawn j'
            (if f.isDone then none else some f) (v.queued ++ if f.isDone then [f] else []) v.output →
          Tracked maxMsgSize key early { v with
            flying := rest
            entry := if f.isDone then none else some f
            queued := v.queued ++ if f.isDone then [f] else [] } :=
        fun hrest hr => .sent ht hsends hearly hsent hrest.symm hr
      rw [hdrop, hsent] at hflying
      generalize v.entry = entry, v.queued = queued, v.output = output at hreceives hkept ⊢
      cases hreceives with
      | collecting j hj hlt =>
          rcases hj.lt_or_eq with hj | rfl
          · rw [drop_sentPackets key.1 t.tag _ hj] at hflying
            obtain ⟨rfl, hrest⟩ := List.cons.inj hflying
            refine ⟨_, received_batchPacket hvalid hbatched hlt (hsends.nonempty j hj), rfl, ?_⟩
            exact hkept (by rw [hsent]; exact hrest) (.batch hj hle (fun hw => (hwithdrawn hw).1) rfl)
          · cases withdrawn with
            | false =>
                rw [drop_sentPackets_all] at hflying
                cases hflying
            | true =>
                rw [drop_sentPackets_withdrawn] at hflying
                obtain ⟨rfl, rfl⟩ := List.cons.inj hflying
                refine ⟨_, received_cancellation hvalid hbatched, rfl, ?_⟩
                refine hkept (by rw [hsent]; exact drop_sentPackets_withdrawn_all key.1 t.tag _ j) ?_
                exact .cancelled _ rfl rfl
      | complete hk hw =>
          rw [hw, drop_sentPackets_all] at hflying
          cases hflying
      | fused hk hw =>
          rw [hw, drop_sentPackets_all] at hflying
          cases hflying
      | cancelled f hw hf =>
          rw [hw, drop_sentPackets_withdrawn_all] at hflying
          cases hflying
      | dropped hw =>
          rw [hw, drop_sentPackets_withdrawn_all] at hflying
          cases hflying

theorem Tracked.assemble {f : FragmentedMessage} {rest : List FragmentedMessage}
    (hv : Tracked maxMsgSize key early v) (hqueued : v.queued = f :: rest) :
    ∃ messages, MessageQueue.assemble f.fragment = some messages ∧ Tracked maxMsgSize key early { v with
      queued := rest
      output := v.output ++ messages.map fun data => ⟨f.source, f.tag, f.fragment.id, data⟩ } := by
  cases hv with
  | unsent => cases hqueued
  | @sent v t k j withdrawn ht hsends hearly hsent hdrop hreceives =>
      have hbatched := hsends.batched
      have hkept : ∀ {messages : List (List UInt8)},
          Receives key.1 t.tag (SendHandle.create key.2 t.handle.data maxMsgSize) k withdrawn j v.entry rest
            (v.output ++ messages.map fun data => ⟨f.source, f.tag, f.fragment.id, data⟩) →
          Tracked maxMsgSize key early { v with
            queued := rest
            output := v.output ++ messages.map fun data => ⟨f.source, f.tag, f.fragment.id, data⟩ } :=
        fun hr => .sent ht hsends hearly hsent hdrop hr
      generalize v.entry = entry, v.queued = queued, v.output = output at hreceives hqueued hkept ⊢
      cases hreceives with
      | collecting j hj hlt => cases hqueued
      | complete hk hw =>
          obtain ⟨rfl, rfl⟩ := List.cons.inj hqueued
          refine ⟨_, assemble_collected (by omega) hk, hkept ?_⟩
          exact .fused hk hw
      | fused hk hw => cases hqueued
      | cancelled f hw hf =>
          obtain ⟨rfl, rfl⟩ := List.cons.inj hqueued
          exact ⟨[], assemble_cancelled hf, hkept (.dropped hw)⟩
      | dropped hw => cases hqueued

theorem Tracked.moves (hmax : 0 < maxMsgSize) (hv : Tracked maxMsgSize key early v) (hm : Moves maxMsgSize key v v') :
    Tracked maxMsgSize key early v' := by
  cases hm with
  | send tag data hnew hvalid hbatched =>
      cases hv with
      | unsent hearly =>
          have hcollecting : Receives key.1 tag (SendHandle.create key.2 data maxMsgSize) 0 false 0 _ [] [] :=
            .collecting 0 le_rfl (by omega)
          refine .sent (k := 0) (j := 0) rfl ⟨hvalid, hbatched, rfl, Or.inl rfl, ?_, ?_, ?_⟩ ?_ rfl rfl hcollecting
          · exact le_of_lt (lt_trans Int.one_pos hbatched)
          · intro i hi
            cases hi
          · intro hw
            cases hw
          · intro h
            exact absurd h hearly
      | sent ht => rw [ht] at hnew; cases hnew
  | sendNext t data id sentBatch totalNumBatches handle ht hopen hnext =>
      cases hv with
      | unsent => cases ht
      | sent ht' hsends hearly hsent hdrop hreceives =>
          obtain rfl := Option.some.inj (ht'.symm.trans ht)
          obtain ⟨hdata, htotal, hcancelled, k', withdrawn', hle, hsame, hsends', hpackets⟩ :=
            hsends.sendNext hmax hopen hnext
          obtain ⟨rfl, -, hlt⟩ := hsends.unfinished hopen
          obtain ⟨hj, hreceives'⟩ := hreceives.unfinished (by rw [hsends.total_eq]; exact hlt)
          refine .sent rfl hsends' ?_ ?_ ?_ (by rw [hdata]; exact hreceives' k' withdrawn' hle)
          · intro h
            obtain ⟨hk, hc⟩ := hearly h
            rw [hsame hc, htotal, hcancelled]
            exact ⟨hk, hc⟩
          · rw [hdata, hpackets, hsent]
          · rw [hdrop, List.drop_append_of_le_length]
            rw [hsent, length_sentPackets]
            exact hj
  | cancelSend t ht =>
      cases hv with
      | unsent => cases ht
      | sent ht' hsends hearly hsent hdrop hreceives =>
          obtain rfl := Option.some.inj (ht'.symm.trans ht)
          exact .sent rfl hsends.cancel (fun h => ⟨(hearly h).1, rfl⟩) hsent hdrop hreceives
  | receive p rest f hflying hf =>
      obtain ⟨f', hf', -, hkept⟩ := hv.receive hflying
      obtain rfl := Option.some.inj (hf.symm.trans hf')
      exact hkept
  | assemble f rest messages hqueued hmessages =>
      obtain ⟨messages', hmessages', hkept⟩ := hv.assemble hqueued
      obtain rfl := Option.some.inj (hmessages.symm.trans hmessages')
      exact hkept

theorem Tracked.cancelSend (hv : Tracked maxMsgSize key False v) (ht : v.sending = some t)
    (hopen : t.handle.isFinished = false) :
    Tracked maxMsgSize key True { v with sending := some { t with handle := t.handle.cancel } } := by
  cases hv with
  | unsent => cases ht
  | sent ht' hsends hearly hsent hdrop hreceives =>
      obtain rfl := Option.some.inj (ht'.symm.trans ht)
      obtain ⟨-, -, hlt⟩ := hsends.unfinished hopen
      exact .sent rfl hsends.cancel (fun _ => ⟨hlt, rfl⟩) hsent hdrop hreceives

theorem Tracked.handle_id (hv : Tracked maxMsgSize key early v) (ht : v.sending = some t) : t.handle.id = key.2 := by
  cases hv with
  | unsent => cases ht
  | sent ht' hsends hearly hsent hdrop hreceives =>
      obtain rfl := Option.some.inj (ht'.symm.trans ht)
      exact congrArg SendHandle.id hsends.handle_eq

theorem Tracked.cancelled (hv : Tracked maxMsgSize key early v) (h : early) :
    ∃ t, v.sending = some t ∧ t.handle.isBatched = true ∧ t.handle.isCancelled = true := by
  cases hv with
  | unsent hearly => exact absurd h hearly
  | @sent v t k j withdrawn ht hsends hearly hsent hdrop hreceives =>
      exact ⟨t, ht, hsends.isBatched, (hearly h).2⟩

theorem Tracked.tag (hv : Tracked maxMsgSize key early v) :
    ∃ tag, ∀ p ∈ v.flying, p.tag = tag + msgOffsetBatched := by
  cases hv with
  | unsent => exact ⟨0, fun p hp => by cases hp⟩
  | @sent v t k j withdrawn ht hsends hearly hsent hdrop hreceives =>
      refine ⟨t.tag, fun p hp => ?_⟩
      rw [hdrop, hsent] at hp
      exact (mem_sentPackets _ _ _ (List.mem_of_mem_drop hp)).2

/-- What comes out is the message as a whole, of which every batch has been sent and no cancellation. -/
theorem Tracked.output (hv : Tracked maxMsgSize key early v) : v.output = [] ∨ ∃ t h, v.sending = some t ∧ ¬early ∧
    h = SendHandle.create key.2 t.handle.data maxMsgSize ∧ 1 < h.totalNumBatches ∧
    v.sent = (List.range h.totalNumBatches.toNat).map (batchPacket key.1 t.tag h) ∧
    v.output = [⟨key.1, t.tag, key.2, ((List.range h.totalNumBatches.toNat).map h.batch).flatten⟩] := by
  cases hv with
  | unsent => exact Or.inl rfl
  | @sent v t k j withdrawn ht hsends hearly hsent hdrop hreceives =>
      have htotal := hsends.total_eq
      generalize v.entry = entry, v.queued = queued, v.output = output at hreceives ⊢
      cases hreceives with
      | collecting j hj hlt => exact Or.inl rfl
      | complete hk hw => exact Or.inl rfl
      | fused hk hw =>
          have hk' : (SendHandle.create key.2 t.handle.data maxMsgSize).totalNumBatches.toNat = k := by omega
          refine Or.inr ⟨t, _, ht, ?_, rfl, hsends.batched, ?_, ?_⟩
          · intro h
            have hlt := (hearly h).1
            omega
          · rw [hsent, hw, hk', sentPackets]
            exact List.append_nil _
          · rw [hk']
            rfl
      | cancelled f hw hf => exact Or.inl rfl
      | dropped hw => exact Or.inl rfl

/-- Nothing is left of a message whose sender is done with it when all of its packets have arrived. -/
theorem Tracked.entry_eq_none (hv : Tracked maxMsgSize key early v) (hflying : v.flying = [])
    (hfinished : ∀ t, v.sending = some t → t.handle.isFinished = true) : v.entry = none := by
  cases hv with
  | unsent => rfl
  | @sent v t k j withdrawn ht hsends hearly hsent hdrop hreceives =>
      have htotal := hsends.total_eq
      have hsentBatches := congrArg SendHandle.sentBatches hsends.handle_eq
      have hdone := hfinished t ht
      simp only [SendHandle.isFinished, decide_eq_true_eq] at hdone
      rw [hdrop, hsent] at hflying
      generalize v.entry = entry, v.queued = queued, v.output = output at hreceives ⊢
      cases hreceives with
      | collecting j hj hlt =>
          have hlength := List.drop_eq_nil_iff.mp hflying
          rw [length_sentPackets] at hlength
          cases withdrawn with
          | false =>
              simp only [Bool.false_eq_true, if_false] at hlength hsentBatches
              omega
          | true =>
              simp only [if_true] at hlength
              omega
      | complete hk hw => rfl
      | fused hk hw => rfl
      | cancelled f hw hf => rfl
      | dropped hw => rfl

end Moving

end Transfer

end Mallob.MessageQueue
