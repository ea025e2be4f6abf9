import Mallob.BatchedMessages
import Mallob.Runs

namespace Mallob.MessageQueue

open Runs

/-- A send handle in a queue. Its request is not null once it has been initiated; the serial number is that of the
call of send that it comes from. -/
structure QueuedSend where
  handle : SendHandle
  dest : Int
  tag : Int
  initiated : Bool := false
  serial : Nat

structure SendCall where
  data : List UInt8
  dest : Int
  tag : Int

/-- A batch that is handed to MPI, the only one of a message that is not batched, or the call of a send-done
callback. -/
inductive SendEvent
  | isend (serial : Nat) (batch : Int)
  | sendDone (serial : Nat)
deriving DecidableEq

structure SendQueue where
  maxMsgSize : Int
  myRank : Int
  sendDoneCallbacks : List Int
  selfRecvQueue : List QueuedSend := []
  sendQueue : List QueuedSend := []
  runningSendId : Int := 1
  numConcurrentSends : Int := 0
  calls : List SendCall := []
  log : List SendEvent := []

inductive SendFault
  | assertion
deriving DecidableEq

namespace SendQueue

def maxConcurrentSends : Int := 16

def pass (s : SendQueue) (h : QueuedSend) : SendQueue := { s with sendQueue := s.sendQueue ++ [h] }

def sendNext (s : SendQueue) (h : QueuedSend) : Except SendFault SendQueue :=
  match h.handle.sendNext with
  | none => .error .assertion
  | some (_, handle) =>
      .ok { s.pass { h with handle := handle, initiated := true } with
        log := s.log ++ [.isend h.serial h.handle.sentBatches] }

def countInitiated (s : SendQueue) : SendQueue := { s with numConcurrentSends := s.numConcurrentSends + 1 }

def newSend (s : SendQueue) (call : SendCall) : QueuedSend where
  handle := SendHandle.create s.runningSendId call.data s.maxMsgSize
  dest := call.dest
  tag := call.tag
  serial := s.calls.length

def record (s : SendQueue) (call : SendCall) : SendQueue :=
  { s with runningSendId := int32 (s.runningSendId + 1), calls := s.calls ++ [call] }

def send (s : SendQueue) (call : SendCall) : Except SendFault SendQueue :=
  let h := s.newSend call
  let s := s.record call
  if call.dest = s.myRank then .ok { s with selfRecvQueue := s.selfRecvQueue ++ [h] }
  else if s.numConcurrentSends < maxConcurrentSends then (s.sendNext h).map countInitiated
  else .ok (s.pass h)

def signalCompletion (s : SendQueue) (h : QueuedSend) : SendQueue :=
  if h.tag ∈ s.sendDoneCallbacks then { s with log := s.log ++ [.sendDone h.serial] } else s

def complete (s : SendQueue) (h : QueuedSend) : SendQueue :=
  { s.signalCompletion h with numConcurrentSends := s.numConcurrentSends - 1 }

/-- The first loop over the queue: the handles behind the iterator are in the queue again, the ones before it are
listed. Some requests are found to be completed. -/
def testSends (completes : Nat → Bool) : List QueuedSend → SendQueue → Bool → Except SendFault (SendQueue × Bool)
  | [], s, uninitiatedHandlesPresent => .ok (s, uninitiatedHandlesPresent)
  | h :: rest, s, uninitiatedHandlesPresent =>
      if !h.initiated then testSends completes rest (s.pass h) true
      else if !completes h.serial then testSends completes rest (s.pass h) uninitiatedHandlesPresent
      else if h.handle.isBatched && !h.handle.isFinished then
        (s.sendNext h).bind fun s => testSends completes rest s uninitiatedHandlesPresent
      else testSends completes rest (s.complete h) uninitiatedHandlesPresent

def initiateSends : List QueuedSend → SendQueue → Except SendFault SendQueue
  | [], s => .ok s
  | h :: rest, s =>
      if s.numConcurrentSends < maxConcurrentSends then
        if !h.initiated then (s.sendNext h).bind fun s => initiateSends rest s.countInitiated
        else initiateSends rest (s.pass h)
      else .ok { s with sendQueue := s.sendQueue ++ h :: rest }

def processSent (completes : Nat → Bool) (s : SendQueue) : Except SendFault SendQueue :=
  (testSends completes s.sendQueue { s with sendQueue := [] } false).bind fun (s, uninitiatedHandlesPresent) =>
    if uninitiatedHandlesPresent then initiateSends s.sendQueue { s with sendQueue := [] } else .ok s

inductive Action
  | send (call : SendCall)
  | processSent (completes : Nat → Bool)

def step (s : SendQueue) : Action → Except SendFault SendQueue
  | .send call => s.send call
  | .processSent completes => s.processSent completes

def start (maxMsgSize myRank : Int) (sendDoneCallbacks : List Int) : SendQueue where
  maxMsgSize := maxMsgSize
  myRank := myRank
  sendDoneCallbacks := sendDoneCallbacks

def batchesSent (log : List SendEvent) (n : Nat) : List Int :=
  log.filterMap fun e =>
    match e with
    | .isend m batch => if m = n then some batch else none
    | .sendDone _ => none

def timesDone (log : List SendEvent) (n : Nat) : Nat := log.count (.sendDone n)

def started (log : List SendEvent) : List Nat :=
  log.filterMap fun e =>
    match e with
    | .isend m batch => if batch = 0 then some m else none
    | .sendDone _ => none

section Log

variable (log : List SendEvent) (m n : Nat) (batch : Int)

@[simp] theorem batchesSent_isend : batchesSent (log ++ [.isend m batch]) n =
    batchesSent log n ++ if m = n then [batch] else [] := by
  rw [batchesSent, List.filterMap_append]
  by_cases h : m = n <;> simp [h, batchesSent]

@[simp] theorem batchesSent_sendDone : batchesSent (log ++ [.sendDone m]) n = batchesSent log n := by
  simp [batchesSent]

@[simp] theorem timesDone_isend : timesDone (log ++ [.isend m batch]) n = timesDone log n := by
  simp [timesDone]

@[simp] theorem timesDone_sendDone : timesDone (log ++ [.sendDone m]) n = timesDone log n + if m = n then 1 else 0 := by
  by_cases h : m = n <;> simp [timesDone, h]

@[simp] theorem started_isend : started (log ++ [.isend m batch]) =
    started log ++ if batch = 0 then [m] else [] := by
  rw [started, List.filterMap_append]
  by_cases h : batch = 0 <;> simp [h, started]

@[simp] theorem started_sendDone : started (log ++ [.sendDone m]) = started log := by
  simp [started]

end Log

def batches (h : SendHandle) : Nat := if h.isBatched then h.totalNumBatches.toNat else 1

def created (s : SendQueue) (call : SendCall) (n : Nat) : SendHandle :=
  SendHandle.create (int32 (n + 1)) call.data s.maxMsgSize

structure Entry (s : SendQueue) (h : QueuedSend) (call : SendCall) (k : Nat) : Prop where
  call_eq : s.calls[h.serial]? = some call
  tag_eq : h.tag = call.tag
  dest_eq : h.dest = call.dest
  other : call.dest ≠ s.myRank
  handle_eq : h.handle = { s.created call h.serial with sentBatches := k }
  le : k ≤ batches (s.created call h.serial)
  initiated_iff : h.initiated = true ↔ 0 < k
  sent : batchesSent s.log h.serial = (List.range k).map fun i : Nat => (i : Int)
  not_done : timesDone s.log h.serial = 0

structure Gone (s : SendQueue) (n : Nat) (call : SendCall) : Prop where
  sent : batchesSent s.log n =
    (List.range (if call.dest = s.myRank then 0 else batches (s.created call n))).map fun i : Nat => (i : Int)
  done : timesDone s.log n = if call.dest ≠ s.myRank ∧ call.tag ∈ s.sendDoneCallbacks then 1 else 0

structure Sound (s : SendQueue) : Prop where
  positive : 0 < s.maxMsgSize
  nextId : s.runningSendId = int32 (s.calls.length + 1)
  sorted : s.sendQueue.Pairwise fun h h' => h.serial < h'.serial
  entries : ∀ h ∈ s.sendQueue, ∃ call k, s.Entry h call k
  count : s.numConcurrentSends = s.sendQueue.countP fun h => h.initiated
  le : s.numConcurrentSends ≤ maxConcurrentSends
  gone : ∀ n call, s.calls[n]? = some call → (∀ h ∈ s.sendQueue, h.serial ≠ n) → s.Gone n call
  future : ∀ n, s.calls.length ≤ n → batchesSent s.log n = [] ∧ timesDone s.log n = 0
  ordered : (started s.log).Pairwise (· < ·)
  before : ∀ n ∈ started s.log, ∀ h ∈ s.sendQueue, h.initiated = false → n < h.serial

def Busy (s : SendQueue) : Prop := (∃ h ∈ s.sendQueue, h.initiated = false) → s.numConcurrentSends = maxConcurrentSends

def joined (s : SendQueue) (rest : List QueuedSend) : SendQueue := { s with sendQueue := s.sendQueue ++ rest }

variable {s s' : SendQueue} {h : QueuedSend} {rest : List QueuedSend} {call : SendCall} {k n : Nat}

theorem sendNext_created (hpositive : 0 < s.maxMsgSize) (hk : k < batches (s.created call n)) {message : Message}
    {handle : SendHandle} (hnext : { s.created call n with sentBatches := k }.sendNext = some (message, handle)) :
    handle = { s.created call n with sentBatches := (k + 1 : Nat) } := by
  have htotal : (s.created call n).totalNumBatches < 2 ^ 31 := totalNumBatches_lt _ _ _
  have hsize : (s.created call n).sizePerBatch = s.maxMsgSize := rfl
  generalize s.created call n = h at hk hnext htotal hsize ⊢
  rw [SendHandle.sendNext] at hnext
  split at hnext
  · cases hnext
  · by_cases hbatched : h.isBatched = true
    · rw [batches, if_pos hbatched] at hk
      have hcancelled : h.isCancelled = false := by
        rw [SendHandle.isCancelled, hsize]
        simp only [decide_eq_false_iff_not]
        omega
      rw [if_neg (by simpa [SendHandle.isBatched] using hbatched),
        if_neg (by simpa [SendHandle.isCancelled] using hcancelled)] at hnext
      split at hnext
      · obtain ⟨-, rfl⟩ := Prod.mk.inj (Option.some.inj hnext)
        have hint : int32 ((k : Int) + 1) = k + 1 := int32_eq (by omega) (by omega)
        simp only [hint, Nat.cast_add, Nat.cast_one]
      · cases hnext
    · rw [batches, if_neg hbatched] at hk
      rw [if_pos (by simpa [SendHandle.isBatched] using hbatched)] at hnext
      obtain ⟨-, rfl⟩ := Prod.mk.inj (Option.some.inj hnext)
      obtain rfl : k = 0 := by omega
      rfl

theorem Entry.congr (he : s.Entry h call k) (hcalls : s'.calls[h.serial]? = s.calls[h.serial]?)
    (hmax : s'.maxMsgSize = s.maxMsgSize) (hrank : s'.myRank = s.myRank)
    (hsent : batchesSent s'.log h.serial = batchesSent s.log h.serial)
    (hdone : timesDone s'.log h.serial = timesDone s.log h.serial) : s'.Entry h call k := by
  have hcreated : s'.created call h.serial = s.created call h.serial := by rw [created, created, hmax]
  exact ⟨hcalls.trans he.call_eq, he.tag_eq, he.dest_eq, by rw [hrank]; exact he.other,
    by rw [hcreated]; exact he.handle_eq, by rw [hcreated]; exact he.le, he.initiated_iff, hsent.trans he.sent,
    hdone.trans he.not_done⟩

theorem Gone.congr (hg : s.Gone n call) (hmax : s'.maxMsgSize = s.maxMsgSize) (hrank : s'.myRank = s.myRank)
    (hcallbacks : s'.sendDoneCallbacks = s.sendDoneCallbacks)
    (hsent : batchesSent s'.log n = batchesSent s.log n) (hdone : timesDone s'.log n = timesDone s.log n) :
    s'.Gone n call := by
  have hcreated : s'.created call n = s.created call n := by rw [created, created, hmax]
  exact ⟨by rw [hsent, hrank, hcreated]; exact hg.sent, by rw [hdone, hrank, hcallbacks]; exact hg.done⟩

theorem sendNext_ok (hok : s.sendNext h = .ok s') : ∃ message handle, h.handle.sendNext = some (message, handle) ∧
    s' = { s.pass { h with handle := handle, initiated := true } with
      log := s.log ++ [.isend h.serial h.handle.sentBatches] } := by
  rw [sendNext] at hok
  split at hok
  · cases hok
  · next message handle hnext => exact ⟨message, handle, hnext, (Except.ok.inj hok).symm⟩

theorem Entry.serial_lt (he : s.Entry h call k) : h.serial < s.calls.length :=
  (List.getElem?_eq_some_iff.mp he.call_eq).1

theorem Sound.serial_ne (hs : (s.joined (h :: rest)).Sound) :
    (∀ h' ∈ s.sendQueue, h'.serial < h.serial) ∧ ∀ h' ∈ rest, h.serial < h'.serial := by
  have hsorted := hs.sorted
  rw [joined, List.pairwise_append, List.pairwise_cons] at hsorted
  exact ⟨fun h' hmem => hsorted.2.2 h' hmem h List.mem_cons_self, hsorted.2.1.1⟩

structure SameCalls (s t : SendQueue) : Prop where
  calls : t.calls = s.calls
  maxMsgSize : t.maxMsgSize = s.maxMsgSize
  myRank : t.myRank = s.myRank
  callbacks : t.sendDoneCallbacks = s.sendDoneCallbacks
  nextId : t.runningSendId = s.runningSendId

section Replace

variable {t : SendQueue} {h' : Option QueuedSend}

theorem Sound.sorted_replace (hs : (s.joined (h :: rest)).Sound)
    (hqueue : t.sendQueue = s.sendQueue ++ (h'.toList ++ rest)) (hserial : ∀ x ∈ h'.toList, x.serial = h.serial) :
    t.sendQueue.Pairwise fun x y => x.serial < y.serial := by
  obtain ⟨hfront, hback⟩ := hs.serial_ne
  have hsorted := hs.sorted
  rw [joined, List.pairwise_append, List.pairwise_cons] at hsorted
  rw [hqueue, List.pairwise_append, List.pairwise_append]
  refine ⟨hsorted.1, ⟨?_, hsorted.2.1.2, ?_⟩, ?_⟩
  · cases h' with
    | none => exact List.Pairwise.nil
    | some x => exact List.pairwise_singleton _ x
  · intro x hx y hy
    rw [hserial x hx]
    exact hback y hy
  · intro x hx y hy
    rcases List.mem_append.mp hy with hy | hy
    · rw [hserial y hy]
      exact hfront x hx
    · exact (hfront x hx).trans (hback y hy)

theorem Sound.entries_replace (hs : (s.joined (h :: rest)).Sound) (hsame : SameCalls s t)
    (hqueue : t.sendQueue = s.sendQueue ++ (h'.toList ++ rest))
    (hlog : ∀ n, n ≠ h.serial → batchesSent t.log n = batchesSent s.log n ∧ timesDone t.log n = timesDone s.log n)
    (hentry : ∀ x ∈ h'.toList, ∃ call k, t.Entry x call k) : ∀ x ∈ t.sendQueue, ∃ call k, t.Entry x call k := by
  obtain ⟨hfront, hback⟩ := hs.serial_ne
  have hkept : ∀ x, x ∈ s.sendQueue ∨ x ∈ rest → x.serial ≠ h.serial → ∃ call k, t.Entry x call k := by
    intro x hx hne
    obtain ⟨call, k, he⟩ := hs.entries x (List.mem_append.mpr (hx.imp_right (List.mem_cons_of_mem h)))
    obtain ⟨hsent, hdone⟩ := hlog x.serial hne
    exact ⟨call, k, he.congr (by rw [hsame.calls]; rfl) hsame.maxMsgSize hsame.myRank hsent hdone⟩
  intro x hx
  rw [hqueue, List.mem_append, List.mem_append] at hx
  rcases hx with hx | hx | hx
  · exact hkept x (Or.inl hx) (hfront x hx).ne
  · exact hentry x hx
  · exact hkept x (Or.inr hx) (hback x hx).ne'

theorem Sound.gone_replace (hs : (s.joined (h :: rest)).Sound) (hsame : SameCalls s t)
    (hqueue : t.sendQueue = s.sendQueue ++ (h'.toList ++ rest)) (hserial : ∀ x ∈ h'.toList, x.serial = h.serial)
    (hlog : ∀ n, n ≠ h.serial → batchesSent t.log n = batchesSent s.log n ∧ timesDone t.log n = timesDone s.log n)
    (hgone : h' = none → ∀ call, t.calls[h.serial]? = some call → t.Gone h.serial call) {call : SendCall}
    (hcall : t.calls[n]? = some call) (hnot : ∀ x ∈ t.sendQueue, x.serial ≠ n) : t.Gone n call := by
  by_cases hn : n = h.serial
  · subst hn
    cases h' with
    | none => exact hgone rfl call hcall
    | some x =>
        refine absurd (hserial x (by simp)) (hnot x ?_)
        rw [hqueue]
        simp
  · rw [hsame.calls] at hcall
    obtain ⟨hsent, hdone⟩ := hlog n hn
    refine (hs.gone n call hcall ?_).congr hsame.maxMsgSize hsame.myRank hsame.callbacks hsent hdone
    intro x hx
    rcases List.mem_append.mp hx with hx | hx
    · exact hnot x (by rw [hqueue]; simp [hx])
    · rcases List.mem_cons.mp hx with rfl | hx
      · exact Ne.symm hn
      · exact hnot x (by rw [hqueue]; simp [hx])

/-- A turn of a loop changes only the place of one handle and what is logged about it. -/
theorem Sound.replace (h' : Option QueuedSend) (hs : (s.joined (h :: rest)).Sound) (hsame : SameCalls s t)
    (hqueue : t.sendQueue = s.sendQueue ++ (h'.toList ++ rest)) (hserial : ∀ x ∈ h'.toList, x.serial = h.serial)
    (hlog : ∀ n, n ≠ h.serial → batchesSent t.log n = batchesSent s.log n ∧ timesDone t.log n = timesDone s.log n)
    (hentry : ∀ x ∈ h'.toList, ∃ call k, t.Entry x call k)
    (hgone : h' = none → ∀ call, t.calls[h.serial]? = some call → t.Gone h.serial call)
    (hcount : t.numConcurrentSends = t.sendQueue.countP fun h => h.initiated)
    (hle : t.numConcurrentSends ≤ maxConcurrentSends) (hordered : (started t.log).Pairwise (· < ·))
    (hbefore : ∀ n ∈ started t.log, ∀ x ∈ t.sendQueue, x.initiated = false → n < x.serial) : t.Sound := by
  refine ⟨?_, ?_, hs.sorted_replace hqueue hserial, hs.entries_replace hsame hqueue hlog hentry, hcount, hle,
    fun n call => hs.gone_replace hsame hqueue hserial hlog hgone, ?_, hordered, hbefore⟩
  · rw [hsame.maxMsgSize]
    exact hs.positive
  · rw [hsame.nextId, hsame.calls]
    exact hs.nextId
  · intro n hn
    rw [hsame.calls] at hn
    obtain ⟨call, k, he⟩ := hs.entries h (by simp [joined])
    have hlt : h.serial < s.calls.length := he.serial_lt
    obtain ⟨hsent, hdone⟩ := hlog n (by omega)
    rw [hsent, hdone]
    exact hs.future n hn

end Replace

theorem Sound.ordered_isend (hs : (s.joined (h :: rest)).Sound) {batch : Int}
    (hzero : batch = 0 → h.initiated = false) :
    (started (s.log ++ [.isend h.serial batch])).Pairwise (· < ·) := by
  rw [started_isend]
  split
  · next heq =>
      refine List.pairwise_append.mpr ⟨hs.ordered, List.pairwise_singleton _ _, ?_⟩
      intro n hn x hx
      obtain rfl := List.mem_singleton.mp hx
      exact hs.before n hn h (by simp [joined]) (hzero heq)
  · rw [List.append_nil]
    exact hs.ordered

theorem Sound.before_isend (hs : (s.joined (h :: rest)).Sound) {batch : Int}
    (hzero : batch = 0 → ∀ h' ∈ s.sendQueue, h'.initiated = true) {x : QueuedSend} (hx : x ∈ s.sendQueue ∨ x ∈ rest)
    (hnot : x.initiated = false) (hn : n ∈ started (s.log ++ [.isend h.serial batch])) : n < x.serial := by
  rw [started_isend, List.mem_append] at hn
  rcases hn with hn | hn
  · exact hs.before n hn x (List.mem_append.mpr (hx.imp_right (List.mem_cons_of_mem h))) hnot
  · split at hn
    · next heq =>
        obtain rfl := List.mem_singleton.mp hn
        rcases hx with hx | hx
        · rw [hzero heq x hx] at hnot
          cases hnot
        · exact hs.serial_ne.2 x hx
    · cases hn

/-- One more batch of a message has been handed over, the first one only when no earlier message waits. -/
theorem Sound.sendNext (hs : (s.joined (h :: rest)).Sound) (he : (s.joined (h :: rest)).Entry h call k)
    (hk : k < batches (s.created call h.serial))
    (hfirst : h.initiated = false → (∀ h' ∈ s.sendQueue, h'.initiated = true) ∧
      s.numConcurrentSends < maxConcurrentSends) (hok : s.sendNext h = .ok s') :
    ({ s' with numConcurrentSends := s.numConcurrentSends + if h.initiated then 0 else 1 }.joined rest).Sound := by
  obtain ⟨message, handle, hnext, rfl⟩ := sendNext_ok hok
  have hhandle : h.handle = { s.created call h.serial with sentBatches := k } := he.handle_eq
  rw [hhandle] at hnext
  have hcounted := sendNext_created hs.positive hk hnext
  have hbatch : h.handle.sentBatches = k := by rw [hhandle]
  have huninitiated : h.handle.sentBatches = 0 → h.initiated = false := by
    intro hzero
    rw [← Bool.not_eq_true, he.initiated_iff]
    omega
  have hcount := hs.count
  have hle := hs.le
  simp only [joined, List.countP_append, List.countP_cons] at hcount
  refine Sound.replace (some { h with handle := handle, initiated := true }) hs ⟨rfl, rfl, rfl, rfl, rfl⟩
    (by simp [joined, pass]) (by simp) ?_ ?_ (by simp) ?_ ?_ ?_ ?_
  · intro n hn
    simp [joined, pass, Ne.symm hn]
  · simp only [Option.toList_some, List.mem_singleton, forall_eq]
    refine ⟨call, k + 1, he.call_eq, he.tag_eq, he.dest_eq, he.other, hcounted, hk, by simp, ?_, ?_⟩
    · have hsent := he.sent
      simp only [joined, pass] at hsent ⊢
      rw [batchesSent_isend, if_pos rfl, hsent, hbatch, List.range_succ, List.map_append]
      rfl
    · simpa [joined, pass] using he.not_done
  · simp only [joined, pass, List.countP_append, List.countP_cons, List.countP_nil]
    cases hinitiated : h.initiated <;> simp [hinitiated] at hcount ⊢ <;> omega
  · simp only [joined, pass]
    cases hinitiated : h.initiated with
    | true =>
        rw [if_pos rfl, add_zero]
        exact hle
    | false =>
        have hlt := (hfirst hinitiated).2
        simp only [Bool.false_eq_true, if_false]
        omega
  · exact hs.ordered_isend huninitiated
  · intro n hn x hx hnot
    simp only [joined, pass, List.mem_append] at hn hx
    rcases hx with (hx | hx) | hx
    · exact hs.before_isend (fun hzero => (hfirst (huninitiated hzero)).1) (Or.inl hx) hnot hn
    · rw [List.mem_singleton.mp hx] at hnot
      cases hnot
    · exact hs.before_isend (fun hzero => (hfirst (huninitiated hzero)).1) (Or.inr hx) hnot hn

theorem complete_frame (s : SendQueue) (h : QueuedSend) :
    ((s.complete h).log = s.log ∧ h.tag ∉ s.sendDoneCallbacks ∨
      (s.complete h).log = s.log ++ [.sendDone h.serial] ∧ h.tag ∈ s.sendDoneCallbacks) ∧
    (s.complete h).sendQueue = s.sendQueue ∧ SameCalls s (s.complete h) := by
  simp only [complete, signalCompletion]
  split
  · next hmem => exact ⟨Or.inr ⟨rfl, hmem⟩, rfl, rfl, rfl, rfl, rfl, rfl⟩
  · next hmem => exact ⟨Or.inl ⟨rfl, hmem⟩, rfl, rfl, rfl, rfl, rfl, rfl⟩

/-- A message leaves the queue when all of its batches have been sent. -/
theorem Sound.complete (hs : (s.joined (h :: rest)).Sound)
    (he : (s.joined (h :: rest)).Entry h call (batches (s.created call h.serial))) (hinitiated : h.initiated = true) :
    ((s.complete h).joined rest).Sound := by
  have hcount := hs.count
  have hle : s.numConcurrentSends ≤ maxConcurrentSends := hs.le
  simp only [joined, List.countP_append, List.countP_cons, hinitiated, if_true] at hcount
  obtain ⟨hlog, hqueue, hsame⟩ := s.complete_frame h
  have hnum : (s.complete h).numConcurrentSends = s.numConcurrentSends - 1 := rfl
  have hstarted : started (s.complete h).log = started s.log := by
    rcases hlog with ⟨hlog, -⟩ | ⟨hlog, -⟩ <;> simp [hlog]
  generalize s.complete h = t at hlog hqueue hsame hnum hstarted ⊢
  refine Sound.replace none hs ⟨hsame.calls, hsame.maxMsgSize, hsame.myRank, hsame.callbacks, hsame.nextId⟩
    (by simp [joined, hqueue]) (by simp) ?_ (by simp) ?_ ?_ ?_ ?_ ?_
  · intro n hn
    rcases hlog with ⟨hlog, -⟩ | ⟨hlog, -⟩ <;> simp [joined, hlog, Ne.symm hn]
  · intro _ call' hcall'
    have hcalls : (t.joined rest).calls = (s.joined (h :: rest)).calls := hsame.calls
    rw [hcalls] at hcall'
    obtain rfl := Option.some.inj (he.call_eq.symm.trans hcall')
    have hother : call.dest ≠ s.myRank := he.other
    have hsent : batchesSent s.log h.serial = _ := he.sent
    have hdone : timesDone s.log h.serial = 0 := he.not_done
    have hcreated : t.created call h.serial = s.created call h.serial := by rw [created, created, hsame.maxMsgSize]
    refine ⟨?_, ?_⟩
    · have hkept : batchesSent t.log h.serial = batchesSent s.log h.serial := by
        rcases hlog with ⟨hlog, -⟩ | ⟨hlog, -⟩ <;> simp [hlog]
      show batchesSent t.log h.serial =
        (List.range (if call.dest = t.myRank then 0 else batches (t.created call h.serial))).map _
      rw [hkept, hsame.myRank, if_neg hother, hcreated]
      exact hsent
    · have htag : h.tag = call.tag := he.tag_eq
      show timesDone t.log h.serial = if call.dest ≠ t.myRank ∧ call.tag ∈ t.sendDoneCallbacks then 1 else 0
      rw [hsame.myRank, hsame.callbacks]
      rcases hlog with ⟨hlog, hmem⟩ | ⟨hlog, hmem⟩
      · rw [if_neg fun hand => hmem (by rw [htag]; exact hand.2), hlog, hdone]
      · rw [if_pos ⟨hother, by rw [← htag]; exact hmem⟩, hlog, timesDone_sendDone, hdone, if_pos rfl]
  · simp only [joined, hqueue, hnum, List.countP_append]
    omega
  · simp only [joined, hnum]
    omega
  · simp only [joined, hstarted]
    exact hs.ordered
  · intro n hn x hx hnot
    simp only [joined, hstarted, hqueue, List.mem_append] at hn hx
    refine hs.before n hn x ?_ hnot
    rcases hx with hx | hx <;> simp [joined, hx]

theorem mem_batchesSent_of_started {log : List SendEvent} (hn : n ∈ started log) : (0 : Int) ∈ batchesSent log n := by
  rw [started, List.mem_filterMap] at hn
  obtain ⟨e, he, hsome⟩ := hn
  rw [batchesSent, List.mem_filterMap]
  refine ⟨e, he, ?_⟩
  cases e with
  | isend m batch =>
      simp only [Option.ite_none_right_eq_some, Option.some.injEq] at hsome ⊢
      exact ⟨hsome.2, hsome.1⟩
  | sendDone m => cases hsome

theorem started_sublist {log log' : List SendEvent} (hsub : log.Sublist log') :
    (started log).Sublist (started log') := hsub.filterMap _

theorem Sound.started_lt (hs : s.Sound) (hn : n ∈ started s.log) : n < s.calls.length := by
  by_contra hge
  have hsent := (hs.future n (Nat.le_of_not_lt hge)).1
  have hmem := mem_batchesSent_of_started hn
  rw [hsent] at hmem
  cases hmem

theorem nextId_succ (n : Nat) : int32 (int32 (n + 1) + 1) = int32 ((n + 1 : Nat) + 1) := by
  rw [int32, int32, int32, Int.bmod_add_bmod, Nat.cast_add, Nat.cast_one]

theorem Sound.kept_of_record (hs : s.Sound) (call : SendCall) :
    (∀ x ∈ s.sendQueue, ∃ call' k, (s.record call).Entry x call' k) ∧
      ∀ n call', n < s.calls.length → (s.record call).calls[n]? = some call' →
        (∀ x ∈ s.sendQueue, x.serial ≠ n) → (s.record call).Gone n call' := by
  have hold : ∀ n, n < s.calls.length → (s.record call).calls[n]? = s.calls[n]? := fun n hn =>
    List.getElem?_append_left hn
  refine ⟨?_, ?_⟩
  · intro x hx
    obtain ⟨call', k, he⟩ := hs.entries x hx
    exact ⟨call', k, he.congr (hold x.serial he.serial_lt) rfl rfl rfl rfl⟩
  · intro n call' hn hcall' hnot
    rw [hold n hn] at hcall'
    exact (hs.gone n call' hcall' hnot).congr rfl rfl rfl rfl rfl

theorem nextId_record (hs : s.Sound) (call : SendCall) :
    (s.record call).runningSendId = int32 ((s.record call).calls.length + 1) := by
  simp only [record, List.length_append, List.length_singleton]
  rw [hs.nextId, nextId_succ]

theorem Sound.toSelf (hs : s.Sound) (hself : call.dest = s.myRank) :
    { s.record call with selfRecvQueue := s.selfRecvQueue ++ [s.newSend call] }.Sound := by
  obtain ⟨hentries, hgone⟩ := hs.kept_of_record call
  refine ⟨hs.positive, nextId_record hs call, hs.sorted, ?_, hs.count, hs.le, ?_, ?_, hs.ordered, hs.before⟩
  · intro x hx
    obtain ⟨call', k, he⟩ := hentries x hx
    exact ⟨call', k, he.congr rfl rfl rfl rfl rfl⟩
  · intro n call' hcall' hnot
    by_cases hn : n < s.calls.length
    · exact (hgone n call' hn hcall' hnot).congr rfl rfl rfl rfl rfl
    · have hlt : n < (s.calls ++ [call]).length := (List.getElem?_eq_some_iff.mp hcall').1
      obtain rfl : n = s.calls.length := by
        rw [List.length_append, List.length_singleton] at hlt
        omega
      obtain rfl : call = call' := by simpa [record] using hcall'
      obtain ⟨hsent, hdone⟩ := hs.future s.calls.length le_rfl
      refine ⟨?_, ?_⟩
      · show batchesSent s.log s.calls.length =
          (List.range (if call.dest = s.myRank then 0 else batches (s.created call s.calls.length))).map _
        rw [hsent, if_pos hself]
        rfl
      · show timesDone s.log s.calls.length = if call.dest ≠ s.myRank ∧ call.tag ∈ s.sendDoneCallbacks then 1 else 0
        rw [hdone, if_neg fun hand => hand.1 hself]
  · intro n hn
    simp only [record, List.length_append, List.length_singleton] at hn
    exact hs.future n (by omega)

theorem Sound.toOther (hs : s.Sound) (hother : call.dest ≠ s.myRank) :
    ((s.record call).pass (s.newSend call)).Sound ∧
      ((s.record call).pass (s.newSend call)).Entry (s.newSend call) call 0 := by
  obtain ⟨hentries, hgone⟩ := hs.kept_of_record call
  obtain ⟨hsent, hdone⟩ := hs.future s.calls.length le_rfl
  have hnew : ((s.record call).pass (s.newSend call)).Entry (s.newSend call) call 0 := by
    refine ⟨by simp [pass, record, newSend], rfl, rfl, hother, ?_, Nat.zero_le _, ?_, hsent, hdone⟩
    · have hzero : (s.newSend call).handle.sentBatches = ((0 : Nat) : Int) := rfl
      have hhandle : (s.newSend call).handle = s.created call s.calls.length := by
        rw [newSend, created, hs.nextId]
      show (s.newSend call).handle = { s.created call s.calls.length with sentBatches := ((0 : Nat) : Int) }
      rw [← hzero, ← hhandle]
    · simp [newSend]
  refine ⟨⟨hs.positive, nextId_record hs call, ?_, ?_, ?_, hs.le, ?_, ?_, hs.ordered, ?_⟩, hnew⟩
  · refine List.pairwise_append.mpr ⟨hs.sorted, List.pairwise_singleton _ _, ?_⟩
    intro x hx y hy
    rw [List.mem_singleton.mp hy]
    obtain ⟨call', k, he⟩ := hs.entries x hx
    exact he.serial_lt
  · intro x hx
    rcases List.mem_append.mp hx with hx | hx
    · obtain ⟨call', k, he⟩ := hentries x hx
      exact ⟨call', k, he.congr rfl rfl rfl rfl rfl⟩
    · rw [List.mem_singleton.mp hx]
      exact ⟨call, 0, hnew⟩
  · have hcount := hs.count
    simp only [pass, record, newSend, List.countP_append, List.countP_singleton, hcount]
    simp
  · intro n call' hcall' hnot
    by_cases hn : n < s.calls.length
    · refine (hgone n call' hn hcall' fun x hx => hnot x ?_).congr rfl rfl rfl rfl rfl
      exact List.mem_append.mpr (Or.inl hx)
    · have hlt : n < (s.calls ++ [call]).length := (List.getElem?_eq_some_iff.mp hcall').1
      rw [List.length_append, List.length_singleton] at hlt
      refine absurd ?_ (hnot (s.newSend call) (by simp [pass]))
      simp only [newSend]
      omega
  · intro n hn
    simp only [pass, record, List.length_append, List.length_singleton] at hn
    exact hs.future n (by omega)
  · intro n hn x hx hnot
    rcases List.mem_append.mp hx with hx | hx
    · exact hs.before n hn x hx hnot
    · rw [List.mem_singleton.mp hx]
      exact hs.started_lt hn

theorem joined_pass : (s.pass h).joined rest = s.joined (h :: rest) := by
  rw [joined, joined, pass, List.append_assoc]
  rfl

theorem joined_nil : s.joined [] = s := by
  rw [joined, List.append_nil]

theorem batches_pos (h : SendHandle) : 0 < batches h := by
  rw [batches]
  split
  · next hbatched =>
      simp only [SendHandle.isBatched, decide_eq_true_eq] at hbatched
      omega
  · exact Nat.one_pos

theorem Entry.isBatched_eq (he : s.Entry h call k) : h.handle.isBatched = (s.created call h.serial).isBatched := by
  rw [he.handle_eq, SendHandle.isBatched, SendHandle.isBatched]

theorem Entry.isFinished_iff (he : s.Entry h call k) :
    h.handle.isFinished = true ↔ (k : Int) = (s.created call h.serial).totalNumBatches := by
  rw [he.handle_eq, SendHandle.isFinished, decide_eq_true_eq]

theorem Entry.lt_batches (he : s.Entry h call k) (hmore : (h.handle.isBatched && !h.handle.isFinished) = true) :
    k < batches (s.created call h.serial) := by
  rw [Bool.and_eq_true, Bool.not_eq_true', ← Bool.not_eq_true, he.isFinished_iff, he.isBatched_eq] at hmore
  obtain ⟨hbatched, hmore⟩ := hmore
  have hle := he.le
  have htotal : 1 < (s.created call h.serial).totalNumBatches := by simpa [SendHandle.isBatched] using hbatched
  rw [batches, if_pos hbatched] at hle ⊢
  omega

theorem Entry.eq_batches (he : s.Entry h call k) (hinitiated : h.initiated = true)
    (hmore : ¬(h.handle.isBatched && !h.handle.isFinished) = true) : k = batches (s.created call h.serial) := by
  have hpos := he.initiated_iff.mp hinitiated
  have hle := he.le
  rw [Bool.and_eq_true, Bool.not_eq_true', ← Bool.not_eq_true, he.isFinished_iff, he.isBatched_eq] at hmore
  by_cases hbatched : (s.created call h.serial).isBatched = true
  · rw [batches, if_pos hbatched] at hle ⊢
    have hfinished : (k : Int) = (s.created call h.serial).totalNumBatches := by
      by_contra hne
      exact hmore ⟨hbatched, hne⟩
    omega
  · rw [batches, if_neg hbatched] at hle ⊢
    omega

theorem initiated_append (hfront : ∀ x ∈ s.sendQueue, x.initiated = true) {x : QueuedSend} (hx : x.initiated = true) :
    ∀ y ∈ s.sendQueue ++ [x], y.initiated = true := by
  intro y hy
  rcases List.mem_append.mp hy with hy | hy
  · exact hfront y hy
  · rw [List.mem_singleton.mp hy]
    exact hx

theorem Sound.testSends {completes : Nat → Bool} {present present' : Bool} (hs : (s.joined rest).Sound)
    (hfront : present = false → ∀ x ∈ s.sendQueue, x.initiated = true)
    (hok : SendQueue.testSends completes rest s present = .ok (s', present')) :
    s'.Sound ∧ (present' = false → ∀ x ∈ s'.sendQueue, x.initiated = true) := by
  induction rest generalizing s present with
  | nil =>
      obtain ⟨rfl, rfl⟩ := Prod.mk.inj (Except.ok.inj hok)
      rw [joined_nil] at hs
      exact ⟨hs, hfront⟩
  | cons h rest ih =>
      obtain ⟨call, k, he⟩ := hs.entries h (by simp [joined])
      rw [SendQueue.testSends] at hok
      cases hinitiated : h.initiated with
      | false =>
          rw [if_pos (by simp [hinitiated])] at hok
          rw [← joined_pass] at hs
          exact @ih (s.pass h) true hs (by simp) hok
      | true =>
          rw [if_neg (by simp [hinitiated])] at hok
          split at hok
          · rw [← joined_pass] at hs
            exact ih hs (fun hpresent => initiated_append (hfront hpresent) hinitiated) hok
          · split at hok
            · next hmore =>
                obtain ⟨s₁, hsent, hrest⟩ := exists_of_bind_eq_ok hok
                have hnext := hs.sendNext he (he.lt_batches hmore) (fun hfalse => by simp [hinitiated] at hfalse) hsent
                rw [if_pos hinitiated, add_zero] at hnext
                obtain ⟨message, handle, -, rfl⟩ := sendNext_ok hsent
                exact ih hnext (fun hpresent => initiated_append (hfront hpresent) rfl) hrest
            · next hmore =>
                have hk := he.eq_batches hinitiated hmore
                subst hk
                refine ih (hs.complete he hinitiated) ?_ hok
                intro hpresent x hx
                refine hfront hpresent x ?_
                simp only [SendQueue.complete, signalCompletion] at hx
                split at hx <;> exact hx

theorem Sound.initiateSends (hs : (s.joined rest).Sound) (hfront : ∀ x ∈ s.sendQueue, x.initiated = true)
    (hok : SendQueue.initiateSends rest s = .ok s') : s'.Sound ∧ s'.Busy := by
  induction rest generalizing s with
  | nil =>
      obtain rfl := Except.ok.inj hok
      rw [joined_nil] at hs
      refine ⟨hs, ?_⟩
      rintro ⟨x, hx, hnot⟩
      rw [hfront x hx] at hnot
      cases hnot
  | cons h rest ih =>
      obtain ⟨call, k, he⟩ := hs.entries h (by simp [joined])
      rw [SendQueue.initiateSends] at hok
      split at hok
      · next hfree =>
          cases hinitiated : h.initiated with
          | false =>
              rw [if_pos (by simp [hinitiated])] at hok
              obtain ⟨s₁, hsent, hrest⟩ := exists_of_bind_eq_ok hok
              have hzero : ¬0 < k := fun hpos => by
                rw [he.initiated_iff.mpr hpos] at hinitiated
                cases hinitiated
              have hk : k < batches (s.created call h.serial) := (Nat.le_of_not_lt hzero).trans_lt (batches_pos _)
              have hnext := hs.sendNext he hk (fun _ => ⟨hfront, hfree⟩) hsent
              rw [if_neg (by simp [hinitiated])] at hnext
              obtain ⟨message, handle, -, rfl⟩ := sendNext_ok hsent
              exact ih hnext (initiated_append hfront rfl) hrest
          | true =>
              rw [if_neg (by simp [hinitiated])] at hok
              rw [← joined_pass] at hs
              exact ih hs (initiated_append hfront hinitiated) hok
      · next hfull =>
          obtain rfl := Except.ok.inj hok
          refine ⟨hs, fun _ => ?_⟩
          exact le_antisymm hs.le (Int.not_lt.mp hfull)

theorem Sound.processSent {completes : Nat → Bool} (hs : s.Sound) (hok : s.processSent completes = .ok s') :
    s'.Sound ∧ s'.Busy := by
  obtain ⟨⟨s₁, present⟩, htest, hrest⟩ := exists_of_bind_eq_ok hok
  obtain ⟨hs₁, hinitiated⟩ := Sound.testSends (s := { s with sendQueue := [] }) hs (fun _ x hx => by cases hx) htest
  cases present with
  | false =>
      obtain rfl := Except.ok.inj hrest
      refine ⟨hs₁, ?_⟩
      rintro ⟨x, hx, hnot⟩
      rw [hinitiated rfl x hx] at hnot
      cases hnot
  | true => exact Sound.initiateSends (s := { s₁ with sendQueue := [] }) hs₁ (fun x hx => by cases hx) hrest

theorem Sound.send (hs : s.Sound) (hbusy : s.Busy) (hok : s.send call = .ok s') : s'.Sound ∧ s'.Busy := by
  rw [SendQueue.send] at hok
  split at hok
  · next hself =>
      obtain rfl := Except.ok.inj hok
      exact ⟨hs.toSelf hself, hbusy⟩
  · next hother =>
      obtain ⟨hnew, he⟩ := hs.toOther hother
      split at hok
      · next hfree =>
          have hall : ∀ x ∈ s.sendQueue, x.initiated = true := by
            intro x hx
            by_contra hnot
            have hfull := hbusy ⟨x, hx, by simpa using hnot⟩
            exact hfree.ne hfull
          cases hsent : (s.record call).sendNext (s.newSend call) with
          | error e =>
              rw [hsent] at hok
              cases hok
          | ok s₁ =>
              rw [hsent] at hok
              obtain rfl := Except.ok.inj hok
              have hjoined : ((s.record call).joined [s.newSend call]).Sound := hnew
              have hnext := hjoined.sendNext he (batches_pos _) (fun _ => ⟨hall, hfree⟩) hsent
              obtain ⟨message, handle, -, rfl⟩ := sendNext_ok hsent
              rw [joined_nil] at hnext
              refine ⟨hnext, ?_⟩
              rintro ⟨x, hx, hnot⟩
              rw [initiated_append hall rfl x hx] at hnot
              cases hnot
      · next hfull =>
          obtain rfl := Except.ok.inj hok
          exact ⟨hnew, fun _ => le_antisymm hs.le (Int.not_lt.mp hfull)⟩

theorem SameCalls.trans {t u : SendQueue} (h : SameCalls s t) (h' : SameCalls t u) : SameCalls s u :=
  ⟨h'.calls.trans h.calls, h'.maxMsgSize.trans h.maxMsgSize, h'.myRank.trans h.myRank,
    h'.callbacks.trans h.callbacks, h'.nextId.trans h.nextId⟩

theorem sameCalls_sendNext (hok : s.sendNext h = .ok s') : SameCalls s s' := by
  obtain ⟨message, handle, -, rfl⟩ := sendNext_ok hok
  exact ⟨rfl, rfl, rfl, rfl, rfl⟩

theorem sameCalls_testSends {completes : Nat → Bool} {present present' : Bool}
    (hok : SendQueue.testSends completes rest s present = .ok (s', present')) : SameCalls s s' := by
  induction rest generalizing s present with
  | nil =>
      obtain ⟨rfl, -⟩ := Prod.mk.inj (Except.ok.inj hok)
      exact ⟨rfl, rfl, rfl, rfl, rfl⟩
  | cons h rest ih =>
      have hpass : SameCalls s (s.pass h) := ⟨rfl, rfl, rfl, rfl, rfl⟩
      rw [SendQueue.testSends] at hok
      split at hok
      · exact hpass.trans (ih hok)
      · split at hok
        · exact hpass.trans (ih hok)
        · split at hok
          · obtain ⟨s₁, hsent, hrest⟩ := exists_of_bind_eq_ok hok
            exact (sameCalls_sendNext hsent).trans (ih hrest)
          · exact (s.complete_frame h).2.2.trans (ih hok)

theorem sameCalls_initiateSends (hok : SendQueue.initiateSends rest s = .ok s') : SameCalls s s' := by
  induction rest generalizing s with
  | nil =>
      obtain rfl := Except.ok.inj hok
      exact ⟨rfl, rfl, rfl, rfl, rfl⟩
  | cons h rest ih =>
      rw [SendQueue.initiateSends] at hok
      split at hok
      · split at hok
        · obtain ⟨s₁, hsent, hrest⟩ := exists_of_bind_eq_ok hok
          have hcounted : SameCalls s₁ s₁.countInitiated := ⟨rfl, rfl, rfl, rfl, rfl⟩
          exact (sameCalls_sendNext hsent).trans (hcounted.trans (ih hrest))
        · have hpass : SameCalls s (s.pass h) := ⟨rfl, rfl, rfl, rfl, rfl⟩
          exact hpass.trans (ih hok)
      · obtain rfl := Except.ok.inj hok
        exact ⟨rfl, rfl, rfl, rfl, rfl⟩

theorem sameCalls_processSent {completes : Nat → Bool} (hok : s.processSent completes = .ok s') : SameCalls s s' := by
  obtain ⟨⟨s₁, present⟩, htest, hrest⟩ := exists_of_bind_eq_ok hok
  have hfirst : SameCalls s { s with sendQueue := [] } := ⟨rfl, rfl, rfl, rfl, rfl⟩
  have htested := hfirst.trans (sameCalls_testSends htest)
  cases present with
  | false =>
      obtain rfl := Except.ok.inj hrest
      exact htested
  | true =>
      have hsecond : SameCalls s₁ { s₁ with sendQueue := [] } := ⟨rfl, rfl, rfl, rfl, rfl⟩
      exact htested.trans (hsecond.trans (sameCalls_initiateSends hrest))

theorem sameCalls_send (hok : s.send call = .ok s') : SameCalls (s.record call) s' := by
  rw [SendQueue.send] at hok
  split at hok
  · obtain rfl := Except.ok.inj hok
    exact ⟨rfl, rfl, rfl, rfl, rfl⟩
  · split at hok
    · obtain ⟨s₁, hsent, hcounted⟩ := exists_of_map_eq_ok hok
      subst hcounted
      exact (sameCalls_sendNext hsent).trans ⟨rfl, rfl, rfl, rfl, rfl⟩
    · obtain rfl := Except.ok.inj hok
      exact ⟨rfl, rfl, rfl, rfl, rfl⟩

section Run

variable {maxMsgSize myRank : Int} {callbacks : List Int} {actions : List Action}

def Action.call? : Action → Option SendCall
  | .send call => some call
  | .processSent _ => none

theorem calls_run (hrun : run step (start maxMsgSize myRank callbacks) actions = .ok s) :
    s.calls = actions.filterMap Action.call? ∧ s.maxMsgSize = maxMsgSize ∧ s.myRank = myRank ∧
      s.sendDoneCallbacks = callbacks := by
  induction actions using List.reverseRecOn generalizing s with
  | nil =>
      obtain rfl := Except.ok.inj hrun
      exact ⟨rfl, rfl, rfl, rfl⟩
  | append_singleton actions a ih =>
      obtain ⟨s₁, hfirst, hlast⟩ := run_concat hrun
      obtain ⟨hcalls, hmax, hrank, hcallbacks⟩ := ih hfirst
      rw [List.filterMap_append, ← hcalls, ← hmax, ← hrank, ← hcallbacks]
      cases a with
      | send call =>
          have hsame := sameCalls_send hlast
          exact ⟨hsame.calls, hsame.maxMsgSize, hsame.myRank, hsame.callbacks⟩
      | processSent completes =>
          have hsame := sameCalls_processSent hlast
          exact ⟨by rw [hsame.calls]; simp [Action.call?], hsame.maxMsgSize, hsame.myRank, hsame.callbacks⟩

theorem sound_start (hmax : 0 < maxMsgSize) :
    (start maxMsgSize myRank callbacks).Sound ∧ (start maxMsgSize myRank callbacks).Busy := by
  have hid : (1 : Int) = int32 ((0 : Nat) + 1) := by decide
  refine ⟨⟨hmax, hid, List.Pairwise.nil, ?_, rfl, ?_, ?_, fun n _ => ⟨rfl, rfl⟩, List.Pairwise.nil, ?_⟩, ?_⟩
  · intro h hh
    cases hh
  · exact Int.zero_le_ofNat 16
  · intro n call hcall
    cases hcall
  · intro n hn
    cases hn
  · rintro ⟨h, hh, -⟩
    cases hh

theorem sound_run (hmax : 0 < maxMsgSize) (hrun : run step (start maxMsgSize myRank callbacks) actions = .ok s) :
    s.Sound ∧ s.Busy := by
  refine run_invariant (P := fun s => s.Sound ∧ s.Busy) (sound_start hmax) (fun s a s' hs hok => ?_) hrun
  cases a with
  | send call => exact hs.1.send hs.2 hok
  | processSent completes => exact hs.1.processSent hok

/-- A message to another rank is in the queue, with some first batches sent, or it has been sent as a whole and its
callback, if there is one, has been called once. -/
def Accounted (s : SendQueue) (n : Nat) (call : SendCall) : Prop :=
  (∃ h ∈ s.sendQueue, h.serial = n ∧ ∃ k, k ≤ batches (s.created call n) ∧ (h.initiated = true ↔ 0 < k) ∧
    batchesSent s.log n = (List.range k).map (fun i : Nat => (i : Int)) ∧ timesDone s.log n = 0) ∨
  (∀ h ∈ s.sendQueue, h.serial ≠ n) ∧
    batchesSent s.log n = (List.range (batches (s.created call n))).map (fun i : Nat => (i : Int)) ∧
    timesDone s.log n = if call.tag ∈ s.sendDoneCallbacks then 1 else 0

theorem Sound.accounted (hs : s.Sound) (hcall : s.calls[n]? = some call) (hother : call.dest ≠ s.myRank) :
    s.Accounted n call := by
  by_cases hmem : ∃ h ∈ s.sendQueue, h.serial = n
  · obtain ⟨h, hh, rfl⟩ := hmem
    obtain ⟨call', k, he⟩ := hs.entries h hh
    obtain rfl := Option.some.inj (he.call_eq.symm.trans hcall)
    exact Or.inl ⟨h, hh, rfl, k, he.le, he.initiated_iff, he.sent, he.not_done⟩
  · have hnot : ∀ h ∈ s.sendQueue, h.serial ≠ n := fun h hh heq => hmem ⟨h, hh, heq⟩
    have hgone := hs.gone n call hcall hnot
    have hsent := hgone.sent
    have hdone := hgone.done
    rw [if_neg hother] at hsent
    simp only [ne_eq, hother, not_false_eq_true, true_and] at hdone
    exact Or.inr ⟨hnot, hsent, hdone⟩

theorem Sound.batch_eq_zero (hs : s.Sound) {batch : Int} (hmem : .isend n batch ∈ s.log)
    (hunbatched : ∀ call, s.calls[n]? = some call → (s.created call n).isBatched = false) : batch = 0 := by
  have hbatch : batch ∈ batchesSent s.log n := by
    rw [batchesSent, List.mem_filterMap]
    exact ⟨_, hmem, if_pos rfl⟩
  have hlt : n < s.calls.length := by
    by_contra hge
    rw [(hs.future n (Nat.le_of_not_lt hge)).1] at hbatch
    cases hbatch
  have hcall := List.getElem?_eq_getElem hlt
  have hone : batches (s.created s.calls[n] n) = 1 := by
    rw [batches, if_neg (by simp [hunbatched _ hcall])]
  have hrange : ∃ k, k ≤ 1 ∧ batchesSent s.log n = (List.range k).map fun i : Nat => (i : Int) := by
    by_cases hmem : ∃ h ∈ s.sendQueue, h.serial = n
    · obtain ⟨h, hh, rfl⟩ := hmem
      obtain ⟨call', k, he⟩ := hs.entries h hh
      obtain rfl := Option.some.inj (he.call_eq.symm.trans hcall)
      exact ⟨k, he.le.trans hone.le, he.sent⟩
    · have hgone := hs.gone n _ hcall fun h hh heq => hmem ⟨h, hh, heq⟩
      refine ⟨_, ?_, hgone.sent⟩
      split
      · exact Nat.zero_le 1
      · exact hone.le
  obtain ⟨k, hk, hsent⟩ := hrange
  rw [hsent, List.mem_map] at hbatch
  obtain ⟨i, hi, rfl⟩ := hbatch
  rw [List.mem_range] at hi
  omega

/-- In every state that is reached the slots are counted and used, each message is sent once and as a whole before it
leaves the queue, and messages that are not batched are handed to MPI in the order of the calls. -/
theorem sends_once_in_order (hmax : 0 < maxMsgSize)
    (hrun : run step (start maxMsgSize myRank callbacks) actions = .ok s) :
    s.calls = actions.filterMap Action.call? ∧
    s.numConcurrentSends = s.sendQueue.countP (fun h => h.initiated) ∧ s.numConcurrentSends ≤ 16 ∧
    ((∃ h ∈ s.sendQueue, h.initiated = false) → s.numConcurrentSends = 16) ∧
    (∀ n call, s.calls[n]? = some call → call.dest ≠ myRank → s.Accounted n call) ∧
    ∀ m n b b', [.isend m b, .isend n b'].Sublist s.log →
      (∀ call, s.calls[m]? = some call → (s.created call m).isBatched = false) →
      (∀ call, s.calls[n]? = some call → (s.created call n).isBatched = false) → m < n := by
  obtain ⟨hs, hbusy⟩ := sound_run hmax hrun
  obtain ⟨hcalls, -, hrank, -⟩ := calls_run hrun
  refine ⟨hcalls, hs.count, hs.le, hbusy, ?_, ?_⟩
  · intro n call hcall hother
    exact hs.accounted hcall (by rw [hrank]; exact hother)
  · intro m n b b' hsub hm hn
    obtain rfl := hs.batch_eq_zero (hsub.subset List.mem_cons_self) hm
    obtain rfl := hs.batch_eq_zero (hsub.subset (List.mem_cons_of_mem _ List.mem_cons_self)) hn
    have hstarted : [m, n].Sublist (started s.log) := started_sublist hsub
    exact List.rel_of_pairwise_cons (hs.ordered.sublist hstarted) List.mem_cons_self

/-- A message of three batches, one to the own rank and twenty small ones, before some requests are completed three
times. -/
def crowdedActions : List Action :=
  .send ⟨List.replicate 30 1, 1, 7⟩ :: .send ⟨[2], 0, 7⟩ ::
    (List.replicate 20 (.send ⟨[3], 2, 7⟩) ++
      [.processSent fun n => n < 3, .processSent fun n => n = 0 ∨ n = 5, .processSent fun n => n = 0])

/-- The last two messages still wait for a slot. -/
theorem sends_once_in_order_crowded : ∃ s, run step (start 10 0 [7]) crowdedActions = .ok s ∧
    batchesSent s.log 0 = [0, 1, 2] ∧ (s.sendQueue.filter fun h => !h.initiated).map QueuedSend.serial = [20, 21] ∧
    (s.calls = crowdedActions.filterMap Action.call? ∧
    s.numConcurrentSends = s.sendQueue.countP (fun h => h.initiated) ∧ s.numConcurrentSends ≤ 16 ∧
    ((∃ h ∈ s.sendQueue, h.initiated = false) → s.numConcurrentSends = 16) ∧
    (∀ n call, s.calls[n]? = some call → call.dest ≠ 0 → s.Accounted n call) ∧
    ∀ m n b b', [.isend m b, .isend n b'].Sublist s.log →
      (∀ call, s.calls[m]? = some call → (s.created call m).isBatched = false) →
      (∀ call, s.calls[n]? = some call → (s.created call n).isBatched = false) → m < n) := by
  have hrun : ((run step (start 10 0 [7]) crowdedActions).toOption.map fun s =>
      (batchesSent s.log 0, (s.sendQueue.filter fun h => !h.initiated).map QueuedSend.serial)) =
      some ([0, 1, 2], [20, 21]) := by
    decide +kernel
  obtain ⟨s, hs, heq⟩ := exists_of_toOption hrun
  obtain ⟨hbatches, hwaiting⟩ := Prod.mk.inj heq
  exact ⟨s, hs, hbatches, hwaiting, sends_once_in_order (by decide) hs⟩

end Run

end SendQueue

end Mallob.MessageQueue
