import Mallob.RangeChains
import Mallob.Runs

namespace Mallob.RingbufThreads

structure Next where
  off : Nat
  counter : Nat
  locked : Bool
deriving DecidableEq, Repr

/-- The word seen_off of a producer: RBUF_OFF_MAX, or an offset that may be marked as unstable. -/
inductive SeenOff
  | max
  | at (off : Nat) (unstable : Bool)
deriving DecidableEq, Repr

/-- Where a producer stands in its call: in ringbuf_acquire with the values it has observed, or copying its data
into the acquired range, with ringbuf_produce once all of it is copied. -/
inductive Producing (α : Type)
  | idle
  | loadNext (data : List α)
  | storeSeen (data : List α) (seen : Next)
  | loadWritten (data : List α) (seen : Next)
  | giveUp
  | compareExchange (data : List α) (seen target : Next)
  | clearUnstable (data : List α) (seen target : Next)
  | storeEnd (data : List α) (seen target : Next)
  | unlock (data : List α) (seen target : Next)
  | copy (data : List α) (offset copied : Nat)

structure Worker (α : Type) where
  seenOff : SeenOff := .max
  call : Producing α := .idle

/-- Where the consumer stands: in ringbuf_consume, with the NEXT offset and the ready offset as far as it has
scanned the producers, or copying the range it got, which is released once all of it is copied. -/
inductive Consuming (α : Type)
  | idle
  | loadNext
  | scan (next i : Nat) (ready : Option Nat)
  | clearEnd
  | resetWritten
  | copy (size : Nat) (copied : List α)

/-- RBUF_OFF_MAX as the end offset is none. The productions that were acquired, in the order in which NEXT was
advanced, the values that were consumed, and the number of all wrap-arounds are not part of the program. -/
structure State (α : Type) where
  space : Nat
  nworkers : Nat
  cells : Nat → α
  next : Next := ⟨0, 0, false⟩
  fin : Option Nat := none
  written : Nat := 0
  workers : Nat → Worker α := fun _ => {}
  consumer : Consuming α := .idle
  acquired : List (List α) := []
  consumed : List α := []
  wraps : Nat := 0

inductive Fault
  | assertion
deriving DecidableEq, Repr

variable {α : Type}

/-- The target offset for a range of a length, none where the producer must wait. -/
def target (space : Nat) (seen : Next) (len written : Nat) : Option Next :=
  let target := seen.off + len
  if seen.off < written ∧ target ≥ written then none
  else if target ≥ space then
    let exceed := target > space
    let off := if exceed then len else 0
    if off ≥ written then none else some ⟨off, (seen.counter + 1) % 2 ^ 31, exceed⟩
  else some ⟨target, seen.counter, false⟩

def acquiredOffset (seen target : Next) : Nat := if target.locked then 0 else seen.off

namespace State

def setWorker (s : State α) (w : Nat) (x : Worker α) : State α := { s with workers := Function.update s.workers w x }

def setCall (s : State α) (w : Nat) (call : Producing α) : State α := s.setWorker w { s.workers w with call := call }

def acquire (s : State α) (w : Nat) (data : List α) : Except Fault (State α) :=
  if s.nworkers ≤ w then .error .assertion
  else match (s.workers w).call with
    | .idle =>
        if 0 < data.length ∧ data.length ≤ s.space ∧ (s.workers w).seenOff = .max then
          .ok (s.setCall w (.loadNext data))
        else .error .assertion
    | _ => .ok s

/-- The exchange may also fail where the words are equal. -/
def compareExchange (s : State α) (w : Nat) (data : List α) (seen target : Next) (spurious : Bool) : State α :=
  if s.next = seen ∧ !spurious then
    { s.setCall w (.clearUnstable data seen target) with
      next := target
      acquired := s.acquired ++ [data]
      wraps := if s.space ≤ seen.off + data.length then s.wraps + 1 else s.wraps }
  else s.setCall w (.loadNext data)

def produce (s : State α) (w : Nat) (spurious : Bool) : Except Fault (State α) :=
  match (s.workers w).call with
  | .idle => .ok s
  | .loadNext data =>
      if s.next.locked then .ok s
      else if s.next.off < s.space then .ok (s.setCall w (.storeSeen data s.next))
      else .error .assertion
  | .storeSeen data seen => .ok (s.setWorker w ⟨.at seen.off true, .loadWritten data seen⟩)
  | .loadWritten data seen =>
      match target s.space seen data.length s.written with
      | none => .ok (s.setCall w .giveUp)
      | some target => .ok (s.setCall w (.compareExchange data seen target))
  | .giveUp => .ok (s.setWorker w ⟨.max, .idle⟩)
  | .compareExchange data seen target => .ok (s.compareExchange w data seen target spurious)
  | .clearUnstable data seen target =>
      let call := if target.locked then .storeEnd data seen target else .copy data (acquiredOffset seen target) 0
      if target.off ≤ s.space then .ok (s.setWorker w ⟨.at seen.off false, call⟩) else .error .assertion
  | .storeEnd data seen target =>
      if s.written ≤ seen.off ∧ s.fin = none then
        .ok { s.setCall w (.unlock data seen target) with fin := some seen.off }
      else .error .assertion
  | .unlock data seen target =>
      .ok { s.setCall w (.copy data (acquiredOffset seen target) 0) with next := { target with locked := false } }
  | .copy data offset copied =>
      match data[copied]? with
      | some x =>
          .ok { s.setCall w (.copy data offset (copied + 1)) with
            cells := Function.update s.cells (offset + copied) x }
      | none => if (s.workers w).seenOff ≠ .max then .ok (s.setWorker w ⟨.max, .idle⟩) else .error .assertion

def beginConsume (s : State α) : State α :=
  match s.consumer with
  | .idle => { s with consumer := .loadNext }
  | _ => s

def observe (written : Nat) (ready : Option Nat) (seenOff : Nat) : Option Nat :=
  if written ≤ seenOff then some (ready.elim seenOff (min seenOff)) else ready

def finishScan (s : State α) (next : Nat) (ready : Option Nat) : Except Fault (State α) :=
  if next < s.written then
    let fin := min s.space (s.fin.getD s.space)
    if ready = none ∧ s.written = fin then .ok { s with consumer := .clearEnd }
    else
      let ready' := min (ready.getD fin) fin
      if ready.all (next < ·) ∧ s.written ≤ ready' ∧ ready' - s.written ≤ s.space then
        .ok { s with consumer := if ready' - s.written = 0 then .idle else .copy (ready' - s.written) [] }
      else .error .assertion
  else
    let ready' := min (ready.getD next) next
    if s.written ≤ ready' ∧ ready' - s.written ≤ s.space then
      .ok { s with consumer := if ready' - s.written = 0 then .idle else .copy (ready' - s.written) [] }
    else .error .assertion

def release (s : State α) (nbytes : Nat) : Except Fault (State α) :=
  let nwritten := s.written + nbytes
  if s.written ≤ s.space ∧ s.written ≤ s.fin.getD s.space ∧ nwritten ≤ s.space then
    .ok { s with written := if nwritten = s.space then 0 else nwritten, consumer := .idle }
  else .error .assertion

def consume (s : State α) : Except Fault (State α) :=
  match s.consumer with
  | .idle => .ok s
  | .loadNext =>
      if s.next.locked then .ok s
      else if s.next.off < s.space then
        .ok { s with consumer := if s.written = s.next.off then .idle else .scan s.next.off 0 none }
      else .error .assertion
  | .scan next i ready =>
      if i < s.nworkers then
        match (s.workers i).seenOff with
        | .max => .ok { s with consumer := .scan next (i + 1) ready }
        | .at _ true => .ok s
        | .at off false =>
            let ready := observe s.written ready off
            if ready.all (s.written ≤ ·) then .ok { s with consumer := .scan next (i + 1) ready }
            else .error .assertion
      else s.finishScan next ready
  | .clearEnd => .ok { s with fin := none, consumer := .resetWritten }
  | .resetWritten => .ok { s with written := 0, consumer := .loadNext }
  | .copy size copied =>
      if copied.length < size then
        .ok { s with consumer := .copy size (copied ++ [s.cells (s.written + copied.length)]) }
      else (s.release size).map fun s' => { s' with consumed := s.consumed ++ copied }

end State

inductive Action (α : Type)
  | acquire (w : Nat) (data : List α)
  | produce (w : Nat) (spurious : Bool)
  | beginConsume
  | consume

def step (s : State α) : Action α → Except Fault (State α)
  | .acquire w data => s.acquire w data
  | .produce w spurious => s.produce w spurious
  | .beginConsume => .ok s.beginConsume
  | .consume => s.consume

def Action.Proper (s : State α) : Action α → Prop
  | .acquire w data => w < s.nworkers ∧ 0 < data.length ∧ data.length ≤ s.space
  | _ => True

def Producing.holding : Producing α → Option (Nat × List α)
  | .clearUnstable data seen target => some (acquiredOffset seen target, data)
  | .storeEnd data seen target => some (acquiredOffset seen target, data)
  | .unlock data seen target => some (acquiredOffset seen target, data)
  | .copy data offset _ => some (offset, data)
  | _ => none

end Mallob.RingbufThreads
