import Mallob.VolumeCalculator
import Mallob.BalancerTree
import Mallob.Network
import Mallob.Runs

namespace Mallob

/-- What a rank can die of: a failed assertion, or the abort() of filterBy. -/
inductive Fault
  | assertion
  | conflict
deriving DecidableEq, Repr

structure BalancerConfig where
  size : Nat
  loadFactor : ℚ
  hash : Int → Nat
  fuel : Nat

inductive BalancerTag
  | reduceData
  | broadcastData
deriving DecidableEq, Repr

/-- The members of one rank's balancer which take part in the balancing. The
list digested is the log of the maps passed to digest. -/
structure EventDrivenBalancer where
  states : EventMap
  diffs : EventMap
  balancingEpoch : Nat
  jobVolumes : List (Int × Int)
  digested : List EventMap

namespace EventDrivenBalancer

open VolumeCalculator BalancerTree

def start : EventDrivenBalancer where
  states := .empty
  diffs := .empty
  balancingEpoch := 0
  jobVolumes := []
  digested := []

/-- The new job volumes; none is a failed assertion of the calculation. -/
def computeBalancingResult (cfg : BalancerConfig) (states : EventMap) : Option (List (Int × Int)) :=
  if states.isEmpty then some []
  else do
    let calculator ← VolumeCalculator.new states cfg.size cfg.loadFactor
    let result ← calculateResult cfg.hash cfg.fuel calculator
    some (result.entries.map fun entry => (entry.jobId, entry.volume))

def digest (cfg : BalancerConfig) (b : EventDrivenBalancer) (data : EventMap) : Except Fault EventDrivenBalancer :=
  let states := (b.states.updateBy data).1
  match computeBalancingResult cfg states with
  | none => .error .assertion
  | some jobVolumes =>
      match b.diffs.filterBy states with
      | none => .error .conflict
      | some diffs => .ok {
          states := states.removeOldZeros.1
          diffs := diffs
          balancingEpoch := data.globalEpoch
          jobVolumes := jobVolumes
          digested := b.digested ++ [data] }

def handleBroadcast (cfg : BalancerConfig) (rank : Nat) (b : EventDrivenBalancer) (data : EventMap) :
    Except Fault (EventDrivenBalancer × List (Network.Envelope BalancerTag EventMap)) :=
  let out := if isLeaf rank then [] else
    (childRanks cfg.size rank).map fun child => ⟨.broadcastData, child, data⟩
  (digest cfg b data).map fun b => (b, out)

/-- The branch of handleData for MSG_REDUCE_DATA. The root switches to the
broadcast of its own diffs, so that digest reads and filters the same map. -/
def handleReduce (cfg : BalancerConfig) (rank : Nat) (b : EventDrivenBalancer) (data : EventMap) (ready : Bool) :
    Except Fault (EventDrivenBalancer × List (Network.Envelope BalancerTag EventMap)) :=
  let diffs := (b.diffs.updateBy data).1
  if ready then
    if isRoot rank then
      let diffs := diffs.setGlobalEpoch (b.balancingEpoch + 1)
      handleBroadcast cfg rank { b with diffs := diffs } diffs
    else .ok ({ b with diffs := diffs.clear }, [⟨.reduceData, parentRank rank, diffs⟩])
  else .ok ({ b with diffs := diffs }, [])

def handleData (cfg : BalancerConfig) (rank : Nat) (b : EventDrivenBalancer) (data : EventMap) (tag : BalancerTag)
    (ready : Bool) : Except Fault (EventDrivenBalancer × List (Network.Envelope BalancerTag EventMap)) :=
  match tag with
  | .reduceData => handleReduce cfg rank b data ready
  | .broadcastData => handleBroadcast cfg rank b data

def advance (cfg : BalancerConfig) (rank : Nat) (b : EventDrivenBalancer) (ready : Bool) :
    Except Fault (EventDrivenBalancer × List (Network.Envelope BalancerTag EventMap)) :=
  if b.diffs.isEmpty then .ok (b, [])
  else if ready then handleData cfg rank { b with diffs := b.diffs.clear } b.diffs .reduceData true
  else .ok (b, [])

def pushEvent (cfg : BalancerConfig) (rank : Nat) (b : EventDrivenBalancer) (event : Event) (ready : Bool) :
    Except Fault (EventDrivenBalancer × List (Network.Envelope BalancerTag EventMap)) :=
  let r := b.diffs.insertIfNovel event
  if r.2 then advance cfg rank { b with diffs := r.1 } ready else .ok ({ b with diffs := r.1 }, [])

def getGlobalEpoch (b : EventDrivenBalancer) : Nat := b.states.globalEpoch

end EventDrivenBalancer

structure BalancerSystem where
  ranks : Nat → EventDrivenBalancer
  net : Network.Net BalancerTag EventMap

/-- A step of one rank. Whether enough time has passed since the last
balancing of the rank is left open. -/
inductive BalancerAction
  | pushEvent (rank : Nat) (event : Event) (ready : Bool)
  | advance (rank : Nat) (ready : Bool)
  | deliver (tag : BalancerTag) (source rank : Nat) (ready : Bool)

namespace BalancerSystem

open EventDrivenBalancer

def start : BalancerSystem := ⟨fun _ => .start, Network.empty⟩

def afterwards (s : BalancerSystem) (rank : Nat) (net : Network.Net BalancerTag EventMap)
    (r : EventDrivenBalancer × List (Network.Envelope BalancerTag EventMap)) : BalancerSystem where
  ranks := Function.update s.ranks rank r.1
  net := Network.postAll net rank r.2

/-- Steps of ranks outside of the communicator and deliveries from empty
channels leave the system as it is. -/
def step (cfg : BalancerConfig) (s : BalancerSystem) : BalancerAction → Except Fault BalancerSystem
  | .pushEvent rank event ready =>
      if rank < cfg.size then
        ((s.ranks rank).pushEvent cfg rank event ready).map (afterwards s rank s.net)
      else .ok s
  | .advance rank ready =>
      if rank < cfg.size then ((s.ranks rank).advance cfg rank ready).map (afterwards s rank s.net)
      else .ok s
  | .deliver tag source rank ready =>
      if rank < cfg.size then
        match Network.take s.net tag source rank with
        | none => .ok s
        | some (data, net) => ((s.ranks rank).handleData cfg rank data tag ready).map (afterwards s rank net)
      else .ok s

def run (cfg : BalancerConfig) (s : BalancerSystem) (actions : List BalancerAction) : Except Fault BalancerSystem :=
  Runs.run (step cfg) s actions

end BalancerSystem

end Mallob
