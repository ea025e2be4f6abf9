import Mallob.EventDelivery

namespace Mallob

open EventDelivery

structure BalancedJob where
  id : Int
  isRoot : Bool
  priority : ℚ
deriving DecidableEq, Repr

/-- The members of the balancer for the jobs of its own rank. The map
_job_root_epochs is a partial function. -/
structure JobRegistry where
  activeJobId : Int
  jobRootEpochs : Int → Option Int

inductive BalancerCall
  | onProbe (jobId : Int)
  | onActivate (job : BalancedJob) (demand : Int)
  | onDemandChange (job : BalancedJob) (demand : Int)
  | onSuspend (job : BalancedJob)
  | onTerminate (job : BalancedJob)

namespace JobRegistry

def start : JobRegistry := ⟨-1, fun _ => none⟩

/-- The pair of the registry and the event that is passed to pushEvent. -/
def onProbe (reg : JobRegistry) (jobId : Int) : Except Fault (JobRegistry × Option Event) :=
  .ok (reg, some ⟨jobId, 1, 1, 1 / 100⟩)

def nextEpoch (reg : JobRegistry) (jobId : Int) : Except Fault (JobRegistry × Int) :=
  match reg.jobRootEpochs jobId with
  | none => .error .assertion
  | some epoch =>
      if 0 < epoch then
        .ok ({ reg with jobRootEpochs := Function.update reg.jobRootEpochs jobId (some (epoch + 1)) }, epoch + 1)
      else .error .assertion

def onDemandChange (reg : JobRegistry) (job : BalancedJob) (demand : Int) :
    Except Fault (JobRegistry × Option Event) :=
  if reg.activeJobId = job.id ∧ job.isRoot then
    (reg.nextEpoch job.id).map fun r => (r.1, some ⟨job.id, r.2, demand, job.priority⟩)
  else .error .assertion

def onActivate (reg : JobRegistry) (job : BalancedJob) (demand : Int) : Except Fault (JobRegistry × Option Event) :=
  if reg.activeJobId = job.id then
    if job.isRoot then reg.onDemandChange job demand else .ok (reg, none)
  else
    let reg := { reg with activeJobId := job.id }
    if !job.isRoot then .ok (reg, none)
    else if (reg.jobRootEpochs job.id).isSome then .ok (reg, none)
    else .ok ({ reg with jobRootEpochs := Function.update reg.jobRootEpochs job.id (some 1) }, none)

def onSuspend (reg : JobRegistry) (job : BalancedJob) : Except Fault (JobRegistry × Option Event) :=
  let reg := if reg.activeJobId = job.id then { reg with activeJobId := -1 } else reg
  if !job.isRoot then .ok (reg, none)
  else (reg.nextEpoch job.id).map fun r => (r.1, some ⟨job.id, r.2, 1, job.priority⟩)

def onTerminate (reg : JobRegistry) (job : BalancedJob) : Except Fault (JobRegistry × Option Event) :=
  let reg := if reg.activeJobId = job.id then { reg with activeJobId := -1 } else reg
  if !job.isRoot then .ok (reg, none)
  else match reg.jobRootEpochs job.id with
    | none => .ok (reg, none)
    | some epoch =>
        if 0 < epoch then
          .ok ({ reg with jobRootEpochs := Function.update reg.jobRootEpochs job.id none }, some (tombstone job.id))
        else .error .assertion

def call (reg : JobRegistry) : BalancerCall → Except Fault (JobRegistry × Option Event)
  | .onProbe jobId => reg.onProbe jobId
  | .onActivate job demand => reg.onActivate job demand
  | .onDemandChange job demand => reg.onDemandChange job demand
  | .onSuspend job => reg.onSuspend job
  | .onTerminate job => reg.onTerminate job

end JobRegistry

structure CallSystem where
  system : BalancerSystem
  registries : Nat → JobRegistry
  pushed : List Event

inductive CallAction
  | call (rank : Nat) (c : BalancerCall) (ready : Bool)
  | advance (rank : Nat) (ready : Bool)
  | deliver (tag : BalancerTag) (source rank : Nat) (ready : Bool)

namespace CallSystem

def start : CallSystem := ⟨.start, fun _ => .start, []⟩

def step (cfg : BalancerConfig) (s : CallSystem) : CallAction → Except Fault CallSystem
  | .call rank c ready =>
      if rank < cfg.size then
        match (s.registries rank).call c with
        | .error f => .error f
        | .ok (reg, none) => .ok { s with registries := Function.update s.registries rank reg }
        | .ok (reg, some event) => (s.system.step cfg (.pushEvent rank event ready)).map fun system =>
            ⟨system, Function.update s.registries rank reg, s.pushed ++ [event]⟩
      else .ok s
  | .advance rank ready => (s.system.step cfg (.advance rank ready)).map fun system => { s with system := system }
  | .deliver tag source rank ready =>
      (s.system.step cfg (.deliver tag source rank ready)).map fun system => { s with system := system }

def run (cfg : BalancerConfig) (s : CallSystem) (actions : List CallAction) : Except Fault CallSystem :=
  Runs.run (step cfg) s actions

end CallSystem

end Mallob
