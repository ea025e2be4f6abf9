import Mallob.WorkerHandlers

namespace Mallob.Worker

open JobDatabase
open Reentrant (Proc Contract Outcome)
open Reentrant.Proc

inductive Occupancy
  | idle
  | committed (jobId : Int)
  | busy (jobId : Int)
deriving DecidableEq

namespace Occupancy

def load : Occupancy → Nat
  | busy _ => 1
  | _ => 0

def currentJob : Occupancy → Option Int
  | busy jobId => some jobId
  | _ => none

def hasCommitment : Occupancy → Bool
  | committed _ => true
  | _ => false

def without (o : Occupancy) (jobId : Int) : Occupancy := if o = busy jobId ∨ o = committed jobId then idle else o

variable {o : Occupancy} {jobId i : Int}

@[simp] theorem without_eq_busy : o.without jobId = busy i ↔ o = busy i ∧ i ≠ jobId := by
  rw [without]
  split
  · next h => rcases h with rfl | rfl <;> simp [eq_comm]
  · next h => exact (and_iff_left_of_imp fun hi (hne : i = jobId) => h (Or.inl (hne ▸ hi))).symm

@[simp] theorem without_eq_committed : o.without jobId = committed i ↔ o = committed i ∧ i ≠ jobId := by
  rw [without]
  split
  · next h => rcases h with rfl | rfl <;> simp [eq_comm]
  · next h => exact (and_iff_left_of_imp fun hi (hne : i = jobId) => h (Or.inr (hne ▸ hi))).symm

theorem load_without (h : o ≠ busy jobId) : (o.without jobId).load = o.load := by
  rw [without]
  split
  · next ho => rw [ho.resolve_left h]; rfl
  · rfl

theorem currentJob_without (h : o ≠ busy jobId) : (o.without jobId).currentJob = o.currentJob := by
  rw [without]
  split
  · next ho => rw [ho.resolve_left h]; rfl
  · rfl

theorem hasCommitment_without (h : o ≠ committed jobId) : (o.without jobId).hasCommitment = o.hasCommitment := by
  rw [without]
  split
  · next ho => rw [ho.resolve_right h]; rfl
  · rfl

end Occupancy

variable {cfg : WorkerConfig} {db db' db'' : JobDatabase} {o : Occupancy} {jobId i volume balancingEpoch : Int}
  {job job' : Job} {α β : Type}

def Job.core (job : Job) : Int × JobState × Option JobRequest × Int :=
  (job.id, job.state, job.commitment, job.tree.index)

structure Fits (o : Occupancy) (jobId : Int) (job : Job) : Prop where
  id_eq : job.id = jobId
  active_iff : job.state = .active ↔ o = .busy jobId
  commitment_iff : job.commitment.isSome ↔ o = .committed jobId
  request : ∀ req ∈ job.commitment, req.jobId = jobId
  past : job.state = .past → job.commitment = none

theorem Fits.commitment_eq_none (h : Fits o jobId job) (ho : o ≠ .committed jobId) : job.commitment = none := by
  rw [← Option.not_isSome_iff_eq_none, h.commitment_iff]
  exact ho

/-- All members of the database that have to do with the occupancy of the worker agree on it. -/
structure Shows (db : JobDatabase) (o : Occupancy) : Prop where
  load_eq : db.load = o.load
  currentJob_eq : db.currentJob = o.currentJob
  hasCommitment_eq : db.hasCommitment = o.hasCommitment
  fits : ∀ jobId job, db.job? jobId = some job → Fits o jobId job
  stored : ∀ jobId, o = .busy jobId ∨ o = .committed jobId → ∃ job, db.job? jobId = some job

/-- Callbacks do not remove jobs, and they do not bring terminated ones back. -/
def Retains (db db' : JobDatabase) : Prop := ∀ jobId job, db.job? jobId = some job →
  ∃ job', db'.job? jobId = some job' ∧ (job.state = .past → job'.state = .past)

theorem Retains.refl (db : JobDatabase) : Retains db db := fun _ job h => ⟨job, h, id⟩

theorem Retains.trans (h : Retains db db') (h' : Retains db' db'') : Retains db db'' := by
  intro jobId job hjob
  obtain ⟨job', hjob', hpast⟩ := h jobId job hjob
  obtain ⟨job'', hjob'', hpast'⟩ := h' jobId job' hjob'
  exact ⟨job'', hjob'', hpast' ∘ hpast⟩

/-- The assertions on the load, on the current job and on the adoption never fail. -/
def contract : Contract JobDatabase Fault where
  invariant db := ∃ o, Shows db o
  rely := Retains
  tolerated f := f ≠ .load ∧ f ≠ .currentJob ∧ f ≠ .notIdle
  refl := Retains.refl
  trans := Retains.trans

structure SameCores (db db' : JobDatabase) : Prop where
  load_eq : db'.load = db.load
  currentJob_eq : db'.currentJob = db.currentJob
  hasCommitment_eq : db'.hasCommitment = db.hasCommitment
  core_eq : ∀ jobId, (db'.job? jobId).map Job.core = (db.job? jobId).map Job.core

theorem SameCores.refl (db : JobDatabase) : SameCores db db := ⟨rfl, rfl, rfl, fun _ => rfl⟩

theorem SameCores.trans (h : SameCores db db') (h' : SameCores db' db'') : SameCores db db'' :=
  ⟨h'.load_eq.trans h.load_eq, h'.currentJob_eq.trans h.currentJob_eq,
    h'.hasCommitment_eq.trans h.hasCommitment_eq, fun jobId => (h'.core_eq jobId).trans (h.core_eq jobId)⟩

theorem SameCores.symm (h : SameCores db db') : SameCores db' db :=
  ⟨h.load_eq.symm, h.currentJob_eq.symm, h.hasCommitment_eq.symm, fun jobId => (h.core_eq jobId).symm⟩

theorem SameCores.exists_job (h : SameCores db db') (hjob : db.job? jobId = some job) :
    ∃ job', db'.job? jobId = some job' ∧ job'.core = job.core := by
  have hcore := h.core_eq jobId
  rw [hjob, Option.map_some] at hcore
  exact Option.map_eq_some_iff.mp hcore

theorem Fits.of_core (h : Fits o jobId job) (hcore : job'.core = job.core) : Fits o jobId job' := by
  simp only [Job.core, Prod.mk.injEq] at hcore
  obtain ⟨hid, hstate, hcommitment, -⟩ := hcore
  exact ⟨hid ▸ h.id_eq, hstate ▸ h.active_iff, hcommitment ▸ h.commitment_iff, hcommitment ▸ h.request,
    hstate ▸ hcommitment ▸ h.past⟩

theorem Shows.of_sameCores (h : Shows db o) (hsame : SameCores db db') : Shows db' o := by
  refine ⟨hsame.load_eq.trans h.load_eq, hsame.currentJob_eq.trans h.currentJob_eq,
    hsame.hasCommitment_eq.trans h.hasCommitment_eq, fun jobId job' hjob' => ?_, fun jobId ho => ?_⟩
  · obtain ⟨job, hjob, hcore⟩ := hsame.symm.exists_job hjob'
    exact (h.fits jobId job hjob).of_core hcore.symm
  · obtain ⟨job, hjob⟩ := h.stored jobId ho
    obtain ⟨job', hjob', -⟩ := hsame.exists_job hjob
    exact ⟨job', hjob'⟩

theorem SameCores.retains (h : SameCores db db') : Retains db db' := by
  intro jobId job hjob
  obtain ⟨job', hjob', hcore⟩ := h.exists_job hjob
  simp only [Job.core, Prod.mk.injEq] at hcore
  exact ⟨job', hjob', fun hpast => hcore.2.1.trans hpast⟩

theorem job?_insert (jobs : AList fun _ : Int => Job) (jobId i : Int) (job : Job) :
    (jobs.insert jobId job).lookup i = if i = jobId then some job else jobs.lookup i := by
  by_cases h : i = jobId
  · rw [h, AList.lookup_insert, if_pos rfl]
  · rw [AList.lookup_insert_ne h, if_neg h]

def Quiet (x : WorkerProc α) : Prop := ∀ db, x.Ensures contract db fun _ db' => SameCores db db'

theorem Quiet.bind {x : WorkerProc α} {f : α → WorkerProc β} (hx : Quiet x) (hf : ∀ a, Quiet (f a)) :
    Quiet (x >>= f) := by
  intro db
  rw [ensures_bind]
  refine (hx db).mono fun a db₁ h₁ => ?_
  exact (hf a db₁).mono fun _ db₂ h₂ => h₁.trans h₂

theorem Quiet.keeps {x : WorkerProc α} (hx : Quiet x) : x.Keeps contract := fun db ⟨o, ho⟩ =>
  (hx db).mono fun _ _ h => ⟨⟨o, ho.of_sameCores h⟩, h.retains⟩

theorem quiet_pure (a : α) : Quiet (pure a) := fun db => SameCores.refl db

theorem quiet_get : Quiet get := fun db => SameCores.refl db

theorem quiet_modify {f : JobDatabase → JobDatabase} (h : ∀ db, SameCores db (f db)) : Quiet (modify f) := h

theorem quiet_ensure {b : Bool} {f : Fault} (h : contract.tolerated f) : Quiet (ensure b f) := by
  intro db
  rw [ensures_ensure]
  split
  · exact SameCores.refl db
  · exact h

theorem quiet_ofExcept {r : Except Fault α} (h : ∀ f, r = .error f → contract.tolerated f) : Quiet (ofExcept r) := by
  intro db
  rw [ensures_ofExcept]
  exact ⟨fun _ _ => SameCores.refl db, h⟩

theorem quiet_ofOption {r : Option α} {f : Fault} (h : contract.tolerated f) : Quiet (ofOption f r) := by
  intro db
  rw [ensures_ofOption]
  exact ⟨fun _ _ => SameCores.refl db, fun _ => h⟩

theorem tolerated_of {f : Fault} (h : f ≠ .load ∧ f ≠ .currentJob ∧ f ≠ .notIdle) : contract.tolerated f := h

theorem quiet_getJob (jobId : Int) : Quiet (getJob jobId) :=
  quiet_get.bind fun _ => quiet_ofOption (tolerated_of (by decide))

theorem ensures_getJob {Q : Job → JobDatabase → Prop} :
    (getJob jobId).Ensures contract db Q ↔ ∀ job, db.job? jobId = some job → Q job db := by
  simp only [getJob, ensures_bind, ensures_get, ensures_ofOption]
  exact ⟨fun h => h.1, fun h => ⟨h, fun _ => tolerated_of (by decide)⟩⟩

theorem ensures_modifyJob {f : Job → Job} {Q : Unit → JobDatabase → Prop} :
    (modifyJob jobId f).Ensures contract db Q ↔
      ∀ job, db.job? jobId = some job → Q () { db with jobs := db.jobs.insert jobId (f job) } := by
  simp only [modifyJob, ensures_bind, ensures_getJob, putJob, ensures_modify]

def Takes (f : Job → Except Fault Job) (possible : Job → Prop) (core : Job → Int × JobState × Option JobRequest × Int) :
    Prop := ∀ job, (possible job ∧ ∃ job', f job = .ok job' ∧ job'.core = core job) ∨
      ∃ e, f job = .error e ∧ contract.tolerated e

theorem takes_start : Takes Job.start (fun job => job.state = .inactive)
    fun job => (job.id, .active, job.commitment, job.tree.index) := by
  intro job
  rw [Job.start]
  split
  · next h => exact Or.inl ⟨h, _, rfl, rfl⟩
  · exact Or.inr ⟨_, rfl, tolerated_of (by decide)⟩

theorem takes_resume : Takes Job.resume (fun job => job.state = .suspended)
    fun job => (job.id, .active, job.commitment, job.tree.index) := by
  intro job
  rw [Job.resume]
  split
  · next h => exact Or.inl ⟨h, _, rfl, rfl⟩
  · exact Or.inr ⟨_, rfl, tolerated_of (by decide)⟩

theorem takes_suspend : Takes Job.suspend (fun job => job.state = .active)
    fun job => (job.id, .suspended, job.commitment, job.tree.index) := by
  intro job
  rw [Job.suspend]
  split
  · next h => exact Or.inl ⟨h, _, rfl, by simp [Job.core]⟩
  · exact Or.inr ⟨_, rfl, tolerated_of (by decide)⟩

theorem takes_uncommit : Takes Job.uncommit (fun job => job.state ≠ .active)
    fun job => (job.id, job.state, none, job.tree.index) := by
  intro job
  rw [Job.uncommit]
  split
  · exact Or.inr ⟨_, rfl, tolerated_of (by decide)⟩
  · next h => exact Or.inl ⟨h, _, rfl, rfl⟩

theorem takes_commit (req : JobRequest) : Takes (fun job => job.commit req)
    (fun job => job.state ≠ .active ∧ job.state ≠ .past)
    fun job => (job.id, job.state, some req, req.requestedNodeIndex) := by
  intro job
  simp only [Job.commit]
  split
  · exact Or.inr ⟨_, rfl, tolerated_of (by decide)⟩
  · next h => exact Or.inl ⟨not_or.mp h, _, rfl, by simp [Job.core, Job.updateJobTree]⟩

theorem takes_execution : Takes (fun job => if job.state = .inactive then job.start else job.resume)
    (fun job => job.state ≠ .past) fun job => (job.id, .active, job.commitment, job.tree.index) := by
  intro job
  simp only
  split
  · exact (takes_start job).imp_left (And.imp_left fun h => by simp [h])
  · exact (takes_resume job).imp_left (And.imp_left fun h => by simp [h])

theorem takes_pushRevision (data : List UInt8) : Takes (fun job => job.pushRevision data) (fun _ => True) Job.core := by
  intro job
  simp only [Job.pushRevision]
  split
  · exact Or.inl ⟨trivial, _, rfl, rfl⟩
  · exact Or.inr ⟨_, rfl, tolerated_of (by simp)⟩

theorem ensures_changeJob {f : Job → Except Fault Job} {possible : Job → Prop}
    {core : Job → Int × JobState × Option JobRequest × Int} (hf : Takes f possible core) {Q : Unit → JobDatabase → Prop}
    (hQ : ∀ job job', db.job? jobId = some job → possible job → job'.core = core job →
      Q () { db with jobs := db.jobs.insert jobId job' }) : (changeJob jobId f).Ensures contract db Q := by
  simp only [changeJob, ensures_bind, ensures_getJob, ensures_ofExcept, putJob, ensures_modify]
  intro job hjob
  rcases hf job with ⟨hpossible, job', hok, hcore⟩ | ⟨e', herror, htolerated⟩
  · refine ⟨fun job₁ hok₁ => ?_, fun e he => ?_⟩
    · obtain rfl := Except.ok.inj (hok.symm.trans hok₁)
      exact hQ job job' hjob hpossible hcore
    · rw [hok] at he
      cases he
  · refine ⟨fun job₁ hok₁ => ?_, fun e he => ?_⟩
    · rw [herror] at hok₁
      cases hok₁
    · rw [herror] at he
      exact Except.error.inj he ▸ htolerated

theorem sameCores_insert (hjob : db.job? jobId = some job) (hcore : job'.core = job.core) :
    SameCores db { db with jobs := db.jobs.insert jobId job' } := by
  refine ⟨rfl, rfl, rfl, fun i => ?_⟩
  simp only [JobDatabase.job?, job?_insert] at hjob ⊢
  split
  · next hi => rw [hi, hjob, Option.map_some, Option.map_some, hcore]
  · rfl

theorem quiet_modifyJob {f : Job → Job} (hf : ∀ job, (f job).core = job.core) : Quiet (modifyJob jobId f) := fun _ =>
  ensures_modifyJob.mpr fun job hjob => sameCores_insert hjob (hf job)

theorem quiet_onScheduler (key : Int × Int) (f : LocalScheduler → Except LocalScheduler.Fault LocalScheduler) :
    Quiet (onScheduler key f) := by
  refine quiet_get.bind fun db => (quiet_ofOption (tolerated_of (by decide))).bind fun scheduler => ?_
  refine (quiet_ofExcept fun e he => ?_).bind fun scheduler' => quiet_modify fun db => ⟨rfl, rfl, rfl, fun _ => rfl⟩
  cases hf : f scheduler with
  | ok s => rw [hf] at he; cases he
  | error e' =>
      rw [hf] at he
      obtain rfl := Except.error.inj he
      exact tolerated_of (by simp)

theorem quiet_eraseScheduler (key : Int × Int) : Quiet (eraseScheduler key) :=
  quiet_modify fun _ => ⟨rfl, rfl, rfl, fun _ => rfl⟩

theorem quiet_ite {p : Prop} [Decidable p] {x y : WorkerProc α} (hx : Quiet x) (hy : Quiet y) :
    Quiet (if p then x else y) := by
  split
  · exact hx
  · exact hy

theorem quiet_when {p : Prop} [Decidable p] {x : WorkerProc Unit} (hx : Quiet x) : Quiet (when p x) :=
  quiet_ite hx (quiet_pure ())

theorem quiet_suspendScheduler (job : Job) : Quiet (suspendScheduler job) := by
  refine quiet_get.bind fun db => ?_
  split
  · exact quiet_pure ()
  · exact (quiet_when (quiet_onScheduler _ _)).bind fun _ =>
      quiet_get.bind fun _ => quiet_when (quiet_eraseScheduler _)

theorem quiet_constructScheduler (key : Int × Int) (job : Job) : Quiet (constructScheduler cfg key job) :=
  quiet_get.bind fun _ => quiet_when (quiet_modify fun _ => ⟨rfl, rfl, rfl, fun _ => rfl⟩)

theorem quiet_initScheduler (req : JobRequest) : Quiet (initScheduler cfg req) := by
  refine (quiet_getJob _).bind fun job => (quiet_constructScheduler _ job).bind fun _ => ?_
  split
  · split
    · exact quiet_onScheduler _ _
    · exact quiet_onScheduler _ _
  · exact quiet_get.bind fun _ => (quiet_ensure (tolerated_of (by decide))).bind fun _ => quiet_onScheduler _ _

/-- What the balancer does in a call of its own, it does without the worker's jobs. -/
theorem ensures_registry (balancerCall : BalancerCall) {Q : JobRegistry × Option Event → JobDatabase → Prop}
    (h : ∀ r, db.balancer.call balancerCall = .ok r → Q r db) :
    (ofExcept ((db.balancer.call balancerCall).mapError Fault.balancer)).Ensures contract db Q := by
  rw [ensures_ofExcept]
  cases hr : db.balancer.call balancerCall with
  | error e => exact ⟨fun a ha => (nomatch ha), fun f hf => Except.error.inj hf ▸ tolerated_of (by simp)⟩
  | ok r => exact ⟨fun a ha => Except.ok.inj ha ▸ h r hr, fun f hf => (nomatch hf)⟩

theorem keeps_notifyBalancer (balancerCall : BalancerCall) : (notifyBalancer balancerCall).Keeps contract := by
  intro db hdb
  simp only [KeepsFrom, notifyBalancer, ensures_bind, ensures_get]
  refine ensures_registry balancerCall fun r _ => ?_
  have hsame : SameCores db { db with balancer := r.1 } := ⟨rfl, rfl, rfl, fun _ => rfl⟩
  have hinv : contract.invariant { db with balancer := r.1 } := hdb.imp fun _ ho => ho.of_sameCores hsame
  simp only [ensures_modify, ensures_when]
  split
  · exact ensures_call.mpr ⟨hinv, fun db' hdb' hr => ⟨hdb', hsame.retains.trans hr⟩⟩
  · exact ⟨hinv, hsame.retains⟩

theorem quiet_onSuspend (hroot : job.tree.isRoot = false) : Quiet (onSuspend cfg job) := by
  intro db
  simp only [onSuspend, notifyBalancer, ensures_bind, ensures_get]
  refine ensures_registry _ fun r hr => ?_
  simp only [JobRegistry.call, JobRegistry.onSuspend, balancedJob, hroot, Bool.not_false, if_true] at hr
  obtain rfl := Except.ok.inj hr
  exact ⟨rfl, rfl, rfl, fun _ => rfl⟩

theorem quiet_setLastDemand (demand : Int) : Quiet (setLastDemand jobId demand) := quiet_modifyJob fun _ => rfl

theorem keeps_preregisterJobInBalancer (jobId : Int) : (preregisterJobInBalancer cfg jobId).Keeps contract :=
  quiet_get.keeps.bind fun _ => (quiet_getJob jobId).keeps.bind fun _ => (keeps_notifyBalancer _).bind fun _ =>
    keeps_when (quiet_setLastDemand _).keeps

end Mallob.Worker
