import Mallob.WorkerOccupancy

namespace Mallob.Worker

open JobDatabase
open Reentrant (Proc)
open Reentrant.Proc

variable {cfg : WorkerConfig} {db db' : JobDatabase} {o : Occupancy} {jobId : Int} {job job' : Job}

/-- A part of the database is replaced, such that the occupancy is shown by all members again. -/
theorem Shows.insert {o' : Occupancy} (h : Shows db o) (hjobs : db'.jobs = db.jobs.insert jobId job')
    (hload : db'.load = o'.load) (hcurrent : db'.currentJob = o'.currentJob)
    (hflag : db'.hasCommitment = o'.hasCommitment) (hfits : Fits o' jobId job')
    (hothers : ∀ i ≠ jobId, (o' = .busy i ↔ o = .busy i) ∧ (o' = .committed i ↔ o = .committed i)) : Shows db' o' := by
  have hlookup : ∀ i, db'.job? i = if i = jobId then some job' else db.job? i := by
    intro i
    rw [JobDatabase.job?, hjobs, job?_insert]
    rfl
  refine ⟨hload, hcurrent, hflag, fun i job hi => ?_, fun i hi => ?_⟩
  · rw [hlookup] at hi
    split at hi
    · next heq =>
        obtain rfl := Option.some.inj hi
        exact heq ▸ hfits
    · next hne =>
        have hold := h.fits i job hi
        obtain ⟨hbusy, hcommitted⟩ := hothers i hne
        exact ⟨hold.id_eq, hold.active_iff.trans hbusy.symm, hold.commitment_iff.trans hcommitted.symm, hold.request,
          hold.past⟩
  · rw [hlookup]
    split
    · exact ⟨job', rfl⟩
    · next hne => exact h.stored i (hi.imp (hothers i hne).1.mp (hothers i hne).2.mp)

theorem retains_insert (hjobs : db'.jobs = db.jobs.insert jobId job') (hjob : db.job? jobId = some job)
    (hpast : job.state = .past → job'.state = .past) : Retains db db' := by
  intro i job₁ hi
  simp only [JobDatabase.job?, hjobs, job?_insert]
  split
  · next heq =>
      obtain rfl : job = job₁ := Option.some.inj (hjob.symm.trans (heq ▸ hi))
      exact ⟨job', rfl, hpast⟩
  · exact ⟨job₁, hi, id⟩

theorem Shows.change (h : Shows db o) (hjob : db.job? jobId = some job) (hid : job'.id = job.id)
    (hstate : job'.state = job.state) (hcommitment : job'.commitment = job.commitment) :
    Shows { db with jobs := db.jobs.insert jobId job' } o ∧ Retains db { db with jobs := db.jobs.insert jobId job' } := by
  have hfits := h.fits jobId job hjob
  refine ⟨h.insert rfl h.load_eq h.currentJob_eq h.hasCommitment_eq ⟨hid.trans hfits.id_eq, hstate ▸ hfits.active_iff,
    hcommitment ▸ hfits.commitment_iff, hcommitment ▸ hfits.request, hstate ▸ hcommitment ▸ hfits.past⟩
    fun _ _ => ⟨Iff.rfl, Iff.rfl⟩, retains_insert rfl hjob hstate.trans⟩

theorem ensures_setLoad_one (hload : db.load = 0) (hcurrent : db.currentJob = none) :
    (setLoad 1 jobId).Ensures contract db fun _ db' => db' = { db with load := 1, currentJob := some jobId } := by
  simp only [setLoad, ensures_bind, ensures_get, ensures_ensure, ensures_modify, hload, hcurrent, decide_true, if_true]
  split
  · trivial
  · exact tolerated_of (by decide)

theorem ensures_setLoad_zero (hload : db.load = 1) (hcurrent : db.currentJob.isSome) :
    (setLoad 0 jobId).Ensures contract db fun _ db' => db' = { db with load := 0, currentJob := none } := by
  simp only [setLoad, ensures_bind, ensures_get, ensures_ensure, ensures_modify, hload, hcurrent, Nat.zero_add,
    decide_true, if_true, Nat.zero_ne_one, if_false]
  split
  · trivial
  · exact tolerated_of (by decide)

theorem Shows.activate {f : Job → Except Fault Job} {possible : Job → Prop} (h : Shows db .idle)
    (hf : Takes f possible fun job => (job.id, .active, job.commitment, job.tree.index))
    (hpast : ∀ job, possible job → job.state ≠ .past) :
    (changeJob jobId f).Ensures contract { db with load := 1, currentJob := some jobId } fun _ db' =>
      Shows db' (.busy jobId) ∧ Retains db db' := by
  refine ensures_changeJob hf fun job job' hjob hpossible hcore => ?_
  simp only [Job.core, Prod.mk.injEq] at hcore
  obtain ⟨hid, hstate, hcommitment, -⟩ := hcore
  have hfits := h.fits jobId job hjob
  have hnone : job'.commitment = none := hcommitment.trans (hfits.commitment_eq_none (by simp))
  refine ⟨h.insert rfl rfl rfl h.hasCommitment_eq ?_ fun i hi => ⟨by simpa using hi.symm, by simp⟩,
    retains_insert rfl hjob fun hp => absurd hp (hpast job hpossible)⟩
  exact ⟨hid.trans hfits.id_eq, by simp [hstate], by simp [hnone], by simp [hnone], fun _ => hnone⟩

theorem Shows.deactivate (h : Shows db (.busy jobId)) (hjob : db.job? jobId = some job) (hid : job'.id = job.id)
    (hstate : job'.state ≠ .active) (hcommitment : job'.commitment = job.commitment) :
    Shows { db with jobs := db.jobs.insert jobId job', load := 0, currentJob := none } .idle := by
  have hfits := h.fits jobId job hjob
  have hnone : job'.commitment = none := hcommitment.trans (hfits.commitment_eq_none (by simp))
  refine h.insert rfl rfl rfl h.hasCommitment_eq ?_ fun i hi => ⟨by simpa using hi.symm, by simp⟩
  exact ⟨hid.trans hfits.id_eq, by simp [hstate], by simp [hnone], by simp [hnone], fun _ => hnone⟩

theorem keeps_announce (demand : Job → Int) : (getJob jobId >>= fun job => do
    onActivate cfg job (demand job)
    setLastDemand jobId (demand job)).Keeps contract :=
  (quiet_getJob jobId).keeps.bind fun _ => (keeps_notifyBalancer _).bind fun _ => (quiet_setLastDemand _).keeps

theorem keepsFrom_execute (h : Shows db .idle) : (execute cfg jobId).KeepsFrom contract db := by
  rw [KeepsFrom, execute, ensures_bind, ensures_get, ensures_when]
  split
  · rw [ensures_bind]
    refine (ensures_setLoad_one h.load_eq h.currentJob_eq).mono fun _ db₁ hdb₁ => ?_
    subst hdb₁
    rw [ensures_bind]
    refine (h.activate takes_execution fun _ => id).mono fun _ db₂ hpost => ?_
    obtain ⟨hshows, hretains⟩ := hpost
    exact (keeps_announce _ db₂ ⟨_, hshows⟩).since hretains
  · exact ⟨⟨_, h⟩, Retains.refl db⟩

theorem keepsFrom_reactivate (h : Shows db .idle) (req : JobRequest) : (reactivate cfg req).KeepsFrom contract db := by
  rw [KeepsFrom, reactivate, ensures_bind, ensures_modifyJob]
  intro job hjob
  obtain ⟨hshows₁, hretains₁⟩ := @Shows.change db .idle req.jobId job (job.updateJobTree req.requestedNodeIndex
    req.rootRank req.requestingNodeRank) h hjob rfl rfl rfl
  rw [ensures_bind]
  refine (ensures_setLoad_one hshows₁.load_eq hshows₁.currentJob_eq).mono fun _ db₂ hdb₂ => ?_
  subst hdb₂
  simp only [ensures_bind, ensures_get, ensures_ensure]
  split
  · refine (hshows₁.activate takes_resume fun job hjob => by simp [hjob]).mono fun _ db₃ hpost => ?_
    obtain ⟨hshows, hretains⟩ := hpost
    simp only [← ensures_bind]
    exact (keeps_announce _ db₃ ⟨_, hshows⟩).since (hretains₁.trans hretains)
  · exact tolerated_of (by decide)

/-- The worker is idle after the suspension of its job, unless the balancer has called back. -/
theorem ensures_suspend (h : contract.invariant db) : (suspend cfg jobId).Ensures contract db fun _ db' =>
    contract.invariant db' ∧ Retains db db' ∧
      ((∀ job, db.job? jobId = some job → job.tree.isRoot = false) → Shows db' .idle) := by
  obtain ⟨o, ho⟩ := h
  rw [suspend, ensures_bind, ensures_getJob]
  intro job hjob
  simp only [ensures_bind, ensures_ensure]
  split
  · next hactive =>
      obtain rfl : o = .busy jobId := (ho.fits jobId job hjob).active_iff.mp (by simpa using hactive)
      refine (quiet_suspendScheduler job db).mono fun _ db₁ hsame => ?_
      have ho₁ := ho.of_sameCores hsame
      refine ensures_changeJob takes_suspend fun job₁ job₂ hjob₁ hactive₁ hcore => ?_
      simp only [Job.core, Prod.mk.injEq] at hcore
      obtain ⟨hid, hstate, hcommitment, hindex⟩ := hcore
      have hcurrent : db₁.currentJob.isSome := by simp [ho₁.currentJob_eq, Occupancy.currentJob]
      have hidle := ho₁.deactivate hjob₁ hid (by simp [hstate]) hcommitment
      refine (@ensures_setLoad_zero { db₁ with jobs := db₁.jobs.insert jobId job₂ } jobId ho₁.load_eq hcurrent).mono
        fun _ db₂ hdb₂ => ?_
      have hretains : Retains db db₂ := by
        refine hsame.retains.trans (retains_insert (congrArg JobDatabase.jobs hdb₂) hjob₁ fun hpast => ?_)
        rw [hactive₁] at hpast
        cases hpast
      subst hdb₂
      rw [ensures_getJob]
      intro job₃ hjob₃
      obtain rfl : job₂ = job₃ := by simpa [JobDatabase.job?] using hjob₃
      by_cases hroot : job.tree.isRoot
      · refine (keeps_notifyBalancer _ _ ⟨_, hidle⟩).mono fun _ db₃ h => ⟨h.1, hretains.trans h.2, fun hall => ?_⟩
        rw [hall job hjob] at hroot
        cases hroot
      · have hroot₂ : job₂.tree.isRoot = false := by
          obtain ⟨job₀, hjob₀, hcore₀⟩ := hsame.symm.exists_job hjob₁
          obtain rfl : job = job₀ := Option.some.inj (hjob.symm.trans hjob₀)
          simp only [Job.core, Prod.mk.injEq] at hcore₀
          rw [Bool.not_eq_true, JobTree.isRoot, hcore₀.2.2.2, ← hindex] at hroot
          exact hroot
        refine (quiet_onSuspend hroot₂ _).mono fun _ db₃ hsame₃ => ?_
        have hidle₃ := hidle.of_sameCores hsame₃
        exact ⟨⟨_, hidle₃⟩, hretains.trans hsame₃.retains, fun _ => hidle₃⟩
  · exact tolerated_of (by decide)

theorem ensures_uncommit (h : Shows db (.committed jobId)) : (uncommit jobId).Ensures contract db fun _ db' =>
    Shows db' .idle ∧ Retains db db' := by
  rw [uncommit, ensures_bind, ensures_get, ensures_when]
  split
  · rw [ensures_bind]
    refine ensures_changeJob takes_uncommit fun job job' hjob _ hcore => ?_
    simp only [Job.core, Prod.mk.injEq] at hcore
    obtain ⟨hid, hstate, hcommitment, -⟩ := hcore
    have hfits := h.fits jobId job hjob
    rw [ensures_modify]
    refine ⟨h.insert rfl h.load_eq h.currentJob_eq rfl ?_ fun i hi => ⟨by simp, by simpa using hi.symm⟩,
      retains_insert rfl hjob hstate.trans⟩
    exact ⟨hid.trans hfits.id_eq, by simp [hstate, hfits.active_iff], by simp [hcommitment], by simp [hcommitment],
      fun _ => hcommitment⟩
  · next hhas =>
      obtain ⟨job, hjob⟩ := h.stored jobId (Or.inr rfl)
      exact absurd (by simp [has, hjob]) hhas

theorem keepsFrom_cancelCommitment (h : Shows db (.committed jobId)) :
    (cancelCommitment cfg jobId).KeepsFrom contract db := by
  rw [KeepsFrom, cancelCommitment, ensures_bind]
  refine (ensures_uncommit h).mono fun _ db₁ hpost => ?_
  obtain ⟨hidle, hretains⟩ := hpost
  have hrest : (unregisterJobFromBalancer cfg jobId >>= fun _ => getJob jobId >>= suspendScheduler).Keeps contract :=
    ((quiet_getJob jobId).keeps.bind fun _ => keeps_notifyBalancer _).bind fun _ =>
      ((quiet_getJob jobId).bind quiet_suspendScheduler).keeps
  exact (hrest db₁ ⟨_, hidle⟩).since hretains

theorem keepsFrom_leaveJob (h : Shows db o) (ho : o = .busy jobId ∨ o = .committed jobId) :
    (leaveJob cfg jobId).KeepsFrom contract db := by
  rw [KeepsFrom, leaveJob, ensures_bind, ensures_getJob]
  intro job hjob
  split
  · exact (ensures_suspend ⟨o, h⟩).mono fun _ _ h => ⟨h.1, h.2.1⟩
  · next hactive =>
      obtain rfl := ho.resolve_left fun ho => hactive ((h.fits jobId job hjob).active_iff.mpr ho)
      exact keepsFrom_cancelCommitment h

theorem keepsFrom_commit (h : Shows db .idle) (req : JobRequest) : (commit cfg req).KeepsFrom contract db := by
  rw [KeepsFrom, commit, ensures_bind, ensures_get, ensures_when]
  split
  · rw [ensures_bind]
    refine ensures_changeJob (takes_commit req) fun job job' hjob hpossible hcore => ?_
    simp only [Job.core, Prod.mk.injEq] at hcore
    obtain ⟨hid, hstate, hcommitment, -⟩ := hcore
    rw [ensures_bind, ensures_modify]
    have hcommitted : Shows { db with jobs := db.jobs.insert req.jobId job', hasCommitment := true }
        (.committed req.jobId) := by
      refine h.insert rfl h.load_eq h.currentJob_eq rfl ?_ fun i hi => ⟨by simp, by simpa using hi.symm⟩
      exact ⟨hid.trans (h.fits _ job hjob).id_eq, by simp [hstate, hpossible.1], by simp [hcommitment],
        by simp [hcommitment], fun hpast => absurd (hstate.symm.trans hpast) hpossible.2⟩
    exact (keeps_preregisterJobInBalancer req.jobId _ ⟨_, hcommitted⟩).since
      (retains_insert rfl hjob fun hpast => absurd hpast hpossible.2)
  · exact ⟨⟨_, h⟩, Retains.refl db⟩

/-- A job that is not stored yet is stored, neither active nor committed. -/
theorem ensures_createJob (h : Shows db o) (hnew : db.job? jobId = none) (application : Application) :
    (createJob cfg jobId application).Ensures contract db fun _ db' => Shows db' o ∧ Retains db db' := by
  rw [createJob, putJob, ensures_modify]
  have hnot : ¬ (o = .busy jobId ∨ o = .committed jobId) := fun ho => by
    obtain ⟨job, hjob⟩ := h.stored jobId ho
    rw [hnew] at hjob
    cases hjob
  refine ⟨h.insert rfl h.load_eq h.currentJob_eq h.hasCommitment_eq ?_ fun _ _ => ⟨Iff.rfl, Iff.rfl⟩,
    fun i job hjob => ⟨job, ?_, id⟩⟩
  · exact ⟨rfl, by simpa using fun ho => hnot (Or.inl ho), by simpa using fun ho => hnot (Or.inr ho), by simp, by simp⟩
  · simp only [JobDatabase.job?, job?_insert]
    rw [if_neg (by rintro rfl; simp [hnew] at hjob)]
    exact hjob

theorem Shows.isBusyOrCommitted_iff (h : Shows db o) : db.isBusyOrCommitted ↔ o ≠ .idle := by
  rw [isBusyOrCommitted, hasActiveJob, h.load_eq, h.hasCommitment_eq]
  cases o <;> simp [Occupancy.load, Occupancy.hasCommitment]

theorem keepsFrom_adopt (h : Shows db .idle) (req : JobRequest) : (adopt cfg req).KeepsFrom contract db := by
  have hfree : db.isBusyOrCommitted = false := by simpa using h.isBusyOrCommitted_iff
  rw [KeepsFrom, adopt, ensures_bind, ensures_get, ensures_bind, ensures_ensure, hfree, Bool.not_false, if_pos rfl,
    ensures_bind]
  have hcreated : (when (!db.has req.jobId) (createJob cfg req.jobId req.application)).Ensures contract db
      fun _ db₁ => Shows db₁ .idle ∧ Retains db db₁ := by
    rw [ensures_when]
    split
    · next hnew => exact ensures_createJob h (by simpa [has] using hnew) _
    · exact ⟨h, Retains.refl db⟩
  refine hcreated.mono fun _ db₁ hpost => ?_
  obtain ⟨hidle, hretains⟩ := hpost
  rw [ensures_bind]
  refine (keepsFrom_commit hidle req).mono fun _ db₂ hpost => ?_
  obtain ⟨hinv, hretains₂⟩ := hpost
  exact (keeps_when (quiet_initScheduler req).keeps db₂ hinv).since (hretains.trans hretains₂)

theorem quiet_getActive : Quiet getActive :=
  quiet_get.bind fun _ => (quiet_ofOption (tolerated_of (by decide))).bind fun _ => quiet_getJob _

theorem ensures_getActive (h : Shows db o) {Q : Job → JobDatabase → Prop}
    (hQ : ∀ job, o = .busy job.id → db.job? job.id = some job → Q job db) : getActive.Ensures contract db Q := by
  simp only [getActive, ensures_bind, ensures_get, ensures_ofOption, ensures_getJob]
  refine ⟨fun i hi job hjob => ?_, fun _ => tolerated_of (by decide)⟩
  obtain rfl : job.id = i := (h.fits i job hjob).id_eq
  refine hQ job ?_ hjob
  rw [h.currentJob_eq] at hi
  cases o with
  | busy j => exact congrArg Occupancy.busy (Option.some.inj hi)
  | idle => cases hi
  | committed j => cases hi

theorem ensures_replaceableJob (h : Shows db o) (req : JobRequest) :
    (replaceableJob req).Ensures contract db fun removed db' => db' = db ∧
      ∀ i ∈ removed, ∀ job, db.job? i = some job → job.tree.isRoot = false := by
  rw [replaceableJob, ensures_bind, ensures_get]
  split
  · exact ⟨rfl, by simp⟩
  · rw [ensures_bind]
    refine ensures_getActive h fun job _ hjob => ⟨rfl, fun i hi job' hjob' => ?_⟩
    obtain ⟨⟨-, hroot, -⟩, rfl⟩ : (_ ∧ _ ∧ _) ∧ job.id = i := by simpa [Option.ite_none_right_eq_some] using hi
    obtain rfl : job = job' := Option.some.inj (hjob.symm.trans hjob')
    exact hroot

/-- Only an idle worker adopts a job, also where it was made idle for this. -/
theorem ensures_tryAdopt (h : contract.invariant db) (req : JobRequest) (mode : JobRequestMode) (sender : Int) :
    (tryAdopt cfg req mode sender).Ensures contract db fun result db' => contract.invariant db' ∧ Retains db db' ∧
      ((result = .adoptFromIdle ∨ ∃ removed, result = .adoptReplaceCurrent removed) → Shows db' .idle) := by
  have hsame : contract.invariant db ∧ Retains db db := ⟨h, Retains.refl db⟩
  obtain ⟨o, ho⟩ := h
  rw [tryAdopt, ensures_bind, ensures_get]
  split
  · exact ⟨hsame.1, hsame.2, by simp⟩
  split
  · next hfree =>
      have hidle : o = .idle := by simpa using (not_congr ho.isBusyOrCommitted_iff).mp (by simpa using hfree)
      split
      · exact ⟨hsame.1, hsame.2, fun _ => hidle ▸ ho⟩
      · exact ⟨hsame.1, hsame.2, by simp⟩
  split
  · rw [ensures_bind]
    refine (ensures_replaceableJob ho req).mono fun removed db' hpost => ?_
    obtain ⟨hdb', hremoved⟩ := hpost
    subst hdb'
    cases removed with
    | some i =>
        rw [ensures_bind]
        refine (ensures_suspend hsame.1).mono fun _ db₁ hpost => ?_
        obtain ⟨hinv, hretains, hidle⟩ := hpost
        exact ⟨hinv, hretains, fun _ => hidle (hremoved i rfl)⟩
    | none =>
        simp only
        split
        · have hquiet : SameCores db' { db' with deferredRequests := db'.deferredRequests ++ [(sender, req)] } :=
            ⟨rfl, rfl, rfl, fun _ => rfl⟩
          exact ⟨⟨o, ho.of_sameCores hquiet⟩, hquiet.retains, by simp⟩
        · exact ⟨hsame.1, hsame.2, by simp⟩
  · exact ⟨hsame.1, hsame.2, by simp⟩

theorem ensures_forget (h : Shows db o) (ho : ¬ (o = .busy jobId ∨ o = .committed jobId)) :
    (forget jobId).Ensures contract db fun _ db' => Shows db' o := by
  have herase : ∀ db', (∀ i, db'.job? i = if i = jobId then none else db.job? i) → db'.load = db.load →
      db'.currentJob = db.currentJob → db'.hasCommitment = db.hasCommitment → Shows db' o := by
    intro db' hjobs hload hcurrent hflag
    refine ⟨hload.trans h.load_eq, hcurrent.trans h.currentJob_eq, hflag.trans h.hasCommitment_eq,
      fun i job hi => ?_, fun i hi => ?_⟩
    · rw [hjobs] at hi
      split at hi
      · cases hi
      · exact h.fits i job hi
    · rw [hjobs, if_neg (by rintro rfl; exact ho hi)]
      exact h.stored i hi
  have hlookup : ∀ (jobs : AList fun _ : Int => Job) i, (∀ j ≠ jobId, jobs.lookup j = db.jobs.lookup j) →
      (jobs.erase jobId).lookup i = if i = jobId then none else db.jobs.lookup i := by
    intro jobs i hjobs
    split
    · next hi => rw [hi, AList.lookup_erase]
    · next hi => rw [AList.lookup_erase_ne hi, hjobs i hi]
  simp only [forget, ensures_bind, ensures_getJob, ensures_when, putJob, ensures_modify]
  intro job hjob
  split
  · exact herase _ (fun i => hlookup _ i fun j hj => AList.lookup_insert_ne hj) rfl rfl rfl
  · exact herase _ (fun i => hlookup _ i fun _ _ => rfl) rfl rfl rfl

/-- The load is given back if it is the active job that is terminated. -/
theorem ensures_release (h : Shows db o) : (when db.hasActiveJob do
      let active ← getActive
      when (active.id = jobId) (setLoad 0 jobId)).Ensures contract db fun _ db' =>
    db'.jobs = db.jobs ∧ db'.hasCommitment = db.hasCommitment ∧ db'.load = (o.without jobId).load ∧
      db'.currentJob = (o.without jobId).currentJob := by
  have hkept (hne : o ≠ .busy jobId) : db.load = (o.without jobId).load ∧ db.currentJob = (o.without jobId).currentJob :=
    ⟨h.load_eq.trans (Occupancy.load_without hne).symm, h.currentJob_eq.trans (Occupancy.currentJob_without hne).symm⟩
  rw [ensures_when]
  split
  · rw [ensures_bind]
    refine ensures_getActive h fun active ho _ => ?_
    subst ho
    rw [ensures_when]
    split
    · next hid =>
        have hcurrent : db.currentJob.isSome := by simp [h.currentJob_eq, Occupancy.currentJob]
        refine (ensures_setLoad_zero h.load_eq hcurrent).mono fun _ db' hdb' => ?_
        subst hdb'
        simp [Occupancy.without, hid, Occupancy.load, Occupancy.currentJob]
    · next hid => exact ⟨rfl, rfl, hkept (by simpa using hid)⟩
  · next hfree =>
      refine ⟨rfl, rfl, hkept ?_⟩
      rintro rfl
      exact hfree (by simp [hasActiveJob, h.load_eq, Occupancy.load])

theorem Shows.retire (h : Shows db o) (hjobs : db'.jobs = db.jobs.insert jobId job') (hid : job'.id = jobId)
    (hstate : job'.state = .past) (hcommitment : job'.commitment = none) (hload : db'.load = (o.without jobId).load)
    (hcurrent : db'.currentJob = (o.without jobId).currentJob)
    (hflag : db'.hasCommitment = (o.without jobId).hasCommitment) : Shows db' (o.without jobId) := by
  refine h.insert hjobs hload hcurrent hflag ?_ fun i hi => ⟨by simp [hi], by simp [hi]⟩
  exact ⟨hid, by simp [hstate], by simp [hcommitment], by simp [hcommitment], fun _ => hcommitment⟩

theorem ensures_retire {db₁ : JobDatabase} (h : Shows db o) (hjob : db.job? jobId = some job)
    (hjobs : db₁.jobs = db.jobs) (hflag : db₁.hasCommitment = db.hasCommitment)
    (hload : db₁.load = (o.without jobId).load)
    (hcurrent : db₁.currentJob = (o.without jobId).currentJob) :
    (when job.commitment.isSome (uncommit jobId)).Ensures contract
      { db₁ with jobs := db₁.jobs.insert jobId job.terminate } fun _ db' => contract.invariant db' ∧
        ∃ job', db'.job? jobId = some job' ∧ job'.state = .past := by
  have hfits := h.fits jobId job hjob
  rw [ensures_when]
  split
  · next hcommitted =>
      obtain rfl := hfits.commitment_iff.mp hcommitted
      rw [uncommit, ensures_bind, ensures_get, ensures_when, if_pos (by simp [has, JobDatabase.job?]), ensures_bind]
      refine ensures_changeJob takes_uncommit fun job₁ job₂ hjob₁ _ hcore => ?_
      obtain rfl : job.terminate = job₁ := by simpa [JobDatabase.job?] using hjob₁
      simp only [Job.core, Prod.mk.injEq] at hcore
      rw [ensures_modify]
      refine ⟨⟨_, h.retire ?_ (hcore.1.trans hfits.id_eq) hcore.2.1 hcore.2.2.1 hload hcurrent ?_⟩,
        job₂, by simp [JobDatabase.job?], hcore.2.1⟩
      · rw [AList.insert_insert, hjobs]
      · simp [Occupancy.without, Occupancy.hasCommitment]
  · next hnone =>
      have hid : job.terminate.id = jobId := hfits.id_eq
      have hother : o ≠ .committed jobId := fun hc => hnone (hfits.commitment_iff.mpr hc)
      have hcommitment : job.terminate.commitment = none := Option.not_isSome_iff_eq_none.mp hnone
      refine ⟨⟨_, h.retire ?_ hid rfl hcommitment hload hcurrent ?_⟩, job.terminate, by simp [JobDatabase.job?], rfl⟩
      · rw [hjobs]
      · exact (hflag.trans h.hasCommitment_eq).trans (Occupancy.hasCommitment_without hother).symm

/-- The balancer may call back before the job is forgotten, but it does not bring the job back. -/
theorem preserves_terminate : (terminate cfg jobId).Preserves contract := by
  intro db ⟨o, ho⟩
  rw [terminate, ensures_bind, ensures_getJob]
  intro job hjob
  rw [ensures_bind, ensures_get, ensures_bind]
  refine (ensures_release ho).mono fun _ db₁ hpost => ?_
  obtain ⟨hjobs, hflag, hload, hcurrent⟩ := hpost
  rw [ensures_bind, putJob, ensures_modify, ensures_bind]
  refine (ensures_retire ho hjob hjobs hflag hload hcurrent).mono fun _ db₂ hpost => ?_
  obtain ⟨hinv₂, job₂, hjob₂, hstate₂⟩ := hpost
  rw [ensures_bind]
  have hannounced : (when (job.state ≠ .past) (unregisterJobFromBalancer cfg jobId)).Keeps contract :=
    keeps_when ((quiet_getJob jobId).keeps.bind fun _ => keeps_notifyBalancer _)
  refine (hannounced db₂ hinv₂).mono fun _ db₃ hpost => ?_
  obtain ⟨⟨o₃, ho₃⟩, hretains⟩ := hpost
  obtain ⟨job₃, hjob₃, hstate₃⟩ := hretains jobId job₂ hjob₂
  have hfits₃ := ho₃.fits jobId job₃ hjob₃
  refine (ensures_forget ho₃ ?_).mono fun _ _ h => ⟨_, h⟩
  rintro (hbusy | hcommitted)
  · rw [← hfits₃.active_iff, hstate₃ hstate₂] at hbusy
    cases hbusy
  · rw [← hfits₃.commitment_iff, hfits₃.past (hstate₃ hstate₂)] at hcommitted
    cases hcommitted

theorem Shows.job?_of_mem (h : Shows db o) (hjob : job ∈ db.storedJobs) : db.job? job.id = some job := by
  obtain ⟨⟨i, job'⟩, hmem, heq⟩ := List.mem_map.mp hjob
  obtain rfl : job' = job := heq
  have hlookup : db.job? i = some job' := AList.mem_lookup_iff.mpr hmem
  rw [(h.fits i job' hlookup).id_eq]
  exact hlookup

/-- The job of a worker that works or has committed itself is not among those to be forgotten. -/
theorem Shows.not_of_mem_jobsToForget (h : Shows db o) {age ageSinceActivation : Int → ℚ}
    (hi : jobId ∈ jobsToForget cfg db age ageSinceActivation) : ¬ (o = .busy jobId ∨ o = .committed jobId) := by
  obtain ⟨job, hjob, rfl⟩ := List.mem_map.mp hi
  obtain ⟨⟨hstored, hnone⟩, hstate⟩ : (job ∈ db.storedJobs ∧ job.commitment = none) ∧ job.state ≠ .active := by
    rcases List.mem_append.mp hjob with hold | hoverdue
    · simp only [List.mem_filter, Option.isNone_iff_eq_none, Bool.and_eq_true, decide_eq_true_eq] at hold
      exact ⟨hold.1, by simp [hold.2.1]⟩
    · have hsuspended := (List.mem_insertionSort _).mp (List.mem_of_mem_take hoverdue)
      simp only [List.mem_filter, Option.isNone_iff_eq_none, Bool.and_eq_true, decide_eq_true_eq] at hsuspended
      exact ⟨hsuspended.1, by simp [hsuspended.2.1.1.1]⟩
  have hfits := h.fits job.id job (h.job?_of_mem hstored)
  rintro (hbusy | hcommitted)
  · exact hstate (hfits.active_iff.mpr hbusy)
  · rw [← hfits.commitment_iff, hnone] at hcommitted
    cases hcommitted

theorem preserves_forgetOldJobs (age ageSinceActivation : Int → ℚ) :
    (forgetOldJobs cfg age ageSinceActivation).Preserves contract := by
  intro db h
  rw [forgetOldJobs, ensures_bind, ensures_get, ensures_bind]
  refine (keeps_forM (fun key _ => (quiet_eraseScheduler key).keeps) db h).mono fun _ db₁ hpost => ?_
  obtain ⟨⟨o₁, h₁⟩, -⟩ := hpost
  rw [ensures_bind, ensures_get]
  refine (ensures_forM (P := fun db => Shows db o₁) (fun i hi db₂ h₂ => ?_) h₁).mono fun _ _ h => ⟨_, h⟩
  exact ensures_forget h₂ (h₁.not_of_mem_jobsToForget hi)

end Mallob.Worker
