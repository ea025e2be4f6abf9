import Mallob.OccupancyChanges

namespace Mallob.Worker

open JobDatabase
open Reentrant (Proc)
open Reentrant.Proc

variable {cfg : WorkerConfig} {db db' : JobDatabase} {o : Occupancy} {jobId volume balancingEpoch : Int} {job job' : Job}

def Grows (volume nextIndex : Int) (db db' : JobDatabase) : Prop :=
  SameCores db db' ∨ nextIndex < volume ∧ contract.invariant db' ∧ Retains db db'

theorem quiet_spawnJobRequest (side : Side) : Quiet (spawnJobRequest cfg jobId side) := by
  refine quiet_modifyJob fun job => ?_
  split <;> rfl

theorem ensures_propagateToChild (h : Shows db o) (ho : o = .busy jobId ∨ o = .committed jobId) (side : Side)
    (hasChild : Bool) (nextIndex : Int) :
    (propagateToChild cfg jobId volume balancingEpoch side hasChild nextIndex).Ensures contract db fun continues db' =>
      Grows volume nextIndex db db' ∧ (continues → SameCores db db') := by
  have hpure {x : WorkerProc Unit} (hx : Quiet x) : (x >>= fun _ => pure true).Ensures contract db
      fun (continues : Bool) db' => Grows volume nextIndex db db' ∧ (continues → SameCores db db') := by
    rw [ensures_bind]
    exact (hx db).mono fun _ db₁ hsame => ⟨Or.inl hsame, fun _ => hsame⟩
  rw [propagateToChild, ensures_bind, ensures_getJob]
  intro job hjob
  split
  · exact hpure (quiet_when (quiet_modifyJob fun job => by simp [Job.core]))
  split
  · next hgrow =>
      rw [ensures_bind, ensures_get]
      split
      · rw [ensures_bind]
        exact (keepsFrom_leaveJob h ho).mono fun _ db₁ h₁ => ⟨Or.inr ⟨hgrow.1, h₁⟩, by simp⟩
      · exact hpure (quiet_when (quiet_spawnJobRequest side))
  · exact ⟨Or.inl (SameCores.refl db), fun _ => SameCores.refl db⟩

/-- A job node leaves its job here only if the volume exceeds the index of its left child. -/
theorem ensures_propagateVolumeUpdate (h : Shows db o) (ho : o = .busy jobId ∨ o = .committed jobId)
    (hjob : db.job? jobId = some job) :
    (propagateVolumeUpdate cfg jobId volume balancingEpoch).Ensures contract db fun _ db' =>
      Grows volume (job.tree.childIndex .left) db db' := by
  rw [propagateVolumeUpdate, ensures_bind, ensures_getJob]
  intro job₀ hjob₀
  obtain rfl : job = job₀ := Option.some.inj (hjob.symm.trans hjob₀)
  rw [ensures_bind]
  refine (ensures_propagateToChild h ho .left _ _).mono fun continues db₁ hpost => ?_
  obtain ⟨hgrows, hsame⟩ := hpost
  rw [ensures_when]
  split
  · next hcontinues =>
      have hsame₁ := hsame hcontinues
      rw [ensures_bind]
      refine (ensures_propagateToChild (h.of_sameCores hsame₁) ho .right _ _).mono fun _ db₂ hpost => ?_
      obtain ⟨hgrows₂, -⟩ := hpost
      rcases hgrows₂ with hsame₂ | ⟨hindex, hinv, hretains⟩
      · exact Or.inl (hsame₁.trans hsame₂)
      · refine Or.inr ⟨?_, hinv, hsame₁.retains.trans hretains⟩
        simp only [JobTree.childIndex] at hindex ⊢
        omega
  · exact hgrows

theorem keepsFrom_updateVolumeOfMember (h : Shows db o) (hjob : db.job? jobId = some job)
    (ho : o = .busy jobId ∨ o = .committed jobId) :
    (updateVolumeOfMember cfg job volume balancingEpoch).KeepsFrom contract db := by
  obtain rfl : job.id = jobId := (h.fits jobId job hjob).id_eq
  rw [KeepsFrom, updateVolumeOfMember, ensures_bind, ensures_get, ensures_bind]
  refine (quiet_when (quiet_onScheduler _ _) db).mono fun _ db₁ hsame₁ => ?_
  obtain ⟨job₁, hjob₁, hcore₁⟩ := hsame₁.exists_job hjob
  have hindex₁ : job₁.tree.index = job.tree.index := congrArg (fun core => core.2.2.2) hcore₁
  rw [ensures_bind]
  refine (ensures_propagateVolumeUpdate (h.of_sameCores hsame₁) ho hjob₁).mono fun _ db₂ hgrows => ?_
  rw [ensures_bind]
  refine (quiet_modifyJob (fun _ => by rfl) db₂).mono fun _ db₃ hsame₃ => ?_
  rcases hgrows with hsame₂ | ⟨hchild, ⟨o₂, hinv₂⟩, hretains₂⟩
  · have hsame := (hsame₁.trans hsame₂).trans hsame₃
    rw [ensures_when]
    split
    · exact (keepsFrom_leaveJob (h.of_sameCores hsame) ho).since hsame.retains
    · exact ⟨⟨o, h.of_sameCores hsame⟩, hsame.retains⟩
  · rw [ensures_when, if_neg (by simp only [JobTree.childIndex] at hchild; omega)]
    exact ⟨⟨o₂, hinv₂.of_sameCores hsame₃⟩, hsame₁.retains.trans (hretains₂.trans hsame₃.retains)⟩

theorem keeps_updateVolume : (updateVolume cfg jobId volume balancingEpoch).Keeps contract := by
  intro db ⟨o, ho⟩
  rw [KeepsFrom, updateVolume, ensures_bind, ensures_get]
  split
  · have hactivated : Quiet (activateRootRequest jobId) := quiet_modify fun _ => ⟨rfl, rfl, rfl, fun _ => rfl⟩
    exact hactivated.keeps db ⟨o, ho⟩
  · rw [ensures_bind]
    refine (quiet_modifyJob (fun _ => by rfl) db).mono fun _ db₁ hsame => ?_
    have ho₁ := ho.of_sameCores hsame
    rw [ensures_bind, ensures_getJob]
    intro job hjob
    have hfits := ho₁.fits jobId job hjob
    split
    · next hmember =>
        have hoccupied := hmember.imp hfits.active_iff.mp hfits.commitment_iff.mp
        exact (keepsFrom_updateVolumeOfMember ho₁ hjob hoccupied).since hsame.retains
    · refine (Quiet.keeps (quiet_when (quiet_modifyJob fun job => ?_)) db₁ ⟨o, ho₁⟩).since hsame.retains
      simp [Job.core]

theorem keeps_initiateVolumeUpdate : (initiateVolumeUpdate cfg jobId).Keeps contract := by
  refine (quiet_getJob jobId).keeps.bind fun job => quiet_get.keeps.bind fun db => ?_
  split
  · exact keeps_when keeps_updateVolume
  split
  · exact keeps_pure ()
  split
  · exact keeps_updateVolume
  · exact keeps_pure ()

theorem quiet_setPendingRootReactivationRequest (req : JobRequest) : Quiet (setPendingRootReactivationRequest req) :=
  quiet_get.bind fun _ => (quiet_ensure (tolerated_of (by decide))).bind fun _ =>
    quiet_modify fun _ => ⟨rfl, rfl, rfl, fun _ => rfl⟩

theorem keeps_tryAdoptRequest (req : JobRequest) (source : Int) (mode : JobRequestMode) :
    (tryAdoptRequest cfg req source mode).Keeps contract := by
  intro db hdb
  rw [KeepsFrom, tryAdoptRequest, ensures_bind, ensures_get]
  simp only
  rw [ensures_bind]
  have hresult : (if cfg.reactivationScheduling ∧ mode ≠ .targetedRejoin ∧ db.hasInactiveJobsWaitingForReactivation cfg ∧
      req.requestedNodeIndex > 0 then pure .reject else tryAdopt cfg req mode source).Ensures contract db
      fun result db' => contract.invariant db' ∧ Retains db db' ∧
        ((result = .adoptFromIdle ∨ ∃ removed, result = .adoptReplaceCurrent removed) → Shows db' .idle) := by
    split
    · exact ⟨hdb, Retains.refl db, by simp⟩
    · exact ensures_tryAdopt hdb req mode source
  refine hresult.mono fun result db₁ hpost => ?_
  obtain ⟨hinv, hretains, hidle⟩ := hpost
  cases result with
  | adoptFromIdle => exact (keepsFrom_adopt (hidle (Or.inl rfl)) req).since hretains
  | adoptReplaceCurrent removed =>
      simp only
      rw [ensures_bind, ensures_getJob]
      intro _ _
      exact (keepsFrom_adopt (hidle (Or.inr ⟨removed, rfl⟩)) req).since hretains
  | reject =>
      simp only
      rw [ensures_bind, ensures_get]
      refine (Quiet.keeps (quiet_when ?_) db₁ hinv).since hretains
      exact quiet_setPendingRootReactivationRequest req
  | defer => exact ⟨hinv, hretains⟩

theorem keeps_handleRequestNode (msg : RequestMessage) : (handleRequestNode cfg msg).Keeps contract := by
  refine quiet_get.keeps.bind fun db => ?_
  simp only
  refine keeps_ite (keeps_pure ()) (keeps_ite ?_ (keeps_ite ?_ ?_))
  · refine (quiet_modify fun db => ?_).keeps.bind fun _ => keeps_notifyBalancer _
    exact ⟨rfl, rfl, rfl, fun _ => rfl⟩
  · refine (quiet_modify fun db => ?_).keeps
    exact ⟨rfl, rfl, rfl, fun _ => rfl⟩
  · refine (quiet_when (quiet_modifyJob fun job => ?_)).keeps.bind fun _ => keeps_tryAdoptRequest _ _ _
    rfl

/-- A job with a commitment is the one that the worker has committed itself to. -/
theorem Shows.eq_committed (h : Shows db o) (hjob : db.job? jobId = some job) (hcommitment : job.commitment.isSome) :
    Shows db (.committed jobId) := (h.fits jobId job hjob).commitment_iff.mp hcommitment ▸ h

theorem preserves_interruptJob (terminate : Bool) : (interruptJob cfg jobId terminate).Preserves contract := by
  intro db ⟨o, ho⟩
  rw [interruptJob, ensures_bind, ensures_get]
  split
  · exact ⟨o, ho⟩
  · next job hjob =>
      split
      · exact ⟨o, ho⟩
      have hcancelled : (when job.commitment.isSome (cancelCommitment cfg jobId)).Ensures contract db
          fun _ db' => contract.invariant db' := by
        rw [ensures_when]
        split
        · next hcommitment => exact (keepsFrom_cancelCommitment (ho.eq_committed hjob hcommitment)).mono fun _ _ h => h.1
        · exact ⟨o, ho⟩
      rw [ensures_bind]
      refine hcancelled.mono fun _ db₁ hinv => ?_
      split
      · exact preserves_terminate db₁ hinv
      · rw [ensures_bind, ensures_getJob]
        intro job₁ _
        exact preserves_when (fun _ h => (ensures_suspend h).mono fun _ _ h => h.1) db₁ hinv

theorem preserves_handleNotifyJobAborting : (handleNotifyJobAborting cfg jobId).Preserves contract := by
  refine quiet_get.keeps.preserves.bind fun db => ?_
  split
  · exact (keeps_pure ()).preserves
  · exact preserves_interruptJob _

theorem preserves_handleNotifyResultFound (revision : Int) :
    (handleNotifyResultFound cfg jobId revision).Preserves contract := by
  refine quiet_get.keeps.preserves.bind fun db => ?_
  split
  · exact (keeps_pure ()).preserves
  split
  · exact (keeps_pure ()).preserves
  refine (Quiet.keeps (quiet_modifyJob fun job => ?_)).preserves.bind fun _ =>
    (quiet_ensure (tolerated_of (by decide))).keeps.preserves.bind fun _ => preserves_interruptJob _
  rfl

theorem preserves_handleAnswerAdoptionOffer (source requestedNodeIndex : Int) (accepted : Bool) :
    (handleAnswerAdoptionOffer cfg source jobId requestedNodeIndex accepted).Preserves contract := by
  intro db ⟨o, ho⟩
  rw [handleAnswerAdoptionOffer, ensures_bind, ensures_get]
  split
  · exact ⟨o, ho⟩
  next req hreq =>
  obtain ⟨job, hjob, hcommitment⟩ := Option.bind_eq_some_iff.mp hreq
  obtain rfl : req.jobId = jobId := (ho.fits jobId job hjob).request req hcommitment
  split
  · exact ⟨o, ho⟩
  split
  · rw [ensures_bind]
    refine (keeps_initiateVolumeUpdate db ⟨o, ho⟩).mono fun _ db₁ hpost => ?_
    obtain ⟨⟨o₁, ho₁⟩, -⟩ := hpost
    rw [ensures_bind, ensures_getJob]
    intro job₁ hjob₁
    split
    · exact ⟨o₁, ho₁⟩
    next req₁ hreq₁ =>
    obtain hid : req₁.jobId = req.jobId := (ho₁.fits _ job₁ hjob₁).request req₁ hreq₁
    have hcommitted := ho₁.eq_committed hjob₁ (by simp [hreq₁])
    rw [ensures_bind]
    refine (quiet_modifyJob (fun _ => by rfl) db₁).mono fun _ db₂ hsame => ?_
    rw [ensures_when]
    split
    · rw [ensures_bind, hid]
      refine (ensures_uncommit (hcommitted.of_sameCores hsame)).mono fun _ db₃ hpost => ?_
      obtain ⟨hidle, -⟩ := hpost
      rw [ensures_bind, ensures_getJob]
      intro job₃ _
      split
      · exact (keepsFrom_reactivate hidle req₁).mono fun _ _ h => h.1
      · exact (keepsFrom_execute hidle).mono fun _ _ h => h.1
    · exact ⟨_, hcommitted.of_sameCores hsame⟩
  · have hcommitted := ho.eq_committed hjob (by simp [Option.mem_def.mp hcommitment])
    exact (keepsFrom_cancelCommitment hcommitted).mono fun _ _ h => h.1

theorem quiet_appendRevision (data : List UInt8) : Quiet (appendRevision jobId data) := by
  refine quiet_get.bind fun db => ?_
  split
  · exact quiet_pure false
  refine (quiet_ofExcept fun e he => ?_).bind fun rev => quiet_ite (quiet_pure false) ?_
  · cases hrev : JobDescription.readRevisionIndex data with
    | ok rev => rw [hrev] at he; cases he
    | error fault =>
        rw [hrev] at he
        exact Except.error.inj he ▸ tolerated_of (by simp)
  · have hchanged : Quiet (changeJob jobId fun job => job.pushRevision data) := fun db =>
      ensures_changeJob (takes_pushRevision data) fun job job' hjob _ hcore => sameCores_insert hjob hcore
    exact hchanged.bind fun _ => quiet_pure true

theorem preserves_handleSendJobDescription (data : List UInt8) :
    (handleSendJobDescription cfg data).Preserves contract := by
  rw [handleSendJobDescription]
  generalize (if 4 ≤ data.length then (ByteLayout.ofBytes 4 (data.take 4)).toInt else -1 : Int) = jobId
  intro db ⟨o, ho⟩
  rw [ensures_bind, ensures_get]
  split
  · rw [ensures_when]
    split
    · next hcommitted =>
        obtain ⟨job, hjob, hcommitment⟩ := (Option.any_eq_true _ _).mp hcommitted
        exact (keepsFrom_cancelCommitment (ho.eq_committed hjob hcommitment)).mono fun _ _ h => h.1
    · exact ⟨o, ho⟩
  rw [ensures_bind]
  refine (quiet_appendRevision data db).mono fun valid db₁ hsame₁ => ?_
  have ho₁ := ho.of_sameCores hsame₁
  split
  · exact ⟨o, ho₁⟩
  rw [ensures_bind, ensures_getJob]
  intro job hjob
  split
  · exact ⟨o, ho₁⟩
  next req hreq =>
  have hcommitted := ho₁.eq_committed hjob (by simp [hreq])
  rw [ensures_bind]
  refine (quiet_modifyJob (fun _ => by rfl) db₁).mono fun _ db₂ hsame₂ => ?_
  rw [ensures_bind]
  refine (ensures_uncommit (hcommitted.of_sameCores hsame₂)).mono fun _ db₃ hpost => ?_
  obtain ⟨hidle, -⟩ := hpost
  rw [ensures_bind]
  refine (keepsFrom_execute hidle).mono fun _ db₄ hpost => ?_
  obtain ⟨hinv, -⟩ := hpost
  exact (keeps_initiateVolumeUpdate db₄ hinv).mono fun _ _ h => h.1

theorem quiet_reportOffer (source : Int) (req : JobRequest) (rejected : Bool) :
    Quiet (reportOffer source req rejected) := by
  refine quiet_get.bind fun db => ?_
  split
  · exact quiet_pure ()
  · exact quiet_when (quiet_onScheduler _ _)

/-- A job that has just been read gets another tree with the same index. -/
theorem ensures_replaceTree {tree : JobTree} (hjob : db.job? jobId = some job) (htree : tree.index = job.tree.index) :
    (modifyJob jobId fun job => { job with tree := tree }).Ensures contract db fun _ db' => SameCores db db' := by
  rw [ensures_modifyJob]
  intro job₁ hjob₁
  obtain rfl : job = job₁ := Option.some.inj (hjob.symm.trans hjob₁)
  exact sameCores_insert hjob (by simp [Job.core, htree])

theorem quiet_handleOfferAdoption (source : Int) (req : JobRequest) : Quiet (handleOfferAdoption cfg source req) := by
  intro db
  rw [handleOfferAdoption, ensures_bind, ensures_get]
  split
  · exact SameCores.refl db
  next job hjob =>
  simp only
  rw [ensures_bind, ensures_when]
  have hreported {db₁ : JobDatabase} (hsame : SameCores db db₁) : (when cfg.reactivationScheduling
      (reportOffer source req (declinesOffer cfg db req))).Ensures contract db₁ fun _ db' => SameCores db db' :=
    (quiet_when (quiet_reportOffer source req _) db₁).mono fun _ _ h => hsame.trans h
  split
  · rw [ensures_bind]
    refine (ensures_replaceTree hjob (JobTree.index_setChild _ _)).mono fun _ db₁ hsame₁ => ?_
    refine (quiet_ensure (tolerated_of (by decide)) db₁).mono fun _ db₂ hsame₂ => ?_
    exact hreported (hsame₁.trans hsame₂)
  · exact hreported (SameCores.refl db)

theorem quiet_handleRejectOneshot (req : JobRequest) (isChildStillDormant : Bool) :
    Quiet (handleRejectOneshot cfg req isChildStillDormant) := by
  refine quiet_get.bind fun db => ?_
  split
  · exact quiet_pure ()
  · exact quiet_when (quiet_onScheduler _ _)

theorem quiet_handleNotifyNodeLeavingJob (source index : Int) :
    Quiet (handleNotifyNodeLeavingJob cfg source jobId index) := by
  intro db
  rw [handleNotifyNodeLeavingJob, ensures_bind, ensures_get]
  split
  · exact SameCores.refl db
  next job hjob =>
  simp only
  rw [ensures_bind]
  refine (ensures_replaceTree hjob (JobTree.index_prune _ _)).mono fun _ db₁ hsame => ?_
  split
  · exact (quiet_when (quiet_spawnJobRequest _) db₁).mono fun _ _ h => hsame.trans h
  · exact hsame

theorem keeps_handleDemandUpdate (job : Job) (demand : Int) : (handleDemandUpdate cfg job demand).Keeps contract :=
  (keeps_notifyBalancer _).bind fun _ => (quiet_setLastDemand demand).keeps

theorem preserves_checkJobs (limitExceeded : Bool) : (checkJobs cfg limitExceeded).Preserves contract := by
  have hroot : (reactivateRoot cfg).Keeps contract := by
    refine quiet_get.keeps.bind fun db => ?_
    split
    · refine (quiet_modify fun db => ?_).keeps.bind fun _ => keeps_handleRequestNode _
      exact ⟨rfl, rfl, rfl, fun _ => rfl⟩
    · exact keeps_pure ()
  refine hroot.preserves.bind fun _ => quiet_get.keeps.preserves.bind fun _ => preserves_when ?_
  refine quiet_getActive.keeps.preserves.bind fun job => ?_
  split
  · exact preserves_handleNotifyJobAborting
  · exact (keeps_when (quiet_get.keeps.bind fun _ => keeps_when (keeps_handleDemandUpdate job _))).preserves

theorem preserves_handle (h : Handler) : (handle cfg h).Preserves contract := by
  cases h with
  | answerAdoptionOffer source jobId requestedNodeIndex accepted =>
      exact preserves_handleAnswerAdoptionOffer source requestedNodeIndex accepted
  | notifyJobAborting jobId => exact preserves_handleNotifyJobAborting
  | notifyJobTerminating jobId => exact preserves_interruptJob true
  | notifyResultFound jobId revision => exact preserves_handleNotifyResultFound revision
  | incrementalJobFinished jobId => exact preserves_interruptJob true
  | interrupt jobId => exact preserves_interruptJob false
  | notifyNodeLeavingJob source jobId index => exact (quiet_handleNotifyNodeLeavingJob source index).keeps.preserves
  | notifyVolumeUpdate jobId volume balancingEpoch =>
      exact (quiet_get.keeps.bind fun _ => keeps_when keeps_updateVolume).preserves
  | offerAdoption source req => exact (quiet_handleOfferAdoption source req).keeps.preserves
  | rejectOneshot req isChildStillDormant => exact (quiet_handleRejectOneshot req isChildStillDormant).keeps.preserves
  | requestNode msg => exact (keeps_handleRequestNode msg).preserves
  | sendJobDescription data => exact preserves_handleSendJobDescription data
  | schedReleaseFromWaiting jobId epoch =>
      refine (quiet_get.bind fun _ => quiet_when (quiet_modifyJob fun job => ?_)).keeps.preserves
      rfl
  | schedulerCall jobId index schedulerCall =>
      exact (quiet_get.bind fun _ => quiet_when (quiet_onScheduler _ _)).keeps.preserves
  | balance => exact keeps_call.preserves
  | checkJobs limitExceeded => exact preserves_checkJobs limitExceeded
  | forgetOldJobs age ageSinceActivation => exact preserves_forgetOldJobs age ageSinceActivation
  | forwardDeferredRequests number =>
      refine (quiet_modify fun db => ?_).keeps.preserves
      exact ⟨rfl, rfl, rfl, fun _ => rfl⟩
  | observe env =>
      refine (quiet_modify fun db => ?_).keeps.preserves
      exact ⟨rfl, rfl, rfl, fun _ => rfl⟩

theorem keeps_callback (b : Callback) : (callback cfg b).Keeps contract := by
  cases b with
  | volumeUpdate jobId volume => exact quiet_get.keeps.bind fun _ => keeps_updateVolume
  | balancingDone =>
      have harrived : Quiet getArrivedFutureRequests := by
        refine quiet_get.bind fun _ => (quiet_modify fun db => ?_).bind fun _ => quiet_pure _
        exact ⟨rfl, rfl, rfl, fun _ => rfl⟩
      exact harrived.keeps.bind fun arrived => keeps_forM fun msg _ => keeps_handleRequestNode msg
  | observe env =>
      refine (quiet_modify fun db => ?_).keeps
      exact ⟨rfl, rfl, rfl, fun _ => rfl⟩

/-- What the members of the job database say on the occupancy is the same, whichever of them one asks. -/
structure Consistent (db : JobDatabase) : Prop where
  load_le_one : db.load ≤ 1
  load_iff_currentJob : db.load = 1 ↔ db.currentJob.isSome
  load_iff_active : db.load = 1 ↔ ∃! jobId, ∃ job, db.job? jobId = some job ∧ job.state = .active
  currentJob_iff : ∀ jobId, db.currentJob = some jobId ↔ ∃ job, db.job? jobId = some job ∧ job.state = .active
  commitment_iff : db.hasCommitment ↔ ∃! jobId, ∃ job, db.job? jobId = some job ∧ job.commitment.isSome
  commitment_unique : ∀ i j job job', db.job? i = some job → db.job? j = some job' → job.commitment.isSome →
    job'.commitment.isSome → i = j
  not_both : ∀ i j job job', db.job? i = some job → db.job? j = some job' → job.commitment.isSome → job'.state ≠ .active

theorem Shows.busy_iff (h : Shows db o) (i : Int) :
    o = .busy i ↔ ∃ job, db.job? i = some job ∧ job.state = .active := by
  refine ⟨fun ho => ?_, fun ⟨job, hjob, hactive⟩ => (h.fits i job hjob).active_iff.mp hactive⟩
  obtain ⟨job, hjob⟩ := h.stored i (Or.inl ho)
  exact ⟨job, hjob, (h.fits i job hjob).active_iff.mpr ho⟩

theorem Shows.committed_iff (h : Shows db o) (i : Int) :
    o = .committed i ↔ ∃ job, db.job? i = some job ∧ job.commitment.isSome := by
  refine ⟨fun ho => ?_, fun ⟨job, hjob, hcommitment⟩ => (h.fits i job hjob).commitment_iff.mp hcommitment⟩
  obtain ⟨job, hjob⟩ := h.stored i (Or.inr ho)
  exact ⟨job, hjob, (h.fits i job hjob).commitment_iff.mpr ho⟩

theorem Shows.consistent (h : Shows db o) : Consistent db where
  load_le_one := by
    rw [h.load_eq]
    cases o <;> simp [Occupancy.load]
  load_iff_currentJob := by
    rw [h.load_eq, h.currentJob_eq]
    cases o <;> simp [Occupancy.load, Occupancy.currentJob]
  load_iff_active := by
    simp only [h.load_eq, ← h.busy_iff]
    cases o <;> simp [Occupancy.load]
  currentJob_iff i := by
    rw [h.currentJob_eq, ← h.busy_iff]
    cases o <;> simp [Occupancy.currentJob]
  commitment_iff := by
    simp only [h.hasCommitment_eq, ← h.committed_iff]
    cases o <;> simp [Occupancy.hasCommitment]
  commitment_unique i j job job' hi hj hcommitment hcommitment' := by
    have ho := (h.committed_iff i).mpr ⟨job, hi, hcommitment⟩
    have ho' := (h.committed_iff j).mpr ⟨job', hj, hcommitment'⟩
    exact Occupancy.committed.inj (ho.symm.trans ho')
  not_both i j job job' hi hj hcommitment hactive := by
    have ho := (h.committed_iff i).mpr ⟨job, hi, hcommitment⟩
    have ho' := (h.busy_iff j).mpr ⟨job', hj, hactive⟩
    cases ho.symm.trans ho'

theorem shows_start (env : Environment) : Shows { env := env } .idle where
  load_eq := rfl
  currentJob_eq := rfl
  hasCommitment_eq := rfl
  fits i job hjob := by cases hjob
  stored i hi := by simp at hi

/-- After every run of handlers and callbacks of the worker its members agree on the occupancy, and no run fails at
the assertions on the load, on the current job or on the adoption. -/
theorem worker_occupancy (cfg : WorkerConfig) (env : Environment) (actions : List (Reentrant.Action Handler Callback)) :
    (∀ r, Runs.run (worker cfg).step ({ env := env }, []) actions = .ok r → Consistent r.1) ∧
      ∀ f, Runs.run (worker cfg).step ({ env := env }, []) actions = .error f →
        f ≠ .load ∧ f ≠ .currentJob ∧ f ≠ .notIdle := by
  obtain ⟨hok, herror⟩ := @Reentrant.Component.run_sound _ _ _ _ contract { env := env } (worker cfg) preserves_handle
    keeps_callback ⟨_, shows_start env⟩ actions
  exact ⟨fun r hr => (hok r hr).elim fun _ ho => ho.consistent, herror⟩

/-- A worker of eight adopts a child of job 7, and works on it when the description has arrived. -/
example : (do
    let description ← ({ id := 7 } : JobDescription).initialization 0 []
    let data ← description.getRevisionData 0
    let request : RequestMessage := ⟨⟨7, 0, 1, 1, 0, 0, 1, 5, .oneshotSat⟩, 1, .normal⟩
    return (Runs.run (worker ⟨3, 8, fun _ i => i, false, false, false, 2, fun _ => 1⟩).step
      ({ env := ⟨5, fun _ => some 4, fun _ => 8⟩ }, []) [.handle (.requestNode request),
        .handle (.sendJobDescription data)]).toOption.map fun r => (r.1.load, r.1.currentJob, r.1.hasCommitment) :
      Except JobDescription.Fault _) = .ok (some (1, some 7, false)) := by
  decide +kernel

end Mallob.Worker
