import Mallob.ClientJobs

namespace Mallob.Client.ClientJobs

open Runs

variable {o : ClientOptions} {s s' : ClientJobs} {data job : IncomingJob} {jobId revision : Nat} {time : ℚ}
  {terminating : Bool} {log log' : List Milestone} {m : Milestone} {jobs : List IncomingJob}

section Log

def introducedJobs (log : List Milestone) : List IncomingJob := log.filterMap Milestone.job

/-- What has to be in the log before: all jobs that a job depends on and the last revision of an increment are finished,
and only a revision that was introduced is finished. -/
def Follows (log : List Milestone) : Milestone → Prop
  | .introduced job => (∀ id ∈ job.dependencies, ∃ revision, .finished id revision ∈ log) ∧
      (job.isIncremental = true → 0 < job.revision → ∃ revision, job.revision = revision + 1 ∧
        .finished job.id revision ∈ log)
  | .finished jobId revision => ∃ job, .introduced job ∈ log ∧ job.id = jobId ∧ job.revision = revision

def InOrder (log : List Milestone) : Prop := ∀ before m after, log = before ++ m :: after → Follows before m

theorem Follows.mono (h : Follows log m) (hsub : log ⊆ log') : Follows log' m := by
  cases m with
  | introduced job =>
      refine ⟨fun id hid => ?_, fun hincremental hpos => ?_⟩
      · obtain ⟨revision, hmem⟩ := h.1 id hid
        exact ⟨revision, hsub hmem⟩
      · obtain ⟨revision, heq, hmem⟩ := h.2 hincremental hpos
        exact ⟨revision, heq, hsub hmem⟩
  | finished jobId revision =>
      obtain ⟨job, hmem, hid, hrevision⟩ := h
      exact ⟨job, hsub hmem, hid, hrevision⟩

theorem InOrder.concat (h : InOrder log) (hm : Follows log m) : InOrder (log ++ [m]) := by
  intro before m' after heq
  rcases List.eq_nil_or_concat after with rfl | ⟨after, last, rfl⟩
  · obtain ⟨rfl, hlast⟩ := List.append_inj' heq rfl
    obtain rfl := List.singleton_inj.mp hlast
    exact hm
  · rw [List.concat_eq_append, ← List.cons_append, ← List.append_assoc] at heq
    exact h before m' after (List.append_inj' heq rfl).1

theorem inOrder_nil : InOrder [] := fun before m after heq => by simp at heq

theorem introducedJobs_concat (log : List Milestone) (m : Milestone) :
    introducedJobs (log ++ [m]) = introducedJobs log ++ m.job.toList := by
  rw [introducedJobs, List.filterMap_append]
  cases m with
  | introduced job => rfl
  | finished jobId revision => rfl

end Log

section Queues

theorem perm_eraseP {p : IncomingJob → Bool} (h : jobs.find? p = some job) : jobs.Perm (job :: jobs.eraseP p) := by
  induction jobs with
  | nil => cases h
  | cons first jobs ih =>
      cases hp : p first with
      | true =>
          rw [List.find?_cons_of_pos hp] at h
          rw [List.eraseP_cons_of_pos hp, Option.some.inj h]
      | false =>
          rw [List.find?_cons_of_neg (by simp [hp])] at h
          rw [List.eraseP_cons_of_neg (by simp [hp])]
          exact ((ih h).cons first).trans (List.Perm.swap job first _)

theorem perm_moved {i : Nat} (h : jobs[i]? = some job) (before after : List IncomingJob) :
    (jobs.eraseIdx i ++ (before ++ job :: after)).Perm (jobs ++ (before ++ after)) := by
  obtain ⟨hi, rfl⟩ := List.getElem?_eq_some_iff.mp h
  calc jobs.eraseIdx i ++ (before ++ jobs[i] :: after)
    List.Perm _ (jobs.eraseIdx i ++ jobs[i] :: (before ++ after)) := List.perm_middle.append_left _
    List.Perm _ (jobs[i] :: jobs.eraseIdx i ++ (before ++ after)) := List.perm_middle
    List.Perm _ (jobs ++ (before ++ after)) := (List.getElem_cons_eraseIdx_perm hi).append_right _

end Queues

structure Sound (o : ClientOptions) (s : ClientJobs) : Prop where
  places : (s.reading ++ (s.skipped ++ (s.readyJobQueue ++ introducedJobs s.log))).Perm s.incoming.extracted
  ready : s.numReadyJobs = s.readyJobQueue.length
  loaded : s.numLoadedJobs + s.offers = s.readyJobQueue.length + (introducedJobs s.log).length
  bounded : 0 < o.activeJobsPerClient → s.activeJobs.size ≤ o.activeJobsPerClient
  active : ∀ id job, s.activeJobs[id]? = some job → job.id = id ∧ Follows s.log (.finished id job.revision)
  done : ∀ id revision, s.incoming.doneJobs id = some revision → .finished id revision ∈ s.log
  waiting : ∀ job ∈ s.reading ++ s.readyJobQueue, Follows s.log (.introduced job)
  inOrder : InOrder s.log

theorem sound_start (o : ClientOptions) : Sound o {} where
  places := List.Perm.refl _
  ready := rfl
  loaded := rfl
  bounded := fun _ => by simp
  active := fun id job h => by simp at h
  done := fun id revision h => by cases h
  waiting := fun job h => absurd h List.not_mem_nil
  inOrder := inOrder_nil

theorem lookup_insert (jobs : Std.ExtTreeMap Nat IncomingJob) (jobId id : Nat) :
    (jobs.insert jobId job)[id]? = if jobId = id then some job else jobs[id]? := by
  simp [Std.ExtTreeMap.getElem?_insert]

theorem lookup_erase (jobs : Std.ExtTreeMap Nat IncomingJob) (jobId id : Nat) :
    (jobs.erase jobId)[id]? = if jobId = id then none else jobs[id]? := by
  simp [Std.ExtTreeMap.getElem?_erase]

theorem size_insert_le (h : s.isEligible o job = true) (hpos : 0 < o.activeJobsPerClient)
    (hbounded : s.activeJobs.size ≤ o.activeJobsPerClient) (job' : IncomingJob) :
    (s.activeJobs.insert job.id job').size ≤ o.activeJobsPerClient := by
  rw [Std.ExtTreeMap.size_insert]
  split
  · exact hbounded
  · next hnew =>
      rw [isEligible, Bool.or_eq_true, Bool.or_eq_true, Bool.and_eq_true, decide_eq_true_eq, decide_eq_true_eq] at h
      rcases h with (hzero | hspace) | ⟨-, hcontains⟩
      · omega
      · exact hspace
      · exact absurd (Std.ExtTreeMap.contains_iff_mem.mp hcontains) hnew

theorem Sound.introduce (h : s.Sound o) (hfind : s.readyJobQueue.find? (s.isEligible o) = some job) (time : ℚ) :
    (s.introduce o job time).Sound o := by
  have hperm := perm_eraseP hfind
  have hlength := hperm.length_eq
  rw [List.length_cons] at hlength
  have hwaiting : Follows s.log (.introduced job) :=
    h.waiting job (List.mem_append_right _ (List.mem_of_find?_eq_some hfind))
  have hsub : s.log ⊆ s.log ++ [.introduced job] := List.subset_append_left _ _
  have hcount : introducedJobs (s.log ++ [.introduced job]) = introducedJobs s.log ++ [job] :=
    introducedJobs_concat s.log _
  refine ⟨?_, ?_, ?_, fun hpos => ?_, fun id active hactive => ?_,
    fun id revision hdone => hsub (h.done id revision hdone), fun waiting hmem => ?_, h.inOrder.concat hwaiting⟩
  · have hmoved : (s.readyJobQueue.eraseP (s.isEligible o) ++ (introducedJobs s.log ++ [job])).Perm
        (s.readyJobQueue ++ introducedJobs s.log) := by
      calc s.readyJobQueue.eraseP (s.isEligible o) ++ (introducedJobs s.log ++ [job])
        _ = (s.readyJobQueue.eraseP (s.isEligible o) ++ introducedJobs s.log) ++ [job] := (List.append_assoc ..).symm
        List.Perm _ ((job :: s.readyJobQueue.eraseP (s.isEligible o)) ++ introducedJobs s.log) :=
          List.perm_append_singleton ..
        List.Perm _ (s.readyJobQueue ++ introducedJobs s.log) := hperm.symm.append_right _
    simp only [ClientJobs.introduce, hcount]
    exact ((hmoved.append_left _).append_left _).trans h.places
  · have hready := h.ready
    simp only [ClientJobs.introduce]
    omega
  · have hloaded := h.loaded
    simp only [ClientJobs.introduce, hcount, List.length_append, List.length_singleton]
    omega
  · exact size_insert_le (List.find?_some hfind) hpos (h.bounded hpos) _
  · simp only [ClientJobs.introduce, lookup_insert] at hactive
    split at hactive
    · next heq =>
        obtain rfl := Option.some.inj hactive
        exact ⟨heq, job, List.mem_append_right _ List.mem_cons_self, heq, rfl⟩
    · obtain ⟨hid, hfollows⟩ := h.active id active hactive
      exact ⟨hid, hfollows.mono hsub⟩
  · refine (h.waiting waiting ?_).mono hsub
    rcases List.mem_append.mp hmem with hmem | hmem
    · exact List.mem_append_left _ hmem
    · exact List.mem_append_right _ (List.mem_of_mem_eraseP hmem)

theorem Sound.introduceNextJob (h : s.Sound o) (time : ℚ) (terminating : Bool) :
    (s.introduceNextJob o time terminating).Sound o := by
  rw [ClientJobs.introduceNextJob]
  split
  · exact h
  · cases hfind : s.readyJobQueue.find? (s.isEligible o) with
    | none => exact h
    | some job => exact h.introduce hfind time

theorem Sound.frame (h : s.Sound o) (sent : List ClientMessage) (reported : List (Nat × Nat × Int))
    (rootNodes : Nat → Option Nat) (processedJobs : Nat) :
    Sound o { s with sent := sent, reported := reported, rootNodes := rootNodes, processedJobs := processedJobs } :=
  ⟨h.places, h.ready, h.loaded, h.bounded, h.active, h.done, h.waiting, h.inOrder⟩

theorem Sound.handleNewJob (h : s.Sound o) (data : IncomingJob) : (s.handleNewJob data).Sound o := by
  have hsame : (s.incoming.handleNewJob data).extracted = s.incoming.extracted ∧
      (s.incoming.handleNewJob data).doneJobs = s.incoming.doneJobs := by
    rw [IncomingJobs.handleNewJob]
    split
    · exact ⟨rfl, rfl⟩
    · split
      · exact ⟨rfl, rfl⟩
      · exact ⟨rfl, rfl⟩
  refine ⟨?_, h.ready, h.loaded, h.bounded, h.active, fun id revision hdone => h.done id revision ?_, h.waiting,
    h.inOrder⟩
  · simp only [ClientJobs.handleNewJob, hsame.1]
    exact h.places
  · rw [← hsame.2]
    exact hdone

theorem dependenciesSatisfied_of_findJob {incoming : IncomingJobs} (h : incoming.findJob time jobs = some job) :
    incoming.dependenciesSatisfied job = true := by
  induction jobs with
  | nil => cases h
  | cons first jobs ih =>
      rw [IncomingJobs.findJob] at h
      split at h
      · cases h
      · split at h
        · next hsatisfied =>
            obtain rfl := Option.some.inj h
            exact hsatisfied
        · exact ih h

theorem Sound.follows_of_satisfied (h : s.Sound o) (hsatisfied : s.incoming.dependenciesSatisfied job = true) :
    Follows s.log (.introduced job) := by
  rw [IncomingJobs.dependenciesSatisfied, Bool.and_eq_true, List.all_eq_true] at hsatisfied
  refine ⟨fun id hid => ?_, fun hincremental hpos => ?_⟩
  · obtain ⟨revision, hdone⟩ := Option.isSome_iff_exists.mp (hsatisfied.1 id hid)
    exact ⟨revision, h.done id revision hdone⟩
  · have hprecursor := hsatisfied.2
    simp only [hincremental, hpos, decide_true, Bool.and_self, Bool.not_true, Bool.false_or] at hprecursor
    obtain ⟨revision, hdone, heq⟩ := (Option.any_eq_true _ _).mp hprecursor
    exact ⟨revision, of_decide_eq_true heq, h.done job.id revision hdone⟩

/-- The reader thread extracts the job that it hands to the thread pool, and changes nothing else. -/
theorem readIncomingJobs_frame (o : ClientOptions) (s : ClientJobs) (time : ℚ) :
    (s.readIncomingJobs o time).incoming.extracted = s.incoming.extracted ++ (s.jobToRead o time).toList ∧
      (s.readIncomingJobs o time).incoming.doneJobs = s.incoming.doneJobs := by
  simp only [ClientJobs.readIncomingJobs, IncomingJobs.readIncomingJobs, jobToRead]
  split
  · split
    · next hnone => exact ⟨by rw [hnone, Option.toList_none, List.append_nil], rfl⟩
    · next job hfind => exact ⟨by rw [hfind, Option.toList_some], rfl⟩
  · exact ⟨(List.append_nil _).symm, rfl⟩

theorem Sound.readIncomingJobs (h : s.Sound o) (time : ℚ) : (s.readIncomingJobs o time).Sound o := by
  obtain ⟨hextracted, hdone⟩ := readIncomingJobs_frame o s time
  refine ⟨?_, h.ready, h.loaded, h.bounded, h.active, fun id revision hfinished => ?_,
    fun job hmem => ?_, h.inOrder⟩
  · rw [hextracted]
    calc (s.reading ++ (s.jobToRead o time).toList) ++ (s.skipped ++ (s.readyJobQueue ++ introducedJobs s.log))
      List.Perm _ (s.reading ++ ((s.skipped ++ (s.readyJobQueue ++ introducedJobs s.log)) ++
          (s.jobToRead o time).toList)) := by
        rw [List.append_assoc]
        exact List.perm_append_comm.append_left _
      _ = (s.reading ++ (s.skipped ++ (s.readyJobQueue ++ introducedJobs s.log))) ++ (s.jobToRead o time).toList :=
        (List.append_assoc ..).symm
      List.Perm _ (s.incoming.extracted ++ (s.jobToRead o time).toList) := h.places.append_right _
  · rw [hdone] at hfinished
    exact h.done id revision hfinished
  · rcases List.mem_append.mp hmem with hmem | hmem
    · rcases List.mem_append.mp hmem with hmem | hmem
      · exact h.waiting job (List.mem_append_left _ hmem)
      · have hfound := Option.mem_toList.mp hmem
        rw [jobToRead] at hfound
        split at hfound
        · exact h.follows_of_satisfied (dependenciesSatisfied_of_findJob hfound)
        · cases hfound
    · exact h.waiting job (List.mem_append_right _ hmem)

theorem Sound.finishReading (h : s.Sound o) (i : Nat) (success : Bool) : (s.finishReading i success).Sound o := by
  rw [ClientJobs.finishReading]
  cases hi : s.reading[i]? with
  | none => exact h
  | some job =>
      have hwaiting := h.waiting job (List.mem_append_left _ (List.mem_of_getElem? hi))
      cases success with
      | true =>
          refine ⟨?_, ?_, ?_, h.bounded, h.active, h.done, fun job' hmem => ?_, h.inOrder⟩
          · have hmoved := perm_moved hi (s.skipped ++ s.readyJobQueue) (introducedJobs s.log)
            rw [List.append_assoc, List.append_assoc] at hmoved
            have hplaces := hmoved.trans h.places
            rw [← List.singleton_append, ← List.append_assoc s.readyJobQueue] at hplaces
            exact hplaces
          · have hready := h.ready
            simp only [if_true, List.length_append, List.length_singleton]
            omega
          · have hloaded := h.loaded
            simp only [if_true, List.length_append, List.length_singleton]
            omega
          · simp only [if_true, List.mem_append, List.mem_singleton] at hmem
            rcases hmem with hmem | hmem | rfl
            · exact h.waiting job' (List.mem_append_left _ (List.mem_of_mem_eraseIdx hmem))
            · exact h.waiting job' (List.mem_append_right _ hmem)
            · exact hwaiting
      | false =>
          refine ⟨?_, h.ready, h.loaded, h.bounded, h.active, h.done, fun job' hmem => ?_, h.inOrder⟩
          · have hmoved := perm_moved hi s.skipped (s.readyJobQueue ++ introducedJobs s.log)
            have hplaces := hmoved.trans h.places
            rw [← List.singleton_append, ← List.append_assoc s.skipped] at hplaces
            exact hplaces
          · rcases List.mem_append.mp hmem with hmem | hmem
            · exact h.waiting job' (List.mem_append_left _ (List.mem_of_mem_eraseIdx hmem))
            · exact h.waiting job' (List.mem_append_right _ hmem)

section Messages

theorem Sound.handleOfferAdoption (h : s.Sound o) {source : Nat} (hok : s.handleOfferAdoption source jobId = .ok s') :
    s'.Sound o := by
  rw [ClientJobs.handleOfferAdoption] at hok
  split at hok
  · cases hok
  · obtain rfl := Except.ok.inj hok
    refine ⟨h.places, h.ready, ?_, h.bounded, h.active, h.done, h.waiting, h.inOrder⟩
    have hloaded := h.loaded
    simp only
    omega

theorem Sound.handleJobDone (h : s.Sound o) {rank : Nat} (hok : s.handleJobDone rank jobId revision = .ok s') :
    s'.Sound o := by
  rw [ClientJobs.handleJobDone] at hok
  split at hok
  · cases hok
  · obtain rfl := Except.ok.inj hok
    exact h.frame _ _ _ _

theorem Sound.finish (h : s.Sound o) (hactive : s.activeJobs[jobId]? = some job) :
    Sound o { s with
      incoming := s.incoming.finishJob jobId job.revision
      log := s.log ++ [.finished jobId job.revision] } := by
  have hsub : s.log ⊆ s.log ++ [.finished jobId job.revision] := List.subset_append_left _ _
  have hcount : introducedJobs (s.log ++ [.finished jobId job.revision]) = introducedJobs s.log :=
    (introducedJobs_concat s.log _).trans (List.append_nil _)
  refine ⟨?_, h.ready, ?_, h.bounded, fun id active hid => ?_,
    fun id revision hdone => ?_, fun waiting hmem => (h.waiting waiting hmem).mono hsub,
    h.inOrder.concat (h.active jobId job hactive).2⟩
  · rw [hcount]
    exact h.places
  · rw [hcount]
    exact h.loaded
  · exact ⟨(h.active id active hid).1, (h.active id active hid).2.mono hsub⟩
  · simp only [IncomingJobs.finishJob] at hdone
    by_cases heq : id = jobId
    · subst heq
      rw [Function.update_self] at hdone
      rw [Option.some.inj hdone]
      exact List.mem_append_right _ List.mem_cons_self
    · rw [Function.update_of_ne heq] at hdone
      exact hsub (h.done id revision hdone)

theorem Sound.erase (h : s.Sound o) (jobId : Nat) (rootNodes : Nat → Option Nat) (processedJobs : Nat) :
    Sound o { s with
      rootNodes := rootNodes, activeJobs := s.activeJobs.erase jobId, processedJobs := processedJobs } := by
  refine ⟨h.places, h.ready, h.loaded, fun hpos => ?_, fun id active hid => ?_, h.done, h.waiting, h.inOrder⟩
  · exact (Std.ExtTreeMap.size_erase_le).trans (h.bounded hpos)
  · simp only [lookup_erase] at hid
    split at hid
    · cases hid
    · exact h.active id active hid

theorem Sound.finishJob (h : s.Sound o) {hasIncrementalSuccessors : Bool}
    (hok : s.finishJob o jobId hasIncrementalSuccessors time terminating = .ok s') : s'.Sound o := by
  rw [ClientJobs.finishJob] at hok
  cases hactive : s.activeJobs[jobId]? with
  | none =>
      rw [hactive] at hok
      cases hok
  | some job =>
      rw [hactive] at hok
      obtain rfl := Except.ok.inj hok
      have hfinished := h.finish hactive
      cases hasIncrementalSuccessors with
      | true => exact hfinished.introduceNextJob time terminating
      | false => exact (hfinished.erase jobId _ _).introduceNextJob time terminating

theorem Sound.handleSendJobResult (h : s.Sound o) {result : Int}
    (hok : s.handleSendJobResult o jobId revision result time terminating = .ok s') : s'.Sound o := by
  rw [ClientJobs.handleSendJobResult] at hok
  split at hok
  · cases hok
  · exact Sound.finishJob (h.frame _ _ _ _) hok

theorem Sound.handleAbort (h : s.Sound o) (hok : s.handleAbort o jobId time terminating = .ok s') : s'.Sound o := by
  rw [ClientJobs.handleAbort] at hok
  split at hok
  · cases hok
  · exact Sound.finishJob (h.frame _ _ _ _) hok

theorem Sound.endIncrementalJobs (h : s.Sound o) {jobIds : List Nat}
    (hok : jobIds.foldlM (endIncrementalJob o time terminating) s = .ok s') : s'.Sound o := by
  refine Runs.run_invariant h (fun s jobId s' hs hstep => ?_) hok
  rw [endIncrementalJob] at hstep
  exact Sound.finishJob (hs.frame _ _ _ _) hstep

theorem Sound.checkDoneJobs (h : s.Sound o) (hok : s.checkDoneJobs o time terminating = .ok s') : s'.Sound o := by
  have hcleared : Sound o { s with incoming.recentlyDoneJobs := [] } :=
    ⟨h.places, h.ready, h.loaded, h.bounded, h.active, h.done, h.waiting, h.inOrder⟩
  exact hcleared.endIncrementalJobs hok

end Messages

theorem Sound.step {event : Event} (h : s.Sound o) (hok : s.step o event = .ok s') :
    s'.Sound o := by
  cases event with
  | handleNewJob data =>
      obtain rfl := Except.ok.inj hok
      exact h.handleNewJob data
  | readIncomingJobs time =>
      obtain rfl := Except.ok.inj hok
      exact h.readIncomingJobs time
  | finishReading i success =>
      obtain rfl := Except.ok.inj hok
      exact h.finishReading i success
  | introduceNextJob time terminating =>
      obtain rfl := Except.ok.inj hok
      exact h.introduceNextJob time terminating
  | handleOfferAdoption source jobId => exact h.handleOfferAdoption hok
  | handleJobDone successfulRank jobId revision => exact h.handleJobDone hok
  | handleSendJobResult jobId revision result time terminating => exact h.handleSendJobResult hok
  | handleAbort jobId time terminating => exact h.handleAbort hok
  | checkDoneJobs time terminating => exact h.checkDoneJobs hok

theorem sound_of_run {events : List Event} (hrun : run (step o) {} events = .ok s) : s.Sound o :=
  run_invariant (sound_start o) (fun _ _ _ h hok => h.step hok) hrun

/-- A job is introduced if there is any eligible one, and then it is the first of them. -/
theorem Sound.introduceNextJob_cases (h : s.Sound o) (time : ℚ) :
    ((∀ job ∈ s.readyJobQueue, s.isEligible o job = false) ∧ s.introduceNextJob o time false = s) ∨
    ∃ before job after, s.readyJobQueue = before ++ job :: after ∧ (∀ other ∈ before, s.isEligible o other = false) ∧
      s.isEligible o job = true ∧ s.introduceNextJob o time false = s.introduce o job time := by
  have hready := h.ready
  rw [ClientJobs.introduceNextJob]
  cases hfind : s.readyJobQueue.find? (s.isEligible o) with
  | none =>
      refine Or.inl ⟨fun job hmem => ?_, by split <;> rfl⟩
      rw [← Bool.not_eq_true]
      exact List.find?_eq_none.mp hfind job hmem
  | some job =>
      obtain ⟨heligible, before, after, hqueue, hbefore⟩ := List.find?_eq_some_iff_append.mp hfind
      have hnonempty : ¬ (false = true ∨ s.numReadyJobs = 0) := by
        rw [hready, hqueue, List.length_append, List.length_cons]
        simp only [Bool.false_eq_true, false_or]
        omega
      refine Or.inr ⟨before, job, after, hqueue, fun other hmem => ?_, heligible, if_neg hnonempty⟩
      simpa using hbefore other hmem

section Submission

def Distinct (s : ClientJobs) : Event → Prop
  | .handleNewJob data => s.incoming.Distinct (.handleNewJob data)
  | _ => True

@[simp] theorem introduceNextJob_incoming (o : ClientOptions) (s : ClientJobs) (time : ℚ) (terminating : Bool) :
    (s.introduceNextJob o time terminating).incoming = s.incoming := by
  rw [ClientJobs.introduceNextJob]
  split
  · rfl
  · split
    · rfl
    · rfl

theorem kept_finishJob (h : s.incoming.Kept) {hasIncrementalSuccessors : Bool}
    (hok : s.finishJob o jobId hasIncrementalSuccessors time terminating = .ok s') : s'.incoming.Kept := by
  rw [ClientJobs.finishJob] at hok
  split at hok
  · cases hok
  · obtain rfl := Except.ok.inj hok
    rw [introduceNextJob_incoming]
    cases hasIncrementalSuccessors with
    | true => exact ⟨h.perm, h.count⟩
    | false => exact ⟨h.perm, h.count⟩

theorem kept_step {event : Event} (h : s.incoming.Kept) (hdistinct : s.Distinct event)
    (hok : s.step o event = .ok s') : s'.incoming.Kept := by
  cases event with
  | handleNewJob data =>
      obtain rfl := Except.ok.inj hok
      exact (h.step_iff (.handleNewJob data)).mpr hdistinct _ rfl
  | readIncomingJobs time =>
      obtain rfl := Except.ok.inj hok
      exact h.readIncomingJobs time _ _
  | finishReading i success =>
      obtain rfl := Except.ok.inj hok
      rw [ClientJobs.finishReading]
      split
      · exact h
      · split
        · exact h
        · exact h
  | introduceNextJob time terminating =>
      obtain rfl := Except.ok.inj hok
      rw [introduceNextJob_incoming]
      exact h
  | handleOfferAdoption source jobId =>
      rw [ClientJobs.step, ClientJobs.handleOfferAdoption] at hok
      split at hok
      · cases hok
      · obtain rfl := Except.ok.inj hok
        exact h
  | handleJobDone successfulRank jobId revision =>
      rw [ClientJobs.step, ClientJobs.handleJobDone] at hok
      split at hok
      · cases hok
      · obtain rfl := Except.ok.inj hok
        exact h
  | handleSendJobResult jobId revision result time terminating =>
      rw [ClientJobs.step, ClientJobs.handleSendJobResult] at hok
      split at hok
      · cases hok
      · exact kept_finishJob (by exact h) hok
  | handleAbort jobId time terminating =>
      rw [ClientJobs.step, ClientJobs.handleAbort] at hok
      split at hok
      · cases hok
      · exact kept_finishJob (by exact h) hok
  | checkDoneJobs time terminating =>
      have hfold : run (endIncrementalJob o time terminating) { s with incoming.recentlyDoneJobs := [] }
          s.incoming.recentlyDoneJobs = .ok s' := hok
      refine run_invariant (P := fun s : ClientJobs => s.incoming.Kept) ?_ ?_ hfold
      · exact ⟨h.perm, h.count⟩
      · intro s jobId s' hs hstep
        rw [endIncrementalJob] at hstep
        exact kept_finishJob (by exact hs) hstep

end Submission

/-- While new jobs can be told apart, every submitted job is at one place on its way through the client, the counters
agree with the queues, the limit on active jobs is kept, and no eligible job is passed over for a later one. -/
theorem client_jobs_kept (o : ClientOptions) (events : List Event) (s : ClientJobs)
    (hrun : Reaches (step o) Distinct {} events s) :
    (s.incoming.incomingJobQueue.toList ++ (s.reading ++ (s.skipped ++
      (s.readyJobQueue ++ introducedJobs s.log)))).Perm s.incoming.submitted ∧
    s.incoming.numIncomingJobs = s.incoming.incomingJobQueue.toList.length ∧
    s.numReadyJobs = s.readyJobQueue.length ∧
    s.numLoadedJobs + s.offers = s.readyJobQueue.length + (introducedJobs s.log).length ∧
    (0 < o.activeJobsPerClient → s.activeJobs.size ≤ o.activeJobsPerClient) ∧
    ∀ time, ((∀ job ∈ s.readyJobQueue, s.isEligible o job = false) ∧ s.introduceNextJob o time false = s) ∨
      ∃ before job after, s.readyJobQueue = before ++ job :: after ∧ (∀ other ∈ before, s.isEligible o other = false) ∧
        s.isEligible o job = true ∧ s.introduceNextJob o time false = s.introduce o job time := by
  have h : s.Sound o := hrun.invariant (sound_start o) fun _ _ _ h _ hok => h.step hok
  have hkept : s.incoming.Kept := hrun.invariant (P := fun s : ClientJobs => s.incoming.Kept) IncomingJobs.kept_start
    fun _ _ _ h hdistinct hok => kept_step h hdistinct hok
  exact ⟨(h.places.append_left _).trans hkept.perm, hkept.count, h.ready, h.loaded, h.bounded,
    h.introduceNextJob_cases⟩

def revisionAt (revision : Nat) : IncomingJob := { IncomingJobs.increment revision with arrival := revision }

def twoRevisions : List Event :=
  [.handleNewJob (revisionAt 0), .handleNewJob (revisionAt 1), .readIncomingJobs 5, .readIncomingJobs 5,
    .finishReading 0 true, .introduceNextJob 5 false, .handleOfferAdoption 3 1, .handleSendJobResult 1 0 10 6 false,
    .readIncomingJobs 7, .finishReading 0 true, .introduceNextJob 7 false]

def oneActiveJob : ClientOptions := ⟨32, 1, fun _ => 0⟩

def isDistinct (s : ClientJobs) : Event → Bool
  | .handleNewJob data => s.incoming.incomingJobQueue.toList.all fun job =>
      !(decide (data.arrival = job.arrival) && decide (data.id = job.id))
  | _ => true

theorem distinct_of_isDistinct {event : Event} (h : s.isDistinct event = true) : s.Distinct event := by
  cases event with
  | handleNewJob data =>
      intro _ _ job hmem hsame
      have hapart := List.all_eq_true.mp h job hmem
      rw [hsame.1, hsame.2] at hapart
      simp at hapart
  | _ => trivial

theorem reaches_twoRevisions : ∃ s, Reaches (step oneActiveJob) Distinct {} twoRevisions s ∧
    s.incoming.submitted.map (·.revision) = [0, 1] ∧ (introducedJobs s.log).map (·.revision) = [0, 1] ∧
    s.sent = [.requestNode 0 1 0, .jobDescription 3 1 0, .requestNode 3 1 1] ∧ s.activeJobs.size = 1 := by
  have hrun : (twoRevisions.foldlM (checked isDistinct (step oneActiveJob)) {}).map
      (fun s => (s.incoming.submitted.map (·.revision), (introducedJobs s.log).map (·.revision), s.sent,
        s.activeJobs.size)) =
      some ([0, 1], [0, 1], [.requestNode 0 1 0, .jobDescription 3 1 0, .requestNode 3 1 1], 1) := by
    decide +kernel
  obtain ⟨s, hs, heq⟩ := Option.map_eq_some_iff.mp hrun
  simp only [Prod.mk.injEq] at heq
  exact ⟨s, .of_checked (fun _ _ hcheck => distinct_of_isDistinct hcheck) hs, heq⟩

theorem client_jobs_kept_twoRevisions : ∃ s : ClientJobs, s.incoming.submitted.map (·.revision) = [0, 1] ∧
    (introducedJobs s.log).map (·.revision) = [0, 1] ∧ s.activeJobs.size = 1 ∧
    s.numLoadedJobs + s.offers = s.readyJobQueue.length + (introducedJobs s.log).length := by
  obtain ⟨s, hreaches, hsubmitted, hintroduced, -, hactive⟩ := reaches_twoRevisions
  obtain ⟨-, -, -, hloaded, -, -⟩ := client_jobs_kept oneActiveJob twoRevisions s hreaches
  exact ⟨s, hsubmitted, hintroduced, hactive, hloaded⟩

/-- No job is introduced before the jobs it depends on are finished, no increment before the revision in front of it is
finished, and only what was introduced is finished. -/
theorem introduced_in_order (o : ClientOptions) (events : List Event) (s : ClientJobs)
    (hrun : run (step o) {} events = .ok s) : InOrder s.log := (sound_of_run hrun).inOrder

theorem introduced_in_order_twoRevisions : ∃ s : ClientJobs,
    (introducedJobs s.log).map (·.revision) = [0, 1] ∧
    s.sent = [.requestNode 0 1 0, .jobDescription 3 1 0, .requestNode 3 1 1] ∧ InOrder s.log := by
  obtain ⟨s, hreaches, -, hintroduced, hsent, -⟩ := reaches_twoRevisions
  exact ⟨s, hintroduced, hsent, introduced_in_order oneActiveJob twoRevisions s hreaches.run_eq⟩

end Mallob.Client.ClientJobs
