import Mallob.ArrivalTimes
import Mallob.JsonInterface
import Mallob.Runs

namespace Mallob.Client

open Runs

structure IncomingJob extends JobMetadata where
  arrival : ℚ

namespace IncomingJob

def before (a b : IncomingJob) : Bool :=
  if a.arrival ≠ b.arrival then a.arrival < b.arrival else a.id < b.id

def key (data : IncomingJob) : ℚ ×ₗ Nat := toLex (data.arrival, data.id)

theorem before_iff (a b : IncomingJob) : before a b = true ↔ a.key < b.key := by
  simp only [before, key, Prod.Lex.toLex_lt_toLex]
  by_cases h : a.arrival = b.arrival
  · simp [h]
  · simp [h]

instance : Comparator before := .of_key key before_iff

theorem equivalent_iff_same {a b : IncomingJob} :
    equivalent before a b = true ↔ a.arrival = b.arrival ∧ a.id = b.id := by
  rw [equivalent_iff_key before_iff]
  simp [key]

def isIncremental (data : IncomingJob) : Bool := data.application = .incrementalSat

end IncomingJob

open IncomingJob

/-- The queue of incoming jobs and what the reader thread reads along with it. The jobs that were submitted to the
queue and the ones that the reader extracted are recorded. -/
structure IncomingJobs where
  arrivals : Arrivals := {}
  incomingJobQueue : OrderedSet before := OrderedSet.empty
  numIncomingJobs : Int := 0
  recentlyDoneJobs : List Nat := []
  jobsToInterrupt : List Nat := []
  numJobsToInterrupt : Int := 0
  doneJobs : Nat → Option Nat := fun _ => none
  submitted : List IncomingJob := []
  extracted : List IncomingJob := []

namespace IncomingJobs

def handleNewJob (s : IncomingJobs) (data : IncomingJob) : IncomingJobs :=
  if data.done then { s with recentlyDoneJobs := s.recentlyDoneJobs.insert data.id }
  else if data.interrupt then
    { s with
      jobsToInterrupt := s.jobsToInterrupt.insert data.id
      numJobsToInterrupt := s.numJobsToInterrupt + 1 }
  else
    { s with
      arrivals := s.arrivals.handleNewJob data.arrival
      incomingJobQueue := s.incomingJobQueue.insert data
      numIncomingJobs := s.numIncomingJobs + 1
      submitted := s.submitted ++ [data] }

/-- All jobs that the job depends on are done, and for an increment its precursor. -/
def dependenciesSatisfied (s : IncomingJobs) (data : IncomingJob) : Bool :=
  data.dependencies.all (fun jobId => (s.doneJobs jobId).isSome) &&
    (!(data.isIncremental && data.revision > 0) ||
      (s.doneJobs data.id).any (fun revision => data.revision = revision + 1))

def findJob (s : IncomingJobs) (time : ℚ) : List IncomingJob → Option IncomingJob
  | [] => none
  | data :: rest =>
      if time < data.arrival then none
      else if s.dependenciesSatisfied data then some data
      else s.findJob time rest

def readIncomingJobs (s : IncomingJobs) (time : ℚ) (numLoadedJobs loadedJobsPerClient : Int) : IncomingJobs :=
  if s.numIncomingJobs > 0 ∧ numLoadedJobs < loadedJobsPerClient then
    match s.findJob time s.incomingJobQueue.toList with
    | none => s
    | some data =>
        { s with
          incomingJobQueue := s.incomingJobQueue.erase data
          numIncomingJobs := s.numIncomingJobs - 1
          extracted := s.extracted ++ [data] }
  else s

def finishJob (s : IncomingJobs) (jobId revision : Nat) : IncomingJobs :=
  { s with doneJobs := Function.update s.doneJobs jobId (some revision) }

inductive Event
  | handleNewJob (data : IncomingJob)
  | readIncomingJobs (time : ℚ) (numLoadedJobs loadedJobsPerClient : Int)
  | finishJob (jobId revision : Nat)

def Event.jobRevision : Event → Option (Nat × Nat)
  | .handleNewJob data => some (data.id, data.revision)
  | _ => none

def step (s : IncomingJobs) : Event → Except Empty IncomingJobs
  | .handleNewJob data => .ok (s.handleNewJob data)
  | .readIncomingJobs time numLoadedJobs loadedJobsPerClient =>
      .ok (s.readIncomingJobs time numLoadedJobs loadedJobsPerClient)
  | .finishJob jobId revision => .ok (s.finishJob jobId revision)

/-- Each submitted job is in the queue or was extracted once, and the queue has as many jobs as are counted. -/
structure Kept (s : IncomingJobs) : Prop where
  perm : (s.incomingJobQueue.toList ++ s.extracted).Perm s.submitted
  count : s.numIncomingJobs = s.incomingJobQueue.toList.length

def Distinct (s : IncomingJobs) : Event → Prop
  | .handleNewJob data =>
      data.done = false → data.interrupt = false →
        ∀ job ∈ s.incomingJobQueue.toList, ¬(data.arrival = job.arrival ∧ data.id = job.id)
  | _ => True

variable {s : IncomingJobs} {data : IncomingJob}

theorem mem_of_findJob {time : ℚ} {jobs : List IncomingJob} (h : s.findJob time jobs = some data) : data ∈ jobs := by
  induction jobs with
  | nil => cases h
  | cons job jobs ih =>
      rw [findJob] at h
      split at h
      · cases h
      · split at h
        · obtain rfl := Option.some.inj h
          exact List.mem_cons_self
        · exact List.mem_cons_of_mem job (ih h)

theorem Kept.readIncomingJobs (h : s.Kept) (time : ℚ) (numLoadedJobs loadedJobsPerClient : Int) :
    (s.readIncomingJobs time numLoadedJobs loadedJobsPerClient).Kept := by
  rw [IncomingJobs.readIncomingJobs]
  split
  · split
    · exact h
    · next job hfind =>
        have hperm := s.incomingJobQueue.perm_erase (mem_of_findJob hfind)
        refine ⟨?_, ?_⟩
        · calc (s.incomingJobQueue.erase job).toList ++ (s.extracted ++ [job])
            _ = ((s.incomingJobQueue.erase job).toList ++ s.extracted) ++ [job] := (List.append_assoc ..).symm
            List.Perm _ ((job :: (s.incomingJobQueue.erase job).toList) ++ s.extracted) := List.perm_append_singleton ..
            List.Perm _ (s.incomingJobQueue.toList ++ s.extracted) := hperm.symm.append_right _
            List.Perm _ s.submitted := h.perm
        · have hlength := hperm.length_eq
          rw [List.length_cons] at hlength
          have hcount := h.count
          simp only
          omega
  · exact h

/-- A new job is kept if and only if the comparator tells it apart from all queued ones. -/
theorem Kept.handleNewJob_iff (h : s.Kept) (hdone : data.done = false) (hinterrupt : data.interrupt = false) :
    (s.handleNewJob data).Kept ↔
      ∀ job ∈ s.incomingJobQueue.toList, ¬(data.arrival = job.arrival ∧ data.id = job.id) := by
  rw [IncomingJobs.handleNewJob, if_neg (by simp [hdone]), if_neg (by simp [hinterrupt])]
  constructor
  · intro hkept job hjob hsame
    have hinsert := s.incomingJobQueue.insert_of_equivalent (equivalent_iff_same.mpr hsame) hjob
    have hcount := hkept.count
    have hbefore := h.count
    simp only [hinsert] at hcount
    omega
  · intro hdistinct
    have hperm := s.incomingJobQueue.perm_insert (x := data) fun job hjob => by
      rw [← Bool.not_eq_true, equivalent_iff_same]
      exact hdistinct job hjob
    refine ⟨?_, ?_⟩
    · calc (s.incomingJobQueue.insert data).toList ++ s.extracted
        List.Perm _ ((data :: s.incomingJobQueue.toList) ++ s.extracted) := hperm.append_right _
        List.Perm _ (s.incomingJobQueue.toList ++ s.extracted ++ [data]) := (List.perm_append_singleton ..).symm
        List.Perm _ (s.submitted ++ [data]) := h.perm.append_right _
    · have hlength := hperm.length_eq
      rw [List.length_cons] at hlength
      have hcount := h.count
      simp only
      omega

theorem Kept.step_iff (h : s.Kept) (e : Event) : (∀ s', s.step e = .ok s' → s'.Kept) ↔ s.Distinct e := by
  cases e with
  | handleNewJob data =>
      have hstep : (∀ s', s.step (.handleNewJob data) = .ok s' → s'.Kept) ↔ (s.handleNewJob data).Kept := by
        constructor
        · intro hall
          exact hall _ rfl
        · rintro hkept s' hok
          obtain rfl := Except.ok.inj hok
          exact hkept
      rw [hstep, Distinct]
      cases hdone : data.done with
      | true =>
          refine iff_of_true ?_ (fun hfalse => nomatch hfalse)
          rw [IncomingJobs.handleNewJob, if_pos hdone]
          exact ⟨h.perm, h.count⟩
      | false =>
          cases hinterrupt : data.interrupt with
          | true =>
              refine iff_of_true ?_ (fun _ hfalse => nomatch hfalse)
              rw [IncomingJobs.handleNewJob, if_neg (by simp [hdone]), if_pos hinterrupt]
              exact ⟨h.perm, h.count⟩
          | false =>
              rw [h.handleNewJob_iff hdone hinterrupt]
              exact ⟨fun hall _ _ => hall, fun hall => hall rfl rfl⟩
  | readIncomingJobs time numLoadedJobs loadedJobsPerClient =>
      refine iff_of_true (fun s' hok => ?_) trivial
      obtain rfl := Except.ok.inj hok
      exact h.readIncomingJobs time numLoadedJobs loadedJobsPerClient
  | finishJob jobId revision =>
      refine iff_of_true (fun s' hok => ?_) trivial
      obtain rfl := Except.ok.inj hok
      exact ⟨h.perm, h.count⟩

theorem kept_start : Kept {} := ⟨List.Perm.refl _, rfl⟩

/-- No job is lost along a run if and only if each new one differs from the queued ones in arrival time or id. -/
theorem jobs_kept_iff (events : List Event) :
    (∀ k s, run step {} (events.take k) = .ok s → s.Kept) ↔ Throughout step Distinct {} events := by
  rw [← throughout_iff_reached kept_start events]
  refine throughout_congr (fun s e hs => hs.step_iff e) (fun s e s' hs he hok => ?_) kept_start events
  exact (hs.step_iff e).mpr he s' hok

def increment (revision : Nat) : IncomingJob where
  id := 1
  revision := revision
  application := .incrementalSat
  arrival := 100

def twoIncrements : List Event := [.handleNewJob (increment 0), .handleNewJob (increment 1)]

theorem increment_lost :
    (∃ s, run step {} twoIncrements = .ok s ∧ s.incomingJobQueue.toList = [increment 0] ∧ s.extracted = [] ∧
      s.numIncomingJobs = 2) ∧
    ¬∀ events : List Event, (events.filterMap Event.jobRevision).Nodup →
      ∀ k s, run step {} (events.take k) = .ok s → s.Kept := by
  have hrun : ∃ s, run step {} twoIncrements = .ok s ∧ s.incomingJobQueue.toList = [increment 0] ∧
      s.extracted = [] ∧ s.numIncomingJobs = 2 := ⟨_, rfl, rfl, rfl, rfl⟩
  refine ⟨hrun, fun hall => ?_⟩
  obtain ⟨s, hok, hqueue, -, hcount⟩ := hrun
  have hkept := (hall twoIncrements (by decide) 2 s hok).count
  rw [hqueue, hcount] at hkept
  exact absurd hkept (by decide)

end IncomingJobs

end Mallob.Client
