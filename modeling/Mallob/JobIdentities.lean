import Mallob.JsonInterface
import Mallob.Runs

namespace Mallob

namespace JsonInterface

section Names

variable {s : JsonInterface}

structure Mapped (s s' : JsonInterface) : Prop where
  latest : s'.jobIdToLatestRev = s.jobIdToLatestRev
  images : s'.jobIdRevToImage = s.jobIdRevToImage
  known : ∀ name entry, s.jobNameToIdRev name = some entry → s'.jobNameToIdRev name = some entry
  new : ∀ name id rev, s'.jobNameToIdRev name = some (id, rev) →
    s.jobNameToIdRev name = some (id, rev) ∨ s.runningId ≤ id ∧ id < s'.runningId
  running : s.runningId ≤ s'.runningId

theorem Mapped.refl (s : JsonInterface) : Mapped s s :=
  ⟨rfl, rfl, fun _ _ h => h, fun _ _ _ h => Or.inl h, le_rfl⟩

theorem Mapped.trans {s₁ s₂ s₃ : JsonInterface} (h : Mapped s₁ s₂) (h' : Mapped s₂ s₃) : Mapped s₁ s₃ where
  latest := h'.latest.trans h.latest
  images := h'.images.trans h.images
  known name entry hentry := h'.known name entry (h.known name entry hentry)
  new name id rev hentry := by
    have hrunning := h.running
    have hrunning' := h'.running
    rcases h'.new name id rev hentry with hold | ⟨hlower, hupper⟩
    · rcases h.new name id rev hold with hold | ⟨hlower, hupper⟩
      · exact Or.inl hold
      · exact Or.inr ⟨hlower, by omega⟩
    · exact Or.inr ⟨by omega, hupper⟩
  running := h.running.trans h'.running

theorem mapped_mapName (s : JsonInterface) (name : Name) : Mapped s (s.mapName name).1 := by
  unfold mapName
  cases hname : s.jobNameToIdRev name with
  | some entry => exact Mapped.refl s
  | none =>
      refine ⟨rfl, rfl, ?_, ?_, Nat.le_succ _⟩
      · intro other entry hentry
        have hne : other ≠ name := by
          rintro rfl
          rw [hname] at hentry
          cases hentry
        simp only
        rw [Function.update_of_ne hne]
        exact hentry
      · intro other id rev hentry
        simp only at hentry
        by_cases hother : other = name
        · rw [hother, Function.update_self] at hentry
          obtain ⟨rfl, -⟩ := Prod.mk.inj (Option.some.inj hentry)
          exact Or.inr ⟨le_rfl, Nat.lt_succ_self _⟩
        · rw [Function.update_of_ne hother] at hentry
          exact Or.inl hentry

theorem mapName_eq (s : JsonInterface) (name : Name) :
    ∃ rev, (s.mapName name).1.jobNameToIdRev name = some ((s.mapName name).2, rev) := by
  unfold mapName
  cases hname : s.jobNameToIdRev name with
  | some entry => exact ⟨entry.2, hname⟩
  | none => exact ⟨0, Function.update_self ..⟩

theorem mapName_known {name : Name} {id rev : Nat} (h : s.jobNameToIdRev name = some (id, rev)) :
    s.mapName name = (s, id) := by
  unfold mapName
  rw [h]

theorem mapName_new {name : Name} (h : s.jobNameToIdRev name = none) : (s.mapName name).2 = s.runningId := by
  unfold mapName
  rw [h]

theorem mapped_mapNames (s : JsonInterface) (names : List Name) : Mapped s (s.mapNames names).1 := by
  induction names generalizing s with
  | nil => exact Mapped.refl s
  | cons name names ih => exact (mapped_mapName s name).trans (ih _)

end Names

/-- Erasing images one after the other works exactly if all of them are there. -/
theorem eraseImages_eq (id : Nat) (images : Nat × Nat → Option JobImage) (revs : List Nat) (hrevs : revs.Nodup) :
    revs.foldlM (eraseImage id) images =
      if ∀ rev ∈ revs, (images (id, rev)).isSome = true then
        .ok fun key => if key.1 = id ∧ key.2 ∈ revs then none else images key
      else .error .outOfRange := by
  induction revs generalizing images with
  | nil => simp [pure, Except.pure]
  | cons rev revs ih =>
      obtain ⟨hrev, hrest⟩ := List.nodup_cons.mp hrevs
      rw [List.foldlM_cons, eraseImage]
      cases himage : images (id, rev) with
      | none =>
          rw [if_neg]
          · rfl
          · intro hall
            have hsome := hall rev List.mem_cons_self
            rw [himage] at hsome
            cases hsome
      | some img =>
          have hother : ∀ rev' ∈ revs, Function.update images (id, rev) none (id, rev') = images (id, rev') := by
            intro rev' hrev'
            refine Function.update_of_ne ?_ _ _
            intro heq
            exact hrev ((Prod.mk.inj heq).2 ▸ hrev')
          have hiff : (∀ rev' ∈ revs, (Function.update images (id, rev) none (id, rev')).isSome = true) ↔
              ∀ rev' ∈ rev :: revs, (images (id, rev')).isSome = true := by
            rw [List.forall_mem_cons, himage]
            constructor
            · exact fun hall => ⟨rfl, fun rev' hrev' => hother rev' hrev' ▸ hall rev' hrev'⟩
            · exact fun hall rev' hrev' => (hother rev' hrev').symm ▸ hall.2 rev' hrev'
          refine (ih _ hrest).trans ?_
          simp only [hiff]
          congr 2
          funext key
          by_cases hkey : key = (id, rev)
          · subst hkey
            simp
          · rw [Function.update_of_ne hkey]
            have hiff' : (key.1 = id ∧ key.2 ∈ rev :: revs) ↔ key.1 = id ∧ key.2 ∈ revs := by
              rw [List.mem_cons]
              constructor
              · rintro ⟨hid, hrev' | hrev'⟩
                · exact absurd (Prod.ext hid hrev') hkey
                · exact ⟨hid, hrev'⟩
              · exact fun hmem => ⟨hmem.1, Or.inr hmem.2⟩
            simp only [hiff']

end JsonInterface

namespace Submission

structure Begins (json : Submission) (jobName : Name) : Prop where
  name : json.jobName = some jobName
  interrupt : json.interrupt = false
  precursor : json.precursorName = none

structure Extends (json : Submission) (jobName precursorName : Name) : Prop where
  name : json.jobName = some jobName
  interrupt : json.interrupt = false
  precursor : json.precursorName = some precursorName
  done : json.done = false

structure Concludes (json : Submission) (precursorName : Name) : Prop where
  name : json.jobName ≠ none
  interrupt : json.interrupt = false
  precursor : json.precursorName = some precursorName
  done : json.done = true

end Submission

namespace JsonInterface

variable {s s' : JsonInterface} {json : Submission} {jobName precursorName : Name} {id rev : Nat}

def isJob (data : JobMetadata) : Bool := !data.interrupt && !data.done

inductive Outcome (s : JsonInterface) (json : Submission) : Except Fault Handled → Prop
  | ignored : Outcome s json (.ok (s, .discard, none))
  | interrupted (data : JobMetadata) : data.interrupt = true → data.done = false →
      Outcome s json (.ok (s, .accept, some data))
  | concluded {precursorName : Name} {id rev : Nat} : json.Concludes precursorName →
      s.jobNameToIdRev precursorName = some (id, rev) → Outcome s json (s.concludeJob precursorName id json)
  | increment {jobName precursorName : Name} {id rev : Nat} : json.Extends jobName precursorName →
      s.jobNameToIdRev precursorName = some (id, rev) → Outcome s json (.ok (s.addIncrement jobName id rev json))
  | job {jobName : Name} : json.Begins jobName → Outcome s json (.ok (s.addJob jobName json))

theorem handle_outcome (s : JsonInterface) (terminating : Bool) (json : Submission) :
    Outcome s json (s.handle terminating json) := by
  unfold handle
  cases terminating with
  | true => exact .ignored
  | false =>
      rw [if_neg Bool.false_ne_true]
      cases hname : json.jobName with
      | none => exact .ignored
      | some jobName =>
          cases hinterrupt : json.interrupt with
          | true =>
              simp only [if_true, interruptJob]
              cases s.jobNameToIdRev jobName with
              | none => exact .ignored
              | some entry => exact .interrupted _ rfl rfl
          | false =>
              simp only [Bool.false_eq_true, if_false]
              cases hprecursor : json.precursorName with
              | none => exact .job ⟨hname, hinterrupt, hprecursor⟩
              | some precursorName =>
                  simp only
                  cases hentry : s.jobNameToIdRev precursorName with
                  | none => exact .ignored
                  | some entry =>
                      cases hdone : json.done with
                      | true => exact .concluded ⟨by simp [hname], hinterrupt, hprecursor, hdone⟩ hentry
                      | false => exact .increment ⟨hname, hinterrupt, hprecursor, hdone⟩ hentry

theorem handle_begins (h : json.Begins jobName) : s.handle false json = .ok (s.addJob jobName json) := by
  simp [handle, h.name, h.interrupt, h.precursor]

theorem handle_extends (h : json.Extends jobName precursorName) (hentry : s.jobNameToIdRev precursorName = some (id, rev)) :
    s.handle false json = .ok (s.addIncrement jobName id rev json) := by
  simp [handle, h.name, h.interrupt, h.precursor, h.done, hentry]

theorem handle_concludes (h : json.Concludes precursorName) (hentry : s.jobNameToIdRev precursorName = some (id, rev)) :
    s.handle false json = s.concludeJob precursorName id json := by
  obtain ⟨jobName, hname⟩ := Option.ne_none_iff_exists'.mp h.name
  simp [handle, hname, h.interrupt, h.precursor, h.done, hentry]

/-- The end of a job leaves the interface as it is, or a name and an image go. -/
theorem handleJobDone_ok {terminating : Bool} {revision : Nat} (h : s.handleJobDone terminating id revision = .ok s') :
    s' = s ∨ ∃ name, s' = { s with
      jobNameToIdRev := Function.update s.jobNameToIdRev name none
      jobIdRevToImage := Function.update s.jobIdRevToImage (id, revision) none } := by
  unfold handleJobDone at h
  split at h
  · exact Or.inl (Except.ok.inj h).symm
  · split at h
    · cases h
    · next img himg =>
        split at h
        · exact Or.inl (Except.ok.inj h).symm
        · exact Or.inr ⟨img.userQualifiedName, (Except.ok.inj h).symm⟩

theorem eq_some_of_update_none {α β : Type} [DecidableEq α] {f : α → Option β} {a b : α} {c : β}
    (h : Function.update f a none b = some c) : f b = some c := by
  by_cases heq : b = a
  · rw [heq, Function.update_self] at h
    cases h
  · rwa [Function.update_of_ne heq] at h

def ImagesStored (s : JsonInterface) (id : Nat) : Prop :=
  ∀ rev ≤ (s.jobIdToLatestRev id).getD 0, s.jobIdRevToImage (id, rev) ≠ none

def forget (s : JsonInterface) (precursorName : Name) (id : Nat) : JsonInterface :=
  { s with
    jobNameToIdRev := Function.update s.jobNameToIdRev precursorName none
    jobIdToLatestRev := Function.update s.jobIdToLatestRev id none
    jobIdRevToImage := fun key =>
      if key.1 = id ∧ key.2 ∈ List.range ((s.jobIdToLatestRev id).getD 0 + 1) then none else s.jobIdRevToImage key }

theorem concludeJob_stored (h : s.ImagesStored id) : s.concludeJob precursorName id json =
    .ok (s.forget precursorName id, .acceptConclude, some { id := id, application := json.appl, done := true }) := by
  have hall : ∀ rev ∈ List.range ((s.jobIdToLatestRev id).getD 0 + 1), (s.jobIdRevToImage (id, rev)).isSome = true := by
    intro rev hrev
    exact Option.isSome_iff_ne_none.mpr (h rev (Nat.lt_succ_iff.mp (List.mem_range.mp hrev)))
  simp only [concludeJob, bind, Except.bind, eraseImages_eq id _ _ List.nodup_range, if_pos hall]
  rfl

theorem concludeJob_missing (h : ¬ s.ImagesStored id) : s.concludeJob precursorName id json = .error .outOfRange := by
  have hall : ¬ ∀ rev ∈ List.range ((s.jobIdToLatestRev id).getD 0 + 1),
      (s.jobIdRevToImage (id, rev)).isSome = true := by
    intro hall
    exact h fun rev hrev => Option.isSome_iff_ne_none.mp (hall rev (List.mem_range.mpr (Nat.lt_succ_iff.mpr hrev)))
  simp only [concludeJob, bind, Except.bind, eraseImages_eq id _ _ List.nodup_range, if_neg hall]

structure Accepted (s s' : JsonInterface) (json : Submission) (data : JobMetadata) : Prop where
  job : isJob data = true
  latest : s'.jobIdToLatestRev = Function.update s.jobIdToLatestRev data.id (some data.revision)
  images : ∃ img : JobImage, img.id = data.id ∧ img.baseJson = json ∧
    s'.jobIdRevToImage = Function.update s.jobIdRevToImage (data.id, data.revision) (some img)
  names : ∀ name id rev, s'.jobNameToIdRev name = some (id, rev) →
    s.jobNameToIdRev name = some (id, rev) ∨ id = data.id ∨ s.runningId ≤ id ∧ id < s'.runningId
  running : s.runningId ≤ s'.runningId

theorem addIncrement_accepted (s : JsonInterface) (jobName : Name) (id rev : Nat) (json : Submission) :
    ∃ s' data, s.addIncrement jobName id rev json = (s', .accept, some data) ∧ data.id = id ∧ data.revision = rev + 1 ∧
      Accepted s s' json data := by
  refine ⟨_, _, rfl, rfl, by simp, ?_⟩
  have hmapped := mapped_mapNames { s with
    jobNameToIdRev := Function.update s.jobNameToIdRev jobName (some (id, rev + 1))
    jobIdToLatestRev := Function.update s.jobIdToLatestRev id (some (rev + 1))
    jobIdRevToImage := Function.update s.jobIdRevToImage (id, rev + 1) (some ⟨id, jobName, true, json⟩) }
    json.dependencyNames
  refine ⟨rfl, ?_, ⟨⟨id, jobName, true, json⟩, rfl, rfl, ?_⟩, ?_, hmapped.running⟩
  · refine hmapped.latest.trans ?_
    simp
  · refine hmapped.images.trans ?_
    simp
  · intro name id' rev' hentry
    rcases hmapped.new name id' rev' hentry with hold | hnew
    · simp only at hold
      by_cases hname : name = jobName
      · rw [hname, Function.update_self] at hold
        exact Or.inr (Or.inl (Prod.mk.inj (Option.some.inj hold)).1.symm)
      · rw [Function.update_of_ne hname] at hold
        exact Or.inl hold
    · exact Or.inr (Or.inr hnew)

theorem addJob_known (h : (s.mapName jobName).1.jobIdRevToImage ((s.mapName jobName).2, 0) ≠ none) (json : Submission) :
    s.addJob jobName json = ((s.mapName jobName).1, .discard, none) := by
  obtain ⟨img, himg⟩ := Option.ne_none_iff_exists'.mp h
  simp only [addJob, himg]

theorem addJob_eq {json : Submission} (h : (s.mapName jobName).1.jobIdRevToImage ((s.mapName jobName).2, 0) = none) :
    s.addJob jobName json = introduce { (s.mapName jobName).1 with
      jobIdToLatestRev := Function.update (s.mapName jobName).1.jobIdToLatestRev (s.mapName jobName).2 (some 0)
      jobIdRevToImage := Function.update (s.mapName jobName).1.jobIdRevToImage ((s.mapName jobName).2, 0)
        (some ⟨(s.mapName jobName).2, jobName, json.incremental, json⟩) } (s.mapName jobName).2 json := by
  simp only [addJob, h]

theorem addJob_accepted (h : (s.mapName jobName).1.jobIdRevToImage ((s.mapName jobName).2, 0) = none) (json : Submission) :
    ∃ s' data, s.addJob jobName json = (s', .accept, some data) ∧ data.id = (s.mapName jobName).2 ∧ data.revision = 0 ∧
      (s.mapName jobName).1.runningId ≤ s'.runningId ∧ Accepted s s' json data := by
  have hfirst := mapped_mapName s jobName
  have hmapped := mapped_mapNames { (s.mapName jobName).1 with
    jobIdToLatestRev := Function.update (s.mapName jobName).1.jobIdToLatestRev (s.mapName jobName).2 (some 0)
    jobIdRevToImage := Function.update (s.mapName jobName).1.jobIdRevToImage ((s.mapName jobName).2, 0)
      (some ⟨(s.mapName jobName).2, jobName, json.incremental, json⟩) } json.dependencyNames
  have hrevision : (Function.update (s.mapName jobName).1.jobIdToLatestRev (s.mapName jobName).2 (some 0)
      (s.mapName jobName).2).getD 0 = 0 := by
    rw [Function.update_self]
    rfl
  refine ⟨_, _, addJob_eq h, rfl, hrevision, hmapped.running,
    ⟨rfl, ?_, ⟨⟨(s.mapName jobName).2, jobName, json.incremental, json⟩, rfl, rfl, ?_⟩, ?_, ?_⟩⟩
  · refine hmapped.latest.trans ?_
    simp only [hrevision]
    rw [hfirst.latest]
  · refine hmapped.images.trans ?_
    simp only [hrevision]
    rw [hfirst.images]
  · intro name id rev hentry
    have hrunning := hfirst.running
    have hrunning' := hmapped.running
    rcases hmapped.new name id rev hentry with hold | ⟨hlower, hupper⟩
    · rcases hfirst.new name id rev hold with hold | ⟨hlower, hupper⟩
      · exact Or.inl hold
      · exact Or.inr (Or.inr ⟨hlower, lt_of_lt_of_le hupper hrunning'⟩)
    · exact Or.inr (Or.inr ⟨hrunning.trans hlower, hupper⟩)
  · exact hfirst.running.trans hmapped.running

end JsonInterface

namespace SubmissionLog

open JsonInterface (isJob Accepted Mapped)

def jobs (w : SubmissionLog) : List (Submission × JobMetadata) := w.passed.filter fun entry => isJob entry.2

def issued (w : SubmissionLog) : List (Nat × Nat) := w.jobs.map fun entry => (entry.2.id, entry.2.revision)

def concluded (w : SubmissionLog) : List Nat := (w.passed.filter fun entry => entry.2.done).map fun entry => entry.2.id

/-- All pairs are different, those of one job are numbered from zero to the latest revision, and no name leads to
a job that is done. -/
structure Consistent (w : SubmissionLog) : Prop where
  distinct : w.issued.Nodup
  consecutive : ∀ id latest, w.interface.jobIdToLatestRev id = some latest → ∀ rev, (id, rev) ∈ w.issued ↔ rev ≤ latest
  concluded : ∀ id ∈ w.concluded, ∀ name rev, w.interface.jobNameToIdRev name ≠ some (id, rev)

/-- No image is replaced, and a job that is passed to the client has an image under its id and revision. -/
structure ImagesKept (w w' : SubmissionLog) : Prop where
  same : ∀ key img img', w.interface.jobIdRevToImage key = some img → w'.interface.jobIdRevToImage key = some img' → img' = img
  stored : ∀ entry ∈ w'.passed.drop w.passed.length, isJob entry.2 = true →
    ∃ img : JobImage, w'.interface.jobIdRevToImage (entry.2.id, entry.2.revision) = some img ∧ img.id = entry.2.id ∧
      img.baseJson = entry.1

/-- No missing image is accessed for a job that is done, and the identities stay consistent. -/
def Kept (w : SubmissionLog) (event : Event) : Prop :=
  w.step event ≠ .error .outOfRange ∧ ∀ w', w.step event = .ok w' → w'.Consistent ∧ ImagesKept w w'

/-- The precursor of an increment is the latest revision of its job, a notification that a job is done names it by
the only name that it has and finds its images, and a new job does not take over the id of a former one. -/
structure Permitted (s : JsonInterface) (json : Submission) : Prop where
  increment : ∀ jobName precursorName id rev, json.Extends jobName precursorName →
    s.jobNameToIdRev precursorName = some (id, rev) → s.jobIdToLatestRev id = some rev
  conclude : ∀ precursorName id rev, json.Concludes precursorName → s.jobNameToIdRev precursorName = some (id, rev) →
    s.ImagesStored id ∧ ∀ name rev', s.jobNameToIdRev name = some (id, rev') → name = precursorName
  job : ∀ jobName id rev, json.Begins jobName → s.jobNameToIdRev jobName = some (id, rev) →
    s.jobIdRevToImage (id, 0) ≠ none ∨ s.jobIdToLatestRev id = none

def Allowed (w : SubmissionLog) : Event → Prop
  | .handle terminating json => terminating = false → Permitted w.interface json
  | _ => True

structure Sound (w : SubmissionLog) : Prop extends Consistent w where
  unissued : ∀ id, w.interface.jobIdToLatestRev id = none → id ∉ w.concluded → ∀ rev, (id, rev) ∉ w.issued
  ended : ∀ id ∈ w.concluded, w.interface.jobIdToLatestRev id = none ∧ ∀ rev, w.interface.jobIdRevToImage (id, rev) = none
  images : ∀ key img, w.interface.jobIdRevToImage key = some img → key ∈ w.issued
  namesBelow : ∀ name id rev, w.interface.jobNameToIdRev name = some (id, rev) → id < w.interface.runningId
  issuedBelow : ∀ key ∈ w.issued, key.1 < w.interface.runningId
  concludedBelow : ∀ id ∈ w.concluded, id < w.interface.runningId

theorem sound_start (applicationConfiguration : AppConfiguration) (clientRank : Nat) :
    Sound (start applicationConfiguration clientRank) where
  distinct := List.nodup_nil
  consecutive _ _ h := nomatch h
  concluded _ h := nomatch h
  unissued _ _ _ _ h := nomatch h
  ended _ h := nomatch h
  images _ _ h := nomatch h
  namesBelow _ _ _ h := nomatch h
  issuedBelow _ h := nomatch h
  concludedBelow _ h := nomatch h

section Steps

variable {w : SubmissionLog} {s' : JsonInterface} {json : Submission} {data : JobMetadata}

def pass (w : SubmissionLog) (s' : JsonInterface) (json : Submission) (metadata : Option JobMetadata) : SubmissionLog :=
  { w with interface := s', passed := w.passed ++ metadata.toList.map fun data => (json, data) }

theorem step_handle {terminating : Bool} {result : JsonInterface.Result} {metadata : Option JobMetadata}
    (h : w.interface.handle terminating json = .ok (s', result, metadata)) :
    w.step (.handle terminating json) = .ok (w.pass s' json metadata) := by
  simp only [step, h, bind, Except.bind]
  rfl

theorem pass_none (w : SubmissionLog) (s' : JsonInterface) (json : Submission) :
    (w.pass s' json none).issued = w.issued ∧ (w.pass s' json none).concluded = w.concluded := by
  simp [pass, issued, jobs, concluded]

theorem pass_job (w : SubmissionLog) (s' : JsonInterface) (json : Submission) (h : isJob data = true) :
    (w.pass s' json (some data)).issued = w.issued ++ [(data.id, data.revision)] ∧
      (w.pass s' json (some data)).concluded = w.concluded := by
  have hdone : data.done = false := by
    rw [isJob, Bool.and_eq_true, Bool.not_eq_true', Bool.not_eq_true'] at h
    exact h.2
  simp [pass, issued, jobs, concluded, h, hdone]

theorem pass_other (w : SubmissionLog) (s' : JsonInterface) (json : Submission) (h : isJob data = false) :
    (w.pass s' json (some data)).issued = w.issued ∧
      (w.pass s' json (some data)).concluded = w.concluded ++ if data.done then [data.id] else [] := by
  cases hdone : data.done with
  | true => simp [pass, issued, jobs, concluded, h, hdone]
  | false => simp [pass, issued, jobs, concluded, h, hdone]

/-- Names may be mapped or forgotten, images of jobs that are not incremental may go. -/
theorem Sound.of_frame (h : w.Sound) {w' : SubmissionLog} (hissued : w'.issued = w.issued)
    (hconcluded : w'.concluded = w.concluded) (hlatest : w'.interface.jobIdToLatestRev = w.interface.jobIdToLatestRev)
    (himages : ∀ key img, w'.interface.jobIdRevToImage key = some img → w.interface.jobIdRevToImage key = some img)
    (hnames : ∀ name id rev, w'.interface.jobNameToIdRev name = some (id, rev) →
      w.interface.jobNameToIdRev name = some (id, rev) ∨ w.interface.runningId ≤ id ∧ id < w'.interface.runningId)
    (hrunning : w.interface.runningId ≤ w'.interface.runningId) : w'.Sound where
  distinct := hissued ▸ h.distinct
  consecutive := by
    rw [hissued, hlatest]
    exact h.consecutive
  concluded := by
    rw [hconcluded]
    intro id hid name rev hentry
    rcases hnames name id rev hentry with hold | ⟨hlower, -⟩
    · exact h.concluded id hid name rev hold
    · exact absurd (h.concludedBelow id hid) (Nat.not_lt.mpr hlower)
  unissued := by
    rw [hissued, hlatest, hconcluded]
    exact h.unissued
  ended := by
    rw [hconcluded, hlatest]
    intro id hid
    refine ⟨(h.ended id hid).1, fun rev => ?_⟩
    cases hentry : w'.interface.jobIdRevToImage (id, rev) with
    | none => rfl
    | some img =>
        have hold := himages _ _ hentry
        rw [(h.ended id hid).2 rev] at hold
        cases hold
  images := by
    rw [hissued]
    exact fun key img himg => h.images key img (himages key img himg)
  namesBelow := by
    intro name id rev hentry
    rcases hnames name id rev hentry with hold | ⟨-, hupper⟩
    · exact lt_of_lt_of_le (h.namesBelow name id rev hold) hrunning
    · exact hupper
  issuedBelow := by
    rw [hissued]
    exact fun key hkey => lt_of_lt_of_le (h.issuedBelow key hkey) hrunning
  concludedBelow := by
    rw [hconcluded]
    exact fun id hid => lt_of_lt_of_le (h.concludedBelow id hid) hrunning

theorem Sound.notMem_concluded (h : w.Sound) {name : Name} {id rev : Nat}
    (hentry : w.interface.jobNameToIdRev name = some (id, rev)) : id ∉ w.concluded :=
  fun hid => h.concluded id hid name rev hentry

theorem Sound.accepted (h : w.Sound) (ha : Accepted w.interface s' json data)
    (hissued : ∀ rev, (data.id, rev) ∈ w.issued ↔ rev < data.revision) (hconcluded : data.id ∉ w.concluded)
    (hbelow : data.id < s'.runningId) : (w.pass s' json (some data)).Sound := by
  obtain ⟨hissued', hconcluded'⟩ := w.pass_job s' json ha.job
  obtain ⟨img, -, -, himages⟩ := ha.images
  have hmem : ∀ key, key ∈ (w.pass s' json (some data)).issued ↔ key ∈ w.issued ∨ key = (data.id, data.revision) := by
    intro key
    rw [hissued', List.mem_append, List.mem_singleton]
  have hlatest : (w.pass s' json (some data)).interface.jobIdToLatestRev =
      Function.update w.interface.jobIdToLatestRev data.id (some data.revision) := ha.latest
  have himage : (w.pass s' json (some data)).interface.jobIdRevToImage =
      Function.update w.interface.jobIdRevToImage (data.id, data.revision) (some img) := himages
  have hnew : (data.id, data.revision) ∉ w.issued := by
    rw [hissued]
    exact lt_irrefl _
  refine ⟨⟨?_, ?_, ?_⟩, ?_, ?_, ?_, ?_, ?_, ?_⟩
  · rw [hissued', List.nodup_append]
    refine ⟨h.distinct, List.nodup_singleton _, ?_⟩
    intro key hkey key' hkey' heq
    rw [List.mem_singleton.mp hkey'] at heq
    exact hnew (heq ▸ hkey)
  · intro id latest hid rev
    rw [hlatest] at hid
    rw [hmem]
    by_cases hdata : id = data.id
    · subst hdata
      rw [Function.update_self] at hid
      obtain rfl := Option.some.inj hid
      rw [hissued, Prod.mk.injEq]
      simp only [true_and]
      omega
    · rw [Function.update_of_ne hdata] at hid
      rw [h.consecutive id latest hid rev, Prod.mk.injEq]
      simp only [hdata, false_and, or_false]
  · rw [hconcluded']
    intro id hid name rev hentry
    rcases ha.names name id rev hentry with hold | rfl | ⟨hlower, -⟩
    · exact h.concluded id hid name rev hold
    · exact hconcluded hid
    · exact absurd (h.concludedBelow id hid) (Nat.not_lt.mpr hlower)
  · intro id hid hnot rev hkey
    rw [hlatest] at hid
    rw [hconcluded'] at hnot
    by_cases hdata : id = data.id
    · rw [hdata, Function.update_self] at hid
      cases hid
    · rw [Function.update_of_ne hdata] at hid
      rcases (hmem _).mp hkey with hkey | hkey
      · exact h.unissued id hid hnot rev hkey
      · exact hdata (Prod.mk.inj hkey).1
  · rw [hconcluded', hlatest, himage]
    intro id hid
    have hdata : id ≠ data.id := fun heq => hconcluded (heq ▸ hid)
    obtain ⟨hnone, himgs⟩ := h.ended id hid
    refine ⟨by rw [Function.update_of_ne hdata, hnone], fun rev => ?_⟩
    rw [Function.update_of_ne (fun heq => hdata (Prod.mk.inj heq).1), himgs]
  · intro key img' himg'
    rw [himage] at himg'
    rw [hmem]
    by_cases hkey : key = (data.id, data.revision)
    · exact Or.inr hkey
    · rw [Function.update_of_ne hkey] at himg'
      exact Or.inl (h.images key img' himg')
  · intro name id rev hentry
    rcases ha.names name id rev hentry with hold | rfl | ⟨-, hupper⟩
    · exact lt_of_lt_of_le (h.namesBelow name id rev hold) ha.running
    · exact hbelow
    · exact hupper
  · intro key hkey
    rcases (hmem key).mp hkey with hkey | rfl
    · exact lt_of_lt_of_le (h.issuedBelow key hkey) ha.running
    · exact hbelow
  · rw [hconcluded']
    exact fun id hid => lt_of_lt_of_le (h.concludedBelow id hid) ha.running

theorem Sound.forget (h : w.Sound) {precursorName : Name} {id rev : Nat}
    (hentry : w.interface.jobNameToIdRev precursorName = some (id, rev)) (hstored : w.interface.ImagesStored id)
    (honly : ∀ name rev', w.interface.jobNameToIdRev name = some (id, rev') → name = precursorName)
    (hdone : data.done = true) (hid : data.id = id) :
    (w.pass (w.interface.forget precursorName id) json (some data)).Sound := by
  have hjob : isJob data = false := by
    rw [isJob, hdone]
    simp
  obtain ⟨hissued, hconcluded⟩ := w.pass_other (w.interface.forget precursorName id) json hjob
  rw [hdone, if_pos rfl, hid] at hconcluded
  have hmem : ∀ id', id' ∈ (w.pass (w.interface.forget precursorName id) json (some data)).concluded ↔
      id' ∈ w.concluded ∨ id' = id := by
    intro id'
    rw [hconcluded, List.mem_append, List.mem_singleton]
  have hnames : ∀ name id' rev', (w.interface.forget precursorName id).jobNameToIdRev name = some (id', rev') →
      w.interface.jobNameToIdRev name = some (id', rev') ∧ name ≠ precursorName := by
    intro name id' rev' hname
    by_cases heq : name = precursorName
    · rw [heq] at hname
      simp [JsonInterface.forget] at hname
    · refine ⟨?_, heq⟩
      simpa [JsonInterface.forget, Function.update_of_ne heq] using hname
  have hlatest : ∀ id' ≠ id, (w.interface.forget precursorName id).jobIdToLatestRev id' =
      w.interface.jobIdToLatestRev id' := fun id' hne => Function.update_of_ne hne _ _
  have hended : (w.interface.forget precursorName id).jobIdToLatestRev id = none := Function.update_self ..
  have himages : ∀ key img, (w.interface.forget precursorName id).jobIdRevToImage key = some img →
      w.interface.jobIdRevToImage key = some img ∧ key.1 ≠ id := by
    intro key img himg
    simp only [JsonInterface.forget] at himg
    split at himg
    · cases himg
    · next hkey =>
        refine ⟨himg, fun hkeyid => hkey ⟨hkeyid, List.mem_range.mpr (Nat.lt_succ_iff.mpr ?_)⟩⟩
        have hissue : (id, key.2) ∈ w.issued := hkeyid ▸ h.images key img himg
        cases hlast : w.interface.jobIdToLatestRev id with
        | none => exact absurd hissue (h.unissued id hlast (h.notMem_concluded hentry) key.2)
        | some latest => exact (h.consecutive id latest hlast key.2).mp hissue
  refine ⟨⟨hissued ▸ h.distinct, ?_, ?_⟩, ?_, ?_, ?_, ?_, ?_, ?_⟩
  · rw [hissued]
    intro id' latest hid' rev'
    by_cases hne : id' = id
    · rw [hne] at hid'
      exact absurd (hended.symm.trans hid') (by simp)
    · exact h.consecutive id' latest ((hlatest id' hne).symm.trans hid') rev'
  · intro id' hid' name rev' hname
    obtain ⟨hold, hne⟩ := hnames name id' rev' hname
    rcases (hmem id').mp hid' with hid' | rfl
    · exact h.concluded id' hid' name rev' hold
    · exact hne (honly name rev' hold)
  · rw [hissued]
    intro id' hid' hnot rev'
    have hne : id' ≠ id := fun heq => hnot ((hmem id').mpr (Or.inr heq))
    exact h.unissued id' ((hlatest id' hne).symm.trans hid') (fun hmem' => hnot ((hmem id').mpr (Or.inl hmem'))) rev'
  · intro id' hid'
    by_cases hne : id' = id
    · refine ⟨hne ▸ hended, fun rev' => ?_⟩
      cases himg : (w.interface.forget precursorName id).jobIdRevToImage (id', rev') with
      | none => exact himg
      | some img => exact absurd hne (himages _ _ himg).2
    · obtain ⟨hnone, himgs⟩ := h.ended id' (((hmem id').mp hid').resolve_right hne)
      refine ⟨(hlatest id' hne).trans hnone, fun rev' => ?_⟩
      cases himg : (w.interface.forget precursorName id).jobIdRevToImage (id', rev') with
      | none => exact himg
      | some img => exact absurd ((himages _ _ himg).1.symm.trans (himgs rev')) (by simp)
  · rw [hissued]
    exact fun key img himg => h.images key img (himages key img himg).1
  · exact fun name id' rev' hname => h.namesBelow name id' rev' (hnames name id' rev' hname).1
  · rw [hissued]
    exact h.issuedBelow
  · intro id' hid'
    rcases (hmem id').mp hid' with hid' | rfl
    · exact h.concludedBelow id' hid'
    · exact h.namesBelow precursorName id' rev hentry

theorem drop_pass (w : SubmissionLog) (s' : JsonInterface) (json : Submission) (metadata : Option JobMetadata) :
    (w.pass s' json metadata).passed.drop w.passed.length = metadata.toList.map fun data => (json, data) :=
  List.drop_left

theorem imagesKept_accepted (ha : Accepted w.interface s' json data)
    (hnew : w.interface.jobIdRevToImage (data.id, data.revision) = none) :
    ImagesKept w (w.pass s' json (some data)) := by
  obtain ⟨img, hid, hjson, himages⟩ := ha.images
  have himage : (w.pass s' json (some data)).interface.jobIdRevToImage =
      Function.update w.interface.jobIdRevToImage (data.id, data.revision) (some img) := himages
  constructor
  · intro key img₁ img₂ h₁ h₂
    rw [himage] at h₂
    have hkey : key ≠ (data.id, data.revision) := by
      rintro rfl
      rw [hnew] at h₁
      cases h₁
    rw [Function.update_of_ne hkey, h₁] at h₂
    exact (Option.some.inj h₂).symm
  · rw [drop_pass]
    intro entry hentry _
    obtain rfl := List.mem_singleton.mp hentry
    exact ⟨img, by rw [himage, Function.update_self], hid, hjson⟩

theorem imagesKept_of_subset {w' : SubmissionLog} (hpassed : ∀ entry ∈ w'.passed.drop w.passed.length, isJob entry.2 = false)
    (himages : ∀ key img, w'.interface.jobIdRevToImage key = some img → w.interface.jobIdRevToImage key = some img) :
    ImagesKept w w' := by
  constructor
  · intro key img img' h h'
    rw [himages key img' h'] at h
    exact Option.some.inj h
  · intro entry hentry hjob
    rw [hpassed entry hentry] at hjob
    cases hjob

theorem Sound.mapped (h : w.Sound) (hm : Mapped w.interface s') :
    (w.pass s' json none).Sound ∧ ImagesKept w (w.pass s' json none) := by
  obtain ⟨hissued, hconcluded⟩ := w.pass_none s' json
  have himages : ∀ key img, s'.jobIdRevToImage key = some img → w.interface.jobIdRevToImage key = some img := by
    rw [hm.images]
    exact fun key img himg => himg
  refine ⟨h.of_frame hissued hconcluded hm.latest himages hm.new hm.running, imagesKept_of_subset ?_ himages⟩
  rw [drop_pass]
  exact fun entry hentry => nomatch hentry

theorem Sound.unused (h : w.Sound) {jobName : Name}
    (hjob : ∀ id rev, w.interface.jobNameToIdRev jobName = some (id, rev) → w.interface.jobIdToLatestRev id = none) :
    (w.interface.mapName jobName).2 ∉ w.concluded ∧ ∀ rev, ((w.interface.mapName jobName).2, rev) ∉ w.issued := by
  cases hentry : w.interface.jobNameToIdRev jobName with
  | none =>
      rw [JsonInterface.mapName_new hentry]
      exact ⟨fun hid => lt_irrefl _ (h.concludedBelow _ hid), fun rev hkey => lt_irrefl _ (h.issuedBelow _ hkey)⟩
  | some entry =>
      rw [JsonInterface.mapName_known hentry]
      exact ⟨h.notMem_concluded hentry, h.unissued entry.1 (hjob _ _ hentry) (h.notMem_concluded hentry)⟩

theorem Sound.handle (h : w.Sound) (hp : Permitted w.interface json) :
    ∃ s' result metadata, w.interface.handle false json = .ok (s', result, metadata) ∧
      (w.pass s' json metadata).Sound ∧ ImagesKept w (w.pass s' json metadata) := by
  have hout := JsonInterface.handle_outcome w.interface false json
  generalize w.interface.handle false json = handled at hout
  cases hout with
  | ignored => exact ⟨_, _, _, rfl, h.mapped (Mapped.refl _)⟩
  | interrupted data hinterrupt hdone =>
      have hjob : isJob data = false := by
        rw [isJob, hinterrupt]
        rfl
      obtain ⟨hissued, hconcluded⟩ := w.pass_other w.interface json hjob
      rw [hdone, if_neg Bool.false_ne_true, List.append_nil] at hconcluded
      refine ⟨_, _, _, rfl, h.of_frame hissued hconcluded rfl (fun _ _ himg => himg) (fun _ _ _ hname => Or.inl hname) le_rfl,
        imagesKept_of_subset ?_ fun _ _ himg => himg⟩
      rw [drop_pass]
      intro entry hentry
      obtain rfl := List.mem_singleton.mp hentry
      exact hjob
  | @concluded precursorName id rev hconcludes hentry =>
      obtain ⟨hstored, honly⟩ := hp.conclude precursorName id rev hconcludes hentry
      refine ⟨_, _, _, JsonInterface.concludeJob_stored hstored, h.forget hentry hstored honly rfl rfl,
        imagesKept_of_subset ?_ ?_⟩
      · rw [drop_pass]
        intro entry hmem
        obtain rfl := List.mem_singleton.mp hmem
        rfl
      · intro key img himg
        simp only [pass, JsonInterface.forget] at himg
        split at himg
        · cases himg
        · exact himg
  | @increment jobName precursorName id rev hextends hentry =>
      obtain ⟨s', data, heq, hid, hrevision, ha⟩ := w.interface.addIncrement_accepted jobName id rev json
      have hlatest := hp.increment jobName precursorName id rev hextends hentry
      have hissued : ∀ rev', (data.id, rev') ∈ w.issued ↔ rev' < data.revision := by
        intro rev'
        rw [hid, hrevision, h.consecutive id rev hlatest rev', Nat.lt_succ_iff]
      refine ⟨s', .accept, some data, by rw [heq], ?_, imagesKept_accepted ha ?_⟩
      · refine h.accepted ha hissued ?_ ?_
        · rw [hid]
          exact h.notMem_concluded hentry
        · rw [hid]
          exact lt_of_lt_of_le (h.namesBelow precursorName id rev hentry) ha.running
      · cases himg : w.interface.jobIdRevToImage (data.id, data.revision) with
        | none => rfl
        | some img => exact absurd ((hissued _).mp (h.images _ _ himg)) (lt_irrefl _)
  | @job jobName hbegins =>
      have hmapped := JsonInterface.mapped_mapName w.interface jobName
      by_cases himage : (w.interface.mapName jobName).1.jobIdRevToImage ((w.interface.mapName jobName).2, 0) = none
      · obtain ⟨s', data, heq, hid, hrevision, hrunning, ha⟩ := JsonInterface.addJob_accepted himage json
        rw [hmapped.images] at himage
        have hfree := @Sound.unused w h jobName fun id rev hentry => by
          rw [JsonInterface.mapName_known hentry] at himage
          exact (hp.job jobName id rev hbegins hentry).resolve_left fun hne => hne himage
        rw [← hid] at hfree himage
        have hissued : ∀ rev', (data.id, rev') ∈ w.issued ↔ rev' < data.revision := by
          intro rev'
          rw [hrevision]
          exact iff_of_false (hfree.2 rev') (Nat.not_lt_zero rev')
        refine ⟨s', .accept, some data, by rw [heq], h.accepted ha hissued hfree.1 ?_, imagesKept_accepted ha ?_⟩
        · obtain ⟨rev, hentry⟩ := JsonInterface.mapName_eq w.interface jobName
          rw [hid]
          rcases hmapped.new _ _ _ hentry with hold | ⟨-, hupper⟩
          · exact lt_of_lt_of_le (h.namesBelow _ _ _ hold) ha.running
          · exact lt_of_lt_of_le hupper hrunning
        · rw [hrevision]
          exact himage
      · rw [JsonInterface.addJob_known himage json]
        exact ⟨_, _, _, rfl, h.mapped hmapped⟩

theorem step_handleJobDone {terminating : Bool} {id revision : Nat} {w' : SubmissionLog}
    (h : w.step (.handleJobDone terminating id revision) = .ok w') :
    ∃ s', w.interface.handleJobDone terminating id revision = .ok s' ∧ w' = { w with interface := s' } := by
  simp only [step] at h
  cases hdone : w.interface.handleJobDone terminating id revision with
  | error fault =>
      rw [hdone] at h
      cases h
  | ok s' =>
      rw [hdone] at h
      exact ⟨s', rfl, (Except.ok.inj h).symm⟩

theorem Sound.handleJobDone (h : w.Sound) {terminating : Bool} {id revision : Nat} {w' : SubmissionLog}
    (hok : w.step (.handleJobDone terminating id revision) = .ok w') : w'.Sound ∧ ImagesKept w w' := by
  obtain ⟨s', hdone, rfl⟩ := step_handleJobDone hok
  have himages : ∀ key img, s'.jobIdRevToImage key = some img → w.interface.jobIdRevToImage key = some img := by
    rcases JsonInterface.handleJobDone_ok hdone with rfl | ⟨name, rfl⟩
    · exact fun key img himg => himg
    · exact fun key img himg => JsonInterface.eq_some_of_update_none himg
  refine ⟨?_, imagesKept_of_subset (by simp) himages⟩
  rcases JsonInterface.handleJobDone_ok hdone with rfl | ⟨name, rfl⟩
  · exact h
  · exact h.of_frame rfl rfl rfl himages
      (fun name' id' rev' hname => Or.inl (JsonInterface.eq_some_of_update_none hname)) le_rfl

theorem Sound.step (h : w.Sound) {event : Event} (hallowed : w.Allowed event) :
    w.step event ≠ .error .outOfRange ∧ ∀ w', w.step event = .ok w' → w'.Sound ∧ ImagesKept w w' := by
  cases event with
  | handle terminating json =>
      have hpass : ∃ s' result metadata, w.interface.handle terminating json = .ok (s', result, metadata) ∧
          (w.pass s' json metadata).Sound ∧ ImagesKept w (w.pass s' json metadata) := by
        cases terminating with
        | true => exact ⟨w.interface, .discard, none, rfl, h.mapped (Mapped.refl _)⟩
        | false => exact h.handle (hallowed rfl)
      obtain ⟨s', result, metadata, hhandle, hsound⟩ := hpass
      rw [step_handle hhandle]
      refine ⟨(nomatch ·), fun w' hok => ?_⟩
      obtain rfl := Except.ok.inj hok
      exact hsound
  | handleJobDone terminating id revision =>
      refine ⟨?_, fun w' => h.handleJobDone⟩
      simp only [SubmissionLog.step, JsonInterface.handleJobDone]
      split
      · exact (nomatch ·)
      · split
        · exact (nomatch ·)
        · split <;> exact (nomatch ·)
  | finishJob id =>
      refine ⟨(nomatch ·), fun w' hok => ?_⟩
      obtain rfl := Except.ok.inj hok
      refine ⟨h.of_frame rfl rfl rfl (fun _ _ himg => himg) (fun _ _ _ hname => Or.inl hname) le_rfl,
        imagesKept_of_subset ?_ fun _ _ himg => himg⟩
      simp

theorem notMem_issued_of_distinct (hjob : isJob data = true) (h : (w.pass s' json (some data)).issued.Nodup) :
    (data.id, data.revision) ∉ w.issued := by
  rw [(w.pass_job s' json hjob).1, List.nodup_append] at h
  exact fun hmem => h.2.2 _ hmem _ (List.mem_singleton_self _) rfl

theorem Sound.latest_of_kept (h : w.Sound) {jobName precursorName : Name} {id rev : Nat}
    (hk : w.Kept (.handle false json)) (hextends : json.Extends jobName precursorName)
    (hentry : w.interface.jobNameToIdRev precursorName = some (id, rev)) :
    w.interface.jobIdToLatestRev id = some rev := by
  obtain ⟨s', data, heq, hid, hrevision, ha⟩ := w.interface.addIncrement_accepted jobName id rev json
  have hhandle := JsonInterface.handle_extends hextends hentry
  rw [heq] at hhandle
  obtain ⟨hconsistent, -⟩ := hk.2 _ (step_handle hhandle)
  have hnew := notMem_issued_of_distinct ha.job hconsistent.distinct
  have hlatest : s'.jobIdToLatestRev id = some (rev + 1) := by
    rw [ha.latest, hid, hrevision, Function.update_self]
  have hmem := (hconsistent.consecutive id (rev + 1) hlatest rev).mpr (Nat.le_succ rev)
  rw [(w.pass_job s' json ha.job).1, List.mem_append, List.mem_singleton, hid, hrevision] at hmem
  have hold : (id, rev) ∈ w.issued := hmem.resolve_right fun heq => absurd (Prod.mk.inj heq).2 (Nat.ne_of_lt (Nat.lt_succ_self rev))
  rw [hid, hrevision] at hnew
  cases hlast : w.interface.jobIdToLatestRev id with
  | none => exact absurd hold (h.unissued id hlast (h.notMem_concluded hentry) rev)
  | some latest =>
      have hle := (h.consecutive id latest hlast rev).mp hold
      have hlt := (h.consecutive id latest hlast (rev + 1)).not.mp hnew
      rw [Option.some.injEq]
      omega

theorem conclude_of_kept {precursorName : Name} {id rev : Nat} (hk : w.Kept (.handle false json))
    (hconcludes : json.Concludes precursorName) (hentry : w.interface.jobNameToIdRev precursorName = some (id, rev)) :
    w.interface.ImagesStored id ∧ ∀ name rev', w.interface.jobNameToIdRev name = some (id, rev') → name = precursorName := by
  have hhandle := JsonInterface.handle_concludes hconcludes hentry
  have hstored : w.interface.ImagesStored id := by
    by_contra hmissing
    rw [JsonInterface.concludeJob_missing hmissing] at hhandle
    refine hk.1 ?_
    simp only [SubmissionLog.step, hhandle, bind, Except.bind]
  refine ⟨hstored, fun name rev' hname => ?_⟩
  by_contra hne
  rw [JsonInterface.concludeJob_stored hstored] at hhandle
  obtain ⟨hconsistent, -⟩ := hk.2 _ (step_handle hhandle)
  refine hconsistent.concluded id ?_ name rev' ?_
  · rw [(w.pass_other _ json rfl).2]
    exact List.mem_append_right _ (List.mem_singleton_self id)
  · exact (Function.update_of_ne hne _ _).trans hname

theorem Sound.unused_of_kept (h : w.Sound) {jobName : Name} {id rev : Nat} (hk : w.Kept (.handle false json))
    (hbegins : json.Begins jobName) (hentry : w.interface.jobNameToIdRev jobName = some (id, rev)) :
    w.interface.jobIdRevToImage (id, 0) ≠ none ∨ w.interface.jobIdToLatestRev id = none := by
  rw [or_iff_not_imp_left, not_not]
  intro himage
  cases hlast : w.interface.jobIdToLatestRev id with
  | none => rfl
  | some latest =>
      have hmap := JsonInterface.mapName_known hentry
      have hnone : (w.interface.mapName jobName).1.jobIdRevToImage ((w.interface.mapName jobName).2, 0) = none := by
        rw [hmap]
        exact himage
      obtain ⟨s', data, heq, hid, hrevision, -, ha⟩ := JsonInterface.addJob_accepted hnone json
      have hhandle := JsonInterface.handle_begins (s := w.interface) hbegins
      rw [heq] at hhandle
      obtain ⟨hconsistent, -⟩ := hk.2 _ (step_handle hhandle)
      have hnew := notMem_issued_of_distinct ha.job hconsistent.distinct
      rw [hid, hrevision, hmap] at hnew
      exact absurd ((h.consecutive id latest hlast 0).mpr (Nat.zero_le latest)) hnew

theorem Sound.kept_iff (h : w.Sound) (event : Event) : w.Kept event ↔ w.Allowed event := by
  constructor
  · intro hk
    cases event with
    | handle terminating json =>
        rintro rfl
        exact ⟨fun jobName precursorName id rev => h.latest_of_kept hk, fun precursorName id rev => conclude_of_kept hk,
          fun jobName id rev => h.unused_of_kept hk⟩
    | handleJobDone terminating id revision => trivial
    | finishJob id => trivial
  · intro hallowed
    obtain ⟨hrange, hstep⟩ := h.step hallowed
    exact ⟨hrange, fun w' hok => ⟨(hstep w' hok).1.toConsistent, (hstep w' hok).2⟩⟩

end Steps

/-- Along a run, job identities are kept consistent exactly as long as every submission is permitted. -/
theorem identities_kept_iff (applicationConfiguration : AppConfiguration) (clientRank : Nat) (events : List Event) :
    Runs.Throughout step Kept (start applicationConfiguration clientRank) events ↔
      Runs.Throughout step Allowed (start applicationConfiguration clientRank) events :=
  Runs.throughout_congr (fun w event (h : w.Sound) => h.kept_iff event)
    (fun _ _ _ h hallowed hok => ((h.step hallowed).2 _ hok).1) (sound_start applicationConfiguration clientRank) events

def jobFile (name : UInt8) : Submission where
  user := some [117]
  name := some [name]
  incremental := true

def incrementFile (name precursor : UInt8) : Submission := { jobFile name with precursor := some [117, 46, precursor] }

def doneFile (precursor : UInt8) : Submission := { incrementFile 122 precursor with done := true }

/-- Two increments with the same precursor get the same revision. After a job with an increment is done, the name
of its first revision still leads to it, and a further notification finds no image. -/
theorem identities_broken :
    (∃ w, Runs.run step (start {} 0) [.handle false (jobFile 97), .handle false (incrementFile 98 97),
        .handle false (incrementFile 99 97)] = .ok w ∧ w.issued = [(1, 0), (1, 1), (1, 1)]) ∧
      Runs.run step (start {} 0) [.handle false (jobFile 97), .handle false (incrementFile 98 97),
        .handle false (doneFile 98), .handle false (doneFile 97)] = .error .outOfRange ∧
      ¬ Runs.Throughout step Kept (start {} 0) [.handle false (jobFile 97), .handle false (incrementFile 98 97),
        .handle false (doneFile 98), .handle false (doneFile 97)] := by
  refine ⟨⟨_, rfl, rfl⟩, rfl, ?_⟩
  rintro ⟨-, hrun⟩
  obtain ⟨-, hrun⟩ := hrun _ rfl
  obtain ⟨⟨-, hkept⟩, -⟩ := hrun _ rfl
  obtain ⟨hconsistent, -⟩ := hkept _ rfl
  exact hconsistent.concluded 1 (List.mem_singleton_self 1) [117, 46, 97, 46, 106, 115, 111, 110] 0 rfl

end SubmissionLog

end Mallob
