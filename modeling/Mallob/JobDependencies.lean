import Mallob.JobIdentities

namespace Mallob

namespace JsonInterface

variable {s s₁ : JsonInterface} {json : Submission} {jobName : Name} {id : Nat}

theorem mapNames_zip (s : JsonInterface) (names : List Name) {name : Name} {id : Nat}
    (h : (name, id) ∈ names.zip (s.mapNames names).2) :
    ∃ rev, (s.mapNames names).1.jobNameToIdRev name = some (id, rev) := by
  induction names generalizing s with
  | nil => cases h
  | cons first names ih =>
      rw [mapNames, List.zip_cons_cons, List.mem_cons] at h
      rcases h with h | h
      · obtain ⟨rfl, rfl⟩ := Prod.mk.inj h
        obtain ⟨rev, hrev⟩ := s.mapName_eq name
        exact ⟨rev, (mapped_mapNames _ names).known _ _ hrev⟩
      · exact ih _ h

theorem exists_zip (s : JsonInterface) {names : List Name} {name : Name} (h : name ∈ names) :
    ∃ id, (name, id) ∈ names.zip (s.mapNames names).2 := by
  induction names generalizing s with
  | nil => cases h
  | cons first names ih =>
      rw [mapNames, List.zip_cons_cons]
      rcases List.mem_cons.mp h with rfl | h
      · exact ⟨_, List.mem_cons_self⟩
      · obtain ⟨id, hid⟩ := ih (s.mapName first).1 h
        exact ⟨id, List.mem_cons_of_mem _ hid⟩

def Accepts (s : JsonInterface) (json : Submission) (jobName : Name) : Prop :=
  (∃ precursorName, json.Extends jobName precursorName ∧ s.jobNameToIdRev precursorName ≠ none) ∨
    json.Begins jobName ∧ ∀ id rev, s.jobNameToIdRev jobName = some (id, rev) → s.jobIdRevToImage (id, 0) = none

def idOf (s : JsonInterface) (name : Name) : Option Nat := (s.jobNameToIdRev name).map Prod.fst

def increment (s : JsonInterface) (json : Submission) : Option (Name × Nat) :=
  if json.interrupt || json.done then none
  else do
    let jobName ← json.jobName
    let precursorName ← json.precursorName
    let id ← s.idOf precursorName
    return (jobName, id)

def replaced (s : JsonInterface) (json : Submission) : Option (Name × Nat) := do
  let increment ← s.increment json
  let former ← s.idOf increment.1
  if former = increment.2 then none else return (increment.1, former)

def concluded (s : JsonInterface) (json : Submission) : Option (Name × Nat) :=
  if json.interrupt || !json.done then none
  else do
    let _ ← json.jobName
    let precursorName ← json.precursorName
    let id ← s.idOf precursorName
    return (precursorName, id)

def finished (s : JsonInterface) (id revision : Nat) : Option (Name × Nat) := do
  let img ← s.jobIdRevToImage (id, revision)
  let former ← s.idOf img.userQualifiedName
  if img.incremental then none else return (img.userQualifiedName, former)

def acceptedName (s : JsonInterface) (json : Submission) : Option Name :=
  if json.precursorName.isSome then (s.increment json).map Prod.fst
  else if json.interrupt then none
  else json.jobName.filter fun jobName => (s.idOf jobName).all fun id => (s.jobIdRevToImage (id, 0)).isNone

theorem idOf_eq_some {name : Name} : s.idOf name = some id ↔ ∃ rev, s.jobNameToIdRev name = some (id, rev) := by
  simp [idOf]

theorem increment_eq_some : s.increment json = some (jobName, id) ↔
    ∃ precursorName, json.Extends jobName precursorName ∧ s.idOf precursorName = some id := by
  constructor
  · intro h
    rw [increment, Option.ite_none_left_eq_some, Bool.or_eq_true, not_or] at h
    simp only [Option.bind_eq_bind, Option.bind_eq_some_iff, Option.pure_def, Option.some.injEq, Prod.mk.injEq] at h
    obtain ⟨⟨hinterrupt, hdone⟩, name, hname, precursorName, hprecursor, id', hid, rfl, rfl⟩ := h
    exact ⟨precursorName, ⟨hname, by simpa using hinterrupt, hprecursor, by simpa using hdone⟩, hid⟩
  · rintro ⟨precursorName, hextends, hid⟩
    simp [increment, hextends.name, hextends.interrupt, hextends.precursor, hextends.done, hid]

theorem concluded_eq_some {precursorName : Name} : s.concluded json = some (precursorName, id) ↔
    json.Concludes precursorName ∧ s.idOf precursorName = some id := by
  constructor
  · intro h
    rw [concluded, Option.ite_none_left_eq_some, Bool.or_eq_true, not_or] at h
    simp only [Option.bind_eq_bind, Option.bind_eq_some_iff, Option.pure_def, Option.some.injEq, Prod.mk.injEq] at h
    obtain ⟨⟨hinterrupt, hdone⟩, name, hname, precursorName, hprecursor, id', hid, rfl, rfl⟩ := h
    exact ⟨⟨by simp [hname], by simpa using hinterrupt, hprecursor, by simpa using hdone⟩, hid⟩
  · rintro ⟨hconcludes, hid⟩
    obtain ⟨name, hname⟩ := Option.ne_none_iff_exists'.mp hconcludes.name
    simp [concluded, hname, hconcludes.interrupt, hconcludes.precursor, hconcludes.done, hid]

theorem replaced_eq_some {former : Nat} : s.replaced json = some (jobName, former) ↔
    ∃ id, s.increment json = some (jobName, id) ∧ s.idOf jobName = some former ∧ former ≠ id := by
  simp only [replaced, Option.bind_eq_bind, Option.bind_eq_some_iff, Option.pure_def, Option.ite_none_left_eq_some,
    Option.some.injEq, Prod.mk.injEq]
  constructor
  · rintro ⟨⟨name, id⟩, hincrement, former', hformer, hne, rfl, rfl⟩
    exact ⟨id, hincrement, hformer, hne⟩
  · rintro ⟨id, hincrement, hformer, hne⟩
    exact ⟨(jobName, id), hincrement, former, hformer, hne, rfl, rfl⟩

theorem accepts_iff : s.Accepts json jobName ↔ s.acceptedName json = some jobName := by
  unfold Accepts acceptedName
  cases hprecursor : json.precursorName with
  | some precursorName =>
      simp only [Option.isSome_some, if_true, Option.map_eq_some_iff, Prod.exists, exists_and_right, exists_eq_right,
        increment_eq_some]
      constructor
      · rintro (⟨precursorName', hextends, hknown⟩ | ⟨hbegins, -⟩)
        · obtain ⟨entry, hentry⟩ := Option.ne_none_iff_exists'.mp hknown
          exact ⟨entry.1, precursorName', hextends, idOf_eq_some.mpr ⟨entry.2, hentry⟩⟩
        · cases hprecursor.symm.trans hbegins.precursor
      · rintro ⟨id, precursorName', hextends, hid⟩
        obtain ⟨rev, hrev⟩ := idOf_eq_some.mp hid
        exact Or.inl ⟨precursorName', hextends, by simp [hrev]⟩
  | none =>
      simp only [Option.isSome_none, Bool.false_eq_true, if_false, Option.ite_none_left_eq_some,
        Option.filter_eq_some_iff, Option.all_eq_true, Option.isNone_iff_eq_none, idOf_eq_some]
      constructor
      · rintro (⟨precursorName', hextends, -⟩ | ⟨hbegins, hnone⟩)
        · cases hprecursor.symm.trans hextends.precursor
        · exact ⟨by simp [hbegins.interrupt], hbegins.name, fun id ⟨rev, hrev⟩ => hnone id rev hrev⟩
      · rintro ⟨hinterrupt, hname, hnone⟩
        exact Or.inr ⟨⟨hname, by simpa using hinterrupt, hprecursor⟩, fun id rev hrev => hnone id ⟨rev, hrev⟩⟩

def Finds (s : JsonInterface) (json : Submission) (jobName : Name) (id : Nat) : Prop :=
  (∃ precursorName rev, json.Extends jobName precursorName ∧ s.jobNameToIdRev precursorName = some (id, rev)) ∨
    json.Begins jobName ∧ ∃ rev, s.jobNameToIdRev jobName = some (id, rev)

structure Below (s : JsonInterface) : Prop where
  names : ∀ name id rev, s.jobNameToIdRev name = some (id, rev) → id < s.runningId
  images : ∀ key, s.jobIdRevToImage key ≠ none → key.1 < s.runningId

structure Registered (s s₁ : JsonInterface) (json : Submission) (jobName : Name) (id : Nat) : Prop where
  own : ∃ rev, s₁.jobNameToIdRev jobName = some (id, rev)
  others : ∀ name, name ≠ jobName → s₁.jobNameToIdRev name = s.jobNameToIdRev name
  running : s.runningId ≤ s₁.runningId
  below : s₁.Below
  finds : ∀ id', s.Finds json jobName id' → id' = id
  found : s.Finds json jobName id ∨ id = s.runningId

theorem Below.mapped (h : s.Below) (hm : Mapped s s₁) : s₁.Below where
  names name id rev hname := by
    rcases hm.new name id rev hname with hold | ⟨-, hupper⟩
    · exact lt_of_lt_of_le (h.names name id rev hold) hm.running
    · exact hupper
  images key hkey := by
    rw [hm.images] at hkey
    exact lt_of_lt_of_le (h.images key hkey) hm.running

theorem Below.name (h : s.Below) {rev : Nat} (hid : id < s.runningId) :
    Below { s with jobNameToIdRev := Function.update s.jobNameToIdRev jobName (some (id, rev)) } where
  names name id' rev' hname := by
    simp only at hname
    by_cases heq : name = jobName
    · rw [heq, Function.update_self] at hname
      obtain ⟨rfl, -⟩ := Prod.mk.inj (Option.some.inj hname)
      exact hid
    · rw [Function.update_of_ne heq] at hname
      exact h.names name id' rev' hname
  images := h.images

theorem Below.image (h : s.Below) {rev : Nat} {img : JobImage} (hid : id < s.runningId) (latest : Nat → Option Nat) :
    Below { s with
      jobIdToLatestRev := latest
      jobIdRevToImage := Function.update s.jobIdRevToImage (id, rev) (some img) } where
  names := h.names
  images key hkey := by
    simp only at hkey
    by_cases heq : key = (id, rev)
    · rw [heq]
      exact hid
    · rw [Function.update_of_ne heq] at hkey
      exact h.images key hkey

theorem Submission.Extends.not_begins {jobName' precursorName : Name} (h : json.Extends jobName precursorName) :
    ¬ json.Begins jobName' := by
  intro hbegins
  have hnone := hbegins.precursor
  rw [h.precursor] at hnone
  cases hnone

theorem Accepts.name_unique {name : Name} (h : s.Accepts json jobName) (hname : json.jobName = some name) : name = jobName := by
  rcases h with ⟨precursorName, hextends, -⟩ | ⟨hbegins, -⟩
  · exact Option.some.inj (hname.symm.trans hextends.name)
  · exact Option.some.inj (hname.symm.trans hbegins.name)

theorem Accepts.not_concludes {precursorName : Name} (h : s.Accepts json jobName) : ¬ json.Concludes precursorName := by
  intro hconcludes
  rcases h with ⟨precursorName', hextends, -⟩ | ⟨hbegins, -⟩
  · cases hextends.done.symm.trans hconcludes.done
  · cases hbegins.precursor.symm.trans hconcludes.precursor

theorem registered_increment (h : s.Below) {precursorName : Name} {rev : Nat} (hextends : json.Extends jobName precursorName)
    (hentry : s.jobNameToIdRev precursorName = some (id, rev)) :
    ∃ s₁, s.addIncrement jobName id rev json = introduce s₁ id json ∧ Registered s s₁ json jobName id := by
  refine ⟨_, rfl, ⟨rev + 1, Function.update_self ..⟩, fun name hne => Function.update_of_ne hne _ _, le_rfl,
    (h.name (h.names _ _ _ hentry)).image (h.names _ _ _ hentry) _, ?_, Or.inl (Or.inl ⟨precursorName, rev, hextends, hentry⟩)⟩
  rintro id' (⟨precursorName', rev', hextends', hentry'⟩ | ⟨hbegins, -⟩)
  · obtain rfl := Option.some.inj (hextends.precursor.symm.trans hextends'.precursor)
    rw [hentry] at hentry'
    exact (Prod.mk.inj (Option.some.inj hentry')).1.symm
  · exact absurd hbegins (Submission.Extends.not_begins hextends)

theorem mapName_of_ne {name : Name} (h : name ≠ jobName) :
    (s.mapName jobName).1.jobNameToIdRev name = s.jobNameToIdRev name := by
  unfold mapName
  cases s.jobNameToIdRev jobName with
  | some entry => rfl
  | none => exact Function.update_of_ne h _ _

theorem registered_job (h : s.Below) (hbegins : json.Begins jobName)
    (hnone : ∀ id rev, s.jobNameToIdRev jobName = some (id, rev) → s.jobIdRevToImage (id, 0) = none) :
    ∃ s₁ id, s.addJob jobName json = introduce s₁ id json ∧ Registered s s₁ json jobName id := by
  have hmapped := mapped_mapName s jobName
  obtain ⟨rev, hown⟩ := s.mapName_eq jobName
  have hbelow := h.mapped hmapped
  have himage : (s.mapName jobName).1.jobIdRevToImage ((s.mapName jobName).2, 0) = none := by
    rw [hmapped.images]
    cases hentry : s.jobNameToIdRev jobName with
    | none =>
        rw [mapName_new hentry]
        by_contra hne
        exact lt_irrefl _ (h.images _ hne)
    | some entry =>
        rw [mapName_known hentry]
        exact hnone _ _ hentry
  refine ⟨_, _, addJob_eq himage, ⟨rev, hown⟩, fun name hne => mapName_of_ne hne, hmapped.running,
    hbelow.image (hbelow.names _ _ _ hown) _, ?_, ?_⟩
  · rintro id' (⟨precursorName, rev', hextends, -⟩ | ⟨-, rev', hentry⟩)
    · exact absurd hbegins (Submission.Extends.not_begins hextends)
    · rw [mapName_known hentry]
  · cases hentry : s.jobNameToIdRev jobName with
    | none => exact Or.inr (mapName_new hentry)
    | some entry =>
        rw [mapName_known hentry]
        exact Or.inl (Or.inr ⟨hbegins, entry.2, hentry⟩)

theorem handle_accepts (h : s.Below) (haccepts : s.Accepts json jobName) :
    json.jobName = some jobName ∧ ∃ s₁ id, s.handle false json = .ok (introduce s₁ id json) ∧
      Registered s s₁ json jobName id := by
  rcases haccepts with ⟨precursorName, hextends, hknown⟩ | ⟨hbegins, hnone⟩
  · obtain ⟨entry, hentry⟩ := Option.ne_none_iff_exists'.mp hknown
    obtain ⟨s₁, heq, hregistered⟩ := registered_increment h hextends hentry
    exact ⟨hextends.name, s₁, entry.1, (handle_extends hextends hentry).trans (congrArg _ heq), hregistered⟩
  · obtain ⟨s₁, id, heq, hregistered⟩ := registered_job h hbegins hnone
    exact ⟨hbegins.name, s₁, id, (handle_begins hbegins).trans (congrArg _ heq), hregistered⟩

theorem Below.forget (h : s.Below) (precursorName : Name) : (s.forget precursorName id).Below := by
  constructor
  · intro name id' rev' hname
    by_cases heq : name = precursorName
    · simp [JsonInterface.forget, heq] at hname
    · exact h.names name id' rev' ((Function.update_of_ne heq _ _).symm.trans hname)
  · intro key hkey
    refine h.images key fun hnone => hkey ?_
    simp only [JsonInterface.forget, hnone, ite_self]

/-- The id that a name is mapped to has no job, so the entry that the name may have had before has none. -/
theorem image_of_mapName (himage : (s.mapName jobName).1.jobIdRevToImage ((s.mapName jobName).2, 0) = none) {rev : Nat}
    (hentry : s.jobNameToIdRev jobName = some (id, rev)) : s.jobIdRevToImage (id, 0) = none := by
  rwa [(mapped_mapName s jobName).images, mapName_known hentry] at himage

theorem handle_registers (h : s.Below) (terminating : Bool) {s' : JsonInterface} {result : Result}
    {metadata : Option JobMetadata} (hhandle : s.handle terminating json = .ok (s', result, metadata)) :
    (s'.Below ∧ s.runningId ≤ s'.runningId ∧ ∀ data ∈ metadata, isJob data = false) ∨
      terminating = false ∧ ∃ jobName, s.Accepts json jobName := by
  cases terminating with
  | true =>
      obtain ⟨rfl, hrest⟩ := Prod.mk.inj (Except.ok.inj hhandle)
      obtain ⟨-, rfl⟩ := Prod.mk.inj hrest
      exact Or.inl ⟨h, le_rfl, fun data hdata => nomatch hdata⟩
  | false =>
      have hout := handle_outcome s false json
      rw [hhandle] at hout
      generalize hhandled : Except.ok (s', result, metadata) = handled at hout
      cases hout with
      | ignored =>
          obtain ⟨rfl, hrest⟩ := Prod.mk.inj (Except.ok.inj hhandled)
          obtain ⟨-, rfl⟩ := Prod.mk.inj hrest
          exact Or.inl ⟨h, le_rfl, fun data hdata => nomatch hdata⟩
      | interrupted data hinterrupt hdone =>
          obtain ⟨rfl, hrest⟩ := Prod.mk.inj (Except.ok.inj hhandled)
          obtain ⟨-, rfl⟩ := Prod.mk.inj hrest
          refine Or.inl ⟨h, le_rfl, fun data' hdata => ?_⟩
          obtain rfl := Option.some.inj hdata
          rw [isJob, hinterrupt]
          rfl
      | @concluded precursorName id rev hconcludes hentry =>
          by_cases hstored : s.ImagesStored id
          · rw [concludeJob_stored hstored] at hhandled
            obtain ⟨rfl, hrest⟩ := Prod.mk.inj (Except.ok.inj hhandled)
            obtain ⟨-, rfl⟩ := Prod.mk.inj hrest
            refine Or.inl ⟨h.forget precursorName, le_rfl, fun data hdata => ?_⟩
            obtain rfl := Option.some.inj hdata
            rfl
          · rw [concludeJob_missing hstored] at hhandled
            cases hhandled
      | @increment jobName precursorName id rev hextends hentry =>
          exact Or.inr ⟨rfl, jobName, Or.inl ⟨precursorName, hextends, by simp [hentry]⟩⟩
      | @job jobName hbegins =>
          have hmapped := mapped_mapName s jobName
          by_cases himage : (s.mapName jobName).1.jobIdRevToImage ((s.mapName jobName).2, 0) = none
          · exact Or.inr ⟨rfl, jobName, Or.inr ⟨hbegins, fun id rev => image_of_mapName himage⟩⟩
          · rw [addJob_known himage] at hhandled
            obtain ⟨rfl, hrest⟩ := Prod.mk.inj (Except.ok.inj hhandled)
            obtain ⟨-, rfl⟩ := Prod.mk.inj hrest
            exact Or.inl ⟨h.mapped hmapped, hmapped.running, fun data hdata => nomatch hdata⟩

structure Rebinds (s s' : JsonInterface) (taken given : List (Name × Nat)) : Prop where
  keeps : ∀ name id, s.idOf name = some id → (name, id) ∉ taken → s'.idOf name = some id
  takes : ∀ name id, (name, id) ∈ taken → s.idOf name = some id ∧ s'.idOf name ≠ some id
  gives : ∀ name id, (name, id) ∈ given → s'.idOf name = some id
  new : ∀ name id, s'.idOf name = some id → s.idOf name = some id ∨ (name, id) ∈ given ∨ s.runningId ≤ id

theorem Mapped.keeps (h : Mapped s s₁) {name : Name} (hid : s.idOf name = some id) : s₁.idOf name = some id := by
  obtain ⟨rev, hrev⟩ := idOf_eq_some.mp hid
  exact idOf_eq_some.mpr ⟨rev, h.known _ _ hrev⟩

theorem Mapped.new_idOf (h : Mapped s s₁) {name : Name} (hid : s₁.idOf name = some id) :
    s.idOf name = some id ∨ s.runningId ≤ id := by
  obtain ⟨rev, hrev⟩ := idOf_eq_some.mp hid
  rcases h.new _ _ _ hrev with hold | hnew
  · exact Or.inl (idOf_eq_some.mpr ⟨rev, hold⟩)
  · exact Or.inr hnew.1

theorem Mapped.rebinds (h : Mapped s s₁) : Rebinds s s₁ [] [] where
  keeps _ _ hid _ := h.keeps hid
  takes _ _ hmem := nomatch hmem
  gives _ _ hmem := nomatch hmem
  new _ _ hid := (h.new_idOf hid).imp_right Or.inr

theorem Below.idOf (h : s.Below) {name : Name} (hid : s.idOf name = some id) : id < s.runningId := by
  obtain ⟨rev, hrev⟩ := idOf_eq_some.mp hid
  exact h.names _ _ _ hrev

theorem Rebinds.mapped {s₂ : JsonInterface} {taken given : List (Name × Nat)} (h : Rebinds s s₁ taken given)
    (hbelow : s.Below) (hrunning : s.runningId ≤ s₁.runningId) (hm : Mapped s₁ s₂) : Rebinds s s₂ taken given where
  keeps name id hid hmem := hm.keeps (h.keeps name id hid hmem)
  takes name id hmem := by
    obtain ⟨hid, hne⟩ := h.takes name id hmem
    refine ⟨hid, fun hid' => ?_⟩
    rcases hm.new_idOf hid' with hold | hnew
    · exact hne hold
    · have := hbelow.idOf hid
      omega
  gives name id hmem := hm.keeps (h.gives name id hmem)
  new name id hid := by
    rcases hm.new_idOf hid with hold | hnew
    · exact h.new name id hold
    · exact Or.inr (Or.inr (hrunning.trans hnew))

theorem finds_iff_of_begins (h : json.Begins jobName) : s.Finds json jobName id ↔ s.idOf jobName = some id := by
  rw [Finds, idOf_eq_some]
  refine ⟨?_, fun hid => Or.inr ⟨h, hid⟩⟩
  rintro (⟨precursorName, rev, hextends, -⟩ | ⟨-, hid⟩)
  · exact absurd h (Submission.Extends.not_begins hextends)
  · exact hid

theorem finds_iff_of_extends {precursorName : Name} (h : json.Extends jobName precursorName) :
    s.Finds json jobName id ↔ s.increment json = some (jobName, id) := by
  simp only [Finds, increment_eq_some, idOf_eq_some]
  constructor
  · rintro (⟨precursorName', rev, hextends, hrev⟩ | ⟨hbegins, -⟩)
    · exact ⟨precursorName', hextends, rev, hrev⟩
    · exact absurd hbegins (Submission.Extends.not_begins h)
  · rintro ⟨precursorName', hextends, rev, hrev⟩
    exact Or.inl ⟨precursorName', rev, hextends, hrev⟩

theorem increment_of_begins (h : json.Begins jobName) : s.increment json = none := by
  simp [increment, h.precursor, h.name]

theorem Registered.idOf_self (hr : Registered s s₁ json jobName id) : s₁.idOf jobName = some id :=
  idOf_eq_some.mpr hr.own

theorem Registered.idOf_of_ne (hr : Registered s s₁ json jobName id) {name : Name} (hne : name ≠ jobName) :
    s₁.idOf name = s.idOf name := by
  rw [idOf, hr.others name hne, idOf]

theorem Registered.rebinds_job (hr : Registered s s₁ json jobName id) (h : json.Begins jobName) : Rebinds s s₁ [] [] where
  keeps name id' hid _ := by
    by_cases heq : name = jobName
    · subst heq
      rw [hr.idOf_self, hr.finds id' ((finds_iff_of_begins h).mpr hid)]
    · rw [hr.idOf_of_ne heq, hid]
  takes _ _ hmem := nomatch hmem
  gives _ _ hmem := nomatch hmem
  new name id' hid := by
    by_cases heq : name = jobName
    · subst heq
      obtain rfl := Option.some.inj (hr.idOf_self.symm.trans hid)
      rcases hr.found with hfound | hfresh
      · exact Or.inl ((finds_iff_of_begins h).mp hfound)
      · exact Or.inr (Or.inr hfresh.ge)
    · exact Or.inl (hr.idOf_of_ne heq ▸ hid)

theorem Registered.rebinds_increment (hr : Registered s s₁ json jobName id) (h : s.increment json = some (jobName, id)) :
    Rebinds s s₁ (s.replaced json).toList (s.increment json).toList where
  keeps name id' hid hmem := by
    by_cases heq : name = jobName
    · subst heq
      rw [hr.idOf_self]
      by_contra hne
      refine hmem (Option.mem_toList.mpr (replaced_eq_some.mpr ⟨id, h, hid, fun heq => hne ?_⟩))
      rw [heq]
    · rw [hr.idOf_of_ne heq, hid]
  takes name id' hmem := by
    obtain ⟨id'', hincrement, hid, hne⟩ := replaced_eq_some.mp (Option.mem_toList.mp hmem)
    obtain ⟨rfl, rfl⟩ := Prod.mk.inj (Option.some.inj (h.symm.trans hincrement))
    refine ⟨hid, fun hself => hne ?_⟩
    exact Option.some.inj (hself.symm.trans hr.idOf_self)
  gives name id' hmem := by
    obtain ⟨rfl, rfl⟩ := Prod.mk.inj (Option.some.inj (h.symm.trans (Option.mem_toList.mp hmem)))
    exact hr.idOf_self
  new name id' hid := by
    by_cases heq : name = jobName
    · subst heq
      obtain rfl := Option.some.inj (hr.idOf_self.symm.trans hid)
      exact Or.inr (Or.inl (Option.mem_toList.mpr h))
    · exact Or.inl (hr.idOf_of_ne heq ▸ hid)

theorem rebinds_erase {s' : JsonInterface} {name : Name} (hnames : s'.jobNameToIdRev = Function.update s.jobNameToIdRev name none) :
    Rebinds s s' ((s.idOf name).map fun id => (name, id)).toList [] := by
  have hself : s'.idOf name = none := by rw [idOf, hnames, Function.update_self, Option.map_none]
  have hother : ∀ name', name' ≠ name → s'.idOf name' = s.idOf name' := fun name' hne => by
    rw [idOf, hnames, Function.update_of_ne hne, idOf]
  constructor
  · intro name' id hid hmem
    rw [hother name' ?_, hid]
    rintro rfl
    exact hmem (by simp [hid])
  · intro name' id hmem
    obtain ⟨id', hid, heq⟩ := Option.map_eq_some_iff.mp (Option.mem_toList.mp hmem)
    obtain ⟨rfl, rfl⟩ := Prod.mk.inj heq
    exact ⟨hid, by simp [hself]⟩
  · exact fun _ _ hmem => nomatch hmem
  · intro name' id hid
    by_cases heq : name' = name
    · rw [heq, hself] at hid
      cases hid
    · exact Or.inl (hother name' heq ▸ hid)

theorem handle_rebinds (h : s.Below) {s' : JsonInterface} {result : Result} {metadata : Option JobMetadata}
    (hhandle : s.handle false json = .ok (s', result, metadata)) :
    Rebinds s s' ((s.replaced json).toList ++ (s.concluded json).toList) (s.increment json).toList := by
  cases hincrement : s.increment json with
  | some increment =>
      obtain ⟨jobName, id⟩ := increment
      obtain ⟨precursorName, hextends, hid⟩ := increment_eq_some.mp hincrement
      obtain ⟨rev, hrev⟩ := idOf_eq_some.mp hid
      obtain ⟨s₁, heq, hr⟩ := registered_increment h hextends hrev
      rw [handle_extends hextends hrev, heq] at hhandle
      obtain ⟨rfl, -⟩ := Prod.mk.inj (Except.ok.inj hhandle)
      have hnone : s.concluded json = none := by simp [concluded, hextends.done]
      have hrebinds := hr.rebinds_increment hincrement
      rw [hincrement] at hrebinds
      rw [hnone, Option.toList_none, List.append_nil]
      exact hrebinds.mapped h hr.running (mapped_mapNames _ _)
  | none =>
      have hreplaced : s.replaced json = none := by simp [replaced, hincrement]
      rw [hreplaced, Option.toList_none, List.nil_append]
      cases hconcluded : s.concluded json with
      | some erased =>
          obtain ⟨precursorName, id⟩ := erased
          obtain ⟨hconcludes, hid⟩ := concluded_eq_some.mp hconcluded
          obtain ⟨rev, hrev⟩ := idOf_eq_some.mp hid
          rw [handle_concludes hconcludes hrev] at hhandle
          by_cases hstored : s.ImagesStored id
          · rw [concludeJob_stored hstored] at hhandle
            obtain ⟨rfl, -⟩ := Prod.mk.inj (Except.ok.inj hhandle)
            have herase : Rebinds s (s.forget precursorName id)
                ((s.idOf precursorName).map fun id => (precursorName, id)).toList [] := rebinds_erase rfl
            rw [hid] at herase
            exact herase
          · rw [concludeJob_missing hstored] at hhandle
            cases hhandle
      | none =>
          have hout := handle_outcome s false json
          rw [hhandle] at hout
          generalize hhandled : Except.ok (s', result, metadata) = handled at hout
          cases hout with
          | ignored =>
              obtain ⟨rfl, -⟩ := Prod.mk.inj (Except.ok.inj hhandled)
              exact (Mapped.refl _).rebinds
          | interrupted data hinterrupt hdone =>
              obtain ⟨rfl, -⟩ := Prod.mk.inj (Except.ok.inj hhandled)
              exact (Mapped.refl _).rebinds
          | concluded hconcludes hentry =>
              cases hconcluded.symm.trans (concluded_eq_some.mpr ⟨hconcludes, idOf_eq_some.mpr ⟨_, hentry⟩⟩)
          | increment hextends hentry =>
              cases hincrement.symm.trans (increment_eq_some.mpr ⟨_, hextends, idOf_eq_some.mpr ⟨_, hentry⟩⟩)
          | @job jobName hbegins =>
              have hmapped := mapped_mapName s jobName
              by_cases himage : (s.mapName jobName).1.jobIdRevToImage ((s.mapName jobName).2, 0) = none
              · obtain ⟨s₁, id, heq, hr⟩ := registered_job h hbegins fun id rev => image_of_mapName himage
                rw [heq] at hhandled
                obtain ⟨rfl, -⟩ := Prod.mk.inj (Except.ok.inj hhandled)
                exact (hr.rebinds_job hbegins).mapped h hr.running (mapped_mapNames _ _)
              · rw [addJob_known himage] at hhandled
                obtain ⟨rfl, -⟩ := Prod.mk.inj (Except.ok.inj hhandled)
                exact hmapped.rebinds

theorem handleJobDone_rebinds {s' : JsonInterface} {revision : Nat} (h : s.handleJobDone false id revision = .ok s') :
    Rebinds s s' (s.finished id revision).toList [] := by
  rw [handleJobDone, if_neg Bool.false_ne_true] at h
  cases himg : s.jobIdRevToImage (id, revision) with
  | none =>
      rw [himg] at h
      cases h
  | some img =>
      simp only [himg] at h
      cases hincremental : img.incremental with
      | true =>
          rw [hincremental, if_pos rfl] at h
          obtain rfl := Except.ok.inj h
          have hnone : s.finished id revision = none := by simp [finished, himg, hincremental]
          rw [hnone]
          exact (Mapped.refl _).rebinds
      | false =>
          rw [hincremental, if_neg Bool.false_ne_true] at h
          obtain rfl := Except.ok.inj h
          have hfinished : s.finished id revision =
              (s.idOf img.userQualifiedName).map fun id => (img.userQualifiedName, id) := by
            rw [finished, himg]
            cases hid : s.idOf img.userQualifiedName <;> simp [hid, hincremental]
          rw [hfinished]
          exact rebinds_erase rfl

end JsonInterface

namespace SubmissionLog

open JsonInterface (isJob Mapped Registered Below introduce)

def submitted (w : SubmissionLog) : List (Name × Nat) :=
  w.jobs.filterMap fun entry => entry.1.jobName.map fun name => (name, entry.2.id)

def dependencies (w : SubmissionLog) : List (Name × Nat) :=
  w.jobs.flatMap fun entry => entry.1.dependencyNames.zip entry.2.dependencies

/-- The id stored for a dependency is the id of the job with this name, hence done when the job is. -/
structure Linked (w : SubmissionLog) : Prop where
  same : ∀ name id dependency, (name, id) ∈ w.submitted → (name, dependency) ∈ w.dependencies → dependency = id
  done : ∀ name id dependency, (name, id) ∈ w.submitted → (name, dependency) ∈ w.dependencies → id ∈ w.doneJobs →
    dependency ∈ w.doneJobs

def LinksKept (w : SubmissionLog) (event : Event) : Prop := ∀ w', w.step event = .ok w' → w'.Linked

structure Resolvable (w : SubmissionLog) (json : Submission) (jobName : Name) : Prop where
  own : ∀ dependency, (jobName, dependency) ∈ w.dependencies → w.interface.Finds json jobName dependency
  others : ∀ name ∈ json.dependencyNames, ∀ id, (name, id) ∈ w.submitted →
    if name = jobName then w.interface.Finds json jobName id else ∃ rev, w.interface.jobNameToIdRev name = some (id, rev)

def LinksAllowed (w : SubmissionLog) : Event → Prop
  | .handle terminating json => terminating = false → ∀ jobName, w.interface.Accepts json jobName → w.Resolvable json jobName
  | _ => True

/-- The names, with their ids, that an event takes away: by an increment under the name of another job, by the
notification that a job is done, or with a job that is not incremental and has its result. -/
def taken (w : SubmissionLog) : Event → List (Name × Nat)
  | .handle false json => (w.interface.replaced json).toList ++ (w.interface.concluded json).toList
  | .handleJobDone false id revision => (w.interface.finished id revision).toList
  | _ => []

def given (w : SubmissionLog) : Event → List (Name × Nat)
  | .handle false json => (w.interface.increment json).toList
  | _ => []

def lostAfter (lost : List (Name × Nat)) (w : SubmissionLog) (event : Event) : List (Name × Nat) :=
  (lost ++ w.taken event).filter (· ∉ w.given event)

/-- An accepted submission depends on no job that has lost its name, and its own name was not given as a dependency
for an id that it has lost. -/
def NamesAllowed (lost : List (Name × Nat)) (w : SubmissionLog) : Event → Prop
  | .handle false json => ∀ jobName ∈ w.interface.acceptedName json,
      (∀ link ∈ w.submitted, link.1 ∈ json.dependencyNames → link ∉ lost) ∧
      ∀ link ∈ w.dependencies, link.1 = jobName → link ∉ lost
  | _ => True

def KeepsNames (lost : List (Name × Nat)) (w : SubmissionLog) : List Event → Prop
  | [] => True
  | event :: events =>
      NamesAllowed (lostAfter lost w event) w event ∧
      ∀ w', w.step event = .ok w' → KeepsNames (lostAfter lost w event) w' events

instance decidableNamesAllowed (lost : List (Name × Nat)) (w : SubmissionLog) :
    (event : Event) → Decidable (NamesAllowed lost w event)
  | .handle false json =>
      inferInstanceAs (Decidable (∀ jobName ∈ w.interface.acceptedName json,
        (∀ link ∈ w.submitted, link.1 ∈ json.dependencyNames → link ∉ lost) ∧
        ∀ link ∈ w.dependencies, link.1 = jobName → link ∉ lost))
  | .handle true _ => .isTrue trivial
  | .handleJobDone _ _ _ => .isTrue trivial
  | .finishJob _ => .isTrue trivial

instance decidableKeepsNames (lost : List (Name × Nat)) (w : SubmissionLog) :
    (events : List Event) → Decidable (KeepsNames lost w events)
  | [] => .isTrue trivial
  | event :: events =>
      match hok : w.step event with
      | .ok w' =>
          have := decidableKeepsNames (lostAfter lost w event) w' events
          decidable_of_iff (NamesAllowed (lostAfter lost w event) w event ∧
            KeepsNames (lostAfter lost w event) w' events) <| and_congr_right fun _ =>
              ⟨fun h _ hok' => Except.ok.inj (hok.symm.trans hok') ▸ h, fun h => h w' hok⟩
      | .error _ =>
          decidable_of_iff (NamesAllowed (lostAfter lost w event) w event)
            ⟨fun h => ⟨h, fun _ hok' => by cases hok.symm.trans hok'⟩, And.left⟩

structure Tracked (lost : List (Name × Nat)) (w : SubmissionLog) : Prop where
  below : ∀ name id, (name, id) ∈ lost → id < w.interface.runningId
  gone : ∀ name id, (name, id) ∈ lost → w.interface.idOf name ≠ some id
  kept : ∀ name id, (name, id) ∈ w.submitted ∨ (name, id) ∈ w.dependencies → (name, id) ∉ lost →
    w.interface.idOf name = some id

structure SoundLinks (w : SubmissionLog) : Prop where
  linked : w.Linked
  below : w.interface.Below
  submittedBelow : ∀ name id, (name, id) ∈ w.submitted → id < w.interface.runningId
  dependenciesBelow : ∀ name id, (name, id) ∈ w.dependencies → id < w.interface.runningId

theorem linked_of_same {w : SubmissionLog}
    (h : ∀ name id dependency, (name, id) ∈ w.submitted → (name, dependency) ∈ w.dependencies → dependency = id) :
    w.Linked where
  same := h
  done name id dependency hsubmitted hdependency hdone := by
    rw [h name id dependency hsubmitted hdependency]
    exact hdone

section Steps

variable {w : SubmissionLog} {s' s₁ : JsonInterface} {json : Submission} {jobName : Name} {id : Nat}

theorem SoundLinks.of_frame (h : w.SoundLinks) {w' : SubmissionLog} (hjobs : w'.jobs = w.jobs) (hbelow : w'.interface.Below)
    (hrunning : w.interface.runningId ≤ w'.interface.runningId) : w'.SoundLinks := by
  have hsubmitted : w'.submitted = w.submitted := by rw [submitted, hjobs, submitted]
  have hdependencies : w'.dependencies = w.dependencies := by rw [dependencies, hjobs, dependencies]
  refine ⟨linked_of_same ?_, hbelow, ?_, ?_⟩
  · rw [hsubmitted, hdependencies]
    exact h.linked.same
  · rw [hsubmitted]
    exact fun name id hmem => lt_of_lt_of_le (h.submittedBelow name id hmem) hrunning
  · rw [hdependencies]
    exact fun name id hmem => lt_of_lt_of_le (h.dependenciesBelow name id hmem) hrunning

def introduced (w : SubmissionLog) (s₁ : JsonInterface) (id : Nat) (json : Submission) : SubmissionLog :=
  w.pass (introduce s₁ id json).1 json (introduce s₁ id json).2.2

theorem submitted_introduced (hname : json.jobName = some jobName) (name : Name) (id' : Nat) :
    (name, id') ∈ (w.introduced s₁ id json).submitted ↔ (name, id') ∈ w.submitted ∨ name = jobName ∧ id' = id := by
  simp [introduced, introduce, pass, submitted, jobs, isJob, hname]

theorem dependencies_introduced (name : Name) (id' : Nat) :
    (name, id') ∈ (w.introduced s₁ id json).dependencies ↔
      (name, id') ∈ w.dependencies ∨ (name, id') ∈ json.dependencyNames.zip (s₁.mapNames json.dependencyNames).2 := by
  simp [introduced, introduce, pass, dependencies, jobs, isJob]

/-- The id that is stored for a dependency, compared with what the name led to before. -/
theorem dependency_spec (hr : Registered w.interface s₁ json jobName id) {name : Name} {dependency : Nat}
    (h : (name, dependency) ∈ json.dependencyNames.zip (s₁.mapNames json.dependencyNames).2) :
    (name = jobName → dependency = id) ∧
      (name ≠ jobName → (∃ rev, w.interface.jobNameToIdRev name = some (dependency, rev)) ∨
        (∀ entry, w.interface.jobNameToIdRev name ≠ some entry) ∧ w.interface.runningId ≤ dependency) := by
  obtain ⟨rev, hrev⟩ := s₁.mapNames_zip json.dependencyNames h
  have hmapped := JsonInterface.mapped_mapNames s₁ json.dependencyNames
  constructor
  · rintro rfl
    obtain ⟨rev', hown⟩ := hr.own
    have hsame := hmapped.known _ _ hown
    rw [hrev] at hsame
    exact (Prod.mk.inj (Option.some.inj hsame)).1
  · intro hne
    cases hentry : w.interface.jobNameToIdRev name with
    | some entry =>
        have hknown := hmapped.known name entry ((hr.others name hne).trans hentry)
        rw [hrev] at hknown
        obtain rfl := Option.some.inj hknown
        exact Or.inl ⟨rev, rfl⟩
    | none =>
        refine Or.inr ⟨fun entry => (nomatch ·), ?_⟩
        rcases hmapped.new name dependency rev hrev with hold | ⟨hlower, -⟩
        · rw [hr.others name hne, hentry] at hold
          cases hold
        · exact hr.running.trans hlower

theorem SoundLinks.introduced (h : w.SoundLinks) (hr : Registered w.interface s₁ json jobName id)
    (hname : json.jobName = some jobName) (hresolvable : w.Resolvable json jobName) :
    (w.introduced s₁ id json).SoundLinks := by
  have hmapped := JsonInterface.mapped_mapNames s₁ json.dependencyNames
  have hbelow := hr.below.mapped hmapped
  have hrunning := hr.running.trans hmapped.running
  refine ⟨linked_of_same ?_, hbelow, ?_, ?_⟩
  · intro name id' dependency hsubmitted hdependency
    rw [submitted_introduced hname] at hsubmitted
    rw [dependencies_introduced] at hdependency
    rcases hsubmitted with hsubmitted | ⟨rfl, rfl⟩
    · rcases hdependency with hdependency | hdependency
      · exact h.linked.same name id' dependency hsubmitted hdependency
      · obtain ⟨hown, hother⟩ := dependency_spec hr hdependency
        have hfound := hresolvable.others name (List.of_mem_zip hdependency).1 id' hsubmitted
        by_cases heq : name = jobName
        · rw [if_pos heq] at hfound
          rw [hown heq, hr.finds id' hfound]
        · rw [if_neg heq] at hfound
          obtain ⟨rev, hrev⟩ := hfound
          rcases hother heq with ⟨rev', hrev'⟩ | ⟨hnone, -⟩
          · rw [hrev] at hrev'
            exact (Prod.mk.inj (Option.some.inj hrev')).1.symm
          · exact absurd hrev (hnone _)
    · rcases hdependency with hdependency | hdependency
      · exact hr.finds dependency (hresolvable.own dependency hdependency)
      · exact (dependency_spec hr hdependency).1 rfl
  · intro name id' hsubmitted
    rw [submitted_introduced hname] at hsubmitted
    rcases hsubmitted with hsubmitted | ⟨rfl, rfl⟩
    · exact lt_of_lt_of_le (h.submittedBelow name id' hsubmitted) hrunning
    · obtain ⟨rev, hown⟩ := hr.own
      exact lt_of_lt_of_le (hr.below.names _ _ _ hown) hmapped.running
  · intro name id' hdependency
    rw [dependencies_introduced] at hdependency
    rcases hdependency with hdependency | hdependency
    · exact lt_of_lt_of_le (h.dependenciesBelow name id' hdependency) hrunning
    · obtain ⟨rev, hrev⟩ := s₁.mapNames_zip json.dependencyNames hdependency
      exact hbelow.names _ _ _ hrev

theorem SoundLinks.resolvable (h : w.SoundLinks) (hr : Registered w.interface s₁ json jobName id)
    (hname : json.jobName = some jobName) (hlinked : (w.introduced s₁ id json).Linked) : w.Resolvable json jobName := by
  have hnew : (jobName, id) ∈ (w.introduced s₁ id json).submitted :=
    (submitted_introduced hname jobName id).mpr (Or.inr ⟨rfl, rfl⟩)
  -- an id that was stored before is not the next one of the counter
  have hfinds : ∀ id' < w.interface.runningId, id' = id → w.interface.Finds json jobName id' := by
    rintro id' hlt rfl
    exact hr.found.resolve_right hlt.ne
  constructor
  · intro dependency hdependency
    have hsame := hlinked.same jobName id dependency hnew ((dependencies_introduced _ _).mpr (Or.inl hdependency))
    exact hfinds dependency (h.dependenciesBelow _ _ hdependency) hsame
  · intro name hmem id' hsubmitted
    obtain ⟨dependency, hzip⟩ := s₁.exists_zip hmem
    have hsame := hlinked.same name id' dependency ((submitted_introduced hname _ _).mpr (Or.inl hsubmitted))
      ((dependencies_introduced _ _).mpr (Or.inr hzip))
    obtain ⟨hown, hother⟩ := dependency_spec hr hzip
    have hbelow := h.submittedBelow name id' hsubmitted
    by_cases heq : name = jobName
    · rw [if_pos heq]
      exact hfinds id' hbelow (hsame.symm.trans (hown heq))
    · rw [if_neg heq]
      rcases hother heq with ⟨rev, hrev⟩ | ⟨-, hlower⟩
      · exact ⟨rev, hsame ▸ hrev⟩
      · omega

theorem SoundLinks.step (h : w.SoundLinks) {event : Event} (hallowed : w.LinksAllowed event) {w' : SubmissionLog}
    (hok : w.step event = .ok w') : w'.SoundLinks := by
  cases event with
  | handle terminating json =>
      cases hhandle : w.interface.handle terminating json with
      | error fault =>
          simp only [SubmissionLog.step, hhandle, bind, Except.bind] at hok
          cases hok
      | ok handled =>
          obtain ⟨s', result, metadata⟩ := handled
          rw [step_handle hhandle] at hok
          obtain rfl := Except.ok.inj hok
          rcases JsonInterface.handle_registers h.below terminating hhandle with ⟨hbelow, hrunning, hjob⟩ | ⟨rfl, jobName, haccepts⟩
          · refine h.of_frame ?_ hbelow hrunning
            cases metadata with
            | none => simp [pass, jobs]
            | some data => simp [pass, jobs, hjob data rfl]
          · obtain ⟨hname, s₁, id, heq, hr⟩ := JsonInterface.handle_accepts h.below haccepts
            rw [hhandle] at heq
            have hintroduced := h.introduced hr hname (hallowed rfl jobName haccepts)
            rw [SubmissionLog.introduced, ← Except.ok.inj heq] at hintroduced
            exact hintroduced
  | handleJobDone terminating id revision =>
      obtain ⟨s', hdone, rfl⟩ := step_handleJobDone hok
      rcases JsonInterface.handleJobDone_ok hdone with rfl | ⟨name, rfl⟩
      · exact h
      · refine h.of_frame rfl ⟨?_, ?_⟩ le_rfl
        · exact fun name' id' rev' hname => h.below.names _ _ _ (JsonInterface.eq_some_of_update_none hname)
        · intro key hkey
          obtain ⟨img, himg⟩ := Option.ne_none_iff_exists'.mp hkey
          exact h.below.images key (by rw [JsonInterface.eq_some_of_update_none himg]; simp)
  | finishJob id =>
      obtain rfl := Except.ok.inj hok
      exact h.of_frame rfl h.below le_rfl

theorem SoundLinks.kept_iff (h : w.SoundLinks) (event : Event) : w.LinksKept event ↔ w.LinksAllowed event := by
  constructor
  · intro hk
    cases event with
    | handle terminating json =>
        rintro rfl jobName haccepts
        obtain ⟨hname, s₁, id, heq, hr⟩ := JsonInterface.handle_accepts h.below haccepts
        exact h.resolvable hr hname (hk _ (step_handle heq))
    | handleJobDone terminating id revision => trivial
    | finishJob id => trivial
  · exact fun hallowed w' hok => (h.step hallowed hok).linked

theorem rebinds_step (h : w.interface.Below) {event : Event} {w' : SubmissionLog} (hok : w.step event = .ok w') :
    JsonInterface.Rebinds w.interface w'.interface (w.taken event) (w.given event) := by
  cases event with
  | handle terminating json =>
      cases hhandle : w.interface.handle terminating json with
      | error fault =>
          simp only [SubmissionLog.step, hhandle, bind, Except.bind] at hok
          cases hok
      | ok handled =>
          obtain ⟨s', result, metadata⟩ := handled
          rw [step_handle hhandle] at hok
          obtain rfl := Except.ok.inj hok
          cases terminating with
          | false => exact JsonInterface.handle_rebinds h hhandle
          | true =>
              obtain ⟨rfl, -⟩ := Prod.mk.inj (Except.ok.inj hhandle)
              exact (Mapped.refl _).rebinds
  | handleJobDone terminating id revision =>
      obtain ⟨s', hdone, rfl⟩ := step_handleJobDone hok
      cases terminating with
      | false => exact JsonInterface.handleJobDone_rebinds hdone
      | true =>
          obtain rfl := Except.ok.inj hdone
          exact (Mapped.refl _).rebinds
  | finishJob id =>
      obtain rfl := Except.ok.inj hok
      exact (Mapped.refl _).rebinds

theorem running_step (h : w.interface.Below) {event : Event} {w' : SubmissionLog} (hok : w.step event = .ok w') :
    w.interface.runningId ≤ w'.interface.runningId := by
  cases event with
  | handle terminating json =>
      cases hhandle : w.interface.handle terminating json with
      | error fault =>
          simp only [SubmissionLog.step, hhandle, bind, Except.bind] at hok
          cases hok
      | ok handled =>
          obtain ⟨s', result, metadata⟩ := handled
          rw [step_handle hhandle] at hok
          obtain rfl := Except.ok.inj hok
          rcases JsonInterface.handle_registers h terminating hhandle with ⟨-, hrunning, -⟩ | ⟨rfl, jobName, haccepts⟩
          · exact hrunning
          · obtain ⟨-, s₁, id, heq, hr⟩ := JsonInterface.handle_accepts h haccepts
            rw [hhandle] at heq
            obtain ⟨rfl, -⟩ := Prod.mk.inj (Except.ok.inj heq)
            exact hr.running.trans (JsonInterface.mapped_mapNames _ _).running
  | handleJobDone terminating id revision =>
      obtain ⟨s', hdone, rfl⟩ := step_handleJobDone hok
      rcases JsonInterface.handleJobDone_ok hdone with rfl | ⟨name, rfl⟩
      · exact le_rfl
      · exact le_rfl
  | finishJob id =>
      obtain rfl := Except.ok.inj hok
      exact le_rfl

/-- A link is as old as the event before it, or its name leads to its id. -/
theorem links_step (h : w.interface.Below) {event : Event} {w' : SubmissionLog} (hok : w.step event = .ok w')
    {name : Name} (hlink : (name, id) ∈ w'.submitted ∨ (name, id) ∈ w'.dependencies) :
    ((name, id) ∈ w.submitted ∨ (name, id) ∈ w.dependencies) ∨ w'.interface.idOf name = some id := by
  cases event with
  | handle terminating json =>
      cases hhandle : w.interface.handle terminating json with
      | error fault =>
          simp only [SubmissionLog.step, hhandle, bind, Except.bind] at hok
          cases hok
      | ok handled =>
          obtain ⟨s', result, metadata⟩ := handled
          rw [step_handle hhandle] at hok
          obtain rfl := Except.ok.inj hok
          rcases JsonInterface.handle_registers h terminating hhandle with ⟨-, -, hjob⟩ | ⟨rfl, jobName, haccepts⟩
          · have hjobs : (w.pass s' json metadata).jobs = w.jobs := by
              cases metadata with
              | none => simp [pass, jobs]
              | some data => simp [pass, jobs, hjob data rfl]
            rw [submitted, dependencies, hjobs] at hlink
            exact Or.inl hlink
          · obtain ⟨hname, s₁, id₁, heq, hr⟩ := JsonInterface.handle_accepts h haccepts
            rw [hhandle] at heq
            obtain ⟨rfl, hrest⟩ := Prod.mk.inj (Except.ok.inj heq)
            obtain ⟨-, rfl⟩ := Prod.mk.inj hrest
            have hmapped := JsonInterface.mapped_mapNames s₁ json.dependencyNames
            rcases hlink with hsubmitted | hdependency
            · rcases (submitted_introduced hname name id).mp hsubmitted with hold | ⟨rfl, rfl⟩
              · exact Or.inl (Or.inl hold)
              · exact Or.inr (hmapped.keeps hr.idOf_self)
            · rcases (dependencies_introduced name id).mp hdependency with hold | hnew
              · exact Or.inl (Or.inr hold)
              · exact Or.inr (JsonInterface.idOf_eq_some.mpr (s₁.mapNames_zip _ hnew))
  | handleJobDone terminating id revision =>
      obtain ⟨s', hdone, rfl⟩ := step_handleJobDone hok
      exact Or.inl hlink
  | finishJob id =>
      obtain rfl := Except.ok.inj hok
      exact Or.inl hlink

theorem mem_lostAfter {lost : List (Name × Nat)} {event : Event} {link : Name × Nat} :
    link ∈ lostAfter lost w event ↔ (link ∈ lost ∨ link ∈ w.taken event) ∧ link ∉ w.given event := by
  rw [lostAfter, List.mem_filter, List.mem_append, decide_eq_true_iff]

theorem Tracked.step {lost : List (Name × Nat)} (h : Tracked lost w) (hbelow : w.interface.Below) {event : Event}
    {w' : SubmissionLog} (hok : w.step event = .ok w') : Tracked (lostAfter lost w event) w' := by
  have hrebinds := rebinds_step hbelow hok
  constructor
  · intro name id hmem
    refine lt_of_lt_of_le ?_ (running_step hbelow hok)
    rcases (mem_lostAfter.mp hmem).1 with hlost | htaken
    · exact h.below name id hlost
    · exact hbelow.idOf (hrebinds.takes name id htaken).1
  · intro name id hmem hid
    obtain ⟨hlost | htaken, hgiven⟩ := mem_lostAfter.mp hmem
    · rcases hrebinds.new name id hid with hold | hnew | hfresh
      · exact h.gone name id hlost hold
      · exact hgiven hnew
      · exact absurd (h.below name id hlost) (not_lt.mpr hfresh)
    · exact (hrebinds.takes name id htaken).2 hid
  · intro name id hlink hmem
    rcases links_step hbelow hok hlink with hold | hid
    · by_cases hgiven : (name, id) ∈ w.given event
      · exact hrebinds.gives name id hgiven
      · have hnot := fun hor => hmem (mem_lostAfter.mpr ⟨hor, hgiven⟩)
        exact hrebinds.keeps name id (h.kept name id hold (hnot ∘ Or.inl)) (hnot ∘ Or.inr)
    · exact hid

/-- A link other than the ones of the accepted name is lost exactly if it was lost before. -/
theorem Tracked.idOf_iff {lost : List (Name × Nat)} (h : Tracked lost w) (haccepts : w.interface.Accepts json jobName)
    {name : Name} (hne : name ≠ jobName) (hlink : (name, id) ∈ w.submitted) :
    w.interface.idOf name = some id ↔ (name, id) ∉ lostAfter lost w (.handle false json) := by
  have hgiven : (name, id) ∉ w.given (.handle false json) := fun hmem => by
    obtain ⟨precursorName, hextends, -⟩ := JsonInterface.increment_eq_some.mp (Option.mem_toList.mp hmem)
    exact hne (haccepts.name_unique hextends.name)
  have htaken : (name, id) ∉ w.taken (.handle false json) := fun hmem => by
    rcases List.mem_append.mp hmem with hmem | hmem
    · obtain ⟨id', hincrement, -⟩ := JsonInterface.replaced_eq_some.mp (Option.mem_toList.mp hmem)
      obtain ⟨precursorName, hextends, -⟩ := JsonInterface.increment_eq_some.mp hincrement
      exact hne (haccepts.name_unique hextends.name)
    · obtain ⟨hconcludes, -⟩ := JsonInterface.concluded_eq_some.mp (Option.mem_toList.mp hmem)
      exact haccepts.not_concludes hconcludes
  rw [mem_lostAfter, not_and_not_right]
  refine ⟨fun hid hor => ?_, fun himp => h.kept name id (Or.inl hlink) fun hlost => hgiven (himp (Or.inl hlost))⟩
  exact absurd hid (h.gone name id (hor.resolve_right htaken))

/-- An accepted submission finds the id of a link of its name exactly if the link is not lost. -/
theorem Tracked.finds_iff {lost : List (Name × Nat)} (h : Tracked lost w) (haccepts : w.interface.Accepts json jobName)
    (hlink : (jobName, id) ∈ w.submitted ∨ (jobName, id) ∈ w.dependencies) :
    w.interface.Finds json jobName id ↔ (jobName, id) ∉ lostAfter lost w (.handle false json) := by
  rw [mem_lostAfter, not_and_not_right]
  have hconcluded : ∀ link, link ∉ (w.interface.concluded json).toList := fun link hmem =>
    haccepts.not_concludes (JsonInterface.concluded_eq_some.mp (Option.mem_toList.mp hmem)).1
  rcases haccepts with ⟨precursorName, hextends, hknown⟩ | ⟨hbegins, -⟩
  · obtain ⟨entry, hentry⟩ := Option.ne_none_iff_exists'.mp hknown
    have hincrement : w.interface.increment json = some (jobName, entry.1) :=
      JsonInterface.increment_eq_some.mpr ⟨precursorName, hextends, JsonInterface.idOf_eq_some.mpr ⟨entry.2, hentry⟩⟩
    rw [JsonInterface.finds_iff_of_extends hextends]
    constructor
    · exact fun hfinds _ => Option.mem_toList.mpr hfinds
    · intro himp
      by_contra hne
      have hgiven : (jobName, id) ∉ w.given (.handle false json) := fun hmem => hne (Option.mem_toList.mp hmem)
      have hid := h.kept jobName id hlink fun hlost => hgiven (himp (Or.inl hlost))
      refine hgiven (himp (Or.inr (List.mem_append_left _ (Option.mem_toList.mpr ?_))))
      refine JsonInterface.replaced_eq_some.mpr ⟨entry.1, hincrement, hid, ?_⟩
      rintro rfl
      exact hne hincrement
  · have hnone : w.interface.increment json = none := JsonInterface.increment_of_begins hbegins
    rw [JsonInterface.finds_iff_of_begins hbegins]
    have htaken : (jobName, id) ∉ w.taken (.handle false json) := fun hmem => by
      rcases List.mem_append.mp hmem with hmem | hmem
      · simp [JsonInterface.replaced, hnone] at hmem
      · exact hconcluded _ hmem
    have hgiven : (jobName, id) ∉ w.given (.handle false json) := by simp [given, hnone]
    refine ⟨fun hid hor => ?_, fun himp => h.kept jobName id hlink fun hlost => hgiven (himp (Or.inl hlost))⟩
    exact absurd hid (h.gone jobName id (hor.resolve_right htaken))

theorem Tracked.allowed_iff {lost : List (Name × Nat)} (h : Tracked lost w) (event : Event) :
    w.LinksAllowed event ↔ NamesAllowed (lostAfter lost w event) w event := by
  cases event with
  | handle terminating json =>
      cases terminating with
      | true => exact iff_of_true (fun hfalse => nomatch hfalse) trivial
      | false =>
          refine (imp_iff_right rfl).trans (forall_congr' fun jobName => ?_)
          rw [Option.mem_def, ← JsonInterface.accepts_iff]
          refine forall_congr' fun haccepts => ?_
          constructor
          · intro hresolvable
            constructor
            · rintro ⟨name, id⟩ hsubmitted hmem
              have hfound := hresolvable.others name hmem id hsubmitted
              by_cases heq : name = jobName
              · subst heq
                rw [if_pos rfl] at hfound
                exact (h.finds_iff haccepts (Or.inl hsubmitted)).mp hfound
              · rw [if_neg heq, ← JsonInterface.idOf_eq_some] at hfound
                exact (h.idOf_iff haccepts heq hsubmitted).mp hfound
            · rintro ⟨name, id⟩ hdependency rfl
              exact (h.finds_iff haccepts (Or.inr hdependency)).mp (hresolvable.own id hdependency)
          · rintro ⟨hothers, hown⟩
            constructor
            · exact fun id hdependency => (h.finds_iff haccepts (Or.inr hdependency)).mpr (hown _ hdependency rfl)
            · intro name hmem id hsubmitted
              have hkept := hothers _ hsubmitted hmem
              by_cases heq : name = jobName
              · subst heq
                rw [if_pos rfl]
                exact (h.finds_iff haccepts (Or.inl hsubmitted)).mpr hkept
              · rw [if_neg heq, ← JsonInterface.idOf_eq_some]
                exact (h.idOf_iff haccepts heq hsubmitted).mpr hkept
  | handleJobDone terminating id revision => exact Iff.rfl
  | finishJob id => exact Iff.rfl

theorem throughout_iff {lost : List (Name × Nat)} (h : w.SoundLinks) (htracked : Tracked lost w) (events : List Event) :
    Runs.Throughout SubmissionLog.step LinksKept w events ↔ KeepsNames lost w events := by
  induction events generalizing lost w with
  | nil => exact Iff.rfl
  | cons event events ih =>
      rw [Runs.Throughout, KeepsNames, h.kept_iff event, htracked.allowed_iff event]
      refine and_congr_right fun hnames => forall₂_congr fun w' hok => ?_
      exact ih (h.step ((htracked.allowed_iff event).mpr hnames) hok) (htracked.step h.below hok)

end Steps

theorem soundLinks_start (applicationConfiguration : AppConfiguration) (clientRank : Nat) :
    SoundLinks (start applicationConfiguration clientRank) where
  linked := linked_of_same fun _ _ _ h => nomatch h
  below := ⟨fun _ _ _ h => (nomatch h), fun _ h => absurd rfl h⟩
  submittedBelow _ _ h := nomatch h
  dependenciesBelow _ _ h := nomatch h

theorem tracked_start (applicationConfiguration : AppConfiguration) (clientRank : Nat) :
    Tracked [] (start applicationConfiguration clientRank) where
  below _ _ h := nomatch h
  gone _ _ h := nomatch h
  kept _ _ h := h.elim (fun h => nomatch h) fun h => nomatch h

/-- Along a run dependencies refer to the named jobs exactly if no accepted submission uses a name after its loss. -/
theorem dependencies_linked_iff (applicationConfiguration : AppConfiguration) (clientRank : Nat) (events : List Event) :
    Runs.Throughout step LinksKept (start applicationConfiguration clientRank) events ↔
      KeepsNames [] (start applicationConfiguration clientRank) events :=
  throughout_iff (soundLinks_start applicationConfiguration clientRank)
    (tracked_start applicationConfiguration clientRank) events

def dependentFile (name : UInt8) (dependencies : List UInt8) : Submission where
  user := some [117]
  name := some [name]
  dependencies := dependencies.map fun dependency => [117, 46, dependency]

-- b depends on a before a is submitted, c on both of them, and then a and b finish
example : KeepsNames [] (start {} 0) [.handle false (dependentFile 98 [97]), .handle false (dependentFile 97 []),
    .handle false (dependentFile 99 [97, 98]), .handleJobDone false 2 0, .handleJobDone false 1 0,
    .handle false (dependentFile 100 [99])] := by
  decide

/-- A job that is submitted after the job it depends on has finished waits for an id that no job has. -/
theorem finished_dependency_lost :
    (∃ w, Runs.run step (start {} 0) [.handle false (dependentFile 97 []), .handleJobDone false 1 0, .finishJob 1,
        .handle false (dependentFile 98 [97])] = .ok w ∧
      w.submitted = [([117, 46, 97, 46, 106, 115, 111, 110], 1), ([117, 46, 98, 46, 106, 115, 111, 110], 2)] ∧
      w.dependencies = [([117, 46, 97, 46, 106, 115, 111, 110], 3)] ∧ w.doneJobs = [1]) ∧
    ¬ Runs.Throughout step LinksKept (start {} 0) [.handle false (dependentFile 97 []), .handleJobDone false 1 0,
      .finishJob 1, .handle false (dependentFile 98 [97])] := by
  refine ⟨⟨_, rfl, rfl, rfl, rfl⟩, ?_⟩
  rintro ⟨-, hrun⟩
  obtain ⟨-, hrun⟩ := hrun _ rfl
  obtain ⟨-, hrun⟩ := hrun _ rfl
  obtain ⟨hlinks, -⟩ := hrun _ rfl
  have hsame := (hlinks _ rfl).same [117, 46, 97, 46, 106, 115, 111, 110] 1 3 List.mem_cons_self List.mem_cons_self
  cases hsame

end SubmissionLog

end Mallob
