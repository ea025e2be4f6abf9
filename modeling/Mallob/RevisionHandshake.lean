import Mallob.Runs
import Mallob.RevisionWriter

namespace Mallob.RevisionHandshake

open HordeProcess (awaitsRevision resetStart)
open Runs

structure Passage where
  doStart : Bool
  didStart : Bool
  toWrite : List Int
  written : Int
  published : Int
  lastImported : Int

def passage (s : HordeProcess.State) : Passage :=
  ⟨s.hsm.doStartNextRevision, s.hsm.didStartNextRevision, s.adapter.revisionsToWrite, s.adapter.writtenRevision,
    s.adapter.publishedRevision, s.process.lastImportedRevision⟩

namespace Passage

def check (x : Passage) : Passage :=
  if x.didStart then { x with doStart := false }
  else if !x.doStart && x.published < x.written then { x with doStart := true, published := x.published + 1 }
  else x

def iteration (x : Passage) : Passage :=
  if x.doStart then if x.didStart then x else { x with didStart := true, lastImported := x.lastImported + 1 }
  else { x with didStart := false }

end Passage

section Base

variable {s s' : HordeProcess.State}

theorem passage_publishRevision (s : HordeProcess.State) :
    passage (HordeProcess.publishRevision (HordeProcess.takeBack s)) = (passage s).check := by
  cases hdid : s.hsm.didStartNextRevision with
  | true => simp [HordeProcess.publishRevision, HordeProcess.takeBack, passage, Passage.check, hdid]
  | false =>
      by_cases hpublish : (!s.hsm.doStartNextRevision && s.adapter.publishedRevision < s.adapter.writtenRevision) = true
      · have htaken : (!s.hsm.doStartNextRevision && !false &&
            s.adapter.publishedRevision < s.adapter.writtenRevision) = true := by simpa using hpublish
        simp only [HordeProcess.publishRevision, HordeProcess.takeBack, passage, Passage.check, hdid,
          Bool.false_eq_true, if_false, htaken, hpublish, if_true]
      · have htaken : ¬ (!s.hsm.doStartNextRevision && !false &&
            s.adapter.publishedRevision < s.adapter.writtenRevision) = true := by simpa using hpublish
        simp only [HordeProcess.publishRevision, HordeProcess.takeBack, passage, Passage.check, hdid,
          Bool.false_eq_true, if_false, htaken, hpublish]

theorem tempClauseBuffers_publishRevision (s : HordeProcess.State) :
    (HordeProcess.publishRevision s).adapter.tempClauseBuffers = s.adapter.tempClauseBuffers := by
  rw [HordeProcess.publishRevision]
  split
  · rfl
  · rfl

theorem digestNext_nil (h : s.adapter.tempClauseBuffers = []) : HordeProcess.digestNext s = .ok s := by
  rw [HordeProcess.digestNext, h]
  split
  · rfl
  · rfl

theorem returnNext_frame (s : HordeProcess.State) : passage (HordeProcess.returnNext s) = passage s ∧
    (HordeProcess.returnNext s).adapter.tempClauseBuffers = s.adapter.tempClauseBuffers := by
  rw [HordeProcess.returnNext]
  split
  · split
    · exact ⟨rfl, rfl⟩
    · exact ⟨rfl, rfl⟩
  · exact ⟨rfl, rfl⟩

theorem check_passage (h : s.adapter.tempClauseBuffers = []) : ∃ s', HordeProcess.check s = .ok s' ∧
    passage s' = (passage s).check ∧ s'.adapter.tempClauseBuffers = [] := by
  have hnil : (HordeProcess.publishRevision (HordeProcess.takeBack s)).adapter.tempClauseBuffers = [] := by
    rw [tempClauseBuffers_publishRevision]
    exact h
  obtain ⟨hpassage, hbuffers⟩ := returnNext_frame (HordeProcess.publishRevision (HordeProcess.takeBack s))
  refine ⟨HordeProcess.returnNext (HordeProcess.publishRevision (HordeProcess.takeBack s)), ?_, ?_, ?_⟩
  · rw [HordeProcess.check, digestNext_nil hnil]
    rfl
  · rw [hpassage, passage_publishRevision]
  · rw [hbuffers, hnil]

theorem passage_resetStart (h : ¬ ((passage s).doStart && !(passage s).didStart) = true) :
    passage (resetStart s) = (passage s).iteration := by
  cases hdo : s.hsm.doStartNextRevision <;> cases hdid : s.hsm.didStartNextRevision <;>
    simp_all [resetStart, passage, Passage.iteration]

theorem passage_importRevision (s : HordeProcess.State) :
    passage (HordeProcess.importRevision s) = (passage s).iteration := by
  cases hdo : s.hsm.doStartNextRevision <;> cases hdid : s.hsm.didStartNextRevision <;>
    simp [HordeProcess.importRevision, resetStart, passage, Passage.iteration, hdo, hdid]

theorem tempClauseBuffers_resetStart (s : HordeProcess.State) :
    (resetStart s).adapter.tempClauseBuffers = s.adapter.tempClauseBuffers := by
  rw [resetStart]
  split
  · rfl
  · rfl

theorem tempClauseBuffers_importRevision (s : HordeProcess.State) :
    (HordeProcess.importRevision s).adapter.tempClauseBuffers = s.adapter.tempClauseBuffers := by
  rw [HordeProcess.importRevision, tempClauseBuffers_resetStart]
  split
  · rfl
  · rfl

theorem importClauses_frame (s : HordeProcess.State) : passage (HordeProcess.importClauses s) = passage s ∧
    (HordeProcess.importClauses s).adapter.tempClauseBuffers = s.adapter.tempClauseBuffers := by
  rw [HordeProcess.importClauses]
  dsimp only
  split <;> split <;> exact ⟨rfl, rfl⟩

theorem reinsertClauses_frame (s : HordeProcess.State) : passage (HordeProcess.reinsertClauses s) = passage s ∧
    (HordeProcess.reinsertClauses s).adapter.tempClauseBuffers = s.adapter.tempClauseBuffers := by
  rw [HordeProcess.reinsertClauses]
  dsimp only
  split <;> split <;> exact ⟨rfl, rfl⟩

end Base

def Appended.lits (appended : Appended) : Int × List Int × List Int :=
  (appended.revision, appended.fLits, appended.aLits)

def RevisionData.lits (data : RevisionData) : Int × List Int × List Int := (data.revision, data.fLits, data.aLits)

/-- With w written, p published and l imported revisions: the writer has the rest of the given revisions, the
blocks of the written ones are complete, and the child is one behind only while it is asked to start. -/
structure Orderly (s : State) (w p l : Nat) : Prop where
  buffers : s.base.adapter.tempClauseBuffers = []
  written : (passage s.base).written = w
  published : (passage s.base).published = p
  lastImported : (passage s.base).lastImported = l
  phase : l + (if (passage s.base).doStart && !(passage s.base).didStart then 1 else 0) = p
  published_le : p ≤ w
  written_le : w ≤ s.given.length
  numbered : ∀ (i : Nat) (data : RevisionData), s.given[i]? = some data → data.revision = i + 1
  unwritten : s.given.drop w = s.writer.taken ++ s.revisionsToWrite
  toWrite : (passage s.base).toWrite = (s.given.drop w).map RevisionData.revision
  complete : ∀ (i : Nat) (data : RevisionData), i < w → s.given[i]? = some data →
    ∀ block, s.shmem block (i + 1) = some (data.content block)
  begun : ∀ data remaining, s.writer = .writing data remaining →
    ∀ block, block ∉ remaining → s.shmem block data.revision = some (data.content block)
  appended : s.appended.map Appended.lits = (s.given.take l).map RevisionData.lits
  backed : ∀ a ∈ s.appended, a.revision ≤ a.writtenRevision
  returned : ∀ r ∈ s.returned, r.2 ≤ r.1

section Steps

variable {s s' : State} {w p l : Nat}

theorem orderly_start (importBufferMaxSize : Nat) (firstrev : Int) (checksum : Option Checksum) :
    Orderly (doInitialize importBufferMaxSize firstrev checksum) 0 0 0 where
  buffers := rfl
  written := rfl
  published := rfl
  lastImported := rfl
  phase := rfl
  published_le := le_rfl
  written_le := le_rfl
  numbered := fun i data hdata => by cases hdata
  unwritten := rfl
  toWrite := rfl
  complete := fun i data hi => absurd hi (Nat.not_lt_zero i)
  begun := fun data remaining hwriter => by cases hwriter
  appended := rfl
  backed := fun a ha => by cases ha
  returned := fun r hr => by cases hr

theorem Orderly.doWriteRevisions (h : Orderly s w p l) (locked : Bool) : Orderly (doWriteRevisions s locked) w p l := by
  rw [RevisionHandshake.doWriteRevisions]
  split
  · exact h
  · split
    · next hidle =>
        have hunwritten := h.unwritten
        rw [hidle] at hunwritten
        exact { h with unwritten := hunwritten, begun := fun data remaining hwriter => by cases hwriter }
    · exact h

theorem doWriteRevisions_frame (s : State) (locked : Bool) : (doWriteRevisions s locked).base = s.base ∧
    (doWriteRevisions s locked).given = s.given ∧
    (doWriteRevisions s locked).revisionsToWrite = s.revisionsToWrite := by
  rw [doWriteRevisions]
  split
  · exact ⟨rfl, rfl, rfl⟩
  · split
    · exact ⟨rfl, rfl, rfl⟩
    · exact ⟨rfl, rfl, rfl⟩

theorem Orderly.appendRevisions (h : Orderly s w p l) {revisions : List RevisionData}
    (hnext : revisions.map RevisionData.revision = (List.range' (s.given.length + 1) revisions.length).map Nat.cast)
    (desiredRevision : Int) (locked : Bool) : Orderly (appendRevisions s revisions desiredRevision locked) w p l := by
  refine Orderly.doWriteRevisions ?_ locked
  have hnumbered : ∀ (i : Nat) (data : RevisionData), (s.given ++ revisions)[i]? = some data → data.revision = i + 1 := by
    intro i data hdata
    rcases Nat.lt_or_ge i s.given.length with hi | hi
    · rw [List.getElem?_append_left hi] at hdata
      exact h.numbered i data hdata
    · rw [List.getElem?_append_right hi] at hdata
      have hrevision := congrArg (·[i - s.given.length]?) hnext
      simp only [List.getElem?_map, hdata, Option.map_some] at hrevision
      rw [List.getElem?_range' (List.getElem?_eq_some_iff.mp hdata).1, Option.map_some] at hrevision
      rw [Option.some.inj hrevision]
      push_cast
      omega
  have hdrop : (s.given ++ revisions).drop w = s.given.drop w ++ revisions :=
    List.drop_append_of_le_length h.written_le
  have hl : l ≤ s.given.length := by
    have hphase := h.phase
    have hpublished := h.published_le
    have hwritten := h.written_le
    omega
  refine { h with
    numbered := hnumbered
    written_le := ?_
    unwritten := ?_
    toWrite := ?_
    complete := fun i data hi hdata => ?_
    appended := ?_ }
  · rw [List.length_append]
    exact h.written_le.trans (Nat.le_add_right _ _)
  · rw [hdrop, h.unwritten, List.append_assoc]
  · rw [hdrop, List.map_append, ← h.toWrite]
    rfl
  · rw [List.getElem?_append_left (hi.trans_le h.written_le)] at hdata
    exact h.complete i data hi hdata
  · rw [List.take_append_of_le_length hl]
    exact h.appended

theorem passage_writeRevision {base : HordeProcess.State} {revision : Int} {revisions : List Int}
    (h : (passage base).toWrite = revision :: revisions) : passage (HordeProcess.writeRevision base) =
      { passage base with toWrite := revisions, written := revision } := by
  have hlist : base.adapter.revisionsToWrite = revision :: revisions := h
  rw [HordeProcess.writeRevision, hlist]
  rfl

theorem tempClauseBuffers_writeRevision (base : HordeProcess.State) :
    (HordeProcess.writeRevision base).adapter.tempClauseBuffers = base.adapter.tempClauseBuffers := by
  rw [HordeProcess.writeRevision]
  split
  · rfl
  · rfl

theorem drop_cons {α : Type} {as bs : List α} {a : α} {n : Nat} (h : as.drop n = a :: bs) :
    as[n]? = some a ∧ as.drop (n + 1) = bs ∧ n < as.length := by
  have hlt : n < as.length := by
    have hlength := congrArg List.length h
    rw [List.length_drop, List.length_cons] at hlength
    omega
  rw [List.drop_eq_getElem_cons hlt] at h
  obtain ⟨ha, hbs⟩ := List.cons.inj h
  exact ⟨List.getElem?_eq_some_iff.mpr ⟨hlt, ha⟩, hbs, hlt⟩

theorem Orderly.createSharedMemoryBlock (h : Orderly s w p l) {data : RevisionData} {block : Block}
    {remaining : List Block} (hwriter : s.writer = .writing data (block :: remaining)) :
    Orderly { createSharedMemoryBlock s block data.revision (data.content block) with
      writer := .writing data remaining } w p l := by
  have hunwritten := h.unwritten
  rw [hwriter] at hunwritten
  obtain ⟨hdata, -, -⟩ := drop_cons hunwritten
  have hrevision := h.numbered w data hdata
  refine { h with unwritten := hunwritten, complete := fun i data' hi hdata' block' => ?_, begun := ?_ }
  · have hne : (i : Int) + 1 ≠ data.revision := by omega
    simp only [RevisionHandshake.createSharedMemoryBlock]
    rw [← h.complete i data' hi hdata' block']
    by_cases hblock : block' = block
    · subst hblock
      rw [Function.update_self, Function.update_of_ne hne]
    · rw [Function.update_of_ne hblock]
  · rintro data' remaining' hwriting block' hnot
    obtain ⟨rfl, rfl⟩ := Writer.writing.inj hwriting
    simp only [RevisionHandshake.createSharedMemoryBlock]
    by_cases hblock : block' = block
    · subst hblock
      rw [Function.update_self, Function.update_self]
    · rw [Function.update_of_ne hblock]
      refine h.begun data _ hwriter block' ?_
      simp [hblock, hnot]

theorem Orderly.finishRevision (h : Orderly s w p l) {data : RevisionData} (hwriter : s.writer = .writing data []) :
    Orderly { s with base := HordeProcess.writeRevision s.base, writer := .looking } (w + 1) p l := by
  have hunwritten := h.unwritten
  rw [hwriter] at hunwritten
  obtain ⟨hdata, hrest, hlt⟩ := drop_cons hunwritten
  have htoWrite := h.toWrite
  rw [hunwritten, Writer.taken, List.singleton_append, List.map_cons] at htoWrite
  have hpassage := passage_writeRevision htoWrite
  refine { h with
    buffers := ?_
    written := ?_
    published := ?_
    lastImported := ?_
    phase := ?_
    published_le := h.published_le.trans (Nat.le_succ w)
    written_le := hlt
    unwritten := hrest
    toWrite := ?_
    complete := fun i data' hi hdata' block => ?_
    begun := fun data' remaining hwriting => by cases hwriting }
  · rw [tempClauseBuffers_writeRevision]
    exact h.buffers
  · rw [hpassage, h.numbered w data hdata]
    push_cast
    rfl
  · rw [hpassage]
    exact h.published
  · rw [hpassage]
    exact h.lastImported
  · rw [hpassage]
    exact h.phase
  · rw [hpassage, hrest]
    rfl
  · rcases Nat.lt_succ_iff_lt_or_eq.mp hi with hi | rfl
    · exact h.complete i data' hi hdata' block
    · obtain rfl : data = data' := Option.some.inj (hdata.symm.trans hdata')
      rw [← h.numbered i data hdata]
      exact h.begun data [] hwriter block List.not_mem_nil

theorem Orderly.write (h : Orderly s w p l) : ∃ w', Orderly (write s) w' p l := by
  rw [RevisionHandshake.write]
  split
  · exact ⟨w, h⟩
  · next hwriter =>
      have hunwritten := h.unwritten
      rw [hwriter] at hunwritten
      split
      · next hnil =>
          exact ⟨w, { h with unwritten := hunwritten, begun := fun data remaining hwriting => by cases hwriting }⟩
      · next data revisions hcons =>
          rw [hcons] at hunwritten
          refine ⟨w, { h with unwritten := hunwritten, begun := fun data' remaining hwriting block hnot => ?_ }⟩
          obtain ⟨-, rfl⟩ := Writer.writing.inj hwriting
          exact absurd (mem_blocks block) hnot
  · next data block remaining hwriter => exact ⟨w, h.createSharedMemoryBlock hwriter⟩
  · next data hwriter => exact ⟨w + 1, h.finishRevision hwriter⟩
  · next hwriter =>
      have hunwritten := h.unwritten
      rw [hwriter] at hunwritten
      exact ⟨w, { h with unwritten := hunwritten, begun := fun data remaining hwriting => by cases hwriting }⟩

theorem Orderly.of_passage (h : Orderly s w p l) {base : HordeProcess.State} {p' : Nat}
    (hbuffers : base.adapter.tempClauseBuffers = []) (htoWrite : (passage base).toWrite = (passage s.base).toWrite)
    (hwritten : (passage base).written = (passage s.base).written) (hpublished : (passage base).published = p')
    (hlast : (passage base).lastImported = (passage s.base).lastImported)
    (hphase : l + (if (passage base).doStart && !(passage base).didStart then 1 else 0) = p') (hp' : p' ≤ w) :
    Orderly { s with base := base } w p' l :=
  { h with
    buffers := hbuffers
    written := hwritten.trans h.written
    published := hpublished
    lastImported := hlast.trans h.lastImported
    phase := hphase
    published_le := hp'
    toWrite := htoWrite.trans h.toWrite }

/-- Only the flags change, and they stand for the same phase as before. -/
theorem Orderly.of_flags (h : Orderly s w p l) {base : HordeProcess.State} {doStart didStart : Bool}
    (hbuffers : base.adapter.tempClauseBuffers = [])
    (hpassage : passage base = { passage s.base with doStart := doStart, didStart := didStart })
    (hphase : l + (if doStart && !didStart then 1 else 0) = p) : Orderly { s with base := base } w p l := by
  refine h.of_passage hbuffers ?_ ?_ ?_ ?_ ?_ h.published_le
  · rw [hpassage]
  · rw [hpassage]
  · rw [hpassage]
    exact h.published
  · rw [hpassage]
  · rw [hpassage]
    exact hphase

theorem Orderly.check (h : Orderly s w p l) (locked : Bool) :
    ∃ s', check s locked = .ok s' ∧ (∃ p', Orderly s' w p' l) ∧ passage s'.base = (passage s.base).check ∧
      s'.given = s.given ∧ s'.revisionsToWrite = s.revisionsToWrite ∧
      s'.writer = (RevisionHandshake.doWriteRevisions s locked).writer := by
  have h₁ := h.doWriteRevisions locked
  obtain ⟨hbase, hgiven, hrevisions⟩ := doWriteRevisions_frame s locked
  obtain ⟨base, hok, hpassage, hbuffers⟩ := check_passage h₁.buffers
  refine ⟨{ RevisionHandshake.doWriteRevisions s locked with base := base }, ?_, ?_, ?_, hgiven, hrevisions, rfl⟩
  · rw [RevisionHandshake.check]
    simp only [hok]
  · have hphase := h₁.phase
    have hpublished := h₁.published_le
    rw [Passage.check] at hpassage
    split at hpassage
    · next hdid =>
        rw [hdid] at hphase
        exact ⟨p, h₁.of_flags hbuffers hpassage (by simpa [hdid] using hphase)⟩
    · split at hpassage
      · next hdid hpublish =>
          rw [Bool.and_eq_true, decide_eq_true_eq, h₁.published, h₁.written, Bool.not_eq_true'] at hpublish
          obtain ⟨hdo, hlt⟩ := hpublish
          refine ⟨p + 1, h₁.of_passage hbuffers ?_ ?_ ?_ ?_ ?_ (by omega)⟩
          · rw [hpassage]
          · rw [hpassage]
          · rw [hpassage]
            simp only [h₁.published]
            push_cast
            rfl
          · rw [hpassage]
          · rw [hdo] at hphase
            rw [hpassage]
            simp only [hdid, Bool.not_false, Bool.and_self, if_true]
            simpa using hphase
      · exact ⟨p, h₁.of_flags hbuffers hpassage hphase⟩
  · rw [hpassage, hbase]

theorem Orderly.importRevision (h : Orderly s w p l) {data : RevisionData} (hlt : l < w)
    (hdata : s.given[l]? = some data) (desiredRevision : Int) :
    importRevision s (l + 1) desiredRevision = .error .checksum ∨
    ∃ checksum, importRevision s (l + 1) desiredRevision = .ok { s with
      checksum := checksum
      appended := s.appended ++
        [⟨l + 1, data.fLits, data.aLits, (l + 1 : Int) == desiredRevision, s.base.adapter.writtenRevision⟩] } := by
  have hblocks := h.complete l data hlt hdata
  have hfSize : accessSize s .fsize (l + 1) = .ok data.fLits.length := by
    rw [accessSize, hblocks .fsize]
    rfl
  have haSize : accessSize s .asize (l + 1) = .ok data.aLits.length := by
    rw [accessSize, hblocks .asize]
    rfl
  have hfLits : accessLits s .formulae (l + 1) data.fLits.length = .ok data.fLits := by
    rw [accessLits, hblocks .formulae]
    exact congrArg Except.ok List.take_length
  have haLits : accessLits s .assumptions (l + 1) data.aLits.length = .ok data.aLits := by
    rw [accessLits, hblocks .assumptions]
    exact congrArg Except.ok List.take_length
  have hchecksum : accessChecksum s (l + 1) = .ok data.checksum := by
    rw [accessChecksum, hblocks .checksum]
    rfl
  have hupdate : updateChecksum s (l + 1) data.fLits = .error .checksum ∨
      ∃ checksum, updateChecksum s (l + 1) data.fLits = .ok checksum := by
    rw [updateChecksum]
    split
    · exact Or.inr ⟨none, rfl⟩
    · rw [hchecksum]
      simp only [bind, Except.bind]
      split
      · exact Or.inl rfl
      · exact Or.inr ⟨_, rfl⟩
  simp only [RevisionHandshake.importRevision, hfSize, haSize, hfLits, haLits, bind, Except.bind]
  rcases hupdate with hfault | ⟨checksum, hok⟩
  · left
    rw [hfault]
  · right
    rw [hok]
    exact ⟨checksum, rfl⟩

def SameParent (s s' : State) : Prop :=
  s'.given = s.given ∧ s'.revisionsToWrite = s.revisionsToWrite ∧ s'.writer = s.writer

theorem passage_iteration_started (x : Passage) (h : (x.doStart && !x.didStart) = true) :
    x.iteration = { x with didStart := true, lastImported := x.lastImported + 1 } := by
  rw [Bool.and_eq_true, Bool.not_eq_true'] at h
  rw [Passage.iteration, h.1, h.2]
  rfl

theorem passage_iteration_quiet (x : Passage) (h : ¬ (x.doStart && !x.didStart) = true) :
    x.iteration = { x with didStart := x.doStart } := by
  obtain ⟨doStart, didStart, toWrite, written, published, lastImported⟩ := x
  cases doStart <;> cases didStart <;> simp_all [Passage.iteration]

theorem Orderly.importRevisions (h : Orderly s w p l) :
    importRevisions s = .error .checksum ∨ ∃ s' l', importRevisions s = .ok s' ∧ Orderly s' w p l' ∧
      passage s'.base = (passage s.base).iteration ∧ SameParent s s' := by
  have hpassage := passage_importRevision s.base
  have hbuffers := (tempClauseBuffers_importRevision s.base).trans h.buffers
  have hphase := h.phase
  by_cases hstart : ((passage s.base).doStart && !(passage s.base).didStart) = true
  · rw [if_pos hstart] at hphase
    have hlt : l < w := by have hp := h.published_le; omega
    obtain ⟨data, hdata⟩ : ∃ data, s.given[l]? = some data :=
      ⟨_, List.getElem?_eq_getElem (hlt.trans_le h.written_le)⟩
    have hlast : s.base.process.lastImportedRevision = l := h.lastImported
    have hread := h.importRevision hlt hdata s.base.hsm.desiredRevision
    rw [← hlast] at hread
    have hcond : (s.base.hsm.doStartNextRevision && !s.base.hsm.didStartNextRevision) = true := hstart
    rw [RevisionHandshake.importRevisions, if_pos hcond]
    rw [passage_iteration_started _ hstart] at hpassage
    rcases hread with hfault | ⟨checksum, hok⟩
    · left
      rw [hfault]
      rfl
    · right
      rw [hok]
      refine ⟨_, l + 1, rfl, ?_, ?_, rfl, rfl, rfl⟩
      · refine { h with
          buffers := hbuffers
          written := ?_
          published := ?_
          lastImported := ?_
          phase := ?_
          toWrite := ?_
          appended := ?_
          backed := ?_ }
        · rw [hpassage]
          exact h.written
        · rw [hpassage]
          exact h.published
        · rw [hpassage]
          simp only [h.lastImported]
          push_cast
          rfl
        · rw [hpassage]
          simpa using hphase
        · rw [hpassage]
          exact h.toWrite
        · rw [List.map_append, h.appended, List.take_add_one, hdata, List.map_append]
          simp [Appended.lits, RevisionData.lits, hlast, h.numbered l data hdata]
        · intro a ha
          rcases List.mem_append.mp ha with ha | ha
          · exact h.backed a ha
          · have hwritten : s.base.adapter.writtenRevision = w := h.written
            rw [List.mem_singleton.mp ha]
            simp only [hlast, hwritten]
            omega
      · rw [passage_iteration_started _ hstart]
        exact hpassage
  · right
    have hcond : ¬ (s.base.hsm.doStartNextRevision && !s.base.hsm.didStartNextRevision) = true := hstart
    rw [if_neg hstart] at hphase
    rw [RevisionHandshake.importRevisions, if_neg hcond]
    refine ⟨_, l, rfl, ?_, hpassage, rfl, rfl, rfl⟩
    rw [passage_iteration_quiet _ hstart] at hpassage
    exact h.of_flags hbuffers hpassage (by simpa using hphase)

/-- The child gets behind its import of revisions with the desired one. -/
theorem Orderly.proceed (h : Orderly s w p l) (hready : ¬ awaitsRevision s.base = true) :
    Orderly (proceed s) w p l ∧ passage (RevisionHandshake.proceed s).base = (passage s.base).iteration ∧
      SameParent s (RevisionHandshake.proceed s) := by
  rw [awaitsRevision, Bool.or_eq_true, not_or, decide_eq_true_eq] at hready
  obtain ⟨hquiet, hdesired⟩ := hready
  have hquiet' : ¬ ((passage s.base).doStart && !(passage s.base).didStart) = true := hquiet
  obtain ⟨himport, himportBuffers⟩ := importClauses_frame (resetStart s.base)
  obtain ⟨hreinsert, hreinsertBuffers⟩ := reinsertClauses_frame (HordeProcess.importClauses (resetStart s.base))
  have hpassage : passage (RevisionHandshake.proceed s).base = (passage s.base).iteration := by
    rw [RevisionHandshake.proceed, hreinsert, himport, passage_resetStart hquiet']
  refine ⟨?_, hpassage, rfl, rfl, rfl⟩
  rw [passage_iteration_quiet _ hquiet'] at hpassage
  have hphase := h.phase
  rw [if_neg hquiet'] at hphase
  refine { h with
    buffers := ?_
    written := ?_
    published := ?_
    lastImported := ?_
    phase := ?_
    toWrite := ?_
    returned := ?_ }
  · rw [RevisionHandshake.proceed, hreinsertBuffers, himportBuffers, tempClauseBuffers_resetStart]
    exact h.buffers
  · rw [hpassage]
    exact h.written
  · rw [hpassage]
    exact h.published
  · rw [hpassage]
    exact h.lastImported
  · rw [hpassage]
    simpa using hphase
  · rw [hpassage]
    exact h.toWrite
  · intro r hr
    rcases List.mem_append.mp hr with hr | hr
    · exact h.returned r hr
    · rw [List.mem_singleton.mp hr]
      exact not_lt.mp hdesired

theorem passage_iteration_twice (x : Passage) (h : ¬ (x.iteration.doStart && !x.iteration.didStart) = true) :
    x.iteration.iteration = x.iteration := by
  obtain ⟨doStart, didStart, toWrite, written, published, lastImported⟩ := x
  cases doStart <;> cases didStart <;> simp_all [Passage.iteration]

theorem Orderly.iteration (h : Orderly s w p l) :
    iteration s = .error .checksum ∨ ∃ s' l', iteration s = .ok s' ∧ Orderly s' w p l' ∧
      passage s'.base = (passage s.base).iteration ∧ SameParent s s' := by
  rw [RevisionHandshake.iteration]
  by_cases hwait : awaitsRevision s.base = true
  · rw [if_pos hwait]
    rcases h.importRevisions with hfault | ⟨s₁, l₁, hok, h₁, hpassage₁, hparent₁⟩
    · left
      rw [hfault]
      rfl
    · right
      rw [hok]
      by_cases hwait₁ : awaitsRevision s₁.base = true
      · exact ⟨s₁, l₁, congrArg Except.ok (if_pos hwait₁), h₁, hpassage₁, hparent₁⟩
      · obtain ⟨h₂, hpassage₂, hparent₂⟩ := h₁.proceed hwait₁
        refine ⟨RevisionHandshake.proceed s₁, l₁, congrArg Except.ok (if_neg hwait₁), h₂, ?_, ?_⟩
        · have hquiet : ¬ ((passage s₁.base).doStart && !(passage s₁.base).didStart) = true := by
            rw [awaitsRevision, Bool.or_eq_true, not_or] at hwait₁
            exact hwait₁.1
          rw [hpassage₁] at hquiet
          rw [hpassage₂, hpassage₁, passage_iteration_twice _ hquiet]
        · exact ⟨hparent₂.1.trans hparent₁.1, hparent₂.2.1.trans hparent₁.2.1, hparent₂.2.2.trans hparent₁.2.2⟩
  · right
    rw [if_neg hwait]
    obtain ⟨h₂, hpassage₂, hparent₂⟩ := h.proceed hwait
    exact ⟨RevisionHandshake.proceed s, l, congrArg Except.ok (if_neg hwait), h₂, hpassage₂, hparent₂⟩

theorem Orderly.step (h : Orderly s w p l) {call : Call} (hpermitted : Permitted s call) :
    step s call = .error .checksum ∨ ∃ s' w' p' l', step s call = .ok s' ∧ Orderly s' w' p' l' := by
  cases call with
  | appendRevisions revisions desiredRevision locked =>
      exact Or.inr ⟨_, w, p, l, rfl, h.appendRevisions hpermitted desiredRevision locked⟩
  | write =>
      obtain ⟨w', h'⟩ := h.write
      exact Or.inr ⟨_, w', p, l, rfl, h'⟩
  | check locked =>
      obtain ⟨s', hok, ⟨p', h'⟩, -⟩ := h.check locked
      exact Or.inr ⟨s', w, p', l, hok, h'⟩
  | iteration =>
      rcases h.iteration with hfault | ⟨s', l', hok, h', -⟩
      · exact Or.inl hfault
      · exact Or.inr ⟨s', w, p, l', hok, h'⟩

end Steps

def turn : List Call := [.write, .check false, .iteration]

def turns (n : Nat) : List Call := (List.replicate n turn).flatten

def Writer.cost (count : Nat) : Writer → Nat
  | .idle => if count = 0 then 0 else 7 * count + 1
  | .looking => 7 * count
  | .writing _ remaining => 7 * count + remaining.length + 1
  | .ending => if count = 0 then 0 else 7 * count + 2

def Passage.cost (x : Passage) : Nat := if x.didStart then 1 else if x.doStart then 2 else 0

def cost (s : State) : Nat :=
  s.writer.cost s.revisionsToWrite.length + (3 * (s.given.length - (passage s.base).published.toNat) +
    (passage s.base).cost)

section Progress

variable {s s' : State} {w p l : Nat}

theorem write_frame (s : State) : (write s).given = s.given ∧
    (passage (write s).base).published = (passage s.base).published ∧
    (passage (write s).base).cost = (passage s.base).cost := by
  rw [write]
  split
  · exact ⟨rfl, rfl, rfl⟩
  · split
    · exact ⟨rfl, rfl, rfl⟩
    · exact ⟨rfl, rfl, rfl⟩
  · exact ⟨rfl, rfl, rfl⟩
  · have hbase : (passage (HordeProcess.writeRevision s.base)).published = (passage s.base).published ∧
        (passage (HordeProcess.writeRevision s.base)).cost = (passage s.base).cost := by
      rw [HordeProcess.writeRevision]
      split
      · exact ⟨rfl, rfl⟩
      · exact ⟨rfl, rfl⟩
    exact ⟨rfl, hbase⟩
  · exact ⟨rfl, rfl, rfl⟩

theorem writer_cost (s : State) :
    (doWriteRevisions (write s) false).writer.cost (write s).revisionsToWrite.length <
        s.writer.cost s.revisionsToWrite.length ∨
      (doWriteRevisions (write s) false).writer.cost (write s).revisionsToWrite.length = 0 := by
  cases hwriter : s.writer with
  | idle =>
      simp only [write, hwriter, doWriteRevisions, Writer.cost, Bool.false_eq_true, if_false]
      split <;> omega
  | looking =>
      cases hqueue : s.revisionsToWrite with
      | nil => simp [write, hwriter, hqueue, doWriteRevisions, Writer.cost]
      | cons data revisions =>
          left
          simp only [write, hwriter, hqueue, doWriteRevisions, Writer.cost, Bool.false_eq_true, if_false, blocks,
            List.length_cons, List.length_nil]
          omega
  | writing data remaining =>
      left
      cases remaining with
      | nil => simp [write, hwriter, doWriteRevisions, Writer.cost]
      | cons block remaining =>
          simp [write, hwriter, doWriteRevisions, Writer.cost, createSharedMemoryBlock]
  | ending =>
      simp only [write, hwriter, doWriteRevisions, Writer.cost, Bool.false_eq_true, if_false]
      split <;> omega

theorem Orderly.written_all (h : Orderly s w p l) (hcost : s.writer.cost s.revisionsToWrite.length = 0) :
    w = s.given.length := by
  have hunwritten := congrArg List.length h.unwritten
  have hempty : (s.writer.taken ++ s.revisionsToWrite).length = 0 := by
    cases hwriter : s.writer with
    | idle | ending =>
        rw [hwriter, Writer.cost] at hcost
        split at hcost
        · next hcount => simpa [Writer.taken] using hcount
        · omega
    | looking =>
        rw [hwriter, Writer.cost] at hcost
        simpa [Writer.taken] using hcost
    | writing data remaining =>
        rw [hwriter, Writer.cost] at hcost
        omega
  rw [hempty, List.length_drop] at hunwritten
  have hw := h.written_le
  omega

theorem passage_turn_cost {x : Passage} {w p total : Nat} (hwritten : x.written = w) (hpublished : x.published = p)
    (hp : p ≤ w) (hw : w ≤ total) :
    3 * (total - x.check.iteration.published.toNat) + x.check.iteration.cost <
        3 * (total - x.published.toNat) + x.cost ∨
      (p = w ∧ 3 * (total - x.check.iteration.published.toNat) + x.check.iteration.cost =
        3 * (total - x.published.toNat) + x.cost ∧ x.cost = 0) := by
  obtain ⟨doStart, didStart, toWrite, written, published, lastImported⟩ := x
  obtain rfl : written = w := hwritten
  obtain rfl : published = p := hpublished
  cases didStart with
  | true =>
      left
      simp [Passage.check, Passage.iteration, Passage.cost]
  | false =>
      cases doStart with
      | true =>
          left
          simp [Passage.check, Passage.iteration, Passage.cost]
      | false =>
          rcases Nat.lt_or_ge p w with hlt | hge
          · left
            have hcast : ((p : Int) + 1).toNat = p + 1 := by omega
            simp [Passage.check, Passage.iteration, Passage.cost, hlt, hcast]
            omega
          · right
            have hnot : ¬ p < w := by omega
            refine ⟨by omega, ?_⟩
            simp [Passage.check, Passage.iteration, Passage.cost, hnot]

theorem run_turn (s : State) : run step s turn =
    match check (write s) false with
    | .ok s₁ => iteration s₁
    | .error fault => .error fault := by
  have hcons : turn = [Call.write] ++ ([Call.check false] ++ [Call.iteration]) := rfl
  rw [hcons, run_append, run_singleton, RevisionHandshake.step]
  simp only [Except.bind, run_append, run_singleton, RevisionHandshake.step]
  cases check (write s) false with
  | error fault => rfl
  | ok s₁ => rfl

theorem Orderly.turn (h : Orderly s w p l) :
    run RevisionHandshake.step s RevisionHandshake.turn = .error .checksum ∨
    ∃ s' w' p' l', run RevisionHandshake.step s RevisionHandshake.turn = .ok s' ∧ Orderly s' w' p' l' ∧ s'.given = s.given ∧
      (cost s' < cost s ∨ cost s' = 0) := by
  obtain ⟨w₁, h₁⟩ := h.write
  obtain ⟨hgiven₁, hpublished₁, hcost₁⟩ := write_frame s
  obtain ⟨s₂, hcheck, ⟨p₂, h₂⟩, hpassage₂, hgiven₂, hqueue₂, hwriter₂⟩ := h₁.check false
  rw [run_turn, hcheck]
  rcases h₂.iteration with hfault | ⟨s₃, l₃, hok, h₃, hpassage₃, hgiven₃, hqueue₃, hwriter₃⟩
  · exact Or.inl hfault
  · right
    refine ⟨s₃, w₁, p₂, l₃, hok, h₃, (hgiven₃.trans hgiven₂).trans hgiven₁, ?_⟩
    have hwrite := writer_cost s
    have hwritten := fun hzero => h₃.written_all hzero
    rw [hwriter₃, hwriter₂, hqueue₃, hqueue₂, hgiven₃, hgiven₂] at hwritten
    have hpass := passage_turn_cost h₁.written h₁.published h₁.published_le h₁.written_le
    have hp := h₁.published
    simp only [cost, hwriter₃, hwriter₂, hqueue₃, hqueue₂, hgiven₃, hgiven₂, hgiven₁, hpassage₃, hpassage₂]
    rw [hgiven₁] at hpass hwritten
    rw [← hpublished₁, ← hcost₁]
    rcases hpass with hpass | ⟨hpw, hsame, hquiet⟩
    · left
      rcases hwrite with hwrite | hwrite
      · omega
      · omega
    · rcases hwrite with hwrite | hwrite
      · left
        omega
      · right
        have hall := hwritten hwrite
        rw [hwrite, hsame, hquiet, hp]
        omega

theorem Orderly.imported_all (h : Orderly s w p l) (hcost : cost s = 0) : l = s.given.length := by
  rw [cost, Passage.cost] at hcost
  have hw := h.written_all (by omega)
  have hp := h.published
  have hphase := h.phase
  have hle := h.published_le
  have hquiet : (passage s.base).doStart = false := by
    split at hcost
    · omega
    · split at hcost
      · omega
      · next hdo => exact Bool.eq_false_iff.mpr hdo
  rw [hquiet, Bool.false_and, if_neg Bool.false_ne_true] at hphase
  rw [hp] at hcost
  omega

theorem turns_succ (n : Nat) : turns (n + 1) = RevisionHandshake.turn ++ turns n := by
  rw [turns, List.replicate_succ, List.flatten_cons, turns]

theorem Orderly.deliver (h : Orderly s w p l) : ∃ n, run RevisionHandshake.step s (turns n) = .error .checksum ∨
    ∃ s', run RevisionHandshake.step s (turns n) = .ok s' ∧ s'.appended.map Appended.lits = s.given.map RevisionData.lits := by
  obtain ⟨bound, hbound⟩ : ∃ bound, cost s ≤ bound := ⟨_, le_rfl⟩
  induction bound generalizing s w p l with
  | zero =>
      refine ⟨0, Or.inr ⟨s, rfl, ?_⟩⟩
      rw [h.appended, h.imported_all (Nat.le_zero.mp hbound), List.take_length]
  | succ bound ih =>
      rcases h.turn with hfault | ⟨s', w', p', l', hok, h', hgiven, hless⟩
      · refine ⟨1, Or.inl ?_⟩
        rw [turns_succ, run_append, hfault]
        rfl
      · obtain ⟨n, hn⟩ := ih h' (by omega)
        refine ⟨n + 1, ?_⟩
        rw [turns_succ, run_append, hok, ← hgiven]
        exact hn

end Progress

theorem orderly_of_reaches {importBufferMaxSize : Nat} {firstrev : Int} {checksum : Option Checksum} {calls : List Call}
    {s : State} (h : Reaches step Permitted (doInitialize importBufferMaxSize firstrev checksum) calls s) :
    ∃ w p l, Orderly s w p l := by
  refine h.invariant (P := fun s => ∃ w p l, Orderly s w p l)
    ⟨0, 0, 0, orderly_start importBufferMaxSize firstrev checksum⟩ ?_
  rintro s₁ call s₂ ⟨w, p, l, h₁⟩ hpermitted hok
  rcases h₁.step hpermitted with hfault | ⟨s', w', p', l', hok', h'⟩
  · rw [hfault] at hok
    cases hok
  · obtain rfl := Except.ok.inj (hok'.symm.trans hok)
    exact ⟨w', p', l', h'⟩

/-- The child appends the given revisions in their order, each one once and only when its blocks are
complete. It is at most one behind the published revision, it gets behind its import with the desired
revision, and further turns bring the rest unless a checksum fails. -/
theorem revisions_imported_in_order {importBufferMaxSize : Nat} {firstrev : Int} {checksum : Option Checksum}
    {calls : List Call} {s : State}
    (h : Reaches step Permitted (doInitialize importBufferMaxSize firstrev checksum) calls s) :
    (∃ l : Nat, s.base.process.lastImportedRevision = l ∧ l ≤ s.given.length ∧
      s.appended.map Appended.revision = (List.range' 1 l).map Nat.cast ∧
      s.appended.map Appended.lits = (s.given.take l).map RevisionData.lits) ∧
    (∀ a ∈ s.appended, a.revision ≤ a.writtenRevision) ∧
    (∀ data ∈ s.given, data.revision ≤ s.base.adapter.writtenRevision →
      ∀ block, s.shmem block data.revision = some (data.content block)) ∧
    (∀ call, Permitted s call → step s call ≠ .error .accessMemory) ∧
    (s.base.process.lastImportedRevision = s.base.adapter.publishedRevision ∨
      s.base.process.lastImportedRevision = s.base.adapter.publishedRevision - 1) ∧
    (∀ r ∈ s.returned, r.2 ≤ r.1) ∧
    ∃ n, run step s (turns n) = .error .checksum ∨
      ∃ s', run step s (turns n) = .ok s' ∧ s'.appended.map Appended.lits = s.given.map RevisionData.lits := by
  obtain ⟨w, p, l, horderly⟩ := orderly_of_reaches h
  have hphase := horderly.phase
  have hlast : s.base.process.lastImportedRevision = l := horderly.lastImported
  have hpublished : s.base.adapter.publishedRevision = p := horderly.published
  have hwritten : s.base.adapter.writtenRevision = w := horderly.written
  have hle : l ≤ s.given.length := by
    have hp := horderly.published_le
    have hw := horderly.written_le
    omega
  refine ⟨⟨l, hlast, hle, ?_, horderly.appended⟩, horderly.backed, ?_, ?_, ?_, horderly.returned, horderly.deliver⟩
  · have hrevisions : s.appended.map Appended.revision = (s.given.take l).map RevisionData.revision := by
      have happended := congrArg (List.map Prod.fst) horderly.appended
      rw [List.map_map, List.map_map] at happended
      exact happended
    rw [hrevisions]
    refine List.ext_getElem (by simp [hle]) ?_
    intro i hi hi'
    rw [List.getElem_map, List.getElem_take, List.getElem_map, List.getElem_range']
    rw [horderly.numbered i _ (List.getElem?_eq_getElem _)]
    push_cast
    omega
  · intro data hdata hrevision
    obtain ⟨i, hi, rfl⟩ := List.getElem_of_mem hdata
    have hnumber := horderly.numbered i _ (List.getElem?_eq_getElem hi)
    rw [hnumber]
    exact horderly.complete i _ (by omega) (List.getElem?_eq_getElem hi)
  · intro call hpermitted hfault
    rcases horderly.step hpermitted with hchecksum | ⟨s', w', p', l', hok, -⟩
    · rw [hchecksum] at hfault
      cases hfault
    · rw [hok] at hfault
      cases hfault
  · rw [hlast, hpublished]
    split at hphase
    · right
      omega
    · left
      omega

def permits (s : State) : Call → Bool
  | .appendRevisions revisions _ _ =>
      revisions.map RevisionData.revision = (List.range' (s.given.length + 1) revisions.length).map Nat.cast
  | _ => true

theorem permitted_of_permits (s : State) (call : Call) (h : permits s call = true) : Permitted s call := by
  cases call with
  | appendRevisions revisions desiredRevision locked =>
      rw [permits, decide_eq_true_eq] at h
      exact h
  | write | check | iteration => trivial

def twoRevisions : List Call :=
  [.appendRevisions [⟨1, {}, [3, 0], []⟩, ⟨2, {}, [4, 0], [5]⟩] 2 false] ++ List.replicate 9 .write ++
    [.check false, .iteration, .write]

theorem revisions_imported_in_order_two_revisions : ∃ s,
    Reaches step Permitted (doInitialize 5 0 (some {})) twoRevisions s ∧
    s.appended.map Appended.revision = [1] ∧ s.appended.map Appended.lits = [(1, [3, 0], [])] ∧
    (s.base.process.lastImportedRevision = s.base.adapter.publishedRevision ∨
      s.base.process.lastImportedRevision = s.base.adapter.publishedRevision - 1) := by
  have hrun : (twoRevisions.foldlM (checked permits step) (doInitialize 5 0 (some {}))).map
      (fun s => (s.appended.map Appended.revision, s.appended.map Appended.lits)) = some ([1], [(1, [3, 0], [])]) := by
    decide +kernel
  obtain ⟨s, hs, happended⟩ := Option.map_eq_some_iff.mp hrun
  have hreaches := Reaches.of_checked permitted_of_permits hs
  obtain ⟨hrevisions, hlits⟩ := Prod.mk.inj happended
  exact ⟨s, hreaches, hrevisions, hlits, (revisions_imported_in_order hreaches).2.2.2.2.1⟩

end Mallob.RevisionHandshake
