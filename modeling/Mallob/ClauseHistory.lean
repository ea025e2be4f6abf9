import Mallob.MergedBuffers
import Mallob.MissingRanges
import Mallob.Runs

namespace Mallob.Sharing

open MissingRanges

/-- The batches in short term memory, the sizes of a batch in either memory, and the setting of the clause
database that provides the merger. -/
structure HistoryOptions where
  numStmSlots : Nat
  stmBufferSize : Nat
  ltmBufferSize : Nat
  maxLbdPartitionedSize : Nat

structure Subscription where
  correspondingRank : Nat
  nextIndex : Int
  endIndex : Int
deriving DecidableEq

namespace ClauseHistory

structure Entry (factor : Nat) where
  clauses : List (List Int) := []
  aggregated : Finset (Fin factor) := ∅
deriving DecidableEq

def Entry.numAggregated {factor : Nat} (entry : Entry factor) : Nat := entry.aggregated.card

end ClauseHistory

open ClauseHistory (Entry)

/-- The aggregation factor is the number of epochs in a batch. Without a corresponding rank there is no
subscription. -/
structure ClauseHistory (factor : Nat) where
  history : List (Entry factor) := []
  missingEpochRanges : List Range := []
  latestEpoch : Int := -1
  subscription : Option Subscription := none
deriving DecidableEq

namespace ClauseHistory

variable {factor : Nat}

def epochToIndex (factor : Nat) (epoch : Int) : Int := epoch.tdiv factor

def entry (h : ClauseHistory factor) (index : Nat) : Entry factor := h.history.getD index {}

def isShorttermMemory (options : HistoryOptions) (h : ClauseHistory factor) (index : Nat) : Bool :=
  epochToIndex factor h.latestEpoch - index ≤ options.numStmSlots

def isBatchComplete (h : ClauseHistory factor) (index : Nat) : Bool :=
  index < h.history.length && (h.entry index).numAggregated = factor

/-- The first range of the list. Where there is none, what is read behind the end of the list is arbitrary. -/
def firstRange (h : ClauseHistory factor) (pastEnd : Int × Int) : Int × Int :=
  match h.missingEpochRanges with
  | [] => pastEnd
  | r :: _ => (r.1, r.2)

def subscribe (h : ClauseHistory factor) (parentRank : Nat) (pastEnd : Int × Int) : Subscription where
  correspondingRank := parentRank
  nextIndex := epochToIndex factor (h.firstRange pastEnd).1
  endIndex := epochToIndex factor (h.firstRange pastEnd).2

def merge (options : HistoryOptions) (buffers : List (List Int)) (sizeLimit : Nat) : Except MergeFault (List Int) :=
  (mergeBuffers options.maxLbdPartitionedSize false (buffers.map (·, false)) sizeLimit false).map Prod.fst

def mergeIfComplete (options : HistoryOptions) (sizeLimit : Nat) (entry : Entry factor) :
    Except MergeFault (Entry factor) :=
  if entry.numAggregated = factor then
    (merge options entry.clauses sizeLimit).map fun merged => { entry with clauses := [merged] }
  else .ok entry

def extended (h : ClauseHistory factor) (index : Nat) : List (Entry factor) :=
  h.history ++ List.replicate (index + 1 - h.history.length) ({} : Entry factor)

def setEntry (h : ClauseHistory factor) (index : Nat) (entry : Entry factor) : ClauseHistory factor :=
  { h with history := (h.extended index).set index entry }

variable [NeZero factor]

def isEpochPresent (h : ClauseHistory factor) (epoch : Nat) : Bool :=
  epoch / factor < h.history.length && Fin.ofNat factor epoch ∈ (h.entry (epoch / factor)).aggregated

def alreadyPresent (h : ClauseHistory factor) (epoch : Nat) (entireIndex : Bool) : Bool :=
  if entireIndex then h.isBatchComplete (epoch / factor) else h.isEpochPresent epoch

def insertClauses (options : HistoryOptions) (h : ClauseHistory factor) (epoch : Nat) (clauses : List Int)
    (entireIndex : Bool) : Except MergeFault (ClauseHistory factor) :=
  let index := epoch / factor
  if h.alreadyPresent epoch entireIndex then .ok h
  else
    let sizeLimit := if h.isShorttermMemory options index
      then options.stmBufferSize / (if entireIndex then 1 else factor) else options.ltmBufferSize
    let entry : Entry factor := {
      clauses := (h.entry index).clauses ++ [clauses.take sizeLimit]
      aggregated := if entireIndex then Finset.univ else insert (Fin.ofNat factor epoch) (h.entry index).aggregated }
    let mergeLimit := if h.isShorttermMemory options index then options.stmBufferSize else options.ltmBufferSize
    (mergeIfComplete options mergeLimit entry).map (h.setEntry index)

def updateRanges (h : ClauseHistory factor) (epoch : Nat) : ClauseHistory factor :=
  let ranges := shrinkAll h.isEpochPresent h.missingEpochRanges
  { h with missingEpochRanges :=
      if h.latestEpoch + 1 < epoch then addGap (h.latestEpoch + 1).toNat (epoch + 1) ranges else ranges }

omit [NeZero factor] in
def updateSubscription (h : ClauseHistory factor) (index : Nat) (parentRank : Nat) (pastEnd : Int × Int) :
    Option Subscription × List Subscription :=
  let (subscription, sent) :=
    match h.subscription with
    | none => (none, [])
    | some s =>
        if s.nextIndex ≠ index then
          (some (h.subscribe parentRank pastEnd), [h.subscribe parentRank pastEnd])
        else if s.endIndex ≤ s.nextIndex + 1 then (none, [])
        else (some { s with nextIndex := s.nextIndex + 1 }, [])
  if subscription.isNone && !h.missingEpochRanges.isEmpty then
    (some (h.subscribe parentRank pastEnd), sent ++ [h.subscribe parentRank pastEnd])
  else (subscription, sent)

/-- A batch that leaves the short term memory is cut to the size of the long term memory. -/
def updateLatestEpoch (options : HistoryOptions) (h : ClauseHistory factor) (epoch : Nat) : ClauseHistory factor :=
  let latestEpoch := max h.latestEpoch epoch
  let oldIndex := epochToIndex factor h.latestEpoch
  let newIndex := epochToIndex factor latestEpoch
  let indexToReduce := (newIndex - options.numStmSlots).toNat
  let h := { h with latestEpoch := latestEpoch }
  if oldIndex < newIndex ∧ options.numStmSlots ≤ newIndex ∧ h.isBatchComplete indexToReduce ∧
      options.ltmBufferSize < ((h.entry indexToReduce).clauses.headD []).length then
    h.setEntry indexToReduce { h.entry indexToReduce with
      clauses := (h.entry indexToReduce).clauses.modifyHead (·.take options.ltmBufferSize) }
  else h

/-- A single epoch or a whole batch that arrives, with the parent at this time and what would be read behind
the end of the list of ranges. -/
structure Arrival where
  epoch : Nat
  clauses : List Int
  entireIndex : Bool
  parentRank : Nat
  pastEnd : Int × Int

def Arrival.Proper (factor : Nat) (a : Arrival) : Prop := a.entireIndex = true → factor ∣ a.epoch

def receive (options : HistoryOptions) (h : ClauseHistory factor) (a : Arrival) :
    Except MergeFault (ClauseHistory factor) :=
  (h.insertClauses options a.epoch a.clauses a.entireIndex).map fun h => h.updateRanges a.epoch

def addEpoch (options : HistoryOptions) (h : ClauseHistory factor) (a : Arrival) :
    Except MergeFault (ClauseHistory factor) :=
  (h.receive options a).map fun h =>
    let (subscription, _) := h.updateSubscription (a.epoch / factor) a.parentRank a.pastEnd
    { h with subscription := subscription }.updateLatestEpoch options a.epoch

omit [NeZero factor] in
def onSuspend (h : ClauseHistory factor) : ClauseHistory factor := { h with subscription := none }

section Entries

omit [NeZero factor]

variable {h : ClauseHistory factor} {index : Nat} {entry : Entry factor}

@[simp] theorem numAggregated_empty : ({} : Entry factor).numAggregated = 0 := rfl

theorem entry_eq_empty (hlength : h.history.length ≤ index) : h.entry index = {} := by
  simp [ClauseHistory.entry, List.getD_eq_getElem?_getD, hlength]

theorem length_extended : (h.extended index).length = max h.history.length (index + 1) := by
  rw [extended, List.length_append, List.length_replicate]
  omega

theorem getD_extended (i : Nat) : (h.extended index).getD i {} = h.entry i := by
  by_cases hi : i < h.history.length
  · simp [extended, ClauseHistory.entry, List.getD_eq_getElem?_getD, List.getElem?_append_left hi]
  · rw [entry_eq_empty (not_lt.mp hi), extended, List.getD_eq_getElem?_getD,
      List.getElem?_append_right (not_lt.mp hi), List.getElem?_replicate]
    split <;> rfl

theorem entry_setEntry (i : Nat) : (h.setEntry index entry).entry i = if i = index then entry else h.entry i := by
  have hset : (h.setEntry index entry).entry i = ((h.extended index).set index entry).getD i {} := rfl
  rw [hset, List.getD_eq_getElem?_getD]
  split
  · next heq =>
      have hlt : index < (h.extended index).length := by
        rw [length_extended]
        omega
      rw [heq, List.getElem?_set_self hlt]
      rfl
  · next hne =>
      rw [List.getElem?_set_ne (Ne.symm hne), ← List.getD_eq_getElem?_getD]
      exact getD_extended i

end Entries

theorem isBatchComplete_iff_numAggregated {h : ClauseHistory factor} {index : Nat} :
    h.isBatchComplete index = true ↔ (h.entry index).numAggregated = factor := by
  rw [isBatchComplete, Bool.and_eq_true, decide_eq_true_eq, decide_eq_true_eq]
  refine and_iff_right_of_imp fun hcard => ?_
  by_contra hlength
  rw [entry_eq_empty (not_lt.mp hlength)] at hcard
  exact NeZero.ne factor hcard.symm

theorem isBatchComplete_iff {h : ClauseHistory factor} {index : Nat} :
    h.isBatchComplete index = true ↔ (h.entry index).aggregated = Finset.univ := by
  rw [isBatchComplete_iff_numAggregated, ← Finset.card_eq_iff_eq_univ, Fintype.card_fin]
  rfl

theorem isEpochPresent_iff {h : ClauseHistory factor} {epoch : Nat} :
    h.isEpochPresent epoch = true ↔ Fin.ofNat factor epoch ∈ (h.entry (epoch / factor)).aggregated := by
  rw [isEpochPresent, Bool.and_eq_true, decide_eq_true_eq, decide_eq_true_eq]
  refine and_iff_right_of_imp fun hmem => ?_
  by_contra hlength
  rw [entry_eq_empty (not_lt.mp hlength)] at hmem
  exact absurd hmem (Finset.notMem_empty _)

theorem isEpochPresent_of_complete {h : ClauseHistory factor} {epoch : Nat}
    (hcomplete : h.isBatchComplete (epoch / factor) = true) : h.isEpochPresent epoch = true := by
  rw [isEpochPresent_iff, isBatchComplete_iff.mp hcomplete]
  exact Finset.mem_univ _

theorem numAggregated_eq_card (h : ClauseHistory factor) (index : Nat) : (h.entry index).numAggregated =
    ((Finset.range factor).filter fun offset => h.isEpochPresent (factor * index + offset) = true).card := by
  rw [Entry.numAggregated, ← Finset.card_map Fin.valEmbedding]
  congr 1
  ext offset
  simp only [Finset.mem_map, Fin.valEmbedding_apply, Finset.mem_filter, Finset.mem_range, isEpochPresent_iff]
  have hpositive : 0 < factor := Nat.pos_of_ne_zero (NeZero.ne factor)
  constructor
  · rintro ⟨x, hx, rfl⟩
    have hindex : (factor * index + x) / factor = index := by
      rw [Nat.mul_add_div hpositive, Nat.div_eq_of_lt x.isLt, add_zero]
    have hoffset : Fin.ofNat factor (factor * index + x) = x := by
      apply Fin.ext
      simp [Fin.ofNat, Nat.mod_eq_of_lt x.isLt]
    rw [hindex, hoffset]
    exact ⟨x.isLt, hx⟩
  · rintro ⟨hlt, hmem⟩
    rw [Nat.mul_add_div hpositive, Nat.div_eq_of_lt hlt, add_zero] at hmem
    refine ⟨_, hmem, ?_⟩
    simp [Fin.ofNat, Nat.mod_eq_of_lt hlt]

def Arrival.Brings (factor : Nat) (a : Arrival) (epoch : Nat) : Prop :=
  if a.entireIndex then epoch / factor = a.epoch / factor else epoch = a.epoch

omit [NeZero factor] in
theorem brings_epoch (a : Arrival) : a.Brings factor a.epoch := by
  rw [Arrival.Brings]
  split <;> rfl

def Entry.WellFormed (entry : Entry factor) : Prop :=
  entry.clauses.length = if entry.numAggregated = factor then 1 else entry.numAggregated

omit [NeZero factor] in
theorem mergeIfComplete_spec {options : HistoryOptions} {sizeLimit : Nat} {entry entry' : Entry factor}
    (hok : mergeIfComplete options sizeLimit entry = .ok entry') : entry'.aggregated = entry.aggregated ∧
      entry'.clauses.length = if entry.numAggregated = factor then 1 else entry.clauses.length := by
  rw [mergeIfComplete] at hok
  split at hok
  · next hcomplete =>
      obtain ⟨merged, -, rfl⟩ := Runs.exists_of_map_eq_ok hok
      simp [hcomplete]
  · next hincomplete =>
      obtain rfl := Except.ok.inj hok
      simp [hincomplete]

def Arrival.aggregated (a : Arrival) (entry : Entry factor) : Finset (Fin factor) :=
  if a.entireIndex then Finset.univ else insert (Fin.ofNat factor a.epoch) entry.aggregated

section Insertion

variable {options : HistoryOptions} {h h' : ClauseHistory factor} {a : Arrival}

theorem insertClauses_cases (hok : h.insertClauses options a.epoch a.clauses a.entireIndex = .ok h') :
    (h.alreadyPresent a.epoch a.entireIndex = true ∧ h' = h) ∨
    (h.alreadyPresent a.epoch a.entireIndex = false ∧ ∃ entry : Entry factor,
      entry.aggregated = a.aggregated (h.entry (a.epoch / factor)) ∧
      entry.clauses.length = (if entry.numAggregated = factor then 1
        else (h.entry (a.epoch / factor)).clauses.length + 1) ∧
      h' = h.setEntry (a.epoch / factor) entry) := by
  rw [insertClauses] at hok
  split at hok
  · next halready => exact Or.inl ⟨halready, (Except.ok.inj hok).symm⟩
  · next hnew =>
      obtain ⟨entry, hentry, rfl⟩ := Runs.exists_of_map_eq_ok hok
      obtain ⟨haggregated, hlength⟩ := mergeIfComplete_spec hentry
      refine Or.inr ⟨Bool.not_eq_true _ ▸ hnew, entry, haggregated, ?_, rfl⟩
      rw [hlength, Entry.numAggregated, Entry.numAggregated, haggregated, List.length_append, List.length_singleton]

theorem aggregated_of_alreadyPresent (halready : h.alreadyPresent a.epoch a.entireIndex = true) :
    a.aggregated (h.entry (a.epoch / factor)) = (h.entry (a.epoch / factor)).aggregated := by
  rw [alreadyPresent] at halready
  rw [Arrival.aggregated]
  split at halready
  · next hentire => rw [if_pos hentire, isBatchComplete_iff.mp halready]
  · next hsingle => rw [if_neg hsingle, Finset.insert_eq_of_mem (isEpochPresent_iff.mp halready)]

/-- The batch of the message is completed by it, and the other batches stay as they are. -/
theorem aggregated_insertClauses (hok : h.insertClauses options a.epoch a.clauses a.entireIndex = .ok h')
    (index : Nat) : (h'.entry index).aggregated =
      if index = a.epoch / factor then a.aggregated (h.entry index) else (h.entry index).aggregated := by
  rcases insertClauses_cases hok with ⟨halready, rfl⟩ | ⟨-, entry, haggregated, -, rfl⟩
  · split
    · next heq => rw [heq, aggregated_of_alreadyPresent halready]
    · rfl
  · rw [entry_setEntry]
    split
    · next heq => rw [heq, haggregated]
    · rfl

theorem isEpochPresent_insertClauses (hok : h.insertClauses options a.epoch a.clauses a.entireIndex = .ok h')
    (epoch : Nat) : h'.isEpochPresent epoch = true ↔ h.isEpochPresent epoch = true ∨ a.Brings factor epoch := by
  rw [isEpochPresent_iff, isEpochPresent_iff, aggregated_insertClauses hok, Arrival.aggregated, Arrival.Brings]
  split
  · next heq =>
      split
      · simp [heq]
      · have hepoch : Fin.ofNat factor epoch = Fin.ofNat factor a.epoch ↔ epoch = a.epoch := by
          refine ⟨fun hoffset => ?_, fun h => h ▸ rfl⟩
          have hmod : epoch % factor = a.epoch % factor := congrArg Fin.val hoffset
          rw [← Nat.div_add_mod epoch factor, heq, hmod, Nat.div_add_mod]
        rw [Finset.mem_insert, hepoch, or_comm]
  · next hne =>
      split
      · simp [hne]
      · have hepoch : epoch ≠ a.epoch := fun h => hne (h ▸ rfl)
        simp [hepoch]

theorem isBatchComplete_insertClauses (hok : h.insertClauses options a.epoch a.clauses a.entireIndex = .ok h')
    {index : Nat} (hcomplete : h.isBatchComplete index = true) : h'.isBatchComplete index = true := by
  rw [isBatchComplete_iff] at hcomplete ⊢
  rw [aggregated_insertClauses hok, Arrival.aggregated]
  split
  · split
    · rfl
    · rw [hcomplete]
      exact Finset.insert_eq_of_mem (Finset.mem_univ _)
  · exact hcomplete

theorem wellFormed_insertClauses (hok : h.insertClauses options a.epoch a.clauses a.entireIndex = .ok h')
    (hentries : ∀ index, (h.entry index).WellFormed) (index : Nat) : (h'.entry index).WellFormed := by
  rcases insertClauses_cases hok with ⟨-, rfl⟩ | ⟨hnew, entry, haggregated, hlength, rfl⟩
  · exact hentries index
  · rw [entry_setEntry]
    split
    · rw [Entry.WellFormed, hlength]
      split
      · rfl
      · next hincomplete =>
          have hsingle : a.entireIndex = false := by
            by_contra hentire
            rw [Bool.not_eq_false] at hentire
            apply hincomplete
            simp [Entry.numAggregated, haggregated, Arrival.aggregated, hentire]
          have hmissing : Fin.ofNat factor a.epoch ∉ (h.entry (a.epoch / factor)).aggregated := by
            rw [← isEpochPresent_iff]
            simpa [alreadyPresent, hsingle] using hnew
          have hcard : entry.numAggregated = (h.entry (a.epoch / factor)).numAggregated + 1 := by
            rw [Entry.numAggregated, haggregated, Arrival.aggregated, hsingle]
            exact Finset.card_insert_of_notMem hmissing
          have hbefore := hentries (a.epoch / factor)
          have hcomplete : (h.entry (a.epoch / factor)).numAggregated ≠ factor := by
            intro hcomplete
            have hle := Finset.card_le_univ entry.aggregated
            rw [Fintype.card_fin] at hle
            rw [Entry.numAggregated] at hcard
            omega
          rw [Entry.WellFormed, if_neg hcomplete] at hbefore
          rw [hbefore, hcard]
    · exact hentries index

end Insertion

structure Consistent (h : ClauseHistory factor) : Prop where
  latest_ge : -1 ≤ h.latestEpoch
  ordered : Ordered (h.latestEpoch + 1).toNat h.missingEpochRanges
  covered : ∀ epoch : Nat, (epoch : Int) ≤ h.latestEpoch → h.isEpochPresent epoch = false →
    numContaining epoch h.missingEpochRanges = 1
  entries : ∀ index, (h.entry index).WellFormed
  ahead : ∀ epoch : Nat, h.latestEpoch < epoch → h.isEpochPresent epoch = true →
    h.isBatchComplete (epoch / factor) = true

theorem isEpochPresent_congr {h h' : ClauseHistory factor}
    (heq : ∀ index, (h'.entry index).aggregated = (h.entry index).aggregated) (epoch : Nat) :
    h'.isEpochPresent epoch = h.isEpochPresent epoch := by
  rw [Bool.eq_iff_iff, isEpochPresent_iff, isEpochPresent_iff, heq]

theorem isBatchComplete_congr {h h' : ClauseHistory factor}
    (heq : ∀ index, (h'.entry index).aggregated = (h.entry index).aggregated) (index : Nat) :
    h'.isBatchComplete index = h.isBatchComplete index := by
  rw [Bool.eq_iff_iff, isBatchComplete_iff, isBatchComplete_iff, heq]

omit [NeZero factor] in
theorem updateLatestEpoch_spec (options : HistoryOptions) (h : ClauseHistory factor) (epoch : Nat) :
    (h.updateLatestEpoch options epoch).latestEpoch = max h.latestEpoch epoch ∧
    (h.updateLatestEpoch options epoch).missingEpochRanges = h.missingEpochRanges ∧
    (h.updateLatestEpoch options epoch).subscription = h.subscription ∧
    ∀ index, ((h.updateLatestEpoch options epoch).entry index).aggregated = (h.entry index).aggregated ∧
      ((h.updateLatestEpoch options epoch).entry index).clauses.length = (h.entry index).clauses.length := by
  rw [updateLatestEpoch]
  dsimp only
  split
  · refine ⟨rfl, rfl, rfl, fun index => ?_⟩
    rw [entry_setEntry]
    split
    · next heq =>
        subst heq
        exact ⟨rfl, List.length_modifyHead⟩
    · exact ⟨rfl, rfl⟩
  · exact ⟨rfl, rfl, rfl, fun index => ⟨rfl, rfl⟩⟩

omit [NeZero factor] in
theorem Entry.WellFormed.congr {entry entry' : Entry factor} (h : entry.WellFormed)
    (haggregated : entry'.aggregated = entry.aggregated) (hlength : entry'.clauses.length = entry.clauses.length) :
    entry'.WellFormed := by
  rwa [Entry.WellFormed, hlength, Entry.numAggregated, haggregated]

section Steps

variable {options : HistoryOptions} {h h' : ClauseHistory factor} {a : Arrival}

theorem Consistent.covered_le (hc : h.Consistent) {epoch : Nat} (hle : h.latestEpoch < epoch) :
    numContaining epoch h.missingEpochRanges = 0 := by
  have hbound := hc.ordered.numContaining_le epoch
  have hlatest := hc.latest_ge
  rw [if_neg (by omega)] at hbound
  exact Nat.le_zero.mp hbound

structure Received (h : ClauseHistory factor) (epoch : Nat) : Prop where
  latest_ge : -1 ≤ h.latestEpoch
  present : h.isEpochPresent epoch = true
  ordered : Ordered (max h.latestEpoch epoch + 1).toNat h.missingEpochRanges
  covered : ∀ e : Nat, (e : Int) ≤ max h.latestEpoch epoch → h.isEpochPresent e = false →
    numContaining e h.missingEpochRanges = 1
  entries : ∀ index, (h.entry index).WellFormed
  ahead : ∀ e : Nat, max h.latestEpoch epoch < e → h.isEpochPresent e = true →
    h.isBatchComplete (e / factor) = true

theorem ahead_insertClauses (hc : h.Consistent)
    (hok : h.insertClauses options a.epoch a.clauses a.entireIndex = .ok h') {e : Nat}
    (hlt : max h.latestEpoch a.epoch < e) (hpresent : h'.isEpochPresent e = true) :
    h'.isBatchComplete (e / factor) = true := by
  rcases (isEpochPresent_insertClauses hok e).mp hpresent with hbefore | hbrings
  · exact isBatchComplete_insertClauses hok (hc.ahead e ((le_max_left _ _).trans_lt hlt) hbefore)
  · rw [Arrival.Brings] at hbrings
    split at hbrings
    · next hentire =>
        rw [isBatchComplete_iff, aggregated_insertClauses hok, if_pos hbrings, Arrival.aggregated, if_pos hentire]
    · have hle := (le_max_right h.latestEpoch (a.epoch : Int)).trans_lt hlt
      omega

theorem insertClauses_frame (hok : h.insertClauses options a.epoch a.clauses a.entireIndex = .ok h') :
    h'.latestEpoch = h.latestEpoch ∧ h'.missingEpochRanges = h.missingEpochRanges ∧
      h'.subscription = h.subscription := by
  rcases insertClauses_cases hok with ⟨-, rfl⟩ | ⟨-, entry, -, -, rfl⟩
  · exact ⟨rfl, rfl, rfl⟩
  · exact ⟨rfl, rfl, rfl⟩

omit [NeZero factor] in
theorem ordered_mono {n m : Nat} {rs : List Range} (hrs : Ordered n rs) (hle : n ≤ m) : Ordered m rs :=
  ⟨hrs.nonempty, fun r hr => (hrs.bounded r hr).trans hle, hrs.ordered⟩

/-- The ranges shrink to what is missing, and a gap before the new epoch is added. -/
theorem Consistent.receive (hc : h.Consistent) (hok : h.receive options a = .ok h') : h'.Received a.epoch := by
  obtain ⟨h₁, hinsert, rfl⟩ := Runs.exists_of_map_eq_ok hok
  obtain ⟨hlatest, hranges, -⟩ := insertClauses_frame hinsert
  have hge := hc.latest_ge
  have hsame : ∀ e, (h₁.updateRanges a.epoch).isEpochPresent e = h₁.isEpochPresent e :=
    isEpochPresent_congr fun _ => rfl
  have harrived : h₁.isEpochPresent a.epoch = true :=
    (isEpochPresent_insertClauses hinsert a.epoch).mpr (Or.inr (brings_epoch a))
  have hshrunk : Ordered (h.latestEpoch + 1).toNat (shrinkAll h₁.isEpochPresent h.missingEpochRanges) :=
    hc.ordered.shrinkAll
  have hcount : ∀ e, h₁.isEpochPresent e = false →
      numContaining e (shrinkAll h₁.isEpochPresent h.missingEpochRanges) = numContaining e h.missingEpochRanges :=
    fun e he => hc.ordered.numContaining_shrinkAll he
  have hentries := wellFormed_insertClauses hinsert hc.entries
  refine ⟨hlatest.symm ▸ hge, (hsame _).trans harrived, ?_, fun e hle he => ?_, hentries,
    fun e hlt hpresent => ?_⟩
  · simp only [updateRanges, hlatest, hranges]
    split
    · next hgap =>
        have hmax : (max h.latestEpoch a.epoch + 1).toNat = a.epoch + 1 := by omega
        rw [hmax]
        exact hshrunk.addGap (by omega)
    · exact ordered_mono hshrunk (by omega)
  · rw [hsame] at he
    have hbefore : h.isEpochPresent e = false := by
      rw [← Bool.not_eq_true] at he ⊢
      exact fun hpresent => he ((isEpochPresent_insertClauses hinsert e).mpr (Or.inl hpresent))
    have hne : e ≠ a.epoch := by
      rintro rfl
      rw [harrived] at he
      cases he
    simp only [updateRanges, hlatest, hranges]
    simp only [updateRanges, hlatest] at hle
    by_cases hold : (e : Int) ≤ h.latestEpoch
    · have hone := (hcount e he).trans (hc.covered e hold hbefore)
      split
      · rw [numContaining_addGap hshrunk (by omega), hone, if_neg (by omega)]
      · exact hone
    · have hzero := (hcount e he).trans (hc.covered_le (not_le.mp hold))
      rw [if_pos (by omega), numContaining_addGap hshrunk (by omega), hzero, if_pos (by omega)]
  · have hcomplete : (h₁.updateRanges a.epoch).isBatchComplete (e / factor) = h₁.isBatchComplete (e / factor) :=
      isBatchComplete_congr (fun _ => rfl) _
    rw [hsame] at hpresent
    rw [hcomplete]
    have hlt' : max h₁.latestEpoch (a.epoch : Int) < e := hlt
    rw [hlatest] at hlt'
    exact ahead_insertClauses hc hinsert hlt' hpresent

theorem Consistent.addEpoch (hc : h.Consistent) (hok : h.addEpoch options a = .ok h') : h'.Consistent := by
  obtain ⟨h₁, hreceive, rfl⟩ := Runs.exists_of_map_eq_ok hok
  have hr := hc.receive hreceive
  obtain ⟨hlatest, hranges, -, hentries⟩ := updateLatestEpoch_spec options
    { h₁ with subscription := (h₁.updateSubscription (a.epoch / factor) a.parentRank a.pastEnd).1 } a.epoch
  have hpresent := isEpochPresent_congr fun index => (hentries index).1
  have hcomplete := isBatchComplete_congr fun index => (hentries index).1
  have hmax := le_max_left h₁.latestEpoch (a.epoch : Int)
  constructor
  · exact hlatest.symm ▸ hr.latest_ge.trans hmax
  · rw [hlatest, hranges]
    exact hr.ordered
  · intro e hle he
    rw [hlatest] at hle
    rw [hpresent] at he
    rw [hranges]
    exact hr.covered e hle he
  · intro index
    exact (hr.entries index).congr (hentries index).1 (hentries index).2
  · intro e hlt he
    rw [hlatest] at hlt
    rw [hpresent] at he
    rw [hcomplete]
    exact hr.ahead e hlt he

theorem consistent_start : ({} : ClauseHistory factor).Consistent where
  latest_ge := le_rfl
  ordered := ⟨by simp, by simp, List.Pairwise.nil⟩
  covered := fun epoch hle => absurd hle (by simp; omega)
  entries := fun index => by
    have hempty : ({} : ClauseHistory factor).entry index = {} := entry_eq_empty (Nat.zero_le _)
    rw [hempty, Entry.WellFormed, if_neg (by simpa using (NeZero.ne factor).symm)]
    rfl
  ahead := fun epoch _ hpresent => by
    simp [isEpochPresent] at hpresent

end Steps

/-- Whatever arrives in whatever order: every epoch up to the latest one that is not present lies in exactly
one missing range, the ranges are not empty, follow one another and end at the latest epoch, a complete batch
has one buffer and any other batch one buffer for each epoch that is present. -/
theorem missing_epochs_are_known (factor : Nat) [NeZero factor] (options : HistoryOptions) (arrivals : List Arrival)
    (h : ClauseHistory factor) (hrun : Runs.run (addEpoch options) {} arrivals = .ok h) :
    (∀ epoch : Nat, (epoch : Int) ≤ h.latestEpoch → h.isEpochPresent epoch = false →
      numContaining epoch h.missingEpochRanges = 1) ∧
    (∀ r ∈ h.missingEpochRanges, r.1 < r.2 ∧ (r.2 : Int) ≤ h.latestEpoch + 1) ∧
    h.missingEpochRanges.Pairwise (fun r r' => r.2 ≤ r'.1) ∧
    (∀ index, h.isBatchComplete index = true → (h.entry index).clauses.length = 1) ∧
    ∀ index, h.isBatchComplete index = false →
      (h.entry index).clauses.length = ((Finset.range factor).filter fun offset =>
        h.isEpochPresent (factor * index + offset) = true).card := by
  have hc : h.Consistent := Runs.run_invariant consistent_start (fun h a h' hc hok => hc.addEpoch hok) hrun
  have hge := hc.latest_ge
  refine ⟨hc.covered, fun r hr => ⟨hc.ordered.nonempty r hr, ?_⟩, hc.ordered.ordered, fun index hcomplete => ?_,
    fun index hincomplete => ?_⟩
  · have hbound := hc.ordered.bounded r hr
    omega
  · have hwf := hc.entries index
    rwa [Entry.WellFormed, if_pos (isBatchComplete_iff_numAggregated.mp hcomplete)] at hwf
  · have hwf := hc.entries index
    have hne : (h.entry index).numAggregated ≠ factor := by
      intro hcard
      rw [isBatchComplete_iff_numAggregated.mpr hcard] at hincomplete
      cases hincomplete
    rw [Entry.WellFormed, if_neg hne] at hwf
    rw [hwf, numAggregated_eq_card]

/-- Epoch 3 arrives, and then the batch of the epochs 0 and 1. -/
theorem missing_epochs_are_known_example :
    let h : ClauseHistory 2 := {
      history := [⟨[[1, 0, 0]], Finset.univ⟩, ⟨[[]], {1}⟩]
      missingEpochRanges := [(2, 3)]
      latestEpoch := 3
      subscription := some ⟨0, 1, 2⟩ }
    Runs.run (addEpoch ⟨10, 100, 100, 2⟩) {} [⟨3, [], false, 0, (0, 0)⟩, ⟨0, [], true, 0, (0, 0)⟩] = .ok h ∧
      numContaining 2 h.missingEpochRanges = 1 ∧ (h.entry 0).clauses.length = 1 := by
  intro h
  have hrun : Runs.run (addEpoch ⟨10, 100, 100, 2⟩) {} [⟨3, [], false, 0, (0, 0)⟩, ⟨0, [], true, 0, (0, 0)⟩] =
      .ok h := by
    decide +kernel
  obtain ⟨hcovered, -, -, hcomplete, -⟩ := missing_epochs_are_known 2 _ _ h hrun
  exact ⟨hrun, hcovered 2 (by decide) (by decide), hcomplete 0 (by decide)⟩

end ClauseHistory

end Mallob.Sharing
