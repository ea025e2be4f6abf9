import Mathlib

namespace Mallob

structure Event where
  jobId : Int
  epoch : Int
  demand : Int
  priority : ℚ
deriving DecidableEq, Repr

def Event.dominates (ev other : Event) : Bool := ev.epoch > other.epoch

/-- The map of a balancing message or of one rank's view. Every event is filed
under its own job, so a map that files an event elsewhere cannot be built. -/
structure EventMap where
  globalEpoch : Nat
  map : Std.ExtTreeMap Int Event
  keyed : ∀ (k : Int) (ev : Event), map[k]? = some ev → ev.jobId = k
deriving DecidableEq

namespace EventMap

theorem lookup_insert (t : Std.ExtTreeMap Int Event) (k a : Int) (ev : Event) :
    (t.insert k ev)[a]? = if k = a then some ev else t[a]? := by
  simp [Std.ExtTreeMap.getElem?_insert]

theorem lookup_erase (t : Std.ExtTreeMap Int Event) (k a : Int) :
    (t.erase k)[a]? = if k = a then none else t[a]? := by
  simp [Std.ExtTreeMap.getElem?_erase]

def empty : EventMap := ⟨0, ∅, by simp⟩

def put (m : EventMap) (ev : Event) : EventMap where
  globalEpoch := m.globalEpoch
  map := m.map.insert ev.jobId ev
  keyed := by
    intro k ev' h
    rw [lookup_insert] at h
    split at h
    · next hk => obtain rfl := Option.some.inj h; exact hk
    · exact m.keyed k ev' h

def remove (m : EventMap) (key : Int) : EventMap where
  globalEpoch := m.globalEpoch
  map := m.map.erase key
  keyed := by
    intro k ev h
    rw [lookup_erase] at h
    split at h
    · cases h
    · exact m.keyed k ev h

def isEmpty (m : EventMap) : Bool := m.map.isEmpty

def setGlobalEpoch (m : EventMap) (epoch : Nat) : EventMap := { m with globalEpoch := epoch }

def clear (m : EventMap) : EventMap := { empty with globalEpoch := m.globalEpoch }

def getEntries (m : EventMap) : List (Int × Event) := m.map.toList

/-- The flag is the return value of the source: whether the map changed. -/
def insertIfNovel (m : EventMap) (ev : Event) : EventMap × Bool :=
  if ev.epoch < 0 then (m, false)
  else match m.map[ev.jobId]? with
    | none => (put m ev, true)
    | some old => if ev.dominates old then (put m ev, true) else (m, false)

/-- Two events of one job and epoch which differ in priority or demand make
the source call abort(). -/
def conflicts (ev otherEv : Event) : Bool :=
  otherEv.epoch == ev.epoch && (otherEv.priority != ev.priority || otherEv.demand != ev.demand)

def removeAll (m : EventMap) (keysToErase : List Int) : EventMap := keysToErase.foldl remove m

def filterBy (m otherMap : EventMap) : Option EventMap :=
  if (getEntries m).any fun e => (otherMap.map[e.1]?).any (conflicts e.2) then none
  else
    let keysToErase := ((getEntries m).filter fun e =>
      (otherMap.map[e.1]?).any fun o => o.epoch ≥ e.2.epoch).map Prod.fst
    some (setGlobalEpoch (removeAll m keysToErase) (max m.globalEpoch otherMap.globalEpoch))

def updateBy (m otherMap : EventMap) : EventMap × Bool :=
  let r := (getEntries otherMap).foldl
    (fun r e => let s := insertIfNovel r.1 e.2; (s.1, r.2 || s.2)) (m, false)
  (setGlobalEpoch r.1 (max m.globalEpoch otherMap.globalEpoch),
    r.2 || decide (otherMap.globalEpoch > m.globalEpoch))

def isOldZero (ev : Event) : Bool := ev.demand == 0 && decide (ev.priority ≤ 0)

def removeOldZeros (m : EventMap) : EventMap × List Int :=
  let keysToErase := ((getEntries m).filter fun e => isOldZero e.2).map Prod.fst
  (removeAll m keysToErase, keysToErase)

def newer (old : Option Event) (ev : Event) : Option Event :=
  if ev.epoch < 0 then old
  else match old with
    | none => some ev
    | some o => if ev.dominates o then some ev else some o

@[simp] theorem lookup_put (m : EventMap) (ev : Event) (k : Int) :
    (put m ev).map[k]? = if ev.jobId = k then some ev else m.map[k]? :=
  lookup_insert m.map ev.jobId k ev

@[simp] theorem lookup_remove (m : EventMap) (key k : Int) :
    (remove m key).map[k]? = if key = k then none else m.map[k]? :=
  lookup_erase m.map key k

@[simp] theorem lookup_empty (k : Int) : empty.map[k]? = none := by simp [empty]

@[simp] theorem lookup_clear (m : EventMap) (k : Int) : (clear m).map[k]? = none := by simp [clear]

@[simp] theorem map_setGlobalEpoch (m : EventMap) (e : Nat) : (setGlobalEpoch m e).map = m.map := rfl

@[simp] theorem globalEpoch_setGlobalEpoch (m : EventMap) (e : Nat) :
    (setGlobalEpoch m e).globalEpoch = e := rfl

@[simp] theorem globalEpoch_clear (m : EventMap) : (clear m).globalEpoch = m.globalEpoch := rfl

theorem isEmpty_iff (m : EventMap) : isEmpty m = true ↔ ∀ k : Int, m.map[k]? = none := by
  rw [isEmpty, Std.ExtTreeMap.isEmpty_iff]
  constructor
  · intro h k; simp [h]
  · intro h; exact Std.ExtTreeMap.ext_getElem? (by simpa using h)

theorem mem_getEntries (m : EventMap) (k : Int) (ev : Event) :
    (k, ev) ∈ getEntries m ↔ m.map[k]? = some ev :=
  Std.ExtTreeMap.mem_toList_iff_getElem?_eq_some

theorem nodup_keys (m : EventMap) : ((getEntries m).map Prod.fst).Nodup := by
  have h := m.map.distinct_keys_toList
  rw [List.nodup_iff_pairwise_ne, List.pairwise_map]
  exact h.imp fun hab he => hab (by simp [he])

theorem lookup_insertIfNovel (m : EventMap) (ev : Event) (k : Int) :
    (insertIfNovel m ev).1.map[k]? = if ev.jobId = k then newer m.map[k]? ev else m.map[k]? := by
  by_cases hneg : ev.epoch < 0
  · simp [insertIfNovel, newer, hneg]
  · cases ho : m.map[ev.jobId]? with
    | none =>
        by_cases hk : ev.jobId = k
        · subst hk; simp [insertIfNovel, newer, hneg, ho]
        · simp [insertIfNovel, hneg, ho, hk]
    | some old =>
        by_cases hd : ev.dominates old = true <;> by_cases hk : ev.jobId = k
        · subst hk; simp [insertIfNovel, newer, hneg, ho, hd]
        · simp [insertIfNovel, hneg, ho, hd, hk]
        · subst hk; simp [insertIfNovel, newer, hneg, ho, hd]
        · simp [insertIfNovel, hneg, ho, hd, hk]

theorem lookup_removeAll (keys : List Int) (m : EventMap) (k : Int) :
    (removeAll m keys).map[k]? = if k ∈ keys then none else m.map[k]? := by
  induction keys generalizing m with
  | nil => simp [removeAll]
  | cons key keys ih =>
      have h := ih (remove m key)
      simp only [removeAll, List.foldl_cons] at h ⊢
      rw [h, lookup_remove]
      by_cases hk : k ∈ keys
      · simp [hk]
      · by_cases hkey : key = k
        · simp [hkey]
        · simp [hk, hkey, Ne.symm hkey]

/-- An entry is erased by the keys of the entries satisfying a test exactly
when it satisfies the test. -/
theorem lookup_removeAll_filter (m : EventMap) (p : Int × Event → Bool) (k : Int) :
    (removeAll m (((getEntries m).filter p).map Prod.fst)).map[k]? =
      (m.map[k]?).filter fun ev => !p (k, ev) := by
  rw [lookup_removeAll]
  cases h : m.map[k]? with
  | none => simp
  | some ev =>
      have hmem : k ∈ ((getEntries m).filter p).map Prod.fst ↔ p (k, ev) = true := by
        simp only [List.mem_map, List.mem_filter, Prod.exists, exists_and_right, exists_eq_right,
          mem_getEntries, h, Option.some.injEq]
        constructor
        · rintro ⟨_, rfl, hp⟩; exact hp
        · intro hp; exact ⟨ev, rfl, hp⟩
      by_cases hp : p (k, ev) = true
      · rw [if_pos (hmem.mpr hp)]; simp [Option.filter, hp]
      · rw [if_neg (mt hmem.mp hp)]; simp [Option.filter, hp]

theorem lookup_removeOldZeros (m : EventMap) (k : Int) :
    (removeOldZeros m).1.map[k]? = (m.map[k]?).filter fun ev => !isOldZero ev :=
  lookup_removeAll_filter m (fun e => isOldZero e.2) k

@[simp] theorem globalEpoch_removeAll (keys : List Int) (m : EventMap) :
    (removeAll m keys).globalEpoch = m.globalEpoch := by
  induction keys generalizing m with
  | nil => rfl
  | cons key keys ih => exact ih (remove m key)

@[simp] theorem globalEpoch_removeOldZeros (m : EventMap) :
    (removeOldZeros m).1.globalEpoch = m.globalEpoch := globalEpoch_removeAll _ m

theorem lookup_filterBy (m otherMap r : EventMap) (h : filterBy m otherMap = some r) (k : Int) :
    r.map[k]? = (m.map[k]?).filter fun ev => !(otherMap.map[k]?).any fun o => o.epoch ≥ ev.epoch := by
  rw [filterBy] at h
  split at h
  · cases h
  · obtain rfl := Option.some.inj h
    exact lookup_removeAll_filter m (fun e => (otherMap.map[e.1]?).any fun o => o.epoch ≥ e.2.epoch) k

theorem filterBy_isSome_iff (m otherMap : EventMap) :
    (filterBy m otherMap).isSome = true ↔
      ∀ (k : Int) (ev o : Event), m.map[k]? = some ev → otherMap.map[k]? = some o → conflicts ev o = false := by
  rw [filterBy]
  split
  · next hc =>
      obtain ⟨⟨k, ev⟩, hm, hc⟩ := List.any_eq_true.mp hc
      obtain ⟨o, ho, hc⟩ := Option.any_eq_true _ _ |>.mp hc
      simp only [Option.isSome_none, Bool.false_eq_true, false_iff, not_forall]
      exact ⟨k, ev, o, (mem_getEntries m k ev).mp hm, ho, by simp [hc]⟩
  · next hc =>
      simp only [Option.isSome_some, true_iff]
      intro k ev o hm ho
      by_contra hne
      refine hc (List.any_eq_true.mpr ⟨(k, ev), (mem_getEntries m k ev).mpr hm, ?_⟩)
      simpa [ho] using hne

theorem lookup_insertAll (l : List (Int × Event)) (hn : (l.map Prod.fst).Nodup)
    (hk : ∀ e ∈ l, e.2.jobId = e.1) (r : EventMap × Bool) (k : Int) (old : Option Event)
    (hl : ∀ ev, (k, ev) ∈ l ↔ old = some ev) :
    (l.foldl (fun r e => let s := insertIfNovel r.1 e.2; (s.1, r.2 || s.2)) r).1.map[k]? =
      old.elim r.1.map[k]? (newer r.1.map[k]?) := by
  induction l generalizing r old with
  | nil =>
      cases old with
      | none => rfl
      | some ev => simpa using (hl ev).mpr rfl
  | cons e l ih =>
      rcases e with ⟨a, e⟩
      simp only [List.map_cons, List.nodup_cons] at hn
      obtain rfl : e.jobId = a := hk (a, e) (by simp)
      have htail : ∀ e ∈ l, e.2.jobId = e.1 := fun e he => hk e (by simp [he])
      rw [List.foldl_cons]
      by_cases hj : e.jobId = k
      · subst hj
        have hnot : ∀ ev, (e.jobId, ev) ∉ l := fun ev hm => hn.1 (List.mem_map.mpr ⟨_, hm, rfl⟩)
        obtain rfl : old = some e := (hl e).mp (by simp)
        rw [ih hn.2 htail _ none (by simp [hnot])]
        simp [lookup_insertIfNovel]
      · rw [ih hn.2 htail _ old (by intro ev; rw [← hl ev]; simp [Ne.symm hj])]
        simp [lookup_insertIfNovel, hj]

theorem lookup_updateBy (m otherMap : EventMap) (k : Int) :
    (updateBy m otherMap).1.map[k]? = (otherMap.map[k]?).elim m.map[k]? (newer m.map[k]?) :=
  lookup_insertAll (getEntries otherMap) (nodup_keys otherMap)
    (fun e he => otherMap.keyed e.1 e.2 ((mem_getEntries otherMap e.1 e.2).mp he)) (m, false) k _
    (fun ev => mem_getEntries otherMap k ev)

@[simp] theorem globalEpoch_updateBy (m otherMap : EventMap) :
    (updateBy m otherMap).1.globalEpoch = max m.globalEpoch otherMap.globalEpoch := rfl

theorem newer_none {ev : Event} (h : 0 ≤ ev.epoch) : newer none ev = some ev := by
  simp [newer, Int.not_lt.mpr h]

theorem newer_some {o ev : Event} (h : 0 ≤ ev.epoch) :
    newer (some o) ev = if o.epoch < ev.epoch then some ev else some o := by
  simp [newer, Int.not_lt.mpr h, Event.dominates]

end EventMap

end Mallob
