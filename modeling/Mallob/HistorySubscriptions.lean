import Mallob.ClauseHistory

namespace Mallob.Sharing.ClauseHistory

open MissingRanges

variable {factor : Nat} [NeZero factor]

inductive Event (factor : Nat) where
  | addEpoch (a : Arrival) (proper : a.Proper factor)
  | onSuspend

def step (options : HistoryOptions) (h : ClauseHistory factor) : Event factor → Except MergeFault (ClauseHistory factor)
  | .addEpoch a _ => h.addEpoch options a
  | .onSuspend => .ok h.onSuspend

def OldestMissing (h : ClauseHistory factor) (last : Int) (epoch : Nat) : Prop :=
  (epoch : Int) ≤ last ∧ h.isEpochPresent epoch = false ∧ ∀ e < epoch, h.isEpochPresent e = true

/-- Every message of a step that asks for a subscription is sent while there is a missing range, and it asks
for batches from that of the oldest missing epoch on. -/
def AsksForMissing (options : HistoryOptions) (h : ClauseHistory factor) : Event factor → Prop
  | .addEpoch a _ => ∀ h', h.receive options a = .ok h' →
      ∀ s ∈ (h'.updateSubscription (a.epoch / factor) a.parentRank a.pastEnd).2,
        h'.missingEpochRanges ≠ [] ∧
        ∃ epoch, h'.OldestMissing (max h'.latestEpoch a.epoch) epoch ∧ s.nextIndex = (epoch / factor : Nat)
  | .onSuspend => True

def CaughtUp (h : ClauseHistory factor) (a : Arrival) : Prop :=
  ∀ epoch : Nat, (epoch : Int) ≤ h.latestEpoch → h.isEpochPresent epoch = true ∨ a.Brings factor epoch

/-- A message after which no old epoch is missing meets no subscription that waits for another batch; and where
it skips some epochs, the first one of them has not arrived yet, or the subscription just goes on. -/
def Timely (h : ClauseHistory factor) : Event factor → Prop
  | .addEpoch a _ => h.CaughtUp a →
      if h.latestEpoch + 1 < a.epoch then
        h.isEpochPresent (h.latestEpoch + 1).toNat = false ∨
          ∃ s ∈ h.subscription, s.nextIndex = (a.epoch / factor : Nat) ∧ s.nextIndex + 1 < s.endIndex
      else ∀ s ∈ h.subscription, s.nextIndex = (a.epoch / factor : Nat)
  | .onSuspend => True

section Requests

variable {h : ClauseHistory factor} {index parentRank : Nat} {pastEnd : Int × Int}

omit [NeZero factor]

theorem updateSubscription_of_none (hsub : h.subscription = none) :
    h.updateSubscription index parentRank pastEnd =
      if h.missingEpochRanges = [] then (none, [])
      else (some (h.subscribe parentRank pastEnd), [h.subscribe parentRank pastEnd]) := by
  unfold updateSubscription
  cases hranges : h.missingEpochRanges <;> simp [hsub]

theorem updateSubscription_of_ne {t : Subscription} (hsub : h.subscription = some t) (hne : t.nextIndex ≠ index) :
    h.updateSubscription index parentRank pastEnd =
      (some (h.subscribe parentRank pastEnd), [h.subscribe parentRank pastEnd]) := by
  unfold updateSubscription
  simp [hsub, hne]

theorem updateSubscription_of_done {t : Subscription} (hsub : h.subscription = some t) (heq : t.nextIndex = index)
    (hdone : t.endIndex ≤ index + 1) : h.updateSubscription index parentRank pastEnd =
      if h.missingEpochRanges = [] then (none, [])
      else (some (h.subscribe parentRank pastEnd), [h.subscribe parentRank pastEnd]) := by
  unfold updateSubscription
  cases hranges : h.missingEpochRanges <;> simp [hsub, heq, hdone]

theorem updateSubscription_of_lt {t : Subscription} (hsub : h.subscription = some t) (heq : t.nextIndex = index)
    (hlt : (index : Int) + 1 < t.endIndex) : h.updateSubscription index parentRank pastEnd =
      (some { t with nextIndex := index + 1 }, []) := by
  unfold updateSubscription
  simp [hsub, heq, not_le.mpr hlt]

theorem requests_cases : (h.updateSubscription index parentRank pastEnd).2 = [] ∨
    (h.updateSubscription index parentRank pastEnd).2 = [h.subscribe parentRank pastEnd] := by
  cases hsub : h.subscription with
  | none =>
      rw [updateSubscription_of_none hsub]
      split
      · exact Or.inl rfl
      · exact Or.inr rfl
  | some t =>
      by_cases heq : t.nextIndex = index
      · by_cases hdone : t.endIndex ≤ index + 1
        · rw [updateSubscription_of_done hsub heq hdone]
          split
          · exact Or.inl rfl
          · exact Or.inr rfl
        · rw [updateSubscription_of_lt hsub heq (not_le.mp hdone)]
          exact Or.inl rfl
      · rw [updateSubscription_of_ne hsub heq]
        exact Or.inr rfl

/-- Without a missing range a message is sent exactly if the subscription waits for another batch. -/
theorem requests_of_empty (hempty : h.missingEpochRanges = []) :
    (h.updateSubscription index parentRank pastEnd).2 = [] ↔ ∀ s ∈ h.subscription, s.nextIndex = index := by
  cases hsub : h.subscription with
  | none => simp [updateSubscription_of_none hsub, hempty]
  | some t =>
      by_cases heq : t.nextIndex = index
      · by_cases hdone : t.endIndex ≤ index + 1
        · simp [updateSubscription_of_done hsub heq hdone, hempty, heq]
        · simp [updateSubscription_of_lt hsub heq (not_le.mp hdone), heq]
      · simp [updateSubscription_of_ne hsub heq, heq]

/-- With a missing range no message is sent only if the subscription goes on. -/
theorem requests_of_nonempty (hne : h.missingEpochRanges ≠ []) :
    (h.updateSubscription index parentRank pastEnd).2 = [] ↔
      ∃ s ∈ h.subscription, s.nextIndex = index ∧ s.nextIndex + 1 < s.endIndex := by
  cases hsub : h.subscription with
  | none => simp [updateSubscription_of_none hsub, hne]
  | some t =>
      by_cases heq : t.nextIndex = index
      · by_cases hdone : t.endIndex ≤ index + 1
        · simp [updateSubscription_of_done hsub heq hdone, hne, heq, not_lt.mpr hdone]
        · simp [updateSubscription_of_lt hsub heq (not_le.mp hdone), heq, not_le.mp hdone]
      · simp [updateSubscription_of_ne hsub heq, heq]

theorem subscribe_nextIndex {r : Range} {rs : List Range} (hranges : h.missingEpochRanges = r :: rs) :
    (h.subscribe parentRank pastEnd).nextIndex = (r.1 / factor : Nat) := by
  simp only [subscribe, firstRange, hranges, epochToIndex]
  exact (Int.natCast_div r.1 factor).symm

end Requests

section Steps

variable {options : HistoryOptions} {h h' : ClauseHistory factor} {a : Arrival}

theorem receive_spec (hok : h.receive options a = .ok h') :
    h'.latestEpoch = h.latestEpoch ∧ h'.subscription = h.subscription ∧
    (∀ e, h'.isEpochPresent e = true ↔ h.isEpochPresent e = true ∨ a.Brings factor e) ∧
    h'.missingEpochRanges =
      if h.latestEpoch + 1 < a.epoch
      then addGap (h.latestEpoch + 1).toNat (a.epoch + 1) (shrinkAll h'.isEpochPresent h.missingEpochRanges)
      else shrinkAll h'.isEpochPresent h.missingEpochRanges := by
  obtain ⟨h₁, hinsert, rfl⟩ := Runs.exists_of_map_eq_ok hok
  obtain ⟨hlatest, hranges, hsub⟩ := insertClauses_frame hinsert
  have hsame : (h₁.updateRanges a.epoch).isEpochPresent = h₁.isEpochPresent := by
    funext e
    exact isEpochPresent_congr (fun _ => by rfl) e
  refine ⟨hlatest, hsub, fun e => ?_, ?_⟩
  · rw [hsame]
    exact isEpochPresent_insertClauses hinsert e
  · rw [hsame, updateRanges, hlatest, hranges]

theorem Consistent.numContaining_shrunk (hc : h.Consistent) (hok : h.receive options a = .ok h') {e : Nat}
    (hle : (e : Int) ≤ h.latestEpoch) (hmissing : h'.isEpochPresent e = false) :
    numContaining e (shrinkAll h'.isEpochPresent h.missingEpochRanges) = 1 := by
  obtain ⟨-, -, hpresent, -⟩ := receive_spec hok
  rw [hc.ordered.numContaining_shrinkAll hmissing]
  apply hc.covered e hle
  rw [← Bool.not_eq_true] at hmissing ⊢
  exact fun hbefore => hmissing ((hpresent e).mpr (Or.inl hbefore))

theorem Consistent.head_oldestMissing (hc : h.Consistent) (hok : h.receive options a = .ok h') {r : Range}
    {rs : List Range} (hranges : shrinkAll h'.isEpochPresent h.missingEpochRanges = r :: rs) :
    h'.OldestMissing h.latestEpoch r.1 := by
  have hordered : Ordered (h.latestEpoch + 1).toNat (r :: rs) := hranges ▸ hc.ordered.shrinkAll
  have hlt := hordered.nonempty r List.mem_cons_self
  have hbound := hordered.bounded r List.mem_cons_self
  refine ⟨by omega, hc.ordered.head_shrinkAll (by rw [hranges]; rfl), fun e he => ?_⟩
  by_contra hmissing
  rw [Bool.not_eq_true] at hmissing
  have hone := hc.numContaining_shrunk hok (by omega) hmissing
  rw [hranges, hordered.numContaining_eq_zero he] at hone
  cases hone

/-- The old ranges are gone exactly if nothing old is missing any more. -/
theorem Consistent.shrinkAll_eq_nil_iff (hc : h.Consistent) (hok : h.receive options a = .ok h') :
    shrinkAll h'.isEpochPresent h.missingEpochRanges = [] ↔ h.CaughtUp a := by
  obtain ⟨-, -, hpresent, -⟩ := receive_spec hok
  constructor
  · intro hempty e hle
    rw [← hpresent]
    by_contra hmissing
    have hone := hc.numContaining_shrunk hok hle (Bool.not_eq_true _ ▸ hmissing)
    rw [hempty] at hone
    cases hone
  · intro hcaught
    cases hranges : shrinkAll h'.isEpochPresent h.missingEpochRanges with
    | nil => rfl
    | cons r rs =>
        obtain ⟨hle, hmissing, -⟩ := hc.head_oldestMissing hok hranges
        rw [(hpresent r.1).mpr (hcaught r.1 hle)] at hmissing
        cases hmissing

theorem OldestMissing.mono {epoch : Nat} {last last' : Int} (ho : h.OldestMissing last epoch) (hle : last ≤ last') :
    h.OldestMissing last' epoch := ⟨ho.1.trans hle, ho.2⟩

theorem Consistent.asks_of_behind (hc : h.Consistent) (hok : h.receive options a = .ok h')
    (hbehind : ¬ h.CaughtUp a) {s : Subscription}
    (hs : s ∈ (h'.updateSubscription (a.epoch / factor) a.parentRank a.pastEnd).2) :
    h'.missingEpochRanges ≠ [] ∧
      ∃ epoch, h'.OldestMissing (max h'.latestEpoch a.epoch) epoch ∧ s.nextIndex = (epoch / factor : Nat) := by
  obtain ⟨hlatest, -, -, hranges⟩ := receive_spec hok
  cases hold : shrinkAll h'.isEpochPresent h.missingEpochRanges with
  | nil => exact absurd ((hc.shrinkAll_eq_nil_iff hok).mp hold) hbehind
  | cons r rs =>
      have hhead : ∃ n rest, h'.missingEpochRanges = (r.1, n) :: rest := by
        rw [hranges, hold]
        split
        · exact exists_addGap_cons _ _ r rs
        · exact ⟨r.2, rs, rfl⟩
      obtain ⟨n, rest, hhead⟩ := hhead
      have holdest := hc.head_oldestMissing hok hold
      rw [← hlatest] at holdest
      have hsubscribe : s = h'.subscribe a.parentRank a.pastEnd := by
        rcases @requests_cases factor h' (a.epoch / factor) a.parentRank a.pastEnd with hnone | hone
        · rw [hnone] at hs
          cases hs
        · rw [hone] at hs
          exact List.mem_singleton.mp hs
      refine ⟨by simp [hhead], r.1, holdest.mono (le_max_left _ _), ?_⟩
      rw [hsubscribe, subscribe_nextIndex hhead]

theorem Consistent.asks_iff_of_empty (hc : h.Consistent) (hok : h.receive options a = .ok h')
    (hcaught : h.CaughtUp a) (hgap : ¬ h.latestEpoch + 1 < a.epoch) (hproper : a.Proper factor) :
    h.AsksForMissing options (.addEpoch a hproper) ↔ ∀ s ∈ h.subscription, s.nextIndex = (a.epoch / factor : Nat) := by
  obtain ⟨-, hsub, -, hranges⟩ := receive_spec hok
  rw [if_neg hgap, (hc.shrinkAll_eq_nil_iff hok).mpr hcaught] at hranges
  rw [← hsub, ← @requests_of_empty factor h' (a.epoch / factor) a.parentRank a.pastEnd hranges]
  constructor
  · intro hasks
    apply List.eq_nil_iff_forall_not_mem.mpr
    intro s hs
    exact (hasks h' hok s hs).1 hranges
  · intro hnone h₂ hok₂ s hs
    obtain rfl := Except.ok.inj (hok.symm.trans hok₂)
    rw [hnone] at hs
    cases hs

/-- The first epoch after the latest one is in a batch with a missing epoch only if it is missing itself. -/
theorem Consistent.oldestMissing_of_gap_iff (hc : h.Consistent) (hok : h.receive options a = .ok h')
    (hcaught : h.CaughtUp a) (hgap : h.latestEpoch + 1 < a.epoch) (hproper : a.Proper factor) :
    (∃ epoch, h'.OldestMissing (max h'.latestEpoch a.epoch) epoch ∧
      (h.latestEpoch + 1).toNat / factor = epoch / factor) ↔ h.isEpochPresent (h.latestEpoch + 1).toNat = false := by
  obtain ⟨hlatest, -, hpresent, -⟩ := receive_spec hok
  have hge := hc.latest_ge
  rw [← Bool.not_eq_true]
  constructor
  · rintro ⟨epoch, ⟨-, hmissing, -⟩, hbatch⟩ hnext
    have hcomplete := hc.ahead _ (by omega) hnext
    rw [hbatch] at hcomplete
    rw [(hpresent epoch).mpr (Or.inl (isEpochPresent_of_complete hcomplete))] at hmissing
    cases hmissing
  · intro hnext
    have hbrings : ¬ a.Brings factor (h.latestEpoch + 1).toNat := by
      rw [Arrival.Brings]
      split
      · next hentire =>
          intro hbatch
          have hfirst := Nat.div_mul_cancel (hproper hentire)
          have hle := Nat.div_mul_le_self (h.latestEpoch + 1).toNat factor
          rw [hbatch, hfirst] at hle
          omega
      · omega
    refine ⟨_, ⟨by omega, ?_, fun e he => ?_⟩, rfl⟩
    · rw [← Bool.not_eq_true, hpresent, not_or]
      exact ⟨hnext, hbrings⟩
    · exact (hpresent e).mpr (hcaught e (by omega))

/-- Where only the epochs before the new one can be missing, the message asks for the first of them. -/
theorem Consistent.asks_iff_of_gap (hc : h.Consistent) (hok : h.receive options a = .ok h')
    (hcaught : h.CaughtUp a) (hgap : h.latestEpoch + 1 < a.epoch) (hproper : a.Proper factor) :
    h.AsksForMissing options (.addEpoch a hproper) ↔ h.isEpochPresent (h.latestEpoch + 1).toNat = false ∨
      ∃ s ∈ h.subscription, s.nextIndex = (a.epoch / factor : Nat) ∧ s.nextIndex + 1 < s.endIndex := by
  obtain ⟨-, hsub, -, hranges⟩ := receive_spec hok
  rw [if_pos hgap, (hc.shrinkAll_eq_nil_iff hok).mpr hcaught] at hranges
  have hfirst : h'.missingEpochRanges = [((h.latestEpoch + 1).toNat, a.epoch + 1)] := hranges
  have hne : h'.missingEpochRanges ≠ [] := by simp [hfirst]
  have hnext := @subscribe_nextIndex factor h' a.parentRank a.pastEnd _ _ hfirst
  rw [← hc.oldestMissing_of_gap_iff hok hcaught hgap hproper, ← hsub,
    ← @requests_of_nonempty factor h' (a.epoch / factor) a.parentRank a.pastEnd hne]
  rcases @requests_cases factor h' (a.epoch / factor) a.parentRank a.pastEnd with hnone | hone
  · refine iff_of_true (fun h₂ hok₂ s hs => ?_) (Or.inr hnone)
    obtain rfl := Except.ok.inj (hok.symm.trans hok₂)
    rw [hnone] at hs
    cases hs
  · have hsent : ¬ (h'.updateSubscription (a.epoch / factor) a.parentRank a.pastEnd).2 = [] := by simp [hone]
    rw [or_iff_left hsent]
    constructor
    · intro hasks
      obtain ⟨-, epoch, holdest, heq⟩ := hasks h' hok _ (hone ▸ List.mem_cons_self)
      rw [hnext] at heq
      exact ⟨epoch, holdest, Int.natCast_inj.mp heq⟩
    · rintro ⟨epoch, holdest, heq⟩ h₂ hok₂ s hs
      obtain rfl := Except.ok.inj (hok.symm.trans hok₂)
      rw [hone] at hs
      refine ⟨hne, epoch, holdest, ?_⟩
      rw [List.mem_singleton.mp hs, hnext, heq]

theorem Consistent.asksForMissing_iff (hc : h.Consistent) {event : Event factor}
    (hok : step options h event = .ok h') : h.AsksForMissing options event ↔ h.Timely event := by
  cases event with
  | onSuspend => exact Iff.rfl
  | addEpoch a hproper =>
      obtain ⟨h₁, hreceive, -⟩ := Runs.exists_of_map_eq_ok hok
      rw [Timely]
      by_cases hcaught : h.CaughtUp a
      · rw [forall_prop_of_true hcaught]
        split
        · next hgap => exact hc.asks_iff_of_gap hreceive hcaught hgap hproper
        · next hgap => exact hc.asks_iff_of_empty hreceive hcaught hgap hproper
      · refine iff_of_true (fun h₂ hok₂ s hs => ?_) fun h => absurd h hcaught
        exact hc.asks_of_behind hok₂ hcaught hs

theorem Consistent.step (hc : h.Consistent) {event : Event factor} (hok : step options h event = .ok h') :
    h'.Consistent := by
  cases event with
  | addEpoch a hproper => exact hc.addEpoch hok
  | onSuspend =>
      obtain rfl := Except.ok.inj hok
      exact ⟨hc.latest_ge, hc.ordered, hc.covered, hc.entries, hc.ahead⟩

end Steps

/-- In a run all messages ask for something missing exactly if every message with clauses meets a timely
subscription. -/
theorem asksForMissing_throughout_iff (factor : Nat) [NeZero factor] (options : HistoryOptions)
    (events : List (Event factor)) (h : ClauseHistory factor) (hrun : Runs.run (step options) {} events = .ok h) :
    Runs.Throughout (step options) (AsksForMissing options) {} events ↔
      Runs.Throughout (step options) Timely {} events :=
  Runs.throughout_congr_of_run (fun _ _ _ hc hok => Consistent.asksForMissing_iff hc hok)
    (fun _ _ _ hc _ hok => Consistent.step hc hok) consistent_start hrun

def single (epoch : Nat) : Event factor := .addEpoch ⟨epoch, [], false, 0, (0, 0)⟩ fun h => absurd h Bool.false_ne_true

def batch (index : Nat) : Event factor := .addEpoch ⟨factor * index, [], true, 0, (0, 0)⟩ fun _ => ⟨index, rfl⟩

theorem asksForMissing_throughout_iff_example :
    Runs.Throughout (step ⟨10, 100, 100, 2⟩) (AsksForMissing ⟨10, 100, 100, 2⟩) ({} : ClauseHistory 2)
      [single 3, batch 0] ↔
    Runs.Throughout (step ⟨10, 100, 100, 2⟩) Timely ({} : ClauseHistory 2) [single 3, batch 0] :=
  asksForMissing_throughout_iff 2 _ _ {
    history := [⟨[[1, 0, 0]], Finset.univ⟩, ⟨[[]], {1}⟩]
    missingEpochRanges := [(2, 3)]
    latestEpoch := 3
    subscription := some ⟨0, 1, 2⟩ } (by decide +kernel)

/-- With batches of one epoch, epoch 2 overtakes the second of the two batches that were asked for, and the
subscription is renewed without any missing range. With batches of three epochs, the first batch arrives after
the node was suspended, and then the subscription begins with this batch although epoch 3 is missing. -/
theorem not_always_asksForMissing :
    ¬ Runs.Throughout (step ⟨10, 100, 100, 2⟩) (AsksForMissing ⟨10, 100, 100, 2⟩) ({} : ClauseHistory 1)
      [single 1, batch 0, single 2] ∧
    ¬ Runs.Throughout (step ⟨10, 100, 100, 2⟩) (AsksForMissing ⟨10, 100, 100, 2⟩) ({} : ClauseHistory 3)
      [single 1, .onSuspend, batch 0, single 9] := by
  constructor
  · intro hasks
    let before : ClauseHistory 1 := {
      history := [⟨[[1, 0, 0]], Finset.univ⟩, ⟨[[1, 0, 0]], Finset.univ⟩]
      latestEpoch := 1
      subscription := some ⟨0, 1, 2⟩ }
    have hrun : Runs.run (step ⟨10, 100, 100, 2⟩) {} [single 1, batch 0] = .ok before := by decide +kernel
    let received : ClauseHistory 1 := { before with
      history := [⟨[[1, 0, 0]], Finset.univ⟩, ⟨[[1, 0, 0]], Finset.univ⟩, ⟨[[1, 0, 0]], Finset.univ⟩] }
    have hreceive : before.receive ⟨10, 100, 100, 2⟩ ⟨2, [], false, 0, (0, 0)⟩ = .ok received := by decide +kernel
    have hlast := @Runs.Throughout.after _ _ _ _ _ _ _ [single 1, batch 0] [] (single 2) hasks hrun
    exact (hlast received hreceive ⟨0, 0, 0⟩ (by decide)).1 rfl
  · intro hasks
    let before : ClauseHistory 3 := {
      history := [⟨[[1, 0, 0]], Finset.univ⟩]
      latestEpoch := 1 }
    have hrun : Runs.run (step ⟨10, 100, 100, 2⟩) {} [single 1, .onSuspend, batch 0] = .ok before := by
      decide +kernel
    let received : ClauseHistory 3 := { before with
      history := [⟨[[1, 0, 0]], Finset.univ⟩, {}, {}, ⟨[[]], {0}⟩]
      missingEpochRanges := [(2, 10)] }
    have hreceive : before.receive ⟨10, 100, 100, 2⟩ ⟨9, [], false, 0, (0, 0)⟩ = .ok received := by decide +kernel
    have hlast := @Runs.Throughout.after _ _ _ _ _ _ _ [single 1, .onSuspend, batch 0] [] (single 9) hasks hrun
    obtain ⟨-, epoch, ⟨-, hmissing, -⟩, hbatch⟩ := hlast received hreceive ⟨0, 0, 3⟩ (by decide)
    have hindex : epoch / 3 = 0 := (Int.natCast_inj.mp hbatch).symm
    have hcomplete : received.isBatchComplete (epoch / 3) = true := by
      rw [hindex]
      decide
    rw [isEpochPresent_of_complete hcomplete] at hmissing
    cases hmissing

end Mallob.Sharing.ClauseHistory
