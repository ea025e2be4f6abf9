import Mallob.LeftoverOrder

namespace Mallob.KeptSlots

open VolumeCalculator VolumeSweep VolumeSearch VolumeShares VolumeResult VolumeAssignment Bisection LeftoverOrder

section sweeps

theorem length_sweep_le (lower upper : ℚ) (queue rest : List Share) :
    (sweep lower upper queue rest).length ≤ (queue ++ rest).length := by
  induction rest generalizing queue with
  | nil => simp [sweep]
  | cons s rest ih =>
      rw [sweep]
      split
      · have := ih (queue.rotate 1)
        simp only [List.length_append, List.length_rotate, List.length_cons] at this ⊢
        omega
      · simpa using ih (queue ++ [s])

/-- Dismissing a job moves the one at the front. Any other keeps its distance from the end. -/
theorem getElem?_rotate_append {queue rest : List Share} {s x : Share} (hne : x ≠ s) {i : Nat} (hi : 0 < i)
    (h : (queue ++ s :: rest)[i]? = some x) : (queue.rotate 1 ++ rest)[i - 1]? = some x := by
  obtain ⟨j, rfl⟩ := Nat.exists_eq_succ_of_ne_zero hi.ne'
  rw [Nat.succ_sub_one]
  cases queue with
  | nil => exact h
  | cons first queue =>
      rw [List.cons_append, List.getElem?_cons_succ] at h
      rw [List.rotate_cons_succ, List.rotate_zero, List.append_assoc]
      rcases lt_trichotomy j queue.length with hlt | rfl | hgt
      · rw [List.getElem?_append_left hlt] at h ⊢
        exact h
      · rw [List.getElem?_append_right le_rfl, Nat.sub_self] at h
        exact absurd (Option.some.inj h).symm hne
      · rw [List.getElem?_append_right hgt.le] at h ⊢
        obtain ⟨k, hk⟩ := Nat.exists_eq_add_of_lt hgt
        have hindex : j - queue.length = k + 1 := by omega
        rw [hindex] at h ⊢
        exact h

/-- A pass leaves a job where it was, counted from the end, if the job stays open and the pass leaves as many. -/
theorem getElem?_sweep {lower upper : ℚ} {queue rest : List Share} {x : Share} {i : Nat}
    (hopen : x.volume lower ≠ x.volume upper) (h : (queue ++ rest)[i]? = some x)
    (hi : (queue ++ rest).length ≤ i + (sweep lower upper queue rest).length) :
    (sweep lower upper queue rest)[i + (sweep lower upper queue rest).length - (queue ++ rest).length]? = some x := by
  induction rest generalizing queue i with
  | nil => simpa [sweep] using h
  | cons s rest ih =>
      rw [sweep] at hi ⊢
      by_cases hs : s.volume lower = s.volume upper
      · rw [if_pos hs] at hi ⊢
        have hne : x ≠ s := fun heq => hopen (heq ▸ hs)
        have hle := length_sweep_le lower upper (queue.rotate 1) rest
        have hlen : (queue ++ s :: rest).length = (queue.rotate 1 ++ rest).length + 1 := by
          simp only [List.length_append, List.length_rotate, List.length_cons]
          omega
        have hkept := ih (getElem?_rotate_append hne (by omega) h) (by omega)
        rw [hlen]
        rwa [show i - 1 + (sweep lower upper (queue.rotate 1) rest).length - (queue.rotate 1 ++ rest).length =
          i + (sweep lower upper (queue.rotate 1) rest).length - ((queue.rotate 1 ++ rest).length + 1) by omega] at hkept
      · rw [if_neg hs] at hi ⊢
        have happend : queue ++ s :: rest = queue ++ [s] ++ rest := by simp
        rw [happend] at h hi ⊢
        exact ih h hi

theorem length_queueAfter_le (trail : List (ℚ × ℚ)) (queue : List Share) :
    (queueAfter trail queue).length ≤ queue.length := by
  induction trail generalizing queue with
  | nil => exact le_rfl
  | cons p trail ih => exact (ih (sweep p.1 p.2 [] queue)).trans (length_sweep_le p.1 p.2 [] queue)

/-- All passes together leave a job where it was, counted from the end, if it stays open and as many are left. -/
theorem getElem?_queueAfter {trail : List (ℚ × ℚ)} {queue : List Share} {x : Share} {i : Nat}
    (hopen : ∀ p ∈ trail, x.volume p.1 ≠ x.volume p.2) (h : queue[i]? = some x)
    (hi : queue.length ≤ i + (queueAfter trail queue).length) :
    (queueAfter trail queue)[i + (queueAfter trail queue).length - queue.length]? = some x := by
  induction trail generalizing queue i with
  | nil => simpa [queueAfter] using h
  | cons p trail ih =>
      obtain ⟨hfirst, hrest⟩ := List.forall_mem_cons.mp hopen
      have hstep : queueAfter (p :: trail) queue = queueAfter trail (sweep p.1 p.2 [] queue) := rfl
      have hle := length_queueAfter_le trail (sweep p.1 p.2 [] queue)
      have hle' : (sweep p.1 p.2 [] queue).length ≤ queue.length := length_sweep_le p.1 p.2 [] queue
      rw [hstep] at hi ⊢
      have hsweep : (sweep p.1 p.2 [] queue)[i + (sweep p.1 p.2 [] queue).length - queue.length]? = some x :=
        getElem?_sweep hfirst h (by simp only [List.nil_append]; omega)
      have hkept := ih hrest hsweep (by omega)
      rwa [show i + (sweep p.1 p.2 [] queue).length - queue.length +
        (queueAfter trail (sweep p.1 p.2 [] queue)).length - (sweep p.1 p.2 [] queue).length =
        i + (queueAfter trail (sweep p.1 p.2 [] queue)).length - queue.length by omega] at hkept

end sweeps

structure Cut (ss : List Share) (lower mid upper : ℚ) : Prop where
  lower_lt : lower < mid
  lt_upper : mid < upper
  known : mid = 1 ∨ mid = centerOfMass ss ∨ mid = (lower + upper) / 2

/-- The ranges of multipliers that arise from cuts towards the available volume, as long as some job gains more than one
unit in the range that is cut. -/
inductive Narrowing (ss : List Share) (available : Int) : ℚ → ℚ → Prop
  | whole : Narrowing ss available (lowestMultiplier ss) (highestMultiplier ss)
  | raised {lower mid upper : ℚ} : Narrowing ss available lower upper → flat ss lower upper = false →
      Cut ss lower mid upper → total ss mid < available → Narrowing ss available mid upper
  | lowered {lower mid upper : ℚ} : Narrowing ss available lower upper → flat ss lower upper = false →
      Cut ss lower mid upper → available < total ss mid → Narrowing ss available lower mid

def Gains (lower upper : ℚ) (s : Share) : Prop := s.volume lower ≠ s.volume upper

instance (lower upper : ℚ) (s : Share) : Decidable (Gains lower upper s) :=
  inferInstanceAs (Decidable (s.volume lower ≠ s.volume upper))

/-- All jobs of a priority that gain a unit in the range can have one of the left-over units, or none can. -/
def Unsplit (ss : List Share) (available : Int) (lower upper priority : ℚ) : Prop :=
  (ss.countP fun s => Gains lower upper s ∧ priority ≤ s.priority : Int) ≤ available - total ss lower ∨
    available - total ss lower ≤ (ss.countP fun s => Gains lower upper s ∧ priority < s.priority : Int)

def jobsBefore (hash : Int → Nat) (events : EventMap) (ev : Event) : Nat :=
  (activeEvents events).countP fun other => entryBefore hash (entryOf other) (entryOf ev)

/-- Where units are left over, no job is among the first ones, as many as gain nothing, if it gains a unit, demands more
than another one of its priority that does, and the units are not enough for all of them. -/
def SlotsKept (hash : Int → Nat) (events : EventMap) (available : Int) : Prop :=
  available < VolumeShares.sumOfDemands (jobShares hash events available) →
  ∀ lower upper, Narrowing (jobShares hash events available) available lower upper →
    flat (jobShares hash events available) lower upper = true →
    ∀ evi ∈ activeEvents events, ∀ evj ∈ activeEvents events, evj.priority = evi.priority → evj.demand < evi.demand →
      Gains lower upper (shareFor events available (entryOf evi)) →
      Gains lower upper (shareFor events available (entryOf evj)) →
      Unsplit (jobShares hash events available) available lower upper evi.priority ∨
        (jobShares hash events available).countP (fun s => ¬ Gains lower upper s) ≤ jobsBefore hash events evi

section ranges

variable {ss : List Share} {available : Int}

theorem probe_cases (center mid lower upper : ℚ) (up : Bool) :
    probe center mid lower upper up = center ∨ probe center mid lower upper up = (lower + upper) / 2 := by
  unfold probe nextMid
  generalize (if up then 1 else -1 : Int) = excess
  split
  · exact Or.inl rfl
  · split
    · exact Or.inl rfl
    · exact Or.inr rfl

/-- The range in which the search ends arises from cuts, and so do the wider ones before it. -/
theorem narrowing_of_search (h : Overloaded ss available) {fuel : Nat} {trail : List (ℚ × ℚ)} {lower upper : ℚ}
    (hrun : bisect (total ss) available (flat ss) (probe (centerOfMass ss)) fuel (lowestMultiplier ss)
      (highestMultiplier ss) 1 = some ⟨trail, .narrow lower upper⟩) :
    Narrowing ss available lower upper ∧ flat ss lower upper = true ∧ ∀ p ∈ trail, p.1 ≤ lower ∧ upper ≤ p.2 := by
  obtain ⟨⟨mid, hrange⟩, hflat, -, -, htrail⟩ := bisect_narrow
    (I := fun lower mid upper => Guided (centerOfMass ss) lower mid upper ∧ Cut ss lower mid upper ∧
      Narrowing ss available lower upper)
    (fun lower mid upper hI => ⟨hI.2.1.lower_lt, hI.2.1.lt_upper⟩)
    (fun lower mid upper hI hne hstop => by
      obtain ⟨hguided, hcut, hnarrowing⟩ := hI
      rcases lt_or_gt_of_ne hne with hlt | hgt
      · obtain ⟨hin, hin'⟩ := probe_up_inside hguided hcut.lower_lt hcut.lt_upper
        rw [raised, lowered, if_pos hlt, if_neg hlt.not_gt, decide_eq_true hlt]
        exact ⟨hguided.up hcut.lower_lt, ⟨hin, hin', Or.inr (probe_cases _ _ _ _ _)⟩,
          .raised hnarrowing hstop hcut hlt⟩
      · obtain ⟨hin, hin'⟩ := probe_down_inside hguided hcut.lower_lt hcut.lt_upper
        rw [raised, lowered, if_neg hgt.not_gt, if_pos hgt, decide_eq_false hgt.not_gt]
        exact ⟨hguided.down hcut.lt_upper, ⟨hin, hin', Or.inr (probe_cases _ _ _ _ _)⟩,
          .lowered hnarrowing hstop hcut hgt⟩)
    ⟨h.guided, ⟨h.one_inside.1, h.one_inside.2, Or.inl rfl⟩, .whole⟩ hrun
  exact ⟨hrange.2.2, hflat, htrail⟩

end ranges

section slots

variable {hash : Int → Nat} {events : EventMap} {available : Int} {vc : VolumeCalculator} {trail : List (ℚ × ℚ)}
  {lower upper : ℚ} {dismissed kept : List BalancingEntry}

/-- At most as many jobs come before a job as its place among the sorted ones says. -/
theorem jobsBefore_le {k : Nat} {ev : Event} (hk : (sortedEntries hash events)[k]? = some (entryOf ev)) :
    jobsBefore hash events ev ≤ k := by
  have hcount : jobsBefore hash events ev =
      (sortedEntries hash events).countP fun e => entryBefore hash e (entryOf ev) := by
    rw [(sortedEntries_perm hash events).countP_eq, List.countP_map]
    rfl
  obtain ⟨hlt, hget⟩ := List.getElem?_eq_some_iff.mp hk
  have hdrop : (sortedEntries hash events).drop k = entryOf ev :: (sortedEntries hash events).drop (k + 1) := by
    rw [List.drop_eq_getElem_cons hlt, hget]
  have hordered := (sortEntries_ordered hash ((activeEvents events).map entryOf)).sublist
    (List.drop_sublist k _)
  rw [← sortedEntries, hdrop, List.pairwise_cons] at hordered
  have hlater : ((sortedEntries hash events).drop k).countP (fun e => entryBefore hash e (entryOf ev)) = 0 := by
    rw [List.countP_eq_zero, hdrop, List.forall_mem_cons]
    simp only [entryBefore_iff]
    exact ⟨lt_irrefl _, fun e he => (hordered.1 e he).not_gt⟩
  rw [hcount, ← List.take_append_drop k (sortedEntries hash events), List.countP_append, hlater, Nat.add_zero]
  exact List.countP_le_length.trans (List.length_take_le _ _)

theorem jobsBefore_le_jobsBefore {evi evj : Event} (h : entryBefore hash (entryOf evi) (entryOf evj) = true) :
    jobsBefore hash events evi ≤ jobsBefore hash events evj := by
  refine List.countP_mono_left fun other _ hother => ?_
  rw [entryBefore_iff] at hother h ⊢
  exact hother.trans h

/-- The units do not reach all jobs of a priority if they do not reach one of them. -/
theorem lt_countP_of_drop {units : Nat} (hunits : units ≤ kept.length) {e : BalancingEntry}
    (he : e ∈ (sortEntries hash kept).drop units) :
    units < (shares kept).countP fun s => decide (e.priority ≤ s.priority) := by
  have hcount : (shares kept).countP (fun s => decide (e.priority ≤ s.priority)) =
      (sortEntries hash kept).countP fun x => decide (e.priority ≤ x.priority) := by
    rw [(sortEntries_perm hash kept).countP_eq, shares, List.countP_map]
    rfl
  have hordered := sortEntries_pairwise hash kept
  rw [← List.take_append_drop units (sortEntries hash kept)] at hordered hcount
  have hfirst := List.countP_eq_length.mpr fun x hx =>
    decide_eq_true ((List.pairwise_append.mp hordered).2.2 x hx e he)
  have hself : 0 < ((sortEntries hash kept).drop units).countP fun x => decide (e.priority ≤ x.priority) :=
    List.countP_pos_iff.mpr ⟨e, he, decide_eq_true le_rfl⟩
  rw [List.countP_append, hfirst, List.length_take, length_sortEntries] at hcount
  omega

/-- A job of a priority has a unit only if the units go beyond the jobs of higher priorities. -/
theorem countP_lt_of_take {units : Nat} (hunits : units ≤ kept.length) {e : BalancingEntry}
    (he : e ∈ (sortEntries hash kept).take units) :
    (shares kept).countP (fun s => decide (e.priority < s.priority)) < units := by
  have hcount : (shares kept).countP (fun s => decide (e.priority < s.priority)) =
      (sortEntries hash kept).countP fun x => decide (e.priority < x.priority) := by
    rw [(sortEntries_perm hash kept).countP_eq, shares, List.countP_map]
    rfl
  have hordered := sortEntries_pairwise hash kept
  rw [← List.take_append_drop units (sortEntries hash kept)] at hordered hcount
  have hlast : ((sortEntries hash kept).drop units).countP (fun x => decide (e.priority < x.priority)) = 0 := by
    rw [List.countP_eq_zero]
    intro x hx
    simpa using (List.pairwise_append.mp hordered).2.2 e he x hx
  have hself : ((sortEntries hash kept).take units).countP (fun x => decide (e.priority < x.priority)) ≠
      ((sortEntries hash kept).take units).length := by
    intro hall
    simpa using List.countP_eq_length.mp hall e he
  have hle := List.countP_le_length (p := fun x : BalancingEntry => decide (e.priority < x.priority))
    (l := (sortEntries hash kept).take units)
  rw [List.countP_append, hlast, Nat.add_zero] at hcount
  rw [List.length_take, length_sortEntries] at hself hle
  omega

variable (hn : NarrowResult hash (jobShares hash events available) ((sortedEntries hash events).map (·.demand)) available
  (queueAfter trail (jobShares hash events available)) lower upper dismissed kept vc)

include hn

theorem kept_gains {e : BalancingEntry} (he : e ∈ kept) : Gains lower upper e.share := by
  have hlow := hn.lower_eq e he
  have hupp := hn.upper_eq e he
  unfold Gains
  omega

theorem countP_gains (among : Share → Prop) [DecidablePred among] :
    (jobShares hash events available).countP (fun s => Gains lower upper s ∧ among s) =
      (shares kept).countP fun s => among s := by
  have hdismissed : (shares dismissed).countP (fun s => decide (Gains lower upper s ∧ among s)) = 0 := by
    rw [List.countP_eq_zero]
    intro s hs
    obtain ⟨e, he, rfl⟩ := List.mem_map.mp hs
    have hf := hn.fixed e he
    simp [Gains, ← hf.lower_eq, ← hf.upper_eq]
  rw [← hn.perm.countP_eq, shares_append, List.countP_append, hdismissed, Nat.zero_add]
  refine List.countP_congr fun s hs => ?_
  obtain ⟨e, he, rfl⟩ := List.mem_map.mp hs
  simp [kept_gains hn he]

theorem countP_not_gains :
    (jobShares hash events available).countP (fun s => ¬ Gains lower upper s) = dismissed.length := by
  have hall := countP_gains hn fun _ => True
  have hlen := hn.perm.length_eq
  have hsplit := List.length_eq_countP_add_countP (fun s => decide (Gains lower upper s))
    (l := jobShares hash events available)
  simp only [and_true, decide_true, List.countP_true, shares, List.length_map, List.length_append, decide_eq_true_eq] at hall hlen hsplit
  omega

theorem exists_slot (htrail : ∀ p ∈ trail, p.1 ≤ lower ∧ upper ≤ p.2)
    (hvalid : ∀ s ∈ jobShares hash events available, s.Valid) {ev : Event} (hev : ev ∈ activeEvents events)
    (hgains : Gains lower upper (shareFor events available (entryOf ev)))
    (hbefore : (jobShares hash events available).countP (fun s => ¬ Gains lower upper s) ≤ jobsBefore hash events ev) :
    ∃ e ∈ kept, e.share = shareFor events available (entryOf ev) ∧ e.originalDemand = ev.demand := by
  rw [countP_not_gains hn] at hbefore
  obtain ⟨k, hk⟩ := List.mem_iff_getElem?.mp ((mem_sortedEntries hash events _).mpr ⟨ev, hev, rfl⟩)
  have hplace := hbefore.trans (jobsBefore_le hk)
  have hjob : (jobShares hash events available)[k]? = some (shareFor events available (entryOf ev)) := by
    rw [jobShares, List.getElem?_map, hk]
    rfl
  have hmem := List.mem_of_getElem? hjob
  have hlen : dismissed.length + kept.length = (jobShares hash events available).length := by
    simpa [shares] using hn.perm.length_eq
  have hqueue : (queueAfter trail (jobShares hash events available)).length = kept.length := by
    rw [← hn.queue_eq, shares, List.length_map]
  have hopen : ∀ p ∈ trail, (shareFor events available (entryOf ev)).volume p.1 ≠
      (shareFor events available (entryOf ev)).volume p.2 := by
    intro p hp heq
    have hl := Share.volume_mono (hvalid _ hmem) (htrail p hp).1
    have hu := Share.volume_mono (hvalid _ hmem) (htrail p hp).2
    have hm := Share.volume_mono (hvalid _ hmem) hn.le
    unfold Gains at hgains
    omega
  have hkept := getElem?_queueAfter hopen hjob (by omega)
  rw [hqueue, ← hn.queue_eq, shares, List.getElem?_map, Option.map_eq_some_iff] at hkept
  obtain ⟨e, he, hshare⟩ := hkept
  have hslot : (slotDemands (dismissed ++ kept))[k]? = some ev.demand := by
    rw [hn.slots_eq, List.getElem?_map, hk]
    rfl
  rw [slotDemands, List.getElem?_map, List.getElem?_append_right hplace,
    show k - dismissed.length = k + kept.length - (jobShares hash events available).length by omega, he] at hslot
  exact ⟨e, List.mem_of_getElem? he, hshare, Option.some.inj hslot⟩

theorem entry_unique {e e' : BalancingEntry} (he : e ∈ kept) (he' : e' ∈ kept) (hshare : e.share = e'.share) : e = e' := by
  have hids : ((jobShares hash events available).map (·.jobId)).Nodup :=
    (jobIds_jobShares hash events available).nodup_iff.mpr (nodup_activeEvents events)
  have hnodup := hn.perm.nodup_iff.mpr hids.of_map
  rw [shares_append] at hnodup
  exact List.inj_on_of_nodup_map hnodup.of_append_right he he' hshare

/-- If the jobs that matter are kept in their slots, the left-over units go by demand. -/
theorem leftovers_by_demand (hslots : SlotsKept hash events available)
    (hmuch : available < VolumeShares.sumOfDemands (jobShares hash events available))
    (hrange : Narrowing (jobShares hash events available) available lower upper)
    (hflat : flat (jobShares hash events available) lower upper = true)
    (htrail : ∀ p ∈ trail, p.1 ≤ lower ∧ upper ≤ p.2)
    (hvalid : ∀ s ∈ jobShares hash events available, s.Valid) :
    ∀ s ∈ (shares (sortEntries hash kept)).take (available - total (jobShares hash events available) lower).toNat,
    ∀ t ∈ (shares (sortEntries hash kept)).drop (available - total (jobShares hash events available) lower).toNat,
    s.priority = t.priority → demandOf events t.jobId ≤ demandOf events s.jobId := by
  intro s hs t ht hp
  have hpos := hn.excess_pos
  have hunits := hn.excess_lt
  obtain ⟨units, hcast⟩ := Int.eq_ofNat_of_zero_le hpos.le
  rw [hcast, Int.toNat_natCast, shares] at hs ht
  rw [← List.map_take] at hs
  rw [← List.map_drop] at ht
  obtain ⟨ej, hj, rfl⟩ := List.mem_map.mp hs
  obtain ⟨ei, hi, rfl⟩ := List.mem_map.mp ht
  have hkeptj : ej ∈ kept := mem_sortEntries.mp (List.mem_of_mem_take hj)
  have hkepti : ei ∈ kept := mem_sortEntries.mp (List.mem_of_mem_drop hi)
  have hevent : ∀ e ∈ kept, ∃ ev ∈ activeEvents events, e.share = shareFor events available (entryOf ev) := fun e he =>
    mem_jobShares (hn.perm.mem_iff.mp (List.mem_map.mpr ⟨e, List.mem_append_right _ he, rfl⟩))
  obtain ⟨evj, hevj, hsharej⟩ := hevent ej hkeptj
  obtain ⟨evi, hevi, hsharei⟩ := hevent ei hkepti
  have hidj : ej.share.jobId = evj.jobId := congrArg Share.jobId hsharej
  have hidi : ei.share.jobId = evi.jobId := congrArg Share.jobId hsharei
  have hprioj : ej.priority = evj.priority := congrArg Share.priority hsharej
  have hprioi : ei.priority = evi.priority := congrArg Share.priority hsharei
  have hprio : evj.priority = evi.priority := hprioj.symm.trans (hp.trans hprioi)
  rw [hidj, hidi, demandOf_eq ((mem_activeEvents events evj).mp hevj).1,
    demandOf_eq ((mem_activeEvents events evi).mp hevi).1]
  by_contra hdemand
  rw [not_le] at hdemand
  have hgainsi := hsharei ▸ kept_gains hn hkepti
  have hgainsj := hsharej ▸ kept_gains hn hkeptj
  rcases hslots hmuch lower upper hrange hflat evi hevi evj hevj hprio hdemand hgainsi hgainsj with
    (hall | hnone) | hbefore
  · have hlt := lt_countP_of_drop (by omega) hi
    rw [countP_gains hn, ← hprioi] at hall
    omega
  · have hlt := countP_lt_of_take (by omega) hj
    rw [countP_gains hn, ← hprio, ← hprioj] at hnone
    omega
  · have hahead : entryBefore hash (entryOf evi) (entryOf evj) = true := by
      simp [entryBefore, entryOf, BalancingEntry.new, hprio, hdemand, hdemand.ne']
    obtain ⟨ei', hi', hshare, hslot⟩ := exists_slot hn htrail hvalid hevi hgainsi hbefore
    obtain ⟨ej', hj', hshare', hslot'⟩ := exists_slot hn htrail hvalid hevj hgainsj
      (hbefore.trans (jobsBefore_le_jobsBefore hahead))
    obtain rfl := entry_unique hn hkepti hi' (hsharei.trans hshare.symm)
    obtain rfl := entry_unique hn hkeptj hj' (hsharej.trans hshare'.symm)
    have hordered := sortEntries_ordered hash kept
    rw [← List.take_append_drop units (sortEntries hash kept)] at hordered
    have hkeys := (List.pairwise_append.mp hordered).2.2 _ hj _ hi
    have hswapped : entryBefore hash ei ej = true := by
      simp [entryBefore, hprioi, hprioj, hprio, hslot, hslot', hdemand, hdemand.ne']
    exact absurd hkeys (not_le.mpr ((entryBefore_iff hash _ _).mp hswapped))

end slots

theorem Final.monotone {hash : Int → Nat} {events : EventMap} {numWorkers : Nat} {loadFactor : ℚ} {fuel : Nat}
    {vc : VolumeCalculator} (h : Accepted events numWorkers loadFactor)
    (hslots : SlotsKept hash events (getAvailableVolume numWorkers loadFactor))
    (hf : Final hash events (getAvailableVolume numWorkers loadFactor) fuel vc) : MonotoneVolumes events vc := by
  refine (Final.monotone_iff h hf).mpr fun hmuch fuel' trail lower upper hrun' => ?_
  cases hf with
  | fulfilled _ hall _ => exact absurd hmuch (not_lt.mpr hall)
  | searched r hover hrun hresult =>
      obtain rfl := multiplierSearch_unique hrun hrun'
      obtain ⟨dismissed, kept, hn⟩ := hresult
      obtain ⟨hrange, hflat, htrail⟩ := narrowing_of_search hover hrun
      rw [← shares_kept hn]
      exact leftovers_by_demand hn hslots hmuch hrange hflat htrail fun s hs => h.valid hash hs

end Mallob.KeptSlots
