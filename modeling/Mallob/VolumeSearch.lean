import Mallob.Bisection
import Mallob.VolumeSweep

namespace Mallob.VolumeSearch

open VolumeCalculator VolumeSweep Bisection

def flat (ss : List Share) (lower upper : ℚ) : Bool :=
  ss.all fun s => decide (s.volume upper - s.volume lower ≤ 1)

/-- The rule for the next multiplier, which only reads the sign of the excess. -/
def probe (center mid lower upper : ℚ) (up : Bool) : ℚ :=
  nextMid center mid lower upper (if up then 1 else -1)

def queueAfter (trail : List (ℚ × ℚ)) (queue : List Share) : List Share :=
  trail.foldl (fun q p => sweep p.1 p.2 [] q) queue

def Guided (center lower mid upper : ℚ) : Prop :=
  mid = 1 ∧ lower < center ∧ center < upper ∨ 1 ≤ lower ∨ upper ≤ 1

theorem probe_of_ne {center mid lower upper : ℚ} {up : Bool} (h : mid ≠ 1) :
    probe center mid lower upper up = (lower + upper) / 2 := by
  simp [probe, nextMid, h]

theorem probe_up_inside {center lower mid upper : ℚ} (hg : Guided center lower mid upper) (hl : lower < mid)
    (hu : mid < upper) : mid < probe center mid mid upper true ∧ probe center mid mid upper true < upper := by
  by_cases hm : mid = 1
  · have hc : center < upper := by
      rcases hg with h | h | h
      · exact h.2.2
      · linarith
      · linarith
    simp only [probe, nextMid, hm, if_true]
    norm_num
    subst hm
    split
    · next h => exact ⟨h, hc⟩
    · constructor <;> linarith
  · rw [probe_of_ne hm]
    constructor <;> linarith

theorem probe_down_inside {center lower mid upper : ℚ} (hg : Guided center lower mid upper) (hl : lower < mid)
    (hu : mid < upper) : lower < probe center mid lower mid false ∧ probe center mid lower mid false < mid := by
  by_cases hm : mid = 1
  · have hc : lower < center := by
      rcases hg with h | h | h
      · exact h.2.1
      · linarith
      · linarith
    simp only [probe, nextMid, hm]
    norm_num
    subst hm
    split
    · next h => exact ⟨hc, h⟩
    · constructor <;> linarith
  · rw [probe_of_ne hm]
    constructor <;> linarith

theorem Guided.up {center lower mid upper x : ℚ} (hg : Guided center lower mid upper) (hl : lower < mid) :
    Guided center mid x upper := by
  right
  rcases hg with h | h | h
  · left; rw [h.1]
  · left; linarith
  · right; exact h

theorem Guided.down {center lower mid upper x : ℚ} (hg : Guided center lower mid upper) (hu : mid < upper) :
    Guided center lower x mid := by
  right
  rcases hg with h | h | h
  · right; rw [h.1]
  · left; exact h
  · right; linarith

theorem handOut_fst (n : Int) (es : List BalancingEntry) :
    (handOut n es).1 = (es.take n.toNat).map (fun e => { e with volume := e.volumeLower + 1 }) ++
      (es.drop n.toNat).map (fun e => { e with volume := e.volumeLower }) := by
  induction es generalizing n with
  | nil => simp [handOut]
  | cons e es ih =>
      rw [handOut]
      by_cases h : 0 < n
      · obtain ⟨m, hm⟩ : ∃ m : Nat, n.toNat = m + 1 := ⟨(n - 1).toNat, by omega⟩
        have hm' : (n - 1).toNat = m := by omega
        simp only [if_pos h, ih, hm, hm', List.take_succ_cons, List.drop_succ_cons, List.map_cons, List.cons_append]
      · have hm : n.toNat = 0 := by omega
        simp only [if_neg h, ih, hm, List.take_zero, List.drop_zero, List.map_nil, List.nil_append, List.map_cons]

theorem handOut_snd (n : Int) (es : List BalancingEntry) (h0 : 0 ≤ n) (hn : n ≤ es.length) :
    (handOut n es).2 = 0 := by
  induction es generalizing n with
  | nil => simp only [handOut, List.length_nil] at hn ⊢; omega
  | cons e es ih =>
      simp only [handOut, List.length_cons] at hn ⊢
      split
      · exact ih (n - 1) (by omega) (by push_cast at hn; omega)
      · exact ih n h0 (by omega)

theorem volumes_handOut (n : Int) (es : List BalancingEntry) (h0 : 0 ≤ n) (hn : n ≤ es.length) :
    volumes (handOut n es).1 = (es.map (·.volumeLower)).sum + n := by
  induction es generalizing n with
  | nil => simp only [handOut, List.length_nil] at hn ⊢; simp; omega
  | cons e es ih =>
      simp only [handOut, List.length_cons, List.map_cons, List.sum_cons] at hn ⊢
      split
      · rw [volumes_cons, ih (n - 1) (by omega) (by push_cast at hn; omega)]
        ring
      · rw [volumes_cons, ih n h0 (by omega)]
        ring

theorem shares_handOut (n : Int) (es : List BalancingEntry) : shares (handOut n es).1 = shares es := by
  have htake : shares ((es.take n.toNat).map fun e => { e with volume := e.volumeLower + 1 }) =
      (shares es).take n.toNat := by
    rw [shares, List.map_map, shares, ← List.map_take]; rfl
  have hdrop : shares ((es.drop n.toNat).map fun e => { e with volume := e.volumeLower }) =
      (shares es).drop n.toNat := by
    rw [shares, List.map_map, shares, ← List.map_drop]; rfl
  rw [handOut_fst, shares_append, htake, hdrop, List.take_append_drop]

theorem mem_handOut {n : Int} {es : List BalancingEntry} {e : BalancingEntry} (h : e ∈ (handOut n es).1) :
    ∃ e₀ ∈ es, e.share = e₀.share ∧ e₀.volumeLower ≤ e.volume ∧ e.volume ≤ e₀.volumeLower + 1 := by
  rw [handOut_fst, List.mem_append, List.mem_map, List.mem_map] at h
  rcases h with ⟨e₀, h₀, rfl⟩ | ⟨e₀, h₀, rfl⟩
  · exact ⟨e₀, List.mem_of_mem_take h₀, rfl, by simp, le_rfl⟩
  · exact ⟨e₀, List.mem_of_mem_drop h₀, rfl, le_rfl, by simp⟩

structure ExactResult (ss : List Share) (available : Int) (x : ℚ) (vc : VolumeCalculator) : Prop where
  perm : (shares vc.entries).Perm ss
  nonneg : 0 ≤ x
  total_eq : total ss x = available
  volume_eq : ∀ e ∈ vc.entries, e.volume = e.share.volume x

/-- The search ended with a range in which each open job gains one unit. The
kept entries stand in the given order of jobs in the last of the slots. -/
structure NarrowResult (hash : Int → Nat) (ss : List Share) (slots : List Int) (available : Int)
    (queue : List Share) (lower upper : ℚ) (dismissed kept : List BalancingEntry) (vc : VolumeCalculator) : Prop where
  entries_eq : vc.entries = dismissed ++
    (handOut (available - total ss lower) (sortEntries hash kept)).1
  perm : (shares (dismissed ++ kept)).Perm ss
  slots_eq : slotDemands (dismissed ++ kept) = slots
  queue_eq : shares kept = queue
  nonneg : 0 ≤ lower
  le : lower ≤ upper
  excess_pos : 0 < available - total ss lower
  excess_lt : available - total ss lower < kept.length
  fixed : ∀ e ∈ dismissed, Fixed lower upper e
  lower_eq : ∀ e ∈ kept, e.volumeLower = e.share.volume lower
  upper_eq : ∀ e ∈ kept, e.share.volume upper = e.volumeLower + 1

def Result (hash : Int → Nat) (ss : List Share) (slots : List Int) (available : Int) (queue : List Share)
    (vc : VolumeCalculator) : Outcome → Prop
  | .exact x => ExactResult ss available x vc
  | .narrow lower upper =>
      ∃ dismissed kept, NarrowResult hash ss slots available queue lower upper dismissed kept vc

theorem flat_iff {available : Int} {lower mid upper : ℚ} {dismissed kept : List BalancingEntry}
    {vc : VolumeCalculator} (h : Pass available lower mid upper dismissed kept vc) {ss : List Share}
    (hp : (shares (dismissed ++ kept)).Perm ss) :
    vc.maxVolumeDiffBetweenBounds ≤ 1 ↔ flat ss lower upper = true := by
  rw [h.diff_iff, flat, List.all_eq_true]
  constructor
  · intro hk s hs
    obtain ⟨e, he, rfl⟩ := List.mem_map.mp (hp.mem_iff.mpr hs)
    rcases List.mem_append.mp he with hd | hk'
    · have hf := h.fixed e hd
      rw [← hf.lower_eq, ← hf.upper_eq]
      simp
    · have hpr := h.probed e hk'
      rw [← hpr.lower_eq, ← hpr.upper_eq]
      simpa using hk e hk'
  · intro hs e he
    have hpr := h.probed e he
    have := hs e.share (hp.mem_iff.mp (List.mem_map.mpr ⟨e, by simp [he], rfl⟩))
    rw [← hpr.lower_eq, ← hpr.upper_eq] at this
    simpa using this

theorem total_of_pass {available : Int} {lower mid upper : ℚ} {dismissed kept : List BalancingEntry}
    {vc : VolumeCalculator} (h : Pass available lower mid upper dismissed kept vc) {ss : List Share}
    (hp : (shares (dismissed ++ kept)).Perm ss) :
    total ss lower = volumes dismissed + (kept.map (·.volumeLower)).sum ∧
      total ss upper = volumes dismissed + (kept.map (·.volumeUpper)).sum := by
  have hk (f : BalancingEntry → Int) (x : ℚ) (hf : ∀ e ∈ kept, f e = e.share.volume x) :
      total (shares kept) x = (kept.map f).sum := by
    rw [total, shares, List.map_map]
    exact congrArg List.sum (List.map_congr_left fun e he => (hf e he).symm)
  constructor
  · rw [← total_perm hp, shares_append, total_append,
      ← volumes_eq_total fun e he => (h.fixed e he).lower_eq, hk _ lower fun e he => (h.probed e he).lower_eq]
  · rw [← total_perm hp, shares_append, total_append,
      ← volumes_eq_total fun e he => (h.fixed e he).upper_eq, hk _ upper fun e he => (h.probed e he).upper_eq]

/-- In the base case the excess at the lower end suffices for some, but not for
all of the open jobs, so none of the assertions fails. -/
theorem finalize_spec (hash : Int → Nat) {available : Int} {lower mid upper : ℚ}
    {dismissed kept : List BalancingEntry} {vc : VolumeCalculator}
    (h : Pass available lower mid upper dismissed kept vc) {ss : List Share}
    (hp : (shares (dismissed ++ kept)).Perm ss) (hb : Brackets (total ss) available lower upper)
    (h0 : 0 ≤ lower) (hflat : vc.maxVolumeDiffBetweenBounds ≤ 1) :
    ∃ vc', finalize hash vc (available - total ss lower) = some vc' ∧
      NarrowResult hash ss (slotDemands (dismissed ++ kept)) available (shares kept) lower upper dismissed kept
        vc' := by
  have hone : ∀ e ∈ kept, e.volumeUpper = e.volumeLower + 1 := by
    intro e he
    have hpr := h.probed e he
    have hle : e.volumeLower ≤ e.volumeUpper := by
      rw [hpr.lower_eq, hpr.upper_eq]
      exact Share.volume_mono (h.valid e (by simp [he])) hb.lt.le
    have := h.diff_iff.mp hflat e he
    have := hpr.ne
    omega
  have hsum : (kept.map (·.volumeUpper)).sum = (kept.map (·.volumeLower)).sum + kept.length := by
    rw [List.map_congr_left hone, List.sum_map_add]
    simp
  obtain ⟨hlow, hup⟩ := total_of_pass h hp
  have hpos : 0 < available - total ss lower := by have := hb.below; omega
  have hlt : available - total ss lower < kept.length := by have := hb.above; omega
  have hlen : 0 < (vc.entries.length : Int) - vc.numDismissedJobs := by
    rw [h.entries_eq, h.count_eq, List.length_append]; push_cast; omega
  have hsort : (sortRemainingEntries hash vc).entries =
      dismissed ++ sortEntries hash kept := by
    simp [sortRemainingEntries, h.entries_eq, h.count_eq]
  have hcount : (sortRemainingEntries hash vc).numDismissedJobs = dismissed.length := h.count_eq
  have hstill : (handOut (available - total ss lower) (sortEntries hash kept)).2 = 0 :=
    handOut_snd _ _ hpos.le (by rw [length_sortEntries]; exact hlt.le)
  rw [finalize, if_pos ⟨hlen, hpos⟩]
  simp only [hsort, hcount, List.drop_left, List.take_left, hstill, if_true]
  refine ⟨_, rfl, rfl, hp, rfl, rfl, h0, hb.lt.le, hpos, hlt, h.fixed, fun e he => (h.probed e he).lower_eq, ?_⟩
  intro e he
  rw [← (h.probed e he).upper_eq]
  exact hone e he

/-- The state of the loop stands for a range which brackets the available
volume. The jobs stay the same up to order, and so do the demands in the slots. -/
structure Sim (center : ℚ) (ss : List Share) (slots : List Int) (available : Int)
    (dismissed rest : List BalancingEntry) (s : Search) : Prop where
  prepared : Prepared available s.lower s.upper dismissed rest s.vc
  perm : (shares (dismissed ++ rest)).Perm ss
  slots_eq : slotDemands (dismissed ++ rest) = slots
  center_eq : s.vc.centerOfMassOfMultiplier = center
  brackets : Brackets (total ss) available s.lower s.upper
  nonneg : 0 ≤ s.lower
  lower_lt : s.lower < s.mid
  lt_upper : s.mid < s.upper
  guided : Guided center s.lower s.mid s.upper
  best_ne : s.bestExcess ≠ 0
  excess_eq : s.excessAtLeft = available - total ss s.lower

/-- One evaluation: what it decides, and the state it leaves for the next one. -/
theorem sim_step {center : ℚ} {ss : List Share} {slots : List Int} {available : Int}
    {dismissed rest : List BalancingEntry} {s : Search} (h : Sim center ss slots available dismissed rest s) :
    ∃ dismissed' kept excess, calculateExcessVolumeOrNegative s.vc s.mid s.lower s.upper =
        ((calculateExcessVolumeOrNegative s.vc s.mid s.lower s.upper).1, excess) ∧
      Pass available s.lower s.mid s.upper dismissed' kept
        (calculateExcessVolumeOrNegative s.vc s.mid s.lower s.upper).1 ∧
      shares kept = sweep s.lower s.upper [] (shares rest) ∧
      (shares (dismissed' ++ kept)).Perm ss ∧ slotDemands (dismissed' ++ kept) = slots ∧
      (calculateExcessVolumeOrNegative s.vc s.mid s.lower s.upper).1.centerOfMassOfMultiplier = center ∧
      (excess = 0 ↔ total ss s.mid = available) ∧ (0 < excess ↔ total ss s.mid < available) ∧
      (excess < 0 ↔ available < total ss s.mid) ∧ (0 < excess → excess = available - total ss s.mid) := by
  obtain ⟨dismissed', kept, hpass, hq, hperm, hslots, htrack, hcenter⟩ :=
    excess_spec h.prepared h.nonneg h.lower_lt.le h.lt_upper.le
  rw [total_perm h.perm] at htrack
  refine ⟨dismissed', kept, (calculateExcessVolumeOrNegative s.vc s.mid s.lower s.upper).2, rfl, hpass, hq,
    hperm.trans h.perm, hslots.trans h.slots_eq, hcenter.trans h.center_eq, ?_⟩
  generalize (calculateExcessVolumeOrNegative s.vc s.mid s.lower s.upper).2 = excess at htrack
  unfold Tracks at htrack
  refine ⟨?_, ?_, ?_, ?_⟩ <;> omega

def advance (s : Search) : Search :=
  let r := calculateExcessVolumeOrNegative s.vc s.mid s.lower s.upper
  let lower := if r.2 > 0 then s.mid else s.lower
  let upper := if r.2 < 0 then s.mid else s.upper
  { vc := r.1
    lower := lower
    upper := upper
    mid := nextMid r.1.centerOfMassOfMultiplier s.mid lower upper r.2
    bestExcess := if s.bestExcess = -1 ∨ |r.2| < |s.bestExcess| then r.2 else s.bestExcess
    excessAtLeft := if r.2 > 0 then r.2 else s.excessAtLeft }

/-- The range shrinks to the side where the available volume lies, as in the bisection of the total volume. -/
theorem Sim.advance {center : ℚ} {ss : List Share} {slots : List Int} {available : Int}
    {dismissed rest : List BalancingEntry} {s : Search} (h : Sim center ss slots available dismissed rest s)
    (hne : total ss s.mid ≠ available) :
    ∃ dismissed' kept, Sim center ss slots available dismissed' kept (VolumeSearch.advance s) ∧
      shares kept = sweep s.lower s.upper [] (shares rest) ∧
      (VolumeSearch.advance s).lower = raised (total ss) available s.lower s.mid ∧
      (VolumeSearch.advance s).upper = lowered (total ss) available s.upper s.mid ∧
      (VolumeSearch.advance s).mid = probe center s.mid (raised (total ss) available s.lower s.mid)
        (lowered (total ss) available s.upper s.mid) (decide (total ss s.mid < available)) := by
  obtain ⟨dismissed', kept, excess, hcall, hpass, hq, hperm, hslots, hcenter, hzero, hpos, hneg, hex⟩ := sim_step h
  rw [VolumeSearch.advance, hcall]
  generalize (calculateExcessVolumeOrNegative s.vc s.mid s.lower s.upper).1 = vc at hpass hcenter
  have hexcess : excess ≠ 0 := fun he => hne (hzero.mp he)
  have hbest : (if s.bestExcess = -1 ∨ |excess| < |s.bestExcess| then excess else s.bestExcess) ≠ 0 := by
    split
    · exact hexcess
    · exact h.best_ne
  have hshrink := h.brackets.shrink h.lower_lt h.lt_upper hne
  refine ⟨dismissed', kept, ?_⟩
  rcases lt_or_gt_of_ne hne with hlt | hgt
  · have he : 0 < excess := hpos.mpr hlt
    have hnext : nextMid center s.mid s.mid s.upper excess = probe center s.mid s.mid s.upper true := by
      simp [probe, nextMid, he, he.not_gt]
    rw [raised, lowered, if_pos hlt, if_neg hlt.not_gt] at hshrink ⊢
    simp only [gt_iff_lt, he, if_true, he.not_gt, if_false, hnext, hcenter, decide_eq_true hlt]
    obtain ⟨hin1, hin2⟩ := probe_up_inside h.guided h.lower_lt h.lt_upper
    exact ⟨⟨hpass.next h.nonneg h.lower_lt h.lt_upper (Or.inl ⟨rfl, rfl⟩), hperm, hslots, hcenter, hshrink,
      h.nonneg.trans h.lower_lt.le, hin1, hin2, h.guided.up h.lower_lt, hbest, hex he⟩, hq, trivial, trivial, trivial⟩
  · have he : excess < 0 := hneg.mpr hgt
    have hnext : nextMid center s.mid s.lower s.mid excess = probe center s.mid s.lower s.mid false := by
      simp [probe, nextMid, he, he.not_gt]
    rw [raised, lowered, if_neg hgt.not_gt, if_pos hgt] at hshrink ⊢
    simp only [gt_iff_lt, he, if_true, he.not_gt, if_false, hnext, hcenter, decide_eq_false hgt.not_gt]
    obtain ⟨hin1, hin2⟩ := probe_down_inside h.guided h.lower_lt h.lt_upper
    exact ⟨⟨hpass.next h.nonneg h.lower_lt h.lt_upper (Or.inr ⟨rfl, rfl⟩), hperm, hslots, hcenter, hshrink,
      h.nonneg, hin1, hin2, h.guided.down h.lt_upper, hbest, h.excess_eq⟩, hq, trivial, trivial, trivial⟩

/-- The loop of the source refines the bisection of the total volume: with the
fuel with which the bisection ends it returns, past all assertions. -/
theorem search_refines (hash : Int → Nat) {center : ℚ} {ss : List Share} {slots : List Int} {available : Int}
    (fuel : Nat) {dismissed rest : List BalancingEntry} {s : Search}
    (h : Sim center ss slots available dismissed rest s) {r : Run}
    (hr : bisect (total ss) available (flat ss) (probe center) fuel s.lower s.upper s.mid = some r) :
    ∃ vc', search hash fuel s = some vc' ∧
      Result hash ss slots available (queueAfter r.trail (shares rest)) vc' r.outcome := by
  induction fuel generalizing dismissed rest s r with
  | zero => cases hr
  | succ fuel ih =>
      obtain ⟨dismissed', kept, excess, hcall, hpass, hq, hperm, hslots, hcenter, hzero, hpos, hneg, hex⟩ := sim_step h
      rw [search, hcall]
      generalize hvc : (calculateExcessVolumeOrNegative s.vc s.mid s.lower s.upper).1 = vc at hpass hcenter
      rw [bisect] at hr
      split at hr
      · next he =>
          obtain rfl := Option.some.inj hr
          have hexcess : excess = 0 := hzero.mpr he
          have himp : (s.bestExcess = -1 ∨ |excess| < |s.bestExcess|) ∧ excess = 0 :=
            ⟨Or.inr (by rw [hexcess]; simpa using h.best_ne), hexcess⟩
          refine ⟨vc, by simp only [if_pos himp], ?_, h.nonneg.trans h.lower_lt.le, he, ?_⟩
          · rw [hpass.entries_eq]; exact hperm
          · intro e hm
            rw [hpass.entries_eq] at hm
            rcases List.mem_append.mp hm with hd | hk
            · exact (hpass.fixed e hd).volume_eq (hpass.valid e hm) h.lower_lt.le h.lt_upper.le
            · exact (hpass.probed e hk).mid_eq
      · next hne =>
          have hexcess : excess ≠ 0 := fun he => hne (hzero.mp he)
          have himp : ¬ ((s.bestExcess = -1 ∨ |excess| < |s.bestExcess|) ∧ excess = 0) := fun hh => hexcess hh.2
          simp only [if_neg himp]
          split at hr
          · next hflat =>
              obtain rfl := Option.some.inj hr
              have hdiff := (flat_iff hpass hperm).mpr hflat
              obtain ⟨vc', hf, hres⟩ := finalize_spec hash hpass hperm h.brackets h.nonneg hdiff
              rw [hslots] at hres
              refine ⟨vc', by rw [if_pos hdiff, h.excess_eq, hf], dismissed', kept, ?_⟩
              simpa only [queueAfter, List.foldl_cons, List.foldl_nil, ← hq] using hres
          · next hflat =>
              have hdiff : ¬ vc.maxVolumeDiffBetweenBounds ≤ 1 := fun hh => hflat ((flat_iff hpass hperm).mp hh)
              obtain ⟨q, hbis, rfl⟩ := Option.map_eq_some_iff.mp hr
              obtain ⟨dismissed₁, kept₁, hsim, hq₁, hlower, hupper, hmid⟩ := h.advance hne
              rw [← hlower, ← hupper] at hmid hbis
              rw [← hmid] at hbis
              obtain ⟨vc', hs, hres⟩ := ih hsim hbis
              rw [hq₁] at hres
              refine ⟨vc', ?_, hres⟩
              rw [VolumeSearch.advance, hcall, hvc] at hs
              rw [if_neg hdiff]
              exact hs

end Mallob.VolumeSearch
