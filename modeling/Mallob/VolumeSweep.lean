import Mallob.VolumeCalculator

namespace Mallob.VolumeSweep

open VolumeCalculator BalancingEntry

/-- The order in which one pass over a range leaves the jobs it keeps. A job
with the same volume everywhere in the range is dismissed, and the job at the
front of those kept so far takes over its place. -/
def sweep (lower upper : ℚ) : List Share → List Share → List Share
  | queue, [] => queue
  | queue, s :: rest =>
      if s.volume lower = s.volume upper then sweep lower upper (queue.rotate 1) rest
      else sweep lower upper (queue ++ [s]) rest

structure Fixed (lower upper : ℚ) (e : BalancingEntry) : Prop where
  lower_eq : e.volume = e.share.volume lower
  upper_eq : e.volume = e.share.volume upper

structure Probed (lower mid upper : ℚ) (e : BalancingEntry) : Prop where
  lower_eq : e.volumeLower = e.share.volume lower
  mid_eq : e.volume = e.share.volume mid
  upper_eq : e.volumeUpper = e.share.volume upper
  ne : e.volumeLower ≠ e.volumeUpper

structure Ready (leftHalf rightHalf : Bool) (lower upper : ℚ) (e : BalancingEntry) : Prop where
  lower_eq : (cacheVolume leftHalf rightHalf e).volumeLower = e.share.volume lower
  upper_eq : (cacheVolume leftHalf rightHalf e).volumeUpper = e.share.volume upper

def Tracks (available utilization total : Int) : Prop :=
  utilization = total ∨ available < utilization ∧ available < total

def volumes (es : List BalancingEntry) : Int := (es.map (·.volume)).sum

def shares (es : List BalancingEntry) : List Share := es.map (·.share)

def slotDemands (es : List BalancingEntry) : List Int := es.map (·.originalDemand)

@[simp] theorem volumes_nil : volumes [] = 0 := rfl

@[simp] theorem volumes_cons (e : BalancingEntry) (es : List BalancingEntry) :
    volumes (e :: es) = e.volume + volumes es := by simp [volumes]

@[simp] theorem volumes_append (xs ys : List BalancingEntry) :
    volumes (xs ++ ys) = volumes xs + volumes ys := by simp [volumes]

@[simp] theorem shares_append (xs ys : List BalancingEntry) : shares (xs ++ ys) = shares xs ++ shares ys := by
  simp [shares]

@[simp] theorem shares_cons (e : BalancingEntry) (es : List BalancingEntry) :
    shares (e :: es) = e.share :: shares es := rfl

@[simp] theorem shares_nil : shares [] = [] := rfl

@[simp] theorem slotDemands_append (xs ys : List BalancingEntry) :
    slotDemands (xs ++ ys) = slotDemands xs ++ slotDemands ys := by simp [slotDemands]

@[simp] theorem slotDemands_cons (e : BalancingEntry) (es : List BalancingEntry) :
    slotDemands (e :: es) = e.originalDemand :: slotDemands es := rfl

@[simp] theorem slotDemands_nil : slotDemands [] = [] := rfl

theorem Tracks.add {available utilization total v : Int} (h : Tracks available utilization total) (hv : 0 ≤ v) :
    Tracks available (utilization + v) (total + v) := by
  unfold Tracks at *
  omega

theorem Tracks.add_capped {available utilization total v : Int} (h : Tracks available utilization total)
    (hv : 0 ≤ v) :
    Tracks available (if utilization ≤ available then utilization + v else utilization) (total + v) := by
  unfold Tracks at *
  split <;> omega

@[simp] theorem share_cacheVolume (l r : Bool) (e : BalancingEntry) : (cacheVolume l r e).share = e.share := by
  cases l <;> cases r <;> rfl

@[simp] theorem originalDemand_cacheVolume (l r : Bool) (e : BalancingEntry) :
    (cacheVolume l r e).originalDemand = e.originalDemand := by
  cases l <;> cases r <;> rfl

section scan

variable (available : Int) (leftHalf rightHalf : Bool) (lower mid upper : ℚ)

/-- What holds between two rounds of the scan: the dismissed entries first,
then those kept in this pass, then those still to be visited. -/
structure ScanInv (dismissed kept rest : List BalancingEntry) (s : Scan) : Prop where
  entries_eq : s.entries = dismissed ++ kept ++ rest
  count_eq : s.numDismissedJobs = dismissed.length
  base_eq : s.baseUtilization = volumes dismissed
  utilization_tracks : Tracks available s.utilization (volumes (dismissed ++ kept))
  diff_iff : s.maxVolumeDiff ≤ 1 ↔ ∀ e ∈ kept, e.volumeUpper - e.volumeLower ≤ 1
  fixed : ∀ e ∈ dismissed, Fixed lower upper e
  probed : ∀ e ∈ kept, Probed lower mid upper e
  ready : ∀ e ∈ rest, Ready leftHalf rightHalf lower upper e
  valid : ∀ e ∈ dismissed ++ kept ++ rest, e.share.Valid

variable {available leftHalf rightHalf lower mid upper}
variable {dismissed kept rest : List BalancingEntry} {e : BalancingEntry} {s : Scan}

theorem evaluate_inv (h : ScanInv available leftHalf rightHalf lower mid upper dismissed kept (e :: rest) s)
    (hmid : 0 ≤ mid) (hne : e.share.volume lower ≠ e.share.volume upper) :
    ∃ e', e'.share = e.share ∧ e'.originalDemand = e.originalDemand ∧
      ScanInv available leftHalf rightHalf lower mid upper dismissed (kept ++ [e']) rest
        (scanStep available mid leftHalf rightHalf s (dismissed.length + kept.length)) := by
  have hr := h.ready e (by simp)
  have hvalid : e.share.Valid := h.valid e (by simp)
  have hget : s.entries[dismissed.length + kept.length]? = some e := by simp [h.entries_eq]
  have hne' : (cacheVolume leftHalf rightHalf e).volumeLower ≠ (cacheVolume leftHalf rightHalf e).volumeUpper := by
    rw [hr.lower_eq, hr.upper_eq]; exact hne
  have hv : (cacheVolume leftHalf rightHalf e).getVolume mid = e.share.volume mid := by
    rw [getVolume_eq _ (by simpa using hvalid) hmid, share_cacheVolume]
  obtain ⟨e', he'⟩ : ∃ e', e' = { cacheVolume leftHalf rightHalf e with volume := e.share.volume mid } := ⟨_, rfl⟩
  have hshare : e'.share = e.share := by rw [he']; exact share_cacheVolume leftHalf rightHalf e
  have hprobed : Probed lower mid upper e' := by
    refine ⟨?_, ?_, ?_, ?_⟩
    · rw [hshare, ← hr.lower_eq, he']
    · rw [hshare, he']
    · rw [hshare, ← hr.upper_eq, he']
    · rw [he']; exact hne'
  refine ⟨e', hshare, by rw [he']; exact originalDemand_cacheVolume leftHalf rightHalf e, ?_⟩
  rw [scanStep, hget]
  simp only [if_neg hne', evaluate, hv, ← he']
  refine ⟨?_, h.count_eq, h.base_eq, ?_, ?_, h.fixed, ?_, fun x hx => h.ready x (by simp [hx]), ?_⟩
  · simp [h.entries_eq, List.append_assoc]
  · have := h.utilization_tracks.add_capped ((Share.one_le_volume e.share mid).trans' zero_le_one)
    simpa [add_assoc, hprobed.mid_eq, hshare] using this
  · have hl : e'.volumeLower = (cacheVolume leftHalf rightHalf e).volumeLower := by rw [he']
    have hu : e'.volumeUpper = (cacheVolume leftHalf rightHalf e).volumeUpper := by rw [he']
    simp [h.diff_iff, or_imp, forall_and, hl, hu]
  · intro x hx
    rcases List.mem_append.mp hx with hx | hx
    · exact h.probed x hx
    · rw [List.mem_singleton.mp hx]; exact hprobed
  · intro x hx
    simp only [List.append_assoc, List.mem_append, List.mem_singleton] at hx
    rcases hx with hx | hx | hx | hx
    · exact h.valid x (by simp [hx])
    · exact h.valid x (by simp [hx])
    · rw [hx, hshare]; exact hvalid
    · exact h.valid x (by simp [hx])

/-- A round which dismisses its entry: the entry joins the dismissed ones, and
the first entry kept so far moves to its place. The demands by which entries
are sorted do not move. -/
theorem dismiss_inv (h : ScanInv available leftHalf rightHalf lower mid upper dismissed kept (e :: rest) s)
    (heq : e.share.volume lower = e.share.volume upper) :
    ∃ dismissed' kept', dismissed'.length = dismissed.length + 1 ∧ kept'.length = kept.length ∧
      shares dismissed' = shares dismissed ++ [e.share] ∧ shares kept' = (shares kept).rotate 1 ∧
      slotDemands (dismissed' ++ kept') = slotDemands (dismissed ++ kept) ++ [e.originalDemand] ∧
      ScanInv available leftHalf rightHalf lower mid upper dismissed' kept' rest
        (scanStep available mid leftHalf rightHalf s (dismissed.length + kept.length)) := by
  have hr := h.ready e (by simp)
  have hvalid : e.share.Valid := h.valid e (by simp)
  have hget : s.entries[dismissed.length + kept.length]? = some e := by simp [h.entries_eq]
  have heq' : (cacheVolume leftHalf rightHalf e).volumeLower = (cacheVolume leftHalf rightHalf e).volumeUpper := by
    rw [hr.lower_eq, hr.upper_eq]; exact heq
  obtain ⟨job, hjob⟩ : ∃ job, job = { cacheVolume leftHalf rightHalf e with
    volume := (cacheVolume leftHalf rightHalf e).volumeLower } := ⟨_, rfl⟩
  have hshare : job.share = e.share := by rw [hjob]; exact share_cacheVolume leftHalf rightHalf e
  have hdemand : job.originalDemand = e.originalDemand := by
    rw [hjob]; exact originalDemand_cacheVolume leftHalf rightHalf e
  have hvol : job.volume = e.share.volume lower := by rw [hjob]; exact hr.lower_eq
  have hlow : (cacheVolume leftHalf rightHalf e).volumeLower = job.volume := by rw [hjob]
  have hpos : 0 ≤ job.volume := by rw [hvol]; exact (Share.one_le_volume _ _).trans' zero_le_one
  have hfixed : Fixed lower upper job := ⟨by rw [hvol, hshare], by rw [hvol, hshare, heq]⟩
  rw [scanStep, hget]
  simp only [if_pos heq', dismiss, ← hjob]
  cases kept with
  | nil =>
      refine ⟨dismissed ++ [job], [], by simp, rfl, by simp [hshare], by simp, by simp [hdemand], ?_⟩
      refine ⟨?_, ?_, ?_, ?_, ?_, ?_, by simp, fun x hx => h.ready x (by simp [hx]), ?_⟩
      · simp [h.entries_eq, h.count_eq, dismissAndSwapWith_self]
      · simp [h.count_eq]
      · simp [h.base_eq, hlow]
      · simpa [hlow] using h.utilization_tracks.add hpos
      · exact h.diff_iff
      · intro x hx
        rcases List.mem_append.mp hx with hx | hx
        · exact h.fixed x hx
        · rw [List.mem_singleton.mp hx]; exact hfixed
      · intro x hx
        simp only [List.append_nil, List.append_assoc, List.mem_append, List.mem_singleton] at hx
        rcases hx with hx | hx | hx
        · exact h.valid x (by simp [hx])
        · rw [hx, hshare]; exact hvalid
        · exact h.valid x (by simp [hx])
  | cons k ks =>
      have hkv : k.share.Valid := h.valid k (by simp)
      have hk := h.probed k (by simp)
      obtain ⟨r, hswap⟩ : ∃ r, r = job.dismissAndSwapWith k := ⟨_, rfl⟩
      have h1 : r.1.share = k.share := by rw [hswap]; rfl
      have h2 : r.2.share = job.share := by rw [hswap]; rfl
      have hv1 : r.1.volume = k.volume := by rw [hswap]; rfl
      have hv2 : r.2.volume = job.volume := by rw [hswap]; rfl
      have hl1 : r.1.volumeLower = k.volumeLower := by rw [hswap]; rfl
      have hu1 : r.1.volumeUpper = k.volumeUpper := by rw [hswap]; rfl
      have hd1 : r.1.originalDemand = job.originalDemand := by rw [hswap]; rfl
      have hd2 : r.2.originalDemand = k.originalDemand := by rw [hswap]; rfl
      have hk1 : Probed lower mid upper r.1 :=
        ⟨by rw [hl1, h1]; exact hk.lower_eq, by rw [hv1, h1]; exact hk.mid_eq,
          by rw [hu1, h1]; exact hk.upper_eq, by rw [hl1, hu1]; exact hk.ne⟩
      have hf2 : Fixed lower upper r.2 :=
        ⟨by rw [hv2, h2]; exact hfixed.lower_eq, by rw [hv2, h2]; exact hfixed.upper_eq⟩
      have hother : (s.entries.set (dismissed.length + (k :: ks).length) job).getD s.numDismissedJobs job = k := by
        simp [h.entries_eq, h.count_eq]
      rw [hother, ← hswap]
      refine ⟨dismissed ++ [r.2], ks ++ [r.1], by simp, by simp, by simp [h2, hshare], by simp [h1],
        by simp [hd1, hd2, hdemand], ?_⟩
      refine ⟨?_, ?_, ?_, ?_, ?_, ?_, ?_, fun x hx => h.ready x (by simp [hx]), ?_⟩
      · simp [h.entries_eq, h.count_eq]
      · simp [h.count_eq]
      · simp [h.base_eq, hlow, hv2]
      · have := h.utilization_tracks.add hpos
        have he : volumes (dismissed ++ [r.2] ++ (ks ++ [r.1])) = volumes (dismissed ++ k :: ks) + job.volume := by
          simp only [volumes_append, volumes_cons, volumes_nil, hv1, hv2]
          ring
        rw [he, hlow]
        exact this
      · rw [h.diff_iff]
        simp only [List.mem_cons, List.mem_append, List.not_mem_nil, or_false, or_imp, forall_and,
          forall_eq, hl1, hu1, and_comm]
      · intro x hx
        rcases List.mem_append.mp hx with hx | hx
        · exact h.fixed x hx
        · rw [List.mem_singleton.mp hx]; exact hf2
      · intro x hx
        rcases List.mem_append.mp hx with hx | hx
        · exact h.probed x (by simp [hx])
        · rw [List.mem_singleton.mp hx]; exact hk1
      · intro x hx
        simp only [List.append_assoc, List.mem_append, List.mem_singleton] at hx
        rcases hx with hx | hx | hx | hx | hx
        · exact h.valid x (by simp [hx])
        · rw [hx, h2, hshare]; exact hvalid
        · exact h.valid x (by simp [hx])
        · rw [hx, h1]; exact hkv
        · exact h.valid x (by simp [hx])

/-- A whole scan visits every entry that is not dismissed yet exactly once. -/
theorem scan_inv (hmid : 0 ≤ mid)
    (h : ScanInv available leftHalf rightHalf lower mid upper dismissed kept rest s) :
    ∃ dismissed' kept',
      ScanInv available leftHalf rightHalf lower mid upper dismissed' kept' []
        ((List.range' (dismissed.length + kept.length) rest.length).foldl
          (scanStep available mid leftHalf rightHalf) s) ∧
      shares kept' = sweep lower upper (shares kept) (shares rest) ∧
      (shares (dismissed' ++ kept')).Perm (shares (dismissed ++ kept ++ rest)) ∧
      slotDemands (dismissed' ++ kept') = slotDemands (dismissed ++ kept ++ rest) := by
  induction rest generalizing dismissed kept s with
  | nil => exact ⟨dismissed, kept, h, rfl, by simp, by simp⟩
  | cons e rest ih =>
      rw [List.length_cons, List.range'_succ, List.foldl_cons]
      by_cases heq : e.share.volume lower = e.share.volume upper
      · obtain ⟨dismissed₁, kept₁, hd, hk, hsd, hsk, hdem, hinv⟩ := dismiss_inv h heq
        obtain ⟨dismissed', kept', hi, hq, hp, ho⟩ := ih hinv
        have hlen : dismissed₁.length + kept₁.length = dismissed.length + kept.length + 1 := by omega
        rw [hlen] at hi
        refine ⟨dismissed', kept', hi, ?_, ?_, ?_⟩
        · rw [hq, hsk, shares_cons, sweep, if_pos heq]
        · refine hp.trans ?_
          simp only [shares_append, hsd, hsk, shares_cons, List.append_assoc, List.cons_append, List.nil_append]
          apply List.Perm.append_left
          exact List.perm_middle.symm.trans ((List.rotate_perm (shares kept) 1).append_right _)
        · rw [ho, slotDemands_append, hdem]
          simp
      · obtain ⟨e', hs, hd, hinv⟩ := evaluate_inv h hmid heq
        obtain ⟨dismissed', kept', hi, hq, hp, ho⟩ := ih hinv
        have hlen : dismissed.length + (kept ++ [e']).length = dismissed.length + kept.length + 1 := by
          simp [add_assoc]
        rw [hlen] at hi
        refine ⟨dismissed', kept', hi, ?_, ?_, ?_⟩
        · rw [hq, shares_cons, sweep, if_neg heq, shares_append, shares_cons, shares_nil, hs]
        · refine hp.trans ?_
          simp [hs]
        · rw [ho]
          simp [hd]

end scan

def total (ss : List Share) (x : ℚ) : Int := (ss.map (·.volume x)).sum

theorem total_perm {ss ts : List Share} (h : ss.Perm ts) (x : ℚ) : total ss x = total ts x :=
  (h.map _).sum_eq

@[simp] theorem total_append (ss ts : List Share) (x : ℚ) : total (ss ++ ts) x = total ss x + total ts x := by
  simp [total]

@[simp] theorem total_cons (s : Share) (ss : List Share) (x : ℚ) : total (s :: ss) x = s.volume x + total ss x := by
  simp [total]

@[simp] theorem total_nil (x : ℚ) : total [] x = 0 := rfl

theorem Fixed.volume_eq {lower upper x : ℚ} {e : BalancingEntry} (h : Fixed lower upper e) (hv : e.share.Valid)
    (hl : lower ≤ x) (hu : x ≤ upper) : e.volume = e.share.volume x := by
  apply le_antisymm
  · rw [h.lower_eq]; exact Share.volume_mono hv hl
  · rw [h.upper_eq]; exact Share.volume_mono hv hu

theorem Fixed.mono {lower upper l u : ℚ} {e : BalancingEntry} (h : Fixed lower upper e) (hv : e.share.Valid)
    (hl : lower ≤ l) (hlu : l ≤ u) (hu : u ≤ upper) : Fixed l u e :=
  ⟨h.volume_eq hv hl (hlu.trans hu), h.volume_eq hv (hl.trans hlu) hu⟩

theorem volumes_eq_total {es : List BalancingEntry} {x : ℚ} (h : ∀ e ∈ es, e.volume = e.share.volume x) :
    volumes es = total (shares es) x := by
  induction es with
  | nil => rfl
  | cons e es ih =>
      rw [volumes_cons, shares_cons, total_cons, h e (by simp), ih fun x hx => h x (by simp [hx])]

structure Pass (available : Int) (lower mid upper : ℚ) (dismissed kept : List BalancingEntry)
    (vc : VolumeCalculator) : Prop where
  entries_eq : vc.entries = dismissed ++ kept
  count_eq : vc.numDismissedJobs = dismissed.length
  base_eq : vc.baseUtilization = volumes dismissed
  available_eq : vc.availableVolume = available
  prevLb_eq : vc.prevLb = lower
  prevUb_eq : vc.prevUb = upper
  diff_iff : vc.maxVolumeDiffBetweenBounds ≤ 1 ↔ ∀ e ∈ kept, e.volumeUpper - e.volumeLower ≤ 1
  fixed : ∀ e ∈ dismissed, Fixed lower upper e
  probed : ∀ e ∈ kept, Probed lower mid upper e
  valid : ∀ e ∈ dismissed ++ kept, e.share.Valid

def prepared (vc : VolumeCalculator) (left right : ℚ) : List BalancingEntry :=
  if vc.prevLb = -1 then vc.entries.map fun job =>
    { job with volumeLower := job.getVolume left, volumeUpper := job.getVolume right }
  else vc.entries

structure Prepared (available : Int) (lower upper : ℚ) (dismissed rest : List BalancingEntry)
    (vc : VolumeCalculator) : Prop where
  prepared_eq : prepared vc lower upper = dismissed ++ rest
  count_eq : vc.numDismissedJobs = dismissed.length
  base_eq : vc.baseUtilization = volumes dismissed
  available_eq : vc.availableVolume = available
  fixed : ∀ e ∈ dismissed, Fixed lower upper e
  ready : ∀ e ∈ rest, Ready (lower = vc.prevLb) (upper = vc.prevUb) lower upper e
  valid : ∀ e ∈ dismissed ++ rest, e.share.Valid

/-- The excess is exact unless it is negative, and then only its sign counts. -/
theorem excess_spec {available : Int} {lower mid upper : ℚ} {dismissed rest : List BalancingEntry}
    {vc : VolumeCalculator} (h : Prepared available lower upper dismissed rest vc)
    (h0 : 0 ≤ lower) (hl : lower ≤ mid) (hu : mid ≤ upper) :
    ∃ dismissed' kept', Pass available lower mid upper dismissed' kept'
        (calculateExcessVolumeOrNegative vc mid lower upper).1 ∧
      shares kept' = sweep lower upper [] (shares rest) ∧
      (shares (dismissed' ++ kept')).Perm (shares (dismissed ++ rest)) ∧
      slotDemands (dismissed' ++ kept') = slotDemands (dismissed ++ rest) ∧
      Tracks available (available - (calculateExcessVolumeOrNegative vc mid lower upper).2)
        (total (shares (dismissed ++ rest)) mid) ∧
      (calculateExcessVolumeOrNegative vc mid lower upper).1.centerOfMassOfMultiplier =
        vc.centerOfMassOfMultiplier := by
  obtain rfl := h.available_eq
  have hstart : ScanInv vc.availableVolume (lower = vc.prevLb) (upper = vc.prevUb) lower mid upper dismissed [] rest
      ⟨prepared vc lower upper, vc.numDismissedJobs, vc.baseUtilization, vc.baseUtilization, 0⟩ := by
    refine ⟨by simp [h.prepared_eq], h.count_eq, h.base_eq, ?_, by simp, h.fixed, by simp, h.ready, ?_⟩
    · left; simp [h.base_eq]
    · simpa using h.valid
  obtain ⟨dismissed', kept', hinv, hq, hp, ho⟩ := scan_inv (h0.trans hl) hstart
  have hlen : (prepared vc lower upper).length - vc.numDismissedJobs = rest.length := by
    simp [h.prepared_eq, h.count_eq]
  simp only [List.length_nil, Nat.add_zero, List.append_nil, ← h.count_eq, ← hlen] at hinv hp ho
  have hvol : volumes (dismissed' ++ kept') = total (shares (dismissed ++ rest)) mid := by
    rw [← total_perm hp, volumes_eq_total]
    intro e he
    rcases List.mem_append.mp he with hd | hk
    · exact (hinv.fixed e hd).volume_eq (hinv.valid e (by simp [hd])) hl hu
    · exact (hinv.probed e hk).mid_eq
  refine ⟨dismissed', kept', ?_, by simpa using hq, hp, ho, ?_, rfl⟩
  · have he := hinv.entries_eq
    rw [List.append_nil] at he
    exact ⟨he, hinv.count_eq, hinv.base_eq, rfl, rfl, rfl, hinv.diff_iff, hinv.fixed, hinv.probed,
      by simpa using hinv.valid⟩
  · have ht := hinv.utilization_tracks
    rw [hvol] at ht
    simp only [calculateExcessVolumeOrNegative, sub_sub_cancel]
    exact ht

theorem Pass.next {available : Int} {lower mid upper l u : ℚ} {dismissed kept : List BalancingEntry}
    {vc : VolumeCalculator} (h : Pass available lower mid upper dismissed kept vc) (h0 : 0 ≤ lower)
    (hl : lower < mid) (hu : mid < upper) (hlu : l = mid ∧ u = upper ∨ l = lower ∧ u = mid) :
    Prepared available l u dismissed kept vc := by
  have hfirst : vc.prevLb ≠ -1 := by rw [h.prevLb_eq]; linarith
  refine ⟨?_, h.count_eq, h.base_eq, h.available_eq, ?_, ?_, h.valid⟩
  · rw [prepared, if_neg hfirst, h.entries_eq]
  · intro e he
    apply (h.fixed e he).mono (h.valid e (by simp [he]))
    · rcases hlu with ⟨rfl, _⟩ | ⟨rfl, _⟩ <;> linarith
    · rcases hlu with ⟨rfl, rfl⟩ | ⟨rfl, rfl⟩ <;> linarith
    · rcases hlu with ⟨_, rfl⟩ | ⟨_, rfl⟩ <;> linarith
  · intro e he
    have hp := h.probed e he
    rw [h.prevLb_eq, h.prevUb_eq]
    rcases hlu with ⟨rfl, rfl⟩ | ⟨rfl, rfl⟩
    · have hne : l ≠ lower := hl.ne'
      constructor
      · simpa [cacheVolume, hne] using hp.mid_eq
      · simpa [cacheVolume, hne] using hp.upper_eq
    · have hne : u ≠ upper := hu.ne
      constructor
      · simpa [cacheVolume, hne] using hp.lower_eq
      · simpa [cacheVolume, hne] using hp.mid_eq

end Mallob.VolumeSweep
