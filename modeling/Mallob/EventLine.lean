import Mallob.ReplicaAgreement

namespace Mallob.EventLine

open EventDrivenBalancer BalancerTree BalancerSystem BalancerSteps ReplicaAgreement

def Follows (a b : Event) : Prop := a.epoch < b.epoch ∨ a = b

theorem Follows.trans {a b c : Event} (h : Follows a b) (h' : Follows b c) : Follows a c := by
  rcases h with h | rfl
  · rcases h' with h' | rfl
    · exact Or.inl (h.trans h')
    · exact Or.inl h
  · exact h'

theorem Follows.epoch_le {a b : Event} (h : Follows a b) : a.epoch ≤ b.epoch := by
  rcases h with h | rfl
  · exact h.le
  · exact le_rfl

theorem Follows.eq_of_ge {a b : Event} (h : Follows a b) (hge : b.epoch ≤ a.epoch) : a = b := by
  rcases h with h | rfl
  · exact absurd hge (not_le.mpr h)
  · rfl

theorem follows_last {xs : List Event} (h : xs.Pairwise Follows) {x y : Event} (hlast : xs.getLast? = some y)
    (hx : x ∈ xs) : Follows x y := by
  obtain ⟨front, rfl⟩ := List.getLast?_eq_some_iff.mp hlast
  rcases List.mem_append.mp hx with hx | hx
  · exact (List.pairwise_append.mp h).2.2 x hx y (by simp)
  · exact Or.inr (List.mem_singleton.mp hx)

theorem Follows.no_conflict {a b : Event} (h : Follows a b) : EventMap.conflicts b a = false := by
  rcases h with h | rfl
  · simp [EventMap.conflicts, h.ne]
  · simp [EventMap.conflicts]

theorem newer_of_follows {old : Option Event} {ev : Event} (h0 : 0 ≤ ev.epoch) (h : ∀ o, old = some o → Follows o ev) :
    EventMap.newer old ev = some ev := by
  cases old with
  | none => exact EventMap.newer_none h0
  | some o =>
      rw [EventMap.newer_some h0]
      split
      · rfl
      · next hn => rw [(h o rfl).eq_of_ge (not_lt.mp hn)]

def jobEvents (j : Int) (maps : List EventMap) : List Event := maps.filterMap fun m => m.map[j]?

@[simp] theorem jobEvents_nil (j : Int) : jobEvents j [] = [] := rfl

@[simp] theorem jobEvents_append (j : Int) (xs ys : List EventMap) :
    jobEvents j (xs ++ ys) = jobEvents j xs ++ jobEvents j ys := List.filterMap_append

@[simp] theorem jobEvents_cons (j : Int) (m : EventMap) (ms : List EventMap) :
    jobEvents j (m :: ms) = (m.map[j]?).toList ++ jobEvents j ms := by
  cases h : m.map[j]? <;> simp [jobEvents, h]

theorem mem_jobEvents {j : Int} {maps : List EventMap} {ev : Event} :
    ev ∈ jobEvents j maps ↔ ∃ m ∈ maps, m.map[j]? = some ev := List.mem_filterMap

section replay

variable {cfg : BalancerConfig} {j : Int} {before : List EventMap}

/-- What the states know about a job whose events come in order is the last
one of them, unless that one has neither demand nor priority. -/
theorem lookup_replay (hb : (replay cfg before).states.map[j]? = none) {maps : List EventMap}
    (ho : (jobEvents j maps).Pairwise Follows) (h0 : ∀ ev ∈ jobEvents j maps, 0 ≤ ev.epoch) :
    (replay cfg (before ++ maps)).states.map[j]? =
      (jobEvents j maps).getLast?.filter fun ev => !EventMap.isOldZero ev := by
  induction maps using List.reverseRecOn with
  | nil => simpa using hb
  | append_singleton maps m ih =>
      rw [jobEvents_append, List.pairwise_append] at ho
      have ih := ih ho.1 fun ev hev => h0 ev (by simp [hev])
      rw [← List.append_assoc, replay_concat]
      simp only [View.digest, EventMap.lookup_removeOldZeros, EventMap.lookup_updateBy, ih]
      cases hm : m.map[j]? with
      | none => simp [hm, Option.filter_filter]
      | some ev =>
          have hev : ev ∈ jobEvents j [m] := by simp [hm]
          rw [Option.elim_some, newer_of_follows (h0 ev (by simp [hm]))]
          · simp [hm]
          · intro o hlast
            obtain ⟨hlast, _⟩ := Option.filter_eq_some_iff.mp hlast
            exact ho.2.2 o (List.mem_of_getLast? hlast) ev hev

/-- An entry of the states while a map is digested is one of the job's events so far. -/
theorem mem_of_updateBy (hb : (replay cfg before).states.map[j]? = none) {maps : List EventMap} {m : EventMap}
    (ho : (jobEvents j (maps ++ [m])).Pairwise Follows) (h0 : ∀ ev ∈ jobEvents j (maps ++ [m]), 0 ≤ ev.epoch)
    {e : Event} (he : ((replay cfg (before ++ maps)).states.updateBy m).1.map[j]? = some e) :
    e ∈ jobEvents j (maps ++ [m]) := by
  rw [jobEvents_append, List.pairwise_append] at ho
  have hl := lookup_replay hb ho.1 fun ev hev => h0 ev (by simp [hev])
  rw [EventMap.lookup_updateBy] at he
  cases hm : m.map[j]? with
  | none =>
      rw [hm, Option.elim_none, hl] at he
      have := List.mem_of_getLast? (Option.filter_eq_some_iff.mp he).1
      simp [this]
  | some ev =>
      have hev : ev ∈ jobEvents j [m] := by simp [hm]
      rw [hm, Option.elim_some, newer_of_follows (h0 ev (by simp [hm]))] at he
      · obtain rfl := Option.some.inj he
        simp [hm]
      · intro o hlast
        rw [hl] at hlast
        exact ho.2.2 o (List.mem_of_getLast? (Option.filter_eq_some_iff.mp hlast).1) ev hev

end replay

def block (s : BalancerSystem) (j : Int) (r : Nat) : List Event :=
  jobEvents j (s.net .reduceData r (parentRank r)) ++ ((s.ranks r).diffs.map[j]?).toList

/-- The events of a job from those which the root has digested, but for the
first maps, down to the rank where they are pushed. -/
def line (s : BalancerSystem) (j : Int) (o mark : Nat) : List Event :=
  jobEvents j ((s.ranks 0).digested.drop mark) ++ (path o).flatMap (block s j)

def Upward (s : BalancerSystem) : Prop :=
  ∀ src dst, src = 0 ∨ dst ≠ parentRank src → s.net .reduceData src dst = []

/-- The events of a job pushed at rank o stand in line, the newest one last,
and nowhere else. Each rank on the path has digested the first maps, after
which nothing of the job was left in the states. -/
structure JobLine (cfg : BalancerConfig) (s : BalancerSystem) (j : Int) (o mark : Nat) (newest : Option Event) :
    Prop where
  origin_lt : o < cfg.size
  mark_le : ∀ r ∈ path o, mark ≤ (s.ranks r).digested.length
  forgotten : (replay cfg ((s.ranks 0).digested.take mark)).states.map[j]? = none
  ordered : (line s j o mark).Pairwise Follows
  nonneg : ∀ ev ∈ line s j o mark, 0 ≤ ev.epoch
  newest_eq : (line s j o mark).getLast? = newest
  off : ∀ r, r ∉ path o → block s j r = []

variable {cfg : BalancerConfig} {s s' : BalancerSystem} {j : Int} {o mark : Nat} {newest : Option Event}

structure Thins (xs ys : List Event) : Prop where
  sublist : ys.Sublist xs
  last_eq : ys.getLast? = xs.getLast?

theorem Thins.refl (xs : List Event) : Thins xs xs := ⟨List.Sublist.refl xs, rfl⟩

theorem Thins.append {xs ys : List Event} (h : Thins xs ys) (before after : List Event) :
    Thins (before ++ xs ++ after) (before ++ ys ++ after) :=
  ⟨(h.sublist.append_left before).append_right after, by simp [List.getLast?_append, h.last_eq]⟩

theorem thins_of_repeated {before after : List Event} {e : Event} (ho : (before ++ [e] ++ after).Pairwise Follows)
    (he : e ∈ before) : Thins (before ++ [e] ++ after) (before ++ [] ++ after) := by
  refine ⟨((List.nil_sublist [e]).append_left before).append_right after, ?_⟩
  cases hafter : after.getLast? with
  | some a => rw [List.getLast?_append, List.getLast?_append (l := before ++ [e]), hafter]; rfl
  | none =>
      obtain ⟨x, hx⟩ : ∃ x, before.getLast? = some x :=
        Option.isSome_iff_exists.mp (by simpa using List.ne_nil_of_mem he)
      have hlast : x = e := by
        have hxb := List.mem_of_getLast? hx
        rw [List.append_assoc, List.pairwise_append] at ho
        have hxe : Follows x e := ho.2.2 x hxb e (by simp)
        exact hxe.eq_of_ge (follows_last ho.1 hx he).epoch_le
      rw [List.getLast?_append, List.getLast?_append (l := before ++ [e]), hafter, List.append_nil, hx,
        List.getLast?_concat, hlast]

theorem JobLine.thin (h : JobLine cfg s j o mark newest) (hd : ∀ r, (s.ranks r).digested <+: (s'.ranks r).digested)
    (h0 : (s'.ranks 0).digested.take mark = (s.ranks 0).digested.take mark)
    (hl : Thins (line s j o mark) (line s' j o mark)) (hoff : ∀ r, r ∉ path o → block s' j r = []) :
    JobLine cfg s' j o mark newest where
  origin_lt := h.origin_lt
  mark_le := fun r hr => (h.mark_le r hr).trans (hd r).length_le
  forgotten := by rw [h0]; exact h.forgotten
  ordered := h.ordered.sublist hl.sublist
  nonneg := fun ev hev => h.nonneg ev (hl.sublist.subset hev)
  newest_eq := by rw [hl.last_eq]; exact h.newest_eq
  off := hoff

theorem JobLine.congr (h : JobLine cfg s j o mark newest) (hd : ∀ r, (s'.ranks r).digested = (s.ranks r).digested)
    (hb : ∀ r, block s' j r = block s j r) : JobLine cfg s' j o mark newest := by
  refine h.thin (fun r => by rw [hd r]) (by rw [hd 0]) ?_ (fun r hr => by rw [hb r]; exact h.off r hr)
  have hblock : block s' j = block s j := funext hb
  rw [line, line, hblock, hd 0]
  exact Thins.refl _

theorem JobLine.nonneg_diffs (h : JobLine cfg s j o mark newest) {r : Nat} {ev : Event}
    (hev : (s.ranks r).diffs.map[j]? = some ev) : r ∈ path o ∧ ev ∈ line s j o mark ∧ 0 ≤ ev.epoch := by
  have hblock : ev ∈ block s j r := by simp [block, hev]
  have hr : r ∈ path o := by
    by_contra hr
    rw [h.off r hr] at hblock
    cases hblock
  have hline : ev ∈ line s j o mark := List.mem_append_right _ (List.mem_flatMap.mpr ⟨r, hr, hblock⟩)
  exact ⟨hr, hline, h.nonneg ev hline⟩

def merged (s : BalancerSystem) (rank : Nat) (net : Network.Net BalancerTag EventMap) (d : EventMap) :
    BalancerSystem := afterwards s rank net ({ s.ranks rank with diffs := d }, [])

@[simp] theorem digested_merged (rank : Nat) (net : Network.Net BalancerTag EventMap) (d : EventMap) (r : Nat) :
    ((merged s rank net d).ranks r).digested = (s.ranks r).digested := by
  by_cases hr : r = rank
  · subst hr; simp [merged, afterwards]
  · simp [merged, afterwards, hr]

theorem block_merged (rank : Nat) (net : Network.Net BalancerTag EventMap) (d : EventMap) (r : Nat) :
    block (merged s rank net d) j r = jobEvents j (net .reduceData r (parentRank r)) ++
      (if r = rank then d.map[j]? else (s.ranks r).diffs.map[j]?).toList := by
  by_cases hr : r = rank
  · subst hr; simp [block, merged, afterwards]
  · simp [block, merged, afterwards, hr]

theorem JobLine.merge_same (h : JobLine cfg s j o mark newest) (rank : Nat) {d : EventMap}
    (hd : d.map[j]? = (s.ranks rank).diffs.map[j]?) : JobLine cfg (merged s rank s.net d) j o mark newest := by
  refine h.congr (fun r => digested_merged rank _ d r) ?_
  intro r
  rw [block_merged, block]
  by_cases hr : r = rank
  · subst hr; simp [hd]
  · simp [hr]

theorem JobLine.refreshed (h : JobLine cfg s j o mark newest) {rank : Nat} {d : EventMap}
    (hd : Refreshes d (s.ranks rank).diffs) : JobLine cfg (merged s rank s.net d) j o mark newest :=
  h.merge_same rank (hd j fun _ hev => (h.nonneg_diffs hev).2.2)

/-- Pushing an event replaces the one in the diffs of the rank, the last one in line. -/
theorem JobLine.pushed (h : JobLine cfg s j o mark newest) {ev : Event} (hj : ev.jobId = j) (h0 : 0 ≤ ev.epoch)
    (hf : ∀ n, newest = some n → Follows n ev) {d : EventMap}
    (hd : Refreshes d ((s.ranks o).diffs.insertIfNovel ev).1) :
    JobLine cfg (merged s o s.net d) j o mark (some ev) := by
  obtain ⟨front, hfront⟩ := path_last o
  have hnodup := nodup_path o
  rw [hfront, List.nodup_append] at hnodup
  have hfollows : ∀ x ∈ line s j o mark, Follows x ev := by
    intro x hx
    obtain ⟨n, hn⟩ : ∃ n, (line s j o mark).getLast? = some n :=
      Option.isSome_iff_exists.mp (by simpa using List.ne_nil_of_mem hx)
    exact (follows_last h.ordered hn hx).trans (hf n (h.newest_eq.symm.trans hn))
  have hins : ((s.ranks o).diffs.insertIfNovel ev).1.map[j]? = some ev := by
    rw [EventMap.lookup_insertIfNovel, if_pos hj]
    exact newer_of_follows h0 fun old hold => hfollows old (h.nonneg_diffs hold).2.1
  have hdj : d.map[j]? = some ev := by
    rw [hd j, hins]
    intro ev' hev'
    obtain rfl := Option.some.inj (hins.symm.trans hev')
    exact h0
  have hother : ∀ r, r ≠ o → block (merged s o s.net d) j r = block s j r := by
    intro r hr; rw [block_merged, if_neg hr, block]
  have hfronts : front.flatMap (block (merged s o s.net d) j) = front.flatMap (block s j) :=
    List.flatMap_congr fun r hr => hother r fun he => hnodup.2.2 r hr o (by simp) he
  obtain ⟨rest, hrest⟩ : ∃ rest, rest = jobEvents j ((s.ranks 0).digested.drop mark) ++
    front.flatMap (block s j) ++ jobEvents j (s.net .reduceData o (parentRank o)) := ⟨_, rfl⟩
  have hold : line s j o mark = rest ++ ((s.ranks o).diffs.map[j]?).toList := by
    rw [line, hfront, List.flatMap_append, hrest]
    simp [block]
  have hnew : line (merged s o s.net d) j o mark = rest ++ [ev] := by
    rw [line, hfront, List.flatMap_append, hfronts, hrest, digested_merged]
    simp [block_merged, hdj]
  have hsub : ∀ x ∈ rest, x ∈ line s j o mark := fun x hx => by rw [hold]; exact List.mem_append_left _ hx
  refine ⟨h.origin_lt, ?_, ?_, ?_, ?_, ?_, ?_⟩
  · intro r hr; rw [digested_merged]; exact h.mark_le r hr
  · rw [digested_merged]; exact h.forgotten
  · rw [hnew, List.pairwise_append]
    refine ⟨?_, List.pairwise_singleton _ _, ?_⟩
    · have ho := h.ordered
      rw [hold] at ho
      exact (List.pairwise_append.mp ho).1
    · intro x hx y hy
      rw [List.mem_singleton.mp hy]
      exact hfollows x (hsub x hx)
  · rw [hnew]
    intro x hx
    rcases List.mem_append.mp hx with hx | hx
    · exact h.nonneg x (hsub x hx)
    · rw [List.mem_singleton.mp hx]; exact h0
  · rw [hnew, List.getLast?_concat]
  · intro r hr
    rw [hother r (fun he => hr (he ▸ mem_path_self o))]
    exact h.off r hr

theorem thins_newer {d m : Option Event} (hm : ∀ ev, m = some ev → 0 ≤ ev.epoch)
    (hf : ∀ old ev, d = some old → m = some ev → Follows old ev) :
    Thins (d.toList ++ m.toList) (m.elim d (EventMap.newer d)).toList := by
  cases m with
  | none => simpa using Thins.refl d.toList
  | some ev =>
      rw [Option.elim_some, newer_of_follows (hm ev rfl) fun old hold => hf old ev hold rfl]
      exact ⟨List.sublist_append_right _ _, by simp⟩

/-- A reduction reaches the parent: its event replaces the one in the diffs there. -/
theorem JobLine.reduced (h : JobLine cfg s j o mark newest) (hup : Upward s) {source rank : Nat} {data : EventMap}
    {net : Network.Net BalancerTag EventMap} (ht : Network.take s.net .reduceData source rank = some (data, net)) :
    JobLine cfg (merged s rank net ((s.ranks rank).diffs.updateBy data).1) j o mark newest := by
  obtain ⟨hhead, hkeep⟩ := Network.take_eq_some ht
  obtain ⟨hs0, rfl⟩ : source ≠ 0 ∧ rank = parentRank source := by
    by_contra hne
    rw [hup source rank (by tauto)] at hhead
    cases hhead
  have hne : source ≠ parentRank source := (parentRank_lt hs0).ne'
  have hsource : block s j source = (data.map[j]?).toList ++ jobEvents j (net .reduceData source (parentRank source)) ++
      ((s.ranks source).diffs.map[j]?).toList := by
    rw [block, hhead, jobEvents_cons]
  have hchan : ∀ r, r ≠ source → net .reduceData r (parentRank r) = s.net .reduceData r (parentRank r) :=
    fun r hr => hkeep _ _ _ fun hh => hr hh.2.1
  have hother : ∀ r, r ≠ source → r ≠ parentRank source →
      block (merged s (parentRank source) net ((s.ranks (parentRank source)).diffs.updateBy data).1) j r =
        block s j r := by
    intro r hr hr'
    rw [block_merged, if_neg hr', hchan r hr, block]
  have hnewsource : block (merged s (parentRank source) net
      ((s.ranks (parentRank source)).diffs.updateBy data).1) j source =
      jobEvents j (net .reduceData source (parentRank source)) ++ ((s.ranks source).diffs.map[j]?).toList := by
    rw [block_merged, if_neg hne]
  have hnewrank : block (merged s (parentRank source) net
      ((s.ranks (parentRank source)).diffs.updateBy data).1) j (parentRank source) =
      jobEvents j (s.net .reduceData (parentRank source) (parentRank (parentRank source))) ++
        ((data.map[j]?).elim ((s.ranks (parentRank source)).diffs.map[j]?)
          (EventMap.newer ((s.ranks (parentRank source)).diffs.map[j]?))).toList := by
    rw [block_merged, if_pos rfl, hchan _ hne.symm, EventMap.lookup_updateBy]
  by_cases hp : source ∈ path o
  · obtain ⟨front, below, hpath⟩ := path_edge hp hs0
    have hnodup := nodup_path o
    rw [hpath] at hnodup
    obtain ⟨_, hrest, hdisj⟩ := List.nodup_append.mp hnodup
    obtain ⟨hr1, hrest⟩ := List.nodup_cons.mp hrest
    obtain ⟨hr2, _⟩ := List.nodup_cons.mp hrest
    have hfront : ∀ r ∈ front, r ≠ source ∧ r ≠ parentRank source := fun r hr =>
      ⟨hdisj r hr source (by simp), hdisj r hr (parentRank source) (by simp)⟩
    have hbelow : ∀ r ∈ below, r ≠ source ∧ r ≠ parentRank source := fun r hr =>
      ⟨fun he => hr2 (he ▸ hr), fun he => hr1 (he ▸ List.mem_cons_of_mem _ hr)⟩
    have hold : line s j o mark = (jobEvents j ((s.ranks 0).digested.drop mark) ++ front.flatMap (block s j) ++
        jobEvents j (s.net .reduceData (parentRank source) (parentRank (parentRank source)))) ++
        (((s.ranks (parentRank source)).diffs.map[j]?).toList ++ (data.map[j]?).toList) ++
        (jobEvents j (net .reduceData source (parentRank source)) ++ ((s.ranks source).diffs.map[j]?).toList ++
          below.flatMap (block s j)) := by
      rw [line, hpath, List.flatMap_append, List.flatMap_cons, List.flatMap_cons, hsource, block]
      simp only [List.append_assoc]
    have hthin := thins_newer (d := (s.ranks (parentRank source)).diffs.map[j]?) (m := data.map[j]?)
      (by intro ev hev; apply h.nonneg; rw [hold]; simp [hev])
      (by intro old ev hold' hev
          have ho := h.ordered
          rw [hold, hold', hev] at ho
          have := (List.pairwise_append.mp (List.pairwise_append.mp ho).1).2.1
          simpa using this)
    refine h.thin (fun r => by rw [digested_merged]) (by rw [digested_merged]) ?_ ?_
    · have hnew : line (merged s (parentRank source) net ((s.ranks (parentRank source)).diffs.updateBy data).1) j o
          mark = (jobEvents j ((s.ranks 0).digested.drop mark) ++ front.flatMap (block s j) ++
          jobEvents j (s.net .reduceData (parentRank source) (parentRank (parentRank source)))) ++
          ((data.map[j]?).elim ((s.ranks (parentRank source)).diffs.map[j]?)
            (EventMap.newer ((s.ranks (parentRank source)).diffs.map[j]?))).toList ++
          (jobEvents j (net .reduceData source (parentRank source)) ++ ((s.ranks source).diffs.map[j]?).toList ++
            below.flatMap (block s j)) := by
        rw [line, hpath, List.flatMap_append, List.flatMap_cons, List.flatMap_cons, hnewsource, hnewrank,
          digested_merged, List.flatMap_congr fun r hr => hother r (hfront r hr).1 (hfront r hr).2,
          List.flatMap_congr fun r hr => hother r (hbelow r hr).1 (hbelow r hr).2]
        simp only [List.append_assoc]
      rw [hold, hnew]
      exact hthin.append _ _
    · intro r hr
      have hrs : r ≠ source := fun he => hr (he ▸ hp)
      have hrp : r ≠ parentRank source := fun he => hr (he ▸ parentRank_mem_path hp hs0)
      rw [hother r hrs hrp]
      exact h.off r hr
  · have hempty := h.off source hp
    rw [hsource, List.append_eq_nil_iff, List.append_eq_nil_iff] at hempty
    obtain ⟨⟨hdata, hchannel⟩, hdiffs⟩ := hempty
    have hnone : data.map[j]? = none := by simpa using hdata
    refine h.congr (fun r => by rw [digested_merged]) ?_
    intro r
    by_cases hrs : r = source
    · subst hrs
      rw [hnewsource, hsource, hdata, List.nil_append]
    · by_cases hrp : r = parentRank source
      · rw [hrp, hnewrank, hnone, Option.elim_none, block]
      · exact hother r hrs hrp

theorem digested_of_diffs (rank : Nat) (net : Network.Net BalancerTag EventMap) (d : EventMap)
    (out : List (Network.Envelope BalancerTag EventMap)) (r : Nat) :
    ((afterwards s rank net ({ s.ranks rank with diffs := d }, out)).ranks r).digested = (s.ranks r).digested := by
  by_cases hr : r = rank
  · subst hr; simp [afterwards]
  · simp [afterwards, hr]

theorem JobLine.sent {rank : Nat} {net : Network.Net BalancerTag EventMap} {d : EventMap}
    (h : JobLine cfg (merged s rank net d) j o mark newest) :
    JobLine cfg (afterwards s rank net ({ s.ranks rank with diffs := d.clear },
      [⟨.reduceData, parentRank rank, d⟩])) j o mark newest := by
  refine h.congr (fun r => by rw [digested_of_diffs, digested_merged]) ?_
  intro r
  rw [block_merged, block]
  simp only [afterwards, Network.postAll_apply, Network.received_cons, Network.received_nil, List.append_nil, true_and]
  by_cases hr : r = rank
  · subst hr; simp
  · simp [hr]

theorem JobLine.known (h : JobLine cfg s j o mark newest) (ha : Agreement cfg s) {r : Nat} (hr : r ∈ path o)
    {data : EventMap} (hp : (s.ranks r).digested ++ [data] <+: (s.ranks 0).digested) {e : Event}
    (he : ((s.ranks r).states.updateBy data).1.map[j]? = some e) :
    e ∈ jobEvents j ((s.ranks 0).digested.drop mark) := by
  obtain ⟨rest, hrest⟩ := hp
  have hle := h.mark_le r hr
  have hdrop : (s.ranks 0).digested.drop mark = (s.ranks r).digested.drop mark ++ [data] ++ rest := by
    rw [← hrest, List.append_assoc, List.drop_append_of_le_length hle, List.append_assoc]
  have htake : (s.ranks 0).digested.take mark = (s.ranks r).digested.take mark := by
    rw [← hrest, List.append_assoc, List.take_append_of_le_length hle]
  have hstates : (s.ranks r).states = (replay cfg ((s.ranks r).digested.take mark ++
      (s.ranks r).digested.drop mark)).states := by
    rw [List.take_append_drop, ← ha.view r ((le_of_mem_path hr).trans_lt h.origin_lt)]
    rfl
  have hforgotten := h.forgotten
  rw [htake] at hforgotten
  have hline : ∀ ev ∈ jobEvents j ((s.ranks r).digested.drop mark ++ [data]), ev ∈ line s j o mark := by
    intro ev hev
    rw [line, hdrop, jobEvents_append]
    exact List.mem_append_left _ (List.mem_append_left _ hev)
  have hord : (jobEvents j ((s.ranks r).digested.drop mark ++ [data])).Pairwise Follows := by
    have ho := h.ordered
    rw [line, hdrop, jobEvents_append, List.append_assoc] at ho
    exact (List.pairwise_append.mp ho).1
  rw [hstates] at he
  have := mem_of_updateBy hforgotten hord (fun ev hev => h.nonneg ev (hline ev hev)) he
  rw [hdrop, jobEvents_append]
  exact List.mem_append_left _ this

/-- What the states know about a job while its event in the diffs of a rank is
filtered: that event may follow it. -/
theorem JobLine.follows_known (h : JobLine cfg s j o mark newest) (ha : Agreement cfg s) {r : Nat} {data : EventMap}
    (hp : (s.ranks r).digested ++ [data] <+: (s.ranks 0).digested) {ev e : Event}
    (hev : (s.ranks r).diffs.map[j]? = some ev) (he : ((s.ranks r).states.updateBy data).1.map[j]? = some e) :
    Follows e ev := by
  obtain ⟨hr, _, _⟩ := h.nonneg_diffs hev
  have hknown := h.known ha hr hp he
  have ho := h.ordered
  rw [line, List.pairwise_append] at ho
  exact ho.2.2 e hknown ev (List.mem_flatMap.mpr ⟨r, hr, by simp [block, hev]⟩)

/-- A broadcast reaches a rank: its diffs lose at most a copy of an event
which the root has digested. -/
theorem JobLine.broadcast (h : JobLine cfg s j o mark newest) (ha : Agreement cfg s) {rank : Nat} {data : EventMap}
    {b : EventDrivenBalancer} {net : Network.Net BalancerTag EventMap}
    (hd : EventDrivenBalancer.digest cfg (s.ranks rank) data = .ok b) (hr0 : rank ≠ 0)
    (hp : (s.ranks rank).digested ++ [data] <+: (s.ranks 0).digested)
    (hnet : ∀ src dst, net .reduceData src dst = s.net .reduceData src dst) :
    JobLine cfg (afterwards s rank net (b, broadcasts cfg rank data)) j o mark newest := by
  obtain ⟨_, hdig, hfilter⟩ := digest_ok hd
  have hlookup := EventMap.lookup_filterBy _ _ _ hfilter j
  have hranks : ∀ r, ((afterwards s rank net (b, broadcasts cfg rank data)).ranks r) =
      if r = rank then b else s.ranks r := by
    intro r
    by_cases hr : r = rank
    · simp [afterwards, hr]
    · simp [afterwards, hr]
  have hblock : ∀ r, block (afterwards s rank net (b, broadcasts cfg rank data)) j r =
      jobEvents j (s.net .reduceData r (parentRank r)) ++
        ((if r = rank then b else s.ranks r).diffs.map[j]?).toList := by
    intro r
    rw [block, hranks]
    simp [afterwards, Network.postAll_apply, received_broadcasts, hnet]
  have hother : ∀ r, r ≠ rank → block (afterwards s rank net (b, broadcasts cfg rank data)) j r = block s j r := by
    intro r hr; rw [hblock, if_neg hr, block]
  have hroot : ((afterwards s rank net (b, broadcasts cfg rank data)).ranks 0).digested = (s.ranks 0).digested := by
    rw [hranks, if_neg hr0.symm]
  have hgrow : ∀ r, (s.ranks r).digested <+:
      ((afterwards s rank net (b, broadcasts cfg rank data)).ranks r).digested := by
    intro r
    rw [hranks]
    split
    · next hr => rw [hr, hdig]; exact List.prefix_append _ _
    · exact List.prefix_rfl
  have hkeep (heq : b.diffs.map[j]? = (s.ranks rank).diffs.map[j]?) :
      JobLine cfg (afterwards s rank net (b, broadcasts cfg rank data)) j o mark newest := by
    have hsame : ∀ r, block (afterwards s rank net (b, broadcasts cfg rank data)) j r = block s j r := by
      intro r
      by_cases hr : r = rank
      · rw [hblock, if_pos hr, heq, hr, block]
      · exact hother r hr
    refine h.thin hgrow (by rw [hroot]) ?_ (fun r hr => by rw [hsame r]; exact h.off r hr)
    rw [line, line, funext hsame, hroot]
    exact Thins.refl _
  cases hev : (s.ranks rank).diffs.map[j]? with
  | none => exact hkeep (by rw [hlookup, hev]; rfl)
  | some ev =>
      obtain ⟨hrank, _, _⟩ := h.nonneg_diffs hev
      cases hknown : ((s.ranks rank).states.updateBy data).1.map[j]? with
      | none => exact hkeep (by simp [hlookup, hev, hknown])
      | some e =>
          rcases h.follows_known ha hp hev hknown with hlt | rfl
          · exact hkeep (by simp [hlookup, hev, hknown, hlt])
          · have hnone : b.diffs.map[j]? = none := by simp [hlookup, hev, hknown]
            obtain ⟨front, below, hpath⟩ := List.append_of_mem hrank
            have hnodup := nodup_path o
            rw [hpath] at hnodup
            obtain ⟨_, hrest, hdisj⟩ := List.nodup_append.mp hnodup
            have hfront : ∀ r ∈ front, r ≠ rank := fun r hr => hdisj r hr rank (by simp)
            have hbelow : ∀ r ∈ below, r ≠ rank := fun r hr he => (List.nodup_cons.mp hrest).1 (he ▸ hr)
            obtain ⟨before, hbefore⟩ : ∃ before, before = jobEvents j ((s.ranks 0).digested.drop mark) ++
              front.flatMap (block s j) ++ jobEvents j (s.net .reduceData rank (parentRank rank)) := ⟨_, rfl⟩
            have hold : line s j o mark = before ++ [e] ++ below.flatMap (block s j) := by
              rw [line, hpath, List.flatMap_append, List.flatMap_cons, block, hev, hbefore]
              simp
            have hnew : line (afterwards s rank net (b, broadcasts cfg rank data)) j o mark =
                before ++ [] ++ below.flatMap (block s j) := by
              rw [line, hpath, List.flatMap_append, List.flatMap_cons, hblock rank, if_pos rfl, hnone, hroot,
                List.flatMap_congr fun r hr => hother r (hfront r hr),
                List.flatMap_congr fun r hr => hother r (hbelow r hr), hbefore]
              simp
            have hmem : e ∈ before := by
              rw [hbefore]
              exact List.mem_append_left _ (List.mem_append_left _ (h.known ha hrank hp hknown))
            refine h.thin hgrow (by rw [hroot]) ?_ ?_
            · have ho := h.ordered
              rw [hold] at ho ⊢
              rw [hnew]
              exact thins_of_repeated ho hmem
            · intro r hr
              rw [hother r fun he => hr (he ▸ hrank)]
              exact h.off r hr

/-- What the root knows about a job before it digests an event of the job:
that event may follow it. -/
theorem JobLine.root_knows (h : JobLine cfg s j o mark newest) (ha : Agreement cfg s) :
    (s.ranks 0).states.map[j]? =
      (jobEvents j ((s.ranks 0).digested.drop mark)).getLast?.filter fun ev => !EventMap.isOldZero ev := by
  have hview := ha.view 0 (by have := h.origin_lt; omega)
  have hstates : (s.ranks 0).states = (replay cfg ((s.ranks 0).digested.take mark ++
      (s.ranks 0).digested.drop mark)).states := by
    rw [List.take_append_drop, ← hview]
    rfl
  have ho := h.ordered
  rw [line, List.pairwise_append] at ho
  rw [hstates]
  exact lookup_replay h.forgotten ho.1 fun ev hev => h.nonneg ev (List.mem_append_left _ hev)

theorem JobLine.root_applies (h : JobLine cfg s j o mark newest) (ha : Agreement cfg s) {ev : Event}
    (hev : (s.ranks 0).diffs.map[j]? = some ev) {data : EventMap} (hd : data.map[j]? = some ev) :
    ((s.ranks 0).states.updateBy data).1.map[j]? = some ev := by
  obtain ⟨_, _, h0⟩ := h.nonneg_diffs hev
  have ho := h.ordered
  rw [line, List.pairwise_append] at ho
  rw [EventMap.lookup_updateBy, hd, Option.elim_some]
  refine newer_of_follows h0 ?_
  intro e he
  rw [h.root_knows ha] at he
  exact ho.2.2 e (List.mem_of_getLast? (Option.filter_eq_some_iff.mp he).1) ev
    (List.mem_flatMap.mpr ⟨0, zero_mem_path o, by simp [block, hev]⟩)

/-- The root digests its diffs: their events move on to those digested. -/
theorem JobLine.digested {net : Network.Net BalancerTag EventMap} {d : EventMap} {epoch : Nat}
    {b : EventDrivenBalancer} (h : JobLine cfg (merged s 0 net d) j o mark newest)
    (ha : Agreement cfg (merged s 0 net d)) (hup : Upward (merged s 0 net d))
    (hd : EventDrivenBalancer.digest cfg { s.ranks 0 with diffs := d.setGlobalEpoch epoch }
      (d.setGlobalEpoch epoch) = .ok b) :
    JobLine cfg (afterwards s 0 net (b, broadcasts cfg 0 (d.setGlobalEpoch epoch))) j o mark newest := by
  obtain ⟨_, hdig, hfilter⟩ := digest_ok hd
  have hlookup := EventMap.lookup_filterBy _ _ _ hfilter j
  have hself : (merged s 0 net d).ranks 0 = { s.ranks 0 with diffs := d } := by simp [merged, afterwards]
  have hnone : b.diffs.map[j]? = none := by
    rw [hlookup]
    cases hev : d.map[j]? with
    | none => simp [hev]
    | some ev =>
        have hdata : (d.setGlobalEpoch epoch).map[j]? = some ev := hev
        have happ := h.root_applies ha (by rw [hself]; exact hev) hdata
        rw [hself] at happ
        simp only [EventMap.map_setGlobalEpoch, hev, happ]
        simp
  have hchan : net .reduceData 0 (parentRank 0) = [] := by
    have := hup 0 (parentRank 0) (Or.inl rfl)
    simpa [merged, afterwards] using this
  have hother : ∀ r, r ≠ 0 → block (afterwards s 0 net (b, broadcasts cfg 0 (d.setGlobalEpoch epoch))) j r =
      block (merged s 0 net d) j r := by
    intro r hr
    rw [block_merged, if_neg hr, block]
    simp [afterwards, hr, Network.postAll_apply]
  have hzero : block (afterwards s 0 net (b, broadcasts cfg 0 (d.setGlobalEpoch epoch))) j 0 = [] := by
    rw [block]
    simp [afterwards, Network.postAll_apply, received_broadcasts, hchan, hnone]
  have hzero' : block (merged s 0 net d) j 0 = (d.map[j]?).toList := by
    rw [block_merged, if_pos rfl, hchan]
    simp
  have hmark := h.mark_le 0 (zero_mem_path o)
  rw [digested_merged] at hmark
  have hroot : ((afterwards s 0 net (b, broadcasts cfg 0 (d.setGlobalEpoch epoch))).ranks 0).digested =
      (s.ranks 0).digested ++ [d.setGlobalEpoch epoch] := by
    simp only [afterwards, Function.update_self]
    exact hdig
  obtain ⟨below, hpath⟩ := path_first o
  have hnodup := nodup_path o
  rw [hpath, List.nodup_cons] at hnodup
  refine h.thin ?_ ?_ ?_ ?_
  · intro r
    rw [digested_merged]
    by_cases hr : r = 0
    · rw [hr, hroot]; exact List.prefix_append _ _
    · simp [afterwards, hr]
  · rw [hroot, digested_merged, List.take_append_of_le_length hmark]
  · have heq : line (afterwards s 0 net (b, broadcasts cfg 0 (d.setGlobalEpoch epoch))) j o mark =
        line (merged s 0 net d) j o mark := by
      rw [line, line, hpath, List.flatMap_cons, List.flatMap_cons, hzero, hzero', hroot, digested_merged,
        List.drop_append_of_le_length hmark, jobEvents_append, jobEvents_cons,
        List.flatMap_congr fun r hr => hother r fun he => hnodup.1 (he ▸ hr)]
      simp
    rw [heq]
    exact Thins.refl _
  · intro r hr
    rw [hother r fun he => hr (he ▸ zero_mem_path o)]
    exact h.off r hr

theorem JobLine.outcome {rank : Nat} {net : Network.Net BalancerTag EventMap} {d : EventMap}
    {r : EventDrivenBalancer × List (Network.Envelope BalancerTag EventMap)}
    (h : JobLine cfg (merged s rank net d) j o mark newest) (ha : Agreement cfg (merged s rank net d))
    (hup : Upward (merged s rank net d)) (ho : Outcome cfg rank (s.ranks rank) d r) :
    JobLine cfg (afterwards s rank net r) j o mark newest := by
  cases ho with
  | kept => exact h
  | sent _ => exact h.sent
  | digested h0 b hd =>
      subst h0
      exact h.digested ha hup hd

theorem upward_start : Upward BalancerSystem.start := fun _ _ _ => rfl

theorem Upward.merged (hup : Upward s) (rank : Nat) (d : EventMap) {net : Network.Net BalancerTag EventMap}
    (hnet : ∀ src dst, s.net .reduceData src dst = [] → net .reduceData src dst = []) :
    Upward (merged s rank net d) := fun src dst h => hnet src dst (hup src dst h)

theorem empty_after_take {tag : BalancerTag} {source rank : Nat} {data : EventMap}
    {net : Network.Net BalancerTag EventMap} (ht : Network.take s.net tag source rank = some (data, net))
    (src dst : Nat) (h : s.net .reduceData src dst = []) : net .reduceData src dst = [] := by
  obtain ⟨hhead, hkeep⟩ := Network.take_eq_some ht
  rw [hkeep .reduceData src dst ?_]
  · exact h
  · rintro ⟨rfl, rfl, rfl⟩
    rw [h] at hhead
    cases hhead

theorem Upward.outcome {rank : Nat} {net : Network.Net BalancerTag EventMap} {d : EventMap}
    {r : EventDrivenBalancer × List (Network.Envelope BalancerTag EventMap)} (hup : Upward (EventLine.merged s rank net d))
    (ho : Outcome cfg rank (s.ranks rank) d r) : Upward (afterwards s rank net r) := by
  intro src dst h
  have hold : net .reduceData src dst = [] := hup src dst h
  cases ho with
  | kept => exact hold
  | sent hr =>
      simp only [afterwards, Network.postAll_apply, hold, List.nil_append, Network.received_cons,
        Network.received_nil, List.append_nil, true_and]
      by_cases hs : src = rank
      · subst hs
        have hne : ¬ parentRank src = dst := by
          rcases h with h | h
          · exact absurd h hr
          · exact Ne.symm h
        simp [hne]
      · simp [hs]
  | digested h0 b hd => simp [afterwards, Network.postAll_apply, received_broadcasts, hold]

theorem upward_step {a : BalancerAction} (hup : Upward s) (hs : step cfg s a = .ok s') : Upward s' := by
  cases step_cases hs with
  | idle _ _ => exact hup
  | pushed rank event ready hr d r hd ho => exact (hup.merged rank d fun _ _ h => h).outcome ho
  | advanced rank ready hr d r hd ho => exact (hup.merged rank d fun _ _ h => h).outcome ho
  | reduced source rank ready hr data net ht r ho => exact (hup.merged rank _ (empty_after_take ht)).outcome ho
  | broadcast source rank ready hr data net ht b hd =>
      intro src dst h
      have hold : net .reduceData src dst = [] := empty_after_take ht src dst (hup src dst h)
      simp [afterwards, Network.postAll_apply, received_broadcasts, hold]

theorem Agreement.merged (ha : Agreement cfg s) {rank : Nat} (hr : rank < cfg.size) (d : EventMap)
    {net : Network.Net BalancerTag EventMap} (hnet : ∀ p c, net .broadcastData p c = s.net .broadcastData p c) :
    Agreement cfg (EventLine.merged s rank net d) := ha.of_outcome hr hnet .kept

/-- The map that a broadcast delivers is the next one which the rank digests. -/
theorem Agreement.next (ha : Agreement cfg s) {source rank : Nat} {data : EventMap}
    {net : Network.Net BalancerTag EventMap} (hr : rank < cfg.size)
    (ht : Network.take s.net .broadcastData source rank = some (data, net)) :
    rank ≠ 0 ∧ (s.ranks rank).digested ++ [data] <+: (s.ranks 0).digested := by
  obtain ⟨hhead, _⟩ := Network.take_eq_some ht
  have hchild := ha.child_of_take ht
  obtain ⟨hne, _, rfl⟩ := mem_childRanks.mp hchild
  refine ⟨hne, List.IsPrefix.trans ?_ (ha.digested_prefix ((parentRank_lt hne).trans hr))⟩
  rw [ha.link _ rank hchild, hhead]
  exact ⟨net .broadcastData (parentRank rank) rank, by simp⟩

theorem jobLine_step {a : BalancerAction} (h : JobLine cfg s j o mark newest) (ha : Agreement cfg s) (hup : Upward s)
    (hother : ∀ rank event ready, a = .pushEvent rank event ready → event.jobId ≠ j) (hs : step cfg s a = .ok s') :
    JobLine cfg s' j o mark newest := by
  cases step_cases hs with
  | idle _ _ => exact h
  | pushed rank event ready hr d r hd ho =>
      have hne := hother rank event ready rfl
      have hins : ((s.ranks rank).diffs.insertIfNovel event).1.map[j]? = (s.ranks rank).diffs.map[j]? := by
        rw [EventMap.lookup_insertIfNovel, if_neg hne]
      have hdj : d.map[j]? = (s.ranks rank).diffs.map[j]? := by
        rw [hd j, hins]
        intro ev hev
        rw [hins] at hev
        exact (h.nonneg_diffs hev).2.2
      exact (h.merge_same rank hdj).outcome (Agreement.merged ha hr d fun _ _ => rfl)
        (hup.merged rank d fun _ _ h => h) ho
  | advanced rank ready hr d r hd ho =>
      exact (h.refreshed hd).outcome (Agreement.merged ha hr d fun _ _ => rfl) (hup.merged rank d fun _ _ h => h) ho
  | reduced source rank ready hr data net ht r ho =>
      refine (h.reduced hup ht).outcome (Agreement.merged ha hr _ fun p c => ?_) (hup.merged rank _ (empty_after_take ht)) ho
      exact (Network.take_eq_some ht).2 _ _ _ (by simp)
  | broadcast source rank ready hr data net ht b hd =>
      obtain ⟨hne, hp⟩ := Agreement.next ha hr ht
      exact h.broadcast ha hd hne hp fun src dst => (Network.take_eq_some ht).2 _ _ _ (by simp)

theorem jobLine_push (h : JobLine cfg s j o mark newest) (ha : Agreement cfg s) (hup : Upward s) {ev : Event}
    (hj : ev.jobId = j) (h0 : 0 ≤ ev.epoch) (hf : ∀ n, newest = some n → Follows n ev) {ready : Bool}
    (hs : step cfg s (.pushEvent o ev ready) = .ok s') : JobLine cfg s' j o mark (some ev) := by
  cases step_cases hs with
  | idle _ hidle => exact absurd h.origin_lt (not_lt.mpr (hidle o ev ready rfl))
  | pushed _ _ _ hr d r hd ho =>
      exact (h.pushed hj h0 hf hd).outcome (Agreement.merged ha hr d fun _ _ => rfl)
        (hup.merged o d fun _ _ h => h) ho

end Mallob.EventLine
