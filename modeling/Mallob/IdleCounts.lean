import Mallob.RequestAccounting
import Mallob.Descendants
import Mallob.ReductionTrees

namespace Mallob.AssignmentNetwork

open CollectiveAssignment JobRequest Runs Descendants OutgoingEdges ReductionTrees Walks

variable {σ : Type} {n : Nat} [NeZero n] {w : LocalWorker σ} {table : Fin n → Fin n → Fin n}

def rootOf (n : Nat) [NeZero n] (epoch : Int) : Fin n := Fin.ofNat n (VolumeCalculator.hashInt epoch)

def parent (table : Fin n → Fin n → Fin n) (epoch : Int) (a : Fin n) : Fin n :=
  if a = rootOf n epoch then a else table a (rootOf n epoch)

noncomputable def subtree (table : Fin n → Fin n → Fin n) (epoch : Int) (a : Fin n) : Finset (Fin n) :=
  below (parent table epoch) a

def towards (table : Fin n → Fin n → Fin n) (r : Fin n) (x : Nat) : Int := if h : x < n then table r ⟨x, h⟩ else 0

structure Reports (table : Fin n → Fin n → Fin n) (epoch : Int) (a b : Fin n) (numIdle : Int) : Prop where
  ne_root : a ≠ rootOf n epoch
  child : table a (rootOf n epoch) = b
  nonneg : 0 ≤ numIdle
  le : numIdle ≤ (subtree table epoch a).card

structure Counts (table : Fin n → Fin n → Fin n) (r : Fin n) (ca : CollectiveAssignment) : Prop where
  rank : ca.rank = r
  numWorkers : ca.numWorkers = n
  edges : ca.neighborTowardsRank = towards table r
  nodup : (ca.childStatuses.map Prod.fst).Nodup
  reports : ∀ c ∈ ca.childStatuses, ∃ a : Fin n, c.1 = a ∧ Reports table ca.epoch a r c.2

def Heading (table : Fin n → Fin n → Fin n) (m : Transit) : Prop :=
  match m.message with
  | .status epoch numIdle => ∃ a b : Fin n, m.source = a ∧ m.dest = b ∧ Reports table epoch a b numIdle
  | .requests _ => ∃ b : Fin n, m.dest = b

section Rank

variable {r : Fin n} {ca : CollectiveAssignment}

theorem Counts.getCurrentRoot_eq (h : Counts table r ca) : getCurrentRoot ca = rootOf n ca.epoch := by
  rw [getCurrentRoot, h.numWorkers]
  rfl

theorem Counts.getCurrentParent_eq (h : Counts table r ca) :
    getCurrentParent ca = table r (rootOf n ca.epoch) := by
  rw [getCurrentParent, h.edges, h.getCurrentRoot_eq, towards, dif_pos (rootOf n ca.epoch).isLt]

theorem Counts.enterEpoch (h : Counts table r ca) (epoch : Int) :
    Counts table r { ca with epoch := epoch, childStatuses := [] } :=
  ⟨h.rank, h.numWorkers, h.edges, List.nodup_nil, fun _ hc => by cases hc⟩

theorem map_fst_setStatus (source k : Int) (cs : List (Int × Int)) :
    (Node.setStatus source k cs).map Prod.fst =
      if source ∈ cs.map Prod.fst then cs.map Prod.fst else cs.map Prod.fst ++ [source] := by
  induction cs with
  | nil => rfl
  | cons c cs ih =>
      rw [Node.setStatus]
      by_cases heq : c.1 = source
      · simp [heq]
      · rw [if_neg heq, List.map_cons, ih, List.map_cons]
        by_cases hmem : source ∈ cs.map Prod.fst
        · rw [if_pos hmem, if_pos (List.mem_cons_of_mem _ hmem)]
        · rw [if_neg hmem, if_neg (by simpa [Ne.symm heq] using hmem), List.cons_append]

theorem mem_setStatus {source k : Int} {cs : List (Int × Int)} {c : Int × Int}
    (h : c ∈ Node.setStatus source k cs) : c = (source, k) ∨ c ∈ cs := by
  induction cs with
  | nil => exact Or.inl (List.mem_singleton.mp h)
  | cons d cs ih =>
      rw [Node.setStatus] at h
      split at h
      · rcases List.mem_cons.mp h with rfl | h
        · exact Or.inl rfl
        · exact Or.inr (List.mem_cons_of_mem _ h)
      · rcases List.mem_cons.mp h with rfl | h
        · exact Or.inr (List.mem_cons_self ..)
        · exact (ih h).imp_right (List.mem_cons_of_mem _)

theorem Counts.setStatus (h : Counts table r ca) {a : Fin n} {k : Int} (hk : Reports table ca.epoch a r k) :
    Counts table r { ca with childStatuses := Node.setStatus a k ca.childStatuses } where
  rank := h.rank
  numWorkers := h.numWorkers
  edges := h.edges
  nodup := by
    rw [map_fst_setStatus]
    split
    · exact h.nodup
    · next hnew => exact List.nodup_append.mpr ⟨h.nodup, List.nodup_singleton _, by
        rintro x hx y hy rfl
        exact hnew (List.mem_singleton.mp hy ▸ hx)⟩
  reports := by
    intro c hc
    rcases mem_setStatus hc with rfl | hc
    · exact ⟨a, rfl, hk⟩
    · exact h.reports c hc

theorem map_fst_decrementIdle (cs : List (Int × Int)) (d : Int) :
    (decrementIdle cs d).map Prod.fst = cs.map Prod.fst := by
  rw [decrementIdle, List.map_map]
  refine List.map_congr_left fun c _ => ?_
  simp only [Function.comp_apply]
  split <;> rfl

theorem Counts.decrementIdle (h : Counts table r ca) {d : Int} (hd : ∃ c ∈ ca.childStatuses, c.1 = d ∧ 0 < c.2) :
    Counts table r { ca with childStatuses := decrementIdle ca.childStatuses d } where
  rank := h.rank
  numWorkers := h.numWorkers
  edges := h.edges
  nodup := by
    rw [map_fst_decrementIdle]
    exact h.nodup
  reports := by
    intro c hc
    obtain ⟨e, he, rfl⟩ := List.mem_map.mp hc
    obtain ⟨a, ha, hne, hchild, hnonneg, hle⟩ := h.reports e he
    split
    · next heq =>
        -- the entry is the only one of the child
        obtain ⟨c, hc, hcd, hpos⟩ := hd
        have hsame : c = e := List.inj_on_of_nodup_map h.nodup hc he (hcd.trans heq.symm)
        subst hsame
        exact ⟨a, ha, hne, hchild, by simp only; omega, by simp only; omega⟩
    · exact ⟨a, ha, hne, hchild, hnonneg, hle⟩

/-- A round leads to the parent, or to a child that is charged for it. -/
theorem Counts.route (h : Counts table r ca) (env : σ) (q : JobRequest) :
    Counts table r (route w ca env q).2.1 ∧ (CollectiveAssignment.route w ca env q).2.1.epoch = ca.epoch ∧
      ∀ d, (CollectiveAssignment.route w ca env q).1 = .send d → ∃ b : Fin n, d = b := by
  rw [CollectiveAssignment.route]
  split
  · exact ⟨h, rfl, fun _ hd => by cases hd⟩
  · dsimp only
    split
    · split
      · exact ⟨h, rfl, fun _ hd => by cases hd⟩
      · refine ⟨h, rfl, fun d hd => ⟨table r (rootOf n ca.epoch), ?_⟩⟩
        obtain rfl := Route.send.inj hd
        exact h.getCurrentParent_eq
    · next hfit =>
        split
        · exact ⟨h, rfl, fun _ hd => by cases hd⟩
        · next hother =>
            have hviable : ∃ c ∈ ca.childStatuses, c.1 = (getDestination w ca env).1 ∧ 0 < c.2 := by
              rw [getDestination] at hfit hother ⊢
              split at hfit
              · next hidle =>
                  rw [if_pos hidle] at hother
                  exact absurd rfl hother
              · next hbusy =>
                  rw [if_neg hbusy]
                  dsimp only at hfit ⊢
                  split at hfit
                  · exact absurd (by decide : (-1 : Int) < 0) hfit
                  · next hsome =>
                      rw [if_neg hsome]
                      have hlen : 0 < ((ca.childStatuses.filter fun c => c.2 > 0).map Prod.fst).length := by
                        rw [List.isEmpty_iff] at hsome
                        exact List.length_pos_iff.mpr hsome
                      rw [List.getD_eq_getElem _ _ (Nat.mod_lt _ hlen)]
                      obtain ⟨c, hc, hcd⟩ := List.mem_map.mp (List.getElem_mem (Nat.mod_lt (w.rand env).1 hlen))
                      obtain ⟨hmem, hpos⟩ := List.mem_filter.mp hc
                      exact ⟨c, hmem, hcd, by simpa using hpos⟩
            refine ⟨h.decrementIdle hviable, rfl, fun d hd => ?_⟩
            obtain rfl := Route.send.inj hd
            obtain ⟨c, hc, hcd, -⟩ := hviable
            obtain ⟨a, ha, -⟩ := h.reports c hc
            exact ⟨a, hcd.symm.trans ha⟩

theorem Counts.setRequests (h : Counts table r ca) (requests : OrderedSet before) :
    Counts table r { ca with requestList := requests } := ⟨h.rank, h.numWorkers, h.edges, h.nodup, h.reports⟩

theorem Counts.addJobRequest (h : Counts table r ca) (q : JobRequest) :
    Counts table r (ca.addJobRequest q) ∧ (ca.addJobRequest q).epoch = ca.epoch := by
  rw [CollectiveAssignment.addJobRequest]
  split
  · exact ⟨h, rfl⟩
  · exact ⟨h.setRequests _, rfl⟩

theorem Counts.addAll (h : Counts table r ca) (qs : List JobRequest) :
    Counts table r (qs.foldl CollectiveAssignment.addJobRequest ca) ∧
      (qs.foldl CollectiveAssignment.addJobRequest ca).epoch = ca.epoch := by
  induction qs generalizing ca with
  | nil => exact ⟨h, rfl⟩
  | cons q qs ih =>
      obtain ⟨hq, hepoch⟩ := h.addJobRequest q
      obtain ⟨hall, hrest⟩ := ih hq
      exact ⟨hall, hrest.trans hepoch⟩

theorem mem_pushBack {d : Int} {q : JobRequest} {m : List (Int × List JobRequest)} {e : Int × List JobRequest}
    (h : e ∈ pushBack d q m) : e.1 = d ∨ ∃ e' ∈ m, e'.1 = e.1 := by
  induction m with
  | nil =>
      obtain rfl := List.mem_singleton.mp h
      exact Or.inl rfl
  | cons f m ih =>
      rcases f with ⟨d', qs⟩
      rw [pushBack] at h
      split at h
      · next heq =>
          rcases List.mem_cons.mp h with rfl | h
          · exact Or.inl heq
          · exact Or.inr ⟨e, List.mem_cons_of_mem _ h, rfl⟩
      · rcases List.mem_cons.mp h with rfl | h
        · exact Or.inr ⟨_, List.mem_cons_self .., rfl⟩
        · rcases ih h with heq | ⟨e', he', heq⟩
          · exact Or.inl heq
          · exact Or.inr ⟨e', List.mem_cons_of_mem _ he', heq⟩

structure Resolves (table : Fin n → Fin n → Fin n) (r : Fin n) (epoch : Int) (s : Resolving σ) : Prop where
  counts : Counts table r s.ca
  epoch : s.ca.epoch = epoch
  dests : ∀ d ∈ s.requestsPerDestination, ∃ b : Fin n, d.1 = b

theorem Resolves.resolveOne {epoch : Int} {s : Resolving σ} (h : Resolves table r epoch s) (q : JobRequest) :
    Resolves table r epoch (resolveOne w s q) := by
  obtain ⟨hcounts, hepoch, hsend⟩ := h.counts.route (w := w) s.env q
  rw [h.epoch] at hepoch
  rw [CollectiveAssignment.resolveOne]
  split
  · next hr =>
      rw [hr] at hcounts hepoch
      exact ⟨hcounts, hepoch, h.dests⟩
  · next hr =>
      rw [hr] at hcounts hepoch
      exact ⟨hcounts, hepoch, h.dests⟩
  · next d ca env hr =>
      rw [hr] at hcounts hepoch hsend
      refine ⟨hcounts, hepoch, fun e he => ?_⟩
      rcases mem_pushBack he with heq | ⟨e', he', heq⟩
      · rw [heq]
        exact hsend d rfl
      · rw [← heq]
        exact h.dests e' he'
  · next ca env hr =>
      rw [hr] at hcounts hepoch
      obtain ⟨hall, hsame⟩ := hcounts.addAll (w.localRequestCallback q env).2
      exact ⟨hall, hsame.trans hepoch, h.dests⟩

theorem Resolves.resolveLoop {epoch : Int} {fuel : Nat} {current : Option JobRequest} {s s' : Resolving σ}
    (h : Resolves table r epoch s) (hs' : resolveLoop w fuel current s = some s') : Resolves table r epoch s' := by
  induction fuel generalizing current s with
  | zero => cases hs'
  | succ fuel ih =>
      rw [CollectiveAssignment.resolveLoop] at hs'
      cases hnext : s.ca.requestList.next current with
      | none =>
          rw [hnext] at hs'
          obtain rfl := Option.some.inj hs'
          exact h
      | some q =>
          rw [hnext] at hs'
          exact ih (h.resolveOne q) hs'

theorem Counts.resolveRequests (h : Counts table r ca) {fuel : Nat} {env : σ} {s : Resolving σ}
    (hs : resolveRequests w fuel ca env = some s) : Resolves table r ca.epoch s := by
  obtain ⟨s₁, hloop, rfl⟩ := Option.map_eq_some_iff.mp hs
  have hstart : Resolves table r ca.epoch (⟨ca, env, [], [], [], []⟩ : Resolving σ) :=
    ⟨h, rfl, fun _ hd => by cases hd⟩
  obtain ⟨hcounts, hepoch, hdests⟩ := hstart.resolveLoop hloop
  exact ⟨hcounts.setRequests _, hepoch, hdests⟩

end Rank

section Aggregation

variable {r : Fin n} {ca : CollectiveAssignment} {dist : Fin n → Fin n → Nat}

def Leads (table : Fin n → Fin n → Fin n) (dist : Fin n → Fin n → Nat) : Prop :=
  ∀ a x, x ≠ a → dist (table a x) x + 1 = dist a x

theorem Leads.parent (h : Leads table dist) (epoch : Int) (a : Fin n) (ha : a ≠ rootOf n epoch) :
    dist (parent table epoch a) (rootOf n epoch) + 1 = dist a (rootOf n epoch) := by
  rw [AssignmentNetwork.parent, if_neg ha]
  exact h a _ ha.symm

theorem parent_root (epoch : Int) : parent table epoch (rootOf n epoch) = rootOf n epoch := if_pos rfl

theorem Counts.sum_le (h : Counts table r ca) (hleads : Leads table dist) :
    0 ≤ (ca.childStatuses.map Prod.snd).sum ∧
      (ca.childStatuses.map Prod.snd).sum + 1 ≤ (subtree table ca.epoch r).card := by
  have hnonneg : ∀ k ∈ ca.childStatuses.map Prod.snd, 0 ≤ k := by
    intro k hk
    obtain ⟨c, hc, rfl⟩ := List.mem_map.mp hk
    obtain ⟨a, -, hreport⟩ := h.reports c hc
    exact hreport.nonneg
  refine ⟨List.sum_nonneg hnonneg, ?_⟩
  have hrank : ∀ c ∈ ca.childStatuses, Reports table ca.epoch (Fin.ofNat n c.1.toNat) r c.2 ∧
      ((Fin.ofNat n c.1.toNat : Fin n) : Int) = c.1 := by
    intro c hc
    obtain ⟨a, ha, hreport⟩ := h.reports c hc
    have hsame : Fin.ofNat n c.1.toNat = a := by
      refine Fin.ext ?_
      rw [ha, Fin.val_ofNat, Int.toNat_natCast, Nat.mod_eq_of_lt a.isLt]
    rw [hsame]
    exact ⟨hreport, ha.symm⟩
  have hnodup : (ca.childStatuses.map fun c => Fin.ofNat n c.1.toNat).Nodup := by
    refine List.Nodup.of_map (fun a : Fin n => (a : Int)) ?_
    rw [List.map_map]
    have hkeys : ca.childStatuses.map ((fun a : Fin n => (a : Int)) ∘ fun c => Fin.ofNat n c.1.toNat) =
        ca.childStatuses.map Prod.fst := List.map_congr_left fun c hc => (hrank c hc).2
    rw [hkeys]
    exact h.nodup
  have hchildren : ∀ a ∈ (ca.childStatuses.map fun c => Fin.ofNat n c.1.toNat).toFinset,
      a ≠ rootOf n ca.epoch ∧ parent table ca.epoch a = r := by
    intro a ha
    obtain ⟨c, hc, rfl⟩ := List.mem_map.mp (List.mem_toFinset.mp ha)
    obtain ⟨⟨hne, hchild, -, -⟩, -⟩ := hrank c hc
    exact ⟨hne, by rw [AssignmentNetwork.parent, if_neg hne]; exact hchild⟩
  have hbelow := sum_card_below (μ := fun a => dist a (rootOf n ca.epoch)) (hleads.parent ca.epoch)
    (parent_root ca.epoch) hchildren
  rw [List.sum_toFinset _ hnodup, List.map_map] at hbelow
  have hvalues : (ca.childStatuses.map Prod.snd).sum ≤
      ((ca.childStatuses.map ((fun a => (below (parent table ca.epoch) a).card) ∘
        fun c => Fin.ofNat n c.1.toNat)).sum : Nat) := by
    rw [Nat.cast_list_sum, List.map_map]
    refine List.sum_le_sum fun c hc => ?_
    exact (hrank c hc).1.le
  rw [subtree]
  omega

theorem Counts.getAggregatedStatus (h : Counts table r ca) (hleads : Leads table dist) (env : σ) :
    0 ≤ Node.getAggregatedStatus w ca env ∧ Node.getAggregatedStatus w ca env ≤ (subtree table ca.epoch r).card := by
  obtain ⟨hnonneg, hle⟩ := h.sum_le hleads
  rw [Node.getAggregatedStatus]
  split
  · exact ⟨by omega, by omega⟩
  · exact ⟨by omega, by omega⟩

end Aggregation

section Runs

variable {s s' : State σ n} {dist : Fin n → Fin n → Nat}

structure Tallied (table : Fin n → Fin n → Fin n) (s : State σ n) : Prop where
  counts : ∀ r, Counts table r (s.nodes r).ca
  heading : ∀ m ∈ s.inFlight, Heading table m

theorem Tallied.setNode (h : Tallied table s) {r : Fin n} {x : Node σ} (hx : Counts table r x.ca)
    (hnodes : s'.nodes = Function.update s.nodes r x) (hheading : ∀ m ∈ s'.inFlight, Heading table m) :
    Tallied table s' where
  counts a := by
    rw [hnodes]
    by_cases ha : a = r
    · subst ha
      rw [Function.update_self]
      exact hx
    · rw [Function.update_of_ne ha]
      exact h.counts a
  heading := hheading

theorem counts_enterEpoch {r : Fin n} {x : Node σ} (h : Counts table r x.ca) (epoch : Int) :
    Counts table r (if epoch > x.ca.epoch then x.enterEpoch epoch else x).ca := by
  split
  · exact h.enterEpoch epoch
  · exact h

/-- A call of advance sends requests along the tree, and its status to the parent. -/
theorem counts_advance (hleads : Leads table dist) {r : Fin n} {x y : Node σ} (h : Counts table r x.ca) {epoch : Int}
    {fuel : Nat} {dirtied : Bool} {out : List Transit} {digested : List JobRequest}
    (hok : x.advance w epoch fuel dirtied = .ok (y, out, digested)) :
    Counts table r y.ca ∧ ∀ m ∈ out, Heading table m := by
  have hx₁ := counts_enterEpoch h epoch
  rw [Node.advance] at hok
  generalize (if epoch > x.ca.epoch then x.enterEpoch epoch else x) = x₁ at hok hx₁
  cases hr : resolveRequests w fuel x₁.ca x₁.env with
  | none =>
      simp only [hr] at hok
      cases hok
  | some s =>
      simp only [hr, Except.ok.injEq, Prod.mk.injEq] at hok
      obtain ⟨rfl, rfl, rfl⟩ := hok
      obtain ⟨hcounts, hepoch, hdests⟩ := hx₁.resolveRequests hr
      refine ⟨hcounts, fun m hm => ?_⟩
      rcases List.mem_append.mp hm with hm | hm
      · obtain ⟨d, hd, rfl⟩ := List.mem_map.mp hm
        exact hdests d hd
      · split at hm
        · next hsends =>
            obtain rfl := List.mem_singleton.mp hm
            have hne : r ≠ rootOf n s.ca.epoch := by
              intro heq
              refine hsends.2 ?_
              rw [hcounts.rank, hcounts.getCurrentRoot_eq, heq]
            obtain ⟨hnonneg, hle⟩ := hcounts.getAggregatedStatus (w := w) hleads s.env
            exact ⟨r, table r (rootOf n s.ca.epoch), hx₁.rank, hcounts.getCurrentParent_eq, hne, rfl, hnonneg, hle⟩
        · cases hm

theorem counts_receiveAll {r : Fin n} {ca : CollectiveAssignment} (h : Counts table r ca) (qs : List JobRequest) :
    Counts table r (qs.foldl Node.receiveRequest ca) := by
  induction qs generalizing ca with
  | nil => exact h
  | cons q qs ih =>
      refine ih ?_
      rw [Node.receiveRequest]
      split
      · exact h.setRequests _
      · exact h

/-- A status of an older epoch is dropped, and one of a newer epoch is the first that counts. -/
theorem counts_deserialize {r : Fin n} {x : Node σ} (h : Counts table r x.ca) {m : Transit} (hm : Heading table m)
    (hdest : m.dest = r) : Counts table r (x.deserialize m.source m.message).ca := by
  rcases m with ⟨source, dest, message⟩
  cases message with
  | status epoch k =>
      obtain ⟨a, b, rfl, hb, hreport⟩ := hm
      have hbr : b = r := by
        refine Fin.ext ?_
        have heq : (b : Int) = r := hb.symm.trans hdest
        exact_mod_cast heq
      subst hbr
      rw [Node.deserialize]
      split
      · exact h
      · next hold =>
          dsimp only
          have hepoch : (if epoch > x.ca.epoch then x.enterEpoch epoch else x).ca.epoch = epoch := by
            split
            · rfl
            · omega
          exact (counts_enterEpoch h epoch).setStatus (hepoch.symm ▸ hreport)
  | requests qs => exact counts_receiveAll h qs

theorem tallied_step (hleads : Leads table dist) {a : Action σ n} (h : Tallied table s) (hok : step w s a = .ok s') :
    Tallied table s' := by
  cases a with
  | work r env dirtied =>
      obtain rfl := Except.ok.inj hok
      exact h.setNode (r := r) (x := { s.nodes r with env := env, statusDirty := (s.nodes r).statusDirty || dirtied })
        (h.counts r) rfl h.heading
  | addJobRequest r q =>
      obtain rfl := Except.ok.inj hok
      exact h.setNode ((h.counts r).addJobRequest q).1 rfl h.heading
  | advance r epoch fuel dirtied =>
      obtain ⟨⟨y, out, digested⟩, hadvance, rfl⟩ := exists_of_map_eq_ok hok
      obtain ⟨hcounts, hheading⟩ := counts_advance hleads (h.counts r) hadvance
      refine h.setNode hcounts rfl fun m hm => ?_
      rcases List.mem_append.mp hm with hm | hm
      · exact h.heading m hm
      · exact hheading m hm
  | deliver i =>
      rw [step] at hok
      cases hm : s.inFlight[i]? with
      | none =>
          simp only [hm] at hok
          obtain rfl := Except.ok.inj hok
          exact h
      | some m =>
          simp only [hm] at hok
          split at hok
          · next hrank =>
              obtain rfl := Except.ok.inj hok
              have hmem : m ∈ s.inFlight := List.mem_of_getElem? hm
              have hdest : m.dest = ((⟨m.dest.toNat, hrank.2⟩ : Fin n) : Int) := (Int.toNat_of_nonneg hrank.1).symm
              refine h.setNode (counts_deserialize (h.counts _) (h.heading m hmem) hdest) rfl fun m' hm' => ?_
              exact h.heading m' (List.mem_of_mem_eraseIdx hm')
          · cases hok

theorem tallied_start (table : Fin n → Fin n → Fin n) (env : Fin n → σ) : Tallied table (start (towards table) env) :=
  ⟨fun _ => ⟨rfl, rfl, rfl, List.nodup_nil, fun _ hc => by cases hc⟩, fun _ hm => by cases hm⟩

theorem Heading.dest_lt {m : Transit} (h : Heading table m) : 0 ≤ m.dest ∧ m.dest.toNat < n := by
  have hdest : ∃ b : Fin n, m.dest = b := by
    rcases m with ⟨source, dest, message⟩
    cases message with
    | status epoch k =>
        obtain ⟨-, b, -, hb, -⟩ := h
        exact ⟨b, hb⟩
    | requests qs => exact h
  obtain ⟨b, hb⟩ := hdest
  rw [hb]
  exact ⟨Int.natCast_nonneg _, by rw [Int.toNat_natCast]; exact b.isLt⟩

/-- In every run, whatever the ranks' epochs are and in whatever order the updates arrive, no update goes to a rank
that does not exist, and the number of idle ranks that a rank knows of or has reported is at most the number of ranks in
its subtree of the epoch. -/
theorem idle_counts (hn : n ≤ int32Max) {cycle : Fin n → Fin n}
    (hcycle : SingleCycle cycle) (others : List (Fin n → Fin n))
    (htable : ∀ r, getBestOutgoingEdgeForEachNode VolumeCalculator.hashInt (cycle :: others) r = .ok fun x => some (table r x))
    {env : Fin n → σ} {as : List (Action σ n)} (h : run (step w) (start (towards table) env) as = .ok s) :
    (∀ a, step w s a ≠ .error .noSuchRank) ∧
      (∀ r, 0 ≤ Node.getAggregatedStatus w (s.nodes r).ca (s.nodes r).env ∧
        Node.getAggregatedStatus w (s.nodes r).ca (s.nodes r).env ≤ (subtree table (s.nodes r).ca.epoch r).card) ∧
      ∀ m ∈ s.inFlight, ∀ epoch k, m.message = .status epoch k →
        ∃ r : Fin n, m.source = r ∧ 0 ≤ k ∧ k ≤ (subtree table epoch r).card := by
  obtain ⟨table', htable', hdist, -⟩ := getBestOutgoingEdgeForEachNode_forms_trees hashInt_injOn hn hcycle others
  have hsame : table' = table := by
    funext r x
    have heq := Except.ok.inj ((htable' r).symm.trans (htable r))
    exact Option.some.inj (congrFun heq x)
  subst hsame
  have hleads : Leads table' fun a b => dist (Edge (cycle :: others)) a b := fun a x hx => (hdist a x hx).2.2
  have htallied : Tallied table' s :=
    run_invariant (tallied_start table' env) (fun _ _ _ hs hok => tallied_step hleads hs hok) h
  refine ⟨fun a herror => ?_, fun r => (htallied.counts r).getAggregatedStatus hleads _, fun m hm epoch k hk => ?_⟩
  · cases a with
    | work r env dirtied => cases herror
    | addJobRequest r q => cases herror
    | advance r epoch fuel dirtied =>
        have hfault : (s.nodes r).advance w epoch fuel dirtied ≠ .error .noSuchRank := by
          rw [Node.advance]
          dsimp only
          split
          · simp
          · simp
        cases hadvance : (s.nodes r).advance w epoch fuel dirtied with
        | error e =>
            rw [step, hadvance] at herror
            obtain rfl := Except.error.inj herror
            exact hfault hadvance
        | ok out =>
            rw [step, hadvance] at herror
            cases herror
    | deliver i =>
        rw [step] at herror
        cases hm : s.inFlight[i]? with
        | none =>
            simp only [hm] at herror
            cases herror
        | some m =>
            simp only [hm, dif_pos (htallied.heading m (List.mem_of_getElem? hm)).dest_lt] at herror
            cases herror
  · have hheading := htallied.heading m hm
    rw [Heading, hk] at hheading
    obtain ⟨a, b, ha, -, hreport⟩ := hheading
    exact ⟨a, ha, hreport.nonneg, hreport.le⟩

def reported (r : Fin 2) : List (Action Bool 2) := [.advance r 3 1 false, .deliver 0]

theorem idle_counts_reported : ∃ s : State Bool 2,
    run (step RequestConservation.adoptingWorker) (start (towards fun _ x => x) fun _ => true) (reported 0) = .ok s ∧
      Node.getAggregatedStatus RequestConservation.adoptingWorker (s.nodes 1).ca (s.nodes 1).env = 2 ∧
      2 ≤ (subtree (fun _ x => x) (s.nodes 1).ca.epoch (1 : Fin 2)).card := by
  have hcycle : SingleCycle (fun r : Fin 2 => r + 1) :=
    ⟨by decide, fun a b => ⟨(b - a).val, by revert a b; decide⟩⟩
  have hentries : ∀ r : Fin 2, (getBestOutgoingEdgeForEachNode VolumeCalculator.hashInt [fun r => r + 1] r).toOption.map
      (fun f => (f 0, f 1)) = some (some 0, some 1) := by decide +kernel
  have htable : ∀ r : Fin 2, getBestOutgoingEdgeForEachNode VolumeCalculator.hashInt [fun r => r + 1] r =
      .ok fun x => some x := by
    intro r
    obtain ⟨f, hf, heq⟩ := exists_of_toOption (hentries r)
    obtain ⟨h0, h1⟩ := Prod.mk.inj heq
    rw [hf]
    refine congrArg Except.ok (funext fun x => ?_)
    fin_cases x
    · exact h0
    · exact h1
  have hrun : (run (step RequestConservation.adoptingWorker) (start (towards fun (_ x : Fin 2) => x) fun _ => true)
      (reported 0)).toOption.map (fun s =>
        Node.getAggregatedStatus RequestConservation.adoptingWorker (s.nodes 1).ca (s.nodes 1).env) = some 2 := by
    decide +kernel
  obtain ⟨s, hs, heq⟩ := exists_of_toOption hrun
  have hcounts := ((idle_counts (by decide) hcycle [] htable hs).2.1 1).2
  rw [heq] at hcounts
  exact ⟨s, hs, heq, by exact_mod_cast hcounts⟩

end Runs

end Mallob.AssignmentNetwork
