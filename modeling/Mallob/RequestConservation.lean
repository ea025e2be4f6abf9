import Mallob.CollectiveAssignment

namespace Mallob.RequestConservation

open CollectiveAssignment JobRequest

variable {σ : Type} (w : LocalWorker σ)

def HandsBack (P : JobRequest → List JobRequest → Prop) : List JobRequest → CollectiveAssignment → σ → Prop
  | [], _, _ => True
  | req :: rest, ca, env =>
      match route w ca env req with
      | (.digest, ca, env) => P req (w.localRequestCallback req env).2 ∧
          HandsBack P rest ca (w.localRequestCallback req env).1
      | (_, ca, env) => HandsBack P rest ca env

def Silent (ca : CollectiveAssignment) (env : σ) : Prop :=
  HandsBack w (fun _ added => added = []) ca.requestList.toList ca env

/-- The callback passes on nothing but the request that it got, with other
hops, as the worker does when it rejects a request. -/
def Bounces : Prop := ∀ req env, ∀ r ∈ (w.localRequestCallback req env).2, equivalent before r req = true

def sent (s : Resolving σ) : List JobRequest := s.requestsPerDestination.flatMap Prod.snd

/-- Every request that is not obsolete is kept, sent away or digested, once;
and what the callback passed to addJobRequest is in the list. -/
structure Conserved (ca : CollectiveAssignment) (s : Resolving σ) : Prop where
  once : ∀ req ∈ ca.requestList.toList, isObsolete ca.epoch req = false →
    (s.ca.requestList.toList ++ sent s ++ s.digested).count req = 1
  added : ∀ req ∈ s.added, s.ca.requestList.contains req = true

variable {w}

theorem route_frame (ca : CollectiveAssignment) (env : σ) (req : JobRequest) :
    (route w ca env req).2.1.epoch = ca.epoch ∧ (route w ca env req).2.1.requestList = ca.requestList ∧
      ((route w ca env req).1 = .discard ↔ isObsolete ca.epoch req = true) := by
  rw [route]
  split
  · next h => exact ⟨rfl, rfl, by simp [h]⟩
  · next h =>
      dsimp only
      split
      · split
        · exact ⟨rfl, rfl, by simp [h]⟩
        · exact ⟨rfl, rfl, by simp [h]⟩
      · split
        · exact ⟨rfl, rfl, by simp [h]⟩
        · exact ⟨rfl, rfl, by simp [h]⟩

theorem addJobRequest_epoch (ca : CollectiveAssignment) (req : JobRequest) : (addJobRequest ca req).epoch = ca.epoch := by
  rw [addJobRequest]
  split <;> rfl

theorem addAll_epoch (reqs : List JobRequest) (ca : CollectiveAssignment) :
    (reqs.foldl addJobRequest ca).epoch = ca.epoch := by
  induction reqs generalizing ca with
  | nil => rfl
  | cons req reqs ih => rw [List.foldl_cons, ih, addJobRequest_epoch]

/-- Adding requests equivalent to one in the list leaves the list as it is. -/
theorem addAll_of_equivalent {ca : CollectiveAssignment} {req : JobRequest} (hreq : req ∈ ca.requestList.toList)
    {reqs : List JobRequest} (he : ∀ r ∈ reqs, equivalent before r req = true) : reqs.foldl addJobRequest ca = ca := by
  induction reqs with
  | nil => rfl
  | cons r reqs ih =>
      have hr : addJobRequest ca r = ca := by
        rw [addJobRequest]
        split
        · rfl
        · rw [ca.requestList.insert_of_equivalent (he r (by simp)) hreq]
      rw [List.foldl_cons, hr]
      exact ih fun r' hr' => he r' (by simp [hr'])

theorem flatMap_pushBack (destination : Int) (req : JobRequest) (m : List (Int × List JobRequest)) :
    ((pushBack destination req m).flatMap Prod.snd).Perm (m.flatMap Prod.snd ++ [req]) := by
  induction m with
  | nil => simp [pushBack]
  | cons e m ih =>
      rcases e with ⟨d, reqs⟩
      rw [pushBack]
      split
      · simp only [List.flatMap_cons, List.append_assoc]
        exact (List.perm_append_comm).append_left reqs
      · simp only [List.flatMap_cons, List.append_assoc]
        exact ih.append_left reqs

/-- One round files its request in exactly one place, unless it is obsolete. -/
theorem resolveOne_parts (s : Resolving σ) (req : JobRequest) :
    ((resolveOne w s req).requestsToKeep ++ sent (resolveOne w s req) ++ (resolveOne w s req).digested).Perm
      (s.requestsToKeep ++ sent s ++ s.digested ++ if isObsolete s.ca.epoch req then [] else [req]) := by
  obtain ⟨_, _, hdiscard⟩ := route_frame (w := w) s.ca s.env req
  rw [resolveOne]
  split
  · next ca env h =>
      rw [h] at hdiscard
      rw [if_pos (hdiscard.mp rfl), List.append_nil]
      rfl
  · next ca env h =>
      rw [h] at hdiscard
      rw [if_neg (mt hdiscard.mpr (by simp))]
      have hmove : ([req] ++ (sent s ++ s.digested)).Perm ((sent s ++ s.digested) ++ [req]) := List.perm_append_comm
      have hall := hmove.append_left s.requestsToKeep
      simpa only [sent, List.append_assoc] using hall
  · next destination ca env h =>
      rw [h] at hdiscard
      rw [if_neg (mt hdiscard.mpr (by simp))]
      simp only [sent, List.append_assoc]
      refine List.Perm.append_left _ (((flatMap_pushBack destination req s.requestsPerDestination).append_right _).trans ?_)
      rw [List.append_assoc]
      exact (List.perm_append_comm).append_left _
  · next ca env h =>
      rw [h] at hdiscard
      rw [if_neg (mt hdiscard.mpr (by simp))]
      simp [sent]

theorem resolveOne_epoch (s : Resolving σ) (req : JobRequest) : (resolveOne w s req).ca.epoch = s.ca.epoch := by
  obtain ⟨hepoch, _, _⟩ := route_frame (w := w) s.ca s.env req
  rw [resolveOne]
  split
  · next h => rw [h] at hepoch; exact hepoch
  · next h => rw [h] at hepoch; exact hepoch
  · next h => rw [h] at hepoch; exact hepoch
  · next h => rw [h] at hepoch; exact (addAll_epoch _ _).trans hepoch

theorem resolveOne_kept (s : Resolving σ) (req : JobRequest) :
    ∃ more, more.Sublist [req] ∧ (resolveOne w s req).requestsToKeep = s.requestsToKeep ++ more := by
  rw [resolveOne]
  split
  · exact ⟨[], List.nil_sublist _, by simp⟩
  · exact ⟨[req], List.Sublist.refl _, rfl⟩
  · exact ⟨[], List.nil_sublist _, by simp⟩
  · exact ⟨[], List.nil_sublist _, by simp⟩

theorem rounds_parts (todo : List JobRequest) (s : Resolving σ) :
    ((todo.foldl (resolveOne w) s).requestsToKeep ++ sent (todo.foldl (resolveOne w) s) ++
      (todo.foldl (resolveOne w) s).digested).Perm
      (s.requestsToKeep ++ sent s ++ s.digested ++ todo.filter fun req => !isObsolete s.ca.epoch req) := by
  induction todo generalizing s with
  | nil => simp
  | cons req todo ih =>
      rw [List.foldl_cons]
      refine (ih (resolveOne w s req)).trans ?_
      rw [resolveOne_epoch]
      refine ((resolveOne_parts s req).append_right _).trans ?_
      by_cases h : isObsolete s.ca.epoch req = true
      · simp [h]
      · simp [h]

theorem rounds_kept (todo : List JobRequest) (s : Resolving σ) :
    ∃ more, more.Sublist todo ∧ (todo.foldl (resolveOne w) s).requestsToKeep = s.requestsToKeep ++ more := by
  induction todo generalizing s with
  | nil => exact ⟨[], List.Sublist.refl _, by simp⟩
  | cons req todo ih =>
      obtain ⟨first, hfirst, h1⟩ := resolveOne_kept (w := w) s req
      obtain ⟨more, hmore, h2⟩ := ih (resolveOne w s req)
      refine ⟨first ++ more, hfirst.append hmore, ?_⟩
      rw [List.foldl_cons, h2, h1, List.append_assoc]

/-- A round whose hand-backs are equivalent to its request leaves the set as it is. -/
theorem resolveOne_bounced {P : JobRequest → List JobRequest → Prop}
    (hP : ∀ req added, P req added → ∀ r ∈ added, equivalent before r req = true) {s : Resolving σ} {req : JobRequest}
    {todo : List JobRequest} (hreq : req ∈ s.ca.requestList.toList) (h : HandsBack w P (req :: todo) s.ca s.env) :
    (resolveOne w s req).ca.requestList = s.ca.requestList ∧
      HandsBack w P todo (resolveOne w s req).ca (resolveOne w s req).env := by
  obtain ⟨_, hlist, _⟩ := route_frame (w := w) s.ca s.env req
  rw [HandsBack] at h
  rw [resolveOne]
  split
  · next hr => simp only [hr] at h hlist; exact ⟨hlist, h⟩
  · next hr => simp only [hr] at h hlist; exact ⟨hlist, h⟩
  · next hr => simp only [hr] at h hlist; exact ⟨hlist, h⟩
  · next ca env hr =>
      simp only [hr] at h hlist
      have hsame := addAll_of_equivalent (by rw [hlist]; exact hreq) (hP req _ h.1)
      simp only [hsame]
      exact ⟨hlist, h.2⟩

/-- The iteration passes over the requests of the set, one after the other. -/
theorem resolveLoop_eq {P : JobRequest → List JobRequest → Prop}
    (hP : ∀ req added, P req added → ∀ r ∈ added, equivalent before r req = true) {front todo : List JobRequest}
    {s : Resolving σ} (hs : s.ca.requestList.toList = front ++ todo) (h : HandsBack w P todo s.ca s.env) {fuel : Nat}
    (hf : todo.length < fuel) :
    resolveLoop w fuel front.getLast? s = some (todo.foldl (resolveOne w) s) := by
  induction todo generalizing front s fuel with
  | nil =>
      obtain ⟨fuel, rfl⟩ : ∃ k, fuel = k + 1 := ⟨fuel - 1, by omega⟩
      rw [resolveLoop, s.ca.requestList.next_split hs]
      rfl
  | cons req todo ih =>
      obtain ⟨fuel, rfl⟩ : ∃ k, fuel = k + 1 := ⟨fuel - 1, by omega⟩
      obtain ⟨hlist, hrest⟩ := resolveOne_bounced hP (by rw [hs]; simp) h
      rw [resolveLoop, s.ca.requestList.next_split hs, List.head?_cons]
      have hsplit : (resolveOne w s req).ca.requestList.toList = front ++ [req] ++ todo := by rw [hlist, hs]; simp
      have hlen : todo.length < fuel := by simp only [List.length_cons] at hf; omega
      have hnext := ih hsplit hrest hlen
      rw [List.getLast?_concat] at hnext
      exact hnext

theorem handsBack_of_bounces (hb : Bounces w) (todo : List JobRequest) (ca : CollectiveAssignment) (env : σ) :
    HandsBack w (fun req added => ∀ r ∈ added, equivalent before r req = true) todo ca env := by
  induction todo generalizing ca env with
  | nil => trivial
  | cons req todo ih =>
      rw [HandsBack]
      split
      · exact ⟨hb req _, ih _ _⟩
      · exact ih _ _

theorem resolveOne_logs (s : Resolving σ) (req : JobRequest) :
    s.digested <+: (resolveOne w s req).digested ∧ s.added <+: (resolveOne w s req).added := by
  rw [resolveOne]
  split
  · exact ⟨List.prefix_rfl, List.prefix_rfl⟩
  · exact ⟨List.prefix_rfl, List.prefix_rfl⟩
  · exact ⟨List.prefix_rfl, List.prefix_rfl⟩
  · exact ⟨List.prefix_append _ _, List.prefix_append _ _⟩

theorem rounds_logs (todo : List JobRequest) (s : Resolving σ) :
    s.digested <+: (todo.foldl (resolveOne w) s).digested ∧ s.added <+: (todo.foldl (resolveOne w) s).added := by
  induction todo generalizing s with
  | nil => exact ⟨List.prefix_rfl, List.prefix_rfl⟩
  | cons req todo ih =>
      obtain ⟨h1, h2⟩ := resolveOne_logs (w := w) s req
      obtain ⟨h3, h4⟩ := ih (resolveOne w s req)
      exact ⟨h1.trans h3, h2.trans h4⟩

theorem added_of_silent {todo : List JobRequest} {s : Resolving σ}
    (hreq : ∀ req ∈ todo, req ∈ s.ca.requestList.toList)
    (h : HandsBack w (fun _ added => added = []) todo s.ca s.env) :
    (todo.foldl (resolveOne w) s).added = s.added := by
  induction todo generalizing s with
  | nil => rfl
  | cons req todo ih =>
      obtain ⟨hlist, hrest⟩ := resolveOne_bounced (by rintro req added rfl; simp) (hreq req (by simp)) h
      rw [List.foldl_cons, ih (fun q hq => by rw [hlist]; exact hreq q (by simp [hq])) hrest]
      rw [HandsBack] at h
      rw [resolveOne]
      split
      · rfl
      · rfl
      · rfl
      · next hr =>
          simp only [hr] at h
          simp only [h.1, List.append_nil]

/-- Where the callback bounces a request, that request counts as digested and
an equivalent one was passed to addJobRequest. -/
theorem bounced_of_not_silent (hb : Bounces w) {todo : List JobRequest} {s : Resolving σ}
    (hreq : ∀ req ∈ todo, req ∈ s.ca.requestList.toList)
    (h : ¬ HandsBack w (fun _ added => added = []) todo s.ca s.env) :
    ∃ req ∈ todo, req ∈ (todo.foldl (resolveOne w) s).digested ∧
      ∃ r ∈ (todo.foldl (resolveOne w) s).added, equivalent before r req = true := by
  induction todo generalizing s with
  | nil => exact absurd trivial h
  | cons req todo ih =>
      have hbounce := handsBack_of_bounces hb (req :: todo) s.ca s.env
      obtain ⟨hlist, _⟩ := resolveOne_bounced (fun _ _ hh => hh) (hreq req (by simp)) hbounce
      have hlater (hrest : ¬ HandsBack w (fun _ added => added = []) todo (resolveOne w s req).ca
          (resolveOne w s req).env) : ∃ q ∈ req :: todo, q ∈ ((req :: todo).foldl (resolveOne w) s).digested ∧
          ∃ r ∈ ((req :: todo).foldl (resolveOne w) s).added, equivalent before r q = true := by
        obtain ⟨q, hq, hdig, hadd⟩ := ih (fun q hq => by rw [hlist]; exact hreq q (by simp [hq])) hrest
        exact ⟨q, by simp [hq], hdig, hadd⟩
      obtain ⟨hdig, hadd⟩ := rounds_logs (w := w) todo (resolveOne w s req)
      rw [HandsBack] at h
      cases hroute : route w s.ca s.env req with
      | mk r rest =>
          obtain ⟨ca, env⟩ := rest
          cases r with
          | discard => simp only [hroute] at h; exact hlater (by rw [resolveOne, hroute]; exact h)
          | keep => simp only [hroute] at h; exact hlater (by rw [resolveOne, hroute]; exact h)
          | send destination => simp only [hroute] at h; exact hlater (by rw [resolveOne, hroute]; exact h)
          | digest =>
              simp only [hroute] at h
              have hstep : resolveOne w s req = { s with
                  ca := (w.localRequestCallback req env).2.foldl addJobRequest ca
                  env := (w.localRequestCallback req env).1
                  digested := s.digested ++ [req]
                  added := s.added ++ (w.localRequestCallback req env).2 } := by rw [resolveOne, hroute]
              have hca : (w.localRequestCallback req env).2.foldl addJobRequest ca = ca := by
                obtain ⟨_, hl, _⟩ := route_frame (w := w) s.ca s.env req
                rw [hroute] at hl
                exact addAll_of_equivalent (by rw [show ca.requestList = s.ca.requestList from hl]; exact hreq req (by simp))
                  (hb req env)
              by_cases hnil : (w.localRequestCallback req env).2 = []
              · refine hlater ?_
                rw [hstep, hca]
                exact fun hh => h ⟨hnil, hh⟩
              · obtain ⟨r, hr⟩ := List.exists_mem_of_ne_nil _ hnil
                refine ⟨req, by simp, hdig.subset ?_, r, hadd.subset ?_, hb req env r hr⟩
                · rw [hstep]; simp
                · rw [hstep]; simp [hr]

section result

variable (w) (ca : CollectiveAssignment) (env : σ)

def rounds : Resolving σ := ca.requestList.toList.foldl (resolveOne w) ⟨ca, env, [], [], [], []⟩

def settled : Resolving σ :=
  { rounds w ca env with ca := { (rounds w ca env).ca with
      requestList := OrderedSet.empty.insertAll (rounds w ca env).requestsToKeep } }

variable {w ca env}

theorem resolveRequests_eq {P : JobRequest → List JobRequest → Prop}
    (hP : ∀ req added, P req added → ∀ r ∈ added, equivalent before r req = true)
    (h : HandsBack w P ca.requestList.toList ca env) {fuel : Nat} (hf : ca.requestList.toList.length < fuel) :
    resolveRequests w fuel ca env = some (settled w ca env) := by
  have hsplit : ca.requestList.toList = [] ++ ca.requestList.toList := rfl
  have hloop := resolveLoop_eq (s := ⟨ca, env, [], [], [], []⟩) hP hsplit h hf
  rw [List.getLast?_nil] at hloop
  rw [resolveRequests, hloop]
  rfl

theorem kept_eq : (settled w ca env).ca.requestList.toList = (rounds w ca env).requestsToKeep ∧
    ∀ req ∈ (rounds w ca env).requestsToKeep, req ∈ ca.requestList.toList := by
  obtain ⟨more, hsub, hmore⟩ := rounds_kept (w := w) ca.requestList.toList ⟨ca, env, [], [], [], []⟩
  have hkept : (rounds w ca env).requestsToKeep = more := hmore
  rw [hkept]
  refine ⟨?_, fun req hreq => hsub.subset hreq⟩
  have hsorted : ((OrderedSet.empty : OrderedSet before).toList ++ more).Pairwise fun a b => before a b = true := by
    simpa [OrderedSet.empty] using ca.requestList.sorted.sublist hsub
  have hall := OrderedSet.insertAll_of_sorted OrderedSet.empty hsorted
  simpa [settled, hkept, OrderedSet.empty] using hall

theorem count_parts {req : JobRequest} (hreq : req ∈ ca.requestList.toList) (ho : isObsolete ca.epoch req = false) :
    ((settled w ca env).ca.requestList.toList ++ sent (settled w ca env) ++ (settled w ca env).digested).count req =
      1 := by
  have hparts := rounds_parts (w := w) ca.requestList.toList ⟨ca, env, [], [], [], []⟩
  have hsent : sent (settled w ca env) = sent (rounds w ca env) := rfl
  have hdig : (settled w ca env).digested = (rounds w ca env).digested := rfl
  rw [kept_eq.1, hsent, hdig, rounds, hparts.count_eq]
  have hnodup : (ca.requestList.toList.filter fun r => !isObsolete ca.epoch r).Nodup :=
    ca.requestList.nodup.filter _
  have hmem : req ∈ ca.requestList.toList.filter fun r => !isObsolete ca.epoch r :=
    List.mem_filter.mpr ⟨hreq, by simp [ho]⟩
  simpa [sent] using List.count_eq_one_of_mem hnodup hmem

theorem conserved_of_silent (h : Silent w ca env) : Conserved ca (settled w ca env) := by
  refine ⟨fun req hreq ho => count_parts hreq ho, ?_⟩
  have hadded : (settled w ca env).added = [] :=
    added_of_silent (s := ⟨ca, env, [], [], [], []⟩) (fun _ hq => hq) h
  rw [hadded]
  simp

theorem not_conserved_of_bounced (hb : Bounces w) (h : ¬ Silent w ca env) : ¬ Conserved ca (settled w ca env) := by
  intro hc
  obtain ⟨req, hreq, hdig, r, hr, he⟩ :=
    bounced_of_not_silent hb (s := ⟨ca, env, [], [], [], []⟩) (fun _ hq => hq) h
  have hcontains := hc.added r hr
  obtain ⟨q, hq, hrq⟩ := List.any_eq_true.mp hcontains
  rw [kept_eq.1] at hq
  have hkey : q.key = req.key := (key_eq_of_equivalent hrq).symm.trans (key_eq_of_equivalent he)
  have hsame : q = req := by
    refine ca.requestList.eq_of_equivalent (kept_eq.2 q hq) hreq (equivalent_iff.mpr ?_)
    constructor
    · rw [← Bool.not_eq_true, before_iff, hkey]; exact lt_irrefl _
    · rw [← Bool.not_eq_true, before_iff, hkey]; exact lt_irrefl _
  subst hsame
  have ho : isObsolete ca.epoch q = false := by
    by_contra ho
    have hparts := rounds_parts (w := w) ca.requestList.toList ⟨ca, env, [], [], [], []⟩
    have hmem : q ∈ (rounds w ca env).requestsToKeep ++ sent (rounds w ca env) ++ (rounds w ca env).digested := by
      simp [hq]
    have := hparts.subset hmem
    simp [sent] at this
    exact ho this.2
  have hmem : q ∈ ca.requestList.toList := hreq
  have hcount : ((settled w ca env).ca.requestList.toList ++ sent (settled w ca env) ++
      (settled w ca env).digested).count q = 1 := count_parts hmem ho
  have hk : 0 < (settled w ca env).ca.requestList.toList.count q :=
    List.count_pos_iff.mpr (by rw [kept_eq.1]; exact hq)
  have hd : 0 < (settled w ca env).digested.count q := List.count_pos_iff.mpr hdig
  rw [List.count_append, List.count_append] at hcount
  omega

end result

/-- Requests are conserved whenever the callback takes the requests that it
gets. A callback that bounces requests loses the first one that it bounces. -/
theorem resolveRequests_conserves_iff {σ : Type} (w : LocalWorker σ) (ca : CollectiveAssignment) (env : σ) :
    (Silent w ca env → ∃ N, ∀ fuel, N ≤ fuel → ∃ s, resolveRequests w fuel ca env = some s ∧ Conserved ca s) ∧
    (Bounces w → ∃ N, ∀ fuel, N ≤ fuel → ∃ s, resolveRequests w fuel ca env = some s ∧
      (Conserved ca s ↔ Silent w ca env)) := by
  constructor
  · intro h
    refine ⟨ca.requestList.toList.length + 1, fun fuel hf => ⟨settled w ca env, ?_, conserved_of_silent h⟩⟩
    exact resolveRequests_eq (by rintro req added rfl; simp) h (by omega)
  · intro hb
    refine ⟨ca.requestList.toList.length + 1, fun fuel hf => ⟨settled w ca env, ?_, ?_, conserved_of_silent⟩⟩
    · exact resolveRequests_eq (fun _ _ hh => hh) (handsBack_of_bounces hb _ ca env) (by omega)
    · intro hc
      by_contra hs
      exact not_conserved_of_bounced hb hs hc

def pendingRequest : JobRequest := ⟨7, 1, 1, 1, 0, 0, 4, 3, .oneshotSat⟩

def withPending : CollectiveAssignment where
  rank := 0
  numWorkers := 2
  neighborTowardsRank := fun _ => 1
  epoch := 3
  childStatuses := []
  requestList := OrderedSet.empty.insert pendingRequest

def adoptingWorker : LocalWorker Bool := ⟨id, fun _ _ => (false, []), fun env => (0, env)⟩

def rejectingWorker : LocalWorker Unit :=
  ⟨fun _ => true, fun req env => (env, [{ req with numHops := req.numHops + 1 }]), fun env => (0, env)⟩

theorem resolveRequests_conserves_iff_adopting :
    Silent adoptingWorker withPending true ∧
    ∃ fuel s, resolveRequests adoptingWorker fuel withPending true = some s ∧ Conserved withPending s := by
  have hs : Silent adoptingWorker withPending true := ⟨rfl, trivial⟩
  obtain ⟨N, hN⟩ := (resolveRequests_conserves_iff adoptingWorker withPending true).1 hs
  exact ⟨hs, N, hN N le_rfl⟩

/-- The bounced request coincides with the one being processed, is therefore
not inserted, and the list is empty afterwards. -/
theorem resolveRequests_loses_bounced :
    ∃ s, resolveRequests rejectingWorker 2 withPending () = some s ∧
      s.added = [{ pendingRequest with numHops := 5 }] ∧ s.ca.requestList.toList = [] ∧ sent s = [] ∧
      ¬ Conserved withPending s := by
  have hrun : (resolveRequests rejectingWorker 2 withPending ()).map
      (fun s => (s.added, s.ca.requestList.toList, sent s)) =
      some ([{ pendingRequest with numHops := 5 }], [], []) := by decide +kernel
  obtain ⟨s, hs, heq⟩ := Option.map_eq_some_iff.mp hrun
  obtain ⟨hadded, hlist, hsent⟩ : s.added = [{ pendingRequest with numHops := 5 }] ∧
      s.ca.requestList.toList = [] ∧ sent s = [] := by simpa using heq
  refine ⟨s, hs, hadded, hlist, hsent, fun hc => ?_⟩
  have hcontains := hc.added { pendingRequest with numHops := 5 } (by rw [hadded]; simp)
  rw [OrderedSet.contains, hlist] at hcontains
  cases hcontains

end Mallob.RequestConservation
