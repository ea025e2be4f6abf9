import Mallob.AssignmentNetwork

namespace Mallob.AssignmentNetwork

open CollectiveAssignment RequestConservation JobRequest Runs

variable {σ : Type} {n : Nat} {w : LocalWorker σ} {q x : JobRequest} {rs rs' : List JobRequest}

def copies (q : JobRequest) (rs : List JobRequest) : Nat := rs.countP fun r => r.key = q.key

@[simp] theorem copies_nil : copies q [] = 0 := rfl

@[simp] theorem copies_append : copies q (rs ++ rs') = copies q rs + copies q rs' := List.countP_append ..

theorem copies_cons : copies q (x :: rs) = copies q rs + if x.key = q.key then 1 else 0 := by
  simp [copies, List.countP_cons]

theorem copies_perm (h : rs.Perm rs') : copies q rs = copies q rs' := h.countP_eq _

theorem copies_pos_iff : 0 < copies q rs ↔ ∃ r ∈ rs, r.key = q.key := by
  simp [copies, List.countP_pos_iff]

theorem equivalent_iff_key_eq : equivalent before x q = true ↔ x.key = q.key := equivalent_iff_key before_iff

section Insertion

variable (s : OrderedSet before)

theorem copies_insert : copies q (s.insert x).toList =
    if 0 < copies x s.toList then copies q s.toList else copies q s.toList + if x.key = q.key then 1 else 0 := by
  split
  · next hpos =>
      obtain ⟨y, hy, hkey⟩ := copies_pos_iff.mp hpos
      rw [s.insert_of_equivalent (equivalent_iff_key_eq.mpr hkey.symm) hy]
  · next hzero =>
      have hperm := s.perm_insert (x := x) fun y hy => by
        rw [← Bool.not_eq_true, equivalent_iff_key_eq]
        exact fun hkey => hzero (copies_pos_iff.mpr ⟨y, hy, hkey.symm⟩)
      rw [copies_perm hperm, copies_cons]

theorem copies_insert_le : copies q (s.insert x).toList ≤ copies q s.toList + if x.key = q.key then 1 else 0 := by
  rw [copies_insert]
  split
  · exact Nat.le_add_right _ _
  · exact le_rfl

theorem le_copies_insert : copies q s.toList ≤ copies q (s.insert x).toList := by
  rw [copies_insert]
  split
  · exact le_rfl
  · exact Nat.le_add_right _ _

theorem copies_insert_pos (hkey : x.key = q.key) : 0 < copies q (s.insert x).toList := by
  rw [copies_insert]
  split
  · next hpos =>
      obtain ⟨y, hy, hy'⟩ := copies_pos_iff.mp hpos
      exact copies_pos_iff.mpr ⟨y, hy, hy'.trans hkey⟩
  · exact Nat.succ_pos _

end Insertion

/-- The request has fallen behind an epoch, and it does not ask for a root. -/
def Outdated (q : JobRequest) (epoch : Int) : Prop := q.balancingEpoch < epoch ∧ q.requestedNodeIndex ≠ 0

theorem Outdated.mono {epoch epoch' : Int} (h : Outdated q epoch) (hle : epoch ≤ epoch') : Outdated q epoch' :=
  ⟨h.1.trans_le hle, h.2⟩

theorem fields_of_key (h : x.key = q.key) :
    x.balancingEpoch = q.balancingEpoch ∧ x.requestedNodeIndex = q.requestedNodeIndex := by
  obtain ⟨hepoch, hrest⟩ := Prod.mk.inj (toLex_inj.mp h)
  obtain ⟨-, hrest⟩ := Prod.mk.inj (toLex_inj.mp hrest)
  obtain ⟨hindex, -⟩ := Prod.mk.inj (toLex_inj.mp hrest)
  exact ⟨hepoch, hindex⟩

theorem outdated_congr {epoch : Int} (h : x.key = q.key) : Outdated x epoch ↔ Outdated q epoch := by
  obtain ⟨hepoch, hindex⟩ := fields_of_key h
  rw [Outdated, Outdated, hepoch, hindex]

theorem isObsolete_congr {epoch : Int} (h : x.key = q.key) : isObsolete epoch x = isObsolete epoch q := by
  obtain ⟨hepoch, hindex⟩ := fields_of_key h
  rw [isObsolete, isObsolete, hepoch, hindex]

theorem outdated_of_isObsolete {epoch : Int} (h : isObsolete epoch q = true) : Outdated q epoch := by
  simp only [isObsolete, Bool.and_eq_true, decide_eq_true_eq] at h
  exact ⟨h.1, h.2.ne'⟩

section Receive

variable {ca : CollectiveAssignment}

theorem receiveRequest_epoch (ca : CollectiveAssignment) (x : JobRequest) : (Node.receiveRequest ca x).epoch = ca.epoch := by
  rw [Node.receiveRequest]
  split <;> rfl

/-- A request that arrives is inserted or merged with a copy, or it has fallen behind. -/
theorem receiveRequest_copies (ca : CollectiveAssignment) (x : JobRequest) :
    copies q (Node.receiveRequest ca x).requestList.toList ≤
        copies q ca.requestList.toList + (if x.key = q.key then 1 else 0) ∧
      copies q ca.requestList.toList ≤ copies q (Node.receiveRequest ca x).requestList.toList ∧
      (x.key = q.key → 0 < copies q (Node.receiveRequest ca x).requestList.toList ∨ Outdated q ca.epoch) := by
  have hhop : ({ x with numHops := x.numHops + 1 } : JobRequest).key = x.key := rfl
  rw [Node.receiveRequest]
  split
  · refine ⟨?_, le_copies_insert _, fun hkey => Or.inl (copies_insert_pos _ (hhop.trans hkey))⟩
    rw [← hhop]
    exact copies_insert_le _
  · next hold =>
      refine ⟨Nat.le_add_right _ _, le_rfl, fun hkey => Or.inr ?_⟩
      rw [← outdated_congr hkey, Outdated]
      obtain ⟨hlt, hne⟩ := not_or.mp hold
      exact ⟨not_le.mp hlt, hne⟩

theorem receiveAll_copies (reqs : List JobRequest) (ca : CollectiveAssignment) :
    (reqs.foldl Node.receiveRequest ca).epoch = ca.epoch ∧
      copies q (reqs.foldl Node.receiveRequest ca).requestList.toList ≤
        copies q ca.requestList.toList + copies q reqs ∧
      copies q ca.requestList.toList ≤ copies q (reqs.foldl Node.receiveRequest ca).requestList.toList ∧
      (0 < copies q reqs →
        0 < copies q (reqs.foldl Node.receiveRequest ca).requestList.toList ∨ Outdated q ca.epoch) := by
  induction reqs generalizing ca with
  | nil => exact ⟨rfl, le_rfl, le_rfl, fun h => absurd h (lt_irrefl _)⟩
  | cons x reqs ih =>
      obtain ⟨hepoch, hle, hge, hpos⟩ := ih (Node.receiveRequest ca x)
      obtain ⟨hle', hge', hpos'⟩ := receiveRequest_copies (q := q) ca x
      rw [receiveRequest_epoch] at hepoch hpos
      rw [List.foldl_cons, copies_cons]
      refine ⟨hepoch, by omega, hge'.trans hge, fun h => ?_⟩
      by_cases hkey : x.key = q.key
      · rcases hpos' hkey with hin | hout
        · exact Or.inl (hin.trans_le hge)
        · exact Or.inr hout
      · rw [if_neg hkey] at h
        exact hpos h

end Receive

section Resolve

variable {ca : CollectiveAssignment} {env : σ}

theorem resolveLoop_mono {fuel fuel' : Nat} (hle : fuel ≤ fuel') {current : Option JobRequest} {s s' : Resolving σ}
    (h : resolveLoop w fuel current s = some s') : resolveLoop w fuel' current s = some s' := by
  induction fuel generalizing fuel' current s with
  | zero => cases h
  | succ fuel ih =>
      obtain ⟨fuel', rfl⟩ : ∃ k, fuel' = k + 1 := ⟨fuel' - 1, by omega⟩
      rw [resolveLoop] at h ⊢
      cases hnext : s.ca.requestList.next current with
      | none =>
          rw [hnext] at h
          exact h
      | some y =>
          rw [hnext] at h
          exact ih (by omega) h

/-- Where the callback bounces requests at most, the list is settled in one pass, whatever fuel was enough. -/
theorem resolved_eq_settled (hb : Bounces w) {fuel : Nat} {r : Resolving σ}
    (h : resolveRequests w fuel ca env = some r) : r = settled w ca env := by
  have hmax := resolveRequests_eq (fun _ _ hh => hh) (handsBack_of_bounces hb ca.requestList.toList ca env)
    (show ca.requestList.toList.length < max fuel (ca.requestList.toList.length + 1) by omega)
  obtain ⟨s, hs, rfl⟩ := Option.map_eq_some_iff.mp h
  have hmono := resolveLoop_mono (le_max_left fuel (ca.requestList.toList.length + 1)) hs
  rw [resolveRequests, hmono] at hmax
  exact Option.some.inj hmax

theorem rounds_epoch (todo : List JobRequest) (s : Resolving σ) :
    (todo.foldl (resolveOne w) s).ca.epoch = s.ca.epoch := by
  induction todo generalizing s with
  | nil => rfl
  | cons x todo ih => rw [List.foldl_cons, ih, resolveOne_epoch]

/-- The copies of a request in the list are kept, sent or digested, unless they have fallen behind. -/
theorem settled_copies (ca : CollectiveAssignment) (env : σ) (q : JobRequest) :
    copies q ((settled w ca env).ca.requestList.toList) + copies q (sent (settled w ca env)) +
        copies q (settled w ca env).digested =
      if isObsolete ca.epoch q then 0 else copies q ca.requestList.toList := by
  have hparts := rounds_parts (w := w) ca.requestList.toList ⟨ca, env, [], [], [], []⟩
  have hcopies := copies_perm (q := q) hparts
  rw [copies_append, copies_append] at hcopies
  rw [kept_eq.1]
  refine hcopies.trans ?_
  simp only [sent, List.flatMap_nil, List.append_nil, List.nil_append, copies, List.countP_filter]
  split
  · next ho =>
      rw [List.countP_eq_zero]
      intro y _ hy
      simp only [Bool.and_eq_true, decide_eq_true_eq, Bool.not_eq_true'] at hy
      rw [isObsolete_congr hy.1, ho] at hy
      cases hy.2
  · next ho =>
      refine List.countP_congr fun y _ => ?_
      simp only [Bool.and_eq_true, decide_eq_true_eq, Bool.not_eq_true']
      refine ⟨fun hy => hy.1, fun hy => ⟨hy, ?_⟩⟩
      rw [isObsolete_congr hy]
      exact Bool.not_eq_true _ ▸ ho

end Resolve

section Runs

variable {s s' : State σ n}

def State.pending (s : State σ n) (q : JobRequest) : Nat :=
  ∑ r, copies q (s.nodes r).ca.requestList.toList + copies q (s.inFlight.flatMap fun m => m.message.carried)

/-- A request is never in more places than it was added to, and it does not get lost before it falls behind. -/
structure Accounted (s : State σ n) (q : JobRequest) : Prop where
  once : s.pending q + copies q s.digested ≤ copies q s.added
  kept : 0 < copies q s.added → 0 < s.pending q + copies q s.digested ∨
    ∃ r, Outdated q (s.nodes r).ca.epoch

theorem sum_update (f : Fin n → Node σ) (r : Fin n) (x : Node σ) (g : Node σ → Nat) :
    ∑ a, g (Function.update f r x a) + g (f r) = ∑ a, g (f a) + g x := by
  have h := Finset.sum_update_of_mem (Finset.mem_univ r) (fun a => g (f a)) (g x)
  have h' := Finset.add_sum_erase Finset.univ (fun a => g (f a)) (Finset.mem_univ r)
  have hcomp : ∀ a, g (Function.update f r x a) = Function.update (fun a => g (f a)) r (g x) a := fun a => by
    by_cases ha : a = r
    · rw [ha, Function.update_self, Function.update_self]
    · rw [Function.update_of_ne ha, Function.update_of_ne ha]
  simp only [hcomp]
  rw [Finset.sdiff_singleton_eq_erase] at h
  omega

def State.flying (s : State σ n) (q : JobRequest) : Nat := copies q (s.inFlight.flatMap fun m => m.message.carried)

/-- One rank changes, with what it takes from the others and sends to them. -/
theorem Accounted.change (h : Accounted s q) {r : Fin n} {x : Node σ} (hnodes : s'.nodes = Function.update s.nodes r x)
    (hepoch : (s.nodes r).ca.epoch ≤ x.ca.epoch)
    (honce : copies q x.ca.requestList.toList + s'.flying q + copies q s'.digested + copies q s.added ≤
      copies q (s.nodes r).ca.requestList.toList + s.flying q + copies q s.digested + copies q s'.added)
    (hkept : 0 < copies q (s.nodes r).ca.requestList.toList + s.flying q + copies q s.digested →
      0 < copies q x.ca.requestList.toList + s'.flying q + copies q s'.digested ∨ Outdated q x.ca.epoch)
    (hadded : copies q s.added < copies q s'.added → 0 < copies q x.ca.requestList.toList) : Accounted s' q := by
  have hsum := sum_update s.nodes r x fun y => copies q y.ca.requestList.toList
  obtain ⟨hold, hkeep⟩ := h
  rw [State.pending] at hold hkeep
  rw [State.flying, State.flying] at honce hkept
  have hepochs : ∀ a, (s.nodes a).ca.epoch ≤ (s'.nodes a).ca.epoch := fun a => by
    rw [hnodes]
    by_cases ha : a = r
    · rw [ha, Function.update_self]
      exact hepoch
    · rw [Function.update_of_ne ha]
  have hself : copies q x.ca.requestList.toList ≤
      ∑ a, copies q (Function.update s.nodes r x a).ca.requestList.toList := by
    have hle := Finset.single_le_sum (f := fun a => copies q (Function.update s.nodes r x a).ca.requestList.toList)
      (fun _ _ => Nat.zero_le _) (Finset.mem_univ r)
    simpa only [Function.update_self] using hle
  constructor
  · simp only [State.pending, hnodes]
    omega
  · intro hpos
    simp only [State.pending, hnodes] at hpos ⊢
    by_cases hbefore : 0 < copies q s.added
    · rcases hkeep hbefore with hin | ⟨a, ha⟩
      · by_cases hmine : 0 < copies q (s.nodes r).ca.requestList.toList +
            copies q (s.inFlight.flatMap fun m => m.message.carried) + copies q s.digested
        · rcases hkept hmine with hnow | hout
          · left
            omega
          · exact Or.inr ⟨r, by rw [Function.update_self]; exact hout⟩
        · left
          omega
      · exact Or.inr ⟨a, by rw [← hnodes]; exact ha.mono (hepochs a)⟩
    · left
      have hnew := hadded (by omega)
      omega

theorem carried_eraseIdx {ms : List Transit} {i : Nat} {m : Transit} (h : ms[i]? = some m) :
    copies q ((ms.eraseIdx i).flatMap fun m => m.message.carried) + copies q m.message.carried =
      copies q (ms.flatMap fun m => m.message.carried) := by
  obtain ⟨hi, rfl⟩ := List.getElem?_eq_some_iff.mp h
  have hperm := (List.getElem_cons_eraseIdx_perm hi).flatMap_right fun m => m.message.carried
  rw [← copies_perm hperm, List.flatMap_cons, copies_append, Nat.add_comm]

theorem enterEpoch_iff (x : Node σ) (epoch : Int) :
    (if epoch > x.ca.epoch then x.enterEpoch epoch else x).ca.requestList = x.ca.requestList ∧
      (if epoch > x.ca.epoch then x.enterEpoch epoch else x).env = x.env ∧
      x.ca.epoch ≤ (if epoch > x.ca.epoch then x.enterEpoch epoch else x).ca.epoch := by
  split
  · next hnew => exact ⟨rfl, rfl, hnew.le⟩
  · exact ⟨rfl, rfl, le_rfl⟩

theorem advance_copies (hb : Bounces w) {x y : Node σ} {epoch : Int} {fuel : Nat} {dirtied : Bool} {out : List Transit}
    {digested : List JobRequest} (h : x.advance w epoch fuel dirtied = .ok (y, out, digested)) :
    x.ca.epoch ≤ y.ca.epoch ∧
      copies q y.ca.requestList.toList + copies q (out.flatMap fun m => m.message.carried) + copies q digested =
        if isObsolete y.ca.epoch q then 0 else copies q x.ca.requestList.toList := by
  obtain ⟨hlist, henv, hepoch⟩ := enterEpoch_iff x epoch
  rw [Node.advance] at h
  generalize (if epoch > x.ca.epoch then x.enterEpoch epoch else x) = x₁ at h hlist henv hepoch
  cases hr : resolveRequests w fuel x₁.ca x₁.env with
  | none =>
      simp only [hr] at h
      cases h
  | some r =>
      simp only [hr, Except.ok.injEq, Prod.mk.injEq] at h
      obtain ⟨rfl, rfl, rfl⟩ := h
      obtain rfl := resolved_eq_settled hb hr
      have hsame : (settled w x₁.ca x₁.env).ca.epoch = x₁.ca.epoch := rounds_epoch _ _
      have hsent : ∀ reqs : List (Int × List JobRequest),
          ((reqs.map fun d => Transit.mk x₁.ca.rank d.1 (.requests d.2)).flatMap fun m => m.message.carried) =
            reqs.flatMap Prod.snd := fun reqs => by
        rw [List.flatMap_map]
        rfl
      have hcopies := settled_copies (w := w) x₁.ca x₁.env q
      refine ⟨hepoch.trans hsame.ge, ?_⟩
      rw [hsame, ← hlist, ← hcopies, List.flatMap_append, hsent, copies_append]
      have hnone : ∀ (b : Prop) [Decidable b] (d e k : Int), copies q
          ((if b then [Transit.mk x₁.ca.rank d (.status e k)] else []).flatMap fun m => m.message.carried) = 0 := by
        intro b _ d e k
        split <;> rfl
      rw [hnone, Nat.add_zero]
      rfl

theorem deserialize_copies (x : Node σ) (source : Int) (m : Message) :
    x.ca.epoch ≤ (x.deserialize source m).ca.epoch ∧
      copies q (x.deserialize source m).ca.requestList.toList ≤
        copies q x.ca.requestList.toList + copies q m.carried ∧
      (0 < copies q x.ca.requestList.toList + copies q m.carried →
        0 < copies q (x.deserialize source m).ca.requestList.toList ∨
          Outdated q (x.deserialize source m).ca.epoch) := by
  cases m with
  | status epoch numIdle =>
      have hsame : x.ca.epoch ≤ (x.deserialize source (.status epoch numIdle)).ca.epoch ∧
          (x.deserialize source (.status epoch numIdle)).ca.requestList = x.ca.requestList := by
        rw [Node.deserialize]
        split
        · exact ⟨le_rfl, rfl⟩
        · obtain ⟨hlist, -, hepoch⟩ := enterEpoch_iff x epoch
          exact ⟨hepoch, hlist⟩
      refine ⟨hsame.1, ?_, fun hpos => Or.inl ?_⟩
      · rw [hsame.2]
        exact le_rfl
      · rw [hsame.2]
        exact hpos
  | requests reqs =>
      obtain ⟨hepoch, hle, hge, hpos⟩ := receiveAll_copies (q := q) reqs x.ca
      refine ⟨hepoch.ge, hle, fun h => ?_⟩
      by_cases hin : 0 < copies q x.ca.requestList.toList
      · exact Or.inl (hin.trans_le hge)
      · have hcarried : 0 < copies q (Message.requests reqs).carried := by omega
        rcases hpos hcarried with hnow | hout
        · exact Or.inl hnow
        · right
          rw [Node.deserialize, hepoch]
          exact hout

/-- No step duplicates a request or loses one that has not fallen behind. -/
theorem accounted_step (hb : Bounces w) {a : Action σ n} (h : Accounted s q) (hok : step w s a = .ok s') :
    Accounted s' q := by
  cases a with
  | work r env dirtied =>
      obtain rfl := Except.ok.inj hok
      exact h.change (r := r) rfl le_rfl le_rfl Or.inl fun hlt => absurd hlt (lt_irrefl _)
  | addJobRequest r x =>
      obtain rfl := Except.ok.inj hok
      by_cases ho : isObsolete (s.nodes r).ca.epoch x = true
      · have hsame : (s.nodes r).ca.addJobRequest x = (s.nodes r).ca := by
          rw [CollectiveAssignment.addJobRequest, if_pos ho]
        simp only [if_pos ho, hsame]
        exact h.change (r := r) rfl le_rfl le_rfl Or.inl fun hlt => absurd hlt (lt_irrefl _)
      · have hadded : (s.nodes r).ca.addJobRequest x =
            { (s.nodes r).ca with requestList := (s.nodes r).ca.requestList.insert x } := by
          rw [CollectiveAssignment.addJobRequest, if_neg ho]
        have hcopies : copies q (s.added ++ [x]) = copies q s.added + if x.key = q.key then 1 else 0 := by
          rw [copies_append, copies_cons, copies_nil, Nat.zero_add]
        have hle := copies_insert_le (q := q) (x := x) (s.nodes r).ca.requestList
        have hge := le_copies_insert (q := q) (x := x) (s.nodes r).ca.requestList
        simp only [if_neg ho, hadded]
        refine h.change (r := r) rfl le_rfl ?_ (fun hpos => Or.inl ?_) (fun hlt => copies_insert_pos _ ?_)
        · simp only [State.setNode, State.flying, hcopies]
          omega
        · simp only [State.setNode, State.flying] at hpos ⊢
          omega
        · by_contra hkey
          simp only [hcopies, if_neg hkey] at hlt
          exact lt_irrefl _ hlt
  | advance r epoch fuel dirtied =>
      obtain ⟨⟨y, out, digested⟩, hadvance, rfl⟩ := exists_of_map_eq_ok hok
      obtain ⟨hepoch, hcopies⟩ := advance_copies (q := q) hb hadvance
      refine h.change (r := r) rfl hepoch ?_ (fun hpos => ?_) (fun hlt => absurd hlt (lt_irrefl _))
      · simp only [State.setNode, State.flying, List.flatMap_append, copies_append]
        split at hcopies
        · omega
        · omega
      · simp only [State.setNode, State.flying, List.flatMap_append, copies_append] at hpos ⊢
        split at hcopies
        · next ho => exact Or.inr (outdated_of_isObsolete ho)
        · left
          omega
  | deliver i =>
      rw [step] at hok
      cases hm : s.inFlight[i]? with
      | none =>
          simp only [hm] at hok
          obtain rfl := Except.ok.inj hok
          exact h
      | some m =>
          simp only [hm] at hok
          split at hok
          · next hrank =>
              obtain rfl := Except.ok.inj hok
              have hcarried := carried_eraseIdx (q := q) hm
              obtain ⟨hepoch, hle, hpos⟩ := deserialize_copies (q := q) (s.nodes ⟨m.dest.toNat, hrank.2⟩) m.source
                m.message
              refine h.change (r := ⟨m.dest.toNat, hrank.2⟩) rfl hepoch ?_ (fun hbefore => ?_)
                (fun hlt => absurd hlt (lt_irrefl _))
              · simp only [State.setNode, State.flying]
                omega
              · simp only [State.setNode, State.flying] at hbefore ⊢
                by_cases hmine : 0 < copies q (s.nodes ⟨m.dest.toNat, hrank.2⟩).ca.requestList.toList +
                    copies q m.message.carried
                · rcases hpos hmine with hin | hout
                  · left
                    omega
                  · exact Or.inr hout
                · left
                  omega
          · cases hok

/-- In every run, with updates delivered in any order, a request is in at most as many lists, updates in flight and
callbacks as it was added, and in one of them unless some rank has come to a later epoch. -/
theorem requests_accounted (hb : Bounces w) {neighborTowardsRank : Fin n → Nat → Int} {env : Fin n → σ}
    {as : List (Action σ n)} (h : run (step w) (start neighborTowardsRank env) as = .ok s) (q : JobRequest) :
    Accounted s q := by
  refine run_invariant (P := fun s => Accounted s q) ⟨?_, fun hpos => absurd hpos (lt_irrefl _)⟩
    (fun _ _ _ hs hok => accounted_step hb hs hok) h
  simp [State.pending, start, OrderedSet.empty]

def handedUp : List (Action Bool 2) :=
  [.addJobRequest 0 pendingRequest, .advance 0 3 5 false, .deliver 0, .advance 1 3 5 false]

theorem requests_accounted_handedUp : ∃ s : State Bool 2,
    run (step adoptingWorker) (start (fun _ x => x) fun r => r = 1) handedUp = .ok s ∧
      s.digested = [{ pendingRequest with numHops := 5 }] ∧ s.pending pendingRequest = 0 := by
  have hrun : (run (step adoptingWorker) (start (fun (_ : Fin 2) x => x) fun r => r = 1) handedUp).toOption.map
      (fun s => (s.digested, s.added)) = some ([{ pendingRequest with numHops := 5 }], [pendingRequest]) := by
    decide +kernel
  obtain ⟨s, hs, heq⟩ := exists_of_toOption hrun
  obtain ⟨hdigested, hadded⟩ := Prod.mk.inj heq
  have hall := (requests_accounted (w := adoptingWorker) (by intro q env r hr; cases hr) hs pendingRequest).once
  refine ⟨s, hs, hdigested, ?_⟩
  rw [hdigested, hadded] at hall
  have hcopies : copies pendingRequest [{ pendingRequest with numHops := 5 }] = 1 ∧
      copies pendingRequest [pendingRequest] = 1 := by decide +kernel
  omega

end Runs

end Mallob.AssignmentNetwork
