import Mallob.EventDrivenBalancer

namespace Mallob.TreeConstruction

open BalancerTree Runs

/-- What the constructor computes for one rank. A single rank gets no parent. -/
structure Position where
  parentRank : Option Nat
  childRanks : List Nat
deriving DecidableEq, Repr

/-- The loop for the parent rank; none is an overflow of the int or an
exhausted fuel. -/
def parentLoop (myRank : Nat) : Nat → Nat → Option Nat
  | 0, _ => none
  | fuel + 1, exp =>
      if myRank % exp = exp / 2 ∧ exp / 2 ≤ myRank then some (myRank - exp / 2)
      else if exp * 2 < 2 ^ 31 then parentLoop myRank fuel (exp * 2)
      else none

def parentOf (myRank fuel : Nat) : Option Nat := if myRank = 0 then some 0 else parentLoop myRank fuel 2

def expLoop (size : Nat) : Nat → Nat → Option Nat
  | 0, _ => none
  | fuel + 1, exp =>
      if exp < size then
        if exp * 2 < 2 ^ 31 then expLoop size fuel (exp * 2) else none
      else some exp

def childAt (size myRank exp : Nat) : Option (List Nat) :=
  if myRank % exp = 0 then
    if myRank + exp / 2 < 2 ^ 31 then some (if myRank + exp / 2 < size then [myRank + exp / 2] else []) else none
  else some []

/-- The loop for the child ranks; a remainder by zero is none, too. -/
def childLoop (size myRank : Nat) : Nat → Nat → Option (List Nat)
  | 0, _ => none
  | fuel + 1, exp =>
      if exp = 0 then none
      else do
        let children ← childAt size myRank exp
        if exp / 2 = 1 then return children
        return children ++ (← childLoop size myRank fuel (exp / 2))

def construct (size myRank fuel : Nat) : Option Position :=
  if size = 1 then some ⟨none, []⟩
  else do
    let parent ← parentOf myRank fuel
    let exp ← expLoop size fuel 1
    let children ← childLoop size myRank fuel exp
    return ⟨some parent, children⟩

section loops

variable {size fuel : Nat}

theorem parentLoop_eq {k m : Nat} (hm : m % 2 = 1) (hk : k < 30) (i : Nat) (hi : i ≤ k) (hf : k - i < fuel) :
    parentLoop (2 ^ k * m) fuel (2 ^ i * 2) = some (2 ^ k * m - 2 ^ k) := by
  induction fuel generalizing i with
  | zero => omega
  | succ fuel ih =>
      have hhalf : 2 ^ i * 2 / 2 = 2 ^ i := by omega
      rw [parentLoop, hhalf]
      rcases hi.eq_or_lt with rfl | hlt
      · have hmod : 2 ^ i * m % (2 ^ i * 2) = 2 ^ i := by
          rw [Nat.mul_mod_mul_left, hm, mul_one]
        have hle : 2 ^ i ≤ 2 ^ i * m := Nat.le_mul_of_pos_right _ (by omega)
        rw [if_pos ⟨hmod, hle⟩]
      · have hdvd : 2 ^ i * 2 ∣ 2 ^ k * m := by
          rw [← pow_succ]
          exact Dvd.dvd.mul_right (pow_dvd_pow 2 hlt) m
        have hne : ¬ (2 ^ k * m % (2 ^ i * 2) = 2 ^ i ∧ 2 ^ i ≤ 2 ^ k * m) := by
          rw [Nat.mod_eq_zero_of_dvd hdvd]
          have : 0 < 2 ^ i := by positivity
          omega
        have hint : 2 ^ i * 2 * 2 < 2 ^ 31 := by
          rw [← pow_succ, ← pow_succ]
          exact Nat.pow_lt_pow_right (by norm_num) (by omega)
        rw [if_neg hne, if_pos hint, ← pow_succ]
        exact ih (i + 1) hlt (by omega)

theorem parentLoop_parentRank {r : Nat} (hr : r ≠ 0) (hlt : r < 2 ^ 30) (hf : 30 ≤ fuel) :
    parentLoop r fuel 2 = some (parentRank r) := by
  obtain ⟨k, m, hm, rfl⟩ := exists_odd hr
  have hk : k < 30 := by
    have hle : 2 ^ k ≤ 2 ^ k * m := Nat.le_mul_of_pos_right _ (by omega)
    exact (Nat.pow_lt_pow_iff_right (by norm_num)).mp (hle.trans_lt hlt)
  have h := @parentLoop_eq fuel k m hm hk 0 (Nat.zero_le k) (by omega)
  rw [parentRank_eq hm]
  simpa using h

theorem expLoop_eq (hsize : size ≤ 2 ^ 30) (fuel' i : Nat) (hf : size ≤ 2 ^ (i + fuel))
    (hf' : size ≤ 2 ^ (i + fuel')) : expLoop size (fuel + 1) (2 ^ i) = some (expFrom size fuel' (2 ^ i)) := by
  induction fuel generalizing i fuel' with
  | zero =>
      have hge : ¬ 2 ^ i < size := Nat.not_lt.mpr hf
      rw [expLoop, if_neg hge]
      cases fuel' with
      | zero => rfl
      | succ fuel' => rw [expFrom, if_neg hge]
  | succ fuel ih =>
      rw [expLoop]
      cases fuel' with
      | zero =>
          have hge : ¬ 2 ^ i < size := Nat.not_lt.mpr hf'
          rw [if_neg hge, expFrom]
      | succ fuel' =>
          rw [expFrom]
          by_cases hlt : 2 ^ i < size
          · have hi : i < 30 := (Nat.pow_lt_pow_iff_right (by norm_num)).mp (hlt.trans_le hsize)
            have hint : 2 ^ i * 2 < 2 ^ 31 := by
              rw [← pow_succ]
              exact Nat.pow_lt_pow_right (by norm_num) (by omega)
            rw [if_pos hlt, if_pos hlt, if_pos hint, ← pow_succ]
            exact ih fuel' (i + 1) (by rw [Nat.add_right_comm]; exact hf) (by rw [Nat.add_right_comm]; exact hf')
          · rw [if_neg hlt, if_neg hlt]

theorem childLoop_eq {r : Nat} (fuel' : Nat) {k : Nat} (hk : 1 ≤ k) (hf : k ≤ fuel) (hf' : k ≤ fuel')
    (hint : r + 2 ^ k < 2 ^ 31) : childLoop size r fuel (2 ^ k) = some (childrenFrom size r fuel' (2 ^ k)) := by
  induction fuel generalizing k fuel' with
  | zero => omega
  | succ fuel ih =>
      obtain ⟨fuel', rfl⟩ : ∃ f, fuel' = f + 1 := ⟨fuel' - 1, by omega⟩
      obtain ⟨k, rfl⟩ : ∃ i, k = i + 1 := ⟨k - 1, by omega⟩
      have hhalf : 2 ^ (k + 1) / 2 = 2 ^ k := by rw [pow_succ]; omega
      have hpow : 2 ^ (k + 1) = 2 ^ k * 2 := pow_succ 2 k
      have hpos : 0 < 2 ^ k := by positivity
      have hchild : childAt size r (2 ^ (k + 1)) =
          some (if r % 2 ^ (k + 1) = 0 ∧ r + 2 ^ k < size then [r + 2 ^ k] else []) := by
        rw [childAt, hhalf, if_pos (by omega : r + 2 ^ k < 2 ^ 31)]
        by_cases hdvd : r % 2 ^ (k + 1) = 0
        · simp [hdvd]
        · simp [hdvd]
      rw [childLoop, childrenFrom, if_neg (by omega : 2 ^ (k + 1) ≠ 0), hchild, hhalf]
      by_cases h1 : 2 ^ k = 1
      · rw [if_pos h1]
        simp [h1]
      · have hk1 : 1 ≤ k := by
          rcases Nat.eq_zero_or_pos k with rfl | h
          · exact absurd (pow_zero 2) h1
          · exact h
        rw [if_neg h1, Option.bind_eq_bind, Option.bind_some, if_neg h1,
          ih fuel' hk1 (by omega) (by omega) (by omega)]
        rfl

theorem expFrom_lt (fuel : Nat) {exp : Nat} (h : exp < 2 * size) : expFrom size fuel exp < 2 * size := by
  induction fuel generalizing exp with
  | zero => exact h
  | succ fuel ih =>
      rw [expFrom]
      split
      · exact ih (by omega)
      · exact h

theorem construct_eq {r : Nat} (h2 : 2 ≤ size) (h30 : size ≤ 2 ^ 30) (hr : r < size) (hf : 31 ≤ fuel) :
    construct size r fuel = some ⟨some (parentRank r), childRanks size r⟩ := by
  have hparent : parentOf r fuel = some (parentRank r) := by
    by_cases h0 : r = 0
    · subst h0
      rfl
    · rw [parentOf, if_neg h0]
      exact parentLoop_parentRank h0 (hr.trans_le h30) (by omega)
  obtain ⟨k, hk, hk', he, _⟩ := firstExp h2
  have hk30 : k ≤ 30 := by
    have hlt := @expFrom_lt size size 1 (by omega)
    rw [he] at hlt
    have : 2 ^ k < 2 ^ 31 := by omega
    have := (Nat.pow_lt_pow_iff_right (by norm_num)).mp this
    omega
  have hexp : expLoop size fuel 1 = some (2 ^ k) := by
    obtain ⟨f, rfl⟩ : ∃ f, fuel = f + 1 := ⟨fuel - 1, by omega⟩
    have h := @expLoop_eq size f h30 size 0
      (h30.trans (Nat.pow_le_pow_right (by norm_num) (by omega)))
      (by rw [Nat.zero_add]; exact Nat.lt_two_pow_self.le)
    rw [pow_zero, he] at h
    exact h
  have hint : r + 2 ^ k < 2 ^ 31 := by
    have := Nat.pow_le_pow_right (by norm_num : 0 < 2) hk30
    omega
  rw [construct, if_neg (by omega), hparent, hexp, Option.bind_eq_bind, Option.bind_some, Option.bind_eq_bind,
    Option.bind_some, childLoop_eq size hk (by omega) hk' hint, childRanks, if_neg (by omega), he]
  rfl

end loops

def below (size r : Nat) : List Nat := (List.range size).filter fun x => r ∈ path x

variable {size r c x : Nat}

theorem mem_below : x ∈ below size r ↔ x < size ∧ r ∈ path x := by simp [below]

theorem nodup_below (size r : Nat) : (below size r).Nodup := List.nodup_range.filter _

theorem below_root (size : Nat) : below size 0 = List.range size := by
  rw [below, List.filter_eq_self]
  intro x _
  simpa using zero_mem_path x

/-- Two ranks on one way to the root: one of them is on the way of the other. -/
theorem path_linear {a b : Nat} (ha : a ∈ path x) (hb : b ∈ path x) : a ∈ path b ∨ b ∈ path a := by
  induction x using Nat.strong_induction_on with
  | _ x ih =>
      by_cases hx : x = 0
      · subst hx
        obtain rfl : a = 0 := by simpa [path_zero] using ha
        exact Or.inl (zero_mem_path b)
      · have ha' := ha
        have hb' := hb
        rw [path_of_ne hx, List.mem_append, List.mem_singleton] at ha hb
        rcases ha with ha | rfl
        · rcases hb with hb | rfl
          · exact ih _ (parentRank_lt hx) ha hb
          · exact Or.inl ha'
        · exact Or.inr hb'

theorem path_of_parent {a b : Nat} (h : a ∈ path b) (hne : a ≠ b) (hb : b ≠ 0) : a ∈ path (parentRank b) := by
  rw [path_of_ne hb, List.mem_append, List.mem_singleton] at h
  rcases h with h | h
  · exact h
  · exact absurd h hne

theorem child_unique {c' : Nat} (hc : c ∈ childRanks size r) (hc' : c' ∈ childRanks size r) (h : c ∈ path x)
    (h' : c' ∈ path x) : c = c' := by
  obtain ⟨hc0, _, rfl⟩ := mem_childRanks.mp hc
  obtain ⟨hc0', _, hp⟩ := mem_childRanks.mp hc'
  by_contra hne
  rcases path_linear h h' with hon | hon
  · have hle := le_of_mem_path (path_of_parent hon hne hc0')
    have hlt := parentRank_lt hc0
    omega
  · have hle := le_of_mem_path (path_of_parent hon (Ne.symm hne) hc0)
    have hlt := parentRank_lt hc0'
    omega

/-- Below a rank is the rank itself and what is below one of its children. -/
theorem mem_below_iff (hr : r < size) : x ∈ below size r ↔ x = r ∨ ∃ c ∈ childRanks size r, x ∈ below size c := by
  simp only [mem_below]
  constructor
  · rintro ⟨hx, hon⟩
    induction x using Nat.strong_induction_on with
    | _ x ih =>
        by_cases hne : x = r
        · exact Or.inl hne
        · right
          have hx0 : x ≠ 0 := by
            rintro rfl
            have := le_of_mem_path hon
            omega
          have hlt := parentRank_lt hx0
          rcases ih _ hlt (by omega) (path_of_parent hon (Ne.symm hne) hx0) with hp | ⟨c, hc, hcs, hcp⟩
          · exact ⟨x, mem_childRanks.mpr ⟨hx0, hx, hp⟩, hx, mem_path_self x⟩
          · refine ⟨c, hc, hx, ?_⟩
            rw [path_of_ne hx0]
            exact List.mem_append_left _ hcp
  · rintro (rfl | ⟨c, hc, hx, hon⟩)
    · exact ⟨hr, mem_path_self x⟩
    · obtain ⟨hc0, _, rfl⟩ := mem_childRanks.mp hc
      exact ⟨hx, parentRank_mem_path hon hc0⟩

theorem below_perm (hr : r < size) : (below size r).Perm (r :: (childRanks size r).flatMap (below size)) := by
  have hnodup : ((childRanks size r).flatMap (below size)).Nodup := by
    rw [List.nodup_flatMap]
    refine ⟨fun c _ => nodup_below size c, ?_⟩
    refine (nodup_childRanks size r).pairwise_of_forall_ne ?_
    intro c hc c' hc' hne x hx hx'
    exact hne (child_unique hc hc' (mem_below.mp hx).2 (mem_below.mp hx').2)
  have hfresh : r ∉ (childRanks size r).flatMap (below size) := by
    intro hmem
    obtain ⟨c, hc, hx⟩ := List.mem_flatMap.mp hmem
    obtain ⟨hc0, _, rfl⟩ := mem_childRanks.mp hc
    have := le_of_mem_path (mem_below.mp hx).2
    have := parentRank_lt hc0
    omega
  refine (List.perm_ext_iff_of_nodup (nodup_below size r) (List.nodup_cons.mpr ⟨hfresh, hnodup⟩)).mpr ?_
  intro x
  rw [mem_below_iff hr, List.mem_cons, List.mem_flatMap]

theorem childRanks_of_isLeaf (h : isLeaf r = true) : childRanks size r = [] := by
  rw [List.eq_nil_iff_forall_not_mem]
  intro c hc
  obtain ⟨hc0, _, rfl⟩ := mem_childRanks.mp hc
  obtain ⟨k, m, hm, rfl⟩ := exists_odd hc0
  rw [parentRank_eq hm] at h
  have hodd : (2 ^ k * m - 2 ^ k) % 2 = 1 := by simpa [isLeaf] using h
  obtain ⟨q, rfl⟩ : ∃ q, m = 2 * q + 1 := ⟨m / 2, by omega⟩
  have heven : 2 ^ k * (2 * q + 1) - 2 ^ k = 2 * (2 ^ k * q) := by
    have : 2 ^ k * (2 * q + 1) = 2 * (2 ^ k * q) + 2 ^ k := by ring
    omega
  omega

theorem parentRank_iterate (r : Nat) : ∃ k, parentRank^[k] r = 0 := by
  induction r using Nat.strong_induction_on with
  | _ r ih =>
      by_cases h : r = 0
      · exact ⟨0, h⟩
      · obtain ⟨k, hk⟩ := ih _ (parentRank_lt h)
        exact ⟨k + 1, hk⟩

section broadcast

def forwards (children : Nat → List Nat) (rank : Nat) : List Nat := if isLeaf rank then [] else children rank

theorem handleBroadcast_forwards {cfg : BalancerConfig} {b b' : EventDrivenBalancer} {data : EventMap}
    {out : List (Network.Envelope BalancerTag EventMap)}
    (h : EventDrivenBalancer.handleBroadcast cfg r b data = .ok (b', out)) :
    out = (forwards (childRanks cfg.size) r).map fun child => ⟨.broadcastData, child, data⟩ := by
  rw [EventDrivenBalancer.handleBroadcast] at h
  cases hd : EventDrivenBalancer.digest cfg b data with
  | error e => rw [hd] at h; cases h
  | ok b₁ =>
      rw [hd] at h
      obtain ⟨_, rfl⟩ := Prod.mk.inj (Except.ok.inj h)
      rw [forwards]
      split
      · rfl
      · rfl

/-- The copies of one broadcast in flight, by their destinations. A rank takes
its copy and sends it on; without one the delivery fails. -/
def deliver (children : Nat → List Nat) (pending : List Nat) (rank : Nat) : Except Unit (List Nat) :=
  if rank ∈ pending then .ok (pending.erase rank ++ forwards children rank) else .error ()

theorem deliver_ok {children : Nat → List Nat} {pending pending' : List Nat} {rank : Nat}
    (h : deliver children pending rank = .ok pending') :
    rank ∈ pending ∧ pending' = pending.erase rank ++ forwards children rank := by
  rw [deliver] at h
  split at h
  · next hmem => exact ⟨hmem, (Except.ok.inj h).symm⟩
  · cases h

/-- The ranks that have the broadcast and those below the copies in flight are
all ranks, each once. -/
structure Covers (size : Nat) (digested pending : List Nat) : Prop where
  lt : ∀ r ∈ pending, r < size
  perm : (digested ++ pending.flatMap (below size)).Perm (List.range size)

variable {digested pending pending' order : List Nat}

theorem Covers.deliver {children : Nat → List Nat} (hchildren : ∀ r < size, children r = childRanks size r)
    (h : Covers size digested pending) (hd : TreeConstruction.deliver children pending r = .ok pending') :
    Covers size (digested ++ [r]) pending' := by
  obtain ⟨hmem, rfl⟩ := deliver_ok hd
  have hr := h.lt r hmem
  have hforwards : forwards children r = childRanks size r := by
    rw [forwards, hchildren r hr]
    split
    · next hleaf => exact (childRanks_of_isLeaf hleaf).symm
    · rfl
  rw [hforwards]
  refine ⟨?_, ?_⟩
  · intro x hx
    rcases List.mem_append.mp hx with hx | hx
    · exact h.lt x (List.mem_of_mem_erase hx)
    · exact (mem_childRanks.mp hx).2.1
  · have hfirst := (List.perm_cons_erase hmem).flatMap_right (below size)
    have hsplit : (pending.flatMap (below size)).Perm
        (r :: ((pending.erase r).flatMap (below size) ++ (childRanks size r).flatMap (below size))) :=
      hfirst.trans (((below_perm hr).append_right _).trans (List.perm_append_comm.cons r))
    rw [List.flatMap_append, List.append_assoc, List.singleton_append]
    exact (hsplit.symm.append_left digested).trans h.perm

/-- In whatever order the copies arrive, no rank gets a second one, and the
broadcast is over when all ranks have got theirs. -/
theorem broadcast_covers {children : Nat → List Nat} (hpos : 0 < size)
    (hchildren : ∀ r < size, children r = childRanks size r)
    (h : run (TreeConstruction.deliver children) [0] order = .ok pending) : Covers size order pending := by
  induction order using List.reverseRecOn generalizing pending with
  | nil =>
      obtain rfl := Except.ok.inj h
      refine ⟨by simpa using hpos, ?_⟩
      simp [below_root]
  | append_singleton order r ih =>
      obtain ⟨pending₁, hrun, hd⟩ := run_concat h
      exact (ih hrun).deliver hchildren hd

theorem Covers.subperm (h : Covers size digested pending) : digested.Subperm (List.range size) :=
  (List.sublist_append_left _ _).subperm.trans h.perm.subperm

theorem Covers.ends (h : Covers size digested pending) : pending = [] ↔ digested.Perm (List.range size) := by
  constructor
  · rintro rfl
    simpa using h.perm
  · intro hall
    have hlen := h.perm.length_eq
    rw [List.length_append, hall.length_eq, Nat.add_eq_left, List.length_flatMap] at hlen
    rw [List.eq_nil_iff_forall_not_mem]
    intro r hr
    have hzero := List.sum_eq_zero_iff.mp hlen _ (List.mem_map_of_mem hr)
    have hself : r ∈ below size r := mem_below.mpr ⟨h.lt r hr, mem_path_self r⟩
    rw [List.length_eq_zero_iff.mp hzero] at hself
    cases hself

/-- Whatever has been delivered so far, the rest can be delivered, too. -/
theorem broadcast_completes {children : Nat → List Nat} (hpos : 0 < size)
    (hchildren : ∀ r < size, children r = childRanks size r)
    (h : run (TreeConstruction.deliver children) [0] order = .ok pending) :
    ∃ rest, run (TreeConstruction.deliver children) pending rest = .ok [] := by
  induction hn : size - order.length generalizing order pending with
  | zero =>
      have hcovers := broadcast_covers hpos hchildren h
      have hlen := hcovers.subperm.length_le
      rw [List.length_range] at hlen
      have hall := hcovers.subperm.perm_of_length_le (by rw [List.length_range]; omega)
      exact ⟨[], by rw [hcovers.ends.mpr hall]; rfl⟩
  | succ n ih =>
      cases pending with
      | nil => exact ⟨[], rfl⟩
      | cons r pending =>
          have hd : TreeConstruction.deliver children (r :: pending) r =
              .ok ((r :: pending).erase r ++ forwards children r) := if_pos List.mem_cons_self
          have hrun : run (TreeConstruction.deliver children) [0] (order ++ [r]) =
              .ok ((r :: pending).erase r ++ forwards children r) := by
            rw [run_append, h]
            exact (run_singleton _ r).trans hd
          obtain ⟨rest, hrest⟩ := ih hrun (by rw [List.length_append, List.length_singleton]; omega)
          refine ⟨[r] ++ rest, ?_⟩
          rw [run_append, run_singleton, hd]
          exact hrest

end broadcast

/-- The positions that the ranks compute on their own form a tree, and a
broadcast from the root along the child ranks reaches every rank once. -/
theorem constructor_forms_tree {fuel : Nat} (h2 : 2 ≤ size) (h30 : size ≤ 2 ^ 30) (hf : 31 ≤ fuel) :
    ∃ position : Nat → Position, (∀ r < size, construct size r fuel = some (position r)) ∧
      (∀ r < size, ∀ c < size, c ∈ (position r).childRanks ↔ 0 < c ∧ (position c).parentRank = some r) ∧
      (∀ r < size, (position r).childRanks.Nodup ∧ ∀ c ∈ (position r).childRanks, c < size) ∧
      (∀ r < size, ∃ k, (fun rank => (position rank).parentRank.getD rank)^[k] r = 0) ∧
      (∀ r < size, isLeaf r = true → (position r).childRanks = []) ∧
      ∀ order pending, run (deliver fun r => (position r).childRanks) [0] order = .ok pending →
        order.Subperm (List.range size) ∧ (pending = [] ↔ order.Perm (List.range size)) ∧
          ∃ rest, run (deliver fun r => (position r).childRanks) pending rest = .ok [] := by
  refine ⟨fun r => ⟨some (parentRank r), childRanks size r⟩, fun r hr => construct_eq h2 h30 hr hf, ?_, ?_, ?_, ?_, ?_⟩
  · intro r _ c hc
    rw [mem_childRanks, Option.some_inj]
    constructor
    · rintro ⟨hc0, _, hp⟩; exact ⟨Nat.pos_of_ne_zero hc0, hp⟩
    · rintro ⟨hc0, hp⟩; exact ⟨hc0.ne', hc, hp⟩
  · intro r _
    exact ⟨nodup_childRanks size r, fun c hc => (mem_childRanks.mp hc).2.1⟩
  · intro r _
    exact parentRank_iterate r
  · intro r _ hleaf
    exact childRanks_of_isLeaf hleaf
  · intro order pending hrun
    have h := broadcast_covers (by omega) (fun r _ => rfl) hrun
    exact ⟨h.subperm, h.ends, broadcast_completes (by omega) (fun r _ => rfl) hrun⟩

theorem constructor_forms_tree_six_ranks :
    (∃ position : Nat → Position, ∀ r < 6, construct 6 r 31 = some (position r)) ∧
    construct 6 4 31 = some ⟨some 0, [5]⟩ ∧
    run (deliver fun r => childRanks 6 r) [0] [0, 4, 5, 2, 1, 3] = .ok [] := by
  obtain ⟨position, hposition, _⟩ := @constructor_forms_tree 6 31 (by norm_num) (by norm_num) (by norm_num)
  exact ⟨⟨position, hposition⟩, by decide +kernel, by decide +kernel⟩

end Mallob.TreeConstruction
