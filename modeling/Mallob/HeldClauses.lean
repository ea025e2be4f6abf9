import Mallob.GatheredClauses

namespace Mallob.Sharing.GatheredClauses

variable {p : Nat} {getBufferLimit : Int → Nat} {c c' : Communicator} {bs bs' : List (List Int)} {b : List Int}

def Valid (p : Nat) (b : List Int) : Prop := ∃ cs, ValidBuffer p (b, false) cs

def clausesOf (p : Nat) (bs : List (List Int)) : Set Clause := {d | ∃ b ∈ bs, ∃ cs, decode p false b = .ok cs ∧ d ∈ cs}

@[simp] theorem clausesOf_nil : clausesOf p [] = ∅ := by
  ext d
  simp [clausesOf]

@[simp] theorem clausesOf_append : clausesOf p (bs ++ bs') = clausesOf p bs ∪ clausesOf p bs' := by
  ext d
  simp only [clausesOf, List.mem_append, Set.mem_ofPred_eq, Set.mem_union]
  constructor
  · rintro ⟨b, hb | hb, hd⟩
    · exact Or.inl ⟨b, hb, hd⟩
    · exact Or.inr ⟨b, hb, hd⟩
  · rintro (⟨b, hb, hd⟩ | ⟨b, hb, hd⟩)
    · exact ⟨b, Or.inl hb, hd⟩
    · exact ⟨b, Or.inr hb, hd⟩

theorem clausesOf_cons : clausesOf p (b :: bs) = clausesOf p [b] ∪ clausesOf p bs := by
  rw [← List.singleton_append, clausesOf_append]

theorem clausesOf_congr (h : ∀ b, b ∈ bs ↔ b ∈ bs') : clausesOf p bs = clausesOf p bs' := by
  ext d
  simp only [clausesOf, Set.mem_ofPred_eq, h]

theorem clausesOf_singleton {cs : List Clause} (h : decode p false b = .ok cs) : clausesOf p [b] = {d | d ∈ cs} := by
  ext d
  simp only [clausesOf, List.mem_singleton, exists_eq_left, h, Except.ok.injEq, Set.mem_ofPred_eq]
  exact ⟨fun ⟨_, heq, hd⟩ => heq ▸ hd, fun hd => ⟨cs, rfl, hd⟩⟩

theorem valid_nil : Valid p [] := ⟨[], rfl, fun _ hc => absurd hc List.not_mem_nil, List.Pairwise.nil⟩

theorem clausesOf_short (h : b.length ≤ 2) : clausesOf p [b] = ∅ := by
  have hdecode : decode p false b = .ok [] := by
    match b, h with
    | [], _ => rfl
    | [x], _ => exact decode_singleton p x
    | [x, y], _ => rfl
  rw [clausesOf_singleton hdecode]
  ext d
  simp

theorem exists_contents {bs : List Gathered} (h : ∀ b ∈ bs, Valid p b.clauses) :
    ∃ contents, List.Forall₂ (ValidBuffer p) (bs.map fun b => (b.clauses, false)) contents := by
  induction bs with
  | nil => exact ⟨[], .nil⟩
  | cons b bs ih =>
      obtain ⟨cs, hcs⟩ := h b List.mem_cons_self
      obtain ⟨contents, hcontents⟩ := ih fun b hb => h b (List.mem_cons_of_mem _ hb)
      exact ⟨cs :: contents, .cons hcs hcontents⟩

theorem clausesOf_contents {buffers : List (List Int × Bool)} {contents : List (List Clause)}
    (h : List.Forall₂ (ValidBuffer p) buffers contents) (hunchecked : ∀ b ∈ buffers, b.2 = false) :
    clausesOf p (buffers.map Prod.fst) = {d | ∃ cs ∈ contents, d ∈ cs} := by
  induction h with
  | nil => simp
  | @cons b cs buffers contents hb _ ih =>
      have hdecode := hb.decode_eq
      rw [hunchecked b List.mem_cons_self] at hdecode
      rw [List.map_cons, clausesOf_cons, clausesOf_singleton hdecode,
        ih fun b hb => hunchecked b (List.mem_cons_of_mem _ hb)]
      ext d
      simp

/-- The main and the excess buffer of a merge have just the clauses of the merged buffers, and a merge that keeps no
excess clauses has the same main buffer. -/
theorem mergeBuffers_clausesOf (hp : 1 ≤ p) {bs : List Gathered} (h : ∀ b ∈ bs, Valid p b.clauses) (totalSize : Nat) :
    ∃ main excess,
      mergeBuffers p false (bs.map fun b => (b.clauses, false)) totalSize true = .ok (main, some excess) ∧
      mergeBuffers p false (bs.map fun b => (b.clauses, false)) totalSize false = .ok (main, none) ∧
      Valid p main ∧ Valid p excess ∧
      clausesOf p [main] ∪ clausesOf p [excess] = clausesOf p (bs.map (·.clauses)) := by
  obtain ⟨contents, hvalid⟩ := exists_contents h
  obtain ⟨main, excess, ms, es, hmerge, hmerge', hms, hes, -, hsorted, hmem⟩ :=
    @mergeBuffers_contents p false contents totalSize _ hp hvalid
  have hlits : ∀ d ∈ ms ++ es, 0 ∉ d.lits := by
    intro d hd
    obtain ⟨cs, hcs, hdcs⟩ := (hmem d).mp hd
    obtain ⟨n, hn, rfl⟩ := List.getElem_of_mem hcs
    have hget := List.forall₂_iff_get.mp hvalid
    exact (hget.2 n (hget.1 ▸ hn) hn).lits_ne d hdcs
  have hle : (ms ++ es).Pairwise fun c d => clauseComparator d c = false := by
    refine hsorted.imp fun hlt => ?_
    rw [clauseComparator_eq, decide_eq_true_eq] at hlt
    rw [clauseComparator_eq, decide_eq_false_iff_not]
    exact lt_asymm hlt
  have hbuffers : (bs.map fun b => (b.clauses, false)).map Prod.fst = bs.map (·.clauses) := by
    rw [List.map_map]
    rfl
  have hunchecked : ∀ b ∈ bs.map fun b => (b.clauses, false), b.2 = false := by
    intro b hb
    obtain ⟨-, -, rfl⟩ := List.mem_map.mp hb
    rfl
  refine ⟨main, excess, hmerge, hmerge', ⟨ms, hms, fun d hd => hlits d (List.mem_append_left _ hd), ?_⟩,
    ⟨es, hes, fun d hd => hlits d (List.mem_append_right _ hd), ?_⟩, ?_⟩
  · exact (List.pairwise_append.mp hle).1
  · exact (List.pairwise_append.mp hle).2.1
  · rw [← hbuffers, clausesOf_contents hvalid hunchecked, clausesOf_singleton hms, clausesOf_singleton hes]
    ext d
    rw [Set.mem_ofPred_eq, ← hmem, List.mem_append]
    rfl

/-- The buffers of a communicator: gathered, being merged, left behind by a merge that is done, returned to the own
solvers, or broadcast. -/
def Communicator.held (c : Communicator) : List (List Int) :=
  c.clauseBuffers.map (·.clauses) ++ (c.clauseBuffersBeingMerged.map (·.clauses) ++
    ((if c.isDoneMerging then [c.excessClausesFromMerge] else []) ++ (c.returned ++ c.broadcast.map Prod.snd)))

theorem clausesOf_held (p : Nat) (c : Communicator) : clausesOf p c.held =
    clausesOf p (c.clauseBuffers.map (·.clauses)) ∪ (clausesOf p (c.clauseBuffersBeingMerged.map (·.clauses)) ∪
      (clausesOf p (if c.isDoneMerging then [c.excessClausesFromMerge] else []) ∪
        (clausesOf p c.returned ∪ clausesOf p (c.broadcast.map Prod.snd)))) := by
  simp only [Communicator.held, clausesOf_append]

theorem forall_held {P : List Int → Prop} : (∀ b ∈ c.held, P b) ↔
    (∀ b ∈ c.clauseBuffers, P b.clauses) ∧ (∀ b ∈ c.clauseBuffersBeingMerged, P b.clauses) ∧
      (c.isDoneMerging = true → P c.excessClausesFromMerge) ∧ (∀ b ∈ c.returned, P b) ∧ ∀ b ∈ c.broadcast, P b.2 := by
  rw [Communicator.held]
  simp only [List.forall_mem_append, List.forall_mem_map]
  cases c.isDoneMerging with
  | true => simp
  | false => simp

theorem held_handleGather (b : List Int) (count : Int) (d : List Int) :
    d ∈ (handleGather c b count).held ↔ d = b ∨ d ∈ c.held := by
  simp only [Communicator.held, handleGather, List.map_append, List.mem_append, List.map_cons, List.map_nil,
    List.mem_singleton]
  tauto

/-- The own buffer joins the others, whichever of them are merged first. -/
theorem held_initiate {job : Job} (hempty : c.clauseBuffersBeingMerged = [])
    (hok : initiateMergeOfClauseBuffers getBufferLimit c job = .ok c') (d : List Int) :
    d ∈ c'.held ↔ d = (ownBuffer job).clauses ∨ d ∈ c.held := by
  rw [initiateMergeOfClauseBuffers] at hok
  split at hok
  · next hcond =>
      obtain rfl := Except.ok.inj hok
      have hsplit : ∀ bs : List Gathered, d ∈ (bs.drop 4).map (·.clauses) ∨ d ∈ (bs.take 4).map (·.clauses) ↔
          d ∈ bs.map (·.clauses) := by
        intro bs
        rw [or_comm, ← List.mem_append, ← List.map_append, List.take_append_drop]
      have hboth := hsplit (c.clauseBuffers ++ [ownBuffer job])
      simp only [Communicator.held, List.mem_append, ← or_assoc, hboth, hempty, hcond.2]
      simp only [List.map_append, List.mem_append, List.map_cons, List.map_nil, List.mem_singleton, List.not_mem_nil]
      tauto
  · cases hok

theorem canSendClauses_cases {job : Job} {result : Bool} (hok : canSendClauses getBufferLimit c job = .ok (result, c')) :
    (startsMerge c job = false ∧ c' = c) ∨
    (startsMerge c job = true ∧ c.clauseBuffersBeingMerged = [] ∧
      initiateMergeOfClauseBuffers getBufferLimit c job = .ok c') := by
  have hidle : startsMerge c job = true → job.active = true ∧ c.isMerging = false ∧ c.clauseBuffersBeingMerged = [] := by
    intro hstarts
    simp only [startsMerge, Bool.and_eq_true, Bool.not_eq_true', List.isEmpty_iff] at hstarts
    exact ⟨hstarts.1.1.1.1, hstarts.1.2, hstarts.2⟩
  rw [canSendClauses] at hok
  cases hstarts : startsMerge c job with
  | true =>
      obtain ⟨hactive, hmerging, hempty⟩ := hidle hstarts
      rw [hactive, hmerging, hstarts] at hok
      obtain ⟨c₁, hinitiate, heq⟩ := Runs.exists_of_map_eq_ok (f := (false, ·)) hok
      obtain rfl : c₁ = c' := congrArg Prod.snd heq
      exact Or.inr ⟨rfl, hempty, hinitiate⟩
  | false =>
      refine Or.inl ⟨rfl, ?_⟩
      rw [hstarts] at hok
      split at hok
      · cases hok
        rfl
      · split at hok
        · split at hok
          · cases hok
            rfl
          · cases hok
        · cases hok
          rfl

theorem finishMerge_cases (hok : finishMerge p c = .ok c') : c' = c ∨
    (c.isMerging = true ∧ c.isDoneMerging = false ∧ ∃ main excess,
      mergeBuffers p false (c.clauseBuffersBeingMerged.map fun b => (b.clauses, false)) c.totalSize true =
        .ok (main, excess) ∧
      c' = { c with
        clauseBuffersBeingMerged := [⟨main, contributionsOf c.clauseBuffersBeingMerged⟩]
        excessClausesFromMerge := excess.getD []
        isDoneMerging := true }) := by
  rw [finishMerge] at hok
  split at hok
  · next hrunning =>
      rw [Bool.and_eq_true, Bool.not_eq_true'] at hrunning
      cases hmerge : mergeBuffers p false (c.clauseBuffersBeingMerged.map fun b => (b.clauses, false)) c.totalSize
          true with
      | error e =>
          rw [hmerge] at hok
          cases hok
      | ok result =>
          rw [hmerge] at hok
          exact Or.inr ⟨hrunning.1, hrunning.2, result.1, result.2, rfl, (Except.ok.inj hok).symm⟩
  · exact Or.inl (Except.ok.inj hok).symm

theorem held_finishMerge (hp : 1 ≤ p) (hvalid : ∀ b ∈ c.held, Valid p b) (hok : finishMerge p c = .ok c') :
    (∀ b ∈ c'.held, Valid p b) ∧ clausesOf p c'.held = clausesOf p c.held := by
  rcases finishMerge_cases hok with rfl | ⟨-, hdone, main, excess, hmerge, rfl⟩
  · exact ⟨hvalid, rfl⟩
  · obtain ⟨hgathered, hmerged, -, hreturned, hbroadcast⟩ := forall_held.mp hvalid
    obtain ⟨main', excess', hmerge', -, hmain, hexcess, hclauses⟩ := mergeBuffers_clausesOf hp hmerged c.totalSize
    obtain ⟨rfl, rfl⟩ := Prod.mk.inj (Except.ok.inj (hmerge.symm.trans hmerge'))
    constructor
    · refine forall_held.mpr ⟨hgathered, fun b hb => ?_, fun _ => hexcess, hreturned, hbroadcast⟩
      rw [List.mem_singleton.mp hb]
      exact hmain
    · rw [clausesOf_held, clausesOf_held, ← hclauses, hdone]
      simp only [List.map_cons, List.map_nil, Option.getD_some, if_true, Bool.false_eq_true, if_false, clausesOf_nil,
        Set.empty_union, Set.union_assoc]

theorem getMergedClauseBuffer_eq {result : Gathered} (hok : getMergedClauseBuffer c = .ok (result, c')) :
    c.isMerging = true ∧ c.isDoneMerging = true ∧ c.clauseBuffersBeingMerged = [result] ∧ c' = { c with
      isMerging := false
      isDoneMerging := false
      clauseBuffersBeingMerged := []
      returned := if 2 < c.excessClausesFromMerge.length then c.returned ++ [c.excessClausesFromMerge]
        else c.returned } := by
  rw [getMergedClauseBuffer] at hok
  split at hok
  · next hdone hmerged =>
      rw [Bool.and_eq_true] at hdone
      cases hok
      exact ⟨hdone.1, hdone.2, hmerged, rfl⟩
  · cases hok

theorem held_getMerged (hvalid : ∀ b ∈ c.held, Valid p b) {result : Gathered}
    (hok : getMergedClauseBuffer c = .ok (result, c')) :
    Valid p result.clauses ∧ (∀ b ∈ c'.held, Valid p b) ∧
      clausesOf p [result.clauses] ∪ clausesOf p c'.held = clausesOf p c.held := by
  obtain ⟨-, hdone, hmerged, rfl⟩ := getMergedClauseBuffer_eq hok
  obtain ⟨hgathered, hresult, hexcess, hreturned, hbroadcast⟩ := forall_held.mp hvalid
  refine ⟨hresult result (hmerged ▸ List.mem_cons_self), forall_held.mpr ⟨hgathered, ?_, ?_, ?_, hbroadcast⟩, ?_⟩
  · exact fun b hb => absurd hb List.not_mem_nil
  · exact fun hagain => absurd hagain Bool.false_ne_true
  · intro b hb
    dsimp only at hb
    split at hb
    · rcases List.mem_append.mp hb with hb | hb
      · exact hreturned b hb
      · rw [List.mem_singleton.mp hb]
        exact hexcess hdone
    · exact hreturned b hb
  · have hback : clausesOf p (if 2 < c.excessClausesFromMerge.length then c.returned ++ [c.excessClausesFromMerge]
        else c.returned) = clausesOf p [c.excessClausesFromMerge] ∪ clausesOf p c.returned := by
      split
      · rw [clausesOf_append, Set.union_comm]
      · next hshort => rw [clausesOf_short (not_lt.mp hshort), Set.empty_union]
    rw [clausesOf_held, clausesOf_held, hmerged, hdone, hback]
    simp only [List.map_cons, List.map_nil, if_true, Bool.false_eq_true, if_false, clausesOf_nil, Set.empty_union]
    ext d
    simp only [Set.mem_union]
    tauto

end Mallob.Sharing.GatheredClauses
