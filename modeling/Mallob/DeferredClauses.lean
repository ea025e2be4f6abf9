import Mallob.ClauseBuffer
import Mallob.Runs

namespace Mallob.Sharing.DeferredClauses

variable {n : Nat}

/-- Clauses from the future of some solvers. The number of their batch is not part of the program. -/
structure DeferredClauseList (n : Nat) where
  revision : Int
  involvedSolvers : Fin n → Bool
  buffer : List Int
  clauses : List Clause
  batch : Nat
deriving DecidableEq

/-- A call that passes the clauses of a batch to a solver, with the revision that is seen of the solver. -/
structure Import (n : Nat) where
  batch : Nat
  solver : Fin n
  revision : Int
  clauses : List Clause
deriving DecidableEq

/-- The manager with the revisions of its solvers, and the record of the batches, each with the revision of
the manager at its arrival, and of the imports. -/
structure SharingManager (n : Nat) where
  revisions : Fin n → Int
  currentRevision : Int := -1
  futureClauses : List (DeferredClauseList n) := []
  arrived : List Int := []
  imports : List (Import n) := []
deriving DecidableEq

def advance (revisions : Fin n → Int) (gain : Fin n → Nat) (sid : Fin n) : Int := revisions sid + gain sid

namespace DeferredClauseList

def ready (d : DeferredClauseList n) (revisions : Fin n → Int) : List (Fin n) :=
  (List.finRange n).filter fun sid => d.involvedSolvers sid && !decide (revisions sid < d.revision)

def solversRemaining (d : DeferredClauseList n) (revisions : Fin n → Int) : Bool :=
  (List.finRange n).any fun sid => d.involvedSolvers sid && decide (revisions sid < d.revision)

def importsOf (d : DeferredClauseList n) (revisions : Fin n → Int) : List (Import n) :=
  (d.ready revisions).map fun sid => ⟨d.batch, sid, revisions sid, d.clauses⟩

end DeferredClauseList

structure Pass (n : Nat) where
  entries : List (DeferredClauseList n)
  imports : List (Import n)
  revisions : Fin n → Int

/-- The entries are visited in order, up to the first one without any progress. The solvers that have
imported the clauses stay among the involved ones. -/
def digestDeferredFutureClauses : List (DeferredClauseList n) → (Nat → Fin n → Nat) → (Fin n → Int) → Pass n
  | [], _, revisions => ⟨[], [], revisions⟩
  | d :: ds, gains, revisions =>
      let revisions := advance revisions (gains 0)
      let kept := if d.solversRemaining revisions then [d] else []
      if (d.ready revisions).isEmpty then ⟨kept ++ ds, [], revisions⟩
      else
        let rest := digestDeferredFutureClauses ds (fun k => gains (k + 1)) revisions
        ⟨kept ++ rest.entries, d.importsOf revisions ++ rest.imports, rest.revisions⟩

/-- Increases of the manager's revision, and clauses that arrive. The solvers go on in front of every visit
of an entry and before the new clauses are handed out. -/
inductive Action (n : Nat) where
  | setRevision (gain : Nat)
  | digestSharing (gains : Nat → Fin n → Nat) (lastGain : Fin n → Nat) (buffer : List Int)

/-- The new clauses go to the solvers that have reached the revision of the manager, and are deferred for
the others. -/
def handOut (m : SharingManager n) (buffer : List Int) (clauses : List Clause) : SharingManager n :=
  let late (sid : Fin n) : Bool := m.revisions sid < m.currentRevision
  let batch := m.arrived.length
  { m with
    futureClauses := m.futureClauses ++
      if (List.finRange n).any late then [⟨m.currentRevision, late, buffer, clauses, batch⟩] else []
    arrived := m.arrived ++ [m.currentRevision]
    imports := m.imports ++
      ((List.finRange n).filter fun sid => !late sid).map fun sid => ⟨batch, sid, m.revisions sid, clauses⟩ }

def digestDeferred (m : SharingManager n) (gains : Nat → Fin n → Nat) (lastGain : Fin n → Nat) : SharingManager n :=
  let pass := digestDeferredFutureClauses m.futureClauses gains m.revisions
  { m with
    revisions := advance pass.revisions lastGain
    futureClauses := pass.entries
    imports := m.imports ++ pass.imports }

def step (maxLbdPartitionedSize : Nat) (m : SharingManager n) : Action n → Except ReadFault (SharingManager n)
  | .setRevision gain => .ok { m with currentRevision := m.currentRevision + gain }
  | .digestSharing gains lastGain buffer =>
      (decode maxLbdPartitionedSize false buffer).map fun clauses =>
        handOut (digestDeferred m gains lastGain) buffer clauses

def numImports (batch : Nat) (sid : Fin n) (imports : List (Import n)) : Nat :=
  imports.countP fun i => i.batch = batch ∧ i.solver = sid

/-- Every batch goes to every solver at most once, not before the solver has reached the revision that the
manager had when the batch arrived, and exactly once where nothing is deferred any more. -/
structure Right (m : SharingManager n) : Prop where
  atMostOnce : ∀ batch sid, numImports batch sid m.imports ≤ 1
  inTime : ∀ i ∈ m.imports, ∃ revision, m.arrived[i.batch]? = some revision ∧ revision ≤ i.revision
  exactlyOnce : ∀ batch < m.arrived.length, (∀ d ∈ m.futureClauses, d.batch ≠ batch) →
    ∀ sid, numImports batch sid m.imports = 1

def ErasedInTime (m m' : SharingManager n) : Prop :=
  ∀ d ∈ m.futureClauses, d ∉ m'.futureClauses →
    ∀ sid, d.involvedSolvers sid = true → 1 ≤ numImports d.batch sid m'.imports

structure Visit (n : Nat) where
  entry : DeferredClauseList n
  revisions : Fin n → Int

def Visit.Partial (v : Visit n) : Prop :=
  (∃ sid, sid ∈ v.entry.ready v.revisions) ∧ v.entry.solversRemaining v.revisions = true

instance (v : Visit n) : Decidable v.Partial := inferInstanceAs (Decidable (_ ∧ _))

def visits : List (DeferredClauseList n) → (Nat → Fin n → Nat) → (Fin n → Int) → List (Visit n)
  | [], _, _ => []
  | d :: ds, gains, revisions =>
      let revisions := advance revisions (gains 0)
      ⟨d, revisions⟩ :: if (d.ready revisions).isEmpty then [] else visits ds (fun k => gains (k + 1)) revisions

def visitsOf (m : SharingManager n) : Action n → List (Visit n)
  | .setRevision _ => []
  | .digestSharing gains _ _ => visits m.futureClauses gains m.revisions

/-- No entry is visited again after a visit at which some but not all of its involved solvers were ready. The log has
the visits before. -/
def NotRevisited (maxLbdPartitionedSize : Nat) (log : List (Visit n)) (m : SharingManager n) : List (Action n) → Prop
  | [] => True
  | action :: actions =>
      (∀ w ∈ visitsOf m action, ∀ v ∈ log, v.entry.batch = w.entry.batch → ¬v.Partial) ∧
      ∀ m', step maxLbdPartitionedSize m action = .ok m' →
        NotRevisited maxLbdPartitionedSize (log ++ visitsOf m action) m' actions

instance decidableNotRevisited (p : Nat) (log : List (Visit n)) (m : SharingManager n) :
    (actions : List (Action n)) → Decidable (NotRevisited p log m actions)
  | [] => .isTrue trivial
  | action :: actions =>
      match hok : step p m action with
      | .ok m' =>
          have := decidableNotRevisited p (log ++ visitsOf m action) m' actions
          decidable_of_iff ((∀ w ∈ visitsOf m action, ∀ v ∈ log, v.entry.batch = w.entry.batch → ¬v.Partial) ∧
            NotRevisited p (log ++ visitsOf m action) m' actions) <| and_congr_right fun _ =>
              ⟨fun h _ hok' => Except.ok.inj (hok.symm.trans hok') ▸ h, fun h => h m' hok⟩
      | .error _ =>
          decidable_of_iff (∀ w ∈ visitsOf m action, ∀ v ∈ log, v.entry.batch = w.entry.batch → ¬v.Partial)
            ⟨fun h => ⟨h, fun _ hok' => by cases hok.symm.trans hok'⟩, And.left⟩

section Counting

theorem numImports_append (batch : Nat) (sid : Fin n) (is js : List (Import n)) :
    numImports batch sid (is ++ js) = numImports batch sid is + numImports batch sid js := List.countP_append

theorem numImports_eq_zero {batch : Nat} {sid : Fin n} {imports : List (Import n)} :
    numImports batch sid imports = 0 ↔ ∀ i ∈ imports, i.batch = batch → i.solver ≠ sid := by
  simp [numImports, List.countP_eq_zero]

theorem exists_of_numImports_pos {batch : Nat} {sid : Fin n} {imports : List (Import n)}
    (h : 1 ≤ numImports batch sid imports) : ∃ i ∈ imports, i.batch = batch ∧ i.solver = sid := by
  simpa using List.countP_pos_iff.mp h

theorem numImports_map_finRange (keep : Fin n → Bool) (batch : Nat) (revisions : Fin n → Int)
    (clauses : List Clause) (batch' : Nat) (sid : Fin n) :
    numImports batch' sid (((List.finRange n).filter keep).map fun sid => ⟨batch, sid, revisions sid, clauses⟩) =
      if batch = batch' ∧ keep sid = true then 1 else 0 := by
  rw [numImports, List.countP_map]
  by_cases hbatch : batch = batch'
  · have hcount : ((fun i : Import n => decide (i.batch = batch' ∧ i.solver = sid)) ∘
        fun sid => ⟨batch, sid, revisions sid, clauses⟩) = fun x => x == sid := by
      funext x
      rw [Bool.eq_iff_iff]
      simp [hbatch]
    rw [hcount, ← List.count_eq_countP, List.Nodup.count ((List.nodup_finRange n).filter keep)]
    simp [hbatch]
  · simp [hbatch]

end Counting

section Visits

variable {d : DeferredClauseList n} {revisions : Fin n → Int} {sid : Fin n}

theorem mem_ready : sid ∈ d.ready revisions ↔ d.involvedSolvers sid = true ∧ d.revision ≤ revisions sid := by
  simp [DeferredClauseList.ready]

theorem solversRemaining_iff : d.solversRemaining revisions = true ↔
    ∃ sid, d.involvedSolvers sid = true ∧ revisions sid < d.revision := by
  simp [DeferredClauseList.solversRemaining]

theorem numImports_importsOf (batch : Nat) (sid : Fin n) : numImports batch sid (d.importsOf revisions) =
    if d.batch = batch ∧ sid ∈ d.ready revisions then 1 else 0 := by
  rw [DeferredClauseList.importsOf, DeferredClauseList.ready, numImports_map_finRange]
  simp

theorem le_advance (revisions : Fin n → Int) (gain : Fin n → Nat) (sid : Fin n) :
    revisions sid ≤ advance revisions gain sid := by
  rw [advance]
  omega

/-- What is true of a visited entry: its ready solvers get the clauses, and it stays if any solver is left. -/
theorem mem_pass (ds : List (DeferredClauseList n)) (gains : Nat → Fin n → Nat) (revisions : Fin n → Int) :
    (∀ sid, revisions sid ≤ (digestDeferredFutureClauses ds gains revisions).revisions sid) ∧
    (digestDeferredFutureClauses ds gains revisions).entries.Sublist ds ∧
    ((visits ds gains revisions).map (·.entry)).Sublist ds := by
  induction ds generalizing gains revisions with
  | nil => exact ⟨fun _ => le_rfl, List.Sublist.slnil, List.Sublist.slnil⟩
  | cons d ds ih =>
      obtain ⟨hrevisions, hentries, hvisited⟩ := ih (fun k => gains (k + 1)) (advance revisions (gains 0))
      rw [digestDeferredFutureClauses, visits, List.map_cons]
      have hkept : ∀ {es : List (DeferredClauseList n)}, es.Sublist ds →
          ((if d.solversRemaining (advance revisions (gains 0)) then [d] else []) ++ es).Sublist (d :: ds) := by
        intro es hes
        split
        · exact hes.cons_cons d
        · exact hes.cons d
      dsimp only
      split
      · exact ⟨le_advance revisions (gains 0), hkept (List.Sublist.refl ds), (List.nil_sublist ds).cons_cons d⟩
      · exact ⟨fun sid => (le_advance revisions (gains 0) sid).trans (hrevisions sid), hkept hentries,
          hvisited.cons_cons d⟩

theorem entry_mem_of_visits {ds : List (DeferredClauseList n)} {gains : Nat → Fin n → Nat} {v : Visit n}
    (hv : v ∈ visits ds gains revisions) : v.entry ∈ ds :=
  (mem_pass ds gains revisions).2.2.subset (List.mem_map_of_mem hv)

/-- The clauses of visited entries are imported by the involved solvers that are ready at the visit. -/
theorem of_mem_imports {ds : List (DeferredClauseList n)} {gains : Nat → Fin n → Nat} {i : Import n}
    (hi : i ∈ (digestDeferredFutureClauses ds gains revisions).imports) :
    ∃ v ∈ visits ds gains revisions, i.batch = v.entry.batch ∧ i.solver ∈ v.entry.ready v.revisions ∧
      v.entry.revision ≤ i.revision ∧
      i.revision ≤ (digestDeferredFutureClauses ds gains revisions).revisions i.solver := by
  induction ds generalizing gains revisions with
  | nil => cases hi
  | cons d ds ih =>
      rw [digestDeferredFutureClauses] at hi ⊢
      rw [visits]
      dsimp only at hi ⊢
      split
      · next hempty =>
          rw [if_pos hempty] at hi
          cases hi
      · next hready =>
          rw [if_neg hready] at hi
          rcases List.mem_append.mp hi with hi | hi
          · obtain ⟨sid, hsid, rfl⟩ := List.mem_map.mp hi
            exact ⟨_, List.mem_cons_self, rfl, hsid, (mem_ready.mp hsid).2, (mem_pass _ _ _).1 sid⟩
          · obtain ⟨v, hv, hprops⟩ := ih hi
            exact ⟨v, List.mem_cons_of_mem _ hv, hprops⟩

theorem numImports_pass_le {ds : List (DeferredClauseList n)} (hnodup : (ds.map (·.batch)).Nodup)
    (gains : Nat → Fin n → Nat) (revisions : Fin n → Int) (batch : Nat) (sid : Fin n) :
    numImports batch sid (digestDeferredFutureClauses ds gains revisions).imports ≤ 1 := by
  induction ds generalizing gains revisions with
  | nil => exact Nat.zero_le 1
  | cons d ds ih =>
      rw [List.map_cons, List.nodup_cons] at hnodup
      rw [digestDeferredFutureClauses]
      dsimp only
      split
      · exact Nat.zero_le 1
      · rw [numImports_append, numImports_importsOf]
        by_cases hbatch : d.batch = batch
        · have hrest : numImports batch sid (digestDeferredFutureClauses ds (fun k => gains (k + 1))
              (advance revisions (gains 0))).imports = 0 := by
            rw [numImports_eq_zero]
            intro i hi hieq
            obtain ⟨v, hv, hie, -⟩ := of_mem_imports hi
            have hmem : v.entry.batch ∈ ds.map (·.batch) := List.mem_map_of_mem (entry_mem_of_visits hv)
            rw [← hie, hieq, ← hbatch] at hmem
            exact absurd hmem hnodup.1
          rw [hrest]
          split <;> omega
        · rw [if_neg (fun h => hbatch h.1), zero_add]
          exact ih hnodup.2 _ _

theorem mem_ready_of_not_kept (hgone : d ∉ if d.solversRemaining revisions then [d] else [])
    (hinvolved : d.involvedSolvers sid = true) : sid ∈ d.ready revisions := by
  rw [mem_ready]
  refine ⟨hinvolved, ?_⟩
  by_contra hlt
  have hremaining := solversRemaining_iff.mpr ⟨sid, hinvolved, not_le.mp hlt⟩
  rw [if_pos hremaining] at hgone
  exact hgone List.mem_cons_self

theorem numImports_of_erased {ds : List (DeferredClauseList n)} {gains : Nat → Fin n → Nat} (hd : d ∈ ds)
    (hgone : d ∉ (digestDeferredFutureClauses ds gains revisions).entries) (hinvolved : d.involvedSolvers sid = true) :
    1 ≤ numImports d.batch sid (digestDeferredFutureClauses ds gains revisions).imports := by
  induction ds generalizing gains revisions with
  | nil => cases hd
  | cons e ds ih =>
      rw [digestDeferredFutureClauses] at hgone ⊢
      dsimp only at hgone ⊢
      split
      · next hempty =>
          rw [if_pos hempty, List.mem_append, not_or] at hgone
          rcases List.mem_cons.mp hd with rfl | hd
          · have hready := mem_ready_of_not_kept hgone.1 hinvolved
            rw [List.isEmpty_iff.mp hempty] at hready
            cases hready
          · exact absurd hd hgone.2
      · next hprogress =>
          rw [if_neg hprogress, List.mem_append, not_or] at hgone
          rw [numImports_append]
          rcases List.mem_cons.mp hd with rfl | hd
          · rw [numImports_importsOf, if_pos ⟨rfl, mem_ready_of_not_kept hgone.1 hinvolved⟩]
            exact Nat.le_add_right 1 _
          · exact (ih hd hgone.2).trans (Nat.le_add_left _ _)

theorem numImports_of_visits {ds : List (DeferredClauseList n)} {gains : Nat → Fin n → Nat} {v : Visit n}
    (hv : v ∈ visits ds gains revisions) (hready : sid ∈ v.entry.ready v.revisions) :
    1 ≤ numImports v.entry.batch sid (digestDeferredFutureClauses ds gains revisions).imports := by
  induction ds generalizing gains revisions with
  | nil => cases hv
  | cons e ds ih =>
      rw [visits] at hv
      rw [digestDeferredFutureClauses]
      dsimp only at hv ⊢
      rcases List.mem_cons.mp hv with rfl | hv
      · rw [if_neg (by simpa using List.ne_nil_of_mem hready), numImports_append, numImports_importsOf,
          if_pos ⟨rfl, hready⟩]
        exact Nat.le_add_right 1 _
      · split at hv
        · cases hv
        · next hprogress =>
            rw [if_neg hprogress, numImports_append]
            exact (ih hv).trans (Nat.le_add_left _ _)

/-- A batch is imported exactly by the solvers that are ready at a visit of its entry. -/
theorem numImports_pass_pos_iff {ds : List (DeferredClauseList n)} {gains : Nat → Fin n → Nat} {batch : Nat} :
    1 ≤ numImports batch sid (digestDeferredFutureClauses ds gains revisions).imports ↔
      ∃ v ∈ visits ds gains revisions, v.entry.batch = batch ∧ sid ∈ v.entry.ready v.revisions := by
  constructor
  · intro h
    obtain ⟨i, hi, rfl, rfl⟩ := exists_of_numImports_pos h
    obtain ⟨v, hv, hbatch, hready, -⟩ := of_mem_imports hi
    exact ⟨v, hv, hbatch.symm, hready⟩
  · rintro ⟨v, hv, rfl, hready⟩
    exact numImports_of_visits hv hready

theorem le_of_visits {ds : List (DeferredClauseList n)} {gains : Nat → Fin n → Nat} {v : Visit n}
    (hv : v ∈ visits ds gains revisions) (sid : Fin n) : revisions sid ≤ v.revisions sid := by
  induction ds generalizing gains revisions with
  | nil => cases hv
  | cons e ds ih =>
      rw [visits] at hv
      rcases List.mem_cons.mp hv with rfl | hv
      · exact le_advance revisions (gains 0) sid
      · split at hv
        · cases hv
        · exact (le_advance revisions (gains 0) sid).trans (ih hv)

theorem solversRemaining_of_kept {ds : List (DeferredClauseList n)} {gains : Nat → Fin n → Nat} {v : Visit n}
    (hnodup : (ds.map (·.batch)).Nodup) (hv : v ∈ visits ds gains revisions)
    (hkept : v.entry ∈ (digestDeferredFutureClauses ds gains revisions).entries) :
    v.entry.solversRemaining v.revisions = true := by
  induction ds generalizing gains revisions with
  | nil => cases hv
  | cons e ds ih =>
      rw [List.map_cons, List.nodup_cons] at hnodup
      have hnot : ∀ d ∈ ds, d.batch ≠ e.batch := fun d hd heq => hnodup.1 (heq ▸ List.mem_map_of_mem hd)
      rw [visits] at hv
      rw [digestDeferredFutureClauses] at hkept
      dsimp only at hv hkept
      rcases List.mem_cons.mp hv with rfl | hv
      · by_contra hdone
        rw [if_neg hdone, List.nil_append, List.nil_append] at hkept
        split at hkept
        · exact hnot e hkept rfl
        · exact hnot e ((mem_pass _ _ _).2.1.subset hkept) rfl
      · split at hv
        · cases hv
        · next hprogress =>
            have hne : v.entry ≠ e := fun heq => hnot v.entry (entry_mem_of_visits hv) (congrArg _ heq)
            rw [if_neg hprogress, List.mem_append] at hkept
            refine ih hnodup.2 hv (hkept.resolve_left fun hmem => ?_)
            split at hmem
            · exact hne (List.mem_singleton.mp hmem)
            · cases hmem

end Visits

section HandOut

variable {m : SharingManager n} {buffer : List Int} {clauses : List Clause}

def late (m : SharingManager n) (sid : Fin n) : Bool := m.revisions sid < m.currentRevision

theorem mem_futureClauses_handOut {d : DeferredClauseList n} : d ∈ (handOut m buffer clauses).futureClauses ↔
    d ∈ m.futureClauses ∨
      (∃ sid, late m sid = true) ∧ d = ⟨m.currentRevision, late m, buffer, clauses, m.arrived.length⟩ := by
  rw [handOut, List.mem_append]
  refine or_congr_right ?_
  split
  · next hlate =>
      rw [List.any_eq_true] at hlate
      obtain ⟨sid, -, hsid⟩ := hlate
      rw [List.mem_singleton]
      exact (and_iff_right ⟨sid, hsid⟩).symm
  · next hnone =>
      refine iff_of_false List.not_mem_nil fun h => ?_
      obtain ⟨⟨sid, hsid⟩, -⟩ := h
      exact hnone (List.any_eq_true.mpr ⟨sid, List.mem_finRange sid, hsid⟩)

theorem numImports_handOut (batch : Nat) (sid : Fin n) :
    numImports batch sid (handOut m buffer clauses).imports =
      numImports batch sid m.imports + if m.arrived.length = batch ∧ late m sid = false then 1 else 0 := by
  rw [handOut, numImports_append, numImports_map_finRange]
  simp [late]

theorem of_mem_imports_handOut {i : Import n} (hi : i ∈ (handOut m buffer clauses).imports) :
    i ∈ m.imports ∨ i.batch = m.arrived.length ∧ m.currentRevision ≤ i.revision := by
  rw [handOut, List.mem_append] at hi
  refine hi.imp_right fun hnew => ?_
  obtain ⟨sid, hsid, rfl⟩ := List.mem_map.mp hnew
  refine ⟨rfl, ?_⟩
  simpa using (List.mem_filter.mp hsid).2

end HandOut

structure Sound (m : SharingManager n) : Prop where
  deferred : ∀ d ∈ m.futureClauses, m.arrived[d.batch]? = some d.revision
  nodup : (m.futureClauses.map (·.batch)).Nodup
  inTime : ∀ i ∈ m.imports, ∃ revision, m.arrived[i.batch]? = some revision ∧ revision ≤ i.revision
  covered : ∀ batch < m.arrived.length, ∀ sid, numImports batch sid m.imports = 0 →
    ∃ d ∈ m.futureClauses, d.batch = batch ∧ d.involvedSolvers sid = true
  received : ∀ d ∈ m.futureClauses, ∀ sid, 1 ≤ numImports d.batch sid m.imports → d.revision ≤ m.revisions sid

section Steps

variable {m : SharingManager n} {gains : Nat → Fin n → Nat} {lastGain : Fin n → Nat}

theorem Sound.digestDeferred (h : Sound m) (gains : Nat → Fin n → Nat) (lastGain : Fin n → Nat) :
    Sound (digestDeferred m gains lastGain) := by
  obtain ⟨hrevisions, hentries, -⟩ := mem_pass m.futureClauses gains m.revisions
  have hrevision : ∀ sid, (digestDeferredFutureClauses m.futureClauses gains m.revisions).revisions sid ≤
      (DeferredClauses.digestDeferred m gains lastGain).revisions sid := fun sid => le_advance _ lastGain sid
  constructor
  · intro d hd
    exact h.deferred d (hentries.subset hd)
  · exact h.nodup.sublist (hentries.map _)
  · intro i hi
    rcases List.mem_append.mp hi with hi | hi
    · exact h.inTime i hi
    · obtain ⟨v, hv, hbatch, -, hle, -⟩ := of_mem_imports hi
      exact ⟨v.entry.revision, hbatch ▸ h.deferred v.entry (entry_mem_of_visits hv), hle⟩
  · intro batch hbatch sid hzero
    have hsum := numImports_append batch sid m.imports
      (digestDeferredFutureClauses m.futureClauses gains m.revisions).imports
    have hnone : numImports batch sid m.imports + numImports batch sid
        (digestDeferredFutureClauses m.futureClauses gains m.revisions).imports = 0 := hsum.symm.trans hzero
    obtain ⟨d, hd, rfl, hinvolved⟩ := h.covered batch hbatch sid (by omega)
    refine ⟨d, ?_, rfl, hinvolved⟩
    by_contra hgone
    have himported := numImports_of_erased hd hgone hinvolved
    omega
  · intro d hd sid himported
    have hsum := numImports_append d.batch sid m.imports
      (digestDeferredFutureClauses m.futureClauses gains m.revisions).imports
    by_cases hbefore : 1 ≤ numImports d.batch sid m.imports
    · exact (h.received d (hentries.subset hd) sid hbefore).trans ((hrevisions sid).trans (hrevision sid))
    · have hnow : 1 ≤ numImports d.batch sid
          (digestDeferredFutureClauses m.futureClauses gains m.revisions).imports := by
        have himported' : 1 ≤ _ := himported.trans_eq hsum
        omega
      obtain ⟨i, hi, hbatch, rfl⟩ := exists_of_numImports_pos hnow
      obtain ⟨v, hv, hie, -, hle, hle'⟩ := of_mem_imports hi
      have hrev := h.deferred v.entry (entry_mem_of_visits hv)
      rw [← hie, hbatch, h.deferred d (hentries.subset hd)] at hrev
      rw [Option.some.inj hrev]
      exact hle.trans (hle'.trans (hrevision _))

theorem Sound.numImports_next (h : Sound m) (sid : Fin n) : numImports m.arrived.length sid m.imports = 0 := by
  rw [numImports_eq_zero]
  rintro i hi hbatch -
  obtain ⟨revision, hrevision, -⟩ := h.inTime i hi
  rw [hbatch, List.getElem?_eq_none le_rfl] at hrevision
  cases hrevision

theorem Sound.batch_lt (h : Sound m) {d : DeferredClauseList n} (hd : d ∈ m.futureClauses) :
    d.batch < m.arrived.length := (List.getElem?_eq_some_iff.mp (h.deferred d hd)).1

theorem length_arrived_handOut (m : SharingManager n) (buffer : List Int) (clauses : List Clause) :
    (handOut m buffer clauses).arrived.length = m.arrived.length + 1 := by
  rw [handOut, List.length_append, List.length_singleton]

theorem getElem?_arrived_handOut {buffer : List Int} {clauses : List Clause} {batch : Nat} {revision : Int}
    (hbatch : m.arrived[batch]? = some revision) :
    (handOut m buffer clauses).arrived[batch]? = some revision := by
  obtain ⟨hlt, -⟩ := List.getElem?_eq_some_iff.mp hbatch
  rw [handOut, List.getElem?_append_left hlt, hbatch]

theorem getElem?_arrived_length (m : SharingManager n) (buffer : List Int) (clauses : List Clause) :
    (handOut m buffer clauses).arrived[m.arrived.length]? = some m.currentRevision := by
  simp [handOut]

theorem Sound.handOut (h : Sound m) (buffer : List Int) (clauses : List Clause) :
    Sound (handOut m buffer clauses) := by
  constructor
  · intro d hd
    rcases mem_futureClauses_handOut.mp hd with hd | ⟨-, rfl⟩
    · exact getElem?_arrived_handOut (h.deferred d hd)
    · exact getElem?_arrived_length m buffer clauses
  · rw [DeferredClauses.handOut, List.map_append]
    refine List.nodup_append.mpr ⟨h.nodup, ?_, ?_⟩
    · split
      · exact List.nodup_singleton _
      · exact List.nodup_nil
    · intro batch hbatch batch' hbatch'
      obtain ⟨d, hd, rfl⟩ := List.mem_map.mp hbatch
      have hlt := h.batch_lt hd
      split at hbatch'
      · rw [List.map_singleton, List.mem_singleton] at hbatch'
        exact (hlt.trans_eq hbatch'.symm).ne
      · cases hbatch'
  · intro i hi
    rcases of_mem_imports_handOut hi with hi | ⟨hbatch, hle⟩
    · obtain ⟨revision, hrevision, hle⟩ := h.inTime i hi
      exact ⟨revision, getElem?_arrived_handOut hrevision, hle⟩
    · exact ⟨m.currentRevision, hbatch ▸ getElem?_arrived_length m buffer clauses, hle⟩
  · intro batch hbatch sid hzero
    rw [numImports_handOut] at hzero
    by_cases hnew : m.arrived.length = batch
    · have hlate : late m sid = true := by
        by_contra hready
        rw [Bool.not_eq_true] at hready
        rw [if_pos ⟨hnew, hready⟩] at hzero
        omega
      exact ⟨_, mem_futureClauses_handOut.mpr (Or.inr ⟨⟨sid, hlate⟩, rfl⟩), hnew, hlate⟩
    · have hlt : batch < m.arrived.length := by
        rw [length_arrived_handOut] at hbatch
        omega
      obtain ⟨d, hd, hprops⟩ := h.covered batch hlt sid (by omega)
      exact ⟨d, mem_futureClauses_handOut.mpr (Or.inl hd), hprops⟩
  · intro d hd sid himported
    rw [numImports_handOut] at himported
    rcases mem_futureClauses_handOut.mp hd with hd | ⟨-, rfl⟩
    · rw [if_neg (fun hnew => absurd hnew.1 (h.batch_lt hd).ne')] at himported
      exact h.received d hd sid himported
    · rw [h.numImports_next] at himported
      by_contra hlt
      have hlate : late m sid = true := decide_eq_true (not_le.mp hlt)
      rw [hlate] at himported
      simp at himported

theorem Sound.step (h : Sound m) {p : Nat} {action : Action n} {m' : SharingManager n}
    (hok : step p m action = .ok m') : Sound m' := by
  cases action with
  | setRevision gain =>
      obtain rfl := Except.ok.inj hok
      exact ⟨h.deferred, h.nodup, h.inTime, h.covered, h.received⟩
  | digestSharing gains lastGain buffer =>
      obtain ⟨clauses, -, rfl⟩ := Runs.exists_of_map_eq_ok hok
      exact (h.digestDeferred gains lastGain).handOut buffer clauses

theorem numImports_step {p : Nat} {buffer : List Int} {m' : SharingManager n}
    (hok : DeferredClauses.step p m (.digestSharing gains lastGain buffer) = .ok m') (batch : Nat) (sid : Fin n) :
    numImports batch sid m'.imports = numImports batch sid m.imports +
      numImports batch sid (digestDeferredFutureClauses m.futureClauses gains m.revisions).imports +
      if m.arrived.length = batch ∧ late (digestDeferred m gains lastGain) sid = false then 1 else 0 := by
  obtain ⟨clauses, -, rfl⟩ := Runs.exists_of_map_eq_ok hok
  rw [numImports_handOut]
  exact congrArg (· + _) (numImports_append batch sid m.imports _)

theorem Sound.numImports_pass_next (h : Sound m) (sid : Fin n) : numImports m.arrived.length sid
    (digestDeferredFutureClauses m.futureClauses gains m.revisions).imports = 0 := by
  rw [numImports_eq_zero]
  rintro i hi hbatch -
  obtain ⟨v, hv, hid, -⟩ := of_mem_imports hi
  have hlt := h.batch_lt (entry_mem_of_visits hv)
  omega

/-- A call keeps every batch from being imported twice exactly if no visited entry has been imported by one of its
involved solvers. -/
theorem Sound.atMostOnce_iff (h : Sound m) (hone : ∀ batch sid, numImports batch sid m.imports ≤ 1) {p : Nat}
    {buffer : List Int} {m' : SharingManager n}
    (hok : DeferredClauses.step p m (.digestSharing gains lastGain buffer) = .ok m') :
    (∀ batch sid, numImports batch sid m'.imports ≤ 1) ↔ ∀ w ∈ visits m.futureClauses gains m.revisions,
      ∀ sid, w.entry.involvedSolvers sid = true → numImports w.entry.batch sid m.imports = 0 := by
  constructor
  · intro hafter w hw sid hinvolved
    by_contra hreceived
    have hreached := h.received w.entry (entry_mem_of_visits hw) sid (Nat.one_le_iff_ne_zero.mpr hreceived)
    have hready : sid ∈ w.entry.ready w.revisions := mem_ready.mpr ⟨hinvolved, hreached.trans (le_of_visits hw sid)⟩
    have hagain := numImports_of_visits hw hready
    have hsum := numImports_step hok w.entry.batch sid
    have hle := hafter w.entry.batch sid
    omega
  · intro hnot batch sid
    have hsum := numImports_step hok batch sid
    have hpass := numImports_pass_le h.nodup gains m.revisions batch sid
    have hbefore := hone batch sid
    by_cases hnew : m.arrived.length = batch
    · subst hnew
      rw [h.numImports_next, h.numImports_pass_next] at hsum
      split at hsum <;> omega
    · rw [if_neg fun hboth => hnew hboth.1] at hsum
      by_contra hmore
      have hnow : 1 ≤ numImports batch sid
          (digestDeferredFutureClauses m.futureClauses gains m.revisions).imports := by
        omega
      obtain ⟨w, hw, rfl, hready⟩ := numImports_pass_pos_iff.mp hnow
      have hfirst := hnot w hw sid (mem_ready.mp hready).1
      omega

/-- With at most one import of every batch by every solver everything else is right, too. -/
theorem Sound.right_iff (h : Sound m) : Right m ↔ ∀ batch sid, numImports batch sid m.imports ≤ 1 := by
  refine ⟨fun hright => hright.atMostOnce, fun hone => ⟨hone, h.inTime, fun batch hbatch hnone sid => ?_⟩⟩
  have hle := hone batch sid
  have hne : numImports batch sid m.imports ≠ 0 := by
    intro hzero
    obtain ⟨d, hd, heq, -⟩ := h.covered batch hbatch sid hzero
    exact hnone d hd heq
  omega

theorem erasedInTime_step {p : Nat} {action : Action n} {m' : SharingManager n}
    (hok : DeferredClauses.step p m action = .ok m') : ErasedInTime m m' := by
  intro d hd hgone sid hinvolved
  cases action with
  | setRevision gain =>
      obtain rfl := Except.ok.inj hok
      exact absurd hd hgone
  | digestSharing gains lastGain buffer =>
      rw [numImports_step hok]
      obtain ⟨clauses, -, rfl⟩ := Runs.exists_of_map_eq_ok hok
      rw [mem_futureClauses_handOut, not_or] at hgone
      have himported := numImports_of_erased hd hgone.1 hinvolved
      omega

end Steps

theorem sound_start (revisions : Fin n → Int) : Sound ({ revisions } : SharingManager n) where
  deferred := fun _ hd => absurd hd List.not_mem_nil
  nodup := List.nodup_nil
  inTime := fun _ hi => absurd hi List.not_mem_nil
  covered := fun batch hbatch => absurd hbatch (Nat.not_lt_zero batch)
  received := fun _ hd => absurd hd List.not_mem_nil

structure Logged (log : List (Visit n)) (m : SharingManager n) : Prop where
  before : ∀ v ∈ log, v.entry.batch < m.arrived.length
  kept : ∀ d ∈ m.futureClauses, ∀ v ∈ log, v.entry.batch = d.batch →
    v.entry = d ∧ v.entry.solversRemaining v.revisions = true
  received_iff : ∀ d ∈ m.futureClauses, ∀ sid, d.involvedSolvers sid = true →
    (1 ≤ numImports d.batch sid m.imports ↔ ∃ v ∈ log, v.entry.batch = d.batch ∧ sid ∈ v.entry.ready v.revisions)

theorem logged_start (revisions : Fin n → Int) : Logged [] ({ revisions } : SharingManager n) where
  before := fun _ hv => absurd hv List.not_mem_nil
  kept := fun _ hd => absurd hd List.not_mem_nil
  received_iff := fun _ hd => absurd hd List.not_mem_nil

section Log

variable {m m' : SharingManager n} {log : List (Visit n)} {p : Nat} {action : Action n}

theorem Sound.entry_eq (h : Sound m) {d e : DeferredClauseList n} (hd : d ∈ m.futureClauses)
    (he : e ∈ m.futureClauses) (hbatch : d.batch = e.batch) : d = e :=
  List.inj_on_of_nodup_map h.nodup hd he hbatch

theorem Logged.step (hlog : Logged log m) (h : Sound m) (hok : DeferredClauses.step p m action = .ok m') :
    Logged (log ++ visitsOf m action) m' := by
  cases action with
  | setRevision gain =>
      obtain rfl := Except.ok.inj hok
      rw [visitsOf, List.append_nil]
      exact ⟨hlog.before, hlog.kept, hlog.received_iff⟩
  | digestSharing gains lastGain buffer =>
      have hcount := numImports_step hok
      obtain ⟨clauses, -, rfl⟩ := Runs.exists_of_map_eq_ok hok
      have hlength := length_arrived_handOut (DeferredClauses.digestDeferred m gains lastGain) buffer clauses
      have hbefore : ∀ v ∈ log ++ visitsOf m (.digestSharing gains lastGain buffer),
          v.entry.batch < m.arrived.length := by
        intro v hv
        rcases List.mem_append.mp hv with hv | hv
        · exact hlog.before v hv
        · exact h.batch_lt (entry_mem_of_visits hv)
      refine ⟨fun v hv => ?_, fun d hd v hv hbatch => ?_, fun d hd sid hinvolved => ?_⟩
      · exact (hbefore v hv).trans (hlength ▸ Nat.lt_succ_self _)
      · rcases mem_futureClauses_handOut.mp hd with hd | ⟨-, rfl⟩
        · have hold := (mem_pass m.futureClauses gains m.revisions).2.1.subset hd
          rcases List.mem_append.mp hv with hv | hv
          · exact hlog.kept d hold v hv hbatch
          · obtain rfl := h.entry_eq (entry_mem_of_visits hv) hold hbatch
            exact ⟨rfl, solversRemaining_of_kept h.nodup hv hd⟩
        · exact absurd hbatch (hbefore v hv).ne
      · rw [hcount]
        rcases mem_futureClauses_handOut.mp hd with hd | ⟨-, rfl⟩
        · have hold := (mem_pass m.futureClauses gains m.revisions).2.1.subset hd
          rw [if_neg fun hnew => absurd hnew.1 (h.batch_lt hold).ne', add_zero]
          have hpass := @numImports_pass_pos_iff n m.revisions sid m.futureClauses gains d.batch
          have hreceived := hlog.received_iff d hold sid hinvolved
          simp only [visitsOf, List.mem_append, or_and_right, exists_or, ← hpass, ← hreceived]
          omega
        · refine iff_of_false ?_ ?_
          · have hnext : numImports m.arrived.length sid m.imports = 0 := h.numImports_next sid
            have hlate : late (DeferredClauses.digestDeferred m gains lastGain) sid = true := hinvolved
            have hpass := @Sound.numImports_pass_next n m gains h sid
            change ¬1 ≤ numImports m.arrived.length sid m.imports + numImports m.arrived.length sid _ + _
            rw [hnext, hpass, hlate]
            simp
          · rintro ⟨v, hv, hbatch, -⟩
            exact (hbefore v hv).ne hbatch

/-- In front of a visit an involved solver has received the clauses exactly if an earlier visit found it ready, and
others not. -/
theorem Logged.unreceived_iff (hlog : Logged log m) {d : DeferredClauseList n} (hd : d ∈ m.futureClauses) :
    (∀ sid, d.involvedSolvers sid = true → numImports d.batch sid m.imports = 0) ↔
      ∀ v ∈ log, v.entry.batch = d.batch → ¬v.Partial := by
  constructor
  · rintro hnone v hv hbatch ⟨⟨sid, hready⟩, -⟩
    obtain ⟨heq, -⟩ := hlog.kept d hd v hv hbatch
    have hinvolved : d.involvedSolvers sid = true := heq ▸ (mem_ready.mp hready).1
    have hreceived := (hlog.received_iff d hd sid hinvolved).mpr ⟨v, hv, hbatch, hready⟩
    have hzero := hnone sid hinvolved
    omega
  · intro hnot sid hinvolved
    by_contra hreceived
    obtain ⟨v, hv, hbatch, hready⟩ :=
      (hlog.received_iff d hd sid hinvolved).mp (Nat.one_le_iff_ne_zero.mpr hreceived)
    exact hnot v hv hbatch ⟨⟨sid, hready⟩, (hlog.kept d hd v hv hbatch).2⟩

theorem Sound.right_step_iff (h : Sound m) (hlog : Logged log m) (hright : Right m)
    (hok : DeferredClauses.step p m action = .ok m') :
    Right m' ↔ ∀ w ∈ visitsOf m action, ∀ v ∈ log, v.entry.batch = w.entry.batch → ¬v.Partial := by
  rw [(h.step hok).right_iff]
  cases action with
  | setRevision gain =>
      obtain rfl := Except.ok.inj hok
      exact iff_of_true hright.atMostOnce fun w hw => absurd hw List.not_mem_nil
  | digestSharing gains lastGain buffer =>
      rw [h.atMostOnce_iff hright.atMostOnce hok]
      exact forall₂_congr fun w hw => hlog.unreceived_iff (entry_mem_of_visits hw)

end Log

theorem throughout_iff {p : Nat} {log : List (Visit n)} {m m₁ : SharingManager n} (h : Sound m) (hlog : Logged log m)
    (hright : Right m) {actions : List (Action n)} (hrun : Runs.run (step p) m actions = .ok m₁) :
    Runs.Throughout (step p) (fun m action => ∀ m', step p m action = .ok m' → Right m' ∧ ErasedInTime m m') m
      actions ↔ NotRevisited p log m actions := by
  induction actions generalizing log m with
  | nil => exact Iff.rfl
  | cons action actions ih =>
      obtain ⟨m₂, hok, hrest⟩ := Runs.exists_of_bind_eq_ok hrun
      have hstep := h.right_step_iff hlog hright hok
      have hone : (∀ m', step p m action = .ok m' → Right m' ∧ ErasedInTime m m') ↔ Right m₂ := by
        refine ⟨fun hall => (hall m₂ hok).1, fun hright₂ m' hok' => ?_⟩
        obtain rfl := Except.ok.inj (hok.symm.trans hok')
        exact ⟨hright₂, erasedInTime_step hok⟩
      rw [Runs.Throughout, NotRevisited, hone, hstep]
      refine and_congr_right fun hnot => forall₂_congr fun m' hok' => ?_
      obtain rfl := Except.ok.inj (hok.symm.trans hok')
      exact ih (h.step hok) (hlog.step h hok) (hstep.mpr hnot) hrest

/-- Along a run every batch reaches every solver as it should exactly if no entry is visited again after a visit
that found some but not all of its involved solvers ready. -/
theorem imported_once_iff (n p : Nat) (revisions : Fin n → Int) (actions : List (Action n)) (m : SharingManager n)
    (hrun : Runs.run (step p) { revisions } actions = .ok m) :
    Runs.Throughout (step p) (fun m action => ∀ m', step p m action = .ok m' → Right m' ∧ ErasedInTime m m')
      { revisions } actions ↔ NotRevisited p [] { revisions } actions :=
  have hstart : Right ({ revisions } : SharingManager n) :=
    (sound_start revisions).right_iff.mpr fun _ _ => Nat.zero_le 1
  throughout_iff (sound_start revisions) (logged_start revisions) hstart hrun

def digest (gain : Fin n → Nat) (buffer : List Int) : Action n :=
  .digestSharing (fun k => if k = 0 then gain else fun _ => 0) (fun _ => 0) buffer

/-- Clauses arrive before any of two solvers has reached the revision of the manager. The first solver reaches it
before the second call, and the other one does not. -/
def slowSolver : List (Action 2) :=
  [.setRevision 2, digest ![0, 0] [0, 0, 1, 5], digest ![1, 0] [0, 0, 0, 1, 1, 2], digest ![0, 0] [0, 0, 1, 7]]

/-- At the second call none of the solvers is ready for the first clauses, at the third both are. The clauses of the
fourth call have only met one ready solver in the end. -/
def evenSolvers : List (Action 2) :=
  [.setRevision 2, digest ![0, 0] [0, 0, 1, 5], digest ![0, 0] [0, 0, 0, 1, 1, 2], digest ![1, 1] [0, 0, 1, 7],
    .setRevision 1, digest ![0, 0] [0, 0, 1, -3], digest ![1, 0] [0, 0, 1, 9]]

theorem imported_once_iff_evenSolvers : Runs.Throughout (step 2)
    (fun m action => ∀ m', step 2 m action = .ok m' → Right m' ∧ ErasedInTime m m')
    ({ revisions := ![0, 0] } : SharingManager 2) evenSolvers := by
  have hend : (Runs.run (step 2) ({ revisions := ![0, 0] } : SharingManager 2) evenSolvers).toOption.map
      (fun m => (m.imports.length, m.futureClauses.length)) = some (8, 2) := by decide +kernel
  obtain ⟨m, hrun, -⟩ := Runs.exists_of_toOption hend
  exact (imported_once_iff 2 2 ![0, 0] evenSolvers m hrun).mpr (by decide +kernel)

/-- The first solver gets the first clauses at the second and again at the third call. -/
theorem not_always_imported_once : ∃ m,
    Runs.run (step 2) ({ revisions := ![0, 0] } : SharingManager 2) slowSolver = .ok m ∧ numImports 0 0 m.imports = 2 ∧ ¬ Right m := by
  have hend : (Runs.run (step 2) ({ revisions := ![0, 0] } : SharingManager 2) slowSolver).toOption.map
      (fun m => numImports 0 0 m.imports) = some 2 := by decide +kernel
  obtain ⟨m, hrun, hcount⟩ := Runs.exists_of_toOption hend
  refine ⟨m, hrun, hcount, fun hright => ?_⟩
  have hone := hright.atMostOnce 0 0
  omega

end Mallob.Sharing.DeferredClauses
