import Mallob.Runs
import Mallob.SolverThread

namespace Mallob.SolverThread

open Cnf VariableTranslator

abbrev Revision := List (List Int) × List Int

def encodeRevision (vt : VariableTranslator) (e : Nat) (revision : Revision) : List (List Int) :=
  revision.1.map (List.map vt.getTldLit) ++
    if revision.2 = [] then [] else conjunction e (revision.2.map vt.getTldLit)

def encoding (vt : VariableTranslator) (revisions : List Revision) : List (List Int) :=
  (revisions.zip vt.extraVariables).flatMap fun revision => encodeRevision vt revision.2 revision.1

def Bounded (maxVar : Nat) (revision : Revision) : Prop :=
  (∀ clause ∈ revision.1, ∀ lit ∈ clause, lit.natAbs ≤ maxVar) ∧ ∀ lit ∈ revision.2, lit.natAbs ≤ maxVar

def Proper (revision : Revision) : Prop := (∀ clause ∈ revision.1, 0 ∉ clause) ∧ 0 ∉ revision.2

def payload (revision : Revision) : List Int × List Int := (flat revision.1, revision.2)

theorem Bounded.mono {m n : Nat} {revision : Revision} (h : Bounded m revision) (hmn : m ≤ n) : Bounded n revision :=
  ⟨fun clause hclause lit hlit => (h.1 clause hclause lit hlit).trans hmn, fun lit hlit => (h.2 lit hlit).trans hmn⟩

section Reading

variable {setup : Setup} {r r' : Reader}

structure Reads (lits : List Int) (r r' : Reader) : Prop where
  vt : r'.vt = r.vt
  added : r'.added = r.added ++ lits.map r.vt.getTldLit
  condVar : r'.currentCondVarOrZero = r.currentCondVarOrZero
  grows : r.maxVar ≤ r'.maxVar
  bounds : ∀ lit ∈ lits, lit.natAbs ≤ r'.maxVar

theorem readLiteral_reads {lit : Int} (h : readLiteral r lit = .ok r') : Reads [lit] r r' := by
  rw [readLiteral] at h
  split at h
  · cases h
  · split at h
    · cases h
    · obtain rfl := Except.ok.inj h
      refine ⟨rfl, rfl, rfl, le_max_left _ _, ?_⟩
      intro lit' hlit'
      rw [List.mem_singleton.mp hlit']
      exact le_max_right _ _

theorem Reads.append {lits lits' : List Int} {r'' : Reader} (h : Reads lits r r') (h' : Reads lits' r' r'') :
    Reads (lits ++ lits') r r'' := by
  refine ⟨h'.vt.trans h.vt, ?_, h'.condVar.trans h.condVar, h.grows.trans h'.grows, ?_⟩
  · rw [h'.added, h.added, h.vt, List.map_append, List.append_assoc]
  · intro lit hlit
    rcases List.mem_append.mp hlit with hleft | hright
    · exact (h.bounds lit hleft).trans h'.grows
    · exact h'.bounds lit hright

theorem foldlM_readLiteral_reads {lits : List Int} (h : lits.foldlM readLiteral r = .ok r') : Reads lits r r' := by
  induction lits generalizing r with
  | nil =>
      obtain rfl := Except.ok.inj h
      exact ⟨rfl, (List.append_nil _).symm, rfl, le_refl _, List.forall_mem_nil _⟩
  | cons lit lits ih =>
      rw [List.foldlM_cons] at h
      cases hfirst : readLiteral r lit with
      | error e => rw [hfirst] at h; cases h
      | ok r₁ =>
          rw [hfirst] at h
          exact (readLiteral_reads hfirst).append (ih h)

theorem le_foldl_max (aLits : List Int) (m : Nat) : m ≤ aLits.foldl (fun maxVar aLit => max maxVar aLit.natAbs) m ∧
    ∀ lit ∈ aLits, lit.natAbs ≤ aLits.foldl (fun maxVar aLit => max maxVar aLit.natAbs) m := by
  induction aLits generalizing m with
  | nil => exact ⟨le_refl m, List.forall_mem_nil _⟩
  | cons aLit aLits ih =>
      obtain ⟨hle, hall⟩ := ih (max m aLit.natAbs)
      refine ⟨(le_max_left _ _).trans hle, ?_⟩
      intro lit hlit
      rcases List.mem_cons.mp hlit with rfl | hrest
      · exact (le_max_right _ _).trans hle
      · exact hall lit hrest

theorem equivalence_eq_flat (vt : VariableTranslator) (e : Nat) (aLits : List Int) :
    equivalence vt e aLits = flat (conjunction e (aLits.map vt.getTldLit)) := by
  simp [equivalence, conjunction, flat, List.flatMap_map, Function.comp_def]

theorem encodeRevision_congr {vt vt' : VariableTranslator} {m e : Nat} {revision : Revision} (h : Bounded m revision)
    (hsame : ∀ x : Int, x.natAbs ≤ m → vt'.getTldLit x = vt.getTldLit x) :
    encodeRevision vt' e revision = encodeRevision vt e revision := by
  have hformula : revision.1.map (List.map vt'.getTldLit) = revision.1.map (List.map vt.getTldLit) :=
    List.map_congr_left fun clause hclause => List.map_congr_left fun lit hlit => hsame lit (h.1 clause hclause lit hlit)
  have hassumptions : revision.2.map vt'.getTldLit = revision.2.map vt.getTldLit :=
    List.map_congr_left fun lit hlit => hsame lit (h.2 lit hlit)
  rw [encodeRevision, encodeRevision, hformula, hassumptions]

/-- Translations of variables up to the maximum stay, so that the encoding of the
revisions before only gets longer. -/
theorem encoding_append {vt : VariableTranslator} (hvalid : Valid vt) {m : Nat} {revisions : List Revision}
    (hlength : vt.extraVariables.length = revisions.length) (hbounded : ∀ revision ∈ revisions, Bounded m revision)
    (revision : Revision) {e : Nat} (he : (vt.addExtraVariable m).extraVariables = vt.extraVariables ++ [e]) :
    encoding (vt.addExtraVariable m) (revisions ++ [revision]) =
      encoding vt revisions ++ encodeRevision (vt.addExtraVariable m) e revision := by
  have hzip : (revisions ++ [revision]).zip (vt.extraVariables ++ [e]) =
      revisions.zip vt.extraVariables ++ [(revision, e)] := List.zip_append hlength.symm
  have hold : (revisions.zip vt.extraVariables).flatMap
      (fun revision => encodeRevision (vt.addExtraVariable m) revision.2 revision.1) = encoding vt revisions := by
    rw [encoding, List.flatMap, List.flatMap]
    congr 1
    refine List.map_congr_left ?_
    rintro ⟨revision', e'⟩ hmem
    exact encodeRevision_congr (hbounded revision' (List.of_mem_zip hmem).1) fun x hx => hvalid.getTldLit_add m hx
  rw [encoding, he, hzip, List.flatMap_append, hold, List.flatMap_singleton]

structure Encoded (setup : Setup) (revisions : List Revision) (r : Reader) : Prop where
  valid : Valid r.vt
  extra : r.vt.extraVariables.length = revisions.length
  bounded : ∀ revision ∈ revisions, Bounded r.maxVar revision
  added : r.added = flat (encoding r.vt revisions)
  condVar : (setup.exportsConditionalClauses || !setup.doIncrementalSolving) = true →
    ∀ revision e, revisions.getLast? = some revision → r.vt.extraVariables.getLast? = some e →
      r.currentCondVarOrZero = if revision.2 = [] then 0 else e

theorem encoded_start (setup : Setup) : Encoded setup [] {} :=
  ⟨valid_create, rfl, List.forall_mem_nil _, rfl, fun _ revision e h => by cases h⟩

/-- Closing a revision for the first time introduces its variable, above all
variables so far. -/
theorem closeRevision_introduces (hpseudo : setup.hasPseudoincrementalSolvers = true) {activeRevision : Nat}
    (hopen : r.vt.extraVariables.length ≤ activeRevision) (hvalid : Valid r.vt) (aLits : List Int)
    (hclose : closeRevision setup r activeRevision aLits = r') :
    ∃ e : Nat, (r.vt.addExtraVariable r'.maxVar).extraVariables = r.vt.extraVariables ++ [e] ∧
      r.maxVar ≤ r'.maxVar ∧ (∀ lit ∈ aLits, lit.natAbs ≤ r'.maxVar) ∧ r'.vt = r.vt.addExtraVariable r'.maxVar ∧
      r'.added = r.added ++ flat (if aLits = [] then [] else conjunction e (aLits.map r'.vt.getTldLit)) ∧
      ((setup.exportsConditionalClauses || !setup.doIncrementalSolving) = true →
        r'.currentCondVarOrZero = if aLits = [] then 0 else e) := by
  obtain ⟨hgrows, hbounds⟩ := le_foldl_max aLits r.maxVar
  rw [closeRevision] at hclose
  generalize aLits.foldl (fun maxVar aLit => max maxVar aLit.natAbs) r.maxVar = m at hgrows hbounds hclose
  obtain ⟨e, he, -, -⟩ := hvalid.extraVariables_add m
  have hlast : (r.vt.addExtraVariable m).extraVariables.getLast?.getD 0 = e := by
    rw [he, List.getLast?_concat, Option.getD_some]
  simp only [hpseudo, Bool.true_and, ge_iff_le, hopen, decide_true, if_true, introduceExtraVariable, hlast] at hclose
  subst hclose
  refine ⟨e, he, hgrows, hbounds, rfl, ?_, ?_⟩
  · cases aLits with
    | nil => exact (List.append_nil _).symm
    | cons aLit aLits => simp [equivalence_eq_flat]
  · intro hsets
    cases aLits with
    | nil => simp [hsets]
    | cons aLit aLits => simp [hsets]

theorem Encoded.readRevision (hpseudo : setup.hasPseudoincrementalSolvers = true) {revisions : List Revision}
    (h : Encoded setup revisions r) (revision : Revision)
    (hread : readRevision setup r revisions.length (flat revision.1) revision.2 = .ok r') :
    Encoded setup (revisions ++ [revision]) r' := by
  rw [SolverThread.readRevision] at hread
  cases hlits : (flat revision.1).foldlM readLiteral r with
  | error e => rw [hlits] at hread; cases hread
  | ok r₁ =>
      rw [hlits] at hread
      have hreads := foldlM_readLiteral_reads hlits
      obtain ⟨e, he, hgrows, hbounds, hvt, hadded, hcond⟩ := closeRevision_introduces hpseudo
        (by rw [hreads.vt, h.extra]) (hreads.vt ▸ h.valid) revision.2 (Except.ok.inj hread)
      rw [hreads.vt] at he hvt
      have hbounded : Bounded r'.maxVar revision := by
        refine ⟨?_, hbounds⟩
        intro clause hclause lit hlit
        refine (hreads.bounds lit ?_).trans hgrows
        exact List.mem_flatMap.mpr ⟨clause, hclause, List.mem_append_left _ hlit⟩
      have hbounded' : ∀ revision' ∈ revisions, Bounded r'.maxVar revision' :=
        fun revision' hmem => (h.bounded revision' hmem).mono (hreads.grows.trans hgrows)
      have hsame : ∀ x : Int, x.natAbs ≤ r'.maxVar → r'.vt.getTldLit x = r.vt.getTldLit x := by
        intro x hx
        rw [hvt]
        exact h.valid.getTldLit_add _ hx
      have hvalid : Valid r'.vt := hvt ▸ h.valid.addExtraVariable _
      refine ⟨hvalid, ?_, ?_, ?_, ?_⟩
      · rw [hvt, he, List.length_append, List.length_append, h.extra]
        rfl
      · intro revision' hmem
        rcases List.mem_append.mp hmem with hold | hnew
        · exact hbounded' revision' hold
        · rw [List.mem_singleton.mp hnew]
          exact hbounded
      · have hformula : revision.1.map (List.map r.vt.getTldLit) = revision.1.map (List.map r'.vt.getTldLit) :=
          List.map_congr_left fun clause hclause => List.map_congr_left fun lit hlit =>
            (hsame lit (hbounded.1 clause hclause lit hlit)).symm
        have hencoding := encoding_append h.valid h.extra hbounded' revision he
        rw [← hvt] at hencoding
        rw [hencoding, flat_append, encodeRevision, flat_append, ← List.append_assoc, hadded, hreads.added, h.added,
          ← hformula, flat_map_map _ h.valid.getTldLit_zero]
      · intro hsets revision' e' hrevision he'
        rw [List.getLast?_concat] at hrevision
        rw [hvt, he, List.getLast?_concat] at he'
        obtain rfl := Option.some.inj hrevision
        obtain rfl := Option.some.inj he'
        exact hcond hsets

theorem readRevisions_concat {revisions : List (List Int × List Int)} {revision : List Int × List Int} :
    readRevisions setup (revisions ++ [revision]) = .ok r ↔ ∃ r₁, readRevisions setup revisions = .ok r₁ ∧
      SolverThread.readRevision setup r₁ revisions.length revision.1 revision.2 = .ok r := by
  simp only [readRevisions, List.zipIdx_append, List.foldlM_append, Nat.zero_add]
  cases List.foldlM (fun r revision => SolverThread.readRevision setup r revision.2 revision.1.1 revision.1.2) {}
      revisions.zipIdx with
  | error e => simp [bind, Except.bind]
  | ok r₁ =>
      cases hlast : SolverThread.readRevision setup r₁ revisions.length revision.1 revision.2 with
      | error e => simp [bind, Except.bind, hlast]
      | ok r₂ => simp [bind, Except.bind, pure, Except.pure, hlast]

theorem encoded_of_readRevisions (hpseudo : setup.hasPseudoincrementalSolvers = true) {revisions : List Revision}
    (hread : readRevisions setup (revisions.map payload) = .ok r) : Encoded setup revisions r := by
  induction revisions using List.reverseRecOn generalizing r with
  | nil =>
      obtain rfl := Except.ok.inj hread
      exact encoded_start setup
  | append_singleton revisions revision ih =>
      rw [List.map_append] at hread
      obtain ⟨r₁, hfirst, hlast⟩ := readRevisions_concat.mp hread
      rw [List.length_map] at hlast
      exact (ih hfirst).readRevision hpseudo revision hlast

/-- The literals that the solver gets lie above the variables of the formula by no more than there are extra
variables. -/
structure Fits (maxVar : Nat) (r : Reader) : Prop where
  ranged : Ranged maxVar r.vt
  read : r.maxVar ≤ maxVar
  added : ∀ lit ∈ r.added, lit.natAbs ≤ maxVar + r.vt.extraVariables.length

theorem Fits.readLiteral {maxVar : Nat} (hmax : maxLiteral ≤ maxVar) {lit : Int} (h : Fits maxVar r)
    (hread : SolverThread.readLiteral r lit = .ok r') : Fits maxVar r' := by
  rw [SolverThread.readLiteral] at hread
  split at hread
  · cases hread
  · next hlit =>
      split at hread
      · cases hread
      · obtain rfl := Except.ok.inj hread
        have hle : lit.natAbs ≤ maxVar := (not_lt.mp hlit).trans hmax
        refine ⟨h.ranged, max_le h.read hle, ?_⟩
        intro lit' hlit'
        rcases List.mem_append.mp hlit' with hold | hnew
        · exact h.added lit' hold
        · rw [List.mem_singleton.mp hnew]
          exact h.ranged.natAbs_getTldLit_le hle

theorem Fits.readLiterals {maxVar : Nat} (hmax : maxLiteral ≤ maxVar) {lits : List Int} (h : Fits maxVar r)
    (hread : lits.foldlM SolverThread.readLiteral r = .ok r') : Fits maxVar r' := by
  induction lits generalizing r with
  | nil =>
      obtain rfl := Except.ok.inj hread
      exact h
  | cons lit lits ih =>
      rw [List.foldlM_cons] at hread
      obtain ⟨r₁, hfirst, hrest⟩ := Runs.exists_of_bind_eq_ok hread
      exact ih (h.readLiteral hmax hfirst) hrest

theorem foldl_max_le {aLits : List Int} {m maxVar : Nat} (hm : m ≤ maxVar)
    (haLits : ∀ aLit ∈ aLits, aLit.natAbs ≤ maxVar) :
    aLits.foldl (fun maxVar aLit => max maxVar aLit.natAbs) m ≤ maxVar := by
  induction aLits generalizing m with
  | nil => exact hm
  | cons aLit aLits ih =>
      obtain ⟨hfirst, hrest⟩ := List.forall_mem_cons.mp haLits
      exact ih (max_le hm hfirst) hrest

theorem natAbs_equivalence_le {vt : VariableTranslator} {maxVar e : Nat} (h : Ranged maxVar vt)
    (he : e ≤ maxVar + vt.extraVariables.length) {aLits : List Int} (haLits : ∀ aLit ∈ aLits, aLit.natAbs ≤ maxVar) :
    ∀ lit ∈ equivalence vt e aLits, lit.natAbs ≤ maxVar + vt.extraVariables.length := by
  have htld : ∀ aLit ∈ aLits, (vt.getTldLit aLit).natAbs ≤ maxVar + vt.extraVariables.length :=
    fun aLit haLit => h.natAbs_getTldLit_le (haLits aLit haLit)
  intro lit hlit
  simp only [equivalence, List.mem_append, List.mem_map, List.mem_flatMap, List.mem_cons, List.not_mem_nil,
    or_false] at hlit
  rcases hlit with (⟨aLit, haLit, rfl⟩ | rfl | rfl) | ⟨aLit, haLit, rfl | rfl | rfl⟩
  · rw [Int.natAbs_neg]
    exact htld aLit haLit
  · rwa [Int.natAbs_natCast]
  · exact Nat.zero_le _
  · rwa [Int.natAbs_neg, Int.natAbs_natCast]
  · exact htld aLit haLit
  · exact Nat.zero_le _

theorem Fits.introduceExtraVariable {maxVar : Nat} (h : Fits maxVar r) (setup : Setup) {aLits : List Int}
    (haLits : ∀ aLit ∈ aLits, aLit.natAbs ≤ maxVar) : Fits maxVar (introduceExtraVariable setup r aLits) := by
  have hranged := h.ranged.addExtraVariable h.read
  have hlength := length_addExtraVariable r.vt r.maxVar
  have hadded : ∀ lit ∈ r.added, lit.natAbs ≤ maxVar + (r.vt.addExtraVariable r.maxVar).extraVariables.length := by
    intro lit hlit
    have := h.added lit hlit
    omega
  refine ⟨hranged, h.read, ?_⟩
  have hlast : (r.vt.addExtraVariable r.maxVar).extraVariables.getLast?.getD 0 ≤
      maxVar + (r.vt.addExtraVariable r.maxVar).extraVariables.length := by
    cases hlast : (r.vt.addExtraVariable r.maxVar).extraVariables.getLast? with
    | none => exact Nat.zero_le _
    | some last => exact hranged.extra last (List.mem_of_getLast? hlast)
  intro lit hlit
  simp only [SolverThread.introduceExtraVariable] at hlit ⊢
  split at hlit
  · rcases List.mem_append.mp hlit with hold | hnew
    · exact hadded lit hold
    · exact natAbs_equivalence_le hranged hlast haLits lit hnew
  · exact hadded lit hlit

theorem Fits.closeRevision {maxVar : Nat} (h : Fits maxVar r) (setup : Setup) (activeRevision : Nat)
    {aLits : List Int} (haLits : ∀ aLit ∈ aLits, aLit.natAbs ≤ maxVar) :
    Fits maxVar (closeRevision setup r activeRevision aLits) ∧
      (closeRevision setup r activeRevision aLits).vt.extraVariables.length ≤ r.vt.extraVariables.length + 1 := by
  have hread : Fits maxVar { r with maxVar := aLits.foldl (fun maxVar aLit => max maxVar aLit.natAbs) r.maxVar } :=
    ⟨h.ranged, foldl_max_le h.read haLits, h.added⟩
  rw [SolverThread.closeRevision]
  split
  · obtain ⟨hranged, hmaxVar, hadded⟩ := hread.introduceExtraVariable setup haLits
    exact ⟨⟨hranged, hmaxVar, hadded⟩, (length_addExtraVariable _ _).le⟩
  · exact ⟨⟨hread.ranged, hread.read, hread.added⟩, Nat.le_succ _⟩

theorem fits_of_readRevisions {maxVar : Nat} (hmax : maxLiteral ≤ maxVar) {revisions : List (List Int × List Int)}
    (hassumed : ∀ revision ∈ revisions, ∀ aLit ∈ revision.2, aLit.natAbs ≤ maxVar)
    (hread : readRevisions setup revisions = .ok r) :
    Fits maxVar r ∧ r.vt.extraVariables.length ≤ revisions.length := by
  induction revisions using List.reverseRecOn generalizing r with
  | nil =>
      obtain rfl := Except.ok.inj hread
      exact ⟨⟨ranged_create maxVar, Nat.zero_le _, List.forall_mem_nil _⟩, le_rfl⟩
  | append_singleton revisions revision ih =>
      obtain ⟨hfirst, hlast⟩ := List.forall_mem_append.mp hassumed
      obtain ⟨r₁, hread₁, hread⟩ := readRevisions_concat.mp hread
      obtain ⟨hfits, hlength⟩ := ih hfirst hread₁
      obtain ⟨r₂, hlits, rfl⟩ := Runs.exists_of_map_eq_ok hread
      have hvt := (foldlM_readLiteral_reads hlits).vt
      obtain ⟨hclosed, hgrown⟩ := (hfits.readLiterals hmax hlits).closeRevision setup revisions.length
        (List.forall_mem_singleton.mp hlast)
      rw [hvt] at hgrown
      rw [List.length_append, List.length_singleton]
      exact ⟨hclosed, hgrown.trans (Nat.add_le_add_right hlength 1)⟩

/-- The literals of the clauses are checked when they are read. Where the assumption literals, which are not, leave room
for the extra variables, each literal that the solver gets fits into an int. -/
theorem added_fits {maxVar : Nat} (hmax : maxLiteral ≤ maxVar) {revisions : List (List Int × List Int)}
    (hassumed : ∀ revision ∈ revisions, ∀ aLit ∈ revision.2, aLit.natAbs ≤ maxVar)
    (hroom : maxVar + revisions.length < 2 ^ 31) (hread : readRevisions setup revisions = .ok r) :
    ∀ lit ∈ r.added, lit.natAbs < 2 ^ 31 := by
  obtain ⟨hfits, hlength⟩ := fits_of_readRevisions hmax hassumed hread
  intro lit hlit
  have := hfits.added lit hlit
  omega

end Reading

section Meaning

variable {vt : VariableTranslator} (h : Valid vt) {τ σ : Nat → Bool} {revisions : List Revision}

def Restricts (vt : VariableTranslator) (τ σ : Nat → Bool) : Prop :=
  ∀ lit, lit ≠ 0 → LitTrue τ lit → vt.getOrigLitOrZero lit ≠ 0 → LitTrue σ (vt.getOrigLitOrZero lit)

/-- An assignment of the original variables carried over to the solver's: each
extra variable gets the value of the assumptions it stands for. -/
def extend (vt : VariableTranslator) (revisions : List Revision) (σ : Nat → Bool) (v : Nat) : Bool :=
  match (revisions.zip vt.extraVariables).find? (fun revision => revision.2 = v) with
  | some revision => decide (∀ aLit ∈ revision.1.2, LitTrue σ aLit)
  | none => σ (vt.getOrigLitOrZero v).natAbs

include h

theorem litTrue_getTldLit (lit : Int) :
    LitTrue τ (vt.getTldLit lit) ↔ LitTrue (fun v => τ (vt.getTldLit v).natAbs) lit := by
  refine litTrue_rename (g := fun v => (vt.getTldLit v).natAbs) ?_ h.getTldLit_pos_iff
  rw [h.natAbs_getTldLit, h.natAbs_getTldLit, Int.natAbs_natCast]

theorem restricts_iff : Restricts vt τ σ ↔ ∀ v, 0 < v → σ v = τ (vt.getTldLit v).natAbs := by
  constructor
  · intro hrestricts v hv
    have hback : ∀ x : Int, x ≠ 0 → LitTrue τ (vt.getTldLit x) → LitTrue σ x := by
      intro x hx htrue
      have hne := (h.exists_getTldLit_iff.mp ⟨x, hx, rfl⟩).1
      have hσ := hrestricts _ hne htrue
      rw [h.getOrigLitOrZero_getTldLit] at hσ
      exact hσ hx
    have hpos : LitTrue τ (vt.getTldLit v) → LitTrue σ v := hback v (by omega)
    have hneg : LitTrue τ (vt.getTldLit (-v)) → LitTrue σ (-v) := hback (-v) (by omega)
    rw [litTrue_getTldLit h] at hpos hneg
    rw [litTrue_neg (by omega), litTrue_neg (by omega)] at hneg
    simp only [LitTrue, Int.natAbs_natCast, Int.natCast_pos, hv, decide_true] at hpos hneg
    cases hτ : τ (vt.getTldLit v).natAbs with
    | true => exact hpos hτ
    | false => exact Bool.eq_false_of_not_eq_true (hneg (by simp [hτ]))
  · intro hagree lit hne htrue horig
    have hextra : lit.natAbs ∉ vt.extraVariables := fun hmem => horig (h.getOrigLitOrZero_extra hmem)
    rw [← h.getTldLit_getOrigLitOrZero hextra, litTrue_getTldLit h] at htrue
    rw [LitTrue, hagree _ (by omega)]
    exact htrue

theorem extend_extra {revision : Revision} {e : Nat} (hmem : (revision, e) ∈ revisions.zip vt.extraVariables) :
    extend vt revisions σ e = decide (∀ aLit ∈ revision.2, LitTrue σ aLit) := by
  have hfind : ∃ revision', (revisions.zip vt.extraVariables).find? (fun revision => revision.2 = e) =
      some (revision', e) := by
    cases hfind : (revisions.zip vt.extraVariables).find? (fun revision => revision.2 = e) with
    | none => exact absurd (decide_eq_true rfl) (List.find?_eq_none.mp hfind (revision, e) hmem)
    | some found =>
        have heq : found.2 = e := by simpa using List.find?_some hfind
        exact ⟨found.1, by rw [← heq]⟩
  obtain ⟨revision', hfind⟩ := hfind
  have hsame : revision' = revision := by
    have hmem' := List.mem_of_find?_eq_some hfind
    obtain ⟨i, hi, hiEq⟩ := List.mem_iff_getElem.mp hmem
    obtain ⟨j, hj, hjEq⟩ := List.mem_iff_getElem.mp hmem'
    rw [List.getElem_zip] at hiEq hjEq
    have hnodup : vt.extraVariables.Nodup := h.sorted.imp Nat.ne_of_lt
    have hij : i = j := hnodup.getElem_inj_iff.mp ((Prod.ext_iff.mp hiEq).2.trans (Prod.ext_iff.mp hjEq).2.symm)
    subst hij
    exact (Prod.ext_iff.mp hjEq).1.symm.trans (Prod.ext_iff.mp hiEq).1
  rw [extend, hfind, hsame]

theorem extend_getTldLit {v : Nat} (hv : 0 < v) : extend vt revisions σ (vt.getTldLit v).natAbs = σ v := by
  have hnot : (vt.getTldLit v).natAbs ∉ vt.extraVariables :=
    (h.exists_getTldLit_iff.mp ⟨(v : Int), by omega, rfl⟩).2
  have hfind : (revisions.zip vt.extraVariables).find? (fun revision => revision.2 = (vt.getTldLit v).natAbs) = none := by
    rw [List.find?_eq_none]
    rintro ⟨revision, e⟩ hmem heq
    exact hnot ((of_decide_eq_true heq) ▸ (List.of_mem_zip hmem).2)
  have hpos : 0 < vt.getTldLit v := h.getTldLit_pos_iff.mpr (by omega)
  rw [extend, hfind, Int.natAbs_of_nonneg hpos.le, h.getOrigLitOrZero_getTldLit, Int.natAbs_natCast]

theorem litTrue_extend {lit : Int} (hlit : lit ≠ 0) :
    LitTrue (extend vt revisions σ) (vt.getTldLit lit) ↔ LitTrue σ lit := by
  rw [litTrue_getTldLit h, LitTrue, LitTrue, extend_getTldLit h (by omega)]

omit h in
theorem satisfies_encoding : Satisfies τ (encoding vt revisions) ↔
    ∀ revision ∈ revisions.zip vt.extraVariables, Satisfies τ (encodeRevision vt revision.2 revision.1) := by
  simp only [Satisfies, encoding, List.mem_flatMap]
  constructor
  · intro hall revision hmem clause hclause
    exact hall clause ⟨revision, hmem, hclause⟩
  · rintro hall clause ⟨revision, hmem, hclause⟩
    exact hall revision hmem clause hclause

omit h in
/-- A translated formula says of one assignment what the formula says of the
other. -/
theorem satisfies_translated {formula : List (List Int)} (hproper : ∀ clause ∈ formula, 0 ∉ clause)
    (hagree : ∀ lit, lit ≠ 0 → (LitTrue τ (vt.getTldLit lit) ↔ LitTrue σ lit)) :
    Satisfies τ (formula.map (List.map vt.getTldLit)) ↔ Satisfies σ formula := by
  rw [Satisfies, List.forall_mem_map]
  refine forall₂_congr fun clause hclause => ?_
  simp only [ClauseTrue, List.mem_map, exists_exists_and_eq_and]
  refine exists_congr fun lit => and_congr_right fun hlit => hagree lit ?_
  intro hzero
  exact hproper clause hclause (hzero ▸ hlit)

theorem zero_not_mem_map {lits : List Int} (hlits : 0 ∉ lits) : 0 ∉ lits.map vt.getTldLit := by
  rintro hmem
  obtain ⟨lit, hlit, hzero⟩ := List.mem_map.mp hmem
  exact (h.exists_getTldLit_iff.mp ⟨lit, fun hlit' => hlits (hlit' ▸ hlit), rfl⟩).1 hzero

theorem satisfies_extend (hproper : ∀ revision ∈ revisions, Proper revision)
    (hσ : ∀ revision ∈ revisions, Satisfies σ revision.1) :
    Satisfies (extend vt revisions σ) (encoding vt revisions) := by
  rw [satisfies_encoding]
  rintro ⟨revision, e⟩ hmem
  have hrevision := (List.of_mem_zip hmem).1
  have hagree : ∀ lit, lit ≠ 0 → (LitTrue (extend vt revisions σ) (vt.getTldLit lit) ↔ LitTrue σ lit) :=
    fun lit hlit => litTrue_extend h hlit
  refine satisfies_append.mpr ⟨(satisfies_translated (hproper revision hrevision).1 hagree).mpr (hσ revision hrevision), ?_⟩
  split
  · exact List.forall_mem_nil _
  · have he := h.positive e (List.of_mem_zip hmem).2
    rw [satisfies_conjunction (by omega) (zero_not_mem_map h (hproper revision hrevision).2), LitTrue, Int.natAbs_natCast,
      extend_extra h hmem, List.forall_mem_map, decide_eq_true (show (0 : Int) < e by omega), decide_eq_true_iff]
    refine forall₂_congr fun aLit haLit => (hagree aLit ?_).symm
    intro hzero
    exact (hproper revision hrevision).2 (hzero ▸ haLit)

theorem satisfies_restricted (hlength : vt.extraVariables.length = revisions.length)
    (hproper : ∀ revision ∈ revisions, Proper revision) (hτ : Satisfies τ (encoding vt revisions))
    (hrestricts : Restricts vt τ σ) : ∀ revision ∈ revisions, Satisfies σ revision.1 := by
  intro revision hrevision
  obtain ⟨i, hi, rfl⟩ := List.mem_iff_getElem.mp hrevision
  have hmem : (revisions[i], vt.extraVariables[i]) ∈ revisions.zip vt.extraVariables := by
    rw [List.mem_iff_getElem]
    exact ⟨i, by rw [List.length_zip]; omega, List.getElem_zip⟩
  have hencoded := (satisfies_append.mp (satisfies_encoding.mp hτ _ hmem)).1
  refine (satisfies_translated (hproper _ hrevision).1 ?_).mp hencoded
  intro lit hlit
  rw [litTrue_getTldLit h, LitTrue, LitTrue, (restricts_iff h).mp hrestricts _ (by omega)]

end Meaning

theorem zero_not_mem_encoding {vt : VariableTranslator} (h : Valid vt) {revisions : List Revision}
    (hproper : ∀ revision ∈ revisions, Proper revision) : ∀ clause ∈ encoding vt revisions, 0 ∉ clause := by
  intro clause hclause
  obtain ⟨⟨revision, e⟩, hmem, hclause⟩ := List.mem_flatMap.mp hclause
  obtain ⟨hformula, hassumptions⟩ := hproper revision (List.of_mem_zip hmem).1
  have he := h.positive e (List.of_mem_zip hmem).2
  have hzero := zero_not_mem_map h hassumptions
  rcases List.mem_append.mp hclause with hclause | hclause
  · obtain ⟨clause', hclause', rfl⟩ := List.mem_map.mp hclause
    exact zero_not_mem_map h (hformula clause' hclause')
  · split at hclause
    · cases hclause
    · rcases List.mem_cons.mp hclause with rfl | hclause
      · rw [List.mem_append, not_or]
        refine ⟨?_, by simp; omega⟩
        intro hmem
        obtain ⟨lit, hlit, hneg⟩ := List.mem_map.mp hmem
        exact hzero ((neg_eq_zero.mp hneg) ▸ hlit)
      · obtain ⟨lit, hlit, rfl⟩ := List.mem_map.mp hclause
        have hne : lit ≠ 0 := fun heq => hzero (heq ▸ hlit)
        simp only [List.mem_cons, List.not_mem_nil, or_false, not_or]
        omega

theorem mem_zip_getLast {vt : VariableTranslator} {revisions : List Revision}
    (hlength : vt.extraVariables.length = revisions.length) {revision : Revision} {e : Nat}
    (hrevision : revisions.getLast? = some revision) (he : vt.extraVariables.getLast? = some e) :
    (revision, e) ∈ revisions.zip vt.extraVariables := by
  obtain ⟨revisions', rfl⟩ := List.getLast?_eq_some_iff.mp hrevision
  obtain ⟨extra, hextra⟩ := List.getLast?_eq_some_iff.mp he
  rw [hextra] at hlength ⊢
  rw [List.length_append, List.length_append, List.length_singleton, List.length_singleton, Nat.add_right_cancel_iff]
    at hlength
  rw [List.zip_append hlength.symm]
  exact List.mem_append_right _ List.mem_cons_self

/-- Pseudo-incremental solving keeps the meaning of the revisions read: no extra
variable is one of theirs, their models are those of the solver's clauses, and a
clause learnt under the last assumptions is exported in a form that follows
without them. -/
theorem encoding_preserves_meaning {setup : Setup} (hpseudo : setup.hasPseudoincrementalSolvers = true)
    {revisions : List Revision} (hproper : ∀ revision ∈ revisions, Proper revision) {r : Reader}
    (hread : readRevisions setup (revisions.map payload) = .ok r) :
    clausesOf [] r.added = encoding r.vt revisions ∧ r.vt.extraVariables.length = revisions.length ∧
    (∀ revision ∈ revisions, ∀ lit ∈ revision.1.flatten ++ revision.2,
      (r.vt.getTldLit lit).natAbs ∉ r.vt.extraVariables) ∧
    (∀ σ, (∀ revision ∈ revisions, Satisfies σ revision.1) →
      ∃ τ, (∀ v, 0 < v → τ (r.vt.getTldLit v).natAbs = σ v) ∧ Satisfies τ (clausesOf [] r.added)) ∧
    (∀ τ, Satisfies τ (clausesOf [] r.added) → (∃ σ, Restricts r.vt τ σ) ∧
      ∀ σ, Restricts r.vt τ σ → ∀ revision ∈ revisions, Satisfies σ revision.1) ∧
    ∀ revision e, revisions.getLast? = some revision → r.vt.extraVariables.getLast? = some e → ∀ clause,
      Entails (clausesOf [] r.added ++ units (revision.2.map r.vt.getTldLit)) clause →
      Entails (clausesOf [] r.added) (processClause (if revision.2 = [] then 0 else e) clause) ∧
      ((setup.exportsConditionalClauses || !setup.doIncrementalSolving) = true →
        r.currentCondVarOrZero = if revision.2 = [] then 0 else e) := by
  have henc := encoded_of_readRevisions hpseudo hread
  have h := henc.valid
  have hclauses : clausesOf [] r.added = encoding r.vt revisions := by
    rw [henc.added, clausesOf_flat (zero_not_mem_encoding h hproper)]
  rw [hclauses]
  refine ⟨rfl, henc.extra, ?_, ?_, ?_, ?_⟩
  · intro revision hmem lit hlit
    refine (h.exists_getTldLit_iff.mp ⟨lit, ?_, rfl⟩).2
    rintro rfl
    rcases List.mem_append.mp hlit with hformula | hassumption
    · obtain ⟨clause, hclause, hzero⟩ := List.mem_flatten.mp hformula
      exact (hproper revision hmem).1 clause hclause hzero
    · exact (hproper revision hmem).2 hassumption
  · intro σ hσ
    exact ⟨extend r.vt revisions σ, fun v hv => extend_getTldLit h hv, satisfies_extend h hproper hσ⟩
  · intro τ hτ
    refine ⟨⟨fun v => τ (r.vt.getTldLit v).natAbs, (restricts_iff h).mpr fun v hv => rfl⟩, ?_⟩
    intro σ hrestricts
    exact satisfies_restricted h henc.extra hproper hτ hrestricts
  · intro revision e hrevision he clause hentails
    refine ⟨?_, fun hsets => henc.condVar hsets revision e hrevision he⟩
    by_cases hassumptions : revision.2 = []
    · rw [if_pos hassumptions, processClause, if_neg (by simp)]
      rw [hassumptions] at hentails
      simpa [units] using hentails
    · have hpos := h.positive e (List.mem_of_getLast? he)
      rw [if_neg hassumptions, processClause, if_pos (by omega)]
      refine entails_guarded (by omega) (zero_not_mem_map h (hproper revision (List.mem_of_getLast? hrevision)).2) ?_ hentails
      intro clause' hclause'
      refine List.mem_flatMap.mpr ⟨(revision, e), mem_zip_getLast henc.extra hrevision he, ?_⟩
      rw [encodeRevision, if_neg hassumptions]
      exact List.mem_append_right _ hclause'

def pseudoincrementalSetup : Setup where
  doIncrementalSolving := false
  hasPseudoincrementalSolvers := true
  supportsIncrementalSat := false
  exportsConditionalClauses := false
  incremental := by decide

theorem encoding_preserves_meaning_two_revisions : ∃ r,
    readRevisions pseudoincrementalSetup ([([[1, -2]], [2]), ([[3]], [])].map payload) = .ok r ∧
    clausesOf [] r.added = [[1, -2], [-2, 3], [-3, 2], [4]] ∧ r.vt.extraVariables = [3, 5] ∧
    ∀ τ, Satisfies τ (clausesOf [] r.added) → ∃ σ, Restricts r.vt τ σ := by
  have hproper : ∀ revision ∈ [([[1, -2]], [2]), ([[3]], [])], Proper revision := by
    simp [Proper]
  refine ⟨_, rfl, by decide, by decide, ?_⟩
  obtain ⟨-, -, -, -, hmodels, -⟩ := encoding_preserves_meaning rfl hproper (Eq.refl (readRevisions pseudoincrementalSetup _))
  intro τ hτ
  exact (hmodels τ hτ).1

end Mallob.SolverThread
