import Mallob.RevisionEncoding
import Mallob.Runs

namespace Mallob.SolverThread

open Cnf VariableTranslator Runs

abbrev Arranged : List Int → List Int → Prop := Relation.ReflTransGen Shuffled

def unitCopies (n : Nat) (lits : List Int) : List Int := (List.replicate n (flat (units lits))).flatten

/-- A call of the solver that belongs to a revision: the solver has been given
all revisions up to this one, in order, and its assumptions as such or, if it does
not know assumptions, as units. -/
def Answers (setup : Setup) (appended : List (List Int × List Int)) (revision : Nat) (call : SolveCall) : Prop :=
  let tldAssumptions (reader : Reader) := ((appended.map Prod.snd).getD revision []).map reader.vt.getTldLit
  ∃ formulae reader n, revision < appended.length ∧
    List.Forall₂ Arranged ((appended.map Prod.fst).take (revision + 1)) formulae ∧
    readRevisions setup (formulae.zip ((appended.map Prod.snd).take (revision + 1))) = .ok reader ∧
    call.added = reader.added ++ unitCopies n (tldAssumptions reader) ∧
    if setup.supportsIncrementalSat then n = 0 ∧ call.assumptions = tldAssumptions reader
    else 0 < n ∧ call.assumptions = []

def State.revisions (s : State) (k : Nat) : List (List Int × List Int) :=
  (s.pendingFormulae.take k).zip (s.pendingAssumptions.take k)

def State.tldAssumptions (s : State) : List Int :=
  (s.pendingAssumptions.getD s.activeRevision []).map s.reader.vt.getTldLit

def Open (s : State) : Prop := ∃ base fLits, readRevisions s.setup (s.revisions s.activeRevision) = .ok base ∧
  s.pendingFormulae[s.activeRevision]? = some fLits ∧ s.importedLitsCurrRevision ≤ fLits.length ∧
  (fLits.take s.importedLitsCurrRevision).foldlM readLiteral base = .ok s.reader

def ClosedWith (s : State) (extra : List Int) : Prop :=
  ∃ reader fLits, readRevisions s.setup (s.revisions (s.activeRevision + 1)) = .ok reader ∧
    s.pendingFormulae[s.activeRevision]? = some fLits ∧ s.importedLitsCurrRevision = fLits.length ∧
    s.reader = { reader with added := reader.added ++ extra }

def Closed (s : State) : Prop := ∃ n, ClosedWith s (unitCopies n s.tldAssumptions) ∧
  (n = 0 ∨ s.setup.supportsIncrementalSat = false) ∧
  (s.setup.supportsIncrementalSat = false → s.activeRevision = s.latestRevision)

def Fetched (s : State) (fLits aLits : List Int) : Prop :=
  s.pendingFormulae[s.activeRevision]? = some fLits ∧ s.pendingAssumptions[s.activeRevision]? = some aLits

def Located (appended : List (List Int × List Int)) (s : State) : Prop :=
  match s.location with
  | .unstarted => s.activeRevision = 0 ∧ s.importedLitsCurrRevision = 0 ∧ s.reader = {}
  | .waitWhileSolved | .waitWhileSuspended | .shuffle | .fetch => Open s ∨ Closed s
  | .read fLits aLits batchEnd => Open s ∧ Fetched s fLits aLits ∧ batchEnd ≤ fLits.length
  | .endOfBatch fLits aLits => Open s ∧ Fetched s fLits aLits
  | .close fLits aLits => (Open s ∨ Closed s) ∧ Fetched s fLits aLits
  | .runOnce => Closed s
  | .addUnits revision lits => ∃ n done, ClosedWith s (unitCopies n s.tldAssumptions ++ done) ∧
      done ++ lits = flat (units s.tldAssumptions) ∧ s.setup.supportsIncrementalSat = false ∧
      s.activeRevision = s.latestRevision ∧ revision = s.activeRevision
  | .solve revision aLits => revision = s.activeRevision ∧ ∃ n, ClosedWith s (unitCopies n s.tldAssumptions) ∧
      if s.setup.supportsIncrementalSat then n = 0 ∧ (s.latestRevision = s.activeRevision → aLits = s.tldAssumptions)
      else 0 < n ∧ s.activeRevision = s.latestRevision ∧ aLits = []
  | .uninterrupt _ revision call | .reportResult _ revision call | .storeResult _ revision call =>
      revision = s.activeRevision ∧ Closed s ∧ (s.latestRevision = revision → Answers s.setup appended revision call)
  | .exited => True

structure Sound (appended : List (List Int × List Int)) (s : State) : Prop where
  formulae : List.Forall₂ Arranged (appended.map Prod.fst) s.pendingFormulae
  assumptions : s.pendingAssumptions = appended.map Prod.snd
  latest : s.latestRevision + 1 = appended.length
  active : s.activeRevision ≤ s.latestRevision
  result : ∀ res, s.result = some res → Answers s.setup appended res.revision res.call
  located : Located appended s

/-- Revisions are appended in order, and to a running thread only if its solver
takes them up; a shuffle rearranges the literals of each clause. -/
def Permitted (s : State) : Call → Prop
  | .appendRevision revision _ _ => revision = s.latestRevision + 1 ∧
      (s.setup.doIncrementalSolving = true ∨ s.location = .unstarted)
  | .advance choice => s.location = .shuffle → s.importedLitsCurrRevision = 0 → s.doShuffle = true →
      ∀ fLits, s.pendingFormulae[s.activeRevision]? = some fLits → Shuffled fLits choice.shuffled
  | _ => True

def appendedBy (calls : List Call) : List (List Int × List Int) :=
  calls.filterMap fun
    | .appendRevision _ fLits aLits => some (fLits, aLits)
    | _ => none

section Reading

variable {setup : Setup} {r r' : Reader}

theorem closeRevision_valid (h : Valid r.vt) (activeRevision : Nat) (aLits : List Int) :
    Valid (closeRevision setup r activeRevision aLits).vt := by
  rw [closeRevision]
  dsimp only
  split
  · exact h.addExtraVariable _
  · exact h

theorem length_closeRevision (hpseudo : setup.hasPseudoincrementalSolvers = true) (h : Valid r.vt) (aLits : List Int) :
    (closeRevision setup r r.vt.extraVariables.length aLits).vt.extraVariables.length =
      r.vt.extraVariables.length + 1 := by
  obtain ⟨e, he, -, -, hvt, -, -⟩ := closeRevision_introduces hpseudo (le_refl _) h aLits rfl
  rw [hvt, he, List.length_append, List.length_singleton]

structure Translating (setup : Setup) (count : Nat) (r : Reader) : Prop where
  valid : Valid r.vt
  extra : setup.hasPseudoincrementalSolvers = true → r.vt.extraVariables.length = count

theorem Translating.readRevision {count : Nat} (h : Translating setup count r) {fLits aLits : List Int}
    (hread : readRevision setup r count fLits aLits = .ok r') : Translating setup (count + 1) r' := by
  rw [SolverThread.readRevision] at hread
  cases hlits : fLits.foldlM readLiteral r with
  | error e => rw [hlits] at hread; cases hread
  | ok r₁ =>
      rw [hlits] at hread
      obtain rfl := Except.ok.inj hread
      have hvt := (foldlM_readLiteral_reads hlits).vt
      have hvalid : Valid r₁.vt := hvt ▸ h.valid
      refine ⟨closeRevision_valid hvalid _ _, ?_⟩
      intro hpseudo
      have hcount : count = r₁.vt.extraVariables.length := by rw [hvt, h.extra hpseudo]
      rw [hcount]
      exact length_closeRevision hpseudo hvalid aLits

theorem translating_of_readRevisions {revisions : List (List Int × List Int)}
    (hread : readRevisions setup revisions = .ok r) : Translating setup revisions.length r := by
  induction revisions using List.reverseRecOn generalizing r with
  | nil =>
      obtain rfl := Except.ok.inj hread
      exact ⟨valid_create, fun _ => rfl⟩
  | append_singleton revisions revision ih =>
      obtain ⟨r₁, hfirst, hlast⟩ := readRevisions_concat.mp hread
      rw [List.length_append]
      exact (ih hfirst).readRevision hlast

theorem foldl_max_eq (aLits : List Int) {m : Nat} (h : ∀ lit ∈ aLits, lit.natAbs ≤ m) :
    aLits.foldl (fun maxVar aLit => max maxVar aLit.natAbs) m = m := by
  induction aLits with
  | nil => rfl
  | cons aLit aLits ih =>
      rw [List.foldl_cons, max_eq_left (h aLit List.mem_cons_self)]
      exact ih fun lit hlit => h lit (List.mem_cons_of_mem _ hlit)

theorem closeRevision_again {activeRevision : Nat} {aLits : List Int} (hmax : ∀ lit ∈ aLits, lit.natAbs ≤ r.maxVar)
    (hextra : setup.hasPseudoincrementalSolvers = true → activeRevision < r.vt.extraVariables.length)
    (hrevision : r.currentRevision = activeRevision) : closeRevision setup r activeRevision aLits = r := by
  rw [closeRevision, foldl_max_eq aLits hmax]
  have hskip : ¬(setup.hasPseudoincrementalSolvers && decide (activeRevision ≥ r.vt.extraVariables.length)) = true := by
    simp only [Bool.and_eq_true, decide_eq_true_eq, not_and]
    intro hpseudo
    exact not_le.mpr (hextra hpseudo)
  simp only [if_neg hskip]
  rw [← hrevision]

theorem closeRevision_maxVar (activeRevision : Nat) (aLits : List Int) :
    ∀ lit ∈ aLits, lit.natAbs ≤ (closeRevision setup r activeRevision aLits).maxVar := by
  obtain ⟨-, hbounds⟩ := le_foldl_max aLits r.maxVar
  rw [closeRevision]
  dsimp only
  split <;> exact hbounds

end Reading

section States

variable {appended : List (List Int × List Int)} {s : State}

theorem Sound.length_formulae (h : Sound appended s) : s.pendingFormulae.length = appended.length := by
  rw [← h.formulae.length_eq, List.length_map]

theorem Sound.length_assumptions (h : Sound appended s) : s.pendingAssumptions.length = appended.length := by
  rw [h.assumptions, List.length_map]

theorem length_revisions {k : Nat} (hf : k ≤ s.pendingFormulae.length) (ha : k ≤ s.pendingAssumptions.length) :
    (s.revisions k).length = k := by
  rw [State.revisions, List.length_zip, List.length_take, List.length_take]
  omega

theorem Fetched.revisions_succ {fLits aLits : List Int} (h : Fetched s fLits aLits) :
    s.revisions (s.activeRevision + 1) = s.revisions s.activeRevision ++ [(fLits, aLits)] ∧
      (s.revisions s.activeRevision).length = s.activeRevision := by
  obtain ⟨hfLt, -⟩ := List.getElem?_eq_some_iff.mp h.1
  obtain ⟨haLt, -⟩ := List.getElem?_eq_some_iff.mp h.2
  refine ⟨?_, length_revisions hfLt.le haLt.le⟩
  rw [State.revisions, State.revisions, List.take_add_one, List.take_add_one, h.1, h.2]
  refine List.zip_append ?_
  rw [List.length_take, List.length_take]
  omega

theorem Sound.fetched (h : Sound appended s) : ∃ fLits aLits, Fetched s fLits aLits := by
  have hlatest := h.latest
  have hactive := h.active
  have hf := h.length_formulae
  have ha := h.length_assumptions
  exact ⟨_, _, List.getElem?_eq_getElem (by omega), List.getElem?_eq_getElem (by omega)⟩

theorem Fetched.tldAssumptions {fLits aLits : List Int} (h : Fetched s fLits aLits) :
    s.tldAssumptions = aLits.map s.reader.vt.getTldLit := by
  rw [State.tldAssumptions, List.getD_eq_getElem?_getD, h.2, Option.getD_some]

theorem Open.read (h : Open s) {fLits aLits : List Int} (hfetched : Fetched s fLits aLits)
    (hlt : s.importedLitsCurrRevision < fLits.length) {reader : Reader}
    (hread : readLiteral s.reader (fLits.getD s.importedLitsCurrRevision 0) = .ok reader) :
    Open { s with reader := reader, importedLitsCurrRevision := s.importedLitsCurrRevision + 1 } := by
  obtain ⟨base, fLits', hbase, hf, hle, hlits⟩ := h
  obtain rfl : fLits = fLits' := Option.some.inj (hfetched.1.symm.trans hf)
  refine ⟨base, fLits, hbase, hf, hlt, ?_⟩
  rw [List.getD_eq_getElem _ _ hlt] at hread
  rw [List.take_add_one, List.getElem?_eq_getElem hlt, List.foldlM_append, hlits]
  change (readLiteral s.reader fLits[s.importedLitsCurrRevision]).bind pure = .ok reader
  rw [hread]
  rfl

theorem Open.close (h : Open s) {fLits aLits : List Int} (hfetched : Fetched s fLits aLits)
    (heq : s.importedLitsCurrRevision = fLits.length) :
    ClosedWith { s with reader := closeRevision s.setup s.reader s.activeRevision aLits } [] := by
  obtain ⟨base, fLits', hbase, hf, hle, hlits⟩ := h
  obtain rfl : fLits = fLits' := Option.some.inj (hfetched.1.symm.trans hf)
  obtain ⟨hsucc, hlength⟩ := hfetched.revisions_succ
  refine ⟨closeRevision s.setup s.reader s.activeRevision aLits, fLits, ?_, hf, heq, ?_⟩
  · refine (congrArg (readRevisions s.setup) hsucc).trans (readRevisions_concat.mpr ⟨base, hbase, ?_⟩)
    rw [heq, List.take_length] at hlits
    rw [hlength, readRevision, hlits]
    rfl
  · rw [List.append_nil]

theorem ClosedWith.reader_facts {extra : List Int} (h : ClosedWith s extra) {fLits aLits : List Int}
    (hfetched : Fetched s fLits aLits) : Valid s.reader.vt ∧ closeRevision s.setup s.reader s.activeRevision aLits = s.reader := by
  obtain ⟨reader, _, hread, _, _, heq⟩ := h
  obtain ⟨hsucc, hlength⟩ := hfetched.revisions_succ
  rw [hsucc] at hread
  have htrans := translating_of_readRevisions hread
  rw [List.length_append, hlength, List.length_singleton] at htrans
  obtain ⟨base, -, hlast⟩ := readRevisions_concat.mp hread
  rw [hlength, readRevision] at hlast
  cases hlits : fLits.foldlM readLiteral base with
  | error e => rw [hlits] at hlast; cases hlast
  | ok r₁ =>
      rw [hlits] at hlast
      have hclose : closeRevision s.setup r₁ s.activeRevision aLits = reader := Except.ok.inj hlast
      rw [heq]
      refine ⟨htrans.valid, closeRevision_again ?_ ?_ ?_⟩
      · rw [← hclose]
        exact closeRevision_maxVar s.activeRevision aLits
      · intro hpseudo
        rw [htrans.extra hpseudo]
        exact Nat.lt_succ_self _
      · rw [← hclose]
        rfl

theorem ClosedWith.next (h : ClosedWith s []) {fLits : List Int}
    (hf : s.pendingFormulae[s.activeRevision + 1]? = some fLits) :
    Open { s with activeRevision := s.activeRevision + 1, importedLitsCurrRevision := 0, location := .shuffle } := by
  obtain ⟨reader, _, hread, _, _, heq⟩ := h
  rw [List.append_nil] at heq
  refine ⟨reader, fLits, hread, hf, Nat.zero_le _, ?_⟩
  rw [heq]
  rfl

theorem ClosedWith.closed (h : ClosedWith s [])
    (hlatest : s.setup.supportsIncrementalSat = false → s.activeRevision = s.latestRevision) : Closed s :=
  ⟨0, h, Or.inl rfl, hlatest⟩

theorem Closed.imported (h : Closed s) {fLits aLits : List Int} (hfetched : Fetched s fLits aLits) :
    s.importedLitsCurrRevision = fLits.length := by
  obtain ⟨n, ⟨reader, fLits', _, hf, himported, _⟩, _⟩ := h
  rw [himported, Option.some.inj (hfetched.1.symm.trans hf)]

theorem Closed.close (h : Closed s) {fLits aLits : List Int} (hfetched : Fetched s fLits aLits) :
    { s with reader := closeRevision s.setup s.reader s.activeRevision aLits } = s := by
  obtain ⟨n, hwith, -⟩ := h
  rw [(hwith.reader_facts hfetched).2]

theorem tldAssumptions_eq {vt : VariableTranslator} (h : Valid vt) (aLits : List Int) :
    (if vt.extraVariables.isEmpty then aLits else aLits.map vt.getTldLit) = aLits.map vt.getTldLit := by
  split
  · rename_i hempty
    rw [← h.empty] at hempty
    have hid : vt.getTldLit = id := by
      funext lit
      rw [getTldLit, if_pos hempty]
      rfl
    rw [hid, List.map_id]
  · rfl

theorem unitCopies_succ (n : Nat) (lits : List Int) : unitCopies (n + 1) lits = unitCopies n lits ++ flat (units lits) := by
  rw [unitCopies, List.replicate_succ', List.flatten_append, List.flatten_singleton, unitCopies]

/-- A call with what a closed revision gives belongs to that revision. -/
theorem Sound.answers (h : Sound appended s) {n : Nat} (hwith : ClosedWith s (unitCopies n s.tldAssumptions))
    {aLits : List Int} (hgiven : if s.setup.supportsIncrementalSat then n = 0 ∧ aLits = s.tldAssumptions
      else 0 < n ∧ aLits = []) :
    Answers s.setup appended s.activeRevision { added := s.reader.added, assumptions := aLits } := by
  obtain ⟨reader, fLits, hread, _, _, heq⟩ := hwith
  have hvt : s.reader.vt = reader.vt := by rw [heq]
  have htld : s.tldAssumptions = ((appended.map Prod.snd).getD s.activeRevision []).map reader.vt.getTldLit := by
    rw [State.tldAssumptions, h.assumptions, hvt]
  have hlatest := h.latest
  have hactive := h.active
  rw [htld] at hgiven heq
  refine ⟨s.pendingFormulae.take (s.activeRevision + 1), reader, n, by omega, List.forall₂_take _ h.formulae, ?_, ?_, hgiven⟩
  · rw [← h.assumptions]
    exact hread
  · rw [heq]

end States

section Appending

variable {appended : List (List Int × List Int)} {s s' : State} {fLits aLits : List Int}

theorem Answers.append {setup : Setup} {revision : Nat} {call : SolveCall} (h : Answers setup appended revision call)
    (added : List Int × List Int) : Answers setup (appended ++ [added]) revision call := by
  obtain ⟨formulae, reader, n, hlt, hformulae, hread, hadded, hgiven⟩ := h
  have hfst : ((appended ++ [added]).map Prod.fst).take (revision + 1) = (appended.map Prod.fst).take (revision + 1) := by
    rw [List.map_append, List.take_append_of_le_length (by rw [List.length_map]; omega)]
  have hsnd : ((appended ++ [added]).map Prod.snd).take (revision + 1) = (appended.map Prod.snd).take (revision + 1) := by
    rw [List.map_append, List.take_append_of_le_length (by rw [List.length_map]; omega)]
  have hgetD : ((appended ++ [added]).map Prod.snd).getD revision [] = (appended.map Prod.snd).getD revision [] := by
    rw [List.map_append, List.getD_append _ _ _ _ (by rw [List.length_map]; omega)]
  refine ⟨formulae, reader, n, by rw [List.length_append]; omega, by rwa [hfst], by rwa [hsnd], ?_, ?_⟩
  · rwa [hgetD]
  · rwa [hgetD]

structure Grown (fLits aLits : List Int) (s s' : State) : Prop where
  setup : s'.setup = s.setup
  formulae : s'.pendingFormulae = s.pendingFormulae ++ [fLits]
  assumptions : s'.pendingAssumptions = s.pendingAssumptions ++ [aLits]
  active : s'.activeRevision = s.activeRevision
  imported : s'.importedLitsCurrRevision = s.importedLitsCurrRevision
  reader : s'.reader = s.reader
  latest : s'.latestRevision = s.latestRevision + 1
  location : s'.location = s.location
  result : s'.result = s.result

theorem appendRevision_grown {revision : Nat} (hrevision : revision = s.latestRevision + 1)
    (hok : appendRevision s revision fLits aLits = .ok s') : Grown fLits aLits s s' := by
  rw [appendRevision] at hok
  dsimp only at hok
  split at hok
  · split at hok
    · obtain rfl := Except.ok.inj hok
      exact ⟨rfl, rfl, rfl, rfl, rfl, rfl, hrevision, rfl, rfl⟩
    · obtain rfl := Except.ok.inj hok
      exact ⟨rfl, rfl, rfl, rfl, rfl, rfl, hrevision, rfl, rfl⟩
  · cases hok

variable (hg : Grown fLits aLits s s') (hs : Sound appended s)

include hg hs

theorem Grown.revisions {k : Nat} (hk : k ≤ appended.length) : s'.revisions k = s.revisions k := by
  have hf := hs.length_formulae
  have ha := hs.length_assumptions
  rw [State.revisions, State.revisions, hg.formulae, hg.assumptions, List.take_append_of_le_length (by omega),
    List.take_append_of_le_length (by omega)]

theorem Grown.activeFormula : s'.pendingFormulae[s'.activeRevision]? = s.pendingFormulae[s.activeRevision]? := by
  have hf := hs.length_formulae
  have hlatest := hs.latest
  have hactive := hs.active
  rw [hg.formulae, hg.active, List.getElem?_append_left (by omega)]

theorem Grown.activeAssumptions : s'.pendingAssumptions[s'.activeRevision]? = s.pendingAssumptions[s.activeRevision]? := by
  have ha := hs.length_assumptions
  have hlatest := hs.latest
  have hactive := hs.active
  rw [hg.assumptions, hg.active, List.getElem?_append_left (by omega)]

theorem Grown.tldAssumptions : s'.tldAssumptions = s.tldAssumptions := by
  rw [State.tldAssumptions, State.tldAssumptions, List.getD_eq_getElem?_getD, List.getD_eq_getElem?_getD,
    hg.activeAssumptions hs, hg.reader]

theorem Grown.open (h : Open s) : Open s' := by
  obtain ⟨base, fLits', hbase, hf, hle, hlits⟩ := h
  have hlatest := hs.latest
  have hactive := hs.active
  refine ⟨base, fLits', ?_, (hg.activeFormula hs).trans hf, ?_, ?_⟩
  · rw [hg.setup, hg.active, hg.revisions hs (by omega)]
    exact hbase
  · rwa [hg.imported]
  · rwa [hg.imported, hg.reader]

theorem Grown.closedWith {extra : List Int} (h : ClosedWith s extra) : ClosedWith s' extra := by
  obtain ⟨reader, fLits', hread, hf, himported, heq⟩ := h
  have hlatest := hs.latest
  have hactive := hs.active
  refine ⟨reader, fLits', ?_, (hg.activeFormula hs).trans hf, hg.imported.trans himported, hg.reader.trans heq⟩
  rw [hg.setup, hg.active, hg.revisions hs (by omega)]
  exact hread

theorem Grown.fetched {fLits' aLits' : List Int} (h : Fetched s fLits' aLits') : Fetched s' fLits' aLits' :=
  ⟨(hg.activeFormula hs).trans h.1, (hg.activeAssumptions hs).trans h.2⟩

theorem Grown.closed (hsupports : s.setup.supportsIncrementalSat = true) (h : Closed s) : Closed s' := by
  obtain ⟨n, hwith, rfl | hno, -⟩ := h
  · exact (hg.closedWith hs hwith).closed fun hno => by rw [hg.setup, hsupports] at hno; cases hno
  · rw [hsupports] at hno
    cases hno

theorem Grown.located (hsupports : s.setup.supportsIncrementalSat = true ∨ s.location = .unstarted)
    (added : List Int × List Int) : Located (appended ++ [added]) s' := by
  have hlocated := hs.located
  have hactive := hs.active
  rw [Located] at hlocated ⊢
  rw [hg.location]
  rcases hsupports with hsupports | hunstarted
  · have hclosed := hg.closed hs hsupports
    have hopen := hg.open hs
    cases hloc : s.location with
    | unstarted =>
        rw [hloc] at hlocated
        exact ⟨hg.active.trans hlocated.1, hg.imported.trans hlocated.2.1, hg.reader.trans hlocated.2.2⟩
    | waitWhileSolved => rw [hloc] at hlocated; exact hlocated.imp hopen hclosed
    | waitWhileSuspended => rw [hloc] at hlocated; exact hlocated.imp hopen hclosed
    | shuffle => rw [hloc] at hlocated; exact hlocated.imp hopen hclosed
    | fetch => rw [hloc] at hlocated; exact hlocated.imp hopen hclosed
    | read fLits' aLits' batchEnd =>
        rw [hloc] at hlocated
        exact ⟨hopen hlocated.1, hg.fetched hs hlocated.2.1, hlocated.2.2⟩
    | endOfBatch fLits' aLits' =>
        rw [hloc] at hlocated
        exact ⟨hopen hlocated.1, hg.fetched hs hlocated.2⟩
    | close fLits' aLits' =>
        rw [hloc] at hlocated
        exact ⟨hlocated.1.imp hopen hclosed, hg.fetched hs hlocated.2⟩
    | runOnce => rw [hloc] at hlocated; exact hclosed hlocated
    | addUnits revision lits =>
        rw [hloc] at hlocated
        obtain ⟨n, done, -, -, hno, -⟩ := hlocated
        rw [hsupports] at hno
        cases hno
    | solve revision aLits' =>
        rw [hloc] at hlocated
        obtain ⟨hrevision, n, hwith, hgiven⟩ := hlocated
        rw [if_pos hsupports] at hgiven
        refine ⟨hrevision.trans hg.active.symm, n, ?_, ?_⟩
        · rw [hg.tldAssumptions hs]
          exact hg.closedWith hs hwith
        · rw [hg.setup, if_pos hsupports, hg.latest, hg.active]
          exact ⟨hgiven.1, fun heq => by omega⟩
    | uninterrupt res revision call =>
        rw [hloc] at hlocated
        obtain ⟨hrevision, hcl, -⟩ := hlocated
        exact ⟨hrevision.trans hg.active.symm, hclosed hcl, fun heq => by rw [hg.latest] at heq; omega⟩
    | reportResult res revision call =>
        rw [hloc] at hlocated
        obtain ⟨hrevision, hcl, -⟩ := hlocated
        exact ⟨hrevision.trans hg.active.symm, hclosed hcl, fun heq => by rw [hg.latest] at heq; omega⟩
    | storeResult res revision call =>
        rw [hloc] at hlocated
        obtain ⟨hrevision, hcl, -⟩ := hlocated
        exact ⟨hrevision.trans hg.active.symm, hclosed hcl, fun heq => by rw [hg.latest] at heq; omega⟩
    | exited => trivial
  · rw [hunstarted] at hlocated ⊢
    exact ⟨hg.active.trans hlocated.1, hg.imported.trans hlocated.2.1, hg.reader.trans hlocated.2.2⟩

theorem Grown.sound (hsupports : s.setup.supportsIncrementalSat = true ∨ s.location = .unstarted) :
    Sound (appended ++ [(fLits, aLits)]) s' := by
  have hactive := hs.active
  refine ⟨?_, ?_, ?_, ?_, ?_, hg.located hs hsupports _⟩
  · rw [List.map_append, hg.formulae]
    exact List.rel_append hs.formulae (List.Forall₂.cons Relation.ReflTransGen.refl .nil)
  · rw [hg.assumptions, hs.assumptions, List.map_append]
    rfl
  · rw [hg.latest, List.length_append, ← hs.latest]
    rfl
  · rw [hg.active, hg.latest]
    omega
  · intro res hres
    rw [hg.result] at hres
    rw [hg.setup]
    exact (hs.result res hres).append _

end Appending

section Steps

variable {appended : List (List Int × List Int)} {s s' : State}

theorem Shuffled.length_eq {lits lits' : List Int} (h : Shuffled lits lits') : lits.length = lits'.length := by
  induction h with
  | nil => rfl
  | clause _ hperm _ ih => rw [List.length_append, List.length_append, List.length_cons, List.length_cons, hperm.length_eq, ih]

theorem forall₂_set {α β : Type} {R : α → β → Prop} {l : List α} {l' : List β} (h : List.Forall₂ R l l') {i : Nat} {b : β}
    (hb : ∀ a b', R a b' → l'[i]? = some b' → R a b) : List.Forall₂ R l (l'.set i b) := by
  induction h generalizing i with
  | nil => exact .nil
  | cons hhead htail ih =>
      cases i with
      | zero => exact .cons (hb _ _ hhead rfl) htail
      | succ i => exact .cons hhead (ih hb)

theorem Sound.move (h : Sound appended s) {location : Location} (hlocated : Located appended { s with location := location }) :
    Sound appended { s with location := location } :=
  ⟨h.formulae, h.assumptions, h.latest, h.active, h.result, hlocated⟩

theorem Sound.shuffle (h : Sound appended s) (hread : Open s ∨ Closed s) (hzero : s.importedLitsCurrRevision = 0)
    {fLits shuffled : List Int} (hf : s.pendingFormulae[s.activeRevision]? = some fLits) (hshuffled : Shuffled fLits shuffled) :
    Sound appended { s with pendingFormulae := s.pendingFormulae.set s.activeRevision shuffled, location := .fetch } := by
  obtain ⟨hlt, -⟩ := List.getElem?_eq_some_iff.mp hf
  have hset : (s.pendingFormulae.set s.activeRevision shuffled)[s.activeRevision]? = some shuffled :=
    List.getElem?_set_self hlt
  refine ⟨?_, h.assumptions, h.latest, h.active, h.result, ?_⟩
  · refine forall₂_set h.formulae ?_
    intro a b' harranged hb'
    obtain rfl : fLits = b' := Option.some.inj (hf.symm.trans hb')
    exact harranged.tail hshuffled
  · rcases hread with ⟨base, fLits', hbase, hf', hle, hlits⟩ | hclosed
    · refine Or.inl ⟨base, shuffled, ?_, hset, ?_, ?_⟩
      · rw [State.revisions, List.take_set_of_le (le_refl _)]
        exact hbase
      · rw [hzero]
        exact Nat.zero_le _
      · rw [hzero] at hlits ⊢
        exact hlits
    · obtain ⟨n, ⟨reader, fLits', hread', hf', himported, heq⟩, hn⟩ := hclosed
      obtain rfl : fLits = fLits' := Option.some.inj (hf.symm.trans hf')
      have hnil : fLits = [] := List.eq_nil_of_length_eq_zero (himported.symm.trans hzero)
      have hnil' : shuffled = [] := List.eq_nil_of_length_eq_zero (by rw [← hshuffled.length_eq, hnil]; rfl)
      have hsame : s.pendingFormulae.set s.activeRevision shuffled = s.pendingFormulae := by
        rw [hnil', ← hnil]
        refine List.ext_getElem? ?_
        intro i
        rw [List.getElem?_set]
        split
        · rename_i hi
          rw [← hi, hf]
        · rfl
      rw [hsame]
      exact Or.inr ⟨n, ⟨reader, fLits, hread', hf', himported, heq⟩, hn⟩

theorem Sound.nextBatch (h : Sound appended s) {fLits aLits : List Int} (hfetched : Fetched s fLits aLits)
    (hread : Open s ∨ Closed s) : Sound appended (nextBatch s fLits aLits) := by
  rw [SolverThread.nextBatch]
  split
  · rename_i hlt
    refine h.move ⟨?_, hfetched, min_le_right _ _⟩
    rcases hread with hopen | hclosed
    · exact hopen
    · have himported := hclosed.imported hfetched
      omega
  · exact h.move ⟨hread, hfetched⟩

/-- The end of a revision: the solver starts, or the next revision follows. -/
theorem Sound.close (h : Sound appended s) {fLits aLits : List Int} (hfetched : Fetched s fLits aLits)
    (hread : Open s ∨ Closed s) (himported : s.importedLitsCurrRevision = fLits.length) :
    Sound appended
      (if s.activeRevision = s.latestRevision then
        { s with reader := closeRevision s.setup s.reader s.activeRevision aLits, location := .runOnce }
      else
        { s with
          reader := closeRevision s.setup s.reader s.activeRevision aLits
          activeRevision := s.activeRevision + 1
          importedLitsCurrRevision := 0
          location := .shuffle }) := by
  have hlatest := h.latest
  have hactive := h.active
  have hlength := h.length_formulae
  split
  · rename_i heq
    refine ⟨h.formulae, h.assumptions, h.latest, h.active, h.result, ?_⟩
    rcases hread with hopen | hclosed
    · exact (hopen.close hfetched himported).closed fun _ => heq
    · have hcl : Closed { s with reader := closeRevision s.setup s.reader s.activeRevision aLits } := by
        rwa [hclosed.close hfetched]
      exact hcl
  · rename_i hne
    have hwith : ClosedWith { s with reader := closeRevision s.setup s.reader s.activeRevision aLits } [] := by
      rcases hread with hopen | hclosed
      · exact hopen.close hfetched himported
      · rw [hclosed.close hfetched]
        obtain ⟨n, hwith, rfl | hno, hlast⟩ := hclosed
        · exact hwith
        · exact absurd (hlast hno) hne
    have hless : s.activeRevision + 1 ≤ s.latestRevision := by omega
    refine ⟨h.formulae, h.assumptions, h.latest, hless, h.result, Or.inl ?_⟩
    exact ClosedWith.next hwith (List.getElem?_eq_getElem (by dsimp only; omega))

/-- The assumptions that the solver is started with are the last ones. -/
theorem Sound.runOnce (h : Sound appended s) (hclosed : Closed s) {tld : List Int}
    (htld : s.latestRevision = s.activeRevision → tld = s.tldAssumptions) :
    Sound appended { s with
      location := if s.setup.supportsIncrementalSat then .solve s.activeRevision tld
        else .addUnits s.activeRevision (flat (units tld)) } := by
  obtain ⟨n, hwith, hn, hlatest⟩ := hclosed
  refine h.move ?_
  split
  · rename_i hsupports
    refine ⟨rfl, n, hwith, ?_⟩
    rw [if_pos hsupports]
    refine ⟨hn.resolve_right ?_, htld⟩
    intro hno
    rw [hsupports] at hno
    cases hno
  · rename_i hno
    rw [Bool.not_eq_true] at hno
    refine ⟨n, [], by rwa [List.append_nil], ?_, hno, hlatest hno, rfl⟩
    rw [List.nil_append, htld (hlatest hno).symm]
    rfl

theorem Sound.last_assumptions (h : Sound appended s) (hvalid : Valid s.reader.vt)
    (heq : s.latestRevision = s.activeRevision) :
    (if s.reader.vt.extraVariables.isEmpty then s.pendingAssumptions.getLast?.getD []
      else (s.pendingAssumptions.getLast?.getD []).map s.reader.vt.getTldLit) = s.tldAssumptions := by
  have hlatest := h.latest
  have hlength := h.length_assumptions
  rw [tldAssumptions_eq hvalid, State.tldAssumptions, List.getLast?_eq_getElem?, List.getD_eq_getElem?_getD,
    show s.pendingAssumptions.length - 1 = s.activeRevision by omega]

theorem Sound.addUnit (h : Sound appended s) {revision : Nat} {lit : Int} {lits : List Int}
    (hloc : s.location = .addUnits revision (lit :: lits)) :
    Sound appended { s with reader.added := s.reader.added ++ [lit], location := .addUnits revision lits } := by
  have hlocated := h.located
  rw [Located, hloc] at hlocated
  obtain ⟨n, done, ⟨reader, fLits, hread, hf, himported, heq⟩, hdone, hno, hlatest, hrevision⟩ := hlocated
  refine ⟨h.formulae, h.assumptions, h.latest, h.active, h.result, n, done ++ [lit], ?_, ?_, hno, hlatest, hrevision⟩
  · have hadded : s.reader.added = reader.added ++ (unitCopies n s.tldAssumptions ++ done) := congrArg Reader.added heq
    have hreader : ∀ added, { s.reader with added := added } = { reader with added := added } := by
      intro added
      rw [heq]
    refine ⟨reader, fLits, hread, hf, himported, (hreader _).trans ?_⟩
    rw [hadded, List.append_assoc, List.append_assoc]
    rfl
  · rw [List.append_assoc]
    exact hdone

theorem Sound.solve (h : Sound appended s) {revision : Nat} {aLits : List Int} (hloc : s.location = .solve revision aLits)
    (res : SatResult) : Sound appended { s with
      location := .uninterrupt res revision { added := s.reader.added, assumptions := aLits } } := by
  have hlocated := h.located
  rw [Located, hloc] at hlocated
  obtain ⟨rfl, n, hwith, hgiven⟩ := hlocated
  refine h.move ⟨rfl, ?_, ?_⟩
  · refine ⟨n, hwith, ?_⟩
    split at hgiven
    · rename_i hsupports
      exact ⟨Or.inl hgiven.1, fun hno => by rw [hsupports] at hno; cases hno⟩
    · rename_i hno
      exact ⟨Or.inr (Bool.eq_false_of_not_eq_true hno), fun _ => hgiven.2.1⟩
  · intro heq
    refine h.answers hwith ?_
    by_cases hsupports : s.setup.supportsIncrementalSat = true
    · rw [if_pos hsupports] at hgiven ⊢
      exact ⟨hgiven.1, hgiven.2 heq⟩
    · rw [if_neg hsupports] at hgiven ⊢
      exact ⟨hgiven.1, hgiven.2.2⟩

theorem Sound.advance (h : Sound appended s) {choice : Choice} (hpermitted : Permitted s (.advance choice))
    (hok : advance s choice = .ok s') : Sound appended s' := by
  have hlocated := h.located
  rw [Located] at hlocated
  rw [SolverThread.advance] at hok
  cases hloc : s.location with
  | unstarted =>
      rw [hloc] at hok hlocated
      obtain rfl := Except.ok.inj hok
      obtain ⟨hactive, himported, hreader⟩ := hlocated
      obtain ⟨fLits, aLits, hf, -⟩ := h.fetched
      rw [hactive] at hf
      refine ⟨h.formulae, h.assumptions, h.latest, Nat.zero_le _, h.result, Or.inl ⟨{}, fLits, ?_, hf, Nat.zero_le _, ?_⟩⟩
      · rw [State.revisions, List.take_zero, List.take_zero]
        rfl
      · rw [hreader]
        rfl
  | waitWhileSolved =>
      rw [hloc] at hok hlocated
      obtain rfl := Except.ok.inj hok
      split
      · exact h.move hlocated
      · exact h
  | waitWhileSuspended =>
      rw [hloc] at hok hlocated
      obtain rfl := Except.ok.inj hok
      split
      · exact h.move trivial
      · split
        · exact h.move hlocated
        · exact h
  | shuffle =>
      rw [hloc] at hok hlocated
      dsimp only at hok
      split at hok
      · rename_i hshuffle
        rw [Bool.and_eq_true, decide_eq_true_eq] at hshuffle
        split at hok
        · rename_i fLits hf
          split at hok
          · obtain rfl := Except.ok.inj hok
            exact h.shuffle hlocated hshuffle.1 hf (hpermitted hloc hshuffle.1 hshuffle.2 fLits hf)
          · cases hok
        · cases hok
      · obtain rfl := Except.ok.inj hok
        exact h.move hlocated
  | fetch =>
      rw [hloc] at hok hlocated
      dsimp only at hok
      split at hok
      · rename_i fLits aLits hf ha
        obtain rfl := Except.ok.inj hok
        exact h.nextBatch ⟨hf, ha⟩ hlocated
      · cases hok
  | read fLits aLits batchEnd =>
      rw [hloc] at hok hlocated
      obtain ⟨hopen, hfetched, hend⟩ := hlocated
      dsimp only at hok
      split at hok
      · rename_i hlt
        cases hread : readLiteral s.reader (fLits.getD s.importedLitsCurrRevision 0) with
        | error e => rw [hread] at hok; cases hok
        | ok reader =>
            rw [hread] at hok
            obtain rfl := Except.ok.inj hok
            refine ⟨h.formulae, h.assumptions, h.latest, h.active, h.result, ?_⟩
            exact ⟨hopen.read hfetched (by omega) hread, hfetched, hend⟩
      · obtain rfl := Except.ok.inj hok
        exact h.move ⟨hopen, hfetched⟩
  | endOfBatch fLits aLits =>
      rw [hloc] at hok hlocated
      obtain rfl := Except.ok.inj hok
      split
      · exact h.move trivial
      · split
        · exact h.nextBatch hlocated.2 (Or.inl hlocated.1)
        · exact h
  | close fLits aLits =>
      rw [hloc] at hok hlocated
      dsimp only at hok
      split at hok
      · rename_i himported
        obtain rfl := Except.ok.inj hok
        exact h.close hlocated.2 hlocated.1 himported
      · cases hok
  | runOnce =>
      rw [hloc] at hok hlocated
      dsimp only at hok
      split at hok
      · obtain rfl := Except.ok.inj hok
        exact h.move (Or.inr hlocated)
      · obtain rfl := Except.ok.inj hok
        obtain ⟨fLits, aLits, hfetched⟩ := h.fetched
        have hvalid : Valid s.reader.vt := by
          obtain ⟨n, hwith, -⟩ := hlocated
          exact (hwith.reader_facts hfetched).1
        exact h.runOnce hlocated fun heq => h.last_assumptions hvalid heq
  | addUnits revision lits =>
      cases lits with
      | nil =>
          rw [hloc] at hok hlocated
          obtain rfl := Except.ok.inj hok
          obtain ⟨n, done, hwith, hdone, hno, hlatest, hrevision⟩ := hlocated
          refine h.move ⟨hrevision, n + 1, ?_, ?_⟩
          · rw [unitCopies_succ]
            rw [List.append_nil] at hdone
            rw [hdone] at hwith
            exact hwith
          · rw [hno]
            exact ⟨Nat.succ_pos n, hlatest, rfl⟩
      | cons lit lits =>
          rw [hloc] at hok
          obtain rfl := Except.ok.inj hok
          exact h.addUnit hloc
  | solve revision aLits =>
      rw [hloc] at hok
      obtain rfl := Except.ok.inj hok
      exact h.solve hloc choice.answer
  | uninterrupt res revision call =>
      rw [hloc] at hok hlocated
      obtain rfl := Except.ok.inj hok
      exact ⟨h.formulae, h.assumptions, h.latest, h.active, h.result, hlocated⟩
  | reportResult res revision call =>
      rw [hloc] at hok hlocated
      obtain rfl := Except.ok.inj hok
      refine h.move ?_
      split
      · exact Or.inr hlocated.2.1
      · exact hlocated
  | storeResult res revision call =>
      rw [hloc] at hok hlocated
      obtain rfl := Except.ok.inj hok
      obtain ⟨hrevision, hclosed, hanswers⟩ := hlocated
      split
      · exact h.move (Or.inr hclosed)
      · rename_i heq
        refine ⟨h.formulae, h.assumptions, h.latest, h.active, ?_, Or.inr hclosed⟩
        intro res' hres'
        obtain rfl := Option.some.inj hres'
        exact hanswers (not_not.mp heq).symm
  | exited =>
      rw [hloc] at hok
      obtain rfl := Except.ok.inj hok
      exact h

end Steps

theorem sound_create (setup : Setup) (doShuffle : Bool) (fLits aLits : List Int) :
    Sound [(fLits, aLits)] (create setup doShuffle fLits aLits) :=
  ⟨.cons Relation.ReflTransGen.refl .nil, rfl, rfl, le_refl 0, fun res hres => (by cases hres), rfl, rfl, rfl⟩

theorem Sound.step {appended : List (List Int × List Int)} {s s' : State} (h : Sound appended s) {call : Call}
    (hpermitted : Permitted s call) (hok : step s call = .ok s') : Sound (appended ++ appendedBy [call]) s' := by
  cases call with
  | appendRevision revision fLits aLits =>
      refine (appendRevision_grown hpermitted.1 hok).sound h ?_
      exact hpermitted.2.imp_left s.setup.incremental
  | setSuspend suspend =>
      obtain rfl := Except.ok.inj hok
      rw [show appendedBy [Call.setSuspend suspend] = [] from rfl, List.append_nil]
      exact ⟨h.formulae, h.assumptions, h.latest, h.active, h.result, h.located⟩
  | setTerminate =>
      obtain rfl := Except.ok.inj hok
      rw [show appendedBy [Call.setTerminate] = [] from rfl, List.append_nil]
      exact ⟨h.formulae, h.assumptions, h.latest, h.active, h.result, h.located⟩
  | advance choice =>
      rw [show appendedBy [Call.advance choice] = [] from rfl, List.append_nil]
      exact h.advance hpermitted hok

theorem sound_of_reaches {setup : Setup} {doShuffle : Bool} {fLits aLits : List Int} {calls : List Call} {s : State}
    (h : Reaches step Permitted (create setup doShuffle fLits aLits) calls s) :
    Sound ((fLits, aLits) :: appendedBy calls) s := by
  induction h with
  | nil => exact sound_create setup doShuffle fLits aLits
  | concat _ hpermitted hok ih =>
      rw [appendedBy, List.filterMap_append]
      exact ih.step hpermitted hok

theorem step_setup {s s' : State} {call : Call} (hok : step s call = .ok s') : s'.setup = s.setup := by
  cases call with
  | appendRevision revision fLits aLits =>
      simp only [step, appendRevision] at hok
      grind
  | setSuspend suspend => exact Except.ok.inj hok ▸ rfl
  | setTerminate => exact Except.ok.inj hok ▸ rfl
  | advance choice =>
      rw [step, advance] at hok
      cases hloc : s.location with
      | read fLits aLits batchEnd =>
          rw [hloc] at hok
          dsimp only at hok
          cases hread : readLiteral s.reader (fLits.getD s.importedLitsCurrRevision 0) with
          | error e => rw [hread] at hok; grind [Except.map]
          | ok reader => rw [hread] at hok; grind [Except.map]
      | addUnits revision lits =>
          rw [hloc] at hok
          cases lits <;> grind
      | _ =>
          rw [hloc] at hok
          grind [nextBatch]

theorem setup_of_reaches {setup : Setup} {doShuffle : Bool} {fLits aLits : List Int} {calls : List Call} {s : State}
    (h : Reaches step Permitted (create setup doShuffle fLits aLits) calls s) : s.setup = setup := by
  refine h.invariant (P := fun s => s.setup = setup) rfl ?_
  intro s₁ call s₂ hs₁ _ hok
  exact (step_setup hok).trans hs₁

/-- However the revisions arrive while the thread reads and solves, a result is
only stored for a revision whose literals and assumptions the solver was given,
and no others. -/
theorem results_belong_to_revisions {setup : Setup} {doShuffle : Bool} {fLits aLits : List Int} {calls : List Call}
    {s : State} (h : Reaches step Permitted (create setup doShuffle fLits aLits) calls s) {res : Result}
    (hres : s.result = some res) : Answers setup ((fLits, aLits) :: appendedBy calls) res.revision res.call := by
  have hanswers := (sound_of_reaches h).result res hres
  rwa [setup_of_reaches h] at hanswers

def incrementalSetup : Setup where
  doIncrementalSolving := true
  hasPseudoincrementalSolvers := false
  supportsIncrementalSat := true
  exportsConditionalClauses := false
  incremental := by decide

def permits (s : State) : Call → Bool
  | .appendRevision revision _ _ => revision = s.latestRevision + 1 && s.setup.doIncrementalSolving
  | .advance _ => !s.doShuffle
  | _ => true

theorem permitted_of_permits (s : State) (call : Call) (h : permits s call = true) : Permitted s call := by
  cases call with
  | appendRevision revision fLits aLits =>
      rw [permits, Bool.and_eq_true, decide_eq_true_eq] at h
      exact ⟨h.1, Or.inl h.2⟩
  | setSuspend suspend => trivial
  | setTerminate => trivial
  | advance choice =>
      intro _ _ hshuffle
      rw [permits, hshuffle] at h
      cases h

def secondRevisionCalls : List Call :=
  List.replicate 6 (.advance { shuffled := [], answer := .sat }) ++ [.appendRevision 1 [2, 0] [2]] ++
    List.replicate 16 (.advance { shuffled := [], answer := .sat })

theorem results_belong_to_revisions_second_revision : ∃ s res,
    Reaches step Permitted (create incrementalSetup false [1, 0] [1]) secondRevisionCalls s ∧ s.result = some res ∧
    res.revision = 1 ∧ res.call.added = [1, 0, 2, 0] ∧ res.call.assumptions = [2] ∧
    Answers incrementalSetup (([1, 0], [1]) :: appendedBy secondRevisionCalls) res.revision res.call := by
  have hrun : (secondRevisionCalls.foldlM (checked permits step) (create incrementalSetup false [1, 0] [1])).map
      (fun s => s.result.map fun res => (res.revision, res.call.added, res.call.assumptions)) =
        some (some (1, [1, 0, 2, 0], [2])) := by
    decide +kernel
  obtain ⟨s, hs, hres⟩ := Option.map_eq_some_iff.mp hrun
  obtain ⟨res, hresult, heq⟩ := Option.map_eq_some_iff.mp hres
  have hreaches := Reaches.of_checked permitted_of_permits hs
  simp only [Prod.mk.injEq] at heq
  exact ⟨s, res, hreaches, hresult, heq.1, heq.2.1, heq.2.2, results_belong_to_revisions hreaches hresult⟩

end Mallob.SolverThread
