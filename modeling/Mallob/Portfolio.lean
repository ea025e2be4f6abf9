import Mathlib

namespace Mallob

inductive SolverKind
  | lingeling
  | glucose
  | cadical
  | mergesat
  | kissat
deriving DecidableEq

/-- A letter of the solver cycle. The lower case stands for pseudo-incremental solving. -/
structure SolverChoice where
  kind : SolverKind
  pseudoIncremental : Bool
deriving DecidableEq

structure SolverCycle where
  letters : List SolverChoice
  ne_nil : letters ≠ []

namespace SolverCycle

def size (cycle : SolverCycle) : Nat := cycle.letters.length

theorem size_pos (cycle : SolverCycle) : 0 < cycle.size := List.length_pos_of_ne_nil cycle.ne_nil

def get (cycle : SolverCycle) (pos : Nat) : SolverChoice :=
  cycle.letters.get ⟨pos % cycle.size, Nat.mod_lt pos cycle.size_pos⟩

end SolverCycle

structure SolverSetup where
  globalId : Nat
  localId : Nat
  diversificationIndex : Int
  isJobIncremental : Bool
  doIncrementalSolving : Bool
  hasPseudoincrementalSolvers : Bool
  solverType : SolverChoice
deriving DecidableEq

/-- The solvers that were compiled in, the cycle of solver choices and the rest of the configuration that the
constructor reads, which is the same on all ranks. -/
structure HordeConfig where
  useMergesat : Bool
  useGlucose : Bool
  solverChoices : SolverCycle
  diversificationOffset : Int
  incremental : Bool
  threads : Nat

namespace HordeConfig

def createsSolver (config : HordeConfig) (solverType : SolverChoice) : Bool :=
  match solverType.kind with
  | .lingeling => true
  | .cadical => true
  | .kissat => solverType.pseudoIncremental
  | .mergesat => config.useMergesat && solverType.pseudoIncremental
  | .glucose => config.useGlucose

def addCycles (numFullCycles begunCyclePos : Nat) : Nat → List SolverChoice → (SolverKind → Nat) → SolverKind → Nat
  | _, [], counters => counters
  | i, c :: cs, counters =>
      addCycles numFullCycles begunCyclePos (i + 1) cs
        (Function.update counters c.kind (counters c.kind + (numFullCycles + if i < begunCyclePos then 1 else 0)))

def hasPseudoincrementalSolvers (config : HordeConfig) : Bool :=
  config.incremental && config.solverChoices.letters.any fun c => c.pseudoIncremental

/-- The loop over the solvers of a rank. None stands for the abort at an invalid solver. -/
def instantiate (config : HordeConfig) (appRank : Nat) :
    Nat → Nat → Nat → (SolverKind → Nat) → Option (List SolverSetup)
  | 0, _, _, _ => some []
  | left + 1, localId, cyclePos, counters =>
      let solverType := config.solverChoices.get cyclePos
      let setup : SolverSetup :=
        { globalId := appRank * config.threads + localId
          localId := localId
          diversificationIndex := counters solverType.kind + config.diversificationOffset
          isJobIncremental := config.incremental
          doIncrementalSolving := config.incremental && !solverType.pseudoIncremental
          hasPseudoincrementalSolvers := config.hasPseudoincrementalSolvers
          solverType := solverType }
      if config.createsSolver solverType then
        (config.instantiate appRank left (localId + 1) ((cyclePos + 1) % config.solverChoices.size)
          (Function.update counters solverType.kind (counters solverType.kind + 1))).map (setup :: ·)
      else none

def construct (config : HordeConfig) (appRank : Nat) : Option (List SolverSetup) :=
  let numFullCycles := appRank * config.threads / config.solverChoices.size
  let begunCyclePos := appRank * config.threads % config.solverChoices.size
  config.instantiate appRank config.threads 0 begunCyclePos
    (addCycles numFullCycles begunCyclePos 0 config.solverChoices.letters fun _ => 0)

end HordeConfig

section Counting

variable {p : Nat → Prop} [DecidablePred p] {n : Nat}

/-- What is counted in full cycles and a begun one of a property that repeats itself. -/
theorem count_cycles (hperiodic : ∀ i, p (i + n) ↔ p i) (q r : Nat) :
    Nat.count p (q * n + r) = q * Nat.count p n + Nat.count p r := by
  induction q with
  | zero => simp
  | succ q ih =>
      have hshift : Nat.count (fun i => p (n + i)) (q * n + r) = Nat.count p (q * n + r) := by
        simp only [Nat.add_comm n, hperiodic]
      rw [show (q + 1) * n + r = n + (q * n + r) by ring, Nat.count_add, hshift, ih]
      ring

end Counting

namespace SolverCycle

variable (cycle : SolverCycle) (kind : SolverKind)

def countBefore (globalId : Nat) : Nat := Nat.count (fun g => (cycle.get g).kind = kind) globalId

theorem get_mod (pos : Nat) : cycle.get (pos % cycle.size) = cycle.get pos := by
  simp only [get, Nat.mod_mod]

theorem get_of_lt {pos : Nat} (h : pos < cycle.letters.length) : cycle.get pos = cycle.letters[pos] := by
  have hmod : pos % cycle.size = pos := Nat.mod_eq_of_lt h
  simp only [get, hmod, List.get_eq_getElem]

theorem countBefore_succ (globalId : Nat) : cycle.countBefore kind (globalId + 1) =
    cycle.countBefore kind globalId + if (cycle.get globalId).kind = kind then 1 else 0 := Nat.count_succ ..

theorem countBefore_cycles (q r : Nat) : cycle.countBefore kind (q * cycle.size + r) =
    q * cycle.countBefore kind cycle.size + cycle.countBefore kind r := by
  refine count_cycles (fun i => ?_) q r
  rw [← get_mod, Nat.add_mod_right, get_mod]

/-- Counting positions up to the size of the cycle is counting letters. -/
theorem countBefore_eq_countP {r : Nat} (h : r ≤ cycle.size) :
    cycle.countBefore kind r = (cycle.letters.take r).countP fun c => c.kind = kind := by
  induction r with
  | zero => rfl
  | succ r ih =>
      have hlt : r < cycle.letters.length := h
      rw [countBefore_succ, ih (Nat.le_of_succ_le h), List.take_succ_eq_append_getElem hlt, List.countP_append,
        List.countP_singleton, cycle.get_of_lt hlt]
      simp only [decide_eq_true_eq]

end SolverCycle

namespace HordeConfig

variable {kind : SolverKind}

theorem addCycles_eq (q r i : Nat) (cs : List SolverChoice) (counters : SolverKind → Nat) :
    addCycles q r i cs counters kind =
      counters kind + q * (cs.countP fun c => c.kind = kind) + (cs.take (r - i)).countP fun c => c.kind = kind := by
  induction cs generalizing i counters with
  | nil => simp [addCycles]
  | cons c cs ih =>
      rw [addCycles, ih]
      by_cases hkind : c.kind = kind
      · by_cases hi : i < r
        · obtain ⟨d, hd⟩ : ∃ d, r - i = d + 1 := ⟨r - i - 1, by omega⟩
          have hd' : r - (i + 1) = d := by omega
          rw [hd, hd', if_pos hi, List.take_succ_cons, List.countP_cons_of_pos (by simpa using hkind),
            List.countP_cons_of_pos (by simpa using hkind), hkind, Function.update_self]
          ring
        · have hd : r - i = 0 := by omega
          have hd' : r - (i + 1) = 0 := by omega
          rw [hd, hd', if_neg hi, List.countP_cons_of_pos (by simpa using hkind), hkind, Function.update_self,
            List.take_zero, List.take_zero]
          ring
      · rw [Function.update_of_ne (Ne.symm hkind), List.countP_cons_of_neg (by simpa using hkind)]
        congr 1
        by_cases hi : i < r
        · obtain ⟨d, hd⟩ : ∃ d, r - i = d + 1 := ⟨r - i - 1, by omega⟩
          have hd' : r - (i + 1) = d := by omega
          rw [hd, hd', List.take_succ_cons, List.countP_cons_of_neg (by simpa using hkind)]
        · have hd : r - i = 0 := by omega
          have hd' : r - (i + 1) = 0 := by omega
          rw [hd, hd', List.take_zero, List.take_zero]

/-- The counters that a rank computes are the ones that the previous ranks end with. -/
theorem startCounters (cycle : SolverCycle) (before : Nat) :
    addCycles (before / cycle.size) (before % cycle.size) 0 cycle.letters (fun _ => 0) =
      fun kind => cycle.countBefore kind before := by
  funext kind
  have hmod := (Nat.mod_lt before cycle.size_pos).le
  have hfull : cycle.countBefore kind cycle.size = cycle.letters.countP fun c => c.kind = kind := by
    rw [cycle.countBefore_eq_countP kind le_rfl, SolverCycle.size, List.take_length]
  conv_rhs => rw [← Nat.div_add_mod' before cycle.size]
  rw [addCycles_eq, cycle.countBefore_cycles, hfull, cycle.countBefore_eq_countP kind hmod, Nat.sub_zero, Nat.zero_add]

def setupOf (config : HordeConfig) (appRank localId : Nat) : SolverSetup :=
  let globalId := appRank * config.threads + localId
  { globalId := globalId
    localId := localId
    diversificationIndex :=
      config.diversificationOffset + config.solverChoices.countBefore (config.solverChoices.get globalId).kind globalId
    isJobIncremental := config.incremental
    doIncrementalSolving := config.incremental && !(config.solverChoices.get globalId).pseudoIncremental
    hasPseudoincrementalSolvers := config.hasPseudoincrementalSolvers
    solverType := config.solverChoices.get globalId }

variable (config : HordeConfig) (appRank : Nat)

theorem count_solver (cycle : SolverCycle) (globalId : Nat) :
    Function.update (fun kind => cycle.countBefore kind globalId) (cycle.get globalId).kind
        (cycle.countBefore (cycle.get globalId).kind globalId + 1) =
      fun kind => cycle.countBefore kind (globalId + 1) := by
  funext kind
  rw [cycle.countBefore_succ]
  by_cases hkind : kind = (cycle.get globalId).kind
  · subst hkind
    rw [Function.update_self, if_pos rfl]
  · rw [Function.update_of_ne hkind, if_neg (Ne.symm hkind), Nat.add_zero]

theorem instantiate_eq (left localId : Nat) :
    config.instantiate appRank left localId ((appRank * config.threads + localId) % config.solverChoices.size)
        (fun kind => config.solverChoices.countBefore kind (appRank * config.threads + localId)) =
      if ∀ j < left, config.createsSolver (config.solverChoices.get (appRank * config.threads + (localId + j))) then
        some ((List.range left).map fun j => config.setupOf appRank (localId + j))
      else none := by
  induction left generalizing localId with
  | zero => rfl
  | succ left ih =>
      have hrest := ih (localId + 1)
      rw [← Nat.add_assoc, ← count_solver] at hrest
      rw [instantiate, config.solverChoices.get_mod, Nat.mod_add_mod, hrest]
      have hshift : ∀ j, localId + 1 + j = localId + (j + 1) := fun j => by omega
      by_cases hfirst : config.createsSolver (config.solverChoices.get (appRank * config.threads + localId)) = true
      · have hall : (∀ j < left + 1, config.createsSolver
              (config.solverChoices.get (appRank * config.threads + (localId + j))) = true) ↔
            ∀ j < left, config.createsSolver
              (config.solverChoices.get (appRank * config.threads + (localId + 1 + j))) = true := by
          rw [Nat.forall_lt_succ_left]
          simp only [hshift]
          exact and_iff_right hfirst
        simp only [if_pos hfirst, hall]
        split
        · rw [Option.map_some, List.range_succ_eq_map, List.map_cons, List.map_map]
          congr 2
          · simp only [setupOf, Nat.add_zero, Int.add_comm]
          · exact List.map_congr_left fun j _ => by rw [Function.comp_apply, hshift]
        · rfl
      · rw [if_neg hfirst, if_neg fun hall => hfirst (hall 0 (Nat.succ_pos left))]

theorem construct_eq : config.construct appRank =
    if ∀ j < config.threads, config.createsSolver (config.solverChoices.get (appRank * config.threads + j)) then
      some ((List.range config.threads).map (config.setupOf appRank))
    else none := by
  rw [construct, startCounters]
  have hall := config.instantiate_eq appRank config.threads 0
  simpa only [Nat.add_zero, Nat.zero_add] using hall

/-- The global ids of some ranks, one rank after the other, are all global ids in their order. -/
theorem flatMap_range (ranks threads : Nat) :
    ((List.range ranks).flatMap fun a => (List.range threads).map fun j => a * threads + j) =
      List.range (ranks * threads) := by
  induction ranks with
  | zero => simp
  | succ ranks ih => rw [List.range_succ, List.flatMap_append, ih, List.flatMap_singleton, Nat.succ_mul, List.range_add]

theorem indices_of_kind (cycle : SolverCycle) (offset : Int) (n : Nat) :
    (((List.range n).filter fun g => (cycle.get g).kind = kind).map fun g =>
        offset + cycle.countBefore (cycle.get g).kind g) =
      (List.range (cycle.countBefore kind n)).map fun i : Nat => offset + i := by
  induction n with
  | zero => rfl
  | succ n ih =>
      rw [List.range_succ, List.filter_append, List.map_append, ih, cycle.countBefore_succ]
      by_cases hkind : (cycle.get n).kind = kind
      · rw [if_pos hkind, List.range_succ, List.map_append, List.filter_cons_of_pos (by simpa using hkind)]
        simp only [List.filter_nil, List.map_cons, List.map_nil, hkind]
      · rw [if_neg hkind, List.filter_cons_of_neg (by simpa using hkind)]
        simp only [List.filter_nil, List.map_nil, List.append_nil, Nat.add_zero]

/-- The assignment of solvers is consistent over all ranks, unless a rank is to create an invalid solver. -/
theorem portfolio_consistent :
    (∀ appRank, config.construct appRank =
      if ∀ j < config.threads, config.createsSolver (config.solverChoices.get (appRank * config.threads + j)) then
        some ((List.range config.threads).map (config.setupOf appRank))
      else none) ∧
    ∀ (ranks : Nat) (solvers : Nat → List SolverSetup),
      (∀ appRank < ranks, config.construct appRank = some (solvers appRank)) → ∀ kind,
        ((((List.range ranks).flatMap solvers).filter fun s => s.solverType.kind = kind).map
            SolverSetup.diversificationIndex) =
          (List.range (config.solverChoices.countBefore kind (ranks * config.threads))).map
            fun i : Nat => config.diversificationOffset + i := by
  refine ⟨config.construct_eq, fun ranks solvers hconstruct kind => ?_⟩
  have hsolvers : ∀ a ∈ List.range ranks, solvers a = (List.range config.threads).map (config.setupOf a) := by
    intro a ha
    have hsome := hconstruct a (List.mem_range.mp ha)
    rw [construct_eq] at hsome
    split at hsome
    · exact (Option.some.inj hsome).symm
    · cases hsome
  rw [List.flatMap_congr hsolvers, List.filter_flatMap, List.map_flatMap, ← indices_of_kind, ← flatMap_range,
    List.filter_flatMap, List.map_flatMap]
  refine List.flatMap_congr fun a _ => ?_
  rw [List.filter_map, List.map_map, List.filter_map, List.map_map]
  rfl

def twoThreads : HordeConfig where
  useMergesat := false
  useGlucose := false
  solverChoices := ⟨[⟨.lingeling, true⟩, ⟨.lingeling, false⟩, ⟨.cadical, true⟩], by decide⟩
  diversificationOffset := 0
  incremental := false
  threads := 2

example : (twoThreads.construct 1).map (List.map SolverSetup.diversificationIndex) = some [0, 2] := by decide

def upperKissat : HordeConfig where
  useMergesat := true
  useGlucose := true
  solverChoices := ⟨[⟨.kissat, false⟩], by decide⟩
  diversificationOffset := 0
  incremental := false
  threads := 1

/-- The constructor creates no solver for a letter of the cycle. -/
theorem no_solver_for_upperKissat : upperKissat.construct 0 = none ∧
    ¬∀ (config : HordeConfig) (appRank : Nat), ∃ solvers, config.construct appRank = some solvers ∧
      ∀ j < config.threads, solvers[j]? = some (config.setupOf appRank j) := by
  have hnone : upperKissat.construct 0 = none := by decide
  refine ⟨hnone, fun hall => ?_⟩
  obtain ⟨solvers, hsome, -⟩ := hall upperKissat 0
  rw [hnone] at hsome
  cases hsome

end HordeConfig

end Mallob
