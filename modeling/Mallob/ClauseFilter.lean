import Mallob.BloomFilter
import Mallob.ClauseBuffer

namespace Mallob.Sharing

def NUM_BITS : Nat := 26843543

structure ClauseFilter where
  bitset : Finset (Fin NUM_BITS)
  maxClauseLength : Int
  clearSet : Bool
deriving DecidableEq

namespace ClauseHasher

def part (which : Nat) (lit : Int) : Nat :=
  (lit % 2 ^ 32).toNat * primes.getD (((lit % 16).toNat ^^^ which) % 16) 0 % 2 ^ 32

theorem hash_perm {lits lits' : List Int} (h : lits.Perm lits') (which : Nat) : hash lits which = hash lits' which := by
  have hfold : ∀ lits, hash lits which = lits.foldl (fun res lit => res ^^^ part which lit) 0 :=
    fun lits => rfl
  have hcomm : RightCommutative fun (res : Nat) (lit : Int) => res ^^^ part which lit :=
    ⟨fun res lit lit' => Nat.xor_right_comm res _ _⟩
  rw [hfold, hfold]
  exact h.foldl_eq 0

end ClauseHasher

namespace ClauseFilter

def new (maxClauseLen : Int) : ClauseFilter := ⟨∅, maxClauseLen, false⟩

def hashBit (lits : List Int) (i : Nat) : Fin NUM_BITS :=
  ⟨ClauseHasher.hash lits i % NUM_BITS, Nat.mod_lt _ (by decide)⟩

def hashBits (lits : List Int) : List (Fin NUM_BITS) := [1, 2, 3, 4].map (hashBit lits)

def clear (f : ClauseFilter) : ClauseFilter := { f with bitset := ∅ }

def setClear (f : ClauseFilter) : ClauseFilter := { f with clearSet := true }

def takeClear (f : ClauseFilter) : ClauseFilter :=
  if f.clearSet then { f with clearSet := false }.clear else f

def Blocks (f : ClauseFilter) (lits : List Int) : Prop :=
  0 < f.maxClauseLength ∧ f.maxClauseLength < lits.length

instance (f : ClauseFilter) (lits : List Int) : Decidable (f.Blocks lits) :=
  inferInstanceAs (Decidable (_ ∧ _))

def registerClause (f : ClauseFilter) (lits : List Int) : ClauseFilter × Bool :=
  if f.Blocks lits then (f, false)
  else
    let f := f.takeClear
    let (bitset, admitted) := BloomFilter.enter (hashBits lits) f.bitset
    ({ f with bitset := bitset }, admitted)

inductive Call where
  | registerClause (lits : List Int)
  | setClear
  | clear
deriving DecidableEq

def call (f : ClauseFilter) : Call → ClauseFilter
  | .registerClause lits => (f.registerClause lits).1
  | .setClear => f.setClear
  | .clear => f.clear

def calls (f : ClauseFilter) (cs : List Call) : ClauseFilter := cs.foldl call f

/-- The call empties the filter, at once or because it meets a pending request. -/
def Clears (f : ClauseFilter) : Call → Prop
  | .registerClause lits => f.clearSet = true ∧ ¬f.Blocks lits
  | .setClear => False
  | .clear => True

def NeverClears : ClauseFilter → List Call → Prop
  | _, [] => True
  | f, c :: cs => ¬f.Clears c ∧ NeverClears (f.call c) cs

def Knows (f : ClauseFilter) (lits : List Int) : Prop := (hashBits lits).toFinset ⊆ f.bitset

theorem hashBits_perm {lits lits' : List Int} (h : lits.Perm lits') : hashBits lits = hashBits lits' := by
  apply List.map_congr_left
  intro i hi
  simp [hashBit, ClauseHasher.hash_perm h]

theorem registerClause_blocked {f : ClauseFilter} {lits : List Int} (h : f.Blocks lits) :
    f.registerClause lits = (f, false) := by
  simp [registerClause, h]

theorem registerClause_admissible {f : ClauseFilter} {lits : List Int} (h : ¬f.Blocks lits) :
    f.registerClause lits = ({ f.takeClear with
      bitset := (BloomFilter.enter (hashBits lits) f.takeClear.bitset).1 },
      (BloomFilter.enter (hashBits lits) f.takeClear.bitset).2) := by
  simp [registerClause, h]

theorem takeClear_of_clearSet {f : ClauseFilter} (h : f.clearSet = true) :
    f.takeClear = ⟨∅, f.maxClauseLength, false⟩ := by
  simp [takeClear, h, clear]

theorem takeClear_of_not_clearSet {f : ClauseFilter} (h : f.clearSet = false) : f.takeClear = f := by
  simp [takeClear, h]

@[simp] theorem takeClear_maxClauseLength (f : ClauseFilter) : f.takeClear.maxClauseLength = f.maxClauseLength := by
  unfold takeClear
  split <;> rfl

@[simp] theorem call_maxClauseLength (f : ClauseFilter) (c : Call) :
    (f.call c).maxClauseLength = f.maxClauseLength := by
  cases c with
  | registerClause lits =>
      by_cases h : f.Blocks lits
      · simp [call, registerClause_blocked h]
      · simp [call, registerClause_admissible h]
  | setClear => rfl
  | clear => rfl

theorem calls_maxClauseLength {f : ClauseFilter} (cs : List Call) :
    (f.calls cs).maxClauseLength = f.maxClauseLength := by
  induction cs generalizing f with
  | nil => rfl
  | cons c cs ih => exact ih.trans (call_maxClauseLength f c)

theorem knows_registerClause {f : ClauseFilter} {lits : List Int} (h : ¬f.Blocks lits) :
    (f.registerClause lits).1.Knows lits := by
  rw [registerClause_admissible h]
  exact BloomFilter.toFinset_subset_enter _ _

theorem Knows.perm {f : ClauseFilter} {lits lits' : List Int} (h : f.Knows lits) (hperm : lits.Perm lits') :
    f.Knows lits' := by
  rwa [Knows, ← hashBits_perm hperm]

theorem bitset_subset_call {f : ClauseFilter} {c : Call} (h : ¬f.Clears c) : f.bitset ⊆ (f.call c).bitset := by
  cases c with
  | registerClause lits =>
      by_cases hb : f.Blocks lits
      · simp [call, registerClause_blocked hb]
      · have hset : f.clearSet = false := by
          simpa [Clears, hb] using h
        simp only [call, registerClause_admissible hb, takeClear_of_not_clearSet hset]
        exact BloomFilter.subset_enter _ _
  | setClear => exact subset_rfl
  | clear => exact absurd trivial h

theorem registerClause_clearSet {f : ClauseFilter} (h : f.clearSet = false) (lits : List Int) :
    (f.registerClause lits).1.clearSet = false := by
  by_cases hb : f.Blocks lits
  · rwa [registerClause_blocked hb]
  · rw [registerClause_admissible hb, takeClear_of_not_clearSet h]
    exact h

/-- Registrations alone never empty a filter without a pending request. -/
theorem neverClears_registrations {f : ClauseFilter} (h : f.clearSet = false) (clauses : List (List Int)) :
    f.NeverClears (clauses.map .registerClause) := by
  induction clauses generalizing f with
  | nil => trivial
  | cons lits clauses ih =>
      refine ⟨?_, ih (registerClause_clearSet h lits)⟩
      simp [Clears, h]

theorem neverClears_append {f : ClauseFilter} {cs : List Call} {c : Call} (h : f.NeverClears (cs ++ [c])) :
    f.NeverClears cs ∧ ¬(f.calls cs).Clears c := by
  induction cs generalizing f with
  | nil => exact ⟨trivial, h.1⟩
  | cons d cs ih =>
      obtain ⟨hcs, hc⟩ := ih h.2
      exact ⟨⟨h.1, hcs⟩, hc⟩

theorem Knows.calls {f : ClauseFilter} {lits : List Int} {cs : List Call} (h : f.Knows lits)
    (hnever : f.NeverClears cs) : (f.calls cs).Knows lits := by
  induction cs generalizing f with
  | nil => exact h
  | cons c cs ih =>
      apply ih _ hnever.2
      exact h.trans (bitset_subset_call hnever.1)

/-- A known clause is refused and changes nothing, unless it empties the filter itself. -/
theorem Knows.registerClause {f : ClauseFilter} {lits : List Int} (h : f.Knows lits)
    (hclears : ¬f.Clears (.registerClause lits)) : f.registerClause lits = (f, false) := by
  by_cases hb : f.Blocks lits
  · exact registerClause_blocked hb
  · have hset : f.clearSet = false := by
      simpa [Clears, hb] using hclears
    rw [registerClause_admissible hb, takeClear_of_not_clearSet hset, BloomFilter.enter_of_subset h]

/-- A request to clear the filter stays pending until a clause of admissible length is registered. -/
theorem calls_pending {f : ClauseFilter} (cs : List Call) (hset : f.clearSet = true)
    (hblocked : ∀ lits, Call.registerClause lits ∈ cs → f.Blocks lits) :
    (f.calls cs).clearSet = true ∧ (f.calls cs).maxClauseLength = f.maxClauseLength := by
  induction cs generalizing f with
  | nil => exact ⟨hset, rfl⟩
  | cons c cs ih =>
      have hstep : (f.call c).clearSet = true := by
        cases c with
        | registerClause lits =>
            have hb := hblocked lits List.mem_cons_self
            simp [call, registerClause_blocked hb, hset]
        | setClear => rfl
        | clear => exact hset
      have hlimit := call_maxClauseLength f c
      obtain ⟨hpending, hmax⟩ := ih hstep fun lits hlits => by
        simpa [Blocks, hlimit] using hblocked lits (List.mem_cons_of_mem c hlits)
      exact ⟨hpending, hmax.trans hlimit⟩

/-- Whatever was called before: a clause of admissible length is refused without any change in every
order of its literals until the filter is emptied; the first clause of admissible length after a request
to clear meets the empty filter; and a clause above the limit changes nothing. -/
theorem registered_clauses_are_refused (maxClauseLen : Int) (before : List Call) :
    (∀ lits lits' between, ¬((new maxClauseLen).calls before).Blocks lits → lits.Perm lits' →
      (((new maxClauseLen).calls before).registerClause lits).1.NeverClears
        (between ++ [.registerClause lits']) →
      ((((new maxClauseLen).calls before).registerClause lits).1.calls between).registerClause lits' =
        ((((new maxClauseLen).calls before).registerClause lits).1.calls between, false)) ∧
    (∀ lits between, (∀ lits', Call.registerClause lits' ∈ between →
        ((new maxClauseLen).calls before).Blocks lits') →
      ¬((new maxClauseLen).calls before).Blocks lits →
      (((new maxClauseLen).calls before).setClear.calls between).registerClause lits =
        (new maxClauseLen).registerClause lits) ∧
    ∀ lits, ((new maxClauseLen).calls before).Blocks lits →
      ((new maxClauseLen).calls before).registerClause lits = ((new maxClauseLen).calls before, false) := by
  refine ⟨fun lits lits' between hb hperm hnever => ?_, fun lits between hblocked hb => ?_,
    fun lits => registerClause_blocked⟩
  · obtain ⟨hbetween, hlast⟩ := neverClears_append hnever
    have hknows := (knows_registerClause hb).calls hbetween
    exact (hknows.perm hperm).registerClause hlast
  · obtain ⟨hset, hmax⟩ := calls_pending (f := ((new maxClauseLen).calls before).setClear) between rfl hblocked
    have hlimit : (((new maxClauseLen).calls before).setClear.calls between).maxClauseLength = maxClauseLen :=
      hmax.trans (calls_maxClauseLength before)
    have hempty : ((new maxClauseLen).calls before).maxClauseLength = maxClauseLen :=
      calls_maxClauseLength before
    have hadmissible : ¬(new maxClauseLen).Blocks lits := by
      rwa [Blocks, hempty] at hb
    have hpending : ¬(((new maxClauseLen).calls before).setClear.calls between).Blocks lits := by
      rwa [Blocks, hlimit]
    rw [registerClause_admissible hadmissible, registerClause_admissible hpending, takeClear_of_clearSet hset,
      takeClear_of_not_clearSet rfl, hlimit]
    rfl

theorem registered_clauses_are_refused_example :
    (((new 3).registerClause [1, -2]).1.calls [.registerClause [3], .registerClause [4, 5, 6, 7]]).registerClause
        [-2, 1] =
      (((new 3).registerClause [1, -2]).1.calls [.registerClause [3], .registerClause [4, 5, 6, 7]], false) ∧
    ((new 3).setClear.calls [.registerClause [4, 5, 6, 7], .clear]).registerClause [1] = (new 3).registerClause [1] ∧
    (new 3).registerClause [4, 5, 6, 7] = (new 3, false) := by
  obtain ⟨hknown, hcleared, hblocked⟩ := registered_clauses_are_refused 3 []
  refine ⟨hknown [1, -2] [-2, 1] _ (by decide) (by decide) ?_, hcleared [1] _ ?_ (by decide),
    hblocked _ (by decide)⟩
  · apply neverClears_registrations _ [[3], [4, 5, 6, 7], [-2, 1]]
    exact registerClause_clearSet rfl [1, -2]
  · simp [Blocks, new, calls]

end ClauseFilter

end Mallob.Sharing
