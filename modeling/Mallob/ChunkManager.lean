import Mathlib

namespace Mallob.Sharing

inductive DatabaseFault where
  | indexOutOfRange
  | noFreeState
  | nullChunk
  | sizeMismatch
  | zeroLiteral
  | compatibleAfterSuccess
  | unfinished
deriving DecidableEq

/-- A position holds a chunk where its state is valid, and none where its state is invalid; chunks
are named by their addresses. -/
structure ChunkManager where
  chunks : List (Option Nat)
  numAllocatable : Nat
  numAvailable : Nat := 0
deriving DecidableEq

namespace ChunkManager

def new (numChunks : Nat) : ChunkManager where
  chunks := List.replicate numChunks none
  numAllocatable := numChunks

def search (next : Nat → Nat) (wanted : Option Nat → Bool) (chunks : List (Option Nat)) :
    Nat → Nat → Except DatabaseFault Nat
  | 0, _ => .error .noFreeState
  | fuel + 1, idx =>
      match chunks[idx]? with
      | none => .error .indexOutOfRange
      | some chunk => if wanted chunk then .ok idx else search next wanted chunks fuel (next idx)

def nextDown (size idx : Nat) : Nat := if idx = 0 then size - 1 else idx - 1

def nextUp (size idx : Nat) : Nat := if size ≤ idx + 1 then 0 else idx + 1

def doInsert (m : ChunkManager) (chunkData : Nat) : Except DatabaseFault ChunkManager := do
  let idx ← search (nextUp m.chunks.length) Option.isNone m.chunks m.chunks.length m.numAvailable
  return { m with chunks := m.chunks.set idx (some chunkData), numAvailable := m.numAvailable + 1 }

def insertChunk (m : ChunkManager) (data : Nat) : Except DatabaseFault ChunkManager := m.doInsert data

def tryToAllocateChunk (m : ChunkManager) : Except DatabaseFault ChunkManager :=
  if m.numAllocatable = 0 then .ok m
  else doInsert { m with numAllocatable := m.numAllocatable - 1 } (m.chunks.length - m.numAllocatable)

def takeChunk (m : ChunkManager) : Except DatabaseFault (Option Nat × ChunkManager) :=
  if m.numAvailable = 0 then .ok (none, m)
  else do
    let idx ← search (nextDown m.chunks.length) Option.isSome m.chunks m.chunks.length (m.numAvailable - 1)
    match m.chunks.getD idx none with
    | none => .error .nullChunk
    | some chunk =>
        return (some chunk, { m with chunks := m.chunks.set idx none, numAvailable := m.numAvailable - 1 })

def getChunkOrNullptr (m : ChunkManager) : Except DatabaseFault (Option Nat × ChunkManager) :=
  (if m.numAvailable = 0 then m.tryToAllocateChunk else .ok m).bind takeChunk

variable {m m' : ChunkManager} {n idx start : Nat} {chunks : List (Option Nat)} {wanted : Option Nat → Bool}

/-- A search that comes to every position finds one that is in the wanted state. -/
theorem search_ok {next : Nat → Nat} {fuel k : Nat} (hrange : ∀ i < chunks.length, next i < chunks.length)
    (hstart : start < chunks.length) (hk : k < fuel) (hfound : ∃ c, chunks[next^[k] start]? = some c ∧ wanted c) :
    ∃ idx c, search next wanted chunks fuel start = .ok idx ∧ chunks[idx]? = some c ∧ wanted c := by
  induction fuel generalizing start k with
  | zero => omega
  | succ fuel ih =>
      obtain ⟨c, hc⟩ : ∃ c, chunks[start]? = some c := ⟨_, List.getElem?_eq_getElem hstart⟩
      rw [search, hc]
      by_cases hw : wanted c = true
      · exact ⟨start, c, by simp [hw], hc, hw⟩
      · simp only [hw, Bool.false_eq_true, if_false]
        cases k with
        | zero =>
            obtain ⟨d, hd, hwd⟩ := hfound
            rw [Function.iterate_zero, id, hc] at hd
            obtain rfl := Option.some.inj hd
            exact absurd hwd hw
        | succ k => exact ih (hrange start hstart) (by omega) hfound

theorem nextDown_iterate {k : Nat} (hk : k ≤ start) : (nextDown n)^[k] start = start - k := by
  induction k with
  | zero => rfl
  | succ k ih =>
      rw [Function.iterate_succ_apply', ih (by omega), nextDown, if_neg (by omega)]
      omega

theorem nextUp_iterate {k : Nat} (hk : start + k < n) : (nextUp n)^[k] start = start + k := by
  induction k with
  | zero => rfl
  | succ k ih =>
      rw [Function.iterate_succ_apply', ih (by omega), nextUp, if_neg (by omega)]
      omega

/-- Going down from any position and on from the last one, every position is met. -/
theorem nextDown_covers (hstart : start < n) (hidx : idx < n) : ∃ k < n, (nextDown n)^[k] start = idx := by
  by_cases hle : idx ≤ start
  · exact ⟨start - idx, by omega, by rw [nextDown_iterate (by omega)]; omega⟩
  · refine ⟨(n - 1 - idx) + (1 + start), by omega, ?_⟩
    rw [Function.iterate_add_apply, Function.iterate_add_apply, nextDown_iterate le_rfl, Nat.sub_self,
      Function.iterate_one]
    have hlast : nextDown n 0 = n - 1 := if_pos rfl
    rw [hlast, nextDown_iterate (by omega)]
    omega

theorem nextUp_covers (hstart : start < n) (hidx : idx < n) : ∃ k < n, (nextUp n)^[k] start = idx := by
  by_cases hle : start ≤ idx
  · exact ⟨idx - start, by omega, by rw [nextUp_iterate (by omega)]; omega⟩
  · refine ⟨idx + (1 + (n - 1 - start)), by omega, ?_⟩
    have hlast : (nextUp n)^[n - 1 - start] start = start + (n - 1 - start) := nextUp_iterate (by omega)
    have hfirst : nextUp n (start + (n - 1 - start)) = 0 := if_pos (by omega)
    rw [Function.iterate_add_apply, Function.iterate_add_apply, hlast, Function.iterate_one, hfirst,
      nextUp_iterate (by omega), Nat.zero_add]

structure Sound (m : ChunkManager) : Prop where
  available : m.chunks.countP Option.isSome = m.numAvailable
  bounded : m.numAllocatable + m.numAvailable ≤ m.chunks.length

theorem sound_new (numChunks : Nat) : (new numChunks).Sound :=
  ⟨by simp [new], by simp [new]⟩

theorem countP_set {c d : Option Nat} (h : chunks[idx]? = some c) :
    (chunks.set idx d).countP Option.isSome + (if c.isSome then 1 else 0) =
      chunks.countP Option.isSome + if d.isSome then 1 else 0 := by
  induction chunks generalizing idx with
  | nil => simp at h
  | cons a chunks ih =>
      cases idx with
      | zero =>
          obtain rfl : a = c := by simpa using h
          simp only [List.set_cons_zero, List.countP_cons]
          omega
      | succ idx =>
          have := @ih idx (by simpa using h)
          simp only [List.set_cons_succ, List.countP_cons]
          omega

/-- There is always a free position for a chunk that is not in the manager. -/
theorem Sound.doInsert (h : m.Sound) (hfree : m.numAllocatable + m.numAvailable < m.chunks.length) (data : Nat) :
    ∃ m', m.doInsert data = .ok m' ∧ m'.Sound ∧ m'.chunks.length = m.chunks.length ∧
      m'.numAllocatable = m.numAllocatable ∧ m'.numAvailable = m.numAvailable + 1 := by
  obtain ⟨i, hi, hnone⟩ : ∃ i, ∃ hi : i < m.chunks.length, m.chunks[i] = none := by
    by_contra hall
    have hfull : m.chunks.countP Option.isSome = m.chunks.length := by
      rw [List.countP_eq_length]
      intro c hc
      obtain ⟨i, hi, rfl⟩ := List.getElem_of_mem hc
      exact Option.ne_none_iff_isSome.mp fun hnone => hall ⟨i, hi, hnone⟩
    have := h.available
    omega
  have hstart : m.numAvailable < m.chunks.length := by omega
  obtain ⟨k, hk, hreach⟩ := nextUp_covers hstart hi
  obtain ⟨idx, c, hsearch, hc, hwanted⟩ := @search_ok m.numAvailable m.chunks Option.isNone
    (nextUp m.chunks.length) m.chunks.length k
    (fun i hi => by rw [nextUp]; split <;> omega) hstart hk
    ⟨none, by rw [hreach, List.getElem?_eq_getElem hi, hnone], rfl⟩
  obtain rfl : c = none := Option.isNone_iff_eq_none.mp hwanted
  have hcount := countP_set (d := some data) hc
  simp only [Option.isSome_none, Bool.false_eq_true, if_false, Option.isSome_some, if_true, Nat.add_zero] at hcount
  refine ⟨{ m with chunks := m.chunks.set idx (some data), numAvailable := m.numAvailable + 1 },
    by rw [ChunkManager.doInsert, hsearch]; rfl, ⟨?_, ?_⟩, by simp, rfl, rfl⟩
  · simp only
    rw [hcount, h.available]
  · simp only [List.length_set]
    omega

theorem Sound.tryToAllocateChunk (h : m.Sound) (hnone : m.numAvailable = 0) :
    ∃ m', m.tryToAllocateChunk = .ok m' ∧ m'.Sound ∧ m'.chunks.length = m.chunks.length ∧
      m'.numAllocatable + m'.numAvailable = m.numAllocatable + m.numAvailable ∧
      (m'.numAvailable = 0 → m.numAllocatable = 0 ∧ m' = m) := by
  rw [ChunkManager.tryToAllocateChunk]
  split
  · next hzero => exact ⟨m, rfl, h, rfl, rfl, fun _ => ⟨hzero, rfl⟩⟩
  · next hpos =>
      have hbounded := h.bounded
      have hless : Sound { m with numAllocatable := m.numAllocatable - 1 } :=
        ⟨h.available, by simp only; omega⟩
      obtain ⟨m', hm', hsound, hlen, hall, hav⟩ := hless.doInsert (by simp only; omega)
        (m.chunks.length - m.numAllocatable)
      refine ⟨m', hm', hsound, hlen, ?_, fun hz => ?_⟩
      · rw [hall, hav]
        simp only
        omega
      · rw [hav] at hz
        omega

/-- A chunk is handed out as long as one is available or can be allocated. -/
theorem Sound.getChunkOrNullptr (h : m.Sound) :
    ∃ c m', m.getChunkOrNullptr = .ok (c, m') ∧ m'.Sound ∧ m'.chunks.length = m.chunks.length ∧
      (c = none → m' = m ∧ m.numAllocatable = 0 ∧ m.numAvailable = 0) ∧
      (c ≠ none → m'.numAllocatable + m'.numAvailable + 1 = m.numAllocatable + m.numAvailable) := by
  obtain ⟨m₁, hm₁, hsound, hlen, hsum, hempty⟩ : ∃ m₁,
      (if m.numAvailable = 0 then m.tryToAllocateChunk else .ok m) = .ok m₁ ∧ m₁.Sound ∧
      m₁.chunks.length = m.chunks.length ∧ m₁.numAllocatable + m₁.numAvailable = m.numAllocatable + m.numAvailable ∧
      (m₁.numAvailable = 0 → m.numAllocatable = 0 ∧ m₁ = m) := by
    by_cases hzero : m.numAvailable = 0
    · rw [if_pos hzero]
      exact h.tryToAllocateChunk hzero
    · rw [if_neg hzero]
      exact ⟨m, rfl, h, rfl, rfl, fun hz => absurd hz hzero⟩
  rw [ChunkManager.getChunkOrNullptr, hm₁, Except.bind, takeChunk]
  by_cases hzero : m₁.numAvailable = 0
  · rw [if_pos hzero]
    obtain ⟨hall, rfl⟩ := hempty hzero
    exact ⟨none, m₁, rfl, hsound, rfl, fun _ => ⟨rfl, hall, hzero⟩, fun hne => absurd rfl hne⟩
  · rw [if_neg hzero]
    obtain ⟨c, hc, hcsome⟩ := List.countP_pos_iff.mp (by rw [hsound.available]; omega)
    obtain ⟨i, hi, rfl⟩ := List.getElem_of_mem hc
    have hstart : m₁.numAvailable - 1 < m₁.chunks.length := by
      have := hsound.bounded
      omega
    obtain ⟨k, hk, hreach⟩ := nextDown_covers hstart hi
    obtain ⟨idx, d, hsearch, hd, hwanted⟩ := @search_ok (m₁.numAvailable - 1) m₁.chunks Option.isSome
      (nextDown m₁.chunks.length) m₁.chunks.length k
      (fun i hi => by rw [nextDown]; split <;> omega) hstart hk
      ⟨_, by rw [hreach, List.getElem?_eq_getElem hi], hcsome⟩
    obtain ⟨chunk, rfl⟩ := Option.isSome_iff_exists.mp hwanted
    have hcount := countP_set (d := none) hd
    simp only [Option.isSome_none, Bool.false_eq_true, if_false, Option.isSome_some, if_true, Nat.add_zero] at hcount
    have hget : m₁.chunks.getD idx none = some chunk := by rw [List.getD_eq_getElem?_getD, hd]; rfl
    have hbounded := hsound.bounded
    rw [hsearch]
    simp only [bind, Except.bind, hget]
    refine ⟨some chunk, _, rfl, ⟨?_, ?_⟩, by simpa using hlen, fun hne => absurd hne (by simp), fun _ => ?_⟩
    · have := hsound.available
      simp only
      omega
    · simp only [List.length_set]
      omega
    · simp only
      omega

end ChunkManager

end Mallob.Sharing
