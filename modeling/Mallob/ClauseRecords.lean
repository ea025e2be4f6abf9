import Mallob.ClauseBuffer
import Mallob.Runs

namespace Mallob.Sharing.ClauseRecords

inductive ClauseRingBuffer where
  | uniformSize (clauseSize : Nat) (pos : 0 < clauseSize)
  | uniform (clauseSize : Nat) (pos : 0 < clauseSize)
  | mixedNonunit
deriving DecidableEq

inductive Item where
  | clause (c : Clause)
  | ints (xs : List Int)
deriving DecidableEq

/-- The ring buffer as the library hands it out, in batches of whole productions, with the integers of the
batch that are not consumed yet. The items of this part of the batch, the items that were stored and the
records that were returned are not part of the program. -/
structure RingBuffer where
  produced : List (Item × List Int) := []
  consumedBuffer : List Int := []
  batch : List (Item × List Int) := []
  stored : List Item := []
  returned : List (List Int) := []
deriving DecidableEq

inductive Fault where
  | clauseSize
  | startNegative
  | zeroAtStart
deriving DecidableEq

def record (data : List Int) (prefixOrZero : Int) (appendZero : Bool) : List Int :=
  (if prefixOrZero ≠ 0 then [prefixOrZero] else []) ++ data ++ (if appendZero then [0] else [])

def produce (b : RingBuffer) (item : Item) (ints : List Int) (room : Bool) : RingBuffer :=
  if room then { b with produced := b.produced ++ [(item, ints)], stored := b.stored ++ [item] } else b

def fetch (b : RingBuffer) (count : Nat) : RingBuffer :=
  if b.consumedBuffer = [] then
    { b with
      produced := b.produced.drop count
      batch := b.produced.take count
      consumedBuffer := ((b.produced.take count).map Prod.snd).flatten }
  else b

def scanBack (buffer : List Int) : Nat → Nat
  | 0 => 0
  | start + 1 => if buffer.getD start 0 ≠ 0 then scanBack buffer start else start + 1

def take (b : RingBuffer) (start : Nat) : RingBuffer :=
  { b with
    consumedBuffer := b.consumedBuffer.take start
    batch := b.batch.dropLast
    returned := b.returned ++ [b.consumedBuffer.drop start] }

def consume (b : RingBuffer) (sizeOrZero : Nat) (count : Nat) : Except Fault RingBuffer :=
  let b := fetch b count
  if b.consumedBuffer = [] then .ok b
  else if 0 < sizeOrZero then
    if b.consumedBuffer.length < sizeOrZero then .error .startNegative
    else .ok (take b (b.consumedBuffer.length - sizeOrZero))
  else
    let start := scanBack b.consumedBuffer (b.consumedBuffer.length - 1)
    if b.consumedBuffer.getD start 0 = 0 then .error .zeroAtStart else .ok (take b start)

namespace ClauseRingBuffer

def insertUniformSize (b : RingBuffer) (clauseSize : Nat) (c : Clause) (room : Bool) : Except Fault RingBuffer :=
  if c.size = clauseSize then .ok (produce b (.clause c) (record c.lits c.lbd false) room) else .error .clauseSize

def insertUniform (b : RingBuffer) (clauseSize : Nat) (c : Clause) (room : Bool) : Except Fault RingBuffer :=
  if c.size = clauseSize then .ok (produce b (.clause c) (record c.lits 0 false) room) else .error .clauseSize

def insertMixed (b : RingBuffer) (c : Clause) (room : Bool) : RingBuffer :=
  produce b (.clause c) (record c.lits c.lbd true) room

def insertMixedInts (b : RingBuffer) (xs : List Int) (room : Bool) : RingBuffer :=
  produce b (.ints xs) (record xs 0 true) room

def recordSize : ClauseRingBuffer → Nat
  | .uniformSize clauseSize _ => clauseSize + 1
  | .uniform clauseSize _ => clauseSize
  | .mixedNonunit => 0

def getClause (kind : ClauseRingBuffer) (b : RingBuffer) (count : Nat) : Except Fault RingBuffer :=
  consume b kind.recordSize count

end ClauseRingBuffer

/-- Clauses without a zero are inserted where there is room, and getClause may fetch some productions. -/
inductive Action where
  | insertClause (c : Clause) (lits_ne : 0 ∉ c.lits) (room : Bool)
  | insertInts (xs : List Int) (room : Bool)
  | getClause (count : Nat)

open ClauseRingBuffer in
def step (kind : ClauseRingBuffer) (b : RingBuffer) : Action → Except Fault RingBuffer
  | .insertClause c _ room =>
      match kind with
      | .uniformSize clauseSize _ => insertUniformSize b clauseSize c room
      | .uniform clauseSize _ => insertUniform b clauseSize c room
      | .mixedNonunit => .ok (insertMixed b c room)
  | .insertInts xs room => .ok (if kind = .mixedNonunit then insertMixedInts b xs room else b)
  | .getClause count => kind.getClause b count

/-- The record of an item: the LBD value where the layout has one, the literals and, in a mixed buffer, a
separating zero. -/
def layout : ClauseRingBuffer → Item → List Int
  | .uniformSize _ _, .clause c => c.lbd :: c.lits
  | .uniform _ _, .clause c => c.lits
  | .mixedNonunit, .clause c => c.lbd :: c.lits ++ [0]
  | _, .ints xs => xs ++ [0]

/-- The call returns exactly the record of the last item of its batch, if there is one, and leaves the others. -/
def Intact (kind : ClauseRingBuffer) (b : RingBuffer) : Action → Prop
  | .getClause count => ∃ b', kind.getClause b count = .ok b' ∧
      b'.returned = b.returned ++ ((fetch b count).batch.getLast?.map fun p => layout kind p.1).toList ∧
      b'.batch = (fetch b count).batch.dropLast ∧ b'.consumedBuffer = (b'.batch.map Prod.snd).flatten ∧
      b'.produced = (fetch b count).produced
  | _ => True

/-- An item has an LBD value other than zero where the layout has one, and no zero among its integers. -/
def Legible : ClauseRingBuffer → Item → Prop
  | .uniformSize _ _, .clause c => c.lbd ≠ 0
  | .mixedNonunit, .clause c => c.lbd ≠ 0
  | .mixedNonunit, .ints xs => xs ≠ [] ∧ 0 ∉ xs
  | _, _ => True

def MeetsLegible (kind : ClauseRingBuffer) (b : RingBuffer) : Action → Prop
  | .getClause count => ∀ p ∈ (fetch b count).batch.getLast?, Legible kind p.1
  | _ => True

def encode : ClauseRingBuffer → Item → List Int
  | .uniformSize _ _, .clause c => record c.lits c.lbd false
  | .uniform _ _, .clause c => record c.lits 0 false
  | .mixedNonunit, .clause c => record c.lits c.lbd true
  | .mixedNonunit, .ints xs => record xs 0 true
  | _, .ints _ => []

def Fits : ClauseRingBuffer → Item → Prop
  | .uniformSize clauseSize _, .clause c => c.size = clauseSize
  | .uniform clauseSize _, .clause c => c.size = clauseSize
  | .mixedNonunit, .clause c => 0 ∉ c.lits
  | .mixedNonunit, .ints _ => True
  | _, .ints _ => False

def Whole : ClauseRingBuffer → List Int → Prop
  | .mixedNonunit, ints => ∃ xs, ints = xs ++ [0] ∧ xs ≠ [] ∧ 0 ∉ xs
  | kind, ints => ints.length = kind.recordSize

structure Sound (kind : ClauseRingBuffer) (b : RingBuffer) : Prop where
  consumed : b.consumedBuffer = (b.batch.map Prod.snd).flatten
  produced : ∀ p ∈ b.produced, Fits kind p.1 ∧ p.2 = encode kind p.1
  batch : ∀ p ∈ b.batch, Fits kind p.1 ∧ p.2 = encode kind p.1

section Records

variable {kind : ClauseRingBuffer} {item : Item}

theorem whole_mixed_iff {xs : List Int} : Whole .mixedNonunit (xs ++ [0]) ↔ xs ≠ [] ∧ 0 ∉ xs := by
  constructor
  · rintro ⟨ys, heq, hys⟩
    rwa [List.append_cancel_right heq]
  · exact fun h => ⟨xs, rfl, h⟩

/-- What is stored is the record, and it is taken for one, exactly for the legible items. -/
theorem whole_encode_iff (hfits : Fits kind item) :
    Whole kind (encode kind item) ∧ encode kind item = layout kind item ↔ Legible kind item := by
  cases kind with
  | uniformSize clauseSize pos =>
      cases item with
      | ints xs => exact hfits.elim
      | clause c =>
          have hsize : c.lits.length = clauseSize := hfits
          by_cases hlbd : c.lbd = 0
          · simp [Whole, Legible, encode, record, ClauseRingBuffer.recordSize, hlbd, hsize]
          · simp [Whole, Legible, encode, record, layout, ClauseRingBuffer.recordSize, hlbd, hsize]
  | uniform clauseSize pos =>
      cases item with
      | ints xs => exact hfits.elim
      | clause c =>
          have hsize : c.lits.length = clauseSize := hfits
          simp [Whole, Legible, encode, record, layout, ClauseRingBuffer.recordSize, hsize]
  | mixedNonunit =>
      cases item with
      | ints xs =>
          have hrecord : encode .mixedNonunit (.ints xs) = xs ++ [0] := rfl
          rw [hrecord, whole_mixed_iff]
          simp [Legible, layout]
      | clause c =>
          have hzero : 0 ∉ c.lits := hfits
          have hrecord : encode .mixedNonunit (.clause c) = (if c.lbd ≠ 0 then [c.lbd] else []) ++ c.lits ++ [0] :=
            rfl
          rw [hrecord, whole_mixed_iff]
          by_cases hlbd : c.lbd = 0
          · have hlength : c.lits ++ [0] ≠ 0 :: (c.lits ++ [0]) := by
              intro heq
              simpa using congrArg List.length heq
            simp [Legible, layout, hlbd, hlength]
          · simp [Legible, layout, hlbd, hzero, Ne.symm hlbd]

theorem encode_ne_nil (hfits : Fits kind item) : encode kind item ≠ [] := by
  cases kind with
  | uniformSize clauseSize pos =>
      cases item with
      | ints xs => exact hfits.elim
      | clause c =>
          have hsize : c.lits.length = clauseSize := hfits
          have hne : c.lits ≠ [] := List.ne_nil_of_length_pos (hsize ▸ pos)
          simp [encode, record, hne]
  | uniform clauseSize pos =>
      cases item with
      | ints xs => exact hfits.elim
      | clause c =>
          have hsize : c.lits.length = clauseSize := hfits
          have hne : c.lits ≠ [] := List.ne_nil_of_length_pos (hsize ▸ pos)
          simp [encode, record, hne]
  | mixedNonunit =>
      cases item with
      | ints xs => simp [encode, record]
      | clause c => simp [encode, record]

end Records

section Scanning

variable {buffer : List Int}

/-- The position is reached over numbers other than zero, and there is a zero before it or nothing. -/
theorem scanBack_spec (buffer : List Int) (start : Nat) : scanBack buffer start ≤ start ∧
    (∀ i, scanBack buffer start ≤ i → i < start → buffer.getD i 0 ≠ 0) ∧
    (scanBack buffer start = 0 ∨ buffer.getD (scanBack buffer start - 1) 0 = 0) := by
  induction start with
  | zero => exact ⟨le_rfl, fun i _ hi => absurd hi (Nat.not_lt_zero i), Or.inl rfl⟩
  | succ start ih =>
      rw [scanBack]
      split
      · next hne =>
          obtain ⟨hle, hbetween, hstop⟩ := ih
          refine ⟨hle.trans (Nat.le_succ start), fun i hi hlt => ?_, hstop⟩
          rcases (Nat.lt_succ_iff.mp hlt).eq_or_lt with rfl | hlt
          · exact hne
          · exact hbetween i hi hlt
      · next hzero =>
          exact ⟨le_rfl, fun i hi hlt => absurd hlt (not_lt.mpr hi), Or.inr (not_not.mp hzero)⟩

theorem scanBack_eq {start m : Nat} (hm : m ≤ start) (hbetween : ∀ i, m ≤ i → i < start → buffer.getD i 0 ≠ 0)
    (hstop : m = 0 ∨ buffer.getD (m - 1) 0 = 0) : scanBack buffer start = m := by
  obtain ⟨hle, hbetween', hstop'⟩ := scanBack_spec buffer start
  rcases Nat.lt_trichotomy (scanBack buffer start) m with hlt | heq | hlt
  · rcases hstop with rfl | hzero
    · exact absurd hlt (Nat.not_lt_zero _)
    · exact absurd hzero (hbetween' (m - 1) (by omega) (by omega))
  · exact heq
  · rcases hstop' with hzero | hzero
    · omega
    · exact absurd hzero (hbetween _ (by omega) (by omega))

end Scanning

section Reading

variable {kind : ClauseRingBuffer} {b b' : RingBuffer} {rest ints : List Int}

/-- From a buffer that ends with a record of the size that is looked for, exactly this record is taken. -/
theorem fixed_iff {size : Nat} (hsize : 0 < size) (hne : ints ≠ []) (count : Nat)
    (hconsumed : (fetch b count).consumedBuffer = rest ++ ints) :
    (∃ b', consume b size count = .ok b' ∧ b'.returned = (fetch b count).returned ++ [ints] ∧
      b'.consumedBuffer = rest) ↔ ints.length = size := by
  have hnonempty : (fetch b count).consumedBuffer ≠ [] := by simp [hconsumed, hne]
  rw [consume]
  dsimp only
  rw [if_neg hnonempty, if_pos hsize]
  constructor
  · rintro ⟨b', hok, hreturned, -⟩
    split at hok
    · cases hok
    · next hlength =>
        obtain rfl := Except.ok.inj hok
        have heq := List.append_cancel_left hreturned
        have hlast := congrArg List.length (List.singleton_injective heq)
        rw [List.length_drop] at hlast
        omega
  · intro hlength
    have hfits : ¬ (fetch b count).consumedBuffer.length < size := by
      rw [hconsumed, List.length_append]
      omega
    have hstart : (fetch b count).consumedBuffer.length - size = rest.length := by
      rw [hconsumed, List.length_append]
      omega
    rw [if_neg hfits]
    refine ⟨_, rfl, ?_, ?_⟩
    · rw [take, hstart, hconsumed, List.drop_left]
    · rw [take, hstart, hconsumed, List.take_left]

theorem getD_record {xs : List Int} {i : Nat} (hi : i ≤ xs.length) :
    (rest ++ (xs ++ [0])).getD (rest.length + i) 0 = xs.getD i 0 := by
  rw [List.getD_append_right _ _ _ _ (Nat.le_add_right _ _), Nat.add_sub_cancel_left]
  rcases hi.eq_or_lt with rfl | hlt
  · simp
  · rw [List.getD_append _ _ _ _ hlt]

/-- From a buffer that ends with a record, exactly this record is taken if it has its only zero at its end and
something before it. -/
theorem mixed_iff {xs : List Int} (count : Nat) (hrest : rest = [] ∨ rest.getLast? = some 0)
    (hconsumed : (fetch b count).consumedBuffer = rest ++ (xs ++ [0])) :
    (∃ b', consume b 0 count = .ok b' ∧ b'.returned = (fetch b count).returned ++ [xs ++ [0]] ∧
      b'.consumedBuffer = rest) ↔ xs ≠ [] ∧ 0 ∉ xs := by
  have hnonempty : (fetch b count).consumedBuffer ≠ [] := by simp [hconsumed]
  have hlast : (rest ++ (xs ++ [0])).length - 1 = rest.length + xs.length := by simp
  rw [consume]
  dsimp only
  rw [if_neg hnonempty, if_neg (lt_irrefl 0), hconsumed, hlast]
  constructor
  · rintro ⟨b', hok, hreturned, -⟩
    obtain ⟨hle, hbetween, -⟩ := scanBack_spec (rest ++ (xs ++ [0])) (rest.length + xs.length)
    split at hok
    · cases hok
    · next hstart =>
        obtain rfl := Except.ok.inj hok
        have heq := List.singleton_injective (List.append_cancel_left hreturned)
        have hlength := congrArg List.length heq
        simp only [hconsumed, List.length_drop, List.length_append, List.length_singleton] at hlength
        have hposition : scanBack (rest ++ (xs ++ [0])) (rest.length + xs.length) = rest.length := by omega
        constructor
        · rintro rfl
          rw [hposition] at hstart
          simp at hstart
        · intro hmem
          obtain ⟨i, hi, hzero⟩ := List.getElem_of_mem hmem
          apply hbetween (rest.length + i) (by omega) (by omega)
          rw [getD_record hi.le, List.getD_eq_getElem _ _ hi, hzero]
  · rintro ⟨hne, hzero⟩
    have hlength : 0 < xs.length := List.length_pos_of_ne_nil hne
    have helement : ∀ i < xs.length, (rest ++ (xs ++ [0])).getD (rest.length + i) 0 ≠ 0 := by
      intro i hi heq
      rw [getD_record hi.le, List.getD_eq_getElem _ _ hi] at heq
      exact hzero (heq ▸ List.getElem_mem hi)
    have hposition : scanBack (rest ++ (xs ++ [0])) (rest.length + xs.length) = rest.length := by
      refine scanBack_eq (Nat.le_add_right _ _) (fun i hi hlt => ?_) ?_
      · have hsum : i = rest.length + (i - rest.length) := by omega
        rw [hsum]
        exact helement _ (by omega)
      · rcases hrest with rfl | hend
        · exact Or.inl rfl
        · right
          have hpos : 0 < rest.length := by
            cases rest with
            | nil => cases hend
            | cons x rest => exact Nat.succ_pos _
          rw [List.getD_append _ _ _ _ (by omega), List.getD_eq_getElem?_getD, ← List.getLast?_eq_getElem?, hend]
          rfl
    have hstart : (rest ++ (xs ++ [0])).getD rest.length 0 ≠ 0 := helement 0 hlength
    rw [hposition, if_neg hstart]
    refine ⟨_, rfl, ?_, ?_⟩
    · rw [take, hconsumed, List.drop_left]
    · rw [take, hconsumed, List.take_left]

theorem consume_cases {size count : Nat} (hok : consume b size count = .ok b') :
    (fetch b count).consumedBuffer = [] ∧ b' = fetch b count ∨
      (fetch b count).consumedBuffer ≠ [] ∧ ∃ start, b' = take (fetch b count) start := by
  rw [consume] at hok
  dsimp only at hok
  split at hok
  · next hnil => exact Or.inl ⟨hnil, (Except.ok.inj hok).symm⟩
  · next hne =>
      refine Or.inr ⟨hne, ?_⟩
      split at hok
      · split at hok
        · cases hok
        · exact ⟨_, (Except.ok.inj hok).symm⟩
      · split at hok
        · cases hok
        · exact ⟨_, (Except.ok.inj hok).symm⟩

/-- Records of a mixed buffer end with a zero, so that a buffer of such records does. -/
theorem ends_with_zero {items : List (Item × List Int)}
    (hitems : ∀ p ∈ items, p.2 = encode .mixedNonunit p.1) :
    (items.map Prod.snd).flatten = [] ∨ (items.map Prod.snd).flatten.getLast? = some 0 := by
  rcases List.eq_nil_or_concat items with rfl | ⟨init, p, rfl⟩
  · exact Or.inl rfl
  · have hp := hitems p (by simp)
    right
    cases hitem : p.1 with
    | clause c => simp [hp, hitem, encode, record]
    | ints xs => simp [hp, hitem, encode, record]

end Reading

namespace Sound

variable {kind : ClauseRingBuffer} {b b' : RingBuffer}

theorem fetch (h : Sound kind b) (count : Nat) : Sound kind (fetch b count) := by
  rw [ClauseRecords.fetch]
  split
  · exact {
      consumed := rfl
      produced := fun p hp => h.produced p (List.mem_of_mem_drop hp)
      batch := fun p hp => h.produced p (List.mem_of_mem_take hp) }
  · exact h

theorem produce (h : Sound kind b) {item : Item} (hfits : Fits kind item) (room : Bool) :
    Sound kind (produce b item (encode kind item) room) := by
  rw [ClauseRecords.produce]
  split
  · exact {
      consumed := h.consumed
      produced := by
        intro p hp
        rcases List.mem_append.mp hp with hp | hp
        · exact h.produced p hp
        · obtain rfl := List.mem_singleton.mp hp
          exact ⟨hfits, rfl⟩
      batch := h.batch }
  · exact h

end Sound

section Calls

variable {kind : ClauseRingBuffer} {b b' : RingBuffer}

@[simp] theorem fetch_returned (b : RingBuffer) (count : Nat) : (fetch b count).returned = b.returned := by
  rw [fetch]
  split
  · rfl
  · rfl

/-- The reader takes the last record of the batch and nothing else exactly if this record is whole. -/
theorem getClause_iff (hb : Sound kind b) {count : Nat} {init : List (Item × List Int)} {p : Item × List Int}
    (hbatch : (fetch b count).batch = init ++ [p]) :
    (∃ b', kind.getClause b count = .ok b' ∧ b'.returned = (fetch b count).returned ++ [p.2] ∧
      b'.consumedBuffer = (init.map Prod.snd).flatten) ↔ Whole kind p.2 := by
  have hf := hb.fetch count
  obtain ⟨hfits, hp⟩ := hf.batch p (by simp [hbatch])
  have hconsumed : (fetch b count).consumedBuffer = (init.map Prod.snd).flatten ++ p.2 := by
    rw [hf.consumed, hbatch, List.map_append, List.flatten_append]
    simp
  have hne : p.2 ≠ [] := hp ▸ encode_ne_nil hfits
  cases kind with
  | uniformSize clauseSize pos => exact fixed_iff (Nat.succ_pos clauseSize) hne count hconsumed
  | uniform clauseSize pos => exact fixed_iff pos hne count hconsumed
  | mixedNonunit =>
      obtain ⟨xs, hxs⟩ : ∃ xs, p.2 = xs ++ [0] := by
        rw [hp]
        cases p.1 with
        | clause c => exact ⟨_, rfl⟩
        | ints xs => exact ⟨xs, rfl⟩
      have hrest : ∀ q ∈ init, q.2 = encode .mixedNonunit q.1 := fun q hq => (hf.batch q (by simp [hbatch, hq])).2
      rw [hxs] at hconsumed ⊢
      rw [whole_mixed_iff]
      exact mixed_iff count (ends_with_zero hrest) hconsumed

theorem intact_iff (hb : Sound kind b) (a : Action) : Intact kind b a ↔ MeetsLegible kind b a := by
  cases a with
  | insertClause c lits_ne room => exact Iff.rfl
  | insertInts xs room => exact Iff.rfl
  | getClause count =>
      have hf := hb.fetch count
      rcases List.eq_nil_or_concat (fetch b count).batch with hnil | ⟨init, p, hbatch⟩
      · have hconsumed : (fetch b count).consumedBuffer = [] := by rw [hf.consumed, hnil]; rfl
        have hok : kind.getClause b count = .ok (fetch b count) := by
          rw [ClauseRingBuffer.getClause, consume]
          exact if_pos hconsumed
        constructor
        · intro _ q hq
          simp [hnil] at hq
        · intro _
          refine ⟨_, hok, ?_, ?_, hf.consumed, rfl⟩
          · simp [hnil]
          · simp [hnil]
      · rw [List.concat_eq_append] at hbatch
        obtain ⟨hfits, hp⟩ := hf.batch p (by simp [hbatch])
        have hconsumed : (fetch b count).consumedBuffer = (init.map Prod.snd).flatten ++ p.2 := by
          rw [hf.consumed, hbatch, List.map_append, List.flatten_append]
          simp
        have hne : (fetch b count).consumedBuffer ≠ [] := by
          rw [hconsumed, hp]
          simp [encode_ne_nil hfits]
        have hlegible : MeetsLegible kind b (.getClause count) ↔ Legible kind p.1 := by
          rw [MeetsLegible, hbatch]
          simp
        rw [hlegible, ← whole_encode_iff hfits, ← hp, ← getClause_iff hb hbatch]
        constructor
        · rintro ⟨b', hok, hreturned, hbatch', hconsumed', -⟩
          rw [hbatch', hbatch, List.dropLast_concat] at hconsumed'
          rcases consume_cases hok with ⟨hnil, -⟩ | ⟨-, start, rfl⟩
          · exact absurd hnil hne
          · have htaken : (fetch b count).consumedBuffer.drop start = p.2 := by
              have hsplit := List.take_append_drop start (fetch b count).consumedBuffer
              rw [show (fetch b count).consumedBuffer.take start = _ from hconsumed', hconsumed] at hsplit
              exact hconsumed ▸ List.append_cancel_left hsplit
            have hlayout : p.2 = layout kind p.1 := by
              rw [hbatch] at hreturned
              have heq : [p.2] = [layout kind p.1] := by
                simpa [take, htaken] using hreturned
              exact List.singleton_injective heq
            refine ⟨⟨_, hok, ?_, hconsumed'⟩, hlayout⟩
            rw [take, htaken]
        · rintro ⟨⟨b', hok, hreturned, hconsumed'⟩, hlayout⟩
          rcases consume_cases hok with ⟨hnil, -⟩ | ⟨-, start, rfl⟩
          · exact absurd hnil hne
          · refine ⟨_, hok, ?_, rfl, ?_, rfl⟩
            · rw [hreturned, hbatch, hlayout]
              simp
            · rw [hconsumed', take, hbatch, List.dropLast_concat]

theorem Sound.batch_eq_nil (hb : Sound kind b) (hnil : b.consumedBuffer = []) : b.batch = [] := by
  cases hbatch : b.batch with
  | nil => rfl
  | cons p batch =>
      obtain ⟨hfits, hp⟩ := hb.batch p (by simp [hbatch])
      have hflatten : p.2 ++ (batch.map Prod.snd).flatten = [] := by
        rw [← hnil, hb.consumed, hbatch]
        rfl
      rw [hp] at hflatten
      exact absurd (List.append_eq_nil_iff.mp hflatten).1 (encode_ne_nil hfits)

/-- The call that inserts succeeds with the item that it is given, or fails for its size. -/
theorem step_insertClause {c : Clause} {lits_ne : 0 ∉ c.lits} {room : Bool}
    (hok : step kind b (.insertClause c lits_ne room) = .ok b') :
    Fits kind (.clause c) ∧ b' = produce b (.clause c) (encode kind (.clause c)) room := by
  cases kind with
  | uniformSize clauseSize pos =>
      rw [step, ClauseRingBuffer.insertUniformSize] at hok
      split at hok
      · next hsize => exact ⟨hsize, (Except.ok.inj hok).symm⟩
      · cases hok
  | uniform clauseSize pos =>
      rw [step, ClauseRingBuffer.insertUniform] at hok
      split at hok
      · next hsize => exact ⟨hsize, (Except.ok.inj hok).symm⟩
      · cases hok
  | mixedNonunit => exact ⟨lits_ne, (Except.ok.inj hok).symm⟩

theorem step_insertInts {xs : List Int} {room : Bool} (hok : step kind b (.insertInts xs room) = .ok b') :
    b' = b ∨ Fits kind (.ints xs) ∧ b' = produce b (.ints xs) (encode kind (.ints xs)) room := by
  rw [step] at hok
  obtain rfl := Except.ok.inj hok
  split
  · next hkind =>
      subst hkind
      exact Or.inr ⟨trivial, rfl⟩
  · exact Or.inl rfl

theorem Sound.step (hb : Sound kind b) {a : Action} (hintact : Intact kind b a) (hok : step kind b a = .ok b') :
    Sound kind b' := by
  cases a with
  | insertClause c lits_ne room =>
      obtain ⟨hfits, rfl⟩ := step_insertClause hok
      exact hb.produce hfits room
  | insertInts xs room =>
      rcases step_insertInts hok with rfl | ⟨hfits, rfl⟩
      · exact hb
      · exact hb.produce hfits room
  | getClause count =>
      obtain ⟨b₂, hok₂, -, hbatch, hconsumed, hproduced⟩ := hintact
      obtain rfl := Except.ok.inj (hok₂.symm.trans hok)
      have hf := hb.fetch count
      exact {
        consumed := hconsumed
        produced := fun p hp => hf.produced p (hproduced ▸ hp)
        batch := fun p hp => hf.batch p (List.mem_of_mem_dropLast (hbatch ▸ hp)) }

def Conserved (kind : ClauseRingBuffer) (b : RingBuffer) : Prop :=
  (b.returned ++ (b.batch ++ b.produced).map fun p => layout kind p.1).Perm (b.stored.map (layout kind))

theorem Conserved.produce (h : Conserved kind b) (item : Item) (ints : List Int) (room : Bool) :
    Conserved kind (produce b item ints room) := by
  rw [ClauseRecords.produce]
  split
  · have hitem := List.Perm.append_right [layout kind item] h
    simpa [Conserved] using hitem
  · exact h

theorem Conserved.fetch (hb : Sound kind b) (h : Conserved kind b) (count : Nat) :
    Conserved kind (fetch b count) := by
  rw [ClauseRecords.fetch]
  split
  · next hnil =>
      rw [Conserved, hb.batch_eq_nil hnil, List.nil_append] at h
      rw [Conserved]
      dsimp only
      rwa [List.take_append_drop]
  · exact h

theorem Conserved.step (hb : Sound kind b) (h : Conserved kind b) {a : Action} (hintact : Intact kind b a)
    (hok : step kind b a = .ok b') : Conserved kind b' := by
  cases a with
  | insertClause c lits_ne room =>
      obtain ⟨-, rfl⟩ := step_insertClause hok
      exact h.produce _ _ room
  | insertInts xs room =>
      rcases step_insertInts hok with rfl | ⟨-, rfl⟩
      · exact h
      · exact h.produce _ _ room
  | getClause count =>
      have hf := Conserved.fetch hb h count
      obtain ⟨b₂, hok₂, hreturned, hbatch, -, hproduced⟩ := hintact
      obtain rfl := Except.ok.inj (hok₂.symm.trans hok)
      have hstored : b₂.stored = (ClauseRecords.fetch b count).stored := by
        rcases consume_cases hok₂ with ⟨-, rfl⟩ | ⟨-, start, rfl⟩
        · rfl
        · rfl
      rw [Conserved, hstored]
      refine List.Perm.trans ?_ hf
      rw [hreturned, hbatch, hproduced, fetch_returned, List.append_assoc]
      refine List.Perm.append_left _ ?_
      rcases List.eq_nil_or_concat (ClauseRecords.fetch b count).batch with hnil | ⟨init, p, hconcat⟩
      · simp [hnil]
      · rw [hconcat, List.concat_eq_append, List.getLast?_concat, List.dropLast_concat]
        simp only [Option.map_some, Option.toList_some, List.map_append, List.map_cons, List.map_nil]
        rw [← List.append_assoc]
        exact List.perm_append_comm.append_right _

end Calls

theorem sound_nil (kind : ClauseRingBuffer) : Sound kind {} where
  consumed := rfl
  produced := by simp
  batch := by simp

/-- Every getClause returns exactly one record that was stored, whatever is inserted before it, if and only if
none meets an item at the end of its batch that is stored without the LBD value that its layout has or with a
zero among its integers; no record is then returned more often than it was stored. -/
theorem records_intact_iff (kind : ClauseRingBuffer) (actions : List Action) :
    (Runs.Throughout (step kind) (Intact kind) {} actions ↔
      Runs.Throughout (step kind) (MeetsLegible kind) {} actions) ∧
    (Runs.Throughout (step kind) (Intact kind) {} actions → ∀ b, Runs.run (step kind) {} actions = .ok b →
      (b.returned ++ (b.batch ++ b.produced).map fun p => layout kind p.1).Perm (b.stored.map (layout kind))) := by
  constructor
  · refine Runs.throughout_congr (J := Sound kind) (fun b a hb => intact_iff hb a) ?_ (sound_nil kind) actions
    exact fun b a b' hb hlegible hok => hb.step ((intact_iff hb a).mpr hlegible) hok
  · intro hintact b hrun
    exact (hintact.invariant (P := fun b => Sound kind b ∧ Conserved kind b) ⟨sound_nil kind, List.Perm.nil⟩
      (fun b a b' hb ha hok => ⟨hb.1.step ha hok, hb.2.step hb.1 ha hok⟩) hrun).2

/-- Of two clauses with two literals the one stored last has the LBD value 0, and its record is read with a
literal of the other. Where it is the only one there is nothing to read before it, and a mixed buffer returns it
without an LBD value. -/
theorem not_always_intact :
    ¬ Runs.Throughout (step (.uniformSize 2 two_pos)) (Intact (.uniformSize 2 two_pos)) {}
      [.insertClause ⟨[1, 2], 2⟩ (by decide) true, .insertClause ⟨[3, 4], 0⟩ (by decide) true, .getClause 2] ∧
    ¬ Runs.Throughout (step (.uniformSize 2 two_pos)) (Intact (.uniformSize 2 two_pos)) {}
      [.insertClause ⟨[3, 4], 0⟩ (by decide) true, .getClause 1] ∧
    ¬ Runs.Throughout (step .mixedNonunit) (Intact .mixedNonunit) {}
      [.insertClause ⟨[3, 4], 0⟩ (by decide) true, .getClause 1] := by
  refine ⟨fun hintact => ?_, fun hintact => ?_, fun hintact => ?_⟩
  · obtain ⟨b', hok, hreturned, -⟩ := (hintact.2 _ rfl).2 _ rfl |>.1
    obtain rfl := Except.ok.inj hok
    exact absurd hreturned (by decide)
  · obtain ⟨b', hok, -⟩ := (hintact.2 _ rfl).1
    exact nomatch hok
  · obtain ⟨b', hok, hreturned, -⟩ := (hintact.2 _ rfl).1
    obtain rfl := Except.ok.inj hok
    exact absurd hreturned (by decide)

end Mallob.Sharing.ClauseRecords
