import Mallob.MergedBuffers
import Mallob.PositionedReader
import Mallob.Runs

namespace Mallob.Sharing

section Checksums

def BufferReader.unchecked (r : BufferReader) : BufferReader := { r with useChecksum := false, hash := 1, trueHash := 1 }

namespace BufferReader

variable {r r' : BufferReader} {c : Option Clause}

theorem endReading_unchecked (h : r.endReading = .ok (c, r')) : r.unchecked.endReading = .ok (c, r'.unchecked) := by
  rw [endReading] at h
  split at h
  · cases h
  · obtain ⟨rfl, rfl⟩ := Prod.mk.inj (Except.ok.inj h)
    exact if_neg fun hchk => Bool.false_ne_true hchk.1

theorem readClause_unchecked {unread : List Int} (h : r.readClause unread = .ok (c, r')) :
    r.unchecked.readClause unread = .ok (c, r'.unchecked) := by
  have hsize : r.unchecked.effectiveClauseSize = r.effectiveClauseSize := rfl
  rw [readClause] at h ⊢
  rw [hsize]
  split at h
  · next hend =>
      rw [if_pos hend]
      exact endReading_unchecked h
  · next hfits =>
      split at h
      · cases h
      · next hne =>
          obtain ⟨rfl, rfl⟩ := Prod.mk.inj (Except.ok.inj h)
          rw [if_neg hfits, if_neg hne]
          rfl

theorem getNextIncomingClause_unchecked (h : r.getNextIncomingClause = .ok (c, r')) :
    r.unchecked.getNextIncomingClause = .ok (c, r'.unchecked) := by
  rw [getNextIncomingClause] at h ⊢
  have hunread : r.unchecked.unread = r.unread := rfl
  rw [hunread]
  cases hcurrent : r.unread with
  | none =>
      rw [hcurrent] at h
      obtain ⟨rfl, rfl⟩ := Prod.mk.inj (Except.ok.inj h)
      rfl
  | some unread =>
      rw [hcurrent] at h
      dsimp only at h ⊢
      by_cases hremaining : r.remainingClsOfBucket = 0
      · have hremaining' : r.unchecked.remainingClsOfBucket = 0 := hremaining
        rw [if_pos hremaining] at h
        rw [if_pos hremaining']
        have hnext : nextBucket r.unchecked.maxLbdPartitionedSize r.unchecked.bucket unread =
            nextBucket r.maxLbdPartitionedSize r.bucket unread := rfl
        rw [hnext]
        cases hbucket : nextBucket r.maxLbdPartitionedSize r.bucket unread with
        | none =>
            rw [hbucket] at h
            exact endReading_unchecked h
        | some next =>
            rw [hbucket] at h
            exact readClause_unchecked h
      · have hremaining' : ¬ r.unchecked.remainingClsOfBucket = 0 := hremaining
        rw [if_neg hremaining] at h
        rw [if_neg hremaining']
        exact readClause_unchecked h

theorem readClauses_unchecked {fuel : Nat} {cs : List Clause} (h : readClauses fuel r = .ok cs) :
    readClauses fuel r.unchecked = .ok cs := by
  induction fuel generalizing r cs with
  | zero => cases h
  | succ fuel ih =>
      rw [readClauses] at h ⊢
      split at h
      · cases h
      · next hd =>
          rw [getNextIncomingClause_unchecked hd]
          exact h
      · next hm =>
          rw [getNextIncomingClause_unchecked hm]
          obtain ⟨cs', hrest, rfl⟩ := Runs.exists_of_map_eq_ok h
          dsimp only
          rw [ih hrest]
          rfl

end BufferReader

theorem decode_unchecked {p : Nat} {chk : Bool} {buffer : List Int} {cs : List Clause}
    (h : decode p chk buffer = .ok cs) : decode p false buffer = .ok cs := by
  rw [decode, BufferReader.new] at h
  split at h
  · cases h
  · have hread := BufferReader.readClauses_unchecked h
    rw [decode, BufferReader.new, if_neg fun hchk => Bool.false_ne_true hchk.1]
    exact hread

end Checksums

namespace PositionedReader

variable {memory : Nat → Int} {r r' : PositionedReader} {n : Nat}

section Bounds

structure Inside (n : Nat) (r : PositionedReader) : Prop where
  size_eq : r.size = n
  accessed : ∀ i ∈ r.accessed, i < n

theorem Inside.new (memory : Nat → Int) (n p : Nat) : (new memory n p).Inside n where
  size_eq := rfl
  accessed := by
    intro i hi
    by_cases hn : n ≤ 2
    · simp [PositionedReader.new, hn] at hi
    · simp only [PositionedReader.new, hn, if_false, List.mem_singleton] at hi
      omega

theorem Inside.nextBucket (hr : r.Inside n) : (nextBucket memory r).Inside n := by
  fun_induction PositionedReader.nextBucket memory r with
  | case1 r _ => exact hr
  | case2 r _ _ => exact hr
  | case3 r _ hlt ih =>
      refine ih ⟨hr.size_eq, fun i hi => ?_⟩
      rcases List.mem_append.mp hi with hi | hi
      · exact hr.accessed i hi
      · rw [List.mem_singleton.mp hi, ← hr.size_eq]
        exact not_le.mp hlt

theorem Inside.readClause (hr : r.Inside n) {c : Option (Clause × Nat)} (h : readClause memory r = .ok (c, r')) :
    r'.Inside n := by
  rw [PositionedReader.readClause] at h
  split at h
  · obtain ⟨-, rfl⟩ := Prod.mk.inj (Except.ok.inj h)
    exact ⟨hr.size_eq, hr.accessed⟩
  next hfits =>
  split at h
  · cases h
  · obtain ⟨-, rfl⟩ := Prod.mk.inj (Except.ok.inj h)
    refine ⟨hr.size_eq, fun i hi => ?_⟩
    rcases List.mem_append.mp hi with hi | hi
    · exact hr.accessed i hi
    · have hlast := (List.mem_range'_1.mp hi).2
      rw [← hr.size_eq]
      exact hlast.trans_le (not_lt.mp hfits)

theorem Inside.getNextIncomingClause (hr : r.Inside n) {c : Option (Clause × Nat)}
    (h : getNextIncomingClause memory r = .ok (c, r')) : r'.Inside n := by
  rw [PositionedReader.getNextIncomingClause] at h
  split at h
  · obtain ⟨-, rfl⟩ := Prod.mk.inj (Except.ok.inj h)
    exact hr
  have hnext : (PositionedReader.nextBucket memory r).Inside n := hr.nextBucket
  split at h
  · dsimp only at h
    split at h
    · obtain ⟨-, rfl⟩ := Prod.mk.inj (Except.ok.inj h)
      exact ⟨hnext.size_eq, hnext.accessed⟩
    · have hupdated : (PositionedReader.nextBucket memory r).updateClauseData.Inside n :=
        ⟨hnext.size_eq, hnext.accessed⟩
      exact hupdated.readClause h
  · exact hr.readClause h

end Bounds

section Truncation

def cut (r : PositionedReader) (n : Nat) : PositionedReader := { r with size := n }

/-- Over the shorter buffer the next bucket with clauses is the same, unless it begins behind the cut. -/
theorem nextBucket_cut (memory : Nat → Int) (hn : n ≤ r.size) :
    nextBucket memory (r.cut n) = (nextBucket memory r).cut n ∨
      n < (nextBucket memory r).currentPos ∧ (nextBucket memory (r.cut n)).remainingClsOfBucket = 0 := by
  fun_induction nextBucket memory r with
  | case1 r hne =>
      have hne' : (r.cut n).remainingClsOfBucket ≠ 0 := hne
      left
      rw [nextBucket, if_pos hne']
  | case2 r hzero hend =>
      have hzero' : ¬ (r.cut n).remainingClsOfBucket ≠ 0 := hzero
      have hend' : (r.cut n).size ≤ (r.cut n).currentPos := hn.trans hend
      left
      rw [nextBucket, if_neg hzero', if_pos hend']
  | case3 r hzero hlt ih =>
      have hzero' : ¬ (r.cut n).remainingClsOfBucket ≠ 0 := hzero
      rw [nextBucket.eq_def memory (r.cut n), if_neg hzero']
      by_cases hcut : n ≤ r.currentPos
      · have hcut' : (r.cut n).size ≤ (r.cut n).currentPos := hcut
        rw [if_pos hcut']
        refine Or.inr ⟨?_, not_not.mp hzero⟩
        refine lt_of_lt_of_le ?_ (nextBucket_pos_le memory _)
        exact Nat.lt_succ_of_le hcut
      · have hcut' : ¬ (r.cut n).size ≤ (r.cut n).currentPos := hcut
        rw [if_neg hcut']
        exact ih hn

/-- Over the shorter buffer the reader does the same, unless it ends before a clause that ends behind the cut. -/
def Follows (result : Except ReadFault (Option (Clause × Nat) × PositionedReader)) (n : Nat)
    (c : Option (Clause × Nat)) (r' : PositionedReader) : Prop :=
  result = .ok (c, r'.cut n) ∧ (∀ x ∈ c, x.2 ≤ n) ∨ (∃ r₂, result = .ok (none, r₂)) ∧ ∀ x ∈ c, n < x.2

theorem readClause_cut (hn : n ≤ r.size) {c : Option (Clause × Nat)} (h : readClause memory r = .ok (c, r')) :
    Follows (readClause memory (r.cut n)) n c r' := by
  rw [readClause] at h
  rw [Follows, readClause]
  split at h
  · next hend =>
      have hend' : (r.cut n).size < (r.cut n).currentPos + (r.cut n).effectiveClauseSize := hn.trans_lt hend
      obtain ⟨rfl, rfl⟩ := Prod.mk.inj (Except.ok.inj h)
      rw [if_pos hend']
      exact Or.inl ⟨rfl, fun x hx => by cases hx⟩
  · split at h
    · cases h
    · next hne =>
      obtain ⟨rfl, rfl⟩ := Prod.mk.inj (Except.ok.inj h)
      by_cases hcut : n < r.currentPos + r.effectiveClauseSize
      · have hcut' : (r.cut n).size < (r.cut n).currentPos + (r.cut n).effectiveClauseSize := hcut
        rw [if_pos hcut']
        exact Or.inr ⟨⟨_, rfl⟩, fun x hx => Option.some.inj hx ▸ hcut⟩
      · have hcut' : ¬ (r.cut n).size < (r.cut n).currentPos + (r.cut n).effectiveClauseSize := hcut
        have hne' : memory (r.cut n).currentPos ≠ 0 := hne
        rw [if_neg hcut', if_neg hne']
        exact Or.inl ⟨rfl, fun x hx => Option.some.inj hx ▸ not_lt.mp hcut⟩

theorem getNextIncomingClause_cut (hr : r.Proper) (hn : n ≤ r.size) {c : Option (Clause × Nat)}
    (h : getNextIncomingClause memory r = .ok (c, r')) :
    Follows (getNextIncomingClause memory (r.cut n)) n c r' := by
  rw [getNextIncomingClause] at h
  rw [Follows, getNextIncomingClause]
  split at h
  · next hnull =>
      have hnull' : (r.cut n).isNull = true := hnull
      obtain ⟨rfl, rfl⟩ := Prod.mk.inj (Except.ok.inj h)
      rw [if_pos hnull']
      exact Or.inl ⟨rfl, fun x hx => by cases hx⟩
  next hnull =>
  have hnull' : ¬ (r.cut n).isNull = true := hnull
  rw [if_neg hnull']
  split at h
  · next hzero =>
      have hzero' : (r.cut n).remainingClsOfBucket = 0 := hzero
      rw [if_pos hzero']
      dsimp only at h ⊢
      obtain ⟨hproper, hsize, -, -⟩ := nextBucket_spec memory hr.bucket
      rcases nextBucket_cut memory hn with hsame | ⟨hbehind, hend⟩
      · rw [hsame]
        split at h
        · next hend =>
            have hend' : ((nextBucket memory r).cut n).remainingClsOfBucket = 0 := hend
            obtain ⟨rfl, rfl⟩ := Prod.mk.inj (Except.ok.inj h)
            rw [if_pos hend']
            exact Or.inl ⟨rfl, fun x hx => by cases hx⟩
        · next hleft =>
            have hleft' : ((nextBucket memory r).cut n).remainingClsOfBucket ≠ 0 := hleft
            rw [if_neg hleft']
            exact readClause_cut (r := (nextBucket memory r).updateClauseData) (hsize.symm ▸ hn) h
      · rw [if_pos hend]
        refine Or.inr ⟨⟨_, rfl⟩, fun x hx => ?_⟩
        split at h
        · obtain ⟨rfl, rfl⟩ := Prod.mk.inj (Except.ok.inj h)
          cases hx
        · cases c with
          | none => cases hx
          | some y =>
              obtain rfl := Option.some.inj hx
              exact hbehind.trans (hproper.readClause h).pos_lt
  · next hne =>
      have hne' : (r.cut n).remainingClsOfBucket ≠ 0 := hne
      rw [if_neg hne']
      exact readClause_cut hn h

theorem readClauses_cases {fuel : Nat} {cs : List (Clause × Nat)} {accessed : List Nat}
    (h : readClauses memory (fuel + 1) r = .ok (cs, accessed)) :
    (∃ r', getNextIncomingClause memory r = .ok (none, r') ∧ cs = []) ∨
      ∃ c r' cs', getNextIncomingClause memory r = .ok (some c, r') ∧ cs = c :: cs' ∧
        readClauses memory fuel r' = .ok (cs', accessed) := by
  rw [readClauses] at h
  split at h
  · cases h
  · next r' hnext =>
      obtain ⟨rfl, -⟩ := Prod.mk.inj (Except.ok.inj h)
      exact Or.inl ⟨r', hnext, rfl⟩
  · next c r' hnext =>
      obtain ⟨⟨cs', accessed'⟩, hrest, heq⟩ := Runs.exists_of_map_eq_ok h
      obtain ⟨rfl, rfl⟩ := Prod.mk.inj heq
      exact Or.inr ⟨c, r', cs', hnext, rfl, hrest⟩

/-- The clauses end one after the other behind the position of the reader, inside the buffer, and each stands
right before its end. -/
theorem readClauses_spec (hr : r.Proper) {fuel : Nat} {cs : List (Clause × Nat)} {accessed : List Nat}
    (h : readClauses memory fuel r = .ok (cs, accessed)) : ∀ c ∈ cs, r.currentPos < c.2 ∧ c.2 ≤ r.size ∧
      ∃ start, start + (c.1.entry r.maxLbdPartitionedSize).length = c.2 ∧
        c.1.entry r.maxLbdPartitionedSize = segment memory start (c.1.entry r.maxLbdPartitionedSize).length := by
  induction fuel generalizing r cs with
  | zero => cases h
  | succ fuel ih =>
      rcases readClauses_cases h with ⟨r', -, rfl⟩ | ⟨c, r', cs', hnext, rfl, hrest⟩
      · intro d hd
        cases hd
      · have hpassed := hr.getNextIncomingClause hnext
        intro d hd
        rcases List.mem_cons.mp hd with rfl | hd
        · exact ⟨hpassed.pos_lt, hpassed.le_size, hpassed.entry_eq⟩
        · obtain ⟨hlt, hle, hentry⟩ := ih hpassed.proper hrest d hd
          rw [hpassed.pos_eq] at hlt
          rw [hpassed.size_eq] at hle
          rw [hpassed.partitioned] at hentry
          exact ⟨hpassed.pos_lt.trans hlt, hle, hentry⟩

/-- A clause that ends behind the cut is followed by such clauses only. -/
theorem filter_of_behind (hr : r.Proper) {fuel : Nat} {cs : List (Clause × Nat)} {accessed : List Nat}
    {c : Clause × Nat} (hnext : getNextIncomingClause memory r = .ok (some c, r'))
    (hrest : readClauses memory fuel r' = .ok (cs, accessed)) (hc : n < c.2) :
    (c :: cs).filter (fun d => d.2 ≤ n) = [] := by
  have hpassed := hr.getNextIncomingClause hnext
  refine List.filter_eq_nil_iff.mpr fun d hd => ?_
  rw [decide_eq_true_eq, not_le]
  rcases List.mem_cons.mp hd with rfl | hd
  · exact hc
  · have hlt := (readClauses_spec hpassed.proper hrest d hd).1
    rw [hpassed.pos_eq] at hlt
    exact hc.trans hlt

/-- Reading the shorter buffer yields the clauses that end before the cut, and they come first. -/
theorem readClauses_cut (hr : r.Proper) (hn : n ≤ r.size) {fuel fuel' : Nat} {cs : List (Clause × Nat)}
    {accessed : List Nat} (h : readClauses memory fuel r = .ok (cs, accessed)) (hfuel : n - r.currentPos < fuel')
    (hinside : (r.cut n).Inside n) : ∃ accessed',
      readClauses memory fuel' (r.cut n) = .ok (cs.filter fun c => c.2 ≤ n, accessed') ∧
        (∀ i ∈ accessed', i < n) ∧ (cs.filter fun c => c.2 ≤ n) <+: cs := by
  induction fuel generalizing r cs fuel' with
  | zero => cases h
  | succ fuel ih =>
      cases fuel' with
      | zero => cases hfuel
      | succ fuel' =>
          have hended : ∀ {r₂}, getNextIncomingClause memory (r.cut n) = .ok (none, r₂) →
              readClauses memory (fuel' + 1) (r.cut n) = .ok ([], r₂.accessed) := by
            intro r₂ hend
            rw [readClauses, hend]
          rcases readClauses_cases h with ⟨r', hnext, rfl⟩ | ⟨c, r', cs', hnext, rfl, hrest⟩
          · have hend : ∃ r₂, getNextIncomingClause memory (r.cut n) = .ok (none, r₂) := by
              rcases getNextIncomingClause_cut hr hn hnext with ⟨hsame, -⟩ | ⟨hend, -⟩
              · exact ⟨_, hsame⟩
              · exact hend
            obtain ⟨r₂, hend⟩ := hend
            exact ⟨_, hended hend, (hinside.getNextIncomingClause hend).accessed, List.prefix_refl []⟩
          · have hpassed := hr.getNextIncomingClause hnext
            rcases getNextIncomingClause_cut hr hn hnext with ⟨hsame, hbefore⟩ | ⟨⟨r₂, hend⟩, hbehind⟩
            · have hc : c.2 ≤ n := hbefore c rfl
              have hpos := hpassed.pos_lt
              have hleft : n - r'.currentPos < fuel' := by
                rw [hpassed.pos_eq]
                omega
              obtain ⟨accessed', hread, hbound, hprefix⟩ :=
                ih hpassed.proper (hpassed.size_eq ▸ hn) hrest hleft (hinside.getNextIncomingClause hsame)
              refine ⟨accessed', ?_, hbound, ?_⟩
              · rw [readClauses, hsame]
                dsimp only
                rw [hread, List.filter_cons_of_pos (by rwa [decide_eq_true_eq])]
                rfl
              · rw [List.filter_cons_of_pos (by rwa [decide_eq_true_eq])]
                exact (List.prefix_cons_inj c).mpr hprefix
            · rw [filter_of_behind hr hnext hrest (hbehind c rfl)]
              exact ⟨_, hended hend, (hinside.getNextIncomingClause hend).accessed, List.nil_prefix⟩

end Truncation

section Agreement

variable {memory' : Nat → Int}

theorem nextBucket_congr (hmemory : ∀ i < r.size, memory i = memory' i) :
    nextBucket memory r = nextBucket memory' r := by
  fun_induction nextBucket memory r with
  | case1 r hne => rw [nextBucket, if_pos hne]
  | case2 r hzero hend => rw [nextBucket, if_neg hzero, if_pos hend]
  | case3 r hzero hlt ih =>
      rw [nextBucket.eq_def memory' r, if_neg hzero, if_neg hlt, ← hmemory r.currentPos (not_le.mp hlt)]
      exact ih hmemory

theorem readClause_congr (hsize : 1 ≤ r.effectiveClauseSize) (hmemory : ∀ i < r.size, memory i = memory' i) :
    readClause memory r = readClause memory' r := by
  rw [readClause, readClause]
  split
  · rfl
  · next hfits =>
      have hsegment : segment memory r.currentPos r.effectiveClauseSize =
          segment memory' r.currentPos r.effectiveClauseSize := by
        refine List.map_congr_left fun i hi => hmemory i ?_
        exact (List.mem_range'_1.mp hi).2.trans_le (not_lt.mp hfits)
      rw [hmemory r.currentPos (by omega), hsegment]

theorem getNextIncomingClause_congr (hr : r.Proper) (hmemory : ∀ i < r.size, memory i = memory' i) :
    getNextIncomingClause memory r = getNextIncomingClause memory' r := by
  obtain ⟨hproper, hsize, -, -⟩ := nextBucket_spec memory' hr.bucket
  have hnext : readClause memory (nextBucket memory' r).updateClauseData =
      readClause memory' (nextBucket memory' r).updateClauseData := by
    refine readClause_congr hproper.size_pos fun i hi => hmemory i ?_
    exact hsize ▸ hi
  rw [getNextIncomingClause, getNextIncomingClause, nextBucket_congr hmemory, readClause_congr hr.size_pos hmemory]
  dsimp only
  rw [hnext]

theorem readClauses_congr (hr : r.Proper) (hmemory : ∀ i < r.size, memory i = memory' i) (fuel : Nat) :
    readClauses memory fuel r = readClauses memory' fuel r := by
  induction fuel generalizing r with
  | zero => rfl
  | succ fuel ih =>
      rw [readClauses, readClauses, ← getNextIncomingClause_congr hr hmemory]
      cases hnext : getNextIncomingClause memory r with
      | error e => rfl
      | ok x =>
          obtain ⟨c, r'⟩ := x
          cases c with
          | none => rfl
          | some c =>
              have hpassed := hr.getNextIncomingClause hnext
              dsimp only
              rw [ih hpassed.proper (hpassed.size_eq ▸ hmemory)]

theorem readBuffer_congr {n p : Nat} (hp : 1 ≤ p) (hmemory : ∀ i < n, memory i = memory' i) :
    readBuffer memory n p = readBuffer memory' n p := by
  have hnew : new memory n p = new memory' n p := by
    rw [new, new]
    by_cases hn : n ≤ 2
    · simp only [hn, if_true]
    · rw [hmemory 2 (not_le.mp hn)]
  rw [readBuffer, readBuffer, readClauses_congr (Proper.new memory n hp) hmemory, hnew]

end Agreement

section Cutting

variable {p : Nat}

theorem segment_getD (buffer : List Int) : segment (fun i => buffer.getD i 0) 0 buffer.length = buffer := by
  apply List.ext_getElem
  · exact length_segment ..
  · intro i _ hi
    simp [segment, List.getElem?_eq_getElem hi]

theorem take_eq_segment {buffer : List Int} (hn : n ≤ buffer.length) :
    buffer.take n = segment (fun i => buffer.getD i 0) 0 n := by
  have hsplit := segment_append (fun i => buffer.getD i 0) 0 n (buffer.length - n)
  rw [Nat.add_sub_cancel' hn, segment_getD] at hsplit
  conv_lhs => rw [hsplit]
  exact List.take_left' (length_segment ..)

theorem slice_eq_segment {buffer : List Int} {start k : Nat} (h : start + k ≤ buffer.length) :
    (buffer.take (start + k)).drop start = segment (fun i => buffer.getD i 0) start k := by
  rw [take_eq_segment h, segment_append, Nat.zero_add]
  exact List.drop_left' (length_segment ..)

theorem readBuffer_short (memory : Nat → Int) (p : Nat) (hn : n ≤ 2) : readBuffer memory n p = .ok ([], []) := by
  have hend : getNextIncomingClause memory (new memory n p) = .ok (new memory n p).endReading := by
    have hremaining : (new memory n p).remainingClsOfBucket = 0 := if_pos hn
    have hsize : (new memory n p).size ≤ (new memory n p).currentPos := hn.trans (Nat.le_succ 2)
    have hnull : ¬ (new memory n p).isNull = true := Bool.false_ne_true
    have hnext : nextBucket memory (new memory n p) = new memory n p := by
      rw [nextBucket, if_neg (not_not.mpr hremaining), if_pos hsize]
    rw [getNextIncomingClause, hnext, if_neg hnull, if_pos hremaining]
    exact if_pos hremaining
  rw [readBuffer, readClauses, hend]
  simp [endReading, new, hn]

theorem new_cut (memory : Nat → Int) (p : Nat) {size : Nat} (hn : 2 < n) (hsize : n ≤ size) : (new memory size p).cut n = new memory n p := by
  have hlong : ¬ size ≤ 2 := not_le.mpr (hn.trans_le hsize)
  simp only [new, cut, hlong, not_le.mpr hn, if_false]

/-- Reading the beginning of a buffer yields the clauses that end in it. -/
theorem readBuffer_take (hp : 1 ≤ p) {size : Nat} {whole : List (Clause × Nat)} {accessed : List Nat}
    (hwhole : readBuffer memory size p = .ok (whole, accessed)) (hn : n ≤ size) : ∃ accessed',
      readBuffer memory n p = .ok (whole.filter fun c => c.2 ≤ n, accessed') ∧ (∀ i ∈ accessed', i < n) ∧
        (whole.filter fun c => c.2 ≤ n) <+: whole := by
  have hr := Proper.new memory size hp
  rw [readBuffer] at hwhole
  by_cases hshort : n ≤ 2
  · have hnone : (whole.filter fun c => c.2 ≤ n) = [] := by
      refine List.filter_eq_nil_iff.mpr fun c hc => ?_
      rw [decide_eq_true_eq, not_le]
      have hlt : 3 < c.2 := (readClauses_spec hr hwhole c hc).1
      omega
    rw [hnone]
    exact ⟨[], readBuffer_short memory p hshort, fun i hi => absurd hi List.not_mem_nil, List.nil_prefix⟩
  · have hcut := new_cut memory p (not_le.mp hshort) hn
    have hinside := Inside.new memory n p
    rw [← hcut] at hinside
    rw [readBuffer, ← hcut]
    exact readClauses_cut hr hn hwhole (by omega) hinside

end Cutting

/-- What a reader of the first integers of a buffer does, whatever stands behind them in memory: it ends, has
accessed no other positions, and yields those of the clauses of the whole buffer that end among these integers,
which come first. -/
def ReadableUpTo (p : Nat) (buffer : List Int) (cs : List Clause) (n : Nat) (memory : Nat → Int) : Prop :=
  ∃ whole part accessed,
    (readBuffer (fun i => buffer.getD i 0) buffer.length p).map Prod.fst = .ok whole ∧ whole.map Prod.fst = cs ∧
    (∀ c ∈ whole, (c.1.entry p).length ≤ c.2 ∧ c.2 ≤ buffer.length ∧
      (buffer.take c.2).drop (c.2 - (c.1.entry p).length) = c.1.entry p) ∧
    readBuffer memory n p = .ok (part, accessed) ∧ (∀ i ∈ accessed, i < n) ∧
    part <+: whole ∧ (part = whole.filter fun c => c.2 ≤ n) ∧
    decode p false (buffer.take n) = .ok (part.map Prod.fst)

theorem readableUpTo_of_decode {p : Nat} (hp : 1 ≤ p) {buffer : List Int} {cs : List Clause}
    (hvalid : decode p false buffer = .ok cs) (hn : n ≤ buffer.length)
    (hmemory : ∀ i < n, memory i = buffer.getD i 0) : ReadableUpTo p buffer cs n memory := by
  have hread := decode_segment (fun i => buffer.getD i 0) buffer.length hp
  rw [segment_getD, hvalid] at hread
  obtain ⟨⟨whole, accessed⟩, hwhole, hcs⟩ := Runs.exists_of_map_eq_ok hread.symm
  obtain ⟨accessed', hpart, hinside, hprefix⟩ := readBuffer_take hp hwhole hn
  refine ⟨whole, _, accessed', ?_, hcs, ?_, ?_, hinside, hprefix, rfl, ?_⟩
  · rw [hwhole]
    rfl
  · intro c hc
    obtain ⟨-, hle, start, hend, hentry⟩ := readClauses_spec (Proper.new _ _ hp) hwhole c hc
    have hstart : c.2 - (c.1.entry p).length = start := by rw [← hend]; exact Nat.add_sub_cancel ..
    refine ⟨hend ▸ Nat.le_add_left _ _, hle, ?_⟩
    rw [hstart, ← hend, slice_eq_segment (hend ▸ hle)]
    exact hentry.symm
  · rw [readBuffer_congr hp hmemory]
    exact hpart
  · rw [take_eq_segment hn, decode_segment _ n hp, hpart]
    rfl

end PositionedReader

open PositionedReader AdaptiveClauseDatabase

/-- Buffers that can be read whole can be read up to any position, in particular those that exporting and merging
produce. -/
theorem truncated_buffers_readable (p : Nat) (hp : 1 ≤ p) :
    (∀ buffer cs, decode p false buffer = .ok cs → ∀ n ≤ buffer.length, ∀ memory : Nat → Int,
      (∀ i < n, memory i = buffer.getD i 0) → ReadableUpTo p buffer cs n memory) ∧
    (∀ (db : AdaptiveClauseDatabase) (clauses : Multiset Clause) (options : ExportOptions), db.Stores clauses →
      (∀ c ∈ clauses, 1 ≤ c.lbd ∧ 0 ∉ c.lits) → db.maxLbdPartitionedSize = p →
      ∃ buffer count db' cs, db.exportBuffer options = .ok (buffer, count, db') ∧
        decode p false buffer = .ok cs) ∧
    ∀ (chk : Bool) (buffers : List (List Int × Bool)) (contents : List (List Clause)) (sizeLimit : Nat),
      List.Forall₂ (ValidBuffer p) buffers contents →
      ∃ main excess ms es, mergeBuffers p chk buffers sizeLimit true = .ok (main, some excess) ∧
        mergeBuffers p chk buffers sizeLimit false = .ok (main, none) ∧
        decode p false main = .ok ms ∧ decode p false excess = .ok es := by
  refine ⟨fun buffer cs hvalid n hn memory hmemory => readableUpTo_of_decode hp hvalid hn hmemory, ?_, ?_⟩
  · rintro db clauses options hstores hclauses rfl
    obtain ⟨bs, buffer, count, db', removed, hok, hexported, -, hbs, -⟩ := hstores.exportBuffer hclauses options
    exact ⟨buffer, count, db', _, hok, hexported.decode_buffer hp hbs (by simp)⟩
  · intro chk buffers contents sizeLimit hvalid
    obtain ⟨main, excess, ms, es, hmerge, hmerge', hmain, hexcess, -⟩ :=
      @mergeBuffers_contents p chk contents sizeLimit buffers hp hvalid
    exact ⟨main, excess, ms, es, hmerge, hmerge', decode_unchecked hmain, hexcess⟩

/-- A buffer that is cut off between the LBD value of its second clause and the literals of this clause. -/
theorem truncated_buffers_readable_example :
    decode 2 false [0, 0, 0, 1, 1, 2, 2, 3, 4, 5, 6, 2, 7, 8, 9] =
      .ok [⟨[1, 2], 2⟩, ⟨[4, 5, 6], 3⟩, ⟨[7, 8, 9], 2⟩] ∧
    ReadableUpTo 2 [0, 0, 0, 1, 1, 2, 2, 3, 4, 5, 6, 2, 7, 8, 9] [⟨[1, 2], 2⟩, ⟨[4, 5, 6], 3⟩, ⟨[7, 8, 9], 2⟩] 8
      (fun i => if i < 8 then [0, 0, 0, 1, 1, 2, 2, 3].getD i 0 else -1) :=
  ⟨by decide, (truncated_buffers_readable 2 (by decide)).1 _ _ (by decide) 8 (by decide) _ (by decide)⟩

end Mallob.Sharing
