import Mallob.MergedBuffers

namespace Mallob.Sharing

variable {p i sizeLimit : Nat} {chk : Bool} {v : OutputVector} {o o' : MergeOutput} {bs : List (List (List Int))}
  {c d : Clause} {cs ms : List Clause} {contents : List (List Clause)}

def countersTo (p : Nat) (cs : List Clause) : Nat :=
  cs.getLast?.elim 0 fun c => (slotPosition p c.size c.lbd).toNat

/-- The length of a vector with the given clauses: the checksum, the counters of
the buckets up to the one of the last clause, and the integers of the clauses. -/
def lengthWith (p : Nat) (cs : List Clause) : Nat :=
  3 + countersTo p cs + (cs.map fun c => effectiveSize p c.size).sum

/-- No clause would fit only if the counters that lead to its bucket were not there. -/
def CountersFit (p sizeLimit : Nat) (merged : List Clause) : Prop := ∀ ms c cs, merged = ms ++ c :: cs →
  lengthWith p ms + effectiveSize p c.size ≤ sizeLimit → lengthWith p (ms ++ [c]) ≤ sizeLimit

theorem Clause.InBucket.toNat_slotPosition (h : c.InBucket p i) : (slotPosition p c.size c.lbd).toNat = i := by
  rw [h.slotPosition_eq, Int.toNat_natCast]

theorem length_encodeBuckets (h : Placed p i bs) :
    (encodeBuckets bs).length = bs.length + ((decodeBuckets p i bs).map fun c => effectiveSize p c.size).sum := by
  induction bs generalizing i with
  | nil => rfl
  | cons es bs ih =>
      have hentries : (es.map fun e => effectiveSize p (decodeEntry p i e).size) = es.map List.length := by
        refine List.map_congr_left fun e he => ?_
        rw [(h.1 e he).inBucket.size_eq, ← (h.1 e he).1]
      rw [encodeBuckets, decodeBuckets, List.map_append, List.sum_append, List.map_map, List.length_cons,
        List.length_append, List.length_flatten, ih h.2, ← hentries, List.length_cons]
      simp only [Function.comp_def]
      omega

theorem OutputVector.Contains.length_eq (h : v.Contains p chk cs) : v.ints.length = lengthWith p cs := by
  obtain ⟨done, es, hholds, hdec, hempty, hlast⟩ := h
  have hcounters : countersTo p cs = done.length := by
    rw [countersTo]
    cases hcs : cs.getLast? with
    | some c => exact (hlast c hcs).toNat_slotPosition
    | none =>
        have hes : es = [] := by
          rw [List.getLast?_eq_none_iff.mp hcs, decodeBuckets_append, List.append_eq_nil_iff] at hdec
          simpa [decodeBuckets] using hdec.2
        rw [hempty hes]
        rfl
  rw [hholds.ints_eq, List.length_append, length_encodeBuckets hholds.placed, hdec, lengthWith, hcounters,
    List.length_append]
  simp only [List.length_cons, List.length_nil]
  omega

theorem countersTo_le (hsorted : (ms ++ cs).Pairwise (· < ·)) (henc : ∀ c ∈ ms ++ cs, c.Encodable p) :
    countersTo p ms ≤ countersTo p (ms ++ cs) := by
  cases hlast : (ms ++ cs).getLast? with
  | none =>
      obtain ⟨rfl, _⟩ := List.append_eq_nil_iff.mp (List.getLast?_eq_none_iff.mp hlast)
      exact Nat.zero_le _
  | some d =>
      cases hms : ms.getLast? with
      | none =>
          rw [countersTo, hms]
          exact Nat.zero_le _
      | some c =>
          have hc := List.mem_of_getLast? hms
          obtain ⟨j, hj⟩ := (henc d (List.mem_of_getLast? hlast)).inBucket
          obtain ⟨k, hk⟩ := (henc c (List.mem_append_left _ hc)).inBucket
          have hle : c ≤ d := by
            rw [List.getLast?_append] at hlast
            cases hcs : cs.getLast? with
            | none =>
                rw [hcs, hms] at hlast
                exact (Option.some.inj hlast).le
            | some d' =>
                rw [hcs] at hlast
                obtain rfl := Option.some.inj hlast
                exact ((List.pairwise_append.mp hsorted).2.2 c hc d' (List.mem_of_getLast? hcs)).le
          rw [countersTo, countersTo, hlast, hms]
          simp only [Option.elim_some, hj.toNat_slotPosition, hk.toNat_slotPosition]
          exact hk.le_of_le hj hle

theorem lengthWith_le (hsorted : (ms ++ c :: cs).Pairwise (· < ·)) (henc : ∀ d ∈ ms ++ c :: cs, d.Encodable p) :
    lengthWith p ms + effectiveSize p c.size ≤ lengthWith p (ms ++ c :: cs) := by
  have hcounters := countersTo_le hsorted henc
  rw [lengthWith, lengthWith, List.map_append, List.sum_append, List.map_cons, List.sum_cons]
  omega

theorem MergeOutput.exceeds_eq (hfilling : o.fillingMainVector = true) (h : o.current.Contains p chk ms) :
    o.exceeds p sizeLimit c = true ↔ sizeLimit < lengthWith p ms + effectiveSize p c.size := by
  rw [MergeOutput.exceeds, hfilling, h.length_eq, Bool.true_and, decide_eq_true_eq]

/-- The main vector keeps to the limit exactly if all counters fit, as far as it is filled. -/
theorem MergeOutput.write_length_le_iff (hfilling : o.fillingMainVector = true) (hexcess : o.hasExcess = false)
    (h : o.current.Contains p chk ms) (hfits : lengthWith p ms ≤ sizeLimit) (hsorted : (ms ++ cs).Pairwise (· < ·))
    (henc : ∀ c ∈ ms ++ cs, c.Encodable p) (hwrite : o.write p sizeLimit chk cs = some o') :
    o'.fillingMainVector = true ∧ (o'.current.ints.length ≤ sizeLimit ↔ ∀ as c rest, cs = as ++ c :: rest →
      lengthWith p (ms ++ as) + effectiveSize p c.size ≤ sizeLimit → lengthWith p (ms ++ as ++ [c]) ≤ sizeLimit) := by
  induction cs generalizing o ms with
  | nil =>
      obtain rfl := Option.some.inj hwrite
      refine ⟨hfilling, iff_of_true (h.length_eq.trans_le hfits) ?_⟩
      intro as c rest hsplit
      simp at hsplit
  | cons d cs ih =>
      have hd : d.Encodable p := henc d (by simp)
      rw [MergeOutput.write] at hwrite
      by_cases hfull : o.exceeds p sizeLimit d = true
      · rw [if_pos ⟨hfull, by simp [hexcess]⟩] at hwrite
        obtain rfl := Option.some.inj hwrite
        have hlimit := (MergeOutput.exceeds_eq hfilling h).mp hfull
        refine ⟨hfilling, iff_of_true (h.length_eq.trans_le hfits) ?_⟩
        intro as c rest hsplit hle
        exfalso
        cases as with
        | nil =>
            obtain ⟨rfl, rfl⟩ := List.cons.inj hsplit
            rw [List.append_nil] at hle
            omega
        | cons a as =>
            obtain ⟨rfl, rfl⟩ := List.cons.inj hsplit
            have hpart : (ms ++ d :: as).Sublist (ms ++ d :: (as ++ c :: rest)) := by
              simp
            have hmono := @lengthWith_le p d as ms (hsorted.sublist hpart) fun x hx => henc x (hpart.subset hx)
            omega
      · have hlimit := fun hlt => hfull ((MergeOutput.exceeds_eq hfilling h).mpr hlt)
        obtain ⟨v, hv, hcont, _⟩ := h.insertClause hd (getLast?_lt_of_pairwise hsorted)
        rw [if_neg (fun hstop => hfull hstop.1)] at hwrite
        simp only [if_neg hfull, hv] at hwrite
        have hsplits : (∀ as c rest, d :: cs = as ++ c :: rest →
            lengthWith p (ms ++ as) + effectiveSize p c.size ≤ sizeLimit → lengthWith p (ms ++ as ++ [c]) ≤ sizeLimit) ↔
            lengthWith p (ms ++ [d]) ≤ sizeLimit ∧ ∀ as c rest, cs = as ++ c :: rest →
              lengthWith p (ms ++ [d] ++ as) + effectiveSize p c.size ≤ sizeLimit →
                lengthWith p (ms ++ [d] ++ as ++ [c]) ≤ sizeLimit := by
          constructor
          · intro hall
            refine ⟨?_, fun as c rest hsplit hle => ?_⟩
            · have hfirst := hall [] d cs rfl
              rw [List.append_nil] at hfirst
              exact hfirst (not_lt.mp hlimit)
            · have hlater := hall (d :: as) c rest (congrArg (d :: ·) hsplit)
              simp only [List.append_cons ms d as] at hlater
              exact hlater hle
          · rintro ⟨hfirst, hlater⟩ as c rest hsplit hle
            cases as with
            | nil =>
                obtain ⟨rfl, rfl⟩ := List.cons.inj hsplit
                rw [List.append_nil]
                exact hfirst
            | cons a as =>
                obtain ⟨rfl, rfl⟩ := List.cons.inj hsplit
                simp only [List.append_cons ms d as] at hle ⊢
                exact hlater as c rest rfl hle
        by_cases hnext : lengthWith p (ms ++ [d]) ≤ sizeLimit
        · rw [hsplits]
          simp only [hnext, true_and]
          exact @ih { o with current := v } (ms ++ [d]) hfilling hexcess hcont hnext (by simpa using hsorted)
            (by simpa using henc) hwrite
        · have hstop : o' = { o with current := v } := by
            cases cs with
            | nil => exact (Option.some.inj hwrite).symm
            | cons e cs =>
                have hfull' : MergeOutput.exceeds p sizeLimit { o with current := v } e = true := by
                  rw [@MergeOutput.exceeds_eq p sizeLimit chk { o with current := v } e (ms ++ [d]) hfilling hcont]
                  omega
                rw [MergeOutput.write, if_pos ⟨hfull', by simp [hexcess]⟩] at hwrite
                exact (Option.some.inj hwrite).symm
          rw [hsplits, hstop]
          refine ⟨hfilling, iff_of_false ?_ fun hall => hnext hall.1⟩
          rw [hcont.length_eq]
          exact hnext

/-- The main vector keeps to the limit if and only if the counters of all
clauses fit that would fit without, with or without an excess vector. -/
theorem mergeBuffers_length_le_iff (p : Nat) (chk : Bool) (hp : 1 ≤ p) (buffers : List (List Int × Bool))
    (contents : List (List Clause)) (hvalid : List.Forall₂ (ValidBuffer p) buffers contents) (sizeLimit : Nat)
    (hlimit : 3 ≤ sizeLimit) :
    ∃ main excess, mergeBuffers p chk buffers sizeLimit true = .ok (main, some excess) ∧
      mergeBuffers p chk buffers sizeLimit false = .ok (main, none) ∧
      (main.length ≤ sizeLimit ↔ CountersFit p sizeLimit (contents.flatten.toFinset.sort (· ≤ ·))) := by
  obtain ⟨main, excess, ms, es, hboth, hmain, hms, -⟩ := @mergeBuffers_contents p chk contents sizeLimit buffers hp hvalid
  refine ⟨main, excess, hboth, hmain, ?_⟩
  have hmem : ∀ c, c ∈ contents.flatten.toFinset.sort (· ≤ ·) ↔ ∃ cs ∈ contents, c ∈ cs := by simp
  generalize hmerged : contents.flatten.toFinset.sort (· ≤ ·) = merged at *
  have hsorted : merged.Pairwise (· < ·) := by
    rw [← hmerged]
    exact (Finset.sortedLT_sort _).pairwise
  obtain ⟨henc, heq⟩ := @mergeBuffers_eq p chk contents sizeLimit buffers false merged hp hvalid hsorted hmem
  rw [hmain] at heq
  cases hwrite : (MergeOutput.begin false).write p sizeLimit chk merged with
  | none =>
      rw [hwrite] at heq
      cases heq
  | some o =>
      rw [hwrite] at heq
      obtain ⟨hfilling, hiff⟩ := @MergeOutput.write_length_le_iff p sizeLimit chk (MergeOutput.begin false) o merged []
        rfl rfl OutputVector.contains_start hlimit hsorted henc hwrite
      have hlength : main.length = o.current.ints.length := by
        have hfirst : main = o.finish.1 := congrArg Prod.fst (Except.ok.inj heq)
        simp only [hfirst, MergeOutput.finish, hfilling, if_true, MergeOutput.switch, length_writeChecksum]
      rw [hlength, hiff]
      rfl

/-- A clause in both readers, one in each of them, and one that there is no room for. -/
theorem mergeBuffers_length_le_iff_two_readers : ∃ main excess,
    mergeBuffers 2 false [([0, 0, 1, 4, 1, 1, 2], false), ([0, 0, 1, 3, 1, 1, 2, 1, 2, 5, 6, 7], false)] 9 true =
      .ok (main, some excess) ∧ main = [1, 0, 2, 3, 4, 1, 1, 2] ∧ excess = [1, 0, 0, 0, 1, 2, 5, 6, 7] ∧
      (main.length ≤ 9 ↔ CountersFit 2 9
        ([[(⟨[4], 1⟩ : Clause), ⟨[1, 2], 2⟩], [⟨[3], 1⟩, ⟨[1, 2], 2⟩, ⟨[5, 6, 7], 2⟩]].flatten.toFinset.sort (· ≤ ·))) := by
  have hfirst : ValidBuffer 2 ([0, 0, 1, 4, 1, 1, 2], false) [⟨[4], 1⟩, ⟨[1, 2], 2⟩] :=
    ⟨by decide +kernel, by decide, by decide⟩
  have hsecond : ValidBuffer 2 ([0, 0, 1, 3, 1, 1, 2, 1, 2, 5, 6, 7], false)
      [⟨[3], 1⟩, ⟨[1, 2], 2⟩, ⟨[5, 6, 7], 2⟩] :=
    ⟨by decide +kernel, by decide, by decide⟩
  obtain ⟨main, excess, hmerge, -, hiff⟩ :=
    mergeBuffers_length_le_iff 2 false (by decide) _ _ (.cons hfirst (.cons hsecond .nil)) 9 (by decide)
  have hvectors : mergeBuffers 2 false
      [([0, 0, 1, 4, 1, 1, 2], false), ([0, 0, 1, 3, 1, 1, 2, 1, 2, 5, 6, 7], false)] 9 true =
      .ok ([1, 0, 2, 3, 4, 1, 1, 2], some [1, 0, 0, 0, 1, 2, 5, 6, 7]) := by
    decide +kernel
  obtain ⟨hmain, hexcess⟩ := Prod.mk.inj (Except.ok.inj (hmerge.symm.trans hvectors))
  exact ⟨main, excess, hmerge, hmain, Option.some.inj hexcess, hiff⟩

/-- The counter of the one clause does not fit in a vector of five integers, but is written all the same. -/
theorem mergeBuffers_exceeds_limit : ∃ main, ValidBuffer 2 ([0, 0, 0, 1, 1, 2], false) [⟨[1, 2], 2⟩] ∧
    mergeBuffers 2 false [([0, 0, 0, 1, 1, 2], false)] 5 false = .ok (main, none) ∧ ¬main.length ≤ 5 := by
  refine ⟨[1, 0, 0, 1, 1, 2], ⟨by decide +kernel, by decide, by decide⟩, by decide +kernel, by decide⟩

end Mallob.Sharing
