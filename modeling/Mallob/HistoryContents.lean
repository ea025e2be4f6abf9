import Mallob.HeldClauses
import Mallob.HistorySubscriptions
import Mallob.TruncatedBuffers

namespace Mallob.Sharing.ClauseHistory

open GatheredClauses (Valid clausesOf clausesOf_append clausesOf_cons clausesOf_nil clausesOf_singleton
  mergeBuffers_clausesOf)

variable {p factor : Nat} {options : HistoryOptions} {bs : List (List Int)} {b : List Int} {S : Set Clause}

def Holds (p : Nat) (S : Set Clause) (bs : List (List Int)) : Prop := ∀ b ∈ bs, Valid p b ∧ clausesOf p [b] ⊆ S

theorem holds_nil : Holds p S [] := fun _ hb => absurd hb List.not_mem_nil

theorem holds_append {bs' : List (List Int)} : Holds p S (bs ++ bs') ↔ Holds p S bs ∧ Holds p S bs' :=
  List.forall_mem_append

theorem holds_cons : Holds p S (b :: bs) ↔ Holds p S [b] ∧ Holds p S bs := by
  rw [← List.singleton_append, holds_append]

theorem holds_singleton : Holds p S [b] ↔ Valid p b ∧ clausesOf p [b] ⊆ S := List.forall_mem_singleton

theorem Holds.mono {S' : Set Clause} (h : Holds p S bs) (hsub : S ⊆ S') : Holds p S' bs :=
  fun b hb => ⟨(h b hb).1, (h b hb).2.trans hsub⟩

theorem Holds.clausesOf_subset (h : Holds p S bs) : clausesOf p bs ⊆ S := by
  induction bs with
  | nil =>
      rw [clausesOf_nil]
      exact Set.empty_subset S
  | cons b bs ih =>
      rw [clausesOf_cons]
      exact Set.union_subset (h b List.mem_cons_self).2 (ih fun b' hb' => h b' (List.mem_cons_of_mem _ hb'))

theorem Holds.take (hp : 1 ≤ p) (h : Holds p S [b]) (n : Nat) : Holds p S [b.take n] := by
  obtain ⟨⟨cs, hcs⟩, hsub⟩ := holds_singleton.mp h
  rcases le_or_gt b.length n with hlong | hshort
  · rw [List.take_of_length_le hlong]
    exact h
  · have hmemory : ∀ i < n, b.getD i 0 = b.getD i 0 := fun _ _ => rfl
    obtain ⟨whole, part, -, -, hwhole, -, -, -, hgrows, -, hpart⟩ :=
      PositionedReader.readableUpTo_of_decode hp hcs.decode_eq hshort.le hmemory
    have hgrows : part.map Prod.fst <+: cs := hwhole ▸ hgrows.map Prod.fst
    have hmem : ∀ c ∈ part.map Prod.fst, c ∈ cs := fun c hc => hgrows.subset hc
    refine holds_singleton.mpr ⟨⟨_, hpart, fun c hc => hcs.lits_ne c (hmem c hc), hcs.sorted.sublist hgrows.sublist⟩, ?_⟩
    rw [clausesOf_singleton hcs.decode_eq] at hsub
    rw [clausesOf_singleton hpart]
    exact fun c hc => hsub (hmem c hc)

theorem merge_holds (hp : 1 ≤ options.maxLbdPartitionedSize) (h : Holds options.maxLbdPartitionedSize S bs)
    (sizeLimit : Nat) : ∃ merged, merge options bs sizeLimit = .ok merged ∧
      Holds options.maxLbdPartitionedSize S [merged] := by
  let gathered := bs.map fun b => (⟨b, 0⟩ : GatheredClauses.Gathered)
  have hvalid : ∀ g ∈ gathered, Valid options.maxLbdPartitionedSize g.clauses := by
    intro g hg
    obtain ⟨b, hb, rfl⟩ := List.mem_map.mp hg
    exact (h b hb).1
  have hclauses : gathered.map (·.clauses) = bs := by
    rw [List.map_map]
    exact List.map_id _
  have hbuffers : gathered.map (fun g => (g.clauses, false)) = bs.map (·, false) := List.map_map
  obtain ⟨main, excess, -, hmerge, hmain, -, hunion⟩ := mergeBuffers_clausesOf hp hvalid sizeLimit
  rw [hclauses] at hunion
  refine ⟨main, ?_, holds_singleton.mpr ⟨hmain, ?_⟩⟩
  · rw [merge, ← hbuffers, hmerge]
    rfl
  · exact Set.subset_union_left.trans (hunion.trans_subset h.clausesOf_subset)

structure Sound (p : Nat) (sources : Nat → Set Clause) (known : Nat → Prop) (h : ClauseHistory factor) [NeZero factor] :
    Prop where
  consistent : h.Consistent
  contents : ∀ index, Holds p (sources index) (h.entry index).clauses
  present : ∀ epoch, h.isEpochPresent epoch = true → known epoch

variable [NeZero factor] {sources sources' : Nat → Set Clause} {known known' : Nat → Prop} {h h' : ClauseHistory factor}
  {a : Arrival}

theorem sound_start : Sound p sources known ({} : ClauseHistory factor) where
  consistent := consistent_start
  contents := fun _ => by
    rw [entry_eq_empty (Nat.zero_le _)]
    exact holds_nil
  present := fun epoch hpresent => by simp [isEpochPresent] at hpresent

theorem Sound.mono (hs : Sound p sources known h) (hsources : ∀ index, sources index ⊆ sources' index)
    (hknown : ∀ epoch, known epoch → known' epoch) : Sound p sources' known' h where
  consistent := hs.consistent
  contents := fun index => (hs.contents index).mono (hsources index)
  present := fun epoch hpresent => hknown epoch (hs.present epoch hpresent)

theorem Sound.exists_complete (hs : Sound p sources known h) {index : Nat} (hcomplete : h.isBatchComplete index = true) :
    ∃ b, (h.entry index).clauses = [b] ∧ Holds p (sources index) [b] ∧
      ∀ epoch, epoch / factor = index → known epoch := by
  have hlength := hs.consistent.entries index
  rw [Entry.WellFormed, if_pos (isBatchComplete_iff_numAggregated.mp hcomplete)] at hlength
  obtain ⟨b, hb⟩ := List.length_eq_one_iff.mp hlength
  refine ⟨b, hb, hb ▸ hs.contents index, fun epoch hepoch => hs.present epoch ?_⟩
  apply isEpochPresent_of_complete
  rw [hepoch]
  exact hcomplete

section Arrivals

omit [NeZero factor] in
theorem mergeIfComplete_holds (hp : 1 ≤ options.maxLbdPartitionedSize) {entry : Entry factor}
    (hentry : Holds options.maxLbdPartitionedSize S entry.clauses) (sizeLimit : Nat) :
    ∃ entry', mergeIfComplete options sizeLimit entry = .ok entry' ∧
      Holds options.maxLbdPartitionedSize S entry'.clauses := by
  rw [mergeIfComplete]
  split
  · obtain ⟨merged, hmerge, hmerged⟩ := merge_holds hp hentry sizeLimit
    rw [hmerge]
    exact ⟨_, rfl, hmerged⟩
  · exact ⟨entry, rfl, hentry⟩

/-- The buffer of a message joins its batch, which is merged where it is complete now. -/
theorem insertClauses_holds (hp : 1 ≤ options.maxLbdPartitionedSize)
    (hcontents : ∀ index, Holds options.maxLbdPartitionedSize (sources index) (h.entry index).clauses)
    (harrival : Holds options.maxLbdPartitionedSize (sources (a.epoch / factor)) [a.clauses]) :
    ∃ h', h.insertClauses options a.epoch a.clauses a.entireIndex = .ok h' ∧
      ∀ index, Holds options.maxLbdPartitionedSize (sources index) (h'.entry index).clauses := by
  rw [insertClauses]
  split
  · exact ⟨h, rfl, hcontents⟩
  · dsimp only
    obtain ⟨entry, hentry, hholds⟩ := @mergeIfComplete_holds factor options (sources (a.epoch / factor)) hp ⟨_, _⟩
      (holds_append.mpr ⟨hcontents _, harrival.take hp _⟩) _
    rw [hentry]
    refine ⟨_, rfl, fun index => ?_⟩
    rw [entry_setEntry]
    split
    · next heq => exact heq ▸ hholds
    · exact hcontents index

omit [NeZero factor] in
theorem updateLatestEpoch_holds (hp : 1 ≤ p) (hcontents : ∀ index, Holds p (sources index) (h.entry index).clauses)
    (epoch index : Nat) : Holds p (sources index) ((h.updateLatestEpoch options epoch).entry index).clauses := by
  rw [updateLatestEpoch]
  dsimp only
  split
  · rw [entry_setEntry]
    split
    · next heq =>
        have hold := hcontents index
        rw [← heq]
        change Holds p (sources index) ((h.entry index).clauses.modifyHead _)
        cases hclauses : (h.entry index).clauses with
        | nil => exact holds_nil
        | cons b bs =>
            rw [hclauses] at hold
            obtain ⟨hfirst, hrest⟩ := holds_cons.mp hold
            exact holds_cons.mpr ⟨hfirst.take hp _, hrest⟩
    · exact hcontents index
  · exact hcontents index

theorem addEpoch_sound (hp : 1 ≤ options.maxLbdPartitionedSize)
    (hs : Sound options.maxLbdPartitionedSize sources known h)
    (harrival : Holds options.maxLbdPartitionedSize (sources (a.epoch / factor)) [a.clauses])
    (hbrings : ∀ epoch, a.Brings factor epoch → known epoch) :
    ∃ h', h.addEpoch options a = .ok h' ∧ Sound options.maxLbdPartitionedSize sources known h' := by
  obtain ⟨h₁, hinsert, hcontents⟩ := insertClauses_holds hp hs.contents harrival
  have hreceive : h.receive options a = .ok (h₁.updateRanges a.epoch) := by
    rw [receive, hinsert]
    rfl
  have hok : h.addEpoch options a = (Except.ok (h₁.updateRanges a.epoch)).map _ := congrArg _ hreceive
  refine ⟨_, hok, hs.consistent.addEpoch hok, ?_, ?_⟩
  · exact updateLatestEpoch_holds hp (h := { h₁.updateRanges a.epoch with
      subscription := ((h₁.updateRanges a.epoch).updateSubscription (a.epoch / factor) a.parentRank a.pastEnd).1 })
      hcontents a.epoch
  · intro epoch hpresent
    rw [isEpochPresent_congr fun index => ((updateLatestEpoch_spec options _ a.epoch).2.2.2 index).1] at hpresent
    rcases (isEpochPresent_insertClauses hinsert epoch).mp hpresent with hbefore | hnew
    · exact hs.present epoch hbefore
    · exact hbrings epoch hnew

end Arrivals

end Mallob.Sharing.ClauseHistory
