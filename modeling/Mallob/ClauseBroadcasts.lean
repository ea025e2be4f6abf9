import Mallob.ClauseSpread

namespace Mallob.Sharing.ClauseNetwork

variable {o : Options} {s s' : State} {r root : Nat} {x x' : Node} {v : View} {out : List Packet}

/-- Only one rank is ever the root of the job tree, and it is nobody's child. -/
def OneRoot (root : Nat) (s : State) : Action → Prop
  | .canSendClauses _ _ => True
  | .finishMerge _ => True
  | .sendClausesToParent r v => v.isRoot = decide (r = root) ∧ root ∉ v.children
  | .deliver i v => ∀ m, s.inFlight[i]? = some m → root ∉ v.children

structure Numbered (root : Nat) (s : State) : Prop where
  epochs : (s.nodes root).comm.broadcast.map Prod.fst =
    (List.range (s.nodes root).comm.broadcast.length).map Int.ofNat
  current : (s.nodes root).comm.currentEpoch = (s.nodes root).comm.broadcast.length
  others : ∀ r, r ≠ root → (s.nodes r).comm.broadcast = []
  apart : ∀ m ∈ s.inFlight, m.message.tag = MSG_DISTRIBUTE_CLAUSES → m.dest ≠ root

section Numbering

/-- A step that leaves the broadcasts and the epoch of every rank as they are. -/
theorem Numbered.setNode (h : Numbered root s) {inFlight discarded : List Packet} {collected : List (Nat × List Int)}
    (hbroadcast : x.comm.broadcast = (s.nodes r).comm.broadcast)
    (hcurrent : r = root → x.comm.currentEpoch = (s.nodes r).comm.currentEpoch)
    (hflying : ∀ m ∈ inFlight, m.message.tag = MSG_DISTRIBUTE_CLAUSES → m.dest ≠ root) :
    Numbered root { s.setNode r x with inFlight := inFlight, collected := collected, discarded := discarded } := by
  have hsame : ∀ r', ((s.setNode r x).nodes r').comm.broadcast = (s.nodes r').comm.broadcast := by
    intro r'
    rw [setNode_nodes]
    split
    · next heq => rw [heq, hbroadcast]
    · rfl
  have hepoch : ((s.setNode r x).nodes root).comm.currentEpoch = (s.nodes root).comm.currentEpoch := by
    rw [setNode_nodes]
    split
    · next heq => rw [heq, hcurrent heq.symm]
    · rfl
  constructor
  · dsimp only
    rw [hsame]
    exact h.epochs
  · dsimp only
    rw [hepoch, hsame]
    exact h.current
  · intro r' hne
    dsimp only
    rw [hsame]
    exact h.others r' hne
  · exact hflying

theorem Numbered.send (h : Numbered root s) (hroot : v.isRoot = decide (r = root)) (hchildren : root ∉ v.children)
    (hok : sendClausesToParent o r (s.nodes r) v = .ok (x, out)) :
    Numbered root { s.setNode r x with inFlight := s.inFlight ++ out } := by
  obtain ⟨result, comm, hmerged, hcases⟩ := sendClausesToParent_cases hok
  obtain ⟨hbroadcast, hepoch⟩ := getMerged_frame hmerged
  rcases hcases with ⟨hyes, -, -, hcomm, rfl⟩ | ⟨hno, -, -, hcomm, rfl⟩
  · rw [hroot, decide_eq_true_eq] at hyes
    subst hyes
    have hnow : comm.currentEpoch = comm.broadcast.length := by
      rw [hepoch, hbroadcast]
      exact h.current
    constructor
    · simp only [setNode_nodes, if_true, hcomm]
      rw [List.map_append, List.length_append, List.length_singleton, List.range_succ, List.map_append, hnow, hbroadcast,
        h.epochs]
      rfl
    · simp only [setNode_nodes, if_true, hcomm]
      rw [List.length_append, List.length_singleton, hnow]
      rfl
    · intro r' hne
      simp only [setNode_nodes, if_neg hne]
      exact h.others r' hne
    · intro m hm htag
      rcases List.mem_append.mp hm with hm | hm
      · exact h.apart m hm htag
      · intro heq
        exact hchildren (heq ▸ (flying_children hm).2.1)
  · rw [hroot, decide_eq_false_iff_not] at hno
    refine h.setNode (by rw [hcomm, ← hbroadcast]) (fun heq => absurd heq hno) fun m hm htag => ?_
    rcases List.mem_append.mp hm with hm | hm
    · exact h.apart m hm htag
    · rw [List.mem_singleton.mp hm, (gatherMessage_frame o v.revision result.clauses comm.numAggregatedNodes).1] at htag
      exact absurd htag (by decide)

theorem Numbered.deliver (h : Numbered root s) {i : Nat} {m : Packet} (hm : s.inFlight[i]? = some m)
    (hchildren : root ∉ v.children) (hok : handle o m.dest (s.nodes m.dest) v m.message = .ok (x, out)) :
    Numbered root { s.setNode m.dest x with
      inFlight := s.inFlight.eraseIdx i ++ out
      discarded := if accepts o v m.message then s.discarded else s.discarded ++ [m] } := by
  have hold : ∀ m' ∈ s.inFlight.eraseIdx i, m'.message.tag = MSG_DISTRIBUTE_CLAUSES → m'.dest ≠ root :=
    fun m' hm' => h.apart m' (List.mem_of_mem_eraseIdx hm')
  refine h.setNode (handle_frame hok) (fun heq => ?_) fun m' hm' htag' => ?_
  all_goals rcases handle_cases hok with ⟨-, rfl, rfl⟩ | ⟨-, -, rfl, clauses, count, -, rfl⟩ | ⟨-, htag, rfl, rfl⟩ |
    ⟨-, -, -, rfl, rfl⟩
  · rfl
  · rfl
  · exact absurd heq (h.apart m (List.mem_of_getElem? hm) htag)
  · rfl
  · rw [List.append_nil] at hm'
    exact hold m' hm' htag'
  · rw [List.append_nil] at hm'
    exact hold m' hm' htag'
  · rcases List.mem_append.mp hm' with hm' | hm'
    · exact hold m' hm' htag'
    · intro heq
      exact hchildren (heq ▸ (flying_children hm').2.1)
  · rw [List.append_nil] at hm'
    exact hold m' hm' htag'

theorem Numbered.step (h : Numbered root s) {action : Action} (honeRoot : OneRoot root s action)
    (hok : step o s action = .ok s') : Numbered root s' := by
  rcases step_cases hok with rfl | ⟨r, v, comm, -, -, -, hinitiate, rfl⟩ | ⟨r, comm, -, hfinish, rfl⟩ |
    ⟨r, v, x, out, rfl, hsend, rfl⟩ | ⟨i, v, m, x, out, rfl, hm, hhandle, rfl⟩
  · exact h
  · obtain ⟨hbroadcast, hepoch⟩ := initiate_frame hinitiate
    exact h.setNode (x := { s.nodes r with comm := comm }) hbroadcast (fun _ => hepoch) h.apart
  · obtain ⟨hbroadcast, hepoch⟩ := finishMerge_frame hfinish
    exact h.setNode (x := { s.nodes r with comm := comm }) hbroadcast (fun _ => hepoch) h.apart
  · exact h.send honeRoot.1 honeRoot.2 hsend
  · exact h.deliver hm (honeRoot m hm) hhandle

theorem numbered_start (root : Nat) : Numbered root {} where
  epochs := rfl
  current := rfl
  others := fun _ _ => rfl
  apart := fun _ hm => absurd hm List.not_mem_nil

theorem Numbered.nodup (h : Numbered root s) : ((s.nodes root).comm.broadcast.map Prod.fst).Nodup := by
  rw [h.epochs]
  exact List.nodup_range.map fun _ _ => Int.ofNat.inj

theorem Numbered.increasing (h : Numbered root s) :
    ((s.nodes root).comm.broadcast.map Prod.fst).Pairwise (· < ·) := by
  rw [h.epochs, List.pairwise_map]
  exact List.pairwise_lt_range.imp fun hlt => Int.ofNat_lt.mpr hlt

theorem Numbered.of_broadcast (h : Numbered root s) {epoch : Int} {clauses : List Int} (hb : s.Broadcast epoch clauses) :
    (epoch, clauses) ∈ (s.nodes root).comm.broadcast := by
  obtain ⟨r, hmem⟩ := hb
  by_cases heq : r = root
  · exact heq ▸ hmem
  · rw [h.others r heq] at hmem
    cases hmem

theorem Numbered.unique (h : Numbered root s) {epoch : Int} {clauses clauses' : List Int}
    (hb : s.Broadcast epoch clauses) (hb' : s.Broadcast epoch clauses') : clauses = clauses' := by
  have hinj := List.inj_on_of_nodup_map h.nodup (h.of_broadcast hb) (h.of_broadcast hb') rfl
  exact congrArg Prod.snd hinj

end Numbering

/-- However ranks join, leave and move below the root and however late messages are: the root numbers its broadcasts from
zero, and two ranks that hear of clauses in the same epoch hear of the same clauses, which are the ones that the root has
broadcast in this epoch. -/
theorem epochs_agree (o : Options) (root : Nat) (actions : List Action) (s : State)
    (hrun : Runs.Reaches (step o) (OneRoot root) {} actions s) :
    (s.nodes root).comm.broadcast.map Prod.fst =
      (List.range (s.nodes root).comm.broadcast.length).map Int.ofNat ∧
    (∀ r, ∀ e ∈ (s.nodes r).heard, e ∈ (s.nodes root).comm.broadcast) ∧
    (∀ r r' epoch clauses clauses', (epoch, clauses) ∈ (s.nodes r).heard → (epoch, clauses') ∈ (s.nodes r').heard →
      clauses = clauses') ∧
    ∀ r, ∀ d ∈ (s.nodes r).digested, ∃ epoch, (epoch, d.1) ∈ (s.nodes root).comm.broadcast := by
  have hnumbered : Numbered root s := hrun.invariant (numbered_start root) fun _ _ _ h honeRoot hok => h.step honeRoot hok
  have hspread : Spread s := hrun.invariant spread_start fun _ _ _ h _ hok => h.step hok
  refine ⟨hnumbered.epochs, fun r e he => hnumbered.of_broadcast (hspread.heard r e he),
    fun r r' epoch clauses clauses' he he' => hnumbered.unique (hspread.heard r _ he) (hspread.heard r' _ he'),
    fun r d hd => ?_⟩
  obtain ⟨epoch, hb⟩ := hspread.digested r d hd
  exact ⟨epoch, hnumbered.of_broadcast hb⟩

def rootView (leftChild rightChild : Option Nat) (prepared : List Int) : View :=
  { viewOf 0 prepared with leftChild := leftChild, rightChild := rightChild }

/-- A child hears of two broadcasts in the wrong order, and another child joins between them. -/
def overtaken : List Action :=
  [.canSendClauses 0 (rootView none none [0, 0, 1, 5]), .finishMerge 0, .sendClausesToParent 0 (rootView (some 1) none []),
    .canSendClauses 0 (rootView none none [0, 0, 1, -6]), .finishMerge 0,
    .sendClausesToParent 0 (rootView (some 1) (some 2) []), .deliver 1 (viewOf 1 []), .deliver 0 (viewOf 1 []),
    .deliver 0 (viewOf 2 [])]

def isRooted (root : Nat) : Action → Bool
  | .canSendClauses _ _ => true
  | .finishMerge _ => true
  | .sendClausesToParent r v => v.isRoot == decide (r = root) && decide (root ∉ v.children)
  | .deliver _ v => decide (root ∉ v.children)

theorem oneRoot_of_isRooted {action : Action} (h : isRooted root action = true) : OneRoot root s action := by
  cases action with
  | canSendClauses r v => trivial
  | finishMerge r => trivial
  | sendClausesToParent r v =>
      rw [isRooted, Bool.and_eq_true] at h
      exact ⟨eq_of_beq h.1, of_decide_eq_true h.2⟩
  | deliver i v => exact fun _ _ => of_decide_eq_true h

theorem epochs_agree_overtaken : ∃ s : State,
    (s.nodes 1).heard = [(1, [1, 0, 1, -6]), (0, [1, 0, 1, 5])] ∧ (s.nodes 2).heard = [(1, [1, 0, 1, -6])] ∧
    ∀ clauses, (1, clauses) ∈ (s.nodes 0).heard → clauses = [1, 0, 1, -6] := by
  have hrun : (overtaken.foldlM (Runs.checked (fun _ a => isRooted 0 a) (step smallOptions)) {}).map
      (fun s => ((s.nodes 1).heard, (s.nodes 2).heard)) =
      some ([(1, [1, 0, 1, -6]), (0, [1, 0, 1, 5])], [(1, [1, 0, 1, -6])]) := by
    decide +kernel
  obtain ⟨s, hs, heq⟩ := Option.map_eq_some_iff.mp hrun
  obtain ⟨hfirst, hsecond⟩ := Prod.mk.inj heq
  have hreaches : Runs.Reaches (step smallOptions) (OneRoot 0) {} overtaken s :=
    .of_checked (fun _ _ hcheck => oneRoot_of_isRooted hcheck) hs
  refine ⟨s, hfirst, hsecond, fun clauses hmem => ?_⟩
  refine (epochs_agree smallOptions 0 overtaken s hreaches).2.2.1 0 2 1 clauses _ hmem ?_
  rw [hsecond]
  exact List.mem_cons_self

end Mallob.Sharing.ClauseNetwork
