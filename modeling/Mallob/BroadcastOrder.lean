import Mallob.Channels
import Mallob.ClauseBroadcasts

namespace Mallob.Sharing.ClauseNetwork

open Channels (on isFirst on_append on_eq_nil on_singleton_ne on_eraseIdx_first on_eraseIdx_other isFirst_lane related_of_path)

variable {o : Options} {s s' : State} {r a c : Nat} {x x' : Node} {v : View} {out : List Packet}

structure JobTree where
  root : Nat
  children : Nat → List Nat
  root_notMem : ∀ r, root ∉ children r
  parent_unique : ∀ {a a' c}, c ∈ children a → c ∈ children a' → a = a'
  irreflexive : ∀ r, r ∉ children r
  nodup : ∀ r, (children r).Nodup

def Packet.link (m : Packet) : Nat × Nat := (m.source, m.dest)

def Packet.lane (m : Packet) : Nat × Nat × Bool := (m.source, m.dest, decide (m.message.tag = MSG_DISTRIBUTE_CLAUSES))

def Packet.content (m : Packet) : Int × List Int := (m.message.epoch, m.message.payload)

/-- The job tree stays as it is, and messages between two ranks do not overtake one another. -/
def Follows (tree : JobTree) (s : State) : Action → Prop
  | .canSendClauses _ _ => True
  | .finishMerge _ => True
  | .sendClausesToParent r v => v.isRoot = decide (r = tree.root) ∧ v.children = tree.children r
  | .deliver i v => isFirst Packet.link s.inFlight i = true ∧
      ∀ m, s.inFlight[i]? = some m → v.children = tree.children m.dest

def State.downward (s : State) (a c : Nat) : List (Int × List Int) :=
  (on Packet.lane (a, c, true) s.inFlight).map Packet.content

def State.missed (s : State) (a c : Nat) : List Packet := on Packet.lane (a, c, true) s.discarded

/-- Along every edge of the tree the broadcasts that the parent has heard of are the ones that the child has heard of,
those on their way, and those that the child has not accepted. -/
structure Forwarded (tree : JobTree) (s : State) : Prop where
  ordered : ∀ a c, c ∈ tree.children a → ((s.nodes c).heard ++ s.downward a c).Sublist (s.nodes a).heard
  counted : ∀ a c, c ∈ tree.children a →
    ((s.nodes c).heard ++ s.downward a c).length + (s.missed a c).length = (s.nodes a).heard.length
  edges : ∀ m ∈ s.inFlight, m.message.tag = MSG_DISTRIBUTE_CLAUSES → m.dest ∈ tree.children m.source
  rooted : (s.nodes tree.root).heard = (s.nodes tree.root).comm.broadcast

section Forwarding

variable {tree : JobTree}

theorem lane_of_distribute {m : Packet} (h : m.message.tag = MSG_DISTRIBUTE_CLAUSES) :
    m.lane = (m.source, m.dest, true) := by
  rw [Packet.lane, h, decide_eq_true rfl]

theorem lane_ne {m : Packet} (h : m.message.tag ≠ MSG_DISTRIBUTE_CLAUSES) : m.lane ≠ (a, c, true) := by
  intro heq
  have hflag : decide (m.message.tag = MSG_DISTRIBUTE_CLAUSES) = true := congrArg (fun k => k.2.2) heq
  exact h (of_decide_eq_true hflag)

theorem on_children {children : List Nat} (hnodup : children.Nodup) (revision epoch : Int) (clauses : List Int) :
    (on Packet.lane (a, c, true)
      (children.map fun child => (⟨r, child, distributeMessage o revision epoch clauses⟩ : Packet))).map Packet.content =
      if r = a ∧ c ∈ children then [(epoch, clauses)] else [] := by
  have hlane : ∀ child : Nat, Packet.lane ⟨r, child, distributeMessage o revision epoch clauses⟩ = (r, child, true) :=
    fun child => lane_of_distribute (distributeMessage_frame o revision epoch clauses).1
  obtain ⟨-, hepoch, hpayload⟩ := distributeMessage_frame o revision epoch clauses
  induction children with
  | nil => simp [on]
  | cons child children ih =>
      obtain ⟨hnot, hrest⟩ := List.nodup_cons.mp hnodup
      rw [List.map_cons, ← List.singleton_append, on_append, List.map_append, ih hrest, on, List.filter_singleton, hlane]
      by_cases hra : r = a
      · by_cases hchild : child = c
        · subst hra hchild
          simp [hnot, Packet.content, hepoch, hpayload]
        · have hne : ¬ c = child := fun heq => hchild heq.symm
          simp [hra, hchild, hne]
      · simp [hra]

theorem Forwarded.frame (h : Forwarded tree s) {inFlight : List Packet} {discarded : List Packet}
    {collected : List (Nat × List Int)} (hheard : x.heard = (s.nodes r).heard)
    (hbroadcast : x.comm.broadcast = (s.nodes r).comm.broadcast)
    (hdown : ∀ a c, on Packet.lane (a, c, true) inFlight = on Packet.lane (a, c, true) s.inFlight)
    (hmissed : ∀ a c, on Packet.lane (a, c, true) discarded = on Packet.lane (a, c, true) s.discarded)
    (hedges : ∀ m ∈ inFlight, m.message.tag = MSG_DISTRIBUTE_CLAUSES → m.dest ∈ tree.children m.source) :
    Forwarded tree { s.setNode r x with inFlight := inFlight, collected := collected, discarded := discarded } := by
  have hsame : ∀ r', ((s.setNode r x).nodes r').heard = (s.nodes r').heard ∧
      ((s.setNode r x).nodes r').comm.broadcast = (s.nodes r').comm.broadcast := by
    intro r'
    rw [setNode_nodes]
    split
    · next heq => exact ⟨by rw [heq, hheard], by rw [heq, hbroadcast]⟩
    · exact ⟨rfl, rfl⟩
  constructor
  · intro a c hc
    rw [State.downward, hdown]
    dsimp only
    rw [(hsame a).1, (hsame c).1]
    exact h.ordered a c hc
  · intro a c hc
    rw [State.downward, State.missed, hdown, hmissed]
    dsimp only
    rw [(hsame a).1, (hsame c).1]
    exact h.counted a c hc
  · exact hedges
  · dsimp only
    rw [(hsame _).1, (hsame _).2]
    exact h.rooted

theorem Forwarded.broadcast (h : Forwarded tree s) {epoch revision : Int} {clauses : List Int}
    (hheard : x.heard = (s.nodes tree.root).heard ++ [(epoch, clauses)])
    (hbroadcast : x.comm.broadcast = (s.nodes tree.root).comm.broadcast ++ [(epoch, clauses)]) :
    Forwarded tree { s.setNode tree.root x with inFlight := s.inFlight ++ (tree.children tree.root).map fun child =>
      (⟨tree.root, child, distributeMessage o revision epoch clauses⟩ : Packet) } := by
  have hdown : ∀ a c, c ∈ tree.children a → State.downward { s.setNode tree.root x with
      inFlight := s.inFlight ++ (tree.children tree.root).map fun child =>
        (⟨tree.root, child, distributeMessage o revision epoch clauses⟩ : Packet) } a c =
      s.downward a c ++ if tree.root = a then [(epoch, clauses)] else [] := by
    intro a c hc
    rw [State.downward, on_append, List.map_append, on_children (tree.nodup _)]
    by_cases hroot : tree.root = a
    · rw [if_pos hroot, if_pos ⟨hroot, hroot ▸ hc⟩]
      rfl
    · rw [if_neg hroot, if_neg fun hboth => hroot hboth.1]
      rfl
  have hchild : ∀ a c, c ∈ tree.children a → ((s.setNode tree.root x).nodes c).heard = (s.nodes c).heard := by
    intro a c hc
    have hne : c ≠ tree.root := fun heq => tree.root_notMem a (heq ▸ hc)
    rw [setNode_nodes, if_neg hne]
  have hparent : ∀ a, ((s.setNode tree.root x).nodes a).heard =
      (s.nodes a).heard ++ if tree.root = a then [(epoch, clauses)] else [] := by
    intro a
    rw [setNode_nodes]
    by_cases hroot : a = tree.root
    · rw [if_pos hroot, if_pos hroot.symm, hroot, hheard]
    · rw [if_neg hroot, if_neg fun heq => hroot heq.symm, List.append_nil]
  constructor
  · intro a c hc
    rw [hdown a c hc]
    dsimp only
    rw [hchild a c hc, hparent a, ← List.append_assoc]
    exact (h.ordered a c hc).append_right _
  · intro a c hc
    have hcounted := h.counted a c hc
    rw [hdown a c hc]
    dsimp only
    rw [hchild a c hc, hparent a, ← List.append_assoc, List.length_append, List.length_append, List.length_append]
    rw [List.length_append] at hcounted
    simp only [State.missed, State.setNode] at hcounted ⊢
    omega
  · intro m hm htag
    rcases List.mem_append.mp hm with hm | hm
    · exact h.edges m hm htag
    · obtain ⟨hsource, hdest, -⟩ := flying_children hm
      rw [hsource]
      exact hdest
  · simp only [setNode_nodes, if_true]
    rw [hheard, hbroadcast, h.rooted]

theorem Forwarded.hear (h : Forwarded tree s) {i : Nat} {m : Packet} (hm : s.inFlight[i]? = some m)
    (hfirst : isFirst Packet.lane s.inFlight i = true) (htag : m.message.tag = MSG_DISTRIBUTE_CLAUSES) {revision : Int}
    (hheard : x.heard = (s.nodes m.dest).heard ++ [m.content]) :
    Forwarded tree { s.setNode m.dest x with
      inFlight := s.inFlight.eraseIdx i ++ (tree.children m.dest).map fun child =>
        (⟨m.dest, child, distributeMessage o revision m.message.epoch m.message.payload⟩ : Packet) } := by
  have hedge := h.edges m (List.mem_of_getElem? hm) htag
  have hlane := lane_of_distribute htag
  have hsplit := on_eraseIdx_first hm hfirst
  rw [hlane] at hsplit
  have hdown : ∀ a c, c ∈ tree.children a → (s.nodes c).heard ++ s.downward a c =
      (s.nodes c).heard ++ (if c = m.dest then [m.content] else []) ++
        (on Packet.lane (a, c, true) (s.inFlight.eraseIdx i)).map Packet.content := by
    intro a c hc
    rw [List.append_assoc]
    congr 1
    rw [State.downward]
    by_cases hdest : c = m.dest
    · subst hdest
      rw [tree.parent_unique hc hedge, hsplit, if_pos rfl, List.map_cons]
      rfl
    · have hne : m.lane ≠ (a, c, true) := by
        rw [hlane]
        exact fun heq => hdest (congrArg (fun k => k.2.1) heq).symm
      rw [if_neg hdest, on_eraseIdx_other hm hne, List.nil_append]
  have hnew : ∀ a c, c ∈ tree.children a → State.downward { s.setNode m.dest x with
      inFlight := s.inFlight.eraseIdx i ++ (tree.children m.dest).map fun child =>
        (⟨m.dest, child, distributeMessage o revision m.message.epoch m.message.payload⟩ : Packet) } a c =
      (on Packet.lane (a, c, true) (s.inFlight.eraseIdx i)).map Packet.content ++
        if m.dest = a then [m.content] else [] := by
    intro a c hc
    rw [State.downward, on_append, List.map_append, on_children (tree.nodup _)]
    by_cases hdest : m.dest = a
    · rw [if_pos hdest, if_pos ⟨hdest, hdest ▸ hc⟩]
      rfl
    · rw [if_neg hdest, if_neg fun hboth => hdest hboth.1]
  have hnode : ∀ r, ((s.setNode m.dest x).nodes r).heard = (s.nodes r).heard ++ if r = m.dest then [m.content] else [] := by
    intro r
    rw [setNode_nodes]
    by_cases hdest : r = m.dest
    · rw [if_pos hdest, if_pos hdest, hdest, hheard]
    · rw [if_neg hdest, if_neg hdest, List.append_nil]
  have hflip : ∀ a, (if m.dest = a then [m.content] else []) = if a = m.dest then [m.content] else [] := by
    intro a
    by_cases heq : a = m.dest
    · rw [if_pos heq, if_pos heq.symm]
    · rw [if_neg heq, if_neg fun heq' => heq heq'.symm]
  constructor
  · intro a c hc
    rw [hnew a c hc]
    dsimp only
    rw [hnode, hnode, ← List.append_assoc, ← hdown a c hc, hflip]
    exact (h.ordered a c hc).append_right _
  · intro a c hc
    have hcounted := h.counted a c hc
    rw [hnew a c hc]
    dsimp only
    rw [hnode, hnode, ← List.append_assoc, ← hdown a c hc, hflip]
    simp only [List.length_append] at hcounted ⊢
    simp only [State.missed, State.setNode] at hcounted ⊢
    omega
  · intro m' hm' htag'
    rcases List.mem_append.mp hm' with hm' | hm'
    · exact h.edges m' (List.mem_of_mem_eraseIdx hm') htag'
    · obtain ⟨hsource, hdest, -⟩ := flying_children hm'
      rw [hsource]
      exact hdest
  · have hne : tree.root ≠ m.dest := fun heq => tree.root_notMem m.source (heq ▸ hedge)
    simp only [setNode_nodes, if_neg hne]
    exact h.rooted

theorem Forwarded.miss (h : Forwarded tree s) {i : Nat} {m : Packet} (hm : s.inFlight[i]? = some m)
    (hfirst : isFirst Packet.lane s.inFlight i = true) (htag : m.message.tag = MSG_DISTRIBUTE_CLAUSES) :
    Forwarded tree { s with inFlight := s.inFlight.eraseIdx i, discarded := s.discarded ++ [m] } := by
  have hlane := lane_of_distribute htag
  have hsplit := on_eraseIdx_first hm hfirst
  have hedge : ∀ a c, c ∈ tree.children a →
      (s.downward a c = State.downward { s with
          inFlight := s.inFlight.eraseIdx i, discarded := s.discarded ++ [m] } a c ∧
        State.missed { s with inFlight := s.inFlight.eraseIdx i, discarded := s.discarded ++ [m] } a c = s.missed a c) ∨
      (s.downward a c = m.content :: State.downward { s with
          inFlight := s.inFlight.eraseIdx i, discarded := s.discarded ++ [m] } a c ∧
        State.missed { s with inFlight := s.inFlight.eraseIdx i, discarded := s.discarded ++ [m] } a c =
          s.missed a c ++ [m]) := by
    intro a c hc
    by_cases hsame : m.lane = (a, c, true)
    · refine Or.inr ⟨?_, ?_⟩
      · rw [State.downward, State.downward, ← hsame, hsplit, List.map_cons]
      · rw [State.missed, State.missed, on_append, ← hsame]
        congr 1
        simp [on]
    · refine Or.inl ⟨?_, ?_⟩
      · rw [State.downward, State.downward, on_eraseIdx_other hm hsame]
      · rw [State.missed, State.missed, on_append, on_singleton_ne hsame, List.append_nil]
  constructor
  · intro a c hc
    refine List.Sublist.trans ?_ (h.ordered a c hc)
    rcases hedge a c hc with ⟨hdown, -⟩ | ⟨hdown, -⟩
    · rw [← hdown]
    · rw [hdown]
      exact (List.sublist_cons_self _ _).append_left _
  · intro a c hc
    have hcounted := h.counted a c hc
    rcases hedge a c hc with ⟨hdown, hmissed⟩ | ⟨hdown, hmissed⟩
    · rw [← hdown, hmissed]
      exact hcounted
    · rw [hdown] at hcounted
      rw [hmissed, List.length_append, List.length_append, List.length_singleton]
      rw [List.length_append, List.length_cons] at hcounted
      dsimp only at hcounted ⊢
      omega
  · exact fun m' hm' => h.edges m' (List.mem_of_mem_eraseIdx hm')
  · exact h.rooted

theorem Forwarded.deliver (h : Forwarded tree s) {i : Nat} {m : Packet} (hm : s.inFlight[i]? = some m)
    (hfirst : isFirst Packet.link s.inFlight i = true) (hchildren : v.children = tree.children m.dest)
    (hok : handle o m.dest (s.nodes m.dest) v m.message = .ok (x, out)) :
    Forwarded tree { s.setNode m.dest x with
      inFlight := s.inFlight.eraseIdx i ++ out
      discarded := if accepts o v m.message then s.discarded else s.discarded ++ [m] } := by
  have hlane : isFirst Packet.lane s.inFlight i = true := by
    refine isFirst_lane (fun m m' heq => ?_) hfirst
    exact Prod.ext (congrArg (fun k => k.1) heq) (congrArg (fun k => k.2.1) heq)
  have hold : ∀ m' ∈ s.inFlight.eraseIdx i, m'.message.tag = MSG_DISTRIBUTE_CLAUSES → m'.dest ∈ tree.children m'.source :=
    fun m' hm' => h.edges m' (List.mem_of_mem_eraseIdx hm')
  have hother : m.message.tag ≠ MSG_DISTRIBUTE_CLAUSES → ∀ a c,
      on Packet.lane (a, c, true) (s.inFlight.eraseIdx i) = on Packet.lane (a, c, true) s.inFlight :=
    fun htag a c => on_eraseIdx_other hm (lane_ne htag)
  rcases handle_cases hok with ⟨hnot, rfl, rfl⟩ | ⟨hyes, htag, rfl, clauses, count, -, rfl⟩ | ⟨hyes, htag, rfl, rfl⟩ |
    ⟨hyes, -, htag, rfl, rfl⟩
  · rw [hnot, List.append_nil]
    by_cases htag : m.message.tag = MSG_DISTRIBUTE_CLAUSES
    · have hsame : s.setNode m.dest (s.nodes m.dest) = s := setComm_self s m.dest
      rw [hsame]
      exact h.miss hm hlane htag
    · refine h.frame rfl rfl (hother htag) (fun a c => ?_) hold
      rw [if_neg Bool.false_ne_true, on_append, on_singleton_ne (lane_ne htag), List.append_nil]
  · rw [hyes, List.append_nil]
    have hne : m.message.tag ≠ MSG_DISTRIBUTE_CLAUSES := by
      rw [htag]
      decide
    exact h.frame rfl rfl (hother hne) (fun _ _ => rfl) hold
  · rw [hyes, hchildren]
    exact h.hear hm hlane htag (learnClauses_heard _)
  · rw [hyes, List.append_nil]
    exact h.frame rfl rfl (hother htag) (fun _ _ => rfl) hold

theorem Forwarded.send (h : Forwarded tree s) (hroot : v.isRoot = decide (r = tree.root))
    (hchildren : v.children = tree.children r) (hok : sendClausesToParent o r (s.nodes r) v = .ok (x, out)) :
    Forwarded tree { s.setNode r x with inFlight := s.inFlight ++ out } := by
  obtain ⟨result, comm, hmerged, hcases⟩ := sendClausesToParent_cases hok
  obtain ⟨hbroadcast, -⟩ := getMerged_frame hmerged
  rcases hcases with ⟨hyes, hheard, -, hcomm, rfl⟩ | ⟨-, hheard, -, hcomm, rfl⟩
  · rw [hroot, decide_eq_true_eq] at hyes
    subst hyes
    rw [hchildren]
    refine h.broadcast hheard ?_
    rw [hcomm, ← hbroadcast]
  · have htag := (gatherMessage_frame o v.revision result.clauses comm.numAggregatedNodes).1
    refine h.frame hheard (by rw [hcomm, ← hbroadcast]) (fun a c => ?_) (fun _ _ => rfl) fun m hm hdown => ?_
    · rw [on_append, on_singleton_ne (lane_ne ?_), List.append_nil]
      dsimp only
      rw [htag]
      decide
    · rcases List.mem_append.mp hm with hm | hm
      · exact h.edges m hm hdown
      · rw [List.mem_singleton.mp hm, htag] at hdown
        exact absurd hdown (by decide)

theorem Forwarded.step (h : Forwarded tree s) {action : Action} (hfollows : Follows tree s action)
    (hok : step o s action = .ok s') : Forwarded tree s' := by
  rcases step_cases hok with rfl | ⟨r, v, comm, -, -, -, hinitiate, rfl⟩ | ⟨r, comm, -, hfinish, rfl⟩ |
    ⟨r, v, x, out, rfl, hsend, rfl⟩ | ⟨i, v, m, x, out, rfl, hm, hhandle, rfl⟩
  · exact h
  · exact h.frame (x := { s.nodes r with comm := comm }) rfl (initiate_frame hinitiate).1 (fun _ _ => rfl)
      (fun _ _ => rfl) h.edges
  · exact h.frame (x := { s.nodes r with comm := comm }) rfl (finishMerge_frame hfinish).1 (fun _ _ => rfl)
      (fun _ _ => rfl) h.edges
  · exact h.send hfollows.1 hfollows.2 hsend
  · exact h.deliver hm hfollows.1 (hfollows.2 m hm) hhandle

theorem forwarded_start (tree : JobTree) : Forwarded tree {} where
  ordered := fun _ _ _ => List.Sublist.refl _
  counted := fun _ _ _ => rfl
  edges := fun _ hm => absurd hm List.not_mem_nil
  rooted := rfl

theorem oneRoot_of_follows {action : Action} (h : Follows tree s action) : OneRoot tree.root s action := by
  cases action with
  | canSendClauses r v => trivial
  | finishMerge r => trivial
  | sendClausesToParent r v => exact ⟨h.1, h.2 ▸ tree.root_notMem r⟩
  | deliver i v => exact fun m hm => h.2 m hm ▸ tree.root_notMem m.dest

theorem Forwarded.heard_append (h : Forwarded tree s)
    (haccepted : ∀ m ∈ s.discarded, m.message.tag ≠ MSG_DISTRIBUTE_CLAUSES) (hc : c ∈ tree.children a) :
    (s.nodes c).heard ++ s.downward a c = (s.nodes a).heard := by
  refine (h.ordered a c hc).eq_of_length ?_
  have hcounted := h.counted a c hc
  have hnone : s.missed a c = [] := on_eq_nil fun m hm => lane_ne (haccepted m hm)
  rwa [hnone, List.length_nil, add_zero] at hcounted

theorem downward_eq_nil (hnone : ∀ m ∈ s.inFlight, m.message.tag ≠ MSG_DISTRIBUTE_CLAUSES) : s.downward a c = [] := by
  rw [State.downward, on_eq_nil fun m hm => lane_ne (hnone m hm)]
  rfl

end Forwarding

/-- In a job tree that stays as it is every rank hears of broadcasts of the root in their order and of none of them
twice, of the first ones without a gap where none is turned away, and of all of them once none is on its way. -/
theorem broadcasts_in_order (o : Options) (tree : JobTree) (actions : List Action) (s : State)
    (hrun : Runs.Reaches (step o) (Follows tree) {} actions s) (r : Nat)
    (hpath : Relation.ReflTransGen (fun a c => c ∈ tree.children a) tree.root r) :
    (s.nodes r).heard.Sublist (s.nodes tree.root).comm.broadcast ∧
    ((s.nodes r).heard.map Prod.fst).Pairwise (· < ·) ∧
    ((∀ m ∈ s.discarded, m.message.tag ≠ MSG_DISTRIBUTE_CLAUSES) →
      (s.nodes r).heard <+: (s.nodes tree.root).comm.broadcast ∧
      ((∀ m ∈ s.inFlight, m.message.tag ≠ MSG_DISTRIBUTE_CLAUSES) →
        (s.nodes r).heard = (s.nodes tree.root).comm.broadcast)) := by
  have hforwarded : Forwarded tree s := hrun.invariant (forwarded_start tree) fun _ _ _ h hfollows hok => h.step hfollows hok
  have hnumbered : Numbered tree.root s := hrun.invariant (numbered_start tree.root) fun _ _ _ h hfollows hok =>
    h.step (oneRoot_of_follows hfollows) hok
  have hsublist : (s.nodes r).heard.Sublist (s.nodes tree.root).comm.broadcast := by
    rw [← hforwarded.rooted]
    refine related_of_path (fun r => (s.nodes r).heard) List.Sublist List.Sublist.refl (fun h h' => h.trans h')
      (fun a c hc => ?_) hpath
    exact (List.sublist_append_left _ _).trans (hforwarded.ordered a c hc)
  refine ⟨hsublist, hnumbered.increasing.sublist (hsublist.map _), fun haccepted => ⟨?_, fun hnone => ?_⟩⟩
  · rw [← hforwarded.rooted]
    refine related_of_path (fun r => (s.nodes r).heard) (· <+: ·) (fun _ => List.prefix_rfl)
      (fun h h' => h.trans h') (fun a c hc => ?_) hpath
    exact ⟨_, hforwarded.heard_append haccepted hc⟩
  · rw [← hforwarded.rooted]
    refine related_of_path (fun r => (s.nodes r).heard) (· = ·) (fun _ => rfl)
      (fun h h' => h.trans h') (fun a c hc => ?_) hpath
    have hall := hforwarded.heard_append haccepted hc
    rwa [downward_eq_nil hnone, List.append_nil] at hall

def follows (tree : JobTree) (s : State) : Action → Bool
  | .canSendClauses _ _ => true
  | .finishMerge _ => true
  | .sendClausesToParent r v => v.isRoot == decide (r = tree.root) && decide (v.children = tree.children r)
  | .deliver i v => isFirst Packet.link s.inFlight i &&
      (s.inFlight[i]?).all fun m => decide (v.children = tree.children m.dest)

theorem follows_of_check {tree : JobTree} {action : Action} (h : follows tree s action = true) : Follows tree s action := by
  cases action with
  | canSendClauses r v => trivial
  | finishMerge r => trivial
  | sendClausesToParent r v =>
      rw [follows, Bool.and_eq_true] at h
      exact ⟨eq_of_beq h.1, of_decide_eq_true h.2⟩
  | deliver i v =>
      rw [follows, Bool.and_eq_true] at h
      refine ⟨h.1, fun m hm => ?_⟩
      have hchildren := h.2
      rw [hm] at hchildren
      exact of_decide_eq_true hchildren

def pathTree : JobTree where
  root := 0
  children r := if r < 2 then [r + 1] else []
  root_notMem := fun r hmem => by
    split at hmem
    · exact absurd (List.mem_singleton.mp hmem) (by omega)
    · cases hmem
  parent_unique := fun {a a' c} hc hc' => by
    split at hc
    · split at hc'
      · have h := (List.mem_singleton.mp hc).symm.trans (List.mem_singleton.mp hc')
        omega
      · cases hc'
    · cases hc
  irreflexive := fun r hmem => by
    split at hmem
    · exact absurd (List.mem_singleton.mp hmem) (by omega)
    · cases hmem
  nodup := fun r => by
    split
    · exact List.nodup_singleton _
    · exact List.nodup_nil

def downThePath : List Action :=
  [.canSendClauses 0 (rootView none none [0, 0, 1, 5]), .finishMerge 0, .sendClausesToParent 0 (rootView (some 1) none []),
    .canSendClauses 0 (rootView none none [0, 0, 1, -6]), .finishMerge 0,
    .sendClausesToParent 0 (rootView (some 1) none []), .deliver 0 { viewOf 1 [] with leftChild := some 2 },
    .deliver 0 { viewOf 1 [] with leftChild := some 2 }, .deliver 0 (viewOf 2 []), .deliver 0 (viewOf 2 [])]

theorem broadcasts_in_order_downThePath : ∃ s : State,
    (s.nodes 0).comm.broadcast = [(0, [1, 0, 1, 5]), (1, [1, 0, 1, -6])] ∧
    (s.nodes 2).heard = [(0, [1, 0, 1, 5]), (1, [1, 0, 1, -6])] := by
  have hrun : (downThePath.foldlM (Runs.checked (fun s a => follows pathTree s a) (step smallOptions)) {}).map
      (fun s => ((s.nodes 0).comm.broadcast, s.inFlight, s.discarded)) =
      some ([(0, [1, 0, 1, 5]), (1, [1, 0, 1, -6])], [], []) := by
    decide +kernel
  obtain ⟨s, hs, heq⟩ := Option.map_eq_some_iff.mp hrun
  obtain ⟨hbroadcast, hrest⟩ := Prod.mk.inj heq
  obtain ⟨hflying, hdiscarded⟩ := Prod.mk.inj hrest
  have hreaches : Runs.Reaches (step smallOptions) (Follows pathTree) {} downThePath s :=
    .of_checked (fun _ _ hcheck => follows_of_check hcheck) hs
  have hpath : Relation.ReflTransGen (fun a c => c ∈ pathTree.children a) pathTree.root 2 :=
    .tail (.single (List.mem_singleton.mpr rfl)) (List.mem_singleton.mpr rfl)
  have hall := (broadcasts_in_order smallOptions pathTree downThePath s hreaches 2 hpath).2.2
    (fun m hm => absurd hm (hdiscarded ▸ List.not_mem_nil))
  exact ⟨s, hbroadcast, (hall.2 fun m hm => absurd hm (hflying ▸ List.not_mem_nil)).trans hbroadcast⟩

end Mallob.Sharing.ClauseNetwork
