import Mathlib

namespace Mallob.Network

variable {Tag M : Type} [DecidableEq Tag]

structure Envelope (Tag M : Type) where
  tag : Tag
  dest : Nat
  data : M

def Net (Tag M : Type) : Type := Tag → Nat → Nat → List M

def empty : Net Tag M := fun _ _ _ => []

def post (net : Net Tag M) (source : Nat) (e : Envelope Tag M) : Net Tag M := fun tag src dst =>
  if tag = e.tag ∧ src = source ∧ dst = e.dest then net tag src dst ++ [e.data] else net tag src dst

def postAll (net : Net Tag M) (source : Nat) (out : List (Envelope Tag M)) : Net Tag M :=
  out.foldl (fun net e => post net source e) net

def take (net : Net Tag M) (tag : Tag) (source dest : Nat) : Option (M × Net Tag M) :=
  match net tag source dest with
  | [] => none
  | m :: ms => some (m, fun t src dst => if t = tag ∧ src = source ∧ dst = dest then ms else net t src dst)

def received (tag : Tag) (dest : Nat) (out : List (Envelope Tag M)) : List M :=
  (out.filter fun e => e.tag = tag ∧ e.dest = dest).map (·.data)

@[simp] theorem received_nil (tag : Tag) (dest : Nat) : received tag dest ([] : List (Envelope Tag M)) = [] := rfl

theorem received_cons (tag : Tag) (dest : Nat) (e : Envelope Tag M) (out : List (Envelope Tag M)) :
    received tag dest (e :: out) =
      (if e.tag = tag ∧ e.dest = dest then [e.data] else []) ++ received tag dest out := by
  by_cases h : e.tag = tag ∧ e.dest = dest
  · simp [received, h]
  · simp [received, h]

theorem postAll_apply (net : Net Tag M) (source : Nat) (out : List (Envelope Tag M)) (tag : Tag) (src dst : Nat) :
    postAll net source out tag src dst = net tag src dst ++ if src = source then received tag dst out else [] := by
  induction out generalizing net with
  | nil => simp [postAll]
  | cons e out ih =>
      have h := ih (post net source e)
      simp only [postAll, List.foldl_cons] at h ⊢
      rw [h, received_cons]
      by_cases hs : src = source
      · by_cases he : e.tag = tag ∧ e.dest = dst
        · obtain ⟨rfl, rfl⟩ := he
          simp [post, hs]
        · have hne : ¬ (tag = e.tag ∧ src = source ∧ dst = e.dest) := by
            rintro ⟨rfl, _, rfl⟩; exact he ⟨rfl, rfl⟩
          rw [post, if_neg hne, if_neg he, List.nil_append]
      · simp [post, hs]

@[simp] theorem postAll_nil (net : Net Tag M) (source : Nat) : postAll net source [] = net := rfl

theorem take_eq_some {net net' : Net Tag M} {tag : Tag} {source dest : Nat} {m : M}
    (h : take net tag source dest = some (m, net')) :
    net tag source dest = m :: net' tag source dest ∧
      ∀ t src dst, ¬ (t = tag ∧ src = source ∧ dst = dest) → net' t src dst = net t src dst := by
  rw [take] at h
  split at h
  · cases h
  · next m' ms hn =>
      obtain ⟨rfl, rfl⟩ := Prod.mk.inj (Option.some.inj h)
      refine ⟨by simp [hn], ?_⟩
      intro t src dst hne
      exact if_neg hne

/-- A copy for every rank of a list without repetitions reaches each of them once. -/
theorem received_map (tag tag' : Tag) (dests : List Nat) (hn : dests.Nodup) (data : M) (dst : Nat) :
    received tag' dst (dests.map fun d => (⟨tag, d, data⟩ : Envelope Tag M)) =
      if tag = tag' ∧ dst ∈ dests then [data] else [] := by
  induction dests with
  | nil => simp
  | cons d ds ih =>
      obtain ⟨hd, hn⟩ := List.nodup_cons.mp hn
      rw [List.map_cons, received_cons, ih hn]
      by_cases ht : tag = tag'
      · by_cases hdst : d = dst
        · subst hdst
          simp [ht, hd]
        · simp [ht, hdst, Ne.symm hdst]
      · simp [ht]

end Mallob.Network
