import Mathlib

namespace Mallob.Channels

variable {α κ μ : Type} [DecidableEq κ] [DecidableEq μ] {link : α → κ} {lane : α → μ} {flying flying' : List α} {i : Nat}
  {m : α} {k : κ}

def on (link : α → κ) (k : κ) (flying : List α) : List α := flying.filter fun m => link m = k

def isFirst (link : α → κ) (flying : List α) (i : Nat) : Bool :=
  match flying[i]? with
  | none => true
  | some m => (flying.take i).all fun m' => decide (link m' ≠ link m)

@[simp] theorem on_append : on link k (flying ++ flying') = on link k flying ++ on link k flying' :=
  List.filter_append ..

theorem on_eq_nil (h : ∀ m ∈ flying, link m ≠ k) : on link k flying = [] :=
  List.filter_eq_nil_iff.mpr fun m hm => by simpa using h m hm

theorem on_singleton_ne (h : link m ≠ k) : on link k [m] = [] := on_eq_nil (by simpa using h)

theorem isFirst_lane (hlane : ∀ m m', lane m = lane m' → link m = link m') (h : isFirst link flying i = true) :
    isFirst lane flying i = true := by
  rw [isFirst] at h ⊢
  cases hm : flying[i]? with
  | none => rfl
  | some m =>
      rw [hm] at h
      rw [List.all_eq_true] at h ⊢
      intro m' hm'
      exact decide_eq_true fun heq => of_decide_eq_true (h m' hm') (hlane m' m heq)

theorem split_at (hm : flying[i]? = some m) :
    flying = flying.take i ++ m :: flying.drop (i + 1) ∧ flying.eraseIdx i = flying.take i ++ flying.drop (i + 1) := by
  obtain ⟨hi, rfl⟩ := List.getElem?_eq_some_iff.mp hm
  refine ⟨?_, List.eraseIdx_eq_take_drop_succ flying i⟩
  rw [List.getElem_cons_drop, List.take_append_drop]

theorem on_eraseIdx_first (hm : flying[i]? = some m) (hfirst : isFirst link flying i = true) :
    on link (link m) flying = m :: on link (link m) (flying.eraseIdx i) := by
  obtain ⟨hflying, herase⟩ := split_at hm
  rw [isFirst, hm, List.all_eq_true] at hfirst
  have hbefore : on link (link m) (flying.take i) = [] := on_eq_nil fun m' hm' => of_decide_eq_true (hfirst m' hm')
  rw [herase, on_append, hbefore, List.nil_append]
  conv_lhs => rw [hflying]
  rw [on_append, hbefore, List.nil_append, on, List.filter_cons, if_pos (by simp)]
  rfl

theorem on_eraseIdx_other (hm : flying[i]? = some m) (hne : link m ≠ k) :
    on link k (flying.eraseIdx i) = on link k flying := by
  obtain ⟨hflying, herase⟩ := split_at hm
  rw [herase, on_append]
  conv_rhs => rw [hflying]
  rw [on_append]
  congr 1
  rw [on, on, List.filter_cons, if_neg (by simpa using hne)]

/-- What relates the two ends of every edge relates the end of a path to its beginning. -/
theorem related_of_path {ν γ : Type} {edge : ν → ν → Prop} (log : ν → γ) (R : γ → γ → Prop) (hrefl : ∀ x, R x x)
    (htrans : ∀ {x y z}, R x y → R y z → R x z) (h : ∀ a c, edge a c → R (log c) (log a)) {root r : ν}
    (hpath : Relation.ReflTransGen edge root r) : R (log r) (log root) := by
  induction hpath with
  | refl => exact hrefl _
  | tail _ hedge ih => exact htrans (h _ _ hedge) ih

end Mallob.Channels
