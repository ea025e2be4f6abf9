import Mathlib

namespace Mallob

variable {α : Type} {lt : α → α → Bool}

/-- A strict weak order, as std::set expects of its comparator. -/
class Comparator (lt : α → α → Bool) : Prop where
  irrefl : ∀ a, lt a a = false
  trans : ∀ a b c, lt a b = true → lt b c = true → lt a c = true
  split : ∀ a b c, lt a c = true → lt a b = true ∨ lt b c = true

theorem Comparator.of_key {κ : Type} [LinearOrder κ] (key : α → κ) (h : ∀ a b, lt a b = true ↔ key a < key b) :
    Comparator lt where
  irrefl := fun a => by rw [← Bool.not_eq_true, h]; exact lt_irrefl _
  trans := fun a b c hab hbc => by rw [h] at *; exact hab.trans hbc
  split := fun a b c hac => by rw [h] at *; rw [h]; exact lt_or_ge _ _ |>.imp_right fun hge => hge.trans_lt hac

theorem Comparator.asymm [Comparator lt] {a b : α} (h : lt a b = true) : lt b a = false := by
  by_contra hba
  have hself := Comparator.trans a b a h (by simpa using hba)
  have hirrefl : lt a a = false := Comparator.irrefl a
  rw [hirrefl] at hself
  cases hself

/-- Neither element stands before the other: a set holds at most one of them. -/
def equivalent (lt : α → α → Bool) (a b : α) : Bool := !lt a b && !lt b a

theorem equivalent_iff {a b : α} : equivalent lt a b = true ↔ lt a b = false ∧ lt b a = false := by
  simp [equivalent]

theorem equivalent_self [Comparator lt] (a : α) : equivalent lt a a = true := by
  simp [equivalent, Comparator.irrefl]

theorem equivalent_iff_key {κ : Type} [LinearOrder κ] {key : α → κ} (h : ∀ a b, lt a b = true ↔ key a < key b)
    {a b : α} : equivalent lt a b = true ↔ key a = key b := by
  rw [equivalent_iff, ← Bool.not_eq_true, ← Bool.not_eq_true, h, h, not_lt, not_lt]
  exact ⟨fun ⟨hab, hba⟩ => le_antisymm hba hab, fun heq => ⟨heq.ge, heq.le⟩⟩

structure OrderedSet (lt : α → α → Bool) where
  toList : List α
  sorted : toList.Pairwise fun a b => lt a b = true

namespace OrderedSet

def insertSorted (lt : α → α → Bool) (x : α) : List α → List α
  | [] => [x]
  | y :: ys => if lt x y then x :: y :: ys else if lt y x then y :: insertSorted lt x ys else y :: ys

theorem mem_insertSorted {x a : α} {xs : List α} (h : a ∈ insertSorted lt x xs) : a = x ∨ a ∈ xs := by
  induction xs with
  | nil => simpa [insertSorted] using h
  | cons y ys ih =>
      rw [insertSorted] at h
      split at h
      · simpa using h
      · split at h
        · rcases List.mem_cons.mp h with rfl | h
          · exact Or.inr (by simp)
          · exact (ih h).imp_right (List.mem_cons_of_mem y)
        · exact Or.inr h

theorem sorted_insertSorted [Comparator lt] (x : α) {xs : List α} (h : xs.Pairwise fun a b => lt a b = true) :
    (insertSorted lt x xs).Pairwise fun a b => lt a b = true := by
  induction xs with
  | nil => exact List.pairwise_singleton _ _
  | cons y ys ih =>
      obtain ⟨hy, hys⟩ := List.pairwise_cons.mp h
      rw [insertSorted]
      split
      · next hxy =>
          refine List.pairwise_cons.mpr ⟨?_, h⟩
          intro z hz
          rcases List.mem_cons.mp hz with rfl | hz
          · exact hxy
          · exact Comparator.trans x y z hxy (hy z hz)
      · split
        · next hyx =>
            refine List.pairwise_cons.mpr ⟨?_, ih hys⟩
            intro z hz
            rcases mem_insertSorted hz with rfl | hz
            · exact hyx
            · exact hy z hz
        · exact h

variable [Comparator lt]

def empty : OrderedSet lt := ⟨[], List.Pairwise.nil⟩

def insert (s : OrderedSet lt) (x : α) : OrderedSet lt := ⟨insertSorted lt x s.toList, sorted_insertSorted x s.sorted⟩

def insertAll (s : OrderedSet lt) (xs : List α) : OrderedSet lt := xs.foldl insert s

def contains (s : OrderedSet lt) (x : α) : Bool := s.toList.any (equivalent lt x)

def erase (s : OrderedSet lt) (x : α) : OrderedSet lt :=
  ⟨s.toList.filter fun y => !equivalent lt x y, s.sorted.filter _⟩

def map (s : OrderedSet lt) (f : α → α) (h : ∀ a b, lt (f a) (f b) = lt a b) : OrderedSet lt :=
  ⟨s.toList.map f, List.pairwise_map.mpr (s.sorted.imp fun hab => (h _ _).trans hab)⟩

def eraseAll (s : OrderedSet lt) (xs : List α) : OrderedSet lt := xs.foldl erase s

def recompare (s : OrderedSet lt) (lt' : α → α → Bool) (h : ∀ a ∈ s.toList, ∀ b ∈ s.toList, lt' a b = lt a b) :
    OrderedSet lt' :=
  ⟨s.toList, s.sorted.imp_of_mem fun ha hb hab => (h _ ha _ hb).trans hab⟩

omit [Comparator lt] in
theorem ext {s t : OrderedSet lt} (h : s.toList = t.toList) : s = t := by
  cases s; cases t; cases h; rfl

theorem insertSorted_of_equivalent {x y : α} (he : equivalent lt x y = true) {xs : List α}
    (h : xs.Pairwise fun a b => lt a b = true) (hy : y ∈ xs) : insertSorted lt x xs = xs := by
  obtain ⟨hxy, hyx⟩ := equivalent_iff.mp he
  induction xs with
  | nil => cases hy
  | cons z zs ih =>
      obtain ⟨hz, hzs⟩ := List.pairwise_cons.mp h
      rw [insertSorted]
      rcases List.mem_cons.mp hy with rfl | hy
      · simp [hxy, hyx]
      · have hzx : lt z x = true := by
          rcases Comparator.split z x y (hz y hy) with h | h
          · exact h
          · rw [hxy] at h; cases h
        rw [if_neg (by simp [Comparator.asymm hzx]), if_pos hzx, ih hzs hy]

/-- Inserting an element equivalent to one in the set changes nothing. -/
theorem insert_of_equivalent (s : OrderedSet lt) {x y : α} (he : equivalent lt x y = true) (hy : y ∈ s.toList) :
    s.insert x = s := ext (insertSorted_of_equivalent he s.sorted hy)

omit [Comparator lt] in
theorem insertSorted_last {x : α} {xs : List α} (hirr : ∀ y ∈ xs, lt x y = false) (h : ∀ y ∈ xs, lt y x = true) :
    insertSorted lt x xs = xs ++ [x] := by
  induction xs with
  | nil => rfl
  | cons y ys ih =>
      rw [insertSorted, if_neg (by simp [hirr y]), if_pos (h y (by simp)),
        ih (fun z hz => hirr z (by simp [hz])) (fun z hz => h z (by simp [hz]))]
      rfl

theorem insertAll_of_sorted (s : OrderedSet lt) {xs : List α}
    (h : (s.toList ++ xs).Pairwise fun a b => lt a b = true) : (s.insertAll xs).toList = s.toList ++ xs := by
  induction xs generalizing s with
  | nil => simp [insertAll]
  | cons x xs ih =>
      have hbefore : ∀ y ∈ s.toList, lt y x = true := fun y hy => (List.pairwise_append.mp h).2.2 y hy x (by simp)
      have hx : (s.insert x).toList = s.toList ++ [x] :=
        insertSorted_last (fun y hy => Comparator.asymm (hbefore y hy)) hbefore
      rw [List.append_cons, ← hx] at h
      have hrest := ih (s.insert x) h
      rw [hx] at hrest
      simpa [insertAll] using hrest

omit [Comparator lt] in
theorem eq_of_equivalent (s : OrderedSet lt) {a b : α} (ha : a ∈ s.toList) (hb : b ∈ s.toList)
    (h : equivalent lt a b = true) : a = b := by
  obtain ⟨hab, hba⟩ := equivalent_iff.mp h
  obtain ⟨front, back, hsplit⟩ := List.append_of_mem ha
  have hs := s.sorted
  rw [hsplit, List.pairwise_append, List.pairwise_cons] at hs
  obtain ⟨_, ⟨hback, _⟩, hfront⟩ := hs
  rw [hsplit, List.mem_append, List.mem_cons] at hb
  rcases hb with hb | rfl | hb
  · have := hfront b hb a (by simp)
    rw [hba] at this
    cases this
  · rfl
  · have := hback b hb
    rw [hab] at this
    cases this

theorem nodup (s : OrderedSet lt) : s.toList.Nodup := by
  refine s.sorted.imp ?_
  rintro a b hab rfl
  have hirrefl : lt a a = false := Comparator.irrefl a
  rw [hirrefl] at hab
  cases hab

theorem mem_of_mem_insert {s : OrderedSet lt} {x a : α} (h : a ∈ (s.insert x).toList) : a = x ∨ a ∈ s.toList :=
  mem_insertSorted h

theorem mem_insert_of_mem (s : OrderedSet lt) (x : α) {a : α} (h : a ∈ s.toList) : a ∈ (s.insert x).toList := by
  have hkept : ∀ xs : List α, a ∈ xs → a ∈ insertSorted lt x xs := by
    intro xs hmem
    induction xs with
    | nil => cases hmem
    | cons y ys ih =>
        rw [insertSorted]
        split
        · exact List.mem_cons_of_mem x hmem
        · split
          · rcases List.mem_cons.mp hmem with rfl | hmem
            · exact List.mem_cons_self
            · exact List.mem_cons_of_mem y (ih hmem)
          · exact hmem
  exact hkept s.toList h

theorem mem_of_mem_insertAll {s : OrderedSet lt} {xs : List α} {a : α} (h : a ∈ (s.insertAll xs).toList) :
    a ∈ s.toList ∨ a ∈ xs := by
  induction xs generalizing s with
  | nil => exact Or.inl h
  | cons x xs ih =>
      have hrest : a ∈ (s.insert x).toList ∨ a ∈ xs := ih h
      rcases hrest with hins | hmem
      · rcases mem_of_mem_insert hins with rfl | hs
        · exact Or.inr (by simp)
        · exact Or.inl hs
      · exact Or.inr (List.mem_cons_of_mem x hmem)

theorem exists_equivalent_of_insert (s : OrderedSet lt) (x : α) :
    ∃ y ∈ (s.insert x).toList, equivalent lt x y = true ∧ (y = x ∨ y ∈ s.toList) := by
  have hmem : ∃ y ∈ insertSorted lt x s.toList, equivalent lt x y = true := by
    induction s.toList with
    | nil => exact ⟨x, by simp [insertSorted], equivalent_self x⟩
    | cons y ys ih =>
        rw [insertSorted]
        split
        · exact ⟨x, by simp, equivalent_self x⟩
        · split
          · obtain ⟨z, hz, he⟩ := ih
            exact ⟨z, List.mem_cons_of_mem y hz, he⟩
          · next hxy hyx =>
              exact ⟨y, by simp, equivalent_iff.mpr ⟨by simpa using hxy, by simpa using hyx⟩⟩
  obtain ⟨y, hy, he⟩ := hmem
  exact ⟨y, hy, he, mem_insertSorted hy⟩

omit [Comparator lt] in
theorem mem_erase_iff (s : OrderedSet lt) {x a : α} :
    a ∈ (s.erase x).toList ↔ a ∈ s.toList ∧ equivalent lt x a = false := by
  rw [erase, List.mem_filter, Bool.not_eq_true']

omit [Comparator lt] in
theorem mem_eraseAll_iff (s : OrderedSet lt) {xs : List α} {a : α} :
    a ∈ (s.eraseAll xs).toList ↔ a ∈ s.toList ∧ ∀ x ∈ xs, equivalent lt x a = false := by
  induction xs generalizing s with
  | nil => simp [eraseAll]
  | cons x xs ih =>
      have hrest : a ∈ (s.eraseAll (x :: xs)).toList ↔
          a ∈ (s.erase x).toList ∧ ∀ y ∈ xs, equivalent lt y a = false := ih (s.erase x)
      rw [hrest, mem_erase_iff]
      simp [and_assoc]

omit [Comparator lt] in
theorem eraseAll_sublist (s : OrderedSet lt) (xs : List α) : (s.eraseAll xs).toList.Sublist s.toList := by
  induction xs generalizing s with
  | nil => exact List.Sublist.refl _
  | cons x xs ih => exact (ih (s.erase x)).trans List.filter_sublist

theorem not_mem_erase (s : OrderedSet lt) (x : α) : x ∉ (s.erase x).toList := by
  simp [erase, equivalent_self]

omit [Comparator lt] in
theorem perm_insertSorted {x : α} {xs : List α} (h : ∀ y ∈ xs, equivalent lt x y = false) :
    (insertSorted lt x xs).Perm (x :: xs) := by
  induction xs with
  | nil => exact List.Perm.refl _
  | cons y ys ih =>
      have hrest := ih fun z hz => h z (List.mem_cons_of_mem y hz)
      rw [insertSorted]
      split
      · exact List.Perm.refl _
      · next hxy =>
          split
          · exact (hrest.cons y).trans (List.Perm.swap x y ys)
          · next hyx =>
              have he := equivalent_iff.mpr ⟨by simpa using hxy, by simpa using hyx⟩
              rw [h y List.mem_cons_self] at he
              cases he

theorem perm_insert (s : OrderedSet lt) {x : α} (h : ∀ y ∈ s.toList, equivalent lt x y = false) :
    (s.insert x).toList.Perm (x :: s.toList) := perm_insertSorted h

theorem perm_erase (s : OrderedSet lt) {x : α} (hx : x ∈ s.toList) : s.toList.Perm (x :: (s.erase x).toList) := by
  have hnodup : (x :: (s.erase x).toList).Nodup := List.nodup_cons.mpr ⟨s.not_mem_erase x, (s.erase x).nodup⟩
  refine (List.perm_ext_iff_of_nodup s.nodup hnodup).mpr fun a => ?_
  rw [List.mem_cons, mem_erase_iff]
  constructor
  · intro ha
    by_cases he : equivalent lt x a = true
    · exact Or.inl (s.eq_of_equivalent hx ha he).symm
    · exact Or.inr ⟨ha, by simpa using he⟩
  · rintro (rfl | ⟨ha, -⟩)
    · exact hx
    · exact ha

omit [Comparator lt] in
theorem mem_insertSorted_iff (hinj : ∀ a b, equivalent lt a b = true → a = b) {x a : α} {xs : List α} :
    a ∈ insertSorted lt x xs ↔ a = x ∨ a ∈ xs := by
  refine ⟨mem_insertSorted, ?_⟩
  induction xs with
  | nil => simp [insertSorted]
  | cons y ys ih =>
      rw [insertSorted]
      split
      · simp
      · split
        · rintro (h | h)
          · exact List.mem_cons_of_mem y (ih (Or.inl h))
          · rcases List.mem_cons.mp h with rfl | h
            · simp
            · exact List.mem_cons_of_mem y (ih (Or.inr h))
        · next hxy hyx =>
            obtain rfl : x = y := hinj x y (equivalent_iff.mpr ⟨by simpa using hxy, by simpa using hyx⟩)
            rintro (rfl | h)
            · simp
            · exact h

section Total

variable (hinj : ∀ a b, equivalent lt a b = true → a = b)

include hinj

/-- Under a comparator that tells all elements apart a set is what it contains. -/
theorem mem_insert (s : OrderedSet lt) {x a : α} : a ∈ (s.insert x).toList ↔ a = x ∨ a ∈ s.toList :=
  mem_insertSorted_iff hinj

theorem contains_iff (s : OrderedSet lt) {x : α} : s.contains x = true ↔ x ∈ s.toList := by
  rw [contains, List.any_eq_true]
  constructor
  · rintro ⟨y, hy, he⟩
    rw [hinj x y he]
    exact hy
  · intro hx
    exact ⟨x, hx, equivalent_self x⟩

theorem mem_erase (s : OrderedSet lt) {x a : α} : a ∈ (s.erase x).toList ↔ a ≠ x ∧ a ∈ s.toList := by
  rw [erase, List.mem_filter, Bool.not_eq_true', and_comm]
  refine and_congr_left fun _ => ?_
  constructor
  · rintro he rfl
    rw [equivalent_self] at he
    cases he
  · intro hne
    rw [← Bool.not_eq_true]
    exact fun he => hne (hinj x a he).symm

theorem mem_insertAll (s : OrderedSet lt) {xs : List α} {a : α} :
    a ∈ (s.insertAll xs).toList ↔ a ∈ s.toList ∨ a ∈ xs := by
  induction xs generalizing s with
  | nil => simp [insertAll]
  | cons x xs ih =>
      have hrest := ih (s.insert x)
      rw [mem_insert hinj] at hrest
      rw [List.mem_cons, show s.insertAll (x :: xs) = (s.insert x).insertAll xs from rfl, hrest]
      tauto

end Total

def next (s : OrderedSet lt) : Option α → Option α
  | none => s.toList.head?
  | some x => s.toList.find? fun y => lt x y

omit [Comparator lt] in
theorem next_none_eq_none {s : OrderedSet lt} (h : s.next none = none) : s.toList = [] := List.head?_eq_none_iff.mp h

omit [Comparator lt] in
theorem next_none_eq_some {s : OrderedSet lt} {x : α} (h : s.next none = some x) :
    x ∈ s.toList ∧ ∀ y ∈ s.toList, y = x ∨ lt x y = true := by
  obtain ⟨xs, hxs⟩ := List.head?_eq_some_iff.mp h
  have hs := s.sorted
  rw [hxs] at hs ⊢
  refine ⟨by simp, ?_⟩
  intro y hy
  rcases List.mem_cons.mp hy with rfl | hy
  · exact Or.inl rfl
  · exact Or.inr ((List.pairwise_cons.mp hs).1 y hy)

theorem next_split (s : OrderedSet lt) {front back : List α} (h : s.toList = front ++ back) :
    s.next front.getLast? = back.head? := by
  rcases List.eq_nil_or_concat front with rfl | ⟨front, x, rfl⟩
  · simp [next, h]
  · have hs := s.sorted
    rw [h, List.concat_eq_append, List.append_assoc, List.pairwise_append, List.singleton_append,
      List.pairwise_cons] at hs
    obtain ⟨_, ⟨hx, _⟩, hf⟩ := hs
    have hfront : front.find? (fun y => lt x y) = none := by
      rw [List.find?_eq_none]
      intro y hy
      simp [Comparator.asymm (hf y hy x (by simp))]
    rw [List.concat_eq_append, List.getLast?_concat, next, h, List.concat_eq_append, List.append_assoc,
      List.find?_append, hfront, Option.none_or, List.singleton_append,
      List.find?_cons_of_neg (by simp [Comparator.irrefl])]
    cases back with
    | nil => rfl
    | cons y ys => rw [List.find?_cons_of_pos (hx y (by simp))]; rfl

end OrderedSet

end Mallob
