/-! # Stable sorting of parts of lists

Spans and captures are put in order by a stable sort. What is left out before sorting is missing
from the result and changes nothing else: sorting a sublist gives a sublist, sorting commutes with
filtering, and items that are tied keep their order. So two lists are sorted to the same one if they
list the items of every tie in the same order.
-/
namespace TreeRules.StableOrder

variable {α : Type} {le : α → α → Bool}

/-- Sorting puts an item behind all that it may not precede and in front of all that it may. -/
theorem mergeSort_cons_split (trans : ∀ a b c, le a b → le b c → le a c)
    (total : ∀ a b, le a b || le b a) (a : α) (l : List α) :
    ∃ front back, (a :: l).mergeSort le = front ++ a :: back ∧ l.mergeSort le = front ++ back ∧
      (∀ b ∈ front, le a b = false) ∧ ∀ b ∈ back, le a b = true := by
  obtain ⟨front, back, hcons, hrest, hfront⟩ := List.mergeSort_cons trans total a l
  refine ⟨front, back, hcons, hrest, fun b hb => by simpa using hfront b hb, ?_⟩
  have hsorted := List.pairwise_mergeSort trans total (a :: l)
  rw [hcons, List.pairwise_append, List.pairwise_cons] at hsorted
  exact hsorted.2.1.1

/-- The two sides of such a split are sublists of those of a larger one. -/
theorem sublist_of_split {q : α → Bool} {front back front' back' : List α}
    (h : (front ++ back).Sublist (front' ++ back'))
    (hf : ∀ b ∈ front, q b = false) (hb : ∀ b ∈ back, q b = true)
    (hf' : ∀ b ∈ front', q b = false) (hb' : ∀ b ∈ back', q b = true) :
    front.Sublist front' ∧ back.Sublist back' := by
  have keep : ∀ {p : α → Bool} {l : List α}, (∀ b ∈ l, p b = true) → l.filter p = l :=
    fun h => List.filter_eq_self.2 h
  have drop : ∀ {p : α → Bool} {l : List α}, (∀ b ∈ l, p b = false) → l.filter p = [] := by
    intro p l h
    exact List.filter_eq_nil_iff.2 fun b hm => by simp [h b hm]
  constructor
  · have hfront := h.filter (fun b => !q b)
    rw [List.filter_append, List.filter_append, keep (l := front), keep (l := front'),
      drop (l := back), drop (l := back')] at hfront
    · simpa using hfront
    all_goals intro b hm
    · simp [hb' b hm]
    · simp [hb b hm]
    · simp [hf' b hm]
    · simp [hf b hm]
  · have hback := h.filter q
    rwa [List.filter_append, List.filter_append, drop hf, drop hf', keep hb, keep hb',
      List.nil_append, List.nil_append] at hback

theorem mergeSort_sublist (trans : ∀ a b c, le a b → le b c → le a c)
    (total : ∀ a b, le a b || le b a) {s l : List α} (h : s.Sublist l) :
    (s.mergeSort le).Sublist (l.mergeSort le) := by
  induction h with
  | slnil => exact List.Sublist.refl _
  | cons a _ ih =>
    obtain ⟨front, back, hcons, hrest, _⟩ := mergeSort_cons_split trans total a _
    rw [hcons]
    rw [hrest] at ih
    exact ih.trans (List.Sublist.append_left (List.sublist_cons_self a back) front)
  | cons_cons a _ ih =>
    obtain ⟨front, back, hcons, hrest, hf, hb⟩ := mergeSort_cons_split trans total a _
    obtain ⟨front', back', hcons', hrest', hf', hb'⟩ := mergeSort_cons_split trans total a _
    rw [hrest, hrest'] at ih
    rw [hcons, hcons']
    obtain ⟨hfront, hback⟩ := sublist_of_split ih hf hb hf' hb'
    exact hfront.append (hback.cons_cons a)

theorem filter_mergeSort (trans : ∀ a b c, le a b → le b c → le a c)
    (total : ∀ a b, le a b || le b a) (p : α → Bool) (l : List α) :
    (l.mergeSort le).filter p = (l.filter p).mergeSort le := by
  have hsub := (mergeSort_sublist trans total (List.filter_sublist (p := p) (l := l))).filter p
  have hself : ((l.filter p).mergeSort le).filter p = (l.filter p).mergeSort le := by
    refine List.filter_eq_self.2 fun b hb => ?_
    exact (List.mem_filter.1 (List.mem_mergeSort.1 hb)).2
  rw [hself] at hsub
  refine (hsub.eq_of_length ?_).symm
  rw [List.length_mergeSort, ← List.countP_eq_length_filter, ← List.countP_eq_length_filter]
  exact ((List.mergeSort_perm l le).countP_eq p).symm

/-- Items that are tied keep their order. -/
theorem filter_mergeSort_of_tied (trans : ∀ a b c, le a b → le b c → le a c)
    (total : ∀ a b, le a b || le b a) {p : α → Bool} (tied : ∀ a b, p a → p b → le a b)
    (l : List α) : (l.mergeSort le).filter p = l.filter p := by
  rw [filter_mergeSort trans total]
  refine List.mergeSort_of_pairwise (List.pairwise_of_forall_mem_list ?_)
  intro a ha b hb
  exact tied a b (List.mem_filter.1 ha).2 (List.mem_filter.1 hb).2

/-- Each of two items may stand before the other. -/
def tied (le : α → α → Bool) (a b : α) : Bool := le a b && le b a

theorem tied_self (total : ∀ a b, le a b || le b a) (a : α) : tied le a a = true := by
  have hself := total a a
  rw [Bool.or_self] at hself
  rw [tied, hself, Bool.and_self]

theorem mem_iff_of_filter_tied (total : ∀ a b, le a b || le b a) {xs ys : List α}
    (h : ∀ a, xs.filter (tied le a) = ys.filter (tied le a)) (a : α) : a ∈ xs ↔ a ∈ ys := by
  have hparts : a ∈ xs.filter (tied le a) ↔ a ∈ ys.filter (tied le a) := by rw [h a]
  rw [List.mem_filter, List.mem_filter, tied_self total] at hparts
  simpa using hparts

/-- A sorted list is given by the order of its items within ties. -/
theorem eq_of_filter_tied (total : ∀ a b, le a b || le b a) {xs ys : List α}
    (hx : xs.Pairwise fun a b => le a b = true) (hy : ys.Pairwise fun a b => le a b = true)
    (h : ∀ a, xs.filter (tied le a) = ys.filter (tied le a)) : xs = ys := by
  induction xs generalizing ys with
  | nil =>
    refine (List.eq_nil_iff_forall_not_mem.2 fun a ha => ?_).symm
    exact absurd ((mem_iff_of_filter_tied total h a).2 ha) (by simp)
  | cons x xs ih =>
    have hmem := mem_iff_of_filter_tied total h
    cases ys with
    | nil => exact absurd ((hmem x).1 List.mem_cons_self) (by simp)
    | cons y ys =>
      obtain ⟨hxs, hxtail⟩ := List.pairwise_cons.1 hx
      obtain ⟨hys, hytail⟩ := List.pairwise_cons.1 hy
      have hself : ∀ a, le a a = true := fun a => (Bool.and_eq_true _ _ ▸ tied_self total a).1
      -- Each head is a member of the other list, so neither may stand only behind the other.
      have hxy : le x y = true := by
        rcases List.mem_cons.1 ((hmem y).2 List.mem_cons_self) with rfl | hlater
        · exact hself y
        · exact hxs y hlater
      have hyx : le y x = true := by
        rcases List.mem_cons.1 ((hmem x).1 List.mem_cons_self) with rfl | hlater
        · exact hself x
        · exact hys x hlater
      have hheads := h x
      rw [List.filter_cons_of_pos (tied_self total x),
        List.filter_cons_of_pos (by rw [tied, hxy, hyx]; rfl)] at hheads
      obtain ⟨rfl, -⟩ := List.cons_eq_cons.1 hheads
      have htails : ∀ a, xs.filter (tied le a) = ys.filter (tied le a) := by
        intro a
        have hboth := h a
        cases htied : tied le a x with
        | true =>
          rw [List.filter_cons_of_pos htied, List.filter_cons_of_pos htied] at hboth
          exact (List.cons_eq_cons.1 hboth).2
        | false =>
          have hnot : ¬tied le a x = true := Bool.eq_false_iff.1 htied
          rwa [List.filter_cons_of_neg hnot, List.filter_cons_of_neg hnot] at hboth
      rw [ih hxtail hytail htails]

theorem mergeSort_congr (trans : ∀ a b c, le a b → le b c → le a c)
    (total : ∀ a b, le a b || le b a) {l l' : List α}
    (h : ∀ a, l.filter (tied le a) = l'.filter (tied le a)) :
    l.mergeSort le = l'.mergeSort le := by
  have hties : ∀ a b c, tied le a b → tied le a c → le b c := by
    intro a b c hb hc
    rw [tied, Bool.and_eq_true] at hb hc
    exact trans b a c hb.2 hc.1
  refine eq_of_filter_tied total (List.pairwise_mergeSort trans total l)
    (List.pairwise_mergeSort trans total l') fun a => ?_
  rw [filter_mergeSort_of_tied trans total (hties a),
    filter_mergeSort_of_tied trans total (hties a), h a]

end TreeRules.StableOrder
