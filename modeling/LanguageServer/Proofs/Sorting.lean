set_option autoImplicit false

/-! # Stable sorting

What a stable sort makes of a list is determined by the list: it is in order, and of the values that
the order does not tell apart it keeps the order that they had (`IsStableSort`). Two lists that agree
in that are sorted alike (`IsStableSort.eq_of_filter_eq`), whatever else differs between them. -/

namespace LanguageServer

variable {α : Type} {le : α → α → Bool}

/-- Whether an order does not tell two values apart. -/
def tied (le : α → α → Bool) (a b : α) : Bool := le a b && le b a

/-- The values of a list in order, those that are tied in the order that they had. -/
structure IsStableSort (le : α → α → Bool) (xs sorted : List α) : Prop where
  perm : sorted.Perm xs
  pairwise : sorted.Pairwise fun a b => le a b = true
  filter_eq : ∀ a, sorted.filter (tied le a) = xs.filter (tied le a)

theorem tied_iff {a b : α} : tied le a b = true ↔ le a b = true ∧ le b a = true := by
  simp [tied]

/-- Merge sort is stable. -/
theorem isStableSort_mergeSort (trans : ∀ a b c, le a b = true → le b c = true → le a c = true)
    (total : ∀ a b, (le a b || le b a) = true) (xs : List α) :
    IsStableSort le xs (xs.mergeSort le) := by
  have hperm := List.mergeSort_perm xs le
  refine ⟨hperm, List.pairwise_mergeSort trans total xs, fun a => ?_⟩
  have htied : (xs.filter (tied le a)).Pairwise fun b c => le b c = true := by
    refine List.pairwise_of_forall_mem_list fun b hb c hc => ?_
    have hb' := tied_iff.1 (List.mem_filter.1 hb).2
    have hc' := tied_iff.1 (List.mem_filter.1 hc).2
    exact trans b a c hb'.2 hc'.1
  have hsub := (List.sublist_mergeSort trans total htied List.filter_sublist).filter (tied le a)
  simp only [List.filter_filter, Bool.and_self] at hsub
  exact (hsub.eq_of_length (hperm.filter _).length_eq.symm).symm

/-- Leaving values out before sorting is leaving them out after it. -/
theorem IsStableSort.filter {xs sorted : List α} (h : IsStableSort le xs sorted) (p : α → Bool) :
    IsStableSort le (xs.filter p) (sorted.filter p) := by
  have hswap (a : α) (ys : List α) :
      (ys.filter p).filter (tied le a) = (ys.filter (tied le a)).filter p := by
    simp only [List.filter_filter, Bool.and_comm]
  refine ⟨h.perm.filter p, h.pairwise.filter p, fun a => ?_⟩
  rw [hswap, h.filter_eq, hswap]

section Determined

variable (hrefl : ∀ a, le a a = true)

include hrefl

theorem mem_iff_of_filter_tied_eq {xs ys : List α}
    (hfilter : ∀ a, xs.filter (tied le a) = ys.filter (tied le a)) (a : α) :
    a ∈ xs ↔ a ∈ ys := by
  have hself : tied le a a = true := tied_iff.2 ⟨hrefl a, hrefl a⟩
  have hboth : a ∈ xs.filter (tied le a) ↔ a ∈ ys.filter (tied le a) := by rw [hfilter a]
  simpa [List.mem_filter, hself] using hboth

/-- Lists in order that have the same tied values in the same order are equal. -/
theorem eq_of_filter_tied_eq {xs ys : List α} (hxs : xs.Pairwise fun a b => le a b = true)
    (hys : ys.Pairwise fun a b => le a b = true)
    (hfilter : ∀ a, xs.filter (tied le a) = ys.filter (tied le a)) : xs = ys := by
  induction xs generalizing ys with
  | nil =>
      cases ys with
      | nil => rfl
      | cons y ys =>
          have hy := (mem_iff_of_filter_tied_eq hrefl hfilter y).2 List.mem_cons_self
          exact absurd hy List.not_mem_nil
  | cons x xs ih =>
      have hx := (mem_iff_of_filter_tied_eq hrefl hfilter x).1 List.mem_cons_self
      cases ys with
      | nil => exact absurd hx List.not_mem_nil
      | cons y ys =>
          have hy := (mem_iff_of_filter_tied_eq hrefl hfilter y).2 List.mem_cons_self
          obtain ⟨hfirst, hxs'⟩ := List.pairwise_cons.1 hxs
          obtain ⟨hfirst', hys'⟩ := List.pairwise_cons.1 hys
          -- each first value is among those of the other list, so the two are tied
          have hxy : le x y = true := by
            rcases List.mem_cons.1 hy with rfl | hy
            · exact hrefl y
            · exact hfirst y hy
          have hyx : le y x = true := by
            rcases List.mem_cons.1 hx with rfl | hx
            · exact hrefl x
            · exact hfirst' x hx
          have hheads := hfilter x
          rw [List.filter_cons_of_pos (tied_iff.2 ⟨hrefl x, hrefl x⟩),
            List.filter_cons_of_pos (tied_iff.2 ⟨hxy, hyx⟩)] at hheads
          obtain ⟨rfl, -⟩ := List.cons.inj hheads
          have hrest : ∀ a, xs.filter (tied le a) = ys.filter (tied le a) := by
            intro a
            have ha := hfilter a
            rw [List.filter_cons, List.filter_cons] at ha
            split at ha
            · exact (List.cons.inj ha).2
            · exact ha
          rw [ih hxs' hys' hrest]

/-- Stable sorts of lists that have the same tied values in the same order are equal. -/
theorem IsStableSort.eq_of_filter_eq {xs ys sorted sorted' : List α}
    (h : IsStableSort le xs sorted) (h' : IsStableSort le ys sorted')
    (hfilter : ∀ a, xs.filter (tied le a) = ys.filter (tied le a)) : sorted = sorted' := by
  refine eq_of_filter_tied_eq hrefl h.pairwise h'.pairwise fun a => ?_
  rw [h.filter_eq, h'.filter_eq, hfilter]

end Determined

end LanguageServer
