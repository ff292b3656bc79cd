import LanguageServer.Proofs.Token.Moves

set_option autoImplicit false

/-! # Where insertions are noted

An insertion slides along with the number of the old array that it is noted at, but that number is
not adjusted when the insertion passes a deletion. So the two drift apart. What can be said of the
drift is said in terms of the kept numbers, counted from 0: with `x` of them before an insertion,
its place lies between `gapAt f x`, right behind kept number `x - 1`, and `keptAt f x`, where kept
number `x` stands. A `Mark` holds `x` and the number noted. -/

namespace LanguageServer.Script

/-! ## Kept numbers and the gaps between them -/

/-- How many numbers are deleted before kept number `x`. -/
def deletedBefore : (x : Nat) → (f : List Bool) → Nat
  | _, [] => 0
  | x, false :: f => deletedBefore x f + 1
  | 0, true :: _ => 0
  | x + 1, true :: f => deletedBefore x f

/-- Where kept number `x` stands in the old array. -/
def keptAt (f : List Bool) (x : Nat) : Nat := x + deletedBefore x f

/-- Where the gap before kept number `x` starts. -/
def gapAt (f : List Bool) : (x : Nat) → Nat
  | 0 => 0
  | x + 1 => keptAt f x + 1

section Gaps

variable (f g : List Bool)

theorem keptAt_append (x : Nat) : keptAt (f ++ g) (f.count true + x) = f.length + keptAt g x := by
  induction f with
  | nil => simp [keptAt]
  | cons b f ih =>
      simp only [keptAt] at ih ⊢
      cases b with
      | false =>
          simp only [List.cons_append, deletedBefore, List.length_cons,
            List.count_cons_of_ne (by decide : (false : Bool) ≠ true)]
          omega
      | true =>
          rw [List.count_cons_self, Nat.add_right_comm (f.count true) 1 x]
          simp only [List.cons_append, deletedBefore, List.length_cons]
          omega

theorem deletedBefore_le_succ (x : Nat) : deletedBefore x f ≤ deletedBefore (x + 1) f := by
  induction f generalizing x with
  | nil => exact Nat.le_refl 0
  | cons b f ih =>
      cases b with
      | false => exact Nat.succ_le_succ (ih x)
      | true =>
          cases x with
          | zero => exact Nat.zero_le _
          | succ x => exact ih x

theorem keptAt_mono {x y : Nat} (h : x ≤ y) : keptAt f x + y ≤ keptAt f y + x := by
  induction y with
  | zero =>
      obtain rfl := Nat.le_zero.1 h
      exact Nat.le_refl _
  | succ y ih =>
      rcases Nat.lt_or_eq_of_le h with hlt | rfl
      · have hle := ih (Nat.le_of_lt_succ hlt)
        have hsucc := deletedBefore_le_succ f y
        unfold keptAt at hle ⊢
        omega
      · exact Nat.le_refl _

theorem gapAt_mono {x y : Nat} (h : x ≤ y) : gapAt f x + y ≤ gapAt f y + x := by
  cases x with
  | zero =>
      cases y with
      | zero => exact Nat.le_refl _
      | succ y => simp only [gapAt, keptAt]; omega
  | succ x =>
      cases y with
      | zero => exact absurd h (Nat.not_succ_le_zero x)
      | succ y =>
          have := keptAt_mono f (Nat.le_of_succ_le_succ h)
          simp only [gapAt]
          omega

theorem le_gapAt (x : Nat) : x ≤ gapAt f x := by
  have := gapAt_mono f (Nat.zero_le x)
  rw [show gapAt f 0 = 0 from rfl] at this
  omega

theorem keptAt_lt {x : Nat} (h : x < f.count true) : keptAt (f ++ g) x < f.length := by
  induction f generalizing x with
  | nil => exact absurd h (Nat.not_lt_zero x)
  | cons b f ih =>
      simp only [keptAt] at ih ⊢
      cases b with
      | false =>
          rw [List.count_cons_of_ne (by decide)] at h
          have := ih h
          simp only [List.cons_append, deletedBefore, List.length_cons]
          omega
      | true =>
          rw [List.count_cons_self] at h
          cases x with
          | zero => simp [deletedBefore]
          | succ x =>
              have := ih (Nat.lt_of_succ_lt_succ h)
              simp only [List.cons_append, deletedBefore, List.length_cons]
              omega

/-- The gap that a place lies in starts at or before it. -/
theorem gapAt_le : gapAt (f ++ g) (f.count true) ≤ f.length := by
  cases h : f.count true with
  | zero => exact Nat.zero_le _
  | succ x => exact keptAt_lt f g (by omega)

/-- The kept number after a place stands at or after it. -/
theorem le_keptAt : f.length ≤ keptAt (f ++ g) (f.count true) := by
  have := keptAt_append f g 0
  rw [Nat.add_zero] at this
  omega

end Gaps

/-! ## Marks -/

/-- An insertion: how many kept numbers stand before it and where in the old array it is noted. -/
structure Mark where
  kept : Nat
  noted : Nat

/-- The insertions of a script, with `x` kept numbers before it. -/
def marks (x : Nat) : List Step → List Mark
  | [] => []
  | s :: rest =>
    match s.kind with
    | .equal => marks (x + s.oldLength) rest
    | .insert => ⟨x, s.oldIndex⟩ :: marks x rest
    | _ => marks x rest

section Marks

variable {s : Step} (x : Nat) (rest : List Step)

theorem marks_equal (h : s.kind = .equal) : marks x (s :: rest) = marks (x + s.oldLength) rest := by
  simp only [marks, h]

theorem marks_insert (h : s.kind = .insert) :
    marks x (s :: rest) = ⟨x, s.oldIndex⟩ :: marks x rest := by
  simp only [marks, h]

theorem marks_other (hequal : s.kind ≠ .equal) (hinsert : s.kind ≠ .insert) :
    marks x (s :: rest) = marks x rest := by
  cases h : s.kind <;> simp_all [marks]

theorem marks_append (a b : List Step) : marks x (a ++ b) = marks x a ++ marks (x + kept a) b := by
  induction a generalizing x with
  | nil => rfl
  | cons s a ih =>
      rw [List.cons_append]
      by_cases hequal : s.kind = .equal
      · rw [marks_equal _ _ hequal, marks_equal _ _ hequal, ih, kept_cons_of_equal hequal,
          Nat.add_assoc]
      · rw [kept_cons_of_ne hequal]
        by_cases hinsert : s.kind = .insert
        · rw [marks_insert _ _ hinsert, marks_insert _ _ hinsert, ih, List.cons_append]
        · rw [marks_other _ _ hequal hinsert, marks_other _ _ hequal hinsert, ih]

/-- An insertion has at least as many kept numbers before it as its script, and at most those and
the script's own. -/
theorem marks_kept_le {m : Mark} {steps : List Step} (h : m ∈ marks x steps) :
    x ≤ m.kept ∧ m.kept ≤ x + kept steps := by
  induction steps generalizing x with
  | nil => exact absurd h List.not_mem_nil
  | cons s rest ih =>
      by_cases hequal : s.kind = .equal
      · rw [marks_equal _ _ hequal] at h
        rw [kept_cons_of_equal hequal]
        have := ih _ h
        omega
      · rw [kept_cons_of_ne hequal]
        by_cases hinsert : s.kind = .insert
        · rw [marks_insert _ _ hinsert] at h
          rcases List.mem_cons.1 h with rfl | h
          · exact ⟨Nat.le_refl _, Nat.le_add_right _ _⟩
          · exact ih _ h
        · rw [marks_other _ _ hequal hinsert] at h
          exact ih _ h

end Marks

/-- A mark inside its gap: so are the insertions that have not moved yet. -/
def Mark.Unmoved (f : List Bool) (m : Mark) : Prop :=
  gapAt f m.kept ≤ m.noted ∧ m.noted ≤ keptAt f m.kept

/-- A mark not beyond its gap: so are the insertions at rest. -/
def Mark.Placed (f : List Bool) (m : Mark) : Prop :=
  m.kept ≤ m.noted ∧ m.noted ≤ keptAt f m.kept

/-- A mark that does not reach back to the gap of another. -/
def Mark.Clears (f : List Bool) (m earlier : Mark) : Prop :=
  gapAt f earlier.kept + m.kept ≤ m.noted + earlier.kept

theorem Mark.Unmoved.placed {f : List Bool} {m : Mark} (h : m.Unmoved f) : m.Placed f :=
  ⟨Nat.le_trans (le_gapAt f m.kept) h.1, h.2⟩

theorem Mark.Unmoved.clears {f : List Bool} {m earlier : Mark} (h : m.Unmoved f)
    (hle : earlier.kept ≤ m.kept) : m.Clears f earlier := by
  have := gapAt_mono f hle
  have := h.1
  unfold Mark.Clears
  omega

/-- The insertions of a script noted between their runs' start and their places are unmoved. -/
theorem Noted.unmoved {old new : Array UInt32} {i j r : Nat} {steps : List Step} {f g : List Bool}
    (h : Noted r i steps) (hfits : Fits old new i j steps) (hf : f = g ++ fates steps)
    (hi : i = g.length) (hr : gapAt f (g.count true) ≤ r) :
    ∀ m ∈ marks (g.count true) steps, m.Unmoved f := by
  induction steps generalizing i j r g with
  | nil => intro m hm; exact absurd hm List.not_mem_nil
  | cons s rest ih =>
      intro m hm
      obtain ⟨hs, hrest⟩ := h
      have hsplit : f = (g ++ s.fates) ++ fates rest := by
        rw [hf, fates_cons, List.append_assoc]
      have hlength : i + s.oldLength = (g ++ s.fates).length := by simp [hi, Step.fates]
      have hstart : gapAt f ((g ++ s.fates).count true) ≤ (g ++ s.fates).length := by
        rw [hsplit]; exact gapAt_le _ _
      by_cases hequal : s.kind = .equal
      · have hcount : (g ++ s.fates).count true = g.count true + s.oldLength := by
          simp [Step.fates_of_equal hequal]
        rw [marks_equal _ _ hequal, ← hcount] at hm
        rw [if_pos hequal] at hrest
        exact ih hrest hfits.2 hsplit hlength (hlength ▸ hstart) m hm
      · have hcount : (g ++ s.fates).count true = g.count true := by
          simp [Step.fates_of_ne hequal, List.count_replicate]
        rw [if_neg hequal] at hrest
        have hothers := ih hrest hfits.2 hsplit hlength (hcount ▸ hr)
        rw [hcount] at hothers
        by_cases hinsert : s.kind = .insert
        · rw [marks_insert _ _ hinsert] at hm
          rcases List.mem_cons.1 hm with rfl | hm
          · obtain ⟨hlow, hhigh⟩ := hs hinsert
            refine ⟨Nat.le_trans hr hlow, Nat.le_trans hhigh ?_⟩
            rw [hi, hf]
            exact le_keptAt _ _
          · exact hothers m hm
        · rw [marks_other _ _ hequal hinsert] at hm
          exact hothers m hm

end LanguageServer.Script
