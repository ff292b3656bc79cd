import LanguageServer.Proofs.Token.Cut

set_option autoImplicit false

/-! # Scripts that lead from one array to the other

A script of kept pieces, deletions and insertions **fits** two arrays when its steps stand one after
the other in both of them and every kept piece holds equal numbers (`Script.Fits`). Two entries of a
step are left open. A deletion takes nothing from the new array, so it does not matter where in it
the deletion is noted. An insertion takes nothing from the old array; where in it the insertion is
noted is told apart: `Script.Noted` holds when no insertion is noted beyond its place, nor before
the run of changes that it belongs to.

The script of a box fits and is noted so (`Myers.conquer_crosses`). -/

namespace LanguageServer

namespace Step

/-- What becomes of the numbers of the old array that a step covers: kept or not. -/
def fates (s : Step) : List Bool := List.replicate s.oldLength (s.kind = .equal)

/-- Whether a step that stands at `i` in the old array and at `j` in the new one does there what it
says. -/
def FitsAt (old new : Array UInt32) (i j : Nat) (s : Step) : Prop :=
  match s.kind with
  | .equal => s.oldIndex = i ∧ s.newIndex = j ∧ s.newLength = s.oldLength ∧ 0 < s.oldLength ∧
      ∀ t < s.oldLength, old.getD (i + t) 0 = new.getD (j + t) 0
  | .delete => s.oldIndex = i ∧ s.newLength = 0 ∧ 0 < s.oldLength
  | .insert => s.newIndex = j ∧ s.oldLength = 0 ∧ 0 < s.newLength
  | .replace => False

theorem fates_of_equal {s : Step} (h : s.kind = .equal) :
    s.fates = List.replicate s.oldLength true := by
  simp [fates, h]

theorem fates_of_ne {s : Step} (h : s.kind ≠ .equal) :
    s.fates = List.replicate s.oldLength false := by
  simp [fates, h]

section FitsAt

variable {old new : Array UInt32} {i j : Nat} {s : Step}

theorem FitsAt.of_equal (h : s.FitsAt old new i j) (hkind : s.kind = .equal) :
    ∃ n, s = ⟨.equal, i, j, n, n⟩ ∧ 0 < n ∧
      ∀ t < n, old.getD (i + t) 0 = new.getD (j + t) 0 := by
  obtain ⟨kind, oldIndex, newIndex, oldLength, newLength⟩ := s
  subst hkind
  dsimp only [FitsAt] at h
  obtain ⟨rfl, rfl, rfl, hpos, hagree⟩ := h
  exact ⟨_, rfl, hpos, hagree⟩

theorem FitsAt.of_delete (h : s.FitsAt old new i j) (hkind : s.kind = .delete) :
    ∃ noted n, s = ⟨.delete, i, noted, n, 0⟩ ∧ 0 < n := by
  obtain ⟨kind, oldIndex, newIndex, oldLength, newLength⟩ := s
  subst hkind
  dsimp only [FitsAt] at h
  obtain ⟨rfl, rfl, hpos⟩ := h
  exact ⟨_, _, rfl, hpos⟩

theorem FitsAt.of_insert (h : s.FitsAt old new i j) (hkind : s.kind = .insert) :
    ∃ noted n, s = ⟨.insert, noted, j, 0, n⟩ ∧ 0 < n := by
  obtain ⟨kind, oldIndex, newIndex, oldLength, newLength⟩ := s
  subst hkind
  dsimp only [FitsAt] at h
  obtain ⟨rfl, rfl, hpos⟩ := h
  exact ⟨_, _, rfl, hpos⟩

/-- A step that fits and changes something is a deletion or an insertion. -/
theorem FitsAt.kind_of_ne_equal (h : s.FitsAt old new i j) (hequal : s.kind ≠ .equal) :
    s.kind = .delete ∨ s.kind = .insert := by
  cases hkind : s.kind with
  | equal => exact absurd hkind hequal
  | delete => exact Or.inl rfl
  | insert => exact Or.inr rfl
  | replace => simp only [FitsAt, hkind] at h

end FitsAt

end Step

namespace Script

/-! ## What a script covers -/

/-- How many numbers of the new array steps cover. -/
def newSpan : List Step → Nat
  | [] => 0
  | s :: rest => s.newLength + newSpan rest

/-- What becomes of the numbers of the old array that steps cover. -/
def fates (steps : List Step) : List Bool := steps.flatMap Step.fates

/-- How many numbers of the old array steps cover. -/
def oldSpan (steps : List Step) : Nat := (fates steps).length

/-- How many numbers steps keep. -/
def kept (steps : List Step) : Nat := (fates steps).count true

@[simp] theorem newSpan_append (a b : List Step) : newSpan (a ++ b) = newSpan a + newSpan b := by
  induction a with
  | nil => simp [newSpan]
  | cons s rest ih => simp [newSpan, ih, Nat.add_assoc]

@[simp] theorem fates_nil : fates [] = [] := rfl

@[simp] theorem fates_cons (s : Step) (rest : List Step) :
    fates (s :: rest) = s.fates ++ fates rest := by
  simp [fates]

@[simp] theorem fates_append (a b : List Step) : fates (a ++ b) = fates a ++ fates b := by
  simp [fates]

@[simp] theorem oldSpan_nil : oldSpan [] = 0 := rfl

@[simp] theorem oldSpan_cons (s : Step) (rest : List Step) :
    oldSpan (s :: rest) = s.oldLength + oldSpan rest := by
  simp [oldSpan, Step.fates]

@[simp] theorem oldSpan_append (a b : List Step) : oldSpan (a ++ b) = oldSpan a + oldSpan b := by
  simp [oldSpan]

@[simp] theorem kept_nil : kept [] = 0 := rfl

@[simp] theorem kept_append (a b : List Step) : kept (a ++ b) = kept a + kept b := by
  simp [kept]

theorem kept_cons_of_equal {s : Step} (h : s.kind = .equal) (rest : List Step) :
    kept (s :: rest) = s.oldLength + kept rest := by
  simp [kept, Step.fates_of_equal h]

theorem kept_cons_of_ne {s : Step} (h : s.kind ≠ .equal) (rest : List Step) :
    kept (s :: rest) = kept rest := by
  simp [kept, Step.fates_of_ne h, List.count_replicate]

/-! ## Fitting -/

/-- The steps, from places in the two arrays on, each do what they say. -/
def Fits (old new : Array UInt32) : (i j : Nat) → List Step → Prop
  | _, _, [] => True
  | i, j, s :: rest =>
    s.FitsAt old new i j ∧ Fits old new (i + s.oldLength) (j + s.newLength) rest

theorem fits_append {old new : Array UInt32} {i j : Nat} {a b : List Step} :
    Fits old new i j (a ++ b) ↔
      Fits old new i j a ∧ Fits old new (i + oldSpan a) (j + newSpan a) b := by
  induction a generalizing i j with
  | nil => simp [Fits, newSpan]
  | cons s rest ih => simp [Fits, newSpan, ih, and_assoc, Nat.add_assoc]

/-- No kept piece of steps that fit is empty. -/
theorem Fits.length_pos {old new : Array UInt32} {i j : Nat} {steps : List Step} {s : Step}
    (h : Fits old new i j steps) (hs : s ∈ steps) (hkind : s.kind = .equal) : 0 < s.oldLength := by
  induction steps generalizing i j with
  | nil => exact absurd hs List.not_mem_nil
  | cons first rest ih =>
      rcases List.mem_cons.1 hs with rfl | hs
      · obtain ⟨n, rfl, hpos, -⟩ := h.1.of_equal hkind
        exact hpos
      · exact ih h.2 hs

/-- An insertion stands in the new array at or behind the place where its steps start. -/
theorem Fits.le_newIndex {old new : Array UInt32} {i j : Nat} {steps : List Step} {s : Step}
    (h : Fits old new i j steps) (hs : s ∈ steps) (hkind : s.kind = .insert) : j ≤ s.newIndex := by
  induction steps generalizing i j with
  | nil => exact absurd hs List.not_mem_nil
  | cons first rest ih =>
      rcases List.mem_cons.1 hs with rfl | hs
      · obtain ⟨noted, n, rfl, -⟩ := h.1.of_insert hkind
        exact Nat.le_refl _
      · exact Nat.le_trans (Nat.le_add_right _ _) (ih h.2 hs)

/-- Steps that fit, each with the numbers that it keeps, are no more than the numbers of the two
arrays that they cover. -/
theorem Fits.length_le {old new : Array UInt32} {i j : Nat} {steps : List Step}
    (h : Fits old new i j steps) :
    kept steps + steps.length ≤ oldSpan steps + newSpan steps := by
  induction steps generalizing i j with
  | nil => exact Nat.le_refl 0
  | cons s rest ih =>
      obtain ⟨hs, hrest⟩ := h
      have := ih hrest
      rw [oldSpan_cons, newSpan, List.length_cons]
      by_cases hequal : s.kind = .equal
      · obtain ⟨n, rfl, hpos, -⟩ := hs.of_equal hequal
        rw [kept_cons_of_equal hequal]
        dsimp only
        omega
      · rw [kept_cons_of_ne hequal]
        rcases hs.kind_of_ne_equal hequal with hkind | hkind
        · obtain ⟨noted, n, rfl, hpos⟩ := hs.of_delete hkind
          dsimp only
          omega
        · obtain ⟨noted, n, rfl, hpos⟩ := hs.of_insert hkind
          dsimp only
          omega

/-- Steps that fit from `i` and `j` on, with what becomes of the old numbers and how many new ones
there are. -/
structure Covers (old new : Array UInt32) (i j : Nat) (f : List Bool) (n : Nat)
    (steps : List Step) : Prop where
  fits : Fits old new i j steps
  fates : fates steps = f
  newSpan : newSpan steps = n

section Covers

variable {old new : Array UInt32} {i j n : Nat} {f : List Bool}

theorem Covers.nil (old new : Array UInt32) (i j : Nat) : Covers old new i j [] 0 [] :=
  ⟨trivial, rfl, rfl⟩

theorem Covers.append {g : List Bool} {m : Nat} {a b : List Step} (ha : Covers old new i j f n a)
    (hb : Covers old new (i + f.length) (j + n) g m b) :
    Covers old new i j (f ++ g) (n + m) (a ++ b) := by
  obtain ⟨hfits, rfl, rfl⟩ := ha
  obtain ⟨hfits', rfl, rfl⟩ := hb
  exact ⟨fits_append.2 ⟨hfits, hfits'⟩, fates_append a b, newSpan_append a b⟩

theorem Covers.split {a b : List Step} (h : Covers old new i j f n (a ++ b)) :
    ∃ g g' m m', f = g ++ g' ∧ n = m + m' ∧ Covers old new i j g m a ∧
      Covers old new (i + g.length) (j + m) g' m' b := by
  obtain ⟨hfits, rfl, rfl⟩ := h
  obtain ⟨ha, hb⟩ := fits_append.1 hfits
  exact ⟨_, _, _, _, fates_append a b, newSpan_append a b, ⟨ha, rfl, rfl⟩, ⟨hb, rfl, rfl⟩⟩

/-- Steps at the end may be exchanged for others that cover the same. -/
theorem Covers.exchange {a b b' : List Step} (h : Covers old new i j f n (a ++ b))
    (hb : ∀ i j f n, Covers old new i j f n b → Covers old new i j f n b') :
    Covers old new i j f n (a ++ b') := by
  obtain ⟨g, g', m, m', rfl, rfl, ha, htail⟩ := h.split
  exact ha.append (hb _ _ _ _ htail)

theorem Covers.uncons {s : Step} {rest : List Step} (h : Covers old new i j f n (s :: rest)) :
    s.FitsAt old new i j ∧ ∃ g m, f = s.fates ++ g ∧ n = s.newLength + m ∧
      Covers old new (i + s.oldLength) (j + s.newLength) g m rest := by
  obtain ⟨⟨hs, hrest⟩, rfl, rfl⟩ := h
  exact ⟨hs, _, _, fates_cons s rest, rfl, hrest, rfl, rfl⟩

end Covers

/-- Where the insertions are noted: none beyond its place, none before the run of changes that it
belongs to. The run at hand started at `r`, and the steps start at `i`. -/
def Noted : (r i : Nat) → List Step → Prop
  | _, _, [] => True
  | r, i, s :: rest =>
    (s.kind = .insert → r ≤ s.oldIndex ∧ s.oldIndex ≤ i) ∧
      Noted (if s.kind = .equal then i + s.oldLength else r) (i + s.oldLength) rest

theorem Noted.mono {r r' i : Nat} {steps : List Step} (h : Noted r i steps) (hr : r' ≤ r) :
    Noted r' i steps := by
  induction steps generalizing r r' i with
  | nil => trivial
  | cons s rest ih =>
      obtain ⟨hs, hrest⟩ := h
      refine ⟨fun hkind => ⟨Nat.le_trans hr (hs hkind).1, (hs hkind).2⟩, ih hrest ?_⟩
      split
      · exact Nat.le_refl _
      · exact hr

theorem Noted.append {r i : Nat} {a b : List Step} (ha : Noted r i a) (hr : r ≤ i)
    (hb : Noted (i + oldSpan a) (i + oldSpan a) b) : Noted r i (a ++ b) := by
  induction a generalizing r i with
  | nil => exact hb.mono hr
  | cons s rest ih =>
      obtain ⟨hs, hrest⟩ := ha
      refine ⟨hs, ih hrest ?_ ?_⟩
      · split
        · exact Nat.le_refl _
        · omega
      · rw [oldSpan_cons, ← Nat.add_assoc] at hb
        exact hb

end Script

/-! ## The script of a box -/

namespace Myers

open Script

/-- What a script from one corner of a box to the other amounts to. -/
structure Crosses (old new : Array UInt32) (i k j l : Nat) (steps : List Step) : Prop where
  fits : Fits old new i j steps
  oldSpan : i + oldSpan steps = k
  newSpan : j + newSpan steps = l
  noted : Noted i i steps

theorem Crosses.nil (old new : Array UInt32) (i j : Nat) : Crosses old new i i j j [] :=
  ⟨trivial, rfl, rfl, trivial⟩

/-- Scripts of two boxes that touch at a corner make a script of the box around them. -/
theorem Crosses.append {old new : Array UInt32} {i x k j y l : Nat} {a c : List Step}
    (ha : Crosses old new i x j y a) (hc : Crosses old new x k y l c) :
    Crosses old new i k j l (a ++ c) := by
  obtain ⟨hfits, rfl, rfl, hnoted⟩ := ha
  obtain ⟨hfits', rfl, rfl, hnoted'⟩ := hc
  refine ⟨fits_append.2 ⟨hfits, hfits'⟩, ?_, ?_, hnoted.append (Nat.le_refl _) hnoted'⟩
  · rw [oldSpan_append, Nat.add_assoc]
  · rw [newSpan_append, Nat.add_assoc]

theorem equalStep_crosses {old new : Array UInt32} {i j length : Nat}
    (h : ∀ t < length, old.getD (i + t) 0 = new.getD (j + t) 0) :
    Crosses old new i (i + length) j (j + length) (equalStep i j length) := by
  unfold equalStep
  split
  · next hzero => subst hzero; exact Crosses.nil old new i j
  · next hzero =>
      refine ⟨⟨⟨rfl, rfl, rfl, Nat.pos_of_ne_zero hzero, h⟩, trivial⟩, ?_, rfl, ?_, trivial⟩
      · simp
      · intro hkind
        exact absurd hkind StepKind.noConfusion

theorem deletion_crosses (old new : Array UInt32) {i k : Nat} (j : Nat) (h : i < k) :
    Crosses old new i k j j [⟨.delete, i, j, k - i, 0⟩] := by
  refine ⟨⟨⟨rfl, rfl, Nat.sub_pos_of_lt h⟩, trivial⟩, ?_, rfl, ?_, trivial⟩
  · simp only [oldSpan_cons, oldSpan_nil]; omega
  · intro hkind
    exact absurd hkind StepKind.noConfusion

theorem insertion_crosses (old new : Array UInt32) (i : Nat) {j l : Nat} (h : j < l) :
    Crosses old new i i j l [⟨.insert, i, j, 0, l - j⟩] := by
  refine ⟨⟨⟨rfl, rfl, Nat.sub_pos_of_lt h⟩, trivial⟩, rfl, ?_, ?_, trivial⟩
  · simp only [Script.newSpan]; omega
  · intro _
    exact ⟨Nat.le_refl i, Nat.le_refl i⟩

/-- A deletion and then an insertion that is noted where the deletion starts. -/
theorem exchange_crosses (old new : Array UInt32) {i k j l : Nat} (h : i < k) (h' : j < l) :
    Crosses old new i k j l [⟨.delete, i, j, k - i, 0⟩, ⟨.insert, i, j, 0, l - j⟩] := by
  refine ⟨⟨⟨rfl, rfl, Nat.sub_pos_of_lt h⟩, ⟨rfl, rfl, Nat.sub_pos_of_lt h'⟩, trivial⟩, ?_, ?_, ?_⟩
  · simp only [oldSpan_cons, oldSpan_nil]; omega
  · simp only [Script.newSpan]; omega
  · exact ⟨fun hkind => absurd hkind StepKind.noConfusion,
      fun _ => ⟨Nat.le_refl i, Nat.le_add_right i _⟩, trivial⟩

/-- A script of what is left of a box without what its two sides have in common at the ends makes a
script of the box. -/
theorem Crosses.surround {old new : Array UInt32} {b : Box} {p s : Nat} {middle : List Step}
    (hp : ∀ t < p, old.getD (b.oldStart + t) 0 = new.getD (b.newStart + t) 0)
    (hs : ∀ t < s, old.getD (b.oldStop - s + t) 0 = new.getD (b.newStop - s + t) 0)
    (hold : s ≤ b.oldStop) (hnew : s ≤ b.newStop)
    (hmiddle : Crosses old new (b.oldStart + p) (b.oldStop - s) (b.newStart + p) (b.newStop - s)
      middle) :
    Crosses old new b.oldStart b.oldStop b.newStart b.newStop
      (equalStep b.oldStart b.newStart p ++ middle ++
        equalStep (b.oldStop - s) (b.newStop - s) s) := by
  have hlast := equalStep_crosses hs
  rw [Nat.sub_add_cancel hold, Nat.sub_add_cancel hnew] at hlast
  exact ((equalStep_crosses hp).append hmiddle).append hlast

/-- **The script of a box crosses it.** Every cut lies inside the box, so the pieces are boxes too;
and a box that is not cut is one deletion and one insertion, which also crosses it. -/
theorem conquer_crosses (old new : Array UInt32) (fuel : Nat) (b : Box)
    (hold : b.oldStart ≤ b.oldStop) (hnew : b.newStart ≤ b.newStop) :
    Crosses old new b.oldStart b.oldStop b.newStart b.newStop (conquer old new fuel b) := by
  induction fuel using Nat.strongRecOn generalizing b with
  | ind fuel ih =>
      have hp := Box.prefixLength_le old new b
      have hs := Box.suffixLength_le old new
        { b with oldStart := b.oldStart + b.prefixLength old new
                 newStart := b.newStart + b.prefixLength old new }
      unfold conquer
      dsimp only at hs ⊢
      refine Crosses.surround (b.prefixLength_eq old new) (Box.suffixLength_eq old new _)
        (by omega) (by omega) ?_
      -- what is left to cross is the box between the common ends; only its corners matter from here
      generalize Box.suffixLength old new _ = s at hs ⊢
      generalize b.prefixLength old new = p at hp hs ⊢
      have hi : b.oldStart + p ≤ b.oldStop - s := by omega
      have hj : b.newStart + p ≤ b.newStop - s := by omega
      generalize b.oldStart + p = i at hi ⊢
      generalize b.oldStop - s = k at hi ⊢
      generalize b.newStart + p = j at hj ⊢
      generalize b.newStop - s = l at hj ⊢
      split
      · next h =>
          obtain ⟨rfl, rfl⟩ := h
          exact Crosses.nil old new i j
      · split
        · next h => subst h; exact deletion_crosses old new j (by omega)
        · split
          · next h => subst h; exact insertion_crosses old new i (by omega)
          · split
            · next hcut =>
                -- the cut may be a corner, so only the fuel gets less
                obtain ⟨⟨hx, hx'⟩, hy, hy'⟩ := Box.cut_mem hi hj hcut
                exact (ih _ (Nat.lt_succ_self _) ⟨_, _, _, _⟩ hx hy).append
                  (ih _ (Nat.lt_succ_self _) ⟨_, _, _, _⟩ hx' hy')
            · exact exchange_crosses old new (by omega) (by omega)

theorem script_crosses (old new : Array UInt32) :
    Crosses old new 0 old.size 0 new.size (script old new) :=
  conquer_crosses old new _ ⟨0, old.size, 0, new.size⟩ (Nat.zero_le _) (Nat.zero_le _)

end Myers

end LanguageServer
