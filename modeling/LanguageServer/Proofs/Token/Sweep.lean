import LanguageServer.Proofs.Token.Marks

set_option autoImplicit false

/-! # Moving all changes of a kind

The deletions are moved first. They meet no equal numbers to slide over, so they only change places
with insertions in the same gap: every mark stays as it is (`moveKind_delete`).

Each insertion is then moved up and down again. On its way up it may leave deletions behind, and
then it is noted beyond its place. But what it has slid up over repeats its own numbers
(`Window.repeats`), and nothing is inserted in there (`Window.free`), so it slides down at least
that far again. If it has joined an insertion that was at rest, it need only come down to where that
one was. This way every insertion ends not beyond its gap, and does not reach back to the gap of one
before it (`moveKind_insert`). -/

namespace LanguageServer.Compaction

open Script

/-! ## Marks next to the cursor -/

section Marks

variable (x : Nat) {piece : Step} {s : Nat}

theorem marks_trimLast (hkind : piece.kind = .equal) : marks x (trimLast piece s) = [] := by
  unfold trimLast
  split
  · rfl
  · exact marks_equal _ _ hkind

theorem marks_trimFirst (hkind : piece.kind = .equal) (hs : s ≤ piece.oldLength)
    (after : List Step) :
    marks (x + s) (trimFirst piece s ++ after) = marks (x + piece.oldLength) after := by
  unfold trimFirst
  split
  · next hzero => rw [show s = piece.oldLength by omega]; rfl
  · simp [marks, hkind, Nat.add_assoc, Nat.add_sub_cancel' hs]

theorem marks_keepFirst (hkind : piece.kind = .equal) (after : List Step) :
    marks x (keepFirst piece after) = marks (x + piece.oldLength) after := by
  unfold keepFirst
  split
  · exact marks_equal _ _ hkind
  · split
    · next hnext => simp [marks, hnext, Nat.add_assoc, Nat.add_comm piece.oldLength]
    · exact marks_equal _ _ hkind

theorem marks_keepLast (hkind : piece.kind = .equal) (before : List Step) :
    marks x (keepLast piece before) = marks x before := by
  rcases List.eq_nil_or_concat before with rfl | ⟨before, last, rfl⟩
  · exact marks_equal _ _ hkind
  · rw [List.concat_eq_append, keepLast_concat]
    split
    · next hlast => simp [marks_append, marks, hlast]
    · rw [marks_append _ (before ++ [last]), marks_equal _ _ hkind]
      exact List.append_nil _

theorem kept_keepLast (hkind : piece.kind = .equal) (before : List Step) :
    kept (keepLast piece before) = kept before + piece.oldLength := by
  rcases List.eq_nil_or_concat before with rfl | ⟨before, last, rfl⟩
  · simp [kept_cons_of_equal hkind]
  · rw [List.concat_eq_append, keepLast_concat]
    split
    · next hlast => simp [kept, Step.fates, hlast, Nat.add_assoc]
    · rw [kept_append, kept_cons_of_equal hkind, kept_nil, Nat.add_zero]

theorem marks_concat_other {other : Step} (hother : other.kind ≠ .equal)
    (hinsert : other.kind ≠ .insert) (before : List Step) :
    marks x (before ++ [other]) = marks x before := by
  rw [marks_append, marks_other _ _ hother hinsert]
  exact List.append_nil _

theorem marks_concat_insert {other : Step} (hother : other.kind = .insert) (before : List Step) :
    marks 0 (before ++ [other]) = marks 0 before ++ [⟨kept before, other.oldIndex⟩] := by
  rw [marks_append, marks_insert _ _ hother, Nat.zero_add]
  rfl

theorem kept_concat_of_ne {other : Step} (hother : other.kind ≠ .equal) (before : List Step) :
    kept (before ++ [other]) = kept before := by
  rw [kept_append, kept_cons_of_ne hother, kept_nil, Nat.add_zero]

/-- No insertion comes with a kept piece put in front. -/
theorem mem_of_mem_keepFirst (hkind : piece.kind = .equal) {after : List Step} {t : Step}
    (ht : t ∈ keepFirst piece after) (hinsert : t.kind = .insert) : t ∈ after := by
  unfold keepFirst at ht
  split at ht
  · rw [List.mem_singleton.1 ht, hkind] at hinsert
    exact absurd hinsert (by decide)
  · split at ht
    · next hnext =>
        rcases List.mem_cons.1 ht with rfl | ht
        · rw [hnext] at hinsert
          exact absurd hinsert (by decide)
        · exact List.mem_cons_of_mem _ ht
    · rcases List.mem_cons.1 ht with rfl | ht
      · rw [hkind] at hinsert
        exact absurd hinsert (by decide)
      · exact ht

theorem mem_of_mem_trimFirst (hkind : piece.kind = .equal) {after : List Step} {t : Step}
    (ht : t ∈ trimFirst piece s ++ after) (hinsert : t.kind = .insert) : t ∈ after := by
  rcases List.mem_append.1 ht with ht | ht
  · unfold trimFirst at ht
    split at ht
    · exact absurd ht List.not_mem_nil
    · rw [List.mem_singleton.1 ht, hkind] at hinsert
      exact absurd hinsert (by decide)
  · exact ht

end Marks

/-- A step at a place picks out a cursor. -/
theorem exists_cursor {steps : List Step} {p : Nat} {s : Step} (h : steps[p]? = some s) :
    ∃ c : Cursor, c.steps = steps ∧ c.place = p ∧ c.change = s := by
  obtain ⟨hlt, rfl⟩ := List.getElem?_eq_some_iff.1 h
  refine ⟨⟨steps.take p, steps[p], steps.drop (p + 1)⟩, ?_, ?_, rfl⟩
  · rw [Cursor.steps, List.getElem_cons_drop, List.take_append_drop]
  · exact List.length_take_of_le (Nat.le_of_lt hlt)

/-- One change of a kind is moved up, then down, and the next place is looked at. -/
theorem moveKind_move {old new : Array UInt32} {kind : StepKind} {reach fuel : Nat}
    {c c₁ c₂ : Cursor} (hkind : c.change.kind = kind)
    (hup : moveUp old new reach c.steps c.place = (c₁.steps, c₁.place))
    (hdown : moveDown old new reach c₁.steps c₁.place = (c₂.steps, c₂.place)) :
    moveKind old new kind reach (fuel + 1) c.steps c.place
      = moveKind old new kind reach fuel c₂.steps (c₂.place + 1) := by
  have hget : c.steps[c.place]? = some c.change := getElem?_length_add _ _ 0
  rw [moveKind, hget]
  dsimp only
  rw [if_pos hkind, hup]
  dsimp only
  rw [hdown]

/-! ## Deletions -/

section Deletions

variable {old new : Array UInt32} {f : List Bool} {n : Nat} {M : List Mark}

/-- A deletion on the move: the script fits and its marks are given. -/
def Passing (old new : Array UInt32) (f : List Bool) (n : Nat) (M : List Mark) (c : Cursor) :
    Prop :=
  Covers old new 0 0 f n c.steps ∧ c.change.kind = .delete ∧ marks 0 c.steps = M

/-- A deletion changes places with a step of another kind without a change of marks. -/
theorem marks_swap {x : Nat} {a b : Step} {rest : List Step} (ha : a.kind ≠ .equal)
    (hb : b.kind ≠ .equal) (h : a.kind = .delete ∨ b.kind = .delete) :
    marks x (a :: b :: rest) = marks x (b :: a :: rest) := by
  rcases h with h | h
  · have hnot : a.kind ≠ .insert := by rw [h]; decide
    rw [marks_other _ _ ha hnot]
    by_cases hinsert : b.kind = .insert
    · rw [marks_insert _ _ hinsert, marks_insert _ _ hinsert, marks_other _ _ ha hnot]
    · rw [marks_other _ _ hb hinsert, marks_other _ _ hb hinsert, marks_other _ _ ha hnot]
  · have hnot : b.kind ≠ .insert := by rw [h]; decide
    rw [marks_other _ (a :: rest) hb hnot]
    by_cases hinsert : a.kind = .insert
    · rw [marks_insert _ _ hinsert, marks_insert _ _ hinsert, marks_other _ _ hb hnot]
    · rw [marks_other _ _ ha hinsert, marks_other _ _ ha hinsert, marks_other _ _ hb hnot]

theorem marks_merge {x : Nat} {a b : Step} {rest : List Step} (ha : a.kind = .delete)
    (hb : b.kind = .delete) : marks x (merge a b :: rest) = marks x (a :: b :: rest) := by
  simp [marks, merge, ha, hb]

theorem Passing.rises {c c' : Cursor} (h : Passing old new f n M c) (hc : Rises old new c c') :
    Passing old new f n M c' := by
  obtain ⟨hcovers, hchange, rfl⟩ := h
  have hne : c.change.kind ≠ .equal := by rw [hchange]; decide
  refine ⟨hc.covers hne hcovers, ?_⟩
  cases hc with
  | slide before after piece change s hpiece hs hpos =>
      exact absurd hchange (kind_ne_delete_of_slideUp (hs ▸ hpos))
  | drop before after piece change hpiece hzero =>
      exact absurd hzero (Nat.ne_of_gt (hcovers.fits.length_pos (by simp [Cursor.steps]) hpiece))
  | swap before after other change hother hkind =>
      refine ⟨hchange, ?_⟩
      simp only [Cursor.steps, List.append_assoc, List.singleton_append]
      rw [marks_append, marks_append, marks_swap hne hother (Or.inl hchange)]
  | join before after other change hother hkind =>
      refine ⟨hkind.trans hchange, ?_⟩
      simp only [Cursor.steps, List.append_assoc, List.singleton_append]
      rw [marks_append, marks_append, marks_merge (hkind.trans hchange) hchange]

theorem Passing.sinks {c c' : Cursor} (h : Passing old new f n M c) (hc : Sinks old new c c') :
    Passing old new f n M c' := by
  obtain ⟨hcovers, hchange, rfl⟩ := h
  have hne : c.change.kind ≠ .equal := by rw [hchange]; decide
  refine ⟨hc.covers hne hcovers, ?_⟩
  cases hc with
  | slide before after piece change s hpiece hs hpos =>
      exact absurd hchange (kind_ne_delete_of_slideDown (hs ▸ hpos))
  | drop before after piece change hpiece hzero =>
      exact absurd hzero (Nat.ne_of_gt (hcovers.fits.length_pos (by simp [Cursor.steps]) hpiece))
  | swap before after other change hother hkind =>
      refine ⟨hchange, ?_⟩
      simp only [Cursor.steps, List.append_assoc, List.singleton_append]
      rw [marks_append, marks_append, marks_swap hother hne (Or.inr hchange)]
  | join before after other change hother hkind =>
      refine ⟨hchange, ?_⟩
      simp only [Cursor.steps]
      rw [marks_append, marks_append, marks_merge hchange (hkind.trans hchange)]

/-- **Moving deletions changes no mark.** -/
theorem moveKind_delete (reach fuel p : Nat) {steps : List Step}
    (h : Covers old new 0 0 f n steps) :
    Covers old new 0 0 f n (moveKind old new .delete reach fuel steps p) ∧
      marks 0 (moveKind old new .delete reach fuel steps p) = marks 0 steps := by
  induction fuel generalizing steps p with
  | zero => exact ⟨h, rfl⟩
  | succ fuel ih =>
      cases hstep : steps[p]? with
      | none => simp only [moveKind, hstep]; exact ⟨h, trivial⟩
      | some step =>
          by_cases hkind : step.kind = .delete
          · obtain ⟨c, rfl, rfl, rfl⟩ := exists_cursor hstep
            obtain ⟨c₁, hc₁, -, hup⟩ := moveUp_induct (fun _ _ => Passing.rises) reach
              (⟨h, hkind, rfl⟩ : Passing old new f n (marks 0 c.steps) c)
            obtain ⟨c₂, ⟨hcovers, -, hmarks⟩, -, hdown⟩ :=
              moveDown_induct (fun _ _ => Passing.sinks) reach hc₁
            rw [moveKind_move hkind hup hdown, ← hmarks]
            exact ih _ hcovers
          · simp only [moveKind, hstep, if_neg hkind]
            exact ih _ h

end Deletions

/-! ## Insertions -/

/-- What lets an insertion slide down until `x` kept numbers stand before it: its numbers come again
behind it for as long, and nothing is inserted there. -/
structure Window (new : Array UInt32) (x : Nat) (c : Cursor) : Prop where
  le : x ≤ kept c.steps
  repeats : ∀ t < x - kept c.before, new.getD (c.change.newIndex + t) 0
    = new.getD (c.change.newIndex + c.change.newLength + t) 0
  free : ∀ s ∈ c.after, s.kind = .insert →
    c.change.newIndex + c.change.newLength + (x - kept c.before) ≤ s.newIndex

/-- The insertion at a cursor. -/
def Cursor.mark (c : Cursor) : Mark := ⟨kept c.before, c.change.oldIndex⟩

/-- An insertion on the move: those before it are at rest, those after it have not moved, and it can
come down again to where it is not beyond its gap. -/
structure Moving (old new : Array UInt32) (f : List Bool) (n : Nat) (c : Cursor) : Prop where
  covers : Covers old new 0 0 f n c.steps
  kind : c.change.kind = .insert
  placed : ∀ m ∈ marks 0 c.before, m.Placed f
  apart : (marks 0 c.before).Pairwise fun a b => a.kept < b.kept ∧ b.Clears f a
  unmoved : ∀ m ∈ marks (kept c.before) c.after, m.Unmoved f
  clears : ∀ m ∈ marks 0 c.before, c.mark.Clears f m
  noted : kept c.before ≤ c.change.oldIndex
  window : ∃ x, c.change.oldIndex + x ≤ keptAt f x + kept c.before ∧ Window new x c

section Insertions

variable {old new : Array UInt32} {f : List Bool} {n : Nat}

/-- Insertions behind the one on the move stand behind its end. -/
theorem newIndex_le_of_covers {c : Cursor} (h : Covers old new 0 0 f n c.steps)
    (hkind : c.change.kind = .insert) :
    ∀ s ∈ c.after, s.kind = .insert → c.change.newIndex + c.change.newLength ≤ s.newIndex := by
  intro s hs hinsert
  obtain ⟨g, g', k, k', rfl, rfl, -, htail⟩ := Covers.split h
  obtain ⟨hfits, e, l, rfl, rfl, hafter⟩ := htail.uncons
  obtain ⟨noted, m, hchange, -⟩ := hfits.of_insert hkind
  have := hafter.fits.le_newIndex hs hinsert
  rw [hchange] at this ⊢
  exact this

/-- An insertion right behind another stands at its end. -/
theorem newIndex_next {before after : List Step} {change other : Step}
    (h : Covers old new 0 0 f n (before ++ change :: other :: after))
    (hchange : change.kind = .insert) (hother : other.kind = .insert) :
    other.newIndex = change.newIndex + change.newLength := by
  obtain ⟨g, g', j, n', rfl, rfl, -, htail⟩ := h.split
  obtain ⟨hfits, e, k, rfl, rfl, hrest⟩ := htail.uncons
  obtain ⟨noted, l, rfl, -⟩ := hfits.of_insert hchange
  obtain ⟨noted', l', rfl, -⟩ := hrest.uncons.1.of_insert hother
  rfl

/-- An insertion may come to rest where it starts. -/
theorem window_self {c : Cursor} (h : Covers old new 0 0 f n c.steps)
    (hkind : c.change.kind = .insert) : Window new (kept c.before) c := by
  refine ⟨?_, ?_, ?_⟩
  · rw [Cursor.steps, kept_append]
    exact Nat.le_add_right _ _
  · intro t ht
    omega
  · rw [Nat.sub_self]
    exact newIndex_le_of_covers h hkind

/-- What an insertion has slid up over comes again behind it. -/
theorem slideUp_repeats {before after : List Step} {piece change : Step} {s : Nat}
    (h : Covers old new 0 0 f n ((before ++ [piece]) ++ change :: after))
    (hpiece : piece.kind = .equal) (hchange : change.kind ≠ .equal)
    (hs : slideUp old new change piece = s) (hpos : 0 < s) :
    s ≤ change.newIndex ∧ ∀ t < s, new.getD (change.newIndex - s + t) 0
      = new.getD (change.newIndex - s + change.newLength + t) 0 := by
  rw [List.append_assoc, List.singleton_append] at h
  obtain ⟨g, g', j, n', rfl, rfl, -, htail⟩ := h.split
  obtain ⟨noted, m, l, e, k, rfl, rfl, hm, -, hagree, hsuffix, -⟩ :=
    covers_of_slideUp htail hpiece hchange hs hpos
  refine ⟨Nat.le_add_left_of_le hm, fun t ht => ?_⟩
  have hbefore := hagree (m - s + t) (by omega)
  have hbehind := hsuffix t ht
  rw [show 0 + g.length + (m - s + t) = 0 + g.length + m - s + t by omega,
    show 0 + j + (m - s + t) = 0 + j + m - s + t by omega] at hbefore
  rw [show 0 + j + m + l - s + t = 0 + j + m - s + l + t by omega] at hbehind
  exact hbefore.symm.trans hbehind

/-- How many numbers are kept is decided by their fates. -/
theorem kept_eq_of_covers {a b : List Step} (ha : Covers old new 0 0 f n a)
    (hb : Covers old new 0 0 f n b) : kept b = kept a := by
  rw [kept, kept, ha.fates, hb.fates]

variable {before after : List Step} {piece other change : Step} {s : Nat}

theorem Moving.slidUp (h : Moving old new f n ⟨before ++ [piece], change, after⟩)
    (hpiece : piece.kind = .equal) (hs : slideUp old new change piece = s) (hpos : 0 < s)
    (hcovers : Covers old new 0 0 f n (slidUp before after piece change s).steps) :
    Moving old new f n (slidUp before after piece change s) := by
  have hkept := kept_eq_of_covers h.covers hcovers
  obtain ⟨hc₀, hinsert, hplaced, hapart, hunmoved, hclears, hnoted, x, hx, hle, hrepeats, hfree⟩ :=
    h
  obtain ⟨hindex, hslid⟩ := slideUp_repeats hc₀ hpiece (by rw [hinsert]; decide) hs hpos
  dsimp only [Cursor.mark] at *
  have hsize : s ≤ piece.oldLength := hs ▸ (slideUp_le old new change piece).1
  have hbefore : marks 0 (before ++ trimLast piece s) = marks 0 (before ++ [piece]) := by
    rw [marks_append, marks_append, marks_trimLast _ hpiece, marks_equal _ _ hpiece]
    rfl
  have hlength : kept (before ++ [piece]) = kept (before ++ trimLast piece s) + s := by
    rw [kept_append, kept_append, Nat.add_assoc, kept_trimLast hpiece hsize,
      kept_cons_of_equal hpiece]
    rfl
  have hafter : marks (kept (before ++ trimLast piece s))
      (keepFirst (behind piece change s) after) = marks (kept (before ++ [piece])) after := by
    rw [hlength]
    exact marks_keepFirst _ rfl after
  refine ⟨hcovers, hinsert, ?_, ?_, ?_, ?_, ?_, x, ?_, ?_, ?_, ?_⟩
  · exact fun m hm => hplaced m (hbefore ▸ hm)
  · exact hbefore ▸ hapart
  · exact fun m hm => hunmoved m (hafter ▸ hm)
  · intro m hm
    have := hclears m (hbefore ▸ hm)
    simp only [Mark.Clears, Cursor.mark, Compaction.slidUp] at this ⊢
    omega
  · simp only [Compaction.slidUp]
    omega
  · simp only [Compaction.slidUp]
    omega
  · rw [hkept]
    exact hle
  · intro t ht
    simp only [Compaction.slidUp] at ht ⊢
    -- the numbers just slid over, or those that came again before, one slide further on
    by_cases hlt : t < s
    · exact hslid t hlt
    · have := hrepeats (t - s) (by omega)
      rwa [show change.newIndex + (t - s) = change.newIndex - s + t by omega,
        show change.newIndex + change.newLength + (t - s)
          = change.newIndex - s + change.newLength + t by omega] at this
  · intro t ht hkind
    have := hfree t (mem_of_mem_keepFirst rfl ht hkind) hkind
    simp only [Compaction.slidUp]
    omega

theorem Moving.swappedUp (h : Moving old new f n ⟨before ++ [other], change, after⟩)
    (hother : other.kind ≠ .equal) (hother' : other.kind ≠ .insert)
    (hcovers : Covers old new 0 0 f n (before ++ change :: other :: after)) :
    Moving old new f n ⟨before, change, other :: after⟩ := by
  have hkept := kept_eq_of_covers h.covers hcovers
  obtain ⟨-, hinsert, hplaced, hapart, hunmoved, hclears, hnoted, x, hx, hle, hrepeats, hfree⟩ := h
  dsimp only [Cursor.mark] at *
  have hbefore := marks_concat_other 0 hother hother' before
  have hlength := kept_concat_of_ne hother before
  rw [hbefore] at hplaced hapart
  rw [hlength] at hunmoved hnoted hx hrepeats hfree
  refine ⟨hcovers, hinsert, hplaced, hapart, ?_, ?_, hnoted, x, hx, ?_, hrepeats, ?_⟩
  · rw [marks_other _ _ hother hother']
    exact hunmoved
  · intro m hm
    have := hclears m (hbefore ▸ hm)
    rwa [hlength] at this
  · exact hkept ▸ hle
  · intro s hs hkind
    rcases List.mem_cons.1 hs with rfl | hs
    · exact absurd hkind hother'
    · exact hfree s hs hkind

/-- An insertion that joins one at rest need only come down to where that one was. -/
theorem Moving.joinedUp (h : Moving old new f n ⟨before ++ [other], change, after⟩)
    (hother : other.kind = .insert)
    (hcovers : Covers old new 0 0 f n (before ++ merge other change :: after)) :
    Moving old new f n ⟨before, merge other change, after⟩ := by
  obtain ⟨-, -, hplaced, hapart, hunmoved, -, -, -⟩ := h
  dsimp only at *
  rw [marks_concat_insert hother] at hplaced hapart
  rw [kept_concat_of_ne (by rw [hother]; decide)] at hunmoved
  obtain ⟨hapart, -, hclears⟩ := List.pairwise_append.1 hapart
  have hrest := hplaced _ (List.mem_append_right _ (List.mem_singleton_self _))
  refine ⟨hcovers, hother, ?_, hapart, hunmoved, ?_, hrest.1, kept before, ?_, ?_⟩
  · exact fun m hm => hplaced m (List.mem_append_left _ hm)
  · exact fun m hm => (hclears m hm _ (List.mem_singleton_self _)).2
  · exact Nat.add_le_add_right hrest.2 _
  · exact window_self (c := ⟨before, merge other change, after⟩) hcovers hother

theorem Moving.rises {c c' : Cursor} (h : Moving old new f n c) (hc : Rises old new c c') :
    Moving old new f n c' := by
  have hcovers := hc.covers (by rw [h.kind]; decide) h.covers
  cases hc with
  | slide before after piece change s hpiece hs hpos => exact h.slidUp hpiece hs hpos hcovers
  | drop before after piece change hpiece hzero =>
      exact absurd hzero (Nat.ne_of_gt (h.covers.fits.length_pos (by simp [Cursor.steps]) hpiece))
  | swap before after other change hother hkind =>
      exact h.swappedUp hother (fun hinsert => hkind (hinsert.trans h.kind.symm)) hcovers
  | join before after other change hother hkind => exact h.joinedUp (hkind.trans h.kind) hcovers

/-- An insertion on its way down, with a kept number between it and every insertion before it. -/
def Sinking (old new : Array UInt32) (f : List Bool) (n : Nat) (c : Cursor) : Prop :=
  Moving old new f n c ∧ ∀ m ∈ marks 0 c.before, m.kept < kept c.before

theorem Moving.sinking {c : Cursor} (h : Moving old new f n c) (htop : AtTop old new c) :
    Sinking old new f n c := by
  refine ⟨h, ?_⟩
  rcases htop with hnil | ⟨before, piece, hbefore, hpiece, hpos, -⟩
  · rw [hnil]
    exact fun m hm => absurd hm List.not_mem_nil
  · intro m hm
    rw [hbefore, marks_append, marks_equal _ _ hpiece] at hm
    have hle := (marks_kept_le 0 (List.append_nil (marks 0 before) ▸ hm)).2
    rw [hbefore, kept_append, kept_cons_of_equal hpiece]
    omega

theorem Sinking.slidDown (h : Sinking old new f n ⟨before, change, piece :: after⟩)
    (hpiece : piece.kind = .equal) (hs : slideDown old new change piece = s)
    (hcovers : Covers old new 0 0 f n (slidDown before after piece change s).steps) :
    Sinking old new f n (slidDown before after piece change s) := by
  obtain ⟨h, hbelow⟩ := h
  have hkept := kept_eq_of_covers h.covers hcovers
  obtain ⟨hc₀, hinsert, hplaced, hapart, hunmoved, hclears, hnoted, x, hx, hle, hrepeats, hfree⟩ :=
    h
  dsimp only [Cursor.mark] at *
  have hsize : s ≤ piece.oldLength := hs ▸ (slideDown_le old new change piece).1
  have hbefore : marks 0 (keepLast (ahead piece change s) before) = marks 0 before :=
    marks_keepLast _ rfl before
  have hlength : kept (keepLast (ahead piece change s) before) = kept before + s :=
    kept_keepLast rfl before
  have hafter : marks (kept before + s) (trimFirst piece s ++ after)
      = marks (kept before) (piece :: after) := by
    rw [marks_trimFirst _ hpiece hsize, marks_equal _ _ hpiece]
  have hfree' := newIndex_le_of_covers hcovers hinsert
  refine ⟨⟨hcovers, hinsert, ?_, ?_, ?_, ?_, ?_, x, ?_, ?_, ?_, ?_⟩, ?_⟩
  · exact fun m hm => hplaced m (hbefore ▸ hm)
  · exact hbefore ▸ hapart
  · intro m hm
    simp only [Compaction.slidDown, hlength, hafter] at hm
    exact hunmoved m hm
  · intro m hm
    have := hclears m (hbefore ▸ hm)
    simp only [Mark.Clears, Cursor.mark, Compaction.slidDown] at this ⊢
    omega
  · simp only [Compaction.slidDown]
    omega
  · simp only [Compaction.slidDown]
    omega
  · rw [hkept]
    exact hle
  · intro t ht
    simp only [Compaction.slidDown] at ht ⊢
    have := hrepeats (s + t) (by omega)
    rwa [← Nat.add_assoc, ← Nat.add_assoc,
      Nat.add_right_comm change.newIndex change.newLength s] at this
  · intro t ht hkind
    have hmem := mem_of_mem_trimFirst hpiece ht hkind
    have := hfree t (List.mem_cons_of_mem _ hmem) hkind
    have := hfree' t ht hkind
    simp only [Compaction.slidDown] at this ⊢
    omega
  · intro m hm
    have := hbelow m (hbefore ▸ hm)
    simp only [Compaction.slidDown]
    omega

theorem Sinking.swappedDown (h : Sinking old new f n ⟨before, change, other :: after⟩)
    (hother : other.kind ≠ .equal) (hother' : other.kind ≠ .insert)
    (hcovers : Covers old new 0 0 f n (before ++ [other] ++ change :: after)) :
    Sinking old new f n ⟨before ++ [other], change, after⟩ := by
  obtain ⟨h, hbelow⟩ := h
  have hkept := kept_eq_of_covers h.covers hcovers
  obtain ⟨-, hinsert, hplaced, hapart, hunmoved, hclears, hnoted, x, hx, hle, hrepeats, hfree⟩ := h
  dsimp only [Cursor.mark] at *
  have hbefore := marks_concat_other 0 hother hother' before
  have hlength := kept_concat_of_ne hother before
  rw [marks_other _ _ hother hother'] at hunmoved
  refine ⟨⟨hcovers, hinsert, ?_, ?_, ?_, ?_, ?_, x, ?_, ?_, ?_, ?_⟩, ?_⟩
  · exact fun m hm => hplaced m (hbefore ▸ hm)
  · exact hbefore ▸ hapart
  · exact fun m hm => hunmoved m (hlength ▸ hm)
  · intro m hm
    have := hclears m (hbefore ▸ hm)
    simp only [Mark.Clears, Cursor.mark, hlength] at this ⊢
    exact this
  · exact hlength ▸ hnoted
  · exact hlength ▸ hx
  · exact hkept ▸ hle
  · exact hlength ▸ hrepeats
  · intro s hs hkind
    have := hfree s (List.mem_cons_of_mem _ hs) hkind
    rwa [hlength]
  · intro m hm
    rw [hlength]
    exact hbelow m (hbefore ▸ hm)

/-- The other insertion stands right behind this one, so this one has come down all the way. -/
theorem Sinking.joinedDown (h : Sinking old new f n ⟨before, change, other :: after⟩)
    (hother : other.kind = .insert)
    (hcovers : Covers old new 0 0 f n (before ++ merge change other :: after)) :
    Sinking old new f n ⟨before, merge change other, after⟩ := by
  obtain ⟨h, hbelow⟩ := h
  have hkept := kept_eq_of_covers h.covers hcovers
  obtain ⟨hc₀, hinsert, hplaced, hapart, hunmoved, hclears, hnoted, x, hx, hle, -, hfree⟩ := h
  have hnext := newIndex_next hc₀ hinsert hother
  dsimp only [Cursor.mark] at *
  rw [marks_insert _ _ hother] at hunmoved
  have hdown : x - kept before = 0 := by
    have := hfree other List.mem_cons_self hother
    omega
  refine ⟨⟨hcovers, hinsert, hplaced, hapart, ?_, hclears, hnoted, x, hx, ?_, ?_, ?_⟩, hbelow⟩
  · exact fun m hm => hunmoved m (List.mem_cons_of_mem _ hm)
  · exact hkept ▸ hle
  · intro t ht
    dsimp only at ht
    omega
  · dsimp only
    rw [hdown]
    exact newIndex_le_of_covers (c := ⟨before, merge change other, after⟩) hcovers hinsert

theorem Sinking.sinks {c c' : Cursor} (h : Sinking old new f n c) (hc : Sinks old new c c') :
    Sinking old new f n c' := by
  have hinsert := h.1.kind
  have hcovers := hc.covers (by rw [hinsert]; decide) h.1.covers
  cases hc with
  | slide before after piece change s hpiece hs hpos => exact h.slidDown hpiece hs hcovers
  | drop before after piece change hpiece hzero =>
      exact absurd hzero (Nat.ne_of_gt (h.1.covers.fits.length_pos (by simp [Cursor.steps]) hpiece))
  | swap before after other change hother hkind =>
      exact h.swappedDown hother (fun h' => hkind (h'.trans hinsert.symm)) hcovers
  | join before after other change hother hkind => exact h.joinedDown (hkind.trans hinsert) hcovers

/-- An insertion slides down over a kept piece if its first number comes again right behind it. -/
theorem slideDown_pos {before after : List Step} {change piece : Step}
    (h : Covers old new 0 0 f n (before ++ change :: piece :: after))
    (hchange : change.kind = .insert) (hpiece : piece.kind = .equal)
    (hrepeat : new.getD change.newIndex 0 = new.getD (change.newIndex + change.newLength) 0) :
    0 < slideDown old new change piece := by
  obtain ⟨g, g', j, n', rfl, rfl, -, htail⟩ := h.split
  obtain ⟨hfits, e, k, rfl, rfl, hrest⟩ := htail.uncons
  obtain ⟨noted, l, rfl, hl⟩ := hfits.of_insert hchange
  obtain ⟨m, rfl, hm, hagree⟩ := hrest.uncons.1.of_equal hpiece
  exact Myers.Box.prefixLength_pos (b := ⟨0 + g.length, 0 + g.length + m, 0 + j, 0 + j + l⟩)
    (Nat.lt_add_of_pos_right hm) (Nat.lt_add_of_pos_right hl) ((hagree 0 hm).trans hrepeat.symm)

/-- At the bottom an insertion has come down as far as it could. -/
theorem Moving.le_of_atBottom {c : Cursor} (h : Moving old new f n c) {x : Nat}
    (hwindow : Window new x c) (hbottom : AtBottom old new c) : x ≤ kept c.before := by
  rcases hbottom with hnil | ⟨piece, rest, hafter, hpiece, hpos, hslide⟩
  · have hne : c.change.kind ≠ .equal := by rw [h.kind]; decide
    have hle := hwindow.le
    rw [Cursor.steps, kept_append, kept_cons_of_ne hne, hnil] at hle
    exact hle
  · refine Nat.le_of_not_lt fun hlt => ?_
    have hrepeat := hwindow.repeats 0 (Nat.sub_pos_of_lt hlt)
    have hcovers := h.covers
    rw [Cursor.steps, hafter] at hcovers
    exact absurd hslide (Nat.ne_of_gt (slideDown_pos hcovers h.kind hpiece hrepeat))

/-- A script whose insertions before a place are at rest and those behind it have not moved. -/
structure Swept (old new : Array UInt32) (f : List Bool) (n : Nat) (done rest : List Step) :
    Prop where
  covers : Covers old new 0 0 f n (done ++ rest)
  placed : ∀ m ∈ marks 0 done, m.Placed f
  apart : (marks 0 done).Pairwise fun a b => a.kept < b.kept ∧ b.Clears f a
  unmoved : ∀ m ∈ marks (kept done) rest, m.Unmoved f

/-- An insertion that has not moved may start to. -/
theorem Swept.moving {c : Cursor} (h : Swept old new f n c.before (c.change :: c.after))
    (hkind : c.change.kind = .insert) : Moving old new f n c := by
  obtain ⟨hcovers, hplaced, hapart, hunmoved⟩ := h
  rw [marks_insert _ _ hkind] at hunmoved
  have hself := hunmoved _ List.mem_cons_self
  refine ⟨hcovers, hkind, hplaced, hapart, ?_, ?_, hself.placed.1, kept c.before, ?_, ?_⟩
  · exact fun m hm => hunmoved m (List.mem_cons_of_mem _ hm)
  · intro m hm
    have := (marks_kept_le 0 hm).2
    exact hself.clears (by dsimp only; omega)
  · exact Nat.add_le_add_right hself.2 _
  · exact window_self hcovers hkind

/-- An insertion at the bottom is at rest. -/
theorem Sinking.swept {c : Cursor} (h : Sinking old new f n c) (hbottom : AtBottom old new c) :
    Swept old new f n (c.before ++ [c.change]) c.after := by
  obtain ⟨h, hbelow⟩ := h
  obtain ⟨x, hx, hwindow⟩ := h.window
  have hle := h.le_of_atBottom hwindow hbottom
  have hmono := keptAt_mono f hle
  have hmarks : marks 0 (c.before ++ [c.change]) = marks 0 c.before ++ [c.mark] :=
    marks_concat_insert h.kind c.before
  have hlength := kept_concat_of_ne (by rw [h.kind]; decide) c.before
  refine ⟨?_, ?_, ?_, ?_⟩
  · rw [List.append_assoc]; exact h.covers
  · rw [hmarks]
    intro m hm
    rcases List.mem_append.1 hm with hm | hm
    · exact h.placed m hm
    · rw [List.mem_singleton.1 hm]
      refine ⟨h.noted, ?_⟩
      simp only [Cursor.mark]
      omega
  · rw [hmarks]
    refine List.pairwise_append.2 ⟨h.apart, List.pairwise_singleton _ _, fun a ha b hb => ?_⟩
    rw [List.mem_singleton.1 hb]
    exact ⟨hbelow a ha, h.clears a ha⟩
  · rw [hlength]; exact h.unmoved

/-- A step that is no insertion is passed over. -/
theorem Swept.pass {done rest : List Step} {s : Step} (h : Swept old new f n done (s :: rest))
    (hkind : s.kind ≠ .insert) : Swept old new f n (done ++ [s]) rest := by
  have hsteps : (done ++ [s]) ++ rest = done ++ s :: rest := by simp
  have hmarks : marks 0 (done ++ [s]) = marks 0 done := by
    by_cases hequal : s.kind = .equal
    · rw [marks_append, marks_equal _ _ hequal]
      exact List.append_nil _
    · exact marks_concat_other 0 hequal hkind done
  have hrest : marks (kept (done ++ [s])) rest = marks (kept done) (s :: rest) := by
    rw [kept_append]
    by_cases hequal : s.kind = .equal
    · rw [kept_cons_of_equal hequal, marks_equal _ _ hequal]; rfl
    · rw [kept_cons_of_ne hequal, marks_other _ _ hequal hkind]; rfl
  exact ⟨hsteps ▸ h.covers, hmarks ▸ h.placed, hmarks ▸ h.apart, hrest ▸ h.unmoved⟩

theorem above_le {c : Cursor} (h : Covers old new 0 0 f n c.steps) : c.above ≤ f.length + n := by
  obtain ⟨g, g', k, k', rfl, rfl, hbefore, -⟩ := Covers.split h
  have := hbefore.fits.length_le
  rw [oldSpan, hbefore.fates, hbefore.newSpan] at this
  rw [List.length_append, Cursor.above]
  omega

theorem below_le {c : Cursor} (h : Covers old new 0 0 f n c.steps) : c.below ≤ f.length + n := by
  obtain ⟨g, g', k, k', rfl, rfl, -, htail⟩ := Covers.split h
  obtain ⟨-, e, l, rfl, rfl, hafter⟩ := htail.uncons
  have := hafter.fits.length_le
  rw [oldSpan, hafter.fates, hafter.newSpan] at this
  rw [List.length_append, List.length_append, Cursor.below]
  omega

/-- **Moving insertions brings them to rest.** However many of them the fuel is enough for, those
have come to rest and the others have not moved. -/
theorem moveKind_insert {reach : Nat} (hreach : f.length + n < reach) (fuel : Nat)
    {done rest : List Step} (h : Swept old new f n done rest) :
    ∃ done' rest', Swept old new f n done' rest' ∧
      moveKind old new .insert reach fuel (done ++ rest) done.length = done' ++ rest' := by
  induction fuel generalizing done rest with
  | zero => exact ⟨done, rest, h, rfl⟩
  | succ fuel ih =>
      cases rest with
      | nil =>
          refine ⟨done, [], h, ?_⟩
          simp [moveKind]
      | cons s rest =>
          have hget : (done ++ s :: rest)[done.length]? = some s := getElem?_length_add _ _ 0
          by_cases hkind : s.kind = .insert
          · -- up as far as it goes, and down again; both moves have fuel for the whole way
            have hmoving : Moving old new f n ⟨done, s, rest⟩ := Swept.moving h hkind
            obtain ⟨c₁, hc₁, htop, hup⟩ :=
              moveUp_induct (fun _ _ => Moving.rises) reach hmoving
            have habove := above_le hmoving.covers
            obtain ⟨c₂, hc₂, hbottom, hdown⟩ := moveDown_induct (fun _ _ => Sinking.sinks) reach
              (hc₁.sinking (htop (by omega)))
            have hbelow := below_le hc₁.covers
            have hswept := hc₂.swept (hbottom (by omega))
            obtain ⟨done', rest', hswept', heq⟩ := ih hswept
            refine ⟨done', rest', hswept', ?_⟩
            have hsteps : (c₂.before ++ [c₂.change]) ++ c₂.after = c₂.steps := by
              simp [Cursor.steps]
            rw [hsteps, List.length_append] at heq
            exact (moveKind_move hkind hup hdown).trans heq
          · obtain ⟨done', rest', hswept', heq⟩ := ih (h.pass hkind)
            refine ⟨done', rest', hswept', ?_⟩
            rw [List.length_append, List.append_assoc] at heq
            rw [moveKind, hget]
            dsimp only
            rw [if_neg hkind]
            exact heq

end Insertions

/-! ## Both kinds -/

/-- The steps of a script with its changes moved, before they are joined. -/
def moved (old new : Array UInt32) (steps : List Step) : List Step :=
  let reach := steps.length + old.size + new.size + 1
  moveKind old new .insert reach (reach * reach)
    (moveKind old new .delete reach (reach * reach) steps 0) 0

/-- What holds of the marks of a script once its changes are moved: no insertion is noted beyond its
gap, nor reaches back to the gap of an insertion before it. -/
structure Rested (f : List Bool) (M : List Mark) : Prop where
  le : ∀ m ∈ M, m.noted ≤ keptAt f m.kept
  clears : M.Pairwise fun a b => a.kept < b.kept → b.Clears f a

theorem Swept.rested {old new : Array UInt32} {f : List Bool} {n : Nat} {done rest : List Step}
    (h : Swept old new f n done rest) : Rested f (marks 0 (done ++ rest)) := by
  rw [marks_append, Nat.zero_add]
  refine ⟨fun m hm => ?_, List.pairwise_append.2 ⟨?_, ?_, ?_⟩⟩
  · rcases List.mem_append.1 hm with hm | hm
    · exact (h.placed m hm).2
    · exact (h.unmoved m hm).2
  · exact h.apart.imp fun hab _ => hab.2
  · exact List.pairwise_of_forall_mem_list fun a _ b hb hlt =>
      (h.unmoved b hb).clears (Nat.le_of_lt hlt)
  · exact fun a _ b hb hlt => (h.unmoved b hb).clears (Nat.le_of_lt hlt)

/-- **Moving the changes of a script that was found.** The script still fits, and its insertions are
at rest. -/
theorem moved_script (old new : Array UInt32) :
    ∃ f, f.length = old.size ∧
      Covers old new 0 0 f new.size (moved old new (Myers.script old new)) ∧
      Rested f (marks 0 (moved old new (Myers.script old new))) := by
  obtain ⟨hfits, hold, hnew, hnoted⟩ := Myers.script_crosses old new
  rw [Nat.zero_add] at hold hnew
  have hcovers : Covers old new 0 0 (fates (Myers.script old new)) new.size
      (Myers.script old new) := ⟨hfits, rfl, hnew⟩
  have hunmoved := hnoted.unmoved (g := []) hfits rfl rfl (Nat.le_refl 0)
  refine ⟨fates (Myers.script old new), hold, ?_⟩
  unfold moved
  generalize hreach : (Myers.script old new).length + old.size + new.size + 1 = reach
  obtain ⟨hcovers', hmarks⟩ := moveKind_delete reach (reach * reach) 0 hcovers
  have hswept : Swept old new (fates (Myers.script old new)) new.size []
      (moveKind old new .delete reach (reach * reach) (Myers.script old new) 0) :=
    ⟨hcovers', fun m hm => absurd hm List.not_mem_nil, .nil, hmarks ▸ hunmoved⟩
  have hroom : (fates (Myers.script old new)).length + new.size < reach := by
    rw [show (fates (Myers.script old new)).length = old.size from hold]
    omega
  obtain ⟨done, rest, hswept', heq⟩ := moveKind_insert hroom (reach * reach) hswept
  rw [List.nil_append, List.length_nil] at heq
  dsimp only
  rw [heq]
  exact ⟨hswept'.covers, hswept'.rested⟩

end LanguageServer.Compaction
