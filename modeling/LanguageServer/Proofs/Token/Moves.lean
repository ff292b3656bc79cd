import LanguageServer.Token.Compaction
import LanguageServer.Proofs.Token.Chain

set_option autoImplicit false

/-! # Moving one change

A change on the move splits the script in the steps before it and those after it: a `Cursor`. One
round of moving it up is a step from cursor to cursor (`Rises`), and so is one of moving it down
(`Sinks`); both change the steps next to the cursor and nothing else. What such steps preserve holds
after the whole move (`moveUp_induct`, `moveDown_induct`), and the fuel is enough for the change to
come to rest.

Neither direction changes which numbers of the old array are kept, and a script that fits still fits
afterwards. -/

namespace LanguageServer.Compaction

open Script

/-! ## Cursors -/

/-- A script with one of its steps picked out. -/
structure Cursor where
  before : List Step
  change : Step
  after : List Step

namespace Cursor

def steps (c : Cursor) : List Step := c.before ++ c.change :: c.after

/-- Where the step picked out stands. -/
def place (c : Cursor) : Nat := c.before.length

end Cursor

section Indices

variable {α : Type}

theorem getElem?_length_add (b l : List α) (k : Nat) : (b ++ l)[b.length + k]? = l[k]? := by
  rw [List.getElem?_append_right (Nat.le_add_right _ _), Nat.add_sub_cancel_left]

theorem eraseIdx_length_add (b l : List α) (k : Nat) :
    (b ++ l).eraseIdx (b.length + k) = b ++ l.eraseIdx k := by
  rw [List.eraseIdx_append_of_length_le (Nat.le_add_right _ _), Nat.add_sub_cancel_left]

theorem set_length_add (b l : List α) (k : Nat) (a : α) :
    (b ++ l).set (b.length + k) a = b ++ l.set k a := by
  rw [List.set_append_right _ _ (Nat.le_add_right _ _), Nat.add_sub_cancel_left]

theorem insertIdx_length_add (b l : List α) (k : Nat) (a : α) :
    (b ++ l).insertIdx (b.length + k) a = b ++ l.insertIdx k a := by
  induction b with
  | nil => simp
  | cons x b ih =>
      rw [List.length_cons, Nat.add_right_comm, List.cons_append, List.insertIdx_succ_cons, ih,
        List.cons_append]

end Indices

/-! ## Kept pieces next to the cursor -/

/-- Steps with a kept piece in front of them; a kept piece that stands first takes it in. -/
def keepFirst (piece : Step) : List Step → List Step
  | [] => [piece]
  | next :: rest =>
    if next.kind = .equal then
      { next with
        oldIndex := next.oldIndex - piece.oldLength
        newIndex := next.newIndex - piece.oldLength
        oldLength := next.oldLength + piece.oldLength
        newLength := next.newLength + piece.oldLength } :: rest
    else piece :: next :: rest

/-- Steps with a kept piece behind them; a kept piece that stands last takes it in. -/
def keepLast (piece : Step) (steps : List Step) : List Step :=
  match steps.getLast? with
  | none => [piece]
  | some previous =>
    if previous.kind = .equal then
      steps.dropLast ++
        [{ previous with
          oldLength := previous.oldLength + piece.oldLength
          newLength := previous.newLength + piece.oldLength }]
    else steps ++ [piece]

/-- A kept piece without its last `s` numbers, if any are left. -/
def trimLast (piece : Step) (s : Nat) : List Step :=
  if piece.oldLength - s = 0 then []
  else [{ piece with oldLength := piece.oldLength - s, newLength := piece.newLength - s }]

/-- A kept piece without its first `s` numbers, if any are left. -/
def trimFirst (piece : Step) (s : Nat) : List Step :=
  if piece.oldLength - s = 0 then []
  else
    [{ piece with
      oldIndex := piece.oldIndex + s
      newIndex := piece.newIndex + s
      oldLength := piece.oldLength - s
      newLength := piece.newLength - s }]

/-- A step and the one after it as one step. -/
def merge (first second : Step) : Step :=
  { first with
    oldLength := first.oldLength + second.oldLength
    newLength := first.newLength + second.newLength }

/-! ## One round up -/

/-- What stands behind a change that has slid up over `s` numbers. -/
def behind (piece change : Step) (s : Nat) : Step :=
  ⟨.equal, piece.oldIndex + piece.oldLength - s, change.newIndex + change.newLength - s, s, s⟩

/-- The cursor after its change has slid up over `s` numbers of the kept piece before it. -/
def slidUp (before after : List Step) (piece change : Step) (s : Nat) : Cursor :=
  ⟨before ++ trimLast piece s,
    { change with oldIndex := change.oldIndex - s, newIndex := change.newIndex - s },
    keepFirst (behind piece change s) after⟩

/-- One round of moving a change up. -/
inductive Rises (old new : Array UInt32) : Cursor → Cursor → Prop where
  | slide (before after : List Step) (piece change : Step) (s : Nat) (hpiece : piece.kind = .equal)
      (hs : slideUp old new change piece = s) (hpos : 0 < s) :
      Rises old new ⟨before ++ [piece], change, after⟩ (slidUp before after piece change s)
  | drop (before after : List Step) (piece change : Step) (hpiece : piece.kind = .equal)
      (hzero : piece.oldLength = 0) :
      Rises old new ⟨before ++ [piece], change, after⟩ ⟨before, change, after⟩
  | swap (before after : List Step) (other change : Step) (hother : other.kind ≠ .equal)
      (hkind : other.kind ≠ change.kind) :
      Rises old new ⟨before ++ [other], change, after⟩ ⟨before, change, other :: after⟩
  | join (before after : List Step) (other change : Step) (hother : other.kind ≠ .equal)
      (hkind : other.kind = change.kind) :
      Rises old new ⟨before ++ [other], change, after⟩ ⟨before, merge other change, after⟩

/-- A change that cannot move further up: it is the first step or stands behind a kept piece that
does not end as the change does. -/
def AtTop (old new : Array UInt32) (c : Cursor) : Prop :=
  c.before = [] ∨ ∃ before piece, c.before = before ++ [piece] ∧ piece.kind = .equal ∧
    0 < piece.oldLength ∧ slideUp old new c.change piece = 0

theorem slideUp_le (old new : Array UInt32) (change piece : Step) :
    slideUp old new change piece ≤ piece.oldLength ∧
      slideUp old new change piece ≤ change.newLength := by
  unfold slideUp
  split
  · exact ⟨Nat.zero_le _, Nat.zero_le _⟩
  · have h := Myers.Box.suffixLength_le old new ⟨piece.oldIndex, piece.oldIndex + piece.oldLength,
      change.newIndex, change.newIndex + change.newLength⟩
    dsimp only at h
    omega

theorem slideOverBefore_eq (before after : List Step) (piece change : Step) (s : Nat) :
    slideOverBefore (before ++ piece :: change :: after) (before.length + 1) s change piece
      = ((slidUp before after piece change s).steps,
          (slidUp before after piece change s).place) := by
  unfold slideOverBefore
  simp only [Nat.add_assoc, Nat.reduceAdd, getElem?_length_add, set_length_add,
    insertIdx_length_add, Nat.add_sub_cancel]
  cases after with
  | nil =>
      by_cases hzero : piece.oldLength - s = 0 <;>
        simp [hzero, slidUp, keepFirst, trimLast, behind, Cursor.steps, Cursor.place,
          List.eraseIdx_append_of_length_le]
  | cons next rest =>
      by_cases hzero : piece.oldLength - s = 0 <;> by_cases hnext : next.kind = .equal <;>
        simp [hzero, hnext, slidUp, keepFirst, trimLast, behind, Cursor.steps, Cursor.place,
          List.eraseIdx_append_of_length_le]

theorem moveUp_succ (old new : Array UInt32) (fuel : Nat) (before after : List Step)
    (last change : Step) :
    moveUp old new (fuel + 1) (before ++ last :: change :: after) (before.length + 1) =
      if last.kind = .equal then
        if 0 < slideUp old new change last then
          let c := slidUp before after last change (slideUp old new change last)
          moveUp old new fuel c.steps c.place
        else if last.oldLength = 0 then
          moveUp old new fuel (before ++ change :: after) before.length
        else (before ++ last :: change :: after, before.length + 1)
      else if last.kind ≠ change.kind then
        moveUp old new fuel (before ++ change :: last :: after) before.length
      else moveUp old new fuel (before ++ merge last change :: after) before.length := by
  have hlast : (before ++ last :: change :: after)[before.length]? = some last :=
    getElem?_length_add _ _ 0
  have hdrop : (before ++ last :: change :: after).eraseIdx before.length
      = before ++ change :: after :=
    eraseIdx_length_add _ _ 0
  have hswap : ((before ++ last :: change :: after).set before.length change).set
      (before.length + 1) last = before ++ change :: last :: after := by
    simp
  have hjoin : ((before ++ last :: change :: after).set before.length (merge last change)).eraseIdx
      (before.length + 1) = before ++ merge last change :: after := by
    simp [eraseIdx_length_add]
  rw [moveUp, if_neg (Nat.succ_ne_zero _), getElem?_length_add, Nat.add_sub_cancel, hlast]
  simp only [List.getElem?_cons_succ, List.getElem?_cons_zero]
  rw [slideOverBefore_eq, hdrop, hswap, ← merge, hjoin]

/-- What bounds the rounds up: each makes the steps before the change fewer or their kept pieces
shorter. -/
def Cursor.above (c : Cursor) : Nat := kept c.before + c.before.length

theorem kept_trimLast {piece : Step} (h : piece.kind = .equal) {s : Nat}
    (hs : s ≤ piece.oldLength) :
    kept (trimLast piece s) + s = piece.oldLength := by
  unfold trimLast
  split
  · simp only [kept_nil]; omega
  · rw [kept_cons_of_equal (by exact h), kept_nil]
    dsimp only
    omega

theorem length_trimLast_le (piece : Step) (s : Nat) : (trimLast piece s).length ≤ 1 := by
  unfold trimLast
  split <;> simp

theorem Rises.above_lt {old new : Array UInt32} {c c' : Cursor} (h : Rises old new c c') :
    c'.above < c.above := by
  cases h with
  | slide before after piece change s hpiece hs hpos =>
      have hle := (slideUp_le old new change piece).1
      have hkept := kept_trimLast hpiece (hs ▸ hle)
      have hlength := length_trimLast_le piece s
      simp only [Cursor.above, slidUp, kept_append, kept_cons_of_equal hpiece, kept_nil,
        List.length_append, List.length_cons, List.length_nil]
      omega
  | drop before after piece change hpiece hzero =>
      simp [Cursor.above, kept_cons_of_equal hpiece, hzero]
  | swap before after other change hother hkind => simp [Cursor.above, kept_cons_of_ne hother]
  | join before after other change hother hkind => simp [Cursor.above, kept_cons_of_ne hother]

theorem moveUp_round (old new : Array UInt32) (fuel : Nat) (c : Cursor) :
    (AtTop old new c ∧ moveUp old new (fuel + 1) c.steps c.place = (c.steps, c.place)) ∨
      ∃ c', Rises old new c c' ∧
        moveUp old new (fuel + 1) c.steps c.place = moveUp old new fuel c'.steps c'.place := by
  obtain ⟨before, change, after⟩ := c
  rcases List.eq_nil_or_concat before with rfl | ⟨before, last, rfl⟩
  · exact Or.inl ⟨Or.inl rfl, by simp [moveUp, Cursor.place]⟩
  · have hsteps : Cursor.steps ⟨before ++ [last], change, after⟩
        = before ++ last :: change :: after := by
      simp [Cursor.steps]
    have hplace : Cursor.place ⟨before ++ [last], change, after⟩ = before.length + 1 := by
      simp [Cursor.place]
    rw [List.concat_eq_append, hsteps, hplace, moveUp_succ]
    split
    · next hlast =>
        split
        · next hpos => exact Or.inr ⟨_, .slide _ _ _ _ _ hlast rfl hpos, rfl⟩
        · next hpos =>
            split
            · next hzero => exact Or.inr ⟨_, .drop _ _ _ _ hlast hzero, rfl⟩
            · next hzero =>
                exact Or.inl ⟨Or.inr ⟨before, last, rfl, hlast, Nat.pos_of_ne_zero hzero,
                  Nat.eq_zero_of_not_pos hpos⟩, rfl⟩
    · next hlast =>
        split
        · next hkind => exact Or.inr ⟨_, .swap _ _ _ _ hlast hkind, rfl⟩
        · next hkind => exact Or.inr ⟨_, .join _ _ _ _ hlast (Decidable.not_not.1 hkind), rfl⟩

/-- **Moving up, round by round.** What every round preserves holds where the move ends, and with
enough fuel the move ends at the top. -/
theorem moveUp_induct {old new : Array UInt32} {P : Cursor → Prop}
    (hround : ∀ c c', P c → Rises old new c c' → P c') (fuel : Nat) {c : Cursor} (h : P c) :
    ∃ c', P c' ∧ (c.above < fuel → AtTop old new c') ∧
      moveUp old new fuel c.steps c.place = (c'.steps, c'.place) := by
  induction fuel generalizing c with
  | zero => exact ⟨c, h, fun hlt => absurd hlt (Nat.not_lt_zero _), rfl⟩
  | succ fuel ih =>
      rcases moveUp_round old new fuel c with ⟨htop, heq⟩ | ⟨c₁, hrises, heq⟩
      · exact ⟨c, h, fun _ => htop, heq⟩
      · obtain ⟨c', h', htop, heq'⟩ := ih (hround c c₁ h hrises)
        have hlt := hrises.above_lt
        exact ⟨c', h', fun hfuel => htop (by omega), heq.trans heq'⟩

/-! ## One round down -/

/-- What stands before a change that has slid down over `s` numbers. -/
def ahead (piece change : Step) (s : Nat) : Step := ⟨.equal, piece.oldIndex, change.newIndex, s, s⟩

/-- The cursor after its change has slid down over `s` numbers of the kept piece after it. -/
def slidDown (before after : List Step) (piece change : Step) (s : Nat) : Cursor :=
  ⟨keepLast (ahead piece change s) before,
    { change with oldIndex := change.oldIndex + s, newIndex := change.newIndex + s },
    trimFirst piece s ++ after⟩

/-- One round of moving a change down. -/
inductive Sinks (old new : Array UInt32) : Cursor → Cursor → Prop where
  | slide (before after : List Step) (piece change : Step) (s : Nat) (hpiece : piece.kind = .equal)
      (hs : slideDown old new change piece = s) (hpos : 0 < s) :
      Sinks old new ⟨before, change, piece :: after⟩ (slidDown before after piece change s)
  | drop (before after : List Step) (piece change : Step) (hpiece : piece.kind = .equal)
      (hzero : piece.oldLength = 0) :
      Sinks old new ⟨before, change, piece :: after⟩ ⟨before, change, after⟩
  | swap (before after : List Step) (other change : Step) (hother : other.kind ≠ .equal)
      (hkind : other.kind ≠ change.kind) :
      Sinks old new ⟨before, change, other :: after⟩ ⟨before ++ [other], change, after⟩
  | join (before after : List Step) (other change : Step) (hother : other.kind ≠ .equal)
      (hkind : other.kind = change.kind) :
      Sinks old new ⟨before, change, other :: after⟩ ⟨before, merge change other, after⟩

/-- A change that cannot move further down: it is the last step or stands before a kept piece that
does not start as the change does. -/
def AtBottom (old new : Array UInt32) (c : Cursor) : Prop :=
  c.after = [] ∨ ∃ piece after, c.after = piece :: after ∧ piece.kind = .equal ∧
    0 < piece.oldLength ∧ slideDown old new c.change piece = 0

theorem slideDown_le (old new : Array UInt32) (change piece : Step) :
    slideDown old new change piece ≤ piece.oldLength ∧
      slideDown old new change piece ≤ change.newLength := by
  unfold slideDown
  split
  · exact ⟨Nat.zero_le _, Nat.zero_le _⟩
  · have h := Myers.Box.prefixLength_le old new ⟨piece.oldIndex, piece.oldIndex + piece.oldLength,
      change.newIndex, change.newIndex + change.newLength⟩
    dsimp only at h
    omega

@[simp] theorem keepLast_nil (piece : Step) : keepLast piece [] = [piece] := rfl

@[simp] theorem keepLast_concat (piece : Step) (steps : List Step) (previous : Step) :
    keepLast piece (steps ++ [previous]) =
      if previous.kind = .equal then
        steps ++ [{ previous with
          oldLength := previous.oldLength + piece.oldLength
          newLength := previous.newLength + piece.oldLength }]
      else steps ++ [previous] ++ [piece] := by
  simp [keepLast]

theorem slideOverAfter_eq (before after : List Step) (piece change : Step) (s : Nat) :
    slideOverAfter (before ++ change :: piece :: after) before.length s change piece
      = ((slidDown before after piece change s).steps,
          (slidDown before after piece change s).place) := by
  unfold slideOverAfter
  rcases List.eq_nil_or_concat before with rfl | ⟨before, last, rfl⟩
  · by_cases hzero : piece.oldLength - s = 0 <;>
      simp [hzero, slidDown, trimFirst, ahead, Cursor.steps, Cursor.place]
  · by_cases hzero : piece.oldLength - s = 0 <;> by_cases hlast : last.kind = .equal <;>
      simp [hzero, hlast, slidDown, trimFirst, ahead, Cursor.steps, Cursor.place, Nat.add_assoc,
        eraseIdx_length_add, insertIdx_length_add]

theorem moveDown_succ (old new : Array UInt32) (fuel : Nat) (before after : List Step)
    (change next : Step) :
    moveDown old new (fuel + 1) (before ++ change :: next :: after) before.length =
      if next.kind = .equal then
        if 0 < slideDown old new change next then
          let c := slidDown before after next change (slideDown old new change next)
          moveDown old new fuel c.steps c.place
        else if next.oldLength = 0 then
          moveDown old new fuel (before ++ change :: after) before.length
        else (before ++ change :: next :: after, before.length)
      else if next.kind ≠ change.kind then
        moveDown old new fuel (before ++ next :: change :: after) (before.length + 1)
      else moveDown old new fuel (before ++ merge change next :: after) before.length := by
  have hchange : (before ++ change :: next :: after)[before.length]? = some change :=
    getElem?_length_add _ _ 0
  have hdrop : (before ++ change :: next :: after).eraseIdx (before.length + 1)
      = before ++ change :: after :=
    eraseIdx_length_add _ _ 1
  have hswap : ((before ++ change :: next :: after).set before.length next).set
      (before.length + 1) change = before ++ next :: change :: after := by
    simp
  have hjoin : ((before ++ change :: next :: after).set before.length (merge change next)).eraseIdx
      (before.length + 1) = before ++ merge change next :: after := by
    simp [eraseIdx_length_add]
  rw [moveDown, hchange, getElem?_length_add]
  simp only [List.getElem?_cons_succ, List.getElem?_cons_zero]
  rw [slideOverAfter_eq, hdrop, hswap, ← merge, hjoin]

/-- What bounds the rounds down. -/
def Cursor.below (c : Cursor) : Nat := kept c.after + c.after.length

theorem kept_trimFirst {piece : Step} (h : piece.kind = .equal) {s : Nat}
    (hs : s ≤ piece.oldLength) : kept (trimFirst piece s) + s = piece.oldLength := by
  unfold trimFirst
  split
  · simp only [kept_nil]; omega
  · rw [kept_cons_of_equal (by exact h), kept_nil]
    dsimp only
    omega

theorem length_trimFirst_le (piece : Step) (s : Nat) : (trimFirst piece s).length ≤ 1 := by
  unfold trimFirst
  split <;> simp

theorem Sinks.below_lt {old new : Array UInt32} {c c' : Cursor} (h : Sinks old new c c') :
    c'.below < c.below := by
  cases h with
  | slide before after piece change s hpiece hs hpos =>
      have hle := (slideDown_le old new change piece).1
      have hkept := kept_trimFirst hpiece (hs ▸ hle)
      have hlength := length_trimFirst_le piece s
      simp only [Cursor.below, slidDown, kept_append, kept_cons_of_equal hpiece,
        List.length_append, List.length_cons]
      omega
  | drop before after piece change hpiece hzero =>
      simp [Cursor.below, kept_cons_of_equal hpiece, hzero]
  | swap before after other change hother hkind => simp [Cursor.below, kept_cons_of_ne hother]
  | join before after other change hother hkind => simp [Cursor.below, kept_cons_of_ne hother]

theorem moveDown_round (old new : Array UInt32) (fuel : Nat) (c : Cursor) :
    (AtBottom old new c ∧ moveDown old new (fuel + 1) c.steps c.place = (c.steps, c.place)) ∨
      ∃ c', Sinks old new c c' ∧
        moveDown old new (fuel + 1) c.steps c.place = moveDown old new fuel c'.steps c'.place := by
  obtain ⟨before, change, after⟩ := c
  cases after with
  | nil => exact Or.inl ⟨Or.inl rfl, by simp [moveDown, Cursor.steps, Cursor.place]⟩
  | cons next after =>
      simp only [Cursor.steps, Cursor.place]
      rw [moveDown_succ]
      split
      · next hnext =>
          split
          · next hpos => exact Or.inr ⟨_, .slide _ _ _ _ _ hnext rfl hpos, rfl⟩
          · next hpos =>
              split
              · next hzero => exact Or.inr ⟨_, .drop _ _ _ _ hnext hzero, rfl⟩
              · next hzero =>
                  exact Or.inl ⟨Or.inr ⟨next, after, rfl, hnext, Nat.pos_of_ne_zero hzero,
                    Nat.eq_zero_of_not_pos hpos⟩, rfl⟩
      · next hnext =>
          split
          · next hkind => exact Or.inr ⟨_, .swap _ _ _ _ hnext hkind, by simp⟩
          · next hkind => exact Or.inr ⟨_, .join _ _ _ _ hnext (Decidable.not_not.1 hkind), rfl⟩

/-- **Moving down, round by round.** What every round preserves holds where the move ends, and with
enough fuel the move ends at the bottom. -/
theorem moveDown_induct {old new : Array UInt32} {P : Cursor → Prop}
    (hround : ∀ c c', P c → Sinks old new c c' → P c') (fuel : Nat) {c : Cursor} (h : P c) :
    ∃ c', P c' ∧ (c.below < fuel → AtBottom old new c') ∧
      moveDown old new fuel c.steps c.place = (c'.steps, c'.place) := by
  induction fuel generalizing c with
  | zero => exact ⟨c, h, fun hlt => absurd hlt (Nat.not_lt_zero _), rfl⟩
  | succ fuel ih =>
      rcases moveDown_round old new fuel c with ⟨hbottom, heq⟩ | ⟨c₁, hsinks, heq⟩
      · exact ⟨c, h, fun _ => hbottom, heq⟩
      · obtain ⟨c', h', hbottom, heq'⟩ := ih (hround c c₁ h hsinks)
        have hlt := hsinks.below_lt
        exact ⟨c', h', fun hfuel => hbottom (by omega), heq.trans heq'⟩

/-! ## Moving keeps the script fitting -/

section Fitting

variable {old new : Array UInt32} {i j n : Nat} {f : List Bool}

/-- Numbers that agree in two pieces and right behind them agree in the pieces joined. -/
theorem agree_append {m k : Nat}
    (hfirst : ∀ t < m, old.getD (i + t) 0 = new.getD (j + t) 0)
    (hsecond : ∀ t < k, old.getD (i + m + t) 0 = new.getD (j + m + t) 0) :
    ∀ t < m + k, old.getD (i + t) 0 = new.getD (j + t) 0 := by
  intro t ht
  by_cases hlt : t < m
  · exact hfirst t hlt
  · have := hsecond (t - m) (by omega)
    rwa [show i + m + (t - m) = i + t by omega, show j + m + (t - m) = j + t by omega] at this

theorem covers_equal (hpos : 0 < n) (hagree : ∀ t < n, old.getD (i + t) 0 = new.getD (j + t) 0) :
    Covers old new i j (List.replicate n true) n [⟨.equal, i, j, n, n⟩] :=
  ⟨⟨⟨rfl, rfl, rfl, hpos, hagree⟩, trivial⟩, by simp [Step.fates], rfl⟩

theorem covers_insert (old new : Array UInt32) (i j noted : Nat) (hpos : 0 < n) :
    Covers old new i j [] n [⟨.insert, noted, j, 0, n⟩] :=
  ⟨⟨⟨rfl, rfl, hpos⟩, trivial⟩, rfl, rfl⟩

theorem covers_trimLast {m s : Nat} (hs : s ≤ m)
    (hagree : ∀ t < m, old.getD (i + t) 0 = new.getD (j + t) 0) :
    Covers old new i j (List.replicate (m - s) true) (m - s) (trimLast ⟨.equal, i, j, m, m⟩ s) := by
  unfold trimLast
  split
  · next hzero => rw [hzero]; exact Covers.nil old new i j
  · next hzero => exact covers_equal (Nat.pos_of_ne_zero hzero) fun t ht => hagree t (by omega)

theorem covers_trimFirst {m s : Nat} (hs : s ≤ m)
    (hagree : ∀ t < m, old.getD (i + t) 0 = new.getD (j + t) 0) :
    Covers old new (i + s) (j + s) (List.replicate (m - s) true) (m - s)
      (trimFirst ⟨.equal, i, j, m, m⟩ s) := by
  unfold trimFirst
  split
  · next hzero => rw [hzero]; exact Covers.nil old new _ _
  · next hzero =>
      refine covers_equal (Nat.pos_of_ne_zero hzero) fun t ht => ?_
      rw [Nat.add_assoc, Nat.add_assoc]
      exact hagree (s + t) (by omega)

theorem covers_keepFirst {s : Nat} {after : List Step} (hpos : 0 < s)
    (hagree : ∀ t < s, old.getD (i + t) 0 = new.getD (j + t) 0)
    (hafter : Covers old new (i + s) (j + s) f n after) :
    Covers old new i j (List.replicate s true ++ f) (s + n)
      (keepFirst ⟨.equal, i, j, s, s⟩ after) := by
  have hcons : Covers old new i j (List.replicate s true ++ f) (s + n)
      (⟨.equal, i, j, s, s⟩ :: after) :=
    (covers_equal hpos hagree).append (by rw [List.length_replicate]; exact hafter)
  unfold keepFirst
  split
  · exact hcons
  · next next rest =>
      split
      · next hnext =>
          obtain ⟨hfits, g, k, rfl, rfl, hrest⟩ := hafter.uncons
          obtain ⟨m, rfl, hpos', hagree'⟩ := hfits.of_equal hnext
          have hjoined : Covers old new i j (List.replicate (s + m) true) (s + m)
              [⟨.equal, i, j, s + m, s + m⟩] :=
            covers_equal (by omega) (agree_append hagree hagree')
          have hall := hjoined.append (g := g) (m := k) (b := rest)
            (by rw [List.length_replicate, ← Nat.add_assoc, ← Nat.add_assoc]; exact hrest)
          simpa [Step.fates, ← List.replicate_append_replicate, Nat.add_comm, Nat.add_left_comm]
            using hall
      · exact hcons

theorem covers_keepLast {s : Nat} {before : List Step} (hpos : 0 < s)
    (hbefore : Covers old new i j f n before)
    (hagree : ∀ t < s, old.getD (i + f.length + t) 0 = new.getD (j + n + t) 0) :
    Covers old new i j (f ++ List.replicate s true) (n + s)
      (keepLast ⟨.equal, i + f.length, j + n, s, s⟩ before) := by
  have hconcat := hbefore.append (covers_equal hpos hagree)
  rcases List.eq_nil_or_concat before with rfl | ⟨before, last, rfl⟩
  · exact hconcat
  · rw [List.concat_eq_append] at hbefore hconcat ⊢
    rw [keepLast_concat]
    split
    · next hlast =>
        obtain ⟨g, g', k, k', rfl, rfl, hinit, hlastStep⟩ := hbefore.split
        obtain ⟨m, rfl, hpos', hagree'⟩ := hlastStep.uncons.1.of_equal hlast
        obtain ⟨-, rfl, rfl⟩ := hlastStep
        have hjoined : Covers old new (i + g.length) (j + k) (List.replicate (m + s) true) (m + s)
            [⟨.equal, i + g.length, j + k, m + s, m + s⟩] := by
          refine covers_equal (by omega) (agree_append hagree' fun t ht => ?_)
          have := hagree t ht
          simpa [Step.fates, newSpan, Nat.add_assoc] using this
        have hall := hinit.append hjoined
        simpa [Step.fates, newSpan, ← List.replicate_append_replicate, Nat.add_assoc] using hall
    · exact hconcat

theorem kind_ne_delete_of_slideUp {change piece : Step} (h : 0 < slideUp old new change piece) :
    change.kind ≠ .delete := by
  intro hkind
  simp [slideUp, hkind] at h

theorem kind_ne_delete_of_slideDown {change piece : Step}
    (h : 0 < slideDown old new change piece) : change.kind ≠ .delete := by
  intro hkind
  simp [slideDown, hkind] at h

/-- What slides up is an insertion, over kept numbers that it ends with. -/
theorem covers_of_slideUp {change piece : Step} {after : List Step} {s : Nat}
    (h : Covers old new i j f n (piece :: change :: after)) (hpiece : piece.kind = .equal)
    (hchange : change.kind ≠ .equal) (hs : slideUp old new change piece = s) (hpos : 0 < s) :
    ∃ noted m l g k, piece = ⟨.equal, i, j, m, m⟩ ∧ change = ⟨.insert, noted, j + m, 0, l⟩ ∧
      s ≤ m ∧ s ≤ l ∧ (∀ t < m, old.getD (i + t) 0 = new.getD (j + t) 0) ∧
      (∀ t < s, old.getD (i + m - s + t) 0 = new.getD (j + m + l - s + t) 0) ∧
      f = List.replicate m true ++ g ∧ n = m + (l + k) ∧
      Covers old new (i + m) (j + m + l) g k after := by
  obtain ⟨hfits, g, k, rfl, rfl, h'⟩ := h.uncons
  obtain ⟨hfits', g', k', rfl, rfl, hafter⟩ := h'.uncons
  obtain ⟨m, rfl, -, hagree⟩ := hfits.of_equal hpiece
  obtain ⟨noted, l, rfl, -⟩ :=
    hfits'.of_insert ((hfits'.kind_of_ne_equal hchange).resolve_left
      (kind_ne_delete_of_slideUp (hs ▸ hpos)))
  obtain ⟨hm, hl⟩ := hs ▸ slideUp_le old new ⟨.insert, noted, j + m, 0, l⟩ ⟨.equal, i, j, m, m⟩
  refine ⟨noted, m, l, g', k', rfl, rfl, hm, hl, hagree, ?_, by simp [Step.fates], rfl, hafter⟩
  subst hs
  exact Myers.Box.suffixLength_eq old new ⟨i, i + m, j + m, j + m + l⟩

theorem covers_slidUp {change piece : Step} {after : List Step} {s : Nat}
    (hpiece : piece.kind = .equal) (hchange : change.kind ≠ .equal)
    (hs : slideUp old new change piece = s) (hpos : 0 < s)
    (h : Covers old new i j f n (piece :: change :: after)) :
    Covers old new i j f n (trimLast piece s ++
      { change with oldIndex := change.oldIndex - s, newIndex := change.newIndex - s } ::
        keepFirst (behind piece change s) after) := by
  obtain ⟨noted, m, l, g, k, rfl, rfl, hm, hl, hagree, hsuffix, rfl, rfl, hafter⟩ :=
    covers_of_slideUp h hpiece hchange hs hpos
  have hback : Covers old new (i + m - s) (j + m - s + l) (List.replicate s true ++ g) (s + k)
      (keepFirst (behind ⟨.equal, i, j, m, m⟩ ⟨.insert, noted, j + m, 0, l⟩ s) after) := by
    rw [show j + m - s + l = j + m + l - s by omega]
    refine covers_keepFirst hpos hsuffix ?_
    rwa [Nat.sub_add_cancel (by omega), Nat.sub_add_cancel (by omega)]
  have hinsert : Covers old new (i + m - s) (j + m - s) (List.replicate s true ++ g) (l + (s + k))
      (⟨.insert, noted - s, j + m - s, 0, l⟩ ::
        keepFirst (behind ⟨.equal, i, j, m, m⟩ ⟨.insert, noted, j + m, 0, l⟩ s) after) :=
    (covers_insert old new _ _ _ (by omega)).append hback
  have hall : Covers old new i j (List.replicate (m - s) true ++ (List.replicate s true ++ g))
      (m - s + (l + (s + k))) (trimLast ⟨.equal, i, j, m, m⟩ s ++
        ⟨.insert, noted - s, j + m - s, 0, l⟩ ::
          keepFirst (behind ⟨.equal, i, j, m, m⟩ ⟨.insert, noted, j + m, 0, l⟩ s) after) := by
    refine (covers_trimLast hm hagree).append ?_
    rwa [List.length_replicate, ← Nat.add_sub_assoc hm, ← Nat.add_sub_assoc hm]
  rw [← List.append_assoc, List.replicate_append_replicate, Nat.sub_add_cancel hm,
    show m - s + (l + (s + k)) = m + (l + k) by omega] at hall
  exact hall

/-- What slides down is an insertion, over kept numbers that it starts with. -/
theorem covers_of_slideDown {change piece : Step} {after : List Step} {s : Nat}
    (h : Covers old new i j f n (change :: piece :: after)) (hpiece : piece.kind = .equal)
    (hchange : change.kind ≠ .equal) (hs : slideDown old new change piece = s) (hpos : 0 < s) :
    ∃ noted m l g k, piece = ⟨.equal, i, j + l, m, m⟩ ∧ change = ⟨.insert, noted, j, 0, l⟩ ∧
      s ≤ m ∧ s ≤ l ∧ (∀ t < m, old.getD (i + t) 0 = new.getD (j + l + t) 0) ∧
      (∀ t < s, old.getD (i + t) 0 = new.getD (j + t) 0) ∧
      f = List.replicate m true ++ g ∧ n = l + (m + k) ∧
      Covers old new (i + m) (j + l + m) g k after := by
  obtain ⟨hfits, g, k, rfl, rfl, h'⟩ := h.uncons
  obtain ⟨hfits', g', k', rfl, rfl, hafter⟩ := h'.uncons
  obtain ⟨noted, l, rfl, -⟩ :=
    hfits.of_insert ((hfits.kind_of_ne_equal hchange).resolve_left
      (kind_ne_delete_of_slideDown (hs ▸ hpos)))
  obtain ⟨m, rfl, -, hagree⟩ := hfits'.of_equal hpiece
  obtain ⟨hm, hl⟩ := hs ▸ slideDown_le old new ⟨.insert, noted, j, 0, l⟩ ⟨.equal, i, j + l, m, m⟩
  refine ⟨noted, m, l, g', k', rfl, rfl, hm, hl, hagree, ?_, by simp [Step.fates], rfl, hafter⟩
  subst hs
  exact Myers.Box.prefixLength_eq old new ⟨i, i + m, j, j + l⟩

theorem covers_slidDown {change piece : Step} {before after : List Step} {s : Nat}
    (hpiece : piece.kind = .equal) (hchange : change.kind ≠ .equal)
    (hs : slideDown old new change piece = s) (hpos : 0 < s)
    (h : Covers old new i j f n (before ++ change :: piece :: after)) :
    Covers old new i j f n (keepLast (ahead piece change s) before ++
      { change with oldIndex := change.oldIndex + s, newIndex := change.newIndex + s } ::
        (trimFirst piece s ++ after)) := by
  obtain ⟨e, e', q, q', rfl, rfl, hbefore, htail⟩ := h.split
  obtain ⟨noted, m, l, g, k, rfl, rfl, hm, hl, hagree, hfront, rfl, rfl, hafter⟩ :=
    covers_of_slideDown htail hpiece hchange hs hpos
  have hfirst := covers_keepLast hpos hbefore hfront
  have hinsert : Covers old new (i + (e ++ List.replicate s true).length) (j + (q + s)) [] l
      [⟨.insert, noted + s, j + q + s, 0, l⟩] := by
    rw [← Nat.add_assoc j]
    exact covers_insert old new _ _ _ (by omega)
  have htrim : Covers old new (i + ((e ++ List.replicate s true) ++ []).length)
      (j + (q + s + l)) (List.replicate (m - s) true) (m - s)
      (trimFirst ⟨.equal, i + e.length, j + q + l, m, m⟩ s) := by
    have := covers_trimFirst hm hagree
    simpa [Nat.add_assoc, Nat.add_comm l s] using this
  have hlast : Covers old new
      (i + (((e ++ List.replicate s true) ++ []) ++ List.replicate (m - s) true).length)
      (j + (q + s + l + (m - s))) g k after := by
    rw [show j + (q + s + l + (m - s)) = j + q + l + m by omega]
    simpa [Nat.add_assoc, Nat.add_sub_cancel' hm] using hafter
  have hall := ((hfirst.append hinsert).append htrim).append hlast
  have hfates : ((e ++ List.replicate s true) ++ []) ++ List.replicate (m - s) true ++ g
      = e ++ (List.replicate m true ++ g) := by
    rw [List.append_nil, List.append_assoc e, List.replicate_append_replicate,
      Nat.add_sub_cancel' hm, List.append_assoc]
  rw [hfates, show q + s + l + (m - s) + k = q + (l + (m + k)) by omega] at hall
  simpa [ahead] using hall

/-- Two neighbouring changes of different kinds fit in either order. -/
theorem covers_swap {a b : Step} {rest : List Step} (ha : a.kind ≠ .equal) (hb : b.kind ≠ .equal)
    (hkind : a.kind ≠ b.kind) (h : Covers old new i j f n (a :: b :: rest)) :
    Covers old new i j f n (b :: a :: rest) := by
  obtain ⟨hfits, g, k, rfl, rfl, h'⟩ := h.uncons
  obtain ⟨hfits', g', k', rfl, rfl, hrest⟩ := h'.uncons
  rcases hfits.kind_of_ne_equal ha with hdelete | hinsert
  · have hinsert := (hfits'.kind_of_ne_equal hb).resolve_left (hdelete ▸ hkind.symm)
    obtain ⟨noted, m, rfl, hm⟩ := hfits.of_delete hdelete
    obtain ⟨noted', l, rfl, hl⟩ := hfits'.of_insert hinsert
    exact ⟨⟨⟨rfl, rfl, hl⟩, ⟨rfl, rfl, hm⟩, hrest.fits⟩, by simp [Step.fates, hrest.fates],
      by simp [newSpan, hrest.newSpan]⟩
  · have hdelete := (hfits'.kind_of_ne_equal hb).resolve_right (hinsert ▸ hkind.symm)
    obtain ⟨noted, l, rfl, hl⟩ := hfits.of_insert hinsert
    obtain ⟨noted', m, rfl, hm⟩ := hfits'.of_delete hdelete
    exact ⟨⟨⟨rfl, rfl, hm⟩, ⟨rfl, rfl, hl⟩, hrest.fits⟩, by simp [Step.fates, hrest.fates],
      by simp [newSpan, hrest.newSpan]⟩

/-- Two neighbouring changes of one kind fit as one. -/
theorem covers_merge {a b : Step} {rest : List Step} (ha : a.kind ≠ .equal)
    (hkind : a.kind = b.kind) (h : Covers old new i j f n (a :: b :: rest)) :
    Covers old new i j f n (merge a b :: rest) := by
  obtain ⟨hfits, g, k, rfl, rfl, h'⟩ := h.uncons
  obtain ⟨hfits', g', k', rfl, rfl, hrest⟩ := h'.uncons
  have hfit : (merge a b).FitsAt old new i j := by
    rcases hfits.kind_of_ne_equal ha with hdelete | hinsert
    · obtain ⟨noted, m, rfl, hm⟩ := hfits.of_delete hdelete
      obtain ⟨noted', m', rfl, -⟩ := hfits'.of_delete hkind.symm
      exact ⟨rfl, rfl, Nat.add_pos_left hm m'⟩
    · obtain ⟨noted, l, rfl, hl⟩ := hfits.of_insert hinsert
      obtain ⟨noted', l', rfl, -⟩ := hfits'.of_insert hkind.symm
      exact ⟨rfl, rfl, Nat.add_pos_left hl l'⟩
  refine ⟨⟨hfit, ?_⟩, ?_, ?_⟩
  · have := hrest.fits
    simpa [merge, Nat.add_assoc] using this
  · simp [merge, Step.fates, ← hkind, hrest.fates, ← List.append_assoc]
  · simp [merge, newSpan, hrest.newSpan, Nat.add_assoc]

/-- Moving up changes neither what becomes of the old numbers nor that the script fits. -/
theorem Rises.covers {c c' : Cursor} (h : Rises old new c c') (hchange : c.change.kind ≠ .equal)
    (hc : Covers old new 0 0 f n c.steps) : Covers old new 0 0 f n c'.steps := by
  cases h with
  | slide before after piece change s hpiece hs hpos =>
      simp only [Cursor.steps, slidUp, List.append_assoc, List.singleton_append] at hc ⊢
      exact hc.exchange fun _ _ _ _ => covers_slidUp hpiece hchange hs hpos
  | drop before after piece change hpiece hzero =>
      exact absurd hzero (Nat.ne_of_gt (hc.fits.length_pos (by simp [Cursor.steps]) hpiece))
  | swap before after other change hother hkind =>
      simp only [Cursor.steps, List.append_assoc, List.singleton_append] at hc ⊢
      exact hc.exchange fun _ _ _ _ => covers_swap hother hchange hkind
  | join before after other change hother hkind =>
      simp only [Cursor.steps, List.append_assoc, List.singleton_append] at hc ⊢
      exact hc.exchange fun _ _ _ _ => covers_merge hother hkind

/-- Moving down changes neither what becomes of the old numbers nor that the script fits. -/
theorem Sinks.covers {c c' : Cursor} (h : Sinks old new c c') (hchange : c.change.kind ≠ .equal)
    (hc : Covers old new 0 0 f n c.steps) : Covers old new 0 0 f n c'.steps := by
  cases h with
  | slide before after piece change s hpiece hs hpos =>
      exact covers_slidDown hpiece hchange hs hpos hc
  | drop before after piece change hpiece hzero =>
      exact absurd hzero (Nat.ne_of_gt (hc.fits.length_pos (by simp [Cursor.steps]) hpiece))
  | swap before after other change hother hkind =>
      simp only [Cursor.steps, List.append_assoc, List.singleton_append] at hc ⊢
      exact hc.exchange fun _ _ _ _ => covers_swap hchange hother hkind.symm
  | join before after other change hother hkind =>
      simp only [Cursor.steps] at hc ⊢
      exact hc.exchange fun _ _ _ _ => covers_merge hchange hkind.symm

end Fitting

end LanguageServer.Compaction
