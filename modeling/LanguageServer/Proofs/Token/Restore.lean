import LanguageServer.Token.Diff
import LanguageServer.Proofs.Token.Joined
import LanguageServer.Proofs.Token.Apply

set_option autoImplicit false

/-! # When the edits between two arrays restore the new one

Applying the edits from one array to another does not always give the other. A lone insertion may be
noted before its place, with deletions in between, and then its numbers come out too early. This
does no harm in one case only: the number that it is noted at is still there, and the inserted
numbers may as well stand before the numbers kept from there on as behind them (`Script.Harmless`).
The edits restore the new array exactly when that holds of every lone insertion
(`apply_diff_eq_ok_iff`). -/

namespace LanguageServer

namespace Script

/-! ## The edits of a joined script -/

/-- The numbers that a step puts in. -/
def inserted (new : List UInt32) (s : Step) : List UInt32 := (new.drop s.newIndex).take s.newLength

/-- The edit of a change on its own. -/
def editOf (new : List UInt32) (s : Step) : TokensEdit := (Pending.add new none s).finish

/-- The edits of the changes of a script, one for each. -/
def editsOf (new : List UInt32) (steps : List Step) : List TokensEdit :=
  (steps.filter fun s => s.kind ≠ .equal).map (editOf new)

section Edits

@[simp] theorem editsOf_nil (new : List UInt32) : editsOf new [] = [] := rfl

variable {new : List UInt32} {s : Step} {rest : List Step}

theorem editsOf_equal (h : s.kind = .equal) : editsOf new (s :: rest) = editsOf new rest := by
  simp [editsOf, h]

theorem editsOf_change (h : s.kind ≠ .equal) :
    editsOf new (s :: rest) = editOf new s :: editsOf new rest := by
  simp [editsOf, h]

theorem insertion_editOf (new : List UInt32) (s : Step) :
    (editOf new s).insertion = inserted new s :=
  Pending.insertion_finish _

theorem toNat_start_editOf (new : List UInt32) (h : s.oldIndex < 4294967296) :
    (editOf new s).start.toNat = s.oldIndex :=
  Nat.mod_eq_of_lt h

theorem stop_editOf (new : List UInt32) (h : s.oldIndex + s.oldLength < 4294967296) :
    (editOf new s).stop = s.oldIndex + s.oldLength := by
  have hcount : (editOf new s).deleteCount.toNat = s.oldLength := by
    show (0 + s.oldLength) % 4294967296 = s.oldLength
    rw [Nat.zero_add, Nat.mod_eq_of_lt (by omega)]
  rw [TokensEdit.stop, toNat_start_editOf new (by omega), hcount]

/-- A change that comes before a kept piece or the end gives an edit of its own. -/
theorem editsFrom_change (hs : s.kind ≠ .equal) (hnext : ∀ e ∈ rest.head?, e.kind = .equal) :
    editsFrom new none (s :: rest) = editOf new s :: editsFrom new none rest := by
  rw [editsFrom, if_neg hs]
  cases rest with
  | nil => rfl
  | cons e rest =>
      have he := hnext e rfl
      rw [editsFrom, editsFrom, if_pos he, if_pos he]
      rfl

end Edits

section Joined

variable {old new : Array UInt32} {lo i j : Nat} {steps : List Step}

theorem Joined.edits_eq (h : Joined old new lo i j steps) :
    edits new.toList steps = editsOf new.toList steps := by
  unfold edits
  induction h with
  | nil lo => rfl
  | equal hpos hagree hrest ih => rw [editsOf_equal rfl, ← ih]; rfl
  | delete hpos hnext hrest ih =>
      rw [editsFrom_change (by simp) hnext, editsOf_change (by simp), ih]
  | insert hpos hlo hnoted hnext hrest ih =>
      rw [editsFrom_change (by simp) hnext, editsOf_change (by simp), ih]
  | replace hm hn hnext hrest ih =>
      rw [editsFrom_change (by simp) hnext, editsOf_change (by simp), ih]

/-- A joined script ends where the arrays do. -/
theorem Joined.span_eq (h : Joined old new lo i j steps) :
    i + oldSpan steps = old.size ∧ j + newSpan steps = new.size := by
  induction h with
  | nil lo => exact ⟨rfl, rfl⟩
  | equal hpos hagree hrest ih => simp only [oldSpan_cons, newSpan]; omega
  | delete hpos hnext hrest ih => simp only [oldSpan_cons, newSpan]; omega
  | insert hpos hlo hnoted hnext hrest ih => simp only [oldSpan_cons, newSpan]; omega
  | replace hm hn hnext hrest ih => simp only [oldSpan_cons, newSpan]; omega

/-- Where a change of a joined script is noted: an insertion at `lo` or behind it, another change at
`i` or behind it. None ends beyond the old array. -/
structure Bounds (old : Array UInt32) (lo i : Nat) (s : Step) : Prop where
  insert : s.kind = .insert → lo ≤ s.oldIndex ∧ s.oldLength = 0
  other : s.kind ≠ .insert → i ≤ s.oldIndex
  stop : s.oldIndex + s.oldLength ≤ old.size

theorem Bounds.mono {lo' i' : Nat} {s : Step} (h : Bounds old lo' i' s) (hlo : lo ≤ lo')
    (hi : i ≤ i') : Bounds old lo i s :=
  ⟨fun hkind => ⟨Nat.le_trans hlo (h.insert hkind).1, (h.insert hkind).2⟩,
    fun hkind => Nat.le_trans hi (h.other hkind), h.stop⟩

theorem Joined.bounds (h : Joined old new lo i j steps) (hlo : lo ≤ i + 1) :
    ∀ s ∈ steps, s.kind ≠ .equal → Bounds old lo i s := by
  induction h with
  | nil lo => intro s hs; exact absurd hs List.not_mem_nil
  | equal hpos hagree hrest ih =>
      intro s hs hkind
      rcases List.mem_cons.1 hs with rfl | hs
      · exact absurd rfl hkind
      · exact (ih (by omega) s hs hkind).mono (Nat.le_refl _) (by omega)
  | delete hpos hnext hrest ih =>
      intro s hs hkind
      rcases List.mem_cons.1 hs with rfl | hs
      · have := hrest.span_eq
        exact ⟨fun h => absurd h (by simp), fun _ => Nat.le_refl _, by dsimp only; omega⟩
      · exact (ih (by omega) s hs hkind).mono (Nat.le_refl _) (by omega)
  | insert hpos hle hnoted hnext hrest ih =>
      intro s hs hkind
      rcases List.mem_cons.1 hs with rfl | hs
      · have := hrest.span_eq
        exact ⟨fun _ => ⟨hle, rfl⟩, fun h => absurd rfl h, by dsimp only; omega⟩
      · exact (ih (Nat.le_refl _) s hs hkind).mono hlo (Nat.le_refl _)
  | replace hm hn hnext hrest ih =>
      intro s hs hkind
      rcases List.mem_cons.1 hs with rfl | hs
      · have := hrest.span_eq
        exact ⟨fun h => absurd h (by simp), fun _ => Nat.le_refl _, by dsimp only; omega⟩
      · exact (ih (by omega) s hs hkind).mono hlo (by omega)

/-- Behind a kept piece the changes stand further on. -/
theorem Joined.bounds_next (h : Joined old new lo i j steps) (hlo : lo ≤ i + 1)
    (hnext : ∀ s ∈ steps.head?, s.kind = .equal) :
    ∀ s ∈ steps, s.kind ≠ .equal → Bounds old lo (i + 1) s := by
  cases h with
  | nil => intro s hs; exact absurd hs List.not_mem_nil
  | equal hpos hagree hrest =>
      intro s hs hkind
      rcases List.mem_cons.1 hs with rfl | hs
      · exact absurd rfl hkind
      · exact (hrest.bounds (by omega) s hs hkind).mono (Nat.le_refl _) (by omega)
  | delete => exact absurd (hnext _ rfl) (by simp)
  | insert => exact absurd (hnext _ rfl) (by simp)
  | replace => exact absurd (hnext _ rfl) (by simp)

/-- An insertion that comes after a change is not noted inside it. -/
def Uncovered (a b : Step) : Prop :=
  a.kind ≠ .equal → b.kind = .insert →
    ¬ (a.oldIndex ≤ b.oldIndex ∧ b.oldIndex < a.oldIndex + a.oldLength)

/-- Two changes whose edits stay apart. -/
theorem apart_editOf {a b : Step} (hsize : old.size < 4294967296)
    (ha : a.oldIndex + a.oldLength ≤ old.size) (hb : b.oldIndex + b.oldLength ≤ old.size)
    (hne : a.oldIndex ≠ b.oldIndex)
    (h : a.oldIndex + a.oldLength ≤ b.oldIndex ∨ b.oldIndex + b.oldLength ≤ a.oldIndex) :
    TokensEdit.Apart (editOf new.toList a) (editOf new.toList b) := by
  unfold TokensEdit.Apart
  rw [toNat_start_editOf _ (by omega), toNat_start_editOf _ (by omega), stop_editOf _ (by omega),
    stop_editOf _ (by omega)]
  exact ⟨hne, h⟩

/-- A change stays apart from one behind it that starts past its end. An insertion behind it may
also be noted before it. -/
theorem Bounds.apart {a b : Step} (h : Bounds old lo i b) (hsize : old.size < 4294967296)
    (ha : a.oldIndex + a.oldLength ≤ old.size) (hi : a.oldIndex + a.oldLength ≤ i)
    (hlt : a.oldIndex < i)
    (hinsert : b.kind = .insert → b.oldIndex < a.oldIndex ∨
      a.oldIndex < b.oldIndex ∧ a.oldIndex + a.oldLength ≤ b.oldIndex) :
    TokensEdit.Apart (editOf new.toList a) (editOf new.toList b) := by
  by_cases hkind : b.kind = .insert
  · have hempty := (h.insert hkind).2
    have := hinsert hkind
    exact apart_editOf hsize ha h.stop (by omega) (by omega)
  · have := h.other hkind
    exact apart_editOf hsize ha h.stop (by omega) (by omega)

/-- Of edits that stay apart one more does when its change stays apart from those behind it. -/
theorem pairwise_apart_cons {s : Step} {rest : List Step} (hs : s.kind ≠ .equal)
    (hrest : (editsOf new.toList rest).Pairwise TokensEdit.Apart)
    (hbehind : ∀ b ∈ rest, b.kind ≠ .equal →
      TokensEdit.Apart (editOf new.toList s) (editOf new.toList b)) :
    (editsOf new.toList (s :: rest)).Pairwise TokensEdit.Apart := by
  rw [editsOf_change hs]
  refine List.pairwise_cons.2 ⟨fun e he => ?_, hrest⟩
  obtain ⟨b, hb, rfl⟩ := List.mem_map.1 he
  obtain ⟨hb, hkind⟩ := List.mem_filter.1 hb
  exact hbehind b hb (by simpa using hkind)

theorem Uncovered.outside {a b : Step} (h : Uncovered a b) (ha : a.kind ≠ .equal)
    (hpos : 0 < a.oldLength) (hb : b.kind = .insert) :
    b.oldIndex < a.oldIndex ∨ a.oldIndex < b.oldIndex ∧ a.oldIndex + a.oldLength ≤ b.oldIndex := by
  have := h ha hb
  omega

theorem Joined.apart (h : Joined old new lo i j steps) (hsize : old.size < 4294967296)
    (hlo : lo ≤ i + 1) (huncovered : steps.Pairwise Uncovered) :
    (editsOf new.toList steps).Pairwise TokensEdit.Apart := by
  induction h with
  | nil lo => exact .nil
  | equal hpos hagree hrest ih =>
      rw [editsOf_equal rfl]
      exact ih (by omega) huncovered.of_cons
  | delete hpos hnext hrest ih =>
      refine pairwise_apart_cons (by simp) (ih (by omega) huncovered.of_cons) fun b hb hkind => ?_
      have hspan := hrest.span_eq
      have hout := (List.rel_of_pairwise_cons huncovered hb).outside (by simp) hpos
      exact (hrest.bounds (by omega) b hb hkind).apart hsize (by dsimp only; omega)
        (Nat.le_refl _) (Nat.lt_add_of_pos_right hpos) hout
  | insert hpos hle hnoted hnext hrest ih =>
      refine pairwise_apart_cons (by simp) (ih (Nat.le_refl _) huncovered.of_cons)
        fun b hb hkind => ?_
      have hspan := hrest.span_eq
      -- a kept piece comes next, so what is behind starts at `i + 1` at least
      have hbounds := hrest.bounds_next (Nat.le_refl _) hnext b hb hkind
      refine hbounds.apart hsize (by dsimp only; omega) (by dsimp only; omega)
        (by dsimp only; omega) fun hinsert => ?_
      have := (hbounds.insert hinsert).1
      dsimp only
      omega
  | replace hm hn hnext hrest ih =>
      refine pairwise_apart_cons (by simp) (ih (by omega) huncovered.of_cons) fun b hb hkind => ?_
      have hspan := hrest.span_eq
      have hout := (List.rel_of_pairwise_cons huncovered hb).outside (by simp) hm
      exact (hrest.bounds (by omega) b hb hkind).apart hsize (by dsimp only; omega)
        (Nat.le_refl _) (Nat.lt_add_of_pos_right hm) hout

/-- The steps of a script that delete something stand at their places. -/
def Aligned : (i : Nat) → List Step → Prop
  | _, [] => True
  | i, s :: rest =>
    (s.kind ≠ .equal → 0 < s.oldLength → s.oldIndex = i) ∧ Aligned (i + s.oldLength) rest

theorem aligned_append {a b : List Step} :
    Aligned i (a ++ b) ↔ Aligned i a ∧ Aligned (i + oldSpan a) b := by
  induction a generalizing i with
  | nil => simp [Aligned]
  | cons s a ih => simp [Aligned, ih, and_assoc, Nat.add_assoc]

theorem Joined.aligned (h : Joined old new lo i j steps) : Aligned i steps := by
  induction h with
  | nil lo => trivial
  | equal hpos hagree hrest ih => exact ⟨fun hkind => absurd rfl hkind, ih⟩
  | delete hpos hnext hrest ih => exact ⟨fun _ _ => rfl, ih⟩
  | insert hpos hlo hnoted hnext hrest ih =>
      exact ⟨fun _ hzero => absurd hzero (Nat.lt_irrefl 0), ih⟩
  | replace hm hn hnext hrest ih => exact ⟨fun _ _ => rfl, ih⟩

/-- A number is deleted when a change covers it. -/
theorem Aligned.deleted_iff (h : Aligned i steps) (x : Nat) :
    (∃ s ∈ steps, s.kind ≠ .equal ∧ s.oldIndex ≤ x ∧ x < s.oldIndex + s.oldLength) ↔
      i ≤ x ∧ (fates steps)[x - i]? = some false := by
  induction steps generalizing i with
  | nil => simp
  | cons s rest ih =>
      obtain ⟨hs, hrest⟩ := h
      have hhead : (s.kind ≠ .equal ∧ s.oldIndex ≤ x ∧ x < s.oldIndex + s.oldLength) ↔
          i ≤ x ∧ x < i + s.oldLength ∧ s.kind ≠ .equal := by
        constructor
        · rintro ⟨hkind, hle, hlt⟩
          have := hs hkind (by omega)
          exact ⟨by omega, by omega, hkind⟩
        · rintro ⟨hle, hlt, hkind⟩
          have := hs hkind (by omega)
          exact ⟨hkind, by omega, by omega⟩
      have hsplit :
          (∃ t ∈ s :: rest, t.kind ≠ .equal ∧ t.oldIndex ≤ x ∧ x < t.oldIndex + t.oldLength) ↔
            (i ≤ x ∧ x < i + s.oldLength ∧ s.kind ≠ .equal) ∨
            (i + s.oldLength ≤ x ∧ (fates rest)[x - (i + s.oldLength)]? = some false) := by
        rw [← hhead, ← ih hrest]
        simp
      rw [hsplit, fates_cons]
      have hlength : s.fates.length = s.oldLength := List.length_replicate
      by_cases hle : i ≤ x
      · by_cases hlt : x < i + s.oldLength
        · rw [List.getElem?_append_left (by omega), Step.fates, List.getElem?_replicate,
            if_pos (by omega)]
          simp only [hle, hlt, true_and, Nat.not_le.2 hlt, false_and, or_false, Option.some.injEq,
            decide_eq_false_iff_not, ne_eq]
        · rw [List.getElem?_append_right (by omega), hlength, Nat.sub_sub]
          simp only [hle, hlt, Nat.not_lt.1 hlt, true_and, false_and, and_false, false_or]
      · simp only [hle, false_and, false_or, iff_false, not_and]
        omega

end Joined

/-! ## What the edits give -/

/-- What is left at `x` of an array whose numbers have given fates. -/
def leftAt (old : List UInt32) (f : List Bool) (x : Nat) : List UInt32 :=
  if f[x]? = some false then [] else old[x]?.toList

/-- The numbers of an array from place `q` on that steps keep. -/
def keptFrom (old : List UInt32) (steps : List Step) (q : Nat) : List UInt32 :=
  pieces (leftAt old (fates steps)) q (oldSpan steps - q)

section Pieces

variable {old new : Array UInt32} {lo i j : Nat} {steps : List Step}

theorem Joined.insertedAt_eq_nil (h : Joined old new lo i j steps) (hsize : old.size < 4294967296)
    (hlo : lo ≤ i + 1) {x : Nat} (hx : x < lo) (hx' : x < i) :
    TokensEdit.insertedAt (editsOf new.toList steps) x = [] := by
  refine TokensEdit.insertedAt_eq_nil fun e he => ?_
  obtain ⟨s, hs, rfl⟩ := List.mem_map.1 he
  obtain ⟨hs, hkind⟩ := List.mem_filter.1 hs
  have hbounds := h.bounds hlo s hs (by simpa using hkind)
  have hstop := hbounds.stop
  rw [toNat_start_editOf _ (by omega)]
  by_cases hinsert : s.kind = .insert
  · have := (hbounds.insert hinsert).1
    omega
  · have := hbounds.other hinsert
    omega

/-- The inserted numbers of lone insertions may stand where these are noted as well as at their
places. Here `k` tells what is left of the old array at each place, and the steps start at `i`. -/
def Commutes (new : List UInt32) (k : Nat → List UInt32) : (i : Nat) → List Step → Prop
  | _, [] => True
  | i, s :: rest =>
    (s.kind = .insert →
      inserted new s ++ pieces k s.oldIndex (i - s.oldIndex)
        = pieces k s.oldIndex (i - s.oldIndex) ++ inserted new s) ∧
      Commutes new k (i + s.oldLength) rest

/-- From `i` on `k` tells what steps leave of the old array. -/
def Leaves (old : Array UInt32) (k : Nat → List UInt32) (i : Nat) (steps : List Step) : Prop :=
  ∀ t, k (i + t) = if (fates steps)[t]? = some false then [] else old.toList[i + t]?.toList

section Leaves

variable {k : Nat → List UInt32} {s : Step} {rest : List Step}

theorem Leaves.tail (h : Leaves old k i (s :: rest)) : Leaves old k (i + s.oldLength) rest := by
  intro t
  have := h (s.oldLength + t)
  have hlength : s.fates.length = s.oldLength := List.length_replicate
  rw [fates_cons, List.getElem?_append_right (by omega), hlength, Nat.add_sub_cancel_left] at this
  rw [Nat.add_assoc]
  exact this

theorem Leaves.head (h : Leaves old k i (s :: rest)) {t : Nat} (ht : t < s.oldLength) :
    k (i + t) = if s.kind = .equal then old.toList[i + t]?.toList else [] := by
  have hlength : s.fates.length = s.oldLength := List.length_replicate
  rw [h t, fates_cons, List.getElem?_append_left (by omega), Step.fates, List.getElem?_replicate,
    if_pos ht]
  by_cases hkind : s.kind = .equal <;> simp [hkind]

/-- Nothing is left of what a change covers. -/
theorem Leaves.pieces_change (h : Leaves old k i (s :: rest)) (hkind : s.kind ≠ .equal) :
    pieces k i s.oldLength = [] := by
  refine pieces_nil fun x hle hlt => ?_
  have := h.head (t := x - i) (by omega)
  rwa [Nat.add_sub_cancel' hle, if_neg hkind] at this

/-- A kept piece is left as it is, and as it is in the new array. -/
theorem Leaves.pieces_kept (h : Leaves old k i (s :: rest)) (hkind : s.kind = .equal)
    (hold : i + s.oldLength ≤ old.size) (hnew : j + s.oldLength ≤ new.size)
    (hagree : ∀ t < s.oldLength, old.getD (i + t) 0 = new.getD (j + t) 0) :
    pieces k i s.oldLength = (new.toList.drop j).take s.oldLength := by
  have hleft : pieces k i s.oldLength = (old.toList.drop i).take s.oldLength := by
    rw [← pieces_getElem?]
    refine pieces_congr fun x hle hlt => ?_
    have := h.head (t := x - i) (by omega)
    rwa [Nat.add_sub_cancel' hle, if_pos hkind] at this
  rw [hleft]
  refine List.ext_getElem (by simp; omega) fun t ht ht' => ?_
  have hlt : t < s.oldLength := Nat.lt_of_lt_of_le ht (List.length_take_le _ _)
  have := hagree t hlt
  rw [List.getElem_take, List.getElem_drop, List.getElem_take, List.getElem_drop]
  simpa [Array.getD, show i + t < old.size by omega, show j + t < new.size by omega] using this

end Leaves

/-- An edit that inserts something at `q`, with nothing else inserted up to `i`. -/
theorem pieces_edit {k : Nat → List UInt32} {s : Step} {rest : List Step} {i' j' p : Nat}
    (hsize : old.size < 4294967296) (hs : s.kind ≠ .equal) (hp : p ≤ s.oldIndex)
    (hnoted : s.oldIndex ≤ i) (hi : i ≤ i') (hi' : i ≤ old.size)
    (hrest : Joined old new (i + 1) i' j' rest) :
    pieces (fun x => TokensEdit.insertedAt (editsOf new.toList (s :: rest)) x ++ k x) p
        (old.size + 1 - p)
      = pieces k p (s.oldIndex - p) ++ (inserted new.toList s ++
        (pieces k s.oldIndex (i - s.oldIndex) ++
          pieces (fun x => TokensEdit.insertedAt (editsOf new.toList rest) x ++ k x) i
            (old.size + 1 - i))) := by
  have hcells : ∀ x, TokensEdit.insertedAt (editsOf new.toList (s :: rest)) x ++ k x
      = (if s.oldIndex = x then inserted new.toList s else []) ++
        (TokensEdit.insertedAt (editsOf new.toList rest) x ++ k x) := by
    intro x
    rw [editsOf_change hs, TokensEdit.insertedAt, insertion_editOf, toNat_start_editOf _ (by omega),
      List.append_assoc]
  have hquiet : ∀ a n, a + n ≤ i →
      pieces (fun x => TokensEdit.insertedAt (editsOf new.toList rest) x ++ k x) a n
        = pieces k a n := by
    intro a n hle
    refine pieces_congr fun x _ hlt => ?_
    rw [hrest.insertedAt_eq_nil hsize (by omega) (by omega) (by omega), List.nil_append]
  rw [pieces_insert hcells hp (by omega), hquiet _ _ (by omega),
    show p + (old.size + 1 - p) - s.oldIndex = i - s.oldIndex + (old.size + 1 - i) by omega,
    pieces_add, hquiet _ _ (by omega), show s.oldIndex + (i - s.oldIndex) = i by omega]

/-- Only insertions have to commute with what is left. -/
theorem commutes_cons_of_ne {k : Nat → List UInt32} {s : Step} {rest : List Step}
    (hs : s.kind ≠ .insert) :
    Commutes new.toList k i (s :: rest) ↔ Commutes new.toList k (i + s.oldLength) rest :=
  ⟨fun h => h.2, fun h => ⟨fun hkind => absurd hkind hs, h⟩⟩

/-- A change inserts what comes next in the new array. -/
theorem inserted_append_drop (new : List UInt32) (s : Step) :
    inserted new s ++ new.drop (s.newIndex + s.newLength) = new.drop s.newIndex := by
  rw [inserted, ← List.drop_drop, List.take_append_drop]

/-- The pieces up to `b` are those up to `a` and those from there on. -/
theorem pieces_split (k : Nat → List UInt32) {p a b : Nat} (hpa : p ≤ a) (hab : a ≤ b) :
    pieces k p (b - p) = pieces k p (a - p) ++ pieces k a (b - a) := by
  rw [show b - p = a - p + (b - a) by omega, pieces_add, Nat.add_sub_cancel' hpa]

/-- **Edits give the rest of the new array just when their insertions commute.** -/
theorem Joined.pieces_eq_iff (h : Joined old new lo i j steps) (hsize : old.size < 4294967296)
    (hlo : lo ≤ i + 1) {k : Nat → List UInt32} (hk : Leaves old k i steps) {p : Nat} (hp : p ≤ lo)
    (hpi : p ≤ i) :
    pieces (fun x => TokensEdit.insertedAt (editsOf new.toList steps) x ++ k x) p (old.size + 1 - p)
        = pieces k p (i - p) ++ new.toList.drop j ↔
      Commutes new.toList k i steps := by
  induction h generalizing p with
  | nil lo =>
      have hend : k old.size = [] := by
        have := hk 0
        simpa using this
      simp only [editsOf_nil, TokensEdit.insertedAt, List.nil_append, Commutes, iff_true]
      rw [pieces_split k hpi (Nat.le_add_right _ 1), Nat.add_sub_cancel_left, pieces, hend,
        List.drop_of_length_le (by simp)]
      rfl
  | @equal lo i j n rest hpos hagree hrest ih =>
      have hspan := hrest.span_eq
      have hkept := hk.pieces_kept rfl (by dsimp only; omega) (by dsimp only; omega) hagree
      have hbefore : pieces k p (i + n - p) ++ new.toList.drop (j + n)
          = pieces k p (i - p) ++ new.toList.drop j := by
        rw [pieces_split k hpi (Nat.le_add_right i n), Nat.add_sub_cancel_left, hkept,
          List.append_assoc, ← List.drop_drop, List.take_append_drop]
      rw [editsOf_equal rfl, ← hbefore, ih (by omega) hk.tail hp (by omega),
        commutes_cons_of_ne (by simp)]
  | @delete lo i j m noted rest hpos hnext hrest ih =>
      have hbefore : pieces k p (i + m - p) = pieces k p (i - p) := by
        rw [pieces_split k hpi (Nat.le_add_right i m), Nat.add_sub_cancel_left,
          hk.pieces_change (by simp), List.append_nil]
      have hcells : ∀ x, TokensEdit.insertedAt
          (editsOf new.toList (⟨.delete, i, noted, m, 0⟩ :: rest)) x
            = TokensEdit.insertedAt (editsOf new.toList rest) x := by
        intro x
        rw [editsOf_change (by simp), TokensEdit.insertedAt, insertion_editOf]
        simp [inserted]
      simp only [hcells]
      rw [← hbefore, ih (by omega) hk.tail hp (by omega), commutes_cons_of_ne (by simp)]
  | @insert lo i j n noted rest hpos hle hnoted hnext hrest ih =>
      have hspan := hrest.span_eq
      have hih := ih (Nat.le_refl _) hk.tail (Nat.le_succ i) (Nat.le_refl i)
      rw [Nat.sub_self, pieces, List.nil_append] at hih
      have hbehind := inserted_append_drop new.toList ⟨.insert, noted, j, 0, n⟩
      rw [pieces_edit hsize (by simp) (Nat.le_trans hp hle) hnoted (Nat.le_refl i) (by omega) hrest,
        pieces_split k (Nat.le_trans hp hle) hnoted, ← hbehind, List.append_assoc,
        List.append_right_inj]
      dsimp only
      -- both sides are the insertion and what is left from where it is noted, in either order
      rw [← List.append_assoc, ← List.append_assoc, Commutes]
      constructor
      · intro heq
        obtain ⟨hcommutes, hrest⟩ := List.append_inj heq (by simp [Nat.add_comm])
        exact ⟨fun _ => hcommutes, hih.1 hrest⟩
      · rintro ⟨hcommutes, hrest⟩
        rw [hcommutes rfl, hih.2 hrest]
  | @replace lo i j m n rest hm hn hnext hrest ih =>
      have hspan := hrest.span_eq
      have hih := ih (by omega) hk.tail (Nat.le_succ i) (Nat.le_add_right i m)
      rw [Nat.add_sub_cancel_left, hk.pieces_change (by simp), List.nil_append] at hih
      have hbehind := inserted_append_drop new.toList ⟨.replace, i, j, m, n⟩
      rw [pieces_edit hsize (by simp) hpi (Nat.le_refl i) (Nat.le_add_right i m) (by omega) hrest,
        ← hbehind, List.append_right_inj, List.append_right_inj]
      dsimp only
      rw [Nat.sub_self, pieces, List.nil_append, hih, commutes_cons_of_ne (by simp)]

end Pieces

/-! ## Harmless insertions -/

/-- An insertion after given steps does no harm wherever it is noted: the number it is noted at is
still there, and its own numbers may stand before or behind those kept from there on. -/
def Harmless (old new : List UInt32) (before : List Step) (s : Step) : Prop :=
  (fates before)[s.oldIndex]? ≠ some false ∧
    inserted new s ++ keptFrom old before s.oldIndex
      = keptFrom old before s.oldIndex ++ inserted new s

instance (old new : List UInt32) (before : List Step) (s : Step) :
    Decidable (Harmless old new before s) :=
  inferInstanceAs (Decidable (_ ∧ _))

section Harmless

variable {old new : Array UInt32} {steps : List Step}

/-- What holds of every split of a list with something in front. -/
theorem forall_split_cons {α : Type} {a : α} {l : List α} {P : List α → α → Prop} :
    (∀ before b after, a :: l = before ++ b :: after → P before b) ↔
      P [] a ∧ ∀ before b after, l = before ++ b :: after → P (a :: before) b := by
  constructor
  · intro h
    exact ⟨h [] a l rfl, fun before b after heq => h (a :: before) b after (by rw [heq]; rfl)⟩
  · rintro ⟨hfirst, hrest⟩ before b after heq
    cases before with
    | nil =>
        obtain ⟨rfl, rfl⟩ := List.cons.inj heq
        exact hfirst
    | cons c before =>
        obtain ⟨rfl, htail⟩ := List.cons.inj heq
        exact hrest before b after htail

theorem commutes_iff {new : List UInt32} {k : Nat → List UInt32} {i : Nat} :
    Commutes new k i steps ↔ ∀ before s after, steps = before ++ s :: after → s.kind = .insert →
      inserted new s ++ pieces k s.oldIndex (i + oldSpan before - s.oldIndex)
        = pieces k s.oldIndex (i + oldSpan before - s.oldIndex) ++ inserted new s := by
  induction steps generalizing i with
  | nil =>
      refine ⟨fun _ before s after heq => ?_, fun _ => trivial⟩
      exact absurd heq (by simp)
  | cons s rest ih =>
      rw [Commutes, ih, forall_split_cons]
      simp [Nat.add_assoc]

/-- What is left before the end of steps does not depend on the steps behind them. -/
theorem pieces_leftAt (old : List UInt32) (before after : List Step) (q : Nat) :
    pieces (leftAt old (fates (before ++ after))) q (oldSpan before - q)
      = keptFrom old before q := by
  refine pieces_congr fun x _ hlt => ?_
  rw [leftAt, leftAt, fates_append, List.getElem?_append_left (by rw [oldSpan] at hlt; omega)]

/-- A pair of steps in order, the second picked out. -/
theorem exists_split_of_sublist {a b : Step} (h : [a, b].Sublist steps) :
    ∃ before after, steps = before ++ b :: after ∧ a ∈ before := by
  obtain ⟨l, r, rfl, ha, hb⟩ := List.cons_sublist_iff.1 h
  obtain ⟨mid, after, rfl⟩ := List.append_of_mem (List.singleton_sublist.1 hb)
  exact ⟨l ++ mid, after, (List.append_assoc _ _ _).symm, List.mem_append_left _ ha⟩

theorem sublist_of_split {a : Step} {before : List Step} (ha : a ∈ before) (b : Step)
    (after : List Step) : [a, b].Sublist (before ++ b :: after) :=
  List.cons_sublist_iff.2 ⟨before, b :: after, rfl, ha, List.singleton_sublist.2 List.mem_cons_self⟩

/-- Start and end of the edit of a change in a joined script. -/
theorem Joined.editOf_range (h : Joined old new 0 0 0 steps) (hsize : old.size < 4294967296)
    {s : Step} (hs : s ∈ steps) (hkind : s.kind ≠ .equal) :
    (editOf new.toList s).start.toNat = s.oldIndex ∧
      (editOf new.toList s).stop = s.oldIndex + s.oldLength := by
  have hstop := (h.bounds (Nat.zero_le _) s hs hkind).stop
  exact ⟨toNat_start_editOf _ (by omega), stop_editOf _ (by omega)⟩

theorem Joined.deletes_iff (h : Joined old new 0 0 0 steps) (hsize : old.size < 4294967296)
    (x : Nat) :
    TokensEdit.Deletes (editsOf new.toList steps) x ↔ (fates steps)[x]? = some false := by
  have hiff := h.aligned.deleted_iff x
  rw [Nat.sub_zero, and_iff_right (Nat.zero_le x)] at hiff
  rw [← hiff]
  constructor
  · rintro ⟨e, he, hle, hlt⟩
    obtain ⟨s, hs, rfl⟩ := List.mem_map.1 he
    obtain ⟨hs, hkind⟩ := List.mem_filter.1 hs
    have hkind : s.kind ≠ .equal := by simpa using hkind
    obtain ⟨hstart, hstop⟩ := h.editOf_range hsize hs hkind
    exact ⟨s, hs, hkind, hstart ▸ hle, hstop ▸ hlt⟩
  · rintro ⟨s, hs, hkind, hle, hlt⟩
    obtain ⟨hstart, hstop⟩ := h.editOf_range hsize hs hkind
    refine ⟨editOf new.toList s, List.mem_map.2 ⟨s, ?_, rfl⟩, hstart.symm ▸ hle, hstop.symm ▸ hlt⟩
    exact List.mem_filter.2 ⟨hs, by simpa using hkind⟩

/-- Edits that can be applied note no insertion at a number deleted before. -/
theorem Joined.not_deleted_of_apply (h : Joined old new 0 0 0 steps) (hsize : old.size < 4294967296)
    {result : List UInt32}
    (hok : TokensEdit.apply old.toList (editsOf new.toList steps) = .ok result)
    (before : List Step) (s : Step) (after : List Step) (hsplit : steps = before ++ s :: after)
    (hkind : s.kind = .insert) : (fates before)[s.oldIndex]? ≠ some false := by
  intro hdeleted
  have haligned : Aligned 0 before := (aligned_append.1 (hsplit ▸ h.aligned)).1
  obtain ⟨d, hd, hkind', hle, hlt⟩ :=
    (haligned.deleted_iff s.oldIndex).2 ⟨Nat.zero_le _, by rwa [Nat.sub_zero]⟩
  have hne : s.kind ≠ .equal := by rw [hkind]; decide
  have hs : s ∈ steps := by rw [hsplit]; simp
  have hd' : d ∈ steps := by rw [hsplit]; exact List.mem_append_left _ hd
  obtain ⟨hstart, -⟩ := h.editOf_range hsize hs hne
  obtain ⟨hstart', hstop'⟩ := h.editOf_range hsize hd' hkind'
  have hpair : [editOf new.toList d, editOf new.toList s].Sublist (editsOf new.toList steps) := by
    have := ((sublist_of_split hd s after).filter
      fun s => decide (s.kind ≠ .equal)).map (editOf new.toList)
    rw [← hsplit] at this
    simpa [hkind', hne, editsOf] using this
  have := TokensEdit.stop_le_of_apply hok hpair (by omega)
  omega

/-- Insertions noted at no number deleted before keep out of the changes before them. -/
theorem Joined.pairwise_uncovered (h : Joined old new 0 0 0 steps)
    (hnot : ∀ before s after, steps = before ++ s :: after → s.kind = .insert →
      (fates before)[s.oldIndex]? ≠ some false) : steps.Pairwise Uncovered := by
  refine List.pairwise_iff_forall_sublist.2 fun {a b} hab hkind hinsert hcovers => ?_
  obtain ⟨before, after, hsplit, ha⟩ := exists_split_of_sublist hab
  have haligned : Aligned 0 before := (aligned_append.1 (hsplit ▸ h.aligned)).1
  have := (haligned.deleted_iff b.oldIndex).1 ⟨a, ha, hkind, hcovers⟩
  rw [Nat.sub_zero] at this
  exact hnot before b after hsplit hinsert this.2

/-- Insertions that keep out of the changes before them make the edits applicable. -/
theorem Joined.apply_eq_pieces (h : Joined old new 0 0 0 steps) (hsize : old.size < 4294967296)
    (huncovered : steps.Pairwise Uncovered) :
    TokensEdit.apply old.toList (editsOf new.toList steps)
      = .ok (pieces (fun x => TokensEdit.insertedAt (editsOf new.toList steps) x
          ++ leftAt old.toList (fates steps) x) 0 (old.size + 1)) := by
  have hstop : ∀ e ∈ editsOf new.toList steps, e.stop ≤ old.toList.length := by
    intro e he
    obtain ⟨s, hs, rfl⟩ := List.mem_map.1 he
    obtain ⟨hs, hkind⟩ := List.mem_filter.1 hs
    have hkind : s.kind ≠ .equal := by simpa using hkind
    rw [(h.editOf_range hsize hs hkind).2, Array.length_toList]
    exact (h.bounds (Nat.zero_le _) s hs hkind).stop
  rw [TokensEdit.apply_eq_pieces hstop (h.apart hsize (Nat.zero_le _) huncovered),
    Array.length_toList]
  refine congrArg _ (pieces_congr fun x _ _ => ?_)
  simp only [TokensEdit.cell, h.deletes_iff hsize, leftAt]

/-- **The edits of a joined script restore the new array exactly if no insertion does harm.** -/
theorem Joined.apply_edits_iff (h : Joined old new 0 0 0 steps) (hsize : old.size < 4294967296) :
    TokensEdit.apply old.toList (edits new.toList steps) = .ok new.toList ↔
      ∀ before s after, steps = before ++ s :: after → s.kind = .insert →
        Harmless old.toList new.toList before s := by
  have hleaves : Leaves old (leftAt old.toList (fates steps)) 0 steps := by
    intro t
    rw [leftAt, Nat.zero_add]
  have hiff := h.pieces_eq_iff hsize (Nat.zero_le _) hleaves (Nat.le_refl 0) (Nat.le_refl 0)
  rw [Nat.sub_zero, Nat.sub_self, pieces, List.nil_append, List.drop_zero, commutes_iff] at hiff
  rw [h.edits_eq]
  constructor
  · intro hok before s after hsplit hkind
    have hnot := h.not_deleted_of_apply hsize hok
    rw [h.apply_eq_pieces hsize (h.pairwise_uncovered hnot)] at hok
    have hcommutes := hiff.1 (Except.ok.inj hok) before s after hsplit hkind
    refine ⟨hnot before s after hsplit hkind, ?_⟩
    rwa [hsplit, Nat.zero_add, pieces_leftAt] at hcommutes
  · intro hharmless
    rw [h.apply_eq_pieces hsize (h.pairwise_uncovered fun before s after hsplit hkind =>
      (hharmless before s after hsplit hkind).1)]
    refine congrArg _ (hiff.2 fun before s after hsplit hkind => ?_)
    have := (hharmless before s after hsplit hkind).2
    rwa [hsplit, Nat.zero_add, pieces_leftAt]

end Harmless

end Script

/-! ## Equal arrays -/

namespace Myers

theorem commonPrefix_self (a : Array UInt32) (i limit : Nat) :
    commonPrefix a a i i limit = limit := by
  induction limit generalizing i with
  | zero => rfl
  | succ limit ih => rw [commonPrefix, if_pos rfl, ih, Nat.add_comm]

/-- The script between equal arrays keeps everything. -/
theorem script_self (a : Array UInt32) : script a a = equalStep 0 0 a.size := by
  have hfront : Box.prefixLength a a ⟨0, a.size, 0, a.size⟩ = a.size := by
    rw [Box.prefixLength, commonPrefix_self, Nat.min_self, Nat.sub_zero]
  have hsuffix : Box.suffixLength a a ⟨a.size, a.size, a.size, a.size⟩ = 0 := by
    have := (Box.suffixLength_le a a ⟨a.size, a.size, a.size, a.size⟩).1
    rwa [Nat.sub_self, Nat.le_zero] at this
  have hlast : equalStep a.size a.size 0 = [] := rfl
  unfold script conquer
  simp [hfront, hsuffix, hlast]

theorem kind_of_mem_equalStep {i j n : Nat} {s : Step} (h : s ∈ equalStep i j n) :
    s.kind = .equal := by
  unfold equalStep at h
  split at h
  · exact absurd h List.not_mem_nil
  · rw [List.mem_singleton.1 h]

end Myers

namespace Compaction

/-- Steps of other kinds are left alone. -/
theorem moveKind_of_ne {old new : Array UInt32} {kind : StepKind} {reach : Nat} {steps : List Step}
    (h : ∀ s ∈ steps, s.kind ≠ kind) (fuel p : Nat) :
    moveKind old new kind reach fuel steps p = steps := by
  induction fuel generalizing p with
  | zero => rfl
  | succ fuel ih =>
      rw [moveKind]
      split
      · rfl
      · next s hs => rw [if_neg (h s (List.mem_of_getElem? hs)), ih]

theorem compact_equalStep (old new : Array UInt32) (i j n : Nat) :
    compact old new (Myers.equalStep i j n) = Myers.equalStep i j n := by
  have hleft : ∀ kind reach fuel p, kind ≠ .equal →
      moveKind old new kind reach fuel (Myers.equalStep i j n) p = Myers.equalStep i j n := by
    intro kind reach fuel p hne
    refine moveKind_of_ne (fun s hs => ?_) fuel p
    rw [Myers.kind_of_mem_equalStep hs]
    exact hne.symm
  unfold compact
  dsimp only
  rw [hleft .delete _ _ _ (by decide), hleft .insert _ _ _ (by decide)]
  unfold Myers.equalStep
  split <;> rfl

end Compaction

/-! ## The edits between two arrays -/

/-- An insertion noted one place too far behind comes out behind the number it belongs before. -/
theorem apply_misplaced :
    TokensEdit.apply [2, 0] (TokensEdit.diff [2, 0] [0, 0, 2]) = .ok [0, 2, 0] := by
  have hdiff : TokensEdit.diff [2, 0] [0, 0, 2] = [⟨0, 1, none⟩, ⟨1, 0, some [0, 2]⟩] := by
    decide +kernel
  rw [hdiff, TokensEdit.apply_eq_pieces (by decide) (by simp [TokensEdit.Apart, TokensEdit.stop])]
  rfl

/-- **When the edits restore the new array.** The edits from one array to another, applied to the
one, give the other exactly if no lone insertion of the script that they are made from does harm. -/
theorem apply_diff_eq_ok_iff (old new : List UInt32) (hsize : old.length < 4294967296) :
    TokensEdit.apply old (TokensEdit.diff old new) = .ok new ↔
      ∀ before s after,
        Compaction.compact old.toArray new.toArray (Myers.script old.toArray new.toArray)
          = before ++ s :: after → s.kind = .insert → Script.Harmless old new before s := by
  have hjoined := Compaction.compact_script_joined old.toArray new.toArray
  have hiff := hjoined.apply_edits_iff hsize
  unfold TokensEdit.diff
  split
  · next heq =>
      -- without a difference there is one kept piece and nothing to apply
      subst heq
      refine ⟨fun _ before s after hsplit hkind => ?_, fun _ => ?_⟩
      · rw [Myers.script_self, Compaction.compact_equalStep] at hsplit
        have hs : s ∈ Myers.equalStep 0 0 old.toArray.size := by rw [hsplit]; simp
        rw [Myers.kind_of_mem_equalStep hs] at hkind
        exact absurd hkind (by decide)
      · simp [TokensEdit.apply, TokensEdit.sort, TokensEdit.applyFrom]
  · exact hiff

/-- The deletion of the first number lies between where the insertion is noted and its place. -/
theorem misplaced_insertion_harms :
    ([2, 0] : List UInt32).length < 4294967296 ∧
      ¬ ∀ before s after, Compaction.compact #[2, 0] #[0, 0, 2] (Myers.script #[2, 0] #[0, 0, 2])
        = before ++ s :: after → s.kind = .insert → Script.Harmless [2, 0] [0, 0, 2] before s := by
  refine ⟨by decide, fun hharmless => ?_⟩
  have hok := (apply_diff_eq_ok_iff [2, 0] [0, 0, 2] (by decide)).2 hharmless
  rw [apply_misplaced] at hok
  exact absurd (Except.ok.inj hok) (by decide)

/-- The edits between two arrays need not restore the new one. -/
theorem exists_apply_diff_ne :
    ∃ old new : List UInt32, old.length < 4294967296 ∧ new.length < 4294967296 ∧
      TokensEdit.apply old (TokensEdit.diff old new) ≠ .ok new := by
  refine ⟨[2, 0], [0, 0, 2], by decide, by decide, fun hok => ?_⟩
  rw [apply_misplaced] at hok
  exact absurd (Except.ok.inj hok) (by decide)

end LanguageServer
