import LanguageServer.Token.Edit
import LanguageServer.Token.Script

set_option autoImplicit false

/-! # What edits amount to

Edits that stay apart from each other can be read place by place, whatever their order: at each
place stands what an edit that starts there inserts, and then the number that was there, unless an
edit deletes it (`TokensEdit.cell`). Applying the edits puts these together
(`TokensEdit.apply_eq_pieces`). Edits of which a later one in the list starts inside an earlier one
cannot be applied (`TokensEdit.stop_le_of_apply`). -/

namespace LanguageServer

/-! ## Pieces put together -/

section Pieces

variable {α : Type}

/-- What stands at `n` places from `a` on. -/
def pieces (h : Nat → List α) : (a n : Nat) → List α
  | _, 0 => []
  | a, n + 1 => h a ++ pieces h (a + 1) n

theorem pieces_add (h : Nat → List α) (a m n : Nat) :
    pieces h a (m + n) = pieces h a m ++ pieces h (a + m) n := by
  induction m generalizing a with
  | zero => simp [pieces]
  | succ m ih =>
      rw [Nat.add_right_comm, pieces, pieces, ih, List.append_assoc, Nat.add_right_comm a 1 m,
        Nat.add_assoc]

theorem pieces_congr {h h' : Nat → List α} {a n : Nat}
    (heq : ∀ x, a ≤ x → x < a + n → h x = h' x) : pieces h a n = pieces h' a n := by
  induction n generalizing a with
  | zero => rfl
  | succ n ih =>
      rw [pieces, pieces, heq a (Nat.le_refl a) (by omega),
        ih fun x hle hlt => heq x (by omega) (by omega)]

theorem pieces_nil {h : Nat → List α} {a n : Nat} (heq : ∀ x, a ≤ x → x < a + n → h x = []) :
    pieces h a n = [] := by
  induction n generalizing a with
  | zero => rfl
  | succ n ih =>
      rw [pieces, heq a (Nat.le_refl a) (by omega),
        ih fun x hle hlt => heq x (by omega) (by omega), List.append_nil]

/-- Something put before what stands at one place. -/
theorem pieces_insert {h h' : Nat → List α} {w : List α} {a n q : Nat}
    (heq : ∀ x, h x = (if q = x then w else []) ++ h' x) (hle : a ≤ q) (hlt : q < a + n) :
    pieces h a n = pieces h' a (q - a) ++ (w ++ pieces h' q (a + n - q)) := by
  obtain ⟨m, hm⟩ : ∃ m, a + n - q = m + 1 := ⟨a + n - q - 1, by omega⟩
  have hsplit : n = (q - a) + (m + 1) := by omega
  have hother : ∀ x, q ≠ x → h x = h' x := fun x hx => by rw [heq, if_neg hx, List.nil_append]
  have hbefore : pieces h a (q - a) = pieces h' a (q - a) :=
    pieces_congr fun x _ hx => hother x (by omega)
  have hbehind : pieces h (q + 1) m = pieces h' (q + 1) m :=
    pieces_congr fun x hx _ => hother x (by omega)
  rw [hm, hsplit, pieces_add, hbefore, Nat.add_sub_cancel' hle, pieces, pieces, heq q, if_pos rfl,
    hbehind, List.append_assoc]

/-- The elements of a list, place by place. -/
theorem pieces_getElem? (data : List α) (a n : Nat) :
    pieces (fun x => data[x]?.toList) a n = (data.drop a).take n := by
  induction n generalizing a with
  | zero => rw [pieces, List.take_zero]
  | succ n ih =>
      rw [pieces, ih]
      by_cases hlt : a < data.length
      · rw [List.drop_eq_getElem_cons hlt, List.take_succ_cons, List.getElem?_eq_getElem hlt]
        rfl
      · rw [List.getElem?_eq_none (by omega), List.drop_eq_nil_of_le (by omega),
          List.drop_eq_nil_of_le (by omega)]
        simp

end Pieces

namespace TokensEdit

/-! ## Places -/

/-- What edits insert before the number at `x`. -/
def insertedAt : (edits : List TokensEdit) → (x : Nat) → List UInt32
  | [], _ => []
  | e :: rest, x => (if e.start.toNat = x then e.insertion else []) ++ insertedAt rest x

/-- Whether edits delete the number at `x`. -/
def Deletes (edits : List TokensEdit) (x : Nat) : Prop :=
  ∃ e ∈ edits, e.start.toNat ≤ x ∧ x < e.stop

instance (edits : List TokensEdit) (x : Nat) : Decidable (Deletes edits x) :=
  inferInstanceAs (Decidable (∃ e ∈ edits, e.start.toNat ≤ x ∧ x < e.stop))

/-- What stands at `x` after edits. -/
def cell (data : List UInt32) (edits : List TokensEdit) (x : Nat) : List UInt32 :=
  insertedAt edits x ++ if Deletes edits x then [] else data[x]?.toList

/-- Two edits that start at different places and of which one ends before the other starts. -/
def Apart (a b : TokensEdit) : Prop :=
  a.start.toNat ≠ b.start.toNat ∧ (a.stop ≤ b.start.toNat ∨ b.stop ≤ a.start.toNat)

theorem Apart.symm {a b : TokensEdit} (h : Apart a b) : Apart b a := ⟨h.1.symm, h.2.symm⟩

theorem start_le_stop (e : TokensEdit) : e.start.toNat ≤ e.stop := Nat.le_add_right _ _

theorem insertedAt_eq_nil {edits : List TokensEdit} {x : Nat}
    (h : ∀ e ∈ edits, e.start.toNat ≠ x) : insertedAt edits x = [] := by
  induction edits with
  | nil => rfl
  | cons e rest ih =>
      rw [insertedAt, if_neg (h e List.mem_cons_self),
        ih fun e he => h e (List.mem_cons_of_mem _ he)]
      rfl

/-- Edits that stay apart may come in any order. -/
theorem insertedAt_perm {edits edits' : List TokensEdit} (h : edits.Perm edits')
    (hapart : edits.Pairwise Apart) (x : Nat) : insertedAt edits x = insertedAt edits' x := by
  induction h with
  | nil => rfl
  | cons e _ ih => rw [insertedAt, insertedAt, ih hapart.of_cons]
  | swap a b rest =>
      -- at most one of the two starts here
      have hne : b.start.toNat ≠ a.start.toNat :=
        (List.rel_of_pairwise_cons hapart List.mem_cons_self).1
      simp only [insertedAt]
      by_cases ha : a.start.toNat = x
      · rw [if_neg (fun hb => hne (hb.trans ha.symm))]
        simp
      · rw [if_neg ha]
        simp
  | trans h _ ih ih' => exact (ih hapart).trans (ih' ((h.pairwise_iff Apart.symm).1 hapart))

theorem cell_perm {edits edits' : List TokensEdit} (h : edits.Perm edits')
    (hapart : edits.Pairwise Apart) (data : List UInt32) (x : Nat) :
    cell data edits x = cell data edits' x := by
  have hdeletes : Deletes edits x ↔ Deletes edits' x := by simp only [Deletes, h.mem_iff]
  simp only [cell, insertedAt_perm h hapart x, hdeletes]

/-! ## Edits in order -/

section Ordered

variable {data : List UInt32} {e : TokensEdit} {rest : List TokensEdit}

/-- Before an edit that comes first stands what was there. -/
theorem cell_before {x : Nat} (hrest : ∀ a ∈ rest, e.start.toNat < a.start.toNat)
    (hx : x < e.start.toNat) : cell data (e :: rest) x = data[x]?.toList := by
  have hstart : ∀ a ∈ e :: rest, x < a.start.toNat := by
    intro a ha
    rcases List.mem_cons.1 ha with rfl | ha
    · exact hx
    · exact Nat.lt_trans hx (hrest a ha)
  have hdeletes : ¬ Deletes (e :: rest) x := by
    rintro ⟨a, ha, hle, -⟩
    exact absurd (hstart a ha) (Nat.not_lt.2 hle)
  rw [cell, insertedAt_eq_nil fun a ha => Nat.ne_of_gt (hstart a ha), if_neg hdeletes]
  rfl

/-- Behind an edit stands what the others leave there. -/
theorem cell_behind {x : Nat} (hx : e.stop ≤ x) (hne : e.start.toNat ≠ x) :
    cell data (e :: rest) x = cell data rest x := by
  have hdeletes : Deletes (e :: rest) x ↔ Deletes rest x := by
    constructor
    · rintro ⟨a, ha, hle, hlt⟩
      rcases List.mem_cons.1 ha with rfl | ha
      · exact absurd hlt (Nat.not_lt.2 hx)
      · exact ⟨a, ha, hle, hlt⟩
    · rintro ⟨a, ha, h⟩
      exact ⟨a, List.mem_cons_of_mem _ ha, h⟩
  simp only [cell, insertedAt, if_neg hne, List.nil_append, hdeletes]

/-- From its start on an edit puts what it inserts before what the others leave behind it. -/
theorem pieces_from_start (hstop : e.stop ≤ data.length)
    (hrest : ∀ a ∈ rest, e.stop ≤ a.start.toNat ∧ e.start.toNat < a.start.toNat) :
    pieces (cell data (e :: rest)) e.start.toNat
        (e.deleteCount.toNat + (data.length + 1 - e.stop))
      = e.insertion ++ pieces (cell data rest) e.stop (data.length + 1 - e.stop) := by
  have hbehind : ∀ n, pieces (cell data (e :: rest)) (e.stop + 1) n
      = pieces (cell data rest) (e.stop + 1) n := by
    intro n
    have := start_le_stop e
    exact pieces_congr fun x hle _ => cell_behind (by omega) (by omega)
  obtain ⟨n, hn⟩ : ∃ n, data.length + 1 - e.stop = n + 1 := ⟨data.length - e.stop, by omega⟩
  rw [hn]
  cases hcount : e.deleteCount.toNat with
  | zero =>
      have hstop' : e.stop = e.start.toNat := by rw [stop, hcount, Nat.add_zero]
      have hdeletes : Deletes (e :: rest) e.start.toNat ↔ Deletes rest e.start.toNat := by
        simp [Deletes, hstop']
      rw [Nat.zero_add, ← hstop', pieces, pieces, hbehind, hstop', cell, cell, insertedAt,
        if_pos rfl]
      simp only [hdeletes, List.append_assoc]
  | succ k =>
      have hstop' : e.stop = e.start.toNat + (k + 1) := by rw [stop, hcount]
      have hfirst : cell data (e :: rest) e.start.toNat = e.insertion := by
        have hdeletes : Deletes (e :: rest) e.start.toNat :=
          ⟨e, List.mem_cons_self, Nat.le_refl _, by omega⟩
        rw [cell, if_pos hdeletes, insertedAt, if_pos rfl,
          insertedAt_eq_nil fun a ha => Nat.ne_of_gt (hrest a ha).2]
        simp
      have hinside : pieces (cell data (e :: rest)) (e.start.toNat + 1) k = [] := by
        refine pieces_nil fun x hle hlt => ?_
        have hdeletes : Deletes (e :: rest) x := ⟨e, List.mem_cons_self, by omega, by omega⟩
        rw [cell, if_pos hdeletes, insertedAt_eq_nil]
        · rfl
        · intro a ha
          rcases List.mem_cons.1 ha with rfl | ha
          · omega
          · have := (hrest a ha).1
            omega
      have hlast : cell data (e :: rest) e.stop = cell data rest e.stop :=
        cell_behind (Nat.le_refl _) (by omega)
      rw [pieces_add, pieces, hfirst, hinside, List.append_nil, ← hstop', pieces, pieces, hbehind,
        hlast]

/-- Edits in order, each ending before the next one starts, are applied place by place. -/
theorem applyFrom_eq_pieces {edits : List TokensEdit} {cursor : Nat}
    (hcursor : ∀ e ∈ edits, cursor ≤ e.start.toNat) (hstop : ∀ e ∈ edits, e.stop ≤ data.length)
    (horder : edits.Pairwise fun a b => a.stop ≤ b.start.toNat ∧ a.start.toNat < b.start.toNat)
    (hle : cursor ≤ data.length) :
    applyFrom data cursor edits
      = .ok (pieces (cell data edits) cursor (data.length + 1 - cursor)) := by
  induction edits generalizing cursor with
  | nil =>
      have hcell : cell data [] = fun x => data[x]?.toList := by
        funext x
        simp [cell, insertedAt, Deletes]
      rw [applyFrom, hcell, pieces_getElem?, List.take_of_length_le (by simp; omega)]
  | cons e rest ih =>
      obtain ⟨hrest, horder⟩ := List.pairwise_cons.1 horder
      have hstart := hcursor e List.mem_cons_self
      have hend := hstop e List.mem_cons_self
      have hbefore : pieces (cell data (e :: rest)) cursor (e.start.toNat - cursor)
          = (data.drop cursor).take (e.start.toNat - cursor) := by
        rw [← pieces_getElem?]
        exact pieces_congr fun x _ hlt => cell_before (fun a ha => (hrest a ha).2) (by omega)
      have hcount : e.start.toNat + e.deleteCount.toNat = e.stop := rfl
      have hsplit : data.length + 1 - cursor = e.start.toNat - cursor
          + (e.deleteCount.toNat + (data.length + 1 - e.stop)) := by omega
      rw [applyFrom, if_neg (Nat.not_lt.2 hend), if_neg (Nat.not_lt.2 hstart),
        ih (fun a ha => (hrest a ha).1) (fun a ha => hstop a (List.mem_cons_of_mem _ ha)) horder
          hend,
        hsplit, pieces_add, hbefore,
        show cursor + (e.start.toNat - cursor) = e.start.toNat by omega,
        pieces_from_start hend hrest, ← List.append_assoc]
      rfl

end Ordered

/-! ## Edits in any order -/

theorem sort_perm (edits : List TokensEdit) : (sort edits).Perm edits := List.mergeSort_perm _ _

theorem start_le_trans (a b c : TokensEdit) (hab : decide (a.start ≤ b.start) = true)
    (hbc : decide (b.start ≤ c.start) = true) : decide (a.start ≤ c.start) = true := by
  rw [decide_eq_true_eq] at *
  exact UInt32.le_trans hab hbc

theorem start_le_total (a b : TokensEdit) :
    (decide (a.start ≤ b.start) || decide (b.start ≤ a.start)) = true := by
  rw [Bool.or_eq_true, decide_eq_true_eq, decide_eq_true_eq]
  exact UInt32.le_total _ _

theorem sort_pairwise (edits : List TokensEdit) :
    (sort edits).Pairwise fun a b => a.start.toNat ≤ b.start.toNat := by
  refine (List.pairwise_mergeSort start_le_trans start_le_total edits).imp fun {a b} h => ?_
  rw [decide_eq_true_eq] at h
  exact UInt32.le_iff_toNat_le.1 h

/-- **Edits that stay apart are applied place by place.** -/
theorem apply_eq_pieces {data : List UInt32} {edits : List TokensEdit}
    (hstop : ∀ e ∈ edits, e.stop ≤ data.length) (hapart : edits.Pairwise Apart) :
    apply data edits = .ok (pieces (cell data edits) 0 (data.length + 1)) := by
  have hperm := sort_perm edits
  have hsorted : (sort edits).Pairwise Apart := (hperm.pairwise_iff Apart.symm).2 hapart
  have horder : (sort edits).Pairwise fun a b =>
      a.stop ≤ b.start.toNat ∧ a.start.toNat < b.start.toNat := by
    refine List.Pairwise.imp₂ (fun a b hle hapart => ?_) (sort_pairwise edits) hsorted
    have := start_le_stop b
    obtain ⟨hne, hends⟩ := hapart
    omega
  have hcells : pieces (cell data (sort edits)) 0 (data.length + 1)
      = pieces (cell data edits) 0 (data.length + 1) :=
    pieces_congr fun x _ _ => cell_perm hperm hsorted data x
  rw [apply, applyFrom_eq_pieces (fun _ _ => Nat.zero_le _)
    (fun e he => hstop e (hperm.mem_iff.1 he)) horder (Nat.zero_le _), Nat.sub_zero, hcells]

/-- Edits that are applied in order each end before the next one starts. -/
theorem pairwise_of_applyFrom {data result : List UInt32} {edits : List TokensEdit} {cursor : Nat}
    (h : applyFrom data cursor edits = .ok result) :
    (∀ e ∈ edits, cursor ≤ e.start.toNat) ∧
      edits.Pairwise fun a b => a.stop ≤ b.start.toNat := by
  induction edits generalizing cursor result with
  | nil => exact ⟨fun e he => absurd he List.not_mem_nil, .nil⟩
  | cons e rest ih =>
      rw [applyFrom] at h
      split at h
      · cases h
      · split at h
        · cases h
        · next hstart =>
            cases hrest : applyFrom data e.stop rest with
            | error fault => rw [hrest] at h; cases h
            | ok after =>
                obtain ⟨hle, hpairwise⟩ := ih hrest
                refine ⟨fun a ha => ?_, List.pairwise_cons.2 ⟨hle, hpairwise⟩⟩
                rcases List.mem_cons.1 ha with rfl | ha
                · exact Nat.not_lt.1 hstart
                · have := hle a ha
                  have := start_le_stop e
                  omega

/-- Of two edits that are applied, one that comes first and starts first also ends first. -/
theorem stop_le_of_apply {data result : List UInt32} {edits : List TokensEdit} {a b : TokensEdit}
    (h : apply data edits = .ok result) (hab : [a, b].Sublist edits)
    (hle : a.start.toNat ≤ b.start.toNat) : a.stop ≤ b.start.toNat := by
  have hsorted : [a, b].Sublist (sort edits) :=
    List.pair_sublist_mergeSort start_le_trans start_le_total
      (decide_eq_true (UInt32.le_iff_toNat_le.2 hle)) hab
  exact List.rel_of_pairwise_cons ((pairwise_of_applyFrom h).2.sublist hsorted)
    List.mem_cons_self

end TokensEdit

/-! ## Edits gathered from a script -/

theorem Script.Pending.insertion_finish (p : Pending) : p.finish.insertion = p.data := by
  unfold finish TokensEdit.insertion
  cases p.data with
  | nil => rfl
  | cons x xs => rfl

end LanguageServer
