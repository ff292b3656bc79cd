import Mathlib.Algebra.BigOperators.Group.List.Basic
import Mathlib.Algebra.Ring.Nat
import LanguageServer.Proofs.Sorting
import LanguageServer.Proofs.Token.Apply

set_option autoImplicit false

/-! # Edits as splices

Edits are applied in one pass over the data, with a cursor behind the last edit. The same comes out
if the edits, in order, are spliced into the data one at a time, the last one first: a splice leaves
the places before it as they were, so those of the edits that are still to come are where they say.
That is the invariant here: once the edits from a cursor on have been spliced in, the data up to the
cursor is still the old data (`take_spliceAll`), and what follows is what the pass puts out from there
on (`applyFrom_of_fitsFrom`).

The pass stops at the first edit that reaches past the end or starts before the cursor, and the
former is looked at first (`applyFrom_of_offends`). -/

namespace LanguageServer.TokensEdit

/-! ## Edits one at a time -/

/-- The data with one edit made. -/
def splice (data : List UInt32) (e : TokensEdit) : List UInt32 :=
  data.take e.start.toNat ++ e.insertion ++ data.drop e.stop

/-- The data with edits made one at a time, from the last to the first. -/
def spliceAll (data : List UInt32) (edits : List TokensEdit) : List UInt32 :=
  edits.foldr (fun e data => splice data e) data

/-! ## Which edits can be made -/

/-- No edit starts before the end of the one before it. -/
def InTurn : List TokensEdit → Prop
  | a :: b :: rest => a.stop ≤ b.start.toNat ∧ InTurn (b :: rest)
  | _ => True

/-- Edits in order can be made: all of them end inside the data, and none starts before the end of
the one before it. -/
def Fits (data : List UInt32) (edits : List TokensEdit) : Prop :=
  (∀ e ∈ edits, e.stop ≤ data.length) ∧ InTurn edits

/-- An edit cannot be made after the ones before it: it ends past the end of the data, or it starts
before the end of the last of them. -/
def Offends (data : List UInt32) (before : List TokensEdit) (e : TokensEdit) : Prop :=
  data.length < e.stop ∨ ∃ a, before.getLast? = some a ∧ e.start.toNat < a.stop

/-- What is said of an edit that cannot be made. -/
def faultOf (data : List UInt32) (e : TokensEdit) : Fault :=
  if data.length < e.stop then .outOfBounds e.start e.deleteCount data.length
  else .overlapping e.start

/-- Edits can be made from a cursor on. -/
def FitsFrom (data : List UInt32) : (cursor : Nat) → List TokensEdit → Prop
  | _, [] => True
  | cursor, e :: rest =>
    e.stop ≤ data.length ∧ cursor ≤ e.start.toNat ∧ FitsFrom data e.stop rest

/-- Where the cursor stands behind edits. -/
def cursorAfter : (cursor : Nat) → List TokensEdit → Nat
  | cursor, [] => cursor
  | _, e :: rest => cursorAfter e.stop rest

section

variable {data : List UInt32}

theorem fitsFrom_iff {cursor : Nat} {edits : List TokensEdit} :
    FitsFrom data cursor edits ↔
      Fits data edits ∧ ∀ e, edits.head? = some e → cursor ≤ e.start.toNat := by
  induction edits generalizing cursor with
  | nil => simp [FitsFrom, Fits, InTurn]
  | cons e rest ih =>
      rw [FitsFrom, ih]
      cases rest with
      | nil => simp [Fits, InTurn]
      | cons b rest =>
          simp only [Fits, InTurn, List.mem_cons, List.head?_cons, Option.some.injEq,
            forall_eq_or_imp, forall_eq']
          constructor
          · rintro ⟨hstop, hcursor, ⟨hstops, hturn⟩, hnext⟩
            exact ⟨⟨⟨hstop, hstops⟩, hnext, hturn⟩, hcursor⟩
          · rintro ⟨⟨⟨hstop, hstops⟩, hnext, hturn⟩, hcursor⟩
            exact ⟨hstop, hcursor, ⟨hstops, hturn⟩, hnext⟩

theorem cursorAfter_eq (cursor : Nat) (edits : List TokensEdit) :
    cursorAfter cursor edits = (edits.getLast?.map stop).getD cursor := by
  induction edits generalizing cursor with
  | nil => rfl
  | cons e rest ih =>
      rw [cursorAfter, ih]
      cases rest with
      | nil => rfl
      | cons b rest =>
          rw [List.getLast?_cons_cons, List.getLast?_eq_some_getLast (List.cons_ne_nil b rest)]
          rfl

theorem offends_iff {before : List TokensEdit} {e : TokensEdit} :
    Offends data before e ↔
      data.length < e.stop ∨ e.start.toNat < cursorAfter 0 before := by
  rw [Offends, cursorAfter_eq]
  cases before.getLast? with
  | none => simp
  | some a => simp

/-! ## The pass -/

/-- A splice into data that is still the old one up to the end of the edit. -/
theorem splice_eq {later : List UInt32} {e : TokensEdit}
    (h : later.take e.stop = data.take e.stop) :
    splice later e = data.take e.start.toNat ++ (e.insertion ++ later.drop e.stop) := by
  have hold := congrArg (List.take e.start.toNat) h
  rw [List.take_take, List.take_take, Nat.min_eq_left (start_le_stop e)] at hold
  rw [splice, hold, List.append_assoc]

theorem length_take_start {e : TokensEdit} (h : e.stop ≤ data.length) :
    (data.take e.start.toNat).length = e.start.toNat := by
  have hle := start_le_stop e
  rw [List.length_take]
  omega

/-- Splices leave what comes before the first of them. -/
theorem take_spliceAll {cursor : Nat} {edits : List TokensEdit}
    (h : FitsFrom data cursor edits) : (spliceAll data edits).take cursor = data.take cursor := by
  induction edits generalizing cursor with
  | nil => rfl
  | cons e rest ih =>
      obtain ⟨hstop, hstart, hrest⟩ := h
      have hlength := length_take_start hstop
      have hsplice : spliceAll data (e :: rest) = _ := splice_eq (ih hrest)
      rw [hsplice, List.take_append_of_le_length (by omega), List.take_take,
        Nat.min_eq_left hstart]

/-- Where the edits fit, the pass puts out what splicing leaves from the cursor on. -/
theorem applyFrom_of_fitsFrom {cursor : Nat} {edits : List TokensEdit}
    (h : FitsFrom data cursor edits) :
    applyFrom data cursor edits = .ok ((spliceAll data edits).drop cursor) := by
  induction edits generalizing cursor with
  | nil => rfl
  | cons e rest ih =>
      obtain ⟨hstop, hstart, hrest⟩ := h
      have hlength := length_take_start hstop
      have hsplice : spliceAll data (e :: rest) = _ := splice_eq (take_spliceAll hrest)
      rw [applyFrom, if_neg (Nat.not_lt.2 hstop), if_neg (Nat.not_lt.2 hstart), ih hrest, hsplice,
        List.drop_append_of_le_length (by omega), List.drop_take, ← List.append_assoc]
      rfl

/-- The pass stops at the first edit that cannot be made. -/
theorem applyFrom_of_offends {cursor : Nat} {before after : List TokensEdit} {e : TokensEdit}
    (hbefore : FitsFrom data cursor before)
    (he : data.length < e.stop ∨ e.start.toNat < cursorAfter cursor before) :
    applyFrom data cursor (before ++ e :: after) = .error (faultOf data e) := by
  induction before generalizing cursor with
  | nil =>
      rw [List.nil_append, applyFrom, faultOf]
      split
      · rfl
      · next hstop =>
          have hstart : e.start.toNat < cursor := he.resolve_left hstop
          rw [if_pos hstart]
  | cons a before ih =>
      obtain ⟨hstop, hstart, hrest⟩ := hbefore
      rw [List.cons_append, applyFrom, if_neg (Nat.not_lt.2 hstop), if_neg (Nat.not_lt.2 hstart),
        ih hrest he]
      rfl

/-- All edits can be made, or there is a first one that cannot. -/
theorem fitsFrom_or_offends (data : List UInt32) (cursor : Nat) (edits : List TokensEdit) :
    FitsFrom data cursor edits ∨ ∃ before e after, edits = before ++ e :: after ∧
      FitsFrom data cursor before ∧
      (data.length < e.stop ∨ e.start.toNat < cursorAfter cursor before) := by
  induction edits generalizing cursor with
  | nil => exact .inl trivial
  | cons e rest ih =>
      by_cases he : data.length < e.stop ∨ e.start.toNat < cursor
      · exact .inr ⟨[], e, rest, rfl, trivial, he⟩
      · rw [not_or, Nat.not_lt, Nat.not_lt] at he
        rcases ih e.stop with hfits | ⟨before, a, after, rfl, hbefore, ha⟩
        · exact .inl ⟨he.1, he.2, hfits⟩
        · exact .inr ⟨e :: before, a, after, rfl, ⟨he.1, he.2, hbefore⟩, ha⟩

/-- What splicing does to the length. -/
theorem length_spliceAll {cursor : Nat} {edits : List TokensEdit}
    (h : FitsFrom data cursor edits) :
    (spliceAll data edits).length + (edits.map (·.deleteCount.toNat)).sum
      = data.length + (edits.map (·.insertion.length)).sum := by
  induction edits generalizing cursor with
  | nil => rfl
  | cons e rest ih =>
      obtain ⟨hstop, hstart, hrest⟩ := h
      have hlater := ih hrest
      have hend : e.start.toNat + e.deleteCount.toNat = e.stop := rfl
      -- the later edits have left the data up to the end of this one, so there is that much
      have hinside : e.stop ≤ (spliceAll data rest).length := by
        have hlength := congrArg List.length (take_spliceAll hrest)
        rw [List.length_take, List.length_take] at hlength
        omega
      change (splice (spliceAll data rest) e).length + _ = _
      simp only [splice, List.map_cons, List.sum_cons, List.length_append, List.length_take,
        List.length_drop]
      omega

/-- Edits that can be made delete no more than there is. -/
theorem sum_deleteCount_le {cursor : Nat} {edits : List TokensEdit}
    (h : FitsFrom data cursor edits) (hcursor : cursor ≤ data.length) :
    cursor + (edits.map (·.deleteCount.toNat)).sum ≤ data.length := by
  induction edits generalizing cursor with
  | nil => exact hcursor
  | cons e rest ih =>
      obtain ⟨hstop, hstart, hrest⟩ := h
      have hlater := ih hrest hstop
      have hend : e.start.toNat + e.deleteCount.toNat = e.stop := rfl
      rw [List.map_cons, List.sum_cons]
      omega

end

/-! ## Edits in any order -/

theorem fitsFrom_zero_iff {data : List UInt32} {edits : List TokensEdit} :
    FitsFrom data 0 edits ↔ Fits data edits := by
  rw [fitsFrom_iff]
  exact and_iff_left fun e _ => Nat.zero_le _

theorem apply_of_fits {data : List UInt32} {edits : List TokensEdit}
    (h : Fits data (sort edits)) : apply data edits = .ok (spliceAll data (sort edits)) :=
  applyFrom_of_fitsFrom (fitsFrom_zero_iff.2 h)

theorem apply_of_offends {data : List UInt32} {edits before after : List TokensEdit}
    {e : TokensEdit} (hsort : sort edits = before ++ e :: after) (hbefore : Fits data before)
    (he : Offends data before e) : apply data edits = .error (faultOf data e) := by
  rw [apply, hsort]
  exact applyFrom_of_offends (fitsFrom_zero_iff.2 hbefore) (offends_iff.1 he)

theorem fits_or_offends (data : List UInt32) (edits : List TokensEdit) :
    Fits data edits ∨ ∃ before e after, edits = before ++ e :: after ∧ Fits data before ∧
      Offends data before e := by
  have h := fitsFrom_or_offends data 0 edits
  simpa only [fitsFrom_zero_iff, ← offends_iff] using h

/-- The sums do not depend on the order of the edits, so those of the edits as they come will do. -/
theorem length_spliceAll_sort {data : List UInt32} {edits : List TokensEdit}
    (h : Fits data (sort edits)) :
    (edits.map (·.deleteCount.toNat)).sum ≤ data.length ∧
      (spliceAll data (sort edits)).length
        = data.length - (edits.map (·.deleteCount.toNat)).sum
          + (edits.map (·.insertion.length)).sum := by
  have hfrom := fitsFrom_zero_iff.2 h
  have hdeleted := sum_deleteCount_le hfrom (Nat.zero_le _)
  have hlength := length_spliceAll hfrom
  have hperm := sort_perm edits
  rw [(hperm.map (·.deleteCount.toNat)).sum_eq] at hdeleted hlength
  rw [(hperm.map (·.insertion.length)).sum_eq] at hlength
  omega

/-- **Edits are spliced in from the last to the first.** Edits in any order, put in order by where
they start, those that start at one place in the order that they had, can be applied just when each
ends inside the data and none starts before the end of the one before it. The result is the data with
the edits, in that order, spliced in one at a time from the last to the first; it is as much longer
than the data as the edits insert more than they delete. Otherwise the fault is that of the first
edit in order that cannot be made, and if this one both ends outside the data and starts too early,
it is that it ends outside. -/
theorem apply_eq_spliceAll (data : List UInt32) (edits : List TokensEdit) :
    IsStableSort (fun a b => decide (a.start ≤ b.start)) edits (sort edits) ∧
    (∀ result, apply data edits = .ok result ↔
      Fits data (sort edits) ∧ result = spliceAll data (sort edits)) ∧
    (Fits data (sort edits) →
      (edits.map (·.deleteCount.toNat)).sum ≤ data.length ∧
      (spliceAll data (sort edits)).length
        = data.length - (edits.map (·.deleteCount.toNat)).sum
          + (edits.map (·.insertion.length)).sum) ∧
    ∀ fault, apply data edits = .error fault ↔
      ∃ before e after, sort edits = before ++ e :: after ∧ Fits data before ∧
        Offends data before e ∧ fault = faultOf data e := by
  refine ⟨isStableSort_mergeSort start_le_trans start_le_total edits, fun result => ⟨?_, ?_⟩,
    length_spliceAll_sort, fun fault => ⟨?_, ?_⟩⟩
  · intro h
    rcases fits_or_offends data (sort edits) with hfits | ⟨before, e, after, hsort, hbefore, he⟩
    · exact ⟨hfits, Except.ok.inj (h.symm.trans (apply_of_fits hfits))⟩
    · rw [apply_of_offends hsort hbefore he] at h
      cases h
  · rintro ⟨hfits, rfl⟩
    exact apply_of_fits hfits
  · intro h
    rcases fits_or_offends data (sort edits) with hfits | ⟨before, e, after, hsort, hbefore, he⟩
    · rw [apply_of_fits hfits] at h
      cases h
    · refine ⟨before, e, after, hsort, hbefore, he, ?_⟩
      exact Except.error.inj (h.symm.trans (apply_of_offends hsort hbefore he))
  · rintro ⟨before, e, after, hsort, hbefore, he, rfl⟩
    exact apply_of_offends hsort hbefore he

/-- An insertion comes before the deletion that starts at its place and after it in the list of
edits, behind an edit that starts later; and it cannot come after that deletion. -/
theorem apply_spliceAll_same_start :
    let insertion : TokensEdit := ⟨1, 0, some [9]⟩
    let deletion : TokensEdit := ⟨1, 2, none⟩
    let last : TokensEdit := ⟨3, 1, some [7, 8]⟩
    Fits [10, 20, 30, 40] [insertion, deletion, last] ∧
    apply [10, 20, 30, 40] [last, insertion, deletion] = .ok [10, 9, 7, 8] ∧
    ([10, 9, 7, 8] : List UInt32).length = 4 - 3 + 3 ∧
    apply [10, 20, 30, 40] [last, deletion, insertion] = .error (.overlapping 1) := by
  intro insertion deletion last
  have hsort : sort [last, insertion, deletion] = [insertion, deletion, last] := by
    simp [sort, List.mergeSort, last, insertion, deletion]
  have hsort' : sort [last, deletion, insertion] = [deletion, insertion, last] := by
    simp [sort, List.mergeSort, last, insertion, deletion]
  have hfits : Fits [10, 20, 30, 40] [insertion, deletion, last] := by
    simp [Fits, InTurn, stop, last, insertion, deletion]
  have hbefore : Fits [10, 20, 30, 40] [deletion] := by simp [Fits, InTurn, stop, deletion]
  have hafter : Offends [10, 20, 30, 40] [deletion] insertion :=
    .inr ⟨deletion, rfl, by simp [stop, deletion, insertion]⟩
  obtain ⟨-, hok, hlength, -⟩ := apply_eq_spliceAll [10, 20, 30, 40] [last, insertion, deletion]
  obtain ⟨-, -, -, herror⟩ := apply_eq_spliceAll [10, 20, 30, 40] [last, deletion, insertion]
  rw [hsort] at hok hlength
  exact ⟨hfits, (hok _).2 ⟨hfits, rfl⟩, (hlength hfits).2,
    (herror _).2 ⟨[deletion], insertion, [last], hsort', hbefore, hafter, rfl⟩⟩

end LanguageServer.TokensEdit
