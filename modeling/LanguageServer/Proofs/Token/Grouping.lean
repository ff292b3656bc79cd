import LanguageServer.Proofs.Token.Splicing
import LanguageServer.Token.Script

set_option autoImplicit false

/-! # Steps gathered into edits

A script **leads** from one sequence to another when its steps, one after the other, cover both of
them and each does what its kind says (`Script.Leads`). Whatever the order of its deletions,
insertions and replacements, the edits gathered from such a script lead from the one sequence to the
other as well, and there is only one way to write them: each run of changes is one edit, and since a
kept piece is never empty there is something between any two of them (`Script.edits_of_leads`).

The loop is followed with the edit that it is gathering. Without one, the edits still to come turn
the old sequence from `i` on into the new one from `j` on; with one that has been gathered up to
`i`, they do so from where this edit starts, and what it inserts comes first. Both are said by
`Turns`, and both are kept by every step (`editsFrom_turns`). -/

namespace LanguageServer

/-! ## Scripts that lead from one sequence to another -/

/-- Whether a step starts at `i` in the old sequence and at `j` in the new one and does there what
its kind says. -/
def Step.StandsAt (old new : List UInt32) (i j : Nat) (s : Step) : Prop :=
  s.oldIndex = i ∧ s.newIndex = j ∧
    match s.kind with
    | .equal => 0 < s.oldLength ∧ s.newLength = s.oldLength ∧
        (old.drop i).take s.oldLength = (new.drop j).take s.newLength
    | .delete => 0 < s.oldLength ∧ s.newLength = 0
    | .insert => s.oldLength = 0 ∧ 0 < s.newLength
    | .replace => 0 < s.oldLength ∧ 0 < s.newLength

namespace Script

/-- Whether steps lead from places in two sequences to their ends. -/
def LeadsFrom (old new : List UInt32) : (i j : Nat) → List Step → Prop
  | i, j, [] => i = old.length ∧ j = new.length
  | i, j, s :: rest =>
    s.StandsAt old new i j ∧ LeadsFrom old new (i + s.oldLength) (j + s.newLength) rest

/-- Whether steps lead from one sequence to another. -/
def Leads (old new : List UInt32) (steps : List Step) : Prop := LeadsFrom old new 0 0 steps

theorem LeadsFrom.le_length {old new : List UInt32} {i j : Nat} {steps : List Step}
    (h : LeadsFrom old new i j steps) : i ≤ old.length ∧ j ≤ new.length := by
  induction steps generalizing i j with
  | nil => exact ⟨Nat.le_of_eq h.1, Nat.le_of_eq h.2⟩
  | cons s rest ih =>
      obtain ⟨hold, hnew⟩ := ih h.2
      exact ⟨by omega, by omega⟩

/-! ## Edits from a place on -/

/-- Whether edits stand behind a place one after the other, with something between any two. -/
def SpacedFrom : (place : Nat) → List TokensEdit → Prop
  | _, [] => True
  | place, e :: rest => place ≤ e.start.toNat ∧ SpacedFrom (e.stop + 1) rest

/-- Whether an edit changes something, and carries data just if it inserts some. -/
def Tidy (e : TokensEdit) : Prop :=
  (0 < e.deleteCount.toNat ∨ e.insertion ≠ []) ∧ (e.data = none ↔ e.insertion = [])

/-- Edits turn the old sequence from a place on into `result`, and are written in the one way. -/
structure Turns (old : List UInt32) (place : Nat) (edits : List TokensEdit)
    (result : List UInt32) : Prop where
  spaced : SpacedFrom place edits
  tidy : ∀ e ∈ edits, Tidy e
  applied : TokensEdit.applyFrom old place edits = .ok result

theorem SpacedFrom.mono {place place' : Nat} {edits : List TokensEdit}
    (h : SpacedFrom place edits) (hle : place' ≤ place) : SpacedFrom place' edits := by
  cases edits with
  | nil => trivial
  | cons e rest => exact ⟨Nat.le_trans hle h.1, h.2⟩

theorem SpacedFrom.pairwise {place : Nat} {edits : List TokensEdit}
    (h : SpacedFrom place edits) : (∀ e ∈ edits, place ≤ e.start.toNat) ∧
      edits.Pairwise fun a b => a.stop < b.start.toNat := by
  induction edits generalizing place with
  | nil => exact ⟨fun e he => absurd he List.not_mem_nil, .nil⟩
  | cons e rest ih =>
      obtain ⟨hplace, hrest⟩ := h
      obtain ⟨hbehind, hpairwise⟩ := ih hrest
      refine ⟨?_, List.pairwise_cons.2 ⟨hbehind, hpairwise⟩⟩
      intro a ha
      rcases List.mem_cons.1 ha with rfl | ha
      · exact hplace
      · have hstop := hbehind a ha
        have hstart := TokensEdit.start_le_stop e
        omega

/-- One round of applying edits. -/
theorem applyFrom_cons_eq_ok_iff {old result : List UInt32} {cursor : Nat} {e : TokensEdit}
    {rest : List TokensEdit} :
    TokensEdit.applyFrom old cursor (e :: rest) = .ok result ↔
      e.stop ≤ old.length ∧ cursor ≤ e.start.toNat ∧
      ∃ after, TokensEdit.applyFrom old e.stop rest = .ok after ∧
        result = (old.drop cursor).take (e.start.toNat - cursor) ++ e.insertion ++ after := by
  rw [TokensEdit.applyFrom]
  constructor
  · intro h
    split at h
    · cases h
    · next hstop =>
        split at h
        · cases h
        · next hstart =>
            cases hrest : TokensEdit.applyFrom old e.stop rest with
            | error fault => rw [hrest] at h; cases h
            | ok after =>
                rw [hrest] at h
                exact ⟨Nat.not_lt.1 hstop, Nat.not_lt.1 hstart, after, rfl,
                  (Except.ok.inj h).symm⟩
  · rintro ⟨hstop, hstart, after, hrest, rfl⟩
    rw [if_neg (Nat.not_lt.2 hstop), if_neg (Nat.not_lt.2 hstart), hrest]
    rfl

/-- What stands before the first edit is kept. -/
theorem applyFrom_keep {old result : List UInt32} {i n : Nat} {edits : List TokensEdit}
    (hspaced : SpacedFrom (i + n) edits)
    (happlied : TokensEdit.applyFrom old (i + n) edits = .ok result) :
    TokensEdit.applyFrom old i edits = .ok ((old.drop i).take n ++ result) := by
  cases edits with
  | nil =>
      rw [TokensEdit.applyFrom] at happlied ⊢
      obtain rfl := Except.ok.inj happlied
      rw [← List.drop_drop, List.take_append_drop]
  | cons e rest =>
      obtain ⟨hstart, -⟩ := hspaced
      obtain ⟨hstop, -, after, hrest, rfl⟩ := applyFrom_cons_eq_ok_iff.1 happlied
      refine applyFrom_cons_eq_ok_iff.2 ⟨hstop, by omega, after, hrest, ?_⟩
      -- up to the edit stand the `n` numbers and then what was kept before
      have hsplit : e.start.toNat - i = n + (e.start.toNat - (i + n)) := by omega
      rw [hsplit, List.take_add, List.drop_drop]
      simp only [List.append_assoc]

/-! ## The edit being gathered -/

/-- Whether an edit has been gathered up to a place and changes something. -/
def Pending.EndsAt (p : Pending) (i : Nat) : Prop :=
  p.start + p.deleteCount = i ∧ (0 < p.deleteCount ∨ p.data ≠ [])

section Finish

variable {old result : List UInt32} {p : Pending} {i : Nat}

theorem Pending.start_finish (hp : p.EndsAt i) (hi : i < 4294967296) :
    p.finish.start.toNat = p.start := by
  have hle : p.start ≤ i := by
    rw [← hp.1]
    exact Nat.le_add_right _ _
  exact UInt32.toNat_ofNat_of_lt' (Nat.lt_of_le_of_lt hle hi)

theorem Pending.deleteCount_finish (hp : p.EndsAt i) (hi : i < 4294967296) :
    p.finish.deleteCount.toNat = p.deleteCount := by
  have hle : p.deleteCount ≤ i := by
    rw [← hp.1]
    exact Nat.le_add_left _ _
  exact UInt32.toNat_ofNat_of_lt' (Nat.lt_of_le_of_lt hle hi)

theorem Pending.stop_finish (hp : p.EndsAt i) (hi : i < 4294967296) : p.finish.stop = i := by
  rw [TokensEdit.stop, start_finish hp hi, deleteCount_finish hp hi]
  exact hp.1

theorem Pending.tidy_finish (hp : p.EndsAt i) (hi : i < 4294967296) : Tidy p.finish := by
  refine ⟨?_, ?_⟩
  · rw [deleteCount_finish hp hi, insertion_finish]
    exact hp.2
  · rw [insertion_finish]
    unfold finish
    cases p.data with
    | nil => simp
    | cons x xs => simp

/-- The finished edit before edits that start behind its end. -/
theorem Turns.finish {edits : List TokensEdit} (hp : p.EndsAt i) (hi : i < 4294967296)
    (hlength : i ≤ old.length) (hspaced : SpacedFrom (i + 1) edits) (htidy : ∀ e ∈ edits, Tidy e)
    (happlied : TokensEdit.applyFrom old i edits = .ok result) :
    Turns old p.start (p.finish :: edits) (p.data ++ result) := by
  have hstart := Pending.start_finish hp hi
  have hstop := Pending.stop_finish hp hi
  refine ⟨⟨Nat.le_of_eq hstart.symm, by rwa [hstop]⟩, ?_, ?_⟩
  · intro e he
    rcases List.mem_cons.1 he with rfl | he
    · exact Pending.tidy_finish hp hi
    · exact htidy e he
  · refine applyFrom_cons_eq_ok_iff.2 ⟨by omega, by omega, result, by rwa [hstop], ?_⟩
    rw [hstart, Nat.sub_self, List.take_zero, List.nil_append, Pending.insertion_finish]

end Finish

/-! ## The loop -/

section Loop

variable {old new : List UInt32} {i j : Nat} {s : Step}

/-- A step that stands in its place is a kept piece or a change that deletes or inserts something.
-/
theorem stands_cases (h : s.StandsAt old new i j) :
    (s.kind = .equal ∧ 0 < s.oldLength ∧ s.newLength = s.oldLength ∧
      (old.drop i).take s.oldLength = (new.drop j).take s.newLength) ∨
    (s.kind ≠ .equal ∧ s.oldIndex = i ∧ s.newIndex = j ∧ (0 < s.oldLength ∨ 0 < s.newLength)) := by
  obtain ⟨hold, hnew, hdoes⟩ := h
  cases hkind : s.kind with
  | equal => exact .inl ⟨rfl, by rwa [hkind] at hdoes⟩
  | delete =>
      rw [hkind] at hdoes
      exact .inr ⟨by decide, hold, hnew, .inl hdoes.1⟩
  | insert =>
      rw [hkind] at hdoes
      exact .inr ⟨by decide, hold, hnew, .inr hdoes.2⟩
  | replace =>
      rw [hkind] at hdoes
      exact .inr ⟨by decide, hold, hnew, .inl hdoes.1⟩

/-- A change is added to an edit that has been gathered up to where it stands, or to an empty one
that starts there. -/
theorem Pending.add_endsAt (pending : Option Pending) {p : Pending}
    (hpending : pending.getD ⟨s.oldIndex, 0, []⟩ = p) (hp : p.start + p.deleteCount = i)
    (hnew : s.newIndex = j) (hchange : 0 < s.oldLength ∨ 0 < s.newLength)
    (hlength : j + s.newLength ≤ new.length) :
    (Pending.add new pending s).start = p.start ∧
    (Pending.add new pending s).data ++ new.drop (j + s.newLength) = p.data ++ new.drop j ∧
    (Pending.add new pending s).EndsAt (i + s.oldLength) := by
  subst hnew
  unfold Pending.add
  rw [hpending]
  dsimp only
  refine ⟨rfl, ?_, ?_, ?_⟩
  · rw [List.append_assoc, ← List.drop_drop, List.take_append_drop]
  · dsimp only
    omega
  · dsimp only
    rcases hchange with hdeletes | hinserts
    · exact .inl (by omega)
    · refine .inr ?_
      intro hempty
      have hnone := congrArg List.length (List.append_eq_nil_iff.1 hempty).2
      rw [List.length_take, List.length_drop, List.length_nil] at hnone
      omega

/-- **What every step of the loop keeps**, with and without an edit being gathered. -/
theorem editsFrom_turns (hsize : old.length < 4294967296) {steps : List Step}
    (h : LeadsFrom old new i j steps) :
    Turns old i (editsFrom new none steps) (new.drop j) ∧
    ∀ p : Pending, p.EndsAt i →
      Turns old p.start (editsFrom new (some p) steps) (p.data ++ new.drop j) := by
  induction steps generalizing i j with
  | nil =>
      obtain ⟨rfl, rfl⟩ := h
      have hrest : TokensEdit.applyFrom old old.length [] = .ok (new.drop new.length) := by
        rw [TokensEdit.applyFrom, List.drop_length, List.drop_length]
      refine ⟨⟨trivial, ?_, hrest⟩, ?_⟩
      · intro e he
        exact absurd he List.not_mem_nil
      · intro p hp
        exact Turns.finish hp hsize (Nat.le_refl _) trivial
          (fun e he => absurd he List.not_mem_nil) hrest
  | cons s rest ih =>
      obtain ⟨hs, hrest⟩ := h
      obtain ⟨hnone, hsome⟩ := ih hrest
      obtain ⟨hold, hnew⟩ := hrest.le_length
      rcases stands_cases hs with ⟨hkind, hpos, hlengths, hequal⟩ | ⟨hkind, rfl, hj, hchange⟩
      · -- a kept piece ends the edit being gathered, and nothing is gathered behind it
        have hkept : TokensEdit.applyFrom old i (editsFrom new none rest) = .ok (new.drop j) := by
          rw [applyFrom_keep hnone.spaced hnone.applied, hequal, ← List.drop_drop,
            List.take_append_drop]
        refine ⟨?_, ?_⟩
        · rw [editsFrom, if_pos hkind]
          exact ⟨hnone.spaced.mono (Nat.le_add_right _ _), hnone.tidy, hkept⟩
        · intro p hp
          rw [editsFrom, if_pos hkind]
          exact Turns.finish hp (by omega) (by omega) (hnone.spaced.mono (by omega)) hnone.tidy
            hkept
      · -- a change goes into the edit being gathered, or into one that starts with it
        refine ⟨?_, ?_⟩
        · obtain ⟨hstart, hdata, hends⟩ :=
            Pending.add_endsAt none rfl (Nat.add_zero _) hj hchange hnew
          have hturns := hsome _ hends
          rw [hdata, hstart] at hturns
          rw [editsFrom, if_neg hkind]
          exact hturns
        · intro p hp
          obtain ⟨hstart, hdata, hends⟩ :=
            Pending.add_endsAt (some p) rfl hp.1 hj hchange hnew
          have hturns := hsome _ hends
          rw [hdata, hstart] at hturns
          rw [editsFrom, if_neg hkind]
          exact hturns

end Loop

/-! ## The edits of a script -/

/-- **Edits gathered from a script are right and written in one way.** For every script that leads
from one sequence to another one, in which deletions, insertions and replacements may follow each
other in any order: the edits gathered from it start at increasing places, each ends before the next
one starts and at least one number lies between them, each of them changes something and carries
data just if it inserts some, there is one, and applied to the old sequence they give the new one.
-/
theorem edits_of_leads (old new : List UInt32) (steps : List Step)
    (hold : old.length < 4294967296) (hne : old ≠ new) (h : Leads old new steps) :
    (edits new steps).Pairwise (fun a b => a.start < b.start) ∧
    (edits new steps).Pairwise (fun a b => a.stop < b.start.toNat) ∧
    (∀ e ∈ edits new steps, 0 < e.deleteCount ∨ e.insertion ≠ []) ∧
    (∀ e ∈ edits new steps, e.data = none ↔ e.insertion = []) ∧
    edits new steps ≠ [] ∧
    TokensEdit.apply old (edits new steps) = .ok new := by
  obtain ⟨⟨hspaced, htidy, happlied⟩, -⟩ := editsFrom_turns hold h
  change SpacedFrom 0 (edits new steps) at hspaced
  change ∀ e ∈ edits new steps, Tidy e at htidy
  change TokensEdit.applyFrom old 0 (edits new steps) = .ok new at happlied
  obtain ⟨-, hapart⟩ := hspaced.pairwise
  have hstarts : (edits new steps).Pairwise fun a b => a.start < b.start := by
    refine hapart.imp ?_
    intro a b hab
    exact UInt32.lt_iff_toNat_lt.2 (Nat.lt_of_le_of_lt (TokensEdit.start_le_stop a) hab)
  refine ⟨hstarts, hapart, ?_, ?_, ?_, ?_⟩
  · intro e he
    exact (htidy e he).1
  · intro e he
    exact (htidy e he).2
  · intro hnone
    rw [hnone, TokensEdit.applyFrom, List.drop_zero] at happlied
    exact hne (Except.ok.inj happlied)
  · have hsorted : TokensEdit.sort (edits new steps) = edits new steps := by
      refine List.mergeSort_of_pairwise (hstarts.imp ?_)
      intro a b hab
      exact decide_eq_true (UInt32.le_of_lt hab)
    rw [TokensEdit.apply, hsorted, happlied]

/-- Two runs of changes around a kept pair of numbers: the first deletes, inserts and replaces, the
second only deletes. -/
theorem edits_of_mixed_run :
    let old : List UInt32 := [1, 2, 3, 4, 5]
    let new : List UInt32 := [7, 8, 3, 4]
    let steps : List Step := [⟨.delete, 0, 0, 1, 0⟩, ⟨.insert, 1, 0, 0, 1⟩, ⟨.replace, 1, 1, 1, 1⟩,
      ⟨.equal, 2, 2, 1, 1⟩, ⟨.equal, 3, 3, 1, 1⟩, ⟨.delete, 4, 4, 1, 0⟩]
    old.length < 4294967296 ∧ old ≠ new ∧ Leads old new steps ∧
    edits new steps = [⟨0, 2, some [7, 8]⟩, ⟨4, 1, none⟩] ∧
    TokensEdit.apply old [⟨0, 2, some [7, 8]⟩, ⟨4, 1, none⟩] = .ok new := by
  intro old new steps
  have hlength : old.length < 4294967296 := by decide
  have hne : old ≠ new := by decide
  have hleads : Leads old new steps := by
    simp [Leads, LeadsFrom, Step.StandsAt, steps, old, new]
  have hedits : edits new steps = [⟨0, 2, some [7, 8]⟩, ⟨4, 1, none⟩] := by decide
  obtain ⟨-, -, -, -, -, happly⟩ := edits_of_leads old new steps hlength hne hleads
  rw [hedits] at happly
  exact ⟨hlength, hne, hleads, hedits, happly⟩

end Script

end LanguageServer
