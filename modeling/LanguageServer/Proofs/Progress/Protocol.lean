import LanguageServer.Proofs.Table
import LanguageServer.Server.Connection
import Mathlib.Computability.Language

set_option autoImplicit false

/-! # The protocol of progress reports

The tracker is worked on by three kinds of call and refuses those that do not fit. Whether a call
fits is decided by the phase of its stream, and that phase is a fold over the accepted calls on the
stream's own key (`phase?_run`). So the tracker can be replaced by the history of what it accepted:
a stream is announced if it was created and neither given up nor begun since, and it runs if it was
begun and has not ended since (`phase?_eq_iff`). The reports let through on one key spell whole
streams, up to one that has not ended (`reports_mem`). -/

namespace LanguageServer

open Computability

/-! ## Calls -/

/-- The kinds of report on a stream. -/
inductive ReportKind where
  | begin
  | report
  | finish
deriving DecidableEq, Repr, Inhabited

def WorkDoneProgress.kind : WorkDoneProgress → ReportKind
  | .begin _ => .begin
  | .report _ => .report
  | .finish _ => .finish

namespace ProgressAction

/-- The key of the stream that the call is about. -/
def token : ProgressAction → ProgressToken
  | .create token | .discard token | .advance token _ => token

/-- The kind of report, if the call is one on this stream. -/
def report? (token : ProgressToken) : ProgressAction → Option ReportKind
  | .advance other value => if other = token then some value.kind else none
  | .create _ | .discard _ => none

/-- Why a call is refused at a phase of its stream, if it is. -/
def refusal? (phase : Option ProgressPhase) : ProgressAction → Option ProgressFault
  | .create token => phase.map fun _ => .duplicateToken token
  | .discard _ => none
  | .advance token (.begin _) => if phase = some .begun then some (.alreadyBegun token) else none
  | .advance token (.report _) | .advance token (.finish _) =>
    if phase = some .begun then none else some (.notBegun token)

/-- The phase of a stream after an accepted call. -/
def next (token : ProgressToken) (phase : Option ProgressPhase) (call : ProgressAction) :
    Option ProgressPhase :=
  if call.token = token then
    match call with
    | .create _ => some .created
    | .discard _ => if phase = some .created then none else phase
    | .advance _ (.begin _) => some .begun
    | .advance _ (.report _) => phase
    | .advance _ (.finish _) => none
  else phase

section Refusal

variable {token : ProgressToken} {phase : Option ProgressPhase}

theorem refusal?_create_eq_none_iff : (create token).refusal? phase = none ↔ phase = none :=
  Option.map_eq_none_iff

theorem refusal?_begin_eq_none_iff {value : ProgressBegin} :
    (advance token (.begin value)).refusal? phase = none ↔ phase ≠ some .begun := by
  simp [refusal?]

theorem refusal?_report_eq_none_iff {value : ProgressReport} :
    (advance token (.report value)).refusal? phase = none ↔ phase = some .begun := by
  simp [refusal?]

theorem refusal?_finish_eq_none_iff {value : ProgressEnd} :
    (advance token (.finish value)).refusal? phase = none ↔ phase = some .begun := by
  simp [refusal?]

end Refusal

theorem next_of_ne {token : ProgressToken} {call : ProgressAction} (h : call.token ≠ token)
    (phase : Option ProgressPhase) : call.next token phase = phase := if_neg h

end ProgressAction

namespace ProgressTracker

def perform (t : ProgressTracker) : ProgressAction → Except ProgressFault ProgressTracker
  | .create token => t.create token
  | .discard token => .ok (t.discard token)
  | .advance token value => t.advance token value

/-- The tracker after calls; one that is refused changes nothing. -/
def run (t : ProgressTracker) : List ProgressAction → ProgressTracker
  | [] => t
  | call :: rest =>
    match t.perform call with
    | .ok t' => t'.run rest
    | .error _ => t.run rest

/-- The calls that are accepted. -/
def accepted (t : ProgressTracker) : List ProgressAction → List ProgressAction
  | [] => []
  | call :: rest =>
    match t.perform call with
    | .ok t' => call :: t'.accepted rest
    | .error _ => t.accepted rest

/-! ## One call -/

section OneCall

variable {t t' : ProgressTracker} {call : ProgressAction}

theorem phase?_erase (t : ProgressTracker) (token other : ProgressToken) :
    (t.erase token).phase? other = if other = token then none else t.phase? other :=
  lookup_filter_ne t.phases token other

theorem phase?_set (t : ProgressTracker) (token : ProgressToken) (phase : ProgressPhase)
    (other : ProgressToken) :
    (t.set token phase).phase? other = if other = token then some phase else t.phase? other := by
  have hset := lookup_concat (t.erase token).phases token phase other
  have herase := phase?_erase t token other
  unfold phase? at herase ⊢
  rw [set, hset, herase]
  by_cases hother : other = token
  · simp [hother]
  · simp [hother]

/-- A call is refused because of the phase of its stream and nothing else. -/
theorem perform_eq_error_iff {fault : ProgressFault} :
    t.perform call = .error fault ↔ call.refusal? (t.phase? call.token) = some fault := by
  cases call with
  | create token =>
      simp only [perform, create, ProgressAction.refusal?, ProgressAction.token]
      cases t.phase? token with
      | none => simp
      | some phase => simp
  | discard token => simp [perform, ProgressAction.refusal?]
  | advance token value =>
      simp only [perform, ProgressAction.token]
      cases value with
      | begin value =>
          simp only [ProgressAction.refusal?]
          cases hphase : t.phase? token with
          | none => simp [advance, hphase]
          | some phase => cases phase with | _ => simp [advance, hphase]
      | report value =>
          simp only [ProgressAction.refusal?]
          cases hphase : t.phase? token with
          | none => simp [advance, hphase]
          | some phase => cases phase with | _ => simp [advance, hphase]
      | finish value =>
          simp only [ProgressAction.refusal?]
          cases hphase : t.phase? token with
          | none => simp [advance, hphase]
          | some phase => cases phase with | _ => simp [advance, hphase]

/-- The accepted calls, with what each makes of the tracker. -/
inductive Accepts (t : ProgressTracker) : ProgressAction → ProgressTracker → Prop where
  | created (token : ProgressToken) (hphase : t.phase? token = none) :
      Accepts t (.create token) (t.set token .created)
  | discarded (token : ProgressToken) (hphase : t.phase? token = some .created) :
      Accepts t (.discard token) (t.erase token)
  | kept (token : ProgressToken) (hphase : t.phase? token ≠ some .created) :
      Accepts t (.discard token) t
  | begun (token : ProgressToken) (value : ProgressBegin) (hphase : t.phase? token ≠ some .begun) :
      Accepts t (.advance token (.begin value)) (t.set token .begun)
  | reported (token : ProgressToken) (value : ProgressReport)
      (hphase : t.phase? token = some .begun) :
      Accepts t (.advance token (.report value)) t
  | finished (token : ProgressToken) (value : ProgressEnd) (hphase : t.phase? token = some .begun) :
      Accepts t (.advance token (.finish value)) (t.erase token)

theorem accepts_of_perform (h : t.perform call = .ok t') : t.Accepts call t' := by
  cases call with
  | create token =>
      simp only [perform, create] at h
      cases hphase : t.phase? token with
      | none =>
          simp only [hphase, Except.ok.injEq] at h
          exact h ▸ .created token hphase
      | some phase => simp [hphase] at h
  | discard token =>
      simp only [perform, discard, Except.ok.injEq] at h
      split at h
      · next hphase => exact h ▸ .discarded token hphase
      · next hphase => exact h ▸ .kept token hphase
  | advance token value =>
      simp only [perform] at h
      unfold advance at h
      split at h
      · next hphase =>
          cases h
          exact .begun token _ (by simp [hphase])
      · next hphase =>
          cases h
          exact .begun token _ (by simp [hphase])
      · cases h
      · next hphase =>
          cases h
          exact .reported token _ hphase
      · next hphase =>
          cases h
          exact .finished token _ hphase
      · cases h
      · cases h
      · cases h
      · cases h

/-- An accepted call changes the phase of each stream by its rule. -/
theorem phase?_perform (h : t.perform call = .ok t') (token : ProgressToken) :
    t'.phase? token = call.next token (t.phase? token) := by
  by_cases htoken : call.token = token
  · subst htoken
    cases accepts_of_perform h with
    | created token => simp [ProgressAction.next, ProgressAction.token, phase?_set]
    | discarded token hphase =>
        simp [ProgressAction.next, ProgressAction.token, phase?_erase, hphase]
    | kept token hphase => simp [ProgressAction.next, ProgressAction.token, hphase]
    | begun token value => simp [ProgressAction.next, ProgressAction.token, phase?_set]
    | reported token value => simp [ProgressAction.next, ProgressAction.token]
    | finished token value => simp [ProgressAction.next, ProgressAction.token, phase?_erase]
  · have hother : token ≠ call.token := Ne.symm htoken
    rw [ProgressAction.next_of_ne htoken]
    cases accepts_of_perform h with
    | created | begun => exact (phase?_set ..).trans (if_neg hother)
    | discarded | finished => exact (phase?_erase ..).trans (if_neg hother)
    | kept | reported => rfl

theorem nodup_perform (hnodup : (t.phases.map Prod.fst).Nodup) (h : t.perform call = .ok t') :
    (t'.phases.map Prod.fst).Nodup := by
  have herase (token : ProgressToken) : ((t.erase token).phases.map Prod.fst).Nodup :=
    hnodup.sublist (List.filter_sublist.map _)
  have hset (token : ProgressToken) (phase : ProgressPhase) :
      ((t.set token phase).phases.map Prod.fst).Nodup := by
    rw [set, List.map_append, List.nodup_append]
    refine ⟨herase token, List.pairwise_singleton _ _, fun key hkey other hother => ?_⟩
    obtain rfl : other = token := List.mem_singleton.1 hother
    rintro rfl
    refine mem_keys_iff.1 hkey ?_
    have hgone := phase?_erase t key key
    rwa [if_pos rfl] at hgone
  cases accepts_of_perform h with
  | created token | begun token => exact hset token _
  | discarded token | finished token => exact herase token
  | kept | reported => exact hnodup

end OneCall

/-! ## Runs -/

variable (t : ProgressTracker) (calls : List ProgressAction)

theorem run_concat (call : ProgressAction) :
    t.run (calls ++ [call]) =
      match (t.run calls).perform call with
      | .ok t' => t'
      | .error _ => t.run calls := by
  induction calls generalizing t with
  | nil => rfl
  | cons first rest ih =>
      rw [List.cons_append, run, run]
      cases t.perform first with
      | ok t' => exact ih t'
      | error fault => exact ih t

theorem accepted_concat (call : ProgressAction) :
    t.accepted (calls ++ [call]) =
      match (t.run calls).perform call with
      | .ok _ => t.accepted calls ++ [call]
      | .error _ => t.accepted calls := by
  induction calls generalizing t with
  | nil => rfl
  | cons first rest ih =>
      rw [List.cons_append, accepted, accepted, run]
      cases t.perform first with
      | ok t' =>
          dsimp only
          rw [ih]
          cases (t'.run rest).perform call with
          | ok _ => rfl
          | error _ => rfl
      | error fault => exact ih t

/-- **The phase of a stream is a fold over the accepted calls.** -/
theorem phase?_run (token : ProgressToken) :
    (t.run calls).phase? token =
      (t.accepted calls).foldl (fun phase call => call.next token phase) (t.phase? token) := by
  induction calls generalizing t with
  | nil => rfl
  | cons call rest ih =>
      rw [run, accepted]
      cases hperform : t.perform call with
      | ok t' => exact (ih t').trans (by rw [phase?_perform hperform]; rfl)
      | error fault => exact ih t

theorem nodup_run (h : (t.phases.map Prod.fst).Nodup) :
    ((t.run calls).phases.map Prod.fst).Nodup := by
  induction calls generalizing t with
  | nil => exact h
  | cons call rest ih =>
      rw [run]
      cases hperform : t.perform call with
      | ok t' => exact ih t' (nodup_perform h hperform)
      | error fault => exact ih t h

end ProgressTracker

/-! ## Histories -/

/-- Something started once, and nothing has stopped it since. -/
def Since {α : Type} (start stop : α → Prop) (history : List α) : Prop :=
  ∃ before a after, history = before ++ a :: after ∧ start a ∧ ∀ b ∈ after, ¬ stop b

theorem since_nil {α : Type} (start stop : α → Prop) : ¬ Since start stop [] := by
  rintro ⟨before, a, after, hnil, -⟩
  simp at hnil

theorem since_concat {α : Type} (start stop : α → Prop) (history : List α) (a : α) :
    Since start stop (history ++ [a]) ↔ start a ∨ Since start stop history ∧ ¬ stop a := by
  constructor
  · rintro ⟨before, first, after, hsplit, hstart, hstop⟩
    -- What started is the last thing, or the last thing is among what came after.
    rcases List.eq_nil_or_concat after with rfl | ⟨between, last, rfl⟩
    · obtain ⟨-, hlast⟩ := List.append_inj' hsplit rfl
      cases hlast
      exact .inl hstart
    · rw [List.concat_eq_append] at hsplit hstop
      rw [← List.cons_append, ← List.append_assoc] at hsplit
      obtain ⟨rfl, hlast⟩ := List.append_inj' hsplit rfl
      cases hlast
      refine .inr ⟨⟨before, first, between, rfl, hstart, fun b hb => ?_⟩, ?_⟩
      · exact hstop b (List.mem_append_left _ hb)
      · exact hstop a (List.mem_append_right _ List.mem_cons_self)
  · rintro (hstart | ⟨⟨before, first, after, rfl, hstart, hstop⟩, hlast⟩)
    · exact ⟨history, a, [], rfl, hstart, fun b hb => by cases hb⟩
    · refine ⟨before, first, after ++ [a], by simp, hstart, fun b hb => ?_⟩
      rcases List.mem_append.1 hb with hb | hb
      · exact hstop b hb
      · rwa [List.mem_singleton.1 hb]

/-- The stream has been created, and neither given up nor begun since. -/
def IsAnnounced (token : ProgressToken) : List ProgressAction → Prop :=
  Since (fun a => a = .create token)
    (fun a => a = .discard token ∨ a.report? token = some .begin)

/-- The stream has begun and has not ended since. -/
def IsRunning (token : ProgressToken) : List ProgressAction → Prop :=
  Since (fun a => a.report? token = some .begin) (fun a => a.report? token = some .finish)

/-- The kinds of the reports on a stream. -/
def reports (token : ProgressToken) (history : List ProgressAction) : List ReportKind :=
  history.filterMap (ProgressAction.report? token)

/-- One whole stream of reports. -/
def wholeStream : Language ReportKind := {[.begin]} * {[.report]}∗ * {[.finish]}

namespace ProgressAction

variable {token : ProgressToken} {call : ProgressAction} {phase : Option ProgressPhase}

theorem report?_of_ne (h : call.token ≠ token) : call.report? token = none := by
  cases call with
  | create other => rfl
  | discard other => rfl
  | advance other value => exact if_neg h

/-- After a call that was not refused, a stream is announced or runs because of that call, or as it
was before. -/
theorem next_eq_iff (h : call.token = token → call.refusal? phase = none) :
    (call.next token phase = some .created ↔ call = .create token ∨
      phase = some .created ∧ ¬ (call = .discard token ∨ call.report? token = some .begin)) ∧
    (call.next token phase = some .begun ↔ call.report? token = some .begin ∨
      phase = some .begun ∧ ¬ call.report? token = some .finish) := by
  by_cases htoken : call.token = token
  · subst htoken
    have hfits := h rfl
    cases call with
    | create token =>
        have hphase := refusal?_create_eq_none_iff.1 hfits
        simp [next, ProgressAction.token, report?, hphase]
    | discard token =>
        by_cases hphase : phase = some .created
        · simp [next, ProgressAction.token, report?, hphase]
        · simp [next, ProgressAction.token, report?, hphase]
    | advance token value =>
        cases value with
        | begin value =>
            have hphase := refusal?_begin_eq_none_iff.1 hfits
            simp [next, ProgressAction.token, report?, WorkDoneProgress.kind]
        | report value =>
            have hphase := refusal?_report_eq_none_iff.1 hfits
            simp [next, ProgressAction.token, report?, WorkDoneProgress.kind, hphase]
        | finish value =>
            have hphase := refusal?_finish_eq_none_iff.1 hfits
            simp [next, ProgressAction.token, report?, WorkDoneProgress.kind, hphase]
  · have hcreate : call ≠ .create token := by
      rintro rfl
      exact htoken rfl
    have hdiscard : call ≠ .discard token := by
      rintro rfl
      exact htoken rfl
    rw [next_of_ne htoken, report?_of_ne htoken]
    simp [hcreate, hdiscard]

/-- What has been let through on a stream at a phase: whole streams, and the first part of another
if one runs. -/
def spelled : Option ProgressPhase → Language ReportKind
  | some .begun => wholeStream∗ * ({[.begin]} * {[.report]}∗)
  | some .created | none => wholeStream∗

theorem spelled_of_ne (h : phase ≠ some .begun) : spelled phase = wholeStream∗ := by
  unfold spelled
  split
  · exact absurd rfl h
  · rfl
  · rfl

section Words

variable {word : List ReportKind}

/-- Whole streams are followed by one that begins. -/
theorem spelled_begin (h : word ∈ wholeStream∗) : word ++ [.begin] ∈ spelled (some .begun) := by
  have hle : wholeStream∗ * {[.begin]} ≤ spelled (some .begun) :=
    mul_le_mul_right (le_mul_of_one_le_right' one_le_kstar) _
  exact hle (Language.append_mem_mul h rfl)

/-- A stream that runs goes on with a report. -/
theorem spelled_report (h : word ∈ spelled (some .begun)) :
    word ++ [.report] ∈ spelled (some .begun) := by
  have hle : spelled (some .begun) * {[.report]} ≤ spelled (some .begun) := by
    rw [spelled, mul_assoc, mul_assoc]
    exact mul_le_mul_right (mul_le_mul_right kstar_mul_le_kstar _) _
  exact hle (Language.append_mem_mul h rfl)

/-- A stream that runs becomes whole with its end. -/
theorem spelled_finish (h : word ∈ spelled (some .begun)) : word ++ [.finish] ∈ wholeStream∗ := by
  have hle : spelled (some .begun) * {[.finish]} ≤ wholeStream∗ := by
    rw [spelled, mul_assoc]
    exact kstar_mul_le_kstar
  exact hle (Language.append_mem_mul h rfl)

end Words

theorem exists_whole_of_spelled {word : List ReportKind} (h : word ∈ spelled phase) :
    ∃ whole ∈ wholeStream∗, word <+: whole := by
  by_cases hphase : phase = some .begun
  · rw [hphase] at h
    exact ⟨word ++ [.finish], spelled_finish h, List.prefix_append _ _⟩
  · rw [spelled_of_ne hphase] at h
    exact ⟨word, h, List.prefix_rfl⟩

theorem spelled_next (h : call.token = token → call.refusal? phase = none) {word : List ReportKind}
    (hword : word ∈ spelled phase) :
    word ++ (call.report? token).toList ∈ spelled (call.next token phase) := by
  by_cases htoken : call.token = token
  · subst htoken
    have hfits := h rfl
    cases call with
    | create token =>
        have hphase := refusal?_create_eq_none_iff.1 hfits
        simpa [next, ProgressAction.token, report?, spelled, hphase] using hword
    | discard token =>
        by_cases hphase : phase = some .created
        · simpa [next, ProgressAction.token, report?, spelled, hphase] using hword
        · simpa [next, ProgressAction.token, report?, hphase] using hword
    | advance token value =>
        cases value with
        | begin value =>
            have hphase := refusal?_begin_eq_none_iff.1 hfits
            rw [spelled_of_ne hphase] at hword
            simpa [next, ProgressAction.token, report?, WorkDoneProgress.kind] using
              spelled_begin hword
        | report value =>
            have hphase := refusal?_report_eq_none_iff.1 hfits
            rw [hphase] at hword
            simpa [next, ProgressAction.token, report?, WorkDoneProgress.kind, hphase] using
              spelled_report hword
        | finish value =>
            have hphase := refusal?_finish_eq_none_iff.1 hfits
            rw [hphase] at hword
            simpa [next, ProgressAction.token, report?, WorkDoneProgress.kind, spelled] using
              spelled_finish hword
  · rw [next_of_ne htoken, report?_of_ne htoken]
    simpa using hword

end ProgressAction

namespace ProgressTracker

/-! ## The tracker and the history of what it accepted -/

theorem isOk_perform_iff {t : ProgressTracker} {call : ProgressAction} :
    (t.perform call).isOk = true ↔ call.refusal? (t.phase? call.token) = none := by
  cases hperform : t.perform call with
  | ok t' =>
      cases hrefusal : call.refusal? (t.phase? call.token) with
      | none => exact iff_of_true rfl rfl
      | some fault =>
          rw [perform_eq_error_iff.2 hrefusal] at hperform
          cases hperform
  | error fault =>
      rw [perform_eq_error_iff.1 hperform]
      simp [Except.isOk, Except.toBool]

theorem refusal?_of_perform {t t' : ProgressTracker} {call : ProgressAction}
    (h : t.perform call = .ok t') (token : ProgressToken) (htoken : call.token = token) :
    call.refusal? (t.phase? token) = none := by
  subst htoken
  exact isOk_perform_iff.1 (by rw [h]; rfl)

section History

variable (calls : List ProgressAction) (token : ProgressToken)

/-- **A phase says how the history goes on.** -/
theorem phase?_eq_iff :
    ((empty.run calls).phase? token = some .created ↔ IsAnnounced token (empty.accepted calls)) ∧
    ((empty.run calls).phase? token = some .begun ↔ IsRunning token (empty.accepted calls)) := by
  induction calls using List.reverseRecOn with
  | nil =>
      have hnone : (empty.run []).phase? token = none := rfl
      rw [hnone]
      exact ⟨iff_of_false (by simp) (since_nil _ _), iff_of_false (by simp) (since_nil _ _)⟩
  | append_singleton calls call ih =>
      rw [run_concat, accepted_concat]
      cases hperform : (empty.run calls).perform call with
      | error fault => exact ih
      | ok t' =>
          dsimp only
          rw [phase?_perform hperform, IsAnnounced, IsRunning, since_concat, since_concat]
          rw [IsAnnounced, IsRunning] at ih
          rw [← ih.1, ← ih.2]
          exact ProgressAction.next_eq_iff (refusal?_of_perform hperform token)

/-- **What has been let through on a stream fits its phase.** -/
theorem reports_mem :
    reports token (empty.accepted calls) ∈
      ProgressAction.spelled ((empty.run calls).phase? token) := by
  induction calls using List.reverseRecOn with
  | nil => exact Language.nil_mem_kstar _
  | append_singleton calls call ih =>
      rw [run_concat, accepted_concat]
      cases hperform : (empty.run calls).perform call with
      | error fault => exact ih
      | ok t' =>
          have hreports : reports token (empty.accepted calls ++ [call]) =
              reports token (empty.accepted calls) ++ (call.report? token).toList := by
            rw [reports, List.filterMap_append]
            cases hreport : call.report? token with
            | none => simp [reports, hreport]
            | some kind => simp [reports, hreport]
          dsimp only
          rw [phase?_perform hperform, hreports]
          exact ProgressAction.spelled_next (refusal?_of_perform hperform token) ih

/-- The phase of a stream depends on the accepted calls on its own key only. -/
theorem phase?_run_filter :
    (empty.run calls).phase? token =
      ((empty.accepted calls).filter fun call => call.token = token).foldl
        (fun phase call => call.next token phase) none := by
  have hfilter (history : List ProgressAction) (phase : Option ProgressPhase) :
      history.foldl (fun phase call => call.next token phase) phase =
        (history.filter fun call => call.token = token).foldl
          (fun phase call => call.next token phase) phase := by
    induction history generalizing phase with
    | nil => rfl
    | cons call rest ih =>
        by_cases htoken : call.token = token
        · rw [List.filter_cons_of_pos (by simpa using htoken)]
          exact ih _
        · rw [List.filter_cons_of_neg (by simpa using htoken), List.foldl_cons,
            ProgressAction.next_of_ne htoken]
          exact ih _
  rw [phase?_run, hfilter]
  rfl

end History

/-- A handler's call does to the tracker of its connection what it does to a tracker. -/
theorem noteProgress_eq (c : Connection) (call : ProgressAction) :
    c.noteProgress call =
      match c.progress.perform call with
      | .ok t => (none, { c with progress := t })
      | .error fault => (some fault, c) := by
  cases call with
  | _ => rfl

/-- **The tracker accepts exactly the protocol.** Whatever calls are made on however many keys:
whether a call is refused, and why, depends on the accepted calls on its own key only. The reports
let through on a key are the first part of whole streams, each a begin, any number of reports and an
end. A stream can be created unless it is announced or runs, it can begin unless it runs, and it can
be reported on and ended only while it runs. A refused call leaves everything as it was, and so does
giving up a stream that is not announced. The keys held are those of the streams that are announced
or run, each once. -/
theorem run_protocol (calls : List ProgressAction) :
    let t := empty.run calls
    let history := empty.accepted calls
    (∀ others token,
      (empty.accepted others).filter (fun call => call.token = token) =
        history.filter (fun call => call.token = token) →
      ∀ call, call.token = token → ∀ fault,
        (empty.run others).perform call = .error fault ↔ t.perform call = .error fault) ∧
    (∀ token, ∃ word ∈ wholeStream∗, reports token history <+: word) ∧
    (∀ token, (t.create token).isOk = true ↔
      ¬ IsAnnounced token history ∧ ¬ IsRunning token history) ∧
    (∀ token value, (t.advance token (.begin value)).isOk = true ↔ ¬ IsRunning token history) ∧
    (∀ token value, (t.advance token (.report value)).isOk = true ↔ IsRunning token history) ∧
    (∀ token value, (t.advance token (.finish value)).isOk = true ↔ IsRunning token history) ∧
    (∀ c : Connection, c.progress = t → ∀ call fault, t.perform call = .error fault →
      c.noteProgress call = (some fault, c)) ∧
    (∀ token, ¬ IsAnnounced token history → t.discard token = t) ∧
    (∀ token, token ∈ t.phases.map Prod.fst ↔
      IsAnnounced token history ∨ IsRunning token history) ∧
    (t.phases.map Prod.fst).Nodup := by
  intro t history
  have hannounced (token : ProgressToken) := (phase?_eq_iff calls token).1
  have hrunning (token : ProgressToken) := (phase?_eq_iff calls token).2
  have hheld (token : ProgressToken) :
      t.phase? token ≠ none ↔ IsAnnounced token history ∨ IsRunning token history := by
    rw [← hannounced, ← hrunning]
    change t.phase? token ≠ none ↔ t.phase? token = some .created ∨ t.phase? token = some .begun
    cases t.phase? token with
    | none => simp
    | some phase => cases phase with | _ => simp
  refine ⟨?_, ?_, ?_, ?_, ?_, ?_, ?_, ?_, ?_, nodup_run empty calls List.nodup_nil⟩
  · intro others token hsame call htoken fault
    have hphase : (empty.run others).phase? token = t.phase? token := by
      rw [phase?_run_filter, phase?_run_filter, hsame]
    rw [perform_eq_error_iff, perform_eq_error_iff, htoken, hphase]
  · intro token
    exact ProgressAction.exists_whole_of_spelled (reports_mem calls token)
  · intro token
    have hok : (t.perform (.create token)).isOk = true ↔ t.phase? token = none :=
      isOk_perform_iff.trans ProgressAction.refusal?_create_eq_none_iff
    rw [← not_or, ← hheld, not_not]
    exact hok
  · intro token value
    have hok : (t.perform (.advance token (.begin value))).isOk = true ↔ _ :=
      isOk_perform_iff.trans ProgressAction.refusal?_begin_eq_none_iff
    exact hok.trans (not_congr (hrunning token))
  · intro token value
    have hok : (t.perform (.advance token (.report value))).isOk = true ↔ _ :=
      isOk_perform_iff.trans ProgressAction.refusal?_report_eq_none_iff
    exact hok.trans (hrunning token)
  · intro token value
    have hok : (t.perform (.advance token (.finish value))).isOk = true ↔ _ :=
      isOk_perform_iff.trans ProgressAction.refusal?_finish_eq_none_iff
    exact hok.trans (hrunning token)
  · intro c hc call fault hrefused
    rw [noteProgress_eq, hc, hrefused]
  · intro token hnot
    rw [discard, if_neg fun hphase => hnot ((hannounced token).1 hphase)]
  · intro token
    rw [mem_keys_iff]
    exact hheld token

/-- Calls on a text and a number that look alike, two of them refused. -/
def tangledCalls : List ProgressAction :=
  let say (value : WorkDoneProgress) : ProgressAction := .advance (.text "7") value
  [.create (.text "7"), .create (.number 7), say (.begin default),
    .advance (.number 7) (.report default), .create (.text "7"), .discard (.number 7),
    say (.report default), .discard (.text "7"), say (.finish default), say (.begin default)]

/-- The two keys are never taken for each other. -/
theorem tangledCalls_protocol :
    let t := empty.run tangledCalls
    let history := empty.accepted tangledCalls
    let others : List ProgressAction := [.create (.number 7), .discard (.number 7)]
    let c : Connection := { Connection.fresh with progress := t }
    history.length = 8 ∧
    (t.advance (.text "7") (.report default)).isOk = true ∧ IsRunning (.text "7") history ∧
    c.noteProgress (.create (.text "7")) = (some (.duplicateToken (.text "7")), c) ∧
    ¬ IsAnnounced (.number 7) history ∧ t.discard (.number 7) = t ∧
    ∀ call, call.token = .number 7 → ∀ fault,
      (empty.run others).perform call = .error fault ↔ t.perform call = .error fault := by
  intro t history others c
  obtain ⟨hown, -, -, -, hreport, -, hfail, hdiscard, hheld, -⟩ := run_protocol tangledCalls
  have hrunning : (t.advance (.text "7") (.report default)).isOk = true := by decide
  have hquiet : ¬ IsAnnounced (.number 7) history := fun hannounced =>
    absurd ((hheld (.number 7)).2 (.inl hannounced)) (by decide)
  exact ⟨by decide, hrunning, (hreport (.text "7") default).1 hrunning,
    hfail c rfl (.create (.text "7")) _ (by decide), hquiet, hdiscard (.number 7) hquiet,
    hown others (.number 7) (by decide)⟩

end ProgressTracker

end LanguageServer
