import LanguageServer.Document.Store
import LanguageServer.Proofs.Table

set_option autoImplicit false

/-! # The lives of documents

A store of documents is worked on by four calls, any of which it may refuse. What it holds at an
address depends only on the calls on that address that it accepted: each of them makes one document
of another by a fixed rule (`StoreCall.next`), and a whole run is a fold over them (`get?_run`). The
life of a document lasts from a call that opens it to the next that closes it, and in between its
versions only grow. -/

namespace LanguageServer

/-! ## Runs -/

/-- A call on a store of documents. -/
inductive StoreCall where
  | didOpen (p : DidOpenParams)
  | didChange (p : DidChangeParams) (e : PositionEncoding)
  | didSave (p : DidSaveParams)
  | didClose (uri : String)
deriving DecidableEq, Repr, Inhabited

namespace StoreCall

/-- The address that the call is about. -/
def uri : StoreCall → String
  | .didOpen p => p.textDocument.uri
  | .didChange p _ => p.textDocument.uri
  | .didSave p => p.textDocument.uri
  | .didClose uri => uri

def opens (uri : String) : StoreCall → Bool
  | .didOpen p => p.textDocument.uri = uri
  | _ => false

def closes (uri : String) : StoreCall → Bool
  | .didClose other => other = uri
  | _ => false

/-- The version that a change brings for an address. -/
def version? (uri : String) : StoreCall → Option Int32
  | .didChange p _ => if p.textDocument.uri = uri then some p.textDocument.version else none
  | _ => none

/-- What an accepted call makes of the text at an address. -/
def edit (uri text : String) : StoreCall → String
  | .didChange p e =>
    if p.textDocument.uri = uri then p.contentChanges.foldl (ContentChange.apply e) text else text
  | .didSave p => if p.textDocument.uri = uri then p.text.getD text else text
  | _ => text

/-- What an accepted call makes of what is at an address. -/
def next (uri : String) (found : Option TextDocument) (call : StoreCall) : Option TextDocument :=
  if call.uri = uri then
    match call with
    | .didOpen p => some (.ofItem p.textDocument)
    | .didChange p _ => found.map fun d =>
        { d with version := p.textDocument.version, text := call.edit uri d.text }
    | .didSave _ => found.map fun d => { d with text := call.edit uri d.text }
    | .didClose _ => none
  else found

theorem next_of_ne {uri : String} {call : StoreCall} (h : call.uri ≠ uri)
    (found : Option TextDocument) : call.next uri found = found := if_neg h

end StoreCall

/-- The versions that changes bring for an address. -/
def versionsOf (uri : String) (calls : List StoreCall) : List Int32 :=
  calls.filterMap (StoreCall.version? uri)

namespace DocumentStore

def perform (s : DocumentStore) : StoreCall → Except SyncFault DocumentStore
  | .didOpen p => s.didOpen p
  | .didChange p e => s.didChange p e
  | .didSave p => s.didSave p
  | .didClose uri => s.didClose uri

/-- The store after a call; one that is refused changes nothing. -/
def step (s : DocumentStore) (call : StoreCall) : DocumentStore :=
  match s.perform call with
  | .ok s' => s'
  | .error _ => s

/-- The store after calls. -/
def run (s : DocumentStore) : List StoreCall → DocumentStore
  | [] => s
  | call :: rest => (s.step call).run rest

/-- The calls that are accepted. -/
def accepted (s : DocumentStore) : List StoreCall → List StoreCall
  | [] => []
  | call :: rest =>
    match s.perform call with
    | .ok s' => call :: s'.accepted rest
    | .error _ => s.accepted rest

/-! ## One call -/

theorem get?_set_eq (s : DocumentStore) (uri : String) (d : TextDocument) (other : String) :
    (s.set uri d).get? other = if other = uri then (s.get? uri).map fun _ => d else s.get? other := by
  have hset : (s.set uri d).entries =
      s.entries.map fun entry => (entry.1, if entry.1 = uri then d else entry.2) := by
    refine List.map_congr_left fun entry _ => ?_
    split
    · next hkey => rw [← hkey]
    · rfl
  rw [get?, hset, lookup_map s.entries (fun key old => if key = uri then d else old)]
  by_cases hother : other = uri
  · simp [hother, get?]
  · simp [hother, get?]

theorem isOpen_iff {s : DocumentStore} {uri : String} :
    s.isOpen uri = true ↔ ∃ d, s.get? uri = some d := Option.isSome_iff_exists

theorem not_isOpen_iff {s : DocumentStore} {uri : String} :
    ¬ s.isOpen uri = true ↔ s.get? uri = none := by
  rw [isOpen, Option.not_isSome_iff_eq_none]

section Refusal

variable {s : DocumentStore} {fault : SyncFault}

theorem didOpen_eq_error_iff {p : DidOpenParams} :
    s.didOpen p = .error fault ↔
      s.isOpen p.textDocument.uri = true ∧ fault = .alreadyOpen p.textDocument.uri := by
  rw [isOpen_iff]
  unfold didOpen
  cases hget : s.get? p.textDocument.uri with
  | none => simp [hget]
  | some d => simp [hget, eq_comm]

theorem didChange_eq_error_iff {p : DidChangeParams} {e : PositionEncoding} :
    s.didChange p e = .error fault ↔
      (¬ s.isOpen p.textDocument.uri = true ∧ fault = .notOpen p.textDocument.uri) ∨
      ∃ d, s.get? p.textDocument.uri = some d ∧ p.textDocument.version ≤ d.version ∧
        fault = .staleVersion p.textDocument.uri d.version p.textDocument.version := by
  rw [not_isOpen_iff]
  unfold didChange
  cases hget : s.get? p.textDocument.uri with
  | none => simp [hget, eq_comm]
  | some d =>
      by_cases hstale : p.textDocument.version ≤ d.version
      · simp [hget, hstale, eq_comm]
      · simp [hget, hstale]

theorem didSave_eq_error_iff {p : DidSaveParams} :
    s.didSave p = .error fault ↔
      ¬ s.isOpen p.textDocument.uri = true ∧ fault = .notOpen p.textDocument.uri := by
  rw [not_isOpen_iff]
  unfold didSave
  cases hget : s.get? p.textDocument.uri with
  | none => simp [hget, eq_comm]
  | some d => simp [hget]

theorem didClose_eq_error_iff {uri : String} :
    s.didClose uri = .error fault ↔ ¬ s.isOpen uri = true ∧ fault = .notOpen uri := by
  rw [not_isOpen_iff]
  unfold didClose
  cases hget : s.get? uri with
  | none => simp [eq_comm]
  | some d => simp

end Refusal

section Acceptance

variable {s s' : DocumentStore}

theorem didOpen_eq_ok {p : DidOpenParams} (h : s.didOpen p = .ok s') :
    s.get? p.textDocument.uri = none ∧
      s'.entries = s.entries ++ [(p.textDocument.uri, .ofItem p.textDocument)] := by
  unfold didOpen at h
  cases hget : s.get? p.textDocument.uri with
  | none =>
      simp only [hget, Except.ok.injEq] at h
      exact ⟨rfl, by rw [← h]⟩
  | some d => simp [hget] at h

theorem didChange_eq_ok {p : DidChangeParams} {e : PositionEncoding} (h : s.didChange p e = .ok s') :
    ∃ d, s.get? p.textDocument.uri = some d ∧ d.version < p.textDocument.version ∧
      s' = s.set p.textDocument.uri
        { d with
          version := p.textDocument.version
          text := p.contentChanges.foldl (ContentChange.apply e) d.text } := by
  unfold didChange at h
  cases hget : s.get? p.textDocument.uri with
  | none => simp [hget] at h
  | some d =>
      by_cases hstale : p.textDocument.version ≤ d.version
      · simp [hget, hstale] at h
      · simp only [hget, hstale, if_false, Except.ok.injEq] at h
        exact ⟨d, rfl, Int32.not_le.1 hstale, h.symm⟩

theorem didSave_eq_ok {p : DidSaveParams} (h : s.didSave p = .ok s') :
    ∃ d, s.get? p.textDocument.uri = some d ∧
      s' = s.set p.textDocument.uri { d with text := p.text.getD d.text } := by
  unfold didSave at h
  cases hget : s.get? p.textDocument.uri with
  | none => simp [hget] at h
  | some d =>
      simp only [hget, Except.ok.injEq] at h
      exact ⟨d, rfl, h.symm⟩

theorem didClose_eq_ok {uri : String} (h : s.didClose uri = .ok s') :
    (∃ d, s.get? uri = some d) ∧
      s'.entries = s.entries.filter fun entry => entry.1 ≠ uri := by
  unfold didClose at h
  cases hget : s.get? uri with
  | none => simp [hget] at h
  | some d =>
      simp only [hget, Except.ok.injEq] at h
      exact ⟨⟨d, rfl⟩, by rw [← h]⟩

/-- An accepted call changes what is at each address by its rule. -/
theorem get?_perform {call : StoreCall} (h : s.perform call = .ok s') (uri : String) :
    s'.get? uri = call.next uri (s.get? uri) := by
  cases call with
  | didOpen p =>
      obtain ⟨hnone, hentries⟩ := didOpen_eq_ok h
      rw [get?, hentries, lookup_concat]
      change (s.get? uri).or _ = _
      by_cases huri : uri = p.textDocument.uri
      · simp [StoreCall.next, StoreCall.uri, huri, hnone]
      · simp [StoreCall.next, StoreCall.uri, huri, Ne.symm huri]
  | didChange p e =>
      obtain ⟨d, hget, -, rfl⟩ := didChange_eq_ok h
      rw [get?_set_eq]
      by_cases huri : uri = p.textDocument.uri
      · simp [StoreCall.next, StoreCall.uri, StoreCall.edit, huri, hget]
      · simp [StoreCall.next, StoreCall.uri, huri, Ne.symm huri]
  | didSave p =>
      obtain ⟨d, hget, rfl⟩ := didSave_eq_ok h
      rw [get?_set_eq]
      by_cases huri : uri = p.textDocument.uri
      · simp [StoreCall.next, StoreCall.uri, StoreCall.edit, huri, hget]
      · simp [StoreCall.next, StoreCall.uri, huri, Ne.symm huri]
  | didClose other =>
      obtain ⟨-, hentries⟩ := didClose_eq_ok h
      rw [get?, hentries, lookup_filter_ne]
      by_cases huri : uri = other
      · simp [StoreCall.next, StoreCall.uri, huri]
      · simp [StoreCall.next, StoreCall.uri, huri, Ne.symm huri, get?]

theorem step_of_ok {call : StoreCall} (h : s.perform call = .ok s') : s.step call = s' := by
  simp [step, h]

theorem step_of_error {call : StoreCall} {fault : SyncFault} (h : s.perform call = .error fault) :
    s.step call = s := by
  simp [step, h]

/-- A call touches nothing but its own address. -/
theorem get?_step_of_ne {call : StoreCall} {uri : String} (h : uri ≠ call.uri) :
    (s.step call).get? uri = s.get? uri := by
  cases hperform : s.perform call with
  | error fault => rw [step_of_error hperform]
  | ok s' => rw [step_of_ok hperform, get?_perform hperform, StoreCall.next_of_ne h.symm]

end Acceptance

/-! ## Addresses -/

/-- Each document is kept at its own address, and no address is used twice. -/
structure Addressed (s : DocumentStore) : Prop where
  nodup : (s.entries.map Prod.fst).Nodup
  uri : ∀ key d, (key, d) ∈ s.entries → d.uri = key

theorem mem_entries_of_get? {s : DocumentStore} {uri : String} {d : TextDocument}
    (h : s.get? uri = some d) : (uri, d) ∈ s.entries := by
  obtain ⟨before, after, hentries, -⟩ := List.lookup_eq_some_iff.1 h
  rw [hentries]
  exact List.mem_append_right _ List.mem_cons_self

theorem Addressed.set {s : DocumentStore} (h : s.Addressed) {uri : String} {d : TextDocument}
    (hd : d.uri = uri) : (s.set uri d).Addressed := by
  constructor
  · have hkeys : (s.set uri d).entries.map Prod.fst = s.entries.map Prod.fst := by
      rw [DocumentStore.set, List.map_map]
      refine List.map_congr_left fun entry _ => ?_
      rw [Function.comp_apply]
      split
      · next hkey => exact hkey.symm
      · rfl
    rw [hkeys]
    exact h.nodup
  · intro key d' hmem
    obtain ⟨entry, hentry, hnew⟩ := List.mem_map.1 hmem
    split at hnew
    · cases hnew
      exact hd
    · subst hnew
      exact h.uri key d' hentry

theorem Addressed.perform {s s' : DocumentStore} (hs : s.Addressed) {call : StoreCall}
    (h : s.perform call = .ok s') : s'.Addressed := by
  cases call with
  | didOpen p =>
      obtain ⟨hnone, hentries⟩ := didOpen_eq_ok h
      constructor
      · rw [hentries, List.map_append, List.nodup_append]
        refine ⟨hs.nodup, List.pairwise_singleton _ _, ?_⟩
        intro key hkey other hother
        obtain rfl : other = p.textDocument.uri := List.mem_singleton.1 hother
        rintro rfl
        exact mem_keys_iff.1 hkey hnone
      · intro key d hmem
        rw [hentries] at hmem
        rcases List.mem_append.1 hmem with hmem | hmem
        · exact hs.uri key d hmem
        · cases List.mem_singleton.1 hmem
          rfl
  | didChange p e =>
      obtain ⟨d, hget, -, rfl⟩ := didChange_eq_ok h
      exact hs.set (hs.uri _ d (mem_entries_of_get? hget))
  | didSave p =>
      obtain ⟨d, hget, rfl⟩ := didSave_eq_ok h
      exact hs.set (hs.uri _ d (mem_entries_of_get? hget))
  | didClose uri =>
      obtain ⟨-, hentries⟩ := didClose_eq_ok h
      constructor
      · rw [hentries]
        exact hs.nodup.sublist (List.filter_sublist.map _)
      · intro key d hmem
        rw [hentries] at hmem
        exact hs.uri key d (List.mem_filter.1 hmem).1

theorem Addressed.run {s : DocumentStore} (hs : s.Addressed) (calls : List StoreCall) :
    (s.run calls).Addressed := by
  induction calls generalizing s with
  | nil => exact hs
  | cons call rest ih =>
      rw [DocumentStore.run]
      cases hperform : s.perform call with
      | error fault =>
          rw [step_of_error hperform]
          exact ih hs
      | ok s' =>
          rw [step_of_ok hperform]
          exact ih (hs.perform hperform)

theorem addressed_empty : empty.Addressed :=
  ⟨List.nodup_nil, fun _ _ hmem => by cases hmem⟩

/-! ## Runs and their accepted calls -/

theorem run_cons_ok {s s' : DocumentStore} {call : StoreCall} (h : s.perform call = .ok s')
    (rest : List StoreCall) :
    s.run (call :: rest) = s'.run rest ∧ s.accepted (call :: rest) = call :: s'.accepted rest := by
  simp [run, accepted, step, h]

theorem run_cons_error {s : DocumentStore} {call : StoreCall} {fault : SyncFault}
    (h : s.perform call = .error fault) (rest : List StoreCall) :
    s.run (call :: rest) = s.run rest ∧ s.accepted (call :: rest) = s.accepted rest := by
  simp [run, accepted, step, h]

/-- What is at an address is told by the accepted calls. -/
theorem get?_run (s : DocumentStore) (calls : List StoreCall) (uri : String) :
    (s.run calls).get? uri = (s.accepted calls).foldl (StoreCall.next uri) (s.get? uri) := by
  induction calls generalizing s with
  | nil => rfl
  | cons call rest ih =>
      cases hperform : s.perform call with
      | error fault =>
          obtain ⟨hrun, haccepted⟩ := run_cons_error hperform rest
          rw [hrun, haccepted, ih]
      | ok s' =>
          obtain ⟨hrun, haccepted⟩ := run_cons_ok hperform rest
          rw [hrun, haccepted, ih, List.foldl_cons, get?_perform hperform]

/-- A run can be cut at any of its accepted calls. -/
theorem exists_cut {s : DocumentStore} {calls before after : List StoreCall} {call : StoreCall}
    (h : s.accepted calls = before ++ call :: after) :
    ∃ earlier later s', calls = earlier ++ call :: later ∧ s.accepted earlier = before ∧
      (s.run earlier).perform call = .ok s' ∧ s'.accepted later = after ∧
      s.run calls = s'.run later := by
  induction calls generalizing s before with
  | nil => cases before <;> cases h
  | cons first rest ih =>
      cases hperform : s.perform first with
      | error fault =>
          obtain ⟨hrun, haccepted⟩ := run_cons_error hperform rest
          rw [haccepted] at h
          obtain ⟨earlier, later, s', rfl, hbefore, hcall, hafter, hend⟩ := ih h
          obtain ⟨hrun', haccepted'⟩ := run_cons_error hperform earlier
          exact ⟨first :: earlier, later, s', rfl, haccepted'.trans hbefore, by rw [hrun', hcall],
            hafter, hrun.trans hend⟩
      | ok t =>
          obtain ⟨hrun, haccepted⟩ := run_cons_ok hperform rest
          rw [haccepted] at h
          cases before with
          | nil =>
              obtain ⟨rfl, hafter⟩ := List.cons.inj h
              exact ⟨[], rest, t, rfl, rfl, hperform, hafter, hrun⟩
          | cons head before =>
              obtain ⟨rfl, hbefore⟩ := List.cons.inj h
              obtain ⟨earlier, later, s', rfl, hearlier, hcall, hafter, hend⟩ := ih hbefore
              obtain ⟨hrun', haccepted'⟩ := run_cons_ok hperform earlier
              exact ⟨first :: earlier, later, s', rfl, by rw [haccepted', hearlier],
                by rw [hrun', hcall], hafter, hrun.trans hend⟩

/-! ## One life -/

/-- An open document that is not closed lives on: its address and language stay, its version is that
of the last change, each greater than the one before, and its text has gone through all changes and
saves. -/
theorem life {s : DocumentStore} {uri : String} {d : TextDocument} (hopen : s.get? uri = some d)
    {calls : List StoreCall} (hkept : ∀ call ∈ s.accepted calls, call.closes uri = false) :
    (d.version :: versionsOf uri (s.accepted calls)).Pairwise (· < ·) ∧
      (s.run calls).get? uri = some
        { d with
          version := (versionsOf uri (s.accepted calls)).getLastD d.version
          text := (s.accepted calls).foldl (StoreCall.edit uri) d.text } := by
  induction calls generalizing s d with
  | nil => exact ⟨List.pairwise_singleton _ _, hopen⟩
  | cons call rest ih =>
      cases hperform : s.perform call with
      | error fault =>
          obtain ⟨hrun, haccepted⟩ := run_cons_error hperform rest
          rw [haccepted] at hkept ⊢
          rw [hrun]
          exact ih hopen hkept
      | ok s' =>
          obtain ⟨hrun, haccepted⟩ := run_cons_ok hperform rest
          rw [haccepted, List.forall_mem_cons] at hkept
          obtain ⟨hcall, hrest⟩ := hkept
          have hget := get?_perform hperform uri
          rw [hrun, haccepted, versionsOf, List.filterMap_cons, List.foldl_cons]
          -- Only a change on this address brings a version; any other call leaves the version alone.
          by_cases huri : call.uri = uri
          · cases call with
            | didOpen p =>
                obtain ⟨hnone, -⟩ := didOpen_eq_ok hperform
                rw [show p.textDocument.uri = uri from huri, hopen] at hnone
                cases hnone
            | didClose other => simp [StoreCall.closes, show other = uri from huri] at hcall
            | didSave p =>
                rw [StoreCall.next, if_pos huri, hopen] at hget
                exact ih hget hrest
            | didChange p e =>
                obtain ⟨found, hfound, hnewer, -⟩ := didChange_eq_ok hperform
                rw [show p.textDocument.uri = uri from huri, hopen] at hfound
                obtain rfl := Option.some.inj hfound
                rw [StoreCall.next, if_pos huri, hopen] at hget
                obtain ⟨hversions, hlater⟩ := ih hget hrest
                have hversion : StoreCall.version? uri (.didChange p e) =
                    some p.textDocument.version := if_pos huri
                rw [hversion]
                refine ⟨List.pairwise_cons.2 ⟨?_, hversions⟩, ?_⟩
                · intro version hmem
                  rcases List.mem_cons.1 hmem with rfl | hmem
                  · exact hnewer
                  · exact Int32.lt_trans hnewer (List.rel_of_pairwise_cons hversions hmem)
                · rw [hlater, List.getLastD_cons]
                  rfl
          · have hother : call.version? uri = none ∧ call.edit uri d.text = d.text := by
              cases call <;> simp_all [StoreCall.version?, StoreCall.edit, StoreCall.uri]
            rw [StoreCall.next_of_ne huri, hopen] at hget
            rw [hother.1, hother.2]
            exact ih hget hrest

/-- Nothing is at an address that is not opened. -/
theorem get?_run_of_not_opened {s : DocumentStore} {uri : String} (hnone : s.get? uri = none)
    {calls : List StoreCall} (hshut : ∀ call ∈ s.accepted calls, call.opens uri = false) :
    (s.run calls).get? uri = none := by
  rw [get?_run, hnone]
  generalize s.accepted calls = log at hshut ⊢
  induction log with
  | nil => rfl
  | cons call rest ih =>
      obtain ⟨hcall, hrest⟩ := List.forall_mem_cons.1 hshut
      have hnext : call.next uri none = none := by
        by_cases huri : call.uri = uri
        · cases call <;> simp_all [StoreCall.next, StoreCall.opens, StoreCall.uri]
        · exact StoreCall.next_of_ne huri none
      rw [List.foldl_cons, hnext]
      exact ih hrest

/-- The last of the calls that satisfy a condition. -/
theorem exists_last {f : StoreCall → Bool} {log : List StoreCall} (h : ∃ call ∈ log, f call = true) :
    ∃ before call after, log = before ++ call :: after ∧ f call = true ∧
      ∀ later ∈ after, f later = false := by
  induction log with
  | nil => simp at h
  | cons first rest ih =>
      by_cases hrest : ∃ call ∈ rest, f call = true
      · obtain ⟨before, call, after, rfl, hcall, hafter⟩ := ih hrest
        exact ⟨first :: before, call, after, rfl, hcall, hafter⟩
      · have hnone : ∀ later ∈ rest, f later = false := by simpa using hrest
        obtain ⟨call, hmem, hcall⟩ := h
        rcases List.mem_cons.1 hmem with rfl | hmem
        · exact ⟨[], call, rest, rfl, hcall, hnone⟩
        · exact absurd ⟨call, hmem, hcall⟩ hrest

/-- A document that is closed is not there until it is opened again. -/
theorem get?_run_of_closed {s : DocumentStore} {uri : String} {calls before after : List StoreCall}
    (h : s.accepted calls = before ++ after) (hclosed : ∃ call ∈ after, call.closes uri = true)
    (hshut : ∀ call ∈ after, call.opens uri = false) : (s.run calls).get? uri = none := by
  obtain ⟨call, hcall, hcloses⟩ := hclosed
  cases call with
  | didClose other =>
      obtain rfl : other = uri := by simpa [StoreCall.closes] using hcloses
      obtain ⟨between, rest, rfl⟩ := List.append_of_mem hcall
      rw [← List.append_assoc] at h
      obtain ⟨earlier, later, s', -, -, hclose, hrest, hend⟩ := exists_cut h
      rw [hend]
      refine get?_run_of_not_opened ?_ fun call hmem => ?_
      · simp [get?_perform hclose, StoreCall.next, StoreCall.uri]
      · exact hshut call (List.mem_append_right _ (List.mem_cons_of_mem _ (hrest ▸ hmem)))
  | _ => cases hcloses

/-- A document that was opened and not closed since is there. -/
theorem life_of_opened {s : DocumentStore} {p : DidOpenParams} {calls before after : List StoreCall}
    (h : s.accepted calls = before ++ .didOpen p :: after)
    (hkept : ∀ call ∈ after, call.closes p.textDocument.uri = false) :
    (p.textDocument.version :: versionsOf p.textDocument.uri after).Pairwise (· < ·) ∧
      (s.run calls).get? p.textDocument.uri = some
        { uri := p.textDocument.uri
          languageId := p.textDocument.languageId
          version := (versionsOf p.textDocument.uri after).getLastD p.textDocument.version
          text := after.foldl (StoreCall.edit p.textDocument.uri) p.textDocument.text } := by
  obtain ⟨earlier, later, s', -, -, hopen, hafter, hend⟩ := exists_cut h
  have hget : s'.get? p.textDocument.uri = some (.ofItem p.textDocument) := by
    simp [get?_perform hopen, StoreCall.next, StoreCall.uri]
  rw [hend, ← hafter]
  exact life hget (hafter ▸ hkept)

theorem isOpen_run_iff (calls : List StoreCall) (uri : String) :
    (empty.run calls).isOpen uri = true ↔
      ∃ before p after, empty.accepted calls = before ++ .didOpen p :: after ∧
        p.textDocument.uri = uri ∧
        ∀ call ∈ after, call.opens uri = false ∧ call.closes uri = false := by
  constructor
  · intro hopen
    obtain ⟨d, hd⟩ := isOpen_iff.1 hopen
    by_cases hopened : ∃ call ∈ empty.accepted calls, call.opens uri = true
    · obtain ⟨before, call, after, hlog, hcall, hlast⟩ := exists_last hopened
      cases call with
      | didOpen p =>
          have huri : p.textDocument.uri = uri := by simpa [StoreCall.opens] using hcall
          refine ⟨before, p, after, hlog, huri, fun later hlater => ⟨hlast later hlater, ?_⟩⟩
          cases hcloses : later.closes uri with
          | false => rfl
          | true =>
              -- A close after the last open would have left nothing.
              have hsplit : empty.accepted calls = (before ++ [.didOpen p]) ++ after := by
                rw [hlog, List.append_assoc, List.singleton_append]
              have hnone := get?_run_of_closed hsplit ⟨later, hlater, hcloses⟩ hlast
              rw [hd] at hnone
              cases hnone
      | _ => cases hcall
    · have hshut : ∀ call ∈ empty.accepted calls, call.opens uri = false := by simpa using hopened
      have hnone := get?_run_of_not_opened rfl hshut
      rw [hd] at hnone
      cases hnone
  · rintro ⟨before, p, after, hlog, rfl, hafter⟩
    obtain ⟨-, hget⟩ := life_of_opened hlog fun call hcall => (hafter call hcall).2
    exact isOpen_iff.2 ⟨_, hget⟩

/-! ## Replays -/

theorem le_getLastD {versions : List Int32} {first : Int32}
    (h : (first :: versions).Pairwise (· < ·)) : first ≤ versions.getLastD first := by
  cases hlast : versions.getLast? with
  | none =>
      obtain rfl := List.getLast?_eq_none_iff.1 hlast
      exact Int32.le_refl _
  | some last =>
      rw [List.getLastD_eq_getLast?, hlast]
      exact Int32.le_of_lt (List.rel_of_pairwise_cons h (List.mem_of_getLast? hlast))

/-- A change that was accepted is refused ever after, unless its document is opened anew. -/
theorem didChange_replayed {s : DocumentStore} {p : DidChangeParams} {e : PositionEncoding}
    {calls before after : List StoreCall}
    (h : s.accepted calls = before ++ .didChange p e :: after)
    (hshut : ∀ call ∈ after, call.opens p.textDocument.uri = false) (e' : PositionEncoding) :
    ∃ fault, (s.run calls).didChange p e' = .error fault := by
  by_cases hclosed : ∃ call ∈ after, call.closes p.textDocument.uri = true
  · have hsplit : s.accepted calls = (before ++ [.didChange p e]) ++ after := by
      rw [h, List.append_assoc, List.singleton_append]
    have hnone := get?_run_of_closed hsplit hclosed hshut
    exact ⟨_, didChange_eq_error_iff.2 (.inl ⟨not_isOpen_iff.2 hnone, rfl⟩)⟩
  · obtain ⟨earlier, later, s', -, -, hchange, hafter, hend⟩ := exists_cut h
    obtain ⟨d, hd, -, -⟩ := didChange_eq_ok hchange
    have hget := get?_perform hchange p.textDocument.uri
    simp only [StoreCall.next, StoreCall.uri, if_true, hd, Option.map_some] at hget
    have hkept : ∀ call ∈ after, call.closes p.textDocument.uri = false := by simpa using hclosed
    obtain ⟨hversions, hlive⟩ := life hget (hafter ▸ hkept)
    rw [← hend] at hlive
    exact ⟨_, didChange_eq_error_iff.2 (.inr ⟨_, hlive, le_getLastD hversions, rfl⟩)⟩

/-! ## All lives -/

/-- **The lives of documents.** Whatever calls are made on an empty store, with whatever arguments:

* each document is kept at its own address, and an address is open exactly if it was not closed
  since it was last opened, where only calls that were accepted count;
* an address is refused to be opened exactly if it is open; a change, a save and a close are refused
  exactly if the address is not open, a change also if its version is not greater than the
  document's; each refusal says why;
* a refused call changes nothing, and an accepted one nothing at other addresses;
* from when it is opened until it is closed a document keeps its language, its version is the one of
  the last change, greater than all before, and its text is what changes and saves made of it;
* a change that was accepted is refused when it comes again, unless its document was opened anew;
* an accepted change brings its version and applies its content changes in their order. -/
theorem run_documentLives (calls : List StoreCall) :
    let s := empty.run calls
    let log := empty.accepted calls
    ((s.entries.map Prod.fst).Nodup ∧ ∀ key d, (key, d) ∈ s.entries → d.uri = key) ∧
    (∀ uri, s.isOpen uri = true ↔
      ∃ before p after, log = before ++ .didOpen p :: after ∧ p.textDocument.uri = uri ∧
        ∀ call ∈ after, call.opens uri = false ∧ call.closes uri = false) ∧
    (∀ p fault, s.didOpen p = .error fault ↔
      s.isOpen p.textDocument.uri = true ∧ fault = .alreadyOpen p.textDocument.uri) ∧
    (∀ p e fault, s.didChange p e = .error fault ↔
      (¬ s.isOpen p.textDocument.uri = true ∧ fault = .notOpen p.textDocument.uri) ∨
      ∃ d, s.get? p.textDocument.uri = some d ∧ p.textDocument.version ≤ d.version ∧
        fault = .staleVersion p.textDocument.uri d.version p.textDocument.version) ∧
    (∀ p fault, s.didSave p = .error fault ↔
      ¬ s.isOpen p.textDocument.uri = true ∧ fault = .notOpen p.textDocument.uri) ∧
    (∀ uri fault, s.didClose uri = .error fault ↔
      ¬ s.isOpen uri = true ∧ fault = .notOpen uri) ∧
    (∀ call, (∀ fault, s.perform call = .error fault → s.step call = s) ∧
      ∀ uri, uri ≠ call.uri → (s.step call).get? uri = s.get? uri) ∧
    (∀ before p after, log = before ++ .didOpen p :: after →
      (∀ call ∈ after, call.closes p.textDocument.uri = false) →
      (p.textDocument.version :: versionsOf p.textDocument.uri after).Pairwise (· < ·) ∧
        s.get? p.textDocument.uri = some
          { uri := p.textDocument.uri
            languageId := p.textDocument.languageId
            version := (versionsOf p.textDocument.uri after).getLastD p.textDocument.version
            text := after.foldl (StoreCall.edit p.textDocument.uri) p.textDocument.text }) ∧
    (∀ before p e after, log = before ++ .didChange p e :: after →
      (∀ call ∈ after, call.opens p.textDocument.uri = false) →
      ∀ e', ∃ fault, s.didChange p e' = .error fault) ∧
    ∀ p e s', s.didChange p e = .ok s' →
      ∃ d, s.get? p.textDocument.uri = some d ∧ d.version < p.textDocument.version ∧
        s'.get? p.textDocument.uri = some
          { d with
            version := p.textDocument.version
            text := p.contentChanges.foldl (ContentChange.apply e) d.text } := by
  intro s log
  have haddressed : s.Addressed := addressed_empty.run calls
  refine ⟨⟨haddressed.nodup, haddressed.uri⟩, isOpen_run_iff calls,
    fun p fault => didOpen_eq_error_iff, fun p e fault => didChange_eq_error_iff,
    fun p fault => didSave_eq_error_iff, fun uri fault => didClose_eq_error_iff,
    fun call => ⟨fun fault => step_of_error, fun uri => get?_step_of_ne⟩,
    fun before p after => life_of_opened, fun before p e after => didChange_replayed, ?_⟩
  intro p e s' hchange
  obtain ⟨d, hget, hnewer, rfl⟩ := didChange_eq_ok hchange
  refine ⟨d, hget, hnewer, ?_⟩
  rw [get?_set_eq, if_pos rfl, hget]
  rfl

/-- Two changes of ranges, the second inside of what the first put in. -/
def rangedChange : DidChangeParams :=
  ⟨⟨"a", 3⟩, [.incremental ⟨⟨0, 1⟩, ⟨0, 2⟩⟩ none "o-u", .incremental ⟨⟨0, 2⟩, ⟨0, 3⟩⟩ none ""]⟩

/-- A document is opened, changed, and opened once more in vain; then it is closed and opened again
with a lower version, changed twice over in one call, saved with another text, and changed in two
ranges. -/
def reopenedRun : List StoreCall :=
  [.didOpen ⟨⟨"a", "text", 5, "one"⟩⟩, .didChange ⟨⟨"a", 6⟩, [.full "two"]⟩ .utf8,
    .didOpen ⟨⟨"a", "other", 9, "lost"⟩⟩, .didClose "a", .didOpen ⟨⟨"a", "text", 1, "three"⟩⟩,
    .didChange ⟨⟨"a", 2⟩, [.full "four", .full "five"]⟩ .utf16, .didSave ⟨⟨"a"⟩, some "six"⟩,
    .didChange rangedChange .utf16]

/-- The second life has its own versions: the last change of this life is refused when it comes
again, while nothing is left of the first. -/
theorem reopenedRun_documentLives :
    let s := empty.run reopenedRun
    s.get? "a" = some ⟨"a", "text", 3, "soux"⟩ ∧ s.isOpen "a" = true ∧
    (∃ fault, s.didChange rangedChange .utf8 = .error fault) ∧
    s.didOpen ⟨⟨"a", "text", 7, ""⟩⟩ = .error (.alreadyOpen "a") := by
  intro s
  obtain ⟨-, hopen, hrefused, -, -, -, -, hlife, hreplayed, -⟩ := run_documentLives reopenedRun
  have hlast : ∀ call ∈ reopenedRun.drop 5, call.opens "a" = false ∧ call.closes "a" = false := by
    decide
  have hisOpen : s.isOpen "a" = true :=
    (hopen "a").2 ⟨reopenedRun.take 2 ++ [.didClose "a"], ⟨⟨"a", "text", 1, "three"⟩⟩,
      reopenedRun.drop 5, rfl, rfl, hlast⟩
  obtain ⟨-, hget⟩ := hlife (reopenedRun.take 2 ++ [.didClose "a"]) ⟨⟨"a", "text", 1, "three"⟩⟩
    (reopenedRun.drop 5) rfl fun call hcall => (hlast call hcall).2
  refine ⟨hget, hisOpen, ?_, (hrefused ⟨⟨"a", "text", 7, ""⟩⟩ _).2 ⟨hisOpen, rfl⟩⟩
  exact hreplayed (reopenedRun.take 2 ++ .didClose "a" :: .didOpen ⟨⟨"a", "text", 1, "three"⟩⟩ ::
    (reopenedRun.drop 5).take 2) rangedChange .utf16 [] rfl (by decide) .utf8

end DocumentStore

end LanguageServer
