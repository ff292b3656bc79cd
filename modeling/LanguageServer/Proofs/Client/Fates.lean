import LanguageServer.Client.Pending
import LanguageServer.Proofs.Table

set_option autoImplicit false

/-! # What becomes of calls

A table of calls is worked on by five operations. What becomes of one call depends on its own
history only: the first operation after it was made that names it, or abandons all calls, decides
it. Other calls do not matter, because no number is given twice.

The part of a table that belongs to one call is its `CallView`. Each operation changes the view of
every call by the same rule (`CallView.next`), so that a whole run is a fold over its events
(`view_after`). -/

namespace LanguageServer

/-! ## Runs -/

/-- An operation on a table of calls. -/
inductive CallOp where
  | issue (method : String)
  | resolve (r : Response)
  | cancel (id : RequestId)
  | remove (id : RequestId)
  | abandonAll
deriving DecidableEq, Repr, Inhabited

def CallOp.isIssue : CallOp → Bool
  | .issue _ => true
  | _ => false

/-- How many calls are made in a run. -/
def issues (ops : List CallOp) : Nat := ops.countP CallOp.isIssue

/-- An operation together with what it gave. -/
inductive CallEvent where
  | issued (id : RequestId) (method : String)
  | resolved (r : Response) (result : Except ResolveFault String)
  | cancelled (id : RequestId) (method : Option String)
  | removed (id : RequestId) (found : Bool)
  | abandoned (count : Nat)
deriving Repr, Inhabited

/-- One number comes before another. -/
def RequestId.Precedes : RequestId → RequestId → Prop
  | .number m, .number n => m < n
  | _, _ => False

/-- The id of the call with a number. -/
def callId (n : Nat) : RequestId := .number (Int64.ofNat n)

theorem callId_precedes {m n : Nat} (h : m < n) (hn : n ≤ 9223372036854775807) :
    (callId m).Precedes (callId n) := by
  rw [callId, callId, RequestId.Precedes, Int64.lt_iff_toInt_lt,
    Int64.toInt_ofNat_of_lt (by omega), Int64.toInt_ofNat_of_lt (by omega)]
  omega

theorem RequestId.Precedes.ne {a b : RequestId} (h : a.Precedes b) : a ≠ b := by
  rintro rfl
  cases a with
  | number n => exact absurd h (by simp [Precedes])
  | text s => exact h

namespace CallEvent

/-- The id that was given to a call. -/
def issued? : CallEvent → Option RequestId
  | .issued id _ => some id
  | _ => none

/-- What was delivered, and to which call. -/
def delivered? : CallEvent → Option (RequestId × Outcome)
  | .resolved r (.ok _) => r.id.map fun id => (id, r.outcome)
  | _ => none

/-- Whether an operation names a call that has been made, or all calls. -/
def decides (id : RequestId) : CallEvent → Bool
  | .issued _ _ => false
  | .resolved r _ => r.id = some id
  | .cancelled other _ => other = id
  | .removed other _ => other = id
  | .abandoned _ => true

/-- Whether no answer is expected any more to a call that was given up: one has come, or all calls
were abandoned. -/
def closes (id : RequestId) : CallEvent → Bool
  | .resolved r _ => r.id = some id
  | .abandoned _ => true
  | _ => false

end CallEvent

/-- The ids given to calls. -/
def issuedIds (history : List CallEvent) : List RequestId := history.filterMap CallEvent.issued?

/-- What was delivered. -/
def deliveries (history : List CallEvent) : List (RequestId × Outcome) :=
  history.filterMap CallEvent.delivered?

/-- Nothing that happened to a call since it was made has decided it. -/
def Undecided (id : RequestId) (since : List CallEvent) : Prop :=
  ∀ e ∈ since, e.decides id = false

/-- The call was decided by being given up, and an answer to it would still be expected. -/
def GivenUp (id : RequestId) (since : List CallEvent) : Prop :=
  ∃ earlier method later, since = earlier ++ .cancelled id method :: later ∧
    Undecided id earlier ∧ ∀ e ∈ later, e.closes id = false

namespace PendingCalls

/-- Carry out an operation. -/
def perform (p : PendingCalls) : CallOp → CallEvent × PendingCalls
  | .issue method => (.issued (p.issue method).1 method, (p.issue method).2)
  | .resolve r => (.resolved r (p.resolve r).1, (p.resolve r).2)
  | .cancel id => (.cancelled id (p.cancel id).1, (p.cancel id).2)
  | .remove id => (.removed id (p.remove id).1, (p.remove id).2)
  | .abandonAll => (.abandoned p.abandonAll.1, p.abandonAll.2)

/-- The table after a run. -/
def after (p : PendingCalls) : List CallOp → PendingCalls
  | [] => p
  | op :: ops => (p.perform op).2.after ops

/-- The events of a run. -/
def events (p : PendingCalls) : List CallOp → List CallEvent
  | [] => []
  | op :: ops => (p.perform op).1 :: (p.perform op).2.events ops

end PendingCalls

/-! ## The part of one call -/

/-- What a table says about one call. -/
structure CallView where
  entry : Option String
  cancelled : Option String
  waiter : Option WaiterState
deriving DecidableEq, Repr, Inhabited

namespace CallView

/-- Nothing is known of the call. -/
def blank : CallView := ⟨none, none, none⟩

/-- Tell the waiter something, if it still waits. -/
def told (v : CallView) (state : WaiterState) : Option WaiterState :=
  v.waiter.map fun w => if w = .waiting then state else w

/-- What is known of a call after an event. -/
def next (id : RequestId) (v : CallView) : CallEvent → CallView
  | .issued other method =>
    if id = other then ⟨v.entry.or (some method), v.cancelled, v.waiter.or (some .waiting)⟩ else v
  | .resolved r _ =>
    if r.id = some id then
      if v.entry.isSome then ⟨none, v.cancelled, v.told (.received r.outcome)⟩
      else ⟨none, none, v.waiter⟩
    else v
  | .cancelled other _ =>
    if other = id then
      match v.entry with
      | some method => ⟨none, v.cancelled.or (some method), v.told .closed⟩
      | none => v
    else v
  | .removed other _ =>
    if other = id ∧ v.entry.isSome then ⟨none, v.cancelled, v.told .closed⟩ else v
  | .abandoned _ => ⟨none, none, v.told .closed⟩

end CallView

namespace PendingCalls

def view (p : PendingCalls) (id : RequestId) : CallView :=
  ⟨p.entries.lookup id, p.cancelled.lookup id, p.waiter? id⟩

@[simp] theorem waiter_view (p : PendingCalls) (id : RequestId) :
    (p.view id).waiter = p.waiter? id := rfl

theorem waiter?_settle (p : PendingCalls) (id : RequestId) (state : WaiterState)
    (other : RequestId) :
    (p.settle id state).waiter? other =
      if other = id then (p.view other).told state else p.waiter? other := by
  have hsettle : (p.settle id state).waiters = p.waiters.map fun w =>
      (w.1, if w.1 = id ∧ w.2 = .waiting then state else w.2) := by
    refine List.map_congr_left fun w _ => ?_
    split <;> rfl
  rw [waiter?, hsettle, lookup_map p.waiters
    (fun key w => if key = id ∧ w = .waiting then state else w) other]
  by_cases hid : other = id
  · simp only [hid, true_and, if_true, CallView.told, view, waiter?]
  · simp [hid, waiter?]

/-- A call leaves the table, and its waiter is told why; other calls are not touched. -/
theorem view_close (p : PendingCalls) (id : RequestId) (state : WaiterState) (other : RequestId) :
    ((p.eraseEntry id).settle id state).view other =
      if other = id then ⟨none, (p.view other).cancelled, (p.view other).told state⟩
      else p.view other := by
  have hentries : ((p.eraseEntry id).settle id state).entries.lookup other =
      if other = id then none else p.entries.lookup other := lookup_filter_ne p.entries id other
  rw [view, hentries, waiter?_settle]
  split
  · rfl
  · rfl

theorem view_issue (p : PendingCalls) (method : String) (id : RequestId) :
    (p.issue method).2.view id = (p.view id).next id (.issued (p.issue method).1 method) := by
  simp only [view, issue, waiter?, lookup_concat, CallView.next]
  by_cases hid : id = .number (Int64.ofNat (p.issued + 1))
  · simp only [if_pos hid]
    exact (if_pos hid).symm
  · simp only [if_neg hid, Option.or_none]
    exact (if_neg hid).symm

theorem view_resolve (p : PendingCalls) (r : Response) (id : RequestId) :
    (p.resolve r).2.view id = (p.view id).next id (.resolved r (p.resolve r).1) := by
  rw [CallView.next]
  unfold resolve
  split
  · next hid => simp [hid]
  · next key hid =>
      have hnames : r.id = some id ↔ id = key := by rw [hid, Option.some.injEq, eq_comm]
      simp only [hnames]
      split
      · -- The call is in the table and leaves it.
        next method hentry =>
          rw [view_close]
          split
          · next hkey => simp [view, hkey, hentry]
          · rfl
      · next hentry =>
          split
          · -- The call was given up, and this is the answer that was still to come.
            next method hcancelled =>
              have hfilter := lookup_filter_ne p.cancelled key id
              simp only [view, waiter?] at hfilter ⊢
              rw [hfilter]
              split
              · next hkey => simp [hkey, hentry]
              · rfl
          · next hcancelled =>
              split
              · next hkey => simp [view, hkey, hentry, hcancelled]
              · rfl

theorem view_cancel (p : PendingCalls) (key id : RequestId) :
    (p.cancel key).2.view id = (p.view id).next id (.cancelled key (p.cancel key).1) := by
  rw [CallView.next]
  unfold cancel
  split
  · next hentry =>
      split
      · next hkey => simp [view, ← hkey, hentry]
      · rfl
  · -- The call leaves the table as in `view_close`, and is entered among those given up.
    next method hentry =>
      have hview (q : PendingCalls) (h : q.cancelled = p.cancelled) :
          { q with cancelled := q.cancelled ++ [(key, method)] }.view id =
            ⟨(q.view id).entry, (p.cancelled.lookup id).or (if id = key then some method else none),
              (q.view id).waiter⟩ := by
        rw [← lookup_concat, ← h]
        rfl
      refine (hview ((p.eraseEntry key).settle key .closed) rfl).trans ?_
      rw [view_close]
      by_cases hkey : id = key
      · simp [hkey, view, hentry]
      · simp [hkey, Ne.symm hkey, view]

theorem view_remove (p : PendingCalls) (key id : RequestId) :
    (p.remove key).2.view id = (p.view id).next id (.removed key (p.remove key).1) := by
  rw [CallView.next]
  unfold remove
  by_cases hknown : p.contains key = true
  · simp only [if_pos hknown, view_close]
    by_cases hkey : id = key
    · simp only [contains] at hknown
      simp [hkey, view, hknown]
    · simp [hkey, Ne.symm hkey]
  · simp only [if_neg hknown]
    rw [if_neg]
    rintro ⟨rfl, hentry⟩
    exact hknown hentry

theorem view_abandonAll (p : PendingCalls) (id : RequestId) :
    p.abandonAll.2.view id = (p.view id).next id (.abandoned p.abandonAll.1) := by
  have hwaiters : p.abandonAll.2.waiters =
      p.waiters.map fun w => (w.1, if w.2 = .waiting then .closed else w.2) := by
    refine List.map_congr_left fun w _ => ?_
    split <;> rfl
  simp only [view, waiter?, hwaiters, CallView.next, CallView.told]
  rw [lookup_map p.waiters (fun _ w => if w = .waiting then .closed else w) id]
  rfl

theorem view_perform (p : PendingCalls) (op : CallOp) (id : RequestId) :
    (p.perform op).2.view id = (p.view id).next id (p.perform op).1 := by
  cases op with
  | issue method => exact p.view_issue method id
  | resolve r => exact p.view_resolve r id
  | cancel key => exact p.view_cancel key id
  | remove key => exact p.view_remove key id
  | abandonAll => exact p.view_abandonAll id

/-- A run is the same for each call on its own. -/
theorem view_after (p : PendingCalls) (ops : List CallOp) (id : RequestId) :
    (p.after ops).view id = (p.events ops).foldl (CallView.next id) (p.view id) := by
  induction ops generalizing p with
  | nil => rfl
  | cons op ops ih => rw [after, events, List.foldl_cons, ih, view_perform]

end PendingCalls

/-! ## The history of one call -/

namespace CallView

/-- The call has been made, and its waiter waits. -/
def awaited (method : String) : CallView := ⟨some method, none, some .waiting⟩

/-- The call was given up, and an answer to it would still be known. -/
def givenUp (method : String) : CallView := ⟨none, some method, some .closed⟩

/-- The call is known to its waiter only, which has been told something. -/
def settled (state : WaiterState) : CallView := ⟨none, none, some state⟩

variable {id : RequestId} {e : CallEvent} {method : String}

/-- The making of another call changes nothing. -/
theorem next_issued_of_ne {other : RequestId}
    (hnew : (CallEvent.issued other method).issued? ≠ some id) (v : CallView) :
    v.next id (.issued other method) = v := by
  have hother : id ≠ other := fun h => hnew (congrArg some h.symm)
  simp [next, hother]

theorem next_blank (hnew : e.issued? ≠ some id) : blank.next id e = blank := by
  cases e with
  | issued other m => exact next_issued_of_ne hnew _
  | _ => simp [next, blank, told]

theorem next_awaited (hnew : e.issued? ≠ some id) (hopen : e.decides id = false) :
    (awaited method).next id e = awaited method := by
  cases e with
  | issued other m => exact next_issued_of_ne hnew _
  | resolved r result => simp_all [next, CallEvent.decides]
  | cancelled other m => simp_all [next, CallEvent.decides]
  | removed other found => simp_all [next, CallEvent.decides]
  | abandoned count => simp [CallEvent.decides] at hopen

theorem next_givenUp (hnew : e.issued? ≠ some id) (hopen : e.closes id = false) :
    (givenUp method).next id e = givenUp method := by
  cases e with
  | issued other m => exact next_issued_of_ne hnew _
  | resolved r result => simp_all [next, CallEvent.closes]
  | cancelled other m => simp [next, givenUp]
  | removed other found => simp [next, givenUp]
  | abandoned count => simp [CallEvent.closes] at hopen

theorem next_awaited_cancelled (m : Option String) :
    (awaited method).next id (.cancelled id m) = givenUp method := by
  simp [next, awaited, givenUp, told]

theorem next_givenUp_of_closes (hclose : e.closes id = true) :
    (givenUp method).next id e = settled .closed := by
  cases e with
  | resolved r result => simp_all [next, CallEvent.closes, givenUp, settled]
  | abandoned count => simp [next, givenUp, told, settled]
  | _ => simp [CallEvent.closes] at hclose

theorem next_settled {state : WaiterState} (hstate : state ≠ .waiting)
    (hnew : e.issued? ≠ some id) : (settled state).next id e = settled state := by
  cases e with
  | issued other m => exact next_issued_of_ne hnew _
  | _ => simp [next, settled, told, hstate]

theorem foldl_next_eq {v : CallView} {events : List CallEvent}
    (h : ∀ e ∈ events, v.next id e = v) : events.foldl (next id) v = v := by
  induction events with
  | nil => rfl
  | cons e events ih =>
      obtain ⟨he, hevents⟩ := List.forall_mem_cons.1 h
      rw [List.foldl_cons, he, ih hevents]

end CallView

theorem not_mem_issuedIds_iff {id : RequestId} {events : List CallEvent} :
    id ∉ issuedIds events ↔ ∀ e ∈ events, e.issued? ≠ some id := by
  simp [issuedIds]

theorem exists_issued {id : RequestId} {events : List CallEvent} (h : id ∈ issuedIds events) :
    ∃ before method since, events = before ++ .issued id method :: since := by
  obtain ⟨e, he, hid⟩ := List.mem_filterMap.1 h
  obtain ⟨before, since, hsplit⟩ := List.append_of_mem he
  cases e with
  | issued other method =>
      obtain rfl := Option.some.inj hid
      exact ⟨before, method, since, hsplit⟩
  | _ => cases hid

/-- The first event of a kind. -/
theorem exists_first {f : CallEvent → Bool} {events : List CallEvent}
    (h : ¬ ∀ e ∈ events, f e = false) :
    ∃ earlier e later, events = earlier ++ e :: later ∧ f e = true ∧
      ∀ e ∈ earlier, f e = false := by
  cases hfind : events.find? f with
  | none => exact absurd (fun e he => by simpa using List.find?_eq_none.1 hfind e he) h
  | some e =>
      obtain ⟨he, earlier, later, hevents, hearlier⟩ := List.find?_eq_some_iff_append.1 hfind
      exact ⟨earlier, e, later, hevents, he, fun e he => by simpa using hearlier e he⟩

section Since

open CallView

variable {id : RequestId} {since : List CallEvent} (method : String)
  (hnew : ∀ e ∈ since, e.issued? ≠ some id)

include hnew

theorem fold_undecided (h : Undecided id since) :
    since.foldl (next id) (awaited method) = awaited method :=
  foldl_next_eq fun e he => next_awaited (hnew e he) (h e he)

theorem fold_settled {state : WaiterState} (hstate : state ≠ .waiting) :
    since.foldl (next id) (settled state) = settled state :=
  foldl_next_eq fun e he => next_settled hstate (hnew e he)

theorem fold_givenUp (h : GivenUp id since) :
    since.foldl (next id) (awaited method) = givenUp method := by
  obtain ⟨earlier, m, later, rfl, hearlier, hlater⟩ := h
  simp only [List.forall_mem_append, List.forall_mem_cons] at hnew
  rw [List.foldl_append, List.foldl_cons, fold_undecided method hnew.1 hearlier,
    next_awaited_cancelled]
  exact foldl_next_eq fun e he => next_givenUp (hnew.2.2 e he) (hlater e he)

/-- A call that is decided, and not by being given up with its answer still to come, is over. -/
theorem fold_decided (hdecided : ¬ Undecided id since) (hnot : ¬ GivenUp id since) :
    ∃ state, state ≠ .waiting ∧ since.foldl (next id) (awaited method) = settled state := by
  obtain ⟨earlier, e, later, rfl, he, hearlier⟩ := exists_first hdecided
  simp only [List.forall_mem_append, List.forall_mem_cons] at hnew
  obtain ⟨hnewEarlier, -, hnewLater⟩ := hnew
  rw [List.foldl_append, List.foldl_cons, fold_undecided method hnewEarlier hearlier]
  -- The deciding event settles the call at once, unless it gives it up.
  have hsettled (state : WaiterState) (hstate : state ≠ .waiting)
      (hnext : (awaited method).next id e = settled state) :
      ∃ state, state ≠ .waiting ∧
        later.foldl (next id) ((awaited method).next id e) = settled state :=
    ⟨state, hstate, by rw [hnext, fold_settled hnewLater hstate]⟩
  cases e with
  | issued other m => simp [CallEvent.decides] at he
  | resolved r result =>
      have hid : r.id = some id := by simpa [CallEvent.decides] using he
      exact hsettled (.received r.outcome) nofun (by simp [next, hid, awaited, told, settled])
  | removed other found =>
      have hid : other = id := by simpa [CallEvent.decides] using he
      exact hsettled .closed nofun (by simp [next, hid, awaited, told, settled])
  | abandoned count => exact hsettled .closed nofun (by simp [next, awaited, told, settled])
  | cancelled other m =>
      have hid : other = id := by simpa [CallEvent.decides] using he
      subst hid
      -- The call was given up, so an answer to it has come since, or all calls were abandoned.
      obtain ⟨between, f, rest, rfl, hf, hbetween⟩ := exists_first (f := CallEvent.closes other)
        fun hlater => hnot ⟨earlier, m, later, rfl, hearlier, hlater⟩
      simp only [List.forall_mem_append, List.forall_mem_cons] at hnewLater
      refine ⟨.closed, nofun, ?_⟩
      rw [next_awaited_cancelled, List.foldl_append, List.foldl_cons,
        foldl_next_eq fun e he => next_givenUp (hnewLater.1 e he) (hbetween e he),
        next_givenUp_of_closes hf]
      exact fold_settled hnewLater.2.2 nofun

end Since

/-! ## Numbers are not given twice -/

namespace PendingCalls

theorem issued_perform (p : PendingCalls) (op : CallOp) :
    (p.perform op).2.issued = if op.isIssue then p.issued + 1 else p.issued := by
  cases op with
  | issue method => rfl
  | resolve r =>
      simp only [perform, resolve, CallOp.isIssue]
      split
      · rfl
      · split
        · rfl
        · split <;> rfl
  | cancel id =>
      simp only [perform, cancel, CallOp.isIssue]
      split <;> rfl
  | remove id =>
      simp only [perform, remove, CallOp.isIssue]
      split <;> rfl
  | abandonAll => rfl

theorem issued?_perform (p : PendingCalls) (op : CallOp) :
    (p.perform op).1.issued? = if op.isIssue then some (callId (p.issued + 1)) else none := by
  cases op <;> rfl

theorem issued_after (p : PendingCalls) (ops : List CallOp) :
    (p.after ops).issued = p.issued + issues ops := by
  induction ops generalizing p with
  | nil => rfl
  | cons op ops ih =>
      rw [after, ih, issued_perform, issues, issues, List.countP_cons]
      split <;> omega

/-- Calls are numbered one after the other. -/
theorem issuedIds_events (p : PendingCalls) (ops : List CallOp) :
    issuedIds (p.events ops) = (List.range' (p.issued + 1) (issues ops)).map callId := by
  induction ops generalizing p with
  | nil => rfl
  | cons op ops ih =>
      rw [events, issuedIds, List.filterMap_cons, issued?_perform, issues, List.countP_cons]
      have hrest : List.filterMap CallEvent.issued? ((p.perform op).2.events ops) = _ := ih _
      rw [issued_perform] at hrest
      cases hissue : op.isIssue with
      | true =>
          simp only [hissue, if_true] at hrest ⊢
          rw [hrest, List.range'_succ, List.map_cons]
          rfl
      | false =>
          simp only [hissue, Bool.false_eq_true, if_false] at hrest ⊢
          exact hrest

theorem view_of_not_issued {ops : List CallOp} {id : RequestId}
    (h : id ∉ issuedIds (empty.events ops)) : (empty.after ops).view id = .blank := by
  rw [view_after]
  exact CallView.foldl_next_eq fun e he =>
    CallView.next_blank (not_mem_issuedIds_iff.1 h e he)

section Run

variable {ops : List CallOp} (hfew : issues ops < 9223372036854775807)

include hfew

/-- The ids of a run and the next one are in order. -/
theorem pairwise_issuedIds (method : String) :
    (issuedIds (empty.events ops) ++ [((empty.after ops).issue method).1]).Pairwise
      RequestId.Precedes := by
  have hnext : ((empty.after ops).issue method).1 = callId (issues ops + 1) := by
    have hissued : (empty.after ops).issued = issues ops :=
      (issued_after empty ops).trans (Nat.zero_add _)
    rw [← hissued]
    rfl
  have hall : issuedIds (empty.events ops) ++ [((empty.after ops).issue method).1] =
      (List.range' 1 (issues ops + 1)).map callId := by
    rw [issuedIds_events, hnext, List.range'_concat, List.map_append]
    simp [empty, Nat.add_comm]
  rw [hall, List.pairwise_map]
  refine List.Pairwise.imp_of_mem ?_ List.pairwise_lt_range'
  intro m n _ hn hmn
  exact callId_precedes hmn (by simp at hn; omega)

theorem nodup_issuedIds : (issuedIds (empty.events ops)).Nodup := by
  have h := List.pairwise_append.1 (pairwise_issuedIds hfew "")
  exact h.1.imp RequestId.Precedes.ne

variable {before since : List CallEvent} {id : RequestId} {method : String}

/-- What is known of a call is told by what happened since it was made. -/
theorem view_of_issued (h : empty.events ops = before ++ .issued id method :: since) :
    (∀ e ∈ since, e.issued? ≠ some id) ∧
      (empty.after ops).view id = since.foldl (CallView.next id) (.awaited method) := by
  have hids : issuedIds (empty.events ops) = issuedIds before ++ id :: issuedIds since := by
    rw [h, issuedIds, List.filterMap_append]
    rfl
  have hnodup := nodup_issuedIds hfew
  rw [hids, List.nodup_append, List.nodup_cons] at hnodup
  obtain ⟨-, ⟨hsince, -⟩, hbefore⟩ := hnodup
  have hfirst : id ∉ issuedIds before := fun hid => hbefore id hid id (by simp) rfl
  refine ⟨not_mem_issuedIds_iff.1 hsince, ?_⟩
  have hblank : before.foldl (CallView.next id) .blank = .blank :=
    CallView.foldl_next_eq fun e he =>
      CallView.next_blank (not_mem_issuedIds_iff.1 hfirst e he)
  rw [view_after, h, List.foldl_append, List.foldl_cons]
  change since.foldl _ ((before.foldl (CallView.next id) .blank).next id _) = _
  rw [hblank]
  simp [CallView.next, CallView.blank, CallView.awaited]

/-- In which state each call can be. -/
theorem view_cases (id : RequestId) :
    (empty.after ops).view id = .blank ∨
      ∃ method, (empty.after ops).view id = .awaited method ∨
        (empty.after ops).view id = .givenUp method ∨
        ∃ state, state ≠ .waiting ∧ (empty.after ops).view id = .settled state := by
  by_cases hid : id ∈ issuedIds (empty.events ops)
  · obtain ⟨before, method, since, hsplit⟩ := exists_issued hid
    obtain ⟨hnew, hview⟩ := view_of_issued hfew hsplit
    rw [hview]
    refine .inr ⟨method, ?_⟩
    by_cases hundecided : Undecided id since
    · exact .inl (fold_undecided method hnew hundecided)
    · by_cases hgiven : GivenUp id since
      · exact .inr (.inl (fold_givenUp method hnew hgiven))
      · exact .inr (.inr (fold_decided method hnew hundecided hgiven))
  · exact .inl (view_of_not_issued hid)

end Run

/-! ## What waiters are told -/

section Resolve

variable {p : PendingCalls} {r : Response} {id : RequestId} {method : String}

theorem resolve_of_entry (hid : r.id = some id) (hentry : p.entries.lookup id = some method) :
    p.resolve r = (.ok method, (p.eraseEntry id).settle id (.received r.outcome)) := by
  simp [resolve, hid, hentry]

theorem resolve_of_cancelled (hid : r.id = some id) (hentry : p.entries.lookup id = none)
    (hcancelled : p.cancelled.lookup id = some method) :
    p.resolve r = (.error (.cancelled id method),
      { p with cancelled := p.cancelled.filter fun entry => entry.1 ≠ id }) := by
  simp [resolve, hid, hentry, hcancelled]

theorem resolve_of_unknown (h : ∀ id, r.id = some id →
    p.entries.lookup id = none ∧ p.cancelled.lookup id = none) :
    p.resolve r = (.error (.unknownId r.id), p) := by
  cases hid : r.id with
  | none => simp [resolve, hid]
  | some id =>
      obtain ⟨hentry, hcancelled⟩ := h id hid
      simp [resolve, hid, hentry, hcancelled]

theorem resolve_eq_ok_iff (hid : r.id = some id) :
    (p.resolve r).1 = .ok method ↔ p.entries.lookup id = some method := by
  cases hentry : p.entries.lookup id with
  | some m => simp [resolve_of_entry hid hentry]
  | none =>
      cases hcancelled : p.cancelled.lookup id with
      | some m => simp [resolve_of_cancelled hid hentry hcancelled]
      | none => simp [resolve, hid, hentry, hcancelled]

end Resolve

/-- A response is delivered exactly if its call is in the table. -/
theorem delivered?_perform {p : PendingCalls} {op : CallOp} {id : RequestId} {outcome : Outcome} :
    (p.perform op).1.delivered? = some (id, outcome) ↔
      ∃ r, op = .resolve r ∧ r.id = some id ∧ r.outcome = outcome ∧
        (p.view id).entry.isSome = true := by
  cases op with
  | resolve r =>
      constructor
      · intro h
        cases hresult : (p.resolve r).1 with
        | error fault => simp [perform, hresult, CallEvent.delivered?] at h
        | ok method =>
            simp only [perform, hresult, CallEvent.delivered?, Option.map_eq_some_iff,
              Prod.mk.injEq] at h
            obtain ⟨_, hid, rfl, houtcome⟩ := h
            exact ⟨r, rfl, hid, houtcome, Option.isSome_of_mem ((resolve_eq_ok_iff hid).1 hresult)⟩
      · rintro ⟨_, hop, hid, rfl, hentry⟩
        obtain rfl := CallOp.resolve.inj hop
        obtain ⟨method, hmethod⟩ := Option.isSome_iff_exists.1 hentry
        simp [perform, (resolve_eq_ok_iff hid).2 hmethod, CallEvent.delivered?, hid]
  | _ => simp [perform, CallEvent.delivered?]

/-- One operation tells a waiter nothing but what it delivers to it. -/
theorem waiter?_perform {p : PendingCalls} {id : RequestId} {outcome : Outcome}
    (hwaits : (p.view id).entry.isSome = true → p.waiter? id = some .waiting) (op : CallOp) :
    (p.perform op).2.waiter? id = some (.received outcome) ↔
      p.waiter? id = some (.received outcome) ∨
        (p.perform op).1.delivered? = some (id, outcome) := by
  have hview : (p.perform op).2.waiter? id = ((p.view id).next id (p.perform op).1).waiter :=
    congrArg CallView.waiter (p.view_perform op id)
  have hclosed : (p.view id).told .closed = some (.received outcome) ↔
      p.waiter? id = some (.received outcome) := by
    change Option.map _ (p.waiter? id) = _ ↔ _
    cases p.waiter? id with
    | none => simp
    | some w => cases w <;> simp
  rw [hview, delivered?_perform]
  cases op with
  | issue method =>
      simp only [perform, CallView.next]
      split
      · cases hwaiter : p.waiter? id with
        | none => simp [hwaiter]
        | some w => simp [hwaiter]
      · simp
  | resolve r =>
      by_cases hid : r.id = some id
      · cases hentry : (p.view id).entry.isSome with
        | true =>
            -- The waiter of a call in the table waits, and is told the outcome.
            simp [perform, CallView.next, hid, hentry, CallView.told, hwaits hentry]
        | false => simp [perform, CallView.next, hid, hentry]
      · simp [perform, CallView.next, hid]
  | cancel other =>
      simp only [perform, CallView.next]
      split
      · split
        · simpa using hclosed
        · simp
      · simp
  | remove other =>
      simp only [perform, CallView.next]
      split
      · simpa using hclosed
      · simp
  | abandonAll => simpa [perform, CallView.next] using hclosed

/-- Waiters know what was delivered to them, and nothing was delivered twice. -/
structure Told (history : List CallEvent) (p : PendingCalls) : Prop where
  received : ∀ id outcome,
    p.waiter? id = some (.received outcome) ↔ (id, outcome) ∈ deliveries history
  once : ((deliveries history).map Prod.fst).Nodup

theorem told_empty : Told [] (empty.after []) :=
  ⟨by simp [after, empty, waiter?, deliveries], by simp [deliveries]⟩

theorem Told.perform {history : List CallEvent} {p : PendingCalls} (h : Told history p)
    (hwaits : ∀ id, (p.view id).entry.isSome = true → p.waiter? id = some .waiting)
    (op : CallOp) : Told (history ++ [(p.perform op).1]) (p.perform op).2 := by
  have hdeliveries : deliveries (history ++ [(p.perform op).1]) =
      deliveries history ++ (p.perform op).1.delivered?.toList := by
    rw [deliveries, List.filterMap_append, List.filterMap_cons, List.filterMap_nil]
    cases (p.perform op).1.delivered? <;> rfl
  constructor
  · intro id outcome
    rw [waiter?_perform (hwaits id), h.received, hdeliveries, List.mem_append, Option.mem_toList]
  · rw [hdeliveries]
    cases hdelivered : (p.perform op).1.delivered? with
    | none => simpa using h.once
    | some delivery =>
        obtain ⟨id, outcome⟩ := delivery
        obtain ⟨r, -, -, -, hentry⟩ := delivered?_perform.1 hdelivered
        -- The waiter still waits, so nothing was delivered to it before.
        have hfirst : id ∉ (deliveries history).map Prod.fst := by
          intro hmem
          obtain ⟨⟨_, earlier⟩, hearlier, rfl⟩ := List.mem_map.1 hmem
          have hreceived := (h.received _ earlier).2 hearlier
          rw [hwaits _ hentry] at hreceived
          cases hreceived
        rw [Option.toList_some, List.map_append, List.nodup_append]
        refine ⟨h.once, by simp, ?_⟩
        intro a ha b hb
        obtain rfl : b = id := by simpa using hb
        exact fun hab => hfirst (hab ▸ ha)

theorem after_append (p : PendingCalls) (ops later : List CallOp) :
    p.after (ops ++ later) = (p.after ops).after later := by
  induction ops generalizing p with
  | nil => rfl
  | cons op ops ih => exact ih _

/-- A call in the table has a waiter that waits. -/
theorem waits_of_entry {ops : List CallOp} (hfew : issues ops < 9223372036854775807)
    {id : RequestId} (hentry : ((empty.after ops).view id).entry.isSome = true) :
    (empty.after ops).waiter? id = some .waiting := by
  change ((empty.after ops).view id).waiter = _
  rcases view_cases hfew id with hview | ⟨method, hview | hview | ⟨state, -, hview⟩⟩
  · rw [hview] at hentry
    cases hentry
  · rw [hview]
    rfl
  · rw [hview] at hentry
    cases hentry
  · rw [hview] at hentry
    cases hentry

theorem Told.run {history : List CallEvent} {earlier : List CallOp}
    (h : Told history (empty.after earlier)) (ops : List CallOp)
    (hfew : issues (earlier ++ ops) < 9223372036854775807) :
    Told (history ++ (empty.after earlier).events ops) (empty.after (earlier ++ ops)) := by
  induction ops generalizing history earlier with
  | nil => simpa [events] using h
  | cons op ops ih =>
      have hbefore : issues earlier < 9223372036854775807 := by
        rw [issues, List.countP_append] at hfew
        exact Nat.lt_of_le_of_lt (Nat.le_add_right _ _) hfew
      have hstep := h.perform (fun id => waits_of_entry hbefore) op
      have hafter : empty.after (earlier ++ [op]) = ((empty.after earlier).perform op).2 :=
        after_append empty earlier [op]
      rw [← hafter] at hstep
      have hrun := ih hstep (by simpa using hfew)
      simpa [hafter, events] using hrun

/-! ## All calls -/

section Calls

variable {ops : List CallOp} (hfew : issues ops < 9223372036854775807)

include hfew

theorem not_mem_cancelled {id : RequestId} (h : id ∈ (empty.after ops).entries.map Prod.fst) :
    id ∉ (empty.after ops).cancelled.map Prod.fst := by
  intro hcancelled
  rw [mem_keys_iff] at h hcancelled
  rcases view_cases hfew id with hview | ⟨method, hview | hview | ⟨state, -, hview⟩⟩
  · exact h (congrArg CallView.entry hview)
  · exact hcancelled (congrArg CallView.cancelled hview)
  · exact h (congrArg CallView.entry hview)
  · exact h (congrArg CallView.entry hview)

/-- Calls that the table knows have been made. -/
theorem precedes_issue {id : RequestId}
    (h : id ∈ (empty.after ops).entries.map Prod.fst ++ (empty.after ops).cancelled.map Prod.fst)
    (method : String) : id.Precedes ((empty.after ops).issue method).1 := by
  rw [List.mem_append, mem_keys_iff, mem_keys_iff] at h
  have hissued : id ∈ issuedIds (empty.events ops) := by
    refine Decidable.byContradiction fun hnot => ?_
    have hview := view_of_not_issued hnot
    rcases h with hentry | hcancelled
    · exact hentry (congrArg CallView.entry hview)
    · exact hcancelled (congrArg CallView.cancelled hview)
  have hordered := List.pairwise_append.1 (pairwise_issuedIds hfew method)
  exact hordered.2.2 id hissued _ (List.mem_singleton.2 rfl)

variable {before since : List CallEvent} {id : RequestId} {method : String}
  (hsplit : empty.events ops = before ++ .issued id method :: since) {r : Response}
  (hid : r.id = some id)

include hsplit hid

theorem resolve_of_undecided (h : Undecided id since) :
    ((empty.after ops).resolve r).1 = .ok method ∧
      (empty.after ops).waiter? id = some .waiting ∧
      ∀ other, ((empty.after ops).resolve r).2.waiter? other =
        if other = id then some (.received r.outcome) else (empty.after ops).waiter? other := by
  obtain ⟨hnew, hview⟩ := view_of_issued hfew hsplit
  rw [fold_undecided method hnew h] at hview
  have hentry : (empty.after ops).entries.lookup id = some method := congrArg CallView.entry hview
  have hwaiter : (empty.after ops).waiter? id = some .waiting := congrArg CallView.waiter hview
  rw [resolve_of_entry hid hentry]
  refine ⟨rfl, hwaiter, fun other => ?_⟩
  have hclose := congrArg CallView.waiter
    (view_close (empty.after ops) id (.received r.outcome) other)
  rw [waiter_view] at hclose
  rw [hclose]
  by_cases hother : other = id
  · subst hother
    simp [CallView.told, hwaiter]
  · simp [hother]

theorem resolve_of_givenUp (h : GivenUp id since) :
    ((empty.after ops).resolve r).1 = .error (.cancelled id method) ∧
      ((empty.after ops).resolve r).2.waiters = (empty.after ops).waiters := by
  obtain ⟨hnew, hview⟩ := view_of_issued hfew hsplit
  rw [fold_givenUp method hnew h] at hview
  have hentry : (empty.after ops).entries.lookup id = none := congrArg CallView.entry hview
  have hcancelled : (empty.after ops).cancelled.lookup id = some method :=
    congrArg CallView.cancelled hview
  rw [resolve_of_cancelled hid hentry hcancelled]
  exact ⟨rfl, rfl⟩

theorem resolve_of_decided (hdecided : ¬ Undecided id since) (hnot : ¬ GivenUp id since) :
    (empty.after ops).resolve r = (.error (.unknownId (some id)), empty.after ops) := by
  obtain ⟨hnew, hview⟩ := view_of_issued hfew hsplit
  obtain ⟨state, -, hover⟩ := fold_decided method hnew hdecided hnot
  rw [hover] at hview
  rw [← hid]
  refine resolve_of_unknown fun key hkey => ?_
  obtain rfl : id = key := Option.some.inj (hid.symm.trans hkey)
  exact ⟨congrArg CallView.entry hview, congrArg CallView.cancelled hview⟩

end Calls

theorem resolve_of_not_issued {ops : List CallOp} {r : Response}
    (h : ∀ id, r.id = some id → id ∉ issuedIds (empty.events ops)) :
    (empty.after ops).resolve r = (.error (.unknownId r.id), empty.after ops) := by
  refine resolve_of_unknown fun id hid => ?_
  have hview := view_of_not_issued (h id hid)
  exact ⟨congrArg CallView.entry hview, congrArg CallView.cancelled hview⟩

/-- **What becomes of calls.** In every run with fewer calls than there are numbers:

* calls get greater and greater numbers, and the calls in the table and those given up are different
  ones with numbers below the next;
* a response to a call that nothing has decided since it was made is delivered to its waiter, which
  still waits, and to no other;
* a response to a call that was decided by being given up is known to be late, if it is the first
  and the calls have not been abandoned;
* any other response, be it to a call or to none, is unknown and changes nothing;
* waiters have received exactly what was delivered to them, and nothing was delivered twice. -/
theorem run_callFates (ops : List CallOp) (hfew : issues ops < 9223372036854775807) :
    let p := empty.after ops
    let history := empty.events ops
    (∀ method, (issuedIds history ++ [(p.issue method).1]).Pairwise RequestId.Precedes) ∧
    (∀ id ∈ p.entries.map Prod.fst, id ∉ p.cancelled.map Prod.fst) ∧
    (∀ id ∈ p.entries.map Prod.fst ++ p.cancelled.map Prod.fst,
      ∀ method, id.Precedes (p.issue method).1) ∧
    (∀ before id method since, history = before ++ .issued id method :: since →
      ∀ r : Response, r.id = some id →
        (Undecided id since → (p.resolve r).1 = .ok method ∧ p.waiter? id = some .waiting ∧
          ∀ other, (p.resolve r).2.waiter? other =
            if other = id then some (.received r.outcome) else p.waiter? other) ∧
        (GivenUp id since → (p.resolve r).1 = .error (.cancelled id method) ∧
          (p.resolve r).2.waiters = p.waiters) ∧
        (¬ Undecided id since → ¬ GivenUp id since →
          p.resolve r = (.error (.unknownId (some id)), p))) ∧
    (∀ r : Response, (∀ id, r.id = some id → id ∉ issuedIds history) →
      p.resolve r = (.error (.unknownId r.id), p)) ∧
    ((deliveries history).map Prod.fst).Nodup ∧
    ∀ id outcome, p.waiter? id = some (.received outcome) ↔ (id, outcome) ∈ deliveries history := by
  intro p history
  have htold : Told history p := told_empty.run ops hfew
  refine ⟨pairwise_issuedIds hfew, fun id => not_mem_cancelled hfew,
    fun id => precedes_issue hfew, ?_, fun r => resolve_of_not_issued, htold.once, htold.received⟩
  intro before id method since hsplit r hid
  exact ⟨resolve_of_undecided hfew hsplit hid, resolve_of_givenUp hfew hsplit hid,
    resolve_of_decided hfew hsplit hid⟩

/-- Two calls are made, the first is given up, and then comes a response to a text, which is not the
second call although it reads like it. -/
def troubledRun : List CallOp :=
  [.issue "a", .issue "b", .cancel (callId 1), .resolve ⟨some (.text "2"), .result .null⟩]

/-- The second call is still answered, and the first one late; a text stays unknown. -/
theorem troubledRun_callFates :
    let p := empty.after troubledRun
    (p.resolve ⟨some (callId 2), .result (.int 5)⟩).1 = .ok "b" ∧
    (p.resolve ⟨some (callId 1), .result (.int 5)⟩).1 = .error (.cancelled (callId 1) "a") ∧
    p.resolve ⟨some (.text "2"), .result (.int 5)⟩ =
      (.error (.unknownId (some (.text "2"))), p) := by
  intro p
  obtain ⟨-, -, -, hissued, hunknown, -, -⟩ := run_callFates troubledRun (by decide)
  have hfirst := hissued [] (callId 1) "a" _ rfl ⟨some (callId 1), .result (.int 5)⟩ rfl
  have hsecond := hissued [.issued (callId 1) "a"] (callId 2) "b" _ rfl
    ⟨some (callId 2), .result (.int 5)⟩ rfl
  refine ⟨(hsecond.1 ?_).1, (hfirst.2.1 ?_).1, hunknown _ ?_⟩
  · unfold Undecided
    decide
  · refine ⟨[.issued (callId 2) "b"], some "a", _, rfl, ?_, ?_⟩
    · unfold Undecided
      decide
    · decide
  · rintro id ⟨⟩
    decide

end PendingCalls

end LanguageServer
