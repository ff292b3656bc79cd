import LanguageServer.Client.Call
import LanguageServer.Proofs.Client.Fates

set_option autoImplicit false

/-! # Calls under way

Any number of calls share one line and one table. They take their steps in any order, and between
any two steps a response may come, time may pass, the line may be closed, or the connection may end.
Here are the runs of such an exchange and what holds of all calls together: no two calls that are
under way have the same number, and what is in the table belongs to one of them (`Exchange.Sound`).
What becomes of a single call is in `LanguageServer.Proofs.Client.Endings`. -/

namespace LanguageServer

/-! ## Runs -/

/-- The number of a call that can be in the table. -/
def CallStage.pending? : CallStage → Option RequestId
  | .issued id | .unsent id | .sent id | .waiting id _ | .expired id => some id
  | .planned | .withdrawn _ | .ended _ => none

/-- The number of a call that is under way. -/
def CallStage.id? : CallStage → Option RequestId
  | .issued id | .unsent id | .sent id | .waiting id _ | .expired id | .withdrawn id => some id
  | .planned | .ended _ => none

namespace OngoingCall

/-- Whether a call has got a number. -/
def isNumbered (o : OngoingCall) : Bool := o.stage ≠ .planned

/-- What the next step of a call does to the table. -/
def op? (o : OngoingCall) : Option CallOp :=
  match o.stage with
  | .planned => some (.issue o.call.method)
  | .unsent id => some (.remove id)
  | .expired id => some (.cancel id)
  | _ => none

/-- What the next step of a call sends. -/
def speech (l : Link) (o : OngoingCall) : List Message :=
  if l.writerOpen then
    match o.stage with
    | .issued id => [.request ⟨id, o.call.method, o.call.params⟩]
    | .withdrawn id => [Link.cancellation id]
    | _ => []
  else []

end OngoingCall

/-- Calls on one line, in the order in which they were begun. -/
structure Exchange where
  link : Link
  calls : List OngoingCall

/-- Something that happens in an exchange. No call is given up by whoever made it. -/
inductive ExchangeEvent where
  /-- A call is begun. -/
  | begun (call : Call)
  /-- A call takes its next step. -/
  | step (index : Nat)
  /-- A response comes, to whatever call. -/
  | response (r : Response)
  /-- Something else is sent. -/
  | message (m : Message)
  | tick (milliseconds : Nat)
  /-- A message is written. -/
  | writer
  /-- The client takes no more messages. -/
  | outputClosed
  /-- Nothing can be sent any more. -/
  | writerClosed
  /-- The connection ends, and all calls are abandoned. -/
  | abandoned
deriving DecidableEq, Repr, Inhabited

/-- Whether an event decides a call from outside: its response comes, or all calls are abandoned. -/
def ExchangeEvent.rules (id : RequestId) : ExchangeEvent → Bool
  | .response r => r.id = some id
  | .abandoned => true
  | _ => false

namespace Exchange

def fresh : Exchange := ⟨.fresh, []⟩

/-- What an event does, where calls may wait so many milliseconds. -/
def perform (timeout : Nat) (x : Exchange) : ExchangeEvent → Exchange
  | .begun call => ⟨(OngoingCall.plan call x.link).2, x.calls ++ [(OngoingCall.plan call x.link).1]⟩
  | .step index =>
    let moved := OngoingCall.atIndex (OngoingCall.step timeout) index x.calls x.link
    ⟨moved.2, moved.1⟩
  | .response r => { x with link := x.link.resolve r }
  | .message m => { x with link := x.link.post m }
  | .tick milliseconds => { x with link := { x.link with clock := x.link.clock + milliseconds } }
  | .writer => { x with link := x.link.writeNext }
  | .outputClosed => { x with link := { x.link with outputOpen := false } }
  | .writerClosed => { x with link := { x.link with writerOpen := false } }
  | .abandoned => { x with link := x.link.abandon }

def run (timeout : Nat) (x : Exchange) : List ExchangeEvent → Exchange
  | [] => x
  | e :: rest => (x.perform timeout e).run timeout rest

/-- What the calls themselves send at an event. -/
def spoken (timeout : Nat) (x : Exchange) (e : ExchangeEvent) : List Message :=
  match e with
  | .step _ => (x.perform timeout e).link.outbox.drop x.link.outbox.length
  | _ => []

/-- What the calls themselves send in a run. -/
def said (timeout : Nat) (x : Exchange) : List ExchangeEvent → List Message
  | [] => []
  | e :: rest => x.spoken timeout e ++ (x.perform timeout e).said timeout rest

theorem run_append (timeout : Nat) (x : Exchange) (events more : List ExchangeEvent) :
    x.run timeout (events ++ more) = (x.run timeout events).run timeout more := by
  induction events generalizing x with
  | nil => rfl
  | cons e rest ih => exact ih _

theorem run_concat (timeout : Nat) (x : Exchange) (events : List ExchangeEvent)
    (e : ExchangeEvent) :
    x.run timeout (events ++ [e]) = (x.run timeout events).perform timeout e :=
  run_append timeout x events [e]

theorem said_append (timeout : Nat) (x : Exchange) (events more : List ExchangeEvent) :
    x.said timeout (events ++ more) =
      x.said timeout events ++ (x.run timeout events).said timeout more := by
  induction events generalizing x with
  | nil => rfl
  | cons e rest ih => rw [List.cons_append, said, said, ih, List.append_assoc, run]

theorem said_concat (timeout : Nat) (x : Exchange) (events : List ExchangeEvent)
    (e : ExchangeEvent) :
    x.said timeout (events ++ [e]) =
      x.said timeout events ++ (x.run timeout events).spoken timeout e := by
  rw [said_append, said, said, List.append_nil]

end Exchange

/-! ## One step of one call -/

theorem PendingCalls.entry_remove (p : PendingCalls) (id : RequestId) :
    ((p.remove id).2.view id).entry = none := by
  rw [view_remove, CallView.next]
  cases hentry : (p.view id).entry with
  | none => simp [hentry]
  | some method => simp

theorem PendingCalls.entry_cancel (p : PendingCalls) (id : RequestId) :
    ((p.cancel id).2.view id).entry = none := by
  rw [view_cancel, CallView.next, if_pos rfl]
  cases hentry : (p.view id).entry with
  | none => exact hentry
  | some method => rfl

section Step

variable (timeout : Nat) (o : OngoingCall) (l : Link)

theorem OngoingCall.pending_step : (o.step timeout l).2.pending =
    match o.op? with
    | some op => (l.pending.perform op).2
    | none => l.pending := by
  obtain ⟨call, limit, stage⟩ := o
  cases stage with
  | issued id =>
      simp only [step, op?, Link.send]
      split <;> rfl
  | waiting id timer =>
      simp only [step, op?]
      split
      · rfl
      · rfl
      · rfl
      · split <;> rfl
  | expired id =>
      simp only [step, op?, PendingCalls.perform]
      split <;> rfl
  | withdrawn id =>
      simp only [step, op?, Link.post, Link.send]
      split <;> rfl
  | _ => rfl

theorem OngoingCall.outbox_step :
    (o.step timeout l).2.outbox = l.outbox ++ o.speech l := by
  obtain ⟨call, limit, stage⟩ := o
  cases stage with
  | issued id =>
      simp only [step, speech, Link.send]
      split <;> simp
  | waiting id timer =>
      simp only [step, speech]
      split
      · simp
      · simp
      · simp
      · split <;> simp
  | expired id =>
      simp only [step, speech]
      split <;> simp
  | withdrawn id =>
      simp only [step, speech, Link.post, Link.send]
      split <;> simp
  | _ => simp [step, speech, Link.setTimer]

/-- After its first step a call has a number or has ended. -/
theorem OngoingCall.planned_step : (o.step timeout l).1.stage ≠ .planned := by
  obtain ⟨call, limit, stage⟩ := o
  cases stage with
  | issued id =>
      simp only [step]
      split <;> nofun
  | waiting id timer =>
      simp only [step]
      split
      · nofun
      · nofun
      · nofun
      · split <;> nofun
  | expired id =>
      simp only [step]
      split <;> nofun
  | _ => nofun

theorem OngoingCall.call_step : (o.step timeout l).1.call = o.call := by
  obtain ⟨call, limit, stage⟩ := o
  cases stage with
  | waiting id timer =>
      simp only [step]
      split
      · rfl
      · rfl
      · rfl
      · split <;> rfl
  | expired id =>
      simp only [step]
      split <;> rfl
  | _ => rfl

variable {timeout o l} {id : RequestId}

/-- A call gets its number at its first step and keeps it. -/
theorem OngoingCall.id?_step (h : (o.step timeout l).1.stage.id? = some id) :
    (o.stage ≠ .planned ∧ o.stage.id? = some id) ∨
      (o.stage = .planned ∧ id = callId (l.pending.issued + 1)) := by
  obtain ⟨call, limit, stage⟩ := o
  cases stage with
  | planned => exact .inr ⟨rfl, (Option.some.inj h).symm⟩
  | issued key =>
      simp only [step] at h
      refine .inl ⟨nofun, ?_⟩
      split at h <;> exact h
  | waiting key timer =>
      simp only [step] at h
      refine .inl ⟨nofun, ?_⟩
      split at h
      · cases h
      · cases h
      · cases h
      · split at h <;> exact h
  | expired key =>
      simp only [step] at h
      refine .inl ⟨nofun, ?_⟩
      split at h
      · exact h
      · cases h
  | sent key => exact .inl ⟨nofun, h⟩
  | _ => cases h

/-- A call that stays in the table stays on its way. -/
theorem OngoingCall.pending?_step (hid : o.stage.pending? = some id)
    (hwaits : l.pending.waiter? id = some .waiting)
    (hentry : ((o.step timeout l).2.pending.view id).entry ≠ none) :
    (o.step timeout l).1.stage.pending? = some id := by
  rw [pending_step] at hentry
  obtain ⟨call, limit, stage⟩ := o
  cases stage with
  | issued key =>
      simp only [step]
      split <;> exact hid
  | sent key => exact hid
  | waiting key timer =>
      obtain rfl : key = id := Option.some.inj hid
      simp only [step, hwaits]
      split <;> rfl
  | unsent key =>
      obtain rfl : key = id := Option.some.inj hid
      exact absurd (l.pending.entry_remove key) hentry
  | expired key =>
      obtain rfl : key = id := Option.some.inj hid
      exact absurd (l.pending.entry_cancel key) hentry
  | _ => cases hid

end Step

namespace Exchange

variable {timeout : Nat} {x : Exchange} {index : Nat} {o : OngoingCall}

theorem perform_step (h : x.calls[index]? = some o) :
    x.perform timeout (.step index) =
      ⟨(o.step timeout x.link).2, x.calls.set index (o.step timeout x.link).1⟩ := by
  simp [perform, OngoingCall.atIndex, h]

theorem perform_step_none (h : x.calls[index]? = none) : x.perform timeout (.step index) = x := by
  simp [perform, OngoingCall.atIndex, h]

/-- The call that takes a step. -/
theorem calls_perform_step (h : x.calls[index]? = some o) :
    (x.perform timeout (.step index)).calls[index]? = some (o.step timeout x.link).1 := by
  rw [perform_step h]
  obtain ⟨hlt, -⟩ := List.getElem?_eq_some_iff.1 h
  simp [hlt]

/-- No call is changed but by a step of its own. -/
theorem calls_perform_of_ne {e : ExchangeEvent} (he : e ≠ .step index)
    (h : x.calls[index]? = some o) : (x.perform timeout e).calls[index]? = some o := by
  cases e with
  | begun call => exact List.getElem?_append_left (List.getElem?_eq_some_iff.1 h).1 ▸ h
  | step other =>
      have hother : other ≠ index := fun heq => he (congrArg _ heq)
      cases hfound : x.calls[other]? with
      | none => rw [perform_step_none hfound, h]
      | some o' => rw [perform_step hfound, List.getElem?_set_ne hother, h]
  | _ => exact h

/-- A call after an event is one from before, a new one, or one that has taken a step. -/
theorem calls_perform_cases {e : ExchangeEvent} (h : (x.perform timeout e).calls[index]? = some o) :
    x.calls[index]? = some o ∨ o.stage = .planned ∨
      ∃ o', e = .step index ∧ x.calls[index]? = some o' ∧ o = (o'.step timeout x.link).1 := by
  cases e with
  | begun call =>
      simp only [perform, List.getElem?_append] at h
      split at h
      · exact .inl h
      · right; left
        rw [List.mem_singleton.1 (List.mem_of_getElem? h), OngoingCall.plan]
        split <;> rfl
  | step other =>
      cases hfound : x.calls[other]? with
      | none =>
          rw [perform_step_none hfound] at h
          exact .inl h
      | some o' =>
          rw [perform_step hfound, List.getElem?_set] at h
          by_cases hother : other = index
          · subst hother
            rw [if_pos rfl, if_pos (List.getElem?_eq_some_iff.1 hfound).1] at h
            exact .inr (.inr ⟨o', rfl, hfound, (Option.some.inj h).symm⟩)
          · rw [if_neg hother] at h
            exact .inl h
  | _ => exact .inl h

theorem calls_run_of_not_mem {events : List ExchangeEvent} (hnot : .step index ∉ events)
    (h : x.calls[index]? = some o) : (x.run timeout events).calls[index]? = some o := by
  induction events generalizing x with
  | nil => exact h
  | cons e rest ih =>
      obtain ⟨he, hrest⟩ := List.ne_and_not_mem_of_not_mem_cons hnot
      exact ih hrest (calls_perform_of_ne he.symm h)

/-- A call that has ended stays as it is. -/
theorem calls_run_of_ended {result : CallResult} (hresult : o.stage = .ended result)
    (h : x.calls[index]? = some o) (events : List ExchangeEvent) :
    (x.run timeout events).calls[index]? = some o := by
  induction events generalizing x with
  | nil => exact h
  | cons e rest ih =>
      refine ih ?_
      by_cases hstep : e = .step index
      · rw [hstep, calls_perform_step h]
        simp [OngoingCall.step, hresult]
      · exact calls_perform_of_ne hstep h

theorem spoken_step (h : x.calls[index]? = some o) :
    x.spoken timeout (.step index) = o.speech x.link := by
  rw [spoken, perform_step h, OngoingCall.outbox_step, List.drop_left]

theorem spoken_step_none (h : x.calls[index]? = none) : x.spoken timeout (.step index) = [] := by
  rw [spoken, perform_step_none h, List.drop_length]

/-- Whatever is said in a run is said by a call at one of its steps. -/
theorem exists_speech {m : Message} {events : List ExchangeEvent} (h : m ∈ x.said timeout events) :
    ∃ earlier index later o, events = earlier ++ .step index :: later ∧
      (x.run timeout earlier).calls[index]? = some o ∧
      m ∈ o.speech (x.run timeout earlier).link := by
  induction events generalizing x with
  | nil => cases h
  | cons e rest ih =>
      rcases List.mem_append.1 h with h | h
      · cases e with
        | step index =>
            cases hfound : x.calls[index]? with
            | none =>
                rw [spoken_step_none hfound] at h
                cases h
            | some o =>
                rw [spoken_step hfound] at h
                exact ⟨[], index, rest, o, rfl, hfound, h⟩
        | _ => cases h
      · obtain ⟨earlier, index, later, o, rfl, ho, hm⟩ := ih h
        exact ⟨e :: earlier, index, later, o, rfl, ho, hm⟩

/-- What an event does to the table. -/
def op? (x : Exchange) : ExchangeEvent → Option CallOp
  | .step index => x.calls[index]?.bind OngoingCall.op?
  | .response r => some (.resolve r)
  | .abandoned => some .abandonAll
  | _ => none

theorem pending_perform (timeout : Nat) (x : Exchange) (e : ExchangeEvent) :
    (x.perform timeout e).link.pending =
      match x.op? e with
      | some op => (x.link.pending.perform op).2
      | none => x.link.pending := by
  cases e with
  | begun call =>
      simp only [perform, op?, OngoingCall.plan]
      split <;> rfl
  | step index =>
      cases hfound : x.calls[index]? with
      | none => simp [perform_step_none hfound, op?, hfound]
      | some o => simp [perform_step hfound, op?, hfound, OngoingCall.pending_step]
  | message m =>
      simp only [perform, op?, Link.post, Link.send]
      split <;> rfl
  | writer =>
      simp only [perform, op?, Link.writeNext]
      split
      · rfl
      · split <;> rfl
  | _ => rfl

/-- What an event makes of what the table knows of one call. -/
theorem view_perform (timeout : Nat) (x : Exchange) (e : ExchangeEvent) (id : RequestId) :
    (x.perform timeout e).link.pending.view id =
      match x.op? e with
      | some op => (x.link.pending.view id).next id (x.link.pending.perform op).1
      | none => x.link.pending.view id := by
  rw [pending_perform]
  split
  · exact PendingCalls.view_perform _ _ id
  · rfl

end Exchange

/-- An event that neither makes nor decides a call leaves what is known of it. -/
theorem CallView.next_of_elsewhere {id : RequestId} {e : CallEvent} (hnew : e.issued? ≠ some id)
    (hopen : e.decides id = false) (v : CallView) : v.next id e = v := by
  cases e with
  | issued other m => exact next_issued_of_ne hnew v
  | resolved r result => simp_all [next, CallEvent.decides]
  | cancelled other m => simp_all [next, CallEvent.decides]
  | removed other found => simp_all [next, CallEvent.decides]
  | abandoned count => simp [CallEvent.decides] at hopen

/-- Only the making of a call enters it in the table. -/
theorem CallView.entry_next {id : RequestId} {e : CallEvent} {v : CallView}
    (hnew : e.issued? ≠ some id) (h : v.entry = none) : (v.next id e).entry = none := by
  cases e with
  | issued other m => rw [next_issued_of_ne hnew, h]
  | resolved r result =>
      simp only [next, h]
      split <;> simp_all
  | cancelled other m =>
      simp only [next, h]
      split <;> simp_all
  | removed other found => simp [next, h]
  | abandoned count => rfl

/-! ## All calls together -/

namespace Exchange

/-- Calls under way have numbers of their own, and what is in the table belongs to them. -/
structure Sound (x : Exchange) : Prop where
  /-- The table has come about by operations on it. -/
  table : ∃ ops, x.link.pending = PendingCalls.empty.after ops
  /-- As many numbers have been given as calls have got one. -/
  count : x.link.pending.issued = x.calls.countP OngoingCall.isNumbered
  numbered : ∀ o ∈ x.calls, ∀ id, o.stage.id? = some id →
    ∃ n, n < x.link.pending.issued ∧ id = callId (n + 1)
  apart : ∀ (i j : Nat) (o o' : OngoingCall), x.calls[i]? = some o → x.calls[j]? = some o' →
    ∀ id, o.stage.id? = some id → o'.stage.id? = some id → i = j
  listed : ∀ id, (x.link.pending.view id).entry ≠ none →
    ∃ o ∈ x.calls, o.stage.pending? = some id

theorem sound_fresh : fresh.Sound where
  table := ⟨[], rfl⟩
  count := rfl
  numbered _ ho := by cases ho
  apart _ _ _ _ hi := by simp [fresh] at hi
  listed _ h := absurd rfl h

/-- There are fewer calls than numbers. -/
def Few (x : Exchange) : Prop := x.calls.length < 9223372036854775807

instance (x : Exchange) : Decidable x.Few := inferInstanceAs (Decidable (_ < _))

theorem length_perform (timeout : Nat) (x : Exchange) (e : ExchangeEvent) :
    x.calls.length ≤ (x.perform timeout e).calls.length := by
  cases e with
  | begun call => simp [perform]
  | step index =>
      cases hfound : x.calls[index]? with
      | none => exact Nat.le_of_eq (by rw [perform_step_none hfound])
      | some o => simp [perform_step hfound]
  | _ => exact Nat.le_refl _

theorem length_run (timeout : Nat) (x : Exchange) (events : List ExchangeEvent) :
    x.calls.length ≤ (x.run timeout events).calls.length := by
  induction events generalizing x with
  | nil => exact Nat.le_refl _
  | cons e rest ih => exact Nat.le_trans (length_perform timeout x e) (ih _)

theorem issued_perform (timeout : Nat) (x : Exchange) (e : ExchangeEvent) :
    x.link.pending.issued ≤ (x.perform timeout e).link.pending.issued := by
  rw [pending_perform]
  split
  · rw [PendingCalls.issued_perform]
    split <;> omega
  · exact Nat.le_refl _

theorem issued_run (timeout : Nat) (x : Exchange) (events : List ExchangeEvent) :
    x.link.pending.issued ≤ (x.run timeout events).link.pending.issued := by
  induction events generalizing x with
  | nil => exact Nat.le_refl _
  | cons e rest ih => exact Nat.le_trans (issued_perform timeout x e) (ih _)

theorem Few.of_run {timeout : Nat} {x : Exchange} {events : List ExchangeEvent}
    (h : (x.run timeout events).Few) : x.Few :=
  Nat.lt_of_le_of_lt (length_run timeout x events) h

theorem callId_injective {m n : Nat} (hm : m ≤ 9223372036854775807) (hn : n ≤ 9223372036854775807)
    (h : callId m = callId n) : m = n := by
  rcases Nat.lt_trichotomy m n with hlt | heq | hlt
  · exact absurd h (callId_precedes hlt hn).ne
  · exact heq
  · exact absurd h.symm (callId_precedes hlt hm).ne

namespace Sound

variable {timeout : Nat} {x : Exchange} (h : x.Sound)

include h

theorem issued_le : x.link.pending.issued ≤ x.calls.length := by
  rw [h.count]
  exact List.countP_le_length

/-- A call in the table has a waiter that waits. -/
theorem waits (hfew : x.Few) {id : RequestId} (hentry : (x.link.pending.view id).entry ≠ none) :
    (x.link.pending.view id).waiter = some .waiting := by
  have hissued := h.issued_le
  obtain ⟨ops, hops⟩ := h.table
  rw [hops] at hissued hentry ⊢
  rw [PendingCalls.issued_after] at hissued
  have hops : issues ops < 9223372036854775807 := by
    unfold Few at hfew
    omega
  exact PendingCalls.waits_of_entry hops (Option.isSome_iff_ne_none.2 hentry)

/-- The number that a call gets next has not been given before. -/
theorem callId_ne (hfew : x.Few) {n : Nat} (hn : n < x.link.pending.issued) :
    callId (x.link.pending.issued + 1) ≠ callId (n + 1) := by
  intro heq
  have hissued := h.issued_le
  unfold Few at hfew
  have := callId_injective (by omega) (by omega) heq
  omega

/-- The number that a call gets next belongs to no call under way. -/
theorem fresh_number (hfew : x.Few) {o : OngoingCall} (ho : o ∈ x.calls) :
    o.stage.id? ≠ some (callId (x.link.pending.issued + 1)) := by
  intro hid
  obtain ⟨n, hn, heq⟩ := h.numbered o ho _ hid
  exact h.callId_ne hfew hn heq

/-- Nothing is known yet of the call that gets the next number. -/
theorem view_next (hfew : x.Few) :
    x.link.pending.view (callId (x.link.pending.issued + 1)) = .blank := by
  have hnext {n : Nat} (hn : n < x.link.pending.issued) := h.callId_ne hfew hn
  obtain ⟨ops, hops⟩ := h.table
  rw [hops] at hnext ⊢
  refine PendingCalls.view_of_not_issued fun hmem => ?_
  rw [PendingCalls.issuedIds_events] at hmem
  obtain ⟨n, hn, hid⟩ := List.mem_map.1 hmem
  obtain ⟨hlow, hhigh⟩ := List.mem_range'_1.1 hn
  rw [PendingCalls.issued_after] at hnext hid
  simp only [PendingCalls.empty] at hlow hhigh
  refine hnext (n := n - 1) (by omega) ?_
  rw [← hid, Nat.sub_add_cancel (by omega)]

/-- What an event that takes no step does to the table leaves no new call in it. -/
theorem of_table {y : Exchange} (hcalls : y.calls = x.calls) (op : CallOp)
    (hop : op.isIssue = false) (hpending : y.link.pending = (x.link.pending.perform op).2) :
    y.Sound where
  table := by
    obtain ⟨ops, hops⟩ := h.table
    refine ⟨ops ++ [op], ?_⟩
    rw [hpending, PendingCalls.after_append, ← hops]
    rfl
  count := by rw [hpending, PendingCalls.issued_perform, hop, hcalls, ← h.count]; rfl
  numbered := by
    rw [hpending, PendingCalls.issued_perform, hop, hcalls]
    exact h.numbered
  apart := hcalls ▸ h.apart
  listed id hentry := by
    rw [hcalls]
    refine h.listed id fun hnone => hentry ?_
    rw [hpending, PendingCalls.view_perform]
    refine CallView.entry_next ?_ hnone
    rw [PendingCalls.issued?_perform, hop]
    exact nofun

theorem of_same {y : Exchange} (hcalls : y.calls = x.calls)
    (hpending : y.link.pending = x.link.pending) : y.Sound :=
  ⟨hpending ▸ h.table, by rw [hpending, hcalls, h.count],
    by rw [hpending, hcalls]; exact h.numbered, hcalls ▸ h.apart,
    by rw [hpending, hcalls]; exact h.listed⟩

/-! ### A step of a call -/

variable {index : Nat} {o : OngoingCall}

omit h in
theorem pending_step (ho : x.calls[index]? = some o) :
    (x.perform timeout (.step index)).link.pending =
      (o.op?.map fun op => (x.link.pending.perform op).2).getD x.link.pending := by
  have hop : x.op? (.step index) = o.op? := by simp [op?, ho]
  rw [pending_perform, hop]
  cases o.op? with
  | none => rfl
  | some op => rfl

omit h in
theorem issued_step (ho : x.calls[index]? = some o) :
    (x.perform timeout (.step index)).link.pending.issued =
      if o.stage = .planned then x.link.pending.issued + 1 else x.link.pending.issued := by
  rw [pending_step ho]
  obtain ⟨call, limit, stage⟩ := o
  cases stage <;> simp [OngoingCall.op?, PendingCalls.issued_perform, CallOp.isIssue]

omit h in
theorem calls_step (ho : x.calls[index]? = some o) :
    (x.perform timeout (.step index)).calls = x.calls.set index (o.step timeout x.link).1 := by
  rw [perform_step ho]

theorem table_step (ho : x.calls[index]? = some o) :
    ∃ ops, (x.perform timeout (.step index)).link.pending = PendingCalls.empty.after ops := by
  obtain ⟨ops, hops⟩ := h.table
  rw [pending_step ho]
  cases o.op? with
  | none => exact ⟨ops, hops⟩
  | some op =>
      refine ⟨ops ++ [op], ?_⟩
      rw [PendingCalls.after_append, ← hops]
      rfl

theorem count_step (ho : x.calls[index]? = some o) :
    (x.perform timeout (.step index)).link.pending.issued =
      (x.perform timeout (.step index)).calls.countP OngoingCall.isNumbered := by
  obtain ⟨hlt, hget⟩ := List.getElem?_eq_some_iff.1 ho
  have hnew : (o.step timeout x.link).1.isNumbered = true := by
    simpa [OngoingCall.isNumbered] using o.planned_step timeout x.link
  rw [issued_step ho, calls_step ho, List.countP_set hlt, hget, h.count, hnew]
  by_cases hplanned : o.stage = .planned
  · simp [hplanned, OngoingCall.isNumbered]
  · have hold : o.isNumbered = true := by simpa [OngoingCall.isNumbered] using hplanned
    have hpos : 0 < x.calls.countP OngoingCall.isNumbered :=
      List.countP_pos_iff.2 ⟨o, List.mem_of_getElem? ho, hold⟩
    rw [if_neg hplanned, hold]
    simp only [if_true]
    omega

theorem numbered_step (ho : x.calls[index]? = some o) {o' : OngoingCall}
    (ho' : o' ∈ (x.perform timeout (.step index)).calls) {id : RequestId}
    (hid : o'.stage.id? = some id) :
    ∃ n, n < (x.perform timeout (.step index)).link.pending.issued ∧ id = callId (n + 1) := by
  rw [calls_step ho] at ho'
  rw [issued_step ho]
  rcases List.mem_or_eq_of_mem_set ho' with hold | rfl
  · obtain ⟨n, hn, rfl⟩ := h.numbered o' hold id hid
    exact ⟨n, by split <;> omega, rfl⟩
  · rcases OngoingCall.id?_step hid with ⟨hstage, hold⟩ | ⟨hstage, rfl⟩
    · rw [if_neg hstage]
      exact h.numbered o (List.mem_of_getElem? ho) id hold
    · exact ⟨x.link.pending.issued, by simp [hstage], rfl⟩

/-- The number that a call has after a step is its own, or one that no other call has. -/
theorem own_number (hfew : x.Few) (ho : x.calls[index]? = some o) {id : RequestId}
    (hid : (o.step timeout x.link).1.stage.id? = some id) {j : Nat} {o' : OngoingCall}
    (ho' : x.calls[j]? = some o') (hid' : o'.stage.id? = some id) : j = index := by
  rcases OngoingCall.id?_step hid with ⟨-, hold⟩ | ⟨-, rfl⟩
  · exact h.apart j index o' o ho' ho id hid' hold
  · exact absurd hid' (h.fresh_number hfew (List.mem_of_getElem? ho'))

theorem apart_step (hfew : x.Few) (ho : x.calls[index]? = some o) {i j : Nat}
    {o₁ o₂ : OngoingCall} (hi : (x.perform timeout (.step index)).calls[i]? = some o₁)
    (hj : (x.perform timeout (.step index)).calls[j]? = some o₂) {id : RequestId}
    (hid₁ : o₁.stage.id? = some id) (hid₂ : o₂.stage.id? = some id) : i = j := by
  obtain ⟨hlt, -⟩ := List.getElem?_eq_some_iff.1 ho
  rw [calls_step ho, List.getElem?_set] at hi hj
  by_cases hindexi : index = i
  · by_cases hindexj : index = j
    · exact hindexi.symm.trans hindexj
    · rw [if_pos hindexi, if_pos hlt] at hi
      rw [if_neg hindexj] at hj
      obtain rfl := Option.some.inj hi
      exact absurd (h.own_number hfew ho hid₁ hj hid₂).symm hindexj
  · rw [if_neg hindexi] at hi
    by_cases hindexj : index = j
    · rw [if_pos hindexj, if_pos hlt] at hj
      obtain rfl := Option.some.inj hj
      exact absurd (h.own_number hfew ho hid₂ hi hid₁).symm hindexi
    · rw [if_neg hindexj] at hj
      exact h.apart i j o₁ o₂ hi hj id hid₁ hid₂

omit h in
/-- What is in the table after a step was there before, or is the call that got its number. -/
theorem entry_step (ho : x.calls[index]? = some o) {id : RequestId}
    (hentry : ((x.perform timeout (.step index)).link.pending.view id).entry ≠ none) :
    (o.stage = .planned ∧ id = callId (x.link.pending.issued + 1)) ∨
      (x.link.pending.view id).entry ≠ none := by
  by_cases hmade : o.stage = .planned ∧ id = callId (x.link.pending.issued + 1)
  · exact .inl hmade
  · refine .inr fun hnone => ?_
    rw [pending_step ho] at hentry
    cases hop : o.op? with
    | none =>
        rw [hop] at hentry
        exact hentry hnone
    | some op =>
        simp only [hop, Option.map_some, Option.getD_some, PendingCalls.view_perform] at hentry
        refine hentry (CallView.entry_next ?_ hnone)
        rw [PendingCalls.issued?_perform]
        obtain ⟨call, limit, stage⟩ := o
        cases stage <;> cases hop <;> simp_all [CallOp.isIssue, eq_comm]

theorem listed_step (hfew : x.Few) (ho : x.calls[index]? = some o) {id : RequestId}
    (hentry : ((x.perform timeout (.step index)).link.pending.view id).entry ≠ none) :
    ∃ o' ∈ (x.perform timeout (.step index)).calls, o'.stage.pending? = some id := by
  obtain ⟨hlt, -⟩ := List.getElem?_eq_some_iff.1 ho
  have hnew : (o.step timeout x.link).1 ∈ (x.perform timeout (.step index)).calls := by
    rw [calls_step ho]
    exact List.mem_set hlt _
  rcases entry_step ho hentry with ⟨hstage, rfl⟩ | hbefore
  · refine ⟨_, hnew, ?_⟩
    simp only [OngoingCall.step, hstage]
    rfl
  · -- The call was in the table before, so it belongs to a call, which may be this one.
    obtain ⟨o', ho', hid⟩ := h.listed id hbefore
    by_cases hsame : o.stage.pending? = some id
    · refine ⟨_, hnew, OngoingCall.pending?_step hsame (h.waits hfew hbefore) ?_⟩
      rwa [perform_step ho] at hentry
    · obtain ⟨j, hj⟩ := List.mem_iff_getElem?.1 ho'
      have hne : index ≠ j := by
        rintro rfl
        obtain rfl : o = o' := Option.some.inj (ho.symm.trans hj)
        exact hsame hid
      refine ⟨o', List.mem_of_getElem? (i := j) ?_, hid⟩
      rw [calls_step ho, List.getElem?_set_ne hne, hj]

theorem step (hfew : x.Few) (ho : x.calls[index]? = some o) :
    (x.perform timeout (.step index)).Sound where
  table := h.table_step ho
  count := h.count_step ho
  numbered _ ho' _ hid := h.numbered_step ho ho' hid
  apart _ _ _ _ hi hj _ hid₁ hid₂ := h.apart_step hfew ho hi hj hid₁ hid₂
  listed _ hentry := h.listed_step hfew ho hentry

/-! ### Whole runs -/

theorem perform (hfew : x.Few) (e : ExchangeEvent) : (x.perform timeout e).Sound := by
  have hpending := pending_perform timeout x e
  cases e with
  | begun call =>
      have hplan : (OngoingCall.plan call x.link).1.stage = .planned := by
        unfold OngoingCall.plan
        split <;> rfl
      have hlookup (i : Nat) (o : OngoingCall)
          (hi : (x.perform timeout (.begun call)).calls[i]? = some o) :
          x.calls[i]? = some o ∨ o.stage = .planned := by
        rcases calls_perform_cases hi with hold | hnew | ⟨o', hstep, -, -⟩
        · exact .inl hold
        · exact .inr hnew
        · cases hstep
      simp only [op?] at hpending
      constructor
      · rw [hpending]
        exact h.table
      · rw [hpending, Exchange.perform, List.countP_append, h.count]
        simp [hplan, OngoingCall.isNumbered]
      · intro o ho id hid
        rw [hpending]
        rcases List.mem_append.1 ho with ho | ho
        · exact h.numbered o ho id hid
        · rw [List.mem_singleton.1 ho, hplan] at hid
          cases hid
      · intro i j o o' hi hj id hid hid'
        rcases hlookup i o hi with hi | hi
        · rcases hlookup j o' hj with hj | hj
          · exact h.apart i j o o' hi hj id hid hid'
          · rw [hj] at hid'
            cases hid'
        · rw [hi] at hid
          cases hid
      · intro id hentry
        rw [hpending] at hentry
        obtain ⟨o, ho, hid⟩ := h.listed id hentry
        exact ⟨o, List.mem_append_left _ ho, hid⟩
  | step index =>
      cases hfound : x.calls[index]? with
      | none => rwa [perform_step_none hfound]
      | some o => exact h.step hfew hfound
  | response r => exact h.of_table rfl (.resolve r) rfl hpending
  | abandoned => exact h.of_table rfl .abandonAll rfl hpending
  | _ => exact h.of_same rfl hpending

omit h in
theorem run (h : x.Sound) (events : List ExchangeEvent) (hfew : (x.run timeout events).Few) :
    (x.run timeout events).Sound := by
  induction events generalizing x with
  | nil => exact h
  | cons e rest ih =>
      have hnow : (x.run timeout (e :: rest)).Few := hfew
      exact ih (h.perform hnow.of_run e) hfew

end Sound

end Exchange

end LanguageServer
