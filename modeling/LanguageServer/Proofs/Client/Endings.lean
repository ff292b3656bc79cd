import LanguageServer.Proofs.Client.Exchange

set_option autoImplicit false

/-! # How calls end

What becomes of one call among many: it is followed from the moment at which it gets its number. Its
stage, what the table knows of it, and what was sent for it go together at every moment
(`NumberedCall.Standing`). A step of its own moves it on; a response to it, or the end of the
connection, decides it; whatever else happens leaves it alone, since no other call has its number. -/

namespace LanguageServer

/-! ## One call and its history -/

/-- A call that has just got its number, and the exchange at that moment. -/
structure NumberedCall where
  timeout : Nat
  start : Exchange
  index : Nat
  id : RequestId
  call : Call

/-- Something has happened, told by itself and by all that came before it. -/
def Happened (P : List ExchangeEvent → ExchangeEvent → Prop) (since : List ExchangeEvent) : Prop :=
  ∃ earlier e later, since = earlier ++ e :: later ∧ P earlier e

section Happened

variable {P : List ExchangeEvent → ExchangeEvent → Prop} {since : List ExchangeEvent}
  {e : ExchangeEvent}

theorem Happened.now (h : P since e) : Happened P (since ++ [e]) := ⟨since, e, [], rfl, h⟩

theorem Happened.later (h : Happened P since) (e : ExchangeEvent) : Happened P (since ++ [e]) := by
  obtain ⟨earlier, e', later, rfl, hP⟩ := h
  exact ⟨earlier, e', later ++ [e], by simp, hP⟩

end Happened

/-- Whether a message is the request of a call or tells the client to forget about it. -/
def Message.concerns (id : RequestId) : Message → Bool
  | .request r => r.id = id
  | m => m = Link.cancellation id

/-- What a call that the client answered comes to. -/
def Outcome.callResult (method : String) : Outcome → CallResult
  | .result value => .answered value
  | .error fault => .failed (.response method fault)

/-- How many steps of its own a call still has to take, if it has to wait for nothing. -/
def CallStage.left : CallStage → Nat
  | .planned => 4
  | .issued _ => 3
  | .sent _ | .expired _ => 2
  | .unsent _ | .waiting .. | .withdrawn _ => 1
  | .ended _ => 0

/-- The call has nothing more to wait for, whatever comes from outside. -/
def CallStage.isClosing : CallStage → Bool
  | .unsent _ | .expired _ | .withdrawn _ | .ended _ => true
  | .planned | .issued _ | .sent _ | .waiting .. => false

theorem PendingCalls.cancel_fst (p : PendingCalls) (id : RequestId) :
    (p.cancel id).1 = p.entries.lookup id := by
  unfold cancel
  split
  · next hentry => exact hentry.symm
  · next hentry => exact hentry.symm

namespace NumberedCall

variable (c : NumberedCall)

/-- The exchange at a later moment. -/
def moment (since : List ExchangeEvent) : Exchange := c.start.run c.timeout since

def IsAt (since : List ExchangeEvent) (stage : CallStage) : Prop :=
  ∃ o, (c.moment since).calls[c.index]? = some o ∧ o.stage = stage

/-- The call is in the table. -/
def IsPending (since : List ExchangeEvent) : Prop :=
  (c.moment since).link.pending.contains c.id = true

/-- No response to the call has come, and calls have not been abandoned. -/
def Unruled (since : List ExchangeEvent) : Prop := ∀ e ∈ since, e.rules c.id = false

/-- The first response to the call came while it was in the table. -/
def Routed (outcome : Outcome) : List ExchangeEvent → Prop :=
  Happened fun earlier e => ∃ r, e = .response r ∧ r.id = some c.id ∧ r.outcome = outcome ∧
    c.Unruled earlier ∧ c.IsPending earlier

/-- The call was abandoned while it was in the table. -/
def Abandoned : List ExchangeEvent → Prop :=
  Happened fun earlier e => e = .abandoned ∧ c.Unruled earlier ∧ c.IsPending earlier

/-- The call was to be sent when nothing could be sent any more. -/
def Unsendable : List ExchangeEvent → Prop :=
  Happened fun earlier e => e = .step c.index ∧ c.IsAt earlier (.issued c.id) ∧
    (c.moment earlier).link.writerOpen = false

/-- The call waited until its timer went off. -/
def TimedOut : List ExchangeEvent → Prop :=
  Happened fun earlier e => e = .step c.index ∧
    ∃ timer, c.IsAt earlier (.waiting c.id timer) ∧ timer.isDue (c.moment earlier).link.clock = true

/-- The call had waited too long and was still in the table at its last step. -/
def Withdrawn (since : List ExchangeEvent) : Prop :=
  ∃ earlier later, since = earlier ++ .step c.index :: later ∧ c.IsAt earlier (.expired c.id) ∧
    c.IsPending earlier ∧ .step c.index ∉ later

/-- The call was withdrawn, and at its next step something could be sent. -/
def Cancelled : List ExchangeEvent → Prop :=
  Happened fun earlier e => e = .step c.index ∧ c.Withdrawn earlier ∧
    (c.moment earlier).link.writerOpen = true

/-- What a result of the call comes from. -/
def Caused (since : List ExchangeEvent) : CallResult → Prop
  | .answered value => c.Routed (.result value) since
  | .failed (.response method error) => method = c.call.method ∧ c.Routed (.error error) since
  | .failed (.abandoned method) => method = c.call.method ∧ c.Abandoned since
  | .failed (.timedOut method milliseconds) =>
    method = c.call.method ∧ milliseconds = c.timeout ∧ c.TimedOut since
  | .failed .disconnected => c.Unsendable since
  | .failed (.progress _) | .gaveUp => False

/-- The request of the call. -/
def request : Message := .request ⟨c.id, c.call.method, c.call.params⟩

/-- The message that tells the client to forget about the call. -/
def cancellation : Message := Link.cancellation c.id

/-- What is sent for a call: nothing, its request, or that and later the cancellation. -/
def Said (since : List ExchangeEvent) (messages : List Message) : Prop :=
  messages = [] ∨ messages = [c.request] ∨
    (messages = [c.request, c.cancellation] ∧ c.Cancelled since)

/-- What the table knows of a call that is on its way is told by what has decided it. -/
inductive Ruled (since : List ExchangeEvent) : CallView → Prop
  | undecided : c.Unruled since → Ruled since (.awaited c.call.method)
  | answered {outcome : Outcome} : c.Routed outcome since → Ruled since (.settled (.received outcome))
  | abandoned : c.Abandoned since → Ruled since (.settled .closed)

/-- How far a call has come, what the table knows of it, and what was sent for it. -/
inductive Standing (since : List ExchangeEvent) : CallStage → CallView → List Message → Prop
  | issued {view : CallView} : c.Ruled since view → Standing since (.issued c.id) view []
  | unsent {view : CallView} : c.Ruled since view → c.Unsendable since →
    Standing since (.unsent c.id) view []
  | sent {view : CallView} : c.Ruled since view → Standing since (.sent c.id) view [c.request]
  | waiting {view : CallView} (timer : Timer) : c.Ruled since view →
    Standing since (.waiting c.id timer) view [c.request]
  | expired {view : CallView} : c.Ruled since view → c.TimedOut since →
    Standing since (.expired c.id) view [c.request]
  | withdrawn {view : CallView} : view.entry = none → c.TimedOut since → c.Withdrawn since →
    Standing since (.withdrawn c.id) view [c.request]
  | ended {view : CallView} {result : CallResult} {messages : List Message} : view.entry = none →
    c.Caused since result → c.Said since messages →
    Standing since (.ended result) view messages

section History

variable {c} {since : List ExchangeEvent}

theorem Caused.later {result : CallResult} (h : c.Caused since result) (e : ExchangeEvent) :
    c.Caused (since ++ [e]) result := by
  cases result with
  | answered value => exact Happened.later h e
  | gaveUp => exact h
  | failed fault =>
      cases fault with
      | response method error => exact ⟨h.1, Happened.later h.2 e⟩
      | abandoned method => exact ⟨h.1, Happened.later h.2 e⟩
      | timedOut method milliseconds => exact ⟨h.1, h.2.1, Happened.later h.2.2 e⟩
      | disconnected => exact Happened.later h e
      | progress fault => exact h

theorem caused_callResult {outcome : Outcome} (h : c.Routed outcome since) :
    c.Caused since (outcome.callResult c.call.method) := by
  cases outcome with
  | result value => simpa only [Outcome.callResult, Caused] using h
  | error error => simpa only [Outcome.callResult, Caused, true_and] using h

theorem Said.later {messages : List Message} (h : c.Said since messages) (e : ExchangeEvent) :
    c.Said (since ++ [e]) messages := by
  rcases h with h | h | ⟨h, hcancelled⟩
  · exact .inl h
  · exact .inr (.inl h)
  · exact .inr (.inr ⟨h, hcancelled.later e⟩)

theorem Unruled.later {e : ExchangeEvent} (h : c.Unruled since) (he : e.rules c.id = false) :
    c.Unruled (since ++ [e]) := by
  intro e' he'
  rcases List.mem_append.1 he' with he' | he'
  · exact h e' he'
  · rw [List.mem_singleton.1 he']
    exact he

theorem Ruled.later {view : CallView} {e : ExchangeEvent} (h : c.Ruled since view)
    (he : e.rules c.id = false) : c.Ruled (since ++ [e]) view := by
  cases h with
  | undecided h => exact .undecided (h.later he)
  | answered h => exact .answered (h.later e)
  | abandoned h => exact .abandoned (h.later e)

theorem Withdrawn.later {e : ExchangeEvent} (h : c.Withdrawn since) (he : e ≠ .step c.index) :
    c.Withdrawn (since ++ [e]) := by
  obtain ⟨earlier, later, rfl, hat, hpending, hlater⟩ := h
  refine ⟨earlier, later ++ [e], by simp, hat, hpending, fun hmem => ?_⟩
  rcases List.mem_append.1 hmem with hmem | hmem
  · exact hlater hmem
  · exact he (List.mem_singleton.1 hmem).symm

/-- What happens elsewhere leaves the call alone. -/
theorem Standing.elsewhere {stage : CallStage} {view : CallView} {messages : List Message}
    {e : ExchangeEvent} (h : c.Standing since stage view messages) (hrules : e.rules c.id = false)
    (hstep : e ≠ .step c.index) : c.Standing (since ++ [e]) stage view messages := by
  cases h with
  | issued h => exact .issued (h.later hrules)
  | unsent h hunsendable => exact .unsent (h.later hrules) (hunsendable.later e)
  | sent h => exact .sent (h.later hrules)
  | waiting timer h => exact .waiting timer (h.later hrules)
  | expired h htimedOut => exact .expired (h.later hrules) (htimedOut.later e)
  | withdrawn h htimedOut hwithdrawn =>
      exact .withdrawn h (htimedOut.later e) (hwithdrawn.later hstep)
  | ended h hcaused hsaid => exact .ended h (hcaused.later e) (hsaid.later e)

end History

/-! ## What decides a call from outside -/

section Ruling

variable {c} {since : List ExchangeEvent} {view : CallView}

theorem isPending_iff : c.IsPending since ↔ ((c.moment since).link.pending.view c.id).entry ≠ none :=
  Option.isSome_iff_ne_none

/-- An event that decides a call does so by an operation on the table that makes no call. -/
theorem exists_ruling {e : ExchangeEvent} (h : e.rules c.id = true) (x : Exchange) :
    ∃ op, x.op? e = some op ∧ ∀ p : PendingCalls, (p.perform op).1.issued? ≠ some c.id := by
  cases e with
  | response r => exact ⟨_, rfl, fun p => nofun⟩
  | abandoned => exact ⟨_, rfl, fun p => nofun⟩
  | _ => cases h

/-- The first event that decides a call tells its waiter; later ones change nothing. -/
theorem Ruled.rule {x : Exchange} {e : ExchangeEvent} {op : CallOp} (p : PendingCalls)
    (h : c.Ruled since view) (hpending : view.entry ≠ none → c.IsPending since)
    (hrules : e.rules c.id = true) (hop : x.op? e = some op) :
    c.Ruled (since ++ [e]) (view.next c.id (p.perform op).1) := by
  have hsettled (state : WaiterState) (hstate : state ≠ .waiting) :
      (CallView.settled state).next c.id (p.perform op).1 = .settled state := by
    obtain ⟨op', hop', hnew⟩ := exists_ruling hrules x
    rw [hop] at hop'
    cases hop'
    exact CallView.next_settled hstate (hnew p)
  cases h with
  | undecided h =>
      have hpending := hpending (by simp [CallView.awaited])
      cases e with
      | response r =>
          cases hop
          have hid : r.id = some c.id := by simpa [ExchangeEvent.rules] using hrules
          have hnext : (CallView.awaited c.call.method).next c.id (p.perform (.resolve r)).1 =
              .settled (.received r.outcome) := by
            simp [PendingCalls.perform, CallView.next, hid, CallView.awaited, CallView.told,
              CallView.settled]
          rw [hnext]
          exact .answered (Happened.now ⟨r, rfl, hid, rfl, h, hpending⟩)
      | abandoned =>
          cases hop
          exact .abandoned (Happened.now ⟨rfl, h, hpending⟩)
      | _ => cases hrules
  | answered h =>
      rw [hsettled (.received _) (by simp)]
      exact .answered (h.later e)
  | abandoned h =>
      rw [hsettled .closed (by simp)]
      exact .abandoned (h.later e)

theorem Standing.rule {stage : CallStage} {messages : List Message} {x : Exchange}
    {e : ExchangeEvent} {op : CallOp} (p : PendingCalls) (h : c.Standing since stage view messages)
    (hpending : view.entry ≠ none → c.IsPending since) (hrules : e.rules c.id = true)
    (hop : x.op? e = some op) :
    c.Standing (since ++ [e]) stage (view.next c.id (p.perform op).1) messages := by
  have hstep : e ≠ .step c.index := by
    rintro rfl
    cases hrules
  have hover (hnone : view.entry = none) : (view.next c.id (p.perform op).1).entry = none := by
    obtain ⟨op', hop', hnew⟩ := exists_ruling hrules x
    rw [hop] at hop'
    cases hop'
    exact CallView.entry_next (hnew p) hnone
  cases h with
  | issued h => exact .issued (h.rule p hpending hrules hop)
  | unsent h hunsendable => exact .unsent (h.rule p hpending hrules hop) (hunsendable.later e)
  | sent h => exact .sent (h.rule p hpending hrules hop)
  | waiting timer h => exact .waiting timer (h.rule p hpending hrules hop)
  | expired h htimedOut => exact .expired (h.rule p hpending hrules hop) (htimedOut.later e)
  | withdrawn h htimedOut hwithdrawn =>
      exact .withdrawn (hover h) (htimedOut.later e) (hwithdrawn.later hstep)
  | ended h hcaused hsaid => exact .ended (hover h) (hcaused.later e) (hsaid.later e)

end Ruling

/-! ## Steps of its own -/

section Own

variable {c} {since : List ExchangeEvent}

theorem concerns_request : c.request.concerns c.id = true := by
  simp [request, Message.concerns]

theorem concerns_cancellation : c.cancellation.concerns c.id = true := by
  simp [cancellation, Message.concerns, Link.cancellation]

theorem rules_step (id : RequestId) (index : Nat) : (ExchangeEvent.step index).rules id = false :=
  rfl

/-- A step of the call itself. -/
theorem Standing.own {o : OngoingCall} {messages : List Message}
    (ho : (c.moment since).calls[c.index]? = some o) (hcall : o.call = c.call)
    (h : c.Standing since o.stage ((c.moment since).link.pending.view c.id) messages) :
    c.Standing (since ++ [.step c.index]) (o.step c.timeout (c.moment since).link).1.stage
      ((o.step c.timeout (c.moment since).link).2.pending.view c.id)
      (messages ++ (o.speech (c.moment since).link).filter (Message.concerns c.id)) := by
  have hat : c.IsAt since o.stage := ⟨o, ho, rfl⟩
  have hpending : ((c.moment since).link.pending.view c.id).entry ≠ none → c.IsPending since :=
    isPending_iff.2
  have hwaiter : ((c.moment since).link.pending.view c.id).waiter =
    (c.moment since).link.pending.waiter? c.id := rfl
  have hentry : ((c.moment since).link.pending.view c.id).entry =
    (c.moment since).link.pending.entries.lookup c.id := rfl
  have hrules := rules_step c.id c.index
  rw [OngoingCall.pending_step]
  obtain ⟨call, limit, stage⟩ := o
  obtain rfl : call = c.call := hcall
  generalize hlink : (c.moment since).link = l at *
  generalize hview : l.pending.view c.id = view at *
  cases h with
  | issued h =>
      cases hopen : l.writerOpen with
      | true =>
          have hspeech : OngoingCall.speech l ⟨c.call, limit, .issued c.id⟩ = [c.request] := by
            simp [OngoingCall.speech, hopen, request]
          rw [hspeech, List.filter_cons_of_pos concerns_request]
          simp only [OngoingCall.step, Link.send, hopen, if_true, OngoingCall.op?, hview]
          exact .sent (h.later hrules)
      | false =>
          have hspeech : OngoingCall.speech l ⟨c.call, limit, .issued c.id⟩ = [] := by
            simp [OngoingCall.speech, hopen]
          rw [hspeech]
          simp only [OngoingCall.step, Link.send, hopen, OngoingCall.op?, hview]
          exact .unsent (h.later hrules) (Happened.now ⟨rfl, hat, hlink ▸ hopen⟩)
  | unsent h hunsendable =>
      simp only [OngoingCall.speech, ite_self]
      exact .ended (l.pending.entry_remove c.id) (hunsendable.later _) (.inl rfl)
  | sent h =>
      simp only [OngoingCall.speech, ite_self, OngoingCall.step, OngoingCall.op?, hview]
      exact .waiting _ (h.later hrules)
  | waiting timer h =>
      simp only [OngoingCall.speech, ite_self, OngoingCall.step, OngoingCall.op?, hview, ← hwaiter]
      cases h with
      | undecided h =>
          simp only [CallView.awaited]
          cases hdue : timer.isDue l.clock with
          | true =>
              exact .expired ((Ruled.undecided h).later hrules)
                (Happened.now ⟨rfl, timer, hat, hlink ▸ hdue⟩)
          | false => exact .waiting timer ((Ruled.undecided h).later hrules)
      | @answered outcome h =>
          have hcaused := caused_callResult (Happened.later h (.step c.index))
          cases outcome with
          | result value => exact .ended rfl hcaused (.inr (.inl rfl))
          | error error => exact .ended rfl hcaused (.inr (.inl rfl))
      | abandoned h => exact .ended rfl ⟨rfl, h.later _⟩ (.inr (.inl rfl))
  | expired h htimedOut =>
      have hknown : (l.pending.cancel c.id).1 = view.entry := by rw [hentry, PendingCalls.cancel_fst]
      have hover := l.pending.entry_cancel c.id
      have htimedOut := Happened.later htimedOut (.step c.index)
      simp only [OngoingCall.speech, ite_self, OngoingCall.step, hknown]
      cases h with
      | undecided h =>
          have hpending := hpending (by simp [CallView.awaited])
          exact .withdrawn hover htimedOut ⟨since, [], rfl, hat, hpending, List.not_mem_nil⟩
      | answered h => exact .ended hover ⟨rfl, rfl, htimedOut⟩ (.inr (.inl rfl))
      | abandoned h => exact .ended hover ⟨rfl, rfl, htimedOut⟩ (.inr (.inl rfl))
  | withdrawn h htimedOut hwithdrawn =>
      have htimedOut := Happened.later htimedOut (.step c.index)
      simp only [OngoingCall.op?, hview]
      refine .ended h ⟨rfl, rfl, htimedOut⟩ ?_
      cases hopen : l.writerOpen with
      | true =>
          have hspeech : OngoingCall.speech l ⟨c.call, limit, .withdrawn c.id⟩ =
              [c.cancellation] := by
            simp [OngoingCall.speech, hopen, cancellation]
          rw [hspeech, List.filter_cons_of_pos concerns_cancellation]
          exact .inr (.inr ⟨rfl, Happened.now ⟨rfl, hwithdrawn, hlink ▸ hopen⟩⟩)
      | false =>
          have hspeech : OngoingCall.speech l ⟨c.call, limit, .withdrawn c.id⟩ = [] := by
            simp [OngoingCall.speech, hopen]
          rw [hspeech]
          exact .inr (.inl rfl)
  | ended h hcaused hsaid =>
      simp only [OngoingCall.speech, ite_self, List.filter_nil, List.append_nil, OngoingCall.op?,
        hview]
      exact .ended h (hcaused.later _) (hsaid.later _)

end Own

end NumberedCall

/-! ## Among other calls -/

theorem Link.cancellation_injective {a b : RequestId} (h : cancellation a = cancellation b) :
    a = b := by
  simp only [cancellation, Message.notification.injEq, Notification.mk.injEq, Option.some.injEq,
    true_and] at h
  have hwrite : RequestId.codec.write a = RequestId.codec.write b := by
    injection h with h
    injection h with h
    exact (Prod.mk.inj h).2
  cases a with
  | number m =>
      cases b with
      | number n =>
          injection hwrite with hwrite
          injection hwrite with hwrite
          exact congrArg _ (Int64.toInt_inj.1 hwrite)
      | text s => cases hwrite
  | text s =>
      cases b with
      | number n => cases hwrite
      | text t =>
          injection hwrite with hwrite
          exact congrArg _ hwrite

/-- Calls send messages about themselves only. -/
theorem OngoingCall.id?_of_speech {l : Link} {o : OngoingCall} {m : Message} {id : RequestId}
    (hm : m ∈ o.speech l) (hid : m.concerns id = true) : o.stage.id? = some id := by
  unfold speech at hm
  split at hm
  · split at hm
    · next key hstage =>
        rw [List.mem_singleton.1 hm] at hid
        rw [hstage, CallStage.id?]
        simpa [Message.concerns] using hid
    · next key hstage =>
        rw [List.mem_singleton.1 hm] at hid
        rw [hstage, CallStage.id?]
        have hsame : Link.cancellation key = Link.cancellation id := by
          simpa [Message.concerns, Link.cancellation] using hid
        rw [Link.cancellation_injective hsame]
    · cases hm
  · cases hm

namespace NumberedCall

variable (c : NumberedCall)

/-- The call is followed: it has a number that no other call has or will get, and its stage, the
table and the messages go together. -/
structure Tracked (since : List ExchangeEvent) : Prop where
  sound : (c.moment since).Sound
  old : ∃ n, n < (c.moment since).link.pending.issued ∧ c.id = callId (n + 1)
  alone : ∀ (j : Nat) (o : OngoingCall), (c.moment since).calls[j]? = some o →
    o.stage.id? = some c.id → j = c.index
  standing : ∃ o, (c.moment since).calls[c.index]? = some o ∧ o.call = c.call ∧
    c.Standing since o.stage ((c.moment since).link.pending.view c.id)
      ((c.start.said c.timeout since).filter (Message.concerns c.id))

variable {c} {since : List ExchangeEvent}

theorem moment_concat (e : ExchangeEvent) :
    c.moment (since ++ [e]) = (c.moment since).perform c.timeout e :=
  Exchange.run_concat c.timeout c.start since e

theorem moment_split (e : ExchangeEvent) (later : List ExchangeEvent) :
    c.moment (since ++ e :: later) = ((c.moment since).perform c.timeout e).run c.timeout later :=
  Exchange.run_append c.timeout c.start since (e :: later)

theorem Tracked.next_number_ne (h : c.Tracked since) (hfew : (c.moment since).Few) :
    callId ((c.moment since).link.pending.issued + 1) ≠ c.id := by
  obtain ⟨n, hn, hid⟩ := h.old
  rw [hid]
  exact h.sound.callId_ne hfew hn

/-- A step of another call leaves what the table knows of this one. -/
theorem Tracked.view_other (h : c.Tracked since) (hfew : (c.moment since).Few) {e : ExchangeEvent}
    (hrules : e.rules c.id = false) (hstep : e ≠ .step c.index) :
    ((c.moment since).perform c.timeout e).link.pending.view c.id =
      (c.moment since).link.pending.view c.id := by
  rw [Exchange.view_perform]
  cases e with
  | step j =>
      cases hfound : (c.moment since).calls[j]? with
      | none => simp [Exchange.op?, hfound]
      | some o =>
          have hother : o.stage.id? ≠ some c.id := fun hid =>
            hstep (congrArg _ (h.alone j o hfound hid))
          have hop : (c.moment since).op? (.step j) = o.op? := by simp [Exchange.op?, hfound]
          rw [hop]
          obtain ⟨call, limit, stage⟩ := o
          cases stage with
          | planned =>
              refine CallView.next_of_elsewhere ?_ rfl _
              intro hid
              exact h.next_number_ne hfew (Option.some.inj hid)
          | unsent key =>
              apply CallView.next_of_elsewhere
              · intro hid
                cases hid
              · exact decide_eq_false fun hkey => hother (congrArg some hkey)
          | expired key =>
              apply CallView.next_of_elsewhere
              · intro hid
                cases hid
              · exact decide_eq_false fun hkey => hother (congrArg some hkey)
          | _ => rfl
  | response r =>
      apply CallView.next_of_elsewhere
      · intro hid
        cases hid
      · exact hrules
  | abandoned => cases hrules
  | _ => rfl

/-- Nothing is said of the call but by itself. -/
theorem Tracked.spoken_other (h : c.Tracked since) {e : ExchangeEvent} (hstep : e ≠ .step c.index) :
    ((c.moment since).spoken c.timeout e).filter (Message.concerns c.id) = [] := by
  cases e with
  | step j =>
      cases hfound : (c.moment since).calls[j]? with
      | none => rw [Exchange.spoken_step_none hfound, List.filter_nil]
      | some o =>
          rw [Exchange.spoken_step hfound, List.filter_eq_nil_iff]
          intro m hm hid
          exact hstep (congrArg _ (h.alone j o hfound (OngoingCall.id?_of_speech hm hid)))
  | _ => rfl

theorem Tracked.perform (h : c.Tracked since) (hfew : (c.moment since).Few) (e : ExchangeEvent) :
    c.Tracked (since ++ [e]) := by
  constructor
  · rw [moment_concat]
    exact h.sound.perform hfew e
  · obtain ⟨n, hn, hid⟩ := h.old
    rw [moment_concat]
    exact ⟨n, Nat.lt_of_lt_of_le hn (Exchange.issued_perform ..), hid⟩
  · intro j o hj hid
    rw [moment_concat] at hj
    rcases Exchange.calls_perform_cases hj with hold | hnew | ⟨o', rfl, hold, rfl⟩
    · exact h.alone j o hold hid
    · rw [hnew] at hid
      cases hid
    · rcases OngoingCall.id?_step hid with ⟨-, hid⟩ | ⟨-, hid⟩
      · exact h.alone j o' hold hid
      · exact absurd hid.symm (h.next_number_ne hfew)
  · obtain ⟨o, ho, hcall, hstanding⟩ := h.standing
    rw [moment_concat, Exchange.said_concat, List.filter_append]
    change ∃ o', _ ∧ _ ∧ c.Standing _ _ _
      (_ ++ ((c.moment since).spoken c.timeout e).filter (Message.concerns c.id))
    by_cases hstep : e = .step c.index
    · subst hstep
      refine ⟨_, Exchange.calls_perform_step ho, by rw [OngoingCall.call_step, hcall], ?_⟩
      rw [Exchange.spoken_step ho, Exchange.perform_step ho]
      exact hstanding.own ho hcall
    · refine ⟨o, Exchange.calls_perform_of_ne hstep ho, hcall, ?_⟩
      rw [h.spoken_other hstep, List.append_nil]
      cases hrules : e.rules c.id with
      | false =>
          rw [h.view_other hfew hrules hstep]
          exact hstanding.elsewhere hrules hstep
      | true =>
          obtain ⟨op, hop, -⟩ := exists_ruling hrules (c.moment since)
          rw [Exchange.view_perform, hop]
          exact hstanding.rule _ isPending_iff.2 hrules hop

theorem Tracked.run (h : c.Tracked since) (more : List ExchangeEvent)
    (hfew : (c.moment (since ++ more)).Few) : c.Tracked (since ++ more) := by
  induction more generalizing since with
  | nil => simpa using h
  | cons e rest ih =>
      have hnow : (c.moment since).Few := by
        rw [moment, Exchange.run_append] at hfew
        exact hfew.of_run
      have hlater := ih (h.perform hnow e) (by simpa using hfew)
      simpa using hlater

/-! ## Promptness -/

theorem unruled_of_happened {P : List ExchangeEvent → ExchangeEvent → Prop}
    (hP : ∀ earlier e, P earlier e → e.rules c.id = true) (h : Happened P since) :
    ¬ c.Unruled since := by
  obtain ⟨earlier, e, later, rfl, he⟩ := h
  intro hunruled
  have hfalse := hunruled e (List.mem_append_right _ List.mem_cons_self)
  rw [hP earlier e he] at hfalse
  cases hfalse

theorem Routed.ruled {outcome : Outcome} (h : c.Routed outcome since) : ¬ c.Unruled since := by
  refine unruled_of_happened ?_ h
  rintro earlier e ⟨r, rfl, hid, -⟩
  simp [ExchangeEvent.rules, hid]

theorem Abandoned.ruled (h : c.Abandoned since) : ¬ c.Unruled since := by
  refine unruled_of_happened ?_ h
  rintro earlier e ⟨rfl, -⟩
  rfl

theorem Ruled.entry_iff {view : CallView} (h : c.Ruled since view) :
    view.entry ≠ none ↔ c.Unruled since := by
  cases h with
  | undecided h => exact ⟨fun _ => h, fun _ => nofun⟩
  | answered h => exact ⟨fun hentry => absurd rfl hentry, fun hunruled => absurd hunruled h.ruled⟩
  | abandoned h => exact ⟨fun hentry => absurd rfl hentry, fun hunruled => absurd hunruled h.ruled⟩

/-- The call waits for nothing any more. -/
def Doomed (c : NumberedCall) (since : List ExchangeEvent) (stage : CallStage) : Prop :=
  ¬ c.Unruled since ∨ stage.isClosing = true

theorem Unruled.of_later {e : ExchangeEvent} (h : c.Unruled (since ++ [e])) : c.Unruled since :=
  fun e' he' => h e' (List.mem_append_left _ he')

theorem Doomed.later {stage : CallStage} (h : c.Doomed since stage) (e : ExchangeEvent) :
    c.Doomed (since ++ [e]) stage := by
  rcases h with h | h
  · exact .inl fun hlater => h hlater.of_later
  · exact .inr h

/-- A call that waits for nothing comes nearer to its end with each step of its own. -/
theorem Standing.nearer {o : OngoingCall} {messages : List Message}
    (h : c.Standing since o.stage ((c.moment since).link.pending.view c.id) messages)
    (hdoomed : c.Doomed since o.stage) :
    (∃ result, (o.step c.timeout (c.moment since).link).1.stage = .ended result) ∨
      c.Doomed (since ++ [.step c.index]) (o.step c.timeout (c.moment since).link).1.stage ∧
      (o.step c.timeout (c.moment since).link).1.stage.left + 1 ≤ o.stage.left := by
  have hwaiter : (c.moment since).link.pending.waiter? c.id =
    ((c.moment since).link.pending.view c.id).waiter := rfl
  have hlater := hdoomed.later (.step c.index)
  obtain ⟨call, limit, stage⟩ := o
  generalize (c.moment since).link = l at *
  generalize l.pending.view c.id = view at *
  cases h with
  | issued h =>
      right
      have hruled : ¬ c.Unruled (since ++ [.step c.index]) := by
        simpa [Doomed, CallStage.isClosing] using hlater
      refine ⟨.inl hruled, ?_⟩
      simp only [OngoingCall.step]
      split <;> simp [CallStage.left]
  | sent h =>
      right
      have hruled : ¬ c.Unruled (since ++ [.step c.index]) := by
        simpa [Doomed, CallStage.isClosing] using hlater
      exact ⟨.inl hruled, Nat.le_refl _⟩
  | waiting timer h =>
      have hruled : ¬ c.Unruled since := by
        simpa [Doomed, CallStage.isClosing] using hdoomed
      left
      simp only [OngoingCall.step, hwaiter]
      cases h with
      | undecided h => exact absurd h hruled
      | @answered outcome h =>
          cases outcome with
          | result value => exact ⟨_, rfl⟩
          | error error => exact ⟨_, rfl⟩
      | abandoned h => exact ⟨_, rfl⟩
  | expired h htimedOut =>
      simp only [OngoingCall.step]
      split
      · exact .inr ⟨.inr rfl, Nat.le_refl _⟩
      · exact .inl ⟨_, rfl⟩
  | _ => exact .inl ⟨_, rfl⟩

theorem Tracked.ends (h : c.Tracked since) {o : OngoingCall}
    (ho : (c.moment since).calls[c.index]? = some o) (hdoomed : c.Doomed since o.stage)
    (more : List ExchangeEvent) (hfew : (c.moment (since ++ more)).Few)
    (hmore : o.stage.left ≤ more.count (.step c.index)) :
    ∃ result, c.IsAt (since ++ more) (.ended result) := by
  induction more generalizing since o with
  | nil =>
      -- Every stage but the last has a step left.
      obtain ⟨call, limit, stage⟩ := o
      rw [List.append_nil]
      cases stage with
      | ended result => exact ⟨result, _, ho, rfl⟩
      | _ => cases hmore
  | cons e rest ih =>
      have hnow : (c.moment since).Few := by
        rw [moment, Exchange.run_append] at hfew
        exact hfew.of_run
      have htracked := h.perform hnow e
      have hsplit : since ++ e :: rest = (since ++ [e]) ++ rest := by simp
      rw [hsplit] at hfew ⊢
      obtain ⟨o', ho', -, hstanding⟩ := h.standing
      obtain rfl : o' = o := Option.some.inj (ho'.symm.trans ho)
      by_cases hstep : e = .step c.index
      · subst hstep
        have hnext : (c.moment (since ++ [.step c.index])).calls[c.index]? =
            some (o'.step c.timeout (c.moment since).link).1 := by
          rw [moment_concat, Exchange.calls_perform_step ho]
        rcases hstanding.nearer hdoomed with ⟨result, hended⟩ | ⟨hdoomed', hleft⟩
        · refine ⟨result, _, ?_, hended⟩
          rw [moment, Exchange.run_append]
          exact Exchange.calls_run_of_ended hended hnext rest
        · refine ih htracked hnext hdoomed' hfew ?_
          rw [List.count_cons_self] at hmore
          omega
      · refine ih htracked ?_ (hdoomed.later e) hfew ?_
        · rw [moment_concat]
          exact Exchange.calls_perform_of_ne hstep ho
        · rwa [List.count_cons_of_ne hstep] at hmore

/-! ## Messages -/

theorem request_ne_cancellation : c.request ≠ c.cancellation := nofun

theorem Standing.said {stage : CallStage} {view : CallView} {messages : List Message}
    (h : c.Standing since stage view messages) : c.Said since messages := by
  cases h with
  | issued _ => exact .inl rfl
  | unsent _ _ => exact .inl rfl
  | ended _ _ hsaid => exact hsaid
  | _ => exact .inr (.inl rfl)

theorem Said.cancelled {messages : List Message} (h : c.Said since messages)
    (hmem : c.cancellation ∈ messages) :
    messages = [c.request, c.cancellation] ∧ c.Cancelled since := by
  rcases h with rfl | rfl | h
  · cases hmem
  · exact absurd (List.mem_singleton.1 hmem).symm request_ne_cancellation
  · exact h

theorem Said.count_le {messages : List Message} (h : c.Said since messages) :
    messages.count c.cancellation ≤ 1 := by
  by_cases hmem : c.cancellation ∈ messages
  · rw [(h.cancelled hmem).1, List.count_cons_of_ne request_ne_cancellation]
    simp
  · rw [List.count_eq_zero.2 hmem]
    exact Nat.zero_le 1

/-- A call that was withdrawn is so until its next step. -/
theorem Withdrawn.isAt (h : c.Withdrawn since) : c.IsAt since (.withdrawn c.id) := by
  obtain ⟨earlier, later, rfl, ⟨o, ho, hstage⟩, hpending, hlater⟩ := h
  have hknown : ((c.moment earlier).link.pending.cancel c.id).1.isSome = true := by
    rw [PendingCalls.cancel_fst]
    exact hpending
  refine ⟨(o.step c.timeout (c.moment earlier).link).1, ?_, ?_⟩
  · rw [moment_split]
    exact Exchange.calls_run_of_not_mem hlater (Exchange.calls_perform_step ho)
  · simp only [OngoingCall.step, hstage]
    rw [if_pos hknown]

/-- The cancellation is sent if the call was withdrawn while something could be sent. -/
theorem Cancelled.said (h : c.Cancelled since) : c.cancellation ∈ c.start.said c.timeout since := by
  obtain ⟨earlier, e, later, rfl, rfl, hwithdrawn, hopen⟩ := h
  obtain ⟨o, ho, hstage⟩ := hwithdrawn.isAt
  rw [Exchange.said_append, Exchange.said]
  refine List.mem_append_right _ (List.mem_append_left _ ?_)
  change c.cancellation ∈ (c.moment earlier).spoken c.timeout (.step c.index)
  rw [Exchange.spoken_step ho]
  simp [OngoingCall.speech, hopen, hstage, cancellation]

end NumberedCall

end LanguageServer
