import Mathlib.Data.List.Induction
import LanguageServer.Proofs.Client.Endings

set_option autoImplicit false

/-! # All calls of a run

From the start of a connection on, each call that gets a number can be followed to its end
(`LanguageServer.Proofs.Client.Endings`), and every call that has taken a step is such a call. So
each of them ends once, for a reason, and the table holds the calls that wait and nothing else. -/

namespace LanguageServer

namespace NumberedCall

variable {c : NumberedCall} {timeout : Nat} {before since events : List ExchangeEvent}

/-! ## Where a call comes from -/

/-- After these events a call gets its number. -/
structure Begins (c : NumberedCall) (timeout : Nat) (before : List ExchangeEvent) : Prop where
  timeout_eq : c.timeout = timeout
  planned : ∃ o, (Exchange.fresh.run timeout before).calls[c.index]? = some o ∧
    o.stage = .planned ∧ o.call = c.call
  id_eq : c.id = callId ((Exchange.fresh.run timeout before).link.pending.issued + 1)
  start_eq : c.start = Exchange.fresh.run timeout (before ++ [.step c.index])

/-- In these events a call gets its number, and then these happen. -/
def Numbered (c : NumberedCall) (timeout : Nat) (events since : List ExchangeEvent) : Prop :=
  ∃ before, events = before ++ .step c.index :: since ∧ c.Begins timeout before

theorem Begins.moment_eq (h : c.Begins timeout before) (since : List ExchangeEvent) :
    c.moment since = Exchange.fresh.run timeout (before ++ .step c.index :: since) := by
  rw [moment, h.start_eq, h.timeout_eq, ← Exchange.run_append, List.append_assoc]
  rfl

theorem Numbered.moment_eq (h : c.Numbered timeout events since) :
    c.moment since = Exchange.fresh.run timeout events := by
  obtain ⟨before, rfl, hbegins⟩ := h
  exact hbegins.moment_eq since

/-- A call can be followed once it has a number. -/
theorem Begins.tracked (h : c.Begins timeout before) (hfew : (c.moment []).Few) : c.Tracked [] := by
  obtain ⟨o, ho, hstage, hcall⟩ := h.planned
  have hmoment := h.moment_eq []
  rw [hmoment] at hfew
  have hsound := Exchange.sound_fresh.run _ hfew
  have hearlier : (Exchange.fresh.run timeout before).Few := by
    rw [Exchange.run_append] at hfew
    exact hfew.of_run
  have hview := (Exchange.sound_fresh.run _ hearlier).view_next hearlier
  rw [← h.id_eq] at hview
  have hop : (Exchange.fresh.run timeout before).op? (.step c.index) =
      some (.issue c.call.method) := by
    simp [Exchange.op?, ho, OngoingCall.op?, hstage, hcall]
  have hstep : c.moment [] = (Exchange.fresh.run timeout before).perform timeout (.step c.index) := by
    rw [hmoment, Exchange.run_concat]
  have hown : (c.moment []).calls[c.index]? =
      some ⟨c.call, o.limit, .issued c.id⟩ := by
    rw [hstep, Exchange.calls_perform_step ho, OngoingCall.step, hstage, hcall, h.id_eq]
    rfl
  constructor
  · rw [hmoment]
    exact hsound
  · refine ⟨(Exchange.fresh.run timeout before).link.pending.issued, ?_, h.id_eq⟩
    rw [hstep, Exchange.pending_perform, hop]
    exact Nat.lt_succ_self _
  · intro j o' hj hid
    rw [hmoment] at hj hown
    exact hsound.apart j c.index o' _ hj hown c.id hid rfl
  · refine ⟨_, hown, rfl, ?_⟩
    have hawaited : (c.moment []).link.pending.view c.id = .awaited c.call.method := by
      rw [hstep, Exchange.view_perform, hop, hview]
      have hnew : (((Exchange.fresh.run timeout before).link.pending.perform
          (.issue c.call.method)).1) = .issued c.id c.call.method := by
        rw [h.id_eq]
        rfl
      simp [hnew, CallView.next, CallView.blank, CallView.awaited]
    rw [hawaited]
    exact .issued (.undecided (List.forall_mem_nil _))

theorem Numbered.tracked (h : c.Numbered timeout events since)
    (hfew : (Exchange.fresh.run timeout events).Few) {earlier later : List ExchangeEvent}
    (hsince : since = earlier ++ later) : c.Tracked earlier := by
  rw [← h.moment_eq, hsince, moment, Exchange.run_append] at hfew
  obtain ⟨before, -, hbegins⟩ := h
  have hfirst : (c.moment []).Few := hfew.of_run.of_run
  have htracked := (hbegins.tracked hfirst).run earlier hfew.of_run
  rwa [List.nil_append] at htracked

/-- A call that has taken a step has got a number. -/
theorem exists_numbered {index : Nat} {o : OngoingCall}
    (ho : (Exchange.fresh.run timeout events).calls[index]? = some o) (hstage : o.stage ≠ .planned) :
    ∃ (c : NumberedCall) (since : List ExchangeEvent),
      c.Numbered timeout events since ∧ c.index = index := by
  induction events using List.reverseRecOn generalizing o with
  | nil => simp [Exchange.run, Exchange.fresh] at ho
  | append_singleton earlier e ih =>
      have hkept {o' : OngoingCall}
          (ho' : (Exchange.fresh.run timeout earlier).calls[index]? = some o')
          (hstage' : o'.stage ≠ .planned) :
          ∃ (c : NumberedCall) (since : List ExchangeEvent),
            c.Numbered timeout (earlier ++ [e]) since ∧ c.index = index := by
        obtain ⟨c, since, ⟨before, hsplit, hbegins⟩, hindex⟩ := ih ho' hstage'
        exact ⟨c, since ++ [e], ⟨before, by simp [hsplit], hbegins⟩, hindex⟩
      rw [Exchange.run_concat] at ho
      rcases Exchange.calls_perform_cases ho with hold | hnew | ⟨o', rfl, hold, rfl⟩
      · exact hkept hold hstage
      · exact absurd hnew hstage
      · by_cases hplanned : o'.stage = .planned
        · -- It is this step that gives the call its number.
          exact ⟨⟨timeout, Exchange.fresh.run timeout (earlier ++ [.step index]), index,
            callId ((Exchange.fresh.run timeout earlier).link.pending.issued + 1), o'.call⟩, [],
            ⟨earlier, rfl, rfl, ⟨o', hold, hplanned, rfl⟩, rfl, rfl⟩, rfl⟩
        · exact hkept hold hplanned

/-! ## What is said of a call -/

/-- Nothing is said of a call before it has its number. -/
theorem Numbered.said_eq (h : c.Numbered timeout events since)
    (hfew : (Exchange.fresh.run timeout events).Few) :
    (Exchange.fresh.said timeout events).filter (Message.concerns c.id) =
      (c.start.said c.timeout since).filter (Message.concerns c.id) := by
  obtain ⟨before, rfl, hbegins⟩ := h
  obtain ⟨o, ho, hstage, -⟩ := hbegins.planned
  rw [Exchange.run_append] at hfew
  have hbefore : (Exchange.fresh.run timeout before).Few := hfew.of_run
  have hsound := Exchange.sound_fresh.run _ hbefore
  have hearly : (Exchange.fresh.said timeout before).filter (Message.concerns c.id) = [] := by
    rw [List.filter_eq_nil_iff]
    intro m hm hid
    obtain ⟨earlier, index, later, o', rfl, ho', hspeech⟩ := Exchange.exists_speech hm
    rw [Exchange.run_append] at hbefore
    obtain ⟨n, hn, hnumber⟩ := (Exchange.sound_fresh.run _ hbefore.of_run).numbered o'
      (List.mem_of_getElem? ho') _ (OngoingCall.id?_of_speech hspeech hid)
    have hgrown := Exchange.issued_run timeout (Exchange.fresh.run timeout earlier)
      (.step index :: later)
    rw [← Exchange.run_append] at hgrown hbefore
    exact hsound.callId_ne hbefore (Nat.lt_of_lt_of_le hn hgrown) (hbegins.id_eq ▸ hnumber)
  have hsilent : (Exchange.fresh.run timeout before).spoken timeout (.step c.index) = [] := by
    rw [Exchange.spoken_step ho, OngoingCall.speech, hstage]
    exact ite_self _
  rw [Exchange.said_append, List.filter_append, hearly, Exchange.said, hsilent, hbegins.start_eq,
    hbegins.timeout_eq, Exchange.run_concat]
  rfl

/-! ## When a call ends -/

/-- Something has happened after which the call need not wait: its response has been routed, its entry
has been abandoned, it could not be sent, or its time is over. -/
def Decided (c : NumberedCall) (since : List ExchangeEvent) : Prop :=
  (∃ outcome, c.Routed outcome since) ∨ c.Abandoned since ∨ c.Unsendable since ∨ c.TimedOut since

end NumberedCall

theorem OngoingCall.isClosing_step {o : OngoingCall} (h : o.stage.isClosing = true) (timeout : Nat)
    (l : Link) : (o.step timeout l).1.stage.isClosing = true := by
  obtain ⟨call, limit, stage⟩ := o
  cases stage with
  | expired id =>
      simp only [step]
      split <;> rfl
  | unsent id => rfl
  | withdrawn id => rfl
  | ended result => rfl
  | _ => cases h

theorem Exchange.isClosing_run (timeout : Nat) {x : Exchange} {index : Nat} {o : OngoingCall}
    (ho : x.calls[index]? = some o) (h : o.stage.isClosing = true) (events : List ExchangeEvent) :
    ∃ o', (x.run timeout events).calls[index]? = some o' ∧ o'.stage.isClosing = true := by
  induction events generalizing x o with
  | nil => exact ⟨o, ho, h⟩
  | cons e rest ih =>
      by_cases hstep : e = .step index
      · subst hstep
        exact ih (calls_perform_step ho) (OngoingCall.isClosing_step h timeout x.link)
      · exact ih (calls_perform_of_ne hstep ho) h

namespace NumberedCall

variable {c : NumberedCall} {timeout : Nat} {since events : List ExchangeEvent}

/-- A step after which a call need not wait for anything from outside. -/
theorem isClosing_of_happened {P : List ExchangeEvent → ExchangeEvent → Prop}
    (hP : ∀ earlier e, P earlier e → e = .step c.index ∧
      ∃ o, (c.moment earlier).calls[c.index]? = some o ∧
        (o.step c.timeout (c.moment earlier).link).1.stage.isClosing = true)
    (h : Happened P since) {stage : CallStage} (hat : c.IsAt since stage) :
    stage.isClosing = true := by
  obtain ⟨earlier, e, later, rfl, he⟩ := h
  obtain ⟨rfl, o, ho, hclosing⟩ := hP earlier e he
  obtain ⟨o', ho', rfl⟩ := hat
  have hnext : ((c.moment earlier).perform c.timeout (.step c.index)).calls[c.index]? = _ :=
    Exchange.calls_perform_step ho
  obtain ⟨o'', ho'', hclosing'⟩ := Exchange.isClosing_run c.timeout hnext hclosing later
  rw [moment_split, ho''] at ho'
  exact Option.some.inj ho' ▸ hclosing'

theorem Unsendable.isClosing (h : c.Unsendable since) {stage : CallStage} (hat : c.IsAt since stage) :
    stage.isClosing = true := by
  refine isClosing_of_happened ?_ h hat
  rintro earlier e ⟨rfl, ⟨o, ho, hstage⟩, hopen⟩
  refine ⟨rfl, o, ho, ?_⟩
  simp [OngoingCall.step, hstage, Link.send, hopen, CallStage.isClosing]

theorem TimedOut.isClosing (h : c.TimedOut since) {stage : CallStage} (hat : c.IsAt since stage) :
    stage.isClosing = true := by
  refine isClosing_of_happened ?_ h hat
  rintro earlier e ⟨rfl, timer, ⟨o, ho, hstage⟩, hdue⟩
  refine ⟨rfl, o, ho, ?_⟩
  simp only [OngoingCall.step, hstage, hdue]
  split <;> rfl

theorem Decided.doomed (h : c.Decided since) {stage : CallStage} (hat : c.IsAt since stage) :
    c.Doomed since stage := by
  rcases h with ⟨outcome, h⟩ | h | h | h
  · exact .inl h.ruled
  · exact .inl h.ruled
  · exact .inr (h.isClosing hat)
  · exact .inr (h.isClosing hat)

/-! ## The table -/

end NumberedCall

theorem PendingCalls.entries_eq_nil {p : PendingCalls} (h : ∀ id, p.contains id = false) :
    p.entries = [] := by
  cases hentries : p.entries with
  | nil => rfl
  | cons entry rest =>
      obtain ⟨id, method⟩ := entry
      have hfound := h id
      simp [contains, hentries] at hfound

theorem CallStage.id?_of_pending? {stage : CallStage} {id : RequestId}
    (h : stage.pending? = some id) : stage.id? = some id := by
  cases stage with
  | planned => cases h
  | withdrawn key => cases h
  | ended result => cases h
  | _ => exact h

namespace NumberedCall

variable {c : NumberedCall} {timeout : Nat} {since events : List ExchangeEvent}

/-- The call waits: it can still be in the table, and nothing has decided it. -/
def Waits (c : NumberedCall) (since : List ExchangeEvent) : Prop :=
  c.Unruled since ∧ ∃ stage, c.IsAt since stage ∧ stage.pending? = some c.id

theorem Standing.entry_iff {stage : CallStage} {view : CallView} {messages : List Message}
    (h : c.Standing since stage view messages) :
    view.entry ≠ none ↔ c.Unruled since ∧ stage.pending? = some c.id := by
  have hover {stage : CallStage} (hentry : view.entry = none) (hstage : stage.pending? = none) :
      view.entry ≠ none ↔ c.Unruled since ∧ stage.pending? = some c.id := by
    simp [hentry, hstage]
  cases h with
  | withdrawn hentry _ _ => exact hover hentry rfl
  | ended hentry _ _ => exact hover hentry rfl
  | issued h => simpa [CallStage.pending?] using h.entry_iff
  | unsent h _ => simpa [CallStage.pending?] using h.entry_iff
  | sent h => simpa [CallStage.pending?] using h.entry_iff
  | waiting _ h => simpa [CallStage.pending?] using h.entry_iff
  | expired h _ => simpa [CallStage.pending?] using h.entry_iff

theorem Tracked.isPending_iff_waits (h : c.Tracked since) : c.IsPending since ↔ c.Waits since := by
  obtain ⟨o, ho, -, hstanding⟩ := h.standing
  rw [isPending_iff, hstanding.entry_iff, Waits]
  constructor
  · rintro ⟨hunruled, hstage⟩
    exact ⟨hunruled, o.stage, ⟨o, ho, rfl⟩, hstage⟩
  · rintro ⟨hunruled, stage, ⟨o', ho', rfl⟩, hstage⟩
    obtain rfl : o = o' := Option.some.inj (ho.symm.trans ho')
    exact ⟨hunruled, hstage⟩

theorem Standing.id_eq {stage : CallStage} {view : CallView} {messages : List Message}
    {id : RequestId} (h : c.Standing since stage view messages) (hid : stage.id? = some id) :
    c.id = id := by
  cases h with
  | ended _ _ _ => cases hid
  | _ => exact Option.some.inj hid

/-! ## Results -/

/-- How a call ends in a run in which the given messages are sent for calls. -/
structure EndsOnce (c : NumberedCall) (said : List Message) (since : List ExchangeEvent) : Prop where
  /-- Once it is decided, the call ends as soon as it has taken the steps that it has left. -/
  prompt : ∀ earlier later stage, since = earlier ++ later → c.Decided earlier →
    c.IsAt earlier stage → stage.left ≤ later.count (.step c.index) →
    ∃ result, c.IsAt since (.ended result)
  /-- Its result is there for good. -/
  final : ∀ result, c.IsAt since (.ended result) → ∀ more, c.IsAt (since ++ more) (.ended result)
  /-- Its result has a cause. -/
  caused : ∀ result, c.IsAt since (.ended result) → c.Caused since result
  /-- The client is told to forget about it if it is withdrawn and something can be sent. -/
  cancelled : c.cancellation ∈ said ↔ c.Cancelled since
  once : said.count c.cancellation ≤ 1
  after_request : ∀ earlier later, said = earlier ++ c.cancellation :: later → c.request ∈ earlier

theorem IsAt.final {result : CallResult} (h : c.IsAt since (.ended result))
    (more : List ExchangeEvent) : c.IsAt (since ++ more) (.ended result) := by
  obtain ⟨o, ho, hstage⟩ := h
  refine ⟨o, ?_, hstage⟩
  rw [moment, Exchange.run_append]
  exact Exchange.calls_run_of_ended hstage ho more

theorem Tracked.caused (h : c.Tracked since) {result : CallResult}
    (hat : c.IsAt since (.ended result)) : c.Caused since result := by
  obtain ⟨o, ho, -, hstanding⟩ := h.standing
  obtain ⟨o', ho', hstage⟩ := hat
  obtain rfl : o = o' := Option.some.inj (ho.symm.trans ho')
  rw [hstage] at hstanding
  cases hstanding with
  | ended _ hcaused _ => exact hcaused

theorem Numbered.endsOnce (h : c.Numbered timeout events since)
    (hfew : (Exchange.fresh.run timeout events).Few) :
    c.EndsOnce (Exchange.fresh.said timeout events) since := by
  have hfew' := h.moment_eq ▸ hfew
  have htracked : c.Tracked since := h.tracked hfew (List.append_nil since).symm
  have hown : c.Said since ((Exchange.fresh.said timeout events).filter (Message.concerns c.id)) := by
    obtain ⟨o, -, -, hstanding⟩ := htracked.standing
    rw [h.said_eq hfew]
    exact hstanding.said
  have hconcerns : c.cancellation.concerns c.id = true := concerns_cancellation
  constructor
  · rintro earlier later stage rfl hdecided hat hleft
    obtain ⟨o, ho, rfl⟩ := hat
    exact (h.tracked hfew rfl).ends ho (hdecided.doomed ⟨o, ho, rfl⟩) later hfew' hleft
  · exact fun result hat more => hat.final more
  · exact fun result hat => htracked.caused hat
  · constructor
    · intro hsaid
      exact (hown.cancelled (List.mem_filter.2 ⟨hsaid, hconcerns⟩)).2
    · intro hcancelled
      have hsaid := List.mem_filter.2 ⟨hcancelled.said, hconcerns⟩
      rw [← h.said_eq hfew] at hsaid
      exact (List.mem_filter.1 hsaid).1
  · rw [← List.count_filter hconcerns]
    exact hown.count_le
  · intro earlier later hsaid
    have hmem : c.cancellation ∈ Exchange.fresh.said timeout events := by simp [hsaid]
    have hboth := (hown.cancelled (List.mem_filter.2 ⟨hmem, hconcerns⟩)).1
    rw [hsaid, List.filter_append, List.filter_cons_of_pos hconcerns] at hboth
    cases hearlier : earlier.filter (Message.concerns c.id) with
    | nil =>
        rw [hearlier] at hboth
        exact absurd (List.cons.inj hboth).1.symm request_ne_cancellation
    | cons m rest =>
        rw [hearlier] at hboth
        have hm : m ∈ earlier.filter (Message.concerns c.id) := hearlier ▸ List.mem_cons_self
        exact (List.cons.inj hboth).1 ▸ (List.mem_filter.1 hm).1

end NumberedCall

namespace Exchange

variable {timeout : Nat} {events : List ExchangeEvent}

/-- A call that is under way has a number, and can be followed. -/
theorem exists_tracked (hfew : (fresh.run timeout events).Few) {index : Nat} {o : OngoingCall}
    {id : RequestId} (ho : (fresh.run timeout events).calls[index]? = some o)
    (hid : o.stage.id? = some id) :
    ∃ (c : NumberedCall) (since : List ExchangeEvent),
      c.Numbered timeout events since ∧ c.id = id ∧ c.Tracked since := by
  have hstage : o.stage ≠ .planned := fun hplanned => by
    rw [hplanned] at hid
    cases hid
  obtain ⟨c, since, hnumbered, rfl⟩ := NumberedCall.exists_numbered ho hstage
  have htracked := hnumbered.tracked hfew (List.append_nil since).symm
  obtain ⟨o', ho', -, hstanding⟩ := htracked.standing
  rw [hnumbered.moment_eq] at ho'
  obtain rfl : o = o' := Option.some.inj (ho.symm.trans ho')
  exact ⟨c, since, hnumbered, hstanding.id_eq hid, htracked⟩

/-- The calls in the table are those that wait. -/
theorem contains_iff (hfew : (fresh.run timeout events).Few) (id : RequestId) :
    (fresh.run timeout events).link.pending.contains id = true ↔
      ∃ (c : NumberedCall) (since : List ExchangeEvent),
        c.Numbered timeout events since ∧ c.id = id ∧ c.Waits since := by
  constructor
  · intro hcontains
    have hentry : ((fresh.run timeout events).link.pending.view id).entry ≠ none :=
      Option.isSome_iff_ne_none.1 hcontains
    obtain ⟨o, hmem, hid⟩ := (sound_fresh.run _ hfew).listed id hentry
    obtain ⟨index, ho⟩ := List.mem_iff_getElem?.1 hmem
    obtain ⟨c, since, hnumbered, rfl, htracked⟩ :=
      exists_tracked hfew ho (CallStage.id?_of_pending? hid)
    refine ⟨c, since, hnumbered, rfl, htracked.isPending_iff_waits.1 ?_⟩
    rw [NumberedCall.IsPending, hnumbered.moment_eq]
    exact hcontains
  · rintro ⟨c, since, hnumbered, rfl, hwaits⟩
    have htracked := hnumbered.tracked hfew (List.append_nil since).symm
    rw [← hnumbered.moment_eq]
    exact htracked.isPending_iff_waits.2 hwaits

/-- The client is told to forget about calls only. -/
theorem numbered_of_cancellation (hfew : (fresh.run timeout events).Few) {id : RequestId}
    (h : Link.cancellation id ∈ fresh.said timeout events) :
    ∃ (c : NumberedCall) (since : List ExchangeEvent),
      c.Numbered timeout events since ∧ c.id = id := by
  obtain ⟨earlier, index, later, o, rfl, ho, hspeech⟩ := exists_speech h
  rw [run_append] at hfew
  have hid : o.stage.id? = some id :=
    OngoingCall.id?_of_speech hspeech (by simp [Message.concerns, Link.cancellation])
  obtain ⟨c, since, ⟨before, rfl, hbegins⟩, rfl, -⟩ := exists_tracked hfew.of_run ho hid
  exact ⟨c, since ++ .step index :: later, ⟨before, by simp, hbegins⟩, rfl⟩

/-- Calls end once, for a reason, and leave nothing behind. Every call that has taken a step has a
number; followed from then on, it ends once (`NumberedCall.EndsOnce`). No other call is cancelled. The
table holds the calls that wait, so it is empty if there are none. -/
theorem run_callEndings (timeout : Nat) (events : List ExchangeEvent)
    (hfew : (fresh.run timeout events).Few) :
    (∀ index o, (fresh.run timeout events).calls[index]? = some o → o.stage ≠ .planned →
      ∃ (c : NumberedCall) (since : List ExchangeEvent),
        c.Numbered timeout events since ∧ c.index = index) ∧
    (∀ (c : NumberedCall) (since : List ExchangeEvent), c.Numbered timeout events since →
      c.EndsOnce (fresh.said timeout events) since) ∧
    (∀ id, Link.cancellation id ∈ fresh.said timeout events →
      ∃ (c : NumberedCall) (since : List ExchangeEvent),
        c.Numbered timeout events since ∧ c.id = id) ∧
    (∀ id, (fresh.run timeout events).link.pending.contains id = true ↔
      ∃ (c : NumberedCall) (since : List ExchangeEvent),
        c.Numbered timeout events since ∧ c.id = id ∧ c.Waits since) ∧
    ((∀ (c : NumberedCall) (since : List ExchangeEvent), c.Numbered timeout events since →
      ¬ c.Waits since) → (fresh.run timeout events).link.pending.entries = []) := by
  refine ⟨?_, ?_, ?_, ?_, ?_⟩
  · exact fun index o ho hstage => NumberedCall.exists_numbered ho hstage
  · exact fun c since hnumbered => hnumbered.endsOnce hfew
  · exact fun id hcancelled => numbered_of_cancellation hfew hcancelled
  · exact contains_iff hfew
  · intro hnone
    refine PendingCalls.entries_eq_nil fun id => ?_
    rw [Bool.eq_false_iff]
    intro hcontains
    obtain ⟨c, since, hnumbered, -, hwaits⟩ := (contains_iff hfew id).1 hcontains
    exact hnone c since hnumbered hwaits

/-- Four calls. The first is answered, after a response to nobody and before one that comes too
late. The second waits too long, the third is abandoned, and the fourth cannot be sent. -/
def fourCalls : List ExchangeEvent :=
  [.begun ⟨"first", none, none⟩, .begun ⟨"second", none, none⟩, .begun ⟨"third", none, none⟩,
    .step 0, .step 1, .step 1, .step 0, .step 0, .step 1,
    .response ⟨some (.number 7), .result .null⟩, .response ⟨some (.number 1), .result (.bool true)⟩,
    .response ⟨some (.number 1), .result .null⟩, .step 0,
    .tick 50, .step 1, .step 1, .step 1, .response ⟨some (.number 2), .result .null⟩,
    .step 2, .step 2, .step 2, .abandoned, .step 2,
    .writerClosed, .begun ⟨"fourth", none, none⟩, .step 3, .step 3, .step 3]

theorem fourCalls_callEndings :
    (fresh.run 50 fourCalls).Few ∧
    (fresh.run 50 fourCalls).calls.map OngoingCall.stage =
      [.ended (.answered (.bool true)), .ended (.failed (.timedOut "second" 50)),
        .ended (.failed (.abandoned "third")), .ended (.failed .disconnected)] ∧
    fresh.said 50 fourCalls =
      [.request ⟨.number 2, "second", none⟩, .request ⟨.number 1, "first", none⟩,
        Link.cancellation (.number 2), .request ⟨.number 3, "third", none⟩] ∧
    ∀ (c : NumberedCall) (since : List ExchangeEvent), c.Numbered 50 fourCalls since →
      c.EndsOnce (fresh.said 50 fourCalls) since :=
  ⟨by decide, by decide, by decide, (run_callEndings 50 fourCalls (by decide)).2.1⟩

end Exchange

end LanguageServer
