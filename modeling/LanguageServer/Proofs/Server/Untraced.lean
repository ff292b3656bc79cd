import LanguageServer.Proofs.Server.Refusal

set_option autoImplicit false

/-! # Connections that differ in tracing only

`Connection.Like` relates connections that are the same but for the level of tracing and for entries
of the client's trace, sent or about to be sent; what the reader is to read is left out of it.
Whatever handlers do keeps connections alike, as long as they do not look at the level
(`Program.Blind`). The level shows at two places. Handlers can ask for it; and a handler that writes
to the trace is told whether that was possible, which it always is when nothing has to be written. -/

namespace LanguageServer

/-! ## The line -/

/-- The messages but for entries of the client's trace. -/
def untraced (ms : List Message) : List Message := ms.filter (!·.isTrace)

theorem untraced_append (ms ms' : List Message) :
    untraced (ms ++ ms') = untraced ms ++ untraced ms' :=
  List.filter_append ..

theorem untraced_trace {n : Notification} (h : n.method = Method.logTrace) :
    untraced [.notification n] = [] := by
  simp [untraced, Message.isTrace, h]

namespace Link

/-- Lines that are the same but for entries of the client's trace. -/
structure Like (l l' : Link) : Prop where
  pending : l.pending = l'.pending
  outbox : untraced l.outbox = untraced l'.outbox
  written : untraced l.written = untraced l'.written
  writerOpen : l.writerOpen = l'.writerOpen
  outputOpen : l.outputOpen = l'.outputOpen
  clock : l.clock = l'.clock
  timersSet : l.timersSet = l'.timersSet
  withdrawals : l.withdrawals = l'.withdrawals

variable {l l' l'' : Link}

theorem Like.refl (l : Link) : l.Like l := ⟨rfl, rfl, rfl, rfl, rfl, rfl, rfl, rfl⟩

theorem Like.symm (h : l.Like l') : l'.Like l :=
  ⟨h.pending.symm, h.outbox.symm, h.written.symm, h.writerOpen.symm, h.outputOpen.symm,
    h.clock.symm, h.timersSet.symm, h.withdrawals.symm⟩

theorem Like.trans (h : l.Like l') (h' : l'.Like l'') : l.Like l'' :=
  ⟨h.pending.trans h'.pending, h.outbox.trans h'.outbox, h.written.trans h'.written,
    h.writerOpen.trans h'.writerOpen, h.outputOpen.trans h'.outputOpen, h.clock.trans h'.clock,
    h.timersSet.trans h'.timersSet, h.withdrawals.trans h'.withdrawals⟩

theorem Like.send (h : l.Like l') (m : Message) :
    (l.send m).1 = (l'.send m).1 ∧ (l.send m).2.Like (l'.send m).2 := by
  have hopen := h.writerOpen
  by_cases hl : l.writerOpen = true
  · have hl' : l'.writerOpen = true := hopen ▸ hl
    rw [Link.send, Link.send, if_pos hl, if_pos hl']
    refine ⟨rfl, { h with outbox := ?_ }⟩
    rw [untraced_append, untraced_append, h.outbox]
  · have hl' : ¬ l'.writerOpen = true := hopen ▸ hl
    rw [Link.send, Link.send, if_neg hl, if_neg hl']
    exact ⟨rfl, h⟩

theorem Like.post (h : l.Like l') (m : Message) : (l.post m).Like (l'.post m) := (h.send m).2

/-- An entry of the client's trace makes no difference. -/
theorem like_send_trace (l : Link) {n : Notification} (hn : n.method = Method.logTrace) :
    (l.send (.notification n)).2.Like l := by
  unfold Link.send
  split
  · refine { Like.refl l with outbox := ?_ }
    rw [untraced_append, untraced_trace hn, List.append_nil]
  · exact Like.refl l

theorem Like.setTimer (h : l.Like l') (milliseconds : Nat) :
    (l.setTimer milliseconds).1 = (l'.setTimer milliseconds).1 ∧
      (l.setTimer milliseconds).2.Like (l'.setTimer milliseconds).2 := by
  refine ⟨?_, { h with timersSet := congrArg (· + 1) h.timersSet }⟩
  rw [Link.setTimer, Link.setTimer, h.clock, h.timersSet]

theorem Like.desert (h : l.Like l') (id : RequestId) : (l.desert id).Like (l'.desert id) :=
  { h with
    pending := congrArg (·.dropWaiter id) h.pending
    withdrawals := by rw [Link.desert, Link.desert, h.withdrawals] }

theorem Like.foldl_desert (h : l.Like l') (ids : List RequestId) :
    (ids.foldl Link.desert l).Like (ids.foldl Link.desert l') := by
  induction ids generalizing l l' with
  | nil => exact h
  | cons id ids ih => exact ih (h.desert id)

theorem Like.dismiss (h : l.Like l') (id : RequestId) : (l.dismiss id).Like (l'.dismiss id) :=
  { h with withdrawals := by rw [Link.dismiss, Link.dismiss, h.withdrawals] }

theorem Like.withdraw (h : l.Like l') (id : RequestId) : (l.withdraw id).Like (l'.withdraw id) := by
  have hknown : l.withdrawal? id = l'.withdrawal? id := by
    rw [withdrawal?, withdrawal?, h.withdrawals]
  unfold Link.withdraw
  rw [hknown]
  split
  · exact h
  · exact (h.dismiss id).post _
  · simp only [h.pending]
    split
    · exact { h with
        pending := rfl
        withdrawals := by rw [h.withdrawals] }
    · have hcancelled : Like { l with pending := (l'.pending.cancel id).2 }
          { l' with pending := (l'.pending.cancel id).2 } := { h with pending := rfl }
      exact hcancelled.dismiss id

end Link

/-! ## Calls -/

namespace OngoingCall

variable {l l' : Link}

theorem plan_like (h : l.Like l') (call : Call) :
    (plan call l).1 = (plan call l').1 ∧ (plan call l).2.Like (plan call l').2 := by
  unfold plan
  split
  · exact ⟨rfl, h⟩
  · next within _ =>
      obtain ⟨htimer, hlink⟩ := h.setTimer within
      exact ⟨congrArg (fun limit => (⟨call, some limit, .planned⟩ : OngoingCall)) htimer, hlink⟩

theorem planAll_like (h : l.Like l') (calls : List Call) :
    (planAll calls l).1 = (planAll calls l').1 ∧ (planAll calls l).2.Like (planAll calls l').2 := by
  induction calls generalizing l l' with
  | nil => exact ⟨rfl, h⟩
  | cons call rest ih =>
      obtain ⟨hcall, hlink⟩ := plan_like h call
      obtain ⟨hrest, hlink'⟩ := ih hlink
      simp only [planAll, hcall, hrest]
      exact ⟨trivial, hlink'⟩

theorem step_like (h : l.Like l') (timeout : Nat) (o : OngoingCall) :
    (step timeout o l).1 = (step timeout o l').1 ∧
      (step timeout o l).2.Like (step timeout o l').2 := by
  obtain ⟨call, limit, stage⟩ := o
  cases stage with
  | planned =>
      simp only [step, h.pending]
      exact ⟨trivial, { h with pending := rfl }⟩
  | issued id =>
      obtain ⟨hsent, hlink⟩ := h.send (.request ⟨id, call.method, call.params⟩)
      simp only [step, hsent]
      exact ⟨trivial, hlink⟩
  | unsent id =>
      simp only [step, h.pending]
      exact ⟨trivial, { h with pending := rfl }⟩
  | sent id =>
      obtain ⟨htimer, hlink⟩ := h.setTimer timeout
      simp only [step, htimer]
      exact ⟨trivial, hlink⟩
  | waiting id timer =>
      simp only [step, h.pending, h.clock]
      split
      · exact ⟨rfl, h⟩
      · exact ⟨rfl, h⟩
      · exact ⟨rfl, h⟩
      · split
        · exact ⟨rfl, h⟩
        · exact ⟨rfl, h⟩
  | expired id =>
      simp only [step, h.pending]
      split
      · exact ⟨rfl, { h with pending := rfl }⟩
      · exact ⟨rfl, { h with pending := rfl }⟩
  | withdrawn id => exact ⟨rfl, h.post _⟩
  | ended result => exact ⟨rfl, h⟩

theorem giveUp_like (h : l.Like l') (o : OngoingCall) :
    (giveUp o l).1 = (giveUp o l').1 ∧ (giveUp o l).2.Like (giveUp o l').2 := by
  have hoverdue : o.isOverdue l = o.isOverdue l' := by rw [isOverdue, isOverdue, h.clock]
  unfold giveUp
  rw [hoverdue]
  split
  · refine ⟨rfl, ?_⟩
    dsimp only
    split
    · exact h.desert _
    · exact h
  · exact ⟨rfl, h⟩

theorem atIndex_like {f : OngoingCall → Link → OngoingCall × Link}
    (hf : ∀ (o : OngoingCall) {l l' : Link}, l.Like l' →
      (f o l).1 = (f o l').1 ∧ (f o l).2.Like (f o l').2)
    (h : l.Like l') (index : Nat) (calls : List OngoingCall) :
    (atIndex f index calls l).1 = (atIndex f index calls l').1 ∧
      (atIndex f index calls l).2.Like (atIndex f index calls l').2 := by
  unfold atIndex
  split
  · exact ⟨rfl, h⟩
  · next o _ =>
      obtain ⟨hcall, hlink⟩ := hf o h
      exact ⟨congrArg (calls.set index) hcall, hlink⟩

end OngoingCall

/-! ## What handlers look at -/

/-- What comes next is the same whether or not the client's trace could be written to. -/
def Wait.Heedless : (w : Wait) → (w.Answer → Program) → Prop
  | .logTrace .., next => next false = next true
  | .sleep _, _ | .cancellation _, _ | .call _, _ | .calls _, _ => True

/-- A handler that does not look at the level of tracing. It does not ask for it; and if the line
breaks at some time, it does not ask either whether its own entries could be written, since that
tells whether there was anything to write. -/
def Program.Blind (breaks : Prop) : Program → Prop
  | .finish _ | .crash => True
  | .act a next => a ≠ .traceLevel ∧ ∀ answer, (next answer).Blind breaks
  | .wait w next => (breaks → w.Heedless next) ∧ ∀ answer, (next answer).Blind breaks

namespace Activity

/-- A handler at work that does not look at the level of tracing. -/
def Blind (breaks : Prop) : Activity → Prop
  | .running p | .sleeping _ p | .untilCancelled _ p => p.Blind breaks
  | .tracing entry next =>
    (∀ n, entry = some n → n.method = Method.logTrace) ∧ (breaks → next false = next true) ∧
      ∀ sent, (next sent).Blind breaks
  | .calling _ next => ∀ result, (next result).Blind breaks
  | .callingAll _ next => ∀ results, (next results).Blind breaks
  | .ended _ => True

/-- The handler but for the entry that it writes to the client's trace. -/
def untraced : Activity → Activity
  | .tracing _ next => .tracing none next
  | a => a

theorem eq_or_tracing {a a' : Activity} (h : a.untraced = a'.untraced) :
    a = a' ∨ ∃ entry entry' next, a = .tracing entry next ∧ a' = .tracing entry' next := by
  cases a with
  | tracing entry next =>
      cases a' with
      | tracing entry' next' =>
          obtain rfl : next = next' := (Activity.tracing.inj h).2
          exact .inr ⟨entry, entry', next, rfl, rfl⟩
      | _ => cases h
  | _ =>
      cases a' with
      | tracing entry' next' => cases h
      | _ => exact .inl h

end Activity

namespace TaskStage

def Blind (breaks : Prop) : TaskStage → Prop
  | .working a => a.Blind breaks
  | .unlisted _ | .replying _ => True

def untraced : TaskStage → TaskStage
  | .working a => .working a.untraced
  | .unlisted own => .unlisted own
  | .replying outcome => .replying outcome

end TaskStage

def Task.untraced (t : Task) : Task := { t with stage := t.stage.untraced }

def CurrentCall.untraced (call : CurrentCall) : CurrentCall :=
  { call with activity := call.activity.untraced }

/-- No handler looks at the level of tracing. -/
structure Server.Blind (breaks : Prop) (s : Server) : Prop where
  requests : ∀ method h, s.requests.lookup method = some h →
    ∀ params cx, (h params cx).Blind breaks
  notifications : ∀ method h, s.notifications.lookup method = some h →
    ∀ params n, (h params n).Blind breaks

namespace Connection

/-- No handler at work or waiting for its turn looks at the level of tracing. -/
structure Blind (breaks : Prop) (c : Connection) : Prop where
  tasks : ∀ t ∈ c.tasks, t.stage.Blind breaks
  queue : ∀ call ∈ c.queue, call.program.Blind breaks
  current : ∀ call, c.current = some call → call.activity.Blind breaks

/-- Connections that are the same but for tracing and for what the reader has in hand and in front
of it. -/
structure Like (c c' : Connection) : Prop where
  session : c.session.setTrace .off = c'.session.setTrace .off
  documents : c.documents = c'.documents
  cache : c.cache = c'.cache
  inFlight : c.inFlight = c'.inFlight
  fired : c.fired = c'.fired
  tasks : c.tasks.map Task.untraced = c'.tasks.map Task.untraced
  spawned : c.spawned = c'.spawned
  queue : c.queue = c'.queue
  current : c.current.map CurrentCall.untraced = c'.current.map CurrentCall.untraced
  finished : c.finished = c'.finished
  progress : c.progress = c'.progress
  streams : c.streams = c'.streams
  link : c.link.Like c'.link
  ending : c.ending = c'.ending

variable {c c' c'' : Connection} {breaks : Prop}

theorem Like.refl (c : Connection) : c.Like c :=
  ⟨rfl, rfl, rfl, rfl, rfl, rfl, rfl, rfl, rfl, rfl, rfl, rfl, Link.Like.refl c.link, rfl⟩

theorem Like.symm (h : c.Like c') : c'.Like c :=
  ⟨h.session.symm, h.documents.symm, h.cache.symm, h.inFlight.symm, h.fired.symm, h.tasks.symm,
    h.spawned.symm, h.queue.symm, h.current.symm, h.finished.symm, h.progress.symm, h.streams.symm,
    h.link.symm, h.ending.symm⟩

theorem Like.trans (h : c.Like c') (h' : c'.Like c'') : c.Like c'' :=
  ⟨h.session.trans h'.session, h.documents.trans h'.documents, h.cache.trans h'.cache,
    h.inFlight.trans h'.inFlight, h.fired.trans h'.fired, h.tasks.trans h'.tasks,
    h.spawned.trans h'.spawned, h.queue.trans h'.queue, h.current.trans h'.current,
    h.finished.trans h'.finished, h.progress.trans h'.progress, h.streams.trans h'.streams,
    h.link.trans h'.link, h.ending.trans h'.ending⟩

/-! ## The steps of handlers -/

theorem noteProgress_like (h : c.Like c') (a : ProgressAction) :
    (c.noteProgress a).1 = (c'.noteProgress a).1 ∧
      (c.noteProgress a).2.Like (c'.noteProgress a).2 := by
  unfold noteProgress
  rw [h.progress]
  dsimp only
  split
  · exact ⟨rfl, { h with progress := rfl }⟩
  · exact ⟨rfl, h⟩

theorem Like.isFired (h : c.Like c') (token : CancelToken) :
    c.isFired token = c'.isFired token := by
  rw [Connection.isFired, Connection.isFired, h.fired]

theorem Like.fire (h : c.Like c') (token : CancelToken) : (c.fire token).Like (c'.fire token) := by
  unfold Connection.fire
  by_cases hgiven : token < c.spawned
  · rw [if_pos hgiven, if_pos (h.spawned ▸ hgiven)]
    exact { h with fired := congrArg (·.insert token) h.fired }
  · rw [if_neg hgiven, if_neg (h.spawned ▸ hgiven)]
    exact h

theorem perform_like (h : c.Like c') {a : Action} (ha : a ≠ .traceLevel) :
    (c.perform a).1 = (c'.perform a).1 ∧ (c.perform a).2.Like (c'.perform a).2 := by
  cases a with
  | document uri => exact ⟨congrArg (·.get? uri) h.documents, h⟩
  | openCount => exact ⟨congrArg (·.size) h.documents, h⟩
  | traceLevel => exact absurd rfl ha
  | isCancelled token => exact ⟨h.isFired token, h⟩
  | fire token => exact ⟨rfl, h.fire token⟩
  | send n =>
      obtain ⟨hsent, hlink⟩ := h.link.send (.notification n)
      exact ⟨hsent, { h with link := hlink }⟩
  | progress a => exact noteProgress_like h a
  | nextStream =>
      have hnext := congrArg (· + 1) h.streams
      exact ⟨hnext, { h with streams := hnext }⟩
  | tokensFull uri data =>
      exact ⟨congrArg (fun cache => (cache.full uri data).1) h.cache,
        { h with cache := congrArg (fun cache => (cache.full uri data).2) h.cache }⟩
  | tokensDelta uri previous data =>
      exact ⟨congrArg (fun cache => (cache.delta uri previous data).1) h.cache,
        { h with cache := congrArg (fun cache => (cache.delta uri previous data).2) h.cache }⟩

end Connection

namespace Activity

variable {c c' : Connection} {breaks : Prop}

/-- A handler that writes to the client's trace goes on as if it had been able to. -/
theorem forward_tracing {entry : Option Notification} {next : Bool → Program}
    (hblind : (Activity.tracing entry next).Blind breaks)
    (hopen : c.link.writerOpen = true ∨ breaks) :
    ((Activity.tracing entry next).forward c).1 = .running (next true) ∧
      ((Activity.tracing entry next).forward c).2.Like c := by
  obtain ⟨htrace, hheedless, -⟩ := hblind
  cases entry with
  | none => exact ⟨rfl, .refl c⟩
  | some n =>
      have hlink := Link.like_send_trace c.link (htrace n rfl)
      refine ⟨?_, { Connection.Like.refl c with link := hlink }⟩
      show Activity.running (next (c.link.send (.notification n)).1) = _
      rcases hopen with hopen | hbreaks
      · rw [Link.send, if_pos hopen]
      · cases (c.link.send (.notification n)).1 with
        | true => rfl
        | false => rw [hheedless hbreaks]

/-- One of two handlers may have nothing to write where the other has an entry. -/
theorem forward_tracing_like {entry entry' : Option Notification} {next : Bool → Program}
    (hblind : (Activity.tracing entry next).Blind breaks)
    (hblind' : (Activity.tracing entry' next).Blind breaks)
    (hopen : c.link.writerOpen = true ∨ breaks) (h : c.Like c') :
    ((Activity.tracing entry next).forward c).1.untraced =
        ((Activity.tracing entry' next).forward c').1.untraced ∧
      ((Activity.tracing entry next).forward c).2.Like
        ((Activity.tracing entry' next).forward c').2 := by
  obtain ⟨hnext, hlike⟩ := forward_tracing hblind hopen
  obtain ⟨hnext', hlike'⟩ := forward_tracing hblind' (h.link.writerOpen ▸ hopen)
  exact ⟨by rw [hnext, hnext'], (hlike.trans h).trans hlike'.symm⟩

theorem forward_like {a a' : Activity} (ha : a.untraced = a'.untraced) (hblind : a.Blind breaks)
    (hblind' : a'.Blind breaks) (hopen : c.link.writerOpen = true ∨ breaks) (h : c.Like c') :
    (a.forward c).1.untraced = (a'.forward c').1.untraced ∧
      (a.forward c).2.Like (a'.forward c').2 := by
  obtain rfl | ⟨entry, entry', next, rfl, rfl⟩ := eq_or_tracing ha
  · cases a with
    | running p =>
        cases p with
        | finish outcome => exact ⟨rfl, h⟩
        | crash => exact ⟨rfl, h⟩
        | act a next =>
            obtain ⟨hanswer, hlike⟩ := Connection.perform_like h hblind.1
            exact ⟨congrArg (fun answer => Activity.running (next answer)) hanswer, hlike⟩
        | wait w next =>
            cases w with
            | sleep milliseconds =>
                obtain ⟨htimer, hlink⟩ := h.link.setTimer milliseconds
                exact ⟨congrArg (fun timer => Activity.sleeping timer (next ())) htimer,
                  { h with link := hlink }⟩
            | cancellation token => exact ⟨rfl, h⟩
            | logTrace message verbose => exact ⟨rfl, h⟩
            | call call =>
                obtain ⟨hcall, hlink⟩ := OngoingCall.plan_like h.link call
                exact ⟨congrArg (fun call => Activity.calling call next) hcall,
                  { h with link := hlink }⟩
            | calls calls =>
                obtain ⟨hcalls, hlink⟩ := OngoingCall.planAll_like h.link calls
                exact ⟨congrArg (fun calls => Activity.callingAll calls next) hcalls,
                  { h with link := hlink }⟩
    | sleeping timer next =>
        simp only [forward, h.link.clock]
        split
        · exact ⟨rfl, h⟩
        · exact ⟨rfl, h⟩
    | untilCancelled token next =>
        simp only [forward, h.isFired]
        split
        · exact ⟨rfl, h⟩
        · exact ⟨rfl, h⟩
    | tracing entry next => exact forward_tracing_like hblind hblind' hopen h
    | calling call next =>
        simp only [forward]
        split
        · exact ⟨rfl, h⟩
        · exact ⟨rfl, h⟩
    | callingAll calls next =>
        simp only [forward]
        split
        · exact ⟨rfl, h⟩
        · exact ⟨rfl, h⟩
    | ended outcome => exact ⟨rfl, h⟩
  · exact forward_tracing_like hblind hblind' hopen h

theorem atCall_like {f : OngoingCall → Link → OngoingCall × Link}
    (hf : ∀ (o : OngoingCall) {l l' : Link}, l.Like l' →
      (f o l).1 = (f o l').1 ∧ (f o l).2.Like (f o l').2)
    {a a' : Activity} (ha : a.untraced = a'.untraced) (h : c.Like c') (index : Nat) :
    (a.atCall f index c).1.untraced = (a'.atCall f index c').1.untraced ∧
      (a.atCall f index c).2.Like (a'.atCall f index c').2 := by
  obtain rfl | ⟨entry, entry', next, rfl, rfl⟩ := eq_or_tracing ha
  · cases a with
    | calling call next =>
        obtain ⟨hcall, hlink⟩ := hf call h.link
        exact ⟨congrArg (fun call => Activity.calling call next) hcall, { h with link := hlink }⟩
    | callingAll calls next =>
        obtain ⟨hcalls, hlink⟩ := OngoingCall.atIndex_like hf h.link index calls
        exact ⟨congrArg (fun calls => Activity.callingAll calls next) hcalls,
          { h with link := hlink }⟩
    | _ => exact ⟨rfl, h⟩
  · exact ⟨rfl, h⟩

/-- **A step of a handler that does not look at the level.** -/
theorem step_like {a a' : Activity} (ha : a.untraced = a'.untraced) (hblind : a.Blind breaks)
    (hblind' : a'.Blind breaks) (hopen : c.link.writerOpen = true ∨ breaks) (h : c.Like c')
    (timeout : Nat) (move : Move) :
    (a.step timeout c move).1.untraced = (a'.step timeout c' move).1.untraced ∧
      (a.step timeout c move).2.Like (a'.step timeout c' move).2 := by
  cases move with
  | forward => exact forward_like ha hblind hblind' hopen h
  | call index => exact atCall_like (fun o _ _ h => OngoingCall.step_like h timeout o) ha h index
  | giveUp index => exact atCall_like (fun o _ _ h => OngoingCall.giveUp_like h o) ha h index

theorem forward_blind {a : Activity} (h : a.Blind breaks) (c : Connection) :
    (a.forward c).1.Blind breaks := by
  cases a with
  | running p =>
      cases p with
      | finish outcome => trivial
      | crash => trivial
      | act a next => exact h.2 _
      | wait w next =>
          cases w with
          | logTrace message verbose =>
              exact ⟨fun _ hentry => Connection.traceEntry_method hentry, h.1, h.2⟩
          | sleep milliseconds => exact h.2 ()
          | cancellation token => exact h.2 ()
          | call call => exact h.2
          | calls calls => exact h.2
  | sleeping timer next =>
      simp only [forward]
      split
      · exact h
      · exact h
  | untilCancelled token next =>
      simp only [forward]
      split
      · exact h
      · exact h
  | tracing entry next =>
      cases entry with
      | none => exact h.2.2 true
      | some n => exact h.2.2 _
  | calling call next =>
      simp only [forward]
      split
      · exact h _
      · exact h
  | callingAll calls next =>
      simp only [forward]
      split
      · exact h _
      · exact h
  | ended outcome => trivial

theorem atCall_blind {a : Activity} (h : a.Blind breaks)
    (f : OngoingCall → Link → OngoingCall × Link) (index : Nat) (c : Connection) :
    (a.atCall f index c).1.Blind breaks := by
  cases a <;> exact h

theorem step_blind {a : Activity} (h : a.Blind breaks) (timeout : Nat) (c : Connection)
    (move : Move) : (a.step timeout c move).1.Blind breaks := by
  cases move with
  | forward => exact forward_blind h c
  | call index => exact atCall_blind h _ index c
  | giveUp index => exact atCall_blind h _ index c

end Activity

namespace Connection

variable {c c' : Connection} {breaks : Prop}

/-! ## The work on requests -/

theorem Like.task? (h : c.Like c') (key : Nat) :
    (c.task? key).map Task.untraced = (c'.task? key).map Task.untraced := by
  have hfind : ∀ tasks : List Task, (tasks.find? (·.key = key)).map Task.untraced =
      (tasks.map Task.untraced).find? (·.key = key) := by
    intro tasks
    rw [List.find?_map]
    rfl
  rw [Connection.task?, Connection.task?, hfind, hfind, h.tasks]

theorem Like.setStage (h : c.Like c') (key : Nat) {stage stage' : TaskStage}
    (hstage : stage.untraced = stage'.untraced) :
    (c.setStage key stage).Like (c'.setStage key stage') := by
  have hset : ∀ (tasks : List Task) (stage : TaskStage),
      (tasks.map fun t => if t.key = key then { t with stage := stage } else t).map Task.untraced =
        (tasks.map Task.untraced).map fun t =>
          if t.key = key then { t with stage := stage.untraced } else t := by
    intro tasks stage
    rw [List.map_map, List.map_map]
    refine List.map_congr_left fun t _ => ?_
    simp only [Function.comp_apply]
    split
    · next hkey => exact (if_pos hkey).symm
    · next hkey => exact (if_neg hkey).symm
  refine { h with tasks := ?_ }
  show (c.tasks.map _).map _ = (c'.tasks.map _).map _
  rw [hset, hset, h.tasks, hstage]

theorem stepTask_working {key : Nat} {t : Task} (ht : c.task? key = some t) {a : Activity}
    (hstage : t.stage = .working a) (hended : ∀ outcome, a ≠ .ended outcome) (s : Server)
    (move : Move) :
    c.stepTask s key move =
      (a.step s.options.requestTimeout c move).2.setStage key
        (.working (a.step s.options.requestTimeout c move).1) := by
  simp only [stepTask, ht, hstage]

/-- The work on a request goes on in the same way. -/
theorem stepTask_like (h : c.Like c') (hblind : c.Blind breaks) (hblind' : c'.Blind breaks)
    (hopen : c.link.writerOpen = true ∨ breaks) (s : Server) (key : Nat) (move : Move) :
    (c.stepTask s key move).Like (c'.stepTask s key move) := by
  have htask := h.task? key
  cases ht : c.task? key with
  | none =>
      rw [ht, Option.map_none, eq_comm, Option.map_eq_none_iff] at htask
      simp only [stepTask, ht, htask]
      exact h
  | some t =>
      rw [ht, Option.map_some, eq_comm, Option.map_eq_some_iff] at htask
      obtain ⟨⟨_, _, _, stage'⟩, ht', huntraced⟩ := htask
      obtain ⟨key₀, id, method, stage⟩ := t
      have hfields := Task.mk.inj huntraced
      dsimp only at hfields
      obtain ⟨rfl, rfl, rfl, hstage⟩ := hfields
      have hwork := hblind.tasks _ (List.mem_of_find?_eq_some ht)
      have hwork' := hblind'.tasks _ (List.mem_of_find?_eq_some ht')
      have hgoes : ∀ {a a' : Activity}, stage = .working a → stage' = .working a' →
          a.untraced = a'.untraced → (∀ outcome, a ≠ .ended outcome) →
          (∀ outcome, a' ≠ .ended outcome) →
          (c.stepTask s key move).Like (c'.stepTask s key move) := by
        rintro a a' rfl rfl ha hended hended'
        rw [stepTask_working ht rfl hended, stepTask_working ht' rfl hended']
        obtain ⟨hactivity, hlike⟩ := Activity.step_like ha hwork hwork' hopen h
          s.options.requestTimeout move
        exact hlike.setStage key (congrArg TaskStage.working hactivity)
      cases stage with
      | replying outcome =>
          cases stage' with
          | working a' => cases hstage
          | unlisted own' => cases hstage
          | replying outcome' =>
              obtain rfl := TaskStage.replying.inj hstage
              have htasks : ∀ tasks : List Task,
                  (tasks.filter fun t => t.key ≠ key).map Task.untraced =
                    (tasks.map Task.untraced).filter fun t => t.key ≠ key := by
                intro tasks
                rw [List.filter_map]
                rfl
              simp only [stepTask, ht, ht']
              refine { h with tasks := ?_, link := h.link.post _ }
              show List.map _ (c.tasks.filter _) = List.map _ (c'.tasks.filter _)
              rw [htasks, htasks, h.tasks]
      | unlisted own =>
          cases stage' with
          | working a' => cases hstage
          | replying outcome' => cases hstage
          | unlisted own' =>
              obtain rfl := TaskStage.unlisted.inj hstage
              simp only [stepTask, ht, ht', h.isFired]
              exact h.setStage key rfl
      | working a =>
          cases stage' with
          | unlisted own' => cases hstage
          | replying outcome' => cases hstage
          | working a' =>
              have ha : a.untraced = a'.untraced := (TaskStage.working.inj hstage).symm
              obtain rfl | ⟨entry, entry', next, rfl, rfl⟩ := Activity.eq_or_tracing ha
              · cases a with
                | ended outcome =>
                    simp only [stepTask, ht, ht']
                    refine { h.setStage key rfl with inFlight := ?_ }
                    exact congrArg (List.filter _) h.inFlight
                | _ => exact hgoes rfl rfl rfl (by simp) (by simp)
              · exact hgoes rfl rfl rfl (by simp) (by simp)

theorem Blind.of_acts (h : c.Blind breaks) (hacts : c.Acts c') : c'.Blind breaks := by
  obtain ⟨link, cache, progress, streams, fired, rfl, -⟩ := hacts
  exact ⟨h.tasks, h.queue, h.current⟩

theorem Blind.setStage (h : c.Blind breaks) (key : Nat) {stage : TaskStage}
    (hstage : stage.Blind breaks) : (c.setStage key stage).Blind breaks := by
  refine { h with tasks := fun t ht => ?_ }
  obtain ⟨u, hu, rfl⟩ := List.mem_map.1 ht
  split
  · exact hstage
  · exact h.tasks u hu

theorem stepTask_blind (h : c.Blind breaks) (s : Server) (key : Nat) (move : Move) :
    (c.stepTask s key move).Blind breaks := by
  unfold stepTask
  split
  · exact h
  · next t ht =>
      have hwork := h.tasks t (List.mem_of_find?_eq_some ht)
      split
      · next outcome hstage =>
          have hset : (c.setStage key (.unlisted (outcome.getD (Task.crashed t.method)))).Blind
              breaks := h.setStage key trivial
          exact ⟨hset.tasks, hset.queue, hset.current⟩
      · next activity hended hstage =>
          rw [hstage] at hwork
          exact (h.of_acts (Activity.step_acts _ c move activity)).setStage key
            (Activity.step_blind hwork _ c move)
      · exact h.setStage key trivial
      · exact ⟨fun t ht => h.tasks t (List.mem_of_mem_filter ht), h.queue, h.current⟩

/-! ## The handlers of notifications -/

theorem stepWorker_working {call : CurrentCall} (hcall : c.current = some call)
    (hended : ∀ outcome, call.activity ≠ .ended outcome) (s : Server) (move : Move) :
    c.stepWorker s move =
      { (call.activity.step s.options.requestTimeout c move).2 with
        current := some { call with
          activity := (call.activity.step s.options.requestTimeout c move).1 } } := by
  obtain ⟨method, params, a⟩ := call
  simp only [stepWorker, hcall]
  cases a with
  | ended outcome => exact absurd rfl (hended outcome)
  | _ => rfl

/-- The handlers of notifications go on in the same way. -/
theorem stepWorker_like (h : c.Like c') (hblind : c.Blind breaks) (hblind' : c'.Blind breaks)
    (hopen : c.link.writerOpen = true ∨ breaks) (s : Server) (move : Move) :
    (c.stepWorker s move).Like (c'.stepWorker s move) := by
  have hcurrent := h.current
  cases hcall : c.current with
  | none =>
      rw [hcall, Option.map_none, eq_comm, Option.map_eq_none_iff] at hcurrent
      have hqueue := h.queue
      simp only [stepWorker, hcall, hcurrent, ← hqueue]
      split
      · exact h
      · exact { h with queue := rfl, current := rfl }
  | some call =>
      rw [hcall, Option.map_some, eq_comm, Option.map_eq_some_iff] at hcurrent
      obtain ⟨⟨_, _, a'⟩, hcall', huntraced⟩ := hcurrent
      obtain ⟨method, params, a⟩ := call
      have hfields := CurrentCall.mk.inj huntraced
      dsimp only at hfields
      obtain ⟨rfl, rfl, ha⟩ := hfields
      have hwork := hblind.current _ hcall
      have hwork' := hblind'.current _ hcall'
      have hgoes (hended : ∀ outcome, a ≠ .ended outcome)
          (hended' : ∀ outcome, a' ≠ .ended outcome) :
          (c.stepWorker s move).Like (c'.stepWorker s move) := by
        rw [stepWorker_working hcall hended, stepWorker_working hcall' hended']
        obtain ⟨hactivity, hlike⟩ := Activity.step_like ha.symm hwork hwork' hopen h
          s.options.requestTimeout move
        refine { hlike with current := ?_ }
        exact congrArg (fun a => some (⟨_, _, a⟩ : CurrentCall)) hactivity
      obtain rfl | ⟨entry, entry', next, rfl, rfl⟩ := Activity.eq_or_tracing ha.symm
      · cases a with
        | ended outcome =>
            simp only [stepWorker, hcall, hcall']
            exact { h with current := rfl, finished := congrArg (· ++ _) h.finished }
        | _ => exact hgoes (by simp) (by simp)
      · exact hgoes (by simp) (by simp)

theorem stepWorker_blind (h : c.Blind breaks) (s : Server) (move : Move) :
    (c.stepWorker s move).Blind breaks := by
  unfold stepWorker
  split
  · exact ⟨h.tasks, h.queue, fun _ hcall => by cases hcall⟩
  · next call hended hcall =>
      obtain ⟨htasks, hqueue, -⟩ :=
        h.of_acts (Activity.step_acts s.options.requestTimeout c move call.activity)
      refine ⟨htasks, hqueue, fun _ hnew => ?_⟩
      obtain rfl := Option.some.inj hnew
      exact Activity.step_blind (h.current call hcall) _ c move
  · split
    · exact h
    · next next rest hqueue =>
        refine ⟨h.tasks, fun call hcall => h.queue call ?_, fun _ hnew => ?_⟩
        · rw [hqueue]
          exact List.mem_cons_of_mem _ hcall
        · obtain rfl := Option.some.inj hnew
          exact h.queue next (hqueue ▸ List.mem_cons_self)

end Connection

end LanguageServer
