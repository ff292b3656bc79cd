import Mathlib.Data.List.Forall2
import LanguageServer.Proofs.Server.Unread
import LanguageServer.Proofs.Server.Untraced

set_option autoImplicit false

/-! # Runs that differ in tracing only

Two clients say the same to a server, but for the level of tracing that they ask for when they
introduce themselves and for changes of the level afterwards. Some events of their runs have to do
with tracing only (`Connection.onlyTraces`), and such an event leaves a connection as it is, tracing
apart (`step_calm`). The other events are the `spine` of a run. As long as the spines of two runs
are the same, the connections are twins (`Twins.run`): an event of the spine is a step of both
(`Twins.step`), and between two of them each run goes on alone.

It belongs to the spine when the line breaks, since from then on handlers are told that their
messages were not sent. -/

namespace LanguageServer

/-! ## Input that differs in tracing only -/

/-- A message that is there to change the level of tracing. -/
def Message.setsTrace : Message → Bool
  | .notification n => n.method = Method.setTrace
  | .request _ | .response _ => false

def Incoming.setsTrace : Incoming → Bool
  | .message m => m.setsTrace
  | .unreadable _ | .ended _ => false

/-- What the client says first, but for the level of tracing. -/
def SessionParams.untraced (p : SessionParams) : SessionParams := { p with trace := none }

/-- Introductions that are read as the same but for the level of tracing, or are both refused with
the same error. -/
def SameIntroduction (params params' : Json) : Prop :=
  (SessionParams.codec.parseParams params).map SessionParams.untraced =
    (SessionParams.codec.parseParams params').map SessionParams.untraced

/-- Messages that are the same but for the level that an introduction asks for. -/
inductive Message.Alike : Message → Message → Prop where
  | same (m : Message) : Alike m m
  | introduction (id : RequestId) {params params' : Option Json}
      (h : SameIntroduction (params.getD .null) (params'.getD .null)) :
      Alike (.request ⟨id, Method.handshake, params⟩) (.request ⟨id, Method.handshake, params'⟩)

inductive Incoming.Alike : Incoming → Incoming → Prop where
  | same (incoming : Incoming) : Alike incoming incoming
  | message {m m' : Message} (h : m.Alike m') : Alike (.message m) (.message m')

inductive Event.Alike : Event → Event → Prop where
  | same (e : Event) : Alike e e
  | received {incoming incoming' : Incoming} (h : incoming.Alike incoming') :
      Alike (.received incoming) (.received incoming')

theorem Message.Alike.setsTrace_eq {m m' : Message} (h : m.Alike m') :
    m.setsTrace = m'.setsTrace := by
  cases h <;> rfl

theorem Incoming.Alike.setsTrace_eq {incoming incoming' : Incoming} (h : incoming.Alike incoming') :
    incoming.setsTrace = incoming'.setsTrace := by
  cases h with
  | same => rfl
  | message h => exact h.setsTrace_eq

/-! ## The reader -/

/-- How far the reader has come; it counts as done while it deals with a change of the level. -/
def Reading.untraced : Reading → Reading
  | .taken m => if m.setsTrace then .idle else .taken m
  | .noted m => if m.setsTrace then .idle else .noted m
  | reading => reading

inductive Reading.Alike : Reading → Reading → Prop where
  | same (reading : Reading) : Alike reading reading
  | taken {m m' : Message} (h : m.Alike m') : Alike (.taken m) (.taken m')
  | noted {m m' : Message} (h : m.Alike m') : Alike (.noted m) (.noted m')

/-! ## Serving messages -/

/-- The calls that a handler waits for and that are not answered. -/
def Activity.openCalls (a : Activity) : List RequestId := a.calls.filterMap OngoingCall.open?

def Task.openCalls (t : Task) : List RequestId :=
  match t.stage with
  | .working a => a.openCalls
  | .unlisted _ | .replying _ => []

theorem Activity.openCalls_untraced (a : Activity) : a.untraced.openCalls = a.openCalls := by
  cases a <;> rfl

theorem Task.openCalls_untraced (t : Task) : t.untraced.openCalls = t.openCalls := by
  obtain ⟨key, id, method, stage⟩ := t
  cases stage with
  | working a => exact a.openCalls_untraced
  | unlisted own => rfl
  | replying outcome => rfl

namespace Connection

/-- Connections that are the same but for tracing and for what the reader has in front of it. -/
structure Agrees (c c' : Connection) : Prop extends Like c c' where
  reading : c.reading = c'.reading

variable {c c' c'' : Connection} {s : Server} {breaks : Prop}

theorem Like.exists_level (h : c.Like c') : ∃ level, c'.session = c.session.setTrace level := by
  have hsession := h.session
  refine ⟨c'.session.trace, ?_⟩
  generalize c.session = session at hsession
  generalize c'.session = session' at hsession
  obtain ⟨state, negotiated, trace, requested⟩ := session
  obtain ⟨state', negotiated', trace', requested'⟩ := session'
  obtain ⟨rfl, rfl, -, rfl⟩ := Session.mk.inj hsession
  rfl

theorem Like.admitRequest (h : c.Like c') (method : String) :
    c'.session.admitRequest method = c.session.admitRequest method := by
  obtain ⟨level, hlevel⟩ := h.exists_level
  rw [hlevel]
  rfl

theorem Like.admitNotification (h : c.Like c') (method : String) :
    c'.session.admitNotification method = c.session.admitNotification method := by
  obtain ⟨level, hlevel⟩ := h.exists_level
  rw [hlevel]
  rfl

theorem Like.encoding (h : c.Like c') : c'.session.encoding = c.session.encoding := by
  obtain ⟨level, hlevel⟩ := h.exists_level
  rw [hlevel]
  rfl

theorem Like.negotiated (h : c.Like c') : c'.negotiated = c.negotiated := by
  obtain ⟨level, hlevel⟩ := h.exists_level
  rw [Connection.negotiated, hlevel]
  rfl

/-- The level does not bear on any change of the session. -/
theorem Like.session_map (h : c.Like c') (f : Session → Session)
    (hf : ∀ session level, (f (session.setTrace level)).setTrace .off = (f session).setTrace .off) :
    (f c.session).setTrace .off = (f c'.session).setTrace .off := by
  obtain ⟨level, hlevel⟩ := h.exists_level
  rw [hlevel, hf]

theorem start_agrees (h : c.Agrees c') {params params' : Json}
    (hparams : SameIntroduction params params') (id : RequestId) :
    (c.start s id params).Agrees (c'.start s id params') := by
  unfold SameIntroduction at hparams
  unfold start
  cases hread : SessionParams.codec.parseParams params with
  | error e =>
      cases hread' : SessionParams.codec.parseParams params' with
      | error e' =>
          rw [hread, hread'] at hparams
          obtain rfl := Except.error.inj hparams
          exact { h with reading := rfl }
      | ok p' =>
          rw [hread, hread'] at hparams
          cases hparams
  | ok p =>
      cases hread' : SessionParams.codec.parseParams params' with
      | error e' =>
          rw [hread, hread'] at hparams
          cases hparams
      | ok p' =>
          rw [hread, hread'] at hparams
          obtain ⟨processId, client, locale, rootUri, options, capabilities, trace, folders⟩ := p
          obtain ⟨_, _, _, _, _, _, trace', _⟩ := p'
          have hfields := SessionParams.mk.inj (Except.ok.inj hparams)
          dsimp only at hfields
          obtain ⟨rfl, rfl, rfl, rfl, rfl, rfl, -, rfl⟩ := hfields
          obtain ⟨level, hlevel⟩ := h.exists_level
          by_cases hstate : c.session.state = .unstarted
          · simp only [hlevel, Session.start, Session.setTrace, if_pos hstate]
            exact { h with session := rfl, reading := rfl }
          · simp only [hlevel, Session.start, Session.setTrace, if_neg hstate]
            exact { h with reading := rfl }

theorem spawn_agrees (h : c.Agrees c') (id : RequestId) (method : String) (params : Json)
    (handler : RequestHandler) :
    (c.spawn id method params handler).Agrees (c'.spawn id method params handler) := by
  have hbusy : c'.isInFlight id = c.isInFlight id := by rw [isInFlight, isInFlight, h.inFlight]
  unfold spawn
  rw [hbusy]
  split
  · exact { h with reading := rfl }
  · refine { h with inFlight := by rw [h.inFlight, h.spawned], tasks := ?_,
                    spawned := congrArg (· + 1) h.spawned }
    rw [List.map_append, List.map_append, h.tasks, h.spawned, h.negotiated]

theorem considerRequest_agrees (h : c.Agrees c') {r r' : Request}
    (hr : (Message.request r).Alike (.request r')) :
    (c.considerRequest s r).Agrees (c'.considerRequest s r') := by
  cases hr with
  | @introduction id params params' hparams =>
      simp only [considerRequest, h.admitRequest]
      split
      · exact { h with reading := rfl }
      · exact start_agrees h hparams id
  | same =>
      simp only [considerRequest, h.admitRequest]
      split
      · exact { h with reading := rfl }
      · unfold serveRequest
        split
        · exact start_agrees h rfl r.id
        · split
          · have hsession := h.session_map Session.shutdown fun _ _ => rfl
            exact { h with session := hsession, reading := rfl }
          · split
            · exact spawn_agrees h r.id r.method _ _
            · split
              · exact { h with reading := rfl }
              · exact { h with reading := rfl }

theorem enqueue_agrees (h : c.Agrees c') (method : String) (params : Json) :
    (c.enqueue s method params).Agrees (c'.enqueue s method params) := by
  unfold enqueue
  split
  · exact h
  · refine { h with queue := ?_ }
    rw [h.queue, h.negotiated]

theorem sync_agrees (h : c.Like c') (method : String) (params : Json) :
    (c.sync method params).Agrees (c'.sync method params) :=
  { h with documents := by rw [sync, sync, h.encoding, h.documents], reading := rfl }

theorem cancel_agrees (h : c.Agrees c') (id : RequestId) : (c.cancel id).Agrees (c'.cancel id) := by
  unfold cancel
  rw [h.inFlight]
  cases c'.inFlight.lookup id with
  | none => exact h
  | some token =>
      obtain ⟨fired, hfired⟩ := fire_eq token c
      obtain ⟨fired', hfired'⟩ := fire_eq token c'
      refine { h.toLike.fire token with reading := ?_ }
      dsimp only
      rw [hfired, hfired']
      exact h.reading

/-- The calls to the client that are deserted if all work is dropped. -/
def openCalls (c : Connection) : List RequestId :=
  (c.current.map (·.activity.openCalls)).getD [] ++ c.tasks.flatMap Task.openCalls

theorem drop_link (c : Connection) (ending : Ending) :
    (c.drop ending).link = c.openCalls.foldl Link.desert c.link := by
  have hcurrent : (c.current.map (·.activity)).toList.flatMap Activity.openCalls =
      (c.current.map (·.activity.openCalls)).getD [] := by
    cases c.current <;> simp
  have htasks : ∀ tasks : List Task,
      (tasks.filterMap fun t =>
        match t.stage with
        | .working a => some a
        | .unlisted _ | .replying _ => none).flatMap Activity.openCalls =
          tasks.flatMap Task.openCalls := by
    intro tasks
    induction tasks with
    | nil => rfl
    | cons t tasks ih =>
        rw [List.filterMap_cons, List.flatMap_cons, Task.openCalls]
        cases t.stage with
        | working a => rw [List.flatMap_cons, ih]
        | unlisted own => exact ih
        | replying outcome => exact ih
  rw [openCalls, ← hcurrent, ← htasks, ← List.flatMap_append]
  rfl

theorem Like.openCalls (h : c.Like c') : c.openCalls = c'.openCalls := by
  have hcurrent : ∀ current : Option CurrentCall, current.map (·.activity.openCalls) =
      (current.map CurrentCall.untraced).map (·.activity.openCalls) := by
    intro current
    cases current with
    | none => rfl
    | some call => exact congrArg some call.activity.openCalls_untraced.symm
  have htasks : ∀ tasks : List Task,
      tasks.flatMap Task.openCalls = (tasks.map Task.untraced).flatMap Task.openCalls := by
    intro tasks
    rw [List.flatMap_map]
    exact List.flatMap_congr fun t _ => t.openCalls_untraced.symm
  rw [Connection.openCalls, Connection.openCalls, hcurrent, htasks, h.current, h.tasks, ← hcurrent,
    ← htasks]

theorem drop_agrees (h : c.Like c') (ending : Ending) :
    (c.drop ending).Agrees (c'.drop ending) := by
  refine { h with tasks := rfl, queue := rfl, current := rfl, link := ?_, reading := rfl }
  rw [drop_link, drop_link, h.openCalls]
  exact h.link.foldl_desert _

theorem serveNotification_agrees (h : c.Agrees c') {method : String}
    (hmethod : method ≠ Method.setTrace) (params : Json) :
    (c.serveNotification method params).Agrees (c'.serveNotification method params) := by
  have hexit : c'.session.exit.1 = c.session.exit.1 := by
    obtain ⟨level, hlevel⟩ := h.exists_level
    rw [hlevel]
    rfl
  have hconfirm (session : Session) (level : TraceLevel) :
      (session.setTrace level).confirm.setTrace .off = session.confirm.setTrace .off := by
    obtain ⟨state, negotiated, trace, requested⟩ := session
    cases state <;> rfl
  unfold serveNotification
  split
  · show (drop (.status c.session.exit.1) { c with session := c.session.exit.2 }).Agrees
      (drop (.status c'.session.exit.1) { c' with session := c'.session.exit.2 })
    have hover : Like { c with session := c.session.exit.2 }
        { c' with session := c'.session.exit.2 } :=
      { h with session := h.session_map (·.exit.2) fun _ _ => rfl }
    rw [hexit]
    exact drop_agrees hover _
  · split
    · exact { h with session := h.session_map Session.confirm hconfirm }
    · split
      · split
        · exact cancel_agrees h _
        · exact h
      · split
        · exact { h with cache := congrArg (syncTokens params) h.cache, reading := rfl }
        · exact sync_agrees h.toLike method params

/-- **Messages that differ in the level asked for are served alike.** -/
theorem serve_agrees (h : c.Like c') {m m' : Message} (hm : m.Alike m')
    (hsets : m.setsTrace = false) :
    (c.serve s m).Agrees (c'.serve s m') := by
  have hidle : Agrees { c with reading := .idle } { c' with reading := .idle } :=
    { h with reading := rfl }
  cases m with
  | request r =>
      obtain ⟨r', rfl⟩ : ∃ r', m' = .request r' := by
        cases hm with
        | same => exact ⟨r, rfl⟩
        | introduction => exact ⟨_, rfl⟩
      exact considerRequest_agrees hidle hm
  | notification n =>
      cases hm
      exact serveNotification_agrees hidle (by simpa [Message.setsTrace] using hsets) _
  | response r =>
      cases hm
      refine { hidle with link := { h.link with pending := ?_ } }
      exact congrArg (fun pending => (pending.resolve r).2) h.link.pending

/-- Noting what was taken makes no difference. -/
theorem note_like (m : Message) (c : Connection) : (c.note m).Like c := by
  obtain ⟨entry, htrace, hnote⟩ := c.note_entry m
  rw [hnote]
  cases entry with
  | none => exact { Like.refl c with }
  | some n => exact { Like.refl c with link := Link.like_send_trace c.link (htrace n rfl) }

theorem untraced_taken {m : Message} (h : m.setsTrace = false) :
    (Reading.taken m).untraced = .taken m := by
  simp [Reading.untraced, h]

theorem untraced_noted {m : Message} (h : m.setsTrace = false) :
    (Reading.noted m).untraced = .noted m := by
  simp [Reading.untraced, h]

theorem take_like (h : c.Agrees c') {incoming incoming' : Incoming}
    (hincoming : incoming.Alike incoming') (hsets : incoming.setsTrace = false) :
    (c.take incoming).Like (c'.take incoming') ∧
      Reading.Alike (c.take incoming).reading.untraced (c'.take incoming').reading.untraced := by
  have hreading : Reading.Alike c.reading.untraced c'.reading.untraced := by
    rw [h.reading]
    exact .same _
  have hmessage : ∀ {m m' : Message}, m.Alike m' → m.setsTrace = false →
      (c.take (.message m)).Like (c'.take (.message m')) ∧ Reading.Alike
        (c.take (.message m)).reading.untraced (c'.take (.message m')).reading.untraced := by
    intro m m' hm hsets
    have hsets' := hm.setsTrace_eq.symm.trans hsets
    cases hm with
    | introduction id hparams =>
        refine ⟨{ h with }, ?_⟩
        exact .taken (.introduction id hparams)
    | same =>
        cases m with
        | request r => exact ⟨{ h with }, .same _⟩
        | response r => exact ⟨{ h with }, .same _⟩
        | notification n =>
            simp only [take, h.admitNotification]
            split
            · exact ⟨{ h with }, .same _⟩
            · exact ⟨h.toLike, hreading⟩
  cases hincoming with
  | message hm => exact hmessage hm hsets
  | same =>
      cases incoming with
      | message m => exact hmessage (.same m) hsets
      | unreadable fault =>
          unfold take
          dsimp only
          split
          · exact ⟨{ h with }, .same _⟩
          · exact ⟨h.toLike, hreading⟩
      | ended fault =>
          have hdrop := drop_agrees h.toLike (.ofInput fault)
          exact ⟨hdrop.toLike, hdrop.reading ▸ .same _⟩

/-! ## Handlers stay blind -/

theorem Blind.of_eq (h : c.Blind breaks) (htasks : c'.tasks = c.tasks) (hqueue : c'.queue = c.queue)
    (hcurrent : c'.current = c.current) : c'.Blind breaks :=
  ⟨htasks ▸ h.tasks, hqueue ▸ h.queue, hcurrent ▸ h.current⟩

theorem Blind.drop (c : Connection) (ending : Ending) : (c.drop ending).Blind breaks :=
  ⟨fun _ ht => (by cases ht), fun _ hcall => (by cases hcall), fun _ hcall => (by cases hcall)⟩

theorem considerRequest_blind (hs : s.Blind breaks) (h : c.Blind breaks) (r : Request) :
    (c.considerRequest s r).Blind breaks := by
  unfold considerRequest
  split
  · exact h.of_eq rfl rfl rfl
  · unfold serveRequest
    split
    · unfold start
      split
      · exact h.of_eq rfl rfl rfl
      · split
        · exact h.of_eq rfl rfl rfl
        · exact h.of_eq rfl rfl rfl
    · split
      · exact h.of_eq rfl rfl rfl
      · split
        · next handler hhandler =>
            unfold spawn
            split
            · exact h.of_eq rfl rfl rfl
            · refine { h with tasks := fun t ht => ?_ }
              rcases List.mem_append.1 ht with ht | ht
              · exact h.tasks t ht
              · obtain rfl := List.mem_singleton.1 ht
                exact hs.requests r.method handler hhandler _ _
        · split
          · exact h.of_eq rfl rfl rfl
          · exact h.of_eq rfl rfl rfl

theorem enqueue_blind (hs : s.Blind breaks) (h : c.Blind breaks) (method : String) (params : Json) :
    (c.enqueue s method params).Blind breaks := by
  unfold enqueue
  split
  · exact h
  · next handler hhandler =>
      refine { h with queue := fun call hcall => ?_ }
      rcases List.mem_append.1 hcall with hcall | hcall
      · exact h.queue call hcall
      · obtain rfl := List.mem_singleton.1 hcall
        exact hs.notifications method handler hhandler _ _

theorem serveNotification_blind (h : c.Blind breaks) (method : String) (params : Json) :
    (c.serveNotification method params).Blind breaks := by
  unfold serveNotification
  split
  · exact Blind.drop _ _
  · split
    · exact h.of_eq rfl rfl rfl
    · split
      · split
        · next p _ =>
            obtain ⟨fired, hfired⟩ := cancel_eq p.id c
            rw [hfired]
            exact h.of_eq rfl rfl rfl
        · exact h
      · split
        · split
          · exact h.of_eq rfl rfl rfl
          · exact h
        · split
          · exact h.of_eq rfl rfl rfl
          · exact h.of_eq rfl rfl rfl

theorem take_blind (h : c.Blind breaks) (incoming : Incoming) : (c.take incoming).Blind breaks := by
  unfold take
  split
  · exact h.of_eq rfl rfl rfl
  · exact h.of_eq rfl rfl rfl
  · split
    · exact h.of_eq rfl rfl rfl
    · exact h
  · split
    · exact h.of_eq rfl rfl rfl
    · exact h
  · exact Blind.drop _ _

theorem stepReader_blind (hs : s.Blind breaks) (h : c.Blind breaks) :
    (c.stepReader s).Blind breaks := by
  unfold stepReader
  split
  · split
    · exact h
    · refine take_blind ?_ _
      exact h.of_eq rfl rfl rfl
  · exact h.of_eq rfl rfl rfl
  · next m _ =>
      have hidle : Blind breaks { c with reading := .idle } := h.of_eq rfl rfl rfl
      cases m with
      | request r => exact considerRequest_blind hs hidle r
      | notification n => exact serveNotification_blind hidle n.method _
      | response r => exact hidle.of_eq rfl rfl rfl
  · exact h.of_eq rfl rfl rfl
  · refine enqueue_blind hs ?_ _ _
    exact h.of_eq rfl rfl rfl
  · exact h.of_eq rfl rfl rfl
  · exact h.of_eq rfl rfl rfl
  · exact h.of_eq rfl rfl rfl

theorem step_blind (hs : s.Blind breaks) (h : c.Blind breaks) (e : Event) :
    (c.step s e).Blind breaks := by
  unfold step
  split
  · cases e with
    | reader => exact stepReader_blind hs h
    | task key move => exact stepTask_blind h s key move
    | worker move => exact stepWorker_blind h s move
    | _ => exact h.of_eq rfl rfl rfl
  · split
    · exact h.of_eq rfl rfl rfl
    · exact h

theorem run_blind (hs : s.Blind breaks) (h : c.Blind breaks) (events : List Event) :
    (c.run s events).Blind breaks := by
  induction events generalizing c with
  | nil => exact h
  | cons e events ih => exact ih (step_blind hs h e)

/-! ## Events that have to do with tracing only -/

/-- What waits for the reader, but for changes of the level. -/
def mail (c : Connection) : List Incoming := c.inbox.filter (!·.setsTrace)

/-- An event has to do with tracing only: a change of the level comes in, or the reader deals with
one, or an entry of the client's trace is written. A turn of the reader or of the writer that finds
nothing to do is of no account either. -/
def onlyTraces (c : Connection) : Event → Bool
  | .received incoming => incoming.setsTrace
  | .reader =>
    match c.reading with
    | .idle => c.inbox.head?.all Incoming.setsTrace
    | .taken m | .noted m => m.setsTrace
    | .forgotten _ | .synced .. | .answering _ | .dropped _ | .leaving _ => false
  | .writer => c.link.outbox.head?.all fun m => m.isTrace && c.link.outputOpen
  | .task .. | .worker _ | .withdrawal _ | .tick _ | .outputClosed => false

/-- From `c` to `c'` nothing has happened that does not have to do with tracing only. -/
structure Calm (c c' : Connection) : Prop extends Like c c' where
  reading : c.reading.untraced = c'.reading.untraced
  mail : c.mail = c'.mail

theorem Calm.refl (c : Connection) : c.Calm c := { Like.refl c with reading := rfl, mail := rfl }

theorem Calm.trans (h : c.Calm c') (h' : c'.Calm c'') : c.Calm c'' :=
  { h.toLike.trans h'.toLike with
    reading := h.reading.trans h'.reading
    mail := h.mail.trans h'.mail }

theorem writeNext_like {l : Link}
    (h : l.outbox.head?.all (fun m => m.isTrace && l.outputOpen) = true) : l.Like l.writeNext := by
  unfold Link.writeNext
  split
  · exact .refl l
  · next m rest houtbox =>
      rw [houtbox, List.head?_cons, Option.all_some, Bool.and_eq_true] at h
      obtain ⟨htrace, hopen⟩ := h
      rw [if_pos hopen]
      refine { Link.Like.refl l with outbox := ?_, written := ?_ }
      · simp [untraced, houtbox, htrace]
      · simp [untraced, htrace]

/-- A change of the level is no more than that. -/
theorem serve_setsTrace {m : Message} (h : m.setsTrace = true) :
    (c.serve s m).Like c ∧ (c.serve s m).reading = .idle := by
  cases m with
  | request r => cases h
  | response r => cases h
  | notification n =>
      have hmethod : n.method = Method.setTrace := by simpa [Message.setsTrace] using h
      rw [serve_notification, serveNotification, if_neg (by rw [hmethod]; decide),
        if_neg (by rw [hmethod]; decide), if_neg (by rw [hmethod]; decide), if_pos hmethod]
      split
      · exact ⟨{ Like.refl c with session := rfl }, rfl⟩
      · exact ⟨{ Like.refl c with }, rfl⟩

theorem untraced_of_setsTrace {m : Message} (h : m.setsTrace = true) :
    (Reading.taken m).untraced = .idle ∧ (Reading.noted m).untraced = .idle := by
  simp [Reading.untraced, h]

theorem stepReader_calm (h : c.onlyTraces .reader = true) : c.Calm (c.stepReader s) := by
  unfold onlyTraces at h
  unfold stepReader
  cases hreading : c.reading with
  | idle =>
      simp only [hreading] at h ⊢
      cases hinbox : c.inbox with
      | nil => exact .refl c
      | cons incoming rest =>
          rw [hinbox, List.head?_cons, Option.all_some] at h
          have hmail : c.mail = rest.filter (!·.setsTrace) := by
            rw [mail, hinbox, List.filter_cons_of_neg (by simp [h])]
          cases incoming with
          | message m =>
              cases m with
              | notification n =>
                  have hsets : (Message.notification n).setsTrace = true := h
                  dsimp only [take]
                  -- It is taken up or passed over; either way the reader counts as done with it.
                  split
                  · refine { Like.refl c with reading := ?_, mail := hmail }
                    rw [hreading, (untraced_of_setsTrace hsets).1]
                    rfl
                  · exact { Like.refl c with reading := by rw [hreading], mail := hmail }
              | request r => cases h
              | response r => cases h
          | unreadable fault => cases h
          | ended fault => cases h
  | taken m =>
      simp only [hreading] at h ⊢
      obtain ⟨link, hnote, -⟩ := c.note_eq m
      have hlike := (note_like m c).symm
      rw [hnote] at hlike ⊢
      refine { hlike with reading := ?_, mail := rfl }
      rw [hreading, (untraced_of_setsTrace h).1, (untraced_of_setsTrace h).2]
  | noted m =>
      simp only [hreading] at h ⊢
      obtain ⟨hlike, hidle⟩ := serve_setsTrace (c := c) (s := s) h
      refine { hlike.symm with reading := ?_, mail := ?_ }
      · rw [hreading, hidle, (untraced_of_setsTrace h).2]
        rfl
      · rw [mail, mail, (serve_reading s m c).1]
  | forgotten params => simp [hreading] at h
  | synced method params => simp [hreading] at h
  | answering m => simp [hreading] at h
  | dropped ending => simp [hreading] at h
  | leaving ending => simp [hreading] at h

/-- **An event that has to do with tracing only leaves all else as it is.** -/
theorem step_calm (s : Server) {e : Event} (h : c.onlyTraces e = true) : c.Calm (c.step s e) := by
  have hwriter (hlink : c.link.Like c.link.writeNext) :
      c.Calm { c with link := c.link.writeNext } :=
    { Like.refl c with link := hlink, reading := rfl, mail := rfl }
  unfold step
  split
  · cases e with
    | received incoming =>
        refine { Like.refl c with reading := rfl, mail := ?_ }
        have hsets : incoming.setsTrace = true := h
        simp [mail, handle, hsets]
    | reader => exact stepReader_calm h
    | writer => exact hwriter (writeNext_like h)
    | task key move => cases h
    | worker move => cases h
    | withdrawal id => cases h
    | tick milliseconds => cases h
    | outputClosed => cases h
  · split
    · exact hwriter (writeNext_like h)
    · exact .refl c

/-! ## Two runs -/

/-- Connections that differ in tracing only. -/
structure Twins (c c' : Connection) : Prop extends Like c c' where
  reading : Reading.Alike c.reading.untraced c'.reading.untraced
  mail : List.Forall₂ Incoming.Alike c.mail c'.mail

theorem Twins.refl (c : Connection) : c.Twins c :=
  { Like.refl c with reading := .same _, mail := List.forall₂_same.2 fun _ _ => .same _ }

theorem Twins.of_calm (h : c.Twins c') {d d' : Connection} (hc : c.Calm d) (hc' : c'.Calm d') :
    d.Twins d' :=
  { (hc.symm.trans h.toLike).trans hc'.toLike with
    reading := hc.reading ▸ hc'.reading ▸ h.reading
    mail := hc.mail ▸ hc'.mail ▸ h.mail }

theorem Twins.of_sameReading (h : c.Twins c') {d d' : Connection} (hlike : d.Like d')
    (hsame : c.SameReading d) (hsame' : c'.SameReading d') : d.Twins d' := by
  refine { hlike with reading := ?_, mail := ?_ }
  · rw [hsame.reading, hsame'.reading]
    exact h.reading
  · rw [Connection.mail, Connection.mail, hsame.inbox, hsame'.inbox]
    exact h.mail

/-- A reader in the middle of something leaves its mail alone. -/
theorem Twins.of_busy (h : c.Twins c') (hbusy : c.reading ≠ .idle) (hbusy' : c'.reading ≠ .idle)
    (hagrees : (c.stepReader s).Agrees (c'.stepReader s)) :
    (c.stepReader s).Twins (c'.stepReader s) := by
  refine { hagrees.toLike with reading := ?_, mail := ?_ }
  · rw [hagrees.reading]
    exact .same _
  · rw [Connection.mail, Connection.mail, stepReader_inbox c s hbusy, stepReader_inbox c' s hbusy']
    exact h.mail

/-- A turn that has to do with more than tracing finds the reader where it appears to be. -/
theorem untraced_of_onlyTraces (h : c.onlyTraces .reader = false) :
    c.reading.untraced = c.reading := by
  unfold onlyTraces at h
  cases hreading : c.reading with
  | taken m =>
      rw [hreading] at h
      exact untraced_taken h
  | noted m =>
      rw [hreading] at h
      exact untraced_noted h
  | _ => rfl

/-- A resting reader that has more to do than tracing takes up the first of its mail. -/
theorem mail_of_onlyTraces (h : c.onlyTraces .reader = false) (hidle : c.reading = .idle) :
    ∃ incoming rest, c.inbox = incoming :: rest ∧ incoming.setsTrace = false ∧
      c.mail = incoming :: rest.filter (!·.setsTrace) := by
  simp only [onlyTraces, hidle] at h
  cases hinbox : c.inbox with
  | nil =>
      rw [hinbox] at h
      cases h
  | cons incoming rest =>
      rw [hinbox, List.head?_cons, Option.all_some] at h
      exact ⟨incoming, rest, rfl, h, by rw [mail, hinbox, List.filter_cons_of_pos (by simp [h])]⟩

theorem Twins.take (h : c.Twins c') (hmore : c.onlyTraces .reader = false)
    (hmore' : c'.onlyTraces .reader = false) (hidle : c.reading = .idle)
    (hidle' : c'.reading = .idle) : (c.stepReader s).Twins (c'.stepReader s) := by
  obtain ⟨incoming, rest, hinbox, hsets, hmail⟩ := mail_of_onlyTraces hmore hidle
  obtain ⟨incoming', rest', hinbox', -, hmail'⟩ := mail_of_onlyTraces hmore' hidle'
  have hfirst := h.mail
  rw [hmail, hmail', List.forall₂_cons] at hfirst
  have hagrees : Agrees { c with inbox := rest, reading := .idle }
      { c' with inbox := rest', reading := .idle } := { h.toLike with reading := rfl }
  obtain ⟨hlike, hreading⟩ := take_like hagrees hfirst.1 hsets
  simp only [Connection.stepReader, hidle, hidle', hinbox, hinbox']
  refine { hlike with reading := hreading, mail := ?_ }
  rw [Connection.mail, Connection.mail, take_inbox, take_inbox]
  exact hfirst.2

theorem Twins.note (h : c.Twins c') {m m' : Message} (hm : m.Alike m')
    (hsets : m.setsTrace = false) : (c.note m).Twins (c'.note m') := by
  have hsets' : m'.setsTrace = false := hm.setsTrace_eq ▸ hsets
  refine { ((note_like m c).trans h.toLike).trans (note_like m' c').symm with
    reading := ?_, mail := h.mail }
  show Reading.Alike (Reading.noted m).untraced (Reading.noted m').untraced
  rw [untraced_noted hsets, untraced_noted hsets']
  exact .noted hm

/-- A turn of both readers. -/
theorem Twins.stepReader (h : c.Twins c') (hmore : c.onlyTraces .reader = false)
    (hmore' : c'.onlyTraces .reader = false) : (c.stepReader s).Twins (c'.stepReader s) := by
  have htaken : ∀ {m m' : Message}, c.reading = .taken m → c'.reading = .taken m' → m.Alike m' →
      (c.stepReader s).Twins (c'.stepReader s) := by
    intro m m' hr hr' hm
    have hsets : m.setsTrace = false := by simpa only [onlyTraces, hr] using hmore
    have hstep : c.stepReader s = c.note m := by simp only [Connection.stepReader, hr]
    have hstep' : c'.stepReader s = c'.note m' := by simp only [Connection.stepReader, hr']
    rw [hstep, hstep']
    exact h.note hm hsets
  have hnoted : ∀ {m m' : Message}, c.reading = .noted m → c'.reading = .noted m' → m.Alike m' →
      (c.stepReader s).Twins (c'.stepReader s) := by
    intro m m' hr hr' hm
    have hsets : m.setsTrace = false := by simpa only [onlyTraces, hr] using hmore
    refine h.of_busy (by simp [hr]) (by simp [hr']) ?_
    simp only [Connection.stepReader, hr, hr']
    exact serve_agrees h.toLike hm hsets
  have hreading := h.reading
  rw [untraced_of_onlyTraces hmore, untraced_of_onlyTraces hmore'] at hreading
  generalize hr : c.reading = reading at hreading
  generalize hr' : c'.reading = reading' at hreading
  cases hreading with
  | taken hm => exact htaken hr hr' hm
  | noted hm => exact hnoted hr hr' hm
  | same =>
      cases reading with
      | idle => exact h.take hmore hmore' hr hr'
      | taken m => exact htaken hr hr' (.same m)
      | noted m => exact hnoted hr hr' (.same m)
      | forgotten params =>
          refine h.of_busy (by simp [hr]) (by simp [hr']) ?_
          simp only [Connection.stepReader, hr, hr']
          exact sync_agrees h.toLike Method.didClose params
      | synced method params =>
          refine h.of_busy (by simp [hr]) (by simp [hr']) ?_
          simp only [Connection.stepReader, hr, hr']
          have hidle : Agrees { c with reading := .idle } { c' with reading := .idle } :=
            { h.toLike with reading := rfl }
          exact enqueue_agrees hidle method params
      | answering m =>
          refine h.of_busy (by simp [hr]) (by simp [hr']) ?_
          simp only [Connection.stepReader, hr, hr']
          exact { h.toLike with link := h.link.post m, reading := rfl }
      | dropped ending =>
          refine h.of_busy (by simp [hr]) (by simp [hr']) ?_
          simp only [Connection.stepReader, hr, hr']
          refine { h.toLike with link := { h.link with pending := ?_ }, reading := rfl }
          exact congrArg (·.abandonAll.2) h.link.pending
      | leaving ending =>
          refine h.of_busy (by simp [hr]) (by simp [hr']) ?_
          simp only [Connection.stepReader, hr, hr']
          exact { h.toLike with ending := rfl, reading := rfl }

/-- Where more than an entry of the client's trace is to be written, the same message is, unless it
is lost on both lines. -/
theorem writeNext_like_writeNext {l l' : Link} (h : l.Like l')
    (hmore : l.outbox.head?.all (fun m => m.isTrace && l.outputOpen) = false)
    (hmore' : l'.outbox.head?.all (fun m => m.isTrace && l'.outputOpen) = false) :
    l.writeNext.Like l'.writeNext := by
  cases houtbox : l.outbox with
  | nil => simp [houtbox] at hmore
  | cons m rest =>
      cases houtbox' : l'.outbox with
      | nil => simp [houtbox'] at hmore'
      | cons m' rest' =>
          have hsame := h.outbox
          rw [houtbox, houtbox'] at hsame
          simp only [houtbox, houtbox', List.head?_cons, Option.all_some] at hmore hmore'
          by_cases hopen : l.outputOpen = true
          · have hopen' : l'.outputOpen = true := h.outputOpen ▸ hopen
            rw [hopen, Bool.and_true] at hmore
            rw [hopen', Bool.and_true] at hmore'
            simp only [untraced, List.filter_cons, hmore, hmore', Bool.not_false, if_true,
              List.cons.injEq] at hsame
            obtain ⟨rfl, hrest⟩ := hsame
            simp only [Link.writeNext, houtbox, houtbox', if_pos hopen, if_pos hopen']
            refine { h with outbox := hrest, written := ?_ }
            rw [untraced_append, untraced_append, h.written]
          · -- Both messages are lost, whatever they are, and both lines break.
            have hopen' : ¬ l'.outputOpen = true := h.outputOpen ▸ hopen
            simp only [Link.writeNext, houtbox, houtbox', if_neg hopen, if_neg hopen']
            exact { h with outbox := rfl, writerOpen := rfl }

theorem step_writer (s : Server) (c : Connection) :
    c.step s .writer = { c with link := c.link.writeNext } := by
  unfold step
  split
  · rfl
  · rfl

/-- **A step of both runs.** -/
theorem Twins.step (h : c.Twins c') (hblind : c.Blind breaks) (hblind' : c'.Blind breaks)
    (hopen : c.link.writerOpen = true ∨ breaks) {e e' : Event} (he : e.Alike e')
    (hmore : c.onlyTraces e = false) (hmore' : c'.onlyTraces e' = false) :
    (c.step s e).Twins (c'.step s e') := by
  have hreceived : ∀ {incoming incoming' : Incoming}, incoming.Alike incoming' →
      incoming.setsTrace = false →
      Twins { c with inbox := c.inbox ++ [incoming] }
        { c' with inbox := c'.inbox ++ [incoming'] } := by
    intro incoming incoming' halike hsets
    refine { h.toLike with reading := h.reading, mail := ?_ }
    have hsets' : incoming'.setsTrace = false := halike.setsTrace_eq ▸ hsets
    have hone : List.Forall₂ Incoming.Alike [incoming] [incoming'] := .cons halike .nil
    simpa [Connection.mail, hsets, hsets'] using List.rel_append h.mail hone
  have hline {l l' : Link} (hlink : l.Like l') :
      Twins { c with link := l } { c' with link := l' } :=
    { h.toLike with link := hlink, reading := h.reading, mail := h.mail }
  have hending := h.ending
  cases hover : c.ending with
  | some ending =>
      rw [hover] at hending
      cases he with
      | received halike =>
          simp only [Connection.step, hover, ← hending]
          exact h
      | same =>
          cases e with
          | writer =>
              rw [step_writer, step_writer]
              exact hline (writeNext_like_writeNext h.link hmore hmore')
          | _ =>
              simp only [Connection.step, hover, ← hending]
              exact h
  | none =>
      rw [hover] at hending
      simp only [Connection.step, hover, ← hending]
      cases he with
      | received halike => exact hreceived halike hmore
      | same =>
          cases e with
          | received incoming => exact hreceived (.same incoming) hmore
          | reader => exact h.stepReader hmore hmore'
          | task key move =>
              exact h.of_sameReading (stepTask_like h.toLike hblind hblind' hopen s key move)
                (stepTask_sameReading s key move c) (stepTask_sameReading s key move c')
          | worker move =>
              exact h.of_sameReading (stepWorker_like h.toLike hblind hblind' hopen s move)
                (stepWorker_sameReading s move c) (stepWorker_sameReading s move c')
          | writer => exact hline (writeNext_like_writeNext h.link hmore hmore')
          | withdrawal id => exact hline (h.link.withdraw id)
          | tick milliseconds =>
              exact hline { h.link with clock := congrArg (· + milliseconds) h.link.clock }
          | outputClosed => exact hline { h.link with outputOpen := rfl }

/-- The events of a run but for those that have to do with tracing only. -/
def spine (s : Server) (c : Connection) : List Event → List Event
  | [] => []
  | e :: events =>
    if c.onlyTraces e then spine s (c.step s e) events else e :: spine s (c.step s e) events

theorem spine_calm (s : Server) {e : Event} (h : c.onlyTraces e = true) (events : List Event) :
    c.spine s (e :: events) = (c.step s e).spine s events := by
  rw [spine, if_pos h]

theorem spine_more (s : Server) {e : Event} (h : c.onlyTraces e = false) (events : List Event) :
    c.spine s (e :: events) = e :: (c.step s e).spine s events := by
  rw [spine, if_neg (by simp [h])]

theorem run_calm {events : List Event} (h : c.spine s events = []) : c.Calm (c.run s events) := by
  induction events generalizing c with
  | nil => exact .refl c
  | cons e events ih =>
      cases htraces : c.onlyTraces e with
      | true =>
          rw [spine_calm s htraces] at h
          exact (step_calm s htraces).trans (ih h)
      | false =>
          rw [spine_more s htraces] at h
          cases h

/-- Up to the first event that has to do with more than tracing, all is calm. -/
theorem exists_of_spine_eq_cons {events spine : List Event} {e : Event}
    (h : c.spine s events = e :: spine) :
    ∃ earlier later, events = earlier ++ e :: later ∧ c.Calm (c.run s earlier) ∧
      (c.run s earlier).onlyTraces e = false ∧
      ((c.run s earlier).step s e).spine s later = spine := by
  induction events generalizing c with
  | nil => cases h
  | cons e' events ih =>
      cases htraces : c.onlyTraces e' with
      | true =>
          rw [spine_calm s htraces] at h
          obtain ⟨earlier, later, rfl, hcalm, hmore, hspine⟩ := ih h
          exact ⟨e' :: earlier, later, rfl, (step_calm s htraces).trans hcalm, hmore, hspine⟩
      | false =>
          rw [spine_more s htraces] at h
          obtain ⟨rfl, hspine⟩ := List.cons.inj h
          exact ⟨[], events, rfl, .refl c, htraces, hspine⟩

/-- **Runs with the same spine stay twins.** The induction is on the first run; the second one is
brought to its next event that has to do with more than tracing. -/
theorem Twins.run (hs : s.Blind breaks) (h : c.Twins c') (hblind : c.Blind breaks)
    (hblind' : c'.Blind breaks) {events events' : List Event}
    (hopen : ∀ earlier later, events = earlier ++ later →
      (c.run s earlier).link.writerOpen = true ∨ breaks)
    (hspine : List.Forall₂ Event.Alike (c.spine s events) (c'.spine s events')) :
    (c.run s events).Twins (c'.run s events') := by
  induction events generalizing c c' events' with
  | nil =>
      have hcalm : c'.spine s events' = [] := List.forall₂_nil_left_iff.1 hspine
      exact h.of_calm (.refl c) (run_calm hcalm)
  | cons e events ih =>
      have hlater (earlier later : List Event) (heq : events = earlier ++ later) :
          ((c.step s e).run s earlier).link.writerOpen = true ∨ breaks :=
        hopen (e :: earlier) later (by rw [heq, List.cons_append])
      have hnext := step_blind hs hblind e
      cases htraces : c.onlyTraces e with
      | true =>
          rw [spine_calm s htraces] at hspine
          exact ih (h.of_calm (step_calm s htraces) (.refl c')) hnext hblind' hlater hspine
      | false =>
          rw [spine_more s htraces, List.forall₂_cons_left_iff] at hspine
          obtain ⟨e', spine', he, hspine, heq⟩ := hspine
          -- The second run catches up, so that the event is the next one in both.
          obtain ⟨earlier, later, rfl, hcalm, hmore, rfl⟩ := exists_of_spine_eq_cons heq
          have hblind'' := run_blind hs hblind' earlier
          have htwins := (h.of_calm (.refl c) hcalm).step (s := s) hblind hblind''
            (hopen [] _ rfl) he htraces hmore
          rw [run_append]
          exact ih htwins hnext (step_blind hs hblind'' e') hlater hspine

end Connection

end LanguageServer
