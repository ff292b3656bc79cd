import LanguageServer.Proofs.Client.Talk
import LanguageServer.Server.Run

set_option autoImplicit false

/-! # What the steps of a connection leave alone

Handlers reach only the line to the client, the tokens known, the streams of progress reports and the
tokens of requests: `Activity.step_acts`. What the reader does with a request is one of two things, it
answers or hands the request to a handler (`considerRequest_cases`); a notification either ends the
connection or changes neither the work on requests nor the line (`serveNotification_cases`). -/

namespace LanguageServer

namespace Connection

/-- The connection after a step of a handler. -/
def Acts (c c' : Connection) : Prop :=
  ∃ link cache progress streams fired,
    c' = { c with
      link := link, cache := cache, progress := progress, streams := streams, fired := fired } ∧
      c.link.Talks link

theorem Acts.refl (c : Connection) : c.Acts c :=
  ⟨c.link, c.cache, c.progress, c.streams, c.fired, rfl, Link.Talks.refl _⟩

theorem acts_link (c : Connection) {link : Link} (h : c.link.Talks link) :
    c.Acts { c with link := link } :=
  ⟨link, c.cache, c.progress, c.streams, c.fired, rfl, h⟩

theorem noteProgress_acts (c : Connection) (a : ProgressAction) : c.Acts (c.noteProgress a).2 := by
  unfold noteProgress
  dsimp only
  split
  · exact ⟨c.link, c.cache, _, c.streams, c.fired, rfl, Link.Talks.refl _⟩
  · exact Acts.refl c

theorem fire_eq (token : CancelToken) (c : Connection) :
    ∃ fired, c.fire token = { c with fired := fired } := by
  unfold fire
  split
  · exact ⟨_, rfl⟩
  · exact ⟨c.fired, rfl⟩

theorem cancel_eq (id : RequestId) (c : Connection) :
    ∃ fired, c.cancel id = { c with fired := fired } := by
  unfold cancel
  split
  · exact fire_eq _ c
  · exact ⟨c.fired, rfl⟩

theorem perform_acts (c : Connection) (a : Action) : c.Acts (c.perform a).2 := by
  cases a with
  | document uri => exact Acts.refl c
  | openCount => exact Acts.refl c
  | traceLevel => exact Acts.refl c
  | isCancelled token => exact Acts.refl c
  | fire token =>
      obtain ⟨fired, hfired⟩ := fire_eq token c
      exact ⟨c.link, c.cache, c.progress, c.streams, fired, hfired, Link.Talks.refl _⟩
  | send n => exact acts_link c (Link.talks_send c.link fun r h => by cases h)
  | progress a => exact noteProgress_acts c a
  | nextStream => exact ⟨c.link, c.cache, c.progress, _, c.fired, rfl, Link.Talks.refl _⟩
  | tokensFull uri data =>
      exact ⟨c.link, _, c.progress, c.streams, c.fired, rfl, Link.Talks.refl _⟩
  | tokensDelta uri previous data =>
      exact ⟨c.link, _, c.progress, c.streams, c.fired, rfl, Link.Talks.refl _⟩

end Connection

namespace Activity

open Connection

theorem forward_acts (c : Connection) (a : Activity) : c.Acts (a.forward c).2 := by
  unfold forward
  split
  · exact Acts.refl c
  · exact Acts.refl c
  · exact perform_acts c _
  · exact acts_link c (Link.Talks.of_eq rfl rfl rfl)
  · exact Acts.refl c
  · exact Acts.refl c
  · exact acts_link c (OngoingCall.talks_plan _ c.link)
  · exact acts_link c (OngoingCall.talks_planAll _ c.link)
  · split
    · exact Acts.refl c
    · exact Acts.refl c
  · split
    · exact Acts.refl c
    · exact Acts.refl c
  · exact Acts.refl c
  · exact acts_link c (Link.talks_send c.link fun r h => by cases h)
  · split
    · exact Acts.refl c
    · exact Acts.refl c
  · split
    · exact Acts.refl c
    · exact Acts.refl c
  · exact Acts.refl c

theorem atCall_acts {f : OngoingCall → Link → OngoingCall × Link}
    (hf : ∀ (o : OngoingCall) (l : Link), l.Talks (f o l).2) (index : Nat) (c : Connection)
    (a : Activity) : c.Acts (a.atCall f index c).2 := by
  unfold atCall
  split
  · exact acts_link c (hf _ c.link)
  · exact acts_link c (OngoingCall.talks_atIndex hf index _ c.link)
  · exact Acts.refl c

/-- **Handlers reach only the line, the tokens known, the streams and the tokens of requests.** -/
theorem step_acts (timeout : Nat) (c : Connection) (move : Move) (a : Activity) :
    c.Acts (a.step timeout c move).2 := by
  cases move with
  | forward => exact forward_acts c a
  | call index => exact atCall_acts (OngoingCall.talks_step timeout) index c a
  | giveUp index => exact atCall_acts OngoingCall.talks_giveUp index c a

end Activity

namespace Connection

/-! ## The reader -/

theorem step_noted {c : Connection} (hending : c.ending = none) {m : Message}
    (hnoted : c.reading = .noted m) (s : Server) : c.step s .reader = c.serve s m := by
  simp only [step, hending, handle, stepReader, hnoted]

theorem serve_request (s : Server) (r : Request) (c : Connection) :
    c.serve s (.request r) = { c with reading := .idle }.considerRequest s r := rfl

theorem serve_notification (s : Server) (n : Notification) (c : Connection) :
    c.serve s (.notification n) =
      { c with reading := .idle }.serveNotification n.method (n.params.getD .null) := rfl

/-- A request is answered at the next stage, or its handler is at work from now on. -/
theorem considerRequest_cases (s : Server) (r : Request) (c : Connection) :
    (∃ session outcome, c.considerRequest s r =
      { c with session := session, reading := .answering (.response ⟨some r.id, outcome⟩) }) ∨
    (∃ program, c.isInFlight r.id = false ∧ c.considerRequest s r =
      { c with
        inFlight := c.inFlight ++ [(r.id, c.spawned)]
        tasks := c.tasks ++ [⟨c.spawned, r.id, r.method, .working (.running program)⟩]
        spawned := c.spawned + 1 }) := by
  unfold considerRequest
  split
  · exact .inl ⟨_, _, rfl⟩
  · unfold serveRequest
    split
    · unfold start
      split
      · exact .inl ⟨_, _, rfl⟩
      · split
        · exact .inl ⟨_, _, rfl⟩
        · exact .inl ⟨_, _, rfl⟩
    · split
      · exact .inl ⟨_, _, rfl⟩
      · split
        · unfold spawn
          split
          · exact .inl ⟨_, _, rfl⟩
          · next hfree => exact .inr ⟨_, by simpa using hfree, rfl⟩
        · split
          · exact .inl ⟨_, _, rfl⟩
          · exact .inl ⟨_, _, rfl⟩

theorem enqueue_eq (s : Server) (method : String) (params : Json) (c : Connection) :
    ∃ queue, c.enqueue s method params = { c with queue := queue } := by
  unfold enqueue
  split
  · exact ⟨c.queue, rfl⟩
  · exact ⟨_, rfl⟩

/-- A notification that does not end the connection leaves the work on requests and the line
alone. -/
theorem serveNotification_of_ne_exit {method : String} (hexit : method ≠ Method.exit)
    (params : Json) (c : Connection) :
    ∃ session documents cache fired reading,
      (reading = c.reading ∨ reading = .forgotten params ∨ reading = .synced method params) ∧
      c.serveNotification method params =
        { c with
          session := session, documents := documents, cache := cache, fired := fired
          reading := reading } := by
  unfold serveNotification
  rw [if_neg hexit]
  split
  · exact ⟨_, _, _, _, _, .inl rfl, rfl⟩
  · split
    · split
      · next p _ =>
          obtain ⟨fired, hfired⟩ := cancel_eq p.id c
          exact ⟨_, _, _, _, _, .inl rfl, hfired⟩
      · exact ⟨_, _, _, _, _, .inl rfl, rfl⟩
    · split
      · split
        · exact ⟨_, _, _, _, _, .inl rfl, rfl⟩
        · exact ⟨_, _, _, _, _, .inl rfl, rfl⟩
      · split
        · exact ⟨_, _, _, _, _, .inr (.inl rfl), rfl⟩
        · exact ⟨_, _, _, _, _, .inr (.inr rfl), rfl⟩

/-- A notification ends the connection, or it leaves the work on requests and the line alone. -/
theorem serveNotification_cases (method : String) (params : Json) (c : Connection) :
    (∃ session status,
      c.serveNotification method params = { c with session := session }.drop (.status status)) ∨
    (∃ session documents cache fired reading,
      (reading = c.reading ∨ reading = .forgotten params ∨ reading = .synced method params) ∧
      c.serveNotification method params =
        { c with
          session := session, documents := documents, cache := cache, fired := fired
          reading := reading }) := by
  by_cases hexit : method = Method.exit
  · exact .inl ⟨_, _, if_pos hexit⟩
  · exact .inr (serveNotification_of_ne_exit hexit params c)

theorem talks_entry (l : Link) (entry : Option Notification) :
    l.Talks ((entry.map fun n => l.post (.notification n)).getD l) := by
  cases entry with
  | none => exact Link.Talks.refl l
  | some n => exact Link.talks_post l fun r h => by cases h

/-- Noting what was taken sends at most a notification. -/
theorem note_eq (m : Message) (c : Connection) :
    ∃ link, c.note m = { c with link := link, reading := .noted m } ∧ c.link.Talks link :=
  ⟨_, rfl, talks_entry c.link _⟩

theorem drop_talks (ending : Ending) (c : Connection) : c.link.Talks (c.drop ending).link :=
  Link.talks_foldl_desert _ c.link

end Connection

end LanguageServer
