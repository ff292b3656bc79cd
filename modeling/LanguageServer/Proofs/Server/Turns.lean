import Mathlib.Data.List.Induction
import LanguageServer.Proofs.Server.Documents

set_option autoImplicit false

/-! # The turns of notification handlers

The reader puts the handlers of notifications in a queue, and they are called from there one at a
time. What has been called, is being called and waits to be called makes up one list of calls, to
which the reader adds at the end and from which nothing is lost as long as the connection lasts
(`HandlerTurn.calls_eq`). So this list is what the client's notifications call for, in the order in
which they came (`run_due`). The documents are brought in step with a notification before its handler
is put in the queue (`exists_of_coming`), and `due` counts the handler from when the notification is
served. When the connection ends, the calls that have not ended are dropped, and those that have are
the first of the list (`run_calls_prefix_heard`). -/

namespace LanguageServer

/-! ## Calls -/

/-- A call of the handler of a notification. -/
structure HandlerCall where
  method : String
  params : Json
deriving DecidableEq, Repr, Inhabited

def QueuedCall.call (q : QueuedCall) : HandlerCall := ⟨q.method, q.params⟩

def CurrentCall.call (r : CurrentCall) : HandlerCall := ⟨r.method, r.params⟩

def FinishedCall.call (f : FinishedCall) : HandlerCall := ⟨f.method, f.params⟩

/-- The notifications that are never handed to a handler. -/
def Method.internal : List String := [exit, confirmed, cancelRequest, setTrace]

namespace Server

/-- Whether there is a handler to call. -/
def handles (s : Server) (call : HandlerCall) : Bool := (s.notifications.lookup call.method).isSome

/-- The handler of a notification, called with what came with it. -/
def called (s : Server) (n : Negotiated) (method : String) (params : Json) : List QueuedCall :=
  (s.notifications.lookup method).toList.map fun h => ⟨method, params, h params n⟩

theorem map_call_called (s : Server) (n : Negotiated) (method : String) (params : Json) :
    (s.called n method params).map QueuedCall.call =
      [(⟨method, params⟩ : HandlerCall)].filter s.handles := by
  unfold called
  cases hlookup : s.notifications.lookup method with
  | none => simp [handles, hlookup]
  | some handler => simp [handles, hlookup, QueuedCall.call]

/-- The call that something asks for at a session. -/
def call? (s : Server) (session : Session) : Incoming → Option HandlerCall
  | .message (.notification n) =>
    if session.admitNotification n.method ∧ n.method ∉ Method.internal ∧
        (s.notifications.lookup n.method).isSome then
      some ⟨n.method, n.params.getD .null⟩
    else none
  | .message _ | .unreadable _ | .ended _ => none

end Server

/-- The calls that are asked for, in order. -/
def Session.callsFor (s : Server) (session : Session) : List Incoming → List HandlerCall
  | [] => []
  | incoming :: rest =>
    (s.call? session incoming).toList ++ callsFor s (session.hear s incoming) rest

/-- The call that a notification asks for, from when it is served until it is put in the queue. -/
def Reading.coming? : Reading → Option HandlerCall
  | .forgotten params => some ⟨Method.didClose, params⟩
  | .synced method params => some ⟨method, params⟩
  | .idle | .taken _ | .noted _ | .answering _ | .dropped _ | .leaving _ => none

theorem Reading.eq_of_coming? {r : Reading} {call : HandlerCall} (h : r.coming? = some call) :
    (∃ params, r = .forgotten params) ∨ r = .synced call.method call.params := by
  cases r with
  | forgotten params => exact .inl ⟨params, rfl⟩
  | synced method params =>
      obtain rfl := Option.some.inj h
      exact .inr rfl
  | _ => cases h

namespace Connection

/-- The calls that have ended, the one at work, and those that wait. -/
def calls (c : Connection) : List HandlerCall :=
  c.finished.map FinishedCall.call ++ (c.current.map CurrentCall.call).toList ++
    c.queue.map QueuedCall.call

/-- What an event puts in the queue. -/
def added (s : Server) (c : Connection) (e : Event) : List QueuedCall :=
  match c.ending, e, c.reading with
  | none, .reader, .synced method params => s.called c.negotiated method params
  | _, _, _ => []

/-- What an event can do to the handlers of notifications: it adds calls at the end, it has the
first call start when none is at work, or it has the call at work end. -/
inductive HandlerTurn (added : List QueuedCall) (c c' : Connection) : Prop where
  | goesOn (hfinished : c'.finished = c.finished)
      (hcurrent : c'.current.map CurrentCall.call = c.current.map CurrentCall.call)
      (hqueue : c'.queue = c.queue ++ added)
  | starts (next : QueuedCall) (hadded : added = []) (hfinished : c'.finished = c.finished)
      (hidle : c.current = none)
      (hcurrent : c'.current = some ⟨next.method, next.params, .running next.program⟩)
      (hqueue : c.queue = next :: c'.queue)
  | ends (call : CurrentCall) (outcome : Option Outcome) (hadded : added = [])
      (hended : call.activity = .ended outcome) (hcurrent : c.current = some call)
      (hidle : c'.current = none)
      (hfinished : c'.finished = c.finished ++ [⟨call.method, call.params, outcome⟩])
      (hqueue : c'.queue = c.queue)

variable {c c' : Connection}

/-- **Calls are added at the end, and none is lost.** -/
theorem HandlerTurn.calls_eq {added : List QueuedCall} (h : HandlerTurn added c c') :
    c'.calls = c.calls ++ added.map QueuedCall.call := by
  unfold calls
  cases h with
  | goesOn hfinished hcurrent hqueue =>
      rw [hfinished, hcurrent, hqueue, List.map_append]
      simp only [List.append_assoc]
  | starts next hadded hfinished hidle hcurrent hqueue =>
      rw [hadded, hfinished, hidle, hcurrent, hqueue]
      simp [CurrentCall.call, QueuedCall.call]
  | ends call outcome hadded hended hcurrent hidle hfinished hqueue =>
      rw [hadded, hfinished, hcurrent, hidle, hqueue]
      simp [CurrentCall.call, FinishedCall.call]

/-- The handlers are left alone. -/
theorem HandlerTurn.same (hfinished : c'.finished = c.finished) (hcurrent : c'.current = c.current)
    (hqueue : c'.queue = c.queue) : HandlerTurn [] c c' :=
  .goesOn hfinished (by rw [hcurrent]) (by rw [hqueue, List.append_nil])

theorem HandlerTurn.refl (c : Connection) : HandlerTurn [] c c := .same rfl rfl rfl

/-! ## One event -/

theorem stepTask_handlerTurn (s : Server) (key : Nat) (move : Move) (c : Connection) :
    HandlerTurn [] c (c.stepTask s key move) := by
  unfold stepTask
  split
  · exact .refl c
  · next t _ =>
      split
      · exact .same rfl rfl rfl
      · next activity _ _ =>
          obtain ⟨link, cache, progress, streams, fired, hacts, -⟩ :=
            Activity.step_acts s.options.requestTimeout c move activity
          dsimp only
          rw [hacts]
          exact .same rfl rfl rfl
      · exact .same rfl rfl rfl
      · exact .same rfl rfl rfl

theorem stepWorker_handlerTurn (s : Server) (move : Move) (c : Connection) :
    HandlerTurn [] c (c.stepWorker s move) := by
  unfold stepWorker
  split
  · next method params outcome hcurrent =>
      exact .ends ⟨method, params, .ended outcome⟩ outcome rfl rfl hcurrent rfl rfl rfl
  · next call _ hcurrent =>
      obtain ⟨link, cache, progress, streams, fired, hacts, -⟩ :=
        Activity.step_acts s.options.requestTimeout c move call.activity
      dsimp only
      rw [hacts]
      exact .goesOn rfl (by rw [hcurrent]; rfl) (List.append_nil _).symm
  · next hcurrent =>
      split
      · exact .refl c
      · next next rest hqueue => exact .starts next rfl rfl hcurrent rfl hqueue

theorem enqueue_handlerTurn (s : Server) (method : String) (params : Json) (c : Connection) :
    HandlerTurn (s.called c.negotiated method params) c
      ({ c with reading := .idle }.enqueue s method params) := by
  unfold enqueue Server.called
  split
  · next hnone =>
      rw [hnone]
      exact .same rfl rfl rfl
  · next h hsome =>
      rw [hsome]
      exact .goesOn rfl rfl rfl

/-- Whether a turn is one does not hang on anything but the calls. -/
theorem HandlerTurn.of_same {added : List QueuedCall} {c₀ : Connection} (h : HandlerTurn added c c')
    (hfinished : c.finished = c₀.finished) (hcurrent : c.current = c₀.current)
    (hqueue : c.queue = c₀.queue) : HandlerTurn added c₀ c' := by
  cases h with
  | goesOn hfinished' hcurrent' hqueue' =>
      exact .goesOn (hfinished'.trans hfinished) (by rw [hcurrent', hcurrent])
        (by rw [hqueue', hqueue])
  | starts next hadded hfinished' hidle hcurrent' hqueue' =>
      exact .starts next hadded (hfinished'.trans hfinished) (hcurrent.symm.trans hidle) hcurrent'
        (hqueue.symm.trans hqueue')
  | ends call outcome hadded hended hcurrent' hidle hfinished' hqueue' =>
      exact .ends call outcome hadded hended (hcurrent.symm.trans hcurrent') hidle
        (by rw [hfinished', hfinished]) (hqueue'.trans hqueue)

theorem take_handlerTurn {incoming : Incoming} (h : incoming.ended? = none) (c : Connection) :
    HandlerTurn [] c (c.take incoming) := by
  unfold take
  split
  · exact .same rfl rfl rfl
  · exact .same rfl rfl rfl
  · split
    · exact .same rfl rfl rfl
    · exact .refl c
  · split
    · exact .same rfl rfl rfl
    · exact .refl c
  · cases h

/-- Serving a message puts nothing in the queue. -/
theorem serve_handlerTurn (s : Server) {m : Message}
    (hgoes : c.session.ending? (.message m) = none) : HandlerTurn [] c (c.serve s m) := by
  cases m with
  | request r =>
      rw [serve_request]
      rcases considerRequest_cases s r { c with reading := .idle } with
        ⟨session, outcome, heq⟩ | ⟨program, -, heq⟩
      · rw [heq]
        exact .same rfl rfl rfl
      · rw [heq]
        exact .same rfl rfl rfl
  | notification n =>
      have hexit : n.method ≠ Method.exit := by
        intro hexit
        simp [Session.ending?, hexit] at hgoes
      obtain ⟨_, _, _, _, _, -, heq⟩ :=
        serveNotification_of_ne_exit hexit (n.params.getD .null) { c with reading := .idle }
      rw [serve_notification, heq]
      exact .same rfl rfl rfl
  | response r => exact .same rfl rfl rfl

theorem stepReader_handlerTurn (s : Server) (hending : c.ending = none)
    (hgoes : (c.deals? .reader).bind c.session.ending? = none) :
    HandlerTurn (c.added s .reader) c (c.stepReader s) := by
  unfold stepReader
  split
  · next hidle =>
      have hadded : c.added s .reader = [] := by simp only [added, hending, hidle]
      rw [hadded]
      split
      · exact .refl c
      · next incoming rest hinbox =>
          rw [deals?_of_idle hending hidle hinbox] at hgoes
          have hended : incoming.ended? = none := by
            cases incoming with
            | ended fault => cases hgoes
            | message m => rfl
            | unreadable fault => rfl
          exact (take_handlerTurn hended _).of_same rfl rfl rfl
  · next m htaken =>
      have hadded : c.added s .reader = [] := by simp only [added, hending, htaken]
      obtain ⟨link, hnote, -⟩ := c.note_eq m
      rw [hadded, hnote]
      exact .same rfl rfl rfl
  · next m hnoted =>
      have hdeals : c.deals? .reader = some (.message m) := by simp only [deals?, hending, hnoted]
      have hadded : c.added s .reader = [] := by simp only [added, hending, hnoted]
      rw [hdeals] at hgoes
      rw [hadded]
      exact serve_handlerTurn s hgoes
  · next params hforgotten =>
      have hadded : c.added s .reader = [] := by simp only [added, hending, hforgotten]
      rw [hadded]
      exact .same rfl rfl rfl
  · next method params hsynced =>
      have hadded : c.added s .reader = s.called c.negotiated method params := by
        simp only [added, hending, hsynced]
      rw [hadded]
      exact enqueue_handlerTurn s method params c
  · next m hanswering =>
      have hadded : c.added s .reader = [] := by simp only [added, hending, hanswering]
      rw [hadded]
      exact .same rfl rfl rfl
  · next ending hdropped =>
      have hadded : c.added s .reader = [] := by simp only [added, hending, hdropped]
      rw [hadded]
      exact .same rfl rfl rfl
  · next ending hleaving =>
      have hadded : c.added s .reader = [] := by simp only [added, hending, hleaving]
      rw [hadded]
      exact .same rfl rfl rfl

theorem added_of_ne_reader (s : Server) {e : Event} (h : e ≠ .reader) (c : Connection) :
    c.added s e = [] := by
  unfold added
  split
  · exact absurd rfl h
  · rfl

theorem handle_handlerTurn (s : Server) {e : Event} (h : e ≠ .reader) (c : Connection) :
    HandlerTurn [] c (c.handle s e) := by
  cases e with
  | received incoming => exact .same rfl rfl rfl
  | reader => exact absurd rfl h
  | task key move => exact stepTask_handlerTurn s key move c
  | worker move => exact stepWorker_handlerTurn s move c
  | writer => exact .same rfl rfl rfl
  | withdrawal id => exact .same rfl rfl rfl
  | tick milliseconds => exact .same rfl rfl rfl
  | outputClosed => exact .same rfl rfl rfl

/-- A connection that goes on after an event went on before it. -/
theorem fate_of_step (horderly : c.Orderly) {s : Server} {e : Event}
    (hgoes : (c.step s e).fate = none) :
    c.ending = none ∧ (c.deals? e).bind c.session.ending? = none := by
  have hfate := (step_hears horderly s e).fate_eq
  rw [hgoes] at hfate
  obtain ⟨hlives, hquiet⟩ := Option.or_eq_none_iff.1 hfate.symm
  exact ⟨(Option.or_eq_none_iff.1 hlives).1, hquiet⟩

/-- **What one event does to the handlers of notifications**, unless it ends the connection. -/
theorem step_handlerTurn (horderly : c.Orderly) (s : Server) {e : Event}
    (hgoes : (c.step s e).fate = none) : HandlerTurn (c.added s e) c (c.step s e) := by
  obtain ⟨hending, hquiet⟩ := fate_of_step horderly hgoes
  have hstep : c.step s e = c.handle s e := by simp only [step, hending]
  rw [hstep]
  by_cases hreader : e = .reader
  · subst hreader
    exact stepReader_handlerTurn s hending hquiet
  · rw [added_of_ne_reader s hreader]
    exact handle_handlerTurn s hreader c

/-! ## The handler that is about to be put in the queue -/

/-- The call that is about to be put in the queue. -/
def coming (s : Server) (c : Connection) : List HandlerCall :=
  c.reading.coming?.toList.filter s.handles

/-- All calls that the client's notifications have asked for. -/
def due (s : Server) (c : Connection) : List HandlerCall := c.calls ++ c.coming s

theorem coming_of_reading (s : Server) (h : c.reading.coming? = none) : c.coming s = [] := by
  rw [coming, h]
  rfl

/-- What an admitted notification asks for, unless it is the server's own business. -/
theorem call?_of_admits (s : Server) {session : Session} {n : Notification}
    (h : session.admitNotification n.method = true) :
    (s.call? session (.message (.notification n))).toList =
      if n.method ∈ Method.internal then []
      else [(⟨n.method, n.params.getD .null⟩ : HandlerCall)].filter s.handles := by
  simp only [Server.call?, h, true_and]
  by_cases hinternal : n.method ∈ Method.internal
  · simp [hinternal]
  · cases hlookup : s.notifications.lookup n.method with
    | none => simp [Server.handles, hlookup]
    | some handler => simp [hinternal, Server.handles, hlookup]

/-- Closing a document begins with its tokens. -/
theorem serve_didClose (s : Server) {n : Notification} (hmethod : n.method = Method.didClose)
    (c : Connection) :
    c.serve s (.notification n) =
      { c with
        cache := syncTokens (n.params.getD .null) c.cache
        reading := .forgotten (n.params.getD .null) } := by
  rw [serve_notification, hmethod]
  rfl

/-- A notification that is served asks for a call, unless it is the server's own business. -/
theorem serveNotification_coming? (method : String) (params : Json) (hidle : c.reading = .idle) :
    (c.serveNotification method params).reading.coming? =
      if method ∈ Method.internal then none else some ⟨method, params⟩ := by
  have hnone : c.reading.coming? = none := by rw [hidle]; rfl
  unfold serveNotification
  split
  · next hexit => rw [if_pos (by simp [Method.internal, hexit])]; rfl
  · next hexit =>
    split
    · next hconfirmed => rw [if_pos (by simp [Method.internal, hconfirmed])]; exact hnone
    · next hconfirmed =>
      split
      · next hcancel =>
          rw [if_pos (by simp [Method.internal, hcancel])]
          split
          · next p _ =>
              obtain ⟨fired, hfired⟩ := cancel_eq p.id c
              rw [hfired]
              exact hnone
          · exact hnone
      · next hcancel =>
        split
        · next htrace =>
            rw [if_pos (by simp [Method.internal, htrace])]
            split
            · exact hnone
            · exact hnone
        · next htrace =>
            have hother : method ∉ Method.internal := by
              simp [Method.internal, hexit, hconfirmed, hcancel, htrace]
            rw [if_neg hother]
            by_cases hclose : method = Method.didClose
            · rw [if_pos hclose, hclose]
              rfl
            · rw [if_neg hclose]
              rfl

/-- Only a notification asks for a call. -/
theorem serve_coming? (s : Server) (m : Message) (c : Connection) :
    (c.serve s m).reading.coming? =
      match m with
      | .notification n =>
        if n.method ∈ Method.internal then none else some ⟨n.method, n.params.getD .null⟩
      | .request _ | .response _ => none := by
  cases m with
  | request r =>
      rw [serve_request]
      rcases considerRequest_cases s r { c with reading := .idle } with
        ⟨session, outcome, heq⟩ | ⟨program, -, heq⟩
      · rw [heq]
        rfl
      · rw [heq]
        rfl
  | notification n => exact serveNotification_coming? n.method _ rfl
  | response r => rfl

/-- What is asked for is about to be put in the queue once it has been served. -/
theorem serve_coming (s : Server) {m : Message} (hadmits : c.session.admits (.message m) = true) :
    (s.call? c.session (.message m)).toList = (c.serve s m).coming s := by
  rw [coming, serve_coming?]
  cases m with
  | request r => rfl
  | response r => rfl
  | notification n =>
      rw [call?_of_admits s hadmits]
      dsimp only
      split
      · rfl
      · rfl

/-- A notification that closes a document is the one to have its tokens forgotten. -/
theorem serve_forgotten {s : Server} {n : Notification} {params : Json}
    (h : (c.serve s (.notification n)).reading = .forgotten params) :
    n.method = Method.didClose := by
  have hcoming := serve_coming? s (.notification n) c
  rw [h] at hcoming
  dsimp only at hcoming
  split at hcoming
  · cases hcoming
  · exact (congrArg HandlerCall.method (Option.some.inj hcoming)).symm

theorem call?_of_not_admits (s : Server) {session : Session} {incoming : Incoming}
    (h : session.admits incoming = false) : s.call? session incoming = none := by
  match incoming with
  | .message (.notification n) =>
      have hrefused : session.admitNotification n.method = false := h
      simp [Server.call?, hrefused]
  | .message (.request r) => rfl
  | .message (.response r) => rfl
  | .unreadable fault => rfl
  | .ended fault => rfl

theorem take_coming? (hidle : c.reading = .idle) (incoming : Incoming) :
    (c.take incoming).reading.coming? = none := by
  unfold take
  split
  · rfl
  · rfl
  · split
    · rfl
    · rw [hidle]
      rfl
  · split
    · rfl
    · rw [hidle]
      rfl
  · rfl

theorem stepReader_coming (horderly : c.Orderly) (hending : c.ending = none) (s : Server) :
    c.coming s ++ ((c.deals? .reader).bind (s.call? c.session)).toList =
      (c.added s .reader).map QueuedCall.call ++ (c.stepReader s).coming s := by
  unfold stepReader
  split
  · next hidle =>
      have hadded : c.added s .reader = [] := by simp only [added, hending, hidle]
      have hcoming : c.coming s = [] := coming_of_reading s (by rw [hidle]; rfl)
      split
      · next hinbox =>
          have hdeals : c.deals? .reader = none := by simp only [deals?, hending, hidle, hinbox]
          rw [hadded, hdeals, hcoming]
          rfl
      · next incoming rest hinbox =>
          have hnothing : (c.deals? .reader).bind (s.call? c.session) = none := by
            rw [deals?_of_idle hending hidle hinbox]
            split
            · rfl
            · next hadmits => exact call?_of_not_admits s (Bool.eq_false_iff.2 hadmits)
          have htake := coming_of_reading s
            (take_coming? (c := { c with inbox := rest }) hidle incoming)
          rw [hadded, hcoming, hnothing, htake]
          rfl
  · next m htaken =>
      have hadded : c.added s .reader = [] := by simp only [added, hending, htaken]
      have hdeals : c.deals? .reader = none := by simp only [deals?, hending, htaken]
      obtain ⟨link, hnote, -⟩ := c.note_eq m
      rw [hadded, hdeals, hnote, coming, coming, htaken]
      rfl
  · next m hnoted =>
      have hdeals : c.deals? .reader = some (.message m) := by simp only [deals?, hending, hnoted]
      have hadded : c.added s .reader = [] := by simp only [added, hending, hnoted]
      have hcoming : c.coming s = [] := coming_of_reading s (by rw [hnoted]; rfl)
      rw [hadded, hdeals, hcoming, List.nil_append, Option.bind_some]
      exact serve_coming s (horderly.admits_of_noted hnoted)
  · next params hforgotten =>
      -- The document is closed now, and its handler is as near to the queue as before.
      have hdeals : c.deals? .reader = none := by simp only [deals?, hending, hforgotten]
      have hadded : c.added s .reader = [] := by simp only [added, hending, hforgotten]
      rw [hadded, hdeals, coming, coming, hforgotten]
      exact List.append_nil _
  · next method params hsynced =>
      have hdeals : c.deals? .reader = none := by simp only [deals?, hending, hsynced]
      have hadded : c.added s .reader = s.called c.negotiated method params := by
        simp only [added, hending, hsynced]
      obtain ⟨queue, hqueue⟩ := enqueue_eq s method params { c with reading := .idle }
      rw [hadded, hdeals, hqueue, coming, coming, hsynced, Server.map_call_called]
      rfl
  · next m hanswering =>
      have hadded : c.added s .reader = [] := by simp only [added, hending, hanswering]
      have hdeals : c.deals? .reader = none := by simp only [deals?, hending, hanswering]
      rw [hadded, hdeals, coming, coming, hanswering]
      rfl
  · next ending hdropped =>
      have hadded : c.added s .reader = [] := by simp only [added, hending, hdropped]
      have hdeals : c.deals? .reader = none := by simp only [deals?, hending, hdropped]
      rw [hadded, hdeals, coming, coming, hdropped]
      rfl
  · next ending hleaving =>
      have hadded : c.added s .reader = [] := by simp only [added, hending, hleaving]
      have hdeals : c.deals? .reader = none := by simp only [deals?, hending, hleaving]
      rw [hadded, hdeals, coming, coming, hleaving]
      rfl

/-- Other events than turns of the reader leave alone what it has done. -/
structure Meanwhile (c c' : Connection) : Prop where
  session : c'.session = c.session
  documents : c'.documents = c.documents
  reading : c'.reading = c.reading
  ending : c'.ending = c.ending

theorem step_meanwhile (s : Server) {e : Event} (h : e ≠ .reader) (c : Connection) :
    c.Meanwhile (c.step s e) := by
  unfold step
  split
  · cases hincoming : e.incoming? with
    | none =>
        have hsame := handle_sameReading s hincoming h c
        exact ⟨hsame.session, hsame.documents, hsame.reading, hsame.ending⟩
    | some incoming =>
        obtain rfl := Event.eq_received hincoming
        exact ⟨rfl, rfl, rfl, rfl⟩
  · split
    · exact ⟨rfl, rfl, rfl, rfl⟩
    · exact ⟨rfl, rfl, rfl, rfl⟩

/-- **What one event adds to the calls** is what the message asks for that the reader deals with. -/
theorem step_due (horderly : c.Orderly) (s : Server) {e : Event}
    (hgoes : (c.step s e).fate = none) :
    (c.step s e).due s = c.due s ++ ((c.deals? e).bind (s.call? c.session)).toList := by
  have hcalls := (step_handlerTurn horderly s hgoes).calls_eq
  have hcoming : c.coming s ++ ((c.deals? e).bind (s.call? c.session)).toList =
      (c.added s e).map QueuedCall.call ++ (c.step s e).coming s := by
    by_cases hreader : e = .reader
    · subst hreader
      have hending := (fate_of_step horderly hgoes).1
      have hstep : c.step s .reader = c.stepReader s := by simp only [step, hending, handle]
      rw [hstep]
      exact stepReader_coming horderly hending s
    · have hmeanwhile := step_meanwhile s hreader c
      rw [deals?_of_ne_reader hreader, added_of_ne_reader s hreader, coming, coming,
        hmeanwhile.reading]
      exact List.append_nil _
  rw [due, due, hcalls, List.append_assoc, List.append_assoc, hcoming]

/-! ## Whole runs -/

theorem fate_of_run (horderly : c.Orderly) {s : Server} {events : List Event}
    (hgoes : (c.run s events).fate = none) : c.fate = none := by
  cases hfate : c.fate with
  | none => rfl
  | some ending =>
      rw [(heard_of_fate horderly s events hfate).2] at hgoes
      cases hgoes

/-- **All calls are asked for by what the reader has heard, in the order in which it heard it.** -/
theorem run_due (horderly : c.Orderly) (s : Server) {events : List Event}
    (hgoes : (c.run s events).fate = none) :
    (c.run s events).due s = c.due s ++ c.session.callsFor s (c.heard s events) := by
  induction events generalizing c with
  | nil => exact (List.append_nil _).symm
  | cons e events ih =>
      have hstep := step_hears horderly s e
      rw [run_cons] at hgoes ⊢
      rw [ih hstep.orderly hgoes, step_due horderly s (fate_of_run hstep.orderly hgoes),
        hstep.session_eq, heard, List.append_assoc]
      cases c.deals? e with
      | none => rfl
      | some incoming => rfl

/-- While no call is about to be put in the queue, all that was heard accounts for the calls and the
documents. -/
theorem served_of_coming? {s : Server} {events : List Event}
    (hlives : (fresh.run s events).fate = none)
    (h : (fresh.run s events).reading.coming? = none) :
    (fresh.run s events).calls = Session.fresh.callsFor s (fresh.heard s events) ∧
    (fresh.run s events).documents = (Session.fresh.syncs s (fresh.heard s events)).foldl
      (Sync.perform (fresh.run s events).session.encoding) .empty := by
  have hdue := run_due Orderly.fresh s hlives
  have hreading : ∀ params, (fresh.run s events).reading ≠ .forgotten params := by
    intro params hforgotten
    rw [hforgotten] at h
    cases h
  rw [due, coming_of_reading s h, List.append_nil] at hdue
  rw [← settled_of_reading hreading]
  exact ⟨hdue, run_settled s [] events⟩

/-- A call is about to be put in the queue because its notification has just been served, or because
the document that it closes has just been closed. -/
theorem stepReader_coming? {s : Server} {call : HandlerCall}
    (h : (c.stepReader s).reading.coming? = some call) :
    (∃ n, c.reading = .noted (.notification n) ∧ n.method = call.method ∧
      n.params.getD .null = call.params) ∨
    ∃ params, c.reading = .forgotten params ∧ call = ⟨Method.didClose, params⟩ := by
  unfold stepReader at h
  split at h
  · next hidle =>
      split at h
      · rw [hidle] at h
        cases h
      · next incoming rest hinbox =>
          rw [take_coming? (c := { c with inbox := rest }) hidle incoming] at h
          cases h
  · cases h
  · next m hnoted =>
      rw [serve_coming?] at h
      cases m with
      | request r => cases h
      | response r => cases h
      | notification n =>
          dsimp only at h
          split at h
          · cases h
          · obtain rfl := Option.some.inj h
            exact .inl ⟨n, hnoted, rfl, rfl⟩
  · next params hforgotten => exact .inr ⟨params, hforgotten, (Option.some.inj h).symm⟩
  · next method params _ =>
      obtain ⟨queue, hqueue⟩ := enqueue_eq s method params { c with reading := .idle }
      rw [hqueue] at h
      cases h
  · cases h
  · cases h
  · cases h

/-- **A call that is about to be put in the queue is asked for by the last notification heard.** What
was heard before accounts for the calls, and for the documents as long as the notification is one to
close a document that is still open. -/
theorem exists_of_coming {s : Server} {events : List Event} {call : HandlerCall}
    (hending : (fresh.run s events).ending = none)
    (h : (fresh.run s events).reading.coming? = some call) :
    ∃ (done : List Incoming) (n : Notification),
      fresh.heard s events = done ++ [.message (.notification n)] ∧
      n.method = call.method ∧ n.params.getD .null = call.params ∧
      (fresh.run s events).calls = Session.fresh.callsFor s done ∧
      ∀ params, (fresh.run s events).reading = .forgotten params →
        (fresh.run s events).documents = (Session.fresh.syncs s done).foldl
          (Sync.perform (fresh.run s events).session.encoding) .empty := by
  induction events using List.reverseRecOn with
  | nil => cases h
  | append_singleton events e ih =>
      rw [run_concat] at h hending ⊢
      have horderly := run_orderly Orderly.fresh s events
      have hopen : (fresh.run s events).ending = none := by
        cases hover : (fresh.run s events).ending with
        | none => rfl
        | some ending =>
            rw [(step_of_ending s e hover).1] at hending
            cases hending
      have hgoes : ((fresh.run s events).step s e).fate = none := by
        rw [fate_of_ending hending]
        rcases Reading.eq_of_coming? h with ⟨params, hforgotten⟩ | hsynced
        · rw [hforgotten]
          rfl
        · rw [hsynced]
          rfl
      have hcalls := (step_handlerTurn horderly s hgoes).calls_eq
      have hheard : fresh.heard s (events ++ [e]) =
          fresh.heard s events ++ ((fresh.run s events).deals? e).toList := by
        rw [heard_append, heard, heard, List.append_nil]
      by_cases hreader : e = .reader
      · subst hreader
        have hstep : (fresh.run s events).step s .reader = (fresh.run s events).stepReader s := by
          simp only [step, hopen, handle]
        rw [hstep] at h
        rcases stepReader_coming? h with
          ⟨n, hnoted, hmethod, hparams⟩ | ⟨params, hforgotten, rfl⟩
        · -- The notification is served: what was heard before accounts for all.
          have hdeals : (fresh.run s events).deals? .reader = some (.message (.notification n)) := by
            simp only [deals?, hopen, hnoted]
          have hadded : (fresh.run s events).added s .reader = [] := by
            simp only [added, hopen, hnoted]
          have hlives : (fresh.run s events).fate = none := by
            rw [fate_of_ending hopen, hnoted]
            rfl
          obtain ⟨hbefore, hdocuments⟩ := served_of_coming? hlives (by rw [hnoted]; rfl)
          rw [hadded, List.map_nil, List.append_nil, hbefore] at hcalls
          refine ⟨fresh.heard s events, n, by rw [hheard, hdeals]; rfl, hmethod, hparams, hcalls,
            fun params hforgotten => ?_⟩
          rw [step_noted hopen hnoted] at hforgotten ⊢
          rw [serve_didClose s (serve_forgotten hforgotten)]
          exact hdocuments
        · -- The document is closed, and it no longer matters what it was before.
          have hdeals : (fresh.run s events).deals? .reader = none := by
            simp only [deals?, hopen, hforgotten]
          have hadded : (fresh.run s events).added s .reader = [] := by
            simp only [added, hopen, hforgotten]
          obtain ⟨done, n, hdone, hmethod, hparams, hbefore, -⟩ := ih hopen (by rw [hforgotten]; rfl)
          rw [hadded, List.map_nil, List.append_nil, hbefore] at hcalls
          refine ⟨done, n, by rw [hheard, hdeals, hdone]; simp, hmethod, hparams, hcalls,
            fun params' hreading => ?_⟩
          simp only [hstep, stepReader, hforgotten, sync] at hreading
          cases hreading
      · have hmeanwhile := step_meanwhile s hreader (fresh.run s events)
        rw [hmeanwhile.reading] at h
        obtain ⟨done, n, hdone, hmethod, hparams, hbefore, hdocuments⟩ := ih hopen h
        rw [added_of_ne_reader s hreader, List.map_nil, List.append_nil, hbefore] at hcalls
        refine ⟨done, n, ?_, hmethod, hparams, hcalls, ?_⟩
        · rw [hheard, deals?_of_ne_reader hreader, hdone]
          simp
        · rw [hmeanwhile.reading, hmeanwhile.documents, hmeanwhile.session]
          exact hdocuments

/-! ## What a call in the queue is -/

theorem eq_of_mem_called {s : Server} {n : Negotiated} {method : String} {params : Json}
    {q : QueuedCall} (h : q ∈ s.called n method params) :
    q.method = method ∧ q.params = params ∧
      ∃ handler, s.notifications.lookup method = some handler ∧ q.program = handler params n := by
  unfold Server.called at h
  cases hlookup : s.notifications.lookup method with
  | none =>
      rw [hlookup] at h
      cases h
  | some handler =>
      rw [hlookup] at h
      obtain rfl := List.mem_singleton.1 h
      exact ⟨rfl, rfl, handler, rfl, rfl⟩

/-- What is put in the queue is the registered handler, once the documents are in step with the
notification. -/
theorem added_spec {s : Server} {e : Event} {q : QueuedCall} (h : q ∈ c.added s e) :
    c.reading = .synced q.method q.params ∧ (c.step s e).documents = c.documents ∧
    ∃ handler, s.notifications.lookup q.method = some handler ∧
      q.program = handler q.params c.negotiated := by
  unfold added at h
  split at h
  · next method params hending hsynced =>
      obtain ⟨hmethod, hparams, hhandler⟩ := eq_of_mem_called h
      obtain ⟨queue, hqueue⟩ := enqueue_eq s method params { c with reading := .idle }
      have hstep : c.step s .reader = { c with reading := .idle }.enqueue s method params := by
        simp only [step, hending, handle, stepReader, hsynced]
      rw [hmethod, hparams, hstep, hqueue]
      exact ⟨hsynced, rfl, hhandler⟩
  · cases h

/-- What the reader has in hand is one message at most. -/
theorem ahead_eq (c : Connection) :
    ∃ hand : List Incoming, c.ahead = hand ++ c.inbox ∧ hand.length ≤ 1 ∧
      (c.reading = .idle → hand = []) := by
  refine ⟨_, rfl, ?_, fun hidle => by rw [hidle]; rfl⟩
  cases c.reading.hand? with
  | none => exact Nat.zero_le 1
  | some m => exact Nat.le_refl 1

theorem arrivals_eq {s : Server} {events : List Event} (hlives : (fresh.run s events).fate = none) :
    arrivals events = fresh.heard s events ++ (fresh.run s events).ahead := by
  obtain ⟨lost, harrivals, hlost⟩ := run_ahead Orderly.fresh s events
  rw [hlost (Option.or_eq_none_iff.1 hlives).1, List.append_nil] at harrivals
  exact harrivals

/-- What has been served accounts for the calls, and at most one message is between that and what
waits. The documents are ahead of the calls by this message from when they are in step with it until
its handler is in the queue. -/
theorem exists_served {s : Server} {events : List Event}
    (hlives : (fresh.run s events).fate = none) :
    ∃ served hand : List Incoming, arrivals events = served ++ hand ++ (fresh.run s events).inbox ∧
      hand.length ≤ 1 ∧ ((fresh.run s events).reading = .idle → hand = []) ∧
      (fresh.run s events).calls = Session.fresh.callsFor s served ∧
      ((∀ method params, (fresh.run s events).reading ≠ .synced method params) →
        (fresh.run s events).documents = (Session.fresh.syncs s served).foldl
          (Sync.perform (fresh.run s events).session.encoding) .empty) ∧
      ∀ method params, (fresh.run s events).reading = .synced method params →
        (∃ n : Notification, hand = [.message (.notification n)] ∧ n.method = method ∧
          n.params.getD .null = params) ∧
        (fresh.run s events).documents = (Session.fresh.syncs s (served ++ hand)).foldl
          (Sync.perform (fresh.run s events).session.encoding) .empty := by
  have harrivals := arrivals_eq hlives
  have hending : (fresh.run s events).ending = none := (Option.or_eq_none_iff.1 hlives).1
  cases hcoming : (fresh.run s events).reading.coming? with
  | none =>
      obtain ⟨hcalls, hdocuments⟩ := served_of_coming? hlives hcoming
      obtain ⟨hand, hahead, hlength, hidle⟩ := ahead_eq (fresh.run s events)
      refine ⟨fresh.heard s events, hand, ?_, hlength, hidle, hcalls, fun _ => hdocuments,
        fun method params hsynced => ?_⟩
      · rw [harrivals, hahead, List.append_assoc]
      · rw [hsynced] at hcoming
        cases hcoming
  | some call =>
      -- The notification that asks for the call is the one in hand.
      obtain ⟨done, n, hdone, hmethod, hparams, hcalls, hdocuments⟩ :=
        exists_of_coming hending hcoming
      have hahead : (fresh.run s events).ahead = (fresh.run s events).inbox := by
        rcases Reading.eq_of_coming? hcoming with ⟨params, hforgotten⟩ | hsynced
        · rw [ahead, hforgotten]
          rfl
        · rw [ahead, hsynced]
          rfl
      refine ⟨done, [.message (.notification n)], by rw [harrivals, hdone, hahead], Nat.le_refl 1,
        fun hidle => ?_, hcalls, fun hother => ?_, fun method params hsynced => ⟨⟨n, rfl, ?_⟩, ?_⟩⟩
      · rw [hidle] at hcoming
        cases hcoming
      · rcases Reading.eq_of_coming? hcoming with ⟨params, hforgotten⟩ | hsynced
        · exact hdocuments params hforgotten
        · exact absurd hsynced (hother _ _)
      · rw [hsynced] at hcoming
        obtain rfl := Option.some.inj hcoming
        exact ⟨hmethod, hparams⟩
      · have hreading : ∀ params, (fresh.run s events).reading ≠ .forgotten params := by
          simp [hsynced]
        rw [← hdone, ← settled_of_reading hreading]
        exact run_settled s [] events

/-! ## When the connection ends -/

/-- No handler is at work and none waits. -/
structure Vacant (c : Connection) : Prop where
  current : c.current = none
  queue : c.queue = []

theorem HandlerTurn.vacant (h : HandlerTurn [] c c') (hvacant : c.Vacant) :
    c'.Vacant ∧ c'.finished = c.finished := by
  cases h with
  | goesOn hfinished hcurrent hqueue =>
      rw [hvacant.current, Option.map_none, Option.map_eq_none_iff] at hcurrent
      rw [hvacant.queue] at hqueue
      exact ⟨⟨hcurrent, hqueue⟩, hfinished⟩
  | starts next hadded hfinished hidle hcurrent hqueue =>
      rw [hvacant.queue] at hqueue
      cases hqueue
  | ends call outcome hadded hended hcurrent hidle hfinished hqueue =>
      rw [hvacant.current] at hcurrent
      cases hcurrent

theorem drop_vacant (ending : Ending) (c : Connection) :
    (c.drop ending).Vacant ∧ (c.drop ending).finished = c.finished := ⟨⟨rfl, rfl⟩, rfl⟩

/-- The event that ends the connection drops the calls that have not ended. -/
theorem step_ends (horderly : c.Orderly) {s : Server} {e : Event} (hlives : c.fate = none)
    (hends : (c.step s e).fate ≠ none) :
    (c.step s e).Vacant ∧ (c.step s e).finished = c.finished := by
  have hfate := (step_hears horderly s e).fate_eq
  rw [hlives, Option.none_or] at hfate
  obtain ⟨ending, hending⟩ := Option.ne_none_iff_exists'.1 (hfate ▸ hends)
  obtain ⟨incoming, hdeals, hstop⟩ := Option.bind_eq_some_iff.1 hending
  have hreader : e = .reader := by
    by_contra hother
    rw [deals?_of_ne_reader hother] at hdeals
    cases hdeals
  subst hreader
  have hopen : c.ending = none := (Option.or_eq_none_iff.1 hlives).1
  unfold deals? at hdeals
  split at hdeals
  · next m _ _ hnoted =>
      obtain rfl := Option.some.inj hdeals
      rw [step_noted hopen hnoted]
      cases m with
      | request r => cases hstop
      | response r => cases hstop
      | notification n =>
          have hexit : n.method = Method.exit := by
            by_contra hother
            rw [Session.ending?, if_neg hother] at hstop
            cases hstop
          rw [serve_notification, serveNotification, if_pos hexit]
          exact drop_vacant _ _
  · next incoming' rest _ _ hidle hinbox =>
      split at hdeals
      · cases hdeals
      · next hadmits =>
          obtain rfl := Option.some.inj hdeals
          rw [ending?_of_not_admits (horderly.living hlives) (Bool.eq_false_iff.2 hadmits)] at hstop
          simp only [step, hopen, handle, stepReader, hidle, hinbox]
          cases incoming' with
          | message m => cases hstop
          | unreadable fault => cases hstop
          | ended fault => exact drop_vacant _ _
  · cases hdeals

/-- From then on no handler is called. -/
theorem step_of_fate (s : Server) {ending : Ending} (hfate : c.fate = some ending)
    (hvacant : c.Vacant) (e : Event) :
    (c.step s e).Vacant ∧ (c.step s e).finished = c.finished := by
  have hquiet : HandlerTurn [] c (c.step s e) := by
    unfold step
    split
    · next hending =>
        by_cases hreader : e = .reader
        · subst hreader
          have hadded : c.added s .reader = [] := by
            rw [fate_of_ending hending] at hfate
            unfold added
            split
            · next hsynced => rw [hsynced] at hfate; cases hfate
            · rfl
          rw [← hadded]
          exact stepReader_handlerTurn s hending (by rw [deals?_of_fate hfate]; rfl)
        · exact handle_handlerTurn s hreader c
    · split
      · exact .same rfl rfl rfl
      · exact .refl c
  exact hquiet.vacant hvacant

/-- An event after which the connection has ended or is about to leaves only what had ended of the
calls before. -/
theorem step_over (horderly : c.Orderly) {s : Server} {e : Event}
    (hvacant : c.fate ≠ none → c.Vacant) (hover : (c.step s e).fate ≠ none) :
    (c.step s e).Vacant ∧ (c.step s e).finished = c.finished := by
  cases hfate : c.fate with
  | none => exact step_ends horderly hfate hover
  | some ending => exact step_of_fate s hfate (hvacant (by simp [hfate])) e

theorem run_vacant (s : Server) (events : List Event) (h : (fresh.run s events).fate ≠ none) :
    (fresh.run s events).Vacant := by
  induction events using List.reverseRecOn with
  | nil => exact absurd rfl h
  | append_singleton events e ih =>
      rw [run_concat] at h ⊢
      exact (step_over (run_orderly Orderly.fresh s events) ih h).1

theorem calls_prefix_of_vacant (hvacant : c'.Vacant) (hfinished : c'.finished = c.finished) :
    c'.calls <+: c.calls := by
  have hcalls : c'.calls = c.finished.map FinishedCall.call := by
    rw [calls, hvacant.current, hvacant.queue, hfinished]
    simp
  rw [hcalls, calls, List.append_assoc]
  exact List.prefix_append _ _

theorem callsFor_prefix_append (s : Server) (session : Session) (earlier later : List Incoming) :
    session.callsFor s earlier <+: session.callsFor s (earlier ++ later) := by
  induction earlier generalizing session with
  | nil => exact List.nil_prefix
  | cons incoming earlier ih =>
      rw [List.cons_append, Session.callsFor, Session.callsFor]
      exact (List.prefix_append_right_inj _).2 (ih _)

/-- **No handler is ever called unasked, twice or out of turn**, also when the connection ends. -/
theorem run_calls_prefix_heard (s : Server) (events : List Event) :
    (fresh.run s events).calls <+: Session.fresh.callsFor s (fresh.heard s events) := by
  induction events using List.reverseRecOn with
  | nil => exact List.nil_prefix
  | append_singleton events e ih =>
      by_cases hgoes : (fresh.run s (events ++ [e])).fate = none
      · have hdue : (fresh.run s (events ++ [e])).due s =
            Session.fresh.callsFor s (fresh.heard s (events ++ [e])) :=
          run_due Orderly.fresh s hgoes
        rw [← hdue]
        exact List.prefix_append _ _
      · rw [run_concat] at hgoes ⊢
        obtain ⟨hvacant, hfinished⟩ :=
          step_over (run_orderly Orderly.fresh s events) (run_vacant s events) hgoes
        rw [heard_append]
        exact (calls_prefix_of_vacant hvacant hfinished).trans
          (ih.trans (callsFor_prefix_append s _ _ _))

/-! ## The turns of handlers -/

/-- **Handlers of notifications are called one at a time, in the order of the notifications and once
for each**, whatever comes in, whatever handlers do and in whatever order things happen. As long as
the connection goes on, the calls that have ended, the one at work and those that wait are just
those that the client has asked for with what has been served of its messages, each with its own
parameters. Everything that came in has been served, but for one message that the reader may have in
hand and for what waits. A call starts when none is at work, with what is first in the queue, and it
makes way for the next only when it has ended, by itself or by a crash. What is put in the queue is
the handler that is registered for the notification in hand, and before that moment the documents
are already those that the notification leaves behind, or those of before if it could not be read or
did not fit; at all other times they are what the messages served leave behind. When the connection
ends, no handler is at work any more and none waits, and the calls that have ended were the first of
those asked for. -/
theorem run_handlerCalls (s : Server) (events : List Event) :
    let c := fresh.run s events
    (c.fate = none →
      (∃ served hand : List Incoming, arrivals events = served ++ hand ++ c.inbox ∧
        hand.length ≤ 1 ∧ (c.reading = .idle → hand = []) ∧
        c.calls = Session.fresh.callsFor s served ∧
        ((∀ method params, c.reading ≠ .synced method params) →
          c.documents =
            (Session.fresh.syncs s served).foldl (Sync.perform c.session.encoding) .empty) ∧
        ∀ method params, c.reading = .synced method params →
          (∃ n : Notification, hand = [.message (.notification n)] ∧ n.method = method ∧
            n.params.getD .null = params) ∧
          c.documents =
            (Session.fresh.syncs s (served ++ hand)).foldl (Sync.perform c.session.encoding)
              .empty) ∧
      ∀ e, (c.step s e).fate = none → ∃ added, HandlerTurn added c (c.step s e) ∧ ∀ q ∈ added,
        c.reading = .synced q.method q.params ∧ (c.step s e).documents = c.documents ∧
        ∃ handler, s.notifications.lookup q.method = some handler ∧
          q.program = handler q.params c.negotiated) ∧
    (c.fate ≠ none → c.Vacant) ∧ c.calls <+: Session.fresh.callsFor s (arrivals events) := by
  intro c
  refine ⟨fun hlives => ⟨exists_served hlives, fun e hgoes => ⟨c.added s e, ?_, fun q hq =>
    added_spec hq⟩⟩, run_vacant s events, ?_⟩
  · exact step_handlerTurn (run_orderly Orderly.fresh s events) s hgoes
  · obtain ⟨rest, harrivals, -⟩ := exists_arrivals_eq s events
    rw [harrivals]
    exact (run_calls_prefix_heard s events).trans (callsFor_prefix_append s _ _ _)

/-- A server whose handler crashes when a document is opened and rests when one is closed. -/
def frailServer : Server :=
  Server.bare .default default
    |>.withNotification Method.didOpen (fun _ _ => .crash)
    |>.withNotification Method.didClose
      (fun _ _ => .wait (.sleep 5) fun _ => .finish (.result .null))
    |>.withNotification "note" (fun params _ => .finish (.result params))

/-- A client that opens a document too early, then opens, notes and closes, opens again, and sends
what nobody handles. -/
def busyClient : List Incoming :=
  let notification (method : String) (params : Json) : Incoming :=
    .message (.notification ⟨method, some params⟩)
  let item : Json :=
    .obj [("textDocument", .obj [("uri", .str "file:///a"), ("languageId", .str "plain"),
      ("version", .int 1), ("text", .str "x")])]
  let place : Json := .obj [("textDocument", .obj [("uri", .str "file:///a")])]
  [.message (.request ⟨.number 1, Method.handshake, some (.obj [("capabilities", .obj [])])⟩),
   notification Method.didOpen item, notification Method.confirmed .null,
   notification Method.didOpen item, notification "note" (.int 1),
   notification Method.didClose place, notification "unheard" .null,
   notification Method.didOpen .null, notification "note" (.int 2)]

/-- Handlers are called in between, and after all has been read. -/
def busyEvents : List Event :=
  let arrived : List Event := busyClient.map .received
  let between : List Event := [.worker .forward, .worker .forward, .reader, .worker .forward]
  arrived ++ List.replicate 15 Event.reader ++ between ++ List.replicate 20 Event.reader ++
    List.replicate 5 (Event.worker .forward)

/-- The client leaves without waiting. -/
def hurriedExit : List Event :=
  .received (.message (.notification ⟨Method.exit, none⟩)) :: List.replicate 3 Event.reader

/-- Of the calls that the busy client asks for, one has crashed, one has ended, one rests, and two
wait; the last three are dropped when it leaves. -/
theorem busyClient_handlerCalls :
    let c := fresh.run frailServer busyEvents
    let c' := fresh.run frailServer (busyEvents ++ hurriedExit)
    c.fate = none ∧ c.finished.map (·.outcome) = [none, some (.result (.int 1))] ∧
    c.current.isSome ∧ c.queue.length = 2 ∧ c.documents = .empty ∧
    (Session.fresh.callsFor frailServer busyClient).map (·.method) =
      [Method.didOpen, "note", Method.didClose, Method.didOpen, "note"] ∧
    c.calls = Session.fresh.callsFor frailServer busyClient ∧
    (∃ added, HandlerTurn added c (c.step frailServer (.worker .forward))) ∧
    c'.fate ≠ none ∧ c'.Vacant ∧ c'.calls.length = 2 := by
  intro c c'
  have hlives : c.fate = none := by decide +kernel
  have hidle : c.reading = .idle := by decide +kernel
  have hinbox : c.inbox = [] := by decide +kernel
  have harrivals : arrivals busyEvents = busyClient := by decide +kernel
  have hover : c'.fate ≠ none := by decide +kernel
  obtain ⟨⟨served, hand, hserved, -, hhand, hcalls, -⟩, hturn⟩ :=
    (run_handlerCalls frailServer busyEvents).1 hlives
  rw [hhand hidle, hinbox, harrivals, List.append_nil, List.append_nil] at hserved
  obtain ⟨added, hadded, -⟩ := hturn (.worker .forward) (by decide +kernel)
  rw [← hserved] at hcalls
  exact ⟨hlives, by decide +kernel, by decide +kernel, by decide +kernel, by decide +kernel,
    by decide +kernel, hcalls, ⟨added, hadded⟩, hover,
    (run_handlerCalls frailServer (busyEvents ++ hurriedExit)).2.1 hover, by decide +kernel⟩

end Connection

end LanguageServer
