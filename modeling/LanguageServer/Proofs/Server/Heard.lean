import LanguageServer.Proofs.Server.Frame

set_option autoImplicit false

/-! # What the reader has heard

What comes in waits for the reader, which takes it up piece by piece and is done with each piece
before it takes the next. `Connection.heard` is the list of the pieces that it is done with in a run.
Only the reader moves the session, and what it does to the session depends on the pieces alone
(`run_session`); together with what is still ahead of it, the pieces are what came in (`run_ahead`);
and the first of them that ends the connection is the last (`heard_of_fate`). All of this holds for
every run, whatever handlers do in the meantime. -/

namespace LanguageServer

/-! ## What came in -/

/-- What comes in with an event. -/
def Event.incoming? : Event → Option Incoming
  | .received incoming => some incoming
  | _ => none

theorem Event.eq_received {e : Event} {incoming : Incoming} (h : e.incoming? = some incoming) :
    e = .received incoming := by
  cases e with
  | received incoming' => rw [Option.some.inj h]
  | _ => cases h

/-- What came in, in the order in which it came. -/
def arrivals (events : List Event) : List Incoming := events.filterMap Event.incoming?

namespace Incoming

/-- How the connection ends when nothing more comes in. -/
def ended? : Incoming → Option Ending
  | .ended fault => some (.ofInput fault)
  | .message _ | .unreadable _ => none

/-- Whether the client leaves with this. -/
def isExit : Incoming → Bool
  | .message (.notification n) => n.method = Method.exit
  | .message _ | .unreadable _ | .ended _ => false

/-- Whether the reader goes on no further than this. -/
def isStop (incoming : Incoming) : Bool := incoming.isExit || incoming.ended?.isSome

end Incoming

/-! ## What it does to the session -/

namespace Session

/-- The session after a message has been served. -/
def serve (s : Server) (session : Session) : Message → Session
  | .request r =>
    match session.admitRequest r.method with
    | .error _ => session
    | .ok () =>
      if r.method = Method.handshake then
        match SessionParams.codec.parseParams (r.params.getD .null) with
        | .error _ => session
        | .ok p =>
          match session.start p s.advertised s.options.serverInfo s.options.positionEncodings with
          | .error _ => session
          | .ok (_, started) => started
      else if r.method = Method.shutdown then session.shutdown
      else session
  | .notification n =>
    if n.method = Method.exit then session.exit.2
    else if n.method = Method.confirmed then session.confirm
    else if n.method = Method.setTrace then
      match SetTraceParams.codec.decode (n.params.getD .null) with
      | .ok p => session.setTrace p.value
      | .error _ => session
    else session
  | .response _ => session

/-- Whether the reader takes something up at all. -/
def admits (session : Session) : Incoming → Bool
  | .message (.notification n) => session.admitNotification n.method
  | .message _ => true
  | .unreadable _ | .ended _ => false

/-- The session after the reader has dealt with something. -/
def hear (s : Server) (session : Session) (incoming : Incoming) : Session :=
  match incoming with
  | .message m => if session.admits (.message m) then session.serve s m else session
  | .unreadable _ | .ended _ => session

/-- How the connection ends with something, if it does. -/
def ending? (session : Session) : Incoming → Option Ending
  | .message (.notification n) =>
    if n.method = Method.exit then some (.status session.exit.1) else none
  | .message _ | .unreadable _ => none
  | .ended fault => some (.ofInput fault)

theorem isSome_ending? (session : Session) (incoming : Incoming) :
    (session.ending? incoming).isSome = incoming.isStop := by
  match incoming with
  | .message (.notification n) =>
      by_cases hexit : n.method = Method.exit
      · simp [ending?, Incoming.isStop, Incoming.isExit, hexit]
      · simp [ending?, Incoming.isStop, Incoming.isExit, Incoming.ended?, hexit]
  | .message (.request r) => rfl
  | .message (.response r) => rfl
  | .unreadable fault => rfl
  | .ended fault => rfl

end Session

/-- The message that the reader has taken up and not served. -/
def Reading.hand? : Reading → Option Message
  | .taken m | .noted m => some m
  | .idle | .forgotten _ | .synced .. | .answering _ | .dropped _ | .leaving _ => none

/-- How the connection is about to end. -/
def Reading.fate? : Reading → Option Ending
  | .dropped ending | .leaving ending => some ending
  | .idle | .taken _ | .noted _ | .forgotten _ | .synced .. | .answering _ => none

namespace Connection

/-! ## What the reader deals with -/

/-- What an event has the reader be done with: a message that is served, or something that is not
taken up. -/
def deals? (c : Connection) (e : Event) : Option Incoming :=
  match c.ending, e, c.reading, c.inbox with
  | none, .reader, .noted m, _ => some (.message m)
  | none, .reader, .idle, incoming :: _ =>
    if c.session.admits incoming then none else some incoming
  | _, _, _, _ => none

/-- What the reader is done with in a run. -/
def heard (s : Server) (c : Connection) : List Event → List Incoming
  | [] => []
  | e :: events => (c.deals? e).toList ++ heard s (c.step s e) events

/-- What the reader has not done with. -/
def ahead (c : Connection) : List Incoming := (c.reading.hand?.map .message).toList ++ c.inbox

/-- How the connection has ended or is about to. -/
def fate (c : Connection) : Option Ending := c.ending.or c.reading.fate?

theorem fate_of_ending {c : Connection} (h : c.ending = none) : c.fate = c.reading.fate? := by
  rw [fate, h, Option.none_or]

/-! ## Everything but the reader -/

/-- Nothing has happened to what the reader works on. -/
structure SameReading (c c' : Connection) : Prop where
  session : c'.session = c.session
  documents : c'.documents = c.documents
  inbox : c'.inbox = c.inbox
  reading : c'.reading = c.reading
  ending : c'.ending = c.ending

theorem Acts.sameReading {c c' : Connection} (h : c.Acts c') : c.SameReading c' := by
  obtain ⟨link, cache, progress, streams, fired, rfl, -⟩ := h
  exact ⟨rfl, rfl, rfl, rfl, rfl⟩

theorem stepTask_sameReading (s : Server) (key : Nat) (move : Move) (c : Connection) :
    c.SameReading (c.stepTask s key move) := by
  unfold stepTask
  split
  · exact ⟨rfl, rfl, rfl, rfl, rfl⟩
  · next t _ =>
      split
      · exact ⟨rfl, rfl, rfl, rfl, rfl⟩
      · next activity _ _ =>
          have hsame := (Activity.step_acts s.options.requestTimeout c move activity).sameReading
          exact ⟨hsame.session, hsame.documents, hsame.inbox, hsame.reading, hsame.ending⟩
      · exact ⟨rfl, rfl, rfl, rfl, rfl⟩
      · exact ⟨rfl, rfl, rfl, rfl, rfl⟩

theorem stepWorker_sameReading (s : Server) (move : Move) (c : Connection) :
    c.SameReading (c.stepWorker s move) := by
  unfold stepWorker
  split
  · exact ⟨rfl, rfl, rfl, rfl, rfl⟩
  · next call _ _ =>
      have hsame := (Activity.step_acts s.options.requestTimeout c move
        call.activity).sameReading
      exact ⟨hsame.session, hsame.documents, hsame.inbox, hsame.reading, hsame.ending⟩
  · split
    · exact ⟨rfl, rfl, rfl, rfl, rfl⟩
    · exact ⟨rfl, rfl, rfl, rfl, rfl⟩

/-- An event that is neither something coming in nor a turn of the reader leaves alone what the
reader works on. -/
theorem handle_sameReading (s : Server) {e : Event} (hincoming : e.incoming? = none)
    (hreader : e ≠ .reader) (c : Connection) : c.SameReading (c.handle s e) := by
  cases e with
  | received incoming => cases hincoming
  | reader => exact absurd rfl hreader
  | task key move => exact stepTask_sameReading s key move c
  | worker move => exact stepWorker_sameReading s move c
  | writer => exact ⟨rfl, rfl, rfl, rfl, rfl⟩
  | withdrawal id => exact ⟨rfl, rfl, rfl, rfl, rfl⟩
  | tick milliseconds => exact ⟨rfl, rfl, rfl, rfl, rfl⟩
  | outputClosed => exact ⟨rfl, rfl, rfl, rfl, rfl⟩

theorem SameReading.ahead_eq {c c' : Connection} (h : c.SameReading c') : c'.ahead = c.ahead := by
  unfold ahead
  rw [h.reading, h.inbox]

theorem SameReading.fate_eq {c c' : Connection} (h : c.SameReading c') : c'.fate = c.fate := by
  unfold fate
  rw [h.ending, h.reading]

/-! ## Serving a message -/

theorem considerRequest_session (s : Server) (r : Request) (c : Connection) :
    (c.considerRequest s r).session = c.session.serve s (.request r) := by
  unfold considerRequest Session.serve
  dsimp only
  cases c.session.admitRequest r.method with
  | error fault => rfl
  | ok admitted =>
      dsimp only
      unfold serveRequest
      split
      · unfold start
        cases SessionParams.codec.parseParams (r.params.getD .null) with
        | error fault => rfl
        | ok p =>
            dsimp only
            cases c.session.start p s.advertised s.options.serverInfo
              s.options.positionEncodings with
            | error fault => rfl
            | ok started => rfl
      · split
        · rfl
        · split
          · unfold spawn
            split
            · rfl
            · rfl
          · split
            · rfl
            · rfl

theorem serveNotification_session (s : Server) (n : Notification) (c : Connection) :
    (c.serveNotification n.method (n.params.getD .null)).session =
      c.session.serve s (.notification n) := by
  unfold serveNotification Session.serve
  dsimp only
  split
  · rfl
  · split
    · rfl
    · split
      · next hcancel =>
          rw [if_neg (by rw [hcancel]; decide)]
          split
          · next p _ =>
              obtain ⟨fired, hfired⟩ := cancel_eq p.id c
              rw [hfired]
          · rfl
      · split
        · cases SetTraceParams.codec.decode (n.params.getD .null) with
          | error fault => rfl
          | ok p => rfl
        · split
          · rfl
          · rfl

theorem serve_session (s : Server) (m : Message) (c : Connection) :
    (c.serve s m).session = c.session.serve s m := by
  cases m with
  | request r => exact considerRequest_session s r _
  | notification n => exact serveNotification_session s n _
  | response r => rfl

/-- Serving a message leaves the inbox alone, and the reader is done with it, or about to answer it,
to close a document or to let a handler wait for its turn. Only an exit ends the connection. -/
theorem serve_reading (s : Server) (m : Message) (c : Connection) :
    (c.serve s m).inbox = c.inbox ∧ (c.serve s m).ending = c.ending ∧
    match c.session.ending? (.message m) with
    | some ending => (c.serve s m).reading = .dropped ending
    | none =>
      (c.serve s m).reading = .idle ∨ (∃ m', (c.serve s m).reading = .answering m') ∨
        (∃ params, (c.serve s m).reading = .forgotten params) ∨
        ∃ method params, (c.serve s m).reading = .synced method params := by
  cases m with
  | request r =>
      rw [serve_request]
      rcases considerRequest_cases s r { c with reading := .idle } with
        ⟨session, outcome, heq⟩ | ⟨program, -, heq⟩
      · rw [heq]
        exact ⟨rfl, rfl, .inr (.inl ⟨_, rfl⟩)⟩
      · rw [heq]
        exact ⟨rfl, rfl, .inl rfl⟩
  | notification n =>
      by_cases hexit : n.method = Method.exit
      · rw [serve_notification, serveNotification, if_pos hexit]
        simp only [Session.ending?, if_pos hexit]
        exact ⟨rfl, rfl, rfl⟩
      · obtain ⟨_, _, _, _, reading, hreading, heq⟩ :=
          serveNotification_of_ne_exit hexit (n.params.getD .null) { c with reading := .idle }
        rw [serve_notification, heq]
        simp only [Session.ending?, if_neg hexit]
        refine ⟨trivial, trivial, ?_⟩
        rcases hreading with rfl | rfl | rfl
        · exact .inl rfl
        · exact .inr (.inr (.inl ⟨_, rfl⟩))
        · exact .inr (.inr (.inr ⟨_, _, rfl⟩))
  | response r => exact ⟨rfl, rfl, .inl rfl⟩

/-! ## One step -/

/-- What holds between any two events: a notification that the reader has taken up is one that the
session admits, and the session is over only when the connection ends. -/
structure Orderly (c : Connection) : Prop where
  admitted : ∀ n, c.reading.hand? = some (.notification n) →
    c.session.admitNotification n.method = true
  living : c.fate = none → c.session.state ≠ .exited

theorem Orderly.fresh : fresh.Orderly := ⟨fun n h => (by cases h), fun _ => by decide⟩

/-- From `c` to `c'` the reader has dealt with what the event had it deal with, and nothing else has
happened to the session, to what is ahead of the reader or to the end of the connection. -/
structure Hears (s : Server) (e : Event) (c c' : Connection) : Prop where
  session_eq : c'.session = (c.deals? e).elim c.session (c.session.hear s)
  ahead_eq : c.ending = none → c.ahead ++ e.incoming?.toList = (c.deals? e).toList ++ c'.ahead
  fate_eq : c'.fate = c.fate.or ((c.deals? e).bind c.session.ending?)
  orderly : c'.Orderly

variable {s : Server} {e : Event} {c c' : Connection}

theorem Orderly.admits_of_noted (h : c.Orderly) {m : Message} (hnoted : c.reading = .noted m) :
    c.session.admits (.message m) = true := by
  cases m with
  | notification n => exact h.admitted n (by rw [hnoted]; rfl)
  | request r => rfl
  | response r => rfl

theorem Orderly.of_eq (h : c.Orderly) (hsession : c'.session = c.session)
    (hhand : c'.reading.hand? = c.reading.hand?) (hfate : c'.fate = c.fate) : c'.Orderly := by
  constructor
  · rw [hhand, hsession]
    exact h.admitted
  · rw [hfate, hsession]
    exact h.living

/-- The event has the reader deal with nothing. -/
theorem Hears.of_eq (h : c.Orderly) (hdeals : c.deals? e = none) (hsession : c'.session = c.session)
    (hahead : c.ending = none → c'.ahead = c.ahead ++ e.incoming?.toList)
    (hhand : c'.reading.hand? = c.reading.hand?) (hfate : c'.fate = c.fate) : Hears s e c c' := by
  refine ⟨?_, fun hending => ?_, ?_, h.of_eq hsession hhand hfate⟩
  · rw [hdeals, hsession]
    rfl
  · rw [hdeals, hahead hending]
    rfl
  · rw [hdeals, hfate]
    simp

theorem Hears.of_sameReading (h : c.Orderly) (hdeals : c.deals? e = none)
    (hsame : c.SameReading c') (hincoming : e.incoming? = none) : Hears s e c c' := by
  refine Hears.of_eq h hdeals hsame.session (fun _ => ?_) (by rw [hsame.reading]) hsame.fate_eq
  rw [hsame.ahead_eq, hincoming]
  simp

theorem deals?_of_ne_reader (h : e ≠ .reader) (c : Connection) : c.deals? e = none := by
  unfold deals?
  split
  · exact absurd rfl h
  · exact absurd rfl h
  · rfl

theorem admitNotification_exit {session : Session} (h : session.state ≠ .exited) :
    session.admitNotification Method.exit = true := by
  unfold Session.admitNotification
  split
  · next hexited => exact absurd hexited h
  · simp
  · simp
  · simp
  · rfl

/-- Something that the reader does not take up ends the connection only if nothing more comes in. -/
theorem ending?_of_not_admits {session : Session} (h : session.state ≠ .exited)
    {incoming : Incoming} (hadmits : session.admits incoming = false) :
    session.ending? incoming = incoming.ended? := by
  match incoming with
  | .message (.notification n) =>
      have hexit : n.method ≠ Method.exit := by
        intro hexit
        rw [Session.admits, hexit, admitNotification_exit h] at hadmits
        cases hadmits
      simp only [Session.ending?, if_neg hexit, Incoming.ended?]
  | .message (.request r) => rfl
  | .message (.response r) => rfl
  | .unreadable fault => rfl
  | .ended fault => rfl

theorem Orderly.of_empty_hand (hhand : c.reading.hand? = none)
    (hliving : c.fate = none → c.session.state ≠ .exited) : c.Orderly := by
  refine ⟨fun n hn => ?_, hliving⟩
  rw [hhand] at hn
  cases hn

section Take

variable {incoming : Incoming} {rest : List Incoming}

theorem fate_of_idle (hending : c.ending = none) (hidle : c.reading = .idle) : c.fate = none := by
  rw [fate_of_ending hending, hidle]
  rfl

theorem deals?_of_idle (hending : c.ending = none) (hidle : c.reading = .idle)
    (hinbox : c.inbox = incoming :: rest) :
    c.deals? .reader = if c.session.admits incoming then none else some incoming := by
  simp only [deals?, hending, hidle, hinbox]

theorem ahead_of_idle (hidle : c.reading = .idle) (hinbox : c.inbox = incoming :: rest) :
    c.ahead = incoming :: rest := by
  rw [ahead, hidle, hinbox]
  rfl

/-- The reader takes a message up. -/
theorem Hears.of_taken (h : c.Orderly) (hending : c.ending = none) (hidle : c.reading = .idle)
    (hinbox : c.inbox = incoming :: rest) {m : Message} (hm : incoming = .message m)
    (hadmits : c.session.admits incoming = true) {reading : Reading}
    (hreading : reading = .taken m ∨ reading = .noted m) :
    Hears s .reader c { c with inbox := rest, reading := reading } := by
  have hdeals := deals?_of_idle hending hidle hinbox
  rw [hadmits, if_pos rfl] at hdeals
  have hhand : reading.hand? = some m := by
    rcases hreading with rfl | rfl
    · rfl
    · rfl
  have hfate : { c with inbox := rest, reading := reading : Connection }.fate = none := by
    rcases hreading with rfl | rfl
    · exact fate_of_ending hending
    · exact fate_of_ending hending
  refine ⟨?_, fun _ => ?_, ?_, ⟨fun n hn => ?_, fun _ => ?_⟩⟩
  · rw [hdeals]
    rfl
  · rw [hdeals, ahead_of_idle hidle hinbox, ahead, hhand, hm]
    simp [Event.incoming?]
  · rw [hdeals, hfate, fate_of_idle hending hidle]
    rfl
  · rw [hhand] at hn
    obtain rfl := Option.some.inj hn
    rw [hm] at hadmits
    exact hadmits
  · exact h.living (fate_of_idle hending hidle)

/-- The reader does not take something up. -/
theorem Hears.of_passed (h : c.Orderly) (hending : c.ending = none) (hidle : c.reading = .idle)
    (hinbox : c.inbox = incoming :: rest) (hadmits : c.session.admits incoming = false)
    (hsession : c'.session = c.session) (hrest : c'.inbox = rest)
    (hhand : c'.reading.hand? = none)
    (hfate : c'.fate = incoming.ended?) :
    Hears s .reader c c' := by
  have hdeals := deals?_of_idle hending hidle hinbox
  rw [hadmits, if_neg Bool.false_ne_true] at hdeals
  have hliving := h.living (fate_of_idle hending hidle)
  refine ⟨?_, fun _ => ?_, ?_, Orderly.of_empty_hand hhand fun _ => ?_⟩
  · rw [hdeals, hsession]
    cases incoming with
    | message m => simp [Session.hear, hadmits]
    | unreadable fault => rfl
    | ended fault => rfl
  · rw [hdeals, ahead_of_idle hidle hinbox, ahead, hhand, hrest]
    simp [Event.incoming?]
  · rw [hdeals, fate_of_idle hending hidle, hfate]
    exact (ending?_of_not_admits hliving hadmits).symm
  · rw [hsession]
    exact hliving

theorem take_hears (h : c.Orderly) (hending : c.ending = none) (hidle : c.reading = .idle)
    (hinbox : c.inbox = incoming :: rest) :
    Hears s .reader c ({ c with inbox := rest }.take incoming) := by
  have hfate : { c with inbox := rest : Connection }.fate = none := fate_of_idle hending hidle
  have hhand : c.reading.hand? = none := by rw [hidle]; rfl
  unfold take
  split
  · exact Hears.of_taken h hending hidle hinbox rfl rfl (.inr rfl)
  · exact Hears.of_taken h hending hidle hinbox rfl rfl (.inl rfl)
  · -- A notification that the session refuses is passed over.
    next n =>
      split
      · next hadmits => exact Hears.of_taken h hending hidle hinbox rfl hadmits (.inl rfl)
      · next hrefused =>
          have hadmits : c.session.admits (.message (.notification n)) = false :=
            Bool.eq_false_iff.2 hrefused
          exact Hears.of_passed h hending hidle hinbox hadmits rfl rfl hhand hfate
  · -- What cannot be read may be answered, but it is never taken up.
    split
    · exact Hears.of_passed h hending hidle hinbox rfl rfl rfl rfl (fate_of_ending hending)
    · exact Hears.of_passed h hending hidle hinbox rfl rfl rfl hhand hfate
  · exact Hears.of_passed h hending hidle hinbox rfl rfl rfl rfl (fate_of_ending hending)

end Take

theorem state_of_start {session started : Session} {p : SessionParams}
    {capabilities : ServerCapabilities} {info : Option ProgramInfo}
    {preferred : List PositionEncoding} {result : SessionResult}
    (h : session.start p capabilities info preferred = .ok (result, started)) :
    session.state = .unstarted ∧ started.state = .initializing := by
  unfold Session.start at h
  split at h
  · next hunstarted =>
      cases h
      exact ⟨hunstarted, rfl⟩
  · cases h

/-- Serving a message that does not end the connection does not end the session. -/
theorem serve_state_ne_exited {session : Session} (h : session.state ≠ .exited) {m : Message}
    (hending : session.ending? (.message m) = none) : (session.serve s m).state ≠ .exited := by
  cases m with
  | request r =>
      unfold Session.serve
      dsimp only
      split
      · exact h
      · split
        · split
          · exact h
          · split
            · exact h
            · next hstart =>
                rw [(state_of_start hstart).2]
                decide
        · split
          · exact SessionState.noConfusion
          · exact h
  | notification n =>
      have hexit : n.method ≠ Method.exit := by
        intro hexit
        simp [Session.ending?, hexit] at hending
      unfold Session.serve
      dsimp only
      rw [if_neg hexit]
      split
      · unfold Session.confirm
        split
        · exact SessionState.noConfusion
        · exact h
      · split
        · split
          · exact h
          · exact h
        · exact h
  | response r => exact h

theorem serve_hears (h : c.Orderly) (hending : c.ending = none) {m : Message}
    (hnoted : c.reading = .noted m) : Hears s .reader c (c.serve s m) := by
  have hdeals : c.deals? .reader = some (.message m) := by simp only [deals?, hending, hnoted]
  have hfate : c.fate = none := by
    rw [fate_of_ending hending, hnoted]
    rfl
  have hadmits := h.admits_of_noted hnoted
  obtain ⟨hinbox, hopen, hreading⟩ := serve_reading s m c
  -- Whatever was served, nothing is left in hand, and only an exit decides how it ends.
  have hsettled : (c.serve s m).reading.hand? = none ∧
      (c.serve s m).fate = c.session.ending? (.message m) := by
    rw [fate_of_ending (hopen.trans hending)]
    split at hreading
    · next ending hends => rw [hreading, hends]; exact ⟨rfl, rfl⟩
    · next hends =>
        rcases hreading with
          hreading | ⟨m', hreading⟩ | ⟨params, hreading⟩ | ⟨method, params, hreading⟩
        · rw [hreading, hends]; exact ⟨rfl, rfl⟩
        · rw [hreading, hends]; exact ⟨rfl, rfl⟩
        · rw [hreading, hends]; exact ⟨rfl, rfl⟩
        · rw [hreading, hends]; exact ⟨rfl, rfl⟩
  refine ⟨?_, fun _ => ?_, ?_, Orderly.of_empty_hand hsettled.1 fun hgoes => ?_⟩
  · rw [hdeals, serve_session]
    simp [Session.hear, hadmits]
  · rw [hdeals, ahead, ahead, hsettled.1, hinbox, hnoted]
    simp [Event.incoming?, Reading.hand?]
  · rw [hdeals, hfate, hsettled.2]
    rfl
  · rw [serve_session]
    exact serve_state_ne_exited (h.living hfate) (hsettled.2 ▸ hgoes)

theorem note_hears (h : c.Orderly) (hending : c.ending = none) {m : Message}
    (htaken : c.reading = .taken m) : Hears s .reader c (c.note m) := by
  obtain ⟨link, hnote, -⟩ := c.note_eq m
  have hdeals : c.deals? .reader = none := by simp only [deals?, hending, htaken]
  have hfate : c.fate = none := by
    rw [fate_of_ending hending, htaken]
    rfl
  rw [hnote]
  refine Hears.of_eq h hdeals rfl (fun _ => ?_) ?_ ?_
  · rw [ahead, ahead, htaken]
    simp [Event.incoming?, Reading.hand?]
  · rw [htaken]
    rfl
  · rw [hfate]
    exact fate_of_ending hending

/-- The reader is done with a message that it served before. -/
theorem Hears.of_settled (h : c.Orderly) (hending : c.ending = none)
    (hdeals : c.deals? .reader = none) (hsession : c'.session = c.session)
    (hinbox : c'.inbox = c.inbox) (hopen : c'.ending = none) (hhand : c.reading.hand? = none)
    (hidle : c'.reading.hand? = none) (hfate : c'.reading.fate? = c.reading.fate?) :
    Hears s .reader c c' := by
  refine Hears.of_eq h hdeals hsession (fun _ => ?_) (hidle.trans hhand.symm) ?_
  · rw [ahead, ahead, hidle, hhand, hinbox]
    simp [Event.incoming?]
  · rw [fate_of_ending hopen, fate_of_ending hending, hfate]

theorem stepReader_hears (h : c.Orderly) (hending : c.ending = none) :
    Hears s .reader c (c.stepReader s) := by
  unfold stepReader
  split
  · next hidle =>
      split
      · next hinbox =>
          have hdeals : c.deals? .reader = none := by simp only [deals?, hending, hidle, hinbox]
          exact Hears.of_sameReading h hdeals ⟨rfl, rfl, rfl, rfl, rfl⟩ rfl
      · next hinbox => exact take_hears h hending hidle hinbox
  · next htaken => exact note_hears h hending htaken
  · next hnoted => exact serve_hears h hending hnoted
  · next params hforgotten =>
      have hdeals : c.deals? .reader = none := by simp only [deals?, hending, hforgotten]
      have hhand : c.reading.hand? = none := by rw [hforgotten]; rfl
      have hfate : c.reading.fate? = none := by rw [hforgotten]; rfl
      exact Hears.of_settled h hending hdeals rfl rfl hending hhand rfl hfate.symm
  · next method params hsynced =>
      have hdeals : c.deals? .reader = none := by simp only [deals?, hending, hsynced]
      have hhand : c.reading.hand? = none := by rw [hsynced]; rfl
      have hfate : c.reading.fate? = none := by rw [hsynced]; rfl
      obtain ⟨queue, hqueue⟩ := enqueue_eq s method params { c with reading := .idle }
      rw [hqueue]
      exact Hears.of_settled h hending hdeals rfl rfl hending hhand rfl hfate.symm
  · next m hanswering =>
      have hdeals : c.deals? .reader = none := by simp only [deals?, hending, hanswering]
      have hhand : c.reading.hand? = none := by rw [hanswering]; rfl
      have hfate : c.reading.fate? = none := by rw [hanswering]; rfl
      exact Hears.of_settled h hending hdeals rfl rfl hending hhand rfl hfate.symm
  · next ending hdropped =>
      have hdeals : c.deals? .reader = none := by simp only [deals?, hending, hdropped]
      have hhand : c.reading.hand? = none := by rw [hdropped]; rfl
      have hfate : c.reading.fate? = some ending := by rw [hdropped]; rfl
      exact Hears.of_settled h hending hdeals rfl rfl hending hhand rfl hfate.symm
  · next ending hleaving =>
      have hdeals : c.deals? .reader = none := by simp only [deals?, hending, hleaving]
      have hhand : c.reading.hand? = none := by rw [hleaving]; rfl
      refine Hears.of_eq h hdeals rfl (fun _ => ?_) hhand.symm ?_
      · rw [ahead, ahead, hhand]
        simp [Event.incoming?, Reading.hand?]
      · rw [fate_of_ending hending, hleaving]
        rfl

/-- **What one event does to the session, to what is ahead of the reader and to the end of the
connection.** -/
theorem step_hears (h : c.Orderly) (s : Server) (e : Event) : Hears s e c (c.step s e) := by
  unfold step
  split
  · next hending =>
      by_cases hreader : e = .reader
      · subst hreader
        exact stepReader_hears h hending
      have hdeals := deals?_of_ne_reader hreader c
      -- Of all other events only an arrival concerns the reader, by what is ahead of it.
      cases hincoming : e.incoming? with
      | none =>
          exact Hears.of_sameReading h hdeals (handle_sameReading s hincoming hreader c) hincoming
      | some incoming =>
          obtain rfl := Event.eq_received hincoming
          exact Hears.of_eq h hdeals rfl (fun _ => (List.append_assoc ..).symm) rfl rfl
  · next ending hending =>
      have hdeals : c.deals? e = none := by simp only [deals?, hending]
      have hover : c.ending ≠ none := by simp [hending]
      split
      · exact Hears.of_eq h hdeals rfl (fun hopen => absurd hopen hover) rfl rfl
      · exact Hears.of_eq h hdeals rfl (fun hopen => absurd hopen hover) rfl rfl

/-! ## Whole runs -/

theorem run_cons (s : Server) (c : Connection) (e : Event) (events : List Event) :
    c.run s (e :: events) = (c.step s e).run s events := rfl

theorem run_append (s : Server) (c : Connection) (earlier later : List Event) :
    c.run s (earlier ++ later) = (c.run s earlier).run s later := List.foldl_append ..

theorem run_concat (s : Server) (c : Connection) (events : List Event) (e : Event) :
    c.run s (events ++ [e]) = (c.run s events).step s e := run_append ..

theorem run_orderly (h : c.Orderly) (s : Server) (events : List Event) :
    (c.run s events).Orderly := by
  induction events generalizing c with
  | nil => exact h
  | cons e events ih => exact ih (step_hears h s e).orderly

theorem heard_append (s : Server) (c : Connection) (earlier later : List Event) :
    c.heard s (earlier ++ later) = c.heard s earlier ++ (c.run s earlier).heard s later := by
  induction earlier generalizing c with
  | nil => rfl
  | cons e earlier ih =>
      rw [List.cons_append, heard, ih, heard, run_cons, List.append_assoc]

/-- **The session depends only on what the reader has heard.** -/
theorem run_session (h : c.Orderly) (s : Server) (events : List Event) :
    (c.run s events).session = (c.heard s events).foldl (Session.hear s) c.session := by
  induction events generalizing c with
  | nil => rfl
  | cons e events ih =>
      have hstep := step_hears h s e
      rw [run_cons, ih hstep.orderly, hstep.session_eq, heard]
      cases c.deals? e with
      | none => rfl
      | some incoming => rfl

theorem step_of_ending (s : Server) (e : Event) {ending : Ending} (hending : c.ending = some ending) :
    (c.step s e).ending = some ending ∧ (c.step s e).ahead = c.ahead ∧ c.deals? e = none := by
  have hdeals : c.deals? e = none := by simp only [deals?, hending]
  simp only [step, hending]
  split
  · exact ⟨rfl, rfl, hdeals⟩
  · exact ⟨hending, rfl, hdeals⟩

/-- A connection that has ended hears nothing more. -/
theorem run_of_ending (s : Server) (events : List Event) {ending : Ending}
    (hending : c.ending = some ending) :
    (c.run s events).ending = some ending ∧ (c.run s events).ahead = c.ahead ∧
      c.heard s events = [] := by
  induction events generalizing c with
  | nil => exact ⟨hending, rfl, rfl⟩
  | cons e events ih =>
      obtain ⟨hover, hahead, hdeals⟩ := step_of_ending s e hending
      obtain ⟨ih_ending, ih_ahead, ih_heard⟩ := ih hover
      refine ⟨ih_ending, ih_ahead.trans hahead, ?_⟩
      rw [heard, hdeals, ih_heard]
      rfl

/-- **What came in is what the reader has heard and what is ahead of it.** Once the connection has
ended, what else comes in is lost. -/
theorem run_ahead (h : c.Orderly) (s : Server) (events : List Event) :
    ∃ lost, c.ahead ++ arrivals events = c.heard s events ++ (c.run s events).ahead ++ lost ∧
      ((c.run s events).ending = none → lost = []) := by
  induction events generalizing c with
  | nil => exact ⟨[], by simp [arrivals, heard, run], fun _ => rfl⟩
  | cons e events ih =>
      cases hending : c.ending with
      | some ending =>
          obtain ⟨hover, hahead, hheard⟩ := run_of_ending s (e :: events) hending
          refine ⟨arrivals (e :: events), by rw [hahead, hheard, List.nil_append], fun hopen => ?_⟩
          rw [hover] at hopen
          cases hopen
      | none =>
          have hstep := step_hears h s e
          obtain ⟨lost, hlost, hnone⟩ := ih hstep.orderly
          have harrivals : arrivals (e :: events) = e.incoming?.toList ++ arrivals events := by
            unfold arrivals
            cases hincoming : e.incoming? with
            | none => rw [List.filterMap_cons_none hincoming]; rfl
            | some incoming => rw [List.filterMap_cons_some hincoming]; rfl
          refine ⟨lost, ?_, hnone⟩
          calc c.ahead ++ arrivals (e :: events)
              = (c.ahead ++ e.incoming?.toList) ++ arrivals events := by
                rw [harrivals, List.append_assoc]
            _ = (c.deals? e).toList ++ ((c.step s e).ahead ++ arrivals events) := by
                rw [hstep.ahead_eq hending, List.append_assoc]
            _ = c.heard s (e :: events) ++ (c.run s (e :: events)).ahead ++ lost := by
                rw [hlost, heard, run_cons]
                simp only [List.append_assoc]

/-- A connection that rests has heard all that came in. -/
theorem exists_arrivals_eq (s : Server) (events : List Event) :
    ∃ rest, arrivals events = fresh.heard s events ++ rest ∧
      ((fresh.run s events).ending = none → (fresh.run s events).reading = .idle →
        (fresh.run s events).inbox = [] → rest = []) := by
  obtain ⟨lost, harrivals, hlost⟩ := run_ahead Orderly.fresh s events
  refine ⟨(fresh.run s events).ahead ++ lost, ?_, fun hending hidle hinbox => ?_⟩
  · rw [← List.append_assoc]
    exact harrivals
  · rw [hlost hending, ahead, hidle, hinbox]
    rfl

theorem deals?_of_fate {ending : Ending} (h : c.fate = some ending) (e : Event) :
    c.deals? e = none := by
  unfold deals?
  split
  · next hending hnoted =>
      rw [fate_of_ending hending, hnoted] at h
      cases h
  · next hending hidle _ =>
      rw [fate_of_ending hending, hidle] at h
      cases h
  · rfl

/-- A connection that is about to end hears nothing more. -/
theorem heard_of_fate (h : c.Orderly) (s : Server) (events : List Event) {ending : Ending}
    (hfate : c.fate = some ending) :
    c.heard s events = [] ∧ (c.run s events).fate = some ending := by
  induction events generalizing c with
  | nil => exact ⟨rfl, hfate⟩
  | cons e events ih =>
      have hstep := step_hears h s e
      have hdeals := deals?_of_fate hfate e
      have hgoes : (c.step s e).fate = some ending := by
        rw [hstep.fate_eq, hfate]
        rfl
      obtain ⟨hheard, hrun⟩ := ih hstep.orderly hgoes
      refine ⟨?_, hrun⟩
      rw [heard, hdeals, hheard]
      rfl

/-- **The connection goes on until the reader hears that it ends, and then it hears nothing
more.** -/
theorem run_fate (h : c.Orderly) (s : Server) (events : List Event) (hfate : c.fate = none) :
    ((c.run s events).fate = none → ∀ incoming ∈ c.heard s events, incoming.isStop = false) ∧
    ∀ ending, (c.run s events).fate = some ending → ∃ done stop,
      c.heard s events = done ++ [stop] ∧ (∀ incoming ∈ done, incoming.isStop = false) ∧
      (done.foldl (Session.hear s) c.session).ending? stop = some ending := by
  induction events generalizing c with
  | nil =>
      refine ⟨fun _ => List.forall_mem_nil _, fun ending hending => ?_⟩
      rw [run, List.foldl_nil, hfate] at hending
      cases hending
  | cons e events ih =>
      have hstep := step_hears h s e
      have hsession := hstep.session_eq
      have hgoes := hstep.fate_eq
      rw [hfate, Option.none_or] at hgoes
      rw [run_cons, heard]
      cases hdeals : c.deals? e with
      | none =>
          rw [hdeals] at hsession hgoes
          have hrest := ih hstep.orderly hgoes
          rw [hsession] at hrest
          exact hrest
      | some incoming =>
          rw [hdeals] at hsession hgoes
          have hstop := c.session.isSome_ending? incoming
          change (c.step s e).fate = c.session.ending? incoming at hgoes
          cases hends : c.session.ending? incoming with
          | none =>
              rw [hends] at hgoes hstop
              obtain ⟨ih_none, ih_some⟩ := ih hstep.orderly hgoes
              refine ⟨fun hnone => ?_, fun ending hending => ?_⟩
              · exact List.forall_mem_cons.2 ⟨hstop.symm, ih_none hnone⟩
              · obtain ⟨done, stop, hheard, hdone, hlast⟩ := ih_some ending hending
                refine ⟨incoming :: done, stop, ?_, List.forall_mem_cons.2 ⟨hstop.symm, hdone⟩, ?_⟩
                · rw [hheard]
                  rfl
                · rw [hsession] at hlast
                  exact hlast
          | some ending =>
              -- The reader hears that the connection ends, and nothing from here on.
              rw [hends] at hgoes
              obtain ⟨hheard, hrun⟩ := heard_of_fate hstep.orderly s events hgoes
              rw [hheard, hrun]
              refine ⟨fun hnone => (by cases hnone), fun ending' hending => ?_⟩
              obtain rfl := Option.some.inj hending
              exact ⟨[], incoming, rfl, List.forall_mem_nil _, hends⟩

end Connection

end LanguageServer
