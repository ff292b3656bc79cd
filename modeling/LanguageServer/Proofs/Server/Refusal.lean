import LanguageServer.Proofs.Client.Fates
import LanguageServer.Proofs.Message.Grammar
import LanguageServer.Proofs.Server.Cancellation
import LanguageServer.Proofs.Server.Documents

set_option autoImplicit false

/-! # Refused input

Much of what comes in is refused: frames that hold no message, requests and notifications that the
session does not admit, notifications that cannot be read or do not fit, and responses to no call.
The reader deals with them in up to five turns, between which anything else can happen. None of
these turns touches the session, the documents, the requests being worked on or the calls to the
client, and all that the client gets, traces apart, is the answer that it is owed. `Stage` says how
far the reader has come with such input, `Stage.turn` what one turn does, and `Stage.inert` what all
turns do together. -/

namespace LanguageServer

/-! ## What is refused -/

/-- The notifications that are about documents. -/
def syncMethods : List String :=
  [Method.didOpen, Method.didChange, Method.didSave, Method.didClose, Method.willSave]

namespace Notification

/-- The notification is about a document, and cannot be read or does not fit the documents. -/
def Misfits (n : Notification) (c : Connection) : Prop :=
  n.method ∈ syncMethods ∧
    (n.method = Method.willSave →
      ∃ fault, WillSaveParams.codec.decode (n.params.getD .null) = .error fault) ∧
    ∀ sync, Sync.read? n.method (n.params.getD .null) = some sync →
      ∃ fault, sync.apply c.session.encoding c.documents = .error fault

/-- The notification cancels a request, and cannot be read or the request is not being worked on. -/
def CancelsNothing (n : Notification) (c : Connection) : Prop :=
  n.method = Method.cancelRequest ∧
    ∀ p, CancelParams.codec.decode (n.params.getD .null) = .ok p → c.isInFlight p.id = false

/-- The notification sets the level of traces, and cannot be read. -/
def TracesNothing (n : Notification) : Prop :=
  n.method = Method.setTrace ∧
    ∃ fault, SetTraceParams.codec.decode (n.params.getD .null) = .error fault

end Notification

/-- The answer that is owed for something that is refused. -/
def Session.owed (session : Session) : Incoming → Option Message
  | .unreadable fault => fault.reply
  | .message (.request r) =>
    match session.admitRequest r.method with
    | .error e => some (.response ⟨some r.id, .error e⟩)
    | .ok () => none
  | .message (.notification _) | .message (.response _) | .ended _ => none

/-- A message in the client's trace. -/
def Message.isTrace : Message → Bool
  | .notification n => n.method = Method.logTrace
  | .request _ | .response _ => false

namespace Connection

/-- A connection refuses something. -/
def Refuses (c : Connection) : Incoming → Prop
  | .unreadable _ => True
  | .message (.request r) => ∃ e, c.session.admitRequest r.method = .error e
  | .message (.notification n) =>
    c.session.admitNotification n.method = false ∨ n.Misfits c ∨ n.CancelsNothing c ∨
      n.TracesNothing
  | .message (.response r) => ∀ id, r.id = some id →
    id ∉ c.link.pending.entries.map Prod.fst ∧ id ∉ c.link.pending.cancelled.map Prod.fst
  | .ended _ => False

/-! ## The turns of the reader -/

/-- The states in which the reader takes its turns for what it takes up next or has in hand, until
it is done with that. -/
def spell (s : Server) (c : Connection) : List Event → List Connection
  | [] => []
  | e :: events =>
    if e = .reader then
      c :: if (c.step s .reader).reading = .idle then [] else spell s (c.step s .reader) events
    else spell s (c.step s e) events

/-- What the reader sends at a turn. -/
def posts (s : Server) (c : Connection) : List Message :=
  (c.step s .reader).link.sent.drop c.link.sent.length

/-- From `c` to `c'` nothing has happened that refused input may not do. The handler of a
notification about a document may wait for its turn from now on, as that of any other notification
does. -/
structure Untouched (s : Server) (x : Incoming) (c c' : Connection) : Prop where
  session : c'.session = c.session
  documents : c'.documents = c.documents
  inFlight : c'.inFlight = c.inFlight
  fired : c'.fired = c.fired
  tasks : c'.tasks = c.tasks
  pending : c'.link.pending = c.link.pending
  queue : c'.queue = c.queue ∨ ∃ n, x = .message (.notification n) ∧ n.method ∈ syncMethods ∧
    c'.queue = (c.enqueue s n.method (n.params.getD .null)).queue
  fate : c'.fate = none

/-- How far the reader has come with something that is refused, and how many turns are left at most.
`answer` is what the client is owed. -/
inductive Stage (x : Incoming) (answer : Option Message) (c : Connection) : Nat → Prop where
  | waiting {rest : List Incoming} (hreading : c.reading = .idle) (hinbox : c.inbox = x :: rest)
      (howed : c.session.owed x = answer) : Stage x answer c 5
  | taken {m : Message} (hreading : c.reading = .taken m) (hx : x = .message m)
      (hadmits : c.session.admits x = true) (howed : c.session.owed x = answer) : Stage x answer c 4
  | noted {m : Message} (hreading : c.reading = .noted m) (hx : x = .message m)
      (hadmits : c.session.admits x = true) (howed : c.session.owed x = answer) : Stage x answer c 3
  | forgotten {n : Notification} (hx : x = .message (.notification n))
      (hmethod : n.method = Method.didClose)
      (hreading : c.reading = .forgotten (n.params.getD .null))
      (hclosed : syncDocuments Method.didClose (n.params.getD .null) c.session.encoding
        c.documents = c.documents) (howed : answer = none) : Stage x answer c 2
  | synced {n : Notification} (hx : x = .message (.notification n))
      (hmethod : n.method ∈ syncMethods)
      (hreading : c.reading = .synced n.method (n.params.getD .null)) (howed : answer = none) :
      Stage x answer c 1
  | answering {m : Message} (hreading : c.reading = .answering m) (howed : answer = some m)
      (hresponse : m.isTrace = false) : Stage x answer c 1

variable {s : Server} {x : Incoming} {answer : Option Message} {c : Connection} {k : Nat}

/-- Whatever else happens, the reader is where it was. -/
theorem Stage.other (h : Stage x answer c k) (hending : c.ending = none) {e : Event}
    (hreader : e ≠ .reader) :
    Stage x answer (c.step s e) k ∧ (c.step s e).ending = none := by
  have hstep : c.step s e = c.handle s e := by simp only [step, hending]
  obtain ⟨more, hsame⟩ : ∃ more, c.SameReading { c.step s e with inbox := c.inbox } ∧
      (c.step s e).inbox = c.inbox ++ more := by
    rw [hstep]
    cases hincoming : e.incoming? with
    | some incoming =>
        obtain rfl := Event.eq_received hincoming
        exact ⟨[incoming], ⟨rfl, rfl, rfl, rfl, rfl⟩, rfl⟩
    | none =>
        have hsame := handle_sameReading s hincoming hreader c
        exact ⟨[], ⟨hsame.session, hsame.documents, rfl, hsame.reading, hsame.ending⟩,
          by rw [hsame.inbox, List.append_nil]⟩
  obtain ⟨⟨hsession, hdocuments, -, hstays, hopen⟩, harrived⟩ := hsame
  simp only at hsession hdocuments hstays hopen
  refine ⟨?_, hopen.trans hending⟩
  cases h with
  | @waiting rest hreading hinbox howed =>
      have hnext : (c.step s e).inbox = x :: (rest ++ more) := by
        rw [harrived, hinbox, List.cons_append]
      exact .waiting (hstays.trans hreading) hnext (by rw [hsession, howed])
  | taken hreading hx hadmits howed =>
      exact .taken (hstays.trans hreading) hx (by rw [hsession, hadmits]) (by rw [hsession, howed])
  | noted hreading hx hadmits howed =>
      exact .noted (hstays.trans hreading) hx (by rw [hsession, hadmits]) (by rw [hsession, howed])
  | forgotten hx hmethod hreading hclosed howed =>
      exact .forgotten hx hmethod (hstays.trans hreading)
        (by rw [hsession, hdocuments, hclosed]) howed
  | synced hx hmethod hreading howed => exact .synced hx hmethod (hstays.trans hreading) howed
  | answering hreading howed hresponse =>
      exact .answering (hstays.trans hreading) howed hresponse

/-! ## One turn -/

/-- What a turn of the reader comes to: it leaves everything alone, and either the reader is nearer
to its end and has sent no more than traces, or it is done and has sent the answer that was owed. -/
structure Passed (s : Server) (x : Incoming) (answer : Option Message) (c : Connection) (k : Nat)
    (c' : Connection) : Prop where
  untouched : Untouched s x c c'
  ending : c'.ending = none
  progress : ∃ ms, c'.link.sent = c.link.sent ++ ms ∧
    ((∃ j, j < k ∧ Stage x answer c' j) ∧ ms.filter (!·.isTrace) = [] ∨
      c'.reading = .idle ∧
        ms.filter (!·.isTrace) = if c.link.writerOpen then answer.toList else [])

/-- Only what the reader works on has changed, and the tokens known. -/
theorem Untouched.of_reading (hending : c.ending = none) {inbox : List Incoming}
    {cache : TokenCache} {reading : Reading} (hgoes : reading.fate? = none) :
    Untouched s x c { c with inbox := inbox, cache := cache, reading := reading } := by
  refine ⟨rfl, rfl, rfl, rfl, rfl, rfl, .inl rfl, ?_⟩
  rw [Connection.fate, hending, Option.none_or]
  exact hgoes

/-- The reader goes on without sending anything. -/
theorem Passed.of_stage {c' : Connection} {j : Nat} (huntouched : Untouched s x c c')
    (hending : c'.ending = none) (hlink : c'.link = c.link) (hj : j < k)
    (hstage : Stage x answer c' j) : Passed s x answer c k c' :=
  ⟨huntouched, hending, [], by rw [hlink, List.append_nil], .inl ⟨⟨j, hj, hstage⟩, rfl⟩⟩

/-- The reader is done without sending anything. -/
theorem Passed.of_idle {c' : Connection} (huntouched : Untouched s x c c')
    (hending : c'.ending = none) (hsent : c'.link.sent = c.link.sent) (hidle : c'.reading = .idle)
    (howed : answer = none) : Passed s x answer c k c' := by
  refine ⟨huntouched, hending, [], by rw [hsent, List.append_nil], .inr ⟨hidle, ?_⟩⟩
  rw [howed]
  simp

theorem take_passed (hending : c.ending = none) (hidle : c.reading = .idle) {rest : List Incoming}
    (hinbox : c.inbox = x :: rest) (hrefused : c.deals? .reader = some x → c.Refuses x) :
    Passed s x (c.session.owed x) c 5 ({ c with inbox := rest }.take x) := by
  have hgoes : c.reading.fate? = none := by
    rw [hidle]
    rfl
  match x with
  | .message (.response r) =>
      exact .of_stage (.of_reading hending rfl) hending rfl (by decide) (.noted rfl rfl rfl rfl)
  | .message (.request r) =>
      exact .of_stage (.of_reading hending rfl) hending rfl (by decide) (.taken rfl rfl rfl rfl)
  | .message (.notification n) =>
      unfold take
      dsimp only
      split
      · next hadmits =>
          exact .of_stage (.of_reading hending rfl) hending rfl (by decide)
            (.taken rfl rfl hadmits rfl)
      · exact .of_idle (.of_reading hending hgoes) hending rfl hidle rfl
  | .unreadable fault =>
      unfold take
      dsimp only
      split
      · next m hreply =>
          obtain ⟨text, rfl⟩ := Message.DecodeFault.reply_eq hreply
          exact .of_stage (.of_reading hending rfl) hending rfl (by decide)
            (.answering rfl hreply rfl)
      · next hreply => exact .of_idle (.of_reading hending hgoes) hending rfl hidle hreply
  | .ended fault =>
      have hdeals := deals?_of_idle hending hidle hinbox
      exact absurd (hrefused hdeals) id

theorem sent_post (l : Link) (m : Message) :
    (l.post m).sent = l.sent ++ if l.writerOpen then [m] else [] := by
  unfold Link.post Link.send Link.sent
  split
  · simp
  · simp

theorem pending_post (l : Link) (m : Message) : (l.post m).pending = l.pending := by
  unfold Link.post Link.send
  split
  · rfl
  · rfl

theorem traceEntry_method {level : TraceLevel} {message verbose : String} {n : Notification}
    (h : traceEntry level message verbose = some n) : n.method = Method.logTrace := by
  cases level with
  | off => cases h
  | messages => rw [← Option.some.inj h]
  | verbose => rw [← Option.some.inj h]

theorem note_entry (m : Message) (c : Connection) :
    ∃ entry : Option Notification, (∀ n, entry = some n → n.method = Method.logTrace) ∧
      c.note m =
        { c with
          link := (entry.map fun n => c.link.post (.notification n)).getD c.link
          reading := .noted m } := by
  refine ⟨_, ?_, rfl⟩
  intro n hentry
  cases m with
  | request r => exact traceEntry_method hentry
  | notification n => exact traceEntry_method hentry
  | response r => cases hentry

/-- Noting what was taken sends a trace at most. -/
theorem note_passed (hending : c.ending = none) {m : Message} (hx : x = .message m)
    (hadmits : c.session.admits x = true) :
    Passed s x (c.session.owed x) c 4 (c.note m) := by
  obtain ⟨entry, htrace, hnote⟩ := c.note_entry m
  rw [hnote]
  have hstage : Stage x (c.session.owed x) { c with
      link := (entry.map fun n => c.link.post (.notification n)).getD c.link
      reading := .noted m } 3 := .noted rfl hx hadmits rfl
  cases entry with
  | none =>
      exact .of_stage (.of_reading hending rfl) hending rfl (by decide) hstage
  | some n =>
      refine ⟨⟨rfl, rfl, rfl, rfl, rfl, pending_post c.link _, .inl rfl, fate_of_ending hending⟩,
        hending, _, sent_post c.link (.notification n), .inl ⟨⟨3, by decide, hstage⟩, ?_⟩⟩
      have hsilent : (Message.notification n).isTrace = true := by
        simp [Message.isTrace, htrace n rfl]
      split
      · simp [hsilent]
      · rfl

theorem serve_passed_request (hending : c.ending = none) {r : Request}
    (hrefused : c.Refuses (.message (.request r))) :
    Passed s (.message (.request r)) (c.session.owed (.message (.request r))) c 3
      (c.serve s (.request r)) := by
  obtain ⟨e, he⟩ := hrefused
  have hserve : c.serve s (.request r) =
      { c with reading := .answering (.response ⟨some r.id, .error e⟩) } := by
    rw [serve_request, considerRequest, he]
    rfl
  rw [hserve]
  refine .of_stage (.of_reading hending rfl) hending rfl (by decide) (.answering rfl ?_ rfl)
  rw [Session.owed, he]

theorem serve_passed_response (hending : c.ending = none) {r : Response}
    (hrefused : c.Refuses (.message (.response r))) :
    Passed s (.message (.response r)) none c 3 (c.serve s (.response r)) := by
  have hresolve : c.link.pending.resolve r = (.error (.unknownId r.id), c.link.pending) := by
    refine PendingCalls.resolve_of_unknown fun id hid => ?_
    obtain ⟨hentry, hcancelled⟩ := hrefused id hid
    simp only [mem_keys_iff, ne_eq, Decidable.not_not] at hentry hcancelled
    exact ⟨hentry, hcancelled⟩
  have hserve : c.serve s (.response r) = { c with reading := .idle } := by
    change { c with reading := .idle, link := c.link.resolve r : Connection } = _
    rw [Link.resolve, hresolve]
  rw [hserve]
  exact .of_idle (.of_reading hending rfl) hending rfl rfl rfl

/-- What does not fit leaves the documents alone. -/
theorem syncDocuments_of_misfits {n : Notification} (h : n.Misfits c) :
    syncDocuments n.method (n.params.getD .null) c.session.encoding c.documents = c.documents := by
  rw [syncDocuments_eq]
  cases hread : Sync.read? n.method (n.params.getD .null) with
  | none => rfl
  | some sync =>
      obtain ⟨fault, hfault⟩ := h.2.2 sync hread
      rw [Option.elim_some, Sync.perform, hfault]

/-- Bringing the documents in step changes nothing if the notification does not fit them. -/
theorem sync_passed (hending : c.ending = none) {n : Notification} (hk : 1 < k)
    (hsame : syncDocuments n.method (n.params.getD .null) c.session.encoding c.documents =
      c.documents) (hmethod : n.method ∈ syncMethods) :
    Passed s (.message (.notification n)) none c k (c.sync n.method (n.params.getD .null)) := by
  rw [sync, hsame]
  exact .of_stage (.of_reading hending rfl) hending rfl hk (.synced rfl hmethod rfl rfl)

/-- The reader is done with a notification about a document once its handler, if there is one, waits
for its turn. -/
theorem enqueue_passed (hending : c.ending = none) {n : Notification}
    (hmethod : n.method ∈ syncMethods) :
    Passed s (.message (.notification n)) none c k
      ({ c with reading := .idle }.enqueue s n.method (n.params.getD .null)) := by
  have hqueue : ({ c with reading := .idle }.enqueue s n.method (n.params.getD .null)).queue =
      (c.enqueue s n.method (n.params.getD .null)).queue := by
    unfold enqueue
    split
    · rfl
    · rfl
  obtain ⟨queue, henqueue⟩ :=
    enqueue_eq s n.method (n.params.getD .null) { c with reading := .idle }
  rw [henqueue] at hqueue ⊢
  exact .of_idle ⟨rfl, rfl, rfl, rfl, rfl, rfl, .inr ⟨n, rfl, hmethod, hqueue⟩,
    fate_of_ending hending⟩ hending rfl rfl rfl

theorem serve_passed_misfit (hending : c.ending = none) {n : Notification} (h : n.Misfits c) :
    Passed s (.message (.notification n)) none c 3 (c.serve s (.notification n)) := by
  have hsame := syncDocuments_of_misfits h
  have hmethod : n.method ≠ Method.exit ∧ n.method ≠ Method.confirmed ∧
      n.method ≠ Method.cancelRequest ∧ n.method ≠ Method.setTrace := by
    have hall : ∀ method ∈ syncMethods, method ≠ Method.exit ∧ method ≠ Method.confirmed ∧
        method ≠ Method.cancelRequest ∧ method ≠ Method.setTrace := by decide
    exact hall n.method h.1
  rw [serve_notification, serveNotification, if_neg hmethod.1, if_neg hmethod.2.1,
    if_neg hmethod.2.2.1, if_neg hmethod.2.2.2]
  split
  · next hclose =>
      rw [hclose] at hsame
      exact .of_stage (.of_reading hending rfl) hending rfl (by decide)
        (.forgotten rfl hclose rfl hsame rfl)
  · exact sync_passed hending (by decide) hsame h.1

theorem serve_passed_cancel (hending : c.ending = none) {n : Notification}
    (h : n.CancelsNothing c) :
    Passed s (.message (.notification n)) none c 3 (c.serve s (.notification n)) := by
  have hserve : c.serve s (.notification n) = { c with reading := .idle } := by
    rw [serve_notification, serveNotification, if_neg (by rw [h.1]; decide),
      if_neg (by rw [h.1]; decide), if_pos h.1]
    split
    · next p hp => exact cancel_of_not_inFlight (h.2 p hp)
    · rfl
  rw [hserve]
  exact .of_idle (.of_reading hending rfl) hending rfl rfl rfl

theorem serve_passed_trace (hending : c.ending = none) {n : Notification} (h : n.TracesNothing) :
    Passed s (.message (.notification n)) none c 3 (c.serve s (.notification n)) := by
  obtain ⟨hmethod, fault, hfault⟩ := h
  have hserve : c.serve s (.notification n) = { c with reading := .idle } := by
    rw [serve_notification, serveNotification, if_neg (by rw [hmethod]; decide),
      if_neg (by rw [hmethod]; decide), if_neg (by rw [hmethod]; decide), if_pos hmethod, hfault]
  rw [hserve]
  exact .of_idle (.of_reading hending rfl) hending rfl rfl rfl

theorem answer_passed (hending : c.ending = none) {m : Message} (hresponse : m.isTrace = false) :
    Passed s x (some m) c 1 { c.post m with reading := .idle } := by
  refine ⟨⟨rfl, rfl, rfl, rfl, rfl, pending_post c.link m, .inl rfl, fate_of_ending hending⟩,
    hending, _, sent_post c.link m, .inr ⟨rfl, ?_⟩⟩
  split
  · simp [hresponse]
  · rfl

/-- **A turn of the reader for something that is refused leaves everything alone.** -/
theorem Stage.turn (h : Stage x answer c k) (hending : c.ending = none)
    (hrefused : c.deals? .reader = some x → c.Refuses x) :
    Passed s x answer c k (c.step s .reader) := by
  have hstep : c.step s .reader = c.stepReader s := by simp only [step, hending, handle]
  rw [hstep, stepReader]
  cases h with
  | waiting hreading hinbox howed =>
      have htake := take_passed (s := s) hending hreading hinbox hrefused
      rw [howed] at htake
      simpa only [hreading, hinbox] using htake
  | taken hreading hx hadmits howed =>
      simp only [hreading]
      rw [← howed]
      exact note_passed hending hx hadmits
  | @noted m hreading hx hadmits howed =>
      simp only [hreading]
      subst hx
      rw [← howed]
      have hrefuses : c.Refuses (.message m) := hrefused (by simp only [deals?, hending, hreading])
      cases m with
      | request r => exact serve_passed_request hending hrefuses
      | response r => exact serve_passed_response hending hrefuses
      | notification n =>
          -- The session has admitted it when it was taken.
          rcases hrefuses with hbarred | hmisfit | hcancel | htrace
          · rw [Session.admits, hbarred] at hadmits
            cases hadmits
          · exact serve_passed_misfit hending hmisfit
          · exact serve_passed_cancel hending hcancel
          · exact serve_passed_trace hending htrace
  | forgotten hx hmethod hreading hclosed howed =>
      simp only [hreading]
      rw [hx, howed]
      rw [← hmethod] at hclosed ⊢
      exact sync_passed hending (by decide) hclosed (by rw [hmethod]; decide)
  | synced hx hmethod hreading howed =>
      simp only [hreading]
      rw [hx, howed]
      exact enqueue_passed hending hmethod
  | answering hreading howed hresponse =>
      simp only [hreading]
      rw [howed]
      exact answer_passed hending hresponse

/-! ## All turns -/

theorem spell_reader (s : Server) (c : Connection) (events : List Event) :
    c.spell s (.reader :: events) =
      c :: if (c.step s .reader).reading = .idle then []
        else (c.step s .reader).spell s events := by
  rw [spell, if_pos rfl]

theorem spell_other (s : Server) (c : Connection) {e : Event} (h : e ≠ .reader)
    (events : List Event) : c.spell s (e :: events) = (c.step s e).spell s events := by
  rw [spell, if_neg h]

theorem posts_eq {ms : List Message} (h : (c.step s .reader).link.sent = c.link.sent ++ ms) :
    c.posts s = ms := by
  rw [posts, h, List.drop_left]

/-- The reader is done by the end of these turns. -/
def Finished (s : Server) (turns : List Connection) : Prop :=
  ∃ t ∈ turns, (t.step s .reader).reading = .idle

/-- What is sent at these turns, traces apart. -/
def replies (s : Server) (turns : List Connection) : List Message :=
  (turns.flatMap (posts s)).filter (!·.isTrace)

/-- Nothing is touched at these turns, and no more is sent than is owed. -/
structure Inert (s : Server) (x : Incoming) (answer : Option Message) (turns : List Connection) :
    Prop where
  untouched : ∀ t ∈ turns, Untouched s x t (t.step s .reader) ∧
    (t.step s .reader).link.sent = t.link.sent ++ t.posts s
  atMost : replies s turns = [] ∨ replies s turns = answer.toList
  exactly : Finished s turns → (∀ t ∈ turns, t.link.writerOpen = true) →
    replies s turns = answer.toList

theorem Stage.pos (h : Stage x answer c k) : 0 < k := by
  cases h <;> decide

/-- Once the reader has taken it up, it is not idle before it is done. -/
theorem Stage.reading_ne_idle {j : Nat} (hj : j < k) (h : Stage x answer c k) {c' : Connection}
    (h' : Stage x answer c' j) : c'.reading ≠ .idle := by
  cases h' with
  | waiting => cases h <;> contradiction
  | taken hreading => simp [hreading]
  | noted hreading => simp [hreading]
  | forgotten hx hmethod hreading => simp [hreading]
  | synced hx hmethod hreading => simp [hreading]
  | answering hreading => simp [hreading]

theorem replies_cons {ms : List Message} (h : (c.step s .reader).link.sent = c.link.sent ++ ms)
    (turns : List Connection) :
    replies s (c :: turns) = ms.filter (!·.isTrace) ++ replies s turns := by
  rw [replies, List.flatMap_cons, List.filter_append, posts_eq h]
  rfl

theorem Inert.nil : Inert s x answer [] := by
  refine ⟨List.forall_mem_nil _, .inl rfl, fun hfinished => ?_⟩
  obtain ⟨t, ht, -⟩ := hfinished
  cases ht

/-- The last turn. -/
theorem Inert.last {ms : List Message} (huntouched : Untouched s x c (c.step s .reader))
    (hsent : (c.step s .reader).link.sent = c.link.sent ++ ms)
    (hanswer : ms.filter (!·.isTrace) = if c.link.writerOpen then answer.toList else []) :
    Inert s x answer [c] := by
  have hreplies : replies s [c] = if c.link.writerOpen then answer.toList else [] := by
    rw [replies_cons hsent, hanswer]
    exact List.append_nil _
  refine ⟨?_, ?_, ?_⟩
  · intro t ht
    rw [List.mem_singleton.1 ht, posts_eq hsent]
    exact ⟨huntouched, hsent⟩
  · rw [hreplies]
    split
    · exact .inr rfl
    · exact .inl rfl
  · intro _ hwriter
    rw [hreplies, hwriter c List.mem_cons_self, if_pos rfl]

/-- A turn before others, at which nothing but traces is sent. -/
theorem Inert.cons {ms : List Message} {turns : List Connection} (h : Inert s x answer turns)
    (huntouched : Untouched s x c (c.step s .reader))
    (hbusy : (c.step s .reader).reading ≠ .idle)
    (hsent : (c.step s .reader).link.sent = c.link.sent ++ ms)
    (hquiet : ms.filter (!·.isTrace) = []) : Inert s x answer (c :: turns) := by
  have hreplies : replies s (c :: turns) = replies s turns := by
    rw [replies_cons hsent, hquiet, List.nil_append]
  refine ⟨List.forall_mem_cons.2 ⟨?_, h.untouched⟩, ?_, ?_⟩
  · rw [posts_eq hsent]
    exact ⟨huntouched, hsent⟩
  · rw [hreplies]
    exact h.atMost
  · rintro ⟨t, ht, hidle⟩ hwriter
    rw [hreplies]
    obtain ⟨-, hwriter⟩ := List.forall_mem_cons.1 hwriter
    rcases List.mem_cons.1 ht with rfl | ht
    · exact absurd hidle hbusy
    · exact h.exactly ⟨t, ht, hidle⟩ hwriter

/-- The turns that are left for something that is refused, whatever else happens between them. -/
theorem Stage.inert (h : Stage x answer c k) (hending : c.ending = none) (events : List Event)
    (hrefused : ∀ t ∈ c.spell s events, t.deals? .reader = some x → t.Refuses x) :
    Inert s x answer (c.spell s events) ∧
      (k ≤ events.count .reader → Finished s (c.spell s events)) := by
  induction events generalizing c k with
  | nil => exact ⟨.nil, fun hfew => absurd h.pos (Nat.not_lt.2 hfew)⟩
  | cons e events ih =>
      by_cases hreader : e = .reader
      · subst hreader
        rw [spell_reader] at hrefused ⊢
        obtain ⟨hnow, hlater⟩ := List.forall_mem_cons.1 hrefused
        obtain ⟨huntouched, hopen, ms, hsent, hprogress⟩ := h.turn (s := s) hending hnow
        rcases hprogress with ⟨⟨j, hj, hstage⟩, hquiet⟩ | ⟨hidle, hanswer⟩
        · -- The reader goes on, with at least one turn fewer to take.
          have hbusy := h.reading_ne_idle hj hstage
          rw [if_neg hbusy] at hlater ⊢
          obtain ⟨hinert, hfinished⟩ := ih hstage hopen hlater
          refine ⟨hinert.cons huntouched hbusy hsent hquiet, fun hfew => ?_⟩
          rw [List.count_cons_self] at hfew
          obtain ⟨t, ht, hidle⟩ := hfinished (by omega)
          exact ⟨t, List.mem_cons_of_mem c ht, hidle⟩
        · rw [if_pos hidle]
          exact ⟨.last huntouched hsent hanswer, fun _ => ⟨c, List.mem_cons_self, hidle⟩⟩
      · rw [spell_other s c hreader] at hrefused ⊢
        obtain ⟨hstage, hopen⟩ := h.other (s := s) hending hreader
        rw [List.count_cons_of_ne hreader]
        exact ih hstage hopen hrefused

/-- **Refused input is inert.** In whatever state the connection is, let the reader be about to take
up something, and let it be refused by the time it is dealt with. Whatever else happens in between,
none of the turns that the reader takes for it touches the session, the documents, the requests
being worked on or the calls to the client, or ends the connection. All that is sent at these turns,
traces apart, is the answer that is owed; it is sent once, unless the client takes no more messages.
After five turns the reader is done. -/
theorem refused_inert (s : Server) (c : Connection) (x : Incoming) (rest : List Incoming)
    (events : List Event) (hending : c.ending = none) (hidle : c.reading = .idle)
    (hinbox : c.inbox = x :: rest)
    (hrefused : ∀ t ∈ c.spell s events, t.deals? .reader = some x → t.Refuses x) :
    (∀ t ∈ c.spell s events, Untouched s x t (t.step s .reader) ∧
      (t.step s .reader).link.sent = t.link.sent ++ t.posts s) ∧
    (replies s (c.spell s events) = [] ∨
      replies s (c.spell s events) = (c.session.owed x).toList) ∧
    (Finished s (c.spell s events) → (∀ t ∈ c.spell s events, t.link.writerOpen = true) →
      replies s (c.spell s events) = (c.session.owed x).toList) ∧
    (5 ≤ events.count .reader → Finished s (c.spell s events)) := by
  have hstage : Stage x (c.session.owed x) c 5 := .waiting hidle hinbox rfl
  obtain ⟨hinert, hfinished⟩ := hstage.inert hending events hrefused
  exact ⟨hinert.untouched, hinert.atMost, hinert.exactly, hfinished⟩

/-- A client that wants traces introduces itself. -/
def introduction (id : Int64) : Incoming :=
  .message (.request ⟨.number id, Method.handshake,
    some (.obj [("capabilities", .obj []), ("trace", .str "messages")])⟩)

/-- The client introduces itself, confirms that, and introduces itself again. -/
def repetitiveClient : List Event :=
  [.received (introduction 1), .reader, .reader, .reader, .reader,
   .received (.message (.notification ⟨Method.confirmed, none⟩)), .reader, .reader, .reader,
   .received (introduction 2)]

/-- While time passes and messages are written, the second introduction is answered by an error, and
a trace of it is all else that is sent. -/
theorem repetitiveClient_refused :
    let s : Server := .bare .default default
    let events : List Event :=
      [.reader, .tick 5, .reader, .writer, .reader, .worker .forward, .reader, .reader]
    let turns := (fresh.run s repetitiveClient).spell s events
    replies s turns = [.response ⟨some (.number 2), .error Session.onlyOnce⟩] ∧
    (turns.flatMap (posts s)).length = 2 ∧
    ∀ t ∈ turns, (t.step s .reader).session = t.session := by
  intro s events turns
  have hactive : ∀ t ∈ turns, t.session.state = .active := by decide +kernel
  have hrefused : ∀ t ∈ turns, t.deals? .reader = some (introduction 2) →
      t.Refuses (introduction 2) :=
    fun t ht _ => ⟨Session.onlyOnce, by simp [Session.admitRequest, hactive t ht]⟩
  obtain ⟨huntouched, -, hreplies, hfinished⟩ := refused_inert s (fresh.run s repetitiveClient)
    (introduction 2) [] events (by decide +kernel) (by decide +kernel) (by decide +kernel) hrefused
  have howed : (fresh.run s repetitiveClient).session.owed (introduction 2) =
      some (.response ⟨some (.number 2), .error Session.onlyOnce⟩) := by decide +kernel
  rw [howed] at hreplies
  exact ⟨hreplies (hfinished (by decide)) (by decide +kernel), by decide +kernel,
    fun t ht => (huntouched t ht).1.session⟩

end Connection

end LanguageServer
