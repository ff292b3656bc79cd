import LanguageServer.Proofs.Server.Lifecycle
import LanguageServer.Proofs.Table

set_option autoImplicit false

/-! # The encoding of a connection

Positions are counted in an encoding that the two sides agree on once. It is the one that the server
names when it answers the client's introduction (`answer_encoding`), it does not change while the
session is active (`encoding_run`), and handlers are given no other: a server whose handlers do
something else for other encodings runs just the same (`run_congr`). -/

namespace LanguageServer

namespace Connection

variable {c : Connection}

/-- A connection that is not about to end has a session in order. -/
theorem run_sane (s : Server) (events : List Event) (h : (fresh.run s events).fate = none) :
    (fresh.run s events).session.Sane := by
  rw [run_session Orderly.fresh]
  refine Session.Sane.fresh.foldl_hear s _ fun x hx => ?_
  exact isExit_of_isStop ((run_fate Orderly.fresh s events rfl).1 h x hx)

theorem encoding_of_negotiated {session : Session} {n : Negotiated}
    (h : session.negotiated = some n) : session.encoding = n.positionEncoding := by
  rw [Session.encoding, h]

/-- The encoding does not change once the session is active. -/
theorem encoding_run {s : Server} {events : List Event}
    (hfate : (fresh.run s events).fate = none)
    (hactive : (fresh.run s events).session.state = .active) (more : List Event) :
    ((fresh.run s events).run s more).session.encoding = (fresh.run s events).session.encoding := by
  obtain ⟨n, hnegotiated⟩ := (run_sane s events hfate).exists_negotiated hactive
  rw [encoding_of_negotiated hnegotiated, encoding_of_negotiated (negotiated_run hnegotiated more)]

/-! ## The encoding that the server named -/

/-- The answer to an introduction that is accepted names the encoding that the session has from then
on. -/
theorem answer_encoding {s : Server} {r : Request} {v : Json}
    (hnoted : c.reading = .noted (.request r)) (hmethod : r.method = Method.handshake)
    (hanswer : (c.step s .reader).reading = .answering (.response ⟨some r.id, .result v⟩)) :
    ∃ result n, v = SessionResult.codec.write result ∧
      (c.step s .reader).session.negotiated = some n ∧
      result.capabilities.positionEncoding = some n.positionEncoding := by
  cases hending : c.ending with
  | some ending =>
      simp only [step, hending, hnoted] at hanswer
      cases hanswer
  | none =>
      rw [step_noted hending hnoted] at hanswer ⊢
      simp only [serve, considerRequest, serveRequest, if_pos hmethod, start, answer] at hanswer ⊢
      cases hadmitted : c.session.admitRequest r.method with
      | error fault =>
          simp only [hadmitted] at hanswer
          cases hanswer
      | ok u =>
          simp only [hadmitted] at hanswer ⊢
          cases hparams : SessionParams.codec.parseParams (r.params.getD .null) with
          | error fault =>
              simp only [hparams] at hanswer
              cases hanswer
          | ok p =>
              simp only [hparams] at hanswer ⊢
              by_cases hstate : c.session.state = .unstarted
              · obtain ⟨result, hencoding, hstart⟩ :=
                  Session.start_of_unstarted (s := s) hstate p s.advertised s.options.serverInfo
                simp only [hstart] at hanswer ⊢
                cases hanswer
                exact ⟨result, s.agreed p, rfl, rfl, hencoding⟩
              · simp only [Session.start, if_neg hstate] at hanswer
                cases hanswer

theorem of_deals?_request {e : Event} {r : Request}
    (h : c.deals? e = some (.message (.request r))) :
    c.ending = none ∧ e = .reader ∧ c.reading = .noted (.request r) := by
  unfold deals? at h
  split at h
  · next hending hnoted =>
      cases h
      exact ⟨hending, rfl, hnoted⟩
  · -- A request is always taken up.
    split at h
    · cases h
    · next hadmits =>
        cases h
        exact absurd rfl hadmits
  · cases h

theorem of_introduction? {incoming : Incoming} {p : SessionParams}
    (h : incoming.introduction? = some p) :
    ∃ r, incoming = .message (.request r) ∧ r.method = Method.handshake ∧
      SessionParams.codec.parseParams (r.params.getD .null) = .ok p := by
  match incoming with
  | .message (.request r) =>
      rw [Incoming.introduction?] at h
      split at h
      · next hmethod =>
          refine ⟨r, rfl, hmethod, ?_⟩
          cases hparams : SessionParams.codec.parseParams (r.params.getD .null) with
          | error fault => rw [hparams] at h; cases h
          | ok p' => rw [hparams] at h; cases h; rfl
      · cases h

/-- Something is agreed on only when the reader accepts an introduction. -/
theorem answer_of_negotiated {s : Server} {e : Event} (horderly : c.Orderly)
    (hnone : c.session.negotiated = none) (hsome : (c.step s e).session.negotiated ≠ none) :
    e = .reader ∧ ∃ r v, c.reading = .noted (.request r) ∧ r.method = Method.handshake ∧
      (c.step s .reader).reading = .answering (.response ⟨some r.id, .result v⟩) := by
  rw [(step_hears horderly s e).session_eq] at hsome
  cases hdeals : c.deals? e with
  | none =>
      rw [hdeals] at hsome
      exact absurd hnone hsome
  | some incoming =>
      have hmoves := Session.hear_moves s (horderly.living (fate_of_deals hdeals)) incoming
      rw [hdeals, Option.elim_some] at hsome
      generalize c.session.hear s incoming = session' at hmoves hsome
      cases hmoves with
      | introduced p hstate hp =>
          obtain ⟨r, rfl, hmethod, hparams⟩ := of_introduction? hp
          obtain ⟨hending, rfl, hnoted⟩ := of_deals?_request hdeals
          obtain ⟨result, -, hstart⟩ :=
            Session.start_of_unstarted (s := s) hstate p s.advertised s.options.serverInfo
          have hadmitted : c.session.admitRequest r.method = .ok () := by
            simp only [Session.admitRequest, hstate, if_pos hmethod]
          refine ⟨rfl, r, SessionResult.codec.write result, hnoted, hmethod, ?_⟩
          rw [step_noted hending hnoted]
          simp only [serve, considerRequest, serveRequest, if_pos hmethod, start, answer, hadmitted,
            hparams, hstart]
      | confirmed _ _ => exact absurd hnone hsome
      | asked _ _ => exact absurd hnone hsome
      | left _ => exact absurd hnone hsome
      | stayed _ _ _ => exact absurd hnone hsome

/-- What does not hold at first and holds in the end comes to hold with one of the events. -/
theorem exists_change {s : Server} {P : Connection → Prop} {events : List Event} (hfirst : ¬ P c)
    (hlast : P (c.run s events)) :
    ∃ earlier e later, events = earlier ++ e :: later ∧ ¬ P (c.run s earlier) ∧
      P ((c.run s earlier).step s e) := by
  induction events generalizing c with
  | nil => exact absurd hlast hfirst
  | cons e events ih =>
      by_cases hnext : P (c.step s e)
      · exact ⟨[], e, events, rfl, hfirst, hnext⟩
      · obtain ⟨earlier, e', later, rfl, hbefore, hafter⟩ := ih hnext hlast
        exact ⟨e :: earlier, e', later, rfl, hbefore, hafter⟩

/-- Whatever has been agreed on, the reader has accepted an introduction for it. -/
theorem exists_answer {s : Server} {events : List Event}
    (h : (fresh.run s events).session.negotiated ≠ none) :
    ∃ earlier later r v, events = earlier ++ .reader :: later ∧
      (fresh.run s earlier).reading = .noted (.request r) ∧ r.method = Method.handshake ∧
      ((fresh.run s earlier).step s .reader).reading =
        .answering (.response ⟨some r.id, .result v⟩) := by
  obtain ⟨earlier, e, later, rfl, hnone, hsome⟩ :=
    exists_change (P := fun c => c.session.negotiated ≠ none) (fun hfresh => hfresh rfl) h
  obtain ⟨rfl, r, v, hnoted, hmethod, hanswer⟩ :=
    answer_of_negotiated (run_orderly Orderly.fresh s earlier) (Decidable.not_not.1 hnone) hsome
  exact ⟨earlier, later, r, v, rfl, hnoted, hmethod, hanswer⟩

/-! ## The encoding that handlers are given -/

end Connection

/-- The servers differ at most in what their handlers of requests do for other encodings. -/
structure Server.Agrees (e : PositionEncoding) (s s' : Server) : Prop where
  options : s'.options = s.options
  advertised : s'.advertised = s.advertised
  notifications : s'.notifications = s.notifications
  requests : ∀ method,
    s.requests.lookup method = none ∧ s'.requests.lookup method = none ∨
    ∃ h h', s.requests.lookup method = some h ∧ s'.requests.lookup method = some h' ∧
      ∀ params cx, cx.negotiated.positionEncoding = e → h' params cx = h params cx

namespace Connection

variable {c : Connection} {s s' : Server} {e : PositionEncoding}

/-- Only an active session admits a request that a handler may serve. -/
theorem active_of_admitRequest {session : Session} {method : String}
    (h : session.admitRequest method = .ok ()) (hhandshake : method ≠ Method.handshake)
    (hshutdown : method ≠ Method.shutdown) : session.state = .active := by
  unfold Session.admitRequest at h
  split at h
  · rw [if_neg hhandshake] at h
    cases h
  · rw [if_neg hhandshake] at h
    cases h
  · assumption
  · rw [if_neg hshutdown] at h
    cases h
  · cases h

theorem considerRequest_congr (h : s.Agrees e s')
    (hactive : c.session.state = .active → c.negotiated.positionEncoding = e) (r : Request) :
    c.considerRequest s' r = c.considerRequest s r := by
  unfold considerRequest serveRequest start
  rw [h.options, h.advertised]
  split
  · rfl
  · next hadmitted =>
      split
      · rfl
      · next hhandshake =>
          split
          · rfl
          · next hshutdown =>
              have hencoding := hactive (active_of_admitRequest hadmitted hhandshake hshutdown)
              rcases h.requests r.method with ⟨hnone, hnone'⟩ | ⟨f, f', hsome, hsome', hsame⟩
              · simp only [hnone, hnone']
              · simp only [hsome, hsome', spawn]
                rw [hsame _ ⟨r.id, c.spawned, c.negotiated⟩ hencoding]

theorem enqueue_congr (h : s.Agrees e s') (method : String) (params : Json) :
    c.enqueue s' method params = c.enqueue s method params := by
  unfold enqueue
  rw [h.notifications]

theorem serve_congr (h : s.Agrees e s')
    (hactive : c.session.state = .active → c.negotiated.positionEncoding = e) (m : Message) :
    c.serve s' m = c.serve s m := by
  cases m with
  | request r => exact considerRequest_congr (c := { c with reading := .idle }) h hactive r
  | notification n => rfl
  | response r => rfl

/-- **A step does not depend on what handlers do for encodings that the session does not have.** -/
theorem step_congr (h : s.Agrees e s')
    (hactive : c.fate = none → c.session.state = .active → c.negotiated.positionEncoding = e)
    (event : Event) : c.step s' event = c.step s event := by
  unfold step
  split
  · next hending =>
      cases event with
      | reader =>
          unfold handle stepReader
          dsimp only
          split
          · rfl
          · rfl
          · next m hnoted =>
              refine serve_congr h (hactive ?_) m
              rw [fate_of_ending hending, hnoted]
              rfl
          · rfl
          · exact enqueue_congr h ..
          · rfl
          · rfl
          · rfl
      | task key move => simp only [handle, stepTask, h.options]
      | worker move => simp only [handle, stepWorker, h.options]
      | _ => rfl
  · rfl

/-- **A run does not depend on what handlers do for encodings that the session does not have.** -/
theorem run_congr (earlier later : List Event)
    (h : s.Agrees ((fresh.run s earlier).run s later).session.encoding s') :
    (fresh.run s earlier).run s' later = (fresh.run s earlier).run s later := by
  induction later generalizing earlier with
  | nil => rfl
  | cons event later ih =>
      have hnext := run_concat s fresh earlier event
      have hstep : (fresh.run s earlier).step s' event = (fresh.run s earlier).step s event := by
        refine step_congr h (fun hfate hactive => ?_) event
        obtain ⟨n, hnegotiated⟩ := (run_sane s earlier hfate).exists_negotiated hactive
        rw [encoding_run hfate hactive, negotiated, encoding_of_negotiated hnegotiated, hnegotiated]
        rfl
      rw [run_cons, run_cons, hstep]
      rw [run_cons, ← hnext] at h
      rw [← hnext]
      exact ih (earlier ++ [event]) h

end Connection

/-! ## The encoding that token providers are given -/

theorem lookup_register {α : Type} (table : List (String × α)) (name : String) (value : α)
    (method : String) :
    (register table name value).lookup method =
      if method = name then some value else table.lookup method := by
  rw [register, List.lookup_append, lookup_filter_ne, List.lookup_cons, List.lookup_nil]
  split
  · next hmethod => simp [hmethod]
  · next hmethod => simp [beq_eq_false_iff_ne.2 hmethod]

namespace Server

theorem lookup_withTokens (s : Server) (legend : Legend) (provider : TokenProvider)
    (method : String) :
    (s.withTokens legend provider).requests.lookup method =
      if method = Method.tokensRange then some provider.range
      else if method = Method.tokensDelta then some provider.delta
      else if method = Method.tokensFull then some provider.full
      else s.requests.lookup method := by
  simp only [withTokens, withRequest, lookup_register]

/-- **A provider of tokens might as well not look at the encoding that it is given**, if it works in
the encoding of the session. -/
theorem withTokens_agrees (s : Server) (legend : Legend) (provider : TokenProvider)
    (e : PositionEncoding) :
    (s.withTokens legend provider).Agrees e (s.withTokens legend fun d _ => provider d e) where
  options := rfl
  advertised := by
    have hsame : (s.withTokens legend fun d _ => provider d e).handlesRequest
        Method.willSaveWaitUntil =
        (s.withTokens legend provider).handlesRequest Method.willSaveWaitUntil := by
      simp only [handlesRequest, lookup_withTokens]
      rfl
    simp only [advertised, hsame]
    rfl
  notifications := rfl
  requests := by
    intro method
    rw [lookup_withTokens, lookup_withTokens]
    split
    · refine .inr ⟨_, _, rfl, rfl, fun params cx hcx => ?_⟩
      subst hcx
      rfl
    · split
      · refine .inr ⟨_, _, rfl, rfl, fun params cx hcx => ?_⟩
        subst hcx
        rfl
      · split
        · refine .inr ⟨_, _, rfl, rfl, fun params cx hcx => ?_⟩
          subst hcx
          rfl
        · cases s.requests.lookup method with
          | none => exact .inl ⟨rfl, rfl⟩
          | some h => exact .inr ⟨h, h, rfl, rfl, fun _ _ _ => rfl⟩

end Server

end LanguageServer
