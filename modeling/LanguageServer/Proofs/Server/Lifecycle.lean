import LanguageServer.Proofs.Server.Unread

set_option autoImplicit false

/-! # The life of a session, over whole runs

A session passes its stages one after another, each for one kind of message, and the client may leave
at any of them. `Session.hear_moves` says what a piece that the reader deals with can do; all else
follows by induction over what the reader has heard: which status the connection ends with
(`requested_foldl_hear`), what the two sides agreed on (`run_negotiated`), and that the connection
does end once the client has left and the reader gets its turns (`run_turns`). -/

namespace LanguageServer

/-! ## Milestones -/

namespace Incoming

/-- What a client says of itself when it introduces itself readably. -/
def introduction? : Incoming → Option SessionParams
  | .message (.request r) =>
    if r.method = Method.handshake then
      (SessionParams.codec.parseParams (r.params.getD .null)).toOption
    else none
  | .message _ | .unreadable _ | .ended _ => none

/-- Whether the client confirms with this that it has been introduced. -/
def isConfirmation : Incoming → Bool
  | .message (.notification n) => n.method = Method.confirmed
  | .message _ | .unreadable _ | .ended _ => false

/-- Whether the client asks with this to wind down. -/
def isShutdown : Incoming → Bool
  | .message (.request r) => r.method = Method.shutdown
  | .message _ | .unreadable _ | .ended _ => false

end Incoming

/-- The client introduces itself, confirms that, and asks to wind down, in this order, whatever else
it says in between. -/
def TakesLeave (incomings : List Incoming) : Prop :=
  ∃ introduction confirmation shutdown,
    [introduction, confirmation, shutdown].Sublist incomings ∧
    introduction.introduction?.isSome = true ∧ confirmation.isConfirmation = true ∧
    shutdown.isShutdown = true

/-- Whether things of the given kinds come in, in the order of the kinds. -/
def inOrder : List (Incoming → Bool) → List Incoming → Bool
  | [], _ => true
  | _ :: _, [] => false
  | kind :: kinds, incoming :: rest =>
    if kind incoming then inOrder kinds rest else inOrder (kind :: kinds) rest

/-- Whether things are of the given kinds, one of each. -/
def fits : List (Incoming → Bool) → List Incoming → Bool
  | [], [] => true
  | kind :: kinds, incoming :: rest => kind incoming && fits kinds rest
  | [], _ :: _ | _ :: _, [] => false

/-- Taking the first of each kind finds them in order if they can be found at all. -/
theorem inOrder_iff (kinds : List (Incoming → Bool)) (incomings : List Incoming) :
    inOrder kinds incomings = true ↔
      ∃ picked, picked.Sublist incomings ∧ fits kinds picked = true := by
  induction incomings generalizing kinds with
  | nil =>
      cases kinds with
      | nil => simp [inOrder, fits]
      | cons kind kinds => simp [inOrder, fits]
  | cons incoming rest ih =>
      cases kinds with
      | nil => exact iff_of_true rfl ⟨[], List.nil_sublist _, rfl⟩
      | cons kind kinds =>
          rw [inOrder]
          split
          · next hkind =>
              rw [ih]
              constructor
              · rintro ⟨picked, hsub, hfits⟩
                exact ⟨incoming :: picked, hsub.cons_cons incoming, by simp [fits, hkind, hfits]⟩
              · -- Whichever was picked first, the others come after this one.
                rintro ⟨picked, hsub, hfits⟩
                cases picked with
                | nil => cases hfits
                | cons first picked =>
                    have hothers : fits kinds picked = true := ((Bool.and_eq_true ..).mp hfits).2
                    exact ⟨picked, hsub.of_cons_cons, hothers⟩
          · next hkind =>
              rw [ih]
              constructor
              · rintro ⟨picked, hsub, hfits⟩
                exact ⟨picked, hsub.cons incoming, hfits⟩
              · -- This one was not picked, since it is of another kind.
                rintro ⟨picked, hsub, hfits⟩
                cases hsub with
                | cons _ hsub => exact ⟨picked, hsub, hfits⟩
                | cons_cons _ hsub => exact absurd ((Bool.and_eq_true ..).mp hfits).1 hkind

namespace SessionState

/-- The stage after a stage, unless the client leaves. -/
def next? : SessionState → Option SessionState
  | .unstarted => some .initializing
  | .initializing => some .active
  | .active => some .shuttingDown
  | .shuttingDown | .exited => none

/-- Whether something takes the session from a stage to the next. -/
def awaits : SessionState → Incoming → Bool
  | .unstarted, incoming => incoming.introduction?.isSome
  | .initializing, incoming => incoming.isConfirmation
  | .active, incoming => incoming.isShutdown
  | .shuttingDown, _ | .exited, _ => false

/-- What is still to come at a stage until the session winds down. -/
def milestones : SessionState → List (Incoming → Bool)
  | .unstarted => [awaits .unstarted, awaits .initializing, awaits .active]
  | .initializing => [awaits .initializing, awaits .active]
  | .active => [awaits .active]
  | .shuttingDown | .exited => []

end SessionState

theorem takesLeave_iff (incomings : List Incoming) :
    inOrder SessionState.unstarted.milestones incomings = true ↔ TakesLeave incomings := by
  rw [inOrder_iff]
  constructor
  · rintro ⟨picked, hsub, hfits⟩
    match picked, hfits with
    | [a, b, c], hfits =>
        simp only [SessionState.milestones, fits, SessionState.awaits, Bool.and_eq_true,
          and_true] at hfits
        exact ⟨a, b, c, hsub, hfits⟩
    | [_], hfits | [_, _], hfits | _ :: _ :: _ :: _ :: _, hfits =>
        simp [SessionState.milestones, fits] at hfits
  · rintro ⟨a, b, c, hsub, ha, hb, hc⟩
    exact ⟨[a, b, c], hsub, by simp [SessionState.milestones, fits, SessionState.awaits, ha, hb, hc]⟩

instance (incomings : List Incoming) : Decidable (TakesLeave incomings) :=
  decidable_of_iff _ (takesLeave_iff incomings)

/-- The status that the connection ends with if the client leaves after saying these things. -/
def farewell (incomings : List Incoming) : ExitStatus :=
  if TakesLeave incomings then .clean else .shutdownSkipped

/-! ## What one piece does -/

/-- What the two sides agree on when a client introduces itself. -/
def Server.agreed (s : Server) (p : SessionParams) : Negotiated where
  clientCapabilities := p.capabilities
  positionEncoding := negotiateEncoding s.options.positionEncodings p.capabilities
  clientInfo := p.clientInfo
  rootUri := p.rootUri
  workspaceFolders := p.workspaceFolders.getD []
  initializationOptions := p.initializationOptions

namespace Session

variable {s : Server} {session : Session} {incoming : Incoming}

theorem start_of_unstarted (h : session.state = .unstarted) (p : SessionParams)
    (capabilities : ServerCapabilities) (info : Option ProgramInfo) :
    ∃ result, result.capabilities.positionEncoding = some (s.agreed p).positionEncoding ∧
      session.start p capabilities info s.options.positionEncodings =
        .ok (result, { session with
          state := .initializing, trace := p.trace.getD session.trace
          negotiated := some (s.agreed p) }) := by
  rw [start, if_pos h]
  exact ⟨_, rfl, rfl⟩

/-- The ways in which a session that is not over can go on with a piece: it is the one awaited, it
asks once more to wind down, or it is the client's leave; anything else changes the level of tracing
at most. -/
inductive Moves (s : Server) (session : Session) (incoming : Incoming) : Session → Prop where
  | introduced (p : SessionParams) (hstate : session.state = .unstarted)
      (hp : incoming.introduction? = some p) :
      Moves s session incoming { session with
        state := .initializing, trace := p.trace.getD session.trace
        negotiated := some (s.agreed p) }
  | confirmed (hstate : session.state = .initializing) (h : incoming.isConfirmation = true) :
      Moves s session incoming { session with state := .active }
  | asked (hstate : session.state = .active ∨ session.state = .shuttingDown)
      (h : incoming.isShutdown = true) : Moves s session incoming session.shutdown
  | left (h : incoming.isExit = true) : Moves s session incoming { session with state := .exited }
  | stayed (trace : TraceLevel) (hawaits : session.state.awaits incoming = false)
      (hexit : incoming.isExit = false) : Moves s session incoming { session with trace := trace }

theorem Moves.same (hawaits : session.state.awaits incoming = false)
    (hexit : incoming.isExit = false) : Moves s session incoming session :=
  .stayed session.trace hawaits hexit

theorem hear_request (hliving : session.state ≠ .exited) (r : Request) :
    Moves s session (.message (.request r)) (session.hear s (.message (.request r))) := by
  have hhear : session.hear s (.message (.request r)) = session.serve s (.request r) := rfl
  rw [hhear, serve]
  cases hstate : session.state with
  | unstarted =>
      by_cases hmethod : r.method = Method.handshake
      · cases hparams : SessionParams.codec.parseParams (r.params.getD .null) with
        | error fault =>
            have hintro : (Incoming.message (.request r)).introduction? = none := by
              simp [Incoming.introduction?, hmethod, hparams, Except.toOption]
            simp only [admitRequest, hstate, if_pos hmethod]
            exact .same (by simp [hstate, SessionState.awaits, hintro]) rfl
        | ok p =>
            have hintro : (Incoming.message (.request r)).introduction? = some p := by
              simp [Incoming.introduction?, hmethod, hparams, Except.toOption]
            obtain ⟨result, -, hstart⟩ :=
              start_of_unstarted (s := s) hstate p s.advertised s.options.serverInfo
            simp only [admitRequest, hstate, if_pos hmethod, hstart]
            exact .introduced p hstate hintro
      · have hintro : (Incoming.message (.request r)).introduction? = none := if_neg hmethod
        simp only [admitRequest, hstate, if_neg hmethod]
        exact .same (by simp [hstate, SessionState.awaits, hintro]) rfl
  | initializing =>
      have hrefused : ∃ fault, session.admitRequest r.method = .error fault := by
        simp only [admitRequest, hstate]
        split
        · exact ⟨_, rfl⟩
        · exact ⟨_, rfl⟩
      obtain ⟨fault, hrefused⟩ := hrefused
      simp only [hrefused]
      exact .same (by rw [hstate]; rfl) rfl
  | active =>
      by_cases hhandshake : r.method = Method.handshake
      · have hshutdown : r.method ≠ Method.shutdown := by rw [hhandshake]; decide
        simp only [admitRequest, hstate, if_pos hhandshake]
        exact .same (by rw [hstate]; exact decide_eq_false hshutdown) rfl
      · simp only [admitRequest, hstate, if_neg hhandshake]
        by_cases hshutdown : r.method = Method.shutdown
        · rw [if_pos hshutdown]
          exact .asked (.inl hstate) (decide_eq_true hshutdown)
        · rw [if_neg hshutdown]
          exact .same (by rw [hstate]; exact decide_eq_false hshutdown) rfl
  | shuttingDown =>
      by_cases hshutdown : r.method = Method.shutdown
      · have hhandshake : r.method ≠ Method.handshake := by rw [hshutdown]; decide
        simp only [admitRequest, hstate, if_pos hshutdown, if_neg hhandshake]
        exact .asked (.inr hstate) (decide_eq_true hshutdown)
      · simp only [admitRequest, hstate, if_neg hshutdown]
        exact .same (by rw [hstate]; rfl) rfl
  | exited => exact absurd hstate hliving

theorem hear_notification (hliving : session.state ≠ .exited) (n : Notification) :
    Moves s session (.message (.notification n)) (session.hear s (.message (.notification n))) := by
  unfold hear serve
  dsimp only
  by_cases hexit : n.method = Method.exit
  · have hadmits : session.admits (.message (.notification n)) = true := by
      rw [admits, hexit]
      exact Connection.admitNotification_exit hliving
    rw [if_pos hadmits, if_pos hexit]
    exact .left (decide_eq_true hexit)
  have hstays : (Incoming.message (.notification n)).isExit = false := decide_eq_false hexit
  split
  · split
    · next hconfirmed =>
        unfold confirm
        split
        · next hstate => exact .confirmed hstate (decide_eq_true hconfirmed)
        · next hstate =>
            refine .same ?_ hstays
            cases hother : session.state with
            | initializing => exact absurd hother hstate
            | _ => rfl
    · next hconfirmed =>
        have hawaits : session.state.awaits (.message (.notification n)) = false := by
          cases session.state with
          | initializing => exact decide_eq_false hconfirmed
          | _ => rfl
        split
        · split
          · exact .stayed _ hawaits hstays
          · exact .same hawaits hstays
        · exact .same hawaits hstays
  · next hrefused =>
      -- Only a session that waits to be confirmed awaits a notification, and it admits that one.
      refine .same ?_ hstays
      cases hstate : session.state with
      | initializing =>
          refine decide_eq_false fun hconfirmed => hrefused ?_
          simp [admits, admitNotification, hstate, hconfirmed]
      | _ => rfl

/-- **What a piece does to a session that is not over.** -/
theorem hear_moves (s : Server) (hliving : session.state ≠ .exited) (incoming : Incoming) :
    Moves s session incoming (session.hear s incoming) := by
  match incoming with
  | .message (.request r) => exact hear_request hliving r
  | .message (.notification n) => exact hear_notification hliving n
  | .message (.response r) => exact .same (by cases session.state with | _ => rfl) rfl
  | .unreadable fault => exact .same (by cases session.state with | _ => rfl) rfl
  | .ended ending => exact .same (by cases session.state with | _ => rfl) rfl

/-! ## What many pieces do -/

/-- A session that is not over: it has been asked to wind down if it does, and something has been
agreed on if it has started. -/
structure Sane (session : Session) : Prop where
  living : session.state ≠ .exited
  requested : session.shutdownRequested = true ↔ session.state = .shuttingDown
  agreed : session.negotiated = none ↔ session.state = .unstarted

theorem Sane.fresh : fresh.Sane := ⟨by decide, by decide, by decide⟩

theorem Sane.exists_negotiated (h : session.Sane) (hactive : session.state = .active) :
    ∃ n, session.negotiated = some n := by
  cases hnegotiated : session.negotiated with
  | none =>
      rw [h.agreed, hactive] at hnegotiated
      cases hnegotiated
  | some n => exact ⟨n, rfl⟩

theorem Sane.hear (h : session.Sane) (s : Server) (hexit : incoming.isExit = false) :
    (session.hear s incoming).Sane := by
  have hmoves := hear_moves s h.living incoming
  generalize session.hear s incoming = session' at hmoves ⊢
  cases hmoves with
  | introduced p hstate hp =>
      have hquiet : session.shutdownRequested ≠ true := by simp [h.requested, hstate]
      exact ⟨SessionState.noConfusion, by simp [hquiet], by simp⟩
  | confirmed hstate hconfirmed =>
      have hquiet : session.shutdownRequested ≠ true := by simp [h.requested, hstate]
      have hsome : session.negotiated ≠ none := by simp [h.agreed, hstate]
      exact ⟨SessionState.noConfusion, by simp [hquiet], by simp [hsome]⟩
  | asked hstate hasked =>
      have hsome : session.negotiated ≠ none := by
        rw [Ne, h.agreed]
        rcases hstate with hstate | hstate
        · simp [hstate]
        · simp [hstate]
      exact ⟨SessionState.noConfusion, by simp [shutdown], by simp [shutdown, hsome]⟩
  | left hleft =>
      rw [hleft] at hexit
      cases hexit
  | stayed trace hawaits _ => exact ⟨h.living, h.requested, h.agreed⟩

theorem Sane.foldl_hear (h : session.Sane) (s : Server) (incomings : List Incoming)
    (hstay : ∀ incoming ∈ incomings, incoming.isExit = false) :
    (incomings.foldl (Session.hear s) session).Sane := by
  induction incomings generalizing session with
  | nil => exact h
  | cons incoming rest ih =>
      have ⟨hfirst, hrest⟩ := List.forall_mem_cons.1 hstay
      exact ih (h.hear s hfirst) hrest

/-- Hearing something crosses off the milestone that it is. -/
theorem inOrder_milestones_hear (h : session.Sane) (s : Server) (hexit : incoming.isExit = false)
    (rest : List Incoming) :
    inOrder (session.hear s incoming).state.milestones rest =
      inOrder session.state.milestones (incoming :: rest) := by
  have hmoves := hear_moves s h.living incoming
  generalize session.hear s incoming = session' at hmoves ⊢
  cases hmoves with
  | introduced p hstate hp =>
      have hawaits : SessionState.unstarted.awaits incoming = true := by
        simp [SessionState.awaits, hp]
      rw [hstate]
      exact (if_pos hawaits).symm
  | confirmed hstate hconfirmed =>
      rw [hstate]
      exact (if_pos hconfirmed).symm
  | asked hstate hasked =>
      rcases hstate with hstate | hstate
      · rw [hstate]
        have hrest : inOrder [] rest = true := by cases rest with | _ => rfl
        exact hrest.trans ((if_pos hasked).trans hrest).symm
      · rw [hstate]
        cases rest with
        | _ => rfl
  | left hleft =>
      rw [hleft] at hexit
      cases hexit
  | stayed trace hawaits _ =>
      have hother := Bool.eq_false_iff.1 hawaits
      cases hstate : session.state with
      | unstarted => rw [hstate] at hother; exact (if_neg hother).symm
      | initializing => rw [hstate] at hother; exact (if_neg hother).symm
      | active => rw [hstate] at hother; exact (if_neg hother).symm
      | shuttingDown => cases rest with | _ => rfl
      | exited => exact absurd hstate h.living

/-- **Whether the session has been asked to wind down shows whether the milestones have been
passed.** -/
theorem requested_foldl_hear (h : session.Sane) (s : Server) (incomings : List Incoming)
    (hstay : ∀ incoming ∈ incomings, incoming.isExit = false) :
    (incomings.foldl (Session.hear s) session).shutdownRequested =
      inOrder session.state.milestones incomings := by
  induction incomings generalizing session with
  | nil =>
      have hrequested := h.requested
      rw [List.foldl_nil]
      cases hstate : session.state with
      | shuttingDown => exact hrequested.2 hstate
      | exited => exact absurd hstate h.living
      | _ =>
          rw [hstate] at hrequested
          exact Bool.eq_false_iff.2 fun htrue => SessionState.noConfusion (hrequested.1 htrue)
  | cons incoming rest ih =>
      have ⟨hfirst, hrest⟩ := List.forall_mem_cons.1 hstay
      rw [List.foldl_cons, ih (h.hear s hfirst) hrest, inOrder_milestones_hear h s hfirst]

theorem hear_negotiated (h : session.Sane) (s : Server) (incoming : Incoming) :
    (session.hear s incoming).negotiated =
      session.negotiated.or (incoming.introduction?.map s.agreed) := by
  have hsome : session.state ≠ .unstarted → ∀ other, session.negotiated.or other =
      session.negotiated := by
    intro hstate other
    cases hnegotiated : session.negotiated with
    | none => exact absurd (h.agreed.1 hnegotiated) hstate
    | some n => rfl
  have hmoves := hear_moves s h.living incoming
  generalize session.hear s incoming = session' at hmoves ⊢
  cases hmoves with
  | introduced p hstate hp => rw [h.agreed.2 hstate, hp]; rfl
  | confirmed hstate _ => exact (hsome (by simp [hstate]) _).symm
  | asked hstate _ =>
      refine (hsome ?_ _).symm
      rcases hstate with hstate | hstate
      · simp [hstate]
      · simp [hstate]
  | left hleft =>
      have hother : incoming.introduction? = none := by
        match incoming, hleft with
        | .message (.notification n), _ => rfl
      rw [hother]
      simp
  | stayed trace hawaits _ =>
      by_cases hstate : session.state = .unstarted
      · rw [hstate, SessionState.awaits, Option.isSome_eq_false_iff, Option.isNone_iff_eq_none] at hawaits
        rw [hawaits]
        simp
      · exact (hsome hstate _).symm

/-- **What is agreed on was agreed on with the first who introduced itself readably.** -/
theorem negotiated_foldl_hear (h : session.Sane) (s : Server) (incomings : List Incoming)
    (hstay : ∀ incoming ∈ incomings, incoming.isExit = false) :
    (incomings.foldl (Session.hear s) session).negotiated =
      session.negotiated.or ((incomings.findSome? Incoming.introduction?).map s.agreed) := by
  induction incomings generalizing session with
  | nil => simp
  | cons incoming rest ih =>
      have ⟨hfirst, hrest⟩ := List.forall_mem_cons.1 hstay
      rw [List.foldl_cons, ih (h.hear s hfirst) hrest, hear_negotiated h, List.findSome?_cons,
        Option.or_assoc]
      cases incoming.introduction? with
      | none => rfl
      | some p => rfl

end Session

namespace Connection

variable {c : Connection}

/-! ## Stages -/

theorem fate_of_deals {e : Event} {incoming : Incoming} (h : c.deals? e = some incoming) :
    c.fate = none := by
  cases hfate : c.fate with
  | none => rfl
  | some ending =>
      rw [deals?_of_fate hfate e] at h
      cases h

/-- **The session goes forward by one stage, or it is over since the client left.** -/
theorem step_state (horderly : c.Orderly) (s : Server) (e : Event) :
    (c.step s e).session.state = c.session.state ∨
    c.session.state.next? = some (c.step s e).session.state ∨
    ((c.step s e).session.state = .exited ∧
      ∃ incoming, c.deals? e = some incoming ∧ incoming.isExit = true) := by
  rw [(step_hears horderly s e).session_eq]
  cases hdeals : c.deals? e with
  | none => exact .inl rfl
  | some incoming =>
      have hmoves := Session.hear_moves s (horderly.living (fate_of_deals hdeals)) incoming
      rw [Option.elim_some]
      generalize c.session.hear s incoming = session' at hmoves ⊢
      cases hmoves with
      | introduced p hstate hp => exact .inr (.inl (by rw [hstate]; rfl))
      | confirmed hstate _ => exact .inr (.inl (by rw [hstate]; rfl))
      | asked hstate _ =>
          rcases hstate with hstate | hstate
          · exact .inr (.inl (by rw [hstate]; rfl))
          · exact .inl (by rw [hstate]; rfl)
      | left hleft => exact .inr (.inr ⟨rfl, incoming, rfl, hleft⟩)
      | stayed trace _ _ => exact .inl rfl

/-! ## Agreements -/

theorem isExit_of_isStop {incoming : Incoming} (h : incoming.isStop = false) :
    incoming.isExit = false := ((Bool.or_eq_false_iff ..).1 h).1

/-- What the reader has heard is a list without an end, and perhaps the end after that. -/
theorem heard_split (s : Server) (events : List Event) :
    ∃ done last, fresh.heard s events = done ++ last ∧ last.length ≤ 1 ∧
      ∀ incoming ∈ done, incoming.isExit = false := by
  obtain ⟨hnone, hsome⟩ := run_fate Orderly.fresh s events rfl
  cases hfate : (fresh.run s events).fate with
  | none =>
      refine ⟨fresh.heard s events, [], (List.append_nil _).symm, Nat.zero_le 1, fun x hx => ?_⟩
      exact isExit_of_isStop (hnone hfate x hx)
  | some ending =>
      obtain ⟨done, stop, hheard, hdone, -⟩ := hsome ending hfate
      exact ⟨done, [stop], hheard, Nat.le_refl 1, fun x hx => isExit_of_isStop (hdone x hx)⟩

theorem run_negotiated (s : Server) (events : List Event) :
    (fresh.run s events).session.negotiated =
      ((fresh.heard s events).findSome? Incoming.introduction?).map s.agreed := by
  obtain ⟨done, last, hheard, hlast, hdone⟩ := heard_split s events
  have hsane := Session.Sane.fresh.foldl_hear s done hdone
  have hnegotiated := Session.negotiated_foldl_hear Session.Sane.fresh s done hdone
  have hsession : fresh.session = Session.fresh := rfl
  have hnothing : Session.fresh.negotiated = none := rfl
  rw [hnothing, Option.none_or] at hnegotiated
  rw [run_session Orderly.fresh, hheard, hsession, List.foldl_append, List.findSome?_append]
  cases last with
  | nil => rw [List.foldl_nil, hnegotiated, List.findSome?_nil, Option.or_none]
  | cons stop rest =>
      obtain rfl : rest = [] :=
        List.length_eq_zero_iff.1 (Nat.le_zero.1 (Nat.le_of_succ_le_succ hlast))
      rw [List.foldl_cons, List.foldl_nil, Session.hear_negotiated hsane, hnegotiated,
        List.findSome?_singleton, Option.map_or]

/-- What has been agreed on stays. -/
theorem negotiated_run {s : Server} {events : List Event} {n : Negotiated}
    (h : (fresh.run s events).session.negotiated = some n) (more : List Event) :
    ((fresh.run s events).run s more).session.negotiated = some n := by
  rw [run_negotiated] at h
  rw [← run_append, run_negotiated, heard_append, List.findSome?_append, Option.map_or, h]
  rfl

/-! ## The end -/

theorem ending?_eq_some {session : Session} {stop : Incoming} {ending : Ending}
    (h : session.ending? stop = some ending) :
    (∃ fault, stop = .ended fault ∧ ending = .ofInput fault) ∨
      stop.isExit = true ∧ ending = .status session.exit.1 := by
  match stop with
  | .message (.notification n) =>
      rw [Session.ending?] at h
      split at h
      · next hexit => exact .inr ⟨decide_eq_true hexit, (Option.some.inj h).symm⟩
      · cases h
  | .ended fault => exact .inl ⟨fault, rfl, (Option.some.inj h).symm⟩

/-- **A connection that has ended ended with the first piece that could end it**, with the status
that what came before calls for. -/
theorem ending_run {s : Server} {events : List Event} {ending : Ending}
    (h : (fresh.run s events).ending = some ending) :
    ∃ before stop after, arrivals events = before ++ stop :: after ∧
      (∀ incoming ∈ before, incoming.isStop = false) ∧ stop.isStop = true ∧
      ((∃ fault, stop = .ended fault ∧ ending = .ofInput fault) ∨
        stop.isExit = true ∧ ending = .status (farewell before)) := by
  have hfate : (fresh.run s events).fate = some ending := by rw [fate, h]; rfl
  obtain ⟨done, stop, hheard, hdone, hends⟩ :=
    (run_fate Orderly.fresh s events rfl).2 ending hfate
  obtain ⟨lost, harrivals, -⟩ := run_ahead Orderly.fresh s events
  have hstay : ∀ incoming ∈ done, incoming.isExit = false := fun x hx => isExit_of_isStop (hdone x hx)
  refine ⟨done, stop, (fresh.run s events).ahead ++ lost, ?_, hdone, ?_, ?_⟩
  · have hempty : fresh.ahead = [] := rfl
    rw [hheard, hempty, List.nil_append] at harrivals
    rw [harrivals]
    simp only [List.append_assoc, List.cons_append, List.nil_append]
  · rw [← Session.isSome_ending?, hends]
    rfl
  · rcases ending?_eq_some hends with hended | ⟨hexit, hstatus⟩
    · exact .inl hended
    · refine .inr ⟨hexit, ?_⟩
      have hrequested := Session.requested_foldl_hear Session.Sane.fresh s done hstay
      have htakes := takesLeave_iff done
      rw [hstatus, Session.exit, farewell]
      change (done.foldl (Session.hear s) fresh.session).shutdownRequested = _ at hrequested
      simp only [hrequested]
      simp only [← htakes]
      rfl

/-! ## Getting there -/

/-- How many turns the reader takes at most for what waits, up to the first piece that ends the
connection and until it has. -/
def turnsFor : List Incoming → Nat
  | [] => 5
  | incoming :: rest => if incoming.isStop then 5 else 5 + turnsFor rest

theorem turnsFor_append {incomings : List Incoming} (h : ∃ x ∈ incomings, x.isStop = true)
    (more : List Incoming) : turnsFor (incomings ++ more) = turnsFor incomings := by
  induction incomings with
  | nil =>
      obtain ⟨x, hmem, -⟩ := h
      cases hmem
  | cons incoming rest ih =>
      rw [List.cons_append, turnsFor, turnsFor]
      split
      · rfl
      · next hgoes =>
          obtain ⟨x, hmem, hstop⟩ := h
          rcases List.mem_cons.1 hmem with rfl | hrest
          · exact absurd hstop hgoes
          · rw [ih ⟨x, hrest, hstop⟩]

theorem turnsFor_pos (incomings : List Incoming) : 0 < turnsFor incomings := by
  cases incomings with
  | nil => decide
  | cons incoming rest =>
      rw [turnsFor]
      split
      · decide
      · omega

/-- How many turns the reader takes at most from a stage on, if what waits takes so many. -/
def stageTurns (waiting : Nat) : Reading → Nat
  | .idle => waiting
  | .synced .. | .answering _ => 1 + waiting
  | .forgotten _ => 2 + waiting
  | .noted m => if (Incoming.message m).isExit then 3 else 3 + waiting
  | .taken m => if (Incoming.message m).isExit then 4 else 4 + waiting
  | .dropped _ => 2
  | .leaving _ => 1

/-- How many turns the reader takes at most until the connection has ended, if it is going to. -/
def turns (c : Connection) : Nat :=
  if c.ending.isSome then 0 else stageTurns (turnsFor c.inbox) c.reading

theorem turns_of_ending (h : c.ending = none) :
    c.turns = stageTurns (turnsFor c.inbox) c.reading := by
  simp [turns, h]

theorem turns_pos (h : c.ending = none) : 0 < c.turns := by
  have hwaiting := turnsFor_pos c.inbox
  rw [turns_of_ending h]
  unfold stageTurns
  split
  · exact hwaiting
  · omega
  · omega
  · omega
  · split <;> omega
  · split <;> omega
  · omega
  · omega

theorem turns_lt {c' : Connection} (hending : c.ending = none) (hopen : c'.ending = none)
    (hinbox : c'.inbox = c.inbox)
    (h : stageTurns (turnsFor c.inbox) c'.reading < stageTurns (turnsFor c.inbox) c.reading) :
    c'.turns < c.turns := by
  rw [turns_of_ending hending, turns_of_ending hopen, hinbox]
  exact h

theorem turnsFor_cons_of_goes {incoming : Incoming} (h : incoming.isStop = false)
    (rest : List Incoming) : turnsFor (incoming :: rest) = 5 + turnsFor rest := by
  rw [turnsFor, h, if_neg Bool.false_ne_true]

theorem take_turns (hliving : c.session.state ≠ .exited) (hending : c.ending = none)
    (hidle : c.reading = .idle) (incoming : Incoming) :
    (c.take incoming).turns < turnsFor (incoming :: c.inbox) := by
  have hsame : c.turns = turnsFor c.inbox := by rw [turns_of_ending hending, hidle]; rfl
  have hturns : ∀ reading, { c with reading := reading : Connection }.turns =
      stageTurns (turnsFor c.inbox) reading := fun _ => turns_of_ending hending
  match incoming with
  | .message (.response r) =>
      rw [take, hturns, turnsFor_cons_of_goes rfl]
      exact Nat.add_lt_add_right (by decide) _
  | .message (.request r) =>
      rw [take, hturns, turnsFor_cons_of_goes rfl]
      exact Nat.add_lt_add_right (by decide) _
  | .message (.notification n) =>
      rw [take]
      by_cases hexit : n.method = Method.exit
      · have hadmits : c.session.admitNotification n.method = true := by
          rw [hexit]
          exact admitNotification_exit hliving
        rw [if_pos hadmits, hturns]
        simp [stageTurns, turnsFor, Incoming.isStop, Incoming.isExit, hexit]
      · have hgoes : (Incoming.message (.notification n)).isStop = false := by
          simp [Incoming.isStop, Incoming.isExit, Incoming.ended?, hexit]
        rw [turnsFor_cons_of_goes hgoes]
        split
        · rw [hturns]
          simp [stageTurns, Incoming.isExit, hexit]
        · omega
  | .unreadable fault =>
      rw [take, turnsFor_cons_of_goes rfl]
      split
      · rw [hturns]
        exact Nat.add_lt_add_right (by decide) _
      · omega
  | .ended fault =>
      have hdrop : (c.take (.ended fault)).turns = 2 := turns_of_ending hending
      rw [hdrop]
      exact (by decide : 2 < 5)

theorem serve_turns (hending : c.ending = none) {m : Message} (hnoted : c.reading = .noted m)
    (s : Server) : (c.serve s m).turns < c.turns := by
  obtain ⟨hinbox, hopen, hreading⟩ := serve_reading s m c
  have hstop := c.session.isSome_ending? (.message m)
  rw [turns_of_ending hending, turns_of_ending (hopen.trans hending), hinbox, hnoted]
  cases hends : c.session.ending? (.message m) with
  | some ending =>
      rw [hends] at hreading hstop
      have hexit : (Incoming.message m).isExit = true := by
        simpa [Incoming.isStop, Incoming.ended?] using hstop.symm
      simp only [hreading, stageTurns, hexit, if_pos]
      decide
  | none =>
      rw [hends] at hreading hstop
      have hexit : (Incoming.message m).isExit = false := isExit_of_isStop hstop.symm
      rcases hreading with
        hreading | ⟨m', hreading⟩ | ⟨params, hreading⟩ | ⟨method, params, hreading⟩
      · simp only [hreading, stageTurns, hexit, if_neg Bool.false_ne_true]
        omega
      · simp only [hreading, stageTurns, hexit, if_neg Bool.false_ne_true]
        omega
      · simp only [hreading, stageTurns, hexit, if_neg Bool.false_ne_true]
        omega
      · simp only [hreading, stageTurns, hexit, if_neg Bool.false_ne_true]
        omega

/-- **Each turn brings the reader nearer to the end.** -/
theorem stepReader_turns (h : c.WillEnd) (horderly : c.Orderly) (hending : c.ending = none)
    (s : Server) : (c.stepReader s).turns < c.turns := by
  unfold stepReader
  split
  · next hidle =>
      have hliving := horderly.living (fate_of_idle hending hidle)
      split
      · next hinbox => exact absurd hinbox (h.inbox_ne_nil hending hidle)
      · next incoming rest hinbox =>
          have hturns : c.turns = turnsFor (incoming :: rest) := by
            rw [turns_of_ending hending, hidle, hinbox]
            rfl
          rw [hturns]
          exact take_turns (c := { c with inbox := rest }) hliving hending hidle incoming
  · next m htaken =>
      obtain ⟨link, hnote, -⟩ := c.note_eq m
      rw [hnote]
      refine turns_lt hending hending rfl ?_
      simp only [htaken, stageTurns]
      split <;> omega
  · next m hnoted => exact serve_turns hending hnoted s
  · next params hforgotten =>
      refine turns_lt hending hending rfl ?_
      simp only [sync, hforgotten, stageTurns]
      omega
  · next method params hsynced =>
      obtain ⟨queue, hqueue⟩ := enqueue_eq s method params { c with reading := .idle }
      rw [hqueue]
      refine turns_lt hending hending rfl ?_
      simp only [hsynced, stageTurns]
      omega
  · next m hanswering =>
      refine turns_lt hending hending rfl ?_
      simp only [hanswering, stageTurns]
      omega
  · next ending hdropped =>
      refine turns_lt hending hending rfl ?_
      simp [hdropped, stageTurns]
  · exact turns_pos hending

/-- What comes in behind the end does not keep the reader from it. -/
theorem stageTurns_append (h : c.WillEnd) (hending : c.ending = none) (more : List Incoming) :
    stageTurns (turnsFor (c.inbox ++ more)) c.reading =
      stageTurns (turnsFor c.inbox) c.reading := by
  by_cases hinbox : ∃ x ∈ c.inbox, x.isStop = true
  · rw [turnsFor_append hinbox]
  · -- The end is at hand, and the reader looks at the inbox no more.
    cases hreading : c.reading with
    | dropped ending => rfl
    | leaving ending => rfl
    | taken m | noted m =>
        have hexit : (Incoming.message m).isExit = true := by
          rcases h with hfate | ⟨x, hmem, hstop⟩
          · rw [fate_of_ending hending, hreading] at hfate
            exact absurd rfl hfate
          · rw [ahead, hreading] at hmem
            rcases List.mem_cons.1 hmem with rfl | hrest
            · simpa [Incoming.isStop, Incoming.ended?] using hstop
            · exact absurd ⟨x, hrest, hstop⟩ hinbox
        simp only [stageTurns, hexit, if_pos]
    | idle | forgotten params | synced method params | answering m =>
        rcases h with hfate | ⟨x, hmem, hstop⟩
        · rw [fate_of_ending hending, hreading] at hfate
          exact absurd rfl hfate
        · rw [ahead, hreading] at hmem
          exact absurd ⟨x, hmem, hstop⟩ hinbox

theorem step_turns (h : c.WillEnd) (horderly : c.Orderly) (s : Server) (e : Event) :
    (c.step s e).turns ≤ c.turns - [e].count .reader := by
  cases hending : c.ending with
  | some ending =>
      have hover := (step_of_ending s e hending).1
      simp [turns, hover]
  | none =>
      have hstep : c.step s e = c.handle s e := by simp only [step, hending]
      rw [hstep]
      by_cases hreader : e = .reader
      · subst hreader
        have hturns := stepReader_turns h horderly hending s
        rw [List.count_singleton_self]
        exact Nat.le_sub_one_of_lt hturns
      · have hcount : [e].count .reader = 0 := by simp [hreader]
        rw [hcount, Nat.sub_zero]
        cases hincoming : e.incoming? with
        | none =>
            have hsame := handle_sameReading s hincoming hreader c
            simp only [turns, hsame.ending, hsame.inbox, hsame.reading, Nat.le_refl]
        | some incoming =>
            obtain rfl := Event.eq_received hincoming
            have hsame := stageTurns_append h hending [incoming]
            rw [turns_of_ending hending, turns_of_ending (by exact hending)]
            exact Nat.le_of_eq hsame

/-- **The connection ends once the reader has had its turns.** -/
theorem run_turns (h : c.WillEnd) (horderly : c.Orderly) (s : Server) (events : List Event) :
    (c.run s events).turns ≤ c.turns - events.count .reader := by
  induction events generalizing c with
  | nil => exact Nat.le_refl _
  | cons e events ih =>
      have hstep := step_turns h horderly s e
      have hrest := ih (h.step horderly s e) (step_hears horderly s e).orderly
      have hcount : (e :: events).count .reader = [e].count .reader + events.count .reader := by
        rw [← List.singleton_append, List.count_append]
      rw [run_cons, hcount]
      omega

/-! ## The whole life -/

theorem first_stop_unique {before before' after after' : List Incoming} {stop stop' : Incoming}
    (h : before ++ stop :: after = before' ++ stop' :: after')
    (hbefore : ∀ x ∈ before, x.isStop = false) (hstop : stop.isStop = true)
    (hbefore' : ∀ x ∈ before', x.isStop = false) (hstop' : stop'.isStop = true) :
    before = before' ∧ stop = stop' := by
  induction before generalizing before' with
  | nil =>
      cases before' with
      | nil => exact ⟨rfl, (List.cons.inj h).1⟩
      | cons x before' =>
          have hgoes := hbefore' x (List.mem_cons_self ..)
          rw [← (List.cons.inj h).1, hstop] at hgoes
          cases hgoes
  | cons x before ih =>
      cases before' with
      | nil =>
          have hgoes := hbefore x (List.mem_cons_self ..)
          rw [(List.cons.inj h).1, hstop'] at hgoes
          cases hgoes
      | cons x' before' =>
          obtain ⟨rfl, hrest⟩ := List.cons.inj h
          obtain ⟨rfl, hsame⟩ := ih hrest (fun y hy => hbefore y (List.mem_cons_of_mem _ hy))
            fun y hy => hbefore' y (List.mem_cons_of_mem _ hy)
          exact ⟨rfl, hsame⟩

/-- Once something that ends the connection has come in, the connection is going to end. -/
theorem willEnd_of_arrivals {s : Server} {events : List Event} (stop : Incoming)
    (hmem : stop ∈ arrivals events) (hstop : stop.isStop = true) : (fresh.run s events).WillEnd := by
  cases hfate : (fresh.run s events).fate with
  | some ending => exact .inl (by rw [hfate]; simp)
  | none =>
      have hending : (fresh.run s events).ending = none := (Option.or_eq_none_iff.1 hfate).1
      obtain ⟨lost, harrivals, hlost⟩ := run_ahead Orderly.fresh s events
      have hempty : fresh.ahead = [] := rfl
      rw [hempty, hlost hending, List.nil_append, List.append_nil] at harrivals
      rw [harrivals] at hmem
      rcases List.mem_append.1 hmem with hheard | hahead
      · have hgoes := (run_fate Orderly.fresh s events rfl).1 hfate stop hheard
        rw [hstop] at hgoes
        cases hgoes
      · exact .inr ⟨stop, hahead, hstop⟩

theorem isStop_of_isExit {incoming : Incoming} (h : incoming.isExit = true) :
    incoming.isStop = true := by
  rw [Incoming.isStop, h, Bool.true_or]

theorem arrivals_append (earlier later : List Event) :
    arrivals (earlier ++ later) = arrivals earlier ++ arrivals later := List.filterMap_append ..

/-- When the client has left and the reader gets its turns, the connection ends with the status that
is due. -/
theorem run_ends (s : Server) {events : List Event} {before after : List Incoming} {stop : Incoming}
    (harrivals : arrivals events = before ++ stop :: after)
    (hbefore : ∀ incoming ∈ before, incoming.isStop = false) (hexit : stop.isExit = true) :
    ∃ turns, ∀ more : List Event, turns ≤ more.count .reader →
      ((fresh.run s events).run s more).ending = some (.status (farewell before)) := by
  have hstop := isStop_of_isExit hexit
  have hwill : (fresh.run s events).WillEnd :=
    willEnd_of_arrivals stop (by rw [harrivals]; simp) hstop
  refine ⟨(fresh.run s events).turns, fun more hmore => ?_⟩
  have hturns := run_turns hwill (run_orderly Orderly.fresh s events) s more
  cases hending : ((fresh.run s events).run s more).ending with
  | none =>
      have hpos := turns_pos hending
      omega
  | some ending =>
      rw [← run_append] at hending
      obtain ⟨before', stop', after', harrivals', hbefore', hstop', hends⟩ := ending_run hending
      rw [arrivals_append, harrivals, List.append_assoc, List.cons_append] at harrivals'
      obtain ⟨rfl, rfl⟩ := first_stop_unique harrivals' hbefore hstop hbefore' hstop'
      rcases hends with ⟨fault, rfl, -⟩ | ⟨-, rfl⟩
      · cases hexit
      · rfl

/-- **What comes in after the client has left changes nothing but what is left unread.** -/
theorem run_after_exit (s : Server) (earlier later : List Event) {stop : Incoming}
    (hexit : stop.isExit = true) :
    (fresh.run s (earlier ++ .received stop :: later)).withInbox [] =
      (fresh.run s (earlier ++ .received stop :: quiet later)).withInbox [] := by
  let c := fresh.run s (earlier ++ [.received stop])
  have hwill : c.WillEnd := by
    refine willEnd_of_arrivals stop ?_ (isStop_of_isExit hexit)
    rw [arrivals_append]
    exact List.mem_append_right _ (List.mem_cons_self ..)
  obtain ⟨extra, hrun⟩ := run_quiet hwill (run_orderly Orderly.fresh s _) s later []
  have hsame : c.extend [] = c := by simp [extend, withInbox]
  have hsplit : ∀ events, fresh.run s (earlier ++ .received stop :: events) = c.run s events := by
    intro events
    rw [← run_append]
    simp
  rw [hsplit, hsplit, ← hsame, hrun, hsame]
  rfl

/-- **The life of a session, whatever happens to the connection and in whatever order.** The session
goes through its stages one by one, except that it is over as soon as the client leaves. The
connection ends with the first piece that came in and could end it; if the client left with it, then
cleanly just if it had introduced itself, confirmed that and asked to wind down before, in this order.
It does end once the reader has had its turns, and what comes in after the client left makes no
difference to anything but what is left unread. What the two sides agree on is fixed by the first
readable introduction. -/
theorem run_lifecycle (s : Server) (events : List Event) :
    let c := fresh.run s events
    (∀ e, (c.step s e).session.state = c.session.state ∨
      c.session.state.next? = some (c.step s e).session.state ∨
      ((c.step s e).session.state = .exited ∧
        ∃ incoming, c.deals? e = some incoming ∧ incoming.isExit = true)) ∧
    (∀ ending, c.ending = some ending → ∃ before stop after,
      arrivals events = before ++ stop :: after ∧
      (∀ incoming ∈ before, incoming.isStop = false) ∧ stop.isStop = true ∧
      ((∃ fault, stop = .ended fault ∧ ending = .ofInput fault) ∨
        stop.isExit = true ∧ ending = .status (farewell before))) ∧
    (∀ before stop after, arrivals events = before ++ stop :: after →
      (∀ incoming ∈ before, incoming.isStop = false) → stop.isExit = true →
      ∃ turns, ∀ more : List Event, turns ≤ more.count .reader →
        (c.run s more).ending = some (.status (farewell before))) ∧
    (∀ earlier stop later, events = earlier ++ .received stop :: later → stop.isExit = true →
      c.withInbox [] = (fresh.run s (earlier ++ .received stop :: quiet later)).withInbox []) ∧
    (∃ heard rest, arrivals events = heard ++ rest ∧
      (c.ending = none → c.reading = .idle → c.inbox = [] → rest = []) ∧
      c.session.negotiated = (heard.findSome? Incoming.introduction?).map s.agreed) ∧
    ∀ n, c.session.negotiated = some n → ∀ more,
      (c.run s more).session.negotiated = some n := by
  intro c
  have horderly : c.Orderly := run_orderly Orderly.fresh s events
  refine ⟨fun e => step_state horderly s e, fun ending hending => ending_run hending,
    fun before stop after harrivals hbefore hexit => run_ends s harrivals hbefore hexit,
    fun earlier stop later hevents hexit => ?_, ?_,
    fun n hn more => negotiated_run hn more⟩
  · change (fresh.run s events).withInbox [] = _
    rw [hevents]
    exact run_after_exit s earlier later hexit
  · obtain ⟨rest, harrivals, hrest⟩ := exists_arrivals_eq s events
    exact ⟨fresh.heard s events, rest, harrivals, hrest, run_negotiated s events⟩

/-- A client that asks to wind down too early, introduces itself unreadably and once too often, and
says some things as requests that are notifications and the other way round, before it leaves. -/
def noisyClient : List Incoming :=
  let request (method : String) (params : Json) : Incoming :=
    .message (.request ⟨.number 1, method, some params⟩)
  let notification (method : String) : Incoming := .message (.notification ⟨method, none⟩)
  let capabilities : Json := .obj [("capabilities", .obj [])]
  [request Method.shutdown .null, notification Method.confirmed,
   request Method.handshake (.arr []), request Method.handshake capabilities,
   request Method.exit .null, notification Method.shutdown,
   notification Method.confirmed, request Method.handshake capabilities,
   request Method.shutdown .null, notification Method.exit, notification Method.exit]

/-- The noisy client leaves cleanly, and it does so when it first says that it leaves. -/
theorem noisyClient_leaves :
    let events := noisyClient.map .received ++ List.replicate 40 .reader
    (fresh.run (.bare .default default) events).ending = some (.status .clean) ∧
    ∃ before stop after, arrivals events = before ++ stop :: after ∧
      (∀ incoming ∈ before, incoming.isStop = false) ∧ stop.isStop = true ∧
      ((∃ fault, stop = .ended fault ∧ Ending.status .clean = .ofInput fault) ∨
        stop.isExit = true ∧ Ending.status .clean = .status (farewell before)) := by
  intro events
  have hended : (fresh.run (.bare .default default) events).ending = some (.status .clean) := by
    decide +kernel
  exact ⟨hended, (run_lifecycle (.bare .default default) events).2.1 _ hended⟩

end Connection

end LanguageServer
