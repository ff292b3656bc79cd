import LanguageServer.Proofs.Server.Encoding

set_option autoImplicit false

/-! # The documents of a connection

The documents that a connection holds are those of a plain store to which the client's notifications
about documents have been applied, in the order in which they came and as far as the session was
active and they could be read (`run_settled`). A document is closed one turn after the notification is
served, since its tokens are forgotten first; in between, `settled` already counts it as closed. -/

namespace LanguageServer

/-! ## What the client says about documents -/

/-- Something that happens to a document at the client. -/
inductive Sync where
  | opened (p : DidOpenParams)
  | changed (p : DidChangeParams)
  | saved (p : DidSaveParams)
  | closed (p : DidCloseParams)

namespace Sync

/-- What a notification says about a document, if it does and can be read. -/
def read? (method : String) (params : Json) : Option Sync :=
  if method = Method.didOpen then (DidOpenParams.codec.decode params).toOption.map opened
  else if method = Method.didChange then (DidChangeParams.codec.decode params).toOption.map changed
  else if method = Method.didSave then (DidSaveParams.codec.decode params).toOption.map saved
  else if method = Method.didClose then (DidCloseParams.codec.decode params).toOption.map closed
  else none

/-- What it does to a store. -/
def apply (e : PositionEncoding) (d : DocumentStore) : Sync → Except SyncFault DocumentStore
  | opened p => d.didOpen p
  | changed p => d.didChange p e
  | saved p => d.didSave p
  | closed p => d.didClose p.textDocument.uri

/-- The store after it; if it does not fit, nothing changes. -/
def perform (e : PositionEncoding) (d : DocumentStore) (sync : Sync) : DocumentStore :=
  match sync.apply e d with
  | .error _ => d
  | .ok d => d

end Sync

/-- What something that came in says about a document. -/
def Incoming.sync? : Incoming → Option Sync
  | .message (.notification n) => Sync.read? n.method (n.params.getD .null)
  | .message _ | .unreadable _ | .ended _ => none

namespace Session

/-- What something says about a document, if the session heeds that. -/
def heeds? (session : Session) (incoming : Incoming) : Option Sync :=
  if session.state = .active then incoming.sync? else none

/-- What is said about documents while the session is active. -/
def syncs (s : Server) (session : Session) : List Incoming → List Sync
  | [] => []
  | incoming :: rest =>
    (session.heeds? incoming).toList ++ syncs s (session.hear s incoming) rest

end Session

namespace Connection

theorem syncDocuments_eq (method : String) (params : Json) (e : PositionEncoding)
    (d : DocumentStore) :
    syncDocuments method params e d = (Sync.read? method params).elim d (Sync.perform e d) := by
  unfold syncDocuments Sync.read?
  dsimp only
  split
  · cases DidOpenParams.codec.decode params with
    | error fault => rfl
    | ok p => rfl
  · split
    · cases DidChangeParams.codec.decode params with
      | error fault => rfl
      | ok p => rfl
    · split
      · cases DidSaveParams.codec.decode params with
        | error fault => rfl
        | ok p => rfl
      · split
        · cases DidCloseParams.codec.decode params with
          | error fault => rfl
          | ok p => rfl
        · rfl

/-! ## One step -/

/-- The documents, without the one that the reader is about to close. -/
def settled (c : Connection) : DocumentStore :=
  match c.reading with
  | .forgotten params => syncDocuments Method.didClose params c.session.encoding c.documents
  | _ => c.documents

theorem settled_of_reading {c : Connection} (h : ∀ params, c.reading ≠ .forgotten params) :
    c.settled = c.documents := by
  unfold settled
  split
  · next params hforgotten => exact absurd hforgotten (h params)
  · rfl

variable {c : Connection}

theorem SameReading.settled_eq {c' : Connection} (h : c.SameReading c') : c'.settled = c.settled := by
  unfold settled
  rw [h.reading, h.session, h.documents]

/-- A notification with another job says nothing about documents. -/
theorem read?_eq_none {method : String}
    (h : method = Method.exit ∨ method = Method.confirmed ∨ method = Method.cancelRequest ∨
      method = Method.setTrace) (params : Json) : Sync.read? method params = none := by
  rcases h with rfl | rfl | rfl | rfl
  · rfl
  · rfl
  · rfl
  · rfl

theorem enqueue_settled (s : Server) (method : String) (params : Json) (c : Connection) :
    (c.enqueue s method params).settled = c.settled := by
  obtain ⟨queue, hqueue⟩ := enqueue_eq s method params c
  rw [hqueue]
  rfl

/-- Serving a message does to the documents what the message says about them. -/
theorem serve_settled (s : Server) (m : Message) (c : Connection) :
    (c.serve s m).settled =
      (Incoming.message m).sync?.elim c.documents (Sync.perform c.session.encoding c.documents) := by
  cases m with
  | request r =>
      rw [serve_request]
      rcases considerRequest_cases s r { c with reading := .idle } with
        ⟨session, outcome, heq⟩ | ⟨program, -, heq⟩
      · rw [heq]
        rfl
      · rw [heq]
        rfl
  | notification n =>
      rw [serve_notification, Incoming.sync?]
      unfold serveNotification
      split
      · next hexit => rw [read?_eq_none (.inl hexit)]; rfl
      · split
        · next hconfirmed => rw [read?_eq_none (.inr (.inl hconfirmed))]; rfl
        · split
          · next hcancel =>
              rw [read?_eq_none (.inr (.inr (.inl hcancel)))]
              split
              · next p _ =>
                  obtain ⟨fired, hfired⟩ := cancel_eq p.id { c with reading := .idle }
                  rw [hfired]
                  rfl
              · rfl
          · split
            · next htrace =>
                rw [read?_eq_none (.inr (.inr (.inr htrace)))]
                split
                · rfl
                · rfl
            · split
              · next hclose =>
                  rw [hclose]
                  exact syncDocuments_eq Method.didClose _ c.session.encoding c.documents
              · exact syncDocuments_eq n.method _ c.session.encoding c.documents
  | response r => rfl

/-- An active session takes up whatever says something about documents. -/
theorem heeds?_of_not_admits {session : Session} {incoming : Incoming}
    (h : session.admits incoming = false) : session.heeds? incoming = none := by
  unfold Session.heeds?
  split
  · next hactive =>
      match incoming with
      | .message (.notification n) =>
          simp [Session.admits, Session.admitNotification, hactive] at h
      | .message (.request r) => rfl
      | .message (.response r) => rfl
      | .unreadable fault => rfl
      | .ended fault => rfl
  · rfl

/-- A session that is not active takes up nothing that says something about documents. -/
theorem heeds?_of_admits {session : Session} {incoming : Incoming}
    (h : session.admits incoming = true) : session.heeds? incoming = incoming.sync? := by
  unfold Session.heeds?
  split
  · rfl
  · next hactive =>
      match incoming with
      | .message (.notification n) =>
          have hmethod : n.method = Method.exit ∨ n.method = Method.confirmed := by
            unfold Session.admits Session.admitNotification at h
            cases hstate : session.state with
            | active => exact absurd hstate hactive
            | _ => simp_all
          exact (read?_eq_none (hmethod.imp_right .inl) _).symm
      | .message (.request r) => rfl
      | .message (.response r) => rfl
      | .unreadable fault => rfl
      | .ended fault => rfl

theorem take_settled (hidle : c.reading = .idle) (incoming : Incoming) :
    (c.take incoming).settled = c.documents := by
  have hsettled : c.settled = c.documents := by rw [settled, hidle]
  unfold take
  split
  · rfl
  · rfl
  · split
    · rfl
    · exact hsettled
  · split
    · rfl
    · exact hsettled
  · rfl

theorem stepReader_settled (horderly : c.Orderly) (hending : c.ending = none) (s : Server) :
    (c.stepReader s).settled =
      ((c.deals? .reader).bind c.session.heeds?).elim c.settled
        (Sync.perform c.session.encoding c.settled) := by
  unfold stepReader
  split
  · next hidle =>
      split
      · next hinbox => simp only [deals?, hending, hidle, hinbox, Option.bind_none, Option.elim_none]
      · next incoming rest hinbox =>
          have hsettled : c.settled = c.documents := by rw [settled, hidle]
          have hnothing : (c.deals? .reader).bind c.session.heeds? = none := by
            rw [deals?_of_idle hending hidle hinbox]
            split
            · rfl
            · next hadmits => exact heeds?_of_not_admits (Bool.eq_false_iff.2 hadmits)
          rw [hnothing, Option.elim_none, hsettled]
          exact take_settled (c := { c with inbox := rest }) hidle incoming
  · next m htaken =>
      obtain ⟨link, hnote, -⟩ := c.note_eq m
      have hdeals : c.deals? .reader = none := by simp only [deals?, hending, htaken]
      rw [hnote, hdeals, settled, settled, htaken]
      rfl
  · next m hnoted =>
      have hdeals : c.deals? .reader = some (.message m) := by simp only [deals?, hending, hnoted]
      have hsettled : c.settled = c.documents := by rw [settled, hnoted]
      rw [serve_settled, hdeals, Option.bind_some,
        heeds?_of_admits (horderly.admits_of_noted hnoted), hsettled]
  · -- The document counted as closed since its tokens were forgotten.
    next params hforgotten =>
      have hdeals : c.deals? .reader = none := by simp only [deals?, hending, hforgotten]
      have hsettled : c.settled =
          syncDocuments Method.didClose params c.session.encoding c.documents := by
        rw [settled, hforgotten]
      rw [hdeals, hsettled]
      rfl
  · next method params hsynced =>
      have hdeals : c.deals? .reader = none := by simp only [deals?, hending, hsynced]
      rw [enqueue_settled, hdeals, settled, settled, hsynced]
      rfl
  · next m hanswering =>
      have hdeals : c.deals? .reader = none := by simp only [deals?, hending, hanswering]
      rw [hdeals, settled, settled, hanswering]
      rfl
  · next ending hdropped =>
      have hdeals : c.deals? .reader = none := by simp only [deals?, hending, hdropped]
      rw [hdeals, settled, settled, hdropped]
      rfl
  · next ending hleaving =>
      have hdeals : c.deals? .reader = none := by simp only [deals?, hending, hleaving]
      rw [hdeals, settled, settled, hleaving]
      rfl

/-- **What one event does to the documents.** -/
theorem step_settled (horderly : c.Orderly) (s : Server) (e : Event) :
    (c.step s e).settled =
      ((c.deals? e).bind c.session.heeds?).elim c.settled
        (Sync.perform c.session.encoding c.settled) := by
  unfold step
  split
  · next hending =>
      by_cases hreader : e = .reader
      · subst hreader
        exact stepReader_settled horderly hending s
      · rw [deals?_of_ne_reader hreader]
        cases hincoming : e.incoming? with
        | none => exact (handle_sameReading s hincoming hreader c).settled_eq
        | some incoming =>
            obtain rfl := Event.eq_received hincoming
            rfl
  · next ending hending =>
      have hdeals : c.deals? e = none := by simp only [deals?, hending]
      rw [hdeals]
      split
      · rfl
      · rfl

/-! ## Whole runs -/

/-- **The documents are those of a plain store to which what the reader heeded has been applied.** -/
theorem run_settled (s : Server) (earlier later : List Event) :
    ((fresh.run s earlier).run s later).settled =
      ((fresh.run s earlier).session.syncs s ((fresh.run s earlier).heard s later)).foldl
        (Sync.perform ((fresh.run s earlier).run s later).session.encoding)
        (fresh.run s earlier).settled := by
  induction later generalizing earlier with
  | nil => rfl
  | cons e later ih =>
      have horderly := run_orderly Orderly.fresh s earlier
      have hrest := ih (earlier ++ [e])
      have hsettled := step_settled horderly s e
      have hsession := (step_hears horderly s e).session_eq
      rw [run_concat] at hrest
      rw [run_cons, heard, hrest, hsettled, hsession]
      cases hdeals : (fresh.run s earlier).deals? e with
      | none => rfl
      | some incoming =>
          rw [Option.bind_some, Option.toList_some, List.singleton_append, Session.syncs]
          cases hheeds : (fresh.run s earlier).session.heeds? incoming with
          | none => rfl
          | some sync =>
              have hactive : (fresh.run s earlier).session.state = .active := by
                unfold Session.heeds? at hheeds
                split at hheeds
                · assumption
                · cases hheeds
              have hencoding := encoding_run (fate_of_deals hdeals) hactive (e :: later)
              rw [run_cons] at hencoding
              rw [Option.toList_some, List.singleton_append, List.foldl_cons, hencoding]
              rfl

/-! ## What leaves the documents alone -/

/-- A notification that says nothing readable about a document changes none. -/
theorem serveNotification_documents {method : String} {params : Json}
    (hread : Sync.read? method params = none) (c : Connection) :
    (c.serveNotification method params).documents = c.documents := by
  unfold serveNotification
  split
  · rfl
  · split
    · rfl
    · split
      · split
        · next p _ =>
            obtain ⟨fired, hfired⟩ := cancel_eq p.id c
            rw [hfired]
        · rfl
      · split
        · split
          · rfl
          · rfl
        · split
          · rfl
          · rw [sync, syncDocuments_eq, hread]
            rfl

theorem serve_documents (s : Server) (m : Message) (c : Connection) :
    (c.serve s m).documents = c.documents ∨
      ∃ n, m = .notification n ∧ (Sync.read? n.method (n.params.getD .null)).isSome = true := by
  cases m with
  | request r =>
      left
      rw [serve_request]
      rcases considerRequest_cases s r { c with reading := .idle } with
        ⟨session, outcome, heq⟩ | ⟨program, -, heq⟩
      · rw [heq]
      · rw [heq]
  | notification n =>
      cases hread : Sync.read? n.method (n.params.getD .null) with
      | none => exact .inl (serveNotification_documents hread { c with reading := .idle })
      | some sync => exact .inr ⟨n, rfl, by rw [hread]; rfl⟩
  | response r => exact .inl rfl

theorem take_documents (incoming : Incoming) : (c.take incoming).documents = c.documents := by
  unfold take
  split
  · rfl
  · rfl
  · split
    · rfl
    · rfl
  · split
    · rfl
    · rfl
  · rfl

/-- **Documents change only when the reader serves a notification about one, or closes one.** -/
theorem step_documents (s : Server) (e : Event) :
    (c.step s e).documents = c.documents ∨ e = .reader ∧
      ((∃ n, c.reading = .noted (.notification n) ∧
        (Sync.read? n.method (n.params.getD .null)).isSome = true) ∨
      ∃ params, c.reading = .forgotten params) := by
  unfold step
  split
  · by_cases hreader : e = .reader
    · subst hreader
      unfold handle stepReader
      dsimp only
      split
      · split
        · exact .inl rfl
        · exact .inl (take_documents _)
      · exact .inl rfl
      · next m hnoted =>
          refine (serve_documents s m c).imp_right fun ⟨n, hn, hread⟩ => ⟨rfl, .inl ⟨n, ?_, hread⟩⟩
          rw [hnoted, hn]
      · next params hforgotten => exact .inr ⟨rfl, .inr ⟨params, hforgotten⟩⟩
      · next method params _ =>
          obtain ⟨queue, hqueue⟩ := enqueue_eq s method params { c with reading := .idle }
          exact .inl (by rw [hqueue])
      · exact .inl rfl
      · exact .inl rfl
      · exact .inl rfl
    · left
      cases hincoming : e.incoming? with
      | none => exact (handle_sameReading s hincoming hreader c).documents
      | some incoming =>
          obtain rfl := Event.eq_received hincoming
          rfl
  · left
    split
    · rfl
    · rfl

/-- The reader closes at its turn the document that it was about to close. -/
theorem step_forgotten {s : Server} {params : Json} (hending : c.ending = none)
    (hforgotten : c.reading = .forgotten params) : (c.step s .reader).documents = c.settled := by
  have hstep : c.step s .reader = c.sync Method.didClose params := by
    simp only [step, hending, handle, stepReader, hforgotten]
  rw [hstep, sync, settled, hforgotten]

/-! ## The refinement -/

/-- **The documents of a connection refine a plain store, whatever handlers do and in whatever order
things happen.** The reader has heard a first part of what came in, and all of it when it rests. The
documents are those of an empty store to which all that this part says about documents while the
session is active has been applied, as far as it can be read and fits; while the reader is about to
close a document, they are so after its next turn. Documents change at no other turns than those of
the reader, and for no other messages. The encoding in which changes are read is the one that the
server named when it accepted the client's introduction, and providers of tokens are given no
other. -/
theorem run_documents (s : Server) (events : List Event) :
    let c := fresh.run s events
    (∃ heard rest, arrivals events = heard ++ rest ∧
      (c.ending = none → c.reading = .idle → c.inbox = [] → rest = []) ∧
      ((∀ params, c.reading ≠ .forgotten params) →
        c.documents =
          (Session.fresh.syncs s heard).foldl (Sync.perform c.session.encoding) .empty) ∧
      ∀ params, c.ending = none → c.reading = .forgotten params →
        (c.step s .reader).documents =
          (Session.fresh.syncs s heard).foldl (Sync.perform c.session.encoding) .empty) ∧
    (∀ e, (c.step s e).documents = c.documents ∨ e = .reader ∧
      ((∃ n, c.reading = .noted (.notification n) ∧
        (Sync.read? n.method (n.params.getD .null)).isSome = true) ∨
      ∃ params, c.reading = .forgotten params)) ∧
    (c.session.negotiated ≠ none → ∃ earlier later r v, events = earlier ++ .reader :: later ∧
      (fresh.run s earlier).reading = .noted (.request r) ∧ r.method = Method.handshake ∧
      ((fresh.run s earlier).step s .reader).reading =
        .answering (.response ⟨some r.id, .result v⟩)) ∧
    (∀ earlier later r v, events = earlier ++ .reader :: later →
      (fresh.run s earlier).reading = .noted (.request r) → r.method = Method.handshake →
      ((fresh.run s earlier).step s .reader).reading =
        .answering (.response ⟨some r.id, .result v⟩) →
      ∃ result, v = SessionResult.codec.write result ∧
        result.capabilities.positionEncoding = some c.session.encoding) ∧
    ∀ base legend provider, s = Server.withTokens base legend provider →
      fresh.run (base.withTokens legend fun d _ => provider d c.session.encoding) events = c := by
  intro c
  refine ⟨?_, fun e => step_documents s e, exists_answer, ?_, ?_⟩
  · obtain ⟨rest, harrivals, hrest⟩ := exists_arrivals_eq s events
    have hsettled : c.settled =
        (Session.fresh.syncs s (fresh.heard s events)).foldl (Sync.perform c.session.encoding)
          .empty := run_settled s [] events
    refine ⟨fresh.heard s events, rest, harrivals, hrest, fun hreading => ?_,
      fun params hending hforgotten => ?_⟩
    · rw [← hsettled, settled_of_reading hreading]
    · rw [← hsettled, step_forgotten hending hforgotten]
  · intro earlier later r v hevents hnoted hmethod hanswer
    obtain ⟨result, n, hv, hnegotiated, hencoding⟩ := answer_encoding hnoted hmethod hanswer
    have hlater : c.session.negotiated = some n := by
      rw [← run_concat] at hnegotiated
      have hstays := negotiated_run hnegotiated later
      rw [← run_append, List.append_assoc, List.singleton_append, ← hevents] at hstays
      exact hstays
    exact ⟨result, hv, by rw [hencoding, encoding_of_negotiated hlater]⟩
  · intro base legend provider hs
    subst hs
    exact run_congr [] events (Server.withTokens_agrees base legend provider c.session.encoding)

/-- A server that counts positions in bytes where the client lets it. -/
def byteServer : Server := .bare { ServerOptions.default with positionEncodings := [.utf8] } default

/-- A client that opens a document too early and then again, puts a letter in the place of another,
makes a change to a version that is past, and opens the document a second time. -/
def editingClient : List Incoming :=
  let notification (method : String) (params : Json) : Incoming :=
    .message (.notification ⟨method, some params⟩)
  let item (text : String) : Json :=
    .obj [("textDocument", .obj [("uri", .str "file:///a"), ("languageId", .str "plain"),
      ("version", .int 1), ("text", .str text)])]
  let place (character : Int) : Json := .obj [("line", .int 0), ("character", .int character)]
  let change (first last : Int) (text : String) : Json :=
    .obj [("textDocument", .obj [("uri", .str "file:///a"), ("version", .int 2)]),
      ("contentChanges", .arr [.obj [("range", .obj [("start", place first), ("end", place last)]),
        ("text", .str text)]])]
  [.message (.request ⟨.number 1, Method.handshake, some (.obj [("capabilities",
     .obj [("general", .obj [("positionEncodings", .arr [.str "utf-8"])])])])⟩),
   notification Method.didOpen (item "early"), notification Method.confirmed .null,
   notification Method.didOpen (item "né!"), notification Method.didChange (change 1 3 "a"),
   notification Method.didChange (change 0 2 ""), notification Method.didOpen (item "late")]

/-- Of what the editing client says, four things are heeded, and two of them fit. -/
theorem editingClient_documents :
    let events := editingClient.map .received ++ List.replicate 30 .reader
    let c := fresh.run byteServer events
    c.documents = ⟨[("file:///a", ⟨"file:///a", "plain", 2, "na!"⟩)]⟩ ∧
    (Session.fresh.syncs byteServer editingClient).length = 4 ∧
    c.documents = (Session.fresh.syncs byteServer editingClient).foldl
      (Sync.perform c.session.encoding) .empty := by
  intro events c
  refine ⟨by decide +kernel, by decide +kernel, ?_⟩
  have hidle : c.reading = .idle := by decide +kernel
  obtain ⟨⟨heard, rest, harrivals, hrest, hdocuments, -⟩, -⟩ := run_documents byteServer events
  have hnil : rest = [] := hrest (by decide +kernel) hidle (by decide +kernel)
  have hheard : heard = editingClient := by
    rw [hnil, List.append_nil] at harrivals
    exact harrivals.symm
  rw [← hheard]
  exact hdocuments fun params hforgotten => by
    rw [hidle] at hforgotten
    cases hforgotten

end Connection

end LanguageServer
