import LanguageServer.Proofs.Document.Lives
import LanguageServer.Proofs.Server.TokenWork

set_option autoImplicit false

/-! # Tokens of documents that are closed

Closing a document takes two turns of the reader: its tokens are forgotten at the first, and the
document is closed at the second. Nothing keeps these apart from the two steps of a request for
tokens, so tokens can become known again after they were forgotten, and stay known for a document
that is no longer open.

This is the only way in which it happens. A handler that holds tokens has looked at their document
when it was open (`run_tracks`), a closed document stays closed until it is opened (`run_closed`),
and tokens are known only by an answer (`run_knows_iff`). So tokens are known of a document that has
been closed if and only if a request had looked at it before it was closed and was answered after
its tokens had been forgotten. -/

namespace LanguageServer

namespace Connection

/-! ## Documents that stay closed -/

/-- What is said about documents, as a call on a store. -/
def storeCall (e : PositionEncoding) : Sync → StoreCall
  | .opened p => .didOpen p
  | .changed p => .didChange p e
  | .saved p => .didSave p
  | .closed p => .didClose p.textDocument.uri

theorem get?_perform_eq (e : PositionEncoding) (d : DocumentStore) (sync : Sync) (uri : String) :
    (sync.perform e d).get? uri = d.get? uri ∨
      (sync.perform e d).get? uri = (storeCall e sync).next uri (d.get? uri) := by
  have hcall : sync.apply e d = d.perform (storeCall e sync) := by
    cases sync with
    | opened p => rfl
    | changed p => rfl
    | saved p => rfl
    | closed p => rfl
  unfold Sync.perform
  cases happly : sync.apply e d with
  | error fault => exact .inl rfl
  | ok d' => exact .inr (DocumentStore.get?_perform (hcall.symm.trans happly) uri)

/-- A document that is closed stays so until it is opened. -/
theorem get?_perform_of_closed {e : PositionEncoding} {d : DocumentStore} {sync : Sync}
    {uri : String} (hclosed : d.get? uri = none) (hopens : sync.opened? ≠ some uri) :
    (sync.perform e d).get? uri = none := by
  rcases get?_perform_eq e d sync uri with heq | heq
  · rw [heq, hclosed]
  · rw [heq, hclosed]
    unfold StoreCall.next
    split
    · next huri =>
        cases sync with
        | opened p => exact absurd (congrArg some huri) hopens
        | changed p => rfl
        | saved p => rfl
        | closed p => rfl
    · rfl

/-- A document is closed once it has been. -/
theorem get?_perform_closed {e : PositionEncoding} {d : DocumentStore} {p : DidCloseParams} :
    ((Sync.closed p).perform e d).get? p.textDocument.uri = none := by
  cases hclose : d.didClose p.textDocument.uri with
  | error fault =>
      obtain ⟨hclosed, -⟩ := DocumentStore.didClose_eq_error_iff.1 hclose
      simp only [Sync.perform, Sync.apply, hclose]
      exact DocumentStore.not_isOpen_iff.1 hclosed
  | ok d' =>
      have hperform : d.perform (.didClose p.textDocument.uri) = .ok d' := hclose
      simp only [Sync.perform, Sync.apply, hclose]
      rw [DocumentStore.get?_perform hperform]
      exact if_pos rfl

section Run

variable {provider : TokenProvider} {looked : Nat → String → TextDocument → Prop}
  {s : Server} {c : Connection} {uri : String}

theorem get?_elim_of_closed {found : Option Sync} {e : PositionEncoding} {d : DocumentStore}
    (hclosed : d.get? uri = none) (hopens : found.bind Sync.opened? ≠ some uri) :
    (found.elim d (Sync.perform e d)).get? uri = none := by
  cases found with
  | none => exact hclosed
  | some sync => exact get?_perform_of_closed hclosed hopens

theorem opened?_read?_didClose (params : Json) :
    (Sync.read? Method.didClose params).bind Sync.opened? = none := by
  rw [read?_didClose]
  cases DidCloseParams.codec.decode params with
  | error fault => rfl
  | ok p => rfl

/-- **A document that is closed stays so until the reader hears that it is opened.** -/
theorem step_closed (horderly : c.Orderly) (s : Server) {e : Event}
    (hclosed : c.documents.get? uri = none) (hopens : c.opens? e ≠ some uri) :
    (c.step s e).documents.get? uri = none := by
  cases hending : c.ending with
  | some ending =>
      simp only [step, hending]
      split
      · exact hclosed
      · exact hclosed
  | none =>
      rcases step_documents s e with heq | ⟨rfl, ⟨n, hnoted, -⟩ | ⟨params, hforgotten⟩⟩
      · rw [heq]
        exact hclosed
      · rw [opens?, says?_of_noted horderly hending hnoted] at hopens
        rw [step_noted hending hnoted]
        by_cases hclose : n.method = Method.didClose
        · rw [serve_didClose s hclose]
          exact hclosed
        · have hreading : ∀ params, (c.serve s (.notification n)).reading ≠ .forgotten params :=
            fun params hforgotten => hclose (serve_forgotten hforgotten)
          rw [← settled_of_reading hreading, serve_settled]
          exact get?_elim_of_closed hclosed hopens
      · rw [step_forgotten hending hforgotten, settled, hforgotten]
        dsimp only
        rw [syncDocuments_eq]
        exact get?_elim_of_closed hclosed (by simp [opened?_read?_didClose])

/-! ## Whole runs -/

/-- Each event of a run is as described, at the state that it finds. -/
def Throughout (s : Server) (P : Connection → Event → Prop) (c : Connection) : List Event → Prop
  | [] => True
  | e :: events => P c e ∧ Throughout s P (c.step s e) events

/-- The document is not opened in a run. -/
def StaysShut (s : Server) (uri : String) : Connection → List Event → Prop :=
  Throughout s fun c e => c.opens? e ≠ some uri

/-- The document is not closed in a run. -/
def Spares (s : Server) (uri : String) : Connection → List Event → Prop :=
  Throughout s fun c e => c.closes? e ≠ some uri

/-- In a run, the handler of a request has looked at a document and has found it open. -/
def Looked (s : Server) (events : List Event) (key : Nat) (uri : String) (d : TextDocument) :
    Prop :=
  ∃ earlier later : List Event, events = earlier ++ .task key .forward :: later ∧
    (fresh.run s earlier).looks? (.task key .forward) = some uri ∧
    (fresh.run s earlier).documents.get? uri = some d

/-- In a run, the handler of a request has answered with the tokens of a document, and they have not
been forgotten since. -/
def Answered (s : Server) (c : Connection) (events : List Event) (key : Nat) (uri : String) :
    Prop :=
  ∃ earlier later : List Event, events = earlier ++ .task key .forward :: later ∧
    (c.run s earlier).updates? (.task key .forward) = some uri ∧
    Spares s uri (c.run s (earlier ++ [.task key .forward])) later

theorem Looked.append {events : List Event} {key : Nat} {d : TextDocument}
    (h : Looked s events key uri d) (more : List Event) : Looked s (events ++ more) key uri d := by
  obtain ⟨earlier, later, rfl, hlooks, hget⟩ := h
  exact ⟨earlier, later ++ more, by simp, hlooks, hget⟩

/-- **A handler that holds tokens has looked at their document when it was open.** -/
theorem run_tracks (hs : s.TokensBy provider) (events : List Event) :
    (fresh.run s events).Tracks provider (Looked s events) := by
  induction events using List.reverseRecOn with
  | nil => exact ⟨fun t ht => (by cases ht), fun q hq => (by cases hq), fun r hr => (by cases hr)⟩
  | append_singleton events e ih =>
      rw [run_concat]
      refine (step_informs hs (run_orderly Orderly.fresh s events) ih e).tracks.mono ?_
      rintro key uri d (hlooked | ⟨rfl, hlooks, hget⟩)
      · exact hlooked.append [e]
      · exact ⟨events, [], rfl, hlooks, hget⟩

theorem exists_of_updates {e : Event} (h : c.updates? e = some uri) :
    ∃ key t, e = .task key .forward ∧ t ∈ c.tasks ∧ t.key = key ∧
      t.stage.updates? = some uri := by
  unfold updates? forwards? at h
  split at h
  · next key _ =>
      cases htask : c.task? key with
      | none =>
          rw [htask] at h
          cases h
      | some t =>
          rw [htask] at h
          have hkey : t.key = key := by simpa using List.find?_some htask
          exact ⟨key, t, rfl, List.mem_of_find?_eq_some htask, hkey, h⟩
  · cases h

/-- An answer in a run comes with its first event or later. -/
theorem answered_cons_iff {e : Event} {events : List Event} :
    (∃ key, Answered s c (e :: events) key uri) ↔
      c.updates? e = some uri ∧ Spares s uri (c.step s e) events ∨
        ∃ key, Answered s (c.step s e) events key uri := by
  constructor
  · rintro ⟨key, earlier, later, heq, hupdates, hspares⟩
    cases earlier with
    | nil =>
        obtain ⟨rfl, rfl⟩ := List.cons.inj heq
        exact .inl ⟨hupdates, hspares⟩
    | cons first earlier =>
        obtain ⟨rfl, rfl⟩ := List.cons.inj heq
        exact .inr ⟨key, earlier, later, rfl, hupdates, hspares⟩
  · rintro (⟨hupdates, hspares⟩ | ⟨key, earlier, later, rfl, hupdates, hspares⟩)
    · obtain ⟨key, t, rfl, -⟩ := exists_of_updates hupdates
      exact ⟨key, [], events, rfl, hupdates, hspares⟩
    · exact ⟨key, e :: earlier, later, rfl, hupdates, hspares⟩

theorem spares_cons_iff {e : Event} {events : List Event} :
    Spares s uri c (e :: events) ↔ c.closes? e ≠ some uri ∧ Spares s uri (c.step s e) events :=
  Iff.rfl

/-- **Tokens are known if a request has been answered with them, or if they were known before, and
they have not been forgotten since.** -/
theorem run_knows_iff (hs : s.TokensBy provider) (horderly : c.Orderly)
    (h : c.Tracks provider looked) (uri : String) (events : List Event) :
    (c.run s events).knows uri = true ↔
      (∃ key, Answered s c events key uri) ∨ c.knows uri = true ∧ Spares s uri c events := by
  induction events generalizing c looked with
  | nil =>
      constructor
      · intro hknows
        exact .inr ⟨hknows, trivial⟩
      · rintro (⟨key, earlier, later, hnil, -⟩ | ⟨hknows, -⟩)
        · simp at hnil
        · exact hknows
  | cons e events ih =>
      have hinforms := step_informs hs horderly h e
      have hstep : (c.step s e).knows uri = true ↔
          c.updates? e = some uri ∨ c.knows uri = true ∧ c.closes? e ≠ some uri := by
        rw [hinforms.knows]
        simp
      rw [run_cons, ih (step_hears horderly s e).orderly hinforms.tracks, hstep, answered_cons_iff,
        spares_cons_iff]
      constructor
      · rintro (hanswered | ⟨hupdates | ⟨hknows, hother⟩, hspares⟩)
        · exact .inl (.inr hanswered)
        · exact .inl (.inl ⟨hupdates, hspares⟩)
        · exact .inr ⟨hknows, hother, hspares⟩
      · rintro ((⟨hupdates, hspares⟩ | hanswered) | ⟨hknows, hother, hspares⟩)
        · exact .inr ⟨.inl hupdates, hspares⟩
        · exact .inl hanswered
        · exact .inr ⟨.inr ⟨hknows, hother⟩, hspares⟩

/-- A document that is closed stays so in a run in which it is not opened. -/
theorem run_closed (horderly : c.Orderly) {events : List Event}
    (hclosed : c.documents.get? uri = none) (hshut : StaysShut s uri c events) :
    ∀ earlier later, events = earlier ++ later →
      (c.run s earlier).documents.get? uri = none := by
  induction events generalizing c with
  | nil =>
      intro earlier later hnil
      obtain ⟨rfl, -⟩ := List.append_eq_nil_iff.1 hnil.symm
      exact hclosed
  | cons e events ih =>
      intro earlier later heq
      cases earlier with
      | nil => exact hclosed
      | cons first earlier =>
          obtain ⟨rfl, rfl⟩ := List.cons.inj heq
          have hnext := step_closed horderly s hclosed hshut.1
          exact ih (step_hears horderly s e).orderly hnext hshut.2 earlier later rfl

/-- What the reader hears about a document is in a notification that it has taken up. -/
theorem exists_of_says {sync : Sync} (h : c.says? .reader = some sync) :
    ∃ n, c.ending = none ∧ c.reading = .noted (.notification n) ∧
      Sync.read? n.method (n.params.getD .null) = some sync := by
  obtain ⟨incoming, hdeals, hheeds⟩ := Option.bind_eq_some_iff.1 h
  unfold deals? at hdeals
  split at hdeals
  · next m hending _ hnoted =>
      obtain rfl := Option.some.inj hdeals
      unfold Session.heeds? at hheeds
      split at hheeds
      · cases m with
        | notification n => exact ⟨n, hending, hnoted, hheeds⟩
        | request r => cases hheeds
        | response r => cases hheeds
      · cases hheeds
  · split at hdeals
    · cases hdeals
    · next hadmits =>
        obtain rfl := Option.some.inj hdeals
        rw [heeds?_of_not_admits (Bool.eq_false_iff.2 hadmits)] at hheeds
        cases hheeds
  · cases hdeals

/-- Closing a document begins when the reader serves the notification. -/
theorem exists_of_closes (h : c.closes? .reader = some uri) :
    ∃ n p, c.ending = none ∧ c.reading = .noted (.notification n) ∧ n.method = Method.didClose ∧
      Sync.read? Method.didClose (n.params.getD .null) = some (.closed p) ∧
      p.textDocument.uri = uri := by
  obtain ⟨sync, hsays, hclosed⟩ := Option.bind_eq_some_iff.1 h
  obtain ⟨n, hending, hnoted, hread⟩ := exists_of_says hsays
  have hmethod : n.method = Method.didClose := by
    by_contra hother
    have hnone := closed?_read?_of_ne hother (n.params.getD .null)
    rw [hread, Option.bind_some, hclosed] at hnone
    cases hnone
  rw [hmethod] at hread
  cases sync with
  | closed p => exact ⟨n, p, hending, hnoted, hmethod, hread, Option.some.inj hclosed⟩
  | opened p => cases hclosed
  | changed p => cases hclosed
  | saved p => cases hclosed

theorem run_meanwhile (s : Server) {events : List Event} (h : ∀ e ∈ events, e ≠ .reader) :
    c.Meanwhile (c.run s events) := by
  induction events generalizing c with
  | nil => exact ⟨rfl, rfl, rfl, rfl⟩
  | cons e events ih =>
      have hfirst := step_meanwhile s (h e List.mem_cons_self) c
      have hrest := ih (c := c.step s e) fun e he => h e (List.mem_cons_of_mem _ he)
      exact ⟨hrest.session.trans hfirst.session, hrest.documents.trans hfirst.documents,
        hrest.reading.trans hfirst.reading, hrest.ending.trans hfirst.ending⟩

/-- The second of the two turns that closing takes leaves the document closed. -/
theorem closed_of_closes {window : List Event} (hcloses : c.closes? .reader = some uri)
    (hwindow : ∀ e ∈ window, e ≠ .reader) :
    (c.run s (.reader :: window ++ [.reader])).documents.get? uri = none := by
  obtain ⟨n, p, hending, hnoted, hmethod, hread, rfl⟩ := exists_of_closes hcloses
  have hserved : c.step s .reader =
      { c with
        cache := syncTokens (n.params.getD .null) c.cache
        reading := .forgotten (n.params.getD .null) } := by
    rw [step_noted hending hnoted, serve_didClose s hmethod]
  have hmeanwhile : (c.step s .reader).Meanwhile (c.run s (.reader :: window)) :=
    run_meanwhile s hwindow
  rw [hserved] at hmeanwhile
  rw [run_concat, step_forgotten (hmeanwhile.ending.trans hending) hmeanwhile.reading, settled,
    hmeanwhile.reading]
  dsimp only
  rw [syncDocuments_eq, hread]
  exact get?_perform_closed

/-- Whoever has looked at a document by the time that it has been closed did so before. -/
theorem Looked.of_closed {before later : List Event} {key : Nat} {d : TextDocument}
    (h : Looked s (before ++ .reader :: later) key uri d)
    (hclosed : ∀ first rest, later = first ++ rest →
      (fresh.run s (before ++ .reader :: first)).documents.get? uri = none) :
    Looked s before key uri d := by
  obtain ⟨first, between, heq, hlooks, hget⟩ := h
  rcases List.append_eq_append_iff.1 heq with ⟨rest, rfl, hrest⟩ | ⟨rest, rfl, hrest⟩
  · -- The look would come after the reader's turn, when the document is closed.
    cases rest with
    | nil => cases hrest
    | cons e rest =>
        obtain ⟨rfl, hlater⟩ := List.cons.inj hrest
        rw [hclosed rest _ hlater] at hget
        cases hget
  · cases rest with
    | nil => cases hrest
    | cons e rest =>
        obtain ⟨rfl, -⟩ := List.cons.inj hrest
        exact ⟨first, rest, rfl, hlooks, hget⟩

/-- **Closing a document forgets its tokens unless a request is being answered with them.** For
every run in which the reader hears that a document is closed, closes it at its next turn, and does
not hear that it is opened from then on: the document is not open, and its tokens are known if and
only if the handler of some request had looked at the document before it was closed and answered
with its tokens after they had been forgotten, without their being forgotten again since. Whatever
else happens in between, and however many requests there are, the tokens of a closed document are
known in no other way. -/
theorem run_closed_knows_iff (hs : s.TokensBy provider) {earlier window later : List Event}
    (hcloses : (fresh.run s earlier).closes? .reader = some uri)
    (hwindow : ∀ e ∈ window, e ≠ .reader)
    (hshut : StaysShut s uri (fresh.run s (earlier ++ .reader :: window ++ [.reader])) later) :
    let c := fresh.run s (earlier ++ .reader :: window ++ .reader :: later)
    c.documents.get? uri = none ∧
    (c.knows uri = true ↔ ∃ key d, Looked s (earlier ++ .reader :: window) key uri d ∧
      Answered s (fresh.run s (earlier ++ [.reader])) (window ++ .reader :: later) key uri) := by
  intro c
  have hclosed : ∀ first rest, later = first ++ rest →
      (fresh.run s (earlier ++ .reader :: window ++ .reader :: first)).documents.get? uri =
        none := by
    intro first rest hlater
    have hshuts : (fresh.run s (earlier ++ .reader :: window ++ [.reader])).documents.get? uri =
        none := by
      rw [List.append_assoc, run_append]
      exact closed_of_closes hcloses hwindow
    have hfirst := run_closed (run_orderly Orderly.fresh s _) hshuts hshut first rest hlater
    rw [← run_append, List.append_assoc, List.singleton_append] at hfirst
    exact hfirst
  have hunknown : (fresh.run s (earlier ++ [.reader])).knows uri = false := by
    have hinforms :=
      step_informs hs (run_orderly Orderly.fresh s earlier) (run_tracks hs earlier) .reader
    rw [run_concat, hinforms.knows, hcloses, updates?_of_ne_task fun _ _ => Event.noConfusion]
    simp
  have hevents : earlier ++ .reader :: window ++ .reader :: later =
      earlier ++ [.reader] ++ (window ++ .reader :: later) := by simp
  refine ⟨hclosed later [] (List.append_nil later).symm, ?_⟩
  have hrun : c = (fresh.run s (earlier ++ [.reader])).run s (window ++ .reader :: later) := by
    rw [← run_append, ← hevents]
  rw [hrun, run_knows_iff hs (run_orderly Orderly.fresh s _) (run_tracks hs _)]
  constructor
  · rintro (⟨key, hanswered⟩ | ⟨hknows, -⟩)
    · obtain ⟨done, rest, hdone, hupdates, hspares⟩ := hanswered
      rw [← run_append] at hupdates
      obtain ⟨_, t, hevent, ht, rfl, hstage⟩ := exists_of_updates hupdates
      cases hevent
      obtain ⟨d, hlooked⟩ := ((run_tracks hs _).tasks t ht).looked_of_updates hstage
      have hbefore := hlooked.append (.task t.key .forward :: rest)
      rw [List.append_assoc, ← hdone, ← hevents] at hbefore
      rw [run_append] at hupdates
      exact ⟨t.key, d, hbefore.of_closed hclosed, done, rest, hdone, hupdates, hspares⟩
    · rw [hunknown] at hknows
      cases hknows
  · rintro ⟨key, d, -, hanswered⟩
    exact .inl ⟨key, hanswered⟩

end Run

/-- One token for each document, as long as its text. -/
def wholeText : TokenProvider := fun d _ => [⟨0, 0, UInt32.ofNat d.byteLength, 0, 0⟩]

def wholeTextServer : Server :=
  (Server.bare .default default).withTokens ⟨["text"], []⟩ wholeText

theorem wholeTextServer_tokensBy : wholeTextServer.TokensBy wholeText :=
  (Server.TokensBy.bare .default default).withTokens _

/-- A client that opens a document, asks for its tokens, and closes it, when the reader has yet to
serve the last of this. -/
def hastyClient : List Event :=
  let notification (method : String) (params : Json) : Event :=
    .received (.message (.notification ⟨method, some params⟩))
  let document (fields : List (String × Json)) : Json :=
    .obj [("textDocument", .obj (("uri", .str "file:///a") :: fields))]
  [.received (.message (.request
     ⟨.number 1, Method.handshake, some (.obj [("capabilities", .obj [])])⟩)),
   notification Method.confirmed .null,
   notification Method.didOpen
     (document [("languageId", .str "plain"), ("version", .int 1), ("text", .str "x")]),
   .received (.message (.request ⟨.number 2, Method.tokensFull, some (document [])⟩)),
   notification Method.didClose (document [])] ++ List.replicate 16 .reader

/-- The handler of the request looks at the document and answers. -/
def overlap : List Event := [.task 0 .forward, .task 0 .forward]

/-- The handler looks at the document and answers with its tokens while the reader is closing it. -/
theorem hastyClient_knows :
    let before := hastyClient ++ Event.reader :: overlap
    let c := fresh.run wholeTextServer (before ++ [.reader])
    c.documents.get? "file:///a" = none ∧
    c.cache.get? "file:///a" = some ⟨"1", [0, 0, 1, 0, 0]⟩ ∧
    ∃ key d, Looked wholeTextServer before key "file:///a" d ∧
      Answered wholeTextServer (fresh.run wholeTextServer (hastyClient ++ [.reader]))
        (overlap ++ [.reader]) key "file:///a" := by
  intro before c
  have hcache : c.cache.get? "file:///a" = some ⟨"1", [0, 0, 1, 0, 0]⟩ := by decide +kernel
  have hcloses : (fresh.run wholeTextServer hastyClient).closes? .reader = some "file:///a" := by
    decide +kernel
  have hwindow : ∀ e ∈ overlap, e ≠ .reader := by decide
  have hshut : StaysShut wholeTextServer "file:///a"
      (fresh.run wholeTextServer (before ++ [.reader])) [] := trivial
  obtain ⟨hclosed, hknows⟩ :=
    run_closed_knows_iff wholeTextServer_tokensBy hcloses hwindow hshut
  exact ⟨hclosed, hcache, hknows.1 (by rw [knows, hcache]; rfl)⟩

/-- **Tokens can be known of a document that is closed.** A handler looks at it, the reader forgets
its tokens and closes it, and then the handler answers. What this leaves is what the two calls on
the cache leave, the one that forgets tokens and the one that answers with them. -/
theorem exists_tokens_after_closing :
    ∃ (provider : TokenProvider) (s : Server) (earlier window later : List Event) (uri : String)
      (data : List UInt32),
      s.TokensBy provider ∧
      (fresh.run s earlier).closes? .reader = some uri ∧ (∀ e ∈ window, e ≠ .reader) ∧
      StaysShut s uri (fresh.run s (earlier ++ .reader :: window ++ [.reader])) later ∧
      (fresh.run s (earlier ++ .reader :: window ++ .reader :: later)).cache =
        ((TokenCache.empty.invalidate uri).2.full uri data).2 ∧
      (fresh.run s (earlier ++ .reader :: window ++ .reader :: later)).knows uri = true := by
  refine ⟨wholeText, wholeTextServer, hastyClient ++ [.task 0 .forward], [], [.task 0 .forward],
    "file:///a", [0, 0, 1, 0, 0], wholeTextServer_tokensBy, by decide +kernel,
    List.forall_mem_nil _, ?_, by decide +kernel, by decide +kernel⟩
  exact ⟨by decide +kernel, trivial⟩

end Connection

end LanguageServer
