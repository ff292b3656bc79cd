import LanguageServer.Proofs.Server.Turns
import LanguageServer.Proofs.Token.ResultId

set_option autoImplicit false

/-! # The work on requests for tokens

A request for tokens takes two steps: its handler looks at a document, and later it answers with the
tokens, which are known from then on. Other handlers never make tokens known. So at any time a
handler that is about to answer with tokens has looked at their document when it was open
(`TaskStage.Tracked`), and the tokens of a document become known by an answer and are forgotten when
the reader hears that the document is closed. What one event does to all of this is said once, in
`step_informs`. -/

namespace LanguageServer

/-! ## Who answers with tokens -/

/-- The document with whose tokens an action answers. -/
def Action.updates? : Action → Option String
  | .tokensFull uri _ | .tokensDelta uri _ _ => some uri
  | _ => none

namespace Program

/-- The program never answers with tokens that are known from then on. -/
def LeavesTokens : Program → Prop
  | .finish _ | .crash => True
  | .act a next => a.updates? = none ∧ ∀ x, (next x).LeavesTokens
  | .wait _ next => ∀ x, (next x).LeavesTokens

/-- The program answers with tokens of a document as the next thing that it does, and never again.
-/
def Answers (uri : String) (p : Program) : Prop :=
  ∃ a next, p = .act a next ∧ a.updates? = some uri ∧ ∀ x, (next x).LeavesTokens

end Program

/-- The handler never answers with tokens from here on. -/
def Activity.LeavesTokens : Activity → Prop
  | .running p | .sleeping _ p | .untilCancelled _ p => p.LeavesTokens
  | .tracing _ next => ∀ x, (next x).LeavesTokens
  | .calling _ next => ∀ x, (next x).LeavesTokens
  | .callingAll _ next => ∀ x, (next x).LeavesTokens
  | .ended _ => True

/-- Only the handlers that are made from the provider answer with tokens that are known from then
on. -/
structure Server.TokensBy (provider : TokenProvider) (s : Server) : Prop where
  requests : ∀ method h, s.requests.lookup method = some h →
    (∀ params cx, (h params cx).LeavesTokens) ∨ h = provider.full ∨ h = provider.delta
  notifications : ∀ method h, s.notifications.lookup method = some h →
    ∀ params n, (h params n).LeavesTokens

/-- The document that is closed. -/
def Sync.closed? : Sync → Option String
  | .closed p => some p.textDocument.uri
  | .opened _ | .changed _ | .saved _ => none

/-- The document that is opened. -/
def Sync.opened? : Sync → Option String
  | .opened p => some p.textDocument.uri
  | .changed _ | .saved _ | .closed _ => none

/-! ## How far a request for tokens has come -/

namespace TaskStage

/-- The document with whose tokens the handler answers next. -/
def updates? : TaskStage → Option String
  | .working (.running (.act a _)) => a.updates?
  | _ => none

/-- The document at which the handler looks next. -/
def looks? : TaskStage → Option String
  | .working (.running (.act (.document uri) _)) => some uri
  | _ => none

/-- A handler that is about to answer with tokens of a document has looked at it when it was open.
-/
inductive Tracked (provider : TokenProvider) (looked : String → TextDocument → Prop) :
    TaskStage → Prop where
  | unlisted (own : Outcome) : Tracked provider looked (.unlisted own)
  | replying (outcome : Outcome) : Tracked provider looked (.replying outcome)
  | free {a : Activity} (h : a.LeavesTokens) : Tracked provider looked (.working a)
  | asking (n : Negotiated) {uri : String} {answer : List UInt32 → Program}
      (h : ∀ data, (answer data).Answers uri) :
      Tracked provider looked (.working (.running (provider.compute n uri answer)))
  | holding {uri : String} {d : TextDocument} {p : Program} (hlooked : looked uri d)
      (h : p.Answers uri) : Tracked provider looked (.working (.running p))

variable {provider : TokenProvider} {looked looked' : String → TextDocument → Prop}
  {stage : TaskStage}

theorem updates?_of_leavesTokens {a : Activity} (h : a.LeavesTokens) :
    (TaskStage.working a).updates? = none := by
  unfold updates?
  split
  · next heq =>
      cases heq
      exact h.1
  · rfl

theorem Tracked.mono (h : stage.Tracked provider looked)
    (hlooked : ∀ uri d, looked uri d → looked' uri d) : stage.Tracked provider looked' := by
  cases h with
  | unlisted own => exact .unlisted own
  | replying outcome => exact .replying outcome
  | free h => exact .free h
  | asking n h => exact .asking n h
  | holding hlook h => exact .holding (hlooked _ _ hlook) h

theorem Tracked.looked_of_updates {uri : String} (h : stage.Tracked provider looked)
    (hupdates : stage.updates? = some uri) : ∃ d, looked uri d := by
  cases h with
  | unlisted own => cases hupdates
  | replying outcome => cases hupdates
  | asking n h => cases hupdates
  | free h =>
      rw [updates?_of_leavesTokens h] at hupdates
      cases hupdates
  | @holding uri' d p hlooked h =>
      obtain ⟨a, next, rfl, ha, -⟩ := h
      rw [updates?, ha] at hupdates
      obtain rfl := Option.some.inj hupdates
      exact ⟨d, hlooked⟩

end TaskStage

/-- What a request is handed to leaves tokens alone, or looks at a document first. -/
theorem Server.TokensBy.tracked {provider : TokenProvider} {s : Server} (hs : s.TokensBy provider)
    {looked : String → TextDocument → Prop} {method : String} {h : RequestHandler}
    (hlookup : s.requests.lookup method = some h) (params : Json) (cx : RequestContext) :
    (TaskStage.working (.running (h params cx))).Tracked provider looked := by
  rcases hs.requests method h hlookup with hplain | rfl | rfl
  · exact .free (hplain params cx)
  · unfold TokenProvider.full
    split
    · exact .free trivial
    · exact .asking cx.negotiated fun data => ⟨_, _, rfl, rfl, fun _ => trivial⟩
  · unfold TokenProvider.delta
    split
    · exact .free trivial
    · exact .asking cx.negotiated fun data => ⟨_, _, rfl, rfl, fun _ => trivial⟩

theorem TokenProvider.range_leavesTokens (provider : TokenProvider) (params : Json)
    (cx : RequestContext) : (provider.range params cx).LeavesTokens := by
  unfold TokenProvider.range
  split
  · trivial
  · refine ⟨rfl, fun found => ?_⟩
    cases found with
    | none => trivial
    | some d => trivial

namespace Server.TokensBy

variable {provider : TokenProvider} {s : Server}

theorem bare (options : ServerOptions) (capabilities : ServerCapabilities) :
    (Server.bare options capabilities).TokensBy provider :=
  ⟨fun method h hlookup => (by cases hlookup), fun method h hlookup => (by cases hlookup)⟩

theorem withRequest (hs : s.TokensBy provider) (method : String) {h : RequestHandler}
    (hh : (∀ params cx, (h params cx).LeavesTokens) ∨ h = provider.full ∨ h = provider.delta) :
    (s.withRequest method h).TokensBy provider := by
  refine ⟨fun method' h' hlookup => ?_, hs.notifications⟩
  rw [Server.withRequest, lookup_register] at hlookup
  split at hlookup
  · obtain rfl := Option.some.inj hlookup
    exact hh
  · exact hs.requests method' h' hlookup

/-- A server that serves requests for tokens has no other handlers that answer with tokens, if it
had none before. -/
theorem withTokens (hs : s.TokensBy provider) (legend : Legend) :
    (s.withTokens legend provider).TokensBy provider := by
  have hfull := hs.withRequest Method.tokensFull (.inr (.inl rfl))
  have hdelta := hfull.withRequest Method.tokensDelta (.inr (.inr rfl))
  have hrange := hdelta.withRequest Method.tokensRange (.inl provider.range_leavesTokens)
  exact ⟨hrange.requests, hrange.notifications⟩

end Server.TokensBy

namespace Connection

/-- Whether tokens of a document are known. -/
def knows (c : Connection) (uri : String) : Bool := (c.cache.get? uri).isSome

theorem perform_cache {a : Action} (h : a.updates? = none) (c : Connection) :
    (c.perform a).2.cache = c.cache := by
  cases a with
  | tokensFull uri data => cases h
  | tokensDelta uri previous data => cases h
  | progress action =>
      unfold perform noteProgress
      dsimp only
      split
      · rfl
      · rfl
  | fire token =>
      obtain ⟨fired, hfired⟩ := fire_eq token c
      rw [perform, hfired]
  | _ => rfl

theorem isSome_get?_full (cache : TokenCache) (uri : String) (data : List UInt32) (u : String) :
    ((cache.full uri data).2.get? u).isSome = (decide (u = uri) || (cache.get? u).isSome) := by
  rcases TokenCache.full_cases cache uri data with ⟨id, hget, heq⟩ | heq
  · rw [heq]
    by_cases hu : u = uri
    · simp [hu, hget]
    · simp [hu]
  · rw [heq, TokenCache.get?_record]
    by_cases hu : u = uri
    · simp [hu]
    · simp [hu]

theorem isSome_get?_delta (cache : TokenCache) (uri previous : String) (data : List UInt32)
    (u : String) :
    ((cache.delta uri previous data).2.get? u).isSome =
      (decide (u = uri) || (cache.get? u).isSome) := by
  rcases TokenCache.delta_cases cache uri previous data with
    ⟨old, hget, -, heq⟩ | ⟨old, hget, -, heq⟩ | ⟨-, heq⟩
  · rw [heq]
    by_cases hu : u = uri
    · simp [hu, hget]
    · simp [hu]
  · rw [heq, TokenCache.get?_record]
    by_cases hu : u = uri
    · simp [hu]
    · simp [hu]
  · rw [heq]
    exact isSome_get?_full cache uri data u

/-- An answer makes the tokens of its document known. -/
theorem perform_knows {a : Action} {uri : String} (h : a.updates? = some uri) (c : Connection)
    (u : String) : (c.perform a).2.knows u = (decide (u = uri) || c.knows u) := by
  unfold knows
  cases a with
  | tokensFull uri' data =>
      obtain rfl := Option.some.inj h
      have hcache : (c.perform (.tokensFull uri' data)).2.cache =
          (c.cache.full uri' data).2 := rfl
      rw [hcache, isSome_get?_full]
  | tokensDelta uri' previous data =>
      obtain rfl := Option.some.inj h
      have hcache : (c.perform (.tokensDelta uri' previous data)).2.cache =
          (c.cache.delta uri' previous data).2 := rfl
      rw [hcache, isSome_get?_delta]
  | _ => cases h

end Connection

namespace Activity

open Connection

/-- A handler that leaves tokens alone goes on to do so. -/
theorem LeavesTokens.forward {a : Activity} (h : a.LeavesTokens) (c : Connection) :
    (a.forward c).1.LeavesTokens ∧ (a.forward c).2.cache = c.cache := by
  unfold Activity.forward
  split
  · exact ⟨trivial, rfl⟩
  · exact ⟨trivial, rfl⟩
  · exact ⟨h.2 _, perform_cache h.1 c⟩
  · exact ⟨h (), rfl⟩
  · exact ⟨h (), rfl⟩
  · exact ⟨h, rfl⟩
  · exact ⟨h, rfl⟩
  · exact ⟨h, rfl⟩
  · split
    · exact ⟨h, rfl⟩
    · exact ⟨h, rfl⟩
  · split
    · exact ⟨h, rfl⟩
    · exact ⟨h, rfl⟩
  · exact ⟨h true, rfl⟩
  · exact ⟨h _, rfl⟩
  · split
    · exact ⟨h _, rfl⟩
    · exact ⟨h, rfl⟩
  · split
    · exact ⟨h _, rfl⟩
    · exact ⟨h, rfl⟩
  · exact ⟨h, rfl⟩

theorem LeavesTokens.atCall {a : Activity} (h : a.LeavesTokens)
    (f : OngoingCall → Link → OngoingCall × Link) (index : Nat) (c : Connection) :
    (a.atCall f index c).1.LeavesTokens ∧ (a.atCall f index c).2.cache = c.cache := by
  unfold Activity.atCall
  split
  · exact ⟨h, rfl⟩
  · exact ⟨h, rfl⟩
  · exact ⟨h, rfl⟩

theorem LeavesTokens.step {a : Activity} (h : a.LeavesTokens) (timeout : Nat) (c : Connection)
    (move : Move) :
    (a.step timeout c move).1.LeavesTokens ∧ (a.step timeout c move).2.cache = c.cache := by
  cases move with
  | forward => exact h.forward c
  | call index => exact h.atCall _ index c
  | giveUp index => exact h.atCall _ index c

end Activity

/-- What one step of a handler does to what it holds and to the tokens known: it may look at a
document, or answer with the tokens of one that it looked at. -/
theorem TaskStage.Tracked.step {provider : TokenProvider} {looked : String → TextDocument → Prop}
    {a : Activity} (h : (TaskStage.working a).Tracked provider looked) (timeout : Nat)
    (c : Connection) (move : Move) :
    (TaskStage.working (a.step timeout c move).1).Tracked provider
      (fun uri d => looked uri d ∨ move = .forward ∧ (TaskStage.working a).looks? = some uri ∧
        c.documents.get? uri = some d) ∧
    ∀ uri, (a.step timeout c move).2.knows uri =
      (decide (move = .forward ∧ (TaskStage.working a).updates? = some uri) || c.knows uri) := by
  cases h with
  | free h =>
      obtain ⟨hleaves, hcache⟩ := h.step timeout c move
      refine ⟨.free hleaves, fun uri => ?_⟩
      rw [Connection.knows, hcache, updates?_of_leavesTokens h]
      simp [Connection.knows]
  | @asking n uri answer h =>
      cases move with
      | forward =>
          refine ⟨?_, fun u => rfl⟩
          simp only [TokenProvider.compute, Activity.step, Activity.forward, Connection.perform]
          cases hget : c.documents.get? uri with
          | none => exact .free trivial
          | some d => exact .holding (.inr ⟨trivial, rfl, hget⟩) (h _)
      | call index => exact ⟨(Tracked.asking n h).mono fun _ _ => .inl, fun u => rfl⟩
      | giveUp index => exact ⟨(Tracked.asking n h).mono fun _ _ => .inl, fun u => rfl⟩
  | @holding uri d p hlooked h =>
      cases move with
      | forward =>
          obtain ⟨action, next, rfl, haction, hnext⟩ := h
          refine ⟨.free (hnext _), fun u => ?_⟩
          have hknows := Connection.perform_knows haction c u
          rw [updates?, haction]
          simp only [true_and, Option.some.injEq, eq_comm (a := uri)]
          exact hknows
      | call index => exact ⟨.holding (.inl hlooked) h, fun u => rfl⟩
      | giveUp index => exact ⟨.holding (.inl hlooked) h, fun u => rfl⟩

namespace Connection

/-! ## What a connection holds -/

/-- How far the work on the request has come whose handler an event has go on by itself. -/
def forwards? (c : Connection) (e : Event) : Option TaskStage :=
  match c.ending, e with
  | none, .task key .forward => (c.task? key).map (·.stage)
  | _, _ => none

/-- The document with whose tokens an event has a request answered. -/
def updates? (c : Connection) (e : Event) : Option String := (c.forwards? e).bind TaskStage.updates?

/-- The document at which an event has the handler of a request look. -/
def looks? (c : Connection) (e : Event) : Option String := (c.forwards? e).bind TaskStage.looks?

/-- What an event has the reader hear about a document. -/
def says? (c : Connection) (e : Event) : Option Sync := (c.deals? e).bind c.session.heeds?

/-- The document that the reader hears is opened. -/
def opens? (c : Connection) (e : Event) : Option String := (c.says? e).bind Sync.opened?

/-- The document that the reader hears is closed. -/
def closes? (c : Connection) (e : Event) : Option String := (c.says? e).bind Sync.closed?

/-- All handlers that hold tokens have looked at a document that was open. -/
structure Tracks (provider : TokenProvider) (looked : Nat → String → TextDocument → Prop)
    (c : Connection) : Prop where
  tasks : ∀ t ∈ c.tasks, t.stage.Tracked provider (looked t.key)
  queue : ∀ q ∈ c.queue, q.program.LeavesTokens
  current : ∀ r, c.current = some r → r.activity.LeavesTokens

section Step

variable {provider : TokenProvider} {looked looked' : Nat → String → TextDocument → Prop}
  {s : Server} {c c' : Connection}

theorem Tracks.of_same (h : c.Tracks provider looked) (htasks : c'.tasks = c.tasks)
    (hqueue : c'.queue = c.queue) (hcurrent : c'.current = c.current) :
    c'.Tracks provider looked := by
  constructor
  · rw [htasks]
    exact h.tasks
  · rw [hqueue]
    exact h.queue
  · rw [hcurrent]
    exact h.current

theorem Tracks.mono (h : c.Tracks provider looked)
    (hlooked : ∀ key uri d, looked key uri d → looked' key uri d) : c.Tracks provider looked' :=
  ⟨fun t ht => (h.tasks t ht).mono (hlooked t.key), h.queue, h.current⟩

theorem mem_setStage {key : Nat} {stage : TaskStage} {t : Task}
    (h : t ∈ (c.setStage key stage).tasks) :
    t ∈ c.tasks ∨ t.key = key ∧ t.stage = stage := by
  obtain ⟨t', ht', rfl⟩ := List.mem_map.1 h
  by_cases hkey : t'.key = key
  · rw [if_pos hkey]
    exact .inr ⟨hkey, rfl⟩
  · rw [if_neg hkey]
    exact .inl ht'

/-- The work on a request goes on. -/
theorem Tracks.setStage (h : c.Tracks provider looked)
    (hlooked : ∀ key uri d, looked key uri d → looked' key uri d) {key : Nat} {stage : TaskStage}
    (hstage : stage.Tracked provider (looked' key)) :
    (c.setStage key stage).Tracks provider looked' := by
  refine ⟨fun t ht => ?_, h.queue, h.current⟩
  rcases mem_setStage ht with hmem | ⟨rfl, hstage'⟩
  · exact (h.tasks t hmem).mono (hlooked t.key)
  · rw [hstage']
    exact hstage

theorem forwards?_task (hending : c.ending = none) {key : Nat} {t : Task}
    (ht : c.task? key = some t) (move : Move) :
    c.forwards? (.task key move) = if move = .forward then some t.stage else none := by
  cases move with
  | forward => simp [forwards?, hending, ht]
  | call index => simp [forwards?, hending]
  | giveUp index => simp [forwards?, hending]

/-- Whoever has looked at a document before an event, or looks at it then. -/
def lookedBy (looked : Nat → String → TextDocument → Prop) (c : Connection) (e : Event)
    (key : Nat) (uri : String) (d : TextDocument) : Prop :=
  looked key uri d ∨ e = .task key .forward ∧ c.looks? e = some uri ∧ c.documents.get? uri = some d

/-- What an event does to what handlers hold and to the tokens known: a handler may look at a
document, an answer makes tokens known, and tokens are forgotten when a document is closed. -/
structure Informs (provider : TokenProvider) (looked : Nat → String → TextDocument → Prop)
    (e : Event) (c c' : Connection) : Prop where
  tracks : c'.Tracks provider (c.lookedBy looked e)
  knows : ∀ uri, c'.knows uri =
    (decide (c.updates? e = some uri) || c.knows uri && !decide (c.closes? e = some uri))

/-- The event is not about tokens. -/
theorem Informs.of_quiet {e : Event} (htracks : c'.Tracks provider looked)
    (hupdates : c.updates? e = none) (hcloses : c.closes? e = none) (hcache : c'.cache = c.cache) :
    Informs provider looked e c c' := by
  refine ⟨htracks.mono fun _ _ _ => .inl, fun uri => ?_⟩
  simp [Connection.knows, hupdates, hcloses, hcache]

theorem closes?_of_ne_reader {e : Event} (h : e ≠ .reader) (c : Connection) :
    c.closes? e = none := by
  rw [closes?, says?, deals?_of_ne_reader h]
  rfl

theorem stepTask_informs (h : c.Tracks provider looked) (hending : c.ending = none) (s : Server)
    (key : Nat) (move : Move) :
    Informs provider looked (.task key move) c (c.stepTask s key move) := by
  have hcloses : c.closes? (.task key move) = none := closes?_of_ne_reader Event.noConfusion c
  unfold stepTask
  split
  · next hnone =>
      have hforwards : c.forwards? (.task key move) = none := by
        cases move with
        | forward => simp [forwards?, hending, hnone]
        | call index => simp [forwards?, hending]
        | giveUp index => simp [forwards?, hending]
      exact .of_quiet h (by rw [updates?, hforwards]; rfl) hcloses rfl
  · next t ht =>
      obtain rfl : t.key = key := by simpa using List.find?_some ht
      have htracked := h.tasks t (List.mem_of_find?_eq_some ht)
      have hforwards := forwards?_task hending ht move
      have hquiet (hstage : t.stage.updates? = none) : c.updates? (.task t.key move) = none := by
        rw [updates?, hforwards]
        split
        · exact hstage
        · rfl
      split
      · next outcome hstage =>
          have hupdates : c.updates? (.task t.key move) = none := hquiet (by rw [hstage]; rfl)
          exact .of_quiet ((h.setStage (fun _ _ _ => id) (.unlisted _)).of_same rfl rfl rfl)
            hupdates hcloses rfl
      · next activity _ hstage =>
          rw [hstage] at htracked hforwards
          have hacts := Activity.step_acts s.options.requestTimeout c move activity
          obtain ⟨hnext, hknows⟩ := htracked.step s.options.requestTimeout c move
          -- The handler reaches no other work; what it looks at, the event has it look at.
          have hsame : (activity.step s.options.requestTimeout c move).2.Tracks
              provider looked := by
            obtain ⟨link, cache, progress, streams, fired, heq, -⟩ := hacts
            rw [heq]
            exact h.of_same rfl rfl rfl
          refine ⟨hsame.setStage (fun _ _ _ => .inl) (hnext.mono ?_), fun uri => ?_⟩
          · rintro uri d (hlooked | ⟨rfl, hlooks, hget⟩)
            · exact .inl hlooked
            · exact .inr ⟨rfl, by rw [looks?, hforwards]; exact hlooks, hget⟩
          · refine (hknows uri).trans ?_
            rw [hcloses, updates?, hforwards]
            by_cases hmove : move = .forward
            · simp [hmove]
            · simp [hmove]
      · next own hstage =>
          have hupdates : c.updates? (.task t.key move) = none := hquiet (by rw [hstage]; rfl)
          exact .of_quiet (h.setStage (fun _ _ _ => id) (.replying _)) hupdates hcloses rfl
      · next outcome hstage =>
          have hupdates : c.updates? (.task t.key move) = none := hquiet (by rw [hstage]; rfl)
          exact .of_quiet ⟨fun t' ht' => h.tasks t' (List.mem_filter.1 ht').1, h.queue, h.current⟩
            hupdates hcloses rfl

theorem updates?_of_ne_task {e : Event} (h : ∀ key move, e ≠ .task key move) (c : Connection) :
    c.updates? e = none := by
  unfold updates? forwards?
  split
  · exact absurd rfl (h _ _)
  · rfl

theorem stepWorker_informs (h : c.Tracks provider looked) (s : Server) (move : Move) :
    Informs provider looked (.worker move) c (c.stepWorker s move) := by
  have hcloses : c.closes? (.worker move) = none := closes?_of_ne_reader Event.noConfusion c
  have hupdates : c.updates? (.worker move) = none :=
    updates?_of_ne_task (fun _ _ => Event.noConfusion) c
  unfold stepWorker
  split
  · exact .of_quiet ⟨h.tasks, h.queue, fun r hr => (by cases hr)⟩ hupdates hcloses rfl
  · next call _ hcurrent =>
      obtain ⟨hleaves, hcache⟩ :=
        (h.current call hcurrent).step s.options.requestTimeout c move
      obtain ⟨link, cache, progress, streams, fired, heq, -⟩ :=
        Activity.step_acts s.options.requestTimeout c move call.activity
      refine .of_quiet ⟨?_, ?_, fun r hr => ?_⟩ hupdates hcloses hcache
      · dsimp only
        rw [heq]
        exact h.tasks
      · dsimp only
        rw [heq]
        exact h.queue
      · cases hr
        exact hleaves
  · split
    · exact .of_quiet h hupdates hcloses rfl
    · next next rest hqueue =>
        have hwaiting := h.queue
        rw [hqueue] at hwaiting
        refine .of_quiet ⟨h.tasks, fun q hq => hwaiting q (List.mem_cons_of_mem _ hq),
          fun r hr => ?_⟩ hupdates hcloses rfl
        cases hr
        exact hwaiting next List.mem_cons_self

/-- A request is handed to the handler that is registered for it, or to none. -/
theorem mem_considerRequest {r : Request} {t : Task} (h : t ∈ (c.considerRequest s r).tasks) :
    t ∈ c.tasks ∨ ∃ handler, s.requests.lookup r.method = some handler ∧
      t.stage =
        .working (.running (handler (r.params.getD .null) ⟨r.id, c.spawned, c.negotiated⟩)) := by
  unfold considerRequest at h
  split at h
  · exact .inl h
  · unfold serveRequest at h
    split at h
    · unfold start at h
      split at h
      · exact .inl h
      · split at h
        · exact .inl h
        · exact .inl h
    · split at h
      · exact .inl h
      · split at h
        · next handler hlookup =>
            unfold spawn at h
            split at h
            · exact .inl h
            · rcases List.mem_append.1 h with hold | hnew
              · exact .inl hold
              · obtain rfl := List.mem_singleton.1 hnew
                exact .inr ⟨handler, hlookup, rfl⟩
        · split at h
          · exact .inl h
          · exact .inl h

theorem Tracks.considerRequest (hs : s.TokensBy provider) (h : c.Tracks provider looked)
    (r : Request) :
    (c.considerRequest s r).Tracks provider looked ∧ (c.considerRequest s r).cache = c.cache := by
  have htasks : ∀ t ∈ (c.considerRequest s r).tasks, t.stage.Tracked provider (looked t.key) := by
    intro t ht
    rcases mem_considerRequest ht with hold | ⟨handler, hlookup, hstage⟩
    · exact h.tasks t hold
    · rw [hstage]
      exact hs.tracked hlookup _ _
  rcases considerRequest_cases s r c with ⟨session, outcome, heq⟩ | ⟨program, -, heq⟩
  · rw [heq] at htasks ⊢
    exact ⟨⟨htasks, h.queue, h.current⟩, rfl⟩
  · rw [heq] at htasks ⊢
    exact ⟨⟨htasks, h.queue, h.current⟩, rfl⟩

theorem Tracks.drop (ending : Ending) (c : Connection) : (c.drop ending).Tracks provider looked :=
  ⟨fun t ht => (by cases ht), fun q hq => (by cases hq), fun r hr => (by cases hr)⟩

theorem Tracks.enqueue (hs : s.TokensBy provider) (h : c.Tracks provider looked) (method : String)
    (params : Json) :
    (c.enqueue s method params).Tracks provider looked ∧
      (c.enqueue s method params).cache = c.cache := by
  unfold Connection.enqueue
  split
  · exact ⟨h, rfl⟩
  · next handler hlookup =>
      refine ⟨⟨h.tasks, fun q hq => ?_, h.current⟩, rfl⟩
      rcases List.mem_append.1 hq with hold | hnew
      · exact h.queue q hold
      · obtain rfl := List.mem_singleton.1 hnew
        exact hs.notifications method handler hlookup params c.negotiated

theorem Tracks.serveNotification (h : c.Tracks provider looked) {method : String}
    (hclose : method ≠ Method.didClose) (params : Json) :
    (c.serveNotification method params).Tracks provider looked ∧
      (c.serveNotification method params).cache = c.cache := by
  unfold Connection.serveNotification
  split
  · exact ⟨Tracks.drop _ _, rfl⟩
  · split
    · exact ⟨h.of_same rfl rfl rfl, rfl⟩
    · split
      · split
        · next p _ =>
            obtain ⟨fired, hfired⟩ := cancel_eq p.id c
            rw [hfired]
            exact ⟨h.of_same rfl rfl rfl, rfl⟩
        · exact ⟨h, rfl⟩
      · split
        · split
          · exact ⟨h.of_same rfl rfl rfl, rfl⟩
          · exact ⟨h, rfl⟩
        · exact ⟨h.of_same rfl rfl rfl, rfl⟩

theorem closed?_read?_of_ne {method : String} (h : method ≠ Method.didClose) (params : Json) :
    (Sync.read? method params).bind Sync.closed? = none := by
  unfold Sync.read?
  split
  · cases DidOpenParams.codec.decode params with
    | error fault => rfl
    | ok p => rfl
  · split
    · cases DidChangeParams.codec.decode params with
      | error fault => rfl
      | ok p => rfl
    · split
      · cases DidSaveParams.codec.decode params with
        | error fault => rfl
        | ok p => rfl
      · rfl

theorem read?_didClose (params : Json) :
    Sync.read? Method.didClose params =
      (DidCloseParams.codec.decode params).toOption.map Sync.closed := rfl

/-- The tokens of the document that a notification says is closed are forgotten. -/
theorem isSome_get?_syncTokens (params : Json) (cache : TokenCache) (uri : String) :
    ((syncTokens params cache).get? uri).isSome =
      ((cache.get? uri).isSome &&
        !decide ((Sync.read? Method.didClose params).bind Sync.closed? = some uri)) := by
  rw [read?_didClose]
  unfold syncTokens
  cases DidCloseParams.codec.decode params with
  | error fault => simp [Except.toOption]
  | ok p =>
      rw [TokenCache.get?_invalidate]
      by_cases huri : uri = p.textDocument.uri
      · simp [huri, Except.toOption, Sync.closed?]
      · simp [huri, Ne.symm huri, Except.toOption, Sync.closed?]

theorem says?_of_noted (horderly : c.Orderly) (hending : c.ending = none) {m : Message}
    (hnoted : c.reading = .noted m) : c.says? .reader = (Incoming.message m).sync? := by
  have hdeals : c.deals? .reader = some (.message m) := by simp only [deals?, hending, hnoted]
  rw [says?, hdeals]
  exact heeds?_of_admits (horderly.admits_of_noted hnoted)

theorem says?_of_idle (hending : c.ending = none) (hidle : c.reading = .idle) :
    c.says? .reader = none := by
  cases hinbox : c.inbox with
  | nil => simp only [says?, deals?, hending, hidle, hinbox, Option.bind_none]
  | cons incoming rest =>
      rw [says?, deals?_of_idle hending hidle hinbox]
      split
      · rfl
      · next hadmits => exact heeds?_of_not_admits (Bool.eq_false_iff.2 hadmits)

theorem Tracks.take (h : c.Tracks provider looked) (incoming : Incoming) :
    (c.take incoming).Tracks provider looked ∧ (c.take incoming).cache = c.cache := by
  unfold Connection.take
  split
  · exact ⟨h.of_same rfl rfl rfl, rfl⟩
  · exact ⟨h.of_same rfl rfl rfl, rfl⟩
  · split
    · exact ⟨h.of_same rfl rfl rfl, rfl⟩
    · exact ⟨h, rfl⟩
  · split
    · exact ⟨h.of_same rfl rfl rfl, rfl⟩
    · exact ⟨h, rfl⟩
  · exact ⟨Tracks.drop _ _, rfl⟩

theorem serve_informs (hs : s.TokensBy provider) (horderly : c.Orderly)
    (h : c.Tracks provider looked) (hending : c.ending = none) {m : Message}
    (hnoted : c.reading = .noted m) : Informs provider looked .reader c (c.serve s m) := by
  have hupdates : c.updates? .reader = none := updates?_of_ne_task (fun _ _ => Event.noConfusion) c
  have hsays := says?_of_noted horderly hending hnoted
  have hidle : { c with reading := .idle : Connection }.Tracks provider looked :=
    h.of_same rfl rfl rfl
  cases m with
  | request r =>
      obtain ⟨htracks, hcache⟩ := hidle.considerRequest hs r
      exact .of_quiet htracks hupdates (by rw [closes?, hsays]; rfl) hcache
  | response r =>
      exact .of_quiet (h.of_same rfl rfl rfl) hupdates (by rw [closes?, hsays]; rfl) rfl
  | notification n =>
      have hcloses : c.closes? .reader =
          (Sync.read? n.method (n.params.getD .null)).bind Sync.closed? := by
        rw [closes?, hsays]
        rfl
      by_cases hclose : n.method = Method.didClose
      · rw [serve_didClose s hclose]
        refine ⟨(h.mono fun _ _ _ => .inl).of_same rfl rfl rfl, fun uri => ?_⟩
        rw [hupdates, hcloses, hclose]
        exact isSome_get?_syncTokens (n.params.getD .null) c.cache uri
      · obtain ⟨htracks, hcache⟩ := hidle.serveNotification hclose (n.params.getD .null)
        rw [closed?_read?_of_ne hclose] at hcloses
        exact .of_quiet htracks hupdates hcloses hcache

theorem stepReader_informs (hs : s.TokensBy provider) (horderly : c.Orderly)
    (h : c.Tracks provider looked) (hending : c.ending = none) :
    Informs provider looked .reader c (c.stepReader s) := by
  have hupdates : c.updates? .reader = none := updates?_of_ne_task (fun _ _ => Event.noConfusion) c
  have hcloses (hdeals : c.deals? .reader = none) : c.closes? .reader = none := by
    rw [closes?, says?, hdeals]
    rfl
  unfold stepReader
  split
  · next hidle =>
      have hnothing : c.closes? .reader = none := by
        rw [closes?, says?_of_idle hending hidle]
        rfl
      split
      · exact .of_quiet h hupdates hnothing rfl
      · next incoming rest hinbox =>
          obtain ⟨htracks, hcache⟩ :=
            Tracks.take (c := { c with inbox := rest }) (h.of_same rfl rfl rfl) incoming
          exact .of_quiet htracks hupdates hnothing hcache
  · next m htaken =>
      obtain ⟨link, hnote, -⟩ := c.note_eq m
      rw [hnote]
      exact .of_quiet (h.of_same rfl rfl rfl) hupdates
        (hcloses (by simp only [deals?, hending, htaken])) rfl
  · next m hnoted => exact serve_informs hs horderly h hending hnoted
  · next params hforgotten =>
      exact .of_quiet (h.of_same rfl rfl rfl) hupdates
        (hcloses (by simp only [deals?, hending, hforgotten])) rfl
  · next method params hsynced =>
      obtain ⟨htracks, hcache⟩ := Tracks.enqueue hs (c := { c with reading := .idle })
        (h.of_same rfl rfl rfl) method params
      exact .of_quiet htracks hupdates (hcloses (by simp only [deals?, hending, hsynced])) hcache
  · next m hanswering =>
      exact .of_quiet (h.of_same rfl rfl rfl) hupdates
        (hcloses (by simp only [deals?, hending, hanswering])) rfl
  · next ending hdropped =>
      exact .of_quiet (h.of_same rfl rfl rfl) hupdates
        (hcloses (by simp only [deals?, hending, hdropped])) rfl
  · next ending hleaving =>
      exact .of_quiet (h.of_same rfl rfl rfl) hupdates
        (hcloses (by simp only [deals?, hending, hleaving])) rfl

/-- **What one event does to what handlers hold and to the tokens known.** -/
theorem step_informs (hs : s.TokensBy provider) (horderly : c.Orderly)
    (h : c.Tracks provider looked) (e : Event) : Informs provider looked e c (c.step s e) := by
  unfold step
  split
  · next hending =>
      have hquiet (hother : e ≠ .reader ∧ ∀ key move, e ≠ .task key move) {c' : Connection}
          (htracks : c'.Tracks provider looked) (hcache : c'.cache = c.cache) :
          Informs provider looked e c c' :=
        .of_quiet htracks (updates?_of_ne_task hother.2 c) (closes?_of_ne_reader hother.1 c) hcache
      cases e with
      | reader => exact stepReader_informs hs horderly h hending
      | task key move => exact stepTask_informs h hending s key move
      | worker move => exact stepWorker_informs h s move
      | received incoming => exact hquiet (by simp) (h.of_same rfl rfl rfl) rfl
      | writer => exact hquiet (by simp) (h.of_same rfl rfl rfl) rfl
      | withdrawal id => exact hquiet (by simp) (h.of_same rfl rfl rfl) rfl
      | tick milliseconds => exact hquiet (by simp) (h.of_same rfl rfl rfl) rfl
      | outputClosed => exact hquiet (by simp) (h.of_same rfl rfl rfl) rfl
  · next ending hending =>
      have hupdates : c.updates? e = none := by
        simp only [updates?, forwards?, hending, Option.bind_none]
      have hcloses : c.closes? e = none := by
        simp only [closes?, says?, deals?, hending, Option.bind_none]
      split
      · exact .of_quiet (h.of_same rfl rfl rfl) hupdates hcloses rfl
      · exact .of_quiet h hupdates hcloses rfl

end Step

end Connection

end LanguageServer
