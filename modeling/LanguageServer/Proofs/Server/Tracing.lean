import LanguageServer.Proofs.Server.Twins

set_option autoImplicit false

/-! # Tracing does not interfere

What a client gets to see of a server does not depend on the level of tracing, entries of its trace
apart, as long as no handler looks at the level: `run_tracing_noninterference`. The handlers for
semantic tokens do not (`Server.Blind.withTokens`). In each run, the reader tells the client's trace
of a message at the level in force before the message is served (`Connection.Tells`). -/

namespace LanguageServer

open Wire

/-! ## Introductions -/

/-- The members of an introduction but for the level of tracing. -/
def levelless (ms : List (String × Json)) : List (String × Json) := ms.filter fun m => m.1 ≠ "trace"

/-- Each level of tracing that is asked for is one, or null. -/
def AsksForLevels (ms : List (String × Json)) : Prop :=
  ∀ j, ("trace", j) ∈ ms → ∃ level, (Fields.orNull TraceLevel.codec).read .direct j = .ok level

theorem lookup_levelless {key : String} (hkey : key ≠ "trace") (ms : List (String × Json)) :
    Json.lookup key (levelless ms) = Json.lookup key ms := by
  induction ms with
  | nil => rfl
  | cons m ms ih =>
      obtain ⟨k, v⟩ := m
      by_cases hk : k = "trace"
      · rw [levelless, List.filter_cons_of_neg (by simpa using hk), Json.lookup,
          if_neg (hk.trans_ne hkey.symm)]
        exact ih
      · rw [levelless, List.filter_cons_of_pos (by simpa using hk), Json.lookup, Json.lookup, ← ih]
        rfl

theorem lookup_trace_levelless (ms : List (String × Json)) :
    Json.lookup "trace" (levelless ms) = none := by
  refine Json.lookup_eq_none ?_
  simp [Json.keys, levelless]

theorem forM_levelless {f : String × Json → Except Fault Unit} {ms : List (String × Json)}
    (h : ∀ j, ("trace", j) ∈ ms → f ("trace", j) = .ok ()) : (levelless ms).forM f = ms.forM f := by
  induction ms with
  | nil => rfl
  | cons m ms ih =>
      have ih := ih fun j hj => h j (List.mem_cons_of_mem m hj)
      obtain ⟨k, v⟩ := m
      by_cases hk : k = "trace"
      · subst hk
        rw [levelless, List.filter_cons_of_neg (by simp)]
        show _ = (f ("trace", v) >>= fun _ => ms.forM f)
        rw [h v List.mem_cons_self]
        exact ih
      · rw [levelless, List.filter_cons_of_pos (by simpa using hk)]
        show (f (k, v) >>= fun _ => (levelless ms).forM f) = (f (k, v) >>= fun _ => ms.forM f)
        rw [ih]

theorem build_levelless {α : Type} {name : String} (hname : name ≠ "trace") (c : Codec α)
    (value : α) (src : Source) (ms : List (String × Json)) :
    (Fields.defaulted name c value).build src (levelless ms) =
      (Fields.defaulted name c value).build src ms := by
  simp only [Fields.defaulted, lookup_levelless hname]

theorem build_optional_levelless {α : Type} {name : String} (hname : name ≠ "trace") (c : Codec α)
    (src : Source) (ms : List (String × Json)) :
    (Fields.optional name c).build src (levelless ms) = (Fields.optional name c).build src ms :=
  build_levelless hname _ none src ms

theorem sameIntroduction_levelless {ms : List (String × Json)} (hvalid : AsksForLevels ms) :
    SameIntroduction (.obj ms) (.obj (levelless ms)) := by
  have hnone :
      (Fields.optional "trace" TraceLevel.codec).build .direct (levelless ms) = .ok none := by
    simp only [Fields.optional, Fields.nullable, Fields.defaulted, lookup_trace_levelless]
  obtain ⟨level, hlevel⟩ : ∃ level,
      (Fields.optional "trace" TraceLevel.codec).build .direct ms = .ok level := by
    simp only [Fields.optional, Fields.nullable, Fields.defaulted]
    cases hfound : Json.lookup "trace" ms with
    | none => exact ⟨none, rfl⟩
    | some j => exact hvalid j (Json.mem_of_lookup hfound)
  simp only [SameIntroduction, Codec.parseParams, Codec.decode, SessionParams.codec, Codec.record,
    Fields.ofMembers, Fields.map, Fields.and, Fields.nullable]
  rw [forM_levelless]
  · simp only [hlevel, hnone, build_levelless, build_optional_levelless, ne_eq, String.reduceEq,
      not_false_eq_true]
    -- The first fault found is the same; without any, only the level is left to differ.
    generalize ms.forM (m := Except Fault) _ = checked
    generalize (Fields.defaulted "processId" _ _).build .direct ms = processId
    generalize (Fields.optional "clientInfo" _).build .direct ms = clientInfo
    generalize (Fields.optional "locale" _).build .direct ms = locale
    generalize (Fields.defaulted "rootUri" _ _).build .direct ms = rootUri
    generalize (Fields.optional "initializationOptions" _).build .direct ms = options
    generalize (Fields.defaulted "capabilities" _ _).build .direct ms = capabilities
    generalize (Fields.optional "workspaceFolders" _).build .direct ms = folders
    rcases checked with fault | checked
    · rfl
    rcases processId with fault | processId
    · rfl
    rcases clientInfo with fault | clientInfo
    · rfl
    rcases locale with fault | locale
    · rfl
    rcases rootUri with fault | rootUri
    · rfl
    rcases options with fault | options
    · rfl
    rcases capabilities with fault | capabilities
    · rfl
    rcases folders with fault | folders
    · rfl
    · rfl
  · intro j hj
    obtain ⟨level, hread⟩ := hvalid j hj
    simp only [Fields.optional, Fields.nullable, Fields.defaulted, hread, String.reduceEq, if_true,
      if_false]
    rfl

/-- Introductions whose members are the same but for the level of tracing, in whatever place it
stands and whether or not it is there, are the same but for the level. -/
theorem sameIntroduction_of_levelless {ms ms' : List (String × Json)}
    (h : levelless ms = levelless ms') (hvalid : AsksForLevels ms) (hvalid' : AsksForLevels ms') :
    SameIntroduction (.obj ms) (.obj ms') := by
  have hms := sameIntroduction_levelless hvalid
  have hms' := sameIntroduction_levelless hvalid'
  rw [← h] at hms'
  exact hms.trans hms'.symm

/-! ## Handlers that do not look at the level -/

namespace TokenProvider

variable (provider : TokenProvider) (params : Json) (cx : RequestContext) (breaks : Prop)

theorem compute_blind (n : Negotiated) (uri : String) {next : List UInt32 → Program}
    (h : ∀ data, (next data).Blind breaks) : (provider.compute n uri next).Blind breaks := by
  refine ⟨nofun, fun document => ?_⟩
  cases document with
  | none => trivial
  | some d => exact h _

theorem full_blind : (provider.full params cx).Blind breaks := by
  unfold full
  split
  · trivial
  · exact compute_blind provider breaks cx.negotiated _ fun data => ⟨nofun, fun tokens => trivial⟩

theorem delta_blind : (provider.delta params cx).Blind breaks := by
  unfold delta
  split
  · trivial
  · exact compute_blind provider breaks cx.negotiated _ fun data => ⟨nofun, fun result => trivial⟩

theorem range_blind : (provider.range params cx).Blind breaks := by
  unfold range
  split
  · trivial
  · refine ⟨nofun, fun document => ?_⟩
    cases document with
    | none => trivial
    | some d => trivial

end TokenProvider

namespace Server

variable {s : Server} {breaks : Prop}

theorem bare_blind (options : ServerOptions) (capabilities : ServerCapabilities) :
    (bare options capabilities).Blind breaks :=
  ⟨fun _ _ h => (by cases h), fun _ _ h => (by cases h)⟩

theorem Blind.withRequest (h : s.Blind breaks) (method : String) {handler : RequestHandler}
    (hhandler : ∀ params cx, (handler params cx).Blind breaks) :
    (s.withRequest method handler).Blind breaks := by
  refine ⟨fun name found hfound => ?_, h.notifications⟩
  rw [Server.withRequest, lookup_register] at hfound
  split at hfound
  · rw [← Option.some.inj hfound]
    exact hhandler
  · exact h.requests name found hfound

/-- The handlers for semantic tokens do not look at the level. -/
theorem Blind.withTokens (h : s.Blind breaks) (legend : Legend) (provider : TokenProvider) :
    (s.withTokens legend provider).Blind breaks := by
  have hfull := h.withRequest Method.tokensFull (provider.full_blind · · breaks)
  have hdelta := hfull.withRequest Method.tokensDelta (provider.delta_blind · · breaks)
  have hrange := hdelta.withRequest Method.tokensRange (provider.range_blind · · breaks)
  exact ⟨hrange.requests, hrange.notifications⟩

end Server

/-! ## What the client's trace is told -/

/-- What the client's trace says about a message received. -/
def Message.receipt : Message → Option String
  | .request r => some s!"Received request '{r.method} - ({r.id.display})'."
  | .notification n => some s!"Received notification '{n.method}'."
  | .response _ => none

/-- The message that the reader is about to send. -/
def Reading.answer? : Reading → Option Message
  | .answering m => some m
  | .idle | .taken _ | .noted _ | .forgotten _ | .synced .. | .dropped _ | .leaving _ => none

namespace Connection

variable {s : Server} {c : Connection}

/-- The client's trace is told of a message that the reader has taken up and not served, so that the
level is the one in force before the message. -/
structure Tells (c : Connection) (m : Message) (p : LogTraceParams) : Prop where
  taken : c.reading = .taken m
  receipt : m.receipt = some p.message
  level : c.session.trace ≠ .off
  verbose : p.verbose.isSome ↔ c.session.trace = .verbose
  admitted : ∀ n, m = .notification n → c.session.admitNotification n.method = true

theorem traceEntry_eq_some {level : TraceLevel} {message verbose : String} {n : Notification}
    (h : traceEntry level message verbose = some n) :
    ∃ p : LogTraceParams, n = ⟨Method.logTrace, some (LogTraceParams.codec.write p)⟩ ∧
      p.message = message ∧ level ≠ .off ∧ (p.verbose.isSome ↔ level = .verbose) := by
  cases level with
  | off => cases h
  | messages => exact ⟨⟨message, none⟩, (Option.some.inj h).symm, rfl, nofun, nofun, nofun⟩
  | verbose =>
      exact ⟨⟨message, some verbose⟩, (Option.some.inj h).symm, rfl, nofun, fun _ => rfl,
        fun _ => rfl⟩

theorem note_tells (h : c.Orderly) {m : Message} (hm : c.reading = .taken m) :
    ∃ ms, (c.note m).link.sent = c.link.sent ++ ms ∧ ∀ x ∈ ms, ∃ p : LogTraceParams,
      x = .notification ⟨Method.logTrace, some (LogTraceParams.codec.write p)⟩ ∧ c.Tells m p := by
  have hadmitted : ∀ n, m = .notification n → c.session.admitNotification n.method = true := by
    rintro n rfl
    exact h.admitted n (by rw [hm]; rfl)
  have hentry : ∀ {message verbose : String} {n : Notification}, m.receipt = some message →
      traceEntry c.session.trace message verbose = some n → ∃ p : LogTraceParams,
        n = ⟨Method.logTrace, some (LogTraceParams.codec.write p)⟩ ∧ c.Tells m p := by
    intro message verbose n hreceipt htrace
    obtain ⟨p, hn, rfl, hlevel, hverbose⟩ := traceEntry_eq_some htrace
    exact ⟨p, hn, hm, hreceipt, hlevel, hverbose, hadmitted⟩
  obtain ⟨entry, hnote, htells⟩ : ∃ entry : Option Notification,
      (c.note m).link = (entry.map fun n => c.link.post (.notification n)).getD c.link ∧
      ∀ n, entry = some n → ∃ p : LogTraceParams,
        n = ⟨Method.logTrace, some (LogTraceParams.codec.write p)⟩ ∧ c.Tells m p := by
    refine ⟨_, rfl, fun n hn => ?_⟩
    cases m with
    | request r => exact hentry rfl hn
    | notification n => exact hentry rfl hn
    | response r => cases hn
  rw [hnote]
  cases entry with
  | none => exact ⟨[], (List.append_nil _).symm, fun x hx => by cases hx⟩
  | some n =>
      refine ⟨_, sent_post c.link (.notification n), fun x hx => ?_⟩
      obtain ⟨p, hn, hp⟩ := htells n rfl
      split at hx
      · exact ⟨p, by rw [List.mem_singleton.1 hx, hn], hp⟩
      · cases hx

/-- What the reader is about to send in answer is no entry of the client's trace. -/
def Responds (c : Connection) : Prop := ∀ m, c.reading.answer? = some m → m.isTrace = false

theorem responds_of_none (h : c.reading.answer? = none) : c.Responds := by
  intro m hm
  rw [h] at hm
  cases hm

theorem responds_of_response {r : Response} (h : c.reading = .answering (.response r)) :
    c.Responds := by
  intro m hm
  rw [h] at hm
  obtain rfl := Option.some.inj hm
  rfl

theorem serve_responds (s : Server) (m : Message) (c : Connection) : (c.serve s m).Responds := by
  cases m with
  | request r =>
      rw [serve_request]
      rcases considerRequest_cases s r { c with reading := .idle } with
        ⟨session, outcome, heq⟩ | ⟨program, -, heq⟩
      · rw [heq]
        exact responds_of_response rfl
      · rw [heq]
        exact responds_of_none rfl
  | notification n =>
      rw [serve_notification]
      rcases serveNotification_cases n.method (n.params.getD .null) { c with reading := .idle }
        with ⟨session, status, heq⟩ | ⟨_, _, _, _, reading, hreading, heq⟩
      · rw [heq]
        exact responds_of_none rfl
      · rw [heq]
        rcases hreading with rfl | rfl | rfl
        · exact responds_of_none rfl
        · exact responds_of_none rfl
        · exact responds_of_none rfl
  | response r => exact responds_of_none rfl

theorem take_responds (h : c.Responds) (incoming : Incoming) : (c.take incoming).Responds := by
  unfold take
  split
  · exact responds_of_none rfl
  · exact responds_of_none rfl
  · split
    · exact responds_of_none rfl
    · exact h
  · split
    · next m hreply =>
        obtain ⟨text, rfl⟩ := Message.DecodeFault.reply_eq hreply
        exact responds_of_response rfl
    · exact h
  · exact responds_of_none rfl

theorem stepReader_responds (h : c.Responds) : (c.stepReader s).Responds := by
  unfold stepReader
  split
  · split
    · exact h
    · refine take_responds ?_ _
      exact h
  · exact responds_of_none rfl
  · exact serve_responds s _ c
  · exact responds_of_none rfl
  · next method params _ =>
      obtain ⟨queue, heq⟩ := enqueue_eq s method params { c with reading := .idle }
      rw [heq]
      exact responds_of_none rfl
  · exact responds_of_none rfl
  · exact responds_of_none rfl
  · exact responds_of_none rfl

theorem step_responds (h : c.Responds) (s : Server) (e : Event) : (c.step s e).Responds := by
  unfold step
  split
  · cases e with
    | received incoming => exact h
    | reader => exact stepReader_responds h
    | task key move =>
        intro m hm
        exact h m ((stepTask_sameReading s key move c).reading ▸ hm)
    | worker move =>
        intro m hm
        exact h m ((stepWorker_sameReading s move c).reading ▸ hm)
    | writer => exact h
    | withdrawal id => exact h
    | tick milliseconds => exact h
    | outputClosed => exact h
  · split
    · exact h
    · exact h

theorem run_responds (h : c.Responds) (s : Server) (events : List Event) :
    (c.run s events).Responds := by
  induction events generalizing c with
  | nil => exact h
  | cons e events ih => exact ih (step_responds h s e)

theorem sent_foldl_desert (ids : List RequestId) (l : Link) :
    (ids.foldl Link.desert l).sent = l.sent := by
  induction ids generalizing l with
  | nil => rfl
  | cons id ids ih => exact ih (l.desert id)

theorem sent_take (incoming : Incoming) (c : Connection) :
    (c.take incoming).link.sent = c.link.sent := by
  unfold take
  split
  · rfl
  · rfl
  · split
    · rfl
    · rfl
  · split
    · rfl
    · rfl
  · exact sent_foldl_desert _ c.link

theorem sent_serve (s : Server) (m : Message) (c : Connection) :
    (c.serve s m).link.sent = c.link.sent := by
  cases m with
  | request r =>
      rw [serve_request]
      rcases considerRequest_cases s r { c with reading := .idle } with
        ⟨session, outcome, heq⟩ | ⟨program, -, heq⟩
      · rw [heq]
      · rw [heq]
  | notification n =>
      rw [serve_notification]
      rcases serveNotification_cases n.method (n.params.getD .null) { c with reading := .idle }
        with ⟨session, status, heq⟩ | ⟨_, _, _, _, reading, hreading, heq⟩
      · rw [heq]
        exact sent_foldl_desert _ c.link
      · rw [heq]
  | response r => rfl

/-- **What the reader tells the client's trace is about a message that it has just taken up.** -/
theorem posts_tells (h : c.Orderly) (hresponds : c.Responds) (s : Server) {x : Message}
    (hx : x ∈ c.posts s) (htrace : x.isTrace = true) :
    ∃ m, ∃ p : LogTraceParams,
      x = .notification ⟨Method.logTrace, some (LogTraceParams.codec.write p)⟩ ∧ c.Tells m p := by
  have hquiet (hsent : (c.step s .reader).link.sent = c.link.sent) : False := by
    rw [posts_eq (hsent.trans (List.append_nil _).symm)] at hx
    cases hx
  cases hending : c.ending with
  | some ending =>
      refine absurd ?_ hquiet
      simp only [step, hending]
  | none =>
      have hstep : c.step s .reader = c.stepReader s := by simp only [step, hending, handle]
      rw [hstep] at hquiet
      cases hreading : c.reading with
      | taken m =>
          obtain ⟨ms, hsent, htells⟩ := note_tells h hreading
          have hnote : c.step s .reader = c.note m := by rw [hstep, stepReader, hreading]
          rw [posts_eq (hnote ▸ hsent)] at hx
          exact ⟨m, htells x hx⟩
      | answering m =>
          have hanswer : (c.step s .reader).link.sent =
              c.link.sent ++ if c.link.writerOpen then [m] else [] := by
            rw [hstep, stepReader, hreading]
            exact sent_post c.link m
          rw [posts_eq hanswer] at hx
          split at hx
          · rw [List.mem_singleton.1 hx, hresponds m (by rw [hreading]; rfl)] at htrace
            cases htrace
          · cases hx
      | idle =>
          refine absurd ?_ hquiet
          simp only [stepReader, hreading]
          split
          · rfl
          · exact sent_take _ _
      | noted m =>
          refine absurd ?_ hquiet
          simp only [stepReader, hreading]
          exact sent_serve s m c
      | forgotten params =>
          refine absurd ?_ hquiet
          simp only [stepReader, hreading]
          rfl
      | synced method params =>
          refine absurd ?_ hquiet
          obtain ⟨queue, heq⟩ := enqueue_eq s method params { c with reading := .idle }
          simp only [stepReader, hreading, heq]
      | dropped ending =>
          refine absurd ?_ hquiet
          simp only [stepReader, hreading]
          rfl
      | leaving ending =>
          refine absurd ?_ hquiet
          simp only [stepReader, hreading]

/-! ## Runs -/

/-- The line breaks at some time. -/
def Breaks (s : Server) (events : List Event) : Prop :=
  ∃ earlier later, events = earlier ++ later ∧ (fresh.run s earlier).link.writerOpen = false

/-- Runs whose input differs in the level of tracing only, and whose events come in the same order,
but for those that have to do with tracing only. A line breaks at the same moment in both. -/
def SameSchedule (s : Server) (events events' : List Event) : Prop :=
  List.Forall₂ Event.Alike (fresh.spine s events) (fresh.spine s events')

/-- **Tracing does not interfere.** A server whose handlers do not look at the level sends the same
messages, entries of the client's trace apart, and comes to the same state, whatever levels the
client asks for. And in any run, the trace is told of a message only if the level before it was not
off, with details exactly if it was verbose, and of a notification only if it was admitted. -/
theorem run_tracing_noninterference (s : Server) (events : List Event) :
    (∀ events', s.Blind (Breaks s events) → SameSchedule s events events' →
      untraced (fresh.run s events).link.written = untraced (fresh.run s events').link.written ∧
      untraced (fresh.run s events).link.outbox = untraced (fresh.run s events').link.outbox ∧
      (fresh.run s events).session.state = (fresh.run s events').session.state ∧
      (fresh.run s events).session.negotiated = (fresh.run s events').session.negotiated ∧
      (fresh.run s events).documents = (fresh.run s events').documents ∧
      (fresh.run s events).cache = (fresh.run s events').cache ∧
      (fresh.run s events).ending = (fresh.run s events').ending) ∧
    ∀ earlier later, events = earlier ++ later →
      ∀ x ∈ (fresh.run s earlier).posts s, x.isTrace = true →
        ∃ m, ∃ p : LogTraceParams,
          x = .notification ⟨Method.logTrace, some (LogTraceParams.codec.write p)⟩ ∧
          (fresh.run s earlier).Tells m p := by
  have hblind : ∀ {breaks : Prop}, fresh.Blind breaks :=
    ⟨fun _ ht => (by cases ht), fun _ hcall => (by cases hcall), fun _ hcall => (by cases hcall)⟩
  constructor
  · intro events' hs hschedule
    have hopen (earlier later : List Event) (heq : events = earlier ++ later) :
        (fresh.run s earlier).link.writerOpen = true ∨ Breaks s events := by
      cases hwriter : (fresh.run s earlier).link.writerOpen with
      | true => exact .inl rfl
      | false => exact .inr ⟨earlier, later, heq, hwriter⟩
    have htwins := (Twins.refl fresh).run hs hblind hblind hopen hschedule
    obtain ⟨level, hlevel⟩ := htwins.exists_level
    refine ⟨htwins.link.written, htwins.link.outbox, ?_, ?_, htwins.documents, htwins.cache,
      htwins.ending⟩
    · rw [hlevel]
      rfl
    · rw [hlevel]
      rfl
  · intro earlier later _ x hx htrace
    have hresponds : fresh.Responds := responds_of_none rfl
    exact posts_tells (run_orderly Orderly.fresh s earlier) (run_responds hresponds s earlier) s hx
      htrace

/-- A server for semantic tokens, with a handler that writes to the client's trace. -/
def talkativeServer : Server :=
  ((Server.bare .default default).withTokens ⟨[], []⟩ fun _ _ => []).withRequest "work" fun _ _ =>
    .wait (.logTrace "working" "as asked") fun _ => .finish (.result .null)

/-- An introduction with these members about tracing. -/
def greeting (trace : List (String × Json)) : Event :=
  .received (.message (.request ⟨.number 1, Method.handshake,
    some (.obj (("capabilities", .obj []) :: trace))⟩))

/-- The client has introduced itself, and confirms that. -/
def confirming : List Event :=
  [.reader, .reader, .reader, .reader,
   .received (.message (.notification ⟨Method.confirmed, none⟩)), .reader, .reader, .reader]

/-- The client asks for work, which is done. -/
def working : List Event :=
  [.received (.message (.request ⟨.number 2, "work", none⟩)), .reader, .reader, .reader] ++
    List.replicate 6 (.task 0 .forward)

/-- The client asks for all details first, and for less later on. -/
def curiousClient : List Event :=
  greeting [("trace", .str "verbose")] :: confirming ++
    [.received (.message (.notification
      ⟨Method.setTrace, some (.obj [("value", .str "messages")])⟩)), .reader, .reader, .reader] ++
    working ++ [.writer, .writer, .writer, .writer, .writer, .writer]

/-- The client never asks for a trace. -/
def plainClient : List Event := greeting [] :: confirming ++ working ++ [.writer, .writer]

/-- The curious client gets four entries of its trace more than the plain one, and nothing else. -/
theorem curiousClient_noninterference :
    (fresh.run talkativeServer curiousClient).link.written.length = 6 ∧
    (fresh.run talkativeServer plainClient).link.written.length = 2 ∧
    untraced (fresh.run talkativeServer curiousClient).link.written =
      untraced (fresh.run talkativeServer plainClient).link.written := by
  have hblind : talkativeServer.Blind (Breaks talkativeServer curiousClient) :=
    ((Server.bare_blind .default default).withTokens ⟨[], []⟩ _).withRequest "work"
      fun _ _ => ⟨fun _ => rfl, fun _ => trivial⟩
  have hsame : SameIntroduction (.obj [("capabilities", .obj []), ("trace", .str "verbose")])
      (.obj [("capabilities", .obj [])]) := by
    refine sameIntroduction_of_levelless (by decide) ?_ ?_
    · intro j hj
      obtain rfl : j = .str "verbose" := by simpa using hj
      exact ⟨some .verbose, by decide⟩
    · intro j hj
      simp at hj
  have hcurious : fresh.spine talkativeServer curiousClient =
      greeting [("trace", .str "verbose")] :: confirming ++ working ++ [.writer, .writer] := by
    decide +kernel
  have hplain : fresh.spine talkativeServer plainClient = plainClient := by decide +kernel
  have hschedule : SameSchedule talkativeServer curiousClient plainClient := by
    rw [SameSchedule, hcurious, hplain]
    exact .cons (.received (.message (.introduction _ hsame)))
      (List.forall₂_same.2 fun e _ => .same e)
  obtain ⟨hwritten, -⟩ := (run_tracing_noninterference talkativeServer curiousClient).1 plainClient
    hblind hschedule
  exact ⟨by decide +kernel, by decide +kernel, hwritten⟩

end Connection

end LanguageServer
