import Mathlib.Data.List.Nodup
import LanguageServer.Proofs.Server.Answers
import LanguageServer.Proofs.Server.Heard

set_option autoImplicit false

/-! # The requests being worked on

Of a connection, only the table of requests, the tokens fired, the work on requests and whether all
is over matter for what becomes of a request that has been handed to a handler: `Connection.desk`. An
event does one of eight things to it (`step_turn`): nothing, a request is entered, the client cancels
one, a handler fires a token, the work on a request takes it out of the table, looks at its token or
sends the response, or all work is dropped. What bears on responses is marked, and `Connection.marks`
are the marks of a run. -/

namespace LanguageServer

/-- What happens to the requests being worked on. -/
inductive Mark where
  /-- A request is entered, to be worked on under a key. -/
  | entered (key : Nat) (id : RequestId)
  /-- The client cancels a request. -/
  | cancelled (id : RequestId)
  /-- A handler fires a token. -/
  | fired (token : CancelToken)
  /-- The work under a key is no longer entered; its handler has come to an outcome. -/
  | left (key : Nat) (own : Outcome)
  /-- The work under a key looks at its token, and the response is known. -/
  | judged (key : Nat)
deriving DecidableEq, Repr

/-- How far the work on a request is. -/
inductive SlotStage where
  /-- The request is in the table. -/
  | busy
  /-- It is no longer there, and its handler has come to an outcome. -/
  | unlisted (own : Outcome)
  /-- The response is known. -/
  | known (outcome : Outcome)
deriving DecidableEq, Repr

/-- A piece of work: its key, the request and how far it is. -/
structure Slot where
  key : Nat
  id : RequestId
  stage : SlotStage
deriving DecidableEq, Repr

/-- The work on the requests of a connection. -/
structure Desk where
  inFlight : List (RequestId × CancelToken)
  fired : List CancelToken
  slots : List Slot
  spawned : Nat
  /-- All work has been dropped. -/
  isOver : Bool

namespace Desk

/-- The desk after a request has been entered. -/
def enter (id : RequestId) (d : Desk) : Desk :=
  { d with
    inFlight := d.inFlight ++ [(id, d.spawned)]
    slots := d.slots ++ [⟨d.spawned, id, .busy⟩]
    spawned := d.spawned + 1 }

/-- The desk after a token has been fired. -/
def fire (token : CancelToken) (d : Desk) : Desk :=
  if token < d.spawned then { d with fired := d.fired.insert token } else d

/-- The desk after a request has been cancelled. -/
def cancel (id : RequestId) (d : Desk) : Desk :=
  match d.inFlight.lookup id with
  | some token => d.fire token
  | none => d

def setStage (key : Nat) (stage : SlotStage) (d : Desk) : Desk :=
  { d with
    slots := d.slots.map fun slot => if slot.key = key then { slot with stage := stage } else slot }

/-- The desk after the work under a key has taken its request out of the table. -/
def leave (key : Nat) (id : RequestId) (own : Outcome) (d : Desk) : Desk :=
  { d.setStage key (.unlisted own) with inFlight := d.inFlight.filter fun entry => entry.1 ≠ id }

/-- The desk after the work under a key has looked at its token. -/
def judge (key : Nat) (own : Outcome) (d : Desk) : Desk :=
  d.setStage key (.known (Connection.response (d.fired.contains key) own))

/-- The desk after the response of the work under a key has been sent. -/
def reply (key : Nat) (d : Desk) : Desk := { d with slots := d.slots.filter fun slot => slot.key ≠ key }

def clear (d : Desk) : Desk := { d with slots := [], isOver := true }

/-- What one event can do to a desk, and how that is marked. -/
inductive Turn (d : Desk) : Option Mark → Desk → Prop where
  | quiet : Turn d none d
  | entered (id : RequestId) (hopen : d.isOver = false) (hfree : d.inFlight.lookup id = none) :
      Turn d (some (.entered d.spawned id)) (d.enter id)
  | cancelled (id : RequestId) : Turn d (some (.cancelled id)) (d.cancel id)
  | fired (token : CancelToken) : Turn d (some (.fired token)) (d.fire token)
  | left (slot : Slot) (own : Outcome) (hmem : slot ∈ d.slots) (hbusy : slot.stage = .busy) :
      Turn d (some (.left slot.key own)) (d.leave slot.key slot.id own)
  | judged (slot : Slot) (own : Outcome) (hmem : slot ∈ d.slots)
      (hunlisted : slot.stage = .unlisted own) :
      Turn d (some (.judged slot.key)) (d.judge slot.key own)
  | replied (slot : Slot) (outcome : Outcome) (hmem : slot ∈ d.slots)
      (hknown : slot.stage = .known outcome) : Turn d none (d.reply slot.key)
  | dropped : Turn d none d.clear

theorem Turn.congr {d d' d'' : Desk} {m : Option Mark} (h : d.Turn m d') (heq : d'' = d') :
    d.Turn m d'' := heq ▸ h

end Desk

/-- The request that a notification cancels. -/
def Notification.cancels? (n : Notification) : Option RequestId :=
  if n.method = Method.cancelRequest then
    (CancelParams.codec.decode (n.params.getD .null)).toOption.map (·.id)
  else none

/-- The token that a handler fires at its next step. -/
def Activity.fires? : Activity → Move → Option CancelToken
  | .running (.act (.fire token) _), .forward => some token
  | _, _ => none

def TaskStage.slotStage : TaskStage → SlotStage
  | .working _ => .busy
  | .unlisted own => .unlisted own
  | .replying outcome => .known outcome

namespace Task

def slot (t : Task) : Slot := ⟨t.key, t.id, t.stage.slotStage⟩

/-- What the next step of the work does to the requests being worked on. -/
def mark? (t : Task) (move : Move) : Option Mark :=
  match t.stage with
  | .working (.ended outcome) => some (.left t.key (outcome.getD (crashed t.method)))
  | .working activity => (activity.fires? move).map .fired
  | .unlisted _ => some (.judged t.key)
  | .replying _ => none

end Task

namespace Connection

/-- The part of a connection that matters for the requests being worked on. -/
def desk (c : Connection) : Desk :=
  ⟨c.inFlight, c.fired, c.tasks.map Task.slot, c.spawned, c.fate.isSome⟩

/-- What an event does to the requests being worked on: the reader enters a request that was not in
the table or serves a cancellation, the work on a request goes on, or the handler of a notification
fires a token. -/
def mark? (s : Server) (c : Connection) (e : Event) : Option Mark :=
  match c.ending, e, c.reading with
  | none, .reader, .noted (.request r) =>
    if c.isInFlight r.id then none
    else if (c.step s .reader).isInFlight r.id then some (.entered c.spawned r.id)
    else none
  | none, .reader, .noted (.notification n) => n.cancels?.map .cancelled
  | none, .task key move, _ => (c.task? key).bind fun t => t.mark? move
  | none, .worker move, _ => c.current.bind fun call => (call.activity.fires? move).map .fired
  | _, _, _ => none

/-- What happens to the requests being worked on in a run. -/
def marks (s : Server) (c : Connection) : List Event → List Mark
  | [] => []
  | e :: events => (c.mark? s e).toList ++ marks s (c.step s e) events

theorem desk_eq {c : Connection} {d : Desk} (hinFlight : c.inFlight = d.inFlight)
    (hfired : c.fired = d.fired) (hslots : c.tasks.map Task.slot = d.slots)
    (hspawned : c.spawned = d.spawned) (hover : c.fate.isSome = d.isOver) : c.desk = d := by
  rw [desk, hinFlight, hfired, hslots, hspawned, hover]

theorem fire_desk (token : CancelToken) (c : Connection) :
    (c.fire token).desk = c.desk.fire token := by
  unfold fire Desk.fire
  split
  · next hgiven => exact (if_pos (show token < c.desk.spawned from hgiven)).symm
  · next hgiven => exact (if_neg (show ¬ token < c.desk.spawned from hgiven)).symm

theorem cancel_desk (id : RequestId) (c : Connection) :
    (c.cancel id).desk = c.desk.cancel id := by
  unfold cancel Desk.cancel
  rw [show c.desk.inFlight = c.inFlight from rfl]
  cases c.inFlight.lookup id with
  | none => rfl
  | some token => exact fire_desk token c

end Connection

/-! ## Handlers -/

namespace Activity

theorem perform_fired {a : Action} (h : ∀ token, a ≠ .fire token) (c : Connection) :
    (c.perform a).2.fired = c.fired := by
  cases a with
  | fire token => exact absurd rfl (h token)
  | progress a =>
      unfold Connection.perform Connection.noteProgress
      dsimp only
      split
      · rfl
      · rfl
  | _ => rfl

theorem forward_fired {a : Activity} (h : a.fires? .forward = none) (c : Connection) :
    (a.forward c).2.fired = c.fired := by
  unfold forward
  split
  · rfl
  · rfl
  · next a next =>
      refine perform_fired (fun token hfire => ?_) c
      subst hfire
      cases h
  · rfl
  · rfl
  · rfl
  · rfl
  · rfl
  · split
    · rfl
    · rfl
  · split
    · rfl
    · rfl
  · rfl
  · rfl
  · split
    · rfl
    · rfl
  · split
    · rfl
    · rfl
  · rfl

theorem atCall_fired (f : OngoingCall → Link → OngoingCall × Link) (index : Nat) (c : Connection)
    (a : Activity) : (a.atCall f index c).2.fired = c.fired := by
  unfold atCall
  split
  · rfl
  · rfl
  · rfl

/-- Of the work on requests, a handler reaches the tokens, one at a time. -/
theorem step_desk (timeout : Nat) (c : Connection) (move : Move) (a : Activity) :
    (a.step timeout c move).2.desk = (a.fires? move).elim c.desk c.desk.fire := by
  cases hfires : a.fires? move with
  | none =>
      have hfired : (a.step timeout c move).2.fired = c.fired := by
        cases move with
        | forward => exact forward_fired hfires c
        | call index => exact atCall_fired _ index c a
        | giveUp index => exact atCall_fired _ index c a
      obtain ⟨link, cache, progress, streams, fired, heq, -⟩ := step_acts timeout c move a
      rw [heq] at hfired ⊢
      obtain rfl : fired = c.fired := hfired
      rfl
  | some token =>
      unfold fires? at hfires
      split at hfires
      · obtain rfl := Option.some.inj hfires
        exact Connection.fire_desk _ c
      · cases hfires

theorem step_turn (timeout : Nat) (c : Connection) (move : Move) (a : Activity) :
    c.desk.Turn ((a.fires? move).map .fired) (a.step timeout c move).2.desk := by
  rw [step_desk]
  cases a.fires? move with
  | none => exact .quiet
  | some token => exact .fired token

end Activity

namespace Connection

variable {c c' : Connection}

theorem stepWorker_turn (hending : c.ending = none) (s : Server) (move : Move) :
    c.desk.Turn (c.mark? s (.worker move)) (c.stepWorker s move).desk := by
  have hmark : c.mark? s (.worker move) =
      c.current.bind fun call => (call.activity.fires? move).map .fired := by
    simp only [mark?, hending]
  rw [hmark]
  unfold stepWorker
  split
  · next hcurrent =>
      rw [hcurrent]
      exact .quiet
  · next call _ hcurrent =>
      rw [hcurrent]
      exact Activity.step_turn s.options.requestTimeout c move call.activity
  · next hcurrent =>
      rw [hcurrent]
      split
      · exact .quiet
      · exact .quiet

/-! ## The work on requests -/

theorem slots_setStage (c : Connection) (key : Nat) (stage : TaskStage) :
    (c.setStage key stage).tasks.map Task.slot = (c.desk.setStage key stage.slotStage).slots := by
  simp only [setStage, Desk.setStage, desk, List.map_map]
  refine List.map_congr_left fun t _ => ?_
  by_cases hkey : t.key = key
  · simp [Task.slot, hkey]
  · simp [Task.slot, hkey]

/-- A step of a handler changes no slot. -/
theorem setStage_working_desk (hkeyed : c.Keyed) (hacts : c.Acts c') {t : Task} (ht : t ∈ c.tasks)
    (hbusy : t.stage.slotStage = .busy) (activity : Activity) :
    (c'.setStage t.key (.working activity)).desk = c'.desk := by
  obtain ⟨link, cache, progress, streams, fired, rfl, -⟩ := hacts
  refine desk_eq rfl rfl ((slots_setStage c t.key _).trans ?_) rfl rfl
  refine (List.map_congr_left fun slot hslot => ?_).trans (List.map_id _)
  obtain ⟨u, hu, rfl⟩ := List.mem_map.1 hslot
  split
  · next hkey =>
      obtain rfl := List.inj_on_of_nodup_map hkeyed.nodup hu ht hkey
      simp only [Task.slot, hbusy]
      rfl
  · rfl

theorem slots_filter (c : Connection) (key : Nat) :
    (c.tasks.filter fun t => t.key ≠ key).map Task.slot =
      c.desk.slots.filter fun slot => slot.key ≠ key := by
  rw [desk, List.filter_map]
  rfl

theorem stepTask_turn (hkeyed : c.Keyed) (hending : c.ending = none) (s : Server) (key : Nat)
    (move : Move) : c.desk.Turn (c.mark? s (.task key move)) (c.stepTask s key move).desk := by
  cases htask : c.task? key with
  | none =>
      have hmark : c.mark? s (.task key move) = none := by
        simp only [mark?, hending, htask, Option.bind_none]
      simp only [hmark, stepTask, htask]
      exact .quiet
  | some t =>
      have hmem : t ∈ c.tasks := List.mem_of_find?_eq_some htask
      have hkey : t.key = key := by simpa using List.find?_some htask
      have hslot : t.slot ∈ c.desk.slots := List.mem_map_of_mem hmem
      subst hkey
      have hmark : c.mark? s (.task t.key move) = t.mark? move := by
        simp only [mark?, hending, htask, Option.bind_some]
      simp only [hmark, stepTask, htask]
      split
      · -- The handler has ended: the work takes its request out of the table.
        next outcome hended =>
          have hown : t.mark? move = some (.left t.key (outcome.getD (Task.crashed t.method))) := by
            simp only [Task.mark?, hended]
          have hbusy : t.slot.stage = .busy := by rw [Task.slot, hended]; rfl
          rw [hown]
          exact (Desk.Turn.left t.slot _ hslot hbusy).congr
            (desk_eq rfl rfl (slots_setStage c t.key _) rfl rfl)
      · next activity hended hworking =>
          have hfires : t.mark? move = (activity.fires? move).map .fired := by
            unfold Task.mark?
            split
            · next outcome hstage =>
                exact (hended outcome (TaskStage.working.inj (hworking.symm.trans hstage))).elim
            · next activity' _ hstage =>
                rw [TaskStage.working.inj (hworking.symm.trans hstage)]
            · next hstage => cases hworking.symm.trans hstage
            · next hstage => cases hworking.symm.trans hstage
          have hacts := Activity.step_acts s.options.requestTimeout c move activity
          have hturn := Activity.step_turn s.options.requestTimeout c move activity
          have hbusy : t.stage.slotStage = .busy := by rw [hworking]; rfl
          rw [hfires]
          exact hturn.congr (setStage_working_desk hkeyed hacts hmem hbusy _)
      · next own hunlisted =>
          have hjudged : t.mark? move = some (.judged t.key) := by
            simp only [Task.mark?, hunlisted]
          rw [hjudged]
          exact (Desk.Turn.judged t.slot own hslot (by rw [Task.slot, hunlisted]; rfl)).congr
            (desk_eq rfl rfl (slots_setStage c t.key _) rfl rfl)
      · next outcome hreplying =>
          have hnone : t.mark? move = none := by simp only [Task.mark?, hreplying]
          rw [hnone]
          exact (Desk.Turn.replied t.slot outcome hslot (by rw [Task.slot, hreplying]; rfl)).congr
            (desk_eq rfl rfl (slots_filter c t.key) rfl rfl)

/-! ## The reader -/

/-- The reader goes on, and the end is no nearer. -/
theorem quiet_turn (hending : c.ending = none) (hgoes : c.reading.fate? = none)
    (hinFlight : c'.inFlight = c.inFlight) (hfired : c'.fired = c.fired)
    (htasks : c'.tasks = c.tasks) (hspawned : c'.spawned = c.spawned) (hopen : c'.ending = none)
    (hreading : c'.reading.fate? = none) : c.desk.Turn none c'.desk := by
  refine Desk.Turn.quiet.congr (desk_eq hinFlight hfired (by rw [htasks]; rfl) hspawned ?_)
  rw [fate_of_ending hopen, hreading, desk, fate_of_ending hending, hgoes]

theorem drop_turn (hending : c.ending = none) (ending : Ending) {d : Desk}
    (hinFlight : c.inFlight = d.inFlight) (hfired : c.fired = d.fired)
    (hspawned : c.spawned = d.spawned) :
    d.Turn none (c.drop ending).desk := by
  have hfate : (c.drop ending).fate = some ending := fate_of_ending hending
  exact Desk.Turn.dropped.congr (desk_eq hinFlight hfired rfl hspawned (by rw [hfate]; rfl))

theorem take_turn (hending : c.ending = none) (hidle : c.reading = .idle) {rest : List Incoming}
    (incoming : Incoming) : c.desk.Turn none ({ c with inbox := rest }.take incoming).desk := by
  have hgoes : c.reading.fate? = none := by rw [hidle]; rfl
  unfold take
  split
  · exact quiet_turn hending hgoes rfl rfl rfl rfl hending rfl
  · exact quiet_turn hending hgoes rfl rfl rfl rfl hending rfl
  · split
    · exact quiet_turn hending hgoes rfl rfl rfl rfl hending rfl
    · exact quiet_turn hending hgoes rfl rfl rfl rfl hending hgoes
  · split
    · exact quiet_turn hending hgoes rfl rfl rfl rfl hending rfl
    · exact quiet_turn hending hgoes rfl rfl rfl rfl hending hgoes
  · exact drop_turn (c := { c with inbox := rest }) hending _ rfl rfl rfl

/-- A request is entered, or it is answered at once. -/
theorem serveRequest_turn (hending : c.ending = none) {r : Request}
    (hnoted : c.reading = .noted (.request r)) (s : Server) :
    c.desk.Turn (c.mark? s .reader) (c.serve s (.request r)).desk := by
  have hgoes : c.reading.fate? = none := by rw [hnoted]; rfl
  have hstep : c.step s .reader = c.serve s (.request r) := step_noted hending hnoted s
  have hmark : c.mark? s .reader =
      if c.isInFlight r.id then none
      else if (c.serve s (.request r)).isInFlight r.id then some (.entered c.spawned r.id)
      else none := by
    simp only [mark?, hending, hnoted, ← hstep]
  rcases considerRequest_cases s r { c with reading := .idle } with
    ⟨session, outcome, heq⟩ | ⟨program, hfree, heq⟩
  · -- Answered at once: the table is as before, so nothing is marked.
    rw [← serve_request] at heq
    have hsame : (c.serve s (.request r)).isInFlight r.id = c.isInFlight r.id := by rw [heq]; rfl
    have hnone : c.mark? s .reader = none := by
      rw [hmark, hsame]
      split
      · rfl
      · rfl
    rw [hnone, heq]
    exact quiet_turn hending hgoes rfl rfl rfl rfl hending rfl
  · -- Handed to a handler: the id was free and is in the table now.
    rw [← serve_request] at heq
    have hlookup : c.inFlight.lookup r.id = none := by
      simpa [isInFlight] using hfree
    have hentered : (c.serve s (.request r)).isInFlight r.id = true := by
      rw [heq, isInFlight, List.lookup_append]
      simp
    have hbefore : ¬ c.isInFlight r.id = true := by simp [isInFlight, hlookup]
    rw [hmark, if_neg hbefore, if_pos hentered, heq]
    have hopen : c.desk.isOver = false := by
      rw [desk, fate_of_ending hending, hgoes]
      rfl
    refine (Desk.Turn.entered r.id hopen hlookup).congr (desk_eq rfl rfl ?_ rfl ?_)
    · rw [List.map_append]
      rfl
    · exact (congrArg Option.isSome (fate_of_ending (by exact hending))).trans hopen.symm

/-- A notification cancels a request, ends the connection, or leaves the work on requests alone. -/
theorem serveNotification_turn (hending : c.ending = none) {n : Notification}
    (hnoted : c.reading = .noted (.notification n)) (s : Server) :
    c.desk.Turn (n.cancels?.map .cancelled) (c.serve s (.notification n)).desk := by
  have hgoes : c.reading.fate? = none := by rw [hnoted]; rfl
  rw [serve_notification]
  by_cases hcancel : n.method = Method.cancelRequest
  · rw [Notification.cancels?, if_pos hcancel, serveNotification, if_neg (by rw [hcancel]; decide),
      if_neg (by rw [hcancel]; decide), if_pos hcancel]
    cases CancelParams.codec.decode (n.params.getD .null) with
    | ok p =>
        have hidle : { c with reading := .idle : Connection }.desk = c.desk := by
          refine desk_eq rfl rfl rfl rfl ?_
          rw [desk, fate_of_ending hending, hgoes]
          exact congrArg Option.isSome (fate_of_ending (by exact hending))
        exact (Desk.Turn.cancelled p.id).congr (by rw [cancel_desk, hidle])
    | error fault => exact quiet_turn hending hgoes rfl rfl rfl rfl hending rfl
  · rw [Notification.cancels?, if_neg hcancel, serveNotification, if_neg hcancel, Option.map_none]
    split
    · exact drop_turn (c := { c with session := _, reading := _ }) hending _ rfl rfl rfl
    · split
      · exact quiet_turn hending hgoes rfl rfl rfl rfl hending rfl
      · split
        · split
          · exact quiet_turn hending hgoes rfl rfl rfl rfl hending rfl
          · exact quiet_turn hending hgoes rfl rfl rfl rfl hending rfl
        · split
          · exact quiet_turn hending hgoes rfl rfl rfl rfl hending rfl
          · exact quiet_turn hending hgoes rfl rfl rfl rfl hending rfl

theorem stepReader_turn (hending : c.ending = none) (s : Server) :
    c.desk.Turn (c.mark? s .reader) (c.stepReader s).desk := by
  cases hreading : c.reading with
  | idle =>
      have hmark : c.mark? s .reader = none := by simp only [mark?, hending, hreading]
      rw [hmark]
      cases hinbox : c.inbox with
      | nil =>
          have hsame : c.stepReader s = c := by simp only [stepReader, hreading, hinbox]
          rw [hsame]
          exact .quiet
      | cons incoming rest =>
          have hstep : c.stepReader s = { c with inbox := rest }.take incoming := by
            simp only [stepReader, hreading, hinbox]
          rw [hstep]
          exact take_turn hending hreading incoming
  | taken m =>
      have hmark : c.mark? s .reader = none := by simp only [mark?, hending, hreading]
      have hstep : c.stepReader s = c.note m := by simp only [stepReader, hreading]
      obtain ⟨link, hnote, -⟩ := c.note_eq m
      rw [hmark, hstep, hnote]
      exact quiet_turn hending (by rw [hreading]; rfl) rfl rfl rfl rfl hending rfl
  | noted m =>
      have hstep : c.stepReader s = c.serve s m := by simp only [stepReader, hreading]
      rw [hstep]
      cases m with
      | request r => exact serveRequest_turn hending hreading s
      | notification n =>
          have hmark : c.mark? s .reader = n.cancels?.map .cancelled := by
            simp only [mark?, hending, hreading]
          rw [hmark]
          exact serveNotification_turn hending hreading s
      | response r =>
          have hmark : c.mark? s .reader = none := by simp only [mark?, hending, hreading]
          rw [hmark]
          exact quiet_turn hending (by rw [hreading]; rfl) rfl rfl rfl rfl hending rfl
  | forgotten params =>
      have hmark : c.mark? s .reader = none := by simp only [mark?, hending, hreading]
      have hstep : c.stepReader s = c.sync Method.didClose params := by
        simp only [stepReader, hreading]
      rw [hmark, hstep]
      exact quiet_turn hending (by rw [hreading]; rfl) rfl rfl rfl rfl hending rfl
  | synced method params =>
      have hmark : c.mark? s .reader = none := by simp only [mark?, hending, hreading]
      have hstep : c.stepReader s = { c with reading := .idle }.enqueue s method params := by
        simp only [stepReader, hreading]
      obtain ⟨queue, hqueue⟩ := enqueue_eq s method params { c with reading := .idle }
      rw [hmark, hstep, hqueue]
      exact quiet_turn hending (by rw [hreading]; rfl) rfl rfl rfl rfl hending rfl
  | answering m =>
      have hmark : c.mark? s .reader = none := by simp only [mark?, hending, hreading]
      have hstep : c.stepReader s = { c.post m with reading := .idle } := by
        simp only [stepReader, hreading]
      rw [hmark, hstep]
      exact quiet_turn hending (by rw [hreading]; rfl) rfl rfl rfl rfl hending rfl
  | dropped ending | leaving ending =>
      -- All work has been dropped already.
      have hmark : c.mark? s .reader = none := by simp only [mark?, hending, hreading]
      have hover : c.desk.isOver = true := by
        rw [desk, fate_of_ending hending, hreading]
        rfl
      rw [hmark]
      refine Desk.Turn.quiet.congr (desk_eq ?_ ?_ ?_ ?_ ?_)
      · simp only [stepReader, hreading]; rfl
      · simp only [stepReader, hreading]; rfl
      · simp only [stepReader, hreading]; rfl
      · simp only [stepReader, hreading]; rfl
      · rw [hover]
        simp [stepReader, hreading, fate, Reading.fate?]

/-- **What one event does to the requests being worked on.** -/
theorem step_turn (hkeyed : c.Keyed) (s : Server) (e : Event) :
    c.desk.Turn (c.mark? s e) (c.step s e).desk := by
  cases hending : c.ending with
  | some ending =>
      have hmark : c.mark? s e = none := by simp only [mark?, hending]
      rw [hmark]
      refine Desk.Turn.quiet.congr ?_
      simp only [step, hending]
      split
      · simp [desk, fate, hending]
      · rfl
  | none =>
      have hstep : c.step s e = c.handle s e := by simp only [step, hending]
      rw [hstep]
      cases e with
      | reader => exact stepReader_turn hending s
      | task key move => exact stepTask_turn hkeyed hending s key move
      | worker move => exact stepWorker_turn hending s move
      | received incoming | writer | withdrawal id | tick milliseconds | outputClosed =>
          simp only [mark?, hending]
          exact .quiet

end Connection

end LanguageServer
