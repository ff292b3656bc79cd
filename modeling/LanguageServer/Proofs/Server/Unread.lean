import LanguageServer.Proofs.Server.Heard

set_option autoImplicit false

/-! # What the reader never gets to

The reader stops at the first thing that ends the connection, so what comes in behind that makes no
difference to anything. Only the reader looks at the inbox, and only at its head: every step commutes
with putting more at its end, as long as the reader finds what it looks for (`step_extend`). Once
something that ends the connection has come in, two runs that differ only in what comes in later
differ only in what is left unread (`run_quiet`). -/

namespace LanguageServer

/-- The events but for what comes in. -/
def quiet (events : List Event) : List Event := events.filter fun e => e.incoming?.isNone

theorem quiet_cons_of_none {e : Event} (h : e.incoming? = none) (events : List Event) :
    quiet (e :: events) = e :: quiet events := by
  simp [quiet, h]

theorem quiet_cons_of_some {e : Event} {incoming : Incoming} (h : e.incoming? = some incoming)
    (events : List Event) : quiet (e :: events) = quiet events := by
  simp [quiet, h]

namespace Connection

/-- The connection with other things waiting for the reader. -/
def withInbox (inbox : List Incoming) (c : Connection) : Connection := { c with inbox := inbox }

/-! ## Steps that do not look at the inbox -/

variable (xs : List Incoming) (c : Connection)

theorem noteProgress_withInbox (a : ProgressAction) :
    (c.withInbox xs).noteProgress a =
      ((c.noteProgress a).1, (c.noteProgress a).2.withInbox xs) := by
  unfold noteProgress
  dsimp only [withInbox]
  split
  · rfl
  · rfl

theorem fire_withInbox (token : CancelToken) :
    (c.withInbox xs).fire token = (c.fire token).withInbox xs := by
  have hspawned : (c.withInbox xs).spawned = c.spawned := rfl
  unfold fire
  rw [hspawned]
  split
  · rfl
  · rfl

theorem perform_withInbox (a : Action) :
    (c.withInbox xs).perform a = ((c.perform a).1, (c.perform a).2.withInbox xs) := by
  cases a with
  | progress a => exact noteProgress_withInbox xs c a
  | fire token => rw [perform, fire_withInbox]; rfl
  | _ => rfl

theorem forward_withInbox (a : Activity) :
    a.forward (c.withInbox xs) = ((a.forward c).1, (a.forward c).2.withInbox xs) := by
  have hlink : (c.withInbox xs).link = c.link := rfl
  have hfired : (c.withInbox xs).isFired = c.isFired := rfl
  unfold Activity.forward
  split
  · rfl
  · rfl
  · dsimp only
    rw [perform_withInbox]
  · rfl
  · rfl
  · rfl
  · rfl
  · rfl
  · rw [hlink]
    split
    · rfl
    · rfl
  · rw [hfired]
    split
    · rfl
    · rfl
  · rfl
  · rfl
  · split
    · rfl
    · rfl
  · split
    · rfl
    · rfl
  · rfl

theorem step_withInbox (timeout : Nat) (move : Move) (a : Activity) :
    a.step timeout (c.withInbox xs) move =
      ((a.step timeout c move).1, (a.step timeout c move).2.withInbox xs) := by
  cases move with
  | forward => exact forward_withInbox xs c a
  | call index => cases a with | _ => rfl
  | giveUp index => cases a with | _ => rfl

theorem stepTask_withInbox (s : Server) (key : Nat) (move : Move) :
    (c.withInbox xs).stepTask s key move = (c.stepTask s key move).withInbox xs := by
  have htask : (c.withInbox xs).task? key = c.task? key := rfl
  unfold stepTask
  rw [htask]
  split
  · rfl
  · split
    · rfl
    · rw [step_withInbox]
      rfl
    · rfl
    · rfl

theorem stepWorker_withInbox (s : Server) (move : Move) :
    (c.withInbox xs).stepWorker s move = (c.stepWorker s move).withInbox xs := by
  have hcurrent : (c.withInbox xs).current = c.current := rfl
  have hqueue : (c.withInbox xs).queue = c.queue := rfl
  unfold stepWorker
  rw [hcurrent, hqueue]
  split
  · rfl
  · dsimp only
    rw [step_withInbox]
    rfl
  · split
    · rfl
    · rfl

/-- An event that is neither something coming in nor a turn of the reader does not look at the
inbox. -/
theorem handle_withInbox (s : Server) {e : Event} (hincoming : e.incoming? = none)
    (hreader : e ≠ .reader) : (c.withInbox xs).handle s e = (c.handle s e).withInbox xs := by
  cases e with
  | received incoming => cases hincoming
  | reader => exact absurd rfl hreader
  | task key move => exact stepTask_withInbox xs c s key move
  | worker move => exact stepWorker_withInbox xs c s move
  | writer => rfl
  | withdrawal id => rfl
  | tick milliseconds => rfl
  | outputClosed => rfl

/-! ## The reader -/

theorem considerRequest_withInbox (s : Server) (r : Request) :
    (c.withInbox xs).considerRequest s r = (c.considerRequest s r).withInbox xs := by
  have hsession : (c.withInbox xs).session = c.session := rfl
  unfold considerRequest serveRequest start spawn
  rw [hsession]
  split
  · rfl
  · split
    · split
      · rfl
      · split
        · rfl
        · rfl
    · split
      · rfl
      · split
        · have hfree : (c.withInbox xs).isInFlight r.id = c.isInFlight r.id := rfl
          rw [hfree]
          split
          · rfl
          · rfl
        · split
          · rfl
          · rfl

theorem enqueue_withInbox (s : Server) (method : String) (params : Json) :
    (c.withInbox xs).enqueue s method params = (c.enqueue s method params).withInbox xs := by
  unfold enqueue
  split
  · rfl
  · rfl

theorem cancel_withInbox (id : RequestId) :
    (c.withInbox xs).cancel id = (c.cancel id).withInbox xs := by
  have hinFlight : (c.withInbox xs).inFlight = c.inFlight := rfl
  unfold cancel
  rw [hinFlight]
  split
  · exact fire_withInbox xs c _
  · rfl

theorem serveNotification_withInbox (method : String) (params : Json) :
    (c.withInbox xs).serveNotification method params =
      (c.serveNotification method params).withInbox xs := by
  unfold serveNotification
  split
  · rfl
  · split
    · rfl
    · split
      · split
        · exact cancel_withInbox xs c _
        · rfl
      · split
        · split
          · rfl
          · rfl
        · split
          · rfl
          · rfl

theorem serve_withInbox (s : Server) (m : Message) :
    (c.withInbox xs).serve s m = (c.serve s m).withInbox xs := by
  cases m with
  | request r => exact considerRequest_withInbox xs { c with reading := .idle } s r
  | notification n =>
      exact serveNotification_withInbox xs { c with reading := .idle } n.method _
  | response r => rfl

theorem take_withInbox (incoming : Incoming) :
    (c.withInbox xs).take incoming = (c.take incoming).withInbox xs := by
  have hsession : (c.withInbox xs).session = c.session := rfl
  unfold take
  rw [hsession]
  split
  · rfl
  · rfl
  · split
    · rfl
    · rfl
  · split
    · rfl
    · rfl
  · rfl

/-- A reader that is in the middle of something does not look at the inbox. -/
theorem stepReader_withInbox (s : Server) (hbusy : c.reading ≠ .idle) :
    (c.withInbox xs).stepReader s = (c.stepReader s).withInbox xs := by
  have hreading : (c.withInbox xs).reading = c.reading := rfl
  unfold stepReader
  rw [hreading]
  split
  · next hidle => exact absurd hidle hbusy
  · rfl
  · exact serve_withInbox xs c s _
  · rfl
  · exact enqueue_withInbox xs { c with reading := .idle } s _ _
  · rfl
  · rfl
  · rfl

/-- A turn of a reader that is in the middle of something leaves the inbox as it is. -/
theorem stepReader_inbox (s : Server) (hbusy : c.reading ≠ .idle) :
    (c.stepReader s).inbox = c.inbox := by
  have hsame : c.stepReader s = (c.stepReader s).withInbox c.inbox :=
    stepReader_withInbox c.inbox c s hbusy
  rw [hsame]
  rfl

theorem take_inbox (incoming : Incoming) : (c.take incoming).inbox = c.inbox := by
  have hsame : c.take incoming = (c.take incoming).withInbox c.inbox :=
    take_withInbox c.inbox c incoming
  rw [hsame]
  rfl

/-! ## More at the end of the inbox -/

/-- The connection with more waiting behind what waits already. -/
def extend (extra : List Incoming) (c : Connection) : Connection :=
  c.withInbox (c.inbox ++ extra)

/-- The connection has ended or is going to, with what has come in so far. -/
def WillEnd (c : Connection) : Prop :=
  c.fate ≠ none ∨ ∃ incoming ∈ c.ahead, incoming.isStop = true

variable {xs} {c}

/-- A reader that rests before the end has something to take up. -/
theorem WillEnd.inbox_ne_nil (h : c.WillEnd) (hending : c.ending = none)
    (hidle : c.reading = .idle) : c.inbox ≠ [] := by
  intro hinbox
  rcases h with hfate | ⟨incoming, hmem, -⟩
  · exact hfate (fate_of_idle hending hidle)
  · rw [ahead, hidle, hinbox] at hmem
    cases hmem

theorem stepReader_extend (s : Server) (hending : c.ending = none) (h : c.WillEnd)
    (extra : List Incoming) :
    (c.extend extra).stepReader s = (c.stepReader s).extend extra := by
  by_cases hidle : c.reading = .idle
  · cases hinbox : c.inbox with
    | nil => exact absurd hinbox (h.inbox_ne_nil hending hidle)
    | cons incoming rest =>
        have hstep : c.stepReader s = (c.withInbox rest).take incoming := by
          simp only [stepReader, withInbox, hidle, hinbox]
        have hstep' : (c.extend extra).stepReader s =
            (c.withInbox (rest ++ extra)).take incoming := by
          simp only [stepReader, extend, withInbox, hidle, hinbox, List.cons_append]
        rw [hstep, hstep', extend, take_inbox, take_withInbox, take_withInbox]
        rfl
  · rw [extend, stepReader_withInbox _ _ _ hidle, extend, stepReader_inbox _ _ hidle]

/-- **As long as the reader does not reach the end of the inbox, more there makes no
difference.** -/
theorem step_extend (s : Server) {e : Event} (hincoming : e.incoming? = none) (h : c.WillEnd)
    (extra : List Incoming) : (c.extend extra).step s e = (c.step s e).extend extra := by
  have hsame : (c.extend extra).ending = c.ending := rfl
  unfold step
  rw [hsame]
  split
  · next hending =>
      by_cases hreader : e = .reader
      · subst hreader
        exact stepReader_extend s hending h extra
      · rw [extend, handle_withInbox _ _ s hincoming hreader, extend,
          (handle_sameReading s hincoming hreader c).inbox]
  · split
    · rfl
    · rfl

theorem WillEnd.step (h : c.WillEnd) (horderly : c.Orderly) (s : Server) (e : Event) :
    (c.step s e).WillEnd := by
  have hstep := step_hears horderly s e
  cases hfate : c.fate with
  | some ending =>
      left
      rw [hstep.fate_eq, hfate]
      simp
  | none =>
      have hopen : c.ending = none := (Option.or_eq_none_iff.1 hfate).1
      rcases h with hends | ⟨stop, hmem, hstop⟩
      · exact absurd hfate hends
      -- The reader deals with the stop now, or the stop is still ahead.
      have hmem' : stop ∈ (c.deals? e).toList ++ (c.step s e).ahead := by
        rw [← hstep.ahead_eq hopen]
        exact List.mem_append_left _ hmem
      rcases List.mem_append.1 hmem' with hdealt | hahead
      · left
        have hdeals : c.deals? e = some stop := Option.mem_toList.1 hdealt
        have hends := c.session.isSome_ending? stop
        rw [hstep.fate_eq, hfate, hdeals, Option.none_or, Option.bind_some, ← Option.isSome_iff_ne_none,
          hends]
        exact hstop
      · exact .inr ⟨stop, hahead, hstop⟩

/-- What comes in is put at the end of the inbox, or lost. -/
theorem received_extend (s : Server) (extra : List Incoming) (incoming : Incoming)
    (c : Connection) :
    ∃ more, (c.extend extra).step s (.received incoming) = c.extend more := by
  cases hending : c.ending with
  | none =>
      refine ⟨extra ++ [incoming], ?_⟩
      simp [Connection.step, handle, extend, withInbox, hending]
  | some ending =>
      refine ⟨extra, ?_⟩
      simp [Connection.step, extend, withInbox, hending]

/-- **What comes in behind something that ends the connection changes nothing but what is left
unread.** -/
theorem run_quiet (h : c.WillEnd) (horderly : c.Orderly) (s : Server)
    (events : List Event) (extra : List Incoming) :
    ∃ extra', (c.extend extra).run s events =
      (c.run s (quiet events)).extend extra' := by
  induction events generalizing c extra with
  | nil => exact ⟨extra, rfl⟩
  | cons e events ih =>
      cases hincoming : e.incoming? with
      | none =>
          rw [run_cons, step_extend s hincoming h extra, quiet_cons_of_none hincoming, run_cons]
          exact ih (h.step horderly s e) (step_hears horderly s e).orderly extra
      | some incoming =>
          obtain ⟨more, hmore⟩ := received_extend s extra incoming c
          rw [quiet_cons_of_some hincoming]
          obtain rfl := Event.eq_received hincoming
          rw [run_cons, hmore]
          exact ih h horderly more

end Connection

end LanguageServer
