import LanguageServer.Proofs.Server.Frame

set_option autoImplicit false

/-! # Every request is answered once

A request that comes in waits for the reader, then the reader has it in hand, then it is worked on
or its response is about to be sent, and in the end its response has been sent. At any moment each
request is in exactly one of these places, so for every id the requests that came in are as many as
the responses sent and the requests in the other places together. This holds while the connection is
open; once the line is closed or the connection ends, requests are lost, but never answered twice.

What one event does to the count is `Connection.Advances`, one lemma for each kind of event
(`step_advances`); a whole run follows by induction (`run_advances`). The only thing to be known
about the work itself is that no two pieces of it have the same key, so that a response takes out
one of them and no other. -/

namespace LanguageServer

/-! ## Counting requests and responses -/

/-- Whether a message is a request with this id. -/
def Message.asks (i : RequestId) : Message → Bool
  | .request r => r.id = i
  | .notification _ | .response _ => false

/-- Whether a message is a response with this id. -/
def Message.answers (i : RequestId) : Message → Bool
  | .response r => r.id = some i
  | .request _ | .notification _ => false

def Incoming.asks (i : RequestId) : Incoming → Bool
  | .message m => m.asks i
  | .unreadable _ | .ended _ => false

def Event.asks (i : RequestId) : Event → Bool
  | .received incoming => incoming.asks i
  | _ => false

/-- How many requests with this id the reader is busy with: one that it has taken and not served, or
one whose response it is about to send. -/
def Reading.inHand (i : RequestId) : Reading → Nat
  | .taken m | .noted m => (m.asks i).toNat
  | .answering m => (m.answers i).toNat
  | .idle | .forgotten _ | .synced .. | .dropped _ | .leaving _ => 0

/-- Whether the connection is about to end. -/
def Reading.isEnding : Reading → Bool
  | .dropped _ | .leaving _ => true
  | .idle | .taken _ | .noted _ | .forgotten _ | .synced .. | .answering _ => false

/-- How many responses with this id have been sent. -/
def Link.responses (i : RequestId) (l : Link) : Nat := l.sent.countP (·.answers i)

namespace Connection

/-- How many pieces of work on requests with this id have not sent their response. -/
def unfinished (i : RequestId) (c : Connection) : Nat := c.tasks.countP (·.id = i)

/-- How many requests with this id the reader has not come to. -/
def unread (i : RequestId) (c : Connection) : Nat := c.inbox.countP (·.asks i)

/-- Messages can be sent, and the connection neither has ended nor is about to. -/
def IsOpen (c : Connection) : Prop :=
  c.link.writerOpen = true ∧ c.ending = none ∧ c.reading.isEnding = false

instance (c : Connection) : Decidable c.IsOpen := inferInstanceAs (Decidable (_ ∧ _ ∧ _))

/-- The requests with this id that the connection owes a response. -/
def owed (i : RequestId) (c : Connection) : Nat :=
  c.unfinished i + c.reading.inHand i + c.unread i

end Connection

theorem countP_concat {α : Type} (p : α → Bool) (l : List α) (a : α) :
    (l ++ [a]).countP p = l.countP p + (p a).toNat := by
  rw [List.countP_append, List.countP_singleton]
  cases p a <;> rfl

/-! ## Sending -/

theorem Link.Talks.responses_eq {l l' : Link} (h : l.Talks l') (i : RequestId) :
    l'.responses i = l.responses i := by
  obtain ⟨ms, hms, hnone⟩ := h.sent
  have hzero : ms.countP (·.answers i) = 0 := by
    rw [List.countP_eq_zero]
    intro m hm
    cases m with
    | response r => exact absurd rfl (hnone _ hm r)
    | request r => exact Bool.false_ne_true
    | notification n => exact Bool.false_ne_true
  simp only [Link.responses, Link.sent, h.written, hms, List.countP_append, hzero]
  rfl

theorem Link.responses_post {l : Link} (h : l.writerOpen = true) (m : Message) (i : RequestId) :
    (l.post m).responses i = l.responses i + (m.answers i).toNat := by
  simp only [Link.responses, Link.sent, Link.post, Link.send, h, if_true]
  rw [← List.append_assoc, countP_concat]

theorem Link.post_closed {l : Link} (h : l.writerOpen = false) (m : Message) : l.post m = l := by
  simp [Link.post, Link.send, h]

theorem Link.writerOpen_post (l : Link) (m : Message) : (l.post m).writerOpen = l.writerOpen := by
  unfold Link.post Link.send
  split
  · rfl
  · rfl

/-- What is written has been sent; a message that the client does not take closes the line. -/
theorem Link.writeNext_cases (l : Link) :
    (l.writeNext.sent = l.sent ∧ l.writeNext.writerOpen = l.writerOpen) ∨
    (l.writeNext.writerOpen = false ∧ ∀ i, l.writeNext.responses i ≤ l.responses i) := by
  unfold Link.writeNext
  split
  · exact .inl ⟨rfl, rfl⟩
  · next m rest houtbox =>
      split
      · refine .inl ⟨?_, rfl⟩
        simp [Link.sent, houtbox]
      · refine .inr ⟨rfl, fun i => ?_⟩
        simp [Link.responses, Link.sent]

namespace Connection

/-! ## Tasks -/

/-- The pieces of work have different keys, all of them given out. -/
structure Keyed (c : Connection) : Prop where
  nodup : (c.tasks.map Task.key).Nodup
  below : ∀ t ∈ c.tasks, t.key < c.spawned

theorem Keyed.of_keys {c c' : Connection} (h : c.Keyed)
    (hkeys : c'.tasks.map Task.key = c.tasks.map Task.key) (hspawned : c'.spawned = c.spawned) :
    c'.Keyed := by
  refine ⟨hkeys ▸ h.nodup, fun t ht => ?_⟩
  have hmem : t.key ∈ c.tasks.map Task.key := hkeys ▸ List.mem_map_of_mem ht
  obtain ⟨u, hu, hkey⟩ := List.mem_map.1 hmem
  rw [hspawned, ← hkey]
  exact h.below u hu

theorem Keyed.of_sublist {c c' : Connection} (h : c.Keyed) (htasks : c'.tasks.Sublist c.tasks)
    (hspawned : c'.spawned = c.spawned) : c'.Keyed :=
  ⟨h.nodup.sublist (htasks.map _), fun t ht => hspawned ▸ h.below t (htasks.subset ht)⟩

theorem Keyed.spawn {c c' : Connection} (h : c.Keyed) {t : Task} (hkey : t.key = c.spawned)
    (htasks : c'.tasks = c.tasks ++ [t]) (hspawned : c'.spawned = c.spawned + 1) : c'.Keyed := by
  constructor
  · rw [htasks, List.map_append, List.nodup_append]
    refine ⟨h.nodup, by simp, fun k hk k' hk' heq => ?_⟩
    obtain ⟨u, hu, rfl⟩ := List.mem_map.1 hk
    have hlt := h.below u hu
    rw [List.map_singleton, List.mem_singleton] at hk'
    omega
  · intro u hu
    rw [htasks] at hu
    rcases List.mem_append.1 hu with hu | hu
    · have hlt := h.below u hu
      omega
    · rw [List.mem_singleton.1 hu]
      omega

theorem keys_setStage (c : Connection) (key : Nat) (stage : TaskStage) :
    (c.setStage key stage).tasks.map Task.key = c.tasks.map Task.key := by
  simp only [setStage, List.map_map]
  refine List.map_congr_left fun t _ => ?_
  simp only [Function.comp_apply]
  split
  · rfl
  · rfl

theorem unfinished_setStage (c : Connection) (key : Nat) (stage : TaskStage) (i : RequestId) :
    (c.setStage key stage).unfinished i = c.unfinished i := by
  simp only [unfinished, setStage, List.countP_map]
  refine List.countP_congr fun t _ => ?_
  simp only [Function.comp_apply]
  split
  · rfl
  · rfl

/-- Taking out one piece of work takes out its request and no other. -/
theorem countP_filter_key {tasks : List Task} (hnodup : (tasks.map Task.key).Nodup) {t : Task}
    (ht : t ∈ tasks) (p : Task → Bool) :
    (tasks.filter fun u => u.key ≠ t.key).countP p + (p t).toNat = tasks.countP p := by
  induction tasks with
  | nil => cases ht
  | cons u tasks ih =>
      rw [List.map_cons, List.nodup_cons] at hnodup
      rcases List.mem_cons.1 ht with rfl | hmem
      · have hrest : (tasks.filter fun u => u.key ≠ t.key) = tasks := by
          rw [List.filter_eq_self]
          intro u hu
          have hne : u.key ≠ t.key := fun heq => hnodup.1 (heq ▸ List.mem_map_of_mem hu)
          simp [hne]
        rw [List.filter_cons_of_neg (by simp), hrest, List.countP_cons]
        cases p t <;> rfl
      · have hne : u.key ≠ t.key := fun heq => hnodup.1 (heq ▸ List.mem_map_of_mem hmem)
        rw [List.filter_cons_of_pos (by simp [hne]), List.countP_cons, List.countP_cons,
          ← ih hnodup.2 hmem]
        omega

/-! ## One step -/

/-- From `c` to `c'` there came in `n` requests with the id, and nothing was lost unless the
connection is no longer open. -/
structure Advances (i : RequestId) (n : Nat) (c c' : Connection) : Prop where
  keyed : c'.Keyed
  le : c'.link.responses i + c'.owed i ≤ c.link.responses i + c.owed i + n
  eq : c'.IsOpen → c.IsOpen ∧ c'.link.responses i + c'.owed i = c.link.responses i + c.owed i + n

variable {i : RequestId} {n : Nat} {c c' : Connection}

theorem Advances.of_talks (hkeyed : c'.Keyed) (hlink : c.link.Talks c'.link)
    (hending : c'.ending = c.ending) (hreading : c'.reading.isEnding = c.reading.isEnding)
    (howed : c'.owed i = c.owed i + n) : Advances i n c c' := by
  have hresponses := hlink.responses_eq i
  refine ⟨hkeyed, by omega, fun hopen => ⟨?_, by omega⟩⟩
  rwa [IsOpen, hlink.writerOpen, hending, hreading] at hopen

theorem Advances.of_closed (hkeyed : c'.Keyed) (hclosed : ¬ c'.IsOpen)
    (hle : c'.link.responses i + c'.owed i ≤ c.link.responses i + c.owed i + n) :
    Advances i n c c' :=
  ⟨hkeyed, hle, fun hopen => absurd hopen hclosed⟩

/-- A message is sent, and what it answers is no longer owed. -/
theorem Advances.of_post {m : Message} (hkeyed : c'.Keyed) (hlink : c'.link = c.link)
    (hending : c'.ending = c.ending) (hreading : c'.reading.isEnding = c.reading.isEnding)
    (howed : c'.owed i + (m.answers i).toNat = c.owed i) : Advances i 0 c (c'.post m) := by
  have howed' : (c'.post m).owed i = c'.owed i := rfl
  cases hwriter : c.link.writerOpen with
  | true =>
      have hresponses := Link.responses_post hwriter m i
      rw [← hlink] at hresponses
      refine ⟨⟨hkeyed.nodup, hkeyed.below⟩, ?_, fun hopen => ⟨?_, ?_⟩⟩
      · show (c'.link.post m).responses i + c'.owed i ≤ _
        rw [hresponses, hlink]
        omega
      · exact ⟨hwriter, hending ▸ hopen.2.1, hreading ▸ hopen.2.2⟩
      · show (c'.link.post m).responses i + c'.owed i = _
        rw [hresponses, hlink]
        omega
  | false =>
      -- The message is lost, on a line that was closed before.
      refine Advances.of_closed ⟨hkeyed.nodup, hkeyed.below⟩ (fun hopen => ?_) ?_
      · have hopen' := hopen.1
        rw [post, Link.writerOpen_post, hlink, hwriter] at hopen'
        cases hopen'
      · show (c'.link.post m).responses i + c'.owed i ≤ _
        rw [hlink, Link.post_closed hwriter]
        omega

/-- Dropping all work loses requests, but then the connection is about to end. -/
theorem Advances.of_drop (hlink : c'.link = c.link) (hunread : c'.unread i ≤ c.unread i)
    (ending : Ending) : Advances i 0 c (c'.drop ending) := by
  have hresponses := (drop_talks ending c').responses_eq i
  have howed : (c'.drop ending).owed i = c'.unread i := by
    simp [owed, drop, unfinished, Reading.inHand, unread]
  refine Advances.of_closed ⟨List.nodup_nil, fun t ht => by cases ht⟩ (fun hopen => ?_) ?_
  · exact Bool.noConfusion hopen.2.2
  · rw [hresponses, howed, hlink]
    unfold owed
    omega

theorem reply_answers {fault : Message.DecodeFault} {m : Message} (h : fault.reply = some m) :
    m.answers i = false := by
  unfold Message.DecodeFault.reply at h
  split at h
  · obtain rfl := Option.some.inj h
    rfl
  · split at h
    · obtain rfl := Option.some.inj h
      rfl
    · cases h

/-- The reader goes on, and what it no longer has in hand or in front of it is the same as
before. -/
theorem Advances.of_reading (hkeyed : c.Keyed) {reading : Reading} {inbox : List Incoming}
    (hending : reading.isEnding = c.reading.isEnding)
    (hsum : reading.inHand i + inbox.countP (·.asks i) = c.reading.inHand i + c.unread i) :
    Advances i 0 c { c with reading := reading, inbox := inbox } := by
  refine Advances.of_talks (hkeyed.of_keys rfl rfl) (Link.Talks.refl _) rfl hending ?_
  simp only [owed, unfinished]
  have hunread : { c with reading := reading, inbox := inbox : Connection }.unread i =
    inbox.countP (·.asks i) := rfl
  omega

theorem take_advances (hkeyed : c.Keyed) (hidle : c.reading = .idle) {incoming : Incoming}
    {rest : List Incoming} (hinbox : c.inbox = incoming :: rest) :
    Advances i 0 c ({ c with inbox := rest }.take incoming) := by
  have hunread : c.unread i = rest.countP (·.asks i) + (incoming.asks i).toNat := by
    rw [unread, hinbox, List.countP_cons]
    cases incoming.asks i <;> rfl
  have hopen : c.reading.isEnding = false := by rw [hidle]; rfl
  have hhand : c.reading.inHand i = 0 := by rw [hidle]; rfl
  unfold take
  split
  · refine Advances.of_reading hkeyed hopen.symm ?_
    rw [hhand, hunread, Nat.zero_add]
    exact Nat.zero_add _
  · refine Advances.of_reading hkeyed hopen.symm ?_
    rw [hhand, hunread, Nat.zero_add]
    exact Nat.add_comm _ _
  · split
    · refine Advances.of_reading hkeyed hopen.symm ?_
      rw [hhand, hunread, Nat.zero_add]
      exact Nat.zero_add _
    · refine Advances.of_reading hkeyed rfl ?_
      rw [hunread]
      rfl
  · split
    · next m hreply =>
        refine Advances.of_reading hkeyed hopen.symm ?_
        rw [hhand, hunread, Nat.zero_add, Reading.inHand, reply_answers hreply]
        exact Nat.zero_add _
    · refine Advances.of_reading hkeyed rfl ?_
      rw [hunread]
      rfl
  · -- The input is over, and all work is dropped with it.
    refine Advances.of_drop ?_ ?_ _
    · rfl
    · rw [hunread]
      exact Nat.le_add_right _ _

theorem note_advances (hkeyed : c.Keyed) {m : Message} (htaken : c.reading = .taken m) :
    Advances i 0 c (c.note m) := by
  obtain ⟨link, hnote, hlink⟩ := c.note_eq m
  rw [hnote]
  refine Advances.of_talks (hkeyed.of_keys rfl rfl) hlink rfl (by rw [htaken]; rfl) ?_
  simp only [owed, htaken]
  rfl

theorem considerRequest_advances (hkeyed : c.Keyed) (hidle : c.reading = .idle) (s : Server)
    (r : Request) : Advances i ((Message.request r).asks i).toNat c (c.considerRequest s r) := by
  rcases considerRequest_cases s r c with ⟨session, outcome, heq⟩ | ⟨program, -, heq⟩
  · rw [heq]
    refine Advances.of_talks (hkeyed.of_keys rfl rfl) (Link.Talks.refl _) rfl
      (by rw [hidle]; rfl) ?_
    have hanswers : (Message.response ⟨some r.id, outcome⟩).answers i =
        (Message.request r).asks i := by
      simp [Message.answers, Message.asks]
    simp only [owed, unfinished, unread, hidle, Reading.inHand, hanswers]
    omega
  · rw [heq]
    refine Advances.of_talks (hkeyed.spawn rfl rfl rfl) (Link.Talks.refl _) rfl rfl ?_
    simp only [owed, unfinished, unread, countP_concat]
    show _ + ((Message.request r).asks i).toNat + _ + _ = _
    omega

theorem serveNotification_advances (hkeyed : c.Keyed) (hidle : c.reading = .idle)
    (method : String) (params : Json) : Advances i 0 c (c.serveNotification method params) := by
  rcases serveNotification_cases method params c with
    ⟨session, status, heq⟩ | ⟨_, _, _, _, reading, hreading, heq⟩
  · rw [heq]
    refine Advances.of_drop ?_ ?_ _
    · rfl
    · exact Nat.le_refl _
  · have hsame : reading.isEnding = c.reading.isEnding ∧
        reading.inHand i = c.reading.inHand i := by
      rw [hidle] at hreading ⊢
      rcases hreading with rfl | rfl | rfl
      · exact ⟨rfl, rfl⟩
      · exact ⟨rfl, rfl⟩
      · exact ⟨rfl, rfl⟩
    rw [heq]
    refine Advances.of_talks (hkeyed.of_keys rfl rfl) (Link.Talks.refl _) rfl hsame.1 ?_
    simp only [owed, unfinished, unread, hsame.2]
    rfl

/-- What comes of a message once the reader has let go of it. -/
theorem Advances.of_served {m : Message} (hnoted : c.reading = .noted m)
    (h : Advances i (m.asks i).toNat { c with reading := .idle } c') : Advances i 0 c c' := by
  have howed : { c with reading := .idle : Connection }.owed i + (m.asks i).toNat = c.owed i := by
    simp only [owed, unfinished, unread, hnoted, Reading.inHand]
    omega
  refine ⟨h.keyed, ?_, fun hopen => ?_⟩
  · have hle := h.le
    rw [Nat.add_assoc, howed] at hle
    exact hle
  · obtain ⟨hbefore, heq⟩ := h.eq hopen
    rw [Nat.add_assoc, howed] at heq
    exact ⟨⟨hbefore.1, hbefore.2.1, by rw [hnoted]; rfl⟩, heq⟩

theorem serve_advances (hkeyed : c.Keyed) (s : Server) {m : Message}
    (hnoted : c.reading = .noted m) : Advances i 0 c (c.serve s m) := by
  refine Advances.of_served hnoted ?_
  have hkeyed' : { c with reading := .idle : Connection }.Keyed := hkeyed.of_keys rfl rfl
  cases m with
  | request r => exact considerRequest_advances hkeyed' rfl s r
  | notification n => exact serveNotification_advances hkeyed' rfl n.method _
  | response r =>
      exact Advances.of_talks (hkeyed.of_keys rfl rfl) (Link.Talks.of_eq rfl rfl rfl) rfl rfl rfl

theorem sync_advances (hkeyed : c.Keyed) {params : Json}
    (hforgotten : c.reading = .forgotten params) (method : String) :
    Advances i 0 c (c.sync method params) := by
  refine Advances.of_talks (hkeyed.of_keys rfl rfl) (Link.Talks.refl _) rfl
    (by rw [hforgotten]; rfl) ?_
  simp only [owed, hforgotten]
  rfl

theorem enqueue_advances (hkeyed : c.Keyed) {method : String} {params : Json}
    (hsynced : c.reading = .synced method params) (s : Server) :
    Advances i 0 c ({ c with reading := .idle }.enqueue s method params) := by
  obtain ⟨queue, hqueue⟩ := enqueue_eq s method params { c with reading := .idle }
  rw [hqueue]
  refine Advances.of_talks (hkeyed.of_keys rfl rfl) (Link.Talks.refl _) rfl
    (by rw [hsynced]; rfl) ?_
  simp only [owed, hsynced]
  rfl

theorem stepReader_advances (hkeyed : c.Keyed) (s : Server) : Advances i 0 c (c.stepReader s) := by
  unfold stepReader
  split
  · next hidle =>
      split
      · exact ⟨hkeyed, Nat.le_refl _, fun hopen => ⟨hopen, rfl⟩⟩
      · next hinbox => exact take_advances hkeyed hidle hinbox
  · next htaken => exact note_advances hkeyed htaken
  · next hnoted => exact serve_advances hkeyed s hnoted
  · next hforgotten => exact sync_advances hkeyed hforgotten _
  · next hsynced => exact enqueue_advances hkeyed hsynced s
  · next m hanswering =>
      have hpost : { c.post m with reading := .idle } = { c with reading := .idle }.post m := rfl
      rw [hpost]
      refine Advances.of_post (hkeyed.of_keys rfl rfl) rfl rfl (by rw [hanswering]; rfl) ?_
      simp only [owed, unfinished, unread, hanswering, Reading.inHand]
      omega
  · next ending hdropped =>
      refine Advances.of_talks (hkeyed.of_keys rfl rfl) (Link.Talks.of_eq rfl rfl rfl) rfl
        (by rw [hdropped]; rfl) ?_
      simp only [owed, hdropped]
      rfl
  · next ending hleaving =>
      refine Advances.of_closed (hkeyed.of_keys rfl rfl) (fun hopen => ?_) ?_
      · cases hopen.2.1
      · simp only [owed, hleaving]
        exact Nat.le_refl _

/-- The work on a request goes to another stage. -/
theorem Advances.of_stage (hkeyed : c.Keyed) (hacts : c.Acts c') (key : Nat) (stage : TaskStage)
    (inFlight : List (RequestId × CancelToken)) :
    Advances i 0 c { c'.setStage key stage with inFlight := inFlight } := by
  obtain ⟨link, cache, progress, streams, fired, rfl, hlink⟩ := hacts
  refine Advances.of_talks (hkeyed.of_keys (keys_setStage c key stage) rfl) hlink rfl rfl ?_
  have hunfinished := unfinished_setStage c key stage i
  simp only [owed, unread, unfinished, setStage] at hunfinished ⊢
  rw [hunfinished]
  rfl

theorem stepTask_advances (hkeyed : c.Keyed) (s : Server) (key : Nat) (move : Move) :
    Advances i 0 c (c.stepTask s key move) := by
  unfold stepTask
  split
  · exact ⟨hkeyed, Nat.le_refl _, fun hopen => ⟨hopen, rfl⟩⟩
  · next t htask =>
      split
      · exact Advances.of_stage hkeyed (Acts.refl c) key _ _
      · exact Advances.of_stage hkeyed (Activity.step_acts _ c move _) key _ _
      · exact Advances.of_stage hkeyed (Acts.refl c) key _ _
      · next outcome _ =>
          -- The response goes out and the work is gone, in one step.
          have hmem : t ∈ c.tasks := List.mem_of_find?_eq_some htask
          have hkey : t.key = key := by simpa using List.find?_some htask
          subst hkey
          refine Advances.of_post (hkeyed.of_sublist List.filter_sublist rfl) rfl rfl rfl ?_
          have hcount := countP_filter_key hkeyed.nodup hmem fun u => u.id = i
          have hanswers : (Message.response ⟨some t.id, outcome⟩).answers i =
              decide (t.id = i) := by
            simp [Message.answers]
          simp only [owed, unfinished, unread, hanswers]
          omega

theorem stepWorker_advances (hkeyed : c.Keyed) (s : Server) (move : Move) :
    Advances i 0 c (c.stepWorker s move) := by
  unfold stepWorker
  split
  · exact Advances.of_talks (hkeyed.of_keys rfl rfl) (Link.Talks.refl _) rfl rfl rfl
  · next call _ _ =>
      have hacts := Activity.step_acts s.options.requestTimeout c move call.activity
      rcases hstep : call.activity.step s.options.requestTimeout c move with ⟨activity, c₁⟩
      rw [hstep] at hacts
      obtain ⟨link, cache, progress, streams, fired, rfl, hlink⟩ := hacts
      exact Advances.of_talks (hkeyed.of_keys rfl rfl) hlink rfl rfl rfl
  · split
    · exact ⟨hkeyed, Nat.le_refl _, fun hopen => ⟨hopen, rfl⟩⟩
    · exact Advances.of_talks (hkeyed.of_keys rfl rfl) (Link.Talks.refl _) rfl rfl rfl

theorem writer_advances (hkeyed : c.Keyed) :
    Advances i 0 c { c with link := c.link.writeNext } := by
  rcases c.link.writeNext_cases with ⟨hsent, hopen⟩ | ⟨hclosed, hresponses⟩
  · have hresponses : c.link.writeNext.responses i = c.link.responses i := by
      rw [Link.responses, hsent, Link.responses]
    refine ⟨hkeyed.of_keys rfl rfl, Nat.le_of_eq ?_, fun h => ⟨?_, ?_⟩⟩
    · exact congrArg (· + c.owed i) hresponses
    · exact ⟨hopen ▸ h.1, h.2⟩
    · exact congrArg (· + c.owed i) hresponses
  · refine Advances.of_closed (hkeyed.of_keys rfl rfl) (fun h => ?_) ?_
    · rw [IsOpen, hclosed] at h
      exact Bool.noConfusion h.1
    · exact Nat.add_le_add_right (hresponses i) _

theorem handle_advances (hkeyed : c.Keyed) (s : Server) (e : Event) :
    Advances i (e.asks i).toNat c (c.handle s e) := by
  cases e with
  | received incoming =>
      refine Advances.of_talks (hkeyed.of_keys rfl rfl) (Link.Talks.refl _) rfl rfl ?_
      simp only [owed, unfinished, unread, handle, countP_concat, Event.asks]
      omega
  | reader => exact stepReader_advances hkeyed s
  | task key move => exact stepTask_advances hkeyed s key move
  | worker move => exact stepWorker_advances hkeyed s move
  | writer => exact writer_advances hkeyed
  | withdrawal id =>
      exact Advances.of_talks (hkeyed.of_keys rfl rfl) (Link.talks_withdraw c.link id) rfl rfl rfl
  | tick milliseconds =>
      exact Advances.of_talks (hkeyed.of_keys rfl rfl) (Link.Talks.of_eq rfl rfl rfl) rfl rfl
        rfl
  | outputClosed =>
      exact Advances.of_talks (hkeyed.of_keys rfl rfl) (Link.Talks.of_eq rfl rfl rfl) rfl rfl
        rfl

/-! ## Whole runs -/

theorem Advances.trans {m : Nat} {c'' : Connection} (h : Advances i n c c')
    (h' : Advances i m c' c'') : Advances i (n + m) c c'' := by
  have hle := h.le
  have hle' := h'.le
  refine ⟨h'.keyed, by omega, fun hopen => ?_⟩
  obtain ⟨hopen', heq'⟩ := h'.eq hopen
  obtain ⟨hopen'', heq⟩ := h.eq hopen'
  exact ⟨hopen'', by omega⟩

theorem step_advances (hkeyed : c.Keyed) (s : Server) (e : Event) :
    Advances i (e.asks i).toNat c (c.step s e) := by
  unfold step
  split
  · exact handle_advances hkeyed s e
  · next ending hending =>
      split
      · exact writer_advances hkeyed
      · refine Advances.of_closed hkeyed (fun hopen => ?_) (Nat.le_add_right _ _)
        rw [IsOpen, hending] at hopen
        cases hopen.2.1

theorem run_advances (hkeyed : c.Keyed) (s : Server) (events : List Event) :
    Advances i (events.countP (·.asks i)) c (c.run s events) := by
  induction events generalizing c with
  | nil => exact ⟨hkeyed, Nat.le_refl _, fun hopen => ⟨hopen, rfl⟩⟩
  | cons e events ih =>
      have hstep : Advances i (e.asks i).toNat c (c.step s e) := step_advances hkeyed s e
      have hcount : (e :: events).countP (·.asks i) =
          (e.asks i).toNat + events.countP (·.asks i) := by
        rw [List.countP_cons, Nat.add_comm]
        cases e.asks i <;> rfl
      rw [hcount]
      exact hstep.trans (ih hstep.keyed)

end Connection

open Connection

/-- **Every request is answered once.** No more responses are sent than requests came in. While the
connection is open, the requests that came in are those answered, those worked on, the one the
reader has in hand and those it has not come to. When the reader has come to rest, the last two are
none. -/
theorem run_answers_once (s : Server) (events : List Event) (i : RequestId) :
    (fresh.run s events).link.responses i ≤ events.countP (·.asks i) ∧
    ((fresh.run s events).IsOpen →
      (fresh.run s events).link.responses i + (fresh.run s events).unfinished i +
        (fresh.run s events).reading.inHand i + (fresh.run s events).unread i =
      events.countP (·.asks i)) ∧
    ((fresh.run s events).IsOpen → (fresh.run s events).reading = .idle →
      (fresh.run s events).inbox = [] →
      (fresh.run s events).link.responses i + (fresh.run s events).unfinished i =
      events.countP (·.asks i)) := by
  have hfresh : fresh.Keyed := ⟨List.nodup_nil, fun t ht => by cases ht⟩
  have hzero : fresh.link.responses i + fresh.owed i = 0 := rfl
  have hrun : Advances i (events.countP (·.asks i)) fresh (fresh.run s events) :=
    run_advances hfresh s events
  have hbalance : (fresh.run s events).IsOpen →
      (fresh.run s events).link.responses i + (fresh.run s events).owed i =
        events.countP (·.asks i) := by
    intro hopen
    have heq := (hrun.eq hopen).2
    omega
  refine ⟨?_, fun hopen => ?_, fun hopen hidle hinbox => ?_⟩
  · have hle := hrun.le
    omega
  · rw [← hbalance hopen, owed]
    omega
  · have hhand : (fresh.run s events).reading.inHand i = 0 := by rw [hidle]; rfl
    have hunread : (fresh.run s events).unread i = 0 := by rw [unread, hinbox]; rfl
    rw [← hbalance hopen, owed, hhand, hunread]
    rfl

/-- A server with one handler, which crashes. -/
def crashingServer : Server :=
  (Server.bare .default default).withRequest "work" fun _ _ => .crash

/-- After the handshake a request comes twice, the second time while the first is worked on, and
then one with the same id for a method without a handler. -/
def clashingEvents : List Event :=
  let request (id : Int64) (method : String) (params : Option Json) : Event :=
    .received (.message (.request ⟨.number id, method, params⟩))
  [request 1 Method.handshake (some (.obj [("capabilities", .obj [])])),
   .reader, .reader, .reader, .reader,
   .received (.message (.notification ⟨Method.confirmed, none⟩)), .reader, .reader, .reader,
   request 7 "work" none, .reader, .reader, .reader,
   request 7 "work" none, .reader, .reader, .reader, .reader,
   request 7 "play" none, .reader, .reader, .reader, .reader]

/-- Two of three requests with one id are refused, and the first is still worked on. -/
theorem clashing_run_balance :
    (fresh.run crashingServer clashingEvents).IsOpen ∧
    (fresh.run crashingServer clashingEvents).link.responses (.number 7) = 2 ∧
    (fresh.run crashingServer clashingEvents).unfinished (.number 7) = 1 ∧
    (fresh.run crashingServer clashingEvents).link.responses (.number 7) +
      (fresh.run crashingServer clashingEvents).unfinished (.number 7) =
      clashingEvents.countP (·.asks (.number 7)) := by
  have hopen : (fresh.run crashingServer clashingEvents).IsOpen := by decide +kernel
  refine ⟨hopen, by decide +kernel, by decide +kernel, ?_⟩
  exact (run_answers_once crashingServer clashingEvents (.number 7)).2.2 hopen
    (by decide +kernel) (by decide +kernel)

end LanguageServer
