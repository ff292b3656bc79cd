import LanguageServer.Proofs.Server.Desk
import LanguageServer.Proofs.Table

set_option autoImplicit false

/-! # Cancelling requests

A request that is handed to a handler is entered in a table under its id, with a token of its own, and
the work on it takes it out again by that id. Ids are reused, so the table says nothing about which
request it means; that it is always the right one is an invariant (`Faithful`) that ties the table to
the marks of the run: it holds the requests entered and not taken out, in their order and no two with
one id. The token of a request is fired by the client, as long as the request is in the table, and by
any handler that has it. So it has been fired just if there is a mark of the one kind while the
request was entered or of the other since it was entered (`SlotStage.Told`). The invariant is kept by
each of the eight things that can happen (`Faithful.turn`). -/

namespace LanguageServer

/-! ## Marks -/

namespace Mark

def entry? : Mark → Option (Nat × RequestId)
  | entered key id => some (key, id)
  | cancelled _ | fired _ | left .. | judged _ => none

def leaver? : Mark → Option Nat
  | left key _ => some key
  | entered .. | cancelled _ | fired _ | judged _ => none

end Mark

/-- The requests entered, by their keys. -/
def entries (ms : List Mark) : List (Nat × RequestId) := ms.filterMap Mark.entry?

/-- The keys under which requests have been taken out of the table. -/
def leavers (ms : List Mark) : List Nat := ms.filterMap Mark.leaver?

/-- The requests entered and not taken out. -/
def openEntries (ms : List Mark) : List (Nat × RequestId) :=
  (entries ms).filter fun entry => entry.1 ∉ leavers ms

/-- The response to the request entered under a key is what its handler came to, unless the client
cancelled the request between its being entered and its being taken out. -/
def Settled (ms : List Mark) (key : Nat) (id : RequestId) (outcome : Outcome) : Prop :=
  ∃ before between after own,
    ms = before ++ .entered key id :: (between ++ .left key own :: after) ∧
    outcome = if .cancelled id ∈ between then .error .requestCancelled else own

/-- The response to the request entered under a key is what its handler came to, unless the client
cancelled the request between its being entered and its being taken out or a handler fired its token
between its being entered and the work's looking at the token. -/
def Judged (ms : List Mark) (key : Nat) (id : RequestId) (outcome : Outcome) : Prop :=
  ∃ before between after rest own,
    ms = before ++ .entered key id :: (between ++ .left key own :: (after ++ .judged key :: rest)) ∧
    .judged key ∉ after ∧
    outcome = if .cancelled id ∈ between ∨ .fired key ∈ between ++ after then
      .error .requestCancelled else own

section Marks

variable {ms : List Mark} {key : Nat} {id : RequestId}

theorem Judged.append {outcome : Outcome} (h : Judged ms key id outcome) (more : List Mark) :
    Judged (ms ++ more) key id outcome := by
  obtain ⟨before, between, after, rest, own, hms, hafter, houtcome⟩ := h
  refine ⟨before, between, after, rest ++ more, own, ?_, hafter, houtcome⟩
  rw [hms]
  simp

/-- Where no handler fires its token, the client alone decides on the response. -/
theorem Judged.settled {outcome : Outcome} (h : Judged ms key id outcome)
    (hquiet : .fired key ∉ ms) : Settled ms key id outcome := by
  obtain ⟨before, between, after, rest, own, hms, -, houtcome⟩ := h
  have hnone : .fired key ∉ between ++ after := by
    intro hmem
    refine hquiet ?_
    rw [hms]
    rcases List.mem_append.1 hmem with hmem | hmem
    · simp [hmem]
    · simp [hmem]
  refine ⟨before, between, after ++ .judged key :: rest, own, hms, ?_⟩
  rw [houtcome]
  simp only [hnone, or_false]

theorem mem_entries : (key, id) ∈ entries ms ↔ .entered key id ∈ ms := by
  simp only [entries, List.mem_filterMap]
  constructor
  · rintro ⟨m, hm, hentry⟩
    cases m with
    | entered key' id' =>
        obtain ⟨rfl, rfl⟩ := Prod.mk.inj (Option.some.inj hentry)
        exact hm
    | cancelled id' => cases hentry
    | fired token => cases hentry
    | left key' own => cases hentry
    | judged key' => cases hentry
  · exact fun hm => ⟨_, hm, rfl⟩

theorem mem_openEntries :
    (key, id) ∈ openEntries ms ↔ .entered key id ∈ ms ∧ key ∉ leavers ms := by
  rw [openEntries, List.mem_filter, mem_entries]
  simp

theorem entries_concat (ms : List Mark) (m : Mark) :
    entries (ms ++ [m]) = entries ms ++ m.entry?.toList := by
  rw [entries, List.filterMap_append]
  cases m with
  | _ => rfl

theorem leavers_concat (ms : List Mark) (m : Mark) :
    leavers (ms ++ [m]) = leavers ms ++ m.leaver?.toList := by
  rw [leavers, List.filterMap_append]
  cases m with
  | _ => rfl

theorem openEntries_entered (h : key ∉ leavers ms) (id : RequestId) :
    openEntries (ms ++ [.entered key id]) = openEntries ms ++ [(key, id)] := by
  simp [openEntries, entries_concat, leavers_concat, Mark.entry?, Mark.leaver?, h]

theorem openEntries_left (ms : List Mark) (key : Nat) (own : Outcome) :
    openEntries (ms ++ [.left key own]) = (openEntries ms).filter fun entry => entry.1 ≠ key := by
  rw [openEntries, entries_concat, leavers_concat, openEntries, List.filter_filter]
  simp only [Mark.entry?, Mark.leaver?, Option.toList_none, Option.toList_some, List.append_nil]
  refine List.filter_congr fun entry _ => ?_
  simp [and_comm]

/-- A mark that is neither of a request entered nor of one taken out. -/
theorem openEntries_other {m : Mark} (hentry : m.entry? = none) (hleaver : m.leaver? = none)
    (ms : List Mark) : openEntries (ms ++ [m]) = openEntries ms := by
  simp [openEntries, entries_concat, leavers_concat, hentry, hleaver]

end Marks

/-- Once one is no longer busy, the busy slots are the others. -/
theorem busy_setStage {stage : SlotStage} (hstage : stage ≠ .busy) (key : Nat) (d : Desk) :
    (d.setStage key stage).slots.filter (·.stage = .busy) =
      (d.slots.filter (·.stage = .busy)).filter fun slot => slot.key ≠ key := by
  unfold Desk.setStage
  dsimp only
  induction d.slots with
  | nil => rfl
  | cons slot slots ih =>
      rw [List.map_cons, List.filter_cons, ih]
      by_cases hkey : slot.key = key
      · by_cases hbusy : slot.stage = .busy
        · simp [hkey, hbusy, hstage]
        · simp [hkey, hbusy, hstage]
      · by_cases hbusy : slot.stage = .busy
        · simp [hkey, hbusy]
        · simp [hkey, hbusy]

/-- The slot under a key counts for nothing among the busy ones if it is not busy. -/
theorem busy_filter {slots : List Slot} (hnodup : (slots.map Slot.key).Nodup) {slot : Slot}
    (hmem : slot ∈ slots) (hstage : slot.stage ≠ .busy) :
    (slots.filter (·.stage = .busy)).filter (fun other => other.key ≠ slot.key) =
      slots.filter (·.stage = .busy) := by
  refine List.filter_eq_self.2 fun other hother => ?_
  obtain ⟨hother, hbusy⟩ := List.mem_filter.1 hother
  rw [decide_eq_true_iff]
  intro hkey
  obtain rfl := List.inj_on_of_nodup_map hnodup hother hmem hkey
  exact hstage (of_decide_eq_true hbusy)

/-! ## The invariant -/

/-- Requests are entered and taken out once each, under keys that have been given out. -/
structure Numbered (ms : List Mark) (spawned : Nat) : Prop where
  keys : ((entries ms).map Prod.fst).Nodup
  below : ∀ entry ∈ entries ms, entry.1 < spawned
  leaversOnce : (leavers ms).Nodup
  leaversBelow : ∀ key ∈ leavers ms, key < spawned

namespace Numbered

variable {ms : List Mark} {spawned : Nat}

theorem enter (h : Numbered ms spawned) (id : RequestId) :
    Numbered (ms ++ [.entered spawned id]) (spawned + 1) := by
  have hentries : entries (ms ++ [.entered spawned id]) = entries ms ++ [(spawned, id)] :=
    entries_concat ..
  have hleavers : leavers (ms ++ [.entered spawned id]) = leavers ms := by
    rw [leavers_concat]
    exact List.append_nil _
  constructor
  · rw [hentries, List.map_append]
    refine List.nodup_append.2 ⟨h.keys, by simp, fun a ha b hb heq => ?_⟩
    obtain ⟨entry, hentry, rfl⟩ := List.mem_map.1 ha
    rw [List.map_singleton, List.mem_singleton] at hb
    have hlt := h.below entry hentry
    omega
  · rw [hentries]
    intro entry hentry
    rcases List.mem_append.1 hentry with hentry | hentry
    · exact Nat.lt_succ_of_lt (h.below entry hentry)
    · rw [List.mem_singleton.1 hentry]
      exact Nat.lt_succ_self _
  · rw [hleavers]
    exact h.leaversOnce
  · rw [hleavers]
    exact fun key hkey => Nat.lt_succ_of_lt (h.leaversBelow key hkey)

theorem other (h : Numbered ms spawned) {m : Mark} (hentry : m.entry? = none)
    (hleaver : m.leaver? = none) : Numbered (ms ++ [m]) spawned := by
  have hentries : entries (ms ++ [m]) = entries ms := by simp [entries_concat, hentry]
  have hleavers : leavers (ms ++ [m]) = leavers ms := by simp [leavers_concat, hleaver]
  constructor
  · rw [hentries]
    exact h.keys
  · rw [hentries]
    exact h.below
  · rw [hleavers]
    exact h.leaversOnce
  · rw [hleavers]
    exact h.leaversBelow

theorem leave (h : Numbered ms spawned) {key : Nat} {id : RequestId}
    (hopen : (key, id) ∈ openEntries ms) (own : Outcome) :
    Numbered (ms ++ [.left key own]) spawned := by
  have hentries : entries (ms ++ [.left key own]) = entries ms := by
    rw [entries_concat]
    exact List.append_nil _
  have hleavers : leavers (ms ++ [.left key own]) = leavers ms ++ [key] := leavers_concat ..
  constructor
  · rw [hentries]
    exact h.keys
  · rw [hentries]
    exact h.below
  · rw [hleavers]
    refine List.nodup_append.2 ⟨h.leaversOnce, by simp, fun a ha b hb heq => ?_⟩
    rw [heq, List.mem_singleton.1 hb] at ha
    exact (mem_openEntries.1 hopen).2 ha
  · rw [hleavers]
    intro key' hkey'
    rcases List.mem_append.1 hkey' with hkey' | hkey'
    · exact h.leaversBelow key' hkey'
    · rw [List.mem_singleton.1 hkey']
      exact h.below _ (List.mem_of_mem_filter hopen)

end Numbered

namespace SlotStage

/-- What the marks tell about the request worked on under a key, up to where the work is: when its
token has been fired, and what the response is. -/
def Told (ms : List Mark) (fired : List CancelToken) (key : Nat) (id : RequestId) :
    SlotStage → Prop
  | .busy => ∃ before between, ms = before ++ .entered key id :: between ∧
      (key ∈ fired ↔ .cancelled id ∈ between ∨ .fired key ∈ between)
  | .unlisted own => ∃ before between after,
      ms = before ++ .entered key id :: (between ++ .left key own :: after) ∧
      .judged key ∉ after ∧
      (key ∈ fired ↔ .cancelled id ∈ between ∨ .fired key ∈ between ++ after)
  | .known outcome => Judged ms key id outcome

variable {ms : List Mark} {fired : List CancelToken} {key : Nat} {id : RequestId}
  {stage : SlotStage}

theorem Told.entered (h : stage.Told ms fired key id) : .entered key id ∈ ms := by
  cases stage with
  | busy =>
      obtain ⟨before, between, rfl, -⟩ := h
      simp
  | unlisted own =>
      obtain ⟨before, between, after, rfl, -⟩ := h
      simp
  | known outcome =>
      obtain ⟨before, between, after, rest, own, rfl, -⟩ := h
      simp

theorem Told.left {own : Outcome} (h : (unlisted own).Told ms fired key id) : key ∈ leavers ms := by
  obtain ⟨before, between, after, rfl, -⟩ := h
  exact List.mem_filterMap.2 ⟨.left key own, by simp, rfl⟩

/-- One more mark, for work that stays where it is: the client reaches its token only while the
request is in the table, handlers do until the work has looked at it. -/
theorem Told.concat (h : stage.Told ms fired key id) {m : Mark} {fired' : List CancelToken}
    (hbusy : stage = .busy → (key ∈ fired' ↔ key ∈ fired ∨ m = .cancelled id ∨ m = .fired key))
    (hunlisted : ∀ own, stage = .unlisted own →
      m ≠ .judged key ∧ (key ∈ fired' ↔ key ∈ fired ∨ m = .fired key)) :
    stage.Told (ms ++ [m]) fired' key id := by
  cases stage with
  | busy =>
      obtain ⟨before, between, rfl, hfired⟩ := h
      refine ⟨before, between ++ [m], by simp, ?_⟩
      rw [hbusy rfl, hfired, List.mem_append, List.mem_append, List.mem_singleton,
        List.mem_singleton, eq_comm (b := m), eq_comm (b := m)]
      exact or_or_or_comm
  | unlisted own =>
      obtain ⟨before, between, after, rfl, hafter, hfired⟩ := h
      obtain ⟨hother, hfired'⟩ := hunlisted own rfl
      refine ⟨before, between, after ++ [m], by simp, ?_, ?_⟩
      · simp [hafter, hother.symm]
      · rw [hfired', hfired, or_assoc, ← List.append_assoc, List.mem_append (s := between ++ after),
          List.mem_singleton, eq_comm (b := m)]
  | known outcome => exact Judged.append h [m]

/-- A mark that says nothing about tokens. -/
theorem Told.other (h : stage.Told ms fired key id) {m : Mark} (hcancelled : m ≠ .cancelled id)
    (hfired : m ≠ .fired key) (hjudged : m ≠ .judged key) :
    stage.Told (ms ++ [m]) fired key id :=
  h.concat (fun _ => by simp [hcancelled, hfired]) fun _ _ => ⟨hjudged, by simp [hfired]⟩

theorem Told.leave (h : busy.Told ms fired key id) (own : Outcome) :
    (unlisted own).Told (ms ++ [.left key own]) fired key id := by
  obtain ⟨before, between, rfl, hfired⟩ := h
  exact ⟨before, between, [], by simp, List.not_mem_nil, by rw [List.append_nil]; exact hfired⟩

/-- The token has the last word on the response. -/
theorem Told.judge {own : Outcome} (h : (unlisted own).Told ms fired key id) :
    (known (Connection.response (fired.contains key) own)).Told (ms ++ [.judged key]) fired key
      id := by
  obtain ⟨before, between, after, rfl, hafter, hfired⟩ := h
  refine ⟨before, between, after, [], own, by simp, hafter, ?_⟩
  unfold Connection.response
  simp only [List.contains_iff_mem, hfired]

end SlotStage

/-- The table and the work on requests are what the marks call for. -/
structure Faithful (ms : List Mark) (d : Desk) : Prop where
  /-- The token of a request is the key under which it is worked on. -/
  table : d.inFlight = (openEntries ms).map fun entry => (entry.2, entry.1)
  /-- No two requests in the table have one id. -/
  ids : ((openEntries ms).map Prod.snd).Nodup
  numbered : Numbered ms d.spawned
  tokens : ∀ token ∈ d.fired, token < d.spawned
  /-- Until all work is dropped, the requests in the table are those being worked on. -/
  working : d.isOver = false →
    openEntries ms = (d.slots.filter (·.stage = .busy)).map fun slot => (slot.key, slot.id)
  gone : d.isOver = true → d.slots = []
  told : ∀ slot ∈ d.slots, slot.stage.Told ms d.fired slot.key slot.id

theorem Faithful.fresh : Faithful [] Connection.fresh.desk where
  table := rfl
  ids := List.nodup_nil
  numbered := ⟨List.nodup_nil, fun _ h => (by cases h), List.nodup_nil, fun _ h => (by cases h)⟩
  tokens := fun _ h => by cases h
  working := fun _ => rfl
  gone := fun _ => rfl
  told := fun _ h => by cases h

theorem Desk.mem_fire {d : Desk} {token key : CancelToken} :
    key ∈ (d.fire token).fired ↔ key ∈ d.fired ∨ key = token ∧ token < d.spawned := by
  unfold fire
  split
  · next hgiven => simp [List.mem_insert_iff, hgiven, or_comm]
  · next hgiven => simp [hgiven]

namespace Faithful

variable {ms : List Mark} {d : Desk}

theorem map_fst_table (h : Faithful ms d) :
    d.inFlight.map Prod.fst = (openEntries ms).map Prod.snd := by
  rw [h.table, List.map_map]
  rfl

/-- A request is in the table under its id with the key under which it is worked on. -/
theorem lookup_table (h : Faithful ms d) {key : Nat} {id : RequestId} :
    d.inFlight.lookup id = some key ↔ (key, id) ∈ openEntries ms := by
  have hnodup : (d.inFlight.map Prod.fst).Nodup := by
    rw [h.map_fst_table]
    exact h.ids
  rw [lookup_eq_some_iff_mem hnodup, h.table, List.mem_map]
  constructor
  · rintro ⟨entry, hentry, heq⟩
    obtain ⟨rfl, rfl⟩ := Prod.mk.inj heq
    exact hentry
  · exact fun hentry => ⟨_, hentry, rfl⟩

/-- Of the requests in the table, the one worked on under a key is the one with its id. -/
theorem key_iff_id (h : Faithful ms d) {key : Nat} {id : RequestId}
    (hmem : (key, id) ∈ openEntries ms) {entry : Nat × RequestId} (hentry : entry ∈ openEntries ms) :
    entry.1 = key ↔ entry.2 = id := by
  constructor
  · intro hkey
    have heq := List.inj_on_of_nodup_map h.numbered.keys (List.mem_of_mem_filter hentry)
      (List.mem_of_mem_filter hmem) hkey
    rw [heq]
  · intro hid
    have heq := List.inj_on_of_nodup_map h.ids hentry hmem hid
    rw [heq]

/-- The request being worked on under a key is in the table. -/
theorem mem_of_busy (h : Faithful ms d) {slot : Slot} (hmem : slot ∈ d.slots)
    (hbusy : slot.stage = .busy) : d.isOver = false ∧ (slot.key, slot.id) ∈ openEntries ms := by
  have hopen : d.isOver = false := by
    cases hover : d.isOver with
    | false => rfl
    | true =>
        rw [h.gone hover] at hmem
        cases hmem
  refine ⟨hopen, ?_⟩
  rw [h.working hopen]
  exact List.mem_map.2 ⟨slot, List.mem_filter.2 ⟨hmem, by rw [hbusy]; rfl⟩, rfl⟩

theorem enter (h : Faithful ms d) {id : RequestId} (hopen : d.isOver = false)
    (hfree : d.inFlight.lookup id = none) :
    Faithful (ms ++ [.entered d.spawned id]) (d.enter id) := by
  have hstayed : d.spawned ∉ leavers ms := fun hmem =>
    Nat.lt_irrefl _ (h.numbered.leaversBelow _ hmem)
  have hopenEntries := openEntries_entered hstayed id
  have hid : id ∉ (openEntries ms).map Prod.snd := by
    rw [← h.map_fst_table, mem_keys_iff, hfree]
    simp
  constructor
  · rw [hopenEntries, List.map_append, ← h.table]
    rfl
  · rw [hopenEntries, List.map_append]
    refine List.nodup_append.2 ⟨h.ids, by simp, fun a ha b hb heq => ?_⟩
    rw [List.map_singleton, List.mem_singleton] at hb
    rw [heq, hb] at ha
    exact hid ha
  · exact h.numbered.enter id
  · exact fun token htoken => Nat.lt_succ_of_lt (h.tokens token htoken)
  · intro _
    rw [hopenEntries, h.working hopen, Desk.enter, List.filter_append, List.map_append]
    rfl
  · intro hover
    exact absurd (hover.symm.trans hopen) (by simp)
  · intro slot hslot
    rcases List.mem_append.1 hslot with hslot | hslot
    · exact (h.told slot hslot).other Mark.noConfusion Mark.noConfusion Mark.noConfusion
    · -- The token is new: nobody can have fired it.
      rw [List.mem_singleton.1 hslot]
      refine ⟨ms, [], rfl, ?_⟩
      have hnew : d.spawned ∉ d.fired := fun hmem => Nat.lt_irrefl _ (h.tokens _ hmem)
      simp [Desk.enter, hnew]

/-- One more mark and other tokens fired, with the table and the work as they were. -/
theorem mark (h : Faithful ms d) {m : Mark} (hentry : m.entry? = none) (hleaver : m.leaver? = none)
    {fired : List CancelToken} (htokens : ∀ token ∈ fired, token < d.spawned)
    (htold : ∀ slot ∈ d.slots, slot.stage.Told (ms ++ [m]) fired slot.key slot.id) :
    Faithful (ms ++ [m]) { d with fired := fired } := by
  have hopenEntries := openEntries_other hentry hleaver ms
  constructor
  · rw [hopenEntries]
    exact h.table
  · rw [hopenEntries]
    exact h.ids
  · exact h.numbered.other hentry hleaver
  · exact htokens
  · rw [hopenEntries]
    exact h.working
  · exact h.gone
  · exact htold

theorem fire (h : Faithful ms d) (token : CancelToken) :
    Faithful (ms ++ [.fired token]) (d.fire token) := by
  have hsame : d.fire token = { d with fired := (d.fire token).fired } := by
    unfold Desk.fire
    split
    · rfl
    · rfl
  rw [hsame]
  refine h.mark rfl rfl (fun key hkey => ?_) fun slot hslot => ?_
  · rcases Desk.mem_fire.1 hkey with hold | ⟨rfl, hgiven⟩
    · exact h.tokens key hold
    · exact hgiven
  · have htold := h.told slot hslot
    have hgiven : slot.key < d.spawned := h.numbered.below _ (mem_entries.2 htold.entered)
    have hfired : slot.key ∈ (d.fire token).fired ↔
        slot.key ∈ d.fired ∨ Mark.fired token = .fired slot.key := by
      rw [Desk.mem_fire]
      constructor
      · rintro (hold | ⟨rfl, -⟩)
        · exact .inl hold
        · exact .inr rfl
      · rintro (hold | heq)
        · exact .inl hold
        · obtain rfl := Mark.fired.inj heq
          exact .inr ⟨rfl, hgiven⟩
    exact htold.concat (fun _ => by simpa using hfired) fun _ _ => ⟨Mark.noConfusion, hfired⟩

/-- Cancelling fires the token of the request that is in the table under the id. -/
theorem mem_cancel (h : Faithful ms d) {id : RequestId} {key : Nat} :
    key ∈ (d.cancel id).fired ↔ key ∈ d.fired ∨ (key, id) ∈ openEntries ms := by
  rw [← h.lookup_table]
  unfold Desk.cancel
  cases hlookup : d.inFlight.lookup id with
  | none => simp
  | some token =>
      have hgiven : token < d.spawned :=
        h.numbered.below _ (List.mem_of_mem_filter (h.lookup_table.1 hlookup))
      dsimp only
      rw [Desk.mem_fire, Option.some.injEq, eq_comm (a := token)]
      simp [hgiven]

theorem cancel (h : Faithful ms d) (id : RequestId) :
    Faithful (ms ++ [.cancelled id]) (d.cancel id) := by
  have hsame : d.cancel id = { d with fired := (d.cancel id).fired } := by
    unfold Desk.cancel Desk.fire
    split
    · split
      · rfl
      · rfl
    · rfl
  rw [hsame]
  refine h.mark rfl rfl (fun key hkey => ?_) fun slot hslot => ?_
  · rcases h.mem_cancel.1 hkey with hold | hentry
    · exact h.tokens key hold
    · exact h.numbered.below _ (List.mem_of_mem_filter hentry)
  · have htold := h.told slot hslot
    refine htold.concat (fun hbusy => ?_) fun own hunlisted => ⟨Mark.noConfusion, ?_⟩
    · obtain ⟨-, hentry⟩ := h.mem_of_busy hslot hbusy
      rw [h.mem_cancel]
      constructor
      · rintro (hold | hentry')
        · exact .inl hold
        · obtain rfl : id = slot.id := (h.key_iff_id hentry hentry').1 rfl
          exact .inr (.inl rfl)
      · rintro (hold | heq | heq)
        · exact .inl hold
        · obtain rfl := Mark.cancelled.inj heq
          exact .inr hentry
        · cases heq
    · -- A request that has been taken out is out of the client's reach.
      rw [hunlisted] at htold
      have hgone : (slot.key, id) ∉ openEntries ms := fun hentry =>
        (mem_openEntries.1 hentry).2 htold.left
      rw [h.mem_cancel]
      simp [hgone]

theorem leave (h : Faithful ms d) (hnodup : (d.slots.map Slot.key).Nodup) {slot : Slot}
    (hmem : slot ∈ d.slots) (hbusy : slot.stage = .busy) (own : Outcome) :
    Faithful (ms ++ [.left slot.key own]) (d.leave slot.key slot.id own) := by
  obtain ⟨hopen, hentry⟩ := h.mem_of_busy hmem hbusy
  have hopenEntries := openEntries_left ms slot.key own
  constructor
  · -- The work takes its request out by the id; the entry with that id is the one under its key.
    have hsame : ((openEntries ms).filter fun entry => entry.1 ≠ slot.key) =
        (openEntries ms).filter fun entry => entry.2 ≠ slot.id := by
      refine List.filter_congr fun entry hmem' => ?_
      simp [h.key_iff_id hentry hmem']
    rw [hopenEntries, hsame, Desk.leave, h.table, List.filter_map]
    rfl
  · rw [hopenEntries]
    exact h.ids.sublist (List.filter_sublist.map _)
  · exact h.numbered.leave hentry own
  · exact h.tokens
  · intro _
    rw [hopenEntries, h.working hopen, Desk.leave, busy_setStage (by simp), List.filter_map]
    rfl
  · intro hover
    exact absurd (hover.symm.trans hopen) (by simp)
  · intro slot' hslot'
    obtain ⟨old, hold, rfl⟩ := List.mem_map.1 hslot'
    by_cases hkey : old.key = slot.key
    · obtain rfl := List.inj_on_of_nodup_map hnodup hold hmem hkey
      have htold := h.told old hold
      rw [hbusy] at htold
      rw [if_pos rfl]
      exact htold.leave own
    · rw [if_neg hkey]
      exact (h.told old hold).other Mark.noConfusion Mark.noConfusion Mark.noConfusion

theorem judge (h : Faithful ms d) (hnodup : (d.slots.map Slot.key).Nodup) {slot : Slot}
    (hmem : slot ∈ d.slots) {own : Outcome} (hunlisted : slot.stage = .unlisted own) :
    Faithful (ms ++ [.judged slot.key]) (d.judge slot.key own) := by
  have hopenEntries : openEntries (ms ++ [.judged slot.key]) = openEntries ms :=
    openEntries_other rfl rfl ms
  constructor
  · rw [hopenEntries]
    exact h.table
  · rw [hopenEntries]
    exact h.ids
  · exact h.numbered.other rfl rfl
  · exact h.tokens
  · intro hopen
    rw [hopenEntries, h.working hopen, Desk.judge, busy_setStage (by simp),
      busy_filter hnodup hmem (by simp [hunlisted])]
  · intro hover
    have hnone := h.gone hover
    rw [hnone] at hmem
    cases hmem
  · intro slot' hslot'
    obtain ⟨old, hold, rfl⟩ := List.mem_map.1 hslot'
    by_cases hkey : old.key = slot.key
    · obtain rfl := List.inj_on_of_nodup_map hnodup hold hmem hkey
      have htold := h.told old hold
      rw [hunlisted] at htold
      rw [if_pos rfl]
      exact htold.judge
    · rw [if_neg hkey]
      exact (h.told old hold).other Mark.noConfusion Mark.noConfusion
        fun heq => hkey (Mark.judged.inj heq).symm

theorem reply (h : Faithful ms d) (hnodup : (d.slots.map Slot.key).Nodup) {slot : Slot}
    (hmem : slot ∈ d.slots) {outcome : Outcome} (hknown : slot.stage = .known outcome) :
    Faithful ms (d.reply slot.key) where
  table := h.table
  ids := h.ids
  numbered := h.numbered
  tokens := h.tokens
  working := by
    intro hopen
    rw [h.working hopen, Desk.reply, List.filter_comm,
      busy_filter hnodup hmem (by simp [hknown])]
  gone := by
    intro hover
    rw [Desk.reply, h.gone hover]
    rfl
  told := fun slot' hslot' => h.told slot' (List.mem_of_mem_filter hslot')

theorem clear (h : Faithful ms d) : Faithful ms d.clear where
  table := h.table
  ids := h.ids
  numbered := h.numbered
  tokens := h.tokens
  working := fun hopen => by cases hopen
  gone := fun _ => rfl
  told := fun _ hslot => by cases hslot

/-- **Whatever happens to the requests being worked on, the table stays what the marks call for.** -/
theorem turn (h : Faithful ms d) (hnodup : (d.slots.map Slot.key).Nodup) {m : Option Mark}
    {d' : Desk} (hturn : d.Turn m d') : Faithful (ms ++ m.toList) d' := by
  cases hturn with
  | quiet => exact (List.append_nil ms).symm ▸ h
  | entered id hopen hfree => exact h.enter hopen hfree
  | cancelled id => exact h.cancel id
  | fired token => exact h.fire token
  | left slot own hmem hbusy => exact h.leave hnodup hmem hbusy own
  | judged slot own hmem hunlisted => exact h.judge hnodup hmem hunlisted
  | replied slot outcome hmem hknown =>
      exact (List.append_nil ms).symm ▸ h.reply hnodup hmem hknown
  | dropped => exact (List.append_nil ms).symm ▸ h.clear

end Faithful

/-! ## What events are marked as -/

namespace Connection

variable {c : Connection} {s : Server}

theorem cancel_of_not_inFlight {id : RequestId} (h : c.isInFlight id = false) : c.cancel id = c := by
  have hnone : c.inFlight.lookup id = none := by simpa [isInFlight] using h
  rw [cancel, hnone]

end Connection

end LanguageServer
