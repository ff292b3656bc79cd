import LanguageServer.Client.Call

set_option autoImplicit false

/-! # What calls do to the line

`Link.Talks l l'` says that nothing has happened between `l` and `l'` but that requests and
notifications were sent: no response was, nothing was written, and the line was not closed. Calls
to the client do no more than that at any step, whether they are made, answered, given up or
withdrawn. -/

namespace LanguageServer

namespace Link

/-- The line after some requests and notifications have been sent, and no response. -/
structure Talks (l l' : Link) : Prop where
  written : l'.written = l.written
  writerOpen : l'.writerOpen = l.writerOpen
  sent : ∃ ms, l'.outbox = l.outbox ++ ms ∧ ∀ m ∈ ms, ∀ r, m ≠ .response r

theorem Talks.of_eq {l l' : Link} (hwritten : l'.written = l.written)
    (houtbox : l'.outbox = l.outbox) (hwriter : l'.writerOpen = l.writerOpen) : Talks l l' :=
  ⟨hwritten, hwriter, [], by rw [houtbox, List.append_nil], fun _ hm => by cases hm⟩

theorem Talks.refl (l : Link) : Talks l l := Talks.of_eq rfl rfl rfl

theorem Talks.trans {l l' l'' : Link} (h : Talks l l') (h' : Talks l' l'') : Talks l l'' := by
  obtain ⟨ms, hms, hnone⟩ := h.sent
  obtain ⟨ms', hms', hnone'⟩ := h'.sent
  refine ⟨h'.written.trans h.written, h'.writerOpen.trans h.writerOpen, ms ++ ms', ?_,
    fun m hm => ?_⟩
  · rw [hms', hms, List.append_assoc]
  · rcases List.mem_append.1 hm with hm | hm
    · exact hnone m hm
    · exact hnone' m hm

theorem talks_send (l : Link) {m : Message} (h : ∀ r, m ≠ .response r) : Talks l (l.send m).2 := by
  unfold send
  split
  · refine ⟨rfl, rfl, [m], rfl, fun m' hm' => ?_⟩
    rw [List.mem_singleton.1 hm']
    exact h
  · exact Talks.refl l

theorem talks_post (l : Link) {m : Message} (h : ∀ r, m ≠ .response r) : Talks l (l.post m) :=
  talks_send l h

theorem talks_desert (l : Link) (id : RequestId) : Talks l (l.desert id) :=
  Talks.of_eq rfl rfl rfl

theorem talks_foldl_desert (ids : List RequestId) (l : Link) : Talks l (ids.foldl desert l) := by
  induction ids generalizing l with
  | nil => exact Talks.refl l
  | cons id ids ih => exact (talks_desert l id).trans (ih (l.desert id))

theorem talks_withdraw (l : Link) (id : RequestId) : Talks l (l.withdraw id) := by
  unfold withdraw
  split
  · exact Talks.refl l
  · exact (Talks.of_eq rfl rfl rfl : Talks l (l.dismiss id)).trans
      (talks_post _ fun r h => by cases h)
  · dsimp only
    split
    · exact Talks.of_eq rfl rfl rfl
    · exact Talks.of_eq rfl rfl rfl

end Link

namespace OngoingCall

theorem talks_plan (call : Call) (l : Link) : l.Talks (plan call l).2 := by
  unfold plan
  split
  · exact Link.Talks.refl l
  · exact Link.Talks.of_eq rfl rfl rfl

theorem talks_planAll (calls : List Call) (l : Link) : l.Talks (planAll calls l).2 := by
  induction calls generalizing l with
  | nil => exact Link.Talks.refl l
  | cons call rest ih => exact (talks_plan call l).trans (ih _)

theorem talks_step (timeout : Nat) (o : OngoingCall) (l : Link) : l.Talks (step timeout o l).2 := by
  unfold step
  dsimp only
  split
  · exact Link.Talks.of_eq rfl rfl rfl
  · exact Link.talks_send l fun r h => by cases h
  · exact Link.Talks.of_eq rfl rfl rfl
  · exact Link.Talks.of_eq rfl rfl rfl
  · split
    · exact Link.Talks.refl l
    · exact Link.Talks.refl l
    · exact Link.Talks.refl l
    · split
      · exact Link.Talks.refl l
      · exact Link.Talks.refl l
  · split
    · exact Link.Talks.of_eq rfl rfl rfl
    · exact Link.Talks.of_eq rfl rfl rfl
  · exact Link.talks_post l fun r h => by cases h
  · exact Link.Talks.refl l

theorem talks_giveUp (o : OngoingCall) (l : Link) : l.Talks (giveUp o l).2 := by
  unfold giveUp
  split
  · dsimp only
    split
    · exact Link.talks_desert l _
    · exact Link.Talks.refl l
  · exact Link.Talks.refl l

theorem talks_atIndex {f : OngoingCall → Link → OngoingCall × Link}
    (hf : ∀ (o : OngoingCall) (l : Link), l.Talks (f o l).2) (index : Nat)
    (calls : List OngoingCall) (l : Link) :
    l.Talks (atIndex f index calls l).2 := by
  unfold atIndex
  split
  · exact Link.Talks.refl l
  · exact hf _ l

end OngoingCall

end LanguageServer
