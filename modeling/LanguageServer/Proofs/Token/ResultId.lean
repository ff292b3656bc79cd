import LanguageServer.Proofs.Table
import LanguageServer.Token.Cache

set_option autoImplicit false

/-! # What the ids of token results stand for

A client that asks for changes names the result it has by its id, and applies the changes to the
data that it got with that id. So an id must never stand for two arrays, and changes must be those
from the very array that the id stands for. Both are said about whole histories of a cache:
`exchanges` are the calls made on it with their answers, `bindings` tells which array each id was
sent for, and `lastIssued` which id the client was sent last for a document that has not been
forgotten since.

A call does one of three things to a cache (`TokenCache.Move`): it sends the id once more that is
held for the document, it records data under a new id, or it forgets the document. What a cache
holds agrees with its history after each of them (`Keeps.move`). -/

namespace LanguageServer

/-! ## Histories of a cache -/

/-- A call on a cache of token results. -/
inductive TokenCall where
  | full (uri : String) (data : List UInt32)
  | delta (uri previous : String) (data : List UInt32)
  | invalidate (uri : String)
deriving DecidableEq, Repr

/-- A call on a cache with its answer. -/
inductive TokenExchange where
  | full (uri : String) (data : List UInt32) (answer : SemanticTokens)
  | delta (uri previous : String) (data : List UInt32) (answer : TokensResult)
  | invalidated (uri : String) (known : Bool)
deriving DecidableEq, Repr

/-- The array that an id was sent for, and its document. -/
structure Binding where
  id : String
  uri : String
  data : List UInt32
deriving DecidableEq, Repr

namespace TokenExchange

/-- The document that an exchange is about. -/
def uri : TokenExchange → String
  | .full uri .. | .delta uri .. | .invalidated uri _ => uri

/-- The id that the client gets with an answer. -/
def issued? : TokenExchange → Option String
  | .full _ _ tokens => tokens.resultId
  | .delta _ _ _ (.tokens tokens) => tokens.resultId
  | .delta _ _ _ (.delta changes) => changes.resultId
  | .invalidated .. => none

/-- What an answer says an id stands for: all data does, and so do changes if there are any. -/
def binding? : TokenExchange → Option Binding
  | .full uri data tokens => tokens.resultId.map (⟨·, uri, data⟩)
  | .delta uri _ data (.tokens tokens) => tokens.resultId.map (⟨·, uri, data⟩)
  | .delta uri _ data (.delta changes) =>
    if changes.edits = [] then none else changes.resultId.map (⟨·, uri, data⟩)
  | .invalidated .. => none

end TokenExchange

/-- What ids were said to stand for. -/
def bindings (history : List TokenExchange) : List Binding :=
  history.filterMap TokenExchange.binding?

/-- The id in the last exchange about a document, unless that was to forget it. -/
def lastIssued (history : List TokenExchange) (uri : String) : Option String :=
  (history.filter (·.uri = uri)).getLast?.bind TokenExchange.issued?

namespace TokenCache

/-- Make a call. -/
def exchange (c : TokenCache) : TokenCall → TokenExchange × TokenCache
  | .full uri data => (.full uri data (c.full uri data).1, (c.full uri data).2)
  | .delta uri previous data =>
    (.delta uri previous data (c.delta uri previous data).1, (c.delta uri previous data).2)
  | .invalidate uri => (.invalidated uri (c.invalidate uri).1, (c.invalidate uri).2)

/-- The cache after calls. -/
def after (c : TokenCache) (calls : List TokenCall) : TokenCache :=
  calls.foldl (fun c call => (c.exchange call).2) c

/-- Calls with their answers. -/
def exchanges (c : TokenCache) : List TokenCall → List TokenExchange
  | [] => []
  | call :: calls => (c.exchange call).1 :: (c.exchange call).2.exchanges calls

theorem after_cons (c : TokenCache) (call : TokenCall) (calls : List TokenCall) :
    c.after (call :: calls) = (c.exchange call).2.after calls := rfl

theorem after_append (c : TokenCache) (earlier later : List TokenCall) :
    c.after (earlier ++ later) = (c.after earlier).after later := List.foldl_append ..

theorem exchanges_append (c : TokenCache) (earlier later : List TokenCall) :
    c.exchanges (earlier ++ later) = c.exchanges earlier ++ (c.after earlier).exchanges later := by
  induction earlier generalizing c with
  | nil => rfl
  | cons call earlier ih => simp only [List.cons_append, exchanges, ih, after_cons]

/-! ## What one call does -/

variable {c c' : TokenCache} {e : TokenExchange} {history : List TokenExchange}

theorem get?_record (c : TokenCache) (uri : String) (data : List UInt32) (u : String) :
    (c.record uri data).2.get? u =
      if u = uri then some ⟨toString (c.issued + 1), data⟩ else c.get? u := by
  simp only [get?, record, without, lookup_concat, lookup_filter_ne]
  by_cases hu : u = uri
  · simp [hu]
  · simp [hu]

theorem get?_invalidate (c : TokenCache) (uri u : String) :
    (c.invalidate uri).2.get? u = if u = uri then none else c.get? u := by
  simp only [get?, invalidate, without, lookup_filter_ne]

/-- All data is sent under the id held for the same data, or under a new one. -/
theorem full_cases (c : TokenCache) (uri : String) (data : List UInt32) :
    (∃ id, c.get? uri = some ⟨id, data⟩ ∧ c.full uri data = (⟨some id, data⟩, c)) ∨
    c.full uri data = (⟨some (toString (c.issued + 1)), data⟩, (c.record uri data).2) := by
  unfold full
  cases hget : c.get? uri with
  | none => exact .inr rfl
  | some sent =>
      by_cases hdata : sent.data = data
      · subst hdata
        exact .inl ⟨sent.resultId, rfl, if_pos rfl⟩
      · exact .inr (if_neg hdata)

/-- Changes are sent if the client names the id held for the document, and all data otherwise. -/
theorem delta_cases (c : TokenCache) (uri previous : String) (data : List UInt32) :
    (∃ old, c.get? uri = some ⟨previous, old⟩ ∧ TokensEdit.diff old data = [] ∧
      c.delta uri previous data = (.delta ⟨some previous, []⟩, c)) ∨
    (∃ old, c.get? uri = some ⟨previous, old⟩ ∧ TokensEdit.diff old data ≠ [] ∧
      c.delta uri previous data =
        (.delta ⟨some (toString (c.issued + 1)), TokensEdit.diff old data⟩,
          (c.record uri data).2)) ∨
    (c.resultId? uri ≠ some previous ∧
      c.delta uri previous data = (.tokens (c.full uri data).1, (c.full uri data).2)) := by
  unfold delta resultId?
  cases hget : c.get? uri with
  | none => exact .inr (.inr ⟨by simp, rfl⟩)
  | some sent =>
      obtain ⟨id, old⟩ := sent
      by_cases hid : id = previous
      · subst hid
        simp only [if_true]
        cases hdiff : TokensEdit.diff old data with
        | nil => exact .inl ⟨old, rfl, hdiff, rfl⟩
        | cons edit edits => exact .inr (.inl ⟨old, rfl, by simp [hdiff], by rw [hdiff]; rfl⟩)
      · refine .inr (.inr ⟨by simpa using hid, ?_⟩)
        simp only [if_neg hid]

/-- What an exchange does to a cache. -/
inductive Move (c : TokenCache) (e : TokenExchange) : TokenCache → Prop where
  /-- The client gets the id once more that is held for the document. -/
  | again (sent : SentTokens) (hget : c.get? e.uri = some sent)
      (hissued : e.issued? = some sent.resultId)
      (hbinding : ∀ b, e.binding? = some b → b = ⟨sent.resultId, e.uri, sent.data⟩) : Move c e c
  /-- Data is recorded under a new id. -/
  | anew (data : List UInt32) (hissued : e.issued? = some (toString (c.issued + 1)))
      (hbinding : e.binding? = some ⟨toString (c.issued + 1), e.uri, data⟩) :
      Move c e (c.record e.uri data).2
  /-- The document is forgotten. -/
  | forgotten (known : Bool) (he : e = .invalidated e.uri known) : Move c e (c.invalidate e.uri).2

theorem exchange_move (c : TokenCache) (call : TokenCall) :
    c.Move (c.exchange call).1 (c.exchange call).2 := by
  cases call with
  | full uri data =>
      rcases full_cases c uri data with ⟨id, hget, heq⟩ | heq
      · simp only [exchange, heq]
        exact .again ⟨id, data⟩ hget rfl fun b hb => (Option.some.inj hb).symm
      · simp only [exchange, heq]
        exact .anew data rfl rfl
  | delta uri previous data =>
      rcases delta_cases c uri previous data with
        ⟨old, hget, hdiff, heq⟩ | ⟨old, hget, hdiff, heq⟩ | ⟨hother, heq⟩
      · simp only [exchange, heq]
        exact .again ⟨previous, old⟩ hget rfl fun b hb => by simp [TokenExchange.binding?] at hb
      · simp only [exchange, heq]
        exact .anew data rfl (by simp [TokenExchange.binding?, hdiff, TokenExchange.uri])
      · simp only [exchange, heq]
        rcases full_cases c uri data with ⟨id, hget, hfull⟩ | hfull
        · simp only [hfull]
          exact .again ⟨id, data⟩ hget rfl fun b hb => (Option.some.inj hb).symm
        · simp only [hfull]
          exact .anew data rfl rfl
  | invalidate uri => exact .forgotten (c.invalidate uri).1 rfl

/-! ## The cache and its history -/

theorem toString_injective {m n : Nat} (h : toString m = toString n) : m = n := by
  have hdigits : Nat.toDigits 10 m = Nat.toDigits 10 n := by
    simpa only [Nat.toString_eq_repr, Nat.toList_repr] using congrArg String.toList h
  simpa using congrArg (Nat.ofDigitChars 10 · 0) hdigits

/-- What a cache holds agrees with its history. -/
structure Keeps (history : List TokenExchange) (c : TokenCache) : Prop where
  /-- Ids are numbers that have been drawn. -/
  drawn : ∀ b ∈ bindings history, ∃ n < c.issued, b.id = toString (n + 1)
  /-- No id stands for two things. -/
  unique : ∀ b ∈ bindings history, ∀ b' ∈ bindings history, b.id = b'.id → b = b'
  /-- The client gets an id with every answer about tokens. -/
  named : ∀ e ∈ history, e.issued? = none → ∃ uri known, e = .invalidated uri known
  /-- An id that the client gets stands for an array of the document. -/
  bound : ∀ e ∈ history, ∀ id, e.issued? = some id → ∃ data, ⟨id, e.uri, data⟩ ∈ bindings history
  /-- What is held for a document is what its id stands for. -/
  held : ∀ uri sent, c.get? uri = some sent →
    ⟨sent.resultId, uri, sent.data⟩ ∈ bindings history
  /-- The id held for a document is the last that the client got for it. -/
  last : ∀ uri, c.resultId? uri = lastIssued history uri

theorem Keeps.empty : Keeps [] empty where
  drawn := by simp [bindings]
  unique := by simp [bindings]
  named := by simp
  bound := by simp
  held := by simp [get?, TokenCache.empty]
  last := by simp [resultId?, get?, TokenCache.empty, lastIssued]

theorem bindings_concat (history : List TokenExchange) (e : TokenExchange) :
    bindings (history ++ [e]) = bindings history ++ e.binding?.toList := by
  rw [bindings, List.filterMap_append]
  cases hbinding : e.binding? with
  | none => simp [bindings, hbinding]
  | some b => simp [bindings, hbinding]

theorem lastIssued_concat (history : List TokenExchange) (e : TokenExchange) (uri : String) :
    lastIssued (history ++ [e]) uri =
      if e.uri = uri then e.issued? else lastIssued history uri := by
  unfold lastIssued
  by_cases huri : e.uri = uri
  · simp [huri]
  · simp [huri]

/-- An id is sent once more. -/
theorem Keeps.again (h : Keeps history c) {sent : SentTokens} (hget : c.get? e.uri = some sent)
    (hissued : e.issued? = some sent.resultId)
    (hbinding : ∀ b, e.binding? = some b → b = ⟨sent.resultId, e.uri, sent.data⟩) :
    Keeps (history ++ [e]) c := by
  have hmem := h.held e.uri sent hget
  -- The binding that the exchange repeats is one of the history.
  have hsame : ∀ b, b ∈ bindings (history ++ [e]) ↔ b ∈ bindings history := by
    intro b
    rw [bindings_concat, List.mem_append, Option.mem_toList]
    constructor
    · rintro (hb | hb)
      · exact hb
      · rw [hbinding b hb]
        exact hmem
    · exact .inl
  constructor
  · simpa only [hsame] using h.drawn
  · simpa only [hsame] using h.unique
  · refine List.forall_mem_append.2 ⟨h.named, List.forall_mem_singleton.2 fun hnone => ?_⟩
    rw [hissued] at hnone
    cases hnone
  · simp only [hsame]
    refine List.forall_mem_append.2 ⟨h.bound, List.forall_mem_singleton.2 fun id hid => ?_⟩
    rw [hissued] at hid
    obtain rfl := Option.some.inj hid
    exact ⟨sent.data, hmem⟩
  · simpa only [hsame] using h.held
  · intro uri
    rw [lastIssued_concat]
    split
    · next huri => rw [← huri, hissued, resultId?, hget]; rfl
    · exact h.last uri

/-- Data is recorded under a new id. -/
theorem Keeps.anew (h : Keeps history c) {data : List UInt32}
    (hissued : e.issued? = some (toString (c.issued + 1)))
    (hbinding : e.binding? = some ⟨toString (c.issued + 1), e.uri, data⟩) :
    Keeps (history ++ [e]) (c.record e.uri data).2 := by
  have hbindings : bindings (history ++ [e]) =
      bindings history ++ [⟨toString (c.issued + 1), e.uri, data⟩] := by
    rw [bindings_concat, hbinding]
    rfl
  -- The new id differs from all that have been drawn.
  have hnew : ∀ b ∈ bindings history, b.id ≠ toString (c.issued + 1) := by
    intro b hb heq
    obtain ⟨n, hn, hid⟩ := h.drawn b hb
    have hsucc := toString_injective (hid.symm.trans heq)
    omega
  constructor
  · intro b hb
    rw [hbindings, List.mem_append, List.mem_singleton] at hb
    rcases hb with hb | rfl
    · obtain ⟨n, hn, hid⟩ := h.drawn b hb
      exact ⟨n, Nat.lt_succ_of_lt hn, hid⟩
    · exact ⟨c.issued, Nat.lt_succ_self _, rfl⟩
  · intro b hb b' hb' heq
    rw [hbindings, List.mem_append, List.mem_singleton] at hb hb'
    rcases hb with hb | rfl
    · rcases hb' with hb' | rfl
      · exact h.unique b hb b' hb' heq
      · exact absurd heq (hnew b hb)
    · rcases hb' with hb' | rfl
      · exact absurd heq.symm (hnew b' hb')
      · rfl
  · refine List.forall_mem_append.2 ⟨h.named, List.forall_mem_singleton.2 fun hnone => ?_⟩
    rw [hissued] at hnone
    cases hnone
  · rw [hbindings]
    refine List.forall_mem_append.2
      ⟨fun e' he' id hid => ?_, List.forall_mem_singleton.2 fun id hid => ?_⟩
    · obtain ⟨data', hdata'⟩ := h.bound e' he' id hid
      exact ⟨data', List.mem_append_left _ hdata'⟩
    · rw [hissued] at hid
      obtain rfl := Option.some.inj hid
      exact ⟨data, List.mem_append_right _ (List.mem_singleton.2 rfl)⟩
  · intro uri sent hget
    rw [get?_record] at hget
    rw [hbindings]
    split at hget
    · next huri =>
        subst huri
        obtain rfl := Option.some.inj hget
        exact List.mem_append_right _ (List.mem_singleton.2 rfl)
    · exact List.mem_append_left _ (h.held uri sent hget)
  · intro uri
    rw [lastIssued_concat, resultId?, get?_record]
    by_cases huri : uri = e.uri
    · simp [huri, hissued]
    · simp only [if_neg huri, if_neg (Ne.symm huri)]
      exact h.last uri

/-- A document is forgotten. -/
theorem Keeps.forgotten (h : Keeps history c) {known : Bool} (he : e = .invalidated e.uri known) :
    Keeps (history ++ [e]) (c.invalidate e.uri).2 := by
  have hissued : e.issued? = none := by
    rw [he]
    rfl
  have hbindings : bindings (history ++ [e]) = bindings history := by
    rw [bindings_concat, he]
    simp [TokenExchange.binding?]
  constructor
  · rw [hbindings]
    exact h.drawn
  · rw [hbindings]
    exact h.unique
  · exact List.forall_mem_append.2
      ⟨h.named, List.forall_mem_singleton.2 fun _ => ⟨e.uri, known, he⟩⟩
  · rw [hbindings]
    refine List.forall_mem_append.2 ⟨h.bound, List.forall_mem_singleton.2 fun id hid => ?_⟩
    rw [hissued] at hid
    cases hid
  · intro uri sent hget
    rw [get?_invalidate] at hget
    rw [hbindings]
    split at hget
    · cases hget
    · exact h.held uri sent hget
  · intro uri
    rw [lastIssued_concat, resultId?, get?_invalidate]
    by_cases huri : uri = e.uri
    · simp [huri, hissued]
    · simp only [if_neg huri, if_neg (Ne.symm huri)]
      exact h.last uri

/-- **One exchange keeps the cache in agreement with its history.** -/
theorem Keeps.move (h : Keeps history c) (hmove : c.Move e c') : Keeps (history ++ [e]) c' := by
  cases hmove with
  | again sent hget hissued hbinding => exact h.again hget hissued hbinding
  | anew data hissued hbinding => exact h.anew hissued hbinding
  | forgotten known he => exact h.forgotten he

/-- **A cache agrees with its history after any run.** -/
theorem Keeps.run (h : Keeps history c) (calls : List TokenCall) :
    Keeps (history ++ c.exchanges calls) (c.after calls) := by
  induction calls generalizing c history with
  | nil => simpa [exchanges, after] using h
  | cons call calls ih => simpa [exchanges, after_cons] using ih (h.move (c.exchange_move call))

/-! ## Forgetting -/

/-- What is held for a document, if anything, is held under an id drawn after the first `n`. -/
structure Since (n : Nat) (uri : String) (c : TokenCache) : Prop where
  le : n ≤ c.issued
  late : ∀ sent, c.get? uri = some sent → ∃ k, n ≤ k ∧ sent.resultId = toString (k + 1)

theorem Since.invalidate (c : TokenCache) (uri : String) :
    Since c.issued uri (c.invalidate uri).2 := by
  refine ⟨Nat.le_refl _, fun sent hget => ?_⟩
  rw [get?_invalidate, if_pos rfl] at hget
  cases hget

theorem Since.move {n : Nat} {uri : String} (h : Since n uri c) (hmove : c.Move e c') :
    Since n uri c' := by
  cases hmove with
  | again => exact h
  | anew data =>
      refine ⟨Nat.le_succ_of_le h.le, fun sent hget => ?_⟩
      rw [get?_record] at hget
      split at hget
      · obtain rfl := Option.some.inj hget
        exact ⟨c.issued, h.le, rfl⟩
      · exact h.late sent hget
  | forgotten =>
      refine ⟨h.le, fun sent hget => ?_⟩
      rw [get?_invalidate] at hget
      split at hget
      · cases hget
      · exact h.late sent hget

theorem Since.run {n : Nat} {uri : String} (h : Since n uri c) (calls : List TokenCall) :
    Since n uri (c.after calls) := by
  induction calls generalizing c with
  | nil => exact h
  | cons call calls ih => exact ih (h.move (c.exchange_move call))

/-- Changes are sent only from what is held for the document. -/
theorem get?_of_delta {uri previous : String} {data : List UInt32} {changes : TokensDelta}
    (h : (c.delta uri previous data).1 = .delta changes) :
    ∃ old, c.get? uri = some ⟨previous, old⟩ ∧ changes.edits = TokensEdit.diff old data := by
  rcases delta_cases c uri previous data with
    ⟨old, hget, hdiff, heq⟩ | ⟨old, hget, hdiff, heq⟩ | ⟨hother, heq⟩
  · rw [heq] at h
    cases h
    exact ⟨old, hget, hdiff.symm⟩
  · rw [heq] at h
    cases h
    exact ⟨old, hget, rfl⟩
  · rw [heq] at h
    cases h

theorem data_full (c : TokenCache) (uri : String) (data : List UInt32) :
    (c.full uri data).1.data = data := by
  rcases full_cases c uri data with ⟨id, -, heq⟩ | heq
  · rw [heq]
  · rw [heq]

/-- Changes are sent exactly if the client names the last id that it got, and they lead on from the
array that this id stands for. -/
theorem Keeps.delta (h : Keeps history c) (uri previous : String) (data : List UInt32) :
    match (c.delta uri previous data).1 with
    | .delta changes =>
      lastIssued history uri = some previous ∧
      ∃ old, ⟨previous, uri, old⟩ ∈ bindings history ∧ changes.edits = TokensEdit.diff old data
    | .tokens tokens => lastIssued history uri ≠ some previous ∧ tokens.data = data := by
  cases hanswer : (c.delta uri previous data).1 with
  | delta changes =>
      obtain ⟨old, hget, hedits⟩ := get?_of_delta hanswer
      refine ⟨?_, old, h.held uri _ hget, hedits⟩
      rw [← h.last, resultId?, hget]
      rfl
  | tokens tokens =>
      rw [← h.last]
      rcases delta_cases c uri previous data with
        ⟨old, -, -, heq⟩ | ⟨old, -, -, heq⟩ | ⟨hother, heq⟩
      · rw [heq] at hanswer
        cases hanswer
      · rw [heq] at hanswer
        cases hanswer
      · rw [heq] at hanswer
        obtain rfl := TokensResult.tokens.inj hanswer
        exact ⟨hother, data_full c uri data⟩

section Forgotten

variable (earlier later : List TokenCall) {uri u previous : String}

/-- What is held for a document since it was forgotten has an id that was drawn later. -/
theorem resultId_ne_of_forgotten {sent : SentTokens} {b : Binding}
    (hget : (empty.after (earlier ++ .invalidate uri :: later)).get? uri = some sent)
    (hb : b ∈ bindings (empty.exchanges earlier)) : sent.resultId ≠ b.id := by
  intro hsame
  have hsince : Since (empty.after earlier).issued uri
      (empty.after (earlier ++ .invalidate uri :: later)) := by
    rw [after_append]
    exact (Since.invalidate (empty.after earlier) uri).run later
  obtain ⟨k, hk, hid⟩ := hsince.late sent hget
  obtain ⟨n, hn, hid'⟩ := (Keeps.empty.run earlier).drawn b hb
  have hsucc := toString_injective (hid.symm.trans (hsame.trans hid'))
  omega

/-- An id that is of use after a document was forgotten, and that was sent before, has nothing to do
with this document. -/
theorem delta_of_forgotten {data : List UInt32} {changes : TokensDelta}
    (he : e ∈ empty.exchanges earlier) (hissued : e.issued? = some previous)
    (hdelta : ((empty.after (earlier ++ .invalidate uri :: later)).delta u previous data).1 =
      .delta changes) : e.uri ≠ uri ∧ u ≠ uri := by
  obtain ⟨array, harray⟩ := (Keeps.empty.run earlier).bound e he previous hissued
  obtain ⟨old, hget, -⟩ := get?_of_delta hdelta
  have hother : u ≠ uri := by
    rintro rfl
    exact resultId_ne_of_forgotten earlier later hget harray rfl
  -- The id stands for one array only, so it was sent for the document that the changes are about.
  have hsame : e.uri = u := by
    have hkeeps := Keeps.empty.run (earlier ++ .invalidate uri :: later)
    have hmem : ⟨previous, e.uri, array⟩ ∈
        bindings (empty.exchanges (earlier ++ .invalidate uri :: later)) := by
      rw [exchanges_append, bindings, List.filterMap_append]
      exact List.mem_append_left _ harray
    exact congrArg Binding.uri (hkeeps.unique _ hmem _ (hkeeps.held u _ hget) rfl)
  exact ⟨hsame ▸ hother, hother⟩

end Forgotten

/-- **Ids of token results are not ambiguous.** In every run of calls on a cache, whatever documents
and data they are about:

* the client gets an id with every answer about tokens, and no id stands for two arrays or two
  documents;
* a client that asks for changes gets them if and only if it names the id that it was sent last for
  the document, which has not been forgotten since; that id then stands for an array of the
  document, and the changes are the difference between this array and the new one;
* in all other cases, and whenever it asks for that, it gets all data;
* after a document has been forgotten, no id sent before is of use for it, nor is one that was sent
  for it of use for any document. -/
theorem run_resultIds (calls : List TokenCall) :
    let c := empty.after calls
    let history := empty.exchanges calls
    (∀ e ∈ history, e.issued? = none → ∃ uri known, e = .invalidated uri known) ∧
    (∀ b ∈ bindings history, ∀ b' ∈ bindings history, b.id = b'.id → b = b') ∧
    (∀ uri previous data,
      match (c.delta uri previous data).1 with
      | .delta changes =>
        lastIssued history uri = some previous ∧
        ∃ old, ⟨previous, uri, old⟩ ∈ bindings history ∧
          changes.edits = TokensEdit.diff old data
      | .tokens tokens => lastIssued history uri ≠ some previous ∧ tokens.data = data) ∧
    (∀ uri data, (c.full uri data).1.data = data) ∧
    ∀ earlier uri later, calls = earlier ++ .invalidate uri :: later →
      ∀ e ∈ empty.exchanges earlier, ∀ previous, e.issued? = some previous →
      ∀ u data changes, (c.delta u previous data).1 = .delta changes → e.uri ≠ uri ∧ u ≠ uri := by
  intro c history
  have hkeeps : Keeps history c := Keeps.empty.run calls
  refine ⟨hkeeps.named, hkeeps.unique, hkeeps.delta, data_full c, ?_⟩
  intro earlier uri later hcalls e he previous hissued u data changes hdelta
  have hrun : c = empty.after (earlier ++ .invalidate uri :: later) := congrArg empty.after hcalls
  rw [hrun] at hdelta
  exact delta_of_forgotten earlier later he hissued hdelta

/-- Two documents have the same data, one of them changes, is forgotten and sent again. -/
def reopeningCalls : List TokenCall :=
  [.full "a" [1], .full "b" [1], .delta "a" "1" [1], .delta "a" "1" [2], .invalidate "a",
   .full "a" [2]]

/-- The id sent for the other document is still of use, and so is the new one, under which the data
is sent again; the old one is not, although it was sent for the same data. -/
theorem reopened_resultIds :
    let c := empty.after reopeningCalls
    let history := empty.exchanges reopeningCalls
    (c.delta "b" "2" [7]).1 = .delta ⟨some "5", TokensEdit.diff [1] [7]⟩ ∧
    lastIssued history "b" = some "2" ∧
    lastIssued history "a" = some "4" ∧
    (c.delta "a" "3" [2]).1 = .tokens ⟨some "4", [2]⟩ ∧
    ∀ u data changes, (c.delta u "3" data).1 = .delta changes → u ≠ "a" := by
  intro c history
  have hdelta : (c.delta "b" "2" [7]).1 = .delta ⟨some "5", TokensEdit.diff [1] [7]⟩ := by
    decide +kernel
  obtain ⟨-, -, hids, -, hforgotten⟩ := run_resultIds reopeningCalls
  have hlast := hids "b" "2" [7]
  rw [hdelta] at hlast
  refine ⟨hdelta, hlast.1, by decide +kernel, by decide +kernel, fun u data changes hchanges => ?_⟩
  have hsent : .delta "a" "1" [2] (.delta ⟨some "3", TokensEdit.diff [1] [2]⟩) ∈
      empty.exchanges (reopeningCalls.take 4) := by decide +kernel
  exact (hforgotten (reopeningCalls.take 4) "a" [.full "a" [2]] rfl _ hsent "3" rfl u data changes
    hchanges).2

end TokenCache

end LanguageServer
