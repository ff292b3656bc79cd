import LanguageServer.Document.Store
import LanguageServer.Proofs.Document.Position

set_option autoImplicit false

/-! # The server's text mirrors the client's

A client edits its own text by byte offsets and tells the server about each edit by positions,
computed in the text that the edit was made in. The server turns the positions back into offsets in
its own text. As long as the two texts are equal before an edit they are equal after it
(`ContentChange.apply_change`), so they stay equal through any number of edits, however these are
gathered into notifications (`relay_mirrors`). An edit may create a pair of carriage return and line
feed, join one or break one: the next positions are computed in the new text on both sides. -/

namespace LanguageServer

open Document Text

/-! ## Edits of a client -/

/-- What a client does to its text: it puts a text in the place of what lies between two offsets. -/
structure ClientEdit where
  start : Nat
  stop : Nat
  text : String
  /-- Whether the client names the end of the range first. -/
  reversed : Bool
  /-- The length of the range, which a client may give besides. -/
  rangeLength : Option UInt32

namespace ClientEdit

/-- The client's text after the edit. -/
def apply (text : String) (edit : ClientEdit) : String :=
  String.ofList
    (takeBytes edit.start text.toList ++ edit.text.toList ++ dropBytes edit.stop text.toList)

/-- The edit fits the text: its ends are in order, fall between characters and split no line end,
and the positions in the text can be counted in 32 bits. -/
def Fits (e : PositionEncoding) (text : String) (edit : ClientEdit) : Prop :=
  edit.start ≤ edit.stop ∧
    (IsBoundary edit.start text.toList ∧ ¬ SplitsLineEnd edit.start text.toList) ∧
    (IsBoundary edit.stop text.toList ∧ ¬ SplitsLineEnd edit.stop text.toList) ∧
    Countable e text.toList

instance (e : PositionEncoding) (text : String) (edit : ClientEdit) :
    Decidable (edit.Fits e text) :=
  inferInstanceAs (Decidable (_ ∧ _))

/-- What the client tells the server about the edit. -/
def change (e : PositionEncoding) (text : String) (edit : ClientEdit) : ContentChange :=
  let a := positionOf text.toList edit.start e
  let b := positionOf text.toList edit.stop e
  .incremental (if edit.reversed then ⟨b, a⟩ else ⟨a, b⟩) edit.rangeLength edit.text

end ClientEdit

/-- Edits one after another, each made in the text that the ones before it left. -/
def editAll (text : String) (edits : List ClientEdit) : String :=
  edits.foldl ClientEdit.apply text

/-- Every edit fits the text that it is made in. -/
def AllFit (e : PositionEncoding) : String → List ClientEdit → Prop
  | _, [] => True
  | text, edit :: rest => edit.Fits e text ∧ AllFit e (edit.apply text) rest

/-- What the client tells the server about edits one after another. -/
def changesOf (e : PositionEncoding) : String → List ClientEdit → List ContentChange
  | _, [] => []
  | text, edit :: rest => edit.change e text :: changesOf e (edit.apply text) rest

/-! ## One change -/

/-- The two ends of a range lead to the same two offsets whether or not it is put in order. -/
theorem Range.normalized_cases (r : Range) :
    r.normalized = r ∨ r.normalized = ⟨r.stop, r.start⟩ := by
  unfold Range.normalized
  split
  · exact Or.inl rfl
  · exact Or.inr rfl

/-- A change whose range leads back to two offsets in order splices between them, whichever end the
range names first. -/
theorem ContentChange.apply_incremental {e : PositionEncoding} {text new : String} {r : Range}
    {length : Option UInt32} {a b : Nat} (hab : a ≤ b)
    (h : (offsetOf text.toList r.start e = a ∧ offsetOf text.toList r.stop e = b) ∨
      (offsetOf text.toList r.start e = b ∧ offsetOf text.toList r.stop e = a)) :
    ContentChange.apply e text (.incremental r length new)
      = String.ofList (splice a b new.toList text.toList) := by
  have hmin : min a b = a ∧ min b a = a := ⟨Nat.min_eq_left hab, Nat.min_eq_right hab⟩
  have hmax : max a b = b ∧ max b a = b := ⟨Nat.max_eq_right hab, Nat.max_eq_left hab⟩
  unfold ContentChange.apply
  rcases Range.normalized_cases r with hr | hr <;> rcases h with ⟨h₁, h₂⟩ | ⟨h₁, h₂⟩ <;>
    simp only [hr, h₁, h₂, hmin, hmax]

/-- The server does to its text what the client did to the same text. -/
theorem ContentChange.apply_change {e : PositionEncoding} {text : String} {edit : ClientEdit}
    (h : edit.Fits e text) :
    ContentChange.apply e text (edit.change e text) = edit.apply text := by
  obtain ⟨hle, ⟨hstart, hstart'⟩, ⟨hstop, hstop'⟩, hcount⟩ := h
  have ha : offsetOf text.toList (positionOf text.toList edit.start e) e = edit.start := by
    rw [offsetOf_positionOf hcount, anchor_of_isBoundary hstart hstart']
  have hb : offsetOf text.toList (positionOf text.toList edit.stop e) e = edit.stop := by
    rw [offsetOf_positionOf hcount, anchor_of_isBoundary hstop hstop']
  refine ContentChange.apply_incremental hle ?_
  cases edit.reversed with
  | false => exact Or.inl ⟨ha, hb⟩
  | true => exact Or.inr ⟨hb, ha⟩

/-- The changes of one notification, applied in their order, follow the edits behind them. -/
theorem ContentChange.apply_changesOf {e : PositionEncoding} {text : String}
    {edits : List ClientEdit} (h : AllFit e text edits) :
    (changesOf e text edits).foldl (ContentChange.apply e) text = editAll text edits := by
  induction edits generalizing text with
  | nil => rfl
  | cons edit rest ih =>
      obtain ⟨hedit, hrest⟩ := h
      rw [changesOf, List.foldl_cons, ContentChange.apply_change hedit]
      exact ih hrest

/-! ## Notifications -/

theorem DocumentStore.get?_set {s : DocumentStore} {uri : String} {d : TextDocument}
    (h : s.get? uri = some d) (d' : TextDocument) : (s.set uri d').get? uri = some d' := by
  obtain ⟨entries⟩ := s
  simp only [DocumentStore.get?, DocumentStore.set] at h ⊢
  induction entries with
  | nil => simp at h
  | cons entry rest ih =>
      obtain ⟨key, value⟩ := entry
      by_cases hkey : key = uri
      · subst hkey; simp
      · have hne : (uri == key) = false := by simpa using fun h' : uri = key => hkey h'.symm
        simp only [List.lookup_cons, hne] at h
        simp only [List.map_cons, if_neg hkey, List.lookup_cons, hne]
        exact ih h

/-- A notification of changes: the version it carries and the edits that it tells of. -/
structure ClientBatch where
  version : Int32
  edits : List ClientEdit

/-- The notification that a client sends after edits of its text. -/
def ClientBatch.params (e : PositionEncoding) (uri text : String) (b : ClientBatch) :
    DidChangeParams :=
  ⟨⟨uri, b.version⟩, changesOf e text b.edits⟩

/-- A client sends its notifications one after another; gives the server's documents after each. -/
def relay (e : PositionEncoding) (uri : String) :
    DocumentStore → (text : String) → List ClientBatch → Except SyncFault (List DocumentStore)
  | _, _, [] => .ok []
  | s, text, b :: rest => do
    let s ← s.didChange (b.params e uri text) e
    let later ← relay e uri s (editAll text b.edits) rest
    return s :: later

/-- The client's text after each of its notifications. -/
def clientTexts : (text : String) → List ClientBatch → List String
  | _, [] => []
  | text, b :: rest => editAll text b.edits :: clientTexts (editAll text b.edits) rest

/-- Every edit of every notification fits the text that it is made in. -/
def BatchesFit (e : PositionEncoding) : (text : String) → List ClientBatch → Prop
  | _, [] => True
  | text, b :: rest => AllFit e text b.edits ∧ BatchesFit e (editAll text b.edits) rest

/-- A newer version is accepted, and the document then has the client's text. -/
theorem DocumentStore.didChange_params {e : PositionEncoding} {uri : String} {s : DocumentStore}
    {d : TextDocument} {b : ClientBatch} (hopen : s.get? uri = some d)
    (hversion : d.version < b.version) (hfit : AllFit e d.text b.edits) :
    s.didChange (b.params e uri d.text) e
      = .ok (s.set uri { d with version := b.version, text := editAll d.text b.edits }) := by
  have hnew : ¬ b.version ≤ d.version := Int32.not_le.2 hversion
  simp only [DocumentStore.didChange, ClientBatch.params, hopen, if_neg hnew,
    ContentChange.apply_changesOf hfit]

/-- **The texts never diverge.** Whatever edits a client makes, and however it gathers them into
notifications with ever greater versions, the server accepts each notification and then has the
client's text. -/
theorem relay_mirrors {e : PositionEncoding} {uri : String} {s : DocumentStore} {d : TextDocument}
    {batches : List ClientBatch} (hopen : s.get? uri = some d)
    (hversions : (d.version :: batches.map (·.version)).Pairwise (· < ·))
    (hfit : BatchesFit e d.text batches) :
    ∃ stores, relay e uri s d.text batches = .ok stores ∧
      stores.map (fun s => (s.get? uri).map (·.text)) = (clientTexts d.text batches).map some := by
  induction batches generalizing s d with
  | nil => exact ⟨[], rfl, rfl⟩
  | cons b rest ih =>
      obtain ⟨hb, hrest⟩ := hfit
      obtain ⟨hnew, hlater⟩ := List.pairwise_cons.1 hversions
      have hchange := DocumentStore.didChange_params hopen (hnew _ List.mem_cons_self) hb
      have hget := DocumentStore.get?_set hopen
        { d with version := b.version, text := editAll d.text b.edits }
      obtain ⟨stores, hstores, htexts⟩ := ih hget hlater hrest
      refine ⟨s.set uri { d with version := b.version, text := editAll d.text b.edits } :: stores,
        ?_, ?_⟩
      · rw [relay, hchange]
        simp only [bind, Except.bind, hstores]
        rfl
      · rw [List.map_cons, htexts, hget]
        rfl

/-- A line feed typed after a carriage return joins it to one line end; the next edit, named from
its end, puts a character of four bytes in the place of both. -/
theorem relay_mirrors_joined_pair :
    let text := String.ofList ['a', '\r', 'b']
    let batches : List ClientBatch :=
      [⟨2, [⟨2, 2, String.ofList ['\n'], false, none⟩]⟩,
        ⟨3, [⟨1, 3, String.ofList ['😀'], true, none⟩]⟩]
    ∃ stores, relay .utf16 "a" ⟨[("a", ⟨"a", "text", 1, text⟩)]⟩ text batches = .ok stores ∧
      stores.map (fun s => (s.get? "a").map (·.text))
        = [some (String.ofList ['a', '\r', '\n', 'b']), some (String.ofList ['a', '😀', 'b'])] := by
  intro text batches
  have hfit : BatchesFit .utf16 text batches := by
    simp only [text, batches, BatchesFit, AllFit, ClientEdit.Fits, editAll, List.foldl,
      ClientEdit.apply, String.toList_ofList]
    decide
  have hopen : (⟨[("a", ⟨"a", "text", 1, text⟩)]⟩ : DocumentStore).get? "a"
      = some ⟨"a", "text", 1, text⟩ := by
    simp [DocumentStore.get?]
  have htexts : (clientTexts text batches).map some
      = [some (String.ofList ['a', '\r', '\n', 'b']), some (String.ofList ['a', '😀', 'b'])] := by
    simp only [text, batches, clientTexts, editAll, List.foldl, ClientEdit.apply,
      String.toList_ofList]
    rfl
  rw [← htexts]
  exact relay_mirrors hopen (by decide) hfit

end LanguageServer
