import LanguageServer.Proofs.Document.Clamping
import LanguageServer.Proofs.Document.Lives
import LanguageServer.Proofs.Server.Documents
import LanguageServer.Proofs.Wire.Forms

set_option autoImplicit false

/-! # Changes of a range and changes of the whole text

A change is an object that gives a new text and mostly the range of text that it stands for. Nothing
in it says which kind of change it is: if there is a range it is one of that range, otherwise one of
the whole text. A range that cannot be read counts as none, and so does one beside a length that
cannot be read, although the length is not used (`HasBrokenRange`). What an object is read as is
told here from its members alone, and so is what becomes of a document when a notification brings
several (`ChangesTo`): outside its range a change keeps the text, unless the range is broken. -/

namespace LanguageServer

open Wire Document Text
open Json (lookup)

/-! ## Positions, ranges and names of documents -/

def Position.IsGiven (j : Json) (p : Position) : Prop :=
  IsPair (fun j (n : UInt32) => j = .int n.toNat) (fun j (n : UInt32) => j = .int n.toNat)
    "line" "character" j p.line p.character

def Range.IsGiven (j : Json) (r : Range) : Prop :=
  IsPair Position.IsGiven Position.IsGiven "start" "end" j r.start r.stop

def VersionedTextDocumentIdentifier.IsGiven (j : Json) (d : VersionedTextDocumentIdentifier) :
    Prop :=
  IsPair (fun j s => j = .str s) (fun j (n : Int32) => j = .int n.toInt) "uri" "version" j d.uri
    d.version

theorem Position.codec_reads : Position.codec.Reads Position.IsGiven :=
  Codec.reads_uint32.pair Codec.reads_uint32 (fun _ => rfl) fun _ => rfl

theorem Range.codec_reads : Range.codec.Reads Range.IsGiven :=
  Position.codec_reads.pair Position.codec_reads (fun _ => rfl) fun _ => rfl

theorem VersionedTextDocumentIdentifier.codec_reads :
    VersionedTextDocumentIdentifier.codec.Reads VersionedTextDocumentIdentifier.IsGiven :=
  Codec.reads_string.pair Codec.reads_int32 (fun _ => rfl) fun _ => rfl

namespace ContentChange

/-! ## One change -/

/-- The members of an object give a new text. -/
def GivesText (ms : List (String × Json)) (new : String) : Prop :=
  Gives (fun j s => j = .str s) "text" ms new

/-- A range is none, or the length of one is no number that a length can be. -/
def HasBrokenRange (ms : List (String × Json)) : Prop :=
  (∃ j, ("range", j) ∈ ms ∧ ∀ r, ¬ Range.IsGiven j r) ∨
    ∃ j, ("rangeLength", j) ∈ ms ∧ j ≠ .null ∧ ∀ n : UInt32, j ≠ .int n.toNat

/-- The members of an object give a range that can be heeded. -/
def GivesRange (ms : List (String × Json)) (r : Range) : Prop :=
  (∃ j, lookup "range" ms = some j ∧ Range.IsGiven j r) ∧ ¬ HasBrokenRange ms

section

variable {ms : List (String × Json)} {src : Source} {r : Range} {new : String}

theorem not_hasBrokenRange_iff : ¬ HasBrokenRange ms ↔
    (∀ j, ("range", j) ∈ ms → ∃ r, Range.IsGiven j r) ∧
      ∀ j, ("rangeLength", j) ∈ ms → j = .null ∨ ∃ n : UInt32, j = .int n.toNat := by
  refine not_or.trans (and_congr ?_ ?_)
  · simp only [not_exists, not_and, Classical.not_forall, Classical.not_not]
  · simp only [not_exists, not_and, Classical.not_forall, Classical.not_not, ne_eq,
      Classical.or_iff_not_imp_left]

theorem exists_givesRange_iff :
    (∃ r, GivesRange ms r) ↔ ¬ (lookup "range" ms = none ∨ HasBrokenRange ms) := by
  constructor
  · rintro ⟨r, ⟨j, hj, -⟩, hwhole⟩ (hnone | hbroken)
    · rw [hj] at hnone
      cases hnone
    · exact hwhole hbroken
  · intro h
    obtain ⟨hsome, hwhole⟩ := not_or.1 h
    obtain ⟨j, hj⟩ := Option.ne_none_iff_exists'.1 hsome
    obtain ⟨r, hr⟩ := (not_hasBrokenRange_iff.1 hwhole).1 j (Json.mem_of_lookup hj)
    exact ⟨r, ⟨j, hj, hr⟩, hwhole⟩

theorem ofMembers_incremental_iff :
    (∃ length, ((Fields.required "range" Range.codec).and ((Fields.optional "rangeLength" .uint32).and
      (.required "text" .string))).ofMembers src ms = .ok (r, length, new)) ↔
        GivesRange ms r ∧ GivesText ms new := by
  simp only [Fields.ofMembers_and_eq_ok_iff, Fields.ofMembers_required_eq_ok_iff Range.codec_reads,
    Fields.ofMembers_required_eq_ok_iff Codec.reads_string, exists_and_left, exists_and_right,
    Fields.ofMembers_optional_ok_iff Codec.reads_uint32, GivesRange, not_hasBrokenRange_iff]
  constructor
  · rintro ⟨⟨hfirst, hall⟩, hlength, htext⟩
    exact ⟨⟨hfirst, hall, hlength⟩, htext⟩
  · rintro ⟨⟨hfirst, hall, hlength⟩, htext⟩
    exact ⟨⟨hfirst, hall⟩, hlength, htext⟩

theorem read_incremental_iff :
    (∃ length, codec.read src (.obj ms) = .ok (.incremental r length new)) ↔
      GivesRange ms r ∧ GivesText ms new := by
  rw [← @ofMembers_incremental_iff ms .buffered]
  refine exists_congr fun length => ?_
  simp only [codec, Codec.map, bind_eq_ok_iff, Codec.read_either_eq_ok_iff]
  constructor
  · rintro ⟨_, ⟨⟨r, length, new⟩, hread, rfl⟩ | ⟨-, new, -, rfl⟩, h⟩
    · obtain ⟨rfl, rfl, rfl⟩ := ContentChange.incremental.inj (Except.ok.inj h)
      exact hread
    · cases h
  · intro hread
    exact ⟨_, .inl ⟨_, hread, rfl⟩, rfl⟩

theorem read_full_iff :
    codec.read src (.obj ms) = .ok (.full new) ↔
      (lookup "range" ms = none ∨ HasBrokenRange ms) ∧ GivesText ms new := by
  have hfull : (Fields.required "text" .string).ofMembers .buffered ms = .ok new ↔
      GivesText ms new := Fields.ofMembers_required_eq_ok_iff Codec.reads_string
  have hranged := @ofMembers_incremental_iff ms .buffered
  simp only [codec, Codec.map, bind_eq_ok_iff, Codec.read_either_eq_ok_iff]
  constructor
  · rintro ⟨_, ⟨x, -, rfl⟩ | ⟨hother, new, hread, rfl⟩, h⟩
    · cases h
    · obtain rfl := ContentChange.full.inj (Except.ok.inj h)
      have htext := hfull.1 hread
      -- with a range to heed, the first of the two kinds would have been found
      refine ⟨Classical.byContradiction fun hrange => ?_, htext⟩
      obtain ⟨r, hr⟩ := exists_givesRange_iff.2 hrange
      obtain ⟨length, hincremental⟩ := hranged.2 ⟨hr, htext⟩
      exact hother _ hincremental
  · rintro ⟨hrange, htext⟩
    refine ⟨_, .inr ⟨?_, _, hfull.2 htext, rfl⟩, rfl⟩
    rintro ⟨r, length, new⟩ hincremental
    exact exists_givesRange_iff.1 ⟨r, (hranged.1 ⟨length, hincremental⟩).1⟩ hrange

/-- Only an object can be read, and it can if it gives a text. -/
theorem read_ok_iff {j : Json} :
    (∃ c, codec.read src j = .ok c) ↔ ∃ ms new, j = .obj ms ∧ GivesText ms new := by
  constructor
  · rintro ⟨c, hread⟩
    cases j with
    | obj ms =>
        cases c with
        | incremental r length new =>
            exact ⟨ms, new, rfl, (read_incremental_iff.1 ⟨length, hread⟩).2⟩
        | full new => exact ⟨ms, new, rfl, (read_full_iff.1 hread).2⟩
    | _ => cases hread
  · rintro ⟨ms, new, rfl, htext⟩
    by_cases hrange : lookup "range" ms = none ∨ HasBrokenRange ms
    · exact ⟨_, read_full_iff.2 ⟨hrange, htext⟩⟩
    · obtain ⟨r, hr⟩ := exists_givesRange_iff.2 hrange
      obtain ⟨length, hread⟩ := (@read_incremental_iff ms src r new).2 ⟨hr, htext⟩
      exact ⟨_, hread⟩

theorem read_fails_iff :
    (∃ fault, codec.read src (.obj ms) = .error fault) ↔ ¬ ∃ new, GivesText ms new := by
  have hok : (∃ c, codec.read src (.obj ms) = .ok c) ↔ ∃ new, GivesText ms new := by
    rw [read_ok_iff]
    exact ⟨fun ⟨_, new, hms, htext⟩ => ⟨new, Json.obj.inj hms ▸ htext⟩,
      fun ⟨new, htext⟩ => ⟨ms, new, rfl, htext⟩⟩
  rw [← hok]
  cases codec.read src (.obj ms) with
  | error fault => simp
  | ok c => simp

end

/-- A change, as it is given, makes one text of another. -/
inductive Edits (e : PositionEncoding) : Json → String → String → Prop
  | ranged {ms : List (String × Json)} {r : Range} {new text : String}
      {before inside after : List Char} (range : GivesRange ms r) (content : GivesText ms new)
      (cut : text.toList = before ++ (inside ++ after))
      (start : byteLength before = offsetOf text.toList r.normalized.start e)
      (stop : byteLength (before ++ inside) = offsetOf text.toList r.normalized.stop e) :
      Edits e (.obj ms) text (String.ofList (before ++ new.toList ++ after))
  | whole {ms : List (String × Json)} {new text : String}
      (range : lookup "range" ms = none ∨ HasBrokenRange ms) (content : GivesText ms new) :
      Edits e (.obj ms) text new

/-- A change of a range keeps what is before and after it. -/
theorem apply_of_cut {e : PositionEncoding} {text new : String} {r : Range}
    {length : Option UInt32} {before inside after : List Char}
    (hcut : text.toList = before ++ (inside ++ after))
    (hstart : byteLength before = offsetOf text.toList r.normalized.start e)
    (hstop : byteLength (before ++ inside) = offsetOf text.toList r.normalized.stop e) :
    ContentChange.apply e text (.incremental r length new)
      = String.ofList (before ++ new.toList ++ after) := by
  have hle := offsetOf_mono r.normalized_le text.toList e
  simp only [ContentChange.apply, Nat.min_eq_left hle, Nat.max_eq_right hle]
  rw [← hstart, ← hstop, hcut, splice, takeBytes_byteLength, ← List.append_assoc before,
    dropBytes_byteLength]

theorem exists_cut_range (e : PositionEncoding) (text : String) (r : Range) :
    ∃ before inside after, text.toList = before ++ (inside ++ after) ∧
      byteLength before = offsetOf text.toList r.normalized.start e ∧
      byteLength (before ++ inside) = offsetOf text.toList r.normalized.stop e :=
  exists_cut (offsetOf_mono r.normalized_le text.toList e)
    (isBoundary_of_bytes (offsetOf_isBoundary text.toList r.normalized.start e).1)
    (isBoundary_of_bytes (offsetOf_isBoundary text.toList r.normalized.stop e).1)

theorem edits_iff {e : PositionEncoding} {src : Source} {j : Json} {text text' : String} :
    Edits e j text text' ↔ ∃ c, codec.read src j = .ok c ∧ ContentChange.apply e text c = text' := by
  constructor
  · rintro (⟨hrange, htext, hcut, hstart, hstop⟩ | ⟨hrange, htext⟩)
    · obtain ⟨length, hread⟩ := (@read_incremental_iff _ src _ _).2 ⟨hrange, htext⟩
      exact ⟨_, hread, apply_of_cut hcut hstart hstop⟩
    · exact ⟨_, read_full_iff.2 ⟨hrange, htext⟩, rfl⟩
  · rintro ⟨c, hread, rfl⟩
    obtain ⟨ms, new, rfl, -⟩ := read_ok_iff.1 ⟨c, hread⟩
    cases c with
    | incremental r length new =>
        obtain ⟨hrange, htext⟩ := read_incremental_iff.1 ⟨length, hread⟩
        obtain ⟨before, inside, after, hcut, hstart, hstop⟩ := exists_cut_range e text r
        rw [apply_of_cut hcut hstart hstop]
        exact .ranged hrange htext hcut hstart hstop
    | full new =>
        obtain ⟨hrange, htext⟩ := read_full_iff.1 hread
        exact .whole hrange htext

/-! ## Several changes -/

/-- Changes, as they are given, make one text of another in their order. -/
inductive EditAll (e : PositionEncoding) : List Json → String → String → Prop
  | nil {text : String} : EditAll e [] text text
  | cons {j : Json} {rest : List Json} {text text' text'' : String} (first : Edits e j text text')
      (others : EditAll e rest text' text'') : EditAll e (j :: rest) text text''

theorem editAll_iff {e : PositionEncoding} {src : Source} {items : List Json}
    {text text' : String} : EditAll e items text text' ↔
      ∃ changes, codec.readItems src items = .ok changes ∧
        changes.foldl (ContentChange.apply e) text = text' := by
  induction items generalizing text with
  | nil =>
      constructor
      · rintro ⟨⟩
        exact ⟨[], rfl, rfl⟩
      · rintro ⟨_, ⟨⟩, rfl⟩
        exact .nil
  | cons j rest ih =>
      simp only [Codec.readItems, bind_eq_ok_iff]
      constructor
      · rintro (_ | ⟨hfirst, hothers⟩)
        obtain ⟨c, hread, rfl⟩ := (@edits_iff e src ..).1 hfirst
        obtain ⟨changes, hchanges, hfold⟩ := ih.1 hothers
        exact ⟨c :: changes, ⟨c, hread, changes, hchanges, rfl⟩, hfold⟩
      · rintro ⟨_, ⟨c, hread, changes, hchanges, ⟨⟩⟩, hfold⟩
        exact .cons (edits_iff.2 ⟨c, hread, rfl⟩) (ih.2 ⟨changes, hchanges, hfold⟩)

/-- An array of changes, each of which can be read. -/
def AreGiven (j : Json) (items : List Json) : Prop :=
  j = .arr items ∧ ∀ item ∈ items, ∃ ms new, item = .obj ms ∧ GivesText ms new

/-- How a change is read does not depend on where it comes from. -/
theorem readItems_src (src : Source) (items : List Json) :
    codec.readItems src items = codec.readItems .direct items := by
  induction items with
  | nil => rfl
  | cons j rest ih =>
      rw [Codec.readItems, Codec.readItems, ih]
      rfl

theorem readItems_ok_iff {items : List Json} :
    (∃ changes, codec.readItems .direct items = .ok changes) ↔ AreGiven (.arr items) items := by
  simp only [Codec.readItems_ok_iff, read_ok_iff, AreGiven, true_and]

theorem list_reads : (Codec.list codec).Reads fun j changes =>
    ∃ items, AreGiven j items ∧ codec.readItems .direct items = .ok changes := by
  intro src j changes
  cases j with
  | arr items =>
      refine Iff.trans (b := codec.readItems .direct items = .ok changes) ?_ ?_
      · rw [← readItems_src src]
        rfl
      · constructor
        · intro hread
          exact ⟨items, readItems_ok_iff.1 ⟨changes, hread⟩, hread⟩
        · rintro ⟨_, ⟨⟨⟩, -⟩, hread⟩
          exact hread
  | _ =>
      constructor
      · intro hread
        cases hread
      · rintro ⟨_, ⟨harray, -⟩, -⟩
        cases harray

end ContentChange

/-! ## Notifications -/

/-- A notification names a version of a document and gives the changes that lead to it. -/
def DidChangeParams.IsGiven (params : Json) (d : VersionedTextDocumentIdentifier)
    (items : List Json) : Prop :=
  IsPair VersionedTextDocumentIdentifier.IsGiven ContentChange.AreGiven "textDocument"
    "contentChanges" params d items

theorem DidChangeParams.decode_eq_ok_iff {params : Json} {p : DidChangeParams} :
    codec.decode params = .ok p ↔ ∃ items, IsGiven params p.textDocument items ∧
      ContentChange.codec.readItems .direct items = .ok p.contentChanges := by
  have hreads : codec.Reads fun j p => IsPair VersionedTextDocumentIdentifier.IsGiven _
      "textDocument" "contentChanges" j p.textDocument p.contentChanges :=
    VersionedTextDocumentIdentifier.codec_reads.pair ContentChange.list_reads (fun _ => rfl)
      fun _ => rfl
  refine (hreads .direct params p).trans (IsPair.refine (fun _ _ => Iff.rfl) ?_)
  rintro j items ⟨rfl, hitems⟩
  exact ContentChange.readItems_ok_iff.2 ⟨rfl, hitems⟩

namespace DocumentStore

variable {e : PositionEncoding} {s s' : DocumentStore}

/-- What a notification of changes makes of the documents. -/
inductive ChangesTo (s : DocumentStore) (e : PositionEncoding) (params : Json) :
    DocumentStore → Prop
  | intro {id : VersionedTextDocumentIdentifier} {items : List Json} {d : TextDocument}
      {text : String} (given : DidChangeParams.IsGiven params id items)
      (isOpen : s.get? id.uri = some d) (newer : d.version < id.version)
      (edited : ContentChange.EditAll e items d.text text) :
      ChangesTo s e params (s.set id.uri { d with version := id.version, text := text })

theorem didChange_of_newer {p : DidChangeParams} {d : TextDocument}
    (hopen : s.get? p.textDocument.uri = some d) (hnewer : d.version < p.textDocument.version) :
    s.didChange p e = .ok (s.set p.textDocument.uri
      { d with
        version := p.textDocument.version
        text := p.contentChanges.foldl (ContentChange.apply e) d.text }) := by
  simp only [didChange, hopen, if_neg (Int32.not_le.2 hnewer)]

theorem changesTo_iff {params : Json} : s.ChangesTo e params s' ↔
    ∃ p, DidChangeParams.codec.decode params = .ok p ∧ s.didChange p e = .ok s' := by
  constructor
  · rintro ⟨hgiven, hopen, hnewer, hedited⟩
    obtain ⟨changes, hread, rfl⟩ := (@ContentChange.editAll_iff e .direct ..).1 hedited
    exact ⟨⟨_, changes⟩, DidChangeParams.decode_eq_ok_iff.2 ⟨_, hgiven, hread⟩,
      didChange_of_newer hopen hnewer⟩
  · rintro ⟨p, hdecode, hchange⟩
    obtain ⟨d, hopen, hnewer, rfl⟩ := didChange_eq_ok hchange
    obtain ⟨items, hgiven, hread⟩ := DidChangeParams.decode_eq_ok_iff.1 hdecode
    exact .intro hgiven hopen hnewer (ContentChange.editAll_iff.2 ⟨_, hread, rfl⟩)

end DocumentStore

namespace Connection

open ContentChange (GivesText GivesRange HasBrokenRange)

variable {e : PositionEncoding} {params : Json} {s s' : DocumentStore}

theorem syncDocuments_of_changesTo (h : s.ChangesTo e params s') :
    syncDocuments Method.didChange params e s = s' := by
  obtain ⟨p, hdecode, hchange⟩ := DocumentStore.changesTo_iff.1 h
  rw [syncDocuments, if_neg (by decide), if_pos rfl]
  simp only [hdecode, hchange]

theorem syncDocuments_of_unchanged (h : ∀ s', ¬ s.ChangesTo e params s') :
    syncDocuments Method.didChange params e s = s := by
  rw [syncDocuments, if_neg (by decide), if_pos rfl]
  cases hdecode : DidChangeParams.codec.decode params with
  | error fault => simp only [hdecode]
  | ok p =>
      cases hchange : s.didChange p e with
      | error fault => simp only [hdecode, hchange]
      | ok s' => exact absurd (DocumentStore.changesTo_iff.2 ⟨p, hdecode, hchange⟩) (h s')

/-- One change that cannot be read is enough for all to be dropped. -/
theorem syncDocuments_of_unreadable {ms : List (String × Json)} {items : List Json} {item : Json}
    {fault : Fault} (hitems : lookup "contentChanges" ms = some (.arr items))
    (hitem : item ∈ items) (hfault : ContentChange.codec.decode item = .error fault) :
    syncDocuments Method.didChange (.obj ms) e s = s := by
  refine syncDocuments_of_unchanged ?_
  rintro _ ⟨⟨-, ⟨j, hj, rfl, hall⟩, -⟩, -, -, -⟩
  obtain rfl := Json.arr.inj (Option.some.inj (hitems.symm.trans hj))
  obtain ⟨c, hread⟩ := ContentChange.read_ok_iff.2 (hall item hitem)
  rw [show ContentChange.codec.decode item = .ok c from hread] at hfault
  cases hfault

/-- **Only a change without a range that can be read replaces the whole text.** An object is read as
a change of a range if it gives a text and a range that is not broken. It is read as a change of the
whole text if it gives a text and has no range or a broken one, and it cannot be read if it gives no
text. A notification that can be read, of a newer version of an open document, edits the text by its
changes in their order, each of which keeps what is outside its range unless it has none or a broken
one; any other notification, such as one with a change that cannot be read, leaves all documents as
they are. -/
theorem syncDocuments_keeps_text_outside_ranges (ms : List (String × Json)) (e : PositionEncoding)
    (s : DocumentStore) (params : Json) :
    (∀ r new, (∃ length, ContentChange.codec.decode (.obj ms) = .ok (.incremental r length new)) ↔
      GivesRange ms r ∧ GivesText ms new) ∧
    (∀ new, ContentChange.codec.decode (.obj ms) = .ok (.full new) ↔
      (lookup "range" ms = none ∨ HasBrokenRange ms) ∧ GivesText ms new) ∧
    ((∃ fault, ContentChange.codec.decode (.obj ms) = .error fault) ↔ ¬ ∃ new, GivesText ms new) ∧
    (∀ s', s.ChangesTo e params s' → syncDocuments Method.didChange params e s = s') ∧
    ((∀ s', ¬ s.ChangesTo e params s') → syncDocuments Method.didChange params e s = s) ∧
    ∀ fields items item fault, params = .obj fields →
      lookup "contentChanges" fields = some (.arr items) → item ∈ items →
      ContentChange.codec.decode item = .error fault →
        syncDocuments Method.didChange params e s = s := by
  refine ⟨fun _ _ => ContentChange.read_incremental_iff, fun _ => ContentChange.read_full_iff,
    ContentChange.read_fails_iff, fun _ => syncDocuments_of_changesTo, syncDocuments_of_unchanged, ?_⟩
  rintro fields items item fault rfl hitems hitem hfault
  exact syncDocuments_of_unreadable hitems hitem hfault

/-- A notification of a second version. -/
def secondVersion (changes : List Json) : Json :=
  .obj [("textDocument", .obj [("uri", .str "file:///a"), ("version", .int 2)]),
    ("contentChanges", .arr changes)]

/-- A change of a text from its start to some position. -/
def leadingChange (line character : Int) (new : String) : List (String × Json) :=
  [("range", .arr [.arr [.int 0, .int 0], .arr [.int line, .int character]]), ("text", .str new)]

/-- A single open document. -/
def oneDocument (version : Int32) (text : String) : DocumentStore :=
  ⟨[("file:///a", ⟨"file:///a", "plain", version, text⟩)]⟩

/-- A broken range makes the first change one of the whole text, and the second is made in what that
leaves. A third that cannot be read undoes both. -/
theorem syncDocuments_broken_then_ranged :
    let broken := Json.obj (leadingChange (-1) 5 "say hello")
    let ranged := Json.obj (leadingChange 0 3 "oh")
    let unreadable := Json.obj [("text", .int 1)]
    (oneDocument 1 "hello world").ChangesTo .utf16 (secondVersion [broken, ranged])
      (oneDocument 2 "oh hello") ∧
    syncDocuments Method.didChange (secondVersion [broken, ranged]) .utf16
      (oneDocument 1 "hello world") = oneDocument 2 "oh hello" ∧
    (∀ s', ¬ (oneDocument 1 "hello world").ChangesTo .utf16
      (secondVersion [broken, ranged, unreadable]) s') ∧
    syncDocuments Method.didChange (secondVersion [broken, ranged, unreadable]) .utf16
      (oneDocument 1 "hello world") = oneDocument 1 "hello world" := by
  intro broken ranged unreadable
  have hchanges : (oneDocument 1 "hello world").ChangesTo .utf16 (secondVersion [broken, ranged])
      (oneDocument 2 "oh hello") := by
    refine DocumentStore.changesTo_iff.2
      ⟨⟨⟨"file:///a", 2⟩, [.full "say hello", .incremental ⟨⟨0, 0⟩, ⟨0, 3⟩⟩ none "oh"]⟩, rfl, ?_⟩
    exact (DocumentStore.didChange_of_newer rfl (by decide)).trans (congrArg Except.ok (by decide))
  have hnone : ∀ s', ¬ (oneDocument 1 "hello world").ChangesTo .utf16
      (secondVersion [broken, ranged, unreadable]) s' := by
    intro s' h
    obtain ⟨p, hdecode, -⟩ := DocumentStore.changesTo_iff.1 h
    cases hdecode
  obtain ⟨-, -, -, hchanged, -, -⟩ := syncDocuments_keeps_text_outside_ranges
    (leadingChange (-1) 5 "say hello") .utf16 (oneDocument 1 "hello world")
    (secondVersion [broken, ranged])
  obtain ⟨-, -, -, -, hunchanged, -⟩ := syncDocuments_keeps_text_outside_ranges
    [("text", .int 1)] .utf16 (oneDocument 1 "hello world")
    (secondVersion [broken, ranged, unreadable])
  exact ⟨hchanges, hchanged _ hchanges, hnone, hunchanged hnone⟩

/-- A change with a range may still be read as one of the whole text: here the range ends in a line
before the first. -/
theorem exists_whole_change_with_range :
    ¬ ∀ (ms : List (String × Json)) (range : Json), lookup "range" ms = some range →
      range ≠ .null → (∃ fault, ContentChange.codec.decode (.obj ms) = .error fault) ∨
        ∃ r length new, Range.IsGiven range r ∧
          ContentChange.codec.decode (.obj ms) = .ok (.incremental r length new) := by
  intro h
  have hread : ContentChange.codec.decode (.obj (leadingChange (-1) 5 "x")) = .ok (.full "x") := rfl
  rcases h (leadingChange (-1) 5 "x") _ rfl nofun with ⟨fault, hfault⟩ | ⟨r, length, new, -, hranged⟩
  · rw [hread] at hfault
    cases hfault
  · rw [hread] at hranged
    cases hranged

end Connection

end LanguageServer
