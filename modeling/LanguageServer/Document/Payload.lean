import LanguageServer.Document.Position

set_option autoImplicit false

/-! # What the peers say about documents -/

namespace LanguageServer

open Wire

/-- Replace a range by a text. -/
structure TextEdit where
  range : Range
  newText : String
deriving DecidableEq, Repr, Inhabited

def TextEdit.codec : Codec TextEdit :=
  .record "TextEdit" <|
    ((Fields.required "range" Range.codec).and (.required "newText" .string)).map
      (fun (range, newText) => ⟨range, newText⟩) (fun e => (e.range, e.newText))

/-- A document as it is opened. -/
structure TextDocumentItem where
  uri : String
  languageId : String
  version : Int32
  text : String
deriving DecidableEq, Repr, Inhabited

def TextDocumentItem.codec : Codec TextDocumentItem :=
  .record "TextDocumentItem" <|
    ((Fields.required "uri" .string).and ((Fields.required "languageId" .string).and
      ((Fields.required "version" .int32).and (.required "text" .string)))).map
      (fun (uri, languageId, version, text) => ⟨uri, languageId, version, text⟩)
      (fun d => (d.uri, d.languageId, d.version, d.text))

structure TextDocumentIdentifier where
  uri : String
deriving DecidableEq, Repr, Inhabited

def TextDocumentIdentifier.codec : Codec TextDocumentIdentifier :=
  .record "TextDocumentIdentifier" <| (Fields.required "uri" .string).map (⟨·⟩) (·.uri)

structure VersionedTextDocumentIdentifier where
  uri : String
  version : Int32
deriving DecidableEq, Repr, Inhabited

def VersionedTextDocumentIdentifier.codec : Codec VersionedTextDocumentIdentifier :=
  .record "VersionedTextDocumentIdentifier" <|
    ((Fields.required "uri" .string).and (.required "version" .int32)).map
      (fun (uri, version) => ⟨uri, version⟩) (fun d => (d.uri, d.version))

/-- A change to a text: a range replaced, or the whole text. -/
inductive ContentChange where
  | incremental (range : Range) (rangeLength : Option UInt32) (text : String)
  | full (text : String)
deriving DecidableEq, Repr, Inhabited

namespace ContentChange

/-- A change with a range that can be read is incremental; any other with a text is full. -/
def codec : Codec ContentChange :=
  (Codec.either "TextDocumentContentChangeEvent"
    (.mapping "Incremental" <| (Fields.required "range" Range.codec).and
      ((Fields.optional "rangeLength" .uint32).and (.required "text" .string)))
    (.mapping "Full" <| Fields.required "text" .string)).map
    (fun
      | .inl (range, rangeLength, text) => .incremental range rangeLength text
      | .inr text => .full text)
    (fun
      | .incremental range rangeLength text => .inl (range, rangeLength, text)
      | .full text => .inr text)

def isFull : ContentChange → Bool
  | .full _ => true
  | .incremental .. => false

end ContentChange

structure DidOpenParams where
  textDocument : TextDocumentItem
deriving DecidableEq, Repr, Inhabited

def DidOpenParams.codec : Codec DidOpenParams :=
  .record "DidOpenTextDocumentParams" <|
    (Fields.required "textDocument" TextDocumentItem.codec).map (⟨·⟩) (·.textDocument)

structure DidChangeParams where
  textDocument : VersionedTextDocumentIdentifier
  contentChanges : List ContentChange
deriving DecidableEq, Repr, Inhabited

def DidChangeParams.codec : Codec DidChangeParams :=
  .record "DidChangeTextDocumentParams" <|
    ((Fields.required "textDocument" VersionedTextDocumentIdentifier.codec).and
      (.required "contentChanges" (.list ContentChange.codec))).map
      (fun (textDocument, contentChanges) => ⟨textDocument, contentChanges⟩)
      (fun p => (p.textDocument, p.contentChanges))

structure DidCloseParams where
  textDocument : TextDocumentIdentifier
deriving DecidableEq, Repr, Inhabited

def DidCloseParams.codec : Codec DidCloseParams :=
  .record "DidCloseTextDocumentParams" <|
    (Fields.required "textDocument" TextDocumentIdentifier.codec).map (⟨·⟩) (·.textDocument)

structure DidSaveParams where
  textDocument : TextDocumentIdentifier
  text : Option String
deriving DecidableEq, Repr, Inhabited

def DidSaveParams.codec : Codec DidSaveParams :=
  .record "DidSaveTextDocumentParams" <|
    ((Fields.required "textDocument" TextDocumentIdentifier.codec).and
      (.optional "text" .string)).map
      (fun (textDocument, text) => ⟨textDocument, text⟩) (fun p => (p.textDocument, p.text))

/-- Why a document is about to be saved. -/
inductive SaveReason where
  | manual
  | afterDelay
  | focusOut
deriving DecidableEq, Repr, Inhabited

namespace SaveReason

def all : List SaveReason := [.manual, .afterDelay, .focusOut]

def code : SaveReason → UInt8
  | .manual => 1
  | .afterDelay => 2
  | .focusOut => 3

def name : SaveReason → String
  | .manual => "Manual"
  | .afterDelay => "AfterDelay"
  | .focusOut => "FocusOut"

def codec : Codec SaveReason := .numbered "save reason" all code

end SaveReason

structure WillSaveParams where
  textDocument : TextDocumentIdentifier
  reason : SaveReason
deriving DecidableEq, Repr, Inhabited

def WillSaveParams.codec : Codec WillSaveParams :=
  .record "WillSaveTextDocumentParams" <|
    ((Fields.required "textDocument" TextDocumentIdentifier.codec).and
      (.required "reason" SaveReason.codec)).map
      (fun (textDocument, reason) => ⟨textDocument, reason⟩)
      (fun p => (p.textDocument, p.reason))

end LanguageServer
