import LanguageServer.Document.Offset
import LanguageServer.Document.Payload

set_option autoImplicit false

/-! # Open documents

A document is open from when the client opens it until it closes it. In between, each change carries
a version greater than the one before; a change with any other version is refused, and a refused
operation leaves the store as it was. -/

namespace LanguageServer

/-- An open document. -/
structure TextDocument where
  uri : String
  languageId : String
  version : Int32
  text : String
deriving DecidableEq, Repr, Inhabited

namespace TextDocument

def ofItem (item : TextDocumentItem) : TextDocument :=
  ⟨item.uri, item.languageId, item.version, item.text⟩

def lines (d : TextDocument) : List String := Document.lines d.text

def offsetOf (d : TextDocument) (p : Position) (e : PositionEncoding) : Nat :=
  Document.offsetOf d.text.toList p e

def positionOf (d : TextDocument) (offset : Nat) (e : PositionEncoding) : Position :=
  Document.positionOf d.text.toList offset e

/-- The length of the text in bytes. -/
def byteLength (d : TextDocument) : Nat := Text.byteLength d.text.toList

end TextDocument

/-- The text after a change. -/
def ContentChange.apply (e : PositionEncoding) (text : String) : ContentChange → String
  | .full new => new
  | .incremental range _ new =>
    let cs := text.toList
    let r := range.normalized
    let a := Document.offsetOf cs r.start e
    let b := Document.offsetOf cs r.stop e
    String.ofList (Text.splice (min a b) (max a b) new.toList cs)

/-- Why the store refuses an operation. -/
inductive SyncFault where
  | alreadyOpen (uri : String)
  | notOpen (uri : String)
  | staleVersion (uri : String) (current received : Int32)
deriving DecidableEq, Repr, Inhabited

/-- An integer of 32 bits in decimal. -/
def int32Text (n : Int32) : String := String.ofList (Json.intChars n.toInt)

def SyncFault.message : SyncFault → String
  | .alreadyOpen uri => s!"document {uri} is already open"
  | .notOpen uri => s!"document {uri} is not open"
  | .staleVersion uri current received =>
    s!"stale change for {uri}: version {int32Text received} is not after {int32Text current}"

/-- The open documents, by their address. -/
structure DocumentStore where
  entries : List (String × TextDocument)
deriving DecidableEq, Repr, Inhabited

namespace DocumentStore

def empty : DocumentStore := ⟨[]⟩

def get? (s : DocumentStore) (uri : String) : Option TextDocument := s.entries.lookup uri

def isOpen (s : DocumentStore) (uri : String) : Bool := (s.get? uri).isSome

def size (s : DocumentStore) : Nat := s.entries.length

/-- Replace the document at an address. -/
def set (s : DocumentStore) (uri : String) (d : TextDocument) : DocumentStore :=
  ⟨s.entries.map fun entry => if entry.1 = uri then (uri, d) else entry⟩

def didOpen (s : DocumentStore) (p : DidOpenParams) : Except SyncFault DocumentStore :=
  let item := p.textDocument
  match s.get? item.uri with
  | some _ => .error (.alreadyOpen item.uri)
  | none => .ok ⟨s.entries ++ [(item.uri, TextDocument.ofItem item)]⟩

/-- Apply changes in their order. -/
def didChange (s : DocumentStore) (p : DidChangeParams) (e : PositionEncoding) :
    Except SyncFault DocumentStore :=
  let uri := p.textDocument.uri
  let received := p.textDocument.version
  match s.get? uri with
  | none => .error (.notOpen uri)
  | some d =>
    if received ≤ d.version then .error (.staleVersion uri d.version received)
    else
      let text := p.contentChanges.foldl (ContentChange.apply e) d.text
      .ok (s.set uri { d with version := received, text := text })

/-- A text that comes with a save replaces the document's; its version stays. -/
def didSave (s : DocumentStore) (p : DidSaveParams) : Except SyncFault DocumentStore :=
  let uri := p.textDocument.uri
  match s.get? uri with
  | none => .error (.notOpen uri)
  | some d => .ok (s.set uri { d with text := p.text.getD d.text })

def didClose (s : DocumentStore) (uri : String) : Except SyncFault DocumentStore :=
  match s.get? uri with
  | none => .error (.notOpen uri)
  | some _ => .ok ⟨s.entries.filter fun entry => entry.1 ≠ uri⟩

end DocumentStore

end LanguageServer
