import LanguageServer.Document.Position
import LanguageServer.Token.Legend

set_option autoImplicit false

/-! # Capabilities

What a client says it can do is kept as it came and asked by path. What a server says it can do is
a record for the parts that the server drives itself, and an open list of providers for the
rest. -/

namespace LanguageServer

open Wire

/-! ## The client's -/

/-- What a client can do, as it said it. -/
structure ClientCapabilities where
  value : Json
deriving DecidableEq, Repr, Inhabited

namespace ClientCapabilities

def codec : Codec ClientCapabilities := Codec.json.map (⟨·⟩) (·.value)

/-- A path is a list of keys with dots between them. -/
def splitPath (path : String) : List String :=
  let rec go (key : List Char) : List Char → List String
    | [] => [String.ofList key.reverse]
    | c :: rest =>
      if c = '.' then String.ofList key.reverse :: go [] rest else go (c :: key) rest
  go [] path.toList

/-- The value at a path. -/
def get (c : ClientCapabilities) (path : String) : Option Json :=
  (splitPath path).foldlM Json.get? c.value

/-- Whether the value at a path is `true` or an object. -/
def supports (c : ClientCapabilities) (path : String) : Bool :=
  match c.get path with
  | some (.bool true) | some (.obj _) => true
  | _ => false

/-- The encodings the client offers, those with unknown names left out. -/
def positionEncodings (c : ClientCapabilities) : List PositionEncoding :=
  match c.get "general.positionEncodings" with
  | some (.arr names) => names.filterMap fun
    | .str name => PositionEncoding.ofName? name
    | _ => none
  | _ => []

end ClientCapabilities

/-! ## Synchronisation of documents -/

/-- How changes to a document are sent. -/
inductive SyncKind where
  | none
  | full
  | incremental
deriving DecidableEq, Repr, Inhabited

namespace SyncKind

def all : List SyncKind := [.none, .full, .incremental]

def code : SyncKind → UInt8
  | .none => 0
  | .full => 1
  | .incremental => 2

def name : SyncKind → String
  | .none => "None"
  | .full => "Full"
  | .incremental => "Incremental"

def codec : Codec SyncKind := .numbered "text document sync kind" all code

end SyncKind

structure SaveOptions where
  includeText : Option Bool
deriving DecidableEq, Repr, Inhabited

def SaveOptions.codec : Codec SaveOptions :=
  .record "SaveOptions" <| (Fields.optional "includeText" .bool).map (⟨·⟩) (·.includeText)

/-- Which events of a document the server wants. -/
structure SyncOptions where
  openClose : Option Bool
  change : Option SyncKind
  willSave : Option Bool
  willSaveWaitUntil : Option Bool
  save : Option SaveOptions
deriving DecidableEq, Repr, Inhabited

def SyncOptions.codec : Codec SyncOptions :=
  .record "TextDocumentSyncOptions" <|
    ((Fields.optional "openClose" .bool).and ((Fields.optional "change" SyncKind.codec).and
      ((Fields.optional "willSave" .bool).and ((Fields.optional "willSaveWaitUntil" .bool).and
        (.optional "save" SaveOptions.codec))))).map
      (fun (openClose, change, willSave, willSaveWaitUntil, save) =>
        ⟨openClose, change, willSave, willSaveWaitUntil, save⟩)
      (fun o => (o.openClose, o.change, o.willSave, o.willSaveWaitUntil, o.save))

/-- Synchronisation is given by its kind alone or by options. -/
inductive DocumentSync where
  | kind (k : SyncKind)
  | options (o : SyncOptions)
deriving DecidableEq, Repr, Inhabited

namespace DocumentSync

def codec : Codec DocumentSync :=
  (Codec.either "TextDocumentSync" SyncKind.codec SyncOptions.codec).map
    (fun | .inl k => .kind k | .inr o => .options o)
    (fun | .kind k => .inl k | .options o => .inr o)

/-- How changes are sent; options that do not say so want none. -/
def changeKind : DocumentSync → SyncKind
  | .kind k => k
  | .options o => o.change.getD .none

end DocumentSync

/-! ## Options shared by registrations -/

structure WorkDoneOptions where
  workDoneProgress : Option Bool
deriving DecidableEq, Repr, Inhabited

namespace WorkDoneOptions

def fields : Fields WorkDoneOptions :=
  (Fields.optional "workDoneProgress" .bool).map (⟨·⟩) (·.workDoneProgress)

def codec : Codec WorkDoneOptions := .record "WorkDoneProgressOptions" fields

end WorkDoneOptions

/-- Selects documents by language, scheme or path. -/
structure DocumentFilter where
  language : Option String
  scheme : Option String
  pattern : Option String
deriving DecidableEq, Repr, Inhabited

def DocumentFilter.codec : Codec DocumentFilter :=
  .record "DocumentFilter" <|
    ((Fields.optional "language" .string).and ((Fields.optional "scheme" .string).and
      (.optional "pattern" .string))).map
      (fun (language, scheme, pattern) => ⟨language, scheme, pattern⟩)
      (fun f => (f.language, f.scheme, f.pattern))

/-- The documents a registration is for; none selected is written as null. -/
structure DocumentRegistrationOptions where
  documentSelector : Option (List DocumentFilter)
deriving DecidableEq, Repr, Inhabited

namespace DocumentRegistrationOptions

def fields : Fields DocumentRegistrationOptions :=
  (Fields.nullable "documentSelector" (.list DocumentFilter.codec)).map (⟨·⟩) (·.documentSelector)

def codec : Codec DocumentRegistrationOptions :=
  .record "TextDocumentRegistrationOptions" fields

end DocumentRegistrationOptions

structure StaticRegistrationOptions where
  id : Option String
deriving DecidableEq, Repr, Inhabited

namespace StaticRegistrationOptions

def fields : Fields StaticRegistrationOptions :=
  (Fields.optional "id" .string).map (⟨·⟩) (·.id)

def codec : Codec StaticRegistrationOptions := .record "StaticRegistrationOptions" fields

end StaticRegistrationOptions

/-! ## Semantic tokens -/

/-- Whether all tokens of a document can be asked for, and changes to them. -/
inductive TokensFullOptions where
  | flag (b : Bool)
  | delta (delta : Option Bool)
deriving DecidableEq, Repr, Inhabited

def TokensFullOptions.codec : Codec TokensFullOptions :=
  (Codec.either "SemanticTokensFullOptions" .bool
    (.mapping "Delta" <| Fields.optional "delta" .bool)).map
    (fun | .inl b => .flag b | .inr d => .delta d)
    (fun | .flag b => .inl b | .delta d => .inr d)

structure TokensOptions where
  workDone : WorkDoneOptions
  legend : Legend
  range : Option Bool
  full : Option TokensFullOptions
deriving DecidableEq, Repr, Inhabited

namespace TokensOptions

def fields : Fields TokensOptions :=
  ((Fields.group WorkDoneOptions.fields).and ((Fields.required "legend" Legend.codec).and
    ((Fields.optional "range" .bool).and (.optional "full" TokensFullOptions.codec)))).map
    (fun (workDone, legend, range, full) => ⟨workDone, legend, range, full⟩)
    (fun o => (o.workDone, o.legend, o.range, o.full))

def codec : Codec TokensOptions := .mapping "SemanticTokensOptions" fields

/-- Whether changes to tokens can be asked for. -/
def supportsDelta (o : TokensOptions) : Bool := o.full = some (.delta (some true))

end TokensOptions

structure TokensRegistrationOptions where
  textDocument : DocumentRegistrationOptions
  options : TokensOptions
  registration : StaticRegistrationOptions
deriving DecidableEq, Repr, Inhabited

def TokensRegistrationOptions.codec : Codec TokensRegistrationOptions :=
  .mapping "SemanticTokensRegistrationOptions" <|
    ((Fields.group DocumentRegistrationOptions.fields).and ((Fields.group TokensOptions.fields).and
      (.group StaticRegistrationOptions.fields))).map
      (fun (textDocument, options, registration) => ⟨textDocument, options, registration⟩)
      (fun o => (o.textDocument, o.options, o.registration))

structure ChangeRegistrationOptions where
  textDocument : DocumentRegistrationOptions
  syncKind : SyncKind
deriving DecidableEq, Repr, Inhabited

def ChangeRegistrationOptions.codec : Codec ChangeRegistrationOptions :=
  .mapping "TextDocumentChangeRegistrationOptions" <|
    ((Fields.group DocumentRegistrationOptions.fields).and
      (.required "syncKind" SyncKind.codec)).map
      (fun (textDocument, syncKind) => ⟨textDocument, syncKind⟩)
      (fun o => (o.textDocument, o.syncKind))

/-! ## The server's -/

/-- What a server can do. -/
structure ServerCapabilities where
  positionEncoding : Option PositionEncoding
  textDocumentSync : Option DocumentSync
  semanticTokensProvider : Option TokensOptions
  experimental : Option Json
  providers : List (String × Json)
deriving DecidableEq, Repr, Inhabited

namespace ServerCapabilities

def empty : ServerCapabilities := ⟨none, none, none, none, []⟩

def codec : Codec ServerCapabilities :=
  .mapping "ServerCapabilities" <|
    (((Fields.optional "positionEncoding" PositionEncoding.codec).and
      ((Fields.optional "textDocumentSync" DocumentSync.codec).and
        ((Fields.optional "semanticTokensProvider" TokensOptions.codec).and
          (.optional "experimental" .json)))).andOthers).map
      (fun ((positionEncoding, textDocumentSync, semanticTokensProvider, experimental), others) =>
        ⟨positionEncoding, textDocumentSync, semanticTokensProvider, experimental, others⟩)
      (fun c => ((c.positionEncoding, c.textDocumentSync, c.semanticTokensProvider,
        c.experimental), c.providers))

/-- Add a provider, or replace the one of the same name. -/
def withProvider (c : ServerCapabilities) (name : String) (value : Json) : ServerCapabilities :=
  { c with providers := Json.insert name value c.providers }

end ServerCapabilities

end LanguageServer
