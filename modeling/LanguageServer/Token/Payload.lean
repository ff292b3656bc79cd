import LanguageServer.Document.Payload
import LanguageServer.Progress.Payload

set_option autoImplicit false

/-! # What the peers say about semantic tokens -/

namespace LanguageServer

open Wire

/-- All tokens of a document as flat data, under an id by which the client can refer to them. -/
structure SemanticTokens where
  resultId : Option String
  data : List UInt32
deriving DecidableEq, Repr, Inhabited

def SemanticTokens.codec : Codec SemanticTokens :=
  .record "SemanticTokens" <|
    ((Fields.optional "resultId" .string).and (.required "data" (.list .uint32))).map
      (fun (resultId, data) => ⟨resultId, data⟩) (fun t => (t.resultId, t.data))

/-- Replace some consecutive numbers of flat data. -/
structure TokensEdit where
  start : UInt32
  deleteCount : UInt32
  data : Option (List UInt32)
deriving DecidableEq, Repr, Inhabited

def TokensEdit.codec : Codec TokensEdit :=
  .record "SemanticTokensEdit" <|
    ((Fields.required "start" .uint32).and ((Fields.required "deleteCount" .uint32).and
      (.optional "data" (.list .uint32)))).map
      (fun (start, deleteCount, data) => ⟨start, deleteCount, data⟩)
      (fun e => (e.start, e.deleteCount, e.data))

/-- The tokens of a document as changes to data the client has. -/
structure TokensDelta where
  resultId : Option String
  edits : List TokensEdit
deriving DecidableEq, Repr, Inhabited

def TokensDelta.codec : Codec TokensDelta :=
  .record "SemanticTokensDelta" <|
    ((Fields.optional "resultId" .string).and (.required "edits" (.list TokensEdit.codec))).map
      (fun (resultId, edits) => ⟨resultId, edits⟩) (fun d => (d.resultId, d.edits))

/-- The answer to a request for changes, which may be all tokens anew. -/
inductive TokensResult where
  | tokens (t : SemanticTokens)
  | delta (d : TokensDelta)
deriving DecidableEq, Repr, Inhabited

def TokensResult.codec : Codec TokensResult :=
  (Codec.either "SemanticTokensFullDeltaResult" SemanticTokens.codec TokensDelta.codec).map
    (fun | .inl t => .tokens t | .inr d => .delta d)
    (fun | .tokens t => .inl t | .delta d => .inr d)

/-- Asks for all tokens of a document. -/
structure TokensParams where
  workDone : WorkDoneParams
  partialResult : PartialResultParams
  textDocument : TextDocumentIdentifier
deriving DecidableEq, Repr, Inhabited

def TokensParams.codec : Codec TokensParams :=
  .mapping "SemanticTokensParams" <|
    ((Fields.group WorkDoneParams.fields).and ((Fields.group PartialResultParams.fields).and
      (.required "textDocument" TextDocumentIdentifier.codec))).map
      (fun (workDone, partialResult, textDocument) => ⟨workDone, partialResult, textDocument⟩)
      (fun p => (p.workDone, p.partialResult, p.textDocument))

/-- Asks for the changes since an earlier answer. -/
structure TokensDeltaParams where
  workDone : WorkDoneParams
  partialResult : PartialResultParams
  textDocument : TextDocumentIdentifier
  previousResultId : String
deriving DecidableEq, Repr, Inhabited

def TokensDeltaParams.codec : Codec TokensDeltaParams :=
  .mapping "SemanticTokensDeltaParams" <|
    ((Fields.group WorkDoneParams.fields).and ((Fields.group PartialResultParams.fields).and
      ((Fields.required "textDocument" TextDocumentIdentifier.codec).and
        (.required "previousResultId" .string)))).map
      (fun (workDone, partialResult, textDocument, previousResultId) =>
        ⟨workDone, partialResult, textDocument, previousResultId⟩)
      (fun p => (p.workDone, p.partialResult, p.textDocument, p.previousResultId))

/-- Asks for the tokens of a part of a document. -/
structure TokensRangeParams where
  workDone : WorkDoneParams
  partialResult : PartialResultParams
  textDocument : TextDocumentIdentifier
  range : Range
deriving DecidableEq, Repr, Inhabited

def TokensRangeParams.codec : Codec TokensRangeParams :=
  .mapping "SemanticTokensRangeParams" <|
    ((Fields.group WorkDoneParams.fields).and ((Fields.group PartialResultParams.fields).and
      ((Fields.required "textDocument" TextDocumentIdentifier.codec).and
        (.required "range" Range.codec)))).map
      (fun (workDone, partialResult, textDocument, range) =>
        ⟨workDone, partialResult, textDocument, range⟩)
      (fun p => (p.workDone, p.partialResult, p.textDocument, p.range))

end LanguageServer
