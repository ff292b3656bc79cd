import LanguageServer.Message.Id
import LanguageServer.Wire.Record

set_option autoImplicit false

/-! # Reports on work in progress -/

namespace LanguageServer

open Wire

/-- Work starts. -/
structure ProgressBegin where
  title : String
  cancellable : Option Bool
  message : Option String
  percentage : Option UInt32
deriving DecidableEq, Repr, Inhabited

namespace ProgressBegin

def fields : Fields ProgressBegin :=
  ((Fields.required "title" .string).and ((Fields.optional "cancellable" .bool).and
    ((Fields.optional "message" .string).and (.optional "percentage" .uint32)))).map
    (fun (title, cancellable, message, percentage) => ⟨title, cancellable, message, percentage⟩)
    (fun b => (b.title, b.cancellable, b.message, b.percentage))

def codec : Codec ProgressBegin := .record "WorkDoneProgressBegin" fields

end ProgressBegin

/-- Work goes on. -/
structure ProgressReport where
  cancellable : Option Bool
  message : Option String
  percentage : Option UInt32
deriving DecidableEq, Repr, Inhabited

namespace ProgressReport

def fields : Fields ProgressReport :=
  ((Fields.optional "cancellable" .bool).and
    ((Fields.optional "message" .string).and (.optional "percentage" .uint32))).map
    (fun (cancellable, message, percentage) => ⟨cancellable, message, percentage⟩)
    (fun r => (r.cancellable, r.message, r.percentage))

def codec : Codec ProgressReport := .record "WorkDoneProgressReport" fields

end ProgressReport

/-- Work is over. -/
structure ProgressEnd where
  message : Option String
deriving DecidableEq, Repr, Inhabited

namespace ProgressEnd

def fields : Fields ProgressEnd :=
  (Fields.optional "message" .string).map (⟨·⟩) (·.message)

def codec : Codec ProgressEnd := .record "WorkDoneProgressEnd" fields

end ProgressEnd

/-- One report of a stream. -/
inductive WorkDoneProgress where
  | begin (value : ProgressBegin)
  | report (value : ProgressReport)
  | finish (value : ProgressEnd)
deriving DecidableEq, Repr, Inhabited

namespace WorkDoneProgress

/-- The words that tell the kinds of report apart. -/
def kinds : List String := ["begin", "report", "end"]

/-- Read a report whose kind is known from the value without its kind. -/
def readKind (kind : Json) (rest : Json) : Except Fault WorkDoneProgress :=
  match kind with
  | .str "begin" => .begin <$> ProgressBegin.codec.read .buffered rest
  | .str "report" => .report <$> ProgressReport.codec.read .buffered rest
  | .str "end" => .finish <$> ProgressEnd.codec.read .buffered rest
  | .str other => .error (.unknownName other kinds)
  | j => .error (.wrongType j "variant identifier")

/-- A report is an object with a member `kind`, or an array whose first element is the kind. -/
def codec : Codec WorkDoneProgress where
  read _
    | .obj ms =>
      match Json.lookup "kind" ms with
      | some kind => readKind kind (.obj (ms.filter fun m => m.1 ≠ "kind"))
      | none => .error (.missing "kind")
    | .arr (kind :: rest) => readKind kind (.arr rest)
    | .arr [] => .error (.missing "kind")
    | j => .error (.wrongType j "internally tagged enum WorkDoneProgress")
  write
    | .begin b => .obj (("kind", .str "begin") :: ProgressBegin.fields.members b)
    | .report r => .obj (("kind", .str "report") :: ProgressReport.fields.members r)
    | .finish e => .obj (("kind", .str "end") :: ProgressEnd.fields.members e)

end WorkDoneProgress

/-- A report with the key of its stream. -/
structure ProgressParams where
  token : ProgressToken
  value : Json
deriving DecidableEq, Repr, Inhabited

def ProgressParams.codec : Codec ProgressParams :=
  .record "ProgressParams" <|
    ((Fields.required "token" ProgressToken.codec).and (.required "value" .json)).map
      (fun (token, value) => ⟨token, value⟩) (fun p => (p.token, p.value))

/-- Asks the client to show a new stream. -/
structure ProgressCreateParams where
  token : ProgressToken
deriving DecidableEq, Repr, Inhabited

def ProgressCreateParams.codec : Codec ProgressCreateParams :=
  .record "WorkDoneProgressCreateParams" <|
    (Fields.required "token" ProgressToken.codec).map (⟨·⟩) (·.token)

/-- The stream on which a request wants reports. -/
structure WorkDoneParams where
  workDoneToken : Option ProgressToken
deriving DecidableEq, Repr, Inhabited

namespace WorkDoneParams

def fields : Fields WorkDoneParams :=
  (Fields.optional "workDoneToken" ProgressToken.codec).map (⟨·⟩) (·.workDoneToken)

def codec : Codec WorkDoneParams := .record "WorkDoneProgressParams" fields

end WorkDoneParams

/-- The stream on which a request wants partial results. -/
structure PartialResultParams where
  partialResultToken : Option ProgressToken
deriving DecidableEq, Repr, Inhabited

namespace PartialResultParams

def fields : Fields PartialResultParams :=
  (Fields.optional "partialResultToken" ProgressToken.codec).map (⟨·⟩) (·.partialResultToken)

def codec : Codec PartialResultParams := .record "PartialResultParams" fields

end PartialResultParams

end LanguageServer
