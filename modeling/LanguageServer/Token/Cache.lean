import LanguageServer.Token.Diff

set_option autoImplicit false

/-! # Token results the client has

For each document the cache holds the data last sent, under the id it was sent with. Ids are drawn
from a counter, so none is given twice. Data that has not changed keeps its id. -/

namespace LanguageServer

/-- Data sent to the client, with its id. -/
structure SentTokens where
  resultId : String
  data : List UInt32
deriving DecidableEq, Repr, Inhabited

structure TokenCache where
  /-- How many ids have been drawn. -/
  issued : Nat
  entries : List (String × SentTokens)
deriving DecidableEq, Repr, Inhabited

namespace TokenCache

def empty : TokenCache := ⟨0, []⟩

def get? (c : TokenCache) (uri : String) : Option SentTokens := c.entries.lookup uri

/-- The id of the data last sent for a document. -/
def resultId? (c : TokenCache) (uri : String) : Option String := (c.get? uri).map (·.resultId)

/-- The entries without those of one document. -/
def without (c : TokenCache) (uri : String) : List (String × SentTokens) :=
  c.entries.filter fun entry => entry.1 ≠ uri

/-- Keep data under a new id. -/
def record (c : TokenCache) (uri : String) (data : List UInt32) : String × TokenCache :=
  let id := toString (c.issued + 1)
  (id, ⟨c.issued + 1, c.without uri ++ [(uri, ⟨id, data⟩)]⟩)

/-- Answer with all data; data that has not changed keeps its id. -/
def full (c : TokenCache) (uri : String) (data : List UInt32) : SemanticTokens × TokenCache :=
  let fresh :=
    let (id, c) := c.record uri data
    ((⟨some id, data⟩ : SemanticTokens), c)
  match c.get? uri with
  | some sent => if sent.data = data then (⟨some sent.resultId, data⟩, c) else fresh
  | none => fresh

/-- Answer with the changes since an earlier answer, if that is the last one; else with all
data. -/
def delta (c : TokenCache) (uri previous : String) (data : List UInt32) :
    TokensResult × TokenCache :=
  let all :=
    let (tokens, c) := c.full uri data
    (TokensResult.tokens tokens, c)
  match c.get? uri with
  | some sent =>
    if sent.resultId = previous then
      match TokensEdit.diff sent.data data with
      | [] => (.delta ⟨some previous, []⟩, c)
      | edits =>
        let (id, c) := c.record uri data
        (.delta ⟨some id, edits⟩, c)
    else all
  | none => all

/-- Forget a document; tells whether it was known. -/
def invalidate (c : TokenCache) (uri : String) : Bool × TokenCache :=
  ((c.get? uri).isSome, { c with entries := c.without uri })

end TokenCache

end LanguageServer
