import LanguageServer.Client.Payload
import LanguageServer.Message.Error
import LanguageServer.Proofs.Wire.Stable
import LanguageServer.Session.Payload
import LanguageServer.Token.Payload

set_option autoImplicit false

/-! # The types of the wire

All types of values that the peers exchange, with how they appear in JSON (`wireTypes`). For each of
them, what has been read is read as the same value again after it was written. The proofs follow the
codecs: where alternatives are tried in turn, an earlier one must not take what was written for a
later one. -/

namespace LanguageServer

open Wire Wire.Codec

/-! ## Ids and errors -/

theorem refuses_int64_string : int64.Refuses string := nofun

theorem RequestId.codec_stable : RequestId.codec.Stable :=
  .map (.either stable_int64 stable_string refuses_int64_string) fun
    | .inl _ => rfl
    | .inr _ => rfl

theorem ProgressToken.codec_stable : ProgressToken.codec.Stable :=
  .map (.either stable_int64 stable_string refuses_int64_string) fun
    | .inl _ => rfl
    | .inr _ => rfl

theorem ErrorCode.value_ofValue (n : Int64) : (ofValue n).value = n := by
  rw [ofValue]
  cases hfind : known.find? fun c => c.value = n with
  | none => rfl
  | some c => simpa using List.find?_some hfind

theorem ErrorCode.codec_stable : ErrorCode.codec.Stable := .map stable_int64 value_ofValue

theorem ResponseError.codec_stable : ResponseError.codec.Stable :=
  .record (.map (.and (.required ErrorCode.codec_stable) (.and (.required stable_string)
    (.optional stable_json))) fun _ => rfl) (by decide)

/-! ## Documents -/

theorem Position.codec_stable : Position.codec.Stable :=
  .record (.map (.and (.required stable_uint32) (.required stable_uint32)) fun _ => rfl) (by decide)

theorem Range.codec_stable : Range.codec.Stable :=
  .record (.map (.and (.required Position.codec_stable) (.required Position.codec_stable))
    fun _ => rfl) (by decide)

theorem PositionEncoding.codec_stable : PositionEncoding.codec.Stable := stable_named

theorem TextEdit.codec_stable : TextEdit.codec.Stable :=
  .record (.map (.and (.required Range.codec_stable) (.required stable_string)) fun _ => rfl)
    (by decide)

theorem TextDocumentItem.codec_stable : TextDocumentItem.codec.Stable :=
  .record (.map (.and (.required stable_string) (.and (.required stable_string)
    (.and (.required stable_int32) (.required stable_string)))) fun _ => rfl) (by decide)

theorem TextDocumentIdentifier.codec_stable : TextDocumentIdentifier.codec.Stable :=
  .record (.map (.required stable_string) fun _ => rfl) (by decide)

theorem VersionedTextDocumentIdentifier.codec_stable :
    VersionedTextDocumentIdentifier.codec.Stable :=
  .record (.map (.and (.required stable_string) (.required stable_int32)) fun _ => rfl) (by decide)

/-- A text alone is no incremental change: that has a range. -/
theorem ContentChange.codec_stable : ContentChange.codec.Stable := by
  refine .map (.either ?_ ?_ ?_) fun
    | .inl _ => rfl
    | .inr _ => rfl
  · exact .mapping (.and (.required Range.codec_stable) (.and (.optional stable_uint32)
      (.required stable_string))) (by decide)
  · exact .mapping (.required stable_string) (by decide)
  · intro src j text _ change hread
    obtain ⟨ms, hms, hread⟩ := read_mapping_eq_ok_iff.1 hread
    obtain rfl := Json.obj.inj hms
    obtain ⟨hrange, -⟩ := seq_eq_ok_iff.1 (Fields.ofMembers_eq_ok_iff.1 hread).2.1
    cases hrange

theorem DidOpenParams.codec_stable : DidOpenParams.codec.Stable :=
  .record (.map (.required TextDocumentItem.codec_stable) fun _ => rfl) (by decide)

theorem DidChangeParams.codec_stable : DidChangeParams.codec.Stable :=
  .record (.map (.and (.required VersionedTextDocumentIdentifier.codec_stable)
    (.required (.list ContentChange.codec_stable))) fun _ => rfl) (by decide)

theorem DidCloseParams.codec_stable : DidCloseParams.codec.Stable :=
  .record (.map (.required TextDocumentIdentifier.codec_stable) fun _ => rfl) (by decide)

theorem DidSaveParams.codec_stable : DidSaveParams.codec.Stable :=
  .record (.map (.and (.required TextDocumentIdentifier.codec_stable) (.optional stable_string))
    fun _ => rfl) (by decide)

theorem SaveReason.codec_stable : SaveReason.codec.Stable := stable_numbered

theorem WillSaveParams.codec_stable : WillSaveParams.codec.Stable :=
  .record (.map (.and (.required TextDocumentIdentifier.codec_stable)
    (.required SaveReason.codec_stable)) fun _ => rfl) (by decide)

/-! ## Capabilities -/

theorem ClientCapabilities.codec_stable : ClientCapabilities.codec.Stable :=
  .map stable_json fun _ => rfl

theorem SyncKind.codec_stable : SyncKind.codec.Stable := stable_numbered

theorem SaveOptions.codec_stable : SaveOptions.codec.Stable :=
  .record (.map (.optional stable_bool) fun _ => rfl) (by decide)

theorem SyncOptions.codec_stable : SyncOptions.codec.Stable :=
  .record (.map (.and (.optional stable_bool) (.and (.optional SyncKind.codec_stable)
    (.and (.optional stable_bool) (.and (.optional stable_bool)
      (.optional SaveOptions.codec_stable))))) fun _ => rfl) (by decide)

theorem DocumentSync.codec_stable : DocumentSync.codec.Stable := by
  refine .map (.either SyncKind.codec_stable SyncOptions.codec_stable ?_) fun
    | .inl _ => rfl
    | .inr _ => rfl
  exact nofun

theorem WorkDoneOptions.fields_stable : WorkDoneOptions.fields.Stable ["workDoneProgress"] :=
  .map (.optional stable_bool) fun _ => rfl

theorem WorkDoneOptions.codec_stable : WorkDoneOptions.codec.Stable :=
  .record fields_stable (by decide)

theorem DocumentFilter.codec_stable : DocumentFilter.codec.Stable :=
  .record (.map (.and (.optional stable_string) (.and (.optional stable_string)
    (.optional stable_string))) fun _ => rfl) (by decide)

theorem DocumentRegistrationOptions.fields_stable :
    DocumentRegistrationOptions.fields.Stable ["documentSelector"] :=
  .map (.nullable (.list DocumentFilter.codec_stable)) fun _ => rfl

theorem DocumentRegistrationOptions.codec_stable : DocumentRegistrationOptions.codec.Stable :=
  .record fields_stable (by decide)

theorem StaticRegistrationOptions.fields_stable : StaticRegistrationOptions.fields.Stable ["id"] :=
  .map (.optional stable_string) fun _ => rfl

theorem StaticRegistrationOptions.codec_stable : StaticRegistrationOptions.codec.Stable :=
  .record fields_stable (by decide)

theorem Legend.codec_stable : Legend.codec.Stable :=
  .record (.map (.and (.required (.list stable_string)) (.required (.list stable_string)))
    fun _ => rfl) (by decide)

theorem TokensFullOptions.codec_stable : TokensFullOptions.codec.Stable := by
  refine .map (.either stable_bool (.mapping (.optional stable_bool) (by decide)) ?_) fun
    | .inl _ => rfl
    | .inr _ => rfl
  exact nofun

theorem TokensOptions.fields_stable :
    TokensOptions.fields.Stable (["workDoneProgress"] ++ (["legend"] ++ (["range"] ++ ["full"]))) :=
  .map (.and (.group WorkDoneOptions.fields_stable) (.and (.required Legend.codec_stable)
    (.and (.optional stable_bool) (.optional TokensFullOptions.codec_stable)))) fun _ => rfl

theorem TokensOptions.codec_stable : TokensOptions.codec.Stable :=
  .mapping fields_stable (by decide)

theorem TokensRegistrationOptions.codec_stable : TokensRegistrationOptions.codec.Stable :=
  .mapping (.map (.and (.group DocumentRegistrationOptions.fields_stable)
    (.and (.group TokensOptions.fields_stable) (.group StaticRegistrationOptions.fields_stable)))
    fun _ => rfl) (by decide)

theorem ChangeRegistrationOptions.codec_stable : ChangeRegistrationOptions.codec.Stable :=
  .mapping (.map (.and (.group DocumentRegistrationOptions.fields_stable)
    (.required SyncKind.codec_stable)) fun _ => rfl) (by decide)

theorem ServerCapabilities.codec_stable : ServerCapabilities.codec.Stable :=
  .andOthers (.and (.optional PositionEncoding.codec_stable)
    (.and (.optional DocumentSync.codec_stable) (.and (.optional TokensOptions.codec_stable)
      (.optional stable_json)))) (by decide) fun _ => rfl

/-! ## Sessions -/

theorem ProgramInfo.fields_stable : ProgramInfo.fields.Stable (["name"] ++ ["version"]) :=
  .map (.and (.required stable_string) (.optional stable_string)) fun _ => rfl

theorem ProgramInfo.clientCodec_stable : ProgramInfo.clientCodec.Stable :=
  .record fields_stable (by decide)

theorem ProgramInfo.serverCodec_stable : ProgramInfo.serverCodec.Stable :=
  .record fields_stable (by decide)

theorem WorkspaceFolder.codec_stable : WorkspaceFolder.codec.Stable :=
  .record (.map (.and (.required stable_string) (.required stable_string)) fun _ => rfl) (by decide)

theorem TraceLevel.codec_stable : TraceLevel.codec.Stable := stable_named

theorem SessionParams.codec_stable : SessionParams.codec.Stable :=
  .record (.map (.and (.nullable stable_int64) (.and (.optional ProgramInfo.clientCodec_stable)
    (.and (.optional stable_string) (.and (.nullable stable_string) (.and (.optional stable_json)
      (.and (.defaulted ClientCapabilities.codec_stable fun _ => rfl)
        (.and (.optional TraceLevel.codec_stable)
          (.optional (.list WorkspaceFolder.codec_stable))))))))) fun _ => rfl) (by decide)

theorem SessionResult.codec_stable : SessionResult.codec.Stable :=
  .record (.map (.and (.required ServerCapabilities.codec_stable)
    (.optional ProgramInfo.serverCodec_stable)) fun _ => rfl) (by decide)

theorem CancelParams.codec_stable : CancelParams.codec.Stable :=
  .record (.map (.required RequestId.codec_stable) fun _ => rfl) (by decide)

theorem SetTraceParams.codec_stable : SetTraceParams.codec.Stable :=
  .record (.map (.required TraceLevel.codec_stable) fun _ => rfl) (by decide)

theorem LogTraceParams.codec_stable : LogTraceParams.codec.Stable :=
  .record (.map (.and (.required stable_string) (.optional stable_string)) fun _ => rfl) (by decide)

/-! ## To the client -/

theorem Registration.codec_stable : Registration.codec.Stable :=
  .record (.map (.and (.required stable_string) (.and (.required stable_string)
    (.optional stable_json))) fun _ => rfl) (by decide)

theorem RegistrationParams.codec_stable : RegistrationParams.codec.Stable :=
  .record (.map (.required (.list Registration.codec_stable)) fun _ => rfl) (by decide)

theorem Unregistration.codec_stable : Unregistration.codec.Stable :=
  .record (.map (.and (.required stable_string) (.required stable_string)) fun _ => rfl) (by decide)

theorem UnregistrationParams.codec_stable : UnregistrationParams.codec.Stable :=
  .record (.map (.required (.list Unregistration.codec_stable)) fun _ => rfl) (by decide)

theorem MessageType.codec_stable : MessageType.codec.Stable := stable_numbered

theorem MessageParams.fields_stable : MessageParams.fields.Stable (["type"] ++ ["message"]) :=
  .map (.and (.required MessageType.codec_stable) (.required stable_string)) fun _ => rfl

theorem MessageParams.logCodec_stable : MessageParams.logCodec.Stable :=
  .record fields_stable (by decide)

theorem MessageParams.showCodec_stable : MessageParams.showCodec.Stable :=
  .record fields_stable (by decide)

theorem Diagnostic.codec_stable : Diagnostic.codec.Stable :=
  .andOthers (.and (.required Range.codec_stable) (.and (.optional stable_uint8)
    (.and (.optional stable_string) (.required stable_string)))) (by decide) fun _ => rfl

theorem PublishDiagnosticsParams.codec_stable : PublishDiagnosticsParams.codec.Stable :=
  .record (.map (.and (.required stable_string) (.and (.optional stable_int32)
    (.required (.list Diagnostic.codec_stable)))) fun _ => rfl) (by decide)

/-! ## Progress -/

theorem ProgressBegin.fields_stable : ProgressBegin.fields.Stable
    (["title"] ++ (["cancellable"] ++ (["message"] ++ ["percentage"]))) :=
  .map (.and (.required stable_string) (.and (.optional stable_bool)
    (.and (.optional stable_string) (.optional stable_uint32)))) fun _ => rfl

theorem ProgressBegin.codec_stable : ProgressBegin.codec.Stable :=
  .record fields_stable (by decide)

theorem ProgressReport.fields_stable : ProgressReport.fields.Stable
    (["cancellable"] ++ (["message"] ++ ["percentage"])) :=
  .map (.and (.optional stable_bool) (.and (.optional stable_string) (.optional stable_uint32)))
    fun _ => rfl

theorem ProgressReport.codec_stable : ProgressReport.codec.Stable :=
  .record fields_stable (by decide)

theorem ProgressEnd.fields_stable : ProgressEnd.fields.Stable ["message"] :=
  .map (.optional stable_string) fun _ => rfl

theorem ProgressEnd.codec_stable : ProgressEnd.codec.Stable :=
  .record fields_stable (by decide)

namespace WorkDoneProgress

/-- What a report of a known kind is read from. -/
theorem readKind_eq_ok {kind rest : Json} {p : WorkDoneProgress} (h : readKind kind rest = .ok p) :
    match p with
    | .begin b => ProgressBegin.codec.read .buffered rest = .ok b
    | .report r => ProgressReport.codec.read .buffered rest = .ok r
    | .finish e => ProgressEnd.codec.read .buffered rest = .ok e := by
  unfold readKind at h
  split at h
  · obtain ⟨b, hb, rfl⟩ := map_eq_ok_iff.1 h
    exact hb
  · obtain ⟨r, hr, rfl⟩ := map_eq_ok_iff.1 h
    exact hr
  · obtain ⟨e, he, rfl⟩ := map_eq_ok_iff.1 h
    exact he
  · cases h
  · cases h

theorem exists_readKind {src : Source} {j : Json} {p : WorkDoneProgress}
    (h : codec.read src j = .ok p) : ∃ kind rest, readKind kind rest = .ok p := by
  simp only [codec] at h
  split at h
  · split at h
    · exact ⟨_, _, h⟩
    · cases h
  · exact ⟨_, _, h⟩
  · cases h
  · cases h

/-- The kind of a report can be told from its fields. -/
theorem filter_kind {α : Type} {f : Fields α} {names : List String} {a : α}
    (h : f.Settled names a) (hnames : "kind" ∉ names) (kind : Json) :
    (("kind", kind) :: f.members a).filter (fun m => m.1 ≠ "kind") = f.members a := by
  rw [List.filter_cons_of_neg (by simp), List.filter_eq_self]
  intro m hm
  have hkey : m.1 ≠ "kind" := fun heq => hnames (heq ▸ h.named m hm)
  simpa using hkey

theorem codec_stable : codec.Stable where
  returns {src j p} hread src' := by
    obtain ⟨kind, rest, hread⟩ := exists_readKind hread
    have hfields := readKind_eq_ok hread
    cases p with
    | begin b =>
        have hsettled := ProgressBegin.fields_stable.settled (by decide) (given_of_record hfields)
        change readKind (.str "begin") (.obj (List.filter _ _)) = _
        rw [filter_kind hsettled (by decide)]
        exact map_eq_ok_iff.2 ⟨b, ProgressBegin.codec_stable.returns hfields .buffered, rfl⟩
    | report r =>
        have hsettled := ProgressReport.fields_stable.settled (by decide) (given_of_record hfields)
        change readKind (.str "report") (.obj (List.filter _ _)) = _
        rw [filter_kind hsettled (by decide)]
        exact map_eq_ok_iff.2 ⟨r, ProgressReport.codec_stable.returns hfields .buffered, rfl⟩
    | finish e =>
        have hsettled := ProgressEnd.fields_stable.settled (by decide) (given_of_record hfields)
        change readKind (.str "end") (.obj (List.filter _ _)) = _
        rw [filter_kind hsettled (by decide)]
        exact map_eq_ok_iff.2 ⟨e, ProgressEnd.codec_stable.returns hfields .buffered, rfl⟩
  solid {_ _ p} _ _ := by cases p <;> nofun

end WorkDoneProgress

theorem ProgressParams.codec_stable : ProgressParams.codec.Stable :=
  .record (.map (.and (.required ProgressToken.codec_stable) (.required stable_json)) fun _ => rfl)
    (by decide)

theorem ProgressCreateParams.codec_stable : ProgressCreateParams.codec.Stable :=
  .record (.map (.required ProgressToken.codec_stable) fun _ => rfl) (by decide)

theorem WorkDoneParams.fields_stable : WorkDoneParams.fields.Stable ["workDoneToken"] :=
  .map (.optional ProgressToken.codec_stable) fun _ => rfl

theorem WorkDoneParams.codec_stable : WorkDoneParams.codec.Stable :=
  .record fields_stable (by decide)

theorem PartialResultParams.fields_stable :
    PartialResultParams.fields.Stable ["partialResultToken"] :=
  .map (.optional ProgressToken.codec_stable) fun _ => rfl

theorem PartialResultParams.codec_stable : PartialResultParams.codec.Stable :=
  .record fields_stable (by decide)

/-! ## Tokens -/

theorem SemanticTokens.codec_stable : SemanticTokens.codec.Stable :=
  .record (.map (.and (.optional stable_string) (.required (.list stable_uint32))) fun _ => rfl)
    (by decide)

theorem TokensEdit.codec_stable : TokensEdit.codec.Stable :=
  .record (.map (.and (.required stable_uint32) (.and (.required stable_uint32)
    (.optional (.list stable_uint32)))) fun _ => rfl) (by decide)

theorem TokensDelta.codec_stable : TokensDelta.codec.Stable :=
  .record (.map (.and (.optional stable_string) (.required (.list TokensEdit.codec_stable)))
    fun _ => rfl) (by decide)

/-- Changes are not taken for tokens: those have data. -/
theorem TokensResult.codec_stable : TokensResult.codec.Stable := by
  refine .map (.either SemanticTokens.codec_stable TokensDelta.codec_stable ?_) fun
    | .inl _ => rfl
    | .inr _ => rfl
  intro src j delta _ tokens hread
  obtain ⟨-, hdata⟩ := seq_eq_ok_iff.1 (Fields.ofMembers_eq_ok_iff.1 hread).2.1
  obtain ⟨resultId, edits⟩ := delta
  cases resultId <;> cases hdata

theorem TokensParams.codec_stable : TokensParams.codec.Stable :=
  .mapping (.map (.and (.group WorkDoneParams.fields_stable)
    (.and (.group PartialResultParams.fields_stable)
      (.required TextDocumentIdentifier.codec_stable))) fun _ => rfl) (by decide)

theorem TokensDeltaParams.codec_stable : TokensDeltaParams.codec.Stable :=
  .mapping (.map (.and (.group WorkDoneParams.fields_stable)
    (.and (.group PartialResultParams.fields_stable)
      (.and (.required TextDocumentIdentifier.codec_stable) (.required stable_string))))
    fun _ => rfl) (by decide)

theorem TokensRangeParams.codec_stable : TokensRangeParams.codec.Stable :=
  .mapping (.map (.and (.group WorkDoneParams.fields_stable)
    (.and (.group PartialResultParams.fields_stable)
      (.and (.required TextDocumentIdentifier.codec_stable) (.required Range.codec_stable))))
    fun _ => rfl) (by decide)

/-! ## All of them -/

/-- A type of values, with how they appear in JSON. -/
structure WireType where
  Value : Type
  codec : Codec Value

/-- All that the peers say to each other inside of messages. -/
def wireTypes : List WireType :=
  [⟨_, RequestId.codec⟩, ⟨_, ProgressToken.codec⟩, ⟨_, ErrorCode.codec⟩, ⟨_, ResponseError.codec⟩,
    ⟨_, Position.codec⟩, ⟨_, Range.codec⟩, ⟨_, PositionEncoding.codec⟩, ⟨_, TextEdit.codec⟩,
    ⟨_, TextDocumentItem.codec⟩, ⟨_, TextDocumentIdentifier.codec⟩,
    ⟨_, VersionedTextDocumentIdentifier.codec⟩, ⟨_, ContentChange.codec⟩, ⟨_, DidOpenParams.codec⟩,
    ⟨_, DidChangeParams.codec⟩, ⟨_, DidCloseParams.codec⟩, ⟨_, DidSaveParams.codec⟩,
    ⟨_, SaveReason.codec⟩, ⟨_, WillSaveParams.codec⟩,
    ⟨_, ClientCapabilities.codec⟩, ⟨_, SyncKind.codec⟩, ⟨_, SaveOptions.codec⟩,
    ⟨_, SyncOptions.codec⟩, ⟨_, DocumentSync.codec⟩, ⟨_, WorkDoneOptions.codec⟩,
    ⟨_, DocumentFilter.codec⟩, ⟨_, DocumentRegistrationOptions.codec⟩,
    ⟨_, StaticRegistrationOptions.codec⟩, ⟨_, TokensFullOptions.codec⟩, ⟨_, TokensOptions.codec⟩,
    ⟨_, TokensRegistrationOptions.codec⟩, ⟨_, ChangeRegistrationOptions.codec⟩,
    ⟨_, ServerCapabilities.codec⟩,
    ⟨_, ProgramInfo.clientCodec⟩, ⟨_, ProgramInfo.serverCodec⟩, ⟨_, WorkspaceFolder.codec⟩,
    ⟨_, TraceLevel.codec⟩, ⟨_, SessionParams.codec⟩, ⟨_, SessionResult.codec⟩,
    ⟨_, CancelParams.codec⟩, ⟨_, SetTraceParams.codec⟩, ⟨_, LogTraceParams.codec⟩,
    ⟨_, Registration.codec⟩, ⟨_, RegistrationParams.codec⟩, ⟨_, Unregistration.codec⟩,
    ⟨_, UnregistrationParams.codec⟩, ⟨_, MessageType.codec⟩, ⟨_, MessageParams.logCodec⟩,
    ⟨_, MessageParams.showCodec⟩, ⟨_, Diagnostic.codec⟩, ⟨_, PublishDiagnosticsParams.codec⟩,
    ⟨_, ProgressBegin.codec⟩, ⟨_, ProgressReport.codec⟩, ⟨_, ProgressEnd.codec⟩,
    ⟨_, WorkDoneProgress.codec⟩, ⟨_, ProgressParams.codec⟩, ⟨_, ProgressCreateParams.codec⟩,
    ⟨_, WorkDoneParams.codec⟩, ⟨_, PartialResultParams.codec⟩,
    ⟨_, Legend.codec⟩, ⟨_, SemanticTokens.codec⟩, ⟨_, TokensEdit.codec⟩, ⟨_, TokensDelta.codec⟩,
    ⟨_, TokensResult.codec⟩, ⟨_, TokensParams.codec⟩, ⟨_, TokensDeltaParams.codec⟩,
    ⟨_, TokensRangeParams.codec⟩]

theorem wireTypes_stable : ∀ t ∈ wireTypes, t.codec.Stable := by
  simp only [wireTypes, List.forall_mem_cons]
  exact ⟨RequestId.codec_stable, ProgressToken.codec_stable, ErrorCode.codec_stable,
    ResponseError.codec_stable, Position.codec_stable, Range.codec_stable,
    PositionEncoding.codec_stable, TextEdit.codec_stable, TextDocumentItem.codec_stable,
    TextDocumentIdentifier.codec_stable, VersionedTextDocumentIdentifier.codec_stable,
    ContentChange.codec_stable, DidOpenParams.codec_stable, DidChangeParams.codec_stable,
    DidCloseParams.codec_stable, DidSaveParams.codec_stable, SaveReason.codec_stable,
    WillSaveParams.codec_stable, ClientCapabilities.codec_stable, SyncKind.codec_stable,
    SaveOptions.codec_stable, SyncOptions.codec_stable, DocumentSync.codec_stable,
    WorkDoneOptions.codec_stable, DocumentFilter.codec_stable,
    DocumentRegistrationOptions.codec_stable, StaticRegistrationOptions.codec_stable,
    TokensFullOptions.codec_stable, TokensOptions.codec_stable,
    TokensRegistrationOptions.codec_stable, ChangeRegistrationOptions.codec_stable,
    ServerCapabilities.codec_stable, ProgramInfo.clientCodec_stable,
    ProgramInfo.serverCodec_stable, WorkspaceFolder.codec_stable, TraceLevel.codec_stable,
    SessionParams.codec_stable, SessionResult.codec_stable, CancelParams.codec_stable,
    SetTraceParams.codec_stable, LogTraceParams.codec_stable, Registration.codec_stable,
    RegistrationParams.codec_stable, Unregistration.codec_stable,
    UnregistrationParams.codec_stable, MessageType.codec_stable, MessageParams.logCodec_stable,
    MessageParams.showCodec_stable, Diagnostic.codec_stable, PublishDiagnosticsParams.codec_stable,
    ProgressBegin.codec_stable, ProgressReport.codec_stable, ProgressEnd.codec_stable,
    WorkDoneProgress.codec_stable, ProgressParams.codec_stable, ProgressCreateParams.codec_stable,
    WorkDoneParams.codec_stable, PartialResultParams.codec_stable, Legend.codec_stable,
    SemanticTokens.codec_stable, TokensEdit.codec_stable, TokensDelta.codec_stable,
    TokensResult.codec_stable, TokensParams.codec_stable, TokensDeltaParams.codec_stable,
    TokensRangeParams.codec_stable, nofun⟩

theorem parseParams_eq_ok_iff {α : Type} {c : Codec α} {j : Json} {a : α} :
    c.parseParams j = .ok a ↔ c.read .direct j = .ok a := by
  unfold parseParams decode
  split
  · next hread => rw [hread]; simp
  · next hread => rw [hread]; simp

/-- Whatever form parameters were given in, once they are read they are written in a form that is
read as the same. -/
theorem parseParams_write_of_parsed (t : WireType) (ht : t ∈ wireTypes) (given : Json)
    (value : t.Value) (hparsed : t.codec.parseParams given = .ok value) :
    t.codec.parseParams (t.codec.write value) = .ok value := by
  rw [parseParams_eq_ok_iff] at hparsed ⊢
  exact (wireTypes_stable t ht).returns hparsed .direct

/-- A provider that is not known here, a field that is null, and a name that stands as a key. -/
def oddCapabilities : Json :=
  .obj [("hoverProvider", .bool true), ("experimental", .null),
    ("positionEncoding", .obj [("utf-8", .null)])]

/-- A report without its last fields, given as an array. -/
def shortReport : Json := .arr [.str "begin", .str "Indexing", .null]

theorem oddForms_parseParams_write :
    ServerCapabilities.codec.parseParams oddCapabilities =
      .ok ⟨some .utf8, none, none, none, [("hoverProvider", .bool true)]⟩ ∧
    ServerCapabilities.codec.parseParams (ServerCapabilities.codec.write
        ⟨some .utf8, none, none, none, [("hoverProvider", .bool true)]⟩) =
      .ok ⟨some .utf8, none, none, none, [("hoverProvider", .bool true)]⟩ ∧
    WorkDoneProgress.codec.parseParams shortReport =
      .ok (.begin ⟨"Indexing", none, none, none⟩) ∧
    WorkDoneProgress.codec.parseParams
        (WorkDoneProgress.codec.write (.begin ⟨"Indexing", none, none, none⟩)) =
      .ok (.begin ⟨"Indexing", none, none, none⟩) :=
  ⟨rfl, parseParams_write_of_parsed ⟨_, ServerCapabilities.codec⟩
      (List.mem_of_getElem? (i := 31) rfl) oddCapabilities _ rfl,
    rfl, parseParams_write_of_parsed ⟨_, WorkDoneProgress.codec⟩
      (List.mem_of_getElem? (i := 53) rfl) shortReport _ rfl⟩

end LanguageServer
