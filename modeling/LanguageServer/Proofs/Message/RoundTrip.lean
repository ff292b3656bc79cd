import LanguageServer.Message.Envelope
import LanguageServer.Proofs.Json.RoundTrip
import LanguageServer.Proofs.Wire.Returns

set_option autoImplicit false

/-! # Messages come back from bytes

Writing a message and reading the bytes gives the message back, except that two things in the body
of an error have two forms and come back in one of them: data that is null comes back as no data,
and a server's own code that has the number of a known one comes back as the known one.
`Message.canonical` brings both into the form that is read, `Message.IsCanonical` says that nothing
is to be changed. -/

namespace LanguageServer

open Wire

/-! ## The form that is read -/

/-- The known code with the number of a server's own code, if there is one. -/
def ErrorCode.canonical : ErrorCode → ErrorCode
  | .serverDefined n => (known.find? fun c => c.value = n).getD (.serverDefined n)
  | c => c

/-- Null data is no data. -/
def ResponseError.canonical (e : ResponseError) : ResponseError :=
  ⟨e.code.canonical, e.message, if e.data = some .null then none else e.data⟩

/-- Only the body of an error is changed. -/
def Message.canonical : Message → Message
  | .response ⟨id, .error e⟩ => .response ⟨id, .error e.canonical⟩
  | m => m

/-- An error without null data whose code, if it is a server's own, has no known code's number;
or any other message. -/
def Message.IsCanonical : Message → Prop
  | .response ⟨_, .error e⟩ =>
    e.data ≠ some .null ∧ ∀ c ∈ ErrorCode.known, e.code ≠ .serverDefined c.value
  | _ => True

theorem ErrorCode.canonical_eq_self_iff (c : ErrorCode) :
    c.canonical = c ↔ ∀ k ∈ known, c ≠ .serverDefined k.value := by
  cases c with
  | serverDefined n =>
      rw [canonical]
      cases hfind : known.find? fun c => c.value = n with
      | none =>
          have hnone := List.find?_eq_none.1 hfind
          refine ⟨fun _ k hk heq => ?_, fun _ => rfl⟩
          injection heq with hvalue
          exact hnone k hk (by simp [hvalue])
      | some k =>
          have hk := List.mem_of_find?_eq_some hfind
          have hvalue : k.value = n := by simpa using List.find?_some hfind
          have hother : ∀ k ∈ known, k ≠ .serverDefined n := by simp [known]
          refine ⟨fun heq => absurd heq (hother k hk), fun h => absurd ?_ (h k hk)⟩
          rw [hvalue]
  | _ => simp [canonical]

theorem ResponseError.canonical_eq_self_iff (e : ResponseError) :
    e.canonical = e ↔ e.code.canonical = e.code ∧ e.data ≠ some .null := by
  obtain ⟨code, message, data⟩ := e
  simp only [canonical, ResponseError.mk.injEq, true_and]
  refine and_congr_right fun _ => ?_
  split
  · next h => simp [h]
  · next h => simp [h]

theorem Message.canonical_eq_self_iff (m : Message) : m.canonical = m ↔ m.IsCanonical := by
  match m with
  | .response ⟨id, .error e⟩ =>
      simp only [canonical, IsCanonical, Message.response.injEq, Response.mk.injEq,
        Outcome.error.injEq, true_and]
      rw [ResponseError.canonical_eq_self_iff, ErrorCode.canonical_eq_self_iff, and_comm]
  | .response ⟨id, .result value⟩ => simp [canonical, IsCanonical]
  | .request r => simp [canonical, IsCanonical]
  | .notification n => simp [canonical, IsCanonical]

/-! ## The body of an error -/

theorem ErrorCode.ofValue_value (c : ErrorCode) : ofValue c.value = c.canonical := by
  cases c <;> rfl

theorem ErrorCode.returns (c : ErrorCode) : codec.Returns c c.canonical := by
  rw [← ofValue_value]
  exact Codec.Returns.map (Codec.returns_int64 c.value) rfl rfl

theorem ResponseError.returns_data (data : Option Json) (name : String) :
    (Fields.optional name .json).Returns data (if data = some .null then none else data) := by
  cases data with
  | none => exact Fields.Returns.optional_none name .json
  | some j =>
      refine Fields.Returns.optional_some (fun src => ?_) name
      cases j <;> rfl

theorem ResponseError.returns (e : ResponseError) : codec.Returns e e.canonical := by
  refine Fields.Returns.record ?_ "ResponseError"
  have hcode := Fields.Returns.required (ErrorCode.returns e.code) "code"
  have hmessage := Fields.Returns.required (Codec.returns_string e.message) "message"
  have hdata := returns_data e.data "data"
  exact (hcode.and (hmessage.and hdata (by decide)) (by decide)).map rfl rfl

/-! ## The envelope -/

theorem RequestId.ofJson?_toJson (id : RequestId) : ofJson? id.toJson = some id := by
  cases id with
  | number n =>
      have hlow := n.le_toInt
      have hhigh := n.toInt_lt
      simp only [toJson, Json.int, ofJson?]
      rw [if_pos (by omega), Int64.ofInt_toInt]
  | text s => rfl

namespace Message

theorem readResponseId_of_ofJson? {j : Json} {id : RequestId} (h : RequestId.ofJson? j = some id) :
    readResponseId j = .ok (some id) := by
  cases j with
  | null => cases h
  | _ => simp [readResponseId, h]

/-- The id a response is written with is read back. -/
theorem readResponseId_written (id : Option RequestId) :
    readResponseId (match id with | some id => id.toJson | none => .null) = .ok id := by
  cases id with
  | none => rfl
  | some id => exact readResponseId_of_ofJson? id.ofJson?_toJson

theorem readResponse_eq {j : Json} {result error : Option Json} {id : Option RequestId}
    {outcome : Outcome} (hid : readResponseId j = .ok id)
    (houtcome : readOutcome result error = .ok outcome) :
    readResponse (some j) result error = .ok (.response ⟨id, outcome⟩) := by
  rw [readResponse, hid, houtcome]
  rfl

theorem readOutcome_error (e : ResponseError) :
    readOutcome none (some (ResponseError.codec.write e)) = .ok (.error e.canonical) := by
  have hread : ResponseError.codec.decode (ResponseError.codec.write e) = .ok e.canonical :=
    e.returns .direct
  rw [readOutcome, hread]

theorem lookup_params (params : Option Json) :
    Json.lookup "params" (paramsMembers params) = params := by
  cases params <;> simp [paramsMembers, Json.lookup]

theorem lookup_params_ne {key : String} (h : "params" ≠ key) (params : Option Json) :
    Json.lookup key (paramsMembers params) = none := by
  cases params <;> simp [paramsMembers, Json.lookup, h]

theorem ofMembers_result (id value : Json) :
    ofMembers [("jsonrpc", version), ("id", id), ("result", value)] =
      readResponse (some id) (some value) none := by
  simp [ofMembers, Json.lookup]

theorem ofMembers_error (id error : Json) :
    ofMembers [("jsonrpc", version), ("id", id), ("error", error)] =
      readResponse (some id) none (some error) := by
  simp [ofMembers, Json.lookup]

theorem ofMembers_toJson {m : Message} {ms : List (String × Json)} (h : m.toJson = .obj ms) :
    ofMembers ms = .ok m.canonical := by
  match m with
  | .request r =>
      obtain rfl := Json.obj.inj h
      simp [ofMembers, Json.lookup, readCall, r.id.ofJson?_toJson, lookup_params,
        lookup_params_ne, canonical]
  | .notification n =>
      obtain rfl := Json.obj.inj h
      simp [ofMembers, Json.lookup, readCall, lookup_params, lookup_params_ne, canonical]
  | .response ⟨id, .result value⟩ =>
      obtain rfl := Json.obj.inj h
      exact (ofMembers_result _ value).trans (readResponse_eq (readResponseId_written id) rfl)
  | .response ⟨id, .error e⟩ =>
      obtain rfl := Json.obj.inj h
      exact (ofMembers_error _ _).trans
        (readResponse_eq (readResponseId_written id) (readOutcome_error e))

theorem ofJson_toJson (m : Message) : ofJson m.toJson = .ok m.canonical := by
  obtain ⟨ms, hms⟩ : ∃ ms, m.toJson = .obj ms := by
    cases m <;> exact ⟨_, rfl⟩
  rw [hms, ofJson, ofMembers_toJson hms]

end Message

/-! ## Bytes -/

/-- **A message comes back from its bytes.** Its numbers have to be integers of 64 bits, no object
in it may hold a key twice, and it may not be nested deeper than the reader goes. It comes back
unchanged exactly if it is in the form that is read. -/
theorem decode_encode (m : Message) (hexact : m.toJson.Exact) (hform : m.toJson.WellFormed)
    (hdepth : m.toJson.depth ≤ 127) :
    Message.decode m.encode = .ok m.canonical ∧
      (Message.decode m.encode = .ok m ↔ m.IsCanonical) := by
  have hparse : Json.parse m.encode = .ok m.toJson := Json.parse_render hexact hform hdepth
  have hdecode : Message.decode m.encode = .ok m.canonical := by
    rw [Message.decode, hparse]
    simp only [m.ofJson_toJson]
  refine ⟨hdecode, ?_⟩
  rw [hdecode, Except.ok.injEq, m.canonical_eq_self_iff]

/-- Null data is dropped and the number of a known code is known again; the text of the id comes
back with its control character, quote and letters beyond ASCII. -/
theorem decode_encode_misnamed :
    Message.decode (Message.encode (.response ⟨some (.text "\u0001é\"😀"),
        .error ⟨.serverDefined (-32601), "no\n", some .null⟩⟩)) =
      .ok (.response ⟨some (.text "\u0001é\"😀"), .error ⟨.methodNotFound, "no\n", none⟩⟩) := by
  exact (decode_encode _ (by decide) (by decide) (by decide)).1

end LanguageServer
