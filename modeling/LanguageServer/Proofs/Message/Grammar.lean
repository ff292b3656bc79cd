import LanguageServer.Proofs.Message.RoundTrip
import LanguageServer.Proofs.Wire.Reads

set_option autoImplicit false

/-! # Which values are messages

`Json.IsMessage v m` says what a value has to look like to be the message `m`, member by member and
without an order in which they are looked at. `Message.ofJson` accepts exactly these values
(`Message.ofJson_eq_ok_iff`), and a message that was read comes back unchanged when it is written
and read again, whatever form it was given in: the body of an error has several forms
(`ResponseError.IsGiven`), and what is read is always the one that is written. -/

namespace LanguageServer

open Wire

/-! ## The grammar -/

/-- Data that is null counts as left out. -/
def givenData (data : Option Json) : Option Json := data.filter (· ≠ .null)

/-- The forms in which an error may be given: as an object, or as an array of its fields. Where an
object names a field twice, both have to be of the right kind, and the first counts. -/
inductive ResponseError.IsGiven : Json → ResponseError → Prop where
  | members {ms : List (String × Json)} {code : Int64} {message : String}
      (hcode : Json.lookup "code" ms = some (.int code.toInt))
      (hmessage : Json.lookup "message" ms = some (.str message))
      (hcodes : ∀ j, ("code", j) ∈ ms → ∃ n : Int64, j = .int n.toInt)
      (hmessages : ∀ j, ("message", j) ∈ ms → ∃ s, j = .str s) :
      IsGiven (.obj ms) ⟨.ofValue code, message, givenData (Json.lookup "data" ms)⟩
  | items {code : Int64} {message : String} {data : List Json} (hdata : data.length ≤ 1) :
      IsGiven (.arr (.int code.toInt :: .str message :: data))
        ⟨.ofValue code, message, givenData data.head?⟩

namespace Json

/-- What a response carries: a result or an error, and not both. -/
inductive HasOutcome (v : Json) : Outcome → Prop where
  | result {value : Json} (hresult : v.get? "result" = some value)
      (herror : v.get? "error" = none) : HasOutcome v (.result value)
  | error {j : Json} {e : ResponseError} (hresult : v.get? "result" = none)
      (herror : v.get? "error" = some j) (hgiven : ResponseError.IsGiven j e) :
      HasOutcome v (.error e)

/-- What a value has to look like to be a message. -/
inductive IsMessage (v : Json) : Message → Prop where
  | notification {method : String} (hversion : v.get? "jsonrpc" = some (.str "2.0"))
      (hmethod : v.get? "method" = some (.str method)) (hresult : v.get? "result" = none)
      (herror : v.get? "error" = none) (hid : v.get? "id" = none) :
      IsMessage v (.notification ⟨method, v.get? "params"⟩)
  | request {method : String} {id : RequestId} (hversion : v.get? "jsonrpc" = some (.str "2.0"))
      (hmethod : v.get? "method" = some (.str method)) (hresult : v.get? "result" = none)
      (herror : v.get? "error" = none) (hid : v.get? "id" = some id.toJson) :
      IsMessage v (.request ⟨id, method, v.get? "params"⟩)
  | response {id : Option RequestId} {outcome : Outcome}
      (hversion : v.get? "jsonrpc" = some (.str "2.0")) (hmethod : v.get? "method" = none)
      (hid : v.get? "id" = some (id.elim .null RequestId.toJson))
      (houtcome : v.HasOutcome outcome) : IsMessage v (.response ⟨id, outcome⟩)

/-- An object with both a method and an id, whatever their values are. -/
def IsRequestShaped (v : Json) : Prop :=
  ∃ ms, v = .obj ms ∧ "method" ∈ keys ms ∧ "id" ∈ keys ms

theorem isSome_lookup_iff {key : String} {ms : List (String × Json)} :
    (lookup key ms).isSome = true ↔ key ∈ keys ms := by
  induction ms with
  | nil => simp [lookup, keys]
  | cons m ms ih =>
      obtain ⟨k, v⟩ := m
      by_cases hkey : k = key
      · simp [lookup, keys, hkey]
      · have hne : key ≠ k := fun heq => hkey heq.symm
        simpa [lookup, keys, hkey, hne] using ih

end Json

/-! ## What can be read -/

theorem ErrorCode.canonical_ofValue (n : Int64) : (ofValue n).canonical = ofValue n := by
  rw [canonical_eq_self_iff, ofValue]
  intro k hk heq
  cases hfind : known.find? fun c => c.value = n with
  | none =>
      have hvalue : n = k.value := by simpa [hfind] using heq
      have hnone := List.find?_eq_none.1 hfind k hk
      simp [hvalue] at hnone
  | some c =>
      have hc := List.mem_of_find?_eq_some hfind
      have hother : ∀ c ∈ known, c ≠ .serverDefined k.value := by simp [known]
      rw [hfind] at heq
      exact hother c hc heq

namespace ResponseError

theorem read_code_eq_ok_iff {src : Source} {j : Json} {c : ErrorCode} :
    ErrorCode.codec.read src j = .ok c ↔
      ∃ n : Int64, j = .int n.toInt ∧ ErrorCode.ofValue n = c := by
  have hread : ErrorCode.codec.read src j =
      (do return ErrorCode.ofValue (← Codec.int64.read src j)) := rfl
  rw [hread, bind_eq_ok_iff]
  simp only [Codec.read_int64_eq_ok_iff, pure, Except.pure, Except.ok.injEq]

theorem read_data (src : Source) (j : Json) :
    (Fields.orNull Codec.json).read src j = .ok (givenData (some j)) := by
  cases j with
  | null => rfl
  | _ => rfl

theorem check_data (src : Source) (key : String) (j : Json) :
    (Fields.optional "data" Codec.json).check src key j = .ok () := by
  by_cases hkey : key = "data"
  · simp [Fields.optional, Fields.nullable, Fields.defaulted, hkey, read_data, discard_eq_ok_iff]
  · simp [Fields.optional, Fields.nullable, Fields.defaulted, hkey]

theorem build_data (src : Source) (ms : List (String × Json)) :
    (Fields.optional "data" Codec.json).build src ms =
      .ok (givenData (Json.lookup "data" ms)) := by
  cases hlookup : Json.lookup "data" ms with
  | none => simp [Fields.optional, Fields.nullable, Fields.defaulted, hlookup, givenData]
  | some j => simp [Fields.optional, Fields.nullable, Fields.defaulted, hlookup, read_data]

theorem take_data (src : Source) (expected : String) (index : Nat) (items : List Json) :
    (Fields.optional "data" Codec.json).take src expected index items =
      .ok (givenData items.head?, items.tail) := by
  cases items with
  | nil => rfl
  | cons j items =>
      have hread : (Fields.optional "data" Codec.json).take src expected index (j :: items) =
          (do return (← (Fields.orNull Codec.json).read src j, items)) := rfl
      rw [hread, read_data]
      rfl

theorem check_eq_ok_iff {src : Source} {key : String} {j : Json} :
    fields.check src key j = .ok () ↔
      (key = "code" → ∃ n : Int64, j = .int n.toInt) ∧ (key = "message" → ∃ s, j = .str s) := by
  have hcode : (∃ c, ErrorCode.codec.read src j = .ok c) ↔ ∃ n : Int64, j = .int n.toInt := by
    simp only [read_code_eq_ok_iff]
    exact ⟨fun ⟨_, n, hn, _⟩ => ⟨n, hn⟩, fun ⟨n, hn⟩ => ⟨_, n, hn, rfl⟩⟩
  simp only [fields, Fields.map, Fields.check_and_eq_ok_iff, Fields.check_required_eq_ok_iff,
    check_data, hcode, Codec.read_string_eq_ok_iff, and_true]

theorem build_eq_ok_iff {src : Source} {ms : List (String × Json)} {e : ResponseError} :
    fields.build src ms = .ok e ↔ ∃ (code : Int64) (message : String),
      Json.lookup "code" ms = some (.int code.toInt) ∧
      Json.lookup "message" ms = some (.str message) ∧
      e = ⟨.ofValue code, message, givenData (Json.lookup "data" ms)⟩ := by
  simp only [fields, Fields.map, map_eq_ok_iff, Prod.exists, Fields.build_and_eq_ok_iff,
    Fields.build_required_eq_ok_iff, build_data, read_code_eq_ok_iff,
    Codec.read_string_eq_ok_iff, Except.ok.injEq]
  constructor
  · rintro ⟨_, message, _, ⟨⟨_, hcode, code, rfl, rfl⟩, ⟨_, hmessage, rfl⟩, rfl⟩, rfl⟩
    exact ⟨code, message, hcode, hmessage, rfl⟩
  · rintro ⟨code, message, hcode, hmessage, rfl⟩
    exact ⟨_, message, _, ⟨⟨_, hcode, code, rfl, rfl⟩, ⟨_, hmessage, rfl⟩, rfl⟩, rfl⟩

/-- Fields that can be built are there. -/
theorem present_of_build {src : Source} {ms : List (String × Json)} {e : ResponseError}
    (h : fields.build src ms = .ok e) : fields.present ms = .ok () := by
  obtain ⟨code, message, hcode, hmessage, -⟩ := build_eq_ok_iff.1 h
  simp only [fields, Fields.map, Fields.and, Fields.required, hcode, hmessage]
  rfl

theorem take_eq_ok_iff {expected : String} {items rest : List Json} {e : ResponseError} :
    fields.take .direct expected 0 items = .ok (e, rest) ↔
      ∃ (code : Int64) (message : String) (data : List Json),
        items = .int code.toInt :: .str message :: data ∧ rest = data.tail ∧
        e = ⟨.ofValue code, message, givenData data.head?⟩ := by
  simp only [fields, Fields.map, bind_eq_ok_iff, Prod.exists, Fields.take_and_eq_ok_iff,
    Fields.take_required_eq_ok_iff, take_data, read_code_eq_ok_iff,
    Codec.read_string_eq_ok_iff, pure, Except.pure, Except.ok.injEq, Prod.mk.injEq]
  constructor
  · rintro ⟨_, message, _, _, ⟨_, ⟨_, rfl, code, rfl, rfl⟩, data, ⟨_, rfl, rfl⟩, rfl, rfl⟩,
      rfl, rfl⟩
    exact ⟨code, message, data, rfl, rfl, rfl⟩
  · rintro ⟨code, message, data, rfl, rfl, rfl⟩
    exact ⟨_, message, _, _, ⟨_, ⟨_, rfl, code, rfl, rfl⟩, data, ⟨_, rfl, rfl⟩, rfl, rfl⟩, rfl, rfl⟩

theorem ofMembers_eq_ok_iff {src : Source} {ms : List (String × Json)} {e : ResponseError} :
    fields.ofMembers src ms = .ok e ↔ IsGiven (.obj ms) e := by
  rw [Fields.ofMembers_eq_ok_iff]
  simp only [check_eq_ok_iff]
  constructor
  · rintro ⟨hcheck, -, hbuild⟩
    obtain ⟨code, message, hcode, hmessage, rfl⟩ := build_eq_ok_iff.1 hbuild
    exact .members hcode hmessage (fun j hj => (hcheck _ hj).1 rfl)
      (fun j hj => (hcheck _ hj).2 rfl)
  · intro hgiven
    cases hgiven with
    | members hcode hmessage hcodes hmessages =>
        have hbuild := (@build_eq_ok_iff src ms _).2 ⟨_, _, hcode, hmessage, rfl⟩
        refine ⟨?_, present_of_build hbuild, hbuild⟩
        rintro ⟨key, j⟩ hm
        exact ⟨fun hkey => hcodes j (hkey ▸ hm), fun hkey => hmessages j (hkey ▸ hm)⟩

theorem readArray_eq_ok_iff {items : List Json} {e : ResponseError} :
    Codec.readArray "ResponseError" fields .direct items = .ok e ↔ IsGiven (.arr items) e := by
  rw [Codec.readArray_eq_ok_iff, take_eq_ok_iff]
  constructor
  · rintro ⟨code, message, data, rfl, htail, rfl⟩
    refine .items ?_
    have hlength := congrArg List.length htail
    simp at hlength
    omega
  · intro hgiven
    cases hgiven with
    | @items code message data hdata =>
        have hempty : data.tail = [] := List.length_eq_zero_iff.1 (by simp; omega)
        exact ⟨code, message, data, rfl, hempty.symm, rfl⟩

theorem decode_eq_ok_iff {j : Json} {e : ResponseError} :
    codec.decode j = .ok e ↔ IsGiven j e := by
  cases j with
  | obj ms => exact ofMembers_eq_ok_iff
  | arr items => exact readArray_eq_ok_iff
  | _ => exact ⟨nofun, nofun⟩

/-- An error that was read is in the form that is written. -/
theorem IsGiven.canonical {j : Json} {e : ResponseError} (h : IsGiven j e) : e.canonical = e := by
  have hdata (data : Option Json) : givenData data ≠ some .null := by simp [givenData]
  rw [canonical_eq_self_iff]
  cases h with
  | members => exact ⟨ErrorCode.canonical_ofValue _, hdata _⟩
  | items => exact ⟨ErrorCode.canonical_ofValue _, hdata _⟩

end ResponseError

/-! ## Envelopes -/

theorem RequestId.ofJson?_eq_some_iff {j : Json} {id : RequestId} :
    ofJson? j = some id ↔ j = id.toJson := by
  refine ⟨fun h => ?_, fun h => h ▸ id.ofJson?_toJson⟩
  unfold ofJson? at h
  split at h
  · next n =>
      split at h
      · next hfits =>
          obtain rfl := Option.some.inj h
          rw [toJson, Int64.toInt_ofInt_of_le hfits.1 hfits.2]
          rfl
      · cases h
  · obtain rfl := Option.some.inj h
    rfl
  · cases h

namespace Message

theorem readResponseId_eq_ok_iff {j : Json} {id : Option RequestId} :
    readResponseId j = .ok id ↔ j = id.elim .null RequestId.toJson := by
  constructor
  · intro h
    unfold readResponseId at h
    split at h
    · obtain rfl := Except.ok.inj h
      rfl
    · split at h
      · next id' hid =>
          obtain rfl := Except.ok.inj h
          exact RequestId.ofJson?_eq_some_iff.1 hid
      · cases h
  · rintro rfl
    cases id with
    | none => rfl
    | some id => exact readResponseId_of_ofJson? id.ofJson?_toJson

theorem readOutcome_eq_ok_iff {v : Json} {outcome : Outcome} :
    readOutcome (v.get? "result") (v.get? "error") = .ok outcome ↔ v.HasOutcome outcome := by
  constructor
  · intro h
    unfold readOutcome at h
    split at h
    · next hresult herror =>
        obtain rfl := Except.ok.inj h
        exact .result hresult herror
    · next hresult herror =>
        split at h
        · next e he =>
            obtain rfl := Except.ok.inj h
            exact .error hresult herror (ResponseError.decode_eq_ok_iff.1 he)
        · cases h
    · cases h
    · cases h
  · intro houtcome
    cases houtcome with
    | result hresult herror => rw [hresult, herror, readOutcome]
    | error hresult herror hgiven =>
        rw [hresult, herror, readOutcome, ResponseError.decode_eq_ok_iff.2 hgiven]

theorem readCall_eq_ok_iff {method : String} {id params result error : Option Json} {m : Message} :
    readCall method id params result error = .ok m ↔ result = none ∧ error = none ∧
      (id = none ∧ m = .notification ⟨method, params⟩ ∨
        ∃ key : RequestId, id = some key.toJson ∧ m = .request ⟨key, method, params⟩) := by
  constructor
  · intro h
    unfold readCall at h
    split at h
    · cases h
    · next hbare =>
        simp only [Bool.or_eq_true, Option.isSome_iff_ne_none, not_or, Decidable.not_not] at hbare
        refine ⟨hbare.1, hbare.2, ?_⟩
        split at h
        · exact .inl ⟨rfl, (Except.ok.inj h).symm⟩
        · split at h
          · next key hkey =>
              obtain rfl := RequestId.ofJson?_eq_some_iff.1 hkey
              exact .inr ⟨key, rfl, (Except.ok.inj h).symm⟩
          · cases h
  · rintro ⟨rfl, rfl, ⟨rfl, rfl⟩ | ⟨key, rfl, rfl⟩⟩
    · rfl
    · simp [readCall, key.ofJson?_toJson]

theorem readResponse_eq_ok_iff {v : Json} {m : Message} :
    readResponse (v.get? "id") (v.get? "result") (v.get? "error") = .ok m ↔
      ∃ id outcome, v.get? "id" = some (id.elim .null RequestId.toJson) ∧ v.HasOutcome outcome ∧
        m = .response ⟨id, outcome⟩ := by
  constructor
  · intro h
    unfold readResponse at h
    split at h
    · cases h
    · next j hj =>
        cases hid : readResponseId j with
        | error reason => rw [hid] at h; cases h
        | ok id =>
            cases houtcome : readOutcome (v.get? "result") (v.get? "error") with
            | error reason => rw [hid, houtcome] at h; cases h
            | ok outcome =>
                rw [hid, houtcome] at h
                exact ⟨id, outcome, readResponseId_eq_ok_iff.1 hid ▸ hj,
                  readOutcome_eq_ok_iff.1 houtcome, (Except.ok.inj h).symm⟩
  · rintro ⟨id, outcome, hid, houtcome, rfl⟩
    rw [hid]
    exact readResponse_eq (readResponseId_eq_ok_iff.2 rfl) (readOutcome_eq_ok_iff.2 houtcome)

theorem ofMembers_method {ms : List (String × Json)} {method : String}
    (hversion : (Json.obj ms).get? "jsonrpc" = some version)
    (hmethod : (Json.obj ms).get? "method" = some (.str method)) :
    ofMembers ms = readCall method ((Json.obj ms).get? "id") ((Json.obj ms).get? "params")
      ((Json.obj ms).get? "result") ((Json.obj ms).get? "error") := by
  simp only [Json.get?] at hversion hmethod
  simp [ofMembers, hversion, hmethod, Json.get?]

theorem ofMembers_noMethod {ms : List (String × Json)}
    (hversion : (Json.obj ms).get? "jsonrpc" = some version)
    (hmethod : (Json.obj ms).get? "method" = none) :
    ofMembers ms = readResponse ((Json.obj ms).get? "id") ((Json.obj ms).get? "result")
      ((Json.obj ms).get? "error") := by
  simp only [Json.get?] at hversion hmethod
  simp [ofMembers, hversion, hmethod, Json.get?]

/-- An object that is read names the version, and its method, if it has one, is a text. -/
theorem version_of_ofMembers {ms : List (String × Json)} {m : Message} (h : ofMembers ms = .ok m) :
    (Json.obj ms).get? "jsonrpc" = some version ∧
      ((Json.obj ms).get? "method" = none ∨
        ∃ method, (Json.obj ms).get? "method" = some (.str method)) := by
  unfold ofMembers at h
  split at h
  · cases h
  · next v hv =>
      split at h
      · next hversion =>
          refine ⟨hversion ▸ hv, ?_⟩
          simp only at h
          split at h
          · next method hmethod => exact .inr ⟨method, hmethod⟩
          · cases h
          · next hmethod => exact .inl hmethod
      · cases h

theorem ofMembers_eq_ok_iff {ms : List (String × Json)} {m : Message} :
    ofMembers ms = .ok m ↔ (Json.obj ms).IsMessage m := by
  constructor
  · intro h
    obtain ⟨hversion, hmethod | ⟨method, hmethod⟩⟩ := version_of_ofMembers h
    · rw [ofMembers_noMethod hversion hmethod, readResponse_eq_ok_iff] at h
      obtain ⟨id, outcome, hid, houtcome, rfl⟩ := h
      exact .response hversion hmethod hid houtcome
    · rw [ofMembers_method hversion hmethod, readCall_eq_ok_iff] at h
      obtain ⟨hresult, herror, ⟨hid, rfl⟩ | ⟨key, hid, rfl⟩⟩ := h
      · exact .notification hversion hmethod hresult herror hid
      · exact .request hversion hmethod hresult herror hid
  · intro hmessage
    cases hmessage with
    | notification hversion hmethod hresult herror hid =>
        rw [ofMembers_method hversion hmethod, readCall_eq_ok_iff]
        exact ⟨hresult, herror, .inl ⟨hid, rfl⟩⟩
    | request hversion hmethod hresult herror hid =>
        rw [ofMembers_method hversion hmethod, readCall_eq_ok_iff]
        exact ⟨hresult, herror, .inr ⟨_, hid, rfl⟩⟩
    | response hversion hmethod hid houtcome =>
        rw [ofMembers_noMethod hversion hmethod, readResponse_eq_ok_iff]
        exact ⟨_, _, hid, houtcome, rfl⟩

/-- Only objects have members, so only objects are messages. -/
theorem eq_obj_of_isMessage {v : Json} {m : Message} (h : v.IsMessage m) : ∃ ms, v = .obj ms := by
  have hversion : v.get? "jsonrpc" = some (.str "2.0") := by
    cases h <;> assumption
  cases v with
  | obj ms => exact ⟨ms, rfl⟩
  | _ => cases hversion

theorem ofJson_eq_ok_iff {v : Json} {m : Message} : ofJson v = .ok m ↔ v.IsMessage m := by
  have hobj (ms : List (String × Json)) : ofJson (.obj ms) = .ok m ↔ ofMembers ms = .ok m := by
    cases hread : ofMembers ms <;> simp [ofJson, hread]
  constructor
  · intro h
    cases v with
    | obj ms => exact ofMembers_eq_ok_iff.1 ((hobj ms).1 h)
    | _ => cases h
  · intro h
    obtain ⟨ms, rfl⟩ := eq_obj_of_isMessage h
    exact (hobj ms).2 (ofMembers_eq_ok_iff.2 h)

/-- Of all messages only errors have several forms, and one that was read is in the right one. -/
theorem canonical_of_isMessage {v : Json} {m : Message} (h : v.IsMessage m) : m.canonical = m := by
  cases h with
  | notification => rfl
  | request => rfl
  | response _ _ _ houtcome =>
      cases houtcome with
      | result => rfl
      | error _ _ hgiven => rw [canonical, hgiven.canonical]

theorem isRequestShaped_iff {ms : List (String × Json)} :
    isRequestShaped ms = true ↔ (Json.obj ms).IsRequestShaped := by
  simp [isRequestShaped, Json.isSome_lookup_iff, Json.IsRequestShaped]

theorem requestShaped_of_ofJson {v : Json} {fault : EnvelopeFault} (h : ofJson v = .error fault) :
    fault.requestShaped = true ↔ v.IsRequestShaped := by
  cases v with
  | obj ms =>
      cases hread : ofMembers ms with
      | ok m => simp [ofJson, hread] at h
      | error reason =>
          simp only [ofJson, hread, Except.error.injEq] at h
          rw [← h]
          exact isRequestShaped_iff
  | _ =>
      obtain rfl := Except.error.inj h
      simp [Json.IsRequestShaped]

/-- A rejected body is either no value at all, or a value that is no message. -/
theorem decode_eq_error_iff {body : List UInt8} {fault : DecodeFault} :
    decode body = .error fault ↔
      (∃ t, Json.parse body = .error t ∧ fault = .malformed t) ∨
        ∃ v f, Json.parse body = .ok v ∧ ofJson v = .error f ∧ fault = .envelope f := by
  cases hparse : Json.parse body with
  | error t => simp [decode, hparse, eq_comm]
  | ok v =>
      cases hread : ofJson v with
      | error f => simp [decode, hparse, hread, eq_comm]
      | ok m => simp [decode, hparse, hread]

theorem reply_of_decode {body : List UInt8} {fault : DecodeFault}
    (h : decode body = .error fault) :
    fault.reply.isSome = true ↔ (∃ t, Json.parse body = .error t) ∨
      ∃ v, Json.parse body = .ok v ∧ v.IsRequestShaped := by
  rcases decode_eq_error_iff.1 h with ⟨t, hparse, rfl⟩ | ⟨v, f, hparse, hread, rfl⟩
  · simp [DecodeFault.reply, hparse]
  · rw [hparse]
    simp [DecodeFault.reply, ← requestShaped_of_ofJson hread]

theorem DecodeFault.reply_eq {fault : DecodeFault} {m : Message} (h : fault.reply = some m) :
    ∃ text, m = .response ⟨none, .error (.parseError text)⟩ := by
  cases fault with
  | malformed t => exact ⟨_, (Option.some.inj h).symm⟩
  | envelope f =>
      simp only [reply] at h
      split at h
      · exact ⟨_, (Option.some.inj h).symm⟩
      · cases h

/-- **Exactly the grammar is accepted.** A value is read as a message if and only if it is that
message by the grammar, and a message that was read comes back unchanged from what it is written as.
A value that is rejected counts as a request exactly if it is an object with a method and an id. A
body that is rejected is answered exactly if it is not JSON or counts as a request, and then always
with a parse error that names no request. -/
theorem ofJson_accepts_grammar :
    (∀ (v : Json) (m : Message), ofJson v = .ok m ↔ v.IsMessage m) ∧
    (∀ (v : Json) (m : Message), ofJson v = .ok m → ofJson m.toJson = .ok m) ∧
    (∀ (v : Json) (fault : EnvelopeFault), ofJson v = .error fault →
      (fault.requestShaped = true ↔ v.IsRequestShaped)) ∧
    ∀ (body : List UInt8) (fault : DecodeFault), decode body = .error fault →
      (fault.reply.isSome = true ↔ (∃ t, Json.parse body = .error t) ∨
        ∃ v, Json.parse body = .ok v ∧ v.IsRequestShaped) ∧
      ∀ m, fault.reply = some m → ∃ text, m = .response ⟨none, .error (.parseError text)⟩ := by
  refine ⟨fun v m => ofJson_eq_ok_iff, fun v m h => ?_, fun v fault h => requestShaped_of_ofJson h,
    fun body fault h => ⟨reply_of_decode h, fun m => DecodeFault.reply_eq⟩⟩
  rw [m.ofJson_toJson, canonical_of_isMessage (ofJson_eq_ok_iff.1 h)]

/-- A response whose error is given as an array, with null data, and with a member of no meaning. -/
def bareError : Json :=
  .obj [("error", .arr [.int (-32601), .str "no", .null]), ("id", .null), ("x", .int 1),
    ("jsonrpc", .str "2.0")]

/-- The response above is read, and stable from then on. A request with an array for an id is
answered; so is an array that is not closed. -/
theorem ofJson_accepts_bareError :
    bareError.IsMessage (.response ⟨none, .error ⟨.methodNotFound, "no", none⟩⟩) ∧
    ofJson (toJson (.response ⟨none, .error ⟨.methodNotFound, "no", none⟩⟩)) =
      .ok (.response ⟨none, .error ⟨.methodNotFound, "no", none⟩⟩) ∧
    Json.IsRequestShaped (.obj [("id", .arr []), ("jsonrpc", .str "2.0"), ("method", .str "a")]) ∧
    (DecodeFault.malformed .truncated).reply.isSome = true := by
  obtain ⟨haccepts, hstable, hshaped, hreply⟩ := ofJson_accepts_grammar
  -- The body of the last one is a bracket that nothing closes.
  have hanswered := (hreply [91] (.malformed .truncated) (by rfl)).1
  exact ⟨(haccepts _ _).1 (by rfl), hstable bareError _ (by rfl),
    (hshaped _ ⟨.badRequestId, true⟩ (by rfl)).1 rfl, hanswered.2 (.inl ⟨.truncated, by rfl⟩)⟩

end Message
end LanguageServer
