set_option autoImplicit false

/-! # Text as UTF-8 bytes

Everything that crosses the connection is a list of bytes. `encode` turns a text into its UTF-8
bytes and `decode?` reads such bytes back; a list that is not valid UTF-8 has no text. The two are
inverse to each other: `decode?_eq_some_iff`. -/

namespace LanguageServer.Text.Utf8

/-- The UTF-8 bytes of characters. -/
def bytes (cs : List Char) : List UInt8 := cs.flatMap String.utf8EncodeChar

@[simp] theorem bytes_nil : bytes [] = [] := rfl

theorem bytes_cons (c : Char) (cs : List Char) :
    bytes (c :: cs) = String.utf8EncodeChar c ++ bytes cs := rfl

@[simp] theorem bytes_append (a b : List Char) : bytes (a ++ b) = bytes a ++ bytes b :=
  List.flatMap_append ..

/-- The UTF-8 bytes of a text. -/
def encode (s : String) : List UInt8 := bytes s.toList

theorem encode_ofList (cs : List Char) : encode (String.ofList cs) = bytes cs := by
  rw [encode, String.toList_ofList]

/-- The text with these UTF-8 bytes, if they are valid. -/
def decode? (bytes : List UInt8) : Option String :=
  String.fromUTF8? bytes.toByteArray

theorem toByteArray_encode (s : String) : (encode s).toByteArray = s.toByteArray := by
  have h := String.toByteArray_ofList (l := s.toList)
  rw [String.ofList_toList] at h
  rw [h]
  rfl

theorem toByteArray_injective {a b : List UInt8} (h : a.toByteArray = b.toByteArray) : a = b := by
  have h' := congrArg ByteArray.data h
  rw [List.data_toByteArray, List.data_toByteArray] at h'
  simpa using h'

/-- Reading accepts exactly what writing produces. -/
theorem decode?_eq_some_iff {bytes : List UInt8} {s : String} :
    decode? bytes = some s ↔ bytes = encode s := by
  unfold decode? String.fromUTF8?
  constructor
  · intro h
    split at h
    · rename_i hv
      have hs : String.fromUTF8 bytes.toByteArray hv = s := by simpa using h
      apply toByteArray_injective
      rw [toByteArray_encode, ← hs]
      rfl
    · simp at h
  · intro h
    subst h
    have hv : (encode s).toByteArray.IsValidUTF8 := by
      rw [toByteArray_encode]
      exact s.isValidUTF8
    rw [dif_pos hv]
    congr 1
    apply String.toByteArray_inj.1
    rw [← toByteArray_encode s]
    rfl

@[simp] theorem decode?_encode (s : String) : decode? (encode s) = some s :=
  decode?_eq_some_iff.2 rfl

theorem encode_injective {s t : String} (h : encode s = encode t) : s = t := by
  have hdecode := decode?_encode s
  rw [h, decode?_encode] at hdecode
  exact (Option.some.inj hdecode).symm

end LanguageServer.Text.Utf8
