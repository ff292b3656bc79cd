import LanguageServer.Proofs.Document.Position
import LanguageServer.Text.Utf8

set_option autoImplicit false

/-! # The offsets that come back

Where the position of an offset leads back to is said here in terms of the bytes alone: an offset
past the end is the end, one at a byte that continues a character steps back to the byte that begins
it, and one between the two bytes of a joined line end steps back over the first of them
(`Utf8.canonical`). The scanners never look at bytes, so this has to be joined to the characters
that they read: each character has one byte that can begin one, its first, and the bytes of a line
end are bytes of no other character. -/

namespace LanguageServer

namespace Text

namespace Utf8

/-- Whether a character starts at an offset, or the text ends there. -/
def isBoundary (bytes : List UInt8) (n : Nat) : Bool :=
  match bytes[n]? with
  | some b => decide b.IsUTF8FirstByte
  | none => n == bytes.length

/-- The last boundary at or before an offset. -/
def stepBack (bytes : List UInt8) : Nat → Nat
  | 0 => 0
  | n + 1 => if isBoundary bytes (n + 1) then n + 1 else stepBack bytes n

/-- Whether an offset stands behind a carriage return and before a line feed. -/
def splitsPair (bytes : List UInt8) : Nat → Bool
  | 0 => false
  | n + 1 => bytes[n]? == some 13 && bytes[n + 1]? == some 10

/-- The offset that an offset stands for. -/
def canonical (bytes : List UInt8) (offset : Nat) : Nat :=
  let n := stepBack bytes (min offset bytes.length)
  if splitsPair bytes n then n - 1 else n

theorem stepBack_of_isBoundary {bytes : List UInt8} {n : Nat} (h : isBoundary bytes n = true) :
    stepBack bytes n = n := by
  cases n with
  | zero => rfl
  | succ n => rw [stepBack, if_pos h]

theorem stepBack_succ {bytes : List UInt8} {n : Nat} (h : isBoundary bytes (n + 1) = false) :
    stepBack bytes (n + 1) = stepBack bytes n := by
  rw [stepBack, if_neg (by simp [h])]

/-- No boundary lies past the end. -/
theorem le_length_of_isBoundary {bytes : List UInt8} {n : Nat} (h : isBoundary bytes n = true) :
    n ≤ bytes.length := by
  rcases Nat.lt_or_ge n bytes.length with hlt | hge
  · exact Nat.le_of_lt hlt
  · rw [isBoundary, List.getElem?_eq_none hge] at h
    exact Nat.le_of_eq (by simpa using h)

/-- A boundary that splits no line end stands for itself. -/
theorem canonical_of_isBoundary {bytes : List UInt8} {n : Nat} (h : isBoundary bytes n = true)
    (hpair : splitsPair bytes n = false) : canonical bytes n = n := by
  have hmin : min n bytes.length = n := Nat.min_eq_left (le_length_of_isBoundary h)
  simp only [canonical, hmin, stepBack_of_isBoundary h, hpair, Bool.false_eq_true, if_false]

/-! ## The bytes of characters -/

theorem length_bytes (cs : List Char) : (bytes cs).length = byteLength cs := by
  induction cs with
  | nil => rfl
  | cons c rest ih => rw [bytes_cons, List.length_append, String.length_utf8EncodeChar, ih]; rfl

theorem getElem?_bytes (before after : List Char) (k : Nat) :
    (bytes (before ++ after))[byteLength before + k]? = (bytes after)[k]? := by
  rw [bytes_append, List.getElem?_append_right (by rw [length_bytes]; exact Nat.le_add_right ..),
    length_bytes, Nat.add_sub_cancel_left]

theorem getElem?_bytes_cons {c : Char} {k : Nat} (h : k < c.utf8Size) (after : List Char) :
    (bytes (c :: after))[k]? = (String.utf8EncodeChar c)[k]? := by
  rw [bytes_cons, List.getElem?_append_left (by rwa [String.length_utf8EncodeChar])]

/-- Of the bytes of a character, the first is a boundary and no other. -/
theorem isBoundary_add (before : List Char) {c : Char} (after : List Char) {k : Nat}
    (h : k < c.utf8Size) :
    isBoundary (bytes (before ++ c :: after)) (byteLength before + k) = decide (k = 0) := by
  have hlength : k < (String.utf8EncodeChar c).length := by rwa [String.length_utf8EncodeChar]
  rw [isBoundary, getElem?_bytes, getElem?_bytes_cons h, List.getElem?_eq_getElem hlength]
  exact decide_eq_decide.2 UInt8.isUTF8FirstByte_getElem_utf8EncodeChar

theorem isBoundary_byteLength (before after : List Char) :
    isBoundary (bytes (before ++ after)) (byteLength before) = true := by
  cases after with
  | nil => simp [isBoundary, length_bytes]
  | cons c after => exact isBoundary_add before after c.utf8Size_pos

/-- From inside a character one steps back to where it starts. -/
theorem stepBack_add (before : List Char) {c : Char} (after : List Char) {k : Nat}
    (h : k < c.utf8Size) :
    stepBack (bytes (before ++ c :: after)) (byteLength before + k) = byteLength before := by
  induction k with
  | zero => exact stepBack_of_isBoundary (isBoundary_byteLength before (c :: after))
  | succ k ih =>
      rw [← Nat.add_assoc, stepBack_succ]
      · exact ih (by omega)
      · rw [Nat.add_assoc, isBoundary_add before after h]
        rfl

/-! ## Bytes of line ends -/

/-- The bytes of a character that takes more than one are none that stand for a character by
themselves. -/
theorem le_toNat_of_mem {c : Char} (hsize : c.utf8Size ≠ 1) {b : UInt8}
    (hb : b ∈ String.utf8EncodeChar c) : 128 ≤ b.toNat := by
  have hmarked (x m : UInt8) (hm : 128 ≤ m.toNat) : 128 ≤ (x ||| m).toNat := by
    rw [UInt8.toNat_or]
    exact Nat.le_trans hm Nat.right_le_or
  rcases c.utf8Size_eq with h | h | h | h
  · exact absurd h hsize
  · simp only [String.utf8EncodeChar_eq_cons_cons h, List.mem_cons, List.not_mem_nil,
      or_false] at hb
    rcases hb with rfl | rfl <;> exact hmarked _ _ (by decide)
  · simp only [String.utf8EncodeChar_eq_cons_cons_cons h, List.mem_cons, List.not_mem_nil,
      or_false] at hb
    rcases hb with rfl | rfl | rfl <;> exact hmarked _ _ (by decide)
  · simp only [String.utf8EncodeChar_eq_cons_cons_cons_cons h, List.mem_cons, List.not_mem_nil,
      or_false] at hb
    rcases hb with rfl | rfl | rfl | rfl <;> exact hmarked _ _ (by decide)

/-- A byte below 128 belongs to the character with its number and to no other. -/
theorem mem_utf8EncodeChar_iff {c d : Char} (hd : d.val.toNat < 128) :
    d.val.toUInt8 ∈ String.utf8EncodeChar c ↔ c = d := by
  have hbyte : d.val.toUInt8.toNat = d.val.toNat := by
    rw [UInt32.toNat_toUInt8]
    omega
  constructor
  · intro hmem
    have hsize : c.utf8Size = 1 := by
      refine Decidable.byContradiction fun hsize => ?_
      have hle := le_toNat_of_mem hsize hmem
      omega
    have hc : c.val.toNat < 128 := by
      have hle := Char.utf8Size_eq_one_iff.1 hsize
      rw [UInt32.le_iff_toNat_le] at hle
      exact Nat.lt_succ_of_le hle
    rw [String.utf8EncodeChar_eq_singleton hsize, List.mem_singleton] at hmem
    have hnat := congrArg UInt8.toNat hmem
    rw [hbyte, UInt32.toNat_toUInt8] at hnat
    apply Char.ext
    apply UInt32.toNat_inj.1
    omega
  · rintro rfl
    have hsize : c.utf8Size = 1 := by
      rw [Char.utf8Size_eq_one_iff, UInt32.le_iff_toNat_le]
      exact Nat.le_of_lt_succ hd
    simp [String.utf8EncodeChar_eq_singleton hsize]

theorem head?_eq_lineFeed_iff (cs : List Char) :
    (bytes cs)[0]? = some 10 ↔ cs.head? = some '\n' := by
  cases cs with
  | nil => simp [bytes]
  | cons c rest =>
      rw [getElem?_bytes_cons c.utf8Size_pos, List.head?_cons, Option.some_inj]
      constructor
      · intro hbyte
        exact (mem_utf8EncodeChar_iff (d := '\n') (by decide)).1 (List.mem_of_getElem? hbyte)
      · rintro rfl
        rfl

theorem getLast?_eq_return_iff (cs : List Char) :
    (0 < byteLength cs ∧ (bytes cs)[byteLength cs - 1]? = some 13) ↔
      cs.getLast? = some '\r' := by
  rcases List.eq_nil_or_concat cs with rfl | ⟨init, c, rfl⟩
  · simp [byteLength]
  · rw [List.concat_eq_append]
    have hpos := c.utf8Size_pos
    have hlength : byteLength (init ++ [c]) = byteLength init + c.utf8Size := by
      rw [byteLength_append, byteLength_cons, byteLength_nil, Nat.add_zero]
    have hindex : byteLength (init ++ [c]) - 1 = byteLength init + (c.utf8Size - 1) := by omega
    rw [hindex, getElem?_bytes, getElem?_bytes_cons (by omega), List.getLast?_concat,
      Option.some_inj]
    constructor
    · rintro ⟨-, hbyte⟩
      exact (mem_utf8EncodeChar_iff (d := '\r') (by decide)).1 (List.mem_of_getElem? hbyte)
    · rintro rfl
      exact ⟨by omega, rfl⟩

/-- Between characters, the bytes on both sides tell whether a line end is split. -/
theorem splitsPair_byteLength (before after : List Char) :
    splitsPair (bytes (before ++ after)) (byteLength before) = true ↔
      before.getLast? = some '\r' ∧ after.head? = some '\n' := by
  rw [← head?_eq_lineFeed_iff, ← getLast?_eq_return_iff]
  cases hlength : byteLength before with
  | zero => simp [splitsPair]
  | succ n =>
      have hfirst : (bytes (before ++ after))[n]? = (bytes before)[n]? := by
        rw [bytes_append, List.getElem?_append_left (by rw [length_bytes]; omega)]
      have hsecond : (bytes (before ++ after))[n + 1]? = (bytes after)[0]? := by
        rw [← hlength]
        exact getElem?_bytes before after 0
      simp [splitsPair, hfirst, hsecond, -bytes_append]

end Utf8

/-! ## The two ways to round down -/

/-- Bytes are taken up to the end, or up to the start of the character that they end in. -/
theorem takeBytes_cases (n : Nat) (cs : List Char) :
    (byteLength cs ≤ n ∧ takeBytes n cs = cs) ∨
    ∃ before c after k, cs = before ++ c :: after ∧ n = byteLength before + k ∧
      k < c.utf8Size ∧ takeBytes n cs = before := by
  induction cs generalizing n with
  | nil => exact .inl ⟨Nat.zero_le n, rfl⟩
  | cons c rest ih =>
      by_cases hfits : c.utf8Size ≤ n
      · have htake : takeBytes n (c :: rest) = c :: takeBytes (n - c.utf8Size) rest := by
          rw [takeBytes, if_pos hfits]
        rcases ih (n - c.utf8Size) with ⟨hle, hall⟩ | ⟨before, d, after, k, hrest, hn, hk, hpart⟩
        · exact .inl ⟨by rw [byteLength_cons]; omega, by rw [htake, hall]⟩
        · refine .inr ⟨c :: before, d, after, k, by rw [hrest]; rfl, ?_, hk, by rw [htake, hpart]⟩
          rw [byteLength_cons]
          omega
      · exact .inr ⟨[], c, rest, n, rfl, by simp, by omega, by rw [takeBytes, if_neg hfits]⟩

theorem floorBoundary_eq_stepBack (n : Nat) (cs : List Char) :
    floorBoundary n cs = Utf8.stepBack (Utf8.bytes cs) (min n (Utf8.bytes cs).length) := by
  rw [Utf8.length_bytes, floorBoundary]
  rcases takeBytes_cases n cs with ⟨hle, hall⟩ | ⟨before, c, after, k, rfl, rfl, hk, hpart⟩
  · have hend := Utf8.isBoundary_byteLength cs []
    rw [List.append_nil] at hend
    rw [hall, Nat.min_eq_right hle, Utf8.stepBack_of_isBoundary hend]
  · have hlength : byteLength before + k ≤ byteLength (before ++ c :: after) := by
      rw [byteLength_append, byteLength_cons]
      omega
    rw [hpart, Nat.min_eq_left hlength, Utf8.stepBack_add before after hk]

end Text

namespace Document

open Text

/-- Where the position of an offset leads back to can be told from the bytes. -/
theorem anchor_eq_canonical (offset : Nat) (cs : List Char) :
    anchor offset cs = Utf8.canonical (Utf8.bytes cs) offset := by
  have hcs := takeBytes_append_dropBytes offset cs
  have hsplit := Utf8.splitsPair_byteLength (takeBytes offset cs) (dropBytes offset cs)
  rw [hcs] at hsplit
  have hfloor : byteLength (takeBytes offset cs) =
      Utf8.stepBack (Utf8.bytes cs) (min offset (Utf8.bytes cs).length) :=
    floorBoundary_eq_stepBack offset cs
  rw [anchor_eq, anchorLength, Utf8.canonical]
  simp only [← hfloor, hsplit]

/-- **From an offset to its position and back.** In a text whose lines and columns can be counted in
32 bits, the position of any offset, however great and in whatever encoding, leads back to the
offset that it stands for: the offset clamped to the text, rounded down to where a character starts,
and moved before the joined line end that it would split. So it leads back to the offset itself
wherever a character starts or the text ends, but for the middle of a joined line end. -/
theorem offsetOf_positionOf_eq_canonical (e : PositionEncoding) (text : String)
    (h : Countable e text.toList) :
    (∀ offset, offsetOf text.toList (positionOf text.toList offset e) e =
      Utf8.canonical (Utf8.encode text) offset) ∧
    ∀ offset, Utf8.isBoundary (Utf8.encode text) offset = true →
      Utf8.splitsPair (Utf8.encode text) offset = false →
      offsetOf text.toList (positionOf text.toList offset e) e = offset := by
  have hback (offset : Nat) : offsetOf text.toList (positionOf text.toList offset e) e =
      Utf8.canonical (Utf8.encode text) offset := by
    rw [offsetOf_positionOf h, anchor_eq_canonical]
    rfl
  refine ⟨hback, fun offset hboundary hpair => ?_⟩
  rw [hback, Utf8.canonical_of_isBoundary hboundary hpair]

/-- Offsets inside a joined line end, inside a character of four bytes, and far past the end. -/
theorem offsetOf_positionOf_mixed_text :
    let text := String.ofList ['é', '\r', '\n', '😀', '\r']
    Countable .utf16 text.toList ∧
    [2, 3, 4, 7, 100].map (fun n => offsetOf text.toList (positionOf text.toList n .utf16) .utf16) =
      [2, 2, 4, 4, 9] ∧
    Utf8.isBoundary (Utf8.encode text) 8 = true ∧ Utf8.splitsPair (Utf8.encode text) 8 = false ∧
    offsetOf text.toList (positionOf text.toList 8 .utf16) .utf16 = 8 := by
  intro text
  have htext : text.toList = ['é', '\r', '\n', '😀', '\r'] := String.toList_ofList
  have hbytes : Utf8.encode text = Utf8.bytes ['é', '\r', '\n', '😀', '\r'] := by
    rw [Utf8.encode, htext]
  have hcount : Countable .utf16 text.toList := by
    rw [htext]
    decide
  have hboundary : Utf8.isBoundary (Utf8.encode text) 8 = true := by
    rw [hbytes]
    decide
  have hwhole : Utf8.splitsPair (Utf8.encode text) 8 = false := by
    rw [hbytes]
    decide
  obtain ⟨hback, hsame⟩ := offsetOf_positionOf_eq_canonical .utf16 text hcount
  refine ⟨hcount, ?_, hboundary, hwhole, hsame 8 hboundary hwhole⟩
  simp only [hback, hbytes]
  decide

end Document

end LanguageServer
