import LanguageServer.Json.Reader
import LanguageServer.Json.Writer

set_option autoImplicit false

/-! # Written strings and integers are read back

The reader works on bytes and the writer on characters, so both are compared on `bytes`, the UTF-8
bytes of characters. Inside a string every character is read on its own: an escape gives back the
bytes of the character it stands for, and the bytes of all others pass through unchanged, since none
of them looks like a quote, a backslash or a control character. An integer is read digit by digit;
its significand never outgrows 64 bits because the integer itself does not. -/

namespace LanguageServer.Json

open Text.Utf8 (bytes bytes_nil bytes_cons bytes_append)

theorem length_le_length_bytes (cs : List Char) : cs.length ≤ (bytes cs).length := by
  induction cs with
  | nil => simp
  | cons c cs ih =>
      have hpos : 0 < (String.utf8EncodeChar c).length :=
        List.length_pos_iff.2 String.utf8EncodeChar_ne_nil
      simp only [bytes_cons, List.length_cons, List.length_append]
      omega

namespace Reader

/-! ## Strings -/

/-- A byte that a string holds as it is. -/
def IsPlain (b : UInt8) : Prop := b ≠ 0x22 ∧ b ≠ 0x5C ∧ ¬ b < 0x20

theorem isPlain_ofNat {n : Nat} (hlow : 128 ≤ n) (hhigh : n < 256) : IsPlain (UInt8.ofNat n) := by
  have hn : (UInt8.ofNat n).toNat = n := by simp; omega
  refine ⟨?_, ?_, ?_⟩
  · intro h
    rw [h] at hn
    simp at hn
    omega
  · intro h
    rw [h] at hn
    simp at hn
    omega
  · rw [UInt8.lt_iff_toNat_lt, hn]
    simp
    omega

theorem string_plain {bs : List UInt8} (h : ∀ b ∈ bs, IsPlain b) (acc rest : List UInt8) :
    string .plain acc (bs ++ rest) = string .plain (bs.reverse ++ acc) rest := by
  induction bs generalizing acc with
  | nil => rfl
  | cons b bs ih =>
      obtain ⟨hquote, hslash, hlow⟩ := h b List.mem_cons_self
      rw [List.cons_append, string, if_neg hquote, if_neg hslash, if_neg hlow,
        ih fun b' hb' => h b' (List.mem_cons_of_mem _ hb')]
      simp

/-- Every byte of a character beyond ASCII has its top bit set, and an ASCII one stands for
itself. -/
theorem isPlain_of_mem {c : Char} (hquote : c ≠ '"') (hslash : c ≠ '\\') (hlow : ¬ c.toNat < 0x20)
    {b : UInt8} (hb : b ∈ String.utf8EncodeChar c) : IsPlain b := by
  have hsize : c.toNat < 1114112 := by
    have := c.valid
    unfold UInt32.isValidChar Nat.isValidChar at this
    unfold Char.toNat
    omega
  have hval : c.val.toNat = c.toNat := rfl
  rw [String.utf8EncodeChar.eq_def] at hb
  simp only [hval] at hb
  split at hb
  · next hascii =>
      have hb : b = UInt8.ofNat c.toNat := by simpa using hb
      have hb' : b.toNat = c.toNat := by
        rw [hb]
        simp
        omega
      refine ⟨?_, ?_, ?_⟩
      · rintro rfl
        exact hquote (Char.ext (UInt32.toNat_inj.1 hb'.symm))
      · rintro rfl
        exact hslash (Char.ext (UInt32.toNat_inj.1 hb'.symm))
      · rw [UInt8.lt_iff_toNat_lt, hb']
        exact hlow
  · split at hb
    · simp only [List.mem_cons, List.not_mem_nil, or_false] at hb
      rcases hb with rfl | rfl <;> exact isPlain_ofNat (by omega) (by omega)
    · split at hb
      · simp only [List.mem_cons, List.not_mem_nil, or_false] at hb
        rcases hb with rfl | rfl | rfl <;> exact isPlain_ofNat (by omega) (by omega)
      · simp only [List.mem_cons, List.not_mem_nil, or_false] at hb
        rcases hb with rfl | rfl | rfl | rfl <;> exact isPlain_ofNat (by omega) (by omega)

/-- The byte of a hexadecimal digit. -/
def digitByte (n : Nat) : UInt8 := (Nat.digitChar n).toNat.toUInt8

theorem digitByte_eq : ∀ n < 16, String.utf8EncodeChar (Nat.digitChar n) = [digitByte n] ∧
    hexDigit? (digitByte n) = some n := by
  decide

theorem hexEscape_low {n : Nat} (h : n < 256) :
    hexEscape none [0x30, 0x30, digitByte (n / 16), digitByte (n % 16)]
      = .ok (.inr (Char.ofNat n)) := by
  have hzero : hexDigit? 0x30 = some 0 := by decide
  have hvalue : hexValue? [0x30, 0x30, digitByte (n / 16), digitByte (n % 16)] = some n := by
    simp [hexValue?, hzero, (digitByte_eq (n / 16) (by omega)).2,
      (digitByte_eq (n % 16) (by omega)).2]
    omega
  unfold hexEscape
  rw [hvalue]
  dsimp only
  rw [if_neg (by omega), if_neg (by omega)]

theorem string_hexEscape {c : Char} {x y : UInt8} (acc rest : List UInt8)
    (h : hexEscape none [0x30, 0x30, x, y] = .ok (.inr c)) :
    string .plain acc (0x5C :: 0x75 :: 0x30 :: 0x30 :: x :: y :: rest) =
      string .plain (pushChar c acc) rest := by
  simp [string, h]

theorem string_escapeChar (c : Char) (acc rest : List UInt8) :
    string .plain acc (bytes (escapeChar c) ++ rest) =
      string .plain ((String.utf8EncodeChar c).reverse ++ acc) rest := by
  unfold escapeChar
  split
  · rfl
  · rfl
  · rfl
  · rfl
  · rfl
  · rfl
  · rfl
  · next hquote hslash _ _ _ _ _ =>
      split
      · next hlow =>
          have hescape := hexEscape_low (n := c.toNat) (by omega)
          rw [Char.ofNat_toNat] at hescape
          simp only [bytes_cons, (digitByte_eq (c.toNat / 16) (by omega)).1,
            (digitByte_eq (c.toNat % 16) (by omega)).1, bytes_nil]
          exact string_hexEscape acc rest hescape
      · next hlow =>
          rw [bytes_cons, bytes_nil, List.append_nil]
          exact string_plain (fun b hb => isPlain_of_mem hquote hslash hlow hb) acc rest

theorem string_escaped (cs : List Char) (acc rest : List UInt8) :
    string .plain acc (bytes (cs.flatMap escapeChar) ++ rest) =
      string .plain ((bytes cs).reverse ++ acc) rest := by
  induction cs generalizing acc with
  | nil => rfl
  | cons c cs ih =>
      rw [List.flatMap_cons, bytes_append, List.append_assoc, string_escapeChar, ih, bytes_cons]
      simp

theorem bytes_stringChars (s : String) :
    bytes (stringChars s) = 0x22 :: (bytes (s.toList.flatMap escapeChar) ++ [0x22]) := by
  unfold stringChars
  rw [bytes_cons, bytes_append]
  rfl

/-- **A written string is read back,** up to and including its closing quote. -/
theorem string_closed (s : String) (rest : List UInt8) :
    string .plain [] (bytes (s.toList.flatMap escapeChar) ++ 0x22 :: rest) = .ok (s, rest) := by
  have hbytes : bytes s.toList = Text.Utf8.encode s := rfl
  rw [string_escaped, string, hbytes]
  simp

/-! ## Integers -/

/-- What may follow a number: nothing that would carry it on. -/
def Ends (rest : List UInt8) : Prop :=
  ∀ b more, rest = b :: more → isDigit b = false ∧ b ≠ 0x2E ∧ b ≠ 0x65 ∧ b ≠ 0x45

theorem ends_nil : Ends [] := by
  intro b more h
  cases h

theorem ends_cons {b : UInt8} (h : isDigit b = false ∧ b ≠ 0x2E ∧ b ≠ 0x65 ∧ b ≠ 0x45)
    (rest : List UInt8) : Ends (b :: rest) := by
  intro b' more heq
  cases heq
  exact h

theorem isDigit_digitByte :
    ∀ n < 10, isDigit (digitByte n) = true ∧ digitValue (digitByte n) = n := by
  decide

theorem significandDigits_digit {n d : Nat} (hd : d < 10) (hle : n * 10 + d ≤ maxSignificand)
    (count : Nat) (rest : List UInt8) :
    significandDigits n count (digitByte d :: rest) =
      significandDigits (n * 10 + d) (count + 1) rest := by
  obtain ⟨hdigit, hvalue⟩ := isDigit_digitByte d hd
  rw [significandDigits, hdigit, hvalue, if_pos (by simpa using hle)]

theorem significandDigits_ends {rest : List UInt8} (h : Ends rest) (n count : Nat) :
    significandDigits n count rest = (n, count, rest) := by
  cases rest with
  | nil => rfl
  | cons b more =>
      rw [significandDigits, (h b more rfl).1]
      simp

/-- The decimal digits of a positive number begin with one that is not zero, and reading all of
them gives the number. -/
theorem significandDigits_toDigits (n : Nat) (hle : n ≤ maxSignificand) :
    ∃ d digits count, d < 10 ∧ (0 < n → 0 < d) ∧
      bytes (Nat.toDigits 10 n) = digitByte d :: digits ∧
      ∀ rest, significandDigits d 0 (digits ++ rest) = significandDigits n count rest := by
  induction n using Nat.strongRecOn with
  | ind n ih =>
      by_cases hsmall : n < 10
      · refine ⟨n, [], 0, hsmall, id, ?_, fun rest => rfl⟩
        rw [Nat.toDigits_of_lt_base hsmall, bytes_cons, (digitByte_eq n (by omega)).1]
        rfl
      · obtain ⟨d, digits, count, hd, hfirst, hbytes, hread⟩ := ih (n / 10) (by omega) (by omega)
        refine ⟨d, digits ++ [digitByte (n % 10)], count + 1, hd, fun _ => hfirst (by omega), ?_,
          fun rest => ?_⟩
        · rw [Nat.toDigits_of_base_le (by omega) (by omega), bytes_append, hbytes, bytes_cons,
            (digitByte_eq (n % 10) (by omega)).1]
          rfl
        · have hstep : n / 10 * 10 + n % 10 = n := by omega
          rw [List.append_assoc, hread, List.singleton_append,
            significandDigits_digit (by omega) (by omega), hstep]

theorem number_toDigits {n : Nat} (hle : n ≤ maxSignificand) {rest : List UInt8} (h : Ends rest)
    (negative : Bool) :
    number negative (bytes (Nat.toDigits 10 n) ++ rest) = integerPart negative n rest := by
  rcases Nat.eq_zero_or_pos n with rfl | hpos
  · show number negative (0x30 :: rest) = _
    cases rest with
    | nil => rfl
    | cons b more => simp [number, (h b more rfl).1]
  · obtain ⟨d, digits, count, hd', hd, hbytes, hread⟩ := significandDigits_toDigits n hle
    have hnonzero : ∀ d < 10, 0 < d → digitByte d ≠ 0x30 := by decide
    obtain ⟨hdigit, hvalue⟩ := isDigit_digitByte d hd'
    have hstop : rest.takeWhile isDigit = [] := by
      cases rest with
      | nil => rfl
      | cons b more => simp [(h b more rfl).1]
    rw [hbytes, List.cons_append]
    unfold number
    split
    · next heq => cases heq
    · next heq => exact absurd (List.cons.inj heq).1 (hnonzero d hd' (hd hpos))
    · next b more _ heq =>
        obtain ⟨rfl, rfl⟩ := List.cons.inj heq
        rw [hdigit, if_pos rfl, hvalue, hread, significandDigits_ends h]
        dsimp only
        rw [hstop]

theorem integerPart_ends {rest : List UInt8} (h : Ends rest) (n : Nat) :
    integerPart false n rest = .ok (.int n, rest) := by
  unfold integerPart
  cases rest with
  | nil => rfl
  | cons b more =>
      obtain ⟨-, hpoint, hexp, hexp'⟩ := h b more rfl
      simp [hpoint, hexp, hexp']

theorem integerPart_negative {rest : List UInt8} (h : Ends rest) {n : Nat} (hpos : 0 < n)
    (hle : n ≤ 9223372036854775808) : integerPart true n rest = .ok (.int (-n), rest) := by
  unfold integerPart
  cases rest with
  | nil => simp [hpos, hle]
  | cons b more =>
      obtain ⟨-, hpoint, hexp, hexp'⟩ := h b more rfl
      simp [hpoint, hexp, hexp', hpos, hle]

end Reader

end LanguageServer.Json
