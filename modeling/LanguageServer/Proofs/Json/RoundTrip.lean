import LanguageServer.Proofs.Json.Token

set_option autoImplicit false

/-! # Reading undoes writing

`parse_render`: the text of a value is read back as that value. Three things could stand in the way,
and each is excluded by a hypothesis: a double has a text that need not denote the same double, an
object with a key twice would be read with one member less, and a text nested deeper than
`Json.maxDepth` is refused.

The reader has fuel. `Reader.Reads` says that one unit per character of the text is enough, whatever
stands behind the text; the cases of the induction over values are one lemma each. -/

namespace LanguageServer.Json

open Text.Utf8 (bytes bytes_cons bytes_append)

mutual

/-- Every number is an integer that fits 64 bits, with or without a sign. -/
def Exact : Json → Prop
  | .num (.int n) => -9223372036854775808 ≤ n ∧ n ≤ 18446744073709551615
  | .num (.double _) => False
  | .arr items => ExactItems items
  | .obj members => ExactMembers members
  | .null | .bool _ | .str _ => True

def ExactItems : List Json → Prop
  | [] => True
  | j :: rest => j.Exact ∧ ExactItems rest

def ExactMembers : List (String × Json) → Prop
  | [] => True
  | (_, j) :: rest => j.Exact ∧ ExactMembers rest

end

mutual

def decExact : (j : Json) → Decidable j.Exact
  | .null | .bool _ | .str _ => isTrue trivial
  | .num (.int n) => inferInstanceAs (Decidable (_ ≤ n ∧ n ≤ _))
  | .num (.double _) => isFalse id
  | .arr items => decExactItems items
  | .obj members => decExactMembers members

def decExactItems : (items : List Json) → Decidable (ExactItems items)
  | [] => isTrue trivial
  | j :: rest => @instDecidableAnd _ _ (decExact j) (decExactItems rest)

def decExactMembers : (members : List (String × Json)) → Decidable (ExactMembers members)
  | [] => isTrue trivial
  | (_, j) :: rest => @instDecidableAnd _ _ (decExact j) (decExactMembers rest)

end

instance : DecidablePred Exact := decExact

namespace Reader

/-- A value whose text is read back, whatever stands behind it. A unit of fuel per character is
enough. -/
def Reads (j : Json) : Prop :=
  ∀ fuel room rest, j.chars.length ≤ fuel + 1 → j.depth ≤ room → Ends rest →
    value (fuel + 1) room (bytes j.chars ++ rest) = .ok (j, rest)

theorem skipBlanks_cons {b : UInt8} (h : isBlank b = false) (rest : List UInt8) :
    skipBlanks (b :: rest) = b :: rest := by
  simp [skipBlanks, h]

theorem reads_null : Reads .null := by
  intro fuel room rest _ _ _
  show value (fuel + 1) room (0x6E :: 0x75 :: 0x6C :: 0x6C :: rest) = _
  simp [value, skipBlanks, isBlank, word]

theorem reads_bool (b : Bool) : Reads (.bool b) := by
  intro fuel room rest _ _ _
  cases b with
  | false =>
      show value (fuel + 1) room (0x66 :: 0x61 :: 0x6C :: 0x73 :: 0x65 :: rest) = _
      simp [value, skipBlanks, isBlank, word]
  | true =>
      show value (fuel + 1) room (0x74 :: 0x72 :: 0x75 :: 0x65 :: rest) = _
      simp [value, skipBlanks, isBlank, word]

theorem reads_str (s : String) : Reads (.str s) := by
  intro fuel room rest _ _ _
  rw [chars, bytes_stringChars, List.cons_append, List.append_assoc, List.singleton_append]
  simp [value, skipBlanks, isBlank, string_closed]

/-- A digit begins nothing but a number. -/
theorem value_digit {d : Nat} (hd : d < 10) {n : Number} {input rest : List UInt8}
    (h : number false (digitByte d :: input) = .ok (n, rest)) (fuel room : Nat) :
    value (fuel + 1) room (digitByte d :: input) = .ok (.num n, rest) := by
  have hother : ∀ d < 10, isBlank (digitByte d) = false ∧ digitByte d ≠ 0x6E ∧ digitByte d ≠ 0x74 ∧
      digitByte d ≠ 0x66 ∧ digitByte d ≠ 0x22 ∧ digitByte d ≠ 0x2D := by decide
  obtain ⟨hblank, hn, ht, hf, hquote, hminus⟩ := hother d hd
  obtain ⟨hdigit, -⟩ := isDigit_digitByte d hd
  simp [value, skipBlanks, hblank, hn, ht, hf, hquote, hminus, hdigit, h]

theorem reads_int {n : Int} (hlow : -9223372036854775808 ≤ n) (hhigh : n ≤ 18446744073709551615) :
    Reads (.num (.int n)) := by
  intro fuel room rest _ _ hends
  have hle : n.natAbs ≤ maxSignificand := by
    unfold maxSignificand
    omega
  show value (fuel + 1) room (bytes (intChars n) ++ rest) = _
  unfold intChars
  split
  · next hneg =>
      show value (fuel + 1) room (0x2D :: (bytes (Nat.toDigits 10 n.natAbs) ++ rest)) = _
      have hback : -(n.natAbs : Int) = n := by omega
      have hread := integerPart_negative hends (n := n.natAbs) (by omega) (by omega)
      rw [hback] at hread
      simp [value, skipBlanks, isBlank, number_toDigits hle hends, hread]
  · next hpos =>
      have hback : (n.natAbs : Int) = n := by omega
      have hread := number_toDigits hle hends false
      rw [integerPart_ends hends, hback] at hread
      obtain ⟨d, digits, -, hd, -, hbytes, -⟩ := significandDigits_toDigits n.natAbs hle
      rw [hbytes, List.cons_append] at hread ⊢
      exact value_digit hd hread fuel room

/-- A value begins with a byte that is neither a blank nor the end of an array. -/
theorem chars_head {j : Json} (h : j.Exact) :
    ∃ b more, bytes j.chars = b :: more ∧ isBlank b = false ∧ b ≠ 0x5D := by
  match j, h with
  | .null, _ => exact ⟨_, _, rfl, by decide, by decide⟩
  | .bool true, _ => exact ⟨_, _, rfl, by decide, by decide⟩
  | .bool false, _ => exact ⟨_, _, rfl, by decide, by decide⟩
  | .str s, _ => exact ⟨_, _, bytes_stringChars s, by decide, by decide⟩
  | .arr [], _ => exact ⟨0x5B, _, rfl, by decide, by decide⟩
  | .arr (j :: rest), _ =>
    exact ⟨0x5B, bytes (j.chars ++ itemsTail rest), rfl, by decide, by decide⟩
  | .obj [], _ => exact ⟨0x7B, _, rfl, by decide, by decide⟩
  | .obj ((k, j) :: rest), _ =>
      exact ⟨0x7B, bytes (stringChars k ++ ':' :: (j.chars ++ membersTail rest)), rfl,
        by decide, by decide⟩
  | .num (.int n), h =>
      rw [Exact] at h
      show ∃ b more, bytes (intChars n) = b :: more ∧ isBlank b = false ∧ b ≠ 0x5D
      unfold intChars
      split
      · exact ⟨0x2D, bytes (Nat.toDigits 10 n.natAbs), rfl, by decide, by decide⟩
      · obtain ⟨d, digits, -, hd, -, hbytes, -⟩ := significandDigits_toDigits n.natAbs
          (by unfold maxSignificand; omega)
        have hother : ∀ d < 10, isBlank (digitByte d) = false ∧ digitByte d ≠ 0x5D := by decide
        exact ⟨digitByte d, digits, hbytes, hother d hd⟩
  | .num (.double d), h => exact absurd h (by simp [Exact])

theorem chars_pos {j : Json} (h : j.Exact) : 0 < j.chars.length := by
  obtain ⟨b, more, hbytes, -⟩ := chars_head h
  rcases hchars : j.chars with _ | ⟨c, cs⟩
  · rw [hchars] at hbytes
    cases hbytes
  · simp

theorem itemsTail_ends (items : List Json) (rest : List UInt8) :
    Ends (bytes (itemsTail items) ++ rest) := by
  cases items with
  | nil => exact ends_cons (b := 0x5D) (by decide) _
  | cons j items => exact ends_cons (b := 0x2C) (by decide) _

theorem membersTail_ends (members : List (String × Json)) (rest : List UInt8) :
    Ends (bytes (membersTail members) ++ rest) := by
  cases members with
  | nil => exact ends_cons (b := 0x7D) (by decide) _
  | cons m members => exact ends_cons (b := 0x2C) (by decide) _

theorem items_last {fuel room : Nat} {j : Json} {input rest : List UInt8}
    (h : value fuel room input = .ok (j, 0x5D :: rest)) (acc : List Json) :
    items (fuel + 1) room acc input = .ok (.arr (j :: acc).reverse, rest) := by
  simp [items, h, skipBlanks, isBlank]

theorem items_next {fuel room : Nat} {j : Json} {input rest : List UInt8}
    (h : value fuel room input = .ok (j, 0x2C :: rest)) (acc : List Json) :
    items (fuel + 1) room acc input = items fuel room (j :: acc) rest := by
  simp [items, h, skipBlanks, isBlank]

/-- The items of an array are read one after another. -/
theorem items_reads {j : Json} {rest : List Json} (hexact : ExactItems (j :: rest))
    (hreads : ∀ i ∈ j :: rest, Reads i) (acc : List Json) (fuel room : Nat) (more : List UInt8)
    (hfuel : j.chars.length + (itemsTail rest).length ≤ fuel)
    (hroom : depthItems (j :: rest) ≤ room) :
    items fuel room acc (bytes j.chars ++ (bytes (itemsTail rest) ++ more)) =
      .ok (.arr (acc.reverse ++ j :: rest), more) := by
  induction rest generalizing j acc fuel with
  | nil =>
      obtain ⟨hj, -⟩ := hexact
      have hpos := chars_pos hj
      simp only [itemsTail, List.length_singleton] at hfuel
      obtain ⟨fuel, rfl⟩ : ∃ f, fuel = f + 2 := ⟨fuel - 2, by omega⟩
      simp only [depthItems] at hroom
      have hread := hreads j List.mem_cons_self fuel room _ (by omega) (by omega)
        (itemsTail_ends [] more)
      rw [items_last hread]
      simp
  | cons i rest ih =>
      obtain ⟨hj, hrest⟩ := hexact
      have hpos := chars_pos hj
      simp only [itemsTail, List.length_cons, List.length_append] at hfuel
      obtain ⟨fuel, rfl⟩ : ∃ f, fuel = f + 2 := ⟨fuel - 2, by omega⟩
      rw [depthItems] at hroom
      have hread := hreads j List.mem_cons_self fuel room _ (by omega) (by omega)
        (itemsTail_ends (i :: rest) more)
      have htail : bytes (itemsTail (i :: rest)) ++ more =
          0x2C :: (bytes i.chars ++ (bytes (itemsTail rest) ++ more)) := by
        rw [itemsTail, bytes_cons, bytes_append, List.append_assoc, List.append_assoc]
        rfl
      rw [htail] at hread ⊢
      rw [items_next hread, ih hrest (fun k hk => hreads k (List.mem_cons_of_mem _ hk)) _ _
        (by omega) (by omega)]
      simp

theorem value_open_items {b : UInt8} (hblank : isBlank b = false) (hclose : b ≠ 0x5D)
    (fuel room : Nat) (input : List UInt8) :
    value (fuel + 1) (room + 1) (0x5B :: b :: input) = items fuel room [] (b :: input) := by
  have hopen : isBlank 0x5B = false := by decide
  simp only [value, skipBlanks_cons hopen, skipBlanks_cons hblank]
  simp [isDigit]
  split
  · next heq => cases heq
  · next heq => exact absurd (List.cons.inj heq).1 hclose
  · rfl

theorem reads_arr {items : List Json} (hexact : ExactItems items)
    (hreads : ∀ j ∈ items, Reads j) : Reads (.arr items) := by
  intro fuel room rest hfuel hroom _
  rw [depth] at hroom
  obtain ⟨room, rfl⟩ : ∃ r, room = r + 1 := ⟨room - 1, by omega⟩
  cases items with
  | nil =>
      show value (fuel + 1) (room + 1) (0x5B :: 0x5D :: rest) = _
      simp [value, skipBlanks, isBlank, isDigit]
  | cons j items =>
      obtain ⟨b, more, hhead, hblank, hclose⟩ := chars_head hexact.1
      simp only [chars, List.length_cons, List.length_append] at hfuel
      have hread := items_reads hexact hreads [] fuel room rest (by omega) (by omega)
      have htext : bytes (chars (.arr (j :: items))) ++ rest =
          0x5B :: (bytes j.chars ++ (bytes (itemsTail items) ++ rest)) := by
        rw [chars, bytes_cons, bytes_append, List.append_assoc, List.append_assoc]
        rfl
      rw [htext]
      rw [hhead, List.cons_append] at hread ⊢
      rw [value_open_items hblank hclose, hread]
      rfl

/-! ### Objects -/

theorem insert_of_not_mem {k : String} {acc : List (String × Json)} (h : k ∉ keys acc)
    (j : Json) : Json.insert k j acc = acc ++ [(k, j)] := by
  induction acc with
  | nil => rfl
  | cons m acc ih =>
      obtain ⟨l, v⟩ := m
      simp only [keys, List.map_cons, List.mem_cons, not_or] at h
      rw [Json.insert, if_neg fun heq => h.1 heq.symm, ih h.2]
      rfl

theorem members_last {fuel room : Nat} {k : String} {j : Json} {input rest rest' : List UInt8}
    (hk : string .plain [] input = .ok (k, 0x3A :: rest))
    (hj : value fuel room rest = .ok (j, 0x7D :: rest')) (acc : List (String × Json)) :
    members (fuel + 1) room acc (0x22 :: input) = .ok (.obj (Json.insert k j acc), rest') := by
  simp [members, hk, hj, skipBlanks, isBlank]

theorem members_next {fuel room : Nat} {k : String} {j : Json} {input rest rest' : List UInt8}
    (hk : string .plain [] input = .ok (k, 0x3A :: rest))
    (hj : value fuel room rest = .ok (j, 0x2C :: rest')) (acc : List (String × Json)) :
    members (fuel + 1) room acc (0x22 :: input) =
      members fuel room (Json.insert k j acc) rest' := by
  simp [members, hk, hj, skipBlanks, isBlank]

/-- The bytes of a member and of what follows it. -/
theorem bytes_member (k : String) (j : Json) (tail : List Char) (more : List UInt8) :
    bytes (stringChars k ++ ':' :: (j.chars ++ tail)) ++ more =
      0x22 :: (bytes (k.toList.flatMap escapeChar) ++
        0x22 :: 0x3A :: (bytes j.chars ++ (bytes tail ++ more))) := by
  rw [bytes_append, bytes_stringChars, bytes_cons, bytes_append]
  simp only [List.cons_append, List.append_assoc, List.nil_append]
  rfl

theorem not_mem_keys {k : String} {j : Json} {acc rest : List (String × Json)}
    (h : (keys (acc ++ (k, j) :: rest)).Nodup) : k ∉ keys acc := by
  simp only [keys, List.map_append, List.map_cons, List.nodup_append] at h
  intro hk
  exact h.2.2 k hk k List.mem_cons_self rfl

/-- The members of an object are read one after another; as no key comes twice, each is added at
the end. -/
theorem members_reads {k : String} {j : Json} {rest : List (String × Json)}
    (hexact : ExactMembers ((k, j) :: rest)) (hreads : ∀ m ∈ (k, j) :: rest, Reads m.2)
    (acc : List (String × Json)) (hkeys : (keys (acc ++ (k, j) :: rest)).Nodup)
    (fuel room : Nat) (more : List UInt8)
    (hfuel : j.chars.length + (membersTail rest).length ≤ fuel)
    (hroom : depthMembers ((k, j) :: rest) ≤ room) :
    members fuel room acc
        (bytes (stringChars k ++ ':' :: (j.chars ++ membersTail rest)) ++ more) =
      .ok (.obj (acc ++ (k, j) :: rest), more) := by
  induction rest generalizing k j acc fuel with
  | nil =>
      have hpos := chars_pos hexact.1
      have hj : Reads j := hreads (k, j) List.mem_cons_self
      simp only [membersTail, List.length_singleton] at hfuel
      obtain ⟨fuel, rfl⟩ : ∃ f, fuel = f + 2 := ⟨fuel - 2, by omega⟩
      rw [depthMembers] at hroom
      have hread := hj fuel room _ (by omega) (by omega) (membersTail_ends [] more)
      rw [bytes_member, members_last (string_closed k _) hread,
        insert_of_not_mem (not_mem_keys hkeys)]
      rfl
  | cons m rest ih =>
      obtain ⟨l, i⟩ := m
      -- every value has a character at least, which pays for the step to the next member
      have hpos := chars_pos hexact.1
      have hj : Reads j := hreads (k, j) List.mem_cons_self
      simp only [membersTail, List.length_cons, List.length_append] at hfuel
      obtain ⟨fuel, rfl⟩ : ∃ f, fuel = f + 2 := ⟨fuel - 2, by omega⟩
      rw [depthMembers] at hroom
      have hread := hj fuel room _ (by omega) (by omega)
        (membersTail_ends ((l, i) :: rest) more)
      have htail : bytes (membersTail ((l, i) :: rest)) ++ more =
          0x2C :: (bytes (stringChars l ++ ':' :: (i.chars ++ membersTail rest)) ++ more) := rfl
      rw [htail] at hread
      rw [bytes_member, htail, members_next (string_closed k _) hread,
        insert_of_not_mem (not_mem_keys hkeys),
        ih hexact.2 (fun m hm => hreads m (List.mem_cons_of_mem _ hm)) _ (by simpa using hkeys) _
          (by omega) (by omega)]
      simp

theorem value_open_members (fuel room : Nat) (input : List UInt8) :
    value (fuel + 1) (room + 1) (0x7B :: 0x22 :: input) = members fuel room [] (0x22 :: input) := by
  simp [value, skipBlanks, isBlank, isDigit]

theorem reads_obj {members : List (String × Json)} (hexact : ExactMembers members)
    (hkeys : (keys members).Nodup) (hreads : ∀ m ∈ members, Reads m.2) :
    Reads (.obj members) := by
  intro fuel room rest hfuel hroom _
  rw [depth] at hroom
  obtain ⟨room, rfl⟩ : ∃ r, room = r + 1 := ⟨room - 1, by omega⟩
  cases members with
  | nil =>
      show value (fuel + 1) (room + 1) (0x7B :: 0x7D :: rest) = _
      simp [value, skipBlanks, isBlank, isDigit]
  | cons m members =>
      obtain ⟨k, j⟩ := m
      simp only [chars, List.length_cons, List.length_append] at hfuel
      have hread := members_reads hexact hreads [] hkeys fuel room rest (by omega) (by omega)
      have htext : bytes (chars (.obj ((k, j) :: members))) ++ rest =
          0x7B :: (bytes (stringChars k ++ ':' :: (j.chars ++ membersTail members)) ++ rest) := rfl
      rw [htext]
      rw [bytes_member] at hread ⊢
      rw [value_open_members, hread]
      rfl

/-! ### Every value -/

mutual

theorem reads : (j : Json) → j.Exact → j.WellFormed → Reads j
  | .null, _, _ => reads_null
  | .bool b, _, _ => reads_bool b
  | .num (.int _), hexact, _ => by
      rw [Exact] at hexact
      exact reads_int hexact.1 hexact.2
  | .num (.double _), hexact, _ => absurd hexact (by simp [Exact])
  | .str s, _, _ => reads_str s
  | .arr items, hexact, hform => by
      rw [Exact] at hexact
      rw [WellFormed] at hform
      exact reads_arr hexact (reads_items items hexact hform)
  | .obj members, hexact, hform => by
      rw [Exact] at hexact
      rw [WellFormed] at hform
      exact reads_obj hexact hform.1 (reads_members members hexact hform.2)

theorem reads_items : (items : List Json) → ExactItems items → WellFormedItems items →
    ∀ j ∈ items, Reads j
  | [], _, _ => by simp
  | j :: items, hexact, hform => by
      rw [ExactItems] at hexact
      rw [WellFormedItems] at hform
      exact List.forall_mem_cons.2
        ⟨reads j hexact.1 hform.1, reads_items items hexact.2 hform.2⟩

theorem reads_members : (members : List (String × Json)) → ExactMembers members →
    WellFormedMembers members → ∀ m ∈ members, Reads m.2
  | [], _, _ => by simp
  | (k, j) :: members, hexact, hform => by
      rw [ExactMembers] at hexact
      rw [WellFormedMembers] at hform
      exact List.forall_mem_cons.2
        ⟨reads j hexact.1 hform.1, reads_members members hexact.2 hform.2⟩

end

end Reader

/-- **Reading undoes writing,** for values without doubles that are not nested too deeply. -/
theorem parse_render {j : Json} (hexact : j.Exact) (hform : j.WellFormed)
    (hdepth : j.depth ≤ maxDepth) : parse (Text.Utf8.encode j.render) = .ok j := by
  have hlength := length_le_length_bytes j.chars
  have hread := Reader.reads j hexact hform (2 * (bytes j.chars).length + 1) maxDepth []
    (by omega) hdepth Reader.ends_nil
  rw [List.append_nil] at hread
  rw [parse, render, Text.Utf8.encode_ofList, parseFirst, hread]
  rfl

end LanguageServer.Json
