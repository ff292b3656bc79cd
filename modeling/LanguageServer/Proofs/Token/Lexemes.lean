import LanguageServer.Proofs.Document.Lines
import LanguageServer.Token.Lexical

set_option autoImplicit false

/-! # The lexical grammar

What the lexemes of a line are is said here of its bytes, without a scan: `IsLexeme` says of a
stretch of bytes that it is a comment, a string, a number, a keyword or a name, and `IsReading` that
some such stretches, one behind the other, are all there are, since a lexeme opens at no byte
outside of them. A line has one reading and no other, and it is the one that cutting the line into
pieces gives: `isReading_iff_eq_spans`.

It matters here that a pair of slashes opens a comment even where only the first of the two is
outside. If the gaps between the stretches merely had to hold no such pair, `///` could be read in
two ways (`exists_two_looseReadings`), and a comment behind three slashes is the only thing that
could be read differently.

Two readings are compared from the front: the first stretch of one cannot start before that of the
other, which would leave the opening of a lexeme outside, and two lexemes with one start are the
same. The pieces are cut by characters and the grammar is about bytes, so each class of characters
is carried over to one of bytes (`Agree`). -/

namespace LanguageServer.Lexical

open Text

/-! ## Classes of bytes -/

namespace Byte

def between (lo hi : Char) (b : UInt8) : Bool := lo.toUInt8 ≤ b && b ≤ hi.toUInt8

def is (c : Char) (b : UInt8) : Bool := b == c.toUInt8

def isLetter (b : UInt8) : Bool := between 'A' 'Z' b || between 'a' 'z' b

def isDigit : UInt8 → Bool := between '0' '9'

def opensName (b : UInt8) : Bool := isLetter b || is '_' b

def continuesName (b : UInt8) : Bool := (isLetter b || isDigit b) || is '_' b

def continuesNumber (b : UInt8) : Bool := ((isLetter b || isDigit b) || is '.' b) || is '_' b

end Byte

/-- Whether a class of bytes stands for a class of characters: each byte of a character is in the
one as the character is in the other. -/
def Agree (q : UInt8 → Bool) (p : Char → Bool) : Prop :=
  ∀ c, ∀ b ∈ String.utf8EncodeChar c, q b = p c

theorem toNat_toUInt8 {c : Char} (h : c.toNat < 128) : c.toUInt8.toNat = c.toNat := by
  rw [← Char.toUInt8_val, UInt32.toNat_toUInt8]
  exact Nat.mod_eq_of_lt (Nat.lt_trans h (by decide))

/-- Classes of characters of one byte need to be compared on these only: longer characters have no
such byte. -/
theorem agree_of_ascii {q : UInt8 → Bool} {p : Char → Bool}
    (h : ∀ c : Char, c.toNat < 128 → q c.toUInt8 = p c) (hq : ∀ b, q b = true → b.toNat < 128)
    (hp : ∀ c : Char, p c = true → c.toNat < 128) : Agree q p := by
  intro c b hb
  have hsize : c.utf8Size = 1 ↔ c.toNat < 128 := by
    rw [Char.utf8Size_eq_one_iff, UInt32.le_iff_toNat_le]
    exact Nat.lt_succ_iff.symm
  by_cases hc : c.toNat < 128
  · -- the one byte is the code of the character
    rw [String.utf8EncodeChar_eq_singleton (hsize.2 hc), List.mem_singleton] at hb
    rw [hb, Char.toUInt8_val, h c hc]
  · have hle := Utf8.le_toNat_of_mem (fun h => hc (hsize.1 h)) hb
    rw [Bool.eq_false_iff.2 fun hbyte => Nat.not_lt.2 hle (hq b hbyte),
      Bool.eq_false_iff.2 fun hchar => hc (hp c hchar)]

theorem agree_between {lo hi : Char} (hlo : lo.toNat < 128) (hhi : hi.toNat < 128) :
    Agree (Byte.between lo hi)
      fun c => decide (lo.toNat ≤ c.toNat) && decide (c.toNat ≤ hi.toNat) := by
  refine agree_of_ascii ?_ ?_ ?_
  · intro c hc
    simp only [Byte.between, UInt8.le_iff_toNat_le, toNat_toUInt8 hlo, toNat_toUInt8 hhi,
      toNat_toUInt8 hc]
  · intro b hb
    simp only [Byte.between, UInt8.le_iff_toNat_le, toNat_toUInt8 hhi, Bool.and_eq_true,
      decide_eq_true_eq] at hb
    exact Nat.lt_of_le_of_lt hb.2 hhi
  · intro c hc
    simp only [Bool.and_eq_true, decide_eq_true_eq] at hc
    exact Nat.lt_of_le_of_lt hc.2 hhi

theorem agree_is {d : Char} (hd : d.toNat < 128) : Agree (Byte.is d) (· == d) := by
  refine agree_of_ascii ?_ ?_ ?_
  · intro c hc
    rw [Bool.eq_iff_iff, Byte.is, beq_iff_eq, beq_iff_eq, ← UInt8.toNat_inj, toNat_toUInt8 hc,
      toNat_toUInt8 hd, Char.toNat_inj]
  · intro b hb
    rwa [eq_of_beq hb, toNat_toUInt8 hd]
  · intro c hc
    rwa [eq_of_beq hc]

theorem Agree.or {q q' : UInt8 → Bool} {p p' : Char → Bool} (h : Agree q p) (h' : Agree q' p') :
    Agree (fun b => q b || q' b) fun c => p c || p' c := by
  intro c b hb
  simp only [h c b hb, h' c b hb]

theorem agree_isDigit : Agree Byte.isDigit Char.isDigit :=
  agree_between (by decide) (by decide)

theorem agree_isLetter : Agree Byte.isLetter Char.isAlpha := by
  have hupper : Char.isUpper
      = fun c => decide ('A'.toNat ≤ c.toNat) && decide (c.toNat ≤ 'Z'.toNat) := by
    funext c
    exact Bool.decide_and ..
  have hagree : Agree (Byte.between 'A' 'Z') Char.isUpper := by
    rw [hupper]
    exact agree_between (by decide) (by decide)
  exact hagree.or (agree_between (by decide) (by decide))

theorem agree_opensName : Agree Byte.opensName isNameStart :=
  agree_isLetter.or (agree_is (by decide))

theorem agree_continuesName : Agree Byte.continuesName isNameChar :=
  (agree_isLetter.or agree_isDigit).or (agree_is (by decide))

theorem agree_continuesNumber : Agree Byte.continuesNumber isNumberChar :=
  ((agree_isLetter.or agree_isDigit).or (agree_is (by decide))).or (agree_is (by decide))

/-- Whether a byte of some class stands at an offset. -/
def hasAt (bytes : List UInt8) (q : UInt8 → Bool) (i : Nat) : Bool := bytes[i]?.any q

theorem hasAt_eq_false_of_le {bytes : List UInt8} {i : Nat} (h : bytes.length ≤ i)
    (q : UInt8 → Bool) : hasAt bytes q i = false := by
  rw [hasAt, List.getElem?_eq_none h, Option.any_none]

theorem hasAt_append (before after : List Char) (q : UInt8 → Bool) (k : Nat) :
    hasAt (Utf8.bytes (before ++ after)) q (byteLength before + k)
      = hasAt (Utf8.bytes after) q k := by
  rw [hasAt, hasAt, Utf8.getElem?_bytes]

/-- All bytes of a character are in the class that the character is in. -/
theorem hasAt_char {q : UInt8 → Bool} {p : Char → Bool} (h : Agree q p) {c : Char} {k : Nat}
    (hk : k < c.utf8Size) (after : List Char) : hasAt (Utf8.bytes (c :: after)) q k = p c := by
  have hlength : k < (String.utf8EncodeChar c).length := by rwa [String.length_utf8EncodeChar]
  rw [hasAt, Utf8.getElem?_bytes_cons hk, List.getElem?_eq_getElem hlength, Option.any_some,
    h c _ (List.getElem_mem hlength)]

theorem hasAt_here {q : UInt8 → Bool} {p : Char → Bool} (h : Agree q p) (before : List Char)
    (c : Char) (after : List Char) :
    hasAt (Utf8.bytes (before ++ c :: after)) q (byteLength before) = p c := by
  have hzero := hasAt_append before (c :: after) q 0
  rwa [Nat.add_zero, hasAt_char h c.utf8Size_pos] at hzero

/-- Characters of a class, taken from the front, are bytes of the class, taken from the front. -/
theorem takeWhile_bytes {q : UInt8 → Bool} {p : Char → Bool} (h : Agree q p) (cs : List Char) :
    (Utf8.bytes cs).takeWhile q = Utf8.bytes (cs.takeWhile p) := by
  induction cs with
  | nil => rfl
  | cons c rest ih =>
    rw [Utf8.bytes_cons]
    cases hc : p c with
    | true =>
      rw [List.takeWhile_append_of_pos fun b hb => (h c b hb).trans hc, ih,
        List.takeWhile_cons_of_pos hc, Utf8.bytes_cons]
    | false =>
      rw [List.takeWhile_cons_of_neg (by simp [hc])]
      cases hbytes : String.utf8EncodeChar c with
      | nil => exact absurd hbytes String.utf8EncodeChar_ne_nil
      | cons b bs =>
        have hb : q b = false := (h c b (by simp [hbytes])).trans hc
        rw [List.cons_append, List.takeWhile_cons_of_neg (by simp [hb])]
        rfl

/-! ## The grammar -/

/-- The bytes of a class from `start` on go as far as `stop` and no further. -/
structure IsRun (bytes : List UInt8) (q : UInt8 → Bool) (start stop : Nat) : Prop where
  le : start ≤ stop
  inside : ∀ i, start ≤ i → i < stop → hasAt bytes q i = true
  ends : hasAt bytes q stop = false

/-- How many backslashes stand in a row right before an offset, of those behind `start`. -/
def slashesBefore (bytes : List UInt8) (start : Nat) : Nat → Nat
  | 0 => 0
  | i + 1 =>
    if start < i ∧ hasAt bytes (Byte.is '\\') i = true then slashesBefore bytes start i + 1 else 0

/-- Whether the quote that closes a string can stand here: a quote with an even number of
backslashes before it, in the string that opens at `start`. -/
def IsClosing (bytes : List UInt8) (start i : Nat) : Prop :=
  start < i ∧ hasAt bytes (Byte.is '"') i = true ∧ slashesBefore bytes start i % 2 = 0

/-- A string ends behind the first quote that can close it, or with the line if none can. -/
def EndsString (bytes : List UInt8) (start stop : Nat) : Prop :=
  (∃ i, IsClosing bytes start i ∧ (∀ j < i, ¬ IsClosing bytes start j) ∧ stop = i + 1) ∨
    ((∀ i, ¬ IsClosing bytes start i) ∧ stop = bytes.length)

/-- Whether two slashes stand here. -/
def startsPair (bytes : List UInt8) (i : Nat) : Bool :=
  hasAt bytes (Byte.is '/') i && hasAt bytes (Byte.is '/') (i + 1)

def opensComment (bytes : List UInt8) (i : Nat) : Bool :=
  hasAt bytes (Byte.is '#') i || startsPair bytes i

def IsName (bytes : List UInt8) (start stop : Nat) : Prop :=
  hasAt bytes Byte.opensName start = true ∧ IsRun bytes Byte.continuesName (start + 1) stop

def IsKeyword (bytes : List UInt8) (start stop : Nat) : Prop :=
  ∃ word ∈ keywords, Utf8.encode word = bytes.extract start stop

/-- What the lexemes of each kind are. -/
def IsLexeme (bytes : List UInt8) (start stop : Nat) : Kind → Prop
  | .comment => opensComment bytes start = true ∧ stop = bytes.length
  | .string => hasAt bytes (Byte.is '"') start = true ∧ EndsString bytes start stop
  | .number =>
    hasAt bytes Byte.isDigit start = true ∧ IsRun bytes Byte.continuesNumber (start + 1) stop
  | .keyword => IsName bytes start stop ∧ IsKeyword bytes start stop
  | .variable => IsName bytes start stop ∧ ¬ IsKeyword bytes start stop

/-- Whether a lexeme opens here, whatever comes behind it. A pair of slashes opens a comment at the
first of the two, so that one is in no gap, not even as its last byte. -/
def opens (bytes : List UInt8) (i : Nat) : Bool :=
  ((opensComment bytes i || hasAt bytes (Byte.is '"') i) || hasAt bytes Byte.isDigit i) ||
    hasAt bytes Byte.opensName i

/-- A stretch of the bytes of a line and what it is. -/
structure Span where
  start : Nat
  stop : Nat
  kind : Kind
deriving DecidableEq, Repr

/-- Stretches of bytes from offset `first` on that lie one behind the other, each a lexeme. -/
structure AreLexemes (bytes : List UInt8) (first : Nat) (spans : List Span) : Prop where
  inside : ∀ s ∈ spans, first ≤ s.start ∧ s.start < s.stop ∧ s.stop ≤ bytes.length
  ordered : spans.Pairwise fun s t => s.stop ≤ t.start
  lexemes : ∀ s ∈ spans, IsLexeme bytes s.start s.stop s.kind

/-- Whether an offset is in none of the stretches. -/
def InGap (spans : List Span) (i : Nat) : Prop := ∀ s ∈ spans, ¬ (s.start ≤ i ∧ i < s.stop)

/-- Stretches of bytes are the lexemes from offset `first` on: no lexeme opens in the gaps that
they leave. -/
structure IsReading (bytes : List UInt8) (first : Nat) (spans : List Span) : Prop extends
    AreLexemes bytes first spans where
  gaps : ∀ i, first ≤ i → InGap spans i → opens bytes i = false

/-- Whether a byte stands here that opens a lexeme by itself. -/
def opensAlone (bytes : List UInt8) (i : Nat) : Bool :=
  ((hasAt bytes (Byte.is '#') i || hasAt bytes (Byte.is '"') i) || hasAt bytes Byte.isDigit i) ||
    hasAt bytes Byte.opensName i

/-- The gaps hold no byte that opens a lexeme by itself, and no pair of slashes. This is less than a
reading asks for: a gap may still end with the first of two slashes. -/
structure IsLooseReading (bytes : List UInt8) (first : Nat) (spans : List Span) : Prop extends
    AreLexemes bytes first spans where
  gaps : ∀ i, first ≤ i → InGap spans i → opensAlone bytes i = false
  pairs : ∀ i, first ≤ i → InGap spans i → InGap spans (i + 1) → startsPair bytes i = false

/-! ## There is one reading -/

section Unique

variable {bytes : List UInt8} {start stop stop' : Nat}

theorem IsRun.stop_le {q : UInt8 → Bool} (h : IsRun bytes q start stop)
    (h' : IsRun bytes q start stop') : stop ≤ stop' := by
  refine Nat.le_of_not_lt fun hlt => ?_
  have hinside := h.inside stop' h'.le hlt
  rw [h'.ends] at hinside
  exact absurd hinside (by decide)

theorem IsRun.unique {q : UInt8 → Bool} (h : IsRun bytes q start stop)
    (h' : IsRun bytes q start stop') : stop = stop' :=
  Nat.le_antisymm (h.stop_le h') (h'.stop_le h)

theorem EndsString.unique (h : EndsString bytes start stop) (h' : EndsString bytes start stop') :
    stop = stop' := by
  rcases h with ⟨i, hi, hfirst, rfl⟩ | ⟨hnone, rfl⟩
  · rcases h' with ⟨j, hj, hfirst', rfl⟩ | ⟨hnone, rfl⟩
    · rcases Nat.lt_trichotomy i j with hlt | heq | hgt
      · exact absurd hi (hfirst' i hlt)
      · rw [heq]
      · exact absurd hj (hfirst j hgt)
    · exact absurd hi (hnone i)
  · rcases h' with ⟨j, hj, -, rfl⟩ | ⟨-, rfl⟩
    · exact absurd hj (hnone j)
    · rfl

/-- The four ways in which lexemes start, of which keywords and other names share one. -/
def Kind.rank : Kind → Nat
  | .comment => 0
  | .string => 1
  | .number => 2
  | .keyword => 3
  | .variable => 3

/-- The way in which a lexeme starts that starts with this byte. -/
def rankOf (b : UInt8) : Nat :=
  if Byte.isDigit b then 2 else if Byte.opensName b then 3 else if Byte.is '"' b then 1 else 0

theorem isDigit_of_opensName {b : UInt8} (h : Byte.opensName b = true) :
    Byte.isDigit b = false := by
  have hA : 'A'.toUInt8.toNat = 65 := rfl
  have ha : 'a'.toUInt8.toNat = 97 := rfl
  have hline : '_'.toUInt8.toNat = 95 := rfl
  have h9 : '9'.toUInt8.toNat = 57 := rfl
  simp only [Byte.opensName, Byte.isLetter, Byte.between, Byte.is, Bool.or_eq_true,
    Bool.and_eq_true, decide_eq_true_eq, beq_iff_eq, UInt8.le_iff_toNat_le, ← UInt8.toNat_inj] at h
  simp only [Byte.isDigit, Byte.between, Bool.and_eq_false_iff, decide_eq_false_iff_not,
    UInt8.le_iff_toNat_le]
  omega

theorem IsLexeme.rank_eq {kind : Kind} (h : IsLexeme bytes start stop kind) :
    bytes[start]?.map rankOf = some kind.rank := by
  have hbyte {q : UInt8 → Bool} (hq : hasAt bytes q start = true) :
      ∃ b, bytes[start]? = some b ∧ q b = true := (Option.any_eq_true ..).1 hq
  have hname (h : IsName bytes start stop) : bytes[start]?.map rankOf = some 3 := by
    obtain ⟨b, hb, hopens⟩ := hbyte h.1
    simp [hb, rankOf, hopens, isDigit_of_opensName hopens]
  cases kind with
  | comment =>
    rcases Bool.or_eq_true_iff.1 h.1 with hhash | hpair
    · obtain ⟨b, hb, his⟩ := hbyte hhash
      rw [hb, eq_of_beq his]
      rfl
    · obtain ⟨b, hb, his⟩ := hbyte (Bool.and_eq_true_iff.1 hpair).1
      rw [hb, eq_of_beq his]
      rfl
  | string =>
    obtain ⟨b, hb, his⟩ := hbyte h.1
    rw [hb, eq_of_beq his]
    rfl
  | number =>
    obtain ⟨b, hb, hdigit⟩ := hbyte h.1
    simp [hb, rankOf, hdigit, Kind.rank]
  | keyword => exact hname h.1
  | «variable» => exact hname h.1

/-- Two lexemes with one start are the same. -/
theorem IsLexeme.unique {kind kind' : Kind} (h : IsLexeme bytes start stop kind)
    (h' : IsLexeme bytes start stop' kind') : stop = stop' ∧ kind = kind' := by
  have hrank : kind.rank = kind'.rank := Option.some.inj (h.rank_eq.symm.trans h'.rank_eq)
  cases kind <;> cases kind' <;> try exact absurd hrank (by decide)
  case comment.comment => exact ⟨h.2.trans h'.2.symm, rfl⟩
  case string.string => exact ⟨h.2.unique h'.2, rfl⟩
  case number.number => exact ⟨h.2.unique h'.2, rfl⟩
  -- names end together, and then both are keywords or neither is
  all_goals obtain rfl := h.1.2.unique h'.1.2
  case keyword.keyword => exact ⟨rfl, rfl⟩
  case keyword.variable => exact absurd h.2 h'.2
  case variable.keyword => exact absurd h'.2 h.2
  case variable.variable => exact ⟨rfl, rfl⟩

theorem IsLexeme.opens {kind : Kind} (h : IsLexeme bytes start stop kind) :
    opens bytes start = true := by
  simp only [Lexical.opens, Bool.or_eq_true]
  cases kind with
  | comment => exact .inl (.inl (.inl h.1))
  | string => exact .inl (.inl (.inr h.1))
  | number => exact .inl (.inr h.1)
  | keyword => exact .inr h.1.1
  | «variable» => exact .inr h.1.1

variable {first : Nat} {s t : Span} {spans spans' : List Span}

namespace AreLexemes

theorem inGap_of_lt (h : AreLexemes bytes first (s :: spans)) {i : Nat} (hi : i < s.start) :
    InGap (s :: spans) i := by
  intro t ht hcovers
  have hs := h.inside s List.mem_cons_self
  rcases List.mem_cons.1 ht with rfl | ht
  · omega
  · have := (List.pairwise_cons.1 h.ordered).1 t ht
    omega

theorem tail (h : AreLexemes bytes first (s :: spans)) : AreLexemes bytes s.stop spans where
  inside t ht :=
    ⟨(List.pairwise_cons.1 h.ordered).1 t ht, (h.inside t (List.mem_cons_of_mem s ht)).2⟩
  ordered := (List.pairwise_cons.1 h.ordered).2
  lexemes t ht := h.lexemes t (List.mem_cons_of_mem s ht)

/-- Behind the first stretch, the gaps are those of the others. -/
theorem inGap_cons (h : AreLexemes bytes first (s :: spans)) {i : Nat} (hi : s.stop ≤ i)
    (hgap : InGap spans i) : first ≤ i ∧ InGap (s :: spans) i := by
  have hs := h.inside s List.mem_cons_self
  refine ⟨by omega, fun t ht => ?_⟩
  rcases List.mem_cons.1 ht with rfl | ht
  · omega
  · exact hgap t ht

/-- Nothing follows a stretch up to the end of the line. -/
theorem tail_eq_nil (h : AreLexemes bytes first (s :: spans)) (hstop : s.stop = bytes.length) :
    spans = [] := by
  refine List.eq_nil_iff_forall_not_mem.2 fun t ht => ?_
  have := h.tail.inside t ht
  omega

theorem head_eq (h : AreLexemes bytes first (s :: spans))
    (h' : AreLexemes bytes first (t :: spans')) (hstart : s.start = t.start) : s = t := by
  have hs := h.lexemes s List.mem_cons_self
  rw [hstart] at hs
  have hsame := hs.unique (h'.lexemes t List.mem_cons_self)
  cases s
  cases t
  simp_all

end AreLexemes

/-- A lexeme is in no gap, so none starts before the first one of a reading. -/
theorem IsReading.start_le (h : IsReading bytes first (s :: spans))
    (h' : AreLexemes bytes first spans') (ht : t ∈ spans') : s.start ≤ t.start := by
  refine Nat.le_of_not_lt fun hlt => ?_
  have hgap := h.gaps t.start (h'.inside t ht).1 (h.inGap_of_lt hlt)
  rw [(h'.lexemes t ht).opens] at hgap
  exact absurd hgap (by decide)

theorem IsReading.tail (h : IsReading bytes first (s :: spans)) :
    IsReading bytes s.stop spans where
  toAreLexemes := h.toAreLexemes.tail
  gaps i hi hgap :=
    have ⟨hfirst, hout⟩ := h.inGap_cons hi hgap
    h.gaps i hfirst hout

theorem IsReading.eq_nil (h : IsReading bytes first []) (h' : AreLexemes bytes first spans) :
    spans = [] := by
  refine List.eq_nil_iff_forall_not_mem.2 fun t ht => ?_
  have hgap := h.gaps t.start (h'.inside t ht).1 fun u hu => absurd hu List.not_mem_nil
  rw [(h'.lexemes t ht).opens] at hgap
  exact absurd hgap (by decide)

theorem IsReading.unique (h : IsReading bytes first spans) (h' : IsReading bytes first spans') :
    spans = spans' := by
  induction spans generalizing first spans' with
  | nil => exact (h.eq_nil h'.toAreLexemes).symm
  | cons s rest ih =>
    cases spans' with
    | nil => exact h'.eq_nil h.toAreLexemes
    | cons t rest' =>
      -- both start with the same lexeme, so the rests are readings from one offset on
      obtain rfl : s = t := h.head_eq h'.toAreLexemes
        (Nat.le_antisymm (h.start_le h'.toAreLexemes List.mem_cons_self)
          (h'.start_le h.toAreLexemes List.mem_cons_self))
      rw [ih h.tail h'.tail]

/-! ## Loose readings -/

theorem opens_eq_false_iff {i : Nat} :
    Lexical.opens bytes i = false ↔ opensAlone bytes i = false ∧ startsPair bytes i = false := by
  rw [← Bool.or_eq_false_iff]
  simp only [Lexical.opens, opensComment, opensAlone]
  rw [Bool.or_right_comm (hasAt bytes (Byte.is '#') i), Bool.or_right_comm _ (startsPair bytes i),
    Bool.or_right_comm _ (startsPair bytes i)]

theorem IsReading.loose (h : IsReading bytes first spans) : IsLooseReading bytes first spans where
  toAreLexemes := h.toAreLexemes
  gaps i hi hgap := (opens_eq_false_iff.1 (h.gaps i hi hgap)).1
  pairs i hi hgap _ := (opens_eq_false_iff.1 (h.gaps i hi hgap)).2

theorem IsLooseReading.tail (h : IsLooseReading bytes first (s :: spans)) :
    IsLooseReading bytes s.stop spans where
  toAreLexemes := h.toAreLexemes.tail
  gaps i hi hgap :=
    have ⟨hfirst, hout⟩ := h.inGap_cons hi hgap
    h.gaps i hfirst hout
  pairs i hi hgap hnext :=
    have ⟨hfirst, hout⟩ := h.inGap_cons hi hgap
    h.pairs i hfirst hout (h.inGap_cons (Nat.le_succ_of_le hi) hnext).2

theorem lt_length_of_hasAt {q : UInt8 → Bool} {i : Nat} (h : hasAt bytes q i = true) :
    i < bytes.length := by
  refine Nat.lt_of_not_le fun hle => ?_
  rw [hasAt_eq_false_of_le hle] at h
  exact absurd h (by decide)

theorem opensAlone_of_slash {i : Nat} (h : hasAt bytes (Byte.is '/') i = true) :
    opensAlone bytes i = false := by
  simp only [hasAt, Option.any_eq_true] at h
  obtain ⟨b, hb, hslash⟩ := h
  obtain rfl : b = '/'.toUInt8 := eq_of_beq hslash
  simp only [opensAlone, hasAt, hb, Option.any_some]
  decide

/-- The only lexeme that no byte opens by itself is a comment. -/
theorem IsLexeme.startsPair {kind : Kind} (h : IsLexeme bytes start stop kind)
    (halone : opensAlone bytes start = false) :
    Lexical.startsPair bytes start = true ∧ stop = bytes.length ∧ kind = .comment := by
  simp only [opensAlone, Bool.or_eq_false_iff] at halone
  obtain ⟨⟨⟨hhash, hquote⟩, hdigit⟩, hname⟩ := halone
  cases kind with
  | comment =>
    have hopens := h.1
    rw [opensComment, hhash, Bool.false_or] at hopens
    exact ⟨hopens, h.2, rfl⟩
  | string => exact absurd h.1 (Bool.eq_false_iff.1 hquote)
  | number => exact absurd h.1 (Bool.eq_false_iff.1 hdigit)
  | keyword => exact absurd h.1.1 (Bool.eq_false_iff.1 hname)
  | «variable» => exact absurd h.1.1 (Bool.eq_false_iff.1 hname)

/-- The stretches differ in the comment only: it opens with three slashes, and in `found` it starts
at the second of them. -/
def StartsLate (bytes : List UInt8) (spans found : List Span) : Prop :=
  ∃ before start, startsPair bytes start = true ∧ startsPair bytes (start + 1) = true ∧
    spans = before ++ [⟨start, bytes.length, .comment⟩] ∧
    found = before ++ [⟨start + 1, bytes.length, .comment⟩]

theorem IsReading.loose_of_startsLate {found : List Span} (h : IsReading bytes first spans)
    (hlate : StartsLate bytes spans found) : IsLooseReading bytes first found := by
  obtain ⟨before, start, hpair, hnext, rfl, rfl⟩ := hlate
  have hslash : hasAt bytes (Byte.is '/') start = true := (Bool.and_eq_true_iff.1 hpair).1
  have hlt : start + 1 < bytes.length := lt_length_of_hasAt (Bool.and_eq_true_iff.1 hpair).2
  have hcomment := h.inside _ List.mem_concat_self
  have hordered := List.pairwise_append.1 h.ordered
  -- the first slash is the one byte that the comment leaves
  have hgap {i : Nat} (hi : InGap (before ++ [⟨start + 1, bytes.length, .comment⟩]) i)
      (hne : i ≠ start) : InGap (before ++ [⟨start, bytes.length, .comment⟩]) i := by
    intro s hs
    rcases List.mem_append.1 hs with hs | hs
    · exact hi s (List.mem_append_left _ hs)
    · obtain rfl := List.mem_singleton.1 hs
      have hout := hi _ List.mem_concat_self
      dsimp only at hout ⊢
      omega
  refine ⟨⟨?_, ?_, ?_⟩, fun i hi hin => ?_, fun i hi hin hin' => ?_⟩
  · intro s hs
    rcases List.mem_append.1 hs with hs | hs
    · exact h.inside s (List.mem_append_left _ hs)
    · obtain rfl := List.mem_singleton.1 hs
      exact ⟨Nat.le_succ_of_le hcomment.1, hlt, Nat.le_refl _⟩
  · refine List.pairwise_append.2 ⟨hordered.1, List.pairwise_singleton .., fun s hs t ht => ?_⟩
    obtain rfl := List.mem_singleton.1 ht
    exact Nat.le_succ_of_le (hordered.2.2 s hs _ List.mem_cons_self)
  · intro s hs
    rcases List.mem_append.1 hs with hs | hs
    · exact h.lexemes s (List.mem_append_left _ hs)
    · obtain rfl := List.mem_singleton.1 hs
      exact ⟨by rw [opensComment, hnext, Bool.or_true], rfl⟩
  · by_cases hstart : i = start
    · rw [hstart, opensAlone_of_slash hslash]
    · exact (opens_eq_false_iff.1 (h.gaps i hi (hgap hin hstart))).1
  · have hstart : i ≠ start := by
      rintro rfl
      exact hin' _ List.mem_concat_self ⟨Nat.le_refl _, hlt⟩
    exact (opens_eq_false_iff.1 (h.gaps i hi (hgap hin hstart))).2

/-- A loose reading that is not the reading leaves the first of two slashes out of a comment, which
then opens with the second. -/
theorem IsReading.eq_or_startsLate {found : List Span} (h : IsReading bytes first spans)
    (h' : IsLooseReading bytes first found) : found = spans ∨ StartsLate bytes spans found := by
  induction spans generalizing first found with
  | nil => exact .inl (h.eq_nil h'.toAreLexemes)
  | cons t rest ih =>
    have ht := h.lexemes t List.mem_cons_self
    have hfirst := (h.inside t List.mem_cons_self).1
    cases found with
    | nil =>
      have hnone (i : Nat) : InGap [] i := fun s hs => absurd hs List.not_mem_nil
      have hpair := (ht.startsPair (h'.gaps t.start hfirst (hnone _))).1
      rw [h'.pairs t.start hfirst (hnone _) (hnone _)] at hpair
      exact absurd hpair (by decide)
    | cons s rest' =>
      have hs := h'.lexemes s List.mem_cons_self
      rcases Nat.eq_or_lt_of_le (h.start_le h'.toAreLexemes List.mem_cons_self) with heq | hlt
      · obtain rfl := h.head_eq h'.toAreLexemes heq
        rcases ih h.tail h'.tail with rfl | ⟨before, start, hpair, hnext, rfl, rfl⟩
        · exact .inl rfl
        · exact .inr ⟨t :: before, start, hpair, hnext, rfl, rfl⟩
      · obtain ⟨hpair, hstop, hkind⟩ := ht.startsPair (h'.gaps t.start hfirst (h'.inGap_of_lt hlt))
        have hstart : s.start = t.start + 1 := by
          refine (Nat.eq_or_lt_of_le hlt).elim Eq.symm fun hgap => ?_
          rw [h'.pairs t.start hfirst (h'.inGap_of_lt hlt) (h'.inGap_of_lt hgap)] at hpair
          exact absurd hpair (by decide)
        rw [hstart] at hs
        obtain ⟨hnext, hstop', hkind'⟩ :=
          hs.startsPair (opensAlone_of_slash (Bool.and_eq_true_iff.1 hpair).2)
        obtain rfl := h.tail_eq_nil hstop
        obtain rfl := h'.tail_eq_nil hstop'
        refine .inr ⟨[], t.start, hpair, hnext, ?_, ?_⟩
        · rw [← hstop, ← hkind]
          rfl
        · rw [← hstart, ← hstop', ← hkind']
          rfl

end Unique

/-! ## Where runs and strings end -/

theorem any_getElem?_takeWhile (q : UInt8 → Bool) (bytes : List UInt8) :
    (∀ k < (bytes.takeWhile q).length, bytes[k]?.any q = true) ∧
      bytes[(bytes.takeWhile q).length]?.any q = false := by
  induction bytes with
  | nil => exact ⟨fun k hk => absurd hk (Nat.not_lt_zero k), rfl⟩
  | cons b rest ih =>
    cases hb : q b with
    | false =>
      rw [List.takeWhile_cons_of_neg (by simp [hb])]
      exact ⟨fun k hk => absurd hk (Nat.not_lt_zero k), by simpa using hb⟩
    | true =>
      rw [List.takeWhile_cons_of_pos hb, List.length_cons]
      refine ⟨fun k hk => ?_, ih.2⟩
      cases k with
      | zero => simpa using hb
      | succ k => exact ih.1 k (Nat.lt_of_succ_lt_succ hk)

theorem isRun_takeWhile (bytes : List UInt8) (q : UInt8 → Bool) (i : Nat) :
    IsRun bytes q i (i + ((bytes.drop i).takeWhile q).length) := by
  obtain ⟨hinside, hends⟩ := any_getElem?_takeWhile q (bytes.drop i)
  refine ⟨Nat.le_add_right .., fun j hij hj => ?_, ?_⟩
  · obtain ⟨k, rfl⟩ := Nat.exists_eq_add_of_le hij
    rw [hasAt, ← List.getElem?_drop]
    exact hinside k (Nat.lt_of_add_lt_add_left hj)
  · rwa [hasAt, ← List.getElem?_drop]

/-- How many bytes are left of a string up to its end. -/
def closing : (escaped : Bool) → List UInt8 → Nat
  | _, [] => 0
  | escaped, b :: rest =>
    if Byte.is '"' b && !escaped then 1 else closing (Byte.is '\\' b && !escaped) rest + 1

/-- A walk through the string that opens at `start` has come to `i`: the string has not been closed,
and `escaped` says that an odd number of backslashes stands right before `i`. -/
structure InString (bytes : List UInt8) (start i : Nat) (escaped : Bool) : Prop where
  lt : start < i
  le : i ≤ bytes.length
  parity : escaped = true ↔ slashesBefore bytes start i % 2 = 1
  unclosed : ∀ j < i, ¬ IsClosing bytes start j

namespace InString

variable {bytes : List UInt8} {start i : Nat} {escaped : Bool} {b : UInt8}

theorem isClosing_iff (h : InString bytes start i escaped) (hb : bytes[i]? = some b) :
    IsClosing bytes start i ↔ (Byte.is '"' b && !escaped) = true := by
  have hparity := h.parity
  rw [IsClosing, hasAt, hb, Option.any_some, Bool.and_eq_true, Bool.not_eq_true',
    ← Bool.not_eq_true, hparity]
  constructor
  · rintro ⟨-, hquote, heven⟩
    exact ⟨hquote, by omega⟩
  · rintro ⟨hquote, hodd⟩
    exact ⟨h.lt, hquote, by omega⟩

theorem step (h : InString bytes start i escaped) (hb : bytes[i]? = some b)
    (hopen : (Byte.is '"' b && !escaped) = false) :
    InString bytes start (i + 1) (Byte.is '\\' b && !escaped) where
  lt := Nat.lt_succ_of_lt h.lt
  le := (List.getElem?_eq_some_iff.1 hb).1
  parity := by
    have hparity := h.parity
    rw [slashesBefore, hasAt, hb, Option.any_some]
    cases hslash : Byte.is '\\' b with
    | false => simp
    | true =>
      rw [if_pos ⟨h.lt, rfl⟩, Bool.true_and, Bool.not_eq_true', ← Bool.not_eq_true, hparity]
      omega
  unclosed j hj := by
    rcases Nat.lt_succ_iff_lt_or_eq.1 hj with hlt | rfl
    · exact h.unclosed j hlt
    · rw [h.isClosing_iff hb, hopen]
      exact Bool.false_ne_true

theorem endsString (h : InString bytes start i escaped) {rest : List UInt8}
    (hrest : bytes.drop i = rest) : EndsString bytes start (i + closing escaped rest) := by
  induction rest generalizing i escaped with
  | nil =>
    have hend : bytes.length ≤ i := List.drop_eq_nil_iff.1 hrest
    refine .inr ⟨fun j hj => ?_, Nat.le_antisymm h.le hend⟩
    rcases Nat.lt_or_ge j i with hlt | hge
    · exact h.unclosed j hlt hj
    · have hquote := hj.2.1
      rw [hasAt_eq_false_of_le (Nat.le_trans hend hge)] at hquote
      exact absurd hquote (by decide)
  | cons b rest ih =>
    have hb : bytes[i]? = some b := by
      have hfirst := congrArg (·[0]?) hrest
      simpa using hfirst
    have hnext : bytes.drop (i + 1) = rest := by
      rw [← List.drop_drop, hrest]
      rfl
    rw [closing]
    cases hclose : (Byte.is '"' b && !escaped) with
    | true => exact .inl ⟨i, (h.isClosing_iff hb).2 hclose, h.unclosed, rfl⟩
    | false =>
      have hends := ih (h.step hb hclose) hnext
      rwa [Nat.add_assoc, Nat.add_comm 1] at hends

end InString

theorem closing_append {plain : List UInt8} (hne : plain ≠ []) (rest : List UInt8) (escaped : Bool)
    (h : ∀ b ∈ plain, Byte.is '\\' b = false ∧ Byte.is '"' b = false) :
    closing escaped (plain ++ rest) = plain.length + closing false rest := by
  induction plain generalizing escaped with
  | nil => exact absurd rfl hne
  | cons b bs ih =>
    obtain ⟨hslash, hquote⟩ := h b List.mem_cons_self
    rw [List.cons_append, closing, hquote, hslash, Bool.false_and, if_neg Bool.false_ne_true,
      List.length_cons]
    cases bs with
    | nil => exact Nat.add_comm ..
    | cons b' bs =>
      rw [ih (List.cons_ne_nil b' bs) false fun x hx => h x (List.mem_cons_of_mem b hx)]
      exact Nat.add_right_comm ..

/-- The rest of a string takes as many bytes as the walk through its bytes passes. -/
theorem closing_bytes (escaped : Bool) (cs : List Char) :
    closing escaped (Utf8.bytes cs) = byteLength (stringRest escaped cs).1 := by
  induction cs generalizing escaped with
  | nil => rfl
  | cons c rest ih =>
    by_cases hslash : c = '\\'
    · subst hslash
      cases escaped with
      | true => exact (Nat.add_comm ..).trans (congrArg (1 + ·) (ih false))
      | false => exact (Nat.add_comm ..).trans (congrArg (1 + ·) (ih true))
    · by_cases hquote : c = '"'
      · subst hquote
        cases escaped with
        | true => exact (Nat.add_comm ..).trans (congrArg (1 + ·) (ih false))
        | false => rfl
      · have hplain : ∀ b ∈ String.utf8EncodeChar c,
            Byte.is '\\' b = false ∧ Byte.is '"' b = false := by
          intro b hb
          rw [agree_is (by decide) c b hb, agree_is (by decide) c b hb]
          exact ⟨beq_false_of_ne hslash, beq_false_of_ne hquote⟩
        rw [Utf8.bytes_cons, closing_append String.utf8EncodeChar_ne_nil _ _ hplain,
          String.length_utf8EncodeChar, ih, stringRest, if_neg (by simp [hslash]),
          if_neg (by simp [hquote])]
        rfl

/-! ## The pieces of a line are a reading -/

theorem byteLength_pos {cs : List Char} (h : cs ≠ []) : 0 < byteLength cs :=
  Nat.pos_of_ne_zero fun hzero => h (byteLength_eq_zero.1 hzero)

/-- Where the lexemes among some pieces lie, if the first piece starts at this offset. -/
def spansFrom : (start : Nat) → List Piece → List Span
  | _, [] => []
  | start, .gap c :: rest => spansFrom (start + c.utf8Size) rest
  | start, .lexeme kind cs :: rest =>
    ⟨start, start + byteLength cs, kind⟩ :: spansFrom (start + byteLength cs) rest

/-- Where the lexemes of a line lie. -/
def spans (line : List Char) : List Span := spansFrom 0 (pieces line)

theorem isReading_nil {bytes : List UInt8} {first : Nat} (h : bytes.length ≤ first) :
    IsReading bytes first [] where
  inside _ hs := absurd hs List.not_mem_nil
  ordered := .nil
  lexemes _ hs := absurd hs List.not_mem_nil
  gaps i hi _ := by
    simp only [opens, opensComment, startsPair, hasAt_eq_false_of_le (Nat.le_trans h hi),
      Bool.or_false, Bool.false_and]

theorem IsReading.cons {bytes : List UInt8} {s : Span} {rest : List Span}
    (h : IsReading bytes s.stop rest) (hs : IsLexeme bytes s.start s.stop s.kind)
    (hlt : s.start < s.stop) (hle : s.stop ≤ bytes.length) :
    IsReading bytes s.start (s :: rest) where
  inside t ht := by
    rcases List.mem_cons.1 ht with rfl | ht
    · exact ⟨Nat.le_refl _, hlt, hle⟩
    · have := h.inside t ht
      omega
  ordered := List.pairwise_cons.2 ⟨fun t ht => (h.inside t ht).1, h.ordered⟩
  lexemes t ht := by
    rcases List.mem_cons.1 ht with rfl | ht
    · exact hs
    · exact h.lexemes t ht
  gaps i hi hout := by
    have hpast := hout s List.mem_cons_self
    exact h.gaps i (by omega) fun t ht => hout t (List.mem_cons_of_mem s ht)

theorem IsReading.skip {bytes : List UInt8} {first next : Nat} {spans : List Span}
    (h : IsReading bytes next spans) (hle : first ≤ next)
    (hgap : ∀ i, first ≤ i → i < next → opens bytes i = false) : IsReading bytes first spans where
  inside t ht := ⟨Nat.le_trans hle (h.inside t ht).1, (h.inside t ht).2⟩
  ordered := h.ordered
  lexemes := h.lexemes
  gaps i hi hout := by
    rcases Nat.lt_or_ge i next with hlt | hge
    · exact hgap i hi hlt
    · exact h.gaps i hge hout

section Pieces

variable (before : List Char)

theorem opensComment_here (cs : List Char) :
    opensComment (Utf8.bytes (before ++ cs)) (byteLength before) = startsComment cs := by
  cases cs with
  | nil =>
    have hend : (Utf8.bytes (before ++ [])).length ≤ byteLength before := by
      simp [Utf8.length_bytes]
    simp only [opensComment, startsPair, hasAt_eq_false_of_le hend, Bool.false_and, Bool.or_false]
    rfl
  | cons c rest =>
    rw [opensComment, startsPair, hasAt_here (agree_is (by decide)),
      hasAt_here (agree_is (by decide))]
    by_cases hhash : c = '#'
    · subst hhash
      rfl
    · by_cases hslash : c = '/'
      · subst hslash
        -- a slash is one byte, so the byte behind it is the first of the next character
        have hsecond := hasAt_append (before ++ ['/']) rest (Byte.is '/') 0
        rw [List.append_assoc, byteLength_append] at hsecond
        cases rest with
        | nil => exact hsecond
        | cons d rest =>
          rw [hasAt_char (agree_is (by decide)) d.utf8Size_pos] at hsecond
          refine hsecond.trans ?_
          by_cases hd : d = '/'
          · subst hd
            rfl
          · rw [beq_false_of_ne hd]
            simp [startsComment, hd]
      · rw [beq_false_of_ne hhash, beq_false_of_ne hslash]
        simp [startsComment, hhash, hslash]

/-- No lexeme opens at a byte of a character that starts none. -/
theorem opens_gap {c : Char} {rest : List Char} (hcomment : startsComment (c :: rest) = false)
    (hquote : c ≠ '"') (hdigit : c.isDigit = false) (hname : isNameStart c = false) {k : Nat}
    (hk : k < c.utf8Size) :
    opens (Utf8.bytes (before ++ c :: rest)) (byteLength before + k) = false := by
  have hopens :
      opensComment (Utf8.bytes (before ++ c :: rest)) (byteLength before + k) = false := by
    by_cases hslash : c = '/'
    · subst hslash
      obtain rfl : k = 0 := Nat.lt_one_iff.1 hk
      exact (opensComment_here before _).trans hcomment
    · have hhash : c ≠ '#' := by
        rintro rfl
        exact absurd hcomment (by simp [startsComment])
      rw [opensComment, startsPair, hasAt_append, hasAt_append,
        hasAt_char (agree_is (by decide)) hk, hasAt_char (agree_is (by decide)) hk,
        beq_false_of_ne hhash, beq_false_of_ne hslash]
      rfl
  rw [opens, hopens, hasAt_append, hasAt_append, hasAt_append,
    hasAt_char (agree_is (by decide)) hk, hasAt_char agree_isDigit hk,
    hasAt_char agree_opensName hk, beq_false_of_ne hquote, hdigit, hname]
  rfl

theorem drop_bytes (after : List Char) :
    (Utf8.bytes (before ++ after)).drop (byteLength before) = Utf8.bytes after := by
  rw [Utf8.bytes_append, ← Utf8.length_bytes before, List.drop_left]

/-- A character with those of a class behind it ends where the run of the class does. -/
theorem isRun_behind {q : UInt8 → Bool} {p : Char → Bool} (h : Agree q p) {c : Char}
    (hc : c.utf8Size = 1) (rest : List Char) :
    IsRun (Utf8.bytes (before ++ c :: rest)) q (byteLength before + 1)
      (byteLength before + byteLength (c :: rest.takeWhile p)) := by
  have hrun := isRun_takeWhile (Utf8.bytes ((before ++ [c]) ++ rest)) q (byteLength (before ++ [c]))
  rw [drop_bytes, takeWhile_bytes h, Utf8.length_bytes, byteLength_append] at hrun
  simpa [byteLength_cons, hc, Nat.add_assoc] using hrun

theorem utf8Size_of_isDigit {c : Char} (h : c.isDigit = true) : c.utf8Size = 1 := by
  have hle := of_decide_eq_true (Bool.and_eq_true_iff.1 h).2
  exact Char.utf8Size_eq_one_iff.2 (UInt32.le_trans hle (by decide))

theorem utf8Size_of_isNameStart {c : Char} (h : isNameStart c = true) : c.utf8Size = 1 := by
  rcases Bool.or_eq_true_iff.1 h with halpha | hline
  · rcases Bool.or_eq_true_iff.1 halpha with hupper | hlower
    · exact Char.utf8Size_eq_one_iff.2 (UInt32.le_trans (of_decide_eq_true hupper).2 (by decide))
    · have hle := of_decide_eq_true (Bool.and_eq_true_iff.1 hlower).2
      exact Char.utf8Size_eq_one_iff.2 (UInt32.le_trans hle (by decide))
  · rw [eq_of_beq hline]
    rfl

theorem stringRest_append (escaped : Bool) (cs : List Char) :
    (stringRest escaped cs).1 ++ (stringRest escaped cs).2 = cs := by
  induction cs generalizing escaped with
  | nil => rfl
  | cons c rest ih =>
    rw [stringRest]
    split
    · exact congrArg (c :: ·) (ih true)
    · split
      · rfl
      · exact congrArg (c :: ·) (ih false)

theorem isLexeme_comment {cs : List Char} (h : startsComment cs = true) :
    IsLexeme (Utf8.bytes (before ++ cs)) (byteLength before) (byteLength before + byteLength cs)
      .comment :=
  ⟨(opensComment_here before cs).trans h, by rw [Utf8.length_bytes, byteLength_append]⟩

theorem isLexeme_string (rest : List Char) :
    IsLexeme (Utf8.bytes (before ++ '"' :: rest)) (byteLength before)
      (byteLength before + byteLength ('"' :: (stringRest false rest).1)) .string := by
  refine ⟨hasAt_here (agree_is (by decide)) before '"' rest, ?_⟩
  have hdrop := drop_bytes (before ++ ['"']) rest
  rw [List.append_assoc, byteLength_append] at hdrop
  have hopened : InString (Utf8.bytes (before ++ '"' :: rest)) (byteLength before)
      (byteLength before + 1) false := by
    refine ⟨Nat.lt_succ_self _, ?_, by simp [slashesBefore], fun j hj hclose => ?_⟩
    · rw [Utf8.length_bytes, byteLength_append]
      exact Nat.add_le_add_left (Nat.le_add_right 1 (byteLength rest)) _
    · exact Nat.not_lt.2 (Nat.le_of_lt_succ hj) hclose.1
  have hends := hopened.endsString hdrop
  rw [closing_bytes, Nat.add_assoc] at hends
  exact hends

theorem isLexeme_number {c : Char} (hc : c.isDigit = true) (rest : List Char) :
    IsLexeme (Utf8.bytes (before ++ c :: rest)) (byteLength before)
      (byteLength before + byteLength (c :: rest.takeWhile isNumberChar)) .number :=
  ⟨(hasAt_here agree_isDigit before c rest).trans hc,
    isRun_behind before agree_continuesNumber (utf8Size_of_isDigit hc) rest⟩

/-- A name is a keyword if its bytes are those of one. -/
theorem isKeyword_iff (name after : List Char) :
    IsKeyword (Utf8.bytes (before ++ (name ++ after))) (byteLength before)
      (byteLength before + byteLength name) ↔ keywords.contains (String.ofList name) = true := by
  rw [IsKeyword, Utf8.extract_bytes, List.contains_iff_mem]
  constructor
  · rintro ⟨word, hword, hbytes⟩
    rwa [← Utf8.encode_injective (hbytes.trans (Utf8.encode_ofList name).symm)]
  · intro hmem
    exact ⟨_, hmem, Utf8.encode_ofList name⟩

theorem isLexeme_name {c : Char} (hc : isNameStart c = true) (rest : List Char) :
    IsLexeme (Utf8.bytes (before ++ c :: rest)) (byteLength before)
      (byteLength before + byteLength (c :: rest.takeWhile isNameChar))
      (nameKind (c :: rest.takeWhile isNameChar)) := by
  have hname : IsName (Utf8.bytes (before ++ c :: rest)) (byteLength before)
      (byteLength before + byteLength (c :: rest.takeWhile isNameChar)) :=
    ⟨(hasAt_here agree_opensName before c rest).trans hc,
      isRun_behind before agree_continuesName (utf8Size_of_isNameStart hc) rest⟩
  have hkeyword := isKeyword_iff before (c :: rest.takeWhile isNameChar) (rest.dropWhile isNameChar)
  rw [List.cons_append, List.takeWhile_append_dropWhile] at hkeyword
  rw [nameKind]
  split
  · next h => exact ⟨hname, hkeyword.2 h⟩
  · next h => exact ⟨hname, fun hin => h (hkeyword.1 hin)⟩

theorem isReading_lexeme {inside after cs : List Char} {kind : Kind} {rest : List Piece}
    (hcs : inside ++ after = cs) (hne : inside ≠ [])
    (hlexeme : IsLexeme (Utf8.bytes (before ++ cs)) (byteLength before)
      (byteLength before + byteLength inside) kind)
    (h : IsReading (Utf8.bytes ((before ++ inside) ++ after)) (byteLength (before ++ inside))
      (spansFrom (byteLength (before ++ inside)) rest)) :
    IsReading (Utf8.bytes (before ++ cs)) (byteLength before)
      (spansFrom (byteLength before) (.lexeme kind inside :: rest)) := by
  subst hcs
  rw [List.append_assoc, byteLength_append] at h
  refine h.cons (s := ⟨byteLength before, byteLength before + byteLength inside, kind⟩) hlexeme
    (Nat.lt_add_of_pos_right (byteLength_pos hne)) ?_
  rw [Utf8.length_bytes, byteLength_append, byteLength_append, ← Nat.add_assoc]
  exact Nat.le_add_right ..

theorem isReading_gap {c : Char} {cs : List Char} {rest : List Piece}
    (hcomment : startsComment (c :: cs) = false) (hquote : c ≠ '"') (hdigit : c.isDigit = false)
    (hname : isNameStart c = false)
    (h : IsReading (Utf8.bytes ((before ++ [c]) ++ cs)) (byteLength (before ++ [c]))
      (spansFrom (byteLength (before ++ [c])) rest)) :
    IsReading (Utf8.bytes (before ++ c :: cs)) (byteLength before)
      (spansFrom (byteLength before) (.gap c :: rest)) := by
  rw [List.append_assoc, byteLength_append, byteLength_cons, byteLength_nil, Nat.add_zero] at h
  refine h.skip (Nat.le_add_right ..) fun i hi hlt => ?_
  obtain ⟨k, rfl⟩ := Nat.exists_eq_add_of_le hi
  exact opens_gap before hcomment hquote hdigit hname (Nat.lt_of_add_lt_add_left hlt)

/-- The lexemes among the pieces of what is left of a line are those from there on. -/
theorem isReading_pieces (cs : List Char) :
    IsReading (Utf8.bytes (before ++ cs)) (byteLength before)
      (spansFrom (byteLength before) (pieces cs)) := by
  fun_induction pieces cs generalizing before with
  | case1 => exact isReading_nil (by simp [Utf8.length_bytes])
  | case2 c rest hcomment =>
    refine isReading_lexeme before (List.append_nil _) (List.cons_ne_nil c rest)
      (isLexeme_comment before hcomment) (isReading_nil ?_)
    simp [Utf8.length_bytes]
  | case3 rest hcomment ih =>
    refine isReading_lexeme before ?_ (List.cons_ne_nil '"' _) (isLexeme_string before rest) (ih _)
    rw [List.cons_append, stringRest_append]
  | case4 c rest hcomment hquote hdigit ih =>
    refine isReading_lexeme before ?_ (List.cons_ne_nil c _) (isLexeme_number before hdigit rest)
      (ih _)
    rw [List.cons_append, List.takeWhile_append_dropWhile]
  | case5 c rest hcomment hquote hdigit hname name ih =>
    refine isReading_lexeme before ?_ (List.cons_ne_nil c _) (isLexeme_name before hname rest)
      (ih _)
    rw [List.cons_append, List.takeWhile_append_dropWhile]
  | case6 c rest hcomment hquote hdigit hname ih =>
    exact isReading_gap before (Bool.eq_false_iff.2 hcomment) hquote (Bool.eq_false_iff.2 hdigit)
      (Bool.eq_false_iff.2 hname) (ih _)

end Pieces

/-! ## The tokens of a line -/

theorem flatMap_chars_pieces (cs : List Char) : (pieces cs).flatMap Piece.chars = cs := by
  fun_induction pieces cs with
  | case1 => rfl
  | case2 c rest hcomment => simp [Piece.chars]
  | case3 rest hcomment ih => simp [Piece.chars, ih, stringRest_append]
  | case4 c rest hcomment hquote hdigit ih => simp [Piece.chars, ih]
  | case5 c rest hcomment hquote hdigit hname name ih => simp [Piece.chars, ih, name]
  | case6 c rest hcomment hquote hdigit hname ih => simp [Piece.chars, ih]

theorem length_pieces_le (cs : List Char) : (pieces cs).length ≤ cs.length := by
  fun_induction pieces cs with
  | case1 => exact Nat.le_refl 0
  | case2 c rest hcomment => simp
  | case3 rest hcomment ih =>
    exact Nat.succ_le_succ (Nat.le_trans ih (length_stringRest false rest))
  | case4 c rest hcomment hquote hdigit ih =>
    exact Nat.succ_le_succ (Nat.le_trans ih (List.dropWhile_sublist isNumberChar).length_le)
  | case5 c rest hcomment hquote hdigit hname name ih =>
    exact Nat.succ_le_succ (Nat.le_trans ih (List.dropWhile_sublist isNameChar).length_le)
  | case6 c rest hcomment hquote hdigit hname ih => exact Nat.succ_le_succ ih

theorem width_eq (e : PositionEncoding) (cs : List Char) : width e cs = e.width cs := by
  induction cs with
  | nil => rfl
  | cons c rest ih => rw [width, ih, PositionEncoding.width]

/-- The token of a lexeme of a line: it starts and ends where the units of the characters do that
stand before the lexeme and in it. -/
def spanToken (e : PositionEncoding) (n : Nat) (line : List Char) (s : Span) : SemanticToken :=
  ⟨n.toUInt32, (e.width (slice 0 s.start line)).toUInt32,
    (e.width (slice s.start s.stop line)).toUInt32, s.kind.code, 0⟩

theorem slice_zero_byteLength (before after : List Char) :
    slice 0 (byteLength before) (before ++ after) = before := by
  simpa using slice_byteLength [] before after

/-- Columns are counted along the pieces as offsets are. -/
theorem pieceTokens_eq_map (e : PositionEncoding) (n : Nat) (before : List Char)
    (ps : List Piece) :
    pieceTokens e n (e.width before) ps
      = (spansFrom (byteLength before) ps).map
          (spanToken e n (before ++ ps.flatMap Piece.chars)) := by
  induction ps generalizing before with
  | nil => rfl
  | cons p rest ih =>
    cases p with
    | gap c =>
      have hnext := ih (before ++ [c])
      rw [e.width_append, byteLength_append, List.append_assoc] at hnext
      exact hnext
    | lexeme kind cs =>
      have hnext := ih (before ++ cs)
      rw [e.width_append, byteLength_append, List.append_assoc] at hnext
      rw [pieceTokens, spansFrom, List.map_cons, width_eq, hnext, List.flatMap_cons, Piece.chars]
      congr 1
      rw [spanToken, slice_zero_byteLength, slice_byteLength]

/-- The lexemes of a line are what its bytes can be read as and nothing else, and the tokens of the
line are made of them. Loosely read, a comment may also leave out the first of three slashes. The
pieces that the lexemes are found in hold the characters of the line, each at least one, so there
are no more steps than characters. -/
theorem isReading_iff_eq_spans (line : List Char) :
    (∀ found, IsReading (Utf8.bytes line) 0 found ↔ found = spans line) ∧
    (∀ found, IsLooseReading (Utf8.bytes line) 0 found ↔
      found = spans line ∨ StartsLate (Utf8.bytes line) (spans line) found) ∧
    (∀ e n, pieceTokens e n 0 (pieces line) = (spans line).map (spanToken e n line)) ∧
    (pieces line).flatMap Piece.chars = line ∧ (pieces line).length ≤ line.length := by
  have hreading : IsReading (Utf8.bytes line) 0 (spans line) := isReading_pieces [] line
  refine ⟨fun found => ⟨fun h => h.unique hreading, ?_⟩,
    fun found => ⟨fun h => hreading.eq_or_startsLate h, ?_⟩, fun e n => ?_,
    flatMap_chars_pieces line, length_pieces_le line⟩
  · rintro rfl
    exact hreading
  · rintro (rfl | hlate)
    · exact hreading.loose
    · exact hreading.loose_of_startsLate hlate
  · have htokens := pieceTokens_eq_map e n [] (pieces line)
    rwa [flatMap_chars_pieces] at htokens

/-- That no gap holds a pair of slashes does not settle how three slashes are read. -/
theorem exists_two_looseReadings :
    ∃ line found, spans line = [⟨0, 3, .comment⟩] ∧ found = [⟨1, 3, .comment⟩] ∧
      IsLooseReading (Utf8.bytes line) 0 (spans line) ∧
      IsLooseReading (Utf8.bytes line) 0 found := by
  have hspans : spans ['/', '/', '/'] = [⟨0, 3, .comment⟩] := by
    simp [spans, spansFrom, pieces, startsComment]
    rfl
  have hreading : IsReading (Utf8.bytes ['/', '/', '/']) 0 (spans ['/', '/', '/']) :=
    isReading_pieces [] _
  refine ⟨['/', '/', '/'], _, hspans, rfl, hreading.loose, hreading.loose_of_startsLate ?_⟩
  exact ⟨[], 0, by decide, by decide, hspans, rfl⟩

end LanguageServer.Lexical
