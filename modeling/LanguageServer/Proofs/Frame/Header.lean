import LanguageServer.Proofs.Frame.Stream

set_option autoImplicit false

/-! # Which streams begin with a frame

A stream of any bytes begins with a frame exactly if it begins with a header (`Opens`), the last
length that the header gives is within the limit (`LastLength`), and so many bytes follow:
`read_eq_frame_iff_opens`. A header is some lines that are not blank and one that is. Only lines
with the one name matter, but each of them has to give a number.

The loop over the bytes is first brought to lines: a whole line is read at once and what it says is
told apart by `parseLine_cases`, so what follows is an induction on the lines with the length given
so far (`Decides`). The one line that needs no line feed is the last of the input. -/

namespace LanguageServer.Frame

/-! ## Numbers -/

/-- Whether characters are a number of 64 bits: decimal digits, perhaps behind a plus sign. -/
def IsLength (cs : List Char) (n : Nat) : Prop :=
  ∃ digits, (cs = digits ∨ cs = '+' :: digits) ∧ digits ≠ [] ∧ (∀ c ∈ digits, c.isDigit = true) ∧
    n = Nat.ofDigitChars 10 digits 0 ∧ n < 18446744073709551616

theorem foldl_digits_eq (cs : List Char) :
    cs.foldl (fun n c => n * 10 + (c.toNat - 0x30)) 0 = Nat.ofDigitChars 10 cs 0 := by
  rw [Nat.ofDigitChars_eq_foldl]
  simp only [Nat.mul_comm 10]
  rfl

theorem digits_eq_some_iff {digits : List Char} {n : Nat} :
    (if digits.isEmpty || !digits.all Char.isDigit then none
      else if Nat.ofDigitChars 10 digits 0 < 18446744073709551616 then
        some (Nat.ofDigitChars 10 digits 0)
      else none) = some n ↔
    digits ≠ [] ∧ (∀ c ∈ digits, c.isDigit = true) ∧ n = Nat.ofDigitChars 10 digits 0 ∧
      n < 18446744073709551616 := by
  by_cases hgood : digits ≠ [] ∧ ∀ c ∈ digits, c.isDigit = true
  · obtain ⟨hne, hdigits⟩ := hgood
    rw [if_neg (by simpa [hne] using hdigits)]
    by_cases hlt : Nat.ofDigitChars 10 digits 0 < 18446744073709551616
    · rw [if_pos hlt, Option.some_inj]
      constructor
      · rintro rfl
        exact ⟨hne, hdigits, rfl, hlt⟩
      · rintro ⟨-, -, rfl, -⟩
        rfl
    · rw [if_neg hlt]
      refine ⟨fun h => (by cases h), ?_⟩
      rintro ⟨-, -, rfl, h⟩
      exact absurd h hlt
  · rw [if_pos]
    · refine ⟨fun h => (by cases h), ?_⟩
      rintro ⟨hne, hdigits, -⟩
      exact absurd ⟨hne, hdigits⟩ hgood
    · simpa [Decidable.or_iff_not_imp_left] using hgood

theorem parseLength_eq_some_iff {cs : List Char} {n : Nat} :
    parseLength cs = some n ↔ IsLength cs n := by
  unfold parseLength
  simp only [foldl_digits_eq]
  split
  · next rest =>
      rw [digits_eq_some_iff]
      constructor
      · intro h
        exact ⟨rest, .inr rfl, h⟩
      · rintro ⟨digits, hdigits | hdigits, h⟩
        · -- a plus sign is no digit
          subst hdigits
          exact absurd (h.2.1 '+' List.mem_cons_self) (by decide)
        · rwa [(List.cons.inj hdigits).2]
  · next hplus =>
      rw [digits_eq_some_iff]
      constructor
      · intro h
        exact ⟨cs, .inl rfl, h⟩
      · rintro ⟨digits, rfl | rfl, h⟩
        · exact h
        · exact absurd rfl (hplus digits)

/-! ## What a line says -/

/-- Whether a line gives `value` as the length: it has a colon, the name before the first one is
that of the length, whatever its case and with blanks around it, and `value` stands behind it. -/
def GivesLength (line value : List Char) : Prop :=
  ∃ name after, line = name ++ ':' :: after ∧ ':' ∉ name ∧
    (Text.trim name).map Char.toLower = lengthName.map Char.toLower ∧ value = Text.trim after

theorem takeWhile_colon {name : List Char} (h : ':' ∉ name) (after : List Char) :
    (name ++ ':' :: after).takeWhile (· != ':') = name ∧
      (name ++ ':' :: after).dropWhile (· != ':') = ':' :: after := by
  have hname : ∀ c ∈ name, (c != ':') = true := by
    intro c hc
    rw [bne_iff_ne]
    rintro rfl
    exact h hc
  rw [List.takeWhile_append_of_pos hname, List.dropWhile_append_of_pos hname]
  simp

theorem GivesLength.unique {line value value' : List Char} (h : GivesLength line value)
    (h' : GivesLength line value') : value = value' := by
  obtain ⟨name, after, rfl, hname, -, rfl⟩ := h
  obtain ⟨name', after', heq, hname', -, rfl⟩ := h'
  have hdrop := (takeWhile_colon hname after).2
  rw [heq, (takeWhile_colon hname' after').2] at hdrop
  rw [(List.cons.inj hdrop).2]

/-- The first colon of a line parts it in two. -/
theorem line_eq_of_colon {line after : List Char} {c : Char}
    (h : line.dropWhile (· != ':') = c :: after) :
    c = ':' ∧ line = line.takeWhile (· != ':') ++ c :: after ∧
      ':' ∉ line.takeWhile (· != ':') := by
  refine ⟨?_, ?_, ?_⟩
  · have hhead := List.head?_dropWhile_not (· != ':') line
    rw [h] at hhead
    simpa using hhead
  · rw [← h, List.takeWhile_append_dropWhile]
  · intro hmem
    exact absurd (List.all_eq_true.1 List.all_takeWhile _ hmem) (by decide)

/-- A line is blank, gives a length or something else in its place, or is passed over. -/
theorem parseLine_cases (line : List Char) :
    (Text.trim line = [] ∧ parseLine line = .ok .separator) ∨
    (Text.trim line ≠ [] ∧
      ((∃ value n, GivesLength line value ∧ IsLength value n ∧
          parseLine line = .ok (.length n)) ∨
       (∃ value, GivesLength line value ∧ (∀ n, ¬ IsLength value n) ∧
          parseLine line = .error .invalidLength) ∨
       ((∀ value, ¬ GivesLength line value) ∧ parseLine line = .ok .other))) := by
  by_cases hblank : Text.trim line = []
  · exact .inl ⟨hblank, by rw [parseLine, hblank]; rfl⟩
  refine .inr ⟨hblank, ?_⟩
  have hopen : parseLine line = _ := if_neg (by simpa using hblank)
  rw [hopen]
  cases hcolon : line.dropWhile (· != ':') with
  | nil =>
      refine .inr (.inr ⟨?_, rfl⟩)
      rintro value ⟨name, after, rfl, hname, -⟩
      rw [(takeWhile_colon hname after).2] at hcolon
      cases hcolon
  | cons c after =>
      obtain ⟨rfl, hline, hname⟩ := line_eq_of_colon hcolon
      dsimp only
      by_cases hmatch : (Text.trim (line.takeWhile (· != ':'))).map Char.toLower
          = "content-length".toList
      · have hgives : GivesLength line (Text.trim after) := ⟨_, after, hline, hname, hmatch, rfl⟩
        rw [if_pos hmatch]
        cases hvalue : parseLength (Text.trim after) with
        | none =>
            refine .inr (.inl ⟨_, hgives, ?_, rfl⟩)
            intro n hn
            rw [parseLength_eq_some_iff.2 hn] at hvalue
            cases hvalue
        | some n => exact .inl ⟨_, n, hgives, parseLength_eq_some_iff.1 hvalue, rfl⟩
      · rw [if_neg hmatch]
        refine .inr (.inr ⟨?_, rfl⟩)
        rintro value ⟨name, after', heq, hname', hmatch', -⟩
        have htake := (takeWhile_colon hname' after').1
        rw [← heq] at htake
        rw [htake] at hmatch
        exact hmatch hmatch'

/-! ## Lines in a stream -/

/-- Whether bytes are a whole line: a line feed stands at their end and nowhere else. -/
def IsWholeLine (line : List UInt8) : Prop :=
  ∃ start, line = start ++ [0x0A] ∧ ∀ b ∈ start, b ≠ 0x0A

/-- Whether bytes are a line that breaks off before its line feed. -/
def IsOpenLine (line : List UInt8) : Prop := line ≠ [] ∧ ∀ b ∈ line, b ≠ 0x0A

/-- Whether bytes are the first line of a stream that goes on with `rest`. Only the last line of a
stream that has ended may break off. -/
def IsFirstLine (ended : Bool) (line rest : List UInt8) : Prop :=
  IsWholeLine line ∨ (IsOpenLine line ∧ rest = [] ∧ ended = true)

theorem IsFirstLine.ne_nil {ended : Bool} {line rest : List UInt8}
    (h : IsFirstLine ended line rest) : line ≠ [] := by
  rcases h with ⟨start, rfl, -⟩ | ⟨⟨hne, -⟩, -⟩
  · simp
  · exact hne

theorem exists_firstLine {input : List UInt8} (h : input ≠ []) :
    ∃ line rest, IsFirstLine true line rest ∧ input = line ++ rest := by
  induction input with
  | nil => exact absurd rfl h
  | cons b input ih =>
      by_cases hb : b = 0x0A
      · subst hb
        exact ⟨[0x0A], input, .inl ⟨[], rfl, fun b hb => absurd hb List.not_mem_nil⟩, rfl⟩
      · by_cases hinput : input = []
        · subst hinput
          exact ⟨[b], [], .inr ⟨⟨List.cons_ne_nil _ _, by simpa using hb⟩, rfl, rfl⟩, rfl⟩
        · obtain ⟨line, rest, hline, rfl⟩ := ih hinput
          refine ⟨b :: line, rest, ?_, rfl⟩
          rcases hline with ⟨start, rfl, hstart⟩ | ⟨⟨-, hopen⟩, hrest⟩
          · exact .inl ⟨b :: start, rfl, by simpa [hb] using hstart⟩
          · exact .inr ⟨⟨List.cons_ne_nil _ _, by simpa [hb] using hopen⟩, hrest⟩

section Lines

variable (limit : Nat) (ended : Bool) (length : Option Nat)

/-- How reading goes on behind a line, by what the line says. -/
def readOn (rest : List UInt8) : Except Fault Line → Progress
  | .error e => .failed e
  | .ok .separator => readBody limit ended length rest
  | .ok (.length n) => readHeader limit ended [] (some n) rest
  | .ok .other => readHeader limit ended [] length rest

/-- A line is read at once. -/
theorem readHeader_line {line rest : List UInt8} (h : IsFirstLine ended line rest) :
    readHeader limit ended [] length (line ++ rest)
      = readOn limit ended length rest (readLine line) := by
  rcases h with ⟨start, rfl, hstart⟩ | ⟨⟨hne, hopen⟩, rfl, rfl⟩
  · rw [List.append_assoc, readHeader_inline hstart, List.append_nil, List.singleton_append,
      readHeader, if_pos rfl, List.reverse_cons, List.reverse_reverse]
    cases readLine (start ++ [0x0A]) with
    | error e => rfl
    | ok parsed => cases parsed <;> rfl
  · -- nothing follows a line that breaks off, so what is not the end of the header is cut short
    rw [readHeader_inline hopen, List.append_nil, readHeader, List.reverse_reverse,
      if_neg (by decide), if_neg (by simpa using hne)]
    cases readLine line with
    | error e => rfl
    | ok parsed => cases parsed <;> rfl

end Lines

/-! ## Headers -/

/-- A stream begins with a header and goes on with `tail`: lines of text that are not blank, those
that give a length giving a number, and then a blank one. -/
structure Opens (ended : Bool) (input : List UInt8) (lines : List String) (last : String)
    (tail : List UInt8) : Prop where
  input_eq : input = lines.flatMap Text.Utf8.encode ++ (Text.Utf8.encode last ++ tail)
  whole : ∀ line ∈ lines, IsWholeLine (Text.Utf8.encode line)
  ends : IsFirstLine ended (Text.Utf8.encode last) tail
  filled : ∀ line ∈ lines, Text.trim line.toList ≠ []
  blank : Text.trim last.toList = []
  lengths : ∀ line ∈ lines, ∀ value, GivesLength line.toList value → ∃ n, IsLength value n

/-- Whether no line gives a length. -/
def NoLength (lines : List String) : Prop :=
  ∀ line ∈ lines, ∀ value, ¬ GivesLength line.toList value

/-- Whether `n` is the last length that lines give. -/
def LastLength (lines : List String) (n : Nat) : Prop :=
  ∃ (before : List String) (line : String) (after : List String) (value : List Char),
    lines = before ++ line :: after ∧ GivesLength line.toList value ∧ IsLength value n ∧
      NoLength after

/-- Whether `n` is the last length given once lines follow one that gave `length`. -/
def Decides (length : Option Nat) (lines : List String) (n : Nat) : Prop :=
  LastLength lines n ∨ (NoLength lines ∧ length = some n)

theorem noLength_cons_iff {line : String} {rest : List String} :
    NoLength (line :: rest) ↔ (∀ value, ¬ GivesLength line.toList value) ∧ NoLength rest := by
  simp [NoLength]

theorem not_lastLength_nil (n : Nat) : ¬ LastLength [] n := by
  rintro ⟨before, line, after, value, hlines, -⟩
  simp at hlines

theorem lastLength_cons_iff {line : String} {rest : List String} {n : Nat} :
    LastLength (line :: rest) n ↔ LastLength rest n ∨
      (NoLength rest ∧ ∃ value, GivesLength line.toList value ∧ IsLength value n) := by
  constructor
  · rintro ⟨before, line', after, value, hlines, hgives, hlength, hafter⟩
    cases before with
    | nil =>
        obtain ⟨rfl, rfl⟩ := List.cons.inj hlines
        exact .inr ⟨hafter, value, hgives, hlength⟩
    | cons first before =>
        obtain ⟨-, hrest⟩ := List.cons.inj hlines
        exact .inl ⟨before, line', after, value, hrest, hgives, hlength, hafter⟩
  · rintro (⟨before, line', after, value, rfl, h⟩ | ⟨hrest, value, hgives, hlength⟩)
    · exact ⟨line :: before, line', after, value, rfl, h⟩
    · exact ⟨[], line, rest, value, rfl, hgives, hlength, hrest⟩

theorem IsLength.unique {cs : List Char} {m n : Nat} (hm : IsLength cs m) (hn : IsLength cs n) :
    m = n :=
  Option.some.inj ((parseLength_eq_some_iff.2 hm).symm.trans (parseLength_eq_some_iff.2 hn))

theorem decides_nil_iff {length : Option Nat} {n : Nat} :
    Decides length [] n ↔ length = some n := by
  simp [Decides, NoLength, not_lastLength_nil]

theorem decides_none_iff {lines : List String} {n : Nat} :
    Decides none lines n ↔ LastLength lines n := by
  simp [Decides]

/-- A length given by the first line takes the place of the one before. -/
theorem decides_given_iff {length : Option Nat} {line : String} {rest : List String}
    {value : List Char} {m n : Nat} (hgives : GivesLength line.toList value)
    (hm : IsLength value m) : Decides length (line :: rest) n ↔ Decides (some m) rest n := by
  have hfirst : ¬ NoLength (line :: rest) := fun h => h line List.mem_cons_self value hgives
  have hvalue : (∃ value, GivesLength line.toList value ∧ IsLength value n) ↔ some m = some n := by
    constructor
    · rintro ⟨value', hgives', hn⟩
      rw [hgives'.unique hgives] at hn
      rw [hm.unique hn]
    · rintro ⟨rfl⟩
      exact ⟨value, hgives, hm⟩
  simp only [Decides, lastLength_cons_iff, hfirst, hvalue, false_and, or_false]

/-- A line that gives no length leaves the one before. -/
theorem decides_other_iff {length : Option Nat} {line : String} {rest : List String} {n : Nat}
    (hother : ∀ value, ¬ GivesLength line.toList value) :
    Decides length (line :: rest) n ↔ Decides length rest n := by
  have hnone : ¬ ∃ value, GivesLength line.toList value ∧ IsLength value n := by
    rintro ⟨value, hgives, -⟩
    exact hother value hgives
  simp only [Decides, lastLength_cons_iff, noLength_cons_iff, hnone, and_false, or_false,
    and_iff_right hother]

theorem readLine_encode (line : String) :
    readLine (Text.Utf8.encode line) = parseLine line.toList := by
  rw [readLine, Text.Utf8.decode?_encode]

section Loop

variable {limit : Nat} {ended : Bool} {length : Option Nat} {input tail : List UInt8}
  {lines : List String} {last : String} {n : Nat}

/-- The header without its first line opens what follows that line. -/
theorem Opens.uncons {line : String} (h : Opens ended input (line :: lines) last tail) :
    ∃ rest, input = Text.Utf8.encode line ++ rest ∧ Opens ended rest lines last tail := by
  refine ⟨lines.flatMap Text.Utf8.encode ++ (Text.Utf8.encode last ++ tail), ?_, rfl, ?_, h.ends,
    ?_, h.blank, ?_⟩
  · rw [h.input_eq, List.flatMap_cons, List.append_assoc]
  · intro line' hline'
    exact h.whole line' (List.mem_cons_of_mem _ hline')
  · intro line' hline'
    exact h.filled line' (List.mem_cons_of_mem _ hline')
  · intro line' hline'
    exact h.lengths line' (List.mem_cons_of_mem _ hline')

theorem Opens.cons {line : String} (h : Opens ended input lines last tail)
    (hwhole : IsWholeLine (Text.Utf8.encode line)) (hfilled : Text.trim line.toList ≠ [])
    (hlengths : ∀ value, GivesLength line.toList value → ∃ n, IsLength value n) :
    Opens ended (Text.Utf8.encode line ++ input) (line :: lines) last tail := by
  refine ⟨?_, ?_, h.ends, ?_, h.blank, ?_⟩
  · rw [h.input_eq, List.flatMap_cons, List.append_assoc]
  · exact List.forall_mem_cons.2 ⟨hwhole, h.whole⟩
  · exact List.forall_mem_cons.2 ⟨hfilled, h.filled⟩
  · exact List.forall_mem_cons.2 ⟨hlengths, h.lengths⟩

/-- A header that gives a length is read up to its end, and the body is what follows. -/
theorem readHeader_of_opens (h : Opens ended input lines last tail) (hn : Decides length lines n) :
    readHeader limit ended [] length input = readBody limit ended (some n) tail := by
  induction lines generalizing length input with
  | nil =>
      have hlength := decides_nil_iff.1 hn
      have hinput : input = Text.Utf8.encode last ++ tail := h.input_eq
      have hparsed : parseLine last.toList = .ok .separator := by
        rw [parseLine, h.blank]
        rfl
      rw [hinput, readHeader_line limit ended length h.ends, readLine_encode, hparsed, hlength]
      rfl
  | cons line lines ih =>
      obtain ⟨rest, rfl, hrest⟩ := h.uncons
      have hwhole := h.whole line List.mem_cons_self
      have hfilled := h.filled line List.mem_cons_self
      rw [readHeader_line limit ended length (.inl hwhole), readLine_encode]
      rcases parseLine_cases line.toList with ⟨hblank, -⟩ | ⟨-, hparsed⟩
      · exact absurd hblank hfilled
      rcases hparsed with ⟨value, m, hgives, hm, hparsed⟩ | ⟨value, hgives, hbad, -⟩ |
        ⟨hother, hparsed⟩
      · rw [hparsed]
        exact ih hrest ((decides_given_iff hgives hm).1 hn)
      · obtain ⟨m, hm⟩ := h.lengths line List.mem_cons_self value hgives
        exact absurd hm (hbad m)
      · rw [hparsed]
        exact ih hrest ((decides_other_iff hother).1 hn)

theorem readBody_eq_frame_iff {body rest : List UInt8} :
    readBody limit ended length input = .frame body rest ↔
      ∃ n, length = some n ∧ input = body ++ rest ∧ n ≤ limit ∧ body.length = n := by
  cases length with
  | none => simp [readBody]
  | some n =>
      simp only [readBody, Option.some.injEq, exists_eq_left']
      constructor
      · intro h
        split at h
        · cases h
        · next hlimit =>
            split at h
            · next hsize =>
                obtain ⟨rfl, rfl⟩ := Progress.frame.inj h
                refine ⟨(List.take_append_drop n input).symm, Nat.not_lt.1 hlimit, ?_⟩
                exact List.length_take_of_le hsize
            · split at h
              · cases h
              · cases h
      · rintro ⟨rfl, hlimit, rfl⟩
        rw [if_neg (Nat.not_lt.2 hlimit), if_pos (by simp), List.take_left, List.drop_left]

theorem readHeader_nil : readHeader limit true [] length [] = .failed .endInsideHeader := rfl

/-- A line behind which a frame is read is whole: behind one that breaks off nothing can be read. -/
theorem IsFirstLine.isWholeLine_of_frame {line after body rest : List UInt8}
    (h : IsFirstLine true line after)
    (hafter : readHeader limit true [] length after = .frame body rest) : IsWholeLine line := by
  rcases h with hwhole | ⟨-, rfl, -⟩
  · exact hwhole
  · rw [readHeader_nil] at hafter
    cases hafter

/-- A body that was read stands behind a header. -/
theorem opens_of_readHeader {body rest : List UInt8}
    (h : readHeader limit true [] length input = .frame body rest) :
    ∃ lines last n, Opens true input lines last (body ++ rest) ∧ Decides length lines n ∧
      n ≤ limit ∧ body.length = n := by
  induction hsize : input.length using Nat.strongRecOn generalizing input length with
  | ind size ih =>
      by_cases hinput : input = []
      · subst hinput
        rw [readHeader_nil] at h
        cases h
      obtain ⟨bytes, after, hfirst, rfl⟩ := exists_firstLine hinput
      have hshorter : after.length < size := by
        have hpos := List.length_pos_iff.2 hfirst.ne_nil
        rw [List.length_append] at hsize
        omega
      rw [readHeader_line limit true length hfirst] at h
      cases hdecode : Text.Utf8.decode? bytes with
      | none =>
          rw [readLine, hdecode] at h
          cases h
      | some line =>
          obtain rfl := Text.Utf8.decode?_eq_some_iff.1 hdecode
          rw [readLine_encode] at h
          rcases parseLine_cases line.toList with ⟨hblank, hparsed⟩ | ⟨hfilled, hparsed⟩
          · rw [hparsed] at h
            obtain ⟨n, hlength, rfl, hlimit, hbody⟩ := readBody_eq_frame_iff.1 h
            refine ⟨[], line, n, ⟨rfl, ?_, hfirst, ?_, hblank, ?_⟩, decides_nil_iff.2 hlength,
              hlimit, hbody⟩
            all_goals
              intro line' hline'
              exact absurd hline' List.not_mem_nil
          · -- the header goes on behind the line, with the length it gives or the one before
            rcases hparsed with ⟨value, m, hgives, hm, hparsed⟩ | ⟨value, -, -, hparsed⟩ |
              ⟨hother, hparsed⟩
            · rw [hparsed] at h
              obtain ⟨lines, last, n, hopens, hdecides, hn⟩ := ih after.length hshorter h rfl
              have hwhole := hfirst.isWholeLine_of_frame h
              refine ⟨line :: lines, last, n, hopens.cons hwhole hfilled ?_,
                (decides_given_iff hgives hm).2 hdecides, hn⟩
              intro value' hgives'
              exact ⟨m, hgives'.unique hgives ▸ hm⟩
            · rw [hparsed] at h
              cases h
            · rw [hparsed] at h
              obtain ⟨lines, last, n, hopens, hdecides, hn⟩ := ih after.length hshorter h rfl
              have hwhole := hfirst.isWholeLine_of_frame h
              refine ⟨line :: lines, last, n, hopens.cons hwhole hfilled ?_,
                (decides_other_iff hother).2 hdecides, hn⟩
              intro value' hgives'
              exact absurd hgives' (hother value')

/-- What was read of a stream that has ended is a frame or a fault. -/
def Progress.IsSettled (p : Progress) : Prop :=
  (∃ body rest, p = .frame body rest) ∨ ∃ fault, p = .failed fault

theorem readBody_settled : (readBody limit true length input).IsSettled := by
  cases length with
  | none => exact .inr ⟨_, rfl⟩
  | some n =>
      rw [readBody]
      split
      · exact .inr ⟨_, rfl⟩
      · split
        · exact .inl ⟨_, _, rfl⟩
        · exact .inr ⟨_, rfl⟩

theorem readHeader_settled (limit : Nat) (length : Option Nat) (input : List UInt8) :
    (readHeader limit true [] length input).IsSettled := by
  induction hsize : input.length using Nat.strongRecOn generalizing input length with
  | ind size ih =>
      by_cases hinput : input = []
      · subst hinput
        exact .inr ⟨_, readHeader_nil⟩
      obtain ⟨line, rest, hfirst, rfl⟩ := exists_firstLine hinput
      have hshorter : rest.length < size := by
        have hpos := List.length_pos_iff.2 hfirst.ne_nil
        rw [List.length_append] at hsize
        omega
      rw [readHeader_line limit true length hfirst]
      cases readLine line with
      | error e => exact .inr ⟨e, rfl⟩
      | ok parsed =>
          cases parsed with
          | separator => exact readBody_settled
          | length n => exact ih rest.length hshorter _ _ rfl
          | other => exact ih rest.length hshorter _ _ rfl

end Loop

/-! ## The next frame -/

section Read

variable {limit : Nat} {input : List UInt8}

theorem Opens.ne_nil {ended : Bool} {lines : List String} {last : String} {tail : List UInt8}
    (h : Opens ended input lines last tail) : input ≠ [] := by
  rw [h.input_eq]
  have hlast := h.ends.ne_nil
  simp [hlast]

/-- Whether a stream begins with a frame: a header, the last length of which is within the limit,
and a body of so many bytes. -/
def BeginsWith (limit : Nat) (input body rest : List UInt8) : Prop :=
  ∃ lines last n, Opens true input lines last (body ++ rest) ∧ LastLength lines n ∧ n ≤ limit ∧
    body.length = n

theorem read_eq_frame_iff {body rest : List UInt8} :
    read limit true input = .frame body rest ↔ BeginsWith limit input body rest := by
  constructor
  · intro h
    cases input with
    | nil => cases h
    | cons b input =>
        obtain ⟨lines, last, n, hopens, hdecides, hn⟩ := opens_of_readHeader h
        exact ⟨lines, last, n, hopens, decides_none_iff.1 hdecides, hn⟩
  · rintro ⟨lines, last, n, hopens, hlast, hlimit, hbody⟩
    rw [read_of_ne_nil hopens.ne_nil, readHeader_of_opens hopens (decides_none_iff.2 hlast)]
    exact readBody_eq_frame_iff.2 ⟨n, rfl, rfl, hlimit, hbody⟩

theorem read_eq_finished_iff : read limit true input = .finished ↔ input = [] := by
  constructor
  · intro h
    refine Decidable.byContradiction fun hinput => ?_
    rw [read_of_ne_nil hinput] at h
    rcases readHeader_settled limit none input with
      ⟨body, rest, hframe⟩ | ⟨fault, hfailed⟩
    · rw [hframe] at h
      cases h
    · rw [hfailed] at h
      cases h
  · rintro rfl
    rfl

theorem read_eq_failed_iff : (∃ fault, read limit true input = .failed fault) ↔
    input ≠ [] ∧ ¬ ∃ body rest, BeginsWith limit input body rest := by
  constructor
  · rintro ⟨fault, hfault⟩
    refine ⟨?_, ?_⟩
    · rintro rfl
      cases hfault
    · rintro ⟨body, rest, hbegins⟩
      rw [read_eq_frame_iff.2 hbegins] at hfault
      cases hfault
  · rintro ⟨hinput, hnone⟩
    rw [read_of_ne_nil hinput]
    rcases readHeader_settled limit none input with
      ⟨body, rest, hframe⟩ | hfailed
    · rw [← read_of_ne_nil hinput] at hframe
      exact absurd ⟨body, rest, read_eq_frame_iff.1 hframe⟩ hnone
    · exact hfailed

/-- A length beyond the limit is refused at the end of the header, whatever follows and even if
nothing has come yet. -/
theorem read_tooLong {ended : Bool} {lines : List String} {last : String} {tail : List UInt8}
    {n : Nat} (h : Opens ended input lines last tail) (hlast : LastLength lines n)
    (hn : limit < n) :
    read limit ended input = .failed (.tooLong n limit) := by
  rw [read_of_ne_nil h.ne_nil, readHeader_of_opens h (decides_none_iff.2 hlast), readBody]
  exact if_pos hn

/-- A frame takes at least a byte off a stream. -/
theorem length_lt_of_read {body rest : List UInt8} (h : read limit true input = .frame body rest) :
    rest.length < input.length := by
  obtain ⟨lines, last, n, hopens, -⟩ := read_eq_frame_iff.1 h
  have hpos := List.length_pos_iff.2 hopens.ends.ne_nil
  rw [hopens.input_eq]
  simp only [List.length_append]
  omega

end Read

/-! ## Frame after frame -/

/-- Reading frame after frame comes to an end, with these bodies and perhaps a fault. -/
inductive ReadsAll (limit : Nat) : (input : List UInt8) → List (List UInt8) × Option Fault → Prop
  | finished {input : List UInt8} (h : read limit true input = .finished) :
      ReadsAll limit input ([], none)
  | failed {input : List UInt8} {fault : Fault} (h : read limit true input = .failed fault) :
      ReadsAll limit input ([], some fault)
  | frame {input body rest : List UInt8} {bodies : List (List UInt8)} {fault : Option Fault}
      (h : read limit true input = .frame body rest) (hrest : ReadsAll limit rest (bodies, fault)) :
      ReadsAll limit input (body :: bodies, fault)

theorem readsAll_readFrames {limit fuel : Nat} {input : List UInt8} (h : input.length < fuel) :
    ReadsAll limit input (readFrames limit fuel input) := by
  induction fuel generalizing input with
  | zero => exact absurd h (Nat.not_lt_zero _)
  | succ fuel ih =>
      by_cases hinput : input = []
      · subst hinput
        exact .finished rfl
      have hsettled := readHeader_settled limit none input
      rw [← read_of_ne_nil hinput] at hsettled
      rcases hsettled with ⟨body, rest, hframe⟩ | ⟨fault, hfailed⟩
      · have hshorter := length_lt_of_read hframe
        have hrest : ReadsAll limit rest (readFrames limit fuel rest) := ih (by omega)
        rw [readFrames, hframe]
        exact .frame hframe hrest
      · rw [readFrames, hfailed]
        exact .failed hfailed

/-- No body that is read is longer than the limit. -/
theorem ReadsAll.length_le {limit : Nat} {input : List UInt8}
    {result : List (List UInt8) × Option Fault} (h : ReadsAll limit input result) :
    ∀ body ∈ result.1, body.length ≤ limit := by
  induction h with
  | finished | failed =>
      intro body hbody
      exact absurd hbody List.not_mem_nil
  | frame h _ ih =>
      intro body hbody
      rcases List.mem_cons.1 hbody with rfl | hbody
      · obtain ⟨lines, last, n, -, -, hlimit, hlength⟩ := read_eq_frame_iff.1 h
        omega
      · exact ih body hbody

/-- **Which streams begin with a frame.** For a stream of any bytes that has ended, and any limit: a
frame is read exactly if the stream is a header, a body and a rest, where the header is lines of
text of which only the last is blank, every line with the name of the length gives a number of 64
bits, there is one, and the last such number is within the limit and is how many bytes the body has;
reading goes on at the rest. Only the empty stream is at its end, and everything else is a fault. A
number beyond the limit is refused as soon as the header has ended, whether or not a byte of the
body has come. So reading frame after frame comes to an end on every stream, and no body is longer
than the limit. -/
theorem read_eq_frame_iff_opens (limit : Nat) (input : List UInt8) :
    (∀ body rest, read limit true input = .frame body rest ↔
      ∃ lines last n, Opens true input lines last (body ++ rest) ∧ LastLength lines n ∧ n ≤ limit ∧
        body.length = n) ∧
    (read limit true input = .finished ↔ input = []) ∧
    ((∃ fault, read limit true input = .failed fault) ↔
      input ≠ [] ∧ ¬ ∃ body rest, BeginsWith limit input body rest) ∧
    (∀ ended lines last tail n, Opens ended input lines last tail → LastLength lines n → limit < n →
      read limit ended input = .failed (.tooLong n limit)) ∧
    ReadsAll limit input (readAll limit input) ∧
    ∀ body ∈ (readAll limit input).1, body.length ≤ limit := by
  have hreads : ReadsAll limit input (readAll limit input) :=
    readsAll_readFrames (Nat.lt_succ_self _)
  refine ⟨fun body rest => read_eq_frame_iff, read_eq_finished_iff, read_eq_failed_iff, ?_, hreads,
    hreads.length_le⟩
  intro ended lines last tail n hopens hlast hn
  exact read_tooLong hopens hlast hn

/-- A header with a line that is passed over, a length that a later one overrides, and a blank line
that holds a no-break space. -/
theorem read_overridden_length :
    let lines := ["X-Kind: a\n", " content-LENGTH : 7\r\n", "Content-Length:+2\r\n"]
    let last := String.ofList [Char.ofNat 0xA0, '\n']
    let header := lines.flatMap Text.Utf8.encode ++ Text.Utf8.encode last
    Opens true (header ++ [0xFF, 0x0A, 0x58]) lines last [0xFF, 0x0A, 0x58] ∧
    LastLength lines 2 ∧
    read 2 true (header ++ [0xFF, 0x0A, 0x58]) = .frame [0xFF, 0x0A] [0x58] ∧
    Opens false header lines last [] ∧
    read 1 false header = .failed (.tooLong 2 1) := by
  intro lines last header
  have hseven : GivesLength " content-LENGTH : 7\r\n".toList "7".toList :=
    ⟨" content-LENGTH ".toList, " 7\r\n".toList, by decide, by decide, by decide, by decide⟩
  have htwo : GivesLength "Content-Length:+2\r\n".toList "+2".toList :=
    ⟨"Content-Length".toList, "+2\r\n".toList, by decide, by decide, by decide, by decide⟩
  have hlengthTwo : IsLength "+2".toList 2 :=
    ⟨['2'], .inr (by decide), by decide, List.all_eq_true.1 (by decide), by decide, by decide⟩
  have hother : ∀ value, ¬ GivesLength "X-Kind: a\n".toList value := by
    rintro value ⟨name, after, hline, hname, hmatch, -⟩
    have htake := (takeWhile_colon hname after).1
    rw [← hline] at htake
    rw [← htake] at hmatch
    exact absurd hmatch (by decide)
  have hopens : ∀ ended tail, Opens ended (header ++ tail) lines last tail := by
    intro ended tail
    refine ⟨List.append_assoc _ _ _, ?_, .inl ⟨[0xC2, 0xA0], by decide, by simp⟩, by decide,
      by decide, ?_⟩
    · intro line hline
      have hends : (lines.all fun line => Text.Utf8.encode line
          == (Text.Utf8.encode line).dropLast ++ [0x0A]) = true := by decide
      have hone : (lines.all fun line =>
          (Text.Utf8.encode line).dropLast.all (· != 0x0A)) = true := by decide
      refine ⟨(Text.Utf8.encode line).dropLast, eq_of_beq (List.all_eq_true.1 hends line hline),
        fun b hb => ?_⟩
      exact bne_iff_ne.1 (List.all_eq_true.1 (List.all_eq_true.1 hone line hline) b hb)
    · simp only [lines, List.forall_mem_cons, List.not_mem_nil, false_implies, implies_true,
        and_true]
      refine ⟨fun value h => absurd h (hother value), fun value h => ⟨7, ?_⟩,
        fun value h => ⟨2, ?_⟩⟩
      · rw [h.unique hseven]
        exact ⟨['7'], .inl (by decide), by decide, List.all_eq_true.1 (by decide), by decide,
          by decide⟩
      · rw [h.unique htwo]
        exact hlengthTwo
  have hlast : LastLength lines 2 :=
    ⟨["X-Kind: a\n", " content-LENGTH : 7\r\n"], "Content-Length:+2\r\n", [], _, rfl, htwo,
      hlengthTwo, fun line hline => absurd hline List.not_mem_nil⟩
  have hopen : Opens false header lines last [] := by
    have hnone := hopens false []
    rwa [List.append_nil] at hnone
  obtain ⟨hframe, -⟩ := read_eq_frame_iff_opens 2 (header ++ [0xFF, 0x0A, 0x58])
  obtain ⟨-, -, -, hlong, -⟩ := read_eq_frame_iff_opens 1 header
  exact ⟨hopens true _, hlast,
    (hframe _ _).2 ⟨lines, last, 2, hopens true _, hlast, by decide, by decide⟩, hopen,
    hlong false lines last [] 2 hopen hlast (by decide)⟩

end LanguageServer.Frame
