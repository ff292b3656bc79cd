import LanguageServer.Proofs.Frame.Header
import LanguageServer.Proofs.Text.Bytes

set_option autoImplicit false

/-! # Streams that end inside a frame

A stream that ends inside its first frame should be a fault, and with one exception it is. A header
ends with a blank line, and at the end of the input a line counts as a line without its line feed. So
a stream that ends inside the blank line already has its header; if the header gives the length zero,
nothing more is missing and an empty frame is read (`read_endsInside_fails_iff`).

The argument compares two ways of taking the beginning of a stream apart into lines that are not
blank and what comes behind them: the one that says where the stream ends, and the one that belongs to
a frame that was read (`Opens`). If neither rest begins with another such line, the two are the same
(`filledLines_unique`). -/

namespace LanguageServer.Frame

/-! ## Lines that are not blank -/

/-- Whether bytes are blank text. -/
def IsBlankLine (line : List UInt8) : Prop :=
  ∃ text : String, line = Text.Utf8.encode text ∧ Text.trim text.toList = []

/-- Whether bytes are a whole line that is not blank. -/
def IsFilledLine (line : List UInt8) : Prop := IsWholeLine line ∧ ¬ IsBlankLine line

/-- Whether bytes do not begin with a line that is whole and not blank. -/
def HasNoFilledLine (bytes : List UInt8) : Prop :=
  ∀ line rest, bytes = line ++ rest → ¬ IsFilledLine line

theorem isBlankLine_encode_iff {text : String} :
    IsBlankLine (Text.Utf8.encode text) ↔ Text.trim text.toList = [] := by
  constructor
  · rintro ⟨text', heq, hblank⟩
    rwa [Text.Utf8.encode_injective heq]
  · intro hblank
    exact ⟨text, rfl, hblank⟩

theorem IsWholeLine.lineFeed_mem {line : List UInt8} (h : IsWholeLine line) : 0x0A ∈ line := by
  obtain ⟨start, rfl, -⟩ := h
  exact List.mem_append_right _ List.mem_cons_self

/-- The first whole line of a stream is determined by the stream. -/
theorem wholeLine_unique {line line' rest rest' : List UInt8} (h : IsWholeLine line)
    (h' : IsWholeLine line') (heq : line ++ rest = line' ++ rest') : line = line' ∧ rest = rest' := by
  obtain ⟨start, rfl, hstart⟩ := h
  obtain ⟨start', rfl, hstart'⟩ := h'
  simp only [List.append_assoc, List.singleton_append] at heq
  obtain ⟨rfl, rfl⟩ := Text.append_cons_unique (fun hmem => hstart _ hmem rfl)
    (fun hmem => hstart' _ hmem rfl) heq
  exact ⟨rfl, rfl⟩

/-- **The lines at the beginning of a stream that are not blank are determined by the stream.** -/
theorem filledLines_unique {lines lines' : List (List UInt8)} {rest rest' : List UInt8}
    (h : ∀ line ∈ lines, IsFilledLine line) (h' : ∀ line ∈ lines', IsFilledLine line)
    (hrest : HasNoFilledLine rest) (hrest' : HasNoFilledLine rest')
    (heq : lines.flatten ++ rest = lines'.flatten ++ rest') : lines = lines' ∧ rest = rest' := by
  induction lines generalizing lines' with
  | nil =>
      cases lines' with
      | nil => exact ⟨rfl, heq⟩
      | cons line' lines' =>
          rw [List.flatten_cons, List.append_assoc] at heq
          exact absurd (h' line' List.mem_cons_self) (hrest line' _ heq)
  | cons line lines ih =>
      cases lines' with
      | nil =>
          rw [List.flatten_cons, List.append_assoc] at heq
          exact absurd (h line List.mem_cons_self) (hrest' line _ heq.symm)
      | cons line' lines' =>
          simp only [List.flatten_cons, List.append_assoc] at heq
          obtain ⟨rfl, hlater⟩ := wholeLine_unique (h line List.mem_cons_self).1
            (h' line' List.mem_cons_self).1 heq
          obtain ⟨rfl, rfl⟩ := ih (fun l hl => h l (List.mem_cons_of_mem _ hl))
            (fun l hl => h' l (List.mem_cons_of_mem _ hl)) hlater
          exact ⟨rfl, rfl⟩

theorem hasNoFilledLine_of_no_lineFeed {bytes : List UInt8} (h : ∀ b ∈ bytes, b ≠ 0x0A) :
    HasNoFilledLine bytes := by
  rintro line rest rfl hfilled
  exact h _ (List.mem_append_left rest hfilled.1.lineFeed_mem) rfl

theorem hasNoFilledLine_of_blank {last tail : List UInt8} (hends : IsFirstLine true last tail)
    (hblank : IsBlankLine last) : HasNoFilledLine (last ++ tail) := by
  rcases hends with hwhole | ⟨⟨-, hopen⟩, rfl, -⟩
  · rintro line rest heq hfilled
    obtain ⟨rfl, -⟩ := wholeLine_unique hwhole hfilled.1 heq
    exact hfilled.2 hblank
  · rw [List.append_nil]
    exact hasNoFilledLine_of_no_lineFeed hopen

/-! ## Where a stream ends -/

/-- Whether a stream ends before the line feed of the blank line that would end its header: it has
whole lines, none of them blank, and perhaps the beginning of a line. -/
def EndsInHeader (input : List UInt8) : Prop :=
  ∃ (lines : List (List UInt8)) (rest : List UInt8), input = lines.flatten ++ rest ∧
    (∀ line ∈ lines, IsFilledLine line) ∧ ∀ b ∈ rest, b ≠ 0x0A

/-- Whether a line is text that gives a number as the length. -/
def GivesNumber (line : List UInt8) (n : Nat) : Prop :=
  ∃ (text : String) (value : List Char), line = Text.Utf8.encode text ∧
    GivesLength text.toList value ∧ IsLength value n

/-- Whether a stream ends behind its header, but before all of its body has come: as many bytes as
the header gives last. -/
def EndsInBody (input : List UInt8) : Prop :=
  ∃ (lines : List (List UInt8)) (last tail : List UInt8) (before : List (List UInt8))
    (line : List UInt8) (after : List (List UInt8)) (n : Nat),
    input = lines.flatten ++ (last ++ tail) ∧ (∀ line ∈ lines, IsFilledLine line) ∧
    IsWholeLine last ∧ IsBlankLine last ∧ lines = before ++ line :: after ∧ GivesNumber line n ∧
    (∀ later ∈ after, ∀ m, ¬ GivesNumber later m) ∧ tail.length < n

/-- Whether a stream that is not empty ends inside its first frame. -/
def EndsInside (input : List UInt8) : Prop :=
  input ≠ [] ∧ (EndsInHeader input ∨ EndsInBody input)

/-- Whether a stream ends inside the blank line behind a header that gives the length zero. -/
def EndsInSeparator (input : List UInt8) : Prop :=
  ∃ (lines : List String) (last : String), Opens true input lines last [] ∧
    IsOpenLine (Text.Utf8.encode last) ∧ LastLength lines 0

theorem LastLength.not_noLength {lines : List String} {n : Nat} (h : LastLength lines n) :
    ¬ NoLength lines := by
  obtain ⟨before, line, after, value, rfl, hgives, -⟩ := h
  intro hnone
  exact hnone line (by simp) value hgives

theorem LastLength.unique {lines : List String} {m n : Nat} (hm : LastLength lines m)
    (hn : LastLength lines n) : m = n := by
  induction lines with
  | nil => exact absurd hm (not_lastLength_nil m)
  | cons line rest ih =>
      rcases lastLength_cons_iff.1 hm with hm | ⟨hnone, value, hgives, hlength⟩
      · rcases lastLength_cons_iff.1 hn with hn | ⟨hnone, -⟩
        · exact ih hm hn
        · exact absurd hnone hm.not_noLength
      · rcases lastLength_cons_iff.1 hn with hn | ⟨-, value', hgives', hlength'⟩
        · exact absurd hnone hn.not_noLength
        · rw [hgives.unique hgives'] at hlength
          exact hlength.unique hlength'

section Ends

variable {input tail : List UInt8} {lines : List String} {last : String} {n : Nat}

theorem Opens.filled_lines {ended : Bool} (h : Opens ended input lines last tail) :
    ∀ line ∈ lines.map Text.Utf8.encode, IsFilledLine line := by
  intro bytes hbytes
  obtain ⟨line, hline, rfl⟩ := List.mem_map.1 hbytes
  refine ⟨h.whole line hline, fun hblank => ?_⟩
  exact h.filled line hline (isBlankLine_encode_iff.1 hblank)

theorem Opens.input_flatten {ended : Bool} (h : Opens ended input lines last tail) :
    input = (lines.map Text.Utf8.encode).flatten ++ (Text.Utf8.encode last ++ tail) := by
  rw [h.input_eq, List.flatMap_def]

theorem Opens.hasNoFilledLine (h : Opens true input lines last tail) :
    HasNoFilledLine (Text.Utf8.encode last ++ tail) :=
  hasNoFilledLine_of_blank h.ends (isBlankLine_encode_iff.2 h.blank)

/-- A header of a stream that ends in its header breaks off in the blank line. -/
theorem Opens.isOpenLine_of_endsInHeader (h : Opens true input lines last tail)
    (hends : EndsInHeader input) : IsOpenLine (Text.Utf8.encode last) ∧ tail = [] := by
  obtain ⟨lines', rest, hinput, hlines, hrest⟩ := hends
  have heq := h.input_flatten.symm.trans hinput
  obtain ⟨-, rfl⟩ := filledLines_unique h.filled_lines hlines h.hasNoFilledLine
    (hasNoFilledLine_of_no_lineFeed hrest) heq
  rcases h.ends with hwhole | ⟨hopen, htail, -⟩
  · exact absurd rfl (hrest _ (List.mem_append_left _ hwhole.lineFeed_mem))
  · exact ⟨hopen, htail⟩

/-- The last number that the lines of a header give is the last length. -/
theorem Opens.lastLength_of_givesNumber {ended : Bool} (h : Opens ended input lines last tail)
    {before after : List (List UInt8)} {line : List UInt8}
    (hlines : lines.map Text.Utf8.encode = before ++ line :: after) (hline : GivesNumber line n)
    (hafter : ∀ later ∈ after, ∀ m, ¬ GivesNumber later m) : LastLength lines n := by
  obtain ⟨before, later, rfl, rfl, hmap⟩ := List.map_eq_append_iff.1 hlines
  obtain ⟨line, after, rfl, rfl, rfl⟩ := List.map_eq_cons_iff.1 hmap
  obtain ⟨text, value, heq, hgives, hlength⟩ := hline
  obtain rfl := Text.Utf8.encode_injective heq
  refine ⟨before, line, after, value, rfl, hgives, hlength, fun later hlater value' hgives' => ?_⟩
  -- a later line that gave a length would give a number
  obtain ⟨m, hm⟩ := h.lengths later (by simp [hlater]) value' hgives'
  exact hafter _ (List.mem_map_of_mem hlater) m ⟨later, value', rfl, hgives', hm⟩

/-- A header of a stream that ends in its body is followed by fewer bytes than it gives last. -/
theorem Opens.length_lt_of_endsInBody (h : Opens true input lines last tail)
    (hlast : LastLength lines n) (hends : EndsInBody input) : tail.length < n := by
  obtain ⟨lines', last', tail', before, line, after, m, hinput, hlines, hwhole, hblank, hsplit,
    hline, hafter, hshort⟩ := hends
  have heq := h.input_flatten.symm.trans hinput
  obtain ⟨rfl, hbehind⟩ := filledLines_unique h.filled_lines hlines h.hasNoFilledLine
    (hasNoFilledLine_of_blank (.inl hwhole) hblank) heq
  obtain rfl := hlast.unique (h.lastLength_of_givesNumber hsplit hline hafter)
  rcases h.ends with hwhole' | ⟨⟨-, hopen⟩, rfl, -⟩
  · obtain ⟨-, rfl⟩ := wholeLine_unique hwhole' hwhole hbehind
    exact hshort
  · rw [List.append_nil] at hbehind
    refine absurd rfl (hopen 0x0A ?_)
    rw [hbehind]
    exact List.mem_append_left _ hwhole.lineFeed_mem

end Ends

/-! ## What is read -/

theorem read_endsInSeparator {limit : Nat} {input : List UInt8} (h : EndsInSeparator input) :
    read limit true input = .frame [] [] := by
  obtain ⟨lines, last, hopens, -, hlast⟩ := h
  exact read_eq_frame_iff.2 ⟨lines, last, 0, hopens, hlast, Nat.zero_le _, rfl⟩

/-- A frame that is read from a stream that ends inside it is empty, and the stream ends in the blank
line. -/
theorem endsInSeparator_of_read {limit : Nat} {input body rest : List UInt8}
    (hinside : EndsInside input) (hread : read limit true input = .frame body rest) :
    EndsInSeparator input ∧ body = [] ∧ rest = [] := by
  obtain ⟨lines, last, n, hopens, hlast, -, hlength⟩ := read_eq_frame_iff.1 hread
  rcases hinside.2 with hheader | hbody
  · obtain ⟨hopen, htail⟩ := hopens.isOpenLine_of_endsInHeader hheader
    obtain ⟨rfl, rfl⟩ := List.append_eq_nil_iff.1 htail
    obtain rfl : 0 = n := hlength
    exact ⟨⟨lines, last, hopens, hopen, hlast⟩, rfl, rfl⟩
  · have hshort := hopens.length_lt_of_endsInBody hlast hbody
    rw [List.length_append] at hshort
    omega

/-- **A stream that ends inside its first frame is a fault, unless it ends in the blank line behind a
header that gives the length zero.** For a stream of any bytes and any limit: if the stream is not
empty and ends before the line feed of the blank line that ends its header, or before as many bytes
of the body as the header gives, it is not taken for the end between two frames. It is a fault
exactly if it does not end inside the blank line with the length zero given last, and in that case an
empty frame is read, with nothing behind it. -/
theorem read_endsInside_fails_iff (limit : Nat) (input : List UInt8) (h : EndsInside input) :
    read limit true input ≠ .finished ∧
    ((∃ fault, read limit true input = .failed fault) ↔ ¬ EndsInSeparator input) ∧
    ∀ body rest, read limit true input = .frame body rest ↔
      EndsInSeparator input ∧ body = [] ∧ rest = [] := by
  refine ⟨fun hfinished => h.1 (read_eq_finished_iff.1 hfinished), ⟨?_, fun hnot => ?_⟩,
    fun body rest => ⟨endsInSeparator_of_read h, ?_⟩⟩
  · rintro ⟨fault, hfailed⟩ hseparator
    rw [read_endsInSeparator hseparator] at hfailed
    cases hfailed
  · refine read_eq_failed_iff.2 ⟨h.1, ?_⟩
    rintro ⟨body, rest, hbegins⟩
    exact hnot (endsInSeparator_of_read h (read_eq_frame_iff.2 hbegins)).1
  · rintro ⟨hseparator, rfl, rfl⟩
    exact read_endsInSeparator hseparator

theorem isFilledLine_encode {line : String} (start : List UInt8)
    (hline : Text.Utf8.encode line = start ++ [0x0A]) (hstart : (start.all (· != 0x0A)) = true)
    (hfilled : Text.trim line.toList ≠ []) : IsFilledLine (Text.Utf8.encode line) :=
  ⟨⟨start, hline, fun b hb => bne_iff_ne.1 (List.all_eq_true.1 hstart b hb)⟩,
    fun hblank => hfilled (isBlankLine_encode_iff.1 hblank)⟩

/-- A header that gives the length zero, and the first half of the line end behind it. -/
def brokenSeparator : List UInt8 := Text.Utf8.encode "Content-Length: 0\r\n" ++ [0x0D]

theorem brokenSeparator_endsInside : EndsInside brokenSeparator := by
  have hline : IsFilledLine (Text.Utf8.encode "Content-Length: 0\r\n") :=
    isFilledLine_encode (Text.Utf8.encode "Content-Length: 0\r") (by decide) (by decide)
      (by decide)
  refine ⟨by decide, .inl ⟨[Text.Utf8.encode "Content-Length: 0\r\n"], [0x0D], by decide, ?_, ?_⟩⟩
  · exact List.forall_mem_singleton.2 hline
  · exact List.forall_mem_singleton.2 (by decide)

/-- A stream that ends in its body is a fault, and one that ends in the blank line is an empty
frame. -/
theorem read_endsInside_both_ways :
    let short := Text.Utf8.encode "Content-Length: 2\r\n\r\na"
    EndsInside short ∧ ¬ EndsInSeparator short ∧ read 4 true short = .failed .bodyCutShort ∧
    EndsInside brokenSeparator ∧ EndsInSeparator brokenSeparator ∧
    read 4 true brokenSeparator = .frame [] [] := by
  intro short
  have hline : IsFilledLine (Text.Utf8.encode "Content-Length: 2\r\n") :=
    isFilledLine_encode (Text.Utf8.encode "Content-Length: 2\r") (by decide) (by decide)
      (by decide)
  have hnumber : GivesNumber (Text.Utf8.encode "Content-Length: 2\r\n") 2 :=
    ⟨_, "2".toList, rfl, ⟨"Content-Length".toList, " 2\r\n".toList, by decide, by decide, by decide,
      by decide⟩, ['2'], .inl (by decide), by decide, List.all_eq_true.1 (by decide), by decide,
      by decide⟩
  have hshort : EndsInside short := by
    refine ⟨by decide, .inr ⟨[Text.Utf8.encode "Content-Length: 2\r\n"], [0x0D, 0x0A], [0x61], [],
      _, [], 2, by decide, List.forall_mem_singleton.2 hline, ⟨[0x0D], rfl, ?_⟩,
      ⟨"\r\n", by decide, by decide⟩, rfl, hnumber, ?_, by decide⟩⟩
    · exact List.forall_mem_singleton.2 (by decide)
    · exact fun later hlater => absurd hlater List.not_mem_nil
  have hfailed : read 4 true short = .failed .bodyCutShort := by decide
  have hframe : read 4 true brokenSeparator = .frame [] [] := by decide
  obtain ⟨-, hfails, -⟩ := read_endsInside_fails_iff 4 short hshort
  obtain ⟨-, -, hreads⟩ := read_endsInside_fails_iff 4 brokenSeparator brokenSeparator_endsInside
  exact ⟨hshort, hfails.1 ⟨_, hfailed⟩, hfailed, brokenSeparator_endsInside,
    ((hreads [] []).1 hframe).1, hframe⟩

/-- Not every stream that ends inside its first frame is a fault. -/
theorem exists_frame_of_endsInside :
    ∃ (limit : Nat) (input : List UInt8), EndsInside input ∧
      read limit true input = .frame [] [] :=
  ⟨0, brokenSeparator, brokenSeparator_endsInside, by decide⟩

end LanguageServer.Frame
