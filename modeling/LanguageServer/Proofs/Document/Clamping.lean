import LanguageServer.Proofs.Document.Lines
import LanguageServer.Proofs.Document.Mirror

set_option autoImplicit false

/-! # Positions round down to boundaries

Any position has an offset, also one whose line or column does not exist. In a line that exists the
offset stands behind the characters that the units of the position hold whole: `left`, where the
line is `left ++ right` and one character more would be too wide (`FloorsTo`). Any leading part of
the line that is no wider than the position is a leading part of `left` (`FloorsTo.isPrefix`), and
everything else follows: a greater position in the line leads no further back, and the offset leads
to the greatest column of the line that the position reaches. Across lines, offsets are in order
since every line ends before the next one starts. So the ends of a range that is in order are offsets
in order, between characters, and a change can be made there. -/

namespace LanguageServer

namespace Position

theorem le_iff {p q : Position} : p.le q = true ↔ p.line.toNat < q.line.toNat ∨
    (p.line.toNat = q.line.toNat ∧ p.character.toNat ≤ q.character.toNat) := by
  simp only [le, Bool.or_eq_true, Bool.and_eq_true, decide_eq_true_eq, UInt32.lt_iff_toNat_lt,
    UInt32.le_iff_toNat_le, UInt32.toNat_inj]

theorem le_total (p q : Position) : p.le q = true ∨ q.le p = true := by
  rw [le_iff, le_iff]
  omega

end Position

/-- A range put in order is in order. -/
theorem Range.normalized_le (r : Range) : r.normalized.start.le r.normalized.stop = true := by
  unfold Range.normalized
  split
  · assumption
  · exact (Position.le_total r.start r.stop).resolve_left ‹_›

namespace Document

open Text

/-! ## Columns of a line -/

/-- Whether a column is where a character of a line starts or the line ends. -/
def IsColumn (e : PositionEncoding) (line : List Char) (column : Nat) : Prop :=
  ∃ left, left <+: line ∧ e.width left = column

/-- In a line `left ++ right` the first `target` units hold `left` and no character more. -/
structure FloorsTo (e : PositionEncoding) (target : Nat) (left right : List Char) : Prop where
  fits : e.width left ≤ target
  full : ∀ c rest, right = c :: rest → target < e.width left + e.units c

theorem width_le_of_isPrefix (e : PositionEncoding) {a b : List Char} (h : a <+: b) :
    e.width a ≤ e.width b := by
  obtain ⟨rest, rfl⟩ := h
  rw [PositionEncoding.width_append]
  exact Nat.le_add_right ..

/-- Any leading part of the line that the units hold is part of `left`. -/
theorem FloorsTo.isPrefix {e : PositionEncoding} {target : Nat} {left right part : List Char}
    (h : FloorsTo e target left right) (hpart : part <+: left ++ right)
    (hfits : e.width part ≤ target) : part <+: left := by
  rcases List.prefix_or_prefix_of_prefix hpart (List.prefix_append left right) with hle | hge
  · exact hle
  · obtain ⟨more, rfl⟩ := hge
    cases more with
    | nil => simp
    | cons c more =>
        obtain ⟨rest, hrest⟩ := (List.prefix_append_right_inj left).1 hpart
        have hfull := h.full c (more ++ rest) hrest.symm
        have hwidth : e.width (left ++ c :: more)
            = e.width left + (e.units c + e.width more) := by
          rw [PositionEncoding.width_append]
          rfl
        omega

/-- The scan of a line stops behind what the units hold; `units` of them have been counted. -/
theorem columnOffset_from (e : PositionEncoding) (target units bytes : Nat) (line : List Char)
    (h : units ≤ target) :
    ∃ left right, line = left ++ right ∧ FloorsTo e (target - units) left right ∧
      columnOffset e target units bytes line = bytes + byteLength left := by
  induction line generalizing units bytes with
  | nil => exact ⟨[], [], rfl, ⟨Nat.zero_le _, fun c rest h => by cases h⟩, rfl⟩
  | cons c rest ih =>
      have hunits := e.units_pos c
      by_cases hwide : target < units + e.units c
      · -- the scan stops before the character that would be too wide
        refine ⟨[], c :: rest, rfl, ⟨Nat.zero_le _, ?_⟩, ?_⟩
        · intro d tail hcons
          obtain ⟨rfl, -⟩ := List.cons.inj hcons
          rw [PositionEncoding.width]
          omega
        · rw [columnOffset, if_pos hwide, ite_self, byteLength_nil, Nat.add_zero]
      · obtain ⟨left, right, rfl, hfloors, hoffset⟩ :=
          ih (units + e.units c) (bytes + c.utf8Size) (by omega)
        have hwidth : e.width (c :: left) = e.units c + e.width left := rfl
        have hfits := hfloors.fits
        refine ⟨c :: left, right, rfl, ⟨by omega, ?_⟩, ?_⟩
        · intro d tail hcons
          have hfull := hfloors.full d tail hcons
          omega
        · rw [columnOffset, if_neg (by omega), if_neg hwide, hoffset, byteLength_cons,
            Nat.add_assoc]

/-! ## The offset of a position -/

theorem offsetOf_past_end {text : List Char} {p : Position}
    (h : (splitLines text).length ≤ p.line.toNat) (e : PositionEncoding) :
    offsetOf text p e = byteLength text := by
  rw [offsetOf, lineBounds_eq_none h]

theorem StartsLine.offsetOf_eq {text before rest : List Char} {p : Position}
    (h : StartsLine text p.line.toNat before rest) (e : PositionEncoding) :
    ∃ left right, lineHead rest = left ++ right ∧ FloorsTo e p.character.toNat left right ∧
      offsetOf text p e = byteLength before + byteLength left := by
  obtain ⟨left, right, hline, hfloors, hoffset⟩ :=
    columnOffset_from e p.character.toNat 0 0 (lineHead rest) (Nat.zero_le _)
  rw [Nat.sub_zero] at hfloors
  rw [Nat.zero_add] at hoffset
  have hslice : slice (byteLength before) (byteLength before + byteLength (lineHead rest)) text
      = lineHead rest := by
    have hcut := slice_byteLength before (lineHead rest) (rest.dropWhile fun c => !isLineEnd c)
    rwa [lineHead, List.takeWhile_append_dropWhile, ← h.text_eq] at hcut
  refine ⟨left, right, hline, hfloors, ?_⟩
  simp only [offsetOf, h.lineBounds_eq, hslice, hoffset]

/-- A line and what follows it, cut behind the first part of the line. -/
theorem StartsLine.text_cut {text before rest left right : List Char} {n : Nat}
    (h : StartsLine text n before rest) (hline : lineHead rest = left ++ right) :
    ∃ after, rest = left ++ (right ++ after) ∧ text = (before ++ left) ++ (right ++ after) := by
  have hrest : rest = left ++ (right ++ rest.dropWhile fun c => !isLineEnd c) := by
    rw [← List.append_assoc, ← hline]
    exact List.takeWhile_append_dropWhile.symm
  refine ⟨rest.dropWhile fun c => !isLineEnd c, hrest, ?_⟩
  rw [List.append_assoc, ← hrest]
  exact h.text_eq

/-- No offset of a line splits a line end. -/
theorem StartsLine.not_split_inside {text before left right after : List Char} {n : Nat}
    (h : StartsLine text n before (left ++ (right ++ after)))
    (hline : lineHead (left ++ (right ++ after)) = left ++ right) :
    ¬ ((before ++ left).getLast? = some '\r' ∧ (right ++ after).head? = some '\n') := by
  rcases List.eq_nil_or_concat left with rfl | ⟨init, c, rfl⟩
  · rw [List.append_nil]
    exact h.not_split
  · rintro ⟨hlast, -⟩
    rw [List.concat_eq_append, ← List.append_assoc, List.getLast?_concat,
      Option.some.injEq] at hlast
    have hunbroken := isUnbroken_lineHead ((init.concat c) ++ (right ++ after))
    rw [hline] at hunbroken
    have hc := hunbroken c (by simp)
    rw [hlast] at hc
    exact absurd hc (by decide)

/-- The offset of a position is where the line that the position names is cut, or the end of the
text. -/
theorem offsetOf_cases (text : List Char) (p : Position) (e : PositionEncoding) :
    ((splitLines text).length ≤ p.line.toNat ∧ offsetOf text p e = byteLength text) ∨
    ∃ before left right after,
      StartsLine text p.line.toNat before (left ++ (right ++ after)) ∧
      lineHead (left ++ (right ++ after)) = left ++ right ∧
      FloorsTo e p.character.toNat left right ∧
      text = (before ++ left) ++ (right ++ after) ∧
      offsetOf text p e = byteLength (before ++ left) := by
  rcases Nat.lt_or_ge p.line.toNat (splitLines text).length with hlt | hge
  · obtain ⟨before, rest, hn⟩ := exists_startsLine hlt
    obtain ⟨left, right, hline, hfloors, hoffset⟩ := hn.offsetOf_eq e
    obtain ⟨after, rfl, htext⟩ := hn.text_cut hline
    exact .inr ⟨before, left, right, after, hn, hline, hfloors, htext,
      by rw [hoffset, byteLength_append]⟩
  · exact .inl ⟨hge, offsetOf_past_end hge e⟩

theorem offsetOf_le (text : List Char) (p : Position) (e : PositionEncoding) :
    offsetOf text p e ≤ byteLength text := by
  rcases offsetOf_cases text p e with ⟨-, hoffset⟩ | ⟨_, _, _, _, -, -, -, htext, hoffset⟩
  · exact Nat.le_of_eq hoffset
  · rw [hoffset, htext, byteLength_append (_ ++ _)]
    exact Nat.le_add_right ..

/-- The offset of a position stands between characters and splits no line end. -/
theorem offsetOf_isBoundary (text : List Char) (p : Position) (e : PositionEncoding) :
    Utf8.isBoundary (Utf8.bytes text) (offsetOf text p e) = true ∧
      Utf8.splitsPair (Utf8.bytes text) (offsetOf text p e) = false := by
  rcases offsetOf_cases text p e with
    ⟨-, hoffset⟩ | ⟨before, left, right, after, hn, hline, -, htext, hoffset⟩
  · have hend := Utf8.isBoundary_byteLength text []
    have hwhole := Utf8.splitsPair_byteLength text []
    rw [List.append_nil] at hend hwhole
    rw [hoffset]
    exact ⟨hend, by simpa using hwhole⟩
  · have hsplit := Utf8.splitsPair_byteLength (before ++ left) (right ++ after)
    rw [hoffset, htext]
    exact ⟨Utf8.isBoundary_byteLength (before ++ left) (right ++ after),
      Bool.eq_false_iff.2 fun h => hn.not_split_inside hline (hsplit.1 h)⟩

/-- A greater position leads no further back. -/
theorem offsetOf_mono {p q : Position} (h : p.le q = true) (text : List Char)
    (e : PositionEncoding) : offsetOf text p e ≤ offsetOf text q e := by
  have hle := Position.le_iff.1 h
  rcases offsetOf_cases text q e with
    ⟨-, hq⟩ | ⟨before', left', right', after', hn', hline', hfloors', -, hq⟩
  · rw [hq]
    exact offsetOf_le text p e
  · have hexists := (List.getElem?_eq_some_iff.1 hn'.getElem?_splitLines).1
    rcases offsetOf_cases text p e with
      ⟨hpast, -⟩ | ⟨before, left, right, after, hn, hline, hfloors, -, hp⟩
    · omega
    · rw [hp, hq, byteLength_append, byteLength_append]
      rcases hle with hlines | ⟨hsame, hcolumns⟩
      · -- the line of `p` ends before that of `q` starts
        have hend := hn.end_lt hn' hlines
        rw [hline, byteLength_append] at hend
        omega
      · -- in one line the part before `p` fits into the units of `q`
        rw [hsame] at hn
        obtain ⟨rfl, hrest⟩ := hn.unique hn'
        rw [hrest, hline'] at hline
        have hpart : left <+: left' := by
          refine hfloors'.isPrefix ?_ (Nat.le_trans hfloors.fits hcolumns)
          rw [hline]
          exact List.prefix_append left right
        exact Nat.add_le_add_left (byteLength_le_of_isPrefix hpart) _

/-! ## And the position of that offset -/

/-- The offset behind the first part of a line has the line and the width of that part for its
position. -/
theorem StartsLine.positionFrom_eq {text before left right after : List Char} {n : Nat}
    (h : StartsLine text n before (left ++ (right ++ after)))
    (hline : lineHead (left ++ (right ++ after)) = left ++ right) (e : PositionEncoding) :
    positionFrom e (floorBoundary (byteLength (before ++ left)) text) 0 0 0 text
      = (n, e.width left) := by
  have htext : text = (before ++ left) ++ (right ++ after) := by
    rw [h.text_eq, List.append_assoc]
  have htake : takeBytes (byteLength (before ++ left)) text = before ++ left := by
    rw [htext, takeBytes_byteLength]
  have hdrop : dropBytes (byteLength (before ++ left)) text = right ++ after := by
    rw [htext, dropBytes_byteLength]
  have hboundary : IsBoundary (byteLength (before ++ left)) text := by
    rw [IsBoundary, floorBoundary, htake]
  have hwhole : ¬ SplitsLineEnd (byteLength (before ++ left)) text := by
    rw [SplitsLineEnd, htake, hdrop]
    exact h.not_split_inside hline
  have hlocates := positionFrom_locates e (byteLength (before ++ left)) text
  rw [anchor_of_isBoundary hboundary hwhole] at hlocates
  obtain ⟨before', left', right', after', hn', hline', hcolumn, hoffset⟩ := hlocates.startsLine
  -- both the scan and the walk find the offset in its one line
  have hin : InLine text (byteLength (before ++ left)) n := by
    refine ⟨_, _, h.lineBounds_eq, ?_⟩
    rw [hline, byteLength_append, byteLength_append]
    omega
  have hlineNumber := (positionFrom_inLine e hboundary).unique hin
  rw [hlineNumber] at hn'
  obtain ⟨rfl, hrest⟩ := h.unique hn'
  rw [← hrest, hline] at hline'
  rw [byteLength_append, Nat.add_left_cancel_iff] at hoffset
  obtain ⟨rfl, -⟩ := append_inj_of_byteLength hline' hoffset
  exact Prod.ext hlineNumber hcolumn

/-- A position in a line that exists comes back as the greatest column of the line that it
reaches. -/
theorem positionOf_offsetOf_of_line {e : PositionEncoding} {text line : List Char} {p : Position}
    (h : (splitLines text)[p.line.toNat]? = some line) :
    ∃ column : UInt32, positionOf text (offsetOf text p e) e = ⟨p.line, column⟩ ∧
      IsColumn e line column.toNat ∧ column ≤ p.character ∧
      ∀ k, IsColumn e line k → k ≤ p.character.toNat → k ≤ column.toNat := by
  have hexists := (List.getElem?_eq_some_iff.1 h).1
  rcases offsetOf_cases text p e with
    ⟨hpast, -⟩ | ⟨before, left, right, after, hn, hline, hfloors, -, hoffset⟩
  · omega
  · rw [hn.getElem?_splitLines, hline, Option.some.injEq] at h
    subst h
    have hwidth : (e.width left).toUInt32.toNat = e.width left := by
      have hle := Nat.le_trans hfloors.fits (Nat.le_of_lt_succ p.character.toNat_lt)
      exact UInt32.toNat_ofNat_of_lt' (Nat.lt_succ_of_le hle)
    refine ⟨(e.width left).toUInt32, ?_, ⟨left, List.prefix_append left right, hwidth.symm⟩, ?_, ?_⟩
    · rw [hoffset, positionOf, hn.positionFrom_eq hline e]
      simp
    · rw [UInt32.le_iff_toNat_le, hwidth]
      exact hfloors.fits
    · rintro k ⟨part, hpart, rfl⟩ hk
      rw [hwidth]
      exact width_le_of_isPrefix e (hfloors.isPrefix hpart hk)

/-- Whether a position is where a text ends: behind the last line. -/
def IsEndPosition (e : PositionEncoding) (text : String) (p : Position) : Prop :=
  p.line.toNat + 1 = (lines text).length ∧
    ∃ last, (lines text).getLast? = some last ∧ p.character.toNat = e.width last.toList

theorem positionOf_offsetOf_past_end {e : PositionEncoding} {text : String} {p : Position}
    (hcount : Countable e text.toList) (h : (lines text).length ≤ p.line.toNat) :
    IsEndPosition e text (positionOf text.toList (offsetOf text.toList p e) e) := by
  obtain ⟨before, rest, hn, hunbroken⟩ := exists_lastLine text.toList
  have hwhole : lineHead rest = rest := by
    have hhead := lineHead_append hunbroken []
    rwa [List.append_nil, show lineHead [] = [] from rfl, List.append_nil] at hhead
  have hlast : (splitLines text.toList)[(splitLines text.toList).length - 1]? = some rest := by
    rw [hn.getElem?_splitLines, hwhole]
  have hcut : StartsLine text.toList ((splitLines text.toList).length - 1) before
      (rest ++ ([] ++ [])) := by simpa using hn
  have hscan := hcut.positionFrom_eq (by simpa using hwhole) e
  rw [← hn.text_eq] at hscan
  have hpos := splitLines_length_pos text.toList
  have hlines := hcount.1
  have hnumber : ((splitLines text.toList).length - 1).toUInt32.toNat
      = (splitLines text.toList).length - 1 :=
    UInt32.toNat_ofNat_of_lt' (Nat.lt_of_le_of_lt (Nat.sub_le _ 1) hlines)
  have hwidth := hcount.2 rest (List.mem_of_getElem? hlast)
  rw [offsetOf_past_end (by rwa [← length_lines]), positionOf, hscan, IsEndPosition, length_lines]
  refine ⟨?_, String.ofList rest, ?_, ?_⟩
  · exact (congrArg (· + 1) hnumber).trans (Nat.sub_add_cancel hpos)
  · rw [List.getLast?_eq_getElem?, getElem?_lines, length_lines, hlast]
    rfl
  · rw [String.toList_ofList]
    exact UInt32.toNat_ofNat_of_lt' hwidth

end Document

/-! ## Changes -/

namespace Text.Utf8

/-- Bytes with those from `start` to `stop` replaced; none unless the two offsets are in order, not
past the end, and between characters. -/
def replaceRange? (bytes : List UInt8) (start stop : Nat) (insert : List UInt8) :
    Option (List UInt8) :=
  if start ≤ stop ∧ stop ≤ bytes.length ∧ isBoundary bytes start = true ∧
      isBoundary bytes stop = true then
    some (bytes.take start ++ insert ++ bytes.drop stop)
  else none

theorem take_bytes {n : Nat} {cs : List Char} (h : IsBoundary n cs) :
    (bytes cs).take n = bytes (takeBytes n cs) := by
  have hcs := bytes_append (takeBytes n cs) (dropBytes n cs)
  have hlength : (bytes (takeBytes n cs)).length = n := (length_bytes _).trans h
  rw [takeBytes_append_dropBytes] at hcs
  rw [hcs, List.take_left' hlength]

theorem drop_bytes {n : Nat} {cs : List Char} (h : IsBoundary n cs) :
    (bytes cs).drop n = bytes (dropBytes n cs) := by
  have hcs := bytes_append (takeBytes n cs) (dropBytes n cs)
  have hlength : (bytes (takeBytes n cs)).length = n := (length_bytes _).trans h
  rw [takeBytes_append_dropBytes] at hcs
  rw [hcs, List.drop_left' hlength]

end Text.Utf8

open Document Text

/-- A change of a range replaces the bytes between the offsets of its two ends, as they come. -/
theorem ContentChange.replaceRange?_apply (e : PositionEncoding) (text new : String) (r : Range)
    (length : Option UInt32) :
    Utf8.replaceRange? (Utf8.encode text) (offsetOf text.toList r.normalized.start e)
        (offsetOf text.toList r.normalized.stop e) (Utf8.encode new)
      = some (Utf8.encode (ContentChange.apply e text (.incremental r length new))) := by
  have hle := offsetOf_mono r.normalized_le text.toList e
  have hstart := (offsetOf_isBoundary text.toList r.normalized.start e).1
  have hstop := (offsetOf_isBoundary text.toList r.normalized.stop e).1
  have hends : (offsetOf text.toList r.start e = offsetOf text.toList r.normalized.start e ∧
        offsetOf text.toList r.stop e = offsetOf text.toList r.normalized.stop e) ∨
      (offsetOf text.toList r.start e = offsetOf text.toList r.normalized.stop e ∧
        offsetOf text.toList r.stop e = offsetOf text.toList r.normalized.start e) := by
    rcases r.normalized_cases with hr | hr
    · exact .inl (by rw [hr]; exact ⟨rfl, rfl⟩)
    · exact .inr (by rw [hr]; exact ⟨rfl, rfl⟩)
  rw [ContentChange.apply_incremental hle hends, Utf8.encode_ofList, splice, Utf8.bytes_append,
    Utf8.bytes_append, Utf8.encode, Utf8.replaceRange?,
    if_pos ⟨hle, Utf8.le_length_of_isBoundary hstop, hstart, hstop⟩,
    Utf8.take_bytes (isBoundary_of_bytes hstart), Utf8.drop_bytes (isBoundary_of_bytes hstop)]
  rfl

/-- **Positions are monotone, safe and lead back to themselves.** In a text whose lines and columns
can be counted in 32 bits, and in any encoding: positions in order have offsets in order, none past
the end. Every offset of a position stands between characters and splits no line end, so a range can
be replaced at the offsets of its ends just as they come. And the position of the offset of a
position is the position itself if that is the start of a character or the end of its line,
otherwise the greatest such column of the line that it reaches; a line past the last leads to the end
of the text. -/
theorem Document.offsetOf_monotone_retraction (e : PositionEncoding) (text : String)
    (h : Countable e text.toList) :
    (∀ p q : Position, p.le q = true →
      offsetOf text.toList p e ≤ offsetOf text.toList q e ∧
      offsetOf text.toList q e ≤ (Utf8.encode text).length) ∧
    (∀ p, Utf8.isBoundary (Utf8.encode text) (offsetOf text.toList p e) = true ∧
      Utf8.splitsPair (Utf8.encode text) (offsetOf text.toList p e) = false) ∧
    (∀ (range : Range) (length : Option UInt32) (new : String),
      Utf8.replaceRange? (Utf8.encode text) (offsetOf text.toList range.normalized.start e)
          (offsetOf text.toList range.normalized.stop e) (Utf8.encode new)
        = some (Utf8.encode (ContentChange.apply e text (.incremental range length new)))) ∧
    (∀ (p : Position) (line : String), (lines text)[p.line.toNat]? = some line →
      IsColumn e line.toList p.character.toNat →
      positionOf text.toList (offsetOf text.toList p e) e = p) ∧
    (∀ (p : Position) (line : String), (lines text)[p.line.toNat]? = some line →
      ∃ column : UInt32, positionOf text.toList (offsetOf text.toList p e) e = ⟨p.line, column⟩ ∧
        IsColumn e line.toList column.toNat ∧ column ≤ p.character ∧
        ∀ k, IsColumn e line.toList k → k ≤ p.character.toNat → k ≤ column.toNat) ∧
    ∀ p : Position, (lines text).length ≤ p.line.toNat →
      IsEndPosition e text (positionOf text.toList (offsetOf text.toList p e) e) := by
  have hline {p : Position} {line : String} (hp : (lines text)[p.line.toNat]? = some line) :
      (splitLines text.toList)[p.line.toNat]? = some line.toList := by
    rw [← map_toList_lines, List.getElem?_map, hp]
    rfl
  refine ⟨fun p q hpq => ⟨offsetOf_mono hpq text.toList e, ?_⟩,
    fun p => offsetOf_isBoundary text.toList p e,
    fun range length new => ContentChange.replaceRange?_apply e text new range length,
    fun p line hp hcolumn => ?_, fun p line hp => positionOf_offsetOf_of_line (hline hp),
    fun p hp => positionOf_offsetOf_past_end h hp⟩
  · rw [Utf8.encode, Utf8.length_bytes]
    exact offsetOf_le text.toList q e
  · obtain ⟨column, hback, -, hle, hgreatest⟩ := positionOf_offsetOf_of_line (hline hp)
    have hge := hgreatest _ hcolumn (Nat.le_refl _)
    have hsame : column = p.character := UInt32.le_antisymm hle (UInt32.le_iff_toNat_le.2 hge)
    rw [hback, hsame]

/-- A column past the end of a line before a pair, a column behind a character of two units, a column
inside it, and a line past the last. -/
theorem Document.offsetOf_retraction_mixed_text :
    let text := String.ofList ['é', '\r', '\n', 'a', '😀', 'b']
    let line := String.ofList ['a', '😀', 'b']
    Countable .utf16 text.toList ∧ (⟨0, 99⟩ : Position).le ⟨1, 2⟩ = true ∧
    offsetOf text.toList ⟨0, 99⟩ .utf16 ≤ offsetOf text.toList ⟨1, 2⟩ .utf16 ∧
    (lines text)[1]? = some line ∧ IsColumn .utf16 line.toList 3 ∧
    positionOf text.toList (offsetOf text.toList ⟨1, 3⟩ .utf16) .utf16 = ⟨1, 3⟩ ∧
    (∃ column : UInt32,
      positionOf text.toList (offsetOf text.toList ⟨1, 2⟩ .utf16) .utf16 = ⟨1, column⟩ ∧
      IsColumn .utf16 line.toList column.toNat ∧ column ≤ 2) ∧
    (lines text).length ≤ 9 ∧
    IsEndPosition .utf16 text
      (positionOf text.toList (offsetOf text.toList ⟨9, 0⟩ .utf16) .utf16) := by
  intro text line
  have htext : text.toList = ['é', '\r', '\n', 'a', '😀', 'b'] := String.toList_ofList
  have hcount : Countable .utf16 text.toList := by
    rw [htext]
    decide
  have hle : (⟨0, 99⟩ : Position).le ⟨1, 2⟩ = true := by decide
  have hsecond : (lines text)[1]? = some line := by
    rw [getElem?_lines, htext]
    rfl
  have hcolumn : IsColumn .utf16 line.toList 3 :=
    ⟨['a', '😀'], by rw [String.toList_ofList]; exact ⟨['b'], rfl⟩, by decide⟩
  have hlength : (lines text).length ≤ 9 := by
    rw [length_lines, htext]
    decide
  obtain ⟨hmono, -, -, hself, hround, hpast⟩ :=
    Document.offsetOf_monotone_retraction .utf16 text hcount
  obtain ⟨column, hback, hiscolumn, hreaches, -⟩ := hround ⟨1, 2⟩ line hsecond
  exact ⟨hcount, hle, (hmono _ _ hle).1, hsecond, hcolumn, hself ⟨1, 3⟩ line hsecond hcolumn,
    ⟨column, hback, hiscolumn, hreaches⟩, hlength, hpast ⟨9, 0⟩ hlength⟩

end LanguageServer
