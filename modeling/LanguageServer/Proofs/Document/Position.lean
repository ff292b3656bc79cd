import LanguageServer.Document.Offset
import LanguageServer.Proofs.Text.Bytes

set_option autoImplicit false

/-! # From an offset to its position and back

`positionOf` counts line ends from the front of the text; `offsetOf` looks for the line first and
then counts units inside it. The two scanners are joined by `Locates`: a line number and a column
locate an offset when the line is `left ++ right`, the offset stands between the two halves, and the
column is the width of `left`. The scan of `positionOf` ends with a pair that locates its offset
(`positionFrom_locates`), and `offsetOf` takes any such pair back (`offsetOf_of_locates`).

The one offset that does not come back is the one between the two characters of a line end: it
stands for the end of the line (`anchor`). -/

namespace LanguageServer

/-- How many units characters take together. -/
def PositionEncoding.width (e : PositionEncoding) : List Char → Nat
  | [] => 0
  | c :: rest => e.units c + e.width rest

theorem PositionEncoding.units_pos (e : PositionEncoding) (c : Char) : 0 < e.units c := by
  cases e with
  | utf8 => exact c.utf8Size_pos
  | utf16 =>
      by_cases h : c.toNat < 0x10000
      · simp [PositionEncoding.units, h]
      · simp [PositionEncoding.units, h]
  | utf32 => exact Nat.one_pos

theorem PositionEncoding.width_append (e : PositionEncoding) (a b : List Char) :
    e.width (a ++ b) = e.width a + e.width b := by
  induction a with
  | nil => simp [PositionEncoding.width]
  | cons c rest ih => simp [PositionEncoding.width, ih, Nat.add_assoc]

namespace Document

open Text

/-- Whether an offset stands between the two characters of one line end. -/
def SplitsLineEnd (n : Nat) (text : List Char) : Prop :=
  (takeBytes n text).getLast? = some '\r' ∧ (dropBytes n text).head? = some '\n'

instance (n : Nat) (text : List Char) : Decidable (SplitsLineEnd n text) :=
  inferInstanceAs (Decidable (_ ∧ _))

/-- Where the position of an offset leads back to: the boundary at or before it, or the end of the
line if that boundary splits a line end. -/
def anchor (offset : Nat) (text : List Char) : Nat :=
  let n := floorBoundary offset text
  if SplitsLineEnd n text then n - 1 else n

/-- Whether the lines of a text and the units of each line can be counted in 32 bits. -/
def Countable (e : PositionEncoding) (text : List Char) : Prop :=
  (splitLines text).length < 4294967296 ∧ ∀ line ∈ splitLines text, e.width line < 4294967296

instance (e : PositionEncoding) (text : List Char) : Decidable (Countable e text) :=
  inferInstanceAs (Decidable (_ ∧ _))

/-! ## Lines -/

/-- The characters up to the first line end. -/
def lineHead (cs : List Char) : List Char := cs.takeWhile fun c => !isLineEnd c

/-- Whether no character ends a line. -/
def IsUnbroken (cs : List Char) : Prop := ∀ c ∈ cs, isLineEnd c = false

theorem isLineEnd_iff {c : Char} : isLineEnd c = true ↔ c = '\n' ∨ c = '\r' := by
  simp [isLineEnd]

theorem utf8Size_of_isLineEnd {c : Char} (h : isLineEnd c = true) : c.utf8Size = 1 := by
  rcases isLineEnd_iff.1 h with rfl | rfl <;> rfl

theorem lineHead_of_isLineEnd {c : Char} (rest : List Char) (h : isLineEnd c = true) :
    lineHead (c :: rest) = [] := by
  simp [lineHead, h]

theorem lineHead_cons {c : Char} (rest : List Char) (h : isLineEnd c = false) :
    lineHead (c :: rest) = c :: lineHead rest := by
  simp [lineHead, h]

theorem splitLines_of_isLineEnd {c : Char} {rest : List Char} (h : isLineEnd c = true)
    (hcr : ∀ tail, c = '\r' → rest ≠ '\n' :: tail) :
    splitLines (c :: rest) = [] :: splitLines rest := by
  rw [splitLines]
  · rw [if_pos h]
  · intro tail hc hrest
    exact hcr tail hc hrest

/-- A character that ends no line joins the first line of the rest. -/
theorem splitLines_cons {c : Char} {rest line : List Char} {lines : List (List Char)}
    (h : isLineEnd c = false) (hrest : splitLines rest = line :: lines) :
    splitLines (c :: rest) = (c :: line) :: lines := by
  have hcr : c ≠ '\r' := by rintro rfl; exact absurd h (by decide)
  rw [splitLines]
  · rw [if_neg (by simp [h]), hrest]
  · intro tail hc _
    exact absurd hc hcr

theorem splitLines_append {seg cs line : List Char} {lines : List (List Char)}
    (hseg : IsUnbroken seg) (hcs : splitLines cs = line :: lines) :
    splitLines (seg ++ cs) = (seg ++ line) :: lines := by
  induction seg with
  | nil => exact hcs
  | cons c rest ih =>
      have hrest : IsUnbroken rest := fun x hx => hseg x (List.mem_cons_of_mem _ hx)
      exact splitLines_cons (hseg c List.mem_cons_self) (ih hrest)

/-- What ends a line before `rest`: both characters of a pair, or one that is not half of a pair. -/
inductive LineBreak : (mark rest : List Char) → Prop
  | pair (rest : List Char) : LineBreak ['\r', '\n'] rest
  | single {c : Char} {rest : List Char} (hc : isLineEnd c = true)
      (hrest : ∀ tail, c = '\r' → rest ≠ '\n' :: tail) : LineBreak [c] rest

theorem splitLines_break {seg mark rest : List Char} (hseg : IsUnbroken seg)
    (hmark : LineBreak mark rest) :
    splitLines (seg ++ (mark ++ rest)) = seg :: splitLines rest := by
  have hhead : splitLines (mark ++ rest) = [] :: splitLines rest := by
    cases hmark with
    | pair => rfl
    | single hc hrest => exact splitLines_of_isLineEnd hc hrest
  simpa using splitLines_append hseg hhead

/-- The first line of a text is what stands before its first line end. -/
theorem splitLines_head (cs : List Char) : ∃ lines, splitLines cs = lineHead cs :: lines := by
  induction cs with
  | nil => exact ⟨[], rfl⟩
  | cons c rest ih =>
      by_cases hc : isLineEnd c = true
      · rw [lineHead_of_isLineEnd rest hc]
        by_cases hcr : ∃ tail, c = '\r' ∧ rest = '\n' :: tail
        · obtain ⟨tail, rfl, rfl⟩ := hcr
          exact ⟨splitLines tail, rfl⟩
        · refine ⟨splitLines rest, splitLines_of_isLineEnd hc ?_⟩
          intro tail h h'
          exact hcr ⟨tail, h, h'⟩
      · obtain ⟨lines, hlines⟩ := ih
        have hc' : isLineEnd c = false := by simpa using hc
        exact ⟨lines, by rw [splitLines_cons hc' hlines, lineHead_cons rest hc']⟩

/-! ## The scan for a position -/

/-- How far the characters before an offset reach, the first half of a split line end left out. -/
def anchorLength (before after : List Char) : Nat :=
  if before.getLast? = some '\r' ∧ after.head? = some '\n' then byteLength before - 1
  else byteLength before

theorem anchorLength_nil (after : List Char) : anchorLength [] after = 0 := by
  simp [anchorLength]

theorem anchorLength_cons {c : Char} {before after : List Char}
    (h : ¬ (c = '\r' ∧ before = [] ∧ after.head? = some '\n')) :
    anchorLength (c :: before) after = c.utf8Size + anchorLength before after := by
  cases before with
  | nil =>
      have hsplit : ¬ ([c].getLast? = some '\r' ∧ after.head? = some '\n') := by
        rintro ⟨hc, hafter⟩
        exact h ⟨by simpa using hc, rfl, hafter⟩
      rw [anchorLength, if_neg hsplit, anchorLength_nil, byteLength_cons, byteLength_nil]
  | cons d rest =>
      have hpos : 0 < byteLength (d :: rest) := by
        rw [byteLength_cons]; exact Nat.lt_of_lt_of_le d.utf8Size_pos (Nat.le_add_right ..)
      rw [anchorLength, anchorLength, List.getLast?_cons_cons, byteLength_cons c]
      split <;> omega

theorem anchor_eq (offset : Nat) (text : List Char) :
    anchor offset text = anchorLength (takeBytes offset text) (dropBytes offset text) := by
  have htake : takeBytes (floorBoundary offset text) text = takeBytes offset text := by
    have h := takeBytes_byteLength (takeBytes offset text) (dropBytes offset text)
    rwa [takeBytes_append_dropBytes] at h
  have hdrop : dropBytes (floorBoundary offset text) text = dropBytes offset text := by
    have h := dropBytes_byteLength (takeBytes offset text) (dropBytes offset text)
    rwa [takeBytes_append_dropBytes] at h
  simp only [anchor, SplitsLineEnd, anchorLength, htake, hdrop]
  rfl

/-- A line found at its own number ends before the next line end. -/
theorem lineBoundsFrom_self (line start i : Nat) (cs : List Char) :
    lineBoundsFrom line line start i cs = some (start, i + byteLength (lineHead cs)) := by
  induction cs generalizing i with
  | nil => simp [lineBoundsFrom, lineHead]
  | cons c rest ih =>
      by_cases hc : isLineEnd c = true
      · rw [lineHead_of_isLineEnd rest hc]
        by_cases hcr : ∃ tail, c = '\r' ∧ rest = '\n' :: tail
        · obtain ⟨tail, rfl, rfl⟩ := hcr
          simp [lineBoundsFrom]
        · rw [lineBoundsFrom, if_pos hc, if_pos rfl]
          · simp
          · intro tail h h'
            exact hcr ⟨tail, h, h'⟩
      · have hc' : isLineEnd c = false := by simpa using hc
        have hcr : c ≠ '\r' := by rintro rfl; exact absurd hc' (by decide)
        rw [lineBoundsFrom, if_neg hc, ih, lineHead_cons rest hc', byteLength_cons, Nat.add_assoc]
        intro tail h _
        exact absurd h hcr

theorem lineBoundsFrom_unbroken {seg : List Char} (hseg : IsUnbroken seg)
    (line current start i : Nat) (cs : List Char) :
    lineBoundsFrom line current start i (seg ++ cs)
      = lineBoundsFrom line current start (i + byteLength seg) cs := by
  induction seg generalizing i with
  | nil => simp
  | cons c rest ih =>
      have hrest : IsUnbroken rest := fun x hx => hseg x (List.mem_cons_of_mem _ hx)
      have hc : isLineEnd c = false := hseg c List.mem_cons_self
      have hcr : c ≠ '\r' := by rintro rfl; exact absurd hc (by decide)
      rw [List.cons_append, lineBoundsFrom, if_neg (by simp [hc]), ih hrest, byteLength_cons,
        Nat.add_assoc]
      intro tail h _
      exact absurd h hcr

theorem lineBoundsFrom_break {mark rest : List Char} (hmark : LineBreak mark rest)
    {line current : Nat} (hline : current ≠ line) (start i : Nat) :
    lineBoundsFrom line current start i (mark ++ rest)
      = lineBoundsFrom line (current + 1) (i + byteLength mark) (i + byteLength mark) rest := by
  cases hmark with
  | pair =>
      have hlength : byteLength ['\r', '\n'] = 2 := rfl
      simp [lineBoundsFrom, hline, hlength]
  | @single c _ hc hrest =>
      rw [List.singleton_append, lineBoundsFrom, if_pos hc, if_neg hline]
      · simp [byteLength, utf8Size_of_isLineEnd hc]
      · intro tail h h'
        exact hrest tail h h'

/-- In a text whose first characters `before` are the lines up to number `first`, a line and a
column locate an offset: the line is `left ++ right`, the offset stands between the two halves, and
the column is the width of `left`. -/
def LocatesFrom (e : PositionEncoding) (before : List Char) (first : Nat) (text : List Char)
    (offset : Nat) (p : Nat × Nat) : Prop :=
  ∃ passed left right after : List Char,
    text = passed ++ ((left ++ right) ++ after) ∧
    first ≤ p.1 ∧
    lineBoundsFrom p.1 first (byteLength before) (byteLength before) text
      = some (byteLength (before ++ passed),
          byteLength (before ++ passed) + byteLength (left ++ right)) ∧
    (splitLines text)[p.1 - first]? = some (left ++ right) ∧
    p.2 = e.width left ∧
    offset = byteLength (before ++ passed) + byteLength left

theorem locatesFrom_here (e : PositionEncoding) (before : List Char) (first : Nat)
    {seg : List Char} (hseg : IsUnbroken seg) (cs : List Char) :
    LocatesFrom e before first (seg ++ cs) (byteLength before + byteLength seg)
      (first, e.width seg) := by
  obtain ⟨lines, hlines⟩ := splitLines_head cs
  refine ⟨[], seg, lineHead cs, cs.dropWhile fun c => !isLineEnd c, ?_, Nat.le_refl _, ?_, ?_,
    rfl, by simp⟩
  · simp [lineHead, List.takeWhile_append_dropWhile]
  · rw [lineBoundsFrom_unbroken hseg, lineBoundsFrom_self]
    simp [Nat.add_assoc]
  · simp [splitLines_append hseg hlines]

theorem LocatesFrom.of_next {e : PositionEncoding} {before seg mark rest : List Char}
    {first offset : Nat} {p : Nat × Nat} (hseg : IsUnbroken seg) (hmark : LineBreak mark rest)
    (h : LocatesFrom e (before ++ (seg ++ mark)) (first + 1) rest offset p) :
    LocatesFrom e before first (seg ++ (mark ++ rest)) offset p := by
  obtain ⟨passed, left, right, after, hrest, hfirst, hbounds, hline, hcolumn, hoffset⟩ := h
  refine ⟨seg ++ mark ++ passed, left, right, after, ?_, by omega, ?_, ?_, hcolumn, ?_⟩
  · simp [hrest]
  · have hne : first ≠ p.1 := by omega
    rw [lineBoundsFrom_unbroken hseg, lineBoundsFrom_break hmark hne]
    simpa [Nat.add_assoc] using hbounds
  · have hindex : p.1 - first = (p.1 - (first + 1)) + 1 := by omega
    rw [splitLines_break hseg hmark, hindex, List.getElem?_cons_succ]
    exact hline
  · simpa [Nat.add_assoc] using hoffset

/-- A part of a text that reaches beyond nothing starts with the text's first character. -/
theorem exists_cons_prefix {c : Char} {rest pre post : List Char} (h : c :: rest = pre ++ post)
    (hpos : 0 < byteLength pre) : ∃ pre', pre = c :: pre' ∧ rest = pre' ++ post := by
  cases pre with
  | nil => exact absurd hpos (by rw [byteLength_nil]; omega)
  | cons d pre =>
      obtain ⟨rfl, hrest⟩ := List.cons.inj h
      exact ⟨pre, rfl, hrest⟩

/-- A part of a text that reaches beyond the first character of a pair holds the pair. -/
theorem exists_pair_prefix {rest pre post : List Char} (h : '\r' :: '\n' :: rest = pre ++ post)
    (hlong : 1 < byteLength pre) : ∃ pre', pre = '\r' :: '\n' :: pre' ∧ rest = pre' ++ post := by
  have hone : '\r'.utf8Size = 1 := rfl
  obtain ⟨pre, rfl, hrest⟩ := exists_cons_prefix h (by omega)
  rw [byteLength_cons, hone] at hlong
  obtain ⟨pre, rfl, hrest'⟩ := exists_cons_prefix hrest (by omega)
  exact ⟨pre, rfl, hrest'⟩

/-- The anchor of an offset before a pair or inside it stands before the pair. -/
theorem anchorLength_pair {rest pre post : List Char} (h : '\r' :: '\n' :: rest = pre ++ post)
    (hshort : byteLength pre ≤ 1) : anchorLength pre post = 0 := by
  cases pre with
  | nil => exact anchorLength_nil post
  | cons c pre =>
      rw [List.cons_append] at h
      obtain ⟨rfl, hpre⟩ := List.cons.inj h
      have hsize : '\r'.utf8Size = 1 := rfl
      rw [byteLength_cons, hsize] at hshort
      have hnil : pre = [] := byteLength_eq_zero.1 (by omega)
      subst hnil
      rw [List.nil_append] at hpre
      simp [anchorLength, ← hpre, byteLength_cons, hsize]

/-- A text is empty, starts with a joined pair, or starts with a character that does not begin
one. -/
theorem first_cases (cs : List Char) : cs = [] ∨ (∃ rest, cs = '\r' :: '\n' :: rest) ∨
    ∃ c rest, cs = c :: rest ∧ ∀ tail, c = '\r' → rest = '\n' :: tail → False := by
  match cs with
  | [] => exact .inl rfl
  | c :: rest =>
      by_cases hpair : c = '\r' ∧ rest.head? = some '\n'
      · obtain ⟨rfl, hrest⟩ := hpair
        obtain ⟨tail, rfl⟩ := List.head?_eq_some_iff.1 hrest
        exact .inr (.inl ⟨tail, rfl⟩)
      · refine .inr (.inr ⟨c, rest, rfl, fun tail hc hrest => hpair ⟨hc, ?_⟩⟩)
        rw [hrest]
        rfl

/-- The scan ends with a line and a column that locate the anchor of the offset. The induction
follows the scan: `seg` is what it has read of the line at hand, which starts after `before`. -/
theorem positionFrom_locatesFrom (e : PositionEncoding) (offset line column i : Nat)
    (cs before seg pre post : List Char) (hseg : IsUnbroken seg)
    (hcolumn : column = e.width seg) (hi : i = byteLength before + byteLength seg)
    (hcs : cs = pre ++ post) (hoffset : offset = i + byteLength pre) :
    LocatesFrom e before line (seg ++ cs) (i + anchorLength pre post)
      (positionFrom e offset line column i cs) := by
  induction hn : cs.length using Nat.strongRecOn generalizing line column i cs before seg pre with
  | ind n ih =>
      obtain rfl | ⟨rest, rfl⟩ | ⟨c, rest, rfl, hcr⟩ := first_cases cs
      · obtain ⟨rfl, rfl⟩ := List.append_eq_nil_iff.1 hcs.symm
        rw [positionFrom, anchorLength_nil, hi, hcolumn]
        exact locatesFrom_here e before line hseg []
      · simp only [List.length_cons] at hn
        rw [positionFrom]
        split
        · next h =>
            -- The offset stands before the pair or inside it; both are the end of the line.
            rw [anchorLength_pair hcs (by omega), hi, hcolumn]
            exact locatesFrom_here e before line hseg _
        · next h =>
            obtain ⟨pre, rfl, hrest⟩ := exists_pair_prefix hcs (by omega)
            have hone : '\r'.utf8Size = 1 ∧ '\n'.utf8Size = 1 := ⟨rfl, rfl⟩
            have hnext := ih rest.length (by omega) (line + 1) 0 (i + 2) rest
              (before ++ (seg ++ ['\r', '\n'])) [] pre (fun c hc => absurd hc (by simp)) rfl
              (by simp only [byteLength_append, byteLength_cons, byteLength_nil]; omega) hrest
              (by simp only [byteLength_cons] at hoffset; omega) rfl
            have hlength : i + anchorLength ('\r' :: '\n' :: pre) post
                = i + 2 + anchorLength pre post := by
              rw [anchorLength_cons (by simp), anchorLength_cons (by simp)]
              omega
            rw [hlength]
            exact LocatesFrom.of_next hseg (.pair rest) hnext
      · simp only [List.length_cons] at hn
        rw [positionFrom.eq_3 e offset line column i c rest hcr]
        split
        · next h =>
            have hnil : pre = [] := byteLength_eq_zero.1 (by omega)
            rw [hnil, anchorLength_nil, hi, hcolumn]
            exact locatesFrom_here e before line hseg _
        · next h =>
            obtain ⟨pre, rfl, hrest⟩ := exists_cons_prefix hcs (by omega)
            -- The offset is not inside a pair that this character begins.
            have hwhole : ¬ (c = '\r' ∧ pre = [] ∧ post.head? = some '\n') := by
              rintro ⟨hc, rfl, hpost⟩
              obtain ⟨tail, rfl⟩ := List.head?_eq_some_iff.1 hpost
              exact hcr tail hc hrest
            rw [anchorLength_cons hwhole, ← Nat.add_assoc]
            split
            · next hc =>
                have hsize : c.utf8Size = 1 := utf8Size_of_isLineEnd hc
                have hbreak : LineBreak [c] rest := .single hc fun tail h h' => hcr tail h h'
                have hnext := ih rest.length (by omega) (line + 1) 0 (i + 1) rest
                  (before ++ (seg ++ [c])) [] pre (fun c hc => absurd hc (by simp)) rfl
                  (by simp only [byteLength_append, byteLength_cons, byteLength_nil]; omega) hrest
                  (by simp only [byteLength_cons] at hoffset; omega) rfl
                rw [hsize]
                exact LocatesFrom.of_next hseg hbreak hnext
            · next hc =>
                have hunbroken : IsUnbroken (seg ++ [c]) := by
                  intro d hd
                  rcases List.mem_append.1 hd with hd | hd
                  · exact hseg d hd
                  · rw [List.mem_singleton.1 hd]
                    simpa using hc
                have hnext := ih rest.length (by omega) line (column + e.units c)
                  (i + c.utf8Size) rest before (seg ++ [c]) pre hunbroken
                  (by rw [PositionEncoding.width_append, ← hcolumn]; rfl)
                  (by simp only [byteLength_append, byteLength_cons, byteLength_nil]; omega) hrest
                  (by rw [byteLength_cons] at hoffset; omega) rfl
                simpa using hnext

/-- The scan of a whole text locates the anchor of the offset it was given. -/
theorem positionFrom_locates (e : PositionEncoding) (offset : Nat) (text : List Char) :
    LocatesFrom e [] 0 text (anchor offset text)
      (positionFrom e (floorBoundary offset text) 0 0 0 text) := by
  have h := positionFrom_locatesFrom e (floorBoundary offset text) 0 0 0 text
    [] [] (takeBytes offset text) (dropBytes offset text)
    (fun c hc => absurd hc (by simp)) rfl rfl (takeBytes_append_dropBytes offset text).symm
    (by rw [Nat.zero_add]; rfl)
  rw [Nat.zero_add, ← anchor_eq] at h
  exact h

/-! ## The way back -/

/-- Counting off the units of the left part of a line leads to its end. -/
theorem columnOffset_width (e : PositionEncoding) (left right : List Char) (units bytes : Nat) :
    columnOffset e (units + e.width left) units bytes (left ++ right)
      = bytes + byteLength left := by
  induction left generalizing units bytes with
  | nil =>
      cases right with
      | nil => rfl
      | cons c rest => simp [columnOffset, PositionEncoding.width]
  | cons c rest ih =>
      have hunits := e.units_pos c
      have hwidth : e.width (c :: rest) = e.units c + e.width rest := rfl
      rw [List.cons_append, columnOffset, if_neg (by omega), if_neg (by omega), hwidth,
        ← Nat.add_assoc, ih, byteLength_cons, Nat.add_assoc]

theorem offsetOf_of_locates {e : PositionEncoding} {text : List Char} {offset : Nat}
    {p : Nat × Nat} (h : LocatesFrom e [] 0 text offset p) (hline : p.1 < 4294967296)
    (hcolumn : p.2 < 4294967296) :
    offsetOf text ⟨p.1.toUInt32, p.2.toUInt32⟩ e = offset := by
  obtain ⟨passed, left, right, after, htext, -, hbounds, -, hwidth, hoffset⟩ := h
  have hp₁ : p.1.toUInt32.toNat = p.1 := by
    rw [Nat.toUInt32_eq, UInt32.toNat_ofNat']; exact Nat.mod_eq_of_lt hline
  have hp₂ : p.2.toUInt32.toNat = p.2 := by
    rw [Nat.toUInt32_eq, UInt32.toNat_ofNat']; exact Nat.mod_eq_of_lt hcolumn
  have hcount := columnOffset_width e left right 0 0
  rw [Nat.zero_add, Nat.zero_add] at hcount
  have hslice : slice (byteLength passed) (byteLength passed + byteLength (left ++ right)) text
      = left ++ right := by
    rw [htext]; exact slice_byteLength passed (left ++ right) after
  simp only [List.nil_append, byteLength_nil] at hbounds hoffset
  simp only [offsetOf, hp₁, hp₂, lineBounds, hbounds, hslice]
  rw [hwidth, hcount, hoffset]

/-- **From an offset to its position and back.** Every offset comes back as its anchor. -/
theorem offsetOf_positionOf {e : PositionEncoding} {text : List Char} (h : Countable e text)
    (offset : Nat) : offsetOf text (positionOf text offset e) e = anchor offset text := by
  have hlocates := positionFrom_locates e offset text
  obtain ⟨passed, left, right, after, -, -, -, hline, hwidth, -⟩ := id hlocates
  rw [Nat.sub_zero] at hline
  obtain ⟨hindex, -⟩ := List.getElem?_eq_some_iff.1 hline
  have hcolumn : e.width left ≤ e.width (left ++ right) := by
    rw [PositionEncoding.width_append]; exact Nat.le_add_right ..
  refine offsetOf_of_locates hlocates (Nat.lt_trans hindex h.1) ?_
  rw [hwidth]
  exact Nat.lt_of_le_of_lt hcolumn (h.2 _ (List.mem_of_getElem? hline))

theorem anchor_of_isBoundary {offset : Nat} {text : List Char} (h : IsBoundary offset text)
    (hsplit : ¬ SplitsLineEnd offset text) : anchor offset text = offset := by
  have hfloor : floorBoundary offset text = offset := h
  simp only [anchor, hfloor, if_neg hsplit]

end Document

end LanguageServer
