import LanguageServer.Proofs.Document.Canonical

set_option autoImplicit false

/-! # One division into lines

Three functions divide a text into lines: `lines` cuts it up, `lineBounds` looks for the offsets of
one line, and `positionOf` counts the line ends before an offset. They agree, because each of them
can be followed along one walk over the text (`StartsLine`): it begins at the first line and goes
from a line, over what ends it, to the next. A line end is a line feed, a carriage return and a line
feed, or a carriage return that no line feed follows (`LineBreak`), so the walk can go on in one way
only, and it says of every line where it starts and what stands there. -/

namespace LanguageServer

namespace Text

/-- The bytes between the ends of two leading parts of a text are those of what stands there. -/
theorem Utf8.extract_bytes (before inside after : List Char) :
    (Utf8.bytes (before ++ (inside ++ after))).extract (byteLength before)
      (byteLength before + byteLength inside) = Utf8.bytes inside := by
  rw [Utf8.bytes_append, Utf8.bytes_append, ← Utf8.length_bytes before, ← Utf8.length_bytes inside,
    List.extract, List.drop_left, Nat.add_sub_cancel_left, List.take_left]

theorem isBoundary_of_bytes {n : Nat} {cs : List Char}
    (h : Utf8.isBoundary (Utf8.bytes cs) n = true) : IsBoundary n cs := by
  rw [IsBoundary, floorBoundary_eq_stepBack, Nat.min_eq_left (Utf8.le_length_of_isBoundary h),
    Utf8.stepBack_of_isBoundary h]

/-- Whether bytes from `stop` to `start` are one line end: a line feed, a carriage return and a line
feed, or a carriage return that no line feed follows. -/
def Utf8.IsLineEnd (bytes : List UInt8) (stop start : Nat) : Prop :=
  bytes.extract stop start = [10] ∨ bytes.extract stop start = [13, 10] ∨
    (bytes.extract stop start = [13] ∧ bytes[start]? ≠ some 10)

end Text

namespace Document

open Text

/-! ## Line ends -/

theorem isUnbroken_lineHead (cs : List Char) : IsUnbroken (lineHead cs) := by
  intro c hc
  simpa using List.all_eq_true.1 List.all_takeWhile c hc

theorem isUnbroken_nil : IsUnbroken [] := fun _ hc => absurd hc List.not_mem_nil

theorem LineBreak.byteLength_pos {mark rest : List Char} (h : LineBreak mark rest) :
    0 < byteLength mark := by
  cases h with
  | pair => decide
  | @single c => exact Nat.lt_of_lt_of_le c.utf8Size_pos (Nat.le_add_right ..)

theorem lineHead_append {seg : List Char} (hseg : IsUnbroken seg) (cs : List Char) :
    lineHead (seg ++ cs) = seg ++ lineHead cs := by
  induction seg with
  | nil => rfl
  | cons c seg ih =>
      have hrest : IsUnbroken seg := fun x hx => hseg x (List.mem_cons_of_mem _ hx)
      rw [List.cons_append, lineHead_cons _ (hseg c List.mem_cons_self), ih hrest, List.cons_append]

theorem lineHead_break {seg mark rest : List Char} (hseg : IsUnbroken seg)
    (hmark : LineBreak mark rest) : lineHead (seg ++ (mark ++ rest)) = seg := by
  have hhead : lineHead (mark ++ rest) = [] := by
    cases hmark with
    | pair => rfl
    | single hc => exact lineHead_of_isLineEnd rest hc
  rw [lineHead_append hseg, hhead, List.append_nil]

/-- A text is one line, or it has a first line end. -/
theorem break_cases (cs : List Char) : IsUnbroken cs ∨
    ∃ seg mark rest, cs = seg ++ (mark ++ rest) ∧ IsUnbroken seg ∧ LineBreak mark rest := by
  induction cs with
  | nil => exact .inl isUnbroken_nil
  | cons c rest ih =>
      by_cases hc : isLineEnd c = true
      · refine .inr ?_
        by_cases hpair : ∃ tail, c = '\r' ∧ rest = '\n' :: tail
        · obtain ⟨tail, rfl, rfl⟩ := hpair
          exact ⟨[], ['\r', '\n'], tail, rfl, isUnbroken_nil, .pair tail⟩
        · exact ⟨[], [c], rest, rfl, isUnbroken_nil,
            .single hc fun tail h h' => hpair ⟨tail, h, h'⟩⟩
      · have hfirst : ∀ {seg : List Char}, IsUnbroken seg → IsUnbroken (c :: seg) := by
          intro seg hseg d hd
          rcases List.mem_cons.1 hd with rfl | hd
          · simpa using hc
          · exact hseg d hd
        rcases ih with hrest | ⟨seg, mark, tail, rfl, hseg, hmark⟩
        · exact .inl (hfirst hrest)
        · exact .inr ⟨c :: seg, mark, tail, rfl, hfirst hseg, hmark⟩

theorem splitLines_unbroken {cs : List Char} (h : IsUnbroken cs) : splitLines cs = [cs] := by
  have hnil : splitLines [] = [[]] := rfl
  simpa using splitLines_append h hnil

/-! ## The walk along the lines -/

/-- Line `n` of a text starts behind `before`, and `rest` is the text from there on. -/
inductive StartsLine (text : List Char) : (n : Nat) → (before rest : List Char) → Prop
  | first : StartsLine text 0 [] text
  | after {n : Nat} {before seg mark rest : List Char}
      (h : StartsLine text n before (seg ++ (mark ++ rest))) (hseg : IsUnbroken seg)
      (hmark : LineBreak mark rest) : StartsLine text (n + 1) (before ++ (seg ++ mark)) rest

namespace StartsLine

variable {text before rest : List Char} {n : Nat}

theorem text_eq (h : StartsLine text n before rest) : text = before ++ rest := by
  induction h with
  | first => rfl
  | after _ _ _ ih => rw [ih]; simp

/-- The lines from number `n` on are those of the rest. -/
theorem drop_splitLines (h : StartsLine text n before rest) :
    (splitLines text).drop n = splitLines rest := by
  induction h with
  | first => rfl
  | after _ hseg hmark ih =>
      rw [← List.drop_drop, ih, splitLines_break hseg hmark]
      rfl

theorem getElem?_splitLines (h : StartsLine text n before rest) :
    (splitLines text)[n]? = some (lineHead rest) := by
  obtain ⟨lines, hlines⟩ := splitLines_head rest
  have hzero := congrArg (·[0]?) h.drop_splitLines
  simpa [hlines] using hzero

/-- The search for a line can begin at any line before it. -/
theorem lineBounds_eq_from (h : StartsLine text n before rest) {line : Nat} (hn : n ≤ line) :
    lineBounds text line
      = lineBoundsFrom line n (byteLength before) (byteLength before) rest := by
  induction h with
  | first => rfl
  | after _ hseg hmark ih =>
      rw [ih (by omega), lineBoundsFrom_unbroken hseg, lineBoundsFrom_break hmark (by omega)]
      simp only [byteLength_append, Nat.add_assoc]

theorem lineBounds_eq (h : StartsLine text n before rest) :
    lineBounds text n
      = some (byteLength before, byteLength before + byteLength (lineHead rest)) := by
  rw [h.lineBounds_eq_from (Nat.le_refl n), lineBoundsFrom_self]

/-- A line starts in one place. -/
theorem unique {before' rest' : List Char} (h : StartsLine text n before rest)
    (h' : StartsLine text n before' rest') : before = before' ∧ rest = rest' := by
  have hbounds := h.lineBounds_eq.symm.trans h'.lineBounds_eq
  simp only [Option.some.injEq, Prod.mk.injEq] at hbounds
  exact append_inj_of_byteLength (h.text_eq.symm.trans h'.text_eq) hbounds.1

/-- A later line starts later. -/
theorem byteLength_mono {m : Nat} {before' rest' : List Char} (h : StartsLine text m before rest)
    (h' : StartsLine text n before' rest') (hmn : m ≤ n) :
    byteLength before ≤ byteLength before' := by
  induction h' with
  | first =>
      obtain rfl : m = 0 := by omega
      exact Nat.le_of_eq (congrArg byteLength (h.unique .first).1)
  | @after n before' seg mark rest' h'' hseg hmark ih =>
      rcases Nat.lt_or_eq_of_le hmn with hlt | rfl
      · have hle := ih (by omega)
        rw [byteLength_append]
        omega
      · exact Nat.le_of_eq (congrArg byteLength (h.unique (h''.after hseg hmark)).1)

/-- A line ends before any later one starts. -/
theorem end_lt {m : Nat} {before' rest' : List Char} (h : StartsLine text m before rest)
    (h' : StartsLine text n before' rest') (hmn : m < n) :
    byteLength before + byteLength (lineHead rest) < byteLength before' := by
  induction h' with
  | first => omega
  | @after n before' seg mark rest' h'' hseg hmark ih =>
      have hpos := hmark.byteLength_pos
      simp only [byteLength_append]
      rcases Nat.lt_or_eq_of_le (Nat.le_of_lt_succ hmn) with hlt | rfl
      · have hlater := ih hlt
        omega
      · obtain ⟨rfl, rfl⟩ := h.unique h''
        rw [lineHead_break hseg hmark]
        omega

/-- No line starts in the middle of a line end. -/
theorem not_split (h : StartsLine text n before rest) :
    ¬ (before.getLast? = some '\r' ∧ rest.head? = some '\n') := by
  cases h with
  | first => simp
  | after _ _ hmark =>
      rintro ⟨hlast, hhead⟩
      cases hmark with
      | pair => simp at hlast
      | single _ hrest =>
          obtain ⟨tail, rfl⟩ := List.head?_eq_some_iff.1 hhead
          exact hrest tail (by simpa using hlast) rfl

end StartsLine

theorem exists_startsLine {text : List Char} {n : Nat} (h : n < (splitLines text).length) :
    ∃ before rest, StartsLine text n before rest := by
  induction n with
  | zero => exact ⟨[], text, .first⟩
  | succ n ih =>
      obtain ⟨before, rest, hn⟩ := ih (by omega)
      have hrest := congrArg List.length hn.drop_splitLines
      rw [List.length_drop] at hrest
      -- one more line means that the line at hand has an end
      rcases break_cases rest with hlast | ⟨seg, mark, tail, rfl, hseg, hmark⟩
      · rw [splitLines_unbroken hlast, List.length_singleton] at hrest
        omega
      · exact ⟨_, tail, hn.after hseg hmark⟩

theorem splitLines_length_pos (text : List Char) : 0 < (splitLines text).length := by
  obtain ⟨lines, hlines⟩ := splitLines_head text
  rw [hlines]
  exact Nat.succ_pos _

/-- The walk ends with a line that nothing ends. -/
theorem exists_lastLine (text : List Char) : ∃ before rest,
    StartsLine text ((splitLines text).length - 1) before rest ∧ IsUnbroken rest := by
  have hpos := splitLines_length_pos text
  have hlt : (splitLines text).length - 1 < (splitLines text).length := by omega
  obtain ⟨before, rest, hlast⟩ := exists_startsLine hlt
  have hrest := congrArg List.length hlast.drop_splitLines
  rw [List.length_drop] at hrest
  rcases break_cases rest with hunbroken | ⟨seg, mark, tail, rfl, hseg, hmark⟩
  · exact ⟨before, rest, hlast, hunbroken⟩
  · have hmore := splitLines_length_pos tail
    rw [splitLines_break hseg hmark, List.length_cons] at hrest
    omega

/-- Behind the last line there is none. -/
theorem lineBounds_eq_none {text : List Char} {n : Nat} (h : (splitLines text).length ≤ n) :
    lineBounds text n = none := by
  have hpos := splitLines_length_pos text
  obtain ⟨before, rest, hlast, hunbroken⟩ := exists_lastLine text
  have hnone := lineBoundsFrom_unbroken hunbroken n ((splitLines text).length - 1)
    (byteLength before) (byteLength before) []
  rw [List.append_nil] at hnone
  rw [hlast.lineBounds_eq_from (by omega), hnone, lineBoundsFrom, if_neg (by omega)]

/-- The bounds of a line are where the walk finds it. -/
theorem lineBounds_eq_some_iff {text : List Char} {n start stop : Nat} :
    lineBounds text n = some (start, stop) ↔
      ∃ before rest, StartsLine text n before rest ∧ start = byteLength before ∧
        stop = byteLength before + byteLength (lineHead rest) := by
  constructor
  · intro h
    rcases Nat.lt_or_ge n (splitLines text).length with hlt | hge
    · obtain ⟨before, rest, hn⟩ := exists_startsLine hlt
      have hbounds := h.symm.trans hn.lineBounds_eq
      simp only [Option.some.injEq, Prod.mk.injEq] at hbounds
      exact ⟨before, rest, hn, hbounds⟩
    · rw [lineBounds_eq_none hge] at h
      cases h
  · rintro ⟨before, rest, hn, rfl, rfl⟩
    exact hn.lineBounds_eq

/-! ## What stands between the lines -/

/-- The line ends of a text, in their order. -/
def lineEnds : List Char → List (List Char)
  | [] => []
  | '\r' :: '\n' :: rest => ['\r', '\n'] :: lineEnds rest
  | c :: rest => if isLineEnd c then [c] :: lineEnds rest else lineEnds rest

/-- Lines with line ends put between them. -/
def weave : (lines marks : List (List Char)) → List Char
  | line :: lines, mark :: marks => line ++ (mark ++ weave lines marks)
  | lines, _ => lines.flatten

theorem lineEnds_append {seg : List Char} (hseg : IsUnbroken seg) (cs : List Char) :
    lineEnds (seg ++ cs) = lineEnds cs := by
  induction seg with
  | nil => rfl
  | cons c seg ih =>
      have hc : isLineEnd c = false := hseg c List.mem_cons_self
      have hcr : c ≠ '\r' := by rintro rfl; exact absurd hc (by decide)
      rw [List.cons_append, lineEnds.eq_3 c _ fun tail h _ => hcr h, if_neg (by simp [hc])]
      exact ih fun x hx => hseg x (List.mem_cons_of_mem _ hx)

theorem lineEnds_break {seg mark rest : List Char} (hseg : IsUnbroken seg)
    (hmark : LineBreak mark rest) :
    lineEnds (seg ++ (mark ++ rest)) = mark :: lineEnds rest := by
  rw [lineEnds_append hseg]
  cases hmark with
  | pair => rfl
  | @single c _ hc hrest =>
      rw [List.singleton_append, lineEnds.eq_3 c rest fun tail h h' => hrest tail h h', if_pos hc]

theorem lineEnds_unbroken {cs : List Char} (h : IsUnbroken cs) : lineEnds cs = [] := by
  simpa [lineEnds] using lineEnds_append h []

/-- Put between the lines of a text, its line ends give the text back. -/
theorem weave_splitLines (text : List Char) :
    (splitLines text).length = (lineEnds text).length + 1 ∧
      weave (splitLines text) (lineEnds text) = text := by
  induction hn : text.length using Nat.strongRecOn generalizing text with
  | ind n ih =>
      rcases break_cases text with hunbroken | ⟨seg, mark, rest, rfl, hseg, hmark⟩
      · rw [splitLines_unbroken hunbroken, lineEnds_unbroken hunbroken]
        simp [weave]
      · have hshorter : rest.length < n := by
          have hpos : 0 < mark.length := by cases hmark <;> simp
          simp only [List.length_append] at hn
          omega
        obtain ⟨hlength, hweave⟩ := ih rest.length hshorter rest rfl
        rw [splitLines_break hseg hmark, lineEnds_break hseg hmark]
        simp only [List.length_cons, weave, hlength, hweave, and_self]

theorem isUnbroken_of_mem_splitLines {text line : List Char} (h : line ∈ splitLines text) :
    IsUnbroken line := by
  obtain ⟨n, hline⟩ := List.mem_iff_getElem?.1 h
  obtain ⟨hn, -⟩ := List.getElem?_eq_some_iff.1 hline
  obtain ⟨before, rest, hstart⟩ := exists_startsLine hn
  rw [hstart.getElem?_splitLines, Option.some.injEq] at hline
  rw [← hline]
  exact isUnbroken_lineHead rest

/-- The walk from one line to the next passes one line end. -/
theorem StartsLine.succ_cases {text before' rest' : List Char} {n : Nat}
    (h : StartsLine text (n + 1) before' rest') :
    ∃ before seg mark, StartsLine text n before (seg ++ (mark ++ rest')) ∧ IsUnbroken seg ∧
      LineBreak mark rest' ∧ before' = before ++ (seg ++ mark) ∧
      (lineEnds text)[n]? = some mark := by
  have hends {m : Nat} {before rest : List Char} (hm : StartsLine text m before rest) :
      (lineEnds text).drop m = lineEnds rest := by
    induction hm with
    | first => rfl
    | after _ hseg hmark ih =>
        rw [← List.drop_drop, ih, lineEnds_break hseg hmark]
        rfl
  cases h with
  | @after _ before seg mark _ hn hseg hmark =>
      have hzero := congrArg (·[0]?) (hends hn)
      exact ⟨before, seg, mark, hn, hseg, hmark, rfl,
        by simpa [lineEnds_break hseg hmark] using hzero⟩

/-! ## The line of an offset -/

/-- Whether an offset lies in line `n` or in what ends it, short of where that ends. -/
def InLine (text : List Char) (offset n : Nat) : Prop :=
  ∃ start stop, lineBounds text n = some (start, stop) ∧ start ≤ offset ∧
    (offset ≤ stop ∨
      ∃ start' stop', lineBounds text (n + 1) = some (start', stop') ∧ offset < start')

theorem InLine.not_lt {text : List Char} {offset m n : Nat} (hm : InLine text offset m)
    (hn : InLine text offset n) : ¬ m < n := by
  intro hlt
  obtain ⟨start, stop, hbounds, -, hoffset⟩ := hm
  obtain ⟨start', stop', hbounds', hstart', -⟩ := hn
  obtain ⟨before, rest, hline, rfl, rfl⟩ := lineBounds_eq_some_iff.1 hbounds
  obtain ⟨before', rest', hline', rfl, rfl⟩ := lineBounds_eq_some_iff.1 hbounds'
  rcases hoffset with hstop | ⟨start₁, stop₁, hbounds₁, hnext⟩
  · have hend := hline.end_lt hline' hlt
    omega
  · obtain ⟨before₁, rest₁, hline₁, rfl, rfl⟩ := lineBounds_eq_some_iff.1 hbounds₁
    have hmono := hline₁.byteLength_mono hline' hlt
    omega

theorem InLine.unique {text : List Char} {offset m n : Nat} (hm : InLine text offset m)
    (hn : InLine text offset n) : m = n := by
  have hmn := hm.not_lt hn
  have hnm := hn.not_lt hm
  omega

/-- A line and a column that locate an offset are found by the walk. -/
theorem LocatesFrom.startsLine {e : PositionEncoding} {text : List Char} {offset : Nat}
    {p : Nat × Nat} (h : LocatesFrom e [] 0 text offset p) :
    ∃ before left right after, StartsLine text p.1 before ((left ++ right) ++ after) ∧
      lineHead ((left ++ right) ++ after) = left ++ right ∧ p.2 = e.width left ∧
      offset = byteLength before + byteLength left := by
  obtain ⟨passed, left, right, after, htext, -, hbounds, hline, hcolumn, hoffset⟩ := h
  obtain ⟨before, rest, hn, hstart, -⟩ := lineBounds_eq_some_iff.1 hbounds
  rw [List.nil_append] at hstart hoffset
  rw [Nat.sub_zero, hn.getElem?_splitLines, Option.some.injEq] at hline
  obtain ⟨rfl, rfl⟩ := append_inj_of_byteLength (htext.symm.trans hn.text_eq) hstart
  exact ⟨passed, left, right, after, hn, hline, hcolumn, hoffset⟩

/-- A boundary that splits a line end stands between the characters of a pair. -/
theorem SplitsLineEnd.exists_pair {offset : Nat} {text : List Char} (h : SplitsLineEnd offset text)
    (hoffset : IsBoundary offset text) :
    ∃ init tail, text = init ++ ('\r' :: '\n' :: tail) ∧ offset = byteLength init + 1 := by
  obtain ⟨hlast, hfirst⟩ := h
  obtain ⟨init, hinit⟩ := List.getLast?_eq_some_iff.1 hlast
  obtain ⟨tail, htail⟩ := List.head?_eq_some_iff.1 hfirst
  refine ⟨init, tail, ?_, ?_⟩
  · rw [← takeBytes_append_dropBytes offset text, hinit, htail]
    simp
  · have hfloor : byteLength (takeBytes offset text) = offset := hoffset
    rw [hinit, byteLength_append] at hfloor
    exact hfloor.symm

/-- The part of a line that a pair follows is the whole line. -/
theorem StartsLine.after_pair {text before left right after tail : List Char} {n : Nat}
    (h : StartsLine text n before ((left ++ right) ++ after))
    (hline : lineHead ((left ++ right) ++ after) = left ++ right)
    (hpair : right ++ after = '\r' :: '\n' :: tail) :
    right = [] ∧ StartsLine text (n + 1) (before ++ (left ++ ['\r', '\n'])) tail := by
  have hunbroken := isUnbroken_lineHead ((left ++ right) ++ after)
  rw [hline] at hunbroken
  cases right with
  | nil =>
      rw [List.append_nil] at h hunbroken
      rw [List.nil_append] at hpair
      subst hpair
      exact ⟨rfl, h.after hunbroken (.pair tail)⟩
  | cons c right =>
      obtain ⟨rfl, -⟩ := List.cons.inj hpair
      exact absurd (hunbroken '\r' (by simp)) (by decide)

/-- The position of a boundary has the number of the line that the boundary lies in. -/
theorem positionFrom_inLine (e : PositionEncoding) {text : List Char} {offset : Nat}
    (hoffset : IsBoundary offset text) :
    InLine text offset (positionFrom e (floorBoundary offset text) 0 0 0 text).1 := by
  obtain ⟨before, left, right, after, hn, hhead, -, hanchor⟩ :=
    (positionFrom_locates e offset text).startsLine
  refine ⟨_, _, hn.lineBounds_eq, ?_⟩
  rw [hhead, byteLength_append]
  by_cases hsplit : SplitsLineEnd offset text
  · -- in the middle of a pair: the line ends one byte before, and the next starts one behind
    obtain ⟨init, tail, htext, hinit⟩ := hsplit.exists_pair hoffset
    have hfloor : floorBoundary offset text = offset := hoffset
    rw [anchor, hfloor, if_pos hsplit] at hanchor
    have hcut : init ++ ('\r' :: '\n' :: tail) = (before ++ left) ++ (right ++ after) := by
      rw [← htext, hn.text_eq]
      simp
    obtain ⟨rfl, hpair⟩ := append_inj_of_byteLength hcut (by rw [byteLength_append]; omega)
    obtain ⟨rfl, hnext⟩ := hn.after_pair hhead hpair.symm
    refine ⟨by omega, .inr ⟨_, _, hnext.lineBounds_eq, ?_⟩⟩
    have hsize : byteLength ['\r', '\n'] = 2 := rfl
    rw [byteLength_append, byteLength_append, hsize]
    omega
  · -- elsewhere the position leads back to the offset, which is inside the line
    rw [anchor_of_isBoundary hoffset hsplit] at hanchor
    exact ⟨by omega, .inl (by omega)⟩

/-! ## The three divisions are one -/

theorem length_lines (text : String) : (lines text).length = (splitLines text.toList).length :=
  List.length_map _

theorem map_toList_lines (text : String) :
    (lines text).map String.toList = splitLines text.toList := by
  rw [lines, List.map_map]
  exact List.map_id'' (fun _ => String.toList_ofList) _

theorem getElem?_lines (text : String) (n : Nat) :
    (lines text)[n]? = (splitLines text.toList)[n]?.map String.ofList :=
  List.getElem?_map

theorem LineBreak.isLineEnd {mark rest : List Char} (h : LineBreak mark rest)
    (before : List Char) :
    Utf8.IsLineEnd (Utf8.bytes (before ++ (mark ++ rest))) (byteLength before)
      (byteLength before + byteLength mark) := by
  rw [Utf8.IsLineEnd, Utf8.extract_bytes]
  cases h with
  | pair => exact .inr (.inl rfl)
  | @single c _ hc hrest =>
      rcases isLineEnd_iff.1 hc with rfl | rfl
      · exact .inl rfl
      · refine .inr (.inr ⟨rfl, ?_⟩)
        have hnext := Utf8.getElem?_bytes (before ++ ['\r']) rest 0
        rw [byteLength_append, Nat.add_zero, List.append_assoc] at hnext
        rw [hnext, ne_eq, Utf8.head?_eq_lineFeed_iff]
        intro hhead
        obtain ⟨tail, rfl⟩ := List.head?_eq_some_iff.1 hhead
        exact hrest tail rfl rfl

/-- The bytes inside the bounds of a line are those of the line. -/
theorem lineBounds_encloses {text : String} {n start stop : Nat}
    (h : lineBounds text.toList n = some (start, stop)) :
    Utf8.isBoundary (Utf8.encode text) start = true ∧
      Utf8.isBoundary (Utf8.encode text) stop = true ∧ start ≤ stop ∧
      (lines text)[n]?.map Utf8.encode = some ((Utf8.encode text).extract start stop) := by
  obtain ⟨before, rest, hn, rfl, rfl⟩ := lineBounds_eq_some_iff.1 h
  have hrest : rest = lineHead rest ++ rest.dropWhile fun c => !isLineEnd c :=
    List.takeWhile_append_dropWhile.symm
  have htext : text.toList =
      before ++ (lineHead rest ++ rest.dropWhile fun c => !isLineEnd c) := by
    rw [← hrest]
    exact hn.text_eq
  rw [getElem?_lines, hn.getElem?_splitLines, Utf8.encode]
  refine ⟨?_, ?_, Nat.le_add_right .., ?_⟩
  · rw [htext]
    exact Utf8.isBoundary_byteLength before _
  · rw [htext, ← byteLength_append, ← List.append_assoc]
    exact Utf8.isBoundary_byteLength (before ++ lineHead rest) _
  · rw [htext, Utf8.extract_bytes, Option.map_some, Option.map_some, Utf8.encode_ofList]

/-- Between the bounds of one line and of the next stands one line end. -/
theorem lineBounds_separated {text : String} {n start stop start' stop' : Nat}
    (h : lineBounds text.toList n = some (start, stop))
    (h' : lineBounds text.toList (n + 1) = some (start', stop')) :
    Utf8.IsLineEnd (Utf8.encode text) stop start' ∧
      (lineEnds text.toList)[n]?.map Utf8.bytes
        = some ((Utf8.encode text).extract stop start') := by
  obtain ⟨before', rest', hn', rfl, rfl⟩ := lineBounds_eq_some_iff.1 h'
  obtain ⟨before, seg, mark, hn, hseg, hmark, rfl, hend⟩ := hn'.succ_cases
  have hbounds := h.symm.trans hn.lineBounds_eq
  rw [lineHead_break hseg hmark, Option.some.injEq, Prod.mk.injEq, ← byteLength_append] at hbounds
  have htext : text.toList = (before ++ seg) ++ (mark ++ rest') := by
    rw [hn.text_eq, List.append_assoc]
  have hstart' : byteLength (before ++ (seg ++ mark))
      = byteLength (before ++ seg) + byteLength mark := by
    rw [← List.append_assoc, byteLength_append]
  rw [hbounds.2, hend, Utf8.encode, htext, hstart']
  refine ⟨hmark.isLineEnd (before ++ seg), ?_⟩
  rw [Utf8.extract_bytes]
  rfl

/-- The position of a boundary has the number of the one line that the boundary lies in. -/
theorem line_positionOf_iff {e : PositionEncoding} {text : List Char} {offset n : Nat}
    (hcount : (splitLines text).length < 4294967296) (hoffset : IsBoundary offset text) :
    (positionOf text offset e).line.toNat = n ↔ InLine text offset n := by
  have hin := positionFrom_inLine e hoffset
  have hline : (positionOf text offset e).line.toNat
      = (positionFrom e (floorBoundary offset text) 0 0 0 text).1 := by
    obtain ⟨start, stop, hbounds, -⟩ := id hin
    have hlt : (positionFrom e (floorBoundary offset text) 0 0 0 text).1
        < (splitLines text).length := by
      refine Nat.lt_of_not_le fun hge => ?_
      rw [lineBounds_eq_none hge] at hbounds
      cases hbounds
    exact UInt32.toNat_ofNat_of_lt' (Nat.lt_trans hlt hcount)
  rw [hline]
  constructor
  · rintro rfl
    exact hin
  · exact hin.unique

/-- **The line splitters agree.** Of every text whose lines can be counted in 32 bits: its lines hold
no line end, and with the line ends found in the text put between them they give the text back. The
search for the bounds of a line finds exactly the lines that there are, and the bytes inside the
bounds are those of the line; between the bounds of consecutive lines stands one line end. And the
position of an offset where a character starts or the text ends, in whatever encoding, has the
number of the one line in which the offset lies, what ends the line counted in. -/
theorem lines_lineBounds_positionOf_agree (text : String) (h : (lines text).length < 4294967296) :
    (lines text ≠ [] ∧
      (∀ line ∈ lines text, '\n' ∉ line.toList ∧ '\r' ∉ line.toList) ∧
      (lines text).length = (lineEnds text.toList).length + 1 ∧
      weave ((lines text).map String.toList) (lineEnds text.toList) = text.toList) ∧
    (∀ n, (∃ start stop, lineBounds text.toList n = some (start, stop)) ↔
      n < (lines text).length) ∧
    (∀ n start stop, lineBounds text.toList n = some (start, stop) →
      Utf8.isBoundary (Utf8.encode text) start = true ∧
      Utf8.isBoundary (Utf8.encode text) stop = true ∧ start ≤ stop ∧
      (lines text)[n]?.map Utf8.encode = some ((Utf8.encode text).extract start stop)) ∧
    (∀ n start stop start' stop', lineBounds text.toList n = some (start, stop) →
      lineBounds text.toList (n + 1) = some (start', stop') →
      Utf8.IsLineEnd (Utf8.encode text) stop start' ∧
      (lineEnds text.toList)[n]?.map Utf8.bytes
        = some ((Utf8.encode text).extract stop start')) ∧
    ∀ e offset n, Utf8.isBoundary (Utf8.encode text) offset = true →
      ((positionOf text.toList offset e).line.toNat = n ↔ InLine text.toList offset n) := by
  rw [length_lines] at h
  obtain ⟨hlength, hweave⟩ := weave_splitLines text.toList
  refine ⟨⟨?_, ?_, ?_, ?_⟩, fun n => ⟨?_, fun hn => ?_⟩, fun n start stop => lineBounds_encloses,
    fun n start stop start' stop' => lineBounds_separated, fun e offset n hoffset => ?_⟩
  · rw [← List.length_pos_iff, length_lines]
    exact splitLines_length_pos text.toList
  · intro line hline
    obtain ⟨cs, hcs, rfl⟩ := List.mem_map.1 hline
    have hunbroken := isUnbroken_of_mem_splitLines hcs
    rw [String.toList_ofList]
    exact ⟨fun hmem => absurd (hunbroken _ hmem) (by decide),
      fun hmem => absurd (hunbroken _ hmem) (by decide)⟩
  · rw [length_lines, hlength]
  · rw [map_toList_lines, hweave]
  · rintro ⟨start, stop, hbounds⟩
    obtain ⟨before, rest, hn, -⟩ := lineBounds_eq_some_iff.1 hbounds
    rw [length_lines]
    exact (List.getElem?_eq_some_iff.1 hn.getElem?_splitLines).1
  · obtain ⟨before, rest, hstart⟩ := exists_startsLine (by rwa [← length_lines])
    exact ⟨_, _, hstart.lineBounds_eq⟩
  · exact line_positionOf_iff h (isBoundary_of_bytes hoffset)

/-- Five lines, of which the second ends with a pair behind a carriage return that ends the first;
the offset inside that pair lies in the second line. -/
theorem lines_agree_mixed_ends :
    let text := String.ofList ['é', '\r', '\r', '\n', '\n', '😀', '\r']
    (lines text).length = 5 ∧ (lines text).length < 4294967296 ∧
    lineBounds text.toList 1 = some (3, 3) ∧ lineBounds text.toList 2 = some (5, 5) ∧
    Utf8.IsLineEnd (Utf8.encode text) 3 5 ∧ Utf8.isBoundary (Utf8.encode text) 4 = true ∧
    (positionOf text.toList 4 .utf16).line.toNat = 1 := by
  intro text
  have htext : text.toList = ['é', '\r', '\r', '\n', '\n', '😀', '\r'] := String.toList_ofList
  have hlength : (lines text).length = 5 := by
    rw [length_lines, htext]
    decide
  have hcount : (lines text).length < 4294967296 := by omega
  have hsecond : lineBounds text.toList 1 = some (3, 3) := by
    rw [htext]
    decide
  have hthird : lineBounds text.toList 2 = some (5, 5) := by
    rw [htext]
    decide
  have hboundary : Utf8.isBoundary (Utf8.encode text) 4 = true := by
    rw [Utf8.encode_ofList]
    decide
  obtain ⟨-, -, -, hseparated, hposition⟩ := lines_lineBounds_positionOf_agree text hcount
  refine ⟨hlength, hcount, hsecond, hthird, (hseparated 1 3 3 5 5 hsecond hthird).1, hboundary, ?_⟩
  refine (hposition .utf16 4 1 hboundary).2 ⟨3, 3, hsecond, by omega, .inr ⟨5, 5, hthird, by omega⟩⟩

end Document

end LanguageServer
