import LanguageServer.Proofs.Document.Clamping
import LanguageServer.Proofs.Token.Coding
import LanguageServer.Proofs.Token.Lexemes

set_option autoImplicit false

/-! # Tokens point at their lexemes

A token has a line and columns that count units of an encoding, and `Document.offsetOf` finds the
offsets that these stand for by counting lines and units of its own. It finds the lexeme that the
token was made for: `tokens_resolve_to_lexemes`. The lexemes of a text are the same in every
encoding and lie one behind the other, so the tokens are in order and their flat data gives them
back.

The lexemes can also be found by a walk over the bytes of a line (`scan`), which cuts the line at
the offsets it comes to. Each cut is checked here to be one between characters, and each step to get
ahead; no check ever fails, and the tokens are the same. -/

namespace LanguageServer.Lexical

open Text

/-! ## A walk over bytes -/

/-- The characters between two offsets, if both are boundaries and the first comes first. -/
def checkedSlice (start stop : Nat) (cs : List Char) : Option (List Char) :=
  if start ≤ stop ∧ IsBoundary start cs ∧ IsBoundary stop cs then some (slice start stop cs)
  else none

theorem isBoundary_byteLength (before after : List Char) :
    IsBoundary (byteLength before) (before ++ after) :=
  isBoundary_of_bytes (Utf8.isBoundary_byteLength before after)

theorem checkedSlice_eq (before inside after : List Char) :
    checkedSlice (byteLength before) (byteLength before + byteLength inside)
      (before ++ (inside ++ after)) = some inside := by
  have hstop := isBoundary_byteLength (before ++ inside) after
  rw [byteLength_append, List.append_assoc] at hstop
  rw [checkedSlice, if_pos ⟨Nat.le_add_right .., isBoundary_byteLength before _, hstop⟩,
    slice_byteLength]

/-- Where the bytes of a class that stand at an offset end. -/
def runEnd (bytes : List UInt8) (q : UInt8 → Bool) (i : Nat) : Nat :=
  i + ((bytes.drop i).takeWhile q).length

/-- A token for what lies between two offsets, and the offset to go on at. -/
def push (e : PositionEncoding) (n : Nat) (line : List Char) (start stop : Nat) (kind : Kind) :
    Option (List SemanticToken × Nat) := do
  let before ← checkedSlice 0 start line
  let inside ← checkedSlice start stop line
  return ([⟨n.toUInt32, (width e before).toUInt32, (width e inside).toUInt32, kind.code, 0⟩], stop)

/-- What one step of the walk over the bytes of a line finds at an offset, and where it gets to. -/
def scanStep (e : PositionEncoding) (n : Nat) (line : List Char) (i : Nat) :
    Option (List SemanticToken × Nat) := do
  let bytes := Utf8.bytes line
  let b ← bytes[i]?
  let ahead ← checkedSlice i bytes.length line
  if Byte.is '#' b || ['/', '/'].isPrefixOf ahead then push e n line i bytes.length .comment
  else if Byte.is '"' b then
    push e n line i (i + 1 + closing false (bytes.drop (i + 1))) .string
  else if Byte.isDigit b then push e n line i (runEnd bytes Byte.continuesNumber i) .number
  else if Byte.opensName b then do
    let name ← checkedSlice i (runEnd bytes Byte.continuesName i) line
    push e n line i (runEnd bytes Byte.continuesName i) (nameKind name)
  else some ([], i + (ahead.head?.map Char.utf8Size).getD 1)

/-- The tokens of a line from an offset on. A step that does not get ahead fails. -/
def scan (e : PositionEncoding) (n : Nat) (line : List Char) (i : Nat) :
    Option (List SemanticToken) :=
  if i < (Utf8.bytes line).length then do
    let (found, next) ← scanStep e n line i
    if i < next then
      let rest ← scan e n line next
      return found ++ rest
    else none
  else some []
termination_by (Utf8.bytes line).length - i

/-- The tokens of lines, the first of which has this number. -/
def scanLines (e : PositionEncoding) : (n : Nat) → List (List Char) → Option (List SemanticToken)
  | _, [] => some []
  | n, line :: rest => do
    let found ← scan e n line 0
    let behind ← scanLines e (n + 1) rest
    return found ++ behind

section Step

variable (e : PositionEncoding) (n : Nat) (before : List Char)

/-- The tokens for a piece that starts at a column. -/
def Piece.tokens (column : Nat) : Piece → List SemanticToken
  | .gap _ => []
  | .lexeme kind cs => [⟨n.toUInt32, column.toUInt32, (width e cs).toUInt32, kind.code, 0⟩]

theorem pieceTokens_cons (column : Nat) (p : Piece) (rest : List Piece) :
    pieceTokens e n column (p :: rest)
      = p.tokens e n column ++ pieceTokens e n (column + width e p.chars) rest := by
  cases p with
  | gap c => rfl
  | lexeme kind cs => rfl

/-- A step finds the first of the pieces of what is left of the line and gets behind it. -/
def StepsTo (cs : List Char) (p : Piece) (after : List Char) : Prop :=
  p.chars ≠ [] ∧ p.chars ++ after = cs ∧ pieces cs = p :: pieces after ∧
    scanStep e n (before ++ cs) (byteLength before)
      = some (p.tokens e n (width e before), byteLength before + byteLength p.chars)

theorem push_eq (inside after : List Char) (kind : Kind) :
    push e n (before ++ (inside ++ after)) (byteLength before)
        (byteLength before + byteLength inside) kind
      = some (Piece.tokens e n (width e before) (.lexeme kind inside),
          byteLength before + byteLength inside) := by
  have hbefore := checkedSlice_eq [] before (inside ++ after)
  rw [byteLength_nil, Nat.zero_add, List.nil_append] at hbefore
  rw [push, hbefore, checkedSlice_eq]
  rfl

theorem runEnd_eq {q : UInt8 → Bool} {p : Char → Bool} (h : Agree q p) (cs : List Char) :
    runEnd (Utf8.bytes (before ++ cs)) q (byteLength before)
      = byteLength before + byteLength (cs.takeWhile p) := by
  rw [runEnd, drop_bytes, takeWhile_bytes h, Utf8.length_bytes]

theorem startsComment_eq (c : Char) (rest : List Char) :
    startsComment (c :: rest) = (c == '#' || ['/', '/'].isPrefixOf (c :: rest)) := by
  by_cases hhash : c = '#'
  · subst hhash
    rfl
  · rw [beq_false_of_ne hhash, Bool.false_or, List.isPrefixOf_cons_cons]
    by_cases hslash : c = '/'
    · subst hslash
      cases rest with
      | nil => rfl
      | cons d rest =>
        by_cases hd : d = '/'
        · subst hd
          rfl
        · simp [startsComment, hd, List.isPrefixOf, Ne.symm hd]
    · simp [startsComment, hhash, hslash, Ne.symm hslash]

/-- The byte at an offset is in the classes that the character is in which starts there. -/
theorem exists_byte (c : Char) (rest : List Char) :
    ∃ b, (Utf8.bytes (before ++ c :: rest))[byteLength before]? = some b ∧
      ∀ {q : UInt8 → Bool} {p : Char → Bool}, Agree q p → q b = p c := by
  have hlength : 0 < (String.utf8EncodeChar c).length := by
    rw [String.length_utf8EncodeChar]
    exact c.utf8Size_pos
  have hbyte := Utf8.getElem?_bytes before (c :: rest) 0
  rw [Nat.add_zero, Utf8.getElem?_bytes_cons c.utf8Size_pos,
    List.getElem?_eq_getElem hlength] at hbyte
  exact ⟨_, hbyte, fun h => h c _ (List.getElem_mem hlength)⟩

/-- A step decides by bytes as one does by characters. -/
theorem scanStep_eq {line : List Char} {i : Nat} {c : Char} {rest : List Char}
    (hline : line = before ++ c :: rest) (hi : i = byteLength before) :
    scanStep e n line i
      = if startsComment (c :: rest) then push e n line i (i + byteLength (c :: rest)) .comment
        else if c == '"' then
          push e n line i (i + 1 + closing false ((Utf8.bytes line).drop (i + 1))) .string
        else if c.isDigit then
          push e n line i (i + byteLength ((c :: rest).takeWhile isNumberChar)) .number
        else if isNameStart c then
          (checkedSlice i (i + byteLength ((c :: rest).takeWhile isNameChar)) line).bind fun name =>
            push e n line i (i + byteLength ((c :: rest).takeWhile isNameChar)) (nameKind name)
        else some ([], i + c.utf8Size) := by
  subst hline hi
  obtain ⟨b, hbyte, hb⟩ := exists_byte before c rest
  have hahead := checkedSlice_eq before (c :: rest) []
  have hlength : (Utf8.bytes (before ++ c :: rest)).length
      = byteLength before + byteLength (c :: rest) := by
    rw [Utf8.length_bytes, byteLength_append]
  rw [List.append_nil] at hahead
  rw [startsComment_eq]
  simp only [scanStep, hbyte, hlength, hahead, Option.bind_eq_bind, Option.bind_some,
    runEnd_eq before agree_continuesNumber, runEnd_eq before agree_continuesName,
    hb agree_isDigit, hb agree_opensName, hb (agree_is (d := '#') (by decide)),
    hb (agree_is (d := '"') (by decide)), List.head?_cons, Option.map_some, Option.getD_some]

theorem closing_eq (rest : List Char) :
    byteLength before + 1 +
        closing false ((Utf8.bytes (before ++ '"' :: rest)).drop (byteLength before + 1))
      = byteLength before + byteLength ('"' :: (stringRest false rest).1) := by
  have hdrop := drop_bytes (before ++ ['"']) rest
  rw [List.append_assoc, byteLength_append] at hdrop
  have hclosing := congrArg (byteLength before + 1 + closing false ·) hdrop
  rw [closing_bytes] at hclosing
  exact hclosing.trans (Nat.add_assoc ..)

theorem stepsTo_lexeme {inside after cs : List Char} {kind : Kind} (hne : inside ≠ [])
    (hcs : inside ++ after = cs) (hpieces : pieces cs = .lexeme kind inside :: pieces after)
    (hstep : scanStep e n (before ++ cs) (byteLength before)
      = push e n (before ++ cs) (byteLength before) (byteLength before + byteLength inside) kind) :
    StepsTo e n before cs (.lexeme kind inside) after := by
  subst hcs
  exact ⟨hne, rfl, hpieces, hstep.trans (push_eq e n before inside after kind)⟩

/-- A step over a character and those of a class behind it. -/
theorem stepsTo_run {p : Char → Bool} {c : Char} {rest : List Char} {kind : Kind}
    (hc : p c = true)
    (hpieces : pieces (c :: rest)
      = .lexeme kind (c :: rest.takeWhile p) :: pieces (rest.dropWhile p))
    (hstep : scanStep e n (before ++ c :: rest) (byteLength before)
      = push e n (before ++ c :: rest) (byteLength before)
          (byteLength before + byteLength ((c :: rest).takeWhile p)) kind) :
    StepsTo e n before (c :: rest) (.lexeme kind (c :: rest.takeWhile p)) (rest.dropWhile p) := by
  rw [List.takeWhile_cons_of_pos hc] at hstep
  refine stepsTo_lexeme e n before (List.cons_ne_nil c _) ?_ hpieces hstep
  rw [List.cons_append, List.takeWhile_append_dropWhile]

theorem exists_stepsTo (c : Char) (rest : List Char) :
    ∃ p after, StepsTo e n before (c :: rest) p after := by
  have hstep := scanStep_eq e n before (rfl : before ++ c :: rest = _) rfl
  -- the cases are those of `pieces`, in its order
  by_cases hcomment : startsComment (c :: rest) = true
  · refine ⟨.lexeme .comment (c :: rest), [], stepsTo_lexeme e n before (List.cons_ne_nil c rest)
      (List.append_nil _) ?_ (hstep.trans (if_pos hcomment))⟩
    rw [pieces, pieces, if_pos hcomment]
  rw [if_neg hcomment] at hstep
  by_cases hquote : c = '"'
  · subst hquote
    refine ⟨.lexeme .string ('"' :: (stringRest false rest).1), (stringRest false rest).2,
      stepsTo_lexeme e n before (List.cons_ne_nil '"' _) ?_ ?_ (hstep.trans ?_)⟩
    · rw [List.cons_append, stringRest_append]
    · rw [pieces, if_neg hcomment, if_pos rfl]
    · rw [if_pos (beq_self_eq_true '"'), closing_eq]
  rw [if_neg (by simpa using hquote)] at hstep
  by_cases hdigit : c.isDigit = true
  · have hc : isNumberChar c = true := by simp [isNumberChar, Char.isAlphanum, hdigit]
    refine ⟨_, _, stepsTo_run e n before hc ?_ (hstep.trans (if_pos hdigit))⟩
    rw [pieces, if_neg hcomment, if_neg hquote, if_pos hdigit]
  rw [if_neg hdigit] at hstep
  by_cases hname : isNameStart c = true
  · have hc : isNameChar c = true := by
      rcases Bool.or_eq_true_iff.1 hname with halpha | hline
      · simp [isNameChar, Char.isAlphanum, halpha]
      · rw [isNameChar, hline, Bool.or_true]
    have hslice := checkedSlice_eq before ((c :: rest).takeWhile isNameChar)
      ((c :: rest).dropWhile isNameChar)
    rw [List.takeWhile_append_dropWhile] at hslice
    rw [if_pos hname, hslice, Option.bind_some] at hstep
    refine ⟨_, _, stepsTo_run e n before hc ?_ hstep⟩
    rw [pieces, if_neg hcomment, if_neg hquote, if_neg hdigit, if_pos hname,
      List.takeWhile_cons_of_pos hc]
  rw [if_neg hname] at hstep
  refine ⟨.gap c, rest, List.cons_ne_nil c [], rfl, ?_, hstep⟩
  rw [pieces, if_neg hcomment, if_neg hquote, if_neg hdigit, if_neg hname]

/-- The walk over the bytes of what is left of a line finds the tokens of its pieces. -/
theorem scan_eq (cs : List Char) :
    scan e n (before ++ cs) (byteLength before)
      = some (pieceTokens e n (width e before) (pieces cs)) := by
  induction hn : cs.length using Nat.strongRecOn generalizing before cs with
  | ind m ih =>
    cases cs with
    | nil =>
      have hend : ¬ byteLength before < (Utf8.bytes (before ++ [])).length := by
        rw [List.append_nil, Utf8.length_bytes]
        exact Nat.lt_irrefl _
      rw [scan, if_neg hend, pieces, pieceTokens]
    | cons c rest =>
      obtain ⟨p, after, hne, hcs, hpieces, hstep⟩ := exists_stepsTo e n before c rest
      have hpos := byteLength_pos hne
      -- a piece has characters, so the step gets ahead and fewer of them are left
      have hshorter : after.length < m := by
        have hlength := List.length_pos_iff.2 hne
        rw [← hn, ← hcs, List.length_append]
        omega
      have hnext := ih after.length hshorter (before ++ p.chars) after rfl
      rw [List.append_assoc, hcs, byteLength_append] at hnext
      have hinside : byteLength before < (Utf8.bytes (before ++ c :: rest)).length := by
        rw [Utf8.length_bytes, byteLength_append, ← hcs, byteLength_append]
        omega
      rw [scan, if_pos hinside, hstep]
      simp only [Option.bind_eq_bind, Option.bind_some, if_pos (Nat.lt_add_of_pos_right hpos),
        hnext]
      rw [hpieces, pieceTokens_cons, width_eq, width_eq, width_eq, e.width_append]
      rfl

end Step

theorem scanLines_eq (e : PositionEncoding) (n : Nat) (lines : List (List Char)) :
    scanLines e n lines = some (lineTokens e n lines) := by
  induction lines generalizing n with
  | nil => rfl
  | cons line rest ih =>
    have hline : scan e n line 0 = some (pieceTokens e n 0 (pieces line)) := scan_eq e n [] line
    simp only [scanLines, hline, ih, Option.bind_eq_bind, Option.bind_some]
    rfl

/-! ## What tokens point at -/

/-- A lexeme of a text: the offsets between which it lies, its type and its characters. -/
structure Lexeme where
  line : Nat
  start : Nat
  stop : Nat
  tokenType : UInt32
  chars : List Char
deriving DecidableEq, Repr

/-- What lies between the positions where a token starts and where it ends. -/
def resolve (text : List Char) (e : PositionEncoding) (t : SemanticToken) : Lexeme :=
  let start := Document.offsetOf text ⟨t.line, t.start⟩ e
  let stop := Document.offsetOf text ⟨t.line, t.start + t.length⟩ e
  ⟨t.line.toNat, start, stop, t.tokenType, slice start stop text⟩

/-- The lexemes among some pieces of a line, of which the first starts at this offset. -/
def lexemesFrom (n : Nat) : (start : Nat) → List Piece → List Lexeme
  | _, [] => []
  | start, .gap c :: rest => lexemesFrom n (start + c.utf8Size) rest
  | start, .lexeme kind cs :: rest =>
    ⟨n, start, start + byteLength cs, kind.code, cs⟩ :: lexemesFrom n (start + byteLength cs) rest

/-- The offset that a line starts at. -/
def lineStart (text : List Char) (n : Nat) : Nat :=
  ((Document.lineBounds text n).map Prod.fst).getD 0

/-- The lexemes of a text, line by line. -/
def lexemes (text : List Char) : List Lexeme :=
  (Document.splitLines text).zipIdx.flatMap fun (line, n) =>
    lexemesFrom n (lineStart text n) (pieces line)

theorem units_le_utf8Size (e : PositionEncoding) (c : Char) : e.units c ≤ c.utf8Size := by
  cases e with
  | utf8 => exact Nat.le_refl _
  | utf32 => exact c.utf8Size_pos
  | utf16 =>
    have hpos := c.utf8Size_pos
    rw [PositionEncoding.units]
    split
    · exact hpos
    · next hlarge =>
      have hone : c.utf8Size ≠ 1 := by
        rw [ne_eq, Char.utf8Size_eq_one_iff, UInt32.le_iff_toNat_le]
        exact fun hle => hlarge (Nat.lt_of_le_of_lt hle (by decide))
      omega

theorem width_le_byteLength (e : PositionEncoding) (cs : List Char) :
    e.width cs ≤ byteLength cs := by
  induction cs with
  | nil => exact Nat.le_refl 0
  | cons c rest ih => exact Nat.add_le_add (units_le_utf8Size e c) ih

section Line

open Document

variable {text before rest : List Char} {n : Nat}

/-- There are no more lines than bytes before them. -/
theorem le_byteLength (h : StartsLine text n before rest) : n ≤ byteLength before := by
  induction h with
  | first => exact Nat.le_refl 0
  | after _ _ hmark ih =>
    have hpos := hmark.byteLength_pos
    rw [byteLength_append, byteLength_append]
    omega

/-- The units of the left part of a line lead to its end. -/
theorem offsetOf_width (h : StartsLine text n before rest) {left right : List Char}
    (hline : lineHead rest = left ++ right) {e : PositionEncoding} {line column : UInt32}
    (hn : line.toNat = n) (hcolumn : column.toNat = e.width left) :
    offsetOf text ⟨line, column⟩ e = byteLength before + byteLength left := by
  obtain ⟨after, -, htext⟩ := h.text_cut hline
  have hslice := slice_byteLength before (left ++ right) after
  rw [List.append_assoc, ← List.append_assoc before, ← htext, ← hline] at hslice
  have hcount := columnOffset_width e left right 0 0
  rw [Nat.zero_add, Nat.zero_add] at hcount
  simp only [offsetOf, hn, h.lineBounds_eq, hslice, hcolumn]
  rw [hline, hcount]

variable {e : PositionEncoding} (h : StartsLine text n before rest)
  (hshort : byteLength text < 4294967296)

include h hshort

/-- A token that was made for a part of a line points at it, and its end can be counted. -/
theorem resolve_token {left inside right : List Char}
    (hline : lineHead rest = left ++ (inside ++ right)) (kind : Kind) :
    resolve text e
        ⟨n.toUInt32, (e.width left).toUInt32, (e.width inside).toUInt32, kind.code, 0⟩
      = ⟨n, byteLength before + byteLength left,
          byteLength before + byteLength left + byteLength inside, kind.code, inside⟩ ∧
    (e.width left).toUInt32.toNat + (e.width inside).toUInt32.toNat < 4294967296 := by
  obtain ⟨after, -, htext⟩ := h.text_cut hline
  have hlength : byteLength text = byteLength before + byteLength left +
      (byteLength inside + byteLength (right ++ after)) := by
    rw [htext, List.append_assoc inside, byteLength_append, byteLength_append before,
      byteLength_append inside]
  have hnumber := le_byteLength h
  have hleft := width_le_byteLength e left
  have hinside := width_le_byteLength e inside
  have hfits {k : Nat} (hk : k ≤ byteLength text) : k.toUInt32.toNat = k :=
    UInt32.toNat_ofNat_of_lt' (Nat.lt_of_le_of_lt hk hshort)
  have hn : n.toUInt32.toNat = n := hfits (by omega)
  have hstart : (e.width left).toUInt32.toNat = e.width left := hfits (by omega)
  have hwidth : (e.width inside).toUInt32.toNat = e.width inside := hfits (by omega)
  have hsum : (e.width left).toUInt32.toNat + (e.width inside).toUInt32.toNat < 4294967296 := by
    omega
  have hstop : ((e.width left).toUInt32 + (e.width inside).toUInt32).toNat
      = e.width (left ++ inside) := by
    rw [UInt32.toNat_add, Nat.mod_eq_of_lt hsum, hstart, hwidth, e.width_append]
  have hslice := slice_byteLength (before ++ left) inside (right ++ after)
  rw [← List.append_assoc inside, ← htext, byteLength_append] at hslice
  refine ⟨?_, hsum⟩
  rw [← List.append_assoc] at hline
  have hend := offsetOf_width h hline hn hstop
  rw [List.append_assoc] at hline
  rw [byteLength_append, ← Nat.add_assoc] at hend
  simp only [resolve, hn, offsetOf_width h hline hn hstart, hend, hslice]

/-- So do all tokens of the line, piece by piece. -/
theorem map_resolve_pieceTokens (ps : List Piece) (left : List Char)
    (hline : lineHead rest = left ++ ps.flatMap Piece.chars) :
    (pieceTokens e n (e.width left) ps).map (resolve text e)
      = lexemesFrom n (byteLength before + byteLength left) ps ∧
    ∀ t ∈ pieceTokens e n (e.width left) ps, t.start.toNat + t.length.toNat < 4294967296 := by
  induction ps generalizing left with
  | nil => exact ⟨rfl, fun t ht => absurd ht List.not_mem_nil⟩
  | cons p ps ih =>
    rw [List.flatMap_cons] at hline
    have hnext := ih (left ++ p.chars) (by rw [hline, List.append_assoc])
    rw [e.width_append, byteLength_append, ← Nat.add_assoc] at hnext
    cases p with
    | gap c => exact hnext
    | lexeme kind cs =>
      obtain ⟨hresolve, hsum⟩ := resolve_token h hshort hline kind (e := e)
      rw [pieceTokens, width_eq]
      refine ⟨?_, fun t ht => ?_⟩
      · exact List.cons_eq_cons.2 ⟨hresolve, hnext.1⟩
      · rcases List.mem_cons.1 ht with rfl | ht
        · exact hsum
        · exact hnext.2 t ht

end Line

/-! ## The lexemes of a text -/

/-- A lexeme is not empty and lies between two offsets of its line. -/
structure Lexeme.LiesIn (l : Lexeme) (n first last : Nat) : Prop where
  line_eq : l.line = n
  chars_ne : l.chars ≠ []
  first_le : first ≤ l.start
  start_lt : l.start < l.stop
  stop_le : l.stop ≤ last

theorem chars_ne_nil_of_mem_pieces (cs : List Char) : ∀ p ∈ pieces cs, p.chars ≠ [] := by
  fun_induction pieces cs with
  | case1 => exact fun p hp => absurd hp List.not_mem_nil
  | case2 c rest hcomment => exact List.forall_mem_singleton.2 (List.cons_ne_nil c rest)
  | case3 rest hcomment ih => exact List.forall_mem_cons.2 ⟨List.cons_ne_nil _ _, ih⟩
  | case4 c rest hcomment hquote hdigit ih =>
    exact List.forall_mem_cons.2 ⟨List.cons_ne_nil _ _, ih⟩
  | case5 c rest hcomment hquote hdigit hname name ih =>
    exact List.forall_mem_cons.2 ⟨List.cons_ne_nil _ _, ih⟩
  | case6 c rest hcomment hquote hdigit hname ih =>
    exact List.forall_mem_cons.2 ⟨List.cons_ne_nil c [], ih⟩

theorem lexemesFrom_liesIn (n : Nat) {ps : List Piece} (hne : ∀ p ∈ ps, p.chars ≠ [])
    (start : Nat) : ∀ l ∈ lexemesFrom n start ps,
      l.LiesIn n start (start + byteLength (ps.flatMap Piece.chars)) := by
  induction ps generalizing start with
  | nil => exact fun l hl => absurd hl List.not_mem_nil
  | cons p ps ih =>
    obtain ⟨hp, hps⟩ := List.forall_mem_cons.1 hne
    have hrest (l : Lexeme) (hl : l ∈ lexemesFrom n (start + byteLength p.chars) ps) :
        l.LiesIn n start (start + byteLength ((p :: ps).flatMap Piece.chars)) := by
      have hlies := ih hps _ l hl
      refine ⟨hlies.line_eq, hlies.chars_ne, Nat.le_of_add_right_le hlies.first_le,
        hlies.start_lt, ?_⟩
      rw [List.flatMap_cons, byteLength_append, ← Nat.add_assoc]
      exact hlies.stop_le
    cases p with
    | gap c => exact hrest
    | lexeme kind cs =>
      refine List.forall_mem_cons.2 ⟨⟨rfl, hp, Nat.le_refl _, ?_, ?_⟩, hrest⟩
      · exact Nat.lt_add_of_pos_right (byteLength_pos hp)
      · rw [List.flatMap_cons, byteLength_append, ← Nat.add_assoc]
        exact Nat.le_add_right ..

theorem pairwise_lexemesFrom (n : Nat) {ps : List Piece} (hne : ∀ p ∈ ps, p.chars ≠ [])
    (start : Nat) : (lexemesFrom n start ps).Pairwise fun a b => a.stop ≤ b.start := by
  induction ps generalizing start with
  | nil => exact .nil
  | cons p ps ih =>
    obtain ⟨hp, hps⟩ := List.forall_mem_cons.1 hne
    cases p with
    | gap c => exact ih hps _
    | lexeme kind cs =>
      exact List.pairwise_cons.2 ⟨fun l hl => (lexemesFrom_liesIn n hps _ l hl).first_le, ih hps _⟩

theorem exists_startsLine_of_mem {text line : List Char} {n : Nat}
    (h : (line, n) ∈ (Document.splitLines text).zipIdx) :
    ∃ before rest, Document.StartsLine text n before rest ∧ Document.lineHead rest = line ∧
      lineStart text n = byteLength before := by
  have hline := List.mem_zipIdx_iff_getElem?.1 h
  obtain ⟨before, rest, hstart⟩ :=
    Document.exists_startsLine (List.getElem?_eq_some_iff.1 hline).1
  rw [hstart.getElem?_splitLines, Option.some.injEq] at hline
  refine ⟨before, rest, hstart, hline, ?_⟩
  rw [lineStart, hstart.lineBounds_eq]
  rfl

theorem lineTokens_eq_flatMap (e : PositionEncoding) (n : Nat) (lines : List (List Char)) :
    lineTokens e n lines
      = (lines.zipIdx n).flatMap fun (line, k) => pieceTokens e k 0 (pieces line) := by
  induction lines generalizing n with
  | nil => rfl
  | cons line rest ih => rw [lineTokens, ih, List.zipIdx_cons, List.flatMap_cons]

/-- The lexemes of a line lie inside its bounds. -/
theorem lexemes_liesIn {text : List Char} {l : Lexeme} (h : l ∈ lexemes text) :
    ∃ first last, Document.lineBounds text l.line = some (first, last) ∧
      l.LiesIn l.line first last := by
  obtain ⟨⟨line, n⟩, hmem, hl⟩ := List.mem_flatMap.1 h
  obtain ⟨before, rest, hstart, rfl, hfirst⟩ := exists_startsLine_of_mem hmem
  have hlies := lexemesFrom_liesIn n (chars_ne_nil_of_mem_pieces _) _ l hl
  rw [flatMap_chars_pieces, hfirst] at hlies
  obtain rfl := hlies.line_eq
  exact ⟨_, _, hstart.lineBounds_eq, hlies⟩

/-- The lexemes of a text lie one behind the other, also from line to line. -/
theorem pairwise_lexemes (text : List Char) :
    (lexemes text).Pairwise fun a b => a.stop ≤ b.start := by
  have hlines : (Document.splitLines text).zipIdx.Pairwise fun a b => a.2 < b.2 := by
    rw [← List.pairwise_map (R := (· < ·)), List.zipIdx_map_snd]
    exact List.pairwise_lt_range'
  refine List.pairwise_flatMap.2
    ⟨fun p _ => pairwise_lexemesFrom p.2 (chars_ne_nil_of_mem_pieces _) _, ?_⟩
  refine hlines.imp_of_mem fun {a b} ha hb hlt x hx y hy => ?_
  obtain ⟨before, rest, hstart, hline, hfirst⟩ := exists_startsLine_of_mem ha
  obtain ⟨before', rest', hstart', -, hfirst'⟩ := exists_startsLine_of_mem hb
  have hstop := (lexemesFrom_liesIn a.2 (chars_ne_nil_of_mem_pieces _) _ x hx).stop_le
  have hnext := (lexemesFrom_liesIn b.2 (chars_ne_nil_of_mem_pieces _) _ y hy).first_le
  have hbetween := hstart.end_lt hstart' hlt
  rw [flatMap_chars_pieces, hfirst, ← hline] at hstop
  rw [hfirst'] at hnext
  omega

/-- The tokens of a text point at its lexemes, and their ends can be counted. -/
theorem map_resolve_tokens {text : String} (hshort : byteLength text.toList < 4294967296)
    (e : PositionEncoding) :
    (tokens text e).map (resolve text.toList e) = lexemes text.toList ∧
      ∀ t ∈ tokens text e, t.start.toNat + t.length.toNat < 4294967296 := by
  have hline (p : List Char × Nat) (hp : p ∈ (Document.splitLines text.toList).zipIdx) :
      (pieceTokens e p.2 0 (pieces p.1)).map (resolve text.toList e)
        = lexemesFrom p.2 (lineStart text.toList p.2) (pieces p.1) ∧
      ∀ t ∈ pieceTokens e p.2 0 (pieces p.1), t.start.toNat + t.length.toNat < 4294967296 := by
    obtain ⟨before, rest, hstart, hhead, hfirst⟩ := exists_startsLine_of_mem hp
    rw [hfirst]
    refine map_resolve_pieceTokens hstart hshort (pieces p.1) [] ?_
    rw [hhead, flatMap_chars_pieces, List.nil_append]
  rw [tokens, lineTokens_eq_flatMap]
  refine ⟨?_, fun t ht => ?_⟩
  · rw [List.map_flatMap, lexemes, List.flatMap_def, List.flatMap_def,
      List.map_congr_left fun p hp => (hline p hp).1]
  · obtain ⟨p, hp, ht⟩ := List.mem_flatMap.1 ht
    exact (hline p hp).2 t ht

/-- Tokens that point at lexemes one behind the other are in order: offsets grow with positions, and
no lexeme is empty. -/
theorem pairwise_tokens {text : String} (hshort : byteLength text.toList < 4294967296)
    (e : PositionEncoding) : (tokens text e).Pairwise fun a b => a.le b = true := by
  have hresolve := (map_resolve_tokens hshort e).1
  have hordered := pairwise_lexemes text.toList
  rw [← hresolve, List.pairwise_map] at hordered
  refine hordered.imp_of_mem fun {a b} ha hb hab => ?_
  -- otherwise the later token would start no further than the earlier one, which has an end
  refine Decidable.byContradiction fun hnot => ?_
  have hmem : resolve text.toList e a ∈ lexemes text.toList := hresolve ▸ List.mem_map_of_mem ha
  obtain ⟨first, last, -, hlies⟩ := lexemes_liesIn hmem
  have hback : (⟨b.line, b.start⟩ : Position).le ⟨a.line, a.start⟩ = true := by
    rw [SemanticToken.le_iff] at hnot
    simp only [Position.le_iff]
    omega
  have hle : (resolve text.toList e b).start ≤ (resolve text.toList e a).start :=
    Document.offsetOf_mono hback text.toList e
  have hlt := hlies.start_lt
  omega

/-- In every encoding the tokens of a text are those that the walk over its bytes finds, which never
cuts a character, and they point at the lexemes of the text. These are the same in all encodings:
none is empty, each lies in its line, and they lie one behind the other, so the flat data of the
tokens gives them back in their order. -/
theorem tokens_resolve_to_lexemes (text : String) (hshort : byteLength text.toList < 4294967296) :
    (∀ e, scanLines e 0 (Document.splitLines text.toList) = some (tokens text e) ∧
      (tokens text e).map (resolve text.toList e) = lexemes text.toList ∧
      (∀ t ∈ tokens text e, t.start.toNat + t.length.toNat < 4294967296) ∧
      SemanticToken.decode (SemanticToken.encode (tokens text e)) = .ok (tokens text e)) ∧
    (∀ l ∈ lexemes text.toList, ∃ first last,
      Document.lineBounds text.toList l.line = some (first, last) ∧ l.LiesIn l.line first last) ∧
    (lexemes text.toList).Pairwise fun a b => a.stop ≤ b.start := by
  refine ⟨fun e => ?_, fun l hl => lexemes_liesIn hl, pairwise_lexemes text.toList⟩
  obtain ⟨hresolve, hsum⟩ := map_resolve_tokens hshort e
  refine ⟨scanLines_eq e 0 _, hresolve, hsum, ?_⟩
  have hsorted : SemanticToken.sort (tokens text e) = tokens text e :=
    List.mergeSort_of_pairwise (pairwise_tokens hshort e)
  rw [SemanticToken.decode_encode_eq_sort, hsorted]

theorem tokens_resolve_mixed_text :
    let text := String.ofList ['é', '\r', 'l', 'e', 't', ' ', '"', '😀', '"']
    byteLength text.toList < 4294967296 ∧
    tokens text .utf16 = [⟨1, 0, 3, 3, 0⟩, ⟨1, 4, 4, 1, 0⟩] ∧
    lexemes text.toList
      = [⟨1, 3, 6, 3, ['l', 'e', 't']⟩, ⟨1, 7, 13, 1, ['"', '😀', '"']⟩] := by
  intro text
  have hshort : byteLength text.toList < 4294967296 := by decide
  have hlines : Document.splitLines text.toList
      = [['é'], ['l', 'e', 't', ' ', '"', '😀', '"']] := by decide
  have htokens : tokens text .utf16 = [⟨1, 0, 3, 3, 0⟩, ⟨1, 4, 4, 1, 0⟩] := by
    rw [tokens, hlines]
    simp [lineTokens, pieceTokens, pieces, startsComment, stringRest, isNameStart, isNameChar,
      nameKind, keywords, Kind.code, width, PositionEncoding.units]
  refine ⟨hshort, htokens, ?_⟩
  rw [← ((tokens_resolve_to_lexemes text hshort).1 .utf16).2.1, htokens]
  decide

end LanguageServer.Lexical
