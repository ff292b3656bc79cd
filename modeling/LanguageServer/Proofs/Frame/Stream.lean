import LanguageServer.Frame
import LanguageServer.Message.Envelope

set_option autoImplicit false

/-! # Streams of frames

A stream of written frames is read back body by body, and a stream that is cut off gives exactly the
bodies whose frames came through whole: `readAll_frames`. Where the cut falls between two frames the
end is clean, everywhere else it is a fault.

A written header is one line with the length, ended by CR LF, and an empty line. The reader never
looks into a body, so what a body holds does not matter. A header that is cut off leaves a line that
is not blank (it begins with a letter), or no line at all, or a lone CR. Only the last of these passes
for the end of the header, and then the body is missing, which is noticed because no body is empty. -/

namespace LanguageServer.Frame

open Text.Utf8 (bytes)

/-! ## Header lines as characters -/

/-- The name of the header that gives the length. -/
def lengthName : List Char := "Content-Length".toList

/-- The line of a header that gives the length, without its line feed. -/
def lengthLine (n : Nat) : List Char :=
  lengthName ++ ':' :: ' ' :: (Nat.toDigits 10 n ++ ['\r'])

/-- Whether a character is a single byte that does not end a line. -/
def IsInline (c : Char) : Prop := c.toNat < 128 ∧ c ≠ '\n'

instance (c : Char) : Decidable (IsInline c) := inferInstanceAs (Decidable (_ ∧ _))

theorem isInline_of_isDigit {c : Char} (h : c.isDigit = true) : IsInline c := by
  obtain ⟨-, hhigh⟩ := Char.isDigit_iff_toNat.1 h
  refine ⟨Nat.lt_of_le_of_lt hhigh (by decide), ?_⟩
  rintro rfl
  exact absurd h (by decide)

theorem isInline_of_mem_lengthLine {n : Nat} {c : Char} (h : c ∈ lengthLine n) : IsInline c := by
  have hname : lengthName.all (IsInline ·) = true := by decide
  simp only [lengthLine, List.mem_append, List.mem_cons, List.not_mem_nil, or_false] at h
  rcases h with h | rfl | rfl | h | rfl
  · exact of_decide_eq_true (List.all_eq_true.1 hname c h)
  · decide
  · decide
  · exact isInline_of_isDigit (Nat.isDigit_of_mem_toDigits (by decide) (by decide) h)
  · decide

theorem utf8EncodeChar_of_isInline {c : Char} (h : IsInline c) :
    String.utf8EncodeChar c = [c.toNat.toUInt8] := by
  rw [String.utf8EncodeChar.eq_def]
  exact if_pos (Nat.le_of_lt_succ h.1)

theorem toUInt8_ne_of_isInline {c : Char} (h : IsInline c) : c.toNat.toUInt8 ≠ 0x0A := by
  intro heq
  have hnat : c.toNat = 10 := by
    have := congrArg UInt8.toNat heq
    have hlt := h.1
    simp at this
    omega
  exact h.2 (Char.ext (UInt32.toNat_inj.1 hnat))

/-- The bytes of a line without its line feed. -/
theorem bytes_of_isInline {cs : List Char} (h : ∀ c ∈ cs, IsInline c) :
    bytes cs = cs.map fun c => c.toNat.toUInt8 := by
  induction cs with
  | nil => rfl
  | cons c cs ih =>
      rw [Text.Utf8.bytes_cons, utf8EncodeChar_of_isInline (h c List.mem_cons_self),
        ih fun c' hc' => h c' (List.mem_cons_of_mem _ hc')]
      rfl

/-- A beginning of such bytes is the bytes of a beginning. -/
theorem exists_chars_of_prefix {cs : List Char} (h : ∀ c ∈ cs, IsInline c) {cut : List UInt8}
    (hcut : cut <+: bytes cs) : ∃ before, before <+: cs ∧ cut = bytes before := by
  rw [bytes_of_isInline h, List.prefix_iff_eq_take, ← List.map_take] at hcut
  refine ⟨cs.take cut.length, List.take_prefix _ _, ?_⟩
  rw [bytes_of_isInline fun c hc => h c (List.mem_of_mem_take hc)]
  exact hcut

theorem lineFeed_not_mem {cs : List Char} (h : ∀ c ∈ cs, IsInline c) :
    ∀ b ∈ bytes cs, b ≠ 0x0A := by
  rw [bytes_of_isInline h]
  intro b hb
  obtain ⟨c, hc, rfl⟩ := List.mem_map.1 hb
  exact toUInt8_ne_of_isInline (h c hc)

theorem readLine_bytes (cs : List Char) : readLine (bytes cs) = parseLine cs := by
  rw [readLine, ← Text.Utf8.encode_ofList, Text.Utf8.decode?_encode]
  simp only [String.toList_ofList]

/-! ## What the lines of a header say -/

theorem parseLength_digits {cs : List Char} (hne : cs ≠ []) (h : ∀ c ∈ cs, c.isDigit = true) :
    parseLength cs =
      if cs.foldl (fun n c => n * 10 + (c.toNat - 0x30)) 0 < 18446744073709551616 then
        some (cs.foldl (fun n c => n * 10 + (c.toNat - 0x30)) 0)
      else none := by
  unfold parseLength
  split
  · next rest => exact absurd (h '+' List.mem_cons_self) (by decide)
  · rw [if_neg]
    simpa [hne] using h

theorem parseLength_toDigits {n : Nat} (h : n < 18446744073709551616) :
    parseLength (Nat.toDigits 10 n) = some n := by
  have hvalue : (Nat.toDigits 10 n).foldl (fun n c => n * 10 + (c.toNat - 0x30)) 0 = n := by
    have hcore := Nat.ofDigitChars_toDigits (b := 10) (n := n) (by decide) (by decide)
    simp only [Nat.ofDigitChars_eq_foldl, Nat.mul_comm 10] at hcore
    exact hcore
  rw [parseLength_digits Nat.toDigits_ne_nil fun c hc =>
    Nat.isDigit_of_mem_toDigits (by decide) (by decide) hc, hvalue, if_pos h]

/-- Trimming takes away blanks around a text that neither begins nor ends with one. -/
theorem trim_surrounded {before inside after : List Char} (hbefore : ∀ c ∈ before, Text.isBlank c)
    (hinside : ∀ c ∈ inside, Text.isBlank c = false) (hafter : ∀ c ∈ after, Text.isBlank c)
    (hne : inside ≠ []) : Text.trim (before ++ (inside ++ after)) = inside := by
  have hfront : (inside ++ after).dropWhile Text.isBlank = inside ++ after := by
    cases inside with
    | nil => exact absurd rfl hne
    | cons c cs => exact List.dropWhile_cons_of_neg (by simp [hinside c List.mem_cons_self])
  have hback : inside.reverse.dropWhile Text.isBlank = inside.reverse := by
    cases hrev : inside.reverse with
    | nil => rfl
    | cons c cs =>
        have hmem : c ∈ inside := List.mem_reverse.1 (hrev ▸ List.mem_cons_self)
        exact List.dropWhile_cons_of_neg (by simp [hinside c hmem])
  rw [Text.trim, List.dropWhile_append_of_pos hbefore, hfront, List.reverse_append,
    List.dropWhile_append_of_pos fun c hc => hafter c (List.mem_reverse.1 hc), hback,
    List.reverse_reverse]

theorem isBlank_of_isDigit {c : Char} (h : c.isDigit = true) : Text.isBlank c = false := by
  obtain ⟨hlow, hhigh⟩ := Char.isDigit_iff_toNat.1 h
  simp at hlow hhigh
  simp [Text.isBlank]
  omega

theorem trim_ne_nil {c : Char} (h : Text.isBlank c = false) (cs : List Char) :
    (Text.trim (c :: cs)).isEmpty = false := by
  have hmem : c ∈ (c :: cs).reverse.dropWhile Text.isBlank := by
    rw [List.reverse_cons, List.dropWhile_append]
    split
    · simp [h]
    · simp
  rw [Text.trim, List.dropWhile_cons_of_neg (by simp [h]), List.isEmpty_reverse]
  exact List.isEmpty_eq_false_iff_exists_mem.2 ⟨c, hmem⟩

/-- A line that does not begin with a blank does not end the header. -/
theorem parseLine_ne_separator {c : Char} (h : Text.isBlank c = false) (cs : List Char) :
    parseLine (c :: cs) ≠ .ok .separator := by
  unfold parseLine
  rw [trim_ne_nil h]
  intro hline
  simp only [Bool.false_eq_true, if_false] at hline
  split at hline
  · cases hline
  · split at hline
    · split at hline <;> cases hline
    · cases hline

theorem lengthLine_eq_cons (n : Nat) : ∃ cs, lengthLine n = 'C' :: cs := ⟨_, rfl⟩

theorem parseLine_lengthLine {n : Nat} (h : n < 18446744073709551616) :
    parseLine (lengthLine n ++ ['\n']) = .ok (.length n) := by
  have hname : ∀ c ∈ lengthName, (c != ':') = true := List.all_eq_true.1 (by decide)
  have hline : lengthLine n ++ ['\n'] =
      lengthName ++ ':' :: ([' '] ++ (Nat.toDigits 10 n ++ ['\r', '\n'])) := by
    simp only [lengthLine, List.append_assoc, List.cons_append, List.nil_append]
  have hvalue : Text.trim ([' '] ++ (Nat.toDigits 10 n ++ ['\r', '\n'])) = Nat.toDigits 10 n :=
    trim_surrounded (List.all_eq_true.1 (by decide)) (fun c hc =>
      isBlank_of_isDigit (Nat.isDigit_of_mem_toDigits (by decide) (by decide) hc))
      (List.all_eq_true.1 (by decide)) Nat.toDigits_ne_nil
  have hstart : (Text.trim (lengthLine n ++ ['\n'])).isEmpty = false := by
    obtain ⟨cs, hcs⟩ := lengthLine_eq_cons n
    rw [hcs]
    exact trim_ne_nil (by decide) (cs ++ ['\n'])
  have hmatch : (Text.trim lengthName).map Char.toLower = "content-length".toList := by decide
  unfold parseLine
  rw [hstart, hline, List.dropWhile_append_of_pos hname, List.takeWhile_append_of_pos hname,
    List.dropWhile_cons_of_neg (by decide), List.takeWhile_cons_of_neg (by decide),
    List.append_nil]
  simp only [Bool.false_eq_true, if_false, hmatch, if_true, hvalue, parseLength_toDigits h]

/-! ## One frame -/

variable {limit : Nat} {ended : Bool}

/-- The bytes of a line are collected up to its line feed. -/
theorem readHeader_inline {bs : List UInt8} (h : ∀ b ∈ bs, b ≠ 0x0A) (line : List UInt8)
    (length : Option Nat) (rest : List UInt8) :
    readHeader limit ended line length (bs ++ rest) =
      readHeader limit ended (bs.reverse ++ line) length rest := by
  induction bs generalizing line with
  | nil => rfl
  | cons b bs ih =>
      rw [List.cons_append, readHeader, if_neg (h b List.mem_cons_self),
        ih fun b' hb' => h b' (List.mem_cons_of_mem _ hb')]
      simp

/-- The bytes of the line that gives the length. -/
def lengthBytes (n : Nat) : List UInt8 := bytes (lengthLine n)

theorem header_eq (n : Nat) : header n = lengthBytes n ++ [0x0A, 0x0D, 0x0A] := by
  have hname : Text.Utf8.encode "Content-Length: " =
      bytes (lengthName ++ [':', ' ']) := by decide
  have hend : Text.Utf8.encode "\r\n\r\n" =
      String.utf8EncodeChar '\r' ++ [0x0A, 0x0D, 0x0A] := by decide
  simp only [header, hname, hend, lengthBytes, lengthLine, Text.Utf8.bytes_append,
    Text.Utf8.bytes_cons, Text.Utf8.bytes_nil, List.append_nil, List.append_assoc]

theorem readHeader_lengthBytes {n : Nat} (hn : n < 18446744073709551616) (rest : List UInt8) :
    readHeader limit ended [] none (lengthBytes n ++ 0x0A :: rest) =
      readHeader limit ended [] (some n) rest := by
  have hline : readLine (lengthBytes n ++ [0x0A]) = .ok (.length n) := by
    have hbytes : lengthBytes n ++ [0x0A] = bytes (lengthLine n ++ ['\n']) := by
      rw [Text.Utf8.bytes_append]
      rfl
    rw [hbytes, readLine_bytes, parseLine_lengthLine hn]
  rw [lengthBytes, readHeader_inline (lineFeed_not_mem fun c hc => isInline_of_mem_lengthLine hc),
    readHeader, if_pos rfl]
  rw [lengthBytes] at hline
  simp [hline]

theorem readHeader_header {n : Nat} (hn : n < 18446744073709551616) (rest : List UInt8) :
    readHeader limit ended [] none (header n ++ rest) = readBody limit ended (some n) rest := by
  have hblank : readLine [0x0D, 0x0A] = .ok .separator := by
    rw [show ([0x0D, 0x0A] : List UInt8) = bytes ['\r', '\n'] by decide,
      readLine_bytes, parseLine, if_pos (by decide)]
  rw [header_eq, List.append_assoc]
  show readHeader limit ended [] none (lengthBytes n ++ 0x0A :: 0x0D :: 0x0A :: rest) = _
  rw [readHeader_lengthBytes hn, readHeader, if_neg (by decide), readHeader, if_pos rfl]
  simp [hblank]

theorem read_of_ne_nil {input : List UInt8} (h : input ≠ []) :
    read limit ended input = readHeader limit ended [] none input := by
  cases input with
  | nil => exact absurd rfl h
  | cons b rest => rfl

theorem write_ne_nil (body : List UInt8) : write body ≠ [] := by simp [write, header_eq]

/-- **A written frame is read back**, and the reader stands behind it. -/
theorem read_write {body : List UInt8} (hsize : body.length < 18446744073709551616)
    (hlimit : body.length ≤ limit) (rest : List UInt8) :
    read limit ended (write body ++ rest) = .frame body rest := by
  have hne : write body ++ rest ≠ [] := List.append_ne_nil_of_left_ne_nil (write_ne_nil body) rest
  rw [read_of_ne_nil hne, write, List.append_assoc, readHeader_header hsize, readBody,
    if_neg (Nat.not_lt.2 hlimit), if_pos (by simp), List.take_left, List.drop_left]

theorem readBody_short {n : Nat} {input : List UInt8} (h : ¬ n ≤ input.length) :
    ∃ fault, readBody limit true (some n) input = .failed fault := by
  unfold readBody
  dsimp only
  split
  · exact ⟨_, rfl⟩
  · exact ⟨_, rfl⟩

/-- A header that breaks off is never taken for a whole one: what is missing of it, or of the body
behind it, is missed. -/
theorem readHeader_cut {n : Nat} (hn : n < 18446744073709551616) (hpos : 0 < n) {cut : List UInt8}
    (hcut : cut <+: header n) (hproper : cut ≠ header n) (hne : cut ≠ []) :
    ∃ fault, readHeader limit true [] none cut = .failed fault := by
  have hheader : header n = lengthBytes n ++ [0x0A] ++ [0x0D] ++ [0x0A] := by
    rw [header_eq, List.append_assoc, List.append_assoc]
    rfl
  rw [hheader] at hcut hproper
  rcases List.prefix_concat_iff.1 hcut with hall | hcut
  · exact absurd hall hproper
  rcases List.prefix_concat_iff.1 hcut with rfl | hcut
  · -- A lone CR ends the header, and the body is missing.
    have hblank : readLine [0x0D] = .ok .separator := by
      rw [show ([0x0D] : List UInt8) = bytes ['\r'] by decide,
        readLine_bytes, parseLine, if_pos (by decide)]
    rw [List.append_assoc, List.singleton_append, readHeader_lengthBytes hn, readHeader,
      if_neg (by decide), readHeader]
    simp only [Bool.not_true, Bool.false_eq_true, if_false, List.isEmpty_cons,
      List.reverse_singleton, hblank]
    exact readBody_short (Nat.not_le.2 hpos)
  rcases List.prefix_concat_iff.1 hcut with rfl | hcut
  · -- Nothing follows the line with the length.
    rw [readHeader_lengthBytes hn]
    exact ⟨_, rfl⟩
  · -- The line with the length is itself cut off, and is not blank.
    obtain ⟨before, hbefore, rfl⟩ :=
      exists_chars_of_prefix (fun c hc => isInline_of_mem_lengthLine hc) hcut
    have hinline : ∀ c ∈ before, IsInline c := fun c hc =>
      isInline_of_mem_lengthLine (hbefore.subset hc)
    obtain ⟨cs, rfl⟩ : ∃ cs, before = 'C' :: cs := by
      obtain ⟨after, hafter⟩ := hbefore
      obtain ⟨line, hline⟩ := lengthLine_eq_cons n
      rw [hline] at hafter
      cases before with
      | nil => exact absurd rfl hne
      | cons c cs => exact ⟨cs, by rw [(List.cons.inj hafter).1]⟩
    have hline := parseLine_ne_separator (c := 'C') (by decide) cs
    rw [← readLine_bytes] at hline
    rw [← List.append_nil (bytes _), readHeader_inline (lineFeed_not_mem hinline),
      List.append_nil, readHeader]
    simp only [Bool.not_true, Bool.false_eq_true, if_false, List.isEmpty_reverse,
      List.reverse_reverse]
    split
    · exact ⟨_, rfl⟩
    · split
      · exact ⟨_, rfl⟩
      · next heq => exact absurd heq hline
      · exact ⟨_, rfl⟩
      · exact ⟨_, rfl⟩

/-- **A frame that is cut off is a fault.** -/
theorem read_cut {body : List UInt8} (hsize : body.length < 18446744073709551616)
    (hbody : body ≠ []) {cut : List UInt8} (hcut : cut <+: write body) (hproper : cut ≠ write body)
    (hne : cut ≠ []) : ∃ fault, read limit true cut = .failed fault := by
  have hpos : 0 < body.length := List.length_pos_iff.2 hbody
  rw [read_of_ne_nil hne]
  rcases List.prefix_or_prefix_of_prefix hcut (List.prefix_append (header body.length) body) with
    hinside | ⟨part, rfl⟩
  · by_cases hall : cut = header body.length
    · subst hall
      rw [← List.append_nil (header body.length), readHeader_header hsize]
      exact readBody_short (Nat.not_le.2 hpos)
    · exact readHeader_cut hsize hpos hinside hall hne
  · -- The cut falls into the body.
    have hpart : part <+: body := (List.prefix_append_right_inj _).1 hcut
    have hshort : ¬ body.length ≤ part.length := by
      intro hle
      exact hproper (by rw [write, hpart.eq_of_length_le hle])
    rw [readHeader_header hsize]
    exact readBody_short hshort

/-! ## Whole streams -/

/-- The bodies with the places at which their frames end, in a stream of which so many bytes have
gone before. -/
def frameEnds (start : Nat) : List (List UInt8) → List (List UInt8 × Nat)
  | [] => []
  | body :: rest =>
    (body, start + (write body).length) :: frameEnds (start + (write body).length) rest

/-- The bodies whose frames lie wholly within so many bytes of a stream. -/
def wholeFrames (cut : Nat) (bodies : List (List UInt8)) : List (List UInt8) :=
  ((frameEnds 0 bodies).filter fun entry => entry.2 ≤ cut).map (·.1)

theorem start_le_of_mem_frameEnds {start : Nat} {bodies : List (List UInt8)}
    {entry : List UInt8 × Nat} (h : entry ∈ frameEnds start bodies) : start ≤ entry.2 := by
  induction bodies generalizing start with
  | nil => cases h
  | cons body rest ih =>
      rcases List.mem_cons.1 h with rfl | h
      · exact Nat.le_add_right _ _
      · exact Nat.le_trans (Nat.le_add_right _ _) (ih h)

/-- When the first frame is cut off, none lies within the cut. -/
theorem filter_frameEnds_of_lt {start cut : Nat} {body : List UInt8} {rest : List (List UInt8)}
    (h : cut < (write body).length) :
    (frameEnds start (body :: rest)).filter (fun entry => entry.2 ≤ start + cut) = [] := by
  rw [List.filter_eq_nil_iff]
  intro entry hentry
  have hend : start + (write body).length ≤ entry.2 := by
    rcases List.mem_cons.1 hentry with rfl | hentry
    · exact Nat.le_refl _
    · exact start_le_of_mem_frameEnds hentry
  simp only [decide_eq_true_eq]
  omega

/-- A cut behind the first frame falls between two frames just if it does so in the others. -/
theorem boundary_cons (body : List UInt8) (rest : List (List UInt8)) (cut : List UInt8) :
    (∃ k, write body ++ cut = ((body :: rest).take k).flatMap write) ↔
      ∃ k, cut = (rest.take k).flatMap write := by
  constructor
  · rintro ⟨k, hk⟩
    cases k with
    | zero => exact absurd (List.append_eq_nil_iff.1 hk).1 (write_ne_nil body)
    | succ k => exact ⟨k, List.append_cancel_left hk⟩
  · rintro ⟨k, hk⟩
    exact ⟨k + 1, by rw [List.take_succ_cons, List.flatMap_cons, hk]⟩

theorem end_le_of_mem_frameEnds {start : Nat} {bodies : List (List UInt8)}
    {entry : List UInt8 × Nat} (h : entry ∈ frameEnds start bodies) :
    entry.2 ≤ start + (bodies.flatMap write).length := by
  induction bodies generalizing start with
  | nil => cases h
  | cons body rest ih =>
      rw [List.flatMap_cons, List.length_append, ← Nat.add_assoc]
      rcases List.mem_cons.1 h with rfl | h
      · exact Nat.le_add_right _ _
      · exact ih h

theorem map_fst_frameEnds (start : Nat) (bodies : List (List UInt8)) :
    (frameEnds start bodies).map (·.1) = bodies := by
  induction bodies generalizing start with
  | nil => rfl
  | cons body rest ih => rw [frameEnds, List.map_cons, ih]

theorem wholeFrames_all (bodies : List (List UInt8)) :
    wholeFrames (bodies.flatMap write).length bodies = bodies := by
  have hall : (frameEnds 0 bodies).filter
      (fun entry => entry.2 ≤ (bodies.flatMap write).length) = frameEnds 0 bodies := by
    rw [List.filter_eq_self]
    intro entry hentry
    have hle := end_le_of_mem_frameEnds hentry
    simpa using hle
  rw [wholeFrames, hall, map_fst_frameEnds]

theorem readFrames_nil {fuel : Nat} (hfuel : 0 < fuel) : readFrames limit fuel [] = ([], none) := by
  cases fuel with
  | zero => exact absurd hfuel (Nat.lt_irrefl 0)
  | succ fuel => rfl

theorem readFrames_write {body : List UInt8} (hsize : body.length < 18446744073709551616)
    (hlimit : body.length ≤ limit) (rest : List UInt8) (fuel : Nat) :
    readFrames limit (fuel + 1) (write body ++ rest) =
      (body :: (readFrames limit fuel rest).1, (readFrames limit fuel rest).2) := by
  rw [readFrames, read_write hsize hlimit]

theorem readFrames_failed {input : List UInt8} {fault : Fault}
    (h : read limit true input = .failed fault) {fuel : Nat} (hfuel : 0 < fuel) :
    readFrames limit fuel input = ([], some fault) := by
  cases fuel with
  | zero => exact absurd hfuel (Nat.lt_irrefl 0)
  | succ fuel => rw [readFrames, h]

/-- The frames of a stream that is cut off, when `start` bytes have gone before it. The recursion is
that of the reader: each frame that is whole is taken off, and the first that is not ends it. -/
theorem readFrames_cut {bodies : List (List UInt8)}
    (hbodies : ∀ body ∈ bodies, body ≠ [] ∧ body.length ≤ limit)
    (hlimit : limit < 18446744073709551616) {cut : List UInt8} (hcut : cut <+: bodies.flatMap write)
    {fuel : Nat} (hfuel : cut.length < fuel) (start : Nat) :
    (readFrames limit fuel cut).1 =
      ((frameEnds start bodies).filter fun entry => entry.2 ≤ start + cut.length).map (·.1) ∧
    ((readFrames limit fuel cut).2 = none ↔ ∃ k, cut = (bodies.take k).flatMap write) := by
  induction bodies generalizing cut fuel start with
  | nil =>
      obtain rfl : cut = [] := List.prefix_nil.1 hcut
      rw [readFrames_nil hfuel]
      exact ⟨rfl, fun _ => ⟨0, rfl⟩, fun _ => rfl⟩
  | cons body rest ih =>
      obtain ⟨hbody, hle⟩ := hbodies body List.mem_cons_self
      have hsize : body.length < 18446744073709551616 := Nat.lt_of_le_of_lt hle hlimit
      rw [List.flatMap_cons] at hcut
      by_cases hwhole : write body <+: cut
      · -- The frame is whole, and the cut falls somewhere behind it.
        obtain ⟨cut, rfl⟩ := hwhole
        have hwrite : 0 < (write body).length := List.length_pos_iff.2 (write_ne_nil body)
        rw [List.length_append] at hfuel
        obtain ⟨fuel, rfl⟩ : ∃ n, fuel = n + 1 := ⟨fuel - 1, by omega⟩
        have hrest : cut.length < fuel := by omega
        obtain ⟨hwholes, hfault⟩ := ih (fun b hb => hbodies b (List.mem_cons_of_mem _ hb))
          ((List.prefix_append_right_inj _).1 hcut) hrest (start + (write body).length)
        rw [readFrames_write hsize hle, List.length_append, ← Nat.add_assoc]
        refine ⟨?_, hfault.trans (boundary_cons body rest cut).symm⟩
        rw [frameEnds, List.filter_cons_of_pos (by simp), List.map_cons, hwholes]
      · -- No later frame is whole either, and only a cut at the very start is clean.
        have hinside : cut <+: write body := by
          rcases List.prefix_or_prefix_of_prefix hcut (List.prefix_append _ _) with h | h
          · exact h
          · exact absurd h hwhole
        have hproper : cut ≠ write body := by
          rintro rfl
          exact hwhole (List.prefix_refl _)
        have hshort : cut.length < (write body).length :=
          Nat.lt_of_le_of_ne hinside.length_le fun heq => hproper (hinside.eq_of_length heq)
        rw [filter_frameEnds_of_lt hshort]
        by_cases hempty : cut = []
        · subst hempty
          rw [readFrames_nil hfuel]
          exact ⟨rfl, fun _ => ⟨0, rfl⟩, fun _ => rfl⟩
        · obtain ⟨fault, hfailed⟩ : ∃ fault, read limit true cut = .failed fault :=
            read_cut hsize hbody hinside hproper hempty
          rw [readFrames_failed hfailed (Nat.zero_lt_of_lt hfuel)]
          refine ⟨rfl, (fun h => by cases h), fun ⟨k, hk⟩ => ?_⟩
          cases k with
          | zero => exact absurd hk hempty
          | succ k => exact absurd (hk ▸ List.prefix_append _ _) hwhole

theorem encode_ne_nil (m : Message) : m.encode ≠ [] := by
  obtain ⟨key, value, rest, hobj⟩ : ∃ key value rest, m.toJson = .obj ((key, value) :: rest) := by
    cases m <;> exact ⟨_, _, _, rfl⟩
  rw [Message.encode, Message.render, Text.Utf8.encode, Json.render, String.toList_ofList, hobj,
    Json.chars, Text.Utf8.bytes_cons]
  exact List.append_ne_nil_of_left_ne_nil String.utf8EncodeChar_ne_nil _

/-- **Streams of frames are read back**, whole or cut off. The bodies may hold anything, but are
neither empty nor longer than the reader takes, whose limit is a number of 64 bits; messages are
never empty. A stream that is cut off gives the bodies whose frames came through whole, and ends
without a fault exactly if the cut falls between two frames. -/
theorem readAll_frames (limit : Nat) (bodies : List (List UInt8))
    (hlimit : limit < 18446744073709551616)
    (hbodies : ∀ body ∈ bodies, body ≠ [] ∧ body.length ≤ limit) :
    readAll limit (bodies.flatMap write) = (bodies, none) ∧
    (∀ cut, cut <+: bodies.flatMap write → cut ≠ bodies.flatMap write →
      (readAll limit cut).1 = wholeFrames cut.length bodies ∧
      ((readAll limit cut).2 = none ↔ ∃ k, cut = (bodies.take k).flatMap write)) ∧
    ∀ m : Message, m.encode ≠ [] := by
  have hread : ∀ cut, cut <+: bodies.flatMap write →
      (readAll limit cut).1 = wholeFrames cut.length bodies ∧
      ((readAll limit cut).2 = none ↔ ∃ k, cut = (bodies.take k).flatMap write) := by
    intro cut hcut
    have hcuts := readFrames_cut hbodies hlimit hcut (Nat.lt_succ_self _) 0
    rw [Nat.zero_add] at hcuts
    exact hcuts
  refine ⟨?_, fun cut hcut _ => hread cut hcut, encode_ne_nil⟩
  obtain ⟨hwhole, hclean⟩ := hread _ (List.prefix_refl _)
  rw [wholeFrames_all] at hwhole
  exact Prod.ext hwhole (hclean.2 ⟨bodies.length, by rw [List.take_length]⟩)

/-- A body that looks like a frame, and one of twelve bytes that are not text. -/
def awkwardBodies : List (List UInt8) :=
  [Text.Utf8.encode "Content-Length: 1\r\n\r\nx",
   [0xFF, 0x0A, 0x0D, 0x0A, 0x0D, 0x0A, 0xC3, 0x28, 0x00, 0x3A, 0x0A, 0x0A]]

/-- The stream is cut inside the second length, of which only the first digit is left. -/
theorem readAll_awkwardBodies :
    readAll 64 (awkwardBodies.flatMap write) = (awkwardBodies, none) ∧
    (readAll 64 ((awkwardBodies.flatMap write).take 61)).1 = awkwardBodies.take 1 ∧
    (readAll 64 ((awkwardBodies.flatMap write).take 61)).2 ≠ none := by
  obtain ⟨hwhole, hcut, -⟩ := readAll_frames 64 awkwardBodies (by decide) (by decide)
  have hproper : (awkwardBodies.flatMap write).take 61 ≠ awkwardBodies.flatMap write := by
    decide +kernel
  obtain ⟨hbodies, hclean⟩ := hcut _ (List.take_prefix 61 _) hproper
  refine ⟨hwhole, hbodies.trans (by decide +kernel), fun hnone => ?_⟩
  obtain ⟨k, hk⟩ := hclean.1 hnone
  match k with
  | 0 => exact absurd hk (by decide +kernel)
  | 1 => exact absurd hk (by decide +kernel)
  | k + 2 =>
      have hall : awkwardBodies.take (k + 2) = awkwardBodies :=
        List.take_of_length_le (Nat.le_add_left 2 k)
      rw [hall] at hk
      exact hproper hk

end LanguageServer.Frame
