import LanguageServer.Proofs.Sorting
import LanguageServer.Token.Data

set_option autoImplicit false

/-! # Tokens and their flat data stand for each other

Writer and reader both go from token to token with the place of the token before, and a new line
makes the columns start anew. One step of the reader is a sum of numbers without a bound, and it
fails just when the sum does not fit 32 bits (`nextPlace_eq_some_iff`, `nextPlace_eq_none_iff`); a
step of the writer undoes it, since tokens in order never make it subtract the greater number. The
tokens before a given one count only through their place, so the loops are followed with any token
`before` in front, and in order means that `before :: tokens` is.

What the reader refuses is told from the data alone: `lineAfter` and `startAfter` are the place after
so many tuples, added up without a bound. -/

namespace LanguageServer.SemanticToken

/-! ## The order of tokens -/

theorem le_iff {a b : SemanticToken} : a.le b = true ↔ a.line.toNat < b.line.toNat ∨
    (a.line.toNat = b.line.toNat ∧ a.start.toNat ≤ b.start.toNat) := by
  simp only [le, Bool.or_eq_true, Bool.and_eq_true, decide_eq_true_eq, UInt32.lt_iff_toNat_lt,
    UInt32.le_iff_toNat_le, UInt32.toNat_inj]

theorem le_refl (a : SemanticToken) : a.le a = true := by
  rw [le_iff]
  omega

theorem le_trans (a b c : SemanticToken) (hab : a.le b = true) (hbc : b.le c = true) :
    a.le c = true := by
  rw [le_iff] at *
  omega

theorem le_total (a b : SemanticToken) : (a.le b || b.le a) = true := by
  rw [Bool.or_eq_true, le_iff, le_iff]
  omega

/-- Whether tokens start at the same place. -/
def samePlace (a b : SemanticToken) : Bool := a.line = b.line && a.start = b.start

theorem tied_le : tied le = samePlace := by
  funext a b
  rw [Bool.eq_iff_iff, tied_iff, le_iff, le_iff, samePlace]
  simp only [Bool.and_eq_true, decide_eq_true_eq, ← UInt32.toNat_inj]
  omega

theorem isStableSort_sort (tokens : List SemanticToken) :
    IsStableSort le tokens (sort tokens) :=
  isStableSort_mergeSort le_trans le_total tokens

/-- The place that counting begins at, as a token. -/
def origin : SemanticToken := ⟨0, 0, 0, 0, 0⟩

/-- Tokens in order start at or after the origin. -/
theorem pairwise_origin {tokens : List SemanticToken}
    (h : tokens.Pairwise fun a b => a.le b = true) :
    (origin :: tokens).Pairwise fun a b => a.le b = true := by
  refine List.pairwise_cons.2 ⟨fun t _ => le_iff.2 ?_, h⟩
  have hline : origin.line.toNat = 0 := rfl
  have hstart : origin.start.toNat = 0 := rfl
  omega

theorem pairwise_cons_cons {a b : SemanticToken} {tokens : List SemanticToken}
    (hab : a.le b = true) (h : (b :: tokens).Pairwise fun a b => a.le b = true) :
    (a :: b :: tokens).Pairwise fun a b => a.le b = true := by
  refine List.pairwise_cons.2 ⟨fun t ht => ?_, h⟩
  rcases List.mem_cons.1 ht with rfl | ht
  · exact hab
  · exact le_trans a b t hab (List.rel_of_pairwise_cons h ht)

/-! ## One step of the reader -/

/-- The place of the token that a tuple puts behind a token at `line` and `start`. -/
def nextPlace (line start deltaLine deltaStart : UInt32) : Option (UInt32 × UInt32) := do
  let line ← checkedAdd line deltaLine
  let start ← if deltaLine = 0 then checkedAdd start deltaStart else some deltaStart
  return (line, start)

theorem checkedAdd_eq_some_iff {a b c : UInt32} :
    checkedAdd a b = some c ↔ c.toNat = a.toNat + b.toNat := by
  unfold checkedAdd
  split
  · next h =>
      rw [Option.some.injEq, ← UInt32.toNat_inj, UInt32.toNat_add, Nat.mod_eq_of_lt h]
      exact eq_comm
  · next h =>
      have hc := c.toNat_lt
      simp only [reduceCtorEq, false_iff]
      omega

/-- The line and the column that a tuple leads to are sums without a bound. -/
theorem nextPlace_eq_some_iff {line start deltaLine deltaStart line' start' : UInt32} :
    nextPlace line start deltaLine deltaStart = some (line', start') ↔
      line'.toNat = line.toNat + deltaLine.toNat ∧
      start'.toNat = (if deltaLine = 0 then start.toNat else 0) + deltaStart.toNat := by
  by_cases h : deltaLine = 0
  · simp only [nextPlace, if_pos h, Option.bind_eq_bind, Option.bind_eq_some_iff,
      checkedAdd_eq_some_iff]
    constructor
    · rintro ⟨l, hl, s, hs, ⟨⟩⟩
      exact ⟨hl, hs⟩
    · rintro ⟨hl, hs⟩
      exact ⟨line', hl, start', hs, rfl⟩
  · simp only [nextPlace, if_neg h, Option.bind_eq_bind, Option.bind_eq_some_iff,
      checkedAdd_eq_some_iff, Nat.zero_add, UInt32.toNat_inj]
    constructor
    · rintro ⟨l, hl, s, hs, ⟨⟩⟩
      exact ⟨hl, (Option.some.inj hs).symm⟩
    · rintro ⟨hl, hs⟩
      exact ⟨line', hl, start', congrArg some hs.symm, rfl⟩

/-- A tuple leads nowhere just when its line or its column does not fit 32 bits. -/
theorem nextPlace_eq_none_iff {line start deltaLine deltaStart : UInt32} :
    nextPlace line start deltaLine deltaStart = none ↔
      4294967296 ≤ line.toNat + deltaLine.toNat ∨
      4294967296 ≤ (if deltaLine = 0 then start.toNat else 0) + deltaStart.toNat := by
  constructor
  · intro h
    refine Decidable.byContradiction fun hfits => ?_
    rw [not_or, Nat.not_le, Nat.not_le] at hfits
    have hplace := nextPlace_eq_some_iff.2
      ⟨UInt32.toNat_ofNat_of_lt' hfits.1, UInt32.toNat_ofNat_of_lt' hfits.2⟩
    rw [h] at hplace
    cases hplace
  · intro h
    cases hplace : nextPlace line start deltaLine deltaStart with
    | none => rfl
    | some p =>
        obtain ⟨hline, hstart⟩ := nextPlace_eq_some_iff.1 hplace
        have hline' := p.1.toNat_lt
        have hstart' := p.2.toNat_lt
        omega

theorem decodeFrom_cons (index : Nat) (line start a b c d e : UInt32) (rest : List UInt32) :
    decodeFrom index line start (a :: b :: c :: d :: e :: rest) =
      match nextPlace line start a b with
      | none => .error (.overflow index)
      | some (line', start') =>
        (decodeFrom (index + 1) line' start' rest).map (⟨line', start', c, d, e⟩ :: ·) := by
  change (match nextPlace line start a b with
    | none => _
    | some (_, _) => _) = _
  cases nextPlace line start a b with
  | none => rfl
  | some p => rfl

/-! ## From tokens to data and back -/

/-- The difference of two numbers, if it is none below zero. -/
def checkedSub (a b : UInt32) : Option UInt32 := if b ≤ a then some (a - b) else none

/-- The data of tokens in order, after a token at `line` and `start`; none if some difference is
below zero. -/
def checkedEncodeFrom (line start : UInt32) : List SemanticToken → Option (List UInt32)
  | [] => some []
  | t :: rest => do
    let deltaLine ← checkedSub t.line line
    let deltaStart ← if deltaLine = 0 then checkedSub t.start start else some t.start
    let data ← checkedEncodeFrom t.line t.start rest
    return [deltaLine, deltaStart, t.length, t.tokenType, t.tokenModifiers] ++ data

/-- The flat data of tokens; none if some difference is below zero. -/
def checkedEncode (tokens : List SemanticToken) : Option (List UInt32) :=
  checkedEncodeFrom 0 0 (sort tokens)

theorem sub_eq_zero_iff {a b : UInt32} : a - b = 0 ↔ a = b := by
  rw [UInt32.sub_eq_iff_eq_add, UInt32.zero_add]

theorem checkedEncodeFrom_eq {before : SemanticToken} {tokens : List SemanticToken}
    (h : (before :: tokens).Pairwise fun a b => a.le b = true) :
    checkedEncodeFrom before.line before.start tokens
      = some (encodeFrom before.line before.start tokens) := by
  induction tokens generalizing before with
  | nil => rfl
  | cons t rest ih =>
      obtain ⟨hbefore, hrest⟩ := List.pairwise_cons.1 h
      have hle := le_iff.1 (hbefore t List.mem_cons_self)
      have hline : before.line ≤ t.line := UInt32.le_iff_toNat_le.2 (by omega)
      have hstart : t.line - before.line = 0 → before.start ≤ t.start := by
        intro hzero
        have hsame := congrArg UInt32.toNat (sub_eq_zero_iff.1 hzero)
        exact UInt32.le_iff_toNat_le.2 (by omega)
      rw [checkedEncodeFrom, checkedSub, if_pos hline, ih hrest, encodeFrom]
      by_cases hzero : t.line - before.line = 0
      · simp [hzero, checkedSub, hstart hzero]
      · simp [hzero]

/-- The reader takes the step that the writer wrote down. -/
theorem nextPlace_delta {before t : SemanticToken} (h : before.le t = true) :
    nextPlace before.line before.start (t.line - before.line)
        (if t.line - before.line = 0 then t.start - before.start else t.start)
      = some (t.line, t.start) := by
  have hle := le_iff.1 h
  have hline : (t.line - before.line).toNat = t.line.toNat - before.line.toNat :=
    UInt32.toNat_sub_of_le _ _ (UInt32.le_iff_toNat_le.2 (by omega))
  rw [nextPlace_eq_some_iff]
  refine ⟨by omega, ?_⟩
  by_cases hzero : t.line - before.line = 0
  · have hsame := congrArg UInt32.toNat (sub_eq_zero_iff.1 hzero)
    rw [if_pos hzero, if_pos hzero,
      UInt32.toNat_sub_of_le _ _ (UInt32.le_iff_toNat_le.2 (by omega))]
    omega
  · rw [if_neg hzero, if_neg hzero, Nat.zero_add]

theorem decodeFrom_encodeFrom {before : SemanticToken} {tokens : List SemanticToken}
    (h : (before :: tokens).Pairwise fun a b => a.le b = true) (index : Nat) :
    decodeFrom index before.line before.start (encodeFrom before.line before.start tokens)
      = .ok tokens := by
  induction tokens generalizing before index with
  | nil => rfl
  | cons t rest ih =>
      obtain ⟨hbefore, hrest⟩ := List.pairwise_cons.1 h
      have hplace := nextPlace_delta (hbefore t List.mem_cons_self)
      rw [encodeFrom]
      simp only [List.cons_append, List.nil_append]
      rw [decodeFrom_cons, hplace]
      simp only [ih hrest]
      rfl

theorem length_encodeFrom (line start : UInt32) (tokens : List SemanticToken) :
    (encodeFrom line start tokens).length = 5 * tokens.length := by
  induction tokens generalizing line start with
  | nil => rfl
  | cons t rest ih =>
      simp only [encodeFrom, List.length_append, List.length_cons, List.length_nil, ih]
      omega

theorem decode_encode_eq_sort (tokens : List SemanticToken) :
    decode (encode tokens) = .ok (sort tokens) := by
  have hsorted := pairwise_origin (isStableSort_sort tokens).pairwise
  rw [decode, encode, if_pos (by rw [length_encodeFrom]; omega)]
  exact decodeFrom_encodeFrom hsorted 0

/-! ## From data to tokens and back -/

theorem exists_tuple {data : List UInt32} {n : Nat} (h : data.length = 5 * (n + 1)) :
    ∃ a b c d e rest, data = a :: b :: c :: d :: e :: rest ∧ rest.length = 5 * n := by
  match data, h with
  | a :: b :: c :: d :: e :: rest, h =>
      refine ⟨a, b, c, d, e, rest, rfl, ?_⟩
      simp only [List.length_cons] at h
      omega
  | [], h | [_], h | [_, _], h | [_, _, _], h | [_, _, _, _], h =>
      simp only [List.length_cons, List.length_nil] at h
      omega

/-- The writer writes down the step that the reader took. -/
theorem delta_nextPlace {line start deltaLine deltaStart line' start' : UInt32}
    (h : nextPlace line start deltaLine deltaStart = some (line', start')) :
    line' - line = deltaLine ∧
      (if line' - line = 0 then start' - start else start') = deltaStart := by
  obtain ⟨hline, hstart⟩ := nextPlace_eq_some_iff.1 h
  have hdelta : line' - line = deltaLine := by
    rw [← UInt32.toNat_inj, UInt32.toNat_sub_of_le _ _ (UInt32.le_iff_toNat_le.2 (by omega))]
    omega
  refine ⟨hdelta, ?_⟩
  rw [hdelta]
  by_cases hzero : deltaLine = 0
  · rw [if_pos hzero] at hstart
    rw [if_pos hzero, ← UInt32.toNat_inj,
      UInt32.toNat_sub_of_le _ _ (UInt32.le_iff_toNat_le.2 (by omega))]
    omega
  · rw [if_neg hzero, Nat.zero_add] at hstart
    rw [if_neg hzero, ← UInt32.toNat_inj, hstart]

/-- What was read comes in order, and is written as it was. -/
theorem encodeFrom_decodeFrom {n index : Nat} {data : List UInt32} {tokens : List SemanticToken}
    (before : SemanticToken) (hdata : data.length = 5 * n)
    (h : decodeFrom index before.line before.start data = .ok tokens) :
    (before :: tokens).Pairwise (fun a b => a.le b = true) ∧
      encodeFrom before.line before.start tokens = data := by
  induction n generalizing data before index tokens with
  | zero =>
      obtain rfl := List.length_eq_zero_iff.1 hdata
      obtain rfl : [] = tokens := Except.ok.inj h
      exact ⟨List.pairwise_singleton _ _, rfl⟩
  | succ n ih =>
      obtain ⟨a, b, c, d, e, rest, rfl, hrest⟩ := exists_tuple hdata
      rw [decodeFrom_cons] at h
      cases hplace : nextPlace before.line before.start a b with
      | none => rw [hplace] at h; cases h
      | some p =>
          obtain ⟨line, start⟩ := p
          cases hlater : decodeFrom (index + 1) line start rest with
          | error fault => simp only [hplace, hlater] at h; cases h
          | ok later =>
              simp only [hplace, hlater] at h
              obtain rfl : ⟨line, start, c, d, e⟩ :: later = tokens := Except.ok.inj h
              obtain ⟨hsorted, hsame⟩ := ih ⟨line, start, c, d, e⟩ hrest hlater
              obtain ⟨hline, hstart⟩ := nextPlace_eq_some_iff.1 hplace
              obtain ⟨hdeltaLine, hdeltaStart⟩ := delta_nextPlace hplace
              have hle : before.le ⟨line, start, c, d, e⟩ = true := by
                rw [le_iff]
                dsimp only
                -- without a new line the column goes on; with one it does not matter
                by_cases hzero : a = 0
                · rw [hzero, UInt32.toNat_zero] at hline
                  rw [if_pos hzero] at hstart
                  omega
                · have hne : a.toNat ≠ 0 := fun h' => hzero (UInt32.toNat_inj.1 h')
                  omega
              refine ⟨pairwise_cons_cons hle hsorted, ?_⟩
              rw [encodeFrom]
              dsimp only at hsame ⊢
              rw [hdeltaStart, hdeltaLine, hsame]
              rfl

theorem encode_of_decode {data : List UInt32} {tokens : List SemanticToken}
    (h : decode data = .ok tokens) :
    tokens.Pairwise (fun a b => a.le b = true) ∧ encode tokens = data := by
  rw [decode] at h
  split at h
  · next hlength =>
      have hdata : data.length = 5 * (data.length / 5) := by omega
      obtain ⟨hsorted, hsame⟩ := encodeFrom_decodeFrom origin hdata h
      have htokens := (List.pairwise_cons.1 hsorted).2
      refine ⟨htokens, ?_⟩
      rw [encode, sort, List.mergeSort_of_pairwise htokens]
      exact hsame
  · cases h

/-! ## What the reader refuses -/

/-- The number at a place of flat data. -/
def entry (data : List UInt32) (i : Nat) : Nat := (data[i]?.getD 0).toNat

/-- The line after the first tuples of data, added up without a bound. -/
def lineAfter (data : List UInt32) : (tuples : Nat) → Nat
  | 0 => 0
  | n + 1 => lineAfter data n + entry data (5 * n)

/-- The column after the first tuples of data, added up without a bound; it starts anew with each
line. -/
def startAfter (data : List UInt32) : (tuples : Nat) → Nat
  | 0 => 0
  | n + 1 => (if entry data (5 * n) = 0 then startAfter data n else 0) + entry data (5 * n + 1)

/-- Whether the line or the column that a tuple leads to does not fit 32 bits. -/
def Overflows (data : List UInt32) (i : Nat) : Prop :=
  4294967296 ≤ lineAfter data (i + 1) ∨ 4294967296 ≤ startAfter data (i + 1)

instance (data : List UInt32) (i : Nat) : Decidable (Overflows data i) :=
  inferInstanceAs (Decidable (_ ∨ _))

/-- One step of the reader follows the sums. -/
theorem nextPlace_entry {data rest : List UInt32} {line start a b : UInt32} {i : Nat}
    (hdata : data.drop (5 * i) = a :: b :: rest) (hline : line.toNat = lineAfter data i)
    (hstart : start.toNat = startAfter data i) :
    (nextPlace line start a b = none ∧ Overflows data i) ∨
      ∃ line' start', nextPlace line start a b = some (line', start') ∧ ¬ Overflows data i ∧
        line'.toNat = lineAfter data (i + 1) ∧ start'.toNat = startAfter data (i + 1) := by
  have ha : entry data (5 * i) = a.toNat := by
    have hget := congrArg (·[0]?) hdata
    simp only [List.getElem?_drop, Nat.add_zero, List.getElem?_cons_zero] at hget
    rw [entry, hget, Option.getD_some]
  have hb : entry data (5 * i + 1) = b.toNat := by
    have hget := congrArg (·[1]?) hdata
    simp only [List.getElem?_drop, List.getElem?_cons_succ, List.getElem?_cons_zero] at hget
    rw [entry, hget, Option.getD_some]
  have hzero : a.toNat = 0 ↔ a = 0 := UInt32.toNat_inj (b := 0)
  have hsums : lineAfter data (i + 1) = line.toNat + a.toNat ∧
      startAfter data (i + 1) = (if a = 0 then start.toNat else 0) + b.toNat := by
    simp only [lineAfter, startAfter, ha, hb, hline, hstart, hzero, and_self]
  rw [Overflows, hsums.1, hsums.2]
  cases hplace : nextPlace line start a b with
  | none => exact .inl ⟨rfl, nextPlace_eq_none_iff.1 hplace⟩
  | some p =>
      obtain ⟨hline', hstart'⟩ := nextPlace_eq_some_iff.1 hplace
      refine .inr ⟨p.1, p.2, rfl, fun hover => ?_, hline', hstart'⟩
      rw [nextPlace_eq_none_iff.2 hover] at hplace
      cases hplace

/-- The reader goes on to the first tuple that overflows. -/
theorem decodeFrom_cases {data : List UInt32} {line start : UInt32} {i n : Nat}
    (hdata : data.length = 5 * (i + n)) (hline : line.toNat = lineAfter data i)
    (hstart : start.toNat = startAfter data i) :
    ((∀ j, i ≤ j → j < i + n → ¬ Overflows data j) ∧
      ∃ tokens, decodeFrom i line start (data.drop (5 * i)) = .ok tokens) ∨
    ∃ k, i ≤ k ∧ k < i + n ∧ Overflows data k ∧ (∀ j, i ≤ j → j < k → ¬ Overflows data j) ∧
      decodeFrom i line start (data.drop (5 * i)) = .error (.overflow k) := by
  induction n generalizing i line start with
  | zero =>
      refine .inl ⟨fun j hle hlt => by omega, [], ?_⟩
      rw [List.drop_eq_nil_of_le (by omega)]
      rfl
  | succ n ih =>
      have hlength : (data.drop (5 * i)).length = 5 * (n + 1) := by
        rw [List.length_drop]
        omega
      obtain ⟨a, b, c, d, e, rest, hdrop, -⟩ := exists_tuple hlength
      have hrest : rest = data.drop (5 * (i + 1)) := by
        have hnext := congrArg (List.drop 5) hdrop
        rw [List.drop_drop] at hnext
        exact hnext.symm
      rw [hdrop, decodeFrom_cons]
      rcases nextPlace_entry hdrop hline hstart with
        ⟨hplace, hover⟩ | ⟨line', start', hplace, hfits, hline', hstart'⟩
      · refine .inr ⟨i, by omega, by omega, hover, fun j hle hlt => by omega, ?_⟩
        rw [hplace]
      · rw [hplace, hrest]
        rcases ih (i := i + 1) (by omega) hline' hstart' with
          ⟨hnone, tokens, htokens⟩ | ⟨k, hle, hlt, hover, hfirst, herror⟩
        · refine .inl ⟨fun j hle hlt => ?_, _, by simp only [htokens]; rfl⟩
          rcases Nat.lt_or_eq_of_le hle with hlater | rfl
          · exact hnone j hlater (by omega)
          · exact hfits
        · refine .inr ⟨k, by omega, by omega, hover, fun j hle hlt => ?_,
            by simp only [herror]; rfl⟩
          rcases Nat.lt_or_eq_of_le hle with hlater | rfl
          · exact hfirst j hlater hlt
          · exact hfits

/-- Data is not made of tuples, or none of its tuples overflows, or there is a first one that
does. -/
theorem decode_cases (data : List UInt32) :
    (data.length % 5 ≠ 0 ∧ decode data = .error (.truncated data.length)) ∨
    (data.length % 5 = 0 ∧ (∀ i < data.length / 5, ¬ Overflows data i) ∧
      ∃ tokens, decode data = .ok tokens) ∨
    (data.length % 5 = 0 ∧ ∃ i < data.length / 5, Overflows data i ∧
      (∀ j < i, ¬ Overflows data j) ∧ decode data = .error (.overflow i)) := by
  by_cases hlength : data.length % 5 = 0
  · have hdecode : decode data = decodeFrom 0 0 0 (data.drop (5 * 0)) := by
      rw [decode, if_pos hlength]
      rfl
    rw [hdecode]
    refine .inr ?_
    rcases @decodeFrom_cases data 0 0 0 (data.length / 5) (by omega) rfl rfl with
      ⟨hnone, htokens⟩ | ⟨i, -, hlt, hover, hfirst, herror⟩
    · exact .inl ⟨hlength, fun i hi => hnone i (Nat.zero_le i) (by omega), htokens⟩
    · exact .inr ⟨hlength, i, by omega, hover, fun j hj => hfirst j (Nat.zero_le j) hj, herror⟩
  · exact .inl ⟨hlength, by rw [decode, if_neg hlength]⟩

theorem decode_eq_ok_iff (data : List UInt32) : (∃ tokens, decode data = .ok tokens) ↔
    data.length % 5 = 0 ∧ ∀ i < data.length / 5, ¬ Overflows data i := by
  rcases decode_cases data with
    ⟨hlength, herror⟩ | ⟨hlength, hfits, htokens⟩ | ⟨hlength, k, hk, hover, -, herror⟩
  · simp [herror, hlength]
  · exact iff_of_true htokens ⟨hlength, hfits⟩
  · refine iff_of_false (by simp [herror]) fun h => h.2 k hk hover

theorem decode_eq_truncated_iff (data : List UInt32) (n : Nat) :
    decode data = .error (.truncated n) ↔ data.length % 5 ≠ 0 ∧ n = data.length := by
  rcases decode_cases data with
    ⟨hlength, herror⟩ | ⟨hlength, -, tokens, htokens⟩ | ⟨hlength, k, -, -, -, herror⟩
  · simp [herror, hlength, eq_comm]
  · simp [htokens, hlength]
  · simp [herror, hlength]

theorem decode_eq_overflow_iff (data : List UInt32) (i : Nat) :
    decode data = .error (.overflow i) ↔ data.length % 5 = 0 ∧ i < data.length / 5 ∧
      Overflows data i ∧ ∀ j < i, ¬ Overflows data j := by
  rcases decode_cases data with
    ⟨hlength, herror⟩ | ⟨-, hfits, tokens, htokens⟩ | ⟨hlength, k, hk, hover, hfirst, herror⟩
  · simp [herror, hlength]
  · refine iff_of_false (by simp [htokens]) fun h => hfits i h.2.1 h.2.2.1
  · rw [herror]
    constructor
    · rintro ⟨⟩
      exact ⟨hlength, hk, hover, hfirst⟩
    · rintro ⟨-, -, hover', hfirst'⟩
      -- of two tuples that are each the first to overflow, neither comes before the other
      have hki : ¬ k < i := fun hlt => hfirst' k hlt hover
      have hik : ¬ i < k := fun hlt => hfirst i hlt hover'
      obtain rfl : k = i := by omega
      rfl

/-! ## The two stand for each other -/

/-- The data tells of each place which tokens start there and in which order, and nothing else. -/
theorem encode_eq_encode_iff {tokens tokens' : List SemanticToken} :
    encode tokens = encode tokens' ↔
      ∀ t, tokens.filter (samePlace t) = tokens'.filter (samePlace t) := by
  have hsort := isStableSort_sort tokens
  have hsort' := isStableSort_sort tokens'
  rw [← tied_le]
  constructor
  · intro h t
    have hsame : sort tokens = sort tokens' := by
      have hdecode := congrArg decode h
      rw [decode_encode_eq_sort, decode_encode_eq_sort] at hdecode
      exact Except.ok.inj hdecode
    rw [← hsort.filter_eq, ← hsort'.filter_eq, hsame]
  · intro h
    rw [encode, encode, hsort.eq_of_filter_eq le_refl hsort' h]

/-- Tokens at different places may come in any order. -/
theorem filter_samePlace_of_perm {tokens tokens' : List SemanticToken}
    (hperm : tokens.Perm tokens')
    (hdistinct : tokens.Pairwise fun a b => samePlace a b = false) (t : SemanticToken) :
    tokens.filter (samePlace t) = tokens'.filter (samePlace t) := by
  have hfilter := hperm.filter (samePlace t)
  have hfew := hdistinct.filter (samePlace t)
  match hhere : tokens.filter (samePlace t) with
  | [] => rw [hhere] at hfilter; exact hfilter.nil_eq
  | [a] => rw [hhere] at hfilter; exact List.singleton_perm.1 hfilter
  | a :: b :: rest =>
      have ha : a ∈ tokens.filter (samePlace t) := by simp [hhere]
      have hb : b ∈ tokens.filter (samePlace t) := by simp [hhere]
      have hta := (List.mem_filter.1 ha).2
      have htb := (List.mem_filter.1 hb).2
      rw [hhere] at hfew
      have hab := List.rel_of_pairwise_cons hfew List.mem_cons_self
      simp only [samePlace, Bool.and_eq_true, decide_eq_true_eq] at hta htb
      simp [samePlace, ← hta.1, ← hta.2, htb.1, htb.2] at hab

/-- **Tokens and their flat data stand for each other.** For all tokens, in any order: writing them
never subtracts the greater number from the smaller one, and reading gives them back in order, those
that start at one place in the order that they had. So it is only among tokens at one place that
their order counts. And for all data: it can be read just when it is made of whole tuples and no line
or column, added up from tuple to tuple, exceeds 32 bits. What is read is in order and is written as
it was; what is refused is refused for its length, or with the number of the first tuple that leads
too far. -/
theorem encode_decode_inverse :
    (∀ tokens, checkedEncode tokens = some (encode tokens) ∧
      decode (encode tokens) = .ok (sort tokens) ∧ IsStableSort le tokens (sort tokens)) ∧
    (∀ tokens tokens', encode tokens = encode tokens' ↔
      ∀ t, tokens.filter (samePlace t) = tokens'.filter (samePlace t)) ∧
    (∀ tokens tokens' : List SemanticToken, tokens.Perm tokens' →
      (tokens.Pairwise fun a b => samePlace a b = false) → encode tokens = encode tokens') ∧
    (∀ data, (∃ tokens, decode data = .ok tokens) ↔
      data.length % 5 = 0 ∧ ∀ i < data.length / 5, ¬ Overflows data i) ∧
    (∀ data tokens, decode data = .ok tokens →
      tokens.Pairwise (fun a b => a.le b = true) ∧ encode tokens = data) ∧
    (∀ data n, decode data = .error (.truncated n) ↔ data.length % 5 ≠ 0 ∧ n = data.length) ∧
    ∀ data i, decode data = .error (.overflow i) ↔ data.length % 5 = 0 ∧
      i < data.length / 5 ∧ Overflows data i ∧ ∀ j < i, ¬ Overflows data j := by
  refine ⟨fun tokens => ⟨?_, decode_encode_eq_sort tokens, isStableSort_sort tokens⟩,
    fun tokens tokens' => encode_eq_encode_iff,
    fun tokens tokens' hperm hdistinct =>
      encode_eq_encode_iff.2 (filter_samePlace_of_perm hperm hdistinct),
    decode_eq_ok_iff, fun data tokens => encode_of_decode, decode_eq_truncated_iff,
    decode_eq_overflow_iff⟩
  exact checkedEncodeFrom_eq (pairwise_origin (isStableSort_sort tokens).pairwise)

/-- Two tokens in either order have the same data, which is read as the tokens in order; and data
whose second tuple leads one line beyond the last is refused for that tuple. -/
theorem encode_decode_inverse_pair :
    let early : SemanticToken := ⟨0, 7, 1, 3, 0⟩
    let late : SemanticToken := ⟨1, 4, 2, 0, 1⟩
    let data : List UInt32 := [0, 7, 1, 3, 0, 1, 4, 2, 0, 1]
    let beyond : List UInt32 := [4294967295, 2, 1, 0, 0, 1, 0, 1, 0, 0]
    [late, early].Perm [early, late] ∧
    ([late, early].Pairwise fun a b => samePlace a b = false) ∧
    encode [late, early] = encode [early, late] ∧
    decode data = .ok [early, late] ∧ encode [early, late] = data ∧
    Overflows beyond 1 ∧ ¬ Overflows beyond 0 ∧ decode beyond = .error (.overflow 1) := by
  intro early late data beyond
  obtain ⟨-, -, hperm, -, hread, -, hoverflow⟩ := encode_decode_inverse
  have hswap : [late, early].Perm [early, late] := .swap early late []
  have hdistinct : [late, early].Pairwise fun a b => samePlace a b = false := by decide
  have hdecode : decode [0, 7, 1, 3, 0, 1, 4, 2, 0, 1]
      = .ok [⟨0, 7, 1, 3, 0⟩, ⟨1, 4, 2, 0, 1⟩] := rfl
  have hover : Overflows beyond 1 := by decide
  have hfits : ¬ Overflows beyond 0 := by decide
  refine ⟨hswap, hdistinct, hperm _ _ hswap hdistinct, hdecode, (hread data _ hdecode).2, hover,
    hfits, (hoverflow beyond 1).2 ⟨by decide, by decide, hover, fun j hj => ?_⟩⟩
  obtain rfl : j = 0 := by omega
  exact hfits

end LanguageServer.SemanticToken
