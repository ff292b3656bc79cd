import LanguageServer.Proofs.Document.Clamping
import LanguageServer.Proofs.Token.Coding
import LanguageServer.Proofs.Token.ResultId
import LanguageServer.Server.Work

set_option autoImplicit false

/-! # The tokens of a range

A token of one line takes the cells from its start up to its end, and it is one of the tokens of a
range if the range holds one of these cells (`overlaps_iff_exists_cell`). What is asked of a token is
two comparisons of positions, its end with the start of the range and its start with the end
(`overlaps_iff`); on one line that is how intervals meet, and on several lines one of the two
comparisons is settled by the line.

Tokens are left out before they are put in order, but they could as well be left out afterwards,
since sorting is stable. So the answer to a request for a range is the answer to a request for the
whole document, less the tokens that do not meet the range. -/

namespace LanguageServer

/-- Whether a range holds a position: at or after its start, and before its end. -/
def Range.Holds (r : Range) (p : Position) : Prop := r.start.le p = true ∧ r.stop.le p = false

namespace Position

theorem le_eq_false_iff {p q : Position} : p.le q = false ↔ q.line.toNat < p.line.toNat ∨
    (p.line.toNat = q.line.toNat ∧ q.character.toNat < p.character.toNat) := by
  rw [← Bool.not_eq_true, le_iff]
  omega

theorem lt_of_le_of_ne {p q : Position} (h : p.le q = true) (hne : p ≠ q) : q.le p = false := by
  have hle := le_iff.1 h
  rw [le_eq_false_iff]
  have hchar : p.line.toNat = q.line.toNat → p.character.toNat ≠ q.character.toNat := by
    intro hline hcharacter
    apply hne
    cases p
    cases q
    rw [mk.injEq]
    exact ⟨UInt32.toNat_inj.1 hline, UInt32.toNat_inj.1 hcharacter⟩
  omega

end Position

namespace SemanticToken

/-! ## Which tokens meet a range -/

/-- Whether a token takes the cell at a position. -/
def Covers (t : SemanticToken) (p : Position) : Prop :=
  p.line = t.line ∧ t.start.toNat ≤ p.character.toNat ∧
    p.character.toNat < t.start.toNat + t.length.toNat

/-- Whether the columns of a token fit 32 bits, with the one after its end. -/
def Fits (t : SemanticToken) : Prop := t.start.toNat + t.length.toNat ≤ 4294967295

theorem Fits.stop_toNat {t : SemanticToken} (h : t.Fits) :
    t.stop.toNat = t.start.toNat + t.length.toNat := by
  have hlt : t.start.toNat + t.length.toNat < 4294967296 := Nat.lt_succ_of_le h
  rw [stop, if_pos hlt, UInt32.toNat_add, Nat.mod_eq_of_lt hlt]

/-- A token meets a range if it ends after the range starts and starts before the range ends. -/
theorem overlaps_iff {r : Range} {t : SemanticToken} :
    overlaps r t = true ↔
      Position.le ⟨t.line, t.stop⟩ r.start = false ∧ r.stop.le ⟨t.line, t.start⟩ = false := by
  simp only [overlaps, Bool.and_eq_true, Bool.or_eq_true, decide_eq_true_eq, gt_iff_lt,
    UInt32.lt_iff_toNat_lt, ← UInt32.toNat_inj, Position.le_eq_false_iff]
  omega

variable {r : Range} {t : SemanticToken}

/-- **A token meets a range if the range holds one of its cells.** -/
theorem overlaps_iff_exists_cell (horder : r.start.le r.stop = true) (hrange : r.start ≠ r.stop)
    (hlength : 1 ≤ t.length.toNat) (hfits : t.Fits) :
    overlaps r t = true ↔ ∃ p, t.Covers p ∧ r.Holds p := by
  have hstop := hfits.stop_toNat
  have hends := Position.le_eq_false_iff.1 (Position.lt_of_le_of_ne horder hrange)
  rw [overlaps_iff, Position.le_eq_false_iff, Position.le_eq_false_iff]
  dsimp only
  constructor
  · rintro ⟨hafter, hbefore⟩
    -- The cell is the first of the token, or the first of the range if the token starts before it.
    by_cases hfirst : r.start.le ⟨t.line, t.start⟩ = true
    · refine ⟨⟨t.line, t.start⟩, ⟨rfl, Nat.le_refl _, ?_⟩, hfirst, ?_⟩
      · dsimp only
        omega
      · rw [Position.le_eq_false_iff]
        exact hbefore
    · have hearlier := Position.le_eq_false_iff.1 (Bool.eq_false_iff.2 hfirst)
      dsimp only at hearlier
      refine ⟨r.start, ⟨UInt32.toNat_inj.1 ?_, ?_, ?_⟩, Position.le_iff.2 ?_,
        Position.le_eq_false_iff.2 hends⟩
      all_goals omega
  · rintro ⟨p, ⟨hline, hstart, hend⟩, hlow, hhigh⟩
    have hlow := Position.le_iff.1 hlow
    have hhigh := Position.le_eq_false_iff.1 hhigh
    rw [hline] at hlow hhigh
    constructor
    · omega
    · omega

/-- Whether a token lies in a range: the range holds all of its cells, and a token that has none
stands between the ends of the range. -/
def LiesIn (t : SemanticToken) (r : Range) : Prop :=
  (∀ p, t.Covers p → r.Holds p) ∧
    (t.length = 0 → Position.le ⟨t.line, t.start⟩ r.start = false ∧
      r.stop.le ⟨t.line, t.start⟩ = false)

/-- A token lies in a range that starts no later and ends no earlier than it. -/
theorem liesIn_of_between (hfits : t.Fits) (hlength : t.length ≠ 0)
    (hstart : r.start.le ⟨t.line, t.start⟩ = true)
    (hstop : Position.le ⟨t.line, t.stop⟩ r.stop = true) : t.LiesIn r := by
  rw [Position.le_iff] at hstart hstop
  dsimp only at hstart hstop
  rw [hfits.stop_toNat] at hstop
  refine ⟨fun p ⟨hline, hlow, hhigh⟩ => ?_, fun hzero => absurd hzero hlength⟩
  rw [Range.Holds, Position.le_iff, Position.le_eq_false_iff, hline]
  omega

theorem overlaps_of_liesIn (hfits : t.Fits) (h : t.LiesIn r) : overlaps r t = true := by
  have hstop := hfits.stop_toNat
  rw [overlaps_iff]
  by_cases hlength : t.length = 0
  · have hsame : t.stop = t.start := by
      rw [← UInt32.toNat_inj, hstop, hlength]
      rfl
    rw [hsame]
    exact h.2 hlength
  · have hpos : t.length.toNat ≠ 0 := fun hzero => hlength (UInt32.toNat_inj.1 hzero)
    obtain ⟨hlow, hhigh⟩ := h.1 ⟨t.line, t.start⟩ ⟨rfl, Nat.le_refl _, by dsimp only; omega⟩
    have hlow := Position.le_iff.1 hlow
    refine ⟨Position.le_eq_false_iff.2 ?_, hhigh⟩
    dsimp only at hlow ⊢
    omega

/-! ## Leaving out and sorting -/

theorem sort_inRange (tokens : List SemanticToken) (r : Range) :
    sort (inRange tokens r) = inRange (sort tokens) r :=
  (isStableSort_sort _).eq_of_filter_eq le_refl ((isStableSort_sort tokens).filter _) fun _ => rfl

theorem decode_encode_inRange (tokens : List SemanticToken) (r : Range) :
    decode (encode (inRange tokens r)) = .ok (inRange (sort tokens) r) := by
  rw [decode_encode_eq_sort, sort_inRange]

theorem mem_inRange_iff_exists_cell {tokens : List SemanticToken}
    (hrange : r.normalized.start ≠ r.normalized.stop) (hlength : 1 ≤ t.length.toNat)
    (hfits : t.Fits) :
    t ∈ inRange tokens r ↔ t ∈ tokens ∧ ∃ p, t.Covers p ∧ r.normalized.Holds p := by
  rw [inRange, List.mem_filter, overlaps_iff_exists_cell r.normalized_le hrange hlength hfits]

theorem count_inRange {tokens : List SemanticToken} (h : t ∈ inRange tokens r) :
    (inRange tokens r).count t = tokens.count t :=
  List.count_filter (List.mem_filter.1 h).2

theorem inRange_eq_self {tokens : List SemanticToken}
    (h : ∀ t ∈ tokens, t.Fits ∧ t.LiesIn r.normalized) : inRange tokens r = tokens :=
  List.filter_eq_self.2 fun t ht => overlaps_of_liesIn (h t ht).1 (h t ht).2

end SemanticToken

/-! ## The answers to requests -/

/-- How far a handler has come after some turns, each told by how the connection was. -/
def Activity.after : List Connection → Activity → Activity
  | [], a => a
  | c :: turns, a => after turns (a.forward c).1

/-- Data is answered as it is, under some id. -/
theorem TokenCache.full_answers (cache : TokenCache) (uri : String) (data : List UInt32) :
    ∃ id, (cache.full uri data).1 = ⟨some id, data⟩ := by
  rcases cache.full_cases uri data with ⟨id, -, hfull⟩ | hfull
  · exact ⟨id, by rw [hfull]⟩
  · exact ⟨_, by rw [hfull]⟩

namespace TokenProvider

variable (provider : TokenProvider) (cx : RequestContext) {params : Json} {d : TextDocument}
  {c : Connection}

/-- A handler asked for a range of an open document has its answer at its second turn. -/
theorem range_after {p : TokensRangeParams}
    (hparams : TokensRangeParams.codec.parseParams params = .ok p)
    (hopen : c.documents.get? p.textDocument.uri = some d) (turn : Connection) :
    (Activity.running (provider.range params cx)).after [c, turn] =
      .ended (some (.result (SemanticTokens.codec.write ⟨none, SemanticToken.encode
        (SemanticToken.inRange (provider d cx.negotiated.positionEncoding) p.range)⟩))) := by
  unfold TokenProvider.range
  rw [hparams]
  simp only [Activity.after, Activity.forward, Connection.perform, hopen]

/-- A handler asked for a whole document that is open has its answer at its third turn. -/
theorem full_after {p : TokensParams} (hparams : TokensParams.codec.parseParams params = .ok p)
    (hopen : c.documents.get? p.textDocument.uri = some d) (turn last : Connection) :
    ∃ id, (Activity.running (provider.full params cx)).after [c, turn, last] =
      .ended (some (.result (SemanticTokens.codec.write ⟨some id, SemanticToken.encode
        (provider d cx.negotiated.positionEncoding)⟩))) := by
  obtain ⟨id, hid⟩ := turn.cache.full_answers p.textDocument.uri
    (SemanticToken.encode (provider d cx.negotiated.positionEncoding))
  refine ⟨id, ?_⟩
  unfold TokenProvider.full
  rw [hparams]
  simp only [compute, Activity.after, Activity.forward, Connection.perform, hopen, hid]

end TokenProvider

namespace SemanticToken

/-- **The tokens of a range are those of the document that meet it.** For any tokens and any range,
in order or not: what is read from the data of the tokens of the range is what meets the range of
what is read from the data of all tokens. If the range is not empty, a token that has cells, all
within 32 bits, is kept exactly if the range holds one of them. The kept tokens stay in their order,
each as many times as before. If all tokens lie in the range, the data is that of all tokens. And
such are the answers to the client, whatever happens between the turns of their handlers. -/
theorem inRange_filters_tokens :
    (∀ (tokens : List SemanticToken) (r : Range), ∃ sorted, decode (encode tokens) = .ok sorted ∧
      decode (encode (inRange tokens r)) = .ok (inRange sorted r)) ∧
    (∀ (tokens : List SemanticToken) (r : Range) (t : SemanticToken),
      r.normalized.start ≠ r.normalized.stop → 1 ≤ t.length.toNat → t.Fits →
      (t ∈ inRange tokens r ↔ t ∈ tokens ∧ ∃ p, t.Covers p ∧ r.normalized.Holds p)) ∧
    (∀ (tokens : List SemanticToken) (r : Range), (inRange tokens r).Sublist tokens ∧
      ∀ t ∈ inRange tokens r, (inRange tokens r).count t = tokens.count t) ∧
    (∀ (tokens : List SemanticToken) (r : Range),
      (∀ t ∈ tokens, t.Fits ∧ t.LiesIn r.normalized) →
      encode (inRange tokens r) = encode tokens) ∧
    ∀ (provider : TokenProvider) (cx : RequestContext) (params params' : Json)
      (p : TokensRangeParams) (p' : TokensParams) (d : TextDocument)
      (c c' turn turn' last : Connection),
      TokensRangeParams.codec.parseParams params = .ok p →
      TokensParams.codec.parseParams params' = .ok p' →
      c.documents.get? p.textDocument.uri = some d →
      c'.documents.get? p'.textDocument.uri = some d →
      ∃ part whole id,
        (Activity.running (provider.range params cx)).after [c, turn] =
          .ended (some (.result (SemanticTokens.codec.write ⟨none, part⟩))) ∧
        (Activity.running (provider.full params' cx)).after [c', turn', last] =
          .ended (some (.result (SemanticTokens.codec.write ⟨some id, whole⟩))) ∧
        decode part = (decode whole).map (inRange · p.range) ∧
        ((∀ t ∈ provider d cx.negotiated.positionEncoding,
          t.Fits ∧ t.LiesIn p.range.normalized) → part = whole) := by
  refine ⟨fun tokens r => ⟨sort tokens, decode_encode_eq_sort tokens,
      decode_encode_inRange tokens r⟩,
    fun tokens r t => mem_inRange_iff_exists_cell,
    fun tokens r => ⟨List.filter_sublist, fun t => count_inRange⟩,
    fun tokens r h => by rw [inRange_eq_self h], ?_⟩
  intro provider cx params params' p p' d c c' turn turn' last hparams hparams' hopen hopen'
  obtain ⟨id, hwhole⟩ := provider.full_after cx hparams' hopen' turn' last
  refine ⟨_, _, id, provider.range_after cx hparams hopen turn, hwhole, ?_, fun h => ?_⟩
  · rw [decode_encode_inRange, decode_encode_eq_sort]
    rfl
  · rw [inRange_eq_self h]

/-- Two tokens on two lines, out of order. A range given from its end to its start holds the first
two cells of the later token and no cell of the other; another one holds both tokens. -/
theorem inRange_filters_two_tokens :
    let early : SemanticToken := ⟨0, 2, 1, 1, 0⟩
    let late : SemanticToken := ⟨1, 4, 3, 0, 0⟩
    let part : Range := ⟨⟨1, 6⟩, ⟨0, 3⟩⟩
    let all : Range := ⟨⟨1, 7⟩, ⟨0, 2⟩⟩
    let provider : TokenProvider := fun _ _ => [late, early]
    let cx : RequestContext := ⟨.number 1, 0, .nothing⟩
    let place (line character : Int) : Json :=
      .obj [("line", .int line), ("character", .int character)]
    let whole : Json := .obj [("textDocument", .obj [("uri", .str "a")])]
    let ranged : Json := .obj [("textDocument", .obj [("uri", .str "a")]),
      ("range", .obj [("start", place 1 7), ("end", place 0 2)])]
    let c : Connection :=
      { Connection.fresh with documents := ⟨[("a", ⟨"a", "plain", 1, ""⟩)]⟩, spawned := 1 }
    part.normalized.start ≠ part.normalized.stop ∧ late.Fits ∧
    late.Covers ⟨1, 4⟩ ∧ part.normalized.Holds ⟨1, 4⟩ ∧ inRange [late, early] part = [late] ∧
    late ∈ inRange [late, early] part ∧
    (∀ t ∈ [late, early], t.Fits ∧ t.LiesIn all.normalized) ∧
    encode (inRange [late, early] all) = encode [late, early] ∧
    ∃ data id, (Activity.running (provider.range ranged cx)).after [c, .fresh] =
        .ended (some (.result (SemanticTokens.codec.write ⟨none, data⟩))) ∧
      (Activity.running (provider.full whole cx)).after [c, c.fire 0, .fresh] =
        .ended (some (.result (SemanticTokens.codec.write ⟨some id, data⟩))) := by
  intro early late part all provider cx place whole ranged c
  obtain ⟨-, hkept, -, hall, hanswers⟩ := inRange_filters_tokens
  have hrange : part.normalized.start ≠ part.normalized.stop := by decide
  have hfits : late.Fits := by unfold Fits; decide
  have hcovers : late.Covers ⟨1, 4⟩ := by unfold Covers; decide
  have hholds : part.normalized.Holds ⟨1, 4⟩ := by unfold Range.Holds; decide
  have hlies : ∀ t ∈ [late, early], t.Fits ∧ t.LiesIn all.normalized := by
    have hfits' : early.Fits := by unfold Fits; decide
    refine List.forall_mem_cons.2 ⟨⟨hfits, ?_⟩, List.forall_mem_singleton.2 ⟨hfits', ?_⟩⟩
    · exact liesIn_of_between hfits (by decide) (by decide) (by decide)
    · exact liesIn_of_between hfits' (by decide) (by decide) (by decide)
  obtain ⟨data, data', id, hpart, hwhole, -, hsame⟩ := hanswers provider cx ranged whole
    ⟨⟨none⟩, ⟨none⟩, ⟨"a"⟩, all⟩ ⟨⟨none⟩, ⟨none⟩, ⟨"a"⟩⟩ ⟨"a", "plain", 1, ""⟩ c c .fresh
    (c.fire 0) .fresh (by rfl) (by rfl) (by decide) (by decide)
  refine ⟨hrange, hfits, hcovers, hholds, by decide,
    (hkept [late, early] part late hrange (by decide) hfits).2
      ⟨List.mem_cons_self, _, hcovers, hholds⟩,
    hlies, hall _ all hlies, data, id, hpart, ?_⟩
  rw [hsame hlies]
  exact hwhole

end SemanticToken

end LanguageServer
