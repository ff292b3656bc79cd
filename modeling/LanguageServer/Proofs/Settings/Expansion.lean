import LanguageServer.Proofs.Text.Bytes
import LanguageServer.Settings.Expansion

set_option autoImplicit false

/-! # References are replaced in one pass

Every text comes apart in one way into plain text and references to variables (`Split`), where plain
text never holds the opening of a reference and a name never holds the brace that closes one. To
expand the text is to put a value in the place of each reference and to leave the rest alone, so
values are not looked at again.

The expansion walks over plain text as it is, unless the text ends in the first half of an opening
and the other half follows (`expandFrom_append_of_plain`). With that, and with what it does behind an
opening, the expansion of a split is an induction on the split. That there is just one split does not
need the expansion: the first opening of a text is where its first reference begins, and the first
closing brace behind it is where the reference ends. -/

namespace LanguageServer.Settings

/-- What a reference begins with. -/
def opening : List Char := ['$', '\x7b']

/-- The value of a variable; the empty name has none, and neither has a name that is not set. -/
def Environment.valueOf (env : Environment) : (name : List Char) → List Char
  | [] => []
  | name => (env (String.ofList name)).elim [] String.toList

/-- A text taken apart. -/
inductive Split where
  /-- Plain text, with nothing behind it. -/
  | plain (text : List Char)
  /-- Plain text, and a reference that is not closed. -/
  | unclosed (before name : List Char)
  /-- Plain text, a reference, and what follows. -/
  | reference (before name : List Char) (rest : Split)

namespace Split

/-- The text that was taken apart. -/
def text : Split → List Char
  | .plain text => text
  | .unclosed before name => before ++ (opening ++ name)
  | .reference before name rest => before ++ (opening ++ (name ++ '\x7d' :: rest.text))

/-- The text with a value in the place of each reference. -/
def expansion (env : Environment) : Split → List Char
  | .plain text => text
  | .unclosed before name => before ++ (opening ++ name)
  | .reference before name rest => before ++ (env.valueOf name ++ rest.expansion env)

/-- Whether plain text holds no opening, and no name holds what closes a reference. -/
def IsProper : Split → Prop
  | .plain text => ¬ opening <:+: text
  | .unclosed before name => ¬ opening <:+: before ∧ '\x7d' ∉ name
  | .reference before name rest => ¬ opening <:+: before ∧ '\x7d' ∉ name ∧ rest.IsProper

/-- Whether every reference is closed. -/
def IsClosed : Split → Prop
  | .plain _ => True
  | .unclosed .. => False
  | .reference _ _ rest => rest.IsClosed

/-- How many references are closed. -/
def closed : Split → Nat
  | .plain _ | .unclosed .. => 0
  | .reference _ _ rest => rest.closed + 1

end Split

/-! ## Walking over a text -/

/-- Whether the first half of an opening ends one text and the other half begins the next. -/
def Straddles (a b : List Char) : Prop := a.getLast? = some '$' ∧ b.head? = some '\x7b'

theorem not_straddles_opening (a b : List Char) : ¬ Straddles a (opening ++ b) := by
  simp [Straddles, opening]

theorem not_straddles_nil (a : List Char) : ¬ Straddles a [] := by
  simp [Straddles]

theorem not_straddles_append {a b c : List Char} (h : ¬ Straddles (a ++ b) c) : ¬ Straddles b c := by
  rintro ⟨hlast, hhead⟩
  exact h ⟨by rw [List.getLast?_append, hlast, Option.some_or], hhead⟩

section Walk

variable (env : Environment)

theorem resolve_eq_valueOf (name : List Char) : resolve env name = env.valueOf name := by
  cases name with
  | nil => rfl
  | cons c name =>
      rw [resolve, if_neg (by simp), Environment.valueOf]
      · cases env (String.ofList (c :: name)) with
        | none => rfl
        | some value => rfl
      · simp

theorem expandFrom_cons {c : Char} {rest : List Char} (h : ¬ Straddles [c] rest) :
    expandFrom env none (c :: rest) = c :: expandFrom env none rest := by
  rw [expandFrom]
  rintro rest' rfl rfl
  exact h ⟨rfl, rfl⟩

/-- Plain text stays as it is. -/
theorem expandFrom_append_of_plain {before rest : List Char} (hplain : ¬ opening <:+: before)
    (hends : ¬ Straddles before rest) :
    expandFrom env none (before ++ rest) = before ++ expandFrom env none rest := by
  induction before with
  | nil => rfl
  | cons c before ih =>
      rw [List.infix_cons_iff, not_or] at hplain
      have hcons : ¬ Straddles [c] (before ++ rest) := by
        -- the character after `c` is the next one of the plain text, or the first one behind it
        cases before with
        | nil => exact hends
        | cons d before =>
            rintro ⟨hc, hd⟩
            obtain rfl : c = '$' := Option.some.inj hc
            obtain rfl : d = '\x7b' := Option.some.inj hd
            exact hplain.1 ⟨before, rfl⟩
      rw [List.cons_append, expandFrom_cons env hcons,
        ih hplain.2 (not_straddles_append (a := [c]) hends)]
      rfl

/-- A reference is replaced once it is closed. -/
theorem expandFrom_closed {name : List Char} (hname : '\x7d' ∉ name) (inside rest : List Char) :
    expandFrom env (some inside) (name ++ '\x7d' :: rest)
      = env.valueOf (inside.reverse ++ name) ++ expandFrom env none rest := by
  induction name generalizing inside with
  | nil => rw [List.nil_append, expandFrom, if_pos rfl, resolve_eq_valueOf, List.append_nil]
  | cons c name ih =>
      have hc : c ≠ '\x7d' := fun h => hname (h ▸ List.mem_cons_self)
      rw [List.cons_append, expandFrom, if_neg hc, ih fun h => hname (List.mem_cons_of_mem _ h),
        List.reverse_cons, List.append_assoc]
      rfl

/-- A reference that is not closed stays as it is. -/
theorem expandFrom_unclosed {name : List Char} (hname : '\x7d' ∉ name) (inside : List Char) :
    expandFrom env (some inside) name = opening ++ (inside.reverse ++ name) := by
  induction name generalizing inside with
  | nil =>
      rw [expandFrom, List.append_nil]
      rfl
  | cons c name ih =>
      have hc : c ≠ '\x7d' := fun h => hname (h ▸ List.mem_cons_self)
      rw [expandFrom, if_neg hc, ih fun h => hname (List.mem_cons_of_mem _ h), List.reverse_cons,
        List.append_assoc]
      rfl

theorem expandFrom_opening {before : List Char} (hplain : ¬ opening <:+: before)
    (rest : List Char) :
    expandFrom env none (before ++ (opening ++ rest))
      = before ++ expandFrom env (some []) rest := by
  rw [expandFrom_append_of_plain env hplain (not_straddles_opening before rest)]
  rfl

/-- What follows a text without an unclosed reference is expanded by itself. -/
theorem expandFrom_text_append {split : Split} (hproper : split.IsProper) (hclosed : split.IsClosed)
    {rest : List Char} (hends : ¬ Straddles split.text rest) :
    expandFrom env none (split.text ++ rest)
      = split.expansion env ++ expandFrom env none rest := by
  induction split with
  | plain text => exact expandFrom_append_of_plain env hproper hends
  | unclosed before name => exact hclosed.elim
  | reference before name later ih =>
      obtain ⟨hplain, hname, hlater⟩ := hproper
      have hends' : ¬ Straddles later.text rest := by
        refine not_straddles_append (a := before ++ (opening ++ (name ++ ['\x7d']))) ?_
        simpa [Split.text] using hends
      simp only [Split.text, Split.expansion, List.append_assoc, List.cons_append]
      rw [expandFrom_opening env hplain, expandFrom_closed env hname,
        ih hlater hclosed hends']
      rfl

theorem expandFrom_text {split : Split} (hproper : split.IsProper) :
    expandFrom env none split.text = split.expansion env := by
  induction split with
  | plain text =>
      have hwalk := expandFrom_append_of_plain env hproper (not_straddles_nil text)
      rwa [List.append_nil, expandFrom, List.append_nil] at hwalk
  | unclosed before name =>
      rw [Split.text, expandFrom_opening env hproper.1, expandFrom_unclosed env hproper.2]
      rfl
  | reference before name rest ih =>
      obtain ⟨hplain, hname, hrest⟩ := hproper
      rw [Split.text, expandFrom_opening env hplain, expandFrom_closed env hname, ih hrest]
      rfl

end Walk

/-! ## Each text comes apart in one way -/

/-- A text that holds an opening holds a first one. -/
theorem exists_first_opening {cs : List Char} (h : opening <:+: cs) :
    ∃ before after, cs = before ++ (opening ++ after) ∧ ¬ opening <:+: before := by
  induction cs with
  | nil => exact absurd (List.infix_nil.1 h) (by decide)
  | cons c cs ih =>
      by_cases hhere : opening <+: c :: cs
      · obtain ⟨after, hafter⟩ := hhere
        exact ⟨[], after, hafter.symm, by decide⟩
      · obtain ⟨before, after, rfl, hbefore⟩ := ih ((List.infix_cons_iff.1 h).resolve_left hhere)
        refine ⟨c :: before, after, rfl, fun hinfix => ?_⟩
        rcases List.infix_cons_iff.1 hinfix with hfirst | hlater
        · exact hhere (hfirst.trans (List.prefix_append (c :: before) _))
        · exact hbefore hlater

theorem exists_split (cs : List Char) : ∃ split : Split, split.IsProper ∧ split.text = cs := by
  induction hsize : cs.length using Nat.strongRecOn generalizing cs with
  | ind size ih =>
      by_cases hopen : opening <:+: cs
      · obtain ⟨before, after, rfl, hbefore⟩ := exists_first_opening hopen
        by_cases hclose : '\x7d' ∈ after
        · obtain ⟨name, rest, rfl, hname⟩ := List.eq_append_cons_of_mem hclose
          have hshorter : rest.length < size := by
            simp only [List.length_append, List.length_cons] at hsize
            omega
          obtain ⟨split, hproper, rfl⟩ := ih rest.length hshorter rest rfl
          exact ⟨.reference before name split, ⟨hbefore, hname, hproper⟩, rfl⟩
        · exact ⟨.unclosed before after, ⟨hbefore, hclose⟩, rfl⟩
      · exact ⟨.plain cs, hopen, rfl⟩

/-- A text in front of an opening goes no further than one that holds no opening. -/
theorem eq_append_of_opening {before between x y : List Char}
    (hplain : ¬ opening <:+: before ++ between) (h : opening ++ x = between ++ (opening ++ y)) :
    between = [] := by
  match between, h with
  | [], _ => rfl
  | [c], h =>
      -- the second half of the opening would be the first half of the other
      have hsecond := congrArg (·[1]?) h
      simp [opening] at hsecond
  | c :: d :: between, h =>
      have hc := congrArg (·[0]?) h
      have hd := congrArg (·[1]?) h
      simp only [opening, List.cons_append, List.getElem?_cons_zero, List.getElem?_cons_succ,
        Option.some.injEq] at hc hd
      subst hc hd
      exact absurd ⟨before, between, by simp [opening]⟩ hplain

theorem first_opening_unique {before before' x x' : List Char} (h : ¬ opening <:+: before)
    (h' : ¬ opening <:+: before') (heq : before ++ (opening ++ x) = before' ++ (opening ++ x')) :
    before = before' ∧ x = x' := by
  have hbefore : before = before' := by
    rcases List.append_eq_append_iff.1 heq with ⟨between, rfl, hrest⟩ | ⟨between, rfl, hrest⟩
    · rw [eq_append_of_opening h' hrest, List.append_nil]
    · rw [eq_append_of_opening h hrest, List.append_nil]
  subst hbefore
  exact ⟨rfl, List.append_cancel_left (List.append_cancel_left heq)⟩

theorem ne_of_not_opening {text : List Char} (h : ¬ opening <:+: text) (before x : List Char) :
    text ≠ before ++ (opening ++ x) := by
  rintro rfl
  exact h ⟨before, x, List.append_assoc _ _ _⟩

theorem Split.eq_of_text_eq {split split' : Split} (hproper : split.IsProper)
    (hproper' : split'.IsProper) (htext : split.text = split'.text) : split = split' := by
  induction split generalizing split' with
  | plain text =>
      cases split' with
      | plain text' => rw [show text = text' from htext]
      | unclosed before' name' => exact absurd htext (ne_of_not_opening hproper _ _)
      | reference before' name' rest' => exact absurd htext (ne_of_not_opening hproper _ _)
  | unclosed before name =>
      cases split' with
      | plain text' => exact absurd htext.symm (ne_of_not_opening hproper' _ _)
      | unclosed before' name' =>
          obtain ⟨rfl, rfl⟩ := first_opening_unique hproper.1 hproper'.1 htext
          rfl
      | reference before' name' rest' =>
          obtain ⟨-, rfl⟩ := first_opening_unique hproper.1 hproper'.1 htext
          exact absurd (List.mem_append_right name' List.mem_cons_self) hproper.2
  | reference before name rest ih =>
      obtain ⟨hplain, hname, hrest⟩ := hproper
      cases split' with
      | plain text' => exact absurd htext.symm (ne_of_not_opening hproper' _ _)
      | unclosed before' name' =>
          obtain ⟨-, rfl⟩ := first_opening_unique hplain hproper'.1 htext
          exact absurd (List.mem_append_right name List.mem_cons_self) hproper'.2
      | reference before' name' rest' =>
          obtain ⟨hplain', hname', hrest'⟩ := hproper'
          obtain ⟨rfl, hafter⟩ := first_opening_unique hplain hplain' htext
          obtain ⟨rfl, hlater⟩ := Text.append_cons_unique hname hname' hafter
          rw [ih hrest hrest' hlater]

/-- A closed reference takes at least three characters. -/
theorem Split.closed_le (split : Split) : 3 * split.closed ≤ split.text.length := by
  induction split with
  | plain text => simp [closed]
  | unclosed before name => simp [closed]
  | reference before name rest ih =>
      simp only [closed, text, opening, List.length_append, List.length_cons, List.length_nil]
      omega

/-! ## The whole expansion -/

/-- **References are replaced in one pass from left to right.** Whatever the values of variables:
every text comes apart into plain text and references in exactly one way, in which plain text holds
no opening, names hold no closing brace, and only the last reference may be unclosed. Its expansion
has the value of a name in the place of each closed reference, nothing for the empty name and for
names that are not set, and is the same text everywhere else. There are at most a third as many
references as characters. So if no reference of a text is left open, and the text and the one that
follows it do not make up an opening between them, the two are expanded each by itself. -/
theorem expand_replaces_references (env : Environment) :
    (∀ s : String, ∃ split : Split, split.IsProper ∧ split.text = s.toList ∧
      (∀ split' : Split, split'.IsProper → split'.text = s.toList → split' = split) ∧
      (expand env s).toList = split.expansion env ∧ 3 * split.closed ≤ s.toList.length) ∧
    ∀ (a b : String) (split : Split), split.IsProper → split.text = a.toList → split.IsClosed →
      ¬ (a.toList.getLast? = some '$' ∧ b.toList.head? = some '\x7b') →
      expand env (a ++ b) = expand env a ++ expand env b := by
  refine ⟨fun s => ?_, fun a b split hproper htext hclosed hends => ?_⟩
  · obtain ⟨split, hproper, htext⟩ := exists_split s.toList
    refine ⟨split, hproper, htext, fun split' hproper' htext' => ?_, ?_, ?_⟩
    · exact Split.eq_of_text_eq hproper' hproper (htext'.trans htext.symm)
    · rw [expand, String.toList_ofList, ← htext, expandFrom_text env hproper]
    · rw [← htext]
      exact split.closed_le
  · rw [← htext] at hends
    rw [expand, expand, expand, String.toList_append, ← htext,
      expandFrom_text_append env hproper hclosed hends, String.ofList_append,
      expandFrom_text env hproper]

/-- A dollar sign in front of a reference, a value that looks like a reference, a name that is not
set and holds an opening, and then a reference that is never closed. -/
theorem expand_replaces_nested_references :
    let env : Environment := fun name =>
      if name = "A" then some "$\x7bB\x7d" else if name = "B" then some "é" else none
    let a := "$$\x7bA\x7d/$\x7bx$\x7b\x7d"
    let b := "$\x7bB\x7d$\x7b\x7d$$\x7bA"
    let split : Split := .reference ['$'] ['A'] (.reference ['/'] ['x', '$', '\x7b'] (.plain []))
    split.IsProper ∧ split.text = a.toList ∧ split.IsClosed ∧
    ¬ (a.toList.getLast? = some '$' ∧ b.toList.head? = some '\x7b') ∧
    expand env (a ++ b) = expand env a ++ expand env b ∧
    expand env (a ++ b) = "$$\x7bB\x7d/é$$\x7bA" := by
  intro env a b split
  have hplain : (Split.plain []).IsProper := show ¬ opening <:+: [] by decide
  have hproper : split.IsProper := ⟨by decide, by decide, by decide, by decide, hplain⟩
  have htext : split.text = a.toList := by decide
  have hends : ¬ (a.toList.getLast? = some '$' ∧ b.toList.head? = some '\x7b') := by decide
  have happend := (expand_replaces_references env).2 a b split hproper htext trivial hends
  exact ⟨hproper, htext, trivial, hends, happend, by decide⟩

end LanguageServer.Settings
