import LanguageServer.Proofs.Wire.Stable

set_option autoImplicit false

/-! # The forms that values are given in

`Codec.Reads c form` says exactly what a codec accepts: `j` is read as `a` if and only if `form j a`,
wherever it is read from. Forms are put together as codecs are. In an object, a field has the value
of the first member of its name, but no other member of that name may have a value that is not of
the form (`Gives`); a record of two fields may also be given as an array (`IsPair`). -/

namespace LanguageServer.Wire

open Json (lookup)

variable {α β γ : Type}

/-- What a codec accepts, and as which value. -/
def Codec.Reads (c : Codec α) (form : Json → α → Prop) : Prop :=
  ∀ src j a, c.read src j = .ok a ↔ form j a

/-- The members of an object give a value under a name. -/
structure Gives (form : Json → α → Prop) (name : String) (ms : List (String × Json)) (a : α) :
    Prop where
  first : ∃ j, lookup name ms = some j ∧ form j a
  all : ∀ j, (name, j) ∈ ms → ∃ b, form j b

/-- A record of two fields, as an object or as an array. -/
inductive IsPair (form : Json → α → Prop) (form' : Json → β → Prop) (name name' : String) :
    Json → α → β → Prop
  | members {ms : List (String × Json)} {a : α} {b : β} (left : Gives form name ms a)
      (right : Gives form' name' ms b) : IsPair form form' name name' (.obj ms) a b
  | items {i j : Json} {a : α} {b : β} (left : form i a) (right : form' j b) :
      IsPair form form' name name' (.arr [i, j]) a b

section

variable {form : Json → α → Prop} {form' : Json → β → Prop} {form'' : Json → γ → Prop}
  {related : γ → β → Prop}

theorem Gives.refine (hform : ∀ j b, form' j b ↔ ∃ c, form'' j c ∧ related c b)
    (htotal : ∀ j c, form'' j c → ∃ b, related c b) {name : String} {ms : List (String × Json)}
    {b : β} : Gives form' name ms b ↔ ∃ c, Gives form'' name ms c ∧ related c b := by
  constructor
  · rintro ⟨⟨j, hj, hb⟩, hall⟩
    obtain ⟨c, hc, hrelated⟩ := (hform j b).1 hb
    refine ⟨c, ⟨⟨j, hj, hc⟩, fun i hi => ?_⟩, hrelated⟩
    obtain ⟨b', hb'⟩ := hall i hi
    obtain ⟨c', hc', -⟩ := (hform i b').1 hb'
    exact ⟨c', hc'⟩
  · rintro ⟨c, ⟨⟨j, hj, hc⟩, hall⟩, hrelated⟩
    refine ⟨⟨j, hj, (hform j b).2 ⟨c, hc, hrelated⟩⟩, fun i hi => ?_⟩
    obtain ⟨c', hc'⟩ := hall i hi
    obtain ⟨b', hb'⟩ := htotal i c' hc'
    exact ⟨b', (hform i b').2 ⟨c', hc', hb'⟩⟩

/-- The second field may be told in two steps. -/
theorem IsPair.refine (hform : ∀ j b, form' j b ↔ ∃ c, form'' j c ∧ related c b)
    (htotal : ∀ j c, form'' j c → ∃ b, related c b) {name name' : String} {j : Json} {a : α}
    {b : β} : IsPair form form' name name' j a b ↔
      ∃ c, IsPair form form'' name name' j a c ∧ related c b := by
  constructor
  · rintro (⟨hleft, hright⟩ | ⟨hleft, hright⟩)
    · obtain ⟨c, hc, hrelated⟩ := (Gives.refine hform htotal).1 hright
      exact ⟨c, .members hleft hc, hrelated⟩
    · obtain ⟨c, hc, hrelated⟩ := (hform ..).1 hright
      exact ⟨c, .items hleft hc, hrelated⟩
  · rintro ⟨c, ⟨hleft, hc⟩ | ⟨hleft, hc⟩, hrelated⟩
    · exact .members hleft ((Gives.refine hform htotal).2 ⟨c, hc, hrelated⟩)
    · exact .items hleft ((hform ..).2 ⟨c, hc, hrelated⟩)

end

namespace Fields

variable {form : Json → α → Prop} {name : String} {c : Codec α} {src : Source}
  {ms : List (String × Json)}

theorem ofMembers_and_eq_ok_iff {f : Fields α} {g : Fields β} {a : α} {b : β} :
    (f.and g).ofMembers src ms = .ok (a, b) ↔
      f.ofMembers src ms = .ok a ∧ g.ofMembers src ms = .ok b := by
  simp only [ofMembers_eq_ok_iff, check_and_eq_ok_iff, build_and_eq_ok_iff, forall_and]
  simp only [Fields.and, seq_eq_ok_iff]
  constructor
  · rintro ⟨⟨hcheck, hcheck'⟩, ⟨hpresent, hpresent'⟩, hbuild, hbuild'⟩
    exact ⟨⟨hcheck, hpresent, hbuild⟩, hcheck', hpresent', hbuild'⟩
  · rintro ⟨⟨hcheck, hpresent, hbuild⟩, hcheck', hpresent', hbuild'⟩
    exact ⟨⟨hcheck, hcheck'⟩, ⟨hpresent, hpresent'⟩, hbuild, hbuild'⟩

theorem ofMembers_required_eq_ok_iff (h : c.Reads form) {a : α} :
    (required name c).ofMembers src ms = .ok a ↔ Gives form name ms a := by
  simp only [ofMembers_eq_ok_iff, check_required_eq_ok_iff, build_required_eq_ok_iff, h src]
  constructor
  · rintro ⟨hcheck, -, hfirst⟩
    exact ⟨hfirst, fun j hj => hcheck (name, j) hj rfl⟩
  · rintro ⟨⟨j, hj, ha⟩, hall⟩
    refine ⟨?_, by simp [required, hj], j, hj, ha⟩
    rintro ⟨key, i⟩ hi rfl
    exact hall i hi

theorem read_orNull_ok_iff (h : c.Reads form) {j : Json} :
    (∃ a, (orNull c).read src j = .ok a) ↔ j = .null ∨ ∃ a, form j a := by
  by_cases hj : j = .null
  · subst hj
    exact ⟨fun _ => .inl rfl, fun _ => ⟨none, rfl⟩⟩
  · rw [Codec.read_orNull_of_ne hj]
    simp only [map_eq_ok_iff, h src, hj, false_or]
    constructor
    · rintro ⟨_, a, ha, -⟩
      exact ⟨a, ha⟩
    · rintro ⟨a, ha⟩
      exact ⟨some a, a, ha, rfl⟩

/-- A field that may be left out can be read unless a member of its name has a wrong value. -/
theorem ofMembers_optional_ok_iff (h : c.Reads form) :
    (∃ a, (optional name c).ofMembers src ms = .ok a) ↔
      ∀ j, (name, j) ∈ ms → j = .null ∨ ∃ a, form j a := by
  have hcheck (key : String) (j : Json) : (optional name c).check src key j = .ok () ↔
      (key = name → j = .null ∨ ∃ a, form j a) := by
    rw [← read_orNull_ok_iff h]
    exact check_required_eq_ok_iff
  simp only [ofMembers_eq_ok_iff, hcheck]
  constructor
  · rintro ⟨a, hall, -⟩ j hj
    exact hall (name, j) hj rfl
  · intro hall
    obtain ⟨a, ha⟩ : ∃ a, (optional name c).build src ms = .ok a := by
      simp only [optional, nullable, defaulted]
      cases hj : lookup name ms with
      | none => exact ⟨none, rfl⟩
      | some j => exact (read_orNull_ok_iff h).2 (hall j (Json.mem_of_lookup hj))
    refine ⟨a, ?_, rfl, ha⟩
    rintro ⟨key, j⟩ hj rfl
    exact hall j hj

theorem ofMembers_map_eq_ok_iff {f : Fields α} {make : α → β} {back : β → α} {b : β} :
    (f.map make back).ofMembers src ms = .ok b ↔ ∃ a, f.ofMembers src ms = .ok a ∧ make a = b := by
  simp only [ofMembers_eq_ok_iff, Fields.map, map_eq_ok_iff]
  constructor
  · rintro ⟨hcheck, hpresent, a, hbuild, hmake⟩
    exact ⟨a, ⟨hcheck, hpresent, hbuild⟩, hmake⟩
  · rintro ⟨a, ⟨hcheck, hpresent, hbuild⟩, hmake⟩
    exact ⟨hcheck, hpresent, a, hbuild, hmake⟩

end Fields

namespace Codec

open Fields

theorem readItems_ok_iff {c : Codec α} {src : Source} {items : List Json} :
    (∃ as, c.readItems src items = .ok as) ↔ ∀ j ∈ items, ∃ a, c.read src j = .ok a := by
  induction items with
  | nil => simp [readItems]
  | cons j rest ih =>
      simp only [readItems, bind_eq_ok_iff, List.forall_mem_cons, ← ih]
      constructor
      · rintro ⟨_, a, ha, as, has, -⟩
        exact ⟨⟨a, ha⟩, as, has⟩
      · rintro ⟨⟨a, ha⟩, as, has⟩
        exact ⟨_, a, ha, as, has, rfl⟩

theorem reads_string : string.Reads fun j s => j = .str s := fun _ _ _ => read_string_eq_ok_iff

theorem reads_int32 : int32.Reads fun j n => j = .int n.toInt := fun _ _ _ => read_int32_eq_ok_iff

theorem reads_uint32 : uint32.Reads fun j n => j = .int n.toNat :=
  fun _ _ _ => read_uint32_eq_ok_iff

/-- A record of two fields that have to be there. -/
theorem Reads.pair {c : Codec α} {d : Codec β} {form : Json → α → Prop} {form' : Json → β → Prop}
    (hc : c.Reads form) (hd : d.Reads form') {make : α × β → γ} {back : γ → α × β}
    (hmake : ∀ x, make (back x) = x) (hback : ∀ p, back (make p) = p) {title name name' : String} :
    (record title (((required name c).and (required name' d)).map make back)).Reads
      fun j x => IsPair form form' name name' j (back x).1 (back x).2 := by
  intro src j x
  cases j with
  | obj ms =>
      refine Iff.trans ofMembers_map_eq_ok_iff ?_
      simp only [Prod.exists, ofMembers_and_eq_ok_iff, ofMembers_required_eq_ok_iff hc,
        ofMembers_required_eq_ok_iff hd]
      constructor
      · rintro ⟨a, b, ⟨ha, hb⟩, rfl⟩
        rw [hback]
        exact .members ha hb
      · rintro (⟨hleft, hright⟩ | -)
        exact ⟨_, _, ⟨hleft, hright⟩, hmake x⟩
  | arr items =>
      refine Iff.trans readArray_eq_ok_iff ?_
      simp only [Fields.map, bind_eq_ok_iff, Prod.exists, take_and_eq_ok_iff,
        take_required_eq_ok_iff, hc src, hd src, pure, Except.pure, Except.ok.injEq, Prod.mk.injEq]
      constructor
      · rintro ⟨a, b, _, ⟨_, ⟨i, rfl, ha⟩, j, rfl, hb⟩, rfl, rfl⟩
        rw [hback]
        exact .items ha hb
      · rintro (- | ⟨hleft, hright⟩)
        exact ⟨_, _, _, ⟨_, ⟨_, rfl, hleft⟩, _, rfl, hright⟩, hmake x, rfl⟩
  | _ =>
      constructor
      · intro hread
        cases hread
      · intro hpair
        cases hpair

end Codec

end LanguageServer.Wire
