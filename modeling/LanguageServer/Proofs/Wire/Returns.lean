import LanguageServer.Wire.Record

set_option autoImplicit false

/-! # What is written can be read again

`Codec.Returns c a b` says that writing `a` and reading the result gives `b`; mostly `b` is `a`, but
a field that is left out when it is empty may come back in another form. For records the same is
said by `Fields.Returns`, in a way that can be put together: it looks only at the members the fields
name, so other fields may stand beside them. -/

namespace LanguageServer.Json

theorem lookup_append (key : String) (a b : List (String × Json)) :
    lookup key (a ++ b) = (lookup key a).or (lookup key b) := by
  induction a with
  | nil => rfl
  | cons m a ih =>
      obtain ⟨k, v⟩ := m
      rw [List.cons_append, lookup, lookup, ih]
      split
      · rfl
      · rfl

theorem lookup_eq_none {key : String} {ms : List (String × Json)} (h : key ∉ keys ms) :
    lookup key ms = none := by
  induction ms with
  | nil => rfl
  | cons m ms ih =>
      obtain ⟨k, v⟩ := m
      simp only [keys, List.map_cons, List.mem_cons, not_or] at h
      rw [lookup, if_neg fun heq => h.1 heq.symm, ih h.2]

theorem mem_of_lookup {key : String} {j : Json} {ms : List (String × Json)}
    (h : lookup key ms = some j) : (key, j) ∈ ms := by
  induction ms with
  | nil => cases h
  | cons m ms ih =>
      obtain ⟨k, v⟩ := m
      rw [lookup] at h
      split at h
      · next hk =>
          rw [← hk, ← Option.some.inj h]
          exact List.mem_cons_self
      · exact List.mem_cons_of_mem _ (ih h)

end LanguageServer.Json

namespace LanguageServer.Wire

open Json (lookup keys)

variable {α β : Type}

/-- Writing `a` and reading it again gives `b`, wherever it is read from. -/
def Codec.Returns (c : Codec α) (a b : α) : Prop :=
  ∀ src, c.read src (c.write a) = .ok b

/-- Writing `a` and reading it again, possibly among other members, gives `b`. -/
structure Fields.Returns (f : Fields α) (a b : α) : Prop where
  /-- Only members of these names are written. -/
  named : ∀ m ∈ f.members a, m.1 ∈ f.names
  /-- Members of other names are accepted. -/
  others : ∀ src key j, key ∉ f.names → f.check src key j = .ok ()
  /-- The members written are accepted. -/
  checked : ∀ src, ∀ m ∈ f.members a, f.check src m.1 m.2 = .ok ()
  /-- Whatever else there is, the fields are found. -/
  found : ∀ src ms, (∀ key ∈ f.names, lookup key ms = lookup key (f.members a)) →
    f.present ms = .ok () ∧ f.build src ms = .ok b

namespace Codec

theorem returns_string (s : String) : string.Returns s s := fun _ => rfl

theorem returns_int64 (n : Int64) : int64.Returns n n := by
  intro src
  have hlow := n.le_toInt
  have hhigh := n.toInt_lt
  simp only [int64, integer, Json.int]
  rw [if_pos, Int64.ofInt_toInt]
  simp
  omega

theorem Returns.map {c : Codec α} {make : α → β} {back : β → α} {a a' : α} {b b' : β}
    (h : c.Returns a a') (hback : back b = a) (hmake : make a' = b') :
    (c.map make back).Returns b b' := by
  intro src
  subst hback hmake
  simp only [Codec.map, h src]
  rfl

end Codec

namespace Fields

theorem Returns.required {c : Codec α} {a b : α} (h : c.Returns a b) (name : String) :
    (required name c).Returns a b where
  named := by simp [Fields.required]
  others src key j hkey := by
    rw [Fields.required] at hkey ⊢
    exact if_neg (by simpa using hkey)
  checked src m hm := by
    obtain rfl : m = (name, c.write a) := by simpa [Fields.required] using hm
    simp only [Fields.required, if_true, h src]
    rfl
  found src ms hms := by
    have hlookup : lookup name ms = some (c.write a) := by
      rw [hms name (by simp [Fields.required])]
      simp [Fields.required, lookup]
    simp [Fields.required, hlookup, h src]

theorem Returns.optional_none (name : String) (c : Codec α) :
    (optional name c).Returns none none where
  named m hm := by cases hm
  others src key j hkey := by
    exact if_neg (by simpa [optional, nullable, defaulted] using hkey)
  checked src m hm := by cases hm
  found src ms hms := by
    have hlookup : lookup name ms = none := hms name List.mem_cons_self
    simp [optional, nullable, defaulted, hlookup]

/-- A value that is written as null is taken for one left out. -/
theorem Returns.optional_some {c : Codec α} {a : α} {o : Option α}
    (h : ∀ src, (orNull c).read src (c.write a) = .ok o) (name : String) :
    (optional name c).Returns (some a) o where
  named := by simp [optional, nullable, defaulted]
  others src key j hkey := by
    exact if_neg (by simpa [optional, nullable, defaulted] using hkey)
  checked src m hm := by
    obtain rfl : m = (name, c.write a) := by simpa [optional] using hm
    simp only [optional, nullable, defaulted, if_true, h src]
    rfl
  found src ms hms := by
    have hlookup : lookup name ms = some (c.write a) := by
      rw [hms name List.mem_cons_self]
      simp [optional, lookup]
    simp [optional, nullable, defaulted, hlookup, h src]

theorem Returns.lookup_eq_none {f : Fields α} {a b : α} (h : f.Returns a b) {key : String}
    (hkey : key ∉ f.names) : lookup key (f.members a) = none := by
  apply Json.lookup_eq_none
  intro hmem
  obtain ⟨m, hm, rfl⟩ := List.mem_map.1 hmem
  exact hkey (h.named m hm)

theorem Returns.and {f : Fields α} {g : Fields β} {a a' : α} {b b' : β} (hf : f.Returns a a')
    (hg : g.Returns b b') (hapart : ∀ key ∈ f.names, key ∉ g.names) :
    (f.and g).Returns (a, b) (a', b') where
  named m hm := by
    rcases List.mem_append.1 hm with hm | hm
    · exact List.mem_append_left _ (hf.named m hm)
    · exact List.mem_append_right _ (hg.named m hm)
  others src key j hkey := by
    have hkey : key ∉ f.names ∧ key ∉ g.names := by simpa [Fields.and] using hkey
    simp only [Fields.and, hf.others src key j hkey.1, hg.others src key j hkey.2]
    rfl
  checked src m hm := by
    rcases List.mem_append.1 hm with hm | hm
    · have hother := hg.others src m.1 m.2 (hapart m.1 (hf.named m hm))
      simp only [Fields.and, hf.checked src m hm, hother]
      rfl
    · have hother := hf.others src m.1 m.2 fun hkey => hapart m.1 hkey (hg.named m hm)
      simp only [Fields.and, hg.checked src m hm, hother]
      rfl
  found src ms hms := by
    have hlookup : ∀ key ∈ (f.and g).names,
        lookup key ms = (lookup key (f.members a)).or (lookup key (g.members b)) :=
      fun key hkey => (hms key hkey).trans (Json.lookup_append ..)
    obtain ⟨hpresent, hbuild⟩ := hf.found src ms fun key hkey => by
      rw [hlookup key (List.mem_append_left _ hkey), hg.lookup_eq_none (hapart key hkey),
        Option.or_none]
    obtain ⟨hpresent', hbuild'⟩ := hg.found src ms fun key hkey => by
      rw [hlookup key (List.mem_append_right _ hkey),
        hf.lookup_eq_none fun hkey' => hapart key hkey' hkey, Option.none_or]
    simp only [Fields.and, hpresent, hpresent', hbuild, hbuild']
    exact ⟨rfl, rfl⟩

theorem Returns.map {f : Fields α} {make : α → β} {back : β → α} {a a' : α} {b b' : β}
    (h : f.Returns a a') (hback : back b = a) (hmake : make a' = b') :
    (f.map make back).Returns b b' := by
  subst hback hmake
  refine ⟨h.named, h.others, h.checked, fun src ms hms => ?_⟩
  obtain ⟨hpresent, hbuild⟩ := h.found src ms hms
  refine ⟨hpresent, ?_⟩
  simp only [Fields.map, hbuild]
  rfl

theorem forM_eq_ok {ms : List (String × Json)} {f : String × Json → Except Fault Unit}
    (h : ∀ m ∈ ms, f m = .ok ()) : ms.forM f = .ok () := by
  induction ms with
  | nil => rfl
  | cons m ms ih =>
      have hrest := ih fun m' hm' => h m' (List.mem_cons_of_mem _ hm')
      show (f m >>= fun _ => ms.forM f) = .ok ()
      rw [h m List.mem_cons_self, hrest]
      rfl

theorem Returns.record {f : Fields α} {a b : α} (h : f.Returns a b) (title : String) :
    (Codec.record title f).Returns a b := by
  intro src
  obtain ⟨hpresent, hbuild⟩ := h.found src (f.members a) fun _ _ => rfl
  simp only [Codec.record, ofMembers, forM_eq_ok (h.checked src), hpresent, hbuild]
  rfl

end Fields

end LanguageServer.Wire
