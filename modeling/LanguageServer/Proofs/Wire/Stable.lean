import LanguageServer.Proofs.Wire.Reads

set_option autoImplicit false

/-! # What has been read stays as it is

A value may be given in several forms: a record as an object or as an array, a field as null or not
at all, a name as a text or as a key. It is written in one of them. `Codec.Stable` says that this
one is read as the same value again, so that after the first reading nothing is lost. It is not said
of values that were never read; members set aside by `Fields.andOthers`, for one, could be given the
name of a field.

For fields the keys of what is written have to be known, those of groups among them
(`Fields.Stable`). As long as no key is used twice, each field finds its own members. -/

namespace LanguageServer.Wire

open Json (lookup keys)

variable {α β : Type}

/-- What has been read comes back when it is written and read again. -/
structure Codec.Stable (c : Codec α) : Prop where
  returns : ∀ {src : Source} {j : Json} {a : α}, c.read src j = .ok a → c.Returns a a
  /-- Only null is written as null. -/
  solid : ∀ {src : Source} {j : Json} {a : α}, c.read src j = .ok a → j ≠ .null → c.write a ≠ .null

namespace Codec

/-! ## Simple values -/

theorem stable_json : json.Stable where
  returns _ _ := rfl
  solid hread hj := Except.ok.inj hread ▸ hj

/-- A codec may accept nothing but what it writes. -/
theorem stable_of_read_iff {c : Codec α}
    (hread : ∀ {src : Source} {j : Json} {a : α}, c.read src j = .ok a ↔ j = c.write a)
    (hnull : ∀ a, c.write a ≠ .null) : c.Stable where
  returns _ _ := hread.2 rfl
  solid {_ _ a} _ _ := hnull a

theorem stable_bool : bool.Stable where
  returns _ _ := rfl
  solid _ _ := nofun

theorem stable_string : string.Stable := stable_of_read_iff read_string_eq_ok_iff nofun

theorem stable_uint8 : uint8.Stable := stable_of_read_iff read_uint8_eq_ok_iff nofun

theorem stable_uint32 : uint32.Stable := stable_of_read_iff read_uint32_eq_ok_iff nofun

theorem stable_int32 : int32.Stable := stable_of_read_iff read_int32_eq_ok_iff nofun

theorem stable_int64 : int64.Stable := stable_of_read_iff read_int64_eq_ok_iff nofun

/-! ## Compound values -/

theorem readItems_write {c : Codec α} (h : c.Stable) {src : Source} {items : List Json}
    {as : List α} (hread : c.readItems src items = .ok as) (src' : Source) :
    c.readItems src' (as.map c.write) = .ok as := by
  induction items generalizing as with
  | nil =>
      obtain rfl := Except.ok.inj hread
      rfl
  | cons j rest ih =>
      obtain ⟨a, ha, hread⟩ := bind_eq_ok_iff.1 hread
      obtain ⟨as, has, hread⟩ := bind_eq_ok_iff.1 hread
      obtain rfl := Except.ok.inj hread
      rw [List.map_cons, readItems, h.returns ha src', ih has]
      rfl

theorem Stable.list {c : Codec α} (h : c.Stable) : (list c).Stable where
  returns {src j as} hread src' := by
    simp only [Codec.list] at hread
    split at hread
    · exact readItems_write h hread src'
    · cases hread
  solid _ _ := nofun

theorem Stable.map {c : Codec α} {make : α → β} {back : β → α} (h : c.Stable)
    (hback : ∀ a, back (make a) = a) : (c.map make back).Stable where
  returns hread := by
    obtain ⟨a, ha, hmake⟩ := bind_eq_ok_iff.1 hread
    obtain rfl := Except.ok.inj hmake
    exact (h.returns ha).map (hback a) rfl
  solid hread hj := by
    obtain ⟨a, ha, hmake⟩ := bind_eq_ok_iff.1 hread
    obtain rfl := Except.ok.inj hmake
    simpa only [Codec.map, hback] using h.solid ha hj

/-- The one codec refuses what is written for values that the other has read. -/
def Refuses (c : Codec α) (d : Codec β) : Prop :=
  ∀ {src : Source} {j : Json} {b : β}, d.read src j = .ok b →
    ∀ a, c.read .buffered (d.write b) ≠ .ok a

theorem read_either_eq_ok_iff {type : String} {c : Codec α} {d : Codec β} {src : Source} {j : Json}
    {s : α ⊕ β} :
    (either type c d).read src j = .ok s ↔
      (∃ a, c.read .buffered j = .ok a ∧ s = .inl a) ∨
        ((∀ a, c.read .buffered j ≠ .ok a) ∧ ∃ b, d.read .buffered j = .ok b ∧ s = .inr b) := by
  cases hc : c.read .buffered j with
  | ok a => simp [either, firstFit, Functor.map, Except.map, hc, eq_comm]
  | error fault =>
      cases hd : d.read .buffered j with
      | ok b => simp [either, firstFit, Functor.map, Except.map, hc, hd, eq_comm]
      | error fault' => simp [either, firstFit, Functor.map, Except.map, hc, hd]

theorem Stable.either {c : Codec α} {d : Codec β} (hc : c.Stable) (hd : d.Stable)
    (hrefuses : c.Refuses d) {type : String} : (either type c d).Stable where
  returns hread src := by
    rw [read_either_eq_ok_iff]
    rcases read_either_eq_ok_iff.1 hread with ⟨a, ha, rfl⟩ | ⟨-, b, hb, rfl⟩
    · exact .inl ⟨a, hc.returns ha .buffered, rfl⟩
    · exact .inr ⟨hrefuses hb, b, hd.returns hb .buffered, rfl⟩
  solid hread hj := by
    rcases read_either_eq_ok_iff.1 hread with ⟨a, ha, rfl⟩ | ⟨-, b, hb, rfl⟩
    · exact hc.solid ha hj
    · exact hd.solid hb hj

/-- Names need not differ: the first value of a name is the one that is found for it. -/
theorem stable_named {all : List α} {name : α → String} : (named all name).Stable where
  returns {src j a} hread src' := by
    have hfound : ∃ s, all.find? (fun a => name a = s) = some a := by
      simp only [named] at hread
      split at hread
      · next s =>
          split at hread
          · next a' hfind =>
              obtain rfl := Except.ok.inj hread
              exact ⟨s, hfind⟩
          · cases hread
      · next s v =>
          obtain ⟨a', ha', hread⟩ := bind_eq_ok_iff.1 hread
          split at hread
          · obtain rfl := Except.ok.inj hread
            split at ha'
            · next a'' hfind =>
                obtain rfl := Except.ok.inj ha'
                exact ⟨s, hfind⟩
            · cases ha'
          · cases hread
      · cases hread
      · cases hread
    obtain ⟨s, hfind⟩ := hfound
    obtain rfl : name a = s := by simpa using List.find?_some hfind
    simp [named, hfind]
  solid _ _ := nofun

theorem stable_numbered {what : String} {all : List α} {code : α → UInt8} :
    (numbered what all code).Stable where
  returns {src j a} hread src' := by
    obtain ⟨n, hn, hread⟩ := bind_eq_ok_iff.1 hread
    split at hread
    · next a' hfind =>
        obtain rfl := Except.ok.inj hread
        obtain rfl : code a' = n := by simpa using List.find?_some hfind
        simp only [numbered, stable_uint8.returns hn src', bind_eq_ok_iff]
        exact ⟨code a', rfl, by rw [hfind]; rfl⟩
    · cases hread
  solid _ _ := nofun

theorem read_orNull_of_ne {c : Codec α} {j : Json} (hj : j ≠ .null) (src : Source) :
    (Fields.orNull c).read src j = some <$> c.read src j := by
  cases j with
  | null => exact absurd rfl hj
  | _ => rfl

theorem Stable.orNull {c : Codec α} (h : c.Stable) : (Fields.orNull c).Stable where
  returns {src j o} hread src' := by
    by_cases hj : j = .null
    · subst hj
      obtain rfl := Except.ok.inj hread
      rfl
    · rw [read_orNull_of_ne hj] at hread
      obtain ⟨a, ha, rfl⟩ := map_eq_ok_iff.1 hread
      exact (read_orNull_of_ne (h.solid ha hj) src').trans
        (map_eq_ok_iff.2 ⟨a, h.returns ha src', rfl⟩)
  solid {src j o} hread hj := by
    rw [read_orNull_of_ne hj] at hread
    obtain ⟨a, ha, rfl⟩ := map_eq_ok_iff.1 hread
    exact h.solid ha hj

end Codec

namespace Fields

/-! ## Fields -/

/-- A value that these fields can be given by an object or an array. -/
inductive Given (f : Fields α) (a : α) : Prop
  | members {src : Source} {ms : List (String × Json)} : f.build src ms = .ok a → Given f a
  | items {src : Source} {expected : String} {index : Nat} {items rest : List Json} :
    f.take src expected index items = .ok (a, rest) → Given f a

/-- What is written for a value has these keys, and the value is found in it, whatever members of
other keys stand there too. -/
structure Settled (f : Fields α) (names : List String) (a : α) : Prop where
  named : ∀ m ∈ f.members a, m.1 ∈ names
  checked : ∀ src, ∀ m ∈ f.members a, f.check src m.1 m.2 = .ok ()
  found : ∀ src ms, ms.filter (fun m => m.1 ∈ names) = f.members a →
    f.present ms = .ok () ∧ f.build src ms = .ok a

/-- Fields that use these keys find again what they have been given. -/
structure Stable (f : Fields α) (names : List String) : Prop where
  others : ∀ src key j, key ∉ names → f.check src key j = .ok ()
  settled : names.Nodup → ∀ {a}, f.Given a → f.Settled names a

theorem lookup_filter {names : List String} {key : String} (hkey : key ∈ names)
    (ms : List (String × Json)) : lookup key (ms.filter fun m => m.1 ∈ names) = lookup key ms := by
  induction ms with
  | nil => rfl
  | cons m ms ih =>
      obtain ⟨k, v⟩ := m
      by_cases hk : k ∈ names
      · rw [List.filter_cons_of_pos (by simpa using hk), lookup, lookup, ih]
      · have hne : k ≠ key := fun heq => hk (heq ▸ hkey)
        rw [List.filter_cons_of_neg (by simpa using hk), ih, lookup, if_neg hne]

theorem Returns.settled {f : Fields α} {a : α} (h : f.Returns a a) : f.Settled f.names a where
  named := h.named
  checked := h.checked
  found src ms hms := h.found src ms fun key hkey => by rw [← hms, lookup_filter hkey]

theorem Settled.ofMembers {f : Fields α} {names : List String} {a : α} (h : f.Settled names a)
    (hothers : ∀ src key j, key ∉ names → f.check src key j = .ok ()) {ms : List (String × Json)}
    (hms : ms.filter (fun m => m.1 ∈ names) = f.members a) (src : Source) :
    f.ofMembers src ms = .ok a := by
  rw [ofMembers_eq_ok_iff]
  refine ⟨fun m hm => ?_, h.found src ms hms⟩
  by_cases hkey : m.1 ∈ names
  · have hown : m ∈ f.members a := hms ▸ List.mem_filter.2 ⟨hm, decide_eq_true hkey⟩
    exact h.checked src m hown
  · exact hothers src m.1 m.2 hkey

theorem Settled.filter_members {f : Fields α} {names : List String} {a : α}
    (h : f.Settled names a) : (f.members a).filter (fun m => m.1 ∈ names) = f.members a :=
  List.filter_eq_self.2 fun m hm => decide_eq_true (h.named m hm)

/-! ### Single fields -/

theorem Returns.defaulted {c : Codec α} {a b : α} (h : c.Returns a b) (name : String) (value : α) :
    (defaulted name c value).Returns a b where
  named := by simp [Fields.defaulted]
  others src key j hkey := by
    rw [Fields.defaulted] at hkey ⊢
    exact if_neg (by simpa using hkey)
  checked src m hm := by
    obtain rfl : m = (name, c.write a) := by simpa [Fields.defaulted] using hm
    simp only [Fields.defaulted, if_true, h src]
    rfl
  found src ms hms := by
    have hlookup : lookup name ms = some (c.write a) := by
      rw [hms name (by simp [Fields.defaulted])]
      simp [Fields.defaulted, lookup]
    simp [Fields.defaulted, hlookup, h src]

theorem Given.required {name : String} {c : Codec α} {a : α} (h : (required name c).Given a) :
    ∃ src j, c.read src j = .ok a := by
  cases h with
  | members h =>
      obtain ⟨j, -, hread⟩ := build_required_eq_ok_iff.1 h
      exact ⟨_, j, hread⟩
  | items h =>
      obtain ⟨j, -, hread⟩ := take_required_eq_ok_iff.1 h
      exact ⟨_, j, hread⟩

theorem Given.defaulted {name : String} {c : Codec α} {value a : α}
    (h : (defaulted name c value).Given a) : a = value ∨ ∃ src j, c.read src j = .ok a := by
  cases h with
  | @members src ms h =>
      simp only [Fields.defaulted] at h
      split at h
      · next j _ => exact .inr ⟨src, j, h⟩
      · exact .inl (Except.ok.inj h).symm
  | @items src expected index items rest h =>
      cases items with
      | nil => exact .inl (Prod.mk.inj (Except.ok.inj h)).1.symm
      | cons j tail =>
          obtain ⟨a', ha', hread⟩ := bind_eq_ok_iff.1 h
          obtain ⟨rfl, -⟩ := Prod.mk.inj (Except.ok.inj hread)
          exact .inr ⟨src, j, ha'⟩

theorem Stable.required {name : String} {c : Codec α} (h : c.Stable) :
    (required name c).Stable [name] where
  others src key j hkey := if_neg (by simpa using hkey)
  settled _ {_} hgiven := by
    obtain ⟨src, j, hread⟩ := hgiven.required
    exact (Returns.required (h.returns hread) name).settled

theorem Stable.defaulted {name : String} {c : Codec α} {value : α} (h : c.Stable)
    (hvalue : c.Returns value value) : (defaulted name c value).Stable [name] where
  others src key j hkey := if_neg (by simpa using hkey)
  settled _ {_} hgiven := by
    rcases hgiven.defaulted with rfl | ⟨src, j, hread⟩
    · exact (Returns.defaulted hvalue name _).settled
    · exact (Returns.defaulted (h.returns hread) name value).settled

theorem Stable.nullable {name : String} {c : Codec α} (h : c.Stable) :
    (nullable name c).Stable [name] :=
  .defaulted h.orNull fun _ => rfl

theorem Stable.optional {name : String} {c : Codec α} (h : c.Stable) :
    (optional name c).Stable [name] where
  others src key j hkey := if_neg (by simpa using hkey)
  settled _ {o} hgiven := by
    have hnullable : (Fields.nullable name c).Given o := by
      cases hgiven with
      | members h => exact .members h
      | @items src expected index items rest h =>
          exact @Given.items _ (Fields.nullable name c) o src expected index items rest h
    cases o with
    | none => exact (Returns.optional_none name c).settled
    | some a =>
        rcases hnullable.defaulted with hnone | ⟨src, j, hread⟩
        · cases hnone
        · exact (Returns.optional_some (h.orNull.returns hread) name).settled

/-! ### Several fields -/

theorem Stable.group {f : Fields α} {names : List String} (h : f.Stable names) :
    (group f).Stable names where
  others _ _ _ _ := rfl
  settled hnodup {a} hgiven := by
    have hsettled : f.Settled names a := by
      refine h.settled hnodup ?_
      cases hgiven with
      | members h => exact .members (ofMembers_eq_ok_iff.1 h).2.2
      | items h => exact .items h
    exact ⟨hsettled.named, fun _ _ _ => rfl,
      fun _ ms hms => ⟨rfl, hsettled.ofMembers h.others hms .buffered⟩⟩

theorem Given.and {f : Fields α} {g : Fields β} {a : α} {b : β} (h : (f.and g).Given (a, b)) :
    f.Given a ∧ g.Given b := by
  cases h with
  | members h =>
      obtain ⟨hf, hg⟩ := build_and_eq_ok_iff.1 h
      exact ⟨.members hf, .members hg⟩
  | items h =>
      obtain ⟨tail, hf, hg⟩ := take_and_eq_ok_iff.1 h
      exact ⟨.items hf, .items hg⟩

/-- What belongs to some of the keys can be told from the rest. -/
theorem filter_filter_mem {names more : List String} (hsub : ∀ key ∈ names, key ∈ more)
    (ms : List (String × Json)) :
    (ms.filter fun m => m.1 ∈ more).filter (fun m => m.1 ∈ names) =
      ms.filter fun m => m.1 ∈ names := by
  rw [List.filter_filter]
  refine List.filter_congr fun m _ => ?_
  by_cases hkey : m.1 ∈ names
  · simp [hkey, hsub m.1 hkey]
  · simp [hkey]

theorem filter_eq_nil {names : List String} {ms : List (String × Json)}
    (h : ∀ m ∈ ms, m.1 ∉ names) : ms.filter (fun m => m.1 ∈ names) = [] :=
  List.filter_eq_nil_iff.2 fun m hm => by simpa using h m hm

theorem Stable.and {f : Fields α} {g : Fields β} {names others : List String} (hf : f.Stable names)
    (hg : g.Stable others) : (f.and g).Stable (names ++ others) where
  others src key j hkey := by
    have hkey : key ∉ names ∧ key ∉ others := by simpa using hkey
    exact check_and_eq_ok_iff.2 ⟨hf.others src key j hkey.1, hg.others src key j hkey.2⟩
  settled hnodup {p} hgiven := by
    obtain ⟨a, b⟩ := p
    obtain ⟨hnames, hothers, hapart⟩ := List.nodup_append.1 hnodup
    obtain ⟨ha, hb⟩ := hgiven.and
    have hfa := hf.settled hnames ha
    have hgb := hg.settled hothers hb
    have hfirst : ∀ m ∈ f.members a, m.1 ∉ others := fun m hm hkey =>
      hapart m.1 (hfa.named m hm) m.1 hkey rfl
    have hsecond : ∀ m ∈ g.members b, m.1 ∉ names := fun m hm hkey =>
      hapart m.1 hkey m.1 (hgb.named m hm) rfl
    constructor
    · intro m hm
      rcases List.mem_append.1 hm with hm | hm
      · exact List.mem_append_left _ (hfa.named m hm)
      · exact List.mem_append_right _ (hgb.named m hm)
    · intro src m hm
      rw [check_and_eq_ok_iff]
      rcases List.mem_append.1 hm with hm | hm
      · exact ⟨hfa.checked src m hm, hg.others src m.1 m.2 (hfirst m hm)⟩
      · exact ⟨hf.others src m.1 m.2 (hsecond m hm), hgb.checked src m hm⟩
    · intro src ms hms
      change ms.filter _ = f.members a ++ g.members b at hms
      obtain ⟨hpresent, hbuild⟩ := hfa.found src ms <| by
        rw [← filter_filter_mem (fun _ => List.mem_append_left others), hms, List.filter_append,
          hfa.filter_members, filter_eq_nil hsecond, List.append_nil]
      obtain ⟨hpresent', hbuild'⟩ := hgb.found src ms <| by
        rw [← filter_filter_mem (fun _ => List.mem_append_right names), hms, List.filter_append,
          hgb.filter_members, filter_eq_nil hfirst, List.nil_append]
      exact ⟨seq_eq_ok_iff.2 ⟨hpresent, hpresent'⟩, build_and_eq_ok_iff.2 ⟨hbuild, hbuild'⟩⟩

theorem Given.map {f : Fields α} {make : α → β} {back : β → α} {b : β}
    (h : (f.map make back).Given b) : ∃ a, f.Given a ∧ make a = b := by
  cases h with
  | members h =>
      obtain ⟨a, ha, rfl⟩ := map_eq_ok_iff.1 h
      exact ⟨a, .members ha, rfl⟩
  | items h =>
      obtain ⟨⟨a, tail⟩, ha, hmake⟩ := bind_eq_ok_iff.1 h
      obtain ⟨rfl, -⟩ := Prod.mk.inj (Except.ok.inj hmake)
      exact ⟨a, .items ha, rfl⟩

theorem Stable.map {f : Fields α} {names : List String} {make : α → β} {back : β → α}
    (h : f.Stable names) (hback : ∀ a, back (make a) = a) : (f.map make back).Stable names where
  others := h.others
  settled hnodup {b} hgiven := by
    obtain ⟨a, ha, rfl⟩ := hgiven.map
    have hsettled := h.settled hnodup ha
    have hmembers : (f.map make back).members (make a) = f.members a :=
      congrArg f.members (hback a)
    constructor
    · rw [hmembers]
      exact hsettled.named
    · rw [hmembers]
      exact hsettled.checked
    · intro src ms hms
      obtain ⟨hpresent, hbuild⟩ := hsettled.found src ms (hmembers ▸ hms)
      exact ⟨hpresent, map_eq_ok_iff.2 ⟨a, hbuild, rfl⟩⟩

end Fields

namespace Codec

/-! ## Records -/

open Fields

theorem read_mapping_eq_ok_iff {title : String} {f : Fields α} {src : Source} {j : Json} {a : α} :
    (mapping title f).read src j = .ok a ↔
      ∃ ms, j = .obj ms ∧ f.ofMembers src ms = .ok a := by
  cases j with
  | obj ms => simp [mapping]
  | _ => simp [mapping]

theorem Stable.mapping {f : Fields α} {names : List String} (h : f.Stable names)
    (hnodup : names.Nodup) {title : String} : (mapping title f).Stable where
  returns {src j a} hread src' := by
    obtain ⟨ms, rfl, hread⟩ := read_mapping_eq_ok_iff.1 hread
    have hsettled := h.settled hnodup (.members (ofMembers_eq_ok_iff.1 hread).2.2)
    exact hsettled.ofMembers h.others hsettled.filter_members src'
  solid _ _ := nofun

theorem given_of_record {title : String} {f : Fields α} {src : Source} {j : Json} {a : α}
    (h : (record title f).read src j = .ok a) : f.Given a := by
  simp only [record] at h
  split at h
  · exact .members (ofMembers_eq_ok_iff.1 h).2.2
  · exact .items (readArray_eq_ok_iff.1 h)
  · cases h

theorem Stable.record {f : Fields α} {names : List String} (h : f.Stable names)
    (hnodup : names.Nodup) {title : String} : (record title f).Stable where
  returns hread src := by
    have hsettled := h.settled hnodup (given_of_record hread)
    exact hsettled.ofMembers h.others hsettled.filter_members src
  solid _ _ := nofun

theorem build_andOthers_eq_ok_iff {f : Fields α} {src : Source} {ms : List (String × Json)} {a : α}
    {others : List (String × Json)} :
    f.andOthers.build src ms = .ok (a, others) ↔
      f.build src ms = .ok a ∧ others = ms.filter fun m => m.1 ∉ f.names := by
  simp only [andOthers, bind_eq_ok_iff, pure, Except.pure, Except.ok.injEq, Prod.mk.injEq]
  constructor
  · rintro ⟨a', ha', rfl, rfl⟩
    exact ⟨ha', by simp⟩
  · rintro ⟨ha, rfl⟩
    exact ⟨a, ha, rfl, by simp⟩

/-- Members of unknown keys are kept, and are still unknown when they are read again. -/
theorem Stable.andOthers {f : Fields α} (h : f.Stable f.names) (hnodup : f.names.Nodup)
    {make : α × List (String × Json) → β} {back : β → α × List (String × Json)}
    (hback : ∀ p, back (make p) = p) {title : String} :
    (Codec.mapping title (f.andOthers.map make back)).Stable where
  returns {src j b} hread src' := by
    obtain ⟨ms, rfl, hread⟩ := read_mapping_eq_ok_iff.1 hread
    obtain ⟨⟨a, others⟩, hbuilt, rfl⟩ := map_eq_ok_iff.1 (ofMembers_eq_ok_iff.1 hread).2.2
    obtain ⟨hbuild, hothers⟩ := build_andOthers_eq_ok_iff.1 hbuilt
    have hsettled := h.settled hnodup (.members hbuild)
    have hunknown : ∀ m ∈ others, m.1 ∉ f.names := by
      intro m hm
      rw [hothers] at hm
      simpa using (List.mem_filter.1 hm).2
    have hwritten : (f.andOthers.map make back).members (make (a, others)) =
        f.members a ++ others :=
      congrArg f.andOthers.members (hback (a, others))
    refine read_mapping_eq_ok_iff.2 ⟨_, rfl, ofMembers_eq_ok_iff.2 ?_⟩
    rw [hwritten]
    obtain ⟨hpresent, hbuild'⟩ := hsettled.found src' (f.members a ++ others) <| by
      rw [List.filter_append, hsettled.filter_members, filter_eq_nil hunknown, List.append_nil]
    refine ⟨fun m hm => ?_, hpresent,
      map_eq_ok_iff.2 ⟨_, build_andOthers_eq_ok_iff.2 ⟨hbuild', ?_⟩, rfl⟩⟩
    · rcases List.mem_append.1 hm with hm | hm
      · exact hsettled.checked src' m hm
      · exact h.others src' m.1 m.2 (hunknown m hm)
    · have hnone : (f.members a).filter (fun m => m.1 ∉ f.names) = [] :=
        List.filter_eq_nil_iff.2 fun m hm => by simpa using hsettled.named m hm
      rw [List.filter_append, hnone, List.nil_append,
        List.filter_eq_self.2 fun m hm => decide_eq_true (hunknown m hm)]
  solid _ _ := nofun

end Codec

end LanguageServer.Wire
