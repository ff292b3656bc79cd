import LanguageServer.Token.Legend

set_option autoImplicit false

/-! # Modifiers and their bits

The bit of a modifier is its place in the legend, if that is one of the first 32 (`bitOf`). What
carries both directions is a relation between a word and a list of names: the bits that are set are
those of the names (`Represents`). Adding a modifier to a word adds it to the names, so the word of
a list represents the list (`Represents.foldlM`), and a word is determined by what it represents
(`Represents.unique`).

In a legend without repeats a name has one place, and then reading the legend through the bits of a
word that represents some names is picking these names from the legend; and the names picked by any
word have that word again, less the bits that belong to no modifier. -/

namespace LanguageServer

/-- The lowest bits of a word, as many as are asked for. -/
def lowestBits (count : Nat) (bits : UInt32) : UInt32 := UInt32.ofNat (bits.toNat % Nat.pow 2 count)

/-! ## Bits of words -/

theorem testBit_lowestBits (count : Nat) (bits : UInt32) (i : Nat) :
    (lowestBits count bits).toNat.testBit i = (decide (i < count) && bits.toNat.testBit i) := by
  have hlt : bits.toNat % Nat.pow 2 count < UInt32.size :=
    Nat.lt_of_le_of_lt (Nat.mod_le _ _) bits.toNat_lt
  rw [lowestBits, UInt32.toNat_ofNat_of_lt' hlt]
  exact Nat.testBit_mod_two_pow _ _ _

theorem testBit_one_shiftLeft {i : Nat} (h : i < 32) (k : Nat) :
    ((1 : UInt32) <<< i.toUInt32).toNat.testBit k = decide (i = k) := by
  have hplace : i.toUInt32.toNat = i :=
    UInt32.toNat_ofNat_of_lt' (Nat.lt_trans h (by decide))
  have hfits : Nat.pow 2 i < Nat.pow 2 32 := Nat.pow_lt_pow_right (by decide) h
  have hpow : ((1 : UInt32) <<< i.toUInt32).toNat = Nat.pow 2 i := by
    rw [UInt32.toNat_shiftLeft, hplace, Nat.mod_eq_of_lt h]
    exact (congrArg (· % Nat.pow 2 32) (Nat.one_shiftLeft i)).trans (Nat.mod_eq_of_lt hfits)
  rw [hpow]
  exact Nat.testBit_two_pow

theorem and_one_shiftLeft_ne_zero_iff {i : Nat} (h : i < 32) (bits : UInt32) :
    bits &&& ((1 : UInt32) <<< i.toUInt32) ≠ 0 ↔ bits.toNat.testBit i = true := by
  have hbit : ∀ k, (bits &&& ((1 : UInt32) <<< i.toUInt32)).toNat.testBit k =
      (bits.toNat.testBit k && decide (i = k)) := by
    intro k
    rw [UInt32.toNat_and, Nat.testBit_and, testBit_one_shiftLeft h]
  constructor
  · intro hne
    obtain ⟨k, hk⟩ := Nat.exists_testBit_of_ne_zero fun hzero => hne (UInt32.toNat_inj.1 hzero)
    rw [hbit, Bool.and_eq_true, decide_eq_true_eq] at hk
    rw [hk.2]
    exact hk.1
  · intro hset hzero
    have hclear := hbit i
    rw [hzero, hset] at hclear
    simp at hclear

theorem eq_of_testBit_iff {a b : UInt32}
    (h : ∀ i, a.toNat.testBit i = true ↔ b.toNat.testBit i = true) : a = b :=
  UInt32.toNat_inj.1 (Nat.eq_of_testBit_eq fun i => Bool.eq_iff_iff.2 (h i))

namespace Legend

variable {l : Legend} {bits b : UInt32} {name : String} {names : List String} {i : Nat}

/-! ## The bit of a modifier -/

/-- The modifiers that have a bit. -/
def flags (l : Legend) : List String := l.tokenModifiers.take 32

/-- The bit of a modifier: the first place where it stands. -/
def bitOf (l : Legend) (name : String) : Option Nat := l.flags.findIdx? (· = name)

theorem flags_length (l : Legend) : l.flags.length = min 32 l.tokenModifiers.length :=
  List.length_take

theorem lt_of_getElem?_flags (h : l.flags[i]? = some name) : i < 32 := by
  obtain ⟨hlt, -⟩ := List.getElem?_eq_some_iff.1 h
  rw [flags_length] at hlt
  omega

theorem getElem?_flags_of_bitOf (h : l.bitOf name = some i) : l.flags[i]? = some name := by
  obtain ⟨hlt, hname, -⟩ := List.findIdx?_eq_some_iff_getElem.1 h
  rw [List.getElem?_eq_getElem hlt, of_decide_eq_true hname]

theorem exists_bitOf_iff : (∃ i, l.bitOf name = some i) ↔ name ∈ l.flags := by
  rw [← Option.isSome_iff_exists, bitOf, List.findIdx?_isSome, List.any_eq_true]
  simp

theorem addModifier_eq_map (l : Legend) (bits : UInt32) (name : String) :
    l.addModifier bits name =
      (l.bitOf name).map fun i => bits ||| ((1 : UInt32) <<< i.toUInt32) := by
  rw [addModifier, bitOf, flags, List.findIdx?_take]
  cases l.tokenModifiers.findIdx? (· = name) with
  | none => rfl
  | some i =>
    by_cases h : i < 32
    · simp [Option.guard, h]
    · simp [Option.guard, h]

theorem exists_addModifier_iff : (∃ b, l.addModifier bits name = some b) ↔ name ∈ l.flags := by
  rw [← exists_bitOf_iff, ← Option.isSome_iff_exists, ← Option.isSome_iff_exists,
    addModifier_eq_map, Option.isSome_map]

/-! ## Adding modifiers -/

/-- Whether the bits that are set in a word are those of some modifiers. -/
def Represents (l : Legend) (bits : UInt32) (names : List String) : Prop :=
  ∀ i, bits.toNat.testBit i = true ↔ ∃ name ∈ names, l.bitOf name = some i

theorem Represents.zero (l : Legend) : l.Represents 0 [] := by
  intro i
  simp

theorem Represents.unique (h : l.Represents bits names) (h' : l.Represents b names) : bits = b :=
  eq_of_testBit_iff fun i => (h i).trans (h' i).symm

theorem Represents.addModifier {before : List String} (h : l.Represents bits before)
    (hadd : l.addModifier bits name = some b) : l.Represents b (before ++ [name]) := by
  rw [addModifier_eq_map, Option.map_eq_some_iff] at hadd
  obtain ⟨place, hplace, rfl⟩ := hadd
  intro i
  have hlt := lt_of_getElem?_flags (getElem?_flags_of_bitOf hplace)
  rw [UInt32.toNat_or, Nat.testBit_or, Bool.or_eq_true, h i, testBit_one_shiftLeft hlt,
    decide_eq_true_eq]
  simp [or_and_right, exists_or, hplace]

theorem Represents.foldlM {before : List String} (h : l.Represents bits before)
    (hrun : names.foldlM l.addModifier bits = some b) : l.Represents b (before ++ names) := by
  induction names generalizing bits before with
  | nil =>
    obtain rfl : bits = b := Option.some.inj hrun
    rw [List.append_nil]
    exact h
  | cons name names ih =>
    -- The first name moves over to those that have been added.
    rw [List.foldlM_cons] at hrun
    obtain ⟨bits', hadd, hrest⟩ := Option.bind_eq_some_iff.1 hrun
    rw [List.append_cons]
    exact ih (h.addModifier hadd) hrest

theorem exists_foldlM_iff : (∃ b, names.foldlM l.addModifier bits = some b) ↔
    ∀ name ∈ names, name ∈ l.flags := by
  induction names generalizing bits with
  | nil => simp
  | cons name names ih =>
    rw [List.forall_mem_cons, ← exists_addModifier_iff, List.foldlM_cons]
    constructor
    · rintro ⟨b, hrun⟩
      obtain ⟨bits', hadd, hrest⟩ := Option.bind_eq_some_iff.1 hrun
      exact ⟨⟨bits', hadd⟩, ih.1 ⟨b, hrest⟩⟩
    · rintro ⟨⟨bits', hadd⟩, hnames⟩
      obtain ⟨b, hrest⟩ := ih.2 hnames
      exact ⟨b, Option.bind_eq_some_iff.2 ⟨bits', hadd, hrest⟩⟩

theorem exists_modifierBits_iff :
    (∃ b, l.modifierBits names = some b) ↔ ∀ name ∈ names, name ∈ l.flags :=
  exists_foldlM_iff

/-- The word of some modifiers is the one that represents them. -/
theorem modifierBits_eq_some_iff : l.modifierBits names = some b ↔
    (∀ name ∈ names, name ∈ l.flags) ∧ l.Represents b names := by
  have hrepresents : ∀ b', l.modifierBits names = some b' → l.Represents b' names :=
    fun _ hrun => (Represents.zero l).foldlM hrun
  constructor
  · intro hrun
    exact ⟨exists_modifierBits_iff.1 ⟨b, hrun⟩, hrepresents b hrun⟩
  · rintro ⟨hnames, hb⟩
    obtain ⟨b', hrun⟩ := exists_modifierBits_iff.2 hnames
    rw [hrun, (hrepresents b' hrun).unique hb]

/-! ## Reading the legend through a word -/

theorem mem_modifierNames_iff :
    name ∈ l.modifierNames bits ↔ ∃ i, l.flags[i]? = some name ∧ bits.toNat.testBit i = true := by
  constructor
  · intro h
    obtain ⟨⟨_, i⟩, hmem, rfl⟩ := List.mem_map.1 h
    obtain ⟨hplace, hset⟩ := List.mem_filter.1 hmem
    have hplace := List.mem_zipIdx_iff_getElem?.1 hplace
    exact ⟨i, hplace, (and_one_shiftLeft_ne_zero_iff (lt_of_getElem?_flags hplace) bits).1
      (of_decide_eq_true hset)⟩
  · rintro ⟨i, hplace, hset⟩
    refine List.mem_map.2 ⟨(name, i), List.mem_filter.2 ⟨?_, ?_⟩, rfl⟩
    · exact List.mem_zipIdx_iff_getElem?.2 hplace
    · exact decide_eq_true
        ((and_one_shiftLeft_ne_zero_iff (lt_of_getElem?_flags hplace) bits).2 hset)

theorem mem_flags_of_mem_modifierNames (h : name ∈ l.modifierNames bits) : name ∈ l.flags := by
  obtain ⟨i, hplace, -⟩ := mem_modifierNames_iff.1 h
  exact List.mem_of_getElem? hplace

/-- If the bit of a place tells whether the modifier there is wanted, the wanted ones are read. -/
theorem modifierNames_eq_filter {p : String → Bool}
    (h : ∀ i name, l.flags[i]? = some name → (bits.toNat.testBit i = true ↔ p name = true)) :
    l.modifierNames bits = l.flags.filter p := by
  have hwanted : ∀ x ∈ l.flags.zipIdx,
      decide (bits &&& ((1 : UInt32) <<< x.2.toUInt32) ≠ 0) = (p ∘ Prod.fst) x := by
    intro x hx
    have hplace := List.mem_zipIdx_iff_getElem?.1 hx
    rw [Bool.eq_iff_iff, decide_eq_true_eq,
      and_one_shiftLeft_ne_zero_iff (lt_of_getElem?_flags hplace)]
    exact h x.2 x.1 hplace
  calc l.modifierNames bits
      = (l.flags.zipIdx.filter (p ∘ Prod.fst)).map Prod.fst :=
        congrArg (List.map Prod.fst) (List.filter_congr hwanted)
    _ = (l.flags.zipIdx.map Prod.fst).filter p := List.filter_map.symm
    _ = l.flags.filter p := by rw [List.zipIdx_map_fst]

/-! ## Legends without repeats -/

section Distinct

variable (hdistinct : l.tokenModifiers.Nodup)

include hdistinct

theorem bitOf_eq_some_iff : l.bitOf name = some i ↔ l.flags[i]? = some name := by
  refine ⟨getElem?_flags_of_bitOf, fun hplace => ?_⟩
  -- The bit is the first place, and there is no other.
  obtain ⟨first, hfirst⟩ := exists_bitOf_iff.2 (List.mem_of_getElem? hplace)
  have hsame : l.flags[i]? = l.flags[first]? := hplace.trans (getElem?_flags_of_bitOf hfirst).symm
  obtain ⟨hlt, -⟩ := List.getElem?_eq_some_iff.1 hplace
  rw [(List.getElem?_inj hlt (hdistinct.sublist (List.take_sublist _ _))).1 hsame]
  exact hfirst

/-- Modifiers that have a bit are not found behind the places that have one. -/
theorem not_mem_drop_of_mem_flags (hname : name ∈ l.flags) :
    name ∉ l.tokenModifiers.drop 32 := by
  intro hrest
  have hsplit : l.flags ++ l.tokenModifiers.drop 32 = l.tokenModifiers :=
    List.take_append_drop 32 l.tokenModifiers
  have hdisjoint := (List.nodup_append.1 (hsplit ▸ hdistinct)).2.2
  exact hdisjoint name hname name hrest rfl

theorem getElem?_tokenModifiers_iff (hname : name ∈ l.flags) :
    l.tokenModifiers[i]? = some name ↔ l.flags[i]? = some name := by
  by_cases hlt : i < 32
  · rw [flags, List.getElem?_take_of_lt hlt]
  · constructor
    · intro hplace
      have hrest : (l.tokenModifiers.drop 32)[i - 32]? = some name := by
        rw [List.getElem?_drop, Nat.add_sub_cancel' (Nat.le_of_not_lt hlt), hplace]
      exact absurd (List.mem_of_getElem? hrest) (not_mem_drop_of_mem_flags hdistinct hname)
    · intro hplace
      exact absurd (lt_of_getElem?_flags hplace) hlt

theorem Represents.testBit_iff (hnames : ∀ name ∈ names, name ∈ l.flags)
    (h : l.Represents b names) :
    b.toNat.testBit i = true ↔ ∃ name ∈ names, l.tokenModifiers[i]? = some name := by
  rw [h i]
  refine exists_congr fun name => and_congr_right fun hmem => ?_
  rw [bitOf_eq_some_iff hdistinct, getElem?_tokenModifiers_iff hdistinct (hnames name hmem)]

theorem filter_flags (hnames : ∀ name ∈ names, name ∈ l.flags) :
    l.flags.filter (· ∈ names) = l.tokenModifiers.filter (· ∈ names) := by
  have hrest : (l.tokenModifiers.drop 32).filter (· ∈ names) = [] := by
    refine List.filter_eq_nil_iff.2 fun name hmem hwanted => ?_
    have hname := hnames name (of_decide_eq_true hwanted)
    exact not_mem_drop_of_mem_flags hdistinct hname hmem
  calc l.flags.filter (· ∈ names)
      = (l.flags ++ l.tokenModifiers.drop 32).filter (· ∈ names) := by
        rw [List.filter_append, hrest, List.append_nil]
    _ = l.tokenModifiers.filter (· ∈ names) := by rw [flags, List.take_append_drop]

theorem Represents.modifierNames_eq (hnames : ∀ name ∈ names, name ∈ l.flags)
    (h : l.Represents b names) :
    l.modifierNames b = l.tokenModifiers.filter (· ∈ names) := by
  rw [← filter_flags hdistinct hnames]
  refine modifierNames_eq_filter fun i name hplace => ?_
  rw [h i, decide_eq_true_eq]
  constructor
  · rintro ⟨name', hmem, hbit⟩
    obtain rfl := Option.some.inj (hplace.symm.trans (getElem?_flags_of_bitOf hbit))
    exact hmem
  · intro hmem
    exact ⟨name, hmem, (bitOf_eq_some_iff hdistinct).2 hplace⟩

theorem represents_modifierNames (bits : UInt32) :
    l.Represents (lowestBits l.flags.length bits) (l.modifierNames bits) := by
  intro i
  rw [testBit_lowestBits, Bool.and_eq_true, decide_eq_true_eq]
  constructor
  · rintro ⟨hlt, hset⟩
    have hplace : l.flags[i]? = some l.flags[i] := List.getElem?_eq_getElem hlt
    exact ⟨_, mem_modifierNames_iff.2 ⟨i, hplace, hset⟩, (bitOf_eq_some_iff hdistinct).2 hplace⟩
  · rintro ⟨name, hmem, hbit⟩
    obtain ⟨k, hplace, hset⟩ := mem_modifierNames_iff.1 hmem
    obtain rfl := Option.some.inj (((bitOf_eq_some_iff hdistinct).2 hplace).symm.trans hbit)
    exact ⟨(List.getElem?_eq_some_iff.1 hplace).1, hset⟩

end Distinct

/-- **Modifiers and their bits determine each other.** In a legend of any length without repeats,
names have a word exactly if each of them is one of the first 32 modifiers. Bit `i` of the word is
set if modifier `i` is one of the names, and what is read through the word are the modifiers that
are among the names, in the order of the legend and each once. The names read through any word have
that word, less the bits that belong to no modifier. -/
theorem modifierBits_modifierNames_inverse (l : Legend) (hdistinct : l.tokenModifiers.Nodup) :
    (∀ names, (∃ b, l.modifierBits names = some b) ↔
      ∀ name ∈ names, name ∈ l.tokenModifiers.take 32) ∧
    (∀ names b, l.modifierBits names = some b →
      (∀ i, b.toNat.testBit i = true ↔ ∃ name ∈ names, l.tokenModifiers[i]? = some name) ∧
      l.modifierNames b = l.tokenModifiers.filter (· ∈ names) ∧ (l.modifierNames b).Nodup) ∧
    ∀ bits, l.modifierBits (l.modifierNames bits) =
      some (lowestBits (min 32 l.tokenModifiers.length) bits) := by
  refine ⟨fun names => exists_modifierBits_iff, fun names b hrun => ?_, fun bits => ?_⟩
  · obtain ⟨hnames, hb⟩ := modifierBits_eq_some_iff.1 hrun
    have hread := hb.modifierNames_eq hdistinct hnames
    refine ⟨fun i => hb.testBit_iff hdistinct hnames, hread, ?_⟩
    rw [hread]
    exact hdistinct.sublist List.filter_sublist
  · rw [modifierBits_eq_some_iff, ← flags_length]
    exact ⟨fun name => mem_flags_of_mem_modifierNames, represents_modifierNames hdistinct bits⟩

/-- A legend of 33 modifiers, one letter each: the last one has no bit, and the one before it has
the highest. In a legend of three, the fourth bit of a word is lost. -/
theorem modifierBits_modifierNames_letters :
    let letters : Legend := ⟨[], "abcdefghijklmnopqrstuvwxyzABCDEFG".toList.map String.singleton⟩
    let few : Legend := ⟨[], ["a", "b", "c"]⟩
    letters.tokenModifiers.Nodup ∧ few.tokenModifiers.Nodup ∧
    (¬ ∃ b, letters.modifierBits ["a", "G"] = some b) ∧
    letters.modifierBits ["F", "a", "F"] = some 0x80000001 ∧
    letters.modifierNames 0x80000001 = letters.tokenModifiers.filter (· ∈ ["F", "a", "F"]) ∧
    letters.modifierBits (letters.modifierNames 0xc0000000) = some (lowestBits 32 0xc0000000) ∧
    few.modifierBits (few.modifierNames 0xe) = some (lowestBits 3 0xe) ∧ lowestBits 3 0xe = 6 := by
  intro letters few
  have hletters : letters.tokenModifiers.Nodup := by decide
  have hfew : few.tokenModifiers.Nodup := by decide
  obtain ⟨hsome, hread, hword⟩ := modifierBits_modifierNames_inverse letters hletters
  obtain ⟨-, -, hfewer⟩ := modifierBits_modifierNames_inverse few hfew
  have hbits : letters.modifierBits ["F", "a", "F"] = some 0x80000001 := by decide
  refine ⟨hletters, hfew, ?_, hbits, (hread _ _ hbits).2.1, hword _, hfewer _, by decide⟩
  rw [hsome]
  decide

end Legend

end LanguageServer
