import LanguageServer.Proofs.Wire.Returns

set_option autoImplicit false

/-! # What can be read

When reading succeeds, and with which value, told by how the parts are read. -/

namespace LanguageServer

namespace Wire

variable {α β : Type}

theorem bind_eq_ok_iff {x : Except Fault α} {f : α → Except Fault β} {b : β} :
    (x >>= f) = .ok b ↔ ∃ a, x = .ok a ∧ f a = .ok b := by
  cases x with
  | error fault => exact ⟨fun h => (by cases h), fun ⟨a, ha, _⟩ => by cases ha⟩
  | ok a => exact ⟨fun h => ⟨a, rfl, h⟩, fun ⟨a', ha, h⟩ => by cases ha; exact h⟩

theorem seq_eq_ok_iff {x : Except Fault Unit} {y : Except Fault α} {a : α} :
    (do x; y) = .ok a ↔ x = .ok () ∧ y = .ok a := by
  rw [bind_eq_ok_iff]
  exact ⟨fun ⟨_, hx, hy⟩ => ⟨hx, hy⟩, fun ⟨hx, hy⟩ => ⟨(), hx, hy⟩⟩

theorem discard_eq_ok_iff {x : Except Fault α} : discard x = .ok () ↔ ∃ a, x = .ok a := by
  cases x with
  | error fault => exact ⟨fun h => (by cases h), fun ⟨a, ha⟩ => by cases ha⟩
  | ok a => exact ⟨fun _ => ⟨a, rfl⟩, fun _ => rfl⟩

theorem map_eq_ok_iff {x : Except Fault α} {f : α → β} {b : β} :
    f <$> x = .ok b ↔ ∃ a, x = .ok a ∧ f a = b := by
  cases x with
  | error fault => exact ⟨fun h => (by cases h), fun ⟨a, ha, _⟩ => by cases ha⟩
  | ok a =>
      refine ⟨fun h => ⟨a, rfl, Except.ok.inj h⟩, ?_⟩
      rintro ⟨_, ⟨⟩, rfl⟩
      rfl

namespace Codec

theorem read_string_eq_ok_iff {src : Source} {j : Json} {s : String} :
    string.read src j = .ok s ↔ j = .str s := by
  cases j with
  | str t => simp [string]
  | _ => simp [string]

theorem read_integer_eq_ok_iff {name : String} {fits : Int → Bool} {ofInt : Int → α}
    {toInt : α → Int} (hto : ∀ n, fits n = true → toInt (ofInt n) = n)
    (hof : ∀ a, fits (toInt a) = true ∧ ofInt (toInt a) = a) {src : Source} {j : Json} {a : α} :
    (integer name fits ofInt toInt).read src j = .ok a ↔ j = .int (toInt a) := by
  constructor
  · intro h
    simp only [integer] at h
    split at h
    · split at h
      · next n hfits =>
          obtain rfl := Except.ok.inj h
          rw [hto n hfits]
          rfl
      · cases h
    · cases h
  · rintro rfl
    simp only [integer, Json.int, hof a, if_true]

theorem read_int64_eq_ok_iff {src : Source} {j : Json} {n : Int64} :
    int64.read src j = .ok n ↔ j = .int n.toInt := by
  refine read_integer_eq_ok_iff (fun n hfits => ?_) fun n => ⟨?_, n.ofInt_toInt⟩
  · simp only [Bool.and_eq_true, decide_eq_true_eq] at hfits
    exact Int64.toInt_ofInt_of_le hfits.1 hfits.2
  · have hlow := n.le_toInt
    have hhigh := n.toInt_lt
    simp
    omega

theorem read_int32_eq_ok_iff {src : Source} {j : Json} {n : Int32} :
    int32.read src j = .ok n ↔ j = .int n.toInt := by
  refine read_integer_eq_ok_iff (fun n hfits => ?_) fun n => ⟨?_, n.ofInt_toInt⟩
  · simp only [Bool.and_eq_true, decide_eq_true_eq] at hfits
    exact Int32.toInt_ofInt_of_le hfits.1 hfits.2
  · have hlow := n.le_toInt
    have hhigh := n.toInt_lt
    simp
    omega

theorem read_uint8_eq_ok_iff {src : Source} {j : Json} {n : UInt8} :
    uint8.read src j = .ok n ↔ j = .int n.toNat := by
  refine read_integer_eq_ok_iff (fun n hfits => ?_) fun n => ⟨?_, ?_⟩
  · simp only [Bool.and_eq_true, decide_eq_true_eq] at hfits
    simp
    omega
  · have hhigh := n.toNat_lt
    simp
    omega
  · simp

theorem read_uint32_eq_ok_iff {src : Source} {j : Json} {n : UInt32} :
    uint32.read src j = .ok n ↔ j = .int n.toNat := by
  refine read_integer_eq_ok_iff (fun n hfits => ?_) fun n => ⟨?_, ?_⟩
  · simp only [Bool.and_eq_true, decide_eq_true_eq] at hfits
    simp
    omega
  · have hhigh := n.toNat_lt
    simp
    omega
  · simp

end Codec

namespace Fields

theorem forM_eq_ok_iff {ms : List (String × Json)} {f : String × Json → Except Fault Unit} :
    ms.forM f = .ok () ↔ ∀ m ∈ ms, f m = .ok () := by
  refine ⟨fun h => ?_, forM_eq_ok⟩
  induction ms with
  | nil => simp
  | cons m ms ih =>
      obtain ⟨u, hm, hms⟩ := bind_eq_ok_iff.1 (show (f m >>= fun _ => ms.forM f) = .ok () from h)
      exact List.forall_mem_cons.2 ⟨hm, ih hms⟩

theorem ofMembers_eq_ok_iff {f : Fields α} {src : Source} {ms : List (String × Json)} {a : α} :
    f.ofMembers src ms = .ok a ↔
      (∀ m ∈ ms, f.check src m.1 m.2 = .ok ()) ∧ f.present ms = .ok () ∧
        f.build src ms = .ok a := by
  simp only [ofMembers, seq_eq_ok_iff, forM_eq_ok_iff]

theorem check_required_eq_ok_iff {name key : String} {c : Codec α} {src : Source} {j : Json} :
    (required name c).check src key j = .ok () ↔ (key = name → ∃ a, c.read src j = .ok a) := by
  by_cases hkey : key = name
  · simp [required, hkey, discard_eq_ok_iff]
  · simp [required, hkey]

theorem build_required_eq_ok_iff {name : String} {c : Codec α} {src : Source}
    {ms : List (String × Json)} {a : α} :
    (required name c).build src ms = .ok a ↔
      ∃ j, Json.lookup name ms = some j ∧ c.read src j = .ok a := by
  cases hlookup : Json.lookup name ms with
  | none => simp [required, hlookup]
  | some j => simp [required, hlookup]

theorem take_required_eq_ok_iff {name expected : String} {c : Codec α} {src : Source} {index : Nat}
    {items rest : List Json} {a : α} :
    (required name c).take src expected index items = .ok (a, rest) ↔
      ∃ j, items = j :: rest ∧ c.read src j = .ok a := by
  cases items with
  | nil => simp [required]
  | cons j items =>
      simp only [required, bind_eq_ok_iff, pure, Except.pure, Except.ok.injEq, Prod.mk.injEq,
        List.cons.injEq]
      constructor
      · rintro ⟨a, hread, rfl, rfl⟩
        exact ⟨j, ⟨rfl, rfl⟩, hread⟩
      · rintro ⟨j, ⟨rfl, rfl⟩, hread⟩
        exact ⟨a, hread, rfl, rfl⟩

theorem check_and_eq_ok_iff {f : Fields α} {g : Fields β} {src : Source} {key : String} {j : Json} :
    (f.and g).check src key j = .ok () ↔
      f.check src key j = .ok () ∧ g.check src key j = .ok () := by
  simp only [Fields.and, seq_eq_ok_iff]

theorem build_and_eq_ok_iff {f : Fields α} {g : Fields β} {src : Source}
    {ms : List (String × Json)} {a : α} {b : β} :
    (f.and g).build src ms = .ok (a, b) ↔ f.build src ms = .ok a ∧ g.build src ms = .ok b := by
  simp [Fields.and, bind_eq_ok_iff, pure, Except.pure]

theorem take_and_eq_ok_iff {f : Fields α} {g : Fields β} {src : Source} {expected : String}
    {index : Nat} {items rest : List Json} {a : α} {b : β} :
    (f.and g).take src expected index items = .ok ((a, b), rest) ↔
      ∃ tail, f.take src expected index items = .ok (a, tail) ∧
        g.take src expected (index + f.size) tail = .ok (b, rest) := by
  simp only [Fields.and, bind_eq_ok_iff, pure, Except.pure, Except.ok.injEq, Prod.mk.injEq]
  constructor
  · rintro ⟨⟨a, tail⟩, hf, ⟨b, rest⟩, hg, ⟨rfl, rfl⟩, rfl⟩
    exact ⟨tail, hf, hg⟩
  · rintro ⟨tail, hf, hg⟩
    exact ⟨(a, tail), hf, (b, rest), hg, ⟨rfl, rfl⟩, rfl⟩

end Fields

/-- A record can be read from an array if its fields take all of it. -/
theorem Codec.readArray_eq_ok_iff {title : String} {f : Fields α} {src : Source} {items : List Json}
    {a : α} : Codec.readArray title f src items = .ok a ↔
      f.take src s!"struct {title} with {Codec.elements f.size}" 0 items = .ok (a, []) := by
  refine Iff.trans bind_eq_ok_iff ?_
  constructor
  · rintro ⟨⟨a', rest⟩, htake, h⟩
    cases rest with
    | nil =>
        obtain rfl := Except.ok.inj h
        exact htake
    | cons j rest => cases src <;> cases h
  · intro htake
    exact ⟨(a, []), htake, rfl⟩

end Wire

end LanguageServer
