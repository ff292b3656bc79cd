import LanguageServer.Text.Bytes

set_option autoImplicit false

/-! # Cutting a text at byte offsets

An offset is a **boundary** of a text if it is the byte length of some characters that the text
begins with. Cutting there gives exactly these characters and the ones behind them, so slices and
splices at boundaries can be read off a text written as `before ++ inside ++ after`. -/

namespace LanguageServer.Text

/-! ## Prefixes and their byte lengths -/

theorem byteLength_cons (c : Char) (cs : List Char) :
    byteLength (c :: cs) = c.utf8Size + byteLength cs := rfl

@[simp] theorem byteLength_nil : byteLength [] = 0 := rfl

theorem byteLength_eq_zero {cs : List Char} : byteLength cs = 0 ↔ cs = [] := by
  cases cs with
  | nil => simp
  | cons c rest =>
      have := c.utf8Size_pos
      simp only [byteLength_cons, List.cons_ne_nil, iff_false]
      omega

theorem takeBytes_zero (cs : List Char) : takeBytes 0 cs = [] := by
  cases cs with
  | nil => rfl
  | cons c rest => simp [takeBytes, Nat.ne_of_gt c.utf8Size_pos]

theorem dropBytes_zero (cs : List Char) : dropBytes 0 cs = cs := by
  cases cs with
  | nil => rfl
  | cons c rest => simp [dropBytes, Nat.ne_of_gt c.utf8Size_pos]

/-- Taking more bytes than some leading characters have takes them all. -/
theorem takeBytes_add (before after : List Char) (n : Nat) :
    takeBytes (byteLength before + n) (before ++ after) = before ++ takeBytes n after := by
  induction before with
  | nil => simp
  | cons c rest ih =>
      have hfit : c.utf8Size ≤ byteLength (c :: rest) + n := by
        rw [byteLength_cons]; omega
      have hrest : byteLength (c :: rest) + n - c.utf8Size = byteLength rest + n := by
        rw [byteLength_cons]; omega
      rw [List.cons_append, takeBytes, if_pos hfit, hrest, ih, List.cons_append]

theorem dropBytes_add (before after : List Char) (n : Nat) :
    dropBytes (byteLength before + n) (before ++ after) = dropBytes n after := by
  induction before with
  | nil => simp
  | cons c rest ih =>
      have hfit : c.utf8Size ≤ byteLength (c :: rest) + n := by
        rw [byteLength_cons]; omega
      have hrest : byteLength (c :: rest) + n - c.utf8Size = byteLength rest + n := by
        rw [byteLength_cons]; omega
      rw [List.cons_append, dropBytes, if_pos hfit, hrest, ih]

@[simp] theorem takeBytes_byteLength (before after : List Char) :
    takeBytes (byteLength before) (before ++ after) = before := by
  simpa [takeBytes_zero] using takeBytes_add before after 0

@[simp] theorem dropBytes_byteLength (before after : List Char) :
    dropBytes (byteLength before) (before ++ after) = after := by
  simpa [dropBytes_zero] using dropBytes_add before after 0

/-- Two ways to cut a text at one offset are the same. -/
theorem append_inj_of_byteLength {a b c d : List Char} (h : a ++ b = c ++ d)
    (hlength : byteLength a = byteLength c) : a = c ∧ b = d := by
  constructor
  · rw [← takeBytes_byteLength a b, h, hlength, takeBytes_byteLength]
  · rw [← dropBytes_byteLength a b, h, hlength, dropBytes_byteLength]

theorem byteLength_le_of_isPrefix {a b : List Char} (h : a <+: b) :
    byteLength a ≤ byteLength b := by
  obtain ⟨rest, rfl⟩ := h
  rw [byteLength_append]
  exact Nat.le_add_right ..

/-! ## Boundaries -/

/-- Whether a character starts at this offset or the text ends there. -/
def IsBoundary (n : Nat) (cs : List Char) : Prop := floorBoundary n cs = n

instance (n : Nat) (cs : List Char) : Decidable (IsBoundary n cs) :=
  inferInstanceAs (Decidable (floorBoundary n cs = n))

/-! ## Slices and splices -/

theorem slice_byteLength (before inside after : List Char) :
    slice (byteLength before) (byteLength before + byteLength inside)
      (before ++ (inside ++ after)) = inside := by
  rw [slice, dropBytes_byteLength, Nat.add_sub_cancel_left, takeBytes_byteLength]

/-- Two boundaries in order cut a text in three. -/
theorem exists_cut {a b : Nat} {cs : List Char} (hab : a ≤ b) (ha : IsBoundary a cs)
    (hb : IsBoundary b cs) :
    ∃ before inside after, cs = before ++ (inside ++ after) ∧ byteLength before = a ∧
      byteLength (before ++ inside) = b := by
  have htake := takeBytes_add (takeBytes a cs) (dropBytes a cs) (b - a)
  have hb' : byteLength (takeBytes a cs) + (b - a) = b := by
    rw [show byteLength (takeBytes a cs) = a from ha]
    omega
  rw [takeBytes_append_dropBytes, hb'] at htake
  refine ⟨takeBytes a cs, takeBytes (b - a) (dropBytes a cs), dropBytes (b - a) (dropBytes a cs),
    ?_, ha, ?_⟩
  · rw [takeBytes_append_dropBytes, takeBytes_append_dropBytes]
  · rw [← htake]
    exact hb

/-! ## Cutting at a value -/

/-- A list is cut in one way at the first place of a value. -/
theorem append_cons_unique {α : Type} {a : α} {before before' after after' : List α}
    (h : a ∉ before) (h' : a ∉ before') (heq : before ++ a :: after = before' ++ a :: after') :
    before = before' ∧ after = after' := by
  induction before generalizing before' with
  | nil =>
      cases before' with
      | nil => exact ⟨rfl, (List.cons.inj heq).2⟩
      | cons b before' => exact absurd ((List.cons.inj heq).1 ▸ List.mem_cons_self) h'
  | cons b before ih =>
      cases before' with
      | nil => exact absurd ((List.cons.inj heq).1 ▸ List.mem_cons_self) h
      | cons b' before' =>
          obtain ⟨rfl, hrest⟩ := List.cons.inj heq
          obtain ⟨rfl, rfl⟩ := ih (fun hmem => h (List.mem_cons_of_mem b hmem))
            (fun hmem => h' (List.mem_cons_of_mem b hmem)) hrest
          exact ⟨rfl, rfl⟩

end LanguageServer.Text
