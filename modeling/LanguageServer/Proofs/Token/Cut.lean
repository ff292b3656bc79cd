import LanguageServer.Token.Myers

set_option autoImplicit false

/-! # A box is cut inside itself

The paths that are grown from the corners of a box may leave it: a path at the right edge still
moves right, one at the bottom still moves down. So it is not plain that the place where two paths
meet, which is where the box is cut, lies inside the box. It does, for a reason that needs only the
reach of the paths on each diagonal, told here as a function from diagonals to numbers:

* a path beyond the right edge has a neighbour, on the second diagonal to its left, that is at most
  one step behind it (`Reached.right`), and a path below the bottom has one on the second diagonal
  to its right (`Reached.below`);
* on the diagonals where paths from the two corners can meet, the paths of all rounds before have
  stayed strictly inside, for otherwise they would have met (`Inside`).

Together they leave no way for a path to be outside when it is found to meet another
(`enter_mem_box`). -/

namespace LanguageServer.Myers

/-! ## What two pieces have in common -/

theorem commonPrefix_le (old new : Array UInt32) (i j limit : Nat) :
    commonPrefix old new i j limit ≤ limit := by
  induction limit generalizing i j with
  | zero => exact Nat.le_refl 0
  | succ limit ih =>
      have := ih (i + 1) (j + 1)
      unfold commonPrefix
      split <;> omega

theorem commonPrefix_eq (old new : Array UInt32) (i j limit : Nat) :
    ∀ t < commonPrefix old new i j limit, old.getD (i + t) 0 = new.getD (j + t) 0 := by
  induction limit generalizing i j with
  | zero => intro t ht; exact absurd ht (Nat.not_lt_zero t)
  | succ limit ih =>
      intro t ht
      unfold commonPrefix at ht
      split at ht
      · next heq =>
          cases t with
          | zero => exact heq
          | succ t =>
              have := ih (i + 1) (j + 1) t (by omega)
              rwa [show i + (t + 1) = i + 1 + t by omega, show j + (t + 1) = j + 1 + t by omega]
      · exact absurd ht (Nat.not_lt_zero t)

theorem commonSuffix_le (old new : Array UInt32) (i j limit : Nat) :
    commonSuffix old new i j limit ≤ limit := by
  induction limit generalizing i j with
  | zero => exact Nat.le_refl 0
  | succ limit ih =>
      have := ih (i - 1) (j - 1)
      unfold commonSuffix
      split <;> omega

/-- The numbers before two ends agree, counted backwards from the ends. -/
theorem commonSuffix_eq (old new : Array UInt32) (i j limit : Nat) (hi : limit ≤ i)
    (hj : limit ≤ j) :
    ∀ t < commonSuffix old new i j limit, old.getD (i - 1 - t) 0 = new.getD (j - 1 - t) 0 := by
  induction limit generalizing i j with
  | zero => intro t ht; exact absurd ht (Nat.not_lt_zero t)
  | succ limit ih =>
      intro t ht
      unfold commonSuffix at ht
      split at ht
      · next heq =>
          cases t with
          | zero => exact heq
          | succ t =>
              have := ih (i - 1) (j - 1) (by omega) (by omega) t (by omega)
              rwa [show i - 1 - (t + 1) = i - 1 - 1 - t by omega,
                show j - 1 - (t + 1) = j - 1 - 1 - t by omega]
      · exact absurd ht (Nat.not_lt_zero t)

theorem Box.prefixLength_le (old new : Array UInt32) (b : Box) :
    b.prefixLength old new ≤ b.oldStop - b.oldStart ∧
      b.prefixLength old new ≤ b.newStop - b.newStart :=
  Nat.le_min.1 (commonPrefix_le old new b.oldStart b.newStart _)

theorem Box.suffixLength_le (old new : Array UInt32) (b : Box) :
    b.suffixLength old new ≤ b.oldStop - b.oldStart ∧
      b.suffixLength old new ≤ b.newStop - b.newStart :=
  Nat.le_min.1 (commonSuffix_le old new b.oldStop b.newStop _)

/-- Pieces that start with the same number have it in common. -/
theorem Box.prefixLength_pos {old new : Array UInt32} {b : Box} (hold : b.oldStart < b.oldStop)
    (hnew : b.newStart < b.newStop) (h : old.getD b.oldStart 0 = new.getD b.newStart 0) :
    0 < b.prefixLength old new := by
  have hlimit : 0 < min (b.oldStop - b.oldStart) (b.newStop - b.newStart) := by omega
  unfold Box.prefixLength
  cases hmin : min (b.oldStop - b.oldStart) (b.newStop - b.newStart) with
  | zero => omega
  | succ limit => rw [commonPrefix, if_pos h]; omega

theorem Box.prefixLength_eq (old new : Array UInt32) (b : Box) :
    ∀ t < b.prefixLength old new,
      old.getD (b.oldStart + t) 0 = new.getD (b.newStart + t) 0 :=
  commonPrefix_eq old new b.oldStart b.newStart _

/-- The numbers that a box ends with in common, counted forwards. -/
theorem Box.suffixLength_eq (old new : Array UInt32) (b : Box) :
    ∀ t < b.suffixLength old new,
      old.getD (b.oldStop - b.suffixLength old new + t) 0
        = new.getD (b.newStop - b.suffixLength old new + t) 0 := by
  intro t ht
  have hle := b.suffixLength_le old new
  have h := commonSuffix_eq old new b.oldStop b.newStop
    (min (b.oldStop - b.oldStart) (b.newStop - b.newStart)) (by omega) (by omega)
    (b.suffixLength old new - 1 - t) (by unfold Box.suffixLength at ht ⊢; omega)
  rwa [show b.oldStop - 1 - (b.suffixLength old new - 1 - t)
      = b.oldStop - b.suffixLength old new + t by omega,
    show b.newStop - 1 - (b.suffixLength old new - 1 - t)
      = b.newStop - b.suffixLength old new + t by omega] at h

/-! ## Rounds of growing

The diagonals of round `d` are those between `-d` and `d` that differ from `d` by an even number. -/

/-- Whether a diagonal belongs to a round. -/
def OnRound (d : Nat) (k : Int) : Prop := -(d : Int) ≤ k ∧ k ≤ d ∧ (k - d) % 2 = 0

theorem mem_diagonals {d : Nat} {k : Int} : k ∈ diagonals d ↔ OnRound d k := by
  unfold diagonals OnRound
  simp only [List.mem_map, List.mem_range]
  constructor
  · rintro ⟨t, ht, rfl⟩
    omega
  · rintro ⟨hlow, hhigh, hparity⟩
    exact ⟨((d - k) / 2).toNat, by omega, by omega⟩

/-- Where a path of round `d` enters a diagonal, by the reach of the round before. -/
def enter (f : Int → Nat) (d : Nat) (k : Int) : Nat :=
  if k = -d ∨ (k ≠ d ∧ f (k - 1) < f (k + 1)) then f (k + 1) else f (k - 1) + 1

/-- A path comes from the diagonal above or from the one to the left, whichever reaches further. -/
theorem enter_cases (f : Int → Nat) {d : Nat} {k : Int} (hk : OnRound (d + 1) k) :
    (OnRound d (k + 1) ∧ enter f (d + 1) k = f (k + 1) ∧
      (OnRound d (k - 1) → f (k - 1) < f (k + 1))) ∨
    (OnRound d (k - 1) ∧ enter f (d + 1) k = f (k - 1) + 1 ∧
      (OnRound d (k + 1) → f (k + 1) ≤ f (k - 1))) := by
  unfold OnRound at *
  unfold enter
  split
  · next h => exact Or.inl ⟨by omega, rfl, by omega⟩
  · next h => exact Or.inr ⟨by omega, rfl, by omega⟩

theorem le_enter_of_above (f : Int → Nat) {d : Nat} {k : Int} (hk : OnRound (d + 1) k)
    (habove : OnRound d (k + 1)) : f (k + 1) ≤ enter f (d + 1) k := by
  rcases enter_cases f hk with ⟨-, henter, -⟩ | ⟨-, henter, hle⟩
  · omega
  · have := hle habove
    omega

theorem le_enter_of_left (f : Int → Nat) {d : Nat} {k : Int} (hk : OnRound (d + 1) k)
    (hleft : OnRound d (k - 1)) : f (k - 1) + 1 ≤ enter f (d + 1) k := by
  rcases enter_cases f hk with ⟨-, henter, hlt⟩ | ⟨-, henter, -⟩
  · have := hlt hleft
    omega
  · omega

/-- What a round does to one diagonal of an `n` by `m` box: the path enters it and then stays where
it is, or follows numbers in common, which does not lead out of the box. -/
def Extends (n m : Nat) (k : Int) (entry reach : Nat) : Prop :=
  entry ≤ reach ∧ (reach = entry ∨ (reach ≤ n ∧ (reach : Int) - k ≤ m))

/-- How far the paths of round `d` may reach in an `n` by `m` box. -/
structure Reached (n m d : Nat) (f : Int → Nat) : Prop where
  lower : ∀ k, OnRound d k → k ≤ f k
  right : ∀ k, OnRound d k → OnRound d (k - 2) → n < f k → f k ≤ f (k - 2) + 1
  below : ∀ k, OnRound d k → OnRound d (k + 2) → (m : Int) < f k - k → f k + 1 ≤ f (k + 2)
  first : f (-d) ≤ n
  last : (f d : Int) - d ≤ m

/-- The paths of the first round follow numbers in common from the corner. -/
theorem Reached.zero {n m : Nat} {f : Int → Nat} (h : Extends n m 0 0 (f 0)) :
    Reached n m 0 f := by
  obtain ⟨-, hreach⟩ := h
  constructor
  · intro k hk
    unfold OnRound at hk
    omega
  · intro k hk hk'
    unfold OnRound at hk hk'
    omega
  · intro k hk hk'
    unfold OnRound at hk hk'
    omega
  · show f 0 ≤ n
    omega
  · show (f 0 : Int) - 0 ≤ m
    omega

theorem Reached.le_enter {n m d : Nat} {f : Int → Nat} (hf : Reached n m d f) {k : Int}
    (hk : OnRound (d + 1) k) : k ≤ enter f (d + 1) k := by
  rcases enter_cases f hk with ⟨hsource, henter, -⟩ | ⟨hsource, henter, -⟩
  · have := hf.lower _ hsource
    omega
  · have := hf.lower _ hsource
    omega

/-- A path beyond the right edge follows nothing in common, so it stands where it entered. -/
theorem Reached.next_right {n m d : Nat} {f g : Int → Nat} (hf : Reached n m d f)
    (hg : ∀ k, OnRound (d + 1) k → Extends n m k (enter f (d + 1) k) (g k)) {k : Int}
    (hk : OnRound (d + 1) k) (hk' : OnRound (d + 1) (k - 2)) (hout : n < g k) :
    g k ≤ g (k - 2) + 1 := by
  have hsource : OnRound d (k - 1) := by unfold OnRound at *; omega
  have hstay : g k = enter f (d + 1) k := by
    rcases (hg k hk).2 with h | h <;> omega
  have hneighbour : f (k - 1) ≤ g (k - 2) := by
    have habove : OnRound d (k - 2 + 1) := by unfold OnRound at *; omega
    have := le_enter_of_above f hk' habove
    have := (hg _ hk').1
    rw [show k - 2 + 1 = k - 1 by omega] at *
    omega
  rcases enter_cases f hk with ⟨habove, henter, -⟩ | ⟨-, henter, -⟩
  · -- entered from above, beyond the edge already
    have hback := hf.right (k + 1) habove (by rwa [show k + 1 - 2 = k - 1 by omega])
    rw [show k + 1 - 2 = k - 1 by omega] at hback
    have := hback (by omega)
    omega
  · omega

/-- A path below the bottom follows nothing in common either. -/
theorem Reached.next_below {n m d : Nat} {f g : Int → Nat} (hf : Reached n m d f)
    (hg : ∀ k, OnRound (d + 1) k → Extends n m k (enter f (d + 1) k) (g k)) {k : Int}
    (hk : OnRound (d + 1) k) (hk' : OnRound (d + 1) (k + 2)) (hout : (m : Int) < g k - k) :
    g k + 1 ≤ g (k + 2) := by
  have hsource : OnRound d (k + 1) := by unfold OnRound at *; omega
  have hstay : g k = enter f (d + 1) k := by
    rcases (hg k hk).2 with h | h <;> omega
  have hneighbour : f (k + 1) + 1 ≤ g (k + 2) := by
    have hleft : OnRound d (k + 2 - 1) := by unfold OnRound at *; omega
    have := le_enter_of_left f hk' hleft
    have := (hg _ hk').1
    rw [show k + 2 - 1 = k + 1 by omega] at *
    omega
  rcases enter_cases f hk with ⟨-, henter, -⟩ | ⟨hleft, henter, -⟩
  · omega
  · -- entered from the left, below the bottom already
    have hback := hf.below (k - 1) hleft (by rwa [show k - 1 + 2 = k + 1 by omega])
    rw [show k - 1 + 2 = k + 1 by omega] at hback
    have := hback (by omega)
    omega

theorem Reached.next {n m d : Nat} {f g : Int → Nat} (hf : Reached n m d f)
    (hg : ∀ k, OnRound (d + 1) k → Extends n m k (enter f (d + 1) k) (g k)) :
    Reached n m (d + 1) g := by
  constructor
  · intro k hk
    have hreach := (hg k hk).1
    have := hf.le_enter hk
    omega
  · intro k hk hk' hout
    exact hf.next_right hg hk hk' hout
  · intro k hk hk' hout
    exact hf.next_below hg hk hk' hout
  · have hk : OnRound (d + 1) (-(d + 1 : Nat)) := by unfold OnRound; omega
    have henter : enter f (d + 1) (-(d + 1 : Nat)) = f (-d) := by
      unfold enter
      rw [if_pos (Or.inl rfl), show -((d + 1 : Nat) : Int) + 1 = -d by omega]
    have := hf.first
    rcases (hg _ hk).2 with h | h <;> omega
  · have hk : OnRound (d + 1) ((d + 1 : Nat) : Int) := by unfold OnRound; omega
    have henter : enter f (d + 1) ((d + 1 : Nat) : Int) = f d + 1 := by
      unfold enter
      rw [if_neg (by omega), show ((d + 1 : Nat) : Int) - 1 = d by omega]
    have := hf.last
    rcases (hg _ hk).2 with h | h <;> omega

/-- The paths of round `d` stay strictly inside on the diagonals at most `w` away from `delta`, the
diagonal of the corner that they grow towards. -/
def Inside (n m d : Nat) (delta w : Int) (f : Int → Nat) : Prop :=
  ∀ k, OnRound d k → -w ≤ k - delta → k - delta ≤ w → f k < n ∧ (f k : Int) - k < m

/-- **A path that may meet another enters its diagonal inside the box.** -/
theorem enter_mem_box {n m d : Nat} {w : Int} {f : Int → Nat} (hf : Reached n m d f)
    (hin : Inside n m d ((n : Int) - m) w f) (hw : 0 ≤ w ∨ (d = 0 ∧ w = -1)) {k : Int}
    (hk : OnRound (d + 1) k)
    (hlow : -(w + 1) ≤ k - ((n : Int) - m)) (hhigh : k - ((n : Int) - m) ≤ w + 1)
    (hparity : (k - ((n : Int) - m) - w - 1) % 2 = 0) :
    enter f (d + 1) k ≤ n ∧ (enter f (d + 1) k : Int) - k ≤ m := by
  rcases enter_cases f hk with ⟨hsource, henter, -⟩ | ⟨hsource, henter, -⟩
  · -- From above. Only the last diagonal of the window can be entered from outside of it.
    by_cases hwindow : k + 1 - ((n : Int) - m) ≤ w
    · have := hin (k + 1) hsource (by omega) hwindow
      omega
    · have hreach : f (k + 1) ≤ n := by
        by_cases hfirst : OnRound d (k - 1)
        · have hinside := hin (k - 1) hfirst (by unfold OnRound at *; omega) (by omega)
          have hback := hf.right (k + 1) hsource (by rwa [show k + 1 - 2 = k - 1 by omega])
          rw [show k + 1 - 2 = k - 1 by omega] at hback
          omega
        · have hedge : k + 1 = -d := by unfold OnRound at *; omega
          rw [hedge]
          exact hf.first
      omega
  · by_cases hwindow : -w ≤ k - 1 - ((n : Int) - m)
    · have := hin (k - 1) hsource hwindow (by omega)
      omega
    · have hreach : (f (k - 1) : Int) - (k - 1) ≤ m := by
        by_cases hlast : OnRound d (k + 1)
        · have hinside := hin (k + 1) hlast (by omega) (by unfold OnRound at *; omega)
          have hback := hf.below (k - 1) hsource (by rwa [show k - 1 + 2 = k + 1 by omega])
          rw [show k - 1 + 2 = k + 1 by omega] at hback
          omega
        · have hedge : k - 1 = d := by unfold OnRound at *; omega
          rw [hedge]
          exact hf.last
      omega

/-! ## Frontiers -/

namespace Frontier

/-- Whether a frontier has a place for every diagonal up to its radius. -/
def IsSized (f : Frontier) : Prop := f.reach.size = 2 * f.radius + 1

theorem get_set {f : Frontier} (hf : f.IsSized) (k k' : Int) (x : Nat)
    (hk : -(f.radius : Int) ≤ k ∧ k ≤ f.radius) (hk' : -(f.radius : Int) ≤ k' ∧ k' ≤ f.radius) :
    (f.set k x).get k' = if k' = k then x else f.get k' := by
  have hsize : (k + f.radius).toNat < f.reach.size := by rw [hf]; omega
  unfold get set
  by_cases h : k' = k
  · subst h
    simp [Array.getD_eq_getD_getElem?, hsize]
  · have hne : (k + f.radius).toNat ≠ (k' + f.radius).toNat := by omega
    simp [Array.getD_eq_getD_getElem?, Array.getElem?_setIfInBounds_ne hne, h]

theorem IsSized.set {f : Frontier} (hf : f.IsSized) (k : Int) (x : Nat) : (f.set k x).IsSized := by
  unfold IsSized Frontier.set at *
  simpa using hf

end Frontier

/-- Growing from either corner is one loop: each diagonal is entered and followed, and the loop ends
with a cut at the first path that meets one from the other corner. -/
def growWith (follow : Int → Nat → Nat) (meets : Int → Nat → Bool) (cut : Int → Nat → Nat × Nat)
    (d : Nat) : List Int → Frontier → Frontier × Option (Nat × Nat)
  | [], f => (f, none)
  | k :: ks, f =>
    let x₀ := f.enter d k
    if meets k x₀ then (f.set k (follow k x₀), some (cut k x₀))
    else growWith follow meets cut d ks (f.set k (follow k x₀))

/-- What is known of a frontier at round `d` before the diagonals `ks` are grown: they belong to the
round and the frontier has a place for each of them. -/
structure Ready (d : Nat) (ks : List Int) (f : Frontier) : Prop where
  sized : f.IsSized
  radius : d + 1 ≤ f.radius
  onRound : ∀ k ∈ ks, OnRound d k

/-- Growing one diagonal of a round does not change where another of the same round is entered. -/
theorem Ready.enter_set {d : Nat} {k k' : Int} {ks : List Int} {f : Frontier}
    (h : Ready d (k :: ks) f) (hk' : k' ∈ ks) (x : Nat) :
    (f.set k x).enter d k' = f.enter d k' := by
  have hk := h.onRound k List.mem_cons_self
  have hk' := h.onRound k' (List.mem_cons_of_mem _ hk')
  have hradius := h.radius
  unfold OnRound at hk hk'
  have hleft := Frontier.get_set h.sized k (k' - 1) x (by omega) (by omega)
  have habove := Frontier.get_set h.sized k (k' + 1) x (by omega) (by omega)
  rw [if_neg (by omega)] at hleft habove
  unfold Frontier.enter
  rw [hleft, habove]

theorem Ready.tail {d : Nat} {k : Int} {ks : List Int} {f : Frontier} (h : Ready d (k :: ks) f)
    (x : Nat) : Ready d ks (f.set k x) :=
  ⟨h.sized.set k x, h.radius, fun k' hk' => h.onRound k' (List.mem_cons_of_mem _ hk')⟩

section Loop

variable {follow : Int → Nat → Nat} {meets : Int → Nat → Bool} {cut : Int → Nat → Nat × Nat}
  {d : Nat} {ks : List Int} {f g : Frontier}

/-- A round without a cut has followed every diagonal from its entry, and none of them met a path
from the other corner. -/
theorem growWith_none (h : Ready d ks f) (hnodup : ks.Nodup)
    (hg : growWith follow meets cut d ks f = (g, none)) :
    g.IsSized ∧ g.radius = f.radius ∧
      (∀ k ∈ ks, g.get k = follow k (f.enter d k) ∧ meets k (f.enter d k) = false) ∧
      ∀ k, -(f.radius : Int) ≤ k → k ≤ f.radius → k ∉ ks → g.get k = f.get k := by
  induction ks generalizing f with
  | nil =>
      obtain ⟨rfl, -⟩ := Prod.mk.inj hg
      exact ⟨h.sized, rfl, fun k hk => absurd hk (by simp), fun k _ _ _ => rfl⟩
  | cons k ks ih =>
      simp only [growWith] at hg
      split at hg
      · exact absurd (Prod.mk.inj hg).2 (by simp)
      · next hmeets =>
          obtain ⟨hnot, hnodup⟩ := List.nodup_cons.1 hnodup
          obtain ⟨hsized, hradius, hgrown, hrest⟩ := ih (h.tail _) hnodup hg
          have hk := h.onRound k List.mem_cons_self
          have hroom := h.radius
          have hset : (f.set k (follow k (f.enter d k))).radius = f.radius := rfl
          rw [hset] at hradius hrest
          unfold OnRound at hk
          refine ⟨hsized, hradius, ?_, ?_⟩
          · intro k' hk'
            rcases List.mem_cons.1 hk' with rfl | hk'
            · rw [hrest k' (by omega) (by omega) hnot,
                Frontier.get_set h.sized _ _ _ (by omega) (by omega), if_pos rfl]
              exact ⟨rfl, by simpa using hmeets⟩
            · have hthis := hgrown k' hk'
              rwa [h.enter_set hk'] at hthis
          · intro k' hlow hhigh hk'
            simp only [List.mem_cons, not_or] at hk'
            obtain ⟨hne, hk'⟩ := hk'
            rw [hrest k' hlow hhigh hk', Frontier.get_set h.sized k _ _ (by omega) ⟨hlow, hhigh⟩,
              if_neg hne]

/-- A cut is made on a diagonal of the round whose path met one from the other corner. -/
theorem growWith_some (h : Ready d ks f) {p : Nat × Nat}
    (hg : (growWith follow meets cut d ks f).2 = some p) :
    ∃ k ∈ ks, meets k (f.enter d k) = true ∧ p = cut k (f.enter d k) := by
  induction ks generalizing f with
  | nil => exact absurd hg (by simp [growWith])
  | cons k ks ih =>
      simp only [growWith] at hg
      split at hg
      · next hmeets =>
          exact ⟨k, List.mem_cons_self, hmeets, (Option.some.inj hg).symm⟩
      · obtain ⟨k', hk', hmeets, hp⟩ := ih (h.tail _) hg
        rw [h.enter_set hk'] at hmeets hp
        exact ⟨k', List.mem_cons_of_mem _ hk', hmeets, hp⟩

end Loop

/-! ## The two corners -/

namespace Box

def oldSize (b : Box) : Nat := b.oldStop - b.oldStart

def newSize (b : Box) : Nat := b.newStop - b.newStart

/-- Where a path from the start gets to along numbers in common. -/
def followForward (old new : Array UInt32) (b : Box) (k : Int) (x₀ : Nat) : Nat :=
  let y₀ := ((x₀ : Int) - k).toNat
  if x₀ < b.oldSize ∧ y₀ < b.newSize then
    x₀ + prefixLength old new { b with oldStart := b.oldStart + x₀, newStart := b.newStart + y₀ }
  else x₀

/-- Where a path from the end gets to along numbers in common. -/
def followBackward (old new : Array UInt32) (b : Box) (k : Int) (x₀ : Nat) : Nat :=
  let y₀ := ((x₀ : Int) - k).toNat
  x₀ + if x₀ < b.oldSize ∧ y₀ < b.newSize then
    suffixLength old new { b with oldStop := b.oldStop - x₀, newStop := b.newStop - y₀ }
  else 0

theorem followForward_extends (old new : Array UInt32) (b : Box) {k : Int} {x₀ : Nat}
    (h : k ≤ x₀) : Extends b.oldSize b.newSize k x₀ (b.followForward old new k x₀) := by
  unfold followForward Extends
  dsimp only
  split
  · have hle := prefixLength_le old new
      { b with oldStart := b.oldStart + x₀, newStart := b.newStart + ((x₀ : Int) - k).toNat }
    dsimp only at hle
    unfold oldSize newSize at *
    omega
  · exact ⟨Nat.le_refl _, Or.inl rfl⟩

theorem followBackward_extends (old new : Array UInt32) (b : Box) {k : Int} {x₀ : Nat}
    (h : k ≤ x₀) : Extends b.oldSize b.newSize k x₀ (b.followBackward old new k x₀) := by
  unfold followBackward Extends
  dsimp only
  split
  · have hle := suffixLength_le old new
      { b with oldStop := b.oldStop - x₀, newStop := b.newStop - ((x₀ : Int) - k).toNat }
    dsimp only at hle
    unfold oldSize newSize at *
    omega
  · exact ⟨Nat.le_refl _, Or.inl rfl⟩

/-- The diagonal on which the two corners of a box lie apart. -/
def delta (b : Box) : Int := (b.oldSize : Int) - b.newSize

end Box

theorem growForward_eq (old new : Array UInt32) (b : Box) (d : Nat) (backward : Frontier)
    (ks : List Int) (f : Frontier) :
    growForward old new b d backward ks f
      = growWith (b.followForward old new)
          (fun k x₀ => decide (b.delta % 2 = 1 ∧ (k - b.delta).natAbs + 1 ≤ d ∧
            b.oldSize ≤ b.followForward old new k x₀ + backward.get (-(k - b.delta))))
          (fun k x₀ => (b.oldStart + x₀, b.newStart + ((x₀ : Int) - k).toNat)) d ks f := by
  induction ks generalizing f with
  | nil => rfl
  | cons k ks ih =>
      simp only [growForward, growWith, decide_eq_true_eq]
      rw [← ih]
      rfl

theorem growBackward_eq (old new : Array UInt32) (b : Box) (d : Nat) (forward : Frontier)
    (ks : List Int) (f : Frontier) :
    growBackward old new b d forward ks f
      = growWith (b.followBackward old new)
          (fun k x₀ => decide (b.delta % 2 = 0 ∧ (k - b.delta).natAbs ≤ d ∧
            b.oldSize ≤ b.followBackward old new k x₀ + forward.get (-(k - b.delta))))
          (fun k x₀ => (b.oldStop - b.followBackward old new k x₀,
            b.newStop - (((x₀ : Int) - k).toNat + (b.followBackward old new k x₀ - x₀))))
        d ks f := by
  induction ks generalizing f with
  | nil => rfl
  | cons k ks ih =>
      simp only [growBackward, growWith, decide_eq_true_eq]
      rw [← ih]
      have hcut : ∀ x₀ s : Nat, x₀ + s - x₀ = s := fun x₀ s => Nat.add_sub_cancel_left ..
      simp only [Box.followBackward, hcut]
      rfl

/-! ## Both corners in turn -/

/-- What the rounds before round `d` leave for it: no path enters a diagonal before its beginning,
and growing from there gives a round again. -/
structure Entering (n m d : Nat) (f : Int → Nat) : Prop where
  lower : ∀ k, OnRound d k → k ≤ enter f d k
  reached : ∀ g : Int → Nat, (∀ k, OnRound d k → Extends n m k (enter f d k) (g k)) →
    Reached n m d g

/-- The paths of round `d` enter inside the box on the diagonals at most `v` away from `delta`. -/
def EntersBox (n m d : Nat) (v : Int) (f : Int → Nat) : Prop :=
  ∀ k, OnRound d k → -v ≤ k - ((n : Int) - m) → k - ((n : Int) - m) ≤ v →
    (k - ((n : Int) - m) - v) % 2 = 0 → enter f d k ≤ n ∧ (enter f d k : Int) - k ≤ m

theorem enter_zero {f : Int → Nat} (hf : f 1 = 0) {k : Int} (hk : OnRound 0 k) :
    k = 0 ∧ enter f 0 k = 0 := by
  have hzero : k = 0 := by unfold OnRound at hk; omega
  subst hzero
  exact ⟨rfl, by simp [enter, hf]⟩

theorem Entering.zero {n m : Nat} {f : Int → Nat} (hf : f 1 = 0) : Entering n m 0 f := by
  constructor
  · intro k hk
    obtain ⟨rfl, henter⟩ := enter_zero hf hk
    omega
  · intro g hg
    have hk : OnRound 0 0 := by unfold OnRound; omega
    have h := hg 0 hk
    rw [(enter_zero hf hk).2] at h
    exact Reached.zero h

theorem EntersBox.zero {n m : Nat} {v : Int} {f : Int → Nat} (hf : f 1 = 0) :
    EntersBox n m 0 v f := by
  intro k hk _ _ _
  obtain ⟨rfl, henter⟩ := enter_zero hf hk
  omega

theorem Reached.entering {n m d : Nat} {f : Int → Nat} (hf : Reached n m d f) :
    Entering n m (d + 1) f :=
  ⟨fun _ hk => hf.le_enter hk, fun _ hg => hf.next hg⟩

theorem Reached.entersBox {n m d : Nat} {w : Int} {f : Int → Nat} (hf : Reached n m d f)
    (hin : Inside n m d ((n : Int) - m) w f) (hw : 0 ≤ w ∨ (d = 0 ∧ w = -1)) :
    EntersBox n m (d + 1) (w + 1) f := by
  intro k hk hlow hhigh hparity
  exact enter_mem_box hf hin hw hk hlow hhigh (by omega)

/-- A round in which no path met one that has come to its own diagonal from the other corner has
stayed inside. -/
theorem Inside.of_not_met {n m d e : Nat} {w : Int} {f g : Int → Nat}
    (hg : ∀ k, OnRound e k → k ≤ g k)
    (hround : ∀ k, OnRound d k → -w ≤ k - ((n : Int) - m) → k - ((n : Int) - m) ≤ w →
      OnRound e (-(k - ((n : Int) - m))) ∧ f k + g (-(k - ((n : Int) - m))) < n) :
    Inside n m d ((n : Int) - m) w f := by
  intro k hk hlow hhigh
  obtain ⟨hother, hnot⟩ := hround k hk hlow hhigh
  have := hg _ hother
  omega

/-- What the rounds before round `d` leave at both corners. -/
structure Grown (b : Box) (r d : Nat) (f g : Frontier) : Prop where
  forwardSized : f.IsSized ∧ f.radius = r
  backwardSized : g.IsSized ∧ g.radius = r
  forward : Entering b.oldSize b.newSize d f.get
  backward : Entering b.oldSize b.newSize d g.get
  backwardLower : ∀ e, d = e + 1 → ∀ k, OnRound e k → k ≤ g.get k
  forwardBox : b.delta % 2 = 1 → EntersBox b.oldSize b.newSize d (d - 1) f.get
  backwardBox : b.delta % 2 = 0 → EntersBox b.oldSize b.newSize d d g.get

theorem diagonals_nodup (d : Nat) : (diagonals d).Nodup := by
  unfold diagonals
  refine List.Pairwise.map _ ?_ List.nodup_range
  intro s t hst
  omega

/-- Whether a place lies in a box. -/
def Box.Contains (b : Box) (p : Nat × Nat) : Prop :=
  (b.oldStart ≤ p.1 ∧ p.1 ≤ b.oldStop) ∧ b.newStart ≤ p.2 ∧ p.2 ≤ b.newStop

section Rounds

variable {old new : Array UInt32} {b : Box} {r d : Nat} {f g : Frontier}

theorem Grown.ready_forward (h : Grown b r d f g) (hr : d + 1 ≤ r) : Ready d (diagonals d) f :=
  ⟨h.forwardSized.1, by rw [h.forwardSized.2]; exact hr, fun _ hk => mem_diagonals.1 hk⟩

theorem Grown.ready_backward (h : Grown b r d f g) (hr : d + 1 ≤ r) : Ready d (diagonals d) g :=
  ⟨h.backwardSized.1, by rw [h.backwardSized.2]; exact hr, fun _ hk => mem_diagonals.1 hk⟩

theorem growForward_mem_box (h : Grown b r d f g) (hr : d + 1 ≤ r)
    (hold : b.oldStart ≤ b.oldStop) (hnew : b.newStart ≤ b.newStop) {p : Nat × Nat}
    (hcut : (growForward old new b d g (diagonals d) f).2 = some p) : b.Contains p := by
  rw [growForward_eq] at hcut
  obtain ⟨k, hk, hmeets, rfl⟩ := growWith_some (h.ready_forward hr) hcut
  obtain ⟨hodd, hnear, -⟩ := of_decide_eq_true hmeets
  have hk := mem_diagonals.1 hk
  have hlower := h.forward.lower k hk
  have hbox := h.forwardBox hodd k hk
  change _ → _ → _ → f.enter d k ≤ _ ∧ (f.enter d k : Int) - k ≤ _ at hbox
  change k ≤ f.enter d k at hlower
  unfold OnRound at hk
  unfold Box.delta at *
  have := hbox (by omega) (by omega) (by omega)
  unfold Box.Contains Box.oldSize Box.newSize at *
  dsimp only
  omega

theorem growForward_round (h : Grown b r d f g) (hr : d + 1 ≤ r) {f' : Frontier}
    (hgrow : growForward old new b d g (diagonals d) f = (f', none)) :
    (f'.IsSized ∧ f'.radius = r) ∧ Reached b.oldSize b.newSize d f'.get ∧
      (b.delta % 2 = 1 → Inside b.oldSize b.newSize d b.delta (d - 1) f'.get) := by
  rw [growForward_eq] at hgrow
  obtain ⟨hsized, hradius, hround, -⟩ :=
    growWith_none (h.ready_forward hr) (diagonals_nodup d) hgrow
  refine ⟨⟨hsized, hradius.trans h.forwardSized.2⟩, ?_, ?_⟩
  · refine h.forward.reached f'.get fun k hk => ?_
    rw [(hround k (mem_diagonals.2 hk)).1]
    exact b.followForward_extends old new (h.forward.lower k hk)
  · intro hodd
    cases d with
    | zero =>
        intro k hk hlow hhigh
        omega
    | succ d =>
        refine Inside.of_not_met (h.backwardLower d rfl) fun k hk hlow hhigh => ?_
        obtain ⟨hfollow, hmeets⟩ := hround k (mem_diagonals.2 hk)
        rw [← hfollow] at hmeets
        have hnot := of_decide_eq_false hmeets
        unfold Box.delta at *
        unfold OnRound at *
        omega

theorem growBackward_mem_box (h : Grown b r d f g) (hr : d + 1 ≤ r)
    (hold : b.oldStart ≤ b.oldStop) (hnew : b.newStart ≤ b.newStop) {f' : Frontier} {p : Nat × Nat}
    (hcut : (growBackward old new b d f' (diagonals d) g).2 = some p) : b.Contains p := by
  rw [growBackward_eq] at hcut
  obtain ⟨k, hk, hmeets, rfl⟩ := growWith_some (h.ready_backward hr) hcut
  obtain ⟨heven, hnear, -⟩ := of_decide_eq_true hmeets
  have hk := mem_diagonals.1 hk
  have hlower := h.backward.lower k hk
  have hbox := h.backwardBox heven k hk
  have hfollow := b.followBackward_extends old new hlower
  change _ → _ → _ → g.enter d k ≤ _ ∧ (g.enter d k : Int) - k ≤ _ at hbox
  change k ≤ g.enter d k at hlower
  change Extends _ _ _ (g.enter d k) (b.followBackward old new k (g.enter d k)) at hfollow
  obtain ⟨hle, hreach⟩ := hfollow
  unfold OnRound at hk
  unfold Box.delta at *
  have := hbox (by omega) (by omega) (by omega)
  unfold Box.Contains Box.oldSize Box.newSize at *
  dsimp only
  omega

theorem growBackward_round (h : Grown b r d f g) (hr : d + 1 ≤ r) {f' g' : Frontier}
    (hf' : Reached b.oldSize b.newSize d f'.get)
    (hgrow : growBackward old new b d f' (diagonals d) g = (g', none)) :
    (g'.IsSized ∧ g'.radius = r) ∧ Reached b.oldSize b.newSize d g'.get ∧
      (b.delta % 2 = 0 → Inside b.oldSize b.newSize d b.delta d g'.get) := by
  rw [growBackward_eq] at hgrow
  obtain ⟨hsized, hradius, hround, -⟩ :=
    growWith_none (h.ready_backward hr) (diagonals_nodup d) hgrow
  refine ⟨⟨hsized, hradius.trans h.backwardSized.2⟩, ?_, ?_⟩
  · refine h.backward.reached g'.get fun k hk => ?_
    rw [(hround k (mem_diagonals.2 hk)).1]
    exact b.followBackward_extends old new (h.backward.lower k hk)
  · intro heven
    refine Inside.of_not_met hf'.lower fun k hk hlow hhigh => ?_
    obtain ⟨hfollow, hmeets⟩ := hround k (mem_diagonals.2 hk)
    rw [← hfollow] at hmeets
    have hnot := of_decide_eq_false hmeets
    unfold Box.delta at *
    unfold OnRound at *
    omega

/-- The rounds are taken in turn until paths meet, and they meet inside the box. -/
theorem growBoth_mem_box (hold : b.oldStart ≤ b.oldStop) (hnew : b.newStart ≤ b.newStop)
    {length : Nat} {p : Nat × Nat} (h : Grown b r d f g) (hr : d + length ≤ r)
    (hcut : growBoth old new b (List.range' d length) f g = some p) : b.Contains p := by
  induction length generalizing d f g with
  | zero => exact absurd hcut (by simp [growBoth])
  | succ length ih =>
      rw [List.range'_succ, growBoth] at hcut
      split at hcut
      · next f' q hforward =>
          obtain rfl := Option.some.inj hcut
          exact growForward_mem_box h (by omega) hold hnew (by rw [hforward])
      · next f' hforward =>
          obtain ⟨hfsized, hfreached, hfinside⟩ := growForward_round h (by omega) hforward
          split at hcut
          · next g' q hbackward =>
              obtain rfl := Option.some.inj hcut
              exact growBackward_mem_box h (by omega) hold hnew (by rw [hbackward])
          · next g' hbackward =>
              obtain ⟨hgsized, hgreached, hginside⟩ :=
                growBackward_round h (by omega) hfreached hbackward
              refine ih ⟨hfsized, hgsized, hfreached.entering, hgreached.entering, ?_, ?_, ?_⟩
                (by omega) hcut
              · intro e he
                obtain rfl : d = e := by omega
                exact hgreached.lower
              · intro hodd
                have hbox := hfreached.entersBox (hfinside hodd) (by omega)
                rwa [show (d : Int) - 1 + 1 = ((d + 1 : Nat) : Int) - 1 by omega] at hbox
              · intro heven
                exact hgreached.entersBox (hginside heven) (by omega)

end Rounds

/-- **A box is cut inside itself.** -/
theorem Box.cut_mem {old new : Array UInt32} {b : Box} (hold : b.oldStart ≤ b.oldStop)
    (hnew : b.newStart ≤ b.newStop) {p : Nat × Nat} (hcut : b.cut old new = some p) :
    b.Contains p := by
  unfold Box.cut at hcut
  dsimp only at hcut
  generalize hhalf : (b.oldStop - b.oldStart + (b.newStop - b.newStart) + 1) / 2 = half at hcut
  have hsized : (Frontier.empty (half + 1)).IsSized := by
    simp [Frontier.IsSized, Frontier.empty]
  have hstart : ((Frontier.empty (half + 1)).set 1 0).get 1 = 0 := by
    rw [Frontier.get_set hsized _ _ _ (by simp [Frontier.empty]; omega)
      (by simp [Frontier.empty]; omega), if_pos rfl]
  rw [List.range_eq_range'] at hcut
  refine growBoth_mem_box hold hnew ⟨⟨hsized.set 1 0, rfl⟩, ⟨hsized.set 1 0, rfl⟩,
    Entering.zero hstart, Entering.zero hstart, ?_, fun _ => EntersBox.zero hstart,
    fun _ => EntersBox.zero hstart⟩ (Nat.le_of_eq (Nat.zero_add _)) hcut
  intro e he
  omega

end LanguageServer.Myers
