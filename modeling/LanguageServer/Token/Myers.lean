import LanguageServer.Token.Script

set_option autoImplicit false

/-! # A shortest script, by divide and conquer

Two sequences are compared piece by piece. What a piece has in common at its two ends is set aside.
For the rest, paths are grown from both corners of the grid of the two sequences, one difference at a
time, until they meet; the piece is cut where they do.

A frontier holds how far the furthest path on each diagonal reaches. -/

namespace LanguageServer.Myers

/-- A piece of the old sequence and a piece of the new one. -/
structure Box where
  oldStart : Nat
  oldStop : Nat
  newStart : Nat
  newStop : Nat
deriving DecidableEq, Repr

/-- How many numbers the piece starts with in common, at most `limit`. -/
def commonPrefix (old new : Array UInt32) (i j : Nat) : (limit : Nat) → Nat
  | 0 => 0
  | limit + 1 =>
    if old.getD i 0 = new.getD j 0 then 1 + commonPrefix old new (i + 1) (j + 1) limit else 0

/-- How many numbers the piece ends with in common, at most `limit`; `i` and `j` are its ends. -/
def commonSuffix (old new : Array UInt32) (i j : Nat) : (limit : Nat) → Nat
  | 0 => 0
  | limit + 1 =>
    if old.getD (i - 1) 0 = new.getD (j - 1) 0 then
      1 + commonSuffix old new (i - 1) (j - 1) limit
    else 0

/-- How many numbers a box starts with in common. -/
def Box.prefixLength (old new : Array UInt32) (b : Box) : Nat :=
  commonPrefix old new b.oldStart b.newStart
    (min (b.oldStop - b.oldStart) (b.newStop - b.newStart))

/-- How many numbers a box ends with in common. -/
def Box.suffixLength (old new : Array UInt32) (b : Box) : Nat :=
  commonSuffix old new b.oldStop b.newStop
    (min (b.oldStop - b.oldStart) (b.newStop - b.newStart))

/-- How far the furthest path on each diagonal reaches, for diagonals from `-radius` to
`radius`. -/
structure Frontier where
  radius : Nat
  reach : Array Nat
deriving DecidableEq, Repr

namespace Frontier

def empty (radius : Nat) : Frontier := ⟨radius, Array.replicate (2 * radius + 1) 0⟩

def get (f : Frontier) (k : Int) : Nat := f.reach.getD (k + f.radius).toNat 0

def set (f : Frontier) (k : Int) (x : Nat) : Frontier :=
  { f with reach := f.reach.setIfInBounds (k + f.radius).toNat x }

/-- Where a path with `d` differences enters diagonal `k`. -/
def enter (f : Frontier) (d : Nat) (k : Int) : Nat :=
  if k = -d ∨ (k ≠ d ∧ f.get (k - 1) < f.get (k + 1)) then f.get (k + 1) else f.get (k - 1) + 1

end Frontier

/-- The diagonals that paths with `d` differences can end on, from the last to the first. -/
def diagonals (d : Nat) : List Int := (List.range (d + 1)).map fun (t : Nat) => (d : Int) - 2 * (t : Int)

/-- Grow the paths from the start; gives the cut if one of them meets a path from the end. -/
def growForward (old new : Array UInt32) (b : Box) (d : Nat) (backward : Frontier) :
    List Int → Frontier → Frontier × Option (Nat × Nat)
  | [], forward => (forward, none)
  | k :: ks, forward =>
    let n := b.oldStop - b.oldStart
    let m := b.newStop - b.newStart
    let delta : Int := (n : Int) - m
    let x₀ := forward.enter d k
    let y₀ := ((x₀ : Int) - k).toNat
    let x :=
      if x₀ < n ∧ y₀ < m then
        x₀ + Box.prefixLength old new
          { b with oldStart := b.oldStart + x₀, newStart := b.newStart + y₀ }
      else x₀
    let forward := forward.set k x
    if delta % 2 = 1 ∧ (k - delta).natAbs + 1 ≤ d ∧ n ≤ x + backward.get (-(k - delta)) then
      (forward, some (b.oldStart + x₀, b.newStart + y₀))
    else growForward old new b d backward ks forward

/-- Grow the paths from the end; gives the cut if one of them meets a path from the start. -/
def growBackward (old new : Array UInt32) (b : Box) (d : Nat) (forward : Frontier) :
    List Int → Frontier → Frontier × Option (Nat × Nat)
  | [], backward => (backward, none)
  | k :: ks, backward =>
    let n := b.oldStop - b.oldStart
    let m := b.newStop - b.newStart
    let delta : Int := (n : Int) - m
    let x₀ := backward.enter d k
    let y₀ := ((x₀ : Int) - k).toNat
    let s :=
      if x₀ < n ∧ y₀ < m then
        Box.suffixLength old new
          { b with oldStop := b.oldStop - x₀, newStop := b.newStop - y₀ }
      else 0
    let backward := backward.set k (x₀ + s)
    if delta % 2 = 0 ∧ (k - delta).natAbs ≤ d ∧
        n ≤ x₀ + s + forward.get (-(k - delta)) then
      (backward, some (b.oldStop - (x₀ + s), b.newStop - (y₀ + s)))
    else growBackward old new b d forward ks backward

/-- Grow paths from both ends, one more difference at a time, until they meet. -/
def growBoth (old new : Array UInt32) (b : Box) :
    List Nat → (forward backward : Frontier) → Option (Nat × Nat)
  | [], _, _ => none
  | d :: ds, forward, backward =>
    match growForward old new b d backward (diagonals d) forward with
    | (_, some cut) => some cut
    | (forward, none) =>
      match growBackward old new b d forward (diagonals d) backward with
      | (_, some cut) => some cut
      | (backward, none) => growBoth old new b ds forward backward

/-- Where to cut a box whose two pieces are not empty and differ at both ends. -/
def Box.cut (old new : Array UInt32) (b : Box) : Option (Nat × Nat) :=
  let half := (b.oldStop - b.oldStart + (b.newStop - b.newStart) + 1) / 2
  let start := (Frontier.empty (half + 1)).set 1 0
  growBoth old new b (List.range (half + 1)) start start

/-- A step that keeps something, if it keeps anything. -/
def equalStep (oldIndex newIndex length : Nat) : List Step :=
  if length = 0 then [] else [⟨.equal, oldIndex, newIndex, length, length⟩]

/-- The script of a box. Each cut makes both boxes smaller, so `fuel` above their size is never
used up. -/
def conquer (old new : Array UInt32) : (fuel : Nat) → Box → List Step
  | fuel, b =>
    let p := b.prefixLength old new
    let inner := { b with oldStart := b.oldStart + p, newStart := b.newStart + p }
    let s := inner.suffixLength old new
    let core := { inner with oldStop := b.oldStop - s, newStop := b.newStop - s }
    let i := core.oldStart
    let j := core.newStart
    let deletion : Step := ⟨.delete, i, j, core.oldStop - i, 0⟩
    let insertion : Step := ⟨.insert, i, j, 0, core.newStop - j⟩
    let middle :=
      if i = core.oldStop ∧ j = core.newStop then []
      else if j = core.newStop then [deletion]
      else if i = core.oldStop then [insertion]
      else
        match fuel, core.cut old new with
        | fuel + 1, some (x, y) =>
          conquer old new fuel ⟨i, x, j, y⟩ ++
            conquer old new fuel ⟨x, core.oldStop, y, core.newStop⟩
        | _, _ => [deletion, insertion]
    equalStep b.oldStart b.newStart p ++ middle ++ equalStep core.oldStop core.newStop s

/-- A shortest script from one sequence to another. -/
def script (old new : Array UInt32) : List Step :=
  conquer old new (old.size + new.size) ⟨0, old.size, 0, new.size⟩

end LanguageServer.Myers
