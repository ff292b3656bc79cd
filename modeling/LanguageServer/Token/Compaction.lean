import LanguageServer.Token.Myers

set_option autoImplicit false

/-! # Moving steps together

A script can often be written with fewer runs of changes by sliding a change over equal numbers next
to it. Each deletion, then each insertion, is moved up as far as it goes and down again as far as it
goes, joining changes of its own kind on the way. At last a deletion next to an insertion becomes a
replacement.

A change and one of the other kind swap places without their indices being adjusted. A script moved
like that need not describe its two sequences any more. -/

namespace LanguageServer.Compaction

/-- How many numbers at the end of a kept piece a change ends with too. A deletion has none to
compare. -/
def slideUp (old new : Array UInt32) (change kept : Step) : Nat :=
  if change.kind = .delete then 0
  else Myers.Box.suffixLength old new
    ⟨kept.oldIndex, kept.oldIndex + kept.oldLength,
      change.newIndex, change.newIndex + change.newLength⟩

/-- How many numbers at the start of a kept piece a change starts with too. -/
def slideDown (old new : Array UInt32) (change kept : Step) : Nat :=
  if change.kind = .delete then 0
  else Myers.Box.prefixLength old new
    ⟨kept.oldIndex, kept.oldIndex + kept.oldLength,
      change.newIndex, change.newIndex + change.newLength⟩

/-- The steps with the change at `p` slid over the last `s` numbers of the kept piece before
it, which then stand behind it; a kept piece that is used up goes away. -/
def slideOverBefore (steps : List Step) (p s : Nat) (change kept : Step) : List Step × Nat :=
  let behind : Step := ⟨.equal, kept.oldIndex + kept.oldLength - s,
    change.newIndex + change.newLength - s, s, s⟩
  let steps : List Step := match steps[p + 1]? with
    | some next =>
      if next.kind = .equal then
        steps.set (p + 1)
          { next with
            oldIndex := next.oldIndex - s
            newIndex := next.newIndex - s
            oldLength := next.oldLength + s
            newLength := next.newLength + s }
      else steps.insertIdx (p + 1) behind
    | none => steps.insertIdx (p + 1) behind
  let steps := steps.set p
    { change with oldIndex := change.oldIndex - s, newIndex := change.newIndex - s }
  let kept := { kept with oldLength := kept.oldLength - s, newLength := kept.newLength - s }
  if kept.oldLength = 0 then (steps.eraseIdx (p - 1), p - 1) else (steps.set (p - 1) kept, p)

/-- Move the change at `p` up as far as it goes. Each round takes it one place up or makes the
piece before it shorter. -/
def moveUp (old new : Array UInt32) : (fuel : Nat) → List Step → (p : Nat) → List Step × Nat
  | 0, steps, p => (steps, p)
  | fuel + 1, steps, p =>
    if p = 0 then (steps, p)
    else
      match steps[p]?, steps[p - 1]? with
      | some change, some before =>
        if before.kind = .equal then
          let s := slideUp old new change before
          if 0 < s then
            let (steps, p) := slideOverBefore steps p s change before
            moveUp old new fuel steps p
          else if before.oldLength = 0 then moveUp old new fuel (steps.eraseIdx (p - 1)) (p - 1)
          else (steps, p)
        else if before.kind ≠ change.kind then
          moveUp old new fuel ((steps.set (p - 1) change).set p before) (p - 1)
        else
          let joined := { before with
            oldLength := before.oldLength + change.oldLength
            newLength := before.newLength + change.newLength }
          moveUp old new fuel ((steps.set (p - 1) joined).eraseIdx p) (p - 1)
      | _, _ => (steps, p)

/-- The steps with the change at `p` slid over the first `s` numbers of the kept piece after it,
which then stand before it; a kept piece that is used up goes away. -/
def slideOverAfter (steps : List Step) (p s : Nat) (change kept : Step) : List Step × Nat :=
  let ahead : Step := ⟨.equal, kept.oldIndex, change.newIndex, s, s⟩
  let before : Option Step := if p = 0 then none else steps[p - 1]?
  let (steps, p) : List Step × Nat := match before with
    | some previous =>
      if previous.kind = .equal then
        (steps.set (p - 1)
          { previous with
            oldLength := previous.oldLength + s
            newLength := previous.newLength + s }, p)
      else (steps.insertIdx p ahead, p + 1)
    | none => (steps.insertIdx p ahead, p + 1)
  let steps := steps.set p
    { change with oldIndex := change.oldIndex + s, newIndex := change.newIndex + s }
  let kept := { kept with
    oldIndex := kept.oldIndex + s
    newIndex := kept.newIndex + s
    oldLength := kept.oldLength - s
    newLength := kept.newLength - s }
  if kept.oldLength = 0 then (steps.eraseIdx (p + 1), p) else (steps.set (p + 1) kept, p)

/-- Move the change at `p` down as far as it goes. Each round takes it one place down or makes
the piece after it shorter. -/
def moveDown (old new : Array UInt32) : (fuel : Nat) → List Step → (p : Nat) → List Step × Nat
  | 0, steps, p => (steps, p)
  | fuel + 1, steps, p =>
    match steps[p]?, steps[p + 1]? with
    | some change, some after =>
      if after.kind = .equal then
        let s := slideDown old new change after
        if 0 < s then
          let (steps, p) := slideOverAfter steps p s change after
          moveDown old new fuel steps p
        else if after.oldLength = 0 then moveDown old new fuel (steps.eraseIdx (p + 1)) p
        else (steps, p)
      else if after.kind ≠ change.kind then
        moveDown old new fuel ((steps.set p after).set (p + 1) change) (p + 1)
      else
        let joined := { change with
          oldLength := change.oldLength + after.oldLength
          newLength := change.newLength + after.newLength }
        moveDown old new fuel ((steps.set p joined).eraseIdx (p + 1)) p
    | _, _ => (steps, p)

/-- Move every change of one kind, from place `p` on. -/
def moveKind (old new : Array UInt32) (kind : StepKind) (reach : Nat) :
    (fuel : Nat) → List Step → (p : Nat) → List Step
  | 0, steps, _ => steps
  | fuel + 1, steps, p =>
    match steps[p]? with
    | none => steps
    | some step =>
      if step.kind = kind then
        let (steps, p) := moveUp old new reach steps p
        let (steps, p) := moveDown old new reach steps p
        moveKind old new kind reach fuel steps (p + 1)
      else moveKind old new kind reach fuel steps (p + 1)

/-- The steps being joined: a deletion and an insertion next to each other, or a kept piece. -/
structure Joint where
  deletion : Option Step
  insertion : Option Step
  kept : Option Step

/-- The changes being joined as one step, and the joint without them. -/
def Joint.flush (j : Joint) : List Step × Joint :=
  let rest := { j with deletion := none, insertion := none }
  match j.deletion, j.insertion with
  | some d, some i => ([⟨.replace, d.oldIndex, i.newIndex, d.oldLength, i.newLength⟩], rest)
  | some d, none => ([d], rest)
  | none, some i => ([i], rest)
  | none, none => ([], rest)

/-- Join neighbouring steps of one kind, and a deletion with an insertion beside it. -/
def join : (j : Joint) → List Step → List Step
  | j, [] => j.kept.toList ++ j.flush.1
  | j, s :: rest =>
    if s.kind = .equal then
      let (done, j) := j.flush
      let kept := match j.kept with
        | some k =>
          { k with oldLength := k.oldLength + s.oldLength, newLength := k.newLength + s.newLength }
        | none => s
      done ++ join { j with kept := some kept } rest
    else
      let done := j.kept.toList
      let j := { j with kept := none }
      if s.kind = .delete then
        let deletion := match j.deletion with
          | some d => { d with oldLength := d.oldLength + s.oldLength }
          | none => s
        done ++ join { j with deletion := some deletion } rest
      else
        let insertion := match j.insertion with
          | some i => { i with newLength := i.newLength + s.newLength }
          | none => s
        done ++ join { j with insertion := some insertion } rest

/-- Move the changes of a script together. -/
def compact (old new : Array UInt32) (steps : List Step) : List Step :=
  let reach := steps.length + old.size + new.size + 1
  let steps := moveKind old new .delete reach (reach * reach) steps 0
  let steps := moveKind old new .insert reach (reach * reach) steps 0
  join ⟨none, none, none⟩ steps

end LanguageServer.Compaction
