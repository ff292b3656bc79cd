import LanguageServer.Proofs.Token.Sweep

set_option autoImplicit false

/-! # Joined changes

After its changes are moved, the steps of a script are joined: between two kept pieces there is one
change, and a deletion beside an insertion is a replacement. `Script.Joined` says what such a script
looks like. Every change but a lone insertion is noted at its place; a lone insertion is noted at
most at its place, and behind the last change before it that inserts something. -/

namespace LanguageServer

namespace Script

/-- A script from a place in two arrays to their ends that is joined. Insertions are noted at `lo`
or behind it. -/
inductive Joined (old new : Array UInt32) : (lo i j : Nat) → List Step → Prop where
  | nil (lo : Nat) : Joined old new lo old.size new.size []
  | equal {lo i j n : Nat} {rest : List Step} (hpos : 0 < n)
      (hagree : ∀ t < n, old.getD (i + t) 0 = new.getD (j + t) 0)
      (hrest : Joined old new lo (i + n) (j + n) rest) :
      Joined old new lo i j (⟨.equal, i, j, n, n⟩ :: rest)
  | delete {lo i j m noted : Nat} {rest : List Step} (hpos : 0 < m)
      (hnext : ∀ s ∈ rest.head?, s.kind = .equal) (hrest : Joined old new lo (i + m) j rest) :
      Joined old new lo i j (⟨.delete, i, noted, m, 0⟩ :: rest)
  | insert {lo i j n noted : Nat} {rest : List Step} (hpos : 0 < n) (hlo : lo ≤ noted)
      (hnoted : noted ≤ i) (hnext : ∀ s ∈ rest.head?, s.kind = .equal)
      (hrest : Joined old new (i + 1) i (j + n) rest) :
      Joined old new lo i j (⟨.insert, noted, j, 0, n⟩ :: rest)
  | replace {lo i j m n : Nat} {rest : List Step} (hm : 0 < m) (hn : 0 < n)
      (hnext : ∀ s ∈ rest.head?, s.kind = .equal)
      (hrest : Joined old new (i + 1) (i + m) (j + n) rest) :
      Joined old new lo i j (⟨.replace, i, j, m, n⟩ :: rest)

/-- Steps at rest behind others whose numbers have the fates `g`, up to the ends of the arrays. -/
structure Remains (old new : Array UInt32) (f g : List Bool) (j : Nat) (steps : List Step) :
    Prop where
  fits : Fits old new g.length j steps
  fates : f = g ++ fates steps
  newSpan : j + newSpan steps = new.size
  rested : Compaction.Rested f (marks (g.count true) steps)

section Remains

variable {old new : Array UInt32} {f g : List Bool} {j : Nat} {s : Step} {rest : List Step}

theorem Remains.tail (h : Remains old new f g j (s :: rest)) :
    Remains old new f (g ++ s.fates) (j + s.newLength) rest := by
  obtain ⟨hfits, hf, hspan, hle, hclears⟩ := h
  have hsub : (marks ((g ++ s.fates).count true) rest).Sublist
      (marks (g.count true) (s :: rest)) := by
    by_cases hequal : s.kind = .equal
    · simp [marks_equal _ _ hequal, Step.fates_of_equal hequal]
    · have hcount : (g ++ s.fates).count true = g.count true := by
        simp [Step.fates_of_ne hequal, List.count_replicate]
      rw [hcount]
      by_cases hinsert : s.kind = .insert
      · rw [marks_insert _ _ hinsert]
        exact List.sublist_cons_self _ _
      · simp [marks_other _ _ hequal hinsert]
  refine ⟨?_, ?_, ?_, fun m hm => hle m (hsub.subset hm), hclears.sublist hsub⟩
  · have := hfits.2
    simpa [Step.fates] using this
  · rw [hf, fates_cons, List.append_assoc]
  · rw [← hspan, Script.newSpan, Nat.add_assoc]

end Remains

end Script

namespace Compaction

open Script

/-! ## One step of joining -/

section Join

variable {d s : Option Step} {e : Step} {rest : List Step}

theorem flush_snd (j : Joint) : j.flush.2 = ⟨none, none, j.kept⟩ := by
  unfold Joint.flush
  split <;> rfl

theorem join_equal (h : e.kind = .equal) :
    join ⟨d, s, none⟩ (e :: rest)
      = (Joint.flush ⟨d, s, none⟩).1 ++ join ⟨none, none, some e⟩ rest := by
  rw [join, if_pos h]
  simp only [flush_snd]

theorem join_kept_equal {k : Step} (h : e.kind = .equal) :
    join ⟨none, none, some k⟩ (e :: rest) = join ⟨none, none, some (merge k e)⟩ rest := by
  rw [join, if_pos h]
  rfl

theorem join_kept_change {k : Step} (h : e.kind ≠ .equal) :
    join ⟨none, none, some k⟩ (e :: rest) = k :: join ⟨none, none, none⟩ (e :: rest) := by
  rw [join, join, if_neg h, if_neg h]
  split <;> rfl

theorem join_delete (h : e.kind = .delete) :
    join ⟨d, s, none⟩ (e :: rest) = join ⟨some (d.elim e fun d =>
      { d with oldLength := d.oldLength + e.oldLength }), s, none⟩ rest := by
  have hne : e.kind ≠ .equal := by rw [h]; decide
  rw [join, if_neg hne]
  simp only [h, if_true]
  cases d <;> rfl

theorem join_insert (h : e.kind = .insert) :
    join ⟨d, s, none⟩ (e :: rest) = join ⟨d, some (s.elim e fun s =>
      { s with newLength := s.newLength + e.newLength }), none⟩ rest := by
  have hne : e.kind ≠ .equal := by rw [h]; decide
  have hne' : e.kind ≠ .delete := by rw [h]; decide
  rw [join, if_neg hne]
  simp only [if_neg hne']
  cases s <;> rfl

/-- Joining from a kept piece on gives a kept piece first. -/
theorem head?_join_kept {k : Step} (hk : k.kind = .equal) (steps : List Step) :
    ∀ e ∈ (join ⟨none, none, some k⟩ steps).head?, e.kind = .equal := by
  induction steps generalizing k with
  | nil =>
      intro e he
      have : e = k := by simpa [join, Joint.flush, eq_comm] using he
      rw [this, hk]
  | cons e rest ih =>
      by_cases hequal : e.kind = .equal
      · rw [join_kept_equal hequal]
        exact ih hk
      · rw [join_kept_change hequal]
        intro e' he'
        have : e' = k := by simpa [eq_comm] using he'
        rw [this, hk]

end Join

/-! ## The changes of one gap -/

section Gap

variable {old new : Array UInt32} {f g : List Bool} {lo j m l : Nat} {d s : Option Step}
  {rest : List Step}

/-- The deletions of a gap joined so far, `m` numbers from `i` on. -/
def Deleted (i m : Nat) (d : Option Step) : Prop :=
  (d = none ∧ m = 0) ∨ ∃ noted, d = some ⟨.delete, i, noted, m, 0⟩ ∧ 0 < m

/-- The insertions of a gap joined so far, `l` numbers from `j` on, which are noted so that `P`
holds. -/
def Inserted (P : Nat → Prop) (j l : Nat) (s : Option Step) : Prop :=
  ∃ noted, s = some ⟨.insert, noted, j, 0, l⟩ ∧ 0 < l ∧ P noted

/-- The changes of a gap become one step, which stands before what comes of the rest. -/
theorem flush_joined {i : Nat} (hd : Deleted i m d)
    (hs : (s = none ∧ l = 0 ∧ Joined old new lo (i + m) (j + l) rest) ∨
      (Inserted (fun noted => lo ≤ noted ∧ (m = 0 → noted ≤ i)) j l s ∧
        Joined old new (i + 1) (i + m) (j + l) rest))
    (hnext : ∀ e ∈ rest.head?, e.kind = .equal) :
    Joined old new lo i j ((Joint.flush ⟨d, s, none⟩).1 ++ rest) := by
  rcases hd with ⟨rfl, rfl⟩ | ⟨noted, rfl, hm⟩
  · rcases hs with ⟨rfl, rfl, hrest⟩ | ⟨⟨noted', rfl, hl, hlo, hle⟩, hrest⟩
    · exact hrest
    · exact .insert hl hlo (hle rfl) hnext hrest
  · rcases hs with ⟨rfl, rfl, hrest⟩ | ⟨⟨noted', rfl, hl, hlo, -⟩, hrest⟩
    · exact .delete hm hnext hrest
    · exact .replace hm hl hnext hrest

/-- The changes of a gap joined so far, with the steps still to come. The gap starts where `g` ends.
While nothing is inserted in it, the insertions to come are noted behind those of earlier gaps; then
those of later gaps are noted behind the start of this one. -/
structure Pending (old new : Array UInt32) (f g : List Bool) (lo j m l : Nat) (d s : Option Step)
    (steps : List Step) : Prop where
  start : gapAt f (g.count true) = g.length
  deleted : Deleted g.length m d
  inserted : (s = none ∧ l = 0 ∧ ∀ a ∈ marks (g.count true) steps, lo ≤ a.noted) ∨
    (Inserted (fun noted => lo ≤ noted ∧ noted ≤ keptAt f (g.count true)) j l s ∧
      ∀ a ∈ marks (g.count true) steps, g.count true < a.kept → g.length < a.noted)
  remains : Remains old new f (g ++ List.replicate m false) (j + l) steps

theorem Pending.delete {e : Step} (h : Pending old new f g lo j m l d s (e :: rest))
    (he : e.kind = .delete) :
    Pending old new f g lo j (m + e.oldLength) l (some (d.elim e fun d =>
      { d with oldLength := d.oldLength + e.oldLength })) s rest := by
  obtain ⟨hstart, hdeleted, hinserted, hremains⟩ := h
  have htail := hremains.tail
  rw [marks_other _ _ (by rw [he]; decide) (by rw [he]; decide)] at hinserted
  obtain ⟨noted, k, rfl, hk⟩ := hremains.fits.1.of_delete he
  refine ⟨hstart, Or.inr ?_, hinserted, ?_⟩
  · rcases hdeleted with ⟨rfl, rfl⟩ | ⟨noted', rfl, hm⟩
    · exact ⟨noted, by simp, Nat.lt_add_left 0 hk⟩
    · exact ⟨noted', rfl, Nat.add_pos_left hm k⟩
  · simpa [Step.fates, List.append_assoc] using htail

theorem Pending.insert {e : Step} (h : Pending old new f g lo j m l d s (e :: rest))
    (he : e.kind = .insert) :
    Pending old new f g lo j m (l + e.newLength) d (some (s.elim e fun s =>
      { s with newLength := s.newLength + e.newLength })) rest := by
  obtain ⟨hstart, hdeleted, hinserted, hremains⟩ := h
  have htail := hremains.tail
  have hcount : (g ++ List.replicate m false).count true = g.count true := by
    simp [List.count_replicate]
  obtain ⟨hle, hclears⟩ := hremains.rested
  rw [hcount, marks_insert _ _ he] at hle hclears
  rw [marks_insert _ _ he] at hinserted
  obtain ⟨noted, k, rfl, hk⟩ := hremains.fits.1.of_insert he
  refine ⟨hstart, hdeleted, Or.inr ?_, ?_⟩
  · rcases hinserted with ⟨rfl, rfl, hlo⟩ | ⟨⟨noted', rfl, hl, hnoted⟩, hlater⟩
    · refine ⟨⟨noted, by simp, Nat.lt_add_left 0 hk, hlo _ List.mem_cons_self,
        hle _ List.mem_cons_self⟩, ?_⟩
      intro a ha hlt
      have := List.rel_of_pairwise_cons hclears ha hlt
      simp only [Mark.Clears, hstart] at this
      omega
    · exact ⟨⟨noted', rfl, Nat.add_pos_left hl k, hnoted⟩,
        fun a ha => hlater a (List.mem_cons_of_mem _ ha)⟩
  · simpa [Step.fates, Nat.add_assoc] using htail

/-- A kept number or the end of the array comes right behind a gap without deletions. -/
theorem keptAt_of_head {f' : List Bool} (h : ∀ b ∈ f'.head?, b = true) :
    keptAt (g ++ f') (g.count true) = g.length := by
  have := keptAt_append g f' 0
  rw [Nat.add_zero] at this
  rw [this]
  cases f' with
  | nil => rfl
  | cons b f' => rw [h b rfl]; rfl

/-- The changes of a gap that is over become one step. -/
theorem Pending.flush {steps rest : List Step} (h : Pending old new f g lo j m l d s steps)
    (hf : ∀ b ∈ (fates steps).head?, b = true) (hnext : ∀ e ∈ rest.head?, e.kind = .equal)
    (hlater : ∀ a ∈ marks (g.count true) steps, g.count true < a.kept)
    (hrest : ∀ lo, (∀ a ∈ marks (g.count true) steps, lo ≤ a.noted) →
      Joined old new lo (g.length + m) (j + l) rest) :
    Joined old new lo g.length j ((Joint.flush ⟨d, s, none⟩).1 ++ rest) := by
  refine flush_joined (l := l) h.deleted ?_ hnext
  rcases h.inserted with ⟨hs, hl, hlo⟩ | ⟨⟨noted, hs, hl, hlo, hle⟩, hbehind⟩
  · exact Or.inl ⟨hs, hl, hrest lo hlo⟩
  · refine Or.inr ⟨⟨noted, hs, hl, hlo, fun hm => ?_⟩, ?_⟩
    · have hfates := h.remains.fates
      rw [hm, List.replicate_zero, List.append_nil] at hfates
      rwa [hfates, keptAt_of_head hf] at hle
    · exact hrest _ fun a ha => hbehind a ha (hlater a ha)

end Gap

/-- The gap behind a kept piece starts at its end. -/
theorem gapAt_of_kept (g f' : List Bool) {n : Nat} (hn : 0 < n) :
    gapAt ((g ++ List.replicate n true) ++ f') ((g ++ List.replicate n true).count true)
      = (g ++ List.replicate n true).length := by
  obtain ⟨k, rfl⟩ : ∃ k, n = k + 1 := ⟨n - 1, by omega⟩
  have hcount : (g ++ List.replicate (k + 1) true).count true
      = (g ++ List.replicate k true).count true + 1 := by
    simp [Nat.add_assoc]
  have hsplit : (g ++ List.replicate (k + 1) true) ++ f'
      = (g ++ List.replicate k true) ++ true :: f' := by
    simp [List.replicate_succ']
  rw [hcount, gapAt, hsplit, keptAt_of_head (by simp)]
  simp [Nat.add_assoc]

/-! ## The whole script -/

section Whole

variable {old new : Array UInt32} {f : List Bool}

/-- What joining gives from inside a gap on. -/
def JoinsGap (old new : Array UInt32) (f : List Bool) (steps : List Step) : Prop :=
  ∀ (g : List Bool) (lo j m l : Nat) (d s : Option Step),
    Pending old new f g lo j m l d s steps →
      Joined old new lo g.length j (join ⟨d, s, none⟩ steps)

/-- What joining gives from a kept piece on. -/
def JoinsKept (old new : Array UInt32) (f : List Bool) (steps : List Step) : Prop :=
  ∀ (g : List Bool) (lo j n : Nat), 0 < n →
    (∀ t < n, old.getD (g.length + t) 0 = new.getD (j + t) 0) →
    (∀ a ∈ marks ((g ++ List.replicate n true).count true) steps, lo ≤ a.noted) →
    Remains old new f (g ++ List.replicate n true) (j + n) steps →
      Joined old new lo g.length j (join ⟨none, none, some ⟨.equal, g.length, j, n, n⟩⟩ steps)

theorem joinsGap_nil (hf : f.length = old.size) : JoinsGap old new f [] := by
  intro g lo j m l d s h
  have hnil : join ⟨d, s, none⟩ [] = (Joint.flush ⟨d, s, none⟩).1 ++ [] := by simp [join]
  have hold := h.remains.fates
  have hnew : j + l = new.size := h.remains.newSpan
  rw [hnil]
  refine h.flush (by simp) (by simp) (by simp [marks]) fun lo _ => ?_
  have hend : g.length + m = old.size := by simp [← hf, hold]
  rw [hend, hnew]
  exact .nil lo

theorem joinsGap_cons {e : Step} {rest : List Step} (hgap : JoinsGap old new f rest)
    (hkept : JoinsKept old new f rest) : JoinsGap old new f (e :: rest) := by
  intro g lo j m l d s h
  have hfits := h.remains.fits.1
  by_cases hequal : e.kind = .equal
  · have htail := h.remains.tail
    rw [join_equal hequal]
    obtain ⟨n, rfl, hpos, hagree⟩ := hfits.of_equal hequal
    have hmarks : marks (g.count true) (⟨.equal, (g ++ List.replicate m false).length, j + l, n, n⟩
        :: rest) = marks (g.count true + n) rest := rfl
    refine h.flush ?_ (head?_join_kept rfl rest) ?_ fun lo hlo => ?_
    · obtain ⟨k, rfl⟩ : ∃ k, n = k + 1 := ⟨n - 1, by omega⟩
      simp [Step.fates, List.replicate_succ]
    · intro a ha
      have := (marks_kept_le _ (hmarks ▸ ha)).1
      omega
    · rw [hmarks] at hlo
      have := hkept (g ++ List.replicate m false) lo (j + l) n hpos hagree
        (by simpa [List.count_replicate] using hlo) (by simpa [Step.fates] using htail)
      simpa using this
  · rcases hfits.kind_of_ne_equal hequal with hdelete | hinsert
    · rw [join_delete hdelete]
      exact hgap _ _ _ _ _ _ _ (h.delete hdelete)
    · rw [join_insert hinsert]
      exact hgap _ _ _ _ _ _ _ (h.insert hinsert)

theorem joinsKept_nil (hf : f.length = old.size) : JoinsKept old new f [] := by
  intro g lo j n hpos hagree _ h
  have hnil : join ⟨none, none, some ⟨.equal, g.length, j, n, n⟩⟩ []
      = [⟨.equal, g.length, j, n, n⟩] := rfl
  have hnew : j + n = new.size := h.newSpan
  have hend : g.length + n = old.size := by simp [← hf, h.fates]
  rw [hnil]
  refine .equal hpos hagree ?_
  rw [hend, hnew]
  exact .nil lo

theorem joinsKept_cons {e : Step} {rest : List Step} (hgap : JoinsGap old new f (e :: rest))
    (hkept : JoinsKept old new f rest) : JoinsKept old new f (e :: rest) := by
  intro g lo j n hpos hagree hlo h
  by_cases hequal : e.kind = .equal
  · have htail := h.tail
    rw [join_kept_equal hequal]
    rw [marks_equal _ _ hequal] at hlo
    obtain ⟨n', rfl, hpos', hagree'⟩ := h.fits.1.of_equal hequal
    have hagree'' : ∀ t < n', old.getD (g.length + n + t) 0 = new.getD (j + n + t) 0 := by
      simpa using hagree'
    refine hkept g lo j (n + n') (by omega) (agree_append hagree hagree'') ?_ ?_
    · simpa [Nat.add_assoc] using hlo
    · simpa [Step.fates, Nat.add_assoc] using htail
  · rw [join_kept_change hequal]
    refine .equal hpos hagree ?_
    have hstart := gapAt_of_kept g (fates (e :: rest)) hpos
    rw [← h.fates] at hstart
    have := hgap (g ++ List.replicate n true) lo (j + n) 0 0 none none
      ⟨hstart, Or.inl ⟨rfl, rfl⟩, Or.inl ⟨rfl, rfl, hlo⟩, by simpa using h⟩
    simpa using this

theorem join_joined (hf : f.length = old.size) (steps : List Step) :
    JoinsGap old new f steps ∧ JoinsKept old new f steps := by
  induction steps with
  | nil => exact ⟨joinsGap_nil hf, joinsKept_nil hf⟩
  | cons e rest ih =>
      have hgap := joinsGap_cons ih.1 ih.2 (e := e)
      exact ⟨hgap, joinsKept_cons hgap ih.2⟩

end Whole

/-- **The script of two arrays with its changes moved together is joined.** -/
theorem compact_script_joined (old new : Array UInt32) :
    Joined old new 0 0 0 (compact old new (Myers.script old new)) := by
  obtain ⟨f, hf, hcovers, hrested⟩ := moved_script old new
  have hremains : Remains old new f [] 0 (moved old new (Myers.script old new)) :=
    ⟨hcovers.fits, hcovers.fates.symm, (Nat.zero_add _).trans hcovers.newSpan, hrested⟩
  exact (join_joined hf _).1 [] 0 0 0 0 none none
    ⟨rfl, Or.inl ⟨rfl, rfl⟩, Or.inl ⟨rfl, rfl, fun a _ => Nat.zero_le _⟩, hremains⟩

end Compaction

end LanguageServer
