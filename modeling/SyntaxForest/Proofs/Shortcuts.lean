import SyntaxForest.Proofs.FirstDifferences

/-!
# The shortcut of the comparison

A comparison does not go into a node that it is to compare with itself. Nothing is lost by this,
since there is nothing to be found there: a node differs from itself nowhere. So one level of the
comparison is the same with the shortcut and without (`mismatchWithin_succ`), and so are all levels.

To say so, the comparison is written once more, with a switch for the shortcut, and in the way in
which it goes on: it keeps the path to the place where it is. It makes a step when it enters a
field, marks the step with the index of the element that it has come to, takes the step back when
the field shows no difference, and leaves everything as it is when there is one. That the path is
in order is not said by the type. `Reports` says it: from any path, the comparison gets back to that
path, or stops at one that goes on from it to the difference. A sequence gets back to its step
with an index on it, whatever index that is (`ReportsFrom`).

Main statement: `World.shortcut_unseen`.
-/

namespace SyntaxForest

/-! ## Comparison along a path -/

/-- A comparison that keeps the path to the place where it is, the last step first. Where it finds
a difference it stops with the reason, and does not go back. -/
abbrev Tracking := ExceptT Reason (StateM (List Step))

namespace Tracking

/-- How the comparison ends if it starts at the given path, and at which path it ends. -/
def go (t : Tracking Unit) (path : List Step) : Except Reason Unit × List Step := ExceptT.run t path

/-- Makes a step. -/
def enter (s : Step) : Tracking Unit := modify (s :: ·)

/-- Marks the last step with an index. -/
def mark (i : Nat) : Tracking Unit :=
  modify fun
    | [] => []
    | s :: path => { s with index := some i } :: path

/-- Takes the last step back. -/
def leave : Tracking Unit := modify List.tail

/-- What a comparison that starts at the roots has found. -/
def found (t : Tracking Unit) : Option Mismatch :=
  match t.go [] with
  | (.ok (), _) => none
  | (.error r, path) => some ⟨path.reverse, r⟩

theorem go_bind (t u : Tracking Unit) (path : List Step) :
    (do t; u : Tracking Unit).go path =
      match t.go path with
      | (.ok (), path) => u.go path
      | (.error r, path) => (.error r, path) := by
  rcases h : t.go path with ⟨_ | _, after⟩ <;>
    · show (match t.go path with | (r, after) => ExceptT.bindCont (fun _ => u) r after) = _
      rw [h]
      rfl

end Tracking

namespace Forest

section

variable (pristine : NodeId → Bool) (track : NodeId → NodeId → Tracking Unit)

/-- Compares two lists of elements, the first of which have index `i`. -/
def trackElements : Nat → List NodeId → List NodeId → Tracking Unit
  | i, x :: xs, y :: ys => do
    Tracking.mark i
    track x y
    trackElements (i + 1) xs ys
  | _, _, _ => pure ()

/-- Compares one field of two nodes of one kind, after the step into it. -/
def trackField (a b : Contents) : Field → Tracking Unit
  | .single s =>
    match a.single s, b.single s with
    | none, none => pure ()
    | some x, some y => track x y
    | some x, none | none, some x => if s.isLazy && pristine x then pure () else throw .presence
  | .sequence s =>
    let xs := a.sequence s
    let ys := b.sequence s
    if xs.length = ys.length then trackElements track 0 xs ys
    else throw (.lengths xs.length ys.length)

/-- Compares the given fields of two nodes of kind `k`. -/
def trackFields (k : Kind) (a b : Contents) : List Field → Tracking Unit
  | [] => pure ()
  | φ :: φs => do
    Tracking.enter { kind := k, part := .field φ }
    trackField pristine track a b φ
    Tracking.leave
    trackFields k a b φs

/-- Compares two nodes, given the comparison of what lies below. -/
def trackHere (a b : Record) : Tracking Unit :=
  if a.kind ≠ b.kind then throw (.kinds a.kind b.kind)
  else do
    trackFields pristine track a.kind a.contents b.contents a.kind.sharedFields
    if a.head ≠ b.head then do
      Tracking.enter { kind := a.kind, part := .scalar }
      throw .values
    else
      trackFields pristine track a.kind a.contents b.contents a.kind.ownFields

end

/-- Compares two nodes, looking down the given number of levels. With the shortcut, a node is not
compared with itself. -/
def trackWithin (f : Forest) (shortcut : Bool) : Nat → NodeId → NodeId → Tracking Unit
  | 0, _, _ => pure ()
  | depth + 1, x, y =>
    if shortcut ∧ x = y then pure ()
    else trackHere f.pristine (trackWithin f shortcut depth) (f.record x) (f.record y)

end Forest

/-! ## The path is in order -/

namespace Tracking

/-- From any path, the comparison comes to the given difference, at the path of the difference below
the one where it started. If there is none, it is back at where it started. -/
def Reports (t : Tracking Unit) (m? : Option Mismatch) : Prop :=
  ∀ path, t.go path =
    match m? with
    | none => (.ok (), path)
    | some m => (.error m.reason, m.path.reverse ++ path)

/-- Where a comparison ends that starts at the path with the last step `s`: at the given difference,
whose path has this step, or else at the step itself, up to its index. -/
def EndsFrom (s : Step) (path : List Step) (m? : Option Mismatch)
    (r : Except Reason Unit × List Step) : Prop :=
  match m? with
  | none => ∃ i, r = (.ok (), { s with index := i } :: path)
  | some m => r = (.error m.reason, m.path.reverse ++ path)

/-- After the step `s`, the comparison comes to the given difference, or back to the step. -/
def ReportsFrom (s : Step) (t : Tracking Unit) (m? : Option Mismatch) : Prop :=
  ∀ path, EndsFrom s path m? (t.go (s :: path))

variable {t u : Tracking Unit} {m? n? : Option Mismatch} {s : Step}

theorem reports_pure : Reports (pure ()) none := fun _ => rfl

theorem reports_throw (r : Reason) : Reports (throw r) (some (.here r)) := fun _ => rfl

/-- A difference that has been found is not looked for any more. -/
theorem Reports.bind (ht : Reports t m?) (hu : Reports u n?) :
    Reports (do t; u) (m?.or n?) := by
  intro path
  rw [go_bind, ht path]
  cases m? with
  | none => exact hu path
  | some m => rfl

/-- What is found below a step. -/
theorem Reports.from (ht : Reports t m?) : ReportsFrom s t (m?.map (·.below s)) := by
  intro path
  rw [ht (s :: path)]
  cases m? with
  | none => exact ⟨s.index, rfl⟩
  | some m => simp only [Option.map_some, EndsFrom, Mismatch.below, List.reverse_cons,
      List.append_assoc, List.singleton_append]

/-- A step, what is found from there, the step back, and what comes then. -/
theorem ReportsFrom.bind (ht : ReportsFrom s t m?) (hu : Reports u n?) :
    Reports (do enter s; t; leave; u) (m?.or n?) := by
  intro path
  have hgo := ht path
  have henter : (do enter s; t; leave; u : Tracking Unit).go path =
      (do t; leave; u : Tracking Unit).go (s :: path) := rfl
  rw [henter, go_bind]
  cases m? with
  | none =>
    obtain ⟨i, hgo⟩ := hgo
    rw [hgo]
    exact hu path
  | some m =>
    rw [show t.go (s :: path) = _ from hgo]
    rfl

theorem Reports.found_eq (ht : Reports t m?) : t.found = m? := by
  rw [found, ht []]
  cases m? with
  | none => rfl
  | some m => simp

end Tracking

namespace Forest

open Tracking

variable {f : Forest} {x y : NodeId} {k : Kind} {pristine : NodeId → Bool}
  {track : NodeId → NodeId → Tracking Unit} {differ : NodeId → NodeId → Option Mismatch}

/-! ## One level -/

section

variable (h : ∀ x y, Reports (track x y) (differ x y))

include h

theorem reportsFrom_trackElements {s : SequenceField} {xs ys : List NodeId} : ∀ i j,
    ReportsFrom ⟨k, .field (.sequence s), j⟩ (trackElements track i xs ys)
      (differElements differ k s i xs ys) := by
  induction xs generalizing ys with
  | nil => intro i j path; exact ⟨j, rfl⟩
  | cons x xs ih =>
    intro i j path
    cases ys with
    | nil => exact ⟨j, rfl⟩
    | cons y ys =>
      -- the mark of the element before is written over
      have hmark : (trackElements track i (x :: xs) (y :: ys)).go
          (⟨k, .field (.sequence s), j⟩ :: path) =
          (do track x y; trackElements track (i + 1) xs ys : Tracking Unit).go
            (⟨k, .field (.sequence s), some i⟩ :: path) := rfl
      rw [hmark, go_bind, h x y, differElements]
      cases differ x y with
      | none => exact ih (i + 1) (some i) path
      | some m =>
        simp only [EndsFrom, Mismatch.below, List.reverse_cons, List.append_assoc,
          List.singleton_append]

theorem reportsFrom_trackField (a b : Contents) (φ : Field) :
    ReportsFrom { kind := k, part := .field φ } (trackField pristine track a b φ)
      (differField pristine differ k a b φ) := by
  have hthrow : ∀ r, ReportsFrom { kind := k, part := .field φ } (throw r)
      (some ⟨[{ kind := k, part := .field φ }], r⟩) := fun r => (reports_throw r).from
  have hpure : ReportsFrom { kind := k, part := .field φ } (pure ()) none := reports_pure.from
  cases φ with
  | single s =>
    cases ha : a.single s with
    | none =>
      cases hb : b.single s with
      | none =>
        simp only [trackField, differField, ha, hb]
        exact hpure
      | some y =>
        simp only [trackField, differField, ha, hb]
        split
        · exact hpure
        · exact hthrow _
    | some x =>
      cases hb : b.single s with
      | none =>
        simp only [trackField, differField, ha, hb]
        split
        · exact hpure
        · exact hthrow _
      | some y =>
        simp only [trackField, differField, ha, hb]
        exact (h x y).from
  | sequence s =>
    simp only [trackField, differField]
    split
    · exact reportsFrom_trackElements h 0 none
    · exact hthrow _

theorem reports_trackFields (a b : Contents) (φs : List Field) :
    Reports (trackFields pristine track k a b φs) (differFields pristine differ k a b φs) := by
  induction φs with
  | nil => exact reports_pure
  | cons φ φs ih =>
    rw [differFields_cons]
    exact (reportsFrom_trackField h a b φ).bind ih

/-- One level of the comparison along a path comes to the first difference of the two nodes. -/
theorem reports_trackHere (a b : Record) :
    Reports (trackHere pristine track a b) (differHere pristine differ a b) := by
  rw [trackHere]
  by_cases hkind : a.kind = b.kind
  · rw [if_neg (not_not_intro hkind), differHere_of_kind_eq hkind]
    have hfields : ∀ φs, Reports (trackFields pristine track a.kind a.contents b.contents φs)
        (differFields pristine differ a.kind a.contents b.contents φs) :=
      reports_trackFields h a.contents b.contents
    refine (hfields a.kind.sharedFields).bind ?_
    by_cases hhead : a.head = b.head
    · rw [if_neg (not_not_intro hhead), if_neg (not_not_intro hhead)]
      exact hfields a.kind.ownFields
    · -- the step to the scalar is made for the sake of the path only
      rw [if_pos hhead, if_pos hhead]
      exact fun _ => rfl
  · rw [if_pos hkind, differHere, if_pos hkind]
    exact reports_throw _

end

/-! ## All levels -/

/-- A node does not differ from itself at any level. -/
theorem differHere_self (h : ∀ c, differ c c = none) (r : Record) :
    differHere pristine differ r r = none := by
  refine differHere_eq_none.2 ⟨rfl, fun φ _ => differField_of_forall₂ ?_⟩
  exact List.forall₂_same.2 fun c _ => h c

/-- **One level of the comparison is the same without the shortcut.** -/
theorem mismatchWithin_succ (depth : Nat) (x y : NodeId) : f.mismatchWithin (depth + 1) x y =
    differHere f.pristine (f.mismatchWithin depth) (f.record x) (f.record y) := by
  rw [mismatchWithin]
  split
  · next hsame => rw [hsame, differHere_self (mismatchWithin_self f depth)]
  · rfl

/-- The comparison along a path comes to the first difference, with the shortcut and without. -/
theorem reports_trackWithin (f : Forest) (shortcut : Bool) : ∀ (depth : Nat) (x y : NodeId),
    Reports (f.trackWithin shortcut depth x y) (f.mismatchWithin depth x y) := by
  intro depth
  induction depth with
  | zero => intro x y; exact reports_pure
  | succ depth ih =>
    intro x y
    rw [trackWithin]
    split
    · next hsame =>
      rw [hsame.2, mismatchWithin_self]
      exact reports_pure
    · rw [mismatchWithin_succ]
      exact reports_trackHere ih (f.record x) (f.record y)

end Forest

/-! ## Main statement -/

namespace World

open Forest Tracking

/-- **The shortcut is not to be seen.** In every reachable forest, let `a` and `b` be nodes of
acyclic trees, whatever nodes the trees share with each other or hold more than once. The comparison
along a path, with the shortcut or without it at any level, finds just what the comparison finds:
the same path and the same reason, or nothing. From any other path it ends at the same place below,
or gets back to where it started. There may be as many levels as the tree needs; as many as there
are records will do. -/
theorem shortcut_unseen {w : World} (hw : w.Reachable) {a b : NodeId}
    (ha : w.forest.IsNode a) (hacyclicA : w.forest.AcyclicBelow a) :
    w.forest.FitsWithin w.forest.size a ∧
      ∀ (shortcut : Bool) (depth : Nat), w.forest.FitsWithin depth a →
        (w.forest.trackWithin shortcut depth a b).found = w.forest.mismatch? a b ∧
          ∀ path, (w.forest.trackWithin shortcut depth a b).go path =
            match w.forest.mismatch? a b with
            | none => (.ok (), path)
            | some m => (.error m.reason, m.path.reverse ++ path) := by
  have hsize := hacyclicA.fitsWithin hw.regular.closed ha.lt_size
  refine ⟨hsize, fun shortcut depth hdepth => ?_⟩
  have hlevels : w.forest.mismatchWithin depth a b = w.forest.mismatch? a b := by
    rcases Nat.le_total depth w.forest.size with hle | hle
    · exact (hdepth.mismatchWithin_eq b hle).symm
    · exact hsize.mismatchWithin_eq b hle
  have hreports := reports_trackWithin w.forest shortcut depth a b
  rw [hlevels] at hreports
  exact ⟨hreports.found_eq, hreports⟩

/-- Two invocations that share their first argument, in two blocks that share their first
statement: the shortcut is taken at two levels before the difference is found. -/
theorem shortcut_unseen_twoInvocations :
    let f := (twoInvocations.foldl after {}).forest
    (f.AcyclicBelow 5 ∧ f.FitsWithin 4 5) ∧
    (f.children 5).head? = (f.children 9).head? ∧ (f.children 3).head? = (f.children 7).head? ∧
    ∀ shortcut, (f.trackWithin shortcut 4 5 9).found =
      some ⟨[⟨.block, .field (.sequence .statements), some 1⟩,
        ⟨.expressionStatement, .field (.single .expression), none⟩,
        ⟨.methodInvocation, .field (.sequence .arguments), some 1⟩,
        ⟨.reference, .scalar, none⟩], .values⟩ := by
  have hw : (twoInvocations.foldl after {}).Reachable := .of_allows (.refl _) (by decide +kernel)
  have hacyclic : (twoInvocations.foldl after {}).forest.AcyclicBelow 5 := by decide +kernel
  have hdepth : (twoInvocations.foldl after {}).forest.FitsWithin 4 5 := by
    simp only [FitsWithin]
    decide +kernel
  refine ⟨⟨hacyclic, hdepth⟩, by decide +kernel, by decide +kernel, fun shortcut => ?_⟩
  rw [((shortcut_unseen hw (b := 9) (by decide +kernel) hacyclic).2 shortcut 4 hdepth).1]
  decide +kernel

end World

end SyntaxForest
