import SyntaxForest.Proofs.Congruence
import SyntaxForest.Proofs.ExchangedSides

/-!
# Pristine nodes

Whether a node is pristine is asked where a lazy field is occupied on one side of a comparison only.
The question has a recursion of its own, which does not compare anything: the scalar has to be that
of a new node, and every field vacant. It ought to come to the same as a comparison with a new node,
or else two bodies that both count as absent could differ from each other.

It does. A node is pristine just if its tree is acyclic and has the normal form of a new node of
its kind (`pristine_iff`), and a comparison with such a node asks for nothing else
(`matchNodes_pristine_iff`). That the tree is acyclic need not be assumed: a node that has been
found pristine at some number of levels has no more levels than that.

Main statement: `World.pristine_iff_matches_new`.
-/

namespace SyntaxForest

/-- A field in which there is nothing, as far as comparison can tell. -/
def NormalPart.blank : Field → NormalPart
  | .single _ => .absent
  | .sequence _ => .elements []

/-- The normal form of a new node: the scalar that comes with the kind, and nothing in the fields. -/
def NormalForm.blank (k : Kind) : NormalForm := .node (.ofKind k) (k.fields.map NormalPart.blank)

namespace Forest

variable {f g : Forest} {n x y : NodeId} {φ : Field}

/-! ## The normal form of a pristine node -/

/-- A field is vacant just if its part is blank, provided that this is known of what a lazy field
holds. -/
theorem vacant_iff {pristine : NodeId → Bool} {below : NodeId → NormalForm}
    (hlazy : ∀ s, φ = .single s → s.isLazy = true → ∀ a ∈ f.occupants n φ,
      (pristine a = true ↔ f.LeftAlone a)) :
    vacant pristine (f.record n).contents φ = true ↔ f.normalPart below n φ = .blank φ := by
  cases φ with
  | single s =>
    cases ha : f.single n s with
    | none =>
      have ha' : (f.record n).contents.single s = none := ha
      simp [vacant, ha', normalPart_of_none ha, NormalPart.blank]
    | some a =>
      have ha' : (f.record n).contents.single s = some a := ha
      rw [normalPart_of_some ha]
      by_cases hs : s.isLazy = true
      · have hiff := hlazy s rfl hs a (Option.mem_toList.2 ha)
        simp [vacant, ha', hs, hiff, NormalPart.blank]
      · simp [vacant, ha', hs, NormalPart.blank]
  | sequence s =>
    have hempty : f.sequence n s = (f.record n).contents.sequence s := rfl
    simp [vacant, normalPart, NormalPart.blank, hempty]

/-- One level, on which all fields are vacant. -/
theorem pristineWithin_succ {depth : Nat} : f.pristineWithin (depth + 1) n = true ↔
    (f.record n).head = .ofKind (f.kind n) ∧ ∀ φ ∈ (f.kind n).fields,
      vacant (f.pristineWithin depth) (f.record n).contents φ = true := by
  rw [pristineWithin, Bool.and_eq_true, beq_iff_eq, List.all_eq_true]
  rfl

/-- What is found pristine at some number of levels has no more. -/
theorem FitsWithin.of_pristineWithin : ∀ {depth : Nat} {n : NodeId},
    f.pristineWithin depth n = true → f.FitsWithin depth n := by
  intro depth
  induction depth with
  | zero => intro n h; exact absurd h (by simp [pristineWithin])
  | succ depth ih =>
    intro n h c hc
    obtain ⟨φ, hφ, hmem⟩ := mem_children.1 hc
    have hvacant := (pristineWithin_succ.1 h).2 φ hφ
    cases φ with
    | single s =>
      have hs : (f.record n).contents.single s = some c := Option.mem_toList.1 hmem
      simp only [vacant, hs, Bool.and_eq_true] at hvacant
      exact ih hvacant.2
    | sequence s =>
      have hempty : (f.record n).contents.sequence s = [] := List.isEmpty_iff.1 hvacant
      have hmem : c ∈ (f.record n).contents.sequence s := hmem
      rw [hempty] at hmem
      exact absurd hmem List.not_mem_nil

theorem pristineWithin_iff (h : f.Regular) {depth : Nat} (hfits : f.FitsWithin (depth + 1) n) :
    f.pristineWithin (depth + 1) n = true ↔
      f.normalFormWithin (depth + 1) n = .blank (f.kind n) := by
  rw [pristineWithin_succ, normalFormWithin, NormalForm.blank, NormalForm.node.injEq,
    List.map_inj_left]
  refine and_congr_right fun _ => forall₂_congr fun φ hφ => vacant_iff fun s hs hlazy a ha => ?_
  subst hs
  -- the tree fits, so that there is a level left to look at the occupant
  have hfits := hfits a (mem_children.2 ⟨_, hφ, ha⟩)
  cases depth with
  | zero => exact hfits.elim
  | succ depth => exact pristineWithin_eq_true (h.kind_of_isLazy hφ hlazy ha)

/-- **A node is pristine just if its tree is acyclic and has the normal form of a new node.** -/
theorem pristine_iff (h : f.Regular) (hn : n < f.size) :
    f.pristine n = true ↔ f.AcyclicBelow n ∧ f.normalForm n = .blank (f.kind n) := by
  have hiff : f.FitsWithin f.size n →
      (f.pristine n = true ↔ f.normalForm n = .blank (f.kind n)) := by
    intro hfits
    obtain ⟨depth, hsize⟩ := exists_size_eq_succ hn
    rw [hsize] at hfits
    rw [pristine, normalForm, hsize]
    exact pristineWithin_iff h hfits
  constructor
  · intro hpristine
    have hfits := FitsWithin.of_pristineWithin hpristine
    exact ⟨hfits.acyclicBelow, (hiff hfits).1 hpristine⟩
  · rintro ⟨hacyclic, hform⟩
    exact (hiff (hacyclic.fitsWithin h.closed hn)).2 hform

theorem Untouched.pristine_eq (hx : Untouched f g x) (hf : f.Regular) (hg : g.Regular)
    (hsize : f.size ≤ g.size) (hlt : x < f.size) : g.pristine x = f.pristine x := by
  rw [Bool.eq_iff_iff, pristine_iff hg (Nat.lt_of_lt_of_le hlt hsize), pristine_iff hf hlt,
    hx.acyclicBelow_iff hf.closed hlt hsize, hx.kind_eq (.refl hlt)]
  exact and_congr_right fun hacyclic => by rw [hx.normalForm_eq hf.closed hlt hsize hacyclic]

/-! ## Comparison with a pristine node -/

/-- The kind of a node can be read off its normal form. -/
theorem kind_eq_of_normalForm (hn : n < f.size) {k : Kind} (h : f.normalForm n = .blank k) :
    f.kind n = k := by
  obtain ⟨depth, hdepth⟩ := exists_size_eq_succ hn
  rw [normalForm, hdepth, normalFormWithin, NormalForm.blank, NormalForm.node.injEq] at h
  rw [kind, Record.kind, h.1, Head.kind_ofKind]

/-- **What matches a pristine node are the pristine nodes of its kind.** -/
theorem matchNodes_pristine_iff (h : f.Regular) (hx : x < f.size) (hy : y < f.size)
    (hpristine : f.pristine y = true) :
    (f.matchNodes x y).1 = true ↔ f.kind x = f.kind y ∧ f.pristine x = true := by
  obtain ⟨hacyclic, hform⟩ := (pristine_iff h hy).1 hpristine
  rw [matchNodes_iff h hx hy hacyclic, hform, pristine_iff h hx]
  constructor
  · rintro ⟨hacyclicX, hformX⟩
    have hkind := kind_eq_of_normalForm hx hformX
    exact ⟨hkind, hacyclicX, hkind ▸ hformX⟩
  · rintro ⟨hkind, hacyclicX, hformX⟩
    exact ⟨hacyclicX, hkind ▸ hformX⟩

theorem matchNodes_comm (f : Forest) (x y : NodeId) :
    (f.matchNodes y x).1 = (f.matchNodes x y).1 := by
  rw [Bool.eq_iff_iff, matchNodes_eq_true, matchNodes_eq_true, mismatch?, mismatch?,
    evenhanded_mismatchWithin f f.size x y, Option.map_eq_none_iff]

/-! ## New nodes -/

/-- A constructor without operands makes an empty node. -/
theorem construct_empty (f : Forest) (k : Kind) :
    f.construct {} (.ofKind k) [] = (.ok f.size, f.push (.empty k f.size)) := by
  have hchildren : (f.push { head := .ofKind k }).children f.size = [] := by
    rw [children, record_push, if_pos rfl, Record.children_draft]
  have hassemble : ∀ j, ((f.push { head := .ofKind k }).assemble f.size {}).record j =
      (f.push (.empty k f.size)).record j := by
    intro j
    rw [assemble, hchildren, linkAll, List.foldl_nil, record_update, record_push, record_push,
      size_push]
    by_cases hj : j = f.size
    · subst hj
      simp [Record.empty, Record.kind]
    · simp [hj, Ne.symm hj]
  refine Prod.ext rfl (ext_record ?_ hassemble ?_)
  · show ((f.push { head := .ofKind k }).assemble f.size {}).size = _
    rw [size_assemble, size_push, size_push]
  · show ((f.push { head := .ofKind k }).assemble f.size {}).journal = _
    rw [assemble, journal_linkAll, journal_update, journal_push, journal_push]

theorem kind_new (f : Forest) (k : Kind) : (f.push (.empty k f.size)).kind f.size = k := by
  rw [kind, record_push, if_pos rfl, Record.kind, Record.empty, Head.kind_ofKind]

theorem pristine_new (f : Forest) (k : Kind) :
    (f.push (.empty k f.size)).pristine f.size = true := by
  rw [pristine, size_push, pristineWithin_succ, kind_new, record_push, if_pos rfl]
  refine ⟨rfl, fun φ _ => ?_⟩
  cases φ with
  | single s => cases s <;> rfl
  | sequence s => cases s <;> rfl

/-- A node matches a new one of its kind just if it was pristine before. -/
theorem matchNodes_new_iff (hf : f.Regular) (hx : x < f.size)
    (hg : (f.push (.empty (f.kind x) f.size)).Regular) :
    ((f.push (.empty (f.kind x) f.size)).matchNodes x f.size).1 = true ↔ f.pristine x = true := by
  have hnew := pristine_new f (f.kind x)
  have hkind := kind_new f (f.kind x)
  have hsize : (f.push (.empty (f.kind x) f.size)).size = f.size + 1 := size_push ..
  have huntouched : Untouched f (f.push (.empty (f.kind x) f.size)) x := fun m hm => by
    rw [record_push_of_lt hm.lt_size]
  generalize f.push (.empty (f.kind x) f.size) = g at *
  have hle : f.size < g.size := hsize ▸ Nat.lt_succ_self f.size
  rw [matchNodes_pristine_iff hg (Nat.lt_trans hx hle) hle hnew, hkind,
    huntouched.kind_eq (.refl hx), huntouched.pristine_eq hf hg (Nat.le_of_lt hle) hx]
  exact and_iff_right rfl

end Forest

/-! ## Main statement -/

namespace World

open Forest

/-- **The pristine test is a comparison with a new node.** In every reachable forest a new empty
node of the kind of `x` can be made, and `x` was pristine just if it matches the new node, on either
side of the comparison. As for the nodes that are there already: two pristine nodes of one kind
match each other, and a node that matches a pristine one, or is matched by it, is pristine. None of
this depends on the trees being acyclic; where there is something pristine, they are. -/
theorem pristine_iff_matches_new {w : World} (hw : w.Reachable) {x : NodeId}
    (hx : w.forest.IsNode x) :
    let f := w.forest
    (∃ g, f.construct {} (.ofKind (f.kind x)) [] = (.ok f.size, g) ∧
      (f.pristine x = true ↔ (g.matchNodes x f.size).1 = true) ∧
      (f.pristine x = true ↔ (g.matchNodes f.size x).1 = true)) ∧
    (f.pristine x = true → f.AcyclicBelow x) ∧
    ∀ y, f.IsNode y → f.pristine y = true →
      (f.pristine x = true → f.kind x = f.kind y → (f.matchNodes x y).1 = true) ∧
      ((f.matchNodes x y).1 = true → f.pristine x = true) ∧
      ((f.matchNodes y x).1 = true → f.pristine x = true) := by
  intro f
  have hregular : f.Regular := hw.regular
  refine ⟨⟨_, construct_empty f (f.kind x), ?_⟩,
    fun h => ((pristine_iff hregular hx.lt_size).1 h).1, fun y hy hpristine => ?_⟩
  · have hmade : (w.after (.call (.construct {} (.ofKind (f.kind x)) []))).Reachable :=
      Run.move hw ⟨by simp [Call.receiver?], by simp [Call.placed], trivial⟩ trivial
    have hgrown := hmade.regular
    rw [after, call_construct_snd, construct_empty] at hgrown
    have hiff := matchNodes_new_iff hregular hx.lt_size hgrown
    rw [matchNodes_comm _ x]
    exact ⟨hiff.symm, hiff.symm⟩
  · have hiff := matchNodes_pristine_iff hregular hx.lt_size hy.lt_size hpristine
    rw [matchNodes_comm f x y]
    exact ⟨fun h hkind => hiff.2 ⟨hkind, h⟩, fun h => (hiff.1 h).2, fun h => (hiff.1 h).2⟩

/-- Two macro statements without a name, one of which has been asked for its body, and one with a
name. -/
def unnamed : List Move :=
  [.call (.construct {} (.macroStatement "") []),
   .call (.construct {} (.macroStatement "") []),
   .call (.body 1),
   .call (.construct {} (.macroStatement "m") [])]

/-- The body that has been asked for does not show, and the name does. -/
theorem pristine_iff_matches_new_unnamed :
    let f := (unnamed.foldl after {}).forest
    (∃ g, f.construct {} (.ofKind .macroStatement) [] = (.ok 4, g) ∧
      (g.matchNodes 1 4).1 = true ∧ (g.matchNodes 4 1).1 = true ∧ (g.matchNodes 3 4).1 ≠ true) ∧
    f.single 1 .block = some 2 ∧ (f.matchNodes 1 0).1 = true ∧ (f.matchNodes 3 0).1 ≠ true := by
  have hw : (unnamed.foldl after {}).Reachable := .of_allows (.refl _) (by decide +kernel)
  have hpristine : (unnamed.foldl after {}).forest.pristine 1 = true := by decide +kernel
  have hnamed : (unnamed.foldl after {}).forest.pristine 3 ≠ true := by decide +kernel
  obtain ⟨⟨g, hg, hleft, hright⟩, -, hothers⟩ :=
    pristine_iff_matches_new hw (x := 1) (by decide +kernel)
  obtain ⟨⟨g', hg', hleft', -⟩, -, hothers'⟩ :=
    pristine_iff_matches_new hw (x := 3) (by decide +kernel)
  have hkind : ∀ n ∈ [1, 3], (unnamed.foldl after {}).forest.kind n = .macroStatement := by
    decide +kernel
  have hsize : (unnamed.foldl after {}).forest.size = 4 := by decide +kernel
  rw [hkind 1 (by decide), hsize] at hg
  rw [hkind 3 (by decide), hsize] at hg'
  rw [hsize] at hleft hright hleft'
  obtain rfl : g' = g := (Prod.mk.inj (hg'.symm.trans hg)).2
  refine ⟨⟨g', hg, hleft.1 hpristine, hright.1 hpristine, fun h => hnamed (hleft'.2 h)⟩,
    by decide +kernel, ?_, fun h => ?_⟩
  · exact (hothers 0 (by decide +kernel) (by decide +kernel)).1 hpristine (by decide +kernel)
  · exact hnamed ((hothers' 0 (by decide +kernel) (by decide +kernel)).2.1 h)

end World

end SyntaxForest
