import SyntaxForest.Proofs.Worlds

/-!
# Normal forms of trees

Matching is equality of something. The `NormalForm` of a tree is what is left when everything
that comparison disregards is forgotten: identities, links, who else holds a node, where it was
read and what is noted on it. What stays is the head of every node and, field by field, whether
the field is occupied and by what. A body that was asked for and left alone is forgotten too:
a lazy field whose occupant is an empty block without a modifier counts as absent.

The comparison does not compute normal forms. It stops at the first difference, does not look
at a node that it is to compare with itself, and asks whether an occupant is pristine only when
the field is occupied on one side. `mismatchWithin_eq_none` says that it comes to the same.
The delicate case is that of two bodies, one of them left alone: there the comparison goes into
both, while the normal form of one is absent. A body that is not left alone differs from one
that is at the first level already, so that both come to a difference.

Going down stops at a number of levels, and `normalForm_eq` says that this cannot be seen: the
normal form of an acyclic tree is made of the normal forms of its children.
-/

namespace SyntaxForest

mutual

/-- A tree as far as comparison can tell: the head, and one part for each field of its kind. -/
inductive NormalForm
  | node (head : Head) (parts : List NormalPart)

/-- What a field holds, as far as comparison can tell. -/
inductive NormalPart
  | absent
  | present (t : NormalForm)
  | elements (ts : List NormalForm)

end

/-- A block has no scalar. -/
theorem Head.eq_block {h : Head} (hkind : h.kind = .block) : h = .block := by
  cases h with
  | block => rfl
  | _ => exact absurd hkind (by simp [Head.kind])

namespace Forest

/-- The node is a block without a modifier and without statements. -/
def LeftAlone (f : Forest) (n : NodeId) : Prop :=
  f.kind n = .block ∧ f.single n .modifier = none ∧ f.sequence n .statements = []

instance (f : Forest) (n : NodeId) : Decidable (f.LeftAlone n) :=
  inferInstanceAs (Decidable (_ ∧ _ ∧ _))

/-- The part of a field, given the normal forms of its occupants. -/
def normalPart (f : Forest) (below : NodeId → NormalForm) (n : NodeId) : Field → NormalPart
  | .single s =>
    match f.single n s with
    | none => .absent
    | some x => if s.isLazy ∧ f.LeftAlone x then .absent else .present (below x)
  | .sequence s => .elements ((f.sequence n s).map below)

/-- The normal form of a tree, down to the given number of levels. -/
def normalFormWithin (f : Forest) : Nat → NodeId → NormalForm
  | 0, n => .node (f.record n).head []
  | depth + 1, n =>
    .node (f.record n).head ((f.kind n).fields.map (f.normalPart (normalFormWithin f depth) n))

/-- The normal form of a tree. -/
def normalForm (f : Forest) (n : NodeId) : NormalForm := f.normalFormWithin f.size n

variable {f : Forest} {n x y : NodeId} {s : SingleField} {below : NodeId → NormalForm}

theorem normalPart_of_none (h : f.single n s = none) :
    f.normalPart below n (.single s) = .absent := by
  simp only [normalPart, h]

theorem normalPart_of_some (h : f.single n s = some x) :
    f.normalPart below n (.single s) =
      if s.isLazy ∧ f.LeftAlone x then .absent else .present (below x) := by
  simp only [normalPart, h]

/-! ## The number of levels -/

theorem normalPart_congr {a b : NodeId → NormalForm} {φ : Field}
    (h : ∀ c ∈ f.occupants n φ, a c = b c) : f.normalPart a n φ = f.normalPart b n φ := by
  cases φ with
  | single s =>
    cases hx : f.single n s with
    | none => rw [normalPart_of_none hx, normalPart_of_none hx]
    | some x =>
      have hmem : x ∈ f.occupants n (.single s) := Option.mem_toList.2 hx
      rw [normalPart_of_some hx, normalPart_of_some hx, h x hmem]
  | sequence s => exact congrArg NormalPart.elements (List.map_congr_left h)

/-- More levels than the tree has make no difference. -/
theorem FitsWithin.normalFormWithin_eq : ∀ {depth : Nat} {n : NodeId}, f.FitsWithin depth n →
    ∀ {more : Nat}, depth ≤ more → f.normalFormWithin more n = f.normalFormWithin depth n := by
  intro depth
  induction depth with
  | zero => intro n hn; exact hn.elim
  | succ depth ih =>
    intro n hn more hle
    cases more with
    | zero => exact absurd hle (Nat.not_succ_le_zero _)
    | succ more =>
      simp only [normalFormWithin]
      refine congrArg _ (List.map_congr_left fun φ hφ => normalPart_congr fun c hc => ?_)
      exact ih (hn c (mem_children.2 ⟨φ, hφ, hc⟩)) (Nat.le_of_succ_le_succ hle)

/-- **The normal form of an acyclic tree is made of those of its children.** -/
theorem normalForm_eq (hclosed : f.Closed) (hn : n < f.size) (hacyclic : f.AcyclicBelow n) :
    f.normalForm n =
      .node (f.record n).head ((f.kind n).fields.map (f.normalPart f.normalForm n)) := by
  have hfits := hacyclic.fitsWithin hclosed hn
  unfold normalForm
  generalize hsize : f.size = size at hfits
  cases size with
  | zero => exact hfits.elim
  | succ depth =>
    rw [normalFormWithin]
    refine congrArg _ (List.map_congr_left fun φ hφ => normalPart_congr fun c hc => ?_)
    have hc := hfits c (mem_children.2 ⟨φ, hφ, hc⟩)
    exact (hc.normalFormWithin_eq (Nat.le_succ _)).symm

/-! ## Bodies that were left alone -/

/-- The normal form of an empty block without a modifier. -/
def bareBlock : NormalForm := .node .block [.absent, .elements []]

theorem normalFormWithin_eq_bareBlock {depth : Nat} :
    f.normalFormWithin (depth + 1) x = bareBlock ↔ f.LeftAlone x := by
  have hfields : Kind.block.fields = [.single .modifier, .sequence .statements] := rfl
  have hmodifier : f.normalPart (f.normalFormWithin depth) x (.single .modifier) = .absent ↔
      f.single x .modifier = none := by
    cases hm : f.single x .modifier with
    | none => simp [normalPart_of_none hm]
    | some m => simp [normalPart_of_some hm, SingleField.isLazy]
  have hstatements : f.normalPart (f.normalFormWithin depth) x (.sequence .statements) =
      .elements [] ↔ f.sequence x .statements = [] := by
    simp [normalPart]
  simp only [normalFormWithin, bareBlock, NormalForm.node.injEq, LeftAlone]
  constructor
  · rintro ⟨hhead, hparts⟩
    have hkind : f.kind x = .block := congrArg Head.kind hhead
    rw [hkind, hfields] at hparts
    simp only [List.map_cons, List.map_nil, List.cons.injEq, and_true] at hparts
    exact ⟨hkind, hmodifier.1 hparts.1, hstatements.1 hparts.2⟩
  · rintro ⟨hkind, hm, hs⟩
    refine ⟨Head.eq_block hkind, ?_⟩
    rw [hkind, hfields]
    simp only [List.map_cons, List.map_nil, hmodifier.2 hm, hstatements.2 hs]

/-- A block is pristine just if it has been left alone: there is nothing lazy to look into. -/
theorem pristineWithin_eq_true {depth : Nat} (hkind : f.kind x = .block) :
    f.pristineWithin (depth + 1) x = true ↔ f.LeftAlone x := by
  have hfields : Kind.block.fields = [.single .modifier, .sequence .statements] := rfl
  have hhead : (f.record x).head = .block := Head.eq_block hkind
  have hkind' : (f.record x).kind = .block := hkind
  rw [LeftAlone, pristineWithin, hkind', hfields]
  simp only [hhead, hkind, Head.ofKind, beq_self_eq_true, Bool.true_and, List.all_cons,
    List.all_nil, Bool.and_true, Bool.and_eq_true, true_and, single, sequence, vacant]
  cases (f.record x).contents.single .modifier <;> simp [SingleField.isLazy]

theorem pristine_eq_true (hx : x < f.size) (hkind : f.kind x = .block) :
    f.pristine x = true ↔ f.LeftAlone x := by
  obtain ⟨depth, hdepth⟩ := exists_size_eq_succ hx
  rw [pristine, hdepth]
  exact pristineWithin_eq_true hkind

/-! ## Comparison -/

theorem forall₂_congr_mem {R S : NodeId → NodeId → Prop} {xs ys : List NodeId}
    (h : ∀ a ∈ xs, ∀ b ∈ ys, (R a b ↔ S a b)) : List.Forall₂ R xs ys ↔ List.Forall₂ S xs ys := by
  induction xs generalizing ys with
  | nil => cases ys <;> simp
  | cons x xs ih =>
    cases ys with
    | nil => simp
    | cons y ys =>
      rw [List.forall₂_cons, List.forall₂_cons, h x List.mem_cons_self y List.mem_cons_self]
      exact and_congr_right fun _ => ih fun a ha b hb =>
        h a (List.mem_cons_of_mem _ ha) b (List.mem_cons_of_mem _ hb)

/-- One single field, occupied on both sides, on one, or on neither. -/
theorem differField_single {pristine : NodeId → Bool} {differ : NodeId → NodeId → Option Mismatch}
    {k : Kind} :
    differField pristine differ k (f.record x).contents (f.record y).contents (.single s) =
      let step : Step := { kind := k, part := .field (.single s) }
      match f.single x s, f.single y s with
      | none, none => none
      | some a, some b => (differ a b).map (·.below step)
      | some a, none | none, some a =>
        if s.isLazy && pristine a then none else some ⟨[step], .presence⟩ :=
  rfl

/-- What has to be known of an occupant of a lazy field. -/
structure Settled (f : Forest) (below : NodeId → NormalForm) (x : NodeId) : Prop where
  pristine : f.pristine x = true ↔ f.LeftAlone x
  bare : below x = bareBlock ↔ f.LeftAlone x

/-- One field shows no difference just if its two parts are equal, provided that this is so for
any two of its occupants. -/
theorem differField_eq_none_iff {differ : NodeId → NodeId → Option Mismatch} {k : Kind} {φ : Field}
    (hdiffer : ∀ a ∈ f.occupants x φ, ∀ b ∈ f.occupants y φ,
      (differ a b = none ↔ below a = below b))
    (hx : ∀ s, φ = .single s → s.isLazy = true → ∀ a ∈ f.occupants x φ, Settled f below a)
    (hy : ∀ s, φ = .single s → s.isLazy = true → ∀ a ∈ f.occupants y φ, Settled f below a) :
    differField f.pristine differ k (f.record x).contents (f.record y).contents φ = none ↔
      f.normalPart below x φ = f.normalPart below y φ := by
  cases φ with
  | single s =>
    have hmem : ∀ {n c}, f.single n s = some c → c ∈ f.occupants n (.single s) :=
      fun h => Option.mem_toList.2 h
    cases hxa : f.single x s with
    | none =>
      rw [normalPart_of_none hxa]
      cases hyb : f.single y s with
      | none => simp [differField_single, hxa, hyb, normalPart_of_none hyb]
      | some b =>
        rw [normalPart_of_some hyb, differField_single, hxa, hyb]
        by_cases hlazy : s.isLazy = true
        · simp [hlazy, (hy s rfl hlazy b (hmem hyb)).pristine]
        · simp [hlazy]
    | some a =>
      rw [normalPart_of_some hxa]
      cases hyb : f.single y s with
      | none =>
        rw [normalPart_of_none hyb, differField_single, hxa, hyb]
        by_cases hlazy : s.isLazy = true
        · simp [hlazy, (hx s rfl hlazy a (hmem hxa)).pristine]
        · simp [hlazy]
      | some b =>
        rw [normalPart_of_some hyb, differField_single, hxa, hyb, Option.map_eq_none_iff,
          hdiffer a (hmem hxa) b (hmem hyb)]
        by_cases hlazy : s.isLazy = true
        · -- two bodies are compared even if both, or one of them, were left alone
          have ha := (hx s rfl hlazy a (hmem hxa)).bare
          have hb := (hy s rfl hlazy b (hmem hyb)).bare
          by_cases haa : f.LeftAlone a <;> by_cases hbb : f.LeftAlone b <;> grind
        · simp [hlazy]
  | sequence s =>
    rw [differField_sequence, normalPart, normalPart, NormalPart.elements.injEq,
      ← List.forall₂_eq_eq_eq, List.forall₂_map_left_iff, List.forall₂_map_right_iff]
    exact forall₂_congr_mem hdiffer

/-- A lazy field holds a block, if anything. -/
theorem Regular.kind_of_isLazy {a : NodeId} (h : f.Regular) (hs : .single s ∈ (f.kind x).fields)
    (hlazy : s.isLazy = true) (ha : a ∈ f.occupants x (.single s)) : f.kind a = .block := by
  have haccepts := h.accepted hs ha
  cases s with
  | block => exact eq_of_beq haccepts
  | _ => exact absurd hlazy (by simp [SingleField.isLazy])

theorem settled_of_isLazy {depth : Nat} {a : NodeId} (h : f.Regular)
    (hs : .single s ∈ (f.kind x).fields) (hlazy : s.isLazy = true)
    (ha : a ∈ f.occupants x (.single s)) (hfits : f.FitsWithin depth a) :
    Settled f (f.normalFormWithin depth) a := by
  have hkind := h.kind_of_isLazy hs hlazy ha
  have hlt := h.closed x a (mem_children.2 ⟨_, hs, ha⟩)
  cases depth with
  | zero => exact hfits.elim
  | succ depth => exact ⟨pristine_eq_true hlt hkind, normalFormWithin_eq_bareBlock⟩

/-- **Comparison finds no difference just if the normal forms are equal.** -/
theorem mismatchWithin_eq_none (h : f.Regular) : ∀ (depth : Nat) {x y : NodeId},
    f.FitsWithin depth x → f.FitsWithin depth y →
    (f.mismatchWithin depth x y = none ↔
      f.normalFormWithin depth x = f.normalFormWithin depth y) := by
  intro depth
  induction depth with
  | zero => intro x y hx _; exact hx.elim
  | succ depth ih =>
    intro x y hx hy
    rw [mismatchWithin]
    split
    · next hxy => simp [hxy]
    · rw [differHere_eq_none, normalFormWithin, normalFormWithin, NormalForm.node.injEq]
      refine and_congr_right fun hhead => ?_
      have hkind : f.kind y = f.kind x := congrArg Head.kind hhead.symm
      rw [hkind, List.map_inj_left]
      refine forall₂_congr fun φ hφ => ?_
      have hφ : φ ∈ (f.kind x).fields := hφ
      have hφ' : φ ∈ (f.kind y).fields := hkind ▸ hφ
      refine differField_eq_none_iff (fun a ha b hb => ?_) (fun s hs hlazy a ha => ?_)
        fun s hs hlazy a ha => ?_
      · exact ih (hx a (mem_children.2 ⟨φ, hφ, ha⟩)) (hy b (mem_children.2 ⟨φ, hφ', hb⟩))
      · subst hs
        exact settled_of_isLazy h hφ hlazy ha (hx a (mem_children.2 ⟨_, hφ, ha⟩))
      · subst hs
        exact settled_of_isLazy h hφ' hlazy ha (hy a (mem_children.2 ⟨_, hφ', ha⟩))

theorem matchNodes_eq_true : (f.matchNodes x y).1 = true ↔ f.mismatch? x y = none := by
  unfold matchNodes
  split <;> simp_all

/-- A node with an acyclic tree below it, parts of which may be shared. -/
def IsTree (f : Forest) (n : NodeId) : Prop := f.IsNode n ∧ f.AcyclicBelow n

instance (f : Forest) (n : NodeId) : Decidable (f.IsTree n) :=
  inferInstanceAs (Decidable (_ ∧ _))

theorem IsTree.fitsWithin (h : f.IsTree n) (hclosed : f.Closed) : f.FitsWithin f.size n :=
  h.2.fitsWithin hclosed h.1.lt_size

end Forest

namespace World

open Forest

/-- In every reachable forest, two nodes of acyclic trees match just if their normal forms are
equal, where the normal form of a node is made of those of its children. So matching is an
equivalence. -/
theorem matchNodes_iff_normalForm_eq {w : World} (hw : w.Reachable) :
    let f := w.forest
    (∀ a, f.IsTree a → f.normalForm a =
        .node (f.record a).head ((f.kind a).fields.map (f.normalPart f.normalForm a))) ∧
      (∀ a b, f.IsTree a → f.IsTree b →
        ((f.matchNodes a b).1 = true ↔ f.normalForm a = f.normalForm b)) ∧
      (∀ a, f.IsTree a → (f.matchNodes a a).1 = true) ∧
      (∀ a b, f.IsTree a → f.IsTree b → (f.matchNodes a b).1 = true →
        (f.matchNodes b a).1 = true) ∧
      ∀ a b c, f.IsTree a → f.IsTree b → f.IsTree c → (f.matchNodes a b).1 = true →
        (f.matchNodes b c).1 = true → (f.matchNodes a c).1 = true := by
  intro f
  have hreg : f.Regular := hw.regular
  have hiff : ∀ a b, f.IsTree a → f.IsTree b →
      ((f.matchNodes a b).1 = true ↔ f.normalForm a = f.normalForm b) := by
    intro a b ha hb
    have hdepth := mismatchWithin_eq_none hreg f.size (ha.fitsWithin hreg.closed)
      (hb.fitsWithin hreg.closed)
    exact matchNodes_eq_true.trans hdepth
  refine ⟨fun a ha => normalForm_eq hreg.closed ha.1.lt_size ha.2, hiff,
    fun a ha => (hiff a a ha ha).2 rfl, fun a b ha hb h => ?_, fun a b c ha hb hc h₁ h₂ => ?_⟩
  · exact (hiff b a hb ha).2 ((hiff a b ha hb).1 h).symm
  · exact (hiff a c ha hc).2 (((hiff a b ha hb).1 h₁).trans ((hiff b c hb hc).1 h₂))

/-- Two macro statements that share their argument; one of them has been asked for its body. -/
def twins : List Move :=
  [.call (.construct {} (.reference "a") []),
   .call (.construct {} (.macroStatement "m") [.sequence .arguments [0]]),
   .call (.construct {} (.macroStatement "m") [.sequence .arguments [0]]),
   .call (.body 2)]

theorem matchNodes_iff_normalForm_eq_twins :
    (twins.foldl after {}).forest.normalForm 1 = (twins.foldl after {}).forest.normalForm 2 := by
  have hw : (twins.foldl after {}).Reachable := .of_allows (.refl _) (by decide +kernel)
  exact ((matchNodes_iff_normalForm_eq hw).2.1 1 2 (by decide +kernel) (by decide +kernel)).1
    (by decide +kernel)

end World

end SyntaxForest
