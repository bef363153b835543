import SyntaxForest.Forest.Copy
import SyntaxForest.Proofs.Mirroring

/-!
# How a copy is made

A copy is made from the inside out: the copies of the children come first, one after the other
in the order in which children are listed, and then the record of the copy itself, which holds
them. `copyWithin_succ` states this once, with the fields gone from the recursion: the children
of the copy are the copies of the children, and every field holds as many nodes as before.

Two things follow. In any forest, and whatever the depth, a copy keeps the forest regular
(`regular_copyWithin`). And where the subtree fits into the depth, the copy is made of new nodes
throughout (`sprouted_copyWithin`): nothing that was there before is touched, every new node
but the last is linked to the new node that holds it, and identities decrease on the way down.
-/

namespace SyntaxForest

/-! ## Fields of a copy -/

namespace Contents

/-- A single field holds one node at most. -/
theorem length_occupants_single (c : Contents) (s : SingleField) :
    (c.occupants (.single s)).length ≤ 1 := by
  unfold occupants
  cases c.single s <;> simp

/-- Writing as many nodes into a field as some other contents hold in it. -/
theorem occupants_setOccupants (c : Contents) {source : Contents} {φ : Field} {xs : List NodeId}
    (h : xs.length = (source.occupants φ).length) (ψ : Field) :
    (c.setOccupants φ xs).occupants ψ = if ψ = φ then xs else c.occupants ψ := by
  cases φ with
  | single s =>
    have hle : xs.length ≤ 1 := h ▸ source.length_occupants_single s
    have hxs : xs.head?.toList = xs := by
      match xs, hle with
      | [], _ => rfl
      | [x], _ => rfl
    rw [setOccupants, occupants_setSingle, hxs]
  | sequence s => exact occupants_setSequence c s xs ψ

end Contents

namespace Forest

variable {f g : Forest}

section CopyList

variable {copy : Forest → NodeId → NodeId × Forest}

/-- Copying two lists in a row is copying the one and then, in the forest that this leaves, the
other. -/
theorem copyList_append (xs ys : List NodeId) (f : Forest) :
    copyList copy (xs ++ ys) f =
      ((copyList copy xs f).1 ++ (copyList copy ys (copyList copy xs f).2).1,
        (copyList copy ys (copyList copy xs f).2).2) := by
  induction xs generalizing f with
  | nil => rfl
  | cons x xs ih => simp only [List.cons_append, copyList, ih]

/-- There is one copy for each node. -/
theorem length_copyList (xs : List NodeId) (f : Forest) :
    (copyList copy xs f).1.length = xs.length := by
  induction xs generalizing f with
  | nil => rfl
  | cons x xs ih => simp only [copyList, List.length_cons, ih]

/-- Copying field by field is copying all occupants in a row. -/
theorem copyFields_spec (source : Contents) : ∀ (φs : List Field) (target : Contents)
    (f : Forest), φs.Nodup →
    (copyFields copy source φs target f).2 =
        (copyList copy (φs.flatMap source.occupants) f).2 ∧
      φs.flatMap (copyFields copy source φs target f).1.occupants =
        (copyList copy (φs.flatMap source.occupants) f).1 ∧
      (∀ φ ∈ φs, ((copyFields copy source φs target f).1.occupants φ).length =
        (source.occupants φ).length) ∧
      ∀ φ ∉ φs, (copyFields copy source φs target f).1.occupants φ = target.occupants φ := by
  intro φs
  induction φs with
  | nil => intro target f _; simp [copyFields, copyList]
  | cons φ φs ih =>
    intro target f hnodup
    obtain ⟨hφ, hnodup⟩ := List.nodup_cons.1 hnodup
    have hlen : (copyList copy (source.occupants φ) f).1.length = _ := length_copyList ..
    obtain ⟨h₁, h₂, h₃, h₄⟩ := ih (target.setOccupants φ (copyList copy (source.occupants φ) f).1)
      (copyList copy (source.occupants φ) f).2 hnodup
    have hself := h₄ φ hφ
    rw [Contents.occupants_setOccupants target hlen, if_pos rfl] at hself
    simp only [copyFields, List.flatMap_cons, copyList_append]
    refine ⟨h₁, ?_, fun ψ hψ => ?_, fun ψ hψ => ?_⟩
    · rw [hself, h₂]
    · rcases List.mem_cons.1 hψ with rfl | hψ
      · rw [hself, hlen]
      · exact h₃ ψ hψ
    · rw [h₄ ψ (List.not_mem_of_not_mem_cons hψ), Contents.occupants_setOccupants target hlen,
        if_neg (List.ne_of_not_mem_cons hψ)]

end CopyList

/-- **One level of copying.** The copies of the children come first; the record of the copy
holds them, as many in every field as the source holds there. -/
theorem copyWithin_succ (depth : Nat) (f : Forest) (n : NodeId) :
    ∃ contents : Contents,
      let copies := copyList (copyWithin depth) (f.children n) f
      let r := (f.record n).copiedAs copies.2.size contents
      r.children = copies.1 ∧
        (∀ φ ∈ (f.kind n).fields, (contents.occupants φ).length = (f.occupants n φ).length) ∧
        copyWithin (depth + 1) f n =
          (copies.2.size,
            ((copies.2.push r).linkAll r.children (some copies.2.size)).note
              (.copied (f.kind n))) := by
  obtain ⟨h₁, h₂, h₃, -⟩ := @copyFields_spec (copyWithin depth) (f.record n).contents
    (f.kind n).fields {} f (Kind.nodup_fields _)
  refine ⟨_, h₂, h₃, ?_⟩
  simp only [copyWithin]
  rw [show (f.children n) = (f.kind n).fields.flatMap (f.record n).contents.occupants from rfl,
    ← h₁]
  rfl

/-- Lists that match all in a row match field by field, if they are equally long there. -/
theorem forall₂_of_flatMap {R : NodeId → NodeId → Prop} {a b : Field → List NodeId} :
    ∀ {φs : List Field}, List.Forall₂ R (φs.flatMap a) (φs.flatMap b) →
      (∀ φ ∈ φs, (b φ).length = (a φ).length) → ∀ φ ∈ φs, List.Forall₂ R (a φ) (b φ) := by
  intro φs
  induction φs with
  | nil => intro _ _ φ hφ; exact absurd hφ List.not_mem_nil
  | cons ψ ψs ih =>
    intro h hlen φ hφ
    rw [List.flatMap_cons, List.flatMap_cons] at h
    have hψ := hlen ψ List.mem_cons_self
    have htake := List.forall₂_take (a ψ).length h
    have hdrop := List.forall₂_drop (a ψ).length h
    rw [List.take_left, List.take_left' hψ] at htake
    rw [List.drop_left, List.drop_left' hψ] at hdrop
    rcases List.mem_cons.1 hφ with rfl | hφ
    · exact htake
    · exact ih hdrop (fun χ hχ => hlen χ (List.mem_cons_of_mem _ hχ)) φ hφ

/-! ## Copies of any depth keep the forest regular -/

/-- The node `y` of `g` can stand in for the node `x` of `f`. -/
def StandsIn (f g : Forest) (x y : NodeId) : Prop := g.IsNode y ∧ g.kind y = f.kind x

/-- What is known of a copy that may have been cut off at the given depth. -/
structure RoughCopy (f g : Forest) (x y : NodeId) : Prop where
  regular : g.Regular
  grows : Grows f g
  standsIn : StandsIn f g x y

/-- What can stand in for a node can do so after the forest has grown. -/
theorem StandsIn.grows {h : Forest} {x y : NodeId} (hs : StandsIn f g x y) (hg : Grows g h) :
    StandsIn f h x y :=
  ⟨hg.isNode hs.1, (hg.kind_eq hs.1.lt_size).trans hs.2⟩

/-- A partner for every node on the right. -/
theorem exists_of_forall₂ {R : NodeId → NodeId → Prop} {xs ys : List NodeId}
    (h : List.Forall₂ R xs ys) {y : NodeId} (hy : y ∈ ys) : ∃ x ∈ xs, R x y := by
  induction h with
  | nil => exact absurd hy List.not_mem_nil
  | cons hr _ ih =>
    rcases List.mem_cons.1 hy with rfl | hy
    · exact ⟨_, List.mem_cons_self, hr⟩
    · obtain ⟨x, hx, hr⟩ := ih hy
      exact ⟨x, List.mem_cons_of_mem _ hx, hr⟩

/-- A relation between lists may use that the left sides are in the list. -/
theorem forall₂_imp_mem {R S : NodeId → NodeId → Prop} {xs ys : List NodeId}
    (h : List.Forall₂ R xs ys) (hrs : ∀ x ∈ xs, ∀ y, R x y → S x y) : List.Forall₂ S xs ys := by
  induction h with
  | nil => exact .nil
  | cons hr _ ih =>
    exact .cons (hrs _ List.mem_cons_self _ hr) (ih fun x hx => hrs x (List.mem_cons_of_mem _ hx))

/-- If copying one node keeps the forest regular, copying a list of them does, and the copies can
stand in for their sources. -/
theorem regular_copyList {copy : Forest → NodeId → NodeId × Forest} {source : Forest}
    (hcopy : ∀ f x, f.Regular → f.IsNode x → RoughCopy f (copy f x).2 x (copy f x).1) :
    ∀ (xs : List NodeId) (f : Forest), f.Regular → Grows source f → (∀ x ∈ xs, source.IsNode x) →
      (copyList copy xs f).2.Regular ∧ Grows f (copyList copy xs f).2 ∧
        List.Forall₂ (StandsIn source (copyList copy xs f).2) xs (copyList copy xs f).1 := by
  intro xs
  induction xs with
  | nil => intro f hf _ _; exact ⟨hf, .refl f, .nil⟩
  | cons x xs ih =>
    intro f hf hsource hxs
    have hnode := hxs x List.mem_cons_self
    have hx := hcopy f x hf (hsource.isNode hnode)
    obtain ⟨hreg, hgrows, hall⟩ := ih (copy f x).2 hx.regular (hsource.trans hx.grows)
      fun z hz => hxs z (List.mem_cons_of_mem _ hz)
    have hfirst : StandsIn source (copy f x).2 x (copy f x).1 :=
      ⟨hx.standsIn.1, hx.standsIn.2.trans (hsource.kind_eq hnode.lt_size)⟩
    exact ⟨hreg, hx.grows.trans hgrows, .cons (hfirst.grows hgrows) hall⟩

/-- **A copy, even one that is cut off, leaves a regular forest.** -/
theorem regular_copyWithin : ∀ (depth : Nat) (f : Forest) (n : NodeId), f.Regular → f.IsNode n →
    RoughCopy f (copyWithin depth f n).2 n (copyWithin depth f n).1 := by
  intro depth
  induction depth with
  | zero => intro f n hf hn; exact ⟨hf, .refl f, hn, rfl⟩
  | succ depth ih =>
    intro f n hf hn
    obtain ⟨contents, hchildren, hlen, heq⟩ := copyWithin_succ depth f n
    obtain ⟨hreg, hgrows, hall⟩ := regular_copyList ih (f.children n) f hf (.refl f)
      fun x hx => hf.isNode_of_mem hx
    rw [heq]
    generalize copyList (copyWithin depth) (f.children n) f = copies at *
    generalize hr : (f.record n).copiedAs copies.2.size contents = r at *
    have hnodes : ∀ c ∈ r.children, copies.2.IsNode c := by
      intro c hc
      rw [hchildren] at hc
      obtain ⟨x, -, hx⟩ := exists_of_forall₂ hall hc
      exact hx.1
    have hkind : r.kind = f.kind n := by rw [← hr]; rfl
    have hborn := born_linkAll copies.2 (r := r)
      (fun h => Nat.lt_irrefl _ (hnodes _ h).lt_size) fun c hc => (hnodes c hc).lt_size
    have hfields : ∀ φ ∈ (f.kind n).fields,
        List.Forall₂ (StandsIn f copies.2) (f.occupants n φ) (r.contents.occupants φ) := by
      refine forall₂_of_flatMap ?_ (by rw [← hr]; exact hlen)
      rw [← children_eq_flatMap, ← hkind]
      show List.Forall₂ _ _ r.children
      rw [hchildren]
      exact hall
    have hlink : r.link = none := by rw [← hr]; rfl
    have hasm : r.assembled = true := by rw [← hr]; rfl
    have howned : r.OwnedBy copies.2.size := Record.ownedBy_of_adopt (by rw [← hr]; rfl) hasm
    refine ⟨(hreg.born hborn hlink howned (.inl hasm) hnodes ?_).amended (.of_records rfl),
      (hgrows.trans (.of_born hborn)).note _, ?_, ?_⟩
    · intro φ hφ c hc
      rw [hkind] at hφ
      obtain ⟨x, hx, hs⟩ := exists_of_forall₂ (hfields φ hφ) hc
      rw [hs.2]
      exact hf.accepted hφ hx
    · rw [IsNode, record_note, hborn.record_new, hasm]
    · rw [kind, record_note, hborn.record_new, hkind]

/-! ## Copies that fit are new throughout -/

/-- `g` is `f` with new records. Each of them holds new nodes that came before it, in the order
in which they came, and these are linked to it. -/
structure Sprouted (f g : Forest) : Prop where
  size_le : f.size ≤ g.size
  record_old : ∀ j < f.size, g.record j = f.record j
  ordered : ∀ j < g.size, f.size ≤ j → (g.children j).Pairwise (· < ·)
  held_new : ∀ j < g.size, f.size ≤ j → ∀ c ∈ g.children j,
    f.size ≤ c ∧ c < j ∧ g.link c = some j

namespace Sprouted

theorem refl (f : Forest) : Sprouted f f where
  size_le := Nat.le_refl _
  record_old _ _ := rfl
  ordered _ hj hle := absurd hj (Nat.not_lt.2 hle)
  held_new _ hj hle := absurd hj (Nat.not_lt.2 hle)

/-- Old records do not even get other links. -/
theorem grows (h : Sprouted f g) : Grows f g := .of_eq h.size_le h.record_old

theorem note (h : Sprouted f g) (e : Event) : Sprouted f (g.note e) :=
  ⟨h.size_le, h.record_old, h.ordered, h.held_new⟩

/-- What has sprouted first is left alone by what sprouts later. -/
theorem trans {h : Forest} (h₁ : Sprouted f g) (h₂ : Sprouted g h) : Sprouted f h := by
  have hchildren : ∀ j < g.size, h.children j = g.children j := fun j hj => by
    rw [children, children, h₂.record_old j hj]
  have hsize := h₁.size_le
  refine ⟨Nat.le_trans h₁.size_le h₂.size_le, fun j hj => ?_, fun j hj hle => ?_,
    fun j hj hle c hc => ?_⟩
  · rw [h₂.record_old j (Nat.lt_of_lt_of_le hj hsize), h₁.record_old j hj]
  · by_cases hg : j < g.size
    · rw [hchildren j hg]
      exact h₁.ordered j hg hle
    · exact h₂.ordered j hj (Nat.le_of_not_lt hg)
  · by_cases hg : j < g.size
    · rw [hchildren j hg] at hc
      obtain ⟨hge, hlt, hlink⟩ := h₁.held_new j hg hle c hc
      refine ⟨hge, hlt, ?_⟩
      rw [link, h₂.record_old c (Nat.lt_trans hlt hg)]
      exact hlink
    · obtain ⟨hge, hlt, hlink⟩ := h₂.held_new j hj (Nat.le_of_not_lt hg) c hc
      exact ⟨Nat.le_trans hsize hge, hlt, hlink⟩

/-- New nodes hold new nodes, which are in the store. -/
theorem closed (h : Sprouted f g) (hclosed : f.Closed) : g.Closed := by
  intro p c hc
  by_cases hp : p < f.size
  · rw [h.grows.children_eq hp] at hc
    exact Nat.lt_of_lt_of_le (hclosed p c hc) h.size_le
  · have hg := lt_size_of_mem_children hc
    exact Nat.lt_trans (h.held_new p hg (Nat.le_of_not_lt hp) c hc).2.1 hg

/-- One more node, which holds new nodes that nothing held so far. -/
theorem born {h : Forest} {r : Record} (hs : Sprouted f g) (hb : Born g h r)
    (hordered : r.children.Pairwise (· < ·))
    (hnew : ∀ c ∈ r.children, f.size ≤ c ∧ c < g.size ∧ g.link c = none) : Sprouted f h := by
  have hold : ∀ j < g.size, j ≠ g.size := fun _ hj => Nat.ne_of_lt hj
  have hcase : ∀ j < h.size, j < g.size ∨ j = g.size := fun j hj =>
    Nat.lt_or_eq_of_le (Nat.le_of_lt_succ (by rwa [hb.size_eq] at hj))
  refine ⟨by rw [hb.size_eq]; exact Nat.le_succ_of_le hs.size_le, fun j hj => ?_,
    fun j hj hle => ?_, fun j hj hle c hc => ?_⟩
  · have hj' := hold j (Nat.lt_of_lt_of_le hj hs.size_le)
    rw [hb.record_old j hj', if_neg fun hc => Nat.not_lt.2 (hnew j hc).1 hj, hs.record_old j hj]
  · rcases hcase j hj with hj | rfl
    · rw [hb.children_old (hold j hj)]
      exact hs.ordered j hj hle
    · rw [hb.children_new]
      exact hordered
  · rcases hcase j hj with hj | rfl
    · rw [hb.children_old (hold j hj)] at hc
      obtain ⟨hge, hlt, hlink⟩ := hs.held_new j hj hle c hc
      refine ⟨hge, hlt, ?_⟩
      -- being linked already, it is none of those that are linked now
      rw [hb.link_old (hold c (Nat.lt_trans hlt hj)), if_neg, hlink]
      intro hc
      rw [(hnew c hc).2.2] at hlink
      exact absurd hlink (by simp)
    · rw [hb.children_new] at hc
      obtain ⟨hge, hlt, -⟩ := hnew c hc
      exact ⟨hge, hlt, by rw [hb.link_old (hold c hlt), if_pos hc]⟩

/-- Below a new node there are new nodes only, none of them newer. -/
theorem below_new (h : Sprouted f g) {n m : NodeId} (hn : f.size ≤ n) (hb : g.Below n m) :
    f.size ≤ m ∧ m ≤ n := by
  induction hb with
  | root hr _ =>
    rw [List.mem_singleton.1 hr]
    exact ⟨hn, Nat.le_refl _⟩
  | held hp hc _ ih =>
    obtain ⟨hge, hlt, -⟩ := h.held_new _ hp.lt_size ih.1 _ hc
    exact ⟨hge, Nat.le_trans (Nat.le_of_lt hlt) ih.2⟩

end Sprouted

/-- The node `y` of `g` is a copy of the node `x` of `f` that nothing holds yet. -/
structure FreshCopy (f g : Forest) (x y : NodeId) : Prop where
  fresh : f.size ≤ y
  isNode : g.IsNode y
  unlinked : g.link y = none
  mirrors : Mirrors f g x y

/-- Copies stay what they are while other copies are made. -/
theorem FreshCopy.sprouted {h : Forest} {x y : NodeId} (hy : FreshCopy f g x y)
    (hs : Sprouted g h) (hclosed : g.Closed) : FreshCopy f h x y where
  fresh := hy.fresh
  isNode := hs.grows.isNode hy.isNode
  unlinked := by
    rw [link, hs.record_old y hy.isNode.lt_size]
    exact hy.unlinked
  mirrors := (Mirrors.grows_right hs.grows hclosed hy.isNode.lt_size).2 hy.mirrors

/-- Copies made one after the other are apart from each other: each is made of records that come
later than all of the last. -/
theorem sprouted_copyList {copy : Forest → NodeId → NodeId × Forest} {depth : Nat}
    (hcopy : ∀ f x, f.Closed → x < f.size → f.FitsWithin depth x →
      Sprouted f (copy f x).2 ∧ FreshCopy f (copy f x).2 x (copy f x).1) :
    ∀ (xs : List NodeId) (f : Forest), f.Closed → (∀ x ∈ xs, x < f.size) →
      (∀ x ∈ xs, f.FitsWithin depth x) →
      Sprouted f (copyList copy xs f).2 ∧ (copyList copy xs f).1.Pairwise (· < ·) ∧
        List.Forall₂ (FreshCopy f (copyList copy xs f).2) xs (copyList copy xs f).1 := by
  intro xs
  induction xs with
  | nil => intro f _ _ _; exact ⟨.refl f, .nil, .nil⟩
  | cons x xs ih =>
    intro f hclosed hlt hfits
    have hxlt := hlt x List.mem_cons_self
    obtain ⟨hs, hfresh⟩ := hcopy f x hclosed hxlt (hfits x List.mem_cons_self)
    have hclosed' := hs.closed hclosed
    have hlt' : ∀ z ∈ xs, z < f.size := fun z hz => hlt z (List.mem_cons_of_mem _ hz)
    obtain ⟨hs', hsorted, hall⟩ := ih (copy f x).2 hclosed'
      (fun z hz => Nat.lt_of_lt_of_le (hlt' z hz) hs.size_le)
      (fun z hz => hs.grows.fitsWithin hclosed (hlt' z hz) (hfits z (List.mem_cons_of_mem _ hz)))
    refine ⟨hs.trans hs', List.pairwise_cons.2 ⟨fun y hy => ?_, hsorted⟩,
      .cons (hfresh.sprouted hs' hclosed') ?_⟩
    · obtain ⟨z, -, hz⟩ := exists_of_forall₂ hall hy
      exact Nat.lt_of_lt_of_le hfresh.isNode.lt_size hz.fresh
    · -- the later copies were made from a later state, in which the sources are the same
      refine forall₂_imp_mem hall fun z hz y hzy => ?_
      exact ⟨Nat.le_trans hs.size_le hzy.fresh, hzy.isNode, hzy.unlinked,
        (Mirrors.grows_left hs.grows hclosed (hlt' z hz)).1 hzy.mirrors⟩

/-- **A copy that fits into the depth is new throughout and mirrors its source.** -/
theorem sprouted_copyWithin : ∀ (depth : Nat) (f : Forest) (n : NodeId), f.Closed → n < f.size →
    f.FitsWithin depth n → Sprouted f (copyWithin depth f n).2 ∧
      FreshCopy f (copyWithin depth f n).2 n (copyWithin depth f n).1 := by
  intro depth
  induction depth with
  | zero => intro f n _ _ hfits; exact hfits.elim
  | succ depth ih =>
    intro f n hclosed hn hfits
    obtain ⟨contents, hchildren, hlen, heq⟩ := copyWithin_succ depth f n
    obtain ⟨hs, hsorted, hall⟩ := sprouted_copyList ih (f.children n) f hclosed
      (hclosed n) hfits
    rw [heq]
    generalize copyList (copyWithin depth) (f.children n) f = copies at *
    obtain ⟨ys, g⟩ := copies
    generalize hr : (f.record n).copiedAs g.size contents = r at *
    simp only at hs hsorted hall hchildren ⊢
    subst hchildren
    have hnew : ∀ c ∈ r.children, f.size ≤ c ∧ c < g.size ∧ g.link c = none := by
      intro c hc
      obtain ⟨x, -, hx⟩ := exists_of_forall₂ hall hc
      exact ⟨hx.fresh, hx.isNode.lt_size, hx.unlinked⟩
    have hself : g.size ∉ r.children := fun hc => Nat.lt_irrefl _ (hnew _ hc).2.1
    have hborn := born_linkAll g hself fun c hc => (hnew c hc).2.1
    have hkind : r.kind = f.kind n := by rw [← hr]; rfl
    refine ⟨(hs.born hborn hsorted hnew).note _, hs.size_le, ?_, ?_,
      .of_fields ?_ fun φ hφ => ?_⟩
    · rw [IsNode, record_note, hborn.record_new, ← hr]
      rfl
    · rw [link, record_note, hborn.record_new, ← hr]
      rfl
    · rw [record_note, hborn.record_new, ← hr]
      exact ⟨rfl, rfl, rfl, rfl, rfl⟩
    · have hfields : ∀ ψ ∈ (f.kind n).fields,
          List.Forall₂ (FreshCopy f g) (f.occupants n ψ) (r.contents.occupants ψ) := by
        refine forall₂_of_flatMap ?_ (by rw [← hr]; exact hlen)
        rw [← children_eq_flatMap, ← hkind]
        exact hall
      rw [occupants_note, hborn.occupants_new]
      refine (hfields φ hφ).imp fun x y hxy => ?_
      exact (Mirrors.grows_right ((Grows.of_born hborn).note _) (hs.closed hclosed)
        hxy.isNode.lt_size).2 hxy.mirrors

end Forest

end SyntaxForest
