import SyntaxForest.Proofs.ChildReplacement
import SyntaxForest.Proofs.LazyBodies
import SyntaxForest.Proofs.LinkedTrees

/-!
# A tree matches its copy as long as what is put into it does

A child somewhere in a tree is replaced, and the tree is compared with a copy that was made before.
The two match just if the replacement matches the child. In terms of normal forms this is plain
enough: the normal form of a node is made of those of its children and gives them back, so that a
change far down can be seen at the top and is the only thing to be seen there. The one place where
something could get lost is a lazy field, since it may hide its occupant. But what is hidden there
holds nothing, and so cannot be on the way to a child.

Nothing is asked of the replacement, except that it does not hold the node that it is put into. It
may share nodes with the tree, and need not even be a tree. Comparison goes down on both sides at
once, however, and comes to an end where one of them does: a node that matches one of an acyclic
tree is the root of an acyclic tree (`matchNodes_iff`).

`Untouched` says that a subtree is as it was but for links. Main statement:
`World.replaceChild_congruence`.
-/

namespace SyntaxForest

/-- Replacing one element can be seen in the images just if it can be seen in its own. -/
theorem map_replace_eq_map_iff {α : Type} {c d : NodeId} {b : NodeId → α} {xs : List NodeId}
    (hc : c ∈ xs) : (xs.replace c d).map b = xs.map b ↔ b d = b c := by
  induction xs with
  | nil => exact absurd hc List.not_mem_nil
  | cons x xs ih =>
    by_cases hx : x = c
    · subst hx
      rw [List.replace_cons_self]
      simp
    · have hxs : c ∈ xs := (List.mem_cons.1 hc).resolve_left (Ne.symm hx)
      rw [List.replace_cons, beq_false_of_ne (Ne.symm hx)]
      simp [ih hxs]

namespace Forest

variable {f g : Forest} {n m p c d x y t : NodeId} {φ : Field}

/-! ## Subtrees that nothing has happened to -/

/-- Nothing below `n` has changed but links. -/
def Untouched (f g : Forest) (n : NodeId) : Prop :=
  ∀ m, f.Below n m → (g.record m).withLink none = (f.record m).withLink none

instance (f g : Forest) (n : NodeId) : Decidable (Untouched f g n) :=
  inferInstanceAs (Decidable (∀ m, f.Below n m → _))

namespace Untouched

theorem of_records (h : g.records = f.records) : Untouched f g n := fun m _ => by
  rw [record, record, h]

/-- What has not been touched has not been touched further down. -/
theorem of_below (h : Untouched f g n) (hm : f.Below n m) : Untouched f g m :=
  fun _ hk => h _ (hm.trans hk)

theorem head_eq (h : Untouched f g n) (hm : f.Below n m) :
    (g.record m).head = (f.record m).head := by
  have := congrArg Record.head (h m hm)
  exact this

theorem kind_eq (h : Untouched f g n) (hm : f.Below n m) : g.kind m = f.kind m :=
  congrArg Head.kind (h.head_eq hm)

theorem occupants_eq (h : Untouched f g n) (hm : f.Below n m) (φ : Field) :
    g.occupants m φ = f.occupants m φ := by
  have := congrArg (fun r => r.contents.occupants φ) (h m hm)
  exact this

theorem children_eq (h : Untouched f g n) (hm : f.Below n m) : g.children m = f.children m :=
  children_congr (h.kind_eq hm) (h.occupants_eq hm)

/-- A block was left alone before just if it is now. -/
theorem leftAlone_iff (h : Untouched f g n) (hm : f.Below n m) :
    g.LeftAlone m ↔ f.LeftAlone m :=
  leftAlone_congr (h.kind_eq hm) (h.occupants_eq hm _) (h.occupants_eq hm _)

/-- The same nodes lie below. -/
theorem below_iff (h : Untouched f g n) (hclosed : f.Closed) (hn : n < f.size)
    (hsize : f.size ≤ g.size) : g.Below n m ↔ f.Below n m := by
  constructor
  · intro hm
    induction hm with
    | root hr _ => exact .root hr (List.mem_singleton.1 hr ▸ hn)
    | held _ hc _ ih =>
      rw [h.children_eq ih] at hc
      exact .held ih hc (hclosed _ _ hc)
  · intro hm
    induction hm with
    | root hr hlt => exact .root hr (Nat.lt_of_lt_of_le hlt hsize)
    | held hp hc hlt ih =>
      exact .held ih (by rwa [h.children_eq hp]) (Nat.lt_of_lt_of_le hlt hsize)

/-- Circles are neither made nor broken. -/
theorem acyclicBelow_iff (h : Untouched f g n) (hclosed : f.Closed) (hn : n < f.size)
    (hsize : f.size ≤ g.size) : g.AcyclicBelow n ↔ f.AcyclicBelow n := by
  refine forall_congr' fun m => ?_
  rw [h.below_iff hclosed hn hsize]
  refine forall_congr' fun hm => ?_
  rw [h.children_eq hm]
  refine forall₂_congr fun c hc => ?_
  have hlt := hclosed m c hc
  have hbelow : f.Below n c := .held hm hc hlt
  rw [(h.of_below hbelow).below_iff hclosed hlt hsize]

/-- The normal form of an untouched tree is what it was, at every depth. -/
theorem normalFormWithin_eq (hclosed : f.Closed) : ∀ (depth : Nat) {n : NodeId}, n < f.size →
    Untouched f g n → g.normalFormWithin depth n = f.normalFormWithin depth n := by
  intro depth
  induction depth with
  | zero =>
    intro n hn h
    rw [normalFormWithin, normalFormWithin, h.head_eq (.refl hn)]
  | succ depth ih =>
    intro n hn h
    rw [normalFormWithin, normalFormWithin, h.head_eq (.refl hn), h.kind_eq (.refl hn)]
    refine congrArg _ (List.map_congr_left fun φ hφ => ?_)
    have hbelow : ∀ c ∈ f.occupants n φ, f.Below n c := fun c hc =>
      have hmem := mem_children.2 ⟨φ, hφ, hc⟩
      .child hn hmem (hclosed n c hmem)
    exact normalPart_eq_of_occupants (h.occupants_eq (.refl hn) φ)
      (fun c hc => h.leftAlone_iff (hbelow c hc))
      fun c hc => ih (hbelow c hc).lt_size (h.of_below (hbelow c hc))

/-- The same for the whole tree, however many records have come to the store. -/
theorem normalForm_eq (h : Untouched f g n) (hclosed : f.Closed) (hn : n < f.size)
    (hsize : f.size ≤ g.size) (hacyclic : f.AcyclicBelow n) :
    g.normalForm n = f.normalForm n := by
  rw [normalForm, normalFormWithin_eq hclosed g.size hn h,
    (hacyclic.fitsWithin hclosed hn).normalFormWithin_eq hsize]
  rfl

end Untouched

/-! ## What matches a node of an acyclic tree -/

/-- One more level does no harm. -/
theorem FitsWithin.succ : ∀ {depth : Nat} {n : NodeId}, f.FitsWithin depth n →
    f.FitsWithin (depth + 1) n := by
  intro depth
  induction depth with
  | zero => intro n hn; exact hn.elim
  | succ depth ih => exact fun hn c hc => ih (hn c hc)

/-- A tree with so many levels has no circle in it, which would have levels without end. -/
theorem FitsWithin.acyclicBelow {depth : Nat} (h : f.FitsWithin depth n) : f.AcyclicBelow n := by
  intro m hm c hc
  obtain ⟨less, -, hfits⟩ := h.of_below hm
  exact FitsWithin.not_below less hfits hc

/-- A block that was left alone holds nothing. -/
theorem LeftAlone.children_eq (h : f.LeftAlone n) : f.children n = [] := by
  obtain ⟨hkind, hmodifier, hstatements⟩ := h
  have hfields : Kind.block.fields = [.single .modifier, .sequence .statements] := rfl
  have hm : f.occupants n (.single .modifier) = [] := congrArg Option.toList hmodifier
  have hs : f.occupants n (.sequence .statements) = [] := hstatements
  rw [children_eq_flatMap, hkind, hfields, List.flatMap_cons, List.flatMap_cons, hm, hs]
  rfl

/-- What a node holds in a field in which it does not differ from another is not different from
something that the other holds there, or has been left alone. -/
theorem matched_or_leftAlone {differ : NodeId → NodeId → Option Mismatch} {k : Kind}
    (h : f.Regular) (hφ : φ ∈ (f.kind x).fields)
    (hfield : differField f.pristine differ k (f.record x).contents (f.record y).contents φ = none)
    (hc : c ∈ f.occupants x φ) :
    (∃ d ∈ f.occupants y φ, differ c d = none) ∨ f.LeftAlone c := by
  cases φ with
  | single s =>
    have hx : f.single x s = some c := Option.mem_toList.1 hc
    rw [differField_single, hx] at hfield
    cases hy : f.single y s with
    | some d =>
      simp only [hy, Option.map_eq_none_iff] at hfield
      exact .inl ⟨d, Option.mem_toList.2 hy, hfield⟩
    | none =>
      have hlazy : s.isLazy = true ∧ f.pristine c = true := by simpa [hy] using hfield
      have hlt := h.closed x c (mem_children.2 ⟨_, hφ, hc⟩)
      exact .inr ((pristine_eq_true hlt (h.kind_of_isLazy hφ hlazy.1 hc)).1 hlazy.2)
  | sequence s =>
    obtain ⟨d, hd, hcd⟩ := exists_of_forall₂ (differField_sequence.1 hfield).flip hc
    exact .inl ⟨d, hd, hcd⟩

/-- A tree that shows no difference to one with so many levels has one more at most. -/
theorem FitsWithin.of_mismatchWithin (h : f.Regular) : ∀ {depth : Nat} {x y : NodeId},
    f.FitsWithin depth y → f.mismatchWithin depth x y = none → f.FitsWithin (depth + 1) x := by
  intro depth
  induction depth with
  | zero => intro x y hy; exact hy.elim
  | succ depth ih =>
    intro x y hy hxy c hc
    rw [mismatchWithin] at hxy
    split at hxy
    · next heq => exact (heq ▸ hy).succ c hc
    obtain ⟨hhead, hfields⟩ := differHere_eq_none.1 hxy
    have hkind : f.kind y = f.kind x := congrArg Head.kind hhead.symm
    obtain ⟨φ, hφ, hmem⟩ := mem_children.1 hc
    rcases matched_or_leftAlone h hφ (hfields φ hφ) hmem with ⟨d, hd, hcd⟩ | halone
    · exact ih (hy d (mem_children.2 ⟨φ, hkind ▸ hφ, hd⟩)) hcd
    · intro e he
      rw [halone.children_eq] at he
      exact absurd he List.not_mem_nil

/-- **What matches a node of an acyclic tree is one of an acyclic tree with the same normal
form.** -/
theorem matchNodes_iff (h : f.Regular) (hx : x < f.size) (hy : y < f.size)
    (hacyclic : f.AcyclicBelow y) :
    (f.matchNodes x y).1 = true ↔ f.AcyclicBelow x ∧ f.normalForm x = f.normalForm y := by
  have hfits := hacyclic.fitsWithin h.closed hy
  have hiff : f.AcyclicBelow x → (f.mismatch? x y = none ↔ f.normalForm x = f.normalForm y) :=
    fun hx' => mismatchWithin_eq_none h f.size (hx'.fitsWithin h.closed hx) hfits
  rw [matchNodes_eq_true]
  constructor
  · intro hnone
    have hx' := (FitsWithin.of_mismatchWithin h hfits hnone).acyclicBelow
    exact ⟨hx', (hiff hx').1 hnone⟩
  · rintro ⟨hx', hsame⟩
    exact (hiff hx').2 hsame

theorem matchNodes_self (f : Forest) (n : NodeId) : (f.matchNodes n n).1 = true := by
  rw [matchNodes_eq_true, mismatch?, mismatchWithin_self]

/-- Comparison looks at nothing but the two subtrees. -/
theorem Untouched.matchNodes_eq (hx : Untouched f g x) (hy : Untouched f g y) (hf : f.Regular)
    (hg : g.Regular) (hsize : f.size ≤ g.size) (hltX : x < f.size) (hltY : y < f.size)
    (hacyclic : f.AcyclicBelow y) : (g.matchNodes x y).1 = (f.matchNodes x y).1 := by
  have hclosed := hf.closed
  rw [Bool.eq_iff_iff, matchNodes_iff hf hltX hltY hacyclic,
    matchNodes_iff hg (Nat.lt_of_lt_of_le hltX hsize) (Nat.lt_of_lt_of_le hltY hsize)
      ((hy.acyclicBelow_iff hclosed hltY hsize).2 hacyclic),
    hx.acyclicBelow_iff hclosed hltX hsize, hy.normalForm_eq hclosed hltY hsize hacyclic]
  exact and_congr_right fun hacyclicX => by rw [hx.normalForm_eq hclosed hltX hsize hacyclicX]

/-! ## The normal form of the holder -/

/-- Whether a node has been left alone is known from its normal form. -/
theorem normalForm_eq_bareBlock (hn : n < f.size) :
    f.normalForm n = bareBlock ↔ f.LeftAlone n := by
  obtain ⟨depth, hdepth⟩ := exists_size_eq_succ hn
  rw [normalForm, hdepth]
  exact normalFormWithin_eq_bareBlock

/-- A part in which one node takes the place of another is the same just if the two have the same
normal form. -/
theorem normalPart_replace_iff {a b : NodeId → NormalForm}
    (hoccupants : g.occupants p φ = (f.occupants p φ).replace c d) (hc : c ∈ f.occupants p φ)
    (hsame : ∀ x ∈ f.occupants p φ, b x = a x) (halone : f.LeftAlone c ↔ a c = bareBlock)
    (halone' : g.LeftAlone d ↔ b d = bareBlock) :
    g.normalPart b p φ = f.normalPart a p φ ↔ b d = b c := by
  cases φ with
  | single s =>
    have hf : f.single p s = some c := Option.mem_toList.1 hc
    have hg : (g.single p s).toList = [d] := by
      have hlist : f.occupants p (.single s) = [c] := congrArg Option.toList hf
      rw [hlist, List.replace_cons_self] at hoccupants
      exact hoccupants
    have hg : g.single p s = some d := by simpa using congrArg List.head? hg
    rw [normalPart_of_some hf, normalPart_of_some hg, ← hsame c hc]
    rw [← hsame c hc] at halone
    cases s.isLazy with
    | false => simp
    | true => by_cases hc' : f.LeftAlone c <;> by_cases hd' : g.LeftAlone d <;> grind
  | sequence s =>
    have hsequence : g.sequence p s = (f.sequence p s).replace c d := hoccupants
    have hmap : (f.sequence p s).map a = (f.sequence p s).map b :=
      List.map_congr_left fun x hx => (hsame x hx).symm
    rw [normalPart, normalPart, hsequence, hmap, NormalPart.elements.injEq]
    exact map_replace_eq_map_iff hc

/-- What a part is made of can be got out of it, unless it is hidden. -/
theorem normalForm_eq_of_normalPart {a b : NodeId → NormalForm}
    (hoccupants : g.occupants n φ = f.occupants n φ) (hm : m ∈ f.occupants n φ)
    (hshown : ¬ f.LeftAlone m) (h : g.normalPart b n φ = f.normalPart a n φ) : b m = a m := by
  cases φ with
  | single s =>
    have hf : f.single n s = some m := Option.mem_toList.1 hm
    have hpresent : f.normalPart a n (.single s) = .present (a m) := by
      rw [normalPart_of_some hf, if_neg fun e => hshown e.2]
    rw [hpresent, normalPart_of_some ((single_eq_of_occupants hoccupants).trans hf)] at h
    split at h
    · exact absurd h (by simp)
    · exact NormalPart.present.inj h
  | sequence s =>
    have hsequence : g.sequence n s = f.sequence n s := hoccupants
    rw [normalPart, normalPart, hsequence, NormalPart.elements.injEq] at h
    exact List.map_inj_left.1 h m hm

/-! ## A tree and its copy -/

/-- Two acyclic trees that have the same normal form and no node in common. -/
structure Counterparts (f : Forest) (t k : NodeId) : Prop where
  lt_size : t < f.size
  lt_size' : k < f.size
  acyclic : f.AcyclicBelow t
  acyclic' : f.AcyclicBelow k
  same : f.normalForm t = f.normalForm k
  apart : ∀ p, f.Below t p → ¬ f.Below k p

theorem Counterparts.matchNodes_eq {k : NodeId} (h : Counterparts f t k) (hf : f.Regular) :
    (f.matchNodes t k).1 = true :=
  (matchNodes_iff hf h.lt_size h.lt_size' h.acyclic').2 ⟨h.acyclic, h.same⟩

/-- They stay what they are as long as nothing happens to them. -/
theorem Counterparts.untouched {k : NodeId} (h : Counterparts f t k) (ht : Untouched f g t)
    (hk : Untouched f g k) (hclosed : f.Closed) (hsize : f.size ≤ g.size) :
    Counterparts g t k where
  lt_size := Nat.lt_of_lt_of_le h.lt_size hsize
  lt_size' := Nat.lt_of_lt_of_le h.lt_size' hsize
  acyclic := (ht.acyclicBelow_iff hclosed h.lt_size hsize).2 h.acyclic
  acyclic' := (hk.acyclicBelow_iff hclosed h.lt_size' hsize).2 h.acyclic'
  same := by
    rw [ht.normalForm_eq hclosed h.lt_size hsize h.acyclic,
      hk.normalForm_eq hclosed h.lt_size' hsize h.acyclic']
    exact h.same
  apart p hp := by
    rw [hk.below_iff hclosed h.lt_size' hsize]
    exact h.apart p ((ht.below_iff hclosed h.lt_size hsize).1 hp)

/-- The copy of an acyclic tree is another tree of the same normal form. -/
theorem counterparts_copy (h : f.Regular) (ht : f.IsNode t) (hacyclic : f.AcyclicBelow t) :
    Counterparts (f.copy t).2 t (f.copy t).1 := by
  have hclosed := h.closed
  have hlt := ht.lt_size
  have hfits := hacyclic.fitsWithin hclosed hlt
  obtain ⟨hs, hcopy⟩ := sprouted_copyWithin f.size f t hclosed hlt hfits
  have hregular : (f.copy t).2.Regular := (regular_copyWithin f.size f t h ht).regular
  have hlt' : t < (f.copy t).2.size := Nat.lt_of_lt_of_le hlt hs.size_le
  have hacyclic' := (hs.grows.fitsWithin hclosed hlt hfits).acyclicBelow
  have hmirrors : Mirrors (f.copy t).2 (f.copy t).2 t (f.copy t).1 :=
    (Mirrors.grows_left hs.grows hclosed hlt).2 hcopy.mirrors
  obtain ⟨hacyclicK, hsame⟩ := (matchNodes_iff hregular hcopy.isNode.lt_size hlt' hacyclic').1
    (congrArg Prod.fst hmirrors.symm.matchNodes_eq)
  refine ⟨hlt', hcopy.isNode.lt_size, hacyclic', hacyclicK, hsame.symm, fun p hp hpk => ?_⟩
  -- the nodes of the copy are new
  have hold := (hs.grows.below hclosed hlt hp).lt_size
  exact absurd (hs.below_new hcopy.fresh hpk).1 (Nat.not_le.2 hold)

/-! ## The normal form of the whole tree -/

/-- `g` is `f` with `d` in the first place of `c` in the field `φ` of `p`, which does not lie below
`d`. -/
structure Grafted (f g : Forest) (p : NodeId) (φ : Field) (c d : NodeId) : Prop
    extends Rewired f g p φ ((f.occupants p φ).replace c d) [d] [c] where
  before : f.Regular
  after : g.Regular
  held : c ∈ f.occupants p φ
  lt_size : d < f.size
  apart : ¬ f.Below d p

namespace Grafted

/-- The node that is replaced is a child of the holder. -/
theorem mem_children (h : Grafted f g p φ c d) : c ∈ f.children p :=
  Forest.mem_children.2 ⟨φ, h.declared, h.held⟩

/-- A tree without the holder is untouched. -/
theorem untouched (h : Grafted f g p φ c d) (hn : ¬ f.Below n p) : Untouched f g n := by
  intro m hm
  refine h.record_of_ne ?_
  rintro rfl
  exact hn hm

/-- Acyclic trees stay acyclic if an acyclic one is put in, as it does not hold the holder. -/
theorem acyclicBelow (h : Grafted f g p φ c d) (hd : f.AcyclicBelow d) (hn : f.AcyclicBelow n) :
    g.AcyclicBelow n := by
  intro m hm
  refine h.acyclic (fun y hy => ?_) ?_ h.before.closed
  · rw [List.mem_singleton.1 hy]
    exact h.apart
  · rcases h.below_cases hm with hm | ⟨-, y, hy, hm⟩
    · exact hn m hm
    · rw [List.mem_singleton.1 hy] at hm
      exact hd m hm

/-- The normal form of a node stays the same if all of its parts do. -/
theorem normalForm_eq_iff_parts (h : Grafted f g p φ c d) (hd : f.AcyclicBelow d)
    (hn : f.AcyclicBelow n) (hlt : n < f.size) :
    g.normalForm n = f.normalForm n ↔ ∀ ψ ∈ (f.kind n).fields,
      g.normalPart g.normalForm n ψ = f.normalPart f.normalForm n ψ := by
  rw [normalForm_eq h.after.closed (h.size_eq ▸ hlt) (h.acyclicBelow hd hn),
    normalForm_eq h.before.closed hlt hn, head_eq_of_rest (h.rest_eq n), h.kind_eq,
    NormalForm.node.injEq, List.map_inj_left, and_iff_right rfl]

/-- At the node where it happens. -/
theorem normalForm_holder_iff (h : Grafted f g p φ c d) (hp : f.AcyclicBelow p)
    (hd : f.AcyclicBelow d) :
    g.normalForm p = f.normalForm p ↔ g.normalForm d = g.normalForm c := by
  have hclosed := h.before.closed
  have hlt := lt_size_of_mem_children h.mem_children
  -- the holder lies below none of its children, so that nothing happens to them
  have hsame : ∀ x ∈ f.children p, x < f.size ∧ Untouched f g x ∧
      g.normalForm x = f.normalForm x := by
    intro x hx
    have hltX := hclosed p x hx
    have huntouched := h.untouched (hp p (.refl hlt) x hx)
    exact ⟨hltX, huntouched, huntouched.normalForm_eq hclosed hltX (Nat.le_of_eq h.size_eq.symm)
      (hp.of_below (.child hlt hx hltX))⟩
  have hoccupant : ∀ {ψ x}, ψ ∈ (f.kind p).fields → x ∈ f.occupants p ψ → x ∈ f.children p :=
    fun hψ hx => Forest.mem_children.2 ⟨_, hψ, hx⟩
  rw [h.normalForm_eq_iff_parts hd hp hlt]
  have hplace : g.normalPart g.normalForm p φ = f.normalPart f.normalForm p φ ↔
      g.normalForm d = g.normalForm c :=
    normalPart_replace_iff h.occupants_self h.held
      (fun x hx => (hsame x (hoccupant h.declared hx)).2.2)
      (normalForm_eq_bareBlock (hsame c h.mem_children).1).symm
      (normalForm_eq_bareBlock (h.size_eq ▸ h.lt_size)).symm
  constructor
  · exact fun hparts => hplace.1 (hparts φ h.declared)
  · intro heq ψ hψ
    by_cases hψφ : ψ = φ
    · rw [hψφ]
      exact hplace.2 heq
    · refine normalPart_eq_of_occupants (h.occupants_of_ne hψφ) (fun x hx => ?_) fun x hx =>
        (hsame x (hoccupant hψ hx)).2.2
      obtain ⟨hltX, huntouched, -⟩ := hsame x (hoccupant hψ hx)
      exact huntouched.leftAlone_iff (.refl hltX)

/-- If nothing is to be seen at the holder, nothing is to be seen above. -/
theorem normalForm_eq_of_holder (h : Grafted f g p φ c d) (hd : f.AcyclicBelow d)
    (hholder : g.normalForm p = f.normalForm p) : ∀ (depth : Nat) {n : NodeId},
    f.FitsWithin depth n → n < f.size → g.normalForm n = f.normalForm n := by
  intro depth
  induction depth with
  | zero => intro n hn; exact hn.elim
  | succ depth ih =>
    intro n hn hlt
    by_cases hnp : n = p
    · rw [hnp]
      exact hholder
    have hclosed := h.before.closed
    refine (h.normalForm_eq_iff_parts hd (FitsWithin.acyclicBelow hn) hlt).2 fun ψ hψ => ?_
    have hbelow : ∀ x ∈ f.occupants n ψ, x < f.size ∧ g.normalForm x = f.normalForm x := by
      intro x hx
      have hmem := Forest.mem_children.2 ⟨ψ, hψ, hx⟩
      exact ⟨hclosed n x hmem, ih (hn x hmem) (hclosed n x hmem)⟩
    have hoccupants : g.occupants n ψ = f.occupants n ψ := by
      rw [h.occupants_eq, if_neg fun e => hnp e.1]
    refine normalPart_eq_of_occupants hoccupants (fun x hx => ?_) fun x hx => (hbelow x hx).2
    obtain ⟨hltX, hx⟩ := hbelow x hx
    rw [← normalForm_eq_bareBlock hltX, ← normalForm_eq_bareBlock (h.size_eq ▸ hltX), hx]

/-- If nothing is to be seen at the top, nothing is to be seen on the way to the holder. -/
theorem normalForm_eq_on_way (h : Grafted f g p φ c d) (hd : f.AcyclicBelow d)
    (ht : f.AcyclicBelow t) (htop : g.normalForm t = f.normalForm t) (hm : f.Below t m)
    (hway : f.Below m p) : g.normalForm m = f.normalForm m := by
  induction hm with
  | root hr _ =>
    rw [List.mem_singleton.1 hr]
    exact htop
  | @held n m hn hm hltM ih =>
    have hlt : n < f.size := hn.lt_size
    have hacyclic : f.AcyclicBelow n := ht.of_below hn
    have hnp : n ≠ p := by
      rintro rfl
      exact hacyclic n (.refl hlt) m hm hway
    have hsame := ih ((Below.child hlt hm hltM).trans hway)
    -- what leads on to the holder holds something and is not hidden
    have hshown : ¬ f.LeftAlone m := by
      intro halone
      rcases hway.eq_or_child with rfl | ⟨x, hx, -⟩
      · have hc := h.mem_children
        rw [halone.children_eq] at hc
        exact absurd hc List.not_mem_nil
      · rw [halone.children_eq] at hx
        exact absurd hx List.not_mem_nil
    obtain ⟨ψ, hψ, hmem⟩ := Forest.mem_children.1 hm
    have hoccupants : g.occupants n ψ = f.occupants n ψ := by
      rw [h.occupants_eq, if_neg fun e => hnp e.1]
    exact normalForm_eq_of_normalPart hoccupants hmem hshown
      ((h.normalForm_eq_iff_parts hd hacyclic hlt).1 hsame ψ hψ)

/-- **What happens to a child can be seen at the top, and nothing else.** -/
theorem normalForm_eq_iff (h : Grafted f g p φ c d) (hd : f.AcyclicBelow d)
    (ht : f.AcyclicBelow t) (hlt : t < f.size) (hp : f.Below t p) :
    g.normalForm t = f.normalForm t ↔ g.normalForm d = g.normalForm c := by
  rw [← h.normalForm_holder_iff (ht.of_below hp) hd]
  constructor
  · exact fun htop => h.normalForm_eq_on_way hd ht htop hp (.refl hp.lt_size)
  · intro hholder
    exact h.normalForm_eq_of_holder hd hholder _ (ht.fitsWithin h.before.closed hlt) hlt

/-- The tree stays acyclic just if what is put into it is. -/
theorem acyclicBelow_iff (h : Grafted f g p φ c d) (ht : f.AcyclicBelow t) (hp : f.Below t p) :
    g.AcyclicBelow t ↔ f.AcyclicBelow d := by
  have huntouched := h.untouched h.apart
  have hsize := Nat.le_of_eq h.size_eq.symm
  refine ⟨fun hg => ?_, fun hd => h.acyclicBelow hd ht⟩
  have hbelow : g.Below t d := .held (h.live_holder hp)
    (h.placed_mem_children List.mem_cons_self) (h.size_eq ▸ h.lt_size)
  exact (huntouched.acyclicBelow_iff h.before.closed h.lt_size hsize).1 (hg.of_below hbelow)

/-- What is put into the tree and what is taken out of it match as before. -/
theorem matchNodes_eq (h : Grafted f g p φ c d) (hp : f.AcyclicBelow p) :
    (g.matchNodes d c).1 = (f.matchNodes d c).1 := by
  have hlt := lt_size_of_mem_children h.mem_children
  have hltC := h.before.closed p c h.mem_children
  have hc := h.untouched (hp p (.refl hlt) c h.mem_children)
  exact (h.untouched h.apart).matchNodes_eq hc h.before h.after (Nat.le_of_eq h.size_eq.symm)
    h.lt_size hltC (hp.of_below (.child hlt h.mem_children hltC))

/-- **A tree matches its counterpart just if what is put into it matches what is taken out.** -/
theorem matchNodes_iff {k : NodeId} (h : Grafted f g p φ c d) (hk : Counterparts f t k)
    (hp : f.Below t p) : (g.matchNodes t k).1 = true ↔ (g.matchNodes d c).1 = true := by
  have hclosed := h.before.closed
  have hsize := Nat.le_of_eq h.size_eq.symm
  have hmem := h.mem_children
  have hltC := hclosed p c hmem
  have huntouchedK := h.untouched (hk.apart p hp)
  have huntouchedC := h.untouched (hk.acyclic p hp c hmem)
  have huntouchedD := h.untouched h.apart
  have hacyclicC : f.AcyclicBelow c := hk.acyclic.of_below (.held hp hmem hltC)
  rw [Forest.matchNodes_iff h.after (h.size_eq ▸ hk.lt_size) (h.size_eq ▸ hk.lt_size')
      ((huntouchedK.acyclicBelow_iff hclosed hk.lt_size' hsize).2 hk.acyclic'),
    Forest.matchNodes_iff h.after (h.size_eq ▸ h.lt_size) (h.size_eq ▸ hltC)
      ((huntouchedC.acyclicBelow_iff hclosed hltC hsize).2 hacyclicC),
    huntouchedK.normalForm_eq hclosed hk.lt_size' hsize hk.acyclic', ← hk.same,
    h.acyclicBelow_iff hk.acyclic hp, huntouchedD.acyclicBelow_iff hclosed h.lt_size hsize]
  exact and_congr_right fun hd => h.normalForm_eq_iff hd hk.acyclic hk.lt_size hp

end Grafted

/-- A replacement that succeeds puts a node in the place of another, or leaves all records as they
were because it is the same one. -/
theorem grafted_replaceChild (h : f.Regular) (hp : p < f.size) (hd : f.IsNode d)
    (hapart : ¬ f.Below d p)
    (hg : (Mutation.replaceChild p c d).perform f = (.ok true, g)) :
    c = d ∧ g.records = f.records ∨ ∃ φ, Grafted f g p φ c d := by
  have hc := mem_children_of_replaceChild hg
  obtain ⟨φ, hφ⟩ : ∃ φ, f.firstFieldOf? p c = some φ :=
    Option.ne_none_iff_exists'.1 fun hnone => firstFieldOf?_eq_none.1 hnone hc
  cases hfit : φ.category.accepts (f.kind d) with
  | false =>
    rw [Mutation.perform_replaceChild_misfit h hφ hfit] at hg
    exact absurd (Prod.mk.inj hg).1 (by simp)
  | true =>
    obtain ⟨g', hg', hcases⟩ := Mutation.perform_replaceChild_fit h hp hd.lt_size hφ hfit
    obtain rfl : g' = g := (Prod.mk.inj (hg'.symm.trans hg)).2
    rcases hcases with ⟨hcd, rfl⟩ | ⟨-, hr⟩
    · exact .inl ⟨hcd, rfl⟩
    · refine .inr ⟨φ, hr, h, h.rewired hr fun x hx => ?_, (mem_of_firstFieldOf? hφ).2, hd.lt_size,
        hapart⟩
      rw [List.mem_singleton.1 hx]
      exact hd

end Forest

namespace World

open Forest

/-- **Replacing a child is a congruence for matching, and the other way round.** In every reachable
world an acyclic tree is copied. Later, with nothing changed in the tree and in the copy but links,
a child of some node of the tree is replaced by a node that does not hold that node. Then the tree
matches its copy just if the replacement matches the child. Whether it does has not been changed by
the replacement. So a replacement by a node that matches the child, or by the child itself, cannot
be seen, and any other can. -/
theorem replaceChild_congruence {w v : World} (hw : w.Reachable) {t : NodeId}
    (ht : w.forest.IsNode t) (hacyclic : w.forest.AcyclicBelow t)
    (hrun : Run Anything (w.after (.call (.copy t))) v)
    (htree : Untouched (w.forest.copy t).2 v.forest t)
    (hcopy : Untouched (w.forest.copy t).2 v.forest (w.forest.copy t).1)
    {p c d : NodeId} (hp : v.forest.Below t p) (hd : v.forest.IsNode d)
    (hapart : ¬ v.forest.Below d p) {g : Forest}
    (hg : (Mutation.replaceChild p c d).perform v.forest = (.ok true, g)) :
    ((g.matchNodes t (w.forest.copy t).1).1 = true ↔ (g.matchNodes d c).1 = true) ∧
      (g.matchNodes d c).1 = (v.forest.matchNodes d c).1 := by
  have hafter : (w.after (.call (.copy t))).Reachable :=
    Run.move hw ⟨by rintro _ ⟨⟩; exact ht.lt_size, by simp [Call.placed], ht⟩ trivial
  have hregular : v.forest.Regular := Reachable.regular (Run.trans hafter hrun)
  have hsize := (hrun.extends (Run.sound hafter sound_empty)).size_le
  have hparts : Counterparts v.forest t (w.forest.copy t).1 :=
    (counterparts_copy hw.regular ht hacyclic).untouched htree hcopy hafter.regular.closed hsize
  rcases grafted_replaceChild hregular hp.lt_size hd hapart hg with ⟨rfl, hsame⟩ | ⟨φ, hgraft⟩
  · -- the child takes its own place
    have hamended := Amended.of_records hsame
    have hparts' : Counterparts g t (w.forest.copy t).1 := hparts.untouched (.of_records hsame)
      (.of_records hsame) hregular.closed (Nat.le_of_eq hamended.size_eq.symm)
    refine ⟨iff_of_true (hparts'.matchNodes_eq (hregular.amended hamended)) ?_, ?_⟩
    · exact matchNodes_self g c
    · rw [matchNodes_self, matchNodes_self]
  · exact ⟨hgraft.matchNodes_iff hparts hp, hgraft.matchNodes_eq (hparts.acyclic.of_below hp)⟩

/-- A macro statement with the body `f(x); return x`, in which the name is shared. -/
def bodied : List Move :=
  [.call (.construct {} (.reference "x") []),
   .call (.construct {} .methodInvocation [.sequence .arguments [0]]),
   .call (.construct {} .expressionStatement [.single .expression (some 1)]),
   .call (.construct {} .returnStatement [.single .expression (some 0)]),
   .call (.construct {} (.macroStatement "m") []),
   .call (.body 4),
   .call (.change 5 (.edit .statements (.extend [2, 3])))]

/-- After the copy, whose nodes are `6` to `12`, a name that matches the old one, a name that does
not, and a block that has been left alone. -/
def replacements : List Move :=
  [.call (.construct {} (.reference "x") []),
   .call (.construct {} (.reference "y") []),
   .call (.construct {} .block [])]

/-- The name far down, replaced by one that matches it and by one that does not, and the whole
body, replaced by one that would be hidden. -/
theorem replaceChild_congruence_bodied :
    let w := bodied.foldl after {}
    let v := replacements.foldl after (w.after (.call (.copy 4)))
    let replaced p c d := ((Mutation.replaceChild p c d).perform v.forest).2
    ((replaced 1 0 13).matchNodes 4 12).1 = true ∧
      ((replaced 1 0 14).matchNodes 4 12).1 ≠ true ∧
      ((replaced 4 5 15).matchNodes 4 12).1 ≠ true := by
  intro w v replaced
  have hw : w.Reachable := .of_allows (.refl _) (by decide +kernel)
  have hrun : Run Anything (w.after (.call (.copy 4))) v := .of_allows (.refl _) (by decide +kernel)
  have hcopy : (w.forest.copy 4).1 = 12 := by decide +kernel
  have hdone : ∀ {r : Except Error Bool × Forest}, r.1 = .ok true → r = (.ok true, r.2) :=
    fun h => Prod.ext h rfl
  have hiff := fun {p c d} => replaceChild_congruence hw (t := 4) (p := p) (c := c) (d := d)
    (by decide +kernel) (by decide +kernel) hrun (by decide +kernel) (by decide +kernel)
  rw [hcopy] at hiff
  have hmatching := (hiff (by decide +kernel) (by decide +kernel) (by decide +kernel)
    (hdone (r := (Mutation.replaceChild 1 0 13).perform v.forest) (by decide +kernel))).1
  have hother := (hiff (by decide +kernel) (by decide +kernel) (by decide +kernel)
    (hdone (r := (Mutation.replaceChild 1 0 14).perform v.forest) (by decide +kernel))).1
  have hhidden := (hiff (by decide +kernel) (by decide +kernel) (by decide +kernel)
    (hdone (r := (Mutation.replaceChild 4 5 15).perform v.forest) (by decide +kernel))).1
  exact ⟨hmatching.2 (by decide +kernel), fun h => absurd (hother.1 h) (by decide +kernel),
    fun h => absurd (hhidden.1 h) (by decide +kernel)⟩

end World

end SyntaxForest
