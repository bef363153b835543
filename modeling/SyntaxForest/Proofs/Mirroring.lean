import SyntaxForest.Forest.Compare
import SyntaxForest.Proofs.Regularity
import Mathlib.Data.List.Forall2
import Mathlib.Data.List.Nodup
import Mathlib.Data.List.Pairwise

/-!
# Trees that mirror each other

A place in a tree is named by the way down to it: a list of fields, each with an index.
`follow` goes that way. Two trees *mirror* each other when every way leads somewhere in both or
in neither, and to nodes with equal scalars and attributes where it does. So the kinds, the
occupancy of every field and the length and order of every sequence are the same; the
identities of the nodes, their links and how often a node is shared are not looked at.

`Mirrors` speaks about two forests, which may be two states of one. It can be taken apart into
the top node and the fields (`Mirrors.fields`) and put together again (`Mirrors.of_fields`),
and does not depend on records added later (`Mirrors.grows_left`, `Mirrors.grows_right`). Trees
that mirror each other match (`Mirrors.matchNodes_eq`).
-/

namespace SyntaxForest

/-- The two records have the same kind, scalar and attributes. -/
structure Record.Resembles (r t : Record) : Prop where
  head : r.head = t.head
  location : r.location = t.location
  endPosition : r.endPosition = t.endPosition
  documentation : r.documentation = t.documentation
  annotations : r.annotations = t.annotations

theorem Record.Resembles.symm {r t : Record} (h : r.Resembles t) : t.Resembles r :=
  ⟨h.head.symm, h.location.symm, h.endPosition.symm, h.documentation.symm, h.annotations.symm⟩

/-- Records that differ in their links only are alike. -/
theorem Record.resembles_of_withLink {r t u : Record} (h : r.withLink none = t.withLink none) :
    r.Resembles u ↔ t.Resembles u := by
  obtain ⟨h₁, -, -, -, h₅, h₆, h₇, h₈⟩ := Record.mk.inj h
  constructor <;> rintro ⟨k₁, k₅, k₆, k₇, k₈⟩ <;> constructor <;> simp_all [Record.withLink]

namespace Forest

/-! ## Ways down -/

/-- The child in the given place of a node. -/
def childAt? (f : Forest) (n : NodeId) (place : Field × Nat) : Option NodeId :=
  if place.1 ∈ (f.kind n).fields then (f.occupants n place.1)[place.2]? else none

/-- The node at the end of a way down. -/
def follow (f : Forest) : NodeId → List (Field × Nat) → Option NodeId
  | n, [] => some n
  | n, place :: way => (f.childAt? n place).bind fun c => follow f c way

variable {f g h : Forest} {n m x y c : NodeId} {way : List (Field × Nat)}

/-- What is at a place is a child. -/
theorem mem_of_childAt? {place : Field × Nat} (hc : f.childAt? n place = some c) :
    c ∈ f.children n := by
  unfold childAt? at hc
  split at hc
  · next hφ => exact mem_children.2 ⟨place.1, hφ, List.mem_of_getElem? hc⟩
  · exact absurd hc (by simp)

/-- A way down ends below its start. -/
theorem below_of_follow (hclosed : f.Closed) (hn : n < f.size)
    (hm : f.follow n way = some m) : f.Below n m := by
  induction way generalizing n with
  | nil =>
    obtain rfl := Option.some.inj hm
    exact .refl hn
  | cons place way ih =>
    obtain ⟨c, hc, hm⟩ := Option.bind_eq_some_iff.1 hm
    have hmem := mem_of_childAt? hc
    have hlt := hclosed n c hmem
    exact (Below.child hn hmem hlt).trans (ih hlt hm)

/-- Growth leaves the places of old nodes as they are. -/
theorem Grows.childAt?_eq (hg : Grows f g) (hn : n < f.size) (place : Field × Nat) :
    g.childAt? n place = f.childAt? n place := by
  rw [childAt?, childAt?, hg.kind_eq hn, hg.occupants_eq hn]

/-- Records added later do not change where a way leads. -/
theorem Grows.follow_eq (hg : Grows f g) (hclosed : f.Closed) (hn : n < f.size) :
    g.follow n way = f.follow n way := by
  induction way generalizing n with
  | nil => rfl
  | cons place way ih =>
    simp only [follow]
    rw [hg.childAt?_eq hn]
    cases hc : f.childAt? n place with
    | none => rfl
    | some c => exact ih (hclosed n c (mem_of_childAt? hc))

/-! ### One way to every node -/

/-- Where no child occurs twice, a child is in one place only. -/
theorem place_unique {p : NodeId} {i j : Field × Nat} (hnodup : (f.children p).Nodup)
    (hi : f.childAt? p i = some c) (hj : f.childAt? p j = some c) : i = j := by
  obtain ⟨φ, i⟩ := i
  obtain ⟨ψ, j⟩ := j
  rw [children_eq_flatMap, List.nodup_flatMap] at hnodup
  obtain ⟨hfield, hdisjoint⟩ := hnodup
  unfold childAt? at hi hj
  split at hi <;> split at hj <;> try contradiction
  next hφ hψ =>
  dsimp only at hφ hψ hi hj
  have hsame : φ = ψ := by
    apply Decidable.byContradiction
    intro hne
    have : Std.Symm (Function.onFun List.Disjoint (f.occupants p)) := ⟨fun _ _ h => h.symm⟩
    exact hdisjoint.forall hφ hψ hne (List.mem_of_getElem? hi) (List.mem_of_getElem? hj)
  subst hsame
  obtain ⟨hlt, -⟩ := List.getElem?_eq_some_iff.1 hi
  rw [(List.getElem?_inj hlt (hfield φ hφ)).1 (hi.trans hj.symm)]

/-- A way is followed step by step. -/
theorem follow_append (f : Forest) (n : NodeId) (way : List (Field × Nat)) (place : Field × Nat) :
    f.follow n (way ++ [place]) = (f.follow n way).bind fun m => f.childAt? m place := by
  induction way generalizing n with
  | nil => simp only [follow, List.nil_append, Option.bind_some, Option.bind_fun_some]
  | cons first way ih =>
    simp only [List.cons_append, follow, ih]
    cases f.childAt? n first <;> rfl

/-- Where every node is held once and linked to its holder, the links show the only way back to
a root that is held by nothing. -/
theorem way_unique (hclosed : f.Closed) (hn : n < f.size) (hroot : f.link n = none)
    (hnodup : ∀ m, f.Below n m → (f.children m).Nodup)
    (hlink : ∀ m, f.Below n m → ∀ c ∈ f.children m, f.link c = some m) :
    ∀ {way other : List (Field × Nat)} {m : NodeId}, f.follow n way = some m →
      f.follow n other = some m → way = other := by
  -- the last step of a way that is not empty is known from the link of where it ends
  have hlast : ∀ {way place m}, f.follow n (way ++ [place]) = some m →
      ∃ p, f.link m = some p ∧ f.follow n way = some p ∧ f.childAt? p place = some m ∧
        (f.children p).Nodup := by
    intro way place m h
    rw [follow_append] at h
    obtain ⟨p, hp, hm⟩ := Option.bind_eq_some_iff.1 h
    have hb := below_of_follow hclosed hn hp
    exact ⟨p, hlink p hb m (mem_of_childAt? hm), hp, hm, hnodup p hb⟩
  have hstart : ∀ {way place}, f.follow n (way ++ [place]) ≠ some n := by
    intro way place h
    obtain ⟨p, hp, -⟩ := hlast h
    exact absurd (hroot.symm.trans hp) (by simp)
  intro way
  induction way using List.reverseRecOn with
  | nil =>
    intro other m h₁ h₂
    obtain rfl := Option.some.inj h₁
    rcases List.eq_nil_or_concat' other with rfl | ⟨other, place, rfl⟩
    · rfl
    · exact absurd h₂ hstart
  | append_singleton way place ih =>
    intro other m h₁ h₂
    rcases List.eq_nil_or_concat' other with rfl | ⟨other, place', rfl⟩
    · obtain rfl := Option.some.inj h₂
      exact absurd h₁ hstart
    · obtain ⟨p, hp, hway, hplace, hnd⟩ := hlast h₁
      obtain ⟨q, hq, hway', hplace', -⟩ := hlast h₂
      obtain rfl := Option.some.inj (hp.symm.trans hq)
      rw [ih hway hway', place_unique hnd hplace hplace']

/-! ## Mirroring -/

/-- Every way down from `x` in `f` and from `y` in `g` ends at nodes that resemble each other,
or in neither forest at a node. -/
def Mirrors (f g : Forest) (x y : NodeId) : Prop :=
  ∀ way, Option.Rel (fun a b => (f.record a).Resembles (g.record b))
    (f.follow x way) (g.follow y way)

theorem Mirrors.resembles (hm : Mirrors f g x y) : (f.record x).Resembles (g.record y) := by
  cases hm [] with
  | some h => exact h

theorem Mirrors.kind_eq (hm : Mirrors f g x y) : g.kind y = f.kind x :=
  congrArg Head.kind hm.resembles.head.symm

/-- Places are occupied on both sides or on neither, and what is there mirrors each other. -/
theorem Mirrors.childAt? (hm : Mirrors f g x y) (place : Field × Nat) :
    Option.Rel (Mirrors f g) (f.childAt? x place) (g.childAt? y place) := by
  have hway := fun way => hm (place :: way)
  simp only [follow] at hway
  cases hx : f.childAt? x place with
  | none =>
    rw [hx] at hway
    cases hy : g.childAt? y place with
    | none => exact .none
    | some d =>
      rw [hy] at hway
      cases hway []
  | some c =>
    rw [hx] at hway
    cases hy : g.childAt? y place with
    | none =>
      rw [hy] at hway
      cases hway []
    | some d =>
      rw [hy] at hway
      exact .some hway

/-- Lists whose elements match in every place match. -/
theorem forall₂_of_getElem? {R : NodeId → NodeId → Prop} : ∀ {xs ys : List NodeId},
    (∀ i : Nat, Option.Rel R xs[i]? ys[i]?) → List.Forall₂ R xs ys
  | [], [], _ => .nil
  | [], y :: ys, h => by cases h 0
  | x :: xs, [], h => by cases h 0
  | x :: xs, y :: ys, h => by
    refine .cons ?_ (forall₂_of_getElem? fun i => by simpa using h (i + 1))
    cases h 0 with
    | some h => exact h

theorem getElem?_of_forall₂ {R : NodeId → NodeId → Prop} {xs ys : List NodeId}
    (h : List.Forall₂ R xs ys) : ∀ i : Nat, Option.Rel R xs[i]? ys[i]? := by
  induction h with
  | nil => intro i; exact .none
  | cons hr _ ih =>
    intro i
    cases i with
    | zero => exact .some hr
    | succ i => simpa using ih i

/-- The occupants of every field mirror each other. -/
theorem Mirrors.fields (hm : Mirrors f g x y) {φ : Field} (hφ : φ ∈ (f.kind x).fields) :
    List.Forall₂ (Mirrors f g) (f.occupants x φ) (g.occupants y φ) := by
  refine forall₂_of_getElem? fun i => ?_
  have hi := hm.childAt? (φ, i)
  rw [Forest.childAt?, Forest.childAt?, if_pos hφ, if_pos (hm.kind_eq ▸ hφ)] at hi
  exact hi

/-- Two nodes mirror each other if they are alike and hold mirrored nodes, field by field. -/
theorem Mirrors.of_fields (htop : (f.record x).Resembles (g.record y))
    (hfields : ∀ φ ∈ (f.kind x).fields,
      List.Forall₂ (Mirrors f g) (f.occupants x φ) (g.occupants y φ)) : Mirrors f g x y := by
  have hkind : g.kind y = f.kind x := congrArg Head.kind htop.head.symm
  intro way
  cases way with
  | nil => exact .some htop
  | cons place way =>
    simp only [follow, Forest.childAt?]
    rw [hkind]
    by_cases hφ : place.1 ∈ (f.kind x).fields
    · rw [if_pos hφ, if_pos hφ]
      have hi := getElem?_of_forall₂ (hfields place.1 hφ) place.2
      generalize (f.occupants x place.1)[place.2]? = a at hi
      generalize (g.occupants y place.1)[place.2]? = b at hi
      cases hi with
      | none => exact .none
      | some h => exact h way
    · rw [if_neg hφ, if_neg hφ]
      exact .none

/-- A mirror works both ways. -/
theorem Mirrors.symm (hm : Mirrors f g x y) : Mirrors g f y x := by
  intro way
  have h := hm way
  generalize f.follow x way = a at h
  generalize g.follow y way = b at h
  cases h with
  | none => exact .none
  | some h => exact .some h.symm

/-- The left tree may be read in an earlier state of its forest. -/
theorem Mirrors.grows_left (hg : Grows f h) (hclosed : f.Closed) (hx : x < f.size) :
    Mirrors h g x y ↔ Mirrors f g x y := by
  refine forall_congr' fun way => ?_
  rw [hg.follow_eq hclosed hx]
  cases ha : f.follow x way with
  | none =>
    generalize g.follow y way = b
    constructor <;> (intro h; cases h; exact .none)
  | some a =>
    have hlt := (below_of_follow hclosed hx ha).lt_size
    have hiff := fun b => Record.resembles_of_withLink (u := g.record b) (hg.record_eq a hlt)
    generalize g.follow y way = b
    constructor
    · intro h
      cases h with
      | some h => exact .some ((hiff _).1 h)
    · intro h
      cases h with
      | some h => exact .some ((hiff _).2 h)

/-- It makes no difference what is added later. -/
theorem Mirrors.grows_right (hg : Grows g h) (hclosed : g.Closed) (hy : y < g.size) :
    Mirrors f h x y ↔ Mirrors f g x y :=
  ⟨fun hm => ((grows_left hg hclosed hy).1 hm.symm).symm,
    fun hm => ((grows_left hg hclosed hy).2 hm.symm).symm⟩

/-! ## Comparison -/

section Comparison

variable {pristine : NodeId → Bool} {differ : NodeId → NodeId → Option Mismatch}

/-- Two equally long sequences show no difference just if no two elements do, one for one. -/
theorem differElements_eq_none {k : Kind} {s : SequenceField} {xs ys : List NodeId} :
    ∀ {i : Nat}, xs.length = ys.length → (differElements differ k s i xs ys = none ↔
      List.Forall₂ (fun x y => differ x y = none) xs ys) := by
  induction xs generalizing ys with
  | nil =>
    intro i hlen
    obtain rfl := List.length_eq_zero_iff.1 hlen.symm
    simp [differElements]
  | cons x xs ih =>
    intro i hlen
    obtain ⟨y, ys, rfl⟩ := List.exists_cons_of_length_eq_add_one hlen.symm
    rw [differElements, List.forall₂_cons]
    cases hd : differ x y with
    | some m => simp
    | none => simpa using ih (Nat.succ.inj hlen)

/-- Two sequences show no difference when they are equally long and their elements show none. -/
theorem differField_sequence {k : Kind} {a b : Contents} {s : SequenceField} :
    differField pristine differ k a b (.sequence s) = none ↔
      List.Forall₂ (fun x y => differ x y = none) (a.sequence s) (b.sequence s) := by
  simp only [differField]
  split
  · next hlen => exact differElements_eq_none hlen
  · next hlen => simpa using fun h : List.Forall₂ _ _ _ => hlen h.length_eq

/-- Two nodes show no difference when their heads are equal and no field shows one. -/
theorem differHere_eq_none {a b : Record} :
    differHere pristine differ a b = none ↔ a.head = b.head ∧
      ∀ φ ∈ a.kind.fields, differField pristine differ a.kind a.contents b.contents φ = none := by
  have hfields : ∀ φs, differFields pristine differ a.kind a.contents b.contents φs = none ↔
      ∀ φ ∈ φs, differField pristine differ a.kind a.contents b.contents φ = none :=
    fun _ => List.findSome?_eq_none_iff
  unfold differHere Kind.fields
  by_cases hkind : a.kind = b.kind
  · rw [if_neg (not_not_intro hkind)]
    by_cases hhead : a.head = b.head
    · rw [if_neg (not_not_intro hhead)]
      simp only [List.mem_append, or_imp, forall_and, ← hfields, hhead, true_and]
      split <;> simp_all
    · rw [if_pos hhead]
      split <;> simp [hhead]
  · rw [if_pos hkind]
    have hhead : a.head ≠ b.head := fun e => hkind (congrArg Head.kind e)
    simp [hhead]

end Comparison

/-- Fields whose occupants show no difference pairwise show none. -/
theorem differField_of_forall₂ {pristine : NodeId → Bool}
    {differ : NodeId → NodeId → Option Mismatch} {k : Kind} {a b : Contents} {φ : Field}
    (h : List.Forall₂ (fun x y => differ x y = none) (a.occupants φ) (b.occupants φ)) :
    differField pristine differ k a b φ = none := by
  cases φ with
  | single s =>
    simp only [Contents.occupants] at h
    unfold differField
    cases ha : a.single s <;> cases hb : b.single s <;> simp_all
  | sequence s => exact differField_sequence.2 h

/-- Trees that mirror each other show no difference. -/
theorem Mirrors.mismatchWithin_eq_none : ∀ (depth : Nat) {x y : NodeId}, Mirrors f f x y →
    f.mismatchWithin depth x y = none := by
  intro depth
  induction depth with
  | zero => intro x y _; rfl
  | succ depth ih =>
    intro x y hm
    rw [mismatchWithin]
    split
    · rfl
    · refine differHere_eq_none.2 ⟨hm.resembles.head, fun φ hφ => ?_⟩
      exact differField_of_forall₂ ((hm.fields hφ).imp fun _ _ => ih)

/-- **Trees that mirror each other match.** -/
theorem Mirrors.matchNodes_eq (hm : Mirrors f f x y) : f.matchNodes x y = (true, f) := by
  rw [matchNodes, mismatch?, hm.mismatchWithin_eq_none f.size]

end Forest

end SyntaxForest
