import SyntaxForest.Proofs.NormalForms

/-!
# The first difference

A comparison that fails answers with a path and a reason. `Diverges` says what these mean, without
regard to how they are found. A path is followed from both nodes at once: each step names the kind
that the two nodes have in common, the part of them that it goes on with, and an index if it goes
on with an element of a sequence. At its end are two nodes of different kinds, or two nodes of one
kind that differ in the part named last. And at every node on the way all that comes before the
step matches: the parts that the kind has before it (`Kind.parts`), and the elements of smaller
index.

The path is built from the inside out, one step for each level that the comparison returns from.
So it is enough to look at one level. There the parts are gone through in order until one of them
shows a difference (`differHere_eq_findSome?`), and for each sort of part it can be said in what
the difference consists (`differPart_single_eq_some`, `differPart_sequence_eq_some`). Levels are
put together by `mismatch?_eq`: of an acyclic tree the comparison sees as many levels as there
are.

Main statement: `World.mismatch?_iff_diverges`, the comparison finds just the first difference.
-/

namespace SyntaxForest

/-- A head is known from its kind and its scalar. -/
theorem Head.ext_literal? {h t : Head} (hkind : h.kind = t.kind)
    (hliteral : h.literal? = t.literal?) : h = t := by
  cases hl : h.literal? with
  | some l =>
    have hh := Head.ofLiteral?_literal? hl
    have ht := Head.ofLiteral?_literal? (hliteral.symm.trans hl)
    rw [hkind] at hh
    exact Option.some.inj (hh.symm.trans ht)
  | none =>
    -- a kind without a scalar has one head only
    cases h <;> simp only [Head.literal?, reduceCtorEq] at hl <;>
      cases t <;> simp_all [Head.kind]

theorem Head.literal?_eq_none {h : Head} (hnone : h.kind.hasScalar = false) :
    h.literal? = none := by
  rw [← h.isSome_literal?, Option.isSome_eq_false_iff, Option.isNone_iff_eq_none] at hnone
  exact hnone

/-- What two nodes of a kind are compared by, in the order of comparison: the shared fields, the
scalar if there is one, and the kind's own fields as declared. -/
def Kind.parts (k : Kind) : List Part :=
  k.sharedFields.map .field ++ (if k.hasScalar then [.scalar] else []) ++ k.ownFields.map .field

theorem Kind.field_mem_parts {k : Kind} {φ : Field} : .field φ ∈ k.parts ↔ φ ∈ k.fields := by
  cases hscalar : k.hasScalar <;> simp [parts, fields, hscalar]

namespace Forest

variable {f : Forest} {x y c d : NodeId} {k : Kind} {a b : Record} {m : Mismatch}
  {pristine : NodeId → Bool} {differ below : NodeId → NodeId → Option Mismatch}

/-! ## What a difference is -/

/-- The two nodes match. -/
def Matches (f : Forest) (x y : NodeId) : Prop := (f.matchNodes x y).1 = true

/-- The two nodes match as far as one part of them goes. -/
def MatchesIn (f : Forest) (x y : NodeId) : Part → Prop
  | .scalar => (f.record x).head.literal? = (f.record y).head.literal?
  | .field (.single s) =>
    match f.single x s, f.single y s with
    | none, none => True
    | some c, some d => f.Matches c d
    | some c, none | none, some c => s.isLazy = true ∧ f.pristine c = true
  | .field (.sequence s) => List.Forall₂ f.Matches (f.sequence x s) (f.sequence y s)

/-- The two nodes are of one kind, which has the part `p`, and match in all parts before it. -/
def MatchBefore (f : Forest) (x y : NodeId) (p : Part) : Prop :=
  f.kind x = f.kind y ∧ ∃ before after, (f.kind x).parts = before ++ p :: after ∧
    ∀ q ∈ before, f.MatchesIn x y q

theorem MatchBefore.mem_fields {φ : Field} (h : f.MatchBefore x y (.field φ)) :
    φ ∈ (f.kind x).fields := by
  obtain ⟨-, before, after, hparts, -⟩ := h
  refine Kind.field_mem_parts.1 ?_
  rw [hparts]
  exact List.mem_append_right _ List.mem_cons_self

/-- Of the two nodes one has an occupant in the field and the other has none. -/
def OccupiedOnce (f : Forest) (x y : NodeId) (s : SingleField) (c : NodeId) : Prop :=
  f.single x s = some c ∧ f.single y s = none ∨ f.single x s = none ∧ f.single y s = some c

/-- The mismatch is the first difference of the two nodes. -/
inductive Diverges (f : Forest) : NodeId → NodeId → Mismatch → Prop
  /-- The nodes are of different kinds. -/
  | kinds {x y : NodeId} : f.kind x ≠ f.kind y →
    Diverges f x y ⟨[], .kinds (f.kind x) (f.kind y)⟩
  /-- Their scalars differ. -/
  | values {x y : NodeId} : f.MatchBefore x y .scalar →
    (f.record x).head.literal? ≠ (f.record y).head.literal? →
    Diverges f x y ⟨[⟨f.kind x, .scalar, none⟩], .values⟩
  /-- A single field is occupied on one side only, and not by something that counts as absent. -/
  | presence {x y c : NodeId} {s : SingleField} : f.MatchBefore x y (.field (.single s)) →
    f.OccupiedOnce x y s c → ¬ (s.isLazy = true ∧ f.pristine c = true) →
    Diverges f x y ⟨[⟨f.kind x, .field (.single s), none⟩], .presence⟩
  /-- Two sequences are not equally long. -/
  | lengths {x y : NodeId} {s : SequenceField} : f.MatchBefore x y (.field (.sequence s)) →
    (f.sequence x s).length ≠ (f.sequence y s).length →
    Diverges f x y ⟨[⟨f.kind x, .field (.sequence s), none⟩],
      .lengths (f.sequence x s).length (f.sequence y s).length⟩
  /-- The occupants of a single field differ. -/
  | occupant {x y c d : NodeId} {s : SingleField} {m : Mismatch} :
    f.MatchBefore x y (.field (.single s)) → f.single x s = some c → f.single y s = some d →
    Diverges f c d m → Diverges f x y (m.below ⟨f.kind x, .field (.single s), none⟩)
  /-- Two sequences are equally long, and these are their first elements that do not match. -/
  | element {x y c d : NodeId} {s : SequenceField} {m : Mismatch}
    {first first' rest rest' : List NodeId} : f.MatchBefore x y (.field (.sequence s)) →
    (f.sequence x s).length = (f.sequence y s).length →
    f.sequence x s = first ++ c :: rest → f.sequence y s = first' ++ d :: rest' →
    List.Forall₂ f.Matches first first' → Diverges f c d m →
    Diverges f x y (m.below ⟨f.kind x, .field (.sequence s), some first.length⟩)

/-- A node does not differ from itself. -/
theorem Diverges.ne (h : Diverges f x y m) : x ≠ y := by
  induction h with
  | kinds hkind => exact fun e => hkind (congrArg f.kind e)
  | values _ hliteral => exact fun e => hliteral (by rw [e])
  | presence _ honce _ =>
    rintro rfl
    rcases honce with ⟨hsome, hnone⟩ | ⟨hnone, hsome⟩ <;>
      exact absurd (hsome.symm.trans hnone) (by simp)
  | lengths _ hlength => exact fun e => hlength (by rw [e])
  | occupant _ hc hd _ ih =>
    rintro rfl
    exact ih (Option.some.inj (hc.symm.trans hd))
  | element _ _ hc hd hfirst _ ih =>
    rintro rfl
    exact ih (List.cons.inj (List.append_inj (hc.symm.trans hd) hfirst.length_eq).2).1

/-! ## One level of the comparison -/

/-- The first difference in one part of two nodes of one kind. -/
def differPart (pristine : NodeId → Bool) (differ : NodeId → NodeId → Option Mismatch)
    (a b : Record) : Part → Option Mismatch
  | .scalar =>
    if a.head.literal? = b.head.literal? then none
    else some ⟨[⟨a.kind, .scalar, none⟩], .values⟩
  | .field φ => differField pristine differ a.kind a.contents b.contents φ

/-- Two nodes of one kind are compared part by part. -/
theorem differHere_eq_findSome? (hkind : a.kind = b.kind) :
    differHere pristine differ a b = a.kind.parts.findSome? (differPart pristine differ a b) := by
  have hfields : ∀ φs : List Field, (φs.map Part.field).findSome? (differPart pristine differ a b) =
      differFields pristine differ a.kind a.contents b.contents φs := fun φs => List.findSome?_map
  rw [differHere, if_neg (not_not_intro hkind), Kind.parts, List.findSome?_append,
    List.findSome?_append, hfields, hfields]
  cases differFields pristine differ a.kind a.contents b.contents a.kind.sharedFields with
  | some m => rfl
  | none =>
    by_cases hhead : a.head = b.head
    · have hscalar : differPart pristine differ a b .scalar = none := by
        rw [differPart, if_pos (by rw [hhead])]
      cases a.kind.hasScalar <;> simp [hhead, hscalar]
    · have hliteral : a.head.literal? ≠ b.head.literal? :=
        fun e => hhead (Head.ext_literal? hkind e)
      have hscalar : a.kind.hasScalar = true := by
        apply Decidable.byContradiction
        intro hnone
        have ha : a.head.kind.hasScalar = false := Bool.eq_false_of_not_eq_true hnone
        have hb : b.head.kind.hasScalar = false := by
          rw [← show a.head.kind = b.head.kind from hkind]
          exact ha
        exact hliteral ((Head.literal?_eq_none ha).trans (Head.literal?_eq_none hb).symm)
      simp [hhead, hscalar, differPart, hliteral]

/-- Elements are compared up to the first that differ. -/
theorem differElements_eq_some {s : SequenceField} {xs ys : List NodeId} : ∀ {i : Nat},
    differElements differ k s i xs ys = some m ↔
      ∃ first first' c d rest rest' n, xs = first ++ c :: rest ∧ ys = first' ++ d :: rest' ∧
        List.Forall₂ (fun c d => differ c d = none) first first' ∧ differ c d = some n ∧
        n.below ⟨k, .field (.sequence s), some (i + first.length)⟩ = m := by
  induction xs generalizing ys with
  | nil => simp [differElements]
  | cons x xs ih =>
    intro i
    cases ys with
    | nil => simp [differElements]
    | cons y ys =>
      rw [differElements]
      cases hxy : differ x y with
      | some n =>
        constructor
        · intro h
          exact ⟨[], [], x, y, xs, ys, n, rfl, rfl, .nil, hxy, Option.some.inj h⟩
        · rintro ⟨first, first', c, d, rest, rest', n', hxs, hys, hfirst, hcd, rfl⟩
          cases hfirst with
          | nil =>
            obtain ⟨rfl, rfl⟩ := List.cons.inj hxs
            obtain ⟨rfl, rfl⟩ := List.cons.inj hys
            rw [hxy] at hcd
            rw [Option.some.inj hcd]
            rfl
          | cons hnone _ =>
            obtain ⟨rfl, -⟩ := List.cons.inj hxs
            obtain ⟨rfl, -⟩ := List.cons.inj hys
            rw [hxy] at hnone
            exact absurd hnone (by simp)
      | none =>
        have hshift : ∀ n : Nat, i + 1 + n = i + (n + 1) := fun n => by omega
        simp only [ih, hshift]
        constructor
        · rintro ⟨first, first', c, d, rest, rest', n, rfl, rfl, hfirst, hcd, rfl⟩
          exact ⟨x :: first, y :: first', c, d, rest, rest', n, rfl, rfl, .cons hxy hfirst, hcd,
            rfl⟩
        · rintro ⟨first, first', c, d, rest, rest', n, hxs, hys, hfirst, hcd, rfl⟩
          cases hfirst with
          | nil =>
            obtain ⟨rfl, rfl⟩ := List.cons.inj hxs
            obtain ⟨rfl, rfl⟩ := List.cons.inj hys
            rw [hxy] at hcd
            exact absurd hcd (by simp)
          | cons _ hfirst =>
            obtain ⟨rfl, rfl⟩ := List.cons.inj hxs
            obtain ⟨rfl, rfl⟩ := List.cons.inj hys
            exact ⟨_, _, c, d, rest, rest', n, rfl, rfl, hfirst, hcd, rfl⟩

/-- Two sequences differ in their lengths, or else in the first elements that do. -/
theorem differPart_sequence_eq_some {s : SequenceField} :
    differPart pristine differ (f.record x) (f.record y) (.field (.sequence s)) = some m ↔
      (f.sequence x s).length ≠ (f.sequence y s).length ∧
          ⟨[⟨f.kind x, .field (.sequence s), none⟩],
            .lengths (f.sequence x s).length (f.sequence y s).length⟩ = m ∨
        (f.sequence x s).length = (f.sequence y s).length ∧
          differElements differ (f.kind x) s 0 (f.sequence x s) (f.sequence y s) = some m := by
  show (if (f.sequence x s).length = (f.sequence y s).length then
    differElements differ (f.kind x) s 0 (f.sequence x s) (f.sequence y s)
    else some ⟨[⟨f.kind x, .field (.sequence s), none⟩],
      .lengths (f.sequence x s).length (f.sequence y s).length⟩) = some m ↔ _
  by_cases hlength : (f.sequence x s).length = (f.sequence y s).length
  · rw [if_pos hlength]
    simp [hlength]
  · rw [if_neg hlength, Option.some.injEq]
    simp [hlength]

/-- The occupants of a single field differ, or it has one on one side only. -/
theorem differPart_single_eq_some {s : SingleField} :
    differPart pristine differ (f.record x) (f.record y) (.field (.single s)) = some m ↔
      (∃ c d n, f.single x s = some c ∧ f.single y s = some d ∧ differ c d = some n ∧
          n.below ⟨f.kind x, .field (.single s), none⟩ = m) ∨
        ∃ c, f.OccupiedOnce x y s c ∧ ¬ (s.isLazy = true ∧ pristine c = true) ∧
          ⟨[⟨f.kind x, .field (.single s), none⟩], .presence⟩ = m := by
  have hkind : (f.record x).kind = f.kind x := rfl
  rw [differPart, differField_single, hkind]
  cases hx : f.single x s <;> cases hy : f.single y s <;> simp [OccupiedOnce, hx, hy]

/-- A part shows no difference just if the nodes match in it. -/
theorem differPart_eq_none {p : Part} :
    differPart f.pristine f.mismatch? (f.record x) (f.record y) p = none ↔
      f.MatchesIn x y p := by
  have hmatches : ∀ c d, f.mismatch? c d = none ↔ f.Matches c d := fun c d =>
    matchNodes_eq_true.symm
  cases p with
  | scalar => simp [differPart, MatchesIn]
  | field φ =>
    rw [differPart]
    cases φ with
    | single s =>
      rw [differField_single, MatchesIn]
      cases hx : f.single x s <;> cases hy : f.single y s <;> simp [hmatches]
    | sequence s =>
      rw [differField_sequence]
      simp only [hmatches]
      rfl

/-- Two nodes differ in their kinds, or in a part before which they match. -/
theorem differHere_eq_some :
    differHere f.pristine f.mismatch? (f.record x) (f.record y) = some m ↔
      f.kind x ≠ f.kind y ∧ ⟨[], .kinds (f.kind x) (f.kind y)⟩ = m ∨
        ∃ p, f.MatchBefore x y p ∧
          differPart f.pristine f.mismatch? (f.record x) (f.record y) p = some m := by
  by_cases hkind : f.kind x = f.kind y
  · rw [differHere_eq_findSome? hkind, List.findSome?_eq_some_iff]
    simp only [differPart_eq_none]
    constructor
    · rintro ⟨before, p, after, hparts, hp, hbefore⟩
      exact .inr ⟨p, ⟨hkind, before, after, hparts, hbefore⟩, hp⟩
    · rintro (⟨hne, -⟩ | ⟨p, ⟨-, before, after, hparts, hbefore⟩, hp⟩)
      · exact absurd hkind hne
      · exact ⟨before, p, after, hparts, hp, hbefore⟩
  · have hhere : differHere f.pristine f.mismatch? (f.record x) (f.record y) =
        some ⟨[], .kinds (f.kind x) (f.kind y)⟩ := if_pos hkind
    rw [hhere, Option.some.injEq]
    constructor
    · exact fun h => .inl ⟨hkind, h⟩
    · rintro (⟨-, h⟩ | ⟨p, ⟨hsame, -⟩, -⟩)
      · exact h
      · exact absurd hsame hkind

/-! ## Levels -/

theorem differElements_congr {s : SequenceField} {xs ys : List NodeId}
    (h : ∀ c ∈ xs, ∀ d ∈ ys, differ c d = below c d) : ∀ i : Nat,
    differElements differ k s i xs ys = differElements below k s i xs ys := by
  induction xs generalizing ys with
  | nil => intro i; rfl
  | cons x xs ih =>
    intro i
    cases ys with
    | nil => rfl
    | cons y ys =>
      have hrest : ∀ c ∈ xs, ∀ d ∈ ys, differ c d = below c d := fun c hc d hd =>
        h c (List.mem_cons_of_mem _ hc) d (List.mem_cons_of_mem _ hd)
      rw [differElements, differElements, h x List.mem_cons_self y List.mem_cons_self, ih hrest]

theorem differField_congr {a b : Contents} {φ : Field}
    (h : ∀ c ∈ a.occupants φ, ∀ d ∈ b.occupants φ, differ c d = below c d) :
    differField pristine differ k a b φ = differField pristine below k a b φ := by
  cases φ with
  | single s =>
    simp only [Contents.occupants, Option.mem_toList] at h
    unfold differField
    cases ha : a.single s <;> cases hb : b.single s <;> simp_all
  | sequence s =>
    have helements := differElements_congr (k := k) (s := s) h 0
    simp only [Contents.occupants] at helements
    simp only [differField, helements]

theorem differFields_congr {a b : Contents} {φs : List Field}
    (h : ∀ φ ∈ φs, ∀ c ∈ a.occupants φ, ∀ d ∈ b.occupants φ, differ c d = below c d) :
    differFields pristine differ k a b φs = differFields pristine below k a b φs := by
  rw [differFields, differFields, ← List.head?_filterMap, ← List.head?_filterMap,
    List.filterMap_congr fun φ hφ => differField_congr (h φ hφ)]

/-- One level of the comparison asks about the children only. -/
theorem differHere_congr (h : ∀ c ∈ a.children, ∀ d ∈ b.children, differ c d = below c d) :
    differHere pristine differ a b = differHere pristine below a b := by
  unfold differHere
  by_cases hkind : a.kind = b.kind
  · have hoccupants : ∀ φ ∈ a.kind.fields, ∀ c ∈ a.contents.occupants φ,
        ∀ d ∈ b.contents.occupants φ, differ c d = below c d := fun φ hφ c hc d hd =>
      h c (List.mem_flatMap.2 ⟨φ, hφ, hc⟩) d (List.mem_flatMap.2 ⟨φ, hkind ▸ hφ, hd⟩)
    rw [differFields_congr fun φ hφ => hoccupants φ (List.mem_append_left _ hφ),
      differFields_congr fun φ hφ => hoccupants φ (List.mem_append_right _ hφ)]
  · rw [if_pos hkind, if_pos hkind]

/-- The comparison goes down on both sides at once, so that it is enough for one of them to have
no more levels than are looked at. -/
theorem FitsWithin.mismatchWithin_eq : ∀ {depth : Nat} {x : NodeId}, f.FitsWithin depth x →
    ∀ {more : Nat} (y : NodeId), depth ≤ more →
      f.mismatchWithin more x y = f.mismatchWithin depth x y := by
  intro depth
  induction depth with
  | zero => intro x hx; exact hx.elim
  | succ depth ih =>
    intro x hx more y hle
    obtain ⟨more, rfl⟩ : ∃ n, more = n + 1 := ⟨more - 1, by omega⟩
    rw [mismatchWithin, mismatchWithin,
      differHere_congr fun c hc d _ => ih (hx c hc) d (Nat.le_of_succ_le_succ hle)]

/-- **The first difference of acyclic trees is found one level at a time.** -/
theorem mismatch?_eq (hclosed : f.Closed) (hx : x < f.size) (hacyclic : f.AcyclicBelow x) :
    f.mismatch? x y =
      if x = y then none else differHere f.pristine f.mismatch? (f.record x) (f.record y) := by
  have hfits := hacyclic.fitsWithin hclosed hx
  unfold mismatch?
  generalize hsize : f.size = size at hfits
  cases size with
  | zero => exact hfits.elim
  | succ depth =>
    rw [mismatchWithin]
    rw [differHere_congr fun c hc d _ =>
      ((hfits c hc).mismatchWithin_eq d (Nat.le_succ depth)).symm]

/-! ## All levels -/

theorem AcyclicBelow.occupant {φ : Field} (h : f.AcyclicBelow x) (hclosed : f.Closed)
    (hx : x < f.size) (hφ : φ ∈ (f.kind x).fields) (hc : c ∈ f.occupants x φ) :
    c < f.size ∧ f.AcyclicBelow c := by
  have hmem := mem_children.2 ⟨φ, hφ, hc⟩
  have hlt := hclosed x c hmem
  exact ⟨hlt, h.of_below (.child hx hmem hlt)⟩

/-- **A difference that is found is the first one.** -/
theorem diverges_of_mismatch? (hclosed : f.Closed) : ∀ (depth : Nat) {x y : NodeId} {m : Mismatch},
    f.FitsWithin depth x → x < f.size → f.AcyclicBelow x → f.mismatch? x y = some m →
      Diverges f x y m := by
  intro depth
  induction depth with
  | zero => intro x y m hx; exact hx.elim
  | succ depth ih =>
    intro x y m hfits hx hacyclic h
    have hbelow : ∀ {φ c d n}, φ ∈ (f.kind x).fields → c ∈ f.occupants x φ →
        f.mismatch? c d = some n → Diverges f c d n := by
      intro φ c d n hφ hc hn
      obtain ⟨hlt, hacyclic⟩ := hacyclic.occupant hclosed hx hφ hc
      exact ih (hfits c (mem_children.2 ⟨φ, hφ, hc⟩)) hlt hacyclic hn
    rw [mismatch?_eq hclosed hx hacyclic] at h
    split at h
    · exact absurd h (by simp)
    rcases differHere_eq_some.1 h with ⟨hkind, rfl⟩ | ⟨p, hmatch, hp⟩
    · exact .kinds hkind
    match p with
    | .scalar =>
      rw [differPart] at hp
      split at hp
      · exact absurd hp (by simp)
      · next hliteral =>
        obtain rfl := Option.some.inj hp
        exact .values hmatch hliteral
    | .field (.single s) =>
      obtain ⟨c, d, n, hc, hd, hn, rfl⟩ | ⟨c, honce, hcounts, rfl⟩ :=
        differPart_single_eq_some.1 hp
      · exact .occupant hmatch hc hd (hbelow hmatch.mem_fields (Option.mem_toList.2 hc) hn)
      · exact .presence hmatch honce hcounts
    | .field (.sequence s) =>
      obtain ⟨hlength, rfl⟩ | ⟨hlength, hp⟩ := differPart_sequence_eq_some.1 hp
      · exact .lengths hmatch hlength
      · obtain ⟨first, first', c, d, rest, rest', n, hxs, hys, hfirst, hn, rfl⟩ :=
          differElements_eq_some.1 hp
        have hc : c ∈ f.sequence x s := by
          rw [hxs]
          exact List.mem_append_right _ List.mem_cons_self
        rw [Nat.zero_add]
        refine .element hmatch hlength hxs hys ?_ (hbelow hmatch.mem_fields hc hn)
        exact hfirst.imp fun _ _ => matchNodes_eq_true.2

theorem mismatch?_of_part {p : Part} (hclosed : f.Closed) (hx : x < f.size)
    (hacyclic : f.AcyclicBelow x) (hne : x ≠ y) (hmatch : f.MatchBefore x y p)
    (hp : differPart f.pristine f.mismatch? (f.record x) (f.record y) p = some m) :
    f.mismatch? x y = some m := by
  rw [mismatch?_eq hclosed hx hacyclic, if_neg hne]
  exact differHere_eq_some.2 (.inr ⟨p, hmatch, hp⟩)

/-- **The first difference is found.** -/
theorem mismatch?_of_diverges (hclosed : f.Closed) (hx : x < f.size)
    (hacyclic : f.AcyclicBelow x) (h : Diverges f x y m) : f.mismatch? x y = some m := by
  have hne := h.ne
  induction h with
  | kinds hkind =>
    rw [mismatch?_eq hclosed hx hacyclic, if_neg hne]
    exact differHere_eq_some.2 (.inl ⟨hkind, rfl⟩)
  | values hmatch hliteral =>
    refine mismatch?_of_part hclosed hx hacyclic hne hmatch ?_
    rw [differPart, if_neg hliteral]
    rfl
  | presence hmatch honce hcounts =>
    refine mismatch?_of_part hclosed hx hacyclic hne hmatch ?_
    exact differPart_single_eq_some.2 (.inr ⟨_, honce, hcounts, rfl⟩)
  | lengths hmatch hlength =>
    refine mismatch?_of_part hclosed hx hacyclic hne hmatch ?_
    exact differPart_sequence_eq_some.2 (.inl ⟨hlength, rfl⟩)
  | occupant hmatch hc hd hbelow ih =>
    obtain ⟨hlt, hacyclic'⟩ :=
      hacyclic.occupant hclosed hx hmatch.mem_fields (Option.mem_toList.2 hc)
    refine mismatch?_of_part hclosed hx hacyclic hne hmatch ?_
    exact differPart_single_eq_some.2 (.inl ⟨_, _, _, hc, hd, ih hlt hacyclic' hbelow.ne, rfl⟩)
  | @element x y c d s m first first' rest rest' hmatch hlength hc hd hfirst hbelow ih =>
    have hmem : c ∈ f.sequence x s := by
      rw [hc]
      exact List.mem_append_right _ List.mem_cons_self
    obtain ⟨hlt, hacyclic'⟩ := hacyclic.occupant hclosed hx hmatch.mem_fields hmem
    refine mismatch?_of_part hclosed hx hacyclic hne hmatch ?_
    refine differPart_sequence_eq_some.2 (.inr ⟨hlength, differElements_eq_some.2 ?_⟩)
    refine ⟨first, first', c, d, rest, rest', m, hc, hd, ?_, ih hlt hacyclic' hbelow.ne, ?_⟩
    · exact hfirst.imp fun _ _ => matchNodes_eq_true.1
    · rw [Nat.zero_add]

end Forest

namespace World

open Forest

/-- **The comparison finds just the first difference.** In every reachable forest and for all nodes
of acyclic trees: a mismatch that is answered is the first difference of the two nodes, and the
other way round. If there is none, the two trees match and have the same normal form. -/
theorem mismatch?_iff_diverges {w : World} (hw : w.Reachable) {a b : NodeId}
    (ha : w.forest.IsNode a) (hacyclicA : w.forest.AcyclicBelow a) (hb : w.forest.IsNode b)
    (hacyclicB : w.forest.AcyclicBelow b) :
    (∀ m, w.forest.mismatch? a b = some m ↔ Diverges w.forest a b m) ∧
      (w.forest.mismatch? a b = none ↔ w.forest.Matches a b) ∧
      (w.forest.mismatch? a b = none ↔ w.forest.normalForm a = w.forest.normalForm b) := by
  have hregular := hw.regular
  have hclosed := hregular.closed
  have hfitsA := hacyclicA.fitsWithin hclosed ha.lt_size
  have hfitsB := hacyclicB.fitsWithin hclosed hb.lt_size
  refine ⟨fun m => ⟨?_, ?_⟩, matchNodes_eq_true.symm, ?_⟩
  · exact diverges_of_mismatch? hclosed _ hfitsA ha.lt_size hacyclicA
  · exact mismatch?_of_diverges hclosed ha.lt_size hacyclicA
  · exact mismatchWithin_eq_none hregular _ hfitsA hfitsB

/-- Two blocks that begin with the same statement. In the second statement they have an invocation
each, with the arguments `x, y` and `x, z`. -/
def twoInvocations : List Move :=
  [.call (.construct {} .returnStatement []),
   .call (.construct {} (.reference "x") []),
   .call (.construct {} (.reference "y") []),
   .call (.construct {} .methodInvocation [.sequence .arguments [1, 2]]),
   .call (.construct {} .expressionStatement [.single .expression (some 3)]),
   .call (.construct {} .block [.sequence .statements [0, 4]]),
   .call (.construct {} (.reference "z") []),
   .call (.construct {} .methodInvocation [.sequence .arguments [1, 6]]),
   .call (.construct {} .expressionStatement [.single .expression (some 7)]),
   .call (.construct {} .block [.sequence .statements [0, 8]])]

theorem mismatch?_iff_diverges_twoInvocations :
    Diverges (twoInvocations.foldl after {}).forest 5 9
      ⟨[⟨.block, .field (.sequence .statements), some 1⟩,
        ⟨.expressionStatement, .field (.single .expression), none⟩,
        ⟨.methodInvocation, .field (.sequence .arguments), some 1⟩,
        ⟨.reference, .scalar, none⟩], .values⟩ := by
  have hw : (twoInvocations.foldl after {}).Reachable := .of_allows (.refl _) (by decide +kernel)
  exact ((mismatch?_iff_diverges hw (by decide +kernel) (by decide +kernel) (by decide +kernel)
    (by decide +kernel)).1 _).1 (by decide +kernel)

end World

end SyntaxForest
