import SyntaxForest.Proofs.NewestHolder

/-!
# Refusals: what a constructor that fails leaves behind

A constructor fills the fields of a draft one after the other, and the first operand that does not
fit ends it. What a field is given it takes as a whole or not at all. But the fields filled before
stay filled, and a draft gives no links: its operands have lost the ones that they had
(`Loosened`). The draft is then forgotten. The old holders still hold these operands, which no
longer lead to them.

Five of the seven composite constructors fill a single field, so that they change nothing when they
fail. A binary expression and an invocation fill two, and the operand in the first is cut loose if
it fits and one of the others does not. `Composite.cutLoose?` tells which node that is.

Main statement: `World.refused_composite`. That an operand of an existing tree is in fact cut off
is `World.refused_binary_breaks_link`.
-/

namespace SyntaxForest

namespace Forest

variable {f g : Forest} {d n : NodeId} {xs ys : List NodeId}

/-! ## Filling a draft -/

/-- `g` is `f` except for the record of `d`, and except that the nodes `xs` have no links. -/
structure Loosened (f g : Forest) (d : NodeId) (xs : List NodeId) : Prop where
  size_eq : g.size = f.size
  record_eq : ∀ j, j ≠ d →
    g.record j = if j ∈ xs then (f.record j).withLink none else f.record j

namespace Loosened

theorem of_records (h : g.records = f.records) : Loosened f g d [] where
  size_eq := by rw [size, size, h]
  record_eq j _ := by simp [record, h]

theorem trans {k : Forest} (h₁ : Loosened f g d xs) (h₂ : Loosened g k d ys) :
    Loosened f k d (xs ++ ys) where
  size_eq := h₂.size_eq.trans h₁.size_eq
  record_eq j hj := by
    rw [h₂.record_eq j hj, h₁.record_eq j hj]
    by_cases hx : j ∈ xs <;> by_cases hy : j ∈ ys <;> simp [hx, hy]

end Loosened

/-- What goes into a field that belongs to nobody loses its link. What comes out of it keeps the
one that it has: taking away a link to nobody is no change. -/
theorem Rewired.loosened {φ : Field} {placed taken : List NodeId}
    (hr : Rewired f g d φ ys placed taken) (hd : f.Unowned d) : Loosened f g d placed := by
  refine ⟨hr.size_eq, fun j hj => Record.eq_of_withLink ?_ ?_⟩
  · rw [hr.record_of_ne hj]
    split <;> rfl
  · show g.link j = _
    rw [hr.link_eq, hd φ hr.declared]
    split
    · rfl
    · split
      · next hnone => exact hnone.2.symm
      · rfl

/-- Filling a draft takes the links of the nodes that get into it, whether it ends well or not. -/
theorem fill_loosened : ∀ {as : List Placement} {f : Forest}, f.Unowned d → d < f.size →
    (∀ x ∈ as.flatMap Placement.nodes, x < f.size) →
    Loosened f (f.fill d as).2 d (f.filling d as) := by
  intro as
  induction as with
  | nil => intro f _ _ _; exact .of_records rfl
  | cons a as ih =>
    intro f hdraft hd has
    rw [List.flatMap_cons, List.forall_mem_append] at has
    obtain ⟨ha, has⟩ := has
    rw [fill, filling]
    rcases hg : (Mutation.place d a).perform f with ⟨e | _, g⟩
    · obtain rfl := Mutation.atomic_place a e g hg
      exact .of_records rfl
    · rcases place_cases hg hd ha with ⟨hsame, hnil⟩ | ⟨φ, ys, taken, hr⟩
      · have hamended := Amended.of_records hsame
        rw [hnil]
        exact (Loosened.of_records hsame).trans
          (ih (hamended.unowned hdraft) (by rwa [hamended.size_eq]) (by rwa [hamended.size_eq]))
      · exact (hr.loosened hdraft).trans
          (ih (hdraft.rewired hr) (by rwa [hr.size_eq]) (by rwa [hr.size_eq]))

/-- A constructor that is refused leaves a record of its own, and has taken the links of the nodes
that got into it. -/
theorem refused_construct {l : Location} {k : Head} {as : List Placement} {e : Error}
    (has : ∀ x ∈ as.flatMap Placement.nodes, x < f.size)
    (hg : f.construct l k as = (.error e, g)) :
    ((f.push { head := k }).fill f.size as).1 = .error e ∧ g.size = f.size + 1 ∧
      ∀ j < f.size, g.record j =
        if j ∈ (f.push { head := k }).filling f.size as then (f.record j).withLink none
        else f.record j := by
  rcases construct_cases f l k as with ⟨g', -, hcon⟩ | ⟨e', g', hfill, hcon⟩
  · rw [hcon] at hg
    exact absurd (Prod.mk.inj hg).1 (by simp)
  · obtain ⟨he, rfl⟩ := Prod.mk.inj (hcon.symm.trans hg)
    obtain rfl := Except.error.inj he
    have has : ∀ x ∈ as.flatMap Placement.nodes, x < (f.push { head := k }).size := by
      intro x hx
      rw [size_push]
      exact Nat.lt_succ_of_lt (has x hx)
    have hloose := fill_loosened (unowned_push_draft f k) (by simp) has
    rw [hfill] at hloose ⊢
    refine ⟨rfl, by rw [hloose.size_eq, size_push], fun j hj => ?_⟩
    rw [hloose.record_eq j (Nat.ne_of_lt hj), record_push_of_lt hj]

/-- The draft that a refused constructor leaves behind holds old nodes only, and so does nothing
else that is new. -/
theorem held_by_refused {l : Location} {k : Head} {as : List Placement} {e : Error}
    (has : ∀ x ∈ as.flatMap Placement.nodes, f.IsNode x)
    (hg : f.construct l k as = (.error e, g)) :
    ∀ p, f.size ≤ p → ∀ c ∈ g.children p, c < f.size := by
  have hborn := born_push f (Record.children_draft k)
  have hfill : ∀ p, f.size ≤ p →
      ∀ c ∈ ((f.push { head := k }).fill f.size as).2.children p, c < f.size := by
    refine fill_induction (I := fun g => ∀ p, f.size ≤ p → ∀ c ∈ g.children p, c < f.size)
      (fun p hp c hc => ?_) (by simp) (fun x hx => hborn.isNode_of_isNode (has x hx))
      fun hg hr hplaced p hp c hc => ?_
    · have hnone : (f.push { head := k }).children p = [] := by
        rcases Nat.eq_or_lt_of_le hp with rfl | hlt
        · rw [children, hborn.record_new, Record.children_draft]
        · exact children_of_size_le (hborn.size_eq.symm ▸ hlt)
      rw [hnone] at hc
      exact absurd hc List.not_mem_nil
    · rcases hr.mem_children_of_mem hc with hc | ⟨-, hc⟩
      · exact hg p hp c hc
      · exact (has c (hplaced c hc).1).lt_size
  rcases construct_cases f l k as with ⟨g', -, hcon⟩ | ⟨e', g', hcase, hcon⟩
  · rw [hcon] at hg
    exact absurd (Prod.mk.inj hg).1 (by simp)
  · obtain ⟨-, rfl⟩ := Prod.mk.inj (hcon.symm.trans hg)
    rwa [hcase] at hfill

/-! ## Composite constructors -/

/-- If the only field is refused nothing gets in. -/
theorem filling_one {a : Placement} {e : Error} (h : (f.fill d [a]).1 = .error e) :
    f.filling d [a] = [] := by
  rw [fill] at h
  rw [filling]
  rcases hg : (Mutation.place d a).perform f with ⟨e | ⟨⟩, g⟩
  · rfl
  · rw [hg] at h
    exact absurd h (by simp [fill])

/-- If one of two fields is refused, only the occupant of the first can have got in. -/
theorem filling_two {s : SingleField} {x : NodeId} {a : Placement} {e : Error} (hd : d < f.size)
    (hx : x < f.size) (hs : .single s ∈ (f.kind d).fields) (hnone : f.single d s = none)
    (h : (f.fill d [.single s (some x), a]).1 = .error e) :
    f.filling d [.single s (some x), a] =
      if s.category.accepts (f.kind x) then [x] else [] := by
  have hentering : (Placement.single s (some x)).entering f d = [x] := by
    rw [Placement.entering, Change.entering, hnone]
    rfl
  rw [fill] at h
  rw [filling]
  rcases hg : (Mutation.place d (.single s (some x))).perform f with ⟨e' | ⟨⟩, g⟩
  · -- refused at once: it does not fit
    have hfit : ¬ s.category.accepts (f.kind x) = true := by
      intro hfit
      obtain ⟨_, g', hg'⟩ := Mutation.succeeds_assign hs hfit
      exact absurd (Prod.mk.inj (hg.symm.trans hg')).1 (by simp)
    rw [if_neg hfit]
  · have hfit : s.category.accepts (f.kind x) = true := by
      rcases assign_rewired (x := some x) hg hd (by intro m hm; cases hm; exact hx) with
        ⟨m, -, hm, -⟩ | ⟨-, hr⟩
      · exact absurd (hnone.symm.trans hm) (by simp)
      · exact hr.fits x List.mem_cons_self
    rw [hg] at h
    rw [if_pos hfit, hentering]
    show [x] ++ g.filling d [a] = [x]
    rw [filling_one h, List.append_nil]

end Forest

/-- A constructor of a node with children, and its operands. -/
inductive Composite
  | binary (op : Operator) (left right : NodeId)
  | invocation (target : NodeId) (arguments : List NodeId)
  | expressionStatement (expression : NodeId)
  | block (statements : List NodeId)
  | macroStatement (name : String) (arguments : List NodeId)
  | modifier (type : ModifierType) (condition : NodeId)
  | returnStatement (expression : Option NodeId)

namespace Composite

/-- The operands, in the order in which they are placed. -/
def operands : Composite → List NodeId
  | binary _ left right => [left, right]
  | invocation target arguments => target :: arguments
  | block xs | macroStatement _ xs => xs
  | expressionStatement x | modifier _ x => [x]
  | returnStatement x => x.toList

/-- The operand that loses its link if the constructor is refused. -/
def cutLoose? (f : Forest) : Composite → Option NodeId
  | binary _ x _ | invocation x _ => if Category.expression.accepts (f.kind x) then some x else none
  | expressionStatement _ | block _ | macroStatement .. | modifier .. | returnStatement _ => none

theorem mem_operands_of_cutLoose? {f : Forest} {c : Composite} {x : NodeId}
    (h : x ∈ c.cutLoose? f) : x ∈ c.operands := by
  cases c with
  | binary op left right =>
    obtain ⟨-, hx⟩ := Option.ite_none_right_eq_some.1 h
    rw [← Option.some.inj hx]
    exact List.mem_cons_self
  | invocation target arguments =>
    obtain ⟨-, hx⟩ := Option.ite_none_right_eq_some.1 h
    rw [← Option.some.inj hx]
    exact List.mem_cons_self
  | _ => exact absurd h (by simp [cutLoose?])

end Composite

namespace Forest

variable {f g : Forest} {n : NodeId} {c : Composite} {l : Location} {e : Error}

/-- Calls a composite constructor. -/
def compose (f : Forest) (l : Location) : Composite → Except Error NodeId × Forest
  | .binary op left right => f.newBinary l op left right
  | .invocation target arguments => f.newInvocation l target arguments
  | .expressionStatement x => f.newExpressionStatement l x
  | .block xs => f.newBlock l xs
  | .macroStatement name xs => f.newMacroStatement l name xs
  | .modifier type x => f.newModifier l type x
  | .returnStatement x => f.newReturn l x

/-- A composite constructor fills the fields of a draft with its operands. -/
theorem compose_eq_construct (f : Forest) (l : Location) (c : Composite) :
    ∃ k as, f.compose l c = f.construct l k as ∧ as.flatMap Placement.nodes = c.operands := by
  cases c <;> exact ⟨_, _, rfl, by simp [Placement.nodes, Composite.operands]⟩

/-- Where one field only is filled, nothing gets in before the refusal. -/
theorem refused_construct_one {k : Head} {a : Placement}
    (hg : f.construct l k [a] = (.error e, g)) (ha : ∀ x ∈ a.nodes, x < f.size) :
    g.size = f.size + 1 ∧ ∀ j < f.size, g.record j = f.record j := by
  obtain ⟨hfill, hsize, hrecord⟩ := refused_construct (by simpa using ha) hg
  rw [filling_one hfill] at hrecord
  exact ⟨hsize, by simpa using hrecord⟩

/-- Where two fields are filled, the occupant of the first gets in if it fits. -/
theorem refused_construct_two {k : Head} {s : SingleField} {x : NodeId} {a : Placement}
    (hg : f.construct l k [.single s (some x), a] = (.error e, g))
    (ha : ∀ y ∈ x :: a.nodes, y < f.size) (hs : .single s ∈ k.kind.fields) :
    g.size = f.size + 1 ∧ ∀ j < f.size, g.record j =
      if (if s.category.accepts (f.kind x) then some x else none) = some j
      then (f.record j).withLink none else f.record j := by
  obtain ⟨hfill, hsize, hrecord⟩ := refused_construct (by simpa [Placement.nodes] using ha) hg
  have hx : x < f.size := ha x List.mem_cons_self
  have hkind : (f.push { head := k }).kind x = f.kind x := by
    rw [kind, record_push_of_lt hx, kind]
  have hfresh : (f.push { head := k }).record f.size = { head := k } := by
    rw [record_push, if_pos rfl]
  have hnone : (f.push { head := k }).single f.size s = none := by
    rw [single, hfresh]
    exact Contents.single_empty s
  have hfields : .single s ∈ ((f.push { head := k }).kind f.size).fields := by
    rw [kind, hfresh]
    exact hs
  have hfilling := filling_two (by simp) (by rw [size_push]; exact Nat.lt_succ_of_lt hx) hfields
    hnone hfill
  refine ⟨hsize, fun j hj => ?_⟩
  rw [hrecord j hj, hfilling, hkind]
  by_cases hfit : s.category.accepts (f.kind x) = true
  · simp [hfit, eq_comm]
  · simp [hfit]

/-- A constructor that is refused cuts one operand loose at most. -/
theorem refused_compose (hc : ∀ x ∈ c.operands, x < f.size)
    (hg : f.compose l c = (.error e, g)) :
    g.size = f.size + 1 ∧ ∀ j < f.size, g.record j =
      if c.cutLoose? f = some j then (f.record j).withLink none else f.record j := by
  cases c with
  | binary op left right => exact refused_construct_two hg hc (List.mem_cons_self ..)
  | invocation target arguments => exact refused_construct_two hg hc (List.mem_cons_self ..)
  | expressionStatement x => simpa [Composite.cutLoose?] using refused_construct_one hg hc
  | block xs => simpa [Composite.cutLoose?] using refused_construct_one hg hc
  | macroStatement name xs => simpa [Composite.cutLoose?] using refused_construct_one hg hc
  | modifier type x => simpa [Composite.cutLoose?] using refused_construct_one hg hc
  | returnStatement x => simpa [Composite.cutLoose?] using refused_construct_one hg hc

/-! ## What does not change with it -/

/-- What the link check finds below a node depends on the links of its children, and on what it
finds below them. -/
theorem brokenWithin_succ_congr {depth more : Nat} (hchildren : g.children n = f.children n)
    (hbelow : ∀ c ∈ f.children n, g.link c = f.link c ∧
      g.brokenWithin more c = f.brokenWithin depth c) :
    g.brokenWithin (more + 1) n = f.brokenWithin (depth + 1) n := by
  rw [brokenWithin, brokenWithin, hchildren, ← List.head?_filterMap, ← List.head?_filterMap]
  refine congrArg List.head? (List.filterMap_congr fun c hc => ?_)
  rw [(hbelow c hc).1, (hbelow c hc).2]

/-- More levels than the tree has make no difference. -/
theorem FitsWithin.brokenWithin_eq : ∀ {depth : Nat} {n : NodeId}, f.FitsWithin depth n →
    ∀ {more : Nat}, depth ≤ more → f.brokenWithin more n = f.brokenWithin depth n := by
  intro depth
  induction depth with
  | zero => intro n hn; exact hn.elim
  | succ depth ih =>
    intro n hn more hle
    cases more with
    | zero => exact absurd hle (Nat.not_succ_le_zero _)
    | succ more =>
      exact brokenWithin_succ_congr rfl fun c hc =>
        ⟨rfl, ih (hn c hc) (Nat.le_of_succ_le_succ hle)⟩

/-- A broken link is found between nodes of the store. -/
theorem lt_size_of_brokenWithin (hclosed : f.Closed) : ∀ {depth : Nat} {n c p : NodeId},
    n < f.size → f.brokenWithin depth n = some (c, p) → c < f.size ∧ p < f.size := by
  intro depth
  induction depth with
  | zero => intro n c p _ h; exact absurd h (by simp [brokenWithin])
  | succ depth ih =>
    intro n c p hn h
    obtain ⟨x, hx, h⟩ := List.exists_of_findSome?_eq_some h
    split at h
    · exact ih (hclosed n x hx) h
    · obtain ⟨rfl, rfl⟩ := Prod.mk.inj (Option.some.inj h)
      exact ⟨hclosed _ _ hx, hn⟩

/-- What is kept by old roots is known from the old records, if new records hold old ones only. -/
theorem kept_iff_of_records (hsame : ∀ j < f.size, g.record j = f.record j) (hclosed : f.Closed)
    (hnew : ∀ p, f.size ≤ p → ∀ c ∈ g.children p, c < f.size) (hsize : f.size ≤ g.size)
    {hands : List NodeId} (hhands : ∀ m ∈ hands, m < f.size) :
    Kept g hands n ↔ Kept f hands n := by
  have hchildren : ∀ {p}, p < f.size → g.children p = f.children p := fun hp => by
    rw [children, hsame _ hp, children]
  -- nothing holds a new record
  have hgone : ∀ {p}, f.size ≤ p → GivenUp g hands p := by
    intro p hp
    refine ⟨fun hmem => Nat.not_lt.2 hp (hhands p hmem), fun q hq => ?_⟩
    rcases Nat.lt_or_ge q f.size with hlt | hle
    · rw [hchildren hlt] at hq
      exact absurd (hclosed q p hq) (Nat.not_lt.2 hp)
    · exact absurd (hnew q hle p hq) (Nat.not_lt.2 hp)
  constructor
  · intro hn
    refine ⟨Nat.lt_of_not_le fun hle => hn.not_givenUp (hgone hle), fun hgiven => ?_⟩
    refine hn.not_givenUp (hgiven.of_holders (Q := fun _ => True) trivial (fun _ _ => id) ?_)
    intro m p _ hp
    rcases Nat.lt_or_ge p f.size with hlt | hle
    · exact .inl ⟨hchildren hlt ▸ hp, trivial⟩
    · exact .inr (hgone hle)
  · intro hn
    refine ⟨Nat.lt_of_lt_of_le hn.lt_size hsize, fun hgiven => hn.not_givenUp ?_⟩
    refine hgiven.of_holders (Q := fun _ => True) trivial (fun _ _ => id) fun m p _ hp => ?_
    exact .inl ⟨(hchildren (lt_size_of_mem_children hp)).symm ▸ hp, trivial⟩

theorem parent?_eq_of_records (hsame : ∀ j < f.size, g.record j = f.record j) (hclosed : f.Closed)
    (hnew : ∀ p, f.size ≤ p → ∀ c ∈ g.children p, c < f.size) (hsize : f.size ≤ g.size)
    {hands : List NodeId} (hhands : ∀ m ∈ hands, m < f.size) (hn : n < f.size) :
    g.parent? (g.kept hands) n = f.parent? (f.kept hands) n := by
  have hlink : g.link n = f.link n := by rw [link, hsame n hn, link]
  have hkept : ∀ q, (g.kept hands).contains q = (f.kept hands).contains q := fun q => by
    rw [Bool.eq_iff_iff, contains_kept_iff, contains_kept_iff]
    exact kept_iff_of_records hsame hclosed hnew hsize hhands
  rw [parent?, parent?, hlink, funext hkept]

theorem brokenWithin_eq_of_records (hsame : ∀ j < f.size, g.record j = f.record j)
    (hclosed : f.Closed) : ∀ {depth : Nat} {n : NodeId}, n < f.size →
      g.brokenWithin depth n = f.brokenWithin depth n := by
  intro depth
  induction depth with
  | zero => intro n _; rfl
  | succ depth ih =>
    intro n hn
    refine brokenWithin_succ_congr (by rw [children, hsame n hn, children]) fun c hc => ?_
    have hlt := hclosed n c hc
    exact ⟨by rw [link, hsame c hlt, link], ih hlt⟩

theorem verifyLinks_eq_of_records (hsize : f.size ≤ g.size)
    (hsame : ∀ j < f.size, g.record j = f.record j) (hclosed : f.Closed) (hn : n < f.size)
    (hacyclic : f.AcyclicBelow n) : (g.verifyLinks n).1 = (f.verifyLinks n).1 := by
  have hbroken : g.brokenLink? n = f.brokenLink? n := by
    rw [brokenLink?, brokenWithin_eq_of_records hsame hclosed hn,
      (hacyclic.fitsWithin hclosed hn).brokenWithin_eq hsize, brokenLink?]
  rw [verifyLinks, verifyLinks, hbroken]
  rcases hb : f.brokenLink? n with _ | ⟨c, p⟩
  · rfl
  · obtain ⟨hc, hp⟩ := lt_size_of_brokenWithin hclosed hn hb
    show Except.error (Error.parentMismatch (g.kind c) (g.kind p)) = _
    rw [kind, kind, hsame c hc, hsame p hp]
    rfl

end Forest

namespace World

open Forest

/-- **What a refused constructor leaves behind.** In every reachable world the operand that was
cut loose has no link any more, and every other record is as it was. So all records are as they
were just in case that operand had no link, or there is none; and then all parents, and the
answers of the link check, are as they were too. -/
theorem refused_composite {w : World} (hw : w.Reachable) {l : Location} {c : Composite}
    {e : Error} {g : Forest} (hc : ∀ x ∈ c.operands, w.forest.IsNode x)
    (hg : w.forest.compose l c = (.error e, g)) :
    (∀ j < w.forest.size, g.record j =
      if c.cutLoose? w.forest = some j then (w.forest.record j).withLink none
      else w.forest.record j) ∧
    ((∀ j < w.forest.size, g.record j = w.forest.record j) ↔
      ∀ x ∈ c.cutLoose? w.forest, w.forest.link x = none) ∧
    ((∀ x ∈ c.cutLoose? w.forest, w.forest.link x = none) →
      (∀ n < w.forest.size, g.parent? (g.kept w.hands) n = w.parent? n) ∧
      ∀ n < w.forest.size, w.forest.AcyclicBelow n →
        (g.verifyLinks n).1 = (w.forest.verifyLinks n).1) := by
  have hsound := Run.sound hw sound_empty
  obtain ⟨hsize, hrecord⟩ := refused_compose (fun x hx => (hc x hx).lt_size) hg
  have hle : w.forest.size ≤ g.size := by omega
  have hsame : (∀ x ∈ c.cutLoose? w.forest, w.forest.link x = none) →
      ∀ j < w.forest.size, g.record j = w.forest.record j := by
    intro hnone j hj
    rw [hrecord j hj]
    split
    · next hx => exact Record.eq_of_withLink rfl (hnone j hx).symm
    · rfl
  refine ⟨hrecord, ⟨fun hall x hx => ?_, hsame⟩, fun hnone => ⟨fun n hn => ?_, fun n hn hac => ?_⟩⟩
  · have hlt := (hc x (Composite.mem_operands_of_cutLoose? hx)).lt_size
    have hlink := congrArg Record.link ((hrecord x hlt).symm.trans (hall x hlt))
    rw [if_pos (Option.mem_def.1 hx)] at hlink
    exact hlink.symm
  · obtain ⟨k, as, hcompose, hoperands⟩ := compose_eq_construct w.forest l c
    have hnew := held_by_refused (hoperands ▸ hc) (hcompose ▸ hg)
    exact parent?_eq_of_records (hsame hnone) hsound.regular.closed hnew hle hsound.hands_lt hn
  · exact verifyLinks_eq_of_records hle (hsame hnone) hsound.regular.closed hn hac

/-- `return a`, an empty return statement, and a name that nothing holds. -/
def unevenOperands : List Move :=
  [.call (.construct {} (.reference "a") []),
   .call (.construct {} .returnStatement [.single .expression (some 0)]),
   .call (.construct {} .returnStatement [.single .expression none]),
   .call (.construct {} (.reference "b") []),
   .hold [1, 2, 3]]

/-- Of a block that is refused, and of a sum whose first operand nothing holds, there is no trace
left. -/
theorem refused_composite_unevenOperands :
    let w := unevenOperands.foldl after {}
    let g₁ := (w.forest.compose {} (.block [1, 3])).2
    let g₂ := (w.forest.compose {} (.binary .addition 3 2)).2
    (∀ j < w.forest.size, g₁.record j = w.forest.record j) ∧
      (∀ n < w.forest.size, g₁.parent? (g₁.kept w.hands) n = w.parent? n) ∧
      (g₂.verifyLinks 1).1 = (w.forest.verifyLinks 1).1 := by
  have hw : (unevenOperands.foldl after {}).Reachable := .of_allows (.refl _) (by decide +kernel)
  have h₁ := refused_composite hw (c := .block [1, 3]) (l := {}) (by decide +kernel) rfl
  have h₂ := refused_composite hw (c := .binary .addition 3 2) (l := {}) (by decide +kernel) rfl
  refine ⟨h₁.2.1.2 (by decide +kernel), (h₁.2.2 (by decide +kernel)).1, ?_⟩
  exact (h₂.2.2 (by decide +kernel)).2 1 (by decide +kernel) (by decide +kernel)

/-- A sum of the name in `return a` and of a statement is refused, and the name no longer leads to
the return statement that holds it. -/
theorem refused_binary_breaks_link :
    let w := unevenOperands.foldl after {}
    let g := (w.forest.newBinary {} .addition 0 2).2
    w.Reachable ∧
    (w.forest.newBinary {} .addition 0 2).1 =
      .error (.incompatibleNode .binary (.single .right) .returnStatement) ∧
    (w.parent? 0 = some 1 ∧ g.parent? (g.kept w.hands) 0 = none) ∧
    (w.forest.verifyLinks 1).1 = .ok () ∧
    (g.verifyLinks 1).1 = .error (.parentMismatch .reference .returnStatement) := by
  refine ⟨.of_allows (.refl _) (by decide +kernel), rfl, by decide +kernel, rfl, rfl⟩

end World

end SyntaxForest
