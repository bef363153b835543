import SyntaxForest.Proofs.Atomicity
import SyntaxForest.Proofs.Copying
import Mathlib.Logic.Relation

/-!
# Worlds: what can happen to a forest

A world is a forest together with what its user has in hand, nodes and drafts. The user makes
one move after the other: calls an operation of the forest, which may hand out nodes, or takes
other things in hand, letting go of some. `Call` lists the operations as data; those that place
nodes into a field of a receiver or take nodes out of it are a `Change`. A call that fails is a
move too, and may leave something behind.

`Call.Possible` is what holds of every call without anybody's doing: the receiver is in the
store, what is handed over for placement are nodes and not drafts, only a draft is assembled,
and so on. Whether a call is wise is another matter. A *discipline* says which moves are made
in which worlds, and a `Run` makes only such moves. In a world that is `Reachable` there has
been no discipline at all. Not even liveness is asked for there: a node that nobody could reach
any more may come back into hand, so that nothing depends on when a record is given up.

`change_rewired` says once what a change does. Main statement: `Reachable.regular`, every
reachable forest is regular.
-/

namespace SyntaxForest

/-! ## Calls -/

/-- A change to the attributes of a node; the last one goes all the way down. -/
inductive Amendment
  | scalar (h : Head)
  | location (l : Location)
  | endPosition (p : Option Position)
  | documentation (t : Option String)
  | remark (key : String) (v : AnnotationValue NodeId)
  | noRemark (key : String)
  | noBindings

/-- An operation of the forest with its arguments. -/
inductive Call
  | draft (h : Head)
  | assemble (d : NodeId) (l : Location)
  | construct (l : Location) (h : Head) (as : List Placement)
  | change (p : NodeId) (c : Change)
  | body (p : NodeId)
  | copy (n : NodeId)
  | amend (n : NodeId) (a : Amendment)
  /-- Anything that changes the journal only: comparing, verifying, looking for a position. -/
  | report (journal : Array Event)

/-- The nodes that a placement hands over. -/
def Placement.nodes : Placement → List NodeId
  | single _ x => x.toList
  | sequence _ xs => xs

namespace Change

/-- The nodes that a change hands over for placement. -/
def placed : Change → List NodeId
  | assign _ x => x.toList
  | edit _ e => e.placed
  | replaceChild _ y => [y]

/-- The nodes that a change puts into a field of `p`. Assigning what is there already, and
replacing a child that is not there, or by itself, puts nothing anywhere. -/
def entering (f : Forest) (p : NodeId) : Change → List NodeId
  | assign s x => if x = f.single p s then [] else x.toList
  | edit s e => e.entering (f.sequence p s)
  | replaceChild x y => if x ∈ f.children p ∧ x ≠ y then [y] else []

/-- The field of `p` that a change is made to. -/
def field? (f : Forest) (p : NodeId) : Change → Option Field
  | assign s _ => some (.single s)
  | edit s _ => some (.sequence s)
  | replaceChild x _ => f.fieldOf? p x

/-- The node `x`, handed over for placement into a field of `p`, is to stay where it is. -/
def Keeps (f : Forest) (p : NodeId) (c : Change) (x : NodeId) : Prop :=
  match c with
  | assign s _ => f.single p s = some x
  | edit s e => e.Keeps (f.sequence p s) x
  | replaceChild y z => y = z

instance (f : Forest) (p x : NodeId) : (c : Change) → Decidable (c.Keeps f p x)
  | assign s _ => inferInstanceAs (Decidable (f.single p s = some x))
  | edit s e => inferInstanceAs (Decidable (e.Keeps (f.sequence p s) x))
  | replaceChild y z => inferInstanceAs (Decidable (y = z))

end Change

namespace Call

/-- The nodes that a call hands over for placement. -/
def placed : Call → List NodeId
  | construct _ _ as => as.flatMap Placement.nodes
  | change _ c => c.placed
  | draft _ | assemble .. | body _ | copy _ | amend .. | report _ => []

/-- The node or draft that a call is made on. -/
def receiver? : Call → Option NodeId
  | assemble n _ | change n _ | body n | copy n | amend n _ => some n
  | draft _ | construct .. | report _ => none

/-- What an operation asks of its receiver. -/
def Sensible (f : Forest) : Call → Prop
  | assemble d _ => ¬ f.IsNode d
  | body p => f.kind p = .macroStatement
  | copy n => f.IsNode n
  | amend n (.scalar h) => h.kind = f.kind n
  | _ => True

instance (f : Forest) : (c : Call) → Decidable (c.Sensible f)
  | assemble d _ => inferInstanceAs (Decidable (¬ f.IsNode d))
  | body p => inferInstanceAs (Decidable (f.kind p = .macroStatement))
  | copy n => inferInstanceAs (Decidable (f.IsNode n))
  | amend n (.scalar h) => inferInstanceAs (Decidable (h.kind = f.kind n))
  | amend _ (.location _) | amend _ (.endPosition _) | amend _ (.documentation _)
  | amend _ (.remark ..) | amend _ (.noRemark _) | amend _ .noBindings
  | draft _ | construct .. | change .. | report _ => inferInstanceAs (Decidable True)

/-- The call can be made at all. -/
structure Possible (f : Forest) (c : Call) : Prop where
  receiver_lt : ∀ p ∈ c.receiver?, p < f.size
  isNode_placed : ∀ x ∈ c.placed, f.IsNode x
  sensible : c.Sensible f

instance (f : Forest) (c : Call) : Decidable (c.Possible f) :=
  decidable_of_iff ((∀ p ∈ c.receiver?, p < f.size) ∧ (∀ x ∈ c.placed, f.IsNode x) ∧ c.Sensible f)
    ⟨fun ⟨h₁, h₂, h₃⟩ => ⟨h₁, h₂, h₃⟩, fun ⟨h₁, h₂, h₃⟩ => ⟨h₁, h₂, h₃⟩⟩

end Call

namespace Forest

/-- Changes an attribute of a node. -/
def amend (f : Forest) (n : NodeId) : Amendment → Forest
  | .scalar h => f.update n ({ · with head := h })
  | .location l => f.update n ({ · with location := l })
  | .endPosition p => f.update n ({ · with endPosition := p })
  | .documentation t => f.update n ({ · with documentation := t })
  | .remark key v => f.annotate n key v
  | .noRemark key => f.dropAnnotationAt n key
  | .noBindings => f.clearBindings n

/-- The nodes and drafts that a call hands out, and the forest after it. -/
def call (f : Forest) : Call → List NodeId × Forest
  | .draft h => ([(f.draft h).1], (f.draft h).2)
  | .assemble d l => ([d], f.assemble d l)
  | .construct l h as =>
    match f.construct l h as with
    | (.ok d, g) => ([d], g)
    | (.error _, g) => ([], g)
  | .change p c =>
    match (Mutation.change p c).perform f with
    | (.ok made, g) => (made, g)
    | (.error _, g) => ([], g)
  | .body p => ([(f.body p).1], (f.body p).2)
  | .copy n => ([(f.copy n).1], (f.copy n).2)
  | .amend n a => ([], f.amend n a)
  | .report journal => ([], { f with journal := journal })

end Forest

/-! ## Moves and runs -/

/-- A forest and what its user has in hand. -/
structure World where
  forest : Forest := {}
  hands : List NodeId := []

/-- One move of the user. -/
inductive Move
  | call (c : Call)
  | hold (hands : List NodeId)

namespace World

/-- The nodes and drafts that the user can get at going down. -/
def Live (w : World) (n : NodeId) : Prop := Forest.Live w.forest w.hands n

instance (w : World) (n : NodeId) : Decidable (w.Live n) :=
  inferInstanceAs (Decidable (Forest.Live ..))

/-- The nodes and drafts that have not been given up. -/
def Kept (w : World) (n : NodeId) : Prop := Forest.Kept w.forest w.hands n

instance (w : World) (n : NodeId) : Decidable (w.Kept n) :=
  inferInstanceAs (Decidable (Forest.Kept ..))

/-- The holder that a node's link leads to, if it is kept. -/
def parent? (w : World) (n : NodeId) : Option NodeId :=
  w.forest.parent? (w.forest.kept w.hands) n

/-- The world after a move. -/
def after (w : World) : Move → World
  | .call c => ⟨(w.forest.call c).2, (w.forest.call c).1 ++ w.hands⟩
  | .hold hands => { w with hands := hands }

/-- The move can be made at all. -/
def CanMake (w : World) : Move → Prop
  | .call c => c.Possible w.forest
  | .hold hands => ∀ n ∈ hands, n < w.forest.size

instance (w : World) : (m : Move) → Decidable (w.CanMake m)
  | .call c => inferInstanceAs (Decidable (c.Possible w.forest))
  | .hold hands => inferInstanceAs (Decidable (∀ n ∈ hands, n < w.forest.size))

/-- Which moves are made in which worlds. -/
abbrev Discipline := World → Move → Prop

/-- From one world to another by moves of a discipline. -/
def Run (D : Discipline) : World → World → Prop :=
  Relation.ReflTransGen fun w v => ∃ m, w.CanMake m ∧ D w m ∧ v = w.after m

/-- No discipline at all. -/
def Anything : Discipline := fun _ _ => True

instance (w : World) (m : Move) : Decidable (Anything w m) := inferInstanceAs (Decidable True)

/-- A world that can come about, with no discipline at all. -/
def Reachable (w : World) : Prop := Run Anything {} w

/-- The moves can be made one after the other, and are allowed when their turn comes. -/
def Allows (D : Discipline) : World → List Move → Prop
  | _, [] => True
  | w, m :: ms => w.CanMake m ∧ D w m ∧ Allows D (w.after m) ms

instance Allows.decidable (D : Discipline) [∀ w m, Decidable (D w m)] :
    (w : World) → (ms : List Move) → Decidable (Allows D w ms)
  | _, [] => inferInstanceAs (Decidable True)
  | w, m :: ms =>
    have := Allows.decidable D (w.after m) ms
    inferInstanceAs (Decidable (w.CanMake m ∧ D w m ∧ Allows D (w.after m) ms))

namespace Run

variable {D : Discipline} {w v : World}

theorem refl (w : World) : Run D w w := Relation.ReflTransGen.refl

theorem trans {u : World} (h₁ : Run D w v) (h₂ : Run D v u) : Run D w u :=
  Relation.ReflTransGen.trans h₁ h₂

theorem move {m : Move} (h : Run D w v) (hm : v.CanMake m) (hd : D v m) : Run D w (v.after m) :=
  .tail h ⟨m, hm, hd, rfl⟩

/-- A list of moves that are allowed is a run. -/
theorem of_allows : ∀ {ms : List Move} {v : World}, Run D w v → Allows D v ms →
    Run D w (ms.foldl after v)
  | [], _, h, _ => h
  | m :: _, v, h, ⟨hm, hd, hms⟩ => of_allows (v := v.after m) (h.move hm hd) hms

/-- What holds at the start and is kept by every move holds after a run. -/
theorem invariant {I : World → Prop} (h : Run D w v) (hw : I w)
    (hstep : ∀ u m, I u → u.CanMake m → D u m → I (u.after m)) : I v := by
  induction h with
  | refl => exact hw
  | tail _ hm ih =>
    obtain ⟨m, hm, hd, rfl⟩ := hm
    exact hstep _ m ih hm hd

end Run

end World

/-! ## What calls do -/

namespace Forest

variable {f g : Forest}

/-- The element that an operation on a sequence hands out was held there. -/
theorem mem_children_of_removed {p x : NodeId} {s : SequenceField} {e : SequenceEdit NodeId}
    (h : (Mutation.edit p s e).perform f = (.ok (.removed x), g)) (hp : p < f.size) :
    x ∈ f.children p := by
  cases e with
  | removeAt i =>
    obtain ⟨y, hr, hxy⟩ := Mutation.bind_pure_eq_ok.1 h
    obtain rfl := SequenceAnswer.removed.inj hxy
    have hr := removeAt_rewired hr hp
    refine mem_children.2 ⟨_, hr.declared, ?_⟩
    simpa using hr.balance.mem_iff.1 (List.mem_append_right _ List.mem_cons_self)
  | _ =>
    obtain ⟨r, -, he⟩ := Mutation.bind_pure_eq_ok.1 h
    exact absurd he (by simp)

/-- **What a change does.** It rewires the field of the receiver that it is made to, or leaves all
records as they were. Either way it is known which nodes it puts there. What it puts back it has
taken out first, and what it hands out was held before. -/
theorem change_cases {p : NodeId} {c : Change} {made : List NodeId}
    (h : (Mutation.change p c).perform f = (.ok made, g)) (hp : p < f.size)
    (hx : ∀ x ∈ c.placed, x < f.size) :
    (∀ x ∈ made, x ∈ f.children p) ∧
      (g.records = f.records ∧ c.entering f p = [] ∨
        ∃ φ ys taken, Rewired f g p φ ys c.placed taken ∧ c.field? f p = some φ ∧
          (∀ x ∈ c.placed, c.Keeps f p x → x ∈ taken) ∧ c.entering f p = c.placed) := by
  cases c with
  | assign s x =>
    obtain ⟨_, hg, rfl⟩ := Mutation.bind_pure_eq_ok.1 h
    refine ⟨by simp, ?_⟩
    rcases assign_rewired hg hp fun n hn => hx n (Option.mem_toList.2 hn) with
      ⟨n, rfl, hsn, rfl⟩ | ⟨hne, hr⟩
    · exact .inl ⟨rfl, if_pos hsn.symm⟩
    · refine .inr ⟨_, _, _, hr, rfl,
        fun n hn hk => absurd hk (hne n (Option.mem_toList.1 hn)), ?_⟩
      rw [Change.entering, Change.placed]
      split
      · next hsame =>
        cases x with
        | none => rfl
        | some n => exact absurd hsame.symm (hne n rfl)
      · rfl
  | edit s e =>
    obtain ⟨a, g', hg, he⟩ := Mutation.bind_eq_ok.1 h
    have hrewired : g'.records = f.records ∧ e.entering (f.sequence p s) = [] ∨
        ∃ φ ys taken, Rewired f g' p φ ys e.placed taken ∧ some (.sequence s) = some φ ∧
          (∀ x ∈ e.placed, e.Keeps (f.sequence p s) x → x ∈ taken) ∧
          e.entering (f.sequence p s) = e.placed := by
      rcases edit_rewired hg hp hx with ⟨rfl, hnil⟩ | ⟨ys, taken, hr, hk, hplaced⟩
      · exact .inl ⟨rfl, hnil⟩
      · exact .inr ⟨_, ys, taken, hr, rfl, fun x _ => hk x, hplaced⟩
    cases a with
    | removed x =>
      obtain ⟨hmade, rfl⟩ := Prod.mk.inj he
      obtain rfl := Except.ok.inj hmade
      refine ⟨fun y hy => ?_, hrewired⟩
      rw [List.mem_singleton.1 hy]
      exact mem_children_of_removed hg hp
    | _ =>
      obtain ⟨hmade, rfl⟩ := Prod.mk.inj he
      obtain rfl := Except.ok.inj hmade
      exact ⟨by simp, hrewired⟩
  | replaceChild x y =>
    obtain ⟨b, hg, rfl⟩ := Mutation.bind_pure_eq_ok.1 h
    refine ⟨by simp, ?_⟩
    rcases replaceChild_rewired hg hp (hx y List.mem_cons_self) with
      ⟨hsame, hxy⟩ | ⟨hne, φ, ys, hφ, hr⟩
    · exact .inl ⟨hsame, if_neg fun hx => hx.2 (hxy hx.1)⟩
    · have hmem : x ∈ f.children p := mem_children.2 ⟨φ, hr.declared,
        (hr.mem_of_taken List.mem_cons_self).resolve_right fun hx => hne (List.mem_singleton.1 hx)⟩
      exact .inr ⟨φ, ys, _, hr, hφ, fun _ _ hk => absurd hk hne, if_pos ⟨hmem, hne⟩⟩

/-- The same, without the field and the nodes that are put there. -/
theorem change_rewired {p : NodeId} {c : Change} {made : List NodeId}
    (h : (Mutation.change p c).perform f = (.ok made, g)) (hp : p < f.size)
    (hx : ∀ x ∈ c.placed, x < f.size) :
    (∀ x ∈ made, x ∈ f.children p) ∧
      (g.records = f.records ∨ ∃ φ ys taken, Rewired f g p φ ys c.placed taken ∧
        ∀ x ∈ c.placed, c.Keeps f p x → x ∈ taken) := by
  obtain ⟨hmade, hcases⟩ := change_cases h hp hx
  refine ⟨hmade, hcases.imp And.left ?_⟩
  rintro ⟨φ, ys, taken, hr, -, hkeep, -⟩
  exact ⟨φ, ys, taken, hr, hkeep⟩

/-- A change succeeds, or it might as well not have been called. -/
theorem call_change_cases (f : Forest) (p : NodeId) (c : Change) :
    (∃ made g, (Mutation.change p c).perform f = (.ok made, g) ∧
      f.call (.change p c) = (made, g)) ∨ f.call (.change p c) = ([], f) := by
  rcases h : (Mutation.change p c).perform f with ⟨e | made, g⟩
  · obtain rfl := Mutation.atomic_change p c f e g h
    exact .inr (by rw [call, h])
  · exact .inl ⟨made, g, rfl, by rw [call, h]⟩

/-- An amendment changes attributes only. -/
theorem amend_amended {n : NodeId} {a : Amendment} (h : (Call.amend n a).Sensible f) :
    Amended f (f.amend n a) := by
  cases a with
  | scalar k => exact .update rfl rfl h rfl rfl
  | noBindings => exact clearWithin_amended ..
  | _ => exact .update rfl rfl rfl rfl rfl

/-- A placement rewires a field of the draft, or does nothing to a node already there. -/
theorem place_rewired {d : NodeId} {a : Placement}
    (h : (Mutation.place d a).perform f = (.ok (), g)) (hd : d < f.size)
    (hx : ∀ x ∈ a.nodes, x < f.size) :
    g = f ∨ ∃ φ ys taken, Rewired f g d φ ys a.nodes taken := by
  cases a with
  | single s x =>
    rcases assign_rewired h hd (fun n hn => hx n (Option.mem_toList.2 hn)) with
      ⟨_, _, _, rfl⟩ | ⟨-, hr⟩
    · exact .inl rfl
    · exact .inr ⟨_, _, _, hr⟩
  | sequence s xs => exact .inr ⟨_, _, _, extend_rewired h hd hx⟩

/-- Filling goes through placements one after the other; what each keeps is kept. The list of
placements still to come is part of what is known. -/
theorem fill_invariant {d : NodeId} {I : List Placement → Forest → Prop}
    (hstep : ∀ a as f g, I (a :: as) f → (Mutation.place d a).perform f = (.ok (), g) → I as g) :
    ∀ (as : List Placement) (f : Forest), I as f →
      ∃ rest, I rest (f.fill d as).2 ∧ ((f.fill d as).1 = .ok () → rest = []) := by
  intro as
  induction as with
  | nil => intro f hf; exact ⟨[], hf, fun _ => rfl⟩
  | cons a as ih =>
    intro f hf
    rw [fill]
    split
    · next g hg => exact ih g (hstep a as f g hf hg)
    · next e g hg =>
      obtain rfl := Mutation.atomic_place a e g hg
      exact ⟨a :: as, hf, fun h => absurd h (by simp)⟩

/-- A draft on its way to being filled: `I` is known so far, and what is still to be placed are
nodes of those that were handed over. -/
structure PartlyFilled (I : Forest → Prop) (d : NodeId) (operands : List NodeId)
    (as : List Placement) (f : Forest) : Prop where
  known : I f
  draft_lt : d < f.size
  operand : ∀ x ∈ as.flatMap Placement.nodes, x ∈ operands ∧ f.IsNode x

/-- **Filling a draft is one rewiring of it after the other.** What is known of a forest, and is
kept by rewiring the draft to hold more of the nodes that are handed over, is known in the end. -/
theorem fill_induction {I : Forest → Prop} {d : NodeId} {as : List Placement} (hf : I f)
    (hd : d < f.size) (has : ∀ x ∈ as.flatMap Placement.nodes, f.IsNode x)
    (hstep : ∀ {g k φ ys placed taken}, I g → Rewired g k d φ ys placed taken →
      (∀ x ∈ placed, x ∈ as.flatMap Placement.nodes ∧ g.IsNode x) → I k) :
    I (f.fill d as).2 := by
  have hplace : ∀ a rest g k, PartlyFilled I d (as.flatMap Placement.nodes) (a :: rest) g →
      (Mutation.place d a).perform g = (.ok (), k) →
      PartlyFilled I d (as.flatMap Placement.nodes) rest k := by
    rintro a rest g k ⟨hg, hd, hoperand⟩ hplace
    rw [List.flatMap_cons, List.forall_mem_append] at hoperand
    obtain ⟨ha, hrest⟩ := hoperand
    rcases place_rewired hplace hd fun x hx => (ha x hx).2.lt_size with rfl | ⟨_, _, _, hr⟩
    · exact ⟨hg, hd, hrest⟩
    · exact ⟨hstep hg hr ha, hr.size_eq ▸ hd,
        fun x hx => ⟨(hrest x hx).1, hr.isNode_iff.2 (hrest x hx).2⟩⟩
  obtain ⟨_, hrest, -⟩ := fill_invariant hplace as f ⟨hf, hd, fun x hx => ⟨hx, has x hx⟩⟩
  exact hrest.known

/-! ## Every reachable forest is regular -/

/-- What can be said of every call: the forest stays regular, nothing is lost from it, and what
is handed out is in it. -/
structure Served (f : Forest) (made : List NodeId) (g : Forest) : Prop where
  regular : g.Regular
  extended : Extends f g
  made_lt : ∀ n ∈ made, n < g.size

theorem served_push_draft (h : f.Regular) (k : Head) :
    Served f [f.size] (f.push { head := k }) := by
  have hborn := born_push f (Record.children_draft k)
  refine ⟨h.born hborn rfl (Record.ownedBy_draft k _) (.inr (Record.children_draft k)) (by simp)
    (by simp),
    .of_grows (.of_born hborn), ?_⟩
  simp

theorem served_body {p : NodeId} (h : f.Regular) (hp : p < f.size)
    (hk : f.kind p = .macroStatement) : Served f [(f.body p).1] (f.body p).2 := by
  cases hb : f.single p .block with
  | some b =>
    have hmem : b ∈ f.children p := mem_children.2 ⟨.single .block, by rw [hk]; decide,
      Option.mem_toList.2 hb⟩
    rw [body_of_some hb]
    exact ⟨h, .refl f, by simpa using h.closed p b hmem⟩
  | none =>
    have hborn := born_push f (Record.children_empty .block f.size)
    have hr := body_rewired hp hk hb
    refine ⟨(h.born_empty .block).rewired hr ?_,
      (Extends.of_grows (.of_born hborn)).trans (.of_rewired hr), ?_⟩
    · intro x hx
      rw [List.mem_singleton.1 hx, IsNode, hborn.record_new]
      rfl
    · rw [body_of_none hb, hr.size_eq, hborn.size_eq]
      simp

theorem served_change {p : NodeId} {c : Change} {made : List NodeId} (h : f.Regular)
    (hp : p < f.size) (hplaced : ∀ x ∈ c.placed, f.IsNode x)
    (hg : (Mutation.change p c).perform f = (.ok made, g)) : Served f made g := by
  obtain ⟨hmade, hg⟩ := change_rewired hg hp fun x hx => (hplaced x hx).lt_size
  have hmade : ∀ n ∈ made, n < f.size := fun n hn => h.closed p n (hmade n hn)
  rcases hg with hsame | ⟨_, _, _, hr, -⟩
  · have ha := Amended.of_records hsame
    exact ⟨h.amended ha, .of_amended ha, by rwa [ha.size_eq]⟩
  · exact ⟨h.rewired hr hplaced, .of_rewired hr, by rwa [hr.size_eq]⟩

theorem served_fill {d : NodeId} {as : List Placement} (h : f.Regular) (hd : d < f.size)
    (has : ∀ x ∈ as.flatMap Placement.nodes, f.IsNode x) : Served f [d] (f.fill d as).2 := by
  refine fill_induction (I := Served f [d]) ⟨h, .refl f, by simpa using hd⟩ hd has
    fun hg hr hplaced => ⟨hg.regular.rewired hr fun x hx => (hplaced x hx).2,
      hg.extended.trans (.of_rewired hr), ?_⟩
  rw [hr.size_eq]
  exact hg.made_lt

/-- The draft is assembled, or is left as far as it has been filled. -/
theorem construct_cases (f : Forest) (l : Location) (k : Head) (as : List Placement) :
    (∃ g, (f.push { head := k }).fill f.size as = (.ok (), g) ∧
      f.construct l k as = (.ok f.size, g.assemble f.size l)) ∨
    ∃ e g, (f.push { head := k }).fill f.size as = (.error e, g) ∧
      f.construct l k as = (.error e, g) := by
  rcases h : (f.push { head := k }).fill f.size as with ⟨e | _, g⟩
  · exact .inr ⟨e, g, rfl, by simp only [construct, draft, h]⟩
  · exact .inl ⟨g, rfl, by simp only [construct, draft, h]⟩

theorem call_construct_snd (f : Forest) (l : Location) (k : Head) (as : List Placement) :
    (f.call (.construct l k as)).2 = (f.construct l k as).2 := by
  rw [call]
  rcases f.construct l k as with ⟨e | d, g⟩ <;> rfl

theorem served_construct {l : Location} {k : Head} {as : List Placement} (h : f.Regular)
    (has : ∀ x ∈ as.flatMap Placement.nodes, f.IsNode x) :
    Served f [f.size] (f.construct l k as).2 := by
  have hdraft := served_push_draft h k
  have hfill : Served _ [f.size] ((f.push { head := k }).fill f.size as).2 :=
    served_fill hdraft.regular (hdraft.made_lt _ List.mem_cons_self)
      fun x hx => hdraft.extended.isNode (has x hx)
  have hext := hdraft.extended.trans hfill.extended
  rcases construct_cases f l k as with ⟨g, hg, hcon⟩ | ⟨e, g, hg, hcon⟩
  · rw [hg] at hfill hext
    rw [hcon]
    have hd := hfill.made_lt _ List.mem_cons_self
    exact ⟨hfill.regular.assemble hd, hext.trans (.assemble hd), by simpa using hd⟩
  · rw [hg] at hfill hext
    rw [hcon]
    exact ⟨hfill.regular, hext, hfill.made_lt⟩

/-- **Every call keeps a regular forest regular.** -/
theorem served_call {c : Call} (h : f.Regular) (hc : c.Possible f) :
    Served f (f.call c).1 (f.call c).2 := by
  have hlt := hc.receiver_lt
  have hplaced := hc.isNode_placed
  have hamended : ∀ {g}, Amended f g → Served f [] g := fun ha =>
    ⟨h.amended ha, .of_amended ha, by simp⟩
  cases c with
  | draft k => exact served_push_draft h k
  | assemble d l =>
    have hd := hlt d rfl
    exact ⟨h.assemble hd, .assemble hd, by simpa [Forest.call] using hd⟩
  | construct l k as =>
    have hserved := served_construct (l := l) (k := k) h hplaced
    rw [Forest.call]
    rcases construct_cases f l k as with ⟨g, -, hcon⟩ | ⟨e, g, -, hcon⟩
    · rw [hcon] at hserved ⊢
      exact hserved
    · rw [hcon] at hserved ⊢
      exact ⟨hserved.regular, hserved.extended, by simp⟩
  | change p e =>
    rcases call_change_cases f p e with ⟨made, g, hg, hcall⟩ | hcall
    · rw [hcall]
      exact served_change h (hlt p rfl) hplaced hg
    · rw [hcall]
      exact hamended (.refl f)
  | body p => exact served_body h (hlt p rfl) hc.sensible
  | copy n =>
    have hcopy := regular_copyWithin f.size f n h hc.sensible
    refine ⟨hcopy.regular, .of_grows hcopy.grows, fun m hm => ?_⟩
    rw [List.mem_singleton.1 hm]
    exact hcopy.standsIn.1.lt_size
  | amend n a => exact hamended (amend_amended hc.sensible)
  | report journal => exact hamended (.of_records rfl)

end Forest

namespace World

/-- The forest is regular and has everything that is in hand. -/
structure Sound (w : World) : Prop where
  regular : w.forest.Regular
  hands_lt : ∀ n ∈ w.hands, n < w.forest.size

theorem Sound.after {w : World} {m : Move} (h : w.Sound) (hm : w.CanMake m) :
    (w.after m).Sound := by
  cases m with
  | call c =>
    have hc := Forest.served_call h.regular hm
    refine ⟨hc.regular, fun n hn => ?_⟩
    rcases List.mem_append.1 hn with hn | hn
    · exact hc.made_lt n hn
    · exact hc.extended.lt_size (h.hands_lt n hn)
  | hold hands => exact ⟨h.regular, hm⟩

theorem Run.sound {D : Discipline} {w v : World} (h : Run D w v) (hw : w.Sound) : v.Sound :=
  h.invariant hw fun _ _ hu hm _ => hu.after hm

theorem sound_empty : ({} : World).Sound := ⟨Forest.regular_empty, by simp⟩

/-- **Every reachable forest is regular.** -/
theorem Reachable.regular {w : World} (h : w.Reachable) : w.forest.Regular :=
  (Run.sound h sound_empty).regular

end World

end SyntaxForest
