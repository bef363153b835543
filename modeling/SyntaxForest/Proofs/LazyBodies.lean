import SyntaxForest.Proofs.Consistency
import SyntaxForest.Proofs.NormalForms
import SyntaxForest.Proofs.Wrapping

/-!
# Asking for a body cannot be seen

The body of a macro statement comes into being when somebody asks for it. So asking changes the
store that comparison reads, anywhere inside of the trees that are compared. That this makes no
difference is a matter of normal forms: a field that was vacant gets an occupant that has been left
alone, and both are absent (`Materialized.normalFormWithin_eq`). The tree may get one level deeper
than it was (`Materialized.fitsWithin`), and the store larger by one record, so that comparison
still goes down far enough.

`Materialized` is what asking for a body does to a forest where there was none, up to the link of
the new block. The link is that of the field: it leads to a node, and is missing in a draft until
the draft is assembled.

Main statement: `World.body_invisible`.
-/

namespace SyntaxForest

namespace Forest

variable {f g : Forest} {m n x y : NodeId}

theorem head_eq_of_rest (h : (g.record n).rest = (f.record n).rest) :
    (g.record n).head = (f.record n).head := by
  show (g.record n).rest.head = (f.record n).rest.head
  rw [h]

theorem single_eq_of_occupants {s : SingleField}
    (h : g.occupants n (.single s) = f.occupants n (.single s)) :
    g.single n s = f.single n s := by
  have hhead : (g.single n s).toList.head? = (f.single n s).toList.head? := congrArg List.head? h
  simpa using hhead

/-- Parts of one field in two forests. -/
theorem normalPart_eq_of_occupants {a b : NodeId → NormalForm} {φ : Field}
    (hoccupants : g.occupants n φ = f.occupants n φ)
    (halone : ∀ c ∈ f.occupants n φ, (g.LeftAlone c ↔ f.LeftAlone c))
    (hbelow : ∀ c ∈ f.occupants n φ, b c = a c) : g.normalPart b n φ = f.normalPart a n φ := by
  cases φ with
  | single s =>
    have hsingle := single_eq_of_occupants hoccupants
    cases hx : f.single n s with
    | none => rw [normalPart_of_none (hsingle.trans hx), normalPart_of_none hx]
    | some x =>
      have hmem : x ∈ f.occupants n (.single s) := Option.mem_toList.2 hx
      simp only [normalPart_of_some (hsingle.trans hx), normalPart_of_some hx, halone x hmem,
        hbelow x hmem]
  | sequence s =>
    have hsequence : g.sequence n s = f.sequence n s := hoccupants
    rw [normalPart, normalPart, hsequence]
    exact congrArg NormalPart.elements (List.map_congr_left hbelow)

/-- Whether a block has been left alone is known from its kind and what it holds. -/
theorem leftAlone_congr (hkind : g.kind n = f.kind n)
    (hmodifier : g.occupants n (.single .modifier) = f.occupants n (.single .modifier))
    (hstatements : g.occupants n (.sequence .statements) = f.occupants n (.sequence .statements)) :
    g.LeftAlone n ↔ f.LeftAlone n := by
  have hsequence : g.sequence n .statements = f.sequence n .statements := hstatements
  rw [LeftAlone, LeftAlone, hkind, single_eq_of_occupants hmodifier, hsequence]

/-! ## The new body -/

/-- `g` is `f` with an empty block as the body of `m`, which had none. Links aside, nothing else
has changed. -/
structure Materialized (f g : Forest) (m : NodeId) : Prop where
  size_eq : g.size = f.size + 1
  vacant : f.single m .block = none
  record_new : (g.record f.size).withLink none = Record.empty .block f.size
  rest_old : ∀ j < f.size, (g.record j).rest = (f.record j).rest
  occupants_old : ∀ j < f.size, ∀ φ,
    g.occupants j φ = if j = m ∧ φ = .single .block then [f.size] else f.occupants j φ

theorem materialized_body (hm : m < f.size) (hkind : f.kind m = .macroStatement)
    (hnone : f.single m .block = none) : Materialized f (f.body m).2 m := by
  have hr := body_rewired hm hkind hnone
  have hborn := born_push f (Record.children_empty .block f.size)
  refine ⟨hr.size_eq.trans hborn.size_eq, hnone, ?_, fun j hj => ?_, fun j hj φ => ?_⟩
  · rw [hr.record_of_ne (Nat.ne_of_gt hm), hborn.record_new]
    rfl
  · exact (hr.rest_eq j).trans (hborn.rest_old (Nat.ne_of_lt hj))
  · rw [hr.occupants_eq, occupants, hborn.contents_old (Nat.ne_of_lt hj)]
    rfl

namespace Materialized

theorem head_old (h : Materialized f g m) (hn : n < f.size) :
    (g.record n).head = (f.record n).head :=
  head_eq_of_rest (h.rest_old n hn)

theorem kind_old (h : Materialized f g m) (hn : n < f.size) : g.kind n = f.kind n :=
  kind_eq_of_rest (h.rest_old n hn)

theorem occupants_of_ne (h : Materialized f g m) (hn : n < f.size) {φ : Field}
    (hne : ¬ (n = m ∧ φ = .single .block)) : g.occupants n φ = f.occupants n φ := by
  rw [h.occupants_old n hn, if_neg hne]

theorem single_body (h : Materialized f g m) (hm : m < f.size) :
    g.single m .block = some f.size := by
  have hbody : (g.single m .block).toList = [f.size] :=
    (h.occupants_old m hm (.single .block)).trans (if_pos ⟨rfl, rfl⟩)
  simpa using congrArg List.head? hbody

theorem kind_new (h : Materialized f g m) : g.kind f.size = .block := by
  have := congrArg Record.kind h.record_new
  exact this

theorem contents_new (h : Materialized f g m) : (g.record f.size).contents = {} := by
  have := congrArg Record.contents h.record_new
  exact this

theorem children_new (h : Materialized f g m) : g.children f.size = [] := by
  have := congrArg Record.children h.record_new
  exact this.trans (Record.children_empty ..)

theorem leftAlone_new (h : Materialized f g m) : g.LeftAlone f.size := by
  refine ⟨h.kind_new, ?_, ?_⟩
  · rw [single, h.contents_new]
    rfl
  · rw [sequence, h.contents_new]
    rfl

/-- Old blocks were left alone or not, as before: no block has a body. -/
theorem leftAlone_old (h : Materialized f g m) (hn : n < f.size) :
    g.LeftAlone n ↔ f.LeftAlone n :=
  leftAlone_congr (h.kind_old hn) (h.occupants_of_ne hn (by simp)) (h.occupants_of_ne hn (by simp))

/-- A node holds what it held before; the one that was asked for its body holds that too. -/
theorem mem_children_of_mem (h : Materialized f g m) (hn : n < f.size) {c : NodeId}
    (hc : c ∈ g.children n) : c ∈ f.children n ∨ c = f.size := by
  obtain ⟨φ, hφ, hmem⟩ := mem_children.1 hc
  rw [h.kind_old hn] at hφ
  rw [h.occupants_old n hn] at hmem
  split at hmem
  · exact .inr (List.mem_singleton.1 hmem)
  · exact .inl (mem_children.2 ⟨φ, hφ, hmem⟩)

/-- **A new body leaves the normal forms of old nodes as they were.** -/
theorem normalFormWithin_eq (h : Materialized f g m) (hclosed : f.Closed) :
    ∀ (depth : Nat) {n : NodeId}, n < f.size →
      g.normalFormWithin depth n = f.normalFormWithin depth n := by
  intro depth
  induction depth with
  | zero =>
    intro n hn
    rw [normalFormWithin, normalFormWithin, h.head_old hn]
  | succ depth ih =>
    intro n hn
    rw [normalFormWithin, normalFormWithin, h.head_old hn, h.kind_old hn]
    refine congrArg _ (List.map_congr_left fun φ hφ => ?_)
    by_cases hbody : n = m ∧ φ = .single .block
    · -- absent before, and now occupied by a block that nobody has touched
      obtain ⟨rfl, rfl⟩ := hbody
      rw [normalPart_of_none h.vacant, normalPart_of_some (h.single_body hn),
        if_pos ⟨rfl, h.leftAlone_new⟩]
    · have hlt : ∀ c ∈ f.occupants n φ, c < f.size := fun c hc =>
        hclosed n c (mem_children.2 ⟨φ, hφ, hc⟩)
      exact normalPart_eq_of_occupants (h.occupants_of_ne hn hbody)
        (fun c hc => h.leftAlone_old (hlt c hc)) fun c hc => ih (hlt c hc)

/-- The tree of an old node gets one level deeper at most. -/
theorem fitsWithin (h : Materialized f g m) (hclosed : f.Closed) : ∀ {depth : Nat} {n : NodeId},
    n < f.size → f.FitsWithin depth n → g.FitsWithin (depth + 1) n := by
  intro depth
  induction depth with
  | zero => intro n _ hn; exact hn.elim
  | succ depth ih =>
    intro n hlt hn c hc
    rcases h.mem_children_of_mem hlt hc with hc | rfl
    · exact ih (hclosed n c hc) (hn c hc)
    · intro d hd
      rw [h.children_new] at hd
      exact absurd hd List.not_mem_nil

/-- **Comparison finds a difference after a body has come just if it did before.** -/
theorem matchNodes_eq (h : Materialized f g m) (hf : f.Regular) (hg : g.Regular)
    (hx : x < f.size) (hacyclicX : f.AcyclicBelow x) (hy : y < f.size)
    (hacyclicY : f.AcyclicBelow y) : (g.matchNodes x y).1 = (f.matchNodes x y).1 := by
  have hclosed := hf.closed
  have hfitsX := hacyclicX.fitsWithin hclosed hx
  have hfitsY := hacyclicY.fitsWithin hclosed hy
  have hbefore := mismatchWithin_eq_none hf f.size hfitsX hfitsY
  have hafter := mismatchWithin_eq_none hg (f.size + 1) (h.fitsWithin hclosed hx hfitsX)
    (h.fitsWithin hclosed hy hfitsY)
  rw [h.normalFormWithin_eq hclosed _ hx, h.normalFormWithin_eq hclosed _ hy,
    hfitsX.normalFormWithin_eq (Nat.le_succ _),
    hfitsY.normalFormWithin_eq (Nat.le_succ _)] at hafter
  rw [Bool.eq_iff_iff, matchNodes_eq_true, matchNodes_eq_true, mismatch?, mismatch?, h.size_eq]
  exact hafter.trans hbefore.symm

end Materialized

/-- The link of a new body is that of the field. -/
theorem link_body (hm : m < f.size) (hkind : f.kind m = .macroStatement)
    (hnone : f.single m .block = none) :
    (f.body m).2.link f.size = f.owner m (.single .block) := by
  have hborn := born_push f (Record.children_empty .block f.size)
  rw [(body_rewired hm hkind hnone).link_eq, if_pos List.mem_cons_self,
    owner_eq_of_rest (hborn.rest_old (Nat.ne_of_lt hm))]

/-- The macro statement stays live. -/
theorem Live.body {hands : List NodeId} (hlive : Live f hands m)
    (hkind : f.kind m = .macroStatement) (hnone : f.single m .block = none) :
    Live (f.body m).2 hands m := by
  have hgrows := (sprouted_push f (Record.children_empty .block f.size)).grows
  exact (body_rewired hlive.lt_size hkind hnone).live_holder (hgrows.live hlive)

/-- Who has been asked for its body can be asked again. -/
theorem body_body (hm : m < f.size) (hkind : f.kind m = .macroStatement) :
    (f.body m).2.body m = ((f.body m).1, (f.body m).2) := by
  cases hb : f.single m .block with
  | some b =>
    rw [body_of_some hb]
    exact body_of_some hb
  | none =>
    rw [body_of_none hb]
    exact body_of_some ((materialized_body hm hkind hb).single_body hm)

end Forest

namespace World

open Forest

/-- Whatever is done to a forest, it keeps its nodes, and they keep their kinds. -/
theorem Run.extends {D : Discipline} {w v : World} (h : Run D w v) (hw : w.Sound) :
    Extends w.forest v.forest := by
  refine (h.invariant (I := fun u => u.Sound ∧ Extends w.forest u.forest) ⟨hw, .refl _⟩ ?_).2
  rintro u (c | hands) ⟨hsound, hextends⟩ hm -
  · exact ⟨hsound.after hm, hextends.trans (served_call hsound.regular hm).extended⟩
  · exact ⟨hsound.after hm, hextends⟩

/-- What a draft holds is linked to it when it is assembled. -/
theorem parent?_assemble {u : World} {d c : NodeId} {l : Location} (hu : u.Reachable)
    (hd : d < u.forest.size) (hc : c ∈ u.forest.children d) :
    (u.after (.call (.assemble d l))).parent? c = some d := by
  refine World.parent?_eq_some.2 ⟨?_, Kept.root List.mem_cons_self ?_⟩
  · exact (link_assemble hd (hu.regular.closed d)).trans (if_pos hc)
  · exact (size_assemble ..).symm ▸ hd

section Body

variable {w : World} {m : NodeId}

/-- A new body has the macro statement as its parent, if that is a node. -/
theorem parent?_body (h : w.forest.Regular) (hnode : w.forest.IsNode m) (hlive : w.Live m)
    (hkind : w.forest.kind m = .macroStatement) (hnone : w.forest.single m .block = none) :
    (w.after (.call (.body m))).parent? w.forest.size = some m := by
  have hdeclared : .single .block ∈ (w.forest.kind m).fields := by rw [hkind]; decide
  refine World.parent?_eq_some.2 ⟨(link_body hlive.lt_size hkind hnone).trans ?_, ?_⟩
  · exact (h.owner_eq_some hdeclared).2 ⟨rfl, hnode⟩
  · exact ((Live.body hlive hkind hnone).mono (List.subset_cons_self ..)).kept

/-- The body of a draft has none. -/
theorem parent?_body_draft (h : w.forest.Regular) (hlt : m < w.forest.size)
    (hdraft : ¬ w.forest.IsNode m) (hkind : w.forest.kind m = .macroStatement)
    (hnone : w.forest.single m .block = none) :
    (w.after (.call (.body m))).parent? w.forest.size = none := by
  have hdeclared : .single .block ∈ (w.forest.kind m).fields := by rw [hkind]; decide
  rw [Option.eq_none_iff_forall_ne_some]
  intro q hq
  have hlink := (link_body hlt hkind hnone).symm.trans (World.parent?_eq_some.1 hq).1
  exact hdraft ((h.owner_eq_some hdeclared).1 hlink).2

/-- A body gets its parent when the draft is assembled, no matter what has happened to it in the
meantime. -/
theorem parent?_body_assemble (hw : w.Reachable) {u : World} (hrun : Run Anything w u)
    (hlt : m < w.forest.size) (hkind : w.forest.kind m = .macroStatement) {b : NodeId}
    (hbody : u.forest.single m .block = some b) (l : Location) :
    (u.after (.call (.assemble m l))).parent? b = some m := by
  have hextends := hrun.extends (Run.sound hw sound_empty)
  refine parent?_assemble (Run.trans hw hrun) (hextends.lt_size hlt)
    (mem_children.2 ⟨.single .block, ?_, Option.mem_toList.2 hbody⟩)
  rw [hextends.kind_eq hlt, hkind]
  decide

end Body

/-- **Asking for a body cannot be seen.** In every reachable world, let a macro statement, be it a
node or a draft, be asked for its body. Any two nodes of acyclic trees match afterwards just if
they did before. Where there was no body, the answer is a new empty block. Its parent is the macro
statement; that of a draft comes with assembly, at once or later, as long as it is the body still.
Asking again gives the same answer and changes nothing. -/
theorem body_invisible {w : World} (hw : w.Reachable) {m : NodeId}
    (hm : w.CanMake (.call (.body m))) :
    let f := w.forest
    let v := w.after (.call (.body m))
    let g := v.forest
    let b := (f.body m).1
    (∀ x y, f.IsNode x → f.AcyclicBelow x → f.IsNode y → f.AcyclicBelow y →
        (g.matchNodes x y).1 = (f.matchNodes x y).1) ∧
      (f.single m .block = none →
        f.size ≤ b ∧ (g.record b).withLink none = Record.empty .block b ∧
          g.single m .block = some b ∧
          (f.IsNode m → w.Live m → v.parent? b = some m) ∧
          (¬ f.IsNode m → v.parent? b = none ∧
            (∀ l, (v.after (.call (.assemble m l))).parent? b = some m) ∧
            ∀ u l, Run Anything v u → u.forest.single m .block = some b →
              (u.after (.call (.assemble m l))).parent? b = some m)) ∧
      g.body m = (b, g) := by
  intro f v g b
  have hregular : f.Regular := hw.regular
  have hlt : m < f.size := hm.receiver_lt m rfl
  have hkind : f.kind m = .macroStatement := hm.sensible
  have hserved := served_body hregular hlt hkind
  refine ⟨fun x y hx hacyclicX hy hacyclicY => ?_, fun hnone => ?_, body_body hlt hkind⟩
  · cases hb : f.single m .block with
    | some c =>
      show ((f.body m).2.matchNodes x y).1 = _
      rw [body_of_some hb]
    | none =>
      exact (materialized_body hlt hkind hb).matchNodes_eq hregular hserved.regular hx.lt_size
        hacyclicX hy.lt_size hacyclicY
  · have hnew := materialized_body hlt hkind hnone
    have hb : b = f.size := body_of_none hnone
    have hbody : g.single m .block = some b := hb ▸ hnew.single_body hlt
    have hlater : ∀ u l, Run Anything v u → u.forest.single m .block = some b →
        (u.after (.call (.assemble m l))).parent? b = some m := fun u l hrun hstill =>
      parent?_body_assemble hw ((Run.move (.refl w) hm trivial).trans hrun) hlt hkind hstill l
    refine ⟨Nat.le_of_eq hb.symm, hb ▸ hnew.record_new, hbody, fun hnode hlive => ?_,
      fun hdraft => ⟨?_, fun l => hlater v l (.refl v) hbody, hlater⟩⟩
    · rw [hb]
      exact parent?_body hregular hnode hlive hkind hnone
    · rw [hb]
      exact parent?_body_draft hregular hlt hdraft hkind hnone

/-- Two macro statements in blocks, the first with a body, a third one that is a draft still, and
one whose body has been filled. -/
def macros : List Move :=
  [.call (.construct {} (.macroStatement "m") []),
   .call (.body 0),
   .call (.construct {} .block [.sequence .statements [0]]),
   .call (.construct {} (.macroStatement "m") []),
   .call (.construct {} .block [.sequence .statements [3]]),
   .call (.draft (.macroStatement "m")),
   .call (.construct {} (.macroStatement "m") []),
   .call (.body 6),
   .call (.construct {} .returnStatement []),
   .call (.change 7 (.edit .statements (.append 8)))]

/-- The one that is asked for its body, inside of a block, matches the one with an empty body and
differs from the one with a return statement in it, before and after. -/
theorem body_invisible_macros :
    let w := macros.foldl after {}
    (((w.after (.call (.body 3))).forest.matchNodes 2 4).1 = (w.forest.matchNodes 2 4).1 ∧
        (w.forest.matchNodes 2 4).1 = true) ∧
      (((w.after (.call (.body 3))).forest.matchNodes 3 6).1 = (w.forest.matchNodes 3 6).1 ∧
        (w.forest.matchNodes 3 6).1 = false) ∧
      (w.after (.call (.body 3))).parent? 9 = some 3 ∧
      (w.after (.call (.body 5))).parent? 9 = none ∧
      ((w.after (.call (.body 5))).after (.call (.assemble 5 {}))).parent? 9 = some 5 := by
  intro w
  have hw : w.Reachable := .of_allows (.refl _) (by decide +kernel)
  have hthree : (w.forest.body 3).1 = 9 := by decide +kernel
  have hfive : (w.forest.body 5).1 = 9 := by decide +kernel
  obtain ⟨hmatch, hnew, -⟩ := body_invisible hw (m := 3) (by decide +kernel)
  obtain ⟨-, hdraft, -⟩ := body_invisible hw (m := 5) (by decide +kernel)
  obtain ⟨-, -, -, hnode, -⟩ := hnew (by decide +kernel)
  obtain ⟨-, -, -, -, hdraft⟩ := hdraft (by decide +kernel)
  obtain ⟨hnone, hassembled, -⟩ := hdraft (by decide +kernel)
  refine ⟨⟨?_, by decide +kernel⟩, ⟨?_, by decide +kernel⟩, ?_, ?_, ?_⟩
  · exact hmatch 2 4 (by decide +kernel) (by decide +kernel) (by decide +kernel)
      (by decide +kernel)
  · exact hmatch 3 6 (by decide +kernel) (by decide +kernel) (by decide +kernel)
      (by decide +kernel)
  · exact hthree ▸ hnode (by decide +kernel) (by decide +kernel)
  · exact hfive ▸ hnone
  · exact hfive ▸ hassembled {}

end World

end SyntaxForest
