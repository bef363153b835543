import SyntaxForest.Proofs.Worlds

/-!
# Filling and assembling in either order

A draft may be filled and then assembled, or assembled first and then filled as a node. The links
come about in different ways. The fields of a draft give none, and assembling links whatever is
held by then; the fields of a node give a link with every placement and take it away with every
removal. The forest is the same in the end, and so are the answers on the way.

The reason is that assembling can be moved past every single call. For a call that comes down to a
rewiring this is `Rewired.assemble_eq`: the occupants are the same, and a node has a link to the
holder just in case it is among its children. That needs the draft to hold everything once only
(`TidyDraft`), since a node that is taken out of one of two places is not linked any more but still
held. For calls made of several steps, `Mutation.Indifferent` is put together in the shape of the
program. A call that fails has done nothing yet, on the draft as on the node, and so nothing is
asked of what it was to place: `FieldCall.Orderly` speaks of calls that succeed only.

Main statement: `Forest.fieldCalls_assemble`.
-/

namespace SyntaxForest

/-! ## Calls on one holder -/

/-- A call on the fields of one holder, a node or a draft. -/
inductive FieldCall
  | scalar (h : Head)
  | assign (s : SingleField) (x : Option NodeId)
  | edit (s : SequenceField) (e : SequenceEdit NodeId)
  | body
  | look (φ : Field)

/-- What a call on the fields of a holder has to say. -/
inductive FieldAnswer
  | done
  | sequence (a : SequenceAnswer)
  | node (n : NodeId)
  | nodes (xs : List NodeId)
deriving DecidableEq

/-- Performs a call on the fields of `d`. -/
def Mutation.fieldCall (d : NodeId) : FieldCall → Mutation FieldAnswer
  | .scalar h => do
    modify (·.amend d (.scalar h))
    return .done
  | .assign s x => do
    assign d s x
    return .done
  | .edit s e => return .sequence (← edit d s e)
  | .body => do
    let b := ((← get).body d).1
    modify fun f => (f.body d).2
    return .node b
  | .look φ => return .nodes ((← get).occupants d φ)

/-- Performs calls on the fields of `d` one after the other, also after one that has failed. -/
def Forest.fieldCalls (f : Forest) (d : NodeId) :
    List FieldCall → List (Except Error FieldAnswer) × Forest
  | [] => ([], f)
  | c :: cs =>
    let (answer, g) := (Mutation.fieldCall d c).perform f
    let (answers, k) := g.fieldCalls d cs
    (answer :: answers, k)

namespace Forest

variable {f g : Forest} {d : NodeId} {l : Location} {φ : Field} {ys placed taken : List NodeId}

/-! ## Drafts that hold everything once -/

/-- `d` is a draft that holds different nodes. Its fields belong to nobody, so that these nodes have
no links. -/
structure TidyDraft (f : Forest) (d : NodeId) : Prop where
  lt_size : d < f.size
  unowned : f.Unowned d
  nodup : (f.children d).Nodup
  isNode_of_mem : ∀ c ∈ f.children d, f.IsNode c
  not_isNode : ¬ f.IsNode d
  link_child : ∀ c ∈ f.children d, f.link c = none

namespace TidyDraft

/-- What the draft holds is in the store. -/
theorem child_lt (h : f.TidyDraft d) : ∀ c ∈ f.children d, c < f.size :=
  fun c hc => (h.isNode_of_mem c hc).lt_size

/-- A draft is not among its own children, which are nodes. -/
theorem not_mem_children (h : f.TidyDraft d) : d ∉ f.children d :=
  fun hd => h.not_isNode (h.isNode_of_mem d hd)

/-- A new draft. -/
theorem push_draft (f : Forest) (k : Head) : (f.push { head := k }).TidyDraft f.size := by
  have hborn := born_push f (Record.children_draft k)
  have hnil : (f.push { head := k }).children f.size = [] :=
    hborn.children_new.trans (Record.children_draft k)
  refine ⟨by simp, unowned_push_draft f k, by simp [hnil], by simp [hnil], ?_, by simp [hnil]⟩
  rw [IsNode, hborn.record_new]
  exact Bool.false_ne_true

/-- It remains one when a record is added. -/
theorem push (h : f.TidyDraft d) (r : Record) : (f.push r).TidyDraft d := by
  have hrecord : ∀ j < f.size, (f.push r).record j = f.record j :=
    fun j hj => record_push_of_lt hj r
  have hd := hrecord d h.lt_size
  have hchildren : (f.push r).children d = f.children d := by rw [children, hd, children]
  refine ⟨by rw [size_push]; exact Nat.lt_succ_of_lt h.lt_size, fun φ hφ => ?_,
    by rw [hchildren]; exact h.nodup, fun c hc => ?_, ?_, fun c hc => ?_⟩
  · rw [kind, hd] at hφ
    rw [owner, hd]
    exact h.unowned φ hφ
  · rw [hchildren] at hc
    rw [IsNode, hrecord c (h.child_lt c hc)]
    exact h.isNode_of_mem c hc
  · rw [IsNode, hd]
    exact h.not_isNode
  · rw [hchildren] at hc
    rw [link, hrecord c (h.child_lt c hc)]
    exact h.link_child c hc

/-- It remains one when attributes are changed. -/
theorem amended (h : f.TidyDraft d) (ha : Amended f g) : g.TidyDraft d := by
  refine ⟨by rw [ha.size_eq]; exact h.lt_size, ha.unowned h.unowned,
    by rw [ha.children_eq]; exact h.nodup, fun c hc => ?_, by rw [ha.isNode_iff]; exact h.not_isNode,
    fun c hc => ?_⟩
  · rw [ha.children_eq] at hc
    exact ha.isNode_iff.2 (h.isNode_of_mem c hc)
  · rw [ha.children_eq] at hc
    rw [ha.link_eq]
    exact h.link_child c hc

/-- What is placed must be new to the draft, or else be taken out first. -/
theorem rewired (h : f.TidyDraft d) (hr : Rewired f g d φ ys placed taken)
    (hnode : ∀ x ∈ placed, f.IsNode x) (hnodup : placed.Nodup)
    (hnew : ∀ x ∈ placed, x ∈ taken ∨ x ∉ f.children d) : g.TidyDraft d := by
  refine ⟨by rw [hr.size_eq]; exact h.lt_size, h.unowned.rewired hr, ?_, fun c hc => ?_,
    by rw [hr.isNode_iff]; exact h.not_isNode, fun c hc => ?_⟩
  · -- one occurrence more for each placement, one less for each node taken out
    rw [List.nodup_iff_count_le_one]
    intro x
    have hcount := hr.count_children x
    have hold := List.nodup_iff_count_le_one.1 h.nodup x
    have hplaced := List.nodup_iff_count_le_one.1 hnodup x
    by_cases hx : x ∈ placed
    · rcases hnew x hx with htaken | hout
      · have := List.count_pos_iff.2 htaken
        omega
      · have := List.count_eq_zero.2 hout
        omega
    · have := List.count_eq_zero.2 hx
      omega
  · rw [hr.isNode_iff]
    rcases hr.mem_children_of_mem hc with hc | ⟨-, hc⟩
    · exact h.isNode_of_mem c hc
    · exact hnode c hc
  · rw [hr.link_eq, h.unowned φ hr.declared]
    rcases hr.mem_children_of_mem hc with hc | ⟨-, hc⟩
    · simp [h.link_child c hc]
    · rw [if_pos hc]

end TidyDraft

/-! ## Reading past an assembly -/

section Readings

variable (f : Forest) (d j : NodeId) (l : Location)

/-- What assembling does to a record, links and contents aside. -/
theorem rest_assemble :
    ((f.assemble d l).record j).rest =
      if d = j ∧ j < f.size then
        { (f.record j).rest with
          owners := (f.record j).rest.owners.adopt d (f.record j).rest.kind.fields
          assembled := true
          location := l }
      else (f.record j).rest := by
  rw [record_assemble]
  dsimp only
  split <;> split <;> rfl

@[simp] theorem journal_assemble : (f.assemble d l).journal = f.journal := by simp [assemble]

/-- Assembling leaves all fields as they are. -/
@[simp] theorem single_assemble (s : SingleField) :
    (f.assemble d l).single j s = f.single j s := by
  unfold single
  rw [record_assemble]
  dsimp only
  split <;> split <;> rfl

@[simp] theorem sequence_assemble (s : SequenceField) :
    (f.assemble d l).sequence j s = f.sequence j s :=
  occupants_assemble f d j l (.sequence s)

/-- So a search in a sequence finds the same place, -/
@[simp] theorem position?_assemble (s : SequenceField) (x : NodeId) :
    (f.assemble d l).position? j s x = f.position? j s x := by
  rw [position?, sequence_assemble, position?]

/-- and every check says the same: that of the field, -/
@[simp] theorem requireField_assemble (φ : Field) :
    (f.assemble d l).requireField j φ = f.requireField j φ := by
  rw [requireField, kind_assemble, requireField]

/-- those of one node or of several, -/
@[simp] theorem requireFit_assemble (φ : Field) (x : NodeId) :
    (f.assemble d l).requireFit j φ x = f.requireFit j φ x := by
  rw [requireFit, kind_assemble, kind_assemble, requireFit]

@[simp] theorem requireFits_assemble (φ : Field) (xs : List NodeId) :
    (f.assemble d l).requireFits j φ xs = f.requireFits j φ xs := by
  induction xs with
  | nil => rfl
  | cons x xs ih => rw [requireFits, requireFits, requireFit_assemble, ih]

/-- and that of an index. -/
@[simp] theorem requireWithin_assemble (s : SequenceField) (i : Nat) :
    (f.assemble d l).requireWithin j s i = f.requireWithin j s i := by
  rw [requireWithin, sequence_assemble, kind_assemble, requireWithin]

end Readings

/-! ## Assembling past a rewiring -/

/-- Where everything is held once, what has been taken out is what was held before and is not held
any more, placements aside. -/
theorem TidyDraft.mem_taken_iff (h : f.TidyDraft d) (hr : Rewired f g d φ ys placed taken)
    {j : NodeId} (hj : j ∉ placed) : j ∈ taken ↔ j ∈ f.children d ∧ j ∉ g.children d := by
  have hcount := hr.count_children j
  have hold := List.nodup_iff_count_le_one.1 h.nodup j
  have hnew := List.count_eq_zero.2 hj
  rw [← List.count_pos_iff, ← List.count_pos_iff, ← List.count_pos_iff]
  omega

/-- Every field of the kind belongs to the node after assembling. -/
theorem owner_assemble (h : d < f.size) (hφ : φ ∈ (f.kind d).fields) :
    (f.assemble d l).owner d φ = some d := by
  show ((f.assemble d l).record d).rest.owners.get φ = some d
  rw [rest_assemble, if_pos ⟨rfl, h⟩, Owners.get_adopt]
  exact if_pos hφ

/-- The same rewiring before and after assembling gives the same links: to the holder for its
children, and as before for all others. -/
theorem Rewired.link_assemble_eq {k : Forest} (hf : f.TidyDraft d) (hg : g.TidyDraft d)
    (hr : Rewired f g d φ ys placed taken)
    (hk : Rewired (f.assemble d l) k d φ ys placed taken) (j : NodeId) :
    k.link j = (g.assemble d l).link j := by
  rw [hk.link_eq, owner_assemble hf.lt_size hr.declared, link_assemble hf.lt_size hf.child_lt,
    link_assemble hg.lt_size hg.child_lt, hr.link_eq, hf.unowned φ hr.declared]
  by_cases hplaced : j ∈ placed
  · rw [if_pos hplaced, if_pos (hr.placed_mem_children hplaced)]
  · have htaken := hf.mem_taken_iff hr hplaced
    by_cases hafter : j ∈ g.children d
    · have hbefore : j ∈ f.children d :=
        (hr.mem_children_of_mem hafter).resolve_right fun hj => hplaced hj.2
      simp [hplaced, hafter, hbefore, htaken]
    · by_cases hbefore : j ∈ f.children d
      · -- taken out: of the node it loses its link, in the draft it never had one
        simp [hplaced, hafter, hbefore, htaken, hf.link_child j hbefore]
      · simp [hplaced, hafter, hbefore, htaken]

/-- **The same rewiring before and after assembling.** -/
theorem Rewired.assemble_eq {k : Forest} (hf : f.TidyDraft d) (hg : g.TidyDraft d)
    (hr : Rewired f g d φ ys placed taken)
    (hk : Rewired (f.assemble d l) k d φ ys placed taken) (hjournal : k.journal = g.journal) :
    k = g.assemble d l := by
  have hlink := hr.link_assemble_eq hf hg hk
  refine ext_record (hk.size_eq.trans ?_) (fun j => Record.eq_of_withLink ?_ (hlink j)) ?_
  · rw [size_assemble, size_assemble, hr.size_eq]
  · refine Record.withLink_none_eq (Contents.ext_occupants fun ψ => ?_) ?_
    · show k.occupants j ψ = (g.assemble d l).occupants j ψ
      rw [hk.occupants_eq, occupants_assemble, occupants_assemble, hr.occupants_eq]
    · rw [hk.rest_eq, rest_assemble, rest_assemble, hr.rest_eq, hr.size_eq]
  · rw [hjournal, journal_assemble]

/-- A rewiring that is possible before and after assembling leaves a draft, and the assembled one
is what it leaves when it comes later. -/
theorem TidyDraft.rewired_assemble {k : Forest} (h : f.TidyDraft d)
    (hr : Rewired f g d φ ys placed taken)
    (hk : Rewired (f.assemble d l) k d φ ys placed taken) (hjournal : k.journal = g.journal)
    (hnode : ∀ x ∈ placed, f.IsNode x) (hnodup : placed.Nodup)
    (hnew : ∀ x ∈ placed, x ∈ taken ∨ x ∉ f.children d) : g.TidyDraft d ∧ k = g.assemble d l := by
  have hg := h.rewired hr hnode hnodup hnew
  exact ⟨hg, hr.assemble_eq h hg hk hjournal⟩

section Primitives

variable {s : SingleField} {t : SequenceField}

/-- Exchanging the occupant of a single field. -/
theorem exchange_draft {x : Option NodeId} (h : f.TidyDraft d) (hx : ∀ n ∈ x, f.IsNode n)
    (hnew : ∀ n ∈ x, n ∉ f.children d) (hs : .single s ∈ (f.kind d).fields)
    (hfit : ∀ n ∈ x, s.category.accepts (f.kind n) = true) :
    (f.exchange d s x).TidyDraft d ∧
      (f.assemble d l).exchange d s x = (f.exchange d s x).assemble d l := by
  have hr := exchange_rewired h.lt_size (fun n hn => (hx n hn).lt_size) hs hfit
  have hk : Rewired (f.assemble d l) ((f.assemble d l).exchange d s x) d (.single s) _ _ _ :=
    exchange_rewired (by simpa using h.lt_size) (fun n hn => by simpa using (hx n hn).lt_size)
      (by simpa using hs) (by simpa using hfit)
  rw [single_assemble] at hk
  refine h.rewired_assemble hr hk (by simp [exchange]) ?_ ?_ ?_
  · exact fun n hn => hx n (Option.mem_toList.1 hn)
  · cases x <;> simp
  · exact fun n hn => .inr (hnew n (Option.mem_toList.1 hn))

/-- Putting a node into a sequence, wherever it goes. -/
theorem linkInto_draft {x : NodeId} (h : f.TidyDraft d) (hx : f.IsNode x) (hnew : x ∉ f.children d)
    (hs : .sequence t ∈ (f.kind d).fields) (hperm : ys.Perm (f.sequence d t ++ [x]))
    (hfit : (Field.sequence t).category.accepts (f.kind x) = true) :
    (f.linkInto d t x ys).TidyDraft d ∧
      (f.assemble d l).linkInto d t x ys = (f.linkInto d t x ys).assemble d l := by
  have hr := linkInto_rewired h.lt_size hx.lt_size hs hperm hfit
  have hk : Rewired (f.assemble d l) ((f.assemble d l).linkInto d t x ys) d (.sequence t) _ _ _ :=
    linkInto_rewired (by simpa using h.lt_size) (by simpa using hx.lt_size) (by simpa using hs)
      (by simpa using hperm) (by simpa using hfit)
  exact h.rewired_assemble hr hk (by simp [linkInto]) (by simpa using hx) (by simp)
    (by simpa using hnew)

/-- Taking nodes out of a sequence. -/
theorem unlinkFrom_draft {xs : List NodeId} (h : f.TidyDraft d)
    (hs : .sequence t ∈ (f.kind d).fields) (hperm : (ys ++ xs).Perm (f.sequence d t)) :
    (f.unlinkFrom d t ys xs).TidyDraft d ∧
      (f.assemble d l).unlinkFrom d t ys xs = (f.unlinkFrom d t ys xs).assemble d l := by
  have hr := unlinkFrom_rewired h.lt_size hs hperm
  have hk : Rewired (f.assemble d l) ((f.assemble d l).unlinkFrom d t ys xs) d (.sequence t) _ _ _ :=
    unlinkFrom_rewired (by simpa using h.lt_size) (by simpa using hs) (by simpa using hperm)
  exact h.rewired_assemble hr hk (by simp [unlinkFrom]) (by simp) (by simp) (by simp)

/-- Putting a node in the place of another one. -/
theorem linkInto_unlink_draft {x y : NodeId} {i : Nat} (h : f.TidyDraft d) (hy : f.IsNode y)
    (hnew : y ∉ f.children d) (hs : .sequence t ∈ (f.kind d).fields)
    (hfit : (Field.sequence t).category.accepts (f.kind y) = true)
    (hi : (f.sequence d t)[i]? = some x) (hxy : x ≠ y) :
    ((f.linkInto d t y ((f.sequence d t).set i y)).unlink x (f.owner d (.sequence t))).TidyDraft d ∧
      ((f.assemble d l).linkInto d t y ((f.sequence d t).set i y)).unlink x
          ((f.assemble d l).owner d (.sequence t)) =
        ((f.linkInto d t y ((f.sequence d t).set i y)).unlink x
          (f.owner d (.sequence t))).assemble d l := by
  have hr := linkInto_unlink_rewired h.lt_size hy.lt_size hs hfit hi hxy
  have hk := linkInto_unlink_rewired (f := f.assemble d l) (p := d) (s := t) (i := i)
    (by simpa using h.lt_size) (by simpa using hy.lt_size) (by simpa using hs)
    (by simpa using hfit) (by simpa using hi) hxy
  rw [sequence_assemble] at hk
  exact h.rewired_assemble hr hk (by simp [linkInto]) (by simpa using hy) (by simp)
    (by simpa using .inr hnew)

/-- A new record does not get in the way. -/
theorem push_assemble (h : f.TidyDraft d) (r : Record) :
    (f.assemble d l).push r = (f.push r).assemble d l := by
  have hne : d ≠ f.size := Nat.ne_of_lt h.lt_size
  have hchildren : (f.push r).children d = f.children d := by
    rw [children, record_push, if_neg hne, children]
  refine ext_record (by simp) (fun j => ?_) (by simp)
  rw [record_push, record_assemble, record_assemble, size_assemble, hchildren, size_push,
    record_push]
  by_cases hj : j = f.size
  · subst hj
    have hmem : f.size ∉ f.children d := fun hc => Nat.lt_irrefl _ (h.child_lt _ hc)
    simp [hne, hmem]
  · have hlt : j < f.size + 1 ↔ j < f.size :=
      ⟨fun hlt => Nat.lt_of_le_of_ne (Nat.le_of_lt_succ hlt) hj, Nat.lt_succ_of_lt⟩
    simp [hj, hlt]

/-- A new body is the same block either way. In a draft it is born without a link, and assembling
gives it the one that the body of a node is born with. -/
theorem body_draft (h : f.TidyDraft d) (hkind : f.kind d = .macroStatement) :
    (f.body d).2.TidyDraft d ∧
      (f.assemble d l).body d = ((f.body d).1, (f.body d).2.assemble d l) := by
  cases hb : f.single d .block with
  | some b =>
    rw [body_of_some hb, body_of_some (b := b) (by simpa using hb)]
    exact ⟨h, rfl⟩
  | none =>
    -- the rewiring starts from the forest that has the new block already
    have hr := body_rewired h.lt_size hkind hb
    have hk := body_rewired (f := f.assemble d l) (p := d) (by simpa using h.lt_size)
      (by simpa using hkind) (by simpa using hb)
    rw [size_assemble, push_assemble h] at hk
    have hpush := h.push (Record.empty .block f.size)
    have hfresh : (f.push (Record.empty .block f.size)).IsNode f.size := by
      rw [IsNode, record_push, if_pos rfl]
      rfl
    have hnew : f.size ∉ (f.push (Record.empty .block f.size)).children d := by
      rw [(born_push f (Record.children_empty .block f.size)).children_old (Nat.ne_of_lt h.lt_size)]
      exact fun hc => Nat.lt_irrefl _ (h.child_lt _ hc)
    obtain ⟨hdraft, hbody⟩ := hpush.rewired_assemble hr hk (by simp [body, hb])
      (by simpa using hfresh) (by simp) (by simpa using hnew)
    refine ⟨hdraft, Prod.ext ?_ hbody⟩
    rw [body_of_none hb, body_of_none (by simpa using hb), size_assemble]

/-- Another scalar does not change the kind, so that the same fields are adopted. -/
theorem scalar_draft {k : Head} (h : f.TidyDraft d) (hkind : k.kind = f.kind d) :
    (f.amend d (.scalar k)).TidyDraft d ∧
      (f.assemble d l).amend d (.scalar k) = (f.amend d (.scalar k)).assemble d l := by
  have ha : Amended f (f.amend d (.scalar k)) := amend_amended (a := .scalar k) hkind
  refine ⟨h.amended ha, ext_record (by simp [amend]) (fun j => ?_) (by simp [amend])⟩
  rw [record_assemble, ha.children_eq, ha.size_eq]
  simp only [amend]
  rw [record_update, record_update, record_assemble, size_assemble]
  by_cases hj : d = j ∧ j < f.size
  · obtain ⟨rfl, hlt⟩ := hj
    have hkind : k.kind = (f.record d).kind := hkind
    simp [hlt, h.not_mem_children, Record.kind, hkind]
  · simp only [hj, if_false]

end Primitives

end Forest

/-! ## Assembling past a program -/

namespace Mutation

variable {α β : Type} {f : Forest} {d : NodeId} {l : Location}

/-- On the node that is made of the draft `d`, the mutation does what it does on the draft, and the
draft remains one that can be assembled. -/
structure Indifferent (d : NodeId) (l : Location) (m : Mutation α) (f : Forest) : Prop where
  tidy : (m.perform f).2.TidyDraft d
  perform_assemble :
    m.perform (f.assemble d l) = ((m.perform f).1, (m.perform f).2.assemble d l)

namespace Indifferent

/-- Doing nothing is. -/
theorem pure (h : f.TidyDraft d) (a : α) : Indifferent d l (Pure.pure a) f := ⟨h, rfl⟩

/-- Failing is. -/
theorem throw (h : f.TidyDraft d) (e : Error) : Indifferent d l (throw e : Mutation α) f := ⟨h, rfl⟩

/-- A mere change is, if assembling can be moved past it. -/
theorem modify {u : Forest → Forest}
    (h : (u f).TidyDraft d ∧ u (f.assemble d l) = (u f).assemble d l) :
    Indifferent d l (modify u) f := by
  refine ⟨h.1, ?_⟩
  rw [perform_modify, perform_modify, h.2]

/-- Two steps are, if the first is, and the second where the first leads to. -/
theorem bind {m : Mutation α} {k : α → Mutation β} (hm : Indifferent d l m f)
    (hk : ∀ a g, m.perform f = (.ok a, g) → g.TidyDraft d → Indifferent d l (k a) g) :
    Indifferent d l (m >>= k) f := by
  have hdraft := hm.tidy
  have hassemble := hm.perform_assemble
  rcases h : m.perform f with ⟨e | a, g⟩
  · rw [h] at hdraft hassemble
    exact ⟨by rw [perform_bind, h]; exact hdraft, by rw [perform_bind, perform_bind, h, hassemble]⟩
  · rw [h] at hdraft hassemble
    have hrest := hk a g h hdraft
    refine ⟨by rw [perform_bind, h]; exact hrest.tidy, ?_⟩
    rw [perform_bind, perform_bind, h, hassemble]
    exact hrest.perform_assemble

/-- It does not matter what is done with the result. -/
theorem bind_pure {m : Mutation α} (hm : Indifferent d l m f) (u : α → β) :
    Indifferent d l (m >>= fun a => Pure.pure (u a)) f :=
  hm.bind fun a _ _ hg => .pure hg (u a)

/-- After a check that says the same before and after assembling, the rest has to be indifferent only
where the check passes. -/
theorem check_bind {c : Forest → Except Error Unit} {k : Unit → Mutation β} (h : f.TidyDraft d)
    (hc : c (f.assemble d l) = c f) (hk : c f = .ok () → Indifferent d l (k ()) f) :
    Indifferent d l (check c >>= k) f := by
  refine bind ⟨h, ?_⟩ fun a g hg _ => ?_
  · rw [perform_check, perform_check, hc]
  · obtain ⟨hok, rfl⟩ := Prod.mk.inj hg
    exact hk hok

/-- What has been looked at has to give the same before and after assembling. -/
theorem get_bind {k : Forest → Mutation β} (hk : k (f.assemble d l) = k f)
    (h : Indifferent d l (k f) f) : Indifferent d l (get >>= k) f := by
  refine ⟨h.tidy, ?_⟩
  rw [perform_get_bind, perform_get_bind, hk]
  exact h.perform_assemble

end Indifferent

section Programs

variable {s : SingleField} {t : SequenceField}

/-- Assigning, if what gets into the field by it is new to the draft. -/
theorem indifferent_assign {x : Option NodeId} (h : f.TidyDraft d) (hx : ∀ y ∈ x, f.IsNode y)
    (hnew : Succeeds (assign d s x) f → x ≠ f.single d s → ∀ y ∈ x, y ∉ f.children d) :
    Indifferent d l (assign d s x) f := by
  refine .check_bind h (Forest.requireField_assemble ..) fun hs => ?_
  have hfield := Forest.requireField_eq_ok.1 hs
  cases x with
  | none => exact .modify (Forest.exchange_draft h hx (by simp) hfield (by simp))
  | some n =>
    refine .check_bind h (Forest.requireFit_assemble ..) fun hfit => .get_bind ?_ ?_
    · rw [Forest.single_assemble]
    · split
      · exact .pure h ()
      · next hother =>
        have hsucceeds : Succeeds (assign d s (some n)) f := by
          refine .check_bind hs (.check_bind hfit (.get_bind ?_))
          rw [if_neg hother]
          exact .modify _
        have hout := hnew hsucceeds fun hsame => hother hsame.symm
        refine .modify (Forest.exchange_draft h hx hout hfield ?_)
        rintro m ⟨⟩
        exact Forest.requireFit_eq_ok.1 hfit

/-- Appending, if the node is new to the draft when it gets there. -/
theorem indifferent_append {x : NodeId} (h : f.TidyDraft d) (hx : f.IsNode x)
    (hnew : Succeeds (append d t x) f → x ∉ f.children d) :
    Indifferent d l (append d t x) f := by
  refine .check_bind h (Forest.requireField_assemble ..) fun hs => ?_
  refine .check_bind h (Forest.requireFit_assemble ..) fun hfit => .modify ?_
  rw [Forest.sequence_assemble]
  exact Forest.linkInto_draft h hx (hnew (.check_bind hs (.check_bind hfit (.modify _))))
    (Forest.requireField_eq_ok.1 hs) (List.Perm.refl _) (Forest.requireFit_eq_ok.1 hfit)

/-- Inserting. -/
theorem indifferent_insertAt {i : Nat} {x : NodeId} (h : f.TidyDraft d) (hx : f.IsNode x)
    (hnew : Succeeds (insertAt d t i x) f → x ∉ f.children d) :
    Indifferent d l (insertAt d t i x) f := by
  refine .check_bind h (Forest.requireField_assemble ..) fun hs => ?_
  refine .check_bind h (Forest.requireFit_assemble ..) fun hfit => ?_
  refine .check_bind h (Forest.requireWithin_assemble ..) fun hi => .modify ?_
  have hout := hnew (.check_bind hs (.check_bind hfit (.check_bind hi (.modify _))))
  have hperm := List.perm_insertIdx x (f.sequence d t) (Forest.requireWithin_eq_ok.1 hi)
  rw [Forest.sequence_assemble]
  exact Forest.linkInto_draft h hx hout (Forest.requireField_eq_ok.1 hs)
    (hperm.trans (List.perm_append_singleton ..).symm) (Forest.requireFit_eq_ok.1 hfit)

/-- Each node is new to the draft when its turn comes, since it is none of those before it. -/
theorem indifferent_forM_append {xs : List NodeId} (h : f.TidyDraft d)
    (hxs : ∀ x ∈ xs, f.IsNode x) (hnodup : xs.Nodup) (hnew : ∀ x ∈ xs, x ∉ f.children d) :
    Indifferent d l (xs.forM (append d t)) f := by
  induction xs generalizing f with
  | nil => exact .pure h ()
  | cons x xs ih =>
    obtain ⟨hx, hnodup⟩ := List.nodup_cons.1 hnodup
    obtain ⟨hnode, hxs⟩ := List.forall_mem_cons.1 hxs
    obtain ⟨hout, hnew⟩ := List.forall_mem_cons.1 hnew
    refine .bind (indifferent_append h hnode fun _ => hout) fun _ g hg hdraft => ?_
    have hr := Forest.append_rewired hg h.lt_size hnode.lt_size
    refine ih hdraft (fun y hy => hr.isNode_iff.2 (hxs y hy)) hnodup fun y hy hmem => ?_
    rcases hr.mem_children_of_mem hmem with hmem | ⟨-, hmem⟩
    · exact hnew y hy hmem
    · exact hx (List.mem_singleton.1 hmem ▸ hy)

/-- Extending, if the nodes are different and new to the draft in case that all of them fit. -/
theorem indifferent_extend {xs : List NodeId} (h : f.TidyDraft d) (hxs : ∀ x ∈ xs, f.IsNode x)
    (hnew : Succeeds (extend d t xs) f → xs.Nodup ∧ ∀ x ∈ xs, x ∉ f.children d) :
    Indifferent d l (extend d t xs) f := by
  refine .check_bind h (Forest.requireField_assemble ..) fun hs => ?_
  refine .check_bind h (Forest.requireFits_assemble ..) fun hfits => ?_
  obtain ⟨hnodup, hout⟩ := hnew (succeeds_extend (Forest.requireField_eq_ok.1 hs)
    (Forest.requireFits_eq_ok.1 hfits))
  exact indifferent_forM_append h hxs hnodup hout

/-- Clearing. -/
theorem indifferent_clear (h : f.TidyDraft d) : Indifferent d l (clear d t) f := by
  refine .check_bind h (Forest.requireField_assemble ..) fun hs => .modify ?_
  rw [Forest.sequence_assemble]
  exact Forest.unlinkFrom_draft h (Forest.requireField_eq_ok.1 hs) (List.Perm.refl _)

/-- What was in the sequence is new to the draft again once the sequence has been cleared, since
the draft had it nowhere else. -/
theorem indifferent_reset {xs : List NodeId} (h : f.TidyDraft d) (hxs : ∀ x ∈ xs, f.IsNode x)
    (hnew : Succeeds (reset d t xs) f →
      xs.Nodup ∧ ∀ x ∈ xs, x ∈ f.sequence d t ∨ x ∉ f.children d) :
    Indifferent d l (reset d t xs) f := by
  refine .check_bind h (Forest.requireField_assemble ..) fun hs => ?_
  refine .check_bind h (Forest.requireFits_assemble ..) fun hfits => ?_
  obtain ⟨hnodup, hnew⟩ := hnew (.check_bind hs (.check_bind hfits (succeeds_clear_extend
    (Forest.requireField_eq_ok.1 hs) (Forest.requireFits_eq_ok.1 hfits))))
  refine .bind (indifferent_clear h) fun _ g hg hdraft => ?_
  have hr := Forest.clear_rewired hg h.lt_size
  refine indifferent_extend hdraft (fun x hx => hr.isNode_iff.2 (hxs x hx))
    fun _ => ⟨hnodup, fun x hx => ?_⟩
  have hcount := hr.count_children x
  have hold := List.nodup_iff_count_le_one.1 h.nodup x
  rw [List.count_nil] at hcount
  apply List.count_eq_zero.1
  rcases hnew x hx with hin | hout
  · have := List.count_pos_iff.2 hin
    omega
  · have := List.count_eq_zero.2 hout
    omega

/-- Removing a node, which may not be there. -/
theorem indifferent_remove {x : NodeId} (h : f.TidyDraft d) : Indifferent d l (remove d t x) f := by
  refine .check_bind h (Forest.requireField_assemble ..) fun hs => .get_bind ?_ ?_
  · rw [Forest.position?_assemble]
  · split
    · exact .pure h false
    · next i hi =>
      refine .bind_pure (.modify ?_) fun _ => true
      rw [Forest.sequence_assemble]
      exact Forest.unlinkFrom_draft h (Forest.requireField_eq_ok.1 hs)
        (Forest.perm_eraseIdx (Forest.position?_eq_some hi))

/-- Removing the element at an index, which may be out of bounds. -/
theorem indifferent_removeAt {i : Nat} (h : f.TidyDraft d) : Indifferent d l (removeAt d t i) f := by
  refine .check_bind h (Forest.requireField_assemble ..) fun hs => .get_bind ?_ ?_
  · simp only [Forest.sequence_assemble, Forest.kind_assemble]
  · dsimp only
    split
    · exact .throw h _
    · next x hi =>
      refine .bind_pure (.modify ?_) fun _ => x
      rw [Forest.sequence_assemble]
      exact Forest.unlinkFrom_draft h (Forest.requireField_eq_ok.1 hs) (Forest.perm_eraseIdx hi)

/-- Substituting, if there is something to be replaced, and the other node is new to the draft. -/
theorem indifferent_substitute {x y : NodeId} (h : f.TidyDraft d) (hy : f.IsNode y)
    (hnew : Succeeds (substitute d t x y) f → x ∈ f.sequence d t → x ≠ y → y ∉ f.children d) :
    Indifferent d l (substitute d t x y) f := by
  refine .check_bind h (Forest.requireField_assemble ..) fun hs => .get_bind ?_ ?_
  · rw [Forest.position?_assemble]
  · split
    · exact .pure h false
    · next i hi =>
      have hplace := Forest.position?_eq_some hi
      refine .check_bind h (Forest.requireFit_assemble ..) fun hfit => ?_
      split
      · exact .pure h true
      · next hxy =>
        have hsucceeds : Succeeds (substitute d t x y) f := by
          refine .check_bind hs (.get_bind ?_)
          rw [hi]
          refine .check_bind hfit ?_
          rw [if_neg hxy]
          exact .bind_pure (.modify _) _
        have hout := hnew hsucceeds (List.mem_of_getElem? hplace) hxy
        refine .bind_pure (.modify ?_) fun _ => true
        rw [Forest.sequence_assemble]
        exact Forest.linkInto_unlink_draft h hy hout (Forest.requireField_eq_ok.1 hs)
          (Forest.requireFit_eq_ok.1 hfit) hplace hxy

/-- **Every operation on a sequence is indifferent**, if what gets into the sequence by it is new to
the draft, each node once, or is put back where it was. -/
theorem indifferent_edit {e : SequenceEdit NodeId} (h : f.TidyDraft d)
    (he : ∀ x ∈ e.placed, f.IsNode x)
    (hnew : Succeeds (edit d t e) f → (e.entering (f.sequence d t)).Nodup ∧
      ∀ x ∈ e.entering (f.sequence d t), e.Keeps (f.sequence d t) x ∨ x ∉ f.children d) :
    Indifferent d l (edit d t e) f := by
  cases e with
  | append x =>
    refine .bind_pure (indifferent_append h (he x List.mem_cons_self) fun hsucceeds => ?_) _
    exact ((hnew (hsucceeds.bind_pure _)).2 x List.mem_cons_self).resolve_left id
  | insertAt i x =>
    refine .bind_pure (indifferent_insertAt h (he x List.mem_cons_self) fun hsucceeds => ?_) _
    exact ((hnew (hsucceeds.bind_pure _)).2 x List.mem_cons_self).resolve_left id
  | extend xs =>
    refine .bind_pure (indifferent_extend h he fun hsucceeds => ?_) _
    obtain ⟨hnodup, hnew⟩ := hnew (hsucceeds.bind_pure _)
    exact ⟨hnodup, fun x hx => (hnew x hx).resolve_left id⟩
  | reset xs =>
    exact .bind_pure (indifferent_reset h he fun hsucceeds => hnew (hsucceeds.bind_pure _)) _
  | clear => exact .bind_pure (indifferent_clear h) _
  | remove x => exact .bind_pure (indifferent_remove h) _
  | removeAt i => exact .bind_pure (indifferent_removeAt h) _
  | substitute x y =>
    refine .bind_pure (indifferent_substitute h (he y List.mem_cons_self)
      fun hsucceeds hx hxy => ?_) _
    have hentering : y ∈ (SequenceEdit.substitute x y).entering (f.sequence d t) := by
      rw [SequenceEdit.entering, if_pos ⟨hx, hxy⟩]
      exact List.mem_cons_self
    exact ((hnew (hsucceeds.bind_pure _)).2 y hentering).resolve_left hxy

end Programs

end Mutation

/-! ## Assembling past a sequence of calls -/

namespace FieldCall

/-- The call suits the kind of the holder, and what it hands over are nodes. -/
def Suits (f : Forest) (d : NodeId) : FieldCall → Prop
  | scalar h => h.kind = f.kind d
  | assign _ x => ∀ y ∈ x, f.IsNode y
  | edit _ e => ∀ y ∈ e.placed, f.IsNode y
  | body => f.kind d = .macroStatement
  | look _ => True

instance (f : Forest) (d : NodeId) : (c : FieldCall) → Decidable (c.Suits f d)
  | scalar h => inferInstanceAs (Decidable (h.kind = f.kind d))
  | assign _ x => inferInstanceAs (Decidable (∀ y ∈ x, f.IsNode y))
  | edit _ e => inferInstanceAs (Decidable (∀ y ∈ e.placed, f.IsNode y))
  | body => inferInstanceAs (Decidable (f.kind d = .macroStatement))
  | look _ => inferInstanceAs (Decidable True)

/-- The nodes that the call puts into a field of `d`, if it succeeds. -/
def entering (f : Forest) (d : NodeId) : FieldCall → List NodeId
  | assign s x => (Change.assign s x).entering f d
  | edit s e => (Change.edit s e).entering f d
  | scalar _ | body | look _ => []

/-- The node was in the field already, and is put back there by the call. -/
def Keeps (f : Forest) (d x : NodeId) : FieldCall → Prop
  | edit s e => e.Keeps (f.sequence d s) x
  | scalar _ | assign .. | body | look _ => False

instance (f : Forest) (d x : NodeId) : (c : FieldCall) → Decidable (c.Keeps f d x)
  | edit s e => inferInstanceAs (Decidable (e.Keeps (f.sequence d s) x))
  | scalar _ | assign .. | body | look _ => inferInstanceAs (Decidable False)

/-- The call suits the holder. If it succeeds, the nodes that it puts into a field are different,
and each of them is new to the holder, or put back. -/
structure Orderly (f : Forest) (d : NodeId) (c : FieldCall) : Prop where
  suits : c.Suits f d
  placed : (Mutation.fieldCall d c).Succeeds f → (c.entering f d).Nodup ∧
    ∀ y ∈ c.entering f d, c.Keeps f d y ∨ y ∉ f.children d

instance (f : Forest) (d : NodeId) (c : FieldCall) : Decidable (c.Orderly f d) :=
  decidable_of_iff (c.Suits f d ∧ ((Mutation.fieldCall d c).Succeeds f →
      (c.entering f d).Nodup ∧ ∀ y ∈ c.entering f d, c.Keeps f d y ∨ y ∉ f.children d))
    ⟨fun h => ⟨h.1, h.2⟩, fun h => ⟨h.suits, h.placed⟩⟩

end FieldCall

/-- **Assembling can be moved past every orderly call.** -/
theorem Mutation.indifferent_fieldCall {f : Forest} {d : NodeId} {l : Location} {c : FieldCall}
    (h : f.TidyDraft d) (hc : c.Orderly f d) : Indifferent d l (fieldCall d c) f := by
  cases c with
  | scalar k => exact .bind_pure (.modify (Forest.scalar_draft h hc.suits)) _
  | assign s x =>
    refine .bind_pure (indifferent_assign h hc.suits fun hsucceeds hother y hy => ?_) _
    have hentering : y ∈ (FieldCall.assign s x).entering f d := by
      rw [FieldCall.entering, Change.entering, if_neg hother]
      exact Option.mem_toList.2 hy
    exact ((hc.placed (hsucceeds.bind_pure _)).2 y hentering).resolve_left id
  | edit s e =>
    exact .bind_pure (indifferent_edit h hc.suits
      fun hsucceeds => hc.placed (hsucceeds.bind_pure _)) _
  | body =>
    obtain ⟨hdraft, hbody⟩ := Forest.body_draft (l := l) h hc.suits
    refine .get_bind ?_ (.bind_pure (.modify ⟨hdraft, congrArg Prod.snd hbody⟩) _)
    rw [hbody]
  | look φ => exact .get_bind (by rw [Forest.occupants_assemble]) (.pure h _)

namespace Forest

/-- The calls are orderly, each when its turn comes. -/
def OrderlyCalls (f : Forest) (d : NodeId) : List FieldCall → Prop
  | [] => True
  | c :: cs => c.Orderly f d ∧ ((Mutation.fieldCall d c).perform f).2.OrderlyCalls d cs

instance OrderlyCalls.decidable (d : NodeId) :
    (f : Forest) → (cs : List FieldCall) → Decidable (f.OrderlyCalls d cs)
  | _, [] => inferInstanceAs (Decidable True)
  | f, c :: cs =>
    have := OrderlyCalls.decidable d ((Mutation.fieldCall d c).perform f).2 cs
    inferInstanceAs (Decidable
      (c.Orderly f d ∧ ((Mutation.fieldCall d c).perform f).2.OrderlyCalls d cs))

/-- Assembling can be moved past a whole sequence of calls. -/
theorem TidyDraft.fieldCalls_assemble_eq {d : NodeId} {l : Location} :
    ∀ {cs : List FieldCall} {f : Forest}, f.TidyDraft d → f.OrderlyCalls d cs →
      (f.assemble d l).fieldCalls d cs =
        ((f.fieldCalls d cs).1, (f.fieldCalls d cs).2.assemble d l) := by
  intro cs
  induction cs with
  | nil => intro f _ _; rfl
  | cons c cs ih =>
    intro f h hcs
    have hstep := Mutation.indifferent_fieldCall (l := l) h hcs.1
    rw [fieldCalls, hstep.perform_assemble, fieldCalls]
    dsimp only
    rw [ih hstep.tidy hcs.2]

/-- **Filling and assembling in either order.** Whatever the head of the draft and the place where
it is assembled: orderly calls give the same answers on the draft and on the node, and the same
forest once the draft has been assembled. Calls may fail, and of what a failing call was to place
nothing is asked; what they do place may be held by others than the draft. -/
theorem fieldCalls_assemble (f : Forest) (h : Head) (l : Location) (cs : List FieldCall)
    (hcs : (f.draft h).2.OrderlyCalls (f.draft h).1 cs) :
    let (d, g) := f.draft h
    (g.assemble d l).fieldCalls d cs =
      ((g.fieldCalls d cs).1, (g.fieldCalls d cs).2.assemble d l) :=
  (TidyDraft.push_draft f h).fieldCalls_assemble_eq hcs

/-- Three names and a statement that holds the first. -/
def namesAndStatement : Forest :=
  let f := (({} : Forest).newReference {} "a").2
  let f := (f.newReference {} "b").2
  let f := (f.newReference {} "c").2
  (f.newReturn {} (some 0)).2

/-- Calls on a macro statement: names come, go and come again, and the body is made, let go and made
anew. In between there are calls that fail or find nothing to replace, and hand over what the macro
statement has already, or the same node twice. -/
def reshuffling : List FieldCall :=
  [.edit .arguments (.extend [0, 1, 2]),
   .edit .arguments (.insertAt 9 0),
   .edit .arguments (.substitute 3 0),
   .edit .arguments (.extend [1, 1, 3]),
   .assign .block (some 0),
   .edit .arguments (.remove 1),
   .edit .arguments (.insertAt 0 1),
   .scalar (.macroStatement "n"),
   .edit .arguments (.reset [2, 0]),
   .edit .arguments (.substitute 2 1),
   .body,
   .assign .block none,
   .body,
   .look (.sequence .arguments)]

/-- Both ways lead to the same node: its scalar and children, the links of a child and of its new
body, and those of the name that was replaced and of the body that was let go. -/
theorem fieldCalls_assemble_reshuffling :
    let (d, g) := namesAndStatement.draft (.macroStatement "m")
    let assembledLast := (g.fieldCalls d reshuffling).2.assemble d {}
    (g.assemble d {}).fieldCalls d reshuffling =
        ((g.fieldCalls d reshuffling).1, assembledLast) ∧
      (assembledLast.record d).head = .macroStatement "n" ∧
      assembledLast.children d = [1, 0, 6] ∧
      (assembledLast.link 1 = some d ∧ assembledLast.link 6 = some d) ∧
      (assembledLast.link 2 = none ∧ assembledLast.link 5 = none) :=
  ⟨fieldCalls_assemble namesAndStatement (.macroStatement "m") {} reshuffling (by decide +kernel),
    by decide +kernel⟩

end Forest

end SyntaxForest
