import SyntaxForest.Proofs.BackLinks

/-!
# Wrapping: a new node takes the place of a child that it holds

A node is built around a child of another one, and replaces the child there. Building links the
child to the new node (`Built`), so that it is no longer linked to its old holder when that lets
go of it. The replacement itself cannot fail if the new node fits where the child is found
(`Mutation.replaceChild_eq_true`), and the old holder stays live (`Rewired.live_holder`).
-/

namespace SyntaxForest

namespace Mutation

variable {f : Forest} {p x y : NodeId}

/-- Assigning a node that fits to a declared field cannot fail. -/
theorem succeeds_assign {s : SingleField} (hs : .single s ∈ (f.kind p).fields)
    (hfit : s.category.accepts (f.kind y) = true) : Succeeds (assign p s (some y)) f := by
  refine .check_bind (Forest.requireField_eq_ok.2 hs) ?_
  refine .check_bind (Forest.requireFit_eq_ok.2 hfit) (.get_bind ?_)
  split <;> exact ⟨_, _, rfl⟩

/-- Replacing within one field cannot fail if the new node fits whenever it is needed. -/
theorem succeeds_replaceIn {φ : Field} (hφ : φ ∈ (f.kind p).fields)
    (hfit : x ∈ f.occupants p φ → φ.category.accepts (f.kind y) = true) :
    Succeeds (replaceIn p x y φ) f := by
  cases φ with
  | single s =>
    refine .get_bind ?_
    split
    · next hx =>
      obtain ⟨_, g, hg⟩ := succeeds_assign hφ (hfit (Option.mem_toList.2 hx))
      exact .bind hg (.pure true)
    · exact .pure false
  | sequence s =>
    refine .check_bind (Forest.requireField_eq_ok.2 hφ) (.get_bind ?_)
    split
    · exact .pure false
    · next i hi =>
      have hx : x ∈ f.sequence p s := List.mem_of_getElem? (Forest.position?_eq_some hi)
      refine .check_bind (Forest.requireFit_eq_ok.2 (hfit hx)) ?_
      split <;> exact ⟨_, _, rfl⟩

/-- The replacement takes place if the node fits wherever the child may be found. -/
theorem replaceAmong_eq_true {φs : List Field} (hφs : ∀ φ ∈ φs, φ ∈ (f.kind p).fields)
    (hfit : ∀ φ ∈ φs, x ∈ f.occupants p φ → φ.category.accepts (f.kind y) = true)
    (hx : ∃ φ ∈ φs, x ∈ f.occupants p φ) :
    ∃ g, (replaceAmong p x y φs).perform f = (.ok true, g) := by
  induction φs with
  | nil =>
    obtain ⟨φ, hφ, -⟩ := hx
    exact absurd hφ List.not_mem_nil
  | cons φ φs ih =>
    obtain ⟨hφ, hφs⟩ := List.forall_mem_cons.1 hφs
    obtain ⟨hfitφ, hfit⟩ := List.forall_mem_cons.1 hfit
    obtain ⟨b, g, hg⟩ := succeeds_replaceIn hφ hfitφ
    rcases Forest.replaceIn_answer hg with ⟨rfl, -⟩ | ⟨rfl, hnot, rfl⟩
    · exact ⟨_, bind_eq_ok.2 ⟨true, g, hg, rfl⟩⟩
    · obtain ⟨ψ, hψ, hmem⟩ := hx
      have hψ : ψ ∈ φs := (List.mem_cons.1 hψ).resolve_left (by rintro rfl; exact hnot hmem)
      obtain ⟨k, hk⟩ := ih hφs hfit ⟨ψ, hψ, hmem⟩
      exact ⟨k, bind_eq_ok.2 ⟨false, g, hg, hk⟩⟩

/-- A child is found in one of the fields, and replaced where it is found. -/
theorem replaceChild_eq_true (hx : x ∈ f.children p)
    (hfit : ∀ φ ∈ (f.kind p).fields, x ∈ f.occupants p φ →
      φ.category.accepts (f.kind y) = true) :
    ∃ g, (replaceChild p x y).perform f = (.ok true, g) := by
  obtain ⟨φ, hφ, hmem⟩ := Forest.mem_children.1 hx
  have hfields : ∀ φ ∈ (f.kind p).searchOrder, φ ∈ (f.kind p).fields :=
    fun φ hφ => Kind.mem_searchOrder.1 hφ
  exact replaceAmong_eq_true hfields (fun φ hφ => hfit φ (hfields φ hφ))
    ⟨φ, Kind.mem_searchOrder.2 hφ, hmem⟩

end Mutation

namespace Forest

/-- A holder stays live whatever happens to its fields: no shortest way to it goes through it. -/
theorem Rewired.live_holder {f g : Forest} {p : NodeId} {φ : Field} {ys placed taken : List NodeId}
    (hr : Rewired f g p φ ys placed taken) {roots : List NodeId} (hp : Live f roots p) :
    Live g roots p := by
  have hway : ∀ {n}, Live f roots n → Live g roots n ∨ Live g roots p := by
    intro n hn
    induction hn with
    | root hroot hlt => exact .inl (.root hroot (hr.size_eq ▸ hlt))
    | @held q c _ hc hlt ih =>
      refine ih.elim (fun hq => ?_) .inr
      by_cases hqp : q = p
      · exact .inr (hqp ▸ hq)
      · exact .inl (.held hq (by rwa [hr.children_of_ne hqp]) (hr.size_eq ▸ hlt))
  exact (hway hp).elim id id

/-- A link to a live node is answered. -/
theorem parent?_eq_some {f : Forest} {hands : List NodeId} {c q : NodeId}
    (hlink : f.link c = some q) (hq : Live f hands q) :
    f.parent? (f.kept hands) c = some q := by
  rw [parent?, hlink, Option.filter_some, if_pos (contains_kept_iff.2 hq.kept)]

/-- A child that is linked to another node is replaced by it. -/
theorem Regular.wrap {f : Forest} {hands : List NodeId} {p c d : NodeId} (hreg : f.Regular)
    (hlive : Live f hands p) (hp : f.IsNode p) (hd : f.IsNode d) (hdp : d ≠ p)
    (hc : c ∈ f.children p) (hcd : c ≠ d) (hlink : f.link c = some d)
    (hfit : ∀ φ ∈ (f.kind p).fields, c ∈ f.occupants p φ →
      φ.category.accepts (f.kind d) = true) :
    ∃ g, (Mutation.replaceChild p c d).perform f = (.ok true, g) ∧
      g.parent? (g.kept hands) d = some p ∧ g.parent? (g.kept hands) c = some d := by
  obtain ⟨g, hg⟩ := Mutation.replaceChild_eq_true hc hfit
  rcases replaceChild_rewired hg hp.lt_size hd.lt_size with ⟨-, hsame⟩ | ⟨-, φ, ys, -, hr⟩
  · exact absurd (hsame hc) hcd
  · have howner : f.owner p φ = some p := (hreg.owner_eq_some hr.declared).2 ⟨rfl, hp⟩
    have hlive' := hr.live_holder hlive
    have hdlive : Live g hands d := .held hlive' (hr.placed_mem_children List.mem_cons_self)
      (hr.size_eq ▸ hd.lt_size)
    refine ⟨g, hg, parent?_eq_some ?_ hlive', parent?_eq_some ?_ hdlive⟩
    · rw [hr.link_eq, if_pos List.mem_cons_self, howner]
    · -- it is taken out of `p`, but its link leads elsewhere
      rw [hr.link_eq, if_neg fun h => hcd (List.mem_singleton.1 h), if_neg, hlink]
      rintro ⟨-, h⟩
      rw [hlink, howner] at h
      exact hdp (Option.some.inj h)

end Forest

namespace World

open Forest

/-- From `w` to `u` the node `d` has been built: all that it holds is linked to it, and nothing
else has changed but links. -/
structure Built (w u : World) (d : NodeId) : Prop where
  isNode : u.forest.IsNode d
  link_eq : ∀ c ∈ u.forest.children d, u.forest.link c = some d
  fresh : ¬ w.forest.IsNode d
  isNode_of_isNode : ∀ {p}, w.forest.IsNode p → u.forest.IsNode p
  kind_eq : ∀ {p}, w.forest.IsNode p → u.forest.kind p = w.forest.kind p
  occupants_eq : ∀ {p}, w.forest.IsNode p → ∀ φ, u.forest.occupants p φ = w.forest.occupants p φ
  live : ∀ {p}, w.Live p → u.Live p

/-- Assembly builds the draft: it was no node before, and what it holds is linked to it. -/
theorem built_assemble {w : World} {d : NodeId} {l : Location} (hreg : w.forest.Regular)
    (hm : w.CanMake (.call (.assemble d l))) : Built w (w.after (.call (.assemble d l))) d := by
  have hd : d < w.forest.size := hm.receiver_lt d rfl
  refine ⟨(isNode_assemble hd).2 (.inr rfl), fun c hc => ?_, hm.sensible,
    fun hp => (isNode_assemble hd).2 (.inl hp), fun _ => kind_assemble ..,
    fun _ _ => occupants_assemble .., fun hp => ?_⟩
  · show (w.forest.assemble d l).link c = some d
    have hc : c ∈ (w.forest.assemble d l).children d := hc
    rw [children_assemble] at hc
    rw [link_assemble hd (hreg.closed d), if_pos hc]
  · have hlive : Forest.Live (w.forest.assemble d l) w.hands _ :=
      Live.congr hp (size_assemble ..).symm fun _ => (children_assemble ..).symm
    exact hlive.mono (List.subset_append_right ..)

/-- Constructing a node builds it, out of a draft that nobody else has seen. -/
theorem built_construct {w : World} {d : NodeId} {l : Location} {h : Head} {as : List Placement}
    (hreg : w.forest.Regular) (hm : w.CanMake (.call (.construct l h as)))
    (hmade : (w.forest.construct l h as).1 = .ok d) :
    Built w (w.after (.call (.construct l h as))) d := by
  have hgrows := grows_construct (l := l) (k := h) hm.isNode_placed
  have hdraft := served_push_draft hreg h
  have hserved := served_fill hdraft.regular (hdraft.made_lt _ List.mem_cons_self)
    fun x hx => hdraft.extended.isNode (hm.isNode_placed x hx)
  rcases construct_cases w.forest l h as with ⟨g, hfill, hcon⟩ | ⟨e, g, -, hcon⟩
  · rw [hcon] at hmade hgrows
    rw [hfill] at hserved
    obtain rfl := Except.ok.inj hmade
    have hd := hserved.made_lt _ List.mem_cons_self
    have hafter : w.after (.call (.construct l h as)) =
        ⟨g.assemble w.forest.size l, w.forest.size :: w.hands⟩ := by
      rw [after, Forest.call, hcon]
      rfl
    rw [hafter]
    refine ⟨(isNode_assemble hd).2 (.inr rfl), fun c hc => ?_,
      fun hnode => Nat.lt_irrefl _ hnode.lt_size, fun hp => hgrows.isNode hp,
      fun hp => hgrows.kind_eq hp.lt_size, fun hp φ => hgrows.occupants_eq hp.lt_size φ,
      fun hp => (hgrows.live hp).mono (List.subset_cons_self ..)⟩
    have hc : c ∈ (g.assemble w.forest.size l).children w.forest.size := hc
    rw [children_assemble] at hc
    exact (link_assemble hd (hserved.regular.closed _)).trans (if_pos hc)
  · rw [hcon] at hmade
    exact absurd hmade (by simp)

end World

end SyntaxForest
