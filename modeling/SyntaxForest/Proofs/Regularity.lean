import SyntaxForest.Forest.Assembly
import SyntaxForest.Forest.Bindings
import SyntaxForest.Proofs.Rewiring
import SyntaxForest.Proofs.Subtrees

/-!
# Regular forests

Four things are true of a forest however it came about, with no care taken by anyone: only
nodes are held, never drafts; what a field holds is of the field's category; the fields of a node
belong to this node and those of a draft to nobody; and a link leads to a node that holds the
linked one. `Regular` says so. The reverse of the last is not part of it: a node may be held by
several holders and can be linked to one of them at most.

The changes that a forest goes through are of four sorts. A field is rewired (`Rewired`), a
record comes to the store (`Born`), a draft is assembled, and the attributes of nodes are
amended (`Amended`). Each keeps a regular forest regular, and everything that can be done to a
forest is made up of these four.

Nothing is ever lost from the store. `Extends` is what every change keeps of all records, and
`Grows` what a change keeps that works on later records only: everything but links.
-/

namespace SyntaxForest

/-- The fields of the record with identity `i` belong to `i` if it is a node, and to nobody if
it is a draft. -/
def Record.OwnedBy (r : Record) (i : NodeId) : Prop :=
  ∀ φ ∈ r.kind.fields, r.owners.get φ = if r.assembled then some i else none

/-- The fields of a new draft belong to nobody. -/
theorem Record.ownedBy_draft (k : Head) (i : NodeId) : ({ head := k } : Record).OwnedBy i :=
  fun φ _ => Owners.get_empty φ

/-- Once adopted, fields belong to the node. -/
theorem Record.ownedBy_of_adopt {r : Record} {o : Owners} {i : NodeId}
    (h : r.owners = o.adopt i r.kind.fields) (ha : r.assembled = true) : r.OwnedBy i := by
  intro φ hφ
  rw [h, Owners.get_adopt, if_pos hφ, ha]
  rfl

/-- The fields of a new node belong to it from the start. -/
theorem Record.ownedBy_empty (k : Kind) (i : NodeId) : (Record.empty k i).OwnedBy i :=
  ownedBy_of_adopt (by rw [kind, empty, Head.kind_ofKind]) rfl

namespace Forest

/-- Only nodes are held, each in a field of its category, fields belong to the nodes that have
them, and links lead to holders. -/
structure Regular (f : Forest) : Prop where
  isNode_of_mem : ∀ {p c}, c ∈ f.children p → f.IsNode c
  accepted : ∀ {p φ c}, φ ∈ (f.kind p).fields → c ∈ f.occupants p φ →
    φ.category.accepts (f.kind c) = true
  owned : ∀ p, (f.record p).OwnedBy p
  holds_of_link : ∀ {c p}, f.link c = some p → c ∈ f.children p ∧ f.IsNode p

variable {f g : Forest}

/-- What is held in a regular forest is in its store, since it is a node. -/
theorem Regular.closed (h : f.Regular) : f.Closed := fun _ _ hc => (h.isNode_of_mem hc).lt_size

/-- A declared field of a node belongs to the node, and no field belongs to anybody else. -/
theorem Regular.owner_eq_some (h : f.Regular) {p q : NodeId} {φ : Field}
    (hφ : φ ∈ (f.kind p).fields) : f.owner p φ = some q ↔ p = q ∧ f.IsNode p := by
  rw [owner, h.owned p φ hφ, IsNode]
  split <;> simp_all

/-- In the empty forest nothing is held, owned or linked. -/
theorem regular_empty : ({} : Forest).Regular := by
  have hrecord : ∀ i, ({} : Forest).record i = default := fun _ => rfl
  refine ⟨fun {p c} hc => ?_, fun {p φ c} _ hc => ?_, fun p φ _ => ?_, fun {c p} hl => ?_⟩
  · rw [children, hrecord] at hc
    exact absurd hc List.not_mem_nil
  · rw [occupants, hrecord, show (default : Record).contents = {} from rfl] at hc
    rw [Contents.occupants_empty] at hc
    exact absurd hc List.not_mem_nil
  · rw [hrecord]
    exact Owners.get_empty φ
  · rw [link, hrecord] at hl
    exact absurd hl (by simp [show (default : Record).link = none from rfl])

/-! ## Rewiring -/

/-- **Rewiring keeps a forest regular** if only nodes are placed. The delicate part are the links: a
node that is taken out of its holder must not stay linked to it. It does not, because the fields of
a holder that is a node belong to it, so that the move unlinks what was linked to it. -/
theorem Regular.rewired {p : NodeId} {φ : Field} {ys placed taken : List NodeId}
    (h : f.Regular) (hr : Rewired f g p φ ys placed taken) (hplaced : ∀ x ∈ placed, f.IsNode x) :
    g.Regular := by
  refine ⟨fun {q c} hc => ?_, fun {q ψ c} hψ hc => ?_, fun q => ?_, fun {c q} hl => ?_⟩
  · rw [hr.isNode_iff]
    rcases hr.mem_children_of_mem hc with hc | ⟨-, hc⟩
    · exact h.isNode_of_mem hc
    · exact hplaced c hc
  · rw [hr.kind_eq] at hψ ⊢
    rw [hr.occupants_eq] at hc
    split at hc
    · next e =>
      obtain ⟨rfl, rfl⟩ := e
      exact (hr.mem_of_mem hc).elim (h.accepted hψ) (hr.fits c)
    · exact h.accepted hψ hc
  · show (g.record q).rest.OwnedBy q
    rw [hr.rest_eq]
    exact h.owned q
  · rw [hr.isNode_iff]
    rw [hr.link_eq] at hl
    split at hl
    · -- placed by this very move
      next hc =>
      obtain ⟨rfl, hnode⟩ := (h.owner_eq_some hr.declared).1 hl
      exact ⟨hr.placed_mem_children hc, hnode⟩
    · next hc =>
      split at hl
      · exact absurd hl (by simp)
      · next ht =>
        obtain ⟨hmem, hnode⟩ := h.holds_of_link hl
        refine ⟨(hr.mem_children_or_taken hmem).resolve_right ?_, hnode⟩
        -- taken out of the holder that it is linked to, it would have lost the link
        rintro ⟨rfl, hmem⟩
        exact ht ⟨hmem, hl.trans ((h.owner_eq_some hr.declared).2 ⟨rfl, hnode⟩).symm⟩

/-- The fields of `d` belong to nobody. -/
def Unowned (f : Forest) (d : NodeId) : Prop := ∀ φ ∈ (f.kind d).fields, f.owner d φ = none

/-- No rewiring gives a field to anybody. -/
theorem Unowned.rewired {d p : NodeId} {φ : Field} {ys placed taken : List NodeId}
    (h : f.Unowned d) (hr : Rewired f g p φ ys placed taken) : g.Unowned d := by
  intro ψ hψ
  rw [hr.kind_eq] at hψ
  rw [owner_eq_of_rest (hr.rest_eq d)]
  exact h ψ hψ

/-- A draft that has just come to the store. -/
theorem unowned_push_draft (f : Forest) (k : Head) : (f.push { head := k }).Unowned f.size := by
  intro φ _
  rw [owner, record_push, if_pos rfl]
  exact Owners.get_empty φ

/-! ## New records -/

/-- `g` is `f` with the new record `r`, and with what `r` holds linked to it. -/
structure Born (f g : Forest) (r : Record) : Prop where
  size_eq : g.size = f.size + 1
  record_new : g.record f.size = r
  record_old : ∀ j, j ≠ f.size →
    g.record j = if j ∈ r.children then (f.record j).withLink (some f.size) else f.record j

namespace Born

variable {r : Record}

/-- All that an old record can lose to a new one is its link. -/
theorem rest_old (h : Born f g r) {j : NodeId} (hj : j ≠ f.size) :
    (g.record j).rest = (f.record j).rest := by
  rw [h.record_old j hj]
  split <;> rfl

/-- Old records hold what they held. -/
theorem contents_old (h : Born f g r) {j : NodeId} (hj : j ≠ f.size) :
    (g.record j).contents = (f.record j).contents := by
  rw [h.record_old j hj]
  split <;> rfl

theorem kind_old (h : Born f g r) {j : NodeId} (hj : j ≠ f.size) : g.kind j = f.kind j :=
  kind_eq_of_rest (h.rest_old hj)

/-- Old drafts stay drafts, and old nodes stay nodes. -/
theorem isNode_old (h : Born f g r) {j : NodeId} (hj : j ≠ f.size) : g.IsNode j ↔ f.IsNode j :=
  isNode_iff_of_rest (h.rest_old hj)

theorem children_old (h : Born f g r) {j : NodeId} (hj : j ≠ f.size) :
    g.children j = f.children j :=
  children_congr (h.kind_old hj) fun φ => by rw [occupants, occupants, h.contents_old hj]

/-- The fields of the new record are those that it was made with. -/
theorem occupants_new (h : Born f g r) (φ : Field) :
    g.occupants f.size φ = r.contents.occupants φ := by
  rw [occupants, h.record_new]

theorem children_new (h : Born f g r) : g.children f.size = r.children := by
  rw [children, h.record_new]

/-- What the new record holds is linked to it, whatever it was linked to before. -/
theorem link_old (h : Born f g r) {j : NodeId} (hj : j ≠ f.size) :
    g.link j = if j ∈ r.children then some f.size else f.link j := by
  unfold link
  rw [h.record_old j hj]
  split <;> rfl

/-- Being a node, `j` is an old record. -/
theorem isNode_of_isNode (h : Born f g r) {j : NodeId} (hj : f.IsNode j) : g.IsNode j :=
  (h.isNode_old (Nat.ne_of_lt hj.lt_size)).2 hj

end Born

/-- Adding a record that holds nothing. -/
theorem born_push (f : Forest) {r : Record} (h : r.children = []) : Born f (f.push r) r where
  size_eq := size_push ..
  record_new := by rw [record_push, if_pos rfl]
  record_old j hj := by rw [record_push, if_neg hj, h]; rfl

/-- Adding a record and linking to it what it holds. -/
theorem born_linkAll (f : Forest) {r : Record} (h : f.size ∉ r.children)
    (hlt : ∀ c ∈ r.children, c < f.size) :
    Born f ((f.push r).linkAll r.children (some f.size)) r where
  size_eq := by simp
  record_new := by rw [record_linkAll, if_neg fun e => h e.1, record_push, if_pos rfl]
  record_old j hj := by
    rw [record_linkAll, record_push, if_neg hj, size_push]
    by_cases hc : j ∈ r.children
    · rw [if_pos ⟨hc, Nat.lt_succ_of_lt (hlt j hc)⟩, if_pos hc]
    · rw [if_neg fun e => hc e.1, if_neg hc]

/-- **A new record keeps a forest regular** if it is regular in itself: unlinked, with fields that
are its own, and with nodes of the right categories in them. A draft must be empty, as what a record
holds gets linked to it. -/
theorem Regular.born {r : Record} (h : f.Regular) (hb : Born f g r) (hlink : r.link = none)
    (howned : r.OwnedBy f.size)
    (hasm : r.assembled = true ∨ r.children = []) (hnode : ∀ c ∈ r.children, f.IsNode c)
    (hfit : ∀ φ ∈ r.kind.fields, ∀ c ∈ r.contents.occupants φ,
      φ.category.accepts (f.kind c) = true) : g.Regular := by
  refine ⟨fun {p c} hc => ?_, fun {p φ c} hφ hc => ?_, fun p => ?_, fun {c p} hl => ?_⟩
  · by_cases hp : p = f.size
    · rw [hp, hb.children_new] at hc
      exact hb.isNode_of_isNode (hnode c hc)
    · rw [hb.children_old hp] at hc
      exact hb.isNode_of_isNode (h.isNode_of_mem hc)
  · by_cases hp : p = f.size
    · subst hp
      rw [kind, hb.record_new] at hφ
      rw [hb.occupants_new] at hc
      have hmem : c ∈ r.children := List.mem_flatMap.2 ⟨φ, hφ, hc⟩
      rw [hb.kind_old (Nat.ne_of_lt (hnode c hmem).lt_size)]
      exact hfit φ hφ c hc
    · rw [hb.kind_old hp] at hφ
      rw [occupants, hb.contents_old hp] at hc
      have hmem : c ∈ f.children p := mem_children.2 ⟨φ, hφ, hc⟩
      rw [hb.kind_old (Nat.ne_of_lt (h.isNode_of_mem hmem).lt_size)]
      exact h.accepted hφ hc
  · by_cases hp : p = f.size
    · rw [hp, hb.record_new]
      exact howned
    · show (g.record p).rest.OwnedBy p
      rw [hb.rest_old hp]
      exact h.owned p
  · by_cases hc : c = f.size
    · rw [hc, link, hb.record_new, hlink] at hl
      exact absurd hl (by simp)
    · rw [hb.link_old hc] at hl
      split at hl
      · next hmem =>
        obtain rfl := Option.some.inj hl
        rw [hb.children_new, IsNode, hb.record_new]
        exact ⟨hmem, hasm.resolve_right fun e => by simp [e] at hmem⟩
      · obtain ⟨hmem, hp⟩ := h.holds_of_link hl
        rw [hb.children_old (Nat.ne_of_lt hp.lt_size)]
        exact ⟨hmem, hb.isNode_of_isNode hp⟩

/-- An empty node may come to a forest at any time. -/
theorem Regular.born_empty (h : f.Regular) (k : Kind) :
    (f.push (Record.empty k f.size)).Regular := by
  have hnil := Record.children_empty k f.size
  refine h.born (born_push f hnil) rfl (Record.ownedBy_empty k _) (.inl rfl) (by simp [hnil]) ?_
  exact fun φ _ c hc => absurd hc (by simp [Record.empty])

/-- A new body is born without a holder and then put in its place. -/
theorem body_rewired {p : NodeId} (hp : p < f.size) (hk : f.kind p = .macroStatement)
    (hnone : f.single p .block = none) :
    Rewired (f.push (Record.empty .block f.size)) (f.body p).2 p (.single .block)
      [f.size] [f.size] [] := by
  have hne : f.size ≠ p := (Nat.ne_of_lt hp).symm
  have hpush : ∀ r, p < (f.push r).size := by
    intro r
    rw [size_push]
    exact Nat.lt_succ_of_lt hp
  have hkp : (f.push (Record.empty .block f.size)).kind p = .macroStatement := by
    rw [kind, record_push, if_neg hne.symm]
    exact hk
  have howner : (f.push (Record.empty .block f.size)).owner p (.single .block) =
      f.owner p (.single .block) := by
    rw [owner, owner, record_push, if_neg hne.symm]
  unfold body
  rw [hnone]
  refine Rewired.note ?_ _
  refine ⟨by simp, fun j => ?_, fun j ψ => ?_, fun j => ?_, ?_, List.Subset.refl _, ?_, ?_⟩
  · rw [rest_writeSingle, record_push, record_push]
    split <;> rfl
  · rw [occupants_writeSingle _ _ _ _ (hpush _)]
    split
    · rfl
    · unfold occupants
      rw [record_push, record_push]
      split <;> rfl
  · rw [link_writeSingle, howner]
    unfold link
    rw [record_push, record_push]
    by_cases hj : j = f.size <;> simp [hj]
  · rw [hkp]
    decide
  · have : (f.push (Record.empty .block f.size)).occupants p (.single .block) = [] := by
      rw [occupants, record_push, if_neg hne.symm]
      exact congrArg Option.toList hnone
    rw [this]
    exact List.Perm.refl _
  · intro x hx
    rw [List.mem_singleton.1 hx, kind, record_push, if_pos rfl]
    rfl

/-- A body that is there already is only answered. -/
theorem body_of_some {p b : NodeId} (h : f.single p .block = some b) : f.body p = (b, f) := by
  unfold body
  rw [h]

/-- A body that is not there is a new node. -/
theorem body_of_none {p : NodeId} (h : f.single p .block = none) : (f.body p).1 = f.size := by
  unfold body
  rw [h]

/-! ## Assembly -/

section Assemble

variable (f : Forest) (d j : NodeId) (l : Location) (φ : Field)

/-- The draft becomes a node that owns its fields, and what it holds is linked to it. A draft that
held itself would do both. -/
theorem record_assemble :
    (f.assemble d l).record j =
      let r := if d = j ∧ j < f.size then
          { f.record j with
            owners := (f.record j).owners.adopt d (f.record j).kind.fields
            link := none
            assembled := true
            location := l }
        else f.record j
      if j ∈ f.children d ∧ j < f.size then r.withLink (some d) else r := by
  unfold assemble
  rw [record_linkAll, record_update, size_update]

/-- Assembly makes no new record: the draft becomes the node. -/
@[simp] theorem size_assemble : (f.assemble d l).size = f.size := by simp [assemble]

/-- A draft has the kind that the node will have. -/
@[simp] theorem kind_assemble : (f.assemble d l).kind j = f.kind j := by
  unfold kind
  rw [record_assemble]
  dsimp only
  split <;> split <;> rfl

/-- What a draft holds is what the node will hold. -/
@[simp] theorem occupants_assemble : (f.assemble d l).occupants j φ = f.occupants j φ := by
  unfold occupants
  rw [record_assemble]
  dsimp only
  split <;> split <;> rfl

@[simp] theorem children_assemble : (f.assemble d l).children j = f.children j :=
  children_congr (kind_assemble ..) fun _ => occupants_assemble ..

/-- The draft is the one record that becomes a node. -/
theorem isNode_assemble {f : Forest} {d j : NodeId} {l : Location} (hd : d < f.size) :
    (f.assemble d l).IsNode j ↔ f.IsNode j ∨ j = d := by
  unfold IsNode
  rw [record_assemble]
  by_cases h₁ : d = j
  · subst h₁
    by_cases h₂ : d ∈ f.children d <;> simp [hd, h₂]
  · by_cases h₂ : j ∈ f.children d ∧ j < f.size <;> simp [h₁, Ne.symm h₁, h₂]

/-- The links after assembly: what the draft holds is linked to it, and it is linked to nobody. -/
theorem link_assemble {f : Forest} {d j : NodeId} {l : Location} (hd : d < f.size)
    (hlt : ∀ c ∈ f.children d, c < f.size) :
    (f.assemble d l).link j =
      if j ∈ f.children d then some d else if j = d then none else f.link j := by
  unfold link
  rw [record_assemble]
  by_cases h₂ : j ∈ f.children d
  · simp [h₂, hlt j h₂]
  · by_cases h₁ : d = j
    · subst h₁
      simp [hd, h₂]
    · simp [h₁, Ne.symm h₁, h₂]

end Assemble

/-- Assembling a draft gives its fields their owner and leaves those of others as they were. -/
theorem ownedBy_assemble {d p : NodeId} {l : Location} (h : f.Regular) :
    ((f.assemble d l).record p).OwnedBy p := by
  rw [record_assemble]
  have hself : ∀ r : Record, r.OwnedBy p →
      (if p ∈ f.children d ∧ p < f.size then r.withLink (some d) else r).OwnedBy p := by
    intro r hr
    split
    · exact hr
    · exact hr
  refine hself _ ?_
  split
  · next hd =>
    rw [hd.1]
    exact Record.ownedBy_of_adopt rfl rfl
  · exact h.owned p

/-- **Assembly keeps a forest regular.** It makes links to the draft and to no other record, and the
draft is a node from then on. -/
theorem Regular.assemble {d : NodeId} {l : Location} (h : f.Regular) (hd : d < f.size) :
    (f.assemble d l).Regular := by
  refine ⟨fun {p c} hc => ?_, fun {p φ c} hφ hc => ?_, fun p => ownedBy_assemble h,
    fun {c p} hl => ?_⟩
  · rw [children_assemble] at hc
    exact (isNode_assemble hd).2 (.inl (h.isNode_of_mem hc))
  · rw [kind_assemble] at hφ ⊢
    rw [occupants_assemble] at hc
    exact h.accepted hφ hc
  · rw [link_assemble hd fun c hc => (h.isNode_of_mem hc).lt_size] at hl
    rw [children_assemble, isNode_assemble hd]
    split at hl
    · next hc =>
      obtain rfl := Option.some.inj hl
      exact ⟨hc, .inr rfl⟩
    · split at hl
      · exact absurd hl (by simp)
      · exact (h.holds_of_link hl).imp_right .inl

/-! ## Attributes -/

/-- `g` is `f` with other attributes: contents, links and kinds are the same. -/
structure Amended (f g : Forest) : Prop where
  size_eq : g.size = f.size
  contents_eq : ∀ j, (g.record j).contents = (f.record j).contents
  link_eq : ∀ j, g.link j = f.link j
  kind_eq : ∀ j, g.kind j = f.kind j
  assembled_eq : ∀ j, (g.record j).assembled = (f.record j).assembled
  owners_eq : ∀ j, (g.record j).owners = (f.record j).owners

namespace Amended

theorem refl (f : Forest) : Amended f f :=
  ⟨rfl, fun _ => rfl, fun _ => rfl, fun _ => rfl, fun _ => rfl, fun _ => rfl⟩

theorem trans {h : Forest} (h₁ : Amended f g) (h₂ : Amended g h) : Amended f h where
  size_eq := h₂.size_eq.trans h₁.size_eq
  contents_eq j := (h₂.contents_eq j).trans (h₁.contents_eq j)
  link_eq j := (h₂.link_eq j).trans (h₁.link_eq j)
  kind_eq j := (h₂.kind_eq j).trans (h₁.kind_eq j)
  assembled_eq j := (h₂.assembled_eq j).trans (h₁.assembled_eq j)
  owners_eq j := (h₂.owners_eq j).trans (h₁.owners_eq j)

/-- Forests with the same records differ in their journals at most. -/
theorem of_records (h : g.records = f.records) : Amended f g := by
  have hrecord : ∀ j, g.record j = f.record j := fun j => by rw [record, record, h]
  refine ⟨by rw [size, size, h], fun j => by rw [hrecord], fun j => ?_, fun j => ?_,
    fun j => by rw [hrecord], fun j => by rw [hrecord]⟩
  · rw [link, link, hrecord]
  · rw [kind, kind, hrecord]

/-- Amending one record, by whatever leaves alone what it holds and who it is. -/
theorem update {i : NodeId} {u : Record → Record}
    (hc : (u (f.record i)).contents = (f.record i).contents)
    (hl : (u (f.record i)).link = (f.record i).link)
    (hk : (u (f.record i)).kind = (f.record i).kind)
    (ha : (u (f.record i)).assembled = (f.record i).assembled)
    (ho : (u (f.record i)).owners = (f.record i).owners) : Amended f (f.update i u) := by
  have hrecord : ∀ j, (f.update i u).record j = f.record j ∨
      j = i ∧ (f.update i u).record j = u (f.record i) := by
    intro j
    rw [record_update]
    split
    · next h => exact .inr ⟨h.1.symm, by rw [h.1]⟩
    · exact .inl rfl
  refine ⟨size_update .., fun j => ?_, fun j => ?_, fun j => ?_, fun j => ?_, fun j => ?_⟩ <;>
    rcases hrecord j with h | ⟨rfl, h⟩ <;> simp_all [link, kind]

theorem occupants_eq (h : Amended f g) (j : NodeId) (φ : Field) :
    g.occupants j φ = f.occupants j φ := by
  rw [occupants, occupants, h.contents_eq]

/-- Attributes have no say in what a node holds. -/
theorem children_eq (h : Amended f g) (j : NodeId) : g.children j = f.children j :=
  children_congr (h.kind_eq j) (h.occupants_eq j)

/-- No draft is assembled by an amendment. -/
theorem isNode_iff (h : Amended f g) {j : NodeId} : g.IsNode j ↔ f.IsNode j := by
  rw [IsNode, IsNode, h.assembled_eq]

/-- Nobody comes to own a field by an amendment. -/
theorem unowned (ha : Amended f g) {d : NodeId} (h : f.Unowned d) : g.Unowned d := by
  intro φ hφ
  rw [ha.kind_eq] at hφ
  rw [owner, ha.owners_eq]
  exact h φ hφ

end Amended

/-- **Amending attributes keeps a forest regular**: it is not about them. -/
theorem Regular.amended (h : f.Regular) (ha : Amended f g) : g.Regular := by
  refine ⟨fun {p c} hc => ?_, fun {p φ c} hφ hc => ?_, fun p φ hφ => ?_, fun {c p} hl => ?_⟩
  · rw [ha.children_eq] at hc
    exact ha.isNode_iff.2 (h.isNode_of_mem hc)
  · rw [ha.kind_eq] at hφ ⊢
    rw [ha.occupants_eq] at hc
    exact h.accepted hφ hc
  · rw [show (g.record p).kind = (f.record p).kind from ha.kind_eq p] at hφ
    rw [ha.owners_eq, ha.assembled_eq]
    exact h.owned p φ hφ
  · rw [ha.link_eq] at hl
    rw [ha.children_eq, ha.isNode_iff]
    exact h.holds_of_link hl

/-- Wiping stores is an amendment of every node that is wiped. -/
theorem Amended.of_wiped {ns : List NodeId} (h : Wiped f g ns) : Amended f g := by
  refine ⟨h.size_eq, fun j => ?_, fun j => ?_, fun j => ?_, fun j => ?_, fun j => ?_⟩ <;>
    simp only [link, kind, h.record_eq] <;> split <;> rfl

/-- However far down the stores are cleared, nothing but attributes changes. -/
theorem clearWithin_amended (depth : Nat) (f : Forest) (n : NodeId) :
    Amended f (clearWithin depth f n) :=
  .of_wiped (clearWithin_wiped depth f n)

/-! ## Growing forests -/

/-- `g` has all records of `f`, with other links perhaps, and possibly more. -/
structure Grows (f g : Forest) : Prop where
  size_le : f.size ≤ g.size
  record_eq : ∀ j < f.size, (g.record j).withLink none = (f.record j).withLink none

namespace Grows

theorem refl (f : Forest) : Grows f f := ⟨Nat.le_refl _, fun _ _ => rfl⟩

theorem trans {h : Forest} (h₁ : Grows f g) (h₂ : Grows g h) : Grows f h where
  size_le := Nat.le_trans h₁.size_le h₂.size_le
  record_eq j hj := (h₂.record_eq j (Nat.lt_of_lt_of_le hj h₁.size_le)).trans (h₁.record_eq j hj)

/-- Nothing happens to old records at all. -/
theorem of_eq (hsize : f.size ≤ g.size) (h : ∀ j < f.size, g.record j = f.record j) :
    Grows f g :=
  ⟨hsize, fun j hj => by rw [h j hj]⟩

/-- A new record may take the links of old ones, and takes nothing else. -/
theorem of_born {r : Record} (h : Born f g r) : Grows f g where
  size_le := by rw [h.size_eq]; exact Nat.le_succ _
  record_eq j hj := by
    rw [h.record_old j (Nat.ne_of_lt hj)]
    split <;> rfl

/-- Whatever happens to the fields of records that came later. -/
theorem rewired {h : Forest} {p : NodeId} {φ : Field} {ys placed taken : List NodeId}
    (hg : Grows f g) (hr : Rewired g h p φ ys placed taken) (hp : f.size ≤ p) : Grows f h where
  size_le := by rw [hr.size_eq]; exact hg.size_le
  record_eq j hj :=
    (hr.record_of_ne (Nat.ne_of_lt (Nat.lt_of_lt_of_le hj hp))).trans (hg.record_eq j hj)

/-- Assembling a draft that came later may take the links of old records. -/
theorem assemble (h : Grows f g) {d : NodeId} {l : Location} (hd : f.size ≤ d) :
    Grows f (g.assemble d l) where
  size_le := by rw [size_assemble]; exact h.size_le
  record_eq j hj := by
    have hne : d ≠ j := (Nat.ne_of_lt (Nat.lt_of_lt_of_le hj hd)).symm
    rw [← h.record_eq j hj, record_assemble]
    simp only [hne, false_and, if_false]
    split <;> rfl

theorem note (h : Grows f g) (e : Event) : Grows f (g.note e) := ⟨h.size_le, h.record_eq⟩

/-- Old records hold what they held. -/
theorem contents_eq (h : Grows f g) {j : NodeId} (hj : j < f.size) :
    (g.record j).contents = (f.record j).contents := by
  have := congrArg Record.contents (h.record_eq j hj)
  exact this

theorem kind_eq (h : Grows f g) {j : NodeId} (hj : j < f.size) : g.kind j = f.kind j := by
  have := congrArg Record.kind (h.record_eq j hj)
  exact this

/-- Old nodes are nodes still. -/
theorem isNode (h : Grows f g) {j : NodeId} (hj : f.IsNode j) : g.IsNode j := by
  have := congrArg Record.assembled (h.record_eq j hj.lt_size)
  exact Eq.trans this hj

theorem occupants_eq (h : Grows f g) {j : NodeId} (hj : j < f.size) (φ : Field) :
    g.occupants j φ = f.occupants j φ := by
  rw [occupants, occupants, h.contents_eq hj]

/-- What an old node holds was there before. -/
theorem children_eq (h : Grows f g) {j : NodeId} (hj : j < f.size) :
    g.children j = f.children j :=
  children_congr (h.kind_eq hj) (h.occupants_eq hj)

/-- What was live is live still. -/
theorem live (h : Grows f g) {roots : List NodeId} {n : NodeId} (hn : Live f roots n) :
    Live g roots n := by
  induction hn with
  | root hr hlt => exact .root hr (Nat.lt_of_lt_of_le hlt h.size_le)
  | held hp hc hlt ih =>
    exact .held ih (by rwa [h.children_eq hp.lt_size]) (Nat.lt_of_lt_of_le hlt h.size_le)

/-- Below an old node there are old nodes only. -/
theorem below (h : Grows f g) (hclosed : f.Closed) {n m : NodeId} (hn : n < f.size)
    (hb : g.Below n m) : f.Below n m := by
  induction hb with
  | root hr _ => exact .root hr (List.mem_singleton.1 hr ▸ hn)
  | held _ hc _ ih =>
    rw [h.children_eq ih.lt_size] at hc
    exact .held ih hc (hclosed _ _ hc)

/-- The tree of an old node has as many levels as before, having no new node in it. -/
theorem fitsWithin (h : Grows f g) (hclosed : f.Closed) : ∀ {depth : Nat} {n : NodeId},
    n < f.size → f.FitsWithin depth n → g.FitsWithin depth n := by
  intro depth
  induction depth with
  | zero => intro n _ hn; exact hn
  | succ depth ih =>
    intro n hlt hn c hc
    rw [h.children_eq hlt] at hc
    exact ih (hclosed n c hc) (hn c hc)

end Grows

/-! ## Nothing is lost -/

/-- Records stay in the store, nodes stay nodes and kinds stay what they are. -/
structure Extends (f g : Forest) : Prop where
  size_le : f.size ≤ g.size
  isNode : ∀ {j}, f.IsNode j → g.IsNode j
  kind_eq : ∀ {j}, j < f.size → g.kind j = f.kind j

namespace Extends

theorem refl (f : Forest) : Extends f f := ⟨Nat.le_refl _, id, fun _ => rfl⟩

theorem trans {h : Forest} (h₁ : Extends f g) (h₂ : Extends g h) : Extends f h where
  size_le := Nat.le_trans h₁.size_le h₂.size_le
  isNode hj := h₂.isNode (h₁.isNode hj)
  kind_eq hj := (h₂.kind_eq (Nat.lt_of_lt_of_le hj h₁.size_le)).trans (h₁.kind_eq hj)

/-- Rewiring moves nodes about, and the nodes themselves remain. -/
theorem of_rewired {p : NodeId} {φ : Field} {ys placed taken : List NodeId}
    (h : Rewired f g p φ ys placed taken) : Extends f g where
  size_le := Nat.le_of_eq h.size_eq.symm
  isNode := h.isNode_iff.2
  kind_eq _ := h.kind_eq _

/-- Amending attributes makes nobody another kind of node. -/
theorem of_amended (h : Amended f g) : Extends f g where
  size_le := Nat.le_of_eq h.size_eq.symm
  isNode := h.isNode_iff.2
  kind_eq _ := h.kind_eq _

/-- What works on later records keeps even more of the old ones. -/
theorem of_grows (h : Grows f g) : Extends f g where
  size_le := h.size_le
  isNode := h.isNode
  kind_eq := h.kind_eq

/-- The draft that is assembled keeps its kind. -/
theorem assemble {d : NodeId} {l : Location} (hd : d < f.size) : Extends f (f.assemble d l) where
  size_le := Nat.le_of_eq (size_assemble ..).symm
  isNode hj := (isNode_assemble hd).2 (.inl hj)
  kind_eq _ := kind_assemble ..

/-- Nothing gets out of the store. -/
theorem lt_size (h : Extends f g) {j : NodeId} (hj : j < f.size) : j < g.size :=
  Nat.lt_of_lt_of_le hj h.size_le

end Extends

end Forest

end SyntaxForest
