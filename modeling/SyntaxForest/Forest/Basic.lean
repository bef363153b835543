import SyntaxForest.Annotations
import SyntaxForest.Contents
import SyntaxForest.Error
import SyntaxForest.Event
import SyntaxForest.Owners

/-!
# Forests

A forest is a store of node records. The place of a record is the identity of its node;
records are added at the end and never taken away, so an identity stays good for ever. A
record says what the node is (`head`), which nodes it holds (`contents`) and which node it
believes to be held by (`link`). Nothing in the store forces the last two to agree: that
they do is the business of the operations, and of the statements proved about them.

A record is either *assembled*, and then a node in its own right, or a *draft*: contents
that are being filled before there is a node. A node held by a draft has no link, since there
is no node yet that it could lead to. Every field keeps its owner, the node that it belongs to,
and gives it as a link to the nodes placed into it. While a record is a draft its fields have no
owner; assembling it makes it the owner of them all.

Besides the records, a forest has a journal of events. No operation reads it.

Everything is total: an identity outside the store reads as an empty draft.
-/

namespace SyntaxForest

/-- All there is to know about one node. -/
structure Record where
  head : Head
  contents : Contents := {}
  owners : Owners := {}
  link : Option NodeId := none
  assembled : Bool := false
  location : Location := {}
  endPosition : Option Position := none
  documentation : Option String := none
  annotations : Option Annotations := none
deriving Inhabited, DecidableEq

namespace Record

/-- The kind of the node. -/
def kind (r : Record) : Kind := r.head.kind

/-- The nodes held, field by field, sequences in place. -/
def children (r : Record) : List NodeId :=
  r.kind.fields.flatMap r.contents.occupants

/-- The record of an empty node of the given kind, for the identity `n`. -/
def empty (k : Kind) (n : NodeId) : Record :=
  { head := .ofKind k, owners := Owners.adopt {} n k.fields, assembled := true }

/-- The record with another link. -/
def withLink (r : Record) (l : Option NodeId) : Record := { r with link := l }

/-- The record with other contents. -/
def withContents (r : Record) (c : Contents) : Record := { r with contents := c }

@[simp] theorem children_empty (k : Kind) (n : NodeId) : (empty k n).children = [] := by
  simp [children, empty]

@[simp] theorem children_draft (h : Head) : ({ head := h } : Record).children = [] := by
  simp [children]

@[simp] theorem link_withLink (r : Record) (l : Option NodeId) : (r.withLink l).link = l := rfl

@[simp] theorem head_withLink (r : Record) (l : Option NodeId) :
    (r.withLink l).head = r.head := rfl

@[simp] theorem kind_withLink (r : Record) (l : Option NodeId) :
    (r.withLink l).kind = r.kind := rfl

@[simp] theorem contents_withLink (r : Record) (l : Option NodeId) :
    (r.withLink l).contents = r.contents := rfl

@[simp] theorem children_withLink (r : Record) (l : Option NodeId) :
    (r.withLink l).children = r.children := rfl

@[simp] theorem assembled_withLink (r : Record) (l : Option NodeId) :
    (r.withLink l).assembled = r.assembled := rfl

@[simp] theorem withLink_withLink (r : Record) (l m : Option NodeId) :
    (r.withLink l).withLink m = r.withLink m := rfl

@[simp] theorem link_withContents (r : Record) (c : Contents) :
    (r.withContents c).link = r.link := rfl

@[simp] theorem head_withContents (r : Record) (c : Contents) :
    (r.withContents c).head = r.head := rfl

@[simp] theorem kind_withContents (r : Record) (c : Contents) :
    (r.withContents c).kind = r.kind := rfl

@[simp] theorem contents_withContents (r : Record) (c : Contents) :
    (r.withContents c).contents = c := rfl

@[simp] theorem assembled_withContents (r : Record) (c : Contents) :
    (r.withContents c).assembled = r.assembled := rfl

end Record

/-- A store of node records and the journal of what happened to them. -/
structure Forest where
  records : Array Record := #[]
  journal : Array Event := #[]
deriving Inhabited

namespace Forest

/-! ## The store -/

/-- The number of records, which is also the next identity to be given out. -/
def size (f : Forest) : Nat := f.records.size

/-- The record of a node. -/
def record (f : Forest) (i : NodeId) : Record := f.records.getD i default

/-- The forest with one record changed. -/
def update (f : Forest) (i : NodeId) (g : Record → Record) : Forest :=
  { f with records := f.records.modify i g }

/-- The forest with one more record; its identity is the old `size`. -/
def push (f : Forest) (r : Record) : Forest :=
  { f with records := f.records.push r }

/-- The forest with one more event in its journal. -/
def note (f : Forest) (e : Event) : Forest :=
  { f with journal := f.journal.push e }

@[simp] theorem size_update (f : Forest) (i : NodeId) (g : Record → Record) :
    (f.update i g).size = f.size := by
  simp [size, update]

@[simp] theorem size_push (f : Forest) (r : Record) : (f.push r).size = f.size + 1 := by
  simp [size, push]

@[simp] theorem size_note (f : Forest) (e : Event) : (f.note e).size = f.size := rfl

@[simp] theorem record_note (f : Forest) (e : Event) (i : NodeId) :
    (f.note e).record i = f.record i := rfl

/-- A forest is known from its records and its journal. -/
theorem ext_record {f g : Forest} (hsize : g.size = f.size)
    (hrecord : ∀ j, g.record j = f.record j) (hjournal : g.journal = f.journal) : g = f := by
  have hrecords : g.records = f.records := by
    refine Array.ext hsize fun i hg hf => ?_
    have hi := hrecord i
    rw [record, record, Array.getD, Array.getD, dif_pos hg, dif_pos hf] at hi
    exact hi
  cases f
  cases g
  cases hrecords
  cases hjournal
  rfl

/-- Outside the store there are only empty drafts. -/
theorem record_of_size_le {f : Forest} {i : NodeId} (h : f.size ≤ i) :
    f.record i = default := by
  simp only [record, size] at *
  simp [Array.getD, Nat.not_lt.2 h]

theorem exists_size_eq_succ {f : Forest} {i : NodeId} (h : i < f.size) :
    ∃ depth, f.size = depth + 1 :=
  Nat.exists_eq_succ_of_ne_zero (Nat.ne_of_gt (Nat.zero_lt_of_lt h))

/-- Reading after an update: the one record is changed, the others are as before. -/
theorem record_update (f : Forest) (i j : NodeId) (g : Record → Record) :
    (f.update i g).record j = if i = j ∧ j < f.size then g (f.record j) else f.record j := by
  simp only [record, update, size, Array.getD_eq_getD_getElem?, Array.getElem?_modify]
  by_cases h : i = j
  · subst h
    by_cases hi : i < f.records.size <;> simp [hi]
  · simp [h]

theorem record_update_self {f : Forest} {i : NodeId} (h : i < f.size) (g : Record → Record) :
    (f.update i g).record i = g (f.record i) := by
  simp [record_update, h]

theorem record_update_of_ne (f : Forest) {i j : NodeId} (h : i ≠ j) (g : Record → Record) :
    (f.update i g).record j = f.record j := by
  simp [record_update, h]

/-- Reading after an addition: the new identity has the new record. -/
theorem record_push (f : Forest) (r : Record) (i : NodeId) :
    (f.push r).record i = if i = f.size then r else f.record i := by
  simp only [record, push, size, Array.getD_eq_getD_getElem?, Array.getElem?_push]
  split <;> rfl

theorem record_push_of_lt {f : Forest} {i : NodeId} (h : i < f.size) (r : Record) :
    (f.push r).record i = f.record i := by
  rw [record_push, if_neg (Nat.ne_of_lt h)]

@[simp] theorem journal_update (f : Forest) (i : NodeId) (g : Record → Record) :
    (f.update i g).journal = f.journal := rfl

@[simp] theorem journal_push (f : Forest) (r : Record) : (f.push r).journal = f.journal := rfl

@[simp] theorem journal_note (f : Forest) (e : Event) :
    (f.note e).journal = f.journal.push e := rfl

/-! ## Reading a node -/

/-- The kind of a node. -/
def kind (f : Forest) (i : NodeId) : Kind := (f.record i).kind

/-- The nodes that a node holds, in order. -/
def children (f : Forest) (i : NodeId) : List NodeId := (f.record i).children

theorem children_of_size_le {f : Forest} {p : NodeId} (h : f.size ≤ p) : f.children p = [] := by
  rw [children, record_of_size_le h]
  rfl

theorem lt_size_of_mem_children {f : Forest} {p c : NodeId} (h : c ∈ f.children p) :
    p < f.size := by
  apply Decidable.byContradiction
  intro hp
  rw [children_of_size_le (Nat.le_of_not_lt hp)] at h
  exact absurd h List.not_mem_nil

/-- The node that a node believes to be held by. -/
def link (f : Forest) (i : NodeId) : Option NodeId := (f.record i).link

/-- The occupant of a single field. -/
def single (f : Forest) (i : NodeId) (s : SingleField) : Option NodeId :=
  (f.record i).contents.single s

/-- The elements of a sequence field. -/
def sequence (f : Forest) (i : NodeId) (s : SequenceField) : List NodeId :=
  (f.record i).contents.sequence s

/-- The node that a field belongs to, which is the link that it gives to what is placed into
it. -/
def owner (f : Forest) (i : NodeId) (φ : Field) : Option NodeId :=
  (f.record i).owners.get φ

/-- The node viewed as one of kind `k`. -/
def expectKind (f : Forest) (i : NodeId) (k : Kind) : Except Error Unit :=
  if f.kind i = k then .ok () else .error (.unexpectedKind k (f.kind i))

/-! ## Links and contents -/

/-- The forest in which `i` believes to be held by `l`. -/
def setLink (f : Forest) (i : NodeId) (l : Option NodeId) : Forest :=
  f.update i (·.withLink l)

/-- The forest in which `i` no longer believes to be held by `l`. A node that has been
linked elsewhere meanwhile keeps that link. -/
def unlink (f : Forest) (i : NodeId) (l : Option NodeId) : Forest :=
  if f.link i = l then f.setLink i none else f

/-- Links every node of a list. -/
def linkAll (f : Forest) (xs : List NodeId) (l : Option NodeId) : Forest :=
  xs.foldl (fun g x => g.setLink x l) f

/-- Unlinks every node of a list. -/
def unlinkAll (f : Forest) (xs : List NodeId) (l : Option NodeId) : Forest :=
  xs.foldl (fun g x => g.unlink x l) f

/-- Writes a single field, without regard to links. -/
def writeSingle (f : Forest) (p : NodeId) (s : SingleField) (x : Option NodeId) : Forest :=
  f.update p fun r => r.withContents (r.contents.setSingle s x)

/-- Writes a sequence field, without regard to links. -/
def writeSequence (f : Forest) (p : NodeId) (s : SequenceField) (xs : List NodeId) : Forest :=
  f.update p fun r => r.withContents (r.contents.setSequence s xs)

/-! ### What they change -/

@[simp] theorem size_setLink (f : Forest) (i : NodeId) (l : Option NodeId) :
    (f.setLink i l).size = f.size :=
  size_update ..

@[simp] theorem size_unlink (f : Forest) (i : NodeId) (l : Option NodeId) :
    (f.unlink i l).size = f.size := by
  unfold unlink
  split
  · exact size_setLink ..
  · rfl

@[simp] theorem size_linkAll (f : Forest) (xs : List NodeId) (l : Option NodeId) :
    (f.linkAll xs l).size = f.size := by
  induction xs generalizing f with
  | nil => rfl
  | cons x xs ih => exact (ih (f.setLink x l)).trans (size_setLink ..)

@[simp] theorem size_unlinkAll (f : Forest) (xs : List NodeId) (l : Option NodeId) :
    (f.unlinkAll xs l).size = f.size := by
  induction xs generalizing f with
  | nil => rfl
  | cons x xs ih => exact (ih (f.unlink x l)).trans (size_unlink ..)

@[simp] theorem size_writeSingle (f : Forest) (p : NodeId) (s : SingleField)
    (x : Option NodeId) : (f.writeSingle p s x).size = f.size :=
  size_update ..

@[simp] theorem size_writeSequence (f : Forest) (p : NodeId) (s : SequenceField)
    (xs : List NodeId) : (f.writeSequence p s xs).size = f.size :=
  size_update ..

@[simp] theorem journal_setLink (f : Forest) (i : NodeId) (l : Option NodeId) :
    (f.setLink i l).journal = f.journal := rfl

@[simp] theorem journal_unlink (f : Forest) (i : NodeId) (l : Option NodeId) :
    (f.unlink i l).journal = f.journal := by
  unfold unlink
  split <;> rfl

@[simp] theorem journal_linkAll (f : Forest) (xs : List NodeId) (l : Option NodeId) :
    (f.linkAll xs l).journal = f.journal := by
  induction xs generalizing f with
  | nil => rfl
  | cons x xs ih => exact ih (f.setLink x l)

@[simp] theorem journal_unlinkAll (f : Forest) (xs : List NodeId) (l : Option NodeId) :
    (f.unlinkAll xs l).journal = f.journal := by
  induction xs generalizing f with
  | nil => rfl
  | cons x xs ih => exact (ih (f.unlink x l)).trans (journal_unlink ..)

@[simp] theorem journal_writeSingle (f : Forest) (p : NodeId) (s : SingleField)
    (x : Option NodeId) : (f.writeSingle p s x).journal = f.journal := rfl

@[simp] theorem journal_writeSequence (f : Forest) (p : NodeId) (s : SequenceField)
    (xs : List NodeId) : (f.writeSequence p s xs).journal = f.journal := rfl

/-- Linking a node changes the link of that node, and nothing else. -/
theorem record_setLink (f : Forest) (i j : NodeId) (l : Option NodeId) :
    (f.setLink i l).record j =
      if i = j ∧ j < f.size then (f.record j).withLink l else f.record j :=
  record_update ..

/-- Unlinking a node takes away a link to the given holder, and nothing else. -/
theorem record_unlink (f : Forest) (i j : NodeId) (l : Option NodeId) :
    (f.unlink i l).record j =
      if i = j ∧ f.link j = l then (f.record j).withLink none else f.record j := by
  unfold unlink
  by_cases hij : i = j
  · subst hij
    by_cases hl : f.link i = l
    · rw [if_pos hl, record_setLink]
      by_cases hi : i < f.size
      · simp [hi, hl]
      · -- outside the store the link is missing anyway
        rw [record_of_size_le (Nat.le_of_not_lt hi)]
        split <;> split <;> rfl
    · simp [hl]
  · by_cases hl : f.link i = l
    · simp [hl, hij, record_setLink]
    · simp [hl, hij]

/-- Linking the nodes of a list changes their links, and nothing else. -/
theorem record_linkAll (f : Forest) (xs : List NodeId) (j : NodeId) (l : Option NodeId) :
    (f.linkAll xs l).record j =
      if j ∈ xs ∧ j < f.size then (f.record j).withLink l else f.record j := by
  induction xs generalizing f with
  | nil => simp [linkAll]
  | cons x xs ih =>
    have hstep : f.linkAll (x :: xs) l = (f.setLink x l).linkAll xs l := rfl
    rw [hstep, ih, record_setLink, size_setLink]
    by_cases hx : x = j
    · subst hx
      by_cases hj : x < f.size <;> simp [hj]
    · simp [hx, Ne.symm hx]

/-- Unlinking the nodes of a list takes away their links to the given holder, and nothing
else. -/
theorem record_unlinkAll (f : Forest) (xs : List NodeId) (j : NodeId) (l : Option NodeId) :
    (f.unlinkAll xs l).record j =
      if j ∈ xs ∧ f.link j = l then (f.record j).withLink none else f.record j := by
  induction xs generalizing f with
  | nil => simp [unlinkAll]
  | cons x xs ih =>
    have hstep : f.unlinkAll (x :: xs) l = (f.unlink x l).unlinkAll xs l := rfl
    rw [hstep, ih]
    unfold link
    rw [record_unlink]
    unfold link
    by_cases hx : x = j
    · subst hx
      by_cases hl : (f.record x).link = l <;> simp [hl]
    · simp [hx, Ne.symm hx]

/-- Writing a single field changes the contents of the holder, and nothing else. -/
theorem record_writeSingle (f : Forest) (p j : NodeId) (s : SingleField) (x : Option NodeId) :
    (f.writeSingle p s x).record j =
      if p = j ∧ j < f.size then
        (f.record j).withContents ((f.record j).contents.setSingle s x)
      else f.record j :=
  record_update ..

/-- Writing a sequence field changes the contents of the holder, and nothing else. -/
theorem record_writeSequence (f : Forest) (p j : NodeId) (s : SequenceField)
    (xs : List NodeId) :
    (f.writeSequence p s xs).record j =
      if p = j ∧ j < f.size then
        (f.record j).withContents ((f.record j).contents.setSequence s xs)
      else f.record j :=
  record_update ..

/-! ## What a field asks for -/

/-- The field has to be one that the holder declares. -/
def requireField (f : Forest) (p : NodeId) (field : Field) : Except Error Unit :=
  if (f.kind p).declares field then .ok () else .error (.unknownField (f.kind p) field)

/-- The node has to be of the field's category. -/
def requireFit (f : Forest) (p : NodeId) (field : Field) (x : NodeId) : Except Error Unit :=
  if field.category.accepts (f.kind x) then .ok ()
  else .error (.incompatibleNode (f.kind p) field (f.kind x))

/-- All nodes have to be of the field's category; the first that is not is named. -/
def requireFits (f : Forest) (p : NodeId) (field : Field) : List NodeId → Except Error Unit
  | [] => .ok ()
  | x :: xs => do
    f.requireFit p field x
    f.requireFits p field xs

end Forest

end SyntaxForest
