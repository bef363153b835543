import SyntaxForest.Proofs.Atomicity
import SyntaxForest.Session.Perform

/-!
# Sequences are plain lists

A user sees a sequence field through its elements, through what can be asked about them and
through what the operations answer. `Observation` puts all of this together. The second side is
a list of nodes that knows nothing of links, owners and forests: `SequenceEdit.outcome` says what
an operation answers on it, and `SequenceEdit.replay` what the list becomes.

That the two agree for one operation (`Mutation.leaves_edit`) is not the same for each of them. Appending
many nodes goes through them one by one and looks at each a second time, and resetting clears the
field first; both can fail in the middle only if a kind could change on the way, and none does.
Removing and substituting look for a place and then work on that place, which comes to the same as
dealing with the first occurrence.

Main statement: `Forest.observations_eq`. A run of operations, refused ones among them, shows the
same as the run on the list, after every single one.
-/

namespace SyntaxForest

/-! ## A plain list -/

namespace SequenceEdit

variable (holder : Kind) (s : SequenceField) (kind : NodeId → Kind)

/-- The nodes that the operation is to place. There is nothing to do in the place of a node that
is not there. -/
def toPlace (l : List NodeId) : SequenceEdit NodeId → List NodeId
  | append x | insertAt _ x => [x]
  | extend xs | reset xs => xs
  | substitute x y => if x ∈ l then [y] else []
  | clear | remove _ | removeAt _ => []

/-- The first of the given nodes that is not of the category is to blame. -/
def misfit? (xs : List NodeId) : Option Error :=
  (xs.find? fun x => !s.category.accepts (kind x)).map fun x =>
    .incompatibleNode holder (.sequence s) (kind x)

/-- What the operation answers on a plain list once there is nothing wrong with the nodes. -/
def answer (l : List NodeId) : SequenceEdit NodeId → Except Error SequenceAnswer
  | append _ | extend _ | reset _ | clear => .ok .done
  | insertAt i _ =>
    if l.length < i then .error (.indexOutOfBounds holder s i l.length) else .ok .done
  | remove x | substitute x _ => .ok (.found (decide (x ∈ l)))
  | removeAt i =>
    match l[i]? with
    | some x => .ok (.removed x)
    | none => .error (.indexOutOfBounds holder s i l.length)

/-- What the operation answers on a plain list. Nodes that do not fit are refused before an index
is looked at. -/
def outcome (l : List NodeId) (e : SequenceEdit NodeId) : Except Error SequenceAnswer :=
  match misfit? holder s kind (e.toPlace l) with
  | some err => .error err
  | none => e.answer holder s l

/-- The list after the operation: a refused one leaves it as it is. -/
def listAfter (l : List NodeId) (e : SequenceEdit NodeId) : List NodeId :=
  match e.outcome holder s kind l with
  | .ok _ => e.replay l
  | .error _ => l

end SequenceEdit

/-- All that is to be seen of a sequence after an operation on it. -/
structure Observation where
  outcome : Except Error SequenceAnswer
  elements : List NodeId
  length : Nat
  isEmpty : Bool
  pick : Element → Option NodeId
  position? : NodeId → Option Nat
  contains : NodeId → Bool

/-- What is to be seen of a plain list. -/
def Observation.ofList (outcome : Except Error SequenceAnswer) (l : List NodeId) : Observation where
  outcome := outcome
  elements := l
  length := l.length
  isEmpty := l.isEmpty
  pick
    | .first => l[0]?
    | .last => l[l.length - 1]?
    | .nth i => l[i]?
  position? x := if x ∈ l then some (l.takeWhile (· ≠ x)).length else none
  contains x := decide (x ∈ l)

/-- Operations on a plain list, one after the other, with what is to be seen after each. -/
def SequenceEdit.observations (holder : Kind) (s : SequenceField) (kind : NodeId → Kind) :
    List NodeId → List (SequenceEdit NodeId) → List Observation
  | _, [] => []
  | l, e :: es =>
    .ofList (e.outcome holder s kind l) (e.listAfter holder s kind l) ::
      observations holder s kind (e.listAfter holder s kind l) es

namespace Forest

/-- What is to be seen of a sequence of `p`. -/
def observe (f : Forest) (p : NodeId) (s : SequenceField)
    (outcome : Except Error SequenceAnswer) : Observation where
  outcome := outcome
  elements := f.sequence p s
  length := (f.sequence p s).length
  isEmpty := (f.sequence p s).length == 0
  pick := Act.pick (f.sequence p s)
  position? := f.position? p s
  contains x := (f.position? p s x).isSome

/-- Operations on a sequence of `p`, one after the other, with what is to be seen after each. -/
def observations (f : Forest) (p : NodeId) (s : SequenceField) :
    List (SequenceEdit NodeId) → List Observation
  | [] => []
  | e :: es =>
    let (outcome, g) := (Mutation.edit p s e).perform f
    g.observe p s outcome :: g.observations p s es

variable {f : Forest} {p x y : NodeId} {s : SequenceField} {i : Nat}

/-! ## Questions -/

/-- The place of a node is the number of elements before its first occurrence. -/
theorem position?_eq (f : Forest) (p : NodeId) (s : SequenceField) (x : NodeId) :
    f.position? p s x =
      if x ∈ f.sequence p s then some ((f.sequence p s).takeWhile (· ≠ x)).length else none := by
  unfold position?
  generalize f.sequence p s = l
  induction l with
  | nil => rfl
  | cons y l ih =>
    by_cases hy : y = x
    · simp [List.idxOf?, List.findIdx?_cons, hy]
    · have hx : x ≠ y := fun h => hy h.symm
      rw [List.idxOf?_cons, ih]
      by_cases hmem : x ∈ l <;> simp [hy, hx, hmem]

/-- What is to be seen of a sequence is to be seen of the list of its elements. -/
theorem observe_eq_ofList (f : Forest) (p : NodeId) (s : SequenceField)
    (outcome : Except Error SequenceAnswer) :
    f.observe p s outcome = .ofList outcome (f.sequence p s) := by
  have hpick : Act.pick (f.sequence p s) = (Observation.ofList outcome (f.sequence p s)).pick := by
    funext e
    cases e with
    | first => exact List.head?_eq_getElem?
    | last => exact List.getLast?_eq_getElem?
    | nth i => rfl
  have hposition : f.position? p s =
      (Observation.ofList outcome (f.sequence p s)).position? := by
    funext x
    exact position?_eq f p s x
  have hcontains : (fun x => (f.position? p s x).isSome) =
      (Observation.ofList outcome (f.sequence p s)).contains := by
    funext x
    rw [position?_eq]
    show Option.isSome _ = decide (x ∈ f.sequence p s)
    by_cases hx : x ∈ f.sequence p s <;> simp [hx]
  have hempty : ((f.sequence p s).length == 0) = (f.sequence p s).isEmpty := by
    cases f.sequence p s <;> rfl
  unfold observe
  rw [hcontains, hpick, hposition, hempty]
  rfl

/-! ## Elements after the primitive changes -/

/-- Linking a node does not show in the elements, and writing them does. -/
theorem sequence_linkInto (hp : p < f.size) (ys : List NodeId) :
    (f.linkInto p s x ys).sequence p s = ys := by
  show ((f.linkAll [x] _).writeSequence p s ys).occupants p (.sequence s) = ys
  rw [occupants_writeSequence _ _ _ _ (by simpa using hp), if_pos ⟨rfl, rfl⟩]

/-- Unlinking does not show in the elements. -/
theorem sequence_unlinkAll (xs : List NodeId) (l : Option NodeId) :
    (f.unlinkAll xs l).sequence p s = f.sequence p s :=
  occupants_unlinkAll f p l xs (.sequence s)

theorem sequence_linkInto_unlink (hp : p < f.size) (ys : List NodeId) (l : Option NodeId) :
    ((f.linkInto p s y ys).unlink x l).sequence p s = ys :=
  (sequence_unlinkAll [x] l).trans (sequence_linkInto hp ys)

/-- What is written stays, whatever is unlinked afterwards. -/
theorem sequence_unlinkFrom (hp : p < f.size) (ys xs : List NodeId) :
    (f.unlinkFrom p s ys xs).sequence p s = ys := by
  rw [unlinkFrom, sequence_unlinkAll]
  show (f.writeSequence p s ys).occupants p (.sequence s) = ys
  rw [occupants_writeSequence _ _ _ _ hp, if_pos ⟨rfl, rfl⟩]

/-! ### Places and first occurrences -/

/-- Inserting at an index, as a cut in the list. -/
theorem insertIdx_eq {l : List NodeId} (hi : i ≤ l.length) :
    l.insertIdx i x = l.take i ++ x :: l.drop i := by
  induction l generalizing i with
  | nil =>
    obtain rfl : i = 0 := Nat.le_zero.1 hi
    rfl
  | cons y l ih =>
    cases i with
    | zero => rfl
    | succ i =>
      have hi : i ≤ l.length := Nat.le_of_succ_le_succ hi
      simp [List.insertIdx_succ_cons, ih hi]

/-- Taking out the element in the place that was found is taking out the first occurrence. -/
theorem eraseIdx_position? (h : f.position? p s x = some i) :
    (f.sequence p s).eraseIdx i = (f.sequence p s).erase x := by
  rw [position?] at h
  rw [List.erase_eq_eraseIdx, h]

/-- Overwriting the element in the place that was found is overwriting the first occurrence. -/
theorem set_position? (h : f.position? p s x = some i) :
    (f.sequence p s).set i y = (f.sequence p s).replace x y := by
  unfold position? at h
  generalize f.sequence p s = l at h ⊢
  induction l generalizing i with
  | nil => rfl
  | cons z l ih =>
    rw [List.idxOf?_cons] at h
    by_cases hz : z = x
    · obtain rfl : 0 = i := by simpa [hz] using h
      simp [hz]
    · have hx : (x == z) = false := by simpa using fun h => hz h.symm
      rw [if_neg (by simpa using hz)] at h
      obtain ⟨j, hj, rfl⟩ := Option.map_eq_some_iff.1 h
      rw [List.set_cons_succ, ih hj, List.replace_cons, hx]

/-- A node that takes its own place leaves the list as it is. -/
theorem replace_self (l : List NodeId) (x : NodeId) : l.replace x x = l := by
  induction l with
  | nil => rfl
  | cons z l ih =>
    rw [List.replace_cons]
    split
    · next h => rw [eq_of_beq h]
    · rw [ih]

/-- A node that is there is found. -/
theorem position?_cases (f : Forest) (p : NodeId) (s : SequenceField) (x : NodeId) :
    x ∉ f.sequence p s ∧ f.position? p s x = none ∨
      x ∈ f.sequence p s ∧ ∃ i, f.position? p s x = some i := by
  rw [position?_eq]
  by_cases hx : x ∈ f.sequence p s
  · exact .inr ⟨hx, _, if_pos hx⟩
  · exact .inl ⟨hx, if_neg hx⟩

/-! ### Nodes that do not fit -/

/-- The check of several nodes blames the first that does not fit. -/
theorem requireFits_eq (f : Forest) (p : NodeId) (s : SequenceField) (xs : List NodeId) :
    f.requireFits p (.sequence s) xs =
      match SequenceEdit.misfit? (f.kind p) s f.kind xs with
      | some e => .error e
      | none => .ok () := by
  induction xs with
  | nil => rfl
  | cons x xs ih =>
    rw [requireFits, requireFit, ih]
    unfold SequenceEdit.misfit?
    cases hx : s.category.accepts (f.kind x) with
    | true =>
      rw [if_pos (show (Field.sequence s).category.accepts (f.kind x) = true from hx),
        List.find?_cons_of_neg (by simp [hx])]
      rfl
    | false =>
      rw [if_neg (by simpa [Field.category] using hx), List.find?_cons_of_pos (by simp [hx])]
      rfl

/-- Checking one node is checking a list of one. -/
theorem requireFits_singleton (f : Forest) (p : NodeId) (s : SequenceField) (x : NodeId) :
    f.requireFits p (.sequence s) [x] = f.requireFit p (.sequence s) x := by
  rw [requireFits, requireFits]
  cases f.requireFit p (.sequence s) x <;> rfl

end Forest

/-! ## One operation -/

namespace Mutation

open Forest

variable {α β : Type} {f : Forest} {p : NodeId} {s : SequenceField}

/-- The mutation gives the outcome and leaves the elements `l` in a sequence of `p`, without a
change to any kind. -/
def Leaves (p : NodeId) (s : SequenceField) (m : Mutation α) (f : Forest) (outcome : Except Error α)
    (l : List NodeId) : Prop :=
  ∃ g, m.perform f = (outcome, g) ∧ g.sequence p s = l ∧ g.kind = f.kind ∧ g.size = f.size

namespace Leaves

variable {outcome : Except Error β} {l : List NodeId}

theorem pure (a : α) : Leaves p s (Pure.pure a) f (.ok a) (f.sequence p s) :=
  ⟨f, rfl, rfl, rfl, rfl⟩

theorem throw (e : Error) : Leaves p s (throw e : Mutation α) f (.error e) (f.sequence p s) :=
  ⟨f, rfl, rfl, rfl, rfl⟩

theorem modify {u : Forest → Forest} (hsequence : (u f).sequence p s = l)
    (hkind : (u f).kind = f.kind) (hsize : (u f).size = f.size) :
    Leaves p s (modify u) f (.ok ()) l :=
  ⟨u f, rfl, hsequence, hkind, hsize⟩

/-- After a success the next mutation goes on with the elements that are there then. -/
theorem bind {m : Mutation α} {k : α → Mutation β} {a : α} {l' : List NodeId}
    (hm : Leaves p s m f (.ok a) l)
    (hk : ∀ g : Forest, g.sequence p s = l → g.kind = f.kind → g.size = f.size →
      Leaves p s (k a) g outcome l') : Leaves p s (m >>= k) f outcome l' := by
  obtain ⟨g, hg, hl, hkind, hsize⟩ := hm
  obtain ⟨g', hg', hl', hkind', hsize'⟩ := hk g hl hkind hsize
  refine ⟨g', ?_, hl', hkind'.trans hkind, hsize'.trans hsize⟩
  rw [perform_bind, hg]
  exact hg'

/-- What is made of the result does not change the forest. -/
theorem bind_pure {m : Mutation α} {h : α → β} {outcome : Except Error α}
    (hm : Leaves p s m f outcome l) :
    Leaves p s (m >>= fun a => Pure.pure (h a)) f (outcome.map h) l := by
  obtain ⟨g, hg, hrest⟩ := hm
  refine ⟨g, ?_, hrest⟩
  rw [perform_bind, hg]
  cases outcome <;> rfl

/-- A check that passes leaves no trace. -/
theorem check_bind {c : Forest → Except Error Unit} {k : Unit → Mutation β}
    (hc : c f = .ok ()) (hk : Leaves p s (k ()) f outcome l) :
    Leaves p s (check c >>= k) f outcome l := by
  obtain ⟨g, hg, hrest⟩ := hk
  exact ⟨g, by rw [perform_check_bind, hc]; exact hg, hrest⟩

/-- A check that fails ends it, with the elements as they are. -/
theorem check_error {c : Forest → Except Error Unit} {k : Unit → Mutation β} {e : Error}
    (hc : c f = .error e) : Leaves p s (check c >>= k) f (.error e) (f.sequence p s) :=
  ⟨f, by rw [perform_check_bind, hc], rfl, rfl, rfl⟩

theorem get_bind {k : Forest → Mutation β} (hk : Leaves p s (k f) f outcome l) :
    Leaves p s (get >>= k) f outcome l := hk

end Leaves

section Operations

variable {x y : NodeId} {i : Nat} {xs : List NodeId} {e : Error}

theorem leaves_linkInto (hp : p < f.size) (u : Forest → List NodeId) :
    Leaves p s (modify fun f => f.linkInto p s x (u f)) f (.ok ()) (u f) :=
  .modify (sequence_linkInto hp _) (funext fun _ => kind_linkInto ..)
    (by simp [linkInto])

theorem leaves_unlinkFrom (hp : p < f.size) (u v : Forest → List NodeId) :
    Leaves p s (modify fun f => f.unlinkFrom p s (u f) (v f)) f (.ok ()) (u f) :=
  .modify (sequence_unlinkFrom hp _ _) (funext fun _ => kind_unlinkFrom ..)
    (by simp [unlinkFrom])

/-- Appending looks at one node and puts it at the end. -/
theorem leaves_append (hp : p < f.size) (hs : .sequence s ∈ (f.kind p).fields)
    (hfit : f.requireFit p (.sequence s) x = .ok ()) :
    Leaves p s (append p s x) f (.ok ()) (f.sequence p s ++ [x]) :=
  .check_bind (requireField_eq_ok.2 hs) <| .check_bind hfit <|
    leaves_linkInto hp fun f => f.sequence p s ++ [x]

/-- The nodes are appended one by one; each fits when its turn comes, since it did before. -/
theorem leaves_forM_append (hp : p < f.size) (hs : .sequence s ∈ (f.kind p).fields)
    (hfits : ∀ x ∈ xs, (Field.sequence s).category.accepts (f.kind x) = true) :
    Leaves p s (xs.forM (append p s)) f (.ok ()) (f.sequence p s ++ xs) := by
  induction xs generalizing f with
  | nil =>
    rw [List.append_nil]
    exact .pure ()
  | cons x xs ih =>
    obtain ⟨hx, hxs⟩ := List.forall_mem_cons.1 hfits
    refine (leaves_append hp hs (requireFit_eq_ok.2 hx)).bind fun g hl hkind hsize => ?_
    rw [show f.sequence p s ++ x :: xs = g.sequence p s ++ xs by simp [hl]]
    exact ih (hsize ▸ hp) (by rwa [hkind]) fun y hy => by rw [hkind]; exact hxs y hy

/-- Every node has been looked at before the first is appended, so that there is no stopping
half-way. -/
theorem leaves_extend (hp : p < f.size) (hs : .sequence s ∈ (f.kind p).fields)
    (hfits : f.requireFits p (.sequence s) xs = .ok ()) :
    Leaves p s (extend p s xs) f (.ok ()) (f.sequence p s ++ xs) :=
  .check_bind (requireField_eq_ok.2 hs) <| .check_bind hfits <|
    leaves_forM_append hp hs (requireFits_eq_ok.1 hfits)

theorem leaves_clear (hp : p < f.size) (hs : .sequence s ∈ (f.kind p).fields) :
    Leaves p s (clear p s) f (.ok ()) [] :=
  .check_bind (requireField_eq_ok.2 hs) <|
    leaves_unlinkFrom hp (fun _ => []) fun f => f.sequence p s

/-- The nodes are looked at before the sequence is cleared, and fit afterwards too, since clearing
changes no kind. -/
theorem leaves_reset (hp : p < f.size) (hs : .sequence s ∈ (f.kind p).fields)
    (hfits : f.requireFits p (.sequence s) xs = .ok ()) :
    Leaves p s (reset p s xs) f (.ok ()) xs := by
  refine .check_bind (requireField_eq_ok.2 hs) <| .check_bind hfits ?_
  refine (leaves_clear hp hs).bind fun g hl hkind hsize => ?_
  -- the field is empty now, but the kinds are what they were
  have hextend : Leaves p s (extend p s xs) g (.ok ()) (g.sequence p s ++ xs) := by
    refine leaves_extend (hsize ▸ hp) (by rwa [hkind]) (requireFits_eq_ok.2 fun x hx => ?_)
    rw [hkind]
    exact requireFits_eq_ok.1 hfits x hx
  rwa [hl, List.nil_append] at hextend

/-- Inserting looks at the node first, and then at the index. -/
theorem leaves_insertAt (hp : p < f.size) (hs : .sequence s ∈ (f.kind p).fields)
    (hfit : f.requireFit p (.sequence s) x = .ok ()) (hi : i ≤ (f.sequence p s).length) :
    Leaves p s (insertAt p s i x) f (.ok ())
      ((f.sequence p s).take i ++ x :: (f.sequence p s).drop i) := by
  have hwithin : f.requireWithin p s i = .ok () := if_neg (Nat.not_lt.2 hi)
  rw [← insertIdx_eq hi]
  exact .check_bind (requireField_eq_ok.2 hs) <| .check_bind hfit <| .check_bind hwithin <|
    leaves_linkInto hp fun f => (f.sequence p s).insertIdx i x

/-- Removing takes out the first occurrence, and tells whether there was one. -/
theorem leaves_remove (hp : p < f.size) (hs : .sequence s ∈ (f.kind p).fields) :
    Leaves p s (remove p s x) f (.ok (decide (x ∈ f.sequence p s))) ((f.sequence p s).erase x) := by
  refine .check_bind (requireField_eq_ok.2 hs) (.get_bind ?_)
  rcases position?_cases f p s x with ⟨hx, hi⟩ | ⟨hx, i, hi⟩
  · rw [hi, List.erase_of_not_mem hx, decide_eq_false hx]
    exact .pure false
  · rw [hi, ← eraseIdx_position? hi, decide_eq_true hx]
    exact (leaves_unlinkFrom hp (fun f => (f.sequence p s).eraseIdx i) fun _ => [x]).bind_pure

/-- Removing at an index takes out what is there, and answers with it. -/
theorem leaves_removeAt (hp : p < f.size) (hs : .sequence s ∈ (f.kind p).fields)
    (hi : (f.sequence p s)[i]? = some x) :
    Leaves p s (removeAt p s i) f (.ok x)
      ((f.sequence p s).take i ++ (f.sequence p s).drop (i + 1)) := by
  refine .check_bind (requireField_eq_ok.2 hs) (.get_bind ?_)
  dsimp only
  rw [hi, ← List.eraseIdx_eq_take_drop_succ]
  exact (leaves_unlinkFrom hp (fun f => (f.sequence p s).eraseIdx i) fun _ => [x]).bind_pure

/-- An index behind the elements is refused, with the length in the error. -/
theorem leaves_removeAt_none (hs : .sequence s ∈ (f.kind p).fields)
    (hi : (f.sequence p s)[i]? = none) :
    Leaves p s (removeAt p s i) f
      (.error (.indexOutOfBounds (f.kind p) s i (f.sequence p s).length)) (f.sequence p s) := by
  refine .check_bind (requireField_eq_ok.2 hs) (.get_bind ?_)
  dsimp only
  rw [hi]
  exact .throw _

/-- A node is looked at only if the one whose place it is to take is there, and then also if it
is that one itself. -/
theorem leaves_substitute (hp : p < f.size) (hs : .sequence s ∈ (f.kind p).fields)
    (hx : x ∈ f.sequence p s) (hfit : f.requireFit p (.sequence s) y = .ok ()) :
    Leaves p s (substitute p s x y) f (.ok true) ((f.sequence p s).replace x y) := by
  refine .check_bind (requireField_eq_ok.2 hs) (.get_bind ?_)
  obtain ⟨hx', -⟩ | ⟨-, i, hi⟩ := position?_cases f p s x
  · exact absurd hx hx'
  rw [hi]
  refine .check_bind hfit ?_
  by_cases hxy : x = y
  · rw [if_pos hxy, ← hxy, replace_self]
    exact .pure true
  · rw [if_neg hxy, ← set_position? hi]
    refine (Leaves.modify ?_ ?_ ?_).bind_pure
    · exact sequence_linkInto_unlink hp _ _
    · exact funext fun j => (kind_eq_of_rest (rest_unlinkAll _ j _ [x])).trans (kind_linkInto ..)
    · simp [linkInto]

/-- What is not there cannot be replaced; the other node is not even looked at. -/
theorem leaves_substitute_absent (hs : .sequence s ∈ (f.kind p).fields)
    (hx : x ∉ f.sequence p s) :
    Leaves p s (substitute p s x y) f (.ok false) ((f.sequence p s).replace x y) := by
  refine .check_bind (requireField_eq_ok.2 hs) (.get_bind ?_)
  rw [position?_eq_none.2 hx, List.replace_of_not_mem hx]
  exact .pure false

/-- **A node that does not fit is refused**, before anything else is looked at. -/
theorem leaves_misfit {e : SequenceEdit NodeId} {err : Error}
    (hs : .sequence s ∈ (f.kind p).fields)
    (hfits : f.requireFits p (.sequence s) (e.toPlace (f.sequence p s)) = .error err) :
    Leaves p s (edit p s e) f (.error err) (f.sequence p s) := by
  have hfield : f.requireField p (.sequence s) = .ok () := requireField_eq_ok.2 hs
  cases e with
  | append x =>
    rw [SequenceEdit.toPlace, requireFits_singleton] at hfits
    exact Leaves.bind_pure (m := append p s x) (.check_bind hfield (.check_error hfits))
  | insertAt i x =>
    rw [SequenceEdit.toPlace, requireFits_singleton] at hfits
    exact Leaves.bind_pure (m := insertAt p s i x) (.check_bind hfield (.check_error hfits))
  | extend xs =>
    exact Leaves.bind_pure (m := extend p s xs) (.check_bind hfield (.check_error hfits))
  | reset xs =>
    exact Leaves.bind_pure (m := reset p s xs) (.check_bind hfield (.check_error hfits))
  | clear | remove _ | removeAt _ => exact nomatch hfits
  | substitute x y =>
    rw [SequenceEdit.toPlace] at hfits
    obtain ⟨hx, -⟩ | ⟨hx, i, hi⟩ := position?_cases f p s x
    · rw [if_neg hx] at hfits
      exact nomatch hfits
    · rw [if_pos hx, requireFits_singleton] at hfits
      have hrefused : Leaves p s (substitute p s x y) f (.error err) (f.sequence p s) := by
        refine .check_bind hfield (.get_bind ?_)
        rw [hi]
        exact .check_error hfits
      exact hrefused.bind_pure

/-- The list after an operation that there is nothing wrong with. -/
theorem leaves_answer {e : SequenceEdit NodeId} (hp : p < f.size)
    (hs : .sequence s ∈ (f.kind p).fields)
    (hfits : f.requireFits p (.sequence s) (e.toPlace (f.sequence p s)) = .ok ()) :
    Leaves p s (edit p s e) f (e.answer (f.kind p) s (f.sequence p s))
      (match e.answer (f.kind p) s (f.sequence p s) with
        | .ok _ => e.replay (f.sequence p s)
        | .error _ => f.sequence p s) := by
  have hfield : f.requireField p (.sequence s) = .ok () := requireField_eq_ok.2 hs
  cases e with
  | append x =>
    rw [SequenceEdit.toPlace, requireFits_singleton] at hfits
    exact (leaves_append hp hs hfits).bind_pure
  | insertAt i x =>
    rw [SequenceEdit.toPlace, requireFits_singleton] at hfits
    rw [SequenceEdit.answer]
    by_cases hi : (f.sequence p s).length < i
    · have hwithin : f.requireWithin p s i =
          .error (.indexOutOfBounds (f.kind p) s i (f.sequence p s).length) := if_pos hi
      rw [if_pos hi]
      exact Leaves.bind_pure (m := insertAt p s i x)
        (.check_bind hfield (.check_bind hfits (.check_error hwithin)))
    · rw [if_neg hi]
      exact (leaves_insertAt hp hs hfits (Nat.le_of_not_lt hi)).bind_pure
  | extend xs => exact (leaves_extend hp hs hfits).bind_pure
  | reset xs => exact (leaves_reset hp hs hfits).bind_pure
  | clear => exact (leaves_clear hp hs).bind_pure
  | remove x => exact (leaves_remove hp hs).bind_pure
  | removeAt i =>
    rw [SequenceEdit.answer]
    cases hi : (f.sequence p s)[i]? with
    | some x => exact (leaves_removeAt hp hs hi).bind_pure
    | none => exact (leaves_removeAt_none hs hi).bind_pure
  | substitute x y =>
    rw [SequenceEdit.toPlace] at hfits
    by_cases hx : x ∈ f.sequence p s
    · rw [if_pos hx, requireFits_singleton] at hfits
      rw [SequenceEdit.answer, decide_eq_true hx]
      exact (leaves_substitute hp hs hx hfits).bind_pure
    · rw [SequenceEdit.answer, decide_eq_false hx]
      exact (leaves_substitute_absent hs hx).bind_pure

/-- **An operation on a sequence does what it does on the list of the elements.** -/
theorem leaves_edit (hp : p < f.size) (hs : .sequence s ∈ (f.kind p).fields)
    (e : SequenceEdit NodeId) :
    Leaves p s (edit p s e) f (e.outcome (f.kind p) s f.kind (f.sequence p s))
      (e.listAfter (f.kind p) s f.kind (f.sequence p s)) := by
  have hfits := requireFits_eq f p s (e.toPlace (f.sequence p s))
  unfold SequenceEdit.listAfter SequenceEdit.outcome
  split at hfits
  · exact leaves_misfit hs hfits
  · exact leaves_answer hp hs hfits

end Operations

end Mutation

namespace Forest

open Mutation (trialForest)

/-- **Sequences are plain lists.** Whatever operations are performed one after the other on a
sequence of a node or draft, with whatever nodes and indices: after each of them the answer, the
elements and all that can be asked about them are those of a plain list of nodes, from the
elements at the beginning on. -/
theorem observations_eq {f : Forest} {p : NodeId} {s : SequenceField} (hp : p < f.size)
    (hs : .sequence s ∈ (f.kind p).fields) (es : List (SequenceEdit NodeId)) :
    f.observations p s es =
      SequenceEdit.observations (f.kind p) s f.kind (f.sequence p s) es := by
  induction es generalizing f with
  | nil => rfl
  | cons e es ih =>
    obtain ⟨g, hg, hl, hkind, hsize⟩ := Mutation.leaves_edit hp hs e
    have hes := ih (f := g) (hsize ▸ hp) (by rwa [hkind])
    rw [observations, hg, SequenceEdit.observations]
    show g.observe p s _ :: g.observations p s es = _
    rw [observe_eq_ofList, hes, hl, hkind]

/-- The argument of an invocation is 1. Another number, 3, is put before and after it; the return
statement, 4, fits nowhere, not even at an index that does not exist. -/
theorem observations_eq_arguments :
    let refusal := Error.incompatibleNode .methodInvocation (.sequence .arguments) .returnStatement
    let es : List (SequenceEdit NodeId) :=
      [.insertAt 0 3, .append 3, .insertAt 18446744073709551615 4, .insertAt 4 1,
        .extend [1, 4, 2], .reset [3, 4], .substitute 0 4, .substitute 3 4, .substitute 3 1,
        .remove 0, .remove 1, .removeAt 2, .removeAt 1, .reset [3, 3], .clear]
    (trialForest.observations 2 .arguments es).map (fun o => (o.outcome, o.elements)) =
      [(.ok .done, [3, 1]), (.ok .done, [3, 1, 3]), (.error refusal, [3, 1, 3]),
        (.error (.indexOutOfBounds .methodInvocation .arguments 4 3), [3, 1, 3]),
        (.error refusal, [3, 1, 3]), (.error refusal, [3, 1, 3]),
        (.ok (.found false), [3, 1, 3]), (.error refusal, [3, 1, 3]),
        (.ok (.found true), [1, 1, 3]), (.ok (.found false), [1, 1, 3]),
        (.ok (.found true), [1, 3]),
        (.error (.indexOutOfBounds .methodInvocation .arguments 2 2), [1, 3]),
        (.ok (.removed 3), [1]), (.ok .done, [3, 3]), (.ok .done, [])] := by
  intro refusal es
  rw [observations_eq (by decide) (by decide)]
  rfl

end Forest

end SyntaxForest
