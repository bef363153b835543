import SyntaxForest.Forest.Basic

/-!
# Liveness

A user can get at a node by going down, from holder to held, from something that he has in hand.
Records are never taken away, so this is a property of a node in a forest with given roots, not of
the store: `Live`.

`reach` computes the live nodes by marking them, one new mark in each round, with a stack of
nodes still to be looked at. There are at most as many rounds as records. Main statement:
`contains_reach_iff`, the marked nodes are exactly the live ones. One half says that marks
only spread along contents (`live_of_contains_markRounds`). The other half says that a set
which has all roots and is closed under contents has all live nodes, and that marking ends in
such a set because the rounds outnumber the open nodes (`contains_markRounds_of_live`).
-/

namespace SyntaxForest.Forest

/-- `n` can be reached from one of the roots. -/
inductive Live (f : Forest) (roots : List NodeId) : NodeId → Prop
  | root {n : NodeId} : n ∈ roots → n < f.size → Live f roots n
  | held {p n : NodeId} : Live f roots p → n ∈ f.children p → n < f.size → Live f roots n

/-- A set of nodes, as a bit for each record. -/
structure Marks where
  bits : Array Bool
deriving Inhabited

namespace Marks

/-- Whether a node is marked. -/
def contains (m : Marks) (n : NodeId) : Bool := m.bits.getD n false

/-- Whether a node can still be marked: there is a bit for it, and the bit is not set. -/
def isOpen (m : Marks) (n : NodeId) : Bool := m.bits.getD n true == false

/-- The set with one more node. -/
def mark (m : Marks) (n : NodeId) : Marks := ⟨m.bits.setIfInBounds n true⟩

/-- No node of a store of the given size is marked. -/
def none (size : Nat) : Marks := ⟨Array.replicate size false⟩

end Marks

/-- Marks nodes from the stack, for the given number of rounds: what is marked already is
skipped, the first other node is marked, and its children come onto the stack. -/
def markRounds (f : Forest) : Nat → List NodeId → Marks → Marks
  | 0, _, m => m
  | rounds + 1, stack, m =>
    match stack.dropWhile fun n => !m.isOpen n with
    | [] => m
    | n :: rest => markRounds f rounds (f.children n ++ rest) (m.mark n)

/-- The nodes that can be reached from the roots. -/
def reach (f : Forest) (roots : List NodeId) : Marks :=
  f.markRounds f.size roots (Marks.none f.size)

/-! ## The marked nodes are the live ones -/

theorem Live.lt_size {f : Forest} {roots : List NodeId} {n : NodeId} (h : Live f roots n) :
    n < f.size := by
  cases h with
  | root _ hn => exact hn
  | held _ _ hn => exact hn

namespace Marks

/-- The number of nodes that can still be marked. -/
def openCount (m : Marks) : Nat := m.bits.count false

/-- A node of the store is either marked or can still be. -/
theorem isOpen_eq_not_contains {m : Marks} {n : NodeId} (h : n < m.bits.size) :
    m.isOpen n = !m.contains n := by
  simp [isOpen, contains, Array.getD, h]

@[simp] theorem contains_none (size i : Nat) : (none size).contains i = false := by
  simp only [contains, none, Array.getD_eq_getD_getElem?, Array.getElem?_replicate]
  split <;> rfl

theorem lt_size_of_isOpen {m : Marks} {n : NodeId} (h : m.isOpen n = true) :
    n < m.bits.size := by
  apply Decidable.byContradiction
  intro hn
  simp [isOpen, Array.getD, hn] at h

theorem contains_mark (m : Marks) (i n : NodeId) :
    (m.mark i).contains n = (m.contains n || (decide (i = n) && decide (n < m.bits.size))) := by
  simp only [contains, mark, Array.getD_eq_getD_getElem?, Array.getElem?_setIfInBounds]
  by_cases h : i = n
  · subst h
    by_cases hi : i < m.bits.size <;> simp [hi]
  · simp [h]

@[simp] theorem size_mark (m : Marks) (n : NodeId) : (m.mark n).bits.size = m.bits.size := by
  simp [mark]

/-- What can still be marked after a node has been, could be before and is another node. -/
theorem isOpen_of_isOpen_mark {m : Marks} {i n : NodeId} (h : (m.mark i).isOpen n = true) :
    m.isOpen n = true ∧ i ≠ n := by
  have hn : n < m.bits.size := size_mark m i ▸ lt_size_of_isOpen h
  rw [isOpen_eq_not_contains (by simpa using hn), contains_mark] at h
  rw [isOpen_eq_not_contains hn]
  simpa [hn] using h

/-- Marking an open node leaves one open node less. -/
theorem openCount_mark {m : Marks} {n : NodeId} (h : m.isOpen n = true) :
    (m.mark n).openCount + 1 = m.openCount := by
  have hn := lt_size_of_isOpen h
  have hbit : m.bits[n] = false := by
    simpa [isOpen, Array.getD, hn] using h
  have hmem : 0 < m.bits.count false :=
    Array.count_pos_iff.2 (hbit ▸ Array.getElem_mem hn)
  unfold openCount mark
  rw [Array.setIfInBounds_def, dif_pos hn, Array.count_set hn]
  simp only [hbit]
  simp
  omega

/-- With no open node left, every node of the store is marked. -/
theorem contains_of_openCount_eq_zero {m : Marks} (h : m.openCount = 0) {n : NodeId}
    (hn : n < m.bits.size) : m.contains n = true := by
  have hne : m.bits[n] ≠ false := fun e => Array.count_eq_zero.1 h (e ▸ Array.getElem_mem hn)
  simpa [contains, Array.getD, hn] using hne

end Marks

/-- What is skipped on a stack, on the way to the first node that is wanted, is not wanted. -/
theorem mem_stack {wanted : NodeId → Bool} {stack tail : List NodeId} {x : NodeId}
    (h : stack.dropWhile (fun n => !wanted n) = tail) (hx : x ∈ stack) :
    wanted x = false ∨ x ∈ tail := by
  subst h
  rw [← List.takeWhile_append_dropWhile (p := fun n => !wanted n) (l := stack)] at hx
  rcases List.mem_append.1 hx with hx | hx
  · have hp := List.all_eq_true.1 (List.all_takeWhile (p := fun n => !wanted n) (l := stack)) x hx
    exact .inl (by simpa using hp)
  · exact .inr hx

/-- What the skipping ends at is wanted. -/
theorem wanted_of_stack {wanted : NodeId → Bool} {stack rest : List NodeId} {x : NodeId}
    (h : stack.dropWhile (fun n => !wanted n) = x :: rest) : wanted x = true := by
  have hhead := List.head?_dropWhile_not (fun n => !wanted n) stack
  rw [h] at hhead
  simpa using hhead

/-- Marks spread from the stack along contents only. -/
theorem live_of_contains_markRounds {f : Forest} {roots : List NodeId} :
    ∀ (rounds : Nat) (stack : List NodeId) (m : Marks), m.bits.size = f.size →
      (∀ n, m.contains n = true → Live f roots n) →
      (∀ n ∈ stack, n < f.size → Live f roots n) →
      ∀ n, (f.markRounds rounds stack m).contains n = true → Live f roots n := by
  intro rounds
  induction rounds with
  | zero => intro stack m _ hm _ n hn; exact hm n hn
  | succ rounds ih =>
    intro stack m hsize hm hstack n hn
    unfold markRounds at hn
    split at hn
    · exact hm n hn
    · next x rest hdrop =>
      have hmem : ∀ y ∈ x :: rest, y ∈ stack := fun y hy =>
        List.dropWhile_subset (fun n => !m.isOpen n) (hdrop ▸ hy)
      have hopen : m.isOpen x = true := wanted_of_stack hdrop
      have hx : Live f roots x :=
        hstack x (hmem x (by simp)) (hsize ▸ Marks.lt_size_of_isOpen hopen)
      refine ih (f.children x ++ rest) (m.mark x) ((Marks.size_mark m x).trans hsize) ?_ ?_ n hn
      · intro y hy
        rw [Marks.contains_mark] at hy
        by_cases hxy : x = y
        · exact hxy ▸ hx
        · exact hm y (by simpa [hxy] using hy)
      · intro y hy hlt
        rcases List.mem_append.1 hy with hy | hy
        · exact .held hx hy hlt
        · exact hstack y (hmem y (List.mem_cons_of_mem _ hy)) hlt

/-- A set with all roots and closed under contents has every live node. -/
theorem contains_of_live_of_closed {f : Forest} {roots : List NodeId} {m : Marks}
    (hroots : ∀ r ∈ roots, r < f.size → m.contains r = true)
    (hclosed : ∀ p, m.contains p = true → ∀ c ∈ f.children p, c < f.size → m.contains c = true)
    {n : NodeId} (h : Live f roots n) : m.contains n = true := by
  induction h with
  | root hr hlt => exact hroots _ hr hlt
  | held _ hc hlt ih => exact hclosed _ ih _ hc hlt

/-- Marking ends in a set with every live node, if there are as many rounds as open nodes. -/
theorem contains_markRounds_of_live {f : Forest} {roots : List NodeId} :
    ∀ (rounds : Nat) (stack : List NodeId) (m : Marks), m.bits.size = f.size →
      m.openCount ≤ rounds →
      (∀ r ∈ roots, r < f.size → m.contains r = true ∨ r ∈ stack) →
      (∀ p, m.contains p = true → ∀ c ∈ f.children p, c < f.size →
        m.contains c = true ∨ c ∈ stack) →
      ∀ n, Live f roots n → (f.markRounds rounds stack m).contains n = true := by
  intro rounds
  induction rounds with
  | zero =>
    intro stack m hsize hcount _ _ n hn
    exact Marks.contains_of_openCount_eq_zero (Nat.le_zero.1 hcount) (hsize ▸ hn.lt_size)
  | succ rounds ih =>
    intro stack m hsize hcount hroots hclosed n hn
    -- what is on the stack and not open is marked, if it is in the store at all
    have hskip : ∀ {tail : List NodeId} {x : NodeId}, x < f.size →
        stack.dropWhile (fun n => !m.isOpen n) = tail →
        m.contains x = true ∨ x ∈ stack → m.contains x = true ∨ x ∈ tail := by
      intro tail x hx hdrop h
      rcases h with h | h
      · exact .inl h
      · rcases mem_stack hdrop h with h | h
        · rw [Marks.isOpen_eq_not_contains (hsize ▸ hx)] at h
          exact .inl (by simpa using h)
        · exact .inr h
    unfold markRounds
    split
    · next hdrop =>
      refine contains_of_live_of_closed (fun r hr hlt => ?_) (fun p hp c hc hlt => ?_) hn
      · simpa using hskip hlt hdrop (hroots r hr hlt)
      · simpa using hskip hlt hdrop (hclosed p hp c hc hlt)
    · next x rest hdrop =>
      have hopen : m.isOpen x = true := wanted_of_stack hdrop
      have hx : x < m.bits.size := Marks.lt_size_of_isOpen hopen
      -- what was marked or still to be looked at, still is
      have hkeep : ∀ {y : NodeId}, m.contains y = true ∨ y ∈ x :: rest →
          (m.mark x).contains y = true ∨ y ∈ f.children x ++ rest := by
        intro y h
        rw [Marks.contains_mark]
        rcases h with h | h
        · simp [h]
        · rcases List.mem_cons.1 h with rfl | h
          · simp [hx]
          · simp [h]
      refine ih (f.children x ++ rest) (m.mark x) ((Marks.size_mark m x).trans hsize) ?_ ?_ ?_ n hn
      · have := Marks.openCount_mark hopen
        omega
      · exact fun r hr hlt => hkeep (hskip hlt hdrop (hroots r hr hlt))
      · intro p hp c hc hlt
        rw [Marks.contains_mark] at hp
        by_cases hxp : x = p
        · subst hxp
          exact .inr (List.mem_append_left _ hc)
        · exact hkeep (hskip hlt hdrop (hclosed p (by simpa [hxp] using hp) c hc hlt))

/-- The marked nodes are exactly the live ones. -/
theorem contains_reach_iff {f : Forest} {roots : List NodeId} {n : NodeId} :
    (f.reach roots).contains n = true ↔ Live f roots n := by
  have hsize : (Marks.none f.size).bits.size = f.size := by simp [Marks.none]
  constructor
  · refine live_of_contains_markRounds _ _ _ hsize (fun i hi => ?_) (fun r hr hlt => .root hr hlt) n
    rw [Marks.contains_none] at hi
    exact absurd hi Bool.false_ne_true
  · refine contains_markRounds_of_live _ _ _ hsize ?_ (fun r hr _ => .inr hr) (fun p hp => ?_) n
    · exact Nat.le_trans Array.count_le_size (Nat.le_of_eq hsize)
    · rw [Marks.contains_none] at hp
      exact absurd hp Bool.false_ne_true

end SyntaxForest.Forest
