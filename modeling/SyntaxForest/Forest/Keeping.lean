import SyntaxForest.Forest.Liveness

/-!
# Keeping: what strong references keep in existence

What is in hand and what is held is referred to strongly, and strong references are counted. The
store gives a record up when it is not in hand and the last of its holders has been given up:
`GivenUp`. Links, owners and annotations are weak references. They keep nothing in existence, and
can be followed only to a record that is `Kept`, one that has not been given up.

What is live is kept (`Live.kept`). It need not be so the other way round: records that hold each
other in a circle keep each other, together with all that they hold, when nobody can reach them
any more.

`kept` works as the store does. A record that is not in hand is given up when all its holders have
been; those that it holds are looked at next, since it may have been their last holder. Each round
gives up one record, so that there are at most as many rounds as records. Records that were given
up long ago are looked at again, since the store of a forest has all records that there ever were.
Main statement: `contains_kept_iff`, the marked records are exactly the kept ones.
-/

namespace SyntaxForest.Forest

/-- The record is not in hand, and all that held it has been given up. -/
inductive GivenUp (f : Forest) (roots : List NodeId) : NodeId → Prop
  | intro {n : NodeId} : n ∉ roots → (∀ p, n ∈ f.children p → GivenUp f roots p) →
    GivenUp f roots n

/-- The record is in the store and has not been given up. -/
structure Kept (f : Forest) (roots : List NodeId) (n : NodeId) : Prop where
  lt_size : n < f.size
  not_givenUp : ¬ GivenUp f roots n

/-- Every record with every one that it holds, the held one first. -/
def holdings (f : Forest) : List (NodeId × NodeId) :=
  (List.range f.size).flatMap fun p => (f.children p).map (·, p)

/-- For each record, the records that hold it. -/
def holders (f : Forest) : Array (List NodeId) :=
  f.holdings.foldl (fun hs h => hs.setIfInBounds h.1 (h.2 :: hs.getD h.1 []))
    (Array.replicate f.size [])

/-- Nothing refers to `n` strongly: it is not in hand, and all its holders have been given up. -/
def unreferred (hs : Array (List NodeId)) (inHand gone : Marks) (n : NodeId) : Bool :=
  !inHand.contains n && (hs.getD n []).all gone.contains

/-- Gives up records from the stack, for the given number of rounds: what something still refers to
is skipped, like what is gone already; the first other record is given up, and what it holds comes
onto the stack. -/
def giveUpRounds (f : Forest) (hs : Array (List NodeId)) (inHand : Marks) :
    Nat → List NodeId → Marks → Marks
  | 0, _, gone => gone
  | rounds + 1, stack, gone =>
    match stack.dropWhile fun n => !(gone.isOpen n && unreferred hs inHand gone n) with
    | [] => gone
    | n :: rest => giveUpRounds f hs inHand rounds (f.children n ++ rest) (gone.mark n)

/-- The records that have been given up. -/
def givenUp (f : Forest) (roots : List NodeId) : Marks :=
  f.giveUpRounds f.holders (roots.foldl Marks.mark (.none f.size)) f.size (List.range f.size)
    (.none f.size)

/-- The records that have not been given up. -/
def kept (f : Forest) (roots : List NodeId) : Marks := ⟨(f.givenUp roots).bits.map not⟩

variable {f : Forest} {roots : List NodeId} {n p c : NodeId}

/-! ## Strong references keep -/

theorem Kept.root (hn : n ∈ roots) (hlt : n < f.size) : Kept f roots n :=
  ⟨hlt, fun ⟨hnot, _⟩ => hnot hn⟩

theorem Kept.held (hp : Kept f roots p) (hc : c ∈ f.children p) (hlt : c < f.size) :
    Kept f roots c :=
  ⟨hlt, fun ⟨_, hholders⟩ => hp.not_givenUp (hholders p hc)⟩

/-- **What is live is kept.** -/
theorem Live.kept (h : Live f roots n) : Kept f roots n := by
  induction h with
  | root hn hlt => exact .root hn hlt
  | held _ hc hlt ih => exact ih.held hc hlt

/-- **What is kept is what there is a strong reference to**, from the hands or from what is kept. -/
theorem kept_iff_referred (hn : n < f.size) :
    Kept f roots n ↔ n ∈ roots ∨ ∃ p, Kept f roots p ∧ n ∈ f.children p := by
  constructor
  · intro h
    apply Classical.byContradiction
    intro hnot
    refine h.not_givenUp ⟨fun hroot => hnot (.inl hroot), fun p hp => ?_⟩
    apply Classical.byContradiction
    exact fun hkept => hnot (.inr ⟨p, ⟨lt_size_of_mem_children hp, hkept⟩, hp⟩)
  · rintro (hroot | ⟨p, hp, hc⟩)
    · exact .root hroot hn
    · exact hp.held hc hn

/-- **How giving up carries over to another forest.** Of the nodes in question, none comes into
hand; and what holds one of them there held it here and is in question too, or is given up anyway. -/
theorem GivenUp.of_holders {g : Forest} {hands : List NodeId} {Q : NodeId → Prop}
    (h : GivenUp f roots n) (hn : Q n) (hroots : ∀ m, Q m → m ∉ roots → m ∉ hands)
    (hholders : ∀ m p, Q m → m ∈ g.children p →
      m ∈ f.children p ∧ Q p ∨ GivenUp g hands p) : GivenUp g hands n := by
  induction h with
  | @intro m hroot _ ih =>
    refine ⟨hroots m hn hroot, fun p hp => ?_⟩
    rcases hholders m p hn hp with ⟨hp, hq⟩ | hgiven
    · exact ih p hp hq
    · exact hgiven

/-- What is kept is read off the contents alone. -/
theorem Kept.congr {g : Forest} (h : Kept g roots n) (hsize : g.size = f.size)
    (hchildren : ∀ j, g.children j = f.children j) : Kept f roots n :=
  ⟨hsize ▸ h.lt_size, fun hgiven => h.not_givenUp <|
    hgiven.of_holders (Q := fun _ => True) trivial (fun _ _ => id)
      fun _ p _ hp => .inl ⟨hchildren p ▸ hp, trivial⟩⟩

/-! ## The marked records are the kept ones -/

theorem Marks.contains_foldl_mark : ∀ (ns : List NodeId) (m : Marks),
    (ns.foldl mark m).contains n = true ↔
      m.contains n = true ∨ n ∈ ns ∧ n < m.bits.size := by
  intro ns
  induction ns with
  | nil => simp
  | cons a ns ih =>
    intro m
    rw [List.foldl_cons, ih, contains_mark, size_mark, List.mem_cons]
    grind

theorem mem_foldl_holders : ∀ (es : List (NodeId × NodeId)) (hs : Array (List NodeId)),
    p ∈ (es.foldl (fun hs h => hs.setIfInBounds h.1 (h.2 :: hs.getD h.1 [])) hs).getD n [] ↔
      p ∈ hs.getD n [] ∨ (n, p) ∈ es ∧ n < hs.size := by
  intro es
  induction es with
  | nil => simp
  | cons e es ih =>
    intro hs
    obtain ⟨c, q⟩ := e
    rw [List.foldl_cons, ih, Array.size_setIfInBounds, List.mem_cons, Prod.mk.injEq]
    simp only [Array.getD_eq_getD_getElem?, Array.getElem?_setIfInBounds]
    by_cases hcn : c = n
    · subst hcn
      by_cases hlt : c < hs.size
      · simp only [hlt, if_true, Option.getD_some, List.mem_cons, true_and, and_true]
        rw [or_assoc, or_left_comm]
      · simp [hlt]
    · simp [hcn, Ne.symm hcn]

/-- The holders of a record are those that have it among their children. -/
theorem mem_holders (hn : n < f.size) : p ∈ f.holders.getD n [] ↔ n ∈ f.children p := by
  have hnone : (Array.replicate f.size ([] : List NodeId)).getD n [] = [] := by
    simp [Array.getD, hn]
  rw [holders, mem_foldl_holders, hnone, holdings, List.mem_flatMap]
  simp only [List.not_mem_nil, false_or, List.mem_range, List.mem_map, Prod.mk.injEq,
    Array.size_replicate, hn, and_true]
  constructor
  · rintro ⟨q, -, c, hc, rfl, rfl⟩
    exact hc
  · exact fun hc => ⟨p, lt_size_of_mem_children hc, n, hc, rfl, rfl⟩

theorem size_giveUpRounds {hs : Array (List NodeId)} {inHand : Marks} : ∀ (rounds : Nat)
    (stack : List NodeId) (gone : Marks),
    (f.giveUpRounds hs inHand rounds stack gone).bits.size = gone.bits.size := by
  intro rounds
  induction rounds with
  | zero => intro stack gone; rfl
  | succ rounds ih =>
    intro stack gone
    unfold giveUpRounds
    split
    · rfl
    · rw [ih, Marks.size_mark]

section Rounds

variable {inHand : Marks} (hhand : ∀ m < f.size, inHand.contains m = true ↔ m ∈ roots)

include hhand

theorem unreferred_iff {gone : Marks} (hn : n < f.size) :
    unreferred f.holders inHand gone n = true ↔
      n ∉ roots ∧ ∀ p, n ∈ f.children p → gone.contains p = true := by
  rw [unreferred, Bool.and_eq_true, List.all_eq_true, Bool.not_eq_true', ← Bool.not_eq_true,
    hhand n hn]
  exact and_congr_right fun _ => forall_congr' fun p => by rw [mem_holders hn]

/-- When `x` is given up, something stops referring only to what `x` holds. -/
theorem unreferred_of_mark {gone : Marks} {x y : NodeId} (hy : y < f.size)
    (h : unreferred f.holders inHand (gone.mark x) y = true) (hnot : y ∉ f.children x) :
    unreferred f.holders inHand gone y = true := by
  obtain ⟨hroot, hholders⟩ := (unreferred_iff hhand hy).1 h
  refine (unreferred_iff hhand hy).2 ⟨hroot, fun p hp => ?_⟩
  have hxp : x ≠ p := by
    rintro rfl
    exact hnot hp
  have hmarked := hholders p hp
  rw [Marks.contains_mark] at hmarked
  simpa [hxp] using hmarked

/-- Where something refers to all that is left, nothing left is given up. -/
theorem contains_of_givenUp {gone : Marks} (hsize : gone.bits.size = f.size)
    (hleft : ∀ m, gone.isOpen m = true → unreferred f.holders inHand gone m = true → False)
    (h : GivenUp f roots n) (hn : n < f.size) : gone.contains n = true := by
  induction h with
  | @intro m hroot _ ih =>
    have hunreferred : unreferred f.holders inHand gone m = true :=
      (unreferred_iff hhand hn).2 ⟨hroot, fun p hp => ih p hp (lt_size_of_mem_children hp)⟩
    have hopen : ¬ gone.isOpen m = true := fun hopen => hleft m hopen hunreferred
    rw [Marks.isOpen_eq_not_contains (hsize ▸ hn)] at hopen
    simpa using hopen

/-- Only what is given up is marked. -/
theorem givenUp_of_contains_giveUpRounds : ∀ (rounds : Nat) (stack : List NodeId) (gone : Marks),
    gone.bits.size = f.size → (∀ m, gone.contains m = true → GivenUp f roots m) →
    ∀ m, (f.giveUpRounds f.holders inHand rounds stack gone).contains m = true →
      GivenUp f roots m := by
  intro rounds
  induction rounds with
  | zero => intro stack gone _ hgone m hm; exact hgone m hm
  | succ rounds ih =>
    intro stack gone hsize hgone m hm
    unfold giveUpRounds at hm
    split at hm
    · exact hgone m hm
    · next x rest hdrop =>
      obtain ⟨hopen, hunreferred⟩ := Bool.and_eq_true_iff.1 (wanted_of_stack hdrop)
      have hx : x < f.size := hsize ▸ Marks.lt_size_of_isOpen hopen
      obtain ⟨hroot, hholders⟩ := (unreferred_iff hhand hx).1 hunreferred
      refine ih _ (gone.mark x) ((Marks.size_mark gone x).trans hsize) (fun y hy => ?_) m hm
      rw [Marks.contains_mark] at hy
      by_cases hxy : x = y
      · exact hxy ▸ ⟨hroot, fun p hp => hgone p (hholders p hp)⟩
      · exact hgone y (by simpa [hxy] using hy)

/-- All that is given up is marked, if there are as many rounds as records that are not, and what
nothing refers to any more is on the stack. -/
theorem contains_giveUpRounds_of_givenUp : ∀ (rounds : Nat) (stack : List NodeId) (gone : Marks),
    gone.bits.size = f.size → gone.openCount ≤ rounds →
    (∀ m, gone.isOpen m = true → unreferred f.holders inHand gone m = true → m ∈ stack) →
    ∀ m < f.size, GivenUp f roots m →
      (f.giveUpRounds f.holders inHand rounds stack gone).contains m = true := by
  intro rounds
  induction rounds with
  | zero =>
    intro stack gone hsize hcount _ m hm _
    exact Marks.contains_of_openCount_eq_zero (Nat.le_zero.1 hcount) (hsize ▸ hm)
  | succ rounds ih =>
    intro stack gone hsize hcount hstack m hm hgiven
    unfold giveUpRounds
    split
    · next hdrop =>
      refine contains_of_givenUp hhand hsize (fun y hopen hunreferred => ?_) hgiven hm
      have hskipped := (mem_stack hdrop (hstack y hopen hunreferred)).resolve_right (by simp)
      rw [hopen, hunreferred] at hskipped
      exact absurd hskipped (by simp)
    · next x rest hdrop =>
      obtain ⟨hopen, -⟩ := Bool.and_eq_true_iff.1 (wanted_of_stack hdrop)
      have hcount' := Marks.openCount_mark hopen
      refine ih _ (gone.mark x) ((Marks.size_mark gone x).trans hsize) (by omega)
        (fun y hy hunreferred => ?_) m hm hgiven
      obtain ⟨hyopen, hxy⟩ := Marks.isOpen_of_isOpen_mark hy
      -- either `x` was the last holder of `y`, or `y` was on the stack
      by_cases hc : y ∈ f.children x
      · exact List.mem_append_left _ hc
      · have hbefore :=
          unreferred_of_mark hhand (hsize ▸ Marks.lt_size_of_isOpen hyopen) hunreferred hc
        rcases mem_stack hdrop (hstack y hyopen hbefore) with hskipped | hmem
        · rw [hyopen, hbefore] at hskipped
          exact absurd hskipped (by simp)
        · exact List.mem_append_right _ ((List.mem_cons.1 hmem).resolve_left (Ne.symm hxy))

end Rounds

theorem contains_givenUp_iff (hn : n < f.size) :
    (f.givenUp roots).contains n = true ↔ GivenUp f roots n := by
  have hhand : ∀ m < f.size,
      (roots.foldl Marks.mark (.none f.size)).contains m = true ↔ m ∈ roots := fun m hm => by
    rw [Marks.contains_foldl_mark, Marks.contains_none, Marks.none, Array.size_replicate]
    simp [hm]
  have hsize : (Marks.none f.size).bits.size = f.size := by simp [Marks.none]
  constructor
  · refine givenUp_of_contains_giveUpRounds hhand _ _ _ hsize (fun m hm => ?_) n
    rw [Marks.contains_none] at hm
    exact absurd hm Bool.false_ne_true
  · refine contains_giveUpRounds_of_givenUp hhand _ _ _ hsize ?_ (fun m hm _ => ?_) n hn
    · exact Nat.le_trans Array.count_le_size (Nat.le_of_eq hsize)
    · exact List.mem_range.2 (hsize ▸ Marks.lt_size_of_isOpen hm)

/-- **The marked records are exactly the kept ones.** -/
theorem contains_kept_iff : (f.kept roots).contains n = true ↔ Kept f roots n := by
  have hbits : (f.givenUp roots).bits.size = f.size := by
    rw [givenUp, size_giveUpRounds, Marks.none, Array.size_replicate]
  have hcontains : (f.kept roots).contains n = true ↔
      n < f.size ∧ ¬ (f.givenUp roots).contains n = true := by
    simp only [kept, Marks.contains, Array.getD_eq_getD_getElem?, Array.getElem?_map]
    by_cases hn : n < f.size <;> simp [hn, hbits]
  rw [hcontains]
  constructor
  · rintro ⟨hn, hnot⟩
    exact ⟨hn, fun hgiven => hnot ((contains_givenUp_iff hn).2 hgiven)⟩
  · rintro ⟨hn, hnot⟩
    exact ⟨hn, fun hgone => hnot ((contains_givenUp_iff hn).1 hgone)⟩

instance (f : Forest) (roots : List NodeId) (n : NodeId) : Decidable (Kept f roots n) :=
  decidable_of_iff _ contains_kept_iff

/-! ## Reading links upward -/

/-- The holder that a node's link leads to, if that holder is among the kept nodes. -/
def parent? (f : Forest) (kept : Marks) (n : NodeId) : Option NodeId :=
  (f.link n).filter kept.contains

/-- The chain of holders above a node, nearest first, up to the given length. -/
def ancestorsWithin (f : Forest) (kept : Marks) : Nat → NodeId → List NodeId
  | 0, _ => []
  | height + 1, n =>
    match f.parent? kept n with
    | none => []
    | some p => p :: ancestorsWithin f kept height p

/-- The chain of holders above a node, nearest first. -/
def ancestors (f : Forest) (kept : Marks) (n : NodeId) : List NodeId :=
  f.ancestorsWithin kept f.size n

end SyntaxForest.Forest
