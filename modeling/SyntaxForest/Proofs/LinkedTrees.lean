import SyntaxForest.Forest.Walk
import SyntaxForest.Proofs.Subtrees

/-!
# Linked trees

A subtree is *linked* when the link of every node in it leads to the node that holds it, and
nothing in it holds its root. This is little to ask for, and enough to make it a tree: a node has
one link, hence one holder. So no way down comes back to where it began (`Linked.acyclic`), and
what lies below two different children of a node lies apart (`Linked.siblings_apart`).

The link check goes down as many levels as there are records. That it sees all of a subtree has to
be shown, since it is the check that is to tell us that the subtree is a tree: a way down through
checked links does not meet a node twice, and so does not go deeper (`fitsWithin_of_unbroken`).

Main statement: `linked_iff`, a subtree whose root is not held in it is linked just in case the
check passes.
-/

namespace SyntaxForest.Forest

variable {f g : Forest} {n m p q c d : NodeId}

/-! ## Ways down -/

instance (f : Forest) (n : NodeId) (P : NodeId → Prop) [DecidablePred P] :
    Decidable (∀ m, f.Below n m → P m) :=
  decidable_of_iff (∀ m < f.size, f.Below n m → P m)
    ⟨fun h m hm => h m hm.lt_size hm, fun h m _ => h m⟩

/-- The last step of a way down. -/
theorem Below.eq_or_held (h : f.Below n m) : m = n ∨ ∃ q, f.Below n q ∧ m ∈ f.children q := by
  cases h with
  | root hr _ => exact .inl (List.mem_singleton.1 hr)
  | held hq hc _ => exact .inr ⟨_, hq, hc⟩

/-- The first step of a way down. -/
theorem Below.eq_or_child (h : f.Below n m) : m = n ∨ ∃ c ∈ f.children n, f.Below c m := by
  induction h with
  | root hr _ => exact .inl (List.mem_singleton.1 hr)
  | @held q k _ hk hlt ih =>
    rcases ih with rfl | ⟨c, hc, hq⟩
    · exact .inr ⟨k, hk, .refl hlt⟩
    · exact .inr ⟨c, hc, .held hq hk hlt⟩

/-- Fewer levels are left further down. -/
theorem FitsWithin.of_below : ∀ {depth : Nat} {n m : NodeId}, f.FitsWithin depth n →
    f.Below n m → ∃ less, less ≤ depth ∧ f.FitsWithin less m := by
  intro depth
  induction depth with
  | zero => intro n m hn _; exact hn.elim
  | succ depth ih =>
    intro n m hn hm
    rcases hm.eq_or_child with rfl | ⟨c, hc, hm⟩
    · exact ⟨depth + 1, Nat.le_refl _, hn⟩
    · obtain ⟨less, hle, hfits⟩ := ih (hn c hc) hm
      exact ⟨less, Nat.le_succ_of_le hle, hfits⟩

/-- Where there is an end to going down, there is no way back. -/
theorem FitsWithin.not_below : ∀ (depth : Nat) {n c : NodeId}, f.FitsWithin depth n →
    c ∈ f.children n → ¬ f.Below c n := by
  intro depth
  induction depth using Nat.strongRecOn with
  | _ depth ih =>
    intro n c hn hc hback
    cases depth with
    | zero => exact hn
    | succ depth =>
      obtain ⟨less, hle, hfits⟩ := (hn c hc).of_below hback
      exact ih less (Nat.lt_succ_of_le hle) hfits hc hback

/-! ## Linked subtrees -/

/-- Every node below `n` is linked to the node that holds it, and nothing there holds `n`. -/
structure Linked (f : Forest) (n : NodeId) : Prop where
  linked : ∀ m, f.Below n m → ∀ c ∈ f.children m, f.link c = some m
  unheld : ∀ m, f.Below n m → n ∉ f.children m

/-- A node has one holder. -/
theorem Linked.holder_unique (h : f.Linked n) (hp : f.Below n p) (hq : f.Below n q)
    (hcp : c ∈ f.children p) (hcq : c ∈ f.children q) : p = q :=
  Option.some.inj ((h.linked p hp c hcp).symm.trans (h.linked q hq c hcq))

/-! ## The link check -/

/-- A level without broken links: every child is linked, and has no broken link below it. -/
theorem brokenWithin_succ_eq_none {depth : Nat} : f.brokenWithin (depth + 1) n = none ↔
    ∀ c ∈ f.children n, f.link c = some n ∧ f.brokenWithin depth c = none := by
  rw [brokenWithin, List.findSome?_eq_none_iff]
  refine forall₂_congr fun c _ => ?_
  by_cases hlink : f.link c = some n <;> simp [hlink]

/-- The nodes on the way up from a node along the links, as far as `top`; none of them twice. -/
inductive ClimbsTo (f : Forest) (top : NodeId) : List NodeId → Prop
  | top : ClimbsTo f top [top]
  | step {c m : NodeId} {l : List NodeId} : ClimbsTo f top (m :: l) → f.link c = some m →
    c ∉ m :: l → ClimbsTo f top (c :: m :: l)

/-- Each step asks that the node has not been met before. -/
theorem ClimbsTo.nodup {l : List NodeId} (h : ClimbsTo f p l) : l.Nodup := by
  induction h with
  | top => exact List.nodup_singleton p
  | step _ _ hnot ih => exact List.nodup_cons.2 ⟨hnot, ih⟩

/-- Every node on the way but the last is linked to a node further up. -/
theorem ClimbsTo.eq_or_link {l : List NodeId} (h : ClimbsTo f p l) :
    ∀ c ∈ l, c = p ∨ ∃ q ∈ l.tail, f.link c = some q := by
  induction h with
  | top => exact fun c hc => .inl (List.mem_singleton.1 hc)
  | @step d m l _ hlink _ ih =>
    intro c hc
    rcases List.mem_cons.1 hc with rfl | hc
    · exact .inr ⟨m, List.mem_cons_self, hlink⟩
    · refine (ih c hc).imp_right ?_
      rintro ⟨q, hq, hlink⟩
      exact ⟨q, List.mem_cons_of_mem _ hq, hlink⟩

/-- A way down through checked links meets no node twice, so that there is an end to it. -/
theorem fitsWithin_of_unbroken (hclosed : f.Closed)
    (hunheld : ∀ m, f.Below p m → p ∉ f.children m) : ∀ (depth : Nat) (n : NodeId)
    (l : List NodeId), ClimbsTo f p (n :: l) → (∀ q ∈ n :: l, f.Below p q) →
    f.size < (n :: l).length + depth → f.brokenWithin depth n = none → f.FitsWithin depth n := by
  intro depth
  induction depth with
  | zero =>
    intro n l hclimbs hbelow hlength _
    -- more nodes than there are records
    have hsubset : (n :: l).toFinset ⊆ Finset.range f.size := by
      intro q hq
      exact Finset.mem_range.2 (hbelow q (List.mem_toFinset.1 hq)).lt_size
    have hcard := Finset.card_le_card hsubset
    rw [List.toFinset_card_of_nodup hclimbs.nodup, Finset.card_range] at hcard
    omega
  | succ depth ih =>
    intro n l hclimbs hbelow hlength hunbroken c hc
    obtain ⟨hlink, hunbroken⟩ := brokenWithin_succ_eq_none.1 hunbroken c hc
    have hn := hbelow n List.mem_cons_self
    have hnew : c ∉ n :: l := by
      intro hmem
      rcases hclimbs.eq_or_link c hmem with rfl | ⟨q, hq, hlinkq⟩
      · exact hunheld n hn hc
      · obtain rfl := Option.some.inj (hlink.symm.trans hlinkq)
        exact (List.nodup_cons.1 hclimbs.nodup).1 hq
    refine ih c (n :: l) (.step hclimbs hlink hnew) ?_ ?_ hunbroken
    · exact List.forall_mem_cons.2 ⟨.held hn hc (hclosed n c hc), hbelow⟩
    · rw [List.length_cons]
      omega

/-- Where no broken link is found and the depth suffices, every child is linked to its holder. -/
theorem linked_of_unbroken : ∀ (depth : Nat) (n : NodeId), f.FitsWithin depth n →
    f.brokenWithin depth n = none → ∀ m, f.Below n m → ∀ c ∈ f.children m, f.link c = some m := by
  intro depth
  induction depth with
  | zero => intro n hn; exact hn.elim
  | succ depth ih =>
    intro n hfits hunbroken m hm c hc
    rw [brokenWithin_succ_eq_none] at hunbroken
    rcases hm.eq_or_child with rfl | ⟨d, hd, hm⟩
    · exact (hunbroken c hc).1
    · exact ih d (hfits d hd) (hunbroken d hd).2 m hm c hc

/-- The check succeeds just if it comes upon no broken link. -/
theorem verifyLinks_eq_ok_iff : f.verifyLinks n = (.ok (), f) ↔ f.brokenLink? n = none := by
  unfold verifyLinks
  cases f.brokenLink? n <;> simp

theorem fitsWithin_of_brokenLink? (hclosed : f.Closed) (hn : n < f.size)
    (hunheld : ∀ m, f.Below n m → n ∉ f.children m) (hunbroken : f.brokenLink? n = none) :
    f.FitsWithin f.size n := by
  refine fitsWithin_of_unbroken hclosed hunheld f.size n [] .top ?_ ?_ hunbroken
  · intro q hq
    rw [List.mem_singleton.1 hq]
    exact .refl hn
  · rw [List.length_singleton]
    omega

/-- **A subtree is linked just in case the link check passes**, if its root is not held in it. -/
theorem linked_iff (hclosed : f.Closed) (hn : n < f.size)
    (hunheld : ∀ m, f.Below n m → n ∉ f.children m) :
    f.Linked n ↔ f.verifyLinks n = (.ok (), f) := by
  constructor
  · exact fun h => verifyLinks_eq_ok hn hclosed h.linked
  · intro hverified
    have hunbroken := verifyLinks_eq_ok_iff.1 hverified
    have hfits := fitsWithin_of_brokenLink? hclosed hn hunheld hunbroken
    exact ⟨linked_of_unbroken f.size n hfits hunbroken, hunheld⟩

/-! ## Linked subtrees are trees -/

namespace Linked

theorem fitsWithin (h : f.Linked n) (hclosed : f.Closed) (hn : n < f.size) :
    f.FitsWithin f.size n :=
  fitsWithin_of_brokenLink? hclosed hn h.unheld (brokenWithin_eq_none f.size n hn hclosed h.linked)

/-- No way down comes back to where it began. -/
theorem acyclic (h : f.Linked n) (hclosed : f.Closed) (hn : n < f.size) : f.AcyclicBelow n := by
  intro m hm c hc
  obtain ⟨less, -, hfits⟩ := (h.fitsWithin hclosed hn).of_below hm
  exact hfits.not_below less hc

/-- What lies below two children of a node lies below one of them only. -/
theorem siblings_apart (h : f.Linked n) (hclosed : f.Closed) (hn : n < f.size)
    (hp : f.Below n p) (hc : c ∈ f.children p) (hd : d ∈ f.children p) (hcm : f.Below c m)
    (hdm : f.Below d m) : c = d := by
  have hc' : f.Below n c := .held hp hc (hclosed p c hc)
  have hd' : f.Below n d := .held hp hd (hclosed p d hd)
  have hacyclic := h.acyclic hclosed hn p hp
  -- up from `m` there is one way only, and it comes to `p` through the last of the two
  induction hcm with
  | root hr _ =>
    obtain rfl := List.mem_singleton.1 hr
    rcases hdm.eq_or_held with rfl | ⟨q, hq, hcq⟩
    · rfl
    · obtain rfl := h.holder_unique hp (hd'.trans hq) hc hcq
      exact absurd hq (hacyclic d hd)
  | @held q m hq hm _ ih =>
    rcases hdm.eq_or_held with rfl | ⟨r, hr, hmr⟩
    · obtain rfl := h.holder_unique hp (hc'.trans hq) hd hm
      exact absurd hq (hacyclic c hc)
    · obtain rfl := h.holder_unique (hc'.trans hq) (hd'.trans hr) hm hmr
      exact ih hr

end Linked

/-! ## Listings -/

/-- A listing has nodes of the subtree only. -/
theorem below_of_mem_preorderWithin (hclosed : f.Closed) : ∀ (depth : Nat) {n : NodeId},
    n < f.size → m ∈ f.preorderWithin depth n → f.Below n m := by
  intro depth
  induction depth with
  | zero => intro n _ hm; exact absurd hm List.not_mem_nil
  | succ depth ih =>
    intro n hn hm
    rcases List.mem_cons.1 hm with rfl | hm
    · exact .refl hn
    · obtain ⟨c, hc, hm⟩ := List.mem_flatMap.1 hm
      have hlt := hclosed n c hc
      exact (Below.child hn hc hlt).trans (ih hlt hm)

/-- More levels than there are make no difference to a listing. -/
theorem preorderWithin_eq_of_le : ∀ (depth more : Nat) {n : NodeId}, f.FitsWithin depth n →
    depth ≤ more → f.preorderWithin more n = f.preorderWithin depth n := by
  intro depth
  induction depth with
  | zero => intro more n hn; exact hn.elim
  | succ depth ih =>
    intro more n hn hle
    obtain ⟨more, rfl⟩ : ∃ k, more = k + 1 := ⟨more - 1, by omega⟩
    have hbelow : (f.children n).flatMap (f.preorderWithin more) =
        (f.children n).flatMap (f.preorderWithin depth) :=
      List.flatMap_congr fun c hc => ih more (hn c hc) (by omega)
    rw [preorderWithin, preorderWithin, hbelow]

/-- Listing down to a depth that suffices lists the whole subtree. -/
theorem preorderWithin_eq_preorder {depth : Nat} (hn : f.FitsWithin depth n)
    (hsize : f.FitsWithin f.size n) : f.preorderWithin depth n = f.preorder n := by
  rcases Nat.le_total depth f.size with hle | hle
  · exact (preorderWithin_eq_of_le depth f.size hn hle).symm
  · exact preorderWithin_eq_of_le f.size depth hsize hle

end SyntaxForest.Forest
