import SyntaxForest.Forest.Replace

/-!
# Substitution throughout a tree

`replaceAll` offers every node below a root to a client, which answers with a replacement or
with nothing. A replaced node's place is taken by the replacement at once, and neither the old
nor the new subtree is entered. The first replacement that does not fit ends the walk; what
was replaced before stays replaced.

As with every walk with a client, the children of a node are taken when the walk comes to it,
and the client is told which nodes the walk holds on to.
-/

namespace SyntaxForest.Forest

/-- Answers an offered node. The first argument are the nodes that the walk holds on to. -/
abbrev Offer (σ : Type) := List NodeId → NodeId → Forest × σ → Option NodeId × (Forest × σ)

/-- How far a substitution has come. -/
structure Substitution (σ : Type) where
  forest : Forest
  client : σ
  count : Nat := 0

/-- Offers the given children of `p` one after the other, entering those that stay. -/
def offerSiblings {σ : Type} (offer : Offer σ)
    (enter : List NodeId → NodeId → Substitution σ → Except Error Unit × Substitution σ)
    (held : List NodeId) (p : NodeId) :
    List NodeId → Substitution σ → Except Error Unit × Substitution σ
  | [], s => (.ok (), s)
  | c :: rest, s =>
    match offer (c :: rest ++ held) c (s.forest, s.client) with
    | (some x, f, client) =>
      match (Mutation.replaceChild p c x).perform f with
      | (.error e, g) => (.error e, { s with forest := g, client := client })
      | (.ok replaced, g) =>
        offerSiblings offer enter held p rest
          { forest := g, client := client, count := if replaced then s.count + 1 else s.count }
    | (none, f, client) =>
      match enter (c :: rest ++ held) c { s with forest := f, client := client } with
      | (.error e, s) => (.error e, s)
      | (.ok (), s) => offerSiblings offer enter held p rest s

/-- Offers everything below a node, down to the given number of levels. -/
def offerBelow {σ : Type} (offer : Offer σ) :
    Nat → List NodeId → NodeId → Substitution σ → Except Error Unit × Substitution σ
  | 0, _, _, s => (.ok (), s)
  | depth + 1, held, p, s =>
    offerSiblings offer (offerBelow offer depth) held p (s.forest.children p) s

/-- Offers everything below `root` and puts the replacements in place. Answers how many
nodes were replaced. What is held before the walk stays held. -/
def replaceAll {σ : Type} (offer : Offer σ) (depth : Nat) (held : List NodeId) (root : NodeId)
    (s : Forest × σ) : Except Error Nat × (Forest × σ) :=
  match offerBelow offer depth (root :: held) root { forest := s.1, client := s.2 } with
  | (.error e, t) => (.error e, t.forest, t.client)
  | (.ok (), t) =>
    (.ok t.count,
      t.forest.note (.substitutionFinished (t.forest.kind root) t.count), t.client)

end SyntaxForest.Forest
