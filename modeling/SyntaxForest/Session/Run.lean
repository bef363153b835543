import SyntaxForest.Forest.Substitution
import SyntaxForest.Forest.Walk
import SyntaxForest.Session.Perform

/-!
# Running commands

`Session.run` runs one command on a session. Commands that run others are given the depth to
which they may do so. The same number bounds how far walks go down, since the commands run on
the way may make the tree deeper.

A logged command takes the events that it answers out of the journal, so that of two, one
inside the other, the inner one alone answers what happened while it ran.

Walking a tree with rules, the session gives each node that the walk hands over to the first
rule whose conditions it meets. While the rule is at work the node is held by the handle `$`,
and what the walk holds on to counts as held by the user.
-/

namespace SyntaxForest.Session

/-- The handle of the node that a rule is at work on. -/
def current : String := "$"

/-- Whether a node meets the conditions of a rule. -/
def meets (s : Session) (n : NodeId) : Rule → Bool
  | .mk kindName text is _ _ =>
    let h := (s.forest.record n).head
    kindName.all (· == h.kind.name) && text.all (· == h.text) && is.all (s.node? · == some n)

/-- Makes the replacement that a rule asks for. One that fails is none. -/
def replacement (s : Session) : Replacement → Option NodeId × Session
  | .none => (none, s)
  | .spec spec => (Act.build spec).run? s
  | .copyOf r =>
    match s.node? r with
    | none => (none, s)
    | some n =>
      let (c, f) := s.forest.copy n
      (some c, s.withForest f)

/-- Runs commands one after the other. -/
def runAll (run : Session → Command → Answer × Session) :
    List Command → Session → List Answer × Session
  | [], s => ([], s)
  | c :: cs, s =>
    let (a, s) := run s c
    let (as, s) := runAll run cs s
    (a :: as, s)

/-- Runs commands again and again; answers the last round. -/
def runAgain (run : Session → Command → Answer × Session) (commands : List Command) :
    Nat → Option (List Answer) → Session → Option (List Answer) × Session
  | 0, last, s => (last, s)
  | times + 1, _, s =>
    let (as, s) := runAll run commands s
    runAgain run commands times (some as) s

/-- Gives a node to the first rule whose conditions it meets. -/
def applyRules (run : Session → Command → Answer × Session) (rules : List Rule) (n : NodeId)
    (s : Session) : Option NodeId × Session :=
  match rules.find? (s.meets n) with
  | none => (none, s)
  | some (.mk _ _ _ commands wanted) =>
    let (_, s) := runAll run commands (s.bind current (.node n))
    let (x, s) := s.replacement wanted
    (x, s.unbind current)

/-- A session in the middle of a walk, and the texts of the nodes handed over so far, the
last one first. The forest is with the walk. -/
abbrev Underway := Session × List String

/-- Gives a node that a walk hands over to the rules, noting its text. -/
def meet (run : Session → Command → Answer × Session) (rules : List Rule) (walking : List NodeId)
    (n : NodeId) (f : Forest) (u : Underway) : Option NodeId × (Forest × Underway) :=
  let s := u.1.withForest f
  let seen := (f.record n).head.text :: u.2
  let (x, t) := applyRules run rules n { s with walking := walking }
  (x, t.forest, { t with walking := s.walking, forest := {} }, seen)

/-- Takes out of the journal what came into it after the first `start` events. -/
def takeEvents (s : Session) (start : Nat) : List Event × Session :=
  let journal := s.forest.journal
  ((journal.drop start).toList, s.withForest { s.forest with journal := journal.take start })

/-- Runs a command, one inside the other down to the given depth. -/
def run : Nat → Session → Command → Answer × Session
  | 0, s, _ => (.refused, s)
  | depth + 1, s, command =>
    match command with
    | .act a => (Act.perform a).run s
    | .again times commands =>
      let (last, s) := runAgain (run depth) commands times none s
      (.rounds last, s)
    | .logged command =>
      let start := s.forest.journal.size
      let (a, s) := run depth s command
      let (events, s) := s.takeEvents start
      (.logged a (events.map Event.line), s)
    | .replaceAll r rules =>
      match s.node? r with
      | none => (.refused, s)
      | some root =>
        let offer : Forest.Offer Underway := fun walking n (f, u) =>
          meet (run depth) rules walking n f u
        let (outcome, f, u) := Forest.replaceAll offer depth s.walking root (s.forest, (s, []))
        (.substituted outcome u.2.reverse, u.1.withForest f)
    | .forEach r rules =>
      match s.node? r with
      | none => (.refused, s)
      | some root =>
        let visit (walking : List NodeId) (n : NodeId) (w : Forest × Underway) :=
          (meet (run depth) rules walking n w.1 w.2).2
        let (f, u) := Forest.forEach visit depth s.walking root (s.forest, (s, []))
        (.texts u.2.reverse, u.1.withForest f)

/-! ## Whole sessions -/

/-- Runs commands one after the other, and after each of them shows the watched nodes. -/
def transcript (depth : Nat) (watched : List (Option Ref)) :
    List Command → Session → List (Answer × List (Option String))
  | [], _ => []
  | c :: cs, s =>
    let (a, s) := run depth s c
    (a, watched.map fun r => (r.bind s.node?).map s.render) ::
      transcript depth watched cs s

end SyntaxForest.Session
