import SyntaxForest.Forest.Compare
import SyntaxForest.Forest.Copy
import SyntaxForest.Forest.Integrity
import SyntaxForest.Forest.Query
import SyntaxForest.Forest.Replace
import SyntaxForest.Session.Build
import SyntaxForest.Session.Recorder
import SyntaxForest.Session.Render

/-!
# Performing actions

An action is looked at before it is performed: all that it names has to exist, and a field or
scalar that it asks for has to be one of the kind in question. Otherwise it is refused and
nothing has happened. Only then the node is viewed as the kind that was asked for, which may
be an error, and the operation is performed on the forest, which may be another.

Two things are looked at only after the view: what a scalar is set to, and what an operation
on a sequence works with. So a target of the wrong kind is an error there even if the rest of
the action makes no sense.
-/

namespace SyntaxForest.Act

/-! ## Targets -/

/-- The node or draft that a reference stands for. -/
def holder (r : Ref) : Act NodeId := do require ((← get).target? r)

/-- The kind as which a target is to be viewed: its own, unless another is asked for. -/
def viewedKind (t : Target) (n : NodeId) : Act Kind := do
  return t.view.getD ((← forest).kind n)

/-- Views a node as one of kind `k`. A draft of another kind makes no sense. -/
def view (n : NodeId) (k : Kind) : Act Unit := do
  let f ← forest
  if (f.record n).assembled then lift (f.expectKind n k)
  else unless f.kind n = k do refuse

/-- The target, if it is to be viewed as a kind that has the field. -/
def holderOf (t : Target) (field : Field) : Act (NodeId × Kind) := do
  let n ← holder t.ref
  let k ← viewedKind t n
  unless k.declaresOwn field do refuse
  return (n, k)

/-- The target, viewed as a kind that has the field. -/
def viewedHolderOf (t : Target) (field : Field) : Act NodeId := do
  let (n, k) ← holderOf t field
  view n k
  return n

/-! ## Actions that answer a node -/

/-- Constructs a node at a location. -/
def constructAt (f : Forest) (l : Location) :
    Construction NodeId → Except Error NodeId × Forest
  | .reference name => f.newReference l name
  | .integer value => f.newInteger l value
  | .string value => f.newString l value
  | .boolean value => f.newBool l value
  | .binary op left right => f.newBinary l op left right
  | .invocation target arguments => f.newInvocation l target arguments
  | .expressionStatement expression => f.newExpressionStatement l expression
  | .block statements => f.newBlock l statements
  | .macroStatement name arguments => f.newMacroStatement l name arguments
  | .modifier type condition => f.newModifier l type condition
  | .returnStatement expression => f.newReturn l expression

/-- The element of a sequence that is meant. -/
def pick (xs : List NodeId) : Element → Option NodeId
  | .first => xs.head?
  | .last => xs.getLast?
  | .nth i => xs[i]?

/-- Finds or makes the node that an action answers. -/
def find : NodeAction → Act (Option NodeId)
  | .build spec => return some (← build spec)
  | .assemble name location => do
    match (← get).handles.get? name with
    | some (.draft d) =>
      modify (·.unbind name)
      setForest ((← forest).assemble d (location.getD {}))
      return some d
    | _ => refuse
  | .held r => return some (← node r)
  | .construct c => do
    let s ← get
    let c ← require (c.resolve? s.node?)
    let (outcome, f) := constructAt s.forest s.builder c
    setForest f
    return some (← lift outcome)
  | .occupant t field => do
    let n ← viewedHolderOf t (.single field)
    if field.isLazy then
      let (b, f) := (← forest).body n
      setForest f
      return some b
    else
      return (← forest).single n field
  | .element t field e => do
    let n ← viewedHolderOf t (.sequence field)
    return pick ((← forest).sequence n field) (← require e)
  | .removeAt t field index => do
    let n ← viewedHolderOf t (.sequence field)
    return some (← mutate (.removeAt n field (← require index)))
  | .parent r => do
    let n ← node r
    let s ← get
    return s.forest.parent? s.kept n
  | .modifier r => do
    let n ← node r
    return (← forest).modifier n
  | .copy r => do
    let n ← node r
    let (c, f) := (← forest).copy n
    setForest f
    return some c
  | .annotated r key => do
    let n ← node r
    let s ← get
    return ((s.forest.annotationAt n key).bind (·.node?)).filter s.kept.contains
  | .nodeAt r p => do
    let n ← node r
    let (found, f) := (← forest).nodeAt n p
    setForest f
    return found
  | .scopeAt r p => do
    let n ← node r
    let s ← get
    let (found, f) := s.forest.scopeAt s.kept n p
    setForest f
    return found
  | .enclosingScope r => do
    let n ← node r
    let s ← get
    return s.forest.enclosingScope s.kept n

/-! ## Other actions -/

/-- The labels of nodes. -/
def labels (ns : List NodeId) : Act (List String) := do
  let s ← get
  return ns.map s.label

/-- A value as it appears in an answer. -/
def shown (v : Option (AnnotationValue NodeId)) : Act (Option ShownValue) := do
  let s ← get
  return v.map s.showValue

/-- A value seen as each of the types that it could have. -/
def views (v : AnnotationValue NodeId) : Act Views := do
  let s ← get
  return {
    flag := v.flag?
    integer := v.integer?
    text := v.text?
    node := (v.node?.filter s.kept.contains).map s.label
    length := v.list?.map List.length }

/-- Changes the record of a node. -/
def amend (r : Ref) (g : Record → Record) : Act Answer := do
  let n ← node r
  setForest ((← forest).update n g)
  return .done

/-- The record of a node. -/
def recordOf (r : Ref) : Act Record := do
  let n ← node r
  return (← forest).record n

/-- The store that a handle stands for. -/
def store (name : String) : Act Annotations := do require ((← get).store? name)

/-- Performs an action. -/
def perform : Action → Act Answer
  | .malformed => refuse
  | .answer a name => do
    match ← find a with
    | none => return .label none
    | some n =>
      let l := (← get).label n
      if let some name := name then modify (·.bind name (.node n))
      return .label (some l)
  -- handles
  | .newDraft kind scalar name => do
    let head ← require <| match scalar with
      | none => some (Head.ofKind kind)
      | some v => Head.ofLiteral? kind v
    let (d, f) := (← forest).draft head
    setForest f
    modify (·.bind name (.draft d))
    return .text head.text
  | .drop name => do
    let _ ← require ((← get).handles.get? name)
    modify (·.unbind name)
    return .done
  | .setBuilder l => do
    modify ({ · with builder := l })
    return .location l
  -- one node through its kind
  | .cast r k => do
    let n ← node r
    return .flag ((← forest).kind n == k)
  | .expectKind r k => do
    let n ← node r
    lift ((← forest).expectKind n k)
    return .done
  | .getScalar t => do
    let n ← holder t.ref
    view n (← viewedKind t n)
    let h := ((← forest).record n).head
    return .scalar (← require h.literal?) (h.scalarText?.getD "")
  | .setScalar t v => do
    let n ← holder t.ref
    let k ← viewedKind t n
    unless k.hasScalar do refuse
    view n k
    let h ← require (v.bind (Head.ofLiteral? k))
    setForest ((← forest).update n fun r => { r with head := h })
    return .done
  | .assign t field child => do
    let (n, k) ← holderOf t (.single field)
    let x ← node? child
    view n k
    mutate (.assign n field x)
    return .done
  | .hasBody r => do
    let n ← holder r
    view n .macroStatement
    return .flag ((← forest).single n .block).isSome
  -- sequences
  | .edit t field e => do
    let n ← viewedHolderOf t (.sequence field)
    let s ← get
    let e ← require (e.bind (·.resolve? s.node?))
    match ← mutate (.edit n field e) with
    | .done => return .texts (← labels ((← forest).sequence n field))
    | .found b => return .flag b
    | .removed x => return .label (some ((← get).label x))
  | .elements t field => do
    let n ← viewedHolderOf t (.sequence field)
    return .texts (← labels ((← forest).sequence n field))
  | .position t field child => do
    let n ← viewedHolderOf t (.sequence field)
    let x ← node (← require child)
    return .index ((← forest).position? n field x)
  | .contains t field child => do
    let n ← viewedHolderOf t (.sequence field)
    let x ← node (← require child)
    return .flag ((← forest).position? n field x).isSome
  | .sequenceInfo t field => do
    let n ← viewedHolderOf t (.sequence field)
    let s ← get
    return .sequenceInfo {
      holder := s.forest.kind n
      field := field
      owner := (s.forest.owner n (.sequence field)).map s.label
      length := (s.forest.sequence n field).length }
  -- any node
  | .kindOf r => return .kind (← recordOf r).kind
  | .location r => return .location (← recordOf r).location
  | .setLocation r l => amend r ({ · with location := l })
  | .endPosition r => return .position (← recordOf r).endPosition
  | .setEndPosition r p => amend r ({ · with endPosition := p })
  | .documentation r => return .optionalText (← recordOf r).documentation
  | .setDocumentation r t => amend r ({ · with documentation := t })
  | .isChildOf r other => do
    let n ← node r
    let p ← node other
    return .flag ((← forest).link n == some p)
  | .same r other => do
    let n ← node r
    let m ← node other
    return .flag (n == m)
  | .ancestors r => do
    let n ← node r
    let s ← get
    return .texts (← labels (s.forest.ancestors s.kept n))
  | .children r => do
    let n ← node r
    return .texts (← labels ((← forest).children n))
  | .setModifier r child => do
    let n ← node r
    let x ← node? child
    mutate (.assign n .modifier x)
    return .done
  | .replaceChild r child replacement => do
    let n ← node r
    let x ← node child
    let y ← node replacement
    return .flag (← mutate (.replaceChild n x y))
  | .clearBindings r => do
    let n ← node r
    setForest ((← forest).clearBindings n)
    return .done
  | .verifyLinks r => do
    let n ← node r
    let (outcome, f) := (← forest).verifyLinks n
    setForest f
    lift outcome
    return .done
  -- trees
  | .count r => do
    let n ← node r
    return .count ((← forest).preorder n).length
  | .visit r recorder stop => do
    let n ← node r
    let f ← forest
    return .texts ((recorder.table f stop).accept f n)
  | .visitChildren r recorder stop => do
    let n ← node r
    let f ← forest
    return .texts ((recorder.table f stop).acceptChildren f n)
  | .render r => do
    let n ← node r
    return .text ((← get).render n)
  | .dump r => do
    let n ← node r
    return .rows ((← get).rows n)
  | .matchNodes left right => do
    let x ← node? left
    let y ← node? right
    let (b, f) := (← forest).matchOptional x y
    setForest f
    return .flag b
  | .mismatch left right => do
    let x ← node left
    let y ← node right
    return .mismatch ((← forest).mismatch? x y)
  -- annotations and stores of annotations
  | .annotate r key v => do
    let n ← node r
    let v ← value v
    let f ← forest
    setForest (f.annotate n key v)
    return .value (← shown (f.annotationAt n key))
  | .annotationAt r key => do
    let n ← node r
    return .value (← shown ((← forest).annotationAt n key))
  | .dropAnnotationAt r key => do
    let n ← node r
    let f ← forest
    setForest (f.dropAnnotationAt n key)
    return .value (← shown (f.annotationAt n key))
  | .hasAnnotationAt r key => do
    let n ← node r
    return .flag ((← forest).annotationAt n key).isSome
  | .annotationKeys r => return .texts ((← recordOf r).annotations.elim [] Dictionary.keys)
  | .hasAnnotations r => return .flag (← recordOf r).annotations.isSome
  | .annotationViews r key => do
    let n ← node r
    match (← forest).annotationAt n key with
    | none => return .views none
    | some v => return .views (some (← views v))
  | .sameAnnotations r key other otherKey => do
    let n ← node r
    let m ← node other
    let f ← forest
    return .flag (f.annotationAt n key == f.annotationAt m otherKey)
  | .takeStore none name => do
    modify (·.bind name (.store .empty))
    return .index (some 0)
  | .takeStore (some r) name => do
    match (← recordOf r).annotations with
    | none => return .index none
    | some a =>
      modify (·.bind name (.store a))
      return .index (some a.size)
  | .storeInsert name key v => do
    let a ← store name
    let v ← value v
    modify (·.bind name (.store (a.insert key v)))
    return .value (← shown (a.get? key))
  | .storeErase name key => do
    let a ← store name
    modify (·.bind name (.store (a.erase key)))
    return .value (← shown (a.get? key))
  | .storeGet name key => do
    let a ← store name
    return .storeEntry (← shown (a.get? key))
  | .storeInfo name => return .storeInfo (← store name).keys
  | .sameStores name other => do
    let a ← store name
    let b ← store other
    return .flag (a == b)
  -- queries and plain values
  | .ancestry r => do
    let n ← node r
    let s ← get
    return .texts ((s.forest.ancestry s.kept n).map Kind.name)
  | .summary r => do
    let n ← node r
    return .summary ((← forest).summary n)
  | .locationInfo l => return .locationInfo l
  | .locationContains l p => return .flag (l.contains p)
  | .comparePositions p q => return .ordering (p.compare q)
  | .kinds => return .kinds Kind.all
  | .accepts c k => return .flag (c.accepts k)

end SyntaxForest.Act
