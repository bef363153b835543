/-!
# Positions and locations in source text

Lines and columns are 32-bit words. Line 0 never occurs in a file, so a location that
starts on line 0 marks a node that was not read from any file: it is *unknown* and
contains no position. A known location contains both of its end points, so that a caret
right after the last character still belongs to the node.
-/

namespace SyntaxForest

/-- A line and a column of a source file. -/
structure Position where
  line : UInt32 := 0
  column : UInt32 := 0
deriving DecidableEq, Repr, Inhabited

namespace Position

/-- The text `line:column`. -/
def text (p : Position) : String :=
  toString p.line.toNat ++ ":" ++ toString p.column.toNat

/-- Positions are ordered by line, then by column. -/
def compare (p q : Position) : Ordering :=
  (Ord.compare p.line q.line).then (Ord.compare p.column q.column)

/-- `p` is not after `q`. -/
def le (p q : Position) : Prop :=
  p.line < q.line ∨ p.line = q.line ∧ p.column ≤ q.column

instance : LE Position := ⟨le⟩

theorem le_def {p q : Position} :
    p ≤ q ↔ p.line < q.line ∨ p.line = q.line ∧ p.column ≤ q.column :=
  Iff.rfl

instance (p q : Position) : Decidable (p ≤ q) :=
  inferInstanceAs (Decidable (p.line < q.line ∨ p.line = q.line ∧ p.column ≤ q.column))

theorem le_refl (p : Position) : p ≤ p :=
  Or.inr ⟨rfl, UInt32.le_refl _⟩

theorem le_trans {p q r : Position} (h₁ : p ≤ q) (h₂ : q ≤ r) : p ≤ r := by
  rcases h₁ with h₁ | ⟨e₁, h₁⟩ <;> rcases h₂ with h₂ | ⟨e₂, h₂⟩
  · exact Or.inl (UInt32.lt_trans h₁ h₂)
  · exact Or.inl (e₂ ▸ h₁)
  · exact Or.inl (e₁ ▸ h₂)
  · exact Or.inr ⟨e₁.trans e₂, UInt32.le_trans h₁ h₂⟩

end Position

/-- A stretch of a source file. -/
structure Location where
  startOffset : UInt32 := 0
  endOffset : UInt32 := 0
  startLine : UInt32 := 0
  startColumn : UInt32 := 0
  endLine : UInt32 := 0
  endColumn : UInt32 := 0
  fileName : String := ""
deriving DecidableEq, Repr, Inhabited

namespace Location

/-- Where the stretch begins. -/
def first (l : Location) : Position := ⟨l.startLine, l.startColumn⟩

/-- Where the stretch ends. -/
def last (l : Location) : Position := ⟨l.endLine, l.endColumn⟩

/-- A location that starts on line 0 says nothing about a file. -/
def isUnknown (l : Location) : Bool := l.startLine == 0

/-- Whether the location is known and `p` lies in it, both ends included. -/
def contains (l : Location) (p : Position) : Bool :=
  !l.isUnknown && decide (l.first ≤ p) && decide (p ≤ l.last)

/-- A location reads as the position at which it begins. -/
def text (l : Location) : String := l.first.text

theorem contains_iff {l : Location} {p : Position} :
    l.contains p = true ↔ l.isUnknown = false ∧ l.first ≤ p ∧ p ≤ l.last := by
  simp [contains, and_assoc]

end Location

end SyntaxForest
