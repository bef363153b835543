import SyntaxForest.Mismatch

/-!
# The text of a mismatch

A mismatch goes into the journal as a line of text, and the line is all that a reader of the
journal has of it. So it should tell the mismatch: where the two trees differ, step by step, and
why.

It does, because the line can be read from left to right. Wherever a name, a number, a step or the
whole path has been written, the next character is one that cannot occur in it, or there is none.
So if two lines are equal, their first pieces are equal and what comes after them is equal too
(`MadeOf.append_inj`). It remains to look at the marks between the pieces, which are the same in
all lines, and at the pieces themselves: the names of kinds and parts are all different, and so are
the numerals of different numbers.

Main statement: `Mismatch.text_unambiguous`.
-/

namespace SyntaxForest

/-! ## Where a piece of text ends -/

section

variable {p q : Char → Bool} {s t u v mark : String}

/-- All characters of the text are of the class `p`. -/
def MadeOf (p : Char → Bool) (s : String) : Prop := s.toList.all p = true

/-- The text ends a piece made of `p` that stands before it: it begins with a character of another
class or is empty. -/
def Delimits (p : Char → Bool) (s : String) : Prop := ∀ c ∈ s.toList.head?, p c = false

instance : Decidable (MadeOf p s) := inferInstanceAs (Decidable (s.toList.all p = true))

/-- At the end of the text every piece ends. -/
theorem delimits_empty : Delimits p "" := by
  simp [Delimits]

/-- A mark ends the piece before it, whatever comes after the mark. -/
theorem delimits_mark (hmark : mark.toList.head?.map p = some false) : Delimits p (mark ++ u) := by
  obtain ⟨d, hd, hpd⟩ := Option.map_eq_some_iff.1 hmark
  intro c hc
  rw [String.toList_append, List.head?_append, hd, Option.some_or] at hc
  rwa [← Option.some.inj hc]

namespace MadeOf

/-- Pieces of one class make up a piece of that class. -/
theorem append (hs : MadeOf p s) (ht : MadeOf p t) : MadeOf p (s ++ t) := by
  rw [MadeOf, String.toList_append, List.all_append, hs, ht]
  rfl

/-- A wider class takes in the pieces of a narrower one. -/
theorem mono (hs : MadeOf p s) (h : ∀ c, p c = true → q c = true) : MadeOf q s :=
  List.all_eq_true.2 fun c hc => h c (List.all_eq_true.1 hs c hc)

/-- The piece is what one reads as long as the characters are of its class. -/
theorem takeWhile_append (hs : MadeOf p s) (hu : Delimits p u) :
    (s ++ u).toList.takeWhile p = s.toList := by
  have hend : u.toList.takeWhile p = [] := by
    cases hlist : u.toList with
    | nil => rfl
    | cons c cs =>
      have hc : p c = false := hu c (by rw [hlist]; rfl)
      rw [List.takeWhile_cons, hc]
      rfl
  rw [String.toList_append, List.takeWhile_append_of_pos (List.all_eq_true.1 hs), hend,
    List.append_nil]

/-- **A piece of text is known from where its class ends**, and with it what comes after. -/
theorem append_inj (hs : MadeOf p s) (ht : MadeOf p t) (hu : Delimits p u) (hv : Delimits p v)
    (h : s ++ u = t ++ v) : s = t ∧ u = v := by
  have hst : s.toList = t.toList := by
    rw [← hs.takeWhile_append hu, ← ht.takeWhile_append hv, h]
  obtain rfl := String.toList_inj.1 hst
  exact ⟨rfl, (String.append_right_inj s).1 h⟩

/-- Two pieces can be told from a text in which they stand between three fixed ones, if the one in
the middle ends the first piece. -/
theorem pair_inj {before after s' t' : String} (hs : MadeOf p s) (hs' : MadeOf p s')
    (hmark : mark.toList.head?.map p = some false)
    (h : before ++ s ++ mark ++ t ++ after = before ++ s' ++ mark ++ t' ++ after) :
    s = s' ∧ t = t' := by
  rw [String.append_left_inj, String.append_assoc, String.append_assoc, String.append_assoc,
    String.append_assoc, String.append_right_inj] at h
  obtain ⟨hfirst, hrest⟩ := hs.append_inj hs' (delimits_mark hmark) (delimits_mark hmark) h
  exact ⟨hfirst, (String.append_right_inj mark).1 hrest⟩

end MadeOf

end

/-! ## Names and numbers -/

/-- Letters, digits and the underscore: what names and numbers are made of. -/
def isNameChar (c : Char) : Bool := c.isAlphanum || c == '_'

/-- A name that can be read back is the name of one thing only. -/
theorem eq_of_name_eq {α : Type} {name : α → String} {ofName? : String → Option α}
    (hread : ∀ a, ofName? (name a) = some a) {a b : α} (h : name a = name b) : a = b := by
  rw [← Option.some_inj, ← hread a, ← hread b, h]

/-- Kinds have different names. -/
theorem Kind.name_inj {k l : Kind} (h : k.name = l.name) : k = l := eq_of_name_eq ofName?_name h

/-- No mark occurs in the name of a kind. -/
theorem Kind.madeOf_name (k : Kind) : MadeOf isNameChar k.name := by
  cases k <;> decide +kernel

/-- No single field is called like a sequence. -/
theorem SingleField.name_ne (s : SingleField) (t : SequenceField) : s.name ≠ t.name := by
  cases s <;> cases t <;> decide

/-- Fields have different names. -/
theorem Field.name_inj {φ ψ : Field} (h : φ.name = ψ.name) : φ = ψ := by
  cases φ with
  | single s =>
    cases ψ with
    | single t => rw [eq_of_name_eq SingleField.ofName?_name h]
    | sequence t => exact absurd h (s.name_ne t)
  | sequence s =>
    cases ψ with
    | single t => exact absurd h.symm (t.name_ne s)
    | sequence t => rw [eq_of_name_eq SequenceField.ofName?_name h]

theorem Field.madeOf_name (φ : Field) : MadeOf isNameChar φ.name := by
  rcases φ with s | s <;> cases s <;> decide +kernel

/-- No field is called like the scalar of a kind. -/
theorem Kind.scalarName_ne (k : Kind) (φ : Field) : k.scalarName?.getD "" ≠ φ.name := by
  rcases φ with s | s <;> cases s <;> cases k <;> decide

/-- Parts of one kind have different names. Those of different kinds may share one, which is why a
step is read from the left: the kind is known before the part. -/
theorem Part.name_inj {k : Kind} {a b : Part} (h : a.name k = b.name k) : a = b := by
  cases a with
  | scalar =>
    cases b with
    | scalar => rfl
    | field ψ => exact absurd h (k.scalarName_ne ψ)
  | field φ =>
    cases b with
    | scalar => exact absurd h.symm (k.scalarName_ne φ)
    | field ψ => rw [Field.name_inj h]

/-- No mark occurs in the name of a part. That of a scalar depends on the kind. -/
theorem Part.madeOf_name (k : Kind) (a : Part) : MadeOf isNameChar (a.name k) := by
  cases a with
  | scalar => cases k <;> decide +kernel
  | field φ => exact φ.madeOf_name

/-- Numbers are made of digits. -/
theorem madeOf_toString (n : Nat) : MadeOf isNameChar (toString n) := by
  refine List.all_eq_true.2 fun c hc => ?_
  rw [Nat.toString_eq_repr, Nat.toList_repr] at hc
  have hdigit : c.isDigit = true := Nat.isDigit_of_mem_toDigits (by decide) (by decide) hc
  rw [isNameChar, Char.isAlphanum, hdigit, Bool.or_true, Bool.true_or]

/-- A number is what its digits are read as. -/
theorem eq_of_toString_eq {i j : Nat} (h : toString i = toString j) : i = j := by
  have hdigits : Nat.toDigits 10 i = Nat.toDigits 10 j := by
    rw [← Nat.toList_repr, ← Nat.toList_repr, ← Nat.toString_eq_repr, ← Nat.toString_eq_repr, h]
  calc
    i = Nat.ofDigitChars 10 (Nat.toDigits 10 i) 0 := Nat.ofDigitChars_ten_toDigits.symm
    _ = Nat.ofDigitChars 10 (Nat.toDigits 10 j) 0 := by rw [hdigits]
    _ = j := Nat.ofDigitChars_ten_toDigits

/-! ## Steps -/

/-- What the text of a step is made of. -/
def isStepChar (c : Char) : Bool := isNameChar c || c == '.' || c == '[' || c == ']'

theorem MadeOf.step {s : String} (hs : MadeOf isNameChar s) : MadeOf isStepChar s := by
  refine hs.mono fun c hc => ?_
  simp only [isStepChar, hc, Bool.true_or]

namespace Step

/-- The index of a step in brackets, where there is one. -/
def indexText : Option Nat → String
  | some i => "[" ++ toString i ++ "]"
  | none => ""

/-- The text of a step in the order in which it is read: kind, dot, part, and the index if there is
one. -/
theorem text_eq (s : Step) :
    s.text = s.kind.name ++ ("." ++ (s.part.name s.kind ++ indexText s.index)) := by
  obtain ⟨k, a, _ | i⟩ := s <;> simp only [text, indexText, String.append_assoc]

/-- An index is known from its text, and so is that there is none. -/
theorem indexText_inj {i j : Option Nat} (h : indexText i = indexText j) : i = j := by
  cases i with
  | none =>
    cases j with
    | none => rfl
    | some j => simp [indexText] at h
  | some i =>
    cases j with
    | none => simp [indexText] at h
    | some j =>
      rw [indexText, indexText, String.append_left_inj, String.append_right_inj] at h
      rw [eq_of_toString_eq h]

/-- The name of a part ends at the bracket, or with the step. -/
theorem delimits_indexText (i : Option Nat) : Delimits isNameChar (indexText i) := by
  cases i with
  | none => exact delimits_empty
  | some i =>
    rw [indexText, String.append_assoc]
    exact delimits_mark (by decide)

/-- **A step is known from its text.** -/
theorem text_inj {s t : Step} (h : s.text = t.text) : s = t := by
  obtain ⟨k, a, i⟩ := s
  obtain ⟨l, b, j⟩ := t
  -- the name of the kind ends at the dot, that of the part at the bracket or with the text
  rw [text_eq, text_eq] at h
  obtain ⟨hkind, h⟩ := k.madeOf_name.append_inj l.madeOf_name
    (delimits_mark (by decide)) (delimits_mark (by decide)) h
  obtain rfl := Kind.name_inj hkind
  rw [String.append_right_inj] at h
  obtain ⟨hpart, hindex⟩ := (a.madeOf_name k).append_inj (b.madeOf_name k)
    (delimits_indexText i) (delimits_indexText j) h
  rw [Part.name_inj hpart, indexText_inj hindex]

/-- No blank occurs in a step, so that it ends where the next one is announced. -/
theorem madeOf_text (s : Step) : MadeOf isStepChar s.text := by
  have hindex : MadeOf isStepChar (indexText s.index) := by
    cases s.index with
    | none => decide
    | some i =>
      have hopen : MadeOf isStepChar "[" := by decide
      have hclose : MadeOf isStepChar "]" := by decide
      exact (hopen.append (madeOf_toString i).step).append hclose
  have hdot : MadeOf isStepChar "." := by decide
  rw [text_eq]
  exact s.kind.madeOf_name.step.append
    (hdot.append ((s.part.madeOf_name s.kind).step.append hindex))

theorem text_ne_empty (s : Step) : s.text ≠ "" := by
  rw [text_eq]
  simp

end Step

/-! ## Paths -/

/-- What the text of a path is made of. -/
def isPathChar (c : Char) : Bool := isStepChar c || c == ' ' || c == '>'

theorem MadeOf.path {s : String} (hs : MadeOf isStepChar s) : MadeOf isPathChar s := by
  refine hs.mono fun c hc => ?_
  simp only [isPathChar, hc, Bool.true_or]

/-- The steps of a path as they are written after a first one. -/
def onward : List Step → String
  | [] => ""
  | s :: path => " > " ++ (s.text ++ onward path)

/-- A step ends where the path goes on, or with the path. -/
theorem delimits_onward (path : List Step) : Delimits isStepChar (onward path) := by
  cases path with
  | nil => exact delimits_empty
  | cons s path => exact delimits_mark (by decide)

/-- No colon occurs in a path. -/
theorem madeOf_onward (path : List Step) : MadeOf isPathChar (onward path) := by
  induction path with
  | nil => decide
  | cons s path ih =>
    have hmark : MadeOf isPathChar " > " := by decide
    exact hmark.append (s.madeOf_text.path.append ih)

/-- The induction is on both paths at once: if their texts are equal, the first steps end at the
same place. -/
theorem onward_inj {path path' : List Step} (h : onward path = onward path') : path = path' := by
  induction path generalizing path' with
  | nil =>
    cases path' with
    | nil => rfl
    | cons t path' => simp [onward] at h
  | cons s path ih =>
    cases path' with
    | nil => simp [onward] at h
    | cons t path' =>
      rw [onward, onward, String.append_right_inj] at h
      obtain ⟨hstep, hrest⟩ := s.madeOf_text.append_inj t.madeOf_text
        (delimits_onward path) (delimits_onward path') h
      rw [Step.text_inj hstep, ih hrest]

namespace Mismatch

theorem pathText_nil {r : Reason} : (Mismatch.mk [] r).pathText = "" := by
  rw [pathText, List.map_nil, String.intercalate_nil]

/-- A path that goes somewhere is a first step and what is written after it. -/
theorem pathText_cons {s : Step} {path : List Step} {r : Reason} :
    (Mismatch.mk (s :: path) r).pathText = s.text ++ onward path := by
  rw [pathText]
  induction path generalizing s with
  | nil => simp [onward]
  | cons t path ih =>
    rw [List.map_cons, List.map_cons, String.intercalate_cons_cons, ← List.map_cons, ih, onward,
      String.append_assoc]

theorem madeOf_pathText (m : Mismatch) : MadeOf isPathChar m.pathText := by
  obtain ⟨path, r⟩ := m
  cases path with
  | nil =>
    rw [pathText_nil]
    decide
  | cons s path =>
    rw [pathText_cons]
    exact s.madeOf_text.path.append (madeOf_onward path)

/-- **A path is known from its text.** -/
theorem pathText_inj {m n : Mismatch} (h : m.pathText = n.pathText) : m.path = n.path := by
  obtain ⟨path, r⟩ := m
  obtain ⟨path', r'⟩ := n
  cases path with
  | nil =>
    cases path' with
    | nil => rfl
    | cons t path' =>
      rw [pathText_nil, pathText_cons] at h
      exact absurd h.symm (by simp [t.text_ne_empty])
  | cons s path =>
    cases path' with
    | nil =>
      rw [pathText_nil, pathText_cons] at h
      exact absurd h (by simp [s.text_ne_empty])
    | cons t path' =>
      rw [pathText_cons, pathText_cons] at h
      exact onward_inj (by rw [onward, onward, h])

end Mismatch

/-! ## Reasons -/

namespace Reason

/-- The character that the text of a reason begins with. -/
def initial : Reason → Char
  | kinds _ _ => '\x60'
  | values => 'v'
  | presence => 'p'
  | lengths _ _ => 'l'

/-- The sort of a reason shows in its first character. -/
theorem head?_text (r : Reason) : r.text.toList.head? = some r.initial := by
  cases r with
  | kinds left right =>
    unfold text
    simp [initial]
  | values => decide
  | presence => decide
  | lengths left right =>
    unfold text
    simp [initial]

/-- **A reason is known from its text.** -/
theorem text_inj {r r' : Reason} (h : r.text = r'.text) : r = r' := by
  -- reasons of different sorts begin with different characters
  have hinitial : r.initial = r'.initial := by
    rw [← Option.some_inj, ← head?_text, ← head?_text, h]
  cases r <;> cases r' <;> simp only [initial, Char.reduceEq] at hinitial
  case kinds.kinds k l k' l' =>
    obtain ⟨hleft, hright⟩ := k.madeOf_name.pair_inj k'.madeOf_name (by decide) h
    rw [Kind.name_inj hleft, Kind.name_inj hright]
  case values.values => rfl
  case presence.presence => rfl
  case lengths.lengths i j i' j' =>
    obtain ⟨hleft, hright⟩ := (madeOf_toString i).pair_inj (madeOf_toString i') (by decide) h
    rw [eq_of_toString_eq hleft, eq_of_toString_eq hright]

end Reason

/-! ## The whole line -/

namespace Mismatch

/-- What stands between the path and the reason. -/
def junction (path : List Step) : String := if path = [] then "<root>: " else ": "

/-- The line in the order in which it is read: path, junction, reason. -/
theorem text_eq (m : Mismatch) : m.text = m.pathText ++ (junction m.path ++ m.reason.text) := by
  obtain ⟨path, r⟩ := m
  cases path with
  | nil =>
    rw [pathText_nil, String.empty_append]
    rfl
  | cons s path => rw [text, junction, if_neg (List.cons_ne_nil s path), String.append_assoc]

/-- A path ends at the colon, or at the mark for the root, where there is no path. -/
theorem delimits_junction (path : List Step) (u : String) :
    Delimits isPathChar (junction path ++ u) := by
  rw [junction]
  split <;> exact delimits_mark (by decide)

/-- **The text of a mismatch is unambiguous.** Two mismatches with paths of any length, with any
indices in them, and for any reasons, have the same text only if they are the same: the same steps
with the same kinds, parts and indices, and the same reason. And two paths that are written alike
are the same path. It is not even needed that the parts named are parts of the kinds named with
them. -/
theorem text_unambiguous (m n : Mismatch) :
    (m.text = n.text ↔ m = n) ∧ (m.pathText = n.pathText ↔ m.path = n.path) := by
  refine ⟨⟨fun h => ?_, fun h => by rw [h]⟩, pathText_inj, fun h => by rw [pathText, pathText, h]⟩
  rw [text_eq, text_eq] at h
  obtain ⟨path, r⟩ := m
  obtain ⟨path', r'⟩ := n
  obtain ⟨hpath, hrest⟩ := (madeOf_pathText _).append_inj (madeOf_pathText _)
    (delimits_junction path _) (delimits_junction path' _) h
  obtain rfl : path = path' := pathText_inj hpath
  -- of two lines with the same path both or neither are marked as being about the roots
  rw [String.append_right_inj] at hrest
  obtain rfl : r = r' := Reason.text_inj hrest
  rfl

example :
    (Mismatch.mk [⟨.block, .field (.sequence .statements), some 12⟩, ⟨.reference, .scalar, none⟩]
      .values).text = "Block.statements[12] > ReferenceExpression.name: values differ" := by
  decide

end Mismatch

end SyntaxForest
