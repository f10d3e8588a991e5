import TreeEdit.Node.Hints

/-!
# Node values

A `Node` is what one slot of a store holds: attributes that belong to the node itself, and the
slots of its children. Parent links are kept by the store, not by the node.
-/

namespace TreeEdit

/-- The forms of a comment. -/
inductive CommentKind
  | line
  | block
  | javadoc
  deriving DecidableEq, Repr

namespace CommentKind

/-- The word for a form of comment. -/
def name : CommentKind → String
  | line => "line"
  | block => "block"
  | javadoc => "javadoc"

/-- The form of comment of the given word. -/
def ofName? (s : String) : Option CommentKind :=
  [line, block, javadoc].find? (·.name == s)

end CommentKind

/-- A comment and its text, delimiters included. -/
structure Comment where
  kind : CommentKind
  text : String
  deriving DecidableEq, Repr

/-- The white space before and after the tokens of a node. -/
structure Whitespace where
  leading : String := ""
  trailing : String := ""
  deriving DecidableEq, Repr

/-- Whether there is no white space on either side. -/
def Whitespace.isEmpty (w : Whitespace) : Bool :=
  w.leading.isEmpty && w.trailing.isEmpty

/-- All that a node carries besides its children. -/
structure Attributes where
  kind : Kind
  range : Range
  text : Option String := none
  leadingComments : List Comment := []
  trailingComments : List Comment := []
  whitespace : Whitespace := {}
  hints : Hints := {}
  deriving DecidableEq, Repr

/-- The stable name of a node with these attributes. -/
def Attributes.stableId (a : Attributes) : StableId :=
  ⟨a.kind, a.range⟩

/-- The value of one slot: attributes, and the slots of the children in order. -/
structure Node where
  attributes : Attributes
  children : List NodeId := []
  deriving DecidableEq, Repr

namespace Node

/-- The stable name of a node. -/
def stableId (n : Node) : StableId :=
  n.attributes.stableId

/-- Whether any comment is attached to the node. -/
def hasComments (n : Node) : Bool :=
  !n.attributes.leadingComments.isEmpty || !n.attributes.trailingComments.isEmpty

/-- The place of a slot in the child list. -/
def position? (n : Node) (child : NodeId) : Option Nat :=
  n.children.idxOf? child

/-- The node with another child at the given place. -/
def setChild (n : Node) (index : Nat) (child : NodeId) : Node :=
  { n with children := n.children.set index child }

/-- The node with one child more, in front of the given place. -/
def insertChild (n : Node) (index : Nat) (child : NodeId) : Node :=
  { n with children := n.children.insertIdx index child }

/-- The node without the child at the given place. -/
def eraseChild (n : Node) (index : Nat) : Node :=
  { n with children := n.children.eraseIdx index }

/-- The node with every child slot renamed. -/
def mapChildren (n : Node) (f : NodeId → NodeId) : Node :=
  { n with children := n.children.map f }

/-- The node with other white space around it. -/
def withWhitespace (n : Node) (w : Whitespace) : Node :=
  { n with attributes := { n.attributes with whitespace := w } }

/-- The node with other comments before and after it. -/
def withComments (n : Node) (leading trailing : List Comment) : Node :=
  { n with
    attributes :=
      { n.attributes with leadingComments := leading, trailingComments := trailing } }

/-- Refuse a child list that does not fit the construct, then unusable hints. -/
def validate (n : Node) : Verdict Unit :=
  let shape := n.attributes.kind.shape
  if shape.accepts n.children.length then n.attributes.hints.validate
  else .error (.shape n.attributes.kind shape n.children.length)

@[simp] theorem stableId_setChild (n : Node) (index : Nat) (child : NodeId) :
    (n.setChild index child).stableId = n.stableId := rfl

@[simp] theorem stableId_insertChild (n : Node) (index : Nat) (child : NodeId) :
    (n.insertChild index child).stableId = n.stableId := rfl

@[simp] theorem stableId_eraseChild (n : Node) (index : Nat) :
    (n.eraseChild index).stableId = n.stableId := rfl

@[simp] theorem stableId_mapChildren (n : Node) (f : NodeId → NodeId) :
    (n.mapChildren f).stableId = n.stableId := rfl

@[simp] theorem stableId_withWhitespace (n : Node) (w : Whitespace) :
    (n.withWhitespace w).stableId = n.stableId := rfl

@[simp] theorem stableId_withComments (n : Node) (leading trailing : List Comment) :
    (n.withComments leading trailing).stableId = n.stableId := rfl

end Node

end TreeEdit
