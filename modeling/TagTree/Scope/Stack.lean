import TagTree.Scope.Basic

/-!
# Stacks of scopes

The scopes of all open nodes, followed along a stream of tags. With them the index of every array
reference can be written into the stream.
-/

namespace TagTree

/-- The scopes of the open nodes, innermost first. -/
abbrev ScopeStack := List Scope

namespace ScopeStack

/-- The stack with a scope for a node that opens. -/
def enter (stack : ScopeStack) : ScopeStack :=
  {} :: stack

/-- The stack without the scope of the node that closes. -/
def exit (stack : ScopeStack) : ScopeStack :=
  stack.tail

/-- The innermost scope; outside of every node it is a fresh one. -/
def top (stack : ScopeStack) : Scope :=
  stack.head?.getD {}

/-- The stack with another innermost scope. -/
def setTop (stack : ScopeStack) (scope : Scope) : ScopeStack :=
  scope :: stack.tail

/-- A reference in the innermost scope. -/
def consume (stack : ScopeStack) (reference : Reference) :
    ScopeStack × Except StructuralError (Option Nat) :=
  let (scope, index) := stack.top.consume reference
  (stack.setTop scope, index)

/-- The start of an array in the innermost scope. -/
def startArray (stack : ScopeStack) (name : String) : ScopeStack :=
  stack.setTop (stack.top.startArray name)

/-- The stack after a tag, and the index that the tag stands for. -/
def observe (stack : ScopeStack) : Tag → ScopeStack × Except StructuralError (Option Nat)
  | .opening _ => (stack.enter, .ok none)
  | .closing => (stack.exit, .ok none)
  | .reference reference => stack.consume reference
  | .arrayStart =>
    let (scope, index) := stack.top.observe .arrayStart
    (stack.setTop scope, index)
  | _ => (stack, .ok none)

end ScopeStack

/-- The tag with the index that it stands for, unless the next tag starts the array. -/
def Tag.withIndex (index : Option Nat) (next : Option Tag) : Tag → Tag
  | .reference edge =>
    match index, next with
    | some _, some .arrayStart => .reference edge
    | some index, _ => .reference { edge with index := some index }
    | none, _ => .reference edge
  | tag => tag

/-- The tags of a stream with the index of every array element written out. A tag that is refused
leaves its error in place. -/
def ScopeStack.indexTags (stack : ScopeStack) : List Tag → List (Except StructuralError Tag)
  | [] => []
  | tag :: rest =>
    let (after, index) := stack.observe tag
    index.map (fun index => tag.withIndex index rest.head?) :: indexTags after rest

/-- The tags of a whole stream with the index of every array element written out. -/
def Tag.withIndexes (tags : List Tag) : List (Except StructuralError Tag) :=
  ScopeStack.indexTags [] tags

end TagTree
