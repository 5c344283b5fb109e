import TagTree.Node.Basic

/-!
# Equality of nodes

Two nodes are the same if their tags, labels, items and properties agree all the way down. The
order of properties counts, that of attributes does not.
-/

namespace TagTree.Node

mutual

/-- The two nodes agree. -/
def same : Node → Node → Bool
  | gap, gap => true
  | null, null => true
  | literal left, literal right => left == right
  | element ⟨start, label, ⟨items⟩, properties, held, _⟩,
      element ⟨start', label', ⟨items'⟩, properties', held', _⟩ =>
    start.same start' && label.same label' && held == held' &&
      sameItems items items' && sameProperties properties properties'
  | _, _ => false

/-- The two lists of items agree. -/
def sameItems : List (Item Node) → List (Item Node) → Bool
  | [], [] => true
  | .reference left :: rest, .reference right :: rest' => left == right && sameItems rest rest'
  | .gap :: rest, .gap :: rest' => sameItems rest rest'
  | .arrayStart :: rest, .arrayStart :: rest' => sameItems rest rest'
  | .shift left :: rest, .shift right :: rest' => left == right && sameItems rest rest'
  | .literal left :: rest, .literal right :: rest' => left == right && sameItems rest rest'
  | .embedded left :: rest, .embedded right :: rest' => same left right && sameItems rest rest'
  | _, _ => false

/-- The two lists of properties agree. -/
def sameProperties : List (String × Property Node) → List (String × Property Node) → Bool
  | [], [] => true
  | (name, .single ⟨left, node⟩) :: rest, (name', .single ⟨right, node'⟩) :: rest' =>
    name == name' && left == right && same node node' && sameProperties rest rest'
  | (name, .array ⟨bindings⟩) :: rest, (name', .array ⟨bindings'⟩) :: rest' =>
    name == name' && sameBindings bindings bindings' && sameProperties rest rest'
  | _, _ => false

/-- The two lists of bindings agree. -/
def sameBindings : List (Binding Node) → List (Binding Node) → Bool
  | [], [] => true
  | ⟨left, node⟩ :: rest, ⟨right, node'⟩ :: rest' =>
    left == right && same node node' && sameBindings rest rest'
  | _, _ => false

end

end TagTree.Node
