import TagTree.Register

/-!
# Attribute values

An attribute value is null, a truth value, a 64-bit integer, a text, an array or an object. Objects
keep the order of their entries but are compared without regard to it.
-/

namespace TagTree

/-- An attribute value. -/
inductive Value where
  | null
  | bool (value : Bool)
  | integer (value : Int64)
  | text (value : String)
  | array (items : List Value)
  | object (entries : List (String × Value))
  deriving Inhabited

/-- The attributes of a tag or node, in order. -/
abbrev Attributes := Entries Value

namespace Value

/-- The value is null. -/
def isNull : Value → Bool
  | null => true
  | _ => false

/-- The truth value, if it is one. -/
def bool? : Value → Option Bool
  | bool value => some value
  | _ => none

/-- The integer, if it is one. -/
def integer? : Value → Option Int64
  | integer value => some value
  | _ => none

/-- The text, if it is one. -/
def text? : Value → Option String
  | text value => some value
  | _ => none

mutual

/-- The two values agree, up to the order of the entries of their objects. -/
def same : Value → Value → Bool
  | null, null => true
  | bool a, bool b => a == b
  | integer a, integer b => a == b
  | text a, text b => a == b
  | array as, array bs => sameItems as bs
  | object as, object bs => as.length == bs.length && sameEntries (Entries.index bs) as
  | _, _ => false

/-- The two lists agree item by item. -/
def sameItems : List Value → List Value → Bool
  | [], [] => true
  | a :: as, b :: bs => same a b && sameItems as bs
  | _, _ => false

/-- Every entry has an equal among those of an index. -/
def sameEntries (bs : Std.TreeMap String Value) : List (String × Value) → Bool
  | [] => true
  | (key, a) :: as =>
    (match bs[key]? with
      | some b => same a b
      | none => false) && sameEntries bs as

end

end Value

/-- The two lists of attributes agree up to order. -/
def Attributes.same (left right : Attributes) : Bool :=
  left.length == right.length && Value.sameEntries (Entries.index right) left

end TagTree
