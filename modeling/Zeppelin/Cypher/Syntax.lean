import Zeppelin.Machine.Except

/-! zeppelin-embed-cypher/src/ast.rs: An expression is a tree here; the arena of the source shares
the middle operand of a chain of comparisons. -/

namespace Zeppelin.Cypher

abbrev Text := List Char

instance textLawful : LawfulBEq Text := inferInstance

/-- `TextId`: a token, and the text that it stands for. -/
structure Name where
  token : ℕ
  text : Text
  deriving DecidableEq

inductive Direction where
  | incoming
  | outgoing
  | both
  deriving DecidableEq

inductive UnaryOp where
  | plus
  | minus
  | not
  | isNull
  | isNotNull
  deriving DecidableEq

inductive BinaryOp where
  | or
  | xor
  | and
  | eq
  | ne
  | lt
  | le
  | gt
  | ge
  | in
  | startsWith
  | endsWith
  | contains
  | add
  | subtract
  | multiply
  | divide
  | remainder
  deriving DecidableEq

inductive Function where
  | count
  | collect
  | sum
  | avg
  | min
  | max
  | labels
  | type
  | size
  | coalesce
  | toInteger
  | toFloat
  | floor
  | round
  | head
  | last
  | abs
  | nodeId
  | relationshipId
  | storedText
  deriving DecidableEq

/-- A node whose children are bound before it. Two of these are compared by their texts. -/
inductive NodeKind where
  | parameter (name : Text)
  | integer (value : Int64)
  | float (bits : UInt64)
  | string (text : Text)
  | boolean (value : Bool)
  | null
  | list
  | map
  | case (simple : Bool)
  | propertyAccess (name : Text)
  | labelPredicate (labels : List Text)
  | index
  | unary (op : UnaryOp)
  | binary (op : BinaryOp)
  | function (function : Function) (distinct : Bool)
  deriving DecidableEq

inductive MemberKind where
  | node
  | relationship (direction : Direction) (bounds : Option (ℕ × ℕ))
  deriving DecidableEq

/-- A member of a pattern without the values of its properties; the keys are those of its property
bag, if it has one. -/
structure Member where
  kind : MemberKind
  variableName : Option Name
  labels : List Text
  keys : Option (List Name)
  deriving DecidableEq

mutual

inductive Expr where
  | var (name : Name)
  | group (inner : Expr)
  | node (kind : NodeKind) (children : List Expr)
  /-- The body is the predicate, if there is a filter, and the projection, if there is a map. -/
  | comprehension (iterator : Name) (filter map : Bool) (source : Expr) (body : List Expr)
  | patternPredicate (parts : List PatternPart)

inductive PatternPart where
  | mk (member : Member) (values : List Expr)

end

def Function.aggregate : Function → Bool
  | .count | .collect | .sum | .avg | .min | .max => true
  | _ => false

def NodeKind.aggregate : NodeKind → Bool
  | .function operation _ => operation.aggregate
  | _ => false

mutual

def Expr.aggregate : Expr → Bool
  | .var _ => false
  | .group inner => inner.aggregate
  | .node kind children => kind.aggregate || aggregateList children
  | .comprehension _ _ _ source body => source.aggregate || aggregateList body
  | .patternPredicate parts => aggregateParts parts

def aggregateList : List Expr → Bool
  | [] => false
  | e::es => e.aggregate || aggregateList es

def aggregateParts : List PatternPart → Bool
  | [] => false
  | .mk _ values::parts => aggregateList values || aggregateParts parts

end

def Expr.ungroup : Expr → Expr
  | .group inner => inner.ungroup
  | e => e

mutual

/-- The names that the expression does not bind itself. -/
def Expr.free : Expr → List Text
  | .var name => [name.text]
  | .group inner => inner.free
  | .node _ children => freeList children
  | .comprehension iterator _ _ source body =>
    source.free++(freeList body).filter (· ≠ iterator.text)
  | .patternPredicate parts => freeParts parts

def freeList : List Expr → List Text
  | [] => []
  | e::es => e.free++freeList es

def freeParts : List PatternPart → List Text
  | [] => []
  | .mk member values::parts =>
    (member.variableName.map Name.text).toList++freeList values++freeParts parts

end

mutual

def Expr.tokens : Expr → List ℕ
  | .var _ => []
  | .group inner => inner.tokens
  | .node _ children => tokensList children
  | .comprehension iterator _ _ source body => iterator.token::(source.tokens++tokensList body)
  | .patternPredicate parts => tokensParts parts

def tokensList : List Expr → List ℕ
  | [] => []
  | e::es => e.tokens++tokensList es

def tokensParts : List PatternPart → List ℕ
  | [] => []
  | .mk member values::parts =>
    (member.variableName.map Name.token).toList++(member.keys.getD []).map Name.token++
      tokensList values++tokensParts parts

end

end Zeppelin.Cypher
