/-
How generation treats a type. Only qualified names count: a class of the project that is called like a library
type is a class of the project.
-/
import Counterpart.Project.Meaning

namespace Counterpart

open Kotlin

/-- The kinds of classes that get a counterpart. -/
inductive UserKind
  | data
  | enum
deriving DecidableEq, Repr

/-- The collections whose elements are converted one by one. -/
inductive CollectionKind
  | iterable | collection | mutableCollection | list | mutableList | arrayList | set | mutableSet | hashSet
  | linkedHashSet | sequence | array
deriving DecidableEq, Repr

namespace CollectionKind

def ofQualifiedName? : String → Option CollectionKind
  | "kotlin.collections.Iterable" => some iterable
  | "kotlin.collections.Collection" => some collection
  | "kotlin.collections.MutableCollection" => some mutableCollection
  | "kotlin.collections.List" => some list
  | "kotlin.collections.MutableList" => some mutableList
  | "kotlin.collections.ArrayList" | "java.util.ArrayList" => some arrayList
  | "kotlin.collections.Set" => some set
  | "kotlin.collections.MutableSet" => some mutableSet
  | "kotlin.collections.HashSet" | "java.util.HashSet" => some hashSet
  | "kotlin.collections.LinkedHashSet" | "java.util.LinkedHashSet" => some linkedHashSet
  | "kotlin.sequences.Sequence" => some sequence
  | "kotlin.Array" => some array
  | _ => none

/-- The call that turns a list back into such a collection; none when a list will do. -/
def collectCall? : CollectionKind → Option String
  | iterable | collection | list | sequence => none
  | mutableCollection | mutableList => some "toMutableList()"
  | arrayList => some "toCollection(ArrayList())"
  | set => some "toSet()"
  | mutableSet => some "toMutableSet()"
  | hashSet => some "toHashSet()"
  | linkedHashSet => some "toCollection(LinkedHashSet())"
  | array => some "toTypedArray()"

end CollectionKind

/-- The maps that are rebuilt entry by entry. -/
inductive MapKind
  | map | mutableMap | hashMap | linkedHashMap
deriving DecidableEq, Repr

namespace MapKind

def ofQualifiedName? : String → Option MapKind
  | "kotlin.collections.Map" => some map
  | "kotlin.collections.MutableMap" => some mutableMap
  | "kotlin.collections.HashMap" | "java.util.HashMap" => some hashMap
  | "kotlin.collections.LinkedHashMap" | "java.util.LinkedHashMap" => some linkedHashMap
  | _ => none

/-- The class that a rebuilt map is an instance of. -/
def builder : MapKind → String
  | linkedHashMap => "LinkedHashMap"
  | map | mutableMap | hashMap => "HashMap"

end MapKind

/-- The families of types with arguments. -/
inductive GenericBase
  | collection (kind : CollectionKind)
  | map (kind : MapKind)
  | pair
  /-- Arguments are substituted, but values cannot be converted. -/
  | other
deriving DecidableEq, Repr

def GenericBase.ofQualifiedName? : Option String → GenericBase
  | none => .other
  | some name =>
    match CollectionKind.ofQualifiedName? name, MapKind.ofQualifiedName? name with
    | some kind, _ => .collection kind
    | none, some kind => .map kind
    | none, none => if name = "kotlin.Pair" then .pair else .other

/-- The treatments of types. -/
inductive Category
  /-- A scalar of the language. -/
  | basic (b : BasicType)
  /-- A class that gets a counterpart. -/
  | userClass (id : ClassId) (kind : UserKind)
  /-- Any other class of the project. -/
  | unsupported (id : ClassId)
  /-- A type with arguments that is no class with a counterpart. -/
  | generic (base : GenericBase)
  /-- Everything else: library types, type parameters, function types. -/
  | foreign
deriving DecidableEq, Repr

/-- The treatment of a type of the project. -/
def Project.categoryOf (p : Project) (t : ResolvedType) : Category :=
  if t.written.isFunction then .foreign
  else match t.classId with
    | some id =>
      match (p.decl id).kind with
      | .data => .userClass id .data
      | .enum => .userClass id .enum
      | _ => if t.args.isEmpty then .unsupported id else .generic .other
    | none =>
      if !t.args.isEmpty then .generic (GenericBase.ofQualifiedName? t.qualifiedName)
      else match t.qualifiedName.bind BasicType.ofQualifiedName? with
        | some b => .basic b
        | none => .foreign

end Counterpart
