/-
The library types that every Kotlin file names without an import, by package.
-/
namespace Counterpart.Kotlin

/-- Packages and the simple names found in them, in the order of lookup. -/
def defaultTypes : List (String × List String) :=
  [("kotlin",
    ["Any", "Array", "Boolean", "BooleanArray", "Byte", "ByteArray", "Char", "CharArray", "CharSequence",
     "Comparable", "Double", "DoubleArray", "Enum", "Exception", "Float", "FloatArray", "Int", "IntArray", "Lazy",
     "Long", "LongArray", "Nothing", "Number", "Pair", "Result", "Short", "ShortArray", "String", "Throwable",
     "Triple", "UByte", "UInt", "ULong", "UShort", "Unit"]),
   ("kotlin.collections",
    ["ArrayList", "Collection", "HashMap", "HashSet", "Iterable", "Iterator", "LinkedHashMap", "LinkedHashSet",
     "List", "ListIterator", "Map", "MutableCollection", "MutableIterable", "MutableList", "MutableMap",
     "MutableSet", "Set"]),
   ("kotlin.sequences", ["Sequence"]),
   ("kotlin.ranges", ["CharRange", "ClosedRange", "IntRange", "LongRange"]),
   ("kotlin.text", ["Appendable", "Regex", "StringBuilder"])]

/-- The qualified name of a library type that needs no import. -/
def defaultType? (name : String) : Option String :=
  (defaultTypes.find? fun g => g.2.contains name).map fun g => g.1 ++ "." ++ name

end Counterpart.Kotlin
