import DomainCodegen.Json.Value

/-!
# Reserved names

Every kind of value has names of its own, for what can be done with it. A document that is read in
the place of a value may not use them as the names of options.
-/

namespace DomainCodegen.Settings

/-- The names that all values have. -/
def commonNames : List String :=
  ["__class__", "__delattr__", "__dir__", "__doc__", "__eq__", "__format__", "__ge__",
    "__getattribute__", "__getstate__", "__gt__", "__hash__", "__init__", "__init_subclass__",
    "__le__", "__lt__", "__ne__", "__new__", "__reduce__", "__reduce_ex__", "__repr__",
    "__setattr__", "__sizeof__", "__str__", "__subclasshook__"]

/-- The further names of numbers and truth values. -/
def numberNames : List String :=
  ["__abs__", "__add__", "__bool__", "__ceil__", "__divmod__", "__float__", "__floor__",
    "__floordiv__", "__getnewargs__", "__int__", "__mod__", "__mul__", "__neg__", "__pos__",
    "__pow__", "__radd__", "__rdivmod__", "__rfloordiv__", "__rmod__", "__rmul__", "__round__",
    "__rpow__", "__rsub__", "__rtruediv__", "__sub__", "__truediv__", "__trunc__",
    "as_integer_ratio", "conjugate", "imag", "real"]

/-- The further names of whole numbers and truth values. -/
def integerNames : List String :=
  ["__and__", "__index__", "__invert__", "__lshift__", "__or__", "__rand__", "__rlshift__",
    "__ror__", "__rrshift__", "__rshift__", "__rxor__", "__xor__", "bit_count", "bit_length",
    "denominator", "from_bytes", "numerator", "to_bytes"]

/-- The further names of numbers with a fraction. -/
def decimalNames : List String :=
  ["__getformat__", "fromhex", "hex", "is_integer"]

/-- The further names of texts, arrays and objects. -/
def collectionNames : List String :=
  ["__contains__", "__getitem__", "__iter__", "__len__"]

/-- The further names of texts and arrays. -/
def sequenceNames : List String :=
  ["__add__", "__mul__", "__rmul__", "count", "index"]

/-- The further names of arrays and objects. -/
def changeableNames : List String :=
  ["__class_getitem__", "__delitem__", "__reversed__", "__setitem__", "clear", "copy", "pop"]

/-- The further names of texts. -/
def textNames : List String :=
  ["__getnewargs__", "__mod__", "__rmod__", "capitalize", "casefold", "center", "encode",
    "endswith", "expandtabs", "find", "format", "format_map", "isalnum", "isalpha", "isascii",
    "isdecimal", "isdigit", "isidentifier", "islower", "isnumeric", "isprintable", "isspace",
    "istitle", "isupper", "join", "ljust", "lower", "lstrip", "maketrans", "partition",
    "removeprefix", "removesuffix", "replace", "rfind", "rindex", "rjust", "rpartition",
    "rsplit", "rstrip", "split", "splitlines", "startswith", "strip", "swapcase", "title",
    "translate", "upper", "zfill"]

/-- The further names of arrays. -/
def arrayNames : List String :=
  ["__iadd__", "__imul__", "append", "extend", "insert", "remove", "reverse", "sort"]

/-- The further names of objects. -/
def objectNames : List String :=
  ["__ior__", "__or__", "__ror__", "fromkeys", "get", "items", "keys", "popitem", "setdefault",
    "update", "values"]

/-- The further names of output options. -/
def optionNames : List String :=
  ["__annotations__", "__dataclass_fields__", "__dataclass_params__", "__dict__",
    "__match_args__", "__module__", "__weakref__"]

/-- The names that a value has beyond those of all values, in groups. -/
def ownNames : Json → List (List String)
  | .null => [["__bool__"]]
  | .bool _ => [numberNames, integerNames]
  | .int _ => [numberNames, integerNames]
  | .float _ => [numberNames, decimalNames]
  | .string _ => [collectionNames, sequenceNames, textNames]
  | .array _ => [collectionNames, sequenceNames, changeableNames, arrayNames]
  | .object _ => [collectionNames, changeableNames, objectNames]

/-- Whether a value has a name. -/
def reserves (value : Json) (name : String) : Bool :=
  (commonNames :: ownNames value).any fun names => names.contains name

/-- Whether output options have a name that is no option. -/
def optionsReserve (name : String) : Bool := commonNames.contains name || optionNames.contains name

end DomainCodegen.Settings
