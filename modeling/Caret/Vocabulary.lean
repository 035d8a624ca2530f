namespace Caret

/-- A function or decorator that is known without a declaration. -/
structure Builtin where
  name : String
  signature : String
  description : String
  deriving DecidableEq, Repr

def Builtin.takesArguments (builtin : Builtin) : Bool := builtin.signature ≠ "()"

structure Keyword where
  name : String
  detail : String
  deriving DecidableEq, Repr

namespace Vocabulary

/-- The keywords that start a line at the top level. -/
def topLevelKeywords : List Keyword :=
  [⟨"module", "Module declaration"⟩,
   ⟨"output", "Output declaration"⟩,
   ⟨"param", "Parameter declaration"⟩,
   ⟨"resource", "Resource declaration"⟩,
   ⟨"targetScope", "Target scope declaration"⟩,
   ⟨"var", "Variable declaration"⟩]

/-- The keywords that follow the type of a resource. -/
def resourceHeaderKeywords : List Keyword := [⟨"existing", "Reference an existing resource"⟩]

/-- The keywords that follow the opening bracket of an array. -/
def arrayStartKeywords : List Keyword := [⟨"for", "For loop"⟩]

def primitiveTypes : List String := ["array", "bool", "int", "object", "string"]

def functions : List Builtin :=
  [⟨"any", "(value: any)",
    "Converts the value to a type that is compatible with any other type."⟩,
   ⟨"array", "(value: any)",
    "Converts the value to an array."⟩,
   ⟨"base64", "(value: string)",
    "Returns the base64 representation of the input string."⟩,
   ⟨"bool", "(value: any)",
    "Converts the parameter to a boolean."⟩,
   ⟨"coalesce", "(values: any...)",
    "Returns the first non-null value from the parameters."⟩,
   ⟨"concat", "(values: any...)",
    "Combines multiple arrays or strings."⟩,
   ⟨"contains", "(container: any, item: any)",
    "Checks whether an array contains a value, an object contains a key, or a string contains a " ++
      "substring."⟩,
   ⟨"deployment", "()",
    "Returns information about the current deployment operation."⟩,
   ⟨"empty", "(value: any)",
    "Determines if an array, object, or string is empty."⟩,
   ⟨"endsWith", "(text: string, suffix: string)",
    "Determines whether a string ends with a value."⟩,
   ⟨"environment", "()",
    "Returns information about the cloud environment used for deployment."⟩,
   ⟨"first", "(value: any)",
    "Returns the first element of an array, or first character of a string."⟩,
   ⟨"format", "(format: string, args: any...)",
    "Creates a formatted string from input values."⟩,
   ⟨"guid", "(seeds: string...)",
    "Creates a value in the format of a globally unique identifier based on the values provided."⟩,
   ⟨"indexOf", "(text: string, value: string)",
    "Returns the first position of a value within a string."⟩,
   ⟨"int", "(value: any)",
    "Converts the specified value to an integer."⟩,
   ⟨"intersection", "(values: any...)",
    "Returns a single array or object with the common elements from the parameters."⟩,
   ⟨"json", "(text: string)",
    "Converts a valid JSON string into a JSON data type."⟩,
   ⟨"last", "(value: any)",
    "Returns the last element of an array, or last character of a string."⟩,
   ⟨"length", "(value: any)",
    "Returns the number of elements in an array, characters in a string, or root-level " ++
      "properties in an object."⟩,
   ⟨"listKeys", "(resourceId: string, apiVersion: string)",
    "Returns the keys of a resource that supports the list operation."⟩,
   ⟨"managementGroup", "()",
    "Returns the current management group scope."⟩,
   ⟨"max", "(values: int...)",
    "Returns the maximum value from an array of integers or a comma-separated list of integers."⟩,
   ⟨"min", "(values: int...)",
    "Returns the minimum value from an array of integers or a comma-separated list of integers."⟩,
   ⟨"newGuid", "()",
    "Returns a value in the format of a globally unique identifier."⟩,
   ⟨"range", "(startIndex: int, count: int)",
    "Creates an array of integers from a starting integer and containing a number of items."⟩,
   ⟨"reference", "(resourceNameOrIdentifier: string, apiVersion: string)",
    "Returns an object representing a resource's runtime state."⟩,
   ⟨"replace", "(text: string, oldValue: string, newValue: string)",
    "Returns a new string with all instances of one string replaced by another."⟩,
   ⟨"resourceGroup", "()",
    "Returns the current resource group scope."⟩,
   ⟨"resourceId", "(segments: string...)",
    "Returns the unique identifier of a resource."⟩,
   ⟨"skip", "(value: any, count: int)",
    "Returns all the elements after the specified number in an array, or the remaining " ++
      "characters in a string."⟩,
   ⟨"split", "(text: string, delimiter: string)",
    "Returns an array of strings that contains the substrings of the input string."⟩,
   ⟨"startsWith", "(text: string, prefix: string)",
    "Determines whether a string starts with a value."⟩,
   ⟨"string", "(value: any)",
    "Converts the specified value to a string."⟩,
   ⟨"subscription", "()",
    "Returns the current subscription scope."⟩,
   ⟨"substring", "(text: string, startIndex: int, length: int)",
    "Returns a substring that starts at the specified character position."⟩,
   ⟨"take", "(value: any, count: int)",
    "Returns the specified number of elements from the start of an array, or characters from " ++
      "the start of a string."⟩,
   ⟨"tenant", "()",
    "Returns the current tenant scope."⟩,
   ⟨"toLower", "(text: string)",
    "Converts the specified string to lower case."⟩,
   ⟨"toUpper", "(text: string)",
    "Converts the specified string to upper case."⟩,
   ⟨"trim", "(text: string)",
    "Removes all leading and trailing white-space characters from the specified string."⟩,
   ⟨"union", "(values: any...)",
    "Returns a single array or object with all elements from the parameters."⟩,
   ⟨"uniqueString", "(seeds: string...)",
    "Creates a deterministic hash string based on the values provided."⟩,
   ⟨"uri", "(baseUri: string, relativeUri: string)",
    "Creates an absolute URI by combining the baseUri and the relativeUri string."⟩,
   ⟨"utcNow", "(format: string)",
    "Returns the current (UTC) datetime value in the specified format."⟩]

def decorators : List Builtin :=
  [⟨"allowed", "(values: array)",
    "Defines the allowed values of the parameter."⟩,
   ⟨"batchSize", "(batchSize: int)",
    "Causes the resource or module for-expression to run in sequential batches of specified size."⟩,
   ⟨"description", "(text: string)",
    "Describes the parameter, output or resource."⟩,
   ⟨"maxLength", "(length: int)",
    "Defines the maximum length of the parameter."⟩,
   ⟨"maxValue", "(value: int)",
    "Defines the maximum value of the parameter."⟩,
   ⟨"metadata", "(value: object)",
    "Defines metadata of the parameter."⟩,
   ⟨"minLength", "(length: int)",
    "Defines the minimum length of the parameter."⟩,
   ⟨"minValue", "(value: int)",
    "Defines the minimum value of the parameter."⟩,
   ⟨"secure", "()",
    "Makes the parameter a secure parameter."⟩]

def function? (name : String) : Option Builtin :=
  functions.find? fun function => function.name = name

end Vocabulary

end Caret
