/-!
# The name of a module

A module is named after its file: directories do not count, and neither does the extension.
-/

namespace TypeSchema.ModuleName

def extension : List Char := ".gotyno".toList

/-- What follows the last separator of a path; both slashes separate. -/
def baseName (path : List Char) : List Char :=
  (path.reverse.takeWhile fun c => c ≠ '/' ∧ c ≠ '\\').reverse

/-- What stands before the last dot, if there is a dot and something stands before it. -/
def beforeLastDot? (base : List Char) : Option (List Char) :=
  match base.reverse.dropWhile (· ≠ '.') with
  | [] | [_] => none
  | _ :: stem => some stem.reverse

/-- The name without its extension. A name that only begins with a dot has none. -/
def withoutExtension (base : List Char) : List Char :=
  if extension.isSuffixOf base then base.take (base.length - extension.length)
  else (beforeLastDot? base).getD base

def ofPath (path : String) : String :=
  String.ofList (withoutExtension (baseName path.toList))

end TypeSchema.ModuleName
