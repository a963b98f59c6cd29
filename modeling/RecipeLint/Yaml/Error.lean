/-!
# Errors of configuration files

Why a configuration file holds no value.
-/

namespace RecipeLint.Yaml

/-- Why a file breaks the reader off: mostly a scalar that has the form of a value but none of that
form exists. -/
inductive ScalarFault where
  | emptyNumber
  | impossibleDate
  /-- An escape with a number beyond those of all characters. -/
  | noCharacter
  | other (cause : String)
deriving DecidableEq, Repr

inductive LoadError where
  | malformed
  | scalar (fault : ScalarFault)
deriving DecidableEq, Repr

end RecipeLint.Yaml
