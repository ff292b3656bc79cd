set_option autoImplicit false

/-! # Variables in settings

A reference to a variable is a dollar sign and a name in braces. `expand` puts the values of
variables in the places of their references, in one pass from left to right: what it puts in is not
looked at again. -/

namespace LanguageServer.Settings

/-- The values of variables, by name. -/
abbrev Environment := String → Option String

/-- The environment of some variables with their values. They are kept as texts, each a name, an
equals sign and a value, and a name is looked up in these texts. So a name with an equals sign in it
reaches into a value, and stands for what is left of it. A name that is empty, or that a text cannot
hold, has no value. -/
def Environment.ofEntries (entries : List (String × String)) : Environment := fun name =>
  if name.isEmpty || name.toList.contains '\x00' then none
  else
    entries.findSome? fun (key, value) =>
      ((name ++ "=").toList.isPrefixOf? (key ++ "=" ++ value).toList).map String.ofList

/-- What a reference stands for; a variable without a name or a value stands for nothing. -/
def resolve (env : Environment) (name : List Char) : List Char :=
  if name.isEmpty then [] else ((env (String.ofList name)).getD "").toList

/-- Put values in the places of references; `inside` holds the characters of a name that has been
opened and not yet closed, last first. A reference that is never closed stays as it is. -/
def expandFrom (env : Environment) : (inside : Option (List Char)) → List Char → List Char
  | none, [] => []
  | some name, [] => '$' :: '\x7b' :: name.reverse
  | some name, c :: rest =>
    if c = '\x7d' then resolve env name.reverse ++ expandFrom env none rest
    else expandFrom env (some (c :: name)) rest
  | none, '$' :: '\x7b' :: rest => expandFrom env (some []) rest
  | none, c :: rest => c :: expandFrom env none rest

/-- Put the values of variables in the places of references to them. -/
def expand (env : Environment) (text : String) : String :=
  String.ofList (expandFrom env none text.toList)

/-- The names of the variables that a text refers to. -/
def references : (inside : Option (List Char)) → List Char → List String
  | _, [] => []
  | some name, c :: rest =>
    if c = '\x7d' then String.ofList name.reverse :: references none rest
    else references (some (c :: name)) rest
  | none, '$' :: '\x7b' :: rest => references (some []) rest
  | none, _ :: rest => references none rest

end LanguageServer.Settings
