import ImportAtlas.Error

/-!
# Environments

The environment that an import map is made for decides which of several conditional targets of a
package apply.

## Summary

* `Environment.make` completes what is given: without further word it is a browser.
* `Environment.holds` evaluates a condition; `~` negates one and `default` always holds.
* `Environment.ofFields` reads an environment from the fields of an object.
-/

namespace ImportAtlas

/-- A target environment. -/
structure Environment where
  /-- Modules run in a browser. -/
  browser : Bool
  /-- Modules run in a platform with modules of its own. -/
  node : Bool
  /-- The map is for production. -/
  production : Bool
  /-- Whether development packages are wanted, as given; only an explicit no excludes them. -/
  dev : Value
  /-- Further conditions. -/
  conditions : Dict String Bool
  deriving Inhabited

namespace Environment

/-- Whether a value is an explicit no. -/
def isNo : Value → Bool
  | .bool false => true
  | _ => false

/-- The environment with some properties: a browser unless it is another platform or told
otherwise. -/
def make (browser : Value) (node production : Bool) (dev : Value)
    (conditions : Dict String Bool) : Environment :=
  ⟨if !node && !isNo browser then true else browser.truthy, node, production, dev, conditions⟩

/-- The environment when nothing is said: a browser, in development. -/
def standard : Environment := make .null false false .null ∅

/-- Whether development packages are part of a map. -/
def includesDev (env : Environment) : Bool := !(env.production || isNo env.dev)

/-- Every condition with its truth; the properties of the environment come after, or in place of,
further conditions. -/
def truths (env : Environment) : Dict String Bool :=
  (((env.conditions.insert "browser" env.browser).insert "node" env.node).insert
    "production" env.production).insert "dev" env.includesDev

/-- Whether a condition holds: `default` does, `~name` unless `name` does, and an unknown one does
not. -/
def holds (env : Environment) (condition : String) : Bool :=
  if condition == "default" then true
  else match condition.toList with
    | '~' :: name => !env.truths.getD (String.ofList name) false
    | _ => env.truths.getD condition false

/-- The environment that the fields of an object describe: known properties, conditions among
them, and conditions in a field of their own, which win. -/
def ofFields (fields : List (String × Value)) : Except Error Environment :=
  let known := ["browser", "node", "production", "dev", "conditions"]
  let others := fields.filter fun f => !known.contains f.1
  let field := Value.field fields
  let build (more : List (String × Value)) : Environment :=
    make (field "browser") (field "node").truthy (field "production").truthy (field "dev")
      (Dict.ofList ((others ++ more).map fun f => (f.1, f.2.truthy)))
  match field "conditions" with
  | .object more => .ok (build more)
  | v => if v.truthy then .error .conditionsNotObject else .ok (build [])

end Environment

end ImportAtlas
