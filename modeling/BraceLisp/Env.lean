import BraceLisp.Failure
import BraceLisp.Value

/-!
# Environments as maps

Looking a name up finds its most recent binding; binding a name again hides the older binding and
keeps it. An environment is never changed, only extended.
-/

namespace BraceLisp.Env

variable {ν : Type}

/-- How many bindings there are, hidden ones included. -/
def size : Env ν → Nat
  | empty => 0
  | bind rest _ _ => rest.size + 1

/-- Whether there are no bindings. -/
def isEmpty : Env ν → Bool
  | empty => true
  | bind .. => false

/-- The names of all bindings, hidden ones included, most recent first. -/
def boundNames : Env ν → List ν
  | empty => []
  | bind rest name _ => name :: rest.boundNames

/-- Binds names to the values at the same places, from left to right. -/
def bindAll (env : Env ν) : List ν → List (Value ν) → Env ν
  | name :: names, value :: values => (env.bind name value).bindAll names values
  | _, _ => env

/-- The environment of bindings made from left to right. -/
def ofList (bindings : List (ν × Value ν)) : Env ν :=
  bindings.foldl (fun env (name, value) => env.bind name value) empty

/-- The environment of a call: one binding for each parameter. -/
def extend (env : Env ν) (params : List ν) (args : List (Value ν)) :
    Except (EvalError ν) (Env ν) :=
  if params.length = args.length then .ok (env.bindAll params args)
  else .error (.arity "closure" params.length args.length)

variable [DecidableEq ν]

/-- The most recent value of a name. -/
def find? : Env ν → ν → Option (Value ν)
  | empty, _ => none
  | bind rest name value, wanted => if name = wanted then some value else rest.find? wanted

/-- The most recent value of a name, which must be bound. -/
def lookup (env : Env ν) (name : ν) : Except (EvalError ν) (Value ν) :=
  match env.find? name with
  | some value => .ok value
  | none => .error (.unboundName name)

/-- The visible names, most recent first, each once. -/
def names (env : Env ν) : List ν := env.boundNames.eraseDups

end BraceLisp.Env
