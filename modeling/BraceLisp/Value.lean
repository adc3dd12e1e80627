import BraceLisp.Expr
import BraceLisp.Number.Text
import BraceLisp.Primitive
import BraceLisp.Text.Quoted

/-!
# Values and environments

A value is what an expression evaluates to; an environment is the sequence of bindings that an
expression is evaluated in. A closure holds the environment in which its `lam` was evaluated.

Every evaluation of a `lam` makes a closure with an identity of its own. Programs cannot observe
identities; a host that keeps values can tell by them whether two closures are one object.
-/

namespace BraceLisp

mutual

/-- What an expression evaluates to. -/
inductive Value (ν : Type) where
  | number (value : Float)
  | string (contents : String)
  | boolean (value : Bool)
  | closure (identity : Nat) (params : List ν) (body : Expr ν) (env : Env ν)
  | primitive (op : Primitive)

/-- Bindings of names to values, the most recent outermost. -/
inductive Env (ν : Type) where
  | empty
  | bind (rest : Env ν) (name : ν) (value : Value ν)

end

namespace Value

variable {ν : Type}

instance : Inhabited (Value ν) := ⟨.boolean false⟩

/-- The name of a value's kind. -/
def kind : Value ν → String
  | number _ => "number"
  | string _ => "string"
  | boolean _ => "boolean"
  | closure .. => "procedure"
  | primitive _ => "primop"

/-- The text of a value. Procedures and operators have no notation. -/
def text : Value ν → String
  | number x => Number.text x
  | string s => String.ofList (Text.quote s.toList)
  | boolean true => "true"
  | boolean false => "false"
  | closure .. => "#<procedure>"
  | primitive _ => "#<primop>"

/-- Whether two values are one to a host: the same number, the same contents, the same operator, or
the same closure object. -/
def identical : Value ν → Value ν → Bool
  | number x, number y => x == y
  | string s, string t => s == t
  | boolean a, boolean b => a == b
  | closure i _ _ _, closure j _ _ _ => i == j
  | primitive p, primitive q => p == q
  | _, _ => false

/-- What `equal?` answers: the same kind and the same contents. Procedures and operators equal
nothing, themselves included. -/
def contentsEqual : Value ν → Value ν → Bool
  | number x, number y => x == y
  | string s, string t => s == t
  | boolean a, boolean b => a == b
  | _, _ => false

end Value

end BraceLisp
