import BraceLisp.Eval

/-!
# What shows of a value

Operators look at numbers, strings, booleans and operators, but of a procedure
they see only that it is one. `Value.face` keeps what they see, and applying an
operator factors through it (`Primitive.apply_map_face`).
-/

namespace BraceLisp

variable {ν : Type}

namespace Value

/-- A value with the inside of a procedure blotted out. -/
def face : Value ν → Value ν
  | closure .. => closure 0 [] (.string "") .empty
  | v => v

theorem kind_face (v : Value ν) : v.face.kind = v.kind := by
  cases v <;> rfl

theorem text_face (v : Value ν) : v.face.text = v.text := by
  cases v <;> rfl

theorem contentsEqual_face (v w : Value ν) :
    v.face.contentsEqual w.face = v.contentsEqual w := by
  cases v <;> cases w <;> rfl

end Value

namespace Primitive

theorem number_face (op : Primitive) (v : Value ν) :
    op.number v.face = op.number v := by
  cases v <;> rfl

theorem arithmetic_face (op : Primitive)
    (f : Float → Float → Except (EvalError ν) (Value ν)) (a b : Value ν) :
    op.arithmetic f a.face b.face = op.arithmetic f a b := by
  rw [arithmetic, arithmetic, number_face, number_face]

theorem applyPair_face (op : Primitive) (a b : Value ν) :
    op.applyPair a.face b.face = op.applyPair a b := by
  cases op with
  | add | sub | mul | div | le => exact arithmetic_face ..
  | equal =>
      show Except.ok (Value.boolean (a.face.contentsEqual b.face)) = _
      rw [Value.contentsEqual_face]
      rfl

theorem apply_map_face (op : Primitive) (args : List (Value ν)) :
    op.apply (args.map Value.face) = op.apply args := by
  match args with
  | [a, b] => exact applyPair_face op a b
  | [] | [_] => rfl
  | _ :: _ :: _ :: rest =>
      show Except.error (EvalError.arity _ _ _) = Except.error (.arity ..)
      simp only [List.map_cons, List.length_cons, List.length_map]

/-- A procedure or an operator equals nothing, itself included. -/
theorem apply_equal_of_kind {v : Value ν}
    (h : v.kind = "procedure" ∨ v.kind = "primop") (w : Value ν) :
    equal.apply [v, w] = .ok (.boolean false) ∧
      equal.apply [w, v] = .ok (.boolean false) := by
  cases v with
  | number | string | boolean =>
      rcases h with h | h <;> exact absurd h (by simp [Value.kind])
  | closure | primitive => cases w <;> exact ⟨rfl, rfl⟩

theorem arithmetic_eq_ok {op : Primitive}
    {f : Float → Float → Except (EvalError ν) (Value ν)} {a b v : Value ν}
    (h : op.arithmetic f a b = .ok v) : ∃ x y, f x y = .ok v := by
  rw [arithmetic] at h
  cases ha : op.number a with
  | error e => rw [ha] at h; cases h
  | ok x =>
      cases hb : op.number b with
      | error e => rw [ha, hb] at h; cases h
      | ok y => rw [ha, hb] at h; exact ⟨x, y, h⟩

theorem apply_eq_ok {op : Primitive} {args : List (Value ν)} {v : Value ν}
    (h : op.apply args = .ok v) :
    (∃ x, v = .number x) ∨ ∃ b, v = .boolean b := by
  match args with
  | [a, b] =>
      rw [apply] at h
      cases op with
      | add | sub | mul =>
          obtain ⟨x, y, h⟩ := arithmetic_eq_ok h
          exact .inl ⟨_, (Except.ok.inj h).symm⟩
      | div =>
          obtain ⟨x, y, h⟩ := arithmetic_eq_ok h
          split at h
          · cases h
          · exact .inl ⟨_, (Except.ok.inj h).symm⟩
      | le =>
          obtain ⟨x, y, h⟩ := arithmetic_eq_ok h
          exact .inr ⟨_, (Except.ok.inj h).symm⟩
      | equal => exact .inr ⟨_, (Except.ok.inj h).symm⟩
  | [] | [_] | _ :: _ :: _ :: _ => cases h

theorem number_eq_error {op : Primitive} {v : Value ν} {e : EvalError ν}
    (h : op.number v = .error e) : ∃ detail, e = .typeMismatch detail := by
  cases v with
  | number x => cases h
  | string | boolean | closure | primitive => cases h; exact ⟨_, rfl⟩

theorem arithmetic_eq_error {op : Primitive}
    {f : Float → Float → Except (EvalError ν) (Value ν)} {a b : Value ν}
    {e : EvalError ν} (h : op.arithmetic f a b = .error e) :
    (∃ detail, e = .typeMismatch detail) ∨ ∃ x y, f x y = .error e := by
  rw [arithmetic] at h
  cases ha : op.number a with
  | error e' => rw [ha] at h; cases h; exact .inl (number_eq_error ha)
  | ok x =>
      cases hb : op.number b with
      | error e' => rw [ha, hb] at h; cases h; exact .inl (number_eq_error hb)
      | ok y => rw [ha, hb] at h; exact .inr ⟨x, y, h⟩

theorem applyPair_eq_error {op : Primitive} {a b : Value ν} {e : EvalError ν}
    (h : op.applyPair a b = .error e) :
    (∃ detail, e = .typeMismatch detail) ∨ e = .divideByZero := by
  cases op with
  | add | sub | mul | le =>
      rcases arithmetic_eq_error h with h | ⟨x, y, h⟩
      · exact .inl h
      · cases h
  | div =>
      rcases arithmetic_eq_error h with h | ⟨x, y, h⟩
      · exact .inl h
      · split at h
        · exact .inr (Except.error.inj h).symm
        · cases h
  | equal => cases h

theorem apply_eq_error {op : Primitive} {args : List (Value ν)}
    {e : EvalError ν} (h : op.apply args = .error e) :
    (∃ detail, e = .typeMismatch detail) ∨
      (∃ callee m n, e = .arity callee m n) ∨ e = .divideByZero := by
  match args with
  | [a, b] => exact (applyPair_eq_error h).imp_right .inr
  | [] | [_] | _ :: _ :: _ :: _ =>
      exact .inr (.inl ⟨_, _, _, (Except.error.inj h).symm⟩)

end Primitive

end BraceLisp
