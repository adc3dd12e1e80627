import BraceLisp.Env

/-!
# What a call binds

A call binds every parameter to its argument, in front of what the closure
holds. So a name is either a parameter, and then what the closure holds for it
does not show, or it is looked up there as before (`Env.find?_bindAll_cases`).
Nothing that was bound is lost: in order, oldest first, the bindings of a call
are those of the closure and then the parameters.
-/

namespace BraceLisp.Env

variable {ν : Type}

/-! ## Order -/

/-- The names of all bindings, oldest first. -/
def boundInOrder (env : Env ν) : List ν := env.boundNames.reverse

theorem boundInOrder_bindAll {env : Env ν} {params : List ν}
    {vs : List (Value ν)} (hlen : params.length = vs.length) :
    (env.bindAll params vs).boundInOrder = env.boundInOrder ++ params := by
  induction params generalizing env vs with
  | nil => exact (List.append_nil _).symm
  | cons p params ih =>
      obtain ⟨v, vs, rfl⟩ := List.exists_cons_of_length_eq_add_one hlen.symm
      rw [bindAll, ih (Nat.succ.inj hlen), boundInOrder, boundNames,
        List.reverse_cons, List.append_assoc]
      rfl

theorem length_boundInOrder (env : Env ν) :
    env.boundInOrder.length = env.size := by
  rw [boundInOrder, List.length_reverse]
  induction env using Env.rec (motive_1 := fun _ => True) with
  | empty => rfl
  | bind rest x v ih _ => rw [boundNames, size, List.length_cons, ih]
  | _ => trivial

/-! ## Lookups -/

variable [DecidableEq ν]

theorem find?_ne_none_iff {env : Env ν} {x : ν} :
    env.find? x ≠ none ↔ x ∈ env.boundNames := by
  induction env using Env.rec (motive_1 := fun _ => True) with
  | empty => simp [find?, boundNames]
  | bind rest y v ih _ =>
      rw [find?, boundNames, List.mem_cons]
      split
      · next h => simp [h]
      · next h => simp [ih, Ne.symm h]
  | _ => trivial

theorem mem_names {env : Env ν} {x : ν} :
    x ∈ env.names ↔ env.find? x ≠ none := by
  rw [names, List.mem_eraseDups, find?_ne_none_iff]

/-- Behind a call a name is that of the argument at its place, whatever the
environment, or no parameter, and then it is looked up as before. -/
theorem find?_bindAll_cases {params : List ν} {vs : List (Value ν)}
    (hlen : params.length = vs.length) (x : ν) :
    (∃ (i : Nat) (v : Value ν), params[i]? = some x ∧ vs[i]? = some v ∧
        ∀ env : Env ν, (env.bindAll params vs).find? x = some v) ∨
      x ∉ params ∧
        ∀ env : Env ν, (env.bindAll params vs).find? x = env.find? x := by
  induction params generalizing vs with
  | nil => exact .inr ⟨List.not_mem_nil, fun _ => rfl⟩
  | cons p params ih =>
      obtain ⟨v, vs, rfl⟩ := List.exists_cons_of_length_eq_add_one hlen.symm
      rcases ih (Nat.succ.inj hlen) with ⟨i, w, hi, hw, hfind⟩ | ⟨hx, hfind⟩
      · exact .inl ⟨i + 1, w, hi, hw, fun env => hfind _⟩
      · by_cases hpx : p = x
        · exact .inl ⟨0, v, congrArg some hpx, rfl, fun env =>
            (hfind _).trans (if_pos hpx)⟩
        · exact .inr ⟨by simp [Ne.symm hpx, hx], fun env =>
            (hfind _).trans (if_neg hpx)⟩

/-- In a call a parameter is looked up to the very value that was passed. -/
theorem lookup_extend_cases {env env' : Env ν} {params : List ν}
    {vs : List (Value ν)} (h : env.extend params vs = .ok env') (x : ν) :
    (∃ (i : Nat) (v : Value ν), params[i]? = some x ∧ vs[i]? = some v ∧
        env'.lookup x = .ok v) ∨
      x ∉ params ∧ env'.lookup x = env.lookup x := by
  rw [extend] at h
  split at h
  · next hlen =>
      cases h
      rcases find?_bindAll_cases hlen x with ⟨i, v, hi, hv, h⟩ | ⟨hx, h⟩
      · exact .inl ⟨i, v, hi, hv, by rw [lookup, h]⟩
      · exact .inr ⟨hx, by rw [lookup, lookup, h]⟩
  · cases h

theorem find?_bindAll_congr {x : ν} {params : List ν} {vs : List (Value ν)}
    {env env' : Env ν} (hlen : params.length = vs.length)
    (h : x ∉ params → env.find? x = env'.find? x) :
    (env.bindAll params vs).find? x = (env'.bindAll params vs).find? x := by
  rcases find?_bindAll_cases hlen x with ⟨i, v, -, -, hfind⟩ | ⟨hx, hfind⟩
  · rw [hfind, hfind]
  · rw [hfind, hfind, h hx]

theorem find?_bindAll_ne_none {env : Env ν} {params : List ν}
    {vs : List (Value ν)} (hlen : params.length = vs.length) {x : ν}
    (h : x ∉ params → env.find? x ≠ none) :
    (env.bindAll params vs).find? x ≠ none := by
  rcases find?_bindAll_cases hlen x with ⟨i, v, -, -, hfind⟩ | ⟨hx, hfind⟩
  · rw [hfind]
    exact Option.some_ne_none v
  · rw [hfind]
    exact h hx

end BraceLisp.Env
