import BraceLisp.Proofs.Bindings
import Mathlib.Data.List.Nodup

/-!
# Environments are maps that remember

An environment keeps every binding that was ever made, and a name means the last
of them. `Env.Made` tells an environment together with its history: the bindings
in the order in which they were made, one by one or by calls. Everything that
can be asked of an environment is read off the history, and `LastAt` is the one
notion that it takes: the place where a name was bound last.

Lookups and visible names are found by two walks that do not know of each other,
one that stops at the first binding of its name and one that skips the names it
has met. Both begin at the last binding, so one more binding changes what they
find in the same way: it goes in front, and what it hides is gone
(`Env.names_bind`). The laws are inductions on the environment by this step.
-/

namespace BraceLisp

variable {ν : Type}

/-! ## Last places -/

/-- The name stands at the place `i`, and nowhere behind it. -/
def LastAt (names : List ν) (i : Nat) (x : ν) : Prop :=
  names[i]? = some x ∧ ∀ j, i < j → names[j]? ≠ some x

theorem lastAt_snoc_self (names : List ν) (x : ν) :
    LastAt (names ++ [x]) names.length x := by
  refine ⟨List.getElem?_concat_length, fun j hj => ?_⟩
  have hle : (names ++ [x]).length ≤ j := by
    rw [List.length_append]
    exact hj
  rw [List.getElem?_eq_none hle]
  exact nofun

theorem lastAt_snoc_of_ne {names : List ν} {i : Nat} {x y : ν} (hyx : y ≠ x) :
    LastAt (names ++ [y]) i x ↔ LastAt names i x := by
  have hget : ∀ j : Nat,
      (names ++ [y])[j]? = some x ↔ names[j]? = some x := by
    intro j
    rcases Nat.lt_trichotomy j names.length with hj | rfl | hj
    · rw [List.getElem?_append_left hj]
    · rw [List.getElem?_concat_length, List.getElem?_eq_none (Nat.le_refl _)]
      simp [hyx]
    · have hle : (names ++ [y]).length ≤ j := by
        rw [List.length_append]
        exact hj
      rw [List.getElem?_eq_none hle, List.getElem?_eq_none (Nat.le_of_lt hj)]
  simp only [LastAt, ne_eq, hget]

theorem LastAt.lt_length {names : List ν} {i : Nat} {x : ν}
    (h : LastAt names i x) : i < names.length :=
  (List.getElem?_eq_some_iff.mp h.1).1

theorem LastAt.unique {names : List ν} {i j : Nat} {x : ν}
    (hi : LastAt names i x) (hj : LastAt names j x) : i = j := by
  rcases Nat.lt_trichotomy i j with h | h | h
  · exact absurd hj.1 (hi.2 j h)
  · exact h
  · exact absurd hi.1 (hj.2 i h)

/-! ## Names without repetitions -/

section Names

variable [DecidableEq ν]

theorem eraseDups_filter (p : ν → Bool) (names : List ν) :
    (names.filter p).eraseDups = names.eraseDups.filter p := by
  match names with
  | [] => rfl
  | x :: names =>
      have ih := eraseDups_filter p (names.filter (!· == x))
      rw [List.filter_filter] at ih
      rw [List.eraseDups_cons]
      cases hx : p x with
      | true =>
          rw [List.filter_cons_of_pos hx, List.filter_cons_of_pos hx,
            List.eraseDups_cons, List.filter_filter, ← ih]
          simp only [Bool.and_comm]
      | false =>
          -- What passes the filter is not `x` anyway.
          have hne : ∀ y ∈ names, p y = (p y && !y == x) := by
            intro y _
            by_cases hyx : y = x
            · simp [hyx, hx]
            · simp [hyx]
          rw [List.filter_cons_of_neg (by simp [hx]),
            List.filter_cons_of_neg (by simp [hx]), ← ih,
            List.filter_congr hne]
termination_by names.length
decreasing_by
  exact Nat.lt_succ_of_le (List.length_filter_le _ _)

namespace Env

theorem names_bind (rest : Env ν) (x : ν) (v : Value ν) :
    (rest.bind x v).names = x :: rest.names.filter (!· == x) := by
  rw [names, boundNames, List.eraseDups_cons, eraseDups_filter]
  rfl

theorem nodup_names (env : Env ν) : env.names.Nodup := by
  induction env using Env.rec (motive_1 := fun _ => True) with
  | empty => exact .nil
  | bind rest x v ih _ =>
      rw [names_bind, List.nodup_cons]
      exact ⟨by simp, ih.filter _⟩
  | _ => trivial

/-- A call shows its parameters, the last first, and then what they leave of the
older names. -/
theorem names_bindAll {env : Env ν} {params : List ν} {vs : List (Value ν)}
    (hlen : params.length = vs.length) :
    (env.bindAll params vs).names =
      params.reverse.eraseDups ++ env.names.filter (· ∉ params) := by
  have hbound : (env.bindAll params vs).boundNames =
      params.reverse ++ env.boundNames := by
    have h := congrArg List.reverse (env.boundInOrder_bindAll hlen)
    rwa [boundInOrder, boundInOrder, List.reverse_append, List.reverse_reverse,
      List.reverse_reverse] at h
  rw [names, hbound, List.eraseDups_append, List.removeAll, eraseDups_filter]
  simp [names]

end Env

end Names

/-! ## Histories -/

namespace Env

/-- An environment that can be made, with the bindings that were made for it, in
order. -/
inductive Made : Env ν → List (ν × Value ν) → Prop where
  | empty : Made .empty []
  | bind {env : Env ν} {history : List (ν × Value ν)} (h : Made env history)
      (x : ν) (v : Value ν) : Made (env.bind x v) (history ++ [(x, v)])
  | extend {env env' : Env ν} {history : List (ν × Value ν)} {params : List ν}
      {args : List (Value ν)} (h : Made env history)
      (hextend : env.extend params args = .ok env') :
      Made env' (history ++ params.zip args)

/-- The bindings of an environment, hidden ones included, oldest first. -/
def bindings : Env ν → List (ν × Value ν)
  | empty => []
  | bind rest x v => rest.bindings ++ [(x, v)]

theorem bindings_bindAll (env : Env ν) (params : List ν)
    (vs : List (Value ν)) :
    (env.bindAll params vs).bindings = env.bindings ++ params.zip vs := by
  induction params generalizing env vs with
  | nil => exact (List.append_nil _).symm
  | cons p params ih =>
      match vs with
      | [] => exact (List.append_nil _).symm
      | v :: vs =>
          rw [bindAll, ih, bindings, List.append_assoc, List.zip_cons_cons]
          rfl

theorem Made.bindings_eq {env : Env ν} {history : List (ν × Value ν)}
    (h : env.Made history) : env.bindings = history := by
  induction h with
  | empty => rfl
  | bind _ x v ih => rw [bindings, ih]
  | extend _ hextend ih =>
      rw [Env.extend] at hextend
      split at hextend
      · cases hextend
        rw [bindings_bindAll, ih]
      · cases hextend

/-- The names of all bindings, oldest first. -/
theorem map_fst_bindings (env : Env ν) :
    env.bindings.map Prod.fst = env.boundInOrder := by
  induction env using Env.rec (motive_1 := fun _ => True) with
  | empty => rfl
  | bind rest x v ih _ =>
      rw [bindings, List.map_append, ih, boundInOrder, boundInOrder, boundNames,
        List.reverse_cons]
      rfl
  | _ => trivial

theorem size_eq_length_bindings (env : Env ν) :
    env.size = env.bindings.length := by
  rw [← length_boundInOrder, ← map_fst_bindings, List.length_map]

variable [DecidableEq ν]

/-- A name is looked up to the value that it was last bound to. -/
theorem find?_eq_some_iff {env : Env ν} {x : ν} {v : Value ν} :
    env.find? x = some v ↔
      ∃ i, env.bindings[i]? = some (x, v) ∧
        LastAt (env.bindings.map Prod.fst) i x := by
  induction env using Env.rec (motive_1 := fun _ => True) with
  | empty => simp [find?, bindings]
  | bind rest y w ih _ =>
      rw [find?, bindings, List.map_append]
      by_cases hyx : y = x
      · subst hyx
        have hlast := lastAt_snoc_self (rest.bindings.map Prod.fst) y
        rw [List.length_map] at hlast
        rw [if_pos rfl]
        constructor
        · rintro ⟨⟩
          exact ⟨_, List.getElem?_concat_length, hlast⟩
        · rintro ⟨i, hi, h⟩
          rw [h.unique hlast, List.getElem?_concat_length] at hi
          cases hi
          rfl
      · rw [if_neg hyx, ih]
        refine exists_congr fun i => ?_
        rw [List.map_singleton, lastAt_snoc_of_ne hyx]
        refine and_congr_left fun h => ?_
        have hi : i < rest.bindings.length := by simpa using h.lt_length
        rw [List.getElem?_append_left hi]
  | _ => trivial

/-- The visible names stand in the order of their last bindings, the most recent
first. -/
theorem names_pairwise (env : Env ν) :
    env.names.Pairwise fun x y => ∀ i j,
      LastAt env.boundInOrder i x → LastAt env.boundInOrder j y → j < i := by
  induction env using Env.rec (motive_1 := fun _ => True) with
  | empty => exact .nil
  | bind rest z v ih _ =>
      have horder :
          (rest.bind z v).boundInOrder = rest.boundInOrder ++ [z] := by
        rw [boundInOrder, boundNames, List.reverse_cons]
        rfl
      rw [names_bind, horder, List.pairwise_cons]
      constructor
      · intro y hy i j hi hj
        have hyz : y ≠ z := by simpa using (List.mem_filter.mp hy).2
        rw [lastAt_snoc_of_ne (Ne.symm hyz)] at hj
        rw [hi.unique (lastAt_snoc_self _ z)]
        exact hj.lt_length
      · refine (ih.filter _).imp_of_mem fun hx hy h i j hi hj => ?_
        have hxz := by simpa using (List.mem_filter.mp hx).2
        have hyz := by simpa using (List.mem_filter.mp hy).2
        rw [lastAt_snoc_of_ne (Ne.symm hxz)] at hi
        rw [lastAt_snoc_of_ne (Ne.symm hyz)] at hj
        exact h i j hi hj
  | _ => trivial

theorem lookup_eq_ok_iff {env : Env ν} {x : ν} {v : Value ν} :
    env.lookup x = .ok v ↔ env.find? x = some v := by
  rw [lookup]
  cases env.find? x <;> simp

/-- In a call the last of several parameters of one name has the name. -/
theorem find?_bindAll_of_lastAt {params : List ν} {vs : List (Value ν)}
    (hlen : params.length = vs.length) {i : Nat} {x : ν} {v : Value ν}
    (hx : LastAt params i x) (hv : vs[i]? = some v) (env : Env ν) :
    (env.bindAll params vs).find? x = some v := by
  rw [find?_eq_some_iff, bindings_bindAll, List.map_append,
    List.map_fst_zip (Nat.le_of_eq hlen)]
  refine ⟨env.bindings.length + i, ?_, ?_, fun j hj => ?_⟩
  · rw [List.getElem?_append_right (Nat.le_add_right ..),
      Nat.add_sub_cancel_left, List.getElem?_zip_eq_some]
    exact ⟨hx.1, hv⟩
  · rw [← List.length_map Prod.fst,
      List.getElem?_append_right (Nat.le_add_right ..), Nat.add_sub_cancel_left]
    exact hx.1
  · have hle : (env.bindings.map Prod.fst).length ≤ j := by
      rw [List.length_map]
      omega
    rw [List.getElem?_append_right hle, List.length_map]
    exact hx.2 _ (by omega)

theorem find?_bindAll_of_not_mem {params : List ν} {vs : List (Value ν)}
    (hlen : params.length = vs.length) {x : ν} (hx : x ∉ params)
    (env : Env ν) : (env.bindAll params vs).find? x = env.find? x := by
  rcases find?_bindAll_cases hlen x with ⟨i, v, hi, -, -⟩ | ⟨-, hfind⟩
  · exact absurd (List.mem_of_getElem? hi) hx
  · exact hfind env

/-! ## The law -/

/-- What an environment answers is told by its history. A name is looked up to
the value that it was last bound to, and it is found if it is visible; the
visible names are listed once each, in the order of their last bindings; and
bindings that are hidden still count. A call that has as many arguments as
parameters, and no other, gives an environment in which a parameter is the
argument at its last place and all other names are as before. -/
theorem shadows_by_history {env : Env ν} {history : List (ν × Value ν)}
    (h : env.Made history) :
    (∀ x v, env.lookup x = .ok v ↔ ∃ i, history[i]? = some (x, v) ∧
        LastAt (history.map Prod.fst) i x) ∧
      (∀ x, (∃ v, env.lookup x = .ok v) ↔ x ∈ env.names) ∧
      env.names.Nodup ∧
      (env.names.Pairwise fun x y => ∀ i j,
        LastAt (history.map Prod.fst) i x →
        LastAt (history.map Prod.fst) j y → j < i) ∧
      env.size = history.length ∧
      ∀ (params : List ν) (args : List (Value ν)),
        (∀ e, env.extend params args = .error e ↔
          params.length ≠ args.length ∧
            e = .arity "closure" params.length args.length) ∧
        (params.length = args.length → ∃ env',
          env.extend params args = .ok env' ∧
          (∀ x i, LastAt params i x →
            ∃ v, args[i]? = some v ∧ env'.lookup x = .ok v) ∧
          (∀ x, x ∉ params → env'.lookup x = env.lookup x) ∧
          env'.names =
            params.reverse.eraseDups ++ env.names.filter (· ∉ params)) := by
  obtain rfl := h.bindings_eq
  refine ⟨?_, ?_, env.nodup_names, ?_, env.size_eq_length_bindings, ?_⟩
  · intro x v
    rw [lookup_eq_ok_iff, find?_eq_some_iff]
  · intro x
    rw [mem_names, Option.ne_none_iff_exists']
    simp only [lookup_eq_ok_iff]
  · rw [map_fst_bindings]
    exact env.names_pairwise
  · intro params args
    rw [extend]
    by_cases hlen : params.length = args.length
    · rw [if_pos hlen]
      have hok : ∀ e : EvalError ν,
          Except.ok (env.bindAll params args) ≠ .error e := by
        intro e h
        cases h
      refine ⟨fun e => iff_of_false (hok e) fun h => h.1 hlen, fun _ => ?_⟩
      refine ⟨env.bindAll params args, rfl, ?_, ?_, names_bindAll hlen⟩
      · intro x i hx
        have hi : i < args.length := hlen ▸ hx.lt_length
        have hv := List.getElem?_eq_getElem hi
        exact ⟨args[i], hv,
          lookup_eq_ok_iff.mpr (find?_bindAll_of_lastAt hlen hx hv env)⟩
      · intro x hx
        rw [lookup, lookup, find?_bindAll_of_not_mem hlen hx]
    · rw [if_neg hlen]
      refine ⟨fun e => ⟨?_, ?_⟩, fun h => absurd h hlen⟩
      · rintro ⟨⟩
        exact ⟨hlen, rfl⟩
      · rintro ⟨-, rfl⟩
        rfl

/-- A call that names one parameter twice, in an environment that binds it
already. -/
theorem last_of_equal_parameters :
    let env : Env String := .bind (.bind .empty "x" (.number 1)) "z" (.number 2)
    env.Made [("x", .number 1), ("z", .number 2)] ∧ ∃ env' : Env String,
      env.extend ["x", "y", "x"] [.string "a", .string "b", .string "c"] =
        .ok env' ∧
      env'.lookup "x" = .ok (.string "c") ∧
      env'.lookup "z" = env.lookup "z" ∧
      env'.names = ["x", "y", "z"] := by
  intro env
  have h : env.Made [("x", .number 1), ("z", .number 2)] :=
    .bind (.bind .empty "x" _) "z" _
  obtain ⟨-, -, -, -, -, hcall⟩ := shadows_by_history h
  obtain ⟨env', hextend, hparams, hothers, hnames⟩ :=
    (hcall ["x", "y", "x"] [.string "a", .string "b", .string "c"]).2 rfl
  have hlast : LastAt ["x", "y", "x"] 2 "x" :=
    ⟨rfl, fun j hj => by
      rw [List.getElem?_eq_none hj]
      exact (Option.some_ne_none _).symm⟩
  obtain ⟨v, hv, hx⟩ := hparams "x" 2 hlast
  cases hv
  exact ⟨h, env', hextend, hx, hothers "z" (by decide),
    hnames.trans (by decide)⟩

end Env

end BraceLisp
