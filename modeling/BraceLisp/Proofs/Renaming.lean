import BraceLisp.Program
import BraceLisp.Proofs.Closures
import BraceLisp.Proofs.FreeNames
import BraceLisp.Proofs.Reading
import BraceLisp.Proofs.Simulation

/-!
# Bound names do not matter

Two expressions are alpha-equivalent if one becomes the other when parameters
are renamed, each together with the places where it is meant. To compare them
without renaming anything, a `Pairing` says which name on the left answers to
which on the right; a pair of parameter lists extends it the way a call extends
an environment, so that a later pair hides whatever shares a name with it on
either side. What holds of pairings, such as being symmetric, is kept by
extending them, and so `Expr.AlphaEquiv` is an equivalence.

Values that come out of two such runs are closures with different parameters,
bodies and environments. `Value.Renamed` allows this as long as the bodies are
alike under some pairing, and the environments give related values to the names
that answer to each other.

The pairing of a body and the environment of its call are extended by the same
recursion, so they stay in step (`Env.RenamedUnder.bindAll`), and no message
shows a bound name.
-/

namespace BraceLisp

variable {ν : Type}

/-- Which name on the left answers to which name on the right. -/
abbrev Pairing (ν : Type) := ν → ν → Prop

namespace Pairing

/-- Behind a parameter on either side: the two answer to each other, and
neither to anything else. -/
def bind (ρ : Pairing ν) (p q : ν) : Pairing ν :=
  fun x y => x = p ∧ y = q ∨ x ≠ p ∧ y ≠ q ∧ ρ x y

/-- Behind parameter lists of the same length, paired from left to right. -/
def bindAll (ρ : Pairing ν) : List ν → List ν → Pairing ν
  | p :: params, q :: params' => (ρ.bind p q).bindAll params params'
  | _, _ => ρ

theorem bindAll_refl {ρ : Pairing ν} (hρ : ∀ x, ρ x x) (params : List ν) :
    ∀ x, ρ.bindAll params params x x := by
  induction params generalizing ρ with
  | nil => exact hρ
  | cons p params ih =>
      refine ih fun x => ?_
      by_cases hx : x = p
      · exact .inl ⟨hx, hx⟩
      · exact .inr ⟨hx, hx, hρ x⟩

theorem bindAll_symm {ρ σ : Pairing ν} (h : ∀ x y, ρ x y → σ y x)
    (params params' : List ν) :
    ∀ x y, ρ.bindAll params params' x y → σ.bindAll params' params y x := by
  induction params generalizing ρ σ params' with
  | nil =>
      cases params' with
      | nil => exact h
      | cons => exact h
  | cons p params ih =>
      cases params' with
      | nil => exact h
      | cons q params' =>
          refine ih ?_ params'
          rintro x y (⟨hx, hy⟩ | ⟨hx, hy, hxy⟩)
          · exact .inl ⟨hy, hx⟩
          · exact .inr ⟨hy, hx, h x y hxy⟩

theorem bindAll_trans {ρ σ τ : Pairing ν}
    (h : ∀ x y z, ρ x y → σ y z → τ x z) {ps qs rs : List ν}
    (hpq : ps.length = qs.length) (hqr : qs.length = rs.length) :
    ∀ x y z, ρ.bindAll ps qs x y → σ.bindAll qs rs y z →
      τ.bindAll ps rs x z := by
  induction ps generalizing ρ σ τ qs rs with
  | nil =>
      obtain rfl := List.length_eq_zero_iff.mp hpq.symm
      obtain rfl := List.length_eq_zero_iff.mp hqr.symm
      exact h
  | cons p ps ih =>
      obtain ⟨q, qs, rfl⟩ := List.exists_cons_of_length_eq_add_one hpq.symm
      obtain ⟨r, rs, rfl⟩ := List.exists_cons_of_length_eq_add_one hqr.symm
      refine ih ?_ (Nat.succ.inj hpq) (Nat.succ.inj hqr)
      rintro x y z (⟨hx, hy⟩ | ⟨hx, hy, hxy⟩) (⟨hy', hz⟩ | ⟨hy', hz, hyz⟩)
      · exact .inl ⟨hx, hz⟩
      · exact absurd hy hy'
      · exact absurd hy' hy
      · exact .inr ⟨hx, hz, h x y z hxy hyz⟩

end Pairing

mutual

/-- The same expression but for the names, where names at the same place answer
to each other. -/
inductive Expr.AlikeUnder : Pairing ν → Expr ν → Expr ν → Prop where
  | number {ρ : Pairing ν} (x : Float) :
      Expr.AlikeUnder ρ (.number x) (.number x)
  | string {ρ : Pairing ν} (s : String) :
      Expr.AlikeUnder ρ (.string s) (.string s)
  | ident {ρ : Pairing ν} {x y : ν} (h : ρ x y) :
      Expr.AlikeUnder ρ (.ident x) (.ident y)
  | cond {ρ : Pairing ν} {t t' a a' b b' : Expr ν}
      (ht : Expr.AlikeUnder ρ t t') (ha : Expr.AlikeUnder ρ a a')
      (hb : Expr.AlikeUnder ρ b b') :
      Expr.AlikeUnder ρ (.cond t a b) (.cond t' a' b')
  | lam {ρ : Pairing ν} {params params' : List ν} {body body' : Expr ν}
      (hlen : params.length = params'.length)
      (h : Expr.AlikeUnder (ρ.bindAll params params') body body') :
      Expr.AlikeUnder ρ (.lam params body) (.lam params' body')
  | app {ρ : Pairing ν} {f f' : Expr ν} {args args' : List (Expr ν)}
      (hf : Expr.AlikeUnder ρ f f') (hargs : Expr.AllAlikeUnder ρ args args') :
      Expr.AlikeUnder ρ (.app f args) (.app f' args')

inductive Expr.AllAlikeUnder :
    Pairing ν → List (Expr ν) → List (Expr ν) → Prop where
  | nil {ρ : Pairing ν} : Expr.AllAlikeUnder ρ [] []
  | cons {ρ : Pairing ν} {e e' : Expr ν} {es es' : List (Expr ν)}
      (h : Expr.AlikeUnder ρ e e') (hs : Expr.AllAlikeUnder ρ es es') :
      Expr.AllAlikeUnder ρ (e :: es) (e' :: es')

end

/-- Alpha-equivalence: equal but for the names of parameters. A name that no
parameter list around it binds answers only to itself. -/
def Expr.AlphaEquiv (e e' : Expr ν) : Prop := e.AlikeUnder Eq e'

namespace Expr

theorem AlikeUnder.refl {ρ : Pairing ν} (hρ : ∀ x, ρ x x) (e : Expr ν) :
    e.AlikeUnder ρ e := by
  induction e using induction generalizing ρ with
  | number x => exact .number x
  | string s => exact .string s
  | ident x => exact .ident (hρ x)
  | cond t a b iht iha ihb => exact .cond (iht hρ) (iha hρ) (ihb hρ)
  | lam params body ih => exact .lam rfl (ih (ρ.bindAll_refl hρ params))
  | app f args ihf ihargs =>
      refine .app (ihf hρ) ?_
      induction args with
      | nil => exact .nil
      | cons a args ih =>
          rw [List.forall_mem_cons] at ihargs
          exact .cons (ihargs.1 hρ) (ih ihargs.2)

mutual

theorem AlikeUnder.symm {ρ σ : Pairing ν} {e e' : Expr ν}
    (h : e.AlikeUnder ρ e') (hσ : ∀ x y, ρ x y → σ y x) :
    e'.AlikeUnder σ e := by
  cases h with
  | number x => exact .number x
  | string s => exact .string s
  | ident hxy => exact .ident (hσ _ _ hxy)
  | cond ht ha hb => exact .cond (ht.symm hσ) (ha.symm hσ) (hb.symm hσ)
  | lam hlen hbody =>
      exact .lam hlen.symm (hbody.symm (Pairing.bindAll_symm hσ _ _))
  | app hf hargs => exact .app (hf.symm hσ) (hargs.symm hσ)

theorem AllAlikeUnder.symm {ρ σ : Pairing ν} {es es' : List (Expr ν)}
    (h : AllAlikeUnder ρ es es') (hσ : ∀ x y, ρ x y → σ y x) :
    AllAlikeUnder σ es' es := by
  cases h with
  | nil => exact .nil
  | cons he hes => exact .cons (he.symm hσ) (hes.symm hσ)

end

mutual

theorem AlikeUnder.trans {ρ σ τ : Pairing ν} {e e' e'' : Expr ν}
    (h : e.AlikeUnder ρ e') (h' : e'.AlikeUnder σ e'')
    (hτ : ∀ x y z, ρ x y → σ y z → τ x z) : e.AlikeUnder τ e'' := by
  cases h with
  | number x => cases h' with | number => exact .number x
  | string s => cases h' with | string => exact .string s
  | ident hxy => cases h' with | ident hyz => exact .ident (hτ _ _ _ hxy hyz)
  | cond ht ha hb =>
      cases h' with
      | cond ht' ha' hb' =>
          exact .cond (ht.trans ht' hτ) (ha.trans ha' hτ) (hb.trans hb' hτ)
  | lam hlen hbody =>
      cases h' with
      | lam hlen' hbody' =>
          exact .lam (hlen.trans hlen')
            (hbody.trans hbody' (Pairing.bindAll_trans hτ hlen hlen'))
  | app hf hargs =>
      cases h' with
      | app hf' hargs' => exact .app (hf.trans hf' hτ) (hargs.trans hargs' hτ)

theorem AllAlikeUnder.trans {ρ σ τ : Pairing ν} {es es' es'' : List (Expr ν)}
    (h : AllAlikeUnder ρ es es') (h' : AllAlikeUnder σ es' es'')
    (hτ : ∀ x y z, ρ x y → σ y z → τ x z) : AllAlikeUnder τ es es'' := by
  cases h with
  | nil => cases h' with | nil => exact .nil
  | cons he hes =>
      cases h' with
      | cons he' hes' => exact .cons (he.trans he' hτ) (hes.trans hes' hτ)

end

theorem AllAlikeUnder.forall₂ {ρ : Pairing ν} :
    ∀ {es es' : List (Expr ν)}, AllAlikeUnder ρ es es' →
      List.Forall₂ (AlikeUnder ρ) es es'
  | _, _, .nil => .nil
  | _, _, .cons h hs => .cons h hs.forall₂

theorem alphaEquiv_equivalence : Equivalence (@AlphaEquiv ν) where
  refl := AlikeUnder.refl fun _ => rfl
  symm h := h.symm fun _ _ => Eq.symm
  trans h h' := h.trans h' fun _ _ _ => Eq.trans

end Expr

variable [DecidableEq ν]

mutual

/-- The same value to every program, up to the names of parameters. -/
inductive Value.Renamed : Value ν → Value ν → Prop where
  | number (x : Float) : Value.Renamed (.number x) (.number x)
  | string (s : String) : Value.Renamed (.string s) (.string s)
  | boolean (b : Bool) : Value.Renamed (.boolean b) (.boolean b)
  | primitive (op : Primitive) :
      Value.Renamed (.primitive op) (.primitive op)
  | closure {i j : Nat} {ρ : Pairing ν} {params params' : List ν}
      {body body' : Expr ν} {env env' : Env ν}
      (h : (Expr.lam params body).AlikeUnder ρ (.lam params' body'))
      (henv : ∀ x y, ρ x y → Env.RenamedAt x y env env') :
      Value.Renamed (.closure i params body env)
        (.closure j params' body' env')

/-- The two names have related values, or they are one name and neither
environment binds it. -/
inductive Env.RenamedAt : ν → ν → Env ν → Env ν → Prop where
  | bound {x y : ν} {env env' : Env ν} {v v' : Value ν}
      (h : env.find? x = some v) (h' : env'.find? y = some v')
      (hv : Value.Renamed v v') : Env.RenamedAt x y env env'
  | unbound {x : ν} {env env' : Env ν}
      (h : env.find? x = none) (h' : env'.find? x = none) :
      Env.RenamedAt x x env env'

end

abbrev Value.AllRenamed : List (Value ν) → List (Value ν) → Prop :=
  List.Forall₂ Value.Renamed

theorem Value.Renamed.face_eq {v v' : Value ν} (h : v.Renamed v') :
    v.face = v'.face := by
  cases h <;> rfl

theorem Value.Renamed.text_eq {v v' : Value ν} (h : v.Renamed v') :
    v.text = v'.text := by
  cases h <;> rfl

namespace Env

/-- The environments give related values to the names that answer to each
other. -/
def RenamedUnder (ρ : Pairing ν) (env env' : Env ν) : Prop :=
  ∀ x y, ρ x y → RenamedAt x y env env'

theorem RenamedUnder.bind {ρ : Pairing ν} {env env' : Env ν}
    (h : RenamedUnder ρ env env') (p q : ν) {v v' : Value ν}
    (hv : v.Renamed v') :
    RenamedUnder (ρ.bind p q) (env.bind p v) (env'.bind q v') := by
  rintro x y (⟨rfl, rfl⟩ | ⟨hx, hy, hxy⟩)
  · exact .bound (if_pos rfl) (if_pos rfl) hv
  · have hfind : (env.bind p v).find? x = env.find? x := if_neg (Ne.symm hx)
    have hfind' : (env'.bind q v').find? y = env'.find? y :=
      if_neg (Ne.symm hy)
    cases h x y hxy with
    | bound hw hw' hr => exact .bound (hfind.trans hw) (hfind'.trans hw') hr
    | unbound hw hw' => exact .unbound (hfind.trans hw) (hfind'.trans hw')

/-- A call extends pairing and environments alike. -/
theorem RenamedUnder.bindAll {ρ : Pairing ν} {env env' : Env ν}
    (h : RenamedUnder ρ env env') {params params' : List ν}
    {vs vs' : List (Value ν)} (hvs : Value.AllRenamed vs vs')
    (hlen : params.length = vs.length) (hlen' : params'.length = vs'.length) :
    RenamedUnder (ρ.bindAll params params') (env.bindAll params vs)
      (env'.bindAll params' vs') := by
  induction hvs generalizing ρ env env' params params' with
  | nil =>
      obtain rfl := List.length_eq_zero_iff.mp hlen
      obtain rfl := List.length_eq_zero_iff.mp hlen'
      exact h
  | cons hv _ ih =>
      obtain ⟨p, params, rfl⟩ := List.exists_cons_of_length_eq_add_one hlen
      obtain ⟨q, params', rfl⟩ := List.exists_cons_of_length_eq_add_one hlen'
      exact ih (h.bind p q hv) (Nat.succ.inj hlen) (Nat.succ.inj hlen')

/-- The top-level environment holds no closures, so a name in it has one value
to every program. -/
theorem renamedUnder_top : RenamedUnder Eq top top := by
  rintro x _ rfl
  cases hx : top.find? x with
  | none => exact .unbound hx hx
  | some v =>
      refine .bound hx hx ?_
      have hv : v.All fun _ _ _ _ => False := Env.all_top.of_find? hx
      cases v with
      | number x => exact .number x
      | string s => exact .string s
      | boolean b => exact .boolean b
      | primitive op => exact .primitive op
      | closure => rw [Value.All] at hv; exact hv.1.elim

end Env

/-! ## Lockstep -/

/-- Expressions that are alike under some pairing, in environments that give
related values to the names that answer to each other. -/
def Expr.RenamedIn (e : Expr ν) (env : Env ν) (e' : Expr ν) (env' : Env ν) :
    Prop :=
  ∃ ρ, e.AlikeUnder ρ e' ∧ Env.RenamedUnder ρ env env'

theorem Expr.RenamedIn.step {e e' : Expr ν} {env env' : Env ν}
    (h : e.RenamedIn env e' env') :
    StepsAlike Value.Renamed RenamedIn e env e' env' := by
  obtain ⟨ρ, h, henv⟩ := h
  cases h with
  | number x => exact .number x
  | string s => exact .string s
  | ident hxy =>
      cases henv _ _ hxy with
      | bound hf hf' hv => exact .bound hf hf' hv
      | unbound hf hf' => exact .unbound hf hf'
  | lam hlen hbody => exact .lam fun i j => .closure (.lam hlen hbody) henv
  | cond ht ha hb =>
      exact .cond ⟨ρ, ht, henv⟩ ⟨ρ, ha, henv⟩ ⟨ρ, hb, henv⟩
  | app hf hargs =>
      exact .app ⟨ρ, hf, henv⟩ (hargs.forall₂.imp fun _ _ h => ⟨ρ, h, henv⟩)

theorem Value.renamed_simulation :
    Simulation (ν := ν) Value.Renamed Expr.RenamedIn where
  number := .number
  string := .string
  boolean := .boolean
  face_eq := Renamed.face_eq
  step := Expr.RenamedIn.step
  call h := by
    cases h with
    | closure h henv =>
        cases h with
        | lam hparams hbody =>
            refine ⟨hparams, fun hvs hlen => ⟨_, hbody, ?_⟩⟩
            refine Env.RenamedUnder.bindAll henv hvs hlen ?_
            rw [← hparams, hlen, hvs.length_eq]

theorem Expr.eval_matches_renamed (depth : Nat) {ρ : Pairing ν} {e e' : Expr ν}
    (h : e.AlikeUnder ρ e') {env env' : Env ν}
    (henv : Env.RenamedUnder ρ env env') :
    (e.eval depth env).Matches Value.Renamed (e'.eval depth env') :=
  Value.renamed_simulation.eval_matches depth ⟨ρ, h, henv⟩

/-! ## The law -/

namespace Program

/-- How a source ends as a program: with the text of its value or with a
failure. -/
def Ends (source : String) (r : Except Error String) : Prop :=
  Run.Ends (fun depth => interpret depth source) 0 r

theorem interpret_of_ofSource {source : String} {e : Expr String}
    (h : Expr.ofSource source = .ok e) (depth : Nat) :
    interpret depth source =
      Run.mapError .runtime (e.eval depth .top) >>= fun v => pure v.text := by
  rw [interpret, eval, h]
  rfl

/-- Alpha-equivalence is an equivalence, and sources of alpha-equivalent programs
end alike: with the same text, with the same failure, or not at all. -/
theorem ends_iff_of_alphaEquiv :
    Equivalence (@Expr.AlphaEquiv String) ∧
    ∀ {source source' : String} {e e' : Expr String},
      Expr.ofSource source = .ok e → Expr.ofSource source' = .ok e' →
      e.AlphaEquiv e' → ∀ r : Except Error String,
        Ends source r ↔ Ends source' r := by
  refine ⟨Expr.alphaEquiv_equivalence, ?_⟩
  intro source source' e e' h h' halpha r
  refine Run.ends_iff_of_matches (fun depth => ?_) 0 0 r
  rw [interpret_of_ofSource h, interpret_of_ofSource h']
  have heval := e.eval_matches_renamed depth halpha Env.renamedUnder_top
  exact .bind (heval.mapError _) fun v v' hv => .pure hv.text_eq

/-- A parameter renamed to the name of a constant, and one behind it to the
name that the first had. -/
theorem nested_calls_end_alike :
    let source :=
      "\x7b\x7blam \x7bx\x7d \x7b\x7blam \x7by\x7d \x7bequal? x y\x7d\x7d x\x7d\x7d \"a\"\x7d"
    let source' :=
      "\x7b\x7blam \x7btrue\x7d \x7b\x7blam \x7bx\x7d \x7bequal? true x\x7d\x7d true\x7d\x7d \"a\"\x7d"
    let e (x y : String) : Expr String :=
      .app (.lam [x] (.app (.lam [y] (.app (.ident "equal?")
        [.ident x, .ident y])) [.ident x])) [.string "a"]
    Expr.ofSource source = .ok (e "x" "y") ∧
      Expr.ofSource source' = .ok (e "true" "x") ∧
      (e "x" "y").AlphaEquiv (e "true" "x") ∧
      ∀ r, Ends source r ↔ Ends source' r := by
  intro source source' e
  let t (x y : String) : Term :=
    .list [.list [.symbol "lam", .list [.symbol x],
      .list [.list [.symbol "lam", .list [.symbol y],
        .list [.symbol "equal?", .symbol x, .symbol y]], .symbol x]],
      .atom (.string "a")]
  have hread : Term.ofSource source = .ok (t "x" "y") :=
    Term.ofSource_eq_ok_iff.mpr (by decide +kernel)
  have hread' : Term.ofSource source' = .ok (t "true" "x") :=
    Term.ofSource_eq_ok_iff.mpr (by decide +kernel)
  have h : Expr.ofSource source = .ok (e "x" "y") := by
    rw [Expr.ofSource, hread]
    with_unfolding_all rfl
  have h' : Expr.ofSource source' = .ok (e "true" "x") := by
    rw [Expr.ofSource, hread']
    with_unfolding_all rfl
  have halpha : (e "x" "y").AlphaEquiv (e "true" "x") := by
    refine .app (.lam rfl (.app (.lam rfl (.app (.ident ?_)
      (.cons (.ident ?_) (.cons (.ident ?_) .nil))))
      (.cons (.ident ?_) .nil))) (.cons (.string "a") .nil)
    all_goals simp [Pairing.bindAll, Pairing.bind]
  exact ⟨h, h', halpha, ends_iff_of_alphaEquiv.2 h h' halpha⟩

end Program

end BraceLisp
