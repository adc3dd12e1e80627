import BraceLisp.Proofs.Reads
import BraceLisp.Proofs.Stages

/-!
# What is wrong with the braces

The reader keeps the groups that are open and goes term by term; the depth is
counted over all of the source. They agree on what is wrong: a closing brace that
takes the depth below zero, the first of them, or else a depth that is not zero
at the end, and then the last opening brace that no closing one matches
(`Term.verdict`). There is at most one such brace, which makes it an equivalence
(`Token.FirstStray.unique`, `Token.LastUnmatched.unique`).

A group is closed where the depth first goes below that in front of it, and what
is in between is balanced (`Lexeme.closed_iff`). So as many groups are left open
as the depth at the end, and as many closing braces on a line behind it are what
the source lacks. Where the depth went below zero nothing behind it helps.
-/

namespace BraceLisp

open Lexeme

/-! ## Closed groups -/

namespace Lexeme

theorem NeverNegative.depth_nonneg {ls : List Lexeme} (h : NeverNegative ls) :
    0 ≤ depth ls := by
  have hall := h ls.length
  rwa [List.take_length] at hall

theorem NeverNegative.of_append {ls ms : List Lexeme}
    (h : NeverNegative (ls ++ ms)) : NeverNegative ls := by
  intro n
  have hn := h (min n ls.length)
  rwa [List.take_append_of_le_length (Nat.min_le_right _ _),
    ← List.take_take, List.take_length] at hn

theorem neverNegative_snoc {ls : List Lexeme} {l : Lexeme} :
    NeverNegative (ls ++ [l]) ↔ NeverNegative ls ∧ 0 ≤ depth (ls ++ [l]) := by
  refine ⟨fun h => ⟨h.of_append, h.depth_nonneg⟩, fun ⟨hls, hall⟩ n => ?_⟩
  rcases Nat.lt_or_ge ls.length n with hn | hn
  · rwa [List.take_of_length_le (by simpa using hn)]
  · rw [List.take_append_of_le_length hn]
    exact hls n

theorem balanced_iff_neverNegative {ls : List Lexeme} :
    Balanced ls ↔ NeverNegative ls ∧ depth ls = 0 :=
  ⟨fun h => ⟨h.depth_take, h.depth_eq_zero⟩, fun h => ⟨h.1, h.2⟩⟩

theorem eq_closeBrace_of_depth_neg {l : Lexeme} (h : depth [l] < 0) :
    l = closeBrace ∧ depth [l] = -1 := by
  cases l with
  | openBrace => exact absurd h (by decide)
  | closeBrace => exact ⟨rfl, rfl⟩
  | atom a =>
      rw [depth_atom_cons] at h
      exact absurd h (by decide)

/-- The group that these lexemes stand in is closed among them: the brace that
closes it has only balanced ones in front of it. -/
def Closed (ls : List Lexeme) : Prop :=
  ∃ inner rest, ls = inner ++ closeBrace :: rest ∧ Balanced inner

theorem Closed.append {ls : List Lexeme} (h : Closed ls) (ms : List Lexeme) :
    Closed (ls ++ ms) := by
  obtain ⟨inner, rest, rfl, hinner⟩ := h
  exact ⟨inner, rest ++ ms, List.append_assoc _ _ _, hinner⟩

/-- A group is closed where the depth goes below that in front of it. -/
theorem closed_iff {ls : List Lexeme} : Closed ls ↔ ¬NeverNegative ls := by
  constructor
  · intro ⟨inner, rest, hls, hinner⟩ h
    rw [hls, List.append_cons] at h
    have hneg := h.of_append.depth_nonneg
    rw [depth_append, hinner.depth_eq_zero] at hneg
    exact absurd hneg (by decide)
  · intro h
    induction ls using List.reverseRecOn with
    | nil => exact absurd NeverNegative.nil h
    | append_singleton ls l ih =>
        by_cases hls : NeverNegative ls
        · -- Only the last brace takes the depth below zero.
          have hnonneg := hls.depth_nonneg
          have hneg : depth ls + depth [l] < 0 := by
            rw [neverNegative_snoc, depth_append] at h
            exact Int.not_le.mp fun hall => h ⟨hls, hall⟩
          obtain ⟨rfl, hone⟩ := eq_closeBrace_of_depth_neg
            (show depth [l] < 0 by omega)
          exact ⟨ls, [], rfl, hls, by omega⟩
        · exact (ih hls).append [l]

/-- In balanced lexemes every group is closed. -/
theorem Balanced.closed {before after : List Lexeme}
    (h : Balanced (before ++ openBrace :: after)) : Closed after := by
  rw [closed_iff]
  intro hafter
  have hbefore : NeverNegative before := NeverNegative.of_append h.depth_take
  have hzero := h.depth_eq_zero
  have := hbefore.depth_nonneg
  have := hafter.depth_nonneg
  rw [depth_append, depth_openBrace_cons] at hzero
  omega

end Lexeme

/-! ## The brace to blame -/

namespace Token

/-- The place of the first closing brace that takes the depth below zero. -/
def FirstStray (tokens : List Token) (p : Position) : Prop :=
  ∃ before after, tokens = before ++ ⟨.closeBrace, p⟩ :: after ∧
    NeverNegative (before.map lexeme) ∧
    depth (before.map lexeme ++ [.closeBrace]) < 0

/-- The place of the last opening brace that no closing one matches. -/
def LastUnmatched (tokens : List Token) (p : Position) : Prop :=
  ∃ before after, tokens = before ++ ⟨.openBrace, p⟩ :: after ∧
    ¬Closed (after.map lexeme) ∧
    ∀ before' q after', after = before' ++ ⟨.openBrace, q⟩ :: after' →
      Closed (after'.map lexeme)

theorem FirstStray.not_neverNegative {tokens : List Token} {p : Position}
    (h : FirstStray tokens p) : ¬NeverNegative (tokens.map lexeme) := by
  obtain ⟨before, after, rfl, -, hneg⟩ := h
  intro hall
  rw [List.map_append, List.map_cons, List.append_cons] at hall
  exact Int.not_le.mpr hneg hall.of_append.depth_nonneg

theorem eq_of_first_stray {before more after after' : List Token}
    {p q : Position} (hneg : depth (before.map lexeme ++ [.closeBrace]) < 0)
    (hlow : NeverNegative ((before ++ more).map lexeme))
    (h : (⟨.closeBrace, p⟩ :: after : List Token) =
      more ++ ⟨.closeBrace, q⟩ :: after') : p = q := by
  match more with
  | [] => cases h; rfl
  | t :: more =>
      cases h
      rw [List.map_append, List.map_cons, List.append_cons] at hlow
      exact absurd hlow.of_append.depth_nonneg (Int.not_le.mpr hneg)

theorem FirstStray.unique {tokens : List Token} {p q : Position}
    (hp : FirstStray tokens p) (hq : FirstStray tokens q) : p = q := by
  obtain ⟨before, after, rfl, hlow, hneg⟩ := hp
  obtain ⟨before', after', h, hlow', hneg'⟩ := hq
  rcases List.append_eq_append_iff.mp h with
    ⟨more, rfl, hmore⟩ | ⟨more, rfl, hmore⟩
  · exact eq_of_first_stray hneg hlow' hmore
  · exact (eq_of_first_stray hneg' hlow hmore).symm

theorem eq_of_last_unmatched {more after after' : List Token} {p q : Position}
    (hclosed : ∀ before' q after',
      after = before' ++ ⟨.openBrace, q⟩ :: after' →
        Closed (after'.map lexeme))
    (hnot : ¬Closed (after'.map lexeme))
    (h : (⟨.openBrace, p⟩ :: after : List Token) =
      more ++ ⟨.openBrace, q⟩ :: after') : p = q := by
  match more with
  | [] => cases h; rfl
  | t :: more =>
      cases h
      exact absurd (hclosed more q after' rfl) hnot

theorem LastUnmatched.unique {tokens : List Token} {p q : Position}
    (hp : LastUnmatched tokens p) (hq : LastUnmatched tokens q) : p = q := by
  obtain ⟨before, after, rfl, hnot, hclosed⟩ := hp
  obtain ⟨before', after', h, hnot', hclosed'⟩ := hq
  rcases List.append_eq_append_iff.mp h with
    ⟨more, -, hmore⟩ | ⟨more, -, hmore⟩
  · exact eq_of_last_unmatched hclosed hnot' hmore
  · exact (eq_of_last_unmatched hclosed' hnot hmore).symm

end Token

/-! ## The verdict of the reader -/

namespace Term

open Token

theorem Reads.used {tokens rest : List Token} {ts : List Term}
    (h : Reads tokens ts rest) :
    ∃ used, tokens = used ++ rest ∧
      used.map Token.lexeme = flattenAll ts := by
  induction h with
  | refl tokens => exact ⟨[], rfl, rfl⟩
  | step h _ ih =>
      obtain ⟨first, hfirst, ht⟩ := flatten_of_next h
      obtain ⟨others, hothers, hts⟩ := ih
      refine ⟨first ++ others, ?_, ?_⟩
      · rw [hfirst, hothers, List.append_assoc]
      · rw [List.map_append, flattenAll, ht, hts]

/-- What the reader makes of tokens, and what counting makes of them. -/
inductive Verdict (tokens : List Token) :
    Except SyntaxError (List Term) → Prop where
  | balanced (ts : List Term) (h : Balanced (tokens.map lexeme)) :
      Verdict tokens (.ok ts)
  | stray {p : Position} (h : FirstStray tokens p) :
      Verdict tokens (.error (.unexpectedClose p))
  | unclosed {p : Position} (hlow : NeverNegative (tokens.map lexeme))
      (hpos : 0 < depth (tokens.map lexeme)) (h : LastUnmatched tokens p) :
      Verdict tokens (.error (.unclosedGroup p))

theorem verdict (tokens : List Token) :
    Verdict tokens (allOfTokensFrom [] tokens) := by
  cases h : allOfTokensFrom [] tokens with
  | ok ts =>
      refine .balanced ts ?_
      have hlexemes := flattenAll_of_allOfTokensFrom h
      rw [List.reverse_nil, flattenAll, List.nil_append] at hlexemes
      rw [← hlexemes]
      exact balanced_flattenAll ts
  | error e =>
      obtain ⟨ts, rest, rest', hreads, hne, hnext⟩ :=
        allOfTokensFrom_eq_error_iff.mp h
      obtain ⟨used, rfl, hts⟩ := hreads.used
      have hbalanced := balanced_flattenAll ts
      rw [← hts] at hbalanced
      obtain ⟨taken, hrest, hreading⟩ := reading_next rest
      rw [hnext] at hrest hreading
      dsimp only at hrest hreading
      cases hreading with
      | stray p =>
          refine .stray ⟨used, rest', by rw [hrest]; rfl,
            hbalanced.depth_take, ?_⟩
          rw [depth_append, hbalanced.depth_eq_zero]
          decide
      | @unclosed before after p hbefore hafter =>
          have hfront := NeverNegative.append hbalanced.depth_take hbefore
          have hdepth := hfront.depth_nonneg
          rw [← List.map_append] at hfront hdepth
          rw [List.append_nil] at hrest
          rw [hrest, ← List.append_assoc]
          refine .unclosed ?_ ?_ ⟨used ++ before, after, rfl, ?_, ?_⟩
          · rw [List.map_append, List.map_cons]
            exact hfront.append (NeverNegative.openBrace_cons hafter.depth_take)
          · rw [List.map_append, List.map_cons, depth_append,
              depth_openBrace_cons, hafter.depth_eq_zero]
            omega
          · rw [closed_iff, not_not]
            exact hafter.depth_take
          · intro before' q after' heq
            rw [heq, List.map_append, List.map_cons] at hafter
            exact hafter.closed
      | finished => exact absurd hrest hne

variable {tokens : List Token} {r : Except SyntaxError (List Term)}

theorem Verdict.ok_iff (h : Verdict tokens r) :
    (∃ ts, r = .ok ts) ↔ Balanced (tokens.map lexeme) := by
  cases h with
  | balanced ts h => exact iff_of_true ⟨ts, rfl⟩ h
  | stray h =>
      exact iff_of_false nofun fun hall => h.not_neverNegative hall.depth_take
  | unclosed _ hpos =>
      refine iff_of_false nofun fun hall => ?_
      rw [hall.depth_eq_zero] at hpos
      exact absurd hpos (by decide)

theorem Verdict.stray_iff (h : Verdict tokens r) (p : Position) :
    r = .error (.unexpectedClose p) ↔ FirstStray tokens p := by
  cases h with
  | balanced ts h =>
      exact iff_of_false nofun fun hp => hp.not_neverNegative h.depth_take
  | @stray q h =>
      constructor
      · intro heq
        cases heq
        exact h
      · intro hp
        rw [h.unique hp]
  | unclosed hlow =>
      exact iff_of_false nofun fun hp => hp.not_neverNegative hlow

theorem Verdict.exists_stray_iff (h : Verdict tokens r) :
    (∃ p, r = .error (.unexpectedClose p)) ↔
      ¬NeverNegative (tokens.map lexeme) := by
  cases h with
  | balanced ts h => exact iff_of_false nofun fun hnot => hnot h.depth_take
  | @stray p h => exact iff_of_true ⟨p, rfl⟩ h.not_neverNegative
  | unclosed hlow => exact iff_of_false nofun fun hnot => hnot hlow

theorem Verdict.exists_unclosed_iff (h : Verdict tokens r) :
    (∃ p, r = .error (.unclosedGroup p)) ↔
      NeverNegative (tokens.map lexeme) ∧ 0 < depth (tokens.map lexeme) := by
  cases h with
  | balanced ts h =>
      refine iff_of_false nofun fun hall => ?_
      rw [h.depth_eq_zero] at hall
      exact absurd hall.2 (by decide)
  | stray h => exact iff_of_false nofun fun hall => h.not_neverNegative hall.1
  | @unclosed p hlow hpos => exact iff_of_true ⟨p, rfl⟩ ⟨hlow, hpos⟩

theorem Verdict.unclosed_iff (h : Verdict tokens r) (p : Position) :
    r = .error (.unclosedGroup p) ↔
      NeverNegative (tokens.map lexeme) ∧ 0 < depth (tokens.map lexeme) ∧
        LastUnmatched tokens p := by
  rw [← and_assoc, ← h.exists_unclosed_iff]
  cases h with
  | balanced | stray => exact iff_of_false nofun fun hall => nomatch hall.1
  | @unclosed q _ _ h =>
      constructor
      · intro heq
        cases heq
        exact ⟨⟨_, rfl⟩, h⟩
      · intro ⟨_, hp⟩
        rw [h.unique hp]

end Term

/-! ## What is written behind a source -/

/-- The lexemes of a source come before those of the lines behind it. -/
theorem Tokens.lexemes?_append {p₁ p₂ : String} {ts : Tokens}
    (h : ofSource p₁ = .ok ts) :
    lexemes? (p₁ ++ "\n" ++ p₂) = (lexemes? p₂).map (ts.lexemes ++ ·) := by
  rw [lexemes?, lexemes?, ofSource_append h]
  cases ofSource p₂ with
  | error e => rfl
  | ok us =>
      show some (List.map Token.lexeme (ts.tokens ++ us.tokens.map _)) = _
      rw [List.map_append, List.map_map]
      rfl

theorem Written.closeBraces (k : Nat) :
    Written false (List.replicate k '}') (List.replicate k .closeBrace) := by
  induction k with
  | zero => exact .finish .nil nofun
  | succ k ih => exact .join .closeBrace ih

theorem Tokens.lexemes?_closeBraces (k : Nat) :
    lexemes? (String.ofList (List.replicate k '}')) =
      some (List.replicate k .closeBrace) := by
  rw [lexemes?_eq_some_iff_written, String.toList_ofList]
  exact .closeBraces k

theorem Lexeme.depth_closeBraces (k : Nat) :
    depth (List.replicate k closeBrace) = -k := by
  induction k with
  | zero => rfl
  | succ k ih =>
      rw [List.replicate_succ, depth_closeBrace_cons, ih]
      omega

theorem Lexeme.balanced_append_closeBraces {ls : List Lexeme}
    (h : NeverNegative ls) (k : Nat) :
    Balanced (ls ++ List.replicate k closeBrace) ↔ (k : Int) = depth ls := by
  constructor
  · intro hall
    have hzero := hall.depth_eq_zero
    rw [depth_append, depth_closeBraces] at hzero
    omega
  · intro hk
    refine ⟨fun n => ?_, ?_⟩
    · have hn := h n
      rw [List.take_append, depth_append, List.take_replicate,
        depth_closeBraces]
      rcases Nat.lt_or_ge ls.length n with hlen | hlen
      · rw [List.take_of_length_le (Nat.le_of_lt hlen)]
        omega
      · omega
    · rw [depth_append, depth_closeBraces]
      omega

namespace Term

theorem exists_allOfSource_iff {source : String} :
    (∃ ts, allOfSource source = .ok ts) ↔
      ∃ ls, Tokens.lexemes? source = some ls ∧ Balanced ls := by
  constructor
  · intro ⟨ts, h⟩
    exact ⟨_, allOfSource_eq_ok_iff.mp h, balanced_flattenAll ts⟩
  · intro ⟨ls, hls, h⟩
    obtain ⟨ts, rfl⟩ := balanced_iff.mp h
    exact ⟨ts, allOfSource_eq_ok_iff.mpr hls⟩

/-- A source is refused for a closing brace if and only if the depth goes below
zero, and then for the first brace that takes it there; for a group that is not
closed if and only if the depth does not go below zero but is not zero at the
end, and then for the last opening brace that no closing one matches. Otherwise
it is read. As many closing braces as the depth, on a line behind the source, are
the only number of them that closes its groups; nothing on the lines behind it
makes up for a closing brace too many. -/
theorem faults_by_depth {source : String} {ts : Tokens}
    (h : Tokens.ofSource source = .ok ts) :
    ((∃ p, allOfSource source = .error (.unexpectedClose p)) ↔
        ∃ n, depth (ts.lexemes.take n) < 0) ∧
      (∀ p, allOfSource source = .error (.unexpectedClose p) ↔
        Token.FirstStray ts.tokens p) ∧
      ((∃ p, allOfSource source = .error (.unclosedGroup p)) ↔
        (∀ n, 0 ≤ depth (ts.lexemes.take n)) ∧ 0 < depth ts.lexemes) ∧
      (∀ p, allOfSource source = .error (.unclosedGroup p) ↔
        (∀ n, 0 ≤ depth (ts.lexemes.take n)) ∧ 0 < depth ts.lexemes ∧
          Token.LastUnmatched ts.tokens p) ∧
      ((∃ terms, allOfSource source = .ok terms) ↔
        (∀ n, 0 ≤ depth (ts.lexemes.take n)) ∧ depth ts.lexemes = 0) ∧
      (∀ p, allOfSource source = .error (.unclosedGroup p) →
        ∀ k, (∃ terms, allOfSource (source ++ "\n" ++
            String.ofList (List.replicate k '}')) = .ok terms) ↔
          (k : Int) = depth ts.lexemes) ∧
      ∀ p, allOfSource source = .error (.unexpectedClose p) →
        ∀ text terms, allOfSource (source ++ "\n" ++ text) ≠ .ok terms := by
  have hread : allOfSource source = allOfTokensFrom [] ts.tokens := by
    rw [allOfSource, h]
  have hverdict := verdict ts.tokens
  rw [← hread] at hverdict
  refine ⟨?stray, hverdict.stray_iff, hverdict.exists_unclosed_iff,
    hverdict.unclosed_iff, ?ok, ?repaired, ?beyond⟩
  case stray =>
    rw [hverdict.exists_stray_iff, NeverNegative, not_forall]
    simp only [Int.not_le]
    rfl
  case ok =>
    rw [hverdict.ok_iff]
    exact balanced_iff_neverNegative
  case repaired =>
    intro p hp k
    have hlow : NeverNegative ts.lexemes :=
      (hverdict.exists_unclosed_iff.mp ⟨p, hp⟩).1
    rw [exists_allOfSource_iff, Tokens.lexemes?_append h,
      Tokens.lexemes?_closeBraces, ← balanced_append_closeBraces hlow]
    simp
  case beyond =>
    intro p hp text terms hterms
    obtain ⟨ls, hls, hall⟩ := exists_allOfSource_iff.mp ⟨terms, hterms⟩
    rw [Tokens.lexemes?_append h, Option.map_eq_some_iff] at hls
    obtain ⟨ms, -, rfl⟩ := hls
    exact hverdict.exists_stray_iff.mp ⟨p, hp⟩
      (NeverNegative.of_append hall.depth_take)

/-- Two groups left open around one that is closed, with a brace in a string; and
a closing brace too many in front of an opening one. -/
theorem open_groups_and_stray_brace :
    let source := "\x7ba \x7b\x7d \x7b\"\x7d\" b"
    let ts : Tokens :=
      ⟨[⟨.openBrace, ⟨1, 1⟩⟩, ⟨.atom (.symbol "a"), ⟨1, 2⟩⟩,
        ⟨.openBrace, ⟨1, 4⟩⟩, ⟨.closeBrace, ⟨1, 5⟩⟩, ⟨.openBrace, ⟨1, 7⟩⟩,
        ⟨.atom (.string "\x7d"), ⟨1, 8⟩⟩, ⟨.atom (.symbol "b"), ⟨1, 12⟩⟩],
        ⟨1, 13⟩⟩
    let us : Tokens :=
      ⟨[⟨.atom (.symbol "a"), ⟨1, 1⟩⟩, ⟨.closeBrace, ⟨1, 2⟩⟩,
        ⟨.openBrace, ⟨1, 3⟩⟩], ⟨1, 4⟩⟩
    (Tokens.ofSource source = .ok ts ∧
      allOfSource source = .error (.unclosedGroup ⟨1, 7⟩) ∧
      Token.LastUnmatched ts.tokens ⟨1, 7⟩ ∧
      ∀ k, (∃ terms, allOfSource (source ++ "\n" ++
        String.ofList (List.replicate k '}')) = .ok terms) ↔ (k : Int) = 2) ∧
      Tokens.ofSource "a\x7d\x7b" = .ok us ∧
      allOfSource "a\x7d\x7b" = .error (.unexpectedClose ⟨1, 2⟩) ∧
      Token.FirstStray us.tokens ⟨1, 2⟩ ∧
      ∀ text terms, allOfSource ("a\x7d\x7b" ++ "\n" ++ text) ≠ .ok terms := by
  intro source ts us
  have hts : Tokens.ofSource source = .ok ts := by
    decide +kernel
  have hus : Tokens.ofSource "a\x7d\x7b" = .ok us := by
    decide +kernel
  have hopen : allOfSource source = .error (.unclosedGroup ⟨1, 7⟩) := by
    rw [allOfSource, hts]
    exact allOfTokensFrom_of_fault (by decide) rfl []
  have hstray : allOfSource "a\x7d\x7b" =
      .error (.unexpectedClose ⟨1, 2⟩) := by
    rw [allOfSource, hus]
    exact (allOfTokensFrom_of_next (by decide) rfl []).trans
      (allOfTokensFrom_of_fault (by decide) rfl _)
  obtain ⟨-, -, -, hunclosed, -, hrepaired, -⟩ := faults_by_depth hts
  obtain ⟨-, hfirst, -, -, -, -, hbeyond⟩ := faults_by_depth hus
  refine ⟨⟨hts, hopen, ((hunclosed _).mp hopen).2.2, fun k => ?_⟩, hus, hstray,
    (hfirst _).mp hstray, hbeyond _ hstray⟩
  have hdepth : depth ts.lexemes = 2 := by
    decide
  rw [hrepaired _ hopen k, hdepth]

end Term

end BraceLisp
