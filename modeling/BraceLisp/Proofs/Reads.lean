import BraceLisp.Proofs.Balance
import Mathlib.Data.Nat.Find

/-!
# Read after read

A reader is asked for one term after another, and goes on after a fault. Each
read uses up the tokens of a term, a closing brace that is out of place, or all
that is left, which then ends inside of a group; only at the end it uses up
nothing (`Term.Reading`). A fault drops the groups that were open, but not what
has been used up, so reads share the tokens out among themselves, whatever they
come to (`Term.reads_share_tokens`).

The reader here keeps the tokens that are left. One that keeps an index instead,
into the tokens with a mark of the end behind them, answers the same and never
looks where nothing is (`Term.readAt_eq`).

The invariant of a single read is that the groups still open, each with its
brace, account for all tokens seen (`OpenGroup.Opened`).
-/

namespace BraceLisp

open Lexeme Term

/-! ## Where the depth stays -/

namespace Lexeme

/-- Counted from the left, no more braces are closed than opened. -/
def NeverNegative (ls : List Lexeme) : Prop := ∀ n, 0 ≤ depth (ls.take n)

theorem NeverNegative.nil : NeverNegative [] := Balanced.nil.depth_take

theorem NeverNegative.append {ls ms : List Lexeme} (hl : NeverNegative ls)
    (hm : NeverNegative ms) : NeverNegative (ls ++ ms) := by
  intro n
  have hl := hl n
  have hm := hm (n - ls.length)
  rw [List.take_append, depth_append]
  omega

theorem NeverNegative.openBrace_cons {ls : List Lexeme}
    (h : NeverNegative ls) : NeverNegative (openBrace :: ls) := by
  intro n
  cases n with
  | zero => exact Int.le_refl 0
  | succ n =>
      have h := h n
      rw [List.take_succ_cons, depth_openBrace_cons]
      omega

end Lexeme

/-! ## One read -/

namespace OpenGroup

/-- The groups that are still open behind the tokens seen, the innermost
first. -/
inductive Opened : List OpenGroup → List Token → Prop where
  | nil : Opened [] []
  | group {g : OpenGroup} {groups : List OpenGroup} {before after : List Token}
      (hbefore : Opened groups before)
      (hafter : after.map Token.lexeme = flattenAll g.reversed.reverse) :
      Opened (g :: groups) (before ++ ⟨.openBrace, g.opened⟩ :: after)

theorem Opened.neverNegative {groups : List OpenGroup} {seen : List Token}
    (h : Opened groups seen) : NeverNegative (seen.map Token.lexeme) := by
  induction h with
  | nil => exact .nil
  | group _ hafter ih =>
      rw [List.map_append, List.map_cons, hafter]
      exact ih.append (NeverNegative.openBrace_cons
        (balanced_flattenAll _).depth_take)

theorem Opened.openBrace {groups : List OpenGroup} {seen : List Token}
    (h : Opened groups seen) (p : Position) :
    Opened (⟨p, []⟩ :: groups) (seen ++ [⟨.openBrace, p⟩]) :=
  .group h rfl

theorem Opened.add {g : OpenGroup} {groups : List OpenGroup}
    {seen used : List Token} {t : Term} (h : Opened (g :: groups) seen)
    (ht : used.map Token.lexeme = t.flatten) :
    Opened (g.add t :: groups) (seen ++ used) := by
  cases h with
  | group hbefore hafter =>
      rw [List.append_assoc, List.cons_append]
      refine .group (g := g.add t) hbefore ?_
      rw [List.map_append, hafter, ht, OpenGroup.add, List.reverse_cons,
        flattenAll_append, flattenAll, flattenAll, List.append_nil]

/-- The innermost group and the brace that closes it are a term behind the other
groups. -/
theorem Opened.close {g : OpenGroup} {groups : List OpenGroup}
    {seen : List Token} (h : Opened (g :: groups) seen) (p : Position) :
    ∃ before used, seen ++ [⟨.closeBrace, p⟩] = before ++ used ∧
      Opened groups before ∧ used.map Token.lexeme = g.close.flatten := by
  cases h with
  | @group _ _ before after hbefore hafter =>
      refine ⟨before, ⟨.openBrace, g.opened⟩ :: (after ++ [⟨.closeBrace, p⟩]),
        ?_, hbefore, ?_⟩
      · rw [List.append_assoc, List.cons_append]
      · rw [List.map_cons, List.map_append, hafter, flatten_close, lexemes,
          List.cons_append]
        rfl

end OpenGroup

namespace Term

open OpenGroup

/-- What a read can come to: the tokens that it uses up, its answer, and the
tokens that are left. -/
inductive Reading : List Token → Except SyntaxError Term → List Token → Prop where
  | term {t : Term} {used : List Token}
      (h : used.map Token.lexeme = t.flatten) (rest : List Token) :
      Reading used (.ok t) rest
  | stray (p : Position) (rest : List Token) :
      Reading [⟨.closeBrace, p⟩] (.error (.unexpectedClose p)) rest
  /-- Behind the brace of the innermost group that is open all others are
  closed. -/
  | unclosed {before after : List Token} {p : Position}
      (hbefore : NeverNegative (before.map Token.lexeme))
      (hafter : Balanced (after.map Token.lexeme)) :
      Reading (before ++ ⟨.openBrace, p⟩ :: after)
        (.error (.unclosedGroup p)) []
  | finished : Reading [] (.error .unexpectedEnd) []

/-- What a read uses up tells its answer. -/
theorem Reading.answer {used rest : List Token} {r : Except SyntaxError Term}
    (h : Reading used r rest) :
    (∃ t, r = .ok t ∧ used ≠ [] ∧ used.map Token.lexeme = t.flatten) ∨
      (∃ p, r = .error (.unexpectedClose p) ∧ used = [⟨.closeBrace, p⟩]) ∨
      (∃ p, r = .error (.unclosedGroup p) ∧ used ≠ [] ∧ rest = []) ∨
      (r = .error .unexpectedEnd ∧ used = [] ∧ rest = []) := by
  cases h with
  | @term t _ ht _ =>
      refine .inl ⟨t, rfl, fun hnil => ?_, ht⟩
      rw [hnil] at ht
      exact t.flatten_ne_nil ht.symm
  | stray p => exact .inr (.inl ⟨p, rfl, rfl⟩)
  | unclosed => exact .inr (.inr (.inl ⟨_, rfl, by simp, rfl⟩))
  | finished => exact .inr (.inr (.inr ⟨rfl, rfl, rfl⟩))

theorem reading_nextWithin {groups : List OpenGroup} {seen : List Token}
    (h : Opened groups seen) (tokens : List Token) :
    ∃ used, seen ++ tokens = used ++ (nextWithin groups tokens).2 ∧
      Reading used (nextWithin groups tokens).1
        (nextWithin groups tokens).2 := by
  fun_induction nextWithin groups tokens generalizing seen with
  | case1 =>
      cases h
      exact ⟨[], rfl, .finished⟩
  | case2 g groups =>
      cases h with
      | group hbefore hafter =>
          refine ⟨_, rfl, .unclosed hbefore.neverNegative ?_⟩
          rw [hafter]
          exact balanced_flattenAll _
  | case3 groups p tokens ih =>
      obtain ⟨used, hused, hreading⟩ := ih (h.openBrace p)
      exact ⟨used, by rw [← hused, List.append_cons], hreading⟩
  | case4 p tokens =>
      cases h
      exact ⟨[⟨.closeBrace, p⟩], rfl, .stray p tokens⟩
  | case5 g p tokens =>
      obtain ⟨before, used, hused, hbefore, ht⟩ := h.close p
      cases hbefore
      exact ⟨used, by rw [List.append_cons, hused, List.nil_append],
        .term ht tokens⟩
  | case6 g outer groups p tokens ih =>
      obtain ⟨before, used, hused, hbefore, ht⟩ := h.close p
      obtain ⟨all, hall, hreading⟩ := ih (hbefore.add ht)
      exact ⟨all, by rw [← hall, ← hused, ← List.append_cons], hreading⟩
  | case7 a p tokens =>
      cases h
      exact ⟨[⟨.atom a, p⟩], rfl, .term rfl tokens⟩
  | case8 g groups a p tokens ih =>
      have ht : [(⟨.atom a, p⟩ : Token)].map Token.lexeme = (atom a).flatten :=
        rfl
      obtain ⟨used, hused, hreading⟩ := ih (h.add ht)
      exact ⟨used, by rw [← hused, List.append_cons], hreading⟩

/-- Every read comes to one of these. -/
theorem reading_next (tokens : List Token) :
    ∃ used, tokens = used ++ (next tokens).2 ∧
      Reading used (next tokens).1 (next tokens).2 :=
  reading_nextWithin .nil tokens

/-! ## Any number of reads -/

/-- The tokens that so many reads leave, whatever they come to. -/
def left (tokens : List Token) : Nat → List Token
  | 0 => tokens
  | n + 1 => (next (left tokens n)).2

theorem left_succ (tokens : List Token) (n : Nat) :
    left tokens (n + 1) = (next (left tokens n)).2 := rfl

/-- The tokens that the read uses up that comes after so many. -/
def usedBy (tokens : List Token) (n : Nat) : List Token :=
  (left tokens n).take
    ((left tokens n).length - (left tokens (n + 1)).length)

theorem reading_left (tokens : List Token) (n : Nat) :
    left tokens n = usedBy tokens n ++ left tokens (n + 1) ∧
      Reading (usedBy tokens n) (next (left tokens n)).1
        (left tokens (n + 1)) := by
  obtain ⟨used, hused, hreading⟩ := reading_next (left tokens n)
  rw [← left_succ] at hused hreading
  have heq : usedBy tokens n = used := by
    rw [usedBy, hused, List.length_append, Nat.add_sub_cancel,
      List.take_left]
  rw [heq]
  exact ⟨hused, hreading⟩

theorem flatMap_usedBy (tokens : List Token) (n : Nat) :
    (List.range n).flatMap (usedBy tokens) ++ left tokens n = tokens := by
  induction n with
  | zero => rfl
  | succ n ih =>
      rw [List.range_succ, List.flatMap_append, List.flatMap_singleton,
        List.append_assoc, ← (reading_left tokens n).1, ih]

/-- What is left are the last tokens. -/
theorem left_eq_drop (tokens : List Token) (n : Nat) :
    left tokens n = tokens.drop (tokens.length - (left tokens n).length) :=
  List.suffix_iff_eq_drop.mp ⟨_, flatMap_usedBy tokens n⟩

theorem next_nil : next [] = (.error .unexpectedEnd, []) := rfl

theorem left_eq_nil_of_le {tokens : List Token} {m n : Nat}
    (hm : left tokens m = []) (hmn : m ≤ n) : left tokens n = [] := by
  induction hmn with
  | refl => exact hm
  | step _ ih => rw [left_succ, ih, next_nil]

/-- Every read before the end uses up a token. -/
theorem length_left_le (tokens : List Token) (n : Nat) :
    left tokens n = [] ∨ (left tokens n).length + n ≤ tokens.length := by
  induction n with
  | zero => exact .inr (Nat.le_refl _)
  | succ n ih =>
      by_cases hnil : left tokens n = []
      · exact .inl (left_eq_nil_of_le hnil (Nat.le_succ n))
      · have hlength := ih.resolve_left hnil
        have hshorter : (left tokens (n + 1)).length < (left tokens n).length :=
          length_next_lt hnil rfl
        exact .inr (by omega)

/-- After at most as many reads as there are tokens the end is reached for
good. -/
theorem exists_left_eq_nil (tokens : List Token) :
    ∃ k ≤ tokens.length, ∀ n, left tokens n = [] ↔ k ≤ n := by
  have hend : left tokens tokens.length = [] := by
    rcases length_left_le tokens tokens.length with h | h
    · exact h
    · exact List.eq_nil_of_length_eq_zero (by omega)
  have hex : ∃ n, left tokens n = [] := ⟨_, hend⟩
  refine ⟨Nat.find hex, Nat.find_min' hex hend, fun n => ?_⟩
  exact ⟨Nat.find_min' hex, left_eq_nil_of_le (Nat.find_spec hex)⟩

end Term

/-! ## Reading by index -/

/-- What a reader has before it: a token, or the end of the source. -/
inductive Mark where
  | token (token : Token)
  | finish (position : Position)

/-- The tokens of a source with a mark of the end behind them. -/
def Tokens.marks (ts : Tokens) : List Mark :=
  ts.tokens.map .token ++ [.finish ts.finish]

theorem Tokens.length_marks (ts : Tokens) :
    ts.marks.length = ts.tokens.length + 1 := by
  simp [marks]

theorem Tokens.marks_of_drop_nil {ts : Tokens} {i : Nat}
    (hi : i ≤ ts.tokens.length) (h : ts.tokens.drop i = []) :
    i = ts.tokens.length ∧ ts.marks[i]? = some (.finish ts.finish) := by
  have hlength : i = ts.tokens.length := by
    have := List.drop_eq_nil_iff.mp h
    omega
  subst hlength
  simp [marks]

theorem Tokens.marks_of_drop_cons {ts : Tokens} {i : Nat} {t : Token}
    {rest : List Token} (h : ts.tokens.drop i = t :: rest) :
    i + 1 ≤ ts.tokens.length ∧ ts.tokens.drop (i + 1) = rest ∧
      ts.marks[i]? = some (.token t) := by
  have hlt : i < ts.tokens.length := by
    rw [← List.drop_eq_nil_iff.not.trans Nat.not_le, h]
    exact List.cons_ne_nil t rest
  rw [List.drop_eq_getElem_cons hlt, List.cons.injEq] at h
  obtain ⟨ht, hrest⟩ := h
  refine ⟨hlt, hrest, ?_⟩
  rw [marks, List.getElem?_append_left (by simpa using hlt),
    List.getElem?_map, List.getElem?_eq_getElem hlt, ht]
  rfl

theorem Tokens.drop_eq_nil_iff {ts : Tokens} {i : Nat}
    (hi : i ≤ ts.tokens.length) :
    ts.tokens.drop i = [] ↔ ts.marks[i]? = some (.finish ts.finish) := by
  cases h : ts.tokens.drop i with
  | nil => simp [(marks_of_drop_nil hi h).2]
  | cons t rest => simp [(marks_of_drop_cons h).2.2]

namespace Term

/-- What a reader inside the given open groups does with the mark at an index;
`onward` reads behind it. -/
def readMark (i : Nat)
    (onward : List OpenGroup → Option (Except SyntaxError Term × Nat)) :
    Mark → List OpenGroup → Option (Except SyntaxError Term × Nat)
  | .finish _, [] => some (.error .unexpectedEnd, i)
  | .finish _, g :: _ => some (.error (.unclosedGroup g.opened), i)
  | .token ⟨.openBrace, p⟩, groups => onward (⟨p, []⟩ :: groups)
  | .token ⟨.closeBrace, p⟩, [] => some (.error (.unexpectedClose p), i + 1)
  | .token ⟨.closeBrace, _⟩, [g] => some (.ok g.close, i + 1)
  | .token ⟨.closeBrace, _⟩, g :: outer :: groups =>
    onward (outer.add g.close :: groups)
  | .token ⟨.atom a, _⟩, [] => some (.ok (.atom a), i + 1)
  | .token ⟨.atom a, _⟩, g :: groups => onward (g.add (.atom a) :: groups)

/-- Reads on from an index, inside the given open groups, and answers with the
index reached. There is no answer if nothing is where the reader looks. -/
def readAt (marks : List Mark) (groups : List OpenGroup) (i : Nat) :
    Option (Except SyntaxError Term × Nat) :=
  match h : marks[i]? with
  | none => none
  | some mark =>
    have : i < marks.length := (List.getElem?_eq_some_iff.mp h).1
    readMark i (fun groups => readAt marks groups (i + 1)) mark groups
termination_by marks.length - i

theorem readAt_of_mark {marks : List Mark} {i : Nat} {mark : Mark}
    (h : marks[i]? = some mark) (groups : List OpenGroup) :
    readAt marks groups i =
      readMark i (fun groups => readAt marks groups (i + 1)) mark groups := by
  rw [readAt]
  split
  · next hnone => rw [h] at hnone; cases hnone
  · next hsome => rw [h] at hsome; cases hsome; rfl

/-- Reading by index is reading, and never looks where nothing is. -/
theorem readAt_eq {ts : Tokens} {i : Nat} {tokens : List Token}
    (hi : i ≤ ts.tokens.length) (h : ts.tokens.drop i = tokens)
    (groups : List OpenGroup) :
    readAt ts.marks groups i = some ((nextWithin groups tokens).1,
      ts.tokens.length - (nextWithin groups tokens).2.length) := by
  fun_induction nextWithin groups tokens generalizing i with
  | case1 | case2 =>
      obtain ⟨rfl, hmark⟩ := Tokens.marks_of_drop_nil hi h
      rw [readAt_of_mark hmark]
      rfl
  | case3 groups p tokens ih | case6 g outer groups p tokens ih
  | case8 g groups a p tokens ih =>
      obtain ⟨hi, hrest, hmark⟩ := Tokens.marks_of_drop_cons h
      rw [readAt_of_mark hmark]
      exact ih hi hrest
  | case4 p tokens | case5 g p tokens | case7 a p tokens =>
      obtain ⟨hi, hrest, hmark⟩ := Tokens.marks_of_drop_cons h
      have hlength : ts.tokens.length - tokens.length = i + 1 := by
        rw [← hrest, List.length_drop]
        omega
      rw [readAt_of_mark hmark, hlength]
      rfl

/-- The index that a reader has reached after so many reads. -/
def indexAfter (marks : List Mark) : Nat → Option Nat
  | 0 => some 0
  | n + 1 => (indexAfter marks n).bind fun i =>
    (readAt marks [] i).map Prod.snd

/-- Reading by index reaches the token that the next read begins with. -/
theorem indexAfter_eq (ts : Tokens) (n : Nat) :
    indexAfter ts.marks n =
      some (ts.tokens.length - (left ts.tokens n).length) := by
  induction n with
  | zero => rw [left, Nat.sub_self]; rfl
  | succ n ih =>
      rw [indexAfter, ih, Option.bind_some,
        readAt_eq (Nat.sub_le _ _) (left_eq_drop ts.tokens n).symm, left_succ]
      rfl

/-- Whatever the reads before came to, the next one answers with a term, whose
lexemes it uses up; or it refuses a closing brace, and uses up this brace; or it
runs into the end inside of a group, and uses up all that is left; or it is at
the end, and uses up nothing. The reads use up all tokens, each its own run of
them and no token twice, and after at most as many reads as there are tokens the
end is reached for good. A reader that keeps an index into the tokens and the
mark of their end finds a token or that mark wherever it looks. -/
theorem reads_share_tokens (ts : Tokens) (n : Nat) :
    let rest := left ts.tokens n
    let used := usedBy ts.tokens n
    (∃ i, indexAfter ts.marks n = some i ∧ i < ts.marks.length ∧
        rest = ts.tokens.drop i ∧
        (rest = [] ↔ ts.marks[i]? = some (.finish ts.finish)) ∧
        ∃ j, readAt ts.marks [] i = some ((next rest).1, j) ∧
          indexAfter ts.marks (n + 1) = some j) ∧
      ((∃ t, (next rest).1 = .ok t ∧ used ≠ [] ∧
          used.map Token.lexeme = t.flatten) ∨
        (∃ p, (next rest).1 = .error (.unexpectedClose p) ∧
          used = [⟨.closeBrace, p⟩]) ∨
        (∃ p, (next rest).1 = .error (.unclosedGroup p) ∧ used ≠ [] ∧
          left ts.tokens (n + 1) = []) ∨
        ((next rest).1 = .error .unexpectedEnd ∧ rest = [])) ∧
      (rest = [] → next rest = (.error .unexpectedEnd, rest)) ∧
      rest = used ++ left ts.tokens (n + 1) ∧
      (List.range n).flatMap (usedBy ts.tokens) ++ rest = ts.tokens ∧
      ∃ k ≤ ts.tokens.length, ∀ m, left ts.tokens m = [] ↔ k ≤ m := by
  intro rest used
  obtain ⟨hused, hreading⟩ := reading_left ts.tokens n
  refine ⟨?index, ?answer, ?finish, hused, flatMap_usedBy ts.tokens n,
    exists_left_eq_nil ts.tokens⟩
  case index =>
    have hi : ts.tokens.length - rest.length ≤ ts.tokens.length :=
      Nat.sub_le _ _
    have hdrop : ts.tokens.drop (ts.tokens.length - rest.length) = rest :=
      (left_eq_drop ts.tokens n).symm
    refine ⟨_, indexAfter_eq ts n, ?_, hdrop.symm, ?_, _,
      readAt_eq hi hdrop [], indexAfter_eq ts (n + 1)⟩
    · rw [Tokens.length_marks]
      exact Nat.lt_succ_of_le hi
    · rw [← Tokens.drop_eq_nil_iff hi, hdrop]
  case answer =>
    rcases hreading.answer with h | h | h | ⟨hend, hnil, hrest⟩
    · exact .inl h
    · exact .inr (.inl h)
    · exact .inr (.inr (.inl h))
    · refine .inr (.inr (.inr ⟨hend, ?_⟩))
      rw [hnil, hrest] at hused
      exact hused
  case finish =>
    intro h
    rw [h, next_nil]

end Term

end BraceLisp
