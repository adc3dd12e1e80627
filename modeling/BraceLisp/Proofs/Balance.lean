import BraceLisp.Proofs.Reading

/-!
# Balanced braces

A sequence of lexemes is balanced if, counted from the left, no brace is closed
that was not opened, and at the end none is left open. These are the sequences
that terms flatten to, each of exactly one sequence of terms, so reading a
source loses nothing and invents nothing (`Term.reads_its_lexemes`).

That terms flatten to balanced sequences is an induction over terms. For the
converse the sequence is taken apart from the left. What is behind some opening
braces is not balanced by itself: it closes `k` groups that it did not open, so
the statement that carries the induction is about a forest, a closing brace, a
forest, and so on `k` times (`Lexeme.exists_forests`).
-/

namespace BraceLisp

namespace Lexeme

/-- How many more braces are opened than closed. -/
def depth (ls : List Lexeme) : Int :=
  ls.count openBrace - ls.count closeBrace

theorem depth_append (ls ms : List Lexeme) :
    depth (ls ++ ms) = depth ls + depth ms := by
  simp only [depth, List.count_append]
  omega

theorem depth_openBrace_cons (ls : List Lexeme) :
    depth (openBrace :: ls) = depth ls + 1 := by
  simp [depth]
  omega

theorem depth_closeBrace_cons (ls : List Lexeme) :
    depth (closeBrace :: ls) = depth ls - 1 := by
  simp [depth]
  omega

theorem depth_atom_cons (a : Atom) (ls : List Lexeme) :
    depth (atom a :: ls) = depth ls := by
  simp [depth]

/-- No brace is closed before it is opened, and all are closed. -/
structure Balanced (ls : List Lexeme) : Prop where
  depth_take : ∀ n, 0 ≤ depth (ls.take n)
  depth_eq_zero : depth ls = 0

theorem Balanced.nil : Balanced [] := by
  refine ⟨fun n => ?_, rfl⟩
  rw [List.take_nil]
  exact Int.le_refl 0

theorem Balanced.append {ls ms : List Lexeme} (hl : Balanced ls)
    (hm : Balanced ms) : Balanced (ls ++ ms) := by
  refine ⟨fun n => ?_, ?_⟩
  · rw [List.take_append, depth_append]
    have hl := hl.depth_take n
    have hm := hm.depth_take (n - ls.length)
    omega
  · rw [depth_append, hl.depth_eq_zero, hm.depth_eq_zero]
    rfl

theorem Balanced.atom (a : Atom) : Balanced [.atom a] := by
  refine ⟨fun n => ?_, depth_atom_cons a []⟩
  cases n with
  | zero => exact Int.le_refl 0
  | succ n =>
      rw [List.take_succ_cons, depth_atom_cons, List.take_nil]
      exact Int.le_refl 0

theorem Balanced.group {ls : List Lexeme} (h : Balanced ls) :
    Balanced (openBrace :: (ls ++ [closeBrace])) := by
  refine ⟨fun n => ?_, ?_⟩
  · cases n with
    | zero => exact Int.le_refl 0
    | succ n =>
        have hinner := h.depth_take n
        have hlast : ∀ m, -1 ≤ depth (List.take m [closeBrace]) := by
          intro m
          cases m with
          | zero => decide
          | succ m => rw [List.take_succ_cons, List.take_nil]; decide
        have hlast := hlast (n - ls.length)
        rw [List.take_succ_cons, depth_openBrace_cons, List.take_append,
          depth_append]
        omega
  · rw [depth_openBrace_cons, depth_append, h.depth_eq_zero]
    rfl

end Lexeme

open Lexeme

namespace Term

mutual

theorem balanced_flatten : ∀ t : Term, Balanced t.flatten
  | atom a => .atom a
  | list items => (balanced_flattenAll items).group

theorem balanced_flattenAll : ∀ ts : List Term, Balanced (flattenAll ts)
  | [] => .nil
  | t :: ts => (balanced_flatten t).append (balanced_flattenAll ts)

end

/-- Forests, each behind a closing brace. -/
def flattenBehind : List (List Term) → List Lexeme
  | [] => []
  | ts :: outer => .closeBrace :: (flattenAll ts ++ flattenBehind outer)

end Term

open Term

theorem Lexeme.exists_forests (ls : List Lexeme) (k : Nat)
    (hlow : ∀ n, 0 ≤ k + depth (ls.take n)) (hend : k + depth ls = 0) :
    ∃ inner outer, outer.length = k ∧
      ls = flattenAll inner ++ flattenBehind outer := by
  induction ls generalizing k with
  | nil =>
      have hk : k = 0 := by simpa [depth] using hend
      exact ⟨[], [], hk.symm, rfl⟩
  | cons l ls ih =>
      have hlow' := fun n => hlow (n + 1)
      simp only [List.take_succ_cons] at hlow'
      cases l with
      | atom a =>
          simp only [depth_atom_cons] at hlow' hend
          obtain ⟨inner, outer, hlen, rfl⟩ := ih k hlow' hend
          exact ⟨.atom a :: inner, outer, hlen, rfl⟩
      | openBrace =>
          simp only [depth_openBrace_cons] at hlow' hend
          obtain ⟨inner, outer, hlen, rfl⟩ := ih (k + 1)
            (fun n => by have := hlow' n; omega) (by omega)
          -- The first closing brace that is left over closes this group.
          obtain ⟨behind, outer, rfl⟩ :=
            List.exists_cons_of_length_eq_add_one hlen
          refine ⟨.list inner :: behind, outer, Nat.succ.inj hlen, ?_⟩
          simp only [flattenBehind, flattenAll, flatten, List.cons_append,
            List.append_assoc, List.nil_append]
      | closeBrace =>
          have hpos : 1 ≤ k := by
            have := hlow 1
            rw [List.take_succ_cons, List.take_zero, depth_closeBrace_cons]
              at this
            change 0 ≤ (k : Int) + (0 - 1) at this
            omega
          obtain ⟨k, rfl⟩ := Nat.exists_eq_add_of_le' hpos
          simp only [depth_closeBrace_cons] at hlow' hend
          obtain ⟨inner, outer, hlen, rfl⟩ := ih k
            (fun n => by have := hlow' n; omega) (by omega)
          exact ⟨[], inner :: outer, by rw [List.length_cons, hlen], rfl⟩

/-- The balanced sequences are those that terms flatten to. -/
theorem Lexeme.balanced_iff {ls : List Lexeme} :
    Balanced ls ↔ ∃ ts, ls = flattenAll ts := by
  constructor
  · intro h
    obtain ⟨ts, outer, hlen, rfl⟩ := exists_forests ls 0
      (fun n => by have := h.depth_take n; omega)
      (by have := h.depth_eq_zero; omega)
    obtain rfl := List.length_eq_zero_iff.mp hlen
    exact ⟨ts, List.append_nil _⟩
  · rintro ⟨ts, rfl⟩
    exact balanced_flattenAll ts

/-- A source that has tokens is read as terms exactly if its lexemes are those
of the terms. So it can be read if and only if its braces balance, and it has
the lexemes of no other terms. -/
theorem Term.reads_its_lexemes {source : String} {tokens : Tokens}
    (h : Tokens.ofSource source = .ok tokens) :
    (∀ ts, allOfSource source = .ok ts ↔ tokens.lexemes = flattenAll ts) ∧
      ((∃ ts, allOfSource source = .ok ts) ↔ Balanced tokens.lexemes) ∧
      ∀ ts us, allOfSource source = .ok ts → tokens.lexemes = flattenAll us →
        us = ts := by
  have hread : ∀ ts,
      allOfSource source = .ok ts ↔ tokens.lexemes = flattenAll ts := by
    intro ts
    rw [allOfSource_eq_ok_iff, Tokens.lexemes?_eq_some_iff, h]
    simp
  refine ⟨hread, ?_, fun ts us hts hus => ?_⟩
  · simp only [hread, balanced_iff]
  · rw [← hread, hts] at hus
    exact (Except.ok.inj hus).symm

/-- A group with an empty one in it, a string, and a brace in a comment. -/
theorem Term.nested_groups_read :
    let source := "\x7bf \x7b\x7d\x7d\"a\" ; \x7d"
    let forest : List Term :=
      [.list [.symbol "f", .list []], .atom (.string "a")]
    ∃ tokens, Tokens.ofSource source = .ok tokens ∧
      allOfSource source = .ok forest ∧ Balanced tokens.lexemes ∧
      ∀ us, tokens.lexemes = flattenAll us → us = forest := by
  intro source forest
  have hlexemes : Tokens.lexemes? source = some (flattenAll forest) := by
    decide +kernel
  obtain ⟨tokens, h, hforest⟩ := Tokens.lexemes?_eq_some_iff.mp hlexemes
  obtain ⟨hread, hbalanced, honly⟩ := reads_its_lexemes h
  have hok := (hread forest).mpr hforest
  exact ⟨tokens, h, hok, hbalanced.mp ⟨forest, hok⟩,
    fun us => honly forest us hok⟩

end BraceLisp
