import BraceLisp.Proofs.LexicalGrammar

/-!
# Terms read back

A term is written and read as the same term exactly if its numbers are finite
and its symbols are lexable. Reading never produces other symbols, and no NaN,
so what keeps a term that was read from being read back is an infinity and
nothing else.

A number that is not finite is written as a word that is no literal, so it is
read as a symbol. `Term.reread` is the term with these numbers replaced, and
what `Term.ofSource` reads from the text of any term whose symbols are lexable.
-/

namespace BraceLisp

/-! ## Words -/

namespace Decimal

def InLiteral (c : Char) : Prop :=
  c.isDigit ∨ c = '+' ∨ c = '-' ∨ c = '.' ∨ c = 'e' ∨ c = 'E'

theorem InLiteral.not_delimiter {c : Char} (h : InLiteral c) :
    (Text.isBlank c = false ∧ c ≠ '{' ∧ c ≠ '}' ∧ c ≠ '"') ∧ c ≠ ';' := by
  rcases h with hdigit | rfl | rfl | rfl | rfl | rfl
  · have hrange : 48 ≤ c.toNat ∧ c.toNat ≤ 57 := by
      simpa [Char.isDigit, UInt32.le_iff_toNat_le] using hdigit
    refine ⟨⟨?_, ?_, ?_, ?_⟩, ?_⟩
    · simp only [Text.isBlank, Text.blankRanges, List.any_cons, List.any_nil,
        Bool.or_false, Bool.or_eq_false_iff, Bool.and_eq_false_iff,
        decide_eq_false_iff_not]
      omega
    all_goals
      rintro rfl
      exact absurd hrange (by decide)
  all_goals decide

theorem SignText.inLiteral {s : List Char} (h : SignText s) :
    ∀ c ∈ s, InLiteral c := by
  cases h with
  | none => simp
  | plus => simp [InLiteral]
  | minus => simp [InLiteral]

theorem Digits.inLiteral {text : List Char} (h : Digits text) :
    ∀ c ∈ text, InLiteral c :=
  fun c hc => .inl (h c hc)

theorem Literal.inLiteral {text : List Char} (h : Literal text) :
    ∀ c ∈ text, InLiteral c := by
  obtain ⟨s, whole, point, places, exponent, rfl, hs, hwhole, hpoint, -,
    hexponent⟩ := h
  intro c hc
  simp only [List.mem_append] at hc
  rcases hc with hc | hc | hc | hc
  · exact hs.inLiteral c hc
  · exact hwhole.inLiteral c hc
  · cases hpoint with
    | none => cases hc
    | point hplaces =>
        rcases List.mem_cons.mp hc with rfl | hc
        · simp [InLiteral]
        · exact hplaces.inLiteral c hc
  · cases hexponent with
    | none => cases hc
    | some he hs hne hdigits =>
        rcases List.mem_cons.mp hc with rfl | hc
        · rcases he with rfl | rfl <;> simp [InLiteral]
        · rcases List.mem_append.mp hc with hc | hc
          · exact hs.inLiteral c hc
          · exact hdigits.inLiteral c hc

theorem Literal.ne_nil {text : List Char} (h : Literal text) : text ≠ [] := by
  obtain ⟨s, whole, point, places, exponent, rfl, -, -, hpoint, hne, -⟩ := h
  cases hpoint with
  | none => simp_all
  | point => simp

theorem Literal.bareWord {text : List Char} (h : Literal text) :
    BareWord text := by
  refine ⟨h.ne_nil, fun c hc => (h.inLiteral c hc).not_delimiter.1, ?_⟩
  intro hhead
  exact (h.inLiteral ';' (List.mem_of_mem_head? hhead)).not_delimiter.2 rfl

end Decimal

namespace Number

/-- What is written for a double that is not finite. -/
theorem chars_of_not_isFinite {x : Float} (h : x.isFinite = false) :
    chars x ∈ [['N', 'a', 'N'], ['i', 'n', 'f'], ['-', 'i', 'n', 'f']] := by
  have hle : Binary64.infinity ≤ Binary64.magnitude x := by
    rw [← Nat.not_lt, ← Binary64.isFinite_iff, h]
    exact Bool.false_ne_true
  unfold chars unsigned
  dsimp only
  split
  · simp
  · next hge =>
      rw [if_pos (Nat.le_antisymm (Nat.not_lt.mp hge) hle)]
      split <;> simp

theorem lexable_chars {x : Float} (h : x.isFinite = false) :
    Lexable (chars x) := by
  have hcases := chars_of_not_isFinite h
  simp only [List.mem_cons, List.not_mem_nil, or_false] at hcases
  rcases hcases with hchars | hchars | hchars
  all_goals
    rw [hchars]
    exact (bareWord_of_all (by decide) rfl (by decide)).lexable rfl

end Number

/-! ## Atoms -/

namespace Atom

/-- An atom whose text, if it is a symbol, is read as one. -/
def Legible : Atom → Prop
  | symbol name => Lexable name.toList
  | _ => True

/-- An atom that is read back from its text. -/
def Printable : Atom → Prop
  | number x => x.isFinite = true
  | string _ => True
  | symbol name => Lexable name.toList

def NotInfinite : Atom → Prop
  | number x => x.isInf = false
  | _ => True

/-- What the text of a legible atom is read as. -/
def reread : Atom → Atom
  | number x => if x.isFinite then number x else symbol (Number.text x)
  | a => a

theorem Readable.legible {a : Atom} (h : a.Readable) : a.Legible := by
  cases a with
  | number | string => trivial
  | symbol => exact h

theorem Printable.legible {a : Atom} (h : a.Printable) : a.Legible := by
  cases a with
  | number | string => trivial
  | symbol => exact h

theorem Printable.reread_eq {a : Atom} (h : a.Printable) : a.reread = a := by
  cases a with
  | number x => exact if_pos h
  | string | symbol => rfl

theorem Readable.printable {a : Atom} (h : a.Readable) (ha : a.reread = a) :
    a.Printable := by
  cases a with
  | number x =>
      rw [reread] at ha
      split at ha
      · next hx => exact hx
      · cases ha
  | string => trivial
  | symbol => exact h

theorem Readable.printable_of_notInfinite {a : Atom} (h : a.Readable)
    (ha : a.NotInfinite) : a.Printable := by
  cases a with
  | number x =>
      have hnan := mt (Binary64.isNaN_iff x).mpr (Bool.eq_false_iff.mp h)
      have hinf := mt (Binary64.isInf_iff x).mpr (Bool.eq_false_iff.mp ha)
      exact (Binary64.isFinite_iff x).mpr
        (Nat.lt_of_le_of_ne (Nat.not_lt.mp hnan) hinf)
  | string => trivial
  | symbol => exact h

/-- The text of a legible atom spells what it is read as. -/
theorem Legible.spelled {a : Atom} (h : a.Legible) :
    (Lexeme.atom a.reread).Spelled a.chars := by
  cases a with
  | number x =>
      rw [chars, reread]
      split
      · next hx =>
          obtain ⟨d, hd, hdx⟩ := Number.ofChars?_chars hx
          have hliteral := Decimal.isSome_ofChars?.mp (by rw [hd]; rfl)
          have hnumber := Lexeme.Spelled.number hliteral.bareWord hd
          rwa [hdx] at hnumber
      · next hx =>
          exact .symbol (Number.lexable_chars (Bool.not_eq_true _ ▸ hx))
  | string s =>
      have hstring := Lexeme.Spelled.string (Text.quoted_flatMap_escape s.toList)
      rwa [String.ofList_toList] at hstring
  | symbol name =>
      have hsymbol := Lexeme.Spelled.symbol h
      rwa [String.ofList_toList] at hsymbol

end Atom

/-! ## Terms -/

namespace Term

/-- All atoms of the term have the property. -/
def All (P : Atom → Prop) (t : Term) : Prop :=
  ∀ a, Lexeme.atom a ∈ t.flatten → P a

theorem all_atom {P : Atom → Prop} {a : Atom} : (atom a).All P ↔ P a := by
  simp [All, flatten]

theorem all_list {P : Atom → Prop} {items : List Term} :
    (list items).All P ↔ ∀ t ∈ items, t.All P := by
  simp only [All, flatten, List.mem_cons, List.mem_append, mem_flattenAll,
    reduceCtorEq, List.not_mem_nil, false_or, or_false]
  constructor
  · intro h t ht a ha
    exact h a ⟨t, ht, ha⟩
  · rintro h a ⟨t, ht, ha⟩
    exact h t ht a ha

theorem All.mono {P Q : Atom → Prop} {t : Term} (h : t.All P)
    (hPQ : ∀ a, P a → Q a) : t.All Q :=
  fun a ha => hPQ a (h a ha)

mutual

/-- What the text of a term is read as, if its symbols are lexable. -/
def reread : Term → Term
  | atom a => atom a.reread
  | list items => list (rereadAll items)

def rereadAll : List Term → List Term
  | [] => []
  | t :: items => t.reread :: rereadAll items

end

mutual

theorem written_render {t : Term} (h : t.All Atom.Legible)
    {rest : List Char} {ls : List Lexeme} (hrest : Written true rest ls) :
    Written false (t.render rest) (t.reread.flatten ++ ls) := by
  match t with
  | atom a =>
      have hatom := (all_atom.mp h).spelled
      exact .join hatom (hrest.anywhere _)
  | list items =>
      have hclose : Written true ('}' :: rest) (.closeBrace :: ls) :=
        (Written.join .closeBrace (hrest.anywhere _)).afterWord (.cons rfl)
      have hitems := written_renderItems (all_list.mp h) hclose
      rw [render, reread, flatten, List.cons_append, List.append_assoc]
      exact .join .openBrace hitems

theorem written_renderItems {items : List Term}
    (h : ∀ t ∈ items, t.All Atom.Legible) {rest : List Char}
    {ls : List Lexeme} (hrest : Written true rest ls) :
    Written false (renderItems items rest)
      (flattenAll (rereadAll items) ++ ls) := by
  match items with
  | [] => exact hrest.anywhere _
  | [t] =>
      rw [renderItems, rereadAll, rereadAll, flattenAll, flattenAll,
        List.append_nil]
      exact written_render (h t List.mem_cons_self) hrest
  | t :: u :: items =>
      have hbehind := written_renderItems
        (fun v hv => h v (List.mem_cons_of_mem t hv)) hrest
      rw [renderItems, rereadAll, flattenAll, List.append_assoc]
      exact written_render (h t List.mem_cons_self) (.blank rfl hbehind)

end

/-- The text of a term with lexable symbols is read as the term in which the
numbers that are not finite have become symbols. -/
theorem ofSource_text {t : Term} (h : t.All Atom.Legible) :
    ofSource t.text = .ok t.reread := by
  have hwritten := written_render h (.finish .nil fun _ => nofun)
  rw [List.append_nil] at hwritten
  rwa [ofSource_eq_ok_iff, Tokens.lexemes?_eq_some_iff_written, text,
    String.toList_ofList]

mutual

theorem reread_eq_self {t : Term} :
    t.reread = t ↔ t.All fun a => a.reread = a := by
  match t with
  | atom a => rw [reread, Term.atom.injEq, all_atom]
  | list items => rw [reread, Term.list.injEq, rereadAll_eq_self, all_list]

theorem rereadAll_eq_self {items : List Term} :
    rereadAll items = items ↔ ∀ t ∈ items, t.All fun a => a.reread = a := by
  match items with
  | [] => simp [rereadAll]
  | t :: items =>
      rw [rereadAll, List.cons.injEq, reread_eq_self, rereadAll_eq_self,
        List.forall_mem_cons]

end

/-! ## What is read -/

theorem readable_of_ofSource {source : String} {t : Term}
    (h : ofSource source = .ok t) : t.All Atom.Readable := by
  rw [ofSource_eq_ok_iff, Tokens.lexemes?_eq_some_iff_written] at h
  exact fun a ha => h.readable _ ha

theorem readable_of_allOfSource {source : String} {ts : List Term}
    (h : allOfSource source = .ok ts) : ∀ t ∈ ts, t.All Atom.Readable := by
  rw [allOfSource_eq_ok_iff, Tokens.lexemes?_eq_some_iff_written] at h
  exact fun t ht a ha => h.readable _ (mem_flattenAll.mpr ⟨t, ht, ha⟩)

theorem ofSource_text_eq_self {t : Term} (h : t.All Atom.Printable) :
    ofSource t.text = .ok t := by
  rw [ofSource_text (h.mono fun _ => Atom.Printable.legible),
    reread_eq_self.mpr (h.mono fun _ => Atom.Printable.reread_eq)]

theorem printable_of_ofSource_text {t : Term} (h : ofSource t.text = .ok t) :
    t.All Atom.Printable := by
  have hreadable := readable_of_ofSource h
  -- Symbols that were read are lexable, so rereading may change numbers only.
  rw [ofSource_text (hreadable.mono fun _ => Atom.Readable.legible),
    Except.ok.injEq, reread_eq_self] at h
  exact fun a ha => (hreadable a ha).printable (h a ha)

/-- A term is read back from its text, its numbers bit for bit, if and only if
its numbers are finite and its symbols lexable. Whatever is read has lexable
symbols and no NaN, so only an infinity keeps it from being read back. -/
theorem reads_back :
    (∀ t : Term, ofSource t.text = .ok t ↔ t.All Atom.Printable) ∧
      ∀ (source : String) (t : Term),
        (ofSource source = .ok t ∨
          ∃ ts, allOfSource source = .ok ts ∧ t ∈ ts) →
        t.All Atom.Readable ∧
          (t.All Atom.NotInfinite → ofSource t.text = .ok t) := by
  refine ⟨fun t => ⟨printable_of_ofSource_text, ofSource_text_eq_self⟩, ?_⟩
  intro source t h
  have hreadable : t.All Atom.Readable := by
    rcases h with h | ⟨ts, h, ht⟩
    · exact readable_of_ofSource h
    · exact readable_of_allOfSource h t ht
  refine ⟨hreadable, fun hfinite => ofSource_text_eq_self fun a ha => ?_⟩
  exact (hreadable a ha).printable_of_notInfinite (hfinite a ha)

/-- A call with a negative zero and a string of a quote and a line feed. -/
theorem call_reads_back :
    let t : Term := .list [.symbol "f", .atom (.string "\"\n"),
      .atom (.number (Binary64.ofMagnitude true 0))]
    t.All Atom.Printable ∧ ofSource t.text = .ok t ∧ t.All Atom.Readable := by
  intro t
  have hf : BareWord ['f'] := bareWord_of_all (by decide) rfl (by decide)
  have hzero : (Binary64.ofMagnitude true 0).isFinite = true := by
    rw [Binary64.isFinite_iff, Binary64.magnitude_ofMagnitude] <;> decide
  have h : t.All Atom.Printable := by
    simp only [t, all_list, List.forall_mem_cons, all_atom, Atom.Printable,
      hzero, List.not_mem_nil, false_implies, implies_true, and_true]
    exact hf.lexable rfl
  have hread := (reads_back.1 t).mpr h
  exact ⟨h, hread, (reads_back.2 t.text t (.inl hread)).1⟩

end Term

end BraceLisp
