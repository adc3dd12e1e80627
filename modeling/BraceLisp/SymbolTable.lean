/-!
# Symbol tables

Interning gives every spelling a symbol, equal spellings equal symbols, so that names are compared
without comparing texts. A table only grows: a symbol keeps its spelling for good.
-/

namespace BraceLisp

/-- A name as an entry of a symbol table. -/
structure Symbol where
  index : Nat
deriving DecidableEq, Repr

/-- Spellings in the order in which they were first interned, each once. -/
structure SymbolTable where
  spellings : List String
  nodup : spellings.Nodup

namespace SymbolTable

/-- The table without symbols. -/
def empty : SymbolTable := ⟨[], List.nodup_nil⟩

/-- The symbol of a spelling, and the table that has it. -/
def intern (t : SymbolTable) (spelling : String) : Symbol × SymbolTable :=
  if h : spelling ∈ t.spellings then (⟨t.spellings.idxOf spelling⟩, t)
  else
    (⟨t.spellings.length⟩, ⟨t.spellings ++ [spelling], by
      simpa [List.nodup_append, t.nodup] using fun a ha (e : a = spelling) => h (e ▸ ha)⟩)

/-- The spelling of a symbol, if the table has it. -/
def resolve? (t : SymbolTable) (s : Symbol) : Option String := t.spellings[s.index]?

/-- The symbols of spellings interned one after another, and the table that has them. -/
def internAll (t : SymbolTable) : List String → List Symbol × SymbolTable
  | [] => ([], t)
  | spelling :: spellings =>
    let (s, t) := t.intern spelling
    let (symbols, t) := t.internAll spellings
    (s :: symbols, t)

end SymbolTable

end BraceLisp
