import Std.Data.ExtTreeSet.Lemmas

/-!
The words that a type expression treats as keywords.

A vocabulary holds three sets of names, one for each category of keyword.
A name is a member only as it is spelled, letter case included. `mem_names_add`
and `mem_names_addAll` say what an addition changes, and `Vocabulary.ext_names`
that a vocabulary is nothing more than its members: neither the order of
additions nor a repeated one can be told from the result.
-/

namespace TypeExprLexer

/-- A set of names, listed in the order of their code points. -/
abbrev NameSet := Std.ExtTreeSet String

/-- The three kinds of keyword that a vocabulary knows by name. -/
inductive Category where
  | primitive
  | pseudoType
  | collection
deriving DecidableEq, Repr

/-- The names of each category. -/
structure Vocabulary where
  primitives : NameSet
  pseudoTypes : NameSet
  collections : NameSet
deriving DecidableEq

namespace Vocabulary

/-- The names of one category. -/
def names (v : Vocabulary) : Category → NameSet
  | .primitive => v.primitives
  | .pseudoType => v.pseudoTypes
  | .collection => v.collections

theorem ext_names {v w : Vocabulary} (same : ∀ c x, x ∈ v.names c ↔ x ∈ w.names c) : v = w := by
  obtain ⟨p, q, r⟩ := v
  obtain ⟨p', q', r'⟩ := w
  have : p = p' := Std.ExtTreeSet.ext_mem (same .primitive)
  have : q = q' := Std.ExtTreeSet.ext_mem (same .pseudoType)
  have : r = r' := Std.ExtTreeSet.ext_mem (same .collection)
  simp_all

/-! ### Additions -/

/-- Puts one name into one category; the other two keep theirs. -/
def add (v : Vocabulary) (c : Category) (name : String) : Vocabulary :=
  match c with
  | .primitive => { v with primitives := v.primitives.insert name }
  | .pseudoType => { v with pseudoTypes := v.pseudoTypes.insert name }
  | .collection => { v with collections := v.collections.insert name }

/-- Adds every entry of a list, from first to last. -/
def addAll (v : Vocabulary) (entries : List (Category × String)) : Vocabulary :=
  entries.foldl (fun v entry => v.add entry.1 entry.2) v

theorem mem_names_add {v : Vocabulary} {c d : Category} {name x : String} :
    x ∈ (v.add c name).names d ↔ (d, x) = (c, name) ∨ x ∈ v.names d := by
  cases c <;> cases d <;> simp [add, names, Std.ExtTreeSet.mem_insert, @eq_comm _ x]

theorem mem_names_addAll {v : Vocabulary} {entries : List (Category × String)} {d : Category}
    {x : String} : x ∈ (v.addAll entries).names d ↔ x ∈ v.names d ∨ (d, x) ∈ entries := by
  induction entries generalizing v with
  | nil => simp [addAll]
  | cons entry entries ih =>
      rw [show v.addAll (entry :: entries) = (v.add entry.1 entry.2).addAll entries from rfl, ih,
        mem_names_add, List.mem_cons, or_assoc, or_left_comm]

/-! ### The empty and the standard vocabulary -/

/-- The vocabulary without a single name. -/
def empty : Vocabulary := ⟨∅, ∅, ∅⟩

/-- The built-in scalar and object types. -/
def standardPrimitives : List String :=
  ["string", "integer", "boolean", "float", "object", "resource", "scalar", "callable", "self"]

/-- The words that stand for a type without being primitive. Scanning cuts
`class-string` at its hyphen, so it is found only when it is looked up whole. -/
def standardPseudoTypes : List String :=
  ["int", "bool", "mixed", "false", "true", "class-string", "callback", "$this", "static",
    "parent", "real", "double"]

/-- The built-in aggregate types. -/
def standardCollections : List String :=
  ["array", "iterable"]

/-- The vocabulary of type expressions. -/
def standard : Vocabulary :=
  ⟨.ofList standardPrimitives, .ofList standardPseudoTypes, .ofList standardCollections⟩

instance : EmptyCollection Vocabulary := ⟨empty⟩

instance : Inhabited Vocabulary := ⟨standard⟩

@[simp] theorem not_mem_names_empty {c : Category} {x : String} : x ∉ empty.names c := by
  cases c <;> simp [empty, names]

theorem mem_names_standard {c : Category} {x : String} :
    x ∈ standard.names c ↔
      match c with
      | .primitive => x ∈ standardPrimitives
      | .pseudoType => x ∈ standardPseudoTypes
      | .collection => x ∈ standardCollections := by
  cases c <;> simp [standard, names, Std.ExtTreeSet.mem_ofList]

end Vocabulary

end TypeExprLexer
