import Jack.Symbol

/-!
# Scopes

A scope is the history of its definitions. A name means its latest definition; an index is never
given out twice to symbols of one kind, also when a name is defined again (`count_define`).
-/

namespace Jack

structure Scope where
  /-- The definitions, the latest first. -/
  symbols : List Symbol := []
  deriving DecidableEq, Repr, Inhabited

namespace Scope

def empty : Scope := {}

/-- The number of definitions of a kind. -/
def count (s : Scope) (kind : Symbol.Kind) : Nat := s.symbols.countP (·.kind = kind)

/-- The symbol that a new definition makes: it has the next index of its kind. -/
def fresh (s : Scope) (name typeName : String) (kind : Symbol.Kind) : Symbol :=
  { name, typeName, kind, index := s.count kind }

def define (s : Scope) (name typeName : String) (kind : Symbol.Kind) : Scope :=
  ⟨s.fresh name typeName kind :: s.symbols⟩

def lookup (s : Scope) (name : String) : Option Symbol := s.symbols.find? (·.name = name)

@[simp] theorem count_empty (kind : Symbol.Kind) : empty.count kind = 0 := rfl

@[simp] theorem count_define (s : Scope) (name typeName : String) (kind kind' : Symbol.Kind) :
    (s.define name typeName kind).count kind' = s.count kind' + if kind = kind' then 1 else 0 := by
  simp [count, define, fresh, List.countP_cons]

@[simp] theorem lookup_empty (name : String) : empty.lookup name = none := rfl

theorem lookup_define (s : Scope) (name typeName name' : String) (kind : Symbol.Kind) :
    (s.define name typeName kind).lookup name' =
      if name = name' then some (s.fresh name typeName kind) else s.lookup name' := by
  by_cases h : name = name' <;> simp [lookup, define, fresh, h]

end Scope

end Jack
