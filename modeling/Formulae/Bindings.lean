import Formulae.Expression
import Formulae.Text.Quoted

/-!
# Bindings — what names are bound to

A name is bound to a value, to a supplier that is asked each time the name is read, or to a formula that
is evaluated each time where the name stands.

* `Bindings.get?_set_self`, `Bindings.get?_set_of_ne`: setting a name changes that name only.
* `Bindings.source` makes the bindings a source; values and supplied values have to be finite.
-/

namespace Formulae

/-- What a name is bound to. -/
inductive Binding (σ : Type) where
  | value (x : Float)
  /-- Asked for a value each time, in a world that it may change. -/
  | supplier (ask : σ → Except Fault Float × σ)
  | formula (expression : Expression)

namespace Binding

variable {σ : Type}

/-- What a read of the binding yields. -/
def look (b : Binding σ) (world : σ) : Lookup × σ :=
  match b with
  | .value x => (.value (Number.checkFinite x), world)
  | .supplier ask =>
    let (outcome, world) := ask world
    (.value (outcome.bind Number.checkFinite), world)
  | .formula expression => (.formula expression.root, world)

/-- The binding in a short form. -/
def describe : Binding σ → String
  | .value x => "Value(" ++ Number.Layout.explicit.text x ++ ")"
  | .supplier _ => "Provider(..)"
  | .formula expression => "Expression(" ++ Text.quoted expression.source ++ ")"

end Binding

/-- Names and what they are bound to, each name once. -/
structure Bindings (σ : Type) where
  entries : List (String × Binding σ)

namespace Bindings

variable {σ : Type}

/-- No name bound. -/
def empty : Bindings σ := ⟨[]⟩

/-- Looks a name up in a list of entries. -/
def getIn : List (String × Binding σ) → String → Option (Binding σ)
  | [], _ => none
  | (key, b) :: rest, name => if key = name then some b else getIn rest name

/-- Binds a name in a list of entries, in its old place if it has one. -/
def setIn : List (String × Binding σ) → String → Binding σ → List (String × Binding σ)
  | [], name, b => [(name, b)]
  | (key, old) :: rest, name, b =>
    if key = name then (key, b) :: rest else (key, old) :: setIn rest name b

/-- What a name is bound to. -/
def get? (v : Bindings σ) (name : String) : Option (Binding σ) :=
  getIn v.entries name

/-- Binds a name, whatever it was bound to before. -/
def set (v : Bindings σ) (name : String) (b : Binding σ) : Bindings σ :=
  ⟨setIn v.entries name b⟩

/-- Unbinds a name. -/
def remove (v : Bindings σ) (name : String) : Bindings σ :=
  ⟨v.entries.filter fun entry => entry.1 ≠ name⟩

/-- Binds names in turn. -/
def ofList (entries : List (String × Binding σ)) : Bindings σ :=
  entries.foldl (fun v entry => v.set entry.1 entry.2) empty

/-- How many names are bound. -/
def size (v : Bindings σ) : Nat :=
  v.entries.length

/-- The bound names in the order of their code points. -/
def names (v : Bindings σ) : List String :=
  (v.entries.map Prod.fst).mergeSort fun a b => a ≤ b

/-- The bindings as a source of values. -/
def source (v : Bindings σ) : Source σ := fun name world =>
  match v.get? name with
  | none => (.unbound, world)
  | some b => b.look world

theorem getIn_setIn_self (entries : List (String × Binding σ)) (name : String) (b : Binding σ) :
    getIn (setIn entries name b) name = some b := by
  induction entries with
  | nil => simp [setIn, getIn]
  | cons entry rest ih =>
    obtain ⟨key, old⟩ := entry
    by_cases h : key = name <;> simp [setIn, getIn, h, ih]

theorem getIn_setIn_of_ne (entries : List (String × Binding σ)) {name other : String}
    (b : Binding σ) (h : name ≠ other) :
    getIn (setIn entries name b) other = getIn entries other := by
  induction entries with
  | nil => simp [setIn, getIn, h]
  | cons entry rest ih =>
    obtain ⟨key, old⟩ := entry
    by_cases hk : key = name
    · subst hk
      simp [setIn, getIn, h]
    · by_cases ho : key = other
      · subst ho
        simp [setIn, getIn, hk]
      · simp [setIn, getIn, hk, ho, ih]

@[simp] theorem get?_set_self (v : Bindings σ) (name : String) (b : Binding σ) :
    (v.set name b).get? name = some b :=
  getIn_setIn_self v.entries name b

theorem get?_set_of_ne (v : Bindings σ) {name other : String} (b : Binding σ)
    (h : name ≠ other) : (v.set name b).get? other = v.get? other :=
  getIn_setIn_of_ne v.entries b h

end Bindings

end Formulae
